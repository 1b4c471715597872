import ArrayLang.Document.Token

/-!
# The queue of tokens

Tokens that were found wait in a queue until they are used.  The queue keeps them in a store.  A
token that is used stays in its slot until the slot is needed: when the store is full, the waiting
tokens move to its front, and only if all of its tokens still wait, a larger store takes its place.
-/

namespace ArrayLang.Document

/-- A slot of the queue that somebody took note of. -/
inductive Noted where
  | nothing
  /-- A slot of the present store. -/
  | slot (i : Nat)
  /-- A slot of an earlier store, which held this token at the end. -/
  | left (t : Token)
  deriving Repr

/-- Tokens that wait, from the slot `head` up to `length`. -/
structure Queue where
  slots : Array Token := #[]
  length : Nat := 0
  head : Nat := 0
  noted : Noted := .nothing
  deriving Repr

namespace Queue

/-- The sizes of the stores that a queue uses one after the other. -/
def storeSizes : List Nat :=
  [1, 2, 4, 8, 18, 37, 75, 151, 341, 625, 1024, 1479, 2048, 2787, 3697, 4835, 6257, 8021, 10240,
    13027, 16497, 20821, 26225, 32995, 41472]

/-- The size of the store after one of the given size. -/
def nextSize (size : Nat) : Nat := (storeSizes.find? (size < ·)).getD (size + size / 4 + 1)

/-- The number of tokens that wait. -/
def waiting (q : Queue) : Nat := q.length - q.head

/-- The first token that waits. -/
def first? (q : Queue) : Option Token := if q.head < q.length then q.slots[q.head]? else none

/-- The token that came last. -/
def last? (q : Queue) : Option Token := if 0 < q.length then q.slots[q.length - 1]? else none

/-- The token before the one that came last. -/
def beforeLast? (q : Queue) : Option Token := if 1 < q.length then q.slots[q.length - 2]? else none

/-- Use the first token. -/
def drop (q : Queue) : Queue := { q with head := q.head + 1 }

/-- Take note of the slot of the first token. -/
def note (q : Queue) : Queue := { q with noted := .slot q.head }

/-- The token that is now in the slot that was noted. -/
def notedToken? (q : Queue) : Option Token :=
  match q.noted with
  | .nothing => none
  | .slot i => q.slots[i]?
  | .left t => some t

/-- Move the waiting tokens to the front of the store. -/
def moveUp (q : Queue) : Queue :=
  { q with
    slots := q.slots.extract q.head q.length ++ q.slots.extract q.waiting q.slots.size
    length := q.waiting
    head := 0 }

/-- Go over to a larger store. -/
def enlarge (q : Queue) : Queue :=
  { q with
    slots := q.slots ++ Array.replicate (nextSize q.slots.size - q.slots.size) default
    noted := match q.noted with
      | .slot i => .left (q.slots.getD i default)
      | n => n }

/-- Make room for one more token. -/
def makeRoom (q : Queue) : Queue :=
  let q := if 0 < q.head && q.length == q.slots.size then q.moveUp else q
  if q.length == q.slots.size then q.enlarge else q

/-- Add a token in front of the waiting token with a number, or at the end. -/
def insert (q : Queue) (number : Option Nat) (t : Token) : Queue :=
  let q := q.makeRoom
  let i := match number with
    | some n => min (q.head + n) q.length
    | none => q.length
  { q with
    slots := (q.slots.extract 0 i).push t ++ q.slots.extract i q.length ++
      q.slots.extract (q.length + 1) q.slots.size
    length := q.length + 1 }

/-- Add a token at the end. -/
def push (q : Queue) (t : Token) : Queue :=
  let q := q.makeRoom
  { q with slots := q.slots.setIfInBounds q.length t, length := q.length + 1 }

end Queue

end ArrayLang.Document
