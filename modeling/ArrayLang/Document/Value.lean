import ArrayLang.Document.Node
import ArrayLang.Text.Base64
import ArrayLang.Text.Utf8

/-!
# Values in documents

What the nodes of a document mean as values.  A text can come from binary data and then hold stray
bytes.

A value that does not suit its place is a mismatch: the rest is still read, and the mismatch is
reported at the end.  A scalar that contradicts its own tag, a node that contains itself and a
document that repeats itself too much through aliases end the reading at once.
-/

namespace ArrayLang.Document

open Text (Glyph)

/-- The text that units stand for, with U+FFFD for stray bytes. -/
def lenientText (units : List Glyph) : String :=
  String.ofList (units.map fun
    | .char c => c
    | .stray _ => '�')

/-- An anchored node. -/
def Tree.anchor (tree : Tree) (place : Nat) : Node := tree.anchors[place]?.getD default

/-- The node that an alias stands for; other nodes stand for themselves. -/
def Tree.follow (tree : Tree) : Node → Node
  | .alias _ _ anchor => tree.anchor anchor
  | n => n

/-- A value that is read without knowing what it should be. -/
inductive Loose where
  | scalar (m : Meaning) (text : List Glyph)
  | list
  /-- A mapping; `texts` tells whether all of its keys are texts. -/
  | map (texts : Bool)
  deriving Repr

namespace Loose

/-- The name of the type that holds a value. -/
def typeName : Loose → String
  | .scalar .null _ => "<nil>"
  | .scalar (.bool _) _ => "bool"
  | .scalar (.int n) _ => if n < 0x8000000000000000 then "int" else "uint64"
  | .scalar (.float _) _ => "float64"
  | .scalar .timestamp _ => "time.Time"
  | .scalar .text _ => "string"
  | .list => "[]interface \x7b\x7d"
  | .map true => "map[string]interface \x7b\x7d"
  | .map false => "map[interface \x7b\x7d]interface \x7b\x7d"

/-- A scalar; only scalars can be kept as keys. -/
def isScalar : Loose → Bool
  | .scalar .. => true
  | .list | .map _ => false

/-- Two values are the same key.  What is not a number differs from itself, and zero has no sign. -/
def sameKey : Loose → Loose → Bool
  | .scalar .text a, .scalar .text b | .scalar .timestamp a, .scalar .timestamp b => a == b
  | .scalar (.float .nan) _, .scalar (.float .nan) _ => false
  | .scalar (.float (.finite _ 0 _)) _, .scalar (.float (.finite _ 0 _)) _ => true
  | .scalar a _, .scalar b _ => a == b
  | _, _ => false

end Loose

/-- A use of a value that its type does not allow. -/
inductive Fault where
  | notKey (v : Loose)
  | notStatement (v : Loose)
  deriving Repr

/-- A fault in words. -/
def Fault.message : Fault → String
  | .notKey v => s!"runtime error: hash of unhashable type {v.typeName}"
  | .notStatement v =>
    s!"reflect.Set: value of type {v.typeName} is not assignable to type ast.Stmt"

/-- Why a value cannot be read. -/
inductive Refusal where
  /-- The document contradicts itself. -/
  | malformed
  /-- A value does not suit its place. -/
  | mismatch
  | fault (f : Fault)
  deriving Repr

/-- The tags under which a scalar has to have a meaning; under any other it is a text. -/
def isMeaningTag (tag : String) : Bool :=
  ["!!bool", "!!int", "!!float", "!!null", "!!timestamp"].contains tag

/-- The meaning of a scalar and its text.  Binary data is decoded. -/
def scalarValue (tag value : String) : Except Refusal (Meaning × List Glyph) :=
  if isMeaningTag tag then
    match resolve? tag value with
    | some m => .ok (m, Text.glyphsOfText value)
    | none => .error .malformed
  else if tag == "!!binary" then
    match Text.decodeBase64 value.toList with
    | some bytes => .ok (.text, Text.glyphs bytes)
    | none => .error .malformed
  else .ok (.text, Text.glyphsOfText value)

/-- The whole number that a real number is stored as in a field of signed 64 bits: its fraction is
dropped, and a number below the range becomes the least one. -/
def storedInteger? : Text.Real → Option Int
  | .nan | .infinite false => none
  | .infinite true => some (-0x8000000000000000)
  | x => do
    let n ← x.truncate
    if n < -0x8000000000000000 then some (-0x8000000000000000)
    else if n < 0x8000000000000000 then some n
    else if n = 0x8000000000000000 then some (-0x8000000000000000)
    else none

/-- The value of a meaning in a field of signed 64 bits. -/
def Meaning.integer? : Meaning → Option Int
  | .int n => if n < 0x8000000000000000 then some n else none
  | .float x => storedInteger? x
  | _ => none

/-- The value of a meaning in a field of unsigned 32 bits. -/
def Meaning.count? (m : Meaning) : Option Nat :=
  let fit (n : Int) : Option Nat := if 0 ≤ n ∧ n < 0x100000000 then some n.toNat else none
  match m with
  | .int n => fit n
  | .float x => x.truncate.bind fit
  | _ => none

/-! ## Reading values -/

/-- How a reading ends early: the document cannot be read, or a reader stopped with an error of its
own. -/
inductive RecordError (ε : Type) where
  | refused (r : Refusal)
  | stopped (e : ε)

/-- The state while values are stored in a record. -/
structure Storing (ρ : Type) where
  record : ρ
  /-- The number of nodes read so far. -/
  nodes : Nat := 0
  /-- How many of them were reached through an alias. -/
  aliased : Nat := 0
  mismatched : Bool := false
  /-- The keys that merged mappings may not set any more, while there are such mappings. -/
  taken : Option (List Loose) := none

/-- A step that reads values and stores them. -/
abbrev Store (ρ ε : Type) := StateT (Storing ρ) (Except (RecordError ε))

namespace Store

variable {ρ ε : Type}

/-- End the reading. -/
def refuse {α : Type} (r : Refusal) : Store ρ ε α := throw (.refused r)

/-- Note a mismatch. -/
def mismatch : Store ρ ε Unit := modify fun s => { s with mismatched := true }

/-- Change the record. -/
def update (f : ρ → ρ) : Store ρ ε Unit := modify fun s => { s with record := f s.record }

/-- Too many of the nodes come from aliases: 99 of 100 in documents up to 400000 nodes, and one of
ten from 4000000 on. -/
def isExcessive (nodes aliased : Nat) : Bool :=
  100 < aliased && 1000 < nodes &&
    if nodes ≤ 400000 then 99 * nodes < 100 * aliased
    else if 4000000 ≤ nodes then nodes < 10 * aliased
    else nodes * (356400000 - 89 * (nodes - 400000)) < 360000000 * aliased

/-- Count a node, which may have been reached through an alias. -/
def visit (inAlias : Bool) : Store ρ ε Unit := do
  let s ← get
  let s := { s with nodes := s.nodes + 1, aliased := s.aliased + if inAlias then 1 else 0 }
  if isExcessive s.nodes s.aliased then refuse .malformed
  set s

/-- Go to the node that an alias stands for; another node stands for itself.  The flag tells whether
the node was reached through an alias. -/
def reach (tree : Tree) (inAlias : Bool) (n : Node) : Store ρ ε (Node × Bool) := do
  visit inAlias
  match n with
  | .alias _ _ anchor =>
    visit true
    pure (tree.anchor anchor, true)
  | n => pure (n, inAlias)

/-- The value of a scalar. -/
def scalar (tag value : String) : Store ρ ε (Meaning × List Glyph) :=
  match scalarValue tag value with
  | .ok v => pure v
  | .error r => refuse r

/-- The value of a node that has to be a scalar.  Null has none. -/
def plain (tree : Tree) (inAlias : Bool) (n : Node) :
    Store ρ ε (Option (Meaning × List Glyph)) := do
  match ← reach tree inAlias n with
  | (.scalar _ tag value, _) =>
    match ← scalar tag value with
    | (.null, _) => pure none
    | v => pure (some v)
  | _ =>
    mismatch
    pure none

end Store

end ArrayLang.Document
