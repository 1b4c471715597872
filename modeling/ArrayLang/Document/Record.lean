import ArrayLang.Document.Value

/-!
# Records in documents

A record is a mapping with known field names; other keys are passed over.  A key `<<` merges the
entries of other mappings, which give way to the mapping's own.  Aliases are followed.  A repeated
key is a mismatch.

Where a mapping is merged, its keys are read as values of any type, and with them all that they
contain.
-/

namespace ArrayLang.Document

open Text (Glyph)

/-- How a field is stored: from a node of a tree, where aliases may be followed `fuel` times in a
row. -/
abbrev Field (ρ ε : Type) := (tree : Tree) → (fuel : Nat) → (inAlias : Bool) → Node → Store ρ ε Unit

/-- What the entries of a mapping go into. -/
inductive Target (ρ ε : Type) where
  /-- A record with its fields.  A mapping that is merged into it may be an error of its own. -/
  | record (fields : List (String × Field ρ ε)) (merging : Node → Option ε)
  /-- A mapping whose keys are texts, or of any type. -/
  | map (texts : Bool)

/-- Two keys of a mapping are of one kind and have one text. -/
def sameKey : Node → Node → Bool
  | .scalar _ _ a, .scalar _ _ b => a == b
  | .alias _ a _, .alias _ b _ => a == b
  | .sequence .., .sequence .. | .mapping .., .mapping .. => true
  | _, _ => false

/-- Some key of a mapping is repeated. -/
def repeatsKey : List (Node × Node) → Bool
  | [] => false
  | (k, _) :: rest => rest.any (fun e => sameKey k e.1) || repeatsKey rest

/-- A key that merges other mappings. -/
def isMergeKey : Node → Bool
  | .scalar _ tag value => value == "<<" && tag == "!!merge"
  | _ => false

/-- The value of the merging key of a mapping. -/
def mergeValue? (entries : List (Node × Node)) :
    Option { v : Node // sizeOf v < sizeOf entries } :=
  match entries with
  | [] => none
  | (k, v) :: rest =>
    if isMergeKey k then
      some ⟨v, by simp only [List.cons.sizeOf_spec, Prod.mk.sizeOf_spec]; omega⟩
    else (mergeValue? rest).map fun ⟨v, _⟩ => ⟨v, by simp only [List.cons.sizeOf_spec]; omega⟩

/-- All keys of a mapping are texts. -/
def Tree.textKeys (tree : Tree) (entries : List (Node × Node)) : Bool :=
  entries.all fun e => ["!!str", "!!merge"].contains (tree.follow e.1).tag

namespace Store

variable {ρ ε : Type}

/-- Add a key to those that are taken.  It has to be a scalar. -/
def take (key : Loose) (taken : List Loose) : Store ρ ε (List Loose) :=
  if key.isScalar then pure (key :: taken) else refuse (.fault (.notKey key))

/-- A key as a text. -/
def textKey (tree : Tree) (inAlias : Bool) (k : Node) : Store ρ ε (Option Loose) := do
  return (← plain tree inAlias k).map fun v => .scalar .text v.2

/-- The text of a key. -/
def keyText : Loose → List Glyph
  | .scalar _ text => text
  | .list | .map _ => []

mutual

/-- The value of a node of any type; a mapping that repeats a key has none. -/
def loose (tree : Tree) (fuel : Nat) (inAlias : Bool) (n : Node) : Store ρ ε (Option Loose) := do
  visit inAlias
  match n with
  | .alias _ _ anchor =>
    match fuel with
    | 0 => refuse .malformed
    | rest + 1 => loose tree rest true (tree.anchor anchor)
  | .scalar _ tag value =>
    let (m, text) ← scalar tag value
    pure (some (.scalar m text))
  | .sequence _ _ items =>
    looseItems tree fuel inAlias items
    pure (some .list)
  | .mapping _ _ entries =>
    let texts := tree.textKeys entries
    if ← fill tree (.map texts) fuel inAlias entries then pure (some (.map texts)) else pure none
termination_by (fuel, sizeOf n, 0)

/-- Read values of any type one after the other. -/
def looseItems (tree : Tree) (fuel : Nat) (inAlias : Bool) (items : List Node) :
    Store ρ ε Unit := do
  match items with
  | [] => pure ()
  | n :: rest =>
    discard (loose tree fuel inAlias n)
    looseItems tree fuel inAlias rest
termination_by (fuel, sizeOf items, 0)

/-- Store the entries of a mapping with those that it merges.  A mapping that repeats a key is not
stored. -/
def fill (tree : Tree) (target : Target ρ ε) (fuel : Nat) (inAlias : Bool)
    (entries : List (Node × Node)) : Store ρ ε Bool := do
  if repeatsKey entries then
    mismatch
    return false
  let taken := (← get).taken
  modify fun s => { s with taken := none }
  let taken ← fillOwn tree target fuel inAlias [] taken entries
  modify fun s => { s with taken }
  match mergeValue? entries with
  | none => pure ()
  | some ⟨v, _⟩ =>
    if taken.isNone then
      modify fun s => { s with taken := some [] }
      takeKeys tree fuel inAlias entries
    merge tree target fuel inAlias true v
    if taken.isNone then modify fun s => { s with taken := none }
  return true
termination_by (fuel, sizeOf entries, 1)

/-- Store the entries of a mapping without those that it merges.  `done` are the fields that this
mapping has set.  The result are the keys that are taken. -/
def fillOwn (tree : Tree) (target : Target ρ ε) (fuel : Nat) (inAlias : Bool)
    (done : List String) (taken : Option (List Loose)) (entries : List (Node × Node)) :
    Store ρ ε (Option (List Loose)) := do
  match entries with
  | [] => pure taken
  | (k, v) :: rest =>
    if isMergeKey k then fillOwn tree target fuel inAlias done taken rest
    else
      let key ← match target with
        | .map false => loose tree fuel inAlias k
        | _ => textKey tree inAlias k
      match key with
      | none => fillOwn tree target fuel inAlias done taken rest
      | some key =>
        if taken.any fun keys => keys.any key.sameKey then
          fillOwn tree target fuel inAlias done taken rest
        else
          let taken ← match taken with
            | some keys => some <$> take key keys
            | none => pure none
          match target with
          | .map _ =>
            if !key.isScalar then refuse .malformed
            discard (loose tree fuel inAlias v)
            fillOwn tree target fuel inAlias done taken rest
          | .record fields _ =>
            match fields.find? fun f => Text.glyphsOfText f.1 == keyText key with
            | none => fillOwn tree target fuel inAlias done taken rest
            | some (name, field) =>
              if done.contains name then
                mismatch
                fillOwn tree target fuel inAlias done taken rest
              else
                field tree fuel inAlias v
                fillOwn tree target fuel inAlias (name :: done) taken rest
termination_by (fuel, sizeOf entries, 0)

/-- Take the keys of a mapping. -/
def takeKeys (tree : Tree) (fuel : Nat) (inAlias : Bool) (entries : List (Node × Node)) :
    Store ρ ε Unit := do
  match entries with
  | [] => pure ()
  | (k, _) :: rest =>
    match ← loose tree fuel inAlias k with
    | none => pure ()
    | some key =>
      let taken ← take key ((← get).taken.getD [])
      modify fun s => { s with taken := some taken }
    takeKeys tree fuel inAlias rest
termination_by (fuel, sizeOf entries, 0)

/-- Store the entries of a merged node: a mapping, or a list of mappings where `list` holds. -/
def merge (tree : Tree) (target : Target ρ ε) (fuel : Nat) (inAlias list : Bool) (n : Node) :
    Store ρ ε Unit := do
  match n with
  | .mapping line tag entries =>
    visit inAlias
    discard (mergeMapping tree target fuel inAlias line tag entries)
  | .alias _ _ anchor =>
    match fuel with
    | 0 => refuse .malformed
    | rest + 1 =>
      match tree.anchors[anchor]? with
      | some (.mapping line tag entries) =>
        visit inAlias
        visit true
        discard (mergeMapping tree target rest true line tag entries)
      | _ => refuse .malformed
  | .sequence _ _ items =>
    if list then mergeItems tree target fuel inAlias items else refuse .malformed
  | .scalar .. => refuse .malformed
termination_by (fuel, sizeOf n, 0)

/-- Store the entries of a merged mapping, unless that is an error of its own. -/
def mergeMapping (tree : Tree) (target : Target ρ ε) (fuel : Nat) (inAlias : Bool) (line : Nat)
    (tag : String) (entries : List (Node × Node)) : Store ρ ε Bool := do
  if let .record _ merging := target then
    if let some e := merging (.mapping line tag entries) then throw (.stopped e)
  fill tree target fuel inAlias entries
termination_by (fuel, sizeOf entries, 2)

/-- Store the entries of merged mappings in order. -/
def mergeItems (tree : Tree) (target : Target ρ ε) (fuel : Nat) (inAlias : Bool)
    (items : List Node) : Store ρ ε Unit := do
  match items with
  | [] => pure ()
  | n :: rest =>
    merge tree target fuel inAlias false n
    mergeItems tree target fuel inAlias rest
termination_by (fuel, sizeOf items, 0)

end

end Store

namespace Field

variable {ρ ε : Type}

/-- A field that holds a text; null leaves it unset. -/
def text (set : List Glyph → ρ → ρ) : Field ρ ε := fun tree _ inAlias n => do
  match ← Store.plain tree inAlias n with
  | none => pure ()
  | some (_, text) => Store.update (set text)

/-- A field of signed 64 bits; null leaves it unset. -/
def integer (set : Int → ρ → ρ) : Field ρ ε := fun tree _ inAlias n => do
  match ← Store.plain tree inAlias n with
  | none => pure ()
  | some (m, _) =>
    match m.integer? with
    | some v => Store.update (set v)
    | none => Store.mismatch

/-- A field of unsigned 32 bits; null leaves it unset. -/
def count (set : Nat → ρ → ρ) : Field ρ ε := fun tree _ inAlias n => do
  match ← Store.plain tree inAlias n with
  | none => pure ()
  | some (m, _) =>
    match m.count? with
    | some v => Store.update (set v)
    | none => Store.mismatch

end Field

/-- Store a document in a record.  A document that is null leaves it as it is; a scalar or a list is
a mismatch. -/
def storeRoot {ρ ε : Type} (fields : List (String × Field ρ ε)) (tree : Tree) : Store ρ ε Unit := do
  Store.visit false
  Store.visit false
  match tree.root with
  | .mapping _ _ entries =>
    discard (Store.fill tree (.record fields fun _ => none) (tree.anchors.size + 1) false entries)
  | .scalar _ tag value =>
    match ← Store.scalar tag value with
    | (.null, _) => pure ()
    | _ => Store.mismatch
  | .sequence .. | .alias .. => Store.mismatch

/-- Read a record from a text; an empty text leaves it as it is. -/
def readRecord {ρ ε : Type} (fields : List (String × Field ρ ε)) (start : ρ) (text : String) :
    Except (RecordError ε) ρ :=
  match parse text with
  | .error .malformed => .error (.refused .malformed)
  | .ok none => .ok start
  | .ok (some tree) =>
    match (storeRoot fields tree).run { record := start } with
    | .error e => .error e
    | .ok ((), s) => if s.mismatched then .error (.refused .mismatch) else .ok s.record

end ArrayLang.Document
