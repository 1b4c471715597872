import ArrayLang.Document.Resolve
import ArrayLang.Document.Scan

/-!
# Nodes of a document

A document is a tree of scalars, sequences and mappings.  An alias is a node of its own kind that
points to an anchored node of the same document.  Every node knows the line on which it starts,
counted from one.

Nodes are made from tokens, which are found as they are needed.  Where nothing was written for a
node, it is an empty scalar on the line of a token beside it.
-/

namespace ArrayLang.Document

/-- A node of a document. -/
inductive Node where
  | scalar (line : Nat) (tag value : String)
  | sequence (line : Nat) (tag : String) (items : List Node)
  | mapping (line : Nat) (tag : String) (entries : List (Node × Node))
  /-- An alias by the name of an anchor, and the place of that anchor among all of them. -/
  | alias (line : Nat) (name : String) (anchor : Nat)
  deriving Repr, Inhabited

/-- The line on which a node starts. -/
def Node.line : Node → Nat
  | .scalar line .. | .sequence line .. | .mapping line .. | .alias line .. => line

/-- The text of a scalar or the name of an alias; collections have none. -/
def Node.text : Node → String
  | .scalar _ _ value => value
  | .alias _ name _ => name
  | .sequence .. | .mapping .. => ""

/-- The tag of a node; an alias has none. -/
def Node.tag : Node → String
  | .scalar _ tag _ | .sequence _ tag _ | .mapping _ tag _ => tag
  | .alias .. => ""

/-- A document: its root and its anchored nodes. -/
structure Tree where
  root : Node
  anchors : Array Node

/-- The state while nodes are made from tokens. -/
structure Composer where
  scan : Scan
  /-- The anchors so far, with their nodes once these are complete. -/
  anchors : Array (String × Option Node) := #[]
  /-- What tag handles stand for. -/
  handles : List (String × String) := []

/-- A step that uses up tokens. -/
abbrev Compose := StateT Composer Option

namespace Compose

/-- The next token. -/
def peek : Compose Token := do
  let s ← get
  let (t, scan) ← s.scan.peek
  set { s with scan }
  pure t

/-- Use up a token. -/
def skip : Compose Unit := modify fun s => { s with scan := s.scan.skip }

/-- Take note of the slot of the next token. -/
def note : Compose Unit :=
  modify fun s => { s with scan := { s.scan with queue := s.scan.queue.note } }

/-- The token that is now in the slot that was noted. -/
def noted : Compose Token := do
  match (← get).scan.queue.notedToken? with
  | some t => pure t
  | none => failure

/-- The empty scalar that stands where nothing was written. -/
def emptyScalar (line : Nat) : Node := .scalar (line + 1) "!!null" ""

/-- The properties in front of a node. -/
structure Properties where
  /-- The line of the first property. -/
  line : Nat
  anchor : Option String := none
  tag : Option (String × String) := none

/-- The anchor and the tag in front of a node, in either order. -/
def properties : Compose Properties := do
  let t ← peek
  match t.kind with
  | .anchor name =>
    skip
    let next ← peek
    match next.kind with
    | .tag handle suffix =>
      skip
      pure { line := t.line, anchor := some name, tag := some (handle, suffix) }
    | _ => pure { line := t.line, anchor := some name }
  | .tag handle suffix =>
    skip
    let next ← peek
    match next.kind with
    | .anchor name =>
      skip
      pure { line := t.line, anchor := some name, tag := some (handle, suffix) }
    | _ => pure { line := t.line, tag := some (handle, suffix) }
  | _ => pure { line := t.line }

/-- The full tag of a node; a handle has to be known. -/
def fullTag : Option (String × String) → Compose String
  | none => pure ""
  | some (handle, suffix) => do
    if handle == "" then pure suffix
    else
      match (← get).handles.find? fun h => h.1 == handle with
      | some (_, stem) =>
        let tag := stem ++ suffix
        if tag == "" then failure else pure tag
      | none => failure

/-- The short tag of a scalar. -/
def scalarTag (tag text : String) (plain : Bool) : String :=
  if tag != "" && tag != "!" then shortTag tag
  else if !plain then "!!str"
  else if text == "<<" then "!!merge"
  else (meaning "" text).tag

/-- The short tag of a collection. -/
def collectionTag (tag standard : String) : String :=
  if tag != "" && tag != "!" then shortTag tag else standard

/-- Note that an anchored node starts; the result is its place. -/
def openAnchor : Option String → Compose (Option Nat)
  | none => pure none
  | some name => do
    let place := (← get).anchors.size
    modify fun s => { s with anchors := s.anchors.push (name, none) }
    pure (some place)

/-- Note that an anchored node is complete. -/
def closeAnchor (place : Option Nat) (node : Node) : Compose Node := do
  match place with
  | none => pure node
  | some i =>
    modify fun s => { s with anchors := s.anchors.modify i fun a => (a.1, some node) }
    pure node

/-- The place of the latest anchor with a name. -/
def findAnchor (name : String) : Compose Nat := do
  let anchors := (← get).anchors
  match (List.range anchors.size).reverse.find? fun i => anchors[i]?.any fun a => a.1 == name with
  | some i => pure i
  | none => failure

/-- Properties without a node stand for an empty scalar. -/
def bare (p : Properties) (tag : String) : Compose Node := do
  if p.anchor.isNone && tag == "" then failure
  let place ← openAnchor p.anchor
  closeAnchor place (.scalar (p.line + 1) (scalarTag tag "" true) "")

mutual

/-- A node.  Block collections are allowed if `block` holds, and items of a sequence without
indentation if `indentless` holds. -/
def node (block indentless : Bool) : (fuel : Nat) → Compose Node
  | 0 => failure
  | fuel + 1 => do
    let t ← peek
    if let .alias name := t.kind then
      skip
      return .alias (t.line + 1) name (← findAnchor name)
    let p ← properties
    let t ← peek
    let tag ← fullTag p.tag
    let line := p.line + 1
    match t.kind with
    | .blockEntry =>
      if indentless then
        let place ← openAnchor p.anchor
        closeAnchor place
          (.sequence line (collectionTag tag "!!seq") (← indentlessItems fuel))
      else bare p tag
    | .scalar text plain =>
      skip
      let place ← openAnchor p.anchor
      closeAnchor place (.scalar line (scalarTag tag text plain) text)
    | .flowSequenceStart =>
      skip
      let place ← openAnchor p.anchor
      closeAnchor place (.sequence line (collectionTag tag "!!seq") (← flowItems true fuel))
    | .flowMappingStart =>
      skip
      let place ← openAnchor p.anchor
      closeAnchor place (.mapping line (collectionTag tag "!!map") (← flowEntries true fuel))
    | .blockSequenceStart =>
      if block then
        skip
        let place ← openAnchor p.anchor
        closeAnchor place (.sequence line (collectionTag tag "!!seq") (← blockItems fuel))
      else bare p tag
    | .blockMappingStart =>
      if block then
        skip
        let place ← openAnchor p.anchor
        closeAnchor place (.mapping line (collectionTag tag "!!map") (← blockEntries fuel))
      else bare p tag
    | _ => bare p tag

/-- The items of a block sequence. -/
def blockItems : (fuel : Nat) → Compose (List Node)
  | 0 => failure
  | fuel + 1 => do
    let t ← peek
    match t.kind with
    | .blockEntry =>
      skip
      let next ← peek
      let item ← match next.kind with
        | .blockEntry | .blockEnd => pure (emptyScalar t.line)
        | _ => node true false fuel
      pure (item :: (← blockItems fuel))
    | .blockEnd =>
      skip
      pure []
    | _ => failure

/-- The items of a sequence that is not indented against its mapping. -/
def indentlessItems : (fuel : Nat) → Compose (List Node)
  | 0 => failure
  | fuel + 1 => do
    let t ← peek
    match t.kind with
    | .blockEntry =>
      skip
      let next ← peek
      let item ← match next.kind with
        | .blockEntry | .key | .value | .blockEnd => pure (emptyScalar t.line)
        | _ => node true false fuel
      pure (item :: (← indentlessItems fuel))
    | _ => pure []

/-- The entries of a block mapping. -/
def blockEntries : (fuel : Nat) → Compose (List (Node × Node))
  | 0 => failure
  | fuel + 1 => do
    let t ← peek
    match t.kind with
    | .key =>
      skip
      let next ← peek
      let key ← match next.kind with
        | .key | .value | .blockEnd => pure (emptyScalar t.line)
        | _ => node true true fuel
      let value ← blockValue fuel
      pure ((key, value) :: (← blockEntries fuel))
    | .blockEnd =>
      skip
      pure []
    | _ => failure

/-- The value of an entry of a block mapping. -/
def blockValue : (fuel : Nat) → Compose Node
  | 0 => failure
  | fuel + 1 => do
    let t ← peek
    match t.kind with
    | .value =>
      skip
      let next ← peek
      match next.kind with
      | .key | .value | .blockEnd => pure (emptyScalar t.line)
      | _ => node true true fuel
    | _ => pure (emptyScalar t.line)

/-- The items of a flow sequence. -/
def flowItems (first : Bool) : (fuel : Nat) → Compose (List Node)
  | 0 => failure
  | fuel + 1 => do
    let t ← peek
    if t.kind == .flowSequenceEnd then
      skip
      return []
    if !first then
      if t.kind == .flowEntry then skip else failure
    let t ← peek
    match t.kind with
    | .key =>
      skip
      let key ← pairKey fuel
      let value ← pairValue fuel
      let pair := .mapping (t.line + 1) "!!map" [(key, value)]
      pure (pair :: (← flowItems false fuel))
    | .flowSequenceEnd =>
      skip
      pure []
    | _ =>
      let item ← node false false fuel
      pure (item :: (← flowItems false fuel))

/-- The key of a single pair inside a flow sequence. -/
def pairKey : (fuel : Nat) → Compose Node
  | 0 => failure
  | fuel + 1 => do
    let t ← peek
    match t.kind with
    | .value | .flowEntry | .flowSequenceEnd =>
      skip
      pure (emptyScalar t.line)
    | _ => node false false fuel

/-- The value of a single pair inside a flow sequence.  An empty value gets the line of the token
that has taken the slot of the `:`. -/
def pairValue : (fuel : Nat) → Compose Node
  | 0 => failure
  | fuel + 1 => do
    let t ← peek
    match t.kind with
    | .value =>
      note
      skip
      let next ← peek
      match next.kind with
      | .flowEntry | .flowSequenceEnd => pure (emptyScalar (← noted).line)
      | _ => node false false fuel
    | _ => pure (emptyScalar t.line)

/-- The entries of a flow mapping. -/
def flowEntries (first : Bool) : (fuel : Nat) → Compose (List (Node × Node))
  | 0 => failure
  | fuel + 1 => do
    let t ← peek
    if t.kind == .flowMappingEnd then
      skip
      return []
    if !first then
      if t.kind == .flowEntry then skip else failure
    let t ← peek
    match t.kind with
    | .key =>
      skip
      let next ← peek
      let key ← match next.kind with
        | .value | .flowEntry | .flowMappingEnd => pure (emptyScalar next.line)
        | _ => node false false fuel
      let value ← flowValue fuel
      pure ((key, value) :: (← flowEntries false fuel))
    | .flowMappingEnd =>
      skip
      pure []
    | _ =>
      let key ← node false false fuel
      let next ← peek
      pure ((key, emptyScalar next.line) :: (← flowEntries false fuel))

/-- The value of an entry of a flow mapping. -/
def flowValue : (fuel : Nat) → Compose Node
  | 0 => failure
  | fuel + 1 => do
    let t ← peek
    match t.kind with
    | .value =>
      skip
      let next ← peek
      match next.kind with
      | .flowEntry | .flowMappingEnd => pure (emptyScalar next.line)
      | _ => node false false fuel
    | _ => pure (emptyScalar t.line)

end

/-- The handles that are known without a directive. -/
def standardHandles : List (String × String) := [("!", "!"), ("!!", "tag:yaml.org,2002:")]

/-- The directives in front of a document. -/
def directives : (fuel : Nat) → (version : Bool) → List (String × String) → Compose Unit
  | 0, _, _ => failure
  | fuel + 1, version, handles => do
    let t ← peek
    match t.kind with
    | .versionDirective major minor =>
      if version || major != 1 || minor != 1 then failure
      skip
      directives fuel true handles
    | .tagDirective handle stem =>
      if handles.any fun h => h.1 == handle then failure
      skip
      directives fuel version (handles ++ [(handle, stem)])
    | _ =>
      let rest := standardHandles.filter fun h => !handles.any fun g => g.1 == h.1
      modify fun s => { s with handles := handles ++ rest }

/-- The root of the first document; nothing if there is none. -/
def document (fuel : Nat) : Compose (Option Node) := do
  discard peek
  skip
  let t ← peek
  match t.kind with
  | .streamEnd => pure none
  | .versionDirective .. | .tagDirective .. | .documentStart =>
    directives fuel false []
    let start ← peek
    if start.kind != .documentStart then failure
    skip
    let next ← peek
    let root ← match next.kind with
      | .versionDirective .. | .tagDirective .. | .documentStart | .documentEnd | .streamEnd =>
        pure (emptyScalar next.line)
      | _ => node true false fuel
    discard peek
    pure (some root)
  | _ =>
    directives fuel false []
    let root ← node true false fuel
    discard peek
    pure (some root)

end Compose

/-- Why a text is no document. -/
inductive DocumentError where
  | malformed
  deriving DecidableEq, Repr

/-- An error in words. -/
def DocumentError.message : DocumentError → String
  | .malformed => "yaml: malformed document"

/-- The first document of a text; nothing if the text holds none. -/
def parse (text : String) : Except DocumentError (Option Tree) :=
  let cursor := Cursor.start text.toList
  match (Compose.document (10 * cursor.bound)).run { scan := { cursor } } with
  | none => .error .malformed
  | some (none, _) => .ok none
  | some (some root, s) =>
    .ok (some { root, anchors := s.anchors.map fun a => a.2.getD default })

end ArrayLang.Document
