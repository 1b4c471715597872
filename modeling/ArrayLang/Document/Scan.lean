import ArrayLang.Document.Comment
import ArrayLang.Document.Queue
import ArrayLang.Document.Tag

/-!
# Finding tokens

Tokens are found one after the other, only as far as they are asked for.  Block structure comes from
columns: a deeper column opens a collection, a shallower one closes collections.

A key without mark is recognised only at the `:` behind it, so its tokens are put in front of it
afterwards.  Such a key stands on one line and is at most 1024 characters long.  A token is used
only when it can no longer turn out to be a key and two more tokens wait behind it, so a failure
shortly behind the end of the first document is still seen.
-/

namespace ArrayLang.Document

/-- A place that may turn out to start a key; every open flow collection has one, and so has the
block around all of them. -/
structure KeySlot where
  /-- The place may still turn out to start a key. -/
  possible : Bool := false
  /-- The next token at this column has to be a key. -/
  required : Bool := false
  /-- The number of tokens before the key. -/
  number : Nat := 0
  place : Place := {}
  deriving Repr, Inhabited

/-- The state of the search for tokens. -/
structure Scan where
  cursor : Cursor
  /-- The tokens that wait. -/
  queue : Queue := Queue.push {} ⟨.streamStart, {}⟩
  /-- The number of tokens that were used. -/
  used : Nat := 0
  /-- The column of the innermost open block collection. -/
  indent : Int := -1
  /-- The columns of the open block collections around it. -/
  indents : List Int := []
  /-- A key without mark may start here. -/
  keyAllowed : Bool := true
  /-- The places of keys, innermost last. -/
  keys : Array KeySlot := #[{}]
  /-- The numbers of tokens that may start a key, with their places in `keys`. -/
  keyAt : List (Nat × Nat) := []
  /-- The comments that no token has passed. -/
  comments : List Comment := []

namespace Scan

/-- The number of open flow collections. -/
def flowLevel (s : Scan) : Nat := s.keys.size - 1

/-- Outside all flow collections. -/
def inBlock (s : Scan) : Bool := s.flowLevel == 0

/-- The number that the next token gets. -/
def nextNumber (s : Scan) : Nat := s.used + s.queue.waiting

/-- Add a token at the end. -/
def emit (s : Scan) (kind : Token.Kind) (place : Place) : Scan :=
  { s with queue := s.queue.push ⟨kind, place⟩ }

/-- Add a token that starts at the cursor and is `width` characters long. -/
def emitHere (s : Scan) (kind : Token.Kind) (width : Nat) : Scan :=
  { s.emit kind s.cursor.place with cursor := s.cursor.advanceBy width }

/-- Put a token in front of the token with the given number, or at the end if that token was
used. -/
def insert (s : Scan) (number : Nat) (kind : Token.Kind) (place : Place) : Scan :=
  if number < s.used then s.emit kind place
  else { s with queue := s.queue.insert (number - s.used) ⟨kind, place⟩ }

/-! ## Keys without mark -/

/-- The place of a key at the present level. -/
def key (s : Scan) : KeySlot := s.keys.back?.getD {}

/-- Replace the place of a key at the present level. -/
def setKey (s : Scan) (key : KeySlot) : Scan := { s with keys := s.keys.pop.push key }

/-- The token with a number starts no key. -/
def forgetNumber (s : Scan) (number : Nat) : Scan :=
  { s with keyAt := s.keyAt.filter fun k => k.1 != number }

/-- Give up the key at the present level; one that is required may not be given up. -/
def dropKey (s : Scan) : Option Scan :=
  let key := s.key
  if !key.possible then some s
  else if key.required then none
  else some ((s.setKey { key with possible := false }).forgetNumber key.number)

/-- Note that a key may start at the cursor. -/
def saveKey (s : Scan) : Option Scan :=
  if s.keyAllowed then do
    let key : KeySlot :=
      { possible := true, required := s.inBlock && s.indent == s.cursor.column,
        number := s.nextNumber, place := s.cursor.place }
    let s := ((← s.dropKey).setKey key).forgetNumber key.number
    pure { s with keyAt := (key.number, s.flowLevel) :: s.keyAt }
  else some s

/-- Whether a place may still turn out to start a key: the cursor is on its line and near enough. -/
def keyStands (s : Scan) (slot : Nat) : Option (Bool × Scan) := do
  let key ← s.keys[slot]?
  if !key.possible then return (false, s)
  if key.place.line < s.cursor.line || key.place.index + 1024 < s.cursor.place.index then
    if key.required then none
    return (false, { s with keys := s.keys.setIfInBounds slot { key with possible := false } })
  return (true, s)

/-! ## Block structure -/

/-- The largest number of collections that may be open at once. -/
def nestingLimit : Nat := 10000

/-- Open a block collection if the column lies deeper than the innermost one.  Its token stands in
front of the token with the given number, or at the end. -/
def openBlock (s : Scan) (column : Nat) (number : Option Nat) (kind : Token.Kind) (place : Place) :
    Option Scan :=
  if s.inBlock && s.indent < column then
    if nestingLimit ≤ s.indents.length then none
    else
      let s := { s with indents := s.indent :: s.indents, indent := column }
      some (match number with
        | some n => s.insert n kind place
        | none => s.emit kind place)
  else some s

/-- Close the block collections that lie deeper than the column. -/
def closeBlocks (column : Int) (place : Place) : List Int → Scan → Scan
  | [], s => s
  | outer :: rest, s =>
    if column < s.indent then
      let place := blockEndPlace s.indent place.index place s.comments.reverse
      closeBlocks column place rest
        ({ s with indent := outer, indents := rest }.emit .blockEnd place)
    else s

/-- Close the block collections that lie deeper than the column, outside flow collections.  They end
before `place`. -/
def closeDeeper (s : Scan) (column : Int) (place : Place) : Scan :=
  if s.inBlock then closeBlocks column { place with index := place.index - 1 } s.indents s else s

/-- Forget block structure and keys at a document mark, a directive or the end. -/
def reset (s : Scan) : Option Scan := do
  let s ← (s.closeDeeper (-1) s.cursor.place).dropKey
  pure { s with keyAllowed := false }

/-! ## Tokens of each kind -/

/-- The end of the text. -/
def fetchEnd (s : Scan) : Option Scan := do
  let c := s.cursor
  let place := c.place
  let place := if place.column = 0 then place else ⟨place.index, place.line + 1, 0⟩
  let s ← { s with cursor := { c with place } }.reset
  pure (s.emit .streamEnd place)

/-- A directive at the start of a line. -/
def fetchDirective (s : Scan) : Option Scan := do
  let s ← s.reset
  let place := s.cursor.place
  let c ← s.cursor.advance.need 1
  let name := c.takeWhile isNameChar
  let c ← c.walk 1 name.length
  if name.isEmpty || !isSeparator c.head then none
  let (kind, c) ←
    if String.ofList name == "YAML" then do
      let (major, c) ← versionPart? (← c.skipWhile isGap)
      if c.head != some '.' then none
      let (minor, c) ← versionPart? c.advance
      pure (Token.Kind.versionDirective major minor, c)
    else if String.ofList name == "TAG" then do
      let (handle, c) ← tagHandle? true (← c.skipWhile isGap)
      let c ← c.need 1
      if !c.head.any isGap then none
      let (stem, c) ← tagText? (← c.skipWhile isGap)
      if !isSeparator c.head then none
      pure (.tagDirective (String.ofList handle) (String.ofList stem), c)
    else none
  let c ← (← c.need 1).skipWhile isGap
  let c ← if c.head == some '#' then c.skipLine else some c
  if !isLineEndOrStop c.head then none
  let c ← if c.head.any isLineEnd then c.need 2 else some c
  pure ({ s with cursor := c.advanceLine }.emit kind place)

/-- A document mark at the start of a line. -/
def fetchDocumentMark (s : Scan) (kind : Token.Kind) : Option Scan := do
  pure ((← s.reset).emitHere kind 3)

/-- The start of a flow collection. -/
def fetchFlowStart (s : Scan) (kind : Token.Kind) : Option Scan := do
  let s ← s.saveKey
  if nestingLimit ≤ s.flowLevel then none
  let key : KeySlot := { number := s.nextNumber, place := s.cursor.place }
  pure ({ s with keys := s.keys.push key, keyAllowed := true }.emitHere kind 1)

/-- The end of a flow collection. -/
def fetchFlowEnd (s : Scan) (kind : Token.Kind) : Option Scan := do
  let s ← s.dropKey
  let s := if s.inBlock then s
    else { s.forgetNumber s.key.number with keys := s.keys.pop }
  pure ({ s with keyAllowed := false }.emitHere kind 1)

/-- A comma between the items of a flow collection. -/
def fetchFlowEntry (s : Scan) : Option Scan := do
  let s ← s.dropKey
  pure ({ s with keyAllowed := true }.emitHere .flowEntry 1)

/-- The mark of an item of a block sequence. -/
def fetchBlockEntry (s : Scan) : Option Scan := do
  if s.inBlock && !s.keyAllowed then none
  let s ← s.openBlock s.cursor.column none .blockSequenceStart s.cursor.place
  let s ← s.dropKey
  pure ({ s with keyAllowed := true }.emitHere .blockEntry 1)

/-- The mark of a key. -/
def fetchKey (s : Scan) : Option Scan := do
  if s.inBlock && !s.keyAllowed then none
  let s ← s.openBlock s.cursor.column none .blockMappingStart s.cursor.place
  let s ← s.dropKey
  pure ({ s with keyAllowed := s.inBlock }.emitHere .key 1)

/-- The mark of a value.  What may be a key is one if it stands on the same line. -/
def fetchValue (s : Scan) : Option Scan := do
  let (stands, s) ← s.keyStands s.flowLevel
  if stands then
    let key := s.key
    let s := s.insert key.number .key key.place
    let s ← s.openBlock key.place.column (some key.number) .blockMappingStart key.place
    let s := (s.setKey { key with possible := false }).forgetNumber key.number
    pure ({ s with keyAllowed := false }.emitHere .value 1)
  else
    if s.inBlock && !s.keyAllowed then none
    let s ← s.openBlock s.cursor.column none .blockMappingStart s.cursor.place
    pure ({ s with keyAllowed := s.inBlock }.emitHere .value 1)

/-- An anchor or an alias. -/
def fetchName (s : Scan) (kind : String → Token.Kind) : Option Scan := do
  let s ← s.saveKey
  let place := s.cursor.place
  let c ← s.cursor.advance.need 1
  let name := c.takeWhile isNameChar
  let c ← c.walk 1 name.length
  let ended := isSeparator c.head ||
    c.head.any fun ch => ['?', ':', ',', ']', '}', '%', '@', '`'].contains ch
  if name.isEmpty || !ended then none
  pure ({ s with cursor := c, keyAllowed := false }.emit (kind (String.ofList name)) place)

/-- A tag: verbatim in angle brackets, or a handle and a suffix. -/
def fetchTag (s : Scan) : Option Scan := do
  let s ← s.saveKey
  let place := s.cursor.place
  let (handle, suffix, c) ←
    if s.cursor.peek 1 == some '<' then do
      let (text, c) ← tagText? (s.cursor.advanceBy 2)
      if c.head != some '>' then none
      pure ([], text, c.advance)
    else do
      let (handle, c) ← tagHandle? false s.cursor
      if 1 < handle.length && handle.getLast? == some '!' then
        let (suffix, c) ← tagText? c
        pure (handle, suffix, c)
      else
        let (rest, c) ← tagChars? c.bound #[] c
        let suffix := handle.tail ++ rest.toList
        if suffix.isEmpty then pure ([], ['!'], c) else pure (['!'], suffix, c)
  let c ← c.need 1
  if !isSeparator c.head then none
  pure ({ s with cursor := c, keyAllowed := false }.emit
    (.tag (String.ofList handle) (String.ofList suffix)) place)

/-- A block scalar. -/
def fetchBlockScalar (s : Scan) (literal : Bool) : Option Scan := do
  let s ← s.dropKey
  let place := s.cursor.place
  let (chomping, increment, c) ← readBlockHeader? s.cursor.advance
  let c ← (← c.need 1).skipWhile isGap
  let (comments, c) ←
    if c.head == some '#' then lineComment place s.comments 0 512 c else some (s.comments, c)
  if !isLineEndOrStop c.head then none
  let c ← if c.head.any isLineEnd then c.need 2 else some c
  let (text, c) ← readBlock literal s.indent chomping increment c.advanceLine
  pure ({ s with cursor := c, comments, keyAllowed := true }.emit
    (.scalar (String.ofList text.toList) false) place)

/-- A quoted scalar. -/
def fetchQuoted (s : Scan) (single : Bool) : Option Scan := do
  let s ← s.saveKey
  let (text, c) ← readQuoted single s.cursor.bound #[] s.cursor.advance
  pure ({ s with cursor := c, keyAllowed := false }.emit
    (.scalar (String.ofList text.toList) false) s.cursor.place)

/-- A plain scalar. -/
def fetchPlain (s : Scan) : Option Scan := do
  let s ← s.saveKey
  let (text, broken, c) ← readPlain (!s.inBlock) (s.indent + 1) s.cursor.bound #[] {} s.cursor
  pure ({ s with cursor := c, keyAllowed := broken }.emit
    (.scalar (String.ofList text.toList) true) s.cursor.place)

/-- Characters that cannot start a plain scalar unless a rule of their own allows it. -/
def isIndicator (c : Char) : Bool :=
  ['-', '?', ':', ',', '[', ']', '{', '}', '#', '&', '*', '!', '|', '>', '\'', '"', '%', '@',
    '`'].contains c

/-- A token other than the end, a directive or a document mark. -/
def fetchContent (s : Scan) (c : Char) : Option Scan :=
  let next := s.cursor.peek 1
  if c == '[' then s.fetchFlowStart .flowSequenceStart
  else if c == '{' then s.fetchFlowStart .flowMappingStart
  else if c == ']' then s.fetchFlowEnd .flowSequenceEnd
  else if c == '}' then s.fetchFlowEnd .flowMappingEnd
  else if c == ',' then s.fetchFlowEntry
  else if c == '-' && isSeparator next then s.fetchBlockEntry
  else if c == '?' && (!s.inBlock || isSeparator next) then s.fetchKey
  else if c == ':' && (!s.inBlock || isSeparator next) then s.fetchValue
  else if c == '*' then s.fetchName .alias
  else if c == '&' then s.fetchName .anchor
  else if c == '!' then s.fetchTag
  else if c == '|' && s.inBlock then s.fetchBlockScalar true
  else if c == '>' && s.inBlock then s.fetchBlockScalar false
  else if c == '\'' then s.fetchQuoted true
  else if c == '"' then s.fetchQuoted false
  else if !(isGap c || isIndicator c) || (c == '-' && !next.any isGap) ||
      (s.inBlock && (c == '?' || c == ':') && !isSeparator next) then s.fetchPlain
  else none

/-! ## Between tokens -/

/-- A comment behind the mark of the first item of a sequence belongs to what follows, once that is
met at the cursor. -/
def settleComment (s : Scan) : Scan :=
  match s.queue.beforeLast?, s.queue.last?, s.comments.getLast? with
  | some ⟨.blockSequenceStart, _⟩, some ⟨.blockEntry, _⟩, some comment =>
    if comment.kind == .line && !s.cursor.head.any isLineEnd then
      let since := if comment.start.line + 1 == s.cursor.line then s.cursor.place.index
        else comment.since
      { s with comments := s.comments.dropLast ++ [{ comment with kind := .head, since }] }
    else s
  | _, _, _ => s

/-- Pass over the comments at the cursor; `start` is where the last token ended. -/
def passComments (s : Scan) (start : Place) : Option Scan := do
  let c := s.cursor
  let token := match s.queue.last?, s.queue.beforeLast? with
    | some ⟨.flowEntry, _⟩, some t => t
    | some t, _ => t
    | none, _ => default
  let footLine := c.line + 1 - c.newlines + (if c.newlines = 0 && 1 < c.column then 1 else 0)
  let x : Search.Context :=
    { flow := !s.inBlock, indent := s.indent.toNat, afterValue := token.kind == .value,
      footLine := if 0 < start.column then some footLine else none }
  let search : Search :=
    { comments := s.comments, start := start.index, before := token.place.index,
      noneEmpty := c.newlines ≤ 1, line := c.line, column := c.column }
  let (search, offset, c) ← search.run x (c.bound + 512) 0 c
  pure { s with cursor := c, comments := search.finish (c.place.index + offset - 1) }

/-- Pass over blanks, comments and line ends in front of a token. -/
def passTrivia (start : Place) : (fuel : Nat) → Scan → Option Scan
  | 0, s => some s
  | fuel + 1, s => do
    let c ← s.cursor.need 1
    let c ← if c.column = 0 && c.marked then c.advance.need 1 else some c
    let tabs := !s.inBlock || !s.keyAllowed
    let c ← c.skipWhile fun ch => ch == ' ' || (tabs && ch == '\t')
    let s := { s with cursor := c }.settleComment
    let s ← if c.head == some '#' then s.passComments start else some s
    if s.cursor.head.any isLineEnd then
      let c ← s.cursor.need 2
      passTrivia start fuel
        { s with cursor := c.advanceLine, keyAllowed := s.inBlock || s.keyAllowed }
    else pure s

/-- Pass over a comment behind a token at `place`; behind the mark of a sequence item it belongs to
what follows. -/
def passLineComment (s : Scan) (place : Place) : Option Scan := do
  match s.queue.last? with
  | some ⟨.blockEntry, _⟩ => pure s
  | _ =>
    if 0 < s.cursor.newlines then return s
    let (comments, cursor) ← lineComment place s.comments 0 512 s.cursor
    pure { s with comments, cursor }

/-! ## Tokens on demand -/

/-- Find one more token. -/
def next (s : Scan) : Option Scan := do
  let c ← s.cursor.need 1
  let s ← passTrivia c.place c.bound { s with cursor := c }
  let s := s.closeDeeper s.cursor.column c.place
  let c ← s.cursor.need 4
  let s := { s with cursor := c }
  match c.head with
  | none => s.fetchEnd
  | some ch =>
    if c.column == 0 && ch == '%' then s.fetchDirective
    else if c.atDocumentMark then
      s.fetchDocumentMark (if ch == '-' then .documentStart else .documentEnd)
    else
      let ofLast := if s.inBlock then ch == ':' else ch == ','
      let place := match s.queue.last? with
        | some t => if ofLast then t.place else c.place
        | none => c.place
      (← s.fetchContent ch).passLineComment place

/-- Find tokens until the first one that waits can be used. -/
def fill : (fuel : Nat) → Scan → Option Scan
  | 0, _ => none
  | fuel + 1, s => do
    if s.queue.head + 2 < s.queue.length then
      match s.keyAt.lookup s.used with
      | none => pure s
      | some slot =>
        let (stands, s) ← s.keyStands slot
        if stands then fill fuel (← s.next) else pure s
    else fill fuel (← s.next)

/-- The first token that waits. -/
def peek (s : Scan) : Option (Token × Scan) := do
  let s ← s.fill (s.cursor.bound + 4)
  let t ← s.queue.first?
  pure (t, { s with comments := dropComments t s.comments })

/-- Use the first token that waits. -/
def skip (s : Scan) : Scan :=
  let used := s.used + 1
  { s with queue := s.queue.drop, used, keyAt := s.keyAt.filter fun k => used ≤ k.1 }

end Scan

end ArrayLang.Document
