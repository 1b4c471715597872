import ArrayLang.Document.Token

/-!
# Comments of a document

Comments carry no content, but they count when a block ends: comments that stand in the column of
the block still belong to it, so the end of the block is where they start.  For this the comments
that no token has passed yet are kept, with the places that decide to what they belong.
-/

namespace ArrayLang.Document

/-- What a comment belongs to. -/
inductive Comment.Kind where
  /-- To what follows. -/
  | head
  /-- To the line on which it stands. -/
  | line
  /-- To what stands before. -/
  | foot
  deriving DecidableEq, Repr

/-- A comment of one or more lines. -/
structure Comment where
  kind : Comment.Kind
  /-- Where the search that found it started, as a number of characters. -/
  search : Nat := 0
  /-- It belongs to tokens from here on, as a number of characters. -/
  since : Nat
  /-- Its first character; its column counts from one unless it is a comment of a line. -/
  start : Place
  /-- Where it ends, as a number of characters. -/
  stop : Nat := 0
  deriving Repr

/-- The comments that are left when a token is used.  A comment on what follows does not belong to
the end of a block. -/
def dropComments (t : Token) : List Comment → List Comment
  | [] => []
  | c :: rest =>
    if c.since ≤ t.place.index then
      if c.kind == .head && t.kind == .blockEnd then c :: rest else dropComments t rest
    else c :: rest

/-- Where a block ends that has its content in a column: at the first of the latest comments in
that column, if nothing stands between them.  The comments come last first. -/
def blockEndPlace (column : Int) : (limit : Nat) → Place → List Comment → Place
  | _, place, [] => place
  | limit, place, c :: rest =>
    if c.stop < limit then place
    else
      let place := if (c.start.column : Int) == column + 1 then c.start else place
      blockEndPlace column c.search place rest

/-- A comment behind a token, up to the end of the line.  It is looked for only on the line of the
token and not farther than 512 characters. -/
def lineComment (token : Place) (comments : List Comment) :
    (blanks : Nat) → (fuel : Nat) → Cursor → Option (List Comment × Cursor)
  | _, 0, c => some (comments, c)
  | blanks, fuel + 1, c => do
    let c ← c.need (blanks + 1)
    match c.peek blanks with
    | some ch =>
      if isGap ch then lineComment token comments (blanks + 1) fuel c
      else if ch == '#' then
        let c ← c.walk 1 blanks
        let comment : Comment := { kind := .line, since := token.index, start := c.place }
        pure (comments ++ [comment], ← c.skipLine)
      else pure (comments, c)
    | none => pure (comments, c)

/-- The search for comments in front of a token. -/
structure Search where
  comments : List Comment
  /-- Where the search started, or where the last comment that it found ended. -/
  start : Nat
  /-- Where the comment belongs if it belongs to what stands before, as a number of characters. -/
  before : Nat
  /-- The place of the last comment that was started. -/
  comment : Place := {}
  /-- A comment was started and has not ended yet. -/
  inComment : Bool := false
  /-- The last line was empty. -/
  lastEmpty : Bool := false
  /-- No empty line was met so far. -/
  noneEmpty : Bool
  line : Nat
  /-- The column, counted from one. -/
  column : Nat

/-- What decides to what a comment belongs. -/
structure Search.Context where
  /-- Inside a flow collection. -/
  flow : Bool
  /-- The column of the innermost block. -/
  indent : Nat
  /-- The line on which a comment on what stands before has to start. -/
  footLine : Option Nat
  /-- The token before is the mark of a value. -/
  afterValue : Bool

namespace Search

/-- End a comment that belongs to what stands before. -/
def endFoot (s : Search) (index : Nat) : Search :=
  if s.inComment then
    let comment : Comment :=
      { kind := .foot, search := s.start, since := s.before, start := s.comment, stop := index }
    { s with
      comments := s.comments ++ [comment]
      start := index
      before := index
      inComment := false }
  else s

/-- The end of a line or of a flow collection was met at `index`.  A comment that an empty line
divides from what follows belongs to what stands before. -/
def endLine (x : Context) (closes : Bool) (index : Nat) (s : Search) : Search :=
  let indented := s.comment.column ≤ x.indent
  let footed := s.noneEmpty && ((x.footLine == some s.comment.line && !x.afterValue) || indented)
  if closes || (!s.lastEmpty && footed) then
    let before := if s.inComment && indented then s.comment.index else s.before
    { s with before }.endFoot index
  else s

/-- Something else than a blank or a line end was met at `index`.  A comment in another column, left
of the block, belongs to what stands before. -/
def meet (x : Context) (index : Nat) (s : Search) : Search :=
  if s.column ≤ x.indent && s.column != s.comment.column then s.endFoot index else s

/-- Search for comments from the cursor on, `offset` bytes of which were looked at, and pass over
those that are found.  A search sees at most 512 bytes behind the last comment. -/
def run (x : Context) : (fuel : Nat) → (offset : Nat) → Search → Cursor →
    Option (Search × Nat × Cursor)
  | 0, offset, s, c => some (s, offset, c)
  | fuel + 1, offset, s, c =>
    if 512 ≤ offset then some (s, offset, c)
    else do
      let c ← c.need (offset + 1)
      let s := { s with column := s.column + 1 }
      let index := c.place.index + offset
      match look c.rest offset with
      | .stop => pure (s.endLine x false index, offset, c)
      | .inside => pure (s.meet x index, offset, c)
      | .char ch =>
        if isGap ch then run x fuel (offset + 1) s c
        else if x.flow && (ch == ']' || ch == '}') then pure (s.endLine x true index, offset, c)
        else if isLineEnd ch then
          let s := s.endLine x false index
          run x fuel (offset + 1)
            { s with noneEmpty := false, lastEmpty := true, column := 0, line := s.line + 1 } c
        else
          let s := s.meet x index
          if ch != '#' then pure (s, offset, c)
          else
            let comment := if s.inComment then s.comment else ⟨index, s.line, s.column⟩
            let c ← (c.passOver offset).skipLine
            let s := { s with comment, inComment := true, lastEmpty := false }
            run x fuel 1 { s with column := 0, line := c.line } c

/-- The comments when the search is over.  The last one belongs to what follows. -/
def finish (s : Search) (index : Nat) : List Comment :=
  if s.inComment then
    let comment : Comment :=
      { kind := .head, search := s.start, since := s.comment.index, start := s.comment
        stop := index }
    s.comments ++ [comment]
  else s.comments

end Search

end ArrayLang.Document
