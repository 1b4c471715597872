import ArrayLang.Document.Cursor

/-!
# Tokens of a document

What a document is made of: marks of structure, properties of nodes, and scalars.
-/

namespace ArrayLang.Document

/-- What a token is. -/
inductive Token.Kind where
  | streamStart
  | streamEnd
  | versionDirective (major minor : Nat)
  | tagDirective (handle stem : String)
  | documentStart
  | documentEnd
  | blockSequenceStart
  | blockMappingStart
  | blockEnd
  | flowSequenceStart
  | flowSequenceEnd
  | flowMappingStart
  | flowMappingEnd
  | blockEntry
  | flowEntry
  | key
  | value
  | alias (name : String)
  | anchor (name : String)
  | tag (handle suffix : String)
  | scalar (text : String) (plain : Bool)
  deriving DecidableEq, Repr, Inhabited

/-- A token and the place where it starts. -/
structure Token where
  kind : Token.Kind
  place : Place
  deriving DecidableEq, Repr, Inhabited

/-- The line on which a token starts. -/
def Token.line (t : Token) : Nat := t.place.line

end ArrayLang.Document
