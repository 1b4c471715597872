import ArrayLang.Document.Record
import ArrayLang.Source.Reading

/-!
# Named programs

A program can be a part of a larger document: a record with a name and a program.
-/

namespace ArrayLang.Source

/-- A program with a name. -/
structure NamedProgram where
  name : String := ""
  program : List Stmt := []

namespace NamedProgram

open Document (Node Store Field Target)

/-- A list of statements outside the language of statements: only null can be one. -/
def bareItems (tree : Document.Tree) (fuel : Nat) (inAlias : Bool) :
    List Node → Store NamedProgram ReadError (List Stmt)
  | [] => pure []
  | n :: rest => do
    let (target, through) ← Store.reach tree inAlias n
    let item ← match target with
      | .scalar _ tag value =>
        match ← Store.scalar tag value with
        | (.null, _) => pure [Stmt.missing]
        | (m, text) => Store.refuse (.fault (.notStatement (.scalar m text)))
      | .sequence _ _ items =>
        Store.looseItems tree fuel through items
        Store.refuse (.fault (.notStatement .list))
      | .mapping _ _ entries =>
        if Document.repeatsKey entries then
          Store.mismatch
          pure []
        else Store.refuse (.fault (.notStatement (.map (tree.textKeys entries))))
      | .alias .. => Store.refuse .malformed
    return item ++ (← bareItems tree fuel inAlias rest)

/-- The statements of a program that is marked as null and yet holds some. -/
def bareStatements : Field NamedProgram ReadError := fun tree fuel inAlias n => do
  let (target, inAlias) ← Store.reach tree inAlias n
  match target with
  | .scalar _ tag value =>
    match ← Store.scalar tag value with
    | (.null, _) => Store.update fun p => { p with program := [] }
    | _ => Store.mismatch
  | .sequence _ _ items =>
    let stmts ← bareItems tree fuel inAlias items
    Store.update fun p => { p with program := stmts }
  | _ => Store.mismatch

/-- The error of a node that is read as a program. -/
def programError? (n : Node) : Option ReadError :=
  if Node.tag n = "!!null" then none
  else match readStmts truth? n with
    | .ok _ => none
    | .error e => some e

/-- The field that holds a program.  Null leaves it unset. -/
def programField : Field NamedProgram ReadError := fun tree fuel inAlias n => do
  let (target, inAlias) ← Store.reach tree inAlias n
  if Node.tag target = "!!null" then
    match target with
    | .scalar _ tag value => discard (Store.scalar tag value)
    | .mapping _ _ entries =>
      let parts : Target NamedProgram ReadError := .record [("stmts", bareStatements)] programError?
      discard (Store.fill tree parts fuel inAlias entries)
    | _ => Store.mismatch
  else
    match readStmts truth? target with
    | .ok stmts => Store.update fun p => { p with program := stmts }
    | .error e => throw (.stopped e)

/-- The fields of a named program. -/
def fields : List (String × Field NamedProgram ReadError) :=
  [("name", .text fun v p => { p with name := Document.lenientText v }), ("program", programField)]

/-- The named program of a text. -/
def ofText (text : String) : Except (Document.RecordError ReadError) NamedProgram :=
  Document.readRecord fields {} text

end NamedProgram

end ArrayLang.Source
