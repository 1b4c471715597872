import ArrayLang.Code.Module
import ArrayLang.Text.Quoted

/-!
# Listings

The text of code has an instruction a line.  The code of a conditional, a block or a loop stands
two columns further to the right, and `end` closes it.
-/

namespace ArrayLang.Code

/-- An instruction without the code that it holds. -/
def Instr.mnemonic (instr : Instr) : String :=
  match instr with
  | .constI64 value => s!"i64.const {value.toInt}"
  | .constI32 value => s!"i32.const {value.toInt}"
  | .localGet name => "local.get $" ++ name
  | .localSet name => "local.set $" ++ name
  | .localTee name => "local.tee $" ++ name
  | .globalGet name => "global.get $" ++ name
  | .globalSet name => "global.set $" ++ name
  | .arith ty op => s!"{ty.text}.{op.text}"
  | .compare ty op => s!"{ty.text}.{op.text}"
  | .convert op => op.text
  | .load ty => s!"{ty.text}.load"
  | .store ty => s!"{ty.text}.store"
  | .call name => "call $" ++ name
  | .ifElse result _ _ => if result = .none then "if" else s!"if (result {result.text})"
  | .block label _ => "block $" ++ label
  | .loop label _ => "loop $" ++ label
  | .branch label => "br $" ++ label
  | .branchIf label => "br_if $" ++ label
  | .drop => "drop"
  | .trap => "unreachable"
  | .missing | .stray _ | .nested _ => s!";; unsupported {instr.strayText}"

/-- A line of a listing. -/
structure Line where
  depth : Nat
  text : String
  deriving DecidableEq, Repr

mutual

/-- The lines of an instruction at a depth. -/
def instrLines (depth : Nat) (instr : Instr) : List Line :=
  match instr with
  | .ifElse _ thenCode elseCode =>
    let first := ⟨depth, instr.mnemonic⟩ :: blockLines (depth + 1) thenCode
    let second :=
      if elseCode.isEmpty then [] else ⟨depth, "else"⟩ :: blockLines (depth + 1) elseCode
    first ++ second ++ [⟨depth, "end"⟩]
  | .block _ body | .loop _ body =>
    ⟨depth, instr.mnemonic⟩ :: blockLines (depth + 1) body ++ [⟨depth, "end"⟩]
  | _ => [⟨depth, instr.mnemonic⟩]

/-- The lines of code at a depth. -/
def blockLines (depth : Nat) : Block → List Line
  | [] => []
  | instr :: rest => instrLines depth instr ++ blockLines depth rest

end

/-- The lines of code. -/
def lines (code : Block) : List Line := blockLines 0 code

/-- A line with two blanks for each level of depth. -/
def Line.render (margin : Nat) (line : Line) : String :=
  "".pushn ' ' (2 * (margin + line.depth)) ++ line.text ++ "\n"

/-- Code as a text. -/
def blockText (code : Block) : String := String.join ((lines code).map (Line.render 0))

/-- A list of types with a word in front, or nothing for no types. -/
def typesText (word : String) (types : List ValType) : String :=
  if types.isEmpty then ""
  else s!" ({word}" ++ String.join (types.map fun t => " " ++ t.text) ++ ")"

/-- A byte of a segment: quotes, backslashes and all that is not printable ASCII in hexadecimal. -/
def byteText (b : UInt8) : String :=
  if b = 34 ∨ b = 92 ∨ b < 32 ∨ 127 ≤ b then String.ofList ('\\' :: Text.hexDigits 2 b.toNat)
  else String.singleton (Char.ofNat b.toNat)

/-- The line of an imported function. -/
def Import.text (i : Import) : String :=
  s!"  (import {Text.quote i.space} {Text.quote i.name} (func ${i.name}" ++
    typesText "param" i.params ++ typesText "result" i.results ++ "))\n"

/-- The line of a global slot. -/
def Global.text (g : Global) : String :=
  let ty := if g.isMutable then s!"(mut {g.ty.text})" else g.ty.text
  s!"  (global ${g.name} {ty} ({g.ty.text}.const {g.init.toInt}))\n"

/-- The line of a segment. -/
def Segment.text (s : Segment) : String :=
  s!"  (data (i32.const {s.offset.toInt}) \"" ++ String.join (s.bytes.map byteText) ++ "\")\n"

/-- The lines of a function. -/
def Func.text (f : Func) : String :=
  s!"  (func ${f.name}" ++
    (if f.exported = "" then "" else s!" (export {Text.quote f.exported})") ++ "\n" ++
    String.join (f.locals.map fun l => s!"    (local ${l.name} {l.ty.text})\n") ++
    String.join ((lines f.body).map (Line.render 2)) ++ "  )\n"

/-- A module as a text. -/
def Module.text (m : Module) : String :=
  let size := m.memory.pages.toNat
  let imported := m.memory.space ≠ ""
  "(module\n" ++
    (if imported then
      s!"  (import {Text.quote m.memory.space} {Text.quote m.memory.name} (memory {size}))\n"
    else "") ++
    String.join (m.imports.map Import.text) ++
    (if imported then "" else s!"  (memory {size})\n") ++
    String.join (m.globals.map Global.text) ++
    String.join (m.data.map Segment.text) ++
    String.join (m.funcs.map Func.text) ++ ")\n"

end ArrayLang.Code
