import ArrayLang.Code.Listing
import ArrayLang.Proofs.Code.Regions
import ArrayLang.Proofs.Text.Bytes
import ArrayLang.Proofs.Text.Decimal

/-!
# Listings determine code

The text of code can be read back.  A line is split into its blanks, a keyword and an operand, which
determine the instruction up to the code that it holds.  That code are the lines further to the
right that follow, up to the `else` or `end` at the depth of the instruction.
-/

namespace ArrayLang.Code

/-! ## Code that has a listing -/

/-- A name that fits on a line. -/
def oneLine (name : String) : Bool := '\n' ∉ name.toList

/-- The type of a number. -/
def ValType.isWord : ValType → Bool
  | .i32 | .i64 => true
  | .none | .other _ => false

/-- The operation is one of the machine. -/
def ArithOp.isNamed : ArithOp → Bool
  | .unknown _ => false
  | _ => true

/-- The comparison is one of the machine. -/
def CompareOp.isNamed : CompareOp → Bool
  | .unknown _ => false
  | _ => true

/-- The conversion is one of the machine. -/
def ConvertOp.isNamed : ConvertOp → Bool
  | .unknown _ => false
  | _ => true

/-- An instruction whose types and operations have names, and whose names fit on a line.  Nothing is
said of the code that it holds. -/
def Instr.isLine : Instr → Bool
  | .localGet name | .localSet name | .localTee name | .globalGet name | .globalSet name
  | .call name | .block name _ | .loop name _ | .branch name | .branchIf name => oneLine name
  | .arith ty op => ty.isWord && op.isNamed
  | .compare ty op => ty.isWord && op.isNamed
  | .convert op => op.isNamed
  | .load ty | .store ty => ty.isWord
  | .ifElse result _ _ => result = .none || result.isWord
  | .constI64 _ | .constI32 _ | .drop | .trap | .missing => true
  | .stray _ | .nested _ => false

mutual

/-- An instruction that a listing shows in full.  Stray values and nested code, which are no
instructions, are left out. -/
def Instr.isListable (instr : Instr) : Bool :=
  instr.isLine && match instr with
    | .ifElse _ thenCode elseCode => isListable thenCode && isListable elseCode
    | .block _ body | .loop _ body => isListable body
    | _ => true

/-- Code of such instructions only. -/
def isListable : Block → Bool
  | [] => true
  | instr :: rest => instr.isListable && isListable rest

end

/-! ## Instructions from their lines -/

/-- An instruction without the code that it holds. -/
def Instr.bodiless : Instr → Instr
  | .ifElse result _ _ => .ifElse result [] []
  | .block label _ => .block label []
  | .loop label _ => .loop label []
  | instr => instr

/-- The instructions that are a single word. -/
def plainInstrs : List Instr :=
  [.drop, .trap, .convert .wrap, .convert .extendU] ++
    [ValType.i32, .i64].flatMap fun ty =>
      [.load ty, .store ty] ++ ArithOp.named.map (.arith ty) ++ CompareOp.named.map (.compare ty)

/-- The instruction with a keyword and an operand, without the code that it holds.  The operand
starts with the blank behind the keyword. -/
def readParts (keyword : String) (operand : List Char) : Option Instr :=
  let name := String.ofList (operand.drop 2)
  let number := Text.literal? (operand.drop 1)
  match keyword with
  | "local.get" => some (.localGet name)
  | "local.set" => some (.localSet name)
  | "local.tee" => some (.localTee name)
  | "global.get" => some (.globalGet name)
  | "global.set" => some (.globalSet name)
  | "call" => some (.call name)
  | "block" => some (.block name [])
  | "loop" => some (.loop name [])
  | "br" => some (.branch name)
  | "br_if" => some (.branchIf name)
  | "i64.const" => number.toOption.map fun v => .constI64 (Int64.ofInt v)
  | "i32.const" => number.toOption.map fun v => .constI32 (Int32.ofInt v)
  | "if" =>
    if operand = [] then some (.ifElse .none [] [])
    else if operand = " (result i32)".toList then some (.ifElse .i32 [] [])
    else some (.ifElse .i64 [] [])
  | ";;" => some .missing
  | _ => plainInstrs.find? fun instr => instr.mnemonic = keyword

/-- The instruction of a line, without the code that it holds. -/
def readHead (line : String) : Option Instr :=
  readParts (String.ofList (line.toList.takeWhile (· ≠ ' '))) (line.toList.dropWhile (· ≠ ' '))

/-- A text without line breaks that does not start with a blank. -/
def isTidy (text : String) : Bool :=
  '\n' ∉ text.toList ∧ text.toList.head? ≠ some ' '

/-- The line of an instruction is tidy and tells all but the code that the instruction holds. -/
structure Shown (instr : Instr) : Prop where
  head : readHead instr.mnemonic = some instr.bodiless
  tidy : isTidy instr.mnemonic = true

theorem newline_not_mem_repr (n : Int) : '\n' ∉ n.repr.toList :=
  fun hmem => absurd (Text.toNat_of_mem_repr hmem).1 (by decide)

theorem literal?_repr64 (value : Int64) :
    Text.literal? value.toInt.repr.toList = .ok value.toInt :=
  Text.literal?_toString value

theorem literal?_repr32 (value : Int32) :
    Text.literal? value.toInt.repr.toList = .ok value.toInt := by
  rw [← Int32.toInt_toInt64]
  exact literal?_repr64 value.toInt64

theorem shown_of_isLine {instr : Instr} (h : instr.isLine = true) : Shown instr := by
  cases instr with
  | localGet name | localSet name | localTee name | globalGet name | globalSet name | call name
  | block name | loop name | branch name | branchIf name =>
      have hname : '\n' ∉ name.toList := of_decide_eq_true h
      constructor
      · change readHead (_ ++ name) = some _
        simp [readHead, readParts, Instr.bodiless]
      · change isTidy (_ ++ name) = true
        simp [isTidy, hname]
  | constI64 value =>
      have hline := newline_not_mem_repr value.toInt
      constructor
      · change readHead ("i64.const " ++ value.toInt.repr) = some (.constI64 value)
        simp [readHead, readParts, literal?_repr64, Except.toOption]
      · change isTidy ("i64.const " ++ value.toInt.repr) = true
        simp [isTidy, hline]
  | constI32 value =>
      have hline := newline_not_mem_repr value.toInt
      constructor
      · change readHead ("i32.const " ++ value.toInt.repr) = some (.constI32 value)
        simp [readHead, readParts, literal?_repr32, Except.toOption]
      · change isTidy ("i32.const " ++ value.toInt.repr) = true
        simp [isTidy, hline]
  | ifElse result =>
      cases result with
      | none =>
          exact ⟨(rfl : readHead "if" = some (.ifElse .none [] [])), (rfl : isTidy "if" = true)⟩
      | i32 =>
          exact ⟨(rfl : readHead ("if (result " ++ "i32" ++ ")") = some (.ifElse .i32 [] [])),
            (rfl : isTidy ("if (result " ++ "i32" ++ ")") = true)⟩
      | i64 =>
          exact ⟨(rfl : readHead ("if (result " ++ "i64" ++ ")") = some (.ifElse .i64 [] [])),
            (rfl : isTidy ("if (result " ++ "i64" ++ ")") = true)⟩
      | other => cases h
  | arith ty op | compare ty op =>
      obtain ⟨hty, hop⟩ := Bool.and_eq_true_iff.mp h
      cases ty with
      | none | other => cases hty
      | i32 | i64 =>
          cases op with
          | unknown => cases hop
          | _ => exact ⟨rfl, rfl⟩
  | convert op =>
      cases op with
      | unknown => cases h
      | _ => exact ⟨rfl, rfl⟩
  | load ty | store ty =>
      cases ty with
      | none | other => cases h
      | _ => exact ⟨rfl, rfl⟩
  | stray | nested => cases h
  | drop | trap | missing => exact ⟨rfl, rfl⟩

/-- Instructions with the same line differ only in the code that they hold. -/
theorem bodiless_eq_of_mnemonic_eq {instr instr' : Instr} (h : instr.isLine = true)
    (h' : instr'.isLine = true) (heq : instr.mnemonic = instr'.mnemonic) :
    instr.bodiless = instr'.bodiless := by
  have hhead := (shown_of_isLine h).head
  rw [heq, (shown_of_isLine h').head] at hhead
  exact (Option.some.inj hhead).symm

/-! ## Lines from texts -/

/-- The characters of a line. -/
def Line.chars (line : Line) : List Char :=
  List.replicate (2 * line.depth) ' ' ++ line.text.toList ++ ['\n']

theorem toList_pushn (c : Char) (n : Nat) : ("".pushn c n).toList = List.replicate n c := by
  induction n with
  | zero => rfl
  | succ n ih =>
      have hpush : "".pushn c (n + 1) = ("".pushn c n).push c := rfl
      rw [hpush, String.toList_push, ih, List.replicate_succ']

theorem toList_blockText (code : Block) :
    (blockText code).toList = (lines code).flatMap Line.chars := by
  have hrender (line : Line) : (line.render 0).toList = line.chars := by
    simp [Line.render, Line.chars, toList_pushn]
  rw [blockText, String.toList_join, List.flatMap_map]
  exact congrArg (fun f => (lines code).flatMap f) (funext hrender)

/-- A line is split behind its blanks. -/
theorem eq_of_append_blanks {k l : Nat} {a b : List Char} (ha : a.head? ≠ some ' ')
    (hb : b.head? ≠ some ' ') (h : List.replicate k ' ' ++ a = List.replicate l ' ' ++ b) :
    k = l ∧ a = b := by
  induction k generalizing l with
  | zero =>
      cases l with
      | zero => exact ⟨rfl, h⟩
      | succ l =>
          have heq : a = ' ' :: (List.replicate l ' ' ++ b) := h
          exact absurd (by rw [heq]; rfl) ha
  | succ k ih =>
      cases l with
      | zero =>
          have heq : ' ' :: (List.replicate k ' ' ++ a) = b := h
          exact absurd (by rw [← heq]; rfl) hb
      | succ l =>
          obtain ⟨rfl, hab⟩ := ih (List.cons.inj h).2
          exact ⟨rfl, hab⟩

/-- Tidy lines can be told from their text. -/
theorem lines_eq_of_chars_eq {ls ls' : List Line} (h : ∀ line ∈ ls, isTidy line.text = true)
    (h' : ∀ line ∈ ls', isTidy line.text = true)
    (heq : ls.flatMap Line.chars = ls'.flatMap Line.chars) : ls = ls' := by
  induction ls generalizing ls' with
  | nil =>
      cases ls' with
      | nil => rfl
      | cons line' rest' => simp [Line.chars] at heq
  | cons line rest ih =>
      cases ls' with
      | nil => simp [Line.chars] at heq
      | cons line' rest' =>
          obtain ⟨hline, hrest⟩ := List.forall_mem_cons.mp h
          obtain ⟨hline', hrest'⟩ := List.forall_mem_cons.mp h'
          obtain ⟨hbreak, hblank⟩ := of_decide_eq_true hline
          obtain ⟨hbreak', hblank'⟩ := of_decide_eq_true hline'
          have hnot {k : Nat} {a : List Char} (h : '\n' ∉ a) :
              '\n' ∉ List.replicate k ' ' ++ a := by simp [h]
          simp only [List.flatMap_cons, Line.chars, List.append_assoc (_ ++ _),
            List.singleton_append] at heq
          obtain ⟨hfirst, hothers⟩ := Text.eq_of_append_cons (hnot hbreak) (hnot hbreak') heq
          obtain ⟨hdepth, htext⟩ := eq_of_append_blanks hblank hblank' hfirst
          obtain ⟨depth, text⟩ := line
          obtain ⟨depth', text'⟩ := line'
          obtain rfl : depth = depth' := by
            simp only at hdepth
            omega
          obtain rfl : text = text' := String.toList_injective htext
          rw [ih hrest hrest' hothers]

/-! ## Code from lines -/

/-- The regions with a label: blocks and loops, which are listed alike. -/
inductive IsRegion : (String → Block → Instr) → Prop
  | block : IsRegion .block
  | loop : IsRegion .loop

/-- The lines from an `else` on. -/
def elseLines (depth : Nat) (code : Block) : List Line :=
  if code.isEmpty then [] else ⟨depth, "else"⟩ :: blockLines (depth + 1) code

section

variable {d : Nat} {region : String → Block → Instr}

theorem instrLines_of_plain {instr : Instr} (h : instr.holdsCode = false) :
    instrLines d instr = [⟨d, instr.mnemonic⟩] := by
  cases instr with
  | ifElse | block | loop => cases h
  | _ => rfl

theorem instrLines_ifElse (result : ValType) (thenCode elseCode : Block) :
    instrLines d (.ifElse result thenCode elseCode) =
      ⟨d, (Instr.ifElse result thenCode elseCode).mnemonic⟩ ::
        (blockLines (d + 1) thenCode ++ (elseLines d elseCode ++ [⟨d, "end"⟩])) := by
  rw [← List.append_assoc]
  rfl

theorem instrLines_region (hregion : IsRegion region) (label : String) (body : Block) :
    instrLines d (region label body) =
      ⟨d, (region label body).mnemonic⟩ :: (blockLines (d + 1) body ++ [⟨d, "end"⟩]) := by
  cases hregion <;> rfl

theorem blockLines_cons (instr : Instr) (rest : Block) :
    blockLines d (instr :: rest) = instrLines d instr ++ blockLines d rest := rfl

/-- The first line of an instruction is its own. -/
theorem instrLines_eq_cons (instr : Instr) :
    ∃ tail, instrLines d instr = ⟨d, instr.mnemonic⟩ :: tail := by
  cases instr <;> exact ⟨_, rfl⟩

end

section

variable {instr : Instr} {rest : Block} {result : ValType} {label : String}
  {thenCode elseCode body : Block} {region : String → Block → Instr}

theorem isListable_cons :
    isListable (instr :: rest) = true ↔ instr.isListable = true ∧ isListable rest = true :=
  Bool.and_eq_true_iff

theorem isLine_of_isListable (h : instr.isListable = true) : instr.isLine = true := by
  cases instr <;> exact (Bool.and_eq_true_iff.mp h).1

theorem isListable_ifElse (h : (Instr.ifElse result thenCode elseCode).isListable = true) :
    isListable thenCode = true ∧ isListable elseCode = true :=
  Bool.and_eq_true_iff.mp (Bool.and_eq_true_iff.mp h).2

theorem isListable_region (hregion : IsRegion region)
    (h : (region label body).isListable = true) : isListable body = true := by
  cases hregion <;> exact (Bool.and_eq_true_iff.mp h).2

theorem isTidy_mnemonic (h : instr.isListable = true) : isTidy instr.mnemonic = true :=
  (shown_of_isLine (isLine_of_isListable h)).tidy

end

/-- Lines with tidy texts. -/
def Tidy (ls : List Line) : Prop := ∀ line ∈ ls, isTidy line.text = true

theorem tidy_nil : Tidy [] := fun _ hmem => absurd hmem List.not_mem_nil

theorem tidy_cons {line : Line} {ls : List Line} :
    Tidy (line :: ls) ↔ isTidy line.text = true ∧ Tidy ls :=
  List.forall_mem_cons

theorem tidy_append {ls ls' : List Line} : Tidy (ls ++ ls') ↔ Tidy ls ∧ Tidy ls' :=
  List.forall_mem_append

theorem tidy_end (d : Nat) : Tidy [⟨d, "end"⟩] := by
  have hend : isTidy "end" = true := rfl
  exact tidy_cons.mpr ⟨hend, tidy_nil⟩

theorem tidy_region {region : String → Block → Instr} (hregion : IsRegion region) {label : String}
    {body : Block} {d : Nat} (h : (region label body).isListable = true)
    (hbody : Tidy (blockLines (d + 1) body)) : Tidy (instrLines d (region label body)) := by
  rw [instrLines_region hregion]
  exact tidy_cons.mpr ⟨isTidy_mnemonic h, tidy_append.mpr ⟨hbody, tidy_end d⟩⟩

/-- All lines of a listing are tidy. -/
theorem tidy_blockLines {code : Block} (h : isListable code = true) {d : Nat} :
    Tidy (blockLines d code) := by
  have helse : isTidy "else" = true := rfl
  induction code using Block.induct generalizing d with
  | nil => exact tidy_nil
  | step instr rest hplain ih =>
      obtain ⟨hinstr, hrest⟩ := isListable_cons.mp h
      rw [blockLines_cons, instrLines_of_plain hplain]
      exact tidy_cons.mpr ⟨isTidy_mnemonic hinstr, ih hrest⟩
  | ifElse result thenCode elseCode rest ihthen ihelse ih =>
      obtain ⟨hinstr, hrest⟩ := isListable_cons.mp h
      obtain ⟨hthen, hothers⟩ := isListable_ifElse hinstr
      have helses : Tidy (elseLines d elseCode) := by
        rw [elseLines]
        split
        · exact tidy_nil
        · exact tidy_cons.mpr ⟨helse, ihelse hothers⟩
      rw [blockLines_cons, instrLines_ifElse]
      exact tidy_append.mpr ⟨tidy_cons.mpr ⟨isTidy_mnemonic hinstr,
        tidy_append.mpr ⟨ihthen hthen, tidy_append.mpr ⟨helses, tidy_end d⟩⟩⟩, ih hrest⟩
  | block label body rest ihbody ih =>
      obtain ⟨hinstr, hrest⟩ := isListable_cons.mp h
      have hbody := ihbody (isListable_region .block hinstr) (d := d + 1)
      exact tidy_append.mpr ⟨tidy_region .block hinstr hbody, ih hrest⟩
  | loop label body rest ihbody ih =>
      obtain ⟨hinstr, hrest⟩ := isListable_cons.mp h
      have hbody := ihbody (isListable_region .loop hinstr) (d := d + 1)
      exact tidy_append.mpr ⟨tidy_region .loop hinstr hbody, ih hrest⟩

section

variable {instr : Instr} {result : ValType}

theorem eq_of_bodiless_plain {instr' : Instr} (h : instr.holdsCode = false)
    (heq : instr.bodiless = instr'.bodiless) : instr = instr' := by
  cases instr with
  | ifElse | block | loop => cases h
  | _ =>
      cases instr' with
      | ifElse | block | loop => cases heq
      | _ => exact heq

theorem eq_ifElse_of_bodiless (h : instr.bodiless = .ifElse result [] []) :
    ∃ thenCode elseCode, instr = .ifElse result thenCode elseCode := by
  cases instr with
  | ifElse result' thenCode elseCode =>
      cases h
      exact ⟨thenCode, elseCode, rfl⟩
  | _ => cases h

theorem eq_region_of_bodiless {region : String → Block → Instr} (hregion : IsRegion region)
    {label : String} {body : Block} (h : instr.bodiless = (region label body).bodiless) :
    ∃ body', instr = region label body' := by
  cases hregion <;> cases instr <;> cases h <;> exact ⟨_, rfl⟩

end

/-- What follows code at a depth: nothing, or a line further to the left. -/
def Closes (d : Nat) (following : List Line) : Prop :=
  ∀ line ∈ following.head?, line.depth < d

/-- Code that can be told from its lines, whatever follows further to the left. -/
def Readable (code : Block) : Prop :=
  isListable code = true → ∀ {code' : Block} {d : Nat} {k k' : List Line},
    isListable code' = true → Closes d k → Closes d k' →
    blockLines d code ++ k = blockLines d code' ++ k' → code = code' ∧ k = k'

section

variable {d : Nat} {k k' : List Line} {rest rest' : Block}

theorem closes_cons {line : Line} (h : line.depth < d) : Closes d (line :: k) := by
  intro first hfirst
  obtain rfl := Option.some.inj hfirst
  exact h

/-- Where code starts with an instruction, code with the same lines starts with one that has the
same line. -/
theorem exists_of_lines_eq {instr : Instr} {code' : Block} (hk' : Closes d k')
    (heq : blockLines d (instr :: rest) ++ k = blockLines d code' ++ k') :
    ∃ instr' rest', code' = instr' :: rest' ∧ instr.mnemonic = instr'.mnemonic := by
  obtain ⟨tail, htail⟩ := instrLines_eq_cons (d := d) instr
  rw [blockLines_cons, htail] at heq
  cases code' with
  | nil =>
      have hline : k'.head? = some ⟨d, instr.mnemonic⟩ := by
        rw [show k' = _ from heq.symm]
        rfl
      exact absurd (hk' _ hline) (Nat.lt_irrefl d)
  | cons instr' rest' =>
      obtain ⟨tail', htail'⟩ := instrLines_eq_cons (d := d) instr'
      rw [blockLines_cons, htail'] at heq
      obtain ⟨hline, -⟩ := List.cons.inj heq
      exact ⟨instr', rest', rfl, (Line.mk.inj hline).2⟩

theorem readable_nil : Readable [] := by
  intro _ code' d k k' _ hk _ heq
  cases code' with
  | nil => exact ⟨rfl, heq⟩
  | cons instr' rest' =>
      obtain ⟨_, _, hnil, -⟩ := exists_of_lines_eq hk heq.symm
      cases hnil

/-- The instruction that the same lines start with elsewhere. -/
theorem bodiless_of_lines_eq {instr : Instr} {code' : Block}
    (h : isListable (instr :: rest) = true) (h' : isListable code' = true) (hk' : Closes d k')
    (heq : blockLines d (instr :: rest) ++ k = blockLines d code' ++ k') :
    ∃ instr' rest', code' = instr' :: rest' ∧ instr.bodiless = instr'.bodiless := by
  obtain ⟨instr', rest', rfl, hline⟩ := exists_of_lines_eq hk' heq
  have hinstr := isLine_of_isListable (isListable_cons.mp h).1
  have hinstr' := isLine_of_isListable (isListable_cons.mp h').1
  exact ⟨instr', rest', rfl, bodiless_eq_of_mnemonic_eq hinstr hinstr' hline⟩

theorem readable_step {instr : Instr} (hplain : instr.holdsCode = false) (hrest : Readable rest) :
    Readable (instr :: rest) := by
  intro h code' d k k' h' hk hk' heq
  obtain ⟨instr', rest', rfl, hbodiless⟩ := bodiless_of_lines_eq h h' hk' heq
  obtain rfl := eq_of_bodiless_plain hplain hbodiless
  rw [blockLines_cons, blockLines_cons, instrLines_of_plain hplain] at heq
  obtain ⟨rfl, rfl⟩ := hrest (isListable_cons.mp h).2 (isListable_cons.mp h').2 hk hk'
    (List.cons.inj heq).2
  exact ⟨rfl, rfl⟩

/-- The code of a region, and what comes behind its end. -/
theorem held_lines_inj {body body' : Block} (hbody : Readable body) (hrest : Readable rest)
    (hl : isListable body = true) (hl' : isListable body' = true)
    (hr : isListable rest = true) (hr' : isListable rest' = true)
    (hk : Closes d k) (hk' : Closes d k')
    (heq : blockLines (d + 1) body ++ [⟨d, "end"⟩] ++ blockLines d rest ++ k =
      blockLines (d + 1) body' ++ [⟨d, "end"⟩] ++ blockLines d rest' ++ k') :
    body = body' ∧ rest = rest' ∧ k = k' := by
  have hend {k : List Line} : Closes (d + 1) (⟨d, "end"⟩ :: k) := closes_cons (Nat.lt_succ_self d)
  simp only [List.append_assoc, List.singleton_append] at heq
  obtain ⟨rfl, htail⟩ := hbody hl hl' hend hend heq
  obtain ⟨rfl, rfl⟩ := hrest hr hr' hk hk' (List.cons.inj htail).2
  exact ⟨rfl, rfl, rfl⟩

theorem readable_region {region : String → Block → Instr} (hregion : IsRegion region)
    {label : String} {body : Block} (hbody : Readable body) (hrest : Readable rest) :
    Readable (region label body :: rest) := by
  intro h code' d k k' h' hk hk' heq
  obtain ⟨instr', rest', rfl, hbodiless⟩ := bodiless_of_lines_eq h h' hk' heq
  obtain ⟨body', rfl⟩ := eq_region_of_bodiless hregion hbodiless.symm
  obtain ⟨hb, hr⟩ := isListable_cons.mp h
  obtain ⟨hb', hr'⟩ := isListable_cons.mp h'
  rw [blockLines_cons, blockLines_cons, instrLines_region hregion, instrLines_region hregion] at heq
  obtain ⟨rfl, rfl, rfl⟩ := held_lines_inj hbody hrest (isListable_region hregion hb)
    (isListable_region hregion hb') hr hr' hk hk' (List.cons.inj heq).2
  exact ⟨rfl, rfl⟩

/-- The code behind an `else`, or none, and what comes behind the end. -/
theorem elseLines_append_inj {code code' : Block} (hcode : Readable code)
    (h : isListable code = true) (h' : isListable code' = true)
    (heq : elseLines d code ++ ⟨d, "end"⟩ :: k = elseLines d code' ++ ⟨d, "end"⟩ :: k') :
    code = code' ∧ k = k' := by
  have hend {k : List Line} : Closes (d + 1) (⟨d, "end"⟩ :: k) := closes_cons (Nat.lt_succ_self d)
  have hne : (⟨d, "end"⟩ : Line) ≠ ⟨d, "else"⟩ := by simp
  cases code with
  | nil =>
      cases code' with
      | nil => exact ⟨rfl, (List.cons.inj heq).2⟩
      | cons => exact absurd (List.cons.inj heq).1 hne
  | cons =>
      cases code' with
      | nil => exact absurd (List.cons.inj heq).1.symm hne
      | cons =>
          obtain ⟨hcodes, htail⟩ := hcode h h' hend hend (List.cons.inj heq).2
          exact ⟨hcodes, (List.cons.inj htail).2⟩

theorem closes_elseLines (code : Block) :
    Closes (d + 1) (elseLines d code ++ ⟨d, "end"⟩ :: k) := by
  cases code <;> exact closes_cons (Nat.lt_succ_self d)

theorem readable_ifElse {result : ValType} {thenCode elseCode : Block} (hthen : Readable thenCode)
    (helse : Readable elseCode) (hrest : Readable rest) :
    Readable (.ifElse result thenCode elseCode :: rest) := by
  intro h code' d k k' h' hk hk' heq
  obtain ⟨instr', rest', rfl, hbodiless⟩ := bodiless_of_lines_eq h h' hk' heq
  obtain ⟨thenCode', elseCode', rfl⟩ := eq_ifElse_of_bodiless hbodiless.symm
  obtain ⟨hinstr, hr⟩ := isListable_cons.mp h
  obtain ⟨hinstr', hr'⟩ := isListable_cons.mp h'
  obtain ⟨ht, he⟩ := isListable_ifElse hinstr
  obtain ⟨ht', he'⟩ := isListable_ifElse hinstr'
  rw [blockLines_cons, blockLines_cons, instrLines_ifElse, instrLines_ifElse] at heq
  obtain ⟨-, htail⟩ := List.cons.inj heq
  simp only [List.append_eq, List.append_assoc, List.singleton_append] at htail
  obtain ⟨rfl, helses⟩ := hthen ht ht' (closes_elseLines _) (closes_elseLines _) htail
  obtain ⟨rfl, hothers⟩ := elseLines_append_inj helse he he' helses
  obtain ⟨rfl, rfl⟩ := hrest hr hr' hk hk' hothers
  exact ⟨rfl, rfl⟩

end

/-- All code can be told from its lines. -/
theorem readable (code : Block) : Readable code := by
  induction code using Block.induct with
  | nil => exact readable_nil
  | step instr rest hplain ih => exact readable_step hplain ih
  | ifElse result thenCode elseCode rest ihthen ihelse ih => exact readable_ifElse ihthen ihelse ih
  | block label body rest ihbody ih => exact readable_region .block ihbody ih
  | loop label body rest ihbody ih => exact readable_region .loop ihbody ih

/-- A listing loses nothing: code with the same text is the same. -/
theorem blockText_inj {code code' : Block} (h : isListable code = true)
    (h' : isListable code' = true) (heq : blockText code = blockText code') : code = code' := by
  have hchars := congrArg String.toList heq
  rw [toList_blockText, toList_blockText] at hchars
  have hlines : lines code = lines code' :=
    lines_eq_of_chars_eq (tidy_blockLines h) (tidy_blockLines h') hchars
  have hnothing : Closes 0 [] := by simp [Closes]
  exact (readable code h h' hnothing hnothing (congrArg (· ++ []) hlines)).1

/-- A loop in a block, with names that look like parts of a listing. -/
def trickyLoop : Block :=
  [.block "end" [.loop "br $end"
    [.localGet "  else", .ifElse .i64 [.constI64 (-1)] [.constI64 (-9223372036854775808)], .drop,
      .ifElse .none [.branch "end"] [], .branchIf "br $end"]]]

theorem trickyLoop_blockText_inj :
    let joined := splice [.missing, .nested trickyLoop]
    isListable trickyLoop = true ∧ isListable joined = true ∧
    blockText trickyLoop = blockText joined ∧ trickyLoop = joined := by
  intro joined
  have h : isListable trickyLoop = true := by decide
  have heq : blockText trickyLoop = blockText joined := rfl
  exact ⟨h, h, heq, blockText_inj h h heq⟩

end ArrayLang.Code
