import ArrayLang.Code.Validity

/-!
# Regions of code

Conditionals, blocks and loops hold code of their own, and what is said of code is shown for all of
it.  A label is loose in code if a branch to it stands there outside of all blocks and loops with
that label.  Valid code has no loose labels but those of the blocks and loops around it and, since a
branch of a conditional counts as a region with an empty label, the empty one.
-/

namespace ArrayLang.Code

/-- An instruction holds code of its own. -/
def Instr.holdsCode : Instr → Bool
  | .ifElse .. | .block .. | .loop .. => true
  | _ => false

/-- Induction on code, together with the code that its instructions hold. -/
theorem Block.induct {P : Block → Prop} (nil : P [])
    (step : ∀ instr rest, instr.holdsCode = false → P rest → P (instr :: rest))
    (ifElse : ∀ result thenCode elseCode rest, P thenCode → P elseCode → P rest →
      P (.ifElse result thenCode elseCode :: rest))
    (block : ∀ label body rest, P body → P rest → P (.block label body :: rest))
    (loop : ∀ label body rest, P body → P rest → P (.loop label body :: rest))
    (code : Block) : P code := by
  apply @Instr.rec_1 (fun instr => ∀ rest, P rest → P (instr :: rest)) P
  case ifElse =>
    intro result thenCode elseCode hthen helse rest hrest
    exact ifElse result thenCode elseCode rest hthen helse hrest
  case block => exact fun label body hbody rest hrest => block label body rest hbody hrest
  case loop => exact fun label body hbody rest hrest => loop label body rest hbody hrest
  case nil => exact nil
  case cons => exact fun instr rest hinstr hrest => hinstr rest hrest
  all_goals
    intros
    exact step _ _ rfl ‹_›

mutual

/-- The instructions that hold no code: an instruction itself, or those of the code it holds. -/
def Instr.leaves (instr : Instr) : List Instr :=
  match instr with
  | .ifElse _ thenCode elseCode => leaves thenCode ++ leaves elseCode
  | .block _ body | .loop _ body => leaves body
  | _ => [instr]

/-- The instructions of code that hold no code themselves. -/
def leaves : Block → List Instr
  | [] => []
  | instr :: rest => instr.leaves ++ leaves rest

end

theorem Instr.leaves_of_plain {instr : Instr} (h : instr.holdsCode = false) :
    instr.leaves = [instr] := by
  cases instr with
  | ifElse | block | loop => cases h
  | _ => rw [Instr.leaves] <;> exact nofun

theorem leaves_append (first second : Block) :
    leaves (first ++ second) = leaves first ++ leaves second := by
  induction first with
  | nil => rfl
  | cons instr rest ih => rw [List.cons_append, leaves, leaves, ih, List.append_assoc]

mutual

/-- The loose labels of an instruction. -/
def Instr.looseLabels : Instr → List String
  | .branch label | .branchIf label => [label]
  | .ifElse _ thenCode elseCode => looseLabels thenCode ++ looseLabels elseCode
  | .block label body | .loop label body => (looseLabels body).filter (· ≠ label)
  | _ => []

/-- The loose labels of code. -/
def looseLabels : Block → List String
  | [] => []
  | instr :: rest => instr.looseLabels ++ looseLabels rest

end

section

variable {scope : Scope} {labels : List String}

theorem mem_of_declared {names : List String} {name : String} {e : InstrError}
    (h : declared names name e = .ok ()) : name ∈ names := by
  rw [declared] at h
  split at h
  · assumption
  · cases h

theorem checkBlock_cons {instr : Instr} {rest : Block} :
    checkBlock scope labels (instr :: rest) = .ok () ↔
      checkInstr scope labels instr = .ok () ∧ checkBlock scope labels rest = .ok () := by
  rw [checkBlock]
  cases checkInstr scope labels instr <;> simp [bind, Except.bind]

theorem checkInstr_ifElse {result : ValType} {thenCode elseCode : Block} :
    checkInstr scope labels (.ifElse result thenCode elseCode) = .ok () ↔
      checkBlock scope ("" :: labels) thenCode = .ok () ∧
        checkBlock scope ("" :: labels) elseCode = .ok () := by
  rw [checkInstr]
  cases checkBlock scope ("" :: labels) thenCode <;> simp [bind, Except.bind]

/-- The loose labels of valid code are among those around it, or empty. -/
theorem mem_of_checkBlock {code : Block} (h : checkBlock scope labels code = .ok ()) :
    ∀ label ∈ looseLabels code, label = "" ∨ label ∈ labels := by
  induction code using Block.induct generalizing labels with
  | nil => exact fun _ hmem => nomatch hmem
  | step instr rest hplain ih =>
      obtain ⟨hinstr, hrest⟩ := checkBlock_cons.mp h
      intro label hmem
      rcases List.mem_append.mp hmem with hmem | hmem
      · cases instr with
        | branch | branchIf =>
            obtain rfl := List.mem_singleton.mp hmem
            exact Or.inr (mem_of_declared hinstr)
        | ifElse | block | loop => cases hplain
        | _ => cases hmem
      · exact ih hrest label hmem
  | ifElse result thenCode elseCode rest ihthen ihelse ih =>
      obtain ⟨hinstr, hrest⟩ := checkBlock_cons.mp h
      obtain ⟨hthen, helse⟩ := checkInstr_ifElse.mp hinstr
      intro label hmem
      rcases List.mem_append.mp hmem with hmem | hmem
      · rcases List.mem_append.mp hmem with hmem | hmem
        · simpa using ihthen hthen label hmem
        · simpa using ihelse helse label hmem
      · exact ih hrest label hmem
  | block label body rest ihbody ih | loop label body rest ihbody ih =>
      obtain ⟨hinstr, hrest⟩ := checkBlock_cons.mp h
      intro target hmem
      rcases List.mem_append.mp hmem with hmem | hmem
      · obtain ⟨hbody, hne⟩ := List.mem_filter.mp hmem
        rcases ihbody hinstr target hbody with hempty | hlabels
        · exact Or.inl hempty
        · exact Or.inr ((List.mem_cons.mp hlabels).resolve_left (of_decide_eq_true hne))
      · exact ih hrest target hmem

end

/-! ## Valid modules -/

section

variable {m : Module}

theorem checkFunc_of_mem {funcs : List Func} {f : Func} (h : checkFuncs m funcs = .ok ())
    (hf : f ∈ funcs) : checkFunc m f = .ok () := by
  induction funcs with
  | nil => exact absurd hf List.not_mem_nil
  | cons first rest ih =>
      rw [checkFuncs] at h
      cases hfirst : checkFunc m first with
      | error e =>
          rw [hfirst] at h
          cases h
      | ok =>
          rw [hfirst] at h
          rcases List.mem_cons.mp hf with rfl | hf
          · exact hfirst
          · exact ih h hf

/-- A valid module has an entry, whose code is valid. -/
theorem exists_entry_of_validate (h : m.validate = .ok ()) :
    ∃ f, m.func? m.entry = some f ∧
      checkBlock ⟨f.locals.map Local.name, m.globals.map Global.name, m.imports.map Import.name⟩ []
        f.body = .ok () := by
  rw [Module.validate] at h
  cases hentry : m.func? m.entry with
  | none =>
      rw [hentry] at h
      cases h
  | some f =>
      rw [hentry] at h
      refine ⟨f, rfl, ?_⟩
      have hfuncs : checkFuncs m m.funcs = .ok () := by
        simp only [Option.isNone_some, Bool.false_eq_true, if_false] at h
        split at h
        · cases h
        · split at h
          · cases h
          · exact h
      have hfunc := checkFunc_of_mem hfuncs (List.mem_of_find?_eq_some hentry)
      simp only [checkFunc] at hfunc
      split at hfunc
      · cases hfunc
      · split at hfunc
        · assumption
        · cases hfunc

end

end ArrayLang.Code
