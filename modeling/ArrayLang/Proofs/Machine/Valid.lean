import ArrayLang.Proofs.Code.Regions
import ArrayLang.Proofs.Host.Linked

/-!
# Runs of valid modules

In a run of a valid module whose imports are served, every name leads somewhere, and so does every
branch but one kind: a branch to the empty label that stands in a conditional, outside of all blocks
and loops with the empty label.  A valid module may hold such a branch, and the machine has nowhere
to go with it.
-/

namespace ArrayLang.Machine

open Code

variable {H : Type}

/-- A fault of a name or a branch that leads nowhere, or of something that is no instruction. -/
inductive Fault.Dangling : Fault → Prop
  | noEntry (name : String) : Dangling (.noEntry name)
  | unknownFunction (name : String) : Dangling (.unknownFunction name)
  | unsupportedInstr (kind : String) : Dangling (.unsupportedInstr kind)
  | escaped (label : String) : Dangling (.escaped label)

/-- Code goes on, branches to one of the labels, or halts without a dangling fault. -/
inductive Anchored (labels : List String) : Outcome H → Prop
  | next (s : State H) : Anchored labels (.next s)
  | branch {label : String} (s : State H) : label ∈ labels → Anchored labels (.branch label s)
  | halt {why : Halt} (s : State H) :
      (∀ f, why = .fault f → ¬f.Dangling) → Anchored labels (.halt why s)

section

variable {env : List (Linked H)} {labels labels' : List String} {s : State H}

theorem Anchored.mono {outcome : Outcome H} (h : Anchored labels outcome)
    (hsub : labels ⊆ labels') : Anchored labels' outcome := by
  cases h with
  | next => exact .next _
  | branch _ hlabel => exact .branch _ (hsub hlabel)
  | halt _ hwhy => exact .halt _ hwhy

theorem Anchored.fault {f : Fault} (hf : ¬f.Dangling) : Anchored labels (.halt (.fault f) s) := by
  refine .halt s ?_
  rintro _ ⟨rfl⟩
  exact hf

/-! ## Single instructions -/

theorem anchored_withTop {act : UInt64 → State H → Outcome H}
    (hact : ∀ value s, Anchored labels (act value s)) : Anchored labels (withTop s act) := by
  obtain ⟨memory, globals, locals, stack, host, fuel⟩ := s
  cases stack with
  | nil => exact .fault (by rintro ⟨⟩)
  | cons value stack => exact hact value _

theorem anchored_withTopTwo {act : UInt64 → UInt64 → State H → Outcome H}
    (hact : ∀ first second s, Anchored labels (act first second s)) :
    Anchored labels (withTopTwo s act) :=
  anchored_withTop fun second _ => anchored_withTop fun first s => hact first second s

theorem anchored_loadValue (ty : ValType) (address : UInt32) :
    Anchored labels (loadValue ty address s) := by
  rw [loadValue]
  split
  · split
    · exact .fault (by rintro ⟨⟩)
    · exact .next _
  · exact .halt _ (by rintro _ ⟨⟩)

theorem anchored_storeValue (ty : ValType) (address : UInt32) (value : UInt64) :
    Anchored labels (storeValue ty address value s) := by
  rw [storeValue]
  split
  · split
    · exact .fault (by rintro ⟨⟩)
    · exact .next _
  · exact .halt _ (by rintro _ ⟨⟩)

theorem compare_error {ty : ValType} {op : CompareOp} {a b : UInt64} {f : Fault}
    (h : compare ty op a b = .error f) : ¬f.Dangling := by
  rintro (_ | _ | _ | _) <;> cases ty <;> cases op <;> cases h

/-- A call of a function that is served. -/
theorem anchored_callHost {name : String} (h : ∃ l ∈ env, l.decl.name = name) :
    Anchored labels (callHost env name s) := by
  rw [callHost]
  split
  · next hnone =>
      obtain ⟨l, hl, hname⟩ := h
      exact absurd (List.find?_eq_none.mp hnone l hl) (by simpa using hname)
  · dsimp only
    split
    · exact .fault (by rintro ⟨⟩)
    · split
      · exact .fault (by rintro ⟨⟩)
      · exact .halt _ (by rintro _ ⟨⟩)
      · split
        · exact .fault (by rintro ⟨⟩)
        · exact .next _

/-- Every function of a scope is served. -/
def Serves (env : List (Linked H)) (scope : Scope) : Prop :=
  ∀ name ∈ scope.functions, ∃ l ∈ env, l.decl.name = name

theorem anchored_exec {scope : Scope} {instr : Instr} (hserves : Serves env scope)
    (hplain : instr.holdsCode = false) (hcheck : checkInstr scope labels instr = .ok ()) :
    Anchored instr.looseLabels (exec env instr s) := by
  cases instr with
  | constI64 | constI32 | localGet | globalGet => exact .next _
  | localSet | localTee | globalSet | drop =>
      rw [exec]
      exact anchored_withTop fun _ _ => .next _
  | arith ty op =>
      refine anchored_withTopTwo fun a b s => ?_
      cases Machine.arith ty op a b with
      | some => exact .next _
      | none => exact .fault (by rintro ⟨⟩)
  | compare ty op =>
      refine anchored_withTopTwo fun a b s => ?_
      cases hcompare : Machine.compare ty op a b with
      | ok => exact .next _
      | error f => exact .fault (compare_error hcompare)
  | convert op =>
      cases op with
      | wrap | extendU =>
          rw [exec]
          · exact anchored_withTop fun _ _ => .next _
          · rintro _ ⟨⟩
      | unknown => exact anchored_withTop fun _ _ => .fault (by rintro ⟨⟩)
  | load ty => exact anchored_withTop fun _ _ => anchored_loadValue _ _
  | store ty => exact anchored_withTopTwo fun _ _ _ => anchored_storeValue _ _ _
  | call name => exact anchored_callHost (hserves name (mem_of_declared hcheck))
  | branch label => exact .branch _ (List.mem_singleton_self label)
  | branchIf label =>
      rw [exec]
      refine anchored_withTop fun value s => ?_
      split
      · exact .next _
      · exact .branch _ (List.mem_singleton_self label)
  | trap => exact .halt _ (by rintro _ ⟨⟩)
  | ifElse | block | loop => cases hplain
  | missing | stray | nested => cases hcheck

/-! ## Code -/

theorem Anchored.andThen {instr : Instr} {rest : Block}
    (hinstr : Anchored instr.looseLabels (exec env instr s))
    (hrest : ∀ s, Anchored (looseLabels rest) (execBlock env rest s)) :
    Anchored (looseLabels (instr :: rest)) (execBlock env (instr :: rest) s) := by
  rw [execBlock, looseLabels]
  generalize exec env instr s = outcome at hinstr ⊢
  cases hinstr with
  | next s => exact (hrest s).mono (List.subset_append_right _ _)
  | branch s hlabel => exact .branch s (List.mem_append_left _ hlabel)
  | halt s hwhy => exact .halt s hwhy

theorem mem_filter_ne {label target : String} (h : target ∈ labels) (hne : target ≠ label) :
    target ∈ labels.filter (· ≠ label) :=
  List.mem_filter.mpr ⟨h, decide_eq_true hne⟩

/-- A block stops the branches to its label. -/
theorem anchored_block {label : String} {body : Block}
    (h : Anchored (looseLabels body) (execBlock env body s)) :
    Anchored (Instr.block label body).looseLabels (exec env (.block label body) s) := by
  rw [exec, Instr.looseLabels]
  generalize execBlock env body s = outcome at h ⊢
  cases h with
  | next s => exact .next s
  | @branch target s htarget =>
      dsimp only
      split
      · exact .next s
      · next hne => exact .branch s (mem_filter_ne htarget hne)
  | halt s hwhy => exact .halt s hwhy

/-- A loop stops the branches to its label.  The induction is on the bound of the iterations. -/
theorem anchored_iterate {label : String} {body : State H → Outcome H} {bound : Nat}
    (hbody : ∀ s, Anchored labels (body s)) :
    Anchored (labels.filter (· ≠ label)) (iterate label body bound s) := by
  induction bound generalizing s with
  | zero => exact .halt s (by rintro _ ⟨⟩)
  | succ bound ih =>
      rw [iterate]
      split
      · exact .halt s (by rintro _ ⟨⟩)
      · have hfirst := hbody { s with fuel := s.fuel - 1 }
        generalize body { s with fuel := s.fuel - 1 } = outcome at hfirst ⊢
        cases hfirst with
        | next s => exact .next s
        | @branch target s htarget =>
            dsimp only
            split
            · exact ih
            · next hne => exact .branch s (mem_filter_ne htarget hne)
        | halt s hwhy => exact .halt s hwhy

/-- Valid code whose functions are served branches to its loose labels only. -/
theorem anchored_execBlock {scope : Scope} {code : Block} (hserves : Serves env scope)
    (hcheck : checkBlock scope labels code = .ok ()) (s : State H) :
    Anchored (looseLabels code) (execBlock env code s) := by
  induction code using Block.induct generalizing labels s with
  | nil => exact .next s
  | step instr rest hplain ih =>
      obtain ⟨hinstr, hrest⟩ := checkBlock_cons.mp hcheck
      exact (anchored_exec hserves hplain hinstr).andThen (ih hrest)
  | ifElse result thenCode elseCode rest ihthen ihelse ih =>
      obtain ⟨hinstr, hrest⟩ := checkBlock_cons.mp hcheck
      obtain ⟨hthen, helse⟩ := checkInstr_ifElse.mp hinstr
      refine Anchored.andThen ?_ (ih hrest)
      rw [exec, Instr.looseLabels]
      refine anchored_withTop fun value s => ?_
      split
      · exact (ihthen hthen s).mono (List.subset_append_left _ _)
      · exact (ihelse helse s).mono (List.subset_append_right _ _)
  | block label body rest ihbody ih =>
      obtain ⟨hbody, hrest⟩ := checkBlock_cons.mp hcheck
      exact (anchored_block (ihbody hbody s)).andThen (ih hrest)
  | loop label body rest ihbody ih =>
      obtain ⟨hbody, hrest⟩ := checkBlock_cons.mp hcheck
      exact Anchored.andThen (anchored_iterate (ihbody hbody)) (ih hrest)

end

/-! ## Modules -/

section

variable {functions : String → Option (HostFn H)}

/-- Linking keeps the declarations, and each gets its own function. -/
theorem of_link {decls : List Import} {linked : List (Linked H)}
    (h : link functions decls = .ok linked) :
    linked.map Linked.decl = decls ∧ ∀ l ∈ linked, functions l.decl.name = some l.serve := by
  induction decls generalizing linked with
  | nil =>
      obtain rfl := Except.ok.inj h
      exact ⟨rfl, nofun⟩
  | cons decl rest ih =>
      rw [link] at h
      split at h
      · cases h
      · next hserve =>
          split at h
          · next hrest =>
              obtain rfl := Except.ok.inj h
              obtain ⟨hdecls, hserves⟩ := ih hrest
              rw [List.map_cons, hdecls]
              exact ⟨rfl, List.forall_mem_cons.mpr ⟨hserve, hserves⟩⟩
          · cases h

theorem exists_link {decls : List Import} (h : ∀ decl ∈ decls, functions decl.name ≠ none) :
    ∃ linked, link functions decls = .ok linked := by
  induction decls with
  | nil => exact ⟨[], rfl⟩
  | cons decl rest ih =>
      obtain ⟨hdecl, hrest⟩ := List.forall_mem_cons.mp h
      obtain ⟨serve, hserve⟩ := Option.ne_none_iff_exists'.mp hdecl
      obtain ⟨linked, hlinked⟩ := ih hrest
      refine ⟨⟨decl, serve⟩ :: linked, ?_⟩
      simp only [link, hserve, hlinked]

theorem serves_of_link {decls : List Import} {linked : List (Linked H)}
    {locals globals : List String} (h : link functions decls = .ok linked) :
    Serves linked ⟨locals, globals, decls.map Import.name⟩ := by
  intro name hname
  rw [← (of_link h).1, List.map_map] at hname
  exact List.mem_map.mp hname

/-- A valid module whose imports are all served can be made ready. -/
theorem exists_load {p : Module} (hvalid : p.validate = .ok ())
    (hbound : ∀ decl ∈ p.imports, functions decl.name ≠ none) (host : H) :
    ∃ m, load (some p) functions host = .ok m ∧ m.module = p ∧
      link functions p.imports = .ok m.linked := by
  obtain ⟨linked, hlinked⟩ := exists_link hbound
  refine ⟨⟨p, linked, initialMemory p, initialGlobals p, [], host⟩, ?_, rfl, hlinked⟩
  simp only [load, hvalid, hlinked]

/-- A machine with another memory, other values of the global slots and another host. -/
def holding (m : Machine H) (memory : Memory) (globals : Slots) (host : H) : Machine H :=
  { m with memory, globals, host }

/-- The only branches that leave the entry of a valid module go to its loose labels. -/
theorem run_dangling {m : Machine H} {f : Func} {fuel : Nat} {fault : Fault}
    (hentry : m.module.func? m.module.entry = some f)
    (hcode : ∀ s, Anchored (looseLabels f.body) (execBlock m.linked f.body s))
    (hrun : (m.run fuel).1 = .error (.fault fault)) (hdangling : fault.Dangling) :
    ∃ label ∈ looseLabels f.body, fault = .escaped label := by
  rw [run, hentry] at hrun
  dsimp only at hrun
  have hend := hcode (m.start f fuel)
  generalize execBlock m.linked f.body (m.start f fuel) = outcome at hend hrun
  cases hend with
  | next s =>
      dsimp only at hrun
      split at hrun
      · cases hrun
      · cases hrun
        cases hdangling
  | branch s hlabel =>
      cases hrun
      exact ⟨_, hlabel, rfl⟩
  | halt s hwhy =>
      cases hrun
      exact absurd hdangling (hwhy _ rfl)

/-- A valid module whose imports are served is made ready, and whatever its memory, its global slots
and the host hold, none of its runs ends with a dangling fault, unless a branch to the empty label
is loose in the entry and leaves it. -/
theorem dangling_only_by_empty_label {p : Module} (hvalid : p.validate = .ok ())
    (hbound : ∀ decl ∈ p.imports, functions decl.name ≠ none) (host : H) :
    ∃ m f, load (some p) functions host = .ok m ∧ p.func? p.entry = some f ∧
      ∀ memory globals host' fuel fault,
        ((m.holding memory globals host').run fuel).1 = .error (.fault fault) →
        fault.Dangling → fault = .escaped "" ∧ "" ∈ looseLabels f.body := by
  obtain ⟨m, hload, rfl, hlink⟩ := exists_load hvalid hbound host
  obtain ⟨f, hentry, hcheck⟩ := exists_entry_of_validate hvalid
  refine ⟨m, f, hload, hentry, ?_⟩
  intro memory globals host' fuel fault hrun hdangling
  obtain ⟨label, hlabel, rfl⟩ := run_dangling (m := m.holding memory globals host') hentry
    (anchored_execBlock (serves_of_link hlink) hcheck) hrun hdangling
  obtain rfl := (mem_of_checkBlock hcheck label hlabel).resolve_right List.not_mem_nil
  exact ⟨rfl, hlabel⟩

end

/-- Branches to the empty label and to a label that is there twice, from conditionals in loops. -/
def windings : Module :=
  Host.moduleOf []
    [.block "" [.loop "a"
      [.block "a" [.constI32 1, .ifElse .none [.branch "a"] [.branch ""]],
        .constI32 0, .branchIf "a", .call Host.Function.readInt.name, .convert .wrap,
        .ifElse .none [.branch ""] [.branch "a"]]]]

/-- All branches of the windings lead somewhere, whatever is read. -/
theorem windings_never_dangling :
    ∃ m, load (some windings) Host.functions {} = .ok m ∧
      ∀ memory globals console fuel fault,
        ((m.holding memory globals console).run fuel).1 = .error (.fault fault) →
        ¬fault.Dangling := by
  have hvalid : windings.validate = .ok () := rfl
  have hbound : ∀ decl ∈ windings.imports, Host.functions decl.name ≠ none := by
    intro decl hdecl
    obtain ⟨f, -, rfl⟩ := List.mem_map.mp hdecl
    cases f <;> exact nofun
  obtain ⟨m, f, hload, hentry, hrun⟩ := dangling_only_by_empty_label hvalid hbound {}
  obtain rfl := Option.some.inj hentry
  refine ⟨m, hload, fun memory globals console fuel fault hfault hdangling => ?_⟩
  exact absurd (hrun memory globals console fuel fault hfault hdangling).2 (by decide)

/-- A branch to the empty label in a conditional is valid, but it escapes. -/
theorem empty_label_escapes :
    let p := Host.moduleOf [] [.constI32 1, .ifElse .none [.branch ""] []]
    p.validate = .ok () ∧
      ∃ m, load (some p) Host.functions {} = .ok m ∧
        (m.run 0).1 = .error (.fault (.escaped "")) :=
  ⟨rfl, _, rfl, rfl⟩

end ArrayLang.Machine
