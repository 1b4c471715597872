import ArrayLang.Proofs.Assembly.Stages
import ArrayLang.Proofs.Emit.Typed

/-!
# Assembly succeeds

A program is assembled if and only if the settings are valid, memory is large enough, and the checker
accepts the program.  No stage after the checker fails: normalisation and code generation succeed on
what the checker accepts, every variable and every temporary has a slot of its own, and the code uses
these slots, the frontier and the functions of the host only, so the module is valid.
-/

namespace ArrayLang.Assembly

open Source Code Typing NormalForm Reference

/-! ## Slots -/

/-- The slot of a variable. -/
def slotOf (b : Binding) : Local := ⟨b.name, cellType b.ty⟩

/-- The slots of a program. -/
def localsOf (env : Env) (temps : List Binding) (p : Emit.Progress) : List Local :=
  (Env.sorted env).map slotOf ++ temps.map slotOf ++ p.scratchLocals

theorem valType?_eq {ty : Ty} (h : IsValue ty) : Layout.valType? ty = some (cellType ty) := by
  cases h <;> rfl

theorem slots_ok {untyped : String → Error} {bs : List Binding} (h : ∀ b ∈ bs, IsValue b.ty) :
    slots untyped bs = .ok (bs.map slotOf) := by
  induction bs with
  | nil => rfl
  | cons b rest ih =>
      obtain ⟨hb, hrest⟩ := List.forall_mem_cons.mp h
      rw [slots, valType?_eq hb]
      simp only
      rw [ih hrest]
      rfl

section

variable {s : Settings} {major? : String → Option String} {env : Env} {temps : List Binding}

theorem mem_sorted {b : Binding} : b ∈ Env.sorted env ↔ b ∈ env :=
  (List.mergeSort_perm env _).mem_iff

theorem isValue_of_mem_sorted (henv : EnvOk env) : ∀ b ∈ Env.sorted env, IsValue b.ty := by
  intro b hb
  exact henv.value _ _ (find?_of_mem henv.distinct (mem_sorted.mp hb))

/-- No two slots of a program have the same name. -/
theorem nodup_localsOf (henv : EnvOk env) (htemps : TempsOk temps) (p : Emit.Progress) :
    ((localsOf env temps p).map Local.name).Nodup := by
  have hnames (bs : List Binding) : (bs.map slotOf).map Local.name = bs.map Binding.name := by
    rw [List.map_map]
    rfl
  have hsorted : ((Env.sorted env).map Binding.name).Nodup :=
    ((List.mergeSort_perm env _).map Binding.name).nodup_iff.mpr henv.distinct
  have hvariable : ∀ name ∈ (Env.sorted env).map Binding.name, ∃ ty, env.find? name = some ty := by
    intro name hname
    obtain ⟨b, hb, rfl⟩ := List.mem_map.mp hname
    exact ⟨_, find?_of_mem henv.distinct (mem_sorted.mp hb)⟩
  have htemp : ∀ name ∈ temps.map Binding.name, ∃ ty, Env.find? temps name = some ty := by
    intro name hname
    obtain ⟨b, hb, rfl⟩ := List.mem_map.mp hname
    exact ⟨_, find?_of_mem htemps.distinct hb⟩
  have hscratch : (p.scratchLocals.map Local.name).Nodup := by
    rw [Emit.Progress.scratchLocals]
    split <;> decide
  rw [localsOf, List.map_append, List.map_append, hnames, hnames, List.nodup_append,
    List.nodup_append]
  refine ⟨⟨hsorted, htemps.distinct, ?_⟩, hscratch, ?_⟩
  · rintro name hname _ hname' rfl
    obtain ⟨ty, hfind⟩ := hvariable name hname
    obtain ⟨b, hb, rfl⟩ := List.mem_map.mp hname'
    exact not_isTemp_of_find? henv hfind (htemps.name b hb)
  · rintro name hname _ hslot rfl
    have hfound : ∃ ty, Env.find? (env ++ temps) name = some ty := by
      rw [Typing.find?_append]
      rcases List.mem_append.mp hname with h | h
      · obtain ⟨ty, hfind⟩ := hvariable name h
        exact ⟨ty, by rw [hfind, Option.some_or]⟩
      · obtain ⟨ty, hfind⟩ := htemp name h
        rw [hfind]
        cases env.find? name <;> exact ⟨_, rfl⟩
    obtain ⟨ty, hfind⟩ := hfound
    obtain ⟨harray, hcursor⟩ := ne_scratch henv htemps hfind
    rw [Emit.Progress.scratchLocals] at hslot
    split at hslot
    · simp [harray, hcursor] at hslot
    · exact absurd hslot List.not_mem_nil

/-! ## The code of a program -/

/-- What the code of a program may use. -/
def signatureOf (s : Settings) (locals : List Local) : Signature :=
  ⟨locals, (moduleOf s locals []).globals, memorySize s⟩

theorem provides_signatureOf (henv : EnvOk env) (htemps : TempsOk temps)
    (hsize : heapStart ≤ memorySize s) (p : Emit.Progress) :
    Emit.Provides (signatureOf s (localsOf env temps p)) (targetOf s) (env ++ temps) p.scratch := by
  have hlocal {l : Local} (h : l ∈ localsOf env temps p) :
      (signatureOf s (localsOf env temps p)).local? l.name = some l.ty :=
    Signature.local?_of_mem (nodup_localsOf henv htemps p) h
  constructor
  · intro name ty hfind
    have hmem : slotOf ⟨name, ty⟩ ∈ localsOf env temps p := by
      apply List.mem_append_left
      rw [← List.map_append]
      apply List.mem_map_of_mem
      rcases List.mem_append.mp (mem_of_find? hfind) with h | h
      · exact List.mem_append_left _ (mem_sorted.mpr h)
      · exact List.mem_append_right _ h
    exact hlocal hmem
  · intro harray
    rw [signatureOf, moduleOf, if_pos (tier_eq_array harray)]
    rfl
  · have hmessage : capacityMessage.Inside heapStart := by
      rw [Emit.Message.Inside]
      decide
    exact Nat.le_trans hmessage hsize
  · have hmessage : indexMessage.Inside heapStart := by
      rw [Emit.Message.Inside]
      decide
    exact Nat.le_trans hmessage hsize
  · intro hscratch
    have hslots : p.scratchLocals = [⟨Emit.arraySlot, .i32⟩, ⟨Emit.cursorSlot, .i32⟩] := by
      rw [Emit.Progress.scratchLocals, hscratch, if_pos rfl]
    have hslot {l : Local} (h : l ∈ p.scratchLocals) := hlocal (List.mem_append_right _ h)
    rw [hslots] at hslot
    exact ⟨hslot List.mem_cons_self, hslot (List.mem_cons_of_mem _ List.mem_cons_self)⟩

/-- The code of a well-typed program is typed: it leaves an empty stack. -/
theorem typed_code {stmts : List Stmt} {body : Block} {p : Emit.Progress} (henv : EnvOk env)
    (htemps : TempsOk temps) (htyped : ∀ x ∈ stmts, StmtTyped s.tier (env ++ temps) x)
    (hsize : heapStart ≤ memorySize s)
    (hemit : (Emit.stmts (targetOf s) stmts).run {} = (.ok body, p)) :
    Typed (signatureOf s (localsOf env temps p)) [] [] body [] := by
  have hmakes : Emit.Makes (targetOf s) (env ++ temps) (Emit.stmts (targetOf s) stmts) _ :=
    Emit.makes_stmts fun x hx => Emit.makes_stmt (htyped x hx)
  obtain ⟨-, htakes⟩ := hmakes {} body p hemit
  exact htakes _ (provides_signatureOf henv htemps hsize p) [] []

/-! ## Valid modules -/

theorem nodup_globals (s : Settings) (locals : List Local) (body : Block) :
    ((moduleOf s locals body).globals.map Global.name).Nodup := by
  rw [moduleOf]
  split <;> simp

theorem within_signatureOf (s : Settings) (locals : List Local) (body : Block) :
    (signatureOf s locals).Within
      ⟨locals.map Local.name, (moduleOf s locals body).globals.map Global.name,
        (moduleOf s locals body).imports.map Import.name⟩ where
  locals _ h := List.mem_map_of_mem h
  globals _ h := List.mem_map_of_mem h
  functions f := by
    have hname : f.name ∈ Host.imports.map Import.name := by cases f <;> decide
    exact hname

/-- A module is valid if its messages lie in memory, its slots have different names and its code is
typed. -/
theorem validate_moduleOf {locals : List Local} {body : Block} (hsize : heapStart ≤ memorySize s)
    (hdistinct : (locals.map Local.name).Nodup)
    (hbody : Typed (signatureOf s locals) [] [] body []) :
    (moduleOf s locals body).validate = .ok () := by
  have hglobals : firstRepeat? [] ((moduleOf s locals body).globals.map Global.name) = none :=
    firstRepeat?_eq_none_iff.mpr ⟨nodup_globals s locals body, by simp⟩
  have hfits : Segment.fits ⟨0, messageBytes⟩ (memorySize s) = true := by
    simpa [Segment.fits, length_messageBytes] using hsize
  have hdata : (moduleOf s locals body).data.find?
      (fun segment => !segment.fits (moduleOf s locals body).memory.size) = none := by
    rw [List.find?_eq_none]
    intro segment hsegment
    have hmemory : (moduleOf s locals body).memory.size = memorySize s := rfl
    rw [List.mem_singleton.mp hsegment, hmemory, hfits]
    exact Bool.false_ne_true
  have hlocals : firstRepeat? [] (locals.map Local.name) = none :=
    firstRepeat?_eq_none_iff.mpr ⟨hdistinct, by simp⟩
  have hcheck : checkBlock ⟨locals.map Local.name, (moduleOf s locals body).globals.map Global.name,
      (moduleOf s locals body).imports.map Import.name⟩ [] body = .ok () :=
    hbody.check (within_signatureOf s locals body) (by simp)
  have hfunc : checkFuncs (moduleOf s locals body) [⟨entryName, entryName, locals, body⟩] =
      .ok () := by
    rw [checkFuncs, checkFunc]
    simp only [hlocals, hcheck]
    rfl
  rw [Module.validate, if_neg (by simp [moduleOf, Module.func?]), hglobals]
  simp only [hdata]
  exact hfunc

/-! ## Success -/

/-- The sizes in valid settings.  The sum of them is one of signed 64-bit numbers. -/
theorem sizes_of_validate (h : s.validate major? = .ok ()) :
    0 < s.maxArrayBytes ∧ s.memoryPages ≤ Settings.maxPages ∧
      (s.tier = .array → s.maxArrayBytes + 4 ≤ s.memoryBytes) := by
  rw [Settings.validate] at h
  split at h
  · cases h
  · split at h
    · cases h
    · split at h
      · cases h
      · split at h
        · cases h
        · split at h
          · cases h
          · next hpos hpages hfits =>
              refine ⟨Int64.not_le.mp hpos, UInt32.not_lt.mp hpages, fun htier => ?_⟩
              exact Int64.not_lt.mp fun hlt => hfits ⟨htier, hlt⟩

theorem maxArrayBytes_pos (h : s.validate major? = .ok ()) : 0 < s.maxArrayBytes :=
  (sizes_of_validate h).1

theorem validate_targetOf (h : 0 < s.maxArrayBytes) : (targetOf s).validate = .ok () := by
  have hmax : ¬(targetOf s).maxArrayBytes ≤ 0 := Int64.not_le.mpr h
  rw [Emit.Target.validate, if_neg hmax]
  split <;> rfl

theorem heapStart_le_iff : heapStart ≤ memorySize s ↔ 1 ≤ s.memoryPages := by
  have hstart : heapStart = 24 := by decide
  rw [hstart, memorySize, UInt32.le_iff_toNat_le]
  simp only [pageSize, UInt32.reduceToNat]
  omega

/-- A program that the checker accepts goes through all later stages. -/
theorem exists_stages_of_check {source checked : List Stmt}
    (hsettings : s.validate major? = .ok ()) (hpages : 1 ≤ s.memoryPages)
    (hmemory : memoryTooSmall s = false)
    (hcheck : check s.tier (some source) = .ok (env, checked)) :
    ∃ a, Nonempty (Stages s source a major?) := by
  obtain ⟨henv, hchecked⟩ := check_sound hcheck
  obtain ⟨stmts, T, hnormalize, hnorm⟩ := normalize_of_typed hchecked
  have htemps := hnorm.tempsOk hchecked
  have htyped := hnorm.typed henv Temps.ordered_empty hchecked
  have hsize := heapStart_le_iff.mpr hpages
  have hmax := maxArrayBytes_pos hsettings
  obtain ⟨body, p, hemit, -⟩ := emitted_program (t := targetOf s) (admits_loop s) (fun _ => hmax)
    htyped hnorm.normal (noScratch_of_typed henv htemps htyped) {}
  have hbody := typed_code henv htemps htyped hsize hemit
  have hform := formOf_eq hcheck hnormalize
  exact ⟨⟨moduleOf s (localsOf env T.made p) body, T.made⟩, ⟨{
    checked, body
    progress := p
    vars := (Env.sorted env).map slotOf
    temps := T.made.map slotOf
    settings_ok := hsettings
    check_ok := by rwa [hform]
    normalize_ok := by rwa [hform]
    memory_ok := hmemory
    target_ok := validate_targetOf hmax
    emit_ok := by rwa [hform]
    vars_ok := by rw [hform, slots_ok (isValue_of_mem_sorted henv)]
    temps_ok := slots_ok htemps.value
    module_eq := rfl
    module_ok := validate_moduleOf hsize (nodup_localsOf henv htemps p) hbody }⟩⟩

theorem exists_stages_squares : ∃ a, Nonempty (Stages .standard squares a) :=
  exists_stages_of_check (by decide) (by decide) (by decide) rfl

/-- A program is assembled, to a valid module, if and only if the settings are valid, memory has a
page and room for the messages and an array of the largest size, and the checker accepts the
program. -/
theorem assembles_iff (s : Settings) (program : Option (List Stmt))
    (major? : String → Option String) :
    (∃ a, assemble s program major? = .ok a ∧ a.module.validate = .ok ()) ↔
      s.validate major? = .ok () ∧ 1 ≤ s.memoryPages ∧ memoryTooSmall s = false ∧
        ∃ env checked, check s.tier program = .ok (env, checked) := by
  constructor
  · rintro ⟨a, hassemble, -⟩
    obtain ⟨source, rfl⟩ := exists_source hassemble
    obtain ⟨st⟩ := exists_stages hassemble
    exact ⟨st.settings_ok, heapStart_le_iff.mp st.heapStart_le, st.memory_ok, _, _, st.check_ok⟩
  · rintro ⟨hsettings, hpages, hmemory, env, checked, hcheck⟩
    cases program with
    | none => exact absurd hcheck (by simp [check])
    | some source =>
        obtain ⟨a, ⟨st⟩⟩ := exists_stages_of_check hsettings hpages hmemory hcheck
        exact ⟨a, st.assemble_eq, st.module_ok⟩

end

end ArrayLang.Assembly
