import ArrayLang.Proofs.Code.Branches
import ArrayLang.Proofs.Emit.Stmts
import ArrayLang.Proofs.Text.Decimal

/-!
# Labels of loops

The loops of all code that is made are numbered, and no number is given twice, whatever fails in
between.  So all labels differ, and all branches serve the loops that they stand in.  Code that
mentions the scratch slots leaves a note of it.
-/

namespace ArrayLang.Emit

open Source Code
open Reference (NoScratch noScratch_append iterationCode)

/-! ## Numbers of labels -/

/-- A label of the loop with a number. -/
def IsLabel (number : Nat) (label : String) : Prop :=
  ∃ kind, label = (loopLabels kind number).exit ∨ label = (loopLabels kind number).start

/-- What follows the last underscore of a label are the digits of its number. -/
theorem takeWhile_reverse_digits (front : List Char) (n : Nat) :
    (front ++ '_' :: (toString n).toList).reverse.takeWhile (· ≠ '_') =
      (Nat.toDigits 10 n).reverse := by
  have hdigits : ∀ c ∈ (Nat.toDigits 10 n).reverse, decide (c ≠ '_') = true := by
    intro c hc
    apply decide_eq_true
    rintro rfl
    exact Nat.underscore_not_in_toDigits (List.mem_reverse.mp hc)
  rw [List.reverse_append, List.reverse_cons, List.append_assoc, Nat.toString_eq_repr,
    Nat.toList_repr, List.takeWhile_append_of_pos hdigits]
  simp

theorem IsLabel.takeWhile_eq {n : Nat} {label : String} (h : IsLabel n label) :
    label.toList.reverse.takeWhile (· ≠ '_') = (Nat.toDigits 10 n).reverse := by
  obtain ⟨kind, rfl | rfl⟩ := h
  · have hlabel : (loopLabels kind n).exit.toList =
        (kind.toList ++ "_exit".toList) ++ '_' :: (toString n).toList := by
      rw [loopLabels, String.toList_append, String.toList_append, List.append_assoc,
        List.append_assoc]
      rfl
    rw [hlabel, takeWhile_reverse_digits]
  · have hlabel : (loopLabels kind n).start.toList =
        (kind.toList ++ "_start".toList) ++ '_' :: (toString n).toList := by
      rw [loopLabels, String.toList_append, String.toList_append, List.append_assoc,
        List.append_assoc]
      rfl
    rw [hlabel, takeWhile_reverse_digits]

/-- A label has one number. -/
theorem IsLabel.unique {n m : Nat} {label : String} (hn : IsLabel n label) (hm : IsLabel m label) :
    n = m := by
  have hdigits : Nat.toDigits 10 n = Nat.toDigits 10 m :=
    List.reverse_inj.mp (hn.takeWhile_eq.symm.trans hm.takeWhile_eq)
  calc
    n = Nat.ofDigitChars 10 (Nat.toDigits 10 n) 0 := Nat.ofDigitChars_ten_toDigits.symm
    _ = m := by rw [hdigits, Nat.ofDigitChars_ten_toDigits]

/-! ## Progress -/

/-- Loops are counted up, and the scratch slots stay in use. -/
structure Grows (p p' : Progress) : Prop where
  loops : p.loops ≤ p'.loops
  scratch : p.scratch = true → p'.scratch = true

theorem Grows.refl (p : Progress) : Grows p p := ⟨Nat.le_refl _, id⟩

theorem Grows.trans {p p' p'' : Progress} (h : Grows p p') (h' : Grows p' p'') : Grows p p'' :=
  ⟨Nat.le_trans h.loops h'.loops, h'.scratch ∘ h.scratch⟩

/-- A step of code generation at `p` never goes back, even if it fails; if it succeeds, the progress
and what is made have a property. -/
def Advances {α : Type} (p : Progress) (step : Emission α) (Q : Progress → α → Prop) : Prop :=
  Grows p (step.run p).2 ∧ ∀ a, (step.run p).1 = .ok a → Q (step.run p).2 a

namespace Advances

variable {α β : Type} {p : Progress}

theorem pure {Q : Progress → α → Prop} {a : α} (h : Q p a) : Advances p (Pure.pure a) Q := by
  refine ⟨.refl p, fun b hb => ?_⟩
  obtain rfl := Except.ok.inj hb
  exact h

theorem throw {Q : Progress → α → Prop} (e : Error) : Advances p (MonadExcept.throw e) Q := by
  refine ⟨.refl p, fun b hb => ?_⟩
  cases hb

theorem bind {Q : Progress → α → Prop} {R : Progress → β → Prop} {x : Emission α}
    {f : α → Emission β} (hx : Advances p x Q)
    (hf : ∀ p' a, Grows p p' → Q p' a → Advances p' (f a) R) : Advances p (x >>= f) R := by
  obtain ⟨hgrows, hanswer⟩ := hx
  rw [Advances, Emission.run_bind]
  generalize x.run p = outcome at hgrows hanswer
  obtain ⟨answer, p'⟩ := outcome
  cases answer with
  | error e =>
      refine ⟨hgrows, fun b hb => ?_⟩
      cases hb
  | ok a =>
      obtain ⟨hgrows', hanswer'⟩ := hf p' a hgrows (hanswer a rfl)
      exact ⟨hgrows.trans hgrows', hanswer'⟩

theorem mono {Q R : Progress → α → Prop} {x : Emission α} (h : Advances p x Q)
    (hQR : ∀ p' a, Q p' a → R p' a) : Advances p x R :=
  ⟨h.1, fun a ha => hQR _ a (h.2 a ha)⟩

end Advances

/-- A step of code generation leaves the progress as it is, and what it makes has a property. -/
def Steady {α : Type} (step : Emission α) (Q : α → Prop) : Prop :=
  ∀ p, Advances p step fun p' a => p' = p ∧ Q a

namespace Steady

variable {α β : Type}

theorem pure {Q : α → Prop} {a : α} (h : Q a) : Steady (Pure.pure a) Q := fun _ =>
  .pure ⟨rfl, h⟩

theorem throw {Q : α → Prop} (e : Error) : Steady (MonadExcept.throw e : Emission α) Q := fun _ =>
  .throw e

theorem bind {Q : α → Prop} {R : β → Prop} {x : Emission α} {f : α → Emission β}
    (hx : Steady x Q) (hf : ∀ a, Q a → Steady (f a) R) : Steady (x >>= f) R := by
  intro p
  refine (hx p).bind ?_
  rintro _ a - ⟨rfl, ha⟩
  exact hf a ha _

/-- A step that leaves the progress as it is, and then any other. -/
theorem andThen {Q : α → Prop} {R : Progress → β → Prop} {p : Progress} {x : Emission α}
    {f : α → Emission β} (hx : Steady x Q) (hf : ∀ a, Q a → Advances p (f a) R) :
    Advances p (x >>= f) R := by
  refine (hx p).bind ?_
  rintro _ a - ⟨rfl, ha⟩
  exact hf a ha

end Steady

/-! ## Code with its labels -/

/-- Code that is made while progress goes from `p` to `p'`. -/
structure Orderly (p p' : Progress) (code : Block) : Prop where
  grows : Grows p p'
  /-- The labels belong to the loops that are counted from `p` to `p'`. -/
  numbered : ∀ label ∈ labels code, ∃ n, IsLabel n label ∧ p.loops < n ∧ n ≤ p'.loops
  nodup : (labels code).Nodup
  branches : ∀ around, WellBranched around code
  scratch : p'.scratch = true ∨ NoScratch (slots code)

/-- Labels of different loops differ. -/
theorem disjoint_of_numbered {k : Nat} {first second : List String}
    (hfirst : ∀ label ∈ first, ∃ n, IsLabel n label ∧ n ≤ k)
    (hsecond : ∀ label ∈ second, ∃ n, IsLabel n label ∧ k < n) :
    ∀ a ∈ first, ∀ b ∈ second, a ≠ b := by
  rintro a ha _ hb rfl
  obtain ⟨n, hn, hle⟩ := hfirst a ha
  obtain ⟨m, hm, hlt⟩ := hsecond a hb
  have heq := hn.unique hm
  omega

namespace Orderly

variable {p p' p'' : Progress} {first second : Block}

/-- Code without labels and branches. -/
theorem plain {code : Block} (hgrows : Grows p p') (h : code.all Instr.isPlain = true)
    (hscratch : p'.scratch = true ∨ NoScratch (slots code)) : Orderly p p' code where
  grows := hgrows
  numbered := by simp [labels_of_isPlain h]
  nodup := by simp [labels_of_isPlain h]
  branches around := wellBranched_of_isPlain around h
  scratch := hscratch

/-- Code without labels, branches and slots. -/
theorem idle {code : Block} (hgrows : Grows p p') (h : code.all Instr.isPlain = true)
    (hslots : slots code = []) : Orderly p p' code :=
  .plain hgrows h (.inr (by simp [hslots, NoScratch]))

theorem scratch_append (hfirst : Orderly p p' first) (hsecond : Orderly p' p'' second) :
    p''.scratch = true ∨ NoScratch (slots first ++ slots second) := by
  obtain hused | hfree := hsecond.scratch
  · exact .inl hused
  · obtain hused' | hfree' := hfirst.scratch
    · exact .inl (hsecond.grows.scratch hused')
    · exact .inr (noScratch_append.mpr ⟨hfree', hfree⟩)

theorem numbered_append (hfirst : Orderly p p' first) (hsecond : Orderly p' p'' second) :
    ∀ label ∈ labels first ++ labels second,
      ∃ n, IsLabel n label ∧ p.loops < n ∧ n ≤ p''.loops := by
  have hle := hfirst.grows.loops
  have hle' := hsecond.grows.loops
  intro label hlabel
  rcases List.mem_append.mp hlabel with hlabel | hlabel
  · obtain ⟨n, hn, hlo, hhi⟩ := hfirst.numbered label hlabel
    exact ⟨n, hn, hlo, by omega⟩
  · obtain ⟨n, hn, hlo, hhi⟩ := hsecond.numbered label hlabel
    exact ⟨n, hn, by omega, hhi⟩

theorem nodup_append (hfirst : Orderly p p' first) (hsecond : Orderly p' p'' second) :
    (labels first ++ labels second).Nodup := by
  refine List.nodup_append.mpr
    ⟨hfirst.nodup, hsecond.nodup, disjoint_of_numbered (k := p'.loops) ?_ ?_⟩
  · intro label hlabel
    obtain ⟨n, hn, -, hhi⟩ := hfirst.numbered label hlabel
    exact ⟨n, hn, hhi⟩
  · intro label hlabel
    obtain ⟨n, hn, hlo, -⟩ := hsecond.numbered label hlabel
    exact ⟨n, hn, hlo⟩

theorem append (hfirst : Orderly p p' first) (hsecond : Orderly p' p'' second) :
    Orderly p p'' (first ++ second) where
  grows := hfirst.grows.trans hsecond.grows
  numbered := by
    rw [labels_append]
    exact hfirst.numbered_append hsecond
  nodup := by
    rw [labels_append]
    exact hfirst.nodup_append hsecond
  branches around := (wellBranched_append ..).mpr ⟨hfirst.branches around, hsecond.branches around⟩
  scratch := by
    rw [slots_append]
    exact hfirst.scratch_append hsecond

theorem ifElse (result : ValType) (hfirst : Orderly p p' first) (hsecond : Orderly p' p'' second) :
    Orderly p p'' [.ifElse result first second] where
  grows := hfirst.grows.trans hsecond.grows
  numbered := by
    simpa only [labels, Instr.labels, List.append_nil] using hfirst.numbered_append hsecond
  nodup := by
    simpa only [labels, Instr.labels, List.append_nil] using hfirst.nodup_append hsecond
  branches around := ⟨⟨hfirst.branches _, hsecond.branches _⟩, trivial⟩
  scratch := by
    have hslots : slots [.ifElse result first second] = slots first ++ slots second := by
      simp [slots, leaves, Instr.leaves]
    rw [hslots]
    exact hfirst.scratch_append hsecond

end Orderly

/-- A loop that is left after a test and started again after a step. -/
def exitingLoop (labels : LoopLabels) (test step : Block) : Instr :=
  .block labels.exit [.loop labels.start (iterationCode labels test step)]

/-- The test of a fill loop: the cursor is not below the frontier. -/
def fillTest (t : Target) : Block :=
  [.localGet cursorSlot, .globalGet t.frontier, .compare .i32 .ltU, i32Const 0, .compare .i32 .eq]

/-- The body of a fill loop: store an element and advance. -/
def fillBody (elem : Ty) (vt : ValType) (fill : Block) : Block :=
  [.localGet cursorSlot] ++ fill ++
    [.store vt, .localGet cursorSlot, i32Const (Layout.width elem), .arith .i32 .add,
      .localSet cursorSlot]

theorem fillLoop_eq (t : Target) (labels : LoopLabels) (elem : Ty) (vt : ValType) (fill : Block) :
    fillLoop t labels elem vt fill =
      exitingLoop labels (fillTest t) (fillBody elem vt fill) := by
  simp [fillLoop, exitingLoop, iterationCode, fillTest, fillBody]

section

variable {p p' p'' : Progress} {test body : Block}

theorem labels_exitingLoop (l : LoopLabels) :
    labels [exitingLoop l test body] = l.exit :: l.start :: (labels test ++ labels body) := by
  simp [exitingLoop, iterationCode, labels, Instr.labels]

theorem slots_exitingLoop (l : LoopLabels) :
    slots [exitingLoop l test body] = slots test ++ slots body := by
  have hslots : slots [exitingLoop l test body] = slots (iterationCode l test body) := by
    simp [exitingLoop, slots, leaves, Instr.leaves]
  have hexit : slots [.branchIf l.exit] = [] := rfl
  have hstart : slots [.branch l.start] = [] := rfl
  rw [hslots, iterationCode, ← List.singleton_append, slots_append, slots_append, slots_append,
    hexit, hstart, List.nil_append, List.append_nil]

theorem wellBranched_exitingLoop (l : LoopLabels) (htest : ∀ around, WellBranched around test)
    (hbody : ∀ around, WellBranched around body) (around : List Region) :
    WellBranched around [exitingLoop l test body] := by
  simp only [exitingLoop, iterationCode, WellBranched, Instr.WellBranched, wellBranched_append,
    exitLabel?, startLabel?, htest, hbody, and_self]

/-- A loop with new labels is orderly if its parts are, made after the labels. -/
theorem Orderly.loop (kind : String)
    (htest : Orderly { p with loops := p.loops + 1 } p' test) (hbody : Orderly p' p'' body) :
    Orderly p p'' [exitingLoop (loopLabels kind (p.loops + 1)) test body] := by
  have hgrows : Grows { p with loops := p.loops + 1 } p'' := htest.grows.trans hbody.grows
  have hle : p.loops + 1 ≤ p''.loops := hgrows.loops
  have hinner := htest.numbered_append hbody
  have hexit : IsLabel (p.loops + 1) (loopLabels kind (p.loops + 1)).exit := ⟨kind, .inl rfl⟩
  have hstart : IsLabel (p.loops + 1) (loopLabels kind (p.loops + 1)).start := ⟨kind, .inr rfl⟩
  -- The labels inside have larger numbers than the loop itself.
  have hnew {label : String} (h : IsLabel (p.loops + 1) label) :
      label ∉ labels test ++ labels body := by
    intro hmem
    obtain ⟨n, hn, hlo, -⟩ := hinner label hmem
    have heq := h.unique hn
    simp only at hlo
    omega
  constructor
  · exact ⟨by omega, hgrows.scratch⟩
  · rw [labels_exitingLoop, List.forall_mem_cons, List.forall_mem_cons]
    refine ⟨⟨_, hexit, by omega, hle⟩, ⟨_, hstart, by omega, hle⟩, fun label hlabel => ?_⟩
    obtain ⟨n, hn, hlo, hhi⟩ := hinner label hlabel
    exact ⟨n, hn, by simp only at hlo; omega, hhi⟩
  · rw [labels_exitingLoop, List.nodup_cons, List.nodup_cons, List.mem_cons, not_or]
    exact ⟨⟨loopLabels_exit_ne_start _ _, hnew hexit⟩, hnew hstart, htest.nodup_append hbody⟩
  · exact wellBranched_exitingLoop _ htest.branches hbody.branches
  · rw [slots_exitingLoop]
    exact htest.scratch_append hbody

end

/-! ## Single steps -/

theorem advances_freshLabels (p : Progress) (kind : String) :
    Advances p (freshLabels kind) fun p' l =>
      p' = { p with loops := p.loops + 1 } ∧ l = loopLabels kind (p.loops + 1) := by
  refine ⟨⟨Nat.le_succ _, id⟩, fun l hl => ⟨rfl, ?_⟩⟩
  exact (Except.ok.inj hl).symm

theorem advances_useScratch (p : Progress) :
    Advances p useScratch fun p' _ => p' = { p with scratch := true } :=
  ⟨⟨Nat.le_refl _, fun _ => rfl⟩, fun _ _ => rfl⟩

section

variable {t : Target} {e : Expr}

theorem steady_requireTier (what : String) (needed : Tier) :
    Steady (requireTier t what needed) fun _ => True := by
  rw [requireTier]
  split
  · exact .pure trivial
  · exact .throw _

theorem steady_accept : Steady (accept t e) fun _ => True := by
  rw [accept]
  split
  · exact (Steady.throw (Q := fun _ => True) _).bind fun _ _ => steady_requireTier _ _
  · exact steady_requireTier _ _

theorem steady_representation (ty : Ty) (otherwise : Untyped) :
    Steady (representation ty otherwise) fun _ => True := by
  rw [representation]
  split
  · exact .pure trivial
  · exact .throw _

theorem steady_elemType (ty : Ty) : Steady (elemType ty) fun _ => True := by
  rw [elemType]
  split
  · exact .pure trivial
  · exact .throw _

/-- Code that may be used anywhere, and more than once. -/
def Operand (code : Block) : Prop := ∀ p, Orderly p p code

/-- Code that may be used, also more than once, where the scratch slots are in use. -/
def Construction (code : Block) : Prop := ∀ p, p.scratch = true → Orderly p p code

section

variable {first second : Block}

theorem Operand.append (hfirst : Operand first) (hsecond : Operand second) :
    Operand (first ++ second) :=
  fun p => (hfirst p).append (hsecond p)

theorem Operand.idle {code : Block} (h : code.all Instr.isPlain = true) (hslots : slots code = []) :
    Operand code :=
  fun p => .idle (.refl p) h hslots

theorem Operand.construction (h : Operand first) : Construction first := fun p _ => h p

theorem Construction.append (hfirst : Construction first) (hsecond : Construction second) :
    Construction (first ++ second) :=
  fun p hp => (hfirst p hp).append (hsecond p hp)

theorem Construction.plain {code : Block} (h : code.all Instr.isPlain = true) : Construction code :=
  fun p hp => .plain (.refl p) h (.inl hp)

theorem Steady.orderly {step : Emission Block} (h : Steady step Operand) {p : Progress} :
    Advances p step (Orderly p) := by
  refine (h p).mono ?_
  rintro _ code ⟨rfl, hcode⟩
  exact hcode _

/-- Progress can be made before code that is made without any. -/
theorem Orderly.after {p p' : Progress} (hgrows : Grows p p') (h : Orderly p' p' first) :
    Orderly p p' first :=
  (Orderly.idle hgrows rfl rfl : Orderly p p' []).append h

end

theorem operand_atomCode (h : NoScratch e.names) : Operand (atomCode e) := by
  intro p
  cases e with
  | var ty name => exact .plain (.refl p) rfl (.inr h)
  | _ => exact .idle (.refl p) rfl rfl

theorem steady_atom (what : String) (h : NoScratch e.names) : Steady (atom t what e) Operand := by
  have haccept : Steady (do accept t e; return atomCode e) Operand :=
    steady_accept.bind fun _ _ => .pure (operand_atomCode h)
  rw [atom]
  split
  · exact (Steady.throw (Q := fun _ => True) _).bind fun _ _ => haccept
  · exact haccept

end

/-! ## Arrays -/

section

variable {t : Target} {p : Progress}

theorem operand_guard {cond : Block} (h : Operand cond) (msg : Message) :
    Operand (guard cond msg) := by
  intro p
  have hreport : Operand (report msg) := .idle rfl rfl
  have hnothing : Operand [] := .idle rfl rfl
  exact (h p).append (.ifElse .none (hreport p) (hnothing p))

theorem construction_allocation {length : Block} (h : Operand length) (elem : Ty) :
    Construction (allocation t length elem) := by
  have hguards : Operand (capacityGuards t length (Layout.width elem)) :=
    (operand_guard (h.append (.idle rfl rfl)) _).append
      (operand_guard (h.append (.idle rfl rfl)) _)
  have hlength := h.construction
  exact (((((hguards.construction.append (.plain rfl)).append hlength).append (.plain rfl)).append
    (.plain rfl)).append hlength).append (.plain rfl)

theorem steady_elementStores (elem : Ty) (vt : ValType) {elems : List Expr}
    (h : ∀ e ∈ elems, NoScratch e.names) (position : Nat) :
    Steady (elementStores t elem vt position elems) Construction := by
  induction elems generalizing position with
  | nil => exact .pure (.plain rfl)
  | cons e rest ih =>
      obtain ⟨he, hrest⟩ := List.forall_mem_cons.mp h
      rw [elementStores]
      refine (steady_atom _ he).bind fun value hvalue => ?_
      refine (ih hrest _).bind fun stores hstores => .pure (.append ?_ hstores)
      exact ((Construction.plain rfl).append hvalue.construction).append (.plain rfl)

theorem advances_arrayLit (ty elemTy : Ty) {elems : List Expr}
    (h : ∀ e ∈ elems, NoScratch e.names) :
    Advances p (arrayLit t ty elemTy elems) (Orderly p) := by
  have hlength : Operand [.constI64 (Int64.ofNat elems.length)] := .idle rfl rfl
  have hrest (elem : Ty) : Advances p (do
      let vt ← representation elem (.element "static")
      useScratch
      let stores ← elementStores t elem vt 0 elems
      return allocation t [.constI64 (Int64.ofNat elems.length)] elem ++ stores ++
        [.localGet arraySlot]) (Orderly p) := by
    refine (steady_representation _ _).andThen fun vt _ => (advances_useScratch p).bind ?_
    rintro _ _ hgrows rfl
    refine (steady_elementStores elem vt h 0).andThen fun stores hstores => .pure ?_
    have hcode := (construction_allocation (t := t) hlength elem).append hstores
    exact .after hgrows (hcode.append (.plain rfl) _ rfl)
  rw [arrayLit]
  split
  · exact hrest elemTy
  · exact (steady_elemType ty).andThen fun elem _ => hrest elem

theorem construction_fillBody {fill : Block} (h : Operand fill) (elem : Ty) (vt : ValType) :
    Construction (fillBody elem vt fill) :=
  ((Construction.plain rfl).append h.construction).append (.plain rfl)

theorem advances_arrayFill (ty : Ty) {length fill : Expr} (hlength : NoScratch length.names)
    (hfill : NoScratch fill.names) :
    Advances p (arrayFill t ty length fill) (Orderly p) := by
  rw [arrayFill]
  refine (steady_elemType ty).andThen fun elem _ => ?_
  refine (steady_representation _ _).andThen fun vt _ => ?_
  refine (steady_atom _ hlength).andThen fun length hlength => ?_
  refine (steady_atom _ hfill).andThen fun fill hfill => ?_
  refine (advances_freshLabels p "fill").bind ?_
  rintro _ _ - ⟨rfl, rfl⟩
  refine (advances_useScratch _).bind ?_
  rintro _ _ - rfl
  apply Advances.pure
  rw [fillLoop_eq]
  -- The slots come into use before the code of the array, and the loop is counted at its place.
  have hused : Grows p { p with scratch := true } := ⟨Nat.le_refl _, fun _ => rfl⟩
  have htest : Construction (fillTest t) := .plain rfl
  have hloop := Orderly.loop (p := { p with scratch := true }) "fill" (htest _ rfl)
    (construction_fillBody hfill elem vt _ rfl)
  have hcursor : Construction
      [.localGet arraySlot, i32Const Layout.headerSize, .arith .i32 .add, .localSet cursorSlot] :=
    .plain rfl
  have hresult : Construction [.localGet arraySlot] := .plain rfl
  refine (Orderly.after hused (construction_allocation hlength elem _ rfl)).append ?_
  exact (hcursor _ rfl).append (hloop.append (hresult _ rfl))

theorem steady_elementRef {array index : Expr} (harray : NoScratch array.names)
    (hindex : NoScratch index.names) :
    Steady (elementRef t array index) fun ref => Operand ref.1 := by
  rw [elementRef]
  refine (steady_atom _ harray).bind fun arr harr => (steady_atom _ hindex).bind fun idx hidx => ?_
  refine (steady_elemType _).bind fun elem _ => .pure (.append (.append ?_ ?_) ?_)
  · exact operand_guard (hidx.append (.idle rfl rfl)) _
  · exact operand_guard ((hidx.append (harr.append (.idle rfl rfl))).append (.idle rfl rfl)) _
  · exact (harr.append hidx).append (.idle rfl rfl)

theorem steady_elementRead {array index : Expr} (harray : NoScratch array.names)
    (hindex : NoScratch index.names) : Steady (elementRead t array index) Operand := by
  rw [elementRead]
  refine (steady_elementRef harray hindex).bind fun ref href => ?_
  exact (steady_representation _ _).bind fun vt _ => .pure (href.append (.idle rfl rfl))

end

/-! ## Expressions -/

section

variable {t : Target} {p p' p'' : Progress} {left right : Block}

/-- Code for both operands, and then an instruction that works on the stack. -/
theorem Orderly.both (hl : Orderly p p' left) (hr : Orderly p' p'' right) {last : Block}
    (h : Operand last) : Orderly p p'' (left ++ right ++ last) :=
  (hl.append hr).append (h p'')

theorem advances_unaryCode (op : UnaryOp) (h : Orderly p p' left) :
    Advances p' (unaryCode op left) (Orderly p) := by
  have hzero : Operand [.constI64 0] := .idle rfl rfl
  cases op with
  | neg => exact .pure (((hzero p).append h).append (.idle (.refl _) rfl rfl))
  | not => exact .pure (h.append (.idle (.refl _) rfl rfl))
  | unknown => exact .throw _

theorem advances_equalityCode (ty : Ty) (op : CompareOp) (hl : Orderly p p' left)
    (hr : Orderly p' p'' right) : Advances p'' (equalityCode ty op left right) (Orderly p) := by
  cases ty with
  | int | bool => exact .pure (hl.both hr (.idle rfl rfl))
  | _ => exact .throw _

theorem advances_binaryCode (op : BinaryOp) (ty : Ty) (hl : Orderly p p' left)
    (hr : Orderly p' p'' right) : Advances p'' (binaryCode op ty left right) (Orderly p) := by
  have hconst (n : Nat) : Operand [i32Const n] := .idle rfl rfl
  cases op with
  | eq | ne => exact advances_equalityCode ty _ hl hr
  | and => exact .pure (hl.append (hr.ifElse .i32 (hconst 0 p'')))
  | or => exact .pure (hl.append (.ifElse .i32 (hconst 1 p') hr))
  | unknown => exact .throw _
  | _ => exact .pure (hl.both hr (.idle rfl rfl))

theorem steady_printFunction (ty : Ty) : Steady (printFunction ty) fun _ => True := by
  cases ty with
  | int | bool | array | bareArray => exact .pure trivial
  | _ => exact .throw _

theorem advances_callCode (name : String) (args : List Expr) {code : Block}
    (h : Orderly p p' code) : Advances p' (callCode t name args code) (Orderly p) := by
  unfold callCode
  split
  · split
    · refine (steady_printFunction _).andThen fun f _ => .pure (h.append ?_)
      exact .idle (.refl _) rfl rfl
    · exact .throw _
  · split
    · exact .pure (.idle h.grows rfl rfl)
    · exact .throw _
  · split
    · exact .throw _
    · refine (steady_requireTier _ _).andThen fun _ _ => .pure (h.append ?_)
      exact .idle (.refl _) rfl rfl
  · exact .throw _

theorem advances_exprs {es : List Expr} (h : ∀ e ∈ es, ∀ p, Advances p (expr t e) (Orderly p)) :
    Advances p (exprs t es) (Orderly p) := by
  induction es generalizing p with
  | nil => exact .pure (.idle (.refl p) rfl rfl)
  | cons e rest ih =>
      obtain ⟨he, hrest⟩ := List.forall_mem_cons.mp h
      rw [exprs]
      refine (he p).bind fun p' first _ hfirst => (ih hrest).bind fun p'' second _ hsecond => ?_
      exact .pure (hfirst.append hsecond)

/-- The code of an expression has its labels in order. -/
theorem advances_expr {e : Expr} (h : NoScratch e.names) (p : Progress) :
    Advances p (expr t e) (Orderly p) := by
  induction e generalizing p with
  | missing =>
      rw [expr]
      exact .throw _
  | int | bool | var =>
      rw [expr]
      exact steady_accept.andThen fun _ _ => .pure (operand_atomCode h p)
  | unary ty op x ih =>
      rw [expr]
      refine steady_accept.andThen fun _ _ => (ih h p).bind fun p' code _ hcode => ?_
      exact advances_unaryCode op hcode
  | binary ty op left right ihl ihr =>
      obtain ⟨hl, hr⟩ := noScratch_append.mp h
      rw [expr]
      refine steady_accept.andThen fun _ _ => (ihl hl p).bind fun p' l _ hl => ?_
      exact (ihr hr p').bind fun p'' r _ hr => advances_binaryCode op _ hl hr
  | call ty name args ih =>
      have hargs : NoScratch (Expr.listNames args) := h
      rw [expr]
      refine steady_accept.andThen fun _ _ => ?_
      refine (advances_exprs fun e he => ih e he (hargs.of_mem he)).bind fun p' code _ hcode => ?_
      exact advances_callCode name args hcode
  | arrayLit ty elemTy elems ih =>
      have helems : NoScratch (Expr.listNames elems) := h
      rw [expr]
      exact steady_accept.andThen fun _ _ => advances_arrayLit ty elemTy fun e => helems.of_mem
  | arrayFill ty length fill =>
      obtain ⟨hlength, hfill⟩ := noScratch_append.mp h
      rw [expr]
      exact steady_accept.andThen fun _ _ => advances_arrayFill ty hlength hfill
  | index ty array index =>
      obtain ⟨harray, hindex⟩ := noScratch_append.mp h
      rw [expr]
      exact steady_accept.andThen fun _ _ => (steady_elementRead harray hindex).orderly

end

/-! ## Statements -/

section

variable {t : Target} {p : Progress}

theorem advances_elementWrite {array index value : Expr} (harray : NoScratch array.names)
    (hindex : NoScratch index.names) (hvalue : NoScratch value.names) :
    Advances p (elementWrite t array index value) (Orderly p) := by
  rw [elementWrite]
  refine (steady_elementRef harray hindex).andThen fun ref href => ?_
  refine (advances_expr hvalue p).bind fun p' code _ hcode => ?_
  refine (steady_representation _ _).andThen fun vt _ => ?_
  have hstore : Operand [.store vt] := .idle rfl rfl
  have hwrite := ((href p).append hcode).append (hstore p')
  split
  · exact (Steady.throw (Q := fun _ => True) _).andThen fun _ _ => .pure hwrite
  · exact .pure hwrite

theorem advances_stmts_of {ss : List Stmt} (h : ∀ s ∈ ss, ∀ p, Advances p (stmt t s) (Orderly p))
    (p : Progress) : Advances p (stmts t ss) (Orderly p) := by
  induction ss generalizing p with
  | nil => exact .pure (.idle (.refl p) rfl rfl)
  | cons s rest ih =>
      obtain ⟨hs, hrest⟩ := List.forall_mem_cons.mp h
      rw [stmts]
      refine (hs p).bind fun p' first _ hfirst => (ih hrest p').bind fun p'' second _ hsecond => ?_
      exact .pure (hfirst.append hsecond)

theorem advances_stmt {s : Stmt} (h : NoScratch s.names) (p : Progress) :
    Advances p (stmt t s) (Orderly p) := by
  induction s generalizing p with
  | missing =>
      rw [stmt]
      exact .throw _
  | expr x =>
      rw [stmt]
      refine (steady_requireTier _ _).andThen fun _ _ => ?_
      refine (advances_expr h p).bind fun p' code _ hcode => .pure ?_
      split
      · exact hcode
      · exact hcode.append (.idle (.refl p') rfl rfl)
  | assign name value =>
      obtain ⟨hname, hvalue⟩ := noScratch_append.mp (show NoScratch ([name] ++ value.names) from h)
      rw [stmt]
      refine (steady_requireTier _ _).andThen fun _ _ => ?_
      refine (advances_expr hvalue p).bind fun p' code _ hcode => .pure (hcode.append ?_)
      exact .plain (.refl p') rfl (.inr hname)
  | indexAssign array index value =>
      obtain ⟨htarget, hvalue⟩ := noScratch_append.mp h
      obtain ⟨harray, hindex⟩ := noScratch_append.mp htarget
      rw [stmt]
      exact (steady_requireTier _ _).andThen fun _ _ => advances_elementWrite harray hindex hvalue
  | ifElse cond thenBody elseBody ihthen ihelse =>
      obtain ⟨hrest, helse⟩ := noScratch_append.mp h
      obtain ⟨hcond, hthen⟩ := noScratch_append.mp hrest
      rw [stmt]
      refine (steady_requireTier _ _).andThen fun _ _ => ?_
      refine (advances_expr hcond p).bind fun p₁ cond _ hcond => ?_
      refine (advances_stmts_of (fun s hs => ihthen s hs (hthen.of_mem_stmts hs)) p₁).bind
        fun p₂ thenCode _ hthen => ?_
      refine (advances_stmts_of (fun s hs => ihelse s hs (helse.of_mem_stmts hs)) p₂).bind
        fun p₃ elseCode _ helse => .pure ?_
      exact hcond.append (hthen.ifElse .none helse)
  | whileDo cond body ihbody =>
      obtain ⟨hcond, hbody⟩ := noScratch_append.mp h
      rw [stmt]
      refine (steady_requireTier _ _).andThen fun _ _ => (advances_freshLabels p "while").bind ?_
      rintro _ _ - ⟨rfl, rfl⟩
      refine (advances_expr hcond _).bind fun p₁ cond _ hcond => ?_
      refine (advances_stmts_of (fun s hs => ihbody s hs (hbody.of_mem_stmts hs)) p₁).bind
        fun p₂ body _ hbody => .pure ?_
      rw [Reference.whileLoop_eq]
      exact .loop "while" (hcond.append (.idle (.refl p₁) rfl rfl)) hbody

end

/-! ## Sessions -/

/-- What code can be asked for. -/
inductive Request where
  | expr (e : Expr)
  | stmts (ss : List Stmt)

/-- The variables of what code is asked for. -/
def Request.names : Request → List String
  | expr e => e.names
  | stmts ss => Stmt.listNames ss

/-- Make the code. -/
def Request.code (t : Target) : Request → Emission Block
  | expr e => Emit.expr t e
  | stmts ss => Emit.stmts t ss

/-- Make code for one request after the other.  Each answer stands beside the progress after it. -/
def session (t : Target) : Progress → List Request → List (Except Error Block × Progress)
  | _, [] => []
  | p, request :: rest =>
    let answer := (request.code t).run p
    answer :: session t answer.2 rest

/-- The code of the requests that did not fail. -/
def returned (answers : List (Except Error Block × Progress)) : List Block :=
  answers.filterMap fun answer => answer.1.toOption

theorem advances_request {t : Target} {request : Request} (h : NoScratch request.names)
    (p : Progress) : Advances p (request.code t) (Orderly p) := by
  cases request with
  | expr e => exact advances_expr h p
  | stmts ss => exact advances_stmts_of (fun s hs => advances_stmt (h.of_mem_stmts hs)) p

/-- A session only adds to the progress. -/
theorem grows_of_mem_session {t : Target} {requests : List Request}
    (h : ∀ request ∈ requests, NoScratch request.names) {p : Progress} :
    ∀ answer ∈ session t p requests, Grows p answer.2 := by
  induction requests generalizing p with
  | nil => simp [session]
  | cons request rest ih =>
      obtain ⟨hrequest, hrest⟩ := List.forall_mem_cons.mp h
      obtain ⟨hgrows, -⟩ := advances_request hrequest p
      rw [session, List.forall_mem_cons]
      exact ⟨hgrows, fun answer hanswer => hgrows.trans (ih hrest answer hanswer)⟩

theorem pairwise_session {t : Target} {requests : List Request}
    (h : ∀ request ∈ requests, NoScratch request.names) {p : Progress} :
    (session t p requests).Pairwise fun earlier later => Grows earlier.2 later.2 := by
  induction requests generalizing p with
  | nil => exact .nil
  | cons request rest ih =>
      obtain ⟨-, hrest⟩ := List.forall_mem_cons.mp h
      exact .cons (grows_of_mem_session hrest) (ih hrest)

/-- Whatever a session returns is orderly at its place. -/
theorem orderly_of_mem_session {t : Target} {requests : List Request}
    (h : ∀ request ∈ requests, NoScratch request.names) {p : Progress} :
    ∀ answer ∈ session t p requests, ∀ code, answer.1 = .ok code →
      ∃ before, Grows p before ∧ Orderly before answer.2 code := by
  induction requests generalizing p with
  | nil => simp [session]
  | cons request rest ih =>
      obtain ⟨hrequest, hrest⟩ := List.forall_mem_cons.mp h
      obtain ⟨hgrows, hanswer⟩ := advances_request hrequest p
      rw [session, List.forall_mem_cons]
      refine ⟨fun code hcode => ⟨p, .refl p, hanswer code hcode⟩, fun answer hmem code hcode => ?_⟩
      obtain ⟨before, hbefore, horderly⟩ := ih hrest answer hmem code hcode
      exact ⟨before, hgrows.trans hbefore, horderly⟩

theorem exists_of_mem_returned {answers : List (Except Error Block × Progress)} {code : Block}
    (h : code ∈ returned answers) : ∃ p, (.ok code, p) ∈ answers := by
  obtain ⟨⟨answer, p⟩, hmem, hcode⟩ := List.mem_filterMap.mp h
  cases answer with
  | error e => cases hcode
  | ok code' =>
      obtain rfl := Option.some.inj hcode
      exact ⟨p, hmem⟩

theorem numbered_of_returned {t : Target} {requests : List Request}
    (h : ∀ request ∈ requests, NoScratch request.names) {p : Progress} :
    ∀ label ∈ (returned (session t p requests)).flatMap labels,
      ∃ n, IsLabel n label ∧ p.loops < n := by
  intro label hlabel
  obtain ⟨code, hcode, hlabel⟩ := List.mem_flatMap.mp hlabel
  obtain ⟨p', hmem⟩ := exists_of_mem_returned hcode
  obtain ⟨before, hgrows, horderly⟩ := orderly_of_mem_session h _ hmem code rfl
  obtain ⟨n, hn, hlo, -⟩ := horderly.numbered label hlabel
  exact ⟨n, hn, Nat.lt_of_le_of_lt hgrows.loops hlo⟩

theorem nodup_returned {t : Target} {requests : List Request}
    (h : ∀ request ∈ requests, NoScratch request.names) {p : Progress} :
    ((returned (session t p requests)).flatMap labels).Nodup := by
  induction requests generalizing p with
  | nil => exact List.nodup_nil
  | cons request rest ih =>
      obtain ⟨hrequest, hrest⟩ := List.forall_mem_cons.mp h
      obtain ⟨-, hanswer⟩ := advances_request hrequest p
      rw [session]
      cases hrun : ((request.code t).run p).1 with
      | error e =>
          rw [returned, List.filterMap_cons, hrun]
          exact ih hrest
      | ok code =>
          have horderly := hanswer code hrun
          rw [returned, List.filterMap_cons, hrun]
          refine List.nodup_append.mpr ⟨horderly.nodup, ih hrest,
            disjoint_of_numbered ?_ (numbered_of_returned hrest)⟩
          intro label hlabel
          obtain ⟨n, hn, -, hhi⟩ := horderly.numbered label hlabel
          exact ⟨n, hn, hhi⟩

theorem scratchLocals_of_scratch {p : Progress} (h : p.scratch = true) :
    p.scratchLocals = [⟨arraySlot, .i32⟩, ⟨cursorSlot, .i32⟩] := by
  rw [Progress.scratchLocals, if_pos h]

/-- Code for one request after the other, for any target: over all code that is returned, all labels
differ; all branches serve the loops that they stand in; and from code that mentions a scratch slot
on, both are listed. -/
theorem session_labels_distinct (t : Target) (p : Progress) (requests : List Request)
    (h : ∀ request ∈ requests, NoScratch request.names) :
    ((returned (session t p requests)).flatMap labels).Nodup ∧
    (∀ code ∈ returned (session t p requests), WellBranched [] code) ∧
    ∀ earlier code p' later, session t p requests = earlier ++ (.ok code, p') :: later →
      arraySlot ∈ slots code ∨ cursorSlot ∈ slots code →
      ∀ q ∈ p' :: later.map Prod.snd,
        q.scratchLocals = [⟨arraySlot, .i32⟩, ⟨cursorSlot, .i32⟩] := by
  refine ⟨nodup_returned h, fun code hcode => ?_, ?_⟩
  · obtain ⟨p', hmem⟩ := exists_of_mem_returned hcode
    obtain ⟨before, -, horderly⟩ := orderly_of_mem_session h _ hmem code rfl
    exact horderly.branches []
  · intro earlier code p' later hsession hslot
    have hmem : (.ok code, p') ∈ session t p requests := by simp [hsession]
    obtain ⟨before, -, horderly⟩ := orderly_of_mem_session h _ hmem code rfl
    have hused : p'.scratch = true := by
      refine horderly.scratch.resolve_right fun hfree => ?_
      exact hslot.elim hfree.1 hfree.2
    have hpairwise := pairwise_session (t := t) h (p := p)
    rw [hsession] at hpairwise
    have hlater := (List.pairwise_cons.mp (List.pairwise_append.mp hpairwise).2.1).1
    rw [List.forall_mem_cons, List.forall_mem_map]
    exact ⟨scratchLocals_of_scratch hused, fun answer hanswer =>
      scratchLocals_of_scratch ((hlater answer hanswer).scratch hused)⟩

/-- A loop around an array of equal elements, a loop without code for its body, and the array
again. -/
def fillRequests : List Request :=
  let cond : Expr := .var .bool "b"
  let array : Expr := .arrayFill (.array .int) (.var .int "n") (.int .int 0)
  [.stmts [.whileDo cond [.assign "a" array]], .stmts [.whileDo cond [.missing]], .expr array]

theorem fillRequests_labels_distinct :
    let t : Target := ⟨.array, 800, ⟨0, 8⟩, ⟨8, 8⟩, "@free_ptr"⟩
    let answers := session t {} fillRequests
    (∀ request ∈ fillRequests, NoScratch request.names) ∧
    answers.map (fun answer => (answer.1.toBool, answer.2.loops)) =
      [(true, 2), (false, 3), (true, 4)] ∧
    ((returned answers).flatMap labels).Nodup ∧
    ∀ code ∈ returned answers, WellBranched [] code := by
  intro t answers
  have hnames : ∀ request ∈ fillRequests, NoScratch request.names := by
    simp [fillRequests, Request.names, Stmt.listNames, Stmt.names, Expr.names, NoScratch, arraySlot,
      cursorSlot]
  obtain ⟨hdistinct, hbranches, -⟩ := session_labels_distinct t {} fillRequests hnames
  exact ⟨hnames, rfl, hdistinct, hbranches⟩

end ArrayLang.Emit
