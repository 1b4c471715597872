import ArrayLang.Proofs.NormalForm.Shape
import ArrayLang.Proofs.Typing.Checked
import Mathlib.Data.List.Forall2
import Mathlib.Order.Nat

/-!
# Normal forms

What normalisation returns is in normal form and well typed, with the temporaries as further
variables.  The temporaries that a piece of a program uses have numbers from a range of its own, and
an expression needs statements in front of it exactly if it is not in normal form itself.
-/

namespace ArrayLang.NormalForm

open Source Typing List

/-! ## Names of temporaries -/

theorem tempName_eq (n : Nat) : tempName n = "@tmp" ++ toString n := rfl

theorem tempName_inj {m n : Nat} (h : tempName m = tempName n) : m = n := by
  rw [tempName_eq, tempName_eq, ← String.toList_inj, String.toList_append,
    String.toList_append, List.append_cancel_left_eq] at h
  have hdigits : Nat.toDigits 10 m = Nat.toDigits 10 n := by simpa using h
  have hvalue := congrArg (Nat.ofDigitChars 10 · 0) hdigits
  simpa using hvalue

theorem toList_tempName (n : Nat) :
    (tempName n).toList = '@' :: 't' :: 'm' :: 'p' :: (toString n).toList := by
  rw [tempName_eq, String.toList_append]
  rfl

theorem isVariableName_tempName (n : Nat) : isVariableName (tempName n) = false := by
  rw [isVariableName, toList_tempName]
  rfl

/-- A name is that of a temporary. -/
def IsTemp (x : String) : Prop := ∃ n, x = tempName n

/-- A name is that of a temporary made on the way from `T` to `T'`. -/
def Between (T T' : Temps) (x : String) : Prop :=
  ∃ n, T.next ≤ n ∧ n < T'.next ∧ x = tempName n

section

variable {T T₁ T' : Temps} {x : String}

theorem Between.isTemp (h : Between T T' x) : IsTemp x := by
  obtain ⟨n, -, -, rfl⟩ := h
  exact ⟨n, rfl⟩

theorem Between.mono {U U' : Temps} (hle : U.next ≤ T.next) (hle' : T'.next ≤ U'.next)
    (h : Between T T' x) : Between U U' x := by
  obtain ⟨n, hn, hn', rfl⟩ := h
  exact ⟨n, hle.trans hn, hn'.trans_le hle', rfl⟩

/-- Ranges that follow each other have no name in common. -/
theorem Between.disjoint {U U' : Temps} (hle : T'.next ≤ U.next) (h : Between T T' x)
    (h' : Between U U' x) : False := by
  obtain ⟨m, -, hm, rfl⟩ := h
  obtain ⟨n, hn, -, heq⟩ := h'
  rw [tempName_inj heq] at hm
  omega

end

variable {T T₁ T₂ T' : Temps} {es xs xs' : List Expr} {first moves : List Stmt}

theorem Fresh.next_lt {ty : Ty} {temp : Binding} (h : Fresh T ty temp T') : T.next < T'.next := by
  cases h with
  | intro hle => exact Nat.lt_succ_of_le hle

theorem Fresh.between {ty : Ty} {temp : Binding} (h : Fresh T ty temp T') :
    Between T T' temp.name := by
  cases h with
  | intro hle => exact ⟨_, hle, Nat.lt_succ_self _, rfl⟩

theorem Moves.next_le (h : Moves T xs moves xs' T') : T.next ≤ T'.next := by
  induction h with
  | nil => exact Nat.le_refl _
  | keep _ _ ih => exact ih
  | move _ hfresh _ ih => exact hfresh.next_lt.le.trans ih

theorem Prepares.next_le (h : Prepares T es first xs T') : T.next ≤ T'.next := by
  induction h with
  | nil | atom => exact Nat.le_refl _
  | node _ _ ih => exact ih
  | arrayNode _ _ hmoves ih => exact ih.trans hmoves.next_le
  | logic _ _ _ ihl ihr => exact ihl.trans ihr
  | logicMoved _ _ _ _ hfresh ihl ihr => exact (ihl.trans ihr).trans hfresh.next_lt.le
  | snoc _ _ ih ih' => exact ih.trans ih'
  | snocMoved _ _ _ hmoves ih ih' => exact (ih.trans ih').trans hmoves.next_le

/-! ## Names of operands -/

theorem SameNode.names {array : Bool} {e e' : Expr} (h : SameNode array e es e' xs) :
    e.names = Expr.listNames es ∧ e'.names = Expr.listNames xs := by
  cases h <;> simp [Expr.names, Expr.listNames]

theorem Moves.names (h : Moves T xs moves xs' T') :
    ∀ x ∈ Expr.listNames xs', x ∈ Expr.listNames xs ∨ Between T T' x := by
  induction h with
  | nil => exact fun _ hx => Or.inl hx
  | keep _ _ ih =>
      intro x hx
      rw [Expr.listNames, mem_append] at hx ⊢
      rcases hx with hx | hx
      · exact Or.inl (Or.inl hx)
      · exact (ih x hx).imp_left Or.inr
  | move _ hfresh hrest ih =>
      intro x hx
      rw [Expr.listNames, mem_append] at hx ⊢
      rcases hx with hx | hx
      · rw [use, Expr.names, mem_singleton] at hx
        exact Or.inr (hx ▸ hfresh.between.mono (Nat.le_refl _) hrest.next_le)
      · rcases ih x hx with hx | hx
        · exact Or.inl (Or.inr hx)
        · exact Or.inr (hx.mono hfresh.next_lt.le (Nat.le_refl _))

/-- The operands use the variables of the source and temporaries that were made for them. -/
theorem Prepares.names (h : Prepares T es first xs T') :
    ∀ x ∈ Expr.listNames xs, x ∈ Expr.listNames es ∨ Between T T' x := by
  induction h with
  | nil | atom => exact fun _ hx => Or.inl hx
  | node hnode _ ih =>
      obtain ⟨he, he'⟩ := hnode.names
      intro x hx
      rw [Expr.listNames, Expr.listNames, append_nil] at hx ⊢
      rw [he]
      exact ih x (he' ▸ hx)
  | arrayNode hnode hprep hmoves ih =>
      obtain ⟨he, he'⟩ := hnode.names
      intro x hx
      rw [Expr.listNames, Expr.listNames, append_nil] at hx ⊢
      rw [he]
      rcases hmoves.names x (he' ▸ hx) with hx | hx
      · exact (ih x hx).imp_right (Between.mono (Nat.le_refl _) hmoves.next_le)
      · exact Or.inr (hx.mono hprep.next_le (Nat.le_refl _))
  | logic _ hl hr ihl ihr =>
      intro x hx
      simp only [Expr.listNames, Expr.names, append_nil, mem_append] at hx ihl ihr ⊢
      rcases hx with hx | hx
      · rcases ihl x hx with hx | hx
        · exact Or.inl (Or.inl hx)
        · exact Or.inr (hx.mono (Nat.le_refl _) hr.next_le)
      · rcases ihr x hx with hx | hx
        · exact Or.inl (Or.inr hx)
        · exact Or.inr (hx.mono hl.next_le (Nat.le_refl _))
  | logicMoved _ hl hr _ hfresh =>
      intro x hx
      rw [Expr.listNames, Expr.listNames, append_nil, use, Expr.names, mem_singleton] at hx
      exact Or.inr (hx ▸ hfresh.between.mono (hl.next_le.trans hr.next_le) (Nat.le_refl _))
  | snoc hprep hx ih ih' =>
      intro x hmem
      rw [append_of_eq_flatMap Expr.listNames_eq, mem_append] at hmem ⊢
      rcases hmem with hmem | hmem
      · rcases ih x hmem with hmem | hmem
        · exact Or.inl (Or.inl hmem)
        · exact Or.inr (hmem.mono (Nat.le_refl _) hx.next_le)
      · rcases ih' x hmem with hmem | hmem
        · exact Or.inl (Or.inr hmem)
        · exact Or.inr (hmem.mono hprep.next_le (Nat.le_refl _))
  | snocMoved hprep hx _ hmoves ih ih' =>
      intro x hmem
      rw [append_of_eq_flatMap Expr.listNames_eq, mem_append] at hmem ⊢
      rcases hmem with hmem | hmem
      · rcases hmoves.names x hmem with hmem | hmem
        · rcases ih x hmem with hmem | hmem
          · exact Or.inl (Or.inl hmem)
          · exact Or.inr (hmem.mono (Nat.le_refl _) (hx.next_le.trans hmoves.next_le))
        · exact Or.inr (hmem.mono (hprep.next_le.trans hx.next_le) (Nat.le_refl _))
      · rcases ih' x hmem with hmem | hmem
        · exact Or.inl (Or.inr hmem)
        · exact Or.inr (hmem.mono hprep.next_le hmoves.next_le)

/-! ## Outputs are in normal form -/

theorem SameNode.normal {e e' : Expr} (h : SameNode false e es e' xs) :
    (e.isNormal = true ↔ Expr.listNormal es = true) ∧
      (e'.isNormal = true ↔ Expr.listNormal xs = true) := by
  cases h <;> simp [Expr.isNormal, Expr.listNormal]

theorem SameNode.normal_array {e e' : Expr} (h : SameNode true e es e' xs) :
    (e.isNormal = true ↔ es.all Expr.isAtomic = true) ∧
      (e'.isNormal = true ↔ xs.all Expr.isAtomic = true) := by
  cases h <;> simp [Expr.isNormal]

theorem listNormal_of_atomic (h : xs.all Expr.isAtomic = true) : Expr.listNormal xs = true := by
  rw [Expr.listNormal_iff]
  rw [all_eq_true] at h
  exact fun e he => Expr.isNormal_of_isAtomic (h e he)

theorem Moves.normal (h : Moves T xs moves xs' T') (hxs : Expr.listNormal xs = true) :
    Stmt.listNormal moves = true := by
  induction h with
  | nil => rfl
  | keep _ _ ih =>
      rw [Expr.listNormal, Bool.and_eq_true] at hxs
      exact ih hxs.2
  | move _ _ _ ih =>
      rw [Expr.listNormal, Bool.and_eq_true] at hxs
      rw [Stmt.listNormal, Stmt.isNormal, hxs.1, ih hxs.2]
      rfl

theorem Prepares.normal (h : Prepares T es first xs T') :
    Stmt.listNormal first = true ∧ Expr.listNormal xs = true := by
  induction h with
  | nil => exact ⟨rfl, rfl⟩
  | atom he => exact ⟨rfl, by simp [Expr.listNormal, Expr.isNormal_of_isAtomic he]⟩
  | node hnode _ ih =>
      refine ⟨ih.1, ?_⟩
      rw [Expr.listNormal, hnode.normal.2.mpr ih.2]
      rfl
  | arrayNode hnode _ hmoves ih =>
      refine ⟨Stmt.listNormal_append.mpr ⟨ih.1, hmoves.normal ih.2⟩, ?_⟩
      rw [Expr.listNormal, hnode.normal_array.2.mpr hmoves.atomic]
      rfl
  | logic _ _ _ ihl ihr =>
      simp only [Expr.listNormal, Expr.isNormal, Bool.and_true, Bool.and_eq_true] at ihl ihr ⊢
      exact ⟨ihl.1, ihl.2, ihr.2⟩
  | @logicMoved _ _ _ _ _ op _ _ _ _ _ _ _ _ _ _ _ _ ihl ihr =>
      refine ⟨Stmt.listNormal_append.mpr ⟨ihl.1, ?_⟩, rfl⟩
      simp only [Expr.listNormal, Bool.and_true] at ihl ihr
      rw [choose]
      split <;>
        simp [Stmt.listNormal, Stmt.isNormal, Stmt.listNormal_append, use, Expr.isNormal, ihl, ihr]
  | snoc _ _ ih ih' =>
      refine ⟨ih.1, ?_⟩
      rw [Expr.listNormal_iff] at ih ih' ⊢
      exact forall_mem_append.mpr ⟨ih.2, ih'.2⟩
  | snocMoved _ _ _ hmoves ih ih' =>
      have hatomic := listNormal_of_atomic hmoves.atomic
      refine ⟨?_, ?_⟩
      · have hmoved := Stmt.listNormal_append.mpr ⟨ih.1, hmoves.normal ih.2⟩
        exact Stmt.listNormal_append.mpr ⟨hmoved, ih'.1⟩
      · rw [Expr.listNormal_iff] at hatomic ih' ⊢
        exact forall_mem_append.mpr ⟨hatomic, ih'.2⟩

/-! ## Kinds of statements -/

theorem Moves.every {p : Stmt → Bool} (h : Moves T xs moves xs' T')
    (hassign : ∀ name value, p (.assign name value) = true) : Stmt.listEvery p moves = true := by
  induction h with
  | nil => rfl
  | keep _ _ ih => exact ih
  | move _ _ _ ih => simp [Stmt.listEvery, Stmt.every, hassign, ih]

/-- All statements in front of operands are assignments and conditionals. -/
theorem Prepares.every {p : Stmt → Bool} (h : Prepares T es first xs T')
    (hassign : ∀ name value, p (.assign name value) = true)
    (hif : ∀ cond thenBody elseBody, p (.ifElse cond thenBody elseBody) = true) :
    Stmt.listEvery p first = true := by
  induction h with
  | nil | atom => rfl
  | node _ _ ih | snoc _ _ ih _ => exact ih
  | logic _ _ _ ihl _ => exact ihl
  | arrayNode _ _ hmoves ih => exact Stmt.listEvery_append.mpr ⟨ih, hmoves.every hassign⟩
  | logicMoved _ _ _ _ _ ihl ihr =>
      refine Stmt.listEvery_append.mpr ⟨ihl, ?_⟩
      rw [choose]
      split <;> simp [Stmt.listEvery, Stmt.every, Stmt.listEvery_append, hassign, hif, ihr]
  | snocMoved _ _ _ hmoves ih ih' =>
      have hmoved := Stmt.listEvery_append.mpr ⟨ih, hmoves.every hassign⟩
      exact Stmt.listEvery_append.mpr ⟨hmoved, ih'⟩

/-! ## Lengths of lists -/

theorem Moves.length_eq (h : Moves T xs moves xs' T') : xs'.length = xs.length := by
  induction h with
  | nil => rfl
  | keep _ _ ih | move _ _ _ ih => exact congrArg Nat.succ ih

theorem Prepares.length_eq (h : Prepares T es first xs T') : xs.length = es.length := by
  induction h with
  | nil | atom | node | arrayNode | logic | logicMoved => rfl
  | snoc _ _ ih _ => simp [ih]
  | snocMoved _ _ _ hmoves ih _ => simp [hmoves.length_eq, ih]

theorem SameNode.countable {array : Bool} {e e' : Expr} (h : SameNode array e es e' xs)
    (hlength : xs.length = es.length) (he : Countable e.lengths) :
    Countable (Expr.listLengths es) ∧ (Countable (Expr.listLengths xs) → Countable e'.lengths) := by
  cases h with
  | unary | binary | arrayFill | index =>
      simpa [Expr.lengths, Expr.listLengths, countable_append] using he
  | call => exact ⟨he, fun h => h⟩
  | arrayLit =>
      rw [Expr.lengths, countable_cons] at he
      refine ⟨he.2, fun hxs => ?_⟩
      rw [Expr.lengths, countable_cons, hlength]
      exact ⟨he.1, hxs⟩

theorem Moves.countable (h : Moves T xs moves xs' T') (hxs : Countable (Expr.listLengths xs)) :
    Countable (Stmt.listLengths moves) ∧ Countable (Expr.listLengths xs') := by
  induction h with
  | nil => exact ⟨hxs, hxs⟩
  | keep _ _ ih =>
      simp only [Expr.listLengths, countable_append] at hxs ⊢
      exact ⟨(ih hxs.2).1, hxs.1, (ih hxs.2).2⟩
  | move _ _ _ ih =>
      simp only [Expr.listLengths, Stmt.listLengths, Stmt.lengths, countable_append] at hxs ⊢
      exact ⟨⟨hxs.1, (ih hxs.2).1⟩, countable_nil, (ih hxs.2).2⟩

theorem choose_countable {op : BinaryOp} {temp : Binding} {rest : List Stmt} :
    Countable (choose op temp rest).lengths ↔ Countable (Stmt.listLengths rest) := by
  rw [choose]
  split <;> simp [Stmt.lengths, use, Expr.lengths, Stmt.listLengths]

theorem Prepares.countable (h : Prepares T es first xs T') (hes : Countable (Expr.listLengths es)) :
    Countable (Stmt.listLengths first) ∧ Countable (Expr.listLengths xs) := by
  induction h with
  | nil | atom => exact ⟨countable_nil, hes⟩
  | node hnode hprep ih =>
      simp only [Expr.listLengths, List.append_nil] at hes ⊢
      obtain ⟨hes', hnode'⟩ := hnode.countable hprep.length_eq hes
      exact ⟨(ih hes').1, hnode' (ih hes').2⟩
  | arrayNode hnode hprep hmoves ih =>
      simp only [Expr.listLengths, List.append_nil, append_of_eq_flatMap Stmt.listLengths_eq,
        countable_append] at hes ⊢
      obtain ⟨hes', hnode'⟩ := hnode.countable (hmoves.length_eq.trans hprep.length_eq) hes
      obtain ⟨hfirst, hxs⟩ := ih hes'
      exact ⟨⟨hfirst, (hmoves.countable hxs).1⟩, hnode' (hmoves.countable hxs).2⟩
  | logic _ _ _ ihl ihr =>
      simp only [Expr.listLengths, Expr.lengths, List.append_nil, countable_append] at *
      exact ⟨(ihl hes.1).1, (ihl hes.1).2, (ihr hes.2).2⟩
  | logicMoved _ _ _ _ _ ihl ihr =>
      simp only [Expr.listLengths, Expr.lengths, List.append_nil, countable_append] at hes ihl ihr
      obtain ⟨hfirst, hl⟩ := ihl hes.1
      obtain ⟨hown, hr⟩ := ihr hes.2
      refine ⟨?_, countable_nil⟩
      simp [append_of_eq_flatMap Stmt.listLengths_eq, Stmt.listLengths, Stmt.lengths,
        countable_append, choose_countable, hfirst, hl, hown, hr]
  | snoc _ _ ih ih' =>
      simp only [append_of_eq_flatMap Expr.listLengths_eq, countable_append] at hes ⊢
      exact ⟨(ih hes.1).1, (ih hes.1).2, (ih' hes.2).2⟩
  | snocMoved _ _ _ hmoves ih ih' =>
      simp only [append_of_eq_flatMap Expr.listLengths_eq,
        append_of_eq_flatMap Stmt.listLengths_eq, countable_append] at hes ⊢
      obtain ⟨hfirst, hxs⟩ := ih hes.1
      obtain ⟨hown, hx⟩ := ih' hes.2
      obtain ⟨hmoved, hxs'⟩ := hmoves.countable hxs
      exact ⟨⟨⟨hfirst, hmoved⟩, hown⟩, hxs', hx⟩

/-! ## When statements are needed -/

theorem SameNode.eq {array : Bool} {e e' : Expr} (h : SameNode array e es e' es) : e' = e := by
  cases h <;> rfl

theorem Moves.eq_nil_iff (h : Moves T xs moves xs' T') :
    (moves = [] ↔ xs.all Expr.isAtomic = true) ∧ (moves = [] → xs' = xs ∧ T' = T) := by
  induction h with
  | nil => simp
  | keep hx _ ih =>
      refine ⟨?_, fun hnil => ?_⟩
      · rw [ih.1, all_cons, hx, Bool.true_and]
      · obtain ⟨rfl, rfl⟩ := ih.2 hnil
        exact ⟨rfl, rfl⟩
  | move hx _ _ _ => simp [hx]

/-- Exactly the operands in normal form need no statements, and they stay as they are. -/
theorem Prepares.eq_nil_iff (h : Prepares T es first xs T') :
    (first = [] ↔ Expr.listNormal es = true) ∧ (first = [] → xs = es ∧ T' = T) := by
  induction h with
  | nil => simp [Expr.listNormal]
  | atom he => simp [Expr.listNormal, Expr.isNormal_of_isAtomic he]
  | node hnode _ ih =>
      refine ⟨?_, fun hnil => ?_⟩
      · rw [ih.1, Expr.listNormal, Expr.listNormal, Bool.and_true, hnode.normal.1]
      · obtain ⟨rfl, rfl⟩ := ih.2 hnil
        rw [hnode.eq]
        exact ⟨rfl, rfl⟩
  | arrayNode hnode _ hmoves ih =>
      obtain ⟨hmoves, hmoves'⟩ := hmoves.eq_nil_iff
      refine ⟨?_, fun hnil => ?_⟩
      · rw [Expr.listNormal, Expr.listNormal, Bool.and_true, hnode.normal_array.1,
          append_eq_nil_iff]
        constructor
        · rintro ⟨hfirst, hnil⟩
          rw [← (ih.2 hfirst).1]
          exact hmoves.mp hnil
        · intro hatomic
          have hfirst := ih.1.mpr (listNormal_of_atomic hatomic)
          exact ⟨hfirst, hmoves.mpr ((ih.2 hfirst).1 ▸ hatomic)⟩
      · obtain ⟨hfirst, hnil⟩ := append_eq_nil_iff.mp hnil
        obtain ⟨rfl, rfl⟩ := ih.2 hfirst
        obtain ⟨rfl, rfl⟩ := hmoves' hnil
        rw [hnode.eq]
        exact ⟨rfl, rfl⟩
  | logic _ _ _ ihl ihr =>
      simp only [Expr.listNormal, Expr.isNormal, Bool.and_true, true_iff, forall_const] at ihl ihr ⊢
      refine ⟨?_, fun hnil => ?_⟩
      · rw [ihl.1, ihr.1, Bool.and_true]
      · obtain ⟨hl, rfl⟩ := ihl.2 hnil
        obtain ⟨hr, rfl⟩ := ihr.2
        rw [(cons.inj hl).1, (cons.inj hr).1]
        exact ⟨rfl, rfl⟩
  | logicMoved _ _ _ hown _ _ ihr =>
      simp only [Expr.listNormal, Expr.isNormal, Bool.and_true] at ihr ⊢
      have hright := mt ihr.1.mpr hown
      simp [hright]
  | snoc _ _ ih ih' =>
      have hlast := ih'.1.mp rfl
      rw [Expr.listNormal_iff] at ih hlast
      refine ⟨?_, fun hnil => ?_⟩
      · rw [ih.1, Expr.listNormal_iff, forall_mem_append]
        exact ⟨fun h => ⟨h, hlast⟩, And.left⟩
      · obtain ⟨rfl, rfl⟩ := ih.2 hnil
        obtain ⟨hx, rfl⟩ := ih'.2 rfl
        exact ⟨by rw [hx], rfl⟩
  | snocMoved _ _ hown _ _ ih' =>
      have hlast := mt ih'.1.mpr hown
      rw [Expr.listNormal_iff] at hlast
      refine ⟨?_, fun hnil => absurd hnil (by simp [hown])⟩
      rw [Expr.listNormal_iff, forall_mem_append]
      exact ⟨fun hnil => absurd hnil (by simp [hown]), fun h => absurd h.2 hlast⟩

/-- An expression that needs no statements stays as it is. -/
theorem Prepares.eq_of_nil {e x : Expr} (h : Prepares T [e] [] [x] T') : x = e :=
  singleton_inj.mp (h.eq_nil_iff.2 rfl).1

/-- An expression that needs statements is not in normal form. -/
theorem Prepares.not_isNormal {e x : Expr} (h : Prepares T [e] first [x] T') (hne : first ≠ []) :
    e.isNormal = false := by
  have hnormal := mt h.eq_nil_iff.1.mpr hne
  simpa [Expr.listNormal] using hnormal

/-! ## Outputs are well typed -/

section

variable {tier : Tier} {vars : Env} {tys : List Ty}

/-- The temporaries made so far have smaller numbers than the next one. -/
def Temps.Ordered (T : Temps) : Prop := ∀ b ∈ T.made, ∃ n < T.next, b.name = tempName n

theorem Temps.ordered_empty : Temps.Ordered {} := by
  intro b hb
  simp at hb

/-- The variables of the source and the temporaries. -/
abbrev Temps.env (T : Temps) (vars : Env) : Env := vars ++ T.made

theorem find?_eq_none {env : Env} {name : String} (h : ∀ b ∈ env, b.name ≠ name) :
    env.find? name = none := by
  induction env with
  | nil => rfl
  | cons b rest ih =>
      obtain ⟨hb, hrest⟩ := forall_mem_cons.mp h
      rw [Env.find?, if_neg hb]
      exact ih hrest

theorem Fresh.ordered {ty : Ty} {temp : Binding} (h : Fresh T ty temp T') (hT : T.Ordered) :
    T'.Ordered := by
  cases h with
  | intro hle =>
      intro b hb
      rcases mem_append.mp hb with hb | hb
      · obtain ⟨n, hn, hname⟩ := hT b hb
        exact ⟨n, hn.trans (Nat.lt_succ_of_le hle), hname⟩
      · rw [mem_singleton.mp hb]
        exact ⟨_, Nat.lt_succ_self _, rfl⟩

theorem Fresh.extends {ty : Ty} {temp : Binding} (h : Fresh T ty temp T') :
    Extends (T.env vars) (T'.env vars) := by
  cases h with
  | intro =>
      rw [Temps.env, Temps.env, ← append_assoc]
      exact extends_append _ _

/-- A variable of the source is no temporary. -/
theorem not_isTemp_of_find? {name : String} {ty : Ty} (hvars : EnvOk vars)
    (h : vars.find? name = some ty) : ¬IsTemp name := by
  rintro ⟨n, rfl⟩
  have hname := hvars.name _ _ h
  rw [isVariableName_tempName] at hname
  exact absurd hname (by simp)

theorem not_isTemp_of_mem_names (hvars : EnvOk vars)
    (htyped : Forall₂ (HasType tier vars) es tys) :
    ∀ x ∈ Expr.listNames es, ¬IsTemp x := by
  induction htyped with
  | nil => simp [Expr.listNames]
  | cons he _ ih =>
      intro x hx
      rcases mem_append.mp hx with hx | hx
      · obtain ⟨ty, hfind⟩ := find?_of_mem_names he x hx
        exact not_isTemp_of_find? hvars hfind
      · exact ih x hx

theorem Fresh.find? {ty : Ty} {temp : Binding} (h : Fresh T ty temp T') (hvars : EnvOk vars)
    (hT : T.Ordered) : (T'.env vars).find? temp.name = some ty := by
  cases h with
  | @intro n hle =>
      have hsource : Env.find? vars (tempName n) = none := by
        cases hfind : Env.find? vars (tempName n) with
        | none => rfl
        | some ty => exact absurd ⟨n, rfl⟩ (not_isTemp_of_find? hvars hfind)
      have hmade : Env.find? T.made (tempName n) = none := by
        refine find?_eq_none fun b hb heq => ?_
        obtain ⟨m, hm, hname⟩ := hT b hb
        rw [hname] at heq
        rw [tempName_inj heq] at hm
        exact absurd hle (Nat.not_le_of_lt hm)
      rw [Temps.env, Typing.find?_append, Typing.find?_append, hsource, hmade, Option.none_or,
        Option.none_or, Env.find?, if_pos rfl]

theorem Fresh.use_typed {temp : Binding} {ty : Ty} (h : Fresh T ty temp T') (hvars : EnvOk vars)
    (hT : T.Ordered) (hloop : tier.admits .loop = true) (hty : IsValue ty) :
    HasType tier (T'.env vars) (use temp) ty := by
  have hfind := h.find? hvars hT
  cases h with
  | intro => exact .var hloop hfind hty

theorem Moves.ordered (h : Moves T xs moves xs' T') (hT : T.Ordered) : T'.Ordered := by
  induction h with
  | nil => exact hT
  | keep _ _ ih => exact ih hT
  | move _ hfresh _ ih => exact ih (hfresh.ordered hT)

theorem Moves.extends (h : Moves T xs moves xs' T') : Extends (T.env vars) (T'.env vars) := by
  induction h with
  | nil => exact Extends.refl _
  | keep _ _ ih => exact ih
  | move _ hfresh _ ih => exact hfresh.extends.trans ih

theorem Prepares.ordered (h : Prepares T es first xs T') (hT : T.Ordered) : T'.Ordered := by
  induction h with
  | nil | atom => exact hT
  | node _ _ ih => exact ih hT
  | arrayNode _ _ hmoves ih => exact hmoves.ordered (ih hT)
  | logic _ _ _ ihl ihr => exact ihr (ihl hT)
  | logicMoved _ _ _ _ hfresh ihl ihr => exact hfresh.ordered (ihr (ihl hT))
  | snoc _ _ ih ih' => exact ih' (ih hT)
  | snocMoved _ _ _ hmoves ih ih' => exact hmoves.ordered (ih' (ih hT))

theorem Prepares.extends (h : Prepares T es first xs T') :
    Extends (T.env vars) (T'.env vars) := by
  induction h with
  | nil | atom => exact Extends.refl _
  | node _ _ ih => exact ih
  | arrayNode _ _ hmoves ih => exact ih.trans hmoves.extends
  | logic _ _ _ ihl ihr => exact ihl.trans ihr
  | logicMoved _ _ _ _ hfresh ihl ihr => exact (ihl.trans ihr).trans hfresh.extends
  | snoc _ _ ih ih' => exact ih.trans ih'
  | snocMoved _ _ _ hmoves ih ih' => exact (ih.trans ih').trans hmoves.extends

theorem forall₂_pair {α β : Type} {R : α → β → Prop} {a b : α} {c d : β} :
    Forall₂ R [a, b] [c, d] ↔ R a c ∧ R b d := by
  simp

theorem forall₂_replicate {α β : Type} {R : α → β → Prop} {l : List α} {n : Nat} {b : β} :
    Forall₂ R l (replicate n b) ↔ l.length = n ∧ ∀ a ∈ l, R a b := by
  induction l generalizing n with
  | nil => cases n <;> simp [replicate_succ]
  | cons a rest ih =>
      cases n with
      | zero => simp
      | succ n =>
          rw [replicate_succ, forall₂_cons, ih, length_cons, forall_mem_cons, Nat.succ_inj]
          exact and_left_comm

theorem exists_of_forall₂_concat {α β : Type} {R : α → β → Prop} {l : List α} {a : α} {m : List β}
    (h : Forall₂ R (l ++ [a]) m) : ∃ m' b, m = m' ++ [b] ∧ Forall₂ R l m' ∧ R a b := by
  induction l generalizing m with
  | nil =>
      obtain ⟨b, m', hab, hnil, rfl⟩ := forall₂_cons_left_iff.mp h
      cases hnil
      exact ⟨[], b, rfl, .nil, hab⟩
  | cons c rest ih =>
      obtain ⟨d, m', hcd, hrest, rfl⟩ := forall₂_cons_left_iff.mp h
      obtain ⟨m'', b, rfl, hm, hab⟩ := ih hrest
      exact ⟨d :: m'', b, rfl, .cons hcd hm, hab⟩

theorem map_ty_eq {env : Env} (h : Forall₂ (HasType tier env) es tys) : es.map Expr.ty = tys := by
  induction h with
  | nil => rfl
  | cons he _ ih => rw [map_cons, he.ty_eq, ih]

/-- Operands have types, and the operation has the same type on other operands of these types. -/
theorem SameNode.typed {array : Bool} {e e' : Expr} {env : Env} {ty : Ty}
    (h : SameNode array e es e' xs) (hty : HasType tier env e ty) :
    ∃ tys, Forall₂ (HasType tier env) es tys ∧ (∀ ty ∈ tys, IsValue ty) ∧
      ∀ env', Forall₂ (HasType tier env') xs tys → HasType tier env' e' ty := by
  -- In each case the types of the operands are read off the typing rule.
  have hpair {ty₁ ty₂ : Ty} (h₁ : IsValue ty₁) (h₂ : IsValue ty₂) : ∀ ty ∈ [ty₁, ty₂], IsValue ty := by
    simpa using ⟨h₁, h₂⟩
  cases h with
  | unary =>
      cases hty with
      | neg hx =>
          refine ⟨[.int], .cons hx .nil, by simpa using .int, ?_⟩
          rintro env' (_ | ⟨hx', -⟩)
          exact .neg hx'
      | not hx =>
          refine ⟨[.bool], .cons hx .nil, by simpa using .bool, ?_⟩
          rintro env' (_ | ⟨hx', -⟩)
          exact .not hx'
  | binary hand hor =>
      cases hty with
      | arith hop hl hr =>
          refine ⟨[.int, .int], forall₂_pair.mpr ⟨hl, hr⟩, hpair .int .int, fun env' h => ?_⟩
          exact .arith hop (forall₂_pair.mp h).1 (forall₂_pair.mp h).2
      | order hop hl hr =>
          refine ⟨[.int, .int], forall₂_pair.mpr ⟨hl, hr⟩, hpair .int .int, fun env' h => ?_⟩
          exact .order hop (forall₂_pair.mp h).1 (forall₂_pair.mp h).2
      | @equality _ ty _ _ hop hmem hl hr =>
          have hvalue : IsValue ty := by
            rcases mem_pair.mp hmem with rfl | rfl
            · exact .int
            · exact .bool
          refine ⟨[ty, ty], forall₂_pair.mpr ⟨hl, hr⟩, hpair hvalue hvalue, fun env' h => ?_⟩
          exact .equality hop hmem (forall₂_pair.mp h).1 (forall₂_pair.mp h).2
      | logic hop => exact absurd hop (by simp [hand, hor])
      | @identity elem elem' _ _ hl hr =>
          refine ⟨[.array elem, .array elem'], forall₂_pair.mpr ⟨hl, hr⟩,
            hpair (.array hl.elem_isValue) (.array hr.elem_isValue), fun env' h => ?_⟩
          exact .identity (forall₂_pair.mp h).1 (forall₂_pair.mp h).2
  | call =>
      cases hty with
      | @print x ty hx hvalue =>
          refine ⟨[ty], .cons hx .nil, by simpa using hvalue, ?_⟩
          rintro env' (_ | ⟨hx', _ | _⟩)
          exact .print hx' hvalue
      | input hloop =>
          refine ⟨[], .nil, by simp, ?_⟩
          rintro env' (_ | _)
          exact .input hloop
      | @len x elem harray hx =>
          refine ⟨[.array elem], .cons hx .nil, by simpa using .array hx.elem_isValue, ?_⟩
          rintro env' (_ | ⟨hx', _ | _⟩)
          exact .len harray hx'
  | arrayLit =>
      cases hty with
      | arrayLit harray helem hne helems =>
          refine ⟨replicate es.length _, forall₂_replicate.mpr ⟨rfl, helems⟩, ?_, ?_⟩
          · intro ty hmem
            rw [eq_of_mem_replicate hmem]
            exact helem
          · intro env' h
            obtain ⟨hlength, helems'⟩ := forall₂_replicate.mp h
            refine .arrayLit harray helem ?_ helems'
            rintro rfl
            exact hne (length_eq_zero_iff.mp hlength.symm)
  | arrayFill =>
      cases hty with
      | @arrayFill _ _ elem harray helem hn hv =>
          refine ⟨[.int, elem], forall₂_pair.mpr ⟨hn, hv⟩, hpair .int helem, fun env' h => ?_⟩
          exact .arrayFill harray helem (forall₂_pair.mp h).1 (forall₂_pair.mp h).2
  | index =>
      cases hty with
      | index harray ha hi =>
          refine ⟨[.array _, .int], forall₂_pair.mpr ⟨ha, hi⟩,
            hpair (.array ha.elem_isValue) .int, fun env' h => ?_⟩
          exact .index harray (forall₂_pair.mp h).1 (forall₂_pair.mp h).2

theorem Moves.typed (h : Moves T xs moves xs' T') (hvars : EnvOk vars) (hT : T.Ordered)
    (htyped : Forall₂ (HasType tier (T.env vars)) xs tys) (hvalue : ∀ ty ∈ tys, IsValue ty) :
    (∀ s ∈ moves, StmtTyped tier (T'.env vars) s) ∧
      Forall₂ (HasType tier (T'.env vars)) xs' tys := by
  induction h generalizing tys with
  | nil => exact ⟨by simp, by simpa using htyped⟩
  | keep _ hrest ih =>
      cases htyped with
      | cons hx htyped' =>
          obtain ⟨-, hvalue'⟩ := forall_mem_cons.mp hvalue
          obtain ⟨hmoves, hxs⟩ := ih hT htyped' hvalue'
          exact ⟨hmoves, .cons (hx.extend hrest.extends) hxs⟩
  | move _ hfresh hrest ih =>
      cases htyped with
      | cons hx htyped' =>
          obtain ⟨hty, hvalue'⟩ := forall_mem_cons.mp hvalue
          rw [hx.ty_eq] at hfresh
          have hext : Extends (Temps.env _ vars) (Temps.env _ vars) := hfresh.extends
          have htyped₁ := htyped'.imp fun _ _ he => he.extend hext
          obtain ⟨hmoves, hxs⟩ := ih (hfresh.ordered hT) htyped₁ hvalue'
          have huse := hfresh.use_typed hvars hT hx.admits_loop hty
          refine ⟨forall_mem_cons.mpr ⟨?_, hmoves⟩, .cons (huse.extend hrest.extends) hxs⟩
          exact .assign (hrest.extends _ _ (hfresh.find? hvars hT)) hty
            (hx.extend (hfresh.extends.trans hrest.extends))

theorem choose_typed {env : Env} {op : BinaryOp} {temp : Binding} {rest : List Stmt}
    (huse : HasType tier env (use temp) .bool) (hrest : ∀ s ∈ rest, StmtTyped tier env s) :
    StmtTyped tier env (choose op temp rest) := by
  rw [choose]
  split
  · exact .ifElse huse (by simp) hrest
  · exact .ifElse huse hrest (by simp)

/-- The operands keep their types, and the statements are well typed.  Only the last operand may be
one without a value. -/
theorem Prepares.typed (h : Prepares T es first xs T') (hvars : EnvOk vars) (hT : T.Ordered)
    (htyped : Forall₂ (HasType tier vars) es tys) (hvalue : ∀ ty ∈ tys.dropLast, IsValue ty) :
    (∀ s ∈ first, StmtTyped tier (T'.env vars) s) ∧
      Forall₂ (HasType tier (T'.env vars)) xs tys := by
  induction h generalizing tys with
  | nil => exact ⟨by simp, by simpa using htyped⟩
  | atom he =>
      exact ⟨by simp, htyped.imp fun _ _ he => he.extend (extends_append _ _)⟩
  | node hnode _ ih =>
      cases htyped with
      | cons he hnil =>
          cases hnil
          obtain ⟨tys, hes, hvalues, hnode⟩ := hnode.typed he
          obtain ⟨hfirst, hxs⟩ := ih hT hes fun ty hty => hvalues ty (dropLast_subset _ hty)
          exact ⟨hfirst, .cons (hnode _ hxs) .nil⟩
  | arrayNode hnode hprep hmoves ih =>
      cases htyped with
      | cons he hnil =>
          cases hnil
          obtain ⟨tys, hes, hvalues, hnode⟩ := hnode.typed he
          obtain ⟨hfirst, hxs⟩ := ih hT hes fun ty hty => hvalues ty (dropLast_subset _ hty)
          obtain ⟨hmoved, hxs'⟩ := hmoves.typed hvars (hprep.ordered hT) hxs hvalues
          refine ⟨forall_mem_append.mpr ⟨fun s hs => ?_, hmoved⟩, .cons (hnode _ hxs') .nil⟩
          exact (hfirst s hs).extend hmoves.extends
  | logic hop hl hr ihl ihr =>
      cases htyped with
      | cons he hnil =>
          cases hnil
          obtain ⟨rfl, rfl, hleft, hright⟩ := he.logic_inv hop
          obtain ⟨hfirst, hl'⟩ := ihl hT (.cons hleft .nil) (by simp)
          obtain ⟨-, hr'⟩ := ihr (hl.ordered hT) (.cons hright .nil) (by simp)
          refine ⟨fun s hs => (hfirst s hs).extend hr.extends, .cons ?_ .nil⟩
          exact .logic (by simpa using hop)
            ((forall₂_cons.mp hl').1.extend hr.extends) (forall₂_cons.mp hr').1
  | logicMoved hop hl hr _ hfresh ihl ihr =>
      cases htyped with
      | cons he hnil =>
          cases hnil
          obtain ⟨rfl, rfl, hleft, hright⟩ := he.logic_inv hop
          have hT₁ := hl.ordered hT
          have hT₂ := hr.ordered hT₁
          obtain ⟨hfirst, hl'⟩ := ihl hT (.cons hleft .nil) (by simp)
          obtain ⟨hown, hr'⟩ := ihr hT₁ (.cons hright .nil) (by simp)
          have huse := hfresh.use_typed hvars hT₂ hleft.admits_loop .bool
          have hassign {v : Expr} (hv : HasType tier _ v .bool) :=
            StmtTyped.assign (hfresh.find? hvars hT₂) .bool (hv.extend hfresh.extends)
          refine ⟨forall_mem_append.mpr ⟨fun s hs => ?_, ?_⟩, .cons huse .nil⟩
          · exact (hfirst s hs).extend (hr.extends.trans hfresh.extends)
          · refine forall_mem_cons.mpr ⟨?_, forall_mem_singleton.mpr (choose_typed huse ?_)⟩
            · exact hassign ((forall₂_cons.mp hl').1.extend hr.extends)
            · refine forall_mem_append.mpr ⟨fun s hs => ?_, ?_⟩
              · exact (hown s hs).extend hfresh.extends
              · exact forall_mem_singleton.mpr (hassign (forall₂_cons.mp hr').1)
  | snoc hprep hx ih ih' =>
      obtain ⟨tys, ty, rfl, hes, he⟩ := exists_of_forall₂_concat htyped
      rw [dropLast_concat] at hvalue
      obtain ⟨hfirst, hxs⟩ := ih hT hes fun ty hty => hvalue ty (dropLast_subset _ hty)
      obtain ⟨-, hx'⟩ := ih' (hprep.ordered hT) (.cons he .nil) (by simp)
      refine ⟨fun s hs => (hfirst s hs).extend hx.extends, ?_⟩
      exact rel_append (hxs.imp fun _ _ h => h.extend hx.extends) hx'
  | snocMoved hprep hx _ hmoves ih ih' =>
      obtain ⟨tys, ty, rfl, hes, he⟩ := exists_of_forall₂_concat htyped
      rw [dropLast_concat] at hvalue
      have hT₁ := hprep.ordered hT
      obtain ⟨hfirst, hxs⟩ := ih hT hes fun ty hty => hvalue ty (dropLast_subset _ hty)
      obtain ⟨hown, hx'⟩ := ih' hT₁ (.cons he .nil) (by simp)
      obtain ⟨hmoved, hxs'⟩ := hmoves.typed hvars (hx.ordered hT₁)
        (hxs.imp fun _ _ h => h.extend hx.extends) hvalue
      refine ⟨forall_mem_append.mpr ⟨forall_mem_append.mpr ⟨fun s hs => ?_, hmoved⟩, ?_⟩, ?_⟩
      · exact (hfirst s hs).extend (hx.extends.trans hmoves.extends)
      · exact fun s hs => (hown s hs).extend hmoves.extends
      · exact rel_append hxs' (hx'.imp fun _ _ h => h.extend hmoves.extends)

/-! ## Statements -/

variable {stmts out : List Stmt}

theorem Normalizes.ordered (h : Normalizes T stmts out T') (hT : T.Ordered) : T'.Ordered := by
  induction h with
  | nil => exact hT
  | expr hx _ ih => exact ih (hx.ordered hT)
  | assign hv _ ih => exact ih (hv.ordered hT)
  | indexAssign hai hmoves hv _ ih => exact ih (hv.ordered (hmoves.ordered (hai.ordered hT)))
  | ifElse hc _ _ _ ihthen ihelse ih => exact ih (ihelse (ihthen (hc.ordered hT)))
  | whileDo hc _ _ ihbody ih => exact ih (ihbody (hc.ordered hT))
  | whileMoved hc _ _ hfresh _ ihbody ih => exact ih (hfresh.ordered (ihbody (hc.ordered hT)))

theorem Normalizes.extends (h : Normalizes T stmts out T') :
    Extends (T.env vars) (T'.env vars) := by
  induction h with
  | nil => exact Extends.refl _
  | expr hx _ ih => exact hx.extends.trans ih
  | assign hv _ ih => exact hv.extends.trans ih
  | indexAssign hai hmoves hv _ ih =>
      exact ((hai.extends.trans hmoves.extends).trans hv.extends).trans ih
  | ifElse hc _ _ _ ihthen ihelse ih => exact ((hc.extends.trans ihthen).trans ihelse).trans ih
  | whileDo hc _ _ ihbody ih => exact (hc.extends.trans ihbody).trans ih
  | whileMoved hc _ _ hfresh _ ihbody ih =>
      exact ((hc.extends.trans ihbody).trans hfresh.extends).trans ih

/-- A program that is in normal form stays as it is and needs no temporaries. -/
theorem Normalizes.eq_of_normal (h : Normalizes T stmts out T')
    (hnormal : Stmt.listNormal stmts = true) : out = stmts ∧ T' = T := by
  have hsingle {T T' : Temps} {e x : Expr} {first : List Stmt} (h : Prepares T [e] first [x] T')
      (he : e.isNormal = true) : first = [] ∧ x = e ∧ T' = T := by
    obtain ⟨hnil, hsame⟩ := h.eq_nil_iff
    have hfirst := hnil.mpr (by simpa [Expr.listNormal] using he)
    exact ⟨hfirst, singleton_inj.mp (hsame hfirst).1, (hsame hfirst).2⟩
  induction h with
  | nil => exact ⟨rfl, rfl⟩
  | expr hx _ ih =>
      rw [Stmt.listNormal, Bool.and_eq_true] at hnormal
      obtain ⟨rfl, rfl, rfl⟩ := hsingle hx hnormal.1
      obtain ⟨rfl, rfl⟩ := ih hnormal.2
      exact ⟨rfl, rfl⟩
  | assign hv _ ih =>
      rw [Stmt.listNormal, Bool.and_eq_true] at hnormal
      obtain ⟨rfl, rfl, rfl⟩ := hsingle hv hnormal.1
      obtain ⟨rfl, rfl⟩ := ih hnormal.2
      exact ⟨rfl, rfl⟩
  | indexAssign hai hmoves hv _ ih =>
      simp only [Stmt.listNormal, Stmt.isNormal, Bool.and_eq_true] at hnormal
      obtain ⟨⟨⟨ha, hi⟩, hvalue⟩, hrest⟩ := hnormal
      obtain ⟨hnil, hsame⟩ := hai.eq_nil_iff
      have hfirst := hnil.mpr (listNormal_of_atomic (by simp [ha, hi]))
      obtain ⟨rfl, rfl⟩ := hsame hfirst
      obtain ⟨hnil, hsame⟩ := hmoves.eq_nil_iff
      have hmoved := hnil.mpr (by simp [ha, hi])
      obtain ⟨heq, rfl⟩ := hsame hmoved
      obtain ⟨rfl, rfl, rfl⟩ := hsingle hv hvalue
      obtain ⟨rfl, rfl⟩ := ih hrest
      simp only [cons.injEq] at heq
      obtain ⟨rfl, rfl, -⟩ := heq
      rw [hfirst, hmoved]
      exact ⟨rfl, rfl⟩
  | ifElse hc _ _ _ ihthen ihelse ih =>
      simp only [Stmt.listNormal, Stmt.isNormal, Bool.and_eq_true] at hnormal
      obtain ⟨⟨⟨hcond, hthen⟩, helse⟩, hrest⟩ := hnormal
      obtain ⟨rfl, rfl, rfl⟩ := hsingle hc hcond
      obtain ⟨rfl, rfl⟩ := ihthen hthen
      obtain ⟨rfl, rfl⟩ := ihelse helse
      obtain ⟨rfl, rfl⟩ := ih hrest
      exact ⟨rfl, rfl⟩
  | whileDo hc _ _ ihbody ih =>
      simp only [Stmt.listNormal, Stmt.isNormal, Bool.and_eq_true] at hnormal
      obtain ⟨⟨hcond, hbody⟩, hrest⟩ := hnormal
      obtain ⟨-, rfl, rfl⟩ := hsingle hc hcond
      obtain ⟨rfl, rfl⟩ := ihbody hbody
      obtain ⟨rfl, rfl⟩ := ih hrest
      exact ⟨rfl, rfl⟩
  | whileMoved hc hne =>
      simp only [Stmt.listNormal, Stmt.isNormal, Bool.and_eq_true] at hnormal
      exact absurd (hsingle hc hnormal.1.1).1 hne

/-- What normalisation returns is in normal form. -/
theorem Normalizes.normal (h : Normalizes T stmts out T') : Stmt.listNormal out = true := by
  have hsingle {x : Expr} : Expr.listNormal [x] = true ↔ x.isNormal = true := by
    simp [Expr.listNormal]
  induction h with
  | nil => rfl
  | expr hx _ ih =>
      refine Stmt.listNormal_append.mpr ⟨hx.normal.1, ?_⟩
      simp [Stmt.listNormal, Stmt.isNormal, hsingle.mp hx.normal.2, ih]
  | assign hv _ ih =>
      refine Stmt.listNormal_append.mpr ⟨hv.normal.1, ?_⟩
      simp [Stmt.listNormal, Stmt.isNormal, hsingle.mp hv.normal.2, ih]
  | indexAssign hai hmoves hv _ ih =>
      have hatomic := hmoves.atomic
      simp only [all_cons, all_nil, Bool.and_true, Bool.and_eq_true] at hatomic
      refine Stmt.listNormal_append.mpr ⟨Stmt.listNormal_append.mpr ⟨Stmt.listNormal_append.mpr
        ⟨hai.normal.1, hmoves.normal hai.normal.2⟩, hv.normal.1⟩, ?_⟩
      simp [Stmt.listNormal, Stmt.isNormal, hatomic, hsingle.mp hv.normal.2, ih]
  | ifElse hc _ _ _ ihthen ihelse ih =>
      refine Stmt.listNormal_append.mpr ⟨hc.normal.1, ?_⟩
      simp [Stmt.listNormal, Stmt.isNormal, hsingle.mp hc.normal.2, ihthen, ihelse, ih]
  | whileDo hc _ _ ihbody ih =>
      simp [Stmt.listNormal, Stmt.isNormal, hsingle.mp hc.normal.2, ihbody, ih]
  | @whileMoved _ _ _ _ _ c c' first _ _ _ _ temp hc _ _ _ _ ihbody ih =>
      have hassign : Stmt.listNormal [.assign temp.name c'] = true := by
        simp [Stmt.listNormal, Stmt.isNormal, hsingle.mp hc.normal.2]
      have htest := Stmt.listNormal_append.mpr ⟨hc.normal.1, hassign⟩
      refine Stmt.listNormal_append.mpr ⟨htest, ?_⟩
      have hbody := Stmt.listNormal_append.mpr ⟨ihbody, htest⟩
      simp [Stmt.listNormal, Stmt.isNormal, use, Expr.isNormal, hbody, ih]

/-- Normalisation writes no new lists out. -/
theorem Normalizes.countable (h : Normalizes T stmts out T')
    (hstmts : Countable (Stmt.listLengths stmts)) : Countable (Stmt.listLengths out) := by
  have hsingle {x : Expr} : Countable (Expr.listLengths [x]) ↔ Countable x.lengths := by
    simp [Expr.listLengths]
  have hpair {x y : Expr} : Countable (Expr.listLengths [x, y]) ↔
      Countable x.lengths ∧ Countable y.lengths := by
    simp [Expr.listLengths, countable_append]
  induction h with
  | nil => exact hstmts
  | expr hx _ ih =>
      simp only [Stmt.listLengths, Stmt.lengths, append_of_eq_flatMap Stmt.listLengths_eq,
        countable_append] at hstmts ⊢
      obtain ⟨hfirst, hx'⟩ := hx.countable (hsingle.mpr hstmts.1)
      exact ⟨hfirst, hsingle.mp hx', ih hstmts.2⟩
  | assign hv _ ih =>
      simp only [Stmt.listLengths, Stmt.lengths, append_of_eq_flatMap Stmt.listLengths_eq,
        countable_append] at hstmts ⊢
      obtain ⟨hfirst, hv'⟩ := hv.countable (hsingle.mpr hstmts.1)
      exact ⟨hfirst, hsingle.mp hv', ih hstmts.2⟩
  | indexAssign hai hmoves hv _ ih =>
      simp only [Stmt.listLengths, Stmt.lengths, append_of_eq_flatMap Stmt.listLengths_eq,
        countable_append] at hstmts ⊢
      obtain ⟨⟨hplace, hvalue⟩, hrest⟩ := hstmts
      obtain ⟨hfirst, hxs⟩ := hai.countable (hpair.mpr hplace)
      obtain ⟨hmoved, hplace'⟩ := hmoves.countable hxs
      obtain ⟨hown, hv'⟩ := hv.countable (hsingle.mpr hvalue)
      exact ⟨⟨⟨hfirst, hmoved⟩, hown⟩, ⟨hpair.mp hplace', hsingle.mp hv'⟩, ih hrest⟩
  | ifElse hc _ _ _ ihthen ihelse ih =>
      simp only [Stmt.listLengths, Stmt.lengths, append_of_eq_flatMap Stmt.listLengths_eq,
        countable_append] at hstmts ⊢
      obtain ⟨⟨⟨hcond, hthen⟩, helse⟩, hrest⟩ := hstmts
      obtain ⟨hfirst, hc'⟩ := hc.countable (hsingle.mpr hcond)
      exact ⟨hfirst, ⟨⟨hsingle.mp hc', ihthen hthen⟩, ihelse helse⟩, ih hrest⟩
  | whileDo hc _ _ ihbody ih =>
      simp only [Stmt.listLengths, Stmt.lengths, countable_append] at hstmts ⊢
      obtain ⟨⟨hcond, hbody⟩, hrest⟩ := hstmts
      obtain ⟨-, hc'⟩ := hc.countable (hsingle.mpr hcond)
      exact ⟨⟨hsingle.mp hc', ihbody hbody⟩, ih hrest⟩
  | whileMoved hc _ _ _ _ ihbody ih =>
      simp only [Stmt.listLengths, Stmt.lengths, append_of_eq_flatMap Stmt.listLengths_eq,
        countable_append] at hstmts ⊢
      obtain ⟨⟨hcond, hbody⟩, hrest⟩ := hstmts
      obtain ⟨hfirst, hc'⟩ := hc.countable (hsingle.mpr hcond)
      have hc'' := hsingle.mp hc'
      simp [hfirst, hc'', ihbody hbody, ih hrest, use, Expr.lengths, countable_nil]

theorem Prepares.typed_single {e x : Expr} {ty : Ty} (h : Prepares T [e] first [x] T')
    (hvars : EnvOk vars) (hT : T.Ordered) (he : HasType tier vars e ty) :
    (∀ s ∈ first, StmtTyped tier (T'.env vars) s) ∧ HasType tier (T'.env vars) x ty := by
  obtain ⟨hfirst, hx⟩ := h.typed hvars hT (.cons he .nil) (by simp)
  exact ⟨hfirst, (forall₂_cons.mp hx).1⟩

/-- What normalisation returns is well typed. -/
theorem Normalizes.typed (h : Normalizes T stmts out T') (hvars : EnvOk vars) (hT : T.Ordered)
    (htyped : ∀ s ∈ stmts, StmtTyped tier vars s) :
    ∀ s ∈ out, StmtTyped tier (T'.env vars) s := by
  induction h with
  | nil => simp
  | expr hx hrest ih =>
      obtain ⟨hs, htyped'⟩ := forall_mem_cons.mp htyped
      cases hs with
      | expr he =>
          obtain ⟨hfirst, hx'⟩ := hx.typed_single hvars hT he
          refine forall_mem_append.mpr ⟨fun s hs => (hfirst s hs).extend hrest.extends, ?_⟩
          exact forall_mem_cons.mpr
            ⟨.expr (hx'.extend hrest.extends), ih (hx.ordered hT) htyped'⟩
  | assign hv hrest ih =>
      obtain ⟨hs, htyped'⟩ := forall_mem_cons.mp htyped
      cases hs with
      | assign hfind hvalue he =>
          obtain ⟨hfirst, hv'⟩ := hv.typed_single hvars hT he
          refine forall_mem_append.mpr ⟨fun s hs => (hfirst s hs).extend hrest.extends, ?_⟩
          refine forall_mem_cons.mpr ⟨?_, ih (hv.ordered hT) htyped'⟩
          exact .assign (extends_append _ _ _ _ hfind) hvalue (hv'.extend hrest.extends)
  | indexAssign hai hmoves hv hrest ih =>
      obtain ⟨hs, htyped'⟩ := forall_mem_cons.mp htyped
      cases hs with
      | @indexAssign _ _ _ elem harray ha hi hvalue =>
          have hT₁ := hai.ordered hT
          have hT₂ := hmoves.ordered hT₁
          have hvalues : ∀ ty ∈ [Ty.array elem, .int], IsValue ty := by
            simpa using ⟨.array ha.elem_isValue, .int⟩
          obtain ⟨hfirst, hxs⟩ := hai.typed hvars hT (forall₂_pair.mpr ⟨ha, hi⟩)
            fun ty hty => hvalues ty (dropLast_subset _ hty)
          obtain ⟨hmoved, hai'⟩ := hmoves.typed hvars hT₁ hxs hvalues
          obtain ⟨hown, hv'⟩ := hv.typed_single hvars hT₂ hvalue
          obtain ⟨ha', hi'⟩ := forall₂_pair.mp hai'
          have hext : Extends (Temps.env _ vars) (Temps.env _ vars) :=
            hv.extends.trans hrest.extends
          refine forall_mem_append.mpr ⟨forall_mem_append.mpr
            ⟨forall_mem_append.mpr ⟨fun s hs => ?_, fun s hs => ?_⟩, fun s hs => ?_⟩, ?_⟩
          · exact (hfirst s hs).extend (hmoves.extends.trans hext)
          · exact (hmoved s hs).extend hext
          · exact (hown s hs).extend hrest.extends
          · refine forall_mem_cons.mpr ⟨?_, ih (hv.ordered hT₂) htyped'⟩
            exact .indexAssign harray (ha'.extend hext) (hi'.extend hext)
              (hv'.extend hrest.extends)
  | ifElse hc hthen helse hrest ihthen ihelse ih =>
      obtain ⟨hs, htyped'⟩ := forall_mem_cons.mp htyped
      cases hs with
      | ifElse hcond hthenTyped helseTyped =>
          have hT₁ := hc.ordered hT
          have hT₂ := hthen.ordered hT₁
          have hext : Extends (Temps.env _ vars) (Temps.env _ vars) :=
            helse.extends.trans hrest.extends
          obtain ⟨hfirst, hc'⟩ := hc.typed_single hvars hT hcond
          refine forall_mem_append.mpr ⟨fun s hs => ?_, forall_mem_cons.mpr ⟨.ifElse ?_ ?_ ?_, ?_⟩⟩
          · exact (hfirst s hs).extend (hthen.extends.trans hext)
          · exact hc'.extend (hthen.extends.trans hext)
          · exact fun s hs => (ihthen hT₁ hthenTyped s hs).extend hext
          · exact fun s hs => (ihelse hT₂ helseTyped s hs).extend hrest.extends
          · exact ih (helse.ordered hT₂) htyped'
  | whileDo hc hbody hrest ihbody ih =>
      obtain ⟨hs, htyped'⟩ := forall_mem_cons.mp htyped
      cases hs with
      | whileDo hcond hbodyTyped =>
          have hT₁ := hc.ordered hT
          obtain ⟨-, hc'⟩ := hc.typed_single hvars hT hcond
          refine forall_mem_cons.mpr ⟨.whileDo ?_ ?_, ih (hbody.ordered hT₁) htyped'⟩
          · exact hc'.extend (hbody.extends.trans hrest.extends)
          · exact fun s hs => (ihbody hT₁ hbodyTyped s hs).extend hrest.extends
  | whileMoved hc _ hbody hfresh hrest ihbody ih =>
      obtain ⟨hs, htyped'⟩ := forall_mem_cons.mp htyped
      cases hs with
      | whileDo hcond hbodyTyped =>
          have hT₁ := hc.ordered hT
          have hT₂ := hbody.ordered hT₁
          have hext : Extends (Temps.env _ vars) (Temps.env _ vars) :=
            hfresh.extends.trans hrest.extends
          obtain ⟨hfirst, hc'⟩ := hc.typed_single hvars hT hcond
          have huse := hfresh.use_typed hvars hT₂ hcond.admits_loop .bool
          have htest := forall_mem_append.mpr ⟨fun s hs => (hfirst s hs).extend
            (hbody.extends.trans hext), forall_mem_singleton.mpr (StmtTyped.assign
              (hrest.extends _ _ (hfresh.find? hvars hT₂)) .bool
              (hc'.extend (hbody.extends.trans hext)))⟩
          refine forall_mem_append.mpr ⟨htest, forall_mem_cons.mpr ⟨.whileDo ?_ ?_, ?_⟩⟩
          · exact huse.extend hrest.extends
          · refine forall_mem_append.mpr ⟨fun s hs => ?_, htest⟩
            exact (ihbody hT₁ hbodyTyped s hs).extend hext
          · exact ih (hfresh.ordered hT₂) htyped'

end

end ArrayLang.NormalForm
