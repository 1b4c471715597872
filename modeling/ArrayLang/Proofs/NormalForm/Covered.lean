import ArrayLang.Proofs.NormalForm.Definite
import ArrayLang.Proofs.NormalForm.Meaning

/-!
# Temporaries are assigned before they are read

In every run of a program in normal form, and on every path through it, a temporary is read only
after it was assigned.  For runs this holds from any world on in which it held so far, also when
the run halts.
-/

namespace ArrayLang.NormalForm

open Source Typing Emit Machine Reference

/-- Every temporary that is read in a history was assigned before. -/
def Covered (history : List Event) : Prop :=
  ∀ before name, before ++ [.read name] <+: history → IsTemp name → .assign name ∈ before

/-- A computation reads no variables but those in `S`. -/
def Reads (S : String → Prop) {α : Type} (c : Eval α) : Prop :=
  ∀ w name, .read name ∈ (endWorld (c w)).history → .read name ∈ w.history ∨ S name

/-- If the temporaries in `A` are assigned before a computation, it reads temporaries only after they
were assigned, and the temporaries in `B` are assigned when it returns. -/
def Covers (A : String → Prop) {α : Type} (c : Eval α) (B : String → Prop) : Prop :=
  ∀ w, Covered w.history → (∀ x, IsTemp x → A x → .assign x ∈ w.history) →
    Covered (endWorld (c w)).history ∧
      ∀ a w', c w = .ok a w' → ∀ x, IsTemp x → B x → .assign x ∈ w'.history

section

variable {α β : Type} {A B C S : String → Prop} {t : Target}

/-! ## Reads -/

theorem built_reads : Built S fun _ c => Reads S c where
  blind c hc w name hread := Or.inl (hc.unread w name hread)
  read name hname w other hread := by
    rcases List.mem_append.mp hread with hold | hlast
    · exact Or.inl hold
    · obtain rfl := Event.read.inj (List.mem_singleton.mp hlast)
      exact Or.inr hname
  bind {_ _ x _ _} hx hf w name hread := by
    rw [run_bind] at hread
    have hfirst := hx w name
    generalize x w = r at hread hfirst
    cases r with
    | ok a w₁ =>
        rcases hf a w₁ name hread with hold | hname
        · exact hfirst hold
        · exact Or.inr hname
    | error why w₁ => exact hfirst hread

theorem Covered.of_mem {history : List Event} (h : Covered history) {name : String}
    (hread : .read name ∈ history) (htemp : IsTemp name) : .assign name ∈ history := by
  obtain ⟨before, rest, rfl⟩ := List.append_of_mem hread
  have hbefore : before ++ [.read name] <+: before ++ .read name :: rest := ⟨rest, by simp⟩
  exact List.mem_append_left _ (h before name hbefore htemp)

theorem Covered.concat {history : List Event} {e : Event} (h : Covered history)
    (he : ∀ name, e ≠ .read name) : Covered (history ++ [e]) := by
  intro before name hbefore htemp
  rcases List.prefix_concat_iff.mp hbefore with heq | hprefix
  · obtain ⟨-, hlast⟩ := List.append_inj' heq rfl
    exact absurd (List.singleton_inj.mp hlast).symm (he name)
  · exact h before name hprefix htemp

/-! ## Rules -/

theorem Covers.weaken {B' : String → Prop} {c : Eval α} (h : Covers A c B)
    (hB : ∀ x, IsTemp x → B' x → B x) : Covers A c B' := by
  intro w hcovered hassigned
  obtain ⟨hend, hafter⟩ := h w hcovered hassigned
  exact ⟨hend, fun a w' hrun x htemp hx => hafter a w' hrun x htemp (hB x htemp hx)⟩

theorem Covers.bind {x : Eval α} {f : α → Eval β} (hx : Covers A x B)
    (hf : ∀ a, Covers B (f a) C) : Covers A (x >>= f) C := by
  intro w hcovered hassigned
  obtain ⟨hend, hafter⟩ := hx w hcovered hassigned
  rw [run_bind]
  generalize x w = r at hend hafter ⊢
  cases r with
  | ok a w₁ => exact hf a w₁ hend (hafter a w₁ rfl)
  | error why w₁ => exact ⟨hend, fun _ _ h => nomatch h⟩

theorem covers_of_reads {c : Eval α} [Runs True True c] (h : Reads S c)
    (hS : ∀ x, IsTemp x → S x → A x) : Covers A c A := by
  intro w hcovered hassigned
  have hgrows := history_grows c w
  constructor
  · intro before name hbefore htemp
    -- The read is in the old part of the history, or all of the old part comes before it.
    have hold : before ++ [.read name] <+: w.history ∨ w.history <+: before := by
      rcases List.prefix_or_prefix_of_prefix hbefore hgrows with hle | hle
      · exact Or.inl hle
      · rcases List.prefix_concat_iff.mp hle with heq | hle'
        · exact Or.inl (heq ▸ List.prefix_rfl)
        · exact Or.inr hle'
    rcases hold with hle | hle
    · exact hcovered before name hle htemp
    · rcases h w name (hbefore.subset (by simp)) with hread | hname
      · exact hle.subset (hcovered.of_mem hread htemp)
      · exact hle.subset (hassigned name htemp (hS name htemp hname))
  · intro a w' hrun x htemp hx
    rw [hrun] at hgrows
    exact hgrows.subset (hassigned x htemp hx)

theorem covers_blind (c : Eval α) [Blind c] [Runs True True c] : Covers A c A :=
  covers_of_reads (S := fun _ => False) (built_reads.blind c) fun _ _ h => h.elim

theorem covers_assignVar (name : String) (value : UInt64) :
    Covers A (assignVar name value) fun x => A x ∨ x = name := by
  intro w hcovered hassigned
  refine ⟨hcovered.concat (by simp), ?_⟩
  rintro _ _ ⟨rfl, rfl⟩ x htemp (hx | rfl)
  · exact List.mem_append_left _ (hassigned x htemp hx)
  · simp

theorem covers_evalExpr {e : Expr} (h : ∀ x, IsTemp x → x ∈ e.names → A x) :
    Covers A (evalExpr t e) A :=
  covers_of_reads (S := (· ∈ e.names)) (built_reads.evalExpr fun _ hx => hx) h

theorem covers_holds {e : Expr} (h : ∀ x, IsTemp x → x ∈ e.names → A x) :
    Covers A (holds t e) A := by
  rw [holds]
  exact (covers_evalExpr h).bind fun v => covers_blind _

theorem covers_loop {cond : Eval Bool} {body : Eval Unit} (hcond : Covers A cond A)
    (hbody : Covers A body A) (bound : Nat) : Covers A (loop cond body bound) A := by
  induction bound with
  | zero => exact covers_blind (throw .canceled)
  | succ bound ih =>
      rw [loop_add_one]
      refine (covers_blind tick).bind fun _ => hcond.bind fun b => ?_
      split
      · exact hbody.bind fun _ => ih
      · exact covers_blind _

/-! ## Statements -/

theorem covers_nil : Covers A (runStmts t []) A := by
  rw [runStmts]
  exact covers_blind _

theorem Covers.cons {s : Stmt} {ss : List Stmt} (h : Covers A (runStmt t s) B)
    (h' : Covers B (runStmts t ss) C) : Covers A (runStmts t (s :: ss)) C := by
  rw [runStmts]
  exact h.bind fun _ => h'

theorem covers_assign {name : String} {v : Expr} (h : ∀ x, IsTemp x → x ∈ v.names → A x) :
    Covers A (runStmt t (.assign name v)) fun x => A x ∨ x = name := by
  rw [runStmt]
  exact (covers_evalExpr h).bind fun value => covers_assignVar name value

theorem covers_ifElse {cond : Expr} {thenBody elseBody : List Stmt}
    (hcond : ∀ x, IsTemp x → x ∈ cond.names → A x) (hthen : Covers A (runStmts t thenBody) B)
    (helse : Covers A (runStmts t elseBody) B) :
    Covers A (runStmt t (.ifElse cond thenBody elseBody)) B := by
  rw [runStmt]
  refine (covers_holds hcond).bind fun b => ?_
  split
  · exact hthen
  · exact helse

theorem covers_whileDo {cond : Expr} {body : List Stmt}
    (hcond : ∀ x, IsTemp x → x ∈ cond.names → A x) (hbody : Covers A (runStmts t body) A) :
    Covers A (runStmt t (.whileDo cond body)) A := by
  rw [runStmt]
  have hget : Covers A (get : Eval World) A :=
    covers_of_reads (S := fun _ => False) (fun _ _ => Or.inl) fun _ _ h => h.elim
  exact hget.bind fun w => covers_loop (covers_holds hcond) hbody _

/-- What can be seen from the text of a program holds of its runs. -/
theorem Definite.covers {ss : List Stmt} (h : Definite A ss B) : Covers A (runStmts t ss) B := by
  induction h with
  | nil hnil => exact covers_nil.weaken hnil
  | expr hx _ ih =>
      apply Covers.cons _ ih
      rw [runStmt]
      exact (covers_evalExpr hx).bind fun v => covers_blind _
  | assign hv _ ih => exact (covers_assign hv).cons ih
  | indexAssign ha hi hv _ ih =>
      apply Covers.cons _ ih
      rw [runStmt]
      apply (covers_evalExpr ha).bind fun a => ?_
      apply (covers_evalExpr hi).bind fun i => ?_
      apply (covers_blind _).bind fun address => ?_
      exact (covers_evalExpr hv).bind fun v => covers_blind _
  | ifElse hcond _ _ _ ihthen ihelse ih => exact (covers_ifElse hcond ihthen ihelse).cons ih
  | whileDo hcond _ _ ihbody ih => exact (covers_whileDo hcond ihbody).cons ih

/-- A program in normal form reads temporaries only after it assigned them. -/
theorem Normalizes.covers {tier : Tier} {vars : Env} {T T' : Temps} {stmts out : List Stmt}
    (h : Normalizes T stmts out T') (hvars : EnvOk vars)
    (htyped : ∀ s ∈ stmts, StmtTyped tier vars s) : Covers A (runStmts t out) A :=
  (h.definite hvars htyped).covers

end

/-! ## Paths -/

/-- The reads of variables in an expression.  An operand of `and` or `or` that a run may skip
counts, too. -/
def reads (e : Expr) : List Event := e.names.map .read

/-- The reads and assignments on a path through statements: either branch of a conditional, and any
number of rounds of a loop. -/
inductive Path : List Stmt → List Event → Prop
  | nil : Path [] []
  | expr {x : Expr} {rest : List Stmt} {us : List Event} :
      Path rest us → Path (.expr x :: rest) (reads x ++ us)
  | assign {name : String} {v : Expr} {rest : List Stmt} {us : List Event} :
      Path rest us → Path (.assign name v :: rest) (reads v ++ ([.assign name] ++ us))
  | indexAssign {a i v : Expr} {rest : List Stmt} {us : List Event} :
      Path rest us → Path (.indexAssign a i v :: rest) (reads a ++ (reads i ++ (reads v ++ us)))
  | ifTrue {cond : Expr} {thenBody elseBody rest : List Stmt} {us us' : List Event} :
      Path thenBody us → Path rest us' →
      Path (.ifElse cond thenBody elseBody :: rest) (reads cond ++ (us ++ us'))
  | ifFalse {cond : Expr} {thenBody elseBody rest : List Stmt} {us us' : List Event} :
      Path elseBody us → Path rest us' →
      Path (.ifElse cond thenBody elseBody :: rest) (reads cond ++ (us ++ us'))
  | leave {cond : Expr} {body rest : List Stmt} {us : List Event} :
      Path rest us → Path (.whileDo cond body :: rest) (reads cond ++ us)
  | round {cond : Expr} {body rest : List Stmt} {us us' : List Event} :
      Path body us → Path (.whileDo cond body :: rest) us' →
      Path (.whileDo cond body :: rest) (reads cond ++ (us ++ us'))

section

variable {A B : String → Prop} {before us : List Event}

/-- Temporaries are read only after they were assigned, and those in `A` are assigned. -/
def CoveredWith (A : String → Prop) (history : List Event) : Prop :=
  Covered history ∧ ∀ x, IsTemp x → A x → .assign x ∈ history

theorem CoveredWith.reads {e : Expr} (h : CoveredWith A before) (he : Known A e.names) :
    CoveredWith A (before ++ reads e) := by
  unfold NormalForm.reads
  generalize e.names = names at he
  induction names generalizing before with
  | nil => simpa using h
  | cons name rest ih =>
      rw [List.map_cons, List.append_cons]
      apply ih _ fun x htemp hx => he x htemp (List.mem_cons_of_mem _ hx)
      obtain ⟨hcovered, hassigned⟩ := h
      constructor
      · intro earlier other hprefix htemp
        rcases List.prefix_concat_iff.mp hprefix with heq | hprefix
        · obtain ⟨rfl, hlast⟩ := List.append_inj' heq rfl
          obtain rfl := Event.read.inj (List.singleton_inj.mp hlast)
          exact hassigned other htemp (he other htemp List.mem_cons_self)
        · exact hcovered earlier other hprefix htemp
      · exact fun x htemp hx => List.mem_append_left _ (hassigned x htemp hx)

theorem CoveredWith.assign {name : String} (h : CoveredWith A before) :
    CoveredWith (fun x => A x ∨ x = name) (before ++ [.assign name]) := by
  obtain ⟨hcovered, hassigned⟩ := h
  constructor
  · exact hcovered.concat (by simp)
  · rintro x htemp (hx | rfl)
    · exact List.mem_append_left _ (hassigned x htemp hx)
    · simp

/-- What can be seen from the text of a program holds on its paths. -/
theorem Definite.coveredWith {ss : List Stmt} (h : Definite A ss B) (hpath : Path ss us)
    (hbefore : CoveredWith A before) : CoveredWith B (before ++ us) := by
  induction hpath generalizing A B before with
  | nil =>
      cases h with
      | nil hnil =>
          rw [List.append_nil]
          exact ⟨hbefore.1, fun x htemp hx => hbefore.2 x htemp (hnil x htemp hx)⟩
  | expr _ ih =>
      cases h with
      | expr hx hrest =>
          rw [← List.append_assoc]
          exact ih hrest (hbefore.reads hx)
  | assign _ ih =>
      cases h with
      | assign hv hrest =>
          rw [← List.append_assoc, ← List.append_assoc]
          exact ih hrest (hbefore.reads hv).assign
  | indexAssign _ ih =>
      cases h with
      | indexAssign ha hi hv hrest =>
          rw [← List.append_assoc, ← List.append_assoc, ← List.append_assoc]
          exact ih hrest (((hbefore.reads ha).reads hi).reads hv)
  | ifTrue _ _ ihbody ih =>
      cases h with
      | ifElse hcond hthen _ hrest =>
          rw [← List.append_assoc, ← List.append_assoc]
          exact ih hrest (ihbody hthen (hbefore.reads hcond))
  | ifFalse _ _ ihbody ih =>
      cases h with
      | ifElse hcond _ helse hrest =>
          rw [← List.append_assoc, ← List.append_assoc]
          exact ih hrest (ihbody helse (hbefore.reads hcond))
  | leave _ ih =>
      cases h with
      | whileDo hcond _ hrest =>
          rw [← List.append_assoc]
          exact ih hrest (hbefore.reads hcond)
  | round _ _ ihbody ih =>
      cases h with
      | whileDo hcond hbody hrest =>
          rw [← List.append_assoc, ← List.append_assoc]
          exact ih (.whileDo hcond hbody hrest) (ihbody hbody (hbefore.reads hcond))

theorem covered_nil : Covered [] := by
  intro before name hprefix
  exact absurd (List.prefix_nil.mp hprefix) (by simp)

/-- On every path through a program in normal form, temporaries are assigned before they are
read. -/
theorem Normalizes.covered_of_path {tier : Tier} {vars : Env} {T T' : Temps}
    {stmts out : List Stmt} (h : Normalizes T stmts out T') (hvars : EnvOk vars)
    (htyped : ∀ s ∈ stmts, StmtTyped tier vars s) (hpath : Path out us) : Covered us := by
  have hnone : CoveredWith (fun _ => False) [] := ⟨covered_nil, fun _ _ hx => hx.elim⟩
  have hdefinite : Definite (fun _ => False) out fun _ => False := h.definite hvars htyped
  exact (hdefinite.coveredWith hpath hnone).1

end

end ArrayLang.NormalForm
