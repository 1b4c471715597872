import ArrayLang.Proofs.Machine.Words
import ArrayLang.Proofs.NormalForm.Correct
import ArrayLang.Proofs.Reference.Passes

/-!
# Places of statements in a normal form

Every statement of a program has a place in the normal form, where its own normal form starts.  At
the place of an index assignment, the array and the index are evaluated first.  Then come the
statements that the value needs, and only after them the index is checked.  If the value needs none,
the check comes before anything that the value does.
-/

namespace ArrayLang.NormalForm

open Source Typing Emit Machine Reference

/-! ## Statements of a program -/

/-- What is left of a list of statements in a program from some point on. -/
inductive Within (left : List Stmt) : List Stmt → Prop
  | here : Within left left
  | later {s : Stmt} {rest : List Stmt} : Within left rest → Within left (s :: rest)
  | inThen {cond : Expr} {thenBody elseBody rest : List Stmt} :
      Within left thenBody → Within left (.ifElse cond thenBody elseBody :: rest)
  | inElse {cond : Expr} {thenBody elseBody rest : List Stmt} :
      Within left elseBody → Within left (.ifElse cond thenBody elseBody :: rest)
  | inLoop {cond : Expr} {body rest : List Stmt} :
      Within left body → Within left (.whileDo cond body :: rest)

/-- What is left of a normal form starts with the normal form of a statement. -/
def IsPlace (s : Stmt) (left : List Stmt) : Prop :=
  ∃ (T T' : Temps) (own more : List Stmt),
    T.Ordered ∧ Normalizes T [s] own T' ∧ left = own ++ more

section

variable {s : Stmt} {left stmts out rest : List Stmt} {T T' : Temps}

theorem Within.typed {tier : Tier} {env : Env} (h : Within (s :: rest) stmts)
    (htyped : ∀ x ∈ stmts, StmtTyped tier env x) : StmtTyped tier env s := by
  generalize hleft : s :: rest = left at h
  induction h with
  | here => exact htyped s (hleft ▸ List.mem_cons_self)
  | later _ ih => exact ih fun x hx => htyped x (List.mem_cons_of_mem _ hx)
  | inThen _ ih =>
      cases htyped _ List.mem_cons_self with
      | ifElse _ hthen _ => exact ih hthen
  | inElse _ ih =>
      cases htyped _ List.mem_cons_self with
      | ifElse _ _ helse => exact ih helse
  | inLoop _ ih =>
      cases htyped _ List.mem_cons_self with
      | whileDo _ hbody => exact ih hbody

theorem Within.append (h : Within left stmts) (before : List Stmt) :
    Within left (before ++ stmts) := by
  induction before with
  | nil => exact h
  | cons _ _ ih => exact .later ih

/-- If a list is made longer, what is left may become longer, too. -/
theorem Within.extend (h : Within left stmts) (after : List Stmt) :
    ∃ more, Within (left ++ more) (stmts ++ after) := by
  induction h with
  | here => exact ⟨after, .here⟩
  | later _ ih =>
      obtain ⟨more, hmore⟩ := ih
      exact ⟨more, .later hmore⟩
  | inThen h => exact ⟨[], .inThen (by rwa [List.append_nil])⟩
  | inElse h => exact ⟨[], .inElse (by rwa [List.append_nil])⟩
  | inLoop h => exact ⟨[], .inLoop (by rwa [List.append_nil])⟩

theorem IsPlace.extend (h : IsPlace s left) (after : List Stmt) : IsPlace s (left ++ after) := by
  obtain ⟨T, T', own, more, hT, hown, rfl⟩ := h
  exact ⟨T, T', own, more ++ after, hT, hown, List.append_assoc _ _ _⟩

/-- The start of a normal form is a place of the first statement. -/
theorem Normalizes.isPlace (h : Normalizes T (s :: rest) out T') (hT : T.Ordered) :
    IsPlace s out := by
  cases h with
  | expr hx => exact ⟨T, _, _, _, hT, .expr hx .nil, List.append_cons _ _ _⟩
  | assign hv => exact ⟨T, _, _, _, hT, .assign hv .nil, List.append_cons _ _ _⟩
  | indexAssign hai hmoves hv =>
      exact ⟨T, _, _, _, hT, .indexAssign hai hmoves hv .nil, List.append_cons _ _ _⟩
  | ifElse hc hthen helse =>
      exact ⟨T, _, _, _, hT, .ifElse hc hthen helse .nil, List.append_cons _ _ _⟩
  | whileDo hc hbody => exact ⟨T, _, _, _, hT, .whileDo hc hbody .nil, rfl⟩
  | whileMoved hc hne hbody hfresh =>
      exact ⟨T, _, _, _, hT, .whileMoved hc hne hbody hfresh .nil, List.append_cons _ _ _⟩

/-- Every statement has a place. -/
theorem Normalizes.exists_place (h : Normalizes T stmts out T') (hT : T.Ordered)
    (hin : Within (s :: rest) stmts) : ∃ left, Within left out ∧ IsPlace s left := by
  induction h with
  | nil => exact nomatch hin
  | expr hx hrest ih =>
      cases hin with
      | here => exact ⟨_, .here, (Normalizes.expr hx hrest).isPlace hT⟩
      | later hin =>
          obtain ⟨left, hleft, hplace⟩ := ih (hx.ordered hT) hin
          exact ⟨left, hleft.later.append _, hplace⟩
  | assign hv hrest ih =>
      cases hin with
      | here => exact ⟨_, .here, (Normalizes.assign hv hrest).isPlace hT⟩
      | later hin =>
          obtain ⟨left, hleft, hplace⟩ := ih (hv.ordered hT) hin
          exact ⟨left, hleft.later.append _, hplace⟩
  | indexAssign hai hmoves hv hrest ih =>
      cases hin with
      | here => exact ⟨_, .here, (Normalizes.indexAssign hai hmoves hv hrest).isPlace hT⟩
      | later hin =>
          have hT₂ := hmoves.ordered (hai.ordered hT)
          obtain ⟨left, hleft, hplace⟩ := ih (hv.ordered hT₂) hin
          exact ⟨left, hleft.later.append _, hplace⟩
  | ifElse hc hthen helse hrest ihthen ihelse ih =>
      have hT₁ := hc.ordered hT
      have hT₂ := hthen.ordered hT₁
      cases hin with
      | here => exact ⟨_, .here, (Normalizes.ifElse hc hthen helse hrest).isPlace hT⟩
      | later hin =>
          obtain ⟨left, hleft, hplace⟩ := ih (helse.ordered hT₂) hin
          exact ⟨left, hleft.later.append _, hplace⟩
      | inThen hin =>
          obtain ⟨left, hleft, hplace⟩ := ihthen hT₁ hin
          exact ⟨left, hleft.inThen.append _, hplace⟩
      | inElse hin =>
          obtain ⟨left, hleft, hplace⟩ := ihelse hT₂ hin
          exact ⟨left, hleft.inElse.append _, hplace⟩
  | whileDo hc hbody hrest ihbody ih =>
      have hT₁ := hc.ordered hT
      cases hin with
      | here => exact ⟨_, .here, (Normalizes.whileDo hc hbody hrest).isPlace hT⟩
      | later hin =>
          obtain ⟨left, hleft, hplace⟩ := ih (hbody.ordered hT₁) hin
          exact ⟨left, hleft.later, hplace⟩
      | inLoop hin =>
          obtain ⟨left, hleft, hplace⟩ := ihbody hT₁ hin
          exact ⟨left, hleft.inLoop, hplace⟩
  | whileMoved hc hne hbody hfresh hrest ihbody ih =>
      have hT₁ := hc.ordered hT
      cases hin with
      | here => exact ⟨_, .here, (Normalizes.whileMoved hc hne hbody hfresh hrest).isPlace hT⟩
      | later hin =>
          have hT₃ := hfresh.ordered (hbody.ordered hT₁)
          obtain ⟨left, hleft, hplace⟩ := ih hT₃ hin
          exact ⟨left, hleft.later.append _, hplace⟩
      | inLoop hin =>
          -- The condition is evaluated again behind the body.
          obtain ⟨left, hleft, hplace⟩ := ihbody hT₁ hin
          obtain ⟨more, hmore⟩ := hleft.extend _
          exact ⟨left ++ more, hmore.inLoop.append _, hplace.extend more⟩

end

/-! ## Index errors -/

/-- An index is negative, or not less than the length in the header of an array. -/
def OutOfRange (m : Memory) (array index : UInt64) : Prop :=
  index.toInt64.toInt < 0 ∨
    inBounds m .i32 array.toUInt32 = true ∧
      ((Layout.decodeHeader (m.word .i32 array.toUInt32.toNat).toUInt32).1.toNat : Int) ≤
        index.toInt64.toInt

instance (m : Memory) (array index : UInt64) : Decidable (OutOfRange m array index) :=
  inferInstanceAs (Decidable (_ ∨ _ ∧ _))

/-- The world after the report of a message. -/
def reported (w : World) (msg : Message) : World :=
  { w with console :=
      w.console.report (w.memory.read msg.offset.toUInt32.toNat msg.length.toUInt32.toNat) }

section

variable {t : Target} {w : World} {x n : UInt64}

theorem frontier_reported (msg : Message) : (reported w msg).frontier = w.frontier := rfl

theorem reported_alike {S : String → Prop} {w' : World} (h : Alike S w w') (msg : Message) :
    Alike S (reported w msg) (reported w' msg) := by
  refine ⟨h.vars, h.memory, h.frontier, ?_, h.fuel⟩
  rw [reported, reported, h.memory, h.console]

theorem run_report_eq {msg : Message}
    (h : msg.offset.toUInt32.toNat + msg.length.toUInt32.toNat ≤ w.memory.size) :
    report msg w = .error (.trap .unreachable) (reported w msg) := by
  rw [run_report]
  exact if_neg (Nat.not_lt.mpr h)

theorem checkIndex_eq_report (purpose : Purpose) (h : OutOfRange w.memory x n) :
    ∃ w', Alike (fun _ => True) w w' ∧ checkIndex t purpose x n w = report t.index w' := by
  rw [checkIndex]
  by_cases hneg : 0 ≤ n.toInt64.toInt
  · obtain ⟨hbounds, hlength⟩ := h.resolve_left (Int.not_lt.mpr hneg)
    let w₁ := w.note (.access purpose x.toUInt32 (.load .i32 x.toUInt32))
    have hload : lengthAt purpose x w =
        .ok (Layout.decodeHeader (w.memory.word .i32 x.toUInt32.toNat).toUInt32).1 w₁ := by
      rw [lengthAt, run_bind, run_load, if_pos hbounds]
      rfl
    refine ⟨w₁, (Alike.refl w).history w.history w₁.history, ?_⟩
    rw [decide_eq_true hneg, run_bind_ok w (run_require_true w _), run_bind_ok w hload,
      decide_eq_false (Int.not_lt.mpr hlength), run_require_false]
  · refine ⟨w, Alike.refl w, ?_⟩
    rw [decide_eq_false hneg, require, if_neg Bool.false_ne_true, report_bind]

/-- If the index is out of range, nothing is stored and the value is not evaluated. -/
theorem storeAt_of_outOfRange (elem : Ty) (value : Expr) (h : OutOfRange w.memory x n)
    (hmessage : t.index.offset.toUInt32.toNat + t.index.length.toUInt32.toNat ≤ w.memory.size) :
    ∃ w', Alike (fun _ => True) (reported w t.index) w' ∧
      storeAt t elem value [x, n] w = .error (.trap .unreachable) w' := by
  obtain ⟨w₁, halike, hcheck⟩ := checkIndex_eq_report (t := t) .write h
  have hlocate : locate t .write elem x n w =
      .error (.trap .unreachable) (reported w₁ t.index) := by
    rw [halike.memory] at hmessage
    rw [locate, run_bind_error w (hcheck.trans (run_report_eq hmessage))]
  exact ⟨reported w₁ t.index, reported_alike halike t.index, run_bind_error w hlocate⟩

end

section

variable {t : Target} {tier : Tier} {vars : Env} {T T' T₁ T₂ : Temps} {a i a' i' v v' : Expr}
  {xs : List Expr} {first moves own : List Stmt} {elem : Ty} {w w₁ : World} {x n : UInt64}

/-- The values of the array and the index are kept where the normal form reads them. -/
theorem matches_place (hai : Prepares T [a, i] first xs T₁) (hmoves : Moves T₁ xs moves [a', i'] T₂)
    (hvars : EnvOk vars) (hT : T.Ordered) (ha : HasType tier vars a (.array elem))
    (hi : HasType tier vars i .int) (hfair : Throughout Fair (evalExprs t [a, i] w)) :
    Matches (fun x => ¬IsTemp x) (fun values _ w₁ => [a', i'].map (atomValue w₁.vars) = values)
      (evalExprs t [a, i] w) (runStmts t (first ++ moves) w) := by
  have htyped := forall₂_pair.mpr ⟨ha, hi⟩
  have hvalue : ∀ ty ∈ [Ty.array elem, .int].dropLast, IsValue ty := by
    simpa using IsValue.array ha.elem_isValue
  exact mimics_held (hai.mimics hvars hT htyped hvalue) hmoves
    (fun _ hx hbetween => hx hbetween.isTemp)
    (hai.not_between (not_isTemp_of_mem_names hvars htyped) le_rfl) (Alike.refl w) hfair

/-- The statements that the value needs leave the array and the index as they are. -/
theorem atoms_kept (hai : Prepares T [a, i] first xs T₁) (hmoves : Moves T₁ xs moves [a', i'] T₂)
    (hv : Prepares T₂ [v] own [v'] T') (hvars : EnvOk vars)
    (ha : HasType tier vars a (.array elem)) (hi : HasType tier vars i .int)
    (hrun : runStmts t own w = .ok () w₁) :
    [a', i'].map (atomValue w₁.vars) = [a', i'].map (atomValue w.vars) := by
  have hsource := not_isTemp_of_mem_names hvars (forall₂_pair.mpr ⟨ha, hi⟩)
  refine List.map_congr_left fun e he => atomValue_congr fun y hy => ?_
  have hleaves : Leaves y (runStmts t own) := by
    refine hv.leaves fun hbetween => ?_
    rcases hmoves.names y (Expr.mem_listNames.mpr ⟨e, he, hy⟩) with hy | hy
    · exact hai.not_between hsource hmoves.next_le y hy hbetween
    · exact hy.disjoint le_rfl hbetween
  exact hleaves.of_ok hrun

/-- An index assignment with a literal or a variable for the array and the index. -/
theorem run_atomic_of_outOfRange {more : List Stmt} (hatomic : [a', i'].all Expr.isAtomic = true)
    (hvalues : [a', i'].map (atomValue w.vars) = [x, n]) (hout : OutOfRange w.memory x n)
    (hmessage : t.index.offset.toUInt32.toNat + t.index.length.toUInt32.toNat ≤ w.memory.size) :
    ∃ w', Alike (fun _ => True) (reported w t.index) w' ∧
      runStmts t (.indexAssign a' i' v' :: more) w = .error (.trap .unreachable) w' := by
  have heval := evalExprs_atoms t w hatomic
  rw [hvalues] at heval
  obtain ⟨w', halike, hstore⟩ := storeAt_of_outOfRange (t := t)
    (w := w.reads (Expr.listNames [a', i'])) (elemOf a'.ty) v' hout hmessage
  refine ⟨w', ⟨halike.vars, halike.memory, halike.frontier, halike.console, halike.fuel⟩, ?_⟩
  rw [runStmts, runStmt_indexAssign]
  exact run_bind_error w ((run_bind_ok w heval).trans hstore)

/-- The parts of the normal form of an index assignment. -/
theorem Normalizes.exists_parts {seg : List Stmt} (h : Normalizes T [.indexAssign a i v] seg T') :
    ∃ T₁ T₂ xs first moves own a' i' v',
      Prepares T [a, i] first xs T₁ ∧ Moves T₁ xs moves [a', i'] T₂ ∧
        Prepares T₂ [v] own [v'] T' ∧ seg = first ++ moves ++ own ++ [.indexAssign a' i' v'] := by
  cases h with
  | indexAssign hai hmoves hv hrest =>
      cases hrest with
      | nil => exact ⟨_, _, _, _, _, _, _, _, _, hai, hmoves, hv, rfl⟩

/-- At the place of an index assignment, after the array and the index, come the statements `own`
that the value needs.  If they halt, the run halts.  Otherwise an index that is out of range is
reported. -/
theorem Normalizes.run_indexAssign {seg : List Stmt}
    (h : Normalizes T [.indexAssign a i v] seg T') (hvars : EnvOk vars) (hT : T.Ordered)
    (htyped : StmtTyped tier vars (.indexAssign a i v))
    (heval : evalExprs t [a, i] w = .ok [x, n] w₁)
    (hfair : Throughout Fair (evalExprs t [a, i] w)) :
    ∃ T₁ T₂ own v' w₀, Prepares T₁ [v] own [v'] T₂ ∧ Alike (fun x => ¬IsTemp x) w₁ w₀ ∧
      ∀ more,
        (∀ why w₂, runStmts t own w₀ = .error why w₂ →
          runStmts t (seg ++ more) w = .error why w₂) ∧
        ∀ w₂, runStmts t own w₀ = .ok () w₂ → OutOfRange w₂.memory x n →
          t.index.offset.toUInt32.toNat + t.index.length.toUInt32.toNat ≤ w₂.memory.size →
          ∃ w₃, Alike (fun _ => True) (reported w₂ t.index) w₃ ∧
            runStmts t (seg ++ more) w = .error (.trap .unreachable) w₃ := by
  obtain ⟨T₁, T₂, xs, first, moves, own, a', i', v', hai, hmoves, hv, rfl⟩ := h.exists_parts
  cases htyped with
  | indexAssign _ ha hi _ =>
      have hplace := matches_place hai hmoves hvars hT ha hi hfair
      rw [heval] at hplace
      generalize hrun : runStmts t (first ++ moves) w = r at hplace
      cases hplace with
      | @ok _ _ _ w₀ halike hvalues =>
          refine ⟨T₂, T', own, v', w₀, hv, halike, fun more => ?_⟩
          have hseg : runStmts t (first ++ moves ++ own ++ [.indexAssign a' i' v'] ++ more) w =
              (do runStmts t own; runStmts t (.indexAssign a' i' v' :: more)) w₀ := by
            rw [List.append_assoc, List.append_assoc, runStmts_append, run_bind_ok w hrun,
              runStmts_append]
            rfl
          constructor
          · intro why w₂ hown
            rw [hseg, run_bind_error w₀ hown]
          · intro w₂ hown hout hmessage
            have hvalues₂ := (atoms_kept hai hmoves hv hvars ha hi hown).trans hvalues
            rw [hseg, run_bind_ok w₀ hown]
            exact run_atomic_of_outOfRange hmoves.atomic hvalues₂ hout hmessage

end

end ArrayLang.NormalForm
