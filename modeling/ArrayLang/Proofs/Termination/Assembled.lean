import ArrayLang.Proofs.Assembly.Success
import ArrayLang.Proofs.Termination.Iterations

/-!
# Programs without `while` end

Checking only fills in types, and normalisation moves operands but neither copies them nor makes
loops, unless there is a `while` whose test needs statements.  So the normal form of a program
without `while` has none either, and as many fills of arrays as the program.  With fuel for these
fills no run of the machine is canceled, whatever is read and whatever earlier runs left behind.
-/

namespace ArrayLang.Source

/-! ## Types left out -/

theorem Expr.isFill_bare (e : Expr) : e.bare.isFill = e.isFill := by
  cases e <;> rfl

theorem Expr.listNodes_listBare {es : List Expr}
    (h : ∀ e ∈ es, e.bare.nodes = e.nodes.map Expr.bare) :
    Expr.listNodes (Expr.listBare es) = (Expr.listNodes es).map Expr.bare := by
  induction es with
  | nil => rfl
  | cons e rest ih =>
      obtain ⟨he, hrest⟩ := List.forall_mem_cons.mp h
      rw [Expr.listBare, Expr.listNodes, Expr.listNodes, List.map_append, he, ih hrest]

theorem Expr.nodes_bare (e : Expr) : e.bare.nodes = e.nodes.map Expr.bare := by
  induction e with
  | missing | int | bool | var => rfl
  | unary ty op x ih => simp [Expr.bare, Expr.nodes, ih]
  | binary ty op l r ihl ihr => simp [Expr.bare, Expr.nodes, ihl, ihr]
  | call ty name args ih => simp [Expr.bare, Expr.nodes, Expr.listNodes_listBare ih]
  | arrayLit ty elemTy elems ih => simp [Expr.bare, Expr.nodes, Expr.listNodes_listBare ih]
  | arrayFill ty n v ihn ihv => simp [Expr.bare, Expr.nodes, ihn, ihv]
  | index ty a i iha ihi => simp [Expr.bare, Expr.nodes, iha, ihi]

theorem Stmt.listNodes_listBare {ss : List Stmt}
    (h : ∀ s ∈ ss, s.bare.nodes = s.nodes.map Expr.bare) :
    Stmt.listNodes (Stmt.listBare ss) = (Stmt.listNodes ss).map Expr.bare := by
  induction ss with
  | nil => rfl
  | cons s rest ih =>
      obtain ⟨hs, hrest⟩ := List.forall_mem_cons.mp h
      rw [Stmt.listBare, Stmt.listNodes, Stmt.listNodes, List.map_append, hs, ih hrest]

theorem Stmt.nodes_bare (s : Stmt) : s.bare.nodes = s.nodes.map Expr.bare := by
  induction s with
  | missing => rfl
  | expr | assign | indexAssign => simp [Stmt.bare, Stmt.nodes, Expr.nodes_bare]
  | ifElse cond thenBody elseBody ihthen ihelse =>
      simp [Stmt.bare, Stmt.nodes, Expr.nodes_bare, Stmt.listNodes_listBare ihthen,
        Stmt.listNodes_listBare ihelse]
  | whileDo cond body ih =>
      simp [Stmt.bare, Stmt.nodes, Expr.nodes_bare, Stmt.listNodes_listBare ih]

theorem Stmt.listStraight_listBare {ss : List Stmt}
    (h : ∀ s ∈ ss, s.bare.every Stmt.isStraight = s.every Stmt.isStraight) :
    Stmt.listEvery Stmt.isStraight (Stmt.listBare ss) = Stmt.listEvery Stmt.isStraight ss := by
  induction ss with
  | nil => rfl
  | cons s rest ih =>
      obtain ⟨hs, hrest⟩ := List.forall_mem_cons.mp h
      rw [Stmt.listBare, Stmt.listEvery, Stmt.listEvery, hs, ih hrest]

theorem Stmt.straight_bare (s : Stmt) :
    s.bare.every Stmt.isStraight = s.every Stmt.isStraight := by
  induction s with
  | missing | expr | assign | indexAssign => rfl
  | ifElse cond thenBody elseBody ihthen ihelse =>
      simp [Stmt.bare, Stmt.every, Stmt.isStraight, Stmt.listStraight_listBare ihthen,
        Stmt.listStraight_listBare ihelse]
  | whileDo cond body ih => rfl

end ArrayLang.Source

namespace ArrayLang.NormalForm

open Source Typing Reference

theorem fillFuel_map_bare (nodes : List Expr) :
    fillFuel (nodes.map Expr.bare) = fillFuel nodes := by
  have hfill : Expr.isFill ∘ Expr.bare = Expr.isFill := funext Expr.isFill_bare
  rw [fillFuel, List.countP_map, hfill]
  rfl

/-- The checker keeps the loops and the arrays of equal elements of a program. -/
theorem straight_of_check {tier : Tier} {source checked : List Stmt} {env : Env}
    (h : check tier (some source) = .ok (env, checked)) :
    Stmt.listEvery Stmt.isStraight checked = Stmt.listEvery Stmt.isStraight source ∧
      fillFuel (Stmt.listNodes checked) = fillFuel (Stmt.listNodes source) := by
  have hbare := check_bare h
  constructor
  · rw [← Stmt.listStraight_listBare fun s _ => s.straight_bare, hbare,
      Stmt.listStraight_listBare fun s _ => s.straight_bare]
  · rw [← fillFuel_map_bare, ← Stmt.listNodes_listBare fun s _ => s.nodes_bare, hbare,
      Stmt.listNodes_listBare fun s _ => s.nodes_bare, fillFuel_map_bare]

/-! ## Normal forms -/

variable {T T' : Temps} {es xs xs' : List Expr} {moves first stmts out : List Stmt}

theorem fillFuel_use (temp : Binding) : fillFuel (use temp).nodes = 0 :=
  (fillFuel_cons [] rfl).trans fillFuel_nil

/-- An operation is as expensive on other operands as these are. -/
theorem SameNode.fillFuel_eq {array : Bool} {e e' : Expr} (h : SameNode array e es e' xs) :
    fillFuel e'.nodes + fillFuel (Expr.listNodes es) =
      fillFuel e.nodes + fillFuel (Expr.listNodes xs) := by
  cases h with
  | call | arrayLit =>
      rw [Expr.nodes, Expr.nodes, fillFuel_cons _ rfl, fillFuel_cons _ rfl, Nat.add_comm]
  | unary | binary | index =>
      rw [Expr.nodes, Expr.nodes, fillFuel_cons _ rfl, fillFuel_cons _ rfl]
      simp only [Expr.listNodes, fillFuel_append, fillFuel_nil]
      omega
  | arrayFill =>
      simp only [Expr.nodes, Expr.listNodes, fillFuel_arrayFill, fillFuel_append, fillFuel_nil]
      omega

theorem Moves.fillFuel_eq (h : Moves T xs moves xs' T') :
    fillFuel (Stmt.listNodes moves) + fillFuel (Expr.listNodes xs') =
      fillFuel (Expr.listNodes xs) := by
  induction h with
  | nil => exact Nat.zero_add _
  | keep _ _ ih =>
      simp only [Expr.listNodes, fillFuel_append]
      omega
  | move _ _ _ ih =>
      simp only [Expr.listNodes, Stmt.listNodes, Stmt.nodes, fillFuel_append, fillFuel_use]
      omega

theorem fillFuel_choose (op : BinaryOp) (temp : Binding) (rest : List Stmt) :
    fillFuel (choose op temp rest).nodes = fillFuel (Stmt.listNodes rest) := by
  rw [choose]
  split
  all_goals
    simp only [Stmt.nodes, Stmt.listNodes, fillFuel_append, fillFuel_use, fillFuel_nil]
    omega

/-- Operands are prepared so that every array of equal elements is made once. -/
theorem Prepares.fillFuel_eq (h : Prepares T es first xs T') :
    fillFuel (Stmt.listNodes first) + fillFuel (Expr.listNodes xs) =
      fillFuel (Expr.listNodes es) := by
  induction h with
  | nil | atom => exact Nat.zero_add _
  | node hnode _ ih =>
      have hsame := hnode.fillFuel_eq
      simp only [Expr.listNodes, List.append_nil]
      omega
  | arrayNode hnode _ hmoves ih =>
      have hsame := hnode.fillFuel_eq
      have hmoved := hmoves.fillFuel_eq
      simp only [Expr.listNodes, List.append_nil, append_of_eq_flatMap Stmt.listNodes_eq,
        fillFuel_append]
      omega
  | logic _ _ _ ihl ihr =>
      simp only [Expr.listNodes, Stmt.listNodes, List.append_nil, fillFuel_nil,
        fillFuel_binary] at ihl ihr ⊢
      omega
  | @logicMoved _ _ _ _ _ op _ _ _ r' _ own temp _ _ _ _ _ ihl ihr =>
      have hfuel := fillFuel_choose op temp (own ++ [.assign temp.name r'])
      simp only [Expr.listNodes, Stmt.listNodes, Stmt.nodes, List.append_nil,
        append_of_eq_flatMap Stmt.listNodes_eq, fillFuel_append, fillFuel_use,
        fillFuel_binary] at ihl ihr hfuel ⊢
      omega
  | snoc _ _ ih ih' =>
      simp only [append_of_eq_flatMap Expr.listNodes_eq, fillFuel_append, Stmt.listNodes,
        fillFuel_nil] at ih' ⊢
      omega
  | snocMoved _ _ _ hmoves ih ih' =>
      have hmoved := hmoves.fillFuel_eq
      simp only [append_of_eq_flatMap Expr.listNodes_eq, append_of_eq_flatMap Stmt.listNodes_eq,
        fillFuel_append]
      omega

/-- Operands are prepared without loops. -/
theorem Prepares.straight (h : Prepares T es first xs T') :
    Stmt.listEvery Stmt.isStraight first = true :=
  h.every (fun _ _ => rfl) fun _ _ _ => rfl

theorem Prepares.straight_single {e x : Expr} (h : Prepares T [e] first [x] T') :
    Stmt.listEvery Stmt.isStraight first = true ∧
      fillFuel (Stmt.listNodes first) + fillFuel x.nodes = fillFuel e.nodes := by
  have hfuel := h.fillFuel_eq
  simp only [Expr.listNodes, List.append_nil] at hfuel
  exact ⟨h.straight, hfuel⟩

/-- Without `while`, normalisation makes no loop and copies no expression. -/
theorem Normalizes.straight (h : Normalizes T stmts out T')
    (hstmts : Stmt.listEvery Stmt.isStraight stmts = true) :
    Stmt.listEvery Stmt.isStraight out = true ∧
      fillFuel (Stmt.listNodes out) = fillFuel (Stmt.listNodes stmts) := by
  induction h with
  | nil => exact ⟨rfl, rfl⟩
  | expr hx _ ih | assign hx _ ih =>
      obtain ⟨hfirst, hfuel⟩ := hx.straight_single
      obtain ⟨hout, hrest⟩ := ih hstmts
      refine ⟨Stmt.listEvery_append.mpr ⟨hfirst, hout⟩, ?_⟩
      simp only [Stmt.listNodes, Stmt.nodes, append_of_eq_flatMap Stmt.listNodes_eq,
        fillFuel_append]
      omega
  | indexAssign hai hmoves hv _ ih =>
      have hplace := hai.fillFuel_eq
      have hplace' := hmoves.fillFuel_eq
      obtain ⟨hown, hvalue⟩ := hv.straight_single
      obtain ⟨hout, hrest⟩ := ih hstmts
      have hmoved := Stmt.listEvery_append.mpr ⟨hai.straight, hmoves.every fun _ _ => rfl⟩
      have hbefore := Stmt.listEvery_append.mpr ⟨hmoved, hown⟩
      refine ⟨Stmt.listEvery_append.mpr ⟨hbefore, hout⟩, ?_⟩
      simp only [Expr.listNodes, List.append_nil, Stmt.listNodes, Stmt.nodes,
        append_of_eq_flatMap Stmt.listNodes_eq, fillFuel_append] at hplace hplace' ⊢
      omega
  | ifElse hc _ _ _ ihthen ihelse ih =>
      simp only [Stmt.listEvery, Stmt.every, Bool.and_eq_true] at hstmts
      obtain ⟨⟨⟨hno, hthen⟩, helse⟩, hrest⟩ := hstmts
      obtain ⟨hfirst, hfuel⟩ := hc.straight_single
      obtain ⟨hthen', hfuelThen⟩ := ihthen hthen
      obtain ⟨helse', hfuelElse⟩ := ihelse helse
      obtain ⟨hout, hfuelRest⟩ := ih hrest
      refine ⟨Stmt.listEvery_append.mpr ⟨hfirst, ?_⟩, ?_⟩
      · simp [Stmt.listEvery, Stmt.every, Stmt.isStraight, hthen', helse', hout]
      · simp only [Stmt.listNodes, Stmt.nodes, append_of_eq_flatMap Stmt.listNodes_eq,
          fillFuel_append]
        omega
  | whileDo | whileMoved => simp [Stmt.listEvery, Stmt.every, Stmt.isStraight] at hstmts

end ArrayLang.NormalForm

/-! ## Runs of the machine -/

namespace ArrayLang.Machine

/-- The machine after runs that were given so much fuel each. -/
def afterRuns {H : Type} (m : Machine H) (fuels : List Nat) : Machine H :=
  fuels.foldl (fun m fuel => (m.run fuel).2) m

end ArrayLang.Machine

namespace ArrayLang.Assembly

open Source Code Typing NormalForm Machine Host Reference

variable {s : Settings} {source : List Stmt} {a : Assembled} {major? : String → Option String}

/-- A machine for an assembled program, as it may be between runs. -/
structure Resumable (s : Settings) (a : Assembled) (m : Machine Console) : Prop where
  module : m.module = a.module
  linked : m.linked = Host.linked
  frontier : ∃ frontier : UInt32, (targetOf s).tier.admits .array = true →
    m.globals.get (targetOf s).frontier = frontier.toUInt64

theorem resumable_machine (st : Stages s source a major?) (console : Console) :
    Resumable s a (st.machine console) :=
  ⟨rfl, rfl, _, (st.agree_start console 0).frontier⟩

theorem ending_ne_canceled {n : Nat} {w : World} {r : EStateM.Result Halt World Unit}
    (h : Spent n w r) : ending r ≠ .error .canceled := by
  intro hcanceled
  cases h with
  | ok => cases hcanceled
  | error hwhy => exact hwhy (Except.error.inj hcanceled)

namespace Resumable

variable {m : Machine Console} (h : Resumable s a m) (st : Stages s source a major?)
include h st

/-- A run is one of the reference semantics, from some world with the same fuel. -/
theorem run_eq (fuel : Nat) : ∃ w state, w.fuel = fuel ∧
    Agree (targetOf s) (endWorld (runStmts (targetOf s) (formOf s.tier source).stmts w)) state ∧
    m.run fuel =
      (ending (runStmts (targetOf s) (formOf s.tier source).stmts w), m.stopped state) := by
  obtain ⟨frontier, hfrontier⟩ := h.frontier
  let w : World := ⟨fun _ => 0, m.memory, frontier, m.host, fuel, []⟩
  have hagree : Agree (targetOf s) w (m.start st.entry fuel) :=
    ⟨rfl, fun name _ _ => get_map_zero _ name, hfrontier, rfl, rfl⟩
  obtain ⟨state, hend, hrun⟩ := st.run_of_agree h.module h.linked hagree
  exact ⟨w, state, rfl, hend, hrun⟩

/-- After a run the machine is ready for the next one. -/
theorem run (fuel : Nat) : Resumable s a (m.run fuel).2 := by
  obtain ⟨w, state, -, hend, hrun⟩ := h.run_eq st fuel
  rw [hrun]
  exact ⟨h.module, h.linked, _, hend.frontier⟩

theorem afterRuns (fuels : List Nat) : Resumable s a (m.afterRuns fuels) := by
  induction fuels generalizing m with
  | nil => exact h
  | cons fuel rest ih => exact ih (h.run st fuel)

/-- With fuel for the fills of arrays, a run of a program without `while` is not canceled. -/
theorem not_canceled (hstraight : Stmt.listEvery Stmt.isStraight source = true) {fuel : Nat}
    (hfuel : fillFuel (Stmt.listNodes source) ≤ fuel) : (m.run fuel).1 ≠ .error .canceled := by
  obtain ⟨hchecked, hfuel₁⟩ := straight_of_check st.check_ok
  obtain ⟨T, hnorm, -⟩ := st.normalizes
  obtain ⟨hform, hfuel₂⟩ := hnorm.straight (hchecked.trans hstraight)
  obtain ⟨w, state, rfl, -, hrun⟩ := h.run_eq st fuel
  rw [← hfuel₁, ← hfuel₂] at hfuel
  rw [hrun]
  exact ending_ne_canceled (spent_runStmts hform hfuel)

end Resumable

/-- A program without `while` is made ready, and whatever is read, none of its runs is canceled that
has fuel for the fills of arrays: not the first one, and not those after any earlier runs. -/
theorem ends_without_while (hassemble : assemble s (some source) major? = .ok a)
    (hstraight : Stmt.listEvery Stmt.isStraight source = true) (console : Console) :
    ∃ m, Machine.load (some a.module) functions console = .ok m ∧
      ∀ earlier fuel, fillFuel (Stmt.listNodes source) ≤ fuel →
        ((m.afterRuns earlier).run fuel).1 ≠ .error .canceled := by
  obtain ⟨st⟩ := exists_stages hassemble
  refine ⟨st.machine console, st.load_ok console, ?_⟩
  intro earlier fuel hfuel
  exact ((resumable_machine st console).afterRuns st earlier).not_canceled st hstraight hfuel

/-- Settings with all addresses in memory. -/
def wide : Settings :=
  { Settings.standard with maxArrayBytes := 2147483648, memoryPages := 65536 }

/-- A program that makes two arrays, each of as many elements as it is asked for. -/
def twoFills : List Stmt :=
  [.assign "n" (.call .int Builtin.inputInt.text []),
    .assign "a" (.arrayFill (.array .int) (.var .int "n") (.int .int 0)),
    .ifElse (.binary .bool .lt (.call .int Builtin.inputInt.text []) (.var .int "n"))
      [.assign "b" (.arrayFill (.array (.array .int)) (.var .int "n") (.var (.array .int) "a"))] []]

/-- The arrays are made in 2 ^ 29 iterations, also when the last address lies in one of them. -/
theorem twoFills_ends :
    Stmt.listEvery Stmt.isStraight twoFills = true ∧
      ∃ a, assemble wide (some twoFills) = .ok a ∧
        ∀ console, ∃ m, Machine.load (some a.module) functions console = .ok m ∧
          ∀ earlier, ((m.afterRuns earlier).run (2 ^ 29)).1 ≠ .error .canceled := by
  obtain ⟨a, ⟨st⟩⟩ : ∃ a, Nonempty (Stages wide twoFills a) :=
    exists_stages_of_check (by decide) (by decide) (by decide) rfl
  refine ⟨rfl, a, st.assemble_eq, fun console => ?_⟩
  obtain ⟨m, hload, hends⟩ := ends_without_while st.assemble_eq rfl console
  exact ⟨m, hload, fun earlier => hends earlier (2 ^ 29) (by decide)⟩

end ArrayLang.Assembly
