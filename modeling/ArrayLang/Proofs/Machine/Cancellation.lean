import ArrayLang.Proofs.Machine.Frame
import ArrayLang.Proofs.Machine.Valid
import Mathlib.Order.Nat

/-!
# Cancellation

A run is cancelled when an iteration of a loop should start and there is no fuel.  More fuel changes
nothing about a run that is not cancelled.  A cancelled run has printed what the run with more fuel
prints first.
-/

namespace ArrayLang.Host

open Machine

/-- What one console has printed is what another one printed first. -/
structure Console.Before (c c' : Console) : Prop where
  stdout : c.stdout.toList <+: c'.stdout.toList
  stderr : c.stderr.toList <+: c'.stderr.toList

namespace Console

variable {c c' c'' : Console}

theorem Before.refl (c : Console) : c.Before c := ⟨List.prefix_rfl, List.prefix_rfl⟩

theorem Before.trans (h : c.Before c') (h' : c'.Before c'') : c.Before c'' :=
  ⟨h.stdout.trans h'.stdout, h.stderr.trans h'.stderr⟩

theorem before_print (c : Console) (line : String) : c.Before (c.print line) := by
  refine ⟨?_, List.prefix_rfl⟩
  rw [print, Array.toList_append]
  exact List.prefix_append _ _

theorem before_report (c : Console) (message : List UInt8) : c.Before (c.report message) := by
  refine ⟨List.prefix_rfl, ?_⟩
  rw [report, Array.toList_append]
  exact List.prefix_append _ _

end Console

/-- The functions of the host take nothing back that was printed. -/
theorem Function.before_serve (f : Function) (memory : Memory) (args : List UInt64)
    (c : Console) : c.Before (f.serve memory args c).host := by
  cases f with
  | printInt | printBool | printRef =>
      cases args with
      | nil => exact .refl c
      | cons => exact c.before_print _
  | readInt =>
      simp only [Function.serve]
      split <;> exact ⟨List.prefix_rfl, List.prefix_rfl⟩
  | reportError =>
      simp only [Function.serve]
      split
      · split
        · exact .refl c
        · exact c.before_report _
      · exact .refl c

end ArrayLang.Host

namespace ArrayLang.Machine

open Code Host

section

variable {H : Type}

/-- The same state with more fuel. -/
def State.refuel (s : State H) (extra : Nat) : State H := { s with fuel := s.fuel + extra }

/-- The same outcome with more fuel. -/
def Outcome.refuel (o : Outcome H) (extra : Nat) : Outcome H :=
  match o with
  | .next s => .next (s.refuel extra)
  | .branch label s => .branch label (s.refuel extra)
  | .halt why s => .halt why (s.refuel extra)

variable {env : List (Linked H)} {s : State H} {extra : Nat}

theorem Outcome.refuel_ite {c : Prop} [Decidable c] (o o' : Outcome H) :
    (if c then o else o').refuel extra = if c then o.refuel extra else o'.refuel extra :=
  apply_ite (Outcome.refuel · extra) c o o'

/-! ## Instructions that hold no code -/

theorem withTop_refuel {act : UInt64 → State H → Outcome H}
    (hact : ∀ value s, act value (s.refuel extra) = (act value s).refuel extra) :
    withTop (s.refuel extra) act = (withTop s act).refuel extra := by
  obtain ⟨memory, globals, locals, stack, host, fuel⟩ := s
  cases stack with
  | nil => rfl
  | cons value stack => exact hact value ⟨memory, globals, locals, stack, host, fuel⟩

theorem withTopTwo_refuel {act : UInt64 → UInt64 → State H → Outcome H}
    (hact : ∀ a b s, act a b (s.refuel extra) = (act a b s).refuel extra) :
    withTopTwo (s.refuel extra) act = (withTopTwo s act).refuel extra :=
  withTop_refuel fun b _ => withTop_refuel fun a s => hact a b s

theorem callHost_refuel (name : String) :
    callHost env name (s.refuel extra) = (callHost env name s).refuel extra := by
  obtain ⟨memory, globals, locals, stack, host, fuel⟩ := s
  change callHost env name ⟨memory, globals, locals, stack, host, fuel + extra⟩ = _
  rw [callHost, callHost]
  cases env.find? fun l => l.decl.name = name with
  | none => rfl
  | some l =>
      dsimp only
      by_cases hfew : stack.length < l.decl.params.length
      · rw [if_pos hfew, if_pos hfew]
        rfl
      · rw [if_neg hfew, if_neg hfew]
        generalize l.serve _ _ _ = reply
        obtain ⟨memory, host, (_ | _) | results⟩ := reply
        · rfl
        · rfl
        · dsimp only
          rw [Outcome.refuel_ite]
          rfl

/-- Only loops look at the fuel. -/
theorem exec_refuel {instr : Instr} (hplain : instr.holdsCode = false) :
    exec env instr (s.refuel extra) = (exec env instr s).refuel extra := by
  cases instr with
  | constI64 | constI32 | localGet | globalGet | branch | trap | missing | stray | nested => rfl
  | localSet | localTee | globalSet | drop =>
      rw [exec, exec]
      exact withTop_refuel fun _ _ => rfl
  | arith ty op =>
      refine withTopTwo_refuel fun a b s => ?_
      cases Machine.arith ty op a b <;> rfl
  | compare ty op =>
      refine withTopTwo_refuel fun a b s => ?_
      cases Machine.compare ty op a b <;> rfl
  | convert op =>
      cases op <;>
        simp only [exec] <;>
        exact withTop_refuel fun _ _ => rfl
  | load ty =>
      refine withTop_refuel fun address s => ?_
      rw [loadValue, loadValue, Outcome.refuel_ite, Outcome.refuel_ite]
      rfl
  | store ty =>
      refine withTopTwo_refuel fun address value s => ?_
      rw [storeValue, storeValue, Outcome.refuel_ite, Outcome.refuel_ite]
      rfl
  | call name => exact callHost_refuel name
  | branchIf label =>
      rw [exec, exec]
      refine withTop_refuel fun value s => ?_
      rw [Outcome.refuel_ite]
      rfl
  | ifElse | block | loop => cases hplain

end

/-! ## What no code takes back -/

/-- Fuel is not gained and what was printed stays. -/
structure Onward (s s' : State Console) : Prop where
  fuel : s'.fuel ≤ s.fuel
  host : s.host.Before s'.host

/-- The functions of an environment take nothing back that was printed. -/
def Lasting (env : List (Linked Console)) : Prop :=
  ∀ l ∈ env, ∀ memory args console, Console.Before console (l.serve memory args console).host

theorem framed_onward : Framed Onward where
  refl _ := ⟨Nat.le_refl _, .refl _⟩
  trans h h' := ⟨Nat.le_trans h'.fuel h.fuel, h.host.trans h'.host⟩
  setStack _ _ := ⟨Nat.le_refl _, .refl _⟩
  spend _ := ⟨Nat.sub_le _ _, .refl _⟩

theorem onward_execBlock {env : List (Linked Console)} (henv : Lasting env) (code : Block)
    (s : State Console) : Onward s (execBlock env code s).state := by
  refine framed_onward.of_leaves (fun instr _ s s' htouches => ?_) s
  cases htouches with
  | call _ _ _ _ hl => exact ⟨Nat.le_refl _, henv _ hl _ _ _⟩
  | stack | setLocal | setGlobal | store => exact ⟨Nat.le_refl _, .refl _⟩

/-! ## Two runs of one code -/

/-- What code leads to, and what it leads to with more fuel. -/
inductive Outlasts (extra : Nat) : Outcome Console → Outcome Console → Prop
  | same (o : Outcome Console) : Outlasts extra o (o.refuel extra)
  | canceled {s : State Console} {o : Outcome Console} :
      s.host.Before o.state.host → Outlasts extra (.halt .canceled s) o

section

variable {env : List (Linked Console)} {extra : Nat} {o o' : Outcome Console}
  {go go' : State Console → Outcome Console}

theorem Outlasts.andThen (h : Outlasts extra o o')
    (hgo : ∀ s, Outlasts extra (go s) (go (s.refuel extra)))
    (honward : ∀ s, Onward s (go s).state) :
    Outlasts extra (o.andThen go) (o'.andThen go) := by
  cases h with
  | same =>
      cases o with
      | next s => exact hgo s
      | branch | halt => exact .same _
  | canceled hhost => exact .canceled (hhost.trans (framed_onward.andThen _ honward).host)

theorem Outlasts.onBranch (label : String) (h : Outlasts extra o o')
    (hgo : Outlasts extra (go o.state) (go' (o.state.refuel extra)))
    (honward : ∀ s, Onward s (go' s).state) :
    Outlasts extra (o.onBranch label go) (o'.onBranch label go') := by
  cases h with
  | same =>
      cases o with
      | branch target s =>
          rw [Outcome.refuel, Outcome.onBranch, Outcome.onBranch]
          split
          · exact hgo
          · exact .same (.branch target s)
      | next | halt => exact .same _
  | canceled hhost => exact .canceled (hhost.trans (framed_onward.onBranch label _ honward).host)

/-- The bounds do not matter, as long as the fuel is used up first: each iteration takes fuel, so
what is left after the first one is within the next bound. -/
theorem outlasts_iterate {label : String} {body : State Console → Outcome Console}
    (hbody : ∀ s, Outlasts extra (body s) (body (s.refuel extra)))
    (honward : ∀ s, Onward s (body s).state) {bound bound' : Nat} {s : State Console}
    (hbound : s.fuel ≤ bound) (hbound' : s.fuel + extra ≤ bound') :
    Outlasts extra (iterate label body bound s) (iterate label body bound' (s.refuel extra)) := by
  induction bound generalizing s bound' with
  | zero => exact .canceled (framed_onward.iterate honward bound' (s.refuel extra)).host
  | succ bound ih =>
      by_cases hfuel : s.fuel = 0
      · rw [iterate_empty _ hfuel]
        exact .canceled (framed_onward.iterate honward bound' (s.refuel extra)).host
      · obtain ⟨bound', rfl⟩ : ∃ n, bound' = n + 1 := Nat.exists_eq_succ_of_ne_zero (by omega)
        have hfuel' : (s.refuel extra).fuel ≠ 0 :=
          fun h => hfuel (Nat.eq_zero_of_add_eq_zero_right h)
        have hspent : { s.refuel extra with fuel := (s.refuel extra).fuel - 1 } =
            State.refuel { s with fuel := s.fuel - 1 } extra := by
          simp only [State.refuel]
          congr 1
          omega
        rw [iterate_succ _ hfuel, iterate_succ _ hfuel', hspent]
        have hleft : (body { s with fuel := s.fuel - 1 }).state.fuel ≤ s.fuel - 1 :=
          (honward _).fuel
        refine (hbody _).onBranch label (ih ?_ ?_) (framed_onward.iterate honward bound') <;> omega

theorem outlasts_execBlock (henv : Lasting env) (code : Block) (s : State Console) :
    Outlasts extra (execBlock env code s) (execBlock env code (s.refuel extra)) := by
  induction code using Block.induct generalizing s with
  | nil => exact .same (.next s)
  | step instr rest hplain ih =>
      rw [execBlock_cons, execBlock_cons, exec_refuel hplain]
      exact (Outlasts.same _).andThen ih (onward_execBlock henv rest)
  | ifElse result thenCode elseCode rest ihthen ihelse ih =>
      rw [execBlock_cons, execBlock_cons]
      refine Outlasts.andThen ?_ ih (onward_execBlock henv rest)
      obtain ⟨memory, globals, locals, stack, host, fuel⟩ := s
      cases stack with
      | nil => exact .same (.halt (.fault .underflow) ⟨memory, globals, locals, [], host, fuel⟩)
      | cons value stack =>
          simp only [exec, State.refuel, withTop]
          split
          · exact ihthen ⟨memory, globals, locals, stack, host, fuel⟩
          · exact ihelse ⟨memory, globals, locals, stack, host, fuel⟩
  | block label body rest ihbody ih =>
      rw [execBlock_cons, execBlock_cons, exec_block, exec_block]
      refine Outlasts.andThen ?_ ih (onward_execBlock henv rest)
      exact (ihbody s).onBranch label (.same (.next _)) framed_onward.refl
  | loop label body rest ihbody ih =>
      rw [execBlock_cons, execBlock_cons, exec, exec]
      refine Outlasts.andThen ?_ ih (onward_execBlock henv rest)
      exact outlasts_iterate ihbody (onward_execBlock henv body) (Nat.le_refl _) (Nat.le_refl _)

end

/-! ## Runs -/

theorem link_of_load {p : Module} {console : Console} {m : Machine Console}
    (h : load (some p) Host.functions console = .ok m) :
    link Host.functions p.imports = .ok m.linked := by
  rw [load] at h
  split at h
  · cases h
  · split at h
    · cases h
    · next hlink =>
        obtain rfl := Except.ok.inj h
        exact hlink

theorem lasting_of_link {decls : List Import} {linked : List (Linked Console)}
    (h : link Host.functions decls = .ok linked) : Lasting linked := by
  intro l hl
  obtain ⟨f, -, hserve⟩ := Option.map_eq_some_iff.mp ((of_link h).2 l hl)
  rw [← hserve]
  exact f.before_serve

theorem host_run {m : Machine Console} {f : Func}
    (hentry : m.module.func? m.module.entry = some f) (fuel : Nat) :
    (m.run fuel).2.host = (execBlock m.linked f.body (m.start f fuel)).state.host := by
  rw [run, hentry]
  dsimp only
  cases execBlock m.linked f.body (m.start f fuel) with
  | next s =>
      dsimp only
      split <;> rfl
  | branch | halt => rfl

/-- A run with more fuel is the same, or else the run is cancelled and prints no more. -/
theorem run_outlasts {m : Machine Console} (henv : Lasting m.linked) (fuel extra : Nat) :
    m.run (fuel + extra) = m.run fuel ∨
      (m.run fuel).1 = .error .canceled ∧
        (m.run fuel).2.host.Before (m.run (fuel + extra)).2.host := by
  cases hentry : m.module.func? m.module.entry with
  | none =>
      left
      rw [run, run, hentry]
  | some f =>
      have hcode : Outlasts extra (execBlock m.linked f.body (m.start f fuel))
          (execBlock m.linked f.body (m.start f (fuel + extra))) :=
        outlasts_execBlock henv f.body (m.start f fuel)
      rw [host_run hentry, host_run hentry, run, run, hentry]
      dsimp only
      generalize execBlock m.linked f.body (m.start f fuel) = o at hcode ⊢
      generalize execBlock m.linked f.body (m.start f (fuel + extra)) = o' at hcode ⊢
      cases hcode with
      | same =>
          left
          cases o <;> rfl
      | canceled hhost => exact .inr ⟨rfl, hhost⟩

/-- Whatever memory, the global slots and the console hold, more fuel changes nothing about a run
that is not cancelled, and a cancelled run has printed what is printed first with more fuel. -/
theorem cancellation_transparent {p : Module} {console : Console} {m : Machine Console}
    (hload : load (some p) Host.functions console = .ok m) (memory : Memory) (globals : Slots)
    (host : Console) {few many : Nat} (hle : few ≤ many) :
    let fewer := (m.holding memory globals host).run few
    let more := (m.holding memory globals host).run many
    (fewer.1 ≠ .error .canceled → more = fewer) ∧
      (fewer.1 = .error .canceled →
        fewer.2.host.stdout.toList <+: more.2.host.stdout.toList ∧
          fewer.2.host.stderr.toList <+: more.2.host.stderr.toList) := by
  intro fewer more
  have hlink := link_of_load hload
  have henv : Lasting (m.holding memory globals host).linked := lasting_of_link hlink
  obtain ⟨extra, rfl⟩ := Nat.exists_eq_add_of_le hle
  obtain hsame | ⟨hcanceled, hhost⟩ := run_outlasts henv few extra
  · have hmore : more = fewer := hsame
    rw [hmore]
    exact ⟨fun _ => rfl, fun _ => ⟨List.prefix_rfl, List.prefix_rfl⟩⟩
  · exact ⟨fun hnot => absurd hcanceled hnot, fun _ => ⟨hhost.stdout, hhost.stderr⟩⟩

/-- Print one, two and three. -/
def countToThree : Module :=
  moduleOf [⟨"n", .i64⟩]
    [.loop "count" [.localGet "n", .constI64 1, .arith .i64 .add, .localTee "n",
      .call Function.printInt.name, .localGet "n", .constI64 3, .compare .i64 .ltS,
      .branchIf "count"]]

/-- The count, ready to run. -/
def counting : Machine Console where
  module := countToThree
  linked := Host.linked
  memory := initialMemory countToThree
  globals := []
  locals := []
  host := {}

/-- Two iterations are too few for the count, and more than three do not matter. -/
theorem counting_canceled_or_done :
    load (some countToThree) Host.functions {} = .ok counting ∧
      let runs := (counting.holding (Memory.zeros 8) [] {}).run
      (runs 2).1 = .error .canceled ∧
        (runs 2).2.host.stdout.toList <+: (runs 3).2.host.stdout.toList ∧
        (runs 3).1 = .ok () ∧ runs 5 = runs 3 := by
  have hload : load (some countToThree) Host.functions {} = .ok counting := by
    have hvalid : countToThree.validate = .ok () := rfl
    have hlink : link Host.functions countToThree.imports = .ok Host.linked := link_imports
    simp only [load, hvalid, hlink]
    rfl
  have hcanceled : ((counting.holding (Memory.zeros 8) [] {}).run 2).1 = .error .canceled := by
    decide +kernel
  have hdone : ((counting.holding (Memory.zeros 8) [] {}).run 3).1 = .ok () := by decide +kernel
  have htwo := cancellation_transparent hload (Memory.zeros 8) [] {} (by decide : 2 ≤ 3)
  have hthree := cancellation_transparent hload (Memory.zeros 8) [] {} (by decide : 3 ≤ 5)
  refine ⟨hload, hcanceled, (htwo.2 hcanceled).1, hdone, hthree.1 ?_⟩
  rw [hdone]
  rintro ⟨⟩

end ArrayLang.Machine
