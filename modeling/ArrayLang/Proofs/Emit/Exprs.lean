import ArrayLang.Proofs.Emit.Arrays

/-!
# Code for expressions is correct

The code of a well-typed expression in normal form leaves the value of the expression on the stack,
whatever lies below it, and does to the world what the evaluation does.
-/

namespace ArrayLang.Reference

open Source Code Machine Emit Host Typing

variable {t : Target} {α : Type} {R : Slots → Prop} {st : List UInt64}

/-- No condition on the slots. -/
def Free (_ : Slots) : Prop := True

/-- The stack with the value of an expression on it. -/
def pushed (ty : Ty) (value : UInt64) (st : List UInt64) : List UInt64 :=
  if ty = .void then st else value :: st

/-- Code computes an expression. -/
def Computes (t : Target) (e : Expr) (code : Block) : Prop :=
  ∀ st, Implements t (At Free st) code (evalExpr t e) fun value => At Free (pushed e.ty value st)

theorem computes_iff {e : Expr} {code : Block} (hty : e.ty ≠ .void) :
    Computes t e code ↔
      ∀ st, Implements t (At Free st) code (evalExpr t e) fun value => At Free (value :: st) := by
  simp [Computes, pushed, hty]

theorem At.free {s : State Console} (h : At R st s) : At Free st s := ⟨h.stack, trivial⟩

theorem Agree.reads {w : World} {s : State Console} (h : Agree t w s) (names : List String) :
    Agree t (w.reads names) s :=
  ⟨h.memory, h.vars, h.frontier, h.console, h.fuel⟩

/-- A computation that starts by reading variables. -/
theorem Implements.of_reads {Q : α → State Console → Prop} {code : Block} {x : Eval α}
    {f : (String → UInt64) → Eval α} (names : List String)
    (hx : ∀ w, x w = f w.vars (w.reads names))
    (hf : ∀ vars, Implements t (At (Holds vars) st) code (f vars) Q) :
    Implements t (At R st) code x Q := by
  intro s w hagree hs
  rw [hx]
  have hfollows := hf w.vars s _ (hagree.reads names) ⟨hs.stack, hagree.holds⟩
  exact hfollows.of_accesses_eq (by simp)

theorem computes_of_reads {e : Expr} {code : Block} {f : (String → UInt64) → Eval UInt64}
    (hty : e.ty ≠ .void) (hx : ∀ w, evalExpr t e w = f w.vars (w.reads e.names))
    (hf : ∀ vars st, Implements t (At (Holds vars) st) code (f vars) fun value =>
      At (Holds vars) (value :: st)) :
    Computes t e code := by
  rw [computes_iff hty]
  intro st
  refine Implements.of_reads e.names hx fun vars => ?_
  exact (hf vars st).mono (fun _ hs => hs) fun _ _ hs => hs.free

/-! ## Operators -/

theorem computes_atom {e : Expr} (h : Plain e) (hty : e.ty ≠ .void) :
    Computes t e (atomCode e) :=
  computes_of_reads hty (fun w => evalExpr_atom t w h.atomic)
    fun _ _ => Implements.pure (turns_atom h) fun _ hs => hs

theorem computes_neg {x : Expr} {code : Block} (hx : Computes t x code) (hty : x.ty = .int) :
    Computes t (.unary .int .neg x) (.constI64 0 :: code ++ [.arith .i64 .sub]) := by
  rw [computes_iff (by simp [hty])] at hx
  rw [computes_iff (by simp [Expr.ty]), evalExpr]
  intro st
  refine Implements.bind (Implements.prepare (turns_constI64 0) (hx _)) fun v => ?_
  exact Implements.pure (turns_arith rfl) fun _ hs => hs

theorem computes_not {x : Expr} {code : Block} (hx : Computes t x code) (hty : x.ty = .bool) :
    Computes t (.unary .bool .not x) (code ++ [i32Const 0, .compare .i32 .eq]) := by
  rw [computes_iff (by simp [hty])] at hx
  rw [computes_iff (by simp [Expr.ty]), evalExpr]
  intro st
  refine Implements.bind (hx st) fun v => ?_
  exact Implements.pure (.step (turns_i32Const 0) (turns_compare rfl)) fun _ hs => hs

/-- The instruction of an operator that evaluates both operands; `ty` is the type of the left
one. -/
def binaryInstr (op : BinaryOp) (ty : Ty) : Instr :=
  match op with
  | .add => .arith .i64 .add
  | .sub => .arith .i64 .sub
  | .mul => .arith .i64 .mul
  | .eq => .compare (if ty = .int then .i64 else .i32) .eq
  | .ne => .compare (if ty = .int then .i64 else .i32) .ne
  | .lt => .compare .i64 .ltS
  | .le => .compare .i64 .leS
  | .gt => .compare .i64 .gtS
  | .ge => .compare .i64 .geS
  | .is => .compare .i32 .eq
  | .and | .or | .unknown _ => .trap

/-- An operator evaluates both operands, and its left operand may have this type. -/
def IsStrict (op : BinaryOp) (ty : Ty) : Prop :=
  op ∈ [.add, .sub, .mul, .lt, .le, .gt, .ge, .is] ∨ op ∈ [.eq, .ne] ∧ ty ∈ [.int, .bool]

theorem binaryCode_eq {op : BinaryOp} {ty : Ty} (h : IsStrict op ty) (left right : Block) :
    binaryCode op ty left right = pure (left ++ right ++ [binaryInstr op ty]) := by
  simp only [IsStrict, List.mem_cons, List.not_mem_nil, or_false] at h
  rcases h with (rfl | rfl | rfl | rfl | rfl | rfl | rfl | rfl) | ⟨rfl | rfl, rfl | rfl⟩ <;> rfl

theorem turns_binaryInstr {op : BinaryOp} {ty : Ty} (h : IsStrict op ty) (x y : UInt64) :
    Turns R (y :: x :: st) [binaryInstr op ty] (binaryValue op ty x y :: st) := by
  simp only [IsStrict, List.mem_cons, List.not_mem_nil, or_false] at h
  rcases h with (rfl | rfl | rfl | h) | ⟨hop, hty⟩
  · exact turns_arith rfl
  · exact turns_arith rfl
  · exact turns_arith rfl
  · rcases h with rfl | rfl | rfl | rfl | rfl <;> exact turns_compare rfl
  · rcases hop with rfl | rfl <;> rcases hty with rfl | rfl <;> exact turns_compare rfl

theorem IsStrict.ne {op : BinaryOp} {ty : Ty} (h : IsStrict op ty) : op ≠ .and ∧ op ≠ .or := by
  simp only [IsStrict, List.mem_cons, List.not_mem_nil, or_false] at h
  rcases h with (rfl | rfl | rfl | rfl | rfl | rfl | rfl | rfl) | ⟨rfl | rfl, _⟩ <;> simp

theorem computes_strict {op : BinaryOp} {ty : Ty} {left right : Expr} {l r : Block}
    (h : IsStrict op left.ty) (hty : ty ≠ .void)
    (hl : Computes t left l) (hlty : left.ty ≠ .void)
    (hr : Computes t right r) (hrty : right.ty ≠ .void) :
    Computes t (.binary ty op left right) (l ++ r ++ [binaryInstr op left.ty]) := by
  rw [computes_iff hlty] at hl
  rw [computes_iff hrty] at hr
  rw [computes_iff (e := .binary ty op left right) hty, evalExpr_strict t h.ne.1 h.ne.2,
    List.append_assoc]
  intro st
  refine Implements.bind (hl st) fun x => ?_
  refine Implements.bind (hr _) fun y => ?_
  exact Implements.pure (turns_binaryInstr h x y) fun _ hs => hs

theorem computes_and {left right : Expr} {l r : Block}
    (hl : Computes t left l) (hlty : left.ty = .bool)
    (hr : Computes t right r) (hrty : right.ty = .bool) :
    Computes t (.binary .bool .and left right) (l ++ [.ifElse .i32 r [i32Const 0]]) := by
  rw [computes_iff (by simp [hlty])] at hl
  rw [computes_iff (by simp [hrty])] at hr
  rw [computes_iff (by simp [Expr.ty]), evalExpr]
  intro st
  refine Implements.bind (hl st) fun x => Implements.note rfl ?_
  exact Implements.ifElse .i32 x (hr st) (Implements.pure (turns_i32Const 0) fun _ hs => hs)

theorem computes_or {left right : Expr} {l r : Block}
    (hl : Computes t left l) (hlty : left.ty = .bool)
    (hr : Computes t right r) (hrty : right.ty = .bool) :
    Computes t (.binary .bool .or left right) (l ++ [.ifElse .i32 [i32Const 1] r]) := by
  rw [computes_iff (by simp [hlty])] at hl
  rw [computes_iff (by simp [hrty])] at hr
  rw [computes_iff (by simp [Expr.ty]), evalExpr]
  intro st
  refine Implements.bind (hl st) fun x => Implements.note rfl ?_
  exact Implements.ifElse .i32 x (Implements.pure (turns_i32Const 1) fun _ hs => hs) (hr st)

/-! ## Calls -/

theorem emitted_printFunction (t : Target) {ty : Ty} (h : IsValue ty) :
    Emitted (printFunction ty) fun f => ∀ st value, Implements t (At Free (value :: st))
      [.call f.name] (do print ty value; return (0 : UInt64)) fun _ => At Free st := by
  have hcall : ∀ (f : Host.Function) (vt : ValType), f.params = [vt] → f.results = [] →
      (∀ memory console value, f.serve memory [narrow vt value] console =
        ⟨memory, console.print (valueText ty value), .ok []⟩) →
      ∀ st value, Implements t (At Free (value :: st)) [.call f.name]
        (do print ty value; return (0 : UInt64)) fun _ => At Free st := by
    rintro f vt hparams hresults hserve st value ⟨memory, globals, locals, stack, host, fuel⟩ w
      hagree ⟨hstack, -⟩
    subst hstack
    rw [observe_print memory globals locals st host fuel [] hparams hresults
      (hserve memory host value), observe_nil, run_bind_ok w (run_print w ty value), run_pure]
    refine .ok ⟨hagree.memory, hagree.vars, hagree.frontier, ?_, hagree.fuel⟩ ?_ ⟨rfl, trivial⟩
    · exact congrArg (Console.print · _) hagree.console
    · exact (List.append_nil _).symm
  cases h with
  | int => exact Emitted.pure (hcall .printInt .i64 rfl rfl fun _ _ _ => rfl)
  | bool =>
      refine Emitted.pure (hcall .printBool .i32 rfl rfl ?_)
      intro memory console value
      simp only [Host.Function.serve, narrow, if_true, UInt32.toUInt32_toUInt64, valueText]
  | array =>
      refine Emitted.pure (hcall .printRef .i32 rfl rfl ?_)
      intro memory console value
      simp only [Host.Function.serve, narrow, if_true, UInt32.toUInt32_toUInt64, valueText]

theorem implements_input :
    Implements t (At Free st) [.call Host.Function.readInt.name] input
      fun value => At Free (value :: st) := by
  rintro ⟨memory, globals, locals, stack, host, fuel⟩ w hagree ⟨rfl, -⟩
  obtain rfl : host = w.console := hagree.console
  rcases hread : w.console.input.readInt with ⟨answer, rest⟩
  cases answer with
  | ok value =>
      rw [observe_readInt_ok _ _ _ _ _ _ _ hread, observe_nil, run_input_ok w hread]
      refine .ok ⟨hagree.memory, hagree.vars, hagree.frontier, rfl, hagree.fuel⟩ ?_ ⟨rfl, trivial⟩
      exact (List.append_nil _).symm
  | error e =>
      rw [observe_readInt_error _ _ _ _ _ _ _ hread, run_input_error w hread]
      refine .halt ⟨hagree.memory, hagree.vars, hagree.frontier, rfl, hagree.fuel⟩ ?_
      exact (List.append_nil _).symm

theorem computes_print {x : Expr} {code : Block} {f : Host.Function}
    (hx : Computes t x code) (hty : x.ty ≠ .void)
    (hf : ∀ st value, Implements t (At Free (value :: st)) [.call f.name]
      (do print x.ty value; return (0 : UInt64)) fun _ => At Free st) :
    Computes t (.call .void Builtin.print.text [x]) (code ++ [.call f.name]) := by
  rw [computes_iff hty] at hx
  intro st
  rw [evalExpr, evalExprs_singleton, bind_assoc]
  refine Implements.bind (hx st) fun value => ?_
  rw [pure_bind, callValue_print]
  exact hf st value

theorem computes_len {x : Expr} {code : Block} (hx : Computes t x code) (hty : x.ty ≠ .void) :
    Computes t (.call .int Builtin.len.text [x]) (lengthOf code) := by
  rw [computes_iff hty] at hx
  rw [computes_iff (by simp [Expr.ty]), evalExpr, evalExprs_singleton, bind_assoc]
  intro st
  refine Implements.bind (hx st) fun array => ?_
  rw [pure_bind, callValue_len]
  exact Implements.map (implements_length .length array) fun _ _ hs => hs

/-! ## All expressions -/

section

variable {names names' : List String}

theorem noScratch_append :
    NoScratch (names ++ names') ↔ NoScratch names ∧ NoScratch names' := by
  simp only [NoScratch, List.mem_append, not_or]
  constructor
  · rintro ⟨⟨ha, ha'⟩, hc, hc'⟩
    exact ⟨⟨ha, hc⟩, ha', hc'⟩
  · rintro ⟨⟨ha, hc⟩, ha', hc'⟩
    exact ⟨⟨ha, ha'⟩, hc, hc'⟩

theorem NoScratch.of_mem {es : List Expr} (h : NoScratch (Expr.listNames es)) {e : Expr}
    (he : e ∈ es) : NoScratch e.names :=
  ⟨fun hmem => h.1 (Expr.mem_listNames.mpr ⟨e, he, hmem⟩),
    fun hmem => h.2 (Expr.mem_listNames.mpr ⟨e, he, hmem⟩)⟩

end

variable {env : Env}

theorem emitted_exprs_singleton {x : Expr} (h : Emitted (expr t x) (Computes t x)) :
    Emitted (exprs t [x]) (Computes t x) := by
  rw [exprs]
  refine h.bind ?_
  intro code hcode
  rw [exprs, pure_bind, List.append_nil]
  exact Emitted.pure hcode

theorem emitted_strict {op : BinaryOp} {ty : Ty} {left right : Expr}
    (haccept : Emitted (accept t (.binary ty op left right)) fun _ => True)
    (h : IsStrict op left.ty) (hty : ty ≠ .void)
    (hl : Emitted (expr t left) (Computes t left)) (hlty : left.ty ≠ .void)
    (hr : Emitted (expr t right) (Computes t right)) (hrty : right.ty ≠ .void) :
    Emitted (expr t (.binary ty op left right)) (Computes t (.binary ty op left right)) := by
  rw [expr]
  refine haccept.bind fun _ _ => hl.bind fun l hl => hr.bind fun r hr => ?_
  rw [binaryCode_eq h]
  exact Emitted.pure (computes_strict h hty hl hlty hr hrty)

theorem callCode_print (x : Expr) (code : Block) :
    callCode t Builtin.print.text [x] code = do
      let f ← printFunction x.ty
      return code ++ [.call f.name] := rfl

theorem callCode_len (x : Expr) (code : Block) :
    callCode t Builtin.len.text [x] code = do
      requireTier t "len" .array
      return lengthOf code := rfl

theorem normal_singleton {ty : Ty} {name : String} {x : Expr}
    (hnormal : (Expr.call ty name [x]).isNormal = true)
    (hnames : NoScratch (Expr.call ty name [x]).names) :
    x.isNormal = true ∧ NoScratch x.names := by
  simpa [Expr.isNormal, Expr.listNormal, Expr.names, Expr.listNames] using And.intro hnormal hnames

theorem plain_of_listNormal {elems : List Expr} (hatomic : elems.all Expr.isAtomic = true)
    (hnames : NoScratch (Expr.listNames elems)) : ∀ e ∈ elems, Plain e :=
  fun e he => ⟨List.all_eq_true.mp hatomic e he, hnames.of_mem he⟩

/-- Code generation succeeds for a well-typed expression in normal form, and its code computes the
expression. -/
theorem emitted_expr {e : Expr} {ty : Ty}
    (hmax : t.tier.admits .array = true → 0 < t.maxArrayBytes)
    (h : HasType t.tier env e ty) (hnormal : e.isNormal = true) (hnames : NoScratch e.names) :
    Emitted (expr t e) (Computes t e) := by
  have haccept := emitted_accept h
  induction h with
  | int hloop =>
      rw [expr]
      refine haccept.bind fun _ _ => Emitted.pure ?_
      exact computes_atom ⟨rfl, hnames⟩ (by simp [Expr.ty])
  | bool hloop =>
      rw [expr]
      refine haccept.bind fun _ _ => Emitted.pure ?_
      exact computes_atom ⟨rfl, hnames⟩ (by simp [Expr.ty])
  | var hloop hfind hvalue =>
      rw [expr]
      refine haccept.bind fun _ _ => Emitted.pure ?_
      exact computes_atom ⟨rfl, hnames⟩ hvalue.ne_void
  | neg hx ih =>
      rw [expr]
      refine haccept.bind fun _ _ => (ih hnormal hnames (emitted_accept hx)).bind ?_
      intro code hcode
      exact Emitted.pure (computes_neg hcode hx.ty_eq)
  | not hx ih =>
      rw [expr]
      refine haccept.bind fun _ _ => (ih hnormal hnames (emitted_accept hx)).bind ?_
      intro code hcode
      exact Emitted.pure (computes_not hcode hx.ty_eq)
  | arith hop hl hr ihl ihr =>
      obtain ⟨hnl, hnr⟩ := Bool.and_eq_true_iff.mp hnormal
      obtain ⟨hsl, hsr⟩ := noScratch_append.mp hnames
      refine emitted_strict haccept (Or.inl ?_) (by simp)
        (ihl hnl hsl (emitted_accept hl)) (by simp [hl.ty_eq])
        (ihr hnr hsr (emitted_accept hr)) (by simp [hr.ty_eq])
      exact List.mem_append_left [.lt, .le, .gt, .ge, .is] hop
  | order hop hl hr ihl ihr =>
      obtain ⟨hnl, hnr⟩ := Bool.and_eq_true_iff.mp hnormal
      obtain ⟨hsl, hsr⟩ := noScratch_append.mp hnames
      refine emitted_strict haccept (Or.inl ?_) (by simp)
        (ihl hnl hsl (emitted_accept hl)) (by simp [hl.ty_eq])
        (ihr hnr hsr (emitted_accept hr)) (by simp [hr.ty_eq])
      exact List.mem_append_right [.add, .sub, .mul] (List.mem_append_left [.is] hop)
  | equality hop hty hl hr ihl ihr =>
      obtain ⟨hnl, hnr⟩ := Bool.and_eq_true_iff.mp hnormal
      obtain ⟨hsl, hsr⟩ := noScratch_append.mp hnames
      have hvoid : ∀ ty ∈ [Ty.int, .bool], ty ≠ .void := by decide
      refine emitted_strict haccept (Or.inr ⟨hop, ?_⟩) (by simp)
        (ihl hnl hsl (emitted_accept hl)) ?_ (ihr hnr hsr (emitted_accept hr)) ?_
      · rw [hl.ty_eq]
        exact hty
      · rw [hl.ty_eq]
        exact hvoid _ hty
      · rw [hr.ty_eq]
        exact hvoid _ hty
  | identity hl hr ihl ihr =>
      obtain ⟨hnl, hnr⟩ := Bool.and_eq_true_iff.mp hnormal
      obtain ⟨hsl, hsr⟩ := noScratch_append.mp hnames
      exact emitted_strict haccept (Or.inl (by simp)) (by simp)
        (ihl hnl hsl (emitted_accept hl)) (by simp [hl.ty_eq])
        (ihr hnr hsr (emitted_accept hr)) (by simp [hr.ty_eq])
  | logic hop hl hr ihl ihr =>
      obtain ⟨hnl, hnr⟩ := Bool.and_eq_true_iff.mp hnormal
      obtain ⟨hsl, hsr⟩ := noScratch_append.mp hnames
      rw [expr]
      refine haccept.bind fun _ _ => (ihl hnl hsl (emitted_accept hl)).bind fun l hcl => ?_
      refine (ihr hnr hsr (emitted_accept hr)).bind fun r hcr => ?_
      simp only [List.mem_cons, List.not_mem_nil, or_false] at hop
      rcases hop with rfl | rfl
      · exact Emitted.pure (computes_and hcl hl.ty_eq hcr hr.ty_eq)
      · exact Emitted.pure (computes_or hcl hl.ty_eq hcr hr.ty_eq)
  | print hx hvalue ih =>
      obtain ⟨hn, hs⟩ := normal_singleton hnormal hnames
      rw [expr]
      refine haccept.bind fun _ _ =>
        (emitted_exprs_singleton (ih hn hs (emitted_accept hx))).bind fun code hcode => ?_
      rw [callCode_print, hx.ty_eq]
      refine (emitted_printFunction t hvalue).bind fun f hf => Emitted.pure ?_
      have hty := hx.ty_eq
      exact computes_print hcode (hty ▸ hvalue.ne_void) (hty ▸ hf)
  | input hloop =>
      rw [expr]
      refine haccept.bind fun _ _ => ?_
      rw [exprs, pure_bind]
      refine Emitted.pure ?_
      rw [computes_iff (by simp [Expr.ty]), evalExpr, evalExprs, pure_bind, callValue_input]
      exact fun st => implements_input
  | len harray hx ih =>
      obtain ⟨hn, hs⟩ := normal_singleton hnormal hnames
      rw [expr]
      refine haccept.bind fun _ _ =>
        (emitted_exprs_singleton (ih hn hs (emitted_accept hx))).bind fun code hcode => ?_
      rw [callCode_len]
      refine (emitted_requireTier _ harray).bind fun _ _ => Emitted.pure ?_
      exact computes_len hcode (by simp [hx.ty_eq])
  | arrayLit harray helem hne helems ih =>
      have hplain := plain_of_listNormal hnormal hnames
      rw [expr]
      refine haccept.bind fun _ _ => ?_
      refine (emitted_arrayLit harray (hmax harray) helem _ helems hplain).mono fun code hcode => ?_
      refine computes_of_reads (by simp [Expr.ty]) (fun w => ?_) hcode
      rw [evalExpr, run_bind_ok w (evalExprs_atoms t w hnormal)]
      rfl
  | arrayFill harray helem hlength hfill ihl ihf =>
      obtain ⟨hal, haf⟩ := Bool.and_eq_true_iff.mp hnormal
      obtain ⟨hsl, hsf⟩ := noScratch_append.mp hnames
      rw [expr]
      refine haccept.bind fun _ _ => ?_
      refine (emitted_arrayFill harray (hmax harray) helem hlength hfill ⟨hal, hsl⟩
        ⟨haf, hsf⟩).mono fun code hcode => ?_
      refine computes_of_reads (by simp [Expr.ty]) (fun w => ?_) hcode
      rw [evalExpr, run_bind_ok w (evalExpr_atom t w hal), run_bind_ok _ (evalExpr_atom t _ haf),
        World.reads_reads]
      rfl
  | index harray ha hi iha ihi =>
      obtain ⟨haa, hai⟩ := Bool.and_eq_true_iff.mp hnormal
      obtain ⟨hsa, hsi⟩ := noScratch_append.mp hnames
      rw [expr]
      refine haccept.bind fun _ _ => ?_
      refine (emitted_elementRead ha hi ⟨haa, hsa⟩ ⟨hai, hsi⟩).mono fun code hcode => ?_
      refine computes_of_reads ha.elem_isValue.ne_void (fun w => ?_) hcode
      rw [evalExpr, run_bind_ok w (evalExpr_atom t w haa), run_bind_ok _ (evalExpr_atom t _ hai),
        World.reads_reads, ha.ty_eq]
      rfl

end ArrayLang.Reference
