import ArrayLang.Proofs.Source.Forms

/-!
# Surplus keys

Reading a program goes from mapping to mapping along the fields of their forms.  An accepted mapping
has all the keys that its form requires, and a mapping with an operator has no other key.  The other
mappings may have further keys, which are not looked at: the program is the same without them.
-/

namespace ArrayLang.Document

/-- Induction over nodes, with one hypothesis for all items or all values. -/
@[elab_as_elim]
theorem Node.induct {P : Node → Prop}
    (scalar : ∀ line tag value, P (.scalar line tag value))
    (sequence : ∀ line tag items, (∀ n ∈ items, P n) → P (.sequence line tag items))
    (mapping : ∀ line tag entries, (∀ entry ∈ entries, P entry.2) → P (.mapping line tag entries))
    (byName : ∀ line name anchor, P (.alias line name anchor))
    (n : Node) : P n :=
  @Node.rec P (fun items => ∀ n ∈ items, P n) (fun entries => ∀ entry ∈ entries, P entry.2)
    (fun entry => P entry.2) scalar sequence mapping byName
    (by simp)
    (fun _ _ hn hrest => List.forall_mem_cons.mpr ⟨hn, hrest⟩)
    (by simp)
    (fun _ _ hentry hrest => List.forall_mem_cons.mpr ⟨hentry, hrest⟩)
    (fun _ _ _ hv => hv)
    n

end ArrayLang.Document

namespace ArrayLang.Source

open Document (Node)
open Typing (ok_of_bind)

variable {decode : Node → Option Bool}

/-! ## Visited nodes -/

/-- Reading a node as `role` comes to the node `m` and reads it as `role'`. -/
inductive Visits (role : Role) (n : Node) : Role → Node → Prop
  | root : Visits role n role n
  | item {role' itemRole : Role} {line : Nat} {tag : String} {items : List Node} {m : Node} :
      Visits role n role' (.sequence line tag items) → role'.item? = some itemRole → m ∈ items →
      Visits role n itemRole m
  | field {role' fieldRole : Role} {line : Nat} {tag : String} {entries : List (Node × Node)}
      {form : Form} {k v : Node} :
      Visits role n role' (.mapping line tag entries) → role'.form? entries = some form →
      (k, v) ∈ entries → form.role? k.text = some fieldRole → Visits role n fieldRole v

theorem Visits.trans {role role' role'' : Role} {n m l : Node} (h : Visits role n role' m)
    (h' : Visits role' m role'' l) : Visits role n role'' l := by
  induction h' with
  | root => exact h
  | item _ hitem hmem ih => exact .item ih hitem hmem
  | field _ hform hmem hrole ih => exact .field ih hform hmem hrole

/-- Something is read from the node. -/
def Role.Accepts (decode : Node → Option Bool) (n : Node) : Role → Prop
  | stmts => ∃ ss, readStmts decode n = .ok ss
  | stmt => ∃ s, readStmt decode n = .ok s
  | expr => ∃ e, readExpr decode n = .ok e
  | exprs => ∃ es, readExprs decode n = .ok es
  | array => ∃ e, readArray decode n = .ok e
  | target => isScalar n = true ∨ ∃ e, readExpr decode n = .ok e
  | text => True

/-- A mapping whose keys lead to a form and to values that are accepted. -/
structure Formed (decode : Node → Option Bool) (role : Role) (entries : List (Node × Node))
    (form : Form) : Prop where
  form_eq : role.form? entries = some form
  distinct : (keysOf entries).Nodup
  required : form.requiredKeys ⊆ keysOf entries
  operator : form ∈ operatorForms → keysOf entries = [form.lead.key]
  fields : ∀ field ∈ form.fields, ∀ v, valueAt? field.key entries = some v →
    field.role.Accepts decode v

section

variable {role : Role} {line : Nat} {tag : String} {entries : List (Node × Node)} {form : Form}

theorem role?_eq_some {key : String} {fieldRole : Role} (h : form.role? key = some fieldRole) :
    ∃ field ∈ form.fields, field.key = key ∧ field.role = fieldRole := by
  obtain ⟨field, hfind, hrole⟩ := Option.map_eq_some_iff.mp h
  exact ⟨field, List.mem_of_find?_eq_some hfind, by simpa using List.find?_some hfind, hrole⟩

theorem mem_keysOf_of_valueAt? {key : String} {v : Node} (h : valueAt? key entries = some v) :
    key ∈ keysOf entries :=
  valueAt?_isSome.mp (by rw [h]; rfl)

theorem readOptional_accepts {α : Type} {read : Node → Read (List α)} {key : String} {v : Node}
    {items : List α} (h : readOptional read (valueAt? key entries) = .ok items)
    (hentry : valueAt? key entries = some v) : ∃ items, read v = .ok items := by
  rw [hentry] at h
  exact ⟨items, h⟩

theorem formed_of_stmtReads {s : Stmt} (hkeys : (keysOf entries).Nodup)
    (h : StmtReads decode entries s) : ∃ form, Formed decode .stmt entries form := by
  have hplain {form : Form} (h : form ∉ operatorForms) :
      form ∈ operatorForms → keysOf entries = [form.lead.key] := fun hmem => absurd hmem h
  cases h with
  | expr hx he =>
      refine ⟨exprForm, ?_, hkeys, ?_, hplain (by decide), ?_⟩
      · simp [Role.form?, Role.forms, exprForm, hx]
      · simpa [Form.requiredKeys, Form.fields, exprForm] using mem_keysOf_of_valueAt? hx
      · simp [Form.fields, exprForm, hx, Role.Accepts, he]
  | assign hexpr htarget hvalue hv =>
      refine ⟨assignForm, ?_, hkeys, ?_, hplain (by decide), ?_⟩
      · simp [Role.form?, Role.forms, exprForm, assignForm, hexpr, htarget]
      · simpa [Form.requiredKeys, Form.fields, assignForm] using
          ⟨mem_keysOf_of_valueAt? htarget, mem_keysOf_of_valueAt? hvalue⟩
      · simp [Form.fields, assignForm, htarget, hvalue, Role.Accepts, hv, isScalar]
  | indexAssign hexpr htarget _ hvalue hv hdst =>
      refine ⟨assignForm, ?_, hkeys, ?_, hplain (by decide), ?_⟩
      · simp [Role.form?, Role.forms, exprForm, assignForm, hexpr, htarget]
      · simpa [Form.requiredKeys, Form.fields, assignForm] using
          ⟨mem_keysOf_of_valueAt? htarget, mem_keysOf_of_valueAt? hvalue⟩
      · simp [Form.fields, assignForm, htarget, hvalue, Role.Accepts, hv, hdst]
  | ifElse hexpr hassign hcond hc hthen helse =>
      refine ⟨ifForm, ?_, hkeys, ?_, hplain (by decide), ?_⟩
      · simp [Role.form?, Role.forms, exprForm, assignForm, ifForm, hexpr, hassign, hcond]
      · simpa [Form.requiredKeys, Form.fields, ifForm] using mem_keysOf_of_valueAt? hcond
      · simp only [Form.fields, ifForm, List.forall_mem_cons]
        refine ⟨?_, fun _ => readOptional_accepts hthen, fun _ => readOptional_accepts helse, ?_⟩
        · simp [hcond, Role.Accepts, hc]
        · simp
  | whileDo hexpr hassign hif hcond hc hbody =>
      refine ⟨whileForm, ?_, hkeys, ?_, hplain (by decide), ?_⟩
      · simp [Role.form?, Role.forms, exprForm, assignForm, ifForm, whileForm, hexpr, hassign, hif,
          hcond]
      · simpa [Form.requiredKeys, Form.fields, whileForm] using mem_keysOf_of_valueAt? hcond
      · simp only [Form.fields, whileForm, List.forall_mem_cons]
        refine ⟨?_, fun _ => readOptional_accepts hbody, ?_⟩
        · simp [hcond, Role.Accepts, hc]
        · simp

/-- An operator is the leading key of a form, and its operand is accepted. -/
theorem exists_operatorForm {operand : Node} {key : String} {e : Expr}
    (h : OperatorReads decode operand key e) :
    ∃ operandRole : Role, operatorForm key operandRole ∈ operatorForms ∧
      operandRole.Accepts decode operand := by
  cases h with
  | neg hx | not hx => exact ⟨.expr, by decide, _, hx⟩
  | array hx => exact ⟨.array, by decide, _, hx⟩
  | index hx => exact ⟨.exprs, by decide, _, hx⟩
  | binary hop hx =>
      exact ⟨.exprs, List.mem_append_right _ (List.mem_map_of_mem hop), _, hx⟩

theorem of_form? (h : role.form? entries = some form) :
    form ∈ role.forms ∧ form.lead.key ∈ keysOf entries := by
  rw [Role.form?] at h
  exact ⟨List.mem_of_find?_eq_some h, valueAt?_isSome.mp (by simpa using List.find?_some h)⟩

/-- A mapping has a form if all its keys, as far as they lead a form, belong to it. -/
theorem form?_eq_some (hmem : form ∈ role.forms) (hlead : form.lead.key ∈ keysOf entries)
    (hkeys : ∀ other ∈ role.forms, other.lead.key ∈ keysOf entries →
      other.lead.key ∈ form.keys) :
    role.form? entries = some form := by
  cases hfind : role.form? entries with
  | none =>
      have hnot := List.find?_eq_none.mp hfind form hmem
      exact absurd (valueAt?_isSome.mpr hlead) hnot
  | some other =>
      obtain ⟨hother, hpresent⟩ := of_form? hfind
      rw [role.eq_of_lead_mem other hother form hmem (hkeys other hother hpresent)]

theorem form?_operator {key operand : Node} {operandRole : Role}
    (hforms : role.forms = callForm :: operatorForms)
    (h : operatorForm key.text operandRole ∈ operatorForms) :
    role.form? [(key, operand)] = some (operatorForm key.text operandRole) := by
  refine form?_eq_some ?_ ?_ fun other _ hlead => ?_
  · rw [hforms]
    exact List.mem_cons_of_mem _ h
  · exact List.mem_cons_self
  · exact hlead

theorem formed_of_exprReads {e : Expr} (hforms : role.forms = callForm :: operatorForms)
    (hkeys : (keysOf entries).Nodup) (h : ExprReads decode entries e) :
    ∃ form, Formed decode role entries form := by
  cases h with
  | call hcall hargs =>
      refine ⟨callForm, ?_, hkeys, ?_, fun hmem => absurd hmem (by decide), ?_⟩
      · simp [Role.form?, hforms, callForm, hcall]
      · simpa [Form.requiredKeys, Form.fields, callForm] using mem_keysOf_of_valueAt? hcall
      · simp only [Form.fields, callForm, List.forall_mem_cons]
        refine ⟨fun _ _ => trivial, fun _ => readOptional_accepts hargs, by simp⟩
  | operator hone hoperator =>
      subst hone
      obtain ⟨operandRole, hmem, haccepts⟩ := exists_operatorForm hoperator
      refine ⟨_, form?_operator hforms hmem, hkeys, ?_, fun _ => rfl, ?_⟩
      · simp [Form.requiredKeys, Form.fields, operatorForm, keysOf]
      · simpa [Form.fields, operatorForm, valueAt?] using haccepts

theorem formed_of_fillReads {e : Expr} (hkeys : (keysOf entries).Nodup)
    (h : FillReads decode entries e) : ∃ form, Formed decode .array entries form := by
  obtain ⟨hlen, hfill, hn, hv⟩ := h
  refine ⟨fillForm, ?_, hkeys, ?_, fun hmem => absurd hmem (by decide), ?_⟩
  · simp [Role.form?, Role.forms, fillForm, hlen]
  · simpa [Form.requiredKeys, Form.fields, fillForm] using
      ⟨mem_keysOf_of_valueAt? hlen, mem_keysOf_of_valueAt? hfill⟩
  · simp [Form.fields, fillForm, hlen, hfill, Role.Accepts, hn, hv]

/-- An accepted mapping has a form. -/
theorem formed_of_accepts (h : role.Accepts decode (.mapping line tag entries))
    (hrole : role ≠ .text) : ∃ form, Formed decode role entries form := by
  cases role with
  | stmts | exprs =>
      obtain ⟨_, hread⟩ := h
      simp only [readStmts, readExprs] at hread
      cases hread
  | stmt =>
      obtain ⟨_, hread⟩ := h
      obtain ⟨hkeys, hreads⟩ := stmtReads_of_readStmt hread
      exact formed_of_stmtReads hkeys hreads
  | expr =>
      obtain ⟨_, hread⟩ := h
      obtain ⟨hkeys, hreads⟩ := exprReads_of_readExpr hread
      exact formed_of_exprReads rfl hkeys hreads
  | target =>
      obtain hscalar | ⟨_, hread⟩ := h
      · cases hscalar
      · obtain ⟨hkeys, hreads⟩ := exprReads_of_readExpr hread
        exact formed_of_exprReads rfl hkeys hreads
  | array =>
      obtain ⟨_, hread⟩ := h
      obtain ⟨hkeys, hreads⟩ := readArray_mapping_iff.mp hread
      exact formed_of_fillReads hkeys hreads
  | text => exact absurd rfl hrole

theorem readStmt_of_mem {items : List Node} {ss : List Stmt}
    (h : readStmtItems decode items = .ok ss) : ∀ m ∈ items, ∃ s, readStmt decode m = .ok s := by
  induction items generalizing ss with
  | nil => simp
  | cons n rest ih =>
      rw [readStmtItems] at h
      obtain ⟨s, hs, hrest⟩ := ok_of_bind h
      obtain ⟨_, hrest, -⟩ := ok_of_bind hrest
      exact List.forall_mem_cons.mpr ⟨⟨s, hs⟩, ih hrest⟩

theorem readExpr_of_mem {items : List Node} {es : List Expr} (h : readItems decode items = .ok es) :
    ∀ m ∈ items, ∃ e, readExpr decode m = .ok e := by
  induction items generalizing es with
  | nil => simp
  | cons n rest ih =>
      rw [readItems] at h
      obtain ⟨e, he, hrest⟩ := ok_of_bind h
      obtain ⟨_, hrest, -⟩ := ok_of_bind hrest
      exact List.forall_mem_cons.mpr ⟨⟨e, he⟩, ih hrest⟩

/-- The items of an accepted list are accepted. -/
theorem accepts_item {items : List Node} {itemRole : Role}
    (h : role.Accepts decode (.sequence line tag items)) (hitem : role.item? = some itemRole) :
    ∀ m ∈ items, itemRole.Accepts decode m := by
  cases role with
  | stmts =>
      obtain ⟨_, hread⟩ := h
      obtain rfl := Option.some.inj hitem
      rw [readStmts] at hread
      exact readStmt_of_mem hread
  | exprs =>
      obtain ⟨_, hread⟩ := h
      obtain rfl := Option.some.inj hitem
      rw [readExprs] at hread
      exact readExpr_of_mem hread
  | array =>
      obtain ⟨_, hread⟩ := h
      obtain rfl := Option.some.inj hitem
      rw [readArray] at hread
      obtain ⟨_, hitems, -⟩ := ok_of_bind hread
      exact readExpr_of_mem hitems
  | stmt | expr | target | text => cases hitem

theorem Formed.accepts (h : Formed decode role entries form) {k v : Node} {fieldRole : Role}
    (hmem : (k, v) ∈ entries) (hrole : form.role? k.text = some fieldRole) :
    fieldRole.Accepts decode v := by
  obtain ⟨field, hfield, hkey, rfl⟩ := role?_eq_some hrole
  exact h.fields field hfield v (hkey ▸ valueAt?_of_mem h.distinct hmem)

/-- Whatever is visited in an accepted node is accepted. -/
theorem Visits.accepts {n m : Node} {role' : Role} (h : Visits role n role' m)
    (haccepts : role.Accepts decode n) : role'.Accepts decode m := by
  induction h with
  | root => exact haccepts
  | item _ hitem hmem ih => exact accepts_item ih hitem _ hmem
  | @field role' _ _ _ _ _ _ _ _ hform hmem hfield ih =>
      have hrole : role' ≠ .text := by
        rintro rfl
        cases hform
      obtain ⟨form, hformed⟩ := formed_of_accepts ih hrole
      obtain rfl := Option.some.inj (hform.symm.trans hformed.form_eq)
      exact hformed.accepts hmem hfield

end

/-! ## Nodes without surplus keys -/

mutual

/-- The node without the keys that its mappings have beyond their forms. -/
def pruned (role : Role) (n : Node) : Node :=
  match n with
  | .mapping line tag entries =>
    match role.form? entries with
    | some form => .mapping line tag (prunedEntries form entries)
    | none => n
  | .sequence line tag items =>
    match role.item? with
    | some itemRole => .sequence line tag (prunedItems itemRole items)
    | none => n
  | .scalar .. | .alias .. => n

/-- The entry with its value without surplus keys. -/
def prunedEntry (role : Role) (entry : Node × Node) : Node × Node :=
  match entry with
  | (k, v) => (k, pruned role v)

/-- The entries whose keys are part of a form. -/
def prunedEntries (form : Form) (entries : List (Node × Node)) : List (Node × Node) :=
  match entries with
  | [] => []
  | entry :: rest =>
    match form.role? entry.1.text with
    | some role => prunedEntry role entry :: prunedEntries form rest
    | none => prunedEntries form rest

/-- All items without surplus keys. -/
def prunedItems (role : Role) (items : List Node) : List Node :=
  match items with
  | [] => []
  | n :: rest => pruned role n :: prunedItems role rest

end

section

variable {role : Role} {line : Nat} {tag : String} {entries : List (Node × Node)} {form : Form}

theorem prunedItems_eq (items : List Node) : prunedItems role items = items.map (pruned role) := by
  induction items with
  | nil => rw [prunedItems, List.map_nil]
  | cons n rest ih => rw [prunedItems, ih, List.map_cons]

theorem pruned_mapping (h : role.form? entries = some form) :
    pruned role (.mapping line tag entries) = .mapping line tag (prunedEntries form entries) := by
  rw [pruned, h]

theorem pruned_sequence {items : List Node} {itemRole : Role} (h : role.item? = some itemRole) :
    pruned role (.sequence line tag items) =
      .sequence line tag (items.map (pruned itemRole)) := by
  rw [pruned, h]
  simp only [prunedItems_eq]

theorem pruned_of_form?_eq_none (h : role.form? entries = none) :
    pruned role (.mapping line tag entries) = .mapping line tag entries := by
  rw [pruned, h]

theorem pruned_of_item?_eq_none {items : List Node} (h : role.item? = none) :
    pruned role (.sequence line tag items) = .sequence line tag items := by
  rw [pruned, h]

theorem prunedEntries_cons_some {k v : Node} {rest : List (Node × Node)} {fieldRole : Role}
    (h : form.role? k.text = some fieldRole) :
    prunedEntries form ((k, v) :: rest) = (k, pruned fieldRole v) :: prunedEntries form rest := by
  rw [prunedEntries, h]
  rfl

theorem prunedEntries_cons_none {k v : Node} {rest : List (Node × Node)}
    (h : form.role? k.text = none) :
    prunedEntries form ((k, v) :: rest) = prunedEntries form rest := by
  rw [prunedEntries, h]

theorem role?_isSome {key : String} : (form.role? key).isSome = true ↔ key ∈ form.keys := by
  simp [Form.role?, Form.keys]

/-- The keys that are left are those of the form. -/
theorem keysOf_prunedEntries :
    keysOf (prunedEntries form entries) = (keysOf entries).filter fun key => key ∈ form.keys := by
  induction entries with
  | nil => rw [prunedEntries]; rfl
  | cons entry rest ih =>
      obtain ⟨k, v⟩ := entry
      have hkeys : keysOf ((k, v) :: rest) = k.text :: keysOf rest := rfl
      cases hrole : form.role? k.text with
      | some fieldRole =>
          have hmem : k.text ∈ form.keys := role?_isSome.mp (by rw [hrole]; rfl)
          rw [prunedEntries_cons_some hrole, hkeys, List.filter_cons_of_pos (by simpa using hmem),
            ← ih]
          rfl
      | none =>
          have hnot : k.text ∉ form.keys := fun h => by simp [← role?_isSome, hrole] at h
          rw [prunedEntries_cons_none hrole, hkeys, List.filter_cons_of_neg (by simpa using hnot),
            ih]

/-- What a key leads to is pruned as its field says. -/
theorem valueAt?_prunedEntries (key : String) :
    valueAt? key (prunedEntries form entries) =
      (form.role? key).bind fun fieldRole => (valueAt? key entries).map (pruned fieldRole) := by
  induction entries with
  | nil =>
      rw [prunedEntries, valueAt?]
      cases form.role? key <;> rfl
  | cons entry rest ih =>
      obtain ⟨k, v⟩ := entry
      by_cases hk : k.text = key
      · subst hk
        rw [valueAt?, if_pos rfl]
        cases hrole : form.role? k.text with
        | some fieldRole =>
            rw [prunedEntries_cons_some hrole, valueAt?, if_pos rfl]
            rfl
        | none =>
            rw [prunedEntries_cons_none hrole, ih, hrole]
            rfl
      · rw [valueAt?, if_neg hk]
        cases hrole : form.role? k.text with
        | some fieldRole => rw [prunedEntries_cons_some hrole, valueAt?, if_neg hk, ih]
        | none => rw [prunedEntries_cons_none hrole, ih]

theorem length_prunedEntries_le (form : Form) (entries : List (Node × Node)) :
    (prunedEntries form entries).length ≤ entries.length := by
  induction entries with
  | nil => simp [prunedEntries]
  | cons entry rest ih =>
      obtain ⟨k, v⟩ := entry
      rw [prunedEntries]
      split <;> simp <;> omega

/-- Nothing is lost if all keys are part of the form and nothing is lost in the values. -/
theorem prunedEntries_eq_self_iff :
    prunedEntries form entries = entries ↔
      ∀ entry ∈ entries, ∃ fieldRole, form.role? entry.1.text = some fieldRole ∧
        pruned fieldRole entry.2 = entry.2 := by
  induction entries with
  | nil => simp [prunedEntries]
  | cons entry rest ih =>
      obtain ⟨k, v⟩ := entry
      rw [List.forall_mem_cons]
      cases hrole : form.role? k.text with
      | some fieldRole =>
          rw [prunedEntries_cons_some hrole, List.cons.injEq, ih]
          simp
      | none =>
          rw [prunedEntries_cons_none hrole]
          constructor
          · intro h
            have hle := length_prunedEntries_le form rest
            rw [h, List.length_cons] at hle
            omega
          · rintro ⟨⟨_, hsome, -⟩, -⟩
            cases hsome

theorem mem_prunedEntries {entry : Node × Node} (h : entry ∈ prunedEntries form entries) :
    ∃ v fieldRole, (entry.1, v) ∈ entries ∧ form.role? entry.1.text = some fieldRole ∧
      entry.2 = pruned fieldRole v := by
  induction entries with
  | nil => simp [prunedEntries] at h
  | cons first rest ih =>
      obtain ⟨k, v⟩ := first
      cases hrole : form.role? k.text with
      | some fieldRole =>
          rw [prunedEntries_cons_some hrole] at h
          rcases List.mem_cons.mp h with rfl | h
          · exact ⟨v, fieldRole, List.mem_cons_self, hrole, rfl⟩
          · obtain ⟨v, fieldRole, hmem, hentry⟩ := ih h
            exact ⟨v, fieldRole, List.mem_cons_of_mem _ hmem, hentry⟩
      | none =>
          rw [prunedEntries_cons_none hrole] at h
          obtain ⟨v, fieldRole, hmem, hentry⟩ := ih h
          exact ⟨v, fieldRole, List.mem_cons_of_mem _ hmem, hentry⟩

/-- A mapping has the same form without its surplus keys. -/
theorem form?_prunedEntries (h : role.form? entries = some form) :
    role.form? (prunedEntries form entries) = some form := by
  obtain ⟨hmem, hlead⟩ := of_form? h
  refine form?_eq_some hmem ?_ fun other _ hother => ?_
  · rw [keysOf_prunedEntries, List.mem_filter]
    exact ⟨hlead, by simp [Form.keys, Form.fields]⟩
  · rw [keysOf_prunedEntries, List.mem_filter] at hother
    simpa using hother.2

/-- Nothing more is lost when a node is pruned again. -/
theorem pruned_pruned (role : Role) (n : Node) : pruned role (pruned role n) = pruned role n := by
  induction n using Node.induct generalizing role with
  | scalar | byName => rw [pruned, pruned]
  | sequence line tag items ih =>
      cases hitem : role.item? with
      | none => rw [pruned_of_item?_eq_none hitem, pruned_of_item?_eq_none hitem]
      | some itemRole =>
          rw [pruned_sequence hitem, pruned_sequence hitem, List.map_map]
          exact congrArg _ (List.map_congr_left fun n hn => ih n hn itemRole)
  | mapping line tag entries ih =>
      cases hform : role.form? entries with
      | none => rw [pruned_of_form?_eq_none hform, pruned_of_form?_eq_none hform]
      | some form =>
          rw [pruned_mapping hform, pruned_mapping (form?_prunedEntries hform),
            prunedEntries_eq_self_iff.mpr]
          intro entry hentry
          obtain ⟨v, fieldRole, hmem, hrole, heq⟩ := mem_prunedEntries hentry
          exact ⟨fieldRole, hrole, by rw [heq, ih _ hmem]⟩

end

/-! ## The same program -/

/-- Whatever is read from a node is read from it without surplus keys. -/
structure Kept (decode : Node → Option Bool) (n : Node) : Prop where
  stmts {ss : List Stmt} : readStmts decode n = .ok ss → readStmts decode (pruned .stmts n) = .ok ss
  stmt {s : Stmt} : readStmt decode n = .ok s → readStmt decode (pruned .stmt n) = .ok s
  expr {e : Expr} : readExpr decode n = .ok e → readExpr decode (pruned .expr n) = .ok e
  exprs {es : List Expr} : readExprs decode n = .ok es → readExprs decode (pruned .exprs n) = .ok es
  array {e : Expr} : readArray decode n = .ok e → readArray decode (pruned .array n) = .ok e

section

variable {role : Role} {line : Nat} {tag : String} {entries : List (Node × Node)}

theorem mem_of_valueAt? {key : String} {v : Node} (h : valueAt? key entries = some v) :
    ∃ k, (k, v) ∈ entries := by
  induction entries with
  | nil => cases h
  | cons entry rest ih =>
      obtain ⟨k, v'⟩ := entry
      rw [valueAt?] at h
      split at h
      · obtain rfl := Option.some.inj h
        exact ⟨k, List.mem_cons_self⟩
      · obtain ⟨k, hmem⟩ := ih h
        exact ⟨k, List.mem_cons_of_mem _ hmem⟩

theorem pruned_target (n : Node) : pruned .target n = pruned .expr n := by
  cases n with
  | sequence => rw [pruned_of_item?_eq_none rfl, pruned_of_item?_eq_none rfl]
  | mapping line tag entries =>
      have hform : Role.target.form? entries = Role.expr.form? entries := rfl
      rw [pruned, pruned, hform]
  | _ => rw [pruned, pruned]

theorem pruned_text (n : Node) : pruned .text n = n := by
  cases n with
  | sequence => rw [pruned_of_item?_eq_none rfl]
  | mapping => rw [pruned_of_form?_eq_none rfl]
  | _ => rw [pruned]

theorem isScalar_pruned (role : Role) (n : Node) : isScalar (pruned role n) = isScalar n := by
  cases n with
  | sequence | mapping =>
      rw [pruned]
      split <;> rfl
  | _ => rw [pruned]

theorem valueAt?_pruned {form : Form} {key : String} {fieldRole : Role} {v : Node}
    (hrole : form.role? key = some fieldRole) (h : valueAt? key entries = some v) :
    valueAt? key (prunedEntries form entries) = some (pruned fieldRole v) := by
  rw [valueAt?_prunedEntries, hrole, h]
  rfl

theorem valueAt?_pruned_eq_none {form : Form} {key : String} (h : valueAt? key entries = none) :
    valueAt? key (prunedEntries form entries) = none := by
  rw [valueAt?_prunedEntries, h]
  cases form.role? key <;> rfl

theorem readOptional_pruned {α : Type} {read : Node → Read (List α)} {form : Form} {key : String}
    {fieldRole : Role} {items : List α} (hrole : form.role? key = some fieldRole)
    (hkept : ∀ v, valueAt? key entries = some v → read v = .ok items →
      read (pruned fieldRole v) = .ok items)
    (h : readOptional read (valueAt? key entries) = .ok items) :
    readOptional read (valueAt? key (prunedEntries form entries)) = .ok items := by
  cases hentry : valueAt? key entries with
  | none =>
      rw [hentry] at h
      rw [valueAt?_pruned_eq_none hentry]
      exact h
  | some v =>
      rw [hentry] at h
      rw [valueAt?_pruned hrole hentry]
      exact hkept v hentry h

/-- A statement is read from the entries of its form alone. -/
theorem StmtReads.pruned {s : Stmt} (h : StmtReads decode entries s)
    (hkept : ∀ key v, valueAt? key entries = some v → Kept decode v) :
    ∃ form, Role.stmt.form? entries = some form ∧
      StmtReads decode (prunedEntries form entries) s := by
  cases h with
  | expr hx he =>
      refine ⟨exprForm, ?_, .expr (valueAt?_pruned rfl hx) ((hkept _ _ hx).expr he)⟩
      simp [Role.form?, Role.forms, exprForm, hx]
  | assign hexpr htarget hvalue hv =>
      have htarget' : valueAt? "assign" (prunedEntries assignForm entries) =
          some (Source.pruned .target _) := valueAt?_pruned rfl htarget
      rw [Source.pruned] at htarget'
      refine ⟨assignForm, ?_, .assign (valueAt?_pruned_eq_none hexpr) htarget'
        (valueAt?_pruned rfl hvalue) ((hkept _ _ hvalue).expr hv)⟩
      simp [Role.form?, Role.forms, exprForm, assignForm, hexpr, htarget]
  | indexAssign hexpr htarget hscalar hvalue hv hdst =>
      have htarget' : valueAt? "assign" (prunedEntries assignForm entries) =
          some (Source.pruned .target _) := valueAt?_pruned rfl htarget
      rw [pruned_target] at htarget'
      refine ⟨assignForm, ?_, .indexAssign (valueAt?_pruned_eq_none hexpr) htarget' ?_
        (valueAt?_pruned rfl hvalue) ((hkept _ _ hvalue).expr hv) ((hkept _ _ htarget).expr hdst)⟩
      · simp [Role.form?, Role.forms, exprForm, assignForm, hexpr, htarget]
      · rw [isScalar_pruned, hscalar]
  | ifElse hexpr hassign hcond hc hthen helse =>
      refine ⟨ifForm, ?_, .ifElse (valueAt?_pruned_eq_none hexpr) (valueAt?_pruned_eq_none hassign)
        (valueAt?_pruned rfl hcond) ((hkept _ _ hcond).expr hc)
        (readOptional_pruned rfl (fun v hentry => (hkept _ _ hentry).stmts) hthen)
        (readOptional_pruned rfl (fun v hentry => (hkept _ _ hentry).stmts) helse)⟩
      simp [Role.form?, Role.forms, exprForm, assignForm, ifForm, hexpr, hassign, hcond]
  | whileDo hexpr hassign hif hcond hc hbody =>
      refine ⟨whileForm, ?_, .whileDo (valueAt?_pruned_eq_none hexpr)
        (valueAt?_pruned_eq_none hassign) (valueAt?_pruned_eq_none hif)
        (valueAt?_pruned rfl hcond) ((hkept _ _ hcond).expr hc)
        (readOptional_pruned rfl (fun v hentry => (hkept _ _ hentry).stmts) hbody)⟩
      simp [Role.form?, Role.forms, exprForm, assignForm, ifForm, whileForm, hexpr, hassign, hif,
        hcond]

theorem OperatorReads.pruned {operand : Node} {key : String} {e : Expr}
    (h : OperatorReads decode operand key e) (hkept : Kept decode operand) :
    ∃ operandRole, operatorForm key operandRole ∈ operatorForms ∧
      OperatorReads decode (pruned operandRole operand) key e := by
  cases h with
  | neg hx => exact ⟨.expr, by decide, .neg (hkept.expr hx)⟩
  | not hx => exact ⟨.expr, by decide, .not (hkept.expr hx)⟩
  | array hx => exact ⟨.array, by decide, .array (hkept.array hx)⟩
  | index hx => exact ⟨.exprs, by decide, .index (hkept.exprs hx)⟩
  | binary hop hx =>
      exact ⟨.exprs, List.mem_append_right _ (List.mem_map_of_mem hop),
        .binary hop (hkept.exprs hx)⟩

/-- An expression is read from the entries of its form alone. -/
theorem ExprReads.pruned {e : Expr} (h : ExprReads decode entries e)
    (hkept : ∀ key v, valueAt? key entries = some v → Kept decode v) :
    ∃ form, Role.expr.form? entries = some form ∧
      ExprReads decode (prunedEntries form entries) e := by
  cases h with
  | @call callee _ hcall hargs =>
      have hcall' : valueAt? "call" (prunedEntries callForm entries) =
          some (Source.pruned .text callee) := valueAt?_pruned rfl hcall
      rw [pruned_text] at hcall'
      refine ⟨callForm, ?_, .call hcall'
        (readOptional_pruned rfl (fun v hentry => (hkept _ _ hentry).exprs) hargs)⟩
      simp [Role.form?, Role.forms, callForm, hcall]
  | @operator key operand _ hone hoperator =>
      subst hone
      obtain ⟨operandRole, hmem, hoperator⟩ :=
        hoperator.pruned (hkept key.text operand (by rw [valueAt?, if_pos rfl]))
      refine ⟨_, form?_operator rfl hmem, .operator ?_ hoperator⟩
      have hrole : (operatorForm key.text operandRole).role? key.text = some operandRole := by
        simp [Form.role?, Form.fields, operatorForm]
      rw [prunedEntries_cons_some hrole, prunedEntries]

theorem FillReads.pruned {e : Expr} (h : FillReads decode entries e)
    (hkept : ∀ key v, valueAt? key entries = some v → Kept decode v) :
    Role.array.form? entries = some fillForm ∧
      FillReads decode (prunedEntries fillForm entries) e := by
  obtain ⟨hlen, hfill, hn, hv⟩ := h
  refine ⟨?_, .arrayFill (valueAt?_pruned rfl hlen) (valueAt?_pruned rfl hfill)
    ((hkept _ _ hlen).expr hn) ((hkept _ _ hfill).expr hv)⟩
  simp [Role.form?, Role.forms, fillForm, hlen]

theorem readStmtItems_pruned {items : List Node} {ss : List Stmt}
    (hkept : ∀ n ∈ items, Kept decode n) (h : readStmtItems decode items = .ok ss) :
    readStmtItems decode (items.map (Source.pruned .stmt)) = .ok ss := by
  induction items generalizing ss with
  | nil => exact h
  | cons n rest ih =>
      obtain ⟨hn, hkept⟩ := List.forall_mem_cons.mp hkept
      rw [readStmtItems] at h
      obtain ⟨s, hs, hrest⟩ := ok_of_bind h
      obtain ⟨ss, hss, hresult⟩ := ok_of_bind hrest
      rw [List.map_cons, readStmtItems, hn.stmt hs, Read.ok_bind, ih hkept hss, Read.ok_bind]
      exact hresult

theorem readItems_pruned {items : List Node} {es : List Expr}
    (hkept : ∀ n ∈ items, Kept decode n) (h : readItems decode items = .ok es) :
    readItems decode (items.map (Source.pruned .expr)) = .ok es := by
  induction items generalizing es with
  | nil => exact h
  | cons n rest ih =>
      obtain ⟨hn, hkept⟩ := List.forall_mem_cons.mp hkept
      rw [readItems] at h
      obtain ⟨e, he, hrest⟩ := ok_of_bind h
      obtain ⟨es, hes, hresult⟩ := ok_of_bind hrest
      rw [List.map_cons, readItems, hn.expr he, Read.ok_bind, ih hkept hes, Read.ok_bind]
      exact hresult

end

theorem keysOf_prunedEntries_nodup {form : Form} {entries : List (Node × Node)}
    (h : (keysOf entries).Nodup) : (keysOf (prunedEntries form entries)).Nodup := by
  rw [keysOf_prunedEntries]
  exact h.filter _

theorem kept_sequence {line : Nat} {tag : String} {items : List Node}
    (hitems : ∀ n ∈ items, Kept decode n) : Kept decode (.sequence line tag items) where
  stmts h := by
    rw [pruned_sequence rfl, readStmts]
    rw [readStmts] at h
    exact readStmtItems_pruned hitems h
  stmt h := by rwa [pruned_of_item?_eq_none rfl]
  expr h := by rwa [pruned_of_item?_eq_none rfl]
  exprs h := by
    rw [pruned_sequence rfl, readExprs]
    rw [readExprs] at h
    exact readItems_pruned hitems h
  array h := by
    rw [pruned_sequence rfl, readArray]
    rw [readArray] at h
    obtain ⟨es, hes, hresult⟩ := ok_of_bind h
    rw [readItems_pruned hitems hes, Read.ok_bind]
    exact hresult

theorem kept_mapping {line : Nat} {tag : String} {entries : List (Node × Node)}
    (hvalues : ∀ entry ∈ entries, Kept decode entry.2) :
    Kept decode (.mapping line tag entries) := by
  have hkept (key : String) (v : Node) (h : valueAt? key entries = some v) : Kept decode v := by
    obtain ⟨k, hmem⟩ := mem_of_valueAt? h
    exact hvalues _ hmem
  constructor
  case stmts => exact fun h => by rwa [pruned_of_form?_eq_none rfl]
  case exprs => exact fun h => by rwa [pruned_of_form?_eq_none rfl]
  case stmt =>
    intro s h
    obtain ⟨hkeys, hreads⟩ := stmtReads_of_readStmt h
    obtain ⟨form, hform, hreads⟩ := hreads.pruned hkept
    rw [pruned_mapping hform]
    exact readStmt_of_stmtReads (keysOf_prunedEntries_nodup hkeys) hreads
  case expr =>
    intro e h
    obtain ⟨hkeys, hreads⟩ := exprReads_of_readExpr h
    obtain ⟨form, hform, hreads⟩ := hreads.pruned hkept
    rw [pruned_mapping hform]
    exact readExpr_of_exprReads (keysOf_prunedEntries_nodup hkeys) hreads
  case array =>
    intro e h
    obtain ⟨hkeys, hreads⟩ := readArray_mapping_iff.mp h
    obtain ⟨hform, hreads⟩ := hreads.pruned hkept
    rw [pruned_mapping hform]
    exact readArray_mapping_iff.mpr ⟨keysOf_prunedEntries_nodup hkeys, hreads⟩

/-- Surplus keys make no difference to what is read. -/
theorem kept (n : Node) : Kept decode n := by
  induction n using Node.induct with
  | scalar | byName => constructor <;> exact fun h => by rwa [pruned]
  | sequence line tag items ih => exact kept_sequence ih
  | mapping line tag entries ih => exact kept_mapping ih

/-! ## Exact key sets -/

/-- Every mapping that is visited has the keys of one form, and no others. -/
def ExactKeys (role : Role) (n : Node) : Prop :=
  ∀ r line tag entries, Visits role n r (.mapping line tag entries) → r ≠ .text →
    ∃ form ∈ r.forms, form.Fits (keysOf entries)

section

variable {role : Role} {n : Node}

/-- Where nothing is lost, nothing is lost in any node that is visited. -/
theorem Visits.pruned_eq {role' : Role} {m : Node} (h : Visits role n role' m)
    (hn : pruned role n = n) : pruned role' m = m := by
  induction h with
  | root => exact hn
  | item _ hitem hmem ih =>
      rw [pruned_sequence hitem] at ih
      injection ih with _ _ hitems
      exact List.map_inj_left.mp (hitems.trans (List.map_id _).symm) _ hmem
  | field _ hform hmem hrole ih =>
      rw [pruned_mapping hform] at ih
      injection ih with _ _ hentries
      obtain ⟨fieldRole, hfield, heq⟩ := prunedEntries_eq_self_iff.mp hentries _ hmem
      obtain rfl := Option.some.inj (hfield.symm.trans hrole)
      exact heq

theorem exactKeys_of_pruned_eq (haccepts : role.Accepts decode n) (hn : pruned role n = n) :
    ExactKeys role n := by
  intro r line tag entries hvisits hr
  obtain ⟨form, hformed⟩ := formed_of_accepts (hvisits.accepts haccepts) hr
  refine ⟨form, (of_form? hformed.form_eq).1, hformed.distinct, hformed.required, ?_⟩
  intro key hkey
  have hself := hvisits.pruned_eq hn
  rw [pruned_mapping hformed.form_eq] at hself
  injection hself with _ _ hentries
  rw [← hentries, keysOf_prunedEntries, List.mem_filter] at hkey
  simpa using hkey.2

theorem pruned_eq_of_exactKeys (haccepts : role.Accepts decode n) (hn : ExactKeys role n) :
    pruned role n = n := by
  induction n using Node.induct generalizing role with
  | scalar | byName => rw [pruned]
  | sequence line tag items ih =>
      cases hitem : role.item? with
      | none => exact pruned_of_item?_eq_none hitem
      | some itemRole =>
          have hitems : items.map (pruned itemRole) = items.map id := by
            refine List.map_congr_left fun m hm => ?_
            have hvisits : Visits role (.sequence line tag items) itemRole m := .item .root hitem hm
            exact ih m hm (hvisits.accepts haccepts) fun r line tag entries h =>
              hn r line tag entries (hvisits.trans h)
          rw [pruned_sequence hitem, hitems, List.map_id]
  | mapping line tag entries ih =>
      by_cases hrole : role = .text
      · rw [hrole, pruned_text]
      obtain ⟨form, hformed⟩ := formed_of_accepts haccepts hrole
      -- The mapping fits a form; its own form is that one, for its leading key is among the keys.
      obtain ⟨fitting, hmem, -, -, hkeys⟩ := hn role line tag entries .root hrole
      obtain ⟨hform, hlead⟩ := of_form? hformed.form_eq
      obtain rfl := role.eq_of_lead_mem form hform fitting hmem (hkeys hlead)
      rw [pruned_mapping hformed.form_eq, prunedEntries_eq_self_iff.mpr]
      intro ⟨k, v⟩ hentry
      have hkey : k.text ∈ form.keys := hkeys (List.mem_map_of_mem hentry)
      obtain ⟨fieldRole, hfield⟩ := Option.isSome_iff_exists.mp (role?_isSome.mpr hkey)
      have hvisits : Visits role (.mapping line tag entries) fieldRole v :=
        .field .root hformed.form_eq hentry hfield
      exact ⟨fieldRole, hfield, ih _ hentry (hvisits.accepts haccepts)
        fun r line tag entries h => hn r line tag entries (hvisits.trans h)⟩

/-- The keys of an accepted document are exact where nothing can be taken away. -/
theorem exactKeys_iff (haccepts : role.Accepts decode n) : ExactKeys role n ↔ pruned role n = n :=
  ⟨pruned_eq_of_exactKeys haccepts, exactKeys_of_pruned_eq haccepts⟩

end

/-- In an accepted document, every mapping has the keys that its form requires, each once, and a
mapping with an operator has no other key.  Whatever other keys there are make no difference:
without them, the keys are exact and the program is the same. -/
theorem program_without_surplus_keys {decode : Node → Option Bool} {n : Node}
    {program : List Stmt} (h : readStmts decode n = .ok program) :
    (∀ role line tag entries, Visits .stmts n role (.mapping line tag entries) → role ≠ .text →
      ∃ form, role.form? entries = some form ∧ (keysOf entries).Nodup ∧
        form.requiredKeys ⊆ keysOf entries ∧
        (form ∈ operatorForms → keysOf entries = [form.lead.key])) ∧
    readStmts decode (pruned .stmts n) = .ok program ∧
    ExactKeys .stmts (pruned .stmts n) ∧
    (ExactKeys .stmts n ↔ pruned .stmts n = n) := by
  have haccepts : Role.stmts.Accepts decode n := ⟨program, h⟩
  have hpruned : readStmts decode (pruned .stmts n) = .ok program := (kept n).stmts h
  refine ⟨fun role line tag entries hvisits hrole => ?_, hpruned, ?_, exactKeys_iff haccepts⟩
  · obtain ⟨form, hformed⟩ := formed_of_accepts (hvisits.accepts haccepts) hrole
    exact ⟨form, hformed.form_eq, hformed.distinct, hformed.required, hformed.operator⟩
  · exact exactKeys_of_pruned_eq ⟨program, hpruned⟩ (pruned_pruned .stmts n)

theorem readStmts_singleton {line : Nat} {tag : String} {n : Node} {s : Stmt}
    (h : readStmt decode n = .ok s) : readStmts decode (.sequence line tag [n]) = .ok [s] := by
  rw [readStmts_sequence, readStmtItems, readStmtItems, h]
  rfl

/-- `- {assign: a, value: {array: {len: n, fill: n, step: n}}}`. -/
def fillWithStep : Node :=
  let n : Node := .scalar 1 "!!str" "n"
  .sequence 1 "!!seq" [form 1 [("assign", .scalar 1 "!!str" "a"),
    ("value", form 1 [("array", form 1 [("len", n), ("fill", n), ("step", n)])])]]

theorem fillWithStep_without_surplus_keys :
    let program : List Stmt :=
      [.assign "a" (.arrayFill .invalid (.var .invalid "n") (.var .invalid "n"))]
    readStmts truth? fillWithStep = .ok program ∧
    readStmts truth? (pruned .stmts fillWithStep) = .ok program ∧
    ExactKeys .stmts (pruned .stmts fillWithStep) := by
  intro program
  have hn : readExpr truth? (.scalar 1 "!!str" "n") = .ok (.var .invalid "n") :=
    readExpr_var (by decide)
  have hread : readStmts truth? fillWithStep = .ok program :=
    readStmts_singleton (readStmt_of_stmtReads (by decide) (.assign rfl rfl rfl
      (readExpr_of_exprReads (by decide) (.operator rfl
        (.array (readArray_mapping_iff.mpr ⟨by decide, .arrayFill rfl rfl hn hn⟩))))))
  obtain ⟨-, hpruned, hexact, -⟩ := program_without_surplus_keys hread
  exact ⟨hread, hpruned, hexact⟩

/-- `- {expr: {call: print, args: [x], add: [x, y]}}`. -/
def printWithSum : Node :=
  let x : Node := .scalar 1 "!!str" "x"
  let y : Node := .scalar 1 "!!str" "y"
  .sequence 1 "!!seq" [form 1 [("expr", form 1 [("call", .scalar 1 "!!str" "print"),
    ("args", .sequence 1 "!!seq" [x]), ("add", .sequence 1 "!!seq" [x, y])])]]

/-- A call is accepted beside an operator, which is dropped. -/
theorem printWithSum_keys_not_exact :
    readStmts truth? printWithSum = .ok [.expr (.call .invalid "print" [.var .invalid "x"])] ∧
    ¬ ExactKeys .stmts printWithSum := by
  constructor
  · have hargs : readExprs truth? (.sequence 1 "!!seq" [.scalar 1 "!!str" "x"]) =
        .ok [.var .invalid "x"] := by
      rw [readExprs_sequence, readItems, readItems, readExpr_var (by decide)]
      rfl
    refine readStmts_singleton (readStmt_of_stmtReads (by decide) (.expr rfl ?_))
    exact readExpr_of_exprReads (by decide)
      (@ExprReads.call _ _ (.scalar 1 "!!str" "print") _ rfl hargs)
  · intro hexact
    have hstmt : Visits .stmts printWithSum .stmt _ := .item .root rfl List.mem_cons_self
    have hexpr : Visits .stmts printWithSum .expr _ :=
      hstmt.field (show _ = some exprForm from rfl) List.mem_cons_self rfl
    obtain ⟨form, hmem, -, -, hkeys⟩ := hexact _ _ _ _ hexpr (by decide)
    have hno : ∀ form ∈ Role.expr.forms, "call" ∈ form.keys → "add" ∉ form.keys := by decide
    exact hno form hmem (hkeys (by decide)) (hkeys (by decide))

end ArrayLang.Source
