import ArrayLang.Proofs.Source.RoundTrip
import ArrayLang.Proofs.Typing.Checked

/-!
# Forms of mappings

Program documents have a form for every kind of statement and expression: the keys that a mapping
must have, and those that it may have.  A mapping is known by its leading key; where it has the
leading keys of several forms, the first one counts.

What reading a mapping comes to is said here in terms of the values under its keys.
-/

namespace ArrayLang.Source

open Document (Node)
open Typing (ok_of_bind)

variable {decode : Node → Option Bool}

/-! ## Forms -/

/-- What a node of a program document is read as. -/
inductive Role where
  /-- A list of statements. -/
  | stmts
  | stmt
  | expr
  /-- A list of expressions. -/
  | exprs
  /-- The elements of an array, or its length and fill. -/
  | array
  /-- The target of an assignment: a name, or else an expression. -/
  | target
  /-- A text that is taken as it is; nothing in the node is looked at. -/
  | text
  deriving DecidableEq, Repr

/-- A key of a form, and what the value under it is read as. -/
structure Field where
  key : String
  role : Role
  required : Bool := true
  deriving DecidableEq, Repr

/-- The keys of one kind of mapping. -/
structure Form where
  /-- The key that tells this form from others. -/
  lead : Field
  others : List Field := []
  deriving DecidableEq, Repr

namespace Form

/-- All fields of a form. -/
def fields (form : Form) : List Field := form.lead :: form.others

/-- The keys that a mapping of this form may have. -/
def keys (form : Form) : List String := form.fields.map Field.key

/-- The keys that a mapping of this form must have. -/
def requiredKeys (form : Form) : List String := (form.fields.filter Field.required).map Field.key

/-- What the value under a key is read as; nothing for a key that is no part of the form. -/
def role? (form : Form) (key : String) : Option Role :=
  (form.fields.find? fun field => field.key = key).map Field.role

/-- These are the keys of a mapping of the form: none is missing, and there are no others. -/
def Fits (form : Form) (keys : List String) : Prop :=
  keys.Nodup ∧ form.requiredKeys ⊆ keys ∧ keys ⊆ form.keys

instance (form : Form) (keys : List String) : Decidable (form.Fits keys) :=
  inferInstanceAs (Decidable (_ ∧ (∀ key ∈ form.requiredKeys, key ∈ keys) ∧
    ∀ key ∈ keys, key ∈ form.keys))

end Form

/-- `{expr: E}`. -/
def exprForm : Form := ⟨⟨"expr", .expr, true⟩, []⟩

/-- `{assign: x, value: E}` and `{assign: {index: [A, I]}, value: E}`. -/
def assignForm : Form := ⟨⟨"assign", .target, true⟩, [⟨"value", .expr, true⟩]⟩

/-- `{if: E, then: [...], else: [...]}`. -/
def ifForm : Form := ⟨⟨"if", .expr, true⟩, [⟨"then", .stmts, false⟩, ⟨"else", .stmts, false⟩]⟩

/-- `{while: E, do: [...]}`. -/
def whileForm : Form := ⟨⟨"while", .expr, true⟩, [⟨"do", .stmts, false⟩]⟩

/-- `{call: f, args: [...]}`. -/
def callForm : Form := ⟨⟨"call", .text, true⟩, [⟨"args", .exprs, false⟩]⟩

/-- A mapping with one operator. -/
def operatorForm (key : String) (role : Role) : Form := ⟨⟨key, role, true⟩, []⟩

/-- `{neg: E}`, `{not: E}`, `{array: ...}`, `{index: [E, E]}`, `{add: [E, E]}` and its kin. -/
def operatorForms : List Form :=
  [operatorForm "neg" .expr, operatorForm "not" .expr, operatorForm "array" .array,
    operatorForm "index" .exprs] ++ BinaryOp.named.map fun op => operatorForm op.text .exprs

/-- `{len: E, fill: E}`. -/
def fillForm : Form := ⟨⟨"len", .expr, true⟩, [⟨"fill", .expr, true⟩]⟩

namespace Role

/-- The forms of the mappings that can be read as something, those that count first in front. -/
def forms : Role → List Form
  | stmt => [exprForm, assignForm, ifForm, whileForm]
  | expr | target => callForm :: operatorForms
  | array => [fillForm]
  | stmts | exprs | text => []

/-- What the items of a list are read as. -/
def item? : Role → Option Role
  | stmts => some stmt
  | exprs | array => some expr
  | stmt | expr | target | text => none

/-- No two forms of one role share a leading key, nor is it another key of one of them. -/
theorem eq_of_lead_mem (role : Role) :
    ∀ form ∈ role.forms, ∀ other ∈ role.forms, form.lead.key ∈ other.keys → form = other := by
  cases role <;> decide

end Role

/-! ## Entries -/

/-- The keys of a mapping. -/
def keysOf (entries : List (Node × Node)) : List String := entries.map fun entry => entry.1.text

/-- The value under a key. -/
def valueAt? (key : String) : List (Node × Node) → Option Node
  | [] => none
  | (k, v) :: rest => if k.text = key then some v else valueAt? key rest

/-- The form of a mapping: the first one whose leading key it has. -/
def Role.form? (role : Role) (entries : List (Node × Node)) : Option Form :=
  role.forms.find? fun form => (valueAt? form.lead.key entries).isSome

section

variable {key : String} {entries : List (Node × Node)} {k v : Node}

theorem map_lookup : (lookup key entries).map Subtype.val = valueAt? key entries := by
  induction entries with
  | nil => rfl
  | cons entry rest ih =>
      obtain ⟨k, v⟩ := entry
      by_cases hk : k.text = key
      · have hlookup : lookup key ((k, v) :: rest) = some ⟨v, sizeOf_value_lt k v rest⟩ := if_pos hk
        rw [hlookup, valueAt?, if_pos hk, Option.map_some]
      · have hlookup : lookup key ((k, v) :: rest) = (lookup key rest).map fun found =>
            ⟨found.1, Nat.lt_trans found.2 (sizeOf_rest_lt k v rest)⟩ := if_neg hk
        rw [hlookup, valueAt?, if_neg hk, ← ih, Option.map_map]
        rfl

theorem valueAt?_isSome : (valueAt? key entries).isSome = true ↔ key ∈ keysOf entries := by
  induction entries with
  | nil => simp [valueAt?, keysOf]
  | cons entry rest ih =>
      obtain ⟨k, v⟩ := entry
      by_cases hk : k.text = key
      · simp [valueAt?, keysOf, hk]
      · simp [valueAt?, keysOf, hk, Ne.symm hk, ih]

theorem valueAt?_eq_none : valueAt? key entries = none ↔ key ∉ keysOf entries := by
  rw [← valueAt?_isSome, Bool.not_eq_true, Option.isSome_eq_false_iff, Option.isNone_iff_eq_none]

/-- Under distinct keys, every entry is the one that its key leads to. -/
theorem valueAt?_of_mem (hkeys : (keysOf entries).Nodup) (h : (k, v) ∈ entries) :
    valueAt? k.text entries = some v := by
  induction entries with
  | nil => exact absurd h List.not_mem_nil
  | cons entry rest ih =>
      obtain ⟨k', v'⟩ := entry
      obtain ⟨hnot, hrest⟩ := List.nodup_cons.mp hkeys
      rcases List.mem_cons.mp h with heq | h
      · obtain ⟨rfl, rfl⟩ := Prod.mk.inj heq
        rw [valueAt?, if_pos rfl]
      · have hne : k'.text ≠ k.text := fun heq => hnot (List.mem_map.mpr ⟨(k, v), h, heq.symm⟩)
        rw [valueAt?, if_neg hne, ih hrest h]

/-- The keys of a mapping are accepted if they differ. -/
theorem distinctKeys_iff {seen : List String} :
    distinctKeys seen entries = .ok () ↔
      (keysOf entries).Nodup ∧ ∀ key ∈ keysOf entries, key ∉ seen := by
  induction entries generalizing seen with
  | nil => simp [distinctKeys, keysOf]
  | cons entry rest ih =>
      obtain ⟨k, v⟩ := entry
      have hkeys : keysOf ((k, v) :: rest) = k.text :: keysOf rest := rfl
      rw [distinctKeys, hkeys, List.nodup_cons, List.forall_mem_cons]
      by_cases hk : k.text ∈ seen
      · rw [if_pos hk]
        constructor
        · intro h
          cases h
        · rintro ⟨-, hnot, -⟩
          exact absurd hk hnot
      · rw [if_neg hk, ih]
        simp only [List.mem_cons, not_or]
        constructor
        · rintro ⟨hnodup, hseen⟩
          exact ⟨⟨fun h => (hseen _ h).1 rfl, hnodup⟩, hk, fun key h => (hseen key h).2⟩
        · rintro ⟨⟨hnot, hnodup⟩, -, hseen⟩
          exact ⟨hnodup, fun key h => ⟨fun heq => hnot (heq ▸ h), hseen key h⟩⟩

/-- What a key leads to is found. -/
theorem lookup_of_valueAt? (h : valueAt? key entries = some v) :
    ∃ hsize, lookup key entries = some ⟨v, hsize⟩ := by
  rw [← map_lookup] at h
  obtain ⟨⟨_, hsize⟩, hfound, rfl⟩ := Option.map_eq_some_iff.mp h
  exact ⟨hsize, hfound⟩

theorem valueAt?_of_lookup {found : { v : Node // sizeOf v < sizeOf entries }}
    (h : lookup key entries = some found) : valueAt? key entries = some found.1 := by
  rw [← map_lookup, h, Option.map_some]

theorem lookup_eq_none : lookup key entries = none ↔ valueAt? key entries = none := by
  rw [← map_lookup, Option.map_eq_none_iff]

end

/-! ## What is read -/

/-- What a node stands for; nothing for a node that is not there. -/
def readOptional {α : Type} (read : Node → Read (List α)) : Option Node → Read (List α)
  | none => .ok []
  | some n => read n

/-- The node is a scalar. -/
def isScalar : Node → Bool
  | .scalar .. => true
  | _ => false

/-- The statement that the entries of a mapping stand for. -/
inductive StmtReads (decode : Node → Option Bool) (entries : List (Node × Node)) : Stmt → Prop
  | expr {x : Node} {e : Expr} :
      valueAt? "expr" entries = some x → readExpr decode x = .ok e →
      StmtReads decode entries (.expr e)
  | assign {line : Nat} {tag name : String} {value : Node} {v : Expr} :
      valueAt? "expr" entries = none →
      valueAt? "assign" entries = some (.scalar line tag name) →
      valueAt? "value" entries = some value → readExpr decode value = .ok v →
      StmtReads decode entries (.assign name v)
  | indexAssign {target value : Node} {ty : Ty} {a i v : Expr} :
      valueAt? "expr" entries = none → valueAt? "assign" entries = some target →
      isScalar target = false → valueAt? "value" entries = some value →
      readExpr decode value = .ok v →
      readExpr decode target = .ok (.index ty a i) → StmtReads decode entries (.indexAssign a i v)
  | ifElse {cond : Node} {c : Expr} {thenBody elseBody : List Stmt} :
      valueAt? "expr" entries = none → valueAt? "assign" entries = none →
      valueAt? "if" entries = some cond → readExpr decode cond = .ok c →
      readOptional (readStmts decode) (valueAt? "then" entries) = .ok thenBody →
      readOptional (readStmts decode) (valueAt? "else" entries) = .ok elseBody →
      StmtReads decode entries (.ifElse c thenBody elseBody)
  | whileDo {cond : Node} {c : Expr} {body : List Stmt} :
      valueAt? "expr" entries = none → valueAt? "assign" entries = none →
      valueAt? "if" entries = none → valueAt? "while" entries = some cond →
      readExpr decode cond = .ok c →
      readOptional (readStmts decode) (valueAt? "do" entries) = .ok body →
      StmtReads decode entries (.whileDo c body)

section

variable {line : Nat} {tag : String} {entries : List (Node × Node)}

/-- What is read only if it is there, and then what comes next. -/
theorem eq_readOptional_bind {α β : Type} {read : Node → Read (List α)} {next : List α → Read β}
    (key : String) {c : Read β}
    (hsome : ∀ found, lookup key entries = some found → c = read found.1 >>= next)
    (hnone : lookup key entries = none → c = next []) :
    c = readOptional read (valueAt? key entries) >>= next := by
  cases hlookup : lookup key entries with
  | some found => rw [hsome found hlookup, valueAt?_of_lookup hlookup, readOptional]
  | none => rw [hnone hlookup, lookup_eq_none.mp hlookup, readOptional, Read.ok_bind]

theorem stmtReads_of_readStmt {s : Stmt} (h : readStmt decode (.mapping line tag entries) = .ok s) :
    (keysOf entries).Nodup ∧ StmtReads decode entries s := by
  rw [readStmt] at h
  obtain ⟨_, hkeys, hread⟩ := ok_of_bind h
  clear h
  refine ⟨(distinctKeys_iff.mp hkeys).1, ?_⟩
  cases hexpr : lookup "expr" entries with
  | some x =>
      rw [hexpr] at hread
      obtain ⟨e, he, hs⟩ := ok_of_bind hread
      obtain rfl := Except.ok.inj hs
      exact .expr (valueAt?_of_lookup hexpr) he
  | none =>
  rw [hexpr] at hread
  have hexpr := lookup_eq_none.mp hexpr
  cases hassign : lookup "assign" entries with
  | some target =>
      rw [hassign] at hread
      cases hvalue : lookup "value" entries with
      | none =>
          rw [hvalue] at hread
          cases hread
      | some value =>
          rw [hvalue] at hread
          have hassign := valueAt?_of_lookup hassign
          have hvalue := valueAt?_of_lookup hvalue
          obtain ⟨v, hv, htarget⟩ := ok_of_bind hread
          obtain ⟨target, _⟩ := target
          cases target with
          | scalar line tag name =>
              obtain rfl := Except.ok.inj htarget
              exact .assign hexpr hassign hvalue hv
          | _ =>
              obtain ⟨dst, hdst, hs⟩ := ok_of_bind htarget
              cases dst with
              | index ty a i =>
                  obtain rfl := Except.ok.inj hs
                  exact .indexAssign hexpr hassign rfl hvalue hv hdst
              | _ => cases hs
  | none =>
  rw [hassign] at hread
  have hassign := lookup_eq_none.mp hassign
  cases hif : lookup "if" entries with
  | some cond =>
      rw [hif] at hread
      obtain ⟨c, hc, hbodies⟩ := ok_of_bind hread
      obtain ⟨thenBody, hthen, helses⟩ := ok_of_bind ((eq_readOptional_bind "then"
        (fun _ hfound => by rw [hfound]) fun hnone => by rw [hnone]; rfl).symm.trans hbodies)
      obtain ⟨elseBody, helse, hs⟩ := ok_of_bind ((eq_readOptional_bind "else"
        (fun _ hfound => by rw [hfound]) fun hnone => by rw [hnone]; rfl).symm.trans helses)
      obtain rfl := Except.ok.inj hs
      exact .ifElse hexpr hassign (valueAt?_of_lookup hif) hc hthen helse
  | none =>
  rw [hif] at hread
  have hif := lookup_eq_none.mp hif
  cases hwhile : lookup "while" entries with
  | some cond =>
      rw [hwhile] at hread
      obtain ⟨c, hc, hbodies⟩ := ok_of_bind hread
      obtain ⟨body, hbody, hs⟩ := ok_of_bind ((eq_readOptional_bind "do"
        (fun _ hfound => by rw [hfound]) fun hnone => by rw [hnone]; rfl).symm.trans hbodies)
      obtain rfl := Except.ok.inj hs
      exact .whileDo hexpr hassign hif (valueAt?_of_lookup hwhile) hc hbody
  | none =>
      rw [hwhile] at hread
      cases hread

theorem readStmt_of_stmtReads {s : Stmt} (hkeys : (keysOf entries).Nodup)
    (h : StmtReads decode entries s) : readStmt decode (.mapping line tag entries) = .ok s := by
  have hdistinct : distinctKeys [] entries = .ok () := distinctKeys_iff.mpr ⟨hkeys, by simp⟩
  rw [readStmt, hdistinct, Read.ok_bind]
  cases h with
  | expr hx he =>
      obtain ⟨_, hx⟩ := lookup_of_valueAt? hx
      simp only [hx, he, Read.ok_bind, Read.pure_eq]
  | assign hexpr htarget hvalue hv =>
      obtain ⟨_, htarget⟩ := lookup_of_valueAt? htarget
      obtain ⟨_, hvalue⟩ := lookup_of_valueAt? hvalue
      simp only [lookup_eq_none.mpr hexpr, htarget, hvalue, hv, Read.ok_bind, Read.pure_eq]
  | @indexAssign target _ _ _ _ _ hexpr htarget hscalar hvalue hv hdst =>
      obtain ⟨_, htarget⟩ := lookup_of_valueAt? htarget
      obtain ⟨_, hvalue⟩ := lookup_of_valueAt? hvalue
      simp only [lookup_eq_none.mpr hexpr, htarget, hvalue, hv, Read.ok_bind]
      cases target with
      | scalar => cases hscalar
      | _ =>
          rw [hdst, Read.ok_bind]
          rfl
  | ifElse hexpr hassign hcond hc hthen helse =>
      obtain ⟨_, hcond⟩ := lookup_of_valueAt? hcond
      simp only [lookup_eq_none.mpr hexpr, lookup_eq_none.mpr hassign, hcond, hc, Read.ok_bind]
      refine (eq_readOptional_bind "then" (fun _ hfound => by rw [hfound])
        fun hnone => by rw [hnone]; rfl).trans ?_
      rw [hthen, Read.ok_bind]
      refine (eq_readOptional_bind "else" (fun _ hfound => by rw [hfound])
        fun hnone => by rw [hnone]; rfl).trans ?_
      rw [helse, Read.ok_bind, Read.pure_eq]
  | whileDo hexpr hassign hif hcond hc hbody =>
      obtain ⟨_, hcond⟩ := lookup_of_valueAt? hcond
      simp only [lookup_eq_none.mpr hexpr, lookup_eq_none.mpr hassign, lookup_eq_none.mpr hif,
        hcond, hc, Read.ok_bind]
      refine (eq_readOptional_bind "do" (fun _ hfound => by rw [hfound])
        fun hnone => by rw [hnone]; rfl).trans ?_
      rw [hbody, Read.ok_bind, Read.pure_eq]

end

/-- The expression that an operator and its operand stand for. -/
inductive OperatorReads (decode : Node → Option Bool) (operand : Node) : String → Expr → Prop
  | neg {x : Expr} :
      readExpr decode operand = .ok x →
      OperatorReads decode operand "neg" (.unary .invalid .neg x)
  | not {x : Expr} :
      readExpr decode operand = .ok x →
      OperatorReads decode operand "not" (.unary .invalid .not x)
  | array {x : Expr} : readArray decode operand = .ok x → OperatorReads decode operand "array" x
  | index {a i : Expr} :
      readExprs decode operand = .ok [a, i] →
      OperatorReads decode operand "index" (.index .invalid a i)
  | binary {op : BinaryOp} {a b : Expr} :
      op ∈ BinaryOp.named → readExprs decode operand = .ok [a, b] →
      OperatorReads decode operand op.text (.binary .invalid op a b)

/-- The expression that the entries of a mapping stand for. -/
inductive ExprReads (decode : Node → Option Bool) (entries : List (Node × Node)) : Expr → Prop
  | call {callee : Node} {args : List Expr} :
      valueAt? "call" entries = some callee →
      readOptional (readExprs decode) (valueAt? "args" entries) = .ok args →
      ExprReads decode entries (.call .invalid callee.text args)
  | operator {key operand : Node} {e : Expr} :
      entries = [(key, operand)] → OperatorReads decode operand key.text e →
      ExprReads decode entries e

/-- The array that the entries of a mapping stand for. -/
inductive FillReads (decode : Node → Option Bool) (entries : List (Node × Node)) : Expr → Prop
  | arrayFill {length fill : Node} {n v : Expr} :
      valueAt? "len" entries = some length → valueAt? "fill" entries = some fill →
      readExpr decode length = .ok n → readExpr decode fill = .ok v →
      FillReads decode entries (.arrayFill .invalid n v)

section

variable {line : Nat} {tag : String} {entries : List (Node × Node)} {e : Expr}

theorem eq_of_pair {n : Node} {operands : List Expr} {a b : Expr}
    (h : pair n operands = .ok (a, b)) : operands = [a, b] := by
  unfold pair at h
  split at h
  · cases h
    rfl
  · cases h

/-- A call is read whatever other keys there are. -/
theorem readExpr_of_call {callee : Node} (hcall : valueAt? "call" entries = some callee) :
    readExpr decode (.mapping line tag entries) = (do
      distinctKeys [] entries
      let args ← readOptional (readExprs decode) (valueAt? "args" entries)
      return .call .invalid callee.text args) := by
  obtain ⟨_, hlookup⟩ := lookup_of_valueAt? hcall
  by_cases hone : ∃ key operand, entries = [(key, operand)]
  · obtain ⟨key, operand, rfl⟩ := hone
    rw [readExpr, hlookup]
    congr 1
    funext _
    exact eq_readOptional_bind "args" (fun _ hfound => by rw [hfound]) fun hnone => by rw [hnone]
  · rw [readExpr, hlookup]
    · congr 1
      funext _
      exact eq_readOptional_bind "args" (fun _ hfound => by rw [hfound]) fun hnone => by rw [hnone]
    · intro key operand heq
      exact hone ⟨key, operand, heq⟩

/-- Without a call, a mapping needs exactly one key. -/
theorem eq_singleton_of_readExpr (hcall : valueAt? "call" entries = none)
    (h : readExpr decode (.mapping line tag entries) = .ok e) :
    ∃ key operand, entries = [(key, operand)] := by
  apply Classical.byContradiction
  intro hone
  rw [readExpr, lookup_eq_none.mpr hcall] at h
  · obtain ⟨_, -, hread⟩ := ok_of_bind h
    cases hread
  · intro key operand heq
    exact hone ⟨key, operand, heq⟩

theorem operatorReads_of_readExpr {key operand : Node} (hcall : key.text ≠ "call")
    (h : readExpr decode (.mapping line tag [(key, operand)]) = .ok e) :
    OperatorReads decode operand key.text e := by
  have hlookup : lookup "call" [(key, operand)] = none :=
    lookup_eq_none.mpr (by rw [valueAt?, if_neg hcall, valueAt?])
  rw [readExpr, hlookup] at h
  obtain ⟨_, -, hread⟩ := ok_of_bind h
  dsimp only at hread
  split at hread
  · next hkey =>
      obtain ⟨x, hx, he⟩ := ok_of_bind hread
      obtain rfl := Except.ok.inj he
      exact hkey ▸ .neg hx
  split at hread
  · next hkey =>
      obtain ⟨x, hx, he⟩ := ok_of_bind hread
      obtain rfl := Except.ok.inj he
      exact hkey ▸ .not hx
  split at hread
  · next hkey => exact hkey ▸ .array hread
  split at hread
  · next hkey =>
      obtain ⟨operands, hoperands, hresult⟩ := ok_of_bind hread
      obtain ⟨⟨a, i⟩, hpair, he⟩ := ok_of_bind hresult
      obtain rfl := Except.ok.inj he
      rw [eq_of_pair hpair] at hoperands
      exact hkey ▸ .index hoperands
  split at hread
  · cases hread
  · next op hop =>
      obtain ⟨operands, hoperands, hresult⟩ := ok_of_bind hread
      obtain ⟨⟨a, b⟩, hpair, he⟩ := ok_of_bind hresult
      obtain rfl := Except.ok.inj he
      rw [eq_of_pair hpair] at hoperands
      have htext : op.text = key.text := by simpa using List.find?_some hop
      exact htext ▸ .binary (List.mem_of_find?_eq_some hop) hoperands

theorem exprReads_of_readExpr (h : readExpr decode (.mapping line tag entries) = .ok e) :
    (keysOf entries).Nodup ∧ ExprReads decode entries e := by
  cases hcall : valueAt? "call" entries with
  | some callee =>
      rw [readExpr_of_call hcall] at h
      obtain ⟨_, hkeys, hresult⟩ := ok_of_bind h
      obtain ⟨args, hargs, he⟩ := ok_of_bind hresult
      obtain rfl := Except.ok.inj he
      exact ⟨(distinctKeys_iff.mp hkeys).1, .call hcall hargs⟩
  | none =>
      obtain ⟨key, operand, rfl⟩ := eq_singleton_of_readExpr hcall h
      have hkey : key.text ≠ "call" := by
        simpa [keysOf, eq_comm] using valueAt?_eq_none.mp hcall
      exact ⟨by simp [keysOf], .operator rfl (operatorReads_of_readExpr hkey h)⟩

theorem OperatorReads.key_ne_call {key : String} {operand : Node}
    (h : OperatorReads decode operand key e) : key ≠ "call" := by
  cases h with
  | binary hop =>
      have hkey := text_not_mem _ hop
      exact fun heq => hkey (heq ▸ List.mem_cons_self)
  | _ => decide

theorem readExpr_of_operatorReads {key operand : Node}
    (h : OperatorReads decode operand key.text e) :
    readExpr decode (.mapping line tag [(key, operand)]) = .ok e := by
  have hlookup : lookup "call" [(key, operand)] = none :=
    lookup_eq_none.mpr (by rw [valueAt?, if_neg h.key_ne_call, valueAt?])
  rw [readExpr, hlookup]
  generalize hkey : key.text = name at h
  cases h with
  | neg hx | not hx | array hx => simp [distinctKeys, hkey, hx]
  | index hx => simp [distinctKeys, hkey, hx, pair]
  | binary hop hx =>
      have hnot := text_not_mem _ hop
      simp only [List.mem_cons, List.not_mem_nil, or_false, not_or] at hnot
      simp [distinctKeys, hkey, hx, hnot, ofText?_text _ hop, pair]

theorem readExpr_of_exprReads (hkeys : (keysOf entries).Nodup) (h : ExprReads decode entries e) :
    readExpr decode (.mapping line tag entries) = .ok e := by
  cases h with
  | call hcall hargs =>
      rw [readExpr_of_call hcall, distinctKeys_iff.mpr ⟨hkeys, by simp⟩, Read.ok_bind, hargs,
        Read.ok_bind, Read.pure_eq]
  | operator hone hoperator =>
      subst hone
      exact readExpr_of_operatorReads hoperator

theorem readArray_mapping_iff :
    readArray decode (.mapping line tag entries) = .ok e ↔
      (keysOf entries).Nodup ∧ FillReads decode entries e := by
  rw [readArray]
  constructor
  · intro h
    obtain ⟨_, hkeys, hread⟩ := ok_of_bind h
    refine ⟨(distinctKeys_iff.mp hkeys).1, ?_⟩
    cases hlen : lookup "len" entries with
    | none =>
        rw [hlen] at hread
        cases hread
    | some length =>
        cases hfill : lookup "fill" entries with
        | none =>
            rw [hlen, hfill] at hread
            cases hread
        | some fill =>
            rw [hlen, hfill] at hread
            obtain ⟨n, hn, hread⟩ := ok_of_bind hread
            obtain ⟨v, hv, he⟩ := ok_of_bind hread
            obtain rfl := Except.ok.inj he
            exact .arrayFill (valueAt?_of_lookup hlen) (valueAt?_of_lookup hfill) hn hv
  · rintro ⟨hkeys, hlen, hfill, hn, hv⟩
    obtain ⟨_, hlen⟩ := lookup_of_valueAt? hlen
    obtain ⟨_, hfill⟩ := lookup_of_valueAt? hfill
    rw [distinctKeys_iff.mpr ⟨hkeys, by simp⟩, Read.ok_bind, hlen, hfill]
    simp only [hn, hv, Read.ok_bind, Read.pure_eq]

end

end ArrayLang.Source
