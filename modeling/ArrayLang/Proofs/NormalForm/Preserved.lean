import ArrayLang.Proofs.NormalForm.Correct
import ArrayLang.Proofs.NormalForm.Covered
import ArrayLang.Proofs.NormalForm.Temporaries
import ArrayLang.Proofs.Typing.Decided

/-!
# Normal forms of checked programs

Normalisation of a program that the checker accepts keeps the program well typed.  The temporaries
are variables of their own, each with one type, and they are assigned before they are read on every
path through the normal form.
-/

namespace ArrayLang.NormalForm

open Source Typing Emit Machine Reference

variable {tier : Tier} {env : Env} {source checked : List Stmt}

/-- Every read of one of some variables comes behind an assignment to it. -/
def ReadAfterAssigned (vars : List Binding) (history : List Event) : Prop :=
  ∀ b ∈ vars, ∀ before, before ++ [.read b.name] <+: history → .assign b.name ∈ before

theorem Covered.readAfterAssigned {temps : List Binding} {history : List Event}
    (h : Covered history) (htemps : TempsOk temps) : ReadAfterAssigned temps history :=
  fun b hb before hprefix => h before b.name hprefix (htemps.name b hb)

/-- Statements with their temporaries, as a normal form of a program with the variables `env`. -/
structure IsSoundForm (tier : Tier) (env : Env) (out : List Stmt) (temps : List Binding) :
    Prop where
  /-- By the rules of the checker, but for names, the statements are well typed. -/
  typed : Derivation (Carries tier) (fun _ => True) tier (env ++ temps) out (env ++ temps)
  distinct : (temps.map Binding.name).Nodup
  apart : ∀ temp ∈ temps, temp.name ∉ env.map Binding.name
  values : ∀ temp ∈ temps, ∀ v, (temp.name, v) ∈ Stmt.listAssignments out →
    HasType tier (env ++ temps) v temp.ty
  paths : ∀ us, Path out us → ReadAfterAssigned temps us
  runs : ∀ t w, w.history = [] → ReadAfterAssigned temps (endWorld (runStmts t out w)).history

theorem TempsOk.find? {temps : List Binding} (htemps : TempsOk temps) (henv : EnvOk env)
    {temp : Binding} (h : temp ∈ temps) : env.find? temp.name = none := by
  cases hfind : env.find? temp.name with
  | none => rfl
  | some ty => exact absurd (htemps.name temp h) (not_isTemp_of_find? henv hfind)

theorem isSoundForm_of_normalizes {out : List Stmt} {T : Temps} (henv : EnvOk env)
    (htyped : ∀ s ∈ checked, StmtTyped tier env s) (h : Normalizes {} checked out T) :
    IsSoundForm tier env out T.made := by
  have hout : ∀ s ∈ out, StmtTyped tier (env ++ T.made) s :=
    h.typed henv Temps.ordered_empty htyped
  have htemps : TempsOk T.made := h.tempsOk htyped
  constructor
  · exact (derivation_of_forall fun s hs => (hout s hs).derivation).mono HasType.carries
  · exact htemps.distinct
  · intro temp htemp hmem
    obtain ⟨b, hb, hname⟩ := List.mem_map.mp hmem
    have hfind := find?_of_mem henv.distinct hb
    rw [hname, htemps.find? henv htemp] at hfind
    exact absurd hfind (by simp)
  · intro temp htemp v hmem
    obtain ⟨s, hs, hmem⟩ := Stmt.mem_listAssignments.mp hmem
    obtain ⟨ty, hfind, hv⟩ := (hout s hs).of_mem_assignments _ hmem
    rw [find?_append, htemps.find? henv htemp, Option.none_or,
      find?_of_mem htemps.distinct htemp] at hfind
    exact Option.some.inj hfind ▸ hv
  · intro us hpath
    exact (h.covered_of_path henv htyped hpath).readAfterAssigned htemps
  · intro t w hw
    have hcovers : Covers (fun _ => False) (runStmts t out) fun _ => False := h.covers henv htyped
    have hstart : Covered w.history := hw ▸ covered_nil
    exact (hcovers w hstart fun _ _ hx => hx.elim).1.readAfterAssigned htemps

/-- A checked program has a normal form that is well typed with its temporaries as further
variables.  They have names of their own, hold values of their types only, and are assigned before
they are read on every path. -/
theorem normalize_preserves_typing (h : check tier (some source) = .ok (env, checked)) :
    ∃ out temps, normalize env (some checked) = .ok (out, temps) ∧
      IsSoundForm tier env out temps := by
  obtain ⟨henv, htyped⟩ := check_sound h
  obtain ⟨out, T, hrun, hnorm⟩ := normalize_of_typed htyped
  exact ⟨out, T.made, hrun, isSoundForm_of_normalizes henv htyped hnorm⟩

/-- The normal form of the search for a row has five temporaries, one of them for the condition of
its loop. -/
theorem firstZeroRow_preserves_typing :
    let env : Env := [⟨"rows", .array (.array .int)⟩, ⟨"i", .int⟩]
    check .array (some firstZeroRow) = .ok (env, firstZeroRow) ∧
      ∃ out temps, normalize env (some firstZeroRow) = .ok (out, temps) ∧
        temps.length = 5 ∧ IsSoundForm .array env out temps := by
  intro env
  have hcheck : check .array (some firstZeroRow) = .ok (env, firstZeroRow) := rfl
  obtain ⟨out, temps, hrun, hsound⟩ := normalize_preserves_typing hcheck
  have hlength : (normalize env (some firstZeroRow)).map (fun r => r.2.length) = .ok 5 := rfl
  rw [hrun] at hlength
  exact ⟨hcheck, out, temps, hrun, Except.ok.inj hlength, hsound⟩

end ArrayLang.NormalForm
