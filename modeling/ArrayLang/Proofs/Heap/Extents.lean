import ArrayLang.Proofs.Reference.Eval
import ArrayLang.Proofs.Typing.Rules
import Mathlib.Algebra.Ring.Nat

/-!
# Arrays side by side

The arrays of a run lie one behind the other, in the order in which they were made.  So a byte of an
array is in no other array, and no element is a part of a header.
-/

namespace ArrayLang.Reference

open Source Code Machine Typing

/-! ## How elements lie in memory -/

theorem cellType_eq {elem : Ty} (h : IsValue elem) :
    cellType elem = .i32 ∨ cellType elem = .i64 := by
  cases h with
  | int => exact Or.inr rfl
  | bool | array => exact Or.inl rfl

theorem size_cellType {elem : Ty} (h : IsValue elem) :
    (cellType elem).size = Layout.width elem := by
  cases h with
  | int | bool => rfl
  | array => simp [cellType, Layout.valType?, ValType.size, Layout.width]

theorem width_pos (elem : Ty) : 0 < Layout.width elem := by
  unfold Layout.width
  split <;> decide

theorem width_le (elem : Ty) : Layout.width elem ≤ 8 := by
  unfold Layout.width
  split <;> decide

namespace Extent

variable (x : Extent)

/-- The number of elements. -/
def count : Nat := x.length.toNat

/-- The number of bytes of an array, with its header. -/
def bytes : Nat := Layout.headerSize + x.count * Layout.width x.elem

/-- The first address behind an array. -/
def stop : Nat := x.address.toNat + x.bytes

/-- The address of an element. -/
def cell (i : Nat) : Nat := x.address.toNat + Layout.headerSize + i * Layout.width x.elem

variable {x}

theorem cell_count : x.cell x.count = x.stop := by
  rw [cell, stop, bytes, Nat.add_assoc]

theorem cell_succ (i : Nat) : x.cell (i + 1) = x.cell i + Layout.width x.elem := by
  rw [cell, cell, Nat.succ_mul, ← Nat.add_assoc]

theorem cell_mono {i j : Nat} (h : i ≤ j) : x.cell i ≤ x.cell j :=
  Nat.add_le_add_left (Nat.mul_le_mul_right _ h) _

/-- An element ends where the next one may start. -/
theorem cell_add_le {i j : Nat} (h : i < j) : x.cell i + Layout.width x.elem ≤ x.cell j := by
  rw [← cell_succ]
  exact cell_mono h

theorem cell_lt_stop {i : Nat} (h : i < x.count) : x.cell i + Layout.width x.elem ≤ x.stop := by
  rw [← cell_count]
  exact cell_add_le h

theorem header_le_cell (i : Nat) : x.address.toNat + Layout.headerSize ≤ x.cell i :=
  Nat.le_add_right _ _

theorem header_le_stop : x.address.toNat + Layout.headerSize ≤ x.stop := by
  rw [← cell_count]
  exact header_le_cell _

/-- An access reads the header or goes to an element. -/
def Touched (x : Extent) (a : Access) : Prop :=
  a = .load .i32 x.address ∨ ∃ i < x.count, a.ty = cellType x.elem ∧ a.address.toNat = x.cell i

end Extent

/-! ## Rows of arrays -/

/-- Arrays take the bytes from `start` to `stop`, without gaps and in order. -/
def Tiled (start : Nat) : List Extent → (stop : Nat) → Prop
  | [], stop => start = stop
  | x :: rest, stop => x.address.toNat = start ∧ Tiled x.stop rest stop

variable {start stop : Nat} {x y : Extent} {arrays : List Extent}

theorem tiled_concat :
    Tiled start (arrays ++ [x]) stop ↔ Tiled start arrays x.address.toNat ∧ x.stop = stop := by
  induction arrays generalizing start with
  | nil => simp [Tiled, eq_comm]
  | cons y rest ih => rw [List.cons_append, Tiled, Tiled, ih, and_assoc]

theorem Tiled.stop_eq (h : Tiled start arrays stop) :
    stop = start + (arrays.map Extent.bytes).sum := by
  induction arrays generalizing start with
  | nil => exact h.symm
  | cons y rest ih =>
      obtain ⟨rfl, hrest⟩ := h
      rw [ih hrest, List.map_cons, List.sum_cons, Extent.stop, Nat.add_assoc]

theorem Tiled.le (h : Tiled start arrays stop) : start ≤ stop := by
  rw [h.stop_eq]
  exact Nat.le_add_right _ _

theorem Tiled.le_of_forall {n : Nat} (h : Tiled start arrays stop) (hstart : start ≤ n)
    (harrays : ∀ x ∈ arrays, x.stop ≤ n) : stop ≤ n := by
  induction arrays generalizing start with
  | nil => exact h ▸ hstart
  | cons y rest ih =>
      obtain ⟨hy, hrest⟩ := List.forall_mem_cons.mp harrays
      exact ih h.2 hy hrest

theorem Tiled.of_mem (h : Tiled start arrays stop) (hx : x ∈ arrays) :
    start ≤ x.address.toNat ∧ x.stop ≤ stop := by
  induction arrays generalizing start with
  | nil => exact absurd hx (by simp)
  | cons y rest ih =>
      obtain ⟨rfl, hrest⟩ := h
      rcases List.mem_cons.mp hx with rfl | hx
      · exact ⟨Nat.le_refl _, hrest.le⟩
      · obtain ⟨hle, hstop⟩ := ih hrest hx
        exact ⟨Nat.le_trans (Nat.le_add_right _ _) hle, hstop⟩

/-- Different arrays have no byte in common. -/
theorem Tiled.apart (h : Tiled start arrays stop) (hx : x ∈ arrays) (hy : y ∈ arrays)
    (hne : x ≠ y) : x.stop ≤ y.address.toNat ∨ y.stop ≤ x.address.toNat := by
  induction arrays generalizing start with
  | nil => exact absurd hx (by simp)
  | cons z rest ih =>
      obtain ⟨rfl, hrest⟩ := h
      rcases List.mem_cons.mp hx with rfl | hx'
      · rcases List.mem_cons.mp hy with rfl | hy'
        · exact absurd rfl hne
        · exact Or.inl (hrest.of_mem hy').1
      · rcases List.mem_cons.mp hy with rfl | hy'
        · exact Or.inr (hrest.of_mem hx').1
        · exact ih hrest hx' hy'

/-- An element is no part of a header. -/
theorem Tiled.cell_apart_header (h : Tiled start arrays stop) (hx : x ∈ arrays) (hy : y ∈ arrays)
    {i : Nat} (hi : i < x.count) :
    x.cell i + Layout.width x.elem ≤ y.address.toNat ∨
      y.address.toNat + Layout.headerSize ≤ x.cell i := by
  by_cases hne : x = y
  · subst hne
    exact Or.inr (Extent.header_le_cell i)
  · rcases h.apart hx hy hne with hle | hle
    · exact Or.inl (Nat.le_trans (Extent.cell_lt_stop hi) hle)
    · exact Or.inr (Nat.le_trans Extent.header_le_stop
        (Nat.le_trans hle (Nat.le_trans (Nat.le_add_right _ _) (Extent.header_le_cell i))))

end ArrayLang.Reference
