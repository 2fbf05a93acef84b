/-
Arrays with a length counter, read as the list of their first cells: appending at
the counter, removing by overwriting with the last cell, and shifting down.
-/
import Mathlib.Data.List.Range
import Mathlib.Data.List.Perm.Basic
import Mathlib.Logic.Function.Basic

namespace SystemsProgramming

namespace ArrayPrefix

universe u

variable {α : Type u}

/-- The first `size` cells of an array. -/
def cells (array : Nat → α) (size : Nat) : List α :=
  (List.range size).map array

@[simp] theorem cells_zero (array : Nat → α) : cells array 0 = [] := rfl

@[simp] theorem length_cells (array : Nat → α) (size : Nat) :
    (cells array size).length = size := by
  simp [cells]

theorem mem_cells {array : Nat → α} {size : Nat} {x : α} :
    x ∈ cells array size ↔ ∃ i < size, array i = x := by
  simp [cells]

theorem cell_mem {array : Nat → α} {size i : Nat} (hi : i < size) :
    array i ∈ cells array size :=
  mem_cells.mpr ⟨i, hi, rfl⟩

theorem cells_getElem? (array : Nat → α) {size i : Nat} (hi : i < size) :
    (cells array size)[i]? = some (array i) := by
  simp [cells, hi]

theorem cells_inj {array other : Nat → α} {size size' : Nat}
    (heq : cells array size = cells other size') :
    size = size' ∧ ∀ i < size, array i = other i := by
  have hsize : size = size' := by
    have hlength := congrArg List.length heq
    rwa [length_cells, length_cells] at hlength
  subst hsize
  refine ⟨rfl, fun i hi => ?_⟩
  have hcell := cells_getElem? array hi
  rw [heq, cells_getElem? other hi] at hcell
  exact (Option.some.inj hcell).symm

theorem cells_succ (array : Nat → α) (size : Nat) :
    cells array (size + 1) = cells array size ++ [array size] := by
  simp [cells, List.range_succ]

theorem cells_succ_eq_cons (array : Nat → α) (size : Nat) :
    cells array (size + 1) = array 0 :: cells (fun i => array (i + 1)) size := by
  simp only [cells, List.range_succ_eq_map, List.map_cons, List.map_map]
  rfl

theorem cells_congr {array other : Nat → α} {size : Nat}
    (heq : ∀ i < size, array i = other i) : cells array size = cells other size := by
  apply List.map_congr_left
  intro i hi
  exact heq i (List.mem_range.mp hi)

/-- A cell behind the counter does not count. -/
theorem cells_update_of_le (array : Nat → α) {size i : Nat} (hi : size ≤ i) (x : α) :
    cells (Function.update array i x) size = cells array size := by
  apply cells_congr
  intro j hj
  exact Function.update_of_ne (by omega) _ _

/-- Appending at the counter. -/
theorem cells_push (array : Nat → α) (size : Nat) (x : α) :
    cells (Function.update array size x) (size + 1) = cells array size ++ [x] := by
  rw [cells_succ, cells_update_of_le array (Nat.le_refl size), Function.update_self]

/-- Removal of cell `i` by overwriting it with the last cell. -/
theorem cells_swapRemove_perm (array : Nat → α) {size i : Nat} (hi : i < size) :
    (cells array (size + 1)).Perm
      (array i :: cells (Function.update array i (array size)) size) := by
  induction size generalizing array with
  | zero => omega
  | succ size ih =>
      rw [cells_succ array (size + 1), cells_succ (Function.update array i _) size]
      by_cases heq : i = size
      · subst heq
        rw [Function.update_self, cells_update_of_le array (Nat.le_refl i), cells_succ]
        simp only [List.append_assoc, List.cons_append, List.nil_append]
        exact List.perm_middle
      · have hlt : i < size := by omega
        have hswap := ih (Function.update array size (array (size + 1))) hlt
        rw [cells_push, Function.update_of_ne heq, Function.update_self] at hswap
        have hcells : cells (Function.update (Function.update array size (array (size + 1))) i
            (array (size + 1))) size = cells (Function.update array i (array (size + 1))) size := by
          apply cells_congr
          intro j hj
          by_cases hji : j = i
          · simp [hji]
          · simp [hji, show j ≠ size by omega]
        rw [hcells] at hswap
        rw [Function.update_of_ne (Ne.symm heq), cells_succ, List.append_assoc]
        refine (List.Perm.append_left _ (List.Perm.swap _ _ [])).trans ?_
        have hmove := hswap.append_right [array size]
        simpa [List.append_assoc] using hmove

/-- The loop that moves each of the cells `1, …, size - 1` one place down. -/
def shiftLeft (array : Nat → α) (size : Nat) : Nat → α :=
  (List.range (size - 1)).foldl (fun cell i => Function.update cell i (cell (i + 1))) array

theorem foldl_shift (array : Nat → α) (count j : Nat) :
    (List.range count).foldl (fun cell i => Function.update cell i (cell (i + 1))) array j =
      if j < count then array (j + 1) else array j := by
  induction count with
  | zero => rfl
  | succ count ih =>
      rw [List.range_succ, List.foldl_append, List.foldl_cons, List.foldl_nil,
        Function.update_apply]
      by_cases heq : j = count
      · subst heq
        have hlater : ∀ i, j ≤ i → (List.range j).foldl
            (fun cell i => Function.update cell i (cell (i + 1))) array i = array i := by
          clear ih
          intro i hi
          induction j with
          | zero => rfl
          | succ j ihj =>
              rw [List.range_succ, List.foldl_append, List.foldl_cons, List.foldl_nil,
                Function.update_of_ne (by omega)]
              exact ihj (by omega)
        simp [hlater (j + 1) (Nat.le_succ j)]
      · rw [if_neg heq, ih]
        by_cases hlt : j < count
        · simp [hlt, Nat.lt_succ_of_lt hlt]
        · have hnot : ¬ j < count + 1 := by omega
          simp [hlt, hnot]

/-- Shifting down removes the first cell. -/
theorem cells_shiftLeft (array : Nat → α) (size : Nat) :
    cells (shiftLeft array size) (size - 1) = (cells array size).tail := by
  cases size with
  | zero => rfl
  | succ size =>
      rw [cells_succ_eq_cons, List.tail_cons]
      apply cells_congr
      intro i hi
      simp only [shiftLeft, foldl_shift]
      exact if_pos hi

end ArrayPrefix

end SystemsProgramming
