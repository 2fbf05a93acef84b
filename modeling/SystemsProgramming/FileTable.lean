/-
The descriptors of one process: a new file gets the lowest number that is free, and a
number that was closed is free again.
-/
import Mathlib.Data.Nat.Nth
import Mathlib.Data.List.Basic

namespace SystemsProgramming

universe u

/-- The open files by number; a number behind the end of the list is free. -/
structure FileTable (α : Type u) where
  files : List (Option α)
deriving Repr, DecidableEq

namespace FileTable

variable {α : Type u}

/-- What a descriptor stands for. -/
def lookup (t : FileTable α) (fd : Nat) : Option α := t.files.getD fd none

/-- The number that the next file gets. -/
def lowest (t : FileTable α) : Nat := t.files.findIdx Option.isNone

/-- The table with a new file. -/
def opened (t : FileTable α) (file : α) : FileTable α :=
  if t.lowest < t.files.length then ⟨t.files.set t.lowest (some file)⟩
  else ⟨t.files ++ [some file]⟩

/-- `close(fd)`, which is an error for a free number. -/
def close (t : FileTable α) (fd : Nat) : FileTable α := ⟨t.files.set fd none⟩

variable {t : FileTable α} {file : α} {fd : Nat}

theorem lookup_lowest (t : FileTable α) : t.lookup t.lowest = none := by
  unfold lookup
  by_cases hlt : t.lowest < t.files.length
  · have hnone := List.findIdx_getElem (w := hlt)
    rw [List.getD_eq_getElem _ _ hlt]
    exact Option.isNone_iff_eq_none.mp hnone
  · exact List.getD_eq_default _ _ (Nat.le_of_not_lt hlt)

theorem lookup_of_lt_lowest (hlt : fd < t.lowest) : t.lookup fd ≠ none := by
  have hlength : fd < t.files.length := Nat.lt_of_lt_of_le hlt List.findIdx_le_length
  have hsome := List.not_of_lt_findIdx hlt
  rw [lookup, List.getD_eq_getElem _ _ hlength]
  intro hnone
  simp [hnone] at hsome

/-- A free number with only open ones below it is the next one. -/
theorem lowest_eq (hfree : t.lookup fd = none) (hbelow : ∀ fd' < fd, t.lookup fd' ≠ none) :
    t.lowest = fd := by
  rcases Nat.lt_trichotomy t.lowest fd with hlt | heq | hgt
  · exact absurd t.lookup_lowest (hbelow _ hlt)
  · exact heq
  · exact absurd hfree (lookup_of_lt_lowest hgt)

theorem lookup_opened (t : FileTable α) (file : α) (fd : Nat) :
    (t.opened file).lookup fd = if fd = t.lowest then some file else t.lookup fd := by
  unfold opened lookup
  by_cases hlt : t.lowest < t.files.length
  · rw [if_pos hlt]
    by_cases hfd : fd = t.lowest
    · simp [hfd, hlt, List.getD_eq_getElem?_getD]
    · simp [hfd, List.getD_eq_getElem?_getD, List.getElem?_set_ne (Ne.symm hfd)]
  · have hlength : t.lowest = t.files.length := by
      have hle : t.lowest ≤ t.files.length := List.findIdx_le_length
      omega
    rw [if_neg hlt, hlength]
    rcases Nat.lt_trichotomy fd t.files.length with h | h | h
    · simp [List.getD_eq_getElem?_getD, List.getElem?_append_left h, Nat.ne_of_lt h]
    · simp [h, List.getD_eq_getElem?_getD]
    · simp [List.getD_eq_getElem?_getD, Nat.ne_of_gt h, Nat.le_of_lt h,
        List.getElem?_eq_none_iff.mpr (show (t.files ++ [some file]).length ≤ fd by
          simp only [List.length_append, List.length_singleton]
          omega)]

theorem lookup_close (t : FileTable α) (fd fd' : Nat) :
    (t.close fd).lookup fd' = if fd' = fd then none else t.lookup fd' := by
  unfold close lookup
  by_cases hfd : fd' = fd
  · simp only [hfd, List.getD_eq_getElem?_getD, if_true, List.getElem?_set_self']
    cases t.files[fd]? <;> rfl
  · simp [hfd, List.getD_eq_getElem?_getD, List.getElem?_set_ne (Ne.symm hfd)]

/-- A file that is closed at once leaves no trace. -/
theorem lookup_close_opened (t : FileTable α) (file : α) (fd : Nat) :
    ((t.opened file).close t.lowest).lookup fd = t.lookup fd := by
  rw [lookup_close, lookup_opened]
  by_cases hfd : fd = t.lowest
  · rw [if_pos hfd, hfd, t.lookup_lowest]
  · rw [if_neg hfd, if_neg hfd]

/-- The free numbers in order. -/
theorem exists_enumeration (t : FileTable α) :
    ∃ f : Nat → Nat, StrictMono f ∧ ∀ fd, t.lookup fd = none ↔ ∃ i, f i = fd := by
  have hinfinite : (Set.ofPred fun fd => t.lookup fd = none).Infinite := by
    apply Set.infinite_of_not_bddAbove
    rintro ⟨bound, hbound⟩
    have hfree : t.lookup (bound + 1 + t.files.length) = none :=
      List.getD_eq_default _ _ (by omega)
    have hle := hbound hfree
    omega
  refine ⟨Nat.nth fun fd => t.lookup fd = none, Nat.nth_strictMono hinfinite, fun fd => ?_⟩
  have hrange := Set.ext_iff.mp (Nat.range_nth_of_infinite hinfinite) fd
  exact hrange.symm

end FileTable

end SystemsProgramming
