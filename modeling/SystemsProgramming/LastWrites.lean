/-
A ring of `size` slots that takes one item after the other: the `k`-th item goes to
slot `k % size`, and a slot shows the last item written to it.
-/
import Mathlib

namespace SystemsProgramming

universe u

variable {α : Type u} (size : Nat) [NeZero size]

/-- What each slot shows after the items have been written in their order. -/
def lastWrites (items : List α) : Fin size → Option α :=
  items.zipIdx.foldl (fun slots item => Function.update slots (Fin.ofNat size item.2) (some item.1))
    fun _ => none

@[simp] theorem lastWrites_nil (slot : Fin size) : lastWrites size ([] : List α) slot = none := rfl

theorem lastWrites_append_singleton (items : List α) (x : α) :
    lastWrites size (items ++ [x]) =
      Function.update (lastWrites size items) (Fin.ofNat size items.length) (some x) := by
  simp [lastWrites, List.zipIdx_append]

/-- A slot shows the item with its index and no later one a whole turn behind. -/
theorem lastWrites_eq_some_iff (items : List α) (slot : Fin size) (x : α) :
    lastWrites size items slot = some x ↔
      ∃ k, items[k]? = some x ∧ k % size = slot ∧ items.length ≤ k + size := by
  have hpos : 0 < size := Nat.pos_of_neZero size
  induction items using List.reverseRecOn with
  | nil => simp
  | append_singleton items y ih =>
      rw [lastWrites_append_singleton]
      by_cases hslot : slot = Fin.ofNat size items.length
      · have hmod : items.length % size = slot := by rw [hslot]; rfl
        rw [hslot, Function.update_self, ← hslot]
        constructor
        · rintro ⟨⟩
          exact ⟨items.length, by simp, hmod, by simp; omega⟩
        · rintro ⟨k, hk, hkmod, hlast⟩
          have hlt : k < items.length + 1 := by
            simpa using (List.getElem?_eq_some_iff.mp hk).1
          have hsame : k = items.length := by
            rw [List.length_append, List.length_singleton] at hlast
            by_contra hne
            have hdvd : size ∣ items.length - k := Nat.dvd_of_mod_eq_zero
              (Nat.sub_mod_eq_zero_of_mod_eq (hmod.trans hkmod.symm))
            have hle := Nat.le_of_dvd (by omega) hdvd
            omega
          subst hsame
          simpa using hk
      · rw [Function.update_of_ne hslot]
        refine Iff.trans ih ?_
        constructor
        · rintro ⟨k, hk, hkmod, hlast⟩
          have hlt := (List.getElem?_eq_some_iff.mp hk).1
          refine ⟨k, by rw [List.getElem?_append_left hlt, hk], hkmod, ?_⟩
          have hne : items.length ≠ k + size := by
            intro heq
            apply hslot
            apply Fin.ext
            change (slot : Nat) = items.length % size
            rw [heq, Nat.add_mod_right, hkmod]
          rw [List.length_append, List.length_singleton]
          omega
        · rintro ⟨k, hk, hkmod, hlast⟩
          rw [List.length_append, List.length_singleton] at hlast
          have hne : k ≠ items.length := by
            rintro rfl
            exact hslot (Fin.ext hkmod.symm)
          have hlt : k < items.length + 1 := by
            simpa using (List.getElem?_eq_some_iff.mp hk).1
          rw [List.getElem?_append_left (by omega)] at hk
          exact ⟨k, hk, hkmod, by omega⟩

end SystemsProgramming
