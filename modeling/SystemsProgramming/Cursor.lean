/-
A cursor over an endless row of places, which stand for slots in turn.  Each move takes it
to the first place behind it whose slot is not taken, so between two stops at one slot every
slot that has been free all the time has had its turn.
-/
import Mathlib.Data.List.Basic
import Mathlib.Order.Lattice

namespace SystemsProgramming

namespace Cursor

universe u v

variable {ι : Type u} {β : Type v}

/-- A stop of the cursor, with the slots that were taken when it moved there. -/
structure Stop (ι : Type u) (β : Type v) where
  place : ι
  taken : β → Bool

/-- Where the cursor is after these stops. -/
def final (last : ι) (stops : List (Stop ι β)) : ι :=
  stops.foldl (fun _ stop => stop.place) last

@[simp] theorem final_append_singleton (last : ι) (stops : List (Stop ι β)) (stop : Stop ι β) :
    final last (stops ++ [stop]) = stop.place := by
  simp [final]

variable [LinearOrder ι]

/-- Between two places of one slot each other slot comes up. -/
def Cyclic (slotOf : ι → β) : Prop :=
  ∀ i j, i < j → slotOf i = slotOf j → ∀ slot, slot ≠ slotOf i →
    ∃ k, (i < k ∧ k < j) ∧ slotOf k = slot

/-- The cursor moves from `last` to the first place behind it whose slot is not taken. -/
structure Moves (slotOf : ι → β) (last : ι) (stop : Stop ι β) : Prop where
  lt : last < stop.place
  free : stop.taken (slotOf stop.place) = false
  first : ∀ i, last < i → i < stop.place → stop.taken (slotOf i) = true

/-- The stops of a cursor that starts at `last`. -/
def Path (slotOf : ι → β) : ι → List (Stop ι β) → Prop
  | _, [] => True
  | last, stop :: rest => Moves slotOf last stop ∧ Path slotOf stop.place rest

variable {slotOf : ι → β} {last : ι} {stops rest : List (Stop ι β)}

theorem path_append : Path slotOf last (stops ++ rest) ↔
    Path slotOf last stops ∧ Path slotOf (final last stops) rest := by
  induction stops generalizing last with
  | nil => simp [Path, final]
  | cons stop stops ih =>
      rw [List.cons_append, Path, Path, ih, and_assoc]
      rfl

theorem Path.lt_place (hpath : Path slotOf last stops) : ∀ stop ∈ stops, last < stop.place := by
  induction stops generalizing last with
  | nil => simp
  | cons stop stops ih =>
      rw [List.forall_mem_cons]
      exact ⟨hpath.1.lt, fun other hmem => hpath.1.lt.trans (ih hpath.2 other hmem)⟩

/-- A place that the cursor reaches or passes, and whose slot is free at every move, is one
of its stops. -/
theorem Path.exists_stop (hpath : Path slotOf last stops) {i : ι} (hlast : last < i)
    (hfinal : i ≤ final last stops) (hfree : ∀ stop ∈ stops, stop.taken (slotOf i) = false) :
    ∃ stop ∈ stops, stop.place = i := by
  induction stops generalizing last with
  | nil => exact absurd hlast (not_lt.mpr hfinal)
  | cons stop stops ih =>
      obtain ⟨hmoves, hrest⟩ := hpath
      rcases lt_trichotomy i stop.place with hbefore | heq | hbehind
      · have htaken := hmoves.first i hlast hbefore
        rw [hfree stop List.mem_cons_self] at htaken
        cases htaken
      · exact ⟨stop, List.mem_cons_self, heq.symm⟩
      · obtain ⟨other, hmem, hplace⟩ := ih hrest hbehind hfinal
          fun other hmem => hfree other (List.mem_cons_of_mem stop hmem)
        exact ⟨other, List.mem_cons_of_mem stop hmem, hplace⟩

/-- Between two stops at one slot the cursor has stopped at each other slot that was free all
the time. -/
theorem Path.fair (hcyclic : Cyclic slotOf) {before between after : List (Stop ι β)}
    {first second : Stop ι β}
    (hpath : Path slotOf last (before ++ first :: (between ++ second :: after)))
    (hsame : slotOf first.place = slotOf second.place) {slot : β} (hne : slot ≠ slotOf first.place)
    (hfree : ∀ stop ∈ between ++ [second], stop.taken slot = false) :
    ∃ stop ∈ between, slotOf stop.place = slot := by
  have hsplit : between ++ second :: after = (between ++ [second]) ++ after := by simp
  obtain ⟨-, -, hbehind⟩ := path_append.mp hpath
  rw [hsplit] at hbehind
  have hturn := (path_append.mp hbehind).1
  have hlt : first.place < second.place := hturn.lt_place second (by simp)
  obtain ⟨k, ⟨hk, hk'⟩, rfl⟩ := hcyclic _ _ hlt hsame slot hne
  obtain ⟨stop, hmem, rfl⟩ := hturn.exists_stop hk (by simpa using le_of_lt hk') hfree
  rcases List.mem_append.mp hmem with hmem | hmem
  · exact ⟨stop, hmem, rfl⟩
  · rw [List.mem_singleton.mp hmem] at hk'
    exact absurd hk' (lt_irrefl _)

end Cursor

end SystemsProgramming
