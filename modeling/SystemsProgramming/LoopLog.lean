/-
A loop that writes a log.  A round may be undefined, and after its last write the loop may go
round for ever, so that the log is complete is a statement about all of its rounds.
-/
import Mathlib.Data.List.Infix
import Mathlib.Logic.Function.Iterate

namespace SystemsProgramming

namespace LoopLog

universe u v

variable {S : Type u} {E : Type v} {next : S → Option S} {log : S → List E} {s t : S}
  {expected : List E}

def rounds (next : S → Option S) : Nat → S → Option S
  | 0, s => some s
  | k + 1, s => (next s).bind (rounds next k)

/-- All rounds are defined, the log is always a beginning of what is expected, and at some
round it is all of it. -/
def Logs (next : S → Option S) (log : S → List E) (s : S) (expected : List E) : Prop :=
  (∀ k, ∃ t, rounds next k s = some t ∧ log t <+: expected) ∧
    ∃ k t, rounds next k s = some t ∧ log t = expected

theorem rounds_succ (hnext : next s = some t) (k : Nat) :
    rounds next (k + 1) s = rounds next k t := by
  rw [rounds, hnext, Option.bind_some]

theorem rounds_fixed (hfixed : next s = some s) (k : Nat) : rounds next k s = some s := by
  induction k with
  | zero => rfl
  | succ k ih => rw [rounds_succ hfixed, ih]

/-- A loop that stays where it is has to be done. -/
theorem logs_fixed (hfixed : next s = some s) : Logs next log s expected ↔ log s = expected := by
  constructor
  · rintro ⟨-, k, t, hrounds, hlog⟩
    obtain rfl : s = t := Option.some.inj ((rounds_fixed hfixed k).symm.trans hrounds)
    exact hlog
  · rintro rfl
    exact ⟨fun k => ⟨s, rounds_fixed hfixed k, List.prefix_refl _⟩, 0, s, rfl, rfl⟩

/-- A round that only writes something decides nothing. -/
theorem logs_next (hnext : next s = some t) (hmore : log s <+: log t) :
    Logs next log s expected ↔ Logs next log t expected := by
  constructor
  · rintro ⟨hdefined, k, last, hrounds, hlog⟩
    refine ⟨fun k => ?_, ?_⟩
    · rw [← rounds_succ hnext]
      exact hdefined (k + 1)
    · cases k with
      | zero =>
          -- what was complete before the round is so behind it
          obtain rfl : s = last := Option.some.inj hrounds
          obtain ⟨t', hone, hle⟩ := hdefined 1
          rw [rounds_succ hnext] at hone
          obtain rfl : t = t' := Option.some.inj hone
          exact ⟨0, t, rfl, hle.eq_of_length_le (hlog ▸ hmore.length_le)⟩
      | succ k => exact ⟨k, last, rounds_succ hnext k ▸ hrounds, hlog⟩
  · rintro ⟨hdefined, k, last, hrounds, hlog⟩
    refine ⟨fun k => ?_, k + 1, last, (rounds_succ hnext k).trans hrounds, hlog⟩
    cases k with
    | zero =>
        obtain ⟨t', hzero, hle⟩ := hdefined 0
        obtain rfl : t = t' := Option.some.inj hzero
        exact ⟨s, rfl, hmore.trans hle⟩
    | succ k =>
        rw [rounds_succ hnext]
        exact hdefined k

/-- Nothing makes up for a round that is undefined or writes what is not expected. -/
theorem not_logs (hwrong : ∀ t, next s = some t → ¬ log t <+: expected) :
    ¬ Logs next log s expected := by
  rintro ⟨hdefined, -⟩
  obtain ⟨t, hone, hle⟩ := hdefined 1
  obtain ⟨t', hnext, hzero⟩ := Option.bind_eq_some_iff.mp hone
  obtain rfl : t' = t := Option.some.inj hzero
  exact hwrong t' hnext hle

/-- A log that has become longer than what is expected. -/
theorem not_logs_of_length_lt (k : Nat)
    (hlong : ∀ t ∈ rounds next k s, expected.length < (log t).length) :
    ¬ Logs next log s expected := by
  rintro ⟨hdefined, -⟩
  obtain ⟨t, hrounds, hle⟩ := hdefined k
  exact absurd hle.length_le (not_le.mpr (hlong t hrounds))

section Total

variable {round : S → S}

theorem rounds_total (s : S) (k : Nat) :
    rounds (fun s => some (round s)) k s = some (round^[k] s) := by
  induction k generalizing s with
  | zero => rfl
  | succ k ih => exact ih (round s)

/-- The case of a loop whose rounds are all defined. -/
theorem logs_total : Logs (fun s => some (round s)) log s expected ↔
    (∀ k, log (round^[k] s) <+: expected) ∧ ∃ k, log (round^[k] s) = expected := by
  simp only [Logs, rounds_total, Option.some.injEq, exists_eq_left']

theorem logs_total_fixed (hfixed : round s = s) :
    Logs (fun s => some (round s)) log s expected ↔ log s = expected :=
  logs_fixed (congrArg some hfixed)

theorem logs_total_next (hnext : round s = t) (hmore : log s <+: log t) :
    Logs (fun s => some (round s)) log s expected ↔
      Logs (fun s => some (round s)) log t expected :=
  logs_next (congrArg some hnext) hmore

end Total

end LoopLog

end SystemsProgramming
