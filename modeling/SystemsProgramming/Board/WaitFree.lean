/-
No server process waits for another one.  Between two requests a process makes a bounded
number of system calls on the file (an `lseek` is private to it and goes with its `write`),
and none of them is refused because of a lock.
-/
import SystemsProgramming.Board.Atomicity

namespace SystemsProgramming

namespace Board

/-- The system calls that are left in a request, at most. -/
def Phase.calls : Phase → Nat
  | .idle => 0
  | .counting (.pull _) i _ => recordNum - i + recordNum
  | .counting _ i _ => recordNum - i
  | .replying _ i _ => recordNum - i
  | .scanning _ again k => (if again then 0 else recordNum) + (recordNum - k) + 3
  | .locking _ _ => 3
  | .writing _ _ => 2
  | .unlocking _ _ => 1

/-- The calls of a post for which both scans try every slot. -/
def maxCalls : Nat := recordNum + recordNum + 3

def Work.isCall : Work → Bool
  | .call => true
  | _ => false

/-- The work that starts a request or greets a connection. -/
def Work.begins : Work → Bool
  | .accept => true
  | .request _ => true
  | _ => false

variable {ι : Type*} [DecidableEq ι] {s t : Machine ι} {above : Shared ι} {i k : ι}

namespace Caller

variable {v v' : Caller} {received : Received}

theorem counted_calls (found : Bool) (counter : Counter) (slot : Slot) (n : Nat) :
    (v.counted found counter slot n).phase.calls + 1 ≤
      (Phase.counting counter slot n).calls := by
  have hlt := slot.isLt
  rcases v.counted_phase found counter slot n with ⟨next, m, hnext, h⟩ | h | ⟨received, rfl, h⟩
  · have hval := nextSlot_val hnext
    rw [h]
    cases counter <;> simp only [Phase.calls] <;> omega
  · rw [h]
    cases counter <;> simp only [Phase.calls, recordNum] at hlt ⊢ <;> omega
  · rw [h]
    simp only [Phase.calls, recordNum] at hlt ⊢
    omega

theorem replied_calls (found : Bool) (slot : Slot) (tmp : List Char) :
    (v.replied found received slot tmp).phase.calls + 1 ≤
      (Phase.replying received slot tmp).calls := by
  have hlt := slot.isLt
  rcases v.replied_phase found slot tmp with ⟨next, _, hnext, h⟩ | h
  · have hval := nextSlot_val hnext
    rw [h]
    simp only [Phase.calls]
    omega
  · rw [h]
    simp only [Phase.calls]
    omega

theorem scanned_calls (found : Bool) (again : Bool) {n : Nat} (hn : n < recordNum) :
    (v.scanned found received again n).phase.calls + 1 ≤
      (Phase.scanning received again n).calls := by
  rcases v.scanned_phase found again rfl with ⟨-, h⟩ | ⟨⟨-, hmore⟩, h⟩ | ⟨⟨-, -, rfl⟩, h⟩ | ⟨-, h⟩
  · rw [h]
    simp only [Phase.calls]
    omega
  · rw [h]
    simp only [Phase.calls]
    omega
  · rw [h]
    simp only [Phase.calls, if_true, if_false, Bool.false_eq_true]
    omega
  · rw [h]
    simp only [Phase.calls]
    omega

theorem request_calls (hidle : v.phase = .idle) (hrequest : v.request received = some v') :
    v'.phase.calls ≤ maxCalls := by
  rcases v.request_phase hrequest with ⟨_, -, rfl | rfl, h⟩ | ⟨-, h⟩ | ⟨-, h⟩
  · rw [h]
    simp [Phase.calls, maxCalls, recordNum]
  · rw [h]
    simp [Phase.calls, maxCalls, recordNum]
  · rw [h, hidle]
    exact Nat.zero_le _
  · rw [h]
    simp [Phase.calls, maxCalls, recordNum]

end Caller

namespace Machine

/-- A call of a process takes one from what is left of its request. -/
theorem Refines.call_lt (hrefines : s.Refines above) (hcall : s.call i = some t) :
    (t.server i).phase.calls + 1 ≤ (s.server i).phase.calls := by
  cases called hcall with
  | counting hphase =>
      rw [Machine.test, server_setServer_self, hphase]
      exact Caller.counted_calls _ _ _ _
  | replying hphase =>
      rw [Machine.test, server_setServer_self, hphase]
      exact Caller.replied_calls _ _ _
  | scanning hphase =>
      have hsim := hrefines.simulates i
      simp only [Caller.Simulates, hphase] at hsim
      obtain ⟨-, -, -, hn, -⟩ := hsim
      rw [Machine.test, server_setServer_self, hphase]
      exact Caller.scanned_calls _ _ hn
  | locking hphase | writing hphase | unlocking hphase =>
      rw [server_setServer_self, hphase]
      exact Nat.le_refl _

/-- What a step of `k` takes from the calls that are left to `i`, and what it adds. -/
theorem Refines.step_calls (hrefines : s.Refines above) {work : Work}
    (hstep : s.step (k, work) = some t) :
    (if decide (k = i) && work.isCall then 1 else 0) + (t.server i).phase.calls ≤
      (s.server i).phase.calls + if decide (k = i) && work.begins then maxCalls else 0 := by
  by_cases hk : k = i
  · subst hk
    simp only [decide_true, Bool.true_and]
    cases work with
    | call =>
        have hless := hrefines.call_lt hstep
        simp only [Work.isCall, Work.begins, if_true, Bool.false_eq_true, if_false]
        omega
    | refresh =>
        obtain ⟨hphase, rfl⟩ := step_refresh hstep
        rw [server_setServer_self]
        simp [Work.isCall, Work.begins]
    | accept =>
        obtain ⟨hphase, rfl⟩ := step_accept hstep
        rw [server_setServer_self]
        simp [Work.isCall, Work.begins, Phase.calls, maxCalls, recordNum]
    | request received =>
        obtain ⟨hphase, v, hrequest, rfl⟩ := step_request hstep
        have hle := Caller.request_calls hphase hrequest
        rw [server_setServer_self]
        simp only [Work.isCall, Work.begins, if_true, Bool.false_eq_true, if_false]
        omega
  · rw [step_server_of_ne hstep (Ne.symm hk)]
    simp [hk]

/-- Only an undefined parse keeps a process from its next call. -/
theorem call_isSome (hbusy : (s.server i).phase ≠ .idle)
    (hparse : ∀ received pos, (s.server i).phase = .writing received pos →
      (parsePost received.tmp received.j received.buf).isSome) : (s.call i).isSome := by
  cases hphase : (s.server i).phase with
  | idle => exact absurd hphase hbusy
  | writing received pos => simpa [Machine.call, hphase] using hparse received pos hphase
  | _ => simp [Machine.call, hphase]

end Machine

/-- In every run each process has made at most 23 system calls on the file for each request it
has read and each connection it has greeted, whatever the other processes have done, and in the
middle of a request it can go on, unless its post overruns the record. -/
theorem calls_le (file : List Char) (heap : ι → List Char) {works : List (ι × Work)}
    {s : Machine ι} (hrun : (calling ι).run (Machine.init file heap) works = some s) (i : ι) :
    works.countP (fun work => decide (work.1 = i) && work.2.isCall) ≤
        23 * works.countP (fun work => decide (work.1 = i) && work.2.begins) ∧
      ((s.server i).phase ≠ .idle → (s.call i).isSome ∨ ∃ received pos,
        (s.server i).phase = .writing received pos ∧
          parsePost received.tmp received.j received.buf = none) := by
  constructor
  · have hkept : ∀ (s : Machine ι) action t, (∃ above, s.Refines above) →
        (calling ι).step s action = some t → ∃ above, t.Refines above := by
      rintro s ⟨k, work⟩ t ⟨above, hrefines⟩ hstep
      obtain ⟨later, -, -, hlater⟩ := hrefines.step hstep
      exact ⟨later, hlater⟩
    have hle := TransitionSystem.run_weight_le (fun s => (s.server i).phase.calls)
      (fun work => if decide (work.1 = i) && work.2.isCall then 1 else 0)
      (fun work => if decide (work.1 = i) && work.2.begins then maxCalls else 0) hkept ?_
      ⟨_, Machine.refines_init file heap⟩ hrun
    · rw [TransitionSystem.sum_map_ite, TransitionSystem.sum_map_ite] at hle
      change 1 * _ + _ ≤ 0 + 23 * _ at hle
      omega
    · rintro s ⟨k, work⟩ t ⟨above, hrefines⟩ hstep
      exact hrefines.step_calls hstep
  · intro hbusy
    by_cases hparse : ∃ received pos, (s.server i).phase = .writing received pos ∧
        parsePost received.tmp received.j received.buf = none
    · exact .inr hparse
    · left
      apply Machine.call_isSome hbusy
      intro received pos hphase
      rw [Option.isSome_iff_ne_none]
      exact fun hnone => hparse ⟨received, pos, hphase, hnone⟩

theorem calls_le_race :
    Race.works.countP (fun work => decide (work.1 = false) && work.2.isCall) ≤
        23 * Race.works.countP (fun work => decide (work.1 = false) && work.2.begins) ∧
      ((Race.state.server false).phase ≠ .idle → (Race.state.call false).isSome ∨
        ∃ received pos, (Race.state.server false).phase = .writing received pos ∧
          parsePost received.tmp received.j received.buf = none) :=
  calls_le [] Race.heap rfl false

end Board

end SystemsProgramming
