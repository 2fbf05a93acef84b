/-
What a return of `tpool_wait` says about the tasks added before the call.  The
loop of `tpool_wait` tests `task_queue` only, and a task that a worker has taken
out of it may still be running.
-/
import SystemsProgramming.ThreadPool.Ledger

namespace SystemsProgramming

namespace ThreadPool

variable {F A : Type} {n k : Nat}

/-- In the step from `s` to `t` a call of `tpool_wait` by client `c` returns;
`before` are the tasks whose `tpool_add` had returned when it was called. -/
structure WaitReturns (s : State F A n k) (c : Fin k) (before : List (Task F A))
    (t : State F A n k) : Prop where
  called : (s.clients c).place = .waits before ∨ (s.clients c).place = .woken before
  step : s.step (.client c) = some t
  returned : (t.clients c).place = .idle

/-- Every return of `tpool_wait` finds the tasks added before the call finished. -/
def WaitCompletes (n : Nat) (scripts : Fin k → List (Call F A)) : Prop :=
  ∀ s, (pool n scripts).Reachable s → ∀ c before t, WaitReturns s c before t →
    ∀ task ∈ before, task ∈ t.finished

/-- A call of `tpool_wait` returns from its critical section with an empty queue. -/
theorem WaitReturns.queue_empty {s t : State F A n k} {c : Fin k}
    {before : List (Task F A)} (hret : WaitReturns s c before t) :
    s.taskQueue = [] ∧ t = s.setClient c { s.clients c with place := .idle } := by
  have hstep : s.clientStep c = some t := by
    have h := hret.step
    simp only [State.step, Option.ite_none_right_eq_some] at h
    exact h.2
  have ht : s.tpoolWait c before = t := by
    rcases hret.called with h | h <;> simpa [State.clientStep, h] using hstep
  by_cases hqueue : s.taskQueue = []
  · refine ⟨hqueue, ?_⟩
    simpa [State.tpoolWait, hqueue] using ht.symm
  · have hreturned := hret.returned
    rw [← ht] at hreturned
    simp [State.tpoolWait, hqueue] at hreturned

namespace EarlyReturn

/-- One client that adds a task and waits. -/
def scripts : Fin 1 → List (Call Unit Unit) := fun _ => [.add () (), .wait]

def task : Task Unit Unit := ⟨0, (), ()⟩

/-- The only worker has taken the task out of the queue and not started it when
the client calls `tpool_wait`. -/
def state : State Unit Unit 1 1 :=
  ((pool 1 scripts).run (State.init 1 scripts)
    [.create, .client sole, .client sole, .worker sole, .client sole]).getD (State.init 1 scripts)

def next : State Unit Unit 1 1 :=
  state.setClient sole { state.clients sole with place := .idle }

theorem reachable : (pool 1 scripts).Reachable state :=
  TransitionSystem.Reachable.run (.start rfl)
    [.create, .client sole, .client sole, .worker sole, .client sole] rfl

theorem waitReturns : WaitReturns state 0 [task] next :=
  ⟨Or.inl rfl, rfl, rfl⟩

theorem not_finished : task ∉ next.finished := by decide

end EarlyReturn

/-- With one worker and one task, `tpool_wait` can return before the task has
started. -/
theorem not_waitCompletes_one_worker : ¬ WaitCompletes 1 EarlyReturn.scripts := by
  intro hcompletes
  exact EarlyReturn.not_finished (hcompletes EarlyReturn.state EarlyReturn.reachable 0 _ _
    EarlyReturn.waitReturns EarlyReturn.task List.mem_cons_self)

/-- When `tpool_wait` returns, the queue is empty and every task added before the
call was taken out of it by exactly one worker, which has finished it or still
has it in hand.  So all of them are finished exactly when no worker has one of
them in hand. -/
theorem waitReturns_taken {scripts : Fin k → List (Call F A)} {s t : State F A n k}
    {c : Fin k} {before : List (Task F A)} (hreach : (pool n scripts).Reachable s)
    (hret : WaitReturns s c before t) :
    t.taskQueue = [] ∧
      (∀ task ∈ before, (∃! w, (w, task) ∈ t.removed) ∧
        (task ∈ t.finished ∨
          ∃ w, (w, task) ∈ t.removed ∧ (t.workers w).inHand = some task)) ∧
      ((∀ task ∈ before, task ∈ t.finished) ↔
        ∀ w, ∀ task ∈ before, (t.workers w).inHand ≠ some task) := by
  obtain ⟨-, halloc, hledger⟩ := reachable_books hreach
  obtain ⟨hqueue, rfl⟩ := hret.queue_empty
  have hremoved : ∀ task ∈ before, ∃ w, (w, task) ∈ s.removed := by
    intro task htask
    have hlinked := halloc.waits_linked c before (by have := hret.called; tauto) task htask
    rw [← hledger.conserved, hqueue, List.append_nil, List.mem_map] at hlinked
    obtain ⟨⟨w, _⟩, hmem, rfl⟩ := hlinked
    exact ⟨w, hmem⟩
  refine ⟨hqueue, ?_, ?_⟩
  · intro task htask
    obtain ⟨w, hw⟩ := hremoved task htask
    refine ⟨⟨w, hw, fun v hv => hledger.removed_unique halloc hv hw⟩, ?_⟩
    exact (hledger.removed_split w task hw).imp_right fun hin => ⟨w, hw, hin⟩
  · constructor
    · intro hfinished w task htask hin
      exact hledger.inHand_unfinished w task hin (hfinished task htask)
    · intro hnone task htask
      obtain ⟨w, hw⟩ := hremoved task htask
      exact (hledger.removed_split w task hw).resolve_right (hnone w task htask)

/-- In the run above the worker still has the task in hand. -/
theorem waitReturns_taken_one_worker :
    EarlyReturn.next.taskQueue = [] ∧
      (EarlyReturn.next.workers 0).inHand = some EarlyReturn.task ∧
      ¬ ∀ task ∈ [EarlyReturn.task], task ∈ EarlyReturn.next.finished := by
  obtain ⟨hqueue, -, hiff⟩ :=
    waitReturns_taken EarlyReturn.reachable EarlyReturn.waitReturns
  refine ⟨hqueue, rfl, fun hall => ?_⟩
  exact hiff.mp hall 0 EarlyReturn.task List.mem_cons_self rfl

end ThreadPool

end SystemsProgramming
