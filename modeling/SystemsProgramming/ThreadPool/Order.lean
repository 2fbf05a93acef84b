/-
The order of the tasks.  The queue is first in, first out over all workers, and a
task that has left it is with the one worker that took it.
-/
import SystemsProgramming.ThreadPool.Ledger

namespace SystemsProgramming

namespace ThreadPool

variable {F A : Type} {n k : Nat}

/-- The return of `func` in a worker, with the task that it was called for. -/
def State.execution (s : State F A n k) : Action n k → List (Fin n × Task F A)
  | .worker w => (s.workers w).inFunc.toList.map fun task => (w, task)
  | _ => []

/-- The tasks that the workers have executed, in the order in which they finished. -/
def executions (n : Nat) (scripts : Fin k → List (Call F A)) (actions : List (Action n k)) :
    List (Fin n × Task F A) :=
  (pool n scripts).trace State.execution (State.init n scripts) actions

/-- What has been executed is what is finished, by the worker that removed it. -/
structure Executed (s : State F A n k) (log : List (Fin n × Task F A)) : Prop where
  finished : log.map Prod.snd = s.finished
  removed : ∀ entry ∈ log, entry ∈ s.removed

theorem Executed.moves {s t : State F A n k} {a : Action n k} {log : List (Fin n × Task F A)}
    (hlog : Executed s log) (hledger : Ledger s) (hmove : Moves s a t) :
    Executed t (log ++ s.execution a) := by
  have hquiet : t.finished = s.finished → s.removed ⊆ t.removed → s.execution a = [] →
      Executed t (log ++ s.execution a) := by
    intro hfinished hremoved hnone
    rw [hnone, List.append_nil]
    exact ⟨hlog.finished.trans hfinished.symm, fun entry hentry =>
      hremoved (hlog.removed entry hentry)⟩
  cases hmove with
  | finish w task hplace =>
      have hhand : (s.workers w).inHand = some task := by simp [hplace, WorkerAt.inHand]
      have hone : s.execution (.worker w) = [(w, task)] := by
        simp [State.execution, hplace, WorkerAt.inFunc]
      rw [hone]
      constructor
      · simp [hlog.finished]
      · intro entry hentry
        rcases List.mem_append.mp hentry with hold | hnew
        · exact hlog.removed entry hold
        · rw [List.mem_singleton.mp hnew]
          exact hledger.inHand_removed w task hhand
  | take w task rest hplace =>
      apply hquiet rfl
      · exact List.subset_append_left _ _
      · rcases hplace with h | h <;> simp [State.execution, h, WorkerAt.inFunc]
  | sleep w hplace | quit w hplace =>
      apply hquiet rfl (List.Subset.refl _)
      rcases hplace with h | h <;> simp [State.execution, h, WorkerAt.inFunc]
  | exit w hplace | call w task hplace =>
      apply hquiet rfl (List.Subset.refl _)
      simp [State.execution, hplace, WorkerAt.inFunc]
  | _ => exact hquiet rfl (List.Subset.refl _) rfl

/-- No task is lost, duplicated or overtaken: the removed tasks and the queue are the
linked tasks in order, and each removed task is held by exactly one worker, or has
been executed by exactly one and once. -/
theorem removed_append_taskQueue (scripts : Fin k → List (Call F A))
    (actions : List (Action n k)) {s : State F A n k}
    (hrun : (pool n scripts).run (State.init n scripts) actions = some s) :
    s.removed.map Prod.snd ++ s.taskQueue = s.linked ∧ s.linked.Nodup ∧
      (∀ task ∈ s.removed.map Prod.snd, ∃! w,
        (s.workers w).inHand = some task ∨ (w, task) ∈ executions n scripts actions) ∧
      (executions n scripts actions).Nodup ∧
      ∀ w task, (s.workers w).inHand = some task →
        ∀ v, (v, task) ∉ executions n scripts actions := by
  have hreach : (pool n scripts).Reachable s :=
    TransitionSystem.Reachable.run (.start rfl) actions hrun
  obtain ⟨-, halloc, hledger⟩ := reachable_books hreach
  have hlog : Executed s (executions n scripts actions) := by
    have hboth : Books s ∧ Executed s (executions n scripts actions) := by
      refine TransitionSystem.trace_invariant State.execution
        (fun s log => Books s ∧ Executed s log) ?_ ?_
        (TransitionSystem.meets_true _ actions) hrun
      · rintro s a t log ⟨hbooks, hlog⟩ - hstep
        have hmove := step_moves hstep
        exact ⟨⟨hbooks.booted.moves hmove, hbooks.allocated.moves hmove,
          hbooks.ledger.moves hbooks.booted hbooks.allocated hmove⟩,
          hlog.moves hbooks.ledger hmove⟩
      · exact ⟨Books.init scripts, rfl, by simp⟩
    exact hboth.2
  refine ⟨hledger.conserved, halloc.nodup, ?_, ?_, ?_⟩
  · intro task htask
    obtain ⟨⟨w, other⟩, hw, rfl⟩ := List.mem_map.mp htask
    have hone : ∀ v, (s.workers v).inHand = some other ∨
        (v, other) ∈ executions n scripts actions → v = w := by
      rintro v (hhand | hexecuted)
      · exact hledger.removed_unique halloc (hledger.inHand_removed v other hhand) hw
      · exact hledger.removed_unique halloc (hlog.removed _ hexecuted) hw
    refine ⟨w, ?_, hone⟩
    rcases hledger.removed_split w _ hw with hfinished | hhand
    · right
      rw [← hlog.finished] at hfinished
      obtain ⟨⟨v, _⟩, hv, rfl⟩ := List.mem_map.mp hfinished
      have hvw := hledger.removed_unique halloc (hlog.removed _ hv) hw
      exact hvw ▸ hv
    · exact .inl hhand
  · have hnodup := hledger.finished_nodup
    rw [← hlog.finished] at hnodup
    exact hnodup.of_map
  · intro w task hhand v hexecuted
    apply hledger.inHand_unfinished w task hhand
    rw [← hlog.finished]
    exact List.mem_map_of_mem hexecuted

namespace TwoWorkers

/-- One client that adds three tasks. -/
def scripts : Fin 1 → List (Call Unit Nat) := fun _ => [.add () 7, .add () 8, .add () 9]

/-- The second worker executes the first task while the first one holds the second
task. -/
def actions : List (Action 2 1) :=
  [.create, .create] ++ List.replicate 6 (.client sole) ++
    [.worker right, .worker left, .worker right, .worker right]

def state : State Unit Nat 2 1 :=
  ((pool 2 scripts).run (State.init 2 scripts) actions).getD (State.init 2 scripts)

end TwoWorkers

theorem removed_append_taskQueue_two_workers :
    TwoWorkers.state.removed.map Prod.snd ++ TwoWorkers.state.taskQueue =
        TwoWorkers.state.linked ∧
      ∃! w, (TwoWorkers.state.workers w).inHand = some ⟨0, (), 7⟩ ∨
        (w, ⟨0, (), 7⟩) ∈ executions 2 TwoWorkers.scripts TwoWorkers.actions := by
  obtain ⟨hqueue, -, hone, -⟩ :=
    removed_append_taskQueue TwoWorkers.scripts TwoWorkers.actions
      (s := TwoWorkers.state) rfl
  exact ⟨hqueue, hone _ (by decide)⟩

end ThreadPool

end SystemsProgramming
