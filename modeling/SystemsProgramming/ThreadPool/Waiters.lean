/-
The clients that sleep in `tpool_wait`.  A worker that finds the queue empty after
its task signals `queue_empty`, which wakes up one client; the others sleep on.
-/
import SystemsProgramming.ThreadPool.Ledger

namespace SystemsProgramming

namespace ThreadPool

variable {F A : Type} {n k : Nat} {s t : State F A n k}

/-- No client sleeps on `queue_empty` with the queue empty and no worker on the way
to signal it. -/
def NoneLeftAsleep (s : State F A n k) : Prop :=
  s.taskQueue = [] → (∀ w, (s.workers w).isBusy = false) →
    ∀ c, (s.clients c).place.isAsleep = false

/-- The last worker on the way to signal `queue_empty` wakes up the only client that
sleeps on it. -/
def SignalSuffices (s : State F A n k) : Action n k → Prop
  | .report w (some c) =>
      s.workers w = .ran → s.taskQueue = [] → (∀ v, v ≠ w → (s.workers v).isBusy = false) →
        (s.clients c).place.isAsleep = true → ∀ d, (s.clients d).place.isAsleep = true → d = c
  | _ => True

@[simp] theorem WorkerAt.isBusy_wake (p : WorkerAt F A) : p.wake.isBusy = p.isBusy := by
  cases p <;> rfl

/-- A step that neither empties the queue nor sends a client to sleep, and leaves the
busy workers busy. -/
theorem NoneLeftAsleep.of_busy (hs : NoneLeftAsleep s)
    (hqueue : t.taskQueue = [] → s.taskQueue = [])
    (hbusy : ∀ w, (s.workers w).isBusy = true → (t.workers w).isBusy = true)
    (hasleep : ∀ c, (t.clients c).place.isAsleep = true → (s.clients c).place.isAsleep = true) :
    NoneLeftAsleep t := by
  intro hempty hidle c
  have hnone := hs (hqueue hempty) (fun w => ?_) c
  · rw [Bool.eq_false_iff] at hnone ⊢
    exact fun h => hnone (hasleep c h)
  · have h := hidle w
    rw [Bool.eq_false_iff] at h ⊢
    exact fun hw => h (hbusy w hw)

/-- A worker that is not busy, or stays so, moves. -/
theorem NoneLeftAsleep.setWorker (hs : NoneLeftAsleep s) {w : Fin n} {p : WorkerAt F A}
    (hp : (s.workers w).isBusy = true → p.isBusy = true) : NoneLeftAsleep (s.setWorker w p) := by
  refine hs.of_busy (t := s.setWorker w p) id (fun v hv => ?_) fun _ => id
  by_cases hvw : v = w
  · subst hvw
    simpa using hp hv
  · simpa [hvw] using hv

/-- A client that does not fall asleep moves. -/
theorem NoneLeftAsleep.setClient (hs : NoneLeftAsleep s) {c : Fin k} {client : Client F A}
    (hclient : client.place.isAsleep = false) : NoneLeftAsleep (s.setClient c client) := by
  refine hs.of_busy (t := s.setClient c client) id (fun _ => id) fun d hd => ?_
  by_cases hdc : d = c
  · simp [hdc, hclient] at hd
  · simpa [hdc] using hd

theorem NoneLeftAsleep.moves {a : Action n k} (hs : NoneLeftAsleep s) (hboot : Booted s)
    (hsuffices : SignalSuffices s a) (hmove : Moves s a t) : NoneLeftAsleep t := by
  cases hmove with
  | create h =>
      have hmoved : NoneLeftAsleep { s with created := s.created + 1 } := hs
      have hunborn : s.workers ⟨s.created, h⟩ = .unborn := (hboot.unborn _).mpr (Nat.le_refl _)
      exact hmoved.setWorker fun hbusy => by simp [hunborn, WorkerAt.isBusy] at hbusy
  | sleep w hplace | quit w hplace =>
      apply hs.setWorker
      rcases hplace with h | h <;> simp [h, WorkerAt.isBusy]
  | take w task rest hplace =>
      intro _ hidle
      have hw := hidle w
      simp [WorkerAt.isBusy] at hw
  | exit w hplace | spuriousWorker w hplace =>
      apply hs.setWorker
      simp [hplace, WorkerAt.isBusy]
  | call w task hplace =>
      have hmoved : NoneLeftAsleep { s with started := s.started ++ [task] } := hs
      exact hmoved.setWorker fun _ => rfl
  | finish w task hplace =>
      have hmoved : NoneLeftAsleep { s with finished := s.finished ++ [task] } := hs
      exact hmoved.setWorker fun _ => rfl
  | report w hplace hquiet =>
      intro hempty _
      exact hquiet hempty
  | signal w c before hplace hqueue hasleep =>
      intro _ hidle d
      have hothers : ∀ v, v ≠ w → (s.workers v).isBusy = false := by
        intro v hv
        simpa [hv] using hidle v
      have honly := hsuffices hplace hqueue hothers (by simp [hasleep, ClientAt.isAsleep]) d
      by_cases hdc : d = c
      · simp [hdc, ClientAt.isAsleep]
      · have hawake : (s.clients d).place.isAsleep = false :=
          Bool.eq_false_iff.mpr fun h => hdc (honly h)
        simpa [hdc] using hawake
  | linkFirst | linkLast =>
      intro hempty
      simp [State.broadcastNotEmpty] at hempty
  | waitSleep c before _ _ hqueue =>
      intro hempty
      exact absurd hempty hqueue
  | setStop c =>
      have hmoved : NoneLeftAsleep ({ s with stop := true }.broadcastNotEmpty) :=
        hs.of_busy id (by simp [State.broadcastNotEmpty]) fun _ => id
      exact hmoved.setClient rfl
  | callAdd c func arg rest =>
      have hmoved : NoneLeftAsleep { s with nodes := s.nodes + 1 } := hs
      exact hmoved.setClient rfl
  | free c =>
      have hmoved : NoneLeftAsleep { s with freed := true } := hs
      exact hmoved.setClient rfl
  | _ => exact hs.setClient rfl

/-- The signal of the last busy worker with two clients asleep leaves one behind. -/
theorem NoneLeftAsleep.broken {a : Action n k} (hshort : ¬ SignalSuffices s a) :
    ∃ t, s.step a = some t ∧ ¬ NoneLeftAsleep t := by
  rcases a with _ | _ | ⟨w, _ | c⟩ | _ | _ | _
  case report.some =>
    simp only [SignalSuffices, not_forall] at hshort
    obtain ⟨hplace, hqueue, hidle, hasleep, d, hd, hdc⟩ := hshort
    refine ⟨(s.setWorker w .top).setClient c
      { s.clients c with place := (s.clients c).place.wake }, ?_, fun hnone => ?_⟩
    · simp [State.step, hplace, State.workerReport, hqueue, State.signalEmpty, hasleep]
    · have hawake := hnone hqueue (fun v => ?_) d
      · simp [hdc, hd] at hawake
      · by_cases hvw : v = w
        · simp [hvw, WorkerAt.isBusy]
        · simpa [hvw] using hidle v hvw
  all_goals exact absurd trivial hshort

/-- In every run, no state leaves a client asleep exactly if the worker that is the
last one on the way to signal `queue_empty` never finds two clients asleep on it. -/
theorem noneLeftAsleep_iff_signalSuffices (scripts : Fin k → List (Call F A))
    (actions : List (Action n k)) :
    (pool n scripts).Along NoneLeftAsleep (State.init n scripts) actions ↔
      (pool n scripts).Meets SignalSuffices (State.init n scripts) actions := by
  have hstart : Booted (State.init n scripts) ∧ NoneLeftAsleep (State.init n scripts) :=
    ⟨(Books.init scripts).booted, fun _ _ _ => rfl⟩
  have hinv : ∀ s : State F A n k, Booted s ∧ NoneLeftAsleep s → NoneLeftAsleep s :=
    fun _ => And.right
  refine TransitionSystem.along_iff_meets hinv ?_ ?_ hstart actions
    (TransitionSystem.meets_true _ actions)
  · rintro s a t ⟨hboot, hnone⟩ - hsuffices hstep
    have hmove := step_moves hstep
    exact ⟨hboot.moves hmove, hnone.moves hboot hsuffices hmove⟩
  · intro s a _ _ hshort
    exact NoneLeftAsleep.broken hshort

/-- Whatever the interleaving, no client is left asleep. -/
def WaitersWoken (n : Nat) (scripts : Fin k → List (Call F A)) : Prop :=
  ∀ s, (pool n scripts).Reachable s → NoneLeftAsleep s

namespace TwoWaiters

/-- Two clients that wait for the task of the first one. -/
def scripts : Fin 2 → List (Call Unit Unit)
  | 0 => [.add () (), .wait]
  | 1 => [.wait]

def actions : List (Action 1 2) :=
  [.create] ++ List.replicate 4 (.client left) ++ List.replicate 2 (.client right) ++
    List.replicate 3 (.worker sole) ++ [.report sole (some left)]

def state : State Unit Unit 1 2 :=
  ((pool 1 scripts).run (State.init 1 scripts) actions).getD (State.init 1 scripts)

theorem reachable : (pool 1 scripts).Reachable state :=
  TransitionSystem.Reachable.run (.start rfl) actions rfl

end TwoWaiters

/-- With one worker and two clients asleep, the second one is left so. -/
theorem not_waitersWoken_two_waiters : ¬ WaitersWoken 1 TwoWaiters.scripts := by
  intro hwoken
  have hawake := hwoken TwoWaiters.state TwoWaiters.reachable rfl (by decide) 1
  exact absurd hawake (by decide)

end ThreadPool

end SystemsProgramming
