/-
What one step of the pool can do, said once: one constructor for each path
between two points where a thread can be overtaken.
-/
import SystemsProgramming.ThreadPool.Model

namespace SystemsProgramming

namespace ThreadPool

variable {F A : Type} {n k : Nat}

namespace State

@[simp] theorem setWorker_workers (s : State F A n k) (w v : Fin n) (p : WorkerAt F A) :
    (s.setWorker w p).workers v = if v = w then p else s.workers v := by
  simp [setWorker, Function.update_apply]

@[simp] theorem setClient_clients (s : State F A n k) (c d : Fin k) (client : Client F A) :
    (s.setClient c client).clients d = if d = c then client else s.clients d := by
  simp [setClient, Function.update_apply]

end State

/-- What one step can do. -/
inductive Moves (s : State F A n k) : Action n k → State F A n k → Prop
  | create (h : s.created < n) :
      Moves s .create ({ s with created := s.created + 1 }.setWorker ⟨s.created, h⟩ .top)
  | sleep (w : Fin n) (hplace : s.workers w = .top ∨ s.workers w = .woken)
      (hstop : s.stop = false) (hqueue : s.taskQueue = []) :
      Moves s (.worker w) (s.setWorker w .asleep)
  | quit (w : Fin n) (hplace : s.workers w = .top ∨ s.workers w = .woken)
      (hstop : s.stop = true) : Moves s (.worker w) (s.setWorker w .stopping)
  | take (w : Fin n) (task : Task F A) (rest : List (Task F A))
      (hplace : s.workers w = .top ∨ s.workers w = .woken) (hstop : s.stop = false)
      (hqueue : s.taskQueue = task :: rest) :
      Moves s (.worker w)
        ({ s with taskQueue := rest, removed := s.removed ++ [(w, task)] }.setWorker w
          (.holds task))
  | exit (w : Fin n) (hplace : s.workers w = .stopping) :
      Moves s (.worker w) (s.setWorker w .exited)
  | call (w : Fin n) (task : Task F A) (hplace : s.workers w = .holds task) :
      Moves s (.worker w)
        ({ s with started := s.started ++ [task] }.setWorker w (.runs task))
  | finish (w : Fin n) (task : Task F A) (hplace : s.workers w = .runs task) :
      Moves s (.worker w) ({ s with finished := s.finished ++ [task] }.setWorker w .ran)
  | report (w : Fin n) (hplace : s.workers w = .ran)
      (hquiet : s.taskQueue = [] → ∀ c, (s.clients c).place.isAsleep = false) :
      Moves s (.report w none) (s.setWorker w .top)
  | signal (w : Fin n) (c : Fin k) (before : List (Task F A))
      (hplace : s.workers w = .ran) (hqueue : s.taskQueue = [])
      (hasleep : (s.clients c).place = .asleep before) :
      Moves s (.report w (some c))
        ((s.setWorker w .top).setClient c { s.clients c with place := .woken before })
  | callAdd (c : Fin k) (func : F) (arg : A) (rest : List (Call F A))
      (hcreated : s.created = n) (hplace : (s.clients c).place = .idle)
      (hscript : (s.clients c).script = .add func arg :: rest) :
      Moves s (.client c)
        ({ s with nodes := s.nodes + 1 }.setClient c ⟨.links ⟨s.nodes, func, arg⟩, rest⟩)
  | callWait (c : Fin k) (rest : List (Call F A)) (hcreated : s.created = n)
      (hplace : (s.clients c).place = .idle)
      (hscript : (s.clients c).script = .wait :: rest) :
      Moves s (.client c) (s.setClient c ⟨.waits s.linked, rest⟩)
  | callDestroy (c : Fin k) (rest : List (Call F A)) (hcreated : s.created = n)
      (hplace : (s.clients c).place = .idle)
      (hscript : (s.clients c).script = .destroy :: rest) :
      Moves s (.client c) (s.setClient c ⟨.stops, rest⟩)
  | linkFirst (c : Fin k) (task : Task F A) (hcreated : s.created = n)
      (hplace : (s.clients c).place = .links task) (hqueue : s.taskQueue = []) :
      Moves s (.client c)
        ({ s with taskQueue := [task], linked := s.linked ++ [task] }.broadcastNotEmpty.setClient
          c { s.clients c with place := .idle })
  | linkLast (c : Fin k) (task : Task F A) (hcreated : s.created = n)
      (hplace : (s.clients c).place = .links task) (hqueue : s.taskQueue ≠ []) :
      Moves s (.client c)
        ({ s with taskQueue := s.taskQueue ++ [task], linked := s.linked ++ [task] }.setClient
          c { s.clients c with place := .idle })
  | waitSleep (c : Fin k) (before : List (Task F A)) (hcreated : s.created = n)
      (hplace : (s.clients c).place = .waits before ∨ (s.clients c).place = .woken before)
      (hqueue : s.taskQueue ≠ []) :
      Moves s (.client c) (s.setClient c { s.clients c with place := .asleep before })
  | waitReturn (c : Fin k) (before : List (Task F A)) (hcreated : s.created = n)
      (hplace : (s.clients c).place = .waits before ∨ (s.clients c).place = .woken before)
      (hqueue : s.taskQueue = []) :
      Moves s (.client c) (s.setClient c { s.clients c with place := .idle })
  | setStop (c : Fin k) (hcreated : s.created = n) (hplace : (s.clients c).place = .stops) :
      Moves s (.client c)
        ({ s with stop := true }.broadcastNotEmpty.setClient c
          { s.clients c with place := .joins 0 })
  | join (c : Fin k) (i : Nat) (hi : i < n) (hcreated : s.created = n)
      (hplace : (s.clients c).place = .joins i) (hexited : s.workers ⟨i, hi⟩ = .exited) :
      Moves s (.client c) (s.setClient c { s.clients c with place := .joins (i + 1) })
  | joined (c : Fin k) (i : Nat) (hi : n ≤ i) (hcreated : s.created = n)
      (hplace : (s.clients c).place = .joins i) :
      Moves s (.client c) (s.setClient c { s.clients c with place := .frees })
  | free (c : Fin k) (hcreated : s.created = n) (hplace : (s.clients c).place = .frees) :
      Moves s (.client c)
        ({ s with freed := true }.setClient c { s.clients c with place := .destroys })
  | destroyed (c : Fin k) (hcreated : s.created = n)
      (hplace : (s.clients c).place = .destroys) :
      Moves s (.client c) (s.setClient c { s.clients c with place := .idle })
  | spuriousWorker (w : Fin n) (hplace : s.workers w = .asleep) :
      Moves s (.spuriousWorker w) (s.setWorker w .woken)
  | spuriousClient (c : Fin k) (before : List (Task F A))
      (hasleep : (s.clients c).place = .asleep before) :
      Moves s (.spuriousClient c) (s.setClient c { s.clients c with place := .woken before })

theorem ClientAt.isAsleep_iff {p : ClientAt F A} :
    p.isAsleep = true ↔ ∃ before, p = .asleep before := by
  cases p <;> simp [ClientAt.isAsleep]

theorem workerTest_moves {s : State F A n k} {w : Fin n}
    (hplace : s.workers w = .top ∨ s.workers w = .woken) :
    Moves s (.worker w) (s.workerTest w) := by
  cases hstop : s.stop with
  | true => simpa [State.workerTest, hstop] using Moves.quit w hplace hstop
  | false =>
      cases hqueue : s.taskQueue with
      | nil => simpa [State.workerTest, hstop, hqueue] using Moves.sleep w hplace hstop hqueue
      | cons task rest =>
          simpa [State.workerTest, hstop, hqueue] using
            Moves.take w task rest hplace hstop hqueue

theorem workerStep_moves {s t : State F A n k} {w : Fin n}
    (hstep : s.workerStep w = some t) : Moves s (.worker w) t := by
  cases hplace : s.workers w with
  | unborn | asleep | exited | ran => simp [State.workerStep, hplace] at hstep
  | top =>
      obtain rfl : s.workerTest w = t := by simpa [State.workerStep, hplace] using hstep
      exact workerTest_moves (Or.inl hplace)
  | woken =>
      obtain rfl : s.workerTest w = t := by simpa [State.workerStep, hplace] using hstep
      exact workerTest_moves (Or.inr hplace)
  | stopping =>
      obtain rfl : _ = t := by simpa [State.workerStep, hplace] using hstep
      exact Moves.exit w hplace
  | holds task =>
      obtain rfl : _ = t := by simpa [State.workerStep, hplace] using hstep
      exact Moves.call w task hplace
  | runs task =>
      obtain rfl : _ = t := by simpa [State.workerStep, hplace] using hstep
      exact Moves.finish w task hplace

theorem workerReport_moves {s t : State F A n k} {w : Fin n} {woken : Option (Fin k)}
    (hplace : s.workers w = .ran) (hstep : s.workerReport w woken = some t) :
    Moves s (.report w woken) t := by
  by_cases hqueue : s.taskQueue = []
  · cases woken with
    | none =>
        simp only [State.workerReport, hqueue, ↓reduceIte, State.signalEmpty] at hstep
        split at hstep
        · next hquiet =>
            obtain rfl : _ = t := by simpa using hstep
            exact Moves.report w hplace fun _ => hquiet
        · simp at hstep
    | some c =>
        simp only [State.workerReport, hqueue, ↓reduceIte, State.signalEmpty] at hstep
        split at hstep
        · next hasleep =>
            obtain ⟨before, hbefore⟩ := ClientAt.isAsleep_iff.mp hasleep
            simp only [State.setWorker_clients] at hbefore
            obtain rfl : _ = t := by simpa using hstep
            simpa [hbefore, ClientAt.wake] using Moves.signal w c before hplace hqueue hbefore
        · simp at hstep
  · simp only [State.workerReport, hqueue, ↓reduceIte, Option.ite_none_right_eq_some,
      Option.some.injEq] at hstep
    obtain ⟨rfl, rfl⟩ := hstep
    exact Moves.report w hplace fun h => absurd h hqueue

theorem clientCall_moves {s t : State F A n k} {c : Fin k} (hcreated : s.created = n)
    (hplace : (s.clients c).place = .idle) (hstep : s.clientCall c = some t) :
    Moves s (.client c) t := by
  cases hscript : (s.clients c).script with
  | nil => simp [State.clientCall, hscript] at hstep
  | cons head rest =>
      cases head with
      | add func arg =>
          obtain rfl : _ = t := by simpa [State.clientCall, hscript] using hstep
          exact Moves.callAdd c func arg rest hcreated hplace hscript
      | wait =>
          obtain rfl : _ = t := by simpa [State.clientCall, hscript] using hstep
          exact Moves.callWait c rest hcreated hplace hscript
      | destroy =>
          obtain rfl : _ = t := by simpa [State.clientCall, hscript] using hstep
          exact Moves.callDestroy c rest hcreated hplace hscript

theorem tpoolAdd_moves {s : State F A n k} {c : Fin k} {task : Task F A}
    (hcreated : s.created = n) (hplace : (s.clients c).place = .links task) :
    Moves s (.client c)
      ((s.tpoolAdd task).setClient c { s.clients c with place := .idle }) := by
  cases hqueue : s.taskQueue with
  | nil => simpa [State.tpoolAdd, hqueue] using Moves.linkFirst c task hcreated hplace hqueue
  | cons curr rest =>
      have hmove := Moves.linkLast c task hcreated hplace (by simp [hqueue])
      simpa [State.tpoolAdd, hqueue] using hmove

theorem tpoolWait_moves {s : State F A n k} {c : Fin k} {before : List (Task F A)}
    (hcreated : s.created = n)
    (hplace : (s.clients c).place = .waits before ∨ (s.clients c).place = .woken before) :
    Moves s (.client c) (s.tpoolWait c before) := by
  by_cases hqueue : s.taskQueue = []
  · simpa [State.tpoolWait, hqueue] using Moves.waitReturn c before hcreated hplace hqueue
  · simpa [State.tpoolWait, hqueue] using Moves.waitSleep c before hcreated hplace hqueue

theorem clientStep_moves {s t : State F A n k} {c : Fin k} (hcreated : s.created = n)
    (hstep : s.clientStep c = some t) : Moves s (.client c) t := by
  cases hplace : (s.clients c).place with
  | idle => exact clientCall_moves hcreated hplace (by simpa [State.clientStep, hplace] using hstep)
  | asleep before => simp [State.clientStep, hplace] at hstep
  | links task =>
      obtain rfl : _ = t := by simpa [State.clientStep, hplace] using hstep
      exact tpoolAdd_moves hcreated hplace
  | waits before =>
      obtain rfl : _ = t := by simpa [State.clientStep, hplace] using hstep
      exact tpoolWait_moves hcreated (Or.inl hplace)
  | woken before =>
      obtain rfl : _ = t := by simpa [State.clientStep, hplace] using hstep
      exact tpoolWait_moves hcreated (Or.inr hplace)
  | stops =>
      obtain rfl : _ = t := by simpa [State.clientStep, hplace] using hstep
      exact Moves.setStop c hcreated hplace
  | frees =>
      obtain rfl : _ = t := by simpa [State.clientStep, hplace] using hstep
      exact Moves.free c hcreated hplace
  | destroys =>
      obtain rfl : _ = t := by simpa [State.clientStep, hplace] using hstep
      exact Moves.destroyed c hcreated hplace
  | joins i =>
      simp only [State.clientStep, hplace, State.joinStep] at hstep
      split at hstep
      · next hi =>
          split at hstep
          · next hexited =>
              obtain rfl : _ = t := by simpa using hstep
              exact Moves.join c i hi hcreated hplace hexited
          · simp at hstep
      · next hi =>
          obtain rfl : _ = t := by simpa using hstep
          exact Moves.joined c i (Nat.le_of_not_lt hi) hcreated hplace

/-- Every step of the pool is one of the moves. -/
theorem step_moves {s t : State F A n k} {a : Action n k} (hstep : s.step a = some t) :
    Moves s a t := by
  cases a with
  | create =>
      simp only [State.step] at hstep
      split at hstep
      · next h =>
          obtain rfl : _ = t := by simpa using hstep
          exact Moves.create h
      · simp at hstep
  | worker w => exact workerStep_moves hstep
  | report w woken =>
      simp only [State.step] at hstep
      split at hstep
      · next hplace => exact workerReport_moves hplace hstep
      · simp at hstep
  | client c =>
      simp only [State.step, Option.ite_none_right_eq_some] at hstep
      exact clientStep_moves hstep.1 hstep.2
  | spuriousWorker w =>
      simp only [State.step] at hstep
      split at hstep
      · next hplace =>
          obtain rfl : _ = t := by simpa using hstep
          exact Moves.spuriousWorker w hplace
      · simp at hstep
  | spuriousClient c =>
      simp only [State.step, Option.ite_none_right_eq_some, Option.some.injEq] at hstep
      obtain ⟨hasleep, rfl⟩ := hstep
      obtain ⟨before, hbefore⟩ := ClientAt.isAsleep_iff.mp hasleep
      simpa [hbefore, ClientAt.wake] using Moves.spuriousClient c before hbefore

end ThreadPool

end SystemsProgramming
