/-
One client that fills the pool, waits and destroys it.  No order of the threads
blocks the program, and `tpool_destroy` frees a pool whose tasks have all run.
-/
import SystemsProgramming.ThreadPool.Ledger
import Mathlib.Data.List.Perm.Basic

namespace SystemsProgramming

namespace ThreadPool

variable {F A : Type} {n k : Nat}

theorem WorkerAt.wake_ne_asleep (p : WorkerAt F A) : p.wake ≠ .asleep := by
  cases p <;> simp [WorkerAt.wake]

/-- A worker sleeps only while the queue is empty and `stop` is not set, and it
leaves its loop only when `stop` is set. -/
structure Awake (s : State F A n k) : Prop where
  asleep : ∀ w, s.workers w = .asleep → s.taskQueue = [] ∧ s.stop = false
  leaving : ∀ w, s.workers w = .stopping ∨ s.workers w = .exited → s.stop = true

/-- A step of one worker that neither sleeps nor leaves keeps the others so. -/
theorem Awake.setWorker {s : State F A n k} (hs : Awake s) {w : Fin n} {p : WorkerAt F A}
    (hasleep : p = .asleep → s.taskQueue = [] ∧ s.stop = false)
    (hleaving : p = .stopping ∨ p = .exited → s.stop = true) :
    Awake (s.setWorker w p) where
  asleep v hv := by
    by_cases hvw : v = w
    · exact hasleep (by simpa [hvw] using hv)
    · exact hs.asleep v (by simpa [hvw] using hv)
  leaving v hv := by
    by_cases hvw : v = w
    · exact hleaving (by simpa [hvw] using hv)
    · exact hs.leaving v (by simpa [hvw] using hv)

theorem Awake.moves {s t : State F A n k} {a : Action n k} (hs : Awake s)
    (hmove : Moves s a t) : Awake t := by
  have hwoken : ∀ w, (s.workers w).wake = .stopping ∨ (s.workers w).wake = .exited →
      s.stop = true := by
    intro w hw
    apply hs.leaving w
    cases hplace : s.workers w <;> simp_all [WorkerAt.wake]
  cases hmove with
  | create h =>
      have hmoved : Awake { s with created := s.created + 1 } := ⟨hs.asleep, hs.leaving⟩
      exact hmoved.setWorker (by simp) (by simp)
  | sleep w hplace hstop hqueue => exact hs.setWorker (fun _ => ⟨hqueue, hstop⟩) (by simp)
  | quit w hplace hstop => exact hs.setWorker (by simp) (fun _ => hstop)
  | take w task rest hplace hstop hqueue =>
      constructor
      · intro v hv
        by_cases hvw : v = w
        · simp [hvw] at hv
        · have := (hs.asleep v (by simpa [hvw] using hv)).1
          simp [hqueue] at this
      · intro v hv
        by_cases hvw : v = w
        · simp [hvw] at hv
        · exact hs.leaving v (by simpa [hvw] using hv)
  | exit w hplace => exact hs.setWorker (by simp) (fun _ => hs.leaving w (Or.inl hplace))
  | call w task =>
      have hmoved : Awake { s with started := s.started ++ [task] } := ⟨hs.asleep, hs.leaving⟩
      exact hmoved.setWorker (by simp) (by simp)
  | finish w task =>
      have hmoved : Awake { s with finished := s.finished ++ [task] } := ⟨hs.asleep, hs.leaving⟩
      exact hmoved.setWorker (by simp) (by simp)
  | report w | spuriousWorker w => exact hs.setWorker (by simp) (by simp)
  | signal w c before =>
      have hmoved : Awake (s.setWorker w .top) := hs.setWorker (by simp) (by simp)
      exact ⟨hmoved.asleep, hmoved.leaving⟩
  | linkFirst c task =>
      exact ⟨fun w hw => absurd hw (s.workers w).wake_ne_asleep, hwoken⟩
  | setStop c =>
      exact ⟨fun w hw => absurd hw (s.workers w).wake_ne_asleep, fun _ _ => rfl⟩
  | linkLast c task _ _ hqueue =>
      exact ⟨fun w hw => absurd (hs.asleep w hw).1 hqueue, hs.leaving⟩
  | _ => exact ⟨hs.asleep, hs.leaving⟩

/-- Woken by an earlier broadcast, no worker sleeps through a task or a stop. -/
theorem reachable_awake {scripts : Fin k → List (Call F A)} {s : State F A n k}
    (hreach : (pool n scripts).Reachable s) : Awake s := by
  refine hreach.invariant ?_ fun s a t hs hstep => hs.moves (step_moves hstep)
  rintro _ rfl
  exact ⟨fun w hw => by simp [State.init] at hw, fun w hw => by simp [State.init] at hw⟩

/-- The broadcast of the `tpool_add` that finds the queue empty is enough: while a task
waits or `stop` is set, every worker that slept has been woken up. -/
theorem worker_not_asleep {scripts : Fin k → List (Call F A)} {s : State F A n k}
    (hreach : (pool n scripts).Reachable s) (hwork : s.taskQueue ≠ [] ∨ s.stop = true)
    (w : Fin n) : s.workers w ≠ .asleep := by
  intro hasleep
  obtain ⟨hqueue, hstop⟩ := (reachable_awake hreach).asleep w hasleep
  rcases hwork with htask | hset
  · exact htask hqueue
  · exact Bool.false_ne_true (hstop.symm.trans hset)

namespace TwoSleepers

def script : List (Call Unit Unit) := [.add () (), .add () ()]

/-- Both workers sleep when two tasks come; the second `tpool_add` wakes nobody. -/
def actions : List (Action 2 1) :=
  [Action.create, .create, .worker left, .worker right] ++
    List.replicate 4 (Action.client sole)

def state : State Unit Unit 2 1 :=
  ((pool 2 fun _ => script).run (State.init 2 fun _ => script) actions).getD
    (State.init 2 fun _ => script)

theorem reachable : (pool 2 fun _ => script).Reachable state :=
  TransitionSystem.Reachable.run (.start rfl) actions rfl

end TwoSleepers

theorem worker_not_asleep_two_tasks :
    TwoSleepers.state.taskQueue.length = 2 ∧ TwoSleepers.state.workers 0 = .woken ∧
      TwoSleepers.state.workers 1 ≠ .asleep :=
  ⟨rfl, rfl, worker_not_asleep TwoSleepers.reachable (.inl (by decide)) 1⟩

/-- The calls after `tpool_init`: one `tpool_add` for each job, `tpool_wait` and
`tpool_destroy`. -/
def program (jobs : List (F × A)) : List (Call F A) :=
  jobs.map (fun job => .add job.1 job.2) ++ [.wait, .destroy]

def Task.job (task : Task F A) : F × A := (task.func, task.arg)

/-- The program as the script of the only client. -/
def programPool (n : Nat) (jobs : List (F × A)) :
    TransitionSystem (State F A n 1) (Action n 1) :=
  pool n fun _ => program jobs

def State.place (s : State F A n 1) : ClientAt F A := (s.clients sole).place

def State.script (s : State F A n 1) : List (Call F A) := (s.clients sole).script

/-- How far the client is, and what that says about the queue and the workers. -/
inductive Stage (jobs : List (F × A)) (s : State F A n 1) : Prop
  | adds (rest : List (F × A)) (hplace : s.place = .idle)
      (hscript : s.script = program rest) (hjobs : s.linked.map Task.job ++ rest = jobs)
      (hstop : s.stop = false)
  | links (task : Task F A) (rest : List (F × A)) (hplace : s.place = .links task)
      (hscript : s.script = program rest)
      (hjobs : s.linked.map Task.job ++ task.job :: rest = jobs) (hstop : s.stop = false)
  | waits (before : List (Task F A))
      (hplace : s.place = .waits before ∨ s.place = .asleep before ∨ s.place = .woken before)
      (hscript : s.script = [.destroy]) (hjobs : s.linked.map Task.job = jobs)
      (hstop : s.stop = false)
  | waited (hplace : s.place = .idle) (hscript : s.script = [.destroy])
      (hjobs : s.linked.map Task.job = jobs) (hstop : s.stop = false)
      (hqueue : s.taskQueue = [])
  | stops (hplace : s.place = .stops) (hscript : s.script = [])
      (hjobs : s.linked.map Task.job = jobs) (hstop : s.stop = false)
      (hqueue : s.taskQueue = [])
  | joins (i : Nat) (hplace : s.place = .joins i) (hscript : s.script = [])
      (hjobs : s.linked.map Task.job = jobs) (hstop : s.stop = true)
      (hqueue : s.taskQueue = []) (hexited : ∀ w : Fin n, w.val < i → s.workers w = .exited)
  | ends (hplace : s.place = .frees ∨ s.place = .destroys ∨ s.place = .idle)
      (hscript : s.script = []) (hjobs : s.linked.map Task.job = jobs) (hstop : s.stop = true)
      (hqueue : s.taskQueue = []) (hexited : ∀ w, s.workers w = .exited)

/-- A step of a worker leaves the stage as it is: it removes no task of an empty
queue and revives no worker that has exited. -/
theorem Stage.frame {jobs : List (F × A)} {s t : State F A n 1} (hs : Stage jobs s)
    (hplace : t.place = s.place) (hscript : t.script = s.script)
    (hlinked : t.linked = s.linked) (hstop : t.stop = s.stop)
    (hqueue : s.taskQueue = [] → t.taskQueue = [])
    (hexited : ∀ w, s.workers w = .exited → t.workers w = .exited) : Stage jobs t := by
  cases hs with
  | adds rest h1 h2 h3 h4 =>
      exact .adds rest (hplace ▸ h1) (hscript ▸ h2) (hlinked ▸ h3) (hstop ▸ h4)
  | links task rest h1 h2 h3 h4 =>
      exact .links task rest (hplace ▸ h1) (hscript ▸ h2) (hlinked ▸ h3) (hstop ▸ h4)
  | waits before h1 h2 h3 h4 =>
      exact .waits before (hplace ▸ h1) (hscript ▸ h2) (hlinked ▸ h3) (hstop ▸ h4)
  | waited h1 h2 h3 h4 h5 =>
      exact .waited (hplace ▸ h1) (hscript ▸ h2) (hlinked ▸ h3) (hstop ▸ h4) (hqueue h5)
  | stops h1 h2 h3 h4 h5 =>
      exact .stops (hplace ▸ h1) (hscript ▸ h2) (hlinked ▸ h3) (hstop ▸ h4) (hqueue h5)
  | joins i h1 h2 h3 h4 h5 h6 =>
      exact .joins i (hplace ▸ h1) (hscript ▸ h2) (hlinked ▸ h3) (hstop ▸ h4) (hqueue h5)
        fun w hw => hexited w (h6 w hw)
  | ends h1 h2 h3 h4 h5 h6 =>
      exact .ends (hplace ▸ h1) (hscript ▸ h2) (hlinked ▸ h3) (hstop ▸ h4) (hqueue h5)
        fun w => hexited w (h6 w)

/-- The frame of a worker that has not exited. -/
theorem Stage.setWorker {jobs : List (F × A)} {s : State F A n 1} (hs : Stage jobs s)
    {w : Fin n} {p : WorkerAt F A} (hlive : s.workers w ≠ .exited) :
    Stage jobs (s.setWorker w p) := by
  refine hs.frame rfl rfl rfl rfl id fun v hv => ?_
  have hvw : v ≠ w := by rintro rfl; exact hlive hv
  simpa [hvw] using hv

theorem Stage.callAdd {jobs : List (F × A)} {s : State F A n 1} (hs : Stage jobs s)
    {func : F} {arg : A} {rest : List (Call F A)} (hplace : s.place = .idle)
    (hscript : s.script = .add func arg :: rest) :
    Stage jobs ({ s with nodes := s.nodes + 1 }.setClient 0
      ⟨.links ⟨s.nodes, func, arg⟩, rest⟩) := by
  cases hs with
  | adds todo _ h2 h3 h4 =>
      rw [hscript] at h2
      cases todo with
      | nil => simp [program] at h2
      | cons job todo =>
          simp only [program, List.map_cons, List.cons_append, List.cons.injEq,
            Call.add.injEq] at h2
          obtain ⟨⟨rfl, rfl⟩, rfl⟩ := h2
          exact .links _ todo rfl rfl h3 h4
  | waited _ h2 | ends _ h2 => simp [hscript] at h2
  | links _ _ h1 | stops h1 | joins _ h1 => simp [hplace] at h1
  | waits _ h1 => simp [hplace] at h1

theorem Stage.callWait {jobs : List (F × A)} {s : State F A n 1} (hs : Stage jobs s)
    {rest : List (Call F A)} (hplace : s.place = .idle) (hscript : s.script = .wait :: rest) :
    Stage jobs (s.setClient 0 ⟨.waits s.linked, rest⟩) := by
  cases hs with
  | adds todo _ h2 h3 h4 =>
      rw [hscript] at h2
      cases todo with
      | nil =>
          simp only [program, List.map_nil, List.nil_append, List.cons.injEq, true_and] at h2
          exact .waits s.linked (Or.inl rfl) h2 (by simpa using h3) h4
      | cons job todo => simp [program] at h2
  | waited _ h2 | ends _ h2 => simp [hscript] at h2
  | links _ _ h1 | stops h1 | joins _ h1 => simp [hplace] at h1
  | waits _ h1 => simp [hplace] at h1

theorem Stage.callDestroy {jobs : List (F × A)} {s : State F A n 1} (hs : Stage jobs s)
    {rest : List (Call F A)} (hplace : s.place = .idle)
    (hscript : s.script = .destroy :: rest) : Stage jobs (s.setClient 0 ⟨.stops, rest⟩) := by
  cases hs with
  | adds todo _ h2 => cases todo <;> simp [hscript, program] at h2
  | waited _ h2 h3 h4 h5 =>
      obtain rfl : rest = [] := by simpa [hscript] using h2
      exact .stops rfl rfl h3 h4 h5
  | ends _ h2 => simp [hscript] at h2
  | links _ _ h1 | stops h1 | joins _ h1 => simp [hplace] at h1
  | waits _ h1 => simp [hplace] at h1

theorem Stage.link {jobs : List (F × A)} {s t : State F A n 1} (hs : Stage jobs s)
    {task : Task F A} (hplace : s.place = .links task) (hidle : t.place = .idle)
    (hscript : t.script = s.script) (hlinked : t.linked = s.linked ++ [task])
    (hstop : t.stop = s.stop) : Stage jobs t := by
  cases hs with
  | links other rest h1 h2 h3 h4 =>
      obtain rfl : task = other := by simpa [hplace] using h1
      refine .adds rest hidle (hscript ▸ h2) ?_ (hstop ▸ h4)
      simpa [hlinked] using h3
  | adds _ h1 | waited h1 | stops h1 | joins _ h1 => simp [hplace] at h1
  | waits _ h1 | ends h1 => simp [hplace] at h1

/-- What a stage says while the client is in `tpool_wait`. -/
theorem Stage.waiting {jobs : List (F × A)} {s : State F A n 1} (hs : Stage jobs s)
    {before : List (Task F A)}
    (hplace : s.place = .waits before ∨ s.place = .asleep before ∨ s.place = .woken before) :
    s.script = [.destroy] ∧ s.linked.map Task.job = jobs ∧ s.stop = false := by
  cases hs with
  | waits _ _ h2 h3 h4 => exact ⟨h2, h3, h4⟩
  | adds _ h1 | links _ _ h1 | waited h1 | stops h1 | joins _ h1 => simp [h1] at hplace
  | ends h1 => rcases h1 with h1 | h1 | h1 <;> simp [h1] at hplace

theorem Stage.setStop {jobs : List (F × A)} {s : State F A n 1} (hs : Stage jobs s)
    (hplace : s.place = .stops) :
    Stage jobs ({ s with stop := true }.broadcastNotEmpty.setClient 0
      { s.clients 0 with place := .joins 0 }) := by
  cases hs with
  | stops _ h2 h3 _ h5 =>
      exact .joins 0 rfl h2 h3 rfl h5 fun w hw => absurd hw (Nat.not_lt_zero _)
  | adds _ h1 | links _ _ h1 | waited h1 | joins _ h1 => simp [hplace] at h1
  | waits _ h1 | ends h1 => simp [hplace] at h1

theorem Stage.join {jobs : List (F × A)} {s : State F A n 1} (hs : Stage jobs s) {i : Nat}
    (hi : i < n) (hplace : s.place = .joins i) (hexited : s.workers ⟨i, hi⟩ = .exited) :
    Stage jobs (s.setClient 0 { s.clients 0 with place := .joins (i + 1) }) := by
  cases hs with
  | joins j h1 h2 h3 h4 h5 h6 =>
      obtain rfl : i = j := by simpa [hplace] using h1
      refine .joins (i + 1) rfl h2 h3 h4 h5 fun w hw => ?_
      rcases Nat.lt_succ_iff_lt_or_eq.mp hw with hlt | heq
      · exact h6 w hlt
      · obtain rfl : w = ⟨i, hi⟩ := Fin.ext heq
        exact hexited
  | adds _ h1 | links _ _ h1 | waited h1 | stops h1 => simp [hplace] at h1
  | waits _ h1 | ends h1 => simp [hplace] at h1

theorem Stage.joined {jobs : List (F × A)} {s : State F A n 1} (hs : Stage jobs s) {i : Nat}
    (hi : n ≤ i) (hplace : s.place = .joins i) :
    Stage jobs (s.setClient 0 { s.clients 0 with place := .frees }) := by
  cases hs with
  | joins j h1 h2 h3 h4 h5 h6 =>
      obtain rfl : i = j := by simpa [hplace] using h1
      exact .ends (Or.inl rfl) h2 h3 h4 h5 fun w => h6 w (Nat.lt_of_lt_of_le w.isLt hi)
  | adds _ h1 | links _ _ h1 | waited h1 | stops h1 => simp [hplace] at h1
  | waits _ h1 | ends h1 => simp [hplace] at h1

/-- What a stage says once the workers are joined. -/
theorem Stage.ended {jobs : List (F × A)} {s : State F A n 1} (hs : Stage jobs s)
    (hplace : s.place = .frees ∨ s.place = .destroys) :
    s.script = [] ∧ s.linked.map Task.job = jobs ∧ s.stop = true ∧ s.taskQueue = [] ∧
      ∀ w, s.workers w = .exited := by
  cases hs with
  | ends _ h2 h3 h4 h5 h6 => exact ⟨h2, h3, h4, h5, h6⟩
  | adds _ h1 | links _ _ h1 | waited h1 | stops h1 | joins _ h1 => simp [h1] at hplace
  | waits _ h1 => rcases h1 with h1 | h1 | h1 <;> simp [h1] at hplace

theorem Stage.moves {jobs : List (F × A)} {s t : State F A n 1} {a : Action n 1}
    (hs : Stage jobs s) (hboot : Booted s) (hmove : Moves s a t) : Stage jobs t := by
  cases hmove with
  | create h =>
      have hunborn := (hboot.unborn ⟨s.created, h⟩).mpr (Nat.le_refl _)
      refine hs.frame rfl rfl rfl rfl id fun v hv => ?_
      have hvw : v ≠ ⟨s.created, h⟩ := by rintro rfl; simp [hunborn] at hv
      simpa [hvw] using hv
  | sleep w hplace | quit w hplace =>
      exact hs.setWorker (by rcases hplace with h | h <;> simp [h])
  | take w task rest hplace hstop hqueue =>
      refine hs.frame rfl rfl rfl rfl (by simp [hqueue]) fun v hv => ?_
      have hvw : v ≠ w := by rintro rfl; simp [hv] at hplace
      simpa [hvw] using hv
  | exit w hplace | report w hplace | spuriousWorker w hplace =>
      exact hs.setWorker (by simp [hplace])
  | call w task hplace | finish w task hplace =>
      refine hs.frame rfl rfl rfl rfl id fun v hv => ?_
      have hvw : v ≠ w := by rintro rfl; simp [hplace] at hv
      simpa [hvw] using hv
  | signal w c before hplace hqueue hasleep =>
      obtain rfl : c = 0 := Subsingleton.elim _ _
      obtain ⟨h2, h3, h4⟩ := hs.waiting (Or.inr (Or.inl hasleep))
      exact .waits before (Or.inr (Or.inr rfl)) h2 h3 h4
  | callAdd c func arg rest _ hplace hscript =>
      obtain rfl : c = 0 := Subsingleton.elim _ _
      exact hs.callAdd hplace hscript
  | callWait c rest _ hplace hscript =>
      obtain rfl : c = 0 := Subsingleton.elim _ _
      exact hs.callWait hplace hscript
  | callDestroy c rest _ hplace hscript =>
      obtain rfl : c = 0 := Subsingleton.elim _ _
      exact hs.callDestroy hplace hscript
  | linkFirst c task _ hplace | linkLast c task _ hplace =>
      obtain rfl : c = 0 := Subsingleton.elim _ _
      exact hs.link hplace rfl rfl rfl rfl
  | waitSleep c before _ hplace =>
      obtain rfl : c = 0 := Subsingleton.elim _ _
      have hplaced : s.place = .waits before ∨ s.place = .asleep before ∨
          s.place = .woken before := hplace.imp_right Or.inr
      obtain ⟨h2, h3, h4⟩ := hs.waiting hplaced
      exact .waits before (Or.inr (Or.inl rfl)) h2 h3 h4
  | waitReturn c before _ hplace hqueue =>
      obtain rfl : c = 0 := Subsingleton.elim _ _
      have hplaced : s.place = .waits before ∨ s.place = .asleep before ∨
          s.place = .woken before := hplace.imp_right Or.inr
      obtain ⟨h2, h3, h4⟩ := hs.waiting hplaced
      exact .waited rfl h2 h3 h4 hqueue
  | setStop c _ hplace =>
      obtain rfl : c = 0 := Subsingleton.elim _ _
      exact hs.setStop hplace
  | join c i hi _ hplace hexited =>
      obtain rfl : c = 0 := Subsingleton.elim _ _
      exact hs.join hi hplace hexited
  | joined c i hi _ hplace =>
      obtain rfl : c = 0 := Subsingleton.elim _ _
      exact hs.joined hi hplace
  | free c _ hplace =>
      obtain rfl : c = 0 := Subsingleton.elim _ _
      obtain ⟨h2, h3, h4, h5, h6⟩ := hs.ended (Or.inl hplace)
      exact .ends (Or.inr (Or.inl rfl)) h2 h3 h4 h5 h6
  | destroyed c _ hplace =>
      obtain rfl : c = 0 := Subsingleton.elim _ _
      obtain ⟨h2, h3, h4, h5, h6⟩ := hs.ended (Or.inr hplace)
      exact .ends (Or.inr (Or.inr rfl)) h2 h3 h4 h5 h6
  | spuriousClient c before hasleep =>
      obtain rfl : c = 0 := Subsingleton.elim _ _
      obtain ⟨h2, h3, h4⟩ := hs.waiting (Or.inr (Or.inl hasleep))
      exact .waits before (Or.inr (Or.inr rfl)) h2 h3 h4

/-- A client that sleeps in `tpool_wait` has a signal to come: the queue is not
empty, or some worker has not checked it yet after its last task. -/
def SignalDue (s : State F A n 1) : Prop :=
  s.place.isAsleep = true → s.taskQueue = [] → ∃ w, (s.workers w).isBusy = true

/-- A worker that is not busy moves no busy worker away. -/
theorem SignalDue.setWorker {s : State F A n 1} (hs : SignalDue s) {w : Fin n}
    {p : WorkerAt F A} (hidle : (s.workers w).isBusy = true → p.isBusy = true) :
    SignalDue (s.setWorker w p) := by
  intro hasleep hqueue
  obtain ⟨v, hv⟩ := hs hasleep hqueue
  refine ⟨v, ?_⟩
  by_cases hvw : v = w
  · subst hvw
    simpa using hidle hv
  · simpa [hvw] using hv

/-- A client step that does not fall asleep owes nothing. -/
theorem SignalDue.setClient {s : State F A n 1} {c : Fin 1} {client : Client F A}
    (hawake : client.place.isAsleep = false) : SignalDue (s.setClient c client) := by
  obtain rfl : c = 0 := Subsingleton.elim _ _
  intro hasleep
  simp [State.place, hawake] at hasleep

theorem SignalDue.moves {s t : State F A n 1} {a : Action n 1} (hs : SignalDue s)
    (hboot : Booted s) (hmove : Moves s a t) : SignalDue t := by
  cases hmove with
  | create h =>
      have hunborn := (hboot.unborn ⟨s.created, h⟩).mpr (Nat.le_refl _)
      have hmoved : SignalDue { s with created := s.created + 1 } := hs
      exact hmoved.setWorker fun hbusy => by simp [hunborn, WorkerAt.isBusy] at hbusy
  | sleep w hplace | quit w hplace =>
      refine hs.setWorker fun hbusy => ?_
      rcases hplace with h | h <;> simp [h, WorkerAt.isBusy] at hbusy
  | take w task rest => exact fun _ _ => ⟨w, by simp [WorkerAt.isBusy]⟩
  | exit w hplace | spuriousWorker w hplace =>
      exact hs.setWorker fun hbusy => by simp [hplace, WorkerAt.isBusy] at hbusy
  | call w task =>
      have hmoved : SignalDue { s with started := s.started ++ [task] } := hs
      exact hmoved.setWorker fun _ => rfl
  | finish w task =>
      have hmoved : SignalDue { s with finished := s.finished ++ [task] } := hs
      exact hmoved.setWorker fun _ => rfl
  | report w hplace hquiet =>
      -- nobody sleeps when a report on an empty queue signals nobody
      intro hasleep hqueue
      exact absurd ((hquiet hqueue 0).symm.trans hasleep) Bool.false_ne_true
  | waitSleep c before _ _ hqueue => exact fun _ hempty => absurd hempty hqueue
  | _ => exact SignalDue.setClient rfl

/-- The invariants of the whole program. -/
structure Progressing (jobs : List (F × A)) (s : State F A n 1) : Prop where
  books : Books s
  awake : Awake s
  stage : Stage jobs s
  signalDue : SignalDue s

theorem reachable_progressing {jobs : List (F × A)} {s : State F A n 1}
    (hreach : (programPool n jobs).Reachable s) : Progressing jobs s := by
  refine hreach.invariant ?_ ?_
  · rintro _ rfl
    exact {
      books := Books.init _
      awake := reachable_awake (.start rfl)
      stage := .adds jobs rfl rfl rfl rfl
      signalDue := fun hasleep => by simp [State.place, State.init, ClientAt.isAsleep] at hasleep }
  · intro s a t hs hstep
    have hmove := step_moves hstep
    obtain ⟨hboot, halloc, hledger⟩ := hs.books
    exact {
      books := ⟨hboot.moves hmove, halloc.moves hmove, hledger.moves hboot halloc hmove⟩
      awake := hs.awake.moves hmove
      stage := hs.stage.moves hboot hmove
      signalDue := hs.signalDue.moves hboot hmove }

/-- Some step other than a spurious wake-up is enabled. -/
def State.CanStep (s : State F A n k) : Prop :=
  ∃ a : Action n k, a.isSpurious = false ∧ (s.step a).isSome = true

/-- `tpool_destroy` has returned: the script is used up. -/
def State.destroyReturned (s : State F A n 1) : Prop :=
  s.place = .idle ∧ s.script = []

instance [DecidableEq F] [DecidableEq A] (s : State F A n 1) : Decidable s.destroyReturned :=
  inferInstanceAs (Decidable (_ ∧ _))

theorem canStep_of_worker {s : State F A n k} {w : Fin n}
    (hstep : (s.workerStep w).isSome = true) : s.CanStep :=
  ⟨.worker w, rfl, hstep⟩

/-- A worker with a check of the queue to make can make it, whoever it wakes up. -/
theorem canStep_of_ran {s : State F A n k} {w : Fin n} (hplace : s.workers w = .ran) :
    s.CanStep := by
  by_cases hqueue : s.taskQueue = []
  · by_cases hquiet : ∀ c, (s.clients c).place.isAsleep = false
    · exact ⟨.report w none, rfl, by
        simp [State.step, hplace, State.workerReport, hqueue, State.signalEmpty, hquiet]⟩
    · obtain ⟨c, hc⟩ := not_forall.mp hquiet
      exact ⟨.report w (some c), rfl, by
        simp [State.step, hplace, State.workerReport, hqueue, State.signalEmpty, hc]⟩
  · exact ⟨.report w none, rfl, by simp [State.step, hplace, State.workerReport, hqueue]⟩

/-- Only sleeping workers and workers outside their loop cannot move. -/
theorem canStep_or_worker_rests (s : State F A n k) (w : Fin n) :
    s.CanStep ∨ s.workers w = .unborn ∨ s.workers w = .asleep ∨ s.workers w = .exited := by
  cases hplace : s.workers w with
  | unborn | asleep | exited => simp
  | ran => exact Or.inl (canStep_of_ran hplace)
  | top | woken | stopping | holds task | runs task =>
      exact Or.inl (canStep_of_worker (w := w) (by simp [State.workerStep, hplace]))

theorem canStep_of_client {s : State F A n k} {c : Fin k} (hcreated : s.created = n)
    (hstep : (s.clientStep c).isSome = true) : s.CanStep :=
  ⟨.client c, rfl, by simpa [State.step, hcreated] using hstep⟩

/-- A client at `pthread_join` can go on, or the worker it waits for can. -/
theorem canStep_of_joins {s : State F A n 1} (hboot : Booted s) (hawake : Awake s) {i : Nat}
    (hcreated : s.created = n) (hplace : s.place = .joins i) (hstop : s.stop = true) :
    s.CanStep := by
  by_cases hi : i < n
  · rcases canStep_or_worker_rests s ⟨i, hi⟩ with hcan | hunborn | hasleep | hexited
    · exact hcan
    · have := (hboot.unborn _).mp hunborn
      simp only [hcreated] at this
      omega
    · simp [(hawake.asleep _ hasleep).2] at hstop
    · refine canStep_of_client (c := 0) hcreated ?_
      simp [State.clientStep, show (s.clients 0).place = _ from hplace, State.joinStep, hi,
        hexited]
  · refine canStep_of_client (c := 0) hcreated ?_
    simp [State.clientStep, show (s.clients 0).place = _ from hplace, State.joinStep, hi]

/-- A client asleep in `tpool_wait` is not alone: with at least one worker some
thread can move. -/
theorem canStep_of_asleep {s : State F A n 1} (hn : 1 ≤ n) (hboot : Booted s)
    (hawake : Awake s) (hdue : SignalDue s) (hcreated : s.created = n)
    (hasleep : s.place.isAsleep = true) (hstop : s.stop = false) : s.CanStep := by
  have hrests : ∀ w, s.CanStep ∨ s.workers w = .asleep := by
    intro w
    rcases canStep_or_worker_rests s w with hcan | hunborn | hsleeps | hexited
    · exact Or.inl hcan
    · have := (hboot.unborn w).mp hunborn
      omega
    · exact Or.inr hsleeps
    · simp [hawake.leaving w (Or.inr hexited)] at hstop
  rcases hrests ⟨0, hn⟩ with hcan | hsleeps
  · exact hcan
  · obtain ⟨w, hbusy⟩ := hdue hasleep (hawake.asleep _ hsleeps).1
    rcases hrests w with hcan | hw
    · exact hcan
    · simp [hw, WorkerAt.isBusy] at hbusy

theorem Progressing.canStep {jobs : List (F × A)} {s : State F A n 1} (hn : 1 ≤ n)
    (hs : Progressing jobs s) (hrunning : ¬ s.destroyReturned) : s.CanStep := by
  obtain ⟨⟨hboot, -, -⟩, hawake, hstage, hdue⟩ := hs
  by_cases hcreated : s.created = n
  · have hclient : ∀ {p}, s.place = p → (s.clients 0).place = p := id
    cases hstage with
    | adds rest hplace hscript =>
        refine canStep_of_client (c := 0) hcreated ?_
        have hscript' : (s.clients 0).script = program rest := hscript
        cases rest <;>
          simp [State.clientStep, hclient hplace, State.clientCall, hscript', program]
    | waited hplace hscript =>
        refine canStep_of_client (c := 0) hcreated ?_
        have hscript' : (s.clients 0).script = [.destroy] := hscript
        simp [State.clientStep, hclient hplace, State.clientCall, hscript']
    | links task rest hplace | stops hplace =>
        refine canStep_of_client (c := 0) hcreated ?_
        simp [State.clientStep, hclient hplace]
    | joins i hplace _ _ hstop => exact canStep_of_joins hboot hawake hcreated hplace hstop
    | waits before hplace _ _ hstop =>
        rcases hplace with hplace | hplace | hplace
        · refine canStep_of_client (c := 0) hcreated ?_
          simp [State.clientStep, hclient hplace]
        · exact canStep_of_asleep hn hboot hawake hdue hcreated
            (by simp [hplace, ClientAt.isAsleep]) hstop
        · refine canStep_of_client (c := 0) hcreated ?_
          simp [State.clientStep, hclient hplace]
    | ends hplace hscript =>
        rcases hplace with hplace | hplace | hplace
        · refine canStep_of_client (c := 0) hcreated ?_
          simp [State.clientStep, hclient hplace]
        · refine canStep_of_client (c := 0) hcreated ?_
          simp [State.clientStep, hclient hplace]
        · exact absurd ⟨hplace, hscript⟩ hrunning
  · have hlt : s.created < n := Nat.lt_of_le_of_ne hboot.le hcreated
    exact ⟨.create, rfl, by simp [State.step, hlt]⟩

/-- With all workers out of their loops nothing is in hand. -/
theorem Ledger.finished_of_exited {s : State F A n k} (hs : Ledger s)
    (hexited : ∀ w, s.workers w = .exited) (hqueue : s.taskQueue = []) (task : Task F A) :
    (task ∈ s.finished ↔ task ∈ s.linked) ∧ (task ∈ s.started ↔ task ∈ s.linked) := by
  have hfinished : task ∈ s.finished ↔ task ∈ s.linked := by
    rw [← hs.conserved, hqueue, List.append_nil]
    constructor
    · intro hfin
      obtain ⟨w, hw⟩ := hs.finished_removed task hfin
      exact List.mem_map.mpr ⟨(w, task), hw, rfl⟩
    · intro hmem
      obtain ⟨⟨w, _⟩, hw, rfl⟩ := List.mem_map.mp hmem
      refine (hs.removed_split w _ hw).resolve_right ?_
      simp [hexited w, WorkerAt.inHand]
  refine ⟨hfinished, ?_⟩
  rw [hs.started_iff, hfinished]
  simp [hexited, WorkerAt.inFunc]

/-- For every number of workers and every list of jobs, no reachable state of the
program is stuck before `tpool_destroy` has returned; and when it reaches
`free(pool)`, the queue is empty, the tasks of exactly the given jobs have each
been started once and have finished, and every worker has exited. -/
theorem program_completes (hn : 1 ≤ n) (jobs : List (F × A)) {s : State F A n 1}
    (hreach : (programPool n jobs).Reachable s) :
    (¬ s.destroyReturned → s.CanStep) ∧
      (s.place = .frees →
        s.taskQueue = [] ∧ s.linked.map Task.job = jobs ∧ s.linked.Nodup ∧
          s.started.Perm s.linked ∧ s.finished.Perm s.linked ∧
          ∀ w, s.workers w = .exited) := by
  have hs := reachable_progressing hreach
  refine ⟨hs.canStep hn, fun hplace => ?_⟩
  obtain ⟨-, hjobs, -, hqueue, hexited⟩ := hs.stage.ended (Or.inl hplace)
  obtain ⟨-, halloc, hledger⟩ := hs.books
  have hall := hledger.finished_of_exited hexited hqueue
  refine ⟨hqueue, hjobs, halloc.nodup, ?_, ?_, hexited⟩
  · exact (List.perm_ext_iff_of_nodup hledger.started_nodup halloc.nodup).mpr
      fun task => (hall task).2
  · exact (List.perm_ext_iff_of_nodup hledger.finished_nodup halloc.nodup).mpr
      fun task => (hall task).1

namespace OneJob

/-- One worker runs the only job, and the client is about to free the pool. -/
def actions : List (Action 1 1) :=
  [Action.create] ++ List.replicate 2 (Action.client sole) ++
    List.replicate 3 (Action.worker sole) ++ List.replicate 4 (Action.client sole) ++
    [Action.report sole none, .worker sole, .worker sole] ++
    List.replicate 2 (Action.client sole)

def state : State Unit Unit 1 1 :=
  ((programPool 1 [((), ())]).run (State.init 1 fun _ => program [((), ())]) actions).getD
    (State.init 1 fun _ => program [((), ())])

theorem reachable : (programPool 1 [((), ())]).Reachable state :=
  TransitionSystem.Reachable.run (.start rfl) actions rfl

end OneJob

theorem program_completes_one_job :
    OneJob.state.CanStep ∧ OneJob.state.finished.Perm [⟨0, (), ()⟩] ∧
      OneJob.state.workers 0 = .exited := by
  obtain ⟨hcan, hdone⟩ := program_completes (Nat.le_refl 1) _ OneJob.reachable
  obtain ⟨-, -, -, -, hfinished, hexited⟩ := hdone rfl
  exact ⟨hcan (by decide), hfinished, hexited 0⟩

end ThreadPool

end SystemsProgramming
