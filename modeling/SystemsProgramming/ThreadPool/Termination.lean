/-
The program that adds its jobs, waits and destroys the pool, statement by statement.  It
cannot get stuck or go on for ever, it calls every job once, and it frees every node.
-/
import SystemsProgramming.ThreadPool.Memory
import SystemsProgramming.ThreadPool.Bound

namespace SystemsProgramming

namespace ThreadPool

variable {F A : Type} {n k : Nat}

def MachineAction.isSpurious : MachineAction n k → Bool
  | spuriousWorker _ | spuriousClient _ => true
  | _ => false

namespace Machine

/-- Some step other than a spurious wake-up is enabled, and `malloc` succeeds in it. -/
def CanStep (m : Machine F A n k) : Prop :=
  ∃ a, a.isSpurious = false ∧ m.mallocFails a = false ∧ ∃ next, m.step a = .moves next

theorem deref_ne_blocked (m : Machine F A n k) (pointer : Option Nat)
    (use : Nat → TpoolTask F A → Machine F A n k) : m.deref pointer use ≠ .blocked := by
  unfold deref
  split
  · simp
  · split <;> simp

end Machine

namespace Machine

variable {m l next : Machine F A n k}

theorem lock_moves {t : Thread n k} (hstep : m.lock t l = .moves next) :
    { l with queueLock := some t } = next := by
  unfold lock at hstep
  split at hstep
  · simpa using hstep
  · simp at hstep

theorem deref_moves {pointer : Option Nat} {use : Nat → TpoolTask F A → Machine F A n k}
    (hstep : m.deref pointer use = .moves next) : ∃ p node, use p node = next := by
  unfold deref at hstep
  split at hstep
  · simp at hstep
  · next p =>
      split at hstep
      · simp at hstep
      · next node _ => exact ⟨p, node, by simpa using hstep⟩

theorem execute_of_step {a : MachineAction n k} (hstep : m.step a = .moves next) :
    m.execute a = .moves next := by
  unfold step at hstep
  split at hstep
  · simp at hstep
  · exact hstep

theorem workerStep_frame {w : Fin n} (hstep : m.workerStep w = .moves next) :
    next.created = m.created ∧ next.freed = m.freed ∧ next.clients = m.clients := by
  cases hpc : m.workers w <;> simp only [workerStep, hpc] at hstep
  case unborn | asleep | exited | signals => simp at hstep
  case locks | woken | relocks =>
    obtain rfl := lock_moves hstep
    exact ⟨rfl, rfl, rfl⟩
  case pops | calls | frees =>
    obtain ⟨p, node, rfl⟩ := deref_moves hstep
    exact ⟨rfl, rfl, rfl⟩
  case tests | checks | probes =>
    split at hstep <;> obtain rfl : _ = next := by simpa using hstep
    · exact ⟨rfl, rfl, rfl⟩
    · exact ⟨rfl, rfl, rfl⟩
  case sleeps | quits | stopping | loads | unlocks | runs | leaves =>
    obtain rfl : _ = next := by simpa using hstep
    exact ⟨rfl, rfl, rfl⟩

/-- A statement of a client frees the pool only at `frees`. -/
theorem clientStep_frame {c : Fin k} (hstep : m.clientStep c = .moves next) :
    next.created = m.created ∧
      (next.freed = m.freed ∨ (m.clients c).pc = .frees ∧ (next.clients c).pc = .destroys) := by
  cases hpc : (m.clients c).pc <;> simp only [clientStep, hpc] at hstep
  case asleep => simp at hstep
  case idle =>
    simp only [clientCall] at hstep
    split at hstep <;> simp at hstep
    · obtain rfl := hstep; exact ⟨rfl, .inl rfl⟩
    · obtain rfl := hstep; exact ⟨rfl, .inl rfl⟩
  case addLocks | waitLocks | woken | stopLocks =>
    obtain rfl := lock_moves hstep
    exact ⟨rfl, .inl rfl⟩
  case walks =>
    obtain ⟨p, node, rfl⟩ := deref_moves hstep
    split
    · exact ⟨rfl, .inl rfl⟩
    · exact ⟨rfl, .inl rfl⟩
  case advances | links =>
    obtain ⟨p, node, rfl⟩ := deref_moves hstep
    exact ⟨rfl, .inl rfl⟩
  case joins =>
    simp only [joinStep] at hstep
    split at hstep
    · split at hstep <;> simp at hstep
      obtain rfl := hstep; exact ⟨rfl, .inl rfl⟩
    · obtain rfl : _ = next := by simpa using hstep
      exact ⟨rfl, .inl rfl⟩
  case addTests | waitTests =>
    split at hstep <;> obtain rfl : _ = next := by simpa using hstep
    · exact ⟨rfl, .inl rfl⟩
    · exact ⟨rfl, .inl rfl⟩
  case frees =>
    obtain rfl : _ = next := by simpa using hstep
    exact ⟨rfl, .inr ⟨rfl, by simp⟩⟩
  all_goals
    obtain rfl : _ = next := by simpa using hstep
    exact ⟨rfl, .inl rfl⟩

/-- What a step does with the clients and with `free(pool)`. -/
inductive Turns (m next : Machine F A n k) : Prop
  | others (hcreated : m.created = n → next.created = n) (hfreed : next.freed = m.freed)
      (hclients : next.clients = m.clients)
  | wakes (c : Fin k) (hasleep : (m.clients c).pc = .asleep) (hcreated : next.created = m.created)
      (hfreed : next.freed = m.freed)
  | adds (c : Fin k) (hscript : (m.clients c).script ≠ []) (hcreated : next.created = n)
      (hfreed : next.freed = m.freed)
  | client (c : Fin k) (hcreated : m.created = n) (hstep : m.clientStep c = .moves next)

theorem turns_of_step {a : MachineAction n k} (hstep : m.step a = .moves next) : Turns m next := by
  replace hstep := execute_of_step hstep
  cases a with
  | create =>
      simp only [execute] at hstep
      split at hstep
      · next hn =>
          obtain rfl : _ = next := by simpa using hstep
          exact .others (fun hall => absurd hn (Nat.not_lt.mpr hall.ge)) rfl rfl
      · simp at hstep
  | worker w =>
      obtain ⟨hcreated, hfreed, hclients⟩ := workerStep_frame hstep
      exact .others hcreated.trans hfreed hclients
  | signal w woken =>
      simp only [execute] at hstep
      split at hstep
      · cases woken with
        | none =>
            simp only [signalEmpty] at hstep
            split at hstep
            · obtain rfl : _ = next := by simpa using hstep
              exact .others id rfl rfl
            · simp at hstep
        | some c =>
            simp only [signalEmpty] at hstep
            split at hstep
            · next hasleep =>
                obtain rfl : _ = next := by simpa using hstep
                exact .wakes c hasleep rfl rfl
            · simp at hstep
      · simp at hstep
  | malloc c address =>
      simp only [execute] at hstep
      split at hstep
      · next hscript =>
          split at hstep
          · next hcreated =>
              cases address with
              | none => simp [tpoolAdd] at hstep
              | some p =>
                  simp only [tpoolAdd] at hstep
                  split at hstep
                  · obtain rfl : _ = next := by simpa using hstep
                    exact .adds c (by simp [hscript]) hcreated rfl
                  · simp at hstep
          · simp at hstep
      · simp at hstep
  | client c =>
      simp only [execute] at hstep
      split at hstep
      · next hcreated => exact .client c hcreated hstep
      · simp at hstep
  | spuriousWorker w =>
      simp only [execute] at hstep
      split at hstep
      · obtain rfl : _ = next := by simpa using hstep
        exact .others id rfl rfl
      · simp at hstep
  | spuriousClient c =>
      simp only [execute] at hstep
      split at hstep
      · next hasleep =>
          obtain rfl : _ = next := by simpa using hstep
          exact .wakes c hasleep rfl rfl
      · simp at hstep

/-- The clients do not move before `tpool_init` has returned. -/
def Entered (m : Machine F A n k) : Prop :=
  m.created = n ∨ ∀ c, (m.clients c).pc = .idle

theorem Entered.step (h : m.Entered) {a : MachineAction n k} (hstep : m.step a = .moves next) :
    next.Entered := by
  cases turns_of_step hstep with
  | others hcreated _ hclients => exact h.imp hcreated fun hidle => hclients ▸ hidle
  | wakes c hasleep hcreated =>
      exact .inl (hcreated.trans (h.resolve_right fun hidle => by simp [hidle c] at hasleep))
  | adds _ _ hcreated => exact .inl hcreated
  | client c hcreated hclient => exact .inl ((clientStep_frame hclient).1.trans hcreated)

/-- Behind `free(pool)` the only client is at the end of `tpool_destroy`, or has returned. -/
def Retired (m : Machine F A n 1) : Prop :=
  m.freed = true → (m.clients sole).pc = .destroys ∨ (m.clients sole).pc = .idle

theorem Retired.pc {m : Machine F A n 1} (h : m.Retired) (hfreed : m.freed = true) :
    (m.clients 0).pc = .destroys ∨ (m.clients 0).pc = .idle := h hfreed

theorem Retired.step {m next : Machine F A n 1} (h : m.Retired)
    (hscript : m.freed = true → (m.clients 0).script = []) {a : MachineAction n 1}
    (hstep : m.step a = .moves next) : next.Retired := by
  intro hlater
  cases turns_of_step hstep with
  | others _ hfreed hclients => exact hclients ▸ h (hfreed ▸ hlater)
  | wakes c hasleep _ hfreed =>
      obtain rfl : c = 0 := Subsingleton.elim _ _
      rcases h.pc (hfreed ▸ hlater) with hpc | hpc
      · simp [hpc] at hasleep
      · simp [hpc] at hasleep
  | adds c hmore _ hfreed =>
      obtain rfl : c = 0 := Subsingleton.elim _ _
      exact absurd (hscript (hfreed ▸ hlater)) hmore
  | client c _ hclient =>
      obtain rfl : c = 0 := Subsingleton.elim _ _
      rcases (clientStep_frame hclient).2 with hfreed | ⟨-, hpc⟩
      · have hbefore : m.freed = true := hfreed ▸ hlater
        rcases h.pc hbefore with hpc | hpc
        · simp only [clientStep, hpc, Effect.moves.injEq] at hclient
          obtain rfl := hclient
          exact .inr (by simp)
        · simp [clientStep, hpc, clientCall, hscript hbefore] at hclient
      · exact .inl hpc

end Machine

section CanStep

variable {tag : Nat → Option (Task F A)} {addresses : List Nat} {m : Machine F A n k}
  {s : State F A n k}

/-- There is always an address for `malloc` to return. -/
theorem Refines.exists_free (h : Refines tag addresses m s) : ∃ p, m.heap p = none := by
  obtain ⟨p, hp⟩ := Infinite.exists_notMem_finset
    (addresses.toFinset ∪ Finset.univ.biUnion (fun w => (m.workers w).node.toFinset) ∪
      Finset.univ.biUnion fun c => (m.clients c).pc.node.toFinset)
  simp only [Finset.mem_union, List.mem_toFinset, Finset.mem_biUnion, Finset.mem_univ, true_and,
    Option.mem_toFinset, Option.mem_def, not_or, not_exists] at hp
  refine ⟨p, ?_⟩
  by_contra hheap
  rcases h.owned p hheap with hmem | ⟨w, hw⟩ | ⟨c, hc⟩
  · exact hp.1.1 hmem
  · exact hp.1.2 w hw
  · exact hp.2 c hc

theorem ClientPc.Matches.eq_idle {pc : ClientPc} (hpc : pc.Matches tag .idle)
    (hout : pc.inside = false) : pc = .idle := by
  cases pc <;> simp_all [ClientPc.Matches, ClientPc.inside]

theorem ClientPc.Matches.eq_joins {pc : ClientPc} {i : Nat} (hpc : pc.Matches tag (.joins i))
    (hout : pc.inside = false) : pc = .joins i := by
  cases pc <;> simp_all [ClientPc.Matches, ClientPc.inside]

variable (h : Refines tag addresses m s) (hbooks : Books s)
  (hpool : ∀ a, m.usesFreed a = false)

include h hbooks hpool

/-- A step that is not refused can be taken: it does not fault. -/
theorem Refines.canStep_of_step {a : MachineAction n k} (hspurious : a.isSpurious = false)
    (hmemory : m.mallocFails a = false) (hexecute : m.execute a ≠ .blocked) : m.CanStep := by
  refine ⟨a, hspurious, hmemory, ?_⟩
  rw [Machine.step_of_pool (hpool a)]
  have hsim := execute_simulated (fun _ => []) h hbooks hmemory
  cases heffect : m.execute a with
  | blocked => exact absurd heffect hexecute
  | faults => rw [heffect] at hsim; exact hsim.elim
  | moves next => exact ⟨next, rfl⟩

/-- The owner of the lock is never refused a step. -/
theorem Refines.canStep_of_inside (hentered : m.Entered) {t : Thread n k}
    (hin : m.inside t = true) : m.CanStep := by
  cases t with
  | inl w =>
      by_cases hsignals : m.workers w = .signals
      · by_cases hasleep : ∀ c, (m.clients c).pc ≠ .asleep
        · refine h.canStep_of_step hbooks hpool (a := .signal w none) rfl rfl ?_
          simp [Machine.execute, hsignals, Machine.signalEmpty, hasleep]
        · obtain ⟨c, hc⟩ := not_forall_not.mp hasleep
          refine h.canStep_of_step hbooks hpool (a := .signal w (some c)) rfl rfl ?_
          simp [Machine.execute, hsignals, Machine.signalEmpty, hc]
      · refine h.canStep_of_step hbooks hpool (a := .worker w) rfl rfl ?_
        cases hpc : m.workers w <;>
          simp_all [Machine.execute, Machine.workerStep, WorkerPc.inside,
            Machine.deref_ne_blocked] <;>
          split <;> simp
  | inr c =>
      have hcreated : m.created = n := by
        refine hentered.resolve_right fun hidle => ?_
        simp [hidle c, ClientPc.inside] at hin
      refine h.canStep_of_step hbooks hpool (a := .client c) rfl rfl ?_
      cases hpc : (m.clients c).pc <;>
        simp_all [Machine.execute, Machine.clientStep, ClientPc.inside,
          Machine.deref_ne_blocked] <;>
        split <;> simp

section Unlocked

variable (hfree : m.queueLock = none)

include hfree

/-- A worker that the pool can move is at a statement it can execute. -/
theorem Refines.canStep_of_worker {w : Fin n}
    (hplace : s.workers w ≠ .unborn ∧ s.workers w ≠ .asleep ∧ s.workers w ≠ .exited) :
    m.CanStep := by
  have hout : (m.workers w).inside = false := (hfree ▸ h.lock).outside (.inl w)
  have hmatches := h.worker_place w
  refine h.canStep_of_step hbooks hpool (a := .worker w) rfl rfl ?_
  cases hpc : m.workers w <;> rw [hpc] at hout hmatches <;>
    simp only [WorkerPc.inside, Bool.true_eq_false] at hout <;>
    simp only [Machine.execute, Machine.workerStep, hpc]
  case unborn => exact absurd hmatches hplace.1
  case asleep => exact absurd hmatches hplace.2.1
  case exited => exact absurd hmatches hplace.2.2
  case locks | woken | relocks => simp [Machine.lock, hfree]
  case stopping | runs => simp
  case calls | frees => exact m.deref_ne_blocked _ _

variable (hcreated : s.created = n)

include hcreated

/-- A client that the pool can move, in a call and not at a join, is at a lock or in the end of
`tpool_destroy`. -/
theorem Refines.canStep_of_client {c : Fin k}
    (hasleep : (s.clients c).place.isAsleep = false) (hidle : (s.clients c).place ≠ .idle)
    (hjoins : ∀ i, (s.clients c).place ≠ .joins i) : m.CanStep := by
  have hout : (m.clients c).pc.inside = false := (hfree ▸ h.lock).outside (.inr c)
  have hmatches := h.client_place c
  refine h.canStep_of_step hbooks hpool (a := .client c) rfl rfl ?_
  simp only [Machine.execute, h.created.trans hcreated, ↓reduceIte]
  cases hpc : (m.clients c).pc <;> rw [hpc] at hout hmatches <;>
    simp only [ClientPc.inside, Bool.true_eq_false] at hout <;>
    simp only [Machine.clientStep, hpc]
  case idle => exact absurd hmatches hidle
  case joins i => exact absurd hmatches (hjoins i)
  case asleep =>
    obtain ⟨before, hbefore⟩ := hmatches
    simp [hbefore, ClientAt.isAsleep] at hasleep
  case addLocks | waitLocks | woken | stopLocks => simp [Machine.lock, hfree]
  case frees | destroys => simp

/-- Between two calls and at a join the program does what the pool does. -/
theorem Refines.canStep_of_join {c : Fin k} {i : Nat} (hplace : (s.clients c).place = .joins i)
    (hexited : ∀ hi : i < n, s.workers ⟨i, hi⟩ = .exited) : m.CanStep := by
  have hpc : (m.clients c).pc = .joins i :=
    (hplace ▸ h.client_place c).eq_joins ((hfree ▸ h.lock).outside (.inr c))
  refine h.canStep_of_step hbooks hpool (a := .client c) rfl rfl ?_
  by_cases hi : i < n
  · have hworker : m.workers ⟨i, hi⟩ = .exited := (hexited hi ▸ h.worker_place ⟨i, hi⟩).eq_exited
    simp [Machine.execute, Machine.clientStep, hpc, Machine.joinStep, hi, hworker,
      h.created.trans hcreated]
  · simp [Machine.execute, Machine.clientStep, hpc, Machine.joinStep, hi, h.created.trans hcreated]

theorem Refines.canStep_of_call {c : Fin k} (hplace : (s.clients c).place = .idle)
    (hscript : (s.clients c).script ≠ []) : m.CanStep := by
  have hpc : (m.clients c).pc = .idle :=
    (hplace ▸ h.client_place c).eq_idle ((hfree ▸ h.lock).outside (.inr c))
  have hcreated' : m.created = n := h.created.trans hcreated
  obtain ⟨call, rest, hcons⟩ := List.exists_cons_of_ne_nil hscript
  rw [← h.client_script c] at hcons
  cases call with
  | add func arg =>
      obtain ⟨p, hp⟩ := h.exists_free
      refine h.canStep_of_step hbooks hpool (a := .malloc c (some p)) rfl rfl ?_
      simp [Machine.execute, hpc, hcons, hcreated', Machine.tpoolAdd, hp]
  | wait | destroy =>
      refine h.canStep_of_step hbooks hpool (a := .client c) rfl rfl ?_
      simp [Machine.execute, Machine.clientStep, hpc, Machine.clientCall, hcons, hcreated']

end Unlocked

/-- What the pool can do, the program can do a statement of. -/
theorem Refines.canStep (hentered : m.Entered) (hcan : s.CanStep) : m.CanStep := by
  by_cases hlock : m.queueLock = none
  · obtain ⟨a, hspurious, hsome⟩ := hcan
    obtain ⟨t, hstep⟩ := Option.isSome_iff_exists.mp hsome
    cases step_moves hstep with
    | create hn =>
        refine h.canStep_of_step hbooks hpool (a := .create) rfl rfl ?_
        simp [Machine.execute, h.created ▸ hn]
    | sleep w hplace | quit w hplace | take w _ _ hplace =>
        refine h.canStep_of_worker hbooks hpool hlock (w := w) ?_
        rcases hplace with hw | hw <;> simp [hw]
    | exit w hplace | call w _ hplace | finish w _ hplace | report w hplace =>
        exact h.canStep_of_worker hbooks hpool hlock (w := w) (by simp [hplace])
    | signal w _ _ hplace =>
        exact h.canStep_of_worker hbooks hpool hlock (w := w) (by simp [hplace])
    | callAdd c _ _ _ hcreated hplace hscript =>
        exact h.canStep_of_call hbooks hpool hlock hcreated hplace (by simp [hscript])
    | callWait c _ hcreated hplace hscript | callDestroy c _ hcreated hplace hscript =>
        exact h.canStep_of_call hbooks hpool hlock hcreated hplace (by simp [hscript])
    | linkFirst c _ hcreated hplace | linkLast c _ hcreated hplace =>
        exact h.canStep_of_client hbooks hpool hlock hcreated (c := c)
          (by simp [hplace, ClientAt.isAsleep]) (by simp [hplace]) (by simp [hplace])
    | setStop c hcreated hplace | free c hcreated hplace | destroyed c hcreated hplace =>
        exact h.canStep_of_client hbooks hpool hlock hcreated (c := c)
          (by simp [hplace, ClientAt.isAsleep]) (by simp [hplace]) (by simp [hplace])
    | waitSleep c _ hcreated hplace | waitReturn c _ hcreated hplace =>
        rcases hplace with hplace | hplace
        · exact h.canStep_of_client hbooks hpool hlock hcreated (c := c)
            (by simp [hplace, ClientAt.isAsleep]) (by simp [hplace]) (by simp [hplace])
        · exact h.canStep_of_client hbooks hpool hlock hcreated (c := c)
            (by simp [hplace, ClientAt.isAsleep]) (by simp [hplace]) (by simp [hplace])
    | join c i hi hcreated hplace hexited =>
        exact h.canStep_of_join hbooks hpool hlock hcreated hplace fun _ => hexited
    | joined c i hi hcreated hplace =>
        exact h.canStep_of_join hbooks hpool hlock hcreated hplace fun hlt => by omega
    | spuriousWorker | spuriousClient => simp [Action.isSpurious] at hspurious
  · obtain ⟨t, ht⟩ := Option.ne_none_iff_exists'.mp hlock
    exact h.canStep_of_inside hbooks hpool hentered ((h.lock t).mpr ht)

end CanStep

/-- The call of a function by a worker, as the statement `task->func(task->arg)` finds it in
memory. -/
def callsOf (state : Option (Machine F A n k)) : MachineAction n k → List (F × A)
  | .worker w =>
      match state with
      | none => []
      | some m =>
          match m.workers w with
          | .calls task => ((m.heap task).map TpoolTask.job).toList
          | _ => []
  | _ => []

/-- The task that a step of the pool starts. -/
def State.startOf (s : State F A n k) : Action n k → List (Task F A)
  | .worker w =>
      match s.workers w with
      | .holds task => [task]
      | _ => []
  | _ => []

theorem Moves.started_eq {s t : State F A n k} {a : Action n k} (hmove : Moves s a t) :
    t.started = s.started ++ s.startOf a := by
  cases hmove with
  | call w task hplace => simp [State.startOf, hplace]
  | sleep w hplace | quit w hplace | take w _ _ hplace =>
      rcases hplace with h | h <;> simp [State.startOf, h]
  | exit w hplace | finish w _ hplace => simp [State.startOf, hplace]
  | _ => simp [State.startOf, State.broadcastNotEmpty]

/-- A statement commits at most one step of the pool, and of its own kind. -/
theorem commits_cases (m : Machine F A n k) (a : MachineAction n k) :
    commits m a = [] ∨ ∃ b, commits m a = [b] ∧ b.isSpurious = a.isSpurious := by
  cases a with
  | worker w =>
      cases hpc : m.workers w <;> simp [commits, hpc, Action.isSpurious, MachineAction.isSpurious]
      split <;> simp [*]
  | client c =>
      cases hpc : (m.clients c).pc <;>
        simp [commits, hpc, Action.isSpurious, MachineAction.isSpurious]
      split <;> simp [*]
  | _ => exact Or.inr ⟨_, rfl, rfl⟩

section Program

variable {tag : Nat → Option (Task F A)} {addresses : List Nat} {m : Machine F A n k}
  {s t : State F A n k} {scripts : Fin k → List (Call F A)}

theorem moves_of_run_one {b : Action n k} (hrun : (pool n scripts).run s [b] = some t) :
    Moves s b t := by
  simp only [TransitionSystem.run, pool, Option.bind_eq_some_iff, Option.some.injEq] at hrun
  obtain ⟨_, hstep, rfl⟩ := hrun
  exact step_moves hstep

theorem Refines.started_eq (h : Refines tag addresses m s) {a : MachineAction n k}
    (hrun : (pool n scripts).run s (commits m a) = some t) :
    t.started.map Task.job = s.started.map Task.job ++ callsOf (some m) a := by
  have hquiet : (∀ b ∈ commits m a, s.startOf b = []) → callsOf (some m) a = [] →
      t.started.map Task.job = s.started.map Task.job ++ callsOf (some m) a := by
    intro hnone hcalls
    rw [hcalls, List.append_nil]
    rcases commits_cases m a with hnil | ⟨b, hone, -⟩
    · rw [hnil] at hrun
      obtain rfl : s = t := by simpa [TransitionSystem.run] using hrun
      rfl
    · rw [hone] at hrun
      rw [(moves_of_run_one hrun).started_eq, hnone b (by simp [hone]), List.append_nil]
  cases a with
  | worker w =>
      have hplace := h.worker_place w
      cases hpc : m.workers w <;> rw [hpc] at hplace
      case calls p =>
        obtain ⟨task, htask, hholds⟩ := hplace
        obtain ⟨node, hnode⟩ := h.worker_allocated (w := w) (p := p) (by rw [hpc]; rfl)
        have hjob : node.job = task.job := by
          have := h.tagged p
          rw [hnode, htask] at this
          exact Option.some.inj this
        have hone : commits m (.worker w) = [.worker w] := by simp [commits, hpc]
        rw [hone] at hrun
        rw [(moves_of_run_one hrun).started_eq]
        simp [State.startOf, hholds, callsOf, hpc, hnode, hjob]
      case probes =>
        refine hquiet ?_ (by simp [callsOf, hpc])
        simp only [commits, hpc]
        split <;> simp [State.startOf]
      case sleeps | quits | pops =>
        refine hquiet ?_ (by simp [callsOf, hpc])
        rcases hplace with hplace | hplace <;> simp [commits, hpc, State.startOf, hplace]
      case stopping =>
        replace hplace : s.workers w = .stopping := hplace
        exact hquiet (by simp [commits, hpc, State.startOf, hplace]) (by simp [callsOf, hpc])
      case runs =>
        obtain ⟨task, -, -, hruns⟩ := hplace
        exact hquiet (by simp [commits, hpc, State.startOf, hruns]) (by simp [callsOf, hpc])
      all_goals exact hquiet (by simp [commits, hpc]) (by simp [callsOf, hpc])
  | client c =>
      refine hquiet (fun b hb => ?_) rfl
      rcases commits_cases m (.client c) with hnil | ⟨b', hone, -⟩
      · simp [hnil] at hb
      · have hmem : ∀ x ∈ commits m (.client c), x = .client c := by
          cases hpc : (m.clients c).pc <;> simp [commits, hpc]
        rw [hmem b hb]
        rfl
  | _ => exact hquiet (by simp [commits, State.startOf]) rfl

end Program

/-- A step of the program that is neither a crash nor a spurious wake-up. -/
def Proceeds (state : Option (Machine F A n k)) (action : MachineAction n k) : Prop :=
  HasMemory state action ∧ action.isSpurious = false

/-- `my_pool.c` under one client that adds the jobs, waits and destroys the pool. -/
def programMachine (n : Nat) (jobs : List (F × A)) :
    TransitionSystem (Option (Machine F A n 1)) (MachineAction n 1) :=
  machine n fun _ => program jobs

/-- The client has returned from `tpool_destroy`. -/
def Machine.Finished (m : Machine F A n 1) : Prop :=
  (m.clients sole).pc = .idle ∧ (m.clients sole).script = []

/-- The machine carries out the program: what is known of it between two statements. -/
structure InProgram (jobs : List (F × A)) (tag : Nat → Option (Task F A)) (addresses : List Nat)
    (m : Machine F A n 1) (s : State F A n 1) : Prop where
  refines : Refines tag addresses m s
  reachable : (programPool n jobs).Reachable s
  entered : m.Entered
  retired : m.Retired

namespace InProgram

variable {jobs : List (F × A)} {tag : Nat → Option (Task F A)} {addresses : List Nat}
  {m : Machine F A n 1} {s : State F A n 1} {action : MachineAction n 1}
  {next : Option (Machine F A n 1)}

theorem init (jobs : List (F × A)) : InProgram jobs (fun _ => none) []
    (Machine.init n fun _ => program jobs) (State.init n fun _ => program jobs) where
  refines := refines_init _
  reachable := .start rfl
  entered := .inr fun _ => rfl
  retired hfreed := by simp [Machine.init] at hfreed

/-- The program does not use the pool behind `free(pool)`. -/
theorem on_pool (h : InProgram jobs tag addresses m s) (action : MachineAction n 1) :
    m.usesFreed action = false := by
  rw [h.refines.usesFreed_eq (reachable_joined h.reachable)]
  cases action with
  | client c =>
      obtain rfl : c = 0 := Subsingleton.elim _ _
      cases hfreed : m.freed with
      | false => simp [Machine.clientUsesFreed, hfreed]
      | true =>
          rcases h.retired.pc hfreed with hpc | hpc
          · simp [Machine.clientUsesFreed, hpc, ClientPc.usesPool]
          · simp [Machine.clientUsesFreed, hpc, ClientPc.usesPool]
  | _ => rfl

theorem step (h : InProgram jobs tag addresses m s) (hmemory : m.mallocFails action = false)
    (hstep : (programMachine n jobs).step (some m) action = some next) :
    ∃ later t tag' after, next = some later ∧ InProgram jobs tag' after later t ∧
      (programPool n jobs).run s (commits m action) = some t ∧
      (commits m action = [] → later.rank t after < m.rank s addresses) := by
  have hsim := step_simulated (fun _ => program jobs) h.refines (reachable_books h.reachable)
    hmemory (h.on_pool action)
  simp only [programMachine, machine, Option.bind_some] at hstep
  cases heffect : m.step action with
  | blocked => simp [heffect, Effect.outcome] at hstep
  | faults =>
      rw [heffect] at hsim
      exact hsim.elim
  | moves later =>
      rw [heffect] at hsim hstep
      obtain ⟨t, hrun, tag', after, ht, hsilent⟩ := hsim
      have hscript : m.freed = true → (m.clients 0).script = [] := by
        intro hfreed
        rw [h.refines.client_script 0]
        exact (reachable_retired h.reachable (h.refines.freed.symm.trans hfreed)).1
      refine ⟨later, t, tag', after, ?_, ⟨ht, h.reachable.run _ hrun, h.entered.step heffect,
        h.retired.step hscript heffect⟩, hrun, hsilent⟩
      simpa [Effect.outcome] using hstep.symm

end InProgram

/-- The rank of a state of the program: what is left on the account of the pool, and the
statements before the next step of the pool. -/
def Ranked (jobs : List (F × A)) (state : Option (Machine F A n 1)) (rank : Nat ×ₗ Nat) : Prop :=
  ∃ m s tag addresses, state = some m ∧ InProgram jobs tag addresses m s ∧
    rank = toLex (s.weight, m.rank s addresses)

theorem Ranked.step {jobs : List (F × A)} {state next : Option (Machine F A n 1)}
    {rank : Nat ×ₗ Nat} {action : MachineAction n 1} (hranked : Ranked jobs state rank)
    (hproceeds : Proceeds state action)
    (hstep : (programMachine n jobs).step state action = some next) :
    ∃ less, less < rank ∧ Ranked jobs next less := by
  obtain ⟨m, s, tag, addresses, rfl, h, rfl⟩ := hranked
  obtain ⟨later, t, tag', after, rfl, ht, hrun, hsilent⟩ := h.step (hproceeds.1 m rfl) hstep
  refine ⟨_, ?_, later, t, tag', after, rfl, ht, rfl⟩
  rw [Prod.Lex.toLex_lt_toLex]
  rcases commits_cases m action with hnil | ⟨b, hone, hspurious⟩
  · have hsame : s = t := by simpa [hnil, TransitionSystem.run] using hrun
    exact Or.inr ⟨congrArg State.weight hsame.symm, hsilent hnil⟩
  · rw [hone] at hrun
    have hweight := (moves_of_run_one hrun).weight_le (reachable_books h.reachable).booted
    simp only [hspurious, hproceeds.2, Bool.false_eq_true, ↓reduceIte] at hweight
    exact Or.inl (by omega)

theorem Ranked.enabled {jobs : List (F × A)} (hn : 1 ≤ n) {state : Option (Machine F A n 1)}
    {rank : Nat ×ₗ Nat} (hranked : Ranked jobs state rank)
    (hrunning : ¬ ∃ m, state = some m ∧ m.Finished) :
    ∃ action next, Proceeds state action ∧
      (programMachine n jobs).step state action = some next := by
  obtain ⟨m, s, tag, addresses, rfl, hprogram, -⟩ := hranked
  have hpool : ∀ a, m.usesFreed a = false := hprogram.on_pool
  obtain ⟨h, hreach, hentered, -⟩ := hprogram
  have hbooks := reachable_books hreach
  have hcan : m.CanStep := by
    by_cases hreturned : s.destroyReturned
    · have hpc : (m.clients 0).pc ≠ .idle := fun hidle =>
        hrunning ⟨m, rfl, hidle, (h.client_script 0).trans hreturned.2⟩
      refine h.canStep_of_inside hbooks hpool hentered (t := .inr 0) ?_
      have hplace : (s.clients 0).place = .idle := hreturned.1
      by_contra hout
      exact hpc ((hplace ▸ h.client_place 0).eq_idle (by simpa using hout))
    · exact h.canStep hbooks hpool hentered
        ((reachable_progressing hreach).canStep hn hreturned)
  obtain ⟨a, hspurious, hmemory, next, hstep⟩ := hcan
  refine ⟨a, some next, ⟨?_, hspurious⟩, ?_⟩
  · intro l hl
    obtain rfl : m = l := Option.some.inj hl
    exact hmemory
  · simp [programMachine, machine, hstep, Effect.outcome]

/-- What a stage says when the script is used up. -/
theorem Stage.returned {jobs : List (F × A)} {s : State F A n 1} (hs : Stage jobs s)
    (hreturned : s.destroyReturned) :
    s.linked.map Task.job = jobs ∧ s.stop = true ∧ s.taskQueue = [] ∧
      ∀ w, s.workers w = .exited := by
  obtain ⟨hplace, hscript⟩ := hreturned
  cases hs with
  | ends _ _ h3 h4 h5 h6 => exact ⟨h3, h4, h5, h6⟩
  | adds rest _ h2 => simp [hscript, program] at h2
  | waited _ h2 => simp [hscript] at h2
  | links _ _ h1 | stops h1 | joins _ h1 => simp [hplace] at h1
  | waits _ h1 => simp [hplace] at h1

/-- When the client has returned from `tpool_destroy`, nothing is left in memory. -/
theorem Refines.finished {tag : Nat → Option (Task F A)} {addresses : List Nat}
    {m : Machine F A n 1} {s : State F A n 1} (h : Refines tag addresses m s)
    (hqueue : s.taskQueue = []) (hexited : ∀ w, s.workers w = .exited) (hfinished : m.Finished) :
    (∀ p, m.heap p = none) ∧ m.queueLock = none ∧ ∀ w, m.workers w = .exited := by
  have hidle : (m.clients 0).pc = .idle := hfinished.1
  have hworkers : ∀ w, m.workers w = .exited := fun w => (hexited w ▸ h.worker_place w).eq_exited
  have hlock : m.queueLock = none := by
    by_contra hheld
    obtain ⟨t, ht⟩ := Option.ne_none_iff_exists'.mp hheld
    have hin := (h.lock t).mpr ht
    cases t with
    | inl w => simp [hworkers w, WorkerPc.inside] at hin
    | inr c => simp [Subsingleton.elim c 0, hidle, ClientPc.inside] at hin
  have haddresses : addresses = [] := by
    have hnodes := h.queue
    rw [hqueue, Machine.ownerPc_of_other (by simp [hlock])] at hnodes
    simpa [ClientPc.pendingNodes] using hnodes
  refine ⟨fun p => ?_, hlock, hworkers⟩
  by_contra hheap
  rcases h.owned p hheap with hmem | ⟨w, hw⟩ | ⟨c, hc⟩
  · simp [haddresses] at hmem
  · simp [hworkers w, WorkerPc.node] at hw
  · simp [Subsingleton.elim c 0, hidle, ClientPc.node, ClientPc.newTask] at hc

theorem callsOf_eq_started {jobs : List (F × A)} {actions : List (MachineAction n 1)}
    {state : Option (Machine F A n 1)}
    (hmemory : (programMachine n jobs).Meets HasMemory
      (some (Machine.init n fun _ => program jobs)) actions)
    (hrun : (programMachine n jobs).run (some (Machine.init n fun _ => program jobs)) actions =
      some state) :
    ∃ m s tag addresses, state = some m ∧ InProgram jobs tag addresses m s ∧
      (programMachine n jobs).trace callsOf (some (Machine.init n fun _ => program jobs)) actions =
        s.started.map Task.job := by
  refine TransitionSystem.trace_invariant callsOf (fun state calls => ∃ m s tag addresses,
    state = some m ∧ InProgram jobs tag addresses m s ∧ calls = s.started.map Task.job) ?_ ?_
    hmemory hrun
  · rintro state action next calls ⟨m, s, tag, addresses, rfl, h, rfl⟩ hok hstep
    obtain ⟨later, t, tag', after, rfl, ht, hpool, -⟩ := h.step (hok m rfl) hstep
    exact ⟨later, t, tag', after, rfl, ht, (h.refines.started_eq hpool).symm⟩
  · exact ⟨_, _, _, _, rfl, .init jobs, rfl⟩

/-- The whole program at the level of its statements, for every number of workers and every list
of jobs: in every order of the threads it comes to the return of `tpool_destroy`, and there is
always a thread that can go on; and when it has returned, each job has been called
exactly once, every node is freed, the lock is free and every worker has exited. -/
theorem programMachine_completes (hn : 1 ≤ n) (jobs : List (F × A)) :
    (programMachine n jobs).Completes Proceeds (fun state => ∃ m, state = some m ∧ m.Finished)
        (some (Machine.init n fun _ => program jobs)) ∧
      ∀ actions m, (programMachine n jobs).Meets HasMemory
          (some (Machine.init n fun _ => program jobs)) actions →
        (programMachine n jobs).run (some (Machine.init n fun _ => program jobs)) actions =
          some (some m) → m.Finished →
        ((programMachine n jobs).trace callsOf (some (Machine.init n fun _ => program jobs))
            actions).Perm jobs ∧
          (∀ p, m.heap p = none) ∧ m.queueLock = none ∧ ∀ w, m.workers w = .exited := by
  constructor
  · obtain ⟨rank, hstart⟩ : ∃ rank, Ranked jobs
        (some (Machine.init n fun _ => program jobs)) rank :=
      ⟨_, _, _, _, _, rfl, .init jobs, rfl⟩
    exact TransitionSystem.attains_of_rank (Ranked jobs)
      (fun state rank hranked hrunning => hranked.enabled hn hrunning)
      (fun state rank action next hranked _ hok hstep => .inr (hranked.step hok hstep)) hstart
  · intro actions m hmemory hrun hfinished
    obtain ⟨m', s, tag, addresses, hm, ⟨h, hreach, -, -⟩, hcalls⟩ :=
      callsOf_eq_started hmemory hrun
    obtain rfl : m = m' := Option.some.inj hm
    have hpc : (m.clients 0).pc = .idle := hfinished.1
    have hidle : (s.clients 0).place = .idle := by
      simpa [hpc, ClientPc.Matches] using h.client_place 0
    have hscript : (s.clients 0).script = [] := (h.client_script 0).symm.trans hfinished.2
    obtain ⟨hbooks, -, hstage, -⟩ := reachable_progressing hreach
    obtain ⟨hjobs, -, hqueue, hexited⟩ := hstage.returned ⟨hidle, hscript⟩
    refine ⟨?_, h.finished hqueue hexited hfinished⟩
    rw [hcalls, ← hjobs]
    refine List.Perm.map _ ((List.perm_ext_iff_of_nodup hbooks.ledger.started_nodup
      hbooks.allocated.nodup).mpr fun task => ?_)
    exact (hbooks.ledger.finished_of_exited hexited hqueue task).2

namespace OneTask

def jobs : List (Unit × Unit) := [((), ())]

def start : Option (Machine Unit Unit 1 1) := some (Machine.init 1 fun _ => program jobs)

/-- The client adds the job, the worker does it, and the client waits and destroys the pool. -/
def actions : List (MachineAction 1 1) :=
  [MachineAction.create, .malloc sole (some 5)] ++ List.replicate 5 (MachineAction.client sole) ++
    List.replicate 11 (MachineAction.worker sole) ++
    [MachineAction.signal sole none, .worker sole] ++
    List.replicate 9 (MachineAction.client sole) ++
    List.replicate 5 (MachineAction.worker sole) ++ List.replicate 4 (MachineAction.client sole)

def state : Option (Machine Unit Unit 1 1) :=
  ((programMachine 1 jobs).run start actions).getD none

def last : Machine Unit Unit 1 1 := state.getD (Machine.init 1 fun _ => program jobs)

theorem run : (programMachine 1 jobs).run start actions = some (some last) := rfl

theorem meets : (programMachine 1 jobs).Meets HasMemory start actions :=
  (careful_of_run run).imp (fun _ _ _ (_ : True) _ _ => trivial) (fun _ _ _ hok => hok.1) trivial

end OneTask

/-- One worker and one job, with a run that has come to the return of `tpool_destroy`. -/
theorem programMachine_completes_one_job :
    (programMachine 1 OneTask.jobs).Completes Proceeds
        (fun state => ∃ m, state = some m ∧ m.Finished) OneTask.start ∧
      (programMachine 1 OneTask.jobs).run OneTask.start OneTask.actions =
        some (some OneTask.last) ∧ OneTask.last.Finished ∧
      ((programMachine 1 OneTask.jobs).trace callsOf OneTask.start OneTask.actions).Perm
        OneTask.jobs ∧ ∀ p, OneTask.last.heap p = none := by
  obtain ⟨hcompletes, hlast⟩ := programMachine_completes (Nat.le_refl 1) OneTask.jobs
  have hfinished : OneTask.last.Finished := ⟨rfl, rfl⟩
  obtain ⟨hcalls, hheap, -⟩ :=
    hlast OneTask.actions OneTask.last OneTask.meets OneTask.run hfinished
  exact ⟨hcompletes, OneTask.run, hfinished, hcalls, hheap⟩

end ThreadPool

end SystemsProgramming
