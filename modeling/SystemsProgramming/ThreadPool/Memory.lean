/-
What the executions of `my_pool.c` do with the memory.  A run crashes exactly when `malloc`
fails in it or a client uses the pool that has been freed, the runs that do not are runs of the
pool, and each node that is allocated has one holder or was left in the queue at `free(pool)`.
-/
import SystemsProgramming.ThreadPool.Execution
import SystemsProgramming.ThreadPool.Joining

namespace SystemsProgramming

namespace ThreadPool

variable {F A : Type} {n k : Nat}

/-- The step is a `malloc` of `tpool_add` that returns a null pointer. -/
def Machine.mallocFails (m : Machine F A n k) : MachineAction n k → Bool
  | .malloc c none =>
      decide (m.created = n) &&
        match (m.clients c).pc, (m.clients c).script with
        | .idle, .add _ _ :: _ => true
        | _, _ => false
  | _ => false

/-- The step is the statement of a client that uses the pool behind `free(pool)`. -/
def Machine.clientUsesFreed (m : Machine F A n k) : MachineAction n k → Bool
  | .client c => m.freed && (m.clients c).pc.usesPool
  | _ => false

/-- The program does not run out of memory in this step. -/
def HasMemory (state : Option (Machine F A n k)) (action : MachineAction n k) : Prop :=
  ∀ m ∈ state, m.mallocFails action = false

/-- Nor does a client use the pool that has been freed. -/
def Careful (state : Option (Machine F A n k)) (action : MachineAction n k) : Prop :=
  HasMemory state action ∧ ∀ m ∈ state, m.clientUsesFreed action = false

section Step

variable {tag : Nat → Option (Task F A)} {addresses : List Nat} {m : Machine F A n k}
  {s : State F A n k}

theorem signalEmpty_simulated (scripts : Fin k → List (Call F A))
    (h : Refines tag addresses m s) {w : Fin n} (hpc : m.workers w = .signals)
    (woken : Option (Fin k)) :
    Simulated scripts m s addresses [.report w woken] (m.signalEmpty w woken) := by
  have hin : (m.workers w).inside = true := by rw [hpc]; rfl
  have hran : s.workers w = .ran := by simpa [hpc, WorkerPc.Matches] using h.worker_place w
  have hknows : m.taskQueue = none := by simpa [hpc, WorkerPc.Knows] using h.worker_knows w
  have hqueue : s.taskQueue = [] := (h.worker_queue_nil_iff hin).mpr hknows
  have hasleep : ∀ c, (m.clients c).pc = .asleep ↔ (s.clients c).place.isAsleep = true := by
    intro c
    have hplace := h.client_place c
    cases hc : (m.clients c).pc <;> simp_all [ClientPc.Matches, ClientAt.isAsleep] <;> grind
  have hleaves : Refines tag addresses (m.setWorker w .leaves) (s.setWorker w .top) :=
    h.workerStays hpc .leaves rfl rfl ⟨rfl, rfl, rfl, rfl, rfl⟩ (fun v hv => by simp [hv]) rfl
      (by simp [WorkerPc.Matches]) trivial
  cases woken with
  | none =>
      simp only [Machine.signalEmpty]
      split
      · next hnone =>
          refine .commit tag addresses (t := s.setWorker w .top) ?_ hleaves
          have hquiet : ∀ c, (s.clients c).place.isAsleep = false := by
            intro c
            have := (hasleep c).not.mp (hnone c)
            simpa using this
          simp [State.step, State.workerReport, hran, hqueue, State.signalEmpty, hquiet]
      · trivial
  | some c =>
      simp only [Machine.signalEmpty]
      split
      · next hc =>
          have hsleeps := (hasleep c).mp hc
          obtain ⟨before, hbefore⟩ := ClientAt.isAsleep_iff.mp hsleeps
          refine .commit tag addresses (t := (s.setWorker w .top).setClient c
            { s.clients c with place := .woken before }) ?_ ?_
          · simp [State.step, State.workerReport, hran, hqueue, State.signalEmpty, hbefore,
              ClientAt.isAsleep, ClientAt.wake]
          · exact hleaves.clientStays hc { m.clients c with pc := .woken } rfl rfl rfl rfl
              ⟨rfl, rfl, rfl, rfl, rfl⟩ rfl (fun d hd => by simp [hd]) ⟨before, by simp⟩
              (by simpa using h.client_script c) trivial
      · trivial

theorem malloc_simulated (scripts : Fin k → List (Call F A)) (h : Refines tag addresses m s)
    {c : Fin k} {address : Option Nat} (hmemory : m.mallocFails (.malloc c address) = false) :
    Simulated scripts m s addresses [.client c] (m.execute (.malloc c address)) := by
  simp only [Machine.execute]
  split
  · next func arg rest hpc hscript =>
      split
      · next hcreated =>
          cases address with
          | none => simp [Machine.mallocFails, hcreated, hpc, hscript] at hmemory
          | some p =>
              simp only [Machine.tpoolAdd]
              split
              · next hfree =>
                  have hplace : (s.clients c).place = .idle := by
                    simpa [hpc, ClientPc.Matches] using h.client_place c
                  refine .commit _ addresses ?_ (h.alloc hpc hfree)
                  rw [step_client (h.created.symm.trans hcreated)]
                  simp [State.clientStep, State.clientCall, hplace, ← h.client_script c, hscript]
              · trivial
      · trivial
  · trivial

/-- Every statement, with memory to be had. -/
theorem execute_simulated (scripts : Fin k → List (Call F A)) (h : Refines tag addresses m s)
    (hbooks : Books s) {a : MachineAction n k} (hmemory : m.mallocFails a = false) :
    Simulated scripts m s addresses (commits m a) (m.execute a) := by
  cases a with
  | create =>
      simp only [Machine.execute]
      split
      · next hn =>
          refine .commit tag addresses ?_ (h.create hbooks hn)
          simp [State.step, h.created ▸ hn]
      · trivial
  | worker w => exact workerStep_simulated scripts h hbooks w
  | signal w woken =>
      simp only [Machine.execute]
      split
      · next hpc => exact signalEmpty_simulated scripts h hpc woken
      · trivial
  | malloc c address => exact malloc_simulated scripts h hmemory
  | client c =>
      simp only [Machine.execute]
      split
      · next hcreated => exact clientStep_simulated scripts h hbooks hcreated c
      · trivial
  | spuriousWorker w =>
      simp only [Machine.execute]
      split
      · next hpc =>
          have hplace : s.workers w = .asleep := by
            simpa [hpc, WorkerPc.Matches] using h.worker_place w
          refine .commit tag addresses (t := s.setWorker w .woken) ?_ ?_
          · simp [State.step, hplace]
          · exact h.workerStays hpc .woken rfl rfl ⟨rfl, rfl, rfl, rfl, rfl⟩
              (fun v hv => by simp [hv]) rfl (by simp [WorkerPc.Matches]) trivial
      · trivial
  | spuriousClient c =>
      simp only [Machine.execute]
      split
      · next hpc =>
          obtain ⟨before, hplace⟩ : ∃ before, (s.clients c).place = .asleep before := by
            simpa [hpc, ClientPc.Matches] using h.client_place c
          refine .commit tag addresses
            (t := s.setClient c { s.clients c with place := .woken before }) ?_ ?_
          · simp [State.step, hplace, ClientAt.isAsleep, ClientAt.wake]
          · exact h.clientStays hpc { m.clients c with pc := .woken } rfl rfl rfl rfl
              ⟨rfl, rfl, rfl, rfl, rfl⟩ rfl (fun d hd => by simp [hd]) ⟨before, by simp⟩
              (by simpa using h.client_script c) trivial
      · trivial

/-- Every step that does not use the pool behind `free(pool)`. -/
theorem step_simulated (scripts : Fin k → List (Call F A)) (h : Refines tag addresses m s)
    (hbooks : Books s) {a : MachineAction n k} (hmemory : m.mallocFails a = false)
    (hpool : m.usesFreed a = false) :
    Simulated scripts m s addresses (commits m a) (m.step a) := by
  rw [Machine.step_of_pool hpool]
  exact execute_simulated scripts h hbooks hmemory

theorem WorkerPc.Matches.eq_exited {pc : WorkerPc F A} (hpc : pc.Matches tag .exited) :
    pc = .exited := by
  cases pc <;> simp_all [WorkerPc.Matches]

/-- No worker uses the pool behind `free(pool)`, because they have all been joined. -/
theorem Refines.usesFreed_eq (h : Refines tag addresses m s) (hjoined : Joined s)
    (a : MachineAction n k) : m.usesFreed a = m.clientUsesFreed a := by
  have hworker : ∀ w, (m.freed && (m.workers w).usesPool) = false := by
    intro w
    cases hfreed : m.freed with
    | false => rfl
    | true =>
        have hexited := hjoined.freed (h.freed.symm.trans hfreed) w
        have hpc : m.workers w = .exited := (hexited ▸ h.worker_place w).eq_exited
        rw [hpc]
        rfl
  cases a with
  | worker w | signal w => exact hworker w
  | _ => rfl

end Step

/-- The program has not crashed, and carries out the pool. -/
def CarriesOut (state : Option (Machine F A n k)) (s : State F A n k) : Prop :=
  ∃ m tag addresses, state = some m ∧ Refines tag addresses m s

/-- The labels of the pool that a step of the program commits. -/
def commitsOf (state : Option (Machine F A n k)) (action : MachineAction n k) :
    List (Action n k) :=
  match state with
  | none => []
  | some m => commits m action

theorem refines_init (scripts : Fin k → List (Call F A)) :
    Refines (fun _ => none) [] (Machine.init n scripts) (State.init n scripts) where
  created := rfl
  freed := rfl
  stop := rfl
  chain := .nil
  queue := rfl
  tagged _ := rfl
  lock t := by cases t <;> simp [Machine.init, WorkerPc.inside, ClientPc.inside]
  worker_place _ := rfl
  worker_node w p hp := by simp [Machine.init, WorkerPc.node] at hp
  worker_knows _ := trivial
  client_place _ := rfl
  client_script _ := rfl
  client_node c p hp := by simp [Machine.init, ClientPc.node, ClientPc.newTask] at hp
  client_knows _ := trivial
  owned p hp := by simp [Machine.init] at hp

theorem carriesOut_init (scripts : Fin k → List (Call F A)) :
    CarriesOut (some (Machine.init n scripts)) (State.init n scripts) :=
  ⟨_, _, _, rfl, refines_init scripts⟩

section Run

variable {scripts : Fin k → List (Call F A)}

theorem carriesOut_step {state next : Option (Machine F A n k)} {action : MachineAction n k}
    {s : State F A n k} (hcarries : CarriesOut state s) (hreach : (pool n scripts).Reachable s)
    (hcareful : Careful state action)
    (hstep : (machine n scripts).step state action = some next) :
    ∃ later, (pool n scripts).run s (commitsOf state action) = some later ∧
      CarriesOut next later := by
  obtain ⟨m, tag, addresses, rfl, h⟩ := hcarries
  have hpool := (h.usesFreed_eq (reachable_joined hreach) action).trans (hcareful.2 m rfl)
  have hsim := step_simulated scripts h (reachable_books hreach) (hcareful.1 m rfl) hpool
  simp only [machine, Option.bind_some] at hstep
  cases heffect : m.step action with
  | blocked => simp [heffect, Effect.outcome] at hstep
  | faults =>
      rw [heffect] at hsim
      exact hsim.elim
  | moves later =>
      rw [heffect] at hsim hstep
      obtain rfl : some later = next := by simpa [Effect.outcome] using hstep
      obtain ⟨t, hrun, tag', after, ht, -⟩ := hsim
      exact ⟨t, hrun, later, tag', after, rfl, ht⟩

/-- A state of the program that has not crashed, with what the pool knows about it. -/
def Carried (scripts : Fin k → List (Call F A)) (state : Option (Machine F A n k)) : Prop :=
  ∃ s, (pool n scripts).Reachable s ∧ CarriesOut state s

theorem carried_init : Carried scripts (some (Machine.init n scripts)) :=
  ⟨_, .start rfl, carriesOut_init scripts⟩

theorem Carried.step {state next : Option (Machine F A n k)} {action : MachineAction n k}
    (hcarried : Carried scripts state) (hcareful : Careful state action)
    (hstep : (machine n scripts).step state action = some next) : Carried scripts next := by
  obtain ⟨s, hreach, hcarries⟩ := hcarried
  obtain ⟨t, hrun, ht⟩ := carriesOut_step hcarries hreach hcareful hstep
  exact ⟨t, hreach.run _ hrun, ht⟩

/-- A `malloc` that fails is a crash, because nobody tests what it returns. -/
theorem crash_of_mallocFails {m : Machine F A n k} {action : MachineAction n k}
    (hfails : m.mallocFails action = true) :
    (machine n scripts).step (some m) action = some none := by
  cases action with
  | malloc c address =>
      cases address with
      | some p => simp [Machine.mallocFails] at hfails
      | none =>
          simp only [Machine.mallocFails, Bool.and_eq_true, decide_eq_true_eq] at hfails
          obtain ⟨hcreated, hentry⟩ := hfails
          split at hentry
          · next func arg rest hpc hscript =>
              have hpool : m.usesFreed (.malloc c none) = false := rfl
              simp [machine, Machine.step_of_pool hpool, Machine.execute, hpc, hscript, hcreated,
                Machine.tpoolAdd, Effect.outcome]
          · simp at hentry
  | _ => simp [Machine.mallocFails] at hfails

theorem crash_of_usesFreed {m : Machine F A n k} {action : MachineAction n k}
    (huses : m.usesFreed action = true) :
    (machine n scripts).step (some m) action = some none := by
  simp [machine, Machine.step, huses, Effect.outcome]

/-- A step that is not careful crashes. -/
theorem Carried.crash {state : Option (Machine F A n k)} {action : MachineAction n k}
    (hcarried : Carried scripts state) (hnot : ¬ Careful state action) :
    (machine n scripts).step state action = some none := by
  obtain ⟨s, hreach, m, tag, addresses, rfl, h⟩ := hcarried
  by_cases hfails : m.mallocFails action = true
  · exact crash_of_mallocFails hfails
  · apply crash_of_usesFreed
    rw [h.usesFreed_eq (reachable_joined hreach) action]
    simpa [Careful, HasMemory, hfails] using hnot

/-- A run that has not crashed was careful. -/
theorem careful_of_run {actions : List (MachineAction n k)} {m : Machine F A n k}
    (hrun : (machine n scripts).run (some (Machine.init n scripts)) actions = some (some m)) :
    (machine n scripts).Meets Careful (some (Machine.init n scripts)) actions := by
  refine TransitionSystem.meets_of_run (P := fun state => state ≠ none)
    (fun state action next (hcarried : Carried scripts state) => hcarried.step) ?_ ?_ carried_init
    hrun (by simp)
  · intro state action next hcarried hnot hstep
    rw [hcarried.crash hnot] at hstep
    simpa using hstep.symm
  · intro state action next hcrashed hstep
    obtain rfl : state = none := by simpa using hcrashed
    simp [machine] at hstep

/-- Statement by statement, with any number of workers and clients, whatever the clients call
and in every order of the threads, the program dereferences no null pointer and no node
that is not allocated, frees no node twice, never runs off the end of the queue and uses no pool
that has been freed, as long as `malloc` succeeds and no client goes on with the pool behind
`free(pool)`; otherwise it crashes. -/
theorem along_running_iff_careful (scripts : Fin k → List (Call F A))
    (actions : List (MachineAction n k)) :
    (machine n scripts).Along (fun state => state ≠ none) (some (Machine.init n scripts)) actions ↔
      (machine n scripts).Meets Careful (some (Machine.init n scripts)) actions := by
  refine TransitionSystem.along_iff_meets (fun state (hcarried : Carried scripts state) => ?_)
    (fun state action next hcarried (_ : True) hcareful hstep => hcarried.step hcareful hstep)
    (fun state action hcarried _ hnot => ⟨none, hcarried.crash hnot, by simp⟩) carried_init actions
    (TransitionSystem.meets_true _ _)
  obtain ⟨s, -, m, tag, addresses, rfl, -⟩ := hcarried
  simp

/-- Every run of the program that has not crashed is a run of the pool: of the labels that its
statements commit, in their order. -/
theorem machine_refines_pool (scripts : Fin k → List (Call F A))
    {actions : List (MachineAction n k)} {m : Machine F A n k}
    (hrun : (machine n scripts).run (some (Machine.init n scripts)) actions = some (some m)) :
    ∃ s, (pool n scripts).run (State.init n scripts) ((machine n scripts).trace commitsOf
        (some (Machine.init n scripts)) actions) = some s ∧ CarriesOut (some m) s := by
  obtain ⟨s, hpool, -, hcarries⟩ := TransitionSystem.refines_run (N := pool n scripts) commitsOf
    (fun state s => (pool n scripts).Reachable s ∧ CarriesOut state s)
    (fun state action next s hrelated hok hstep => by
      obtain ⟨t, ht, hnext⟩ := carriesOut_step hrelated.2 hrelated.1 hok hstep
      exact ⟨t, ht, hrelated.1.run _ ht, hnext⟩)
    ⟨.start rfl, carriesOut_init scripts⟩ (careful_of_run hrun) hrun
  exact ⟨s, hpool, hcarries⟩

end Run

/-- Who answers for a node: the queue of the pool, the worker that has taken it out, or the
client that has filled it in. -/
inductive Holder (n k : Nat) where
  | queue
  | worker (w : Fin n)
  | client (c : Fin k)
deriving Repr, DecidableEq

def Machine.Holds (m : Machine F A n k) (addresses : List Nat) (p : Nat) : Holder n k → Prop
  | .queue => m.freed = false ∧ p ∈ addresses
  | .worker w => (m.workers w).node = some p
  | .client c => (m.clients c).pc.node = some p

namespace Reuse

def scripts : Fin 1 → List (Call Unit Nat) := fun _ => [.add () 7, .add () 8]

/-- The worker frees the node of the first task, and the second one gets its address. -/
def actions : List (MachineAction 1 1) :=
  [MachineAction.create, .malloc sole (some 5)] ++ List.replicate 5 (MachineAction.client sole) ++
    List.replicate 9 (MachineAction.worker sole) ++ [MachineAction.malloc sole (some 5)]

def state : Option (Machine Unit Nat 1 1) :=
  ((machine 1 scripts).run (some (Machine.init 1 scripts)) actions).getD none

def last : Machine Unit Nat 1 1 := state.getD (Machine.init 1 scripts)

theorem run : (machine 1 scripts).run (some (Machine.init 1 scripts)) actions = some (some last) :=
  rfl

end Reuse

theorem machine_refines_pool_reuse :
    (machine 1 Reuse.scripts).trace commitsOf (some (Machine.init 1 Reuse.scripts))
        Reuse.actions =
          [.create, .client 0, .client 0, .worker 0, .worker 0, .worker 0, .client 0] ∧
      ∃ s, CarriesOut (some Reuse.last) s := by
  obtain ⟨s, -, hcarries⟩ := machine_refines_pool Reuse.scripts Reuse.run
  exact ⟨by decide, s, hcarries⟩

namespace LeftBehind

def scripts : Fin 1 → List (Call Unit Nat) := fun _ => [.add () 7, .destroy]

/-- The worker does not come to the task before it sees `stop`. -/
def actions : List (MachineAction 1 1) :=
  [MachineAction.create, .malloc sole (some 5)] ++ List.replicate 10 (MachineAction.client sole) ++
    List.replicate 5 (MachineAction.worker sole) ++ List.replicate 3 (MachineAction.client sole)

def state : Option (Machine Unit Nat 1 1) :=
  ((machine 1 scripts).run (some (Machine.init 1 scripts)) actions).getD none

def last : Machine Unit Nat 1 1 := state.getD (Machine.init 1 scripts)

theorem run : (machine 1 scripts).run (some (Machine.init 1 scripts)) actions = some (some last) :=
  rfl

end LeftBehind

end ThreadPool

end SystemsProgramming
