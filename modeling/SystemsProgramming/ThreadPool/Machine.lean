/-
`my_pool.c` statement by statement.  The tasks are nodes in memory, `queue_lock` is a
mutex with an owner, and a step is one statement or one test of one thread, so that the
threads outside the critical sections overtake each other between any two of them.
-/
import SystemsProgramming.ThreadPool.Model
import SystemsProgramming.Chains
import SystemsProgramming.Refinement

namespace SystemsProgramming

namespace ThreadPool

/-- A `tpool_task` in memory. -/
structure TpoolTask (F A : Type) where
  func : F
  arg : A
  next : Option Nat
deriving Repr, DecidableEq

/-- The statement of `tpool_worker` that a worker is at, with its variable `task`. -/
inductive WorkerPc (F A : Type) where
  | unborn
  /-- At the first `pthread_mutex_lock`. -/
  | locks
  /-- At the test of the inner loop. -/
  | tests
  /-- At `pthread_cond_wait`. -/
  | sleeps
  | asleep
  | woken
  /-- At `if (pool->stop)`. -/
  | checks
  /-- At the unlock before `pthread_exit`. -/
  | quits
  | stopping
  | exited
  /-- At `task = pool->task_queue`. -/
  | loads
  /-- At `pool->task_queue = task->next`. -/
  | pops (task : Option Nat)
  | unlocks (task : Nat)
  /-- At `task->func(task->arg)`. -/
  | calls (task : Nat)
  | runs (task : Nat) (func : F) (arg : A)
  /-- At `free(task)`. -/
  | frees (task : Nat)
  /-- At the second `pthread_mutex_lock`. -/
  | relocks
  /-- At `if (pool->task_queue == NULL)`. -/
  | probes
  /-- At `pthread_cond_signal`. -/
  | signals
  /-- At the last unlock. -/
  | leaves
deriving Repr, DecidableEq

/-- The statement of a client's call, with the variables `new_task` and `curr`. -/
inductive ClientPc where
  | idle
  /-- In `tpool_add`, with the node filled in. -/
  | addLocks (task : Nat)
  /-- At `if (pool->task_queue == NULL)`. -/
  | addTests (task : Nat)
  /-- At `pool->task_queue = new_task`. -/
  | addFirst (task : Nat)
  | addBroadcasts (task : Nat)
  /-- At `curr = pool->task_queue`. -/
  | addLoads (task : Nat)
  /-- At `while (curr->next != NULL)`. -/
  | walks (task : Nat) (curr : Option Nat)
  /-- At `curr = curr->next`. -/
  | advances (task : Nat) (curr : Option Nat)
  /-- At `curr->next = new_task`. -/
  | links (task : Nat) (curr : Option Nat)
  /-- At the unlock of `tpool_add` or of `tpool_wait`. -/
  | unlocks
  | waitLocks
  /-- At the test of the loop in `tpool_wait`. -/
  | waitTests
  | waitSleeps
  | asleep
  | woken
  | stopLocks
  /-- At `pool->stop = 1`. -/
  | setsStop
  | stopBroadcasts
  | stopUnlocks
  | joins (i : Nat)
  | frees
  | destroys
deriving Repr, DecidableEq

structure MachineClient (F A : Type) where
  pc : ClientPc
  script : List (Call F A)
deriving Repr, DecidableEq

/-- Who can own `queue_lock`. -/
abbrev Thread (n k : Nat) := Fin n ⊕ Fin k

/-- The memory and the threads.  An address that is not in `heap` has no node. -/
structure Machine (F A : Type) (n k : Nat) where
  heap : Nat → Option (TpoolTask F A)
  taskQueue : Option Nat
  stop : Bool
  created : Nat
  freed : Bool
  queueLock : Option (Thread n k)
  workers : Fin n → WorkerPc F A
  clients : Fin k → MachineClient F A

/-- What a step of a thread does: it waits, it uses a null pointer, a node that is not
there or a pool that has been freed, or it goes on. -/
inductive Effect (S : Type) where
  | blocked
  | faults
  | moves (next : S)

/-- Who moves.  `malloc` is the beginning of `tpool_add` with the address it gets, and
`signal` names the client that `pthread_cond_signal` wakes up. -/
inductive MachineAction (n k : Nat) where
  | create
  | worker (w : Fin n)
  | signal (w : Fin n) (woken : Option (Fin k))
  | malloc (c : Fin k) (address : Option Nat)
  | client (c : Fin k)
  | spuriousWorker (w : Fin n)
  | spuriousClient (c : Fin k)
deriving Repr, DecidableEq

variable {F A : Type}

/-- Between the lock and the unlock, `pthread_cond_wait` apart. -/
def WorkerPc.inside : WorkerPc F A → Bool
  | tests | sleeps | checks | quits | loads | pops _ | unlocks _ | probes | signals | leaves => true
  | _ => false

def WorkerPc.wake : WorkerPc F A → WorkerPc F A
  | asleep => woken
  | other => other

/-- The statement reads or writes `*pool`. -/
def WorkerPc.usesPool : WorkerPc F A → Bool
  | unborn | asleep | stopping | exited | calls _ | runs _ _ _ | frees _ => false
  | _ => true

def ClientPc.inside : ClientPc → Bool
  | addTests _ | addFirst _ | addBroadcasts _ | addLoads _ | walks _ _ | advances _ _ |
    links _ _ | unlocks | waitTests | waitSleeps | setsStop | stopBroadcasts | stopUnlocks => true
  | _ => false

/-- The same for a client.  The three calls at `destroys` are left out: `tpool_destroy` makes
them on the pool that it has just freed. -/
def ClientPc.usesPool : ClientPc → Bool
  | idle | walks _ _ | advances _ _ | links _ _ | asleep | destroys => false
  | _ => true

def ClientPc.wake : ClientPc → ClientPc
  | asleep => woken
  | other => other

namespace Machine

variable {n k : Nat}

@[simps heap taskQueue stop created freed queueLock clients]
def setWorker (m : Machine F A n k) (w : Fin n) (pc : WorkerPc F A) : Machine F A n k :=
  { m with workers := Function.update m.workers w pc }

@[simps heap taskQueue stop created freed queueLock workers]
def setClient (m : Machine F A n k) (c : Fin k) (pc : ClientPc) : Machine F A n k :=
  { m with clients := Function.update m.clients c { m.clients c with pc := pc } }

/-- `pthread_mutex_lock(&pool->queue_lock)`; `next` is the machine after it. -/
def lock (m : Machine F A n k) (t : Thread n k) (next : Machine F A n k) :
    Effect (Machine F A n k) :=
  if m.queueLock = none then .moves { next with queueLock := some t } else .blocked

/-- `pthread_mutex_unlock(&pool->queue_lock)`, also in `pthread_cond_wait`. -/
@[simps]
def unlock (m : Machine F A n k) : Machine F A n k := { m with queueLock := none }

/-- The use of the node that a pointer points to. -/
def deref (m : Machine F A n k) (pointer : Option Nat)
    (use : Nat → TpoolTask F A → Machine F A n k) : Effect (Machine F A n k) :=
  match pointer with
  | none => .faults
  | some address =>
      match m.heap address with
      | none => .faults
      | some node => .moves (use address node)

/-- `pthread_cond_broadcast(&pool->queue_not_empty)`. -/
@[simps]
def broadcastNotEmpty (m : Machine F A n k) : Machine F A n k :=
  { m with workers := fun w => (m.workers w).wake }

/-- A store in memory; `none` is `free`. -/
@[simps taskQueue stop created freed queueLock workers clients]
def store (m : Machine F A n k) (address : Nat) (node : Option (TpoolTask F A)) :
    Machine F A n k :=
  { m with heap := Function.update m.heap address node }

/-- One statement of `tpool_worker`, the signal apart. -/
def workerStep (m : Machine F A n k) (w : Fin n) : Effect (Machine F A n k) :=
  match m.workers w with
  | .locks | .woken => m.lock (.inl w) (m.setWorker w .tests)
  | .tests =>
      if m.taskQueue = none ∧ m.stop = false then .moves (m.setWorker w .sleeps)
      else .moves (m.setWorker w .checks)
  | .sleeps => .moves (m.unlock.setWorker w .asleep)
  | .checks => if m.stop then .moves (m.setWorker w .quits) else .moves (m.setWorker w .loads)
  | .quits => .moves (m.unlock.setWorker w .stopping)
  | .stopping => .moves (m.setWorker w .exited)
  | .loads => .moves (m.setWorker w (.pops m.taskQueue))
  | .pops task => m.deref task fun address node =>
      { m with taskQueue := node.next }.setWorker w (.unlocks address)
  | .unlocks task => .moves (m.unlock.setWorker w (.calls task))
  | .calls task => m.deref (some task) fun _ node => m.setWorker w (.runs task node.func node.arg)
  | .runs task _ _ => .moves (m.setWorker w (.frees task))
  | .frees task => m.deref (some task) fun address _ =>
      (m.store address none).setWorker w .relocks
  | .relocks => m.lock (.inl w) (m.setWorker w .probes)
  | .probes =>
      if m.taskQueue = none then .moves (m.setWorker w .signals)
      else .moves (m.setWorker w .leaves)
  | .leaves => .moves (m.unlock.setWorker w .locks)
  | .unborn | .asleep | .exited | .signals => .blocked

/-- `pthread_cond_signal(&pool->queue_empty)`. -/
def signalEmpty (m : Machine F A n k) (w : Fin n) : Option (Fin k) → Effect (Machine F A n k)
  | none =>
      if ∀ c, (m.clients c).pc ≠ .asleep then .moves (m.setWorker w .leaves) else .blocked
  | some c =>
      if (m.clients c).pc = .asleep then .moves ((m.setWorker w .leaves).setClient c .woken)
      else .blocked

/-- `malloc` and the three assignments to the new node; `malloc` may fail. -/
def tpoolAdd (m : Machine F A n k) (c : Fin k) (func : F) (arg : A) (rest : List (Call F A)) :
    Option Nat → Effect (Machine F A n k)
  | none => .faults
  | some address =>
      if m.heap address = none then
        .moves { m.store address (some ⟨func, arg, none⟩) with
          clients := Function.update m.clients c ⟨.addLocks address, rest⟩ }
      else .blocked

/-- The entry of the next call of a client's script, `tpool_add` apart. -/
def clientCall (m : Machine F A n k) (c : Fin k) : Effect (Machine F A n k) :=
  match (m.clients c).script with
  | [] | .add _ _ :: _ => .blocked
  | .wait :: rest =>
      .moves { m with clients := Function.update m.clients c ⟨.waitLocks, rest⟩ }
  | .destroy :: rest =>
      .moves { m with clients := Function.update m.clients c ⟨.stopLocks, rest⟩ }

/-- `pthread_join` for worker `i`, or the end of the join loop. -/
def joinStep (m : Machine F A n k) (c : Fin k) (i : Nat) : Effect (Machine F A n k) :=
  if h : i < n then
    if (m.workers ⟨i, h⟩ matches .exited) then .moves (m.setClient c (.joins (i + 1)))
    else .blocked
  else .moves (m.setClient c .frees)

/-- One statement of a client's call. -/
def clientStep (m : Machine F A n k) (c : Fin k) : Effect (Machine F A n k) :=
  match (m.clients c).pc with
  | .idle => m.clientCall c
  | .addLocks task => m.lock (.inr c) (m.setClient c (.addTests task))
  | .addTests task =>
      if m.taskQueue = none then .moves (m.setClient c (.addFirst task))
      else .moves (m.setClient c (.addLoads task))
  | .addFirst task =>
      .moves ({ m with taskQueue := some task }.setClient c (.addBroadcasts task))
  | .addBroadcasts _ => .moves (m.broadcastNotEmpty.setClient c .unlocks)
  | .addLoads task => .moves (m.setClient c (.walks task m.taskQueue))
  | .walks task curr => m.deref curr fun _ node =>
      if node.next ≠ none then m.setClient c (.advances task curr)
      else m.setClient c (.links task curr)
  | .advances task curr => m.deref curr fun _ node => m.setClient c (.walks task node.next)
  | .links task curr => m.deref curr fun address node =>
      (m.store address (some { node with next := some task })).setClient c .unlocks
  | .unlocks => .moves (m.unlock.setClient c .idle)
  | .waitLocks | .woken => m.lock (.inr c) (m.setClient c .waitTests)
  | .waitTests =>
      if m.taskQueue ≠ none then .moves (m.setClient c .waitSleeps)
      else .moves (m.setClient c .unlocks)
  | .waitSleeps => .moves (m.unlock.setClient c .asleep)
  | .asleep => .blocked
  | .stopLocks => m.lock (.inr c) (m.setClient c .setsStop)
  | .setsStop => .moves ({ m with stop := true }.setClient c .stopBroadcasts)
  | .stopBroadcasts => .moves (m.broadcastNotEmpty.setClient c .stopUnlocks)
  | .stopUnlocks => .moves (m.unlock.setClient c (.joins 0))
  | .joins i => m.joinStep c i
  | .frees => .moves ({ m with freed := true }.setClient c .destroys)
  | .destroys => .moves (m.setClient c .idle)

/-- The statement of one thread.  Clients get the pool when `tpool_init` has returned. -/
def execute (m : Machine F A n k) : MachineAction n k → Effect (Machine F A n k)
  | .create =>
      if h : m.created < n then
        .moves ({ m with created := m.created + 1 }.setWorker ⟨m.created, h⟩ .locks)
      else .blocked
  | .worker w => m.workerStep w
  | .signal w woken =>
      match m.workers w with
      | .signals => m.signalEmpty w woken
      | _ => .blocked
  | .malloc c address =>
      match (m.clients c).pc, (m.clients c).script with
      | .idle, .add func arg :: rest =>
          if m.created = n then m.tpoolAdd c func arg rest address else .blocked
      | _, _ => .blocked
  | .client c => if m.created = n then m.clientStep c else .blocked
  | .spuriousWorker w =>
      match m.workers w with
      | .asleep => .moves (m.setWorker w .woken)
      | _ => .blocked
  | .spuriousClient c =>
      match (m.clients c).pc with
      | .asleep => .moves (m.setClient c .woken)
      | _ => .blocked

/-- The statement uses the pool behind `free(pool)`. -/
def usesFreed (m : Machine F A n k) : MachineAction n k → Bool
  | .worker w | .signal w _ => m.freed && (m.workers w).usesPool
  | .client c => m.freed && (m.clients c).pc.usesPool
  | .create | .malloc _ _ | .spuriousWorker _ | .spuriousClient _ => false

/-- One step.  What is in the pool behind `free(pool)` is not known. -/
def step (m : Machine F A n k) (action : MachineAction n k) : Effect (Machine F A n k) :=
  if m.usesFreed action then .faults else m.execute action

theorem step_of_pool {m : Machine F A n k} {action : MachineAction n k}
    (hpool : m.usesFreed action = false) : m.step action = m.execute action := by
  simp [step, hpool]

def init (n : Nat) (scripts : Fin k → List (Call F A)) : Machine F A n k where
  heap := fun _ => none
  taskQueue := none
  stop := false
  created := 0
  freed := false
  queueLock := none
  workers := fun _ => .unborn
  clients := fun c => ⟨.idle, scripts c⟩

end Machine

/-- What a step leaves behind: `none` is a program that has crashed. -/
def Effect.outcome {S : Type} : Effect S → Option (Option S)
  | blocked => none
  | faults => some none
  | moves next => some (some next)

/-- The program with `n` workers and `k` clients, as its threads execute it. -/
def machine (n : Nat) {k : Nat} (scripts : Fin k → List (Call F A)) :
    TransitionSystem (Option (Machine F A n k)) (MachineAction n k) where
  start := fun state => state = some (Machine.init n scripts)
  step := fun state action => state.bind fun m => (m.step action).outcome

/-- The steps of the pool that a statement completes: each critical section counts at the
statement that decides or publishes it. -/
def commits {n k : Nat} (m : Machine F A n k) : MachineAction n k → List (Action n k)
  | .create => [.create]
  | .worker w =>
      match m.workers w with
      | .sleeps | .quits | .stopping | .pops _ | .calls _ | .runs _ _ _ => [.worker w]
      | .probes => if m.taskQueue = none then [] else [.report w none]
      | _ => []
  | .signal w woken => [.report w woken]
  | .malloc c _ => [.client c]
  | .client c =>
      match (m.clients c).pc with
      | .idle | .addBroadcasts _ | .links _ _ | .waitSleeps | .stopBroadcasts | .joins _ | .frees |
        .destroys => [.client c]
      | .waitTests => if m.taskQueue = none then [.client c] else []
      | _ => []
  | .spuriousWorker w => [.spuriousWorker w]
  | .spuriousClient c => [.spuriousClient c]

end ThreadPool

end SystemsProgramming
