/-
The thread pool of `my_pool.c`.  Each critical section under `queue_lock` is one
step, the call of a task is a start step and a finish step, and every label names
the thread that moves.
-/
import SystemsProgramming.Runs
import Mathlib

namespace SystemsProgramming

namespace ThreadPool

/-- The only thread of its kind. -/
def sole : Fin 1 := 0

@[simp] theorem sole_eq : sole = 0 := rfl

/-- The first and the second of two threads. -/
def left : Fin 2 := sole.castSucc

def right : Fin 2 := Fin.last 1

/-- A `tpool_task`; `node` is its address, and `next` is the order of the list it
stands in. -/
structure Task (F A : Type) where
  node : Nat
  func : F
  arg : A
deriving Repr, DecidableEq

/-- Where a worker is in `tpool_worker`. -/
inductive WorkerAt (F A : Type) where
  /-- `pthread_create` has not run for this worker. -/
  | unborn
  /-- About to take `queue_lock` at the top of the loop. -/
  | top
  /-- In `pthread_cond_wait` on `queue_not_empty`. -/
  | asleep
  /-- Woken up, but `queue_lock` is not taken again yet. -/
  | woken
  /-- Has seen `stop`, before `pthread_exit`. -/
  | stopping
  | exited
  /-- Has removed the task from `task_queue`, before the call of `func`. -/
  | holds (task : Task F A)
  /-- Inside `func`. -/
  | runs (task : Task F A)
  /-- `func` has returned, before `queue_lock` is taken again. -/
  | ran
deriving Repr, DecidableEq

/-- Where a client is.  A call of `tpool_wait` remembers the tasks whose
`tpool_add` had returned when it was called. -/
inductive ClientAt (F A : Type) where
  | idle
  /-- In `tpool_add`, the node is filled in and not linked. -/
  | links (task : Task F A)
  | waits (before : List (Task F A))
  /-- In `pthread_cond_wait` on `queue_empty`. -/
  | asleep (before : List (Task F A))
  | woken (before : List (Task F A))
  /-- In `tpool_destroy`, before `stop` is set. -/
  | stops
  /-- At `pthread_join` for the worker with this index. -/
  | joins (i : Nat)
  /-- At `free(pool->threads)` and `free(pool)`. -/
  | frees
  /-- At the three destroy calls after `free(pool)`. -/
  | destroys
deriving Repr, DecidableEq

/-- The calls a client makes on the pool. -/
inductive Call (F A : Type) where
  | add (func : F) (arg : A)
  | wait
  | destroy
deriving Repr, DecidableEq

structure Client (F A : Type) where
  place : ClientAt F A
  script : List (Call F A)
deriving Repr, DecidableEq

variable {F A : Type}

/-- The task a worker has taken out of `task_queue` and not finished. -/
def WorkerAt.inHand : WorkerAt F A → Option (Task F A)
  | holds task => some task
  | runs task => some task
  | _ => none

/-- The task whose `func` a worker is inside. -/
def WorkerAt.inFunc : WorkerAt F A → Option (Task F A)
  | runs task => some task
  | _ => none

/-- Between the removal of a task and the check of the queue after it. -/
def WorkerAt.isBusy : WorkerAt F A → Bool
  | holds _ | runs _ | ran => true
  | _ => false

/-- A broadcast or a spurious wake-up moves a sleeping worker only. -/
def WorkerAt.wake : WorkerAt F A → WorkerAt F A
  | asleep => woken
  | other => other

def ClientAt.wake : ClientAt F A → ClientAt F A
  | asleep before => woken before
  | other => other

def ClientAt.isAsleep : ClientAt F A → Bool
  | asleep _ => true
  | _ => false

/-- The pool with `n` workers and `k` clients.  `created` counts the iterations
of the loop in `tpool_init`; `nodes` counts the allocated tasks.  The four last
lists are logs that no step reads. -/
structure State (F A : Type) (n k : Nat) where
  taskQueue : List (Task F A)
  stop : Bool
  created : Nat
  freed : Bool
  nodes : Nat
  workers : Fin n → WorkerAt F A
  clients : Fin k → Client F A
  linked : List (Task F A)
  removed : List (Fin n × Task F A)
  started : List (Task F A)
  finished : List (Task F A)

/-- Who moves.  `report` is the check of the queue after a task; it names the
client that `pthread_cond_signal` wakes up. -/
inductive Action (n k : Nat) where
  | create
  | worker (w : Fin n)
  | report (w : Fin n) (woken : Option (Fin k))
  | client (c : Fin k)
  | spuriousWorker (w : Fin n)
  | spuriousClient (c : Fin k)
deriving Repr, DecidableEq

def Action.isSpurious {n k : Nat} : Action n k → Bool
  | spuriousWorker _ | spuriousClient _ => true
  | _ => false

/-- The walk `while (curr->next != NULL)` from a node with the list `rest` behind
it, and the link of `task` at its end. -/
def linkTail (curr : Task F A) (task : Task F A) : List (Task F A) → List (Task F A)
  | [] => [curr, task]
  | next :: rest => curr :: linkTail next task rest

@[simp] theorem linkTail_eq_append (curr task : Task F A) (rest : List (Task F A)) :
    linkTail curr task rest = curr :: rest ++ [task] := by
  induction rest generalizing curr with
  | nil => rfl
  | cons next rest ih => simp [linkTail, ih]

namespace State

variable {n k : Nat}

@[simps taskQueue stop created freed nodes clients linked removed started finished]
def setWorker (s : State F A n k) (w : Fin n) (p : WorkerAt F A) : State F A n k :=
  { s with workers := Function.update s.workers w p }

@[simps taskQueue stop created freed nodes workers linked removed started finished]
def setClient (s : State F A n k) (c : Fin k) (client : Client F A) : State F A n k :=
  { s with clients := Function.update s.clients c client }

/-- `pthread_cond_broadcast(&pool->queue_not_empty)`. -/
def broadcastNotEmpty (s : State F A n k) : State F A n k :=
  { s with workers := fun w => (s.workers w).wake }

/-- `pthread_cond_signal(&pool->queue_empty)`: one sleeping client is woken up if
there is any. -/
def signalEmpty (s : State F A n k) : Option (Fin k) → Option (State F A n k)
  | none => if ∀ c, (s.clients c).place.isAsleep = false then some s else none
  | some c =>
      if (s.clients c).place.isAsleep then
        some (s.setClient c { s.clients c with place := (s.clients c).place.wake })
      else none

/-- The critical section of `tpool_add`. -/
def tpoolAdd (s : State F A n k) (task : Task F A) : State F A n k :=
  match s.taskQueue with
  | [] => { s with taskQueue := [task], linked := s.linked ++ [task] }.broadcastNotEmpty
  | curr :: rest =>
      { s with taskQueue := linkTail curr task rest, linked := s.linked ++ [task] }

/-- From the lock at the top of `tpool_worker` to the sleep, the exit or the
removal of a task. -/
def workerTest (s : State F A n k) (w : Fin n) : State F A n k :=
  match s.stop, s.taskQueue with
  | true, _ => s.setWorker w .stopping
  | false, [] => s.setWorker w .asleep
  | false, task :: rest =>
      { s with taskQueue := rest, removed := s.removed ++ [(w, task)] }.setWorker w (.holds task)

/-- The second critical section of `tpool_worker`. -/
def workerReport (s : State F A n k) (w : Fin n) (woken : Option (Fin k)) :
    Option (State F A n k) :=
  if s.taskQueue = [] then (s.setWorker w .top).signalEmpty woken
  else if woken = none then some (s.setWorker w .top) else none

/-- The part of `tpool_worker` outside the second critical section. -/
def workerStep (s : State F A n k) (w : Fin n) : Option (State F A n k) :=
  match s.workers w with
  | .top | .woken => some (s.workerTest w)
  | .stopping => some (s.setWorker w .exited)
  | .holds task => some ({ s with started := s.started ++ [task] }.setWorker w (.runs task))
  | .runs task => some ({ s with finished := s.finished ++ [task] }.setWorker w .ran)
  | .unborn | .asleep | .exited | .ran => none

/-- The critical section of `tpool_wait`: sleep while the queue is not empty. -/
def tpoolWait (s : State F A n k) (c : Fin k) (before : List (Task F A)) : State F A n k :=
  if s.taskQueue ≠ [] then s.setClient c { s.clients c with place := .asleep before }
  else s.setClient c { s.clients c with place := .idle }

/-- The entry of the next call of a client's script. -/
def clientCall (s : State F A n k) (c : Fin k) : Option (State F A n k) :=
  match (s.clients c).script with
  | [] => none
  | .add func arg :: rest =>
      some ({ s with nodes := s.nodes + 1 }.setClient c ⟨.links ⟨s.nodes, func, arg⟩, rest⟩)
  | .wait :: rest => some (s.setClient c ⟨.waits s.linked, rest⟩)
  | .destroy :: rest => some (s.setClient c ⟨.stops, rest⟩)

/-- `pthread_join` for worker `i`, or the end of the join loop. -/
def joinStep (s : State F A n k) (c : Fin k) (i : Nat) : Option (State F A n k) :=
  if h : i < n then
    if (s.workers ⟨i, h⟩ matches .exited) then
      some (s.setClient c { s.clients c with place := .joins (i + 1) })
    else none
  else some (s.setClient c { s.clients c with place := .frees })

def clientStep (s : State F A n k) (c : Fin k) : Option (State F A n k) :=
  match (s.clients c).place with
  | .idle => s.clientCall c
  | .links task => some ((s.tpoolAdd task).setClient c { s.clients c with place := .idle })
  | .waits before | .woken before => some (s.tpoolWait c before)
  | .asleep _ => none
  | .stops =>
      some ({ s with stop := true }.broadcastNotEmpty.setClient c
        { s.clients c with place := .joins 0 })
  | .joins i => s.joinStep c i
  | .frees =>
      some ({ s with freed := true }.setClient c { s.clients c with place := .destroys })
  | .destroys => some (s.setClient c { s.clients c with place := .idle })

/-- One step of the pool.  Clients get the pool when `tpool_init` has returned. -/
def step (s : State F A n k) : Action n k → Option (State F A n k)
  | .create =>
      if h : s.created < n then
        some ({ s with created := s.created + 1 }.setWorker ⟨s.created, h⟩ .top)
      else none
  | .worker w => s.workerStep w
  | .report w woken =>
      match s.workers w with
      | .ran => s.workerReport w woken
      | _ => none
  | .client c => if s.created = n then s.clientStep c else none
  | .spuriousWorker w =>
      match s.workers w with
      | .asleep => some (s.setWorker w .woken)
      | _ => none
  | .spuriousClient c =>
      if (s.clients c).place.isAsleep then
        some (s.setClient c { s.clients c with place := (s.clients c).place.wake })
      else none

/-- The pool as `tpool_init` has filled it in, before the first
`pthread_create`. -/
def init (n : Nat) (scripts : Fin k → List (Call F A)) : State F A n k where
  taskQueue := []
  stop := false
  created := 0
  freed := false
  nodes := 0
  workers := fun _ => .unborn
  clients := fun c => ⟨.idle, scripts c⟩
  linked := []
  removed := []
  started := []
  finished := []

end State

/-- A pool of `n` workers used by `k` clients with the given scripts. -/
def pool (n : Nat) {k : Nat} (scripts : Fin k → List (Call F A)) :
    TransitionSystem (State F A n k) (Action n k) where
  start := fun s => s = State.init n scripts
  step := State.step

end ThreadPool

end SystemsProgramming
