/-
The user-level threads of `threadtools.h`, `scheduler.c` and `threads.c`, with the
signal mask they run under.  A step goes from one place where the mask changes or
the scheduler is entered to the next.
-/
import SystemsProgramming.Runs
import SystemsProgramming.ArrayPrefix
import Mathlib.Tactic.Simps.Basic

namespace SystemsProgramming

namespace Scheduler

/-- `THREAD_MAX`. -/
def threadMax : Nat := 16

/-- The thread functions; `__func__` prints the name. -/
inductive Func where
  | fibonacci
  | factorial
  | bankOperation
deriving Repr, DecidableEq

/-- Where a `setjmp` has left a thread that loops. -/
inductive LoopPoint where
  | setup
  | yield
deriving Repr, DecidableEq

/-- Where a `setjmp` has left a `bank_operation`; it calls `thread_yield` twice. -/
inductive BankPoint where
  | setup
  | lock
  | firstYield
  | secondYield
deriving Repr, DecidableEq

/-- The `jmp_buf` of a thread, as the place that `longjmp` returns to. -/
inductive Environment where
  | fibonacci (point : LoopPoint)
  | factorial (point : LoopPoint)
  | bankOperation (point : BankPoint)
deriving Repr, DecidableEq

namespace Environment

def func : Environment → Func
  | fibonacci _ => .fibonacci
  | factorial _ => .factorial
  | bankOperation _ => .bankOperation

/-- Saved by `thread_yield`, whose last statement then runs on the return. -/
def isYield : Environment → Bool
  | fibonacci .yield | factorial .yield => true
  | bankOperation .firstYield | bankOperation .secondYield => true
  | _ => false

/-- Saved after the test of `lock_owner` in `lock()`, before `unlock()`. -/
def isPastTest : Environment → Bool
  | bankOperation .setup => false
  | bankOperation _ => true
  | _ => false

end Environment

/-- `struct tcb`. -/
structure Tcb where
  id : Int
  environment : Environment
  arg : Int
  i : Int
  x : Int
  y : Int
deriving Repr, DecidableEq

inductive Signal where
  | tstp
  | alrm
deriving Repr, DecidableEq

/-- The lines that the program prints. -/
inductive Line where
  | setup (id : Int) (func : Func)
  | value (id v : Int)
  | acquired (id : Int)
  | transfer (id pre post : Int)
  | released (id : Int)
  | caught (sig : Signal)
deriving Repr, DecidableEq

/-- The memory the threads share.  A `struct tcb` has an address, `none` in `tcbs` is
memory that is not allocated or has been freed, and `none` in a queue is `NULL`.
`exited` is a log of the calls of `thread_exit` that no step reads. -/
structure Threads where
  tcbs : Nat → Option Tcb
  readyQueue : Nat → Option Nat
  waitingQueue : Nat → Option Nat
  rqSize : Nat
  rqCurrent : Nat
  wqSize : Nat
  balance : Int
  lockOwner : Int
  output : List Line
  exited : List Nat

/-- Where control is. -/
inductive Control where
  /-- `setjmp(sched_buf)` has returned `rtv`. -/
  | scheduler (rtv : Nat)
  /-- At a `longjmp(RUNNING->environment, 1)` of `scheduler`. -/
  | resume
  /-- In the function of the running thread, behind its last resume point. -/
  | body
  /-- At the unblocking of `tstp_mask`, and then of `alrm_mask`, in `thread_yield`. -/
  | unblockTstp
  | unblockAlrm
  /-- At the `SIG_SETMASK` of `thread_yield`. -/
  | setMask
  | handler (sig : Signal)
  /-- At the `siglongjmp` of `sighandler`. -/
  | jump
  | returned
deriving Repr, DecidableEq

namespace Threads

/-- `RUNNING`. -/
def running (th : Threads) : Option Nat := th.readyQueue th.rqCurrent

/-- `*RUNNING`; `none` says that the pointer is `NULL` or dangling. -/
def runningTcb (th : Threads) : Option Tcb := th.running.bind th.tcbs

def print (th : Threads) (line : Line) : Threads :=
  { th with output := th.output ++ [line] }

def store (th : Threads) (p : Nat) (tcb : Tcb) : Threads :=
  { th with tcbs := Function.update th.tcbs p (some tcb) }

/-- `thread_setup`.  The addresses are numbered in the order of the `malloc` calls,
all of which come before the first removal from a queue. -/
def threadSetup (th : Threads) (func : Environment) (id arg : Int) : Threads :=
  { th with
    tcbs := Function.update th.tcbs th.rqSize (some ⟨id, func, arg, 0, 0, 0⟩)
    readyQueue := Function.update th.readyQueue th.rqSize (some th.rqSize)
    rqSize := th.rqSize + 1
    output := th.output ++ [.setup id func.func] }

/-- Step 2 of `scheduler`: the lock is handed to the first waiting thread. -/
def promote (th : Threads) : Option Threads :=
  if th.lockOwner = -1 ∧ 0 < th.wqSize then
    ((th.waitingQueue 0).bind th.tcbs).map fun tcb =>
      { th with
        readyQueue := Function.update th.readyQueue th.rqSize (th.waitingQueue 0)
        rqSize := th.rqSize + 1
        lockOwner := tcb.id
        waitingQueue := ArrayPrefix.shiftLeft th.waitingQueue th.wqSize
        wqSize := th.wqSize - 1 }
  else some th

/-- Step 3 for `rtv == 2`. -/
def block (th : Threads) : Threads :=
  if th.rqCurrent + 1 < th.rqSize then
    { th with
      waitingQueue := Function.update th.waitingQueue th.wqSize th.running
      wqSize := th.wqSize + 1
      readyQueue := Function.update th.readyQueue th.rqCurrent (th.readyQueue (th.rqSize - 1))
      rqSize := th.rqSize - 1 }
  else if th.rqCurrent + 1 = th.rqSize then
    { th with
      waitingQueue := Function.update th.waitingQueue th.wqSize th.running
      wqSize := th.wqSize + 1
      rqCurrent := 0
      rqSize := th.rqSize - 1 }
  else th

/-- `free`. -/
def free (th : Threads) : Option Nat → Threads
  | none => th
  | some p => { th with tcbs := Function.update th.tcbs p none }

/-- Step 3 for `rtv == 3`. -/
def reap (th : Threads) : Threads :=
  if th.rqCurrent + 1 < th.rqSize then
    { th with
      readyQueue := Function.update th.readyQueue th.rqCurrent (th.readyQueue (th.rqSize - 1))
      rqSize := th.rqSize - 1 }.free th.running
  else if th.rqCurrent + 1 = th.rqSize then
    { th with rqCurrent := 0, rqSize := th.rqSize - 1 }.free th.running
  else th

/-- Step 4 for `rtv == 1`. -/
def advance (th : Threads) : Threads :=
  { th with rqCurrent := if th.rqSize ≤ th.rqCurrent + 1 then 0 else th.rqCurrent + 1 }

/-- `scheduler`, from a return of `setjmp(sched_buf)` on.  Behind the three tests of
step 4 the function returns, whatever the sizes of the queues are. -/
def schedule (th : Threads) (rtv : Nat) : Option (Threads × Control) :=
  if rtv = 0 then some ({ th with rqCurrent := 0 }, .resume)
  else th.promote.map fun th =>
    let th := if rtv = 2 then th.block else if rtv = 3 then th.reap else th
    if rtv = 1 then (th.advance, .resume)
    else if rtv = 2 then (th, .resume)
    else if rtv = 3 then (th, .resume)
    else (th, .returned)

/-- The `setjmp` of `thread_yield`. -/
def threadYield (th : Threads) (p : Nat) (tcb : Tcb) (environment : Environment) :
    Threads × Control :=
  (th.store p { tcb with environment }, .unblockTstp)

def threadExit (th : Threads) (p : Nat) (tcb : Tcb) : Threads × Control :=
  ({ th.store p tcb with exited := th.exited ++ [p] }, .scheduler 3)

/-- The end of a round of `fibonacci` and `factorial`. -/
def loopEnd (th : Threads) (p : Nat) (tcb : Tcb) (v : Int) (environment : Environment) :
    Threads × Control :=
  if tcb.i = tcb.arg then (th.print (.value tcb.id v)).threadExit p tcb
  else (th.print (.value tcb.id v)).threadYield p tcb environment

/-- `unlock`. -/
def unlock (th : Threads) (tcb : Tcb) : Threads :=
  if th.lockOwner = tcb.id then { th with lockOwner := -1 } else th

/-- `bank_operation` behind `lock()`. -/
def acquired (th : Threads) (p : Nat) (tcb : Tcb) : Threads × Control :=
  (th.print (.acquired tcb.id)).threadYield p tcb (.bankOperation .firstYield)

end Threads

/-- The results of int arithmetic: the identity for exact integers, or a reduction to
32 bits. -/
abbrev Arith := Int → Int

section Bodies

variable (wrap : Arith)

/-- The head of the `for` loops: `i = 1` at first, `i++` after a yield. -/
def Tcb.nextI (tcb : Tcb) : LoopPoint → Int
  | .setup => 1
  | .yield => wrap (tcb.i + 1)

/-- The body of the loop of `fibonacci`. -/
def Tcb.fibonacciRound (tcb : Tcb) (i : Int) : Tcb :=
  if i ≤ 2 then { tcb with i, x := 1, y := 1 }
  else { tcb with i, x := tcb.y, y := wrap (tcb.x + tcb.y) }

/-- The body of the loop of `factorial`. -/
def Tcb.factorialRound (tcb : Tcb) (i : Int) : Tcb :=
  if i = 1 then { tcb with i, x := 1 } else { tcb with i, x := wrap (tcb.x * i) }

/-- `abs`. -/
def absInt (arg : Int) : Int := wrap arg.natAbs

/-- Step 2 of `bank_operation`. -/
def transfer (balance arg : Int) : Int :=
  if 0 < arg then wrap (balance + arg)
  else if arg < 0 ∧ absInt wrap arg ≤ balance then wrap (balance - absInt wrap arg)
  else balance

namespace Threads

def fibonacci (th : Threads) (p : Nat) (tcb : Tcb) (point : LoopPoint) : Threads × Control :=
  let tcb := tcb.fibonacciRound wrap (tcb.nextI wrap point)
  th.loopEnd p tcb tcb.y (.fibonacci .yield)

def factorial (th : Threads) (p : Nat) (tcb : Tcb) (point : LoopPoint) : Threads × Control :=
  let tcb := tcb.factorialRound wrap (tcb.nextI wrap point)
  th.loopEnd p tcb tcb.x (.factorial .yield)

def bankOperation (th : Threads) (p : Nat) (tcb : Tcb) : BankPoint → Threads × Control
  | .setup =>
      if th.lockOwner = -1 then { th with lockOwner := tcb.id }.acquired p tcb
      else (th.store p { tcb with environment := .bankOperation .lock }, .scheduler 2)
  | .lock => th.acquired p tcb
  | .firstYield =>
      let post := transfer wrap th.balance tcb.arg
      ({ th with balance := post }.print (.transfer tcb.id th.balance post)).threadYield p tcb
        (.bankOperation .secondYield)
  | .secondYield =>
      let th := th.unlock tcb
      (if th.lockOwner = -1 then th.print (.released tcb.id) else th).threadExit p tcb

/-- The running thread, from its resume point to the next `setjmp` or `longjmp`. -/
def segment (th : Threads) : Option (Threads × Control) :=
  th.running.bind fun p => (th.tcbs p).map fun tcb =>
    match tcb.environment with
    | .fibonacci point => th.fibonacci wrap p tcb point
    | .factorial point => th.factorial wrap p tcb point
    | .bankOperation point => th.bankOperation wrap p tcb point

end Threads

end Bodies

structure State where
  threads : Threads
  mask : Signal → Bool
  pending : Signal → Bool
  control : Control

/-- `arrive` is the sending of a signal to the process. -/
inductive Action where
  | tick
  | arrive (sig : Signal)
deriving Repr, DecidableEq

namespace State

/-- A signal that is taken is added to the mask while its handler runs. -/
def take (s : State) (sig : Signal) : State :=
  { s with mask := Function.update s.mask sig true, control := .handler sig }

/-- `SIG_UNBLOCK`; a pending signal is taken before `sigprocmask` returns. -/
def unblock (s : State) (sig : Signal) (after : Control) : State :=
  if s.pending sig then
    { s with pending := Function.update s.pending sig false }.take sig
  else { s with mask := Function.update s.mask sig false, control := after }

def arrive (s : State) (sig : Signal) : State :=
  if s.mask sig then { s with pending := Function.update s.pending sig true }
  else s.take sig

/-- Neither `longjmp` nor `siglongjmp` changes the mask, so only `thread_yield` and
the start of a handler do. -/
def tick (wrap : Arith) (s : State) : Option State :=
  match s.control with
  | .scheduler rtv =>
      (s.threads.schedule rtv).map fun next =>
        { s with threads := next.1, control := next.2 }
  | .resume =>
      s.threads.runningTcb.map fun tcb =>
        { s with control := if tcb.environment.isYield then .setMask else .body }
  | .body =>
      (s.threads.segment wrap).map fun next =>
        { s with threads := next.1, control := next.2 }
  | .unblockTstp => some (s.unblock .tstp .unblockAlrm)
  | .unblockAlrm => some (s.unblock .alrm .setMask)
  | .setMask => some { s with mask := fun _ => true, control := .body }
  | .handler sig => some { s with threads := s.threads.print (.caught sig), control := .jump }
  | .jump => some { s with control := .scheduler 1 }
  | .returned => none

def step (wrap : Arith) (s : State) : Action → Option State
  | .tick => s.tick wrap
  | .arrive sig => some (s.arrive sig)

end State

/-- A call of `thread_create`. -/
structure Spec where
  func : Func
  id : Int
  arg : Int
deriving Repr, DecidableEq

def Func.start : Func → Environment
  | .fibonacci => .fibonacci .setup
  | .factorial => .factorial .setup
  | .bankOperation => .bankOperation .setup

/-- `thread_create`. -/
def Threads.threadCreate (th : Threads) (spec : Spec) : Threads :=
  th.threadSetup spec.func.start spec.id spec.arg

/-- The globals of `main.c` after `init_bank`. -/
def Threads.boot : Threads :=
  { tcbs := fun _ => none
    readyQueue := fun _ => none
    waitingQueue := fun _ => none
    rqSize := 0
    rqCurrent := 0
    wqSize := 0
    balance := 500
    lockOwner := -1
    output := []
    exited := [] }

/-- The guards of `init_threads`. -/
def Spec.admitted (spec : Spec) : Bool :=
  match spec.func with
  | .fibonacci | .factorial => 0 < spec.arg
  | .bankOperation => spec.arg ≠ 0

/-- `init_threads`. -/
def initThreads (fibArg factArg bank1Arg bank2Arg : Int) : List Spec :=
  [⟨.fibonacci, 0, fibArg⟩, ⟨.factorial, 1, factArg⟩, ⟨.bankOperation, 2, bank1Arg⟩,
    ⟨.bankOperation, 3, bank2Arg⟩].filter Spec.admitted

/-- The first entry into `scheduler`, with both signals blocked by `init_signal`. -/
def State.init (specs : List Spec) : State where
  threads := specs.foldl Threads.threadCreate Threads.boot
  mask _ := true
  pending _ := false
  control := .scheduler 0

/-- The program with the threads of `specs`. -/
def threading (wrap : Arith) (specs : List Spec) : TransitionSystem State Action where
  start s := s = State.init specs
  step := State.step wrap

end Scheduler

end SystemsProgramming
