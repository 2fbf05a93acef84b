/-
The two queues as lists, and what each step of `scheduler` and each stretch of a
thread function does to them.
-/
import SystemsProgramming.Scheduler.Model

namespace SystemsProgramming

namespace Scheduler

namespace Threads

open ArrayPrefix

/-- `ready_queue[0..rq_size)`. -/
def ready (th : Threads) : List (Option Nat) := cells th.readyQueue th.rqSize

/-- `waiting_queue[0..wq_size)`. -/
def waiting (th : Threads) : List (Option Nat) := cells th.waitingQueue th.wqSize

def members (th : Threads) : List (Option Nat) := th.ready ++ th.waiting

theorem length_ready (th : Threads) : th.ready.length = th.rqSize := length_cells _ _

theorem length_waiting (th : Threads) : th.waiting.length = th.wqSize := length_cells _ _

theorem running_mem_ready {th : Threads} (hcurrent : th.rqCurrent < th.rqSize) :
    th.running ∈ th.ready :=
  cell_mem hcurrent

@[simp] theorem ready_print (th : Threads) (line : Line) : (th.print line).ready = th.ready := rfl
@[simp] theorem waiting_print (th : Threads) (line : Line) :
    (th.print line).waiting = th.waiting := rfl
@[simp] theorem running_print (th : Threads) (line : Line) :
    (th.print line).running = th.running := rfl

/-- The hand-over of the lock to the waiting thread `p`. -/
structure Promoted (th : Threads) (p : Nat) (tcb : Tcb) (th' : Threads) : Prop where
  free : th.lockOwner = -1
  first : th.waiting = some p :: th'.waiting
  stored : th.tcbs p = some tcb
  ready : th'.ready = th.ready ++ [some p]
  owner : th'.lockOwner = tcb.id
  last : th'.readyQueue th.rqSize = some p
  running : th.rqCurrent < th.rqSize → th'.running = th.running
  rest : th'.tcbs = th.tcbs ∧ th'.rqCurrent = th.rqCurrent ∧ th'.exited = th.exited ∧
    th'.rqSize = th.rqSize + 1

theorem promote_cases {th th' : Threads} (hpromote : th.promote = some th') :
    (th' = th ∧ (th.lockOwner = -1 → th.waiting = [])) ∨ ∃ p tcb, Promoted th p tcb th' := by
  unfold promote at hpromote
  split at hpromote
  case isTrue hfree =>
      right
      obtain ⟨tcb, hbind, heq⟩ := Option.map_eq_some_iff.mp hpromote
      obtain ⟨p, hcell, htcb⟩ := Option.bind_eq_some_iff.mp hbind
      obtain ⟨count, hcount⟩ : ∃ count, th.wqSize = count + 1 :=
        Nat.exists_eq_succ_of_ne_zero (by omega)
      have hwaiting : th.waiting = some p :: cells (fun i => th.waitingQueue (i + 1)) count := by
        rw [waiting, hcount, cells_succ_eq_cons, hcell]
      have hrest : cells (shiftLeft th.waitingQueue th.wqSize) (th.wqSize - 1) =
          th.waiting.tail := cells_shiftLeft _ _
      subst heq
      refine ⟨p, tcb, hfree.1, ?_, htcb, ?_, rfl, ?_, fun hlt => ?_, rfl, rfl, rfl, rfl⟩
      · change th.waiting = some p :: cells (shiftLeft th.waitingQueue th.wqSize) (th.wqSize - 1)
        rw [hrest, hwaiting, List.tail_cons]
      · rw [← hcell]
        exact cells_push _ _ _
      · exact (Function.update_self _ _ _).trans hcell
      · exact Function.update_of_ne (Nat.ne_of_lt hlt) _ _
  case isFalse hnot =>
      left
      have hsame : th = th' := Option.some.inj hpromote
      refine ⟨hsame.symm, fun howner => ?_⟩
      have hzero : th.wqSize = 0 := by omega
      simp [waiting, hzero]

/-- What the two branches of step 3 have in common. -/
def dropRunning (th : Threads) : Threads :=
  if th.rqCurrent + 1 < th.rqSize then
    { th with
      readyQueue := Function.update th.readyQueue th.rqCurrent (th.readyQueue (th.rqSize - 1))
      rqSize := th.rqSize - 1 }
  else { th with rqCurrent := 0, rqSize := th.rqSize - 1 }

theorem block_eq {th : Threads} (hcurrent : th.rqCurrent < th.rqSize) :
    th.block = { th.dropRunning with
      waitingQueue := Function.update th.waitingQueue th.wqSize th.running
      wqSize := th.wqSize + 1 } := by
  unfold block dropRunning
  by_cases hlast : th.rqCurrent + 1 < th.rqSize
  · simp [hlast]
  · have heq : th.rqCurrent + 1 = th.rqSize := by omega
    simp [heq]

theorem reap_eq {th : Threads} (hcurrent : th.rqCurrent < th.rqSize) :
    th.reap = th.dropRunning.free th.running := by
  unfold reap dropRunning
  by_cases hlast : th.rqCurrent + 1 < th.rqSize
  · simp [hlast]
  · have heq : th.rqCurrent + 1 = th.rqSize := by omega
    simp [heq]

theorem dropRunning_perm {th : Threads} (hcurrent : th.rqCurrent < th.rqSize) :
    th.ready.Perm (th.running :: th.dropRunning.ready) := by
  obtain ⟨size, hsize⟩ : ∃ size, th.rqSize = size + 1 :=
    Nat.exists_eq_succ_of_ne_zero (by omega)
  unfold dropRunning
  by_cases hlast : th.rqCurrent + 1 < th.rqSize
  · rw [if_pos hlast]
    simp only [ready, running, hsize, Nat.add_sub_cancel]
    apply cells_swapRemove_perm
    omega
  · have heq : th.rqCurrent = size := by omega
    rw [if_neg hlast]
    simp only [ready, running, hsize, heq, Nat.add_sub_cancel]
    rw [cells_succ]
    exact List.perm_append_singleton _ _

theorem dropRunning_current {th : Threads} (hne : th.dropRunning.ready ≠ []) :
    th.dropRunning.rqCurrent < th.dropRunning.rqSize := by
  have hpos : 0 < th.dropRunning.rqSize := by
    rw [← length_ready]
    exact List.length_pos_of_ne_nil hne
  unfold dropRunning at hpos ⊢
  by_cases hlast : th.rqCurrent + 1 < th.rqSize
  · simp only [if_pos hlast]
    omega
  · simpa only [if_neg hlast] using hpos

theorem dropRunning_rest (th : Threads) :
    th.dropRunning.tcbs = th.tcbs ∧ th.dropRunning.waiting = th.waiting ∧
      th.dropRunning.lockOwner = th.lockOwner ∧ th.dropRunning.exited = th.exited := by
  unfold dropRunning
  split <;> exact ⟨rfl, rfl, rfl, rfl⟩

/-- A thread that is not the last one is replaced by the last one. -/
theorem dropRunning_running {th : Threads} (hlast : th.rqCurrent + 1 < th.rqSize) :
    th.dropRunning.running = th.readyQueue (th.rqSize - 1) := by
  simp [dropRunning, hlast, running]

/-- The running thread `p` leaves the ready queue. -/
structure Left (th : Threads) (p : Nat) (th' : Threads) : Prop where
  perm : th.ready.Perm (some p :: th'.ready)
  current : th'.ready ≠ [] → th'.rqCurrent < th'.rqSize
  swap : th.rqCurrent + 1 < th.rqSize → th'.running = th.readyQueue (th.rqSize - 1)
  rest : th'.lockOwner = th.lockOwner ∧ th'.exited = th.exited

theorem block_left {th : Threads} {p : Nat} (hcurrent : th.rqCurrent < th.rqSize)
    (hrunning : th.running = some p) : Left th p th.block ∧
      th.block.waiting = th.waiting ++ [some p] ∧ th.block.tcbs = th.tcbs := by
  obtain ⟨htcbs, -, howner, hexited⟩ := th.dropRunning_rest
  have hperm := dropRunning_perm hcurrent
  rw [hrunning] at hperm
  rw [block_eq hcurrent]
  refine ⟨⟨hperm, dropRunning_current, dropRunning_running, howner, hexited⟩, ?_, htcbs⟩
  rw [← hrunning]
  exact cells_push _ _ _

theorem reap_left {th : Threads} {p : Nat} (hcurrent : th.rqCurrent < th.rqSize)
    (hrunning : th.running = some p) : Left th p th.reap ∧
      th.reap.waiting = th.waiting ∧ th.reap.tcbs = Function.update th.tcbs p none := by
  obtain ⟨htcbs, hwaiting, howner, hexited⟩ := th.dropRunning_rest
  have hperm := dropRunning_perm hcurrent
  rw [hrunning] at hperm
  rw [reap_eq hcurrent, hrunning]
  refine ⟨⟨hperm, dropRunning_current, dropRunning_running, howner, hexited⟩, hwaiting, ?_⟩
  rw [← htcbs]
  rfl

theorem advance_current {th : Threads} (hcurrent : th.rqCurrent < th.rqSize) :
    th.advance.rqCurrent < th.advance.rqSize := by
  change (if th.rqSize ≤ th.rqCurrent + 1 then 0 else th.rqCurrent + 1) < th.rqSize
  split <;> omega

/-- The three steps of `scheduler` for an entry that is not the first one. -/
theorem schedule_cases {th : Threads} {rtv : Nat} {next : Threads × Control}
    (hschedule : th.schedule rtv = some next) (hle : rtv ≤ 3) :
    (rtv = 0 ∧ next = ({ th with rqCurrent := 0 }, .resume)) ∨
    ∃ th', th.promote = some th' ∧
      ((rtv = 1 ∧ next = (th'.advance, .resume)) ∨ (rtv = 2 ∧ next = (th'.block, .resume)) ∨
        (rtv = 3 ∧ next = (th'.reap, .resume))) := by
  unfold schedule at hschedule
  obtain hrtv | hrtv | hrtv | hrtv : rtv = 0 ∨ rtv = 1 ∨ rtv = 2 ∨ rtv = 3 := by omega
  · left
    subst hrtv
    exact ⟨rfl, (Option.some.inj hschedule).symm⟩
  all_goals
    right
    subst hrtv
    obtain ⟨th', hpromote, heq⟩ := Option.map_eq_some_iff.mp hschedule
    refine ⟨th', hpromote, ?_⟩
    subst heq
    simp

end Threads

/-- The ways a stretch of a thread function ends: what it does to the environment of
its thread and to `lock_owner`, and where it leaves control. -/
inductive Ends (id owner : Int) : Environment → Environment → Int → Control → Prop
  /-- `thread_yield` in a loop. -/
  | round {environment later : Environment} :
      environment.func ≠ .bankOperation → later.func = environment.func →
      later.isYield = true → Ends id owner environment later owner .unblockTstp
  /-- `thread_exit` in a loop. -/
  | last {environment : Environment} : environment.func ≠ .bankOperation →
      Ends id owner environment environment owner (.scheduler 3)
  | acquire : owner = -1 → Ends id owner (.bankOperation .setup) (.bankOperation .firstYield)
      id .unblockTstp
  | block : owner ≠ -1 → Ends id owner (.bankOperation .setup) (.bankOperation .lock)
      owner (.scheduler 2)
  | granted : Ends id owner (.bankOperation .lock) (.bankOperation .firstYield)
      owner .unblockTstp
  | transfer : Ends id owner (.bankOperation .firstYield) (.bankOperation .secondYield)
      owner .unblockTstp
  | release : Ends id owner (.bankOperation .secondYield) (.bankOperation .secondYield)
      (if owner = id then -1 else owner) (.scheduler 3)

namespace Ends

variable {id owner owner' : Int} {environment later : Environment} {c : Control}

theorem func_eq (hends : Ends id owner environment later owner' c) :
    later.func = environment.func := by
  cases hends with
  | round _ hfunc => exact hfunc
  | _ => rfl

/-- A stretch ends in `thread_yield`, in `lock()` or in `thread_exit`. -/
theorem control_cases (hends : Ends id owner environment later owner' c) :
    (c = .unblockTstp ∧ later.isYield = true) ∨ c = .scheduler 2 ∨ c = .scheduler 3 := by
  cases hends with
  | round _ _ hyield => exact .inl ⟨rfl, hyield⟩
  | acquire | granted | transfer => exact .inl ⟨rfl, rfl⟩
  | block => exact .inr (.inl rfl)
  | last | release => exact .inr (.inr rfl)

end Ends

/-- One stretch of the function of the running thread `p`. -/
structure Segment (th : Threads) (p : Nat) (tcb tcb' : Tcb) (th' : Threads) (c : Control) :
    Prop where
  running : th.running = some p
  stored : th.tcbs p = some tcb
  ends : Ends tcb.id th.lockOwner tcb.environment tcb'.environment th'.lockOwner c
  same : tcb'.id = tcb.id ∧ tcb'.arg = tcb.arg
  tcbs : th'.tcbs = Function.update th.tcbs p (some tcb')
  ready : th'.ready = th.ready
  waiting : th'.waiting = th.waiting
  running_eq : th'.running = th.running
  current : th'.rqCurrent = th.rqCurrent
  exited : th'.exited = if c = .scheduler 3 then th.exited ++ [p] else th.exited

namespace Threads

variable {th : Threads} {p : Nat} {tcb : Tcb}

/-- A loop whose round leaves `tcb'` ends by a yield or by the exit. -/
theorem loopEnd_segment {tcb' : Tcb} (v : Int) {later : Environment}
    (hrunning : th.running = some p) (htcb : th.tcbs p = some tcb)
    (hsame : tcb'.id = tcb.id ∧ tcb'.arg = tcb.arg ∧ tcb'.environment = tcb.environment)
    (hfunc : tcb.environment.func ≠ .bankOperation)
    (hlater : later.func = tcb.environment.func) (hyield : later.isYield = true) :
    ∃ tcb'', Segment th p tcb tcb'' (th.loopEnd p tcb' v later).1
      (th.loopEnd p tcb' v later).2 := by
  unfold loopEnd
  by_cases hlast : tcb'.i = tcb'.arg
  · rw [if_pos hlast]
    refine ⟨tcb', hrunning, htcb, ?_, ⟨hsame.1, hsame.2.1⟩, rfl, rfl, rfl, rfl, rfl, rfl⟩
    rw [hsame.2.2]
    exact .last hfunc
  · rw [if_neg hlast]
    exact ⟨{ tcb' with environment := later }, hrunning, htcb, .round hfunc hlater hyield,
      ⟨hsame.1, hsame.2.1⟩, rfl, rfl, rfl, rfl, rfl, rfl⟩

theorem fibonacci_segment (wrap : Arith) {point : LoopPoint} (hrunning : th.running = some p)
    (htcb : th.tcbs p = some tcb) (hpoint : tcb.environment = .fibonacci point) :
    ∃ tcb', Segment th p tcb tcb' (th.fibonacci wrap p tcb point).1
      (th.fibonacci wrap p tcb point).2 := by
  unfold fibonacci
  apply loopEnd_segment _ hrunning htcb
  · unfold Tcb.fibonacciRound
    split <;> exact ⟨rfl, rfl, rfl⟩
  · simp [hpoint, Environment.func]
  · simp [hpoint, Environment.func]
  · rfl

theorem factorial_segment (wrap : Arith) {point : LoopPoint} (hrunning : th.running = some p)
    (htcb : th.tcbs p = some tcb) (hpoint : tcb.environment = .factorial point) :
    ∃ tcb', Segment th p tcb tcb' (th.factorial wrap p tcb point).1
      (th.factorial wrap p tcb point).2 := by
  unfold factorial
  apply loopEnd_segment _ hrunning htcb
  · unfold Tcb.factorialRound
    split <;> exact ⟨rfl, rfl, rfl⟩
  · simp [hpoint, Environment.func]
  · simp [hpoint, Environment.func]
  · rfl

theorem bankOperation_segment (wrap : Arith) {point : BankPoint} (hrunning : th.running = some p)
    (htcb : th.tcbs p = some tcb) (hpoint : tcb.environment = .bankOperation point) :
    ∃ tcb', Segment th p tcb tcb' (th.bankOperation wrap p tcb point).1
      (th.bankOperation wrap p tcb point).2 := by
  cases point with
  | setup =>
      by_cases hfree : th.lockOwner = -1
      · simp only [bankOperation, if_pos hfree]
        refine ⟨{ tcb with environment := .bankOperation .firstYield }, hrunning, htcb, ?_,
          ⟨rfl, rfl⟩, rfl, rfl, rfl, rfl, rfl, rfl⟩
        rw [hpoint]
        exact .acquire hfree
      · simp only [bankOperation, if_neg hfree]
        refine ⟨{ tcb with environment := .bankOperation .lock }, hrunning, htcb, ?_,
          ⟨rfl, rfl⟩, rfl, rfl, rfl, rfl, rfl, rfl⟩
        rw [hpoint]
        exact .block hfree
  | lock =>
      refine ⟨{ tcb with environment := .bankOperation .firstYield }, hrunning, htcb, ?_,
        ⟨rfl, rfl⟩, rfl, rfl, rfl, rfl, rfl, rfl⟩
      rw [hpoint]
      exact .granted
  | firstYield =>
      refine ⟨{ tcb with environment := .bankOperation .secondYield }, hrunning, htcb, ?_,
        ⟨rfl, rfl⟩, rfl, rfl, rfl, rfl, rfl, rfl⟩
      rw [hpoint]
      exact .transfer
  | secondYield =>
      have hrelease : ∀ owner, owner = (if th.lockOwner = tcb.id then -1 else th.lockOwner) →
          Ends tcb.id th.lockOwner tcb.environment tcb.environment owner (.scheduler 3) := by
        intro owner howner
        rw [hpoint, howner]
        exact .release
      simp only [bankOperation, unlock]
      split <;> split <;>
        refine ⟨tcb, hrunning, htcb, hrelease _ ?_, ⟨rfl, rfl⟩, rfl, rfl, rfl, rfl, rfl, rfl⟩ <;>
        simp_all [threadExit, store, print]

theorem segment_cases {wrap : Arith} {next : Threads × Control}
    (hsegment : th.segment wrap = some next) :
    ∃ p tcb tcb', Segment th p tcb tcb' next.1 next.2 := by
  obtain ⟨p, hrunning, hmap⟩ := Option.bind_eq_some_iff.mp hsegment
  obtain ⟨tcb, htcb, heq⟩ := Option.map_eq_some_iff.mp hmap
  subst heq
  refine ⟨p, tcb, ?_⟩
  cases henv : tcb.environment with
  | fibonacci point => exact fibonacci_segment wrap hrunning htcb henv
  | factorial point => exact factorial_segment wrap hrunning htcb henv
  | bankOperation point => exact bankOperation_segment wrap hrunning htcb henv

end Threads

end Scheduler

end SystemsProgramming
