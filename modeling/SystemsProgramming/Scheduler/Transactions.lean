/-
The bank as one account book.  Threads get the lock in the order in which they call
`lock()`, whatever the scheduler does to the ready queue, so the printed transfers are
those of a sequential bank that serves the calls in that order.
-/
import SystemsProgramming.Scheduler.Rounds

namespace SystemsProgramming

namespace Scheduler

variable {specs : List Spec} {s t : State} {th th' : Threads} {c c' : Control} {p q : Nat}
  {tcb tcb' : Tcb} {calls unlocked : List Nat} {owner : Option Nat}

/-- The threads that have executed the stretch behind the resume point, in order. -/
def passed (point : BankPoint) (log : List (Nat × Environment)) : List Nat :=
  log.filterMap fun entry => if entry.2 = .bankOperation point then some entry.1 else none

/-- The threads that have executed `lock()`, in the order in which they did so first. -/
def lockCalls (log : List (Nat × Environment)) : List Nat := passed .setup log

/-- The threads that have executed `unlock()`. -/
def unlockCalls (log : List (Nat × Environment)) : List Nat := passed .secondYield log

/-- The balance after one operation of a sequential bank. -/
def settle (balance arg : Int) : Int :=
  if 0 < arg then balance + arg
  else if arg < 0 ∧ -arg ≤ balance then balance + arg
  else balance

/-- The balance after the operations one after the other. -/
def settled (balance : Int) (operations : List Spec) : Int :=
  operations.foldl (fun balance spec => settle balance spec.arg) balance

/-- What a sequential bank prints. -/
def statement : Int → List Spec → List Line
  | _, [] => []
  | balance, spec :: rest =>
      .transfer spec.id balance (settle balance spec.arg) ::
        statement (settle balance spec.arg) rest

theorem settled_append (balance : Int) (operations : List Spec) (spec : Spec) :
    settled balance (operations ++ [spec]) = settle (settled balance operations) spec.arg := by
  simp [settled]

theorem statement_append (balance : Int) (operations : List Spec) (spec : Spec) :
    statement balance (operations ++ [spec]) = statement balance operations ++
      [.transfer spec.id (settled balance operations)
        (settled balance (operations ++ [spec]))] := by
  induction operations generalizing balance with
  | nil => rfl
  | cons first rest ih =>
      simp only [List.cons_append, statement, ih, settled, List.foldl_cons]

theorem transfer_id (balance arg : Int) : transfer id balance arg = settle balance arg := by
  unfold transfer settle absInt
  simp only [id]
  by_cases hpos : 0 < arg
  · rw [if_pos hpos, if_pos hpos]
  · have habs : ((arg.natAbs : Nat) : Int) = -arg := by omega
    rw [if_neg hpos, if_neg hpos, habs, Int.sub_neg]

/-- The printed transfers. -/
def Threads.transfers (th : Threads) : List Line :=
  th.output.filter fun line => line matches .transfer ..

/-- The threads with these numbers, as they were created. -/
def operations (specs : List Spec) (ps : List Nat) : List Spec := ps.filterMap (specs[·]?)

/-- The owner of the lock, once it has made its transfer. -/
def Threads.paid (th : Threads) : Option Nat → List Nat
  | none => []
  | some p =>
      if (th.tcbs p).map Tcb.environment = some (.bankOperation .secondYield) then [p] else []

/-- The calls of `lock()` are, in order, those of the threads that have executed
`unlock()`, of the owner of the lock and of the waiting threads, the last of which may
still be on its way into the waiting queue. -/
structure InOrder (specs : List Spec) (th : Threads) (c : Control) (calls unlocked : List Nat)
    (owner : Option Nat) : Prop where
  calls_eq : calls.map some = unlocked.map some ++ owner.toList.map some ++ th.waiting ++
    (if c = .scheduler 2 then [th.running] else [])
  nodup : calls.Nodup
  owns : ∀ p, owner = some p → ∃ tcb, th.tcbs p = some tcb ∧ tcb.id = th.lockOwner ∧
    tcb.environment.isPastTest = true
  free : owner = none → th.lockOwner = -1
  fresh : ∀ p tcb, th.tcbs p = some tcb → tcb.environment = .bankOperation .setup → p ∉ calls
  created : ∀ p ∈ calls, ∃ spec, specs[p]? = some spec ∧ spec.func = .bankOperation

/-- The account book fits the order of the calls. -/
structure Accounted (specs : List Spec) (th : Threads) (served : List Nat) : Prop where
  printed : th.transfers = statement 500 (operations specs served)
  balance : th.balance = settled 500 (operations specs served)

theorem Threads.paid_congr (htcbs : ∀ p, owner = some p → th'.tcbs p = th.tcbs p) :
    th'.paid owner = th.paid owner := by
  cases owner with
  | none => rfl
  | some p => rw [paid, paid, htcbs p rfl]

theorem Threads.paid_some (hstored : th.tcbs p = some tcb) :
    th.paid (some p) = if tcb.environment = .bankOperation .secondYield then [p] else [] := by
  rw [paid, hstored, Option.map_some]
  simp only [Option.some.injEq]

theorem Threads.paid_prefix (th : Threads) (owner : Option Nat) :
    th.paid owner <+: owner.toList := by
  cases owner with
  | none => exact List.nil_prefix
  | some p =>
      rw [paid]
      split
      · exact List.prefix_rfl
      · exact List.nil_prefix

namespace InOrder

/-- A step that changes neither the queue nor the lock. -/
theorem keep (horder : InOrder specs th c calls unlocked owner)
    (hwaiting : th'.waiting = th.waiting) (hlock : th'.lockOwner = th.lockOwner)
    (htcbs : ∀ p, owner = some p → th'.tcbs p = th.tcbs p)
    (hsetup : ∀ p tcb, th'.tcbs p = some tcb → tcb.environment = .bankOperation .setup →
      th.tcbs p = some tcb)
    (hc : c ≠ .scheduler 2) (hc' : c' ≠ .scheduler 2) :
    InOrder specs th' c' calls unlocked owner where
  calls_eq := by
    have hcalls := horder.calls_eq
    rw [if_neg hc] at hcalls
    rw [if_neg hc', hwaiting]
    exact hcalls
  nodup := horder.nodup
  owns p howner := by
    rw [htcbs p howner, hlock]
    exact horder.owns p howner
  free hnone := hlock.trans (horder.free hnone)
  fresh p tcb hstored henv := horder.fresh p tcb (hsetup p tcb hstored henv) henv
  created := horder.created

theorem frame (horder : InOrder specs th c calls unlocked owner)
    (hwaiting : th'.waiting = th.waiting) (hlock : th'.lockOwner = th.lockOwner)
    (htcbs : th'.tcbs = th.tcbs) (hc : c ≠ .scheduler 2) (hc' : c' ≠ .scheduler 2) :
    InOrder specs th' c' calls unlocked owner :=
  horder.keep hwaiting hlock (fun _ _ => by rw [htcbs]) (fun _ _ h _ => htcbs ▸ h) hc hc'

section Owner

variable {gone : List Nat} (horder : InOrder specs th c calls unlocked owner)
  (hbooks : Books specs th gone) (hids : ValidIds specs)

include horder hbooks hids

/-- The recorded owner is the one that `lock_owner` names. -/
theorem owner_eq (hstored : th.tcbs p = some tcb) (hid : tcb.id = th.lockOwner) :
    owner = some p := by
  have hnonneg := hbooks.id_nonneg hids hstored
  cases howner : owner with
  | none =>
      have hfree := horder.free howner
      omega
  | some q =>
      obtain ⟨other, hother, hid', -⟩ := horder.owns q howner
      rw [hbooks.id_inj hids hstored hother (hid.trans hid'.symm)]

theorem owner_none (hfree : th.lockOwner = -1) : owner = none := by
  rw [Option.eq_none_iff_forall_ne_some]
  intro p howner
  obtain ⟨tcb, hstored, hid, -⟩ := horder.owns p howner
  have hnonneg := hbooks.id_nonneg hids hstored
  omega

end Owner

/-- The lock goes to the first waiting thread. -/
theorem promote (horder : InOrder specs th (.scheduler 3) calls unlocked owner)
    (hcore : Core specs th (.scheduler 3)) (hids : ValidIds specs)
    (hpromoted : Threads.Promoted th p tcb th') :
    InOrder specs th' (.scheduler 3) calls unlocked (some p) ∧
      th'.paid (some p) = th.paid owner := by
  obtain rfl := horder.owner_none hcore.books hids hpromoted.free
  obtain ⟨htcbs, -⟩ := hpromoted.rest
  have hstored : th'.tcbs p = some tcb := by
    rw [htcbs]
    exact hpromoted.stored
  have henv : tcb.environment = .bankOperation .lock := by
    apply hcore.waits p tcb _ hpromoted.stored
    rw [hpromoted.first]
    exact List.mem_cons_self
  constructor
  · constructor
    · have hcalls := horder.calls_eq
      rw [hpromoted.first] at hcalls
      simpa using hcalls
    · exact horder.nodup
    · intro q hq
      obtain rfl : p = q := Option.some.inj hq
      refine ⟨tcb, hstored, hpromoted.owner.symm, ?_⟩
      rw [henv]
      rfl
    · intro hnone
      simp at hnone
    · rw [htcbs]
      exact horder.fresh
    · exact horder.created
  · rw [Threads.paid_some hstored, henv]
    rfl

/-- A blocked thread comes to the end of the waiting queue. -/
theorem block (horder : InOrder specs th (.scheduler 2) calls unlocked owner)
    (hcore : Core specs th (.scheduler 2)) :
    InOrder specs th.block .resume calls unlocked owner ∧
      th.block.paid owner = th.paid owner := by
  obtain ⟨p, tcb, hrunning, -⟩ := hcore.books.stored_running hcore.current
  obtain ⟨hleft, hwaiting, htcbs⟩ := Threads.block_left hcore.current hrunning
  have hlock := hleft.rest.1
  refine ⟨⟨?_, horder.nodup, ?_, ?_, ?_, horder.created⟩,
    Threads.paid_congr fun _ _ => by rw [htcbs]⟩
  · have hcalls := horder.calls_eq
    rw [if_pos rfl, hrunning] at hcalls
    rw [hwaiting, hcalls]
    simp
  · rw [htcbs, hlock]
    exact horder.owns
  · rw [hlock]
    exact horder.free
  · rw [htcbs]
    exact horder.fresh

/-- The thread that exits is not the owner of the lock. -/
theorem reap (horder : InOrder specs th (.scheduler 3) calls unlocked owner)
    (hcore : Core specs th (.scheduler 3)) (hids : ValidIds specs) :
    InOrder specs th.reap .resume calls unlocked owner ∧
      th.reap.paid owner = th.paid owner := by
  obtain ⟨p, tcb, hrunning, -⟩ := hcore.books.stored_running hcore.current
  obtain ⟨hleft, hwaiting, htcbs⟩ := Threads.reap_left hcore.current hrunning
  have hother : ∀ q, owner = some q → th.reap.tcbs q = th.tcbs q := by
    intro q howner
    obtain ⟨other, hstored, hid, -⟩ := horder.owns q howner
    have hnonneg := hcore.books.id_nonneg hids hstored
    obtain ⟨r, holder, -, hheld, -, hid', hne⟩ := hcore.holder (by omega)
    have heq := hcore.books.id_inj hids hstored hheld (hid.trans hid'.symm)
    rw [htcbs, Function.update_of_ne]
    rintro rfl
    exact hne (.inr rfl) (heq ▸ hrunning)
  refine ⟨?_, Threads.paid_congr hother⟩
  apply horder.keep hwaiting hleft.rest.1 hother _ (by simp) (by simp)
  intro q other hstored _
  exact (Threads.reap_quiet th).stored q other hstored

theorem schedule {rtv : Nat} (horder : InOrder specs th (.scheduler rtv) calls unlocked owner)
    (hcore : Core specs th (.scheduler rtv)) (hserial : Serial th (.scheduler rtv))
    (hids : ValidIds specs) (hle : rtv ≤ 3) {next : Threads × Control}
    (hschedule : th.schedule rtv = some next) :
    ∃ owner', InOrder specs next.1 next.2 calls unlocked owner' ∧
      next.1.paid owner' = th.paid owner := by
  rcases Threads.schedule_cases hschedule hle with ⟨rfl, rfl⟩ | ⟨between, hpromote, hnext⟩
  · exact ⟨owner, horder.frame rfl rfl rfl (by simp) (by simp), rfl⟩
  rcases Threads.promote_cases hpromote with ⟨rfl, -⟩ | ⟨p, tcb, hpromoted⟩
  · rcases hnext with ⟨rfl, rfl⟩ | ⟨rfl, rfl⟩ | ⟨rfl, rfl⟩
    · exact ⟨owner, horder.frame rfl rfl rfl (by simp) (by simp), rfl⟩
    · exact ⟨owner, horder.block hcore⟩
    · exact ⟨owner, horder.reap hcore hids⟩
  · -- the lock is free with a thread waiting for it only when its owner exits
    have hwaiting : th.waiting ≠ [] := by
      rw [hpromoted.first]
      exact List.cons_ne_nil _ _
    obtain rfl : rtv = 3 := by
      by_contra hnot
      exact hserial.held hwaiting (by simpa using hnot) hpromoted.free
    obtain ⟨horder', hpaid⟩ := horder.promote hcore hids hpromoted
    rcases hnext with ⟨h, -⟩ | ⟨h, -⟩ | ⟨-, rfl⟩
    · simp at h
    · simp at h
    · obtain ⟨hreaped, hpaid'⟩ := horder'.reap (hcore.promote hpromoted) hids
      exact ⟨some p, hreaped, hpaid'.trans hpaid⟩

section Stretches

variable (horder : InOrder specs s.threads .body calls unlocked owner)
  (hstretch : Stretch id s t p tcb tcb')

include horder hstretch

/-- A stretch of a thread that is not the owner, and does not call `lock()`. -/
theorem stretch_other (hother : owner ≠ some p)
    (hlock : t.threads.lockOwner = s.threads.lockOwner)
    (hsetup : tcb'.environment ≠ .bankOperation .setup) (hc : t.control ≠ .scheduler 2) :
    InOrder specs t.threads t.control calls unlocked owner ∧
      t.threads.paid owner = s.threads.paid owner := by
  have htcbs : ∀ q, owner = some q → t.threads.tcbs q = s.threads.tcbs q := by
    rintro q rfl
    rw [hstretch.segment.tcbs, Function.update_of_ne]
    rintro rfl
    exact hother rfl
  refine ⟨?_, Threads.paid_congr htcbs⟩
  refine horder.keep hstretch.segment.waiting hlock htcbs (fun q other hstored henv => ?_)
    (by simp) hc
  rw [hstretch.segment.tcbs] at hstored
  by_cases heq : q = p
  · subst heq
    rw [Function.update_self, Option.some.injEq] at hstored
    exact absurd (hstored ▸ henv) hsetup
  · rwa [Function.update_of_ne heq] at hstored

/-- A stretch of the owner that does not release the lock. -/
theorem stretch_owner (howner : owner = some p)
    (hlock : t.threads.lockOwner = s.threads.lockOwner)
    (hpast : tcb'.environment.isPastTest = true) (hc : t.control ≠ .scheduler 2) :
    InOrder specs t.threads t.control calls unlocked owner := by
  have hstored : t.threads.tcbs p = some tcb' := by
    rw [hstretch.segment.tcbs, Function.update_self]
  constructor
  · have hcalls := horder.calls_eq
    rw [if_neg (by simp)] at hcalls
    rw [if_neg hc, hstretch.segment.waiting]
    exact hcalls
  · exact horder.nodup
  · intro q hq
    obtain rfl : p = q := Option.some.inj (howner.symm.trans hq)
    obtain ⟨other, hother, hid, -⟩ := horder.owns p hq
    obtain rfl : other = tcb := Option.some.inj (hother.symm.trans hstretch.segment.stored)
    exact ⟨tcb', hstored, (hstretch.segment.same.1.trans hid).trans hlock.symm, hpast⟩
  · intro hnone
    rw [howner] at hnone
    simp at hnone
  · intro q other hother henv
    by_cases heq : q = p
    · subst heq
      obtain rfl : tcb' = other := Option.some.inj (hstored.symm.trans hother)
      rw [henv] at hpast
      simp [Environment.isPastTest] at hpast
    · rw [hstretch.segment.tcbs, Function.update_of_ne heq] at hother
      exact horder.fresh q other hother henv
  · exact horder.created

/-- A call of `lock()`, with the place of the caller behind the calls before it. -/
theorem stretch_call {owner' : Option Nat} (henv : tcb.environment = .bankOperation .setup)
    (hsetup : tcb'.environment ≠ .bankOperation .setup)
    (hcreated : specs[p]? = some ⟨.bankOperation, tcb.id, tcb.arg⟩)
    (hplace : owner.toList.map some ++ s.threads.waiting ++ [some p] =
      owner'.toList.map some ++ s.threads.waiting ++
        (if t.control = .scheduler 2 then [some p] else []))
    (howns : ∀ q, owner' = some q → ∃ other, t.threads.tcbs q = some other ∧
      other.id = t.threads.lockOwner ∧ other.environment.isPastTest = true)
    (hfree : owner' = none → t.threads.lockOwner = -1) :
    InOrder specs t.threads t.control (calls ++ [p]) unlocked owner' := by
  have hnew := horder.fresh p tcb hstretch.segment.stored henv
  constructor
  · have hcalls := horder.calls_eq
    rw [if_neg (by simp), List.append_nil, List.append_assoc] at hcalls
    rw [hstretch.segment.waiting, hstretch.segment.running_eq, hstretch.segment.running,
      List.map_append, hcalls, List.append_assoc, List.map_singleton, hplace]
    simp only [List.append_assoc]
  · rw [List.nodup_append]
    refine ⟨horder.nodup, List.nodup_singleton p, fun q hq r hr heq => ?_⟩
    rw [List.mem_singleton] at hr
    exact hnew (hr ▸ heq ▸ hq)
  · exact howns
  · exact hfree
  · intro q other hother henv'
    by_cases heq : q = p
    · subst heq
      rw [hstretch.segment.tcbs, Function.update_self, Option.some.injEq] at hother
      exact absurd (hother ▸ henv') hsetup
    · rw [hstretch.segment.tcbs, Function.update_of_ne heq] at hother
      simpa [heq] using horder.fresh q other hother henv'
  · intro q hq
    rcases List.mem_append.mp hq with hold | hnew
    · exact horder.created q hold
    · rw [List.mem_singleton.mp hnew]
      exact ⟨_, hcreated, rfl⟩

/-- The release of the lock by its owner. -/
theorem stretch_release (howner : owner = some p) (hlock : t.threads.lockOwner = -1)
    (hsetup : tcb'.environment ≠ .bankOperation .setup) (hc : t.control ≠ .scheduler 2) :
    InOrder specs t.threads t.control calls (unlocked ++ [p]) none := by
  constructor
  · have hcalls := horder.calls_eq
    rw [if_neg (by simp), howner] at hcalls
    rw [if_neg hc, hstretch.segment.waiting, hcalls]
    simp
  · exact horder.nodup
  · intro q hq
    simp at hq
  · intro _
    exact hlock
  · intro q other hother henv
    by_cases heq : q = p
    · subst heq
      rw [hstretch.segment.tcbs, Function.update_self, Option.some.injEq] at hother
      exact absurd (hother ▸ henv) hsetup
    · rw [hstretch.segment.tcbs, Function.update_of_ne heq] at hother
      exact horder.fresh q other hother henv
  · exact horder.created

end Stretches

end InOrder

namespace Accounted

variable {served : List Nat}

theorem quiet (haccounts : Accounted specs th served) (hquiet : Threads.Quiet th th') :
    Accounted specs th' served where
  printed := by
    obtain ⟨signals, heq⟩ := hquiet.output
    have hnone : (signals.map Line.caught).filter (fun line => line matches .transfer ..) =
        [] := by
      simp [List.filter_eq_nil_iff]
    rw [← haccounts.printed, Threads.transfers, heq, List.filter_append, hnone,
      List.append_nil]
    rfl
  balance := hquiet.balance.trans haccounts.balance

/-- Only the stretch behind the first `thread_yield` makes a transfer. -/
theorem other (haccounts : Accounted specs s.threads served)
    (hstretch : Stretch id s t p tcb tcb') (henv : tcb.environment ≠ .bankOperation .firstYield) :
    Accounted specs t.threads served where
  printed := by
    have hnone : (s.threads.prints id tcb).filter (fun line => line matches .transfer ..) =
        [] := by
      unfold Threads.prints
      split
      all_goals try split
      all_goals simp_all
    rw [← haccounts.printed, Threads.transfers, hstretch.output, List.filter_append, hnone,
      List.append_nil]
    rfl
  balance := by
    rw [hstretch.balance, Threads.balanceAfter, if_neg henv]
    exact haccounts.balance

theorem transfer (haccounts : Accounted specs s.threads served)
    (hstretch : Stretch id s t p tcb tcb') (henv : tcb.environment = .bankOperation .firstYield)
    (hcreated : specs[p]? = some ⟨.bankOperation, tcb.id, tcb.arg⟩) :
    Accounted specs t.threads (served ++ [p]) := by
  have hoperations : operations specs (served ++ [p]) =
      operations specs served ++ [⟨.bankOperation, tcb.id, tcb.arg⟩] := by
    simp [operations, hcreated]
  have hpost : Scheduler.transfer id s.threads.balance tcb.arg =
      settled 500 (operations specs (served ++ [p])) := by
    rw [transfer_id, hoperations, settled_append, haccounts.balance]
  constructor
  · have hline : s.threads.prints id tcb = [.transfer tcb.id s.threads.balance
        (settled 500 (operations specs (served ++ [p])))] := by
      rw [← hpost, Threads.prints, henv]
    rw [Threads.transfers, hstretch.output, List.filter_append, hline, hoperations,
      statement_append, ← hoperations, ← haccounts.printed, haccounts.balance]
    rfl
  · rw [hstretch.balance, Threads.balanceAfter, if_pos henv, hpost]

end Accounted

theorem lockCalls_loop {environment : Environment} (p : Nat)
    (hfunc : environment.func ≠ .bankOperation) :
    lockCalls [(p, environment)] = [] ∧ unlockCalls [(p, environment)] = [] := by
  cases environment with
  | fibonacci point | factorial point => exact ⟨rfl, rfl⟩
  | bankOperation point => exact absurd rfl hfunc

/-- A thread past the test in `lock()` that runs is the owner of the lock. -/
theorem Alive.running_owns (halive : Alive specs s) (hserial : Serial s.threads s.control)
    (hids : ValidIds specs) (horder : InOrder specs s.threads c calls unlocked owner)
    (hstretch : Stretch id s t p tcb tcb') (hpast : tcb.environment.isPastTest = true) :
    owner = some p ∧ tcb.id = s.threads.lockOwner := by
  have hready : some p ∈ s.threads.ready := by
    rw [← hstretch.segment.running]
    exact Threads.running_mem_ready halive.core.current
  have hid := hserial.owns p tcb hstretch.segment.stored hready hpast
    fun h => by simp [hstretch.body, Leaving] at h
  exact ⟨horder.owner_eq halive.core.books hids hstretch.segment.stored hid, hid⟩

/-- One stretch of a thread function keeps the order and the account book. -/
theorem InOrder.stretch (horder : InOrder specs s.threads s.control calls unlocked owner)
    (haccounts : Accounted specs s.threads (unlocked ++ s.threads.paid owner))
    (halive : Alive specs s) (hserial : Serial s.threads s.control) (hids : ValidIds specs)
    (hstretch : Stretch id s t p tcb tcb') :
    ∃ owner', InOrder specs t.threads t.control
        (calls ++ lockCalls [(p, tcb.environment)])
        (unlocked ++ unlockCalls [(p, tcb.environment)]) owner' ∧
      Accounted specs t.threads
        (unlocked ++ unlockCalls [(p, tcb.environment)] ++ t.threads.paid owner') := by
  have hcreated := (halive.stretch_live hstretch).2.2
  have hnow : t.threads.tcbs p = some tcb' := by
    rw [hstretch.segment.tcbs, Function.update_self]
  have hbefore := hstretch.segment.stored
  have howns := halive.running_owns hserial hids horder hstretch
  have hnotOwner : tcb.environment.isPastTest = false → owner ≠ some p := by
    intro hnot howner
    obtain ⟨other, hother, -, hpast⟩ := horder.owns p howner
    obtain rfl : other = tcb := Option.some.inj (hother.symm.trans hbefore)
    simp [hnot] at hpast
  have hheld := hserial.held
  rw [hstretch.body] at horder hheld
  have hsame := hstretch.segment.same.1
  have hends := hstretch.segment.ends
  generalize henv : tcb.environment = environment at *
  generalize hlater : tcb'.environment = later at hends
  generalize hlock : t.threads.lockOwner = lock' at hends
  generalize hc : t.control = control at hends
  have hkept : later.func = environment.func := hends.func_eq
  have hcall : ∀ p, lockCalls [(p, .bankOperation .setup)] = [p] := fun _ => rfl
  have hunlock : ∀ p, unlockCalls [(p, .bankOperation .setup)] = [] := fun _ => rfl
  cases hends with
  | round hfunc | last hfunc =>
      obtain ⟨hcall, hunlock⟩ := lockCalls_loop p hfunc
      have hbank : ∀ point, environment ≠ .bankOperation point := by
        rintro point rfl
        exact hfunc rfl
      have hnot : environment.isPastTest = false := by
        cases environment with
        | fibonacci point | factorial point => rfl
        | bankOperation point => exact absurd rfl (hbank point)
      have hsetup : tcb'.environment ≠ .bankOperation .setup := by
        intro h
        apply hfunc
        rw [← hkept, ← hlater, h]
        rfl
      obtain ⟨horder', hpaid⟩ := horder.stretch_other hstretch (hnotOwner hnot) hlock hsetup
        (by simp [hc])
      rw [hcall, hunlock, List.append_nil, List.append_nil, ← hc]
      refine ⟨owner, horder', ?_⟩
      rw [hpaid]
      exact haccounts.other hstretch (henv ▸ hbank _)
  | acquire hfree =>
      obtain rfl := horder.owner_none halive.core.books hids hfree
      have hnone : s.threads.waiting = [] := by
        by_contra hwaiting
        exact hheld hwaiting (by simp) hfree
      have hunpaid : t.threads.paid (some p) = [] := by
        rw [Threads.paid_some hnow, hlater]
        rfl
      rw [hcall p, hunlock p, List.append_nil, ← hc]
      refine ⟨some p, ?_, ?_⟩
      · apply horder.stretch_call hstretch henv (by simp [hlater]) hcreated
        · simp [hnone, hc]
        · intro q hq
          obtain rfl : p = q := Option.some.inj hq
          exact ⟨tcb', hnow, hsame.trans hlock.symm, by rw [hlater]; rfl⟩
        · simp
      · rw [hunpaid]
        exact haccounts.other hstretch (by simp [henv])
  | block hfree =>
      have hother := hnotOwner rfl
      have hkept : ∀ q, owner = some q → t.threads.tcbs q = s.threads.tcbs q := by
        rintro q rfl
        rw [hstretch.segment.tcbs, Function.update_of_ne]
        rintro rfl
        exact hother rfl
      rw [hcall p, hunlock p, List.append_nil, ← hc]
      refine ⟨owner, ?_, ?_⟩
      · apply horder.stretch_call hstretch henv (by simp [hlater]) hcreated
        · simp [hc]
        · intro q hq
          rw [hkept q hq, hlock]
          exact horder.owns q hq
        · intro hnone
          exact hlock.trans (horder.free hnone)
      · rw [Threads.paid_congr hkept]
        exact haccounts.other hstretch (by simp [henv])
  | granted =>
      obtain ⟨howner, -⟩ := howns rfl
      have horder' := horder.stretch_owner hstretch howner hlock (by rw [hlater]; rfl)
        (by simp [hc])
      subst howner
      rw [← hc]
      refine ⟨some p, by simpa [lockCalls, unlockCalls, passed] using horder', ?_⟩
      rw [Threads.paid_some hbefore, henv] at haccounts
      rw [Threads.paid_some hnow, hlater]
      simpa [unlockCalls, passed] using haccounts.other hstretch (by simp [henv])
  | transfer =>
      obtain ⟨howner, -⟩ := howns rfl
      have horder' := horder.stretch_owner hstretch howner hlock (by rw [hlater]; rfl)
        (by simp [hc])
      subst howner
      rw [← hc]
      refine ⟨some p, by simpa [lockCalls, unlockCalls, passed] using horder', ?_⟩
      rw [Threads.paid_some hbefore, henv] at haccounts
      rw [Threads.paid_some hnow, hlater]
      have hpaid := haccounts.transfer hstretch henv hcreated
      simpa [unlockCalls, passed] using hpaid
  | release =>
      obtain ⟨howner, hid⟩ := howns rfl
      have hfree : t.threads.lockOwner = -1 := by
        rw [hlock]
        exact if_pos hid.symm
      have horder' := horder.stretch_release hstretch howner hfree (by simp [hlater])
        (by simp [hc])
      subst howner
      rw [← hc]
      refine ⟨none, by simpa [lockCalls, unlockCalls, passed] using horder', ?_⟩
      rw [Threads.paid_some hbefore, henv] at haccounts
      have haccounts' := haccounts.other hstretch (by simp [henv])
      simpa [unlockCalls, passed, Threads.paid] using haccounts'

/-- The order of the calls and the account book at one point of a run. -/
def Orderly (specs : List Spec) (s : State) (log : List (Nat × Environment)) : Prop :=
  ∃ owner, InOrder specs s.threads s.control (lockCalls log) (unlockCalls log) owner ∧
    Accounted specs s.threads (unlockCalls log ++ s.threads.paid owner)

/-- Control moves on, and the threads stay as they are but for a line of the handler. -/
theorem Orderly.move {log : List (Nat × Environment)} (horderly : Orderly specs s log)
    (hquiet : Threads.Quiet s.threads t.threads)
    (hthreads : t.threads = s.threads ∨ ∃ line, t.threads = s.threads.print line)
    (hc : s.control ≠ .scheduler 2) (hc' : t.control ≠ .scheduler 2) : Orderly specs t log := by
  obtain ⟨owner, horder, haccounts⟩ := horderly
  have hsame : t.threads.waiting = s.threads.waiting ∧
      t.threads.lockOwner = s.threads.lockOwner ∧ t.threads.tcbs = s.threads.tcbs := by
    rcases hthreads with heq | ⟨line, heq⟩ <;> rw [heq] <;> exact ⟨rfl, rfl, rfl⟩
  obtain ⟨hwaiting, hlock, htcbs⟩ := hsame
  have hpaid : t.threads.paid owner = s.threads.paid owner :=
    Threads.paid_congr fun _ _ => by rw [htcbs]
  refine ⟨owner, horder.frame hwaiting hlock htcbs hc hc', ?_⟩
  rw [hpaid]
  exact haccounts.quiet hquiet

theorem Orderly.step {log : List (Nat × Environment)} (horderly : Orderly specs s log)
    (hids : ValidIds specs) (hreach : (threading id specs).ReachableBy TakenInYield s)
    {action : Action} (htaken : TakenInYield s action) (hstep : s.step id action = some t) :
    Orderly specs t (log ++ s.stretch action) := by
  rcases step_stretch hids hreach hstep with
    ⟨halive, hserial, rfl, p, tcb, tcb', hstretch⟩ | ⟨hbody, hquiet⟩
  · obtain ⟨owner, horder, haccounts⟩ := horderly
    obtain ⟨owner', horder', haccounts'⟩ :=
      horder.stretch haccounts halive hserial hids hstretch
    refine ⟨owner', ?_⟩
    rw [hstretch.stretch_eq]
    simp only [lockCalls, unlockCalls, passed, List.filterMap_append] at horder' haccounts' ⊢
    exact ⟨horder', haccounts'⟩
  · rw [State.stretch_eq_nil hbody, List.append_nil]
    cases action with
    | arrive sig =>
        obtain rfl := Option.some.inj hstep
        rcases s.arrive_cases sig with ⟨hthreads, heq | ⟨hmask, heq⟩⟩
        · unfold Orderly
          rw [hthreads, heq]
          exact horderly
        · refine horderly.move hquiet (.inl hthreads) (fun hc => ?_) (by simp [heq])
          exact Control.not_leaving_of_inYield (htaken hmask) (.inl hc)
    | tick =>
        cases State.tick_ticks hstep with
        | schedule rtv next hc hschedule hthreads hcontrol =>
            obtain ⟨owner, horder, haccounts⟩ := horderly
            have hnext : ∃ owner', InOrder specs t.threads t.control (lockCalls log)
                (unlockCalls log) owner' ∧ t.threads.paid owner' = s.threads.paid owner := by
              rw [hthreads, hcontrol]
              rw [hc] at horder
              rcases reachable_sound hids hreach with ⟨halive, hserial⟩ | ⟨-, hfinished⟩
              · have hcore := halive.core
                have hle := halive.entry rtv hc
                rw [hc] at hcore hserial
                exact horder.schedule hcore hserial hids hle hschedule
              · obtain rfl : rtv = 0 := by
                  rcases hfinished with h | h
                  · exact (Control.scheduler.inj (h.symm.trans hc)).symm
                  · cases h.symm.trans hc
                obtain rfl := Option.some.inj hschedule
                exact ⟨owner, horder.frame rfl rfl rfl (by simp) (by simp), rfl⟩
            obtain ⟨owner', horder', hpaid⟩ := hnext
            refine ⟨owner', horder', ?_⟩
            rw [hpaid]
            exact haccounts.quiet hquiet
        | resume tcb hc _ hthreads hcontrol =>
            apply horderly.move hquiet (.inl hthreads) (by simp [hc])
            rw [hcontrol]
            split <;> simp
        | body next hc => exact absurd hc (hbody rfl)
        | yield hc hthreads hcontrol =>
            refine horderly.move hquiet hthreads (fun h => ?_) (fun h => ?_)
            · exact Control.not_leaving_of_inYield hc (.inl h)
            · simp [h, Control.inYield] at hcontrol

theorem init_orderly (specs : List Spec) : Orderly specs (State.init specs) [] := by
  obtain ⟨-, -, -, hwaiting, hlock, -⟩ := Threads.foldl_threadCreate specs
  change (State.init specs).threads.waiting = [] at hwaiting
  change (State.init specs).threads.lockOwner = -1 at hlock
  obtain ⟨houtput, hbalance⟩ := init_output specs
  refine ⟨none, ⟨?_, List.nodup_nil, by simp, fun _ => hlock, by simp [lockCalls, passed],
    by simp [lockCalls, passed]⟩, ?_, hbalance⟩
  · rw [hwaiting]
    rfl
  · rw [Threads.transfers, houtput]
    simp [List.filter_eq_nil_iff, operations, unlockCalls, passed, Threads.paid, statement]

/-- Whatever signals are taken inside `thread_yield`, the transfers are those of a
sequential bank that serves the threads in the order in which they called `lock()`: at
most once each, and each thread that has called `unlock()` has been served. -/
theorem transfers_in_lock_order (hids : ValidIds specs) {actions : List Action}
    (htaken : (threading id specs).Meets TakenInYield (State.init specs) actions)
    (hrun : (threading id specs).run (State.init specs) actions = some s) :
    (lockCalls (stretches id specs actions)).Nodup ∧
      (∀ p ∈ lockCalls (stretches id specs actions),
        ∃ spec, specs[p]? = some spec ∧ spec.func = .bankOperation) ∧
      ∃ served, served <+: lockCalls (stretches id specs actions) ∧
        s.threads.transfers = statement 500 (operations specs served) ∧
        s.threads.balance = settled 500 (operations specs served) ∧
        ∀ p ∈ unlockCalls (stretches id specs actions), p ∈ served := by
  have hboth : (threading id specs).ReachableBy TakenInYield s ∧
      Orderly specs s (stretches id specs actions) := by
    refine TransitionSystem.trace_invariant State.stretch
      (fun s log => (threading id specs).ReachableBy TakenInYield s ∧ Orderly specs s log)
      ?_ ?_ htaken hrun
    · rintro s action t log ⟨hreach, horderly⟩ htaken hstep
      exact ⟨.step hreach htaken hstep, horderly.step hids hreach htaken hstep⟩
    · exact ⟨.start rfl, init_orderly specs⟩
  obtain ⟨-, owner, horder, haccounts⟩ := hboth
  refine ⟨horder.nodup, horder.created, _, ?_, haccounts.printed, haccounts.balance,
    fun p hp => List.mem_append_left _ hp⟩
  -- the owner is the next in the order, whether it has been served or not
  have hprefix : (unlockCalls (stretches id specs actions) ++ s.threads.paid owner).map some <+:
      (lockCalls (stretches id specs actions)).map some := by
    rw [horder.calls_eq, List.map_append, List.append_assoc, List.append_assoc,
      List.prefix_append_right_inj]
    exact ((s.threads.paid_prefix owner).map some).trans (List.prefix_append _ _)
  exact (List.prefix_map_iff_of_injective fun _ _ => Option.some.inj).mp hprefix

namespace TwoBankThreads

/-- The run goes on until the first thread has called `unlock()`. -/
def released : List Action := .arrive .tstp :: List.replicate 17 .tick

def stateAfter : State :=
  ((threading id threads).run (State.init threads) released).getD (State.init threads)

example : stateAfter.threads.transfers = [.transfer 2 500 600] := by decide

end TwoBankThreads

theorem transfers_in_lock_order_two_bank_threads :
    ∃ served, served <+: [0, 1] ∧ 0 ∈ served ∧
      TwoBankThreads.stateAfter.threads.transfers =
        statement 500 (operations TwoBankThreads.threads served) := by
  have htaken : (threading id TwoBankThreads.threads).Meets TakenInYield
      (State.init TwoBankThreads.threads) TwoBankThreads.released :=
    ⟨fun hmask => absurd hmask (by decide), fun next _ => meets_ticks next 17⟩
  obtain ⟨-, -, served, hprefix, htransfers, -, hunlocked⟩ :=
    transfers_in_lock_order (s := TwoBankThreads.stateAfter) ⟨by decide, by decide⟩ htaken rfl
  exact ⟨served, hprefix, hunlocked 0 (by decide), htransfers⟩

end Scheduler

end SystemsProgramming
