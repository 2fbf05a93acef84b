/-
The account of the two queues, for any ids: between them they hold the threads that
are left, once each, and a lock that is taken is held by a thread of the ready queue.
This is what keeps `RUNNING` valid at every entry of the scheduler but the last.
-/
import SystemsProgramming.Scheduler.Queues

namespace SystemsProgramming

namespace Scheduler

variable {specs : List Spec} {th th' : Threads} {c c' : Control} {gone : List Nat}
  {p : Nat} {tcb tcb' : Tcb}

/-- The queues hold the threads of `specs` that are not `gone`. -/
structure Books (specs : List Spec) (th : Threads) (gone : List Nat) : Prop where
  nodup : th.members.Nodup
  members : ∀ cell, cell ∈ th.members ↔ ∃ p tcb, cell = some p ∧ th.tcbs p = some tcb
  census : ∀ p, (∃ tcb, th.tcbs p = some tcb) ↔ p < specs.length ∧ p ∉ gone
  created : ∀ p tcb, th.tcbs p = some tcb →
    specs[p]? = some ⟨tcb.environment.func, tcb.id, tcb.arg⟩

namespace Books

theorem of_perm (hbooks : Books specs th gone) (hperm : th.members.Perm th'.members)
    (htcbs : th'.tcbs = th.tcbs) : Books specs th' gone where
  nodup := hperm.nodup_iff.mp hbooks.nodup
  members cell := by
    rw [htcbs, ← hperm.mem_iff]
    exact hbooks.members cell
  census := by
    rw [htcbs]
    exact hbooks.census
  created := by
    rw [htcbs]
    exact hbooks.created

theorem mem_or_mem (hbooks : Books specs th gone) (hstored : th.tcbs p = some tcb) :
    some p ∈ th.ready ∨ some p ∈ th.waiting :=
  List.mem_append.mp ((hbooks.members _).mpr ⟨p, tcb, rfl, hstored⟩)

theorem stored_of_waiting (hbooks : Books specs th gone) (hwaiting : some p ∈ th.waiting) :
    ∃ tcb, th.tcbs p = some tcb := by
  obtain ⟨_, tcb, heq, hstored⟩ := (hbooks.members _).mp (List.mem_append_right _ hwaiting)
  cases heq
  exact ⟨tcb, hstored⟩

theorem not_waiting (hbooks : Books specs th gone) (hready : some p ∈ th.ready) :
    some p ∉ th.waiting := by
  intro hwaiting
  have hdisjoint := (List.nodup_append.mp hbooks.nodup).2.2
  exact hdisjoint _ hready _ hwaiting rfl

theorem stored_running (hbooks : Books specs th gone) (hcurrent : th.rqCurrent < th.rqSize) :
    ∃ p tcb, th.running = some p ∧ th.tcbs p = some tcb :=
  (hbooks.members _).mp (List.mem_append_left _ (Threads.running_mem_ready hcurrent))

/-- A stretch of a thread function changes what is stored for its own thread. -/
theorem store (hbooks : Books specs th gone) (hstored : th.tcbs p = some tcb)
    (hmembers : th'.members = th.members)
    (htcbs : th'.tcbs = Function.update th.tcbs p (some tcb'))
    (hsame : tcb'.environment.func = tcb.environment.func ∧ tcb'.id = tcb.id ∧
      tcb'.arg = tcb.arg) : Books specs th' gone := by
  have hlive : ∀ q, (∃ tcb, th'.tcbs q = some tcb) ↔ ∃ tcb, th.tcbs q = some tcb := by
    intro q
    rw [htcbs]
    by_cases heq : q = p
    · subst heq
      simp [hstored]
    · rw [Function.update_of_ne heq]
  constructor
  · rw [hmembers]
    exact hbooks.nodup
  · intro cell
    rw [hmembers, hbooks.members]
    apply exists_congr
    intro q
    simp only [exists_and_left, hlive q]
  · intro q
    rw [hlive, hbooks.census]
  · intro q other hother
    rw [htcbs] at hother
    by_cases heq : q = p
    · subst heq
      rw [Function.update_self] at hother
      cases hother
      rw [hsame.1, hsame.2.1, hsame.2.2]
      exact hbooks.created q tcb hstored
    · rw [Function.update_of_ne heq] at hother
      exact hbooks.created q other hother

/-- The removal of the thread `p`. -/
theorem reap (hbooks : Books specs th gone) (hperm : th.ready.Perm (some p :: th'.ready))
    (hwaiting : th'.waiting = th.waiting) (htcbs : th'.tcbs = Function.update th.tcbs p none) :
    Books specs th' (gone ++ [p]) := by
  have hmembers : th.members.Perm (some p :: th'.members) := by
    unfold Threads.members
    rw [hwaiting]
    exact hperm.append_right _
  have hnodup := List.nodup_cons.mp (hmembers.nodup_iff.mp hbooks.nodup)
  have hlive : ∀ q tcb, th'.tcbs q = some tcb ↔ q ≠ p ∧ th.tcbs q = some tcb := by
    intro q tcb
    rw [htcbs]
    by_cases heq : q = p
    · simp [heq]
    · simp [heq]
  constructor
  · exact hnodup.2
  · intro cell
    have hold := hbooks.members cell
    rw [hmembers.mem_iff, List.mem_cons] at hold
    constructor
    · intro hcell
      obtain ⟨q, tcb, rfl, hstored⟩ := hold.mp (.inr hcell)
      refine ⟨q, tcb, rfl, (hlive q tcb).mpr ⟨?_, hstored⟩⟩
      rintro rfl
      exact hnodup.1 hcell
    · rintro ⟨q, tcb, rfl, hstored⟩
      obtain ⟨hne, hstored⟩ := (hlive q tcb).mp hstored
      rcases hold.mpr ⟨q, tcb, rfl, hstored⟩ with heq | hcell
      · exact absurd (Option.some.inj heq) hne
      · exact hcell
  · intro q
    simp only [hlive, exists_and_left, hbooks.census q, List.mem_append, List.mem_singleton]
    tauto
  · intro q tcb hstored
    exact hbooks.created q tcb ((hlive q tcb).mp hstored).2

end Books

/-- The running thread is about to leave the ready queue. -/
def Leaving (c : Control) : Prop := c = .scheduler 2 ∨ c = .scheduler 3

namespace Ends

variable {id owner owner' : Int} {environment later : Environment}

/-- A lock that is taken after a stretch was taken before it, and then its holder is
still there, or it has just been taken. -/
theorem holder (hends : Ends id owner environment later owner' c) (howner : owner' ≠ -1) :
    (owner' = owner ∧ (environment.isPastTest = true → id = owner →
      later.isPastTest = true ∧ ¬ Leaving c)) ∨
    (owner' = id ∧ later.isPastTest = true ∧ ¬ Leaving c) := by
  cases hends with
  | round hfunc =>
      refine .inl ⟨rfl, fun hpast => ?_⟩
      cases environment <;> simp_all [Environment.func, Environment.isPastTest]
  | last hfunc =>
      refine .inl ⟨rfl, fun hpast => ?_⟩
      cases environment <;> simp_all [Environment.func, Environment.isPastTest]
  | acquire => exact .inr ⟨rfl, rfl, by simp [Leaving]⟩
  | block => exact .inl ⟨rfl, fun hpast => by simp [Environment.isPastTest] at hpast⟩
  | granted => exact .inl ⟨rfl, fun _ _ => ⟨rfl, by simp [Leaving]⟩⟩
  | transfer => exact .inl ⟨rfl, fun _ _ => ⟨rfl, by simp [Leaving]⟩⟩
  | release =>
      by_cases hid : owner = id
      · simp [hid] at howner
      · exact .inl ⟨if_neg hid, fun _ heq => absurd heq.symm hid⟩

theorem blocks (hends : Ends id owner environment later owner' c) (hc : c = .scheduler 2) :
    owner' ≠ -1 ∧ later = .bankOperation .lock := by
  cases hends with
  | block hheld => exact ⟨hheld, rfl⟩
  | _ => simp at hc

end Ends

/-- The threads that `scheduler` has removed: at an entry by `thread_exit` the last
one to call it is still in the ready queue. -/
def Threads.reaped (th : Threads) (c : Control) : List Nat :=
  if c = .scheduler 3 then th.exited.dropLast else th.exited

/-- What holds as long as a thread is left. -/
structure Core (specs : List Spec) (th : Threads) (c : Control) : Prop where
  books : Books specs th (th.reaped c)
  current : th.rqCurrent < th.rqSize
  waits : ∀ p tcb, some p ∈ th.waiting → th.tcbs p = some tcb →
    tcb.environment = .bankOperation .lock
  holder : th.lockOwner ≠ -1 → ∃ p tcb, some p ∈ th.ready ∧ th.tcbs p = some tcb ∧
    tcb.environment.isPastTest = true ∧ tcb.id = th.lockOwner ∧
    (Leaving c → th.running ≠ some p)
  blocks : c = .scheduler 2 → th.lockOwner ≠ -1 ∧ ∀ p tcb, th.running = some p →
    th.tcbs p = some tcb → tcb.environment = .bankOperation .lock
  exits : c = .scheduler 3 → ∃ p before, th.running = some p ∧ th.exited = before ++ [p]

/-- Every thread has exited. -/
structure Drained (specs : List Spec) (th : Threads) : Prop where
  empty : th.rqSize = 0 ∧ th.wqSize = 0
  freed : ∀ p, th.tcbs p = none
  exited : ∀ p < specs.length, p ∈ th.exited

namespace Core

/-- Control moves on without an effect on the threads. -/
theorem move (hcore : Core specs th c) (hc : ¬ Leaving c) (hc' : ¬ Leaving c') :
    Core specs th c' where
  books := by
    have heq : th.reaped c' = th.reaped c := by
      have h3 : c ≠ .scheduler 3 := fun h => hc (.inr h)
      have h3' : c' ≠ .scheduler 3 := fun h => hc' (.inr h)
      simp [Threads.reaped, h3, h3']
    rw [heq]
    exact hcore.books
  current := hcore.current
  waits := hcore.waits
  holder howner := by
    obtain ⟨p, tcb, hready, hstored, hpast, hid, -⟩ := hcore.holder howner
    exact ⟨p, tcb, hready, hstored, hpast, hid, fun h => absurd h hc'⟩
  blocks h := absurd (.inl h) hc'
  exits h := absurd (.inr h) hc'

theorem print (hcore : Core specs th c) (line : Line) : Core specs (th.print line) c :=
  ⟨hcore.books.of_perm (List.Perm.refl _) rfl, hcore.current, hcore.waits, hcore.holder,
    hcore.blocks, hcore.exits⟩

/-- The choice of another thread of the ready queue. -/
theorem choose (hcore : Core specs th c) (hc : ¬ Leaving c) {i : Nat} (hi : i < th.rqSize) :
    Core specs { th with rqCurrent := i } c where
  books := hcore.books.of_perm (List.Perm.refl _) rfl
  current := hi
  waits := hcore.waits
  holder howner := by
    obtain ⟨p, tcb, hready, hstored, hpast, hid, -⟩ := hcore.holder howner
    exact ⟨p, tcb, hready, hstored, hpast, hid, fun h => absurd h hc⟩
  blocks h := absurd (.inl h) hc
  exits h := absurd (.inr h) hc

theorem promote (hcore : Core specs th c) (hpromote : Threads.Promoted th p tcb th') :
    Core specs th' c := by
  obtain ⟨htcbs, hcurrent, hexited, hsize⟩ := hpromote.rest
  have hreaped : th'.reaped c = th.reaped c := by
    simp only [Threads.reaped, hexited]
  have hwaiting : some p ∈ th.waiting := by
    rw [hpromote.first]
    exact List.mem_cons_self
  have hrunning := hpromote.running hcore.current
  constructor
  · rw [hreaped]
    apply hcore.books.of_perm _ htcbs
    unfold Threads.members
    rw [hpromote.ready, hpromote.first, List.append_assoc]
    exact List.Perm.refl _
  · have hlt := hcore.current
    omega
  · intro q other hq hother
    rw [htcbs] at hother
    apply hcore.waits q other _ hother
    rw [hpromote.first]
    exact List.mem_cons_of_mem _ hq
  · intro _
    have hpast := hcore.waits p tcb hwaiting hpromote.stored
    refine ⟨p, tcb, ?_, ?_, ?_, hpromote.owner.symm, fun _ hsame => ?_⟩
    · simp [hpromote.ready]
    · rw [htcbs]
      exact hpromote.stored
    · rw [hpast]
      rfl
    · -- a waiting thread is not the running one
      rw [hrunning] at hsame
      have hready := Threads.running_mem_ready hcore.current
      rw [hsame] at hready
      exact hcore.books.not_waiting hready hwaiting
  · intro hc
    exact absurd hpromote.free (hcore.blocks hc).1
  · intro hc
    rw [hrunning, hexited]
    exact hcore.exits hc

theorem block (hcore : Core specs th (.scheduler 2)) : Core specs th.block .resume := by
  obtain ⟨p, tcb, hrunning, hstored⟩ := hcore.books.stored_running hcore.current
  obtain ⟨hleft, hwaiting, htcbs⟩ := Threads.block_left hcore.current hrunning
  obtain ⟨howner, hexited⟩ := hleft.rest
  obtain ⟨hheld, hlock⟩ := hcore.blocks rfl
  -- the holder stays behind, so the ready queue is not empty
  have hholder : ∃ q other, some q ∈ th.block.ready ∧ th.block.tcbs q = some other ∧
      other.environment.isPastTest = true ∧ other.id = th.block.lockOwner := by
    obtain ⟨q, other, hready, hother, hpast, hid, hne⟩ := hcore.holder hheld
    refine ⟨q, other, ?_, ?_, hpast, ?_⟩
    · rw [hleft.perm.mem_iff, List.mem_cons] at hready
      apply hready.resolve_left
      intro heq
      exact hne (.inl rfl) (hrunning.trans heq.symm)
    · rw [htcbs]
      exact hother
    · rw [howner]
      exact hid
  constructor
  · have hreaped : th.block.reaped .resume = th.reaped (.scheduler 2) := hexited
    rw [hreaped]
    apply hcore.books.of_perm _ htcbs
    unfold Threads.members
    rw [hwaiting]
    refine (hleft.perm.append_right _).trans ?_
    rw [← List.append_assoc]
    exact (List.perm_append_singleton _ _).symm
  · apply hleft.current
    obtain ⟨q, _, hready, _⟩ := hholder
    exact List.ne_nil_of_mem hready
  · intro q other hq hother
    rw [htcbs] at hother
    rw [hwaiting, List.mem_append, List.mem_singleton] at hq
    rcases hq with hold | heq
    · exact hcore.waits q other hold hother
    · exact hlock q other (hrunning.trans heq.symm) hother
  · intro _
    obtain ⟨q, other, hready, hother, hpast, hid⟩ := hholder
    refine ⟨q, other, hready, hother, hpast, hid, fun h => ?_⟩
    simp [Leaving] at h
  · simp
  · simp

/-- After an exit the scheduler has a thread to resume or every thread has exited. -/
theorem reap (hcore : Core specs th (.scheduler 3)) :
    (1 < th.rqSize → Core specs th.reap .resume) ∧
      (th.rqSize ≤ 1 → (th.lockOwner = -1 → th.waiting = []) → Drained specs th.reap) := by
  obtain ⟨p, before, hrunning, hexits⟩ := hcore.exits rfl
  obtain ⟨hleft, hwaiting, htcbs⟩ := Threads.reap_left hcore.current hrunning
  obtain ⟨howner, hexited⟩ := hleft.rest
  have hlength : th.rqSize = th.reap.rqSize + 1 := by
    rw [← Threads.length_ready, ← Threads.length_ready, hleft.perm.length_eq]
    rfl
  have hreaped : th.reap.exited = th.reaped (.scheduler 3) ++ [p] := by
    simp [Threads.reaped, hexited, hexits]
  have hbooks : Books specs th.reap th.reap.exited := by
    rw [hreaped]
    exact hcore.books.reap hleft.perm hwaiting htcbs
  have hholder : th.lockOwner ≠ -1 → ∃ q other, some q ∈ th.reap.ready ∧
      th.reap.tcbs q = some other ∧ other.environment.isPastTest = true ∧
      other.id = th.lockOwner := by
    intro hheld
    obtain ⟨q, other, hready, hother, hpast, hid, hne⟩ := hcore.holder hheld
    have hqp : q ≠ p := by
      rintro rfl
      exact hne (.inr rfl) hrunning
    refine ⟨q, other, ?_, ?_, hpast, hid⟩
    · rw [hleft.perm.mem_iff, List.mem_cons] at hready
      exact hready.resolve_left fun heq => hqp (Option.some.inj heq)
    · rw [htcbs, Function.update_of_ne hqp]
      exact hother
  constructor
  · intro hmore
    constructor
    · exact hbooks
    · apply hleft.current
      apply List.ne_nil_of_length_pos
      rw [Threads.length_ready]
      omega
    · intro q other hq hother
      rw [hwaiting] at hq
      rw [htcbs] at hother
      by_cases heq : q = p
      · simp [heq] at hother
      · rw [Function.update_of_ne heq] at hother
        exact hcore.waits q other hq hother
    · intro hheld
      rw [howner] at hheld
      obtain ⟨q, other, hready, hother, hpast, hid⟩ := hholder hheld
      refine ⟨q, other, hready, hother, hpast, hid.trans howner.symm, fun h => ?_⟩
      simp [Leaving] at h
    · simp
    · simp
  · intro hlast hfree
    have hready : th.reap.ready = [] := by
      apply List.eq_nil_of_length_eq_zero
      rw [Threads.length_ready]
      omega
    have hnone : th.waiting = [] := by
      apply hfree
      by_contra hheld
      obtain ⟨q, _, hmem, _⟩ := hholder hheld
      simp [hready] at hmem
    have hmembers : th.reap.members = [] := by
      simp [Threads.members, hready, hwaiting, hnone]
    have hfreed : ∀ q, th.reap.tcbs q = none := by
      intro q
      rw [Option.eq_none_iff_forall_ne_some]
      intro other hother
      have hmem := (hbooks.members _).mpr ⟨q, other, rfl, hother⟩
      simp [hmembers] at hmem
    refine ⟨⟨by omega, ?_⟩, hfreed, fun q hq => ?_⟩
    · rw [← Threads.length_waiting, hwaiting, hnone]
      rfl
    · by_contra hmem
      obtain ⟨other, hother⟩ := (hbooks.census q).mpr ⟨hq, hmem⟩
      simp [hfreed] at hother

end Core

/-- An entry of the scheduler that finds a thread to resume: the first one with a
thread created, and an entry by `thread_exit` of a thread that is not the last one. -/
def ThreadsRemain (th : Threads) (rtv : Nat) : Prop :=
  (rtv = 0 → 0 < th.rqSize) ∧ (rtv = 3 → ¬ (th.rqSize = 1 ∧ th.wqSize = 0))

/-- The promotion has what it reads. -/
theorem Core.promote_cases (hcore : Core specs th c) :
    ∃ th', th.promote = some th' ∧ ((th' = th ∧ (th.lockOwner = -1 → th.waiting = [])) ∨
      ∃ p tcb, Threads.Promoted th p tcb th') := by
  have hpromote : ∃ th', th.promote = some th' := by
    unfold Threads.promote
    split
    case isTrue hfree =>
        have hcell : th.waitingQueue 0 ∈ th.waiting := ArrayPrefix.cell_mem hfree.2
        obtain ⟨p, tcb, heq, hstored⟩ :=
          (hcore.books.members _).mp (List.mem_append_right _ hcell)
        simp [heq, hstored]
    case isFalse => exact ⟨th, rfl⟩
  obtain ⟨th', hpromote⟩ := hpromote
  exact ⟨th', hpromote, Threads.promote_cases hpromote⟩

/-- `scheduler` from an entry to its `longjmp`. -/
theorem Core.schedule {rtv : Nat} (hcore : Core specs th (.scheduler rtv)) (hle : rtv ≤ 3) :
    ∃ th', th.schedule rtv = some (th', .resume) ∧
      (ThreadsRemain th rtv → Core specs th' .resume) ∧
      (¬ ThreadsRemain th rtv → Drained specs th') := by
  obtain ⟨between, hpromote, hcases⟩ := hcore.promote_cases
  have hbetween : Core specs between (.scheduler rtv) := by
    rcases hcases with ⟨rfl, -⟩ | ⟨p, tcb, hpromoted⟩
    · exact hcore
    · exact hcore.promote hpromoted
  obtain hrtv | hrtv | hrtv | hrtv : rtv = 0 ∨ rtv = 1 ∨ rtv = 2 ∨ rtv = 3 := by omega
  · subst hrtv
    have hsize : 0 < th.rqSize := Nat.zero_lt_of_lt hcore.current
    refine ⟨{ th with rqCurrent := 0 }, rfl, fun _ => ?_, fun hnot => ?_⟩
    · apply (hcore.choose _ hsize).move <;> simp [Leaving]
    · exact absurd ⟨fun _ => hsize, by simp⟩ hnot
  · subst hrtv
    refine ⟨between.advance, by simp [Threads.schedule, hpromote], fun _ => ?_, fun hnot => ?_⟩
    · apply (hbetween.choose _ (Threads.advance_current hbetween.current)).move <;>
        simp [Leaving]
    · exact absurd ⟨by simp, by simp⟩ hnot
  · subst hrtv
    refine ⟨between.block, by simp [Threads.schedule, hpromote], fun _ => hbetween.block,
      fun hnot => ?_⟩
    exact absurd ⟨by simp, by simp⟩ hnot
  · subst hrtv
    -- one thread alone in the ready queue has no one to hand the lock to
    have hsizes : ThreadsRemain th 3 ↔ 1 < between.rqSize := by
      have hcurrent := hcore.current
      rcases hcases with ⟨rfl, hfree⟩ | ⟨p, tcb, hpromoted⟩
      · have hheld : between.rqSize = 1 → between.wqSize ≠ 0 → False := by
          intro hone hwaiting
          have hheld : between.lockOwner ≠ -1 := by
            intro howner
            apply hwaiting
            rw [← Threads.length_waiting, hfree howner]
            rfl
          obtain ⟨q, _, hready, _, _, _, hne⟩ := hcore.holder hheld
          have hrunning := Threads.running_mem_ready hcore.current
          obtain ⟨cell, hcell⟩ := List.length_eq_one_iff.mp
            ((Threads.length_ready between).trans hone)
          rw [hcell, List.mem_singleton] at hready hrunning
          exact hne (.inr rfl) (hrunning.trans hready.symm)
        unfold ThreadsRemain
        constructor
        · rintro ⟨-, hmore⟩
          by_contra hnot
          exact hheld (by omega) fun hzero => hmore rfl ⟨by omega, hzero⟩
        · intro hmore
          exact ⟨by simp, fun _ => by omega⟩
      · have hwaiting : 0 < th.wqSize := by
          rw [← Threads.length_waiting, hpromoted.first]
          exact Nat.succ_pos _
        have hsize := hpromoted.rest.2.2.2
        simp only [ThreadsRemain]
        constructor
        · intro _
          omega
        · intro _
          exact ⟨by simp, fun _ => by omega⟩
    refine ⟨between.reap, by simp [Threads.schedule, hpromote], fun hmore => ?_, fun hnot => ?_⟩
    · exact hbetween.reap.1 (hsizes.mp hmore)
    · rw [hsizes] at hnot
      apply hbetween.reap.2 (by omega)
      rcases hcases with ⟨rfl, hfree⟩ | ⟨p, tcb, hpromoted⟩
      · exact hfree
      · have hsize := hpromoted.rest.2.2.2
        have hcurrent := hcore.current
        omega

/-- The running thread from its resume point to the next. -/
theorem Core.segment (hcore : Core specs th .body) (hsegment : Segment th p tcb tcb' th' c) :
    Core specs th' c := by
  have hready : some p ∈ th.ready := by
    rw [← hsegment.running]
    exact Threads.running_mem_ready hcore.current
  have hself : th'.tcbs p = some tcb' := by
    rw [hsegment.tcbs, Function.update_self]
  have hothers : ∀ q, q ≠ p → th'.tcbs q = th.tcbs q := by
    intro q hq
    rw [hsegment.tcbs, Function.update_of_ne hq]
  have hends := hsegment.ends
  constructor
  · have hgone : th'.reaped c = th.exited := by
      unfold Threads.reaped
      rw [hsegment.exited]
      split <;> simp
    have hmembers : th'.members = th.members := by
      unfold Threads.members
      rw [hsegment.ready, hsegment.waiting]
    rw [hgone]
    exact hcore.books.store hsegment.stored hmembers hsegment.tcbs
      ⟨hends.func_eq, hsegment.same⟩
  · have hlength := congrArg List.length hsegment.ready
    rw [Threads.length_ready, Threads.length_ready] at hlength
    rw [hsegment.current, hlength]
    exact hcore.current
  · intro q other hq hother
    rw [hsegment.waiting] at hq
    have hne : q ≠ p := by
      rintro rfl
      exact hcore.books.not_waiting hready hq
    rw [hothers q hne] at hother
    exact hcore.waits q other hq hother
  · -- a holder other than the running thread is still there
    have hkeep : ∀ q other, q ≠ p → some q ∈ th.ready → th.tcbs q = some other →
        other.environment.isPastTest = true → other.id = th'.lockOwner →
        ∃ q other, some q ∈ th'.ready ∧ th'.tcbs q = some other ∧
          other.environment.isPastTest = true ∧ other.id = th'.lockOwner ∧
          (Leaving c → th'.running ≠ some q) := by
      intro q other hne hq hother hpast hid
      refine ⟨q, other, ?_, ?_, hpast, hid, fun _ heq => hne ?_⟩
      · rw [hsegment.ready]
        exact hq
      · rw [hothers q hne]
        exact hother
      · rw [hsegment.running_eq, hsegment.running] at heq
        exact (Option.some.inj heq).symm
    have hrunner : tcb'.environment.isPastTest = true → tcb'.id = th'.lockOwner →
        ¬ Leaving c → ∃ q other, some q ∈ th'.ready ∧ th'.tcbs q = some other ∧
          other.environment.isPastTest = true ∧ other.id = th'.lockOwner ∧
          (Leaving c → th'.running ≠ some q) := by
      intro hpast hid hstays
      refine ⟨p, tcb', ?_, hself, hpast, hid, fun h => absurd h hstays⟩
      rw [hsegment.ready]
      exact hready
    intro howner
    rcases hends.holder howner with ⟨heq, hkept⟩ | ⟨hid, hpast, hstays⟩
    · obtain ⟨q, other, hq, hother, hpast, hid, -⟩ := hcore.holder (heq ▸ howner)
      rw [← heq] at hid
      by_cases hne : q = p
      · subst hne
        cases hsegment.stored.symm.trans hother
        obtain ⟨hpast, hstays⟩ := hkept hpast (hid.trans heq)
        exact hrunner hpast (hsegment.same.1.trans hid) hstays
      · exact hkeep q other hne hq hother hpast hid
    · exact hrunner hpast (hsegment.same.1.trans hid.symm) hstays
  · intro hc
    obtain ⟨hheld, hlock⟩ := hends.blocks hc
    refine ⟨hheld, fun q other hq hother => ?_⟩
    rw [hsegment.running_eq, hsegment.running] at hq
    cases hq
    cases hself.symm.trans hother
    exact hlock
  · intro hc
    refine ⟨p, th.exited, ?_, ?_⟩
    · rw [hsegment.running_eq, hsegment.running]
    · rw [hsegment.exited, if_pos hc]

end Scheduler

end SystemsProgramming
