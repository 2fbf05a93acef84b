/-
The account of the lock for threads with distinct ids of zero or more.  Then `-1`
stands for a free lock only, the threads past `lock()` are serial, and the promotion
in `scheduler` never comes too late.
-/
import SystemsProgramming.Scheduler.Entries

namespace SystemsProgramming

namespace Scheduler

variable {specs : List Spec} {wrap : Arith} {s t : State} {th th' : Threads} {c c' : Control}
  {p q : Nat} {tcb tcb' : Tcb}

/-- Distinct ids, none of them negative. -/
structure ValidIds (specs : List Spec) : Prop where
  distinct : (specs.map Spec.id).Nodup
  nonneg : ∀ spec ∈ specs, 0 ≤ spec.id

theorem Books.id_nonneg {gone : List Nat} (hbooks : Books specs th gone)
    (hids : ValidIds specs) (hstored : th.tcbs p = some tcb) : 0 ≤ tcb.id :=
  hids.nonneg _ (List.mem_of_getElem? (hbooks.created p tcb hstored))

theorem Books.id_inj {gone : List Nat} (hbooks : Books specs th gone)
    (hids : ValidIds specs) (hp : th.tcbs p = some tcb) (hq : th.tcbs q = some tcb')
    (heq : tcb.id = tcb'.id) : p = q := by
  have hspec := hbooks.created p tcb hp
  have hspec' := hbooks.created q tcb' hq
  have hlt := (List.getElem?_eq_some_iff.mp hspec).1
  apply (List.getElem?_inj (by simpa using hlt) hids.distinct).mp
  rw [List.getElem?_map, List.getElem?_map, hspec, hspec', Option.map_some, Option.map_some,
    heq]

/-- The lock protocol, at any place of control. -/
structure Serial (th : Threads) (c : Control) : Prop where
  /-- Only the owner of the lock is past the test in `lock()` and in the ready queue. -/
  owns : ∀ p tcb, th.tcbs p = some tcb → some p ∈ th.ready →
    tcb.environment.isPastTest = true → (Leaving c → th.running ≠ some p) →
    tcb.id = th.lockOwner
  /-- A thread waits for an owner, or for the thread that is about to be reaped. -/
  held : th.waiting ≠ [] → c ≠ .scheduler 3 → th.lockOwner ≠ -1
  /-- A thread that has been handed the lock runs at once. -/
  handed : ∀ p tcb, th.tcbs p = some tcb → some p ∈ th.ready →
    tcb.environment = .bankOperation .lock →
    th.running = some p ∧ (c = .scheduler 2 ∨ c = .resume ∨ c = .body)

namespace Ends

variable {id owner owner' : Int} {environment later : Environment}

theorem owner_cases (hends : Ends id owner environment later owner' c) :
    owner' = owner ∨ (owner = -1 ∧ owner' = id) ∨
      (owner = id ∧ owner' = -1 ∧ c = .scheduler 3) := by
  cases hends with
  | acquire hfree => exact .inr (.inl ⟨hfree, rfl⟩)
  | release =>
      by_cases hid : owner = id
      · exact .inr (.inr ⟨hid, if_pos hid, rfl⟩)
      · exact .inl (if_neg hid)
  | _ => exact .inl rfl

/-- A thread that goes on past the test has just got the lock or was past it before. -/
theorem owns (hends : Ends id owner environment later owner' c)
    (hpast : later.isPastTest = true) (hstays : ¬ Leaving c) :
    owner' = id ∨ (owner' = owner ∧ environment.isPastTest = true) := by
  cases hends with
  | round hfunc hlater =>
      rw [← hlater] at hfunc
      cases later <;> simp [Environment.func, Environment.isPastTest] at hfunc hpast
  | last => simp [Leaving] at hstays
  | acquire => exact .inl rfl
  | block => simp [Leaving] at hstays
  | granted | transfer => exact .inr ⟨rfl, rfl⟩
  | release => simp [Leaving] at hstays

theorem at_lock (hends : Ends id owner environment later owner' c)
    (hlock : later = .bankOperation .lock) : c = .scheduler 2 := by
  cases hends with
  | round hfunc hlater =>
      rw [← hlater, hlock] at hfunc
      exact absurd rfl hfunc
  | last hfunc =>
      rw [hlock] at hfunc
      exact absurd rfl hfunc
  | block => rfl
  | _ => simp at hlock

end Ends

namespace Threads

/-- Who stays in the ready queue when `p` leaves it. -/
theorem Left.mem (hleft : Left th p th') (hnodup : th.members.Nodup)
    (hq : some q ∈ th'.ready) : some q ∈ th.ready ∧ q ≠ p := by
  have hready := (List.nodup_append.mp hnodup).1
  have hfresh := (List.nodup_cons.mp (hleft.perm.nodup_iff.mp hready)).1
  constructor
  · exact hleft.perm.mem_iff.mpr (List.mem_cons_of_mem _ hq)
  · rintro rfl
    exact hfresh hq

end Threads

namespace Serial

/-- The return of `setjmp` in the thread that is resumed. -/
theorem resume (hserial : Serial th .resume) {next : Control}
    (hnext : ∀ p tcb, th.running = some p → th.tcbs p = some tcb →
      tcb.environment = .bankOperation .lock → next = .body) : Serial th next where
  owns p tcb hstored hready hpast _ :=
    hserial.owns p tcb hstored hready hpast fun h => by simp [Leaving] at h
  held hwaiting _ := hserial.held hwaiting (by simp)
  handed p tcb hstored hready henv := by
    have hrunning := (hserial.handed p tcb hstored hready henv).1
    exact ⟨hrunning, .inr (.inr (hnext p tcb hrunning hstored henv))⟩

theorem print (hserial : Serial th c) (line : Line) : Serial (th.print line) c :=
  ⟨hserial.owns, hserial.held, hserial.handed⟩

/-- The choice of a thread of the ready queue, none of which stands in `lock()`. -/
theorem choose (hserial : Serial th c) (hc : ¬ Leaving c) (hresume : c ≠ .resume)
    (hbody : c ≠ .body) (i : Nat) (next : Control) :
    Serial { th with rqCurrent := i } next where
  owns p tcb hstored hready hpast _ :=
    hserial.owns p tcb hstored hready hpast fun h => absurd h hc
  held hwaiting _ := hserial.held hwaiting fun h => hc (.inr h)
  handed p tcb hstored hready henv := by
    rcases hserial.handed p tcb hstored hready henv with ⟨-, h | h | h⟩
    · exact absurd (.inl h) hc
    · exact absurd h hresume
    · exact absurd h hbody

theorem block (hserial : Serial th (.scheduler 2)) (hcore : Core specs th (.scheduler 2)) :
    Serial th.block .resume := by
  obtain ⟨p, tcb, hrunning, hstored⟩ := hcore.books.stored_running hcore.current
  obtain ⟨hleft, hwaiting, htcbs⟩ := Threads.block_left hcore.current hrunning
  have howner := hleft.rest.1
  have hstays := fun q => hleft.mem (q := q) hcore.books.nodup
  constructor
  · intro q other hother hq hpast _
    obtain ⟨hq, hne⟩ := hstays q hq
    rw [htcbs] at hother
    rw [howner]
    apply hserial.owns q other hother hq hpast
    intro _ hsame
    exact hne (Option.some.inj (hsame.symm.trans hrunning))
  · intro _ _
    rw [howner]
    exact (hcore.blocks rfl).1
  · intro q other hother hq henv
    obtain ⟨hq, hne⟩ := hstays q hq
    rw [htcbs] at hother
    have hsame := (hserial.handed q other hother hq henv).1
    exact absurd (Option.some.inj (hsame.symm.trans hrunning)) hne

/-- An exit with no one to hand the lock to. -/
theorem reap (hserial : Serial th (.scheduler 3)) (hcore : Core specs th (.scheduler 3))
    (hfree : th.lockOwner = -1 → th.waiting = []) : Serial th.reap .resume := by
  obtain ⟨p, tcb, hrunning, hstored⟩ := hcore.books.stored_running hcore.current
  obtain ⟨hleft, hwaiting, htcbs⟩ := Threads.reap_left hcore.current hrunning
  have howner := hleft.rest.1
  have hstays := fun q => hleft.mem (q := q) hcore.books.nodup
  constructor
  · intro q other hother hq hpast _
    obtain ⟨hq, hne⟩ := hstays q hq
    rw [htcbs, Function.update_of_ne hne] at hother
    rw [howner]
    apply hserial.owns q other hother hq hpast
    intro _ hsame
    exact hne (Option.some.inj (hsame.symm.trans hrunning))
  · intro hne _
    rw [hwaiting] at hne
    rw [howner]
    exact fun hheld => hne (hfree hheld)
  · intro q other hother hq henv
    obtain ⟨hq, hne⟩ := hstays q hq
    rw [htcbs, Function.update_of_ne hne] at hother
    have hat := (hserial.handed q other hother hq henv).2
    simp at hat

/-- An exit after the lock has been handed to the waiting thread `p`: the swap of step
3 moves `p` into the place of the thread that exits. -/
theorem promote_reap (hserial : Serial th (.scheduler 3)) (hcore : Core specs th (.scheduler 3))
    (hids : ValidIds specs) (hpromoted : Threads.Promoted th p tcb th') :
    Serial th'.reap .resume := by
  have hcore' := hcore.promote hpromoted
  obtain ⟨htcbs, hcurrent, -, hsize⟩ := hpromoted.rest
  obtain ⟨r, _, hrunning, _⟩ := hcore'.books.stored_running hcore'.current
  obtain ⟨hleft, hwaiting, hreaped⟩ := Threads.reap_left hcore'.current hrunning
  have howner : th'.reap.lockOwner = tcb.id := hleft.rest.1.trans hpromoted.owner
  have hcase : ∀ q other, th'.reap.tcbs q = some other → some q ∈ th'.reap.ready →
      th.tcbs q = some other ∧ (q = p ∨ (some q ∈ th.ready ∧ th.running ≠ some q)) := by
    intro q other hother hq
    obtain ⟨hq, hne⟩ := hleft.mem hcore'.books.nodup hq
    rw [hreaped, Function.update_of_ne hne, htcbs] at hother
    rw [hpromoted.ready, List.mem_append, List.mem_singleton] at hq
    refine ⟨hother, ?_⟩
    rcases hq with hready | heq
    · refine .inr ⟨hready, fun hsame => hne ?_⟩
      rw [← hpromoted.running hcore.current, hrunning] at hsame
      exact (Option.some.inj hsame).symm
    · exact .inl (Option.some.inj heq)
  constructor
  · intro q other hother hq hpast _
    rcases hcase q other hother hq with ⟨hstored, rfl | ⟨hready, hne⟩⟩
    · rw [howner]
      cases hstored.symm.trans hpromoted.stored
      rfl
    · -- the lock was free, so no one else was past the test
      have hid := hserial.owns q other hstored hready hpast fun _ => hne
      have hnonneg := hcore.books.id_nonneg hids hstored
      have hfree := hpromoted.free
      omega
  · intro _ _
    have hnonneg := hcore.books.id_nonneg hids hpromoted.stored
    omega
  · intro q other hother hq henv
    rcases hcase q other hother hq with ⟨hstored, rfl | ⟨hready, hne⟩⟩
    · refine ⟨?_, .inr (.inl rfl)⟩
      have hlt := hcore.current
      rw [hleft.swap (by omega), hsize, Nat.add_sub_cancel]
      exact hpromoted.last
    · exact absurd (hserial.handed q other hstored hready henv).1 hne

theorem schedule (hserial : Serial th c) (hcore : Core specs th c) (hids : ValidIds specs)
    {rtv : Nat} (hc : c = .scheduler rtv) (hle : rtv ≤ 3) {next : Threads × Control}
    (hschedule : th.schedule rtv = some next) : Serial next.1 next.2 := by
  rcases Threads.schedule_cases hschedule hle with ⟨rfl, rfl⟩ | ⟨between, hpromote, hnext⟩
  · apply hserial.choose <;> simp [hc, Leaving]
  rcases Threads.promote_cases hpromote with ⟨rfl, hfree⟩ | ⟨p, tcb, hpromoted⟩
  · rcases hnext with ⟨rfl, rfl⟩ | ⟨rfl, rfl⟩ | ⟨rfl, rfl⟩
    · apply hserial.choose <;> simp [hc, Leaving]
    · subst hc
      exact hserial.block hcore
    · subst hc
      exact hserial.reap hcore hfree
  · have hwaiting : th.waiting ≠ [] := by
      rw [hpromoted.first]
      exact List.cons_ne_nil _ _
    have hexit : c = .scheduler 3 := by
      by_contra hnot
      exact hserial.held hwaiting hnot hpromoted.free
    subst hexit
    cases hc
    rcases hnext with ⟨h, -⟩ | ⟨h, -⟩ | ⟨-, rfl⟩
    · simp at h
    · simp at h
    · exact hserial.promote_reap hcore hids hpromoted

theorem segment (hserial : Serial th .body) (hcore : Core specs th .body)
    (hids : ValidIds specs) (hsegment : Segment th p tcb tcb' th' c) : Serial th' c := by
  have hready : some p ∈ th.ready := by
    rw [← hsegment.running]
    exact Threads.running_mem_ready hcore.current
  have hself : ∀ other, th'.tcbs p = some other → other = tcb' := by
    intro other hother
    rw [hsegment.tcbs, Function.update_self] at hother
    exact (Option.some.inj hother).symm
  have hothers : ∀ q, q ≠ p → th'.tcbs q = th.tcbs q := by
    intro q hq
    rw [hsegment.tcbs, Function.update_of_ne hq]
  have hends := hsegment.ends
  have hnotLeaving : ¬ Leaving .body := by simp [Leaving]
  constructor
  · intro q other hother hq hpast hstays
    rw [hsegment.ready] at hq
    by_cases heq : q = p
    · subst heq
      obtain rfl := hself other hother
      rw [hsegment.same.1]
      have hgoes : ¬ Leaving c := by
        intro hc
        exact hstays hc (hsegment.running_eq.trans hsegment.running)
      rcases hends.owns hpast hgoes with hid | ⟨howner, hbefore⟩
      · exact hid.symm
      · rw [howner]
        exact hserial.owns q tcb hsegment.stored hready hbefore fun h => absurd h hnotLeaving
    · rw [hothers q heq] at hother
      have hid := hserial.owns q other hother hq hpast fun h => absurd h hnotLeaving
      rcases hends.owner_cases with howner | ⟨hfree, -⟩ | ⟨hmine, -⟩
      · rw [howner]
        exact hid
      · have hnonneg := hcore.books.id_nonneg hids hother
        omega
      · have hsame := hcore.books.id_inj hids hother hsegment.stored (hid.trans hmine)
        exact absurd hsame heq
  · intro hwaiting hc
    rw [hsegment.waiting] at hwaiting
    have hheld := hserial.held hwaiting (by simp)
    rcases hends.owner_cases with howner | ⟨hfree, -⟩ | ⟨-, -, hexit⟩
    · rw [howner]
      exact hheld
    · exact absurd hfree hheld
    · exact absurd hexit hc
  · intro q other hother hq henv
    rw [hsegment.ready] at hq
    have hrunning := hsegment.running_eq.trans hsegment.running
    by_cases heq : q = p
    · subst heq
      obtain rfl := hself other hother
      exact ⟨hrunning, .inl (hends.at_lock henv)⟩
    · rw [hothers q heq] at hother
      have hsame := (hserial.handed q other hother hq henv).1
      rw [hsegment.running] at hsame
      exact absurd (Option.some.inj hsame).symm heq

/-- Control moves on inside `thread_yield` and out of it. -/
theorem move (hserial : Serial th c) (hc : c.inYield = true) (next : Control) :
    Serial th next := by
  have hleaving := Control.not_leaving_of_inYield hc
  apply hserial.choose hleaving _ _ th.rqCurrent next
  · rintro rfl
    simp [Control.inYield] at hc
  · rintro rfl
    simp [Control.inYield] at hc

end Serial

theorem Alive.serial_tick (halive : Alive specs s) (hids : ValidIds specs)
    (hserial : Serial s.threads s.control) (htick : s.tick wrap = some t) :
    Serial t.threads t.control := by
  have hcore := halive.core
  cases State.tick_ticks htick with
  | schedule rtv next hc hschedule hthreads hcontrol =>
      rw [hthreads, hcontrol]
      exact hserial.schedule hcore hids hc (halive.entry rtv hc) hschedule
  | resume tcb hc hstored hthreads hcontrol =>
      rw [hthreads]
      rw [hc] at hserial
      apply hserial.resume
      intro p other hrunning hother henv
      have hsame : tcb = other := by
        simpa [Threads.runningTcb, hrunning, hother] using hstored.symm
      simp [hcontrol, hsame, henv, Environment.isYield]
  | body next hc hsegment hthreads hcontrol =>
      obtain ⟨p, tcb, tcb', hsegment⟩ := Threads.segment_cases hsegment
      rw [hc] at hcore hserial
      rw [hthreads, hcontrol]
      exact hserial.segment hcore hids hsegment
  | yield hc hthreads hcontrol =>
      rcases hthreads with heq | ⟨line, heq⟩
      · rw [heq]
        exact hserial.move hc _
      · rw [heq]
        exact (hserial.print line).move hc _

theorem Serial.arrive (hserial : Serial s.threads s.control) {sig : Signal}
    (htaken : TakenInYield s (.arrive sig)) :
    Serial (s.arrive sig).threads (s.arrive sig).control := by
  rcases s.arrive_cases sig with ⟨hthreads, heq | ⟨hmask, -⟩⟩
  · rw [hthreads, heq]
    exact hserial
  · rw [hthreads]
    exact hserial.move (htaken hmask) _

theorem init_serial (specs : List Spec) :
    Serial (State.init specs).threads (State.init specs).control := by
  obtain ⟨-, -, htcbs, hwaiting, -⟩ := Threads.foldl_threadCreate specs
  change Serial (specs.foldl Threads.threadCreate Threads.boot) (.scheduler 0)
  have hsetup : ∀ p tcb, (specs.foldl Threads.threadCreate Threads.boot).tcbs p = some tcb →
      tcb.environment.isPastTest = false := by
    intro p tcb hstored
    rw [htcbs] at hstored
    obtain ⟨spec, -, rfl⟩ := Option.map_eq_some_iff.mp hstored
    cases spec.func <;> simp [Func.start, Environment.isPastTest]
  constructor
  · intro p tcb hstored _ hpast
    simp [hsetup p tcb hstored] at hpast
  · intro hne
    exact absurd hwaiting hne
  · intro p tcb hstored _ henv
    have hpast := hsetup p tcb hstored
    simp [henv, Environment.isPastTest] at hpast

/-- Every thread has exited, and no step but an arrival is left. -/
def Finished (specs : List Spec) (s : State) : Prop :=
  Drained specs s.threads ∧ (s.control = .scheduler 0 ∨ s.control = .resume)

theorem Finished.step (hfinished : Finished specs s) {action : Action}
    (htaken : TakenInYield s action) (hstep : s.step wrap action = some t) :
    Finished specs t := by
  obtain ⟨hdrained, hc⟩ := hfinished
  cases action with
  | tick =>
      rcases hc with hc | hc
      · simp only [State.step, State.tick, hc, Threads.schedule, if_true, Option.map_some,
          Option.some.injEq] at hstep
        subst hstep
        exact ⟨⟨hdrained.empty, hdrained.freed, hdrained.exited⟩, .inr rfl⟩
      · simp only [State.step, State.tick, hc, Option.map_eq_some_iff, Threads.runningTcb,
          Option.bind_eq_some_iff] at hstep
        obtain ⟨tcb, ⟨p, -, hstored⟩, -⟩ := hstep
        simp [hdrained.freed] at hstored
  | arrive sig =>
      obtain rfl := Option.some.inj hstep
      rcases s.arrive_cases sig with ⟨hthreads, heq | ⟨hmask, -⟩⟩
      · exact ⟨hthreads ▸ hdrained, heq ▸ hc⟩
      · have hyield := htaken hmask
        rcases hc with hc | hc <;> simp [hc, Control.inYield] at hyield

/-- With signals taken inside `thread_yield` only, the accounts hold as long as a thread
is left. -/
theorem reachable_sound (hids : ValidIds specs)
    (hreach : (threading wrap specs).ReachableBy TakenInYield s) :
    (Alive specs s ∧ Serial s.threads s.control) ∨ Finished specs s := by
  refine hreach.invariant
    (P := fun s => (Alive specs s ∧ Serial s.threads s.control) ∨ Finished specs s) ?_ ?_
  · rintro s rfl
    by_cases hspecs : specs = []
    · subst hspecs
      exact .inr ⟨init_drained, .inl rfl⟩
    · exact .inl ⟨init_alive hspecs, init_serial specs⟩
  · rintro s action t (⟨halive, hserial⟩ | hfinished) htaken hstep
    · cases action with
      | arrive sig =>
          obtain rfl := Option.some.inj hstep
          exact .inl ⟨halive.arrive htaken, hserial.arrive htaken⟩
      | tick =>
          by_cases hlast : EntryRemains s .tick
          · exact .inl ⟨halive.tick hstep hlast, halive.serial_tick hids hserial hstep⟩
          · simp only [EntryRemains, not_forall] at hlast
            obtain ⟨rtv, hc, hlast⟩ := hlast
            obtain ⟨t', hstep', hdrained, hresume⟩ := halive.last_entry hc hlast
            obtain rfl : t' = t := Option.some.inj (hstep'.symm.trans hstep)
            exact .inr ⟨hdrained, .inr hresume⟩
    · exact .inr (hfinished.step htaken hstep)

/-- A thread that has not returned from `lock()`, and is not the one that returns from
it now. -/
def BlockedInLock (th : Threads) (p : Nat) : Prop :=
  ∃ tcb, th.tcbs p = some tcb ∧ tcb.environment = .bankOperation .lock ∧ th.running ≠ some p

/-- A thread past `lock()` and not past `unlock()`. -/
def InTransaction (th : Threads) (p : Nat) : Prop :=
  ∃ tcb, th.tcbs p = some tcb ∧ tcb.environment.isPastTest = true ∧ ¬ BlockedInLock th p

/-- The queues and the lock fit each other. -/
structure Consistent (specs : List Spec) (th : Threads) : Prop where
  once : (th.ready ++ th.waiting).Nodup
  left : ∀ cell, cell ∈ th.ready ++ th.waiting ↔
    ∃ p, cell = some p ∧ p < specs.length ∧ p ∉ th.exited
  current : th.rqCurrent < th.rqSize
  bounded : th.rqSize + th.wqSize ≤ threadMax
  waiting : ∀ p, some p ∈ th.waiting ↔ BlockedInLock th p
  owner : th.lockOwner = -1 ∨
    ∃ p tcb, some p ∈ th.ready ∧ th.tcbs p = some tcb ∧ tcb.id = th.lockOwner
  serial : ∀ p q, InTransaction th p → InTransaction th q → p = q
  owns : ∀ p, InTransaction th p → ∃ tcb, th.tcbs p = some tcb ∧ tcb.id = th.lockOwner
  held : th.waiting ≠ [] → th.lockOwner ≠ -1

theorem Books.size_le {gone : List Nat} (hbooks : Books specs th gone) :
    th.rqSize + th.wqSize ≤ specs.length := by
  have hsub : th.members ⊆ (List.range specs.length).map some := by
    intro cell hcell
    obtain ⟨p, tcb, rfl, hstored⟩ := (hbooks.members cell).mp hcell
    have hlt := ((hbooks.census p).mp ⟨tcb, hstored⟩).1
    simp [hlt]
  have hle := (List.subperm_of_subset hbooks.nodup hsub).length_le
  simpa [Threads.members, Threads.length_ready, Threads.length_waiting] using hle

theorem Alive.waiting_iff_blockedInLock (halive : Alive specs s)
    (hserial : Serial s.threads s.control) (p : Nat) :
    some p ∈ s.threads.waiting ↔ BlockedInLock s.threads p := by
  have hbooks := halive.core.books
  constructor
  · intro hwaiting
    obtain ⟨tcb, hstored⟩ := hbooks.stored_of_waiting hwaiting
    refine ⟨tcb, hstored, halive.core.waits p tcb hwaiting hstored, fun hrunning => ?_⟩
    have hready := Threads.running_mem_ready halive.core.current
    rw [hrunning] at hready
    exact hbooks.not_waiting hready hwaiting
  · rintro ⟨tcb, hstored, henv, hnot⟩
    apply (hbooks.mem_or_mem hstored).resolve_left
    intro hready
    exact hnot (hserial.handed p tcb hstored hready henv).1

theorem Alive.owns (halive : Alive specs s) (hserial : Serial s.threads s.control)
    (hc : ¬ Leaving s.control) (htrans : InTransaction s.threads p) :
    ∃ tcb, s.threads.tcbs p = some tcb ∧ tcb.id = s.threads.lockOwner := by
  obtain ⟨tcb, hstored, hpast, hnot⟩ := htrans
  rw [← halive.waiting_iff_blockedInLock hserial] at hnot
  have hready := (halive.core.books.mem_or_mem hstored).resolve_right hnot
  exact ⟨tcb, hstored, hserial.owns p tcb hstored hready hpast fun h => absurd h hc⟩

/-- Whenever a thread is resumed and one is left, the queues and the lock fit. -/
theorem resume_consistent (wrap : Arith) (hids : ValidIds specs)
    (hmax : specs.length ≤ threadMax)
    (hreach : (threading wrap specs).ReachableBy TakenInYield s)
    (hresume : s.control = .resume) (hleft : ∃ p < specs.length, p ∉ s.threads.exited) :
    Consistent specs s.threads := by
  rcases reachable_sound hids hreach with ⟨halive, hserial⟩ | ⟨hdrained, -⟩
  · have hbooks := halive.core.books
    have hgone : s.threads.reaped s.control = s.threads.exited := by
      simp [Threads.reaped, hresume]
    have hc : ¬ Leaving s.control := by simp [hresume, Leaving]
    rw [hgone] at hbooks
    constructor
    · exact hbooks.nodup
    · intro cell
      refine (hbooks.members cell).trans ?_
      simp only [exists_and_left, hbooks.census]
    · exact halive.core.current
    · exact hbooks.size_le.trans hmax
    · exact halive.waiting_iff_blockedInLock hserial
    · by_cases hfree : s.threads.lockOwner = -1
      · exact .inl hfree
      · obtain ⟨p, tcb, hready, hstored, -, hid, -⟩ := halive.core.holder hfree
        exact .inr ⟨p, tcb, hready, hstored, hid⟩
    · intro p q hp hq
      obtain ⟨tcb, hstored, hid⟩ := halive.owns hserial hc hp
      obtain ⟨tcb', hstored', hid'⟩ := halive.owns hserial hc hq
      exact hbooks.id_inj hids hstored hstored' (hid.trans hid'.symm)
    · intro p
      exact halive.owns hserial hc
    · intro hwaiting
      exact hserial.held hwaiting (by simp [hresume])
  · obtain ⟨p, hp, hnot⟩ := hleft
    exact absurd (hdrained.exited p hp) hnot

namespace TwoBankThreads

/-- The first of two bank threads takes the lock and is preempted, and the second one
blocks. -/
def actions : List Action := .arrive .tstp :: List.replicate 10 .tick

def threads : List Spec := initThreads 0 0 100 (-50)

def state : State :=
  ((threading id threads).run (State.init threads) actions).getD (State.init threads)

theorem reachable : (threading id threads).ReachableBy TakenInYield state :=
  TransitionSystem.ReachableBy.run (.start rfl) actions
    ⟨fun hmask => absurd hmask (by decide), fun next _ => meets_ticks next 10⟩ rfl

example : state.threads.ready = [some 0] ∧ state.threads.waiting = [some 1] := by decide

end TwoBankThreads

theorem resume_consistent_two_bank_threads :
    Consistent TwoBankThreads.threads TwoBankThreads.state.threads :=
  resume_consistent id ⟨by decide, by decide⟩ (by decide) TwoBankThreads.reachable rfl
    ⟨0, by decide, by decide⟩

end Scheduler

end SystemsProgramming
