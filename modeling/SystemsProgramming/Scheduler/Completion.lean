/-
Every schedule finishes.  Each stretch of a thread function uses up one of the
stretches its thread has left, and between two stretches there is a bounded number of
steps, however often signals switch the threads.
-/
import SystemsProgramming.Scheduler.Rounds

namespace SystemsProgramming

namespace Scheduler

variable {specs : List Spec} {wrap : Arith} {s t : State} {th th' : Threads} {p q : Nat}
  {tcb tcb' : Tcb}

/-- A bound for the stretches of a thread. -/
def Spec.stretches (spec : Spec) : Nat :=
  match spec.func with
  | .fibonacci | .factorial => spec.arg.toNat
  | .bankOperation => 4

/-- A bound for what a thread has left. -/
def Tcb.left (tcb : Tcb) : Nat :=
  match tcb.environment with
  | .fibonacci _ | .factorial _ => tcb.arg.toNat - tcb.rounds
  | .bankOperation .setup => 4
  | .bankOperation .lock => 3
  | .bankOperation .firstYield => 2
  | .bankOperation .secondYield => 1

namespace Threads

def leftOf (th : Threads) (p : Nat) : Nat :=
  if p ∈ th.exited then 0 else ((th.tcbs p).map Tcb.left).getD 0

/-- What all threads have left. -/
def left (specs : List Spec) (th : Threads) : Nat :=
  ((List.range specs.length).map th.leftOf).sum

theorem leftOf_stored (hlive : p ∉ th.exited) (hstored : th.tcbs p = some tcb) :
    th.leftOf p = tcb.left := by
  simp [leftOf, hlive, hstored]

theorem leftOf_exited (hexited : p ∈ th.exited) : th.leftOf p = 0 := if_pos hexited

theorem Quiet.left_le (hquiet : Quiet th th') (specs : List Spec) :
    th'.left specs ≤ th.left specs := by
  apply List.sum_le_sum
  intro p _
  unfold leftOf
  rw [hquiet.exited]
  split
  · exact Nat.le_refl _
  · cases hstored : th'.tcbs p with
    | none => exact Nat.zero_le _
    | some tcb => rw [hquiet.stored p tcb hstored]

end Threads

/-- The arguments that `init_threads` admits, as ints. -/
structure ValidArgs (specs : List Spec) : Prop where
  admitted : ∀ spec ∈ specs, spec.admitted = true
  int : ∀ spec ∈ specs, spec.arg < 2 ^ 31

/-- The loops that have yielded have a round to go. -/
def InLoops (th : Threads) : Prop :=
  ∀ p tcb, p ∉ th.exited → th.tcbs p = some tcb → InLoop tcb

theorem InLoops.quiet (hloops : InLoops th) (hquiet : Threads.Quiet th th') : InLoops th' := by
  intro p tcb hlive hstored
  exact hloops p tcb (hquiet.exited ▸ hlive) (hquiet.stored p tcb hstored)

theorem Tcb.left_loop (hfunc : tcb.environment.func ≠ .bankOperation) :
    tcb.left = tcb.arg.toNat - tcb.rounds := by
  unfold Tcb.left
  cases henv : tcb.environment with
  | fibonacci point | factorial point => rfl
  | bankOperation point => simp [henv, Environment.func] at hfunc

/-- A stretch of a bank operation is one of at most four. -/
theorem Ends.left_lt {id owner owner' : Int} {c : Control}
    (hends : Ends id owner tcb.environment tcb'.environment owner' c)
    (hfunc : tcb.environment.func = .bankOperation) :
    0 < tcb.left ∧ (c ≠ .scheduler 3 → tcb'.left < tcb.left) := by
  unfold Tcb.left
  generalize tcb.environment = environment at hends hfunc
  generalize tcb'.environment = later at hends
  cases hends with
  | round hnot => exact absurd hfunc hnot
  | last hnot => exact absurd hfunc hnot
  | acquire | block | granted | transfer => exact ⟨by simp, fun _ => by simp⟩
  | release => exact ⟨by simp, fun hc => absurd rfl hc⟩

section Stretches

variable (hwrap : KeepsInts wrap) (hargs : ValidArgs specs) (halive : Alive specs s)
  (hstretch : Stretch wrap s t p tcb tcb') (hloops : InLoops s.threads)

include hargs halive hstretch in
theorem Stretch.bounds (hfunc : tcb.environment.func ≠ .bankOperation) :
    0 < tcb.arg ∧ tcb.arg < 2 ^ 31 := by
  have hmem := List.mem_of_getElem? (halive.stretch_live hstretch).2.2
  have hadmitted := hargs.admitted _ hmem
  refine ⟨?_, hargs.int _ hmem⟩
  unfold Spec.admitted at hadmitted
  cases henv : tcb.environment.func <;> simp_all

include hwrap hargs halive hstretch hloops in
/-- The thread of a stretch has one stretch less to go. -/
theorem Stretch.leftOf_lt : t.threads.leftOf p < s.threads.leftOf p := by
  obtain ⟨-, hlive, -⟩ := halive.stretch_live hstretch
  have hstored := hstretch.segment.stored
  rw [Threads.leftOf_stored hlive hstored]
  by_cases hfunc : tcb.environment.func = .bankOperation
  · obtain ⟨hpos, hless⟩ := hstretch.segment.ends.left_lt hfunc
    have hexited := hstretch.segment.exited
    by_cases hc : t.control = .scheduler 3
    · rw [Threads.leftOf_exited (by simp [hexited, hc])]
      exact hpos
    · rw [if_neg hc] at hexited
      rw [Threads.leftOf_stored (hexited ▸ hlive)
        (by rw [hstretch.segment.tcbs, Function.update_self])]
      exact hless hc
  · obtain ⟨hpos, hint⟩ := hstretch.bounds hargs halive hfunc
    have hloop := hloops p tcb hlive hstored
    obtain ⟨hi, hle⟩ := hloop.round hwrap hfunc hpos hint
    obtain ⟨hexits, hyields⟩ := hstretch.loop hfunc
    rw [Tcb.left_loop hfunc]
    by_cases hlast : (tcb.round wrap).i = tcb.arg
    · rw [Threads.leftOf_exited (by simp [hexits hlast])]
      omega
    · obtain ⟨hexited, hnow⟩ := hyields hlast
      have hcount := hloop.yielded_rounds hwrap hfunc hpos hint
      have harg : (tcb.yielded wrap).arg = tcb.arg := (tcb.round_same wrap).2.1
      rw [Threads.leftOf_stored (hexited ▸ hlive) hnow, Tcb.left_loop, hcount, harg]
      · omega
      · rw [(Tcb.yielded_loopPoint hfunc).2]
        exact hfunc

include hstretch in
theorem Stretch.leftOf_of_ne (hne : q ≠ p) : t.threads.leftOf q = s.threads.leftOf q := by
  have hexited : q ∈ t.threads.exited ↔ q ∈ s.threads.exited := by
    rw [hstretch.segment.exited]
    split <;> simp [hne]
  simp only [Threads.leftOf, hexited, hstretch.segment.tcbs, Function.update_of_ne hne]

include hwrap hargs halive hstretch hloops in
theorem Stretch.left_lt : t.threads.left specs < s.threads.left specs := by
  have hless := hstretch.leftOf_lt hwrap hargs halive hloops
  apply List.sum_lt_sum
  · intro q _
    by_cases heq : q = p
    · subst heq
      exact hless.le
    · exact (hstretch.leftOf_of_ne heq).le
  · exact ⟨p, List.mem_range.mpr (halive.stretch_live hstretch).1, hless⟩

include hwrap hargs halive hstretch hloops in
theorem Stretch.inLoops : InLoops t.threads := by
  intro q other hlive hstored
  have hlive' : q ∉ s.threads.exited := by
    rw [hstretch.segment.exited] at hlive
    split at hlive
    · exact fun h => hlive (List.mem_append_left _ h)
    · exact hlive
  by_cases heq : q = p
  · subst heq
    by_cases hfunc : tcb.environment.func = .bankOperation
    · have hnow : tcb' = other := by
        simpa [hstretch.segment.tcbs] using hstored
      intro hyield
      rw [← hnow, Environment.loopPoint_eq_none_iff.mpr] at hyield
      · simp at hyield
      · rw [hstretch.segment.ends.func_eq, hfunc]
    · obtain ⟨hpos, hint⟩ := hstretch.bounds hargs halive hfunc
      obtain ⟨hexits, hyields⟩ := hstretch.loop hfunc
      have hmore : (tcb.round wrap).i ≠ tcb.arg := by
        intro hlast
        simp [hexits hlast] at hlive
      obtain rfl : tcb.yielded wrap = other :=
        Option.some.inj ((hyields hmore).2.symm.trans hstored)
      exact (hloops q tcb hlive' hstretch.segment.stored).yielded hwrap hfunc hpos hint hmore
  · rw [hstretch.segment.tcbs, Function.update_of_ne heq] at hstored
    exact hloops q other hlive' hstored

end Stretches

/-- The ticks from a place of control to the next stretch, if no more signals are let
in.  Each unblocking may let one in, which costs six. -/
def Control.rank : Control → Nat
  | body | returned => 0
  | setMask => 1
  | resume => 2
  | scheduler _ => 3
  | jump => 4
  | handler _ => 5
  | unblockAlrm => 8
  | unblockTstp => 15

namespace State

/-- The signals that are not blocked. -/
def openSignals (s : State) : Nat :=
  (if s.mask .tstp then 0 else 1) + (if s.mask .alrm then 0 else 1)

def rank (s : State) : Nat := 6 * s.openSignals + s.control.rank

theorem openSignals_le (s : State) : s.openSignals ≤ 2 := by
  unfold openSignals
  split <;> split <;> omega

/-- Blocking a signal. -/
theorem openSignals_block (s : State) (sig : Signal) (hopen : s.mask sig = false) :
    openSignals { s with mask := Function.update s.mask sig true } + 1 = s.openSignals := by
  cases sig <;> simp [openSignals, hopen, Nat.add_comm]

theorem openSignals_take_le (s : State) (sig : Signal) :
    (s.take sig).openSignals ≤ s.openSignals := by
  cases sig <;> simp [openSignals, take]

theorem openSignals_unblock_le (s : State) (sig : Signal) :
    openSignals { s with mask := Function.update s.mask sig false } ≤ s.openSignals + 1 := by
  cases sig with
  | tstp =>
      simp only [openSignals, Function.update_self]
      simp
      omega
  | alrm => simp [openSignals]

theorem rank_arrive_le (s : State) (sig : Signal) : (s.arrive sig).rank ≤ s.rank := by
  unfold arrive
  cases hmask : s.mask sig with
  | true => exact Nat.le_refl _
  | false =>
      have hless := s.openSignals_block sig hmask
      change 6 * openSignals { s with mask := Function.update s.mask sig true } + 5 ≤
        6 * s.openSignals + s.control.rank
      omega

/-- The ticks of `sigprocmask`. -/
theorem rank_unblock_lt (s : State) (sig : Signal) {after : Control}
    (hrank : after.rank + 6 < s.control.rank) :
    (s.unblock sig after).rank < s.rank := by
  unfold unblock
  split
  · have hle := openSignals_take_le { s with pending := Function.update s.pending sig false } sig
    change 6 * openSignals (take { s with pending := Function.update s.pending sig false } sig) +
      5 < 6 * s.openSignals + s.control.rank
    change _ ≤ s.openSignals at hle
    omega
  · have hle := s.openSignals_unblock_le sig
    change 6 * openSignals { s with mask := Function.update s.mask sig false } + after.rank <
      6 * s.openSignals + s.control.rank
    omega

/-- Between two stretches every tick leads nearer to the next one. -/
theorem rank_tick_lt (hentry : ∀ rtv, s.control = .scheduler rtv → rtv ≤ 3)
    (hbody : s.control ≠ .body) (htick : s.tick wrap = some t) : t.rank < s.rank := by
  unfold tick at htick
  cases hc : s.control with
  | scheduler rtv =>
      simp only [hc] at htick
      obtain ⟨next, hschedule, rfl⟩ := Option.map_eq_some_iff.mp htick
      have hresume : next.2 = .resume := by
        rcases Threads.schedule_cases hschedule (hentry rtv hc) with
          ⟨-, rfl⟩ | ⟨_, -, ⟨-, rfl⟩ | ⟨-, rfl⟩ | ⟨-, rfl⟩⟩ <;> rfl
      simp [rank, openSignals, hresume, hc, Control.rank]
  | resume =>
      simp only [hc] at htick
      obtain ⟨tcb, -, rfl⟩ := Option.map_eq_some_iff.mp htick
      unfold rank
      simp only [hc, Control.rank]
      split <;> simp [openSignals]
  | body => exact absurd hc hbody
  | unblockTstp | unblockAlrm =>
      simp only [hc, Option.some.injEq] at htick
      subst htick
      apply rank_unblock_lt
      simp [hc, Control.rank]
  | setMask =>
      simp only [hc, Option.some.injEq] at htick
      subst htick
      simp [rank, openSignals, hc, Control.rank]
  | handler sig | jump =>
      simp only [hc, Option.some.injEq] at htick
      subst htick
      simp [rank, openSignals, hc, Control.rank]
  | returned => simp [hc] at htick

/-- What bounds the ticks of a run. -/
def measure (specs : List Spec) (s : State) : Nat := 28 * s.threads.left specs + s.rank

end State

/-- As long as a thread is left, the program is not stuck. -/
theorem Alive.tick_enabled (halive : Alive specs s) (wrap : Arith) :
    ∃ t, s.tick wrap = some t := by
  have hcore := halive.core
  obtain ⟨p, tcb, hrunning, hstored⟩ := hcore.books.stored_running hcore.current
  unfold State.tick
  cases hc : s.control with
  | scheduler rtv =>
      rw [hc] at hcore
      obtain ⟨th', hschedule, -⟩ := hcore.schedule (halive.entry rtv hc)
      simp [hschedule]
  | resume => simp [Threads.runningTcb, hrunning, hstored]
  | body => simp [Threads.segment, hrunning, hstored]
  | returned => exact absurd hc halive.running
  | unblockTstp | unblockAlrm | setMask | handler sig | jump => exact ⟨_, rfl⟩

/-- A tick decreases the measure. -/
theorem Alive.measure_tick_lt (halive : Alive specs s) (hwrap : KeepsInts wrap)
    (hargs : ValidArgs specs) (hloops : InLoops s.threads) (htick : s.tick wrap = some t) :
    t.measure specs < s.measure specs ∧ InLoops t.threads := by
  rcases State.tick_stretch halive.entry htick with ⟨p, tcb, tcb', hstretch⟩ | ⟨hbody, hquiet⟩
  · refine ⟨?_, hstretch.inLoops hwrap hargs halive hloops⟩
    have hless := hstretch.left_lt hwrap hargs halive hloops
    have hrank : t.rank ≤ 27 := by
      have hopen := t.openSignals_le
      have hcontrol : t.control.rank ≤ 15 := by
        rcases hstretch.segment.ends.control_cases with ⟨hc, -⟩ | hc | hc <;>
          simp [hc, Control.rank]
      unfold State.rank
      omega
    unfold State.measure
    omega
  · refine ⟨?_, hloops.quiet hquiet⟩
    have hleft := hquiet.left_le specs
    have hrank := State.rank_tick_lt halive.entry hbody htick
    unfold State.measure
    omega

theorem State.measure_arrive_le (s : State) (sig : Signal) :
    (s.arrive sig).measure specs ≤ s.measure specs := by
  have hrank := s.rank_arrive_le sig
  unfold State.measure
  rw [(s.arrive_cases sig).1]
  omega

/-- The thread that the scheduler has chosen can execute its next stretch: it has not
exited, and if it was blocked in `lock()`, the lock is its own. -/
def CanRun (wrap : Arith) (th : Threads) : Prop :=
  ∃ p tcb, th.running = some p ∧ th.tcbs p = some tcb ∧ p ∉ th.exited ∧
    (tcb.environment = .bankOperation .lock → th.lockOwner = tcb.id) ∧
    (th.segment wrap).isSome = true

/-- As long as a thread is left, an entry of the scheduler resumes one that can run. -/
theorem entry_canRun (hids : ValidIds specs)
    (hreach : (threading wrap specs).ReachableBy TakenInYield s) {rtv : Nat}
    (hc : s.control = .scheduler rtv) (hleft : ∃ p < specs.length, p ∉ s.threads.exited) :
    ∃ t, s.tick wrap = some t ∧ t.control = .resume ∧ CanRun wrap t.threads := by
  obtain ⟨q, hq, hlive⟩ := hleft
  obtain ⟨halive, -⟩ := stored_of_live hids hreach hq hlive
  have hserial : Serial s.threads s.control := by
    rcases reachable_sound hids hreach with ⟨-, hserial⟩ | ⟨hdrained, -⟩
    · exact hserial
    · exact absurd (hdrained.exited q hq) hlive
  have hcore := halive.core
  rw [hc] at hcore
  obtain ⟨th', hschedule, -, hdrained⟩ := hcore.schedule (halive.entry rtv hc)
  have htick : s.tick wrap = some { s with threads := th', control := .resume } := by
    simp [State.tick, hc, hschedule]
  have hquiet := Threads.schedule_quiet hschedule (halive.entry rtv hc)
  -- the thread that has not exited is still there, so this is not the last entry
  have hremains : EntryRemains s .tick := by
    intro rtv' hc'
    by_contra hlast
    cases hc.symm.trans hc'
    exact hlive (hquiet.exited ▸ (hdrained hlast).exited q hq)
  have halive' := halive.tick htick hremains
  have hserial' := halive.serial_tick hids hserial htick
  obtain ⟨p, tcb, hrunning, hstored⟩ :=
    halive'.core.books.stored_running halive'.core.current
  refine ⟨_, htick, rfl, p, tcb, hrunning, hstored, ?_, ?_, ?_⟩
  · exact ((halive'.core.books.census p).mp ⟨tcb, hstored⟩).2
  · intro henv
    have hready : some p ∈ th'.ready := by
      rw [← hrunning]
      exact Threads.running_mem_ready halive'.core.current
    exact (hserial'.owns p tcb hstored hready (by rw [henv]; rfl)
      fun h => by simp [Leaving] at h).symm
  · change th'.running = some p at hrunning
    change th'.tcbs p = some tcb at hstored
    simp [Threads.segment, hrunning, hstored]

/-- A thread calls `thread_exit` once at most. -/
theorem exited_nodup (hids : ValidIds specs)
    (hreach : (threading wrap specs).ReachableBy TakenInYield s) : s.threads.exited.Nodup := by
  induction hreach with
  | start hstart =>
      obtain rfl := hstart
      obtain ⟨-, -, -, -, -, -, hexited⟩ := Threads.foldl_threadCreate specs
      change (specs.foldl Threads.threadCreate Threads.boot).exited.Nodup
      rw [hexited]
      exact List.nodup_nil
  | step hreach _ hstep ih =>
      rcases step_stretch hids hreach hstep with
        ⟨halive, -, -, p, tcb, tcb', hstretch⟩ | ⟨-, hquiet⟩
      · have hlive := (halive.stretch_live hstretch).2.1
        rw [hstretch.segment.exited]
        split
        · rw [List.nodup_append]
          refine ⟨ih, List.nodup_singleton p, fun q hq r hr heq => ?_⟩
          rw [List.mem_singleton] at hr
          exact hlive (hr ▸ heq ▸ hq)
        · exact ih
      · rw [hquiet.exited]
        exact ih

theorem init_inLoops (specs : List Spec) : InLoops (State.init specs).threads := by
  intro p tcb _ hstored hyield
  obtain ⟨-, -, htcbs, -⟩ := Threads.foldl_threadCreate specs
  change ∀ p, (State.init specs).threads.tcbs p = _ at htcbs
  rw [htcbs] at hstored
  obtain ⟨spec, -, rfl⟩ := Option.map_eq_some_iff.mp hstored
  cases hfunc : spec.func <;> simp [hfunc, Func.start, Environment.loopPoint] at hyield

theorem init_left (specs : List Spec) :
    (State.init specs).threads.left specs = (specs.map Spec.stretches).sum := by
  obtain ⟨-, -, htcbs, -, -, -, hexited⟩ := Threads.foldl_threadCreate specs
  change ∀ p, (State.init specs).threads.tcbs p = _ at htcbs
  change (State.init specs).threads.exited = [] at hexited
  unfold Threads.left
  congr 1
  apply List.ext_getElem
  · simp
  · intro p hp hp'
    have hlt : p < specs.length := by simpa using hp
    simp only [List.getElem_map, List.getElem_range, Threads.leftOf, hexited, htcbs,
      List.getElem?_eq_getElem hlt, Option.map_some, Option.getD_some, List.not_mem_nil,
      if_false]
    cases hfunc : specs[p].func <;>
      simp [Tcb.left, Spec.stretches, hfunc, Func.start, Tcb.rounds, Environment.loopPoint]

/-- The loops count up to their arguments in every state of a run. -/
theorem reachable_inLoops (hwrap : KeepsInts wrap) (hids : ValidIds specs)
    (hargs : ValidArgs specs) (hreach : (threading wrap specs).ReachableBy TakenInYield s) :
    InLoops s.threads := by
  induction hreach with
  | start hstart =>
      obtain rfl := hstart
      exact init_inLoops specs
  | step hreach _ hstep ih =>
      rcases step_stretch hids hreach hstep with
        ⟨halive, -, -, p, tcb, tcb', hstretch⟩ | ⟨-, hquiet⟩
      · exact hstretch.inLoops hwrap hargs halive ih
      · exact ih.quiet hquiet

/-- No run has more stretches than its threads have between them. -/
theorem stretches_le (hwrap : KeepsInts wrap) (hids : ValidIds specs) (hargs : ValidArgs specs)
    {actions : List Action}
    (htaken : (threading wrap specs).Meets TakenInYield (State.init specs) actions)
    (hrun : (threading wrap specs).run (State.init specs) actions = some s) :
    (stretches wrap specs actions).length ≤ (specs.map Spec.stretches).sum := by
  have hboth : (threading wrap specs).ReachableBy TakenInYield s ∧
      (stretches wrap specs actions).length + s.threads.left specs ≤
        (specs.map Spec.stretches).sum := by
    refine TransitionSystem.trace_invariant State.stretch
      (fun s log => (threading wrap specs).ReachableBy TakenInYield s ∧
        log.length + s.threads.left specs ≤ (specs.map Spec.stretches).sum) ?_ ?_ htaken hrun
    · rintro s action t log ⟨hreach, hle⟩ htaken hstep
      refine ⟨.step hreach htaken hstep, ?_⟩
      have hloops := reachable_inLoops hwrap hids hargs hreach
      rw [List.length_append]
      rcases step_stretch hids hreach hstep with
        ⟨halive, -, rfl, p, tcb, tcb', hstretch⟩ | ⟨hbody, hquiet⟩
      · have hless := hstretch.left_lt hwrap hargs halive hloops
        rw [hstretch.stretch_eq]
        simp only [List.length_singleton]
        omega
      · have hleft := hquiet.left_le specs
        rw [State.stretch_eq_nil hbody]
        simp only [List.length_nil]
        omega
    · exact ⟨.start rfl, by simp [init_left]⟩
  omega

/-- Every schedule finishes: in whatever order signals are taken in `thread_yield`, every
thread comes to its `thread_exit`, which it calls once, after a bounded number of
stretches, and until then every entry of the scheduler resumes a thread that can run. -/
theorem every_schedule_finishes (hwrap : KeepsInts wrap) (hids : ValidIds specs)
    (hargs : ValidArgs specs) (actions : Nat → Action)
    (hticks : ∀ k, ∃ j, k ≤ j ∧ actions j = .tick)
    (htaken : ∀ k, (threading wrap specs).Meets TakenInYield (State.init specs)
      (TransitionSystem.labels actions k)) :
    (∃ k s, (threading wrap specs).run (State.init specs) (TransitionSystem.labels actions k) =
        some s ∧
      (∀ p < specs.length, s.threads.exited.count p = 1) ∧
      (stretches wrap specs (TransitionSystem.labels actions k)).length ≤
        (specs.map Spec.stretches).sum) ∧
    ∀ k s rtv, (threading wrap specs).run (State.init specs)
        (TransitionSystem.labels actions k) = some s →
      s.control = .scheduler rtv → (∃ p < specs.length, p ∉ s.threads.exited) →
      ∃ t, s.tick wrap = some t ∧ t.control = .resume ∧ CanRun wrap t.threads := by
  have hreach : ∀ k s, (threading wrap specs).run (State.init specs)
      (TransitionSystem.labels actions k) = some s →
      (threading wrap specs).ReachableBy TakenInYield s := by
    intro k s hrun
    exact TransitionSystem.ReachableBy.run (.start rfl) _ (htaken k) hrun
  constructor
  · have hfinish : ∃ k s, (threading wrap specs).run (State.init specs)
        (TransitionSystem.labels actions k) = some s ∧
        ∀ p < specs.length, p ∈ s.threads.exited := by
      refine TransitionSystem.eventually_of_measure (State.measure specs)
        (fun action : Action => action = .tick) _ hticks fun k s hrun hnot => ?_
      simp only [not_forall] at hnot
      obtain ⟨p, hp, hlive⟩ := hnot
      obtain ⟨halive, -⟩ := stored_of_live hids (hreach k s hrun) hp hlive
      cases haction : actions k with
      | tick =>
          obtain ⟨t, htick⟩ := halive.tick_enabled wrap
          have hless := (halive.measure_tick_lt hwrap hargs
            (reachable_inLoops hwrap hids hargs (hreach k s hrun)) htick).1
          exact ⟨t, htick, hless.le, fun _ => hless⟩
      | arrive sig =>
          exact ⟨s.arrive sig, rfl, s.measure_arrive_le sig, fun h => Action.noConfusion h⟩
    obtain ⟨k, s, hrun, hall⟩ := hfinish
    refine ⟨k, s, hrun, fun p hp => ?_, stretches_le hwrap hids hargs (htaken k) hrun⟩
    exact List.count_eq_one_of_mem (exited_nodup hids (hreach k s hrun)) (hall p hp)
  · intro k s rtv hrun hc hleft
    exact entry_canRun hids (hreach k s hrun) hc hleft

namespace FourThreads

def threads : List Spec := initThreads 2 2 100 (-50)

/-- A signal that is pending when the first thread yields. -/
def actions : Nat → Action
  | 0 => .arrive .tstp
  | _ + 1 => .tick

theorem labels_succ (k : Nat) :
    TransitionSystem.labels actions (k + 1) = .arrive .tstp :: List.replicate k .tick := by
  simp [TransitionSystem.labels, List.range_succ_eq_map, actions, Function.comp_def,
    List.map_const']

theorem taken (k : Nat) : (threading id threads).Meets TakenInYield (State.init threads)
    (TransitionSystem.labels actions k) := by
  cases k with
  | zero => trivial
  | succ k =>
      rw [labels_succ]
      exact ⟨fun hmask => absurd hmask (by decide), fun next _ => meets_ticks next k⟩

end FourThreads

theorem every_schedule_finishes_four_threads :
    ∃ k s, (threading id FourThreads.threads).run (State.init FourThreads.threads)
        (TransitionSystem.labels FourThreads.actions k) = some s ∧
      (∀ p < 4, s.threads.exited.count p = 1) ∧
      (stretches id FourThreads.threads
        (TransitionSystem.labels FourThreads.actions k)).length ≤ 12 :=
  (every_schedule_finishes (fun _ _ _ => rfl) ⟨by decide, by decide⟩ ⟨by decide, by decide⟩
    FourThreads.actions (fun k => ⟨k + 1, Nat.le_succ k, rfl⟩) FourThreads.taken).1

end Scheduler

end SystemsProgramming
