/-
How long a thread of the ready queue waits.  A removal moves the last entry into the
place of the running thread, and a promotion appends one, so entries change places;
each return of `sighandler` into `scheduler` still brings `rq_current` one entry nearer
to every thread that does not run.
-/
import SystemsProgramming.Scheduler.LockOwner

namespace SystemsProgramming

namespace Scheduler

variable {specs : List Spec} {wrap : Arith} {s t : State} {p k : Nat}

namespace Threads

/-- The entries that `rq_current` passes on its way to entry `k` of the ready queue. -/
def ahead (th : Threads) (k : Nat) : Nat :=
  if th.rqCurrent ≤ k then k - th.rqCurrent else k + th.rqSize - th.rqCurrent

/-- An entry appended behind the others delays those in front of `rq_current` by one. -/
def behind (th : Threads) (k : Nat) : Nat := if k < th.rqCurrent then 1 else 0

variable {th th' : Threads}

theorem ahead_congr (hcurrent : th'.rqCurrent = th.rqCurrent) (hready : th'.ready = th.ready)
    (k : Nat) : th'.ahead k = th.ahead k := by
  unfold ahead
  rw [hcurrent, (ArrayPrefix.cells_inj hready).1]

theorem ahead_advance (hcurrent : th.rqCurrent < th.rqSize) (hk : k < th.rqSize)
    (hne : k ≠ th.rqCurrent) : th.advance.ahead k + 1 = th.ahead k := by
  unfold ahead advance
  dsimp only
  split <;> split <;> split <;> omega

/-- A promotion leaves the entries where they are. -/
theorem promote_cell (hpromote : th.promote = some th') (hk : k < th.rqSize) :
    k < th'.rqSize ∧ th'.readyQueue k = th.readyQueue k ∧ th'.rqCurrent = th.rqCurrent ∧
      th'.ahead k ≤ th.ahead k + th.behind k := by
  rcases promote_cases hpromote with ⟨rfl, -⟩ | ⟨q, tcb, hpromoted⟩
  · exact ⟨hk, rfl, rfl, Nat.le_add_right _ _⟩
  · obtain ⟨-, hcurrent, -, hsize⟩ := hpromoted.rest
    have hk' : k < th'.rqSize := by omega
    have hcell : th'.ready[k]? = th.ready[k]? := by
      rw [hpromoted.ready, List.getElem?_append_left (by rwa [length_ready])]
    rw [ready, ready, ArrayPrefix.cells_getElem? _ hk', ArrayPrefix.cells_getElem? _ hk] at hcell
    refine ⟨hk', Option.some.inj hcell, hcurrent, ?_⟩
    unfold ahead behind
    rw [hcurrent, hsize]
    split <;> split <;> omega

/-- The last entry moves into the place of the running thread, the others stay. -/
theorem dropRunning_cell (hcurrent : th.rqCurrent < th.rqSize) (hk : k < th.rqSize)
    (hne : k ≠ th.rqCurrent) : ∃ k' < th.dropRunning.rqSize,
      th.dropRunning.readyQueue k' = th.readyQueue k ∧
        th.dropRunning.ahead k' + th.behind k ≤ th.ahead k := by
  unfold dropRunning
  by_cases hlast : th.rqCurrent + 1 < th.rqSize
  · simp only [if_pos hlast]
    by_cases hmoved : k = th.rqSize - 1
    · refine ⟨th.rqCurrent, by omega, ?_, ?_⟩
      · rw [Function.update_self, hmoved]
      · unfold ahead behind
        dsimp only
        split <;> split <;> split <;> omega
    · refine ⟨k, by omega, Function.update_of_ne hne _ _, ?_⟩
      unfold ahead behind
      dsimp only
      split <;> split <;> omega
  · simp only [if_neg hlast]
    refine ⟨k, by omega, rfl, ?_⟩
    unfold ahead behind
    dsimp only
    split <;> split <;> split <;> omega

/-- One entry of `scheduler`: an entry by a signal passes one thread, the others none. -/
theorem schedule_cell {rtv : Nat} {next : Threads × Control}
    (hschedule : th.schedule rtv = some next) (hle : rtv ≤ 3)
    (hcurrent : th.rqCurrent < th.rqSize) (hfirst : rtv = 0 → th.rqCurrent = 0)
    (hheld : rtv = 1 → th.waiting ≠ [] → th.lockOwner ≠ -1)
    (hk : k < th.rqSize) (hne : k ≠ th.rqCurrent) :
    next.2 = .resume ∧ ∃ k' < next.1.rqSize, next.1.readyQueue k' = th.readyQueue k ∧
      (if rtv = 1 then 1 else 0) + next.1.ahead k' ≤ th.ahead k := by
  rcases schedule_cases hschedule hle with ⟨rfl, rfl⟩ | ⟨between, hpromote, hcases⟩
  · refine ⟨rfl, k, hk, rfl, ?_⟩
    simp [ahead, hfirst rfl]
  · obtain ⟨hk', hcell, hsame, hahead⟩ := promote_cell hpromote hk
    have hcurrent' : between.rqCurrent < between.rqSize := by
      have hfirst := (promote_cell hpromote hcurrent).1
      omega
    have hdrop := dropRunning_cell hcurrent' hk' (by rwa [hsame])
    have hbehind : between.behind k = th.behind k := by rw [behind, behind, hsame]
    rw [hcell, hbehind] at hdrop
    obtain ⟨k', hlt, hstands, hless⟩ := hdrop
    rcases hcases with ⟨rfl, rfl⟩ | ⟨rfl, rfl⟩ | ⟨rfl, rfl⟩
    · -- a thread waits for an owner, so nothing has been promoted
      have hnone : between = th := by
        rcases promote_cases hpromote with ⟨heq, -⟩ | ⟨q, tcb, hpromoted⟩
        · exact heq
        · exact absurd hpromoted.free (hheld rfl (by simp [hpromoted.first]))
      subst hnone
      have hpassed := ahead_advance hcurrent hk hne
      refine ⟨rfl, k, hk, rfl, ?_⟩
      change 1 + between.advance.ahead k ≤ between.ahead k
      omega
    · rw [block_eq hcurrent']
      refine ⟨rfl, k', hlt, hstands, ?_⟩
      change 0 + between.dropRunning.ahead k' ≤ th.ahead k
      omega
    · rw [reap_eq hcurrent']
      have hfree : ∀ cell, (between.dropRunning.free cell).readyQueue k' = th.readyQueue k ∧
          (between.dropRunning.free cell).rqSize = between.dropRunning.rqSize ∧
          (between.dropRunning.free cell).ahead k' = between.dropRunning.ahead k' := by
        intro cell
        cases cell <;> exact ⟨hstands, rfl, rfl⟩
      obtain ⟨hstands, hsize, hahead'⟩ := hfree between.running
      refine ⟨rfl, k', by rwa [hsize], hstands, ?_⟩
      change 0 + (between.dropRunning.free between.running).ahead k' ≤ th.ahead k
      omega

end Threads

namespace State

/-- The thread that a step resumes. -/
def resumed (s : State) : Action → List Nat
  | .tick => if s.control = .resume then s.threads.running.toList else []
  | .arrive _ => []

/-- The `siglongjmp` of a handler returns from `setjmp(sched_buf)`. -/
def preempted (s : State) : Action → List Unit
  | .tick => if s.control = .scheduler 1 then [()] else []
  | .arrive _ => []

end State

/-- The thread `p` stands in entry `k` of the ready queue, and another one runs unless
`p` is about to be resumed. -/
structure StandsAt (specs : List Spec) (s : State) (p k : Nat) : Prop where
  alive : Alive specs s
  serial : Serial s.threads s.control
  first : s.control = .scheduler 0 → s.threads.rqCurrent = 0
  bound : k < s.threads.rqSize
  stands : s.threads.readyQueue k = some p
  behind : s.control = .resume ∨ k ≠ s.threads.rqCurrent

/-- What leaves the ready queue and `rq_current` as they are. -/
theorem StandsAt.keep (hstands : StandsAt specs s p k) (halive : Alive specs t)
    (hserial : Serial t.threads t.control)
    (hready : t.threads.ready = s.threads.ready)
    (hcurrent : t.threads.rqCurrent = s.threads.rqCurrent)
    (hstart : t.control ≠ .scheduler 0 ∨ t.control = s.control)
    (hbehind : s.control = .resume → t.control = .resume ∨ k ≠ s.threads.rqCurrent) :
    StandsAt specs t p k ∧ t.threads.ahead k = s.threads.ahead k := by
  obtain ⟨hsize, hcells⟩ := ArrayPrefix.cells_inj hready
  have hbound : k < t.threads.rqSize := by
    rw [hsize]
    exact hstands.bound
  refine ⟨⟨halive, hserial, fun hc => ?_, hbound, ?_, ?_⟩,
    Threads.ahead_congr hcurrent hready k⟩
  · rw [hcurrent]
    rcases hstart with hnot | hsame
    · exact absurd hc hnot
    · exact hstands.first (hsame ▸ hc)
  · rw [hcells k hbound]
    exact hstands.stands
  · rw [hcurrent]
    rcases hstands.behind with hresume | hne
    · exact hbehind hresume
    · exact .inr hne

theorem StandsAt.arrive (hstands : StandsAt specs s p k) {sig : Signal}
    (htaken : TakenInYield s (.arrive sig)) :
    StandsAt specs (s.arrive sig) p k ∧ (s.arrive sig).threads.ahead k = s.threads.ahead k := by
  obtain ⟨hthreads, hcontrol⟩ := s.arrive_cases sig
  apply hstands.keep (hstands.alive.arrive htaken) (hstands.serial.arrive htaken)
  · rw [hthreads]
  · rw [hthreads]
  · rcases hcontrol with hsame | ⟨-, hhandler⟩
    · exact .inr hsame
    · exact .inl (by simp [hhandler])
  · intro hresume
    rcases hcontrol with hsame | ⟨hmask, -⟩
    · exact .inl (hsame.trans hresume)
    · have hyield := htaken hmask
      simp [hresume, Control.inYield] at hyield

/-- An entry of the scheduler while `p` stands in the ready queue is not the last one. -/
theorem StandsAt.remains (hstands : StandsAt specs s p k) : EntryRemains s .tick := by
  intro rtv hc
  have hcurrent := hstands.alive.core.current
  have hbound := hstands.bound
  refine ⟨fun _ => by omega, fun _ ⟨hone, _⟩ => ?_⟩
  rcases hstands.behind with hresume | hne
  · simp [hc] at hresume
  · omega

/-- A step that does not resume `p` leaves it in the ready queue, and a preemption brings
`rq_current` nearer. -/
theorem StandsAt.tick (hids : ValidIds specs) (hstands : StandsAt specs s p k)
    (htick : s.tick wrap = some t) (hnot : p ∉ s.resumed .tick) :
    ∃ k', StandsAt specs t p k' ∧
      (s.preempted .tick).length + t.threads.ahead k' ≤ s.threads.ahead k := by
  have halive := hstands.alive.tick htick hstands.remains
  have hserial := hstands.alive.serial_tick hids hstands.serial htick
  have hsame : s.control ≠ .scheduler 1 → (s.preempted .tick).length = 0 := by
    intro hc
    simp [State.preempted, hc]
  cases State.tick_ticks htick with
  | schedule rtv next hc hschedule hthreads hcontrol =>
      have hne : k ≠ s.threads.rqCurrent := by
        rcases hstands.behind with hresume | hne
        · simp [hc] at hresume
        · exact hne
      have hheld : rtv = 1 → s.threads.waiting ≠ [] → s.threads.lockOwner ≠ -1 := by
        rintro rfl hwaiting
        exact hstands.serial.held hwaiting (by simp [hc])
      obtain ⟨hresume, k', hbound, hcell, hless⟩ := Threads.schedule_cell hschedule
        (hstands.alive.entry rtv hc) hstands.alive.core.current
        (fun hzero => hstands.first (hzero ▸ hc)) hheld hstands.bound hne
      rw [← hthreads] at hbound hcell hless
      rw [← hcontrol] at hresume
      refine ⟨k', ⟨halive, hserial, by simp [hresume], hbound, hcell.trans hstands.stands,
        .inl hresume⟩, ?_⟩
      by_cases hone : rtv = 1
      · simpa [State.preempted, hc, hone] using hless
      · simpa [State.preempted, hc, hone] using hless
  | resume tcb hc hstored hthreads hcontrol =>
      have hne : k ≠ s.threads.rqCurrent := by
        rintro rfl
        apply hnot
        simp [State.resumed, hc, Threads.running, hstands.stands]
      refine ⟨k, ?_⟩
      rw [hsame (by simp [hc]), Nat.zero_add]
      have hkept := hstands.keep halive hserial (by rw [hthreads]) (by rw [hthreads]) ?_
        fun _ => .inr hne
      · exact ⟨hkept.1, hkept.2.le⟩
      · left
        rw [hcontrol]
        split <;> simp
  | body next hc hsegment hthreads hcontrol =>
      obtain ⟨q, tcb, tcb', hsegment⟩ := Threads.segment_cases hsegment
      refine ⟨k, ?_⟩
      rw [hsame (by simp [hc]), Nat.zero_add]
      have hkept := hstands.keep halive hserial (by rw [hthreads, hsegment.ready])
        (by rw [hthreads, hsegment.current]) ?_ fun hresume => by simp [hc] at hresume
      · exact ⟨hkept.1, hkept.2.le⟩
      · left
        rw [hcontrol]
        rcases hsegment.ends.control_cases with ⟨h, -⟩ | h | h <;> simp [h]
  | yield hc hthreads hcontrol =>
      have hqueue : t.threads.ready = s.threads.ready ∧
          t.threads.rqCurrent = s.threads.rqCurrent := by
        rcases hthreads with heq | ⟨line, heq⟩ <;> rw [heq] <;> exact ⟨rfl, rfl⟩
      refine ⟨k, ?_⟩
      rw [hsame, Nat.zero_add]
      · have hkept := hstands.keep halive hserial hqueue.1 hqueue.2 ?_ ?_
        · exact ⟨hkept.1, hkept.2.le⟩
        · left
          rintro hzero
          rcases hcontrol with h | h | h <;> simp [hzero, Control.inYield] at h
        · intro hresume
          simp [hresume, Control.inYield] at hc
      · intro hone
        simp [hone, Control.inYield] at hc

theorem StandsAt.run (hids : ValidIds specs) {actions : List Action}
    (hstands : StandsAt specs s p k)
    (htaken : (threading wrap specs).Meets TakenInYield s actions)
    (hrun : (threading wrap specs).run s actions = some t)
    (hnot : p ∉ (threading wrap specs).trace State.resumed s actions) :
    ∃ k', StandsAt specs t p k' ∧
      ((threading wrap specs).trace State.preempted s actions).length + t.threads.ahead k' ≤
        s.threads.ahead k := by
  induction actions generalizing s k with
  | nil =>
      obtain rfl : s = t := by simpa [TransitionSystem.run] using hrun
      exact ⟨k, hstands, by simp [TransitionSystem.trace]⟩
  | cons action rest ih =>
      simp only [TransitionSystem.run, Option.bind_eq_some_iff] at hrun
      obtain ⟨next, hstep, hrest⟩ := hrun
      simp only [TransitionSystem.trace, hstep, List.mem_append, not_or] at hnot
      have hnext : ∃ k', StandsAt specs next p k' ∧
          (s.preempted action).length + next.threads.ahead k' ≤ s.threads.ahead k := by
        cases action with
        | tick => exact hstands.tick hids hstep hnot.1
        | arrive sig =>
            obtain rfl := Option.some.inj hstep
            obtain ⟨hkept, hsame⟩ := hstands.arrive htaken.1
            exact ⟨k, hkept, by simp [State.preempted, hsame]⟩
      obtain ⟨k', hstands', hfirst⟩ := hnext
      obtain ⟨k'', hstands'', hlater⟩ := ih hstands' (htaken.2 next hstep) hrest hnot.2
      refine ⟨k'', hstands'', ?_⟩
      simp only [TransitionSystem.trace, hstep, List.length_append]
      omega

/-- The first entry of the scheduler finds `rq_current` at 0. -/
theorem reachable_first (hreach : (threading wrap specs).ReachableBy TakenInYield s)
    (hc : s.control = .scheduler 0) : s.threads.rqCurrent = 0 := by
  refine hreach.invariant
    (P := fun s => s.control = .scheduler 0 → s.threads.rqCurrent = 0) ?_ ?_ hc
  · rintro s rfl _
    obtain ⟨-, -, -, -, -, hcurrent, -⟩ := Threads.foldl_threadCreate specs
    exact hcurrent
  · intro s action t hfirst htaken hstep hc
    cases action with
    | arrive sig =>
        obtain rfl := Option.some.inj hstep
        obtain ⟨hthreads, hsame | ⟨-, hhandler⟩⟩ := s.arrive_cases sig
        · rw [hthreads]
          exact hfirst (hsame ▸ hc)
        · simp [hhandler] at hc
    | tick =>
        cases State.tick_ticks hstep with
        | schedule rtv next _ hschedule _ hcontrol =>
            rw [hcontrol] at hc
            unfold Threads.schedule at hschedule
            split at hschedule
            · simp [← Option.some.inj hschedule] at hc
            · obtain ⟨th', -, rfl⟩ := Option.map_eq_some_iff.mp hschedule
              dsimp only at hc
              split_ifs at hc
        | resume tcb _ _ _ hcontrol =>
            rw [hcontrol] at hc
            split at hc <;> simp at hc
        | body next _ hsegment _ hcontrol =>
            obtain ⟨q, tcb, tcb', hsegment⟩ := Threads.segment_cases hsegment
            rw [hcontrol] at hc
            rcases hsegment.ends.control_cases with ⟨h, -⟩ | h | h <;> simp [h] at hc
        | yield _ _ hcontrol =>
            rcases hcontrol with h | h | h <;> simp [hc, Control.inYield] at h

/-- A thread of the ready queue that does not run is resumed before more threads have been
preempted than stand ahead of it; until then each preemption brings `rq_current` nearer,
whatever threads leave or join the queue in between. -/
theorem preempted_le_ahead (hids : ValidIds specs)
    (hreach : (threading wrap specs).ReachableBy TakenInYield s)
    (hk : k < s.threads.rqSize) (hstands : s.threads.readyQueue k = some p)
    (hbehind : k ≠ s.threads.rqCurrent) {actions : List Action}
    (htaken : (threading wrap specs).Meets TakenInYield s actions)
    (hrun : (threading wrap specs).run s actions = some t) :
    p ∈ (threading wrap specs).trace State.resumed s actions ∨
      ∃ k' < t.threads.rqSize, t.threads.readyQueue k' = some p ∧
        ((threading wrap specs).trace State.preempted s actions).length + t.threads.ahead k' ≤
          s.threads.ahead k := by
  by_cases hresumed : p ∈ (threading wrap specs).trace State.resumed s actions
  · exact .inl hresumed
  · right
    rcases reachable_sound hids hreach with ⟨halive, hserial⟩ | ⟨hdrained, -⟩
    · obtain ⟨k', hlater, hle⟩ := StandsAt.run hids
        ⟨halive, hserial, reachable_first hreach, hk, hstands, .inr hbehind⟩
        htaken hrun hresumed
      exact ⟨k', hlater.bound, hlater.stands, hle⟩
    · have hempty := hdrained.empty.1
      omega

namespace FirstPreempted

def threads : List Spec := initThreads 3 3 0 0

/-- The first of two threads is preempted after its first round. -/
def actions : List Action := .arrive .tstp :: List.replicate 7 .tick

def state : State :=
  ((threading id threads).run (State.init threads) actions).getD (State.init threads)

end FirstPreempted

/-- One preemption, and `rq_current` stands at the second thread. -/
theorem preempted_le_ahead_two_loops :
    1 ∈ (threading id FirstPreempted.threads).trace State.resumed
        (State.init FirstPreempted.threads) FirstPreempted.actions ∨
      ∃ k' < FirstPreempted.state.threads.rqSize,
        FirstPreempted.state.threads.readyQueue k' = some 1 ∧
        ((threading id FirstPreempted.threads).trace State.preempted
            (State.init FirstPreempted.threads) FirstPreempted.actions).length +
          FirstPreempted.state.threads.ahead k' ≤
            (State.init FirstPreempted.threads).threads.ahead 1 :=
  preempted_le_ahead ⟨by decide, by decide⟩ (.start rfl) (by decide) rfl (by decide)
    ⟨fun hmask => absurd hmask (by decide), fun next _ => meets_ticks next 7⟩ rfl

end Scheduler

end SystemsProgramming
