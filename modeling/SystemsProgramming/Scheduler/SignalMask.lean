/-
The signal mask.  The jumps do not restore it, so a handler that is entered with the
other signal unblocked leaves the scheduler, and a thread resumed from `thread_setup`
or `lock()`, open to that signal.
-/
import SystemsProgramming.Scheduler.Entries

namespace SystemsProgramming

namespace Scheduler

variable {specs : List Spec} {wrap : Arith} {s t : State} {sig : Signal}

def State.Blocked (s : State) : Prop := ∀ sig, s.mask sig = true

/-- In `scheduler`, or in a thread function and not between the first unblocking of
`thread_yield` and its `SIG_SETMASK`. -/
def Control.outsideWindow : Control → Bool
  | scheduler _ | resume | body | unblockTstp => true
  | _ => false

/-- The requirement on the callers of `scheduler`, wherever it has to hold. -/
def SignalsBlocked (s : State) : Prop := s.control.outsideWindow = true → s.Blocked

/-- The step takes the signal. -/
def Takes (s : State) : Action → Signal → Prop
  | .arrive sig, taken => sig = taken ∧ s.mask sig = false
  | .tick, taken => s.pending taken = true ∧
      ((s.control = .unblockTstp ∧ taken = .tstp) ∨ (s.control = .unblockAlrm ∧ taken = .alrm))

/-- The running thread stands in `thread_yield`, and its environment is the one that
this `thread_yield` has saved. -/
def AtYield (s : State) : Prop :=
  (s.control = .unblockTstp ∨ s.control = .unblockAlrm ∨ s.control = .setMask) ∧
    ∃ tcb, s.threads.runningTcb = some tcb ∧ tcb.environment.isYield = true

/-- No signal is there to be taken once `thread_yield` has unblocked both. -/
def TakenInTime (s : State) : Action → Prop
  | .tick => s.control = .unblockAlrm → s.pending .alrm = false
  | .arrive sig => s.control = .setMask → s.mask sig = true

instance : (s : State) → (action : Action) → Decidable (TakenInTime s action)
  | _, .tick => inferInstanceAs (Decidable (_ → _))
  | _, .arrive _ => inferInstanceAs (Decidable (_ → _))

/-- The masks that go with the places of control. -/
def MaskFits (s : State) : Prop :=
  match s.control with
  | .unblockAlrm => s.mask .tstp = false ∧ s.mask .alrm = true
  | .setMask => s.Blocked ∨ ∀ sig, s.mask sig = false
  | _ => s.Blocked

/-- What a run keeps whose signals are taken in time. -/
structure Masked (s : State) : Prop where
  fits : MaskFits s
  saved : s.control = .unblockTstp ∨ s.control = .unblockAlrm ∨ s.control = .setMask →
    ∃ tcb, s.threads.runningTcb = some tcb ∧ tcb.environment.isYield = true

theorem Masked.blocked (hmasked : Masked s) (halrm : s.control ≠ .unblockAlrm)
    (hset : s.control ≠ .setMask) : s.Blocked := by
  have hfits := hmasked.fits
  unfold MaskFits at hfits
  split at hfits
  · contradiction
  · contradiction
  · exact hfits

theorem Masked.signalsBlocked (hmasked : Masked s) : SignalsBlocked s := by
  intro hc
  apply hmasked.blocked <;> intro h <;> simp [h, Control.outsideWindow] at hc

/-- A signal that is taken while the other one is blocked leaves both blocked. -/
theorem State.blocked_take (hothers : ∀ other, other ≠ sig → s.mask other = true) :
    (s.take sig).Blocked := by
  intro other
  by_cases heq : other = sig
  · subst heq
    exact Function.update_self _ _ _
  · exact (Function.update_of_ne heq _ _).trans (hothers other heq)

theorem maskFits_of_blocked (hblocked : t.Blocked) (hc : t.control ≠ .unblockAlrm) :
    MaskFits t := by
  unfold MaskFits
  split
  case h_1 h => exact absurd h hc
  case h_2 => exact .inl hblocked
  case h_3 => exact hblocked

/-- Control is not between the `setjmp` and the `SIG_SETMASK` of a `thread_yield`. -/
def Control.isElsewhere : Control → Bool
  | unblockTstp | unblockAlrm | setMask => false
  | _ => true

theorem Masked.of_blocked (hblocked : t.Blocked) (hc : t.control.isElsewhere = true) :
    Masked t := by
  refine ⟨maskFits_of_blocked hblocked ?_, ?_⟩
  · intro h
    simp [h, Control.isElsewhere] at hc
  · rintro (h | h | h) <;> simp [h, Control.isElsewhere] at hc

theorem Masked.arrive (hmasked : Masked s) (htime : TakenInTime s (.arrive sig)) :
    Masked (s.arrive sig) := by
  unfold State.arrive
  cases hmask : s.mask sig with
  | true => exact ⟨hmasked.fits, hmasked.saved⟩
  | false =>
      have hset : s.control ≠ .setMask := by
        intro hc
        simp [htime hc] at hmask
      have halrm : s.control = .unblockAlrm := by
        by_contra hnot
        simp [hmasked.blocked hnot hset sig] at hmask
      have hfits := hmasked.fits
      simp only [MaskFits, halrm] at hfits
      apply Masked.of_blocked _ rfl
      apply State.blocked_take
      intro other hother
      cases sig <;> cases other <;> simp_all

theorem Threads.schedule_control {th : Threads} {rtv : Nat} {next : Threads × Control}
    (hschedule : th.schedule rtv = some next) : next.2.isElsewhere = true := by
  unfold Threads.schedule at hschedule
  split at hschedule
  · cases hschedule
    rfl
  · obtain ⟨th', -, rfl⟩ := Option.map_eq_some_iff.mp hschedule
    dsimp only
    split_ifs <;> rfl

theorem Masked.tick (hmasked : Masked s) (htime : TakenInTime s .tick)
    (htick : s.tick wrap = some t) : Masked t := by
  unfold State.tick at htick
  cases hc : s.control with
  | scheduler rtv =>
      have hblocked := hmasked.blocked (by simp [hc]) (by simp [hc])
      simp only [hc] at htick
      obtain ⟨next, hschedule, rfl⟩ := Option.map_eq_some_iff.mp htick
      exact .of_blocked hblocked (Threads.schedule_control hschedule)
  | resume =>
      have hblocked := hmasked.blocked (by simp [hc]) (by simp [hc])
      simp only [hc] at htick
      obtain ⟨tcb, hstored, rfl⟩ := Option.map_eq_some_iff.mp htick
      cases hyield : tcb.environment.isYield with
      | true => exact ⟨.inl hblocked, fun _ => ⟨tcb, hstored, hyield⟩⟩
      | false => exact .of_blocked hblocked rfl
  | body =>
      have hblocked := hmasked.blocked (by simp [hc]) (by simp [hc])
      simp only [hc] at htick
      obtain ⟨next, hsegment, rfl⟩ := Option.map_eq_some_iff.mp htick
      obtain ⟨p, tcb, tcb', hsegment⟩ := Threads.segment_cases hsegment
      rcases hsegment.ends.control_cases with ⟨hnext, hyield⟩ | hnext | hnext
      · refine ⟨maskFits_of_blocked hblocked (by simp [hnext]), fun _ => ⟨tcb', ?_, hyield⟩⟩
        simp [Threads.runningTcb, hsegment.running_eq, hsegment.running, hsegment.tcbs]
      · exact .of_blocked hblocked (by simp [hnext, Control.isElsewhere])
      · exact .of_blocked hblocked (by simp [hnext, Control.isElsewhere])
  | unblockTstp =>
      have hblocked := hmasked.blocked (by simp [hc]) (by simp [hc])
      simp only [hc, Option.some.injEq] at htick
      subst htick
      unfold State.unblock
      split
      · apply Masked.of_blocked _ rfl
        exact State.blocked_take fun other _ => hblocked other
      · refine ⟨⟨rfl, ?_⟩, fun _ => hmasked.saved (.inl hc)⟩
        exact hblocked .alrm
  | unblockAlrm =>
      have hfits := hmasked.fits
      simp only [MaskFits, hc] at hfits
      simp only [hc, Option.some.injEq] at htick
      subst htick
      unfold State.unblock
      simp only [htime hc, Bool.false_eq_true, if_false]
      refine ⟨.inr fun other => ?_, fun _ => hmasked.saved (.inr (.inl hc))⟩
      cases other
      · exact hfits.1
      · rfl
  | setMask =>
      simp only [hc, Option.some.injEq] at htick
      subst htick
      exact .of_blocked (fun _ => rfl) rfl
  | handler sig =>
      have hblocked := hmasked.blocked (by simp [hc]) (by simp [hc])
      simp only [hc, Option.some.injEq] at htick
      subst htick
      exact .of_blocked hblocked rfl
  | jump =>
      have hblocked := hmasked.blocked (by simp [hc]) (by simp [hc])
      simp only [hc, Option.some.injEq] at htick
      subst htick
      exact .of_blocked hblocked rfl
  | returned => simp [hc] at htick

theorem Masked.step (hmasked : Masked s) {action : Action} (htime : TakenInTime s action)
    (hstep : s.step wrap action = some t) : Masked t := by
  cases action with
  | tick => exact hmasked.tick htime hstep
  | arrive sig =>
      obtain rfl := Option.some.inj hstep
      exact hmasked.arrive htime

/-- The ways a masked state takes a signal. -/
theorem Masked.takes (hmasked : Masked s) {action : Action} (htakes : Takes s action sig) :
    AtYield s := by
  have hwhere : s.control = .unblockTstp ∨ s.control = .unblockAlrm ∨ s.control = .setMask := by
    cases action with
    | tick =>
        rcases htakes with ⟨-, ⟨hc, -⟩ | ⟨hc, -⟩⟩
        · exact .inl hc
        · exact .inr (.inl hc)
    | arrive other =>
        obtain ⟨rfl, hmask⟩ := htakes
        by_contra hnot
        have hblocked := hmasked.blocked (fun h => hnot (.inr (.inl h)))
          (fun h => hnot (.inr (.inr h)))
        simp [hblocked other] at hmask
  exact ⟨hwhere, hmasked.saved hwhere⟩

/-- A signal that is taken too late leaves the other one unblocked in the handler. -/
theorem Masked.late (hmasked : Masked s) {action : Action} (hlate : ¬ TakenInTime s action)
    (hstep : s.step wrap action = some t) :
    ∃ sig, t.control = .handler sig ∧ ¬ t.Blocked := by
  have hfits := hmasked.fits
  cases action with
  | tick =>
      simp only [TakenInTime, Classical.not_imp, Bool.not_eq_false] at hlate
      obtain ⟨hc, hpending⟩ := hlate
      simp only [MaskFits, hc] at hfits
      simp only [State.step, State.tick, hc, State.unblock, hpending, if_true,
        Option.some.injEq] at hstep
      subst hstep
      refine ⟨.alrm, rfl, fun hblocked => ?_⟩
      have htstp := hblocked .tstp
      simp [State.take, hfits.1] at htstp
  | arrive sig =>
      simp only [TakenInTime, Classical.not_imp, Bool.not_eq_true] at hlate
      obtain ⟨hc, hmask⟩ := hlate
      simp only [MaskFits, hc] at hfits
      have hopen : ∀ other, s.mask other = false := by
        rcases hfits with hblocked | hopen
        · simp [hblocked sig] at hmask
        · exact hopen
      simp only [State.step, State.arrive, hmask, Bool.false_eq_true, if_false,
        Option.some.injEq] at hstep
      subst hstep
      refine ⟨sig, rfl, fun hblocked => ?_⟩
      cases sig with
      | tstp =>
          have halrm := hblocked .alrm
          simp [State.take, hopen] at halrm
      | alrm =>
          have htstp := hblocked .tstp
          simp [State.take, hopen] at htstp

theorem init_masked (specs : List Spec) : Masked (State.init specs) :=
  .of_blocked (fun _ => rfl) rfl

theorem reachable_masked (hreach : (threading wrap specs).ReachableBy TakenInTime s) :
    Masked s := by
  refine hreach.invariant ?_ ?_
  · rintro s rfl
    exact init_masked specs
  · intro s action t hmasked htime hstep
    exact hmasked.step htime hstep

/-- From a handler the program goes back to `scheduler` with the mask of the handler. -/
theorem run_handler (specs : List Spec) (wrap : Arith) (hc : t.control = .handler sig) :
    ∃ u, (threading wrap specs).run t [.tick, .tick] = some u ∧
      u.control = .scheduler 1 ∧ u.mask = t.mask := by
  refine ⟨{ t with threads := t.threads.print (.caught sig), control := .scheduler 1 },
    ?_, rfl, rfl⟩
  simp [TransitionSystem.run, threading, State.step, State.tick, hc]

/-- As long as every signal is taken in time, both are blocked outside the window of
`thread_yield` and a signal is taken only at a `thread_yield` that has saved the
environment.  A step that takes a signal too late brings the program back to
`scheduler` with the other one unblocked. -/
theorem signalsBlocked_iff_takenInTime (wrap : Arith) (specs : List Spec) (s : State)
    (hreach : (threading wrap specs).ReachableBy TakenInTime s) :
    SignalsBlocked s ∧ (∀ action sig, Takes s action sig → AtYield s) ∧
      ∀ action t, (threading wrap specs).step s action = some t →
        (TakenInTime s action ↔ ∀ sig, t.control = .handler sig →
          ∀ u, (threading wrap specs).run t [.tick, .tick] = some u → SignalsBlocked u) := by
  have hmasked := reachable_masked hreach
  refine ⟨hmasked.signalsBlocked, fun _ _ => hmasked.takes, fun action t hstep => ?_⟩
  constructor
  · intro htime sig hc u hrun
    obtain ⟨u', hrun', hcontrol, hmask⟩ := run_handler specs wrap hc
    obtain rfl : u' = u := Option.some.inj (hrun'.symm.trans hrun)
    have hblocked := (hmasked.step htime hstep).blocked (by simp [hc]) (by simp [hc])
    intro _ other
    rw [hmask]
    exact hblocked other
  · intro hafter
    by_contra hlate
    obtain ⟨sig, hc, hopen⟩ := hmasked.late hlate hstep
    obtain ⟨u, hrun, hcontrol, hmask⟩ := run_handler specs wrap hc
    apply hopen
    intro other
    rw [← hmask]
    exact hafter sig hc u hrun (by simp [hcontrol, Control.outsideWindow]) other

/-- `SIGTSTP` is pending and is taken at the first unblocking. -/
theorem signalsBlocked_iff_takenInTime_one_thread :
    let specs := initThreads 2 0 0 0
    let s := ((threading id specs).run (State.init specs)
      (.arrive .tstp :: List.replicate 4 .tick)).getD (State.init specs)
    SignalsBlocked s ∧ (∀ action sig, Takes s action sig → AtYield s) ∧
      ∀ action t, (threading id specs).step s action = some t →
        (TakenInTime s action ↔ ∀ sig, t.control = .handler sig →
          ∀ u, (threading id specs).run t [.tick, .tick] = some u → SignalsBlocked u) :=
  signalsBlocked_iff_takenInTime id (initThreads 2 0 0 0) _
    (TransitionSystem.ReachableBy.run (.start rfl) (.arrive .tstp :: List.replicate 4 .tick)
      (by decide) rfl)

/-- With `SIGALRM` pending at its unblocking, the scheduler is entered with `SIGTSTP`
unblocked. -/
theorem not_signalsBlocked_one_thread :
    ¬ ∀ s, (threading id (initThreads 2 0 0 0)).Reachable s → SignalsBlocked s := by
  intro hblocked
  have hlast := hblocked _ (TransitionSystem.Reachable.run (.start rfl)
    (.arrive .alrm :: List.replicate 7 .tick) rfl) rfl .tstp
  exact absurd hlast (by decide)

/-- Where both signals are blocked, an arrival before a stretch of the scheduler or of a
thread has the effect of an arrival after it, so that a stretch can be one step. -/
theorem arrive_tick_comm (hblocked : s.Blocked)
    (hc : (∃ rtv, s.control = .scheduler rtv) ∨ s.control = .resume ∨ s.control = .body) :
    (s.arrive sig).tick wrap = (s.tick wrap).map fun t => t.arrive sig := by
  have harrive : s.arrive sig = { s with pending := Function.update s.pending sig true } :=
    if_pos (hblocked sig)
  rw [harrive]
  unfold State.tick
  rcases hc with ⟨rtv, hc⟩ | hc | hc
  all_goals
    simp only [hc, Option.map_map]
    congr 1
    funext next
    simp [State.arrive, hblocked sig]

end Scheduler

end SystemsProgramming
