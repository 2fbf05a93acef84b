/-
What the scheduler resumes.  At every entry but the last one it finds a thread that
has not exited; the test for the return stands behind branches that all jump away, so
the last entry resumes the thread that has just been freed.
-/
import SystemsProgramming.Scheduler.Books
import Mathlib.Data.List.Nodup

namespace SystemsProgramming

namespace Scheduler

variable {specs : List Spec} {wrap : Arith} {s t : State}

/-- In `thread_yield`, or in a handler that has interrupted it. -/
def Control.inYield : Control → Bool
  | unblockTstp | unblockAlrm | setMask | handler _ | jump => true
  | _ => false

/-- A signal that is not blocked arrives inside `thread_yield` only. -/
def TakenInYield (s : State) : Action → Prop
  | .tick => True
  | .arrive sig => s.mask sig = false → s.control.inYield = true

namespace Threads

theorem foldl_threadCreate (specs : List Spec) :
    let th := specs.foldl threadCreate boot
    th.rqSize = specs.length ∧ th.ready = (List.range specs.length).map some ∧
      (∀ p, th.tcbs p = specs[p]?.map fun spec =>
        ⟨spec.id, spec.func.start, spec.arg, 0, 0, 0⟩) ∧
      th.waiting = [] ∧ th.lockOwner = -1 ∧ th.rqCurrent = 0 ∧ th.exited = [] := by
  induction specs using List.reverseRecOn with
  | nil => exact ⟨rfl, rfl, fun _ => rfl, rfl, rfl, rfl, rfl⟩
  | append_singleton specs spec ih =>
      simp only [List.foldl_append, List.foldl_cons, List.foldl_nil]
      obtain ⟨hsize, hready, htcbs, hwaiting, howner, hcurrent, hexited⟩ := ih
      refine ⟨?_, ?_, fun p => ?_, hwaiting, howner, hcurrent, hexited⟩
      · simp [threadCreate, threadSetup, hsize]
      · refine (ArrayPrefix.cells_push _ _ _).trans ?_
        change Threads.ready _ ++ _ = _
        rw [hready, hsize]
        simp [List.range_succ]
      · simp only [threadCreate, threadSetup, hsize]
        by_cases heq : p = specs.length
        · simp [heq]
        · rw [Function.update_of_ne heq, htcbs]
          by_cases hlt : p < specs.length
          · simp [List.getElem?_append_left hlt]
          · have hlong : specs.length + 1 ≤ p := by omega
            rw [List.getElem?_eq_none (by omega), List.getElem?_eq_none (by simpa using hlong)]

end Threads

theorem Func.func_start (func : Func) : func.start.func = func := by
  cases func <;> rfl

theorem init_books (specs : List Spec) : Books specs (State.init specs).threads [] := by
  obtain ⟨-, hready, htcbs, hwaiting, -⟩ := Threads.foldl_threadCreate specs
  change Books specs (specs.foldl Threads.threadCreate Threads.boot) []
  have hmembers : (specs.foldl Threads.threadCreate Threads.boot).members =
      (List.range specs.length).map some := by
    rw [Threads.members, hready, hwaiting, List.append_nil]
  have hlive : ∀ p, (∃ tcb, (specs.foldl Threads.threadCreate Threads.boot).tcbs p = some tcb) ↔
      p < specs.length := by
    intro p
    simp only [htcbs, Option.map_eq_some_iff]
    constructor
    · rintro ⟨_, spec, hspec, _⟩
      exact (List.getElem?_eq_some_iff.mp hspec).1
    · intro hp
      exact ⟨_, specs[p], List.getElem?_eq_getElem hp, rfl⟩
  constructor
  · rw [hmembers]
    exact List.Nodup.map (fun _ _ => Option.some.inj) List.nodup_range
  · intro cell
    simp only [hmembers, List.mem_map, List.mem_range, exists_and_left, hlive]
    constructor
    · rintro ⟨p, hp, rfl⟩
      exact ⟨p, rfl, hp⟩
    · rintro ⟨p, rfl, hp⟩
      exact ⟨p, hp, rfl⟩
  · intro p
    simp [hlive]
  · intro p tcb hstored
    rw [htcbs] at hstored
    obtain ⟨spec, hspec, rfl⟩ := Option.map_eq_some_iff.mp hstored
    rw [hspec, Func.func_start]

theorem init_core (hspecs : specs ≠ []) :
    Core specs (State.init specs).threads (State.init specs).control := by
  obtain ⟨hsize, -, -, hwaiting, howner, hcurrent, hexited⟩ := Threads.foldl_threadCreate specs
  have hbooks := init_books specs
  change Core specs (specs.foldl Threads.threadCreate Threads.boot) (.scheduler 0)
  constructor
  · have hgone : Threads.reaped (specs.foldl Threads.threadCreate Threads.boot)
        (.scheduler 0) = [] := hexited
    rw [hgone]
    exact hbooks
  · rw [hsize, hcurrent]
    exact List.length_pos_of_ne_nil hspecs
  · intro p tcb hp
    simp [hwaiting] at hp
  · intro hheld
    exact absurd howner hheld
  · simp
  · simp

theorem init_drained : Drained [] (State.init []).threads :=
  ⟨⟨rfl, rfl⟩, fun _ => rfl, by simp⟩

/-- A thread is left, and control is where the program can be. -/
structure Alive (specs : List Spec) (s : State) : Prop where
  core : Core specs s.threads s.control
  entry : ∀ rtv, s.control = .scheduler rtv → rtv ≤ 3
  running : s.control ≠ .returned

theorem init_alive (hspecs : specs ≠ []) : Alive specs (State.init specs) := by
  refine ⟨init_core hspecs, fun rtv hrtv => ?_, Control.noConfusion⟩
  cases hrtv
  omega

/-- An entry of `scheduler` with a thread to resume. -/
def EntryRemains (s : State) : Action → Prop
  | .tick => ∀ rtv, s.control = .scheduler rtv → ThreadsRemain s.threads rtv
  | .arrive _ => True

/-- What one tick does to the threads and to control. -/
inductive Ticks (wrap : Arith) (s t : State) : Prop
  | schedule (rtv : Nat) (next : Threads × Control) : s.control = .scheduler rtv →
      s.threads.schedule rtv = some next → t.threads = next.1 → t.control = next.2 →
      Ticks wrap s t
  | resume (tcb : Tcb) : s.control = .resume → s.threads.runningTcb = some tcb →
      t.threads = s.threads →
      t.control = (if tcb.environment.isYield then .setMask else .body) → Ticks wrap s t
  | body (next : Threads × Control) : s.control = .body → s.threads.segment wrap = some next →
      t.threads = next.1 → t.control = next.2 → Ticks wrap s t
  /-- Inside `thread_yield` or a handler, with at most a line printed. -/
  | yield : s.control.inYield = true →
      (t.threads = s.threads ∨ ∃ line, t.threads = s.threads.print line) →
      (t.control.inYield = true ∨ t.control = .body ∨ t.control = .scheduler 1) → Ticks wrap s t

theorem State.unblock_ticks {sig : Signal} {after : Control} (hc : s.control.inYield = true)
    (hafter : after.inYield = true) : Ticks wrap s (s.unblock sig after) := by
  apply Ticks.yield hc
  · left
    unfold State.unblock
    split <;> rfl
  · left
    unfold State.unblock
    split
    · rfl
    · exact hafter

theorem State.tick_ticks (htick : s.tick wrap = some t) : Ticks wrap s t := by
  unfold State.tick at htick
  cases hc : s.control with
  | scheduler rtv =>
      simp only [hc] at htick
      obtain ⟨next, hschedule, rfl⟩ := Option.map_eq_some_iff.mp htick
      exact .schedule rtv next hc hschedule rfl rfl
  | resume =>
      simp only [hc] at htick
      obtain ⟨tcb, hstored, rfl⟩ := Option.map_eq_some_iff.mp htick
      exact .resume tcb hc hstored rfl rfl
  | body =>
      simp only [hc] at htick
      obtain ⟨next, hsegment, rfl⟩ := Option.map_eq_some_iff.mp htick
      exact .body next hc hsegment rfl rfl
  | unblockTstp =>
      simp only [hc, Option.some.injEq] at htick
      subst htick
      apply State.unblock_ticks <;> simp [hc, Control.inYield]
  | unblockAlrm =>
      simp only [hc, Option.some.injEq] at htick
      subst htick
      apply State.unblock_ticks <;> simp [hc, Control.inYield]
  | setMask =>
      simp only [hc, Option.some.injEq] at htick
      subst htick
      apply Ticks.yield <;> simp [hc, Control.inYield]
  | handler sig =>
      simp only [hc, Option.some.injEq] at htick
      subst htick
      apply Ticks.yield
      · simp [hc, Control.inYield]
      · exact .inr ⟨_, rfl⟩
      · simp [Control.inYield]
  | jump =>
      simp only [hc, Option.some.injEq] at htick
      subst htick
      apply Ticks.yield <;> simp [hc, Control.inYield]
  | returned => simp [hc] at htick

/-- An arrival leaves the threads as they are; a signal that is taken leads to its
handler. -/
theorem State.arrive_cases (s : State) (sig : Signal) :
    (s.arrive sig).threads = s.threads ∧
      ((s.arrive sig).control = s.control ∨
        s.mask sig = false ∧ (s.arrive sig).control = .handler sig) := by
  unfold State.arrive
  cases hmask : s.mask sig with
  | true => exact ⟨rfl, .inl rfl⟩
  | false => exact ⟨rfl, .inr ⟨rfl, rfl⟩⟩

theorem Control.not_leaving_of_inYield {c : Control} (hc : c.inYield = true) : ¬ Leaving c := by
  rintro (rfl | rfl) <;> simp [Control.inYield] at hc

/-- The steps with no effect on the queues and none on who is left. -/
theorem Alive.move (halive : Alive specs s) (hc : ¬ Leaving s.control)
    (hthreads : t.threads = s.threads ∨ ∃ line, t.threads = s.threads.print line)
    (hc' : t.control.inYield = true ∨ t.control = .body ∨ t.control = .scheduler 1) :
    Alive specs t := by
  have hcore : Core specs t.threads s.control := by
    rcases hthreads with heq | ⟨line, heq⟩
    · rw [heq]
      exact halive.core
    · rw [heq]
      exact halive.core.print line
  have hstays : ¬ Leaving t.control := by
    rcases hc' with hyield | hbody | hentry
    · exact Control.not_leaving_of_inYield hyield
    · simp [hbody, Leaving]
    · simp [hentry, Leaving]
  refine ⟨hcore.move hc hstays, fun rtv hrtv => ?_, fun hreturned => ?_⟩
  · rw [hrtv] at hc'
    simp [Control.inYield] at hc'
    omega
  · rw [hreturned] at hc'
    simp [Control.inYield] at hc'

theorem Alive.tick (halive : Alive specs s) (htick : s.tick wrap = some t)
    (hremains : ∀ rtv, s.control = .scheduler rtv → ThreadsRemain s.threads rtv) :
    Alive specs t := by
  have hcore := halive.core
  cases State.tick_ticks htick with
  | schedule rtv next hc hschedule hthreads hcontrol =>
      rw [hc] at hcore
      obtain ⟨th', hsame, hnext, -⟩ := hcore.schedule (halive.entry rtv hc)
      obtain rfl : (th', Control.resume) = next := Option.some.inj (hsame.symm.trans hschedule)
      refine ⟨?_, ?_, ?_⟩
      · rw [hthreads, hcontrol]
        exact hnext (hremains rtv hc)
      all_goals simp [hcontrol]
  | resume tcb hc _ hthreads hcontrol =>
      apply halive.move _ (.inl hthreads)
      · cases henv : tcb.environment.isYield <;> simp [hcontrol, henv, Control.inYield]
      · simp [hc, Leaving]
  | body next hc hsegment hthreads hcontrol =>
      obtain ⟨p, tcb, tcb', hsegment⟩ := Threads.segment_cases hsegment
      rw [hc] at hcore
      refine ⟨?_, fun rtv hrtv => ?_, fun hreturned => ?_⟩
      · rw [hthreads, hcontrol]
        exact hcore.segment hsegment
      · rw [hcontrol] at hrtv
        rcases hsegment.ends.control_cases with ⟨h, -⟩ | h | h
        all_goals simp_all
        all_goals omega
      · rw [hcontrol] at hreturned
        rcases hsegment.ends.control_cases with ⟨h, -⟩ | h | h
        all_goals simp_all
  | yield hc hthreads hcontrol =>
      exact halive.move (Control.not_leaving_of_inYield hc) hthreads hcontrol

theorem Alive.arrive (halive : Alive specs s) {sig : Signal}
    (htaken : TakenInYield s (.arrive sig)) : Alive specs (s.arrive sig) := by
  rcases s.arrive_cases sig with ⟨hthreads, heq | ⟨hmask, heq⟩⟩
  · refine ⟨?_, ?_, ?_⟩
    · rw [hthreads, heq]
      exact halive.core
    · rw [heq]
      exact halive.entry
    · rw [heq]
      exact halive.running
  · apply halive.move (Control.not_leaving_of_inYield (htaken hmask)) (.inl hthreads)
    simp [heq, Control.inYield]

theorem Alive.step (halive : Alive specs s) {action : Action} (htaken : TakenInYield s action)
    (hremains : EntryRemains s action) (hstep : s.step wrap action = some t) :
    Alive specs t := by
  cases action with
  | tick => exact halive.tick hstep hremains
  | arrive sig =>
      obtain rfl := Option.some.inj hstep
      exact halive.arrive htaken

/-- Only threads that have not exited are resumed and run, and `scheduler` returns
when none is left. -/
structure ResumesLive (s : State) : Prop where
  resumes : s.control = .resume → s.threads.rqCurrent < s.threads.rqSize ∧
    ∃ p, s.threads.running = some p ∧ p ∉ s.threads.exited
  returns : s.threads.rqSize = 0 → s.threads.wqSize = 0 → s.control ≠ .resume
  runs : s.control = .body → ∃ p, s.threads.running = some p ∧ p ∉ s.threads.exited

theorem Alive.resumesLive (halive : Alive specs s) : ResumesLive s := by
  obtain ⟨p, tcb, hrunning, hstored⟩ :=
    halive.core.books.stored_running halive.core.current
  have hleft : s.control ≠ .scheduler 3 → p ∉ s.threads.exited := by
    intro hc
    have hcensus := ((halive.core.books.census p).mp ⟨tcb, hstored⟩).2
    simpa [Threads.reaped, hc] using hcensus
  constructor
  · intro hc
    exact ⟨halive.core.current, p, hrunning, hleft (by simp [hc])⟩
  · intro hempty
    have hcurrent := halive.core.current
    omega
  · intro hc
    exact ⟨p, hrunning, hleft (by simp [hc])⟩

/-- No thread has been created, and `scheduler` is not entered yet. -/
def NoneCreated (specs : List Spec) (s : State) : Prop :=
  s.control = .scheduler 0 ∧ Drained specs s.threads

theorem NoneCreated.step (hnone : NoneCreated specs s) {action : Action}
    (htaken : TakenInYield s action) (hremains : EntryRemains s action)
    (hstep : s.step wrap action = some t) : NoneCreated specs t := by
  cases action with
  | tick =>
      have hsize := (hremains 0 hnone.1).1 rfl
      have hempty := hnone.2.empty.1
      omega
  | arrive sig =>
      obtain rfl := Option.some.inj hstep
      rcases s.arrive_cases sig with ⟨hthreads, heq | ⟨hmask, -⟩⟩
      · exact ⟨heq.trans hnone.1, hthreads ▸ hnone.2⟩
      · have hyield := htaken hmask
        simp [hnone.1, Control.inYield] at hyield

/-- The entry with no thread left jumps to a thread that has exited. -/
theorem Alive.last_entry (halive : Alive specs s) {rtv : Nat} (hc : s.control = .scheduler rtv)
    (hlast : ¬ ThreadsRemain s.threads rtv) :
    ∃ t, s.step wrap .tick = some t ∧ Drained specs t.threads ∧ t.control = .resume := by
  have hcore := halive.core
  rw [hc] at hcore
  obtain ⟨th', hschedule, -, hdrained⟩ := hcore.schedule (halive.entry rtv hc)
  refine ⟨{ s with threads := th', control := .resume }, ?_, hdrained hlast, rfl⟩
  simp [State.step, State.tick, hc, hschedule]

theorem Drained.not_resumesLive (hdrained : Drained specs s.threads)
    (hc : s.control = .resume) : ¬ ResumesLive s := fun hlive =>
  hlive.returns hdrained.empty.1 hdrained.empty.2 hc

/-- In every run whose signals are taken inside `thread_yield`, the scheduler resumes
live threads only exactly if each of its entries finds a thread that is left. -/
theorem resumesLive_iff_entryRemains (wrap : Arith) (specs : List Spec) (actions : List Action)
    (htaken : (threading wrap specs).Meets TakenInYield (State.init specs) actions) :
    (threading wrap specs).Along ResumesLive (State.init specs) actions ↔
      (threading wrap specs).Meets EntryRemains (State.init specs) actions := by
  -- before the first entry with no thread created there is no thread either
  have hstart : Alive specs (State.init specs) ∨ NoneCreated specs (State.init specs) := by
    by_cases hspecs : specs = []
    · subst hspecs
      exact .inr ⟨rfl, init_drained⟩
    · exact .inl (init_alive hspecs)
  have hinv : ∀ s, Alive specs s ∨ NoneCreated specs s → ResumesLive s := by
    rintro s (halive | hnone)
    · exact halive.resumesLive
    · constructor <;> simp [hnone.1]
  refine TransitionSystem.along_iff_meets hinv ?_ ?_ hstart actions htaken
  · rintro s action t (halive | hnone) htaken hremains hstep
    · exact .inl (halive.step htaken hremains hstep)
    · exact .inr (hnone.step htaken hremains hstep)
  · intro s action hinv _ hlast
    cases action with
    | arrive sig => exact absurd trivial hlast
    | tick =>
        simp only [EntryRemains, not_forall] at hlast
        obtain ⟨rtv, hc, hlast⟩ := hlast
        rcases hinv with halive | ⟨hstart, hdrained⟩
        · obtain ⟨t, hstep, hdrained, hresume⟩ := halive.last_entry hc hlast
          exact ⟨t, hstep, hdrained.not_resumesLive hresume⟩
        · refine ⟨{ s with threads := { s.threads with rqCurrent := 0 }, control := .resume },
            ?_, fun hlive => hlive.returns hdrained.empty.1 hdrained.empty.2 rfl⟩
          simp [threading, State.step, State.tick, hstart, Threads.schedule]

theorem meets_ticks (s : State) (n : Nat) :
    (threading wrap specs).Meets TakenInYield s (List.replicate n .tick) := by
  induction n generalizing s with
  | zero => trivial
  | succ n ih => exact ⟨trivial, fun next _ => ih next⟩

/-- A `SIGALRM` that is pending from the start preempts the first thread. -/
theorem resumesLive_iff_entryRemains_two_threads :
    (threading id (initThreads 2 2 0 0)).Along ResumesLive (State.init (initThreads 2 2 0 0))
        (.arrive .alrm :: List.replicate 8 .tick) ↔
      (threading id (initThreads 2 2 0 0)).Meets EntryRemains
        (State.init (initThreads 2 2 0 0)) (.arrive .alrm :: List.replicate 8 .tick) :=
  resumesLive_iff_entryRemains id (initThreads 2 2 0 0) _
    ⟨fun hmask => absurd hmask (by decide), fun next _ => meets_ticks next 8⟩

/-- Whatever signals are taken inside `thread_yield`, only live threads are resumed. -/
def OnlyLiveResumed (wrap : Arith) (specs : List Spec) : Prop :=
  ∀ actions, (threading wrap specs).Meets TakenInYield (State.init specs) actions →
    (threading wrap specs).Along ResumesLive (State.init specs) actions

/-- It fails with no thread, and with one thread that runs to its end. -/
theorem not_onlyLiveResumed_initThreads :
    ¬ OnlyLiveResumed id (initThreads 0 0 0 0) ∧ ¬ OnlyLiveResumed id (initThreads 1 0 0 0) := by
  constructor
  · intro hlive
    have halong := hlive (List.replicate 1 .tick) (meets_ticks _ 1)
    exact (halong.2 _ rfl).returns rfl rfl rfl
  · intro hlive
    have halong := hlive (List.replicate 4 .tick) (meets_ticks _ 4)
    exact (TransitionSystem.Along.last halong rfl).returns rfl rfl rfl

end Scheduler

end SystemsProgramming
