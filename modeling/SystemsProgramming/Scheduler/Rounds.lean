/-
What a stretch of a thread function prints and counts.  The two loops are one loop
with different rounds, and nothing but a stretch of its own moves a thread forward.
-/
import SystemsProgramming.Scheduler.LockOwner
import Mathlib

namespace SystemsProgramming

namespace Scheduler

variable {specs : List Spec} {wrap : Arith} {s t : State} {th th' : Threads} {p q : Nat}
  {tcb tcb' : Tcb}

/-- The thread whose body prints a line.  `thread_setup` and the handler print in no
body. -/
def Line.author : Line → Option Int
  | value id _ | acquired id | transfer id _ _ | released id => some id
  | setup _ _ | caught _ => none

/-- What the body of the thread with this id has printed. -/
def Threads.printedBy (th : Threads) (id : Int) : List Line :=
  th.output.filter fun line => line.author = some id

namespace Environment

/-- The point at which a loop stands. -/
def loopPoint : Environment → Option LoopPoint
  | fibonacci point | factorial point => some point
  | bankOperation _ => none

/-- What the `thread_yield` of a loop saves. -/
def atYield : Environment → Environment
  | fibonacci _ => fibonacci .yield
  | factorial _ => factorial .yield
  | bankOperation point => bankOperation point

theorem loopPoint_eq_none_iff {environment : Environment} :
    environment.loopPoint = none ↔ environment.func = .bankOperation := by
  cases environment <;> simp [loopPoint, func]

end Environment

namespace Tcb

/-- The next round of the loop of the thread. -/
def round (wrap : Arith) (tcb : Tcb) : Tcb :=
  match tcb.environment with
  | .fibonacci point => tcb.fibonacciRound wrap (tcb.nextI wrap point)
  | .factorial point => tcb.factorialRound wrap (tcb.nextI wrap point)
  | .bankOperation _ => tcb

/-- What a round prints. -/
def result (tcb : Tcb) : Int :=
  match tcb.environment with
  | .fibonacci _ => tcb.y
  | .factorial _ | .bankOperation _ => tcb.x

/-- The rounds that the loop of the thread has done. -/
def rounds (tcb : Tcb) : Nat :=
  if tcb.environment.loopPoint = some .yield then tcb.i.toNat else 0

theorem round_same (wrap : Arith) (tcb : Tcb) : (tcb.round wrap).id = tcb.id ∧
    (tcb.round wrap).arg = tcb.arg ∧ (tcb.round wrap).environment = tcb.environment := by
  unfold round
  cases henv : tcb.environment with
  | fibonacci point =>
      simp only [fibonacciRound]
      split <;> exact ⟨rfl, rfl, henv⟩
  | factorial point =>
      simp only [factorialRound]
      split <;> exact ⟨rfl, rfl, henv⟩
  | bankOperation point => exact ⟨rfl, rfl, henv⟩

theorem round_i (wrap : Arith) {point : LoopPoint}
    (hpoint : tcb.environment.loopPoint = some point) :
    (tcb.round wrap).i = tcb.nextI wrap point := by
  unfold round
  cases henv : tcb.environment with
  | fibonacci other =>
      obtain rfl : other = point := by simpa [henv, Environment.loopPoint] using hpoint
      simp only [fibonacciRound]
      split <;> rfl
  | factorial other =>
      obtain rfl : other = point := by simpa [henv, Environment.loopPoint] using hpoint
      simp only [factorialRound]
      split <;> rfl
  | bankOperation other => simp [henv, Environment.loopPoint] at hpoint

/-- The thread after a round that ends in `thread_yield`. -/
def yielded (wrap : Arith) (tcb : Tcb) : Tcb :=
  { tcb.round wrap with environment := tcb.environment.atYield }

theorem yielded_loopPoint (hfunc : tcb.environment.func ≠ .bankOperation) :
    (tcb.yielded wrap).environment.loopPoint = some .yield ∧
      (tcb.yielded wrap).environment.func = tcb.environment.func := by
  unfold yielded
  cases henv : tcb.environment with
  | fibonacci point | factorial point => exact ⟨rfl, rfl⟩
  | bankOperation point => simp [henv, Environment.func] at hfunc

theorem yielded_result (hfunc : tcb.environment.func ≠ .bankOperation) :
    (tcb.yielded wrap).result = (tcb.round wrap).result := by
  unfold yielded result
  rw [(tcb.round_same wrap).2.2]
  cases henv : tcb.environment with
  | fibonacci point | factorial point => rfl
  | bankOperation point => simp [henv, Environment.func] at hfunc

end Tcb

/-- The results that fit in an `int` are not changed. -/
def KeepsInts (wrap : Arith) : Prop := ∀ n : Int, 0 ≤ n → n < 2 ^ 31 → wrap n = n

/-- A loop that has yielded has a round to go. -/
def InLoop (tcb : Tcb) : Prop :=
  tcb.environment.loopPoint = some .yield → 1 ≤ tcb.i ∧ tcb.i < tcb.arg

/-- A round is counted, and it is the last one or leaves a round to go. -/
theorem InLoop.round (hloop : InLoop tcb) (hwrap : KeepsInts wrap)
    (hfunc : tcb.environment.func ≠ .bankOperation) (hpos : 0 < tcb.arg)
    (hint : tcb.arg < 2 ^ 31) :
    (tcb.round wrap).i = tcb.rounds + 1 ∧ (tcb.rounds : Int) + 1 ≤ tcb.arg := by
  obtain ⟨point, hpoint⟩ : ∃ point, tcb.environment.loopPoint = some point := by
    rw [← Option.ne_none_iff_exists', Ne, Environment.loopPoint_eq_none_iff]
    exact hfunc
  rw [Tcb.round_i wrap hpoint]
  cases point with
  | setup =>
      have hzero : tcb.rounds = 0 := by simp [Tcb.rounds, hpoint]
      rw [hzero]
      exact ⟨rfl, by omega⟩
  | yield =>
      obtain ⟨hone, hlt⟩ := hloop hpoint
      have hrounds : (tcb.rounds : Int) = tcb.i := by simp [Tcb.rounds, hpoint]; omega
      have hnext : tcb.nextI wrap .yield = tcb.i + 1 := hwrap _ (by omega) (by omega)
      rw [hnext, hrounds]
      exact ⟨rfl, by omega⟩

theorem InLoop.yielded_rounds (hloop : InLoop tcb) (hwrap : KeepsInts wrap)
    (hfunc : tcb.environment.func ≠ .bankOperation) (hpos : 0 < tcb.arg)
    (hint : tcb.arg < 2 ^ 31) : (tcb.yielded wrap).rounds = tcb.rounds + 1 := by
  have hi : (tcb.yielded wrap).i = tcb.rounds + 1 := (hloop.round hwrap hfunc hpos hint).1
  rw [Tcb.rounds, if_pos (Tcb.yielded_loopPoint hfunc).1, hi]
  exact Int.toNat_natCast (tcb.rounds + 1)

/-- A round that is not the last one leaves a round to go. -/
theorem InLoop.yielded (hloop : InLoop tcb) (hwrap : KeepsInts wrap)
    (hfunc : tcb.environment.func ≠ .bankOperation) (hpos : 0 < tcb.arg)
    (hint : tcb.arg < 2 ^ 31) (hmore : (tcb.round wrap).i ≠ tcb.arg) :
    InLoop (tcb.yielded wrap) := by
  intro _
  have hround := hloop.round hwrap hfunc hpos hint
  have hi : (tcb.yielded wrap).i = (tcb.round wrap).i := rfl
  have harg : (tcb.yielded wrap).arg = tcb.arg := (tcb.round_same wrap).2.1
  omega

namespace Threads

/-- What the stretch of the running thread prints. -/
def prints (wrap : Arith) (th : Threads) (tcb : Tcb) : List Line :=
  match tcb.environment with
  | .fibonacci _ | .factorial _ => [.value tcb.id (tcb.round wrap).result]
  | .bankOperation .setup => if th.lockOwner = -1 then [.acquired tcb.id] else []
  | .bankOperation .lock => [.acquired tcb.id]
  | .bankOperation .firstYield =>
      [.transfer tcb.id th.balance (Scheduler.transfer wrap th.balance tcb.arg)]
  | .bankOperation .secondYield =>
      if (th.unlock tcb).lockOwner = -1 then [.released tcb.id] else []

/-- What it leaves in `bank.balance`. -/
def balanceAfter (wrap : Arith) (th : Threads) (tcb : Tcb) : Int :=
  if tcb.environment = .bankOperation .firstYield then
    Scheduler.transfer wrap th.balance tcb.arg
  else th.balance

theorem prints_author {line : Line} (hline : line ∈ th.prints wrap tcb) :
    line.author = some tcb.id := by
  unfold prints at hline
  split at hline
  all_goals try split at hline
  all_goals simp at hline
  all_goals simp [hline, Line.author]

theorem prints_loop (hfunc : tcb.environment.func ≠ .bankOperation) :
    th.prints wrap tcb = [.value tcb.id (tcb.round wrap).result] := by
  unfold prints
  cases henv : tcb.environment with
  | fibonacci point | factorial point => rfl
  | bankOperation point => simp [henv, Environment.func] at hfunc

/-- The two loops end their rounds alike. -/
theorem segment_loop (wrap : Arith) (hrunning : th.running = some p)
    (hstored : th.tcbs p = some tcb) (hfunc : tcb.environment.func ≠ .bankOperation) :
    th.segment wrap = some (th.loopEnd p (tcb.round wrap) (tcb.round wrap).result
      tcb.environment.atYield) := by
  have hsame := (tcb.round_same wrap).2.2
  unfold segment
  rw [hrunning, Option.bind_some, hstored, Option.map_some]
  unfold Tcb.result
  rw [hsame]
  unfold Tcb.round
  cases henv : tcb.environment with
  | fibonacci point => rfl
  | factorial point => rfl
  | bankOperation point => simp [henv, Environment.func] at hfunc

theorem loopEnd_output (th : Threads) (p : Nat) (tcb : Tcb) (v : Int) (later : Environment) :
    (th.loopEnd p tcb v later).1.output = th.output ++ [.value tcb.id v] ∧
      (th.loopEnd p tcb v later).1.balance = th.balance := by
  unfold loopEnd
  split <;> exact ⟨rfl, rfl⟩

theorem segment_output {next : Threads × Control} (hsegment : th.segment wrap = some next)
    (hrunning : th.running = some p) (hstored : th.tcbs p = some tcb) :
    next.1.output = th.output ++ th.prints wrap tcb ∧
      next.1.balance = th.balanceAfter wrap tcb := by
  by_cases hfunc : tcb.environment.func = .bankOperation
  · unfold segment at hsegment
    rw [hrunning, Option.bind_some, hstored, Option.map_some, Option.some.injEq] at hsegment
    subst hsegment
    unfold prints balanceAfter
    rcases henv : tcb.environment with point | point | point
    · simp [henv, Environment.func] at hfunc
    · simp [henv, Environment.func] at hfunc
    · rcases point with _ | _ | _ | _
      · simp only [bankOperation]
        split <;> simp [acquired, threadYield, store, print]
      · simp [bankOperation, acquired, threadYield, store, print]
      · simp [bankOperation, threadYield, store, print]
      · simp only [bankOperation]
        split <;> simp [threadExit, store, print, unlock] <;> split <;> simp
  · rw [segment_loop wrap hrunning hstored hfunc, Option.some.injEq] at hsegment
    subst hsegment
    have hbalance : th.balanceAfter wrap tcb = th.balance := by
      unfold balanceAfter
      cases henv : tcb.environment <;> simp_all [Environment.func]
    obtain ⟨houtput, hkept⟩ := th.loopEnd_output p (tcb.round wrap)
      (tcb.round wrap).result tcb.environment.atYield
    rw [houtput, hkept, prints_loop hfunc, hbalance, (tcb.round_same wrap).1]
    exact ⟨rfl, rfl⟩

/-- Nothing happens to a thread but that it may be freed, and no body prints. -/
structure Quiet (th th' : Threads) : Prop where
  exited : th'.exited = th.exited
  balance : th'.balance = th.balance
  output : ∃ signals : List Signal, th'.output = th.output ++ signals.map Line.caught
  stored : ∀ p tcb, th'.tcbs p = some tcb → th.tcbs p = some tcb

theorem Quiet.of_stored (hexited : th'.exited = th.exited) (hbalance : th'.balance = th.balance)
    (houtput : th'.output = th.output)
    (hstored : ∀ p tcb, th'.tcbs p = some tcb → th.tcbs p = some tcb) : Quiet th th' :=
  ⟨hexited, hbalance, ⟨[], by simp [houtput]⟩, hstored⟩

theorem Quiet.refl (th : Threads) : Quiet th th :=
  .of_stored rfl rfl rfl fun _ _ => id

theorem Quiet.trans {between : Threads} (hfirst : Quiet th between)
    (hlast : Quiet between th') : Quiet th th' where
  exited := hlast.exited.trans hfirst.exited
  balance := hlast.balance.trans hfirst.balance
  output := by
    obtain ⟨signals, heq⟩ := hfirst.output
    obtain ⟨more, heq'⟩ := hlast.output
    exact ⟨signals ++ more, by simp [heq', heq]⟩
  stored p tcb hstored := hfirst.stored p tcb (hlast.stored p tcb hstored)

theorem Quiet.printedBy (hquiet : Quiet th th') (id : Int) :
    th'.printedBy id = th.printedBy id := by
  obtain ⟨signals, heq⟩ := hquiet.output
  have hnone : (signals.map Line.caught).filter (fun line => line.author = some id) = [] := by
    simp [List.filter_eq_nil_iff, Line.author]
  rw [Threads.printedBy, heq, List.filter_append, hnone, List.append_nil]
  rfl

theorem promote_quiet (hpromote : th.promote = some th') : Quiet th th' := by
  unfold promote at hpromote
  split at hpromote
  · obtain ⟨tcb, -, rfl⟩ := Option.map_eq_some_iff.mp hpromote
    exact .of_stored rfl rfl rfl fun _ _ => id
  · obtain rfl := Option.some.inj hpromote
    exact .refl th

theorem block_quiet (th : Threads) : Quiet th th.block := by
  unfold block
  split
  · exact .of_stored rfl rfl rfl fun _ _ => id
  · split <;> exact .of_stored rfl rfl rfl fun _ _ => id

theorem free_quiet (th : Threads) (cell : Option Nat) : Quiet th (th.free cell) := by
  cases cell with
  | none => exact .refl th
  | some p =>
      refine .of_stored rfl rfl rfl fun q tcb hstored => ?_
      by_cases heq : q = p
      · simp [free, heq] at hstored
      · simpa [free, heq] using hstored

theorem reap_quiet (th : Threads) : Quiet th th.reap := by
  unfold reap
  split
  · refine Quiet.trans ?_ (free_quiet _ _)
    exact .of_stored rfl rfl rfl fun _ _ => id
  · split
    · refine Quiet.trans ?_ (free_quiet _ _)
      exact .of_stored rfl rfl rfl fun _ _ => id
    · exact .refl th

theorem schedule_quiet {rtv : Nat} {next : Threads × Control}
    (hschedule : th.schedule rtv = some next) (hle : rtv ≤ 3) : Quiet th next.1 := by
  rcases schedule_cases hschedule hle with ⟨-, rfl⟩ | ⟨between, hpromote, hnext⟩
  · exact .of_stored rfl rfl rfl fun _ _ => id
  have hquiet := promote_quiet hpromote
  rcases hnext with ⟨-, rfl⟩ | ⟨-, rfl⟩ | ⟨-, rfl⟩
  · exact hquiet.trans (.of_stored rfl rfl rfl fun _ _ => id)
  · exact hquiet.trans (block_quiet between)
  · exact hquiet.trans (reap_quiet between)

end Threads

open Threads (Quiet)

/-- One stretch of the function of the running thread `p`, with what it prints. -/
structure Stretch (wrap : Arith) (s t : State) (p : Nat) (tcb tcb' : Tcb) : Prop where
  body : s.control = .body
  segment : Segment s.threads p tcb tcb' t.threads t.control
  output : t.threads.output = s.threads.output ++ s.threads.prints wrap tcb
  balance : t.threads.balance = s.threads.balanceAfter wrap tcb
  computes : s.threads.segment wrap = some (t.threads, t.control)

/-- The stretch of a thread function that a step runs, with its resume point. -/
def State.stretch (s : State) : Action → List (Nat × Environment)
  | .tick =>
      if s.control = .body then
        (s.threads.running.bind fun p =>
          (s.threads.tcbs p).map fun tcb => (p, tcb.environment)).toList
      else []
  | .arrive _ => []

/-- The stretches of a run from the start. -/
def stretches (wrap : Arith) (specs : List Spec) (actions : List Action) :
    List (Nat × Environment) :=
  (threading wrap specs).trace State.stretch (State.init specs) actions

theorem Stretch.stretch_eq (hstretch : Stretch wrap s t p tcb tcb') :
    s.stretch .tick = [(p, tcb.environment)] := by
  simp [State.stretch, hstretch.body, hstretch.segment.running, hstretch.segment.stored]

theorem State.stretch_eq_nil {action : Action} (hbody : action = .tick → s.control ≠ .body) :
    s.stretch action = [] := by
  cases action with
  | arrive sig => rfl
  | tick => exact if_neg (hbody rfl)

/-- A stretch of a loop is a round, with `thread_exit` after the last one. -/
theorem Stretch.loop (hstretch : Stretch wrap s t p tcb tcb')
    (hfunc : tcb.environment.func ≠ .bankOperation) :
    ((tcb.round wrap).i = tcb.arg → t.threads.exited = s.threads.exited ++ [p]) ∧
    ((tcb.round wrap).i ≠ tcb.arg → t.threads.exited = s.threads.exited ∧
      t.threads.tcbs p = some (tcb.yielded wrap)) := by
  have hcomputes := Threads.segment_loop wrap hstretch.segment.running
    hstretch.segment.stored hfunc
  rw [hstretch.computes, Option.some.injEq] at hcomputes
  have hthreads := congrArg Prod.fst hcomputes
  simp only [Threads.loopEnd, (tcb.round_same wrap).2.1] at hthreads
  constructor
  · intro hlast
    rw [if_pos hlast] at hthreads
    rw [hthreads]
    rfl
  · intro hmore
    rw [if_neg hmore] at hthreads
    rw [hthreads]
    exact ⟨rfl, Function.update_self _ _ _⟩

/-- A tick is a stretch of a thread function or quiet. -/
theorem State.tick_stretch (hentry : ∀ rtv, s.control = .scheduler rtv → rtv ≤ 3)
    (htick : s.tick wrap = some t) : (∃ p tcb tcb', Stretch wrap s t p tcb tcb') ∨
      s.control ≠ .body ∧ Quiet s.threads t.threads := by
  unfold State.tick at htick
  cases hc : s.control with
  | scheduler rtv =>
      simp only [hc] at htick
      obtain ⟨next, hschedule, rfl⟩ := Option.map_eq_some_iff.mp htick
      exact .inr ⟨by simp, Threads.schedule_quiet hschedule (hentry rtv hc)⟩
  | body =>
      simp only [hc] at htick
      obtain ⟨next, hsegment, rfl⟩ := Option.map_eq_some_iff.mp htick
      obtain ⟨p, tcb, tcb', hstretch⟩ := Threads.segment_cases hsegment
      obtain ⟨houtput, hbalance⟩ :=
        Threads.segment_output hsegment hstretch.running hstretch.stored
      exact .inl ⟨p, tcb, tcb', hc, hstretch, houtput, hbalance, hsegment⟩
  | handler sig =>
      simp only [hc, Option.some.injEq] at htick
      subst htick
      exact .inr ⟨by simp, rfl, rfl, ⟨[sig], rfl⟩, fun _ _ => id⟩
  | returned => simp [hc] at htick
  | resume =>
      simp only [hc] at htick
      obtain ⟨tcb, -, rfl⟩ := Option.map_eq_some_iff.mp htick
      exact .inr ⟨by simp, .refl _⟩
  | unblockTstp | unblockAlrm =>
      simp only [hc, Option.some.injEq, State.unblock] at htick
      split at htick
      all_goals
        subst htick
        exact .inr ⟨by simp, .refl _⟩
  | setMask | jump =>
      simp only [hc, Option.some.injEq] at htick
      subst htick
      exact .inr ⟨by simp, .refl _⟩

/-- The thread of a stretch is one that was created and has not exited. -/
theorem Alive.stretch_live (halive : Alive specs s) (hstretch : Stretch wrap s t p tcb tcb') :
    p < specs.length ∧ p ∉ s.threads.exited ∧
      specs[p]? = some ⟨tcb.environment.func, tcb.id, tcb.arg⟩ := by
  have hbooks := halive.core.books
  rw [Threads.reaped, if_neg (by simp [hstretch.body])] at hbooks
  obtain ⟨hp, hlive⟩ := (hbooks.census p).mp ⟨tcb, hstretch.segment.stored⟩
  exact ⟨hp, hlive, hbooks.created p tcb hstretch.segment.stored⟩

/-- A thread that has not exited is stored. -/
theorem stored_of_live (hids : ValidIds specs)
    (hreach : (threading wrap specs).ReachableBy TakenInYield s) (hp : p < specs.length)
    (hlive : p ∉ s.threads.exited) : Alive specs s ∧ ∃ tcb, s.threads.tcbs p = some tcb := by
  rcases reachable_sound hids hreach with ⟨halive, -⟩ | ⟨hdrained, -⟩
  · refine ⟨halive, (halive.core.books.census p).mpr ⟨hp, fun hgone => hlive ?_⟩⟩
    unfold Threads.reaped at hgone
    split at hgone
    · exact (List.dropLast_sublist _).subset hgone
    · exact hgone
  · exact absurd (hdrained.exited p hp) hlive

theorem ValidIds.index_inj (hids : ValidIds specs) {spec spec' : Spec}
    (hp : specs[p]? = some spec) (hq : specs[q]? = some spec') (heq : spec.id = spec'.id) :
    p = q := by
  have hlt := (List.getElem?_eq_some_iff.mp hp).1
  apply (List.getElem?_inj (by simpa using hlt) hids.distinct).mp
  rw [List.getElem?_map, List.getElem?_map, hp, hq, Option.map_some, Option.map_some, heq]

/-- A step of a run is a stretch of a thread that is left, or quiet. -/
theorem step_stretch (hids : ValidIds specs)
    (hreach : (threading wrap specs).ReachableBy TakenInYield s) {action : Action}
    (hstep : s.step wrap action = some t) :
    (Alive specs s ∧ Serial s.threads s.control ∧ action = .tick ∧
      ∃ p tcb tcb', Stretch wrap s t p tcb tcb') ∨
    (action = .tick → s.control ≠ .body) ∧ Quiet s.threads t.threads := by
  cases action with
  | arrive sig =>
      obtain rfl := Option.some.inj hstep
      right
      rw [(s.arrive_cases sig).1]
      exact ⟨Action.noConfusion, .refl _⟩
  | tick =>
      rcases reachable_sound hids hreach with ⟨halive, hserial⟩ | ⟨-, hc⟩
      · rcases State.tick_stretch halive.entry hstep with hstretch | ⟨hc, hquiet⟩
        · exact .inl ⟨halive, hserial, rfl, hstretch⟩
        · exact .inr ⟨fun _ => hc, hquiet⟩
      · have hentry : ∀ rtv, s.control = .scheduler rtv → rtv ≤ 3 := by
          rintro rtv hrtv
          rcases hc with hc | hc
          · cases hrtv.symm.trans hc
            omega
          · cases hrtv.symm.trans hc
        rcases State.tick_stretch hentry hstep with ⟨p, tcb, tcb', hstretch⟩ | ⟨hbody, hquiet⟩
        · rcases hc with hc | hc <;> cases hstretch.body.symm.trans hc
        · exact .inr ⟨fun _ => hbody, hquiet⟩

/-- Before the first entry of the scheduler only `thread_setup` has printed. -/
theorem init_output (specs : List Spec) :
    (State.init specs).threads.output = specs.map (fun spec => .setup spec.id spec.func) ∧
      (State.init specs).threads.balance = 500 := by
  change (specs.foldl Threads.threadCreate Threads.boot).output = _ ∧
    (specs.foldl Threads.threadCreate Threads.boot).balance = 500
  induction specs using List.reverseRecOn with
  | nil => exact ⟨rfl, rfl⟩
  | append_singleton specs spec ih =>
      rw [List.foldl_append, List.map_append]
      simp [Threads.threadCreate, Threads.threadSetup, ih, Func.func_start]

theorem init_printedBy (specs : List Spec) (id : Int) :
    (State.init specs).threads.printedBy id = [] := by
  rw [Threads.printedBy, (init_output specs).1]
  simp [List.filter_eq_nil_iff, Line.author]

end Scheduler

end SystemsProgramming
