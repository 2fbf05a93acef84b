/-
The results of the loops do not depend on the schedule.  What a thread has printed is
always the beginning of one sequence that its function and its argument determine.
-/
import SystemsProgramming.Scheduler.Rounds

namespace SystemsProgramming

namespace Scheduler

variable {specs : List Spec} {s t : State} {th th' : Threads} {p q : Nat} {tcb tcb' : Tcb}
  {spec : Spec}

/-- The arithmetic of a 32-bit int that wraps around. -/
def wrapInt : Arith := fun n => n.bmod (2 ^ 32)

theorem wrapInt_keepsInts : KeepsInts wrapInt := by
  intro n hnonneg hlt
  rw [wrapInt, Int.bmod_eq_iff (by decide)]
  omega

theorem wrapInt_one : wrapInt 1 = 1 := by decide

/-- The sequence that a loop computes; `bank_operation` computes none. -/
def Func.term : Func → Nat → Nat
  | fibonacci => Nat.fib
  | factorial => Nat.factorial
  | bankOperation => fun _ => 0

/-- The lines of a loop up to its `thread_exit`. -/
def Spec.results (spec : Spec) : List Line :=
  (List.range spec.arg.toNat).map fun k => .value spec.id (wrapInt (spec.func.term (k + 1)))

theorem Spec.results_take_succ {k : Nat} (hk : k < spec.arg.toNat) :
    spec.results.take (k + 1) =
      spec.results.take k ++ [.value spec.id (wrapInt (spec.func.term (k + 1)))] := by
  simp [Spec.results, List.take_add_one, hk]

/-- The variables of a loop after its last round. -/
def Computed (tcb : Tcb) : Prop :=
  tcb.environment.loopPoint = some .yield →
    tcb.result = wrapInt (tcb.environment.func.term tcb.rounds) ∧
      (tcb.environment.func = .fibonacci → 2 ≤ tcb.rounds →
        tcb.x = wrapInt (Nat.fib (tcb.rounds - 1)))

theorem wrapInt_fib (k : Nat) :
    wrapInt (wrapInt (Nat.fib k) + wrapInt (Nat.fib (k + 1))) = wrapInt (Nat.fib (k + 2)) := by
  rw [wrapInt, wrapInt, wrapInt, wrapInt, Int.add_bmod_bmod, Int.bmod_add_bmod, Nat.fib_add_two]
  norm_cast

theorem wrapInt_factorial (k : Nat) :
    wrapInt (wrapInt (k.factorial) * ((k : Int) + 1)) = wrapInt ((k + 1).factorial) := by
  rw [wrapInt, wrapInt, wrapInt, Int.bmod_mul_bmod, Nat.factorial_succ, mul_comm]
  norm_cast

/-- A round of `fibonacci`, numbered from 1. -/
theorem fibonacciRound_eq (tcb : Tcb) (k : Nat) (hvalues : 2 ≤ k →
    tcb.x = wrapInt (Nat.fib (k - 1)) ∧ tcb.y = wrapInt (Nat.fib k)) :
    (tcb.fibonacciRound wrapInt (k + 1)).y = wrapInt (Nat.fib (k + 1)) ∧
      (1 ≤ k → (tcb.fibonacciRound wrapInt (k + 1)).x = wrapInt (Nat.fib k)) := by
  unfold Tcb.fibonacciRound
  by_cases hfirst : (k : Int) + 1 ≤ 2
  · rw [if_pos hfirst]
    obtain rfl | rfl : k = 0 ∨ k = 1 := by omega
    · exact ⟨wrapInt_one.symm, by omega⟩
    · exact ⟨wrapInt_one.symm, fun _ => wrapInt_one.symm⟩
  · rw [if_neg hfirst]
    obtain ⟨hx, hy⟩ := hvalues (by omega)
    obtain ⟨j, rfl⟩ : ∃ j, k = j + 1 := Nat.exists_eq_add_of_le' (by omega)
    refine ⟨?_, fun _ => hy⟩
    simp only [hx, hy, Nat.add_sub_cancel]
    exact wrapInt_fib j

theorem factorialRound_eq (tcb : Tcb) (k : Nat) (hvalue : 1 ≤ k → tcb.x = wrapInt (k.factorial)) :
    (tcb.factorialRound wrapInt (k + 1)).x = wrapInt ((k + 1).factorial) := by
  unfold Tcb.factorialRound
  by_cases hfirst : (k : Int) + 1 = 1
  · rw [if_pos hfirst]
    obtain rfl : k = 0 := by omega
    exact wrapInt_one.symm
  · rw [if_neg hfirst]
    simp only [hvalue (by omega)]
    exact wrapInt_factorial k

/-- A round computes the next term. -/
theorem Computed.round (hcomputed : Computed tcb) (hloop : InLoop tcb)
    (hfunc : tcb.environment.func ≠ .bankOperation) (hpos : 0 < tcb.arg)
    (hint : tcb.arg < 2 ^ 31) :
    (tcb.round wrapInt).result = wrapInt (tcb.environment.func.term (tcb.rounds + 1)) ∧
      (tcb.environment.func = .fibonacci → 1 ≤ tcb.rounds →
        (tcb.round wrapInt).x = wrapInt (Nat.fib tcb.rounds)) := by
  have hi := (hloop.round wrapInt_keepsInts hfunc hpos hint).1
  have hsame := (tcb.round_same wrapInt).2.2
  have hyield : 1 ≤ tcb.rounds → tcb.environment.loopPoint = some .yield := by
    intro hone
    by_contra hnot
    simp [Tcb.rounds, hnot] at hone
  have hpoint : ∀ point, tcb.environment = .fibonacci point ∨
      tcb.environment = .factorial point → tcb.environment.loopPoint = some point := by
    rintro point (h | h) <;> rw [h] <;> rfl
  cases henv : tcb.environment with
  | fibonacci point =>
      have hnext : tcb.nextI wrapInt point = tcb.rounds + 1 := by
        rw [← hi, Tcb.round_i wrapInt (hpoint point (by simp [henv]))]
      have hround : tcb.round wrapInt = tcb.fibonacciRound wrapInt (tcb.rounds + 1) := by
        rw [← hnext]
        simp [Tcb.round, henv]
      have hvalues := fibonacciRound_eq tcb tcb.rounds fun htwo => by
        obtain ⟨hy, hx⟩ := hcomputed (hyield (by omega))
        simp only [Tcb.result, henv, Environment.func, Func.term] at hy hx
        exact ⟨hx trivial htwo, hy⟩
      rw [Tcb.result, hsame, henv, hround]
      exact ⟨hvalues.1, fun _ => hvalues.2⟩
  | factorial point =>
      have hnext : tcb.nextI wrapInt point = tcb.rounds + 1 := by
        rw [← hi, Tcb.round_i wrapInt (hpoint point (by simp [henv]))]
      have hround : tcb.round wrapInt = tcb.factorialRound wrapInt (tcb.rounds + 1) := by
        rw [← hnext]
        simp [Tcb.round, henv]
      have hvalue := factorialRound_eq tcb tcb.rounds fun hone => by
        have hx := (hcomputed (hyield hone)).1
        simpa only [Tcb.result, henv, Environment.func, Func.term] using hx
      rw [Tcb.result, hsame, henv, hround]
      exact ⟨hvalue, by simp [Environment.func]⟩
  | bankOperation point => simp [henv, Environment.func] at hfunc

/-- What thread `p` has printed so far. -/
structure Printed (spec : Spec) (p : Nat) (th : Threads) : Prop where
  live : p ∉ th.exited → ∀ tcb, th.tcbs p = some tcb → InLoop tcb ∧ Computed tcb ∧
    th.printedBy spec.id = spec.results.take tcb.rounds
  done : p ∈ th.exited → th.printedBy spec.id = spec.results

theorem Printed.quiet (hprinted : Printed spec p th) (hquiet : Threads.Quiet th th') :
    Printed spec p th' where
  live hlive tcb hstored := by
    rw [hquiet.printedBy]
    exact hprinted.live (hquiet.exited ▸ hlive) tcb (hquiet.stored p tcb hstored)
  done hdone := by
    rw [hquiet.printedBy]
    exact hprinted.done (hquiet.exited ▸ hdone)

/-- A stretch of another thread. -/
theorem Printed.other (hprinted : Printed spec p s.threads) {wrap : Arith}
    (hstretch : Stretch wrap s t q tcb tcb') (hne : p ≠ q) (hid : tcb.id ≠ spec.id) :
    Printed spec p t.threads := by
  have hlines : t.threads.printedBy spec.id = s.threads.printedBy spec.id := by
    have hnone : (s.threads.prints wrap tcb).filter (fun line => line.author = some spec.id) =
        [] := by
      rw [List.filter_eq_nil_iff]
      intro line hline
      simp [Threads.prints_author hline, hid]
    rw [Threads.printedBy, hstretch.output, List.filter_append, hnone, List.append_nil]
    rfl
  have hexited : p ∈ t.threads.exited ↔ p ∈ s.threads.exited := by
    rw [hstretch.segment.exited]
    split <;> simp [hne]
  rw [← not_iff_not] at hexited
  constructor
  · intro hlive other hstored
    rw [hstretch.segment.tcbs, Function.update_of_ne hne] at hstored
    rw [hlines]
    exact hprinted.live (hexited.mp hlive) other hstored
  · intro hdone
    rw [hlines]
    exact hprinted.done ((not_iff_not.mp hexited).mp hdone)

/-- A stretch of the thread itself is a round of its loop. -/
theorem Printed.own (hprinted : Printed spec p s.threads)
    (hstretch : Stretch wrapInt s t p tcb tcb') (hlive : p ∉ s.threads.exited)
    (hcreated : spec = ⟨tcb.environment.func, tcb.id, tcb.arg⟩)
    (hfunc : spec.func ≠ .bankOperation) (hpos : 0 < spec.arg) (hint : spec.arg < 2 ^ 31) :
    Printed spec p t.threads := by
  subst hcreated
  obtain ⟨hloop, hcomputed, hlines⟩ := hprinted.live hlive tcb hstretch.segment.stored
  obtain ⟨hi, hle⟩ := hloop.round wrapInt_keepsInts hfunc hpos hint
  obtain ⟨hresult, hx⟩ := hcomputed.round hloop hfunc hpos hint
  obtain ⟨hexits, hyields⟩ := hstretch.loop hfunc
  have hcount := hloop.yielded_rounds wrapInt_keepsInts hfunc hpos hint
  have hmore : t.threads.printedBy tcb.id =
      (Spec.results ⟨tcb.environment.func, tcb.id, tcb.arg⟩).take (tcb.rounds + 1) := by
    have hrounds : tcb.rounds < tcb.arg.toNat := by omega
    rw [Spec.results_take_succ hrounds, ← hlines, Threads.printedBy, hstretch.output,
      List.filter_append, Threads.prints_loop hfunc, hresult]
    simp [Line.author, Threads.printedBy]
  by_cases hlast : (tcb.round wrapInt).i = tcb.arg
  · have hexited : p ∈ t.threads.exited := by simp [hexits hlast]
    refine ⟨fun h => absurd hexited h, fun _ => ?_⟩
    have hall : tcb.rounds + 1 = tcb.arg.toNat := by omega
    rw [hmore, hall]
    exact List.take_of_length_le (by simp [Spec.results])
  · obtain ⟨hexited, hstored⟩ := hyields hlast
    refine ⟨fun _ other hother => ?_, fun h => absurd (hexited ▸ h) hlive⟩
    obtain rfl : tcb.yielded wrapInt = other := Option.some.inj (hstored.symm.trans hother)
    refine ⟨hloop.yielded wrapInt_keepsInts hfunc hpos hint hlast, fun _ => ?_, ?_⟩
    · rw [Tcb.yielded_result hfunc, (Tcb.yielded_loopPoint hfunc).2, hcount]
      exact ⟨hresult, fun hfib htwo => hx hfib (by omega)⟩
    · rw [hcount]
      exact hmore

theorem init_printed (hspec : specs[p]? = some spec) :
    Printed spec p (State.init specs).threads := by
  obtain ⟨-, -, htcbs, -, -, -, hexited⟩ := Threads.foldl_threadCreate specs
  change ∀ p, (State.init specs).threads.tcbs p = _ at htcbs
  change (State.init specs).threads.exited = [] at hexited
  constructor
  · intro _ tcb hstored
    rw [htcbs, hspec, Option.map_some, Option.some.injEq] at hstored
    have hpoint : tcb.environment.loopPoint ≠ some .yield := by
      rw [← hstored]
      cases spec.func <;> simp [Func.start, Environment.loopPoint]
    refine ⟨fun h => absurd h hpoint, fun h => absurd h hpoint, ?_⟩
    rw [init_printedBy, Tcb.rounds, if_neg hpoint, List.take_zero]
  · intro hdone
    simp [hexited] at hdone

/-- The lines of a loop are the beginning of its results, whatever the other threads and
the signals do. -/
theorem reachable_printed (hids : ValidIds specs) (hspec : specs[p]? = some spec)
    (hfunc : spec.func ≠ .bankOperation) (hpos : 0 < spec.arg) (hint : spec.arg < 2 ^ 31)
    (hreach : (threading wrapInt specs).ReachableBy TakenInYield s) :
    Printed spec p s.threads := by
  induction hreach with
  | start hstart =>
      obtain rfl := hstart
      exact init_printed hspec
  | step hreach _ hstep ih =>
      rcases step_stretch hids hreach hstep with
        ⟨halive, -, -, q, tcb, tcb', hstretch⟩ | ⟨-, hquiet⟩
      · obtain ⟨-, hlive, hcreated⟩ := halive.stretch_live hstretch
        by_cases heq : p = q
        · subst heq
          rw [hspec, Option.some.injEq] at hcreated
          exact ih.own hstretch hlive hcreated hfunc hpos hint
        · apply ih.other hstretch heq
          intro hid
          exact heq (hids.index_inj hspec hcreated hid.symm)
      · exact ih.quiet hquiet

/-- The lines of a `fibonacci` or `factorial` thread depend on its argument only: in an
unfinished run they are a beginning of its results, and once it has exited they are the
results, in any two runs. -/
theorem results_independent (hids : ValidIds specs) (hspec : specs[p]? = some spec)
    (hfunc : spec.func ≠ .bankOperation) (hpos : 0 < spec.arg) (hint : spec.arg < 2 ^ 31)
    (hs : (threading wrapInt specs).ReachableBy TakenInYield s)
    (ht : (threading wrapInt specs).ReachableBy TakenInYield t) :
    s.threads.printedBy spec.id <+: spec.results ∧
      (p ∈ s.threads.exited → s.threads.printedBy spec.id = spec.results) ∧
      (p ∈ s.threads.exited → p ∈ t.threads.exited →
        s.threads.printedBy spec.id = t.threads.printedBy spec.id) := by
  have hprinted := reachable_printed hids hspec hfunc hpos hint hs
  have hprinted' := reachable_printed hids hspec hfunc hpos hint ht
  refine ⟨?_, hprinted.done, fun h h' => (hprinted.done h).trans (hprinted'.done h').symm⟩
  by_cases hlive : p ∈ s.threads.exited
  · rw [hprinted.done hlive]
  · have hp := (List.getElem?_eq_some_iff.mp hspec).1
    obtain ⟨-, tcb, hstored⟩ := stored_of_live hids hs hp hlive
    rw [(hprinted.live hlive tcb hstored).2.2]
    exact List.take_prefix _ _

namespace TwoLoops

def threads : List Spec := initThreads 2 1 0 0

/-- The `fibonacci` thread runs to its end at once, or a signal lets the `factorial`
thread run between its two rounds. -/
def after (signals : List Action) (ticks : Nat) : State :=
  ((threading wrapInt threads).run (State.init threads)
    (signals ++ List.replicate ticks .tick)).getD (State.init threads)

theorem at_once : (threading wrapInt threads).ReachableBy TakenInYield (after [] 7) :=
  TransitionSystem.ReachableBy.run (.start rfl) (List.replicate 7 .tick) (meets_ticks _ 7) rfl

theorem preempted :
    (threading wrapInt threads).ReachableBy TakenInYield (after [.arrive .tstp] 13) :=
  TransitionSystem.ReachableBy.run (.start rfl) (.arrive .tstp :: List.replicate 13 .tick)
    ⟨fun hmask => absurd hmask (by decide), fun next _ => meets_ticks next 13⟩ rfl

end TwoLoops

theorem results_independent_two_loops :
    (TwoLoops.after [] 7).threads.printedBy 0 = [.value 0 1, .value 0 1] ∧
      (TwoLoops.after [] 7).threads.printedBy 0 =
        (TwoLoops.after [.arrive .tstp] 13).threads.printedBy 0 := by
  have hspec : TwoLoops.threads[0]? = some ⟨.fibonacci, 0, 2⟩ := rfl
  obtain ⟨-, hdone, hsame⟩ := results_independent ⟨by decide, by decide⟩ hspec
    (by decide) (by decide) (by decide) TwoLoops.at_once TwoLoops.preempted
  exact ⟨(hdone (by decide)).trans (by decide), hsame (by decide) (by decide)⟩

end Scheduler

end SystemsProgramming
