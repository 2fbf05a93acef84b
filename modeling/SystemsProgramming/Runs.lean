/-
Labelled transition systems with an executable step.  A label resolves every
choice the environment has, so a run is a list of labels, and a reachable state
may ask that each of its steps meets a condition.
-/
import Mathlib.Data.List.Basic
import Mathlib.Order.Monotone.Basic

namespace SystemsProgramming

universe u v

/-- The states a system may start in, and the effect of one labelled step;
`none` says that the label is not enabled. -/
structure TransitionSystem (S : Type u) (A : Type v) where
  start : S → Prop
  step : S → A → Option S

namespace TransitionSystem

variable {S : Type u} {A : Type v}

/-- Follow a list of labels. -/
def run (M : TransitionSystem S A) : S → List A → Option S
  | state, [] => some state
  | state, action :: rest => (M.step state action).bind fun next => M.run next rest

/-- States reached through steps that all meet `ok`. -/
inductive ReachableBy (M : TransitionSystem S A) (ok : S → A → Prop) : S → Prop
  | start {state : S} : M.start state → ReachableBy M ok state
  | step {state next : S} {action : A} : ReachableBy M ok state →
      ok state action → M.step state action = some next → ReachableBy M ok next

/-- States reached by any run. -/
def Reachable (M : TransitionSystem S A) : S → Prop :=
  M.ReachableBy fun _ _ => True

/-- Every step of the run from `state` along the labels meets `ok`. -/
def Meets (M : TransitionSystem S A) (ok : S → A → Prop) : S → List A → Prop
  | _, [] => True
  | state, action :: rest => ok state action ∧
      ∀ next, M.step state action = some next → M.Meets ok next rest

theorem meets_cons_some {M : TransitionSystem S A} {ok : S → A → Prop} {state next : S}
    {action : A} {rest : List A} (hstep : M.step state action = some next) :
    ok state action ∧ M.Meets ok next rest ↔ M.Meets ok state (action :: rest) := by
  apply and_congr_right'
  constructor
  · intro hrest other hother
    obtain rfl : next = other := Option.some.inj (hstep.symm.trans hother)
    exact hrest
  · intro hrest
    exact hrest next hstep

theorem meets_cons_none {M : TransitionSystem S A} {ok : S → A → Prop} {state : S}
    {action : A} {rest : List A} (hstep : M.step state action = none) :
    ok state action ↔ M.Meets ok state (action :: rest) := by
  constructor
  · intro hok
    exact ⟨hok, fun next hnext => by simp [hstep] at hnext⟩
  · exact And.left

instance decidableMeets (M : TransitionSystem S A) (ok : S → A → Prop)
    [∀ state action, Decidable (ok state action)] :
    (state : S) → (actions : List A) → Decidable (M.Meets ok state actions)
  | _, [] => .isTrue trivial
  | state, action :: rest =>
      match hstep : M.step state action with
      | none => decidable_of_iff _ (meets_cons_none hstep)
      | some next =>
          have := decidableMeets M ok next rest
          decidable_of_iff _ (meets_cons_some hstep)

/-- `P` holds in every state of the run from `state` along the labels. -/
def Along (M : TransitionSystem S A) (P : S → Prop) : S → List A → Prop
  | state, [] => P state
  | state, action :: rest => P state ∧
      ∀ next, M.step state action = some next → M.Along P next rest

/-- What `observe` reads off the steps of the run from `state` along the labels. -/
def trace {E : Type*} (M : TransitionSystem S A) (observe : S → A → List E) :
    S → List A → List E
  | _, [] => []
  | state, action :: rest =>
      match M.step state action with
      | none => []
      | some next => observe state action ++ M.trace observe next rest

variable {M : TransitionSystem S A} {ok : S → A → Prop}

theorem run_append (state : S) (first rest : List A) :
    M.run state (first ++ rest) = (M.run state first).bind fun next => M.run next rest := by
  induction first generalizing state with
  | nil => rfl
  | cons action first ih =>
      simp only [List.cons_append, TransitionSystem.run, ih, Option.bind_assoc]

theorem Along.last {P : S → Prop} {state last : S} {actions : List A}
    (halong : M.Along P state actions) (hrun : M.run state actions = some last) : P last := by
  induction actions generalizing state with
  | nil =>
      obtain rfl : state = last := by simpa [TransitionSystem.run] using hrun
      exact halong
  | cons action rest ih =>
      simp only [TransitionSystem.run, Option.bind_eq_some_iff] at hrun
      obtain ⟨next, hstep, hrest⟩ := hrun
      exact ih (halong.2 next hstep) hrest

/-- What a run meets it meets at every label. -/
theorem Meets.of_run {state mid : S} {before after : List A} {action : A}
    (hmeets : M.Meets ok state (before ++ action :: after))
    (hrun : M.run state before = some mid) : ok mid action := by
  induction before generalizing state with
  | nil =>
      obtain rfl : state = mid := by simpa [TransitionSystem.run] using hrun
      exact hmeets.1
  | cons first before ih =>
      simp only [TransitionSystem.run, Option.bind_eq_some_iff] at hrun
      obtain ⟨next, hstep, hrest⟩ := hrun
      exact ih (hmeets.2 next hstep) hrest

theorem Meets.and {other : S → A → Prop} {state : S} {actions : List A}
    (hmeets : M.Meets ok state actions) (hother : M.Meets other state actions) :
    M.Meets (fun state action => ok state action ∧ other state action) state actions := by
  induction actions generalizing state with
  | nil => trivial
  | cons action rest ih =>
      exact ⟨⟨hmeets.1, hother.1⟩, fun next hstep =>
        ih (hmeets.2 next hstep) (hother.2 next hstep)⟩

/-- The invariant rule for the states of one run. -/
theorem Meets.along {P inv : S → Prop} (hinv : ∀ state, inv state → P state)
    (hkept : ∀ state action next, inv state → ok state action →
      M.step state action = some next → inv next)
    {state : S} (hstate : inv state) {actions : List A} (hmeets : M.Meets ok state actions) :
    M.Along P state actions := by
  induction actions generalizing state with
  | nil => exact hinv state hstate
  | cons action rest ih =>
      exact ⟨hinv state hstate, fun next hstep =>
        ih (hkept state action next hstate hmeets.1 hstep) (hmeets.2 next hstep)⟩

/-- Where a step meets `ok` exactly if it leads to a state with `P`, a run stays in
`P` exactly if its steps meet `ok`. -/
theorem along_iff_meets {P inv : S → Prop} {allowed : S → A → Prop}
    (hinv : ∀ state, inv state → P state)
    (hkept : ∀ state action next, inv state → allowed state action → ok state action →
      M.step state action = some next → inv next)
    (hbroken : ∀ state action, inv state → allowed state action → ¬ ok state action →
      ∃ next, M.step state action = some next ∧ ¬ P next)
    {state : S} (hstate : inv state) (actions : List A)
    (hallowed : M.Meets allowed state actions) :
    M.Along P state actions ↔ M.Meets ok state actions := by
  constructor
  · intro halong
    induction actions generalizing state with
    | nil => trivial
    | cons action rest ih =>
        by_cases hok : ok state action
        · exact ⟨hok, fun next hstep => ih (hkept state action next hstate hallowed.1 hok hstep)
            (hallowed.2 next hstep) (halong.2 next hstep)⟩
        · obtain ⟨next, hstep, hnot⟩ := hbroken state action hstate hallowed.1 hok
          have hrest := halong.2 next hstep
          cases rest with
          | nil => exact absurd hrest hnot
          | cons => exact absurd hrest.1 hnot
  · intro hmeets
    exact (hallowed.and hmeets).along hinv
      (fun state action next hinv hok => hkept state action next hinv hok.1 hok.2) hstate

/-- Where a step that does not meet `ok` leads out of `P` for good, a run that ends in `P` has
met `ok`. -/
theorem meets_of_run {P inv : S → Prop}
    (hkept : ∀ state action next, inv state → ok state action →
      M.step state action = some next → inv next)
    (hbroken : ∀ state action next, inv state → ¬ ok state action →
      M.step state action = some next → ¬ P next)
    (hstays : ∀ state action next, ¬ P state → M.step state action = some next → ¬ P next)
    {state last : S} (hstate : inv state) {actions : List A}
    (hrun : M.run state actions = some last) (hlast : P last) : M.Meets ok state actions := by
  have hlost : ∀ {state : S} {actions : List A}, ¬ P state →
      M.run state actions = some last → False := by
    intro state actions hnot hrun
    induction actions generalizing state with
    | nil =>
        obtain rfl : state = last := by simpa [TransitionSystem.run] using hrun
        exact hnot hlast
    | cons action rest ih =>
        simp only [TransitionSystem.run, Option.bind_eq_some_iff] at hrun
        obtain ⟨next, hstep, hrest⟩ := hrun
        exact ih (hstays state action next hnot hstep) hrest
  induction actions generalizing state with
  | nil => trivial
  | cons action rest ih =>
      simp only [TransitionSystem.run, Option.bind_eq_some_iff] at hrun
      obtain ⟨next, hstep, hrest⟩ := hrun
      have hok : ok state action := by
        by_contra hnot
        exact hlost (hbroken state action next hstate hnot hstep) hrest
      refine ⟨hok, fun other hother => ?_⟩
      obtain rfl : next = other := Option.some.inj (hstep.symm.trans hother)
      exact ih (hkept state action next hstate hok hstep) hrest

/-- What follows from a condition in the states with the invariant is met by every run that
meets the condition. -/
theorem Meets.imp {inv : S → Prop} {other : S → A → Prop}
    (hkept : ∀ state action next, inv state → ok state action →
      M.step state action = some next → inv next)
    (himp : ∀ state action, inv state → ok state action → other state action)
    {state : S} (hstate : inv state) {actions : List A} (hmeets : M.Meets ok state actions) :
    M.Meets other state actions := by
  induction actions generalizing state with
  | nil => trivial
  | cons action rest ih =>
      exact ⟨himp state action hstate hmeets.1, fun next hstep =>
        ih (hkept state action next hstate hmeets.1 hstep) (hmeets.2 next hstep)⟩

/-- Two conditions that agree in the states with the invariant are met by the same runs. -/
theorem meets_iff_meets {inv : S → Prop} {other : S → A → Prop}
    (hkept : ∀ state action next, inv state → M.step state action = some next → inv next)
    (hiff : ∀ state action, inv state → (ok state action ↔ other state action))
    {state : S} (hstate : inv state) (actions : List A) :
    M.Meets ok state actions ↔ M.Meets other state actions := by
  constructor
  · exact Meets.imp (fun state action next hinv _ => hkept state action next hinv)
      (fun state action hinv => (hiff state action hinv).mp) hstate
  · exact Meets.imp (fun state action next hinv _ => hkept state action next hinv)
      (fun state action hinv => (hiff state action hinv).mpr) hstate

/-- The invariant rule: what holds at the start and is kept by every step that
meets `ok` holds in every state such a run reaches. -/
theorem ReachableBy.invariant {P : S → Prop}
    (hstart : ∀ state, M.start state → P state)
    (hstep : ∀ state action next, P state → ok state action →
      M.step state action = some next → P next)
    {state : S} (hreach : M.ReachableBy ok state) : P state := by
  induction hreach with
  | start h => exact hstart _ h
  | step _ hok h ih => exact hstep _ _ _ ih hok h

theorem Reachable.invariant {P : S → Prop}
    (hstart : ∀ state, M.start state → P state)
    (hstep : ∀ state action next, P state →
      M.step state action = some next → P next)
    {state : S} (hreach : M.Reachable state) : P state :=
  ReachableBy.invariant hstart (fun _ _ _ hP _ h => hstep _ _ _ hP h) hreach

/-- The invariant rule for one run. -/
theorem Meets.invariant {P : S → Prop}
    (hstep : ∀ state action next, P state → ok state action →
      M.step state action = some next → P next)
    {state last : S} (hstart : P state) {actions : List A}
    (hmeets : M.Meets ok state actions) (hrun : M.run state actions = some last) : P last := by
  induction actions generalizing state with
  | nil =>
      obtain rfl : state = last := by simpa [TransitionSystem.run] using hrun
      exact hstart
  | cons action rest ih =>
      simp only [TransitionSystem.run, Option.bind_eq_some_iff] at hrun
      obtain ⟨next, hnext, hrest⟩ := hrun
      exact ih (hstep state action next hstart hmeets.1 hnext) (hmeets.2 next hnext) hrest

/-- The invariant rule for a state together with what has been observed on the way
to it. -/
theorem trace_invariant {E : Type*} (observe : S → A → List E) (P : S → List E → Prop)
    (hstep : ∀ state action next log, P state log → ok state action →
      M.step state action = some next → P next (log ++ observe state action))
    {state last : S} (hstart : P state []) {actions : List A}
    (hmeets : M.Meets ok state actions) (hrun : M.run state actions = some last) :
    P last (M.trace observe state actions) := by
  have hlog : ∀ log, P state log → P last (log ++ M.trace observe state actions) := by
    clear hstart
    induction actions generalizing state with
    | nil =>
        intro log hP
        obtain rfl : state = last := by simpa [TransitionSystem.run] using hrun
        simpa [trace] using hP
    | cons action rest ih =>
        intro log hP
        simp only [TransitionSystem.run, Option.bind_eq_some_iff] at hrun
        obtain ⟨next, hnext, hrest⟩ := hrun
        have hlater := ih (hmeets.2 next hnext) hrest (log ++ observe state action)
          (hstep state action next log hP hmeets.1 hnext)
        simpa [trace, hnext] using hlater
  exact hlog [] hstart

theorem trace_append {E : Type*} (observe : S → A → List E) {state mid : S} {first : List A}
    (hrun : M.run state first = some mid) (rest : List A) :
    M.trace observe state (first ++ rest) =
      M.trace observe state first ++ M.trace observe mid rest := by
  induction first generalizing state with
  | nil =>
      obtain rfl : state = mid := by simpa [TransitionSystem.run] using hrun
      rfl
  | cons action first ih =>
      simp only [TransitionSystem.run, Option.bind_eq_some_iff] at hrun
      obtain ⟨next, hnext, hrest⟩ := hrun
      simp only [List.cons_append, trace, hnext, ih hrest, List.append_assoc]

/-- The trace of a run that gets stuck is that of the part before. -/
theorem exists_run_trace {E : Type*} (observe : S → A → List E) {state : S} {actions : List A}
    (hmeets : M.Meets ok state actions) :
    ∃ done last, M.Meets ok state done ∧ M.run state done = some last ∧
      M.trace observe state done = M.trace observe state actions := by
  induction actions generalizing state with
  | nil => exact ⟨[], state, trivial, rfl, rfl⟩
  | cons action rest ih =>
      cases hstep : M.step state action with
      | none => exact ⟨[], state, trivial, rfl, by simp [trace, hstep]⟩
      | some next =>
          obtain ⟨done, last, hdone, hrun, htrace⟩ := ih (hmeets.2 next hstep)
          refine ⟨action :: done, last, ⟨hmeets.1, fun other hother => ?_⟩, ?_, ?_⟩
          · obtain rfl : next = other := Option.some.inj (hstep.symm.trans hother)
            exact hdone
          · rw [TransitionSystem.run, hstep, Option.bind_some, hrun]
          · simp [trace, hstep, htrace]

theorem ReachableBy.run {state last : S} (hreach : M.ReachableBy ok state)
    (actions : List A) (hmeets : M.Meets ok state actions)
    (hrun : M.run state actions = some last) : M.ReachableBy ok last := by
  induction actions generalizing state with
  | nil =>
      obtain rfl : state = last := by simpa [TransitionSystem.run] using hrun
      exact hreach
  | cons action rest ih =>
      simp only [TransitionSystem.run, Option.bind_eq_some_iff] at hrun
      obtain ⟨next, hstep, hrest⟩ := hrun
      exact ih (.step hreach hmeets.1 hstep) (hmeets.2 next hstep) hrest

theorem meets_true (state : S) (actions : List A) :
    M.Meets (fun _ _ => True) state actions := by
  induction actions generalizing state with
  | nil => trivial
  | cons action rest ih => exact ⟨trivial, fun next _ => ih next⟩

/-- A run that the step function executes reaches its last state. -/
theorem Reachable.run {state last : S} (hreach : M.Reachable state)
    (actions : List A) (hrun : M.run state actions = some last) :
    M.Reachable last :=
  ReachableBy.run hreach actions (meets_true state actions) hrun

/-- In every order of steps that meet `ok` a state with `P` comes up, and before it there is
always a step that meets `enabled`. -/
inductive Attains (M : TransitionSystem S A) (enabled ok : S → A → Prop) (P : S → Prop) : S → Prop
  | now {state : S} : P state → Attains M enabled ok P state
  | later {state : S} :
      (∃ action next, enabled state action ∧ M.step state action = some next) →
      (∀ action next, ok state action → M.step state action = some next →
        Attains M enabled ok P next) → Attains M enabled ok P state

/-- No order of steps gets stuck before a state with `P`, and those that meet `ok` come to one. -/
abbrev Inevitable (M : TransitionSystem S A) (ok : S → A → Prop) (P : S → Prop) : S → Prop :=
  M.Attains (fun _ _ => True) ok P

/-- The same where only the steps that meet `ok` are there to be taken. -/
abbrev Completes (M : TransitionSystem S A) (ok : S → A → Prop) (P : S → Prop) : S → Prop :=
  M.Attains ok ok P

/-- What comes up in every order of steps that may be taken comes up in one. -/
theorem Attains.exists_run {enabled : S → A → Prop} {P : S → Prop}
    (henabled : ∀ state action, enabled state action → ok state action) {state : S}
    (hstate : M.Attains enabled ok P state) :
    ∃ actions last, M.Meets ok state actions ∧ M.run state actions = some last ∧ P last := by
  induction hstate with
  | @now state hP => exact ⟨[], state, trivial, rfl, hP⟩
  | @later state hnow _ ih =>
      obtain ⟨action, next, hok, hnext⟩ := hnow
      obtain ⟨actions, last, hmeets, hrun, hP⟩ := ih action next (henabled _ _ hok) hnext
      refine ⟨action :: actions, last, ⟨henabled _ _ hok, fun other hother => ?_⟩, ?_, hP⟩
      · obtain rfl : next = other := Option.some.inj (hnext.symm.trans hother)
        exact hmeets
      · rw [run, hnext, Option.bind_some, hrun]

/-- The rule for what comes up in every order: before the goal there is a step, and each step
that meets `ok` reaches the goal or leads to a state with a smaller rank.  The rank may come
from a state of another system. -/
theorem attains_of_rank {R : Type*} [LT R] [WellFoundedLT R] {enabled : S → A → Prop}
    {P : S → Prop} (ranked : S → R → Prop)
    (henabled : ∀ state rank, ranked state rank → ¬ P state →
      ∃ action next, enabled state action ∧ M.step state action = some next)
    (hstep : ∀ state rank action next, ranked state rank → ¬ P state → ok state action →
      M.step state action = some next → P next ∨ ∃ less, less < rank ∧ ranked next less)
    {state : S} {rank : R} (hstate : ranked state rank) : M.Attains enabled ok P state := by
  induction rank using WellFoundedLT.induction generalizing state with
  | _ rank ih =>
      by_cases hP : P state
      · exact .now hP
      · refine .later (henabled state rank hstate hP) fun action next hok hnext => ?_
        rcases hstep state rank action next hstate hP hok hnext with hgoal | ⟨less, hless, hnext'⟩
        · exact .now hgoal
        · exact ih less hless hnext'

/-- The rule with a measure of the states of an invariant. -/
theorem inevitable_of_measure {B : Type*} [LT B] [WellFoundedLT B] {P : S → Prop}
    (inv : S → Prop) (measure : S → B)
    (henabled : ∀ state, inv state → ¬ P state → ∃ action next, M.step state action = some next)
    (hstep : ∀ state action next, inv state → ¬ P state → ok state action →
      M.step state action = some next → P next ∨ inv next ∧ measure next < measure state)
    {state : S} (hstate : inv state) : M.Inevitable ok P state := by
  refine attains_of_rank (fun state rank => inv state ∧ measure state = rank) ?_ ?_ ⟨hstate, rfl⟩
  · rintro state _ ⟨hinv, rfl⟩ hP
    obtain ⟨action, next, hnext⟩ := henabled state hinv hP
    exact ⟨action, next, trivial, hnext⟩
  · rintro state _ action next ⟨hinv, rfl⟩ hP hok hnext
    exact (hstep state action next hinv hP hok hnext).imp_right
      fun ⟨hinv', hless⟩ => ⟨_, hless, hinv', rfl⟩

/-- The first `k` labels of an infinite sequence. -/
def labels (actions : Nat → A) (k : Nat) : List A := (List.range k).map actions

theorem run_labels_succ (state : S) (actions : Nat → A) (k : Nat) :
    M.run state (labels actions (k + 1)) =
      (M.run state (labels actions k)).bind fun next => M.step next (actions k) := by
  rw [labels, List.range_succ, List.map_append, run_append]
  simp [TransitionSystem.run, labels]

/-- The rule for what happens in the end, whatever the order of the steps: before the
goal no step is refused, none increases the measure, and infinitely many decrease it. -/
theorem eventually_of_measure (measure : S → Nat) (helpful : A → Prop) (goal : S → Prop)
    {start : S} {actions : Nat → A} (hfair : ∀ k, ∃ j, k ≤ j ∧ helpful (actions j))
    (hstep : ∀ k state, M.run start (labels actions k) = some state → ¬ goal state →
      ∃ next, M.step state (actions k) = some next ∧ measure next ≤ measure state ∧
        (helpful (actions k) → measure next < measure state)) :
    ∃ k state, M.run start (labels actions k) = some state ∧ goal state := by
  by_contra hnever
  have hnot : ∀ k state, M.run start (labels actions k) = some state → ¬ goal state :=
    fun k state hrun hgoal => hnever ⟨k, state, hrun, hgoal⟩
  -- before the goal the run goes on for ever
  have hruns : ∀ k, ∃ state, M.run start (labels actions k) = some state := by
    intro k
    induction k with
    | zero => exact ⟨start, rfl⟩
    | succ k ih =>
        obtain ⟨state, hrun⟩ := ih
        obtain ⟨next, hnext, -⟩ := hstep k state hrun (hnot k state hrun)
        refine ⟨next, ?_⟩
        rw [run_labels_succ, hrun]
        exact hnext
  choose states hstates using hruns
  have hnext : ∀ k, measure (states (k + 1)) ≤ measure (states k) ∧
      (helpful (actions k) → measure (states (k + 1)) < measure (states k)) := by
    intro k
    obtain ⟨next, hnext, hmeasure⟩ := hstep k _ (hstates k) (hnot k _ (hstates k))
    have hsame : states (k + 1) = next := by
      have hrun := hstates (k + 1)
      rw [run_labels_succ, hstates k, Option.bind_some, hnext] at hrun
      exact (Option.some.inj hrun).symm
    rw [hsame]
    exact hmeasure
  have hmono : Antitone fun k => measure (states k) :=
    antitone_nat_of_succ_le fun k => (hnext k).1
  -- so the measure falls below every bound
  have hfalls : ∀ n, ∃ k, measure (states k) + n ≤ measure (states 0) := by
    intro n
    induction n with
    | zero => exact ⟨0, Nat.le_refl _⟩
    | succ n ih =>
        obtain ⟨k, hk⟩ := ih
        obtain ⟨j, hkj, hhelpful⟩ := hfair k
        have hless := (hnext j).2 hhelpful
        have hle : measure (states j) ≤ measure (states k) := hmono hkj
        exact ⟨j + 1, by omega⟩
  obtain ⟨k, hk⟩ := hfalls (measure (states 0) + 1)
  omega

end TransitionSystem

end SystemsProgramming
