/-
One system that refines another, with silent steps, and threads that share a lock.
A step of the lower system commits a list of labels of the upper one, empty where the
upper system does not see it.
-/
import SystemsProgramming.Runs
import Mathlib

namespace SystemsProgramming

namespace TransitionSystem

universe u v w x

variable {S : Type u} {A : Type v} {T : Type w} {B : Type x}
  {M : TransitionSystem S A} {N : TransitionSystem T B} {ok : S → A → Prop}

/-- The simulation rule for systems that are observed: where every step is matched by a run of
the labels it commits that shows the same, so is every run. -/
theorem refines_run_trace {E : Type*} (commits : S → A → List B) (below : S → A → List E)
    (observed : T → B → List E) (R : S → T → Prop)
    (hstep : ∀ state action next above, R state above → ok state action →
      M.step state action = some next →
      ∃ later, N.run above (commits state action) = some later ∧
        N.trace observed above (commits state action) = below state action ∧ R next later)
    {state last : S} {above : T} {actions : List A} (hR : R state above)
    (hmeets : M.Meets ok state actions) (hrun : M.run state actions = some last) :
    ∃ later, N.run above (M.trace commits state actions) = some later ∧
      N.trace observed above (M.trace commits state actions) = M.trace below state actions ∧
      R last later := by
  induction actions generalizing state above with
  | nil =>
      obtain rfl : state = last := by simpa [TransitionSystem.run] using hrun
      exact ⟨above, rfl, rfl, hR⟩
  | cons action rest ih =>
      simp only [TransitionSystem.run, Option.bind_eq_some_iff] at hrun
      obtain ⟨next, hnext, hrest⟩ := hrun
      obtain ⟨mid, hmid, hshown, hR'⟩ := hstep state action next above hR hmeets.1 hnext
      obtain ⟨later, hlater, hshown', hlast⟩ := ih hR' (hmeets.2 next hnext) hrest
      simp only [trace, hnext]
      refine ⟨later, ?_, ?_, hlast⟩
      · rw [run_append, hmid, Option.bind_some, hlater]
      · rw [trace_append observed hmid, hshown, hshown']

/-- The simulation rule: where every step is matched by a run of the labels it commits,
every run is matched by the run of all the labels it commits. -/
theorem refines_run (commits : S → A → List B) (R : S → T → Prop)
    (hstep : ∀ state action next above, R state above → ok state action →
      M.step state action = some next →
      ∃ later, N.run above (commits state action) = some later ∧ R next later)
    {state last : S} {above : T} {actions : List A} (hR : R state above)
    (hmeets : M.Meets ok state actions) (hrun : M.run state actions = some last) :
    ∃ later, N.run above (M.trace commits state actions) = some later ∧ R last later := by
  -- nothing is observed
  have hstep' : ∀ state action next above, R state above → ok state action →
      M.step state action = some next → ∃ later, N.run above (commits state action) = some later ∧
        N.trace (E := Empty) (fun _ _ => []) above (commits state action) = [] ∧ R next later := by
    intro state action next above hR hok hnext
    obtain ⟨later, hlater, hR'⟩ := hstep state action next above hR hok hnext
    exact ⟨later, hlater, Subsingleton.elim _ _, hR'⟩
  obtain ⟨later, hlater, -, hlast⟩ :=
    refines_run_trace commits (fun _ _ => []) (fun _ _ => []) R hstep' hR hmeets hrun
  exact ⟨later, hlater, hlast⟩

theorem sum_map_ite (l : List A) (f : A → Bool) (c : Nat) :
    (l.map fun a => if f a then c else 0).sum = c * l.countP f := by
  induction l with
  | nil => rfl
  | cons a l ih => cases h : f a <;> simp [h, ih, Nat.mul_add, Nat.add_comm]

/-- The rule of the account: where no step takes more from the account than it pays in, no
run does. -/
theorem run_weight_le (weight : S → Nat) (spent paid : A → Nat) {inv : S → Prop}
    (hkept : ∀ state action next, inv state → M.step state action = some next → inv next)
    (hstep : ∀ state action next, inv state → M.step state action = some next →
      spent action + weight next ≤ weight state + paid action)
    {state last : S} {actions : List A} (hstate : inv state)
    (hrun : M.run state actions = some last) :
    (actions.map spent).sum + weight last ≤ weight state + (actions.map paid).sum := by
  induction actions generalizing state with
  | nil =>
      obtain rfl : state = last := by simpa [TransitionSystem.run] using hrun
      simp
  | cons action rest ih =>
      simp only [TransitionSystem.run, Option.bind_eq_some_iff] at hrun
      obtain ⟨next, hnext, hrest⟩ := hrun
      have hone := hstep state action next hstate hnext
      have hlater := ih (hkept state action next hstate hnext) hrest
      simp only [List.map_cons, List.sum_cons]
      omega

end TransitionSystem

/-- The thread that owns the lock, and no other, is between its lock and its unlock. -/
def Excludes {T : Type*} (inside : T → Bool) (owner : Option T) : Prop :=
  ∀ t, inside t = true ↔ owner = some t

namespace Excludes

variable {T : Type*} {inside other : T → Bool} {owner : Option T} {t u : T}

theorem unique (hlock : Excludes inside owner) (ht : inside t = true) (hu : inside u = true) :
    t = u :=
  Option.some.inj (((hlock t).mp ht).symm.trans ((hlock u).mp hu))

theorem outside (hlock : Excludes inside none) (t : T) : inside t = false := by
  have := hlock t
  simpa using this

theorem stay (hlock : Excludes inside owner) (hsame : ∀ u, other u = inside u) :
    Excludes other owner := by
  intro u
  rw [hsame u]
  exact hlock u

theorem acquire (hlock : Excludes inside none) (ht : other t = true)
    (hsame : ∀ u, u ≠ t → other u = inside u) : Excludes other (some t) := by
  intro u
  by_cases hu : u = t
  · simp [hu, ht]
  · simp [hsame u hu, hlock.outside u, Ne.symm hu]

theorem release (hlock : Excludes inside (some t)) (ht : other t = false)
    (hsame : ∀ u, u ≠ t → other u = inside u) : Excludes other none := by
  intro u
  by_cases hu : u = t
  · simp [hu, ht]
  · have hnot : inside u ≠ true := fun h => hu (Option.some.inj ((hlock u).mp h)).symm
    simp [hsame u hu, hnot]

end Excludes

end SystemsProgramming
