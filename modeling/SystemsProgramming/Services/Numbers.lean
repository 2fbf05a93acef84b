/-
The number that a process of the network keeps of each child, as the pair of descriptors
that `pipe` gives out and `close` gives back.
-/
import SystemsProgramming.Services.Descriptors
import SystemsProgramming.Services.Moves

namespace SystemsProgramming

namespace Services

/-- The pairs that a process of the network keeps of its children. -/
def State.pairs (s : State) (p : Nat) : List Pair :=
  (s.procs p).children.map fun c => ⟨(s.links c).isOpen, (s.links c).fd⟩

/-- What holds of the numbers in every run. -/
structure Numbered (s : State) : Prop where
  unborn : ∀ p, s.count ≤ p → (s.procs p).control = .exited
  children : ∀ p, p < s.count → ∀ c ∈ (s.procs p).children, c < s.count
  apart : ∀ p, p < s.count → Pair.Apart (s.pairs p)

variable {s s' : State} {turn : Turn} {p c d : Nat} {L : Link} {P : Proc}

/-- Pairs with the same numbers, of which no further ones are open. -/
theorem Pair.Apart.of_open {l : List Nat} {g g' : Nat → Pair} (hapart : Pair.Apart (l.map g))
    (hnumber : ∀ c ∈ l, (g' c).number = (g c).number)
    (hopen : ∀ c ∈ l, (g' c).isOpen = true → (g c).isOpen = true) : Pair.Apart (l.map g') := by
  intro i j hi hj hopeni hopenj hsame
  simp only [List.length_map] at hi hj
  simp only [List.getElem_map] at hopeni hopenj hsame
  have hmemi := List.getElem_mem hi
  have hmemj := List.getElem_mem hj
  apply hapart i j (by simpa using hi) (by simpa using hj)
  · simpa using hopen _ hmemi hopeni
  · simpa using hopen _ hmemj hopenj
  · simpa [hnumber _ hmemi, hnumber _ hmemj] using hsame

namespace State

/-- A new child of the network gets the pair that `pipe` finds for it. -/
theorem freeFd_eq_free (s : State) (p : Nat) :
    s.freeFd (s.procs p).children = Pair.free (s.pairs p) := by
  simp [freeFd, Pair.free, pairs, List.any_map, Function.comp_def]

theorem pairs_setProc_setLink (hsame : P.children = (s.procs p).children) (q : Nat) :
    ((s.setLink d L).setProc p P).pairs q =
      (s.procs q).children.map fun c =>
        ⟨((s.setLink d L).links c).isOpen, ((s.setLink d L).links c).fd⟩ := by
  by_cases hq : q = p
  · subst hq
    simp [pairs, setProc, hsame]
  · simp [pairs, setProc, hq]

end State

namespace Numbered

theorem lt_count (h : Numbered s) (hbusy : (s.procs p).control ≠ .exited) : p < s.count := by
  by_contra hle
  exact hbusy (h.unborn p (Nat.le_of_not_lt hle))

/-- A process moves, and one link keeps its number and is not opened. -/
theorem update (h : Numbered s) (hp : p < s.count) (hsame : P.children = (s.procs p).children)
    (hfd : L.fd = (s.links d).fd) (hopen : L.isOpen = true → (s.links d).isOpen = true) :
    Numbered ((s.setLink d L).setProc p P) where
  unborn q hle := by
    have hq : q ≠ p := fun heq => absurd hp (Nat.not_lt_of_le (heq ▸ hle))
    simpa [State.setProc, hq] using h.unborn q hle
  children q hlt c hc := by
    by_cases hq : q = p
    · subst hq
      exact h.children q hlt c (by simpa [State.setProc, hsame] using hc)
    · exact h.children q hlt c (by simpa [State.setProc, hq] using hc)
  apart q hlt := by
    rw [State.pairs_setProc_setLink hsame]
    apply (h.apart q hlt).of_open
    · intro c _
      by_cases hcd : c = d
      · subst hcd
        simpa using hfd
      · simp [State.links_setLink_of_ne hcd]
    · intro c _
      by_cases hcd : c = d
      · subst hcd
        simpa using hopen
      · simp [State.links_setLink_of_ne hcd]

theorem move (h : Numbered s) (hp : p < s.count) (hsame : P.children = (s.procs p).children) :
    Numbered (s.setProc p P) := by
  have hkept : s.setLink 0 (s.links 0) = s := by simp [State.setLink]
  have hupdate := h.update (d := 0) (L := s.links 0) hp hsame rfl id
  rwa [hkept] at hupdate

theorem fork (h : Numbered s) (hp : p < s.count) (child junk : List Char) :
    Numbered (s.fork p child junk) := by
  have hpc : p ≠ s.count := Nat.ne_of_lt hp
  have hold : ∀ q, q < s.count → ∀ c ∈ (s.procs q).children,
      (s.fork p child junk).links c = s.links c :=
    fun q hlt c hc => s.links_fork_of_ne child junk (Nat.ne_of_lt (h.children q hlt c hc))
  have hborn : ∀ q, q < (s.fork p child junk).count → q = s.count ∨ q < s.count :=
    fun q hlt => (Nat.lt_succ_iff_lt_or_eq.mp hlt).symm
  constructor
  · intro q hle
    have hq : s.count < q := hle
    rw [s.procs_fork_of_ne child junk (Nat.ne_of_gt hq) (Nat.ne_of_gt (hp.trans hq))]
    exact h.unborn q (Nat.le_of_lt hq)
  · intro q hlt c hc
    rcases hborn q hlt with rfl | hq
    · rw [s.procs_fork_born] at hc
      cases hc
    · by_cases hqp : q = p
      · subst hqp
        rw [s.procs_fork_parent child junk hpc] at hc
        rcases List.mem_append.mp hc with hc | hc
        · exact Nat.lt_succ_of_lt (h.children q hq c hc)
        · rw [List.mem_singleton.mp hc]
          exact Nat.lt_succ_self _
      · rw [s.procs_fork_of_ne child junk (Nat.ne_of_lt hq) hqp] at hc
        exact Nat.lt_succ_of_lt (h.children q hq c hc)
  · intro q hlt
    rcases hborn q hlt with rfl | hq
    · rw [State.pairs, s.procs_fork_born]
      intro i j hi
      cases hi
    · by_cases hqp : q = p
      · subst hqp
        have hpairs : (s.fork q child junk).pairs q =
            s.pairs q ++ [⟨true, Pair.free (s.pairs q)⟩] := by
          rw [State.pairs, s.procs_fork_parent child junk hpc, Proc.adopt, List.map_append]
          congr 1
          · exact List.map_congr_left fun c hc => by rw [hold q hq c hc]
          · simp [s.links_fork_born, Link.born, s.freeFd_eq_free]
        rw [hpairs]
        exact (h.apart q hq).append (Pair.holder_free _)
      · have hpairs : (s.fork p child junk).pairs q = s.pairs q := by
          rw [State.pairs, s.procs_fork_of_ne child junk (Nat.ne_of_lt hq) hqp]
          exact List.map_congr_left fun c hc => by rw [hold q hq c hc]
        rw [hpairs]
        exact h.apart q hq

theorem step (h : Numbered s) (hstep : s.step turn = some s') : Numbered s' := by
  have hmove := Move.of_step hstep
  have hp : turn.pid < s.count := h.lt_count hmove.not_exited
  cases hmove with
  | greet | receive | answer => exact h.update hp rfl rfl id
  | @command request bufs _ hpid _ =>
      have hobeyed := h.move (hpid ▸ hp) (State.obey_load_same (s.procs 0) bufs request).children
      exact ⟨hobeyed.unborn, hobeyed.children, hobeyed.apart⟩
  | fork => exact h.fork hp _ _
  | greeting | walkSend | reap => exact h.update hp rfl rfl id
  | walkEnd | walkSkip | dyingEnd | dyingSkip | tellNobody | waitNobody | exit =>
      exact h.move hp rfl
  | hear =>
      exact h.update hp (State.judge_same _ _ _ _ _).children rfl fun hopen =>
        (Bool.and_eq_true_iff.mp hopen).1
  | tell =>
      refine h.update hp rfl rfl fun hopen => ?_
      cases hopen

end Numbered

theorem reachable_numbered (hreach : network.Reachable s) : Numbered s := by
  refine hreach.invariant (P := Numbered) ?_ fun s turn s' h hstep => h.step hstep
  rintro s ⟨hcount, -, -, hchildren, hexited⟩
  have honly : ∀ p, p < s.count → (s.procs p).children = [] := fun p hlt => by
    obtain rfl : p = 0 := by omega
    exact hchildren
  constructor
  · exact fun p hle => hexited p (by omega)
  · intro p hlt c hc
    rw [honly p hlt] at hc
    cases hc
  · intro p hlt i j hi
    rw [State.pairs, honly p hlt] at hi
    cases hi

/-- What the network writes at the number of a child goes where the descriptor leads. -/
theorem holder_eq_holder (hreach : network.Reachable s) (hp : p < s.count) {i : Nat}
    (hi : i < (s.procs p).children.length) :
    s.holder p (s.procs p).children[i] =
      (Pair.holder (s.pairs p) (s.links (s.procs p).children[i]).fd).bind fun j =>
        (s.procs p).children[j]? := by
  have hapart := (reachable_numbered hreach).apart p hp
  have hpairs : i < (s.pairs p).length := by simpa [State.pairs] using hi
  unfold State.holder
  by_cases hopen : (s.links (s.procs p).children[i]).isOpen
  · have hheld : Pair.holder (s.pairs p) (s.links (s.procs p).children[i]).fd = some i :=
      hapart.holder_eq_some_iff.mpr
        ⟨hpairs, by simpa [State.pairs] using hopen, by simp [State.pairs]⟩
    simp [hopen, hheld]
  · rw [if_neg hopen]
    simp only [Pair.holder, State.pairs, List.findIdx?_map, Function.comp_def]
    rw [List.find?_eq_bind_findIdx?_getElem?]

end Services

end SystemsProgramming
