/-
How long the processes can be at work.  A service that may still be sent a message owes an
errand, and every turn but that of a new command spends some of what is left.
-/
import SystemsProgramming.Services.Moves

namespace SystemsProgramming

namespace Services

variable {s s' : State} {turn : Turn} {k k' : Control} {L L' : Link} {p c : Nat} {P : Proc}

/-! The lists of children. -/

/-- Every service stands once in the list of its parent, and what is left of a list is a
part of it. -/
structure Tidy (s : State) : Prop where
  distinct : ∀ p, p < s.count → (s.procs p).children.Nodup
  rest : ∀ p, p < s.count → (s.procs p).control.pending.Sublist (s.procs p).children
  listed : ∀ c, 0 < c → c < s.count → c ∈ (s.procs (s.procs c).parent).children

theorem sublist_obey (P : Proc) (request : Request) :
    (State.obey P request).control.pending.Sublist P.children := by
  rcases State.obey_control P request with ⟨child, hk⟩ | hk | ⟨job, hk⟩
  · rw [hk]
    exact List.nil_sublist _
  · rw [hk]
    exact List.Sublist.refl _
  · rw [hk]
    exact List.Sublist.refl _

namespace Tidy

/-- A process moves and keeps its list. -/
theorem touch (htidy : Tidy s) (hp : p < s.count) (hsame : P.SameFamily (s.procs p))
    (hrest : P.control.pending.Sublist (s.procs p).children) :
    Tidy ((s.setLink c L).setProc p P) := by
  have hkept : ∀ q, (Function.update s.procs p P q).children = (s.procs q).children ∧
      (Function.update s.procs p P q).parent = (s.procs q).parent := by
    intro q
    by_cases hq : q = p
    · subst hq
      simp [hsame.children, hsame.parent]
    · simp [Function.update_of_ne hq]
  constructor
  · intro q hq
    change (Function.update s.procs p P q).children.Nodup
    rw [(hkept q).1]
    exact htidy.distinct q hq
  · intro q hq
    change (Function.update s.procs p P q).control.pending.Sublist
      (Function.update s.procs p P q).children
    rw [(hkept q).1]
    by_cases hqp : q = p
    · subst hqp
      simpa using hrest
    · simpa [Function.update_of_ne hqp] using htidy.rest q hq
  · intro c hpos hlt
    change c ∈ (Function.update s.procs p P (Function.update s.procs p P c).parent).children
    rw [(hkept c).2, (hkept _).1]
    exact htidy.listed c hpos hlt

theorem move (htidy : Tidy s) (hp : p < s.count) (hsame : P.SameFamily (s.procs p))
    (hrest : P.control.pending.Sublist (s.procs p).children) : Tidy (s.setProc p P) := by
  have hself : s.setLink p (s.links p) = s := by simp [State.setLink]
  rw [← hself]
  exact htidy.touch hp hsame hrest

/-- A new service stands at the end of the list. -/
theorem fork (h : Inv s) (htidy : Tidy s) (hp : p < s.count) (child junk : List Char) :
    Tidy (s.fork p child junk) := by
  have hpc : p ≠ s.count := Nat.ne_of_lt hp
  constructor
  · intro q hq
    by_cases hqc : q = s.count
    · rw [hqc, s.procs_fork_born]
      exact List.nodup_nil
    · by_cases hqp : q = p
      · subst hqp
        rw [s.procs_fork_parent _ _ hpc]
        apply (htidy.distinct q hp).append (List.nodup_singleton _)
        rw [List.disjoint_singleton]
        intro hmem
        have := (h.family q hp _ hmem).2.1
        omega
      · rw [s.procs_fork_of_ne _ _ hqc hqp]
        exact htidy.distinct q (Nat.lt_of_le_of_ne (Nat.lt_succ_iff.mp hq) hqc)
  · intro q hq
    by_cases hqc : q = s.count
    · rw [hqc, s.procs_fork_born]
      exact List.nil_sublist _
    · by_cases hqp : q = p
      · subst hqp
        rw [s.procs_fork_parent _ _ hpc]
        exact List.sublist_append_right _ _
      · rw [s.procs_fork_of_ne _ _ hqc hqp]
        exact htidy.rest q (Nat.lt_of_le_of_ne (Nat.lt_succ_iff.mp hq) hqc)
  · intro c hpos hlt
    by_cases hcc : c = s.count
    · rw [hcc, s.procs_fork_born]
      change s.count ∈ ((s.fork p child junk).procs p).children
      rw [s.procs_fork_parent _ _ hpc]
      exact List.mem_append_right _ (List.mem_singleton_self _)
    · have hlt : c < s.count := Nat.lt_of_le_of_ne (Nat.lt_succ_iff.mp hlt) hcc
      have hlisted := htidy.listed c hpos hlt
      have hparent : ((s.fork p child junk).procs c).parent = (s.procs c).parent := by
        by_cases hcp : c = p
        · rw [hcp, s.procs_fork_parent _ _ hpc]
          rfl
        · rw [s.procs_fork_of_ne _ _ hcc hcp]
      have hold : (s.procs c).parent ≠ s.count := by
        have := h.older c hpos hlt
        omega
      rw [hparent]
      by_cases hparentp : (s.procs c).parent = p
      · rw [hparentp] at hlisted ⊢
        rw [s.procs_fork_parent _ _ hpc]
        exact List.mem_append_left _ hlisted
      · rwa [s.procs_fork_of_ne _ _ hold hparentp]

theorem start (hstart : network.start s) : Tidy s := by
  obtain ⟨hcount, -, hcontrol, hchildren, -⟩ := hstart
  constructor
  · intro p hp
    obtain rfl : p = 0 := by omega
    simp [hchildren]
  · intro p hp
    obtain rfl : p = 0 := by omega
    simp [hcontrol, Control.pending]
  · intro c hpos hlt
    omega

theorem move_kept (h : Inv s) (htidy : Tidy s) (hmove : Move s turn s') : Tidy s' := by
  have hlt : ∀ {k}, (s.procs turn.pid).control = k → k ≠ .exited → turn.pid < s.count := by
    intro k hcontrol hne
    exact h.lt_count (by rwa [hcontrol])
  have hrest : ∀ {k}, (s.procs turn.pid).control = k → k ≠ .exited →
      k.pending.Sublist (s.procs turn.pid).children := by
    intro k hcontrol hne
    rw [← hcontrol]
    exact htidy.rest _ (hlt hcontrol hne)
  have hsame := Proc.goto_same (s.procs turn.pid)
  cases hmove with
  | greet hcontrol _ =>
      exact htidy.touch (hlt hcontrol (by simp)) (hsame _) (List.nil_sublist _)
  | @command request bufs _ _ _ _ =>
      have htidy' := htidy.move h.born (State.obey_load_same _ bufs request)
        (sublist_obey _ request)
      exact ⟨htidy'.distinct, htidy'.rest, htidy'.listed⟩
  | receive _ hcontrol _ =>
      exact htidy.touch (hlt hcontrol (by simp)) (Proc.receive_same _ _) (sublist_dispatch _ _)
  | fork hcontrol => exact fork h htidy (hlt hcontrol (by simp)) _ _
  | greeting hcontrol =>
      apply htidy.touch (hlt hcontrol (by simp)) (hsame _)
      simp only [Proc.goto]
      split <;> exact List.nil_sublist _
  | walkEnd hcontrol =>
      apply htidy.move (hlt hcontrol (by simp)) (hsame _)
      simp only [Proc.goto, State.notFound]
      split <;> exact List.nil_sublist _
  | walkSkip hcontrol _ =>
      have hsub := hrest hcontrol (by simp)
      exact htidy.move (hlt hcontrol (by simp)) (hsame _) ((List.sublist_cons_self _ _).trans hsub)
  | dyingSkip hcontrol _ _ | tellNobody hcontrol _ _ =>
      have hsub := hrest hcontrol (by simp)
      exact htidy.move (hlt hcontrol (by simp)) (hsame _) ((List.sublist_cons_self _ _).trans hsub)
  | tell hcontrol _ _ =>
      have hsub := hrest hcontrol (by simp)
      exact htidy.touch (hlt hcontrol (by simp)) (hsame _) ((List.sublist_cons_self _ _).trans hsub)
  | walkSend hcontrol _ =>
      have hsub := hrest hcontrol (by simp)
      exact htidy.touch (hlt hcontrol (by simp)) (hsame _) hsub
  | reap hcontrol _ _ _ =>
      have hsub := hrest hcontrol (by simp)
      exact htidy.touch (hlt hcontrol (by simp)) (hsame _) hsub
  | waitNobody hcontrol _ =>
      have hsub := hrest hcontrol (by simp)
      exact htidy.move (hlt hcontrol (by simp)) (hsame _) hsub
  | @hear job c next hcontrol _ =>
      have hsub := hrest hcontrol (by simp)
      apply htidy.touch (hlt hcontrol (by simp)) (State.judge_same _ _ _ _ _)
      rcases judge_control turn.pid (s.procs turn.pid) job next _ with
        hk | ⟨-, -, hk⟩ | ⟨-, hk⟩ | ⟨-, hk⟩
      · rw [hk]
        exact (List.sublist_cons_self _ _).trans hsub
      · rw [hk]
        exact List.Sublist.refl _
      · rw [hk]
        exact List.nil_sublist _
      · rw [hk]
        exact List.nil_sublist _
  | @answer message hcontrol =>
      apply htidy.touch (hlt hcontrol (by simp)) (hsame _)
      simp only [Proc.goto]
      split <;> exact List.nil_sublist _
  | @dyingEnd ending hcontrol =>
      apply htidy.move (hlt hcontrol (by simp)) (hsame _)
      cases ending <;> exact List.nil_sublist _
  | exit hcontrol =>
      exact htidy.move (hlt hcontrol (by simp)) (hsame _) (List.nil_sublist _)

end Tidy

/-! What is left to do. -/

namespace Control

/-- A bound on the turns that a process takes from this place on, its children aside. -/
def load : Control → Nat
  | loop | exited => 0
  | greet | returning => 1
  | reply _ => 2
  | greeting _ => 3
  | forking _ => 5
  | walk _ tmp | dying _ tmp => 2 * tmp.length + 3
  | await _ _ next | waiting _ next => 2 * next.length + 4

/-- The process may still write to the child `c`. -/
def Calls (c : Nat) (L : Link) : Control → Prop
  | walk _ tmp | await _ _ tmp => c ∈ tmp ∧ L.haveKilled = false
  | dying _ _ | waiting _ _ => L.isOpen = true
  | _ => False

/-- The process is at a `read` of its own pipe. -/
def Rests : Control → Prop
  | greet | loop => True
  | _ => False

theorem Calls.mono (hcalls : k.Calls c L') (hhold : L.Holds L') : k.Calls c L := by
  cases k with
  | walk | await => exact ⟨hcalls.1, hhold.unmarked hcalls.2⟩
  | dying | waiting => exact hhold.isOpen hcalls
  | _ => exact hcalls

theorem Calls.not_exited (hcalls : k.Calls c L) : k ≠ .exited := by
  rintro rfl
  exact hcalls

theorem rests_iff : k.Rests ↔ k = .greet ∨ k = .loop := by
  cases k <;> simp [Rests]

theorem Rests.not_exited (hrests : k.Rests) : k ≠ .exited := by
  rintro rfl
  exact hrests

theorem Rests.not_gone (hrests : k.Rests) : ¬ k.Gone := by
  cases k with
  | returning | exited => exact hrests.elim
  | _ => exact id

theorem Rests.toward (hrests : k.Rests) (c : Nat) : k.toward c = .quiet := by
  cases k with
  | greet | loop => rfl
  | _ => exact hrests.elim

end Control

namespace Edge

variable {hello : List Char} {stance : Stance}

/-- A child that can be written to. -/
theorem rests (hedge : Edge hello k L stance) (hstance : stance = .quiet ∨ stance = .leaving)
    (hopen : L.isOpen = true) : k.Rests ∧ L.haveKilled = false := by
  cases hedge with
  | fresh _ hcontrol _ _ _ _ hlinked | ready _ hcontrol _ _ hlinked =>
      rw [hcontrol]
      exact ⟨trivial, hlinked.unmarked⟩
  | forked | commanded | working | answered => simp at hstance
  | told _ _ _ _ _ hcut | closed _ _ _ _ hcut => simp [hcut.closed] at hopen

/-- A service at work has read all that was sent to it. -/
theorem cmd_of_busy (hedge : Edge hello k L stance) (hbusy : ¬ k.Rests) : L.cmd = [] := by
  cases hedge with
  | forked _ _ _ hcmd => exact hcmd
  | ready _ _ hread | working _ hread | answered _ hread | closed _ _ hread => exact hread.empty
  | fresh _ hcontrol | commanded hcontrol | told _ hcontrol =>
      rw [hcontrol] at hbusy
      exact absurd trivial hbusy

theorem cmd_short (hedge : Edge hello k L stance) (hshort : hello.length ≤ 512) :
    L.cmd.length ≤ 512 := by
  cases hedge with
  | forked _ _ _ hcmd => simp [hcmd]
  | fresh _ _ _ _ hcmd => rwa [hcmd]
  | ready _ _ hread | working _ hread | answered _ hread | closed _ _ hread => simp [hread.empty]
  | commanded _ _ hcommand =>
      obtain ⟨text, htext, -, -, hlength⟩ := hcommand
      simp only [htext, List.length_append, List.length_singleton]
      omega
  | told _ _ _ hcmd =>
      rw [hcmd]
      decide

end Edge

/-- The services that may still be sent a message before the next command, or have one
to read. -/
inductive Owed (s : State) : Nat → Prop
  | unread {c : Nat} (hpos : 0 < c) (hcontrol : (s.procs c).control = .loop)
      (hcmd : (s.links c).cmd ≠ []) : Owed s c
  | next {p c : Nat} (hc : c ∈ (s.procs p).children)
      (hcalls : (s.procs p).control.Calls c (s.links c)) : Owed s c
  | under {p c : Nat} (hc : c ∈ (s.procs p).children) (hrests : (s.procs p).control.Rests)
      (howed : Owed s p) (hunmarked : (s.links c).haveKilled = false) : Owed s c

namespace Owed

theorem bounds (h : Inv s) (howed : Owed s c) : 0 < c ∧ c < s.count := by
  cases howed with
  | unread hpos hcontrol _ => exact ⟨hpos, h.lt_count (by simp [hcontrol])⟩
  | next hc hcalls =>
      obtain ⟨hpos, hlt, -⟩ := h.family _ (h.lt_count hcalls.not_exited) c hc
      exact ⟨hpos, hlt⟩
  | under hc hrests _ _ =>
      obtain ⟨hpos, hlt, -⟩ := h.family _ (h.lt_count hrests.not_exited) c hc
      exact ⟨hpos, hlt⟩

/-- A child that will be written to is not the one that the process is waiting for. -/
theorem open_of_calls (h : Inv s) (htidy : Tidy s) (hc : c ∈ (s.procs p).children)
    (hcalls : (s.procs p).control.Calls c (s.links c)) :
    ((s.procs p).control.toward c = .quiet ∨ (s.procs p).control.toward c = .leaving) ∧
      (s.links c).isOpen = true := by
  have hp := h.lt_count hcalls.not_exited
  obtain ⟨-, -, -, -, hedge⟩ := h.child hp hc
  have hrest := htidy.rest p hp
  cases hcontrol : (s.procs p).control with
  | walk job tmp =>
      rw [hcontrol] at hcalls hedge
      exact ⟨.inl rfl, hedge.open_of_unmarked hcalls.2⟩
  | await job child next =>
      rw [hcontrol] at hcalls hedge hrest
      have hne : child ≠ c := by
        rintro rfl
        have hnodup := hrest.nodup (htidy.distinct p hp)
        exact (List.nodup_cons.mp hnodup).1 hcalls.1
      have hquiet : Control.toward c (.await job child next) = .quiet := if_neg hne
      rw [hquiet] at hedge
      exact ⟨.inl hquiet, hedge.open_of_unmarked hcalls.2⟩
  | dying | waiting =>
      rw [hcontrol] at hcalls
      exact ⟨.inr rfl, hcalls⟩
  | _ =>
      rw [hcontrol] at hcalls
      exact hcalls.elim

theorem rests (h : Inv s) (htidy : Tidy s) (howed : Owed s c) : (s.procs c).control.Rests := by
  cases howed with
  | unread _ hcontrol _ =>
      rw [hcontrol]
      trivial
  | next hc hcalls =>
      obtain ⟨hstance, hopen⟩ := open_of_calls h htidy hc hcalls
      obtain ⟨-, -, -, -, hedge⟩ := h.child (h.lt_count hcalls.not_exited) hc
      exact (hedge.rests hstance hopen).1
  | under hc hrests _ hunmarked =>
      obtain ⟨-, -, -, -, hedge⟩ := h.child (h.lt_count hrests.not_exited) hc
      rw [hrests.toward] at hedge
      exact (hedge.rests (.inl rfl) (hedge.open_of_unmarked hunmarked)).1

/-- A step of `p` that lets no service owe an errand that did not. -/
theorem of_frame (h : Inv s) (hframe : Frame s p s')
    (hunread : ∀ c, 0 < c → (s'.procs c).control = .loop → (s'.links c).cmd ≠ [] → Owed s c)
    (hcalls : ∀ c ∈ (s'.procs p).children, (s'.procs p).control.Calls c (s'.links c) → Owed s c)
    (hrests : (s'.procs p).control.Rests → Owed s p → ∀ c ∈ (s'.procs p).children,
      (s'.links c).haveKilled = false → Owed s c) (howed : Owed s' c) : Owed s c := by
  have hother : ∀ q d, q ≠ p → d ∈ (s'.procs q).children → (s'.procs q).control ≠ .exited →
      s'.procs q = s.procs q ∧ (s.links d).Holds (s'.links d) := by
    intro q d hq hd hbusy
    by_cases hlt : q < s.count
    · have hsame := hframe.procs q hq hlt
      rw [hsame] at hd
      exact ⟨hsame, hframe.hold d (h.family q hlt d hd).2.1⟩
    · rcases hframe.born q hq (Nat.le_of_not_lt hlt) with hsame | hnone
      · rw [hsame] at hbusy
        exact absurd (h.unborn q (Nat.le_of_not_lt hlt)) hbusy
      · simp [hnone] at hd
  induction howed with
  | unread hpos hcontrol hcmd => exact hunread _ hpos hcontrol hcmd
  | @next q c hc hc' =>
      by_cases hq : q = p
      · subst hq
        exact hcalls c hc hc'
      · obtain ⟨hsame, hhold⟩ := hother q c hq hc hc'.not_exited
        rw [hsame] at hc hc'
        exact .next hc (hc'.mono hhold)
  | @under q c hc hq' _ hunmarked ih =>
      by_cases hq : q = p
      · subst hq
        exact hrests hq' ih c hc hunmarked
      · obtain ⟨hsame, hhold⟩ := hother q c hq hc hq'.not_exited
        rw [hsame] at hc hq'
        exact .under hc hq' ih (hhold.unmarked hunmarked)

end Owed

namespace State

open Classical in
/-- A bound on the turns of a service that owes an errand, from its next `read` on. -/
noncomputable def errand (s : State) (c : Nat) : Nat :=
  if Owed s c then 2 * (s.procs c).children.length + 6 else 0

/-- A bound on the turns before the next command. -/
noncomputable def work (s : State) : Nat :=
  ∑ p ∈ Finset.range s.count, ((s.procs p).control.load + s.errand p)

theorem errand_of_not_owed (howed : ¬ Owed s c) : s.errand c = 0 := by
  unfold errand
  exact if_neg howed

theorem errand_mono (howed : Owed s' c → Owed s c)
    (hchildren : (s'.procs c).children = (s.procs c).children) : s'.errand c ≤ s.errand c := by
  unfold errand
  rw [hchildren]
  split
  · rename_i h
    rw [if_pos (howed h)]
  · exact Nat.zero_le _

end State

/-- A step that spends some of what is left, and lets nobody owe more. -/
structure Spends (s s' : State) : Prop where
  owed : ∀ c, Owed s' c → Owed s c
  work : s'.work < s.work

namespace Spends

theorem of_frame (hp : p < s.count) (hframe : Frame s p s') (hcount : s'.count = s.count)
    (howed : ∀ c, Owed s' c → Owed s c)
    (hless : (s'.procs p).control.load + s'.errand p <
      (s.procs p).control.load + s.errand p) : Spends s s' := by
  refine ⟨howed, ?_⟩
  unfold State.work
  rw [hcount]
  apply Finset.sum_lt_sum
  · intro q hq
    have hlt := Finset.mem_range.mp hq
    by_cases hqp : q = p
    · subst hqp
      exact Nat.le_of_lt hless
    · have hsame := hframe.procs q hqp hlt
      have hmono := State.errand_mono (howed q) (congrArg Proc.children hsame)
      rw [hsame]
      omega
  · exact ⟨p, Finset.mem_range.mpr hp, hless⟩

/-- A step between the `read` of a message and the next one. -/
theorem of_busy {d : Nat} (h : Inv s) (htidy : Tidy s) (hcontrol : (s.procs p).control = k)
    (hbusy : ¬ k.Rests) (hp : p < s.count) (hsame : P.SameFamily (s.procs p))
    (hframe : Frame s p ((s.setLink d L).setProc p P)) (hload : P.control.load < k.load)
    (hcalls : ∀ c L, P.control.Calls c L → k.Calls c L)
    (hself : 0 < p → P.control = .loop → ((s.setLink d L).links p).cmd = [])
    (hd : d = p ∨ d ∈ (s.procs p).children)
    (hchild : d ≠ p → (s.procs d).control = .loop → L.cmd ≠ [] →
      (s.links d).cmd ≠ [] ∨ k.Calls d (s.links d)) :
    Spends s ((s.setLink d L).setProc p P) := by
  subst hcontrol
  have hprocs : ((s.setLink d L).setProc p P).procs p = P := Function.update_self _ _ _
  have hrested : ¬ Owed s p := fun howed => hbusy (howed.rests h htidy)
  have howed : ∀ c, Owed ((s.setLink d L).setProc p P) c → Owed s c := by
    intro c
    apply Owed.of_frame h hframe
    · intro c hpos hloop hcmd
      by_cases hcp : c = p
      · subst hcp
        rw [hprocs] at hloop
        exact absurd (hself hpos hloop) hcmd
      · have hother : ((s.setLink d L).setProc p P).procs c = s.procs c :=
          Function.update_of_ne hcp _ _
        rw [hother] at hloop
        change ((s.setLink d L).links c).cmd ≠ [] at hcmd
        by_cases hcd : c = d
        · subst hcd
          rw [State.links_setLink_self] at hcmd
          rcases hchild hcp hloop hcmd with hunread | hcalled
          · exact .unread hpos hloop hunread
          · exact .next (hd.resolve_left hcp) hcalled
        · rw [State.links_setLink_of_ne hcd] at hcmd
          exact .unread hpos hloop hcmd
    · intro c hc hcalled
      rw [hprocs] at hc hcalled
      rw [hsame.children] at hc
      have hhold := hframe.hold c (h.family p hp c hc).2.1
      exact .next hc (hcalls c _ (hcalled.mono hhold))
    · intro _ howed
      exact absurd howed hrested
  apply of_frame hp hframe rfl howed
  rw [hprocs, State.errand_of_not_owed hrested,
    State.errand_of_not_owed fun h' => hrested (howed p h')]
  omega

/-- Such a step that changes no link. -/
theorem of_move (h : Inv s) (htidy : Tidy s) (hcontrol : (s.procs p).control = k)
    (hbusy : ¬ k.Rests) (hp : p < s.count) (hsame : P.SameFamily (s.procs p))
    (hload : P.control.load < k.load) (hcalls : ∀ c L, P.control.Calls c L → k.Calls c L)
    (hself : 0 < p → P.control ≠ .loop) : Spends s (s.setProc p P) := by
  have hspends : Spends s ((s.setLink p (s.links p)).setProc p P) := by
    apply of_busy h htidy hcontrol hbusy hp hsame _ hload hcalls
    · intro hpos hloop
      exact absurd hloop (hself hpos)
    · exact .inl rfl
    · intro hne
      exact absurd rfl hne
    · exact .of_link s _ (.inl ⟨rfl, .refl _⟩) (.refl _)
  simpa only [State.setLink, Function.update_eq_self] using hspends

end Spends

theorem Control.Works.not_rests {job : Job} (hworks : k.Works job) : ¬ k.Rests := by
  cases k with
  | greet | loop => exact hworks.elim
  | _ => exact id

theorem Control.Parting.not_rests (hparting : k.Parting) : ¬ k.Rests := by
  cases k with
  | greet | loop => exact hparting.elim
  | _ => exact id

theorem load_dispatch_le (P : Proc) (text : List Char) :
    (P.dispatch text).load ≤ 2 * P.children.length + 5 := by
  rcases P.dispatch_cases text with hk | ⟨job, hk⟩ | ⟨ending, hk⟩ | hk | hk <;>
    simp [hk, Control.load]

theorem calls_dispatch {text : List Char} (hcalls : (P.dispatch text).Calls c L) :
    L.haveKilled = false ∨ L.isOpen = true := by
  cases hdispatch : P.dispatch text with
  | walk | await =>
      rw [hdispatch] at hcalls
      exact .inl hcalls.2
  | dying | waiting =>
      rw [hdispatch] at hcalls
      exact .inr hcalls
  | _ =>
      rw [hdispatch] at hcalls
      exact hcalls.elim

namespace Inv

/-- One `read` takes all that is in a pipe. -/
theorem take_cmd (h : Inv s) (hpos : 0 < c) (hlt : c < s.count) : (s.links c).take.cmd = [] := by
  have hshort : (s.hello c).length ≤ 512 := by
    have hparent := h.older c hpos hlt
    have := (h.own _ (Nat.lt_trans hparent hlt)).short
    simp only [State.hello, List.length_append, List.length_singleton]
    omega
  exact List.drop_eq_nil_of_le ((h.edge c hpos hlt).cmd_short hshort)

/-- Where a service is that has read a command. -/
theorem receive_busy (h : Inv s) (hpos : 0 < p) (hcontrol : (s.procs p).control = .loop)
    (hcmd : (s.links p).cmd ≠ []) :
    ¬ ((s.procs p).receive ((s.links p).cmd.take 512)).control.Rests := by
  have hp : p < s.count := h.lt_count (by simp [hcontrol])
  have hshort : (s.links p).cmd.take 512 = (s.links p).cmd :=
    List.take_of_length_le (List.drop_eq_nil_iff.mp (h.take_cmd hpos hp))
  rw [hshort]
  rcases (h.edge p hpos hp).commandless hcontrol hcmd with
    ⟨_, _, _, hcommand, _, _⟩ | ⟨_, _, hdead, _, _⟩
  · exact ((h.own p hp).receive hpos hcommand).2.not_rests
  · rw [hdead]
    exact ((h.own p hp).receive_dead hpos).2.not_rests

end Inv

/-- What another process has not read is not taken from it. -/
theorem Owed.of_take {P : Proc} (hcp : c ≠ p) (hpos : 0 < c)
    (hloop : (((s.setLink p (s.links p).take).setProc p P).procs c).control = .loop)
    (hcmd : (((s.setLink p (s.links p).take).setProc p P).links c).cmd ≠ []) : Owed s c := by
  have hother : ((s.setLink p (s.links p).take).setProc p P).procs c = s.procs c :=
    Function.update_of_ne hcp _ _
  have hlink : ((s.setLink p (s.links p).take).setProc p P).links c = s.links c :=
    State.links_setLink_of_ne hcp s _
  rw [hother] at hloop
  rw [hlink] at hcmd
  exact .unread hpos hloop hcmd

namespace Spends

theorem greet (h : Inv s) (hcontrol : (s.procs p).control = .greet) :
    Spends s ((s.setLink p (s.links p).take).setProc p ((s.procs p).goto .loop)) := by
  have hp : p < s.count := h.lt_count (by simp [hcontrol])
  have hframe : Frame s p ((s.setLink p (s.links p).take).setProc p ((s.procs p).goto .loop)) :=
    .of_link s _ (.inl ⟨rfl, ⟨rfl, rfl, rfl, rfl⟩⟩) ⟨id, id⟩
  have hprocs : ((s.setLink p (s.links p).take).setProc p ((s.procs p).goto .loop)).procs p =
      (s.procs p).goto .loop := Function.update_self _ _ _
  have howed : ∀ c, Owed ((s.setLink p (s.links p).take).setProc p ((s.procs p).goto .loop)) c →
      Owed s c := by
    intro c
    apply Owed.of_frame h hframe
    · intro c hpos hloop hcmd
      by_cases hcp : c = p
      · subst hcp
        change ((s.setLink c (s.links c).take).links c).cmd ≠ [] at hcmd
        rw [State.links_setLink_self] at hcmd
        exact absurd (h.take_cmd hpos hp) hcmd
      · exact .of_take hcp hpos hloop hcmd
    · intro c _ hcalls
      rw [hprocs] at hcalls
      exact hcalls.elim
    · intro _ howed c hc hunmarked
      rw [hprocs] at hc
      have hlt := (h.family p hp c hc).2.1
      have hrests : (s.procs p).control.Rests := by
        rw [hcontrol]
        trivial
      exact .under hc hrests howed ((hframe.hold c hlt).unmarked hunmarked)
  apply of_frame hp hframe rfl howed
  have hmono := State.errand_mono (howed p) ((congrArg Proc.children hprocs).trans rfl)
  have hload : (s.procs p).control.load = 1 := by
    rw [hcontrol]
    rfl
  have hload' : ((s.procs p).goto .loop).control.load = 0 := rfl
  rw [hprocs, hload, hload']
  omega

theorem receive (h : Inv s) (htidy : Tidy s) (hpos : 0 < p)
    (hcontrol : (s.procs p).control = .loop) (hcmd : (s.links p).cmd ≠ []) :
    Spends s ((s.setLink p (s.links p).take).setProc p
      ((s.procs p).receive ((s.links p).cmd.take 512))) := by
  have hp : p < s.count := h.lt_count (by simp [hcontrol])
  have hbusy := h.receive_busy hpos hcontrol hcmd
  have h' := h.receive hpos hcontrol hcmd
  have htidy' : Tidy ((s.setLink p (s.links p).take).setProc p
      ((s.procs p).receive ((s.links p).cmd.take 512))) :=
    htidy.touch hp (Proc.receive_same _ _) (sublist_dispatch _ _)
  have hframe : Frame s p ((s.setLink p (s.links p).take).setProc p
      ((s.procs p).receive ((s.links p).cmd.take 512))) :=
    .of_link s _ (.inl ⟨rfl, ⟨rfl, rfl, rfl, rfl⟩⟩) ⟨id, id⟩
  have hprocs : ((s.setLink p (s.links p).take).setProc p
      ((s.procs p).receive ((s.links p).cmd.take 512))).procs p =
      (s.procs p).receive ((s.links p).cmd.take 512) := Function.update_self _ _ _
  have hunread : Owed s p := .unread hpos hcontrol hcmd
  have hrests : (s.procs p).control.Rests := by
    rw [hcontrol]
    trivial
  have howed : ∀ c, Owed ((s.setLink p (s.links p).take).setProc p
      ((s.procs p).receive ((s.links p).cmd.take 512))) c → Owed s c := by
    intro c
    apply Owed.of_frame h hframe
    · intro c hpos hloop hcmd
      by_cases hcp : c = p
      · subst hcp
        exact hunread
      · exact .of_take hcp hpos hloop hcmd
    · intro c hc hcalls
      rw [hprocs] at hc hcalls
      obtain ⟨-, hlt, -, -, hedge⟩ := h.child hp hc
      rw [hrests.toward] at hedge
      have hhold := hframe.hold c hlt
      apply Owed.under hc hrests hunread
      rcases calls_dispatch hcalls with hunmarked | hopen
      · exact hhold.unmarked hunmarked
      · exact (hedge.rests (.inl rfl) (hhold.isOpen hopen)).2
    · intro hrests'
      rw [hprocs] at hrests'
      exact absurd hrests' hbusy
  apply of_frame hp hframe rfl howed
  have hnot : ¬ Owed ((s.setLink p (s.links p).take).setProc p
      ((s.procs p).receive ((s.links p).cmd.take 512))) p := by
    intro howed'
    have hrests' := howed'.rests h' htidy'
    rw [hprocs] at hrests'
    exact hbusy hrests'
  have herrand : s.errand p = 2 * (s.procs p).children.length + 6 := if_pos hunread
  have hload : ((s.procs p).receive ((s.links p).cmd.take 512)).control.load ≤
      2 * (s.procs p).children.length + 5 := load_dispatch_le _ _
  rw [hprocs, State.errand_of_not_owed hnot, herrand]
  omega

theorem fork {child : List Char} (h : Inv s) (htidy : Tidy s)
    (hcontrol : (s.procs p).control = .forking child) (junk : List Char) :
    Spends s (s.fork p child junk) := by
  have hp : p < s.count := h.lt_count (by simp [hcontrol])
  have hpc : p ≠ s.count := Nat.ne_of_lt hp
  have hframe := Frame.of_fork s p child junk
  have hself := s.procs_fork_parent child junk hpc
  have hrested : ¬ Owed s p := by
    intro howed
    have hrests := howed.rests h htidy
    rw [hcontrol] at hrests
    exact hrests
  have howed : ∀ c, Owed (s.fork p child junk) c → Owed s c := by
    intro c
    apply Owed.of_frame h hframe
    · intro c hpos hloop hcmd
      by_cases hcc : c = s.count
      · rw [hcc, s.procs_fork_born] at hloop
        cases hloop
      · by_cases hcp : c = p
        · rw [hcp, hself] at hloop
          cases hloop
        · rw [s.procs_fork_of_ne _ _ hcc hcp] at hloop
          rw [s.links_fork_of_ne _ _ hcc] at hcmd
          exact .unread hpos hloop hcmd
    · intro c _ hcalls
      rw [hself] at hcalls
      exact hcalls.elim
    · intro hrests
      rw [hself] at hrests
      exact hrests.elim
  refine ⟨howed, ?_⟩
  have hborn : ((s.fork p child junk).procs s.count).control.load = 1 := by
    rw [s.procs_fork_born]
    rfl
  have hfree : (s.fork p child junk).errand s.count = 0 := by
    apply State.errand_of_not_owed
    intro hnew
    have := ((howed _ hnew).bounds h).2
    omega
  have hless : ∑ q ∈ Finset.range s.count, (((s.fork p child junk).procs q).control.load +
      (s.fork p child junk).errand q) + 2 ≤ s.work := by
    unfold State.work
    rw [← Finset.sum_erase_add _ _ (Finset.mem_range.mpr hp),
      ← Finset.sum_erase_add _ _ (Finset.mem_range.mpr hp)]
    have hothers : ∑ q ∈ (Finset.range s.count).erase p,
        (((s.fork p child junk).procs q).control.load + (s.fork p child junk).errand q) ≤
        ∑ q ∈ (Finset.range s.count).erase p, ((s.procs q).control.load + s.errand q) := by
      apply Finset.sum_le_sum
      intro q hq
      obtain ⟨hqp, hmem⟩ := Finset.mem_erase.mp hq
      have hsame := hframe.procs q hqp (Finset.mem_range.mp hmem)
      have hmono := State.errand_mono (howed q) (congrArg Proc.children hsame)
      rw [hsame]
      omega
    have hload : (s.procs p).control.load = 5 := by
      rw [hcontrol]
      rfl
    have hload' : ((s.fork p child junk).procs p).control.load = 3 := by
      rw [hself]
      rfl
    rw [hload, hload', State.errand_of_not_owed hrested,
      State.errand_of_not_owed fun h' => hrested (howed p h')]
    omega
  have hwork : (s.fork p child junk).work = ∑ q ∈ Finset.range s.count,
      (((s.fork p child junk).procs q).control.load + (s.fork p child junk).errand q) + 1 := by
    unfold State.work
    change ∑ q ∈ Finset.range (s.count + 1), _ = _
    rw [Finset.sum_range_succ, hborn, hfree]
  omega

end Spends

/-- The Manager turns from looking for a service to killing it. -/
def State.Finds (s s' : State) : Prop :=
  (s.procs 0).control.passes = some .find ∧ (s'.procs 0).control.passes = some .kill

theorem Move.not_finds (h : Inv s) (hmove : Move s turn s')
    (hmanager : turn.pid = 0 → (s.procs 0).control.passes ≠ some .find) : ¬ s.Finds s' := by
  rintro ⟨hfind, hkill⟩
  by_cases hzero : turn.pid = 0
  · exact hmanager hzero hfind
  · rw [(hmove.frame h).procs 0 (Ne.symm hzero) h.born, hfind] at hkill
    cases hkill

/-- Every turn spends some of what is left, but that of a new command. -/
theorem Move.spends (h : Inv s) (htidy : Tidy s) (hmove : Move s turn s')
    (hcommand : turn.pid = 0 → (s.procs 0).control ≠ .loop) (hfinds : ¬ s.Finds s') :
    Spends s s' := by
  have hp : turn.pid < s.count := h.lt_count hmove.not_exited
  have hframe := hmove.frame h
  have hsame := Proc.goto_same (s.procs turn.pid)
  cases hmove with
  | greet hcontrol _ => exact .greet h hcontrol
  | command hpid hcontrol _ => exact absurd hcontrol (hcommand hpid)
  | receive hpos hcontrol hcmd => exact .receive h htidy hpos hcontrol hcmd
  | fork hcontrol => exact .fork h htidy hcontrol _
  | @greeting child hcontrol =>
      have hc := h.mem_of_pending hcontrol (by simp) (List.mem_singleton_self _)
      obtain ⟨_, _, _, hcp, hedge⟩ := h.child hp hc
      have hstance : Control.toward child (.greeting child) = .greeting := if_pos rfl
      rw [hcontrol, hstance] at hedge
      apply Spends.of_busy h htidy hcontrol id hp (hsame _) hframe
      · simp only [Proc.goto]
        split <;> simp [Control.load]
      · intro c L hcalls
        simp only [Proc.goto] at hcalls
        split at hcalls <;> exact hcalls.elim
      · intro hpos hloop
        simp [Proc.goto, Nat.ne_of_gt hpos] at hloop
      · exact .inr hc
      · intro _ hloop
        cases hedge with
        | forked hgreet => simp [hgreet] at hloop
        | fresh hstance | ready hstance | told hstance | closed hstance => simp at hstance
  | walkEnd hcontrol =>
      apply Spends.of_move h htidy hcontrol id hp (hsame _)
      · simp only [Proc.goto, State.notFound]
        split <;> simp [Control.load]
      · intro c L hcalls
        simp only [Proc.goto, State.notFound] at hcalls
        split at hcalls <;> exact hcalls.elim
      · intro hpos
        simp [Proc.goto, State.notFound, Nat.ne_of_gt hpos]
  | walkSkip hcontrol _ =>
      apply Spends.of_move h htidy hcontrol id hp (hsame _)
      · simp [Proc.goto, Control.load]
      · intro c L hcalls
        exact ⟨List.mem_cons_of_mem _ hcalls.1, hcalls.2⟩
      · simp [Proc.goto]
  | @walkSend job c next hcontrol hunmarked =>
      have hc := h.mem_of_pending hcontrol (by simp) List.mem_cons_self
      apply Spends.of_busy h htidy hcontrol id hp (hsame _) hframe
      · simp only [Proc.goto, Control.load, List.length_cons]
        omega
      · intro c' L hcalls
        exact ⟨List.mem_cons_of_mem c hcalls.1, hcalls.2⟩
      · intro _ hloop
        cases hloop
      · exact .inr hc
      · intro _ _ _
        exact .inr ⟨List.mem_cons_self, hunmarked⟩
  | @hear job c next hcontrol hrep =>
      have hc := h.mem_of_pending hcontrol (by simp) List.mem_cons_self
      have hfound : ∀ str, (s.hear turn.pid job c next).procs turn.pid =
          State.judge turn.pid (s.procs turn.pid) job next str → ¬ (turn.pid = 0 ∧ job = .find ∧
          (State.judge turn.pid (s.procs turn.pid) job next str).control =
            .walk .kill (s.procs turn.pid).children) := by
        rintro str hprocs ⟨hp0, rfl, hkill⟩
        have hsame := congrArg (s.hear turn.pid .find c next).procs hp0
        rw [← hprocs, hsame] at hkill
        rw [hp0] at hcontrol
        exact hfinds ⟨by rw [hcontrol]; rfl, by rw [hkill]; rfl⟩
      unfold State.hear at hframe hfound ⊢
      have hfound := hfound _ (Function.update_self _ _ _)
      have hjudge := judge_control turn.pid (s.procs turn.pid) job next
        (State.settle turn.pid job (((s.procs turn.pid).str job).load
          ((s.links c).rep.take (if turn.pid = 0 then 512 else 8))))
      apply Spends.of_busy h htidy hcontrol id hp (State.judge_same _ _ _ _ _) hframe
      · rcases hjudge with hk | ⟨hp0, hjob, hk⟩ | ⟨-, hk⟩ | ⟨-, hk⟩
        · simp [hk, Control.load]
        · exact absurd ⟨hp0, hjob, hk⟩ hfound
        · simp [hk, Control.load]
        · simp only [hk, Control.load]
          omega
      · intro c' L hcalls
        rcases hjudge with hk | ⟨hp0, hjob, hk⟩ | ⟨-, hk⟩ | ⟨-, hk⟩
        · rw [hk] at hcalls
          exact hcalls
        · exact absurd ⟨hp0, hjob, hk⟩ hfound
        · rw [hk] at hcalls
          exact hcalls.elim
        · rw [hk] at hcalls
          exact hcalls.elim
      · intro hpos hloop
        rcases hjudge with hk | ⟨hp0, hjob, hk⟩ | ⟨hp0, -⟩ | ⟨-, hk⟩
        · rw [hk] at hloop
          cases hloop
        · exact absurd ⟨hp0, hjob, hk⟩ hfound
        · omega
        · rw [hk] at hloop
          cases hloop
      · exact .inr hc
      · intro _ _ hcmd
        exact .inl hcmd
  | @answer message hcontrol =>
      apply Spends.of_busy h htidy hcontrol id hp (hsame _) hframe
      · simp only [Proc.goto]
        split <;> simp [Control.load]
      · intro c L hcalls
        simp only [Proc.goto] at hcalls
        split at hcalls <;> exact hcalls.elim
      · intro hpos _
        rw [State.links_setLink_self]
        apply (h.edge _ hpos hp).cmd_of_busy
        rw [hcontrol]
        exact id
      · exact .inl rfl
      · intro hne
        exact absurd rfl hne
  | @dyingEnd ending hcontrol =>
      apply Spends.of_move h htidy hcontrol id hp (hsame _)
      · cases ending <;> simp [Proc.goto, Ending.last, Control.load]
      · intro c L hcalls
        cases ending <;> exact hcalls.elim
      · intro _
        cases ending <;> simp [Proc.goto, Ending.last]
  | dyingSkip hcontrol _ _ =>
      apply Spends.of_move h htidy hcontrol id hp (hsame _)
      · simp [Proc.goto, Control.load]
      · intro c L hcalls
        exact hcalls
      · simp [Proc.goto]
  | tell hcontrol _ hholder =>
      have hc := h.mem_of_pending hcontrol (by simp) List.mem_cons_self
      obtain ⟨hc', hopen⟩ := holder_mem hc hholder
      apply Spends.of_busy h htidy hcontrol id hp (hsame _) hframe
      · simp only [Proc.goto, Control.load, List.length_cons]
        omega
      · intro c L hcalls
        exact hcalls
      · intro _ hloop
        cases hloop
      · exact .inr hc'
      · intro _ _ _
        exact .inr hopen
  | tellNobody hcontrol _ _ =>
      apply Spends.of_move h htidy hcontrol id hp (hsame _)
      · simp only [Proc.goto, Control.load, List.length_cons]
        omega
      · intro c L hcalls
        exact hcalls
      · simp [Proc.goto]
  | reap hcontrol hchild _ _ =>
      apply Spends.of_busy h htidy hcontrol id hp (hsame _) hframe
      · simp [Proc.goto, Control.load]
      · intro c L hcalls
        exact hcalls
      · intro _ hloop
        cases hloop
      · exact .inr hchild
      · intro _ _ hcmd
        exact .inl hcmd
  | waitNobody hcontrol _ =>
      apply Spends.of_move h htidy hcontrol id hp (hsame _)
      · simp [Proc.goto, Control.load]
      · intro c L hcalls
        exact hcalls
      · simp [Proc.goto]
  | exit hcontrol =>
      apply Spends.of_move h htidy hcontrol id hp (hsame _)
      · simp [Proc.goto, Control.load]
      · intro c L hcalls
        exact hcalls
      · simp [Proc.goto]

theorem Reply.bytes_ne_nil (message : Reply) : message.bytes ≠ [] := by
  cases message <;> decide

/-- While a process is at work, one can go on: it, or one that it is waiting for. -/
theorem Inv.exists_turn (h : Inv s) {Q : Nat → Prop}
    (hcall : ∀ p job c next, Q p → (s.procs p).control = .await job c next → Q c)
    (hwait : ∀ p ending next, Q p → p < s.count → (s.procs p).control = .waiting ending next →
      (∃ turn s', s.step turn = some s') ∨
        ∃ c, p < c ∧ c < s.count ∧ Q c ∧ ¬ (s.procs c).control.Rests ∧
          (s.procs c).control ≠ .exited)
    (hp : p < s.count) (hQ : Q p) (hbusy : ¬ (s.procs p).control.Rests)
    (hexited : (s.procs p).control ≠ .exited) : ∃ turn s', s.step turn = some s' := by
  induction hn : s.count - p using Nat.strong_induction_on generalizing p with
  | _ n ih =>
      have hbelow : ∀ c, p < c → c < s.count → Q c → ¬ (s.procs c).control.Rests →
          (s.procs c).control ≠ .exited → ∃ turn s', s.step turn = some s' := by
        intro c hpc hlt hQc hbusy hexited
        exact ih (s.count - c) (by omega) hlt hQc hbusy hexited rfl
      cases hcontrol : (s.procs p).control with
      | greet | loop =>
          rw [hcontrol] at hbusy
          exact absurd trivial hbusy
      | exited => exact absurd hcontrol hexited
      | forking | greeting | reply | returning =>
          refine ⟨⟨p, 0, []⟩, ?_⟩
          simp [State.step, hcontrol]
      | walk job tmp =>
          refine ⟨⟨p, 0, []⟩, ?_⟩
          cases tmp with
          | nil => simp [State.step, hcontrol]
          | cons c next =>
              simp only [State.step, hcontrol]
              split <;> simp
      | dying ending tmp =>
          refine ⟨⟨p, 0, []⟩, ?_⟩
          cases tmp with
          | nil => simp [State.step, hcontrol]
          | cons c next =>
              simp only [State.step, hcontrol]
              split
              · simp
              · split <;> simp
      | await job c next =>
          have hc := h.mem_of_pending hcontrol (by simp) List.mem_cons_self
          obtain ⟨hpos, hlt, hparent, hcp, hedge⟩ := h.child hp hc
          have hpc : p < c := hparent ▸ h.older c hpos hlt
          have hstance : Control.toward c (.await job c next) = .awaiting job := if_pos rfl
          rw [hcontrol, hstance] at hedge
          cases hedge with
          | commanded hloop hread hcommand =>
              refine ⟨⟨c, 0, []⟩, ?_⟩
              have hcmd : (s.links c).cmd ≠ [] := by
                obtain ⟨text, htext, -⟩ := hcommand
                simp [htext]
              simp [State.step, hloop, Nat.ne_of_gt hpos, hcmd]
          | working hworks =>
              apply hbelow c hpc hlt (hcall p job c next hQ hcontrol) hworks.not_rests
              intro hgone
              rw [hgone] at hworks
              exact hworks
          | answered _ _ hbytes =>
              refine ⟨⟨p, 0, []⟩, ?_⟩
              have hrep : (s.links c).rep ≠ [] := by
                rw [hbytes]
                exact Reply.bytes_ne_nil _
              simp [State.step, hcontrol, hrep]
          | fresh hstance | ready hstance | told hstance | closed hstance => simp at hstance
      | waiting ending next =>
          rcases hwait p ending next hQ hp hcontrol with hturn | ⟨c, hpc, hlt, hQc, hbusy, hexited⟩
          · exact hturn
          · exact hbelow c hpc hlt hQc hbusy hexited

end Services

end SystemsProgramming
