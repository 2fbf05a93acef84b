/-
What one turn can do, said once.  The moves of a process are the cases of every proof
about all turns.
-/
import SystemsProgramming.Services.Turns

namespace SystemsProgramming

namespace Services

namespace State

/-- If the turn writes a command or "dead" to a child, the child has read its greeting. -/
def Greeted (s : State) (turn : Turn) : Prop :=
  ∀ c, s.writesTo turn.pid = some c → (s.procs c).control ≠ .greet

theorem greeted_of_greet {s : State} {turn : Turn} (hgreet : (s.procs turn.pid).control = .greet) :
    s.Greeted turn := by
  intro c hwrites
  simp [writesTo, hgreet] at hwrites

end State

/-- A turn that is not blocked, and the state behind it. -/
inductive Move (s : State) (turn : Turn) : State → Prop
  | greet (hcontrol : (s.procs turn.pid).control = .greet)
      (hcmd : (s.links turn.pid).cmd ≠ []) :
      Move s turn ((s.setLink turn.pid (s.links turn.pid).take).setProc turn.pid
        ((s.procs turn.pid).goto .loop))
  | command {request : Request} {bufs : Buffers} {rest : List (Request × Buffers)}
      (hp : turn.pid = 0) (hcontrol : (s.procs 0).control = .loop)
      (hscript : s.script = (request, bufs) :: rest) :
      Move s turn
        { s.setProc 0 (State.obey ((s.procs 0).load bufs) request) with script := rest }
  | receive (hpos : 0 < turn.pid) (hcontrol : (s.procs turn.pid).control = .loop)
      (hcmd : (s.links turn.pid).cmd ≠ []) :
      Move s turn ((s.setLink turn.pid (s.links turn.pid).take).setProc turn.pid
        ((s.procs turn.pid).receive ((s.links turn.pid).cmd.take 512)))
  | fork {child : List Char} (hcontrol : (s.procs turn.pid).control = .forking child) :
      Move s turn (s.fork turn.pid child turn.junk)
  | greeting {child : Nat} (hcontrol : (s.procs turn.pid).control = .greeting child) :
      Move s turn ((s.setLink child ((s.links child).post
        ((s.procs turn.pid).name ++ [nul]))).setProc turn.pid
        ((s.procs turn.pid).goto (if turn.pid = 0 then .loop else .reply .yes)))
  | walkEnd {job : Job} (hcontrol : (s.procs turn.pid).control = .walk job []) :
      Move s turn (s.setProc turn.pid ((s.procs turn.pid).goto (State.notFound turn.pid)))
  | walkSkip {job : Job} {c : Nat} {next : List Nat}
      (hcontrol : (s.procs turn.pid).control = .walk job (c :: next))
      (hmark : (s.links c).haveKilled = true) :
      Move s turn (s.setProc turn.pid ((s.procs turn.pid).goto (.walk job next)))
  | walkSend {job : Job} {c : Nat} {next : List Nat}
      (hcontrol : (s.procs turn.pid).control = .walk job (c :: next))
      (hunmarked : (s.links c).haveKilled = false) :
      Move s turn ((s.setLink c ((s.links c).post
        (State.outgoing turn.pid (s.procs turn.pid) job))).setProc turn.pid
        ((s.procs turn.pid).goto (.await job c next)))
  | hear {job : Job} {c : Nat} {next : List Nat}
      (hcontrol : (s.procs turn.pid).control = .await job c next)
      (hrep : (s.links c).rep ≠ []) : Move s turn (s.hear turn.pid job c next)
  | answer {message : Reply} (hcontrol : (s.procs turn.pid).control = .reply message) :
      Move s turn ((s.setLink turn.pid ((s.links turn.pid).answer message)).setProc turn.pid
        ((s.procs turn.pid).goto (if message = .yesn then .returning else .loop)))
  | dyingEnd {ending : Ending} (hcontrol : (s.procs turn.pid).control = .dying ending []) :
      Move s turn (s.setProc turn.pid ((s.procs turn.pid).goto ending.last))
  | dyingSkip {ending : Ending} {c : Nat} {next : List Nat}
      (hcontrol : (s.procs turn.pid).control = .dying ending (c :: next)) (hp : turn.pid = 0)
      (hmark : (s.links c).haveKilled = true) :
      Move s turn (s.setProc turn.pid ((s.procs turn.pid).goto (.dying ending next)))
  | tell {ending : Ending} {c c' : Nat} {next : List Nat}
      (hcontrol : (s.procs turn.pid).control = .dying ending (c :: next))
      (hskip : ¬ (turn.pid = 0 ∧ (s.links c).haveKilled = true))
      (hholder : s.holder turn.pid c = some c') :
      Move s turn ((s.setLink c' ((s.links c').post deadText).close).setProc turn.pid
        ((s.procs turn.pid).goto (.waiting ending next)))
  | tellNobody {ending : Ending} {c : Nat} {next : List Nat}
      (hcontrol : (s.procs turn.pid).control = .dying ending (c :: next))
      (hskip : ¬ (turn.pid = 0 ∧ (s.links c).haveKilled = true))
      (hholder : s.holder turn.pid c = none) :
      Move s turn (s.setProc turn.pid ((s.procs turn.pid).goto (.waiting ending next)))
  | reap {ending : Ending} {next : List Nat}
      (hcontrol : (s.procs turn.pid).control = .waiting ending next)
      (hchild : turn.zombie ∈ (s.procs turn.pid).children)
      (hexited : (s.procs turn.zombie).control = .exited)
      (hunreaped : (s.links turn.zombie).reaped = false) :
      Move s turn ((s.setLink turn.zombie (s.links turn.zombie).reap).setProc turn.pid
        ((s.procs turn.pid).goto (.dying ending next)))
  | waitNobody {ending : Ending} {next : List Nat}
      (hcontrol : (s.procs turn.pid).control = .waiting ending next)
      (hreaped : ∀ c ∈ (s.procs turn.pid).children, (s.links c).reaped = true) :
      Move s turn (s.setProc turn.pid ((s.procs turn.pid).goto (.dying ending next)))
  | exit (hcontrol : (s.procs turn.pid).control = .returning) :
      Move s turn (s.setProc turn.pid ((s.procs turn.pid).goto .exited))

variable {s s' : State} {turn : Turn} {k : Control} {p c : Nat}

theorem Move.not_exited (hmove : Move s turn s') : (s.procs turn.pid).control ≠ .exited := by
  cases hmove with
  | command hp hcontrol _ => simp [hp, hcontrol]
  | greet hcontrol | receive _ hcontrol | fork hcontrol | greeting hcontrol | walkEnd hcontrol
  | walkSkip hcontrol | walkSend hcontrol | hear hcontrol | answer hcontrol | dyingEnd hcontrol
  | dyingSkip hcontrol | tell hcontrol | tellNobody hcontrol | reap hcontrol
  | waitNobody hcontrol | exit hcontrol => simp [hcontrol]

theorem Move.of_wait {ending : Ending} {next : List Nat}
    (hcontrol : (s.procs turn.pid).control = .waiting ending next)
    (hstep : s.wait turn.pid ending next turn.zombie = some s') : Move s turn s' := by
  unfold State.wait at hstep
  dsimp only at hstep
  split at hstep
  · rename_i hzombie
    obtain rfl := Option.some.inj hstep
    exact .reap hcontrol hzombie.1 hzombie.2.1 hzombie.2.2
  · split at hstep
    · rename_i hall
      obtain rfl := Option.some.inj hstep
      exact .waitNobody hcontrol (List.all_eq_true.mp hall)
    · cases hstep

theorem Move.of_step (hstep : s.step turn = some s') : Move s turn s' := by
  unfold State.step at hstep
  dsimp only at hstep
  cases hcontrol : (s.procs turn.pid).control with
  | greet =>
      simp only [hcontrol] at hstep
      split at hstep
      · cases hstep
      · obtain rfl := Option.some.inj hstep
        exact .greet hcontrol (by assumption)
  | loop =>
      simp only [hcontrol] at hstep
      split at hstep
      · rename_i hp
        obtain ⟨request, bufs, rest, hscript, rfl⟩ := State.nextCommand_cases hstep
        exact .command hp (hp ▸ hcontrol) hscript
      · split at hstep
        · cases hstep
        · obtain rfl := Option.some.inj hstep
          exact .receive (by omega) hcontrol (by assumption)
  | forking child =>
      simp only [hcontrol, Option.some.injEq] at hstep
      obtain rfl := hstep
      exact .fork hcontrol
  | greeting child =>
      simp only [hcontrol, Option.some.injEq] at hstep
      obtain rfl := hstep
      exact .greeting hcontrol
  | walk job tmp =>
      cases tmp with
      | nil =>
          simp only [hcontrol, Option.some.injEq] at hstep
          obtain rfl := hstep
          exact .walkEnd hcontrol
      | cons c next =>
          simp only [hcontrol] at hstep
          split at hstep
          · obtain rfl := Option.some.inj hstep
            exact .walkSkip hcontrol (by assumption)
          · rename_i hunmarked
            obtain rfl := Option.some.inj hstep
            exact .walkSend hcontrol (by simpa using hunmarked)
  | await job c next =>
      simp only [hcontrol] at hstep
      split at hstep
      · cases hstep
      · obtain rfl := Option.some.inj hstep
        exact .hear hcontrol (by assumption)
  | reply message =>
      simp only [hcontrol, Option.some.injEq] at hstep
      obtain rfl := hstep
      exact .answer hcontrol
  | dying ending tmp =>
      cases tmp with
      | nil =>
          simp only [hcontrol, Option.some.injEq] at hstep
          obtain rfl := hstep
          exact .dyingEnd hcontrol
      | cons c next =>
          simp only [hcontrol] at hstep
          split at hstep
          · rename_i hskip
            obtain rfl := Option.some.inj hstep
            exact .dyingSkip hcontrol hskip.1 hskip.2
          · rename_i hskip
            split at hstep
            · rename_i hholder
              obtain rfl := Option.some.inj hstep
              exact .tell hcontrol hskip hholder
            · rename_i hholder
              obtain rfl := Option.some.inj hstep
              exact .tellNobody hcontrol hskip hholder
  | waiting ending next =>
      simp only [hcontrol] at hstep
      exact .of_wait hcontrol hstep
  | returning =>
      simp only [hcontrol, Option.some.injEq] at hstep
      obtain rfl := hstep
      exact .exit hcontrol
  | exited =>
      simp only [hcontrol] at hstep
      cases hstep

/-- Every turn that does not write to a service before its first `read` keeps the
processes in step. -/
theorem Inv.move_kept (h : Inv s) (hok : s.Greeted turn) (hmove : Move s turn s') : Inv s' := by
  unfold State.Greeted State.writesTo at hok
  cases hmove with
  | greet hcontrol hcmd => exact h.greet hcontrol hcmd
  | command _ hcontrol hscript =>
      apply h.nextCommand hcontrol
      rw [State.nextCommand, hscript]
  | receive hpos hcontrol hcmd => exact h.receive hpos hcontrol hcmd
  | fork hcontrol => exact h.fork hcontrol
  | greeting hcontrol => exact h.greeting hcontrol
  | walkEnd hcontrol => exact h.walkEnd hcontrol
  | walkSkip hcontrol _ => exact h.walkSkip hcontrol
  | @walkSend _ c _ hcontrol hunmarked =>
      simp only [hcontrol] at hok
      exact h.walkSend hcontrol hunmarked (hok c (if_neg (by simp [hunmarked])))
  | hear hcontrol hrep => exact h.hear hcontrol hrep
  | answer hcontrol => exact h.answer hcontrol
  | dyingEnd hcontrol => exact h.dyingEnd hcontrol
  | @dyingSkip _ c next hcontrol _ _ =>
      have hk : Ends _ (c :: next) (s.procs turn.pid).control := .inl hcontrol
      exact hk.move h (.inl rfl) (List.subset_cons_self c next)
  | @tell _ c c' next hcontrol hskip hholder =>
      have hk : Ends _ (c :: next) (s.procs turn.pid).control := .inl hcontrol
      simp only [hcontrol, if_neg hskip] at hok
      have hp := h.lt_count (p := turn.pid) (by simp [hcontrol])
      have hc : c ∈ (s.procs turn.pid).children := by
        apply (h.own _ hp).pending
        rw [hcontrol]
        exact List.mem_cons_self
      obtain ⟨hc', hopen⟩ := holder_mem hc hholder
      apply hk.touch h (.inr rfl) (List.subset_cons_self c next) hc'
      intro hedge
      exact hedge.tell hopen (hok c' hholder)
  | @tellNobody _ c next hcontrol _ _ =>
      have hk : Ends _ (c :: next) (s.procs turn.pid).control := .inl hcontrol
      exact hk.move h (.inr rfl) (List.subset_cons_self c next)
  | @reap _ next hcontrol hchild _ _ =>
      have hk : Ends _ next (s.procs turn.pid).control := .inr hcontrol
      exact hk.touch h (.inl rfl) (List.Subset.refl next) hchild Edge.reap
  | @waitNobody _ next hcontrol _ =>
      have hk : Ends _ next (s.procs turn.pid).control := .inr hcontrol
      exact hk.move h (.inl rfl) (List.Subset.refl next)
  | exit hcontrol => exact h.exit hcontrol

/-- The fields of a link that only the parent writes. -/
structure Link.SameHold (L L' : Link) : Prop where
  haveKilled : L.haveKilled = L'.haveKilled
  isOpen : L.isOpen = L'.isOpen
  reaped : L.reaped = L'.reaped
  sent : L.sent = L'.sent

/-- What a parent does to a link it does for good. -/
structure Link.Holds (L L' : Link) : Prop where
  unmarked : L'.haveKilled = false → L.haveKilled = false
  isOpen : L'.isOpen = true → L.isOpen = true

theorem Link.Holds.refl (L : Link) : L.Holds L := ⟨id, id⟩

theorem Link.SameHold.refl (L : Link) : L.SameHold L := ⟨rfl, rfl, rfl, rfl⟩

namespace Inv

theorem mem_of_pending (h : Inv s) (hcontrol : (s.procs p).control = k) (hbusy : k ≠ .exited)
    (hc : c ∈ k.pending) : c ∈ (s.procs p).children := by
  subst hcontrol
  exact (h.own p (h.lt_count hbusy)).pending c hc

/-- A child with its parent and its link. -/
theorem child (h : Inv s) (hp : p < s.count) (hc : c ∈ (s.procs p).children) :
    0 < c ∧ c < s.count ∧ (s.procs c).parent = p ∧ c ≠ p ∧
      Edge (s.hello c) (s.procs c).control (s.links c) ((s.procs p).control.toward c) := by
  obtain ⟨hpos, hlt, hparent⟩ := h.family p hp c hc
  have holder := h.older c hpos hlt
  have hedge := h.edge c hpos hlt
  rw [State.stance, hparent] at hedge
  exact ⟨hpos, hlt, hparent, by omega, hedge⟩

end Inv

/-- Only `p` moves, and what the parents of other processes write to their links stays; no
mark is taken back, and no pipe is opened again. -/
structure Frame (s : State) (p : Nat) (s' : State) : Prop where
  count_le : s.count ≤ s'.count
  procs : ∀ q, q ≠ p → q < s.count → s'.procs q = s.procs q
  born : ∀ q, q ≠ p → s.count ≤ q → s'.procs q = s.procs q ∨ (s'.procs q).children = []
  fresh : ∀ q, s.count ≤ q → q < s'.count →
    (s'.procs q).control = .greet ∧ (s'.procs q).children = []
  links : ∀ d, d < s.count → (s.procs d).parent ≠ p → (s'.links d).SameHold (s.links d)
  hold : ∀ d, d < s.count → (s.links d).Holds (s'.links d)

theorem Frame.of_proc (s : State) (p : Nat) (P : Proc) (script : List (Request × Buffers)) :
    Frame s p { s.setProc p P with script := script } where
  count_le := Nat.le_refl _
  procs _ hq _ := Function.update_of_ne hq _ _
  born _ hq _ := .inl (Function.update_of_ne hq _ _)
  fresh _ hle hlt := absurd hle (Nat.not_le_of_lt hlt)
  links _ _ _ := .refl _
  hold _ _ := .refl _

theorem Frame.of_link (s : State) {p d : Nat} {L : Link} (P : Proc)
    (hd : d = p ∧ L.SameHold (s.links d) ∨ (s.procs d).parent = p)
    (hhold : (s.links d).Holds L) : Frame s p ((s.setLink d L).setProc p P) where
  count_le := Nat.le_refl _
  procs _ hq _ := Function.update_of_ne hq _ _
  born _ hq _ := .inl (Function.update_of_ne hq _ _)
  fresh _ hle hlt := absurd hle (Nat.not_le_of_lt hlt)
  links d' _ hparent := by
    by_cases heq : d' = d
    · subst heq
      have hsame := (hd.resolve_right hparent).2
      simpa [State.setProc] using hsame
    · have hother := State.links_setLink_of_ne heq s L
      change ((s.setLink d L).links d').SameHold _
      rw [hother]
      exact .refl _
  hold d' _ := by
    by_cases heq : d' = d
    · subst heq
      simpa [State.setProc] using hhold
    · have hother := State.links_setLink_of_ne heq s L
      change (s.links d').Holds ((s.setLink d L).links d')
      rw [hother]
      exact .refl _

theorem Frame.of_fork (s : State) (p : Nat) (child junk : List Char) :
    Frame s p (s.fork p child junk) where
  count_le := Nat.le_succ _
  procs q hq hlt := s.procs_fork_of_ne child junk (Nat.ne_of_lt hlt) hq
  born q hq _ := by
    by_cases hqc : q = s.count
    · right
      rw [hqc, s.procs_fork_born]
      rfl
    · exact .inl (s.procs_fork_of_ne child junk hqc hq)
  fresh q hle hlt := by
    obtain rfl : q = s.count := Nat.le_antisymm (Nat.lt_succ_iff.mp hlt) hle
    rw [s.procs_fork_born]
    exact ⟨rfl, rfl⟩
  links d hlt _ := by
    rw [s.links_fork_of_ne child junk (Nat.ne_of_lt hlt)]
    exact .refl _
  hold d hlt := by
    rw [s.links_fork_of_ne child junk (Nat.ne_of_lt hlt)]
    exact .refl _

theorem Move.frame (h : Inv s) (hmove : Move s turn s') : Frame s turn.pid s' := by
  have hp : turn.pid < s.count := h.lt_count hmove.not_exited
  have hparent : ∀ {c : Nat} {k : Control}, (s.procs turn.pid).control = k → k ≠ .exited →
      c ∈ k.pending → (s.procs c).parent = turn.pid := by
    intro c k hcontrol hbusy hc
    exact (h.child hp (h.mem_of_pending hcontrol hbusy hc)).2.2.1
  cases hmove with
  | greet | receive | answer =>
      exact .of_link s _ (.inl ⟨rfl, ⟨rfl, rfl, rfl, rfl⟩⟩) ⟨id, id⟩
  | command hpid _ _ =>
      rw [← hpid]
      exact .of_proc s _ _ _
  | fork => exact .of_fork s _ _ _
  | greeting hcontrol =>
      have hown := hparent hcontrol (by simp) (List.mem_singleton_self _)
      exact .of_link s _ (.inr hown) ⟨id, id⟩
  | walkEnd | walkSkip | dyingEnd | dyingSkip | tellNobody | waitNobody | exit =>
      exact .of_proc s _ _ _
  | walkSend hcontrol _ =>
      have hown := hparent hcontrol (by simp) List.mem_cons_self
      exact .of_link s _ (.inr hown) ⟨id, id⟩
  | hear hcontrol _ =>
      have hown := hparent hcontrol (by simp) List.mem_cons_self
      apply Frame.of_link s _ (.inr hown)
      constructor
      · intro hunmarked
        exact (Bool.or_eq_false_iff.mp hunmarked).1
      · intro hopen
        exact (Bool.and_eq_true_iff.mp hopen).1
  | tell hcontrol _ hholder =>
      have hc := h.mem_of_pending hcontrol (by simp) List.mem_cons_self
      have hown := (h.child hp (holder_mem hc hholder).1).2.2.1
      exact .of_link s _ (.inr hown) ⟨id, fun hopen => by cases hopen⟩
  | reap hcontrol hchild _ _ =>
      exact .of_link s _ (.inr (h.child hp hchild).2.2.1) ⟨id, id⟩

end Services

end SystemsProgramming
