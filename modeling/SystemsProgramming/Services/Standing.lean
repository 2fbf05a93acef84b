/-
Where the services stand.  A marked child stands still, a child that was told "dead" is on
its way out, and a process that writes "dead" waits once for each child that is due.
-/
import SystemsProgramming.Services.Errands

namespace SystemsProgramming

namespace Services

variable {s s' : State} {turn : Turn} {k k' : Control} {L L' : Link} {p c : Nat}

/-- What a link says about the service: a marked one stands still, one that was told has not
read it yet or is on its way out, and one that was waited for is gone. -/
structure Fate (k : Control) (L : Link) : Prop where
  marked : L.haveKilled = true → (k = .loop ∨ k.Gone) ∧ L.cmd = []
  told : L.isOpen = false → L.haveKilled = false → k = .loop ∧ L.cmd ≠ [] ∨ k.Parting
  reaped : L.reaped = true → k = .exited

namespace Fate

/-- A service at work that was not told "dead". -/
theorem kept (hfate : Fate k L) (hloop : k ≠ .loop) (hparting : ¬ k.Parting) :
    L.haveKilled = false ∧ L.isOpen = true ∧ L.reaped = false := by
  have hunmarked : L.haveKilled = false := by
    by_contra hmark
    rcases (hfate.marked (by simpa using hmark)).1 with h | hgone
    · exact hloop h
    · exact hparting hgone.parting
  refine ⟨hunmarked, ?_, ?_⟩
  · by_contra hclosed
    rcases hfate.told (by simpa using hclosed) hunmarked with ⟨h, -⟩ | h
    · exact hloop h
    · exact hparting h
  · by_contra hreaped
    have hexited := hfate.reaped (by simpa using hreaped)
    rw [hexited] at hparting
    exact hparting trivial

theorem of_kept (hkept : L.haveKilled = false ∧ L.isOpen = true ∧ L.reaped = false) :
    Fate k L := by
  constructor
  · simp [hkept.1]
  · simp [hkept.2.1]
  · simp [hkept.2.2]

/-- A step that leaves the link alone, of a service that is not at a `read`. -/
theorem internal (hfate : Fate k L) (hloop : k ≠ .loop) (hexited : k ≠ .exited)
    (hgone : k.Gone → k'.Gone) (hparting : k.Parting → k'.Parting) : Fate k' L where
  marked hmark := by
    obtain ⟨hstill, hempty⟩ := hfate.marked hmark
    exact ⟨.inr (hgone (hstill.resolve_left hloop)), hempty⟩
  told hclosed hunmarked := by
    rcases hfate.told hclosed hunmarked with ⟨h, -⟩ | h
    · exact absurd h hloop
    · exact .inr (hparting h)
  reaped hreaped := absurd (hfate.reaped hreaped) hexited

end Fate

def Fates (s : State) : Prop :=
  ∀ c, 0 < c → c < s.count → Fate (s.procs c).control (s.links c)

/-- A child whose link changes, and the process that changes it. -/
theorem Fates.update {d : Nat} {P : Proc} (hfates : Fates s) (hp : p < s.count)
    (hself : 0 < p → Fate (s.procs p).control (s.links p) →
      Fate P.control (if p = d then L else s.links p))
    (hlink : d ≠ p → 0 < d → d < s.count → Fate (s.procs d).control (s.links d) →
      Fate (s.procs d).control L) :
    Fates ((s.setLink d L).setProc p P) := by
  intro c hpos hlt
  have hfate := hfates c hpos hlt
  by_cases hcp : c = p
  · subst hcp
    have hself := hself hpos hfate
    by_cases hcd : c = d
    · subst hcd
      simpa [State.setProc, State.setLink] using hself
    · simpa [State.setProc, State.setLink, hcd] using hself
  · by_cases hcd : c = d
    · subst hcd
      have hlink := hlink hcp hpos hlt hfate
      simpa [State.setProc, State.setLink, hcp] using hlink
    · simpa [State.setProc, State.setLink, hcp, hcd] using hfate

/-- A step of a process that is not at a `read` and changes no link. -/
theorem Fates.move {P : Proc} (hfates : Fates s) (hcontrol : (s.procs p).control = k)
    (hp : p < s.count) (hloop : k ≠ .loop) (hexited : k ≠ .exited)
    (hgone : k.Gone → P.control.Gone) (hparting : k.Parting → P.control.Parting) :
    Fates (s.setProc p P) := by
  subst hcontrol
  have hself : s.setLink p (s.links p) = s := by simp [State.setLink]
  rw [← hself]
  apply hfates.update hp
  · intro _ hfate
    rw [if_pos rfl]
    exact hfate.internal hloop hexited hgone hparting
  · intro hne
    exact absurd rfl hne

/-- A step of a process that is not at a `read` and changes the link to a child. -/
theorem Fates.touch {P : Proc} (hfates : Fates s) (hcontrol : (s.procs p).control = k)
    (hp : p < s.count) (hcp : c ≠ p) (hloop : k ≠ .loop) (hexited : k ≠ .exited)
    (hgone : k.Gone → P.control.Gone) (hparting : k.Parting → P.control.Parting)
    (hchild : 0 < c → c < s.count → Fate (s.procs c).control (s.links c) →
      Fate (s.procs c).control L) : Fates ((s.setLink c L).setProc p P) := by
  subst hcontrol
  apply hfates.update hp
  · intro _ hfate
    rw [if_neg (Ne.symm hcp)]
    exact hfate.internal hloop hexited hgone hparting
  · intro _
    exact hchild

theorem Edge.answered_of_rep {hello : List Char} {job : Job}
    (hedge : Edge hello k L (.awaiting job)) (hrep : L.rep ≠ []) :
    ∃ message : Reply, k.Replied message ∧
      L.rep = message.bytes ∧ Link.Drained hello L ∧ L.Linked := by
  cases hedge with
  | answered hcontrol hread hbytes _ hlinked => exact ⟨_, hcontrol, hbytes, hread, hlinked⟩
  | commanded _ _ _ hempty | working _ _ hempty => exact absurd hempty hrep
  | fresh hstance | ready hstance | told hstance | closed hstance => simp at hstance

theorem parting_last {ending : Ending} {tmp : List Nat}
    (hparting : (Control.dying ending tmp).Parting) : ending.last.Parting := by
  cases ending with
  | target => exact hparting.elim
  | dead => exact hparting

theorem parting_ends {ending : Ending} {tmp next : List Nat} (hk : Ends ending tmp k)
    (hk' : Ends ending next k') (hparting : k.Parting) : k'.Parting := by
  cases ending with
  | target => rcases hk with rfl | rfl <;> exact hparting.elim
  | dead => rcases hk' with rfl | rfl <;> trivial

theorem Fates.move_kept (h : Inv s) (hfates : Fates s) (hok : s.Greeted turn)
    (hmove : Move s turn s') : Fates s' := by
  unfold State.Greeted State.writesTo at hok
  have hp : turn.pid < s.count := h.lt_count hmove.not_exited
  cases hmove with
  | greet hcontrol hcmd =>
      apply hfates.update hp
      · intro _ hfate
        rw [hcontrol] at hfate
        rw [if_pos rfl]
        exact .of_kept (hfate.kept (by simp) id)
      · intro hne
        exact absurd rfl hne
  | @command request bufs _ _ hcontrol hscript =>
      intro c hpos hlt
      have hsame :
          (s.setProc 0 (State.obey ((s.procs 0).load bufs) request)).procs c = s.procs c :=
        Function.update_of_ne (Nat.ne_of_gt hpos) _ _
      change Fate ((s.setProc 0 (State.obey ((s.procs 0).load bufs) request)).procs c).control
        (s.links c)
      rw [hsame]
      exact hfates c hpos hlt
  | receive hpos hcontrol hcmd =>
      apply hfates.update hp
      · intro _ hfate
        rw [hcontrol] at hfate
        rw [if_pos rfl]
        have hunmarked : (s.links turn.pid).haveKilled = false := by
          by_contra hmark
          exact hcmd (hfate.marked (by simpa using hmark)).2
        have hunreaped : (s.links turn.pid).reaped = false := by
          by_contra hreaped
          have := hfate.reaped (by simpa using hreaped)
          cases this
        rcases (h.edge _ hpos hp).commandless hcontrol hcmd with
          ⟨_, _, _, _, _, hlinked⟩ | ⟨_, _, hdead, _, _⟩
        · exact .of_kept ⟨hunmarked, hlinked.isOpen, hunreaped⟩
        · have hparting : ((s.procs turn.pid).receive
              ((s.links turn.pid).cmd.take 512)).control.Parting := by
            rw [hdead]
            exact ((h.own _ hp).receive_dead hpos).2
          constructor
          · intro hmark
            exact absurd (hunmarked.symm.trans hmark) (by simp)
          · intro _ _
            exact .inr hparting
          · intro hreaped
            exact absurd (hunreaped.symm.trans hreaped) (by simp)
      · intro hne
        exact absurd rfl hne
  | @fork child hcontrol =>
      intro c hpos hlt
      by_cases hcc : c = s.count
      · subst hcc
        rw [s.links_fork_born]
        exact .of_kept ⟨rfl, rfl, rfl⟩
      · have hlt : c < s.count := Nat.lt_of_le_of_ne (Nat.lt_succ_iff.mp hlt) hcc
        have hfate := hfates c hpos hlt
        rw [s.links_fork_of_ne _ _ hcc]
        by_cases hcp : c = turn.pid
        · subst hcp
          rw [hcontrol] at hfate
          rw [s.procs_fork_parent _ _ hcc]
          exact hfate.internal (by simp) (by simp) False.elim id
        · rw [s.procs_fork_of_ne _ _ hcc hcp]
          exact hfate
  | @greeting child hcontrol =>
      have hc := h.mem_of_pending hcontrol (by simp) (List.mem_singleton_self _)
      obtain ⟨_, _, _, hcp, hedge⟩ := h.child hp hc
      apply hfates.touch hcontrol hp hcp (by simp) (by simp) False.elim False.elim
      intro _ _ hfate
      rw [hcontrol] at hedge
      have hstance : Control.toward child (.greeting child) = .greeting := if_pos rfl
      rw [hstance] at hedge
      cases hedge with
      | forked hgreet =>
          rw [hgreet] at hfate ⊢
          exact .of_kept (hfate.kept (by simp) id)
      | fresh hstance | ready hstance | told hstance | closed hstance => simp at hstance
  | walkEnd hcontrol =>
      exact hfates.move hcontrol hp (by simp) (by simp) False.elim False.elim
  | walkSkip hcontrol _ =>
      exact hfates.move hcontrol hp (by simp) (by simp) False.elim False.elim
  | @walkSend _ c _ hcontrol hunmarked =>
      have hc := h.mem_of_pending hcontrol (by simp) List.mem_cons_self
      obtain ⟨_, _, _, hcp, hedge⟩ := h.child hp hc
      simp only [hcontrol] at hok hedge
      apply hfates.touch hcontrol hp hcp (by simp) (by simp) False.elim False.elim
      intro _ _ hfate
      have hopen := hedge.open_of_unmarked hunmarked
      obtain ⟨hloop, -⟩ := hedge.post (.inl rfl) hopen (hok c (if_neg (by simp [hunmarked])))
      have hunreaped : (s.links c).reaped = false := by
        by_contra hreaped
        have := hfate.reaped (by simpa using hreaped)
        simp [hloop] at this
      exact .of_kept ⟨hunmarked, hopen, hunreaped⟩
  | @hear job c next hcontrol hrep =>
      have hc := h.mem_of_pending hcontrol (by simp) List.mem_cons_self
      obtain ⟨_, _, _, hcp, hedge⟩ := h.child hp hc
      have hstance : Control.toward c (.await job c next) = .awaiting job := if_pos rfl
      rw [hcontrol, hstance] at hedge
      obtain ⟨message, hstill, -, hread, hlinked⟩ := hedge.answered_of_rep hrep
      apply hfates.touch hcontrol hp hcp (by simp) (by simp) False.elim False.elim
      intro _ _ hfate
      constructor
      · intro _
        exact ⟨hstill.loop_or_gone, hread.empty⟩
      · intro hclosed hunmarked
        simp only [Link.hear, hlinked.isOpen, hlinked.unmarked, Bool.true_and,
          Bool.false_or] at hclosed hunmarked
        simp [hunmarked] at hclosed
      · exact hfate.reaped
  | @answer message hcontrol =>
      apply hfates.update hp
      · intro _ hfate
        rw [hcontrol] at hfate
        rw [if_pos rfl]
        exact .of_kept (hfate.kept (by simp) id)
      · intro hne
        exact absurd rfl hne
  | dyingEnd hcontrol =>
      exact hfates.move hcontrol hp (by simp) (by simp) False.elim parting_last
  | @dyingSkip _ c next hcontrol _ _ =>
      exact hfates.move hcontrol hp (by simp) (by simp) False.elim
        (parting_ends (.inl rfl) (.inl rfl))
  | @tell ending c c' next hcontrol hskip hholder =>
      have hc := h.mem_of_pending hcontrol (by simp) List.mem_cons_self
      obtain ⟨hc', hopen⟩ := holder_mem hc hholder
      obtain ⟨_, _, _, hcp, hedge⟩ := h.child hp hc'
      simp only [hcontrol, if_neg hskip] at hok
      rw [hcontrol] at hedge
      obtain ⟨hloop, hread, -, hlinked⟩ := hedge.post (.inr rfl) hopen (hok c' hholder)
      apply hfates.touch hcontrol hp hcp (by simp) (by simp) False.elim
        (parting_ends (.inl rfl) (.inr rfl))
      intro _ _ hfate
      constructor
      · intro hmark
        exact absurd (hlinked.unmarked.symm.trans hmark) (by simp)
      · intro _ _
        left
        refine ⟨hloop, ?_⟩
        have hcmd : ((s.links c').post deadText).close.cmd = deadText := hread.cmd_post
        rw [hcmd]
        decide
      · exact hfate.reaped
  | tellNobody hcontrol _ _ =>
      exact hfates.move hcontrol hp (by simp) (by simp) False.elim
        (parting_ends (.inl rfl) (.inr rfl))
  | reap hcontrol hchild hexited _ =>
      obtain ⟨_, _, _, hcp, -⟩ := h.child hp hchild
      apply hfates.touch hcontrol hp hcp (by simp) (by simp) False.elim
        (parting_ends (.inr rfl) (.inl rfl))
      intro _ _ hfate
      exact ⟨hfate.marked, hfate.told, fun _ => hexited⟩
  | waitNobody hcontrol _ =>
      exact hfates.move hcontrol hp (by simp) (by simp) False.elim
        (parting_ends (.inr rfl) (.inl rfl))
  | exit hcontrol => exact hfates.move hcontrol hp (by simp) (by simp) id id

/-! The children that a process waits for. -/

theorem countP_update {l : List Nat} (hnodup : l.Nodup) (hc : c ∈ l) {f g : Nat → Bool}
    (hsame : ∀ d ∈ l, d ≠ c → g d = f d) (hf : f c = false) (hg : g c = true) :
    l.countP g = l.countP f + 1 := by
  induction l with
  | nil => cases hc
  | cons d l ih =>
      obtain ⟨hd, hnodup⟩ := List.nodup_cons.mp hnodup
      rw [List.countP_cons, List.countP_cons]
      by_cases hdc : d = c
      · subst hdc
        have htail : l.countP g = l.countP f := by
          apply List.countP_congr
          intro e he
          rw [hsame e (List.mem_cons_of_mem d he) (by rintro rfl; exact hd he)]
        rw [htail, hf, hg]
        simp
      · have hmem : c ∈ l := (List.mem_cons.mp hc).resolve_left (Ne.symm hdc)
        rw [ih hnodup hmem fun e he => hsame e (List.mem_cons_of_mem d he),
          hsame d List.mem_cons_self hdc]
        omega

theorem all_of_countP {l : List Nat} {f g : Nat → Bool}
    (hcount : l.countP (fun c => f c && g c) = l.countP f) : ∀ c ∈ l, f c = true → g c = true := by
  have hfilter : ((l.filter f).filter g).length = (l.filter f).length := by
    rw [List.filter_filter, ← List.countP_eq_length_filter, ← List.countP_eq_length_filter,
      ← hcount]
    simp only [Bool.and_comm]
  intro c hc hf
  exact List.length_filter_eq_length_iff.mp hfilter c (List.mem_filter.mpr ⟨hc, hf⟩)

/-- Whether a process that writes "dead" waits for this child. -/
def due (p : Nat) (L : Link) : Bool := p ≠ 0 || !L.haveKilled

namespace Control

/-- The places before the loop that writes "dead". -/
def Before : Control → Prop
  | dying _ _ | waiting _ _ | reply .yesn | returning | exited => False
  | _ => True

/-- The places behind it. -/
def Behind : Control → Prop
  | reply .yesn | returning | exited => True
  | _ => False

theorem Behind.not_before (hbehind : k.Behind) : ¬ k.Before := by
  cases k with
  | reply message => cases message <;> first | exact hbehind.elim | exact id
  | returning | exited => exact id
  | _ => exact hbehind.elim

end Control

namespace State

/-- How many of the children that are waited for a `wait` has returned. -/
def returned (s : State) (p : Nat) : Nat :=
  (s.procs p).children.countP fun c => due p (s.links c) && (s.links c).reaped

/-- Every `wait` has returned one of the children, and those passed in the loop were told. -/
structure Account (s : State) (p : Nat) : Prop where
  before : (s.procs p).control.Before →
    ∀ c ∈ (s.procs p).children, due p (s.links c) = true → (s.links c).reaped = false
  dying : ∀ ending tmp, (s.procs p).control = .dying ending tmp →
    ∃ done, (s.procs p).children = done ++ tmp ∧ (∀ c ∈ done, (s.links c).isOpen = false) ∧
      s.returned p = done.countP fun c => due p (s.links c)
  waiting : ∀ ending next, (s.procs p).control = .waiting ending next →
    ∃ done, (s.procs p).children = done ++ next ∧ (∀ c ∈ done, (s.links c).isOpen = false) ∧
      s.returned p + 1 = done.countP fun c => due p (s.links c)
  after : (s.procs p).control.Behind →
    ∀ c ∈ (s.procs p).children, due p (s.links c) = true → (s.links c).reaped = true

namespace Account

theorem of_before (hbefore : (s.procs p).control.Before)
    (hunreaped : ∀ c ∈ (s.procs p).children, due p (s.links c) = true →
      (s.links c).reaped = false) : s.Account p where
  before _ := hunreaped
  dying ending tmp hcontrol := by
    rw [hcontrol] at hbefore
    exact hbefore.elim
  waiting ending next hcontrol := by
    rw [hcontrol] at hbefore
    exact hbefore.elim
  after hbehind := absurd hbefore hbehind.not_before

theorem of_dying {ending : Ending} {done tmp : List Nat}
    (hcontrol : (s.procs p).control = .dying ending tmp)
    (hchildren : (s.procs p).children = done ++ tmp)
    (hclosed : ∀ c ∈ done, (s.links c).isOpen = false)
    (hreturned : s.returned p = done.countP fun c => due p (s.links c)) : s.Account p where
  before hbefore := by
    rw [hcontrol] at hbefore
    exact hbefore.elim
  dying ending' tmp' hcontrol' := by
    cases hcontrol.symm.trans hcontrol'
    exact ⟨done, hchildren, hclosed, hreturned⟩
  waiting ending' next hcontrol' := by
    cases hcontrol.symm.trans hcontrol'
  after hbehind := by
    rw [hcontrol] at hbehind
    exact hbehind.elim

theorem of_waiting {ending : Ending} {done next : List Nat}
    (hcontrol : (s.procs p).control = .waiting ending next)
    (hchildren : (s.procs p).children = done ++ next)
    (hclosed : ∀ c ∈ done, (s.links c).isOpen = false)
    (hreturned : s.returned p + 1 = done.countP fun c => due p (s.links c)) : s.Account p where
  before hbefore := by
    rw [hcontrol] at hbefore
    exact hbefore.elim
  dying ending' tmp' hcontrol' := by
    cases hcontrol.symm.trans hcontrol'
  waiting ending' next' hcontrol' := by
    cases hcontrol.symm.trans hcontrol'
    exact ⟨done, hchildren, hclosed, hreturned⟩
  after hbehind := by
    rw [hcontrol] at hbehind
    exact hbehind.elim

theorem of_after (hbehind : (s.procs p).control.Behind)
    (hreaped : ∀ c ∈ (s.procs p).children, due p (s.links c) = true →
      (s.links c).reaped = true) : s.Account p where
  before hbefore := absurd hbefore hbehind.not_before
  dying ending tmp hcontrol := by
    rw [hcontrol] at hbehind
    exact hbehind.elim
  waiting ending next hcontrol := by
    rw [hcontrol] at hbehind
    exact hbehind.elim
  after _ := hreaped

/-- A process that does not move, and whose parts of the links stay. -/
theorem congr (haccount : s.Account p) (hprocs : s'.procs p = s.procs p)
    (hlinks : ∀ c ∈ (s.procs p).children, (s'.links c).SameHold (s.links c)) : s'.Account p := by
  have hdue : ∀ c ∈ (s.procs p).children, due p (s'.links c) = due p (s.links c) := by
    intro c hc
    unfold due
    rw [(hlinks c hc).haveKilled]
  have hreturned : s'.returned p = s.returned p := by
    unfold returned
    rw [hprocs]
    apply List.countP_congr
    intro c hc
    rw [hdue c hc, (hlinks c hc).reaped]
  have hpart : ∀ done tmp, (s.procs p).children = done ++ tmp →
      (∀ c ∈ done, (s.links c).isOpen = false) → (∀ c ∈ done, (s'.links c).isOpen = false) ∧
        (done.countP fun c => due p (s'.links c)) = done.countP fun c => due p (s.links c) := by
    intro done tmp hchildren hclosed
    have hmem : ∀ c ∈ done, c ∈ (s.procs p).children := by
      intro c hc
      rw [hchildren]
      exact List.mem_append_left tmp hc
    constructor
    · intro c hc
      rw [(hlinks c (hmem c hc)).isOpen]
      exact hclosed c hc
    · apply List.countP_congr
      intro c hc
      rw [hdue c (hmem c hc)]
  constructor
  · rw [hprocs]
    intro hbefore c hc hd
    rw [(hlinks c hc).reaped]
    rw [hdue c hc] at hd
    exact haccount.before hbefore c hc hd
  · rw [hprocs]
    intro ending tmp hcontrol
    obtain ⟨done, hchildren, hclosed, hcount⟩ := haccount.dying ending tmp hcontrol
    obtain ⟨hclosed', hcount'⟩ := hpart done tmp hchildren hclosed
    exact ⟨done, hchildren, hclosed', by rw [hreturned, hcount', hcount]⟩
  · rw [hprocs]
    intro ending next hcontrol
    obtain ⟨done, hchildren, hclosed, hcount⟩ := haccount.waiting ending next hcontrol
    obtain ⟨hclosed', hcount'⟩ := hpart done next hchildren hclosed
    exact ⟨done, hchildren, hclosed', by rw [hreturned, hcount', hcount]⟩
  · rw [hprocs]
    intro hafter c hc hd
    rw [(hlinks c hc).reaped]
    rw [hdue c hc] at hd
    exact haccount.after hafter c hc hd

variable {d : Nat} {P : Proc}

theorem due_mono (hhold : L.Holds L') (hdue : due p L' = true) : due p L = true := by
  unfold due at *
  by_cases hp : p = 0
  · simp only [hp, ne_eq, not_true_eq_false, decide_false, Bool.false_or,
      Bool.not_eq_true'] at hdue ⊢
    exact hhold.unmarked hdue
  · simp [hp]

theorem due_of_ne (hp : p ≠ 0) (L : Link) : due p L = true := by
  simp [due, hp]

/-- A step before the loop, and the one that leads to it. -/
theorem open_touch (haccount : s.Account p) (hbefore : (s.procs p).control.Before)
    (hnext : P.control.Before ∨ ∃ ending, P.control = .dying ending P.children)
    (hchildren : P.children = (s.procs p).children) (hreaped : L.reaped = (s.links d).reaped)
    (hhold : (s.links d).Holds L) : ((s.setLink d L).setProc p P).Account p := by
  have hprocs : ((s.setLink d L).setProc p P).procs p = P := Function.update_self _ _ _
  have hunreaped : ∀ c ∈ P.children, due p (((s.setLink d L).setProc p P).links c) = true →
      (((s.setLink d L).setProc p P).links c).reaped = false := by
    intro c hc hdue
    rw [hchildren] at hc
    change due p ((s.setLink d L).links c) = true at hdue
    change ((s.setLink d L).links c).reaped = false
    by_cases hcd : c = d
    · subst hcd
      rw [State.links_setLink_self] at hdue ⊢
      rw [hreaped]
      exact haccount.before hbefore c hc (due_mono hhold hdue)
    · rw [State.links_setLink_of_ne hcd] at hdue ⊢
      exact haccount.before hbefore c hc hdue
  rcases hnext with hbefore' | ⟨ending, hdying⟩
  · apply of_before
    · rwa [hprocs]
    · rwa [hprocs]
  · have hcontrol : (((s.setLink d L).setProc p P).procs p).control = .dying ending P.children := by
      rw [hprocs, hdying]
    have hsplit : (((s.setLink d L).setProc p P).procs p).children = [] ++ P.children := by
      rw [hprocs, List.nil_append]
    apply of_dying hcontrol hsplit
    · simp
    · rw [List.countP_nil, returned, hprocs, List.countP_eq_zero]
      intro c hc
      by_cases hdue : due p (((s.setLink d L).setProc p P).links c) = true
      · simp [hunreaped c hc hdue]
      · simp [hdue]

theorem open_move (haccount : s.Account p) (hbefore : (s.procs p).control.Before)
    (hnext : P.control.Before ∨ ∃ ending, P.control = .dying ending P.children)
    (hchildren : P.children = (s.procs p).children) : (s.setProc p P).Account p := by
  have hself : s.setLink p (s.links p) = s := by simp [setLink]
  rw [← hself]
  exact haccount.open_touch hbefore hnext hchildren rfl (.refl _)

/-- A step of the loop that passes one child. -/
theorem pass {ending : Ending} {next : List Nat} (haccount : s.Account p)
    (hcontrol : (s.procs p).control = .dying ending (c :: next))
    (hlinks : ∀ c, (s'.links c).haveKilled = (s.links c).haveKilled ∧
      (s'.links c).reaped = (s.links c).reaped ∧
      ((s'.links c).isOpen = true → (s.links c).isOpen = true))
    (hclosed : (s'.links c).isOpen = false)
    (hchildren : (s'.procs p).children = (s.procs p).children) :
    ∃ done, (s'.procs p).children = done ++ next ∧ (∀ c ∈ done, (s'.links c).isOpen = false) ∧
      s'.returned p + (if due p (s.links c) then 1 else 0) =
        done.countP fun c => due p (s'.links c) := by
  obtain ⟨done, hsplit, hdone, hcount⟩ := haccount.dying ending (c :: next) hcontrol
  have hdue : ∀ c, due p (s'.links c) = due p (s.links c) := by
    intro c
    unfold due
    rw [(hlinks c).1]
  have hreturned : s'.returned p = s.returned p := by
    unfold returned
    rw [hchildren]
    apply List.countP_congr
    intro c _
    rw [hdue, (hlinks c).2.1]
  refine ⟨done ++ [c], by rw [hchildren, hsplit]; simp, ?_, ?_⟩
  · intro c' hc'
    rcases List.mem_append.mp hc' with hc' | hc'
    · have hold := hdone c' hc'
      by_contra hopen
      have hopen' := (hlinks c').2.2 (by simpa using hopen)
      simp [hold] at hopen'
    · rw [List.mem_singleton.mp hc']
      exact hclosed
  · rw [hreturned, hcount, List.countP_append, List.countP_singleton]
    simp only [hdue]

theorem skip {ending : Ending} {next : List Nat} (haccount : s.Account 0)
    (hcontrol : (s.procs 0).control = .dying ending (c :: next))
    (hmark : (s.links c).haveKilled = true) (hclosed : (s.links c).isOpen = false) :
    (s.setProc 0 ((s.procs 0).goto (.dying ending next))).Account 0 := by
  have hprocs : (s.setProc 0 ((s.procs 0).goto (.dying ending next))).procs 0 =
      (s.procs 0).goto (.dying ending next) := by simp [setProc]
  have hcontrol' : ((s.setProc 0 ((s.procs 0).goto (.dying ending next))).procs 0).control =
      .dying ending next := by
    rw [hprocs]
    rfl
  have hlinks : ∀ c, ((s.setProc 0 ((s.procs 0).goto (.dying ending next))).links c).haveKilled =
      (s.links c).haveKilled ∧
      ((s.setProc 0 ((s.procs 0).goto (.dying ending next))).links c).reaped = (s.links c).reaped ∧
      (((s.setProc 0 ((s.procs 0).goto (.dying ending next))).links c).isOpen = true →
        (s.links c).isOpen = true) := fun _ => ⟨rfl, rfl, id⟩
  obtain ⟨done, hsplit, hdone, hcount⟩ := haccount.pass
    hcontrol hlinks hclosed (by rw [hprocs]; rfl)
  apply of_dying hcontrol' hsplit hdone
  simpa [due, hmark] using hcount

theorem told {ending : Ending} {next : List Nat} (haccount : s.Account p)
    (hcontrol : (s.procs p).control = .dying ending (c :: next))
    (hdue : due p (s.links c) = true)
    (hlinks : L.haveKilled = (s.links d).haveKilled ∧ L.reaped = (s.links d).reaped ∧
      (L.isOpen = true → (s.links d).isOpen = true))
    (hclosed : ((s.setLink d L).links c).isOpen = false) :
    ((s.setLink d L).setProc p ((s.procs p).goto (.waiting ending next))).Account p := by
  have hprocs : ((s.setLink d L).setProc p ((s.procs p).goto (.waiting ending next))).procs p =
      (s.procs p).goto (.waiting ending next) := Function.update_self _ _ _
  have hcontrol' : (((s.setLink d L).setProc p ((s.procs p).goto (.waiting ending next))).procs
      p).control = .waiting ending next := by
    rw [hprocs]
    rfl
  have hlinks' : ∀ c, (((s.setLink d L).setProc p ((s.procs p).goto (.waiting ending next))).links
        c).haveKilled = (s.links c).haveKilled ∧
      (((s.setLink d L).setProc p ((s.procs p).goto (.waiting ending next))).links c).reaped =
        (s.links c).reaped ∧
      ((((s.setLink d L).setProc p ((s.procs p).goto (.waiting ending next))).links c).isOpen =
        true → (s.links c).isOpen = true) := by
    intro c
    change ((s.setLink d L).links c).haveKilled = _ ∧ ((s.setLink d L).links c).reaped = _ ∧
      (((s.setLink d L).links c).isOpen = true → _)
    by_cases hc : c = d
    · subst hc
      rw [State.links_setLink_self]
      exact hlinks
    · rw [State.links_setLink_of_ne hc]
      exact ⟨rfl, rfl, id⟩
  obtain ⟨done, hsplit, hdone, hcount⟩ :=
    haccount.pass hcontrol hlinks' hclosed (by rw [hprocs]; rfl)
  apply of_waiting hcontrol' hsplit hdone
  rwa [if_pos hdue] at hcount

/-- The end of the loop: each `wait` has returned another child. -/
theorem last {ending : Ending} (haccount : s.Account p)
    (hcontrol : (s.procs p).control = .dying ending []) :
    ∀ c ∈ (s.procs p).children, due p (s.links c) = true → (s.links c).reaped = true := by
  obtain ⟨done, hsplit, -, hcount⟩ := haccount.dying ending [] hcontrol
  rw [List.append_nil] at hsplit
  rw [← hsplit] at hcount
  exact all_of_countP hcount

theorem reap {ending : Ending} {next : List Nat} (haccount : s.Account p)
    (hnodup : (s.procs p).children.Nodup)
    (hcontrol : (s.procs p).control = .waiting ending next) (hc : c ∈ (s.procs p).children)
    (hdue : due p (s.links c) = true) (hunreaped : (s.links c).reaped = false) :
    ((s.setLink c (s.links c).reap).setProc p
      ((s.procs p).goto (.dying ending next))).Account p := by
  obtain ⟨done, hsplit, hdone, hcount⟩ := haccount.waiting ending next hcontrol
  have hprocs : ((s.setLink c (s.links c).reap).setProc p
      ((s.procs p).goto (.dying ending next))).procs p = (s.procs p).goto (.dying ending next) :=
    Function.update_self _ _ _
  have hlinks : ∀ e, (((s.setLink c (s.links c).reap).setProc p
      ((s.procs p).goto (.dying ending next))).links e).isOpen = (s.links e).isOpen ∧
      due p (((s.setLink c (s.links c).reap).setProc p
        ((s.procs p).goto (.dying ending next))).links e) = due p (s.links e) := by
    intro e
    change ((s.setLink c (s.links c).reap).links e).isOpen = _ ∧
      due p ((s.setLink c (s.links c).reap).links e) = _
    by_cases he : e = c
    · subst he
      rw [State.links_setLink_self]
      exact ⟨rfl, rfl⟩
    · rw [State.links_setLink_of_ne he]
      exact ⟨rfl, rfl⟩
  have hcontrol' : (((s.setLink c (s.links c).reap).setProc p
      ((s.procs p).goto (.dying ending next))).procs p).control = .dying ending next := by
    rw [hprocs]
    rfl
  have hsplit' : (((s.setLink c (s.links c).reap).setProc p
      ((s.procs p).goto (.dying ending next))).procs p).children = done ++ next := by
    rw [hprocs]
    exact hsplit
  apply of_dying hcontrol' hsplit'
  · intro e he
    rw [(hlinks e).1]
    exact hdone e he
  · simp only [(hlinks _).2]
    rw [← hcount]
    unfold returned
    rw [hprocs]
    apply countP_update hnodup hc
    · intro e _ he
      rw [(hlinks e).2]
      change (_ && ((s.setLink c (s.links c).reap).links e).reaped) = _
      rw [State.links_setLink_of_ne he]
    · simp [hunreaped]
    · rw [(hlinks c).2, hdue]
      change (true && ((s.setLink c (s.links c).reap).links c).reaped) = true
      rw [State.links_setLink_self]
      rfl

/-- A process that waits has a child to wait for, which it has told or marked. -/
theorem exists_due {ending : Ending} {next : List Nat} (haccount : s.Account p)
    (hcontrol : (s.procs p).control = .waiting ending next) :
    ∃ c ∈ (s.procs p).children, due p (s.links c) = true ∧ (s.links c).isOpen = false ∧
      (s.links c).reaped = false := by
  obtain ⟨done, hsplit, hdone, hcount⟩ := haccount.waiting ending next hcontrol
  by_contra hnone
  have hreaped : ∀ c ∈ done, due p (s.links c) = true → (s.links c).reaped = true := by
    intro c hc hdue
    by_contra hunreaped
    refine hnone ⟨c, ?_, hdue, hdone c hc, by simpa using hunreaped⟩
    rw [hsplit]
    exact List.mem_append_left next hc
  have hsame : (done.countP fun c => due p (s.links c) && (s.links c).reaped) =
      done.countP fun c => due p (s.links c) := by
    apply List.countP_congr
    intro c hc
    rw [Bool.and_eq_true]
    exact ⟨And.left, fun hdue => ⟨hdue, hreaped c hc hdue⟩⟩
  have hle : (done.countP fun c => due p (s.links c) && (s.links c).reaped) ≤ s.returned p := by
    unfold returned
    rw [hsplit, List.countP_append]
    exact Nat.le_add_right _ _
  omega

end Account

end State

def Accounts (s : State) : Prop :=
  ∀ p, p < s.count → s.Account p

theorem before_dispatch (P : Proc) (text : List Char) :
    (P.dispatch text).Before ∨ ∃ ending, P.dispatch text = .dying ending P.children := by
  rcases P.dispatch_cases text with hk | ⟨job, hk⟩ | hdying | hk | hk
  · rw [hk]
    exact .inl trivial
  · rw [hk]
    exact .inl trivial
  · exact .inr hdying
  · rw [hk]
    exact .inl trivial
  · rw [hk]
    exact .inl trivial

theorem before_obey (P : Proc) (request : Request) :
    (State.obey P request).control.Before ∨
      ∃ ending, (State.obey P request).control = .dying ending (State.obey P request).children := by
  rcases State.obey_control P request with ⟨child, hk⟩ | hk | ⟨job, hk⟩
  · rw [hk]
    exact .inl trivial
  · rw [(State.obey_same P request).children]
    exact .inr ⟨.dead, hk⟩
  · rw [hk]
    exact .inl trivial

/-- A marked child is closed. -/
theorem Edge.closed_of_marked {hello : List Char} {stance : Stance}
    (hedge : Edge hello k L stance) (hmark : L.haveKilled = true) : L.isOpen = false := by
  have hlinked : ¬ L.Linked := by
    intro h
    simp [h.unmarked] at hmark
  cases hedge with
  | forked _ _ _ _ _ h | fresh _ _ _ _ _ _ h | ready _ _ _ _ h | commanded _ _ _ _ h
  | working _ _ _ h | answered _ _ _ _ h => exact absurd h hlinked
  | told _ _ _ _ _ hcut | closed _ _ _ _ hcut => exact hcut.closed

/-- The account of the process that moves. -/
theorem State.Account.moved (h : Inv s) (htidy : Tidy s) (haccount : s.Account turn.pid)
    (hreap : ∀ ending next, (s.procs turn.pid).control = .waiting ending next →
      turn.zombie ∈ (s.procs turn.pid).children → (s.procs turn.zombie).control = .exited →
      (s.links turn.zombie).reaped = false → due turn.pid (s.links turn.zombie) = true)
    (hmove : Move s turn s') : s'.Account turn.pid := by
  have hopen : ∀ {k}, (s.procs turn.pid).control = k → k.Before →
      (s.procs turn.pid).control.Before := by
    rintro k rfl hbefore
    exact hbefore
  cases hmove with
  | greet hcontrol _ =>
      exact haccount.open_touch (hopen hcontrol trivial) (.inl trivial) rfl rfl ⟨id, id⟩
  | @command request bufs rest hp hcontrol _ =>
      rw [hp] at haccount ⊢
      have hbefore : (s.procs 0).control.Before := by
        rw [hcontrol]
        trivial
      have hmoved := haccount.open_move hbefore (before_obey ((s.procs 0).load bufs) request)
        (State.obey_load_same _ _ _).children
      exact ⟨hmoved.before, hmoved.dying, hmoved.waiting, hmoved.after⟩
  | receive _ hcontrol _ =>
      exact haccount.open_touch (hopen hcontrol trivial) (before_dispatch _ _) rfl rfl ⟨id, id⟩
  | @fork child hcontrol =>
      have hp := h.lt_count (p := turn.pid) (by simp [hcontrol])
      have hself := s.procs_fork_parent child turn.junk (Nat.ne_of_lt hp)
      apply State.Account.of_before
      · rw [hself]
        trivial
      · rw [hself]
        intro c hc hdue
        rcases List.mem_append.mp hc with hc | hc
        · have hlt := (h.family _ hp c hc).2.1
          rw [s.links_fork_of_ne child turn.junk (Nat.ne_of_lt hlt)] at hdue ⊢
          exact haccount.before (hopen hcontrol trivial) c hc hdue
        · rw [List.mem_singleton.mp hc, s.links_fork_born]
          rfl
  | greeting hcontrol =>
      apply haccount.open_touch (hopen hcontrol trivial)
      · left
        simp only [Proc.goto]
        split <;> trivial
      · rfl
      · rfl
      · exact ⟨id, id⟩
  | walkEnd hcontrol =>
      apply haccount.open_move (hopen hcontrol trivial)
      · left
        simp only [Proc.goto, State.notFound]
        split <;> trivial
      · rfl
  | walkSkip hcontrol _ =>
      exact haccount.open_move (hopen hcontrol trivial) (.inl trivial) rfl
  | walkSend hcontrol _ =>
      exact haccount.open_touch (hopen hcontrol trivial) (.inl trivial) rfl rfl ⟨id, id⟩
  | @hear job c next hcontrol _ =>
      unfold State.hear
      apply haccount.open_touch (hopen hcontrol trivial)
      · left
        exact of_judge (Q := Control.Before) (fun _ _ => trivial) trivial trivial _ _ job next _
      · rfl
      · rfl
      · constructor
        · intro hunmarked
          exact (Bool.or_eq_false_iff.mp hunmarked).1
        · intro hopen
          exact (Bool.and_eq_true_iff.mp hopen).1
  | @answer message hcontrol =>
      cases message with
      | yes | not =>
          exact haccount.open_touch (hopen hcontrol trivial) (.inl trivial) rfl rfl ⟨id, id⟩
      | yesn =>
          have hp := h.lt_count (p := turn.pid) (by simp [hcontrol])
          have hreaped := haccount.after (by rw [hcontrol]; trivial)
          apply State.Account.of_after
          · change (Function.update s.procs turn.pid _ turn.pid).control.Behind
            rw [Function.update_self]
            trivial
          · intro c hc hdue
            change c ∈ (Function.update s.procs turn.pid _ turn.pid).children at hc
            rw [Function.update_self] at hc
            obtain ⟨_, _, _, hne, _⟩ := h.child hp hc
            have hlink : ∀ L P, ((s.setLink turn.pid L).setProc turn.pid P).links c = s.links c :=
              fun L _ => State.links_setLink_of_ne hne s L
            rw [hlink] at hdue ⊢
            exact hreaped c hc hdue
  | @dyingEnd ending hcontrol =>
      have hprocs : (s.setProc turn.pid ((s.procs turn.pid).goto ending.last)).procs turn.pid =
          (s.procs turn.pid).goto ending.last := Function.update_self _ _ _
      apply State.Account.of_after
      · rw [hprocs]
        cases ending <;> trivial
      · rw [hprocs]
        exact haccount.last hcontrol
  | exit hcontrol =>
      have hprocs : (s.setProc turn.pid ((s.procs turn.pid).goto .exited)).procs turn.pid =
          (s.procs turn.pid).goto .exited := Function.update_self _ _ _
      apply State.Account.of_after
      · rw [hprocs]
        trivial
      · rw [hprocs]
        exact haccount.after (by rw [hcontrol]; trivial)
  | dyingSkip hcontrol hp hmark =>
      have hc := h.mem_of_pending hcontrol (by simp) List.mem_cons_self
      obtain ⟨_, _, _, _, hedge⟩ := h.child (h.lt_count (by simp [hcontrol])) hc
      rw [hp] at haccount hcontrol ⊢
      exact haccount.skip hcontrol hmark (hedge.closed_of_marked hmark)
  | @tell ending c c' next hcontrol hskip hholder =>
      apply haccount.told hcontrol
      · by_cases hp : turn.pid = 0
        · have hunmarked : (s.links c).haveKilled = false := by
            simpa [hp] using hskip
          simp [due, hunmarked]
        · exact due_of_ne hp _
      · exact ⟨rfl, rfl, fun hopen => by cases hopen⟩
      · by_cases hcc : c = c'
        · rw [hcc, State.links_setLink_self]
          rfl
        · rw [State.links_setLink_of_ne hcc]
          by_contra hopen
          unfold State.holder at hholder
          rw [if_pos (by simpa using hopen)] at hholder
          exact hcc (Option.some.inj hholder)
  | @tellNobody ending c next hcontrol hskip hholder =>
      have hclosed : (s.links c).isOpen = false := by
        by_contra hopen
        unfold State.holder at hholder
        rw [if_pos (by simpa using hopen)] at hholder
        cases hholder
      have hdue : due turn.pid (s.links c) = true := by
        by_cases hp : turn.pid = 0
        · have hunmarked : (s.links c).haveKilled = false := by
            simpa [hp] using hskip
          simp [due, hunmarked]
        · exact due_of_ne hp _
      have htold := haccount.told (d := turn.pid) (L := s.links turn.pid) hcontrol hdue
        ⟨rfl, rfl, id⟩ (by simpa [State.setLink] using hclosed)
      simpa only [State.setLink, Function.update_eq_self] using htold
  | @reap ending next hcontrol hchild hexited hunreaped =>
      have hp := h.lt_count (p := turn.pid) (by simp [hcontrol])
      exact haccount.reap (htidy.distinct _ hp) hcontrol hchild
        (hreap ending next hcontrol hchild hexited hunreaped) hunreaped
  | waitNobody hcontrol hreaped =>
      obtain ⟨c, hc, -, -, hunreaped⟩ := haccount.exists_due hcontrol
      exact absurd (hunreaped.symm.trans (hreaped c hc)) (by simp)

theorem Accounts.move_kept (h : Inv s) (htidy : Tidy s) (haccounts : Accounts s)
    (hreap : ∀ ending next, (s.procs turn.pid).control = .waiting ending next →
      turn.zombie ∈ (s.procs turn.pid).children → (s.procs turn.zombie).control = .exited →
      (s.links turn.zombie).reaped = false → due turn.pid (s.links turn.zombie) = true)
    (hmove : Move s turn s') : Accounts s' := by
  have hframe := hmove.frame h
  intro q hq
  by_cases hold : q < s.count
  · by_cases hturn : q = turn.pid
    · subst hturn
      exact (haccounts _ hold).moved h htidy hreap hmove
    · apply (haccounts q hold).congr (hframe.procs q hturn hold)
      intro c hc
      obtain ⟨-, hlt, hparent⟩ := h.family q hold c hc
      exact hframe.links c hlt (by rw [hparent]; exact hturn)
  · obtain ⟨hgreet, hchildren⟩ := hframe.fresh q (Nat.le_of_not_lt hold) hq
    apply State.Account.of_before
    · rw [hgreet]
      trivial
    · simp [hchildren]

theorem Accounts.start (hstart : network.start s) : Accounts s := by
  obtain ⟨hcount, -, hcontrol, hchildren, -⟩ := hstart
  intro p hp
  obtain rfl : p = 0 := by omega
  apply State.Account.of_before
  · rw [hcontrol]
    trivial
  · simp [hchildren]

theorem Fates.start (hstart : network.start s) : Fates s := by
  intro c hpos hlt
  have := hstart.1
  omega

end Services

end SystemsProgramming
