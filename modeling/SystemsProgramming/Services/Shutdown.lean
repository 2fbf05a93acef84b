/-
`kill Manager` at the end of a script.  It is complete as long as a process marks only
children that are gone, those that the Manager passes over have exited, and its `wait`
returns a child it has just told.
-/
import SystemsProgramming.Services.Messages
import SystemsProgramming.Services.Standing

namespace SystemsProgramming

namespace Services

variable {s s' t t' : State} {turn : Turn} {k : Control} {p c : Nat} {L : Link}

namespace State

/-- The reply in the pipe of `c` makes `p` mark the child. -/
def marksReply (s : State) (p : Nat) (job : Job) (c : Nat) : Bool :=
  marks p job (settle p job
    (((s.procs p).str job).load ((s.links c).rep.take (if p = 0 then 512 else 8))))

/-- A turn that marks no service that is still in its loop, and in which the Manager neither
passes over a service that was killed but has not exited, nor waits for one that was killed
before. -/
def Clean (s : State) (turn : Turn) : Prop :=
  match (s.procs turn.pid).control with
  | .await job c _ => s.marksReply turn.pid job c = true → (s.procs c).control.Gone
  | .dying _ (c :: _) =>
      turn.pid = 0 → (s.links c).haveKilled = true → (s.procs c).control = .exited
  | .waiting _ _ =>
      turn.pid = 0 → turn.zombie ∈ (s.procs 0).children →
        (s.procs turn.zombie).control = .exited → (s.links turn.zombie).reaped = false →
        (s.links turn.zombie).haveKilled = false
  | _ => True

instance (k : Control) : Decidable k.Gone := by
  unfold Control.Gone
  split <;> infer_instance

instance (s : State) (turn : Turn) : Decidable (s.Clean turn) := by
  unfold Clean
  split <;> infer_instance

/-- The Manager is about to print its last line, or has printed it. -/
def Closing (s : State) : Prop :=
  (s.procs 0).control = .dying .dead [] ∨ (s.procs 0).control = .exited

end State

/-! Who is marked. -/

/-- A marked service has left its loop. -/
def Safe (s : State) : Prop :=
  ∀ c, 0 < c → c < s.count → (s.links c).haveKilled = true → (s.procs c).control.Gone

/-- Only a reply makes a process mark a child. -/
theorem Move.marked (hmove : Move s turn s') (hlt : c < s.count)
    (hmark : (s'.links c).haveKilled = true) : (s.links c).haveKilled = true ∨
      ∃ job next, (s.procs turn.pid).control = .await job c next ∧
        s.marksReply turn.pid job c = true := by
  have hkeep : ∀ {d : Nat} {L : Link} {P : Proc},
      (((s.setLink d L).setProc turn.pid P).links c).haveKilled = true →
      L.haveKilled = (s.links d).haveKilled → (s.links c).haveKilled = true := by
    intro d L P hmark hsame
    change ((s.setLink d L).links c).haveKilled = true at hmark
    by_cases hcd : c = d
    · subst hcd
      rwa [State.links_setLink_self, hsame] at hmark
    · rwa [State.links_setLink_of_ne hcd] at hmark
  cases hmove with
  | command | walkEnd | walkSkip | dyingEnd | dyingSkip | tellNobody | waitNobody | exit =>
      exact .inl hmark
  | fork _ =>
      rw [s.links_fork_of_ne _ _ (Nat.ne_of_lt hlt)] at hmark
      exact .inl hmark
  | greet | receive | answer | greeting | walkSend | tell | reap => exact .inl (hkeep hmark rfl)
  | @hear job d next hcontrol _ =>
      by_cases hcd : c = d
      · subst hcd
        change ((s.setLink c ((s.links c).hear _ (s.marksReply turn.pid job c))).links
          c).haveKilled = true at hmark
        rw [State.links_setLink_self] at hmark
        rcases (Bool.or_eq_true _ _).mp hmark with hold | hnew
        · exact .inl hold
        · exact .inr ⟨job, next, hcontrol, hnew⟩
      · left
        change ((s.setLink d _).links c).haveKilled = true at hmark
        rwa [State.links_setLink_of_ne hcd] at hmark

theorem Edge.unmarked_of_greet {hello : List Char} {stance : Stance}
    (hedge : Edge hello .greet L stance) : L.haveKilled = false := by
  cases hedge with
  | forked _ _ _ _ _ h | fresh _ _ _ _ _ _ h => exact h.unmarked
  | ready _ hcontrol | commanded hcontrol | told _ hcontrol => cases hcontrol
  | working hworks => exact hworks.elim
  | answered hstill => exact (Control.not_replied_greet hstill).elim
  | closed _ hcontrol =>
      rcases hcontrol with h | h
      · cases h
      · exact h.elim

/-- Behind its loop a service does nothing but exit. -/
theorem Move.gone (hmove : Move s turn s') (hgone : (s.procs turn.pid).control.Gone) :
    (s'.procs turn.pid).control.Gone := by
  cases hmove with
  | exit =>
      change (Function.update s.procs turn.pid _ turn.pid).control.Gone
      rw [Function.update_self]
      trivial
  | command hp hcontrol =>
      rw [hp, hcontrol] at hgone
      exact hgone.elim
  | greet hcontrol | receive _ hcontrol | fork hcontrol | greeting hcontrol | walkEnd hcontrol
  | walkSkip hcontrol | walkSend hcontrol | hear hcontrol | answer hcontrol | dyingEnd hcontrol
  | dyingSkip hcontrol | tell hcontrol | tellNobody hcontrol | reap hcontrol
  | waitNobody hcontrol =>
      rw [hcontrol] at hgone
      exact hgone.elim

theorem Safe.move_kept (h : Inv s) (h' : Inv s') (hsafe : Safe s) (hclean : s.Clean turn)
    (hmove : Move s turn s') : Safe s' := by
  have hframe := hmove.frame h
  intro c hpos hlt' hmark
  by_cases hlt : c < s.count
  · have hgone : (s.procs c).control.Gone := by
      rcases hmove.marked hlt hmark with hold | ⟨job, next, hcontrol, hnew⟩
      · exact hsafe c hpos hlt hold
      · unfold State.Clean at hclean
        simp only [hcontrol] at hclean
        exact hclean hnew
    by_cases hturn : c = turn.pid
    · subst hturn
      exact hmove.gone hgone
    · rwa [hframe.procs c hturn hlt]
  · obtain ⟨hgreet, -⟩ := hframe.fresh c (Nat.le_of_not_lt hlt) hlt'
    have hedge := h'.edge c hpos hlt'
    rw [hgreet] at hedge
    rw [hedge.unmarked_of_greet] at hmark
    cases hmark

/-! The Manager. -/

namespace Control

/-- Where the Manager can stand. -/
def Manages : Control → Prop
  | greet | reply _ | dying .target _ | waiting .target _ | returning => False
  | _ => True

theorem manages_obey (P : Proc) (request : Request) :
    (State.obey P request).control.Manages := by
  rcases State.obey_control P request with ⟨child, hk⟩ | hk | ⟨job, hk⟩ <;>
    · rw [hk]
      trivial

/-- The Manager stays where it can stand, does not come back from its last loop, and looks
for a service only by a new command. -/
theorem Manages.move (h : Inv s) (hmanages : (s.procs 0).control.Manages)
    (hmove : Move s turn s') : (s'.procs 0).control.Manages ∧
      ((s.procs 0).control.Parting → (s'.procs 0).control.Parting) ∧
      ((s'.procs 0).control.passes = some .find → (s.procs 0).control.passes = some .find ∨
        turn.pid = 0 ∧ (s.procs 0).control = .loop) := by
  by_cases hturn : turn.pid = 0
  · obtain ⟨p, c, junk⟩ := turn
    obtain rfl : p = 0 := hturn
    have hself : ∀ P : Proc, Function.update s.procs 0 P 0 = P :=
      fun P => Function.update_self _ _ _
    have hbusy : ∀ {k}, (s.procs 0).control = k → k.Manages := by
      rintro k rfl
      exact hmanages
    -- what is to be shown of the place that the Manager goes to
    have hgoal : ∀ (P : Proc) {k k' : Control}, (s.procs 0).control = k → P.control = k' →
        k'.Manages → (k.Parting → k'.Parting) →
        (k'.passes = some .find → k.passes = some .find) →
        (Function.update s.procs 0 P 0).control.Manages ∧
        ((s.procs 0).control.Parting → (Function.update s.procs 0 P 0).control.Parting) ∧
        ((Function.update s.procs 0 P 0).control.passes = some .find →
          (s.procs 0).control.passes = some .find ∨
            (⟨0, c, junk⟩ : Turn).pid = 0 ∧ (s.procs 0).control = .loop) := by
      rintro P k k' rfl rfl hmanages' hparting hpasses
      rw [hself]
      exact ⟨hmanages', hparting, fun hfind => .inl (hpasses hfind)⟩
    cases hmove with
    | command _ hcontrol _ =>
        refine ⟨?_, ?_, fun _ => .inr ⟨rfl, hcontrol⟩⟩
        · change (Function.update s.procs 0 _ 0).control.Manages
          rw [hself]
          exact manages_obey _ _
        · rw [hcontrol]
          exact False.elim
    | receive hpos => exact absurd hpos (Nat.lt_irrefl 0)
    | @fork child hcontrol =>
        have hparent := s.procs_fork_parent (p := 0) child junk (Nat.ne_of_lt h.born)
        rw [hparent, hcontrol]
        exact ⟨trivial, False.elim, fun hfind => by cases hfind⟩
    | greet hcontrol _ | answer hcontrol | exit hcontrol => exact (hbusy hcontrol).elim
    | greeting hcontrol => exact hgoal _ hcontrol rfl trivial False.elim id
    | walkEnd hcontrol =>
        exact hgoal _ hcontrol rfl trivial False.elim (fun hfind => by cases hfind)
    | walkSkip hcontrol _ | walkSend hcontrol _ =>
        exact hgoal _ hcontrol rfl trivial False.elim id
    | @hear job d next hcontrol _ =>
        rcases judge_control 0 (s.procs 0) job next _ with hk | ⟨-, -, hk⟩ | ⟨-, hk⟩ | ⟨hne, -⟩
        · exact hgoal _ hcontrol hk trivial False.elim id
        · exact hgoal _ hcontrol hk trivial False.elim (fun hfind => by cases hfind)
        · exact hgoal _ hcontrol hk trivial False.elim (fun hfind => by cases hfind)
        · exact absurd rfl hne
    | @dyingEnd ending hcontrol =>
        cases ending with
        | target => exact (hbusy hcontrol).elim
        | dead => exact hgoal _ hcontrol rfl trivial id id
    | @dyingSkip ending d next hcontrol _ _ =>
        have hmanages' : (Control.dying ending (d :: next)).Manages := hbusy hcontrol
        cases ending with
        | target => exact hmanages'.elim
        | dead => exact hgoal _ hcontrol rfl trivial id id
    | @tell ending _ _ _ hcontrol _ _ | @tellNobody ending _ _ hcontrol _ _
    | @reap ending _ hcontrol _ _ _ | @waitNobody ending _ hcontrol _ =>
        cases ending with
        | target => exact (hbusy hcontrol).elim
        | dead => exact hgoal _ hcontrol rfl trivial id id
  · rw [(hmove.frame h).procs 0 (Ne.symm hturn) h.born]
    exact ⟨hmanages, id, .inl⟩

end Control

/-- The marked children that the Manager has passed over in its last loop have exited. -/
def Skipped (s : State) : Prop :=
  (s.procs 0).control.Parting → ∀ c ∈ (s.procs 0).children,
    c ∉ (s.procs 0).control.pending → (s.links c).haveKilled = true →
    (s.procs c).control = .exited

namespace Skipped

/-- A step of the Manager to a place in that loop. -/
theorem of_manager {d : Nat} {P : Proc} (h : Inv s) (hchildren : P.children = (s.procs 0).children)
    (hpassed : P.control.Parting → ∀ c ∈ (s.procs 0).children, c ∉ P.control.pending →
      ((s.setLink d L).links c).haveKilled = true → (s.procs c).control = .exited) :
    Skipped ((s.setLink d L).setProc 0 P) := by
  have hself : ((s.setLink d L).setProc 0 P).procs 0 = P := by simp [State.setProc]
  intro hparting c hc hpending hmark
  rw [hself] at hparting hc hpending
  rw [hchildren] at hc
  have hne : c ≠ 0 := (h.child h.born hc).2.2.2.1
  have hother : ((s.setLink d L).setProc 0 P).procs c = s.procs c := by
    simp [State.setProc, State.setLink, hne]
  rw [hother]
  exact hpassed hparting c hc hpending hmark

theorem of_manager_alone {P : Proc} (h : Inv s) (hchildren : P.children = (s.procs 0).children)
    (hpassed : P.control.Parting → ∀ c ∈ (s.procs 0).children, c ∉ P.control.pending →
      (s.links c).haveKilled = true → (s.procs c).control = .exited) :
    Skipped (s.setProc 0 P) := by
  have hself : s.setLink 0 (s.links 0) = s := by simp [State.setLink]
  rw [← hself] at hpassed ⊢
  exact of_manager h hchildren hpassed

/-- The turns of others leave the marks of the Manager's children as they are. -/
theorem move_other (h : Inv s) (hskipped : Skipped s) (hmove : Move s turn s')
    (hturn : turn.pid ≠ 0) : Skipped s' := by
  have hframe := hmove.frame h
  have hmanager := hframe.procs 0 (Ne.symm hturn) h.born
  intro hparting c hc hpending hmark
  rw [hmanager] at hparting hc hpending
  obtain ⟨-, hlt, hparent, -, -⟩ := h.child h.born hc
  have hsame := hframe.links c hlt (by rw [hparent]; exact Ne.symm hturn)
  rw [hsame.haveKilled] at hmark
  have hexited := hskipped hparting c hc hpending hmark
  have hne : c ≠ turn.pid := by
    rintro rfl
    exact hmove.not_exited hexited
  rw [hframe.procs c hne hlt, hexited]

theorem move_kept (h : Inv s) (hmanages : (s.procs 0).control.Manages) (hskipped : Skipped s)
    (hclean : s.Clean turn) (hmove : Move s turn s') : Skipped s' := by
  by_cases hturn : turn.pid = 0
  · obtain ⟨p, zombie, junk⟩ := turn
    obtain rfl : p = 0 := hturn
    have hbusy : ∀ {k}, (s.procs 0).control = k → k.Manages := by
      rintro k rfl
      exact hmanages
    -- a place in the loop, from which the Manager has come with the same list or a longer one
    have hpassed : ∀ {k : Control}, (s.procs 0).control = k → k.Parting →
        ∀ c ∈ (s.procs 0).children, c ∉ k.pending → (s.links c).haveKilled = true →
          (s.procs c).control = .exited := by
      rintro k rfl hparting
      exact hskipped hparting
    cases hmove with
    | @command request bufs _ _ hcontrol _ =>
        have hbegun : Skipped (s.setProc 0 (State.obey ((s.procs 0).load bufs) request)) := by
          apply of_manager_alone h (State.obey_load_same _ _ _).children
          intro hparting c hc hpending
          rcases State.obey_control ((s.procs 0).load bufs) request with
            ⟨child, hk⟩ | hk | ⟨job, hk⟩
          · rw [hk] at hparting
            exact hparting.elim
          · rw [hk] at hpending
            exact absurd hc hpending
          · rw [hk] at hparting
            exact hparting.elim
        exact hbegun
    | receive hpos => exact absurd hpos (Nat.lt_irrefl 0)
    | greet hcontrol | answer hcontrol | exit hcontrol => exact (hbusy hcontrol).elim
    | fork hcontrol =>
        intro hparting
        rw [s.procs_fork_parent _ _ (Nat.ne_of_lt h.born)] at hparting
        exact hparting.elim
    | greeting hcontrol => exact of_manager h rfl False.elim
    | walkEnd hcontrol | walkSkip hcontrol => exact of_manager_alone h rfl False.elim
    | walkSend hcontrol => exact of_manager h rfl False.elim
    | @hear job d next hcontrol _ =>
        refine of_manager h rfl ?_
        exact of_judge (Q := fun k => k.Parting → _) (fun _ _ => False.elim) False.elim False.elim
          0 _ job next _
    | @dyingEnd ending hcontrol =>
        cases ending with
        | target => exact (hbusy hcontrol).elim
        | dead =>
            have hbefore := hpassed hcontrol trivial
            exact of_manager_alone h rfl fun _ => hbefore
    | @dyingSkip ending d next hcontrol _ hmark =>
        cases ending with
        | target => exact (hbusy hcontrol).elim
        | dead =>
            refine of_manager_alone h rfl ?_
            intro _ c hc hpending hkilled
            by_cases hcd : c = d
            · subst hcd
              unfold State.Clean at hclean
              simp only [hcontrol] at hclean
              exact hclean trivial hkilled
            · have hnone := List.not_mem_cons_of_ne_of_not_mem hcd hpending
              exact hpassed hcontrol trivial c hc hnone hkilled
    | @tell ending d d' next hcontrol hskip _ =>
        cases ending with
        | target => exact (hbusy hcontrol).elim
        | dead =>
            refine of_manager h rfl ?_
            intro _ c hc hpending hkilled
            have hmark : (s.links c).haveKilled = true := by
              by_cases hcd : c = d'
              · subst hcd
                rwa [State.links_setLink_self] at hkilled
              · rwa [State.links_setLink_of_ne hcd] at hkilled
            have hcd : c ≠ d := by
              rintro rfl
              exact hskip ⟨rfl, hmark⟩
            have hnone := List.not_mem_cons_of_ne_of_not_mem hcd hpending
            exact hpassed hcontrol trivial c hc hnone hmark
    | @tellNobody ending d next hcontrol hskip _ =>
        cases ending with
        | target => exact (hbusy hcontrol).elim
        | dead =>
            refine of_manager_alone h rfl ?_
            intro _ c hc hpending hmark
            have hcd : c ≠ d := by
              rintro rfl
              exact hskip ⟨rfl, hmark⟩
            have hnone := List.not_mem_cons_of_ne_of_not_mem hcd hpending
            exact hpassed hcontrol trivial c hc hnone hmark
    | @reap ending next hcontrol _ _ _ =>
        cases ending with
        | target => exact (hbusy hcontrol).elim
        | dead =>
            refine of_manager h rfl ?_
            intro _ c hc hpending hkilled
            refine hpassed hcontrol trivial c hc hpending ?_
            by_cases hcz : c = zombie
            · subst hcz
              rwa [State.links_setLink_self] at hkilled
            · rwa [State.links_setLink_of_ne hcz] at hkilled
    | @waitNobody ending next hcontrol _ =>
        cases ending with
        | target => exact (hbusy hcontrol).elim
        | dead =>
            have hbefore := hpassed hcontrol trivial
            exact of_manager_alone h rfl fun _ => hbefore
  · exact hskipped.move_other h hmove hturn

end Skipped

/-! The script comes to its end. -/

/-- The steps through the script that are left: two for each command, which a `kill` takes
one after the other. -/
def State.ahead (s : State) : Nat :=
  2 * s.script.length + if (s.procs 0).control.passes = some .find then 1 else 0

/-- At its loop the Manager takes the next command. -/
theorem Move.command_of_loop (hmove : Move s turn s') (hp : turn.pid = 0)
    (hloop : (s.procs 0).control = .loop) :
    ∃ request bufs rest, s.script = (request, bufs) :: rest ∧
      s' = { s.setProc 0 (State.obey ((s.procs 0).load bufs) request) with script := rest } := by
  have hself : (s.procs turn.pid).control = .loop := by rw [hp, hloop]
  cases hmove with
  | command _ _ hscript => exact ⟨_, _, _, hscript, rfl⟩
  | receive hpos => omega
  | greet hcontrol | fork hcontrol | greeting hcontrol | walkEnd hcontrol | walkSkip hcontrol
  | walkSend hcontrol | hear hcontrol | answer hcontrol | dyingEnd hcontrol
  | dyingSkip hcontrol | tell hcontrol | tellNobody hcontrol | reap hcontrol
  | waitNobody hcontrol | exit hcontrol => cases hself.symm.trans hcontrol

theorem Move.script (hmove : Move s turn s')
    (hcommand : turn.pid = 0 → (s.procs 0).control ≠ .loop) : s'.script = s.script := by
  cases hmove with
  | command hp hcontrol _ => exact absurd hcontrol (hcommand hp)
  | _ => rfl

/-- A new command is a step through the script, and so is the end of looking for a service
to kill; every other turn spends some of what is left. -/
theorem Move.ahead (h : Inv s) (hmanages : (s.procs 0).control.Manages)
    (hmove : Move s turn s') : s'.ahead < s.ahead ∨ s'.ahead = s.ahead ∧
      (turn.pid = 0 → (s.procs 0).control ≠ .loop) ∧ ¬ s.Finds s' := by
  by_cases hcommand : turn.pid = 0 ∧ (s.procs 0).control = .loop
  · left
    obtain ⟨request, bufs, rest, hscript, rfl⟩ :=
      hmove.command_of_loop hcommand.1 hcommand.2
    have hnone : ¬ (s.procs 0).control.passes = some .find := by
      simp [hcommand.2, Control.passes]
    unfold State.ahead
    rw [hscript, List.length_cons, if_neg hnone]
    split <;> simp only <;> omega
  · have hnot : turn.pid = 0 → (s.procs 0).control ≠ .loop := fun hp hloop => hcommand ⟨hp, hloop⟩
    have hfind : (s'.procs 0).control.passes = some .find →
        (s.procs 0).control.passes = some .find :=
      fun h' => ((hmanages.move h hmove).2.2 h').resolve_right hcommand
    have hscript := hmove.script hnot
    unfold State.ahead State.Finds
    rw [hscript]
    by_cases hbefore : (s.procs 0).control.passes = some .find
    · by_cases hafter : (s'.procs 0).control.passes = some .find
      · right
        refine ⟨by rw [if_pos hbefore, if_pos hafter], hnot, ?_⟩
        rintro ⟨-, hkill⟩
        cases hafter.symm.trans hkill
      · left
        rw [if_pos hbefore, if_neg hafter]
        exact Nat.lt_succ_self _
    · right
      have hafter : (s'.procs 0).control.passes ≠ some .find := fun h' => hbefore (hfind h')
      exact ⟨by rw [if_neg hbefore, if_neg hafter], hnot, fun hfinds => hbefore hfinds.1⟩

/-- What is left of the script, and of the work on the command at hand. -/
noncomputable def State.left (s : State) : Lex (Nat × Nat) := toLex (s.ahead, s.work)

theorem Move.left_lt (h : Inv s) (htidy : Tidy s) (hmanages : (s.procs 0).control.Manages)
    (hmove : Move s turn s') : s'.left < s.left := by
  unfold State.left
  rw [Prod.Lex.toLex_lt_toLex]
  rcases hmove.ahead h hmanages with hless | ⟨hsame, hcommand, hfinds⟩
  · exact .inl hless
  · exact .inr ⟨hsame, (hmove.spends h htidy hcommand hfinds).work⟩

/-! The last command. -/

/-- The Manager is told to end itself, or the script tells it in the end. -/
def State.Promised (s : State) : Prop :=
  (s.procs 0).control.Parting ∨
    ∃ cmds last bufs, s.script = cmds ++ [(.kill last, bufs)] ∧ last.chars = managerName

theorem State.Promised.move_kept (h : Inv s) (hmanages : (s.procs 0).control.Manages)
    (hpromised : s.Promised) (hmove : Move s turn s') : s'.Promised := by
  rcases hpromised with hparting | ⟨cmds, last, bufs, hscript, hlast⟩
  · exact .inl ((hmanages.move h hmove).2.1 hparting)
  · by_cases hcommand : turn.pid = 0 → (s.procs 0).control ≠ .loop
    · rw [← hmove.script hcommand] at hscript
      exact .inr ⟨cmds, last, bufs, hscript, hlast⟩
    · push Not at hcommand
      obtain ⟨request, bufs', rest, hrest, rfl⟩ :=
        hmove.command_of_loop hcommand.1 hcommand.2
      rw [hrest] at hscript
      cases cmds with
      | nil =>
          obtain ⟨heq, rfl⟩ := List.cons.inj hscript
          obtain ⟨rfl, rfl⟩ := Prod.mk.inj heq
          left
          have hdying : (State.obey ((s.procs 0).load bufs') (.kill last)).control =
              .dying .dead (s.procs 0).children := by
            simp [State.obey, hlast, Proc.goto, Proc.load]
          have hnew : Function.update s.procs 0 (State.obey ((s.procs 0).load bufs') (.kill last))
              0 = State.obey ((s.procs 0).load bufs') (.kill last) := Function.update_self _ _ _
          change (Function.update s.procs 0 (State.obey ((s.procs 0).load bufs')
            (.kill last)) 0).control.Parting
          rw [hnew, hdying]
          trivial
      | cons first cmds =>
          obtain ⟨rfl, rfl⟩ := List.cons.inj hscript
          exact .inr ⟨cmds, last, bufs, rfl, hlast⟩

/-- What a run that meets `Clean` keeps, where all greetings are read. -/
structure Orderly (s : State) : Prop where
  tidy : Tidy s
  fates : Fates s
  safe : Safe s
  skipped : Skipped s
  accounts : Accounts s
  manages : (s.procs 0).control.Manages
  promised : s.Promised

namespace Orderly

theorem move_kept (h : Inv s) (hok : s.Greeted turn) (hclean : s.Clean turn)
    (hmove : Move s turn s') (horderly : Orderly s) : Orderly s' where
  tidy := horderly.tidy.move_kept h hmove
  fates := horderly.fates.move_kept h hok hmove
  safe := horderly.safe.move_kept h (h.move_kept hok hmove) hclean hmove
  skipped := horderly.skipped.move_kept h horderly.manages hclean hmove
  accounts := by
    apply horderly.accounts.move_kept h horderly.tidy _ hmove
    intro ending next hcontrol hchild hexited hunreaped
    by_cases hp : turn.pid = 0
    · unfold State.Clean at hclean
      simp only [hcontrol] at hclean
      rw [hp] at hchild
      simp [due, hclean hp hchild hexited hunreaped]
    · exact State.Account.due_of_ne hp _
  manages := (horderly.manages.move h hmove).1
  promised := horderly.promised.move_kept h horderly.manages hmove

theorem start (hstart : network.start s) {cmds : List (Request × Buffers)} {last : Word}
    {bufs : Buffers} (hscript : s.script = cmds ++ [(.kill last, bufs)])
    (hlast : last.chars = managerName) : Orderly s where
  tidy := Tidy.start hstart
  fates := Fates.start hstart
  safe := by
    intro c hpos hlt
    have := hstart.1
    omega
  skipped := by
    rw [Skipped, hstart.2.2.1]
    exact False.elim
  accounts := Accounts.start hstart
  manages := by
    rw [hstart.2.2.1]
    trivial
  promised := .inr ⟨cmds, last, bufs, hscript, hlast⟩

/-- A process that waits has a child that has exited, or that can be on its way out. -/
theorem exists_child (h : Inv s) (horderly : Orderly s) {ending : Ending} {next : List Nat}
    (hp : p < s.count) (hcontrol : (s.procs p).control = .waiting ending next) :
    (∃ turn t, s.step turn = some t) ∨ ∃ c, p < c ∧ c < s.count ∧
      ¬ (s.procs c).control.Rests ∧ (s.procs c).control ≠ .exited := by
  obtain ⟨c, hc, -, hclosed, hunreaped⟩ := (horderly.accounts p hp).exists_due hcontrol
  obtain ⟨hpos, hlt, hparent, -, -⟩ := h.child hp hc
  by_cases hexited : (s.procs c).control = .exited
  · left
    refine ⟨⟨p, c, []⟩, ?_⟩
    simp [State.step, State.wait, hcontrol, hc, hexited, hunreaped]
  by_cases hreturning : (s.procs c).control = .returning
  · left
    refine ⟨⟨c, 0, []⟩, ?_⟩
    simp [State.step, hreturning]
  · have hunmarked : (s.links c).haveKilled = false := by
      by_contra hmark
      have hgone := horderly.safe c hpos hlt (by simpa using hmark)
      rcases Control.gone_iff.mp hgone with h | h
      · exact hreturning h
      · exact hexited h
    rcases (horderly.fates c hpos hlt).told hclosed hunmarked with ⟨hloop, hcmd⟩ | hparting
    · left
      refine ⟨⟨c, 0, []⟩, ?_⟩
      simp [State.step, hloop, hcmd, Nat.ne_of_gt hpos]
    · right
      refine ⟨c, hparent ▸ h.older c hpos hlt, hlt, ?_, hexited⟩
      intro hrests
      rcases Control.rests_iff.mp hrests with hcontrol' | hcontrol'
      · rw [hcontrol'] at hparting
        exact hparting
      · rw [hcontrol'] at hparting
        exact hparting

/-- Until the Manager has exited, a process can go on. -/
theorem exists_turn (h : Inv s) (horderly : Orderly s)
    (hgoal : (s.procs 0).control ≠ .exited) : ∃ turn t, s.step turn = some t := by
  by_cases hloop : (s.procs 0).control = .loop
  · obtain ⟨cmds, last, bufs, hscript, -⟩ :=
      horderly.promised.resolve_left (by rw [hloop]; exact id)
    refine ⟨⟨0, 0, []⟩, ?_⟩
    cases cmds with
    | nil => simp [State.step, hloop, State.nextCommand, hscript]
    | cons action cmds => simp [State.step, hloop, State.nextCommand, hscript]
  · apply h.exists_turn (Q := fun _ => True) (fun _ _ _ _ _ _ => trivial) _ h.born trivial _ hgoal
    · intro q ending next _ hq hcontrol
      rcases horderly.exists_child h hq hcontrol with hturn | ⟨c, hqc, hlt, hbusy, hexited⟩
      · exact .inl hturn
      · exact .inr ⟨c, hqc, hlt, trivial, hbusy, hexited⟩
    · intro hrests
      have hmanages := horderly.manages
      rw [(Control.rests_iff.mp hrests).resolve_right hloop] at hmanages
      exact hmanages

/-- At the last line of the Manager all services have exited: it has waited for its
children that no `kill` had ended, and every service for all of its own. -/
theorem all_exited (h : Inv s) (horderly : Orderly s) (hclosing : s.Closing) (hpos : 0 < c)
    (hlt : c < s.count) : (s.procs c).control = .exited := by
  induction c using Nat.strong_induction_on with
  | _ c ih =>
      have hparent := h.older c hpos hlt
      have hmem := horderly.tidy.listed c hpos hlt
      have haccount := horderly.accounts _ (Nat.lt_trans hparent hlt)
      have hreaped : due (s.procs c).parent (s.links c) = true → (s.procs c).control = .exited := by
        intro hdue
        apply (horderly.fates c hpos hlt).reaped
        by_cases hp : (s.procs c).parent = 0
        · rw [hp] at haccount hmem hdue
          rcases hclosing with hdying | hexited
          · exact haccount.last hdying c hmem hdue
          · exact haccount.after (by rw [hexited]; trivial) c hmem hdue
        · have hexited := ih _ hparent (Nat.pos_of_ne_zero hp) (Nat.lt_trans hparent hlt)
          exact haccount.after (by rw [hexited]; trivial) c hmem hdue
      by_cases hskipped : (s.procs c).parent = 0 ∧ (s.links c).haveKilled = true
      · rw [hskipped.1] at hmem
        rcases hclosing with hdying | hexited
        · apply horderly.skipped (by rw [hdying]; trivial) c hmem _ hskipped.2
          rw [hdying]
          exact List.not_mem_nil
        · apply horderly.skipped (by rw [hexited]; trivial) c hmem _ hskipped.2
          rw [hexited]
          exact List.not_mem_nil
      · apply hreaped
        simpa [due, imp_iff_not_or] using hskipped

end Orderly

/-! With the pipes as they are. -/

theorem State.marksReply_caughtUp (hgreet : (s.procs p).control ≠ .greet) (job : Job) (c : Nat) :
    s.caughtUp.marksReply p job c = s.marksReply p job c := by
  unfold State.marksReply
  rw [State.procs_caughtUp (State.not_early hgreet), (s.seen_caughtUp c).2.2.2.1]

theorem State.Clean.caughtUp (hclean : s.Clean turn)
    (hgreet : (s.procs turn.pid).control ≠ .greet) : s.caughtUp.Clean turn := by
  have hself := State.procs_caughtUp (State.not_early hgreet)
  have hexited : ∀ c, (s.caughtUp.procs c).control = .exited ↔ (s.procs c).control = .exited :=
    fun c => State.control_caughtUp (by simp) (by simp)
  unfold State.Clean at hclean ⊢
  rw [hself]
  cases hcontrol : (s.procs turn.pid).control with
  | await job c next =>
      simp only [hcontrol] at hclean ⊢
      rwa [State.marksReply_caughtUp hgreet, State.gone_caughtUp]
  | dying ending next =>
      cases next with
      | nil => trivial
      | cons c next =>
          simp only [hcontrol] at hclean ⊢
          rwa [(s.seen_caughtUp c).1, hexited]
  | waiting ending next =>
      simp only [hcontrol] at hclean ⊢
      intro hp
      rw [(s.family_caughtUp 0).children, hexited, (s.seen_caughtUp _).1,
        (s.seen_caughtUp _).2.2.2.2]
      exact hclean hp
  | _ => trivial

theorem Follows.orderly (h : Inv s.caughtUp) (hclean : s.Clean turn)
    (hfollows : Follows s turn s') (horderly : Orderly s.caughtUp) : Orderly s'.caughtUp := by
  cases hfollows with
  | read _ hsame => rwa [hsame]
  | same hgreet hmove => exact horderly.move_kept h (h.greeted turn) (hclean.caughtUp hgreet) hmove
  | @greeting t child hcontrol hmove _ hgreet hread =>
      have hclean' : t.Clean ⟨child, 0, []⟩ := by simp [State.Clean, hgreet]
      have hmid :=
        horderly.move_kept h (h.greeted turn) (hclean.caughtUp (by simp [hcontrol])) hmove
      exact hmid.move_kept (h.move_kept (h.greeted turn) hmove) (State.greeted_of_greet hgreet)
        hclean' hread

/-- Every turn takes the script on, spends some of what is left, or reads a greeting. -/
theorem Follows.left_lt (h : Inv s.caughtUp) (horderly : Orderly s.caughtUp)
    (hfollows : Follows s turn s') : (s.procs turn.pid).control = .greet ∧
      s'.caughtUp = s.caughtUp ∨ s'.caughtUp.left < s.caughtUp.left := by
  cases hfollows with
  | read hearly hsame => exact .inl ⟨hearly.1, hsame⟩
  | same _ hmove => exact .inr (hmove.left_lt h horderly.tidy horderly.manages)
  | @greeting t child _ hmove _ _ hread =>
      right
      have ht := h.move_kept (h.greeted turn) hmove
      have htidy := horderly.tidy.move_kept h hmove
      have hmanages := (horderly.manages.move h hmove).1
      exact (hread.left_lt ht htidy hmanages).trans
        (hmove.left_lt h horderly.tidy horderly.manages)

/-- A script that ends with `kill Manager`, with any bytes in the reply buffers.  Where every
reply that makes a process mark a child comes from one that has been killed itself, the
Manager passes over a child only when it has exited, and its `wait` returns none that was
killed before, then in every order of turns the Manager comes to its end, and at its last line
no service is left. -/
theorem shutdown_complete (hstart : messages.start s) {cmds : List (Request × Buffers)}
    {last : Word} {bufs : Buffers} (hscript : s.script = cmds ++ [(.kill last, bufs)])
    (hlast : last.chars = managerName) {turns : List Turn}
    (hmeets : messages.Meets State.Clean s turns)
    (hrun : messages.run s turns = some t) :
    messages.Inevitable State.Clean (fun u => (u.procs 0).control = .exited) t ∧
      (t.Closing → ∀ c, 0 < c → c < t.count → (t.procs c).control = .exited) := by
  have hkept : ∀ u turn u', Sound u ∧ Orderly u.caughtUp → u.Clean turn →
      messages.step u turn = some u' → Sound u' ∧ Orderly u'.caughtUp := by
    rintro u turn u' ⟨hsound, horderly⟩ hclean hstep
    exact ⟨hsound.step hstep, (hsound.follows hstep).orderly hsound.inv hclean horderly⟩
  have hend : Sound t ∧ Orderly t.caughtUp := by
    apply hmeets.invariant hkept _ hrun
    refine ⟨.start hstart, ?_⟩
    rw [State.caughtUp_of_read (Sound.greeted_start hstart)]
    exact .start hstart hscript hlast
  constructor
  · apply TransitionSystem.inevitable_of_measure (fun u => Sound u ∧ Orderly u.caughtUp)
      (fun u => toLex (u.caughtUp.left, u.greeters)) _ _ hend
    · rintro u ⟨hsound, horderly⟩ hgoal
      rw [← hsound.manager] at hgoal
      obtain ⟨turn, v, hstep⟩ := horderly.exists_turn hsound.inv hgoal
      exact ⟨turn, hsound.enabled hstep⟩
    · rintro u turn u' ⟨hsound, horderly⟩ _ hclean hstep
      right
      refine ⟨hkept u turn u' ⟨hsound, horderly⟩ hclean hstep, ?_⟩
      rw [Prod.Lex.toLex_lt_toLex]
      rcases (hsound.follows hstep).left_lt hsound.inv horderly with ⟨hgreet, hsame⟩ | hless
      · right
        exact ⟨congrArg State.left hsame,
          State.greeters_lt (hsound.lt_count (by simp [hgreet])) hgreet hstep⟩
      · exact .inl hless
  · obtain ⟨hsound, horderly⟩ := hend
    intro hclosing c hpos hlt
    have hclosing' : t.caughtUp.Closing := by
      unfold State.Closing
      rwa [hsound.manager]
    exact (State.control_caughtUp (by simp) (by simp)).mp
      (horderly.all_exited hsound.inv hclosing' hpos hlt)

def nameR : Name := ⟨"R".toList, by decide, by decide, by decide, by decide, by decide⟩

/-- `spawn Manager P`, `spawn Manager Q`, `kill P` and `kill Manager`. -/
def twoChildren : List (Request × Buffers) :=
  onZeroed [.spawn .manager nameP, .spawn .manager nameQ, .kill nameP.word] ++
    onZeroed [.kill .manager]

/-- The Manager has spawned `P` and `Q`, has killed `P`, and has told `Q` "dead". -/
def toldQ : List Turn :=
  turnsOf [0, 0, 0, 0, 0, 0, 1, 2, 0, 0, 1, 1, 0, 0, 1, 1, 1, 1, 0, 0, 0, 0]

/-- `Q` reads "dead" and exits, and the Manager waits for it. -/
def waitsForQ : List Turn := toldQ ++ [⟨2, 0, []⟩, ⟨2, 0, []⟩, ⟨0, 2, []⟩]

/-- The Manager waits for `Q`. -/
theorem shutdown_complete_twoChildren : ∃ t, messages.run (.lone twoChildren) waitsForQ = some t ∧
    messages.Inevitable State.Clean (fun u => (u.procs 0).control = .exited) t ∧
    t.Closing ∧ ∀ c, 0 < c → c < t.count → (t.procs c).control = .exited := by
  have hfacts : (messages.run (.lone twoChildren) waitsForQ).map
      (fun t => (t.procs 0).control) = some (.dying .dead []) := by decide
  obtain ⟨t, hrun, ht⟩ := Option.map_eq_some_iff.mp hfacts
  have hcomplete := shutdown_complete (start_lone twoChildren) rfl rfl (by decide) hrun
  exact ⟨t, hrun, hcomplete.1, .inl ht, hcomplete.2 (.inl ht)⟩

/-- `spawn Manager P`, `kill P` and `kill Manager`. -/
def oneChild : List (Request × Buffers) :=
  onZeroed [.spawn .manager nameP, .kill nameP.word, .kill .manager]

/-- The Manager has heard that `P` is killed, and passes over it. -/
def passedOverP : List Turn := turnsOf [0, 0, 0, 1, 0, 0, 1, 1, 0, 0, 1, 1, 1, 0, 0, 0]

/-- `spawn Manager P`, `spawn P Q`, `spawn Q R`, `kill R` and `kill Manager`. -/
def threeLevels : List (Request × Buffers) :=
  onZeroed [.spawn .manager nameP, .spawn nameP.word nameQ, .spawn nameQ.word nameR,
    .kill nameR.word] ++ onZeroed [.kill .manager]

/-- A `wait` blocks as long as the only child is alive. -/
theorem State.wait_only_child (hchildren : (s.procs p).children = [c])
    (halive : (s.procs c).control ≠ .exited) (hunreaped : (s.links c).reaped = false)
    (ending : Ending) (next : List Nat) (zombie : Nat) : s.wait p ending next zombie = none := by
  unfold State.wait
  dsimp only
  rw [if_neg, if_neg]
  · simp [hchildren, hunreaped]
  · rintro ⟨hmem, hexited, -⟩
    rw [hchildren, List.mem_singleton] at hmem
    exact halive (hmem ▸ hexited)

/-- The turns up to the `kill Manager` that nobody ends. -/
def blocked : List Turn :=
  turnsOf [0, 0, 0, 0, 0, 1, 1, 1, 1, 1, 0, 0, 0, 1, 1, 2, 2, 2, 2, 2, 1, 1, 0, 0, 0, 1, 1, 2, 2,
    3, 3, 3, 2, 2, 1, 1, 0, 0, 1, 1, 2, 2, 3, 3, 3, 3, 2, 2, 1, 1, 0, 0, 0, 1, 1]

/-- With two children the `wait` of the Manager may return `P`, which was killed before, and
the last line comes while `Q` has not read "dead".  With one child the last line may come
while `P`, which has written "yesn", has not exited yet.  With three levels `P` marks `Q` for
the death of `R`, closes its pipe, and waits for it for ever. -/
theorem not_shutdown_complete :
    messages.start (.lone twoChildren) ∧ messages.start (.lone oneChild) ∧
    messages.start (.lone threeLevels) ∧
    (∃ t, messages.run (.lone twoChildren) (toldQ ++ [⟨0, 1, []⟩]) = some t ∧
      t.Closing ∧ 2 < t.count ∧ (t.procs 2).control ≠ .exited) ∧
    (∃ t, messages.run (.lone oneChild) passedOverP = some t ∧
      t.Closing ∧ 1 < t.count ∧ (t.procs 1).control ≠ .exited) ∧
    ∃ t, messages.run (.lone threeLevels) blocked = some t ∧
      (t.procs 0).control = .waiting .dead [] ∧ ∀ turn, messages.step t turn = none := by
  refine ⟨start_lone twoChildren, start_lone oneChild, start_lone threeLevels, ?_, ?_, ?_⟩
  · have hfacts : (messages.run (.lone twoChildren) (toldQ ++ [⟨0, 1, []⟩])).map
        (fun t => ((t.procs 0).control, t.count, (t.procs 2).control)) =
        some (.dying .dead [], 3, .loop) := by decide
    obtain ⟨t, hrun, ht⟩ := Option.map_eq_some_iff.mp hfacts
    simp only [Prod.mk.injEq] at ht
    obtain ⟨hzero, hcount, htwo⟩ := ht
    exact ⟨t, hrun, .inl hzero, by omega, by simp [htwo]⟩
  · have hfacts : (messages.run (.lone oneChild) passedOverP).map
        (fun t => ((t.procs 0).control, t.count, (t.procs 1).control)) =
        some (.dying .dead [], 2, .returning) := by decide
    obtain ⟨t, hrun, ht⟩ := Option.map_eq_some_iff.mp hfacts
    simp only [Prod.mk.injEq] at ht
    obtain ⟨hzero, hcount, hone⟩ := ht
    exact ⟨t, hrun, .inl hzero, by omega, by simp [hone]⟩
  · have hfacts : (messages.run (.lone threeLevels) blocked).map (fun t => (t.count,
        [(t.procs 0).control, (t.procs 1).control, (t.procs 2).control, (t.procs 3).control],
        [(t.procs 0).children, (t.procs 1).children], [(t.links 1).reaped, (t.links 2).reaped],
        (t.links 2).nextMessage.isNone)) =
        some (4, [.waiting .dead [], .waiting .dead [], .loop, .exited], [[1], [2]],
          [false, false], true) := by decide
    obtain ⟨t, hrun, ht⟩ := Option.map_eq_some_iff.mp hfacts
    simp only [Prod.mk.injEq, List.cons.injEq, and_true, Option.isNone_iff_eq_none] at ht
    obtain ⟨hcount, ⟨hzero, hone, htwo, hthree⟩, ⟨hfirst, hsecond⟩, ⟨hreaped1, hreaped2⟩, hnone⟩ :=
      ht
    refine ⟨t, hrun, hzero, ?_⟩
    have hsound : Sound t :=
      .of_reachable (TransitionSystem.Reachable.run (.start (start_lone threeLevels)) _ hrun)
    intro turn
    by_contra hstep
    obtain ⟨t', hstep⟩ := Option.ne_none_iff_exists'.mp hstep
    change t.stepMessage turn = some t' at hstep
    have hlt : turn.pid < 4 := by
      rw [← hcount]
      apply hsound.lt_count
      intro hexited
      simp [State.stepMessage, State.step, hexited] at hstep
    obtain ⟨p, zombie, junk⟩ := turn
    dsimp only at hlt
    interval_cases p
    · have hwait := State.wait_only_child hfirst (by simp [hone]) hreaped1 .dead [] zombie
      simp [State.stepMessage, State.step, hzero, hwait] at hstep
    · have hwait := State.wait_only_child hsecond (by simp [htwo]) hreaped2 .dead [] zombie
      simp [State.stepMessage, State.step, hone, hwait] at hstep
    · simp [State.stepMessage, htwo, hnone] at hstep
    · simp [State.stepMessage, State.step, hthree] at hstep

end Services

end SystemsProgramming
