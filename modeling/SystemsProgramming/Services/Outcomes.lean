/-
The commands come to an end.  The processes can go on as long as the tree model does not wait
for ever, and no order of turns puts the end off.
-/
import SystemsProgramming.Services.Interleavings
import SystemsProgramming.Services.SafeRuns

namespace SystemsProgramming

namespace Services

variable {s s' : State} {turn : Turn} {i : Instruction} {p c : Nat} {cs path : List Nat}
  {l : Nodes} {m : Manager} {out : List Said}

namespace State

/-- Where nobody is waited for in vain, a service of the list has left its loop, or is at a
`read`, or is on its way out. -/
theorem Fades.member (hfades : s.Fades cs l) (hdies : l.dies = true) (hc : c ∈ cs) :
    (s.procs c).control.Gone ∨
      ((s.procs c).control.Rests ∧ (s.links c).haveKilled = false) ∨
      ∃ tmp root, Ends .dead tmp (s.procs c).control ∧ s.Fades (s.procs c).children root ∧
        root.dies = true := by
  induction hfades with
  | nil => cases hc
  | @marked d next node root rest hmark hnode _ _ _ ihnext =>
      rw [Nodes.dies_marked hmark, Bool.and_eq_true] at hdies
      rcases List.mem_cons.mp hc with rfl | hc
      · exact .inl (hnode.exited.mp hdies.1)
      · exact ihnext hdies.2 hc
  | @alive d next node root rest hnode hrests _ _ ihnext =>
      rw [Nodes.dies_unmarked (by simp [hnode.unmarked]), Bool.and_eq_true] at hdies
      rcases List.mem_cons.mp hc with rfl | hc
      · exact .inr (.inl ⟨hrests, hnode.still⟩)
      · exact ihnext hdies.2 hc
  | @parting d next tmp node root rest hnode hparting hroot _ _ ihnext =>
      rw [Nodes.dies_unmarked (by simp [hnode.unmarked]), Bool.and_eq_true] at hdies
      rcases List.mem_cons.mp hc with rfl | hc
      · exact .inr (.inr ⟨tmp, root, hparting, hroot, hdies.1⟩)
      · exact ihnext hdies.2 hc
  | @gone d next node root rest hnode hgone _ _ _ ihnext =>
      rw [Nodes.dies_unmarked (by simp [hnode.unmarked]), Bool.and_eq_true] at hdies
      rcases List.mem_cons.mp hc with rfl | hc
      · exact .inl (Control.gone_iff.mpr (.inr hgone))
      · exact ihnext hdies.2 hc

/-- A process at work that nothing keeps from its end: it comes to a course, or it leaves with a
tree below it that dies. -/
def Promising (s : State) (p : Nat) : Prop :=
  (∃ i path course, s.Comes i p path (some course)) ∨
    ∃ ending tmp l, Ends ending tmp (s.procs p).control ∧ s.Fades (s.procs p).children l ∧
      l.dies = true

theorem Promising.await (hpromising : s.Promising p) {job : Job} {next : List Nat}
    (hcontrol : (s.procs p).control = .await job c next) : s.Promising c := by
  rcases hpromising with ⟨i, path, course, hcomes⟩ | ⟨ending, tmp, l, hk, -⟩
  · generalize ho : some course = o at hcomes
    cases hcomes with
    | @await _ c' _ _ path _ left node o hawait _ _ _ _ _ _ _ hchild =>
        rw [hcontrol] at hawait
        cases hawait
        obtain ⟨course', hcourse', -⟩ := Option.map_eq_some_iff.mp ho.symm
        obtain ⟨child, rfl, -⟩ := Option.bind_eq_some_iff.mp hcourse'
        exact .inl ⟨i, path, child, hchild⟩
    | asked _ hother | forking _ _ hother | greeting _ hother | walk hother | reply _ hother =>
        rw [hcontrol] at hother
        cases hother
    | answered _ hother =>
        rw [hcontrol] at hother
        exact hother.loop_or_gone.elim (fun hloop => by cases hloop) False.elim
    | dying _ _ hk =>
        rcases hk with hk | hk <;>
          · rw [hcontrol] at hk
            cases hk
  · rcases hk with hk | hk <;>
      · rw [hcontrol] at hk
        cases hk

theorem Promising.fades (hpromising : s.Promising p) {ending : Ending} {next : List Nat}
    (hcontrol : (s.procs p).control = .waiting ending next) :
    ∃ l, s.Fades (s.procs p).children l ∧ l.dies = true := by
  rcases hpromising with ⟨i, path, course, hcomes⟩ | ⟨-, -, l, -, hroot, hdies⟩
  · generalize ho : some course = o at hcomes
    cases hcomes with
    | @dying _ _ _ _ _ root _ _ _ hroot =>
        refine ⟨root, hroot, ?_⟩
        by_contra hnot
        rw [if_neg hnot] at ho
        cases ho
    | asked _ hother | forking _ _ hother | greeting _ hother | walk hother | await hother
    | reply _ hother =>
        rw [hcontrol] at hother
        cases hother
    | answered _ hother =>
        rw [hcontrol] at hother
        exact hother.loop_or_gone.elim (fun hloop => by cases hloop) False.elim
  · exact ⟨l, hroot, hdies⟩

/-- Such a process can go on, or one that it waits for. -/
theorem Promising.exists_turn (h : s.Coherent) (hp : p < s.count) (hpromising : s.Promising p)
    (hbusy : ¬ (s.procs p).control.Rests) (hexited : (s.procs p).control ≠ .exited) :
    ∃ turn s', s.step turn = some s' := by
  apply h.inv.exists_turn (Q := s.Promising) _ _ hp hpromising hbusy hexited
  · intro q job c next hq hcontrol
    exact hq.await hcontrol
  · intro q ending next hq hlt hcontrol
    obtain ⟨l, hroot, hdies⟩ := hq.fades hcontrol
    obtain ⟨c, hc, -, hclosed, hunreaped⟩ := (h.accounts q hlt).exists_due hcontrol
    obtain ⟨hpos, hltc, hparent, -, -⟩ := h.inv.child hlt hc
    rcases hroot.member hdies hc with hgone | ⟨hrests, hunmarked⟩ | ⟨tmp, root, hk, hbelow, hdies'⟩
    · left
      rcases Control.gone_iff.mp hgone with hreturning | hexited
      · exact ⟨⟨c, 0, []⟩, by simp [step, hreturning]⟩
      · exact ⟨⟨q, c, []⟩, by simp [step, wait, hcontrol, hc, hexited, hunreaped]⟩
    · left
      rcases (h.fates c hpos hltc).told hclosed hunmarked with ⟨hloop, hcmd⟩ | hparting
      · refine ⟨⟨c, 0, []⟩, ?_⟩
        simp [step, hloop, hcmd, Nat.ne_of_gt hpos]
      · exact absurd hrests hparting.not_rests
    · right
      refine ⟨c, hparent ▸ h.inv.older c hpos hltc, hltc, .inr ⟨.dead, tmp, root, hk, hbelow,
        hdies'⟩, hk.not_rests, ?_⟩
      rintro hgone
      rw [hgone] at hk
      rcases hk with hk | hk <;> cases hk

/-- Until the Manager is back at its loop a process can go on, if the tree model gets there. -/
theorem Serves.exists_turn (h : s.Coherent) (hserves : s.Serves out (some m))
    (hmore : (s.procs 0).control = .loop → s.script ≠ []) : ∃ turn s', s.step turn = some s' := by
  generalize hr : some m = r at hserves
  cases hserves with
  | idle hshows =>
      refine ⟨⟨0, 0, []⟩, ?_⟩
      cases hscript : s.script with
      | nil => exact absurd hscript (hmore hshows.control)
      | cons action rest => simp [step, hshows.control, nextCommand, hscript]
  | forking _ hcontrol | greeting hcontrol =>
      refine ⟨⟨0, 0, []⟩, ?_⟩
      simp [step, hcontrol]
  | @passing _ i path o hcomes _ _ =>
      obtain ⟨course, rfl, -⟩ := Option.bind_eq_some_iff.mp hr.symm
      have hpasses := hcomes.passes
      apply Promising.exists_turn h h.inv.born (.inl ⟨i, path, course, hcomes⟩)
      · intro hrests
        rcases Control.rests_iff.mp hrests with hk | hk <;>
          · rw [hk] at hpasses
            cases hpasses
      · intro hexited
        rw [hexited] at hpasses
        cases hpasses

theorem Serves.manages {r : Option Manager} (hserves : s.Serves out r) :
    (s.procs 0).control.Manages := by
  cases hserves with
  | idle hshows =>
      rw [hshows.control]
      trivial
  | forking _ hcontrol | greeting hcontrol =>
      rw [hcontrol]
      trivial
  | passing hcomes =>
      have hpasses := hcomes.passes
      cases hcontrol : (s.procs 0).control with
      | walk | await => trivial
      | greet | loop | forking | greeting | reply | dying | waiting | returning | exited =>
          rw [hcontrol] at hpasses
          cases hpasses

end State

/-- Every turn takes the script on, spends some of what is left, or reads a greeting. -/
theorem Follows.spends_left (h : Inv s.caughtUp) (htidy : Tidy s.caughtUp)
    (hmanages : (s.caughtUp.procs 0).control.Manages) (hfollows : Follows s turn s') :
    (s.procs turn.pid).control = .greet ∧ s'.caughtUp = s.caughtUp ∨
      s'.caughtUp.left < s.caughtUp.left := by
  cases hfollows with
  | read hearly hsame => exact .inl ⟨hearly.1, hsame⟩
  | same _ hmove => exact .inr (hmove.left_lt h htidy hmanages)
  | @greeting t child _ hmove _ _ hread =>
      right
      have ht := h.move_kept (h.greeted turn) hmove
      have hless := hread.left_lt ht (htidy.move_kept h hmove) (hmanages.move h hmove).1
      exact hless.trans (hmove.left_lt h htidy hmanages)

/-- The script has been read, and its last command is done. -/
def State.Finished (s : State) : Prop := s.script = [] ∧ (s.procs 0).control = .loop

/-- From every state of every run: all orders of turns come to the end of the script exactly if
the tree model does.  Where a command of it waits for ever, no order of turns comes to the end. -/
theorem inevitable_iff_commands_run {cmds : List (Command × Buffers)} {turns : List Turn}
    {t : State} (h : Starts s m cmds) (hrun : messages.run s turns = some t) :
    messages.Inevitable (fun _ _ => True) State.Finished t ↔
      ∃ m', commands.run m cmds = some m' := by
  constructor
  · intro hinevitable
    obtain ⟨more, last, -, hmore, hscript, hcontrol⟩ := hinevitable.exists_run fun _ _ => id
    have hwhole : messages.run s (turns ++ more) = some last := by
      rw [TransitionSystem.run_append, hrun, Option.bind_some, hmore]
    obtain ⟨hsound, -, done, rest, rfl, hrest, hserves⟩ := h.run hwhole
    rw [← hsound.manager] at hcontrol
    obtain ⟨m', hm', -, -⟩ := hserves.shows hcontrol
    have hnil : scriptOf rest = [] := hrest.symm.trans hscript
    rw [List.map_eq_nil_iff.mp hnil, List.append_nil]
    exact ⟨m', hm'⟩
  · rintro ⟨m', hm'⟩
    obtain ⟨hsound, hcarries⟩ := h.run hrun
    apply TransitionSystem.inevitable_of_measure
      (fun u => Sound u ∧ ∃ out, u.caughtUp.Carries m cmds out)
      (fun u => toLex (u.caughtUp.left, u.greeters)) _ _ ⟨hsound, _, hcarries⟩
    · rintro u ⟨hsound, out, hcoherent, done, rest, rfl, hrest, hserves⟩ hgoal
      rw [TransitionSystem.run_append] at hm'
      obtain ⟨m'', hm'', -⟩ := Option.bind_eq_some_iff.mp hm'
      rw [hm''] at hserves
      have hmore : (u.caughtUp.procs 0).control = .loop → u.caughtUp.script ≠ [] := by
        intro hcontrol hscript
        rw [hsound.manager] at hcontrol
        exact hgoal ⟨hscript, hcontrol⟩
      obtain ⟨turn, v, hstep⟩ := hserves.exists_turn hcoherent hmore
      exact ⟨turn, hsound.enabled hstep⟩
    · rintro u turn u' ⟨hsound, out, hcarries⟩ - - hstep
      right
      have hfollows := hsound.follows hstep
      refine ⟨⟨hsound.step hstep, _, hfollows.carries hcarries⟩, ?_⟩
      obtain ⟨hcoherent, _, _, -, -, hserves⟩ := hcarries
      rw [Prod.Lex.toLex_lt_toLex]
      rcases hfollows.spends_left hsound.inv hcoherent.tidy hserves.manages with
        ⟨hgreet, hsame⟩ | hless
      · right
        exact ⟨congrArg State.left hsame,
          State.greeters_lt (hsound.lt_count (by simp [hgreet])) hgreet hstep⟩
      · exact .inl hless

/-- `kill X` makes `A` mark `B`, which is alive, so that `kill A` waits for ever. -/
def endless : List (Command × Buffers) :=
  chainOfThree ++ onZeroed [.kill nameX, .kill nameA]

theorem inevitable_iff_commands_run_endless :
    messages.Inevitable (fun _ _ => True) State.Finished
      (.lone (scriptOf family)) ∧
    ¬ messages.Inevitable (fun _ _ => True) State.Finished
      (.lone (scriptOf endless)) := by
  have hrun : ∀ cmds : List (Command × Buffers), messages.run (.lone (scriptOf cmds)) [] =
      some (.lone (scriptOf cmds)) := fun _ => rfl
  constructor
  · exact (inevitable_iff_commands_run (starts_lone family) (hrun family)).mpr ⟨_, rfl⟩
  · intro hinevitable
    obtain ⟨m, hm⟩ :=
      (inevitable_iff_commands_run (starts_lone endless) (hrun endless)).mp hinevitable
    have hnone : (commands.run Manager.fresh endless).isNone = true := by decide
    rw [hm] at hnone
    cases hnone

end Services

end SystemsProgramming
