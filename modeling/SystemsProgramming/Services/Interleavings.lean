/-
Every run of the processes against the tree model.  Whatever the order of the turns, the
processes carry the script out as `commands` does.
-/
import SystemsProgramming.Services.Serving
import SystemsProgramming.Services.Shutdown
import SystemsProgramming.Services.Kill

namespace SystemsProgramming

namespace Services

variable {s s' : State} {turn : Turn} {m : Manager} {r : Option Manager} {out : List Said}

def Party.word : Party → Word
  | manager => Word.manager
  | service name => name.word

/-- The command in the script; the garbage is what `malloc` returns later. -/
def Command.request : Command → Request
  | spawn parent child _ => .spawn parent.word child
  | kill target => .kill target.word
  | exchange one other => .exchange one.word other.word

/-- The script of the processes for the commands of the tree model. -/
def scriptOf (cmds : List (Command × Buffers)) : List (Request × Buffers) :=
  cmds.map fun action => (action.1.request, action.2)

theorem Party.chars_word (party : Party) : party.word.chars = party.chars := by
  cases party with
  | manager => rfl
  | service name => rfl

theorem Party.manager_iff (party : Party) : party.word.chars = managerName ↔ party = manager := by
  rw [chars_word]
  cases party with
  | manager => simp [chars]
  | service name => simpa [chars] using name.notManager

theorem Command.said_received (command : Command) :
    command.received.said = .received managerName command.request.text := by
  cases command <;> simp [received, request, Line.said, Party.chars, Message.text, Request.text,
    Party.chars_word, Name.word]

namespace State

theorem str_obey (P : Proc) (request : Request) : (obey P request).str = P.str := by
  cases request with
  | spawn =>
      simp only [obey]
      split <;> rfl
  | kill =>
      simp only [obey]
      split <;> rfl
  | exchange => rfl

/-- The Manager with a command that it passes on: the messages are written. -/
theorem obey_passed (P : Proc) {command : Command} (hpassed : command.Passed) :
    (obey P command.request).control = .walk command.first.job P.children ∧
      outgoing 0 (obey P command.request) command.first.job = command.first.text ++ [nul] ∧
      ∀ want, command.first = .find want →
        outgoing 0 (obey P command.request) .kill = killText want.chars ++ [nul] := by
  have hstring : ∀ i : Instruction, cString (i.text ++ [nul]) = i.text := fun i => i.cString_text []
  cases command with
  | spawn parent child garbage =>
      have hother : ¬ parent.word.chars = managerName :=
        fun hmanager => hpassed (parent.manager_iff.mp hmanager)
      simp only [Command.request, obey, if_neg hother]
      simp only [parent.chars_word]
      refine ⟨rfl, congrArg (· ++ [nul]) (hstring (.spawn parent child garbage)), ?_⟩
      intro want hfind
      cases hfind
  | kill target =>
      have hother : ¬ target.word.chars = managerName := target.notManager
      simp only [Command.request, obey, if_neg hother]
      refine ⟨rfl, congrArg (· ++ [nul]) (hstring (.find target)), ?_⟩
      intro want hfind
      cases hfind
      exact congrArg (· ++ [nul]) (hstring (.kill target))
  | exchange one other =>
      simp only [Command.request, obey, one.chars_word, other.chars_word]
      refine ⟨rfl, congrArg (· ++ [nul]) (hstring (.exchange one other)), ?_⟩
      intro want hfind
      cases hfind

/-- The Manager reads a command of the script. -/
theorem Shows.command (h : Inv s) (hmove : Move s turn s') (hshows : s.Shows m)
    (hturn : turn.pid = 0) {command : Command} {bufs : Buffers} {rest : List (Request × Buffers)}
    (hscript : s.script = (command.request, bufs) :: rest) :
    s'.script = rest ∧ s'.Serves (m.output.map Line.said ++ s.prints turn)
      (commands.step m (command, bufs)) := by
  obtain ⟨request, bufs', rest', hscript', hs'⟩ := hmove.command_of_loop hturn hshows.control
  rw [hscript] at hscript'
  obtain ⟨heq, rfl⟩ := List.cons.inj hscript'
  obtain ⟨rfl, rfl⟩ := Prod.mk.inj heq
  have hout : m.output.map Line.said ++ s.prints turn =
      ((m.load bufs).print [command.received]).output.map Line.said := by
    have hprints : s.prints turn = [command.received.said] := by
      simp [prints, hturn, hshows.control, hscript, command.said_received]
    simp [hprints, Manager.print, Manager.load]
  have hproc : s'.procs 0 = obey ((s.procs 0).load bufs) command.request := by
    rw [hs']
    exact procs_setProc_self s 0 _
  have hchildren : (s'.procs 0).children = (s.procs 0).children := by
    rw [hproc]
    exact (obey_load_same _ _ _).children
  have hroot : s'.Stands (s'.procs 0).children ((m.load bufs).print [command.received]).root := by
    rw [hchildren]
    have hstands : s.Stands (s.procs turn.pid).children m.root := by
      rw [hturn]
      exact hshows.stands
    rw [← hturn]
    apply hstands.move_self h hmove (List.Subset.refl _)
    intro c _
    rw [hs']
    rfl
  have hstr : (s'.procs 0).str = ((m.load bufs).print [command.received]).buf := by
    rw [hproc, str_obey]
    exact (m.buf_load bufs).symm
  refine ⟨by rw [hs'], ?_⟩
  rw [hout]
  by_cases hpassed : command.Passed
  · obtain ⟨hcontrol, htext, hkill⟩ := obey_passed ((s.procs 0).load bufs) hpassed
    have hbegun : (s'.procs 0).control =
        .walk command.first.job (s'.procs 0).children := by
      rw [hchildren, hproc]
      exact hcontrol
    rw [← hproc] at htext hkill
    have hwalk := Comes.begin hbegun htext hroot
    have hpassing := Serves.passing hwalk hkill (fun job _ => by rw [hstr])
    rw [hstr] at hpassing
    have hstep := (m.load bufs).step_eq hpassed
    change s'.Serves _ ((m.load bufs).step command)
    rw [hstep]
    exact hpassing
  · cases command with
    | spawn parent child garbage =>
        have hparent : parent = .manager := Classical.not_not.mp hpassed
        subst hparent
        have hforking : (s'.procs 0).control = .forking child.chars := by
          rw [hproc]
          rfl
        exact Serves.forking garbage hforking hroot hstr
    | kill | exchange => exact absurd trivial hpassed

/-- At the loop of the Manager no command is at hand. -/
theorem Serves.shows (hserves : s.Serves out r) (hcontrol : (s.procs 0).control = .loop) :
    ∃ m, r = some m ∧ s.Shows m ∧ out = m.output.map Line.said := by
  cases hserves with
  | idle hshows => exact ⟨_, rfl, hshows, rfl⟩
  | forking _ hforking =>
      rw [hcontrol] at hforking
      cases hforking
  | greeting hgreeting =>
      rw [hcontrol] at hgreeting
      cases hgreeting
  | passing hcomes =>
      have hpasses := hcomes.passes
      rw [hcontrol] at hpasses
      cases hpasses

/-- What has been printed is a beginning of what will have been printed behind the command. -/
theorem Serves.printed (hserves : s.Serves out (some m)) : out <+: m.output.map Line.said := by
  generalize hr : some m = r at hserves
  cases hserves with
  | idle | greeting =>
      obtain rfl := Option.some.inj hr
      exact List.prefix_refl _
  | forking =>
      obtain rfl := Option.some.inj hr
      exact List.prefix_refl _
  | @passing m' i path o _ _ _ =>
      have hput : ∀ (m : Manager) (i : Instruction) (course : Course),
          m.output <+: (m.put i course).output := by
        intro m i course
        rw [Manager.put, List.append_assoc]
        exact List.prefix_append _ _
      have hproceed : ∀ course, m'.proceed i course = some m → m'.output <+: m.output := by
        intro course hcourse
        cases i with
        | find want =>
            simp only [Manager.proceed] at hcourse
            split at hcourse
            · obtain ⟨course', -, rfl⟩ := Option.map_eq_some_iff.mp hcourse
              exact (hput _ _ _).trans (hput _ _ _)
            · obtain rfl := Option.some.inj hcourse
              exact hput _ _ _
        | spawn | exchange | kill =>
            obtain rfl := Option.some.inj hcourse
            exact hput _ _ _
      obtain ⟨course, -, hcourse⟩ := Option.bind_eq_some_iff.mp hr.symm
      exact (hproceed course hcourse).map _

theorem Serves.not_waiting (hserves : s.Serves out r) {ending : Ending} {next : List Nat} :
    (s.procs 0).control ≠ .waiting ending next := by
  intro hwaiting
  cases hserves with
  | idle hshows =>
      rw [hshows.control] at hwaiting
      cases hwaiting
  | forking _ hcontrol | greeting hcontrol =>
      rw [hcontrol] at hwaiting
      cases hwaiting
  | passing hcomes =>
      have hpasses := hcomes.passes
      rw [hwaiting] at hpasses
      cases hpasses

/-- The script is carried out up to a command, and this much has been printed. -/
structure Carries (s : State) (m : Manager) (cmds : List (Command × Buffers))
    (out : List Said) : Prop where
  coherent : s.Coherent
  serves : ∃ done rest, cmds = done ++ rest ∧ s.script = scriptOf rest ∧
    s.Serves out (commands.run m done)

theorem Carries.move {cmds : List (Command × Buffers)} (hcarries : s.Carries m cmds out)
    (hok : s.Greeted turn)
    (hmove : Move s turn s') : s'.Carries m cmds (out ++ s.prints turn) := by
  obtain ⟨h, done, rest, hcmds, hscript, hserves⟩ := hcarries
  refine ⟨h.move hok (fun _ _ => hserves.not_waiting) hmove, ?_⟩
  by_cases hcommand : turn.pid = 0 ∧ (s.procs 0).control = .loop
  · obtain ⟨m', hrun, hshows, rfl⟩ := hserves.shows hcommand.2
    obtain ⟨request, bufs, rest', hread, -⟩ := hmove.command_of_loop hcommand.1 hcommand.2
    rw [hscript] at hread
    obtain ⟨action, rest, rfl, -, rfl⟩ := List.map_eq_cons_iff.mp hread
    obtain ⟨hscript', hserves'⟩ := hshows.command h.inv hmove hcommand.1 hscript
    refine ⟨done ++ [action], rest, by simp [hcmds], hscript', ?_⟩
    have hnext : commands.run m (done ++ [action]) = commands.step m' action := by
      rw [TransitionSystem.run_append, hrun, Option.bind_some]
      exact Option.bind_fun_some _
    rwa [hnext]
  · have hnot : turn.pid = 0 → (s.procs 0).control ≠ .loop :=
      fun hzero hloop => hcommand ⟨hzero, hloop⟩
    exact ⟨done, rest, hcmds, (hmove.script hnot).trans hscript, hserves.move h hok hmove hnot⟩

/-! The same where greetings are still to be read. -/

theorem prints_caughtUp (hgreet : (s.procs turn.pid).control ≠ .greet) :
    s.caughtUp.prints turn = s.prints turn := by
  have hprocs := procs_caughtUp (not_early hgreet)
  have hlinks := links_caughtUp (not_early hgreet)
  have hscript : s.caughtUp.script = s.script := rfl
  have hrep : ∀ c, (s.caughtUp.links c).rep = (s.links c).rep :=
    fun c => (s.seen_caughtUp c).2.2.2.1
  unfold prints
  simp only [hprocs, hlinks, hscript, hrep]

theorem Stands.of_caughtUp {cs : List Nat} {l : Nodes} (hstands : s.caughtUp.Stands cs l) :
    s.Stands cs l := by
  induction hstands with
  | nil => exact .nil
  | @cons c next node root rest hnode hstill hroot _ ihroot ihnext =>
      have hsame := s.family_caughtUp c
      rw [hsame.children] at ihroot
      refine .cons ⟨?_, ?_, ?_⟩ ?_ ihroot ihnext
      · rw [hnode.name, hsame.name]
      · rw [hnode.haveKilled, (s.seen_caughtUp c).1]
      · rw [hnode.exited]
        exact gone_caughtUp
      · by_cases hearly : s.Early c
        · exact .inl hearly.1
        · exact hstill.congr (procs_caughtUp hearly).symm (by rw [links_caughtUp hearly])

end State

theorem Follows.carries {cmds : List (Command × Buffers)} (hfollows : Follows s turn s')
    (hcarries : s.caughtUp.Carries m cmds out) :
    s'.caughtUp.Carries m cmds (out ++ s.prints turn) := by
  have h := hcarries.coherent.inv
  cases hfollows with
  | read hearly hsame =>
      have hprints : s.prints turn = [] := by simp [State.prints, hearly.1]
      rwa [hprints, List.append_nil, hsame]
  | same hgreet hmove =>
      rw [← State.prints_caughtUp hgreet]
      exact hcarries.move (h.greeted turn) hmove
  | @greeting t child hcontrol hmove hpos hgreet hread =>
      have hprints : s.prints turn = [] := by simp [State.prints, hcontrol]
      have hmid := hcarries.move (h.greeted turn) hmove
      rw [State.prints_caughtUp (by simp [hcontrol]), hprints, List.append_nil] at hmid
      have hlast := hmid.move (State.greeted_of_greet hgreet) hread
      have hsilent : t.prints ⟨child, 0, []⟩ = [] := by simp [State.prints, hgreet]
      rw [hsilent, List.append_nil] at hlast
      rwa [hprints, List.append_nil]

/-- The tree model starts with what is in the buffers of the Manager. -/
structure Starts (s : State) (m : Manager) (cmds : List (Command × Buffers)) : Prop where
  start : messages.start s
  script : s.script = scriptOf cmds
  empty : commands.start m
  str : m.buf = (s.procs 0).str

namespace Starts

variable {cmds : List (Command × Buffers)}

theorem carries (h : Starts s m cmds) : s.caughtUp.Carries m cmds [] := by
  have hinv := Inv.start h.start
  rw [State.caughtUp_of_read (Sound.greeted_start h.start)]
  refine ⟨⟨hinv, Tidy.start h.start, Fates.start h.start, Accounts.start h.start⟩,
    [], cmds, rfl, h.script, ?_⟩
  obtain ⟨-, -, hcontrol, hchildren, -⟩ := h.start
  obtain ⟨hroot, -, houtput⟩ := h.empty
  have hidle : s.Serves (m.output.map Line.said) (some m) := by
    refine .idle ⟨hcontrol, ?_, h.str.symm⟩
    rw [hchildren, hroot]
    exact .nil
  rwa [houtput] at hidle

theorem run {turns : List Turn} {t : State} (h : Starts s m cmds)
    (hrun : messages.run s turns = some t) :
    Sound t ∧ t.caughtUp.Carries m cmds (messages.trace State.prints s turns) := by
  apply TransitionSystem.trace_invariant State.prints
    (fun state out => Sound state ∧ state.caughtUp.Carries m cmds out)
    _ ⟨Sound.start h.start, h.carries⟩ (TransitionSystem.meets_true s turns) hrun
  rintro state turn next out ⟨hsound, hcarries⟩ - hstep
  exact ⟨hsound.step hstep, (hsound.follows hstep).carries hcarries⟩

end Starts

/-- In every order of turns, and whatever bytes the commands find in the reply buffers, the
processes carry out the script as the tree model does: whenever the Manager is at its loop, the
tree model has come to a Manager that the processes stand for, and the lines on the output are
those of this Manager.  Within a command they are a beginning of the lines that the tree model
will have printed. -/
theorem messages_refine_commands {cmds : List (Command × Buffers)} {turns : List Turn} {t : State}
    (h : Starts s m cmds) (hrun : messages.run s turns = some t) :
    ∃ done rest, cmds = done ++ rest ∧ t.script = scriptOf rest ∧
      ((t.procs 0).control = .loop → ∃ m', commands.run m done = some m' ∧ t.Shows m' ∧
        messages.trace State.prints s turns = m'.output.map Line.said) ∧
      ∀ m', commands.run m done = some m' →
        messages.trace State.prints s turns <+: m'.output.map Line.said := by
  obtain ⟨hsound, -, done, rest, hcmds, hscript, hserves⟩ := h.run hrun
  refine ⟨done, rest, hcmds, hscript, ?_, ?_⟩
  · intro hcontrol
    rw [← hsound.manager] at hcontrol
    obtain ⟨m', hm', hshows, hout⟩ := hserves.shows hcontrol
    refine ⟨m', hm', ?_, hout⟩
    have hstands := hshows.stands.of_caughtUp
    have hstr := hshows.str
    rw [hsound.manager] at hcontrol hstands hstr
    exact ⟨hcontrol, hstands, hstr⟩
  · intro m' hm'
    rw [hm'] at hserves
    exact hserves.printed

/-- `spawn Manager P`, `spawn P Q`, `exchange P Q` and `kill P`. -/
def family : List (Command × Buffers) := onZeroed
  [.spawn .manager nameP 0, .spawn (.service nameP) nameQ 0,
   .exchange (.service nameP) (.service nameQ), .kill nameP]

theorem starts_lone (cmds : List (Command × Buffers)) :
    Starts (.lone (scriptOf cmds)) Manager.fresh cmds := by
  refine ⟨start_lone _, rfl, ⟨rfl, rfl, rfl⟩, ?_⟩
  funext job
  cases job <;> rfl

/-- A run of the whole script; the last `wait` of `P` returns `Q`. -/
def familyTurns : List Turn :=
  turnsOf [0, 0, 0, 1, 0, 0, 1, 1, 1, 2, 1, 0, 0, 0, 1, 1, 2, 2, 1, 1, 0, 0, 0, 1, 1, 0, 0, 1, 1,
    2, 2] ++ ⟨1, 2, []⟩ :: turnsOf [1, 1, 0]

theorem messages_refine_commands_family :
    ∃ t m, messages.run (.lone (scriptOf family)) familyTurns = some t ∧
      commands.run Manager.fresh family = some m ∧ t.Shows m ∧
      messages.trace State.prints (.lone (scriptOf family)) familyTurns =
        m.output.map Line.said := by
  have hfacts : (messages.run (.lone (scriptOf family)) familyTurns).map
      (fun t => ((t.procs 0).control, t.script.length)) = some (.loop, 0) := by decide
  obtain ⟨t, hrun, ht⟩ := Option.map_eq_some_iff.mp hfacts
  simp only [Prod.mk.injEq] at ht
  obtain ⟨done, rest, hcmds, hscript, hloop, -⟩ :=
    messages_refine_commands (starts_lone family) hrun
  obtain ⟨m, hm, hshows, htrace⟩ := hloop ht.1
  have hnil : rest = [] := by
    apply List.map_eq_nil_iff.mp
    exact hscript.symm.trans (List.length_eq_zero_iff.mp ht.2)
  rw [hnil, List.append_nil] at hcmds
  exact ⟨t, m, hrun, by rw [hcmds, hm], hshows, htrace⟩

end Services

end SystemsProgramming
