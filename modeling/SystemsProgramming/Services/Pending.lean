/-
What the processes will come to.  From where they stand in the middle of an instruction the
answer that each of them will give is read off the tree, and no turn changes it.
-/
import SystemsProgramming.Services.Fading
import SystemsProgramming.Services.Output

namespace SystemsProgramming

namespace Services

variable {s s' : State} {turn : Turn} {i : Instruction} {p c : Nat} {path next : List Nat}
  {o : Option Course}

namespace State

/-- The process `p` has the instruction in hand, the processes of the path wait for one another
down to the one at work, and in the end `p` comes to this course.  What a service has heard last
does not matter when it has answered. -/
inductive Comes (s : State) (i : Instruction) : Nat → List Nat → Option Course → Prop
  | asked {p : Nat} {name : Name} {root : Nodes} (hpos : 0 < p)
      (hcontrol : (s.procs p).control = .loop) (hcmd : (s.links p).cmd = i.text ++ [nul])
      (hname : name.chars = (s.procs p).name) (hroot : s.Stands (s.procs p).children root) :
      Comes s i p [p] (i.answer name root (i.loop 1 haha root))
  | forking {p : Nat} {parent : Party} {child : Name} {garbage num : Int} {buf : Buffer}
      {root : Nodes} (hpos : 0 < p) (hi : i = .spawn parent child garbage)
      (hcontrol : (s.procs p).control = .forking child.chars)
      (hroot : s.Stands (s.procs p).children root) :
      Comes s i p [p] (some ⟨.yes, num, buf, root.createService child garbage, []⟩)
  | greeting {p c : Nat} {num : Int} {buf : Buffer} {root : Nodes} (hpos : 0 < p)
      (hcontrol : (s.procs p).control = .greeting c)
      (hroot : s.Stands (s.procs p).children root) :
      Comes s i p [p] (some ⟨.yes, num, buf, root, []⟩)
  | walk {p : Nat} {done tmp : List Nat} {passed left : Nodes}
      (hcontrol : (s.procs p).control = .walk i.job tmp)
      (hsplit : (s.procs p).children = done ++ tmp)
      (htext : outgoing p (s.procs p) i.job = i.text ++ [nul])
      (hdone : s.Stands done passed) (htmp : s.Stands tmp left) :
      Comes s i p [p] ((i.loop p ((s.procs p).str i.job) left).map (Course.behind passed))
  | await {p c : Nat} {done next path : List Nat} {passed left : Nodes} {node : Node}
      {o : Option Course} (hcontrol : (s.procs p).control = .await i.job c next)
      (hsplit : (s.procs p).children = done ++ c :: next)
      (htext : outgoing p (s.procs p) i.job = i.text ++ [nul])
      (hdone : s.Stands done passed) (hnext : s.Stands next left)
      (hname : node.name.chars = (s.procs c).name) (hmark : node.haveKilled = false)
      (halive : node.exited = false) (hchild : Comes s i c path o) :
      Comes s i p (p :: path)
        ((o.bind (i.resume p ((s.procs p).str i.job) node left)).map (Course.behind passed))
  | reply {p : Nat} {message : Reply} {num : Int} {buf : Buffer} {root : Nodes} (hpos : 0 < p)
      (hcontrol : (s.procs p).control = .reply message)
      (hroot : s.Stands (s.procs p).children root) :
      Comes s i p [p] (some ⟨message, num, buf, root, []⟩)
  | answered {p : Nat} {message : Reply} {num : Int} {buf : Buffer} {root : Nodes} (hpos : 0 < p)
      (hcontrol : (s.procs p).control.Replied message)
      (hrep : (s.links p).rep = message.bytes)
      (hroot : s.Stands (s.procs p).children root) :
      Comes s i p [p] (some ⟨message, num, buf, root, []⟩)
  | dying {p : Nat} {tmp : List Nat} {want : Name} {num : Int} {buf : Buffer} {root : Nodes}
      (hpos : 0 < p) (hi : i = .kill want) (hk : Ends .target tmp (s.procs p).control)
      (hroot : s.Fades (s.procs p).children root) :
      Comes s i p [p] (if root.dies = true then some ⟨.yesn, num, buf, root.bury, []⟩ else none)

/-- The whole list is ahead of a walk that begins. -/
theorem Comes.begin {root : Nodes}
    (hcontrol : (s.procs p).control = .walk i.job (s.procs p).children)
    (htext : outgoing p (s.procs p) i.job = i.text ++ [nul])
    (hroot : s.Stands (s.procs p).children root) :
    s.Comes i p [p] (i.loop p ((s.procs p).str i.job) root) := by
  have hwalk := Comes.walk hcontrol (List.nil_append _).symm htext .nil hroot
  have hbehind : Course.behind .nil = id := by
    funext course
    rfl
  rwa [hbehind, Option.map_id_fun, id] at hwalk

/-- The process `p` comes to the same course behind the lines that are printed now. -/
def Goes (s s' : State) (turn : Turn) (i : Instruction) (p : Nat) (o : Option Course) : Prop :=
  ∃ path o' lines, s'.Comes i p path o' ∧ o = o'.map (Course.following lines) ∧
    lines.map Line.said = s.prints turn

/-- Where nothing is printed. -/
theorem Goes.of_silent {path : List Nat} (hprints : s.prints turn = [])
    (hcomes : s'.Comes i p path o) : s.Goes s' turn i p o :=
  ⟨path, o, [], hcomes, by simp, by simp [hprints]⟩

/-- What holds of the processes in every run, where all greetings are read. -/
structure Coherent (s : State) : Prop where
  inv : Inv s
  tidy : Tidy s
  fates : Services.Fates s
  accounts : Accounts s

theorem Coherent.move (h : s.Coherent) (hok : s.Greeted turn)
    (hmanager : ∀ ending next, (s.procs 0).control ≠ .waiting ending next)
    (hmove : Move s turn s') : s'.Coherent where
  inv := h.inv.move_kept hok hmove
  tidy := h.tidy.move_kept h.inv hmove
  fates := h.fates.move_kept h.inv hok hmove
  accounts := by
    apply h.accounts.move_kept h.inv h.tidy _ hmove
    intro ending next hcontrol _ _ _
    apply Account.due_of_ne
    intro hzero
    rw [hzero] at hcontrol
    exact hmanager ending next hcontrol

end State

/-! The turn of a process, by its place. -/

namespace Move

theorem of_loop (hmove : Move s turn s') (hpos : 0 < turn.pid)
    (hcontrol : (s.procs turn.pid).control = .loop) : (s.links turn.pid).cmd ≠ [] ∧
      s' = (s.setLink turn.pid (s.links turn.pid).take).setProc turn.pid
        ((s.procs turn.pid).receive ((s.links turn.pid).cmd.take 512)) := by
  cases hmove with
  | receive _ _ hcmd => exact ⟨hcmd, rfl⟩
  | command hzero => exact absurd hzero (Nat.ne_of_gt hpos)
  | greet hk | fork hk | greeting hk | walkEnd hk | walkSkip hk | walkSend hk | hear hk
  | answer hk | dyingEnd hk | dyingSkip hk | tell hk | tellNobody hk | reap hk | waitNobody hk
  | exit hk =>
      rw [hcontrol] at hk
      cases hk

theorem of_forking {child : List Char} (hmove : Move s turn s')
    (hcontrol : (s.procs turn.pid).control = .forking child) :
    s' = s.fork turn.pid child turn.junk := by
  cases hmove with
  | fork hk =>
      rw [hcontrol] at hk
      cases hk
      rfl
  | command hzero hk =>
      rw [hzero, hk] at hcontrol
      cases hcontrol
  | greet hk | receive _ hk | greeting hk | walkEnd hk | walkSkip hk | walkSend hk | hear hk
  | answer hk | dyingEnd hk | dyingSkip hk | tell hk | tellNobody hk | reap hk | waitNobody hk
  | exit hk =>
      rw [hcontrol] at hk
      cases hk

theorem of_greeting (hmove : Move s turn s')
    (hcontrol : (s.procs turn.pid).control = .greeting c) :
    s' = (s.setLink c ((s.links c).post ((s.procs turn.pid).name ++ [nul]))).setProc turn.pid
      ((s.procs turn.pid).goto (if turn.pid = 0 then .loop else .reply .yes)) := by
  cases hmove with
  | greeting hk =>
      rw [hcontrol] at hk
      cases hk
      rfl
  | command hzero hk =>
      rw [hzero, hk] at hcontrol
      cases hcontrol
  | greet hk | receive _ hk | fork hk | walkEnd hk | walkSkip hk | walkSend hk | hear hk
  | answer hk | dyingEnd hk | dyingSkip hk | tell hk | tellNobody hk | reap hk | waitNobody hk
  | exit hk =>
      rw [hcontrol] at hk
      cases hk

theorem of_walk_nil {job : Job} (hmove : Move s turn s')
    (hcontrol : (s.procs turn.pid).control = .walk job []) :
    s' = s.setProc turn.pid ((s.procs turn.pid).goto (State.notFound turn.pid)) := by
  cases hmove with
  | walkEnd => rfl
  | command hzero hk =>
      rw [hzero, hk] at hcontrol
      cases hcontrol
  | greet hk | receive _ hk | fork hk | greeting hk | walkSkip hk | walkSend hk | hear hk
  | answer hk | dyingEnd hk | dyingSkip hk | tell hk | tellNobody hk | reap hk | waitNobody hk
  | exit hk =>
      rw [hcontrol] at hk
      cases hk

theorem of_walk_cons {job : Job} (hmove : Move s turn s')
    (hcontrol : (s.procs turn.pid).control = .walk job (c :: next)) :
    (s.links c).haveKilled = true ∧
        s' = s.setProc turn.pid ((s.procs turn.pid).goto (.walk job next)) ∨
      (s.links c).haveKilled = false ∧
        s' = (s.setLink c ((s.links c).post
          (State.outgoing turn.pid (s.procs turn.pid) job))).setProc turn.pid
          ((s.procs turn.pid).goto (.await job c next)) := by
  cases hmove with
  | walkSkip hk hmark =>
      rw [hcontrol] at hk
      cases hk
      exact .inl ⟨hmark, rfl⟩
  | walkSend hk hunmarked =>
      rw [hcontrol] at hk
      cases hk
      exact .inr ⟨hunmarked, rfl⟩
  | command hzero hk =>
      rw [hzero, hk] at hcontrol
      cases hcontrol
  | greet hk | receive _ hk | fork hk | greeting hk | walkEnd hk | hear hk | answer hk
  | dyingEnd hk | dyingSkip hk | tell hk | tellNobody hk | reap hk | waitNobody hk | exit hk =>
      rw [hcontrol] at hk
      cases hk

theorem of_await {job : Job} (hmove : Move s turn s')
    (hcontrol : (s.procs turn.pid).control = .await job c next) :
    (s.links c).rep ≠ [] ∧ s' = s.hear turn.pid job c next := by
  cases hmove with
  | hear hk hrep =>
      rw [hcontrol] at hk
      cases hk
      exact ⟨hrep, rfl⟩
  | command hzero hk =>
      rw [hzero, hk] at hcontrol
      cases hcontrol
  | greet hk | receive _ hk | fork hk | greeting hk | walkEnd hk | walkSkip hk | walkSend hk
  | answer hk | dyingEnd hk | dyingSkip hk | tell hk | tellNobody hk | reap hk | waitNobody hk
  | exit hk =>
      rw [hcontrol] at hk
      cases hk

theorem of_returning (hmove : Move s turn s')
    (hcontrol : (s.procs turn.pid).control = .returning) :
    s' = s.setProc turn.pid ((s.procs turn.pid).goto .exited) := by
  cases hmove with
  | exit => rfl
  | command hzero hk =>
      rw [hzero, hk] at hcontrol
      cases hcontrol
  | greet hk | receive _ hk | fork hk | greeting hk | walkEnd hk | walkSkip hk | walkSend hk
  | hear hk | answer hk | dyingEnd hk | dyingSkip hk | tell hk | tellNobody hk | reap hk
  | waitNobody hk =>
      rw [hcontrol] at hk
      cases hk

theorem of_reply {message : Reply} (hmove : Move s turn s')
    (hcontrol : (s.procs turn.pid).control = .reply message) :
    s' = (s.setLink turn.pid ((s.links turn.pid).answer message)).setProc turn.pid
      ((s.procs turn.pid).goto (if message = .yesn then .returning else .loop)) := by
  cases hmove with
  | answer hk =>
      rw [hcontrol] at hk
      cases hk
      rfl
  | command hzero hk =>
      rw [hzero, hk] at hcontrol
      cases hcontrol
  | greet hk | receive _ hk | fork hk | greeting hk | walkEnd hk | walkSkip hk | walkSend hk
  | hear hk | dyingEnd hk | dyingSkip hk | tell hk | tellNobody hk | reap hk | waitNobody hk
  | exit hk =>
      rw [hcontrol] at hk
      cases hk

end Move

namespace State

variable {name : Name} {root : Nodes}

/-- What a service keeps of an instruction that it has read. -/
theorem outgoing_receive (hpos : 0 < p) (P : Proc) (i : Instruction) (job : Job) :
    outgoing p (P.receive (i.text ++ [nul])) job = i.text ++ [nul] := by
  have hne : ¬ (p = 0 ∧ job = .find) := fun hzero => absurd hzero.1 (Nat.ne_of_gt hpos)
  simp only [outgoing, if_neg hne, Proc.receive, List.append_assoc, List.singleton_append,
    i.cString_text]

theorem control_receive (P : Proc) (i : Instruction) :
    (P.receive (i.text ++ [nul])).control = P.dispatch i.text := by
  simp only [Proc.receive, List.append_assoc, List.singleton_append, i.cString_text]

/-- A service reads the instruction, and acts or passes it on. -/
theorem goes_receive (h : s.Coherent) (hmove : Move s turn s') (hpos : 0 < turn.pid)
    (hcontrol : (s.procs turn.pid).control = .loop)
    (hcmd : (s.links turn.pid).cmd = i.text ++ [nul])
    (hname : name.chars = (s.procs turn.pid).name)
    (hroot : s.Stands (s.procs turn.pid).children root) :
    s.Goes s' turn i turn.pid (i.answer name root (i.loop 1 haha root)) := by
  have hp := h.inv.lt_count hmove.not_exited
  obtain ⟨hfull, hs'⟩ := hmove.of_loop hpos hcontrol
  have hshort : (s.links turn.pid).cmd.take 512 = i.text ++ [nul] := by
    rw [← hcmd]
    exact List.take_of_length_le (List.drop_eq_nil_iff.mp (h.inv.take_cmd hpos hp))
  rw [hshort] at hs'
  have hprints : (i.lines name).map Line.said = s.prints turn := by
    rcases h.inv.nextMessage hpos hcontrol with ⟨hempty, -⟩ | ⟨-, hnext⟩
    · exact absurd hempty hfull
    · unfold prints
      simp only [hcontrol, if_neg (Nat.ne_of_gt hpos), hnext, hcmd, Option.toList_some,
        List.flatMap_singleton, List.append_assoc, List.singleton_append, i.cString_text]
      exact (Instruction.hears_text hname).symm
  have hprocs : s'.procs turn.pid = (s.procs turn.pid).receive (i.text ++ [nul]) := by
    rw [hs', procs_setProc_self]
  have hchildren : (s'.procs turn.pid).children = (s.procs turn.pid).children := by
    rw [hprocs]
    rfl
  have hlinks : ∀ c ∈ (s.procs turn.pid).children, s'.links c = s.links c := by
    intro c hc
    obtain ⟨-, -, -, hcp, -⟩ := h.inv.child hp hc
    rw [hs', links_setProc, links_setLink_of_ne hcp]
  have hroot' : s'.Stands (s'.procs turn.pid).children root := by
    rw [hchildren]
    exact hroot.move_self h.inv hmove (List.Subset.refl _) hlinks
  have hplace := Instruction.dispatch_text (i := i) hname
  rw [← control_receive, ← hprocs] at hplace
  by_cases hhere : i.here name = true
  · rw [if_pos hhere] at hplace
    have hanswer : i.answer name root (i.loop 1 haha root) =
        (i.act root).map (Course.following (i.lines name)) := by
      rw [Instruction.answer, if_pos hhere]
    refine ⟨[turn.pid], i.act root, i.lines name, ?_, hanswer, hprints⟩
    cases i with
    | spawn parent child garbage => exact .forking hpos rfl hplace hroot'
    | find want => exact .reply hpos hplace hroot'
    | exchange one other => exact .reply hpos hplace hroot'
    | kill want =>
        apply Comes.dying hpos rfl (.inl hplace)
        apply hroot'.fades
        intro c hc hunmarked
        rw [hchildren] at hc
        have hcp := (h.inv.child hp hc).2.2.2.1
        have hlt := (h.inv.child hp hc).2.1
        rw [hlinks c hc] at hunmarked
        rw [(hmove.frame h.inv).procs c hcp hlt]
        exact h.inv.rests_below hp (by rw [hcontrol]; trivial) hc hunmarked
  · rw [if_neg hhere] at hplace
    have hanswer : i.answer name root (i.loop 1 haha root) =
        (i.loop 1 haha root).map (Course.following (i.lines name)) := by
      rw [Instruction.answer, if_neg hhere]
    refine ⟨[turn.pid], i.loop 1 haha root, i.lines name, ?_, hanswer, hprints⟩
    have htext : outgoing turn.pid (s'.procs turn.pid) i.job = i.text ++ [nul] := by
      rw [hprocs]
      exact outgoing_receive hpos _ i i.job
    have hwalk := Comes.begin (by rw [hplace, hchildren]) htext hroot'
    have hstr : (s'.procs turn.pid).str i.job = haha := by
      rw [hprocs]
      rfl
    rwa [hstr, Instruction.loop_service (Nat.ne_of_gt hpos)] at hwalk

end State

end Services

end SystemsProgramming
