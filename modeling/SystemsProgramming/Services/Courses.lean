/-
The turns of the processes that an instruction passes through.  Each of them brings the process
whose turn it is closer to the course that it comes to, and is one line of the output or none.
-/
import SystemsProgramming.Services.Pending
import SystemsProgramming.Services.Walks

namespace SystemsProgramming

namespace Services

variable {s s' : State} {turn : Turn} {i : Instruction} {p c : Nat} {done tmp next path : List Nat}
  {o : Option Course} {passed left root : Nodes}

/-- A reply is written to an empty pipe. -/
theorem Edge.rep_of_reply {hello : List Char} {k : Control} {L : Link} {stance : Stance}
    {message : Reply} (hedge : Edge hello k L stance) (hcontrol : k = .reply message) :
    L.rep = [] := by
  cases hedge with
  | answered hk =>
      rw [hcontrol] at hk
      rcases hk.loop_or_gone with hk | hk
      · cases hk
      · exact hk.elim
  | forked _ _ _ _ hrep | fresh _ _ _ _ _ hrep | ready _ _ _ hrep | commanded _ _ _ hrep
  | working _ _ hrep | told _ _ _ _ hrep | closed _ _ _ hrep => exact hrep

namespace State

variable {num : Int} {buf : Buffer}

/-- The `fork` puts the new service at the end of the list. -/
theorem Stands.fork (h : Inv s) (hmove : Move s turn s') {child : Name} (garbage : Int)
    (hcontrol : (s.procs turn.pid).control = .forking child.chars)
    (hroot : s.Stands (s.procs turn.pid).children root) :
    (s'.procs turn.pid).control = .greeting s.count ∧
      s'.Stands (s'.procs turn.pid).children (root.createService child garbage) := by
  have hp := h.lt_count hmove.not_exited
  obtain rfl := hmove.of_forking hcontrol
  have hparent := s.procs_fork_parent child.chars turn.junk (Nat.ne_of_lt hp)
  have hborn := s.procs_fork_born (p := turn.pid) child.chars turn.junk
  have hlink := s.links_fork_born (p := turn.pid) child.chars turn.junk
  rw [hparent]
  refine ⟨rfl, ?_⟩
  rw [Nodes.createService_eq_append]
  apply Stands.append
  · apply hroot.move_self h hmove (List.Subset.refl _)
    intro c hc
    exact s.links_fork_of_ne _ _ (Nat.ne_of_lt (h.child hp hc).2.1)
  · refine .cons ⟨?_, ?_, ?_⟩ (.inl ?_) ?_ .nil
    · rw [hborn]
      rfl
    · rw [hlink]
      rfl
    · rw [hborn]
      simp [Proc.born]
    · rw [hborn]
      rfl
    · rw [hborn]
      exact .nil

/-- The greeting of a child leaves all as it is. -/
theorem Stands.greeting (h : Inv s) (hmove : Move s turn s')
    (hcontrol : (s.procs turn.pid).control = .greeting c)
    (hroot : s.Stands (s.procs turn.pid).children root) :
    s'.Stands (s.procs turn.pid).children root := by
  have hp := h.lt_count hmove.not_exited
  have hc := h.mem_of_pending hcontrol (by simp) (List.mem_singleton_self _)
  obtain ⟨-, -, -, -, hedge⟩ := h.child hp hc
  have hgreet : (s.procs c).control = .greet := by
    rw [hcontrol, Control.toward, if_pos rfl] at hedge
    cases hedge with
    | forked hgreet => exact hgreet
    | fresh hstance | ready hstance | told hstance | closed hstance => simp at hstance
  obtain hs' := hmove.of_greeting hcontrol
  apply hroot.move h hmove (h.children_of hp (List.Subset.refl _))
  intro _ d hd
  have hprocs := (hmove.frame h).procs d (h.child hp hd).2.2.2.1 (h.child hp hd).2.1
  by_cases hdc : d = c
  · subst hdc
    refine ⟨?_, fun _ => .inl (by rw [hprocs, hgreet])⟩
    rw [hs', links_setProc, links_setLink_self]
    rfl
  · have hlink : s'.links d = s.links d := by
      rw [hs', links_setProc, links_setLink_of_ne hdc]
    exact ⟨by rw [hlink], fun hstill => hstill.congr hprocs (by rw [hlink])⟩

/-- A service forks. -/
theorem goes_forking (h : s.Coherent) (hmove : Move s turn s') (hpos : 0 < turn.pid)
    {child : Name} {garbage : Int}
    (hcontrol : (s.procs turn.pid).control = .forking child.chars)
    (hroot : s.Stands (s.procs turn.pid).children root) :
    s.Goes s' turn i turn.pid (some ⟨.yes, num, buf, root.createService child garbage, []⟩) := by
  obtain ⟨hgreeting, hroot'⟩ := hroot.fork h.inv hmove garbage hcontrol
  apply Goes.of_silent
  · simp [prints, hcontrol]
  · exact .greeting hpos hgreeting hroot'

/-- It greets its child, and has done what it was told. -/
theorem goes_greeting (h : s.Coherent) (hmove : Move s turn s') (hpos : 0 < turn.pid)
    (hcontrol : (s.procs turn.pid).control = .greeting c)
    (hroot : s.Stands (s.procs turn.pid).children root) :
    s.Goes s' turn i turn.pid (some ⟨.yes, num, buf, root, []⟩) := by
  have hroot' := hroot.greeting h.inv hmove hcontrol
  obtain rfl := hmove.of_greeting hcontrol
  apply Goes.of_silent
  · simp [prints, hcontrol]
  · apply Comes.reply hpos
    · rw [procs_setProc_self, if_neg (Nat.ne_of_gt hpos)]
      rfl
    · rwa [procs_setProc_self]

/-- It writes its reply. -/
theorem goes_reply (h : s.Coherent) (hmove : Move s turn s') (hpos : 0 < turn.pid)
    {message : Reply} (hcontrol : (s.procs turn.pid).control = .reply message)
    (hroot : s.Stands (s.procs turn.pid).children root) :
    s.Goes s' turn i turn.pid (some ⟨message, num, buf, root, []⟩) := by
  have hp := h.inv.lt_count hmove.not_exited
  have hrep := (h.inv.edge _ hpos hp).rep_of_reply hcontrol
  have hroot' : s'.Stands (s.procs turn.pid).children root := by
    apply hroot.move_self h.inv hmove (List.Subset.refl _)
    intro c hc
    rw [hmove.of_reply hcontrol, links_setProc,
      links_setLink_of_ne (h.inv.child hp hc).2.2.2.1]
  obtain rfl := hmove.of_reply hcontrol
  apply Goes.of_silent
  · simp [prints, hcontrol]
  · apply Comes.answered hpos
    · rw [procs_setProc_self]
      cases message <;> simp [Control.Replied, Proc.goto]
    · rw [links_setProc, links_setLink_self]
      simp [Link.answer, hrep]
    · rwa [procs_setProc_self]

/-- A service that has answered has nothing to read, but may still have to exit. -/
theorem goes_answered (h : s.Coherent) (hmove : Move s turn s') (hpos : 0 < turn.pid)
    {message : Reply} (hcontrol : (s.procs turn.pid).control.Replied message)
    (hrep : (s.links turn.pid).rep = message.bytes)
    (hroot : s.Stands (s.procs turn.pid).children root) :
    s.Goes s' turn i turn.pid (some ⟨message, num, buf, root, []⟩) := by
  have hp := h.inv.lt_count hmove.not_exited
  rcases hcontrol.loop_or_gone with hloop | hgone
  · obtain ⟨hcmd, -⟩ := hmove.of_loop hpos hloop
    have hempty : (s.links turn.pid).rep = [] := by
      rcases (h.inv.edge _ hpos hp).commandless hloop hcmd with
        ⟨-, -, -, -, hempty, -⟩ | ⟨-, -, -, hempty, -⟩
      · exact hempty
      · exact hempty
    rw [hrep] at hempty
    exact absurd hempty message.bytes_ne_nil
  · have hreturning := (Control.gone_iff.mp hgone).resolve_right hmove.not_exited
    have hroot' : s'.Stands (s.procs turn.pid).children root := by
      apply hroot.move_self h.inv hmove (List.Subset.refl _)
      intro c _
      rw [hmove.of_returning hreturning, links_setProc]
    obtain rfl := hmove.of_returning hreturning
    apply Goes.of_silent
    · simp [prints, hreturning]
    · refine .answered hpos (hcontrol.step (by simp [hreturning]) fun _ => ?_) hrep ?_
      · rw [procs_setProc_self]
        trivial
      · rwa [procs_setProc_self]

/-- A service that ends itself. -/
theorem goes_dying (h : s.Coherent) (hmove : Move s turn s') (hpos : 0 < turn.pid) {want : Name}
    (hi : i = .kill want) (hk : Ends .target tmp (s.procs turn.pid).control)
    (hroot : s.Fades (s.procs turn.pid).children root) :
    s.Goes s' turn i turn.pid
      (if root.dies = true then some ⟨.yesn, num, buf, root.bury, []⟩ else none) := by
  have hp := h.inv.lt_count hmove.not_exited
  have hroot' := hroot.move h.inv h.accounts h.fates hmove hp (List.Subset.refl _) hk
  obtain ⟨hsame, hgoes⟩ := hk.goes hmove
  have hprints : s.prints turn = [] := by
    rcases hk with hk | hk
    · cases tmp <;> simp [prints, hk]
    · simp [prints, hk]
  apply Goes.of_silent hprints
  rcases hgoes with ⟨next, hk'⟩ | ⟨hend, hlast⟩
  · exact .dying hpos hi hk' (by rwa [hsame.children])
  · -- every child was waited for, so that all below are gone
    have hgone : ∀ d ∈ (s.procs turn.pid).children, (s.procs d).control = .exited := by
      intro d hd
      obtain ⟨hdpos, hdlt, -⟩ := h.inv.family _ hp d hd
      apply (h.fates d hdpos hdlt).reaped
      exact (h.accounts _ hp).last hend d hd (Account.due_of_ne (Nat.ne_of_gt hpos) _)
    obtain ⟨hdies, hburied⟩ := hroot.finish hgone
    rw [if_pos hdies]
    refine .reply hpos hlast ?_
    rw [hsame.children]
    apply hburied.move_self h.inv hmove (List.Subset.refl _)
    intro d _
    cases hmove with
    | dyingEnd => rfl
    | command hzero => exact absurd hzero (Nat.ne_of_gt hpos)
    | greet hcontrol | receive _ hcontrol | fork hcontrol | greeting hcontrol | walkEnd hcontrol
    | walkSkip hcontrol | walkSend hcontrol | hear hcontrol | answer hcontrol
    | dyingSkip hcontrol | tell hcontrol | tellNobody hcontrol | reap hcontrol
    | waitNobody hcontrol | exit hcontrol =>
        rw [hend] at hcontrol
        cases hcontrol

/-- The Manager has left its loop. -/
structure Closes (s s' : State) (turn : Turn) (i : Instruction) (course : Course) : Prop where
  control : (s'.procs 0).control =
    if course.reply = .yes then found 0 (s.procs 0) i.job else .loop
  stands : s'.Stands (s'.procs 0).children course.root
  same : (s'.procs 0).SameFamily (s.procs 0)
  buf : (s'.procs 0).buf = (s.procs 0).buf
  str : (s'.procs 0).str = Function.update (s.procs 0).str i.job course.buf
  silent : course.lines = []
  prints : s.prints turn = (i.closing course).map Line.said

/-- What the Manager prints behind its loop is read from the text that it has passed on. -/
theorem closes_text {P : Proc} (htext : outgoing 0 P i.job = i.text ++ [nul]) (course : Course) :
    closes P i.job (course.reply = .yes) = (i.closing course).map Line.said := by
  have hstring := List.append_cancel_right htext
  cases i with
  | spawn parent child garbage =>
      have hbuf : cString P.buf = spawnText parent.chars child.chars := hstring
      simp only [closes, Instruction.job, hbuf, (Instruction.words_spawn parent child).1,
        Instruction.closing, decide_eq_true_eq]
      split <;> rfl
  | find want =>
      have hfind : cString P.find = findText want.chars := hstring
      simp only [closes, Instruction.job, hfind, Instruction.word_find, Instruction.closing,
        decide_eq_true_eq]
      split <;> rfl
  | exchange one other =>
      have hbuf : cString P.buf = exchangeText one.chars other.chars := hstring
      simp only [closes, Instruction.job, hbuf, (Instruction.words_exchange one other).1,
        (Instruction.words_exchange one other).2, Instruction.closing]
      rfl
  | kill want =>
      have hbuf : cString P.buf = killText want.chars := hstring
      simp only [closes, Instruction.job, hbuf, Instruction.word_kill, Instruction.closing,
        decide_eq_true_eq]
      split <;> rfl

/-- The process comes to the same course, or it is the Manager and has come to it. -/
def Turns (s s' : State) (turn : Turn) (i : Instruction) (p : Nat) (o : Option Course) : Prop :=
  s.Goes s' turn i p o ∨ p = 0 ∧ ∃ course, o = some course ∧ s.Closes s' turn i course

/-- The end of the list. -/
theorem turns_walk_nil (h : s.Coherent) (hmove : Move s turn s')
    (hcontrol : (s.procs turn.pid).control = .walk i.job [])
    (htext : outgoing turn.pid (s.procs turn.pid) i.job = i.text ++ [nul])
    (hroot : s.Stands (s.procs turn.pid).children root) :
    s.Turns s' turn i turn.pid (some ⟨.not, 0, (s.procs turn.pid).str i.job, root, []⟩) := by
  have hs' := hmove.of_walk_nil hcontrol
  have hroot' : s'.Stands (s.procs turn.pid).children root := by
    apply hroot.move_self h.inv hmove (List.Subset.refl _)
    intro c _
    rw [hs', links_setProc]
  have hproc : s'.procs turn.pid = (s.procs turn.pid).goto (notFound turn.pid) := by
    rw [hs', procs_setProc_self]
  by_cases hzero : turn.pid = 0
  · right
    rw [hzero] at hcontrol htext hroot' hproc ⊢
    refine ⟨rfl, _, rfl, ?_, ?_, ?_, ?_, ?_, rfl, ?_⟩
    · rw [hproc]
      rfl
    · rwa [hproc]
    · rw [hproc]
      exact Proc.goto_same _ _
    · rw [hproc]
      rfl
    · rw [hproc, Function.update_eq_self]
      rfl
    · rw [← closes_text htext]
      simp [prints, hzero, hcontrol]
  · left
    apply Goes.of_silent
    · simp [prints, hcontrol, hzero]
    · refine .reply (Nat.pos_of_ne_zero hzero) ?_ (by rwa [hproc])
      rw [hproc]
      exact if_neg hzero

/-- The walk passes a marked child. -/
theorem goes_walk_marked (h : s.Coherent) (hmove : Move s turn s')
    (hcontrol : (s.procs turn.pid).control = .walk i.job (c :: next))
    (hmark : (s.links c).haveKilled = true)
    (hsplit : (s.procs turn.pid).children = done ++ c :: next)
    (htext : outgoing turn.pid (s.procs turn.pid) i.job = i.text ++ [nul])
    (hdone : s.Stands done passed) (htmp : s.Stands (c :: next) left) :
    s.Goes s' turn i turn.pid
      ((i.loop turn.pid ((s.procs turn.pid).str i.job) left).map (Course.behind passed)) := by
  obtain ⟨-, hs'⟩ : (s.links c).haveKilled = true ∧
      s' = s.setProc turn.pid ((s.procs turn.pid).goto (.walk i.job next)) := by
    rcases hmove.of_walk_cons hcontrol with hskip | ⟨hunmarked, -⟩
    · exact hskip
    · rw [hmark] at hunmarked
      cases hunmarked
  have hproc : s'.procs turn.pid = (s.procs turn.pid).goto (.walk i.job next) := by
    rw [hs', procs_setProc_self]
  have hmoved : ∀ {cs : List Nat} {l : Nodes}, cs ⊆ (s.procs turn.pid).children →
      s.Stands cs l → s'.Stands cs l := by
    intro cs l hsub hstands
    apply hstands.move_self h.inv hmove hsub
    intro d _
    rw [hs', links_setProc]
  cases htmp with
  | @cons _ _ node root rest hnode hstill hroot hnext =>
      have hone : s.Stands [c] (.cons node root .nil) := .cons hnode hstill hroot .nil
      have hpassed := hmoved (by simp [hsplit]) (hdone.append hone)
      have hrest := hmoved (by simp [hsplit]) hnext
      apply Goes.of_silent
      · simp [prints, hcontrol]
      · have hwalk := Comes.walk (i := i) (p := turn.pid) (by rw [hproc]; rfl)
          (by rw [hproc]; simpa [Proc.goto] using hsplit) (by rw [hproc]; exact htext) hpassed hrest
        rw [Instruction.loop_marked (by rw [hnode.haveKilled, hmark]), Option.map_map,
          Course.behind_comp]
        rwa [hproc] at hwalk

/-- A step that touches only the pipes of `c` leaves the children before and after it. -/
theorem Stands.move_beside (h : s.Coherent) (hmove : Move s turn s')
    (hsplit : (s.procs turn.pid).children = done ++ c :: next)
    (hlinks : ∀ d, d ≠ c → s'.links d = s.links d) (hdone : s.Stands done passed)
    (hnext : s.Stands next left) : s'.Stands done passed ∧ s'.Stands next left := by
  have hnodup : (done ++ c :: next).Nodup := by
    rw [← hsplit]
    exact h.tidy.distinct _ (h.inv.lt_count hmove.not_exited)
  rw [List.nodup_append] at hnodup
  obtain ⟨-, htail, hapart⟩ := hnodup
  constructor
  · apply hdone.move_self h.inv hmove (by simp [hsplit])
    intro d hd
    exact hlinks d (hapart d hd c List.mem_cons_self)
  · apply hnext.move_self h.inv hmove (by simp [hsplit])
    rintro d hd
    apply hlinks
    rintro rfl
    exact (List.nodup_cons.mp htail).1 hd

/-- The walk passes the instruction on to a child. -/
theorem goes_walk_unmarked (h : s.Coherent) (hok : s.Greeted turn) (hmove : Move s turn s')
    (hcontrol : (s.procs turn.pid).control = .walk i.job (c :: next))
    (hunmarked : (s.links c).haveKilled = false)
    (hsplit : (s.procs turn.pid).children = done ++ c :: next)
    (htext : outgoing turn.pid (s.procs turn.pid) i.job = i.text ++ [nul])
    (hdone : s.Stands done passed) (htmp : s.Stands (c :: next) left) :
    s.Goes s' turn i turn.pid
      ((i.loop turn.pid ((s.procs turn.pid).str i.job) left).map (Course.behind passed)) := by
  have hp := h.inv.lt_count hmove.not_exited
  obtain ⟨-, hs'⟩ := (hmove.of_walk_cons hcontrol).resolve_left (by simp [hunmarked])
  have hc : c ∈ (s.procs turn.pid).children := by simp [hsplit]
  obtain ⟨hpos, hlt, -, hcp, hedge⟩ := h.inv.child hp hc
  rw [hcontrol] at hedge
  have hgreeted : (s.procs c).control ≠ .greet := by
    apply hok c
    simp [writesTo, hcontrol, hunmarked]
  obtain ⟨hloop, hcmd, -⟩ := hedge.ready_of_quiet hunmarked hgreeted
  have hproc : s'.procs turn.pid = (s.procs turn.pid).goto (.await i.job c next) := by
    rw [hs', procs_setProc_self]
  have hchild : s'.procs c = s.procs c := (hmove.frame h.inv).procs c hcp hlt
  have hlinks : ∀ d, d ≠ c → s'.links d = s.links d := by
    intro d hd
    rw [hs', links_setProc, links_setLink_of_ne hd]
  cases htmp with
  | @cons _ _ node root rest hnode hstill hroot hnext =>
      have hroot' := hroot.move_other h.inv hmove hlt (List.Subset.refl _) (Ne.symm hcp)
      have hasked : s'.Comes i c [c] (i.answer node.name root (i.loop 1 haha root)) := by
        apply Comes.asked hpos
        · rw [hchild, hloop]
        · rw [hs', links_setProc, links_setLink_self, htext]
          simp [Link.post, hcmd]
        · rw [hchild, hnode.name]
        · rwa [hchild]
      obtain ⟨hdone', hnext'⟩ := hdone.move_beside h hmove hsplit hlinks hnext
      have hmark : node.haveKilled = false := by rw [hnode.haveKilled, hunmarked]
      refine Goes.of_silent ?_ (?_ : s'.Comes i turn.pid [turn.pid, c] _)
      · simp [prints, hcontrol]
      · rw [Instruction.loop_unmarked hmark]
        have hawait := Comes.await (i := i) (p := turn.pid) (by rw [hproc]; rfl)
          (by rw [hproc]; exact hsplit) (by rw [hproc]; exact htext) hdone' hnext'
          (by rw [hchild, hnode.name]) hmark (hnode.alive (by simp [hloop])) hasked
        rwa [hproc] at hawait

/-- A service whose reply is in the pipe has come to this reply. -/
theorem Comes.of_rep (hcomes : s.Comes i c path o) {message : Reply}
    (hcontrol : (s.procs c).control.Replied message)
    (hcmd : (s.links c).cmd = []) (hrep : (s.links c).rep = message.bytes) :
    ∃ num buf root, o = some ⟨message, num, buf, root, []⟩ ∧
      s.Stands (s.procs c).children root := by
  have hnot : ∀ {k : Control}, (s.procs c).control = k → ¬ k.Gone → k ≠ .loop → False := by
    rintro k rfl hgone hloop
    exact hcontrol.loop_or_gone.elim hloop hgone
  cases hcomes with
  | asked _ _ hfull =>
      rw [hcmd] at hfull
      simp at hfull
  | forking _ _ hk | greeting _ hk | walk hk | await hk | reply _ hk =>
      exact (hnot hk (by simp) (by simp)).elim
  | dying _ _ hk =>
      rcases hk with hk | hk
      · exact (hnot hk (by simp) (by simp)).elim
      · exact (hnot hk (by simp) (by simp)).elim
  | @answered _ message' num buf root _ _ hrep' hroot =>
      have hbytes : message.bytes = message'.bytes := by rw [← hrep, hrep']
      have hsame : message = message' := by
        cases message <;> cases message' <;> first | rfl | simp [Reply.bytes] at hbytes
      subst hsame
      exact ⟨num, buf, root, rfl, hroot⟩

/-- The child whose reply is read. -/
theorem IsNode.heard {node : Node} {message : Reply} {mark : Bool}
    (hname : node.name.chars = (s'.procs c).name) (hmark : node.haveKilled = false)
    (halive : node.exited = false)
    (hcontrol : (s'.procs c).control.Replied message)
    (hlink : (s'.links c).haveKilled = mark) :
    s'.IsNode c ((node.after message).marked mark) := by
  constructor
  · cases mark <;> cases message <;> exact hname
  · rw [hlink]
    cases mark <;> cases message <;> first | exact hmark | rfl
  · unfold Control.Replied at hcontrol
    cases mark <;> cases message <;> simp_all [Node.after, Node.marked]

/-- A reply is read, and tested. -/
theorem turns_hear (h : s.Coherent) (hmove : Move s turn s')
    (hcontrol : (s.procs turn.pid).control = .await i.job c next)
    (hsplit : (s.procs turn.pid).children = done ++ c :: next)
    (htext : outgoing turn.pid (s.procs turn.pid) i.job = i.text ++ [nul])
    (hdone : s.Stands done passed) (hnext : s.Stands next left) {node : Node}
    (hname : node.name.chars = (s.procs c).name) (hmark : node.haveKilled = false)
    (halive : node.exited = false) (hchild : s.Comes i c path o) :
    s.Turns s' turn i turn.pid
      ((o.bind (i.resume turn.pid ((s.procs turn.pid).str i.job) node left)).map
        (Course.behind passed)) := by
  have hp := h.inv.lt_count hmove.not_exited
  obtain ⟨hrep, hs'⟩ := hmove.of_await hcontrol
  have hc : c ∈ (s.procs turn.pid).children := by simp [hsplit]
  obtain ⟨hpos, hlt, -, hcp, hedge⟩ := h.inv.child hp hc
  rw [hcontrol, Control.toward, if_pos rfl] at hedge
  obtain ⟨message, hanswered, hbytes, hread, hlinked⟩ := hedge.answered_of_rep hrep
  obtain ⟨num, buf, root, rfl, hroot⟩ := hchild.of_rep hanswered hread.empty hbytes
  have hshort : message.bytes.length ≤ 8 := by cases message <;> decide
  have hsize : (s.links c).rep.take (if turn.pid = 0 then 512 else 8) = message.bytes := by
    rw [hbytes]
    apply List.take_of_length_le
    split <;> omega
  -- the buffer behind the `read`
  obtain ⟨str, hstr⟩ : ∃ str, settle turn.pid i.job
      (((s.procs turn.pid).str i.job).read message) = str := ⟨_, rfl⟩
  have hproc : s'.procs turn.pid = judge turn.pid (s.procs turn.pid) i.job next str := by
    rw [hs', ← hstr, hear, hsize, procs_setProc_self]
    rfl
  have hlink : (s'.links c).haveKilled = marks turn.pid i.job str ∧ (s'.links c).cmd = [] := by
    rw [hs', ← hstr, hear, hsize, links_setProc, links_setLink_self]
    exact ⟨by simp [Link.hear, hlinked.unmarked, Buffer.read], hread.empty⟩
  have hprocc : s'.procs c = s.procs c := (hmove.frame h.inv).procs c hcp hlt
  obtain ⟨hdone', hnext'⟩ := by
    refine hdone.move_beside h hmove hsplit (fun d hd => ?_) hnext
    rw [hs', hear, links_setProc, links_setLink_of_ne hd]
  have hroot' := hroot.move_other h.inv hmove hlt (List.Subset.refl _) (Ne.symm hcp)
  have hnode : s'.IsNode c ((node.after message).marked (marks turn.pid i.job str)) := by
    apply IsNode.heard _ hmark halive _ hlink.1
    · rw [hprocc, hname]
    · rwa [hprocc]
  have hstill : s'.Still c := by
    rw [Still, hprocc]
    rcases hanswered.loop_or_gone with hloop | hgone
    · exact .inr (.inl ⟨hloop, hlink.2⟩)
    · exact .inr (.inr hgone)
  have hone : ∀ {cs : List Nat} {l : Nodes}, s'.Stands cs l → s'.Stands (c :: cs) (.cons
      ((node.after message).marked (marks turn.pid i.job str)) root l) :=
    fun hlater => .cons hnode hstill (by rwa [hprocc]) hlater
  have hchildren : (s'.procs turn.pid).children = done ++ c :: next := by
    rw [hproc]
    exact hsplit
  rw [Option.bind_some, Instruction.resume, Instruction.hear]
  dsimp only
  rw [hstr]
  by_cases haccepts : accepts turn.pid i.job str = true
  · rw [if_pos haccepts, Option.map_some]
    have hall := hdone'.append (hone hnext')
    rw [← hchildren] at hall
    by_cases hzero : turn.pid = 0
    · right
      refine ⟨hzero, _, rfl, ?_⟩
      rw [if_pos hzero] at hsize
      rw [hzero] at hproc htext haccepts hall hstr hcontrol ⊢
      refine ⟨?_, hall, ?_, ?_, ?_, rfl, ?_⟩
      · rw [hproc, judge, if_pos haccepts]
        rfl
      · rw [hproc]
        exact judge_same _ _ _ _ _
      · rw [hproc]
        rfl
      · rw [hproc]
        rfl
      · rw [← closes_text htext]
        have htest : accepts 0 i.job (settle 0 i.job
            (((s.procs 0).str i.job).load ((s.links c).rep.take 512))) = true := by
          rw [hsize]
          rwa [← hstr] at haccepts
        simp [prints, hzero, hcontrol, htest, Course.behind]
    · left
      apply Goes.of_silent
      · simp [prints, hcontrol, hzero]
      · refine .reply (Nat.pos_of_ne_zero hzero) ?_ hall
        rw [hproc, judge, if_pos haccepts]
        exact if_neg hzero
  · rw [if_neg haccepts]
    left
    have hmarks : marks turn.pid i.job str = false := by simp [marks, haccepts]
    rw [hmarks] at hone
    have hpassed := hdone'.append (hone .nil)
    have hsplit' : (s'.procs turn.pid).children = (done ++ [c]) ++ next := by simp [hchildren]
    have hwalking : (s'.procs turn.pid).control = .walk i.job next := by
      rw [hproc, judge, if_neg haccepts]
    have htext' : outgoing turn.pid (s'.procs turn.pid) i.job = i.text ++ [nul] := by
      rw [hproc]
      exact htext
    have hwalk := Comes.walk hwalking hsplit' htext' hpassed hnext'
    have hbuf : (s'.procs turn.pid).str i.job = str := by
      rw [hproc]
      exact Function.update_self _ _ _
    refine Goes.of_silent ?_ (?_ : s'.Comes i turn.pid [turn.pid] _)
    · have htest : ¬ (turn.pid = 0 ∧ accepts turn.pid i.job (settle turn.pid i.job
          (((s.procs turn.pid).str i.job).load ((s.links c).rep.take 512))) = true) := by
        rintro ⟨hzero, htest⟩
        rw [if_pos hzero] at hsize
        rw [hsize] at htest
        rw [← hstr] at haccepts
        exact haccepts htest
      simp only [prints, hcontrol, if_neg htest]
    · rw [hbuf] at hwalk
      rw [Course.map_following_nil, Option.map_map, Course.behind_comp]
      exact hwalk

/-- A child that goes on brings its parent on. -/
theorem Goes.await {node : Node} (h : s.Coherent) (hmove : Move s turn s') (hp : p < s.count)
    (hturn : turn.pid ≠ p)
    (hcontrol : (s.procs p).control = .await i.job c next)
    (hsplit : (s.procs p).children = done ++ c :: next)
    (htext : outgoing p (s.procs p) i.job = i.text ++ [nul])
    (hdone : s.Stands done passed) (hnext : s.Stands next left)
    (hname : node.name.chars = (s.procs c).name) (hmark : node.haveKilled = false)
    (halive : node.exited = false) (hgoes : s.Goes s' turn i c o) :
    s.Goes s' turn i p
      ((o.bind (i.resume p ((s.procs p).str i.job) node left)).map (Course.behind passed)) := by
  obtain ⟨path, o', lines, hchild, rfl, hlines⟩ := hgoes
  have hproc := (hmove.frame h.inv).procs p (Ne.symm hturn) hp
  have hlt := (h.inv.child hp (by simp [hsplit] : c ∈ (s.procs p).children)).2.1
  have hdone' := hdone.move_other h.inv hmove hp (by simp [hsplit]) hturn
  have hnext' := hnext.move_other h.inv hmove hp (by simp [hsplit]) hturn
  have hawait := Comes.await (by rw [hproc]; exact hcontrol) (by rw [hproc]; exact hsplit)
    (by rw [hproc]; exact htext) hdone' hnext' (by rw [hmove.name_eq h.inv hlt, hname]) hmark
    halive hchild
  refine ⟨p :: path, _, lines, hawait, ?_, hlines⟩
  rw [hproc, Option.map_map]
  cases o' with
  | none => rfl
  | some course =>
      simp only [Option.map_some, Option.bind_some, Instruction.resume_following, Option.map_map]
      congr 1

/-- A turn of the process itself takes it on in its course. -/
theorem Comes.own (h : s.Coherent) (hok : s.Greeted turn) (hmove : Move s turn s')
    (hcomes : s.Comes i p path o) (hturn : turn.pid = p) :
    turn.pid ∈ path ∧ s.Turns s' turn i p o := by
  cases hcomes with
  | asked hpos hcontrol hcmd hname hroot =>
      subst hturn
      exact ⟨by simp, .inl (goes_receive h hmove hpos hcontrol hcmd hname hroot)⟩
  | forking hpos _ hcontrol hroot =>
      subst hturn
      exact ⟨by simp, .inl (goes_forking h hmove hpos hcontrol hroot)⟩
  | greeting hpos hcontrol hroot =>
      subst hturn
      exact ⟨by simp, .inl (goes_greeting h hmove hpos hcontrol hroot)⟩
  | @walk _ done tmp passed left hcontrol hsplit htext hdone htmp =>
      subst hturn
      refine ⟨by simp, ?_⟩
      cases tmp with
      | nil =>
          cases htmp
          have hroot : s.Stands (s.procs turn.pid).children passed := by
            rw [hsplit, List.append_nil]
            exact hdone
          have hends := turns_walk_nil h hmove hcontrol htext hroot
          simpa [Instruction.loop, Course.behind, Nodes.append_nil] using hends
      | cons c next =>
          left
          cases hmark : (s.links c).haveKilled with
          | true => exact goes_walk_marked h hmove hcontrol hmark hsplit htext hdone htmp
          | false => exact goes_walk_unmarked h hok hmove hcontrol hmark hsplit htext hdone htmp
  | await hcontrol hsplit htext hdone hnext hname hmark halive hchild =>
      subst hturn
      exact ⟨by simp, turns_hear h hmove hcontrol hsplit htext hdone hnext hname hmark
        halive hchild⟩
  | reply hpos hcontrol hroot =>
      subst hturn
      exact ⟨by simp, .inl (goes_reply h hmove hpos hcontrol hroot)⟩
  | answered hpos hcontrol hrep hroot =>
      subst hturn
      exact ⟨by simp, .inl (goes_answered h hmove hpos hcontrol hrep hroot)⟩
  | dying hpos hi hk hroot =>
      subst hturn
      exact ⟨by simp, .inl (goes_dying h hmove hpos hi hk hroot)⟩

/-- A turn of another process leaves the course of a process, or goes on below it. -/
theorem Comes.other (h : s.Coherent) (hok : s.Greeted turn) (hmove : Move s turn s')
    (hcomes : s.Comes i p path o) (hp : p < s.count) (hturn : turn.pid ≠ p)
    (hparent : 0 < p → turn.pid ≠ (s.procs p).parent) :
    turn.pid ∉ path ∧ s'.Comes i p path o ∨ turn.pid ∈ path ∧ s.Turns s' turn i p o := by
  have hframe := hmove.frame h.inv
  have hstands : ∀ {q : Nat} {cs : List Nat} {l : Nodes}, q < s.count → turn.pid ≠ q →
      cs ⊆ (s.procs q).children → s.Stands cs l → s'.Stands cs l :=
    fun hq hturn hsub hcs => hcs.move_other h.inv hmove hq hsub hturn
  induction hcomes with
  | @asked p name root hpos hcontrol hcmd hname hroot =>
      have hproc := hframe.procs p (Ne.symm hturn) hp
      have hlink := hmove.link_eq h.inv hp (Ne.symm hturn) (Ne.symm (hparent hpos))
      refine .inl ⟨by simpa using hturn, .asked hpos ?_ ?_ ?_ ?_⟩
      · rw [hproc, hcontrol]
      · rw [hlink, hcmd]
      · rw [hproc, hname]
      · rw [hproc]
        exact hstands hp hturn (List.Subset.refl _) hroot
  | @forking p parent child garbage num buf root hpos hi hcontrol hroot =>
      have hproc := hframe.procs p (Ne.symm hturn) hp
      refine .inl ⟨by simpa using hturn, .forking hpos hi (by rw [hproc, hcontrol]) ?_⟩
      rw [hproc]
      exact hstands hp hturn (List.Subset.refl _) hroot
  | @greeting p c num buf root hpos hcontrol hroot =>
      have hproc := hframe.procs p (Ne.symm hturn) hp
      refine .inl ⟨by simpa using hturn, .greeting hpos (by rw [hproc, hcontrol]) ?_⟩
      rw [hproc]
      exact hstands hp hturn (List.Subset.refl _) hroot
  | @walk p done tmp passed left hcontrol hsplit htext hdone htmp =>
      have hproc := hframe.procs p (Ne.symm hturn) hp
      have hwalk := Comes.walk (by rw [hproc]; exact hcontrol) (by rw [hproc]; exact hsplit)
        (by rw [hproc]; exact htext) (hstands hp hturn (by simp [hsplit]) hdone)
        (hstands hp hturn (by simp [hsplit]) htmp)
      rw [hproc] at hwalk
      exact .inl ⟨by simpa using hturn, hwalk⟩
  | @await p c done next path passed left node o hcontrol hsplit htext hdone hnext hname hmark
      halive hchild ih =>
      obtain ⟨hpos, hlt, hof, hcp, -⟩ :=
        h.inv.child hp (by simp [hsplit] : c ∈ (s.procs p).children)
      have hbelow : turn.pid ∉ path ∧ s'.Comes i c path o ∨
          turn.pid ∈ path ∧ s.Turns s' turn i c o := by
        by_cases hown : turn.pid = c
        · exact .inr (hchild.own h hok hmove hown)
        · exact ih hlt hown (fun _ => by rwa [hof])
      rcases hbelow with ⟨hnot, hchild'⟩ | ⟨hin, hgoes | ⟨hzero, -⟩⟩
      · have hproc := hframe.procs p (Ne.symm hturn) hp
        have hawait := Comes.await (by rw [hproc]; exact hcontrol)
          (by rw [hproc]; exact hsplit) (by rw [hproc]; exact htext)
          (hstands hp hturn (by simp [hsplit]) hdone) (hstands hp hturn (by simp [hsplit]) hnext)
          (by rw [hmove.name_eq h.inv hlt, hname]) hmark halive hchild'
        rw [hproc] at hawait
        refine .inl ⟨?_, hawait⟩
        simp [hturn, hnot]
      · exact .inr ⟨List.mem_cons_of_mem p hin, .inl (hgoes.await h hmove hp hturn hcontrol
          hsplit htext hdone hnext hname hmark halive)⟩
      · exact absurd hzero (Nat.ne_of_gt hpos)
  | @reply p message num buf root hpos hcontrol hroot =>
      have hproc := hframe.procs p (Ne.symm hturn) hp
      refine .inl ⟨by simpa using hturn, .reply hpos (by rw [hproc, hcontrol]) ?_⟩
      rw [hproc]
      exact hstands hp hturn (List.Subset.refl _) hroot
  | @answered p message num buf root hpos hcontrol hrep hroot =>
      have hproc := hframe.procs p (Ne.symm hturn) hp
      have hlink := hmove.link_eq h.inv hp (Ne.symm hturn) (Ne.symm (hparent hpos))
      refine .inl ⟨by simpa using hturn, .answered hpos ?_ ?_ ?_⟩
      · rwa [hproc]
      · rw [hlink, hrep]
      · rw [hproc]
        exact hstands hp hturn (List.Subset.refl _) hroot
  | @dying p tmp want num buf root hpos hi hk hroot =>
      have hproc := hframe.procs p (Ne.symm hturn) hp
      have hk' : Ends .target tmp (s'.procs p).control := by rwa [hproc]
      refine .inl ⟨by simpa using hturn, .dying hpos hi hk' ?_⟩
      rw [hproc]
      exact hroot.move h.inv h.accounts h.fates hmove hp (List.Subset.refl _) hk

/-- No turn changes the course that a process comes to. -/
theorem Comes.move (h : s.Coherent) (hok : s.Greeted turn) (hmove : Move s turn s')
    (hcomes : s.Comes i p path o) (hp : p < s.count)
    (hparent : 0 < p → turn.pid ≠ (s.procs p).parent) :
    turn.pid ∉ path ∧ s'.Comes i p path o ∨ turn.pid ∈ path ∧ s.Turns s' turn i p o := by
  by_cases hturn : turn.pid = p
  · exact .inr (hcomes.own h hok hmove hturn)
  · exact hcomes.other h hok hmove hp hturn hparent

end State

end Services

end SystemsProgramming
