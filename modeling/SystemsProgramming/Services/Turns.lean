/-
The turns of a process, each with the proof that it keeps the processes in step.
-/
import SystemsProgramming.Services.LockStep

namespace SystemsProgramming

namespace Services

variable {s s' : State} {p c : Nat}

theorem steady_dispatch (P : Proc) (text : List Char) (c : Nat) :
    Steady .loop (P.dispatch text) c := by
  rcases P.dispatch_cases text with hk | ⟨job, hk⟩ | ⟨ending, hk⟩ | hk | hk
  · rw [hk]
    exact .inl rfl
  · rw [hk]
    exact .inl rfl
  · rw [hk]
    exact .inr ⟨rfl, rfl⟩
  · rw [hk]
    exact .inl rfl
  · rw [hk]
    exact .inl rfl

/-- A service that exits says "yesn", and its parent marks it. -/
theorem marks_yesn (p : Nat) (str : Buffer) :
    State.marks p .kill (State.settle p .kill (str.load (Reply.bytes .yesn))) = true := by
  have hstarts : (str.load (Reply.bytes .yesn)).startsYes = true := rfl
  have hthree : str.load (Reply.bytes .yesn) fourth = 'n' := rfl
  simp [State.marks, State.accepts, State.settle, hstarts, hthree]

/-- Where a process stands when it has judged a reply. -/
theorem judge_control (p : Nat) (P : Proc) (job : Job) (next : List Nat) (str : Buffer) :
    (State.judge p P job next str).control = .walk job next ∨
      p = 0 ∧ job = .find ∧ (State.judge p P job next str).control = .walk .kill P.children ∨
      p = 0 ∧ (State.judge p P job next str).control = .loop ∨
      p ≠ 0 ∧ (State.judge p P job next str).control = .reply .yes := by
  unfold State.judge State.found
  by_cases haccepts : State.accepts p job str = true
  · by_cases hp : p = 0
    · by_cases hfind : job = .find
      · subst hp hfind
        simp [haccepts]
      · subst hp
        simp [haccepts, hfind]
    · simp [haccepts, hp]
  · simp [haccepts]

/-- What holds of the next round of a walk, of the loop and of an answer holds behind every
reply. -/
theorem of_judge {Q : Control → Prop} (hwalk : ∀ job next, Q (.walk job next)) (hloop : Q .loop)
    (hyes : Q (.reply .yes)) (p : Nat) (P : Proc) (job : Job) (next : List Nat) (str : Buffer) :
    Q (State.judge p P job next str).control := by
  rcases judge_control p P job next str with hk | ⟨-, -, hk⟩ | ⟨-, hk⟩ | ⟨-, hk⟩
  · rw [hk]
    exact hwalk job next
  · rw [hk]
    exact hwalk .kill P.children
  · rw [hk]
    exact hloop
  · rw [hk]
    exact hyes

theorem own_judge {P : Proc} {job : Job} {next : List Nat} (h : Own p P)
    (hcontrol : P.control = .await job c next) (str : Buffer) :
    Own p (State.judge p P job next str) := by
  have hpending := h.pending
  have hpasses := h.passes
  have hbehind := h.behind
  rw [hcontrol] at hpending hpasses hbehind
  rcases judge_control p P job next str with hk | ⟨hp, hfind, hk⟩ | ⟨-, hk⟩ | ⟨-, hk⟩
  · constructor
    · exact h.short
    · simp [hk]
    · intro c' hc'
      rw [hk] at hc'
      exact hpending c' (List.mem_cons_of_mem c hc')
    · intro job' hjob'
      rw [hk] at hjob'
      exact hpasses job' hjob'
    · intro hp hfind
      rw [hk] at hfind
      exact hbehind hp hfind
  · constructor
    · exact h.short
    · simp [hk]
    · intro c' hc'
      rwa [hk] at hc'
    · intro job' hjob'
      rw [hk] at hjob'
      obtain rfl := Option.some.inj hjob'
      exact hbehind hp (congrArg some hfind)
    · intro _ hkill
      rw [hk] at hkill
      cases hkill
  all_goals
    constructor
    · exact h.short
    · simp [hk]
    · simp [hk, Control.pending]
    · simp [hk, Control.passes]
    · simp [hk, Control.passes]

theorem holder_mem {c' : Nat} (hc : c ∈ (s.procs p).children) (hholder : s.holder p c = some c') :
    c' ∈ (s.procs p).children ∧ (s.links c').isOpen = true := by
  unfold State.holder at hholder
  split at hholder
  · obtain rfl := Option.some.inj hholder
    exact ⟨hc, by assumption⟩
  · have hfound := List.find?_some hholder
    simp only [Bool.and_eq_true] at hfound
    exact ⟨List.mem_of_find?_eq_some hholder, hfound.1⟩

/-- A place in the loop that writes "dead", with what is left of the list. -/
def Ends (ending : Ending) (tmp : List Nat) (k : Control) : Prop :=
  k = .dying ending tmp ∨ k = .waiting ending tmp

namespace Ends

variable {ending : Ending} {tmp next : List Nat} {k k' : Control}

theorem toward (hk : Ends ending tmp k) (c : Nat) : k.toward c = .leaving := by
  rcases hk with rfl | rfl <;> rfl

theorem pending (hk : Ends ending tmp k) : k.pending = tmp := by
  rcases hk with rfl | rfl <;> rfl

theorem internal (hk : Ends ending tmp k) (hk' : Ends ending next k') : Internal k k' := by
  cases ending with
  | target =>
      rcases hk with rfl | rfl <;> rcases hk' with rfl | rfl <;>
        exact ⟨by simp, by simp, by simp, fun _ h => h, id⟩
  | dead =>
      rcases hk with rfl | rfl <;> rcases hk' with rfl | rfl <;>
        exact ⟨by simp, by simp, by simp, fun _ h => h, id⟩

theorem own {P : Proc} (hown : Own p P) (hk : Ends ending tmp P.control)
    (hk' : Ends ending next k') (hsub : next ⊆ tmp) : Own p (P.goto k') := by
  have hpending := hown.pending
  rw [hk.pending] at hpending
  apply hown.goto
  · intro child hchild
    rcases hk' with rfl | rfl <;> cases hchild
  · intro c hc
    rw [hk'.pending] at hc
    exact hpending c (hsub hc)
  · intro job hjob
    rcases hk' with rfl | rfl <;> cases hjob

/-- Such a step changes at most the link to one child. -/
theorem move (h : Inv s) (hk : Ends ending tmp (s.procs p).control) (hk' : Ends ending next k')
    (hsub : next ⊆ tmp) : Inv (s.setProc p ((s.procs p).goto k')) := by
  have hp : p < s.count := h.lt_count (by rcases hk with hk | hk <;> simp [hk])
  apply h.move hp (Proc.goto_same _ _) (own (h.own p hp) hk hk' hsub)
  · intro _
    exact hk.internal hk'
  · intro c
    left
    exact (hk'.toward c).trans (hk.toward c).symm

theorem touch {L : Link} (h : Inv s) (hk : Ends ending tmp (s.procs p).control)
    (hk' : Ends ending next k') (hsub : next ⊆ tmp) (hc : c ∈ (s.procs p).children)
    (hedge : Edge (s.hello c) (s.procs c).control (s.links c) .leaving →
      Edge (s.hello c) (s.procs c).control L .leaving) :
    Inv ((s.setLink c L).setProc p ((s.procs p).goto k')) := by
  have hp : p < s.count := h.lt_count (by rcases hk with hk | hk <;> simp [hk])
  apply h.touch hp hc (Proc.goto_same _ _) (own (h.own p hp) hk hk' hsub)
  · intro _
    exact hk.internal hk'
  · rw [hk.toward c]
    have hleaving : ((s.procs p).goto k').control.toward c = .leaving := hk'.toward c
    rw [hleaving]
    exact hedge
  · intro c' _
    left
    exact (hk'.toward c').trans (hk.toward c').symm

end Ends

namespace Inv

theorem greet (h : Inv s) (hcontrol : (s.procs p).control = .greet)
    (hcmd : (s.links p).cmd ≠ []) :
    Inv ((s.setLink p (s.links p).take).setProc p ((s.procs p).goto .loop)) := by
  have hp : p < s.count := h.lt_count (by simp [hcontrol])
  apply h.self hp (Proc.goto_same _ _)
  · exact (h.own p hp).goto_rest (by simp) rfl rfl
  · intro hpos hedge
    have hshort : (s.hello p).length ≤ 512 := by
      have hparent := h.older p hpos hp
      have := (h.own _ (Nat.lt_trans hparent hp)).short
      simp only [State.hello, List.length_append, List.length_singleton]
      omega
    exact hedge.greet hcontrol hcmd hshort
  · intro c
    rw [hcontrol]
    exact .inl rfl

theorem receive (h : Inv s) (hpos : 0 < p) (hcontrol : (s.procs p).control = .loop)
    (hcmd : (s.links p).cmd ≠ []) :
    Inv ((s.setLink p (s.links p).take).setProc p
      ((s.procs p).receive ((s.links p).cmd.take 512))) := by
  have hp : p < s.count := h.lt_count (by simp [hcontrol])
  have hown := h.own p hp
  have hsteady : ∀ chunk c, Steady (s.procs p).control ((s.procs p).receive chunk).control c := by
    intro chunk c
    rw [hcontrol]
    exact steady_dispatch _ _ c
  rcases (h.edge p hpos hp).commandless hcontrol hcmd with
    ⟨job, hstance, hread, hcommand, hrep, hlinked⟩ | ⟨hstance, hread, hdead, hrep, hcut⟩
  · have hshort : (s.links p).cmd.length ≤ 512 := by
      obtain ⟨text, htext, -, -, hlength⟩ := hcommand
      simp only [htext, List.length_append, List.length_singleton]
      omega
    rw [List.take_of_length_le hshort]
    obtain ⟨hown', hworks⟩ := hown.receive hpos hcommand
    apply h.self hp (Proc.receive_same _ _) hown' _ (hsteady _)
    intro _ _
    rw [hstance]
    exact .working hworks (hread.take hshort) hrep ⟨hlinked.isOpen, hlinked.unmarked⟩
  · have hshort : (s.links p).cmd.length ≤ 512 := by
      rw [hdead]
      decide
    rw [List.take_of_length_le hshort, hdead]
    obtain ⟨hown', hparting⟩ := hown.receive_dead hpos
    apply h.self hp (Proc.receive_same _ _) hown' _ (hsteady _)
    intro _ _
    exact .closed hstance (.inr hparting) (hread.take hshort) hrep ⟨hcut.closed, hcut.why⟩

theorem obey (h : Inv s) (hcontrol : (s.procs 0).control = .loop) (request : Request)
    (bufs : Buffers) : Inv (s.setProc 0 (State.obey ((s.procs 0).load bufs) request)) := by
  apply h.move h.born (State.obey_load_same _ _ _) (((h.own 0 h.born).load bufs).obey request)
  · intro hpos
    omega
  · intro c
    rw [hcontrol]
    rcases State.obey_control ((s.procs 0).load bufs) request with ⟨child, hk⟩ | hk | ⟨job, hk⟩
    · rw [hk]
      exact .inl rfl
    · rw [hk]
      exact .inr ⟨rfl, rfl⟩
    · rw [hk]
      exact .inl rfl

theorem nextCommand (h : Inv s) (hcontrol : (s.procs 0).control = .loop)
    (hstep : s.nextCommand = some s') : Inv s' := by
  obtain ⟨request, bufs, rest, -, rfl⟩ := State.nextCommand_cases hstep
  have hinv := h.obey hcontrol request bufs
  exact ⟨hinv.born, hinv.own, hinv.family, hinv.older, hinv.edge, hinv.unborn⟩

theorem greeting {child : Nat} (h : Inv s) (hcontrol : (s.procs p).control = .greeting child) :
    Inv ((s.setLink child ((s.links child).post ((s.procs p).name ++ [nul]))).setProc p
      ((s.procs p).goto (if p = 0 then .loop else .reply .yes))) := by
  have hp : p < s.count := h.lt_count (by simp [hcontrol])
  have hchild : child ∈ (s.procs p).children := by
    apply (h.own p hp).pending
    rw [hcontrol]
    exact List.mem_singleton_self child
  apply h.touch hp hchild (Proc.goto_same _ _)
  · apply (h.own p hp).goto_rest
    · split <;> simp
    · split <;> rfl
    · split <;> rfl
  · intro hpos
    rw [hcontrol, if_neg (by omega)]
    constructor
    · simp
    · simp
    · simp
    · intro job _ hyesn
      cases hyesn
    · exact False.elim
  · intro hedge
    have hhello : s.hello child = (s.procs p).name ++ [nul] := by
      rw [State.hello, (h.family p hp child hchild).2.2]
    have hquiet : Control.toward child (if p = 0 then .loop else .reply .yes) = .quiet := by
      split <;> rfl
    have hstance : Control.toward child (.greeting child) = .greeting := if_pos rfl
    rw [hcontrol, hstance, hhello] at hedge
    rw [hhello]
    exact hquiet ▸ hedge.welcome
  · intro c hne
    left
    rw [hcontrol]
    have hquiet : Control.toward c (.greeting child) = .quiet := if_neg (Ne.symm hne)
    rw [hquiet]
    simp only [Proc.goto]
    split <;> rfl

/-- The end of a walk that no child ended. -/
theorem walkEnd {job : Job} (h : Inv s) (hcontrol : (s.procs p).control = .walk job []) :
    Inv (s.setProc p ((s.procs p).goto (State.notFound p))) := by
  have hp : p < s.count := h.lt_count (by simp [hcontrol])
  unfold State.notFound
  apply h.move hp (Proc.goto_same _ _)
  · apply (h.own p hp).goto_rest
    · split <;> simp
    · split <;> rfl
    · split <;> rfl
  · intro hpos
    rw [hcontrol, if_neg (by omega)]
    constructor
    · simp
    · simp
    · simp
    · intro job _ hyesn
      cases hyesn
    · exact False.elim
  · intro c
    left
    rw [hcontrol]
    simp only [Proc.goto]
    split <;> rfl

theorem walkSkip {job : Job} {next : List Nat} (h : Inv s)
    (hcontrol : (s.procs p).control = .walk job (c :: next)) :
    Inv (s.setProc p ((s.procs p).goto (.walk job next))) := by
  have hp : p < s.count := h.lt_count (by simp [hcontrol])
  have hown := h.own p hp
  have hpending := hown.pending
  rw [hcontrol] at hpending
  apply h.move hp (Proc.goto_same _ _)
  · apply hown.goto
    · intro other hother
      cases hother
    · intro c' hc'
      exact hpending c' (List.mem_cons_of_mem c hc')
    · intro job' hjob'
      rw [hcontrol]
      exact hjob'
  · intro _
    rw [hcontrol]
    exact ⟨by simp, by simp, by simp, fun _ h => h, id⟩
  · intro c'
    rw [hcontrol]
    exact .inl rfl

theorem walkSend {job : Job} {next : List Nat} (h : Inv s)
    (hcontrol : (s.procs p).control = .walk job (c :: next))
    (hunmarked : (s.links c).haveKilled = false) (hgreeted : (s.procs c).control ≠ .greet) :
    Inv ((s.setLink c ((s.links c).post (State.outgoing p (s.procs p) job))).setProc p
      ((s.procs p).goto (.await job c next))) := by
  have hp : p < s.count := h.lt_count (by simp [hcontrol])
  have hown := h.own p hp
  have hpending := hown.pending
  have hcommand := hown.passes job (by rw [hcontrol]; rfl)
  rw [hcontrol] at hpending
  apply h.touch hp (hpending c List.mem_cons_self) (Proc.goto_same _ _)
  · apply hown.goto
    · intro other hother
      cases hother
    · exact hpending
    · intro job' hjob'
      rw [hcontrol]
      exact hjob'
  · intro _
    rw [hcontrol]
    exact ⟨by simp, by simp, by simp, fun _ h => h, id⟩
  · intro hedge
    have hstance : Control.toward c (.await job c next) = .awaiting job := if_pos rfl
    rw [hcontrol] at hedge
    exact hstance ▸ hedge.command hunmarked hgreeted hcommand
  · intro c' hne
    left
    rw [hcontrol]
    exact if_neg (Ne.symm hne)

theorem hear {job : Job} {next : List Nat} (h : Inv s)
    (hcontrol : (s.procs p).control = .await job c next) (hrep : (s.links c).rep ≠ []) :
    Inv (s.hear p job c next) := by
  have hp : p < s.count := h.lt_count (by simp [hcontrol])
  have hown := h.own p hp
  have hpending := hown.pending
  rw [hcontrol] at hpending
  have hquiet : ∀ str c', Control.toward c' (State.judge p (s.procs p) job next str).control =
      .quiet := by
    intro str c'
    exact of_judge (Q := fun k => k.toward c' = .quiet) (fun _ _ => rfl) rfl rfl p _ job next str
  unfold State.hear
  apply h.touch hp (hpending c List.mem_cons_self) (State.judge_same _ _ _ _ _)
    (own_judge hown hcontrol _)
  · intro hpos
    rw [hcontrol]
    constructor
    · simp
    · simp
    · simp
    · intro job' hjob'
      rcases judge_control p (s.procs p) job next _ with hk | ⟨hzero, -⟩ | ⟨hzero, -⟩ | ⟨-, hk⟩
      · rw [hk]
        exact hjob'
      · omega
      · omega
      · rw [hk]
        intro hyesn
        cases hyesn
    · exact False.elim
  · intro hedge
    have hstance : Control.toward c (.await job c next) = .awaiting job := if_pos rfl
    rw [hcontrol, hstance] at hedge
    obtain ⟨message, hbytes, hyesn, hedge'⟩ := hedge.hear hrep
    have hsize : 4 ≤ if p = 0 then 512 else 8 := by split <;> omega
    have htake : (s.links c).rep.take (if p = 0 then 512 else 8) = message.bytes := by
      rw [hbytes]
      apply List.take_of_length_le
      apply Nat.le_trans _ hsize
      cases message <;> decide
    rw [htake, hquiet]
    apply hedge' _ _ hsize
    rintro rfl
    rw [hyesn rfl]
    exact marks_yesn p _
  · intro c' hne
    left
    rw [hquiet, hcontrol]
    exact (if_neg (Ne.symm hne)).symm

theorem answer {message : Reply} (h : Inv s) (hcontrol : (s.procs p).control = .reply message) :
    Inv ((s.setLink p ((s.links p).answer message)).setProc p
      ((s.procs p).goto (if message = .yesn then .returning else .loop))) := by
  have hp : p < s.count := h.lt_count (by simp [hcontrol])
  apply h.self hp (Proc.goto_same _ _)
  · apply (h.own p hp).goto_rest
    · split <;> simp
    · split <;> rfl
    · split <;> rfl
  · intro _ hedge
    exact hedge.answer hcontrol
  · intro c
    left
    rw [hcontrol]
    cases message <;> rfl

/-- The end of the loop that writes "dead". -/
theorem dyingEnd {ending : Ending} (h : Inv s) (hcontrol : (s.procs p).control = .dying ending []) :
    Inv (s.setProc p ((s.procs p).goto ending.last)) := by
  have hp : p < s.count := h.lt_count (by simp [hcontrol])
  apply h.move hp (Proc.goto_same _ _)
  · apply (h.own p hp).goto_rest
    · cases ending <;> simp [Ending.last]
    · cases ending <;> rfl
    · cases ending <;> rfl
  · intro _
    rw [hcontrol]
    cases ending with
    | target => exact ⟨by simp, by simp, by simp, fun _ h _ => h, False.elim⟩
    | dead => exact ⟨by simp, by simp, by simp, fun _ h => h.elim, id⟩
  · intro c
    left
    rw [hcontrol]
    cases ending <;> rfl

/-- A service behind its last reply exits. -/
theorem exit (h : Inv s) (hcontrol : (s.procs p).control = .returning) :
    Inv (s.setProc p ((s.procs p).goto .exited)) := by
  have hp : p < s.count := h.lt_count (by simp [hcontrol])
  apply h.move hp (Proc.goto_same _ _)
  · exact (h.own p hp).goto_rest (by simp) rfl rfl
  · intro _
    rw [hcontrol]
    exact ⟨by simp, by simp, id, fun _ h => h, id⟩
  · intro c
    rw [hcontrol]
    exact .inl rfl

end Inv

namespace State

variable (s) {q : Nat} (child junk : List Char)

theorem procs_fork_parent (hp : p ≠ s.count) :
    (s.fork p child junk).procs p = (s.procs p).adopt s.count := by
  simp [fork, setProc, setLink, hp]

theorem procs_fork_born : (s.fork p child junk).procs s.count = .born p child junk := by
  simp [fork, setProc, setLink]

theorem procs_fork_of_ne (hqc : q ≠ s.count) (hqp : q ≠ p) :
    (s.fork p child junk).procs q = s.procs q := by
  simp [fork, setProc, setLink, hqc, hqp]

theorem links_fork_born :
    (s.fork p child junk).links s.count = .born (s.freeFd (s.procs p).children) := by
  simp [fork, setProc, setLink]

theorem links_fork_of_ne (hqc : q ≠ s.count) :
    (s.fork p child junk).links q = s.links q := by
  simp [fork, setProc, setLink, hqc]

end State

namespace Inv

theorem fork {child junk : List Char} (h : Inv s)
    (hcontrol : (s.procs p).control = .forking child) : Inv (s.fork p child junk) := by
  have hp : p < s.count := h.lt_count (by simp [hcontrol])
  have hown := h.own p hp
  have hpc : p ≠ s.count := Nat.ne_of_lt hp
  have hself := s.procs_fork_parent child junk hpc
  have hother : ∀ q, q ≠ s.count → q ≠ p → (s.fork p child junk).procs q = s.procs q :=
    fun q => s.procs_fork_of_ne child junk
  have hlinks : ∀ q, q ≠ s.count → (s.fork p child junk).links q = s.links q :=
    fun q => s.links_fork_of_ne child junk
  have hborn : (s.fork p child junk).procs s.count = .born p child junk :=
    s.procs_fork_born child junk
  have hlink := s.links_fork_born (p := p) child junk
  have hcount : (s.fork p child junk).count = s.count + 1 := rfl
  have hkept : ∀ q, q ≠ s.count → ((s.fork p child junk).procs q).name = (s.procs q).name ∧
      ((s.fork p child junk).procs q).parent = (s.procs q).parent := by
    intro q hqc
    by_cases hqp : q = p
    · rw [hqp, hself]
      exact ⟨rfl, rfl⟩
    · rw [hother q hqc hqp]
      exact ⟨rfl, rfl⟩
  constructor
  · omega
  · intro q hq
    by_cases hqc : q = s.count
    · subst hqc
      rw [hborn]
      constructor
      · exact hown.forking child hcontrol
      · simp [Proc.born]
      · simp [Proc.born, Control.pending]
      · simp [Proc.born, Control.passes]
      · simp [Proc.born, Control.passes]
    · by_cases hqp : q = p
      · subst hqp
        rw [hself]
        constructor
        · exact hown.short
        · simp [Proc.adopt]
        · simp [Proc.adopt, Control.pending]
        · simp [Proc.adopt, Control.passes]
        · simp [Proc.adopt, Control.passes]
      · rw [hother q hqc hqp]
        exact h.own q (by omega)
  · intro q hq c hc
    have hold : ∀ r, r < s.count → c ∈ (s.procs r).children →
        0 < c ∧ c < s.count + 1 ∧ ((s.fork p child junk).procs c).parent = r := by
      intro r hr hcr
      obtain ⟨hpos, hlt, hcp⟩ := h.family r hr c hcr
      exact ⟨hpos, by omega, ((hkept c (by omega)).2).trans hcp⟩
    by_cases hqc : q = s.count
    · subst hqc
      simp [hborn, Proc.born] at hc
    · by_cases hqp : q = p
      · subst hqp
        rw [hself, Proc.adopt, List.mem_append, List.mem_singleton] at hc
        rcases hc with hc | rfl
        · exact hold q hp hc
        · exact ⟨h.born, by omega, by rw [hborn]; rfl⟩
      · rw [hother q hqc hqp] at hc
        exact hold q (by omega) hc
  · intro c hpos hc
    by_cases hcc : c = s.count
    · subst hcc
      rw [hborn]
      exact hp
    · rw [(hkept c hcc).2]
      exact h.older c hpos (by omega)
  · intro c hpos hc
    simp only [State.hello, State.stance]
    by_cases hcc : c = s.count
    · subst hcc
      have hparent : (Proc.born p child junk).parent = p := rfl
      have hstance : ((s.procs p).adopt s.count).control.toward s.count = .greeting := if_pos rfl
      rw [hborn, hlink, hparent, hself, hstance]
      exact .forked rfl rfl rfl rfl rfl ⟨rfl, rfl⟩
    · have holder := h.older c hpos (by omega)
      have hedge := h.edge c hpos (by omega)
      have hq : (s.procs c).parent ≠ s.count := by omega
      rw [(hkept c hcc).2, (hkept _ hq).1, hlinks c hcc]
      by_cases hcp : c = p
      · subst hcp
        rw [hcontrol] at hedge
        rw [hother _ hq (Nat.ne_of_lt holder), hself]
        apply hedge.internal (by simp) (by simp) (by simp)
        · exact fun _ hjob => hjob
        · exact False.elim
      · rw [hother c hcc hcp]
        by_cases hparent : (s.procs c).parent = p
        · have hstance : ((s.procs p).adopt s.count).control.toward c = .quiet :=
            if_neg (Ne.symm hcc)
          simp only [State.hello, State.stance, hparent, hcontrol] at hedge
          rw [hparent, hself, hstance]
          exact hedge
        · rw [hother _ hq hparent]
          exact hedge
  · intro q hq
    rw [hother q (by omega) (by omega)]
    exact h.unborn q (by omega)

end Inv

end Services

end SystemsProgramming
