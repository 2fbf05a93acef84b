/-
The pipes with a `read` that returns one message, however many are in the pipe.  A parent
may then run ahead of a service that has not read its greeting; what the processes do is
what they do where every greeting is read at once.
-/
import SystemsProgramming.Services.Delivery
import SystemsProgramming.Services.Errands

namespace SystemsProgramming

namespace Services

variable {s s' : State} {turn : Turn} {k : Control} {p c : Nat} {P : Proc} {L : Link}

namespace Link

/-- The message that the next `read` returns. -/
def nextMessage (L : Link) : Option (List Char) := L.sent[L.got.length]?

/-- A `read` that returns one message. -/
def takeMessage (L : Link) (message : List Char) : Link :=
  { L with cmd := L.cmd.drop message.length, got := L.got ++ [message] }

end Link

namespace State

/-- One turn of a process, where each `read` of a command returns one message. -/
def stepMessage (s : State) (turn : Turn) : Option State :=
  let p := turn.pid
  let P := s.procs p
  let L := s.links p
  match P.control with
  | .greet =>
      L.nextMessage.map fun message =>
        (s.setLink p (L.takeMessage message)).setProc p (P.goto .loop)
  | .loop =>
      if p = 0 then s.nextCommand
      else
        L.nextMessage.map fun message =>
          (s.setLink p (L.takeMessage message)).setProc p (P.receive message)
  | _ => s.step turn

end State

/-- The processes of `network`, with such pipes. -/
def messages : TransitionSystem State Turn where
  start := network.start
  step := State.stepMessage

namespace State

/-- A service with a greeting to read. -/
def Early (s : State) (c : Nat) : Prop :=
  (s.procs c).control = .greet ∧ (s.links c).sent ≠ []

instance (s : State) (c : Nat) : Decidable (s.Early c) := by
  unfold Early
  infer_instance

/-- The state in which these services have read it. -/
def caughtUp (s : State) : State :=
  { s with
    procs := fun c => if s.Early c then (s.procs c).goto .loop else s.procs c
    links := fun c =>
      if s.Early c then (s.links c).takeMessage ((s.links c).sent.headD []) else s.links c }

/-- Only services are greeted, and one that has read nothing finds all that was written in
its pipe. -/
def Unbegun (s : State) : Prop :=
  ∀ c, (s.procs c).control = .greet →
    0 < c ∧ (s.links c).got = [] ∧ (s.links c).cmd = (s.links c).sent.flatten

theorem eq_of_fields {s t : State} (hprocs : ∀ c, s.procs c = t.procs c)
    (hlinks : ∀ c, s.links c = t.links c) (hcount : s.count = t.count)
    (hscript : s.script = t.script) : s = t := by
  cases s
  cases t
  obtain rfl := funext hprocs
  obtain rfl := funext hlinks
  cases hcount
  cases hscript
  rfl

theorem procs_caughtUp (hearly : ¬ s.Early c) : s.caughtUp.procs c = s.procs c := if_neg hearly

theorem links_caughtUp (hearly : ¬ s.Early c) : s.caughtUp.links c = s.links c := if_neg hearly

/-- Nothing is to be caught up with. -/
theorem caughtUp_of_read (hread : ∀ c, (s.procs c).control ≠ .greet) : s.caughtUp = s := by
  apply eq_of_fields
  · intro c
    exact procs_caughtUp fun hearly => hread c hearly.1
  · intro c
    exact links_caughtUp fun hearly => hread c hearly.1
  · rfl
  · rfl

theorem not_early (hcontrol : (s.procs c).control ≠ .greet) : ¬ s.Early c :=
  fun hearly => hcontrol hearly.1

/-- What the parent of a service sees of it. -/
theorem seen_caughtUp (s : State) (c : Nat) :
    (s.caughtUp.links c).haveKilled = (s.links c).haveKilled ∧
    (s.caughtUp.links c).isOpen = (s.links c).isOpen ∧
    (s.caughtUp.links c).fd = (s.links c).fd ∧
    (s.caughtUp.links c).rep = (s.links c).rep ∧
    (s.caughtUp.links c).reaped = (s.links c).reaped := by
  unfold caughtUp Link.takeMessage
  dsimp only
  split <;> exact ⟨rfl, rfl, rfl, rfl, rfl⟩

theorem control_caughtUp (hgreet : k ≠ .greet) (hloop : k ≠ .loop) :
    (s.caughtUp.procs c).control = k ↔ (s.procs c).control = k := by
  by_cases hearly : s.Early c
  · have hprocs : s.caughtUp.procs c = (s.procs c).goto .loop := if_pos hearly
    rw [hprocs, hearly.1]
    constructor
    · intro h
      exact absurd h.symm hloop
    · intro h
      exact absurd h.symm hgreet
  · rw [procs_caughtUp hearly]

theorem gone_caughtUp : (s.caughtUp.procs c).control.Gone ↔ (s.procs c).control.Gone := by
  rw [Control.gone_iff, Control.gone_iff, control_caughtUp (by simp) (by simp),
    control_caughtUp (by simp) (by simp)]

theorem family_caughtUp (s : State) (c : Nat) :
    (s.caughtUp.procs c).SameFamily (s.procs c) := by
  by_cases hearly : s.Early c
  · have hprocs : s.caughtUp.procs c = (s.procs c).goto .loop := if_pos hearly
    rw [hprocs]
    exact Proc.goto_same _ _
  · rw [procs_caughtUp hearly]
    exact ⟨rfl, rfl, rfl⟩

theorem caughtUp_setProc (hcontrol : (s.procs p).control ≠ .greet) (hk : P.control ≠ .greet) :
    (s.setProc p P).caughtUp = s.caughtUp.setProc p P := by
  have hsame : ∀ c, c ≠ p → (s.setProc p P).procs c = s.procs c :=
    fun c hc => Function.update_of_ne hc _ _
  have hself : (s.setProc p P).procs p = P := Function.update_self _ _ _
  have hearly : ∀ c, c ≠ p → ((s.setProc p P).Early c ↔ s.Early c) := by
    intro c hc
    unfold Early
    rw [hsame c hc]
    rfl
  have hnot : ¬ (s.setProc p P).Early p := by
    apply not_early
    rwa [hself]
  apply eq_of_fields
  · intro c
    by_cases hc : c = p
    · subst hc
      have hupdated : (s.caughtUp.setProc c P).procs c = P := Function.update_self _ _ _
      rw [procs_caughtUp hnot, hself, hupdated]
    · have hother : (s.caughtUp.setProc p P).procs c = s.caughtUp.procs c :=
        Function.update_of_ne hc _ _
      rw [hother]
      simp only [caughtUp, hearly c hc, hsame c hc]
  · intro c
    by_cases hc : c = p
    · subst hc
      rw [links_caughtUp hnot]
      exact (links_caughtUp (not_early hcontrol)).symm
    · change (s.setProc p P).caughtUp.links c = s.caughtUp.links c
      simp only [caughtUp, hearly c hc]
      rfl
  · rfl
  · rfl

/-- A change of a link that leaves its first message alone. -/
theorem caughtUp_setLink {f : Link → Link}
    (hsent : (s.procs c).control = .greet → ((f (s.links c)).sent = [] ↔ (s.links c).sent = []))
    (htake : s.Early c → (f (s.links c)).takeMessage ((f (s.links c)).sent.headD []) =
      f ((s.links c).takeMessage ((s.links c).sent.headD []))) :
    (s.setLink c (f (s.links c))).caughtUp = s.caughtUp.setLink c (f (s.caughtUp.links c)) := by
  have hearly : ∀ d, (s.setLink c (f (s.links c))).Early d ↔ s.Early d := by
    intro d
    unfold Early
    by_cases hd : d = c
    · subst hd
      rw [links_setLink_self]
      exact and_congr_right fun hcontrol => not_congr (hsent hcontrol)
    · rw [links_setLink_of_ne hd]
      rfl
  apply eq_of_fields
  · intro d
    change (s.setLink c (f (s.links c))).caughtUp.procs d = s.caughtUp.procs d
    simp only [caughtUp, hearly d]
    rfl
  · intro d
    by_cases hd : d = c
    · subst hd
      rw [links_setLink_self]
      simp only [caughtUp, hearly d, links_setLink_self]
      split
      · rename_i h
        exact htake h
      · rfl
    · rw [links_setLink_of_ne hd]
      simp only [caughtUp, hearly d, links_setLink_of_ne hd]
  · rfl
  · rfl

theorem caughtUp_fork (hp : p < s.count) (hcontrol : (s.procs p).control ≠ .greet)
    (child junk : List Char) : (s.fork p child junk).caughtUp = s.caughtUp.fork p child junk := by
  have hpc : p ≠ s.count := Nat.ne_of_lt hp
  have hself := procs_caughtUp (not_early hcontrol)
  have hborn : ¬ (s.fork p child junk).Early s.count := by
    unfold Early
    rw [links_fork_born]
    simp [Link.born]
  have hadopted : ¬ (s.fork p child junk).Early p := by
    apply not_early
    rw [procs_fork_parent _ _ _ hpc]
    simp [Proc.adopt]
  have hearly : ∀ c, c ≠ s.count → c ≠ p → ((s.fork p child junk).Early c ↔ s.Early c) := by
    intro c hcc hcp
    unfold Early
    rw [procs_fork_of_ne _ _ _ hcc hcp, links_fork_of_ne _ _ _ hcc]
  have hfd : s.caughtUp.freeFd (s.procs p).children = s.freeFd (s.procs p).children := by
    unfold freeFd
    simp only [(s.seen_caughtUp _).2.1, (s.seen_caughtUp _).2.2.1]
  apply eq_of_fields
  · intro c
    by_cases hcc : c = s.count
    · rw [hcc, procs_caughtUp hborn, procs_fork_born]
      exact (s.caughtUp.procs_fork_born child junk).symm
    · by_cases hcp : c = p
      · rw [hcp, procs_caughtUp hadopted, procs_fork_parent _ _ _ hpc]
        have hforked :
            (s.caughtUp.fork p child junk).procs p = (s.caughtUp.procs p).adopt s.count :=
          s.caughtUp.procs_fork_parent child junk hpc
        rw [hforked, hself]
      · have hforked : (s.caughtUp.fork p child junk).procs c = s.caughtUp.procs c :=
          s.caughtUp.procs_fork_of_ne child junk hcc hcp
        rw [hforked]
        simp only [caughtUp, hearly c hcc hcp]
        rw [procs_fork_of_ne _ _ _ hcc hcp]
  · intro c
    by_cases hcc : c = s.count
    · rw [hcc, links_caughtUp hborn, links_fork_born]
      have hforked : (s.caughtUp.fork p child junk).links s.count =
          .born (s.caughtUp.freeFd (s.caughtUp.procs p).children) :=
        s.caughtUp.links_fork_born child junk
      rw [hforked, hself, hfd]
    · have hforked : (s.caughtUp.fork p child junk).links c = s.caughtUp.links c :=
        s.caughtUp.links_fork_of_ne child junk hcc
      rw [hforked]
      by_cases hcp : c = p
      · rw [hcp, links_caughtUp hadopted, links_caughtUp (not_early hcontrol),
          links_fork_of_ne _ _ _ hpc]
      · simp only [caughtUp, hearly c hcc hcp]
        rw [links_fork_of_ne _ _ _ hcc]
  · rfl
  · rfl

theorem holder_caughtUp (hcontrol : (s.procs p).control ≠ .greet) (c : Nat) :
    s.caughtUp.holder p c = s.holder p c := by
  unfold holder
  simp only [(s.seen_caughtUp _).2.1, (s.seen_caughtUp _).2.2.1,
    procs_caughtUp (not_early hcontrol)]

/-- A step that changes at most the link to the parent. -/
theorem caughtUp_self (hcontrol : (s.procs p).control ≠ .greet) (hk : P.control ≠ .greet)
    (L : Link) :
    ((s.setLink p L).setProc p P).caughtUp = (s.caughtUp.setLink p L).setProc p P := by
  rw [caughtUp_setProc _ hk, caughtUp_setLink (f := fun _ => L)]
  · intro hgreet
    exact absurd hgreet hcontrol
  · intro hearly
    exact absurd hearly.1 hcontrol
  · exact hcontrol

/-- A message behind the greeting. -/
theorem takeMessage_post (hunbegun : s.Unbegun) (hgreet : (s.procs c).control = .greet)
    (hsent : (s.links c).sent ≠ []) (bytes : List Char) :
    ((s.links c).post bytes).takeMessage (((s.links c).post bytes).sent.headD []) =
      ((s.links c).takeMessage ((s.links c).sent.headD [])).post bytes := by
  obtain ⟨-, -, hcmd⟩ := hunbegun c hgreet
  cases hlist : (s.links c).sent with
  | nil => exact absurd hlist hsent
  | cons hello rest =>
      have hle : hello.length ≤ (s.links c).cmd.length := by
        rw [hcmd, hlist, List.flatten_cons, List.length_append]
        omega
      simp [Link.post, Link.takeMessage, hlist, List.drop_append_of_le_length hle]

theorem caughtUp_post (hunbegun : s.Unbegun)
    (hgreeted : (s.procs c).control = .greet → (s.links c).sent ≠ []) (bytes : List Char) :
    (s.setLink c ((s.links c).post bytes)).caughtUp =
      s.caughtUp.setLink c ((s.caughtUp.links c).post bytes) := by
  apply caughtUp_setLink (f := fun L => L.post bytes)
  · intro hgreet
    simp [Link.post, hgreeted hgreet]
  · rintro ⟨hgreet, hsent⟩
    exact takeMessage_post hunbegun hgreet hsent bytes

theorem caughtUp_dead (hunbegun : s.Unbegun)
    (hgreeted : (s.procs c).control = .greet → (s.links c).sent ≠ []) :
    (s.setLink c ((s.links c).post deadText).close).caughtUp =
      s.caughtUp.setLink c ((s.caughtUp.links c).post deadText).close := by
  apply caughtUp_setLink (f := fun L => (L.post deadText).close)
  · intro hgreet
    simp [Link.post, Link.close, hgreeted hgreet]
  · rintro ⟨hgreet, hsent⟩
    exact congrArg Link.close (takeMessage_post hunbegun hgreet hsent deadText)

theorem caughtUp_hear {job : Job} {next : List Nat} (hcontrol : (s.procs p).control ≠ .greet) :
    (s.hear p job c next).caughtUp = s.caughtUp.hear p job c next := by
  unfold hear
  rw [procs_caughtUp (not_early hcontrol), (s.seen_caughtUp c).2.2.2.1]
  dsimp only
  rw [caughtUp_setProc, caughtUp_setLink (f := fun L => L.hear _ _)]
  · intro _
    rfl
  · intro _
    rfl
  · exact hcontrol
  · exact of_judge (Q := (· ≠ .greet)) (by simp) (by simp) (by simp) p _ job next _

theorem caughtUp_wait {ending : Ending} {next : List Nat} {zombie : Nat}
    (hcontrol : (s.procs p).control ≠ .greet) :
    s.caughtUp.wait p ending next zombie = (s.wait p ending next zombie).map caughtUp := by
  have hexited : (s.caughtUp.procs zombie).control = .exited ↔
      (s.procs zombie).control = .exited := control_caughtUp (by simp) (by simp)
  have hgoto : ((s.procs p).goto (.dying ending next)).control ≠ .greet := by simp [Proc.goto]
  unfold wait
  rw [procs_caughtUp (not_early hcontrol)]
  dsimp only
  simp only [hexited, (s.seen_caughtUp _).2.2.2.2]
  split
  · rw [Option.map_some, caughtUp_setProc _ hgoto, caughtUp_setLink (f := Link.reap)]
    · intro _
      rfl
    · intro _
      rfl
    · exact hcontrol
  · split
    · rw [Option.map_some, caughtUp_setProc hcontrol hgoto]
    · rfl

end State

theorem Edge.sent_of_greet {hello : List Char} {stance : Stance}
    (hedge : Edge hello .greet L stance) (hstance : stance = .quiet ∨ stance = .leaving) :
    L.sent ≠ [] := by
  cases hedge with
  | fresh _ _ hsent => simp [hsent]
  | forked => simp at hstance
  | ready _ hcontrol | commanded hcontrol | told _ hcontrol => cases hcontrol
  | working hworks => exact hworks.elim
  | answered hstill => exact (Control.not_replied_greet hstill).elim
  | closed _ hcontrol =>
      rcases hcontrol with h | h
      · cases h
      · exact h.elim

theorem Edge.all_of_empty {hello : List Char} {stance : Stance} (hedge : Edge hello k L stance)
    (hcontrol : k = .loop) (hcmd : L.cmd = []) : L.sent = L.got := by
  cases hedge with
  | ready _ _ hread | answered _ hread | closed _ _ hread | working _ hread => exact hread.all
  | forked hgreet | fresh _ hgreet => exact absurd (hcontrol.symm.trans hgreet) (by simp)
  | commanded _ _ hcommand =>
      obtain ⟨text, htext, -⟩ := hcommand
      simp [hcmd] at htext
  | told _ _ _ hdead =>
      rw [hcmd] at hdead
      cases hdead

namespace Inv

variable {s : State}

/-- Whoever is written to has been greeted. -/
theorem sent_of_child (h : Inv s.caughtUp) (hp : p < s.count) (hc : c ∈ (s.procs p).children)
    (hcontrol : (s.procs p).control = k) (hgreet : k ≠ .greet)
    (hstance : k.toward c = .quiet ∨ k.toward c = .leaving) :
    (s.procs c).control = .greet → (s.links c).sent ≠ [] := by
  subst hcontrol
  intro hchild
  by_contra hsent
  have hnot : ¬ s.Early c := fun hearly => hearly.2 hsent
  have hself := State.procs_caughtUp (State.not_early hgreet)
  rw [← hself] at hc hstance
  obtain ⟨-, -, -, -, hedge⟩ := h.child hp hc
  rw [State.procs_caughtUp hnot, State.links_caughtUp hnot, hchild] at hedge
  exact hedge.sent_of_greet hstance hsent

theorem greeted (h : Inv s.caughtUp) (turn : Turn) : s.caughtUp.Greeted turn := by
  intro c hwrites hgreet
  have hnot : ¬ s.Early c := by
    intro hearly
    have hprocs : s.caughtUp.procs c = (s.procs c).goto .loop := if_pos hearly
    rw [hprocs] at hgreet
    cases hgreet
  have hsent : (s.caughtUp.links c).sent = [] := by
    rw [State.links_caughtUp hnot]
    by_contra hsent
    rw [State.procs_caughtUp hnot] at hgreet
    exact hnot ⟨hgreet, hsent⟩
  have hmeet : ∀ k, (s.caughtUp.procs turn.pid).control = k → k ≠ .exited →
      c ∈ (s.caughtUp.procs turn.pid).children → k.toward c = .quiet ∨ k.toward c = .leaving →
      False := by
    intro k hcontrol hbusy hc hstance
    have hp := h.lt_count (p := turn.pid) (by rwa [hcontrol])
    obtain ⟨-, -, -, -, hedge⟩ := h.child hp hc
    rw [hgreet, hcontrol] at hedge
    exact hedge.sent_of_greet hstance hsent
  unfold State.writesTo at hwrites
  cases hcontrol : (s.caughtUp.procs turn.pid).control with
  | walk job tmp =>
      cases tmp with
      | nil => simp [hcontrol] at hwrites
      | cons c' next =>
          simp only [hcontrol] at hwrites
          split at hwrites
          · cases hwrites
          · obtain rfl := Option.some.inj hwrites
            have hc := h.mem_of_pending hcontrol (by simp) List.mem_cons_self
            exact hmeet _ hcontrol (by simp) hc (.inl rfl)
  | dying ending tmp =>
      cases tmp with
      | nil => simp [hcontrol] at hwrites
      | cons c' next =>
          simp only [hcontrol] at hwrites
          split at hwrites
          · cases hwrites
          · have hc := h.mem_of_pending hcontrol (by simp) List.mem_cons_self
            exact hmeet _ hcontrol (by simp) (holder_mem hc hwrites).1 (.inr rfl)
  | _ => simp [hcontrol] at hwrites

/-- What the next `read` of a command returns. -/
theorem nextMessage (h : Inv s) (hpos : 0 < p) (hcontrol : (s.procs p).control = .loop) :
    ((s.links p).cmd = [] ∧ (s.links p).nextMessage = none) ∨
      ((s.links p).cmd ≠ [] ∧ (s.links p).nextMessage = some (s.links p).cmd) := by
  have hp : p < s.count := h.lt_count (by simp [hcontrol])
  by_cases hcmd : (s.links p).cmd = []
  · left
    refine ⟨hcmd, ?_⟩
    have hall := (h.edge p hpos hp).all_of_empty hcontrol hcmd
    unfold Link.nextMessage
    rw [hall]
    exact List.getElem?_eq_none (Nat.le_refl _)
  · right
    refine ⟨hcmd, ?_⟩
    have hlast : (s.links p).sent = (s.links p).got ++ [(s.links p).cmd] := by
      rcases (h.edge p hpos hp).commandless hcontrol hcmd with
        ⟨_, _, hread, -⟩ | ⟨_, hread, -⟩
      · exact hread.last
      · exact hread.last
    unfold Link.nextMessage
    rw [hlast]
    exact List.getElem?_concat_length ..

end Inv

theorem dispatch_ne_greet (P : Proc) (text : List Char) : P.dispatch text ≠ .greet := by
  rcases P.dispatch_cases text with hk | ⟨job, hk⟩ | ⟨ending, hk⟩ | hk | hk <;> simp [hk]

theorem obey_ne_greet (P : Proc) (request : Request) :
    (State.obey P request).control ≠ .greet := by
  rcases State.obey_control P request with ⟨child, hk⟩ | hk | ⟨job, hk⟩ <;> simp [hk]

namespace State

/-- The processes that have nothing to do with a greeting do the same in both states. -/
theorem step_caughtUp (h : Inv s.caughtUp) (hunbegun : s.Unbegun)
    (hgreet : (s.procs turn.pid).control ≠ .greet)
    (hgreeting : ∀ child, (s.procs turn.pid).control ≠ .greeting child) :
    s.caughtUp.step turn = (s.stepMessage turn).map caughtUp := by
  have hprocs := procs_caughtUp (not_early hgreet)
  have hlinks := links_caughtUp (not_early hgreet)
  have hlt : (s.procs turn.pid).control ≠ .exited → turn.pid < s.count := by
    intro hbusy
    exact h.lt_count (by rwa [hprocs])
  unfold stepMessage step
  dsimp only
  rw [hprocs, hlinks]
  cases hcontrol : (s.procs turn.pid).control with
  | greet => exact absurd hcontrol hgreet
  | greeting child => exact absurd hcontrol (hgreeting child)
  | exited => rfl
  | loop =>
      dsimp only
      by_cases hp : turn.pid = 0
      · rw [if_pos hp, if_pos hp]
        rw [hp] at hprocs hcontrol
        unfold nextCommand
        cases hscript : s.script with
        | nil =>
            have hscript' : s.caughtUp.script = [] := hscript
            rw [hscript']
            rfl
        | cons action rest =>
            have hscript' : s.caughtUp.script = action :: rest := hscript
            have hset := caughtUp_setProc (s := s) (p := 0)
              (P := obey ((s.procs 0).load action.2) action.1) (by simp [hcontrol])
              (obey_ne_greet _ _)
            rw [hscript', hprocs]
            simp only [Option.map_some, Option.some.injEq]
            exact (congrArg (fun t : State => { t with script := rest }) hset).symm
      · have hpos : 0 < turn.pid := by omega
        have hnext := h.nextMessage hpos (by rw [hprocs, hcontrol])
        have hempty := h.take_cmd hpos (hlt (by simp [hcontrol]))
        rw [hlinks] at hnext hempty
        rw [if_neg hp, if_neg hp]
        rcases hnext with ⟨hcmd, hnone⟩ | ⟨hcmd, hsome⟩
        · rw [if_pos hcmd, hnone]
          rfl
        · have hshort : (s.links turn.pid).cmd.length ≤ 512 := List.drop_eq_nil_iff.mp hempty
          have htake : (s.links turn.pid).take =
              (s.links turn.pid).takeMessage (s.links turn.pid).cmd := by
            rw [Link.take_whole hshort]
            simp [Link.takeMessage]
          rw [if_neg hcmd, hsome, List.take_of_length_le hshort, htake, Option.map_some,
            Option.map_some, caughtUp_self hgreet (dispatch_ne_greet _ _)]
  | forking child =>
      dsimp only
      rw [Option.map_some, caughtUp_fork (hlt (by simp [hcontrol])) hgreet]
  | walk job tmp =>
      cases tmp with
      | nil =>
          dsimp only
          rw [Option.map_some, caughtUp_setProc hgreet]
          simp only [Proc.goto, notFound]
          split <;> simp
      | cons c next =>
          dsimp only
          rw [(s.seen_caughtUp c).1]
          split
          · rw [Option.map_some, caughtUp_setProc hgreet (by simp [Proc.goto])]
          · have hp := hlt (by simp [hcontrol])
            have hc := h.mem_of_pending (by rw [hprocs, hcontrol]) (by simp) List.mem_cons_self
            rw [hprocs] at hc
            have hsent := h.sent_of_child hp hc hcontrol (by simp) (.inl rfl)
            rw [Option.map_some, caughtUp_setProc _ (by simp [Proc.goto]),
              caughtUp_post hunbegun hsent]
            exact hgreet
  | await job c next =>
      dsimp only
      rw [(s.seen_caughtUp c).2.2.2.1]
      split
      · rfl
      · rw [Option.map_some, caughtUp_hear hgreet]
  | reply message =>
      dsimp only
      rw [Option.map_some, caughtUp_self hgreet]
      simp only [Proc.goto]
      split <;> simp
  | dying ending tmp =>
      cases tmp with
      | nil =>
          dsimp only
          rw [Option.map_some, caughtUp_setProc hgreet]
          cases ending <;> simp [Proc.goto, Ending.last]
      | cons c next =>
          dsimp only
          rw [(s.seen_caughtUp c).1, holder_caughtUp hgreet]
          split
          · rw [Option.map_some, caughtUp_setProc hgreet (by simp [Proc.goto])]
          · split
            · rename_i c' hholder
              have hp := hlt (by simp [hcontrol])
              have hc := h.mem_of_pending (by rw [hprocs, hcontrol]) (by simp) List.mem_cons_self
              rw [hprocs] at hc
              have hsent := h.sent_of_child hp (holder_mem hc hholder).1 hcontrol (by simp)
                (.inr rfl)
              rw [Option.map_some, caughtUp_setProc _ (by simp [Proc.goto]),
                caughtUp_dead hunbegun hsent]
              exact hgreet
            · rw [Option.map_some, caughtUp_setProc hgreet (by simp [Proc.goto])]
  | waiting ending next =>
      dsimp only
      exact caughtUp_wait hgreet
  | returning =>
      dsimp only
      rw [Option.map_some, caughtUp_setProc hgreet (by simp [Proc.goto])]

namespace Unbegun

theorem touch {d : Nat} (hunbegun : s.Unbegun) (hk : P.control ≠ .greet)
    (hlink : d ≠ p → (s.procs d).control = .greet →
      (s.links d).got = [] ∧ (s.links d).cmd = (s.links d).sent.flatten →
      L.got = [] ∧ L.cmd = L.sent.flatten) : ((s.setLink d L).setProc p P).Unbegun := by
  intro c hgreet
  by_cases hcp : c = p
  · subst hcp
    have hprocs : ((s.setLink d L).setProc c P).procs c = P := Function.update_self _ _ _
    rw [hprocs] at hgreet
    exact absurd hgreet hk
  · have hprocs : ((s.setLink d L).setProc p P).procs c = s.procs c :=
      Function.update_of_ne hcp _ _
    rw [hprocs] at hgreet
    obtain ⟨hpos, hfresh⟩ := hunbegun c hgreet
    refine ⟨hpos, ?_⟩
    change ((s.setLink d L).links c).got = [] ∧
      ((s.setLink d L).links c).cmd = ((s.setLink d L).links c).sent.flatten
    by_cases hcd : c = d
    · subst hcd
      rw [links_setLink_self]
      exact hlink hcp hgreet hfresh
    · rw [links_setLink_of_ne hcd]
      exact hfresh

theorem move (hunbegun : s.Unbegun) (hk : P.control ≠ .greet) : (s.setProc p P).Unbegun := by
  have hself : s.setLink p (s.links p) = s := by simp [setLink]
  rw [← hself]
  exact hunbegun.touch hk fun hne => absurd rfl hne

theorem fork (hunbegun : s.Unbegun) (hp : p < s.count) (child junk : List Char) :
    (s.fork p child junk).Unbegun := by
  intro c hgreet
  by_cases hcc : c = s.count
  · rw [hcc, links_fork_born]
    exact ⟨by omega, rfl, rfl⟩
  · rw [links_fork_of_ne _ _ _ hcc]
    by_cases hcp : c = p
    · rw [hcp, procs_fork_parent _ _ _ (Nat.ne_of_lt hp)] at hgreet
      cases hgreet
    · rw [procs_fork_of_ne _ _ _ hcc hcp] at hgreet
      exact hunbegun c hgreet

theorem post {d : Nat} {bytes : List Char} (hunbegun : s.Unbegun) (hk : P.control ≠ .greet) :
    ((s.setLink d ((s.links d).post bytes)).setProc p P).Unbegun := by
  apply hunbegun.touch hk
  rintro - - ⟨hgot, hcmd⟩
  exact ⟨hgot, by simp [Link.post, hcmd]⟩

theorem step (hunbegun : s.Unbegun) (hlt : (s.procs turn.pid).control ≠ .exited →
    turn.pid < s.count) (hstep : s.stepMessage turn = some s') : s'.Unbegun := by
  have hread : ∀ {message : List Char} {P : Proc}, P.control ≠ .greet →
      ((s.setLink turn.pid ((s.links turn.pid).takeMessage message)).setProc turn.pid P).Unbegun :=
    fun hk => hunbegun.touch hk fun hne => absurd rfl hne
  have hother : s.step turn = some s' → (s.procs turn.pid).control ≠ .greet →
      (s.procs turn.pid).control ≠ .loop → s'.Unbegun := by
    intro hstep hgreet hloop
    cases Move.of_step hstep with
    | greet hcontrol _ => exact absurd hcontrol hgreet
    | command hp hcontrol _ => exact absurd (hp ▸ hcontrol) hloop
    | receive _ hcontrol _ => exact absurd hcontrol hloop
    | fork hcontrol => exact hunbegun.fork (hlt (by simp [hcontrol])) _ _
    | greeting _ =>
        apply hunbegun.post
        simp only [Proc.goto]
        split <;> simp
    | walkEnd _ =>
        apply hunbegun.move
        simp only [Proc.goto, notFound]
        split <;> simp
    | walkSkip _ _ | dyingSkip _ _ _ | tellNobody _ _ _ | waitNobody _ _ | exit _ =>
        exact hunbegun.move (by simp [Proc.goto])
    | walkSend _ _ => exact hunbegun.post (by simp [Proc.goto])
    | @hear job c next _ _ =>
        apply hunbegun.touch
        · exact of_judge (Q := (· ≠ .greet)) (by simp) (by simp) (by simp) _ _ job next _
        · exact fun _ _ hfresh => hfresh
    | answer _ =>
        apply hunbegun.touch
        · simp only [Proc.goto]
          split <;> simp
        · exact fun _ _ hfresh => hfresh
    | @dyingEnd ending _ =>
        apply hunbegun.move
        cases ending <;> simp [Proc.goto, Ending.last]
    | tell _ _ _ =>
        apply hunbegun.touch (by simp [Proc.goto])
        rintro - - ⟨hgot, hcmd⟩
        exact ⟨hgot, by simp [Link.post, Link.close, hcmd]⟩
    | reap _ _ _ _ =>
        apply hunbegun.touch (by simp [Proc.goto])
        exact fun _ _ hfresh => hfresh
  unfold stepMessage at hstep
  dsimp only at hstep
  cases hcontrol : (s.procs turn.pid).control with
  | greet =>
      simp only [hcontrol, Option.map_eq_some_iff] at hstep
      obtain ⟨message, -, rfl⟩ := hstep
      exact hread (by simp [Proc.goto])
  | loop =>
      simp only [hcontrol] at hstep
      split at hstep
      · unfold nextCommand at hstep
        cases hscript : s.script with
        | nil => simp [hscript] at hstep
        | cons action rest =>
            simp only [hscript, Option.some.injEq] at hstep
            obtain rfl := hstep
            exact hunbegun.move (obey_ne_greet _ _)
      · simp only [Option.map_eq_some_iff] at hstep
        obtain ⟨message, -, rfl⟩ := hstep
        exact hread (dispatch_ne_greet _ _)
  | _ =>
      simp only [hcontrol] at hstep
      exact hother hstep (by simp [hcontrol]) (by simp [hcontrol])

end Unbegun

end State

/-- A turn, as it is seen where every greeting is read at once. -/
inductive Follows (s : State) (turn : Turn) (s' : State) : Prop
  | read (hearly : s.Early turn.pid) (hsame : s'.caughtUp = s.caughtUp)
  | same (hgreet : (s.procs turn.pid).control ≠ .greet)
      (hmove : Move s.caughtUp turn s'.caughtUp)
  | greeting {t : State} {child : Nat} (hcontrol : (s.procs turn.pid).control = .greeting child)
      (hmove : Move s.caughtUp turn t) (hpos : 0 < child)
      (hgreet : (t.procs child).control = .greet) (hread : Move t ⟨child, 0, []⟩ s'.caughtUp)

theorem Follows.of_read {message : List Char} (hunbegun : s.Unbegun)
    (hcontrol : (s.procs turn.pid).control = .greet)
    (hnext : (s.links turn.pid).nextMessage = some message) :
    Follows s turn ((s.setLink turn.pid ((s.links turn.pid).takeMessage message)).setProc turn.pid
      ((s.procs turn.pid).goto .loop)) := by
  have hfirst : (s.links turn.pid).sent[0]? = some message := by
    have hgot := (hunbegun _ hcontrol).2.1
    rwa [Link.nextMessage, hgot] at hnext
  have hsent : (s.links turn.pid).sent ≠ [] := by
    intro hnone
    simp [hnone] at hfirst
  have hhead : (s.links turn.pid).sent.headD [] = message := by
    rw [List.headD_eq_head?_getD, List.head?_eq_getElem?, hfirst]
    rfl
  have hearly : s.Early turn.pid := ⟨hcontrol, hsent⟩
  apply Follows.read hearly
  have hprocs : ((s.setLink turn.pid ((s.links turn.pid).takeMessage message)).setProc turn.pid
      ((s.procs turn.pid).goto .loop)).procs turn.pid = (s.procs turn.pid).goto .loop :=
    Function.update_self _ _ _
  have hnot : ¬ ((s.setLink turn.pid ((s.links turn.pid).takeMessage message)).setProc turn.pid
      ((s.procs turn.pid).goto .loop)).Early turn.pid := by
    apply State.not_early
    rw [hprocs]
    simp [Proc.goto]
  have hother : ∀ c, c ≠ turn.pid →
      (((s.setLink turn.pid ((s.links turn.pid).takeMessage message)).setProc turn.pid
        ((s.procs turn.pid).goto .loop)).procs c = s.procs c ∧
      ((s.setLink turn.pid ((s.links turn.pid).takeMessage message)).setProc turn.pid
        ((s.procs turn.pid).goto .loop)).links c = s.links c) :=
    fun c hc => ⟨Function.update_of_ne hc _ _, State.links_setLink_of_ne hc _ _⟩
  apply State.eq_of_fields
  · intro c
    by_cases hc : c = turn.pid
    · subst hc
      rw [State.procs_caughtUp hnot, hprocs]
      exact (if_pos hearly).symm
    · simp only [State.caughtUp, State.Early, hother c hc]
  · intro c
    by_cases hc : c = turn.pid
    · subst hc
      rw [State.links_caughtUp hnot]
      change (s.setLink turn.pid ((s.links turn.pid).takeMessage message)).links turn.pid = _
      rw [State.links_setLink_self, ← hhead]
      exact (if_pos hearly).symm
    · simp only [State.caughtUp, State.Early, hother c hc]
  · rfl
  · rfl

theorem Follows.of_greeting {child : Nat} (h : Inv s.caughtUp)
    (hcontrol : (s.procs turn.pid).control = .greeting child) :
    Follows s turn ((s.setLink child ((s.links child).post
      ((s.procs turn.pid).name ++ [nul]))).setProc turn.pid
      ((s.procs turn.pid).goto (if turn.pid = 0 then .loop else .reply .yes))) := by
  have hself : s.caughtUp.procs turn.pid = s.procs turn.pid :=
    State.procs_caughtUp (State.not_early (by simp [hcontrol]))
  have hcontrol' : (s.caughtUp.procs turn.pid).control = .greeting child := by rw [hself, hcontrol]
  have hp := h.lt_count (p := turn.pid) (by simp [hcontrol'])
  have hc := h.mem_of_pending hcontrol' (by simp) (List.mem_singleton_self _)
  obtain ⟨hpos, hlt, -, hcp, hedge⟩ := h.child hp hc
  have hstance : Control.toward child (.greeting child) = .greeting := if_pos rfl
  rw [hcontrol', hstance] at hedge
  -- the greeting is the first message, and the service has not begun
  have hnew : ¬ s.Early child := by
    intro hearly
    have hprocs : s.caughtUp.procs child = (s.procs child).goto .loop := if_pos hearly
    rw [hprocs] at hedge
    cases hedge with
    | forked hgreet => cases hgreet
    | fresh hstance | ready hstance | told hstance | closed hstance => simp at hstance
  rw [State.procs_caughtUp hnew, State.links_caughtUp hnew] at hedge
  obtain ⟨hgreet, hsent, hgot, hcmd⟩ : (s.procs child).control = .greet ∧
      (s.links child).sent = [] ∧ (s.links child).got = [] ∧ (s.links child).cmd = [] := by
    cases hedge with
    | forked hgreet hsent hgot hcmd => exact ⟨hgreet, hsent, hgot, hcmd⟩
    | fresh hstance | ready hstance | told hstance | closed hstance => simp at hstance
  have hshort : ((s.procs turn.pid).name ++ [nul]).length ≤ 512 := by
    have hname := (h.own _ hp).short
    rw [hself] at hname
    simp only [List.length_append, List.length_singleton]
    omega
  generalize hhello : (s.procs turn.pid).name ++ [nul] = hello at hshort
  have hne : hello ≠ [] := by simp [← hhello]
  let P := (s.procs turn.pid).goto (if turn.pid = 0 then .loop else .reply .yes)
  have hk : P.control ≠ .greet := by
    simp only [P, Proc.goto]
    split <;> simp
  let t := (s.caughtUp.setLink child ((s.links child).post hello)).setProc turn.pid P
  let s' := (s.setLink child ((s.links child).post hello)).setProc turn.pid P
  have hchild : t.procs child = s.procs child := by
    have hother : t.procs child = s.caughtUp.procs child := Function.update_of_ne hcp _ _
    rw [hother, State.procs_caughtUp hnew]
  have hlink : t.links child = (s.links child).post hello := Function.update_self _ _ _
  have hmove : Move s.caughtUp turn t := by
    have hgreeting := Move.greeting hcontrol'
    rw [hself, hhello, State.links_caughtUp hnew] at hgreeting
    exact hgreeting
  have hread : Move t ⟨child, 0, []⟩
      ((t.setLink child (t.links child).take).setProc child ((t.procs child).goto .loop)) := by
    refine @Move.greet t ⟨child, 0, []⟩ ?_ ?_
    · rw [hchild, hgreet]
    · rw [hlink]
      simp [Link.post, hne]
  have hsame : s'.caughtUp =
      (t.setLink child (t.links child).take).setProc child ((t.procs child).goto .loop) := by
    have hprocs' : s'.procs child = s.procs child := Function.update_of_ne hcp _ _
    have hlinks' : s'.links child = (s.links child).post hello := Function.update_self _ _ _
    have hearly : s'.Early child := by
      refine ⟨?_, ?_⟩
      · rw [hprocs', hgreet]
      · rw [hlinks']
        simp [Link.post]
    have hself' : s'.procs turn.pid = P := Function.update_self _ _ _
    apply State.eq_of_fields
    · intro d
      by_cases hdc : d = child
      · subst hdc
        have hleft : s'.caughtUp.procs d = (s'.procs d).goto .loop := if_pos hearly
        have hright : ((t.setLink d (t.links d).take).setProc d
            ((t.procs d).goto .loop)).procs d = (t.procs d).goto .loop :=
          Function.update_self _ _ _
        rw [hleft, hprocs', hright, hchild]
      · have hright : ((t.setLink child (t.links child).take).setProc child
            ((t.procs child).goto .loop)).procs d = t.procs d := Function.update_of_ne hdc _ _
        rw [hright]
        by_cases hdp : d = turn.pid
        · subst hdp
          have hleft : s'.caughtUp.procs turn.pid = s'.procs turn.pid := by
            apply State.procs_caughtUp (State.not_early _)
            rwa [hself']
          have hmid : t.procs turn.pid = P := Function.update_self _ _ _
          rw [hleft, hself', hmid]
        · have hold : s'.procs d = s.procs d := Function.update_of_ne hdp _ _
          have hlold : s'.links d = s.links d := State.links_setLink_of_ne hdc _ _
          have hmid : t.procs d = s.caughtUp.procs d := Function.update_of_ne hdp _ _
          rw [hmid]
          simp only [State.caughtUp, State.Early, hold, hlold]
    · intro d
      by_cases hdc : d = child
      · subst hdc
        have hleft : s'.caughtUp.links d =
            (s'.links d).takeMessage ((s'.links d).sent.headD []) := if_pos hearly
        have hright : ((t.setLink d (t.links d).take).setProc d
            ((t.procs d).goto .loop)).links d = (t.links d).take := Function.update_self _ _ _
        rw [hleft, hright, hlinks', hlink]
        have hcut : ((s.links d).post hello).cmd.length ≤ 512 := by simpa [Link.post, hcmd]
        rw [Link.take_whole hcut]
        simp [Link.takeMessage, Link.post, hcmd, hsent]
      · have hright : ((t.setLink child (t.links child).take).setProc child
            ((t.procs child).goto .loop)).links d = t.links d :=
          State.links_setLink_of_ne hdc _ _
        have hmid : t.links d = s.caughtUp.links d := State.links_setLink_of_ne hdc _ _
        rw [hright, hmid]
        by_cases hdp : d = turn.pid
        · subst hdp
          have hlold : s'.links turn.pid = s.links turn.pid := State.links_setLink_of_ne hdc _ _
          rw [State.links_caughtUp (State.not_early (by rwa [hself'])), hlold,
            State.links_caughtUp (State.not_early (by simp [hcontrol]))]
        · have hold : s'.procs d = s.procs d := Function.update_of_ne hdp _ _
          have hlold : s'.links d = s.links d := State.links_setLink_of_ne hdc _ _
          simp only [State.caughtUp, State.Early, hold, hlold]
    · rfl
    · rfl
  rw [← hsame] at hread
  exact .greeting hcontrol hmove hpos (by rw [hchild, hgreet]) hread

/-- What holds of the states of `messages`. -/
structure Sound (s : State) : Prop where
  inv : Inv s.caughtUp
  unbegun : s.Unbegun

namespace Sound

theorem lt_count (hsound : Sound s) (hbusy : (s.procs p).control ≠ .exited) : p < s.count := by
  apply hsound.inv.lt_count
  intro hexited
  exact hbusy ((State.control_caughtUp (by simp) (by simp)).mp hexited)

theorem follows (hsound : Sound s) (hstep : s.stepMessage turn = some s') :
    Follows s turn s' := by
  by_cases hgreet : (s.procs turn.pid).control = .greet
  · unfold State.stepMessage at hstep
    simp only [hgreet, Option.map_eq_some_iff] at hstep
    obtain ⟨message, hnext, rfl⟩ := hstep
    exact .of_read hsound.unbegun hgreet hnext
  · by_cases hgreeting : ∃ child, (s.procs turn.pid).control = .greeting child
    · obtain ⟨child, hcontrol⟩ := hgreeting
      unfold State.stepMessage State.step at hstep
      simp only [hcontrol, Option.some.injEq] at hstep
      obtain rfl := hstep
      exact .of_greeting hsound.inv hcontrol
    · have hcaught := State.step_caughtUp hsound.inv hsound.unbegun hgreet
        (not_exists.mp hgreeting)
      rw [hstep] at hcaught
      exact .same hgreet (.of_step hcaught)

/-- Where a process could go on if every greeting was read, one can go on. -/
theorem enabled {t : State} (hsound : Sound s) (hstep : s.caughtUp.step turn = some t) :
    ∃ s', s.stepMessage turn = some s' := by
  by_cases hgreet : (s.procs turn.pid).control = .greet
  · obtain ⟨-, hgot, hcmd⟩ := hsound.unbegun _ hgreet
    unfold State.stepMessage
    simp only [hgreet]
    cases hsent : (s.links turn.pid).sent with
    | cons hello rest => simp [Link.nextMessage, hgot, hsent]
    | nil =>
        have hnot : ¬ s.Early turn.pid := fun hearly => hearly.2 hsent
        unfold State.step at hstep
        simp [State.procs_caughtUp hnot, State.links_caughtUp hnot, hgreet, hcmd, hsent] at hstep
  · by_cases hgreeting : ∃ child, (s.procs turn.pid).control = .greeting child
    · obtain ⟨child, hcontrol⟩ := hgreeting
      unfold State.stepMessage State.step
      simp [hcontrol]
    · have hcaught := State.step_caughtUp hsound.inv hsound.unbegun hgreet
        (not_exists.mp hgreeting)
      rw [hstep] at hcaught
      obtain ⟨s', hs', -⟩ := Option.map_eq_some_iff.mp hcaught.symm
      exact ⟨s', hs'⟩

end Sound

/-- What every turn keeps where all greetings are read is kept by every turn. -/
theorem Follows.kept {J : State → Prop} (h : Inv s.caughtUp) (hfollows : Follows s turn s')
    (hkept : ∀ {t t' : State} {turn : Turn}, Inv t → t.Greeted turn → Move t turn t' → J t → J t')
    (hJ : J s.caughtUp) : J s'.caughtUp := by
  cases hfollows with
  | read _ hsame => rwa [hsame]
  | same _ hmove => exact hkept h (h.greeted turn) hmove hJ
  | @greeting t child _ hmove _ hgreet hread =>
      have ht := h.move_kept (h.greeted turn) hmove
      exact hkept ht (State.greeted_of_greet hgreet) hread (hkept h (h.greeted turn) hmove hJ)

namespace Sound

theorem step (hsound : Sound s) (hstep : s.stepMessage turn = some s') : Sound s' where
  inv := (hsound.follows hstep).kept hsound.inv (fun h hok hmove _ => h.move_kept hok hmove)
    hsound.inv
  unbegun := hsound.unbegun.step hsound.lt_count hstep

/-- Where no service has its greeting to read. -/
theorem of_inv (h : Inv s) (hread : ∀ c, (s.procs c).control ≠ .greet) : Sound s where
  inv := by rwa [State.caughtUp_of_read hread]
  unbegun c hgreet := absurd hgreet (hread c)

/-- At the start no service is there to be greeted. -/
theorem greeted_start (hstart : messages.start s) (c : Nat) : (s.procs c).control ≠ .greet := by
  obtain ⟨-, -, hcontrol, -, hunborn⟩ := hstart
  by_cases hc : c = 0
  · simp [hc, hcontrol]
  · simp [hunborn c hc]

theorem start (hstart : messages.start s) : Sound s :=
  of_inv (Inv.start hstart) (greeted_start hstart)

theorem of_reachable (hreach : messages.Reachable s) : Sound s :=
  hreach.invariant (fun _ => start) fun _ _ _ hsound hstep => hsound.step hstep

end Sound

/-! The services with a greeting to read. -/

namespace State

def greeters (s : State) : Nat :=
  ((Finset.range s.count).filter fun c => (s.procs c).control = .greet).card

theorem greeters_lt (hp : turn.pid < s.count) (hgreet : (s.procs turn.pid).control = .greet)
    (hstep : s.stepMessage turn = some s') : s'.greeters < s.greeters := by
  unfold stepMessage at hstep
  simp only [hgreet, Option.map_eq_some_iff] at hstep
  obtain ⟨message, -, rfl⟩ := hstep
  unfold greeters
  apply Finset.card_lt_card
  rw [Finset.ssubset_iff_of_subset]
  · refine ⟨turn.pid, ?_, ?_⟩
    · exact Finset.mem_filter.mpr ⟨Finset.mem_range.mpr hp, hgreet⟩
    · intro hmem
      have hcontrol := (Finset.mem_filter.mp hmem).2
      simp [setProc, Proc.goto] at hcontrol
  · intro c hc
    obtain ⟨hlt, hcontrol⟩ := Finset.mem_filter.mp hc
    refine Finset.mem_filter.mpr ⟨hlt, ?_⟩
    by_cases hcp : c = turn.pid
    · rw [hcp, hgreet]
    · have hsame : ((s.setLink turn.pid ((s.links turn.pid).takeMessage message)).setProc turn.pid
          ((s.procs turn.pid).goto .loop)).procs c = s.procs c := Function.update_of_ne hcp _ _
      rwa [hsame] at hcontrol

end State

namespace Sound

/-- The Manager is not greeted. -/
theorem manager (hsound : Sound s) : s.caughtUp.procs 0 = s.procs 0 := by
  apply State.procs_caughtUp
  rintro ⟨hgreet, -⟩
  exact absurd (hsound.unbegun 0 hgreet).1 (Nat.lt_irrefl 0)

end Sound

/-- A turn spends some of what is left, or reads a greeting. -/
theorem Follows.spends (h : Inv s.caughtUp) (htidy : Tidy s.caughtUp)
    (hfollows : Follows s turn s')
    (hcommand : turn.pid = 0 → (s.caughtUp.procs 0).control ≠ .loop)
    (hfinds : ¬ s.caughtUp.Finds s'.caughtUp) :
    (s.procs turn.pid).control = .greet ∧ s'.caughtUp = s.caughtUp ∨
      s'.caughtUp.work < s.caughtUp.work := by
  cases hfollows with
  | read hearly hsame => exact .inl ⟨hearly.1, hsame⟩
  | same _ hmove => exact .inr (hmove.spends h htidy hcommand hfinds).work
  | @greeting t child hcontrol hmove hpos hgreet hread =>
      right
      have hself := State.procs_caughtUp (s := s) (c := turn.pid)
        (State.not_early (by simp [hcontrol]))
      have hmid : Spends s.caughtUp t := by
        apply hmove.spends h htidy hcommand
        apply hmove.not_finds h
        intro hzero
        rw [hzero] at hself hcontrol
        simp [hself, hcontrol, Control.passes]
      have ht := h.move_kept (h.greeted turn) hmove
      have hlast : Spends t s'.caughtUp := by
        apply hread.spends ht (htidy.move_kept h hmove)
        · intro hzero
          exact absurd hzero (Nat.ne_of_gt hpos)
        · apply hread.not_finds ht
          intro hzero
          exact absurd hzero (Nat.ne_of_gt hpos)
      exact Nat.lt_trans hlast.work hmid.work

end Services

end SystemsProgramming
