/-
Parent and child in lock-step: what a process may find in the pipes of a child, by what
it is doing to that child.
-/
import SystemsProgramming.FlatBytes
import SystemsProgramming.Services.Network

namespace SystemsProgramming

namespace Services

/-- A command as a walk sends it: a string with its NUL that fits one `read`. -/
def IsCommand (job : Job) (message : List Char) : Prop :=
  ∃ text, message = text ++ [nul] ∧ text.head? = some job.letter ∧ nul ∉ text ∧
    text.length < 512

/-- What a process is doing to one of its children. -/
inductive Stance where
  | quiet
  | greeting
  | awaiting (job : Job)
  | leaving

namespace Control

def toward (c : Nat) : Control → Stance
  | greeting child => if child = c then .greeting else .quiet
  | await job child _ => if child = c then .awaiting job else .quiet
  | reply .yesn | dying _ _ | waiting _ _ | returning | exited => .leaving
  | _ => .quiet

/-- A service between the `read` of a command for `job` and its reply. -/
def Works (job : Job) : Control → Prop
  | forking _ | greeting _ => job = .spawn
  | walk job' _ | await job' _ _ => job' = job
  | reply message => message = .yesn → job = .kill
  | dying .target _ | waiting .target _ => job = .kill
  | _ => False

/-- A service that has been told "dead", or has answered its last command. -/
def Parting : Control → Prop
  | dying .dead _ | waiting .dead _ | returning | exited => True
  | _ => False

/-- A service behind its loop: it has exited, or is about to. -/
@[simp] def Gone : Control → Prop
  | returning | exited => True
  | _ => False

theorem Gone.parting {k : Control} (hgone : k.Gone) : k.Parting := by
  cases k with
  | returning | exited => trivial
  | _ => exact hgone.elim

theorem gone_iff {k : Control} : k.Gone ↔ k = .returning ∨ k = .exited := by
  cases k <;> simp

/-- Where a service stands that has written this reply. -/
def Replied (message : Reply) (k : Control) : Prop :=
  if message = .yesn then k.Gone else k = .loop

theorem Replied.loop_or_gone {message : Reply} {k : Control} (hreplied : k.Replied message) :
    k = .loop ∨ k.Gone := by
  unfold Replied at hreplied
  split at hreplied
  · exact .inr hreplied
  · exact .inl hreplied

theorem not_replied_greet {message : Reply} : ¬ Replied message greet := by
  intro hreplied
  exact hreplied.loop_or_gone.elim (fun h => by cases h) id

/-- A service behind its loop may still exit. -/
theorem Replied.step {message : Reply} {k k' : Control} (hreplied : k.Replied message)
    (hloop : k ≠ .loop) (hgone : k.Gone → k'.Gone) : k'.Replied message := by
  unfold Replied at hreplied ⊢
  split at hreplied
  · rename_i hyesn
    rw [if_pos hyesn]
    exact hgone hreplied
  · exact absurd hreplied hloop

/-- The children that a process still has to turn to. -/
def pending : Control → List Nat
  | greeting child => [child]
  | walk _ tmp | dying _ tmp => tmp
  | await _ child next => child :: next
  | waiting _ next => next
  | _ => []

/-- What a process is passing on. -/
def passes : Control → Option Job
  | walk job _ | await job _ _ => some job
  | _ => none

end Control

namespace Link

/-- The child has read all that was written to it, the greeting first. -/
structure Drained (hello : List Char) (L : Link) : Prop where
  empty : L.cmd = []
  all : L.sent = L.got
  first : L.got.head? = some hello

/-- Just the last message is still in the pipe. -/
structure Unread (hello : List Char) (L : Link) : Prop where
  last : L.sent = L.got ++ [L.cmd]
  first : L.got.head? = some hello

/-- The pipes are open on the side of the parent. -/
structure Linked (L : Link) : Prop where
  isOpen : L.isOpen = true
  unmarked : L.haveKilled = false

/-- The parent has closed the pipes, to a marked child or as it leaves. -/
structure Cut (stance : Stance) (L : Link) : Prop where
  closed : L.isOpen = false
  why : L.haveKilled = true ∨ stance = .leaving

variable {hello bytes : List Char} {L : Link}

/-- A `read` takes all that is in a pipe of at most 512 bytes. -/
theorem take_whole (hshort : L.cmd.length ≤ 512) :
    L.take = { L with cmd := [], got := L.got ++ [L.cmd] } := by
  unfold take
  rw [List.drop_eq_nil_of_le hshort, List.take_of_length_le hshort]

theorem Unread.take (hread : Unread hello L) (hshort : L.cmd.length ≤ 512) :
    Drained hello L.take := by
  rw [take_whole hshort]
  exact ⟨rfl, hread.last, by simp [List.head?_append, hread.first]⟩

theorem Drained.post (hread : Drained hello L) : Unread hello (L.post bytes) :=
  ⟨by simp [Link.post, hread.empty, hread.all], hread.first⟩

theorem Drained.cmd_post (hread : Drained hello L) : (L.post bytes).cmd = bytes := by
  simp [Link.post, hread.empty]

end Link

open Link in
/-- The places of a child and its pipes that agree with the stance of its parent. -/
inductive Edge (hello : List Char) (control : Control) (L : Link) : Stance → Prop
  | forked (hcontrol : control = .greet) (hsent : L.sent = []) (hgot : L.got = [])
      (hcmd : L.cmd = []) (hrep : L.rep = []) (hlinked : Linked L) : Edge hello control L .greeting
  | fresh {stance : Stance} (hstance : stance = .quiet ∨ stance = .leaving)
      (hcontrol : control = .greet) (hsent : L.sent = [hello]) (hgot : L.got = [])
      (hcmd : L.cmd = hello) (hrep : L.rep = []) (hlinked : Linked L) : Edge hello control L stance
  | ready {stance : Stance} (hstance : stance = .quiet ∨ stance = .leaving)
      (hcontrol : control = .loop) (hread : Drained hello L) (hrep : L.rep = [])
      (hlinked : Linked L) : Edge hello control L stance
  | commanded {job : Job} (hcontrol : control = .loop) (hread : Unread hello L)
      (hcommand : IsCommand job L.cmd) (hrep : L.rep = []) (hlinked : Linked L) :
      Edge hello control L (.awaiting job)
  | working {job : Job} (hcontrol : control.Works job) (hread : Drained hello L)
      (hrep : L.rep = []) (hlinked : Linked L) : Edge hello control L (.awaiting job)
  | answered {job : Job} {message : Reply}
      (hcontrol : control.Replied message)
      (hread : Drained hello L) (hrep : L.rep = message.bytes)
      (hyesn : message = .yesn → job = .kill) (hlinked : Linked L) :
      Edge hello control L (.awaiting job)
  | told {stance : Stance} (hstance : stance = .quiet ∨ stance = .leaving)
      (hcontrol : control = .loop) (hread : Unread hello L) (hcmd : L.cmd = deadText)
      (hrep : L.rep = []) (hcut : Cut stance L) : Edge hello control L stance
  | closed {stance : Stance} (hstance : stance = .quiet ∨ stance = .leaving)
      (hcontrol : control = .loop ∨ control.Parting) (hread : Drained hello L)
      (hrep : L.rep = []) (hcut : Cut stance L) : Edge hello control L stance

/-- Each `read` of the child has returned one whole message, the greeting first, and at
most one message is in the pipe, with the child at a `read`. -/
structure Delivered (hello : List Char) (control : Control) (L : Link) : Prop where
  whole : L.cmd = [] ∧ L.sent = L.got ∨
    (control = .greet ∨ control = .loop) ∧ L.sent = L.got ++ [L.cmd]
  first : ∀ message, L.got.head? = some message → message = hello
  begun : control = .greet ↔ L.got = []

variable {hello : List Char} {control later : Control} {L : Link} {stance : Stance} {job : Job}

namespace Edge

theorem delivered (hedge : Edge hello control L stance) : Delivered hello control L := by
  have hbegun : ∀ {k : Control}, k ≠ .greet → L.got.head? = some hello →
      (k = .greet ↔ L.got = []) := by
    intro k hne hfirst
    constructor
    · intro h
      exact absurd h hne
    · intro h
      simp [h] at hfirst
  have hhead : L.got.head? = some hello → ∀ message, L.got.head? = some message →
      message = hello := by
    intro hfirst message hmessage
    exact Option.some.inj (hmessage.symm.trans hfirst)
  cases hedge with
  | forked hcontrol hsent hgot hcmd =>
      exact ⟨.inl ⟨hcmd, hsent.trans hgot.symm⟩, by simp [hgot], by simp [hcontrol, hgot]⟩
  | fresh _ hcontrol hsent hgot hcmd =>
      exact ⟨.inr ⟨.inl hcontrol, by simp [hsent, hgot, hcmd]⟩, by simp [hgot],
        by simp [hcontrol, hgot]⟩
  | ready _ hcontrol hread =>
      exact ⟨.inl ⟨hread.empty, hread.all⟩, hhead hread.first,
        hbegun (by simp [hcontrol]) hread.first⟩
  | commanded hcontrol hread | told _ hcontrol hread =>
      exact ⟨.inr ⟨.inr hcontrol, hread.last⟩, hhead hread.first,
        hbegun (by simp [hcontrol]) hread.first⟩
  | working hcontrol hread =>
      refine ⟨.inl ⟨hread.empty, hread.all⟩, hhead hread.first, hbegun ?_ hread.first⟩
      rintro rfl
      exact hcontrol
  | answered hcontrol hread =>
      refine ⟨.inl ⟨hread.empty, hread.all⟩, hhead hread.first, hbegun ?_ hread.first⟩
      rintro rfl
      exact Control.not_replied_greet hcontrol
  | closed _ hcontrol hread =>
      refine ⟨.inl ⟨hread.empty, hread.all⟩, hhead hread.first, hbegun ?_ hread.first⟩
      rintro rfl
      exact hcontrol.elim (fun h => by cases h) id

/-- A parent that leaves closes its pipes one after the other. -/
theorem leave (hedge : Edge hello control L .quiet) : Edge hello control L .leaving := by
  have hcut : Link.Cut .quiet L → Link.Cut .leaving L := fun h => ⟨h.closed, .inr rfl⟩
  cases hedge with
  | fresh _ hcontrol hsent hgot hcmd hrep hlinked =>
      exact .fresh (.inr rfl) hcontrol hsent hgot hcmd hrep hlinked
  | ready _ hcontrol hread hrep hlinked => exact .ready (.inr rfl) hcontrol hread hrep hlinked
  | told _ hcontrol hread hcmd hrep h =>
      exact .told (.inr rfl) hcontrol hread hcmd hrep (hcut h)
  | closed _ hcontrol hread hrep h => exact .closed (.inr rfl) hcontrol hread hrep (hcut h)

/-- The first `read` of a service takes the greeting. -/
theorem greet (hedge : Edge hello control L stance) (hcontrol : control = .greet)
    (hcmd : L.cmd ≠ []) (hshort : hello.length ≤ 512) : Edge hello .loop L.take stance := by
  cases hedge with
  | forked _ _ _ hempty => exact absurd hempty hcmd
  | fresh hstance _ hsent hgot hfull hrep hlinked =>
      have hread : Link.Drained hello L.take := by
        rw [Link.take_whole (by rw [hfull]; exact hshort)]
        exact ⟨rfl, by simp [hsent, hgot, hfull], by simp [hgot, hfull]⟩
      exact .ready hstance rfl hread hrep ⟨hlinked.isOpen, hlinked.unmarked⟩
  | ready _ h | commanded h | told _ h => exact Control.noConfusion (hcontrol.symm.trans h)
  | working h =>
      rw [hcontrol] at h
      exact h.elim
  | answered h =>
      rw [hcontrol] at h
      exact h.loop_or_gone.elim (fun h => by cases h) False.elim
  | closed _ h =>
      rw [hcontrol] at h
      exact h.elim (fun h => by cases h) False.elim

theorem commandless (hedge : Edge hello control L stance) (hcontrol : control = .loop)
    (hcmd : L.cmd ≠ []) :
    (∃ job, stance = .awaiting job ∧ Link.Unread hello L ∧ IsCommand job L.cmd ∧ L.rep = [] ∧
      L.Linked) ∨
    ((stance = .quiet ∨ stance = .leaving) ∧ Link.Unread hello L ∧ L.cmd = deadText ∧
      L.rep = [] ∧ L.Cut stance) := by
  cases hedge with
  | commanded _ hread hcommand hrep hlinked =>
      exact .inl ⟨_, rfl, hread, hcommand, hrep, hlinked⟩
  | told hstance _ hread hdead hrep hcut => exact .inr ⟨hstance, hread, hdead, hrep, hcut⟩
  | forked h | fresh _ h => exact Control.noConfusion (h.symm.trans hcontrol)
  | ready _ _ hread | answered _ hread | closed _ _ hread => exact absurd hread.empty hcmd
  | working _ hread => exact absurd hread.empty hcmd

/-- The reply ends the work. -/
theorem answer (hedge : Edge hello control L stance) {message : Reply}
    (hcontrol : control = .reply message) :
    Edge hello (if message = .yesn then .returning else .loop) (L.answer message) stance := by
  cases hedge with
  | working hworks hread hrep hlinked =>
      rw [hcontrol] at hworks
      have hread' : Link.Drained hello (L.answer message) := ⟨hread.empty, hread.all, hread.first⟩
      have hrep' : (L.answer message).rep = message.bytes := by simp [Link.answer, hrep]
      apply Edge.answered _ hread' hrep' hworks ⟨hlinked.isOpen, hlinked.unmarked⟩
      cases message <;> trivial
  | forked h | fresh _ h | ready _ h | commanded h | told _ h =>
      exact Control.noConfusion (h.symm.trans hcontrol)
  | answered h =>
      rw [hcontrol] at h
      exact h.loop_or_gone.elim (fun h => by cases h) False.elim
  | closed _ h =>
      rw [hcontrol] at h
      exact h.elim (fun h => by cases h) False.elim

/-- A step that touches neither pipe, of a service that is not at a `read`. -/
theorem internal (hedge : Edge hello control L stance) (hgreet : control ≠ .greet)
    (hloop : control ≠ .loop) (hgone : control.Gone → later.Gone)
    (hworks : ∀ job, control.Works job → later.Works job)
    (hparting : control.Parting → later.Parting) : Edge hello later L stance := by
  cases hedge with
  | working h hread hrep hlinked => exact .working (hworks _ h) hread hrep hlinked
  | closed hstance h hread hrep hcut =>
      exact .closed hstance (.inr (hparting (h.resolve_left hloop))) hread hrep hcut
  | forked h | fresh _ h => exact absurd h hgreet
  | ready _ h | commanded h | told _ h => exact absurd h hloop
  | answered h hread hrep hyesn hlinked =>
      exact .answered (h.step hloop hgone) hread hrep hyesn hlinked

/-- A child that has read its greeting is ready for the next message. -/
theorem post (hedge : Edge hello control L stance) (hstance : stance = .quiet ∨ stance = .leaving)
    (hlinked : L.isOpen = true) (hgreeted : control ≠ .greet) :
    control = .loop ∧ Link.Drained hello L ∧ L.rep = [] ∧ L.Linked := by
  cases hedge with
  | ready _ hcontrol hread hrep h => exact ⟨hcontrol, hread, hrep, h⟩
  | fresh _ h => exact absurd h hgreeted
  | forked | commanded | working | answered => simp at hstance
  | told _ _ _ _ _ hcut | closed _ _ _ _ hcut => simp [hcut.closed] at hlinked

/-- A child that can be sent a command. -/
theorem open_of_unmarked (hedge : Edge hello control L .quiet) (hunmarked : L.haveKilled = false) :
    L.isOpen = true := by
  cases hedge with
  | fresh _ _ _ _ _ _ hlinked | ready _ _ _ _ hlinked => exact hlinked.isOpen
  | told _ _ _ _ _ hcut | closed _ _ _ _ hcut =>
      rcases hcut.why with h | h
      · simp [hunmarked] at h
      · cases h

theorem command (hedge : Edge hello control L .quiet) (hunmarked : L.haveKilled = false)
    (hgreeted : control ≠ .greet) {message : List Char} (hcommand : IsCommand job message) :
    Edge hello control (L.post message) (.awaiting job) := by
  have hopen := hedge.open_of_unmarked hunmarked
  obtain ⟨hcontrol, hread, hrep, hlinked⟩ := hedge.post (.inl rfl) hopen hgreeted
  exact .commanded hcontrol hread.post (by rwa [hread.cmd_post]) hrep
    ⟨hlinked.isOpen, hlinked.unmarked⟩

theorem tell (hedge : Edge hello control L .leaving) (hopen : L.isOpen = true)
    (hgreeted : control ≠ .greet) :
    Edge hello control (L.post deadText).close .leaving := by
  obtain ⟨hcontrol, hread, hrep, hlinked⟩ := hedge.post (.inr rfl) hopen hgreeted
  exact .told (.inr rfl) hcontrol ⟨hread.post.last, hread.first⟩ hread.cmd_post hrep
    ⟨rfl, .inr rfl⟩

theorem welcome (hedge : Edge hello control L .greeting) :
    Edge hello control (L.post hello) .quiet := by
  cases hedge with
  | forked hcontrol hsent hgot hcmd hrep hlinked =>
      exact .fresh (.inl rfl) hcontrol (by simp [Link.post, hsent]) hgot
        (by simp [Link.post, hcmd]) hrep ⟨hlinked.isOpen, hlinked.unmarked⟩
  | fresh h | ready h | told h | closed h => simp at h

/-- The parent takes the reply, and marks a child that is gone. -/
theorem hear (hedge : Edge hello control L (.awaiting job)) (hrep : L.rep ≠ []) :
    ∃ message : Reply, L.rep = message.bytes ∧ (message = .yesn → job = .kill) ∧
      ∀ size marked, 4 ≤ size → (message = .yesn → marked = true) →
        Edge hello control (L.hear size marked) .quiet := by
  cases hedge with
  | @answered _ message hcontrol hread hbytes hyesn hlinked =>
      refine ⟨message, hbytes, hyesn, ?_⟩
      intro size marked hsize hmarked
      have hread' : Link.Drained hello (L.hear size marked) :=
        ⟨hread.empty, hread.all, hread.first⟩
      have hrep' : (L.hear size marked).rep = [] := by
        have hlength : L.rep.length ≤ 4 := by
          rw [hbytes]
          cases message <;> decide
        exact List.drop_eq_nil_of_le (Nat.le_trans hlength hsize)
      cases hm : marked with
      | true =>
          rw [hm] at hread' hrep'
          have hcut : Link.Cut .quiet (L.hear size true) := by
            constructor
            · simp [Link.hear]
            · left
              simp [Link.hear]
          apply Edge.closed (.inl rfl) _ hread' hrep' hcut
          exact hcontrol.loop_or_gone.imp_right Control.Gone.parting
      | false =>
          rw [hm] at hread' hrep'
          have hnot : message ≠ .yesn := by
            intro h
            simp [hmarked h] at hm
          apply Edge.ready (.inl rfl) ((if_neg hnot).mp hcontrol) hread' hrep'
          exact ⟨by simp [Link.hear, hlinked.isOpen], by simp [Link.hear, hlinked.unmarked]⟩
  | commanded _ _ _ h | working _ _ h => exact absurd h hrep
  | fresh h | ready h | told h | closed h => simp at h

/-- A message that is written behind the greeting comes with it in one `read`. -/
theorem overrun (hedge : Edge hello control L stance)
    (hstance : stance = .quiet ∨ stance = .leaving) (hcontrol : control = .greet)
    (message : List Char) : ¬ Delivered hello control (L.post message) := by
  have hfresh : L.sent = [hello] ∧ L.got = [] := by
    cases hedge with
    | fresh _ _ hsent hgot => exact ⟨hsent, hgot⟩
    | forked | commanded | working | answered => simp at hstance
    | ready _ h | told _ h => exact Control.noConfusion (hcontrol.symm.trans h)
    | closed _ h =>
        rw [hcontrol] at h
        exact h.elim (fun h => by cases h) False.elim
  intro hdelivered
  rcases hdelivered.whole with ⟨-, hsent⟩ | ⟨-, hsent⟩
  · simp [Link.post, hfresh.1, hfresh.2] at hsent
  · simp [Link.post, hfresh.1, hfresh.2] at hsent

/-- A `wait` leaves the pipes alone. -/
theorem reap (hedge : Edge hello control L stance) : Edge hello control L.reap stance := by
  have hdrained : Link.Drained hello L → Link.Drained hello L.reap :=
    fun h => ⟨h.empty, h.all, h.first⟩
  have hunread : Link.Unread hello L → Link.Unread hello L.reap := fun h => ⟨h.last, h.first⟩
  have hlinked : L.Linked → L.reap.Linked := fun h => ⟨h.isOpen, h.unmarked⟩
  have hcut : Link.Cut stance L → Link.Cut stance L.reap := fun h => ⟨h.closed, h.why⟩
  cases hedge with
  | forked hcontrol hsent hgot hcmd hrep h =>
      exact .forked hcontrol hsent hgot hcmd hrep (hlinked h)
  | fresh hstance hcontrol hsent hgot hcmd hrep h =>
      exact .fresh hstance hcontrol hsent hgot hcmd hrep (hlinked h)
  | ready hstance hcontrol hread hrep h =>
      exact .ready hstance hcontrol (hdrained hread) hrep (hlinked h)
  | commanded hcontrol hread hcommand hrep h =>
      exact .commanded hcontrol (hunread hread) hcommand hrep (hlinked h)
  | working hcontrol hread hrep h => exact .working hcontrol (hdrained hread) hrep (hlinked h)
  | answered hcontrol hread hrep hyesn h =>
      exact .answered hcontrol (hdrained hread) hrep hyesn (hlinked h)
  | told hstance hcontrol hread hcmd hrep h =>
      exact .told hstance hcontrol (hunread hread) hcmd hrep (hcut h)
  | closed hstance hcontrol hread hrep h =>
      exact .closed hstance hcontrol (hdrained hread) hrep (hcut h)

end Edge

/-! The branch that a service takes. -/

theorem length_word_le (k n : Nat) (text : List Char) : (word k n text).length ≤ text.length := by
  induction text generalizing n with
  | nil => simp [word]
  | cons c text ih =>
      have hrest := ih (if c = ' ' then n + 1 else n)
      simp only [word]
      split
      · simpa using hrest
      · exact Nat.le_trans hrest (by simp)

theorem works_dispatch (P : Proc) {text : List Char} (hjob : text.head? = some job.letter) :
    (P.dispatch text).Works job := by
  unfold Proc.dispatch
  rw [hjob]
  cases job with
  | spawn =>
      simp only [Job.letter]
      split
      · rfl
      · rfl
  | kill =>
      simp only [Job.letter]
      split
      · rfl
      · rfl
  | find =>
      simp only [Job.letter]
      split
      · intro h
        cases h
      · rfl
  | exchange =>
      simp only [Job.letter]
      split
      · intro h
        cases h
      · rfl

theorem parting_dispatch (P : Proc) {text : List Char} (hdead : text.head? = some 'd') :
    (P.dispatch text).Parting := by
  unfold Proc.dispatch
  rw [hdead]
  trivial

end Services

end SystemsProgramming
