/-
The invariant of all processes and their pipes, with one rule for each kind of turn.
-/
import SystemsProgramming.Services.Edges

namespace SystemsProgramming

namespace Services

variable {s s' : State} {p c : Nat} {P P' : Proc} {L : Link} {k k' : Control}

namespace State

/-- The greeting of a service. -/
def hello (s : State) (c : Nat) : List Char := (s.procs (s.procs c).parent).name ++ [nul]

/-- What the parent of a service is doing to it. -/
def stance (s : State) (c : Nat) : Stance := (s.procs (s.procs c).parent).control.toward c

end State

/-- What a process says about itself. -/
structure Own (p : Nat) (P : Proc) : Prop where
  short : P.name.length < 512
  forking : ∀ child, P.control = .forking child → child.length < 512
  pending : ∀ c ∈ P.control.pending, c ∈ P.children
  passes : ∀ job, P.control.passes = some job → IsCommand job (State.outgoing p P job)
  behind : p = 0 → P.control.passes = some .find → IsCommand .kill (State.outgoing p P .kill)

structure Inv (s : State) : Prop where
  born : 0 < s.count
  own : ∀ p, p < s.count → Own p (s.procs p)
  family : ∀ p, p < s.count → ∀ c ∈ (s.procs p).children,
    0 < c ∧ c < s.count ∧ (s.procs c).parent = p
  older : ∀ c, 0 < c → c < s.count → (s.procs c).parent < c
  edge : ∀ c, 0 < c → c < s.count → Edge (s.hello c) (s.procs c).control (s.links c) (s.stance c)
  unborn : ∀ p, s.count ≤ p → (s.procs p).control = .exited

/-- A process keeps its place in the tree. -/
structure Proc.SameFamily (P P' : Proc) : Prop where
  name : P.name = P'.name
  parent : P.parent = P'.parent
  children : P.children = P'.children

theorem Proc.goto_same (P : Proc) (k : Control) : (P.goto k).SameFamily P := ⟨rfl, rfl, rfl⟩

theorem Proc.receive_same (P : Proc) (chunk : List Char) : (P.receive chunk).SameFamily P :=
  ⟨rfl, rfl, rfl⟩

theorem Proc.load_same (P : Proc) (bufs : Buffers) : (P.load bufs).SameFamily P :=
  ⟨rfl, rfl, rfl⟩

theorem Proc.SameFamily.trans {P'' : Proc} (h : P.SameFamily P') (h' : P'.SameFamily P'') :
    P.SameFamily P'' :=
  ⟨h.name.trans h'.name, h.parent.trans h'.parent, h.children.trans h'.children⟩

theorem State.obey_same (P : Proc) (request : Request) : (State.obey P request).SameFamily P := by
  cases request with
  | spawn =>
      simp only [State.obey]
      split <;> exact ⟨rfl, rfl, rfl⟩
  | kill =>
      simp only [State.obey]
      split <;> exact ⟨rfl, rfl, rfl⟩
  | exchange => exact ⟨rfl, rfl, rfl⟩

theorem State.obey_load_same (P : Proc) (bufs : Buffers) (request : Request) :
    (State.obey (P.load bufs) request).SameFamily P :=
  (State.obey_same _ _).trans (P.load_same bufs)

/-- A command of the script leads to a `fork`, to a walk or to the loop that writes "dead". -/
theorem State.obey_control (P : Proc) (request : Request) :
    (∃ child, (State.obey P request).control = .forking child) ∨
      (State.obey P request).control = .dying .dead P.children ∨
      ∃ job, (State.obey P request).control = .walk job P.children := by
  cases request with
  | spawn parent child =>
      simp only [State.obey]
      split
      · exact .inl ⟨_, rfl⟩
      · exact .inr (.inr ⟨_, rfl⟩)
  | kill target =>
      simp only [State.obey]
      split
      · exact .inr (.inl rfl)
      · exact .inr (.inr ⟨_, rfl⟩)
  | exchange one other => exact .inr (.inr ⟨_, rfl⟩)

theorem State.nextCommand_cases {s s' : State} (hstep : s.nextCommand = some s') :
    ∃ request bufs rest, s.script = (request, bufs) :: rest ∧
      s' = { s.setProc 0 (State.obey ((s.procs 0).load bufs) request) with script := rest } := by
  unfold State.nextCommand at hstep
  cases hscript : s.script with
  | nil => simp [hscript] at hstep
  | cons entry rest =>
      simp only [hscript, Option.some.injEq] at hstep
      exact ⟨entry.1, entry.2, rest, rfl, hstep.symm⟩

theorem State.judge_same (p : Nat) (P : Proc) (job : Job) (next : List Nat) (str : Buffer) :
    (State.judge p P job next str).SameFamily P := ⟨rfl, rfl, rfl⟩

/-- A step between the `read` of a command and the reply. -/
structure Internal (k k' : Control) : Prop where
  greet : k ≠ .greet
  loop : k ≠ .loop
  gone : k.Gone → k'.Gone
  works : ∀ job, k.Works job → k'.Works job
  parting : k.Parting → k'.Parting

/-- A step after which a process is doing to `c` what it did, or is leaving. -/
def Steady (k k' : Control) (c : Nat) : Prop :=
  k'.toward c = k.toward c ∨ k.toward c = .quiet ∧ k'.toward c = .leaving

theorem Steady.edge {hello : List Char} {control : Control} (hsteady : Steady k k' c)
    (hedge : Edge hello control L (k.toward c)) : Edge hello control L (k'.toward c) := by
  rcases hsteady with h | ⟨hquiet, hleaving⟩
  · rwa [h]
  · rw [hquiet] at hedge
    rw [hleaving]
    exact hedge.leave

namespace Inv

theorem lt_count (h : Inv s) (hcontrol : (s.procs p).control ≠ .exited) : p < s.count := by
  by_contra hge
  exact hcontrol (h.unborn p (Nat.le_of_not_lt hge))

/-- One process moves, and only links to its parent and its children change. -/
theorem update (h : Inv s) (hp : p < s.count) {links : Nat → Link}
    (hsame : P.SameFamily (s.procs p)) (hown : Own p P)
    (hself : 0 < p → Edge (s.hello p) (s.procs p).control (s.links p) (s.stance p) →
      Edge (s.hello p) P.control (links p) (s.stance p))
    (hbelow : ∀ c, 0 < c → c < s.count → (s.procs c).parent = p → c ≠ p →
      Edge (s.hello c) (s.procs c).control (s.links c) ((s.procs p).control.toward c) →
      Edge (s.hello c) (s.procs c).control (links c) (P.control.toward c))
    (hframe : ∀ c, c ≠ p → (s.procs c).parent ≠ p → links c = s.links c) :
    Inv { s with procs := Function.update s.procs p P, links := links } := by
  have hall : ∀ q, (Function.update s.procs p P q).name = (s.procs q).name ∧
      (Function.update s.procs p P q).parent = (s.procs q).parent ∧
      (Function.update s.procs p P q).children = (s.procs q).children := by
    intro q
    by_cases hq : q = p
    · subst hq
      simp [hsame.name, hsame.parent, hsame.children]
    · simp [Function.update_of_ne hq]
  constructor
  · exact h.born
  · intro q hq
    by_cases hqp : q = p
    · subst hqp
      simpa using hown
    · simpa [Function.update_of_ne hqp] using h.own q hq
  · intro q hq c hc
    rw [(hall q).2.2] at hc
    rw [(hall c).2.1]
    exact h.family q hq c hc
  · intro c hpos hlt
    rw [(hall c).2.1]
    exact h.older c hpos hlt
  · intro c hpos hlt
    have hedge := h.edge c hpos hlt
    have holder := h.older c hpos hlt
    simp only [State.hello, State.stance, (hall _).1, (hall _).2.1]
    by_cases hcp : c = p
    · subst hcp
      have hne : (s.procs c).parent ≠ c := Nat.ne_of_lt holder
      simpa [State.hello, State.stance, Function.update_of_ne hne] using hself hpos hedge
    · rw [Function.update_of_ne hcp]
      by_cases hparentp : (s.procs c).parent = p
      · rw [State.stance, hparentp] at hedge
        have := hbelow c hpos hlt hparentp hcp hedge
        simpa [State.hello, hparentp] using this
      · rw [Function.update_of_ne hparentp, hframe c hcp hparentp]
        exact hedge
  · intro q hq
    have hqp : q ≠ p := Nat.ne_of_gt (Nat.lt_of_lt_of_le hp hq)
    simpa [Function.update_of_ne hqp] using h.unborn q hq

/-- A step of a process that changes at most the link to its parent. -/
theorem self (h : Inv s) (hp : p < s.count)
    (hsame : P.SameFamily (s.procs p)) (hown : Own p P)
    (hself : 0 < p → Edge (s.hello p) (s.procs p).control (s.links p) (s.stance p) →
      Edge (s.hello p) P.control L (s.stance p))
    (hsteady : ∀ c, Steady (s.procs p).control P.control c) :
    Inv ((s.setLink p L).setProc p P) := by
  apply h.update hp hsame hown
  · intro hpos hedge
    rw [State.links_setLink_self]
    exact hself hpos hedge
  · intro c _ _ _ hne hedge
    rw [State.links_setLink_of_ne hne]
    exact (hsteady c).edge hedge
  · intro c hne _
    exact State.links_setLink_of_ne hne s L

/-- A step that changes no link. -/
theorem move (h : Inv s) (hp : p < s.count)
    (hsame : P.SameFamily (s.procs p)) (hown : Own p P)
    (hinternal : 0 < p → Internal (s.procs p).control P.control)
    (hsteady : ∀ c, Steady (s.procs p).control P.control c) : Inv (s.setProc p P) := by
  have hinv : Inv ((s.setLink p (s.links p)).setProc p P) := by
    apply h.self hp hsame hown _ hsteady
    intro hpos hedge
    have hint := hinternal hpos
    exact hedge.internal hint.greet hint.loop hint.gone hint.works hint.parting
  simpa only [State.setLink, Function.update_eq_self] using hinv

/-- A step that changes the link to one child. -/
theorem touch (h : Inv s) (hp : p < s.count) (hc : c ∈ (s.procs p).children)
    (hsame : P.SameFamily (s.procs p)) (hown : Own p P)
    (hinternal : 0 < p → Internal (s.procs p).control P.control)
    (hchild : Edge (s.hello c) (s.procs c).control (s.links c) ((s.procs p).control.toward c) →
      Edge (s.hello c) (s.procs c).control L (P.control.toward c))
    (hsteady : ∀ c', c' ≠ c → Steady (s.procs p).control P.control c') :
    Inv ((s.setLink c L).setProc p P) := by
  obtain ⟨hpos, hlt, hcp⟩ := h.family p hp c hc
  have hpc : p ≠ c := by
    have := h.older c hpos hlt
    omega
  apply h.update hp hsame hown
  · intro hpos hedge
    have hint := hinternal hpos
    rw [State.links_setLink_of_ne hpc]
    exact hedge.internal hint.greet hint.loop hint.gone hint.works hint.parting
  · intro c' _ _ _ _ hedge
    by_cases hcc : c' = c
    · subst hcc
      rw [State.links_setLink_self]
      exact hchild hedge
    · rw [State.links_setLink_of_ne hcc]
      exact (hsteady c' hcc).edge hedge
  · intro c' _ hparent'
    apply State.links_setLink_of_ne
    rintro rfl
    exact hparent' hcp

end Inv

/-! What a process passes on. -/

theorem isCommand_cString {job : Job} {text : List Char} (junk : List Char)
    (hhead : text.head? = some job.letter) (hnul : nul ∉ text) (hshort : text.length < 512) :
    IsCommand job (cString (text ++ nul :: junk) ++ [nul]) := by
  have htext : cString (text ++ nul :: junk) = text := FlatBytes.takeWhile_append_stop hnul junk
  exact ⟨text, by rw [htext], hhead, hnul, hshort⟩

theorem Control.Works.passes {job job' : Job} (hworks : k.Works job)
    (hpasses : k.passes = some job') : job' = job := by
  cases k with
  | walk | await =>
      obtain rfl := Option.some.inj hpasses
      exact hworks
  | _ => cases hpasses

theorem Control.Parting.passes (hparting : k.Parting) : k.passes = none := by
  cases k with
  | walk | await => exact hparting.elim
  | _ => rfl

/-- What a service does with a message: a `fork`, a walk, the loop that writes "dead", an answer
or nothing. -/
theorem Proc.dispatch_cases (P : Proc) (text : List Char) :
    P.dispatch text = .forking (word 2 0 text) ∨ (∃ job, P.dispatch text = .walk job P.children) ∨
      (∃ ending, P.dispatch text = .dying ending P.children) ∨
      P.dispatch text = .reply .yes ∨ P.dispatch text = .loop := by
  unfold Proc.dispatch
  split
  · split
    · exact .inl rfl
    · exact .inr (.inl ⟨_, rfl⟩)
  · split
    · exact .inr (.inr (.inl ⟨_, rfl⟩))
    · exact .inr (.inl ⟨_, rfl⟩)
  · exact .inr (.inr (.inl ⟨_, rfl⟩))
  · split
    · exact .inr (.inr (.inr (.inl rfl)))
    · exact .inr (.inl ⟨_, rfl⟩)
  · split
    · exact .inr (.inr (.inr (.inl rfl)))
    · exact .inr (.inl ⟨_, rfl⟩)
  · exact .inr (.inr (.inr (.inr rfl)))

theorem sublist_dispatch (P : Proc) (text : List Char) :
    (P.dispatch text).pending.Sublist P.children := by
  rcases P.dispatch_cases text with hk | ⟨job, hk⟩ | ⟨ending, hk⟩ | hk | hk
  · rw [hk]
    exact List.nil_sublist _
  · rw [hk]
    exact List.Sublist.refl _
  · rw [hk]
    exact List.Sublist.refl _
  · rw [hk]
    exact List.nil_sublist _
  · rw [hk]
    exact List.nil_sublist _

theorem forking_dispatch {text child : List Char} (hforking : P.dispatch text = .forking child) :
    child = word 2 0 text := by
  rcases P.dispatch_cases text with hk | ⟨job, hk⟩ | ⟨ending, hk⟩ | hk | hk
  · exact (Control.forking.inj (hk.symm.trans hforking)).symm
  all_goals
    rw [hk] at hforking
    cases hforking

theorem nul_not_mem {verb a b : List Char} (hverb : nul ∉ verb) (ha : nul ∉ a) (hb : nul ∉ b) :
    nul ∉ verb ++ a ++ ' ' :: b := by
  apply List.not_mem_append
  · exact List.not_mem_append hverb ha
  · simp only [List.mem_cons, not_or]
    exact ⟨by decide, hb⟩

namespace Own

theorem goto (h : Own p P) (hforking : ∀ child, k ≠ .forking child)
    (hpending : ∀ c ∈ k.pending, c ∈ P.children)
    (hpasses : ∀ job, k.passes = some job → P.control.passes = some job) :
    Own p (P.goto k) where
  short := h.short
  forking child hchild := absurd hchild (hforking child)
  pending := hpending
  passes job hjob := h.passes job (hpasses job hjob)
  behind hp hfind := h.behind hp (hpasses .find hfind)

/-- A place where nothing is at hand: no name, no list, no command. -/
theorem goto_rest (h : Own p P) (hforking : ∀ child, k ≠ .forking child)
    (hpending : k.pending = []) (hpasses : k.passes = none) : Own p (P.goto k) := by
  apply h.goto hforking
  · simp [hpending]
  · simp [hpasses]

/-- A command from the parent, kept as it was sent. -/
theorem receive (h : Own p P) (hpos : 0 < p) {job : Job} {message : List Char}
    (hcommand : IsCommand job message) : Own p (P.receive message) ∧
      (P.receive message).control.Works job := by
  obtain ⟨text, rfl, hhead, hnul, hshort⟩ := hcommand
  have hne : p ≠ 0 := by omega
  have htext : ∀ junk : List Char, cString (text ++ [nul] ++ junk) = text := by
    intro junk
    rw [List.append_assoc]
    exact FlatBytes.takeWhile_append_stop hnul junk
  have hcontrol : (P.receive (text ++ [nul])).control = P.dispatch text := by
    simp only [Proc.receive, htext]
  have hworks : (P.receive (text ++ [nul])).control.Works job := by
    rw [hcontrol]
    exact works_dispatch P hhead
  refine ⟨?_, hworks⟩
  constructor
  · exact h.short
  · intro child hchild
    rw [hcontrol] at hchild
    rw [forking_dispatch hchild]
    exact Nat.lt_of_le_of_lt (length_word_le 2 0 text) hshort
  · intro c hc
    rw [hcontrol] at hc
    exact (sublist_dispatch P text).subset hc
  · intro job' hjob'
    obtain rfl := hworks.passes hjob'
    refine ⟨text, ?_, hhead, hnul, hshort⟩
    simp only [State.outgoing, hne, false_and, if_false, Proc.receive, htext]
  · intro hp _
    exact absurd hp hne

/-- The "dead" of the parent, behind which `buf` keeps what it held. -/
theorem receive_dead (h : Own p P) (hpos : 0 < p) :
    Own p (P.receive deadText) ∧ (P.receive deadText).control.Parting := by
  have hne : p ≠ 0 := by omega
  have hcontrol : (P.receive deadText).control =
      P.dispatch (cString (deadText ++ P.buf.drop deadText.length)) := rfl
  have hparting : (P.receive deadText).control.Parting := by
    rw [hcontrol]
    apply parting_dispatch
    rfl
  have hpasses := hparting.passes
  refine ⟨?_, hparting⟩
  constructor
  · exact h.short
  · intro child hchild
    rw [hchild] at hparting
    exact hparting.elim
  · intro c hc
    rw [hcontrol] at hc
    exact (sublist_dispatch P _).subset hc
  · intro job hjob
    rw [hpasses] at hjob
    cases hjob
  · intro hp _
    exact absurd hp hne

/-- The Manager with the text of a command in its buffer. -/
theorem walk (h : Own 0 P) {job : Job} {text : List Char} (hjob : job ≠ .find)
    (hhead : text.head? = some job.letter) (hnul : nul ∉ text) (hshort : text.length < 512) :
    Own 0 { P with buf := text ++ [nul], control := .walk job P.children } where
  short := h.short
  forking _ hchild := by cases hchild
  pending _ hc := hc
  passes job' hpasses := by
    obtain rfl := Option.some.inj hpasses
    have hcommand := isCommand_cString [] hhead hnul hshort
    simpa [State.outgoing, hjob] using hcommand
  behind _ hpasses := absurd (Option.some.inj hpasses) hjob

theorem load (h : Own p P) (bufs : Buffers) : Own p (P.load bufs) where
  short := h.short
  forking := h.forking
  pending := h.pending
  passes := h.passes
  behind := h.behind

theorem obey (h : Own 0 P) (request : Request) : Own 0 (State.obey P request) := by
  cases request with
  | spawn parent child =>
      have hshort := parent.short
      have hshort' := child.short
      simp only [State.obey]
      split
      · constructor
        · exact h.short
        · intro other hother
          rw [← Control.forking.inj hother]
          omega
        · intro c hc
          cases hc
        · intro job hjob
          cases hjob
        · intro _ hjob
          cases hjob
      · apply h.walk (by decide) rfl
        · exact nul_not_mem (by decide) parent.noNul child.noNul
        · simp [spawnText]
          omega
  | kill target =>
      have hshort := target.short
      have hkill : IsCommand .kill (cString (killText target.chars ++ nul :: []) ++ [nul]) := by
        apply isCommand_cString [] rfl
        · exact List.not_mem_append (by decide) target.noNul
        · simp [killText]
          omega
      have hfind : IsCommand .find (cString (findText target.chars ++ nul :: []) ++ [nul]) := by
        apply isCommand_cString [] rfl
        · exact List.not_mem_append (by decide) target.noNul
        · simp [findText]
          omega
      simp only [State.obey]
      split
      · apply h.goto
        · intro child hchild
          cases hchild
        · intro c hc
          exact hc
        · intro job hjob
          cases hjob
      · constructor
        · exact h.short
        · intro other hother
          cases hother
        · intro c hc
          exact hc
        · intro job hjob
          obtain rfl := Option.some.inj hjob
          simpa [State.outgoing] using hfind
        · intro _ _
          simpa [State.outgoing] using hkill
  | exchange one other =>
      have hshort := one.short
      have hshort' := other.short
      apply h.walk (by decide) rfl
      · exact nul_not_mem (by decide) one.noNul other.noNul
      · simp [exchangeText]
        omega

end Own

end Services

end SystemsProgramming
