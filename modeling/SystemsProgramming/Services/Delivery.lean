/-
What the pipes deliver.  As long as every service has read its greeting before its
parent writes to it again, each `read` returns one whole message.
-/
import SystemsProgramming.Services.Moves

namespace SystemsProgramming

namespace Services

variable {s s' : State} {p c : Nat} {turn : Turn}

namespace State

/-- Every service has got whole messages only. -/
def Delivers (s : State) : Prop :=
  ∀ c, 0 < c → c < s.count → Delivered (s.hello c) (s.procs c).control (s.links c)

instance (s : State) (turn : Turn) : Decidable (s.Greeted turn) :=
  match hwrites : s.writesTo turn.pid with
  | none => .isTrue (by simp [Greeted, hwrites])
  | some c => decidable_of_iff ((s.procs c).control ≠ .greet) (by simp [Greeted, hwrites])

/-- The Manager before its first command. -/
def lone (script : List (Request × Buffers)) : State where
  procs p :=
    { name := managerName, parent := 0, control := if p = 0 then .loop else .exited
      children := [], buf := [], find := [], str := fun _ => zeroed }
  links _ := .born 0
  count := 1
  script := script

end State

namespace Inv

theorem delivers (h : Inv s) : s.Delivers :=
  fun c hpos hlt => (h.edge c hpos hlt).delivered

theorem step (h : Inv s) (hok : s.Greeted turn) (hstep : s.step turn = some s') : Inv s' :=
  h.move_kept hok (.of_step hstep)

/-- A write to a child that has not read its greeting. -/
theorem not_delivers {message : List Char} {L : Link} {k : Control} (h : Inv s)
    (hp : p < s.count) (hc : c ∈ (s.procs p).children) (hgreet : (s.procs c).control = .greet)
    (hstance : (s.procs p).control.toward c = .quiet ∨ (s.procs p).control.toward c = .leaving)
    (hcmd : L.cmd = ((s.links c).post message).cmd)
    (hsent : L.sent = ((s.links c).post message).sent)
    (hgot : L.got = ((s.links c).post message).got) :
    ¬ ((s.setLink c L).setProc p ((s.procs p).goto k)).Delivers := by
  intro hdelivers
  obtain ⟨hpos, hlt, hparent⟩ := h.family p hp c hc
  have hcp : c ≠ p := by
    have := h.older c hpos hlt
    omega
  have hedge := h.edge c hpos hlt
  have hdelivered := hdelivers c hpos hlt
  simp only [State.hello, State.stance, State.setProc, State.procs_setLink,
    Function.update_of_ne hcp, hparent, Function.update_self, State.links_setLink_self]
    at hedge hdelivered
  obtain ⟨hwhole, hfirst, hbegun⟩ := hdelivered
  rw [hcmd, hsent, hgot] at hwhole
  rw [hgot] at hfirst hbegun
  exact hedge.overrun hstance hgreet message ⟨hwhole, hfirst, hbegun⟩

/-- A turn that does write to a service before its first `read`. -/
theorem overrun (h : Inv s) (hbad : ¬ s.Greeted turn) :
    ∃ s', s.step turn = some s' ∧ ¬ s'.Delivers := by
  have hexists : ∃ c, s.writesTo turn.pid = some c ∧ (s.procs c).control = .greet := by
    simpa [State.Greeted] using hbad
  obtain ⟨c, hwrites, hgreet⟩ := hexists
  unfold State.writesTo at hwrites
  unfold State.step
  dsimp only
  cases hcontrol : (s.procs turn.pid).control with
  | walk job tmp =>
      have hp := h.lt_count (p := turn.pid) (by simp [hcontrol])
      cases tmp with
      | nil => simp [hcontrol] at hwrites
      | cons c' next =>
          simp only [hcontrol] at hwrites ⊢
          by_cases hmark : (s.links c').haveKilled = true
          · simp [hmark] at hwrites
          · simp only [if_neg hmark, Option.some.injEq] at hwrites
            subst hwrites
            have hc : c' ∈ (s.procs turn.pid).children := by
              apply (h.own _ hp).pending
              rw [hcontrol]
              exact List.mem_cons_self
            rw [if_neg hmark]
            exact ⟨_, rfl, h.not_delivers hp hc hgreet (.inl (by rw [hcontrol]; rfl)) rfl rfl rfl⟩
  | dying ending tmp =>
      have hp := h.lt_count (p := turn.pid) (by simp [hcontrol])
      cases tmp with
      | nil => simp [hcontrol] at hwrites
      | cons c' next =>
          simp only [hcontrol] at hwrites ⊢
          by_cases hskip : turn.pid = 0 ∧ (s.links c').haveKilled = true
          · simp [hskip] at hwrites
          · rw [if_neg hskip] at hwrites
            have hc' : c' ∈ (s.procs turn.pid).children := by
              apply (h.own _ hp).pending
              rw [hcontrol]
              exact List.mem_cons_self
            have hc := (holder_mem hc' hwrites).1
            rw [if_neg hskip, hwrites]
            exact ⟨_, rfl, h.not_delivers hp hc hgreet (.inr (by rw [hcontrol]; rfl)) rfl rfl rfl⟩
  | _ => simp [hcontrol] at hwrites

end Inv

theorem Inv.start (hstart : network.start s) : Inv s := by
  obtain ⟨hcount, hname, hcontrol, hchildren, hunborn⟩ := hstart
  constructor
  · omega
  · intro p hp
    obtain rfl : p = 0 := by omega
    constructor
    · rw [hname]
      decide
    · simp [hcontrol]
    · simp [hcontrol, Control.pending]
    · simp [hcontrol, Control.passes]
    · simp [hcontrol, Control.passes]
  · intro p hp c hc
    obtain rfl : p = 0 := by omega
    simp [hchildren] at hc
  · intro c hpos hc
    omega
  · intro c hpos hc
    omega
  · intro p hp
    exact hunborn p (by omega)

/-- Each `read` gets one whole message in the runs in which no service is written to
before it has read its greeting, and only in these. -/
theorem delivers_iff_greeted (hstart : network.start s) (turns : List Turn) :
    network.Along State.Delivers s turns ↔ network.Meets State.Greeted s turns := by
  have hinv : ∀ state, Inv state → state.Delivers := fun _ h => h.delivers
  refine TransitionSystem.along_iff_meets hinv ?_ ?_ (Inv.start hstart) turns
    (TransitionSystem.meets_true s turns)
  · intro state turn next h _ hok hstep
    exact h.step hok hstep
  · intro state turn h _ hbad
    exact h.overrun hbad

/-- `spawn Manager P` and `spawn P Q`. -/
def twoSpawns : List (Request × Buffers) := onZeroed
  [.spawn ⟨managerName, by decide, by decide, by decide, by decide⟩
    (.letter 'P' (by decide) (by decide)),
   .spawn ⟨['P'], by decide, by decide, by decide, by decide⟩ (.letter 'Q' (by decide) (by decide))]

def Name.word (name : Name) : Word where
  chars := name.chars
  nonempty := name.nonempty
  short := Nat.le_trans name.short (by decide)
  noSpace := name.noSpace
  noNul := name.noNul

def Word.manager : Word := ⟨"Manager".toList, by decide, by decide, by decide, by decide⟩

def nameP : Name := ⟨"P".toList, by decide, by decide, by decide, by decide, by decide⟩

def nameQ : Name := ⟨"Q".toList, by decide, by decide, by decide, by decide, by decide⟩

/-- The turns of the processes named, one after the other. -/
def turnsOf (pids : List Nat) : List Turn := pids.map fun pid => ⟨pid, 0, []⟩

theorem start_lone (script : List (Request × Buffers)) : network.start (.lone script) :=
  ⟨rfl, rfl, rfl, rfl, fun _ hne => if_neg hne⟩

theorem delivers_iff_greeted_twoSpawns :
    network.Along State.Delivers (.lone twoSpawns) (turnsOf [0, 0, 0, 0, 1, 0, 1, 1, 1, 1, 0]) :=
  (delivers_iff_greeted (start_lone twoSpawns) _).mpr (by decide)

/-- The Manager passes `spawn P Q` on before `P` has read its greeting: the first `read`
of `P` takes both, and the command is lost. -/
theorem not_delivers_twoSpawns : network.start (.lone twoSpawns) ∧
    ∃ s, network.run (.lone twoSpawns) (turnsOf [0, 0, 0, 0, 0, 1]) = some s ∧
      (s.procs 1).control = .loop ∧
      (s.links 1).sent = [managerName ++ [nul], spawnText ['P'] ['Q'] ++ [nul]] ∧
      (s.links 1).got = [managerName ++ [nul] ++ spawnText ['P'] ['Q'] ++ [nul]] ∧
      ¬ s.Delivers := by
  refine ⟨start_lone twoSpawns, _, rfl, rfl, by decide, by decide, ?_⟩
  intro hdelivers
  have hfirst := (hdelivers 1 (by decide) (by decide)).first _ rfl
  exact absurd hfirst (by decide)

end Services

end SystemsProgramming
