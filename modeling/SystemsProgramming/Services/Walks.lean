/-
One command between two others.  What a walk owes to each service is counted over its
turns: a command is sent to it at most once, and answered once.
-/
import SystemsProgramming.Services.Messages

namespace SystemsProgramming

namespace Services

variable {s s' t t' : State} {turn : Turn} {k : Control} {p c : Nat} {L : Link}

/-- What passes between a process and the child `c`: a command is sent, a reply is read. -/
inductive Pass where
  | command (c : Nat)
  | reply (c : Nat)
deriving DecidableEq

/-- What passes in a turn. -/
def State.passed (s : State) (turn : Turn) : List Pass :=
  match (s.procs turn.pid).control with
  | .walk _ (c :: _) => if (s.links c).haveKilled then [] else [.command c]
  | .await _ c _ => [.reply c]
  | _ => []

/-- The processes on a path without marks from the Manager. -/
inductive OnPath (s : State) : Nat → Prop
  | manager : OnPath s 0
  | child {p c : Nat} (hp : OnPath s p) (hc : c ∈ (s.procs p).children)
      (hunmarked : (s.links c).haveKilled = false) : OnPath s c

/-- Between two completed commands: the Manager takes the next one, and every service has
read its greeting. -/
structure State.Between (s : State) : Prop where
  manager : (s.procs 0).control = .loop
  greeted : ∀ c, (s.procs c).control ≠ .greet

/-- A service that is blocked at its `read` of the next command, with empty pipes. -/
structure State.Waits (s : State) (c : Nat) : Prop where
  control : (s.procs c).control = .loop
  blocked : ∀ turn : Turn, turn.pid = c → s.stepMessage turn = none
  cmd : (s.links c).cmd = []
  rep : (s.links c).rep = []

/-- The walk that the Manager starts with for a command. -/
def Request.job : Request → Job
  | spawn _ _ => .spawn
  | kill _ => .find
  | exchange _ _ => .exchange

/-- The commands but `kill Manager`. -/
def Request.Walks : Request → Prop
  | kill target => target.chars ≠ managerName
  | _ => True

/-- The Manager with a command to obey, which has found `bufs` in its buffers. -/
def State.given (s : State) (request : Request) (bufs : Buffers) : State :=
  s.setProc 0 (obey ((s.procs 0).load bufs) request)

/-- The walk is over: the Manager takes the next command, or kills what it has found. -/
def Job.Over (job : Job) (k : Control) : Prop :=
  k = .loop ∨ job = .find ∧ ∃ tmp, k = .walk .kill tmp

/-- The Manager at a walk, or about to greet a service of its own. -/
def Control.Leads (job : Job) : Control → Prop
  | forking _ | greeting _ => True
  | walk job' _ | await job' _ _ => job' = job
  | _ => False

/-- The parent of the service waits for its reply. -/
def State.Called (s : State) (c : Nat) : Prop :=
  ∃ job next, (s.procs (s.procs c).parent).control = .await job c next

variable {job : Job}

/-! Where the services stand between two commands. -/

theorem Edge.ready_of_quiet {hello : List Char} (hedge : Edge hello k L .quiet)
    (hunmarked : L.haveKilled = false) (hgreet : k ≠ .greet) :
    k = .loop ∧ L.cmd = [] ∧ L.rep = [] := by
  have hopen := hedge.open_of_unmarked hunmarked
  obtain ⟨hloop, hread, hrep, -⟩ := hedge.post (.inl rfl) hopen hgreet
  exact ⟨hloop, hread.empty, hrep⟩

theorem OnPath.loop (h : Inv s) (hbetween : s.Between) (hpath : OnPath s c) :
    (s.procs c).control = .loop := by
  induction hpath with
  | manager => exact hbetween.manager
  | @child p c _ hc hunmarked ih =>
      obtain ⟨-, -, -, -, hedge⟩ := h.child (h.lt_count (by simp [ih])) hc
      rw [ih] at hedge
      exact (hedge.ready_of_quiet hunmarked (hbetween.greeted c)).1

theorem OnPath.waits (h : Inv s) (hbetween : s.Between) (hpath : OnPath s c) (hne : c ≠ 0) :
    s.Waits c := by
  cases hpath with
  | manager => exact absurd rfl hne
  | @child p c hp hc hunmarked =>
      have hloop := hp.loop h hbetween
      obtain ⟨hpos, -, -, -, hedge⟩ := h.child (h.lt_count (by simp [hloop])) hc
      rw [hloop] at hedge
      obtain ⟨hcontrol, hcmd, hrep⟩ := hedge.ready_of_quiet hunmarked (hbetween.greeted c)
      refine ⟨hcontrol, ?_, hcmd, hrep⟩
      rintro turn rfl
      unfold State.stepMessage
      rcases h.nextMessage hpos hcontrol with ⟨-, hnone⟩ | ⟨hfull, -⟩
      · simp [hcontrol, hne, hnone]
      · exact absurd hcmd hfull

/-! Who waits for a reply. -/

theorem Edge.awaited {hello : List Char} {stance : Stance} (hedge : Edge hello k L stance)
    (hpasses : k.passes ≠ none) : ∃ job, stance = .awaiting job := by
  cases hedge with
  | working => exact ⟨_, rfl⟩
  | forked hcontrol | fresh _ hcontrol | ready _ hcontrol | told _ hcontrol =>
      simp [hcontrol, Control.passes] at hpasses
  | commanded | answered => exact ⟨_, rfl⟩
  | closed _ hcontrol =>
      rcases hcontrol with h | h
      · simp [h, Control.passes] at hpasses
      · exact absurd h.passes hpasses

theorem Control.await_of_toward (hstance : k.toward c = .awaiting job) :
    ∃ next, k = .await job c next := by
  cases k with
  | await job' child next =>
      by_cases hc : child = c
      · subst hc
        have hself : Control.toward child (.await job' child next) = .awaiting job' := if_pos rfl
        rw [hself] at hstance
        cases hstance
        exact ⟨next, rfl⟩
      · have hother : Control.toward c (.await job' child next) = .quiet := if_neg hc
        rw [hother] at hstance
        cases hstance
  | greeting child =>
      by_cases hc : child = c
      · have hself : Control.toward c (.greeting child) = .greeting := if_pos hc
        rw [hself] at hstance
        cases hstance
      · have hother : Control.toward c (.greeting child) = .quiet := if_neg hc
        rw [hother] at hstance
        cases hstance
  | reply message => cases message <;> cases hstance
  | _ => cases hstance

namespace State.Called

theorem of_passes (h : Inv s) (hpos : 0 < p) (hp : p < s.count)
    (hpasses : (s.procs p).control.passes ≠ none) : s.Called p := by
  obtain ⟨job, hstance⟩ := (h.edge p hpos hp).awaited hpasses
  obtain ⟨next, hawait⟩ := Control.await_of_toward hstance
  exact ⟨job, next, hawait⟩

theorem mem (h : Inv s) (hcalled : s.Called c) :
    (s.procs c).parent < s.count ∧ c ∈ (s.procs (s.procs c).parent).children := by
  obtain ⟨job, next, hawait⟩ := hcalled
  exact ⟨h.lt_count (by simp [hawait]),
    h.mem_of_pending hawait (by simp) List.mem_cons_self⟩

/-- Someone waits for a reply only while the Manager does. -/
theorem manager (h : Inv s) (hcalled : s.Called c) :
    ∃ job child next, (s.procs 0).control = .await job child next := by
  induction c using Nat.strong_induction_on with
  | _ c ih =>
      obtain ⟨hp, hc⟩ := hcalled.mem h
      obtain ⟨hpos, hlt, -⟩ := h.family _ hp c hc
      obtain ⟨job, next, hawait⟩ := hcalled
      have holder := h.older c hpos hlt
      by_cases hzero : (s.procs c).parent = 0
      · rw [hzero] at hawait
        exact ⟨job, c, next, hawait⟩
      · apply ih _ holder
        exact of_passes h (by omega) hp (by simp [hawait, Control.passes])

/-- A service that has been called is not owed another command. -/
theorem not_owed (h : Inv s) (htidy : Tidy s) (hcalled : s.Called c)
    (hcmd : (s.links c).cmd = []) : ¬ Owed s c := by
  obtain ⟨job, next, hawait⟩ := hcalled
  have hstance : ∀ p, c ∈ (s.procs p).children → p < s.count →
      (s.procs p).control.toward c = .awaiting job := by
    intro p hc hp
    have hparent := (h.family p hp c hc).2.2
    rw [hparent] at hawait
    rw [hawait]
    exact if_pos rfl
  intro howed
  cases howed with
  | unread _ _ hfull => exact hfull hcmd
  | @next p _ hc hcalls =>
      have hself := hstance p hc (h.lt_count hcalls.not_exited)
      rcases (Owed.open_of_calls h htidy hc hcalls).1 with hquiet | hleaving
      · simp [hself] at hquiet
      · simp [hself] at hleaving
  | @under p _ hc hrests _ _ =>
      have hself := hstance p hc (h.lt_count hrests.not_exited)
      rw [hrests.toward] at hself
      cases hself

end State.Called

/-! What a turn of a walk changes. -/

theorem dispatch_ne_await (P : Proc) (text : List Char) {next : List Nat} :
    P.dispatch text ≠ .await job c next := by
  rcases P.dispatch_cases text with hk | ⟨job, hk⟩ | ⟨ending, hk⟩ | hk | hk <;> simp [hk]

theorem Move.parent (h : Inv s) (hmove : Move s turn s') (hp : p < s.count) :
    (s'.procs p).parent = (s.procs p).parent := by
  by_cases hturn : p = turn.pid
  · subst hturn
    cases hmove with
    | command hzero => simp [hzero, State.setProc, (State.obey_load_same _ _ _).parent]
    | fork => rw [s.procs_fork_parent _ _ (Nat.ne_of_lt hp)]; rfl
    | hear => simp [State.hear, State.setProc, State.judge]
    | receive => simp [State.setProc, Proc.receive]
    | _ => simp [State.setProc, Proc.goto]
  · rw [(hmove.frame h).procs p hturn hp]

theorem Frame.called (h : Inv s) (h' : Inv s') (hframe : Frame s p s')
    (hparent : ∀ c, c < s.count → (s'.procs c).parent = (s.procs c).parent)
    (hbefore : ∀ job next, (s.procs p).control ≠ .await job c next)
    (hafter : ∀ job next, (s'.procs p).control ≠ .await job c next) :
    s'.Called c ↔ s.Called c := by
  constructor
  · intro hcalled
    obtain ⟨hlt', hmem⟩ := hcalled.mem h'
    obtain ⟨job, next, hawait⟩ := hcalled
    have hq : (s'.procs c).parent ≠ p := by
      intro hq
      rw [hq] at hawait
      exact hafter job next hawait
    have hlt : (s'.procs c).parent < s.count := by
      by_contra hge
      rcases hframe.born _ hq (Nat.le_of_not_lt hge) with hsame | hnone
      · rw [hsame, h.unborn _ (Nat.le_of_not_lt hge)] at hawait
        cases hawait
      · simp [hnone] at hmem
    have hsame := hframe.procs _ hq hlt
    rw [hsame] at hmem hawait
    have hown := (h.family _ hlt c hmem).2.2
    refine ⟨job, next, ?_⟩
    rw [hown, hawait]
  · intro hcalled
    obtain ⟨hlt, hmem⟩ := hcalled.mem h
    obtain ⟨job, next, hawait⟩ := hcalled
    have hq : (s.procs c).parent ≠ p := by
      intro hq
      rw [hq] at hawait
      exact hbefore job next hawait
    have hc := (h.family _ hlt c hmem).2.1
    refine ⟨job, next, ?_⟩
    rw [hparent c hc, hframe.procs _ hq hlt, hawait]

theorem Control.Leads.passes {job' : Job} (hleads : k.Leads job)
    (hpasses : k.passes = some job') : job' = job := by
  cases k with
  | walk | await =>
      obtain rfl := Option.some.inj hpasses
      exact hleads
  | _ => cases hpasses

/-- The Manager goes on with its walk, or is done with it. -/
theorem Control.Leads.move (h : Inv s) (hleads : (s.procs 0).control.Leads job)
    (hmove : Move s turn s') :
    job.Over (s'.procs 0).control ∨ (s'.procs 0).control.Leads job := by
  by_cases hturn : turn.pid = 0
  · have hprocs : ∀ P : Proc, Function.update s.procs turn.pid P 0 = P := by
      intro P
      rw [hturn]
      exact Function.update_self _ _ _
    have hcontrol0 : ∀ {k}, (s.procs turn.pid).control = k → k.Leads job := by
      rintro k rfl
      rwa [hturn]
    cases hmove with
    | greet hcontrol _ => exact (hcontrol0 hcontrol).elim
    | command _ hcontrol _ =>
        rw [hcontrol] at hleads
        exact hleads.elim
    | receive hpos => omega
    | @fork child hcontrol =>
        right
        have hself := s.procs_fork_parent (p := turn.pid) child turn.junk
          (Nat.ne_of_lt (h.lt_count (by simp [hcontrol])))
        rw [hturn] at hself ⊢
        rw [hself]
        trivial
    | greeting _ =>
        left
        change job.Over (Function.update s.procs turn.pid _ 0).control
        rw [hprocs, if_pos hturn]
        exact .inl rfl
    | walkEnd _ =>
        left
        change job.Over (Function.update s.procs turn.pid _ 0).control
        rw [hprocs, State.notFound, if_pos hturn]
        exact .inl rfl
    | walkSkip hcontrol _ | walkSend hcontrol _ =>
        right
        change (Function.update s.procs turn.pid _ 0).control.Leads job
        have hjob := hcontrol0 hcontrol
        rw [hprocs]
        exact hjob
    | @hear job' c next hcontrol _ =>
        have hjob : job' = job := hcontrol0 hcontrol
        unfold State.hear
        change job.Over (Function.update s.procs turn.pid _ 0).control ∨
          (Function.update s.procs turn.pid _ 0).control.Leads job
        rw [hprocs]
        rcases judge_control turn.pid (s.procs turn.pid) job' next _ with
          hk | ⟨-, hfind, hk⟩ | ⟨-, hk⟩ | ⟨hne, -⟩
        · right
          rw [hk]
          exact hjob
        · left
          rw [hk]
          exact .inr ⟨hjob.symm.trans hfind, _, rfl⟩
        · left
          exact .inl hk
        · exact absurd hturn hne
    | answer hcontrol | dyingEnd hcontrol | dyingSkip hcontrol | tell hcontrol
    | tellNobody hcontrol | reap hcontrol | waitNobody hcontrol | exit hcontrol =>
        exact (hcontrol0 hcontrol).elim
  · rw [(hmove.frame h).procs 0 (Ne.symm hturn) h.born]
    exact .inr hleads

theorem leads_obey (P : Proc) {request : Request} (hwalks : request.Walks) :
    (State.obey P request).control.Leads request.job := by
  cases request with
  | spawn parent child =>
      simp only [State.obey]
      split
      · trivial
      · rfl
  | kill target =>
      have hne : target.chars ≠ managerName := hwalks
      simp only [State.obey, if_neg hne]
      rfl
  | exchange one other => rfl

theorem obey_ne_await (P : Proc) (request : Request) {next : List Nat} :
    (State.obey P request).control ≠ .await job c next := by
  rcases State.obey_control P request with ⟨child, hk⟩ | hk | ⟨job, hk⟩ <;> simp [hk]

/-- A service that was sent a command works on it, and does not wait for exits unless it is
to be killed. -/
theorem Edge.works {hello : List Char} (hedge : Edge hello k L (.awaiting job))
    (hbusy : ¬ k.Rests) (hgone : ¬ k.Gone) : k.Works job := by
  cases hedge with
  | working hworks => exact hworks
  | commanded hcontrol =>
      rw [hcontrol] at hbusy
      exact absurd trivial hbusy
  | answered hcontrol =>
      rcases hcontrol.loop_or_gone with h | h
      · rw [h] at hbusy
        exact absurd trivial hbusy
      · exact absurd h hgone
  | fresh hstance | ready hstance | told hstance | closed hstance => simp at hstance

/-- What the turns of a walk since `s` have come to in `t`. -/
structure Underway (s : State) (job : Job) (t : State) (log : List Pass) : Prop where
  leads : ¬ job.Over (t.procs 0).control → (t.procs 0).control.Leads job
  kept : ∀ c, c < s.count → (t.procs c).parent = (s.procs c).parent ∧
    ((t.links c).haveKilled = false → (s.links c).haveKilled = false)
  count_le : s.count ≤ t.count
  owed : ¬ job.Over (t.procs 0).control → ∀ c, Owed t c → c < s.count ∧ log.count (.reply c) = 0
  called : ∀ c, t.Called c →
    OnPath s c ∧ log.count (.command c) = 1 ∧ log.count (.reply c) = 0
  settled : ∀ c, ¬ t.Called c → log.count (.command c) = log.count (.reply c)
  once : ∀ c, log.count (.command c) ≤ 1
  path : ∀ c, .command c ∈ log → 0 < c ∧ OnPath s c

namespace Underway

variable {log : List Pass}

theorem grow (h : Inv t) (hmove : Move t turn t') (hwalk : Underway s job t log) :
    (∀ c, c < s.count → (t'.procs c).parent = (s.procs c).parent ∧
      ((t'.links c).haveKilled = false → (s.links c).haveKilled = false)) ∧ s.count ≤ t'.count := by
  have hframe := hmove.frame h
  refine ⟨?_, Nat.le_trans hwalk.count_le hframe.count_le⟩
  intro c hc
  have hlt := Nat.lt_of_lt_of_le hc hwalk.count_le
  obtain ⟨hparent, hunmarked⟩ := hwalk.kept c hc
  refine ⟨(hmove.parent h hlt).trans hparent, ?_⟩
  intro hkept
  exact hunmarked ((hframe.hold c hlt).unmarked hkept)

/-- A turn in which nothing passes. -/
theorem silent (h : Inv t) (h' : Inv t') (hmove : Move t turn t') (hwalk : Underway s job t log)
    (hleads : ¬ job.Over (t'.procs 0).control → (t'.procs 0).control.Leads job)
    (howed : ¬ job.Over (t'.procs 0).control → ∀ c, Owed t' c →
      c < s.count ∧ log.count (.reply c) = 0)
    (hbefore : ∀ job c next, (t.procs turn.pid).control ≠ .await job c next)
    (hafter : ∀ job c next, (t'.procs turn.pid).control ≠ .await job c next) :
    Underway s job t' log := by
  have hcalled : ∀ c, t'.Called c ↔ t.Called c := fun c =>
    (hmove.frame h).called h h' (fun _ hc => hmove.parent h hc) (fun job => hbefore job c)
      (fun job => hafter job c)
  obtain ⟨hkept, hcount⟩ := hwalk.grow h hmove
  constructor
  · exact hleads
  · exact hkept
  · exact hcount
  · exact howed
  · intro c hc
    exact hwalk.called c ((hcalled c).mp hc)
  · intro c hc
    exact hwalk.settled c fun hold => hc ((hcalled c).mpr hold)
  · exact hwalk.once
  · exact hwalk.path

/-- A command goes to a service that was not sent one before. -/
theorem send {job' : Job} {next : List Nat} (hs : Tidy s) (h : Inv t)
    (h' : Inv t') (hmove : Move t turn t') (hwalk : Underway s job t log)
    (hover : ¬ job.Over (t.procs 0).control)
    (hleads : ¬ job.Over (t'.procs 0).control → (t'.procs 0).control.Leads job)
    (howed : ¬ job.Over (t'.procs 0).control → ∀ d, Owed t' d → Owed t d)
    (hcontrol : (t.procs turn.pid).control = .walk job' (c :: next))
    (hunmarked : (t.links c).haveKilled = false)
    (hcontrol' : (t'.procs turn.pid).control = .await job' c next) :
    Underway s job t' (log ++ [.command c]) := by
  have hp := h.lt_count (p := turn.pid) (by simp [hcontrol])
  have hc := h.mem_of_pending hcontrol (by simp) List.mem_cons_self
  obtain ⟨hpos, hlt, hparent, -, -⟩ := h.child hp hc
  obtain ⟨hkept, hcount⟩ := hwalk.grow h hmove
  have hnew : ¬ t.Called c := by
    rintro ⟨job, next, hawait⟩
    rw [hparent, hcontrol] at hawait
    cases hawait
  have hcalls : (t.procs turn.pid).control.Calls c (t.links c) := by
    rw [hcontrol]
    exact ⟨List.mem_cons_self, hunmarked⟩
  obtain ⟨hold, hreply⟩ := hwalk.owed hover c (.next hc hcalls)
  have hcommand : log.count (.command c) = 0 := (hwalk.settled c hnew).trans hreply
  have hpath : OnPath s c := by
    obtain ⟨hsame, hmark⟩ := hwalk.kept c hold
    have hlisted := hs.listed c hpos hold
    rw [← hsame, hparent] at hlisted
    apply OnPath.child _ hlisted (hmark hunmarked)
    by_cases hzero : turn.pid = 0
    · rw [hzero]
      exact .manager
    · have hself := State.Called.of_passes h (Nat.pos_of_ne_zero hzero) hp
        (by simp [hcontrol, Control.passes])
      exact (hwalk.called _ hself).1
  have hcalled : ∀ d, d ≠ c → (t'.Called d ↔ t.Called d) := by
    intro d hd
    apply (hmove.frame h).called h h' fun _ hc => hmove.parent h hc
    · simp [hcontrol]
    · intro job next hawait
      rw [hcontrol'] at hawait
      cases hawait
      exact hd rfl
  constructor
  · exact hleads
  · exact hkept
  · exact hcount
  · intro hover' d hd
    obtain ⟨hd, hnone⟩ := hwalk.owed hover d (howed hover' d hd)
    exact ⟨hd, by simpa using hnone⟩
  · intro d hd
    by_cases hdc : d = c
    · subst hdc
      exact ⟨hpath, by simp [hcommand], by simpa using hreply⟩
    · obtain ⟨hpath, hone, hnone⟩ := hwalk.called d ((hcalled d hdc).mp hd)
      exact ⟨hpath, by simp [hone, Ne.symm hdc], by simpa using hnone⟩
  · intro d hd
    have hdc : d ≠ c := by
      rintro rfl
      apply hd
      refine ⟨job', next, ?_⟩
      rw [hmove.parent h hlt, hparent, hcontrol']
    have hsettled := hwalk.settled d fun h => hd ((hcalled d hdc).mpr h)
    simpa [Ne.symm hdc] using hsettled
  · intro d
    by_cases hdc : d = c
    · subst hdc
      simp [hcommand]
    · have honce := hwalk.once d
      simpa [Ne.symm hdc] using honce
  · intro d hd
    rcases List.mem_append.mp hd with hd | hd
    · exact hwalk.path d hd
    · obtain rfl := Pass.command.inj (List.mem_singleton.mp hd)
      exact ⟨hpos, hpath⟩

/-- The reply is read that the command was sent for. -/
theorem receive {job' : Job} {next : List Nat} (h : Inv t) (htidy : Tidy t) (h' : Inv t')
    (hmove : Move t turn t') (hwalk : Underway s job t log)
    (hover : ¬ job.Over (t.procs 0).control)
    (hleads : ¬ job.Over (t'.procs 0).control → (t'.procs 0).control.Leads job)
    (howed : ¬ job.Over (t'.procs 0).control → ∀ d, Owed t' d → Owed t d)
    (hcontrol : (t.procs turn.pid).control = .await job' c next) (hrep : (t.links c).rep ≠ [])
    (hafter : ∀ job d next, (t'.procs turn.pid).control ≠ .await job d next) :
    Underway s job t' (log ++ [.reply c]) := by
  have hp := h.lt_count (p := turn.pid) (by simp [hcontrol])
  have hc := h.mem_of_pending hcontrol (by simp) List.mem_cons_self
  obtain ⟨hpos, hlt, hparent, -, hedge⟩ := h.child hp hc
  obtain ⟨hkept, hcount⟩ := hwalk.grow h hmove
  have hold : t.Called c := ⟨job', next, by rw [hparent, hcontrol]⟩
  obtain ⟨hpath, hcommand, hreply⟩ := hwalk.called c hold
  have hcmd : (t.links c).cmd = [] := by
    have hstance : Control.toward c (.await job' c next) = .awaiting job' := if_pos rfl
    rw [hcontrol, hstance] at hedge
    cases hedge with
    | answered _ hread => exact hread.empty
    | commanded _ _ _ hempty | working _ _ hempty => exact absurd hempty hrep
    | fresh hstance | ready hstance | told hstance | closed hstance => simp at hstance
  have hcalled : ∀ d, d ≠ c → (t'.Called d ↔ t.Called d) := by
    intro d hd
    apply (hmove.frame h).called h h' fun _ hc => hmove.parent h hc
    · intro job next hawait
      rw [hcontrol] at hawait
      cases hawait
      exact hd rfl
    · exact fun job => hafter job d
  have hdone : ¬ t'.Called c := by
    rintro ⟨job, next, hawait⟩
    rw [hmove.parent h hlt, hparent] at hawait
    exact hafter job c next hawait
  constructor
  · exact hleads
  · exact hkept
  · exact hcount
  · intro hover' d hd
    have hdc : d ≠ c := by
      rintro rfl
      exact hold.not_owed h htidy hcmd (howed hover' d hd)
    obtain ⟨hd, hnone⟩ := hwalk.owed hover d (howed hover' d hd)
    exact ⟨hd, by simpa [Ne.symm hdc] using hnone⟩
  · intro d hd
    have hdc : d ≠ c := by
      rintro rfl
      exact hdone hd
    obtain ⟨hpath, hone, hnone⟩ := hwalk.called d ((hcalled d hdc).mp hd)
    exact ⟨hpath, by simpa using hone, by simpa [Ne.symm hdc] using hnone⟩
  · intro d hd
    by_cases hdc : d = c
    · subst hdc
      simp [hcommand, hreply]
    · have hsettled := hwalk.settled d fun h => hd ((hcalled d hdc).mpr h)
      simpa [Ne.symm hdc] using hsettled
  · intro d
    have honce := hwalk.once d
    simpa using honce
  · intro d hd
    exact hwalk.path d (by simpa using hd)

/-- The Manager does not go over to another walk. -/
theorem not_finds {log' : List Pass} (hwalk : Underway s job t log)
    (hwalk' : Underway s job t' log') (hover : ¬ job.Over (t.procs 0).control)
    (hover' : ¬ job.Over (t'.procs 0).control) : ¬ t.Finds t' := by
  rintro ⟨hfind, hkill⟩
  have hsame := ((hwalk.leads hover).passes hfind).trans
    ((hwalk'.leads hover').passes hkill).symm
  cases hsame

theorem move (hs : Tidy s) (h : Inv t) (htidy : Tidy t) (hok : t.Greeted turn)
    (hmove : Move t turn t') (hwalk : Underway s job t log)
    (hover : ¬ job.Over (t.procs 0).control) :
    Underway s job t' (log ++ t.passed turn) := by
  have h' := h.move_kept hok hmove
  have hleads : ¬ job.Over (t'.procs 0).control → (t'.procs 0).control.Leads job :=
    fun hover' => ((hwalk.leads hover).move h hmove).resolve_left hover'
  have hloop : (t.procs 0).control ≠ .loop := fun hloop => hover (.inl hloop)
  have howed : ¬ job.Over (t'.procs 0).control → ∀ c, Owed t' c → Owed t c := by
    intro hover'
    apply (hmove.spends h htidy (fun _ => hloop) _).owed
    rintro ⟨hfind, hkill⟩
    have hsame := ((hwalk.leads hover).passes hfind).trans ((hleads hover').passes hkill).symm
    cases hsame
  have hfresh : ¬ job.Over (t'.procs 0).control → ∀ c, Owed t' c →
      c < s.count ∧ log.count (.reply c) = 0 :=
    fun hover' c hc => hwalk.owed hover c (howed hover' c hc)
  -- the turns of a process that neither sends a command nor reads a reply
  have hsilent : t.passed turn = [] →
      (∀ job c next, (t.procs turn.pid).control ≠ .await job c next) →
      (∀ job c next, (t'.procs turn.pid).control ≠ .await job c next) →
      Underway s job t' (log ++ t.passed turn) := by
    intro hnone hbefore hafter
    rw [hnone, List.append_nil]
    exact hwalk.silent h h' hmove hleads hfresh hbefore hafter
  cases hmove with
  | command _ hcontrol _ => exact absurd hcontrol hloop
  | @walkSend job' c next hcontrol hunmarked =>
      have hsend : t.passed turn = [.command c] := by simp [State.passed, hcontrol, hunmarked]
      rw [hsend]
      apply hwalk.send hs h h' (.walkSend hcontrol hunmarked) hover hleads howed hcontrol hunmarked
      simp [State.setProc, Proc.goto]
  | @hear job' c next hcontrol hrep =>
      have hreply : t.passed turn = [.reply c] := by simp [State.passed, hcontrol]
      rw [hreply]
      apply hwalk.receive h htidy h' (.hear hcontrol hrep) hover hleads howed hcontrol hrep
      intro job d rest
      unfold State.hear
      change (Function.update t.procs turn.pid _ turn.pid).control ≠ _
      rw [Function.update_self]
      exact of_judge (Q := (· ≠ .await job d rest)) (by simp) (by simp) (by simp) _ _ job' next _
  | greet hcontrol _ =>
      apply hsilent
      · simp [State.passed, hcontrol]
      · simp [hcontrol]
      · simp [State.setProc, Proc.goto]
  | receive hpos hcontrol hcmd =>
      apply hsilent
      · simp [State.passed, hcontrol]
      · simp [hcontrol]
      · intro job c next
        change (Function.update t.procs turn.pid _ turn.pid).control ≠ _
        rw [Function.update_self]
        exact dispatch_ne_await _ _
  | @fork child hcontrol =>
      apply hsilent
      · simp [State.passed, hcontrol]
      · simp [hcontrol]
      · rw [t.procs_fork_parent child turn.junk (Nat.ne_of_lt (h.lt_count (by simp [hcontrol])))]
        simp [Proc.adopt]
  | greeting hcontrol =>
      apply hsilent
      · simp [State.passed, hcontrol]
      · simp [hcontrol]
      · intro job c next
        simp only [State.setProc, Proc.goto, Function.update_self]
        split <;> simp
  | walkEnd hcontrol =>
      apply hsilent
      · simp [State.passed, hcontrol]
      · simp [hcontrol]
      · intro job c next
        simp only [State.setProc, Proc.goto, Function.update_self, State.notFound]
        split <;> simp
  | walkSkip hcontrol hmark =>
      apply hsilent
      · simp [State.passed, hcontrol, hmark]
      · simp [hcontrol]
      · simp [State.setProc, Proc.goto]
  | answer hcontrol =>
      apply hsilent
      · simp [State.passed, hcontrol]
      · simp [hcontrol]
      · intro job c next
        simp only [State.setProc, Proc.goto, Function.update_self]
        split <;> simp
  | @dyingEnd ending hcontrol =>
      apply hsilent
      · simp [State.passed, hcontrol]
      · simp [hcontrol]
      · cases ending <;> simp [State.setProc, Proc.goto, Ending.last]
  | dyingSkip hcontrol _ _ | tell hcontrol _ _ | tellNobody hcontrol _ _ =>
      apply hsilent
      · simp [State.passed, hcontrol]
      · simp [hcontrol]
      · simp [State.setProc, Proc.goto]
  | reap hcontrol _ _ _ | waitNobody hcontrol _ | exit hcontrol =>
      apply hsilent
      · simp [State.passed, hcontrol]
      · simp [hcontrol]
      · simp [State.setProc, Proc.goto]

/-- A service reads its greeting, also behind the end of the walk. -/
theorem greet (h : Inv t) (htidy : Tidy t) (hok : t.Greeted turn) (hmove : Move t turn t')
    (hwalk : Underway s job t log) (hpos : 0 < turn.pid)
    (hcontrol : (t.procs turn.pid).control = .greet) : Underway s job t' log := by
  have hne : turn.pid ≠ 0 := Nat.ne_of_gt hpos
  have hmanager : t'.procs 0 = t.procs 0 := (hmove.frame h).procs 0 (Ne.symm hne) h.born
  have hspends : Spends t t' :=
    hmove.spends h htidy (fun hzero => absurd hzero hne)
      (hmove.not_finds h fun hzero => absurd hzero hne)
  apply hwalk.silent h (h.move_kept hok hmove) hmove
  · rw [hmanager]
    exact hwalk.leads
  · rw [hmanager]
    intro hover c hc
    exact hwalk.owed hover c (hspends.owed c hc)
  · simp [hcontrol]
  · cases hmove with
    | greet => simp [State.setProc, Proc.goto]
    | _ => simp_all

/-- The Manager at the start of a walk. -/
theorem start (h : Inv s) (hbetween : s.Between) {request : Request} (hwalks : request.Walks)
    (bufs : Buffers) : Underway s request.job (s.given request bufs) [] := by
  have hinv : Inv (s.given request bufs) := h.obey hbetween.manager request bufs
  have hsame := State.obey_load_same (s.procs 0) bufs request
  have hself : (s.given request bufs).procs 0 = State.obey ((s.procs 0).load bufs) request := by
    simp [State.given, State.setProc]
  have hnone : ∀ c, ¬ (s.given request bufs).Called c := by
    intro c hcalled
    obtain ⟨job, child, next, hawait⟩ := hcalled.manager hinv
    rw [hself] at hawait
    exact obey_ne_await _ _ hawait
  constructor
  · intro _
    rw [hself]
    exact leads_obey _ hwalks
  · intro c _
    refine ⟨?_, id⟩
    by_cases hc : c = 0
    · rw [hc, hself, hsame.parent]
    · have hother : (s.given request bufs).procs c = s.procs c := Function.update_of_ne hc _ _
      rw [hother]
  · exact Nat.le_refl _
  · intro _ c howed
    exact ⟨(howed.bounds hinv).2, rfl⟩
  · intro c hcalled
    exact absurd hcalled (hnone c)
  · intro _ _
    rfl
  · intro _
    exact Nat.zero_le _
  · intro c hc
    cases hc

/-- One turn of a walk, with the pipes as they are. -/
theorem step (hs : Tidy s) (hsound : Sound t) (htidy : Tidy t.caughtUp)
    (hwalk : Underway s job t.caughtUp log) (hover : ¬ job.Over (t.procs 0).control)
    (hstep : t.stepMessage turn = some t') :
    Underway s job t'.caughtUp (log ++ t.passed turn) := by
  have h := hsound.inv
  rw [← hsound.manager] at hover
  cases hsound.follows hstep with
  | read hearly hsame =>
      have hnone : t.passed turn = [] := by simp [State.passed, hearly.1]
      rwa [hsame, hnone, List.append_nil]
  | same hgreet hmove =>
      have hpassed : t.passed turn = t.caughtUp.passed turn := by
        unfold State.passed
        simp only [State.procs_caughtUp (State.not_early hgreet), (t.seen_caughtUp _).1]
      rw [hpassed]
      exact hwalk.move hs h htidy (h.greeted turn) hmove hover
  | @greeting u child hcontrol hmove hpos hgreet hread =>
      have hself := State.procs_caughtUp (s := t) (c := turn.pid)
        (State.not_early (by simp [hcontrol]))
      have hnone : t.passed turn = [] := by simp [State.passed, hcontrol]
      have hnone' : t.caughtUp.passed turn = [] := by simp [State.passed, hself, hcontrol]
      have hmid := hwalk.move hs h htidy (h.greeted turn) hmove hover
      rw [hnone', List.append_nil] at hmid
      rw [hnone, List.append_nil]
      exact hmid.greet (h.move_kept (h.greeted turn) hmove) (htidy.move_kept h hmove)
        (State.greeted_of_greet hgreet) hread hpos hgreet

/-- Someone can go on until the walk is over. -/
theorem exists_turn (h : Inv t) (hwalk : Underway s job t log) (hjob : job ≠ .kill)
    (hover : ¬ job.Over (t.procs 0).control) : ∃ turn t', t.step turn = some t' := by
  have hlead := hwalk.leads hover
  have hworks : ∀ p, 0 < p ∧ t.stance p = .awaiting job → p < t.count →
      ¬ (t.procs p).control.Rests → ¬ (t.procs p).control.Gone →
      (t.procs p).control.Works job := by
    rintro p ⟨hpos, hstance⟩ hp hbusy hgone
    have hedge := h.edge p hpos hp
    rw [hstance] at hedge
    exact hedge.works hbusy hgone
  apply h.exists_turn (Q := fun p => p = 0 ∨ 0 < p ∧ t.stance p = .awaiting job) _ _ h.born
    (.inl rfl)
  · intro hrests
    rcases Control.rests_iff.mp hrests with hcontrol | hcontrol
    · rw [hcontrol] at hlead
      exact hlead
    · rw [hcontrol] at hlead
      exact hlead
  · intro hexited
    rw [hexited] at hlead
    exact hlead
  · intro p job' c next hQ hcontrol
    right
    have hp := h.lt_count (p := p) (by simp [hcontrol])
    have hc := h.mem_of_pending hcontrol (by simp) List.mem_cons_self
    obtain ⟨hpos, -, hparent, -, -⟩ := h.child hp hc
    refine ⟨hpos, ?_⟩
    have hsame : job' = job := by
      rcases hQ with rfl | hawaiting
      · exact hlead.passes (by rw [hcontrol]; rfl)
      · have hwork := hworks p hawaiting hp (by rw [hcontrol]; exact id) (by simp [hcontrol])
        exact hwork.passes (by rw [hcontrol]; rfl)
    rw [State.stance, hparent, hcontrol, hsame]
    exact if_pos rfl
  · intro p ending next hQ hp hcontrol
    rcases hQ with rfl | hawaiting
    · rw [hcontrol] at hlead
      exact hlead.elim
    · have hwork := hworks p hawaiting hp (by rw [hcontrol]; exact id) (by simp [hcontrol])
      rw [hcontrol] at hwork
      cases ending with
      | target => exact absurd hwork hjob
      | dead => exact hwork.elim

/-- In every order of turns the walk comes to its end. -/
theorem inevitable (hs : Tidy s) (hjob : job ≠ .kill) (hsound : Sound t)
    (htidy : Tidy t.caughtUp) (hwalk : Underway s job t.caughtUp log) :
    messages.Inevitable (fun _ _ => True) (fun u => job.Over (u.procs 0).control) t := by
  apply TransitionSystem.inevitable_of_measure
    (fun u => Sound u ∧ Tidy u.caughtUp ∧ ∃ log, Underway s job u.caughtUp log)
    (fun u => toLex (u.caughtUp.work, u.greeters)) _ _ ⟨hsound, htidy, log, hwalk⟩
  · rintro u ⟨hsound, htidy, log, hwalk⟩ hover
    rw [← hsound.manager] at hover
    obtain ⟨turn, v, hstep⟩ := hwalk.exists_turn hsound.inv hjob hover
    exact ⟨turn, hsound.enabled hstep⟩
  · rintro u turn u' ⟨hsound, htidy, log, hwalk⟩ hover _ hstep
    change u.stepMessage turn = some u' at hstep
    have hsound' := hsound.step hstep
    have hwalk' := hwalk.step hs hsound htidy hover hstep
    have hfollows := hsound.follows hstep
    have htidy' := hfollows.kept hsound.inv (fun h _ hmove htidy => htidy.move_kept h hmove) htidy
    by_cases hover' : job.Over (u'.procs 0).control
    · exact .inl hover'
    · right
      refine ⟨⟨hsound', htidy', _, hwalk'⟩, ?_⟩
      rw [← hsound.manager] at hover
      rw [← hsound'.manager] at hover'
      have hspent := hfollows.spends hsound.inv htidy (fun _ hloop => hover (.inl hloop))
        (hwalk.not_finds hwalk' hover hover')
      rw [Prod.Lex.toLex_lt_toLex]
      rcases hspent with ⟨hgreet, hsame⟩ | hless
      · right
        exact ⟨congrArg State.work hsame,
          State.greeters_lt (hsound.lt_count (by simp [hgreet])) hgreet hstep⟩
      · exact .inl hless

end Underway

theorem Tidy.of_reachable (hreach : messages.Reachable s) : Tidy s.caughtUp := by
  have hboth : Sound s ∧ Tidy s.caughtUp := by
    apply hreach.invariant
    · intro s hstart
      refine ⟨Sound.start hstart, ?_⟩
      rw [State.caughtUp_of_read (Sound.greeted_start hstart)]
      exact Tidy.start hstart
    · rintro s turn s' ⟨hsound, htidy⟩ hstep
      refine ⟨hsound.step hstep, ?_⟩
      exact (hsound.follows hstep).kept hsound.inv
        (fun h _ hmove htidy => htidy.move_kept h hmove) htidy
  exact hboth.2

theorem Request.job_ne_kill (request : Request) : request.job ≠ .kill := by
  cases request <;> simp [Request.job]

/-- Between two completed commands every service on a path without marks is blocked at its
`read`, with empty pipes.  A walk from there sends at most one command to each of them and
none to any other, gets one reply for each, and always comes to its end. -/
theorem walk_in_step (hreach : messages.Reachable s) (hbetween : s.Between) :
    (∀ c, OnPath s c → c ≠ 0 → s.Waits c) ∧
    ∀ (request : Request) (bufs : Buffers), request.Walks →
      messages.Inevitable (fun _ _ => True) (fun t => request.job.Over (t.procs 0).control)
        (s.given request bufs) ∧
      ∀ turns t, messages.Meets (fun u _ => ¬ request.job.Over (u.procs 0).control)
          (s.given request bufs) turns →
        messages.run (s.given request bufs) turns = some t →
        ∀ c,
          let log := messages.trace State.passed (s.given request bufs) turns
          log.count (.command c) ≤ 1 ∧ (.command c ∈ log → 0 < c ∧ OnPath s c) ∧
          log.count (.reply c) ≤ log.count (.command c) ∧
          (request.job.Over (t.procs 0).control →
            log.count (.reply c) = log.count (.command c)) := by
  have hcaught := State.caughtUp_of_read hbetween.greeted
  have h := (Sound.of_reachable hreach).inv
  have hs := Tidy.of_reachable hreach
  rw [hcaught] at h hs
  refine ⟨fun c hpath hne => hpath.waits h hbetween hne, ?_⟩
  intro request bufs hwalks
  have hgreeted : ∀ c, ((s.given request bufs).procs c).control ≠ .greet := by
    intro c
    by_cases hc : c = 0
    · simpa [hc, State.given, State.setProc] using obey_ne_greet ((s.procs 0).load bufs) request
    · have hother : (s.given request bufs).procs c = s.procs c := Function.update_of_ne hc _ _
      rw [hother]
      exact hbetween.greeted c
  have hgiven := State.caughtUp_of_read hgreeted
  have hsound : Sound (s.given request bufs) :=
    .of_inv (h.obey hbetween.manager request bufs) hgreeted
  have htidy : Tidy (s.given request bufs).caughtUp := by
    rw [hgiven]
    exact hs.move h.born (State.obey_load_same _ _ _) (sublist_obey _ _)
  have hstart : Underway s request.job (s.given request bufs).caughtUp [] := by
    rw [hgiven]
    exact .start h hbetween hwalks bufs
  refine ⟨hstart.inevitable hs request.job_ne_kill hsound htidy, ?_⟩
  intro turns t hmeets hrun c
  have hend : Sound t ∧ Tidy t.caughtUp ∧ Underway s request.job t.caughtUp
      (messages.trace State.passed (s.given request bufs) turns) := by
    apply TransitionSystem.trace_invariant State.passed
      (fun u log => Sound u ∧ Tidy u.caughtUp ∧ Underway s request.job u.caughtUp log) _
      ⟨hsound, htidy, hstart⟩ hmeets hrun
    rintro u turn u' log ⟨hsound, htidy, hwalk⟩ hover hstep
    refine ⟨hsound.step hstep, ?_, hwalk.step hs hsound htidy hover hstep⟩
    exact (hsound.follows hstep).kept hsound.inv
      (fun h _ hmove htidy => htidy.move_kept h hmove) htidy
  obtain ⟨hsound, -, hwalk⟩ := hend
  refine ⟨hwalk.once c, hwalk.path c, ?_, ?_⟩
  · by_cases hcalled : t.caughtUp.Called c
    · obtain ⟨-, hone, hnone⟩ := hwalk.called c hcalled
      omega
    · exact Nat.le_of_eq (hwalk.settled c hcalled).symm
  · intro hover
    refine (hwalk.settled c ?_).symm
    intro hcalled
    obtain ⟨job, child, next, hawait⟩ := hcalled.manager hsound.inv
    rw [hsound.manager] at hawait
    rcases hover with hloop | ⟨-, tmp, hkill⟩
    · simp [hloop] at hawait
    · simp [hkill] at hawait

def exchangePQ : Request := .exchange nameP.word nameQ.word

/-- `spawn Manager P` and `spawn P Q` are done, and `exchange P Q` is next. -/
theorem walk_in_step_twoSpawns : ∃ s,
    messages.run (.lone twoSpawns) (turnsOf [0, 0, 0, 1, 0, 0, 1, 1, 1, 2, 1, 0]) = some s ∧
      s.Waits 2 ∧
      messages.Inevitable (fun _ _ => True) (fun t => Job.exchange.Over (t.procs 0).control)
        (s.given exchangePQ fun _ => zeroed) := by
  have hfacts : (messages.run (.lone twoSpawns)
      (turnsOf [0, 0, 0, 1, 0, 0, 1, 1, 1, 2, 1, 0])).map (fun s => (s.count,
        [(s.procs 0).control, (s.procs 1).control, (s.procs 2).control], (s.procs 0).children,
        (s.procs 1).children, (s.links 1).haveKilled, (s.links 2).haveKilled)) =
      some (3, [.loop, .loop, .loop], [1], [2], false, false) := by decide
  obtain ⟨s, hrun, hs⟩ := Option.map_eq_some_iff.mp hfacts
  simp only [Prod.mk.injEq, List.cons.injEq, and_true] at hs
  obtain ⟨hcount, ⟨hzero, hone, htwo⟩, hfirst, hsecond, hmark1, hmark2⟩ := hs
  have hreach : messages.Reachable s :=
    TransitionSystem.Reachable.run (.start (start_lone twoSpawns)) _ hrun
  have hbetween : s.Between := by
    refine ⟨hzero, ?_⟩
    intro c hgreet
    have hlt := (Sound.of_reachable hreach).lt_count (p := c) (by simp [hgreet])
    rw [hcount] at hlt
    interval_cases c
    · simp [hzero] at hgreet
    · simp [hone] at hgreet
    · simp [htwo] at hgreet
  have hpath : OnPath s 1 := .child .manager (by simp [hfirst]) hmark1
  obtain ⟨hwaits, hwalks⟩ := walk_in_step hreach hbetween
  exact ⟨s, hrun, hwaits 2 (.child hpath (by simp [hsecond]) hmark2) (by decide),
    (hwalks exchangePQ (fun _ => zeroed) trivial).1⟩

end Services

end SystemsProgramming
