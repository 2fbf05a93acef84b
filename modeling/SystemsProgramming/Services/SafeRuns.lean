/-
Runs in which every `kill` is safe.  A marked child has exited in all their states, so
that only the depth of a service decides about the next `kill`.
-/
import SystemsProgramming.Services.Kill

namespace SystemsProgramming

namespace Services

variable {x : Name} {d : Nat} {l l' t : Nodes} {buf : Buffer} {b : Branch} {reply : Reply}

namespace Nodes

theorem dies_marked {node : Node} {root next : Nodes} (hmark : node.haveKilled = true) :
    (cons node root next).dies = (node.exited && next.dies) := by
  rw [dies, if_pos hmark]

theorem dies_unmarked {node : Node} {root next : Nodes} (hmark : ¬ node.haveKilled = true) :
    (cons node root next).dies = (root.dies && next.dies) := by
  rw [dies, if_neg hmark]

theorem dies_createService (child : Name) (garbage : Int) (l : Nodes) :
    (l.createService child garbage).dies = l.dies := by
  induction l with
  | nil => rfl
  | cons node root next _ ihnext =>
      unfold createService dies
      rw [ihnext]

theorem dies_target (hdies : l.dies = true) (hfound : l.target x = some (d, t)) :
    t.dies = true := by
  replace hfound := found_of_target hfound
  induction hfound with
  | marked hmark _ ih =>
      rw [dies_marked hmark, Bool.and_eq_true] at hdies
      exact ih hdies.2
  | here hmark _ =>
      rw [dies_unmarked hmark, Bool.and_eq_true] at hdies
      exact hdies.1
  | beneath hmark _ _ ih =>
      rw [dies_unmarked hmark, Bool.and_eq_true] at hdies
      exact ih hdies.1
  | beside hmark _ _ _ ih =>
      rw [dies_unmarked hmark, Bool.and_eq_true] at hdies
      exact ih hdies.2

end Nodes

namespace Branch

theorem dies_answer (hact : ∀ root : Nodes, root.dies = true → (b.act root).dies = true)
    (name : Name) {root : Nodes} (hroot : root.dies = true)
    (hrelay : (b.relay root).root.dies = true) :
    (b.answer name root (b.relay root)).root.dies = true := by
  unfold answer
  split
  · exact hact root hroot
  · exact hrelay

theorem dies_relay (hact : ∀ root : Nodes, root.dies = true → (b.act root).dies = true)
    (hdies : l.dies = true) : (b.relay l).root.dies = true := by
  induction l with
  | nil => rfl
  | cons node root next ihroot ihnext =>
      unfold relay
      by_cases hmark : node.haveKilled = true
      · rw [Nodes.dies_marked hmark, Bool.and_eq_true] at hdies
        rw [if_pos hmark]
        simp only [Nodes.dies_marked hmark, hdies.1, ihnext hdies.2, Bool.and_self]
      · rw [Nodes.dies_unmarked hmark, Bool.and_eq_true] at hdies
        have hanswer := dies_answer hact node.name hdies.1 (ihroot hdies.1)
        rw [if_neg hmark]
        dsimp only
        split
        · simp only [Nodes.dies_unmarked hmark, hanswer, hdies.2, Bool.and_self]
        · simp only [Nodes.dies_unmarked hmark, hanswer, ihnext hdies.2, Bool.and_self]

theorem dies_walk {settle : Buffer → Buffer} {accepts : Buffer → Bool}
    (hact : ∀ root : Nodes, root.dies = true → (b.act root).dies = true)
    (hdies : l.dies = true) (buf : Buffer) :
    (b.walk settle accepts buf l).root.dies = true := by
  induction l generalizing buf with
  | nil => rfl
  | cons node root next _ ihnext =>
      unfold walk
      by_cases hmark : node.haveKilled = true
      · rw [Nodes.dies_marked hmark, Bool.and_eq_true] at hdies
        rw [if_pos hmark]
        simp only [Nodes.dies_marked hmark, hdies.1, ihnext hdies.2, Bool.and_self]
      · rw [Nodes.dies_unmarked hmark, Bool.and_eq_true] at hdies
        have hanswer := dies_answer hact node.name hdies.1 (dies_relay hact hdies.1)
        rw [if_neg hmark]
        dsimp only
        split
        · simp only [Nodes.dies_unmarked hmark, hanswer, hdies.2, Bool.and_self]
        · simp only [Nodes.dies_unmarked hmark, hanswer, ihnext hdies.2, Bool.and_self]

end Branch

/-- A service that finds the target among its own children marks the one that died. -/
theorem dies_killRelay (hfound : l.target x = some (1, t)) (hdies : l.dies = true)
    (hrelay : killRelay x l = some (reply, l')) : l'.dies = true := by
  replace hfound := Nodes.found_of_target hfound
  generalize hone : 1 = d at hfound
  induction hfound generalizing reply l' with
  | @marked _ node root next hmark _ ih =>
      rw [Nodes.dies_marked hmark, Bool.and_eq_true] at hdies
      rw [killRelay, if_pos hmark] at hrelay
      obtain ⟨⟨reply', next'⟩, hnext, heq⟩ := Option.map_eq_some_iff.mp hrelay
      obtain ⟨rfl, rfl⟩ : reply' = reply ∧ Nodes.cons node root next' = l' := by simpa using heq
      rw [Nodes.dies_marked hmark, hdies.1, ih hdies.2 hnext hone]
      rfl
  | @here node next hmark hname =>
      rw [Nodes.dies_unmarked hmark, Bool.and_eq_true] at hdies
      simp only [killRelay, killAnswer, if_neg hmark, hname, hdies.1, if_true, Option.bind_some,
        Reply.isYes, Option.some.injEq, Prod.mk.injEq] at hrelay
      obtain ⟨-, rfl⟩ := hrelay
      rw [Nodes.dies_marked rfl, hdies.2]
      rfl
  | beneath _ _ hroot _ =>
      have hpos := hroot.pos
      omega
  | @beside _ node root next hmark hname hnone _ ih =>
      rw [Nodes.dies_unmarked hmark, Bool.and_eq_true] at hdies
      simp only [killRelay, killAnswer, if_neg hmark, hname, if_false, killRelay_none hnone,
        Option.map_some, Option.bind_some, Reply.isYes, Bool.false_eq_true] at hrelay
      obtain ⟨⟨reply', next'⟩, hnext, heq⟩ := Option.map_eq_some_iff.mp hrelay
      obtain ⟨rfl, rfl⟩ : reply' = reply ∧ Nodes.cons node root next' = l' := by simpa using heq
      rw [Nodes.dies_unmarked hmark, hdies.1, ih hdies.2 hnext hone]
      rfl

theorem dies_killWalk {walk : KillWalk} (hfound : l.target x = some (d, t))
    (hsafe : d = 1 ∨ d = 2 ∧ buf fourth ≠ 'n') (hdies : l.dies = true)
    (hwalk : killWalk x buf l = some walk) : walk.root.dies = true := by
  replace hfound := Nodes.found_of_target hfound
  induction hfound generalizing buf walk with
  | @marked _ node root next hmark _ ih =>
      rw [Nodes.dies_marked hmark, Bool.and_eq_true] at hdies
      rw [killWalk, if_pos hmark] at hwalk
      obtain ⟨walk', hnext, rfl⟩ := Option.map_eq_some_iff.mp hwalk
      rw [Nodes.dies_marked hmark, hdies.1, ih hsafe hdies.2 hnext]
      rfl
  | @here node next hmark hname =>
      rw [Nodes.dies_unmarked hmark, Bool.and_eq_true] at hdies
      simp only [killWalk, killAnswer, if_neg hmark, hname, hdies.1, if_true, Option.bind_some,
        Buffer.startsYes_read, Reply.isYes, Buffer.read_yesn_fourth, Option.some.injEq] at hwalk
      obtain rfl := hwalk
      rw [Nodes.dies_marked rfl, hdies.2]
      rfl
  | @beneath d node root next hmark hname hroot _ =>
      rw [Nodes.dies_unmarked hmark, Bool.and_eq_true] at hdies
      have hpos := hroot.pos
      have hone : d = 1 := by omega
      subst hone
      have hstale : buf fourth ≠ 'n' := (hsafe.resolve_left (by simp)).2
      obtain ⟨root', hrelay, -⟩ :=
        (killRelay_target hroot.target_eq).1 (Nodes.dies_target hdies.1 hroot.target_eq)
      have hroot' := dies_killRelay hroot.target_eq hdies.1 hrelay
      simp only [killWalk, killAnswer, if_neg hmark, hname, hrelay, Option.map_some,
        Option.bind_some, Buffer.startsYes_read, Reply.isYes, Buffer.read_yes_fourth, hstale,
        if_true, if_false, Option.some.injEq] at hwalk
      obtain rfl := hwalk
      rw [Nodes.dies_unmarked hmark, hroot', hdies.2]
      rfl
  | @beside d node root next hmark hname hnone _ ih =>
      rw [Nodes.dies_unmarked hmark, Bool.and_eq_true] at hdies
      have hkept : d = 1 ∨ d = 2 ∧ buf.read .not fourth ≠ 'n' := hsafe
      simp only [killWalk, killAnswer, if_neg hmark, hname, killRelay_none hnone, Option.map_some,
        Option.bind_some, Buffer.startsYes_read, Reply.isYes, Bool.false_eq_true,
        if_false] at hwalk
      obtain ⟨walk', hnext, rfl⟩ := Option.map_eq_some_iff.mp hwalk
      rw [Nodes.dies_unmarked hmark, hdies.1, ih hkept hdies.2 hnext]
      rfl

/-- A command that is not a `kill` that goes wrong. -/
def SafeCommand (m : Manager) : Command × Buffers → Prop
  | (.kill target, bufs) => (m.load bufs).KillSafe target
  | _ => True

namespace Manager

theorem dies_spawn (m : Manager) (hdies : m.root.dies = true) (parent : Party) (child : Name)
    (garbage : Int) : (m.spawn parent child garbage).root.dies = true := by
  have hact : ∀ root : Nodes, root.dies = true →
      ((spawnBranch parent child garbage).act root).dies = true := by
    intro root hroot
    exact (Nodes.dies_createService child garbage root).trans hroot
  unfold spawn
  dsimp only
  split
  · exact hact m.root hdies
  · split <;> exact Branch.dies_walk hact hdies m.spawnBuf

theorem dies_exchange (m : Manager) (hdies : m.root.dies = true) (one other : Party) :
    (m.exchange one other).root.dies = true :=
  Branch.dies_walk (fun _ hroot => hroot) hdies m.exchangeBuf

theorem dies_kill {m m' : Manager} (hdies : m.root.dies = true) (hsafe : m.KillSafe x)
    (hkill : m.kill x = some m') : m'.root.dies = true := by
  have hroot := root_find m x
  have hfind := found_find (x := x) m.findBuf m.root
  unfold kill at hkill
  simp only [print, hroot, hfind] at hkill
  cases hfound : m.root.target x with
  | none =>
      simp only [hfound, Option.isSome_none, Bool.false_eq_true, if_false,
        Option.some.injEq] at hkill
      obtain rfl := hkill
      exact hdies
  | some found =>
      simp only [hfound, Option.isSome_some, if_true] at hkill
      obtain ⟨walk, hwalk, rfl⟩ := Option.map_eq_some_iff.mp hkill
      exact dies_killWalk hfound (hsafe found.1 found.2 hfound).2 hdies hwalk

end Manager

/-- After safe commands every service can wait for its children. -/
theorem dies_of_safe_run {m : Manager} (hreach : commands.ReachableBy SafeCommand m) :
    m.root.dies = true := by
  apply hreach.invariant (P := fun m => m.root.dies = true)
  · intro m hstart
    rw [hstart.1]
    rfl
  · rintro m ⟨command, bufs⟩ m' hdies hsafe hstep
    replace hdies : (m.load bufs).root.dies = true := hdies
    cases command with
    | spawn parent child garbage =>
        obtain rfl := Option.some.inj hstep
        exact Manager.dies_spawn (m.load bufs) hdies parent child garbage
    | kill target => exact Manager.dies_kill hdies hsafe hstep
    | exchange one other =>
        obtain rfl := Option.some.inj hstep
        exact Manager.dies_exchange (m.load bufs) hdies one other

/-- In a run of safe commands a `kill` is safe by the depth of the service it names. -/
theorem killSafe_iff_of_safe_run {m : Manager} (hreach : commands.ReachableBy SafeCommand m)
    (bufs : Buffers) (target : Name) : (m.load bufs).KillSafe target ↔
      ∀ d, m.root.reachable.depth target = some d → d = 1 ∨ d = 2 ∧ bufs .kill fourth ≠ 'n' := by
  have hdies := dies_of_safe_run hreach
  rw [Nodes.depth_reachable]
  constructor
  · intro hsafe d hdepth
    obtain ⟨found, hfound, rfl⟩ := Option.map_eq_some_iff.mp hdepth
    exact (hsafe found.1 found.2 hfound).2
  · intro hlevel d list hfound
    exact ⟨Nodes.dies_target hdies hfound, hlevel d (congrArg (Option.map Prod.fst) hfound)⟩

end Services

end SystemsProgramming
