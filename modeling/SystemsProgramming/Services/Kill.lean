/-
What `kill` removes from the tree of services.  A service marks the child that says
"yes" even if the one that died is further down, and the Manager tells the two cases
apart by the fourth byte of a buffer it does not clear.
-/
import SystemsProgramming.Services.Search

namespace SystemsProgramming

namespace Services

/-- The way through a list to the first service called `x`: over what is marked, down to where
it is, and past what does not have it. -/
inductive Nodes.Found (x : Name) (t : Nodes) : Nat → Nodes → Prop
  | marked {d : Nat} {node : Node} {root next : Nodes} (hmark : node.haveKilled = true)
      (hnext : Found x t d next) : Found x t d (.cons node root next)
  | here {node : Node} {next : Nodes} (hmark : ¬ node.haveKilled = true)
      (hname : node.name = x) : Found x t 1 (.cons node t next)
  | beneath {d : Nat} {node : Node} {root next : Nodes} (hmark : ¬ node.haveKilled = true)
      (hname : ¬ node.name = x) (hroot : Found x t d root) :
      Found x t (d + 1) (.cons node root next)
  | beside {d : Nat} {node : Node} {root next : Nodes} (hmark : ¬ node.haveKilled = true)
      (hname : ¬ node.name = x) (hnone : root.target x = none) (hnext : Found x t d next) :
      Found x t d (.cons node root next)

variable {x : Name} {d : Nat} {node : Node} {l t root next : Nodes} {buf : Buffer}

namespace Nodes

theorem target_marked (hmark : node.haveKilled = true) :
    (cons node root next).target x = next.target x := by
  rw [target, if_pos hmark]

theorem target_here (hmark : ¬ node.haveKilled = true) (hname : node.name = x) :
    (cons node root next).target x = some (1, root) := by
  rw [target, if_neg hmark, if_pos hname]

theorem target_below (hmark : ¬ node.haveKilled = true) (hname : ¬ node.name = x)
    (hroot : root.target x = some (d, t)) :
    (cons node root next).target x = some (d + 1, t) := by
  rw [target, if_neg hmark, if_neg hname, hroot]

theorem target_beside (hmark : ¬ node.haveKilled = true) (hname : ¬ node.name = x)
    (hroot : root.target x = none) : (cons node root next).target x = next.target x := by
  rw [target, if_neg hmark, if_neg hname, hroot]

theorem reachable_marked (hmark : node.haveKilled = true) :
    (cons node root next).reachable = next.reachable := by
  rw [reachable, if_pos hmark]

theorem reachable_unmarked (hmark : ¬ node.haveKilled = true) :
    (cons node root next).reachable = .cons node.name root.reachable next.reachable := by
  rw [reachable, if_neg hmark]

theorem Found.target_eq (hfound : Found x t d l) : l.target x = some (d, t) := by
  induction hfound with
  | marked hmark _ ih => rw [target_marked hmark, ih]
  | here hmark hname => exact target_here hmark hname
  | beneath hmark hname _ ih => exact target_below hmark hname ih
  | beside hmark hname hnone _ ih => rw [target_beside hmark hname hnone, ih]

theorem Found.pos (hfound : Found x t d l) : 0 < d := by
  induction hfound with
  | marked _ _ ih => exact ih
  | here => exact Nat.one_pos
  | beneath => exact Nat.succ_pos _
  | beside _ _ _ _ ih => exact ih

theorem found_of_target (htarget : l.target x = some (d, t)) : Found x t d l := by
  induction l generalizing d with
  | nil => simp [target] at htarget
  | cons node root next ihroot ihnext =>
      by_cases hmark : node.haveKilled = true
      · rw [target_marked hmark] at htarget
        exact .marked hmark (ihnext htarget)
      · by_cases hname : node.name = x
        · rw [target_here hmark hname] at htarget
          obtain ⟨rfl, rfl⟩ : 1 = d ∧ root = t := by simpa using htarget
          exact .here hmark hname
        · cases hroot : root.target x with
          | some found =>
              rw [target_below hmark hname hroot] at htarget
              obtain ⟨rfl, rfl⟩ : found.1 + 1 = d ∧ found.2 = t := by simpa using htarget
              exact .beneath hmark hname (ihroot hroot)
          | none =>
              rw [target_beside hmark hname hroot] at htarget
              exact .beside hmark hname hroot (ihnext htarget)

end Nodes

/-- A `kill` that finds nobody leaves the services as they are. -/
theorem killRelay_none (hnone : l.target x = none) : killRelay x l = some (.not, l) := by
  induction l with
  | nil => rfl
  | cons node root next ihroot ihnext =>
      unfold killRelay
      by_cases hmark : node.haveKilled = true
      · rw [Nodes.target_marked hmark] at hnone
        rw [if_pos hmark, ihnext hnone]
        rfl
      · unfold Nodes.target at hnone
        rw [if_neg hmark] at hnone ⊢
        unfold killAnswer
        by_cases hname : node.name = x
        · simp [hname] at hnone
        · rw [if_neg hname] at hnone ⊢
          cases hroot : root.target x with
          | some found => simp [hroot] at hnone
          | none =>
              simp only [hroot] at hnone
              simp [ihroot hroot, ihnext hnone, Reply.isYes]

/-- A `kill` cuts off the child on the way to the service it names, if that service can
wait for its children. -/
theorem killRelay_target (hfound : l.target x = some (d, t)) :
    (t.dies = true → ∃ l', killRelay x l = some (.yes, l') ∧
      l.reachable.cut x 0 = some l'.reachable) ∧
    (t.dies = false → killRelay x l = none) := by
  replace hfound := Nodes.found_of_target hfound
  induction hfound with
  | @marked _ node root next hmark _ ih =>
      obtain ⟨hdies, hblocks⟩ := ih
      rw [killRelay, if_pos hmark, Nodes.reachable_marked hmark]
      constructor
      · intro ht
        obtain ⟨next', hrelay, hcut⟩ := hdies ht
        exact ⟨.cons node root next', by simp [hrelay],
          by rw [hcut, Nodes.reachable_marked hmark]⟩
      · intro ht
        simp [hblocks ht]
  | @here node next hmark hname =>
      rw [killRelay, if_neg hmark, Nodes.reachable_unmarked hmark, killAnswer, if_pos hname,
        Forest.cut, if_pos hname]
      constructor
      · intro ht
        exact ⟨.cons { node with haveKilled := true, exited := true } t.bury next,
          by simp [ht, Reply.isYes], by rw [Nodes.reachable_marked rfl]⟩
      · intro ht
        simp [ht]
  | @beneath _ node root next hmark hname hroot ih =>
      obtain ⟨hdies, hblocks⟩ := ih
      rw [killRelay, if_neg hmark, Nodes.reachable_unmarked hmark, killAnswer, if_neg hname,
        Forest.cut, if_neg hname, if_pos (Nodes.mem_of_target hroot.target_eq)]
      constructor
      · intro ht
        obtain ⟨root', hrelay, -⟩ := hdies ht
        exact ⟨.cons { node with haveKilled := true } root' next,
          by simp [hrelay, Reply.isYes], by rw [Nodes.reachable_marked rfl]⟩
      · intro ht
        simp [hblocks ht]
  | @beside _ node root next hmark hname hnone _ ih =>
      obtain ⟨hdies, hblocks⟩ := ih
      rw [killRelay, if_neg hmark, Nodes.reachable_unmarked hmark, killAnswer, if_neg hname,
        Forest.cut, if_neg hname, if_neg (Nodes.target_eq_none_iff.mp hnone),
        killRelay_none hnone]
      constructor
      · intro ht
        obtain ⟨next', hrelay, hcut⟩ := hdies ht
        exact ⟨.cons node root next', by simp [hrelay, Reply.isYes],
          by rw [hcut, Nodes.reachable_unmarked hmark]; rfl⟩
      · intro ht
        simp [hblocks ht, Reply.isYes]

/-- How far down the way to the service named the Manager cuts: it takes a stale 'n' for
the death of the child that answered. -/
def cutDepth (d : Nat) (buf : Buffer) : Nat := if d = 1 ∨ buf fourth = 'n' then 0 else 1

theorem killWalk_target (hfound : l.target x = some (d, t)) (buf : Buffer) :
    (t.dies = true → ∃ walk, killWalk x buf l = some walk ∧
      l.reachable.cut x (cutDepth d buf) = some walk.root.reachable) ∧
    (t.dies = false → killWalk x buf l = none) := by
  replace hfound := Nodes.found_of_target hfound
  induction hfound generalizing buf with
  | @marked _ node root next hmark _ ih =>
      obtain ⟨hdies, hblocks⟩ := ih buf
      rw [killWalk, if_pos hmark, Nodes.reachable_marked hmark]
      constructor
      · intro ht
        obtain ⟨walk, hwalk, hcut⟩ := hdies ht
        exact ⟨⟨walk.buf, walk.killed, .cons node root walk.root⟩, by simp [hwalk],
          by rw [hcut, Nodes.reachable_marked hmark]⟩
      · intro ht
        simp [hblocks ht]
  | @here node next hmark hname =>
      rw [killWalk, if_neg hmark, Nodes.reachable_unmarked hmark, killAnswer, if_pos hname]
      unfold Forest.cut
      rw [if_pos hname]
      constructor
      · intro ht
        exact ⟨⟨buf.read .yesn, some node.childNum,
          .cons { node with haveKilled := true, exited := true } t.bury next⟩,
          by simp [ht, Reply.isYes], by rw [Nodes.reachable_marked rfl]⟩
      · intro ht
        simp [ht]
  | @beneath d node root next hmark hname hroot _ =>
      have hpos := hroot.pos
      obtain ⟨hdies, hblocks⟩ := killRelay_target hroot.target_eq
      rw [killWalk, if_neg hmark, Nodes.reachable_unmarked hmark, killAnswer, if_neg hname]
      unfold Forest.cut
      rw [if_neg hname, if_pos (Nodes.mem_of_target hroot.target_eq)]
      constructor
      · intro ht
        obtain ⟨root', hrelay, hcut⟩ := hdies ht
        by_cases hn : buf fourth = 'n'
        · exact ⟨⟨buf.read .yes, some node.childNum,
            .cons { node with haveKilled := true } root' next⟩,
            by simp [hrelay, hn, Reply.isYes],
            by simp [cutDepth, hn, Nodes.reachable]⟩
        · have hdepth : cutDepth (d + 1) buf = 1 := if_neg (by simp [hn]; omega)
          exact ⟨⟨buf.read .yes, some node.childNum, .cons node root' next⟩,
            by simp [hrelay, hn, Reply.isYes],
            by simp [hdepth, hcut, Nodes.reachable_unmarked hmark]⟩
      · intro ht
        simp [hblocks ht]
  | @beside d node root next hmark hname hnone _ ih =>
      obtain ⟨hdies, hblocks⟩ := ih (buf.read .not)
      rw [killWalk, if_neg hmark, Nodes.reachable_unmarked hmark, killAnswer, if_neg hname,
        killRelay_none hnone]
      unfold Forest.cut
      rw [if_neg hname, if_neg (Nodes.target_eq_none_iff.mp hnone)]
      constructor
      · intro ht
        obtain ⟨walk, hwalk, hcut⟩ := hdies ht
        have hdepth : cutDepth d (buf.read .not) = cutDepth d buf := rfl
        exact ⟨⟨walk.buf, walk.killed, .cons node root walk.root⟩,
          by simp [hwalk, Reply.isYes],
          by rw [← hdepth, hcut, Nodes.reachable_unmarked hmark]; rfl⟩
      · intro ht
        simp [hblocks ht, Reply.isYes]

namespace Manager

/-- After `kill target` the services in reach are those before without the first one of
that name and those below it, and each of them accepts a `spawn`.  A name out of reach
is reported and changes nothing. -/
def RemovesOne (m : Manager) (target : Name) : Prop :=
  match m.root.reachable.removeFirst target with
  | some rest => ∃ m', m.kill target = some m' ∧ m'.root.reachable = rest ∧
      ∀ p ∈ rest.labels, ∀ child garbage,
        (m'.spawn (.service p) child garbage).root.reachable.HasEdge p child
  | none => ∃ m', m.kill target = some m' ∧ m'.root = m.root ∧
      m'.output.getLast? = some (.notExist (.service target))

/-- The service named can wait for its children, and it is a child of the Manager, or a
grandchild while no 'n' is left in the buffer of the second loop. -/
def KillSafe (m : Manager) (target : Name) : Prop :=
  ∀ d list, m.root.target target = some (d, list) →
    list.dies = true ∧ (d = 1 ∨ d = 2 ∧ m.killBuf fourth ≠ 'n')

theorem root_find (m : Manager) (want : Name) :
    ((findBranch want).walk Buffer.terminate Buffer.isYes m.findBuf m.root).root = m.root :=
  Branch.root_walk_of_act (fun _ => rfl) m.findBuf m.root

theorem kill_none {m : Manager} (hnone : m.root.target x = none) :
    ∃ m', m.kill x = some m' ∧ m'.root = m.root ∧
      m'.output.getLast? = some (.notExist (.service x)) := by
  have hroot := root_find m x
  have hfound := found_find (x := x) m.findBuf m.root
  rw [hnone, Option.isSome_none] at hfound
  unfold kill
  simp only [print, hroot, hfound, Bool.false_eq_true, if_false]
  exact ⟨_, rfl, rfl, List.getLast?_concat⟩

theorem kill_target {m : Manager} (hfound : m.root.target x = some (d, t)) :
    (t.dies = true → ∃ m', m.kill x = some m' ∧
      m.root.reachable.cut x (cutDepth d m.killBuf) = some m'.root.reachable) ∧
    (t.dies = false → m.kill x = none) := by
  have hroot := root_find m x
  have hfind := found_find (x := x) m.findBuf m.root
  rw [hfound, Option.isSome_some] at hfind
  obtain ⟨hdies, hblocks⟩ := killWalk_target hfound m.killBuf
  unfold kill
  simp only [print, hroot, hfind, if_true]
  constructor
  · intro ht
    obtain ⟨walk, hwalk, hcut⟩ := hdies ht
    rw [hwalk]
    exact ⟨_, rfl, hcut⟩
  · intro ht
    rw [hblocks ht]
    rfl

theorem cutDepth_iff (buf : Buffer) (hpos : 0 < d) :
    d ≤ cutDepth d buf + 1 ↔ d = 1 ∨ d = 2 ∧ buf fourth ≠ 'n' := by
  unfold cutDepth
  by_cases hn : buf fourth = 'n'
  · simp only [hn, or_true, if_true, ne_eq, not_true_eq_false, and_false, or_false]
    omega
  · by_cases hd : d = 1
    · simp [hd]
    · simp only [hd, hn, or_self, if_false, ne_eq, not_false_eq_true, and_true, false_or]
      omega

/-- A `kill` removes exactly one subtree when it is safe, and otherwise blocks or loses
services that are not below the one it names. -/
theorem removesOne_iff_killSafe (m : Manager) (target : Name) :
    m.RemovesOne target ↔ m.KillSafe target := by
  unfold RemovesOne KillSafe
  cases hfound : m.root.target target with
  | none =>
      have hnot := Nodes.target_eq_none_iff.mp hfound
      rw [Forest.removeFirst_eq_none_iff.mpr hnot]
      constructor
      · intro _ d list heq
        cases heq
      · intro _
        exact kill_none hfound
  | some found =>
      obtain ⟨d, t⟩ := found
      have hdepth := Nodes.depth_reachable (x := target) m.root
      rw [hfound, Option.map_some] at hdepth
      have hsafe := cutDepth_iff m.killBuf (Forest.depth_pos hdepth)
      have hcut := Forest.cut_eq_removeFirst_iff (k := cutDepth d m.killBuf) hdepth
      obtain ⟨hdies, hblocks⟩ := kill_target hfound
      cases hremove : m.root.reachable.removeFirst target with
      | none =>
          exact absurd (Forest.mem_of_depth hdepth) (Forest.removeFirst_eq_none_iff.mp hremove)
      | some rest =>
          rw [hremove] at hcut
          constructor
          · intro ⟨m', hkill, hrest, _⟩ e list heq
            obtain ⟨rfl, rfl⟩ : d = e ∧ t = list := by simpa using heq
            cases ht : t.dies with
            | false => simp [hblocks ht] at hkill
            | true =>
                obtain ⟨m'', hkill', hcut'⟩ := hdies ht
                obtain rfl : m'' = m' := Option.some.inj (hkill'.symm.trans hkill)
                exact ⟨rfl, hsafe.mp (hcut.mp (hcut'.trans (congrArg some hrest)))⟩
          · intro hall
            obtain ⟨ht, hlevel⟩ := hall d t rfl
            obtain ⟨m', hkill, hcut'⟩ := hdies ht
            have hrest : m'.root.reachable = rest :=
              Option.some.inj (hcut'.symm.trans (hcut.mpr (hsafe.mpr hlevel)))
            refine ⟨m', hkill, hrest, ?_⟩
            intro p hp child garbage
            exact hasEdge_spawn m' (hrest ▸ hp)

/-- The Manager as it starts, with zeroed buffers. -/
def fresh : Manager where
  root := .nil
  childNum := 0
  spawnBuf := zeroed
  findBuf := zeroed
  killBuf := zeroed
  exchangeBuf := zeroed
  output := []

end Manager

/-- `A`, a child `B` of it, and a child `X` of `B`. -/
def nameA : Name := .letter 'A' (by decide) (by decide)
def nameB : Name := .letter 'B' (by decide) (by decide)
def nameX : Name := .letter 'X' (by decide) (by decide)

def chainOfThree : List (Command × Buffers) :=
  onZeroed
    [.spawn .manager nameA 0, .spawn (.service nameA) nameB 0, .spawn (.service nameB) nameX 0]

/-- `kill X` loses `B`, which is not below `X`. -/
theorem not_removesOne_chainOfThree :
    commands.start Manager.fresh ∧
    ∃ m, commands.run Manager.fresh chainOfThree = some m ∧ ¬ m.RemovesOne nameX := by
  refine ⟨⟨rfl, rfl, rfl⟩, _, rfl, ?_⟩
  intro ⟨m', hkill, hrest, _⟩
  obtain rfl := Option.some.inj hkill
  exact absurd hrest (by decide)

end Services

end SystemsProgramming
