/-
The number that a `kill` reports: `child_num` of a node, which only the Manager counts up
and only in its own node, against the services below the one that is killed.
-/
import SystemsProgramming.Services.Preorder

namespace SystemsProgramming

namespace Services

namespace Nodes

/-- The services in a list and below it that have not exited. -/
def alive : Nodes → Nat
  | nil => 0
  | cons node root next => (if node.exited then 0 else 1) + root.alive + next.alive

/-- The child on the way to the first service in reach with the name `want`. -/
def carrier (want : Name) : Nodes → Option Node
  | nil => none
  | cons node root next =>
      if node.haveKilled then next.carrier want
      else if node.name = want ∨ want ∈ root.reachable.labels then some node
      else next.carrier want

/-- The children that have exited. -/
def gone (l : Nodes) : Nat := l.entries.countP fun entry => entry.1.exited

/-- The services below the children that have not exited. -/
def deeper (l : Nodes) : Nat := (l.entries.map fun entry => entry.2.alive).sum

/-- Whether the loop of `kill Manager` ends.  It waits once for each child that is not marked,
and a `wait` returns any child that has exited and has not been waited for. -/
def waits : Nat → Nodes → Bool
  | _, nil => true
  | zombies, cons node root next =>
      if node.haveKilled then next.waits zombies
      else
        let zombies := if root.dies then zombies + 1 else zombies
        zombies ≠ 0 && next.waits (zombies - 1)

end Nodes

namespace Manager

/-- The number that a `kill` of a service prints, if it prints one. -/
def printed (m : Manager) (target : Name) : Option Int :=
  (m.kill target).bind fun m' =>
    match m'.output.getLast? with
    | some (.killed _ num) => some num
    | _ => none

/-- The number that a `kill` prints when it finds `bufs` in the buffers. -/
def report (m : Manager) (bufs : Buffers) : Party → Option Int
  | .manager => if m.root.waits m.root.gone then some m.childNum else none
  | .service target => (m.load bufs).printed target

/-- The services that are alive below the one that is killed. -/
def below (m : Manager) : Party → Nat
  | .manager => m.root.alive
  | .service target => ((m.root.target target).map fun found => found.2.alive).getD 0

/-- A number that is printed, whatever the buffers hold, is the number of services alive
below. -/
def ReportsBelow (m : Manager) (target : Party) : Prop :=
  ∀ bufs num, m.report bufs target = some num → num = m.below target

/-- For the Manager, as many of its children have exited as services are alive below its
children; for a service, the node of the Manager's child on the way holds the right number
where `child_num` is never set. -/
def CountsBelow (m : Manager) : Party → Prop
  | .manager => m.root.waits m.root.gone = true → m.root.gone = m.root.deeper
  | .service target =>
      match m.root.target target with
      | some (_, t) => t.dies = true → (m.root.carrier target).map Node.childNum = some ↑t.alive
      | none => True

end Manager

variable {x child : Name} {garbage : Int} {d : Nat} {l t : Nodes} {buf : Buffer} {b : Branch}
  {walk : KillWalk} {m m' : Manager}

namespace Nodes

theorem carrier_isSome (hmem : x ∈ l.reachable.labels) : ∃ node, l.carrier x = some node := by
  induction l with
  | nil => simp [reachable, Forest.labels] at hmem
  | cons node root next _ ihnext =>
      unfold carrier
      by_cases hmark : node.haveKilled = true
      · rw [reachable_marked hmark] at hmem
        rw [if_pos hmark]
        exact ihnext hmem
      · rw [reachable_unmarked hmark, Forest.mem_labels_cons] at hmem
        rw [if_neg hmark]
        by_cases hhere : node.name = x ∨ x ∈ root.reachable.labels
        · exact ⟨node, if_pos hhere⟩
        · rw [if_neg hhere]
          rcases hmem with h | h | h
          · exact absurd (Or.inl h.symm) hhere
          · exact absurd (Or.inr h) hhere
          · exact ihnext h

theorem childNum_mem_of_carrier {node : Node} (hnode : l.carrier x = some node) :
    node.childNum ∈ l.entries.map fun entry => entry.1.childNum := by
  induction l with
  | nil => cases hnode
  | cons head root next _ ihnext =>
      unfold carrier at hnode
      split at hnode
      · exact List.mem_cons_of_mem _ (ihnext hnode)
      · split at hnode
        · obtain rfl := Option.some.inj hnode
          exact List.mem_cons_self
        · exact List.mem_cons_of_mem _ (ihnext hnode)

/-- The living are the children that have not exited and whoever is alive below a child. -/
theorem alive_add_gone (l : Nodes) : l.alive + l.gone = l.entries.length + l.deeper := by
  induction l with
  | nil => rfl
  | cons node root next _ ihnext =>
      simp only [alive, gone, deeper, entries, List.countP_cons, List.length_cons,
        List.map_cons, List.sum_cons] at ihnext ⊢
      cases node.exited <;> simp <;> omega

end Nodes

/-- What the second loop of `kill` prints is read from the node of the child that answers. -/
theorem killed_killWalk (hwalk : killWalk x buf l = some walk) :
    walk.killed = (l.carrier x).map Node.childNum := by
  induction l generalizing buf walk with
  | nil =>
      obtain rfl := Option.some.inj hwalk
      rfl
  | cons node root next _ ihnext =>
      rw [killWalk] at hwalk
      unfold Nodes.carrier
      by_cases hmark : node.haveKilled = true
      · rw [if_pos hmark] at hwalk ⊢
        obtain ⟨rest, hrest, rfl⟩ := Option.map_eq_some_iff.mp hwalk
        have hkilled := ihnext hrest
        exact hkilled
      · rw [if_neg hmark] at hwalk ⊢
        unfold killAnswer at hwalk
        by_cases hname : node.name = x
        · rw [if_pos (Or.inl hname)]
          rw [if_pos hname] at hwalk
          by_cases hdies : root.dies = true
          · simp only [hdies, if_true, Option.bind_some, Buffer.startsYes_read, Reply.isYes,
              Buffer.read_yesn_fourth, Option.some.injEq] at hwalk
            obtain rfl := hwalk
            rfl
          · simp [hdies] at hwalk
        · rw [if_neg hname] at hwalk
          cases hroot : root.target x with
          | some found =>
              rw [if_pos (Or.inr (Nodes.mem_of_target hroot))]
              obtain ⟨hyes, hblocks⟩ := killRelay_target hroot
              cases hdies : found.2.dies with
              | false => simp [hblocks hdies] at hwalk
              | true =>
                  obtain ⟨root', hrelay, -⟩ := hyes hdies
                  simp only [hrelay, Option.map_some, Option.bind_some, Buffer.startsYes_read,
                    Reply.isYes, if_true, Option.some.injEq] at hwalk
                  obtain rfl := hwalk
                  dsimp only
                  split <;> rfl
          | none =>
              have hnot := Nodes.target_eq_none_iff.mp hroot
              rw [if_neg (by simp [hname, hnot])]
              simp only [killRelay_none hroot, Option.map_some, Option.bind_some,
                Buffer.startsYes_read, Reply.isYes, Bool.false_eq_true, if_false] at hwalk
              obtain ⟨rest, hrest, rfl⟩ := Option.map_eq_some_iff.mp hwalk
              have hkilled := ihnext hrest
              exact hkilled

section Counters

variable {settle : Buffer → Buffer} {accepts : Buffer → Bool}

/-- The counters in the nodes of a list. -/
def Nodes.nums (l : Nodes) : List Int := l.entries.map fun entry => entry.1.childNum

theorem Nodes.nums_cons (node : Node) (root next : Nodes) :
    (Nodes.cons node root next).nums = node.childNum :: next.nums :=
  rfl

/-- No walk changes the counter of a node, and none adds or removes a child of the Manager. -/
theorem nums_walk (buf : Buffer) (l : Nodes) :
    (b.walk settle accepts buf l).root.nums = l.nums := by
  induction l generalizing buf with
  | nil => rfl
  | cons node root next _ ihnext =>
      rw [Branch.walk]
      split
      · simp [Nodes.nums_cons, ihnext]
      · dsimp only
        split <;> simp [Nodes.nums_cons, ihnext]

theorem childNum_killAnswer {node node' : Node} {root root' : Nodes} {reply : Reply}
    {relayed : Option (Reply × Nodes)}
    (hanswer : killAnswer x node root relayed = some (reply, node', root')) :
    node'.childNum = node.childNum := by
  unfold killAnswer at hanswer
  split at hanswer
  · split at hanswer
    · obtain ⟨-, rfl, -⟩ : Reply.yesn = reply ∧ { node with exited := true } = node' ∧
          root.bury = root' := by simpa using hanswer
      rfl
    · cases hanswer
  · obtain ⟨⟨reply', root''⟩, -, heq⟩ := Option.map_eq_some_iff.mp hanswer
    obtain ⟨-, rfl, -⟩ : reply' = reply ∧ node = node' ∧ root'' = root' := by simpa using heq
    rfl

theorem nums_killWalk (hwalk : killWalk x buf l = some walk) : walk.root.nums = l.nums := by
  induction l generalizing buf walk with
  | nil =>
      obtain rfl := Option.some.inj hwalk
      rfl
  | cons node root next _ ihnext =>
      rw [killWalk] at hwalk
      split at hwalk
      · obtain ⟨rest, hrest, rfl⟩ := Option.map_eq_some_iff.mp hwalk
        simp [Nodes.nums_cons, ihnext hrest]
      · obtain ⟨⟨reply, node', root'⟩, hanswer, hwalk⟩ := Option.bind_eq_some_iff.mp hwalk
        have hnum := childNum_killAnswer hanswer
        dsimp only at hwalk
        split at hwalk
        · obtain rfl := Option.some.inj hwalk
          rw [Nodes.nums_cons, Nodes.nums_cons, ← hnum]
          split <;> rfl
        · obtain ⟨rest, hrest, rfl⟩ := Option.map_eq_some_iff.mp hwalk
          simp [Nodes.nums_cons, ihnext hrest, hnum]

end Counters

namespace Manager

/-- What a command does to the counters: only a `spawn` of the Manager itself adds one, which
holds what was in the memory, and counts its own up. -/
theorem nums_step {action : Command × Buffers} (hstep : commands.step m action = some m') :
    m'.root.nums = m.root.nums ∧ m'.childNum = m.childNum ∨
      ∃ child garbage, action.1 = .spawn .manager child garbage ∧
        m'.root.nums = m.root.nums ++ [garbage] ∧ m'.childNum = m.childNum + 1 := by
  obtain ⟨command, bufs⟩ := action
  cases command with
  | spawn parent child garbage =>
      obtain rfl := Option.some.inj hstep
      cases parent with
      | manager =>
          refine Or.inr ⟨child, garbage, rfl, ?_, rfl⟩
          simp [spawn, print, load, Nodes.nums, Nodes.entries_createService]
      | service p =>
          left
          unfold spawn
          rw [if_neg (by simp)]
          dsimp only
          split <;> exact ⟨nums_walk (bufs .spawn) m.root, rfl⟩
  | kill target =>
      have hroot := root_find (m.load bufs) target
      have hkill : (m.load bufs).kill target = some m' := hstep
      unfold kill at hkill
      simp only [print, hroot] at hkill
      left
      split at hkill
      · obtain ⟨walk, hwalk, rfl⟩ := Option.map_eq_some_iff.mp hkill
        exact ⟨nums_killWalk hwalk, rfl⟩
      · obtain rfl := Option.some.inj hkill
        exact ⟨rfl, rfl⟩
  | exchange one other =>
      obtain rfl := Option.some.inj hstep
      exact Or.inl ⟨nums_walk (bufs .exchange) m.root, rfl⟩

/-- `child_num` of the Manager is the number of its children, killed or not. -/
theorem childNum_eq_length (hreach : commands.Reachable m) :
    m.childNum = m.root.entries.length := by
  have hnums : m.childNum = m.root.nums.length := by
    refine hreach.invariant (P := fun m => m.childNum = m.root.nums.length) ?_ ?_
    · rintro m ⟨hroot, hnum, -⟩
      rw [hroot, hnum]
      rfl
    · intro m action m' hnum hstep
      rcases nums_step hstep with ⟨hnums, hcount⟩ | ⟨child, garbage, -, hnums, hcount⟩
      · rw [hnums, hcount, hnum]
      · rw [hnums, hcount, hnum, List.length_append]
        rfl
  rw [hnums, Nodes.nums, List.length_map]

/-- What is printed for a service that is in reach and can wait for its children. -/
theorem printed_target (hfound : m.root.target x = some (d, t)) :
    m.printed x = if t.dies then (m.root.carrier x).map Node.childNum else none := by
  have hroot := root_find m x
  have hfind := found_find (x := x) m.findBuf m.root
  rw [hfound, Option.isSome_some] at hfind
  obtain ⟨hdies, hblocks⟩ := killWalk_target hfound m.killBuf
  unfold printed kill
  simp only [print, hroot, hfind, if_true]
  by_cases ht : t.dies = true
  · obtain ⟨walk, hwalk, -⟩ := hdies ht
    obtain ⟨node, hnode⟩ := Nodes.carrier_isSome (Nodes.mem_of_target hfound)
    have hkilled := killed_killWalk hwalk
    rw [hnode, Option.map_some] at hkilled
    simp only [hwalk, hkilled, hnode, ht, Option.map_some, Option.bind_some, Option.toList_some,
      List.map_cons, List.map_nil, List.getLast?_concat, if_true]
  · simp [hblocks (by simpa using ht), ht]

theorem printed_none (hnone : m.root.target x = none) : m.printed x = none := by
  obtain ⟨m', hkill, -, hlast⟩ := kill_none hnone
  simp [printed, hkill, hlast]

theorem report_target (hfound : m.root.target x = some (d, t)) (bufs : Buffers) :
    m.report bufs (.service x) =
      if t.dies then (m.root.carrier x).map Node.childNum else none :=
  printed_target (m := m.load bufs) hfound

theorem report_none (hnone : m.root.target x = none) (bufs : Buffers) :
    m.report bufs (.service x) = none :=
  printed_none (m := m.load bufs) hnone

/-- In every run a `kill` reports the services below exactly if the counter that it prints
happens to be their number. -/
theorem reportsBelow_iff (hreach : commands.Reachable m) (target : Party) :
    m.ReportsBelow target ↔ m.CountsBelow target := by
  cases target with
  | manager =>
      have hnum := childNum_eq_length hreach
      have halive := m.root.alive_add_gone
      unfold ReportsBelow CountsBelow report below
      cases hwaits : m.root.waits m.root.gone with
      | false => simp
      | true =>
          simp only [if_true, Option.some.injEq, forall_eq', forall_const]
          omega
  | service x =>
      unfold ReportsBelow CountsBelow
      cases hfound : m.root.target x with
      | none => simp [report_none hfound, hfound]
      | some found =>
          obtain ⟨d, t⟩ := found
          obtain ⟨node, hnode⟩ := Nodes.carrier_isSome (Nodes.mem_of_target hfound)
          simp only [report_target hfound]
          by_cases ht : t.dies = true <;> simp [below, hfound, hnode, ht]

/-- Memory for a node comes as zeros. -/
def ZeroedMemory (_ : Manager) : Command × Buffers → Prop
  | (.spawn _ _ garbage, _) => garbage = 0
  | _ => True

/-- With zeroed memory a report is right only if nobody is alive below. -/
theorem reportsBelow_iff_of_zeroed (hreach : commands.ReachableBy ZeroedMemory m)
    (hfound : m.root.target x = some (d, t)) :
    m.ReportsBelow (.service x) ↔ (t.dies = true → t.alive = 0) := by
  have hzero : ∀ num ∈ m.root.nums, num = 0 := by
    refine hreach.invariant (P := fun m => ∀ num ∈ m.root.nums, num = 0) ?_ ?_
    · rintro m ⟨hroot, -⟩ num hnum
      simp [hroot, Nodes.nums, Nodes.entries] at hnum
    · rintro m ⟨command, bufs⟩ m' hzero hok hstep num hnum
      rcases nums_step hstep with ⟨hnums, -⟩ | ⟨child, garbage, hspawn, hnums, -⟩
      · exact hzero num (hnums ▸ hnum)
      · rw [hnums, List.mem_append, List.mem_singleton] at hnum
        rcases hnum with h | h
        · exact hzero num h
        · obtain rfl : command = .spawn .manager child garbage := hspawn
          exact h.trans hok
  obtain ⟨node, hnode⟩ := Nodes.carrier_isSome (Nodes.mem_of_target hfound)
  have hnum := hzero node.childNum (Nodes.childNum_mem_of_carrier hnode)
  unfold ReportsBelow
  simp only [report_target hfound]
  by_cases ht : t.dies = true
  · simp [below, hfound, hnode, ht, hnum]
    omega
  · simp [ht]

/-- `A` with two services below it, `B` and below that `X`. -/
def threeServices : Manager :=
  (chainOfTwo.load fun _ => zeroed).spawn (.service nameB) nameX 0

theorem reachable_threeServices : commands.Reachable threeServices := by
  have hstart : commands.start fresh := ⟨rfl, rfl, rfl⟩
  exact TransitionSystem.Reachable.run (.start hstart) chainOfThree rfl

theorem reportsBelow_iff_threeServices :
    threeServices.ReportsBelow (.service nameX) ↔ threeServices.CountsBelow (.service nameX) :=
  reportsBelow_iff reachable_threeServices (.service nameX)

/-- With memory that `malloc` returns as zeros, `kill A` reports no services below `A`, and
`kill Manager` reports one; there are two and three. -/
theorem not_reportsBelow_threeServices :
    commands.run fresh chainOfThree = some threeServices ∧
      ¬ threeServices.ReportsBelow (.service nameA) ∧ ¬ threeServices.ReportsBelow .manager := by
  refine ⟨rfl, ?_, ?_⟩
  · intro hreports
    exact absurd (hreports (fun _ => zeroed) 0 (by decide)) (by decide)
  · intro hreports
    exact absurd (hreports (fun _ => zeroed) 1 (by decide)) (by decide)

end Manager

end Services

end SystemsProgramming
