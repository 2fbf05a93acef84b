/-
The loops of `service.c` that look for one service: whom they reach, what they answer,
and what a `spawn` leaves in the tree.
-/
import SystemsProgramming.Services.Model

namespace SystemsProgramming

namespace Services

variable {x p child : Name} {garbage : Int} {d : Nat} {l t : Nodes} {buf : Buffer} {b : Branch}

namespace Nodes

/-- The depth at which the walk for `want` ends, and the list of the service there. -/
def target (want : Name) : Nodes → Option (Nat × Nodes)
  | nil => none
  | cons node root next =>
      if node.haveKilled then next.target want
      else if node.name = want then some (1, root)
      else
        match root.target want with
        | some (d, found) => some (d + 1, found)
        | none => next.target want

theorem depth_reachable (l : Nodes) : l.reachable.depth x = (l.target x).map Prod.fst := by
  induction l with
  | nil => rfl
  | cons node root next ihroot ihnext =>
      unfold target reachable
      by_cases hmark : node.haveKilled
      · rw [if_pos hmark, if_pos hmark, ihnext]
      · rw [if_neg hmark, if_neg hmark]
        unfold Forest.depth
        by_cases hname : node.name = x
        · rw [if_pos hname, if_pos hname]
          rfl
        · rw [if_neg hname, if_neg hname, ihroot]
          cases root.target x with
          | none => simpa using ihnext
          | some found => rfl

theorem target_eq_none_iff : l.target x = none ↔ x ∉ l.reachable.labels := by
  rw [← Forest.depth_eq_none_iff, depth_reachable, Option.map_eq_none_iff]

theorem mem_of_target {found : Nat × Nodes} (hfound : l.target x = some found) :
    x ∈ l.reachable.labels := by
  by_contra hnot
  simp [target_eq_none_iff.mpr hnot] at hfound

theorem tops_createService (l : Nodes) :
    child ∈ (l.createService child garbage).reachable.tops := by
  induction l with
  | nil => simp [createService, reachable, Forest.tops]
  | cons node root next _ ihnext =>
      unfold createService reachable
      by_cases hmark : node.haveKilled
      · rw [if_pos hmark]
        exact ihnext
      · rw [if_neg hmark]
        exact List.mem_cons_of_mem _ ihnext

end Nodes

theorem Reply.eq_not {reply : Reply} (hno : ¬ reply.isYes = true) : reply = .not := by
  cases reply with
  | not => rfl
  | yes | yesn => exact absurd rfl hno

namespace Buffer

@[simp] theorem startsYes_read (buf : Buffer) (reply : Reply) :
    (buf.read reply).startsYes = reply.isYes := by
  cases reply <;> rfl

@[simp] theorem isYes_terminate_read (buf : Buffer) (reply : Reply) :
    (buf.read reply).terminate.isYes = reply.isYes := by
  cases reply <;> rfl

theorem not_isYes_read_not (buf : Buffer) : (buf.read .not).isYes = false := rfl

@[simp] theorem read_yes_fourth (buf : Buffer) : buf.read .yes fourth = buf fourth := rfl

@[simp] theorem read_not_fourth (buf : Buffer) : buf.read .not fourth = buf fourth := rfl

@[simp] theorem read_yesn_fourth (buf : Buffer) : buf.read .yesn fourth = 'n' := rfl

end Buffer

namespace Branch

/-- A loop over the children says "yes" if one of the services in reach is looked for. -/
theorem reply_relay (b : Branch) (l : Nodes) :
    (b.relay l).reply = if l.reachable.labels.any b.here then .yes else .not := by
  induction l with
  | nil => rfl
  | cons node root next ihroot ihnext =>
      unfold relay Nodes.reachable
      by_cases hmark : node.haveKilled
      · rw [if_pos hmark, if_pos hmark]
        exact ihnext
      · rw [if_neg hmark, if_neg hmark]
        unfold answer Forest.labels
        by_cases hhere : b.here node.name
        · simp [hhere, Reply.isYes]
        · by_cases hroot : root.reachable.labels.any b.here
          · simp [hhere, hroot, ihroot, Reply.isYes]
          · simp [hhere, hroot, ihroot, ihnext, Reply.isYes]

/-- The answer of a service, with the services below it taken into account. -/
theorem isYes_answer (b : Branch) (name : Name) (root : Nodes) :
    (b.answer name root (b.relay root)).reply.isYes =
      (b.here name || root.reachable.labels.any b.here) := by
  unfold answer
  by_cases hhere : b.here name
  · simp [hhere, Reply.isYes]
  · by_cases hroot : root.reachable.labels.any b.here <;>
      simp [hhere, hroot, reply_relay, Reply.isYes]

theorem root_relay_of_act (hact : ∀ root, b.act root = root) (l : Nodes) :
    (b.relay l).root = l := by
  induction l with
  | nil => rfl
  | cons node root next ihroot ihnext =>
      have hanswer : (b.answer node.name root (b.relay root)).root = root := by
        unfold answer
        split
        · exact hact root
        · exact ihroot
      unfold relay
      by_cases hmark : node.haveKilled
      · simp [hmark, ihnext]
      · rw [if_neg hmark]
        dsimp only
        split
        · rw [hanswer]
        · rw [hanswer, ihnext]

theorem root_answer_of_act (hact : ∀ root, b.act root = root) (name : Name) (root : Nodes) :
    (b.answer name root (b.relay root)).root = root := by
  unfold answer
  split
  · exact hact root
  · exact root_relay_of_act hact root

variable {settle : Buffer → Buffer} {accepts : Buffer → Bool}

theorem root_walk_of_act (hact : ∀ root, b.act root = root) (buf : Buffer) (l : Nodes) :
    (b.walk settle accepts buf l).root = l := by
  induction l generalizing buf with
  | nil => rfl
  | cons node root next _ ihnext =>
      have hanswer := root_answer_of_act hact node.name root
      unfold walk
      by_cases hmark : node.haveKilled
      · simp [hmark, ihnext]
      · rw [if_neg hmark]
        dsimp only
        split
        · rw [hanswer]
        · rw [hanswer, ihnext]

/-- No service says "yesn" in these branches. -/
theorem reply_answer (b : Branch) (name : Name) (root : Nodes) :
    (b.answer name root (b.relay root)).reply ≠ .yesn := by
  unfold answer
  split
  · simp
  · rw [reply_relay]
    split <;> simp

theorem lines_answer {root : Nodes}
    (hroot : (b.relay root).lines = (upTo b.here root.reachable.labels).map b.line)
    (name : Name) :
    (b.answer name root (b.relay root)).lines =
      (upTo b.here (name :: root.reachable.labels)).map b.line := by
  unfold answer
  by_cases hhere : b.here name
  · rw [if_pos hhere, upTo_cons_of_pos hhere]
    rfl
  · have hnot : b.here name = false := by simpa using hhere
    rw [if_neg hhere, upTo_cons_of_neg hnot, hroot]
    rfl

/-- Everyone is asked in preorder, up to the service that is looked for. -/
theorem lines_relay (b : Branch) (l : Nodes) :
    (b.relay l).lines = (upTo b.here l.reachable.labels).map b.line := by
  induction l with
  | nil => rfl
  | cons node root next ihroot ihnext =>
      rw [relay, Nodes.reachable]
      by_cases hmark : node.haveKilled
      · rw [if_pos hmark, if_pos hmark]
        exact ihnext
      · have hlines := lines_answer ihroot node.name
        rw [if_neg hmark, if_neg hmark, Forest.labels, ← List.cons_append, upTo_append,
          List.any_cons]
        dsimp only
        rw [isYes_answer]
        cases hyes : b.here node.name || root.reachable.labels.any b.here with
        | true => exact hlines
        | false =>
            rw [upTo_of_not_any (by simpa using hyes)] at hlines
            simp [hlines, ihnext]

/-- The test of a loop takes a reply for what it is while the buffer is good, and leaves
it so. -/
structure Judges (settle : Buffer → Buffer) (accepts : Buffer → Bool) (good : Buffer → Prop) :
    Prop where
  accepts_eq : ∀ buf reply, good buf → reply ≠ .yesn →
    accepts (settle (Buffer.read buf reply)) = reply.isYes
  good_read : ∀ buf reply, good buf → reply ≠ .yesn → good (settle (Buffer.read buf reply))

variable {good : Buffer → Prop}

/-- A loop of the Manager does what the loop of a service does if its test is right. -/
theorem walk_judged (hjudge : Judges settle accepts good) (hbuf : good buf) (l : Nodes) :
    (b.walk settle accepts buf l).found = l.reachable.labels.any b.here ∧
      good (b.walk settle accepts buf l).buf ∧
      (b.walk settle accepts buf l).root = (b.relay l).root ∧
      (b.walk settle accepts buf l).lines = (b.relay l).lines := by
  induction l generalizing buf with
  | nil => exact ⟨rfl, hbuf, rfl, rfl⟩
  | cons node root next _ ihnext =>
      rw [walk, relay, Nodes.reachable]
      by_cases hmark : node.haveKilled
      · obtain ⟨hfound, hgood, hroot, hlines⟩ := ihnext hbuf
        simp only [if_pos hmark, hfound, hgood, hroot, hlines, and_self]
      · have hreply := reply_answer b node.name root
        have hbuf' := hjudge.good_read _ _ hbuf hreply
        obtain ⟨hfound, hgood, hroot, hlines⟩ := ihnext hbuf'
        rw [if_neg hmark, if_neg hmark, if_neg hmark]
        dsimp only
        rw [hjudge.accepts_eq _ _ hbuf hreply, isYes_answer]
        simp only [Forest.labels, List.any_cons, List.any_append, ← Bool.or_assoc]
        by_cases hhere : (b.here node.name || root.reachable.labels.any b.here) = true
        · simp only [hhere, if_true, Bool.true_or, hbuf', and_self]
        · simp only [Bool.not_eq_true] at hhere
          simp only [hhere, Bool.false_or, Bool.false_eq_true, if_false, hfound, hgood, hroot,
            hlines, and_self]

/-- A loop of the Manager whose test is the service's answer finds whoever is in reach. -/
theorem found_walk (hjudge : ∀ buf reply, accepts (settle (Buffer.read buf reply)) = reply.isYes)
    (buf : Buffer) (l : Nodes) :
    (b.walk settle accepts buf l).found = l.reachable.labels.any b.here := by
  have hright : Judges settle accepts fun _ => True :=
    ⟨fun buf reply _ _ => hjudge buf reply, fun _ _ _ _ => trivial⟩
  exact (walk_judged hright trivial l).1

end Branch

theorem found_find (buf : Buffer) (l : Nodes) :
    ((findBranch x).walk Buffer.terminate Buffer.isYes buf l).found = (l.target x).isSome := by
  rw [Branch.found_walk Buffer.isYes_terminate_read]
  cases htarget : l.target x with
  | none =>
      have hnot := Nodes.target_eq_none_iff.mp htarget
      simpa [findBranch] using fun name hname (heq : name = x) => hnot (heq ▸ hname)
  | some found =>
      simpa [findBranch] using Nodes.mem_of_target htarget

theorem any_spawnBranch (labels : List Name) :
    labels.any (spawnBranch (.service p) child garbage).here = decide (p ∈ labels) := by
  induction labels with
  | nil => rfl
  | cons name labels ih =>
      rw [List.any_cons, ih]
      simp [spawnBranch, eq_comm]

/-- The service that a `spawn` names has the child afterwards. -/
theorem hasEdge_answer {name : Name}
    (hroot : p ∈ l.reachable.labels →
      ((spawnBranch (.service p) child garbage).relay l).root.reachable.HasEdge p child)
    (hmem : name = p ∨ p ∈ l.reachable.labels) (rest : Forest Name) :
    (Forest.cons name ((spawnBranch (.service p) child garbage).answer name l
      ((spawnBranch (.service p) child garbage).relay l)).root.reachable rest).HasEdge p child := by
  unfold Branch.answer
  by_cases hname : name = p
  · left
    have hhere : (spawnBranch (.service p) child garbage).here name = true := by
      simp [spawnBranch, hname]
    rw [if_pos hhere]
    exact ⟨hname, Nodes.tops_createService l⟩
  · have hhere : ¬ (spawnBranch (.service p) child garbage).here name = true := by
      simp [spawnBranch, hname]
    right
    left
    rw [if_neg hhere]
    exact hroot (hmem.resolve_left hname)

theorem mem_of_isYes_answer (child : Name) (garbage : Int) {name : Name}
    (hyes : ((spawnBranch (.service p) child garbage).answer name l
      ((spawnBranch (.service p) child garbage).relay l)).reply.isYes = true) :
    name = p ∨ p ∈ l.reachable.labels := by
  rw [Branch.isYes_answer, any_spawnBranch] at hyes
  simpa [spawnBranch] using hyes

theorem hasEdge_relay (child : Name) (garbage : Int) (l : Nodes)
    (hmem : p ∈ l.reachable.labels) :
    ((spawnBranch (.service p) child garbage).relay l).root.reachable.HasEdge p child := by
  induction l with
  | nil => simp [Nodes.reachable, Forest.labels] at hmem
  | cons node root next ihroot ihnext =>
      unfold Branch.relay
      unfold Nodes.reachable at hmem
      by_cases hmark : node.haveKilled
      · rw [if_pos hmark] at hmem ⊢
        simp only [Nodes.reachable, hmark, if_true]
        exact ihnext hmem
      · rw [if_neg hmark] at hmem ⊢
        dsimp only
        split
        · rename_i hyes
          simp only [Nodes.reachable, if_neg hmark]
          exact hasEdge_answer ihroot (mem_of_isYes_answer child garbage hyes) _
        · simp only [Nodes.reachable, if_neg hmark]
          rcases Forest.mem_labels_cons.mp hmem with h | h | h
          · exact hasEdge_answer ihroot (.inl h.symm) _
          · exact hasEdge_answer ihroot (.inr h) _
          · exact .inr (.inr (ihnext h))

/-- The Manager may ask on behind the child that said "yes", but the service it named has
been asked. -/
theorem hasEdge_walk (child : Name) (garbage : Int) {settle : Buffer → Buffer}
    {accepts : Buffer → Bool}
    (hnot : ∀ buf, accepts (settle (Buffer.read buf .not)) = false) (buf : Buffer) (l : Nodes)
    (hmem : p ∈ l.reachable.labels) :
    ((spawnBranch (.service p) child garbage).walk settle accepts buf l).root.reachable.HasEdge
      p child := by
  induction l generalizing buf with
  | nil => simp [Nodes.reachable, Forest.labels] at hmem
  | cons node root next _ ihnext =>
      have hroot := hasEdge_relay (p := p) child garbage root
      unfold Branch.walk
      unfold Nodes.reachable at hmem
      by_cases hmark : node.haveKilled
      · rw [if_pos hmark] at hmem ⊢
        simp only [Nodes.reachable, hmark, if_true]
        exact ihnext buf hmem
      · rw [if_neg hmark] at hmem ⊢
        dsimp only
        split
        · rename_i haccepts
          simp only [Nodes.reachable, if_neg hmark]
          apply hasEdge_answer hroot
          apply mem_of_isYes_answer child garbage
          by_contra hno
          rw [Reply.eq_not hno, hnot] at haccepts
          contradiction
        · simp only [Nodes.reachable, if_neg hmark]
          rcases Forest.mem_labels_cons.mp hmem with h | h | h
          · exact hasEdge_answer hroot (.inl h.symm) _
          · exact hasEdge_answer hroot (.inr h) _
          · exact .inr (.inr (ihnext _ h))

namespace Manager

/-- A service in reach accepts a `spawn`. -/
theorem hasEdge_spawn (m : Manager) (hmem : p ∈ m.root.reachable.labels) :
    (m.spawn (.service p) child garbage).root.reachable.HasEdge p child := by
  unfold spawn
  rw [if_neg (by simp)]
  dsimp only
  split <;> exact hasEdge_walk child garbage Buffer.not_isYes_read_not m.spawnBuf m.root hmem

end Manager

end Services

end SystemsProgramming
