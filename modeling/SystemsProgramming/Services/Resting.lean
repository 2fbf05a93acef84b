/-
The processes as the tree that `Services.Model` keeps of them.  Processes that stand as a
tree says can only read a greeting, so that the turns of others leave the tree as it is.
-/
import SystemsProgramming.Services.Instructions
import SystemsProgramming.Services.Messages
import SystemsProgramming.Services.Standing

namespace SystemsProgramming

namespace Services

variable {s s' : State} {turn : Turn} {p c : Nat} {cs done tmp : List Nat} {l l' : Nodes}

namespace State

@[simp] theorem procs_setProc_self (s : State) (p : Nat) (P : Proc) : (s.setProc p P).procs p = P :=
  Function.update_self _ _ _

@[simp] theorem links_setProc (s : State) (p : Nat) (P : Proc) : (s.setProc p P).links = s.links :=
  rfl

theorem procs_setProc_of_ne (hne : c ≠ p) (s : State) (P : Proc) :
    (s.setProc p P).procs c = s.procs c := Function.update_of_ne hne _ _

/-- The process is the service of the node. -/
structure IsNode (s : State) (c : Nat) (node : Node) : Prop where
  name : node.name.chars = (s.procs c).name
  haveKilled : node.haveKilled = (s.links c).haveKilled
  exited : node.exited = true ↔ (s.procs c).control.Gone

/-- A service without a command: it has left its loop, or it is at a `read` that at most a
greeting ends. -/
def Still (s : State) (c : Nat) : Prop :=
  (s.procs c).control = .greet ∨ (s.procs c).control = .loop ∧ (s.links c).cmd = [] ∨
    (s.procs c).control.Gone

/-- The processes of a list and below it are as the nodes say, and none has a command. -/
inductive Stands (s : State) : List Nat → Nodes → Prop
  | nil : Stands s [] .nil
  | cons {c : Nat} {next : List Nat} {node : Node} {root rest : Nodes} (hnode : s.IsNode c node)
      (hstill : s.Still c) (hroot : Stands s (s.procs c).children root)
      (hnext : Stands s next rest) : Stands s (c :: next) (.cons node root rest)

/-- What is left of a list, and what has been passed. -/
theorem Stands.append (hdone : s.Stands done l) (htmp : s.Stands tmp l') :
    s.Stands (done ++ tmp) (l.append l') := by
  induction hdone with
  | nil => exact htmp
  | cons hnode hstill hroot _ _ ih => exact .cons hnode hstill hroot ih

theorem IsNode.congr {node : Node} (hnode : s.IsNode c node)
    (hname : (s'.procs c).name = (s.procs c).name)
    (hgone : (s'.procs c).control.Gone ↔ (s.procs c).control.Gone)
    (hmark : (s'.links c).haveKilled = (s.links c).haveKilled) : s'.IsNode c node where
  name := by rw [hname, hnode.name]
  haveKilled := by rw [hmark, hnode.haveKilled]
  exited := by rw [hgone, hnode.exited]

/-- A living process is not `exited` in the tree. -/
theorem IsNode.alive {node : Node} (hnode : s.IsNode c node)
    (halive : ¬ (s.procs c).control.Gone) : node.exited = false := by
  cases hexited : node.exited with
  | false => rfl
  | true => exact absurd (hnode.exited.mp hexited) halive

end State

/-- A turn changes links of the process and of its children only. -/
theorem Move.link_eq (h : Inv s) (hmove : Move s turn s') (hc : c < s.count) (hne : c ≠ turn.pid)
    (hparent : (s.procs c).parent ≠ turn.pid) : s'.links c = s.links c := by
  have hp : turn.pid < s.count := h.lt_count hmove.not_exited
  have hother : ∀ {d : Nat} {k : Control}, (s.procs turn.pid).control = k → k ≠ .exited →
      d ∈ k.pending → c ≠ d := by
    rintro d k hcontrol hbusy hd rfl
    exact hparent (h.child hp (h.mem_of_pending hcontrol hbusy hd)).2.2.1
  cases hmove with
  | greet | receive | answer => exact State.links_setLink_of_ne hne _ _
  | command | walkEnd | walkSkip | dyingEnd | dyingSkip | tellNobody | waitNobody | exit => rfl
  | fork => exact s.links_fork_of_ne _ _ (Nat.ne_of_lt hc)
  | greeting hcontrol =>
      exact State.links_setLink_of_ne (hother hcontrol (by simp) (List.mem_singleton_self _)) _ _
  | walkSend hcontrol _ | hear hcontrol _ =>
      exact State.links_setLink_of_ne (hother hcontrol (by simp) List.mem_cons_self) _ _
  | tell hcontrol _ hholder =>
      apply State.links_setLink_of_ne
      rintro rfl
      have hmem := h.mem_of_pending hcontrol (by simp) List.mem_cons_self
      exact hparent (h.child hp (holder_mem hmem hholder).1).2.2.1
  | reap _ hchild _ _ =>
      apply State.links_setLink_of_ne
      rintro rfl
      exact hparent (h.child hp hchild).2.2.1

/-- A service without a command reads its greeting or exits, if anything. -/
theorem Move.of_still (hmove : Move s turn s') (hpos : 0 < turn.pid)
    (hstill : s.Still turn.pid) : (s.procs turn.pid).control = .greet ∧
      s' = (s.setLink turn.pid (s.links turn.pid).take).setProc turn.pid
        ((s.procs turn.pid).goto .loop) ∨
      (s.procs turn.pid).control = .returning ∧
        s' = s.setProc turn.pid ((s.procs turn.pid).goto .exited) := by
  rcases hstill with hgreet | ⟨hloop, hcmd⟩ | hgone
  · cases hmove with
    | greet => exact .inl ⟨hgreet, rfl⟩
    | command hp => exact absurd hp (Nat.ne_of_gt hpos)
    | receive _ hcontrol | fork hcontrol | greeting hcontrol | walkEnd hcontrol
    | walkSkip hcontrol | walkSend hcontrol | hear hcontrol | answer hcontrol
    | dyingEnd hcontrol | dyingSkip hcontrol | tell hcontrol | tellNobody hcontrol
    | reap hcontrol | waitNobody hcontrol | exit hcontrol =>
        rw [hgreet] at hcontrol
        cases hcontrol
  · cases hmove with
    | command hp => exact absurd hp (Nat.ne_of_gt hpos)
    | receive _ _ hfull => exact absurd hcmd hfull
    | greet hcontrol | fork hcontrol | greeting hcontrol | walkEnd hcontrol
    | walkSkip hcontrol | walkSend hcontrol | hear hcontrol | answer hcontrol
    | dyingEnd hcontrol | dyingSkip hcontrol | tell hcontrol | tellNobody hcontrol
    | reap hcontrol | waitNobody hcontrol | exit hcontrol =>
        rw [hloop] at hcontrol
        cases hcontrol
  · cases hmove with
    | exit hcontrol => exact .inr ⟨hcontrol, rfl⟩
    | command hp => exact absurd hp (Nat.ne_of_gt hpos)
    | greet hcontrol | receive _ hcontrol | fork hcontrol | greeting hcontrol | walkEnd hcontrol
    | walkSkip hcontrol | walkSend hcontrol | hear hcontrol | answer hcontrol
    | dyingEnd hcontrol | dyingSkip hcontrol | tell hcontrol | tellNobody hcontrol
    | reap hcontrol | waitNobody hcontrol =>
        rw [hcontrol] at hgone
        exact hgone.elim

/-- The children in a part of the list of a process. -/
theorem Inv.children_of (h : Inv s) (hp : p < s.count) (hsub : cs ⊆ (s.procs p).children) :
    ∀ c ∈ cs, 0 < c ∧ c < s.count ∧ (s.procs c).parent = p :=
  fun c hc => h.family p hp c (hsub hc)

theorem State.Still.congr (hstill : s.Still c) (hprocs : s'.procs c = s.procs c)
    (hcmd : (s'.links c).cmd = (s.links c).cmd) : s'.Still c := by
  unfold State.Still
  rw [hprocs, hcmd]
  exact hstill

/-- A turn leaves the processes that stand as they are, where the parent leaves the links of
the list as they are. -/
theorem State.Stands.move (h : Inv s) (hmove : Move s turn s') (hstands : s.Stands cs l)
    (hcs : ∀ c ∈ cs, 0 < c ∧ c < s.count ∧ (s.procs c).parent = p)
    (hlinks : turn.pid = p → ∀ c ∈ cs, (s'.links c).haveKilled = (s.links c).haveKilled ∧
      (s.Still c → s'.Still c)) : s'.Stands cs l := by
  induction hstands generalizing p with
  | nil => exact .nil
  | @cons c next node root rest hnode hstill hroot _ ihroot ihnext =>
      obtain ⟨hpos, hlt, hparent⟩ := hcs c List.mem_cons_self
      have hchildren := h.children_of hlt (List.Subset.refl (s.procs c).children)
      have hlater := ihnext (fun d hd => hcs d (List.mem_cons_of_mem c hd))
        (fun hp d hd => hlinks hp d (List.mem_cons_of_mem c hd))
      by_cases hturn : turn.pid = c
      · subst hturn
        have hbelow : ∀ d ∈ (s.procs turn.pid).children, d ≠ turn.pid :=
          fun d hd => (h.child hlt hd).2.2.2.1
        rcases hmove.of_still hpos hstill with ⟨hgreet, rfl⟩ | ⟨hreturning, rfl⟩
        · refine .cons ?_ ?_ ?_ hlater
          · apply hnode.congr
            · rw [State.procs_setProc_self]
              rfl
            · rw [State.procs_setProc_self, hgreet]
              simp [Proc.goto]
            · rw [State.links_setProc, State.links_setLink_self]
              rfl
          · right
            left
            rw [State.procs_setProc_self, State.links_setProc, State.links_setLink_self]
            exact ⟨rfl, h.take_cmd hpos hlt⟩
          · rw [State.procs_setProc_self]
            apply ihroot hchildren
            intro _ d hd
            have hne := hbelow d hd
            rw [State.links_setProc, State.links_setLink_of_ne hne]
            refine ⟨rfl, fun hstill => hstill.congr (State.procs_setProc_of_ne hne _ _) ?_⟩
            rw [State.links_setProc, State.links_setLink_of_ne hne]
        · refine .cons ?_ ?_ ?_ hlater
          · apply hnode.congr
            · rw [State.procs_setProc_self]
              rfl
            · rw [State.procs_setProc_self, hreturning]
              simp [Proc.goto]
            · rfl
          · right
            right
            rw [State.procs_setProc_self]
            trivial
          · rw [State.procs_setProc_self]
            apply ihroot hchildren
            intro _ d hd
            exact ⟨rfl, fun hstill =>
              hstill.congr (State.procs_setProc_of_ne (hbelow d hd) _ _) rfl⟩
      · have hprocs := (hmove.frame h).procs c (Ne.symm hturn) hlt
        have hlink : (s'.links c).haveKilled = (s.links c).haveKilled ∧
            (s.Still c → s'.Still c) := by
          by_cases hp : turn.pid = p
          · exact hlinks hp c List.mem_cons_self
          · have hsame := hmove.link_eq h hlt (Ne.symm hturn) (by rw [hparent]; exact Ne.symm hp)
            exact ⟨by rw [hsame], fun hstill => hstill.congr hprocs (by rw [hsame])⟩
        refine .cons ?_ (hlink.2 hstill) ?_ hlater
        · exact hnode.congr (by rw [hprocs]) (by rw [hprocs]) hlink.1
        · rw [hprocs]
          exact ihroot hchildren fun hturn' => absurd hturn' hturn

/-- The turns of other processes than the parent. -/
theorem State.Stands.move_other (h : Inv s) (hmove : Move s turn s') (hp : p < s.count)
    (hsub : cs ⊆ (s.procs p).children) (hturn : turn.pid ≠ p) (hstands : s.Stands cs l) :
    s'.Stands cs l :=
  hstands.move h hmove (h.children_of hp hsub) fun heq => absurd heq hturn

/-- The turns of the parent that leave the links of the list alone. -/
theorem State.Stands.move_self (h : Inv s) (hmove : Move s turn s')
    (hsub : cs ⊆ (s.procs turn.pid).children) (hlinks : ∀ c ∈ cs, s'.links c = s.links c)
    (hstands : s.Stands cs l) : s'.Stands cs l := by
  have hp := h.lt_count hmove.not_exited
  apply hstands.move h hmove (h.children_of hp hsub)
  intro _ c hc
  obtain ⟨-, hlt, -, hcp, -⟩ := h.child hp (hsub hc)
  have hprocs := (hmove.frame h).procs c hcp hlt
  exact ⟨by rw [hlinks c hc], fun hstill => hstill.congr hprocs (by rw [hlinks c hc])⟩

/-- No process changes its name. -/
theorem Move.name_eq (h : Inv s) (hmove : Move s turn s') (hc : c < s.count) :
    (s'.procs c).name = (s.procs c).name := by
  by_cases hturn : c = turn.pid
  · subst hturn
    cases hmove with
    | command hzero => simp [hzero, State.setProc, (State.obey_load_same _ _ _).name]
    | fork =>
        rw [s.procs_fork_parent _ _ (Nat.ne_of_lt hc)]
        rfl
    | hear => simp [State.hear, State.judge]
    | receive => simp [Proc.receive]
    | _ => simp [Proc.goto]
  · rw [(hmove.frame h).procs c hturn hc]

end Services

end SystemsProgramming
