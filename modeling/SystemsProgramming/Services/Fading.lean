/-
The services below one that ends itself.  By the tree that they were, each of them has its
"dead" to read, is on its way out or is gone, and when all are gone the tree is buried.
-/
import SystemsProgramming.Services.Resting

namespace SystemsProgramming

namespace Services

variable {s s' : State} {turn : Turn} {p c : Nat} {cs tmp : List Nat} {l : Nodes}
  {ending : Ending}

namespace State

/-- The process is the service of the node, which was alive and not marked. -/
structure WasNode (s : State) (c : Nat) (node : Node) : Prop where
  name : node.name.chars = (s.procs c).name
  unmarked : node.haveKilled = false
  still : (s.links c).haveKilled = false
  alive : node.exited = false

/-- The processes of a list and below it while the parent writes "dead", by the nodes that they
were before. -/
inductive Fades (s : State) : List Nat → Nodes → Prop
  | nil : Fades s [] .nil
  | marked {c : Nat} {next : List Nat} {node : Node} {root rest : Nodes}
      (hmark : node.haveKilled = true) (hnode : s.IsNode c node) (hstill : s.Still c)
      (hroot : s.Stands (s.procs c).children root) (hnext : Fades s next rest) :
      Fades s (c :: next) (.cons node root rest)
  | alive {c : Nat} {next : List Nat} {node : Node} {root rest : Nodes}
      (hnode : s.WasNode c node) (hrests : (s.procs c).control.Rests)
      (hroot : s.Stands (s.procs c).children root) (hnext : Fades s next rest) :
      Fades s (c :: next) (.cons node root rest)
  | parting {c : Nat} {next tmp : List Nat} {node : Node} {root rest : Nodes}
      (hnode : s.WasNode c node) (hparting : Ends .dead tmp (s.procs c).control)
      (hroot : Fades s (s.procs c).children root) (hnext : Fades s next rest) :
      Fades s (c :: next) (.cons node root rest)
  | gone {c : Nat} {next : List Nat} {node : Node} {root rest : Nodes}
      (hnode : s.WasNode c node) (hgone : (s.procs c).control = .exited)
      (hdies : root.dies = true) (hroot : s.Stands (s.procs c).children root.bury)
      (hnext : Fades s next rest) : Fades s (c :: next) (.cons node root rest)

theorem WasNode.congr {node : Node} (hnode : s.WasNode c node)
    (hname : (s'.procs c).name = (s.procs c).name)
    (hmark : (s'.links c).haveKilled = (s.links c).haveKilled) : s'.WasNode c node where
  name := by rw [hname, hnode.name]
  unmarked := hnode.unmarked
  still := by rw [hmark, hnode.still]
  alive := hnode.alive

/-- Where the list begins to fade, those that are not marked are at a `read`. -/
theorem Stands.fades (hstands : s.Stands cs l)
    (hrests : ∀ c ∈ cs, (s.links c).haveKilled = false → (s.procs c).control.Rests) :
    s.Fades cs l := by
  induction hstands with
  | nil => exact .nil
  | @cons c next node root rest hnode hstill hroot _ _ ihnext =>
      have hlater := ihnext fun d hd => hrests d (List.mem_cons_of_mem c hd)
      cases hmark : node.haveKilled with
      | true => exact .marked hmark hnode hstill hroot hlater
      | false =>
          have hunmarked : (s.links c).haveKilled = false := by rw [← hnode.haveKilled, hmark]
          have hrest := hrests c List.mem_cons_self hunmarked
          exact .alive ⟨hnode.name, hmark, hunmarked, hnode.alive hrest.not_gone⟩ hrest hroot
            hlater

/-- When all have exited, nobody was waited for in vain, and the tree is buried. -/
theorem Fades.finish (hfades : s.Fades cs l) (hexited : ∀ c ∈ cs, (s.procs c).control = .exited) :
    l.dies = true ∧ s.Stands cs l.bury := by
  induction hfades with
  | nil => exact ⟨rfl, .nil⟩
  | @marked c next node root rest hmark hnode hstill hroot _ ihnext =>
      obtain ⟨hdies, hstands⟩ := ihnext fun d hd => hexited d (List.mem_cons_of_mem c hd)
      have hgone : (s.procs c).control.Gone := by
        rw [hexited c List.mem_cons_self]
        trivial
      have hself := hnode.exited.mpr hgone
      unfold Nodes.dies Nodes.bury
      rw [if_pos hmark, if_pos hmark]
      exact ⟨by rw [hself, hdies]; rfl, .cons hnode hstill hroot hstands⟩
  | @alive c next node root rest _ hrests _ _ _ =>
      exact absurd (hexited c List.mem_cons_self) hrests.not_exited
  | @parting c next tmp node root rest _ hparting _ _ _ _ =>
      have hself := hexited c List.mem_cons_self
      rcases hparting with hk | hk <;>
        · rw [hself] at hk
          cases hk
  | @gone c next node root rest hnode hgone hdies hroot _ ihnext =>
      obtain ⟨hlater, hstands⟩ := ihnext fun d hd => hexited d (List.mem_cons_of_mem c hd)
      have hnot : ¬ node.haveKilled = true := by simp [hnode.unmarked]
      unfold Nodes.dies Nodes.bury
      rw [if_neg hnot, if_neg hnot]
      have hgone' : (s.procs c).control.Gone := by
        rw [hgone]
        trivial
      refine ⟨by rw [hdies, hlater]; rfl,
        .cons ⟨hnode.name, ?_, ?_⟩ (.inr (.inr hgone')) hroot hstands⟩
      · change node.haveKilled = (s.links c).haveKilled
        rw [hnode.unmarked, hnode.still]
      · simp [hgone]

end State

/-! What the turns of a process that writes "dead" change. -/

/-- The places of a process that has written "dead" to the last child. -/
theorem Ends.not_rests {k : Control} (hk : Ends ending tmp k) : ¬ k.Rests := by
  rcases hk with rfl | rfl <;> exact id

/-- It marks no child, and it writes to no marked one. -/
theorem Ends.keeps (h : Inv s) (hmove : Move s turn s')
    (hk : Ends ending tmp (s.procs turn.pid).control) (hc : c ∈ (s.procs turn.pid).children) :
    (s'.links c).haveKilled = (s.links c).haveKilled ∧
      ((s.links c).haveKilled = true → (s'.links c).cmd = (s.links c).cmd) := by
  have hp := h.lt_count hmove.not_exited
  obtain ⟨-, -, -, hcp, hedge⟩ := h.child hp hc
  have hnot : ∀ {k}, (s.procs turn.pid).control = k → ¬ Ends ending tmp k → False :=
    fun hcontrol hnot => hnot (hcontrol ▸ hk)
  cases hmove with
  | @tell _ _ d' _ _ _ hholder =>
      by_cases hcd : c = d'
      · subst hcd
        have hmem := h.mem_of_pending ‹_› (by simp) List.mem_cons_self
        have hopen := (holder_mem hmem hholder).2
        rw [State.links_setProc, State.links_setLink_self]
        refine ⟨rfl, ?_⟩
        intro hmark
        rw [hedge.closed_of_marked hmark] at hopen
        cases hopen
      · rw [State.links_setProc, State.links_setLink_of_ne hcd]
        exact ⟨rfl, fun _ => rfl⟩
  | reap =>
      by_cases hcz : c = turn.zombie
      · rw [State.links_setProc, hcz, State.links_setLink_self]
        exact ⟨rfl, fun _ => rfl⟩
      · rw [State.links_setProc, State.links_setLink_of_ne hcz]
        exact ⟨rfl, fun _ => rfl⟩
  | dyingEnd | dyingSkip | tellNobody | waitNobody => exact ⟨rfl, fun _ => rfl⟩
  | command hp hcontrol =>
      rw [hp] at hnot
      exact (hnot hcontrol (by rintro (h | h) <;> cases h)).elim
  | greet hcontrol | receive _ hcontrol | fork hcontrol | greeting hcontrol | walkEnd hcontrol
  | walkSkip hcontrol | walkSend hcontrol | hear hcontrol | answer hcontrol | exit hcontrol =>
      exact (hnot hcontrol (by rintro (h | h) <;> cases h)).elim

/-- No turn marks a child of such a process. -/
theorem Ends.keeps_mark (h : Inv s) (hmove : Move s turn s') (hp : p < s.count)
    (hk : Ends ending tmp (s.procs p).control) (hc : c ∈ (s.procs p).children) :
    (s'.links c).haveKilled = (s.links c).haveKilled := by
  obtain ⟨-, hlt, hparent, -, -⟩ := h.child hp hc
  by_cases hturn : turn.pid = p
  · subst hturn
    exact (hk.keeps h hmove hc).1
  · exact ((hmove.frame h).links c hlt (by rw [hparent]; exact Ne.symm hturn)).haveKilled

/-- It goes on with its loop, or leaves it. -/
theorem Ends.goes (hmove : Move s turn s') (hk : Ends ending tmp (s.procs turn.pid).control) :
    (s'.procs turn.pid).SameFamily (s.procs turn.pid) ∧
      ((∃ next, Ends ending next (s'.procs turn.pid).control) ∨
        (s.procs turn.pid).control = .dying ending [] ∧
          (s'.procs turn.pid).control = ending.last) := by
  have hnot : ∀ {k}, (s.procs turn.pid).control = k → ¬ Ends ending tmp k → False :=
    fun hcontrol hnot => hnot (hcontrol ▸ hk)
  have hsame := Proc.goto_same (s.procs turn.pid)
  have hmember : ∀ {ending' : Ending} {next : List Nat}, ending' = ending →
      Ends ending next (.dying ending' next) ∧ Ends ending next (.waiting ending' next) := by
    rintro ending' next rfl
    exact ⟨.inl rfl, .inr rfl⟩
  cases hmove with
  | @dyingEnd ending' hcontrol =>
      obtain rfl : ending' = ending := by
        rcases hk with hk | hk <;>
          · rw [hcontrol] at hk
            cases hk <;> rfl
      rw [State.procs_setProc_self]
      exact ⟨hsame _, .inr ⟨hcontrol, rfl⟩⟩
  | @dyingSkip ending' _ next hcontrol | @reap ending' next hcontrol
  | @waitNobody ending' next hcontrol =>
      have heq : ending' = ending := by
        rcases hk with hk | hk <;>
          · rw [hcontrol] at hk
            cases hk <;> rfl
      rw [State.procs_setProc_self]
      exact ⟨hsame _, .inl ⟨next, (hmember heq).1⟩⟩
  | @tell ending' _ _ next hcontrol | @tellNobody ending' _ next hcontrol =>
      have heq : ending' = ending := by
        rcases hk with hk | hk <;>
          · rw [hcontrol] at hk
            cases hk <;> rfl
      rw [State.procs_setProc_self]
      exact ⟨hsame _, .inl ⟨next, (hmember heq).2⟩⟩
  | command hp hcontrol =>
      rw [hp] at hnot
      exact (hnot hcontrol (by rintro (h | h) <;> cases h)).elim
  | greet hcontrol | receive _ hcontrol | fork hcontrol | greeting hcontrol | walkEnd hcontrol
  | walkSkip hcontrol | walkSend hcontrol | hear hcontrol | answer hcontrol | exit hcontrol =>
      exact (hnot hcontrol (by rintro (h | h) <;> cases h)).elim

/-- A service at a `read` whose parent leaves reads its greeting or "dead". -/
theorem Inv.rests_moves (h : Inv s) (hmove : Move s turn s') (hpos : 0 < turn.pid)
    (hleaving : s.stance turn.pid = .leaving) (hrests : (s.procs turn.pid).control.Rests) :
    (s'.procs turn.pid).SameFamily (s.procs turn.pid) ∧
      ((s'.procs turn.pid).control.Rests ∨
        (s.procs turn.pid).control = .loop ∧
          (s'.procs turn.pid).control = .dying .dead (s.procs turn.pid).children) := by
  have hp := h.lt_count hmove.not_exited
  have hnot : ∀ {k}, (s.procs turn.pid).control = k → ¬ k.Rests → False :=
    fun hcontrol hnot => hnot (hcontrol ▸ hrests)
  cases hmove with
  | greet =>
      rw [State.procs_setProc_self]
      exact ⟨Proc.goto_same _ _, .inl trivial⟩
  | receive _ hcontrol hcmd =>
      rw [State.procs_setProc_self]
      refine ⟨Proc.receive_same _ _, .inr ⟨hcontrol, ?_⟩⟩
      have hdead : (s.links turn.pid).cmd = deadText := by
        rcases (h.edge _ hpos hp).commandless hcontrol hcmd with ⟨job, hjob, -⟩ | ⟨-, -, hdead, -⟩
        · rw [hleaving] at hjob
          cases hjob
        · exact hdead
      rw [hdead]
      rfl
  | command hzero => exact absurd hzero (Nat.ne_of_gt hpos)
  | fork hcontrol | greeting hcontrol | walkEnd hcontrol | walkSkip hcontrol
  | walkSend hcontrol | hear hcontrol | answer hcontrol | dyingEnd hcontrol
  | dyingSkip hcontrol | tell hcontrol | tellNobody hcontrol | reap hcontrol
  | waitNobody hcontrol | exit hcontrol => exact (hnot hcontrol id).elim

/-- The children of a service at a `read` are at a `read`, but for marked ones. -/
theorem Inv.rests_below (h : Inv s) (hp : p < s.count) (hrests : (s.procs p).control.Rests)
    (hc : c ∈ (s.procs p).children) (hunmarked : (s.links c).haveKilled = false) :
    (s.procs c).control.Rests := by
  obtain ⟨-, -, -, -, hedge⟩ := h.child hp hc
  rw [hrests.toward] at hedge
  exact (hedge.rests (.inl rfl) (hedge.open_of_unmarked hunmarked)).1

/-- The turns of the services below a process that writes "dead", and its own. -/
theorem State.Fades.move (h : Inv s) (haccounts : Accounts s) (hfates : Services.Fates s)
    (hmove : Move s turn s') (hfades : s.Fades cs l) (hp : p < s.count)
    (hsub : cs ⊆ (s.procs p).children) (hk : Ends ending tmp (s.procs p).control) :
    s'.Fades cs l := by
  have hframe := hmove.frame h
  induction hfades generalizing p ending tmp with
  | nil => exact .nil
  | @marked c next node root rest hmark hnode hstill hroot _ ihnext =>
      have hlater := ihnext hp (List.cons_subset.mp hsub).2 hk
      have hmarked : (s.links c).haveKilled = true := by rw [← hnode.haveKilled, hmark]
      have hone : s.Stands [c] (.cons node root .nil) := .cons hnode hstill hroot .nil
      have hmem := (List.cons_subset.mp hsub).1
      obtain ⟨-, hlt, -, hcp, -⟩ := h.child hp hmem
      have hone' : s'.Stands [c] (.cons node root .nil) := by
        apply hone.move h hmove (h.children_of hp (List.cons_subset.mpr ⟨hmem, List.nil_subset _⟩))
        rintro rfl d hd
        obtain rfl := List.mem_singleton.mp hd
        have hkeeps := hk.keeps h hmove hmem
        have hprocs := hframe.procs d hcp hlt
        exact ⟨hkeeps.1, fun hstill => hstill.congr hprocs (hkeeps.2 hmarked)⟩
      cases hone' with
      | cons hnode' hstill' hroot' _ => exact .marked hmark hnode' hstill' hroot' hlater
  | @alive c next node root rest hnode hrests hroot _ ihnext =>
      have hlater := ihnext hp (List.cons_subset.mp hsub).2 hk
      have hmem := (List.cons_subset.mp hsub).1
      obtain ⟨hpos, hlt, hparent, hcp, -⟩ := h.child hp hmem
      have hchildren := h.children_of hlt (List.Subset.refl (s.procs c).children)
      have hunmarked := hk.keeps_mark h hmove hp hmem
      by_cases hturn : turn.pid = c
      · subst hturn
        have hleaving : s.stance turn.pid = .leaving := by
          rw [State.stance, hparent]
          exact hk.toward _
        obtain ⟨hsame, hgoes⟩ := h.rests_moves hmove hpos hleaving hrests
        have hroot' : s'.Stands (s.procs turn.pid).children root := by
          apply hroot.move_self h hmove (List.Subset.refl _)
          intro d hd
          have hne : d ≠ turn.pid := (h.child hlt hd).2.2.2.1
          cases hmove with
          | greet | receive => exact State.links_setLink_of_ne hne _ _
          | command hzero => exact absurd hzero (Nat.ne_of_gt hpos)
          | fork hcontrol | greeting hcontrol | walkEnd hcontrol | walkSkip hcontrol
          | walkSend hcontrol | hear hcontrol | answer hcontrol | dyingEnd hcontrol
          | dyingSkip hcontrol | tell hcontrol | tellNobody hcontrol | reap hcontrol
          | waitNobody hcontrol | exit hcontrol =>
              rw [hcontrol] at hrests
              exact hrests.elim
        have hnode' := hnode.congr hsame.name hunmarked
        rcases hgoes with hrests' | ⟨hloop, hdying⟩
        · exact .alive hnode' hrests' (by rwa [hsame.children]) hlater
        · refine .parting hnode' (.inl hdying) ?_ hlater
          rw [hsame.children]
          apply hroot'.fades
          intro d hd hfree
          have hlinks := hframe.hold d (hchildren d hd).2.1
          have hne : d ≠ turn.pid := (h.child hlt hd).2.2.2.1
          rw [hframe.procs d hne (hchildren d hd).2.1]
          exact h.rests_below hlt hrests hd (hlinks.unmarked hfree)
      · have hprocs := hframe.procs c (Ne.symm hturn) hlt
        refine .alive (hnode.congr (by rw [hprocs]) hunmarked) (by rwa [hprocs]) ?_ hlater
        rw [hprocs]
        exact hroot.move_other h hmove hlt (List.Subset.refl _) hturn
  | @parting c next tmp' node root rest hnode hparting hroot _ ihroot ihnext =>
      have hlater := ihnext hp (List.cons_subset.mp hsub).2 hk
      have hmem := (List.cons_subset.mp hsub).1
      obtain ⟨hpos, hlt, hparent, hcp, -⟩ := h.child hp hmem
      have hroot' := ihroot hlt (List.Subset.refl _) hparting
      have hunmarked := hk.keeps_mark h hmove hp hmem
      by_cases hturn : turn.pid = c
      · subst hturn
        obtain ⟨hsame, hgoes⟩ := hparting.goes hmove
        have hnode' := hnode.congr hsame.name hunmarked
        rcases hgoes with ⟨next', hparting'⟩ | ⟨hend, hexited⟩
        · exact .parting hnode' hparting' (by rwa [hsame.children]) hlater
        · -- its last `wait` has returned the last of its children
          have hgone : ∀ d ∈ (s.procs turn.pid).children, (s.procs d).control = .exited := by
            intro d hd
            obtain ⟨hdpos, hdlt, -⟩ := h.family _ hlt d hd
            apply (hfates d hdpos hdlt).reaped
            exact (haccounts _ hlt).last hend d hd (State.Account.due_of_ne (Nat.ne_of_gt hpos) _)
          obtain ⟨hdies, hburied⟩ := hroot.finish hgone
          refine .gone hnode' hexited hdies ?_ hlater
          rw [hsame.children]
          apply hburied.move_self h hmove (List.Subset.refl _)
          intro d _
          cases hmove with
          | dyingEnd => rfl
          | command hzero => exact absurd hzero (Nat.ne_of_gt hpos)
          | greet hcontrol | receive _ hcontrol | fork hcontrol | greeting hcontrol
          | walkEnd hcontrol | walkSkip hcontrol | walkSend hcontrol | hear hcontrol
          | answer hcontrol | dyingSkip hcontrol | tell hcontrol | tellNobody hcontrol
          | reap hcontrol | waitNobody hcontrol | exit hcontrol =>
              rw [hend] at hcontrol
              cases hcontrol
      · have hprocs := hframe.procs c (Ne.symm hturn) hlt
        refine .parting (hnode.congr (by rw [hprocs]) hunmarked) (by rwa [hprocs]) ?_ hlater
        rwa [hprocs]
  | @gone c next node root rest hnode hgone hdies hroot _ ihnext =>
      have hlater := ihnext hp (List.cons_subset.mp hsub).2 hk
      have hmem := (List.cons_subset.mp hsub).1
      obtain ⟨hpos, hlt, hparent, hcp, -⟩ := h.child hp hmem
      have hturn : turn.pid ≠ c := by
        rintro rfl
        exact hmove.not_exited hgone
      have hunmarked := hk.keeps_mark h hmove hp hmem
      have hprocs := hframe.procs c (Ne.symm hturn) hlt
      refine .gone (hnode.congr (by rw [hprocs]) hunmarked) (by rwa [hprocs]) hdies ?_ hlater
      rw [hprocs]
      exact hroot.move_other h hmove hlt (List.Subset.refl _) hturn

end Services

end SystemsProgramming
