/-
Whom a command of the Manager reaches, and in which order: `spawn` and `exchange` walk
the services in preorder until one of them answers.
-/
import SystemsProgramming.Services.Kill

namespace SystemsProgramming

namespace Services

namespace Nodes

/-- The children in a list, each with its own list. -/
def entries : Nodes → List (Node × Nodes)
  | nil => []
  | cons node root next => (node, root) :: next.entries

theorem entries_createService (child : Name) (garbage : Int) (l : Nodes) :
    (l.createService child garbage).entries =
      l.entries ++ [(⟨child, false, garbage, false⟩, nil)] := by
  induction l with
  | nil => rfl
  | cons node root next _ ihnext =>
      rw [createService, entries, entries, ihnext]
      rfl

/-- The lists differ in one place: the first service in reach with the name `p` has `child`
behind its other children. -/
inductive Spawned (p child : Name) (garbage : Int) : Nodes → Nodes → Prop
  | here {node : Node} {root root' next : Nodes} (hmark : node.haveKilled = false)
      (hname : node.name = p)
      (hlast : root'.entries = root.entries ++ [(⟨child, false, garbage, false⟩, nil)]) :
      Spawned p child garbage (cons node root next) (cons node root' next)
  | inside {node : Node} {root root' next : Nodes} (hmark : node.haveKilled = false)
      (hname : node.name ≠ p) (hroot : Spawned p child garbage root root') :
      Spawned p child garbage (cons node root next) (cons node root' next)
  | beside {node : Node} {root next next' : Nodes} (hmark : node.haveKilled = false)
      (hname : node.name ≠ p) (hroot : p ∉ root.reachable.labels)
      (hnext : Spawned p child garbage next next') :
      Spawned p child garbage (cons node root next) (cons node root next')
  | marked {node : Node} {root next next' : Nodes} (hmark : node.haveKilled = true)
      (hnext : Spawned p child garbage next next') :
      Spawned p child garbage (cons node root next) (cons node root next')

end Nodes

variable {p child : Name} {garbage : Int} {l : Nodes} {b : Branch}

namespace Branch

/-- Where nobody is looked for, nothing changes. -/
theorem root_relay_of_not_any (hnone : l.reachable.labels.any b.here = false) :
    (b.relay l).root = l := by
  induction l with
  | nil => rfl
  | cons node root next ihroot ihnext =>
      rw [relay]
      by_cases hmark : node.haveKilled = true
      · rw [Nodes.reachable_marked hmark] at hnone
        simp [hmark, ihnext hnone]
      · rw [Nodes.reachable_unmarked hmark, Forest.labels, List.any_cons, List.any_append,
          Bool.or_eq_false_iff, Bool.or_eq_false_iff] at hnone
        obtain ⟨hhere, hroot, hnext⟩ := hnone
        have hyes : (b.answer node.name root (b.relay root)).reply.isYes = false := by
          rw [isYes_answer, hhere, hroot]
          rfl
        rw [if_neg hmark]
        dsimp only
        rw [hyes]
        simp [answer, hhere, ihroot hroot, ihnext hnext]

end Branch

theorem relay_spawned (child : Name) (garbage : Int) (hmem : p ∈ l.reachable.labels) :
    Nodes.Spawned p child garbage l ((spawnBranch (.service p) child garbage).relay l).root := by
  induction l with
  | nil => simp [Nodes.reachable, Forest.labels] at hmem
  | cons node root next ihroot ihnext =>
      rw [Branch.relay]
      by_cases hmark : node.haveKilled = true
      · rw [Nodes.reachable_marked hmark] at hmem
        rw [if_pos hmark]
        exact .marked hmark (ihnext hmem)
      · rw [Nodes.reachable_unmarked hmark, Forest.mem_labels_cons] at hmem
        have hunmarked : node.haveKilled = false := by simpa using hmark
        rw [if_neg hmark]
        dsimp only
        rw [Branch.isYes_answer, any_spawnBranch]
        unfold Branch.answer
        by_cases hname : node.name = p
        · have hhere : (spawnBranch (.service p) child garbage).here node.name = true := by
            simp [spawnBranch, hname]
          rw [hhere, Bool.true_or, if_pos rfl, if_pos rfl]
          exact .here hunmarked hname (Nodes.entries_createService child garbage root)
        · have hhere : (spawnBranch (.service p) child garbage).here node.name = false := by
            simp [spawnBranch, hname]
          rw [hhere, Bool.false_or, if_neg Bool.false_ne_true]
          by_cases hroot : p ∈ root.reachable.labels
          · rw [if_pos (by simpa using hroot)]
            exact .inside hunmarked hname (ihroot hroot)
          · have hnext : p ∈ next.reachable.labels := by
              rcases hmem with h | h | h
              · exact absurd h.symm hname
              · exact absurd h hroot
              · exact h
            have hsame : ((spawnBranch (.service p) child garbage).relay root).root = root := by
              apply Branch.root_relay_of_not_any
              rw [any_spawnBranch, decide_eq_false hroot]
            rw [if_neg (by simpa using hroot)]
            simp only [hsame]
            exact .beside hunmarked hname hroot (ihnext hnext)

/-- The lines of the services that a command has reached. -/
def receivers (message : Message) (names : List Name) : List Line :=
  names.map fun name => .received (.service name) message

namespace Manager

/-- What `spawn` is for: the Manager and then the services in reach are asked in preorder,
up to the first one with the name, which gets the child behind its other children. -/
def Spawns (m : Manager) (parent : Party) (child : Name) (garbage : Int) (m' : Manager) : Prop :=
  match parent with
  | .manager =>
      m'.output = m.output ++ [.received .manager (.spawn parent child)] ∧
        m'.root.entries = m.root.entries ++ [(⟨child, false, garbage, false⟩, .nil)]
  | .service p =>
      m'.output = m.output ++ [.received .manager (.spawn parent child)] ++
          receivers (.spawn parent child)
            (upTo (fun name => name = p) m.root.reachable.labels) ++
          (if p ∈ m.root.reachable.labels then [] else [.notExist parent]) ∧
        if p ∈ m.root.reachable.labels then m.root.Spawned p child garbage m'.root
        else m'.root = m.root

/-- The raw `strcmp` of `spawn` is right as long as the fourth byte is a NUL. -/
theorem judges_spawn : Branch.Judges id Buffer.isYes fun buf => buf fourth = nul where
  accepts_eq buf reply hbuf hreply := by
    cases reply with
    | yes => simp [Buffer.isYes, hbuf, Reply.isYes]
    | not => rfl
    | yesn => exact absurd rfl hreply
  good_read buf reply hbuf hreply := by
    cases reply with
    | yes | not => exact hbuf
    | yesn => exact absurd rfl hreply

theorem here_spawnBranch (p child : Name) (garbage : Int) :
    (spawnBranch (.service p) child garbage).here = fun name => decide (name = p) := by
  funext name
  simp [spawnBranch]

/-- For every tree, whatever is marked in it, a `spawn` is a search in preorder with one
insertion. -/
theorem spawn_spawns (m : Manager) (hbuf : m.spawnBuf fourth = nul) (parent : Party) (child : Name)
    (garbage : Int) : m.Spawns parent child garbage (m.spawn parent child garbage) := by
  cases parent with
  | manager => exact ⟨rfl, Nodes.entries_createService child garbage m.root⟩
  | service p =>
      obtain ⟨hfound, -, hroot, hlines⟩ :=
        Branch.walk_judged (b := spawnBranch (.service p) child garbage) judges_spawn hbuf m.root
      have hreceived : ((spawnBranch (.service p) child garbage).relay m.root).lines =
          receivers (.spawn (.service p) child)
            (upTo (fun name => name = p) m.root.reachable.labels) := by
        rw [Branch.lines_relay, here_spawnBranch]
        rfl
      rw [any_spawnBranch] at hfound
      unfold Spawns spawn
      rw [if_neg (by simp)]
      simp only [print, hfound, hroot, hlines, hreceived]
      by_cases hmem : p ∈ m.root.reachable.labels
      · rw [if_pos (by simpa using hmem), if_pos hmem, if_pos hmem]
        exact ⟨by simp, relay_spawned child garbage hmem⟩
      · rw [if_neg (by simpa using hmem), if_neg hmem, if_neg hmem]
        refine ⟨rfl, Branch.root_relay_of_not_any ?_⟩
        rw [any_spawnBranch, decide_eq_false hmem]

/-- The Manager with `A`, and `B` below it. -/
def chainOfTwo : Manager :=
  (fresh.spawn .manager nameA 0).spawn (.service nameA) nameB 0

theorem spawn_spawns_chainOfTwo :
    chainOfTwo.Spawns (.service nameB) nameX 0 (chainOfTwo.spawn (.service nameB) nameX 0) :=
  spawn_spawns chainOfTwo rfl (.service nameB) nameX 0

end Manager

/-- The services that receive a command which is passed on in preorder until everyone who
is wanted has received it. -/
def untilAll : List Party → List Name → List Name
  | _, [] => []
  | wanted, name :: rest =>
      if wanted = [] then [] else name :: untilAll (wanted.erase (.service name)) rest

/-- Who has received a command, by what has been printed. -/
def receivedBy (message : Message) (lines : List Line) : List Party :=
  lines.filterMap fun line =>
    match line with
    | .received by' message' => if message' = message then some by' else none
    | _ => none

def Party.InReach (labels : List Name) : Party → Prop
  | .manager => True
  | .service name => name ∈ labels

instance decidableInReach (labels : List Name) : (party : Party) → Decidable (party.InReach labels)
  | .manager => inferInstanceAs (Decidable True)
  | .service name => inferInstanceAs (Decidable (name ∈ labels))

/-- What `exchange` is for: it reaches both parties, in preorder and no further, and says
that they have exchanged their secrets only if both are there. -/
def Manager.Exchanges (m : Manager) (one other : Party) (m' : Manager) : Prop :=
  ∃ lines, m'.output = m.output ++ lines ∧
    receivedBy (.exchange one other) lines =
      .manager :: (untilAll ([one, other].erase .manager) m.root.reachable.labels).map .service ∧
    (.exchanged one other ∈ lines →
      one.InReach m.root.reachable.labels ∧ other.InReach m.root.reachable.labels)

/-- The first service of the second name is there, and the first one of the first name comes
before it; with the Manager as the second party, the first service of the first name is the
last of all. -/
def ReachesBoth (labels : List Name) : Party → Party → Prop
  | .manager, .service b => b ∈ labels
  | .service a, .service b => b ∈ labels ∧ labels.idxOf a < labels.idxOf b
  | .service a, .manager => labels.idxOf a + 1 = labels.length
  | .manager, .manager => False

theorem upTo_eq_take (b : Name) (labels : List Name) :
    upTo (fun name => name = b) labels = labels.take (labels.idxOf b + 1) := by
  induction labels with
  | nil => rfl
  | cons name labels ih =>
      by_cases hname : name = b
      · simp [upTo_cons_of_pos, hname]
      · rw [upTo_cons_of_neg (by simpa using hname), List.idxOf_cons_ne _ hname, ih]
        rfl

theorem untilAll_one (a : Name) (labels : List Name) :
    untilAll [.service a] labels = labels.take (labels.idxOf a + 1) := by
  induction labels with
  | nil => rfl
  | cons name labels ih =>
      rw [untilAll, if_neg (by simp)]
      by_cases hname : name = a
      · subst hname
        cases labels <;> simp [untilAll]
      · rw [List.idxOf_cons_ne _ hname, List.take_succ_cons, ← ih,
          List.erase_of_not_mem (by simp [hname])]

theorem untilAll_two {a b : Name} (hne : a ≠ b) (labels : List Name) :
    untilAll [.service a, .service b] labels =
      labels.take (max (labels.idxOf a) (labels.idxOf b) + 1) := by
  induction labels with
  | nil => rfl
  | cons name labels ih =>
      rw [untilAll, if_neg (by simp)]
      by_cases ha : name = a
      · subst ha
        have herase : [Party.service name, .service b].erase (.service name) = [.service b] := by
          simp
        rw [herase, untilAll_one, List.idxOf_cons_self, List.idxOf_cons_ne _ hne]
        simp
      · by_cases hb : name = b
        · subst hb
          have herase : [Party.service a, .service name].erase (.service name) =
              [.service a] := by
            simp [hne]
          rw [herase, untilAll_one, List.idxOf_cons_self, List.idxOf_cons_ne _ (Ne.symm hne)]
          simp
        · have herase : [Party.service a, .service b].erase (.service name) =
              [.service a, .service b] :=
            List.erase_of_not_mem (by simp [ha, hb])
          rw [herase, ih, List.idxOf_cons_ne _ ha, List.idxOf_cons_ne _ hb,
            Nat.succ_max_succ]
          rfl

theorem receivedBy_receivers (message : Message) (names : List Name) :
    receivedBy message (receivers message names) = names.map .service := by
  simp [receivedBy, receivers, List.filterMap_map]

theorem here_exchangeBranch (one : Party) (b : Name) :
    (exchangeBranch one (.service b)).here = fun name => decide (name = b) := by
  funext name
  simp [exchangeBranch]

theorem judges_exchange :
    Branch.Judges Buffer.terminate Buffer.startsYes fun _ => True where
  accepts_eq buf reply _ _ := by cases reply <;> rfl
  good_read _ _ _ _ := trivial

namespace Manager

/-- The services that an `exchange` reaches. -/
def asked (labels : List Name) : Party → List Name
  | .manager => labels
  | .service b => labels.take (labels.idxOf b + 1)

theorem lines_exchange (m : Manager) (one other : Party) :
    (m.exchange one other).output = m.output ++
      (.received .manager (.exchange one other) ::
        (receivers (.exchange one other) (asked m.root.reachable.labels other) ++
          [.exchanged one other])) := by
  have hlines :
      ((exchangeBranch one other).walk Buffer.terminate Buffer.startsYes m.exchangeBuf
        m.root).lines = _ :=
    (Branch.walk_judged judges_exchange trivial m.root).2.2.2
  rw [Branch.lines_relay] at hlines
  have hasked : upTo (exchangeBranch one other).here m.root.reachable.labels =
      asked m.root.reachable.labels other := by
    cases other with
    | manager => exact upTo_of_not_any (by simp [exchangeBranch])
    | service b =>
        rw [here_exchangeBranch]
        exact upTo_eq_take b _
  simp only [exchange, print, hlines, hasked, List.append_assoc, List.singleton_append]
  rfl

/-- The walk of an `exchange` reaches the right services exactly if it ends where the later
of the two parties is. -/
theorem exchanges_iff (m : Manager) (one other : Party) :
    m.Exchanges one other (m.exchange one other) ↔
      asked m.root.reachable.labels other =
          untilAll ([one, other].erase .manager) m.root.reachable.labels ∧
        one.InReach m.root.reachable.labels ∧ other.InReach m.root.reachable.labels := by
  have hinj : Function.Injective Party.service := fun _ _ => Party.service.inj
  have hreceived : receivedBy (.exchange one other)
      (.received .manager (.exchange one other) ::
        (receivers (.exchange one other) (asked m.root.reachable.labels other) ++
          [.exchanged one other])) =
      .manager :: (asked m.root.reachable.labels other).map .service := by
    have hnames := receivedBy_receivers (.exchange one other)
      (asked m.root.reachable.labels other)
    unfold receivedBy at hnames ⊢
    simp [hnames]
  unfold Exchanges
  constructor
  · rintro ⟨lines, houtput, hlines, hprinted⟩
    rw [lines_exchange, List.append_cancel_left_eq] at houtput
    subst houtput
    rw [hreceived, List.cons.injEq] at hlines
    exact ⟨hinj.list_map hlines.2, hprinted (by simp)⟩
  · rintro ⟨hasked, hreach⟩
    exact ⟨_, lines_exchange m one other, by rw [hreceived, hasked], fun _ => hreach⟩

/-- An `exchange` is right exactly if the second party is a service that comes behind the
first, or the Manager while the first party is the last service of all. -/
theorem exchanges_iff_reachesBoth (m : Manager) {one other : Party} (hne : one ≠ other) :
    m.Exchanges one other (m.exchange one other) ↔
      ReachesBoth m.root.reachable.labels one other := by
  rw [exchanges_iff]
  generalize m.root.reachable.labels = labels
  have hmem : ∀ name, name ∈ labels ↔ labels.idxOf name < labels.length :=
    fun name => List.idxOf_lt_length_iff.symm
  cases one with
  | manager =>
      cases other with
      | manager => exact absurd rfl hne
      | service b =>
          have herase : [Party.manager, .service b].erase .manager = [.service b] := by simp
          simp [herase, untilAll_one, asked, Party.InReach, ReachesBoth]
  | service a =>
      cases other with
      | manager =>
          have herase : [Party.service a, .manager].erase .manager = [.service a] := by simp
          rw [herase, untilAll_one]
          simp only [asked, Party.InReach, ReachesBoth, and_true, hmem]
          constructor
          · rintro ⟨htake, ha⟩
            have hlength := congrArg List.length htake
            rw [List.length_take] at hlength
            omega
          · intro hlast
            rw [hlast, List.take_length]
            exact ⟨rfl, by omega⟩
      | service b =>
          have hab : a ≠ b := fun heq => hne (congrArg _ heq)
          have herase : [Party.service a, .service b].erase .manager =
              [.service a, .service b] :=
            List.erase_of_not_mem (by simp)
          rw [herase, untilAll_two hab]
          simp only [asked, Party.InReach, ReachesBoth, hmem]
          constructor
          · rintro ⟨htake, ha, hb⟩
            rw [List.take_eq_take_iff] at htake
            have hdiff : labels.idxOf a ≠ labels.idxOf b :=
              fun heq => hab ((List.idxOf_inj ((hmem a).mpr ha)).mp heq)
            exact ⟨hb, by omega⟩
          · rintro ⟨hb, hlt⟩
            rw [Nat.max_eq_right (Nat.le_of_lt hlt)]
            exact ⟨rfl, by omega, hb⟩

/-- The Manager with two children, `A` and `B`. -/
def twoChildren : Manager := (fresh.spawn .manager nameA 0).spawn .manager nameB 0

theorem exchanges_iff_reachesBoth_twoChildren :
    twoChildren.Exchanges (.service nameA) (.service nameB)
        (twoChildren.exchange (.service nameA) (.service nameB)) ↔
      ReachesBoth twoChildren.root.reachable.labels (.service nameA) (.service nameB) :=
  exchanges_iff_reachesBoth twoChildren (by decide)

/-- `exchange B A` ends at `A`, so `B` never hears of it; and with `X` nowhere in the tree the
secrets are said to be exchanged all the same. -/
theorem not_exchanges_twoChildren :
    ¬ twoChildren.Exchanges (.service nameB) (.service nameA)
        (twoChildren.exchange (.service nameB) (.service nameA)) ∧
      ¬ twoChildren.Exchanges (.service nameA) (.service nameX)
        (twoChildren.exchange (.service nameA) (.service nameX)) := by
  constructor
  · rw [exchanges_iff]
    decide
  · rw [exchanges_iff]
    decide

end Manager

end Services

end SystemsProgramming
