/-
Every statement of `my_pool.c` against the pool.  A statement either commits nothing and
leaves the related state of the pool as it is, or it commits one step of the pool.
-/
import SystemsProgramming.ThreadPool.Simulation

namespace SystemsProgramming

namespace ThreadPool

variable {F A : Type} {n k : Nat}

variable {tag : Nat → Option (Task F A)} {addresses : List Nat} {m : Machine F A n k}
  {s t : State F A n k}

namespace Carries

theorem worker_outside (h : Carries tag addresses m s) {t : Thread n k}
    (hin : m.inside t = true) {v : Fin n} (hv : t ≠ .inl v) : (m.workers v).inside = false := by
  by_contra hinside
  exact hv (h.lock.unique hin (by simpa using hinside))

theorem client_outside (h : Carries tag addresses m s) {t : Thread n k}
    (hin : m.inside t = true) {d : Fin k} (hd : t ≠ .inr d) :
    (m.clients d).pc.inside = false := by
  by_contra hinside
  exact hd (h.lock.unique hin (by simpa using hinside))

/-- While a worker has the lock nothing is left to announce. -/
theorem ownerPc_of_worker (h : Carries tag addresses m s) {w : Fin n}
    (hin : (m.workers w).inside = true) : m.ownerPc = .idle := by
  have howns : m.queueLock = some (.inl w) := (h.lock (.inl w)).mp hin
  exact Machine.ownerPc_of_other fun c => by simp [howns]

end Carries

namespace Refines

/-- `pool->task_queue = task->next`. -/
theorem take (h : Refines tag addresses m s) {w : Fin n} {pointer : Option Nat} {p : Nat}
    {node : TpoolTask F A} {rest : List Nat} {task : Task F A} {tasks : List (Task F A)}
    (hpc : m.workers w = .pops pointer) (haddresses : addresses = p :: rest)
    (hnode : m.heap p = some node) (hrest : Chain m.heap TpoolTask.next node.next rest)
    (hqueue : s.taskQueue = task :: tasks) :
    Refines tag rest ({ m with taskQueue := node.next }.setWorker w (.unlocks p))
      ({ s with taskQueue := tasks, removed := s.removed ++ [(w, task)] }.setWorker w
        (.holds task)) := by
  have hin : (m.workers w).inside = true := by rw [hpc]; rfl
  have howner : m.ownerPc = .idle := h.ownerPc_of_worker hin
  have htags : some task = tag p ∧ tasks.map some = rest.map tag := by
    have hqueued := h.queue
    rw [howner, haddresses, hqueue] at hqueued
    simpa [ClientPc.pendingNodes, eq_comm] using hqueued
  have hsame : ∀ v, v ≠ w → ({ m with taskQueue := node.next }.setWorker w
      (.unlocks p)).workers v = m.workers v := fun v hv => by simp [hv]
  refine ⟨?_, ?owned⟩
  constructor
  case created => exact h.created
  case freed => exact h.freed
  case stop => exact h.stop
  case chain => exact hrest
  case queue =>
    have hkept : Machine.ownerPc ({ m with taskQueue := node.next }.setWorker w (.unlocks p)) =
        .idle := howner
    rw [hkept]
    simpa [ClientPc.pendingNodes] using htags.2.symm
  case tagged => exact h.tagged
  case lock =>
    refine h.lock.stay ?_
    rintro (v | c)
    · by_cases hv : v = w
      · simp [hv, hpc, WorkerPc.inside]
      · simp [hv]
    · rfl
  case worker_place =>
    intro v
    by_cases hv : v = w
    · simp [hv, WorkerPc.Matches, htags.1]
    · simpa [hv] using h.worker_place v
  case worker_node =>
    intro v q hq
    by_cases hv : v = w
    · obtain rfl : p = q := by simpa [hv, WorkerPc.node] using hq
      exact ⟨task, htags.1.symm, by simp [hv]⟩
    · obtain ⟨other, hother, hremoved⟩ := h.worker_node v q (by simpa [hv] using hq)
      exact ⟨other, hother, List.mem_append_left _ hremoved⟩
  case worker_knows =>
    intro v
    by_cases hv : v = w
    · simp [hv, WorkerPc.Knows]
    · rw [hsame v hv]
      exact WorkerPc.knows_of_outside
        (h.worker_outside (t := .inl w) hin fun heq => hv (Sum.inl.inj heq).symm) _ _
  case client_place => exact h.client_place
  case client_script => exact h.client_script
  case client_node => exact h.client_node
  case client_knows =>
    exact fun c => ClientPc.knows_of_outside (h.client_outside (t := .inl w) hin (by simp)) _ _
  case owned =>
    intro q hq
    rcases h.owned q hq with hmem | ⟨v, hv⟩ | hclient
    · rw [haddresses, List.mem_cons] at hmem
      rcases hmem with rfl | hmem
      · exact Or.inr (Or.inl ⟨w, by simp [WorkerPc.node]⟩)
      · exact Or.inl hmem
    · have hvw : v ≠ w := by rintro rfl; simp [hpc, WorkerPc.node] at hv
      exact Or.inr (Or.inl ⟨v, by rw [hsame v hvw]; exact hv⟩)
    · exact Or.inr (Or.inr hclient)

/-- `free(task)`. -/
theorem free (h : Refines tag addresses m s) (hbooks : Books s) {w : Fin n} {p : Nat}
    (hpc : m.workers w = .frees p) :
    Refines (Function.update tag p none) addresses ((m.store p none).setWorker w .relocks) s := by
  have hnode : (m.workers w).node = some p := by rw [hpc]; rfl
  have hmoved : Carries tag addresses (m.setWorker w .relocks) s := by
    refine h.toCarries.worker m.queueLock (.refl s) (fun _ _ => rfl) rfl (fun _ => Iff.rfl) ?_ ?_
      (by simp [WorkerPc.node]) trivial
    · refine h.lock.stay ?_
      rintro (v | c)
      · by_cases hv : v = w
        · simp [hv, hpc, WorkerPc.inside]
        · simp [hv]
      · rfl
    · simpa [hpc, WorkerPc.Matches] using h.worker_place w
  constructor
  · have hjob : (none : Option (TpoolTask F A)).map TpoolTask.job =
        (none : Option (Task F A)).map Task.job := rfl
    refine hmoved.store hjob (h.worker_notMem hbooks hnode) ?_
      fun c hc => h.worker_ne_client hbooks hnode hc
    intro v hv
    by_cases hvw : v = w
    · simp [hvw, WorkerPc.node] at hv
    · exact hvw (h.worker_inj hbooks (by simpa [hvw] using hv) hnode)
  · intro q hq
    have hne : q ≠ p := by
      rintro rfl
      simp [Machine.store] at hq
    rcases h.owned q (by simpa [Machine.store, hne] using hq) with hmem | ⟨v, hv⟩ | hclient
    · exact Or.inl hmem
    · have hvw : v ≠ w := by
        rintro rfl
        exact hne (Option.some.inj (hv.symm.trans hnode))
      exact Or.inr (Or.inl ⟨v, by simpa [hvw] using hv⟩)
    · exact Or.inr (Or.inr hclient)

/-- The new node of `tpool_add`, at an address that `malloc` found free. -/
theorem alloc (h : Refines tag addresses m s) {c : Fin k} {p : Nat} {func : F} {arg : A}
    {rest : List (Call F A)} (hpc : (m.clients c).pc = .idle) (hfree : m.heap p = none) :
    Refines (Function.update tag p (some ⟨s.nodes, func, arg⟩)) addresses
      { m.store p (some ⟨func, arg, none⟩) with
        clients := Function.update m.clients c ⟨.addLocks p, rest⟩ }
      ({ s with nodes := s.nodes + 1 }.setClient c ⟨.links ⟨s.nodes, func, arg⟩, rest⟩) := by
  have htag : tag p = none := by
    have := h.tagged p
    rw [hfree] at this
    exact Option.map_eq_none_iff.mp this.symm
  have hstored : Carries (Function.update tag p (some ⟨s.nodes, func, arg⟩)) addresses
      (m.store p (some ⟨func, arg, none⟩)) s := by
    refine h.toCarries.store rfl ?_ ?_ ?_
    · intro hp
      obtain ⟨node, hnode⟩ := h.chain.allocated hp
      simp [hfree] at hnode
    · intro w hw
      obtain ⟨task, htask, -⟩ := h.worker_node w p hw
      simp [htag] at htask
    · intro d hd
      obtain ⟨task, htask, -⟩ := (h.client_place d).links hd
      simp [htag] at htask
  constructor
  · refine hstored.client m.queueLock ⟨rfl, rfl, rfl, rfl, rfl⟩ rfl (fun d hd => by simp [hd])
      (by simp [hpc, ClientPc.settled]) rfl (fun _ _ => Iff.rfl) ?_ (by simp [ClientPc.Matches])
      (by simp) ?_ trivial
    · refine hstored.lock.stay ?_
      rintro (w | d)
      · rfl
      · by_cases hd : d = c
        · simp [hd, hpc, ClientPc.inside]
        · simp [hd]
    · intro q hq
      obtain rfl : p = q := by simpa [ClientPc.node, ClientPc.newTask] using hq
      exact ⟨⟨func, arg, none⟩, by simp [Machine.store], rfl⟩
  · intro q hq
    by_cases hqp : q = p
    · exact Or.inr (Or.inr ⟨c, by simp [hqp, ClientPc.node, ClientPc.newTask]⟩)
    · rcases h.owned q (by simpa [Machine.store, hqp] using hq) with hmem | hworker | ⟨d, hd⟩
      · exact Or.inl hmem
      · exact Or.inr (Or.inl hworker)
      · have hdc : d ≠ c := by
          rintro rfl
          simp [hpc, ClientPc.node, ClientPc.newTask] at hd
        exact Or.inr (Or.inr ⟨d, by simpa [hdc] using hd⟩)

end Refines

theorem WorkerPc.inside_wake (pc : WorkerPc F A) : pc.wake.inside = pc.inside := by
  cases pc <;> rfl

theorem WorkerPc.node_wake (pc : WorkerPc F A) : pc.wake.node = pc.node := by
  cases pc <;> rfl

theorem WorkerPc.Matches.wake {tag : Nat → Option (Task F A)} {place : WorkerAt F A}
    {pc : WorkerPc F A} (hpc : pc.Matches tag place) : pc.wake.Matches tag place.wake := by
  cases pc with
  | tests | sleeps | checks | quits | loads | pops =>
      rcases hpc with rfl | rfl
      · exact Or.inl rfl
      · exact Or.inr rfl
  | unlocks | calls =>
      obtain ⟨task, htask, rfl⟩ := hpc
      exact ⟨task, htask, rfl⟩
  | runs =>
      obtain ⟨task, htask, hjob, rfl⟩ := hpc
      exact ⟨task, htask, hjob, rfl⟩
  | _ =>
      obtain rfl := hpc
      rfl

/-- A step of the client that owns the lock.  Every other thread is outside, so it knows
nothing that the step could make wrong. -/
theorem Carries.publish (h : Carries tag addresses m s) {c : Fin k} {l : Machine F A n k}
    {after : List Nat} (hin : (m.clients c).pc.inside = true)
    (hin' : (l.clients c).pc.inside = true) (hlock : l.queueLock = m.queueLock)
    (hworkers : ∀ w, (l.workers w).inside = (m.workers w).inside ∧
      (l.workers w).node = (m.workers w).node ∧ (l.workers w).Matches tag (t.workers w))
    (hclients : ∀ d, d ≠ c → l.clients d = m.clients d ∧ t.clients d = s.clients d)
    (hcreated : l.created = t.created) (hfreed : l.freed = t.freed)
    (hremoved : t.removed = s.removed)
    (hstop : l.stop = (t.stop || (l.clients c).pc.stopPending))
    (hchain : Chain l.heap TpoolTask.next l.taskQueue after)
    (hqueue : after.map tag = t.taskQueue.map some ++ (l.clients c).pc.pendingNodes.map tag)
    (hheap : ∀ p, (l.heap p).map TpoolTask.job = (m.heap p).map TpoolTask.job)
    (hnext : ∀ d p, (m.clients d).pc.node = some p → l.heap p = m.heap p)
    (hplace : (l.clients c).pc.Matches tag (t.clients c).place)
    (hscript : (l.clients c).script = (t.clients c).script)
    (hnode : (l.clients c).pc.node = none) (hknows : (l.clients c).pc.Knows l.taskQueue after) :
    Carries tag after l t := by
  have howns : m.queueLock = some (.inr c) := (h.lock (.inr c)).mp hin
  have howner : l.ownerPc = (l.clients c).pc := Machine.ownerPc_of_client (hlock.trans howns)
  have hinside : ∀ u, l.inside u = m.inside u := by
    rintro (w | d)
    · exact (hworkers w).1
    · by_cases hd : d = c
      · simp [hd, hin, hin']
      · simp [(hclients d hd).1]
  constructor
  case created => exact hcreated
  case freed => exact hfreed
  case stop => rw [howner]; exact hstop
  case chain => exact hchain
  case queue => rw [howner]; exact hqueue
  case tagged => exact fun p => (hheap p).trans (h.tagged p)
  case lock => rw [hlock]; exact h.lock.stay hinside
  case worker_place => exact fun w => (hworkers w).2.2
  case worker_node =>
    intro w p hp
    rw [hremoved]
    exact h.worker_node w p ((hworkers w).2.1.symm.trans hp)
  case worker_knows =>
    intro w
    have hout := h.worker_outside (t := .inr c) hin (v := w) (by simp)
    exact WorkerPc.knows_of_outside ((hworkers w).1.trans hout) _ _
  case client_place =>
    intro d
    by_cases hd : d = c
    · exact hd ▸ hplace
    · rw [(hclients d hd).1, (hclients d hd).2]
      exact h.client_place d
  case client_script =>
    intro d
    by_cases hd : d = c
    · exact hd ▸ hscript
    · rw [(hclients d hd).1, (hclients d hd).2]
      exact h.client_script d
  case client_node =>
    intro d p hp
    have hd : d ≠ c := by
      rintro rfl
      simp [hnode] at hp
    rw [(hclients d hd).1] at hp
    rw [hnext d p hp]
    exact h.client_node d p hp
  case client_knows =>
    intro d
    by_cases hd : d = c
    · exact hd ▸ hknows
    · rw [(hclients d hd).1]
      exact ClientPc.knows_of_outside
        (h.client_outside (t := .inr c) hin fun heq => hd (Sum.inr.inj heq).symm) _ _

namespace Refines

/-- `pool->task_queue = new_task`. -/
theorem storeFirst (h : Refines tag addresses m s) {c : Fin k} {p : Nat}
    (hpc : (m.clients c).pc = .addFirst p) :
    Refines tag [p] ({ m with taskQueue := some p }.setClient c (.addBroadcasts p)) s := by
  have hin : (m.clients c).pc.inside = true := by rw [hpc]; rfl
  have howner : m.ownerPc = .addFirst p :=
    (Machine.ownerPc_of_client ((h.lock (.inr c)).mp hin)).trans hpc
  obtain ⟨node, hnode, hnext⟩ := h.client_node c p (by rw [hpc]; rfl)
  have hnil : addresses = [] := by
    have hknows : m.taskQueue = none := by simpa [hpc, ClientPc.Knows] using h.client_knows c
    simpa [hknows] using h.chain
  have hempty : s.taskQueue = [] := by
    have hqueue := h.queue
    rw [howner, hnil] at hqueue
    simpa [ClientPc.pendingNodes] using hqueue.symm
  constructor
  · refine h.toCarries.publish (c := c) hin (by simp [ClientPc.inside]) rfl
      (fun w => ⟨rfl, rfl, h.worker_place w⟩) (fun d hd => by simp [hd]) h.created h.freed rfl ?_ ?_
      ?_ (fun _ => rfl) (fun _ _ _ => rfl) ?_ ?_ ?_ ?_
    · have hstop := h.stop
      rw [howner] at hstop
      simpa [ClientPc.stopPending] using hstop
    · exact .cons hnode (hnext ▸ .nil)
    · simp [hempty, ClientPc.pendingNodes]
    · simpa [hpc, ClientPc.Matches] using h.client_place c
    · simpa using h.client_script c
    · simp [ClientPc.node]
    · simp [ClientPc.Knows]
  · intro q hq
    refine h.owned_mono hq (fun _ => id) (by simp [hnil]) (fun _ => rfl) fun d r hr => ?_
    by_cases hd : d = c
    · left
      subst hd
      simpa [hpc, ClientPc.node, ClientPc.newTask, eq_comm] using hr
    · exact Or.inr (by simpa [hd] using hr)

/-- The broadcast after `pool->task_queue = new_task`. -/
theorem announceFirst (h : Refines tag addresses m s) {c : Fin k} {p : Nat}
    (hpc : (m.clients c).pc = .addBroadcasts p) :
    ∃ task, (s.clients c).place = .links task ∧ s.taskQueue = [] ∧
      Refines tag addresses (m.broadcastNotEmpty.setClient c .unlocks)
        ({ s with taskQueue := [task], linked := s.linked ++ [task] }.broadcastNotEmpty.setClient
          c { s.clients c with place := .idle }) := by
  have hin : (m.clients c).pc.inside = true := by rw [hpc]; rfl
  have howner : m.ownerPc = .addBroadcasts p :=
    (Machine.ownerPc_of_client ((h.lock (.inr c)).mp hin)).trans hpc
  obtain ⟨task, htask, hplace⟩ :=
    (h.client_place c).links (p := p) (by simp [hpc, ClientPc.newTask])
  have hone : addresses = [p] := by simpa [hpc, ClientPc.Knows] using h.client_knows c
  have hempty : s.taskQueue = [] := by
    have hqueue := congrArg List.length h.queue
    rw [howner, hone] at hqueue
    simpa [ClientPc.pendingNodes] using hqueue
  refine ⟨task, hplace, hempty, ?_, ?_⟩
  · refine h.toCarries.publish (c := c) hin (by simp [ClientPc.inside]) rfl
      (fun w => ⟨WorkerPc.inside_wake _, WorkerPc.node_wake _, (h.worker_place w).wake⟩)
      (fun d hd => by simp [hd, State.broadcastNotEmpty]) h.created h.freed rfl ?_ h.chain ?_
      (fun _ => rfl) (fun _ _ _ => rfl) ?_ ?_ ?_ ?_
    · have hstop := h.stop
      rw [howner] at hstop
      simpa [ClientPc.stopPending, State.broadcastNotEmpty] using hstop
    · simp [hone, ClientPc.pendingNodes, htask, State.broadcastNotEmpty]
    · simp [ClientPc.Matches]
    · simpa using h.client_script c
    · simp [ClientPc.node, ClientPc.newTask]
    · simp [ClientPc.Knows]
  · intro q hq
    refine h.owned_mono hq (fun _ => id) (fun _ => id) (fun _ => WorkerPc.node_wake _)
      fun d r hr => Or.inr ?_
    have hd : d ≠ c := by
      rintro rfl
      simp [hpc, ClientPc.node] at hr
    simpa [hd] using hr

/-- `curr->next = new_task`, at the end of the walk. -/
theorem storeLast (h : Refines tag addresses m s) (hbooks : Books s) {c : Fin k} {p last : Nat}
    {curr : Option Nat} {front : List Nat} {node : TpoolTask F A}
    (hpc : (m.clients c).pc = .links p curr) (haddresses : addresses = front ++ [last])
    (hnode : m.heap last = some node) :
    ∃ task, (s.clients c).place = .links task ∧ s.taskQueue ≠ [] ∧
      Refines tag (addresses ++ [p])
        ((m.store last (some { node with next := some p })).setClient c .unlocks)
        ({ s with taskQueue := s.taskQueue ++ [task], linked := s.linked ++ [task] }.setClient
          c { s.clients c with place := .idle }) := by
  have hin : (m.clients c).pc.inside = true := by rw [hpc]; rfl
  have howner : m.ownerPc = .links p curr :=
    (Machine.ownerPc_of_client ((h.lock (.inr c)).mp hin)).trans hpc
  have hown : (m.clients c).pc.node = some p := by rw [hpc]; rfl
  obtain ⟨task, htask, hplace⟩ := (h.client_place c).links (ClientPc.newTask_of_node hown)
  obtain ⟨new, hnew, hnext⟩ := h.client_node c p hown
  have hp : p ∉ addresses := h.client_notMem hbooks hown
  have hlast : last ∈ addresses := by simp [haddresses]
  have hne : ∀ q, q ∉ addresses → (m.store last (some { node with next := some p })).heap q =
      m.heap q := by
    intro q hq
    refine Function.update_of_ne ?_ _ _
    rintro rfl
    exact hq hlast
  have hqueue := h.queue
  rw [howner] at hqueue
  simp only [ClientPc.pendingNodes, List.map_nil, List.append_nil] at hqueue
  refine ⟨task, hplace, ?_, ?_, ?_⟩
  · rintro hempty
    simp [hempty, haddresses] at hqueue
  · refine h.toCarries.publish (c := c) hin (by simp [ClientPc.inside]) rfl
      (fun w => ⟨rfl, rfl, h.worker_place w⟩) (fun d hd => by simp [hd]) h.created h.freed rfl ?_ ?_
      ?_ ?_ ?_ ?_ ?_ ?_ ?_
    · have hstop := h.stop
      rw [howner] at hstop
      simpa [ClientPc.stopPending] using hstop
    · rw [haddresses, List.append_assoc]
      have hchain := h.chain
      rw [haddresses] at hchain
      refine hchain.link ?_ ?_
      · exact .cons hnew (hnext ▸ .nil)
      · rintro hmem
        exact hp (List.mem_singleton.mp hmem ▸ hlast)
    · simp [hqueue, ClientPc.pendingNodes, htask]
    · intro q
      by_cases hq : q = last
      · subst hq
        simp [Machine.store, hnode, TpoolTask.job]
      · simp [Machine.store, hq]
    · exact fun d q hq => hne q (h.client_notMem hbooks hq)
    · simp [ClientPc.Matches]
    · simpa using h.client_script c
    · simp [ClientPc.node, ClientPc.newTask]
    · simp [ClientPc.Knows]
  · intro q hq
    refine h.owned_mono hq (fun r hr => ?_) (fun _ => List.mem_append_left _) (fun _ => rfl)
      fun d r hr => ?_
    · by_cases hrl : r = last
      · simp [hrl, hnode]
      · simpa [Machine.store, hrl] using hr
    · by_cases hd : d = c
      · obtain rfl : p = r := Option.some.inj (hown.symm.trans (hd ▸ hr))
        exact Or.inl (by simp)
      · exact Or.inr (by simpa [hd] using hr)

/-- `pool->stop = 1`. -/
theorem setStop (h : Refines tag addresses m s) {c : Fin k}
    (hpc : (m.clients c).pc = .setsStop) :
    Refines tag addresses ({ m with stop := true }.setClient c .stopBroadcasts) s := by
  have hin : (m.clients c).pc.inside = true := by rw [hpc]; rfl
  have howner : m.ownerPc = .setsStop :=
    (Machine.ownerPc_of_client ((h.lock (.inr c)).mp hin)).trans hpc
  constructor
  · refine h.toCarries.publish (c := c) hin (by simp [ClientPc.inside]) rfl
      (fun w => ⟨rfl, rfl, h.worker_place w⟩) (fun d hd => by simp [hd]) h.created h.freed rfl
      (by simp [ClientPc.stopPending]) h.chain ?_ (fun _ => rfl) (fun _ _ _ => rfl) ?_ ?_ ?_ ?_
    · have hqueue := h.queue
      rw [howner] at hqueue
      simpa [ClientPc.pendingNodes] using hqueue
    · simpa [hpc, ClientPc.Matches] using h.client_place c
    · simpa using h.client_script c
    · simp [ClientPc.node, ClientPc.newTask]
    · simp [ClientPc.Knows]
  · intro q hq
    refine h.owned_mono hq (fun _ => id) (fun _ => id) (fun _ => rfl) fun d r hr => Or.inr ?_
    have hd : d ≠ c := by
      rintro rfl
      simp [hpc, ClientPc.node, ClientPc.newTask] at hr
    simpa [hd] using hr

/-- The broadcast after `pool->stop = 1`. -/
theorem announceStop (h : Refines tag addresses m s) {c : Fin k}
    (hpc : (m.clients c).pc = .stopBroadcasts) :
    Refines tag addresses (m.broadcastNotEmpty.setClient c .stopUnlocks)
      ({ s with stop := true }.broadcastNotEmpty.setClient c
        { s.clients c with place := .joins 0 }) := by
  have hin : (m.clients c).pc.inside = true := by rw [hpc]; rfl
  have howner : m.ownerPc = .stopBroadcasts :=
    (Machine.ownerPc_of_client ((h.lock (.inr c)).mp hin)).trans hpc
  constructor
  · refine h.toCarries.publish (c := c) hin (by simp [ClientPc.inside]) rfl
      (fun w => ⟨WorkerPc.inside_wake _, WorkerPc.node_wake _, (h.worker_place w).wake⟩)
      (fun d hd => by simp [hd, State.broadcastNotEmpty]) h.created h.freed rfl ?_ h.chain ?_
      (fun _ => rfl) (fun _ _ _ => rfl) ?_ ?_ ?_ ?_
    · have hstop := h.stop
      rw [howner] at hstop
      simpa [ClientPc.stopPending, State.broadcastNotEmpty] using hstop
    · have hqueue := h.queue
      rw [howner] at hqueue
      simpa [ClientPc.pendingNodes, State.broadcastNotEmpty] using hqueue
    · simp [ClientPc.Matches]
    · simpa using h.client_script c
    · simp [ClientPc.node, ClientPc.newTask]
    · simp [ClientPc.Knows]
  · intro q hq
    refine h.owned_mono hq (fun _ => id) (fun _ => id) (fun _ => WorkerPc.node_wake _)
      fun d r hr => Or.inr ?_
    have hd : d ≠ c := by
      rintro rfl
      simp [hpc, ClientPc.node, ClientPc.newTask] at hr
    simpa [hd] using hr

theorem create (h : Refines tag addresses m s) (hbooks : Books s) (hn : m.created < n) :
    Refines tag addresses
      ({ m with created := m.created + 1 }.setWorker ⟨m.created, hn⟩ .locks)
      ({ s with created := s.created + 1 }.setWorker ⟨s.created, h.created ▸ hn⟩ .top) := by
  have hunborn : s.workers ⟨m.created, hn⟩ = .unborn :=
    (hbooks.booted.unborn _).mpr (Nat.le_of_eq h.created.symm)
  have hpc : m.workers ⟨m.created, hn⟩ = .unborn := by
    have hplace := h.worker_place ⟨m.created, hn⟩
    rw [hunborn] at hplace
    cases hold : m.workers ⟨m.created, hn⟩ <;> simp_all [WorkerPc.Matches]
  have hmoved : Refines tag addresses (m.setWorker ⟨m.created, hn⟩ .locks)
      (s.setWorker ⟨m.created, hn⟩ .top) :=
    h.workerStays hpc .locks rfl rfl ⟨rfl, rfl, rfl, rfl, rfl⟩ (fun v hv => by simp [hv]) rfl
      (by simp [WorkerPc.Matches]) trivial
  have hsame : (⟨s.created, h.created ▸ hn⟩ : Fin n) = ⟨m.created, hn⟩ := Fin.ext h.created.symm
  rw [hsame]
  exact { hmoved with created := congrArg (· + 1) h.created }

end Refines

end ThreadPool

end SystemsProgramming
