/-
The statements against the steps of the pool.  A machine is related to a state of the
pool when the list in memory is the queue, each address stands for the task it was
allocated for, and the thread inside the critical section knows what it has tested.
-/
import SystemsProgramming.ThreadPool.Machine
import SystemsProgramming.ThreadPool.Program

namespace SystemsProgramming

namespace ThreadPool

variable {F A : Type} {n k : Nat}

def TpoolTask.job (node : TpoolTask F A) : F × A := (node.func, node.arg)

/-- The node that a worker has taken out of the queue and not freed. -/
def WorkerPc.node : WorkerPc F A → Option Nat
  | unlocks task | calls task | runs task _ _ | frees task => some task
  | _ => none

/-- The variable `new_task`. -/
def ClientPc.newTask : ClientPc → Option Nat
  | addLocks task | addTests task | addFirst task | addBroadcasts task | addLoads task |
    walks task _ | advances task _ | links task _ => some task
  | _ => none

/-- The node that the first `tpool_add` of an empty queue has stored and not announced. -/
def ClientPc.pendingNodes : ClientPc → List Nat
  | addBroadcasts task => [task]
  | _ => []

/-- The node that a client has filled in and not linked. -/
def ClientPc.node : ClientPc → Option Nat
  | addBroadcasts _ => none
  | pc => pc.newTask

/-- `stop` is set and not announced. -/
def ClientPc.stopPending : ClientPc → Bool
  | stopBroadcasts => true
  | _ => false

def ClientPc.settled : ClientPc → Bool
  | addBroadcasts _ | stopBroadcasts => false
  | _ => true

/-- What a worker knows from its tests, as long as it has the lock. -/
def WorkerPc.Knows (queue : Option Nat) (stop : Bool) : WorkerPc F A → Prop
  | sleeps => queue = none ∧ stop = false
  | checks => queue ≠ none ∨ stop = true
  | quits => stop = true
  | loads => queue ≠ none ∧ stop = false
  | pops task => task = queue ∧ queue ≠ none ∧ stop = false
  | signals => queue = none
  | _ => True

/-- What a client knows from its tests, and where its walk through the queue is. -/
def ClientPc.Knows (queue : Option Nat) (addresses : List Nat) : ClientPc → Prop
  | addFirst _ => queue = none
  | addBroadcasts task => addresses = [task]
  | addLoads _ | waitSleeps => queue ≠ none
  | walks _ curr => ∃ before address after, curr = some address ∧
      addresses = before ++ address :: after
  | advances _ curr => ∃ before address next after, curr = some address ∧
      addresses = before ++ address :: next :: after
  | links _ curr => ∃ before address, curr = some address ∧ addresses = before ++ [address]
  | _ => True

/-- Where a worker is in the pool when it is at a statement. -/
def WorkerPc.Matches (tag : Nat → Option (Task F A)) (place : WorkerAt F A) :
    WorkerPc F A → Prop
  | unborn => place = .unborn
  | locks | leaves => place = .top
  | tests | sleeps | checks | quits | loads | pops _ => place = .top ∨ place = .woken
  | asleep => place = .asleep
  | woken => place = .woken
  | stopping => place = .stopping
  | exited => place = .exited
  | unlocks task | calls task => ∃ t, tag task = some t ∧ place = .holds t
  | runs task func arg => ∃ t, tag task = some t ∧ t.job = (func, arg) ∧ place = .runs t
  | frees _ | relocks | probes | signals => place = .ran

/-- Where a client is in the pool when it is at a statement. -/
def ClientPc.Matches (tag : Nat → Option (Task F A)) (place : ClientAt F A) : ClientPc → Prop
  | idle | unlocks => place = .idle
  | addLocks task | addTests task | addFirst task | addBroadcasts task | addLoads task |
    walks task _ | advances task _ | links task _ => ∃ t, tag task = some t ∧ place = .links t
  | waitLocks => ∃ before, place = .waits before
  | waitTests | waitSleeps => ∃ before, place = .waits before ∨ place = .woken before
  | asleep => ∃ before, place = .asleep before
  | woken => ∃ before, place = .woken before
  | stopLocks | setsStop | stopBroadcasts => place = .stops
  | stopUnlocks => place = .joins 0
  | joins i => place = .joins i
  | frees => place = .frees
  | destroys => place = .destroys

theorem WorkerPc.Matches.congr {tag tag' : Nat → Option (Task F A)} {place : WorkerAt F A}
    {pc : WorkerPc F A} (hpc : pc.Matches tag place)
    (hsame : ∀ p, pc.node = some p → tag' p = tag p) : pc.Matches tag' place := by
  cases pc <;> simp_all [WorkerPc.Matches, WorkerPc.node]

theorem ClientPc.Matches.congr {tag tag' : Nat → Option (Task F A)} {place : ClientAt F A}
    {pc : ClientPc} (hpc : pc.Matches tag place)
    (hsame : ∀ p, pc.newTask = some p → tag' p = tag p) : pc.Matches tag' place := by
  cases pc <;> simp_all [ClientPc.Matches, ClientPc.newTask]

theorem WorkerPc.knows_of_outside {pc : WorkerPc F A} (hpc : pc.inside = false)
    (queue : Option Nat) (stop : Bool) : pc.Knows queue stop := by
  cases pc <;> simp_all [WorkerPc.Knows, WorkerPc.inside]

theorem ClientPc.knows_of_outside {pc : ClientPc} (hpc : pc.inside = false)
    (queue : Option Nat) (addresses : List Nat) : pc.Knows queue addresses := by
  cases pc <;> simp_all [ClientPc.Knows, ClientPc.inside]

theorem ClientPc.newTask_of_node {pc : ClientPc} {p : Nat} (hpc : pc.node = some p) :
    pc.newTask = some p := by
  cases pc <;> simp_all [ClientPc.node]

theorem ClientPc.Matches.links {tag : Nat → Option (Task F A)} {place : ClientAt F A}
    {pc : ClientPc} (hpc : pc.Matches tag place) {p : Nat} (htask : pc.newTask = some p) :
    ∃ task, tag p = some task ∧ place = .links task := by
  cases pc <;> simp_all [ClientPc.Matches, ClientPc.newTask]

theorem ClientPc.settled_iff {pc : ClientPc} :
    pc.settled = true ↔ pc.pendingNodes = [] ∧ pc.stopPending = false := by
  cases pc <;> simp [ClientPc.settled, ClientPc.pendingNodes, ClientPc.stopPending]

namespace Machine

/-- The threads between their lock and their unlock. -/
def inside (m : Machine F A n k) : Thread n k → Bool :=
  Sum.elim (fun w => (m.workers w).inside) fun c => (m.clients c).pc.inside

/-- The statement of the client that owns the lock, if a client does. -/
def ownerPc (m : Machine F A n k) : ClientPc :=
  match m.queueLock with
  | some (.inr c) => (m.clients c).pc
  | _ => .idle

@[simp] theorem setWorker_workers (m : Machine F A n k) (w v : Fin n) (pc : WorkerPc F A) :
    (m.setWorker w pc).workers v = if v = w then pc else m.workers v := by
  simp [setWorker, Function.update_apply]

@[simp] theorem setClient_clients (m : Machine F A n k) (c d : Fin k) (pc : ClientPc) :
    (m.setClient c pc).clients d =
      if d = c then { m.clients c with pc := pc } else m.clients d := by
  simp [setClient, Function.update_apply]

@[simp] theorem inside_worker (m : Machine F A n k) (w : Fin n) :
    m.inside (.inl w) = (m.workers w).inside := rfl

@[simp] theorem inside_client (m : Machine F A n k) (c : Fin k) :
    m.inside (.inr c) = (m.clients c).pc.inside := rfl

/-- What is not announced belongs to the client that owns the lock. -/
theorem ownerPc_congr {m m' : Machine F A n k} (hclients : m'.clients = m.clients)
    (howner : ∀ c, m'.queueLock = some (.inr c) ↔ m.queueLock = some (.inr c)) :
    m'.ownerPc = m.ownerPc := by
  unfold ownerPc
  rw [hclients]
  cases hold : m.queueLock with
  | none =>
      cases hnew : m'.queueLock with
      | none => rfl
      | some thread => cases thread <;> simp_all
  | some thread =>
      cases hnew : m'.queueLock with
      | none => cases thread <;> simp_all
      | some other => cases thread <;> cases other <;> simp_all

theorem ownerPc_of_client {m : Machine F A n k} {c : Fin k}
    (hlock : m.queueLock = some (.inr c)) : m.ownerPc = (m.clients c).pc := by
  simp [ownerPc, hlock]

theorem ownerPc_of_other {m : Machine F A n k} (hlock : ∀ c, m.queueLock ≠ some (.inr c)) :
    m.ownerPc = .idle := by
  unfold ownerPc
  split
  · next c hc => exact absurd hc (hlock c)
  · rfl

/-- A client with nothing left to announce moves. -/
theorem pending_congr {m l : Machine F A n k} {c : Fin k}
    (hold : (m.clients c).pc.settled = true) (hnew : (l.clients c).pc.settled = true)
    (hclients : ∀ d, d ≠ c → l.clients d = m.clients d)
    (howner : ∀ d, d ≠ c → (l.queueLock = some (.inr d) ↔ m.queueLock = some (.inr d))) :
    l.ownerPc.pendingNodes = m.ownerPc.pendingNodes ∧
      l.ownerPc.stopPending = m.ownerPc.stopPending := by
  by_cases hother : ∃ d, d ≠ c ∧ m.queueLock = some (.inr d)
  · obtain ⟨d, hd, hlock⟩ := hother
    rw [ownerPc_of_client hlock, ownerPc_of_client ((howner d hd).mpr hlock), hclients d hd]
    exact ⟨rfl, rfl⟩
  · have hidle : ∀ m₁ : Machine F A n k, (m₁.clients c).pc.settled = true →
        (∀ d, d ≠ c → m₁.queueLock ≠ some (.inr d)) →
        m₁.ownerPc.pendingNodes = [] ∧ m₁.ownerPc.stopPending = false := by
      intro m₁ hsettled hnot
      by_cases hc : m₁.queueLock = some (.inr c)
      · rw [ownerPc_of_client hc]
        exact ClientPc.settled_iff.mp hsettled
      · rw [ownerPc_of_other fun d hd => ?_]
        · exact ⟨rfl, rfl⟩
        · by_cases hdc : d = c
          · exact hc (hdc ▸ hd)
          · exact hnot d hdc hd
    have hnone : ∀ d, d ≠ c → m.queueLock ≠ some (.inr d) :=
      fun d hd hlock => hother ⟨d, hd, hlock⟩
    obtain ⟨hnodes, hstop⟩ := hidle m hold hnone
    obtain ⟨hnodes', hstop'⟩ := hidle l hnew fun d hd hlock =>
      hnone d hd ((howner d hd).mp hlock)
    exact ⟨hnodes'.trans hnodes.symm, hstop'.trans hstop.symm⟩

theorem pendingNodes_cases (m : Machine F A n k) : m.ownerPc.pendingNodes = [] ∨
    ∃ c p, (m.clients c).pc = .addBroadcasts p ∧ m.ownerPc.pendingNodes = [p] := by
  unfold ownerPc
  split
  · next c _ =>
      cases hpc : (m.clients c).pc with
      | addBroadcasts p => exact Or.inr ⟨c, p, hpc, rfl⟩
      | _ => exact Or.inl rfl
  · exact Or.inl rfl

end Machine

theorem Books.removed_linked {s : State F A n k} (hs : Books s) {w : Fin n} {task : Task F A}
    (hremoved : (w, task) ∈ s.removed) : task ∈ s.linked := by
  rw [← hs.ledger.conserved]
  exact List.mem_append_left _ (List.mem_map_of_mem hremoved)

theorem Books.removed_notMem_queue {s : State F A n k} (hs : Books s) {w : Fin n}
    {task : Task F A} (hremoved : (w, task) ∈ s.removed) : task ∉ s.taskQueue := by
  have hnodup := hs.allocated.nodup
  rw [← hs.ledger.conserved, List.nodup_append] at hnodup
  intro hqueued
  exact hnodup.2.2 task (List.mem_map_of_mem hremoved) task hqueued rfl

/-- The machine carries out the pool.  `tag` gives the task that an address was allocated
for, and `addresses` are the nodes of the queue. -/
structure Carries (tag : Nat → Option (Task F A)) (addresses : List Nat)
    (m : Machine F A n k) (s : State F A n k) : Prop where
  created : m.created = s.created
  freed : m.freed = s.freed
  stop : m.stop = (s.stop || m.ownerPc.stopPending)
  chain : Chain m.heap TpoolTask.next m.taskQueue addresses
  queue : addresses.map tag = s.taskQueue.map some ++ m.ownerPc.pendingNodes.map tag
  tagged : ∀ p, (m.heap p).map TpoolTask.job = (tag p).map Task.job
  lock : Excludes m.inside m.queueLock
  worker_place : ∀ w, (m.workers w).Matches tag (s.workers w)
  worker_node : ∀ w p, (m.workers w).node = some p → ∃ task, tag p = some task ∧
    (w, task) ∈ s.removed
  worker_knows : ∀ w, (m.workers w).Knows m.taskQueue m.stop
  client_place : ∀ c, (m.clients c).pc.Matches tag (s.clients c).place
  client_script : ∀ c, (m.clients c).script = (s.clients c).script
  client_node : ∀ c p, (m.clients c).pc.node = some p → ∃ node, m.heap p = some node ∧
    node.next = none
  client_knows : ∀ c, (m.clients c).pc.Knows m.taskQueue addresses

/-- Two states of the pool that agree on what the threads share. -/
structure SameShared (s t : State F A n k) : Prop where
  created : t.created = s.created
  freed : t.freed = s.freed
  stop : t.stop = s.stop
  taskQueue : t.taskQueue = s.taskQueue
  removed : t.removed = s.removed

theorem SameShared.refl (s : State F A n k) : SameShared s s := ⟨rfl, rfl, rfl, rfl, rfl⟩

variable {tag : Nat → Option (Task F A)} {addresses : List Nat} {m : Machine F A n k}
  {s t : State F A n k}

namespace Carries

/-- A worker goes on without touching the memory. -/
theorem worker (h : Carries tag addresses m s) {w : Fin n} {pc : WorkerPc F A}
    (owner : Option (Thread n k)) (hshared : SameShared s t)
    (hworkers : ∀ v, v ≠ w → t.workers v = s.workers v) (hclients : t.clients = s.clients)
    (howner : ∀ c, owner = some (.inr c) ↔ m.queueLock = some (.inr c))
    (hlock : Excludes (Machine.inside { m.setWorker w pc with queueLock := owner }) owner)
    (hplace : pc.Matches tag (t.workers w))
    (hnode : ∀ p, pc.node = some p → (m.workers w).node = some p)
    (hknows : pc.Knows m.taskQueue m.stop) :
    Carries tag addresses { m.setWorker w pc with queueLock := owner } t := by
  have hpc : Machine.ownerPc { m.setWorker w pc with queueLock := owner } = m.ownerPc :=
    Machine.ownerPc_congr rfl howner
  constructor
  case created => exact h.created.trans hshared.created.symm
  case freed => exact h.freed.trans hshared.freed.symm
  case stop => rw [hpc, hshared.stop]; exact h.stop
  case chain => exact h.chain
  case queue => rw [hpc, hshared.taskQueue]; exact h.queue
  case tagged => exact h.tagged
  case lock => exact hlock
  case worker_place =>
    intro v
    by_cases hv : v = w
    · simpa [hv] using hplace
    · simpa [hv, hworkers v hv] using h.worker_place v
  case worker_node =>
    intro v p hp
    rw [hshared.removed]
    by_cases hv : v = w
    · subst hv
      exact h.worker_node v p (hnode p (by simpa using hp))
    · exact h.worker_node v p (by simpa [hv] using hp)
  case worker_knows =>
    intro v
    by_cases hv : v = w
    · simpa [hv] using hknows
    · simpa [hv] using h.worker_knows v
  case client_place => rw [hclients]; exact h.client_place
  case client_script => rw [hclients]; exact h.client_script
  case client_node => exact h.client_node
  case client_knows => exact h.client_knows

/-- A client goes on without touching the memory and with nothing left to announce. -/
theorem client (h : Carries tag addresses m s) {c : Fin k} {client : MachineClient F A}
    (owner : Option (Thread n k)) (hshared : SameShared s t) (hworkers : t.workers = s.workers)
    (hclients : ∀ d, d ≠ c → t.clients d = s.clients d)
    (hsettled : (m.clients c).pc.settled = true) (hsettled' : client.pc.settled = true)
    (howner : ∀ d, d ≠ c → (owner = some (.inr d) ↔ m.queueLock = some (.inr d)))
    (hlock : Excludes (Machine.inside
      { m with queueLock := owner, clients := Function.update m.clients c client }) owner)
    (hplace : client.pc.Matches tag (t.clients c).place)
    (hscript : client.script = (t.clients c).script)
    (hnode : ∀ p, client.pc.node = some p → ∃ node, m.heap p = some node ∧ node.next = none)
    (hknows : client.pc.Knows m.taskQueue addresses) :
    Carries tag addresses
      { m with queueLock := owner, clients := Function.update m.clients c client } t := by
  have hpc := Machine.pending_congr (m := m)
    (l := { m with queueLock := owner, clients := Function.update m.clients c client })
    (c := c) hsettled (by simpa using hsettled') (fun d hd => by simp [hd]) howner
  constructor
  case created => exact h.created.trans hshared.created.symm
  case freed => exact h.freed.trans hshared.freed.symm
  case stop => rw [hpc.2, hshared.stop]; exact h.stop
  case chain => exact h.chain
  case queue => rw [hpc.1, hshared.taskQueue]; exact h.queue
  case tagged => exact h.tagged
  case lock => exact hlock
  case worker_place => rw [hworkers]; exact h.worker_place
  case worker_node => rw [hshared.removed]; exact h.worker_node
  case worker_knows => exact h.worker_knows
  case client_place =>
    intro d
    by_cases hd : d = c
    · subst hd
      simpa using hplace
    · simpa [hd, hclients d hd] using h.client_place d
  case client_script =>
    intro d
    by_cases hd : d = c
    · subst hd
      simpa using hscript
    · simpa [hd, hclients d hd] using h.client_script d
  case client_node =>
    intro d p hp
    by_cases hd : d = c
    · exact hnode p (by simpa [hd] using hp)
    · exact h.client_node d p (by simpa [hd] using hp)
  case client_knows =>
    intro d
    by_cases hd : d = c
    · subst hd
      simpa using hknows
    · simpa [hd] using h.client_knows d

/-- A store at an address that nobody has a pointer to. -/
theorem store (h : Carries tag addresses m s) {p : Nat} {node : Option (TpoolTask F A)}
    {task : Option (Task F A)} (hjob : node.map TpoolTask.job = task.map Task.job)
    (hnew : p ∉ addresses) (hworker : ∀ w, (m.workers w).node ≠ some p)
    (hclient : ∀ c, (m.clients c).pc.newTask ≠ some p) :
    Carries (Function.update tag p task) addresses (m.store p node) s := by
  have htag : ∀ q, q ≠ p → Function.update tag p task q = tag q :=
    fun q hq => Function.update_of_ne hq _ _
  have hheap : ∀ q, q ≠ p → (m.store p node).heap q = m.heap q :=
    fun q hq => Function.update_of_ne hq _ _
  have hworker_ne : ∀ w q, (m.workers w).node = some q → q ≠ p := by
    rintro w q hq rfl
    exact hworker w hq
  have hclient_ne : ∀ c q, (m.clients c).pc.newTask = some q → q ≠ p := by
    rintro c q hq rfl
    exact hclient c hq
  constructor
  case created => exact h.created
  case freed => exact h.freed
  case stop => exact h.stop
  case chain => exact h.chain.update hnew _
  case queue =>
    refine (List.map_congr_left fun q hq => htag q ?_).trans (h.queue.trans ?_)
    · rintro rfl
      exact hnew hq
    · refine congrArg (s.taskQueue.map some ++ ·) (List.map_congr_left fun q hq => ?_)
      rcases m.pendingNodes_cases with hnone | ⟨c, r, hc, hone⟩
      · simp [hnone] at hq
      · obtain rfl : q = r := by simpa [hone] using hq
        exact (htag q (hclient_ne c q (by simp [hc, ClientPc.newTask]))).symm
  case tagged =>
    intro q
    by_cases hq : q = p
    · subst hq
      simpa [Machine.store] using hjob
    · rw [hheap q hq, htag q hq]
      exact h.tagged q
  case lock => exact h.lock
  case worker_place =>
    exact fun w => (h.worker_place w).congr fun q hq => htag q (hworker_ne w q hq)
  case worker_node =>
    intro w q hq
    rw [htag q (hworker_ne w q hq)]
    exact h.worker_node w q hq
  case worker_knows => exact h.worker_knows
  case client_place =>
    exact fun c => (h.client_place c).congr fun q hq => htag q (hclient_ne c q hq)
  case client_script => exact h.client_script
  case client_node =>
    intro c q hq
    rw [hheap q (hclient_ne c q (ClientPc.newTask_of_node hq))]
    exact h.client_node c q hq
  case client_knows => exact h.client_knows

/-- A node of the queue stands for a queued task, or for the one that is linked and not
announced. -/
theorem tag_of_mem (h : Carries tag addresses m s) {p : Nat} (hp : p ∈ addresses) :
    ∃ task, tag p = some task ∧ (task ∈ s.taskQueue ∨
      ∃ c, (m.clients c).pc = .addBroadcasts p ∧ (s.clients c).place = .links task) := by
  have hmem : tag p ∈ addresses.map tag := List.mem_map_of_mem hp
  rw [h.queue, List.mem_append] at hmem
  rcases hmem with hqueued | hpending
  · obtain ⟨task, htask, heq⟩ := List.mem_map.mp hqueued
    exact ⟨task, heq.symm, Or.inl htask⟩
  · rcases m.pendingNodes_cases with hnone | ⟨c, q, hpc, -⟩
    · simp [hnone] at hpending
    · have hone : addresses = [q] := by simpa [hpc, ClientPc.Knows] using h.client_knows c
      obtain rfl : p = q := by simpa [hone] using hp
      have hnew : (m.clients c).pc.newTask = some p := by simp [hpc, ClientPc.newTask]
      obtain ⟨task, htask, hplace⟩ := (h.client_place c).links hnew
      exact ⟨task, htask, Or.inr ⟨c, hpc, hplace⟩⟩

theorem worker_notMem (h : Carries tag addresses m s) (hbooks : Books s) {w : Fin n} {p : Nat}
    (hnode : (m.workers w).node = some p) : p ∉ addresses := by
  intro hp
  obtain ⟨task, htask, hremoved⟩ := h.worker_node w p hnode
  obtain ⟨other, hother, hcase⟩ := h.tag_of_mem hp
  obtain rfl : task = other := Option.some.inj (htask.symm.trans hother)
  rcases hcase with hqueued | ⟨c, -, hplace⟩
  · exact hbooks.removed_notMem_queue hremoved hqueued
  · exact hbooks.allocated.links_new c task hplace (hbooks.removed_linked hremoved)

theorem client_notMem (h : Carries tag addresses m s) (hbooks : Books s) {c : Fin k} {p : Nat}
    (hnode : (m.clients c).pc.node = some p) : p ∉ addresses := by
  intro hp
  obtain ⟨task, htask, hplace⟩ := (h.client_place c).links (ClientPc.newTask_of_node hnode)
  obtain ⟨other, hother, hcase⟩ := h.tag_of_mem hp
  obtain rfl : task = other := Option.some.inj (htask.symm.trans hother)
  rcases hcase with hqueued | ⟨d, hpc, hplace'⟩
  · apply hbooks.allocated.links_new c task hplace
    rw [← hbooks.ledger.conserved]
    exact List.mem_append_right _ hqueued
  · obtain rfl := hbooks.allocated.links_inj c d task hplace hplace'
    simp [hpc, ClientPc.node] at hnode

theorem worker_ne_client (h : Carries tag addresses m s) (hbooks : Books s) {w : Fin n}
    {c : Fin k} {p : Nat} (hnode : (m.workers w).node = some p) :
    (m.clients c).pc.newTask ≠ some p := by
  intro hnew
  obtain ⟨task, htask, hremoved⟩ := h.worker_node w p hnode
  obtain ⟨other, hother, hplace⟩ := (h.client_place c).links hnew
  obtain rfl : task = other := Option.some.inj (htask.symm.trans hother)
  exact hbooks.allocated.links_new c task hplace (hbooks.removed_linked hremoved)

theorem worker_inj (h : Carries tag addresses m s) (hbooks : Books s) {v w : Fin n} {p : Nat}
    (hv : (m.workers v).node = some p) (hw : (m.workers w).node = some p) : v = w := by
  obtain ⟨task, htask, hremoved⟩ := h.worker_node v p hv
  obtain ⟨other, hother, hremoved'⟩ := h.worker_node w p hw
  obtain rfl : task = other := Option.some.inj (htask.symm.trans hother)
  exact hbooks.ledger.removed_unique hbooks.allocated hremoved hremoved'

theorem worker_allocated (h : Carries tag addresses m s) {w : Fin n} {p : Nat}
    (hnode : (m.workers w).node = some p) : ∃ node, m.heap p = some node := by
  obtain ⟨task, htask, -⟩ := h.worker_node w p hnode
  have := h.tagged p
  rw [htask] at this
  obtain ⟨node, hnode, -⟩ := Option.map_eq_some_iff.mp this
  exact ⟨node, hnode⟩

end Carries

/-- The machine carries out the pool, and no node is lost. -/
structure Refines (tag : Nat → Option (Task F A)) (addresses : List Nat)
    (m : Machine F A n k) (s : State F A n k) : Prop extends Carries tag addresses m s where
  owned : ∀ p, m.heap p ≠ none → p ∈ addresses ∨ (∃ w, (m.workers w).node = some p) ∨
    ∃ c, (m.clients c).pc.node = some p

namespace Refines

/-- No node is lost where each stays with its owner or comes into the queue. -/
theorem owned_mono (h : Refines tag addresses m s) {l : Machine F A n k} {after : List Nat}
    {p : Nat} (hp : l.heap p ≠ none) (hheap : ∀ q, l.heap q ≠ none → m.heap q ≠ none)
    (hqueue : ∀ q ∈ addresses, q ∈ after)
    (hworkers : ∀ w, (l.workers w).node = (m.workers w).node)
    (hclients : ∀ c q, (m.clients c).pc.node = some q →
      q ∈ after ∨ (l.clients c).pc.node = some q) :
    p ∈ after ∨ (∃ w, (l.workers w).node = some p) ∨ ∃ c, (l.clients c).pc.node = some p := by
  rcases h.owned p (hheap p hp) with hmem | ⟨w, hw⟩ | ⟨c, hc⟩
  · exact Or.inl (hqueue p hmem)
  · exact Or.inr (Or.inl ⟨w, (hworkers w).trans hw⟩)
  · exact (hclients c p hc).imp_right fun hc' => Or.inr ⟨c, hc'⟩

theorem worker (h : Refines tag addresses m s) {w : Fin n} {pc : WorkerPc F A}
    (owner : Option (Thread n k)) (hshared : SameShared s t)
    (hworkers : ∀ v, v ≠ w → t.workers v = s.workers v) (hclients : t.clients = s.clients)
    (howner : ∀ c, owner = some (.inr c) ↔ m.queueLock = some (.inr c))
    (hlock : Excludes (Machine.inside { m.setWorker w pc with queueLock := owner }) owner)
    (hplace : pc.Matches tag (t.workers w)) (hnode : pc.node = (m.workers w).node)
    (hknows : pc.Knows m.taskQueue m.stop) :
    Refines tag addresses { m.setWorker w pc with queueLock := owner } t where
  toCarries := h.toCarries.worker owner hshared hworkers hclients howner hlock hplace
    (fun _ hp => hnode.symm.trans hp) hknows
  owned p hp := by
    refine h.owned_mono hp (fun _ => id) (fun _ => id) (fun v => ?_) fun _ _ => Or.inr
    by_cases hv : v = w
    · simp [hv, hnode]
    · simp [hv]

theorem client (h : Refines tag addresses m s) {c : Fin k} {client : MachineClient F A}
    (owner : Option (Thread n k)) (hshared : SameShared s t) (hworkers : t.workers = s.workers)
    (hclients : ∀ d, d ≠ c → t.clients d = s.clients d)
    (hsettled : (m.clients c).pc.settled = true) (hsettled' : client.pc.settled = true)
    (howner : ∀ d, d ≠ c → (owner = some (.inr d) ↔ m.queueLock = some (.inr d)))
    (hlock : Excludes (Machine.inside
      { m with queueLock := owner, clients := Function.update m.clients c client }) owner)
    (hplace : client.pc.Matches tag (t.clients c).place)
    (hscript : client.script = (t.clients c).script)
    (hnode : client.pc.node = (m.clients c).pc.node)
    (hknows : client.pc.Knows m.taskQueue addresses) :
    Refines tag addresses
      { m with queueLock := owner, clients := Function.update m.clients c client } t where
  toCarries := h.toCarries.client owner hshared hworkers hclients hsettled hsettled' howner hlock
    hplace hscript (fun p hp => h.client_node c p (hnode.symm.trans hp)) hknows
  owned p hp := by
    refine h.owned_mono hp (fun _ => id) (fun _ => id) (fun _ => rfl) fun d q hq => Or.inr ?_
    by_cases hd : d = c
    · subst hd
      simpa [hnode] using hq
    · simpa [hd] using hq

section Threads

variable {w : Fin n} {c : Fin k} {old : WorkerPc F A} {oldPc : ClientPc}

theorem workerStays (h : Refines tag addresses m s) (hpc : m.workers w = old)
    (pc : WorkerPc F A) (hin : pc.inside = old.inside) (hnode : pc.node = old.node)
    (hshared : SameShared s t) (hworkers : ∀ v, v ≠ w → t.workers v = s.workers v)
    (hclients : t.clients = s.clients) (hplace : pc.Matches tag (t.workers w))
    (hknows : pc.Knows m.taskQueue m.stop) : Refines tag addresses (m.setWorker w pc) t := by
  subst hpc
  refine h.worker m.queueLock hshared hworkers hclients (fun _ => Iff.rfl) ?_ hplace hnode hknows
  refine h.lock.stay ?_
  rintro (v | c)
  · by_cases hv : v = w
    · simp [hv, hin]
    · simp [hv]
  · rfl

theorem workerLocks (h : Refines tag addresses m s) (hpc : m.workers w = old)
    (pc : WorkerPc F A) (hfree : m.queueLock = none) (hin : pc.inside = true)
    (hnode : pc.node = old.node) (hplace : pc.Matches tag (s.workers w))
    (hknows : pc.Knows m.taskQueue m.stop) :
    Refines tag addresses { m.setWorker w pc with queueLock := some (.inl w) } s := by
  subst hpc
  refine h.worker _ (.refl s) (fun _ _ => rfl) rfl (by simp [hfree]) ?_ hplace hnode hknows
  have hlock := h.lock
  rw [hfree] at hlock
  refine hlock.acquire (by simpa using hin) ?_
  rintro (v | c) hne
  · have hv : v ≠ w := fun heq => hne (heq ▸ rfl)
    simp [hv]
  · rfl

theorem workerUnlocks (h : Refines tag addresses m s) (hpc : m.workers w = old)
    (pc : WorkerPc F A) (hin : old.inside = true) (hout : pc.inside = false)
    (hnode : pc.node = old.node) (hshared : SameShared s t)
    (hworkers : ∀ v, v ≠ w → t.workers v = s.workers v) (hclients : t.clients = s.clients)
    (hplace : pc.Matches tag (t.workers w)) :
    Refines tag addresses (m.unlock.setWorker w pc) t := by
  subst hpc
  have howns : m.queueLock = some (.inl w) := (h.lock (.inl w)).mp hin
  refine h.worker none hshared hworkers hclients (by simp [howns]) ?_ hplace hnode
    (WorkerPc.knows_of_outside hout _ _)
  have hlock := h.lock
  rw [howns] at hlock
  refine hlock.release (by simpa using hout) ?_
  rintro (v | c) hne
  · have hv : v ≠ w := fun heq => hne (heq ▸ rfl)
    simp [hv]
  · rfl

theorem clientStays (h : Refines tag addresses m s) (hpc : (m.clients c).pc = oldPc)
    (client : MachineClient F A) (hin : client.pc.inside = oldPc.inside)
    (hnode : client.pc.node = oldPc.node) (hsettled : oldPc.settled = true)
    (hsettled' : client.pc.settled = true) (hshared : SameShared s t)
    (hworkers : t.workers = s.workers) (hclients : ∀ d, d ≠ c → t.clients d = s.clients d)
    (hplace : client.pc.Matches tag (t.clients c).place)
    (hscript : client.script = (t.clients c).script)
    (hknows : client.pc.Knows m.taskQueue addresses) :
    Refines tag addresses { m with clients := Function.update m.clients c client } t := by
  subst hpc
  refine h.client m.queueLock hshared hworkers hclients hsettled hsettled' (fun _ _ => Iff.rfl) ?_
    hplace hscript hnode hknows
  refine h.lock.stay ?_
  rintro (w | d)
  · rfl
  · by_cases hd : d = c
    · simp [hd, hin]
    · simp [hd]

theorem clientLocks (h : Refines tag addresses m s) (hpc : (m.clients c).pc = oldPc)
    (pc : ClientPc) (hfree : m.queueLock = none) (hin : pc.inside = true)
    (hnode : pc.node = oldPc.node) (hsettled : oldPc.settled = true)
    (hsettled' : pc.settled = true) (hplace : pc.Matches tag (s.clients c).place)
    (hknows : pc.Knows m.taskQueue addresses) :
    Refines tag addresses { m.setClient c pc with queueLock := some (.inr c) } s := by
  subst hpc
  refine h.client _ (.refl s) rfl (fun _ _ => rfl) hsettled hsettled' ?_ ?_ hplace
    (h.client_script c) hnode hknows
  · intro d hd
    simp [hfree, Ne.symm hd]
  · have hlock := h.lock
    rw [hfree] at hlock
    refine hlock.acquire (by simpa using hin) ?_
    rintro (w | d) hne
    · rfl
    · have hd : d ≠ c := fun heq => hne (heq ▸ rfl)
      simp [hd]

theorem clientUnlocks (h : Refines tag addresses m s) (hpc : (m.clients c).pc = oldPc)
    (pc : ClientPc) (hin : oldPc.inside = true) (hout : pc.inside = false)
    (hnode : pc.node = oldPc.node) (hsettled : oldPc.settled = true)
    (hsettled' : pc.settled = true) (hshared : SameShared s t) (hworkers : t.workers = s.workers)
    (hclients : ∀ d, d ≠ c → t.clients d = s.clients d)
    (hplace : pc.Matches tag (t.clients c).place)
    (hscript : (s.clients c).script = (t.clients c).script) :
    Refines tag addresses (m.unlock.setClient c pc) t := by
  subst hpc
  have howns : m.queueLock = some (.inr c) := (h.lock (.inr c)).mp hin
  refine h.client none hshared hworkers hclients hsettled hsettled' ?_ ?_ hplace
    ((h.client_script c).trans hscript) hnode (ClientPc.knows_of_outside hout _ _)
  · intro d hd
    simp [howns, Ne.symm hd]
  · have hlock := h.lock
    rw [howns] at hlock
    refine hlock.release (by simpa using hout) ?_
    rintro (w | d) hne
    · rfl
    · have hd : d ≠ c := fun heq => hne (heq ▸ rfl)
      simp [hd]

end Threads

end Refines

end ThreadPool

end SystemsProgramming
