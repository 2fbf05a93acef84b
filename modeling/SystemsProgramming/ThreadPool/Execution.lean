/-
The executions of `my_pool.c`, statement by statement, are executions of the pool.  No
thread uses a null pointer or a node that has been freed, and no node is lost.
-/
import SystemsProgramming.ThreadPool.Statements

namespace SystemsProgramming

namespace ThreadPool

variable {F A : Type} {n k : Nat}

/-- How many statements a worker can execute before it commits a step of the pool. -/
@[simp] def WorkerPc.rank : WorkerPc F A → Nat
  | leaves => 5
  | locks | woken => 4
  | tests | frees _ => 3
  | checks | relocks => 2
  | loads | unlocks _ | probes => 1
  | _ => 0

/-- The same for a client; `length` bounds the walk that `tpool_add` has before it. -/
@[simp] def ClientPc.rank (length : Nat) (addresses : List Nat) : ClientPc → Nat
  | addLocks _ => 2 * length + 3
  | addTests _ => 2 * length + 2
  | addLoads _ => 2 * length + 1
  | walks _ (some curr) => 2 * (addresses.length - addresses.idxOf curr)
  | advances _ (some curr) => 2 * (addresses.length - addresses.idxOf curr) - 1
  | waitLocks | woken | stopLocks => 2
  | addFirst _ | unlocks | waitTests | setsStop | stopUnlocks => 1
  | _ => 0

theorem ClientPc.rank_of_outside {pc : ClientPc} (hpc : pc.inside = false) {length : Nat}
    (addresses after : List Nat) : pc.rank length addresses = pc.rank length after := by
  cases pc <;> simp_all [ClientPc.inside]

/-- All threads together, in a machine that carries out the pool in state `s`. -/
def Machine.rank (m : Machine F A n k) (s : State F A n k) (addresses : List Nat) : Nat :=
  ∑ w, (m.workers w).rank + ∑ c, (m.clients c).pc.rank s.taskQueue.length addresses

/-- The step does not fault.  Where it moves, the pool follows with the labels that it
commits, and a silent step comes closer to a commit. -/
def Simulated (scripts : Fin k → List (Call F A)) (m : Machine F A n k) (s : State F A n k)
    (addresses : List Nat) (labels : List (Action n k)) : Effect (Machine F A n k) → Prop
  | .blocked => True
  | .faults => False
  | .moves next => ∃ t, (pool n scripts).run s labels = some t ∧
      ∃ tag after, Refines tag after next t ∧
        (labels = [] → next.rank t after < m.rank s addresses)

section Simulated

variable {scripts : Fin k → List (Call F A)} {tag : Nat → Option (Task F A)}
  {addresses after : List Nat} {s t : State F A n k} {m next : Machine F A n k}

theorem Machine.rank_lt_of_worker {w : Fin n}
    (hworkers : ∀ v, v ≠ w → next.workers v = m.workers v) (hclients : next.clients = m.clients)
    (hless : (next.workers w).rank < (m.workers w).rank) :
    next.rank s addresses < m.rank s addresses := by
  unfold Machine.rank
  rw [hclients]
  refine Nat.add_lt_add_right (Finset.sum_lt_sum (fun v _ => ?_) ⟨w, Finset.mem_univ w, hless⟩) _
  by_cases hv : v = w
  · exact hv ▸ hless.le
  · rw [hworkers v hv]

theorem Machine.rank_lt_of_client {c : Fin k} (hworkers : next.workers = m.workers)
    (hclients : ∀ d, d ≠ c → (next.clients d).pc.rank s.taskQueue.length after =
      (m.clients d).pc.rank s.taskQueue.length addresses)
    (hless : (next.clients c).pc.rank s.taskQueue.length after <
      (m.clients c).pc.rank s.taskQueue.length addresses) :
    next.rank s after < m.rank s addresses := by
  unfold Machine.rank
  rw [hworkers]
  refine Nat.add_lt_add_left (Finset.sum_lt_sum (fun d _ => ?_) ⟨c, Finset.mem_univ c, hless⟩) _
  by_cases hd : d = c
  · exact hd ▸ hless.le
  · exact (hclients d hd).le

theorem Simulated.silent (hnext : Refines tag after next s)
    (hrank : next.rank s after < m.rank s addresses) :
    Simulated scripts m s addresses [] (.moves next) :=
  ⟨s, rfl, tag, after, hnext, fun _ => hrank⟩

theorem Simulated.commit {a : Action n k} (tag : Nat → Option (Task F A)) (after : List Nat)
    (hstep : s.step a = some t) (hnext : Refines tag after next t) :
    Simulated scripts m s addresses [a] (.moves next) := by
  refine ⟨t, ?_, tag, after, hnext, by simp⟩
  simp only [TransitionSystem.run, pool, hstep, Option.bind_some]

theorem Machine.deref_some {p : Nat} {node : TpoolTask F A} (hnode : m.heap p = some node)
    (use : Nat → TpoolTask F A → Machine F A n k) : m.deref (some p) use = .moves (use p node) := by
  simp [Machine.deref, hnode]

end Simulated

section Worker

variable {tag : Nat → Option (Task F A)} {addresses : List Nat} {m : Machine F A n k}
  {s : State F A n k} {w : Fin n}

/-- A statement of a worker that only changes where it is. -/
theorem Refines.workerSilent (h : Refines tag addresses m s) {old : WorkerPc F A}
    (hpc : m.workers w = old) (pc : WorkerPc F A) (hin : pc.inside = old.inside)
    (hnode : pc.node = old.node) (hrank : pc.rank < old.rank)
    (hplace : pc.Matches tag (s.workers w)) (hknows : pc.Knows m.taskQueue m.stop)
    (scripts : Fin k → List (Call F A)) :
    Simulated scripts m s addresses [] (.moves (m.setWorker w pc)) :=
  .silent (h.workerStays hpc pc hin hnode (.refl s) (fun _ _ => rfl) rfl hplace hknows)
    (Machine.rank_lt_of_worker (w := w) (fun v hv => by simp [hv]) rfl (by simpa [hpc] using hrank))

theorem Refines.workerLock (h : Refines tag addresses m s) {old : WorkerPc F A}
    (hpc : m.workers w = old) (pc : WorkerPc F A) (hin : pc.inside = true)
    (hnode : pc.node = old.node) (hrank : pc.rank < old.rank)
    (hplace : pc.Matches tag (s.workers w)) (hknows : pc.Knows m.taskQueue m.stop)
    (scripts : Fin k → List (Call F A)) :
    Simulated scripts m s addresses [] (m.lock (.inl w) (m.setWorker w pc)) := by
  unfold Machine.lock
  split
  · next hfree =>
      exact .silent (h.workerLocks hpc pc hfree hin hnode hplace hknows)
        (Machine.rank_lt_of_worker (w := w) (fun v hv => by simp [hv]) rfl
          (by simpa [hpc] using hrank))
  · trivial

theorem Refines.workerUnlock (h : Refines tag addresses m s) {old : WorkerPc F A}
    (hpc : m.workers w = old) (pc : WorkerPc F A) (hin : old.inside = true)
    (hout : pc.inside = false) (hnode : pc.node = old.node) (hrank : pc.rank < old.rank)
    (hplace : pc.Matches tag (s.workers w)) (scripts : Fin k → List (Call F A)) :
    Simulated scripts m s addresses [] (.moves (m.unlock.setWorker w pc)) :=
  .silent (h.workerUnlocks hpc pc hin hout hnode (.refl s) (fun _ _ => rfl) rfl hplace)
    (Machine.rank_lt_of_worker (w := w) (fun v hv => by simp [hv]) rfl (by simpa [hpc] using hrank))

/-- The nodes of the queue and the queue of the pool, while no client is inside. -/
theorem Carries.queue_of_worker (h : Carries tag addresses m s)
    (hin : (m.workers w).inside = true) :
    addresses.map tag = s.taskQueue.map some ∧ m.stop = s.stop := by
  have hqueue := h.queue
  have hstop := h.stop
  rw [h.ownerPc_of_worker hin] at hqueue hstop
  constructor
  · simpa [ClientPc.pendingNodes] using hqueue
  · simpa [ClientPc.stopPending] using hstop

theorem Carries.worker_queue_nil_iff (h : Carries tag addresses m s)
    (hin : (m.workers w).inside = true) : s.taskQueue = [] ↔ m.taskQueue = none := by
  rw [h.chain.eq_none_iff]
  have hqueue := (h.queue_of_worker hin).1
  constructor
  · rintro hnil
    simpa [hnil] using hqueue
  · rintro rfl
    simpa using hqueue.symm

theorem step_workerTest (hplace : s.workers w = .top ∨ s.workers w = .woken) :
    s.step (.worker w) = some (s.workerTest w) := by
  rcases hplace with hplace | hplace <;> simp [State.step, State.workerStep, hplace]

theorem workerStep_simulated (scripts : Fin k → List (Call F A))
    (h : Refines tag addresses m s) (hbooks : Books s) (w : Fin n) :
    Simulated scripts m s addresses (commits m (.worker w)) (m.workerStep w) := by
  have hplace := h.worker_place w
  have hknows := h.worker_knows w
  cases hpc : m.workers w <;> simp only [Machine.workerStep, commits, hpc] <;>
    rw [hpc] at hplace hknows
  case unborn | asleep | exited | signals => trivial
  case locks =>
    exact h.workerLock hpc .tests rfl rfl (by simp) (Or.inl hplace) trivial scripts
  case woken =>
    exact h.workerLock hpc .tests rfl rfl (by simp) (Or.inr hplace) trivial scripts
  case tests =>
    split
    · next htest => exact h.workerSilent hpc .sleeps rfl rfl (by simp) hplace htest scripts
    · next htest =>
        refine h.workerSilent hpc .checks rfl rfl (by simp) hplace ?_ scripts
        simpa [WorkerPc.Knows, imp_iff_not_or] using htest
  case sleeps =>
    have hin : (m.workers w).inside = true := by rw [hpc]; rfl
    have hqueue := (h.worker_queue_nil_iff hin).mpr hknows.1
    have hstop := (h.queue_of_worker hin).2.symm.trans hknows.2
    refine .commit tag addresses (t := s.setWorker w .asleep) ?_ ?_
    · rw [step_workerTest hplace]
      simp [State.workerTest, hstop, hqueue]
    · exact h.workerUnlocks hpc .asleep rfl rfl rfl ⟨rfl, rfl, rfl, rfl, rfl⟩
        (fun v hv => by simp [hv]) rfl (by simp [WorkerPc.Matches])
  case checks =>
    split
    · next hstop => exact h.workerSilent hpc .quits rfl rfl (by simp) hplace hstop scripts
    · next hstop =>
        have hstop' : m.stop = false := by simpa using hstop
        have hqueue : m.taskQueue ≠ none := by simpa [WorkerPc.Knows, hstop'] using hknows
        exact h.workerSilent hpc .loads rfl rfl (by simp) hplace ⟨hqueue, hstop'⟩ scripts
  case quits =>
    have hin : (m.workers w).inside = true := by rw [hpc]; rfl
    have hstop : s.stop = true := (h.queue_of_worker hin).2.symm.trans hknows
    refine .commit tag addresses (t := s.setWorker w .stopping) ?_ ?_
    · rw [step_workerTest hplace]
      simp [State.workerTest, hstop]
    · exact h.workerUnlocks hpc .stopping rfl rfl rfl ⟨rfl, rfl, rfl, rfl, rfl⟩
        (fun v hv => by simp [hv]) rfl (by simp [WorkerPc.Matches])
  case stopping =>
    replace hplace : s.workers w = .stopping := hplace
    refine .commit tag addresses (t := s.setWorker w .exited)
      (by simp [State.step, State.workerStep, hplace]) ?_
    exact h.workerStays hpc .exited rfl rfl ⟨rfl, rfl, rfl, rfl, rfl⟩ (fun v hv => by simp [hv])
      rfl (by simp [WorkerPc.Matches]) trivial
  case loads =>
    exact h.workerSilent hpc (.pops m.taskQueue) rfl rfl (by simp) hplace ⟨rfl, hknows⟩ scripts
  case pops pointer =>
    obtain ⟨rfl, hqueue, hstop⟩ := hknows
    have hin : (m.workers w).inside = true := by rw [hpc]; rfl
    obtain ⟨hnodes, hstop'⟩ := h.queue_of_worker hin
    obtain ⟨p, hp⟩ := Option.ne_none_iff_exists'.mp hqueue
    have hchain := h.chain
    rw [hp] at hchain
    obtain ⟨node, rest, haddresses, hnode, hrest⟩ := Chain.some_iff.mp hchain
    obtain ⟨task, tasks, htasks⟩ : ∃ task tasks, s.taskQueue = task :: tasks := by
      apply List.exists_cons_of_ne_nil
      rintro hnil
      simp [hnil, haddresses] at hnodes
    rw [hp, Machine.deref_some hnode]
    refine .commit tag rest ?_ (h.take hpc haddresses hnode hrest htasks)
    rw [step_workerTest hplace]
    simp [State.workerTest, htasks, hstop'.symm.trans hstop]
  case unlocks p =>
    exact h.workerUnlock hpc (.calls p) rfl rfl rfl (by simp) hplace scripts
  case calls p =>
    obtain ⟨task, htask, hholds⟩ := hplace
    obtain ⟨node, hnode⟩ := h.worker_allocated (w := w) (p := p) (by rw [hpc]; rfl)
    have hjob : node.job = task.job := by
      have := h.tagged p
      rw [hnode, htask] at this
      exact Option.some.inj this
    rw [Machine.deref_some hnode]
    refine .commit tag addresses
      (t := { s with started := s.started ++ [task] }.setWorker w (.runs task))
      (by simp [State.step, State.workerStep, hholds]) ?_
    exact h.workerStays hpc (.runs p node.func node.arg) rfl rfl ⟨rfl, rfl, rfl, rfl, rfl⟩
      (fun v hv => by simp [hv]) rfl ⟨task, htask, hjob.symm, by simp⟩ trivial
  case runs p func arg =>
    obtain ⟨task, htask, -, hruns⟩ := hplace
    refine .commit tag addresses (t := { s with finished := s.finished ++ [task] }.setWorker w .ran)
      (by simp [State.step, State.workerStep, hruns]) ?_
    exact h.workerStays hpc (.frees p) rfl rfl ⟨rfl, rfl, rfl, rfl, rfl⟩
      (fun v hv => by simp [hv]) rfl (by simp [WorkerPc.Matches]) trivial
  case frees p =>
    obtain ⟨node, hnode⟩ := h.worker_allocated (w := w) (p := p) (by rw [hpc]; rfl)
    rw [Machine.deref_some hnode]
    refine .silent (h.free hbooks hpc) (Machine.rank_lt_of_worker (w := w) (fun v hv => ?_) rfl ?_)
    · simp [hv]
    · simp [hpc, WorkerPc.rank]
  case relocks =>
    exact h.workerLock hpc .probes rfl rfl (by simp) hplace trivial scripts
  case probes =>
    have hin : (m.workers w).inside = true := by rw [hpc]; rfl
    replace hplace : s.workers w = .ran := hplace
    by_cases hqueue : m.taskQueue = none
    · simp only [hqueue, ↓reduceIte]
      exact h.workerSilent hpc .signals rfl rfl (by simp) hplace hqueue scripts
    · simp only [hqueue, ↓reduceIte]
      have hqueue' : s.taskQueue ≠ [] := fun hnil =>
        hqueue ((h.worker_queue_nil_iff hin).mp hnil)
      refine .commit tag addresses (t := s.setWorker w .top) ?_ ?_
      · simp [State.step, State.workerReport, hplace, hqueue']
      · exact h.workerStays hpc .leaves rfl rfl ⟨rfl, rfl, rfl, rfl, rfl⟩
          (fun v hv => by simp [hv]) rfl (by simp [WorkerPc.Matches]) trivial
  case leaves =>
    exact h.workerUnlock hpc .locks rfl rfl rfl (by simp) hplace scripts

end Worker

section Client

variable {tag : Nat → Option (Task F A)} {addresses : List Nat} {m : Machine F A n k}
  {s : State F A n k} {c : Fin k}

/-- A statement of a client that only changes where it is. -/
theorem Refines.clientSilent (h : Refines tag addresses m s) {old : ClientPc}
    (hpc : (m.clients c).pc = old) (pc : ClientPc) (hin : pc.inside = old.inside)
    (hnode : pc.node = old.node) (hsettled : old.settled = true) (hsettled' : pc.settled = true)
    (hrank : pc.rank s.taskQueue.length addresses < old.rank s.taskQueue.length addresses)
    (hplace : pc.Matches tag (s.clients c).place) (hknows : pc.Knows m.taskQueue addresses)
    (scripts : Fin k → List (Call F A)) :
    Simulated scripts m s addresses [] (.moves (m.setClient c pc)) :=
  .silent (h.clientStays hpc { m.clients c with pc := pc } hin hnode hsettled hsettled' (.refl s)
      rfl (fun _ _ => rfl) hplace (h.client_script c) hknows)
    (Machine.rank_lt_of_client (c := c) rfl (fun d hd => by simp [hd]) (by simpa [hpc] using hrank))

theorem Refines.clientLock (h : Refines tag addresses m s) {old : ClientPc}
    (hpc : (m.clients c).pc = old) (pc : ClientPc) (hin : pc.inside = true)
    (hnode : pc.node = old.node) (hsettled : old.settled = true) (hsettled' : pc.settled = true)
    (hrank : pc.rank s.taskQueue.length addresses < old.rank s.taskQueue.length addresses)
    (hplace : pc.Matches tag (s.clients c).place) (hknows : pc.Knows m.taskQueue addresses)
    (scripts : Fin k → List (Call F A)) :
    Simulated scripts m s addresses [] (m.lock (.inr c) (m.setClient c pc)) := by
  unfold Machine.lock
  split
  · next hfree =>
      exact .silent (h.clientLocks hpc pc hfree hin hnode hsettled hsettled' hplace hknows)
        (Machine.rank_lt_of_client (c := c) rfl (fun d hd => by simp [hd])
          (by simpa [hpc] using hrank))
  · trivial

theorem Refines.clientUnlock (h : Refines tag addresses m s) {old : ClientPc}
    (hpc : (m.clients c).pc = old) (pc : ClientPc) (hin : old.inside = true)
    (hout : pc.inside = false) (hnode : pc.node = old.node) (hsettled : old.settled = true)
    (hsettled' : pc.settled = true)
    (hrank : pc.rank s.taskQueue.length addresses < old.rank s.taskQueue.length addresses)
    (hplace : pc.Matches tag (s.clients c).place) (scripts : Fin k → List (Call F A)) :
    Simulated scripts m s addresses [] (.moves (m.unlock.setClient c pc)) :=
  .silent (h.clientUnlocks hpc pc hin hout hnode hsettled hsettled' (.refl s) rfl (fun _ _ => rfl)
      hplace rfl)
    (Machine.rank_lt_of_client (c := c) rfl (fun d hd => by simp [hd]) (by simpa [hpc] using hrank))

theorem Carries.queue_of_client (h : Carries tag addresses m s)
    (hin : (m.clients c).pc.inside = true) (hsettled : (m.clients c).pc.settled = true) :
    addresses.map tag = s.taskQueue.map some := by
  have hqueue := h.queue
  rw [Machine.ownerPc_of_client ((h.lock (.inr c)).mp hin),
    (ClientPc.settled_iff.mp hsettled).1] at hqueue
  simpa using hqueue

theorem Carries.client_queue_nil_iff (h : Carries tag addresses m s)
    (hin : (m.clients c).pc.inside = true) (hsettled : (m.clients c).pc.settled = true) :
    s.taskQueue = [] ↔ m.taskQueue = none := by
  rw [h.chain.eq_none_iff]
  have hqueue := h.queue_of_client hin hsettled
  constructor
  · rintro hnil
    simpa [hnil] using hqueue
  · rintro rfl
    simpa using hqueue.symm

/-- The walk has come as far as the nodes before `curr`. -/
theorem Carries.idxOf_curr (h : Carries tag addresses m s) {before after : List Nat} {curr : Nat}
    (haddresses : addresses = before ++ curr :: after) :
    addresses.idxOf curr = before.length := by
  have hnodup := h.chain.nodup
  rw [haddresses, List.nodup_append] at hnodup
  have hnot : curr ∉ before := fun hmem => hnodup.2.2 curr hmem curr List.mem_cons_self rfl
  rw [haddresses, List.idxOf_append_of_notMem hnot, List.idxOf_cons_self, Nat.add_zero]

theorem step_client (hcreated : s.created = n) : s.step (.client c) = s.clientStep c := by
  simp [State.step, hcreated]

theorem clientCall_simulated (scripts : Fin k → List (Call F A))
    (h : Refines tag addresses m s) (hcreated : s.created = n) (hpc : (m.clients c).pc = .idle) :
    Simulated scripts m s addresses [.client c] (m.clientCall c) := by
  have hplace : (s.clients c).place = .idle := by
    simpa [hpc, ClientPc.Matches] using h.client_place c
  have hscript := h.client_script c
  unfold Machine.clientCall
  split
  · trivial
  · trivial
  · next rest hwait =>
      refine .commit tag addresses (t := s.setClient c ⟨.waits s.linked, rest⟩) ?_ ?_
      · rw [step_client hcreated]
        simp [State.clientStep, State.clientCall, hplace, ← hscript, hwait]
      · exact h.clientStays hpc ⟨.waitLocks, rest⟩ rfl rfl rfl rfl ⟨rfl, rfl, rfl, rfl, rfl⟩ rfl
          (fun d hd => by simp [hd]) ⟨s.linked, by simp⟩ (by simp) trivial
  · next rest hdestroy =>
      refine .commit tag addresses (t := s.setClient c ⟨.stops, rest⟩) ?_ ?_
      · rw [step_client hcreated]
        simp [State.clientStep, State.clientCall, hplace, ← hscript, hdestroy]
      · exact h.clientStays hpc ⟨.stopLocks, rest⟩ rfl rfl rfl rfl ⟨rfl, rfl, rfl, rfl, rfl⟩ rfl
          (fun d hd => by simp [hd]) (by simp [ClientPc.Matches]) (by simp) trivial

theorem joinStep_simulated (scripts : Fin k → List (Call F A))
    (h : Refines tag addresses m s) (hcreated : s.created = n) {i : Nat}
    (hpc : (m.clients c).pc = .joins i) :
    Simulated scripts m s addresses [.client c] (m.joinStep c i) := by
  have hplace : (s.clients c).place = .joins i := by
    simpa [hpc, ClientPc.Matches] using h.client_place c
  unfold Machine.joinStep
  split
  · next hi =>
      split
      · next hexited =>
          have hworker : s.workers ⟨i, hi⟩ = .exited := by
            have hmatches := h.worker_place ⟨i, hi⟩
            revert hexited
            cases hw : m.workers ⟨i, hi⟩ <;> simp_all [WorkerPc.Matches]
          refine .commit tag addresses
            (t := s.setClient c { s.clients c with place := .joins (i + 1) }) ?_ ?_
          · rw [step_client hcreated]
            simp [State.clientStep, State.joinStep, hplace, hi, hworker]
          · exact h.clientStays hpc { m.clients c with pc := .joins (i + 1) } rfl rfl rfl rfl
              ⟨rfl, rfl, rfl, rfl, rfl⟩ rfl (fun d hd => by simp [hd]) (by simp [ClientPc.Matches])
              (by simpa using h.client_script c) trivial
      · trivial
  · next hi =>
      refine .commit tag addresses (t := s.setClient c { s.clients c with place := .frees }) ?_ ?_
      · rw [step_client hcreated]
        simp [State.clientStep, State.joinStep, hplace, hi]
      · exact h.clientStays hpc { m.clients c with pc := .frees } rfl rfl rfl rfl
          ⟨rfl, rfl, rfl, rfl, rfl⟩ rfl (fun d hd => by simp [hd]) (by simp [ClientPc.Matches])
          (by simpa using h.client_script c) trivial

theorem clientStep_simulated (scripts : Fin k → List (Call F A))
    (h : Refines tag addresses m s) (hbooks : Books s) (hcreated : m.created = n) (c : Fin k) :
    Simulated scripts m s addresses (commits m (.client c)) (m.clientStep c) := by
  have hcreated' : s.created = n := h.created.symm.trans hcreated
  have hplace := h.client_place c
  have hknows := h.client_knows c
  cases hpc : (m.clients c).pc <;> simp only [Machine.clientStep, commits, hpc] <;>
    rw [hpc] at hplace hknows
  case asleep => trivial
  case idle => exact clientCall_simulated scripts h hcreated' hpc
  case joins i => exact joinStep_simulated scripts h hcreated' hpc
  case addLocks p =>
    exact h.clientLock hpc (.addTests p) rfl rfl rfl rfl (by simp) hplace trivial scripts
  case addTests p =>
    split
    · next hqueue =>
        exact h.clientSilent hpc (.addFirst p) rfl rfl rfl rfl (by simp) hplace hqueue scripts
    · next hqueue =>
        exact h.clientSilent hpc (.addLoads p) rfl rfl rfl rfl (by simp) hplace hqueue scripts
  case addFirst p =>
    have hin : (m.clients c).pc.inside = true := by rw [hpc]; rfl
    refine .silent (h.storeFirst hpc) (Machine.rank_lt_of_client (c := c) rfl (fun d hd => ?_) ?_)
    · have hout := h.client_outside (t := .inr c) hin fun heq => hd (Sum.inr.inj heq).symm
      simpa only [Machine.setClient_clients, hd, ↓reduceIte] using
        ClientPc.rank_of_outside hout [p] addresses
    · simp [hpc]
  case addBroadcasts p =>
    obtain ⟨task, hlinks, hempty, hnext⟩ := h.announceFirst hpc
    refine .commit tag _ ?_ hnext
    rw [step_client hcreated']
    simp [State.clientStep, State.tpoolAdd, hlinks, hempty]
  case addLoads p =>
    obtain ⟨q, hq⟩ := Option.ne_none_iff_exists'.mp hknows
    have hchain := h.chain
    rw [hq] at hchain
    obtain ⟨-, rest, haddresses, -, -⟩ := Chain.some_iff.mp hchain
    have hlength : addresses.length = s.taskQueue.length := by
      simpa using congrArg List.length
        (h.queue_of_client (c := c) (by rw [hpc]; rfl) (by rw [hpc]; rfl))
    rw [hq]
    refine h.clientSilent hpc (.walks p (some q)) rfl rfl rfl rfl ?_ hplace
      ⟨[], q, rest, rfl, haddresses⟩ scripts
    simp only [ClientPc.rank, hlength]
    omega
  case walks p curr =>
    obtain ⟨before, q, after, rfl, haddresses⟩ := hknows
    have hcurr := h.idxOf_curr haddresses
    have hlength := congrArg List.length haddresses
    rw [List.length_append, List.length_cons] at hlength
    have hchain := h.chain
    rw [haddresses] at hchain
    obtain ⟨node, rest, hcons, hnode, hrest⟩ := Chain.some_iff.mp hchain.suffix
    obtain ⟨-, rfl⟩ := List.cons.inj hcons
    rw [Machine.deref_some hnode]
    cases after with
    | nil =>
        have hnext : node.next = none := hrest.eq_none_iff.mpr rfl
        simp only [hnext, ne_eq, not_true, ↓reduceIte]
        refine h.clientSilent hpc (.links p (some q)) rfl rfl rfl rfl ?_ hplace
          ⟨before, q, rfl, haddresses⟩ scripts
        simp only [ClientPc.rank, hcurr]
        omega
    | cons r after =>
        have hnext : node.next ≠ none := fun hnone => by simpa using hrest.eq_none_iff.mp hnone
        rw [if_pos hnext]
        refine h.clientSilent hpc (.advances p (some q)) rfl rfl rfl rfl ?_ hplace
          ⟨before, q, r, after, rfl, haddresses⟩ scripts
        simp only [ClientPc.rank, hcurr]
        omega
  case advances p curr =>
    obtain ⟨before, q, r, after, rfl, haddresses⟩ := hknows
    have hchain := h.chain
    rw [haddresses] at hchain
    obtain ⟨node, rest, hcons, hnode, hrest⟩ := Chain.some_iff.mp hchain.suffix
    obtain ⟨-, rfl⟩ := List.cons.inj hcons
    rw [Machine.deref_some hnode]
    have hnext : node.next = some r := hrest.start_eq
    have hon : addresses = (before ++ [q]) ++ r :: after := by simp [haddresses]
    have hcurr := h.idxOf_curr haddresses
    have hlength := congrArg List.length haddresses
    simp only [List.length_append, List.length_cons] at hlength
    have hcurr' := h.idxOf_curr hon
    rw [List.length_append, List.length_singleton] at hcurr'
    rw [hnext]
    refine h.clientSilent hpc (.walks p (some r)) rfl rfl rfl rfl ?_ hplace
      ⟨before ++ [q], r, after, rfl, hon⟩ scripts
    simp only [ClientPc.rank, hcurr, hcurr']
    omega
  case links p curr =>
    obtain ⟨front, last, rfl, haddresses⟩ := hknows
    obtain ⟨node, hnode⟩ := h.chain.allocated (by simp [haddresses] : last ∈ addresses)
    obtain ⟨task, hlinks, hqueue, hnext⟩ := h.storeLast hbooks hpc haddresses hnode
    rw [Machine.deref_some hnode]
    refine .commit tag _ ?_ hnext
    obtain ⟨first, tasks, htasks⟩ := List.exists_cons_of_ne_nil hqueue
    rw [step_client hcreated']
    simp [State.clientStep, State.tpoolAdd, hlinks, htasks]
  case unlocks =>
    exact h.clientUnlock hpc .idle rfl rfl rfl rfl rfl (by simp) hplace scripts
  case waitLocks =>
    obtain ⟨before, hwaits⟩ := hplace
    exact h.clientLock hpc .waitTests rfl rfl rfl rfl (by simp) ⟨before, Or.inl hwaits⟩ trivial
      scripts
  case woken =>
    obtain ⟨before, hwoken⟩ := hplace
    exact h.clientLock hpc .waitTests rfl rfl rfl rfl (by simp) ⟨before, Or.inr hwoken⟩ trivial
      scripts
  case waitTests =>
    by_cases hqueue : m.taskQueue = none
    · simp only [hqueue, ne_eq, not_true, ↓reduceIte]
      obtain ⟨before, hwaits⟩ := hplace
      have hempty : s.taskQueue = [] :=
        (h.client_queue_nil_iff (c := c) (by rw [hpc]; rfl) (by rw [hpc]; rfl)).mpr hqueue
      refine .commit tag addresses (t := s.setClient c { s.clients c with place := .idle }) ?_ ?_
      · rw [step_client hcreated']
        rcases hwaits with hwaits | hwaits <;>
          simp [State.clientStep, State.tpoolWait, hwaits, hempty]
      · exact h.clientStays hpc { m.clients c with pc := .unlocks } rfl rfl rfl rfl
          ⟨rfl, rfl, rfl, rfl, rfl⟩ rfl (fun d hd => by simp [hd]) (by simp [ClientPc.Matches])
          (by simpa using h.client_script c) trivial
    · simp only [hqueue, ne_eq, not_false_eq_true, ↓reduceIte]
      exact h.clientSilent hpc .waitSleeps rfl rfl rfl rfl (by simp) hplace hqueue scripts
  case waitSleeps =>
    obtain ⟨before, hwaits⟩ := hplace
    have hqueue : s.taskQueue ≠ [] := fun hnil => hknows
      ((h.client_queue_nil_iff (c := c) (by rw [hpc]; rfl) (by rw [hpc]; rfl)).mp hnil)
    refine .commit tag addresses
      (t := s.setClient c { s.clients c with place := .asleep before }) ?_ ?_
    · rw [step_client hcreated']
      rcases hwaits with hwaits | hwaits <;>
        simp [State.clientStep, State.tpoolWait, hwaits, hqueue]
    · exact h.clientUnlocks hpc .asleep rfl rfl rfl rfl rfl ⟨rfl, rfl, rfl, rfl, rfl⟩ rfl
        (fun d hd => by simp [hd]) ⟨before, by simp⟩ (by simp)
  case stopLocks =>
    exact h.clientLock hpc .setsStop rfl rfl rfl rfl (by simp) hplace trivial scripts
  case setsStop =>
    refine .silent (h.setStop hpc) (Machine.rank_lt_of_client (c := c) rfl (fun d hd => ?_) ?_)
    · simp [hd]
    · simp [hpc]
  case stopBroadcasts =>
    replace hplace : (s.clients c).place = .stops := hplace
    refine .commit tag _ ?_ (h.announceStop hpc)
    rw [step_client hcreated']
    simp [State.clientStep, hplace]
  case stopUnlocks =>
    exact h.clientUnlock hpc (.joins 0) rfl rfl rfl rfl rfl (by simp) hplace scripts
  case frees =>
    replace hplace : (s.clients c).place = .frees := hplace
    refine .commit tag addresses (t := { s with freed := true }.setClient c
      { s.clients c with place := .destroys }) ?_ ?_
    · rw [step_client hcreated']
      simp [State.clientStep, hplace]
    · have hmoved := h.clientStays (t := s.setClient c { s.clients c with place := .destroys }) hpc
        { m.clients c with pc := .destroys } rfl rfl rfl rfl ⟨rfl, rfl, rfl, rfl, rfl⟩ rfl
        (fun d hd => by simp [hd]) (by simp [ClientPc.Matches]) (by simpa using h.client_script c)
        trivial
      exact { hmoved with freed := rfl }
  case destroys =>
    replace hplace : (s.clients c).place = .destroys := hplace
    refine .commit tag addresses (t := s.setClient c { s.clients c with place := .idle }) ?_ ?_
    · rw [step_client hcreated']
      simp [State.clientStep, hplace]
    · exact h.clientStays hpc { m.clients c with pc := .idle } rfl rfl rfl rfl
        ⟨rfl, rfl, rfl, rfl, rfl⟩ rfl (fun d hd => by simp [hd]) (by simp [ClientPc.Matches])
        (by simpa using h.client_script c) trivial

end Client

end ThreadPool

end SystemsProgramming
