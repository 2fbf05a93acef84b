/-
The pool does a bounded amount of work.  Each call of a client pays for the steps that it
can make the threads take, and a step that is not a spurious wake-up spends one unit.
-/
import SystemsProgramming.ThreadPool.Program
import SystemsProgramming.Refinement

namespace SystemsProgramming

namespace ThreadPool

variable {F A : Type} {n k : Nat}

/-- The steps a worker can take before it sleeps or exits. -/
@[simp] def WorkerAt.weight : WorkerAt F A → Nat
  | unborn => 3
  | top | woken => 2
  | stopping => 1
  | asleep | exited => 0
  | ran => 4
  | runs _ => 5
  | holds _ => 6

/-- What a call pays for: a broadcast wakes up to `n` workers, and a task takes five steps. -/
@[simp] def Call.weight (n : Nat) : Call F A → Nat
  | add _ _ => 2 * n + 7
  | wait => 2
  | destroy => 3 * n + 5

@[simp] def ClientAt.weight (n : Nat) : ClientAt F A → Nat
  | idle | asleep _ => 0
  | links _ => 2 * n + 6
  | waits _ | woken _ => 1
  | stops => 3 * n + 4
  | joins i => n - i + 3
  | frees => 2
  | destroys => 1

@[simp] def Client.weight (n : Nat) (client : Client F A) : Nat :=
  client.place.weight n + (client.script.map (Call.weight n)).sum

/-- What is left on the account. -/
def State.weight (s : State F A n k) : Nat :=
  ∑ w, (s.workers w).weight + ∑ c, (s.clients c).weight n + 5 * s.taskQueue.length

/-- What the account of a sum changes by when one place changes. -/
theorem sum_update_add {I B : Type*} [Fintype I] [DecidableEq I] (f : I → B) (weight : B → Nat)
    (i : I) (b : B) :
    ∑ j, weight (Function.update f i b j) + weight (f i) = ∑ j, weight (f j) + weight b := by
  rw [← Finset.sum_erase_add _ _ (Finset.mem_univ i),
    ← Finset.sum_erase_add Finset.univ (fun j => weight (f j)) (Finset.mem_univ i)]
  have hrest : ∑ j ∈ Finset.univ.erase i, weight (Function.update f i b j) =
      ∑ j ∈ Finset.univ.erase i, weight (f j) := by
    refine Finset.sum_congr rfl fun j hj => ?_
    rw [Function.update_of_ne (Finset.ne_of_mem_erase hj)]
  rw [hrest, Function.update_self]
  omega

theorem State.weight_setWorker (s : State F A n k) (w : Fin n) (p : WorkerAt F A) :
    (s.setWorker w p).weight + (s.workers w).weight = s.weight + p.weight := by
  have hsum := sum_update_add s.workers WorkerAt.weight w p
  simp only [State.weight, State.setWorker]
  omega

theorem State.weight_setClient (s : State F A n k) (c : Fin k) (client : Client F A) :
    (s.setClient c client).weight + (s.clients c).weight n = s.weight + client.weight n := by
  have hsum := sum_update_add s.clients (Client.weight n) c client
  simp only [State.weight, State.setClient]
  omega

/-- A broadcast gives each sleeping worker two units. -/
theorem State.weight_broadcastNotEmpty (s : State F A n k) :
    s.broadcastNotEmpty.weight ≤ s.weight + 2 * n := by
  have hone : ∀ w ∈ (Finset.univ : Finset (Fin n)),
      (s.workers w).wake.weight ≤ (s.workers w).weight + 2 := by
    intro w _
    cases s.workers w <;> simp [WorkerAt.wake]
  have hsum := Finset.sum_le_sum hone
  rw [Finset.sum_add_distrib, Finset.sum_const, Finset.card_univ, Fintype.card_fin,
    smul_eq_mul] at hsum
  simp only [State.weight, State.broadcastNotEmpty]
  omega

/-- A worker that moves from a heavier place to a lighter one spends a unit. -/
theorem State.weight_setWorker_lt {s s' : State F A n k} {w : Fin n} {p : WorkerAt F A}
    (hweight : s'.weight = s.weight) (hworkers : s'.workers = s.workers)
    (hless : p.weight < (s.workers w).weight) : 1 + (s'.setWorker w p).weight ≤ s.weight := by
  have hmoved := s'.weight_setWorker w p
  rw [hworkers] at hmoved
  omega

theorem State.weight_setClient_lt {s s' : State F A n k} {c : Fin k} {client : Client F A}
    (hweight : s'.weight = s.weight) (hclients : s'.clients = s.clients)
    (hless : client.weight n < (s.clients c).weight n) :
    1 + (s'.setClient c client).weight ≤ s.weight := by
  have hmoved := s'.weight_setClient c client
  rw [hclients] at hmoved
  omega

/-- A client that announces a change pays for the workers that it wakes up. -/
theorem State.weight_announce_lt {s s' : State F A n k} {c : Fin k} {client : Client F A}
    (hclients : s'.clients = s.clients)
    (hpaid : s'.weight + client.weight n + 2 * n < s.weight + (s.clients c).weight n) :
    1 + (s'.broadcastNotEmpty.setClient c client).weight ≤ s.weight := by
  have hbroadcast := s'.weight_broadcastNotEmpty
  have hmoved := s'.broadcastNotEmpty.weight_setClient c client
  rw [show s'.broadcastNotEmpty.clients = s.clients from hclients] at hmoved
  omega

/-- Each step spends a unit, and a spurious wake-up pays in what it costs. -/
theorem Moves.weight_le {s t : State F A n k} {a : Action n k} (hboot : Booted s)
    (hmove : Moves s a t) :
    (if a.isSpurious then 0 else 1) + t.weight ≤ s.weight + (if a.isSpurious then 2 else 0) := by
  cases hmove with
  | create h =>
      have hunborn : s.workers ⟨s.created, h⟩ = .unborn := (hboot.unborn _).mpr (Nat.le_refl _)
      exact State.weight_setWorker_lt rfl rfl (by simp [hunborn])
  | sleep w hplace | quit w hplace =>
      refine State.weight_setWorker_lt rfl rfl ?_
      rcases hplace with h | h <;> simp [h]
  | take w task rest hplace _ hqueue =>
      have hmoved := State.weight_setWorker
        { s with taskQueue := rest, removed := s.removed ++ [(w, task)] } w (.holds task)
      have hplace' : (s.workers w).weight = 2 := by rcases hplace with h | h <;> simp [h]
      have hpaid : s.weight =
          { s with taskQueue := rest, removed := s.removed ++ [(w, task)] }.weight + 5 := by
        simp only [State.weight, hqueue, List.length_cons]
        omega
      rw [show (State.workers { s with taskQueue := rest, removed := s.removed ++ [(w, task)] }
        w).weight = 2 from hplace', WorkerAt.weight] at hmoved
      simp only [Action.isSpurious, Bool.false_eq_true, ↓reduceIte]
      omega
  | exit w hplace | call w _ hplace | finish w _ hplace | report w hplace =>
      exact State.weight_setWorker_lt rfl rfl (by simp [hplace])
  | signal w c before hplace _ hasleep =>
      have hworker := s.weight_setWorker w .top
      have hclient := (s.setWorker w .top).weight_setClient c
        { s.clients c with place := .woken before }
      simp only [hplace, WorkerAt.weight, State.setWorker_clients, Client.weight, hasleep,
        ClientAt.weight] at hworker hclient
      simp only [Action.isSpurious, Bool.false_eq_true, ↓reduceIte]
      omega
  | callAdd c func arg rest _ hplace hscript =>
      refine State.weight_setClient_lt rfl rfl ?_
      simp only [Client.weight, hplace, hscript, ClientAt.weight, List.map_cons, List.sum_cons,
        Call.weight]
      omega
  | callWait c rest _ hplace hscript | callDestroy c rest _ hplace hscript =>
      refine State.weight_setClient_lt rfl rfl ?_
      simp only [Client.weight, hplace, hscript, ClientAt.weight, List.map_cons, List.sum_cons,
        Call.weight]
      omega
  | linkFirst c task _ hplace hqueue =>
      refine State.weight_announce_lt rfl ?_
      have hqueued : { s with taskQueue := [task], linked := s.linked ++ [task] }.weight =
          s.weight + 5 := by
        simp [State.weight, hqueue]
      simp only [Client.weight, hplace, ClientAt.weight]
      omega
  | linkLast c task _ hplace =>
      have hmoved := State.weight_setClient
        { s with taskQueue := s.taskQueue ++ [task], linked := s.linked ++ [task] } c
        { s.clients c with place := .idle }
      have hqueued : { s with taskQueue := s.taskQueue ++ [task],
                              linked := s.linked ++ [task] }.weight = s.weight + 5 := by
        simp only [State.weight, List.length_append, List.length_singleton]
        omega
      simp only [Client.weight, hplace, ClientAt.weight] at hmoved
      simp only [Action.isSpurious, Bool.false_eq_true, ↓reduceIte]
      omega
  | waitSleep c _ _ hplace | waitReturn c _ _ hplace =>
      refine State.weight_setClient_lt rfl rfl ?_
      rcases hplace with h | h <;> simp [h]
  | setStop c _ hplace =>
      refine State.weight_announce_lt rfl ?_
      have hsame : State.weight { s with stop := true } = s.weight := rfl
      simp only [Client.weight, hplace, ClientAt.weight]
      omega
  | join c i hi _ hplace =>
      refine State.weight_setClient_lt rfl rfl ?_
      simp only [Client.weight, hplace, ClientAt.weight]
      omega
  | joined c i hi _ hplace =>
      refine State.weight_setClient_lt rfl rfl ?_
      simp only [Client.weight, hplace, ClientAt.weight]
      omega
  | free c _ hplace | destroyed c _ hplace =>
      exact State.weight_setClient_lt rfl rfl (by simp [hplace])
  | spuriousWorker w hplace =>
      have hmoved := s.weight_setWorker w .woken
      simp only [hplace, WorkerAt.weight] at hmoved
      simp only [Action.isSpurious, ↓reduceIte]
      omega
  | spuriousClient c before hasleep =>
      have hmoved := s.weight_setClient c { s.clients c with place := .woken before }
      simp only [Client.weight, hasleep, ClientAt.weight] at hmoved
      simp only [Action.isSpurious, ↓reduceIte]
      omega

theorem sum_map_spent (actions : List (Action n k)) :
    (actions.map fun a => if a.isSpurious then 0 else 1).sum =
      actions.countP fun a => !a.isSpurious := by
  have hsame : (fun a : Action n k => if a.isSpurious then 0 else 1) =
      fun a => if !a.isSpurious then 1 else 0 := by
    funext a
    cases a.isSpurious <;> rfl
  rw [hsame, TransitionSystem.sum_map_ite, Nat.one_mul]

/-- The clients' calls pay for everything that the threads do: in every run, the steps that
are not spurious wake-ups are bounded by the calls, and each spurious wake-up allows two more. -/
theorem run_steps_le (scripts : Fin k → List (Call F A)) {actions : List (Action n k)}
    {s : State F A n k} (hrun : (pool n scripts).run (State.init n scripts) actions = some s) :
    actions.countP (fun a => !a.isSpurious) ≤
      3 * n + ∑ c, ((scripts c).map (Call.weight n)).sum +
        2 * actions.countP Action.isSpurious := by
  have hinit : (State.init n scripts).weight =
      3 * n + ∑ c, ((scripts c).map (Call.weight n)).sum := by
    simp [State.weight, State.init, Nat.mul_comm]
  have hle := TransitionSystem.run_weight_le State.weight
    (fun a => if a.isSpurious then 0 else 1) (fun a => if a.isSpurious then 2 else 0)
    (fun s a t (hboot : Booted s) hstep => hboot.moves (step_moves hstep))
    (fun s a t hboot hstep => (step_moves hstep).weight_le hboot) (Books.init scripts).booted hrun
  rw [hinit, sum_map_spent, TransitionSystem.sum_map_ite] at hle
  omega

theorem run_steps_le_one_job :
    OneJob.actions.countP (fun a => !a.isSpurious) ≤ 22 :=
  run_steps_le (fun _ => program [((), ())]) (s := OneJob.state) rfl

end ThreadPool

end SystemsProgramming
