/-
Where every task is.  A linked task is in `task_queue`, in the hands of the one
worker that removed it, or finished, and no step of any thread changes that.
-/
import SystemsProgramming.ThreadPool.Moves
import Mathlib.Data.List.Nodup

namespace SystemsProgramming

namespace ThreadPool

variable {F A : Type} {n k : Nat}

@[simp] theorem WorkerAt.inHand_wake (p : WorkerAt F A) : p.wake.inHand = p.inHand := by
  cases p <;> rfl

@[simp] theorem WorkerAt.inFunc_wake (p : WorkerAt F A) : p.wake.inFunc = p.inFunc := by
  cases p <;> rfl

theorem WorkerAt.inHand_of_inFunc {p : WorkerAt F A} {task : Task F A}
    (hfunc : p.inFunc = some task) : p.inHand = some task := by
  cases p <;> simp_all [WorkerAt.inFunc, WorkerAt.inHand]

theorem WorkerAt.inFunc_eq_none {p : WorkerAt F A} (hhand : p.inHand = none) :
    p.inFunc = none := by
  cases p <;> simp_all [WorkerAt.inFunc, WorkerAt.inHand]

theorem WorkerAt.inFunc_holds (task : Task F A) :
    (WorkerAt.holds task).inFunc = none := rfl

/-- The loop of `tpool_init` creates the workers in index order. -/
structure Booted (s : State F A n k) : Prop where
  le : s.created ≤ n
  unborn : ∀ w, s.workers w = .unborn ↔ s.created ≤ w.val

theorem WorkerAt.wake_eq_unborn {p : WorkerAt F A} : p.wake = .unborn ↔ p = .unborn := by
  cases p <;> simp [WorkerAt.wake]

/-- A worker that moves was created and stays created. -/
theorem Booted.setWorker {s : State F A n k} (hs : Booted s) {w : Fin n}
    {p : WorkerAt F A} (hborn : s.workers w ≠ .unborn) (hp : p ≠ .unborn) :
    Booted (s.setWorker w p) where
  le := hs.le
  unborn v := by
    by_cases hv : v = w
    · subst hv
      have := (hs.unborn v).not.mp hborn
      simp [hp, this]
    · simp [hv, hs.unborn v]

theorem Booted.moves {s t : State F A n k} {a : Action n k} (hs : Booted s)
    (hmove : Moves s a t) : Booted t := by
  cases hmove with
  | create h =>
      refine ⟨h, fun v => ?_⟩
      by_cases hv : v = ⟨s.created, h⟩
      · simp [hv]
      · have hne : v.val ≠ s.created := fun heq => hv (Fin.ext heq)
        simp only [State.setWorker_workers, hv, ↓reduceIte, hs.unborn v,
          State.setWorker_created]
        omega
  | sleep w hplace | quit w hplace =>
      exact hs.setWorker (by rcases hplace with h | h <;> simp [h]) (by simp)
  | take w task rest hplace =>
      have hmoved := hs.setWorker (w := w) (p := .holds task)
        (by rcases hplace with h | h <;> simp [h]) (by simp)
      exact ⟨hmoved.le, hmoved.unborn⟩
  | exit w hplace | report w hplace => exact hs.setWorker (by simp [hplace]) (by simp)
  | call w task hplace =>
      have hmoved := hs.setWorker (w := w) (p := .runs task) (by simp [hplace]) (by simp)
      exact ⟨hmoved.le, hmoved.unborn⟩
  | finish w task hplace =>
      have hmoved := hs.setWorker (w := w) (p := .ran) (by simp [hplace]) (by simp)
      exact ⟨hmoved.le, hmoved.unborn⟩
  | signal w c before hplace =>
      have hmoved := hs.setWorker (w := w) (p := .top) (by simp [hplace]) (by simp)
      exact ⟨hmoved.le, hmoved.unborn⟩
  | spuriousWorker w hplace => exact hs.setWorker (by simp [hplace]) (by simp)
  | linkFirst | setStop =>
      exact ⟨hs.le, fun v => WorkerAt.wake_eq_unborn.trans (hs.unborn v)⟩
  | _ => exact ⟨hs.le, hs.unborn⟩

/-- The addresses of the tasks that are linked or about to be linked. -/
structure Allocated (s : State F A n k) : Prop where
  fresh : ∀ task ∈ s.linked, task.node < s.nodes
  nodup : s.linked.Nodup
  links_fresh : ∀ c task, (s.clients c).place = .links task → task.node < s.nodes
  links_new : ∀ c task, (s.clients c).place = .links task → task ∉ s.linked
  links_inj : ∀ c d task, (s.clients c).place = .links task →
    (s.clients d).place = .links task → c = d
  /-- What a call of `tpool_wait` remembers had been linked. -/
  waits_linked : ∀ c before, (s.clients c).place = .waits before ∨
    (s.clients c).place = .asleep before ∨ (s.clients c).place = .woken before →
    ∀ task ∈ before, task ∈ s.linked

/-- A client that moves on without a new task keeps the addresses. -/
theorem Allocated.setClient {s : State F A n k} (hs : Allocated s) {c : Fin k}
    {client : Client F A} (hlinks : ∀ task, client.place ≠ .links task)
    (hwaits : ∀ before, client.place = .waits before ∨ client.place = .asleep before ∨
      client.place = .woken before → ∀ task ∈ before, task ∈ s.linked) :
    Allocated (s.setClient c client) := by
  obtain ⟨hfresh, hnodup, hlf, hln, hli, hw⟩ := hs
  constructor
  · exact hfresh
  · exact hnodup
  · intro d task hd
    by_cases hdc : d = c
    · simp [hdc, hlinks] at hd
    · exact hlf d task (by simpa [hdc] using hd)
  · intro d task hd
    by_cases hdc : d = c
    · simp [hdc, hlinks] at hd
    · exact hln d task (by simpa [hdc] using hd)
  · intro d e task hd he
    by_cases hdc : d = c
    · simp [hdc, hlinks] at hd
    · by_cases hec : e = c
      · simp [hec, hlinks] at he
      · exact hli d e task (by simpa [hdc] using hd) (by simpa [hec] using he)
  · intro d before hd
    by_cases hdc : d = c
    · exact hwaits before (by simpa [hdc] using hd)
    · exact hw d before (by simpa [hdc] using hd)

/-- Only the clients, the links and the allocation count matter here. -/
theorem Allocated.congr {s t : State F A n k} (hs : Allocated s)
    (hnodes : t.nodes = s.nodes) (hclients : t.clients = s.clients)
    (hlinked : t.linked = s.linked) : Allocated t := by
  obtain ⟨hfresh, hnodup, hlf, hln, hli, hw⟩ := hs
  constructor <;> simpa only [hnodes, hclients, hlinked]

/-- A new node gets an address that no task has. -/
theorem Allocated.alloc {s : State F A n k} (hs : Allocated s) {c : Fin k}
    (func : F) (arg : A) (rest : List (Call F A)) :
    Allocated ({ s with nodes := s.nodes + 1 }.setClient c
      ⟨.links ⟨s.nodes, func, arg⟩, rest⟩) := by
  have hnew : ∀ d task, d ≠ c → (s.clients d).place = .links task →
      task ≠ ⟨s.nodes, func, arg⟩ := by
    rintro d task - hd rfl
    exact Nat.lt_irrefl _ (hs.links_fresh d _ hd)
  constructor
  · intro task htask
    exact Nat.lt_succ_of_lt (hs.fresh task htask)
  · exact hs.nodup
  · intro d task hd
    by_cases hdc : d = c
    · obtain rfl : _ = task := by simpa [hdc] using hd
      exact Nat.lt_succ_self _
    · exact Nat.lt_succ_of_lt (hs.links_fresh d task (by simpa [hdc] using hd))
  · intro d task hd
    by_cases hdc : d = c
    · obtain rfl : _ = task := by simpa [hdc] using hd
      exact fun hmem => Nat.lt_irrefl _ (hs.fresh _ hmem)
    · exact hs.links_new d task (by simpa [hdc] using hd)
  · intro d e task hd he
    by_cases hdc : d = c <;> by_cases hec : e = c
    · rw [hdc, hec]
    · have := hnew e task hec (by simpa [hec] using he)
      simp [hdc, this.symm] at hd
    · have := hnew d task hdc (by simpa [hdc] using hd)
      simp [hec, this.symm] at he
    · exact hs.links_inj d e task (by simpa [hdc] using hd) (by simpa [hec] using he)
  · intro d before hd
    by_cases hdc : d = c
    · simp [hdc] at hd
    · exact hs.waits_linked d before (by simpa [hdc] using hd)

/-- Linking the task a client has prepared. -/
theorem Allocated.link {s t : State F A n k} (hs : Allocated s) {c : Fin k}
    {task : Task F A} (hplace : (s.clients c).place = .links task)
    (hnodes : t.nodes = s.nodes) (hlinked : t.linked = s.linked ++ [task])
    (hclients : t.clients = (s.setClient c { s.clients c with place := .idle }).clients) :
    Allocated t := by
  have hclient : ∀ d place, place ≠ .idle → (t.clients d).place = place →
      d ≠ c ∧ (s.clients d).place = place := by
    intro d place hidle hd
    rw [hclients] at hd
    by_cases hdc : d = c
    · simp [hdc, hidle.symm] at hd
    · exact ⟨hdc, by simpa [hdc] using hd⟩
  constructor
  · intro other hother
    rw [hlinked, List.mem_append, List.mem_singleton] at hother
    rw [hnodes]
    rcases hother with hold | rfl
    · exact hs.fresh other hold
    · exact hs.links_fresh c other hplace
  · rw [hlinked, List.nodup_append]
    refine ⟨hs.nodup, List.nodup_singleton task, ?_⟩
    intro other hother last hlast heq
    rw [List.mem_singleton] at hlast
    exact hs.links_new c task hplace (by rwa [← hlast, ← heq])
  · intro d other hd
    rw [hnodes]
    exact hs.links_fresh d other (hclient d _ (by simp) hd).2
  · intro d other hd
    obtain ⟨hdc, hplaced⟩ := hclient d _ (by simp) hd
    rw [hlinked, List.mem_append, List.mem_singleton, not_or]
    refine ⟨hs.links_new d other hplaced, ?_⟩
    rintro rfl
    exact hdc (hs.links_inj d c other hplaced hplace)
  · intro d e other hd he
    exact hs.links_inj d e other (hclient d _ (by simp) hd).2 (hclient e _ (by simp) he).2
  · intro d before hd other hother
    rw [hlinked, List.mem_append]
    refine Or.inl (hs.waits_linked d before ?_ other hother)
    rcases hd with hd | hd | hd
    · exact Or.inl (hclient d _ (by simp) hd).2
    · exact Or.inr (Or.inl (hclient d _ (by simp) hd).2)
    · exact Or.inr (Or.inr (hclient d _ (by simp) hd).2)

theorem Allocated.moves {s t : State F A n k} {a : Action n k} (hs : Allocated s)
    (hmove : Moves s a t) : Allocated t := by
  cases hmove with
  | callAdd c func arg rest => exact hs.alloc func arg rest
  | linkFirst c task _ hplace | linkLast c task _ hplace => exact hs.link hplace rfl rfl rfl
  | callWait c rest => exact hs.setClient (by simp) (by simp)
  | callDestroy | waitReturn | join | joined | destroyed =>
      exact hs.setClient (by simp) (by simp)
  | waitSleep c before _ hplace =>
      refine hs.setClient (by simp) ?_
      intro other hother
      obtain rfl : before = other := by simpa using hother
      exact hs.waits_linked c before (by tauto)
  | signal w c before _ _ hasleep =>
      have hmoved : Allocated (s.setWorker w .top) := hs.congr rfl rfl rfl
      refine hmoved.setClient (by simp) ?_
      intro other hother
      obtain rfl : before = other := by simpa using hother
      exact hs.waits_linked c before (Or.inr (Or.inl hasleep))
  | spuriousClient c before hasleep =>
      refine hs.setClient (by simp) ?_
      intro other hother
      obtain rfl : before = other := by simpa using hother
      exact hs.waits_linked c before (Or.inr (Or.inl hasleep))
  | setStop c =>
      have hmoved : Allocated ({ s with stop := true }.broadcastNotEmpty) := hs.congr rfl rfl rfl
      exact hmoved.setClient (by simp) (by simp)
  | free c =>
      have hmoved : Allocated { s with freed := true } := hs.congr rfl rfl rfl
      exact hmoved.setClient (by simp) (by simp)
  | _ => exact hs.congr rfl rfl rfl

/-- The books of the pool: the removed tasks and the queue make up the linked
tasks in order, and a removed task is finished or in the hands of the worker that
removed it. -/
structure Ledger (s : State F A n k) : Prop where
  conserved : s.removed.map Prod.snd ++ s.taskQueue = s.linked
  inHand_removed : ∀ w task, (s.workers w).inHand = some task → (w, task) ∈ s.removed
  inHand_unfinished : ∀ w task, (s.workers w).inHand = some task → task ∉ s.finished
  removed_split : ∀ w task, (w, task) ∈ s.removed →
    task ∈ s.finished ∨ (s.workers w).inHand = some task
  finished_removed : ∀ task ∈ s.finished, ∃ w, (w, task) ∈ s.removed
  finished_nodup : s.finished.Nodup
  started_iff : ∀ task, task ∈ s.started ↔
    task ∈ s.finished ∨ ∃ w, (s.workers w).inFunc = some task
  started_nodup : s.started.Nodup

/-- A step that changes neither the books nor what the workers have in hand. -/
theorem Ledger.congr {s t : State F A n k} (hs : Ledger s)
    (hqueue : t.taskQueue = s.taskQueue) (hlinked : t.linked = s.linked)
    (hremoved : t.removed = s.removed) (hstarted : t.started = s.started)
    (hfinished : t.finished = s.finished)
    (hhand : ∀ w, (t.workers w).inHand = (s.workers w).inHand)
    (hfunc : ∀ w, (t.workers w).inFunc = (s.workers w).inFunc) : Ledger t := by
  obtain ⟨h1, h2, h3, h4, h5, h6, h7, h8⟩ := hs
  constructor <;> simpa only [hqueue, hlinked, hremoved, hstarted, hfinished, hhand, hfunc]

/-- A step that only moves a worker with empty hands. -/
theorem Ledger.setWorker {s : State F A n k} (hs : Ledger s) {w : Fin n}
    {p : WorkerAt F A} (hold : (s.workers w).inHand = none) (hnew : p.inHand = none) :
    Ledger (s.setWorker w p) := by
  refine hs.congr rfl rfl rfl rfl rfl (fun v => ?_) (fun v => ?_)
  · by_cases hv : v = w
    · simp [hv, hold, hnew]
    · simp [hv]
  · by_cases hv : v = w
    · simp [hv, WorkerAt.inFunc_eq_none hold, WorkerAt.inFunc_eq_none hnew]
    · simp [hv]

theorem inHand_eq_none_of_waiting {p : WorkerAt F A} (hplace : p = .top ∨ p = .woken) :
    p.inHand = none := by
  rcases hplace with rfl | rfl <;> rfl

/-- Appending to the tail of the queue. -/
theorem Ledger.link {s t : State F A n k} (hs : Ledger s) {task : Task F A}
    (hqueue : t.taskQueue = s.taskQueue ++ [task]) (hlinked : t.linked = s.linked ++ [task])
    (hremoved : t.removed = s.removed) (hstarted : t.started = s.started)
    (hfinished : t.finished = s.finished)
    (hhand : ∀ w, (t.workers w).inHand = (s.workers w).inHand)
    (hfunc : ∀ w, (t.workers w).inFunc = (s.workers w).inFunc) : Ledger t := by
  obtain ⟨h1, h2, h3, h4, h5, h6, h7, h8⟩ := hs
  constructor
  · rw [hremoved, hqueue, hlinked, ← h1, List.append_assoc]
  all_goals simpa only [hremoved, hstarted, hfinished, hhand, hfunc]

/-- Removing the head of the queue puts it in the hands of one worker. -/
theorem Ledger.take {s : State F A n k} (hs : Ledger s) (halloc : Allocated s) {w : Fin n}
    {task : Task F A} {rest : List (Task F A)} (hhand : (s.workers w).inHand = none)
    (hqueue : s.taskQueue = task :: rest) :
    Ledger ({ s with taskQueue := rest, removed := s.removed ++ [(w, task)] }.setWorker w
      (.holds task)) := by
  have hnodup : (s.removed.map Prod.snd ++ s.taskQueue).Nodup := hs.conserved ▸ halloc.nodup
  have hnew : ∀ v, (v, task) ∉ s.removed := by
    intro v hmem
    rw [hqueue, List.nodup_append] at hnodup
    exact hnodup.2.2 task (List.mem_map_of_mem hmem) task List.mem_cons_self rfl
  constructor
  · simp [← hs.conserved, hqueue]
  · intro v other hother
    by_cases hv : v = w
    · obtain rfl : task = other := by simpa [hv, WorkerAt.inHand] using hother
      simp [hv]
    · simp only [State.setWorker_workers, hv, ↓reduceIte] at hother
      exact List.mem_append_left _ (hs.inHand_removed v other hother)
  · intro v other hother hfin
    by_cases hv : v = w
    · obtain rfl : task = other := by simpa [hv, WorkerAt.inHand] using hother
      obtain ⟨u, hu⟩ := hs.finished_removed task hfin
      exact hnew u hu
    · simp only [State.setWorker_workers, hv, ↓reduceIte] at hother
      exact hs.inHand_unfinished v other hother hfin
  · intro v other hmem
    simp only [State.setWorker_removed, List.mem_append, List.mem_singleton,
      Prod.mk.injEq] at hmem
    rcases hmem with hold | ⟨rfl, rfl⟩
    · rcases hs.removed_split v other hold with hfin | hin
      · exact Or.inl hfin
      · have hv : v ≠ w := by rintro rfl; simp [hhand] at hin
        exact Or.inr (by simpa [hv] using hin)
    · exact Or.inr (by simp [WorkerAt.inHand])
  · intro other hfin
    obtain ⟨v, hv⟩ := hs.finished_removed other hfin
    exact ⟨v, List.mem_append_left _ hv⟩
  · exact hs.finished_nodup
  · intro other
    refine (hs.started_iff other).trans (or_congr Iff.rfl (exists_congr fun v => ?_))
    by_cases hv : v = w
    · simp [hv, WorkerAt.inFunc_eq_none hhand, WorkerAt.inFunc_holds]
    · simp [hv]
  · exact hs.started_nodup

/-- The call of `func` starts a task that was not started before. -/
theorem Ledger.call {s : State F A n k} (hs : Ledger s) {w : Fin n} {task : Task F A}
    (hone : ∀ v, (s.workers v).inHand = some task → v = w)
    (hplace : s.workers w = .holds task) :
    Ledger ({ s with started := s.started ++ [task] }.setWorker w (.runs task)) := by
  have hhand : (s.workers w).inHand = some task := by simp [hplace, WorkerAt.inHand]
  have hsame : ∀ v, (({ s with started := s.started ++ [task] }.setWorker w
      (.runs task)).workers v).inHand = (s.workers v).inHand := by
    intro v
    by_cases hv : v = w
    · simp [hv, hplace, WorkerAt.inHand]
    · simp [hv]
  have hnew : task ∉ s.started := by
    rw [hs.started_iff, not_or]
    refine ⟨hs.inHand_unfinished w task hhand, ?_⟩
    rintro ⟨v, hv⟩
    obtain rfl := hone v (WorkerAt.inHand_of_inFunc hv)
    simp [hplace, WorkerAt.inFunc] at hv
  constructor
  · exact hs.conserved
  · intro v other hother
    exact hs.inHand_removed v other (hsame v ▸ hother)
  · intro v other hother
    exact hs.inHand_unfinished v other (hsame v ▸ hother)
  · intro v other hmem
    rw [hsame]
    exact hs.removed_split v other hmem
  · exact hs.finished_removed
  · exact hs.finished_nodup
  · intro other
    simp only [State.setWorker_started, List.mem_append, List.mem_singleton,
      State.setWorker_finished, State.setWorker_workers]
    rw [hs.started_iff]
    constructor
    · rintro ((hfin | ⟨v, hv⟩) | rfl)
      · exact Or.inl hfin
      · refine Or.inr ⟨v, ?_⟩
        have hvw : v ≠ w := by rintro rfl; simp [hplace, WorkerAt.inFunc] at hv
        simpa [hvw] using hv
      · exact Or.inr ⟨w, by simp [WorkerAt.inFunc]⟩
    · rintro (hfin | ⟨v, hv⟩)
      · exact Or.inl (Or.inl hfin)
      · by_cases hvw : v = w
        · obtain rfl : task = other := by simpa [hvw, WorkerAt.inFunc] using hv
          exact Or.inr rfl
        · exact Or.inl (Or.inr ⟨v, by simpa [hvw] using hv⟩)
  · simpa [List.nodup_append, hs.started_nodup] using
      fun other hother (heq : other = task) => hnew (heq ▸ hother)

/-- The return of `func` finishes the task in hand. -/
theorem Ledger.finish {s : State F A n k} (hs : Ledger s) {w : Fin n} {task : Task F A}
    (hone : ∀ v, (s.workers v).inHand = some task → v = w)
    (hplace : s.workers w = .runs task) :
    Ledger ({ s with finished := s.finished ++ [task] }.setWorker w .ran) := by
  have hhand : (s.workers w).inHand = some task := by simp [hplace, WorkerAt.inHand]
  constructor
  · exact hs.conserved
  · intro v other hother
    have hv : v ≠ w := by rintro rfl; simp [WorkerAt.inHand] at hother
    exact hs.inHand_removed v other (by simpa [hv] using hother)
  · intro v other hother
    have hv : v ≠ w := by rintro rfl; simp [WorkerAt.inHand] at hother
    replace hother : (s.workers v).inHand = some other := by simpa [hv] using hother
    simp only [State.setWorker_finished, List.mem_append, List.mem_singleton, not_or]
    refine ⟨hs.inHand_unfinished v other hother, ?_⟩
    rintro rfl
    exact hv (hone v hother)
  · intro v other hmem
    rcases hs.removed_split v other hmem with hfin | hin
    · exact Or.inl (List.mem_append_left _ hfin)
    · by_cases hv : v = w
      · obtain rfl : task = other := by simpa [hv, hhand] using hin
        exact Or.inl (by simp)
      · exact Or.inr (by simpa [hv] using hin)
  · intro other hfin
    simp only [State.setWorker_finished, List.mem_append, List.mem_singleton] at hfin
    rcases hfin with hfin | rfl
    · exact hs.finished_removed other hfin
    · exact ⟨w, hs.inHand_removed w other hhand⟩
  · simpa [List.nodup_append, hs.finished_nodup] using
      fun other hother (heq : other = task) =>
        hs.inHand_unfinished w task hhand (heq ▸ hother)
  · intro other
    simp only [State.setWorker_started, State.setWorker_finished, List.mem_append,
      List.mem_singleton, State.setWorker_workers]
    rw [hs.started_iff]
    constructor
    · rintro (hfin | ⟨v, hv⟩)
      · exact Or.inl (Or.inl hfin)
      · by_cases hvw : v = w
        · obtain rfl : task = other := by simpa [hvw, hplace, WorkerAt.inFunc] using hv
          exact Or.inl (Or.inr rfl)
        · exact Or.inr ⟨v, by simpa [hvw] using hv⟩
    · rintro ((hfin | rfl) | ⟨v, hv⟩)
      · exact Or.inl hfin
      · exact Or.inr ⟨w, by simp [hplace, WorkerAt.inFunc]⟩
      · have hvw : v ≠ w := by rintro rfl; simp [WorkerAt.inFunc] at hv
        exact Or.inr ⟨v, by simpa [hvw] using hv⟩
  · exact hs.started_nodup

/-- A removed task was removed by one worker only. -/
theorem Ledger.removed_unique {s : State F A n k} (hs : Ledger s) (halloc : Allocated s)
    {v w : Fin n} {task : Task F A} (hv : (v, task) ∈ s.removed)
    (hw : (w, task) ∈ s.removed) : v = w := by
  have hnodup : (s.removed.map Prod.snd).Nodup := by
    have h := halloc.nodup
    rw [← hs.conserved, List.nodup_append] at h
    exact h.1
  have heq : ((v, task) : Fin n × Task F A) = (w, task) :=
    List.inj_on_of_nodup_map hnodup hv hw rfl
  exact congrArg Prod.fst heq

theorem Ledger.inHand_unique {s : State F A n k} (hs : Ledger s) (halloc : Allocated s)
    {w : Fin n} {task : Task F A} (hw : (s.workers w).inHand = some task) (v : Fin n)
    (hv : (s.workers v).inHand = some task) : v = w :=
  hs.removed_unique halloc (hs.inHand_removed v task hv) (hs.inHand_removed w task hw)

theorem Ledger.moves {s t : State F A n k} {a : Action n k} (hs : Ledger s)
    (hboot : Booted s) (halloc : Allocated s) (hmove : Moves s a t) : Ledger t := by
  cases hmove with
  | create h =>
      have hunborn : s.workers ⟨s.created, h⟩ = .unborn := (hboot.unborn _).mpr (Nat.le_refl _)
      have hmoved : Ledger { s with created := s.created + 1 } :=
        hs.congr rfl rfl rfl rfl rfl (fun _ => rfl) (fun _ => rfl)
      exact hmoved.setWorker (by simp [hunborn, WorkerAt.inHand]) rfl
  | sleep w hplace | quit w hplace =>
      exact hs.setWorker (inHand_eq_none_of_waiting hplace) rfl
  | take w task rest hplace _ hqueue =>
      exact hs.take halloc (inHand_eq_none_of_waiting hplace) hqueue
  | exit w hplace | report w hplace | spuriousWorker w hplace =>
      exact hs.setWorker (by simp [hplace, WorkerAt.inHand]) rfl
  | signal w c before hplace =>
      have hmoved : Ledger (s.setWorker w .top) :=
        hs.setWorker (by simp [hplace, WorkerAt.inHand]) rfl
      exact hmoved.congr rfl rfl rfl rfl rfl (fun _ => rfl) (fun _ => rfl)
  | call w task hplace =>
      exact hs.call (hs.inHand_unique halloc (by simp [hplace, WorkerAt.inHand])) hplace
  | finish w task hplace =>
      exact hs.finish (hs.inHand_unique halloc (by simp [hplace, WorkerAt.inHand])) hplace
  | linkFirst c task _ _ hqueue =>
      exact hs.link (by simp [hqueue, State.broadcastNotEmpty]) rfl rfl rfl rfl
        (fun w => (s.workers w).inHand_wake) (fun w => (s.workers w).inFunc_wake)
  | linkLast c task =>
      exact hs.link rfl rfl rfl rfl rfl (fun _ => rfl) (fun _ => rfl)
  | setStop c =>
      exact hs.congr rfl rfl rfl rfl rfl (fun w => (s.workers w).inHand_wake)
        (fun w => (s.workers w).inFunc_wake)
  | _ => exact hs.congr rfl rfl rfl rfl rfl (fun _ => rfl) (fun _ => rfl)

/-- The invariants of the books together. -/
structure Books (s : State F A n k) : Prop where
  booted : Booted s
  allocated : Allocated s
  ledger : Ledger s

theorem Books.init (scripts : Fin k → List (Call F A)) :
    Books (State.init n scripts) where
  booted := ⟨Nat.zero_le _, fun w => by simp [State.init]⟩
  allocated := by constructor <;> simp [State.init]
  ledger := by constructor <;> simp [State.init, WorkerAt.inHand, WorkerAt.inFunc]

/-- The books are in order in every state of every run. -/
theorem reachable_books {scripts : Fin k → List (Call F A)} {s : State F A n k}
    (hreach : (pool n scripts).Reachable s) : Books s := by
  refine hreach.invariant ?_ ?_
  · rintro _ rfl
    exact Books.init scripts
  · intro s a t hs hstep
    have hmove := step_moves hstep
    exact ⟨hs.booted.moves hmove, hs.allocated.moves hmove,
      hs.ledger.moves hs.booted hs.allocated hmove⟩

end ThreadPool

end SystemsProgramming
