/-
What lies behind `free(pool)`.  The joins come first, so no worker is left; and a client that
adds its jobs, waits and destroys the pool makes no call on it any more.
-/
import SystemsProgramming.ThreadPool.Program

namespace SystemsProgramming

namespace ThreadPool

variable {F A : Type} {n k : Nat} {s t : State F A n k} {a : Action n k} {w : Fin n} {c : Fin k}

/-- How many workers a client has joined in `tpool_destroy`. -/
def ClientAt.joined (n : Nat) : ClientAt F A → Nat
  | joins i => i
  | frees | destroys => n
  | _ => 0

/-- The workers that a client has joined have exited, and all have where the pool is freed. -/
structure Joined (s : State F A n k) : Prop where
  exited : ∀ c (w : Fin n), w.val < (s.clients c).place.joined n → s.workers w = .exited
  freed : s.freed = true → ∀ w, s.workers w = .exited

/-- A worker that has exited stays so. -/
theorem Moves.exited (hmove : Moves s a t) (hboot : Booted s) (hexited : s.workers w = .exited) :
    t.workers w = .exited := by
  have hother : ∀ {v : Fin n} {p : WorkerAt F A}, s.workers v ≠ .exited →
      (s.setWorker v p).workers w = .exited := by
    intro v p hlive
    have hne : w ≠ v := by rintro rfl; exact hlive hexited
    simpa [hne] using hexited
  cases hmove with
  | create h =>
      have hunborn := (hboot.unborn ⟨s.created, h⟩).mpr (Nat.le_refl _)
      exact hother (by simp [hunborn])
  | sleep v hplace | quit v hplace | take v _ _ hplace =>
      exact hother (by rcases hplace with h | h <;> simp [h])
  | exit v hplace | call v _ hplace | finish v _ hplace | report v hplace
  | spuriousWorker v hplace | signal v _ _ hplace => exact hother (by simp [hplace])
  | linkFirst | setStop => simp [State.broadcastNotEmpty, hexited, WorkerAt.wake]
  | _ => exact hexited

namespace Joined

/-- A step that joins no worker and does not free the pool. -/
theorem frame (hs : Joined s) (hexited : ∀ w, s.workers w = .exited → t.workers w = .exited)
    (hclients : ∀ c, (t.clients c).place.joined n ≤ (s.clients c).place.joined n)
    (hfreed : t.freed = s.freed) : Joined t where
  exited c w hw := hexited w (hs.exited c w (Nat.lt_of_lt_of_le hw (hclients c)))
  freed h w := hexited w (hs.freed (hfreed ▸ h) w)

theorem setClient (hs : Joined s) {client : Client F A}
    (hclient : ∀ w : Fin n, w.val < client.place.joined n → s.workers w = .exited) :
    Joined (s.setClient c client) where
  exited d w hw := by
    by_cases hd : d = c
    · exact hclient w (by simpa [hd] using hw)
    · exact hs.exited d w (by simpa [hd] using hw)
  freed := hs.freed

theorem moves (hs : Joined s) (hboot : Booted s) (hmove : Moves s a t) : Joined t := by
  have hexited : ∀ w, s.workers w = .exited → t.workers w = .exited :=
    fun w => hmove.exited hboot
  cases hmove with
  | create | sleep | quit | take | exit | call | finish | report | spuriousWorker =>
      exact hs.frame hexited (fun _ => Nat.le_refl _) rfl
  | signal v =>
      have hworker := hs.frame (t := s.setWorker v .top) hexited (fun _ => Nat.le_refl _) rfl
      exact hworker.setClient fun w hw => absurd hw (Nat.not_lt_zero _)
  | callAdd =>
      have hnodes : Joined { s with nodes := s.nodes + 1 } := ⟨hs.exited, hs.freed⟩
      exact hnodes.setClient fun w hw => absurd hw (Nat.not_lt_zero _)
  | callWait | callDestroy | waitSleep | waitReturn | destroyed | spuriousClient =>
      exact hs.setClient fun w hw => absurd hw (Nat.not_lt_zero _)
  | linkLast c task =>
      have hlinked : Joined { s with taskQueue := s.taskQueue ++ [task]
                                     linked := s.linked ++ [task] } := ⟨hs.exited, hs.freed⟩
      exact hlinked.setClient fun w hw => absurd hw (Nat.not_lt_zero _)
  | linkFirst c | setStop c =>
      refine hs.frame hexited (fun d => ?_) rfl
      by_cases hd : d = c
      · simp [hd, ClientAt.joined]
      · simp [hd, State.broadcastNotEmpty]
  | join c i hi _ hplace hlast =>
      refine hs.setClient fun w hw => ?_
      rcases Nat.lt_succ_iff_lt_or_eq.mp hw with hlt | heq
      · exact hs.exited c w (by simpa [hplace, ClientAt.joined] using hlt)
      · obtain rfl : w = ⟨i, hi⟩ := Fin.ext heq
        exact hlast
  | joined c i hi _ hplace =>
      refine hs.setClient fun w _ => hs.exited c w ?_
      rw [hplace]
      exact Nat.lt_of_lt_of_le w.isLt hi
  | free c _ hplace =>
      have hall : ∀ w, s.workers w = .exited := fun w =>
        hs.exited c w (by simp [hplace, ClientAt.joined])
      have hfreed : Joined { s with freed := true } := ⟨hs.exited, fun _ => hall⟩
      exact hfreed.setClient fun w _ => hall w

end Joined

theorem reachable_joined {scripts : Fin k → List (Call F A)}
    (hreach : (pool n scripts).Reachable s) : Joined s := by
  induction hreach with
  | start hstart =>
      obtain rfl := hstart
      exact ⟨fun c w hw => absurd hw (Nat.not_lt_zero _), by simp [State.init]⟩
  | step hbefore _ hstep ih => exact ih.moves (reachable_books hbefore).booted (step_moves hstep)

/-! The program. -/

/-- Behind `free(pool)` the client has no call left. -/
def Retired (s : State F A n 1) : Prop :=
  s.freed = true → s.script = [] ∧ (s.place = .destroys ∨ s.place = .idle)

theorem Retired.moves {jobs : List (F × A)} {s t : State F A n 1} {a : Action n 1}
    (hs : Retired s) (hstage : Stage jobs s) (hmove : Moves s a t) : Retired t := by
  intro hfreed
  have hnot : s.freed = true → ∀ {p : ClientAt F A}, s.place = p → p ≠ .destroys → p ≠ .idle →
      False := by
    rintro hfreed _ rfl hdestroys hidle
    exact (hs hfreed).2.elim hdestroys hidle
  cases hmove with
  | create | sleep | quit | take | exit | call | finish | report | spuriousWorker =>
      exact hs hfreed
  | signal w c before _ _ hplace | spuriousClient c before hplace =>
      obtain rfl : c = 0 := Subsingleton.elim _ _
      exact (hnot hfreed hplace (by simp) (by simp)).elim
  | callAdd c _ _ _ _ _ hscript | callWait c _ _ _ hscript | callDestroy c _ _ _ hscript =>
      obtain rfl : c = 0 := Subsingleton.elim _ _
      cases (hs hfreed).1.symm.trans hscript
  | linkFirst c _ _ hplace | linkLast c _ _ hplace =>
      obtain rfl : c = 0 := Subsingleton.elim _ _
      exact (hnot hfreed hplace (by simp) (by simp)).elim
  | setStop c _ hplace | join c _ _ _ hplace | joined c _ _ _ hplace =>
      obtain rfl : c = 0 := Subsingleton.elim _ _
      exact (hnot hfreed hplace (by simp) (by simp)).elim
  | waitSleep c before _ hplace | waitReturn c before _ hplace =>
      obtain rfl : c = 0 := Subsingleton.elim _ _
      rcases hplace with hplace | hplace
      · exact (hnot hfreed hplace (by simp) (by simp)).elim
      · exact (hnot hfreed hplace (by simp) (by simp)).elim
  | free c _ hplace =>
      obtain rfl : c = 0 := Subsingleton.elim _ _
      exact ⟨(hstage.ended (.inl hplace)).1, .inl rfl⟩
  | destroyed c _ hplace =>
      obtain rfl : c = 0 := Subsingleton.elim _ _
      exact ⟨(hs hfreed).1, .inr rfl⟩

theorem reachable_retired {jobs : List (F × A)} {s : State F A n 1}
    (hreach : (programPool n jobs).Reachable s) : Retired s := by
  induction hreach with
  | start hstart =>
      obtain rfl := hstart
      exact fun hfreed => by simp [State.init] at hfreed
  | step hbefore _ hstep ih =>
      exact ih.moves (reachable_progressing hbefore).stage (step_moves hstep)

end ThreadPool

end SystemsProgramming
