/-
What the locks of the slots are good for.  A process that holds the lock of the slot it
writes finds its record there until it gives the lock up; a post that goes on without the
lock takes that away.
-/
import SystemsProgramming.Board.Atomicity

namespace SystemsProgramming

namespace Board

open FlatBytes

/-- The slot of a post behind its `F_SETLK`, until its `F_UNLCK`. -/
def Phase.pos : Phase → Option Slot
  | .writing _ pos => some pos
  | .unlocking pos _ => some pos
  | _ => none

variable {ι : Type*} [DecidableEq ι] {s t : Machine ι} {i k : ι} {pos : Slot}

/-- A process between the `F_SETLK` and the `F_UNLCK` of a post holds the lock of its slot,
and the slot keeps the record it has written. -/
structure Disciplined (s : Machine ι) : Prop where
  holds : ∀ i pos, (s.server i).phase.pos = some pos → s.holder pos = some i
  kept : ∀ i pos tmp, (s.server i).phase = .unlocking pos tmp →
    slotBytes s.file pos = tmp.bytes

/-- A post that goes on has got its lock: `F_SETLK` does not fail, and the second scan does
not end without a slot. -/
def LockTaken (s : Machine ι) : ι × Work → Prop
  | (i, .call) =>
      match (s.server i).phase with
      | .locking _ k => s.getLock i (slotOf k) = false
      | .scanning _ true k => recordNum ≤ k + 1 →
          (s.getLock i (slotOf ((s.server i).process.last + 1 + k)) ||
            (s.server i).process.locked (slotOf ((s.server i).process.last + 1 + k))) = false
      | _ => True
  | _ => True

/-- With no lock held for longer than a post needs it. -/
structure InUse (s : Machine ι) : Prop where
  disciplined : Disciplined s
  needed : ∀ pos i, s.holder pos = some i → (s.server i).phase.pos = some pos

omit [DecidableEq ι] in
/-- Two processes do not write one slot at a time. -/
theorem Disciplined.unique (hdisciplined : Disciplined s)
    (hi : (s.server i).phase.pos = some pos) (hk : (s.server k).phase.pos = some pos) : i = k :=
  Option.some.inj ((hdisciplined.holds i pos hi).symm.trans (hdisciplined.holds k pos hk))

theorem Machine.getLock_eq_false_iff : s.getLock i pos = false ↔
    s.holder pos = none ∨ s.holder pos = some i := by
  unfold getLock
  cases s.holder pos with
  | none => simp
  | some k => simp

namespace Caller

variable {v v' : Caller} {found : Bool} {received : Received}

theorem counted_pos (counter : Counter) (slot : Slot) (n : Nat) :
    (v.counted found counter slot n).phase.pos = none := by
  rcases v.counted_phase found counter slot n with ⟨_, _, -, h⟩ | h | ⟨_, -, h⟩ <;> rw [h] <;> rfl

theorem replied_pos (slot : Slot) (tmp : List Char) :
    (v.replied found received slot tmp).phase.pos = none := by
  rcases v.replied_phase found slot tmp with ⟨_, _, -, h⟩ | h <;> rw [h] <;> rfl

/-- A scan that ends with no slot leads to a write. -/
theorem scanned_pos (again : Bool) (k : Nat) :
    (v.scanned found received again k).phase.pos =
      if (found || v.process.locked (slotOf (v.process.last + 1 + k))) = true ∧
          recordNum ≤ k + 1 ∧ again = true then some 0 else none := by
  generalize htaken : (found || v.process.locked (slotOf (v.process.last + 1 + k))) = taken
  rcases v.scanned_phase found again htaken with ⟨rfl, h⟩ | ⟨⟨-, hmore⟩, h⟩ |
    ⟨⟨-, -, rfl⟩, h⟩ | ⟨hlast, h⟩
  · rw [h, if_neg fun hall => Bool.false_ne_true hall.1]
    rfl
  · rw [h, if_neg fun hall => Nat.not_lt.mpr hall.2.1 hmore]
    rfl
  · rw [h, if_neg fun hall => Bool.false_ne_true hall.2.2]
    rfl
  · rw [h, if_pos hlast]
    rfl

theorem request_pos (hidle : v.phase = .idle) (hrequest : v.request received = some v') :
    v'.phase.pos = none := by
  rcases v.request_phase hrequest with ⟨_, -, -, h⟩ | ⟨-, h⟩ | ⟨-, h⟩
  · rw [h]
    rfl
  · rw [h, hidle]
    rfl
  · rw [h]
    rfl

end Caller

namespace InUse

/-- A step of process `i` that leaves the locks of the others and the slots under them
alone. -/
theorem update (huse : InUse s) {v : Caller} (hserver : t.server = Function.update s.server i v)
    (howns : ∀ pos, v.phase.pos = some pos ↔ t.holder pos = some i)
    (hkept : ∀ pos tmp, v.phase = .unlocking pos tmp → slotBytes t.file pos = tmp.bytes)
    (hothers : ∀ k ≠ i, ∀ pos, t.holder pos = some k ↔ s.holder pos = some k)
    (hslots : ∀ k ≠ i, ∀ pos, s.holder pos = some k →
      slotBytes t.file pos = slotBytes s.file pos) : InUse t := by
  have hself : t.server i = v := by rw [hserver, Function.update_self]
  have hrest : ∀ k ≠ i, t.server k = s.server k := by
    intro k hk
    rw [hserver, Function.update_of_ne hk]
  refine ⟨⟨fun k pos hpos => ?_, fun k pos tmp hphase => ?_⟩, fun pos k hholder => ?_⟩
  · by_cases hk : k = i
    · subst hk
      rw [hself] at hpos
      exact (howns pos).mp hpos
    · rw [hrest k hk] at hpos
      exact (hothers k hk pos).mpr (huse.disciplined.holds k pos hpos)
  · by_cases hk : k = i
    · subst hk
      rw [hself] at hphase
      exact hkept pos tmp hphase
    · rw [hrest k hk] at hphase
      have hheld := huse.disciplined.holds k pos (by rw [hphase]; rfl)
      rw [hslots k hk pos hheld]
      exact huse.disciplined.kept k pos tmp hphase
  · by_cases hk : k = i
    · subst hk
      rw [hself]
      exact (howns pos).mpr hholder
    · rw [hrest k hk]
      exact huse.needed pos k ((hothers k hk pos).mp hholder)

omit [DecidableEq ι] in
/-- A process outside its posts holds no lock. -/
theorem holder_ne (huse : InUse s) (hbefore : (s.server i).phase.pos = none) (pos : Slot) :
    s.holder pos ≠ some i := by
  intro hholder
  have hpos := huse.needed pos i hholder
  rw [hbefore] at hpos
  cases hpos

/-- A step of a process outside its posts. -/
theorem outside (huse : InUse s) {v : Caller} (hbefore : (s.server i).phase.pos = none)
    (hafter : v.phase.pos = none) : InUse (s.setServer i v) := by
  refine huse.update (t := s.setServer i v) rfl (fun pos => ?_) (fun pos tmp hphase => ?_)
    (fun _ _ _ => Iff.rfl) (fun _ _ _ _ => rfl)
  · rw [hafter]
    constructor
    · intro hnone
      cases hnone
    · intro hholder
      exact absurd hholder (huse.holder_ne hbefore pos)
  · rw [hphase] at hafter
    cases hafter

/-- An `F_SETLK` that succeeds. -/
theorem lock (huse : InUse s) {v : Caller} {received : Received}
    (hbefore : (s.server i).phase.pos = none) (hfree : s.getLock i pos = false)
    (hafter : v.phase = .writing received pos) :
    InUse ((s.setLock i pos).setServer i v) := by
  have hnone : s.holder pos = none :=
    (Machine.getLock_eq_false_iff.mp hfree).resolve_right (huse.holder_ne hbefore pos)
  have hholder : ((s.setLock i pos).setServer i v).holder =
      Function.update s.holder pos (some i) := by
    simp [Machine.setServer, Machine.setLock, hfree]
  have hfile : ((s.setLock i pos).setServer i v).file = s.file := Machine.setLock_file _ _ _
  have hserver : ((s.setLock i pos).setServer i v).server = Function.update s.server i v := by
    rw [Machine.setServer, Machine.setLock_server]
  refine huse.update hserver (fun slot => ?_) (fun slot tmp hphase => ?_)
    (fun k hk slot => ?_) (fun _ _ slot _ => by rw [hfile])
  · rw [hafter, hholder]
    by_cases hslot : slot = pos
    · simp [hslot, Phase.pos]
    · rw [Function.update_of_ne hslot]
      constructor
      · intro hpos
        exact absurd (Option.some.inj hpos).symm hslot
      · intro hheld
        exact absurd hheld (huse.holder_ne hbefore slot)
  · rw [hafter] at hphase
    cases hphase
  · rw [hholder]
    by_cases hslot : slot = pos
    · simp [hslot, hnone, Ne.symm hk]
    · rw [Function.update_of_ne hslot]

/-- The write of a process that holds the lock is not in the slot of another one. -/
theorem write (huse : InUse s) {v : Caller} {tmp : Record}
    (hbefore : (s.server i).phase.pos = some pos) (hafter : v.phase = .unlocking pos tmp) :
    InUse ({ s with file := overwrite nul s.file (recordSize * pos) tmp.bytes }.setServer i v) := by
  have hheld := huse.disciplined.holds i pos hbefore
  refine huse.update (t := Machine.setServer _ i v) rfl (fun slot => ?_)
    (fun slot other hphase => ?_) (fun _ _ _ => Iff.rfl) (fun k hk slot hholder => ?_)
  · rw [hafter]
    constructor
    · intro hpos
      obtain rfl : pos = slot := Option.some.inj hpos
      exact hheld
    · intro hholder
      have hpos := huse.needed slot i hholder
      rwa [hbefore] at hpos
  · rw [hafter] at hphase
    cases hphase
    change slotBytes (overwrite nul s.file (recordSize * pos) tmp.bytes) pos = tmp.bytes
    rw [slotBytes, ← tmp.length_bytes]
    exact block_overwrite_self _ _ _ _
  · have hne : slot ≠ pos := by
      rintro rfl
      exact hk (Option.some.inj (hholder.symm.trans hheld))
    change slotBytes (overwrite nul s.file (recordSize * pos) tmp.bytes) slot = _
    rw [slotBytes, slotBytes, ← tmp.length_bytes]
    exact block_overwrite_of_ne _ _ _ fun hsame => hne (Fin.ext hsame)

/-- The `F_UNLCK` at the end of a post. -/
theorem unlock (huse : InUse s) {v : Caller} (hbefore : (s.server i).phase.pos = some pos)
    (hafter : v.phase = .idle) : InUse ((s.unlock i pos).setServer i v) := by
  have hheld := huse.disciplined.holds i pos hbefore
  have hholder : ((s.unlock i pos).setServer i v).holder = Function.update s.holder pos none := by
    simp [Machine.setServer, Machine.unlock, hheld]
  have hfile : ((s.unlock i pos).setServer i v).file = s.file := Machine.unlock_file _ _ _
  have hserver : ((s.unlock i pos).setServer i v).server = Function.update s.server i v := by
    rw [Machine.setServer, Machine.unlock_server]
  refine huse.update hserver (fun slot => ?_) (fun slot tmp hphase => ?_)
    (fun k hk slot => ?_) (fun _ _ slot _ => by rw [hfile])
  · rw [hafter, hholder]
    by_cases hslot : slot = pos
    · simp [hslot, Phase.pos]
    · rw [Function.update_of_ne hslot]
      constructor
      · intro hpos
        cases hpos
      · intro hown
        have hpos := huse.needed slot i hown
        exact absurd (Option.some.inj (hpos.symm.trans hbefore)) hslot
  · rw [hafter] at hphase
    cases hphase
  · rw [hholder]
    by_cases hslot : slot = pos
    · simp [hslot, hheld, Ne.symm hk]
    · rw [Function.update_of_ne hslot]

/-- A step after which every post has its lock. -/
theorem step (huse : InUse s) {work : Work} (htaken : LockTaken s (i, work))
    (hstep : s.step (i, work) = some t) : InUse t := by
  cases work with
  | refresh =>
      obtain ⟨hphase, rfl⟩ := Machine.step_refresh hstep
      apply huse.outside <;> simp only [hphase] <;> rfl
  | accept =>
      obtain ⟨hphase, rfl⟩ := Machine.step_accept hstep
      exact huse.outside (by rw [hphase]; rfl) rfl
  | request received =>
      obtain ⟨hphase, v, hrequest, rfl⟩ := Machine.step_request hstep
      exact huse.outside (by rw [hphase]; rfl) (Caller.request_pos hphase hrequest)
  | call =>
      cases Machine.called hstep with
      | counting hphase => exact huse.outside (by rw [hphase]; rfl) (Caller.counted_pos _ _ _)
      | replying hphase => exact huse.outside (by rw [hphase]; rfl) (Caller.replied_pos _ _)
      | scanning hphase =>
          apply huse.outside (by rw [hphase]; rfl)
          rw [Caller.scanned_pos, if_neg]
          rintro ⟨hfound, hlast, rfl⟩
          simp only [LockTaken, hphase] at htaken
          exact Bool.false_ne_true ((htaken hlast).symm.trans hfound)
      | locking hphase =>
          simp only [LockTaken, hphase] at htaken
          exact huse.lock (by rw [hphase]; rfl) htaken rfl
      | writing hphase => exact huse.write (by rw [hphase]; rfl) rfl
      | unlocking hphase => exact huse.unlock (by rw [hphase]; rfl) rfl

/-- A post that goes on without its lock. -/
theorem not_disciplined (huse : InUse s) {work : Work} (hnot : ¬ LockTaken s (i, work)) :
    ∃ t, s.step (i, work) = some t ∧ ¬ Disciplined t := by
  cases work with
  | refresh | accept | request received => exact absurd trivial hnot
  | call =>
      cases hphase : (s.server i).phase with
      | locking received k =>
          simp only [LockTaken, hphase, Bool.not_eq_false] at hnot
          have hlock : s.setLock i (slotOf k) = s := if_pos hnot
          obtain ⟨t, hcall⟩ : ∃ t, s.call i = some t := by simp [Machine.call, hphase]
          refine ⟨t, hcall, fun hdisciplined => ?_⟩
          simp only [Machine.call, hphase, Option.some.injEq, hlock] at hcall
          subst hcall
          have hheld := hdisciplined.holds i (slotOf k)
            (by rw [Machine.server_setServer_self]; rfl)
          have hfree := Machine.getLock_eq_false_iff.mpr (.inr hheld)
          exact Bool.false_ne_true (hfree.symm.trans hnot)
      | scanning received again k =>
          cases again with
          | false => simp [LockTaken, hphase] at hnot
          | true =>
              simp only [LockTaken, hphase, not_forall, Bool.not_eq_false] at hnot
              obtain ⟨hlast, hfound⟩ := hnot
              obtain ⟨t, hcall⟩ : ∃ t, s.call i = some t := by simp [Machine.call, hphase]
              refine ⟨t, hcall, fun hdisciplined => ?_⟩
              simp only [Machine.call, hphase, Option.some.injEq] at hcall
              subst hcall
              have hheld := hdisciplined.holds i 0 (by
                rw [Machine.test, Machine.server_setServer_self, Caller.scanned_pos]
                exact if_pos ⟨hfound, hlast, rfl⟩)
              exact huse.holder_ne (by rw [hphase]; rfl) 0 hheld
      | _ => simp [LockTaken, hphase] at hnot

end InUse

/-- In every run of the processes the writes are in the hands of the holders of the locks
exactly if no `F_SETLK` fails and no second scan ends without a slot. -/
theorem disciplined_iff_lockTaken (file : List Char) (heap : ι → List Char)
    (works : List (ι × Work)) :
    (calling ι).Along Disciplined (Machine.init file heap) works ↔
      (calling ι).Meets LockTaken (Machine.init file heap) works := by
  have hstart : InUse (Machine.init file heap) := by
    refine ⟨⟨fun i pos hpos => ?_, fun i pos tmp hphase => ?_⟩, fun pos i hholder => ?_⟩
    · cases hpos
    · cases hphase
    · cases hholder
  have hinv : ∀ s : Machine ι, InUse s → Disciplined s := fun _ huse => huse.disciplined
  refine TransitionSystem.along_iff_meets hinv ?_ ?_ hstart works
    (TransitionSystem.meets_true _ _)
  · rintro s ⟨i, work⟩ t huse - htaken hstep
    exact huse.step htaken hstep
  · rintro s ⟨i, work⟩ huse - hnot
    exact huse.not_disciplined hnot

/-- Two servers that have both found slot 0 free both go on to write it. -/
theorem not_disciplined_race :
    ¬ (calling Bool).Along Disciplined Race.start (Race.works.take 6) := by
  intro halong
  have hlast : (calling Bool).run Race.start (Race.works.take 6) =
      some (((calling Bool).run Race.start (Race.works.take 6)).getD Race.start) := rfl
  have hheld := (TransitionSystem.Along.last halong hlast).holds true 0 rfl
  cases hheld

/-- One of the two posts is lost. -/
example : Race.state.file.length = recordSize := by decide

end Board

end SystemsProgramming
