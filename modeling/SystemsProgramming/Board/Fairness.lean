/-
The order in which posts take the slots.  `last` is a cursor that is never reduced, so a slot
does not come up again before every other slot that could be had has been written.
-/
import SystemsProgramming.Cursor
import SystemsProgramming.Board.LockedSlots

namespace SystemsProgramming

namespace Board

open Cursor

/-- What a post has written, and the slots that its first scan found locked. -/
structure Written where
  slot : Slot
  others : Slot → Bool

/-- The slot `pos` of a post. -/
def State.pos (s : State) (others again : Slot → Bool) : Slot := (s.process.choose others again).2

/-- The posts among the events. -/
def State.posts (s : State) : Event → List Written
  | .request others again _ _ received =>
      if classify (cString received 0) = .post then [⟨s.pos others again, others⟩] else []
  | _ => []

/-- A post finds a slot that is not locked, and the bounds of its scan are ints. -/
def HasRoom (s : State) : Event → Prop
  | .request others _ _ _ received => classify (cString received 0) = .post →
      (∃ slot, others slot = false) ∧ s.process.last < intMax - recordNum - 1
  | _ => True

/-- A post is executed, and it writes one slot, which is not locked. -/
def WritesOne (s : State) : Event → Prop
  | .request others again tmp j received => classify (cString received 0) = .post →
      ∀ record, parsePost tmp j (cString received 0) = some record →
        others (s.pos others again) = false ∧
          ∃ t, s.step (.request others again tmp j received) = some t ∧
            slotBytes t.file (s.pos others again) = record.bytes ∧
            ∀ slot, slot ≠ s.pos others again → slotBytes t.file slot = slotBytes s.file slot
  | _ => True

/-- Between two writes of a slot each other slot is written that has been free at every post
behind the first of them, up to the second. -/
def Fair (log : List Written) : Prop :=
  ∀ before first between second after,
    log = before ++ first :: (between ++ second :: after) → first.slot = second.slot →
    ∀ slot, slot ≠ first.slot → (∀ post ∈ between ++ [second], post.others slot = false) →
      ∃ post ∈ between, post.slot = slot

variable {s t : State} {others again : Slot → Bool} {p : Process} {event : Event} {file : List Char}
  {tmp record : Record} {j : Int} {buf received : List Char} {log : List Written}

theorem cyclic_slotOf : Cyclic slotOf := by
  intro i j hlt hsame slot hne
  have hmod : i % recordNum = j % recordNum := by
    have hval := congrArg Fin.val hsame
    simp only [slotOf, recordNum] at hval ⊢
    omega
  obtain ⟨k, hk, hslot⟩ := exists_slotOf_eq i slot
  have hpos : k ≠ 0 := by
    rintro rfl
    exact hne (by simpa using hslot.symm)
  refine ⟨i + k, ?_, hslot⟩
  simp only [recordNum] at hmod hk
  omega

/-- The scan as a move of the cursor. -/
theorem Idle.choose_moves (hidle : Idle p) (hfree : ∃ slot, others slot = false)
    (again : Slot → Bool) :
    Moves slotOf p.last ⟨(p.choose others again).1.last, others⟩ ∧
      (p.choose others again).2 = slotOf (p.choose others again).1.last := by
  rcases hidle.choose_cases others again with ⟨⟨hall, -⟩, -⟩ | ⟨k, hchosen, hchoose⟩
  · obtain ⟨slot, hslot⟩ := hfree
    simp [hall slot] at hslot
  · have hfound := hchosen.found hfree
    rw [hchoose]
    refine ⟨⟨?_, hfound.free, fun i hlt hle => ?_⟩, rfl⟩
    · change p.last < p.last + 1 + k
      omega
    · change i < p.last + 1 + k at hle
      obtain ⟨n, rfl⟩ := Int.le.dest (show p.last + 1 ≤ i from hlt)
      exact hfound.first n (by omega)

/-- A post goes to `pos` and leaves the cursor where the scan has stopped. -/
theorem Idle.post_pos (hidle : Idle p) (hfree : ∃ slot, others slot = false)
    (again : Slot → Bool) (file : List Char) (hbound : p.last + recordNum + 1 ≤ intMax)
    (hparse : parsePost tmp j buf = some record) :
    ∃ file' p', p.post others again file tmp j buf = some (file', p') ∧
      Posted p file record (p.choose others again).2 (p.choose others again).1.last file' p' := by
  obtain ⟨file', p', hpost, hcases⟩ := hidle.post_cases others again file hbound hparse
  refine ⟨file', p', hpost, ?_⟩
  rcases hcases with ⟨⟨hall, -⟩, -⟩ | ⟨k, hchosen, hposted⟩
  · obtain ⟨slot, hslot⟩ := hfree
    simp [hall slot] at hslot
  · rw [hidle.choose_some hchosen]
    exact hposted

theorem step_post (hpost : classify (cString received 0) = .post) :
    s.step (.request others again tmp j received) =
      (s.process.post others again s.file tmp j (cString received 0)).map fun next =>
        ⟨next.1, next.2⟩ := by
  simp only [State.step, State.handle, hpost, Option.map_map]
  rfl

theorem Idle.writesOne (hidle : Idle s.process) (hroom : HasRoom s event) : WritesOne s event := by
  cases event with
  | refresh | accept | foreign => trivial
  | request others again tmp j received =>
      intro hpost record hparse
      obtain ⟨hfree, hlast⟩ := hroom hpost
      have hbound : s.process.last + recordNum + 1 ≤ intMax := by omega
      obtain ⟨hmoves, hpos⟩ := hidle.choose_moves hfree again
      obtain ⟨file', p', heq, hposted⟩ := hidle.post_pos hfree again s.file hbound hparse
      refine ⟨?_, ⟨file', p'⟩, by rw [step_post hpost, heq]; rfl, hposted.slotBytes_self, ?_⟩
      · rw [State.pos, hpos]
        exact hmoves.free
      · exact fun slot hne => hposted.slotBytes_of_ne hne

theorem last_warn (p : Process) (others : Slot → Bool) : (p.warn others).last = p.last := by
  unfold Process.warn
  split <;> rfl

/-- No other request moves the cursor. -/
theorem last_handle (hpost : classify (cString received 0) ≠ .post) {next : Answer × State}
    (hhandle : s.handle others again tmp j received = some next) :
    next.2.process.last = s.process.last := by
  unfold State.handle at hhandle
  cases hclass : classify (cString received 0) with
  | post => exact absurd hclass hpost
  | pull =>
      simp only [hclass, Option.some.injEq] at hhandle
      subst hhandle
      exact last_warn s.process others
  | check | exit =>
      simp only [hclass, Option.some.injEq] at hhandle
      subst hhandle
      rfl

/-- The post that belongs to a stop of the cursor. -/
def written (stop : Stop Int Slot) : Written := ⟨slotOf stop.place, stop.taken⟩

/-- The log is that of a cursor that has come to `last`. -/
def Tracked (start : Int) (s : State) (log : List Written) : Prop :=
  Idle s.process ∧ ∃ stops, Path slotOf start stops ∧ final start stops = s.process.last ∧
    log = stops.map written

theorem Tracked.step {start : Int} (htracked : Tracked start s log) (hroom : HasRoom s event)
    (hstep : s.step event = some t) : Tracked start t (log ++ s.posts event) := by
  obtain ⟨hidle, stops, hpath, hfinal, rfl⟩ := htracked
  refine ⟨hidle.step hstep, ?_⟩
  cases event with
  | refresh =>
      cases hstep
      exact ⟨stops, hpath, hfinal, by simp [State.posts]⟩
  | accept others =>
      cases hstep
      have hlast := last_warn s.process others
      exact ⟨stops, hpath, hfinal.trans hlast.symm, by simp [State.posts]⟩
  | foreign file =>
      cases hstep
      exact ⟨stops, hpath, hfinal, by simp [State.posts]⟩
  | request others again tmp j received =>
      by_cases hpost : classify (cString received 0) = .post
      · obtain ⟨hfree, -⟩ := hroom hpost
        obtain ⟨hmoves, hpos⟩ := hidle.choose_moves hfree again
        rw [step_post hpost] at hstep
        obtain ⟨next, hnext, rfl⟩ := Option.map_eq_some_iff.mp hstep
        obtain ⟨hbound, record, hparse⟩ := post_defined hnext
        obtain ⟨file', p', heq, hposted⟩ := hidle.post_pos hfree again s.file hbound hparse
        obtain rfl : (file', p') = next := Option.some.inj (heq.symm.trans hnext)
        refine ⟨stops ++ [⟨(s.process.choose others again).1.last, others⟩], ?_, ?_, ?_⟩
        · exact path_append.mpr ⟨hpath, hfinal ▸ hmoves, trivial⟩
        · rw [final_append_singleton]
          exact hposted.last_eq.symm
        · simp [State.posts, hpost, State.pos, hpos, written]
      · obtain ⟨next, hhandle, rfl⟩ := Option.map_eq_some_iff.mp hstep
        have hlast := last_handle hpost hhandle
        refine ⟨stops, hpath, hfinal.trans hlast.symm, ?_⟩
        simp [State.posts, hpost]

/-- The log of a cursor is fair. -/
theorem Tracked.fair {start : Int} (htracked : Tracked start s log) : Fair log := by
  obtain ⟨-, stops, hpath, -, rfl⟩ := htracked
  intro before first between second after hlog hsame slot hne hfree
  obtain ⟨before', tail, rfl, rfl, htail⟩ := List.map_eq_append_iff.mp hlog
  obtain ⟨first', tail', rfl, rfl, htail'⟩ := List.map_eq_cons_iff.mp htail
  obtain ⟨between', last, rfl, rfl, hlast⟩ := List.map_eq_append_iff.mp htail'
  obtain ⟨second', after', rfl, rfl, rfl⟩ := List.map_eq_cons_iff.mp hlast
  have hfree' : ∀ stop ∈ between' ++ [second'], stop.taken slot = false := by
    intro stop hmem
    have hmem' : written stop ∈ (between' ++ [second']).map written := List.mem_map_of_mem hmem
    rw [List.map_append] at hmem'
    exact hfree _ hmem'
  obtain ⟨stop, hmem, hslot⟩ := hpath.fair cyclic_slotOf hsame hne hfree'
  exact ⟨_, List.mem_map_of_mem hmem, hslot⟩

/-- In every run in which each post finds a free slot, each post writes one slot that is not
locked, and no slot is written again before the others that could be had. -/
theorem posts_fair (hreach : serving.Reachable s) {events : List Event}
    (hroom : serving.Meets HasRoom s events) :
    serving.Meets WritesOne s events ∧ Fair (serving.trace State.posts s events) := by
  have hidle := reachable_idle hreach
  constructor
  · have hkept : ∀ s event t, Idle s.process → HasRoom s event → serving.step s event = some t →
        Idle t.process := fun _ _ _ hidle _ hstep => hidle.step hstep
    exact hroom.imp hkept (fun _ _ hidle hroom => hidle.writesOne hroom) hidle
  · obtain ⟨done, last, hmeets, hrun, htrace⟩ :=
      TransitionSystem.exists_run_trace State.posts hroom
    rw [← htrace]
    have htracked : Tracked s.process.last last (serving.trace State.posts s done) := by
      refine TransitionSystem.trace_invariant State.posts (Tracked s.process.last) ?_ ?_ hmeets hrun
      · exact fun _ _ _ _ htracked hroom hstep => htracked.step hroom hstep
      · exact ⟨hidle, [], trivial, rfl, rfl⟩
    exact htracked.fair

namespace OneSlot

/-- A post with all slots free, and one with slot 0 alone free. -/
def events : List Event :=
  let free : Slot → Bool := fun _ => false
  let locked : Slot → Bool := fun slot => slot != 0
  [.request free free AllLocked.blank 0 AllLocked.text,
    .request locked locked AllLocked.blank 0 AllLocked.text]

/-- Both posts go to slot 0. -/
example : (serving.trace State.posts AllLocked.state events).map Written.slot = [0, 0] := by decide

theorem hasRoom : serving.Meets HasRoom AllLocked.state events := by
  refine ⟨fun _ => ⟨⟨0, rfl⟩, by decide⟩, fun next hnext => ?_⟩
  cases hnext
  exact ⟨fun _ => ⟨⟨0, rfl⟩, by decide⟩, fun _ _ => trivial⟩

end OneSlot

theorem posts_fair_one_slot :
    serving.Meets WritesOne AllLocked.state OneSlot.events ∧
      Fair (serving.trace State.posts AllLocked.state OneSlot.events) :=
  posts_fair AllLocked.reachable OneSlot.hasRoom

end Board

end SystemsProgramming
