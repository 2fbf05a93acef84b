/-
The requests of `sharing` out of single system calls.  A request takes effect at one of
its calls, with the locks that its own tests have found, whatever the other processes do
between its calls.
-/
import SystemsProgramming.Refinement
import SystemsProgramming.Board.Fairness
import SystemsProgramming.Board.Sharing
import SystemsProgramming.Board.SystemCalls

namespace SystemsProgramming

namespace Board

open FlatBytes

variable {p : Process} {seen : Slot → Bool} {i next : Slot} {found : Bool}

/-- The slots in front of `i`. -/
def slotsBelow (i : Slot) : List Slot := (List.finRange recordNum).take i

theorem slotsBelow_append (i : Slot) :
    slotsBelow i ++ [i] = (List.finRange recordNum).take (i + 1) := by
  rw [List.take_add_one, slotsBelow]
  congr 1
  simp [i.isLt]

theorem slotsBelow_next (hnext : nextSlot i = some next) :
    slotsBelow next = slotsBelow i ++ [i] := by
  unfold nextSlot at hnext
  split at hnext
  · cases hnext
    exact (slotsBelow_append i).symm
  · cases hnext

theorem slotsBelow_last (hlast : nextSlot i = none) :
    slotsBelow i ++ [i] = List.finRange recordNum := by
  unfold nextSlot at hlast
  split at hlast
  · cases hlast
  · rw [slotsBelow_append]
    apply List.take_of_length_le
    simp only [List.length_finRange]
    omega

theorem ne_of_mem_slotsBelow {slot : Slot} (hslot : slot ∈ slotsBelow i) : slot ≠ i := by
  rintro rfl
  obtain ⟨k, hk, hcell⟩ := List.mem_take_iff_getElem.mp hslot
  have hval := congrArg Fin.val hcell
  simp at hval
  omega

theorem seen_slotsBelow {slot : Slot} (hslot : slot ∈ slotsBelow i) :
    Function.update seen i found slot = seen slot :=
  Function.update_of_ne (ne_of_mem_slotsBelow hslot) _ _

namespace Process

/-- One round of a loop that counts. -/
theorem count_eq (p : Process) (seen : Slot → Bool) (i : Slot) (found : Bool) :
    p.count i found ((slotsBelow i).countP (p.isLocked seen)) =
      (slotsBelow i ++ [i]).countP (p.isLocked (Function.update seen i found)) := by
  have hbelow : (slotsBelow i).countP (p.isLocked (Function.update seen i found)) =
      (slotsBelow i).countP (p.isLocked seen) := by
    apply List.countP_congr
    intro slot hslot
    simp only [isLocked, seen_slotsBelow hslot]
  rw [List.countP_append, hbelow, List.countP_singleton]
  simp only [count, isLocked, Function.update_self]
  split <;> rfl

/-- One round of the loop that puts a reply together. -/
theorem strcat_eq (p : Process) (seen : Slot → Bool) (i : Slot) (found : Bool) :
    p.strcat i found ('\'' :: (slotsBelow i).flatMap (p.pullRecord seen)) =
      '\'' :: (slotsBelow i ++ [i]).flatMap (p.pullRecord (Function.update seen i found)) := by
  have hbelow : (slotsBelow i).flatMap (p.pullRecord (Function.update seen i found)) =
      (slotsBelow i).flatMap (p.pullRecord seen) := by
    apply List.flatMap_congr
    intro slot hslot
    simp only [pullRecord, seen_slotsBelow hslot]
  rw [List.flatMap_append, hbelow, List.flatMap_singleton, strcat, List.cons_append]
  simp only [pullRecord, Function.update_self]

theorem warning_numOfLocked (p : Process) (others : Slot → Bool) :
    p.warning (p.numOfLocked others) = p.warn others := rfl

end Process

/-- The request that a count is for. -/
def Counter.Fits : Counter → Prop
  | .accept => True
  | .pull received => classify received.buf = .pull
  | .check received => classify received.buf = .check

/-- A process on its way through a request; `p` is the process as the requests that have
taken effect leave it. -/
def Caller.Simulates (v : Caller) (p : Process) : Prop :=
  match v.phase with
  | .idle => v.process = p
  | .counting counter i numOfLocked =>
      v.process = p ∧ counter.Fits ∧
        numOfLocked = (slotsBelow i).countP (p.isLocked (v.seen false))
  | .replying received i tmp =>
      v.process = p.warn (v.seen false) ∧ classify received.buf = .pull ∧
        tmp = '\'' :: (slotsBelow i).flatMap (p.pullRecord (v.seen true))
  | .scanning received again k =>
      v.process = p ∧ classify received.buf = .post ∧ p.last + recordNum + 1 ≤ intMax ∧
        k < recordNum ∧ (again = true → ∀ slot, v.seen false slot = true) ∧
        ∀ n < k, v.seen again (slotOf (p.last + 1 + n)) = true
  | .locking received i =>
      v.process = p ∧ classify received.buf = .post ∧ p.last + recordNum + 1 ≤ intMax ∧
        ∃ k : Nat, i = p.last + 1 + k ∧ Chosen (v.seen false) (v.seen true) p k
  | .writing received pos =>
      classify received.buf = .post ∧ p.last + recordNum + 1 ≤ intMax ∧
        p.choose (v.seen false) (v.seen true) = (v.process, pos)
  | .unlocking pos tmp =>
      p = { v.process with
        locked := Function.update v.process.locked pos false
        printed := v.process.printed ++ [.receivePost tmp.fromField] }

theorem pullRecord_warn (p : Process) (others again : Slot → Bool) :
    (p.warn others).pullRecord again = p.pullRecord again := by
  unfold Process.warn
  split <;> rfl

variable {ι : Type*} [DecidableEq ι]

/-- An event of one process changes the file and that process. -/
theorem Shared.step_eq (s : Shared ι) (i : ι) {event : Event}
    (hown : ∀ file, event ≠ .foreign file) : ∃ read : ι → Nat,
      s.step (i, event) = (State.step ⟨s.file, s.process i⟩ event).map fun next =>
        { file := next.file
          process := Function.update s.process i next.process
          versions := s.versions ++ [next.file]
          read := read } := by
  cases event with
  | foreign file => exact absurd rfl (hown file)
  | refresh | accept others | request others again tmp j received => exact ⟨_, rfl⟩

/-- What an event sends back on the connection that it serves, or that it closes it. -/
def Shared.answers (s : Shared ι) : ι × Event → List (ι × Answer)
  | (i, .request others again tmp j received) =>
      match State.handle ⟨s.file, s.process i⟩ others again tmp j received with
      | none | some (.silent, _) => []
      | some (answer, _) => [(i, answer)]
  | _ => []

namespace Machine

/-- The event of `sharing` that takes effect at a step: a count without a reply and the reply
to a pull at their last tests, a post at its write. -/
def commits (s : Machine ι) : ι × Work → List (ι × Event)
  | (i, .refresh) => [(i, .refresh)]
  | (_, .accept) => []
  | (i, .request received) =>
      if classify received.buf = .exit then
        [(i, .request ((s.server i).seen false) ((s.server i).seen true) received.tmp received.j
          received.bytes)]
      else []
  | (i, .call) =>
      match (s.server i).phase with
      | .counting counter slot _ =>
          if nextSlot slot = none then
            match counter with
            | .accept => [(i, .accept (s.seenNow i false slot))]
            | .pull _ => []
            | .check received =>
                [(i, .request (s.seenNow i false slot) ((s.server i).seen true) received.tmp
                  received.j received.bytes)]
          else []
      | .replying received slot _ =>
          if nextSlot slot = none then
            [(i, .request ((s.server i).seen false) (s.seenNow i true slot) received.tmp received.j
              received.bytes)]
          else []
      | .writing received _ =>
          [(i, .request ((s.server i).seen false) ((s.server i).seen true) received.tmp received.j
            received.bytes)]
      | _ => []

/-- What a step sends back, with the process that sends it. -/
def answers (s : Machine ι) (action : ι × Work) : List (ι × Answer) :=
  (s.answer action).toList.map (Prod.mk action.1)

/-- The requests that have taken effect lead to `above`. -/
structure Refines (s : Machine ι) (above : Shared ι) : Prop where
  file : above.file = s.file
  idle : ∀ i, Idle (above.process i)
  simulates : ∀ i, (s.server i).Simulates (above.process i)

/-- A step does what the events do that it commits, and answers what they answer. -/
def Matches (s : Machine ι) (above : Shared ι) (action : ι × Work) (t : Machine ι) : Prop :=
  ∃ later, (sharing ι).run above (s.commits action) = some later ∧
    (sharing ι).trace Shared.answers above (s.commits action) = s.answers action ∧
    t.Refines later

variable {s t : Machine ι} {above : Shared ι} {i : ι} {v : Caller} {work : Work}

/-- A step with no effect above, whatever it does to the locks. -/
theorem Refines.setServer (hrefines : s.Refines above) (hfile : t.file = s.file)
    (hserver : t.server = s.server) (hsimulates : v.Simulates (above.process i)) :
    (t.setServer i v).Refines above := by
  refine ⟨hrefines.file.trans hfile.symm, hrefines.idle, fun k => ?_⟩
  rw [Machine.setServer, hserver]
  dsimp only
  by_cases hk : k = i
  · subst hk
    rwa [Function.update_self]
  · rw [Function.update_of_ne hk]
    exact hrefines.simulates k

theorem Refines.silent (hrefines : t.Refines above) (hcommits : s.commits (i, work) = [])
    (hanswer : s.answer (i, work) = none) : s.Matches above (i, work) t := by
  refine ⟨above, by rw [hcommits]; rfl, ?_, hrefines⟩
  rw [hcommits, answers, hanswer]
  rfl

/-- A step at which an event takes effect. -/
theorem Refines.commit (hrefines : s.Refines above) (event : Event) {next : State}
    (hcommits : s.commits (i, work) = [(i, event)]) (hown : ∀ file, event ≠ .foreign file)
    (hnext : State.step ⟨s.file, above.process i⟩ event = some next)
    (hanswer : above.answers (i, event) = s.answers (i, work))
    (hfile : t.file = next.file) (hserver : t.server = Function.update s.server i v)
    (hsimulates : v.Simulates next.process) : s.Matches above (i, work) t := by
  have hidle : Idle next.process := (hrefines.idle i).step hnext
  rw [← hrefines.file] at hnext
  obtain ⟨read, hstep⟩ := above.step_eq i hown
  rw [hnext, Option.map_some] at hstep
  let later : Shared ι :=
    { file := next.file
      process := Function.update above.process i next.process
      versions := above.versions ++ [next.file]
      read := read }
  have hlater : (sharing ι).step above (i, event) = some later := hstep
  have hself : later.process i = next.process := Function.update_self _ _ _
  have hother : ∀ k, k ≠ i → later.process k = above.process k :=
    fun k hk => Function.update_of_ne hk _ _
  rw [Matches, hcommits]
  refine ⟨later, ?_, ?_, hfile.symm, fun k => ?_, fun k => ?_⟩
  · rw [TransitionSystem.run, hlater]
    rfl
  · simp only [TransitionSystem.trace, hlater, List.append_nil]
    exact hanswer
  · by_cases hk : k = i
    · subst hk
      rwa [hself]
    · rw [hother k hk]
      exact hrefines.idle k
  · rw [hserver]
    by_cases hk : k = i
    · subst hk
      rwa [Function.update_self, hself]
    · rw [Function.update_of_ne hk, hother k hk]
      exact hrefines.simulates k

/-- A process behind a test. -/
def tested (s : Machine ι) (i : ι) (again : Bool) (slot : Slot) : Caller :=
  { s.server i with seen := Function.update (s.server i).seen again (s.seenNow i again slot) }

/-- A test with no effect above. -/
theorem Refines.test (hrefines : s.Refines above) {again : Bool} {slot : Slot}
    {after : Caller → Bool → Caller}
    (hsimulates : (after (s.tested i again slot) (s.getLock i slot)).Simulates (above.process i)) :
    (s.test i again slot after).Refines above := by
  apply hrefines.setServer rfl rfl
  exact hsimulates

/-- A test at which an event takes effect. -/
theorem Refines.test_commit (hrefines : s.Refines above) (event : Event) {again : Bool}
    {slot : Slot} {after : Caller → Bool → Caller} {p : Process}
    (hcommits : s.commits (i, .call) = [(i, event)]) (hown : ∀ file, event ≠ .foreign file)
    (hnext : State.step ⟨s.file, above.process i⟩ event = some ⟨s.file, p⟩)
    (hanswer : above.answers (i, event) = s.answers (i, .call))
    (hsimulates : (after (s.tested i again slot) (s.getLock i slot)).Simulates p) :
    s.Matches above (i, .call) (s.test i again slot after) := by
  apply hrefines.commit event (t := s.test i again slot after) hcommits hown hnext hanswer rfl rfl
  exact hsimulates

theorem seen_tested (s : Machine ι) (i : ι) (again : Bool) (slot : Slot) :
    (s.tested i again slot).seen again = s.seenNow i again slot :=
  Function.update_self _ _ _

theorem seen_tested_not (s : Machine ι) (i : ι) (again : Bool) (slot : Slot) :
    (s.tested i again slot).seen (!again) = (s.server i).seen (!again) :=
  Function.update_of_ne (by cases again <;> decide) _ _

/-- A count takes effect at its last test, except that of a pull. -/
theorem Refines.counting (hrefines : s.Refines above) {counter : Counter} {slot : Slot} {n : Nat}
    (hphase : (s.server i).phase = .counting counter slot n) :
    s.Matches above (i, .call)
      (s.test i false slot fun v found => v.counted found counter slot n) := by
  have hsim := hrefines.simulates i
  simp only [Caller.Simulates, hphase] at hsim
  obtain ⟨hprocess, hfits, hn⟩ := hsim
  have hcount : (s.server i).process.count slot (s.getLock i slot) n =
      (slotsBelow slot ++ [slot]).countP ((above.process i).isLocked (s.seenNow i false slot)) := by
    rw [hn, hprocess]
    exact Process.count_eq _ _ _ _
  have hseen := s.seen_tested i false slot
  cases hnext : nextSlot slot with
  | some next =>
      apply Refines.silent
      · apply hrefines.test
        simp only [Caller.Simulates, Caller.counted, hnext, hseen]
        exact ⟨hprocess, hfits, by rw [slotsBelow_next hnext]; exact hcount⟩
      · simp [commits, hphase, hnext]
      · cases counter <;> simp [answer, hphase, hnext]
  | none =>
      rw [slotsBelow_last hnext] at hcount
      have hwarn : (s.server i).process.warning
          ((s.server i).process.count slot (s.getLock i slot) n) =
            (above.process i).warn (s.seenNow i false slot) := by
        rw [hcount, hprocess]
        exact Process.warning_numOfLocked _ _
      cases counter with
      | accept =>
          apply hrefines.test_commit (.accept (s.seenNow i false slot))
            (p := (above.process i).warn (s.seenNow i false slot)) ?_ (fun _ => Event.noConfusion)
            rfl
          · simp [answers, answer, hphase, Shared.answers]
          · simp only [Caller.Simulates, Caller.counted, hnext]
            exact hwarn
          · simp [commits, hphase, hnext]
      | pull received =>
          have hpull : classify received.buf = .pull := hfits
          apply Refines.silent
          · apply hrefines.test
            simp only [Caller.Simulates, Caller.counted, hnext, hseen]
            exact ⟨hwarn, hpull, rfl⟩
          · simp [commits, hphase, hnext]
          · simp [answer, hphase]
      | check received =>
          have hcheck : classify (cString received.bytes 0) = .check := hfits
          have hreply : (s.server i).process.count slot (s.getLock i slot) n =
              (above.process i).numOfLocked (s.seenNow i false slot) := hcount
          apply hrefines.test_commit
            (.request (s.seenNow i false slot) ((s.server i).seen true) received.tmp received.j
              received.bytes) (p := above.process i) ?_ (fun _ => Event.noConfusion)
          · simp only [State.step, State.handle, hcheck, Option.map_some]
          · simp only [Shared.answers, State.handle, hcheck, answers, answer, hphase, hnext, hreply,
              Process.checkReply]
            rfl
          · simp only [Caller.Simulates, Caller.counted, hnext]
            exact hprocess
          · simp [commits, hphase, hnext]

/-- A pull takes effect at the last test of its reply. -/
theorem Refines.replying (hrefines : s.Refines above) {received : Received} {slot : Slot}
    {tmp : List Char} (hphase : (s.server i).phase = .replying received slot tmp) :
    s.Matches above (i, .call)
      (s.test i true slot fun v found => v.replied found received slot tmp) := by
  have hsim := hrefines.simulates i
  simp only [Caller.Simulates, hphase] at hsim
  obtain ⟨hprocess, hpull, htmp⟩ := hsim
  have hstrcat : (s.server i).process.strcat slot (s.getLock i slot) tmp =
      '\'' :: (slotsBelow slot ++ [slot]).flatMap
        ((above.process i).pullRecord (s.seenNow i true slot)) := by
    rw [htmp, hprocess, Process.strcat, pullRecord_warn, ← Process.strcat, Process.strcat_eq]
    rfl
  have hseen := s.seen_tested i true slot
  have hseen' : (s.tested i true slot).seen false = (s.server i).seen false :=
    s.seen_tested_not i true slot
  cases hnext : nextSlot slot with
  | some next =>
      apply Refines.silent
      · apply hrefines.test
        simp only [Caller.Simulates, Caller.replied, hnext, hseen, hseen']
        exact ⟨hprocess, hpull, by rw [slotsBelow_next hnext]; exact hstrcat⟩
      · simp [commits, hphase, hnext]
      · simp [answer, hphase, hnext]
  | none =>
      rw [slotsBelow_last hnext] at hstrcat
      have hpull' : classify (cString received.bytes 0) = .pull := hpull
      have hreply : (s.server i).process.strcat slot (s.getLock i slot) tmp =
          (above.process i).pullReply (s.seenNow i true slot) := hstrcat
      apply hrefines.test_commit
        (.request ((s.server i).seen false) (s.seenNow i true slot) received.tmp received.j
          received.bytes) (p := (above.process i).warn ((s.server i).seen false)) ?_
          (fun _ => Event.noConfusion)
      · simp only [State.step, State.handle, hpull', Option.map_some]
      · simp only [Shared.answers, State.handle, hpull', answers, answer, hphase, hnext, hreply]
        rfl
      · simp only [Caller.Simulates, Caller.replied, hnext]
        exact hprocess
      · simp [commits, hphase, hnext]

/-- A scan that has found `k` slots locked and then tests the next one. -/
theorem seenNow_upto {again : Bool} {k : Nat} {p : Process} (hidle : Idle p)
    (hk : k < recordNum)
    (hbefore : ∀ n < k, (s.server i).seen again (slotOf (p.last + 1 + n)) = true) :
    let slot := slotOf (p.last + 1 + k)
    s.seenNow i again slot slot = s.getLock i slot ∧
      ∀ n < k, s.seenNow i again slot (slotOf (p.last + 1 + n)) = true := by
  intro slot
  refine ⟨Function.update_self _ _ _, fun n hn => ?_⟩
  -- no slot comes up twice in a scan
  have hapart : slotOf (p.last + 1 + n) ≠ slot := by
    intro heq
    have hval := congrArg Fin.val heq
    have hlast := hidle.last_ge
    simp only [slot, slotOf, recordNum] at hval hk
    omega
  rw [seenNow, Function.update_of_ne hapart]
  exact hbefore n hn

/-- A scan that has found every slot locked. -/
theorem all_of_upto {seen : Slot → Bool} {k : Nat} {p : Process}
    (hupto : ∀ n < k + 1, seen (slotOf (p.last + 1 + n)) = true) (hmore : ¬ k + 1 < recordNum)
    (slot : Slot) : seen slot = true := by
  obtain ⟨n, hn, rfl⟩ := exists_slotOf_eq (p.last + 1) slot
  exact hupto n (by omega)

theorem Refines.scanning (hrefines : s.Refines above) {received : Received} {again : Bool}
    {k : Nat} (hphase : (s.server i).phase = .scanning received again k) :
    (s.test i again (slotOf ((s.server i).process.last + 1 + k)) fun v found =>
      v.scanned found received again k).Refines above := by
  have hsim := hrefines.simulates i
  simp only [Caller.Simulates, hphase] at hsim
  obtain ⟨hprocess, hpost, hbound, hk, hfirst, hbefore⟩ := hsim
  have hidle := hrefines.idle i
  obtain ⟨hnow, hbefore'⟩ := seenNow_upto hidle hk hbefore
  rw [hprocess]
  generalize hslot : slotOf ((above.process i).last + 1 + k) = slot at hnow hbefore'
  have hseen := s.seen_tested i again slot
  have hfirst' : again = true → ∀ slot', (s.tested i again slot).seen false slot' = true := by
    rintro rfl
    rw [show (s.tested i true slot).seen false = _ from s.seen_tested_not i true slot]
    exact hfirst rfl
  apply hrefines.test
  unfold Caller.scanned
  dsimp only
  have hlocked : (s.tested i again slot).process = above.process i := hprocess
  rw [hlocked, hslot, hidle.unlocked, Bool.or_false]
  cases hfound : s.getLock i slot with
  | false =>
      have hscan : Found (s.seenNow i again slot) (above.process i) k := by
        refine ⟨hk, ?_, hbefore'⟩
        rw [hslot]
        exact hnow.trans hfound
      rw [← hseen] at hscan
      simp only [Caller.Simulates, Bool.false_eq_true, if_false]
      refine ⟨trivial, hpost, hbound, k, rfl, ?_⟩
      cases again with
      | false => exact .inl hscan
      | true => exact .inr ⟨hfirst' rfl, hscan⟩
  | true =>
      have hupto : ∀ n < k + 1, (s.tested i again slot).seen again
          (slotOf ((above.process i).last + 1 + n)) = true := by
        intro n hn
        rw [hseen]
        rcases Nat.lt_succ_iff_lt_or_eq.mp hn with hlt | rfl
        · exact hbefore' n hlt
        · rw [hslot]
          exact hnow.trans hfound
      by_cases hmore : k + 1 < recordNum
      · simp only [Caller.Simulates, hmore, if_true]
        exact ⟨trivial, hpost, hbound, trivial, hfirst', hupto⟩
      · have hall := all_of_upto hupto hmore
        cases again with
        | false =>
            simp only [Caller.Simulates, hmore, if_true, if_false, Bool.false_eq_true]
            exact ⟨trivial, hpost, hbound, by decide, fun _ => hall,
              fun n hn => absurd hn (Nat.not_lt_zero n)⟩
        | true =>
            simp only [Caller.Simulates, hmore, if_true, if_false]
            exact ⟨hpost, hbound, hidle.choose_none ⟨hfirst' rfl, hall⟩⟩

/-- A post writes without the lock when its `F_SETLK` fails. -/
theorem Refines.locking (hrefines : s.Refines above) {received : Received} {k : Int}
    (hphase : (s.server i).phase = .locking received k) (hcall : s.call i = some t) :
    t.Refines above := by
  have hsim := hrefines.simulates i
  simp only [Caller.Simulates, hphase] at hsim
  obtain ⟨hprocess, hpost, hbound, n, rfl, hchosen⟩ := hsim
  simp only [call, hphase, Option.some.injEq] at hcall
  subst hcall
  apply hrefines.setServer (setLock_file _ _ _) (setLock_server _ _ _)
  simp only [Caller.Simulates]
  refine ⟨hpost, hbound, ?_⟩
  rw [(hrefines.idle i).choose_some hchosen, hprocess]

/-- A post takes effect at its write. -/
theorem Refines.writing (hrefines : s.Refines above) {received : Received} {pos : Slot}
    (hphase : (s.server i).phase = .writing received pos) (hcall : s.call i = some t) :
    s.Matches above (i, .call) t := by
  have hsim := hrefines.simulates i
  simp only [Caller.Simulates, hphase] at hsim
  obtain ⟨hpost, hbound, hchoose⟩ := hsim
  simp only [call, hphase, Option.map_eq_some_iff] at hcall
  obtain ⟨tmp, hparse, rfl⟩ := hcall
  have hpost' : classify (cString received.bytes 0) = .post := hpost
  have hparse' : parsePost received.tmp received.j (cString received.bytes 0) = some tmp := hparse
  have hhandle : ∀ file, State.handle ⟨file, above.process i⟩ ((s.server i).seen false)
      ((s.server i).seen true) received.tmp received.j received.bytes = some (.silent,
        ⟨overwrite nul file (recordSize * pos) tmp.bytes,
          { (s.server i).process with
            offset := 0
            locked := Function.update (s.server i).process.locked pos false
            printed := (s.server i).process.printed ++ [.receivePost tmp.fromField] }⟩) := by
    intro file
    simp only [State.handle, hpost', Process.post, hchoose, hparse', Option.map_some]
    rw [if_neg (by omega)]
    rfl
  apply hrefines.commit
    (.request ((s.server i).seen false) ((s.server i).seen true) received.tmp received.j
      received.bytes) (by simp only [commits, hphase]) (fun _ => Event.noConfusion)
  · rw [State.step, hhandle]
    rfl
  · simp [Shared.answers, hhandle, answers, answer, hphase]
  · rfl
  · rfl
  · rfl

theorem Refines.unlocking (hrefines : s.Refines above) {pos : Slot} {tmp : Record}
    (hphase : (s.server i).phase = .unlocking pos tmp) (hcall : s.call i = some t) :
    t.Refines above := by
  have hsim := hrefines.simulates i
  simp only [Caller.Simulates, hphase] at hsim
  simp only [call, hphase, Option.some.injEq] at hcall
  subst hcall
  apply hrefines.setServer (unlock_file _ _ _) (unlock_server _ _ _)
  exact hsim.symm

theorem Refines.call (hrefines : s.Refines above) (hcall : s.call i = some t) :
    s.Matches above (i, .call) t := by
  cases called hcall with
  | counting hphase => exact hrefines.counting hphase
  | replying hphase => exact hrefines.replying hphase
  | scanning hphase =>
      exact (hrefines.scanning hphase).silent (by simp [commits, hphase])
        (by simp [answer, hphase])
  | locking hphase =>
      exact (hrefines.locking hphase hcall).silent (by simp [commits, hphase])
        (by simp [answer, hphase])
  | writing hphase => exact hrefines.writing hphase hcall
  | unlocking hphase =>
      exact (hrefines.unlocking hphase hcall).silent (by simp [commits, hphase])
        (by simp [answer, hphase])

/-- A request that has just been read. -/
theorem Refines.request (hrefines : s.Refines above) {received : Received}
    (hphase : (s.server i).phase = .idle)
    (hrequest : (s.server i).request received = some v) :
    s.Matches above (i, .request received) (s.setServer i v) := by
  have hsim := hrefines.simulates i
  simp only [Caller.Simulates, hphase] at hsim
  unfold Caller.request at hrequest
  cases hclass : classify received.buf with
  | pull =>
      simp only [hclass, Option.some.injEq] at hrequest
      subst hrequest
      refine Refines.silent ?_ (by simp [commits, hclass]) (by simp [answer, hclass])
      exact hrefines.setServer rfl rfl ⟨hsim, hclass, rfl⟩
  | check =>
      simp only [hclass, Option.some.injEq] at hrequest
      subst hrequest
      refine Refines.silent ?_ (by simp [commits, hclass]) (by simp [answer, hclass])
      exact hrefines.setServer rfl rfl ⟨hsim, hclass, rfl⟩
  | exit =>
      simp only [hclass, Option.some.injEq] at hrequest
      subst hrequest
      have hexit : classify (cString received.bytes 0) = .exit := hclass
      apply hrefines.commit
        (.request ((s.server i).seen false) ((s.server i).seen true) received.tmp received.j
          received.bytes) (t := s.setServer i (s.server i)) ?_ (fun _ => Event.noConfusion)
      · simp only [State.step, State.handle, hexit, Option.map_some]
        rfl
      · simp [Shared.answers, State.handle, hexit, answers, answer, hclass]
      · rfl
      · rfl
      · exact hrefines.simulates i
      · simp [commits, hclass]
  | post =>
      simp only [hclass] at hrequest
      split at hrequest
      case isTrue => cases hrequest
      case isFalse hbound =>
          obtain rfl := Option.some.inj hrequest
          rw [hsim] at hbound
          refine Refines.silent ?_ (by simp [commits, hclass]) (by simp [answer, hclass])
          exact hrefines.setServer rfl rfl ⟨hsim, hclass, by omega, by decide,
            fun hagain => Bool.noConfusion hagain, fun n hn => absurd hn (Nat.not_lt_zero n)⟩

/-- Every step of a process matches the events that it commits. -/
theorem Refines.step (hrefines : s.Refines above) (hstep : s.step (i, work) = some t) :
    s.Matches above (i, work) t := by
  cases work with
  | call => exact hrefines.call hstep
  | refresh =>
      obtain ⟨hphase, rfl⟩ := step_refresh hstep
      have hsim := hrefines.simulates i
      simp only [Caller.Simulates, hphase] at hsim
      apply hrefines.commit .refresh rfl (fun _ => Event.noConfusion) rfl
      · rfl
      · rfl
      · rfl
      · simp only [Caller.Simulates, hphase, hsim]
  | accept =>
      obtain ⟨hphase, rfl⟩ := step_accept hstep
      have hsim := hrefines.simulates i
      simp only [Caller.Simulates, hphase] at hsim
      refine Refines.silent ?_ rfl rfl
      exact hrefines.setServer rfl rfl ⟨hsim, trivial, rfl⟩
  | request received =>
      obtain ⟨hphase, v, hrequest, rfl⟩ := step_request hstep
      exact hrefines.request hphase hrequest

omit [DecidableEq ι] in
theorem refines_init (file : List Char) (heap : ι → List Char) :
    (Machine.init file heap).Refines (Shared.init file heap) :=
  ⟨rfl, fun _ => ⟨fun _ => rfl, Int.le_refl _⟩, fun _ => rfl⟩

end Machine

/-- Whatever the order of the system calls, the file and the processes are those of a run of
whole requests, each of which takes effect at one of its calls, and the answers to the
clients are the answers of that run, in the same order. -/
theorem calls_refine_sharing (file : List Char) (heap : ι → List Char) {works : List (ι × Work)}
    {s : Machine ι} (hrun : (calling ι).run (Machine.init file heap) works = some s) :
    let events := (calling ι).trace Machine.commits (Machine.init file heap) works
    ∃ above, (sharing ι).run (Shared.init file heap) events = some above ∧
      (sharing ι).trace Shared.answers (Shared.init file heap) events =
        (calling ι).trace Machine.answers (Machine.init file heap) works ∧
      above.file = s.file ∧
      ∀ i, (s.server i).phase = .idle → above.process i = (s.server i).process := by
  obtain ⟨above, habove, hanswers, hrefines⟩ :=
    TransitionSystem.refines_run_trace (N := sharing ι) Machine.commits Machine.answers
      Shared.answers Machine.Refines (fun s action t above hrefines _ hstep => hrefines.step hstep)
      (Machine.refines_init file heap) (TransitionSystem.meets_true _ _) hrun
  refine ⟨above, habove, hanswers, hrefines.file, fun i hphase => ?_⟩
  have hsim := hrefines.simulates i
  simp only [Caller.Simulates, hphase] at hsim
  exact hsim.symm

namespace Race

def post (sender content : Char) : Work :=
  .request ⟨AllLocked.blank, 0, (Request.post [sender] [content]).bytes⟩

/-- Two servers test slot 0 before either locks it. -/
def works : List (Bool × Work) :=
  [(false, post 'a' 'b'), (true, post 'c' 'd'), (false, .call), (true, .call), (false, .call),
    (true, .call), (false, .call), (true, .call), (false, .call), (true, .call)]

/-- The bytes of a fresh page. -/
def heap (_ : Bool) : List Char := List.replicate (recordSize * recordNum) nul

def start : Machine Bool := Machine.init [] heap

def state : Machine Bool := ((calling Bool).run start works).getD start

end Race

namespace LateLock

/-- One server posts and reads its post, and counts no lock for a pull; the other one then
locks the slot, and the first goes on with its reply. -/
def works : List (Bool × Work) :=
  (false, Race.post 'a' 'b') :: List.replicate 4 (false, .call) ++ (false, .refresh) ::
    (false, .request ⟨AllLocked.blank, 0, Request.pull.bytes⟩) ::
      List.replicate recordNum (false, .call) ++ (true, Race.post 'c' 'd') ::
        List.replicate 2 (true, .call) ++ List.replicate recordNum (false, .call)

def state : Machine Bool := ((calling Bool).run Race.start works).getD Race.start

/-- The reply leaves out the slot of the post. -/
example : (calling Bool).trace Machine.answers Race.start works = [(false, .reply ['\''])] := by
  decide

theorem run_works : (calling Bool).run Race.start works = some state := by
  have hsome : ((calling Bool).run Race.start works).isSome = true := by decide
  obtain ⟨last, hlast⟩ := Option.isSome_iff_exists.mp hsome
  rw [state, hlast, Option.getD_some]

end LateLock

theorem calls_refine_sharing_late_lock :
    let events := (calling Bool).trace Machine.commits Race.start LateLock.works
    ∃ above, (sharing Bool).run (Shared.init [] Race.heap) events = some above ∧
      (sharing Bool).trace Shared.answers (Shared.init [] Race.heap) events =
        (calling Bool).trace Machine.answers Race.start LateLock.works ∧
      above.file = LateLock.state.file ∧
      ∀ i, (LateLock.state.server i).phase = .idle →
        above.process i = (LateLock.state.server i).process :=
  calls_refine_sharing [] Race.heap LateLock.run_works

end Board

end SystemsProgramming
