/-
What becomes of the posts.  Each post that a server has read is written once, in the order
in which the server has read them, and a slot of the file holds the last record written to it.
-/
import SystemsProgramming.Board.Atomicity

namespace SystemsProgramming

namespace Board

open FlatBytes

def Received.record (received : Received) : Option Record :=
  parsePost received.tmp received.j received.buf

/-- The post that a process has read and has still to write. -/
def Phase.unwritten : Phase → List Received
  | .scanning received _ _ => [received]
  | .locking received _ => [received]
  | .writing received _ => [received]
  | _ => []

/-- What a step does about posts. -/
inductive PostEvent where
  | reads (received : Received)
  | writes (pos : Slot) (tmp : Record)

namespace PostEvent

def post : PostEvent → Option Received
  | reads received => some received
  | writes _ _ => none

def record : PostEvent → Option Record
  | reads _ => none
  | writes _ tmp => some tmp

/-- The record that goes to `slot`. -/
def recordAt (slot : Slot) : PostEvent → Option Record
  | reads _ => none
  | writes pos tmp => if pos = slot then some tmp else none

/-- A write in one piece. -/
def apply (file : List Char) : PostEvent → List Char
  | reads _ => file
  | writes pos tmp => overwrite nul file (recordSize * pos) tmp.bytes

end PostEvent

/-- What a slot holds after the writes to it. -/
def lastRecord (events : List PostEvent) (slot : Slot) : Option Record :=
  (events.filterMap (PostEvent.recordAt slot)).getLast?

theorem slotBytes_apply (file : List Char) (event : PostEvent) (slot : Slot) :
    slotBytes (event.apply file) slot =
      (event.recordAt slot).elim (slotBytes file slot) Record.bytes := by
  cases event with
  | reads received => rfl
  | writes pos tmp =>
      by_cases hpos : pos = slot
      · subst hpos
        simp only [PostEvent.apply, PostEvent.recordAt, ↓reduceIte, Option.elim_some, slotBytes]
        rw [← tmp.length_bytes]
        exact block_overwrite_self _ _ _ _
      · simp only [PostEvent.apply, PostEvent.recordAt, if_neg hpos, Option.elim_none, slotBytes]
        rw [← tmp.length_bytes]
        exact block_overwrite_of_ne _ _ _ fun hsame => hpos (Fin.ext hsame.symm)

/-- The last write to a slot decides. -/
theorem slotBytes_foldl_apply (file : List Char) (events : List PostEvent) (slot : Slot) :
    slotBytes (events.foldl PostEvent.apply file) slot =
      (lastRecord events slot).elim (slotBytes file slot) Record.bytes := by
  induction events using List.reverseRecOn with
  | nil => rfl
  | append_singleton events event ih =>
      rw [List.foldl_append, List.foldl_cons, List.foldl_nil, slotBytes_apply, ih, lastRecord,
        lastRecord, List.filterMap_append, List.getLast?_append]
      cases h : event.recordAt slot <;> simp [h]

theorem IsBoard.foldl_apply {file : List Char} (hboard : IsBoard file) (events : List PostEvent) :
    IsBoard (events.foldl PostEvent.apply file) := by
  induction events generalizing file with
  | nil => exact hboard
  | cons event events ih =>
      apply ih
      cases event with
      | reads received => exact hboard
      | writes pos tmp => exact hboard.overwrite pos tmp

variable {ι : Type*} [DecidableEq ι] {s t : Machine ι} {i k : ι} {work : Work}

/-- What a log says about process `i`. -/
def eventsOf (i : ι) (log : List (ι × PostEvent)) : List PostEvent :=
  (log.filter fun entry => entry.1 = i).map Prod.snd

namespace Caller

variable {v v' : Caller} {received : Received}

theorem counted_unwritten (found : Bool) (counter : Counter) (slot : Slot) (n : Nat) :
    (v.counted found counter slot n).phase.unwritten = [] := by
  rcases v.counted_phase found counter slot n with ⟨_, _, -, h⟩ | h | ⟨_, -, h⟩ <;> rw [h] <;> rfl

theorem replied_unwritten (found : Bool) (slot : Slot) (tmp : List Char) :
    (v.replied found received slot tmp).phase.unwritten = [] := by
  rcases v.replied_phase found slot tmp with ⟨_, _, -, h⟩ | h <;> rw [h] <;> rfl

theorem scanned_unwritten (found : Bool) (again : Bool) (n : Nat) :
    (v.scanned found received again n).phase.unwritten = [received] := by
  rcases v.scanned_phase found again rfl with ⟨-, h⟩ | ⟨-, h⟩ | ⟨-, h⟩ | ⟨-, h⟩ <;> rw [h] <;> rfl

theorem request_unwritten (hidle : v.phase = .idle) (hrequest : v.request received = some v') :
    v'.phase.unwritten = if classify received.buf = .post then [received] else [] := by
  rcases v.request_phase hrequest with ⟨_, hpost, -, h⟩ | ⟨hpost, h⟩ | ⟨hpost, h⟩
  · rw [h, if_neg hpost]
    rfl
  · rw [h, hidle, if_neg hpost]
    rfl
  · rw [h, if_pos hpost]
    rfl

end Caller

namespace Machine

def postEvent (s : Machine ι) : ι × Work → Option PostEvent
  | (i, .call) =>
      match (s.server i).phase with
      | .writing received pos => received.record.map (PostEvent.writes pos)
      | _ => none
  | (_, .request received) =>
      if classify received.buf = .post then some (.reads received) else none
  | _ => none

def postEvents (s : Machine ι) (action : ι × Work) : List (ι × PostEvent) :=
  (s.postEvent action).toList.map (Prod.mk action.1)

/-- The file changes at a write only. -/
theorem step_file (hstep : s.step (i, work) = some t) :
    t.file = (s.postEvent (i, work)).toList.foldl PostEvent.apply s.file := by
  cases work with
  | refresh =>
      obtain ⟨-, rfl⟩ := step_refresh hstep
      rfl
  | accept =>
      obtain ⟨-, rfl⟩ := step_accept hstep
      rfl
  | request received =>
      obtain ⟨-, v, -, rfl⟩ := step_request hstep
      by_cases hpost : classify received.buf = .post
      · simp [postEvent, hpost, PostEvent.apply, setServer]
      · simp [postEvent, hpost, setServer]
  | call =>
      cases called hstep with
      | counting hphase | replying hphase | scanning hphase =>
          simp [postEvent, hphase, test, setServer]
      | locking hphase | unlocking hphase => simp [postEvent, hphase, setServer]
      | writing hphase hparse =>
          replace hparse : Received.record _ = _ := hparse
          simp [postEvent, hphase, hparse, PostEvent.apply, setServer]

/-- A post that a process has read stays with it until it is written. -/
theorem step_unwritten (hstep : s.step (i, work) = some t) :
    (s.server i).phase.unwritten.map Received.record ++
        ((s.postEvent (i, work)).toList.filterMap PostEvent.post).map Received.record =
      ((s.postEvent (i, work)).toList.filterMap PostEvent.record).map some ++
        (t.server i).phase.unwritten.map Received.record := by
  cases work with
  | refresh =>
      obtain ⟨hphase, rfl⟩ := step_refresh hstep
      simp [postEvent, hphase, Phase.unwritten]
  | accept =>
      obtain ⟨hphase, rfl⟩ := step_accept hstep
      simp [postEvent, hphase, Phase.unwritten]
  | request received =>
      obtain ⟨hphase, v, hrequest, rfl⟩ := step_request hstep
      rw [server_setServer_self, Caller.request_unwritten hphase hrequest]
      by_cases hpost : classify received.buf = .post
      · simp [postEvent, hphase, hpost, Phase.unwritten, PostEvent.post, PostEvent.record]
      · simp [postEvent, hphase, hpost, Phase.unwritten]
  | call =>
      cases called hstep with
      | counting hphase =>
          rw [test, server_setServer_self, Caller.counted_unwritten]
          simp [postEvent, hphase, Phase.unwritten]
      | replying hphase =>
          rw [test, server_setServer_self, Caller.replied_unwritten]
          simp [postEvent, hphase, Phase.unwritten]
      | scanning hphase =>
          rw [test, server_setServer_self, Caller.scanned_unwritten]
          simp [postEvent, hphase, Phase.unwritten]
      | locking hphase | unlocking hphase => simp [postEvent, hphase, Phase.unwritten]
      | writing hphase hparse =>
          replace hparse : Received.record _ = _ := hparse
          simp [postEvent, hphase, hparse, Phase.unwritten, PostEvent.post, PostEvent.record]

theorem eventsOf_postEvents (s : Machine ι) (k i : ι) (work : Work) :
    eventsOf k (s.postEvents (i, work)) = if i = k then (s.postEvent (i, work)).toList else [] := by
  by_cases hk : i = k
  · subst hk
    cases h : s.postEvent (i, work) <;> simp [eventsOf, postEvents, h]
  · cases h : s.postEvent (i, work) <;> simp [eventsOf, postEvents, h, hk]

end Machine

/-- The log accounts for the file and for the posts of every process. -/
structure Accounted (file : List Char) (s : Machine ι) (log : List (ι × PostEvent)) : Prop where
  file : s.file = (log.map Prod.snd).foldl PostEvent.apply file
  posts : ∀ i, ((eventsOf i log).filterMap PostEvent.post).map Received.record =
    ((eventsOf i log).filterMap PostEvent.record).map some ++
      (s.server i).phase.unwritten.map Received.record

theorem Accounted.step {file : List Char} {log : List (ι × PostEvent)}
    (haccounted : Accounted file s log) (hstep : s.step (i, work) = some t) :
    Accounted file t (log ++ s.postEvents (i, work)) := by
  constructor
  · have hevents : (s.postEvents (i, work)).map Prod.snd = (s.postEvent (i, work)).toList := by
      cases h : s.postEvent (i, work) <;> simp [Machine.postEvents, h]
    rw [List.map_append, List.foldl_append, ← haccounted.file, hevents]
    exact Machine.step_file hstep
  · intro k
    have hsplit : eventsOf k (log ++ s.postEvents (i, work)) =
        eventsOf k log ++ eventsOf k (s.postEvents (i, work)) := by simp [eventsOf]
    rw [hsplit, Machine.eventsOf_postEvents]
    by_cases hk : i = k
    · subst hk
      rw [if_pos rfl, List.filterMap_append, List.filterMap_append, List.map_append,
        List.map_append, haccounted.posts i, List.append_assoc, List.append_assoc,
        Machine.step_unwritten hstep]
    · rw [if_neg hk, List.append_nil, Machine.step_server_of_ne hstep (Ne.symm hk)]
      exact haccounted.posts k

/-- In every run the records that a process has written are those of the posts it has read, one
for each and in the same order, up to the post it is about to write.  The file stays a board,
and a slot holds the last record that any process has written to it, in one piece. -/
theorem posts_written_once (file : List Char) (hboard : IsBoard file) (heap : ι → List Char)
    {works : List (ι × Work)} {s : Machine ι}
    (hrun : (calling ι).run (Machine.init file heap) works = some s) :
    let log := (calling ι).trace Machine.postEvents (Machine.init file heap) works
    (∀ i, ((eventsOf i log).filterMap PostEvent.post).map Received.record =
      ((eventsOf i log).filterMap PostEvent.record).map some ++
        (s.server i).phase.unwritten.map Received.record) ∧
    IsBoard s.file ∧
    ∀ slot, slotBytes s.file slot =
      (lastRecord (log.map Prod.snd) slot).elim (slotBytes file slot) Record.bytes := by
  have hstart : Accounted file (Machine.init file heap) [] := ⟨rfl, fun i => rfl⟩
  have haccounted := TransitionSystem.trace_invariant Machine.postEvents (Accounted file) ?_ hstart
    (TransitionSystem.meets_true _ _) hrun
  · refine ⟨haccounted.posts, ?_, fun slot => ?_⟩
    · rw [haccounted.file]
      exact hboard.foldl_apply _
    · rw [haccounted.file]
      exact slotBytes_foldl_apply _ _ _
  · rintro s ⟨i, work⟩ t log haccounted - hstep
    exact haccounted.step hstep

theorem posts_written_once_race :
    let log := (calling Bool).trace Machine.postEvents Race.start Race.works
    (∀ i, ((eventsOf i log).filterMap PostEvent.post).map Received.record =
      ((eventsOf i log).filterMap PostEvent.record).map some ++
        (Race.state.server i).phase.unwritten.map Received.record) ∧
    IsBoard Race.state.file ∧
    ∀ slot, slotBytes Race.state.file slot =
      (lastRecord (log.map Prod.snd) slot).elim (slotBytes [] slot) Record.bytes :=
  posts_written_once [] isBoard_nil Race.heap rfl

end Board

end SystemsProgramming
