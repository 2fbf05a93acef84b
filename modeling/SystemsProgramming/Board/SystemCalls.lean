/-
Server processes on one file, one system call on the file at a time.  A lock that
`F_GETLK` has found free may be taken before the `F_SETLK`, and a post goes on when
`F_SETLK` fails.
-/
import SystemsProgramming.Board.Model

namespace SystemsProgramming

namespace Board

open FlatBytes

/-- What a read from a connection has returned, and the uninitialised variables of the
parser. -/
structure Received where
  tmp : Record
  j : Int
  bytes : List Char

def Received.buf (received : Received) : List Char := cString received.bytes 0

/-- The three loops that count locked slots. -/
inductive Counter where
  | accept
  | pull (received : Received)
  | check (received : Received)

/-- The next system call of a process on the file. -/
inductive Phase where
  /-- None: the process is at the top of its loop or about to read a request. -/
  | idle
  /-- The `F_GETLK` of a slot for a count. -/
  | counting (counter : Counter) (i : Slot) (numOfLocked : Nat)
  /-- The `F_GETLK` of a slot for the reply to a pull; `tmp` is the reply so far. -/
  | replying (received : Received) (i : Slot) (tmp : List Char)
  /-- The `F_GETLK` of slot `last + 1 + k` in the first or the second scan of a post. -/
  | scanning (received : Received) (again : Bool) (k : Nat)
  /-- The `F_SETLK` of the slot of `i`. -/
  | locking (received : Received) (i : Int)
  /-- The `write` of the record, between its two `lseek`s. -/
  | writing (received : Received) (pos : Slot)
  /-- The `F_UNLCK` behind the write of `tmp`. -/
  | unlocking (pos : Slot) (tmp : Record)

/-- A server process.  `seen` is a log of what its last `F_GETLK` on each slot has found, in
the first loop of a request (`false`) and in the second (`true`), and no step reads it. -/
structure Caller where
  process : Process
  phase : Phase
  seen : Bool → Slot → Bool

namespace Process

/-- `if (is_locked(DB, i) || locked[i]) num_of_locked++`. -/
def count (p : Process) (i : Slot) (found : Bool) (numOfLocked : Nat) : Nat :=
  if found || p.locked i then numOfLocked + 1 else numOfLocked

/-- The warning behind a count. -/
def warning (p : Process) (numOfLocked : Nat) : Process :=
  if 0 < numOfLocked then { p with printed := p.printed ++ [.warning numOfLocked] } else p

/-- The text that slot `i` adds to the reply to a pull. -/
def strcat (p : Process) (i : Slot) (found : Bool) (tmp : List Char) : List Char :=
  tmp ++ p.pullRecord (fun _ => found) i

end Process

/-- `i + 1`, while it is below `RECORD_NUM`. -/
def nextSlot (i : Slot) : Option Slot :=
  if h : i.val + 1 < recordNum then some ⟨i + 1, h⟩ else none

namespace Caller

variable (v : Caller) (found : Bool)

def counted (counter : Counter) (i : Slot) (numOfLocked : Nat) : Caller :=
  let numOfLocked := v.process.count i found numOfLocked
  match nextSlot i with
  | some next => { v with phase := .counting counter next numOfLocked }
  | none =>
      match counter with
      | .accept => { v with process := v.process.warning numOfLocked, phase := .idle }
      | .pull received =>
          { v with
            process := v.process.warning numOfLocked
            phase := .replying received 0 ['\''] }
      | .check _ => { v with phase := .idle }

def replied (received : Received) (i : Slot) (tmp : List Char) : Caller :=
  match nextSlot i with
  | some next => { v with phase := .replying received next (v.process.strcat i found tmp) }
  | none => { v with phase := .idle }

/-- `pos` stays 0 when the second scan has found no slot. -/
def scanned (received : Received) (again : Bool) (k : Nat) : Caller :=
  let i := v.process.last + 1 + k
  if found || v.process.locked (slotOf i) then
    if k + 1 < recordNum then { v with phase := .scanning received again (k + 1) }
    else if again then { v with phase := .writing received 0 }
    else { v with phase := .scanning received true 0 }
  else { v with phase := .locking received i }

/-- A request, up to the first system call on the file.  `none` is the overflow of the
bound of the scans. -/
def request (received : Received) : Option Caller :=
  match classify received.buf with
  | .pull => some { v with phase := .counting (.pull received) 0 0 }
  | .check => some { v with phase := .counting (.check received) 0 0 }
  | .exit => some v
  | .post =>
      if intMax < v.process.last + recordNum + 1 then none
      else some { v with phase := .scanning received false 0 }

variable {received : Received}

theorem nextSlot_val {slot next : Slot} (hnext : nextSlot slot = some next) :
    next.val = slot + 1 := by
  unfold nextSlot at hnext
  split at hnext
  · cases hnext
    rfl
  · cases hnext

/-- Where a test of a count leads. -/
theorem counted_phase (counter : Counter) (slot : Slot) (n : Nat) :
    (∃ next m, nextSlot slot = some next ∧
      (v.counted found counter slot n).phase = .counting counter next m) ∨
    (v.counted found counter slot n).phase = .idle ∨
    ∃ received, counter = .pull received ∧
      (v.counted found counter slot n).phase = .replying received 0 ['\''] := by
  unfold counted
  dsimp only
  cases hnext : nextSlot slot with
  | some next => exact .inl ⟨next, _, rfl, rfl⟩
  | none =>
      cases counter with
      | accept | check => exact .inr (.inl rfl)
      | pull received => exact .inr (.inr ⟨received, rfl, rfl⟩)

theorem replied_phase (slot : Slot) (tmp : List Char) :
    (∃ next tmp', nextSlot slot = some next ∧
      (v.replied found received slot tmp).phase = .replying received next tmp') ∨
    (v.replied found received slot tmp).phase = .idle := by
  unfold replied
  cases hnext : nextSlot slot with
  | some next => exact .inl ⟨next, _, rfl, rfl⟩
  | none => exact .inr rfl

/-- Where a test of a scan leads: to the lock of a free slot, on, to the second scan, or on
with slot 0 when that has found nothing. -/
theorem scanned_phase (again : Bool) {k : Nat} {taken : Bool}
    (htaken : (found || v.process.locked (slotOf (v.process.last + 1 + k))) = taken) :
    taken = false ∧
      (v.scanned found received again k).phase = .locking received (v.process.last + 1 + k) ∨
    (taken = true ∧ k + 1 < recordNum) ∧
      (v.scanned found received again k).phase = .scanning received again (k + 1) ∨
    (taken = true ∧ recordNum ≤ k + 1 ∧ again = false) ∧
      (v.scanned found received again k).phase = .scanning received true 0 ∨
    (taken = true ∧ recordNum ≤ k + 1 ∧ again = true) ∧
      (v.scanned found received again k).phase = .writing received 0 := by
  unfold scanned
  dsimp only
  rw [htaken]
  cases taken with
  | false => exact .inl ⟨rfl, rfl⟩
  | true =>
      rw [if_pos rfl]
      split
      case isTrue hmore => exact .inr (.inl ⟨⟨rfl, hmore⟩, rfl⟩)
      case isFalse hmore =>
          have hlast := Nat.le_of_not_lt hmore
          cases again with
          | false => exact .inr (.inr (.inl ⟨⟨rfl, hlast, rfl⟩, rfl⟩))
          | true => exact .inr (.inr (.inr ⟨⟨rfl, hlast, rfl⟩, rfl⟩))

/-- Where a request leads. -/
theorem request_phase {v' : Caller} (hrequest : v.request received = some v') :
    (∃ counter, classify received.buf ≠ .post ∧
      (counter = .pull received ∨ counter = .check received) ∧
      v'.phase = .counting counter 0 0) ∨
    classify received.buf ≠ .post ∧ v'.phase = v.phase ∨
    classify received.buf = .post ∧ v'.phase = .scanning received false 0 := by
  unfold request at hrequest
  cases hclass : classify received.buf with
  | pull =>
      simp only [hclass, Option.some.injEq] at hrequest
      subst hrequest
      exact .inl ⟨_, Message.noConfusion, .inl rfl, rfl⟩
  | check =>
      simp only [hclass, Option.some.injEq] at hrequest
      subst hrequest
      exact .inl ⟨_, Message.noConfusion, .inr rfl, rfl⟩
  | exit =>
      simp only [hclass, Option.some.injEq] at hrequest
      subst hrequest
      exact .inr (.inl ⟨Message.noConfusion, rfl⟩)
  | post =>
      simp only [hclass] at hrequest
      split at hrequest
      · cases hrequest
      · cases hrequest
        exact .inr (.inr ⟨rfl, rfl⟩)

end Caller

/-- The file, who holds the write lock of each slot, and the processes. -/
structure Machine (ι : Type*) where
  file : List Char
  holder : Slot → Option ι
  server : ι → Caller

/-- What a process does next. -/
inductive Work where
  /-- The `read` of the file at the top of the loop. -/
  | refresh
  /-- A new connection. -/
  | accept
  | request (received : Received)
  /-- The system call that its phase names. -/
  | call

namespace Machine

variable {ι : Type*} [DecidableEq ι] (s : Machine ι) (i : ι)

def setServer (v : Caller) : Machine ι := { s with server := Function.update s.server i v }

@[simp] theorem server_setServer_self (v : Caller) : (s.setServer i v).server i = v :=
  Function.update_self _ _ _

@[simp] theorem server_setServer_of_ne {k : ι} (hk : k ≠ i) (v : Caller) :
    (s.setServer i v).server k = s.server k :=
  Function.update_of_ne hk _ _

/-- What `F_GETLK` reports to process `i`: a lock of another process. -/
def getLock (slot : Slot) : Bool := (s.holder slot).any (· ≠ i)

/-- `F_SETLK` with `F_WRLCK`, which fails when another process holds the lock. -/
def setLock (slot : Slot) : Machine ι :=
  if s.getLock i slot then s else { s with holder := Function.update s.holder slot (some i) }

/-- `F_SETLK` with `F_UNLCK`, which gives up a lock of the process itself. -/
def unlock (slot : Slot) : Machine ι :=
  if s.holder slot = some i then { s with holder := Function.update s.holder slot none } else s

@[simp] theorem setLock_file (slot : Slot) : (s.setLock i slot).file = s.file := by
  unfold setLock
  split <;> rfl

@[simp] theorem setLock_server (slot : Slot) : (s.setLock i slot).server = s.server := by
  unfold setLock
  split <;> rfl

@[simp] theorem unlock_file (slot : Slot) : (s.unlock i slot).file = s.file := by
  unfold unlock
  split <;> rfl

@[simp] theorem unlock_server (slot : Slot) : (s.unlock i slot).server = s.server := by
  unfold unlock
  split <;> rfl

/-- What the tests of process `i` in the first loop, or `again` in the second, have found
once it has tested `slot`. -/
def seenNow (again : Bool) (slot : Slot) : Slot → Bool :=
  Function.update ((s.server i).seen again) slot (s.getLock i slot)

/-- An `F_GETLK`, and what the process does with its result. -/
def test (again : Bool) (slot : Slot) (after : Caller → Bool → Caller) : Machine ι :=
  let seen := Function.update (s.server i).seen again (s.seenNow i again slot)
  s.setServer i (after { s.server i with seen := seen } (s.getLock i slot))

def call : Option (Machine ι) :=
  let v := s.server i
  match v.phase with
  | .idle => none
  | .counting counter slot numOfLocked =>
      some (s.test i false slot fun v found => v.counted found counter slot numOfLocked)
  | .replying received slot tmp =>
      some (s.test i true slot fun v found => v.replied found received slot tmp)
  | .scanning received again k =>
      some (s.test i again (slotOf (v.process.last + 1 + k)) fun v found =>
        v.scanned found received again k)
  | .locking received k =>
      some ((s.setLock i (slotOf k)).setServer i
        { v with
          process :=
            { v.process with
              locked := Function.update v.process.locked (slotOf k) true
              last := k }
          phase := .writing received (slotOf k) })
  | .writing received pos =>
      (parsePost received.tmp received.j received.buf).map fun tmp =>
        { s with file := overwrite nul s.file (recordSize * pos) tmp.bytes }.setServer i
          { v with
            process := { v.process with offset := 0 }
            phase := .unlocking pos tmp }
  | .unlocking pos tmp =>
      some ((s.unlock i pos).setServer i
        { v with
          process :=
            { v.process with
              locked := Function.update v.process.locked pos false
              printed := v.process.printed ++ [.receivePost tmp.fromField] }
          phase := .idle })

def step : ι × Work → Option (Machine ι)
  | (i, .call) => s.call i
  | (i, work) =>
      let v := s.server i
      match v.phase, work with
      | .idle, .refresh => some (s.setServer i { v with process := v.process.refresh s.file })
      | .idle, .accept => some (s.setServer i { v with phase := .counting .accept 0 0 })
      | .idle, .request received => (v.request received).map (s.setServer i)
      | _, _ => none

variable {s i} {t : Machine ι}

theorem step_refresh (hstep : s.step (i, .refresh) = some t) : (s.server i).phase = .idle ∧
    t = s.setServer i { s.server i with process := (s.server i).process.refresh s.file } := by
  cases hphase : (s.server i).phase with
  | idle =>
      simp only [step, hphase, Option.some.injEq] at hstep
      rw [← hphase] at hstep
      exact ⟨rfl, hstep.symm⟩
  | _ => simp [step, hphase] at hstep

theorem step_accept (hstep : s.step (i, .accept) = some t) : (s.server i).phase = .idle ∧
    t = s.setServer i { s.server i with phase := .counting .accept 0 0 } := by
  cases hphase : (s.server i).phase with
  | idle =>
      simp only [step, hphase, Option.some.injEq] at hstep
      exact ⟨rfl, hstep.symm⟩
  | _ => simp [step, hphase] at hstep

theorem step_request {received : Received} (hstep : s.step (i, .request received) = some t) :
    (s.server i).phase = .idle ∧
      ∃ v, (s.server i).request received = some v ∧ t = s.setServer i v := by
  cases hphase : (s.server i).phase with
  | idle =>
      simp only [step, hphase, Option.map_eq_some_iff] at hstep
      obtain ⟨v, hrequest, heq⟩ := hstep
      exact ⟨rfl, v, hrequest, heq.symm⟩
  | _ => simp [step, hphase] at hstep

/-- The call of a process, by its phase. -/
inductive Called (s : Machine ι) (i : ι) : Machine ι → Prop where
  | counting {counter : Counter} {slot : Slot} {n : Nat}
      (hphase : (s.server i).phase = .counting counter slot n) :
      Called s i (s.test i false slot fun v found => v.counted found counter slot n)
  | replying {received : Received} {slot : Slot} {tmp : List Char}
      (hphase : (s.server i).phase = .replying received slot tmp) :
      Called s i (s.test i true slot fun v found => v.replied found received slot tmp)
  | scanning {received : Received} {again : Bool} {k : Nat}
      (hphase : (s.server i).phase = .scanning received again k) :
      Called s i (s.test i again (slotOf ((s.server i).process.last + 1 + k)) fun v found =>
        v.scanned found received again k)
  | locking {received : Received} {k : Int}
      (hphase : (s.server i).phase = .locking received k) :
      Called s i ((s.setLock i (slotOf k)).setServer i
        { s.server i with
          process :=
            { (s.server i).process with
              locked := Function.update (s.server i).process.locked (slotOf k) true
              last := k }
          phase := .writing received (slotOf k) })
  | writing {received : Received} {pos : Slot} {tmp : Record}
      (hphase : (s.server i).phase = .writing received pos)
      (hparse : parsePost received.tmp received.j received.buf = some tmp) :
      Called s i
        ({ s with file := overwrite nul s.file (recordSize * pos) tmp.bytes }.setServer i
          { s.server i with
            process := { (s.server i).process with offset := 0 }
            phase := .unlocking pos tmp })
  | unlocking {pos : Slot} {tmp : Record}
      (hphase : (s.server i).phase = .unlocking pos tmp) :
      Called s i ((s.unlock i pos).setServer i
        { s.server i with
          process :=
            { (s.server i).process with
              locked := Function.update (s.server i).process.locked pos false
              printed := (s.server i).process.printed ++ [.receivePost tmp.fromField] }
          phase := .idle })

theorem called (hcall : s.call i = some t) : s.Called i t := by
  cases hphase : (s.server i).phase with
  | idle => simp [call, hphase] at hcall
  | counting counter slot n =>
      simp only [call, hphase, Option.some.injEq] at hcall
      exact hcall ▸ .counting hphase
  | replying received slot tmp =>
      simp only [call, hphase, Option.some.injEq] at hcall
      exact hcall ▸ .replying hphase
  | scanning received again k =>
      simp only [call, hphase, Option.some.injEq] at hcall
      exact hcall ▸ .scanning hphase
  | locking received k =>
      simp only [call, hphase, Option.some.injEq] at hcall
      exact hcall ▸ .locking hphase
  | writing received pos =>
      simp only [call, hphase, Option.map_eq_some_iff] at hcall
      obtain ⟨tmp, hparse, rfl⟩ := hcall
      exact .writing hphase hparse
  | unlocking pos tmp =>
      simp only [call, hphase, Option.some.injEq] at hcall
      exact hcall ▸ .unlocking hphase

theorem call_server_of_ne {k : ι} (hcall : s.call k = some t) (hk : i ≠ k) :
    t.server i = s.server i := by
  cases called hcall with
  | counting | replying | scanning | writing => exact server_setServer_of_ne _ _ hk _
  | locking => rw [server_setServer_of_ne _ _ hk, setLock_server]
  | unlocking => rw [server_setServer_of_ne _ _ hk, unlock_server]

/-- A step of one process leaves the others where they are. -/
theorem step_server_of_ne {k : ι} {work : Work} (hstep : s.step (k, work) = some t)
    (hk : i ≠ k) : t.server i = s.server i := by
  cases work with
  | call => exact call_server_of_ne hstep hk
  | refresh =>
      obtain ⟨-, rfl⟩ := step_refresh hstep
      exact server_setServer_of_ne _ _ hk _
  | accept =>
      obtain ⟨-, rfl⟩ := step_accept hstep
      exact server_setServer_of_ne _ _ hk _
  | request received =>
      obtain ⟨-, v, -, rfl⟩ := step_request hstep
      exact server_setServer_of_ne _ _ hk _

variable (s i)

/-- What a step sends back on a connection, or that it closes one. -/
def answer : ι × Work → Option Answer
  | (_, .request received) => if classify received.buf = .exit then some .closed else none
  | (i, .call) =>
      let v := s.server i
      match v.phase with
      | .counting (.check _) slot numOfLocked =>
          if nextSlot slot = none then
            some (.reply
              (if v.process.count slot (s.getLock i slot) numOfLocked = recordNum then
                ['y', 'e', 's']
              else ['n', 'o']))
          else none
      | .replying _ slot tmp =>
          if nextSlot slot = none then
            some (.reply (v.process.strcat slot (s.getLock i slot) tmp))
          else none
      | _ => none
  | _ => none

/-- Servers that have just started, each with the bytes that `malloc` returned. -/
def init (file : List Char) (heap : ι → List Char) : Machine ι where
  file := file
  holder _ := none
  server i := ⟨Process.init (heap i), .idle, fun _ _ => false⟩

end Machine

/-- Server processes on any file, one system call after the other. -/
def calling (ι : Type*) [DecidableEq ι] : TransitionSystem (Machine ι) (ι × Work) where
  start s := ∃ file heap, (∀ i, (heap i).length = recordSize * recordNum) ∧
    s = Machine.init file heap
  step := Machine.step

end Board

end SystemsProgramming
