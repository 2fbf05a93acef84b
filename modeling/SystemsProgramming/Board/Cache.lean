/-
The array `all` as a cache of the file.  It is filled at the top of the loop only, so a
pull shows what the file held then, and the posts of the same round are missing.
-/
import SystemsProgramming.Board.Listing

namespace SystemsProgramming

namespace Board

open FlatBytes

/-- What a ready connection has sent, with the locks of the other processes and the
uninitialised variables of the parser. -/
structure Arrival where
  others : Slot → Bool
  again : Slot → Bool
  tmp : Record
  j : Int
  received : List Char
  received_ne : received ≠ []

/-- One round of `select`: the connection that is accepted, and the ready ones in the order
of their descriptors. -/
structure Round where
  accepted : Option (Slot → Bool)
  ready : List Arrival

def Arrival.event (arrival : Arrival) : Event :=
  .request arrival.others arrival.again arrival.tmp arrival.j arrival.received

def Round.events (round : Round) : List Event :=
  .refresh :: round.accepted.toList.map .accept ++ round.ready.map Arrival.event

/-- A server, and what the file held at the top of the round. -/
structure Polled where
  server : State
  top : List Char

namespace Polled

def step (s : Polled) : Event → Option Polled
  | .refresh => (s.server.step .refresh).map fun server => ⟨server, s.server.file⟩
  | .foreign _ => none
  | event => (s.server.step event).map fun server => ⟨server, s.top⟩

/-- A server that has just started, with the bytes that `malloc` returned. -/
def init (heap file : List Char) : Polled := ⟨⟨file, Process.init heap⟩, []⟩

end Polled

/-- One server process that alone writes the file. -/
def polling : TransitionSystem Polled Event where
  start s := ∃ heap file, heap.length = recordSize * recordNum ∧
    file.length ≤ recordSize * recordNum ∧ s = Polled.init heap file
  step := Polled.step

/-- What a read of the file leaves in the bytes that `malloc` returned. -/
def filled (heap file : List Char) : List Char := file ++ heap.drop file.length

/-- A pull is answered with the records that the file holds. -/
def PullCurrent (s : Polled) : Event → Prop
  | .request others again tmp j received => classify (cString received 0) = .pull →
      (∃ t, s.server.handle others again tmp j received = some (.reply
        ('\'' :: (visible again s.server.process.locked s.server.file).flatMap starred), t)) ∧
      ∀ slot, again slot = false →
        recordAt s.server.process.all slot = recordAt s.server.file slot
  | _ => True

/-- At a pull the unlocked slots show the records that they showed at the top of the round. -/
def Unchanged (heap : List Char) (s : Polled) : Event → Prop
  | .request _ again _ _ received => classify (cString received 0) = .pull →
      ∀ slot, again slot = false → recordAt (filled heap s.top) slot = recordAt s.server.file slot
  | _ => True

/-- The array holds what the file held at the top of the round, and the next read starts
where it fills the array again or finds nothing new. -/
structure Cached (heap : List Char) (s : Polled) : Prop where
  idle : Idle s.server.process
  all : s.server.process.all = filled heap s.top
  file_length : s.server.file.length ≤ recordSize * recordNum
  top_length : s.top.length ≤ s.server.file.length
  offset : s.server.process.offset = 0 ∨
    (s.server.process.offset = s.top.length ∧ s.top = s.server.file)

section Invariant

variable {heap : List Char} {s t : Polled}

theorem cached_init {file : List Char} (hfile : file.length ≤ recordSize * recordNum) :
    Cached heap (Polled.init heap file) :=
  ⟨⟨fun _ => rfl, Int.le_refl _⟩, rfl, hfile, Nat.zero_le _, .inl rfl⟩

theorem Cached.refresh (hcached : Cached heap s) :
    Cached heap ⟨{ s.server with process := s.server.process.refresh s.server.file },
      s.server.file⟩ := by
  have hfile := hcached.file_length
  have hread : (s.server.process.refresh s.server.file).all = filled heap s.server.file ∧
      (s.server.process.refresh s.server.file).offset = s.server.file.length := by
    rcases hcached.offset with hzero | ⟨hend, hsame⟩
    · have htake : s.server.file.take (recordSize * recordNum) = s.server.file :=
        List.take_of_length_le hfile
      have hdrop : (s.top ++ heap.drop s.top.length).drop s.server.file.length =
          heap.drop s.server.file.length := by
        have htop := hcached.top_length
        rw [List.drop_append, List.drop_eq_nil_of_le htop, List.nil_append,
          List.drop_drop]
        congr 1
        omega
      simp [Process.refresh, hzero, htake, hcached.all, filled, hdrop]
    · have hdrop : s.server.file.drop s.server.file.length = [] :=
        List.drop_eq_nil_of_le (Nat.le_refl _)
      rw [hsame] at hend
      simp [Process.refresh, hend, hdrop, hcached.all, hsame]
  exact ⟨⟨hcached.idle.unlocked, hcached.idle.last_ge⟩, hread.1, hfile, Nat.le_refl _,
    .inr ⟨hread.2, rfl⟩⟩

theorem Cached.accept (hcached : Cached heap s) (others : Slot → Bool) :
    Cached heap ⟨{ s.server with process := s.server.process.warn others }, s.top⟩ := by
  have hidle := hcached.idle.warn others
  have hsame : (s.server.process.warn others).all = s.server.process.all ∧
      (s.server.process.warn others).offset = s.server.process.offset := by
    unfold Process.warn
    split <;> exact ⟨rfl, rfl⟩
  refine ⟨hidle, hsame.1.trans hcached.all, hcached.file_length, hcached.top_length, ?_⟩
  change (s.server.process.warn others).offset = 0 ∨ _
  rw [hsame.2]
  exact hcached.offset

theorem Cached.request (hcached : Cached heap s) {others again : Slot → Bool} {tmp : Record}
    {j : Int} {received : List Char} {next : Answer × State}
    (hhandle : s.server.handle others again tmp j received = some next) :
    Cached heap ⟨next.2, s.top⟩ := by
  obtain ⟨hidle, hall, hcases⟩ := hcached.idle.handle_cases hhandle
  have hlength := hcached.file_length
  have htop := hcached.top_length
  rcases hcases with ⟨hfile, hoffset⟩ | ⟨slot, record, hfile, hoffset⟩
  · refine ⟨hidle, hall.trans hcached.all, ?_, ?_, ?_⟩
    · exact (congrArg List.length hfile).trans_le hlength
    · exact htop.trans_eq (congrArg List.length hfile).symm
    · change next.2.process.offset = 0 ∨ (next.2.process.offset = _ ∧ s.top = next.2.file)
      rw [hoffset, hfile]
      exact hcached.offset
  · have hwritten : next.2.file.length =
        max s.server.file.length (recordSize * slot + recordSize) := by
      rw [hfile, length_overwrite_max, record.length_bytes]
    have hslot := Nat.mul_le_mul_left recordSize slot.isLt
    rw [Nat.mul_succ] at hslot
    refine ⟨hidle, hall.trans hcached.all, ?_, ?_, .inl hoffset⟩
    · change next.2.file.length ≤ _
      omega
    · change s.top.length ≤ next.2.file.length
      omega

/-- Every step of the loop keeps the cache. -/
theorem Cached.step (hcached : Cached heap s) {event : Event} (hstep : s.step event = some t) :
    Cached heap t := by
  cases event with
  | refresh =>
      cases hstep
      exact hcached.refresh
  | accept others =>
      cases hstep
      exact hcached.accept others
  | request others again tmp j received =>
      obtain ⟨server, hserver, rfl⟩ := Option.map_eq_some_iff.mp hstep
      obtain ⟨next, hhandle, rfl⟩ := Option.map_eq_some_iff.mp hserver
      exact hcached.request hhandle
  | foreign file => cases hstep

theorem handle_of_pull {received : List Char} (hpull : classify (cString received 0) = .pull)
    (s : State) (others again : Slot → Bool) (tmp : Record) (j : Int) :
    s.handle others again tmp j received = some (.reply (s.process.pullReply again),
      { s with process := s.process.warn others }) := by
  simp [State.handle, hpull]

theorem visible_congr {others locked : Slot → Bool} {all file : List Char}
    (hsame : ∀ slot, others slot = false → recordAt all slot = recordAt file slot) :
    visible others locked all = visible others locked file := by
  have hrecord : ∀ slot, (if others slot || locked slot then none else recordAt all slot) =
      if others slot || locked slot then none else recordAt file slot := by
    intro slot
    cases hothers : others slot with
    | true => rfl
    | false => rw [hsame slot hothers]
  rw [visible, visible, funext hrecord]

/-- With a cache of the top of the round, a pull is current exactly if nothing it shows has
changed since. -/
theorem Cached.current_iff (hcached : Cached heap s) (event : Event) :
    PullCurrent s event ↔ Unchanged heap s event := by
  cases event with
  | request others again tmp j received =>
      apply imp_congr_right
      intro hpull
      rw [← hcached.all]
      constructor
      · exact And.right
      · intro hsame
        refine ⟨⟨{ s.server with process := s.server.process.warn others }, ?_⟩, hsame⟩
        rw [handle_of_pull hpull, pullReply_visible, visible_congr hsame]
  | refresh => exact Iff.rfl
  | accept others => exact Iff.rfl
  | foreign file => exact Iff.rfl

end Invariant

/-- In every run of the loop the pulls are current exactly if at each of them the unlocked
slots show what they showed at the top of its round. -/
theorem pulls_current_iff (heap file : List Char)
    (hfile : file.length ≤ recordSize * recordNum) (rounds : List Round) :
    polling.Meets PullCurrent (Polled.init heap file) (rounds.flatMap Round.events) ↔
      polling.Meets (Unchanged heap) (Polled.init heap file) (rounds.flatMap Round.events) := by
  have hkept : ∀ s event t, Cached heap s → polling.step s event = some t → Cached heap t :=
    fun s event t hcached hstep => hcached.step hstep
  refine TransitionSystem.meets_iff_meets hkept ?_ (cached_init hfile) _
  intro s event hcached
  exact hcached.current_iff event

namespace SameRound

/-- A connection whose client sends the request. -/
def arrival (request : Request) (hne : request.bytes ≠ []) : Arrival :=
  ⟨noOthers, noOthers, AllLocked.blank, 0, request.bytes, hne⟩

def post : Arrival := arrival (.post ['a'] ['b']) (by decide)

def pull : Arrival := arrival .pull (by decide)

/-- Two clients connect, then both are ready in one round. -/
def rounds : List Round := [⟨some noOthers, []⟩, ⟨some noOthers, []⟩, ⟨none, [post, pull]⟩]

/-- What happens before the pull. -/
def before : List Event :=
  [.refresh, .accept noOthers, .refresh, .accept noOthers, .refresh, post.event]

/-- The bytes of a fresh page. -/
def heap : List Char := List.replicate (recordSize * recordNum) nul

end SameRound

theorem pulls_current_iff_same_round :
    polling.Meets PullCurrent (Polled.init SameRound.heap [])
        (SameRound.rounds.flatMap Round.events) ↔
      polling.Meets (Unchanged SameRound.heap) (Polled.init SameRound.heap [])
        (SameRound.rounds.flatMap Round.events) :=
  pulls_current_iff SameRound.heap [] (by decide) SameRound.rounds

/-- A pull in the round of a post, served behind it, does not show the post. -/
theorem not_pulls_current_same_round :
    ¬ ∀ heap file : List Char, heap.length = recordSize * recordNum →
      file.length ≤ recordSize * recordNum → ∀ rounds : List Round,
      polling.Meets PullCurrent (Polled.init heap file) (rounds.flatMap Round.events) := by
  intro hcurrent
  have hmeets := hcurrent SameRound.heap [] List.length_replicate (by decide) SameRound.rounds
  have hlate : (polling.run (Polled.init SameRound.heap []) SameRound.before).map
      (fun s => (recordAt s.server.process.all 0, recordAt s.server.file 0)) =
        some (none, some (['a'], ['b'])) := by decide
  obtain ⟨s, hrun, hrecords⟩ := Option.map_eq_some_iff.mp hlate
  obtain ⟨hall, hfile⟩ := Prod.mk.inj hrecords
  have hsplit : SameRound.rounds.flatMap Round.events =
      SameRound.before ++ [SameRound.pull.event] := rfl
  rw [hsplit] at hmeets
  obtain ⟨-, hsame⟩ := hmeets.of_run hrun (by decide)
  have hslot := hsame 0 rfl
  rw [hall, hfile] at hslot
  cases hslot

end Board

end SystemsProgramming
