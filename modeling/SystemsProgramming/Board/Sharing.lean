/-
Several server processes on one file.  Each reads from its own offset, which stays behind
its last read when another process makes the file longer, and then a slot of `all` takes
the record of another slot.
-/
import SystemsProgramming.Board.Listing

namespace SystemsProgramming

namespace Board

open FlatBytes

/-- The processes and the file, with the contents the file has had, and how many bytes of
`all` each process has ever read. -/
structure Shared (ι : Type*) where
  file : List Char
  process : ι → Process
  versions : List (List Char)
  read : ι → Nat

/-- The bytes that the next read of a process returns. -/
def Process.chunk (p : Process) (file : List Char) : List Char :=
  (file.drop p.offset).take (recordSize * recordNum)

namespace Shared

variable {ι : Type*} [DecidableEq ι]

/-- A step of one of the processes. -/
def step (s : Shared ι) : ι × Event → Option (Shared ι)
  | (_, .foreign _) => none
  | (i, event) => (State.step ⟨s.file, s.process i⟩ event).map fun next =>
      { file := next.file
        process := Function.update s.process i next.process
        versions := s.versions ++ [next.file]
        read :=
          match event with
          | .refresh =>
              Function.update s.read i (max (s.read i) ((s.process i).chunk s.file).length)
          | _ => s.read }

/-- Servers that have just started, each with the bytes that `malloc` returned. -/
def init (file : List Char) (heap : ι → List Char) : Shared ι where
  file := file
  process i := Process.init (heap i)
  versions := [file]
  read _ := 0

end Shared

/-- A file of at most ten whole records. -/
structure IsBoard (file : List Char) : Prop where
  whole : recordSize ∣ file.length
  length_le : file.length ≤ recordSize * recordNum

/-- Server processes on one file, which only they write. -/
def sharing (ι : Type*) [DecidableEq ι] : TransitionSystem (Shared ι) (ι × Event) where
  start s := ∃ file heap, IsBoard file ∧ (∀ i, (heap i).length = recordSize * recordNum) ∧
    s = Shared.init file heap
  step := Shared.step

/-- A slot has held a record: some content of the file reaches over the slot and has the
record there. -/
def Held (versions : List (List Char)) (slot : Slot) (bytes : List Char) : Prop :=
  ∃ file ∈ versions, recordSize * slot + recordSize ≤ file.length ∧ slotBytes file slot = bytes

instance (versions : List (List Char)) (slot : Slot) (bytes : List Char) :
    Decidable (Held versions slot bytes) :=
  inferInstanceAs (Decidable (∃ file ∈ versions,
    recordSize * slot + recordSize ≤ file.length ∧ slotBytes file slot = bytes))

variable {ι : Type*}

/-- Every record that a process has read is one that its slot has held. -/
def SlotsHeld (s : Shared ι) : Prop :=
  ∀ i (slot : Slot), recordSize * slot + recordSize ≤ s.read i →
    Held s.versions slot (slotBytes (s.process i).all slot)

/-- A refresh starts at the beginning of the file, or where it finds nothing. -/
def Aligned (s : Shared ι) : ι × Event → Prop
  | (i, .refresh) => (s.process i).offset = 0 ∨ s.file.length ≤ (s.process i).offset
  | _ => True

instance (s : Shared ι) : ∀ action, Decidable (Aligned s action)
  | (i, .refresh) => inferInstanceAs
      (Decidable ((s.process i).offset = 0 ∨ s.file.length ≤ (s.process i).offset))
  | (_, .accept _) | (_, .request ..) | (_, .foreign _) => .isTrue trivial

/-- What holds between two steps of the processes. -/
structure SharedInv (s : Shared ι) : Prop where
  idle : ∀ i, Idle (s.process i)
  all_length : ∀ i, (s.process i).all.length = recordSize * recordNum
  board : IsBoard s.file
  offset : ∀ i, recordSize ∣ (s.process i).offset
  current : s.file ∈ s.versions

section Steps

variable [DecidableEq ι] {s t : Shared ι} {i : ι}

theorem Held.mono {versions : List (List Char)} {slot : Slot} {bytes : List Char}
    (hheld : Held versions slot bytes) (file : List Char) :
    Held (versions ++ [file]) slot bytes := by
  obtain ⟨old, hold, hreaches, hbytes⟩ := hheld
  exact ⟨old, List.mem_append_left _ hold, hreaches, hbytes⟩

theorem refresh_all (p : Process) (file : List Char) :
    (p.refresh file).all = p.chunk file ++ p.all.drop (p.chunk file).length := rfl

theorem refresh_offset (p : Process) (file : List Char) :
    (p.refresh file).offset = p.offset + (p.chunk file).length := rfl

/-- A read returns what is behind the offset. -/
theorem IsBoard.chunk_eq {file : List Char} (hboard : IsBoard file) (p : Process) :
    p.chunk file = file.drop p.offset := by
  apply List.take_of_length_le
  have hle := hboard.length_le
  rw [List.length_drop]
  omega

/-- After a read the records behind the offset are in the first slots of `all`. -/
theorem IsBoard.slotBytes_refresh {file : List Char} (hboard : IsBoard file) {p : Process}
    (hoffset : recordSize ∣ p.offset) {slot : Slot}
    (hreads : recordSize * slot + recordSize ≤ (p.chunk file).length) :
    slotBytes (p.refresh file).all slot =
      block nul file recordSize (p.offset / recordSize + slot) := by
  rw [slotBytes, refresh_all, block_append_of_le _ _ hreads, hboard.chunk_eq,
    ← Nat.mul_div_cancel' hoffset, block_drop, Nat.mul_div_cancel' hoffset]

/-- The slots behind the bytes read keep their records. -/
theorem IsBoard.slotBytes_refresh_of_lt {file : List Char} (hboard : IsBoard file) {p : Process}
    (hoffset : recordSize ∣ p.offset) {slot : Slot}
    (hreads : (p.chunk file).length < recordSize * slot + recordSize) :
    slotBytes (p.refresh file).all slot = slotBytes p.all slot := by
  have hwhole : recordSize ∣ (p.chunk file).length := by
    rw [hboard.chunk_eq, List.length_drop]
    exact Nat.dvd_sub hboard.whole hoffset
  have hbehind : (p.chunk file).length ≤ recordSize * slot := by
    obtain ⟨m, hm⟩ := hwhole
    rw [hm, ← Nat.mul_succ] at hreads
    rw [hm]
    exact Nat.mul_le_mul_left _ (Nat.lt_succ_iff.mp (Nat.lt_of_mul_lt_mul_left hreads))
  rw [slotBytes, slotBytes, refresh_all, block_append_drop_of_le _ _ hbehind]

/-- A refresh from an aligned offset keeps every record with its slot. -/
theorem SharedInv.refresh (hinv : SharedInv s) (hheld : SlotsHeld s)
    (haligned : Aligned s (i, .refresh)) (hstep : s.step (i, .refresh) = some t) :
    SharedInv t ∧ SlotsHeld t := by
  obtain rfl := Option.some.inj hstep
  have hoffset := hinv.offset i
  have hchunk := hinv.board.chunk_eq (s.process i)
  constructor
  · constructor
    · intro k
      by_cases hk : k = i
      · subst hk
        simpa using ⟨(hinv.idle k).unlocked, (hinv.idle k).last_ge⟩
      · simpa [hk] using hinv.idle k
    · intro k
      by_cases hk : k = i
      · subst hk
        simpa using length_refresh (hinv.all_length k) s.file
      · simpa [hk] using hinv.all_length k
    · exact hinv.board
    · intro k
      by_cases hk : k = i
      · subst hk
        simp only [Function.update_self, refresh_offset, hchunk, List.length_drop]
        exact Nat.dvd_add hoffset (Nat.dvd_sub hinv.board.whole hoffset)
      · simpa [hk] using hinv.offset k
    · exact List.mem_append_left _ hinv.current
  · intro k slot hread
    by_cases hk : k = i
    · subst hk
      simp only [Function.update_self] at hread ⊢
      by_cases hnew : recordSize * slot + recordSize ≤ ((s.process k).chunk s.file).length
      · rw [hinv.board.slotBytes_refresh hoffset hnew]
        apply Held.mono
        rw [hchunk, List.length_drop] at hnew
        have hpos : 0 < recordSize := by decide
        have hzero : (s.process k).offset = 0 := haligned.resolve_right (by omega)
        refine ⟨s.file, hinv.current, by omega, ?_⟩
        rw [hzero, Nat.zero_div, Nat.zero_add]
        rfl
      · rw [hinv.board.slotBytes_refresh_of_lt hoffset (by omega)]
        exact (hheld k slot (by omega)).mono _
    · simp only [Function.update_of_ne hk] at hread ⊢
      exact (hheld k slot hread).mono _

omit [DecidableEq ι] in
/-- Any other refresh takes the record for slot 0 from a slot behind it. -/
theorem SharedInv.refresh_elsewhere (hinv : SharedInv s) (hnot : ¬ Aligned s (i, .refresh)) :
    ∃ m, 0 < m ∧ recordSize * m + recordSize ≤ s.file.length ∧
      slotBytes ((s.process i).refresh s.file).all 0 = block nul s.file recordSize m := by
  obtain ⟨hpos, hlt⟩ : (s.process i).offset ≠ 0 ∧ (s.process i).offset < s.file.length := by
    simpa [Aligned] using hnot
  obtain ⟨m, hm⟩ := hinv.offset i
  obtain ⟨n, hn⟩ := hinv.board.whole
  have hrecord : 0 < recordSize := by decide
  have hmn : m < n := by
    rw [hm, hn] at hlt
    exact Nat.lt_of_mul_lt_mul_left hlt
  have hinside : recordSize * m + recordSize ≤ s.file.length := by
    rw [hn, ← Nat.mul_succ]
    exact Nat.mul_le_mul_left _ hmn
  have hreads : recordSize * (0 : Slot) + recordSize ≤ ((s.process i).chunk s.file).length := by
    rw [hinv.board.chunk_eq, List.length_drop, hm]
    change recordSize * 0 + recordSize ≤ _
    omega
  refine ⟨m, Nat.pos_of_ne_zero fun hzero => hpos (by simp [hm, hzero]), hinside, ?_⟩
  rw [hinv.board.slotBytes_refresh (hinv.offset i) hreads, hm, Nat.mul_div_cancel_left _ hrecord]
  rfl

/-- A step that leaves `all` alone and a whole board behind. -/
theorem SharedInv.update (hinv : SharedInv s) (hheld : SlotsHeld s) {file : List Char}
    {p : Process} (hidle : Idle p) (hall : p.all = (s.process i).all) (hboard : IsBoard file)
    (hoffset : recordSize ∣ p.offset) :
    let t : Shared ι :=
      { file := file, process := Function.update s.process i p,
        versions := s.versions ++ [file], read := s.read }
    SharedInv t ∧ SlotsHeld t := by
  have hsame : ∀ k, (Function.update s.process i p k).all = (s.process k).all := by
    intro k
    by_cases hk : k = i
    · subst hk
      rw [Function.update_self, hall]
    · rw [Function.update_of_ne hk]
  constructor
  · constructor
    · intro k
      by_cases hk : k = i
      · subst hk
        simpa using hidle
      · simpa [hk] using hinv.idle k
    · intro k
      change (Function.update s.process i p k).all.length = _
      rw [hsame]
      exact hinv.all_length k
    · exact hboard
    · intro k
      by_cases hk : k = i
      · subst hk
        simpa using hoffset
      · simpa [hk] using hinv.offset k
    · exact List.mem_append_right _ (List.mem_singleton_self _)
  · intro k slot hread
    change Held _ slot (slotBytes (Function.update s.process i p k).all slot)
    rw [hsame]
    exact (hheld k slot hread).mono file

theorem IsBoard.overwrite {file : List Char} (hboard : IsBoard file) (slot : Slot)
    (record : Record) : IsBoard (overwrite nul file (recordSize * slot) record.bytes) := by
  have hlength := length_overwrite_max nul file (recordSize * slot) record.bytes
  rw [record.length_bytes, ← Nat.mul_succ] at hlength
  constructor
  · rw [hlength]
    rcases Nat.le_total file.length (recordSize * (slot + 1)) with hle | hle
    · rw [Nat.max_eq_right hle]
      exact Nat.dvd_mul_right _ _
    · rw [Nat.max_eq_left hle]
      exact hboard.whole
  · rw [hlength]
    exact Nat.max_le.mpr ⟨hboard.length_le, Nat.mul_le_mul_left _ slot.isLt⟩

/-- Every step but a refresh keeps the records with their slots. -/
theorem SharedInv.step (hinv : SharedInv s) (hheld : SlotsHeld s) {event : Event}
    (haligned : Aligned s (i, event)) (hstep : s.step (i, event) = some t) :
    SharedInv t ∧ SlotsHeld t := by
  cases event with
  | refresh => exact hinv.refresh hheld haligned hstep
  | accept others =>
      obtain rfl := Option.some.inj hstep
      have hwarn : ((s.process i).warn others).all = (s.process i).all ∧
          ((s.process i).warn others).offset = (s.process i).offset := by
        unfold Process.warn
        split <;> exact ⟨rfl, rfl⟩
      exact hinv.update hheld ((hinv.idle i).warn others) hwarn.1 hinv.board
        (by rw [hwarn.2]; exact hinv.offset i)
  | request others again tmp j received =>
      obtain ⟨next, hnext, rfl⟩ := Option.map_eq_some_iff.mp hstep
      obtain ⟨result, hhandle, rfl⟩ := Option.map_eq_some_iff.mp hnext
      obtain ⟨hidle, hall, hcases⟩ := Idle.handle_cases (hinv.idle i) hhandle
      rcases hcases with ⟨hfile, hoffset⟩ | ⟨slot, record, hfile, hoffset⟩
      · exact hinv.update hheld hidle hall (by rw [hfile]; exact hinv.board)
          (by rw [hoffset]; exact hinv.offset i)
      · exact hinv.update hheld hidle hall (by rw [hfile]; exact hinv.board.overwrite slot record)
          (by rw [hoffset]; exact Nat.dvd_zero _)
  | foreign file => cases hstep

end Steps

theorem sharedInv_init {file : List Char} (hboard : IsBoard file) {heap : ι → List Char}
    (hheap : ∀ i, (heap i).length = recordSize * recordNum) :
    SharedInv (Shared.init file heap) ∧ SlotsHeld (Shared.init file heap) := by
  constructor
  · exact ⟨fun _ => ⟨fun _ => rfl, Int.le_refl _⟩, hheap, hboard, fun _ => Nat.dvd_zero _,
      List.mem_singleton_self _⟩
  · intro i slot hread
    exact absurd hread (by simp [Shared.init, recordSize, fromLen])

/-- In every run of the processes whose refreshes are aligned the records stay in their
slots. -/
theorem slotsHeld_of_aligned [DecidableEq ι] (file : List Char) (hboard : IsBoard file)
    (heap : ι → List Char) (hheap : ∀ i, (heap i).length = recordSize * recordNum)
    (events : List (ι × Event))
    (haligned : (sharing ι).Meets Aligned (Shared.init file heap) events) :
    (sharing ι).Along SlotsHeld (Shared.init file heap) events := by
  have hinv : ∀ s : Shared ι, SharedInv s ∧ SlotsHeld s → SlotsHeld s := fun _ hinv => hinv.2
  refine haligned.along hinv ?_ (sharedInv_init hboard hheap)
  rintro s ⟨i, event⟩ t ⟨hinv, hheld⟩ haligned hstep
  exact hinv.step hheld haligned hstep

namespace TwoServers

def post (sender content : Char) : Event :=
  .request noOthers noOthers AllLocked.blank 0 (Request.post [sender] [content]).bytes

/-- Both servers start on an empty file.  The second one writes slot 0, the first one reads
it, the second one writes slot 1, and the first one reads on behind slot 0. -/
def events : List (Fin 2 × Event) :=
  [(0, .refresh), (1, .refresh), (1, .accept noOthers), (1, .refresh), (1, post 'a' 'b'),
    (0, .accept noOthers), (0, .refresh), (1, .refresh), (1, post 'c' 'd'), (0, .accept noOthers),
    (0, .refresh)]

/-- The bytes of a fresh page. -/
def heap (_ : Fin 2) : List Char := List.replicate (recordSize * recordNum) nul

end TwoServers

theorem isBoard_nil : IsBoard [] := ⟨Nat.dvd_zero _, Nat.zero_le _⟩

/-- Each read of a server up to the second post starts at the beginning of the file. -/
theorem slotsHeld_of_aligned_two_servers :
    (sharing (Fin 2)).Along SlotsHeld (Shared.init [] TwoServers.heap)
      (TwoServers.events.take 9) :=
  slotsHeld_of_aligned [] isBoard_nil _ (fun _ => List.length_replicate) _ (by decide)

/-- The first server ends up with the record of slot 1 in slot 0. -/
theorem not_slotsHeld_two_servers :
    ¬ ∀ (file : List Char), IsBoard file → ∀ heap : Fin 2 → List Char,
      (∀ i, (heap i).length = recordSize * recordNum) → ∀ events : List (Fin 2 × Event),
      (sharing (Fin 2)).Along SlotsHeld (Shared.init file heap) events := by
  intro hheld
  have hlate : ((sharing (Fin 2)).run (Shared.init [] TwoServers.heap) TwoServers.events).map
      (fun s => decide (recordSize ≤ s.read 0 ∧
        ¬ Held s.versions 0 (slotBytes (s.process 0).all 0))) = some true := by decide
  obtain ⟨s, hrun, hstate⟩ := Option.map_eq_some_iff.mp hlate
  obtain ⟨hread, hnot⟩ := of_decide_eq_true hstate
  have halong := hheld [] isBoard_nil TwoServers.heap (fun _ => List.length_replicate)
    TwoServers.events
  exact hnot (halong.last hrun 0 0 (by simpa using hread))

end Board

end SystemsProgramming
