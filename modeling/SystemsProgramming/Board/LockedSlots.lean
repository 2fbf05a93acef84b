/-
The choice of a slot for a post.  A scan from `last + 1` on finds the first slot that no
other process has locked; when both scans find none, the post goes on to slot 0 all the
same.
-/
import SystemsProgramming.Board.Model

namespace SystemsProgramming

namespace Board

open FlatBytes

variable {others again : Slot → Bool} {p p' : Process} {s t : State} {file file' : List Char}
  {tmp record : Record} {j : Int} {buf : List Char}

/-- Every slot comes up in a scan. -/
theorem exists_slotOf_eq (i : Int) (slot : Slot) : ∃ k < recordNum, slotOf (i + k) = slot := by
  have hlt := slot.isLt
  refine ⟨((slot - i) % recordNum).toNat, ?_, ?_⟩
  · simp only [recordNum] at hlt ⊢
    omega
  · apply Fin.ext
    simp only [slotOf, recordNum] at hlt ⊢
    omega

/-- What holds of a process between two requests. -/
structure Idle (p : Process) : Prop where
  unlocked : ∀ slot, p.locked slot = false
  last_ge : -1 ≤ p.last

/-- The scan has stopped at slot `last + 1 + k`. -/
structure Found (others : Slot → Bool) (p : Process) (k : Nat) : Prop where
  lt : k < recordNum
  free : others (slotOf (p.last + 1 + k)) = false
  first : ∀ i < k, others (slotOf (p.last + 1 + i)) = true

theorem Idle.find (hidle : Idle p) :
    ((List.range recordNum).find? fun (k : Nat) => !p.isLocked others (slotOf (p.last + 1 + k))) =
      (List.range recordNum).find? fun (k : Nat) => !others (slotOf (p.last + 1 + k)) := by
  congr 1
  funext k
  simp [Process.isLocked, hidle.unlocked]

theorem Idle.scan_cases (hidle : Idle p) (others : Slot → Bool) :
    ((∀ slot, others slot = true) ∧ p.scan others = none) ∨
    ∃ k, Found others p k ∧ p.scan others = some
      ({ p with
          locked := Function.update p.locked (slotOf (p.last + 1 + k)) true
          last := p.last + 1 + k }, slotOf (p.last + 1 + k)) := by
  unfold Process.scan
  rw [hidle.find]
  cases hfind : (List.range recordNum).find? fun (k : Nat) => !others (slotOf (p.last + 1 + k)) with
  | none =>
      left
      refine ⟨fun slot => ?_, rfl⟩
      obtain ⟨k, hk, rfl⟩ := exists_slotOf_eq (p.last + 1) slot
      have hnot := List.find?_eq_none.mp hfind k (List.mem_range.mpr hk)
      simpa using hnot
  | some k =>
      right
      refine ⟨k, ⟨?_, ?_, ?_⟩, rfl⟩
      · exact List.mem_range.mp (List.mem_of_find?_eq_some hfind)
      · simpa using List.find?_some hfind
      · intro i hi
        have hbefore := (List.find?_range_eq_some.mp hfind).2.2 i hi
        simpa using hbefore

/-- Neither scan finds a slot. -/
def NoneFree (others again : Slot → Bool) : Prop :=
  (∀ slot, others slot = true) ∧ ∀ slot, again slot = true

/-- The first scan has stopped at slot `last + 1 + k`, or it has found nothing and the second
one has stopped there. -/
def Chosen (others again : Slot → Bool) (p : Process) (k : Nat) : Prop :=
  Found others p k ∨ (∀ slot, others slot = true) ∧ Found again p k

theorem Chosen.free {k : Nat} (hchosen : Chosen others again p k) :
    others (slotOf (p.last + 1 + k)) = false ∨ again (slotOf (p.last + 1 + k)) = false :=
  hchosen.imp Found.free fun hagain => hagain.2.free

/-- With a slot free in the first scan the second one is not run. -/
theorem Chosen.found {k : Nat} (hchosen : Chosen others again p k)
    (hfree : ∃ slot, others slot = false) : Found others p k := by
  rcases hchosen with hfound | ⟨hall, -⟩
  · exact hfound
  · obtain ⟨slot, hslot⟩ := hfree
    simp [hall slot] at hslot

theorem Chosen.not_noneFree {k : Nat} (hchosen : Chosen others again p k) :
    ¬ NoneFree others again := by
  rintro ⟨hall, hagain⟩
  have hfree := hchosen.free
  simp [hall, hagain] at hfree

theorem Found.unique {k k' : Nat} (hfound : Found others p k) (hfound' : Found others p k') :
    k = k' := by
  rcases lt_trichotomy k k' with hlt | heq | hlt
  · have htaken := hfound'.first k hlt
    simp [hfound.free] at htaken
  · exact heq
  · have htaken := hfound.first k' hlt
    simp [hfound'.free] at htaken

theorem Chosen.unique {k k' : Nat} (hchosen : Chosen others again p k)
    (hchosen' : Chosen others again p k') : k = k' := by
  rcases hchosen with hfound | ⟨hall, hfound⟩
  · exact hfound.unique (hchosen'.found ⟨_, hfound.free⟩)
  · rcases hchosen' with hfound' | ⟨-, hfound'⟩
    · have htaken := hall (slotOf (p.last + 1 + k'))
      simp [hfound'.free] at htaken
    · exact hfound.unique hfound'

theorem Idle.choose_cases (hidle : Idle p) (others again : Slot → Bool) :
    (NoneFree others again ∧ p.choose others again = (p, 0)) ∨
    ∃ k, Chosen others again p k ∧ p.choose others again =
      ({ p with
          locked := Function.update p.locked (slotOf (p.last + 1 + k)) true
          last := p.last + 1 + k }, slotOf (p.last + 1 + k)) := by
  unfold Process.choose
  rcases hidle.scan_cases others with ⟨hall, hscan⟩ | ⟨k, hfound, hscan⟩
  · rw [hscan]
    rcases hidle.scan_cases again with ⟨hagain, hscan⟩ | ⟨k, hfound, hscan⟩
    · left
      rw [hscan]
      exact ⟨⟨hall, hagain⟩, rfl⟩
    · right
      rw [hscan]
      exact ⟨k, .inr ⟨hall, hfound⟩, rfl⟩
  · right
    rw [hscan]
    exact ⟨k, .inl hfound, rfl⟩

theorem Idle.choose_none (hidle : Idle p) (hnone : NoneFree others again) :
    p.choose others again = (p, 0) := by
  rcases hidle.choose_cases others again with ⟨-, hchoose⟩ | ⟨k, hchosen, -⟩
  · exact hchoose
  · exact absurd hnone hchosen.not_noneFree

theorem Idle.choose_some (hidle : Idle p) {k : Nat} (hchosen : Chosen others again p k) :
    p.choose others again =
      ({ p with
          locked := Function.update p.locked (slotOf (p.last + 1 + k)) true
          last := p.last + 1 + k }, slotOf (p.last + 1 + k)) := by
  rcases hidle.choose_cases others again with ⟨hnone, -⟩ | ⟨k', hchosen', hchoose⟩
  · exact absurd hnone hchosen.not_noneFree
  · rw [hchoose, hchosen'.unique hchosen]

/-- A post into `slot`, with the cursor at `last` behind it. -/
structure Posted (p : Process) (file : List Char) (record : Record) (slot : Slot) (last : Int)
    (file' : List Char) (p' : Process) : Prop where
  file_eq : file' = overwrite nul file (recordSize * slot) record.bytes
  last_eq : p'.last = last
  unlocked : ∀ slot, p'.locked slot = false
  offset : p'.offset = 0
  all : p'.all = p.all

/-- The post goes to the slot that a scan finds, and without one to slot 0. -/
theorem Idle.post_cases (hidle : Idle p) (others again : Slot → Bool) (file : List Char)
    (hbound : p.last + recordNum + 1 ≤ intMax) (hparse : parsePost tmp j buf = some record) :
    ∃ file' p', p.post others again file tmp j buf = some (file', p') ∧
      ((NoneFree others again ∧ Posted p file record 0 p.last file' p') ∨
        ∃ k, Chosen others again p k ∧ Posted p file record (slotOf (p.last + 1 + k))
          (p.last + 1 + k) file' p') := by
  unfold Process.post
  rw [if_neg (by omega), hparse]
  rcases hidle.choose_cases others again with ⟨hnone, hchoose⟩ | ⟨k, hchosen, hchoose⟩
  · rw [hchoose]
    refine ⟨_, _, rfl, .inl ⟨hnone, rfl, rfl, fun slot => ?_, rfl, rfl⟩⟩
    by_cases heq : slot = 0 <;> simp [heq, hidle.unlocked]
  · rw [hchoose]
    refine ⟨_, _, rfl, .inr ⟨k, hchosen, rfl, rfl, fun slot => ?_, rfl, rfl⟩⟩
    by_cases heq : slot = slotOf (p.last + 1 + k) <;> simp [heq, hidle.unlocked]

theorem post_defined {next : List Char × Process}
    (hpost : p.post others again file tmp j buf = some next) :
    p.last + recordNum + 1 ≤ intMax ∧ ∃ record, parsePost tmp j buf = some record := by
  unfold Process.post at hpost
  split at hpost
  · simp at hpost
  · obtain ⟨record, hparse, -⟩ := Option.map_eq_some_iff.mp hpost
    exact ⟨by omega, record, hparse⟩

theorem Idle.post (hidle : Idle p) {next : List Char × Process}
    (hpost : p.post others again file tmp j buf = some next) : Idle next.2 := by
  obtain ⟨hbound, record, hparse⟩ := post_defined hpost
  have hlast := hidle.last_ge
  obtain ⟨file', p', heq, hcases⟩ := hidle.post_cases others again file hbound hparse
  obtain rfl : (file', p') = next := Option.some.inj (heq.symm.trans hpost)
  rcases hcases with ⟨-, hposted⟩ | ⟨k, -, hposted⟩
  · exact ⟨hposted.unlocked, by rw [hposted.last_eq]; exact hlast⟩
  · exact ⟨hposted.unlocked, by rw [hposted.last_eq]; omega⟩

theorem Idle.warn (hidle : Idle p) (others : Slot → Bool) : Idle (p.warn others) := by
  unfold Process.warn
  split
  · exact ⟨hidle.unlocked, hidle.last_ge⟩
  · exact hidle

theorem Idle.handle (hidle : Idle s.process) {received : List Char} {next : Answer × State}
    (hhandle : s.handle others again tmp j received = some next) : Idle next.2.process := by
  unfold State.handle at hhandle
  dsimp only at hhandle
  split at hhandle
  · cases hhandle
    exact hidle.warn others
  · cases hhandle
    exact hidle
  · cases hhandle
    exact hidle
  · obtain ⟨result, hpost, rfl⟩ := Option.map_eq_some_iff.mp hhandle
    exact hidle.post hpost

/-- A request leaves the file and the offset alone, or it writes one slot and goes back to
the start of the file. -/
theorem Idle.handle_cases (hidle : Idle s.process) {received : List Char} {next : Answer × State}
    (hhandle : s.handle others again tmp j received = some next) :
    Idle next.2.process ∧ next.2.process.all = s.process.all ∧
      ((next.2.file = s.file ∧ next.2.process.offset = s.process.offset) ∨
        ∃ (slot : Slot) (record : Record),
          next.2.file = overwrite nul s.file (recordSize * slot) record.bytes ∧
            next.2.process.offset = 0) := by
  refine ⟨hidle.handle hhandle, ?_⟩
  unfold State.handle at hhandle
  dsimp only at hhandle
  split at hhandle
  · cases hhandle
    unfold Process.warn
    split <;> exact ⟨rfl, .inl ⟨rfl, rfl⟩⟩
  · cases hhandle
    exact ⟨rfl, .inl ⟨rfl, rfl⟩⟩
  · cases hhandle
    exact ⟨rfl, .inl ⟨rfl, rfl⟩⟩
  · obtain ⟨result, hpost, rfl⟩ := Option.map_eq_some_iff.mp hhandle
    obtain ⟨hbound, record, hparse⟩ := post_defined hpost
    obtain ⟨file', p', heq, hcases⟩ := hidle.post_cases others again s.file hbound hparse
    obtain rfl : (file', p') = result := Option.some.inj (heq.symm.trans hpost)
    rcases hcases with ⟨-, hposted⟩ | ⟨k, -, hposted⟩
    · exact ⟨hposted.all, .inr ⟨0, record, hposted.file_eq, hposted.offset⟩⟩
    · exact ⟨hposted.all, .inr ⟨_, record, hposted.file_eq, hposted.offset⟩⟩

theorem length_refresh (hlength : p.all.length = recordSize * recordNum)
    (file : List Char) : (p.refresh file).all.length = recordSize * recordNum := by
  simp only [Process.refresh, List.length_append, List.length_take, List.length_drop, hlength]
  omega

theorem Idle.step (hidle : Idle s.process) {event : Event} (hstep : s.step event = some t) :
    Idle t.process := by
  cases event with
  | refresh =>
      cases hstep
      exact ⟨hidle.unlocked, hidle.last_ge⟩
  | accept others =>
      cases hstep
      exact hidle.warn others
  | request others again tmp j received =>
      obtain ⟨next, hhandle, rfl⟩ := Option.map_eq_some_iff.mp hstep
      exact hidle.handle hhandle
  | foreign file =>
      cases hstep
      exact hidle

/-- Between two requests no slot is marked in `locked`. -/
theorem reachable_idle (hreach : serving.Reachable s) : Idle s.process := by
  refine hreach.invariant (P := fun s => Idle s.process) ?_ fun _ _ _ hidle hstep =>
    hidle.step hstep
  rintro s ⟨all, -, hinit⟩
  rw [hinit]
  exact ⟨fun _ => rfl, Int.le_refl _⟩

/-- The bytes of a slot of the file, with zeros behind its end. -/
def slotBytes (file : List Char) (slot : Slot) : List Char := block nul file recordSize slot

/-- A request leaves the slots alone that other processes hold locked, and when they hold
all of them the file and `last`. -/
structure KeepsLocked (held : Slot → Bool) (s t : State) : Prop where
  slots : ∀ slot, held slot = true → slotBytes t.file slot = slotBytes s.file slot
  all : (∀ slot, held slot = true) → t.file = s.file ∧ t.process.last = s.process.last

theorem Posted.slotBytes_self {slot : Slot} {last : Int}
    (hposted : Posted p file record slot last file' p') : slotBytes file' slot = record.bytes := by
  rw [hposted.file_eq, slotBytes, ← record.length_bytes]
  exact block_overwrite_self _ _ _ _

theorem Posted.slotBytes_of_ne {slot other : Slot} {last : Int}
    (hposted : Posted p file record slot last file' p') (hne : other ≠ slot) :
    slotBytes file' other = slotBytes file other := by
  rw [hposted.file_eq, slotBytes, slotBytes, ← record.length_bytes]
  exact block_overwrite_of_ne _ _ _ fun heq => hne (Fin.ext heq)

/-- A write of the bytes that a slot of the file holds changes nothing. -/
theorem Posted.file_eq_self {slot : Slot} {last : Int}
    (hposted : Posted p file record slot last file' p')
    (hsame : slotBytes file slot = record.bytes)
    (hinside : recordSize * slot + recordSize ≤ file.length) : file' = file := by
  rw [hposted.file_eq, ← hsame]
  exact overwrite_block_self nul hinside

/-- What a post into slot 0 needs when slots that are held are not to change. -/
theorem Posted.keeps_iff {held : Slot → Bool}
    (hposted : Posted s.process s.file record 0 s.process.last t.file t.process) :
    KeepsLocked held s t ↔ held 0 = false ∨ slotBytes s.file 0 = record.bytes ∧
      ((∀ slot, held slot = true) → recordSize ≤ s.file.length) := by
  constructor
  · intro hkeeps
    cases hzero : held 0 with
    | false => exact .inl rfl
    | true =>
        refine .inr ⟨?_, fun hall => ?_⟩
        · rw [← hposted.slotBytes_self]
          exact (hkeeps.slots 0 hzero).symm
        · have hlength := length_overwrite_max nul s.file (recordSize * (0 : Slot)) record.bytes
          rw [← hposted.file_eq, (hkeeps.all hall).1, record.length_bytes] at hlength
          omega
  · rintro (hzero | ⟨hsame, hlength⟩)
    · refine ⟨fun slot hheld => ?_, fun hall => ?_⟩
      · apply hposted.slotBytes_of_ne
        rintro rfl
        simp [hzero] at hheld
      · simp [hall 0] at hzero
    · refine ⟨fun slot _ => ?_, fun hall => ?_⟩
      · by_cases heq : slot = 0
        · subst heq
          rw [hposted.slotBytes_self, hsame]
        · exact hposted.slotBytes_of_ne heq
      · exact ⟨hposted.file_eq_self hsame (hlength hall), hposted.last_eq⟩

/-- Other processes hold the slots `held` throughout a post, and whatever else they lock
and unlock between its tests: it keeps those slots exactly if it is defined and either one
of the tests finds a slot not locked, or slot 0 is not held, or slot 0 of the file already
has the record that is posted. -/
theorem keepsLocked_iff (s : State) (hreach : serving.Reachable s) (held others again : Slot → Bool)
    (hothers : ∀ slot, held slot = true → others slot = true)
    (hagain : ∀ slot, held slot = true → again slot = true)
    (tmp : Record) (j : Int) (received : List Char)
    (hpost : classify (cString received 0) = .post) :
    (∃ answer t, s.handle others again tmp j received = some (answer, t) ∧
        KeepsLocked held s t) ↔
      ∃ record, parsePost tmp j (cString received 0) = some record ∧
        s.process.last + recordNum + 1 ≤ intMax ∧
        ((∃ slot, others slot = false ∨ again slot = false) ∨ held 0 = false ∨
          slotBytes s.file 0 = record.bytes ∧
            ((∀ slot, held slot = true) → recordSize ≤ s.file.length)) := by
  have hidle := reachable_idle hreach
  have hhandle : s.handle others again tmp j received =
      (s.process.post others again s.file tmp j (cString received 0)).map fun next =>
        (.silent, ⟨next.1, next.2⟩) := by
    simp [State.handle, hpost]
  rw [hhandle]
  constructor
  · rintro ⟨answer, t, hsome, hkeeps⟩
    obtain ⟨next, hnext, heq⟩ := Option.map_eq_some_iff.mp hsome
    obtain ⟨hbound, record, hparse⟩ := post_defined hnext
    refine ⟨record, hparse, hbound, ?_⟩
    obtain ⟨file', p', hposts, hcases⟩ :=
      hidle.post_cases others again s.file hbound hparse
    obtain rfl : (file', p') = next := Option.some.inj (hposts.symm.trans hnext)
    cases heq
    rcases hcases with ⟨-, hposted⟩ | ⟨k, hchosen, -⟩
    · exact .inr (hposted.keeps_iff.mp hkeeps)
    · exact .inl ⟨_, hchosen.free⟩
  · rintro ⟨record, hparse, hbound, hcond⟩
    obtain ⟨file', p', hposts, hcases⟩ :=
      hidle.post_cases others again s.file hbound hparse
    refine ⟨.silent, ⟨file', p'⟩, by rw [hposts]; rfl, ?_⟩
    rcases hcases with ⟨⟨hnone, hnone'⟩, hposted⟩ | ⟨k, hchosen, hposted⟩
    · refine (Posted.keeps_iff (t := ⟨file', p'⟩) hposted).mpr (hcond.resolve_left ?_)
      rintro ⟨slot, hfree⟩
      simp [hnone slot, hnone' slot] at hfree
    · have hfree : held (slotOf (s.process.last + 1 + k)) = false := by
        rw [← Bool.not_eq_true]
        intro hheld
        have hlocked := hchosen.free
        simp [hothers _ hheld, hagain _ hheld] at hlocked
      constructor
      · intro slot hheld
        apply hposted.slotBytes_of_ne
        rintro rfl
        simp [hfree] at hheld
      · intro hall
        simp [hall] at hfree

namespace AllLocked

/-- A record of zeros, and the text of a post from `a` with content `b`. -/
def blank : Record := ⟨List.replicate recordSize nul, by decide⟩

def text : List Char := (Request.post ['a'] ['b']).bytes

/-- A server that has just started, on an empty file. -/
def state : State := ⟨[], Process.init (List.replicate (recordSize * recordNum) nul)⟩

theorem reachable : serving.Reachable state := .start ⟨_, List.length_replicate, rfl⟩

end AllLocked

/-- Slot 0 is held throughout.  The other slots are locked in turn, so that each test of the
first scan finds its slot locked, and slot 3 is free for the second one. -/
theorem keepsLocked_iff_one_free :
    (∃ answer t, AllLocked.state.handle (fun _ => true) (fun slot => slot != 3) AllLocked.blank 0
        AllLocked.text = some (answer, t) ∧
        KeepsLocked (fun slot => slot == 0) AllLocked.state t) ↔
      ∃ record, parsePost AllLocked.blank 0 (cString AllLocked.text 0) = some record ∧
        AllLocked.state.process.last + recordNum + 1 ≤ intMax ∧
        ((∃ slot : Slot, true = false ∨ (slot != 3) = false) ∨ ((0 : Slot) == 0) = false ∨
          slotBytes AllLocked.state.file 0 = record.bytes ∧
            ((∀ slot : Slot, (slot == 0) = true) → recordSize ≤ AllLocked.state.file.length)) :=
  keepsLocked_iff AllLocked.state AllLocked.reachable (fun slot => slot == 0) (fun _ => true)
    (fun slot => slot != 3) (by decide) (by decide) _ _ _ (by decide)

/-- With every slot locked by others, a post overwrites slot 0. -/
theorem not_keepsLocked_all_locked :
    ¬ ∀ s, serving.Reachable s → ∀ held others again : Slot → Bool,
      (∀ slot, held slot = true → others slot = true) →
      (∀ slot, held slot = true → again slot = true) →
      ∀ (tmp : Record) (j : Int) (received : List Char),
      classify (cString received 0) = .post →
      (parsePost tmp j (cString received 0)).isSome = true →
      ∃ answer t, s.handle others again tmp j received = some (answer, t) ∧
        KeepsLocked held s t := by
  intro hkeeps
  obtain ⟨answer, t, hhandle, hkeeps⟩ := hkeeps AllLocked.state AllLocked.reachable
    (fun _ => true) (fun _ => true) (fun _ => true) (fun _ _ => rfl) (fun _ _ => rfl)
    AllLocked.blank 0 AllLocked.text (by decide) (by decide)
  have hslot := hkeeps.slots 0 rfl
  cases hhandle
  exact absurd hslot (by decide)

end Board

end SystemsProgramming
