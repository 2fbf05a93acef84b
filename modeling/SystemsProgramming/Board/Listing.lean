/-
A board without locks is a ring of the last ten posts.  The `k`-th post goes to slot
`k % RECORD_NUM`, the refresh at the top of the loop sees it, and the client's decoder
undoes the starred reply.
-/
import SystemsProgramming.LastWrites
import SystemsProgramming.Board.LockedSlots
import SystemsProgramming.Board.Records

namespace SystemsProgramming

namespace Board

open FlatBytes

/-- The sender and the content of a post. -/
abbrev Post := List Char × List Char

/-- The part of a reply that stands for a post. -/
def starred (post : Post) : List Char := post.1 ++ '*' :: post.2 ++ ['*']

/-- The lines that a client shows for a post. -/
def listed (post : Post) : List Char :=
  ['F', 'R', 'O', 'M', ':', ' '] ++ post.1 ++
    ['\n', 'C', 'O', 'N', 'T', 'E', 'N', 'T', ':', '\n'] ++ post.2 ++ ['\n']

/-- The text fits its fields and has none of the three separators. -/
structure Plain (post : Post) : Prop where
  sender_length : 0 < post.1.length ∧ post.1.length < fromLen
  content_length : 0 < post.2.length ∧ post.2.length < contentLen
  sender : '\n' ∉ post.1 ∧ nul ∉ post.1 ∧ '*' ∉ post.1
  content : '\n' ∉ post.2 ∧ nul ∉ post.2 ∧ '*' ∉ post.2

section Decoder

variable {text : List Char} {cnt dir : Nat}

theorem printLoop_text (hfree : '*' ∉ text) (hcnt : cnt ≠ 0) (rest : List Char) :
    printLoop cnt dir (text ++ rest) = text ++ printLoop cnt dir rest := by
  induction text with
  | nil => rfl
  | cons c text ih =>
      have hc : c ≠ '*' := fun h => hfree (h ▸ List.mem_cons_self)
      have hrest : '*' ∉ text := fun h => hfree (List.mem_cons_of_mem _ h)
      rw [List.cons_append, printLoop, if_neg hcnt, if_pos hc, ih hrest, List.cons_append]

/-- The loop over a starred post, from an even count of stars on. -/
theorem printLoop_starred {post : Post} (hsender : '*' ∉ post.1) (hcontent : '*' ∉ post.2)
    (hcnt : 1 < cnt) (hdir : dir % 2 = 0) (rest : List Char) :
    printLoop cnt dir (starred post ++ rest) =
      post.1 ++ ['\n', 'C', 'O', 'N', 'T', 'E', 'N', 'T', ':', '\n'] ++ post.2 ++
        printLoop (cnt - 1) (dir + 1) ('*' :: rest) := by
  have hshape : starred post ++ rest = post.1 ++ '*' :: (post.2 ++ '*' :: rest) := by
    simp [starred]
  rw [hshape, printLoop_text hsender (by omega), printLoop, if_neg (by omega),
    if_neg (by simp), if_pos hdir, printLoop_text hcontent (by omega)]
  simp

theorem printLoop_flatMap_starred (post : Post) (posts : List Post)
    (hstars : ∀ p ∈ post :: posts, '*' ∉ p.1 ∧ '*' ∉ p.2) (hdir : dir % 2 = 0) :
    ['F', 'R', 'O', 'M', ':', ' '] ++
        printLoop (2 * (post :: posts).length) dir ((post :: posts).flatMap starred) ++ ['\n'] =
      (post :: posts).flatMap listed := by
  induction posts generalizing post dir with
  | nil =>
      have hpost := hstars post List.mem_cons_self
      rw [List.flatMap_cons, printLoop_starred hpost.1 hpost.2 (by simp) hdir]
      have hodd : ¬ (dir + 1) % 2 = 0 := by omega
      simp [printLoop, hodd, listed]
  | cons next posts ih =>
      have hpost := hstars post List.mem_cons_self
      have hrest : ∀ p ∈ next :: posts, '*' ∉ p.1 ∧ '*' ∉ p.2 :=
        fun p hp => hstars p (List.mem_cons_of_mem _ hp)
      have hodd : ¬ (dir + 1) % 2 = 0 := by omega
      have hmany : 1 < 2 * (post :: next :: posts).length - 1 := by
        simp only [List.length_cons]
        omega
      have hcnt : 2 * (post :: next :: posts).length - 1 - 1 = 2 * (next :: posts).length := by
        simp only [List.length_cons]
        omega
      have heven : (dir + 1 + 1) % 2 = 0 := by omega
      have ih := ih next hrest heven
      rw [List.flatMap_cons, printLoop_starred hpost.1 hpost.2 (by simp; omega) hdir, printLoop,
        if_neg (by omega), if_neg (by simp), if_neg hodd, if_pos hmany, hcnt,
        List.flatMap_cons (f := listed), ← ih]
      simp [listed]

theorem count_star_starred {post : Post} (hsender : '*' ∉ post.1) (hcontent : '*' ∉ post.2) :
    (starred post).count '*' = 2 := by
  simp [starred, List.count_eq_zero.mpr hsender, List.count_eq_zero.mpr hcontent]

theorem count_star_flatMap (posts : List Post)
    (hstars : ∀ p ∈ posts, '*' ∉ p.1 ∧ '*' ∉ p.2) :
    (posts.flatMap starred).count '*' = 2 * posts.length := by
  induction posts with
  | nil => rfl
  | cons post posts ih =>
      have hpost := hstars post List.mem_cons_self
      rw [List.flatMap_cons, List.count_append, count_star_starred hpost.1 hpost.2,
        ih fun p hp => hstars p (List.mem_cons_of_mem _ hp), List.length_cons]
      omega

theorem nul_notMem_flatMap_starred (posts : List Post)
    (hnuls : ∀ p ∈ posts, nul ∉ p.1 ∧ nul ∉ p.2) : nul ∉ posts.flatMap starred := by
  intro hmem
  obtain ⟨post, hpost, hin⟩ := List.mem_flatMap.mp hmem
  have hnul := hnuls post hpost
  have hstar : nul ≠ '*' := by decide
  simp [starred, hnul.1, hnul.2, hstar] at hin

/-- The client prints the posts that a reply was made of. -/
theorem printReply_starred (posts : List Post) (hplain : ∀ p ∈ posts, Plain p) :
    printReply ('\'' :: posts.flatMap starred) = posts.flatMap listed := by
  have hstars : ∀ p ∈ posts, '*' ∉ p.1 ∧ '*' ∉ p.2 :=
    fun p hp => ⟨(hplain p hp).sender.2.2, (hplain p hp).content.2.2⟩
  have hnul : nul ∉ '\'' :: posts.flatMap starred := by
    have hquote : nul ≠ '\'' := by decide
    rw [List.mem_cons, not_or]
    exact ⟨hquote, nul_notMem_flatMap_starred posts
      fun p hp => ⟨(hplain p hp).sender.2.1, (hplain p hp).content.2.1⟩⟩
  have hbuf : cString ('\'' :: posts.flatMap starred) 0 = '\'' :: posts.flatMap starred :=
    takeWhile_eq_self_of_free hnul
  rw [printReply, hbuf, List.tail_cons, count_star_flatMap posts hstars]
  cases posts with
  | nil => simp [printLoop]
  | cons post posts =>
      rw [if_pos ⟨by simp, by simp⟩]
      exact printLoop_flatMap_starred post posts hstars rfl

end Decoder

/-- The bytes of a slot that shows a post, or has not been used. -/
def Shows (bytes : List Char) : Option Post → Prop
  | none => bytes = List.replicate recordSize nul
  | some post => Stores bytes post.1 post.2

/-- Both strings have a first character. -/
def complete (post : Post) : Bool := !post.1.isEmpty && !post.2.isEmpty

theorem Plain.complete {post : Post} (hplain : Plain post) : complete post = true := by
  have hsender := List.ne_nil_of_length_pos hplain.sender_length.1
  have hcontent := List.ne_nil_of_length_pos hplain.content_length.1
  simp [Board.complete, hsender, hcontent]

section Records

/-- The record that a pull takes from a slot of `all`. -/
def recordAt (all : List Char) (slot : Slot) : Option Post :=
  if all.getD (recordSize * slot) nul != nul &&
      all.getD (recordSize * slot + fromLen) nul != nul then
    some (cString all (recordSize * slot), cString all (recordSize * slot + fromLen))
  else none

/-- The records in the slots that nobody has locked, in the order of the slots. -/
def visible (others locked : Slot → Bool) (all : List Char) : List Post :=
  (List.finRange recordNum).filterMap fun slot =>
    if others slot || locked slot then none else recordAt all slot

theorem flatMap_starred (slots : List Slot) (write : Slot → Option Post) :
    slots.flatMap (fun slot => ((write slot).map starred).getD []) =
      (slots.filterMap write).flatMap starred := by
  induction slots with
  | nil => rfl
  | cons slot slots ih =>
      rw [List.flatMap_cons, ih, List.filterMap_cons]
      cases write slot <;> rfl

/-- The reply to a pull is made of the visible records. -/
theorem pullReply_visible (p : Process) (others : Slot → Bool) :
    p.pullReply others = '\'' :: (visible others p.locked p.all).flatMap starred := by
  have hrecord : ∀ slot, p.pullRecord others slot =
      ((if others slot || p.locked slot then none
        else recordAt p.all slot).map starred).getD [] := by
    intro slot
    rw [Process.pullRecord, recordAt]
    cases others slot <;> cases p.locked slot <;> simp [starred]
    split <;> simp
  rw [Process.pullReply, visible, ← flatMap_starred, funext hrecord]

theorem drop_slot {file : List Char} (hlength : file.length = recordSize * recordNum)
    (slot : Slot) : ∃ rest, file.drop (recordSize * slot) = slotBytes file slot ++ rest := by
  refine ⟨_, drop_eq_block_append nul ?_⟩
  have hlt := slot.isLt
  have hle := Nat.mul_le_mul_left recordSize hlt
  rw [Nat.mul_succ] at hle
  omega

theorem getD_ne_nul (bytes : List Char) (o : Nat) :
    (bytes.getD o nul != nul) = !(cString bytes o).isEmpty := by
  have hhead : bytes.getD o nul = (bytes.drop o).getD 0 nul := by
    rw [List.getD_eq_getElem?_getD, List.getD_eq_getElem?_getD, List.getElem?_drop,
      Nat.add_zero]
  rw [hhead, cString, terminated]
  cases bytes.drop o with
  | nil => rfl
  | cons c rest =>
      by_cases hc : c = nul <;> simp [hc]

/-- A slot that shows a post gives the post to a pull, if both of its strings have a first
character. -/
theorem recordAt_shows {all : List Char} (hlength : all.length = recordSize * recordNum)
    {slot : Slot} {write : Option Post} (hshows : Shows (slotBytes all slot) write)
    (hnul : ∀ post ∈ write, nul ∉ post.1 ∧ nul ∉ post.2) :
    recordAt all slot = write.filter complete := by
  obtain ⟨rest, hdrop⟩ := drop_slot hlength slot
  have hfirst : cString all (recordSize * slot) = cString (slotBytes all slot ++ rest) 0 := by
    rw [← hdrop]
    rfl
  have hsecond : cString all (recordSize * slot + fromLen) =
      cString (slotBytes all slot ++ rest) fromLen := by
    rw [← hdrop, cString, cString, terminated, terminated, List.drop_drop]
  rw [recordAt, getD_ne_nul, getD_ne_nul, hfirst, hsecond]
  cases write with
  | none =>
      have hbytes : slotBytes all slot = List.replicate recordSize nul := hshows
      have hempty : cString (slotBytes all slot ++ rest) 0 = [] := by
        rw [hbytes]
        rfl
      simp [hempty]
  | some post =>
      have hfree := hnul post rfl
      rw [hshows.cString_sender hfree.1, hshows.cString_content hfree.2]
      simp [Option.filter, complete]

end Records

/-- No slot is locked by another process. -/
def noOthers : Slot → Bool := fun _ => false

/-- The state after the posts, seen at the top of the loop. -/
structure RingState (posts : List Post) (s : State) : Prop where
  idle : Idle s.process
  last : s.process.last = posts.length - 1
  file_length : s.file.length = recordSize * recordNum
  all_length : s.process.all.length = recordSize * recordNum
  shows : ∀ slot, Shows (slotBytes s.file slot) (lastWrites recordNum posts slot)
  cache : s.process.offset = 0 ∨
    (s.process.offset = recordSize * recordNum ∧ s.process.all = s.file)

section Server

variable {posts : List Post} {s t : State} {p : Process}

/-- A read of a whole board from the start. -/
theorem refresh_full {file : List Char} (hoffset : p.offset = 0)
    (hfile : file.length = recordSize * recordNum)
    (hall : p.all.length = recordSize * recordNum) :
    (p.refresh file).all = file ∧ (p.refresh file).offset = recordSize * recordNum := by
  have htake : file.take (recordSize * recordNum) = file :=
    List.take_of_length_le (Nat.le_of_eq hfile)
  have hdrop : p.all.drop (recordSize * recordNum) = [] :=
    List.drop_eq_nil_of_le (Nat.le_of_eq hall)
  simp [Process.refresh, hoffset, htake, hfile, hdrop]

/-- After the refresh the array `all` is the file. -/
theorem RingState.refresh (hring : RingState posts s) :
    RingState posts { s with process := s.process.refresh s.file } ∧
      (s.process.refresh s.file).all = s.file := by
  have hread : (s.process.refresh s.file).all = s.file ∧
      (s.process.refresh s.file).offset = recordSize * recordNum := by
    have hfile := hring.file_length
    rcases hring.cache with hzero | ⟨hend, hsame⟩
    · exact refresh_full hzero hfile hring.all_length
    · have hdrop : s.file.drop (recordSize * recordNum) = [] :=
        List.drop_eq_nil_of_le (Nat.le_of_eq hfile)
      simp [Process.refresh, hend, hdrop, hsame]
  refine ⟨⟨⟨hring.idle.unlocked, hring.idle.last_ge⟩, hring.last, hring.file_length, ?_,
    hring.shows, .inr ⟨hread.2, hread.1⟩⟩, hread.1⟩
  rw [hread.1]
  exact hring.file_length

theorem warn_noOthers (hidle : Idle p) : p.warn noOthers = p := by
  have hzero : p.numOfLocked noOthers = 0 := by
    simp [Process.numOfLocked, Process.isLocked, noOthers, hidle.unlocked]
  simp [Process.warn, hzero]

/-- The posts that a board shows, in the order of the slots. -/
def shown (posts : List Post) : List Post :=
  (List.finRange recordNum).filterMap (lastWrites recordNum posts)

theorem mem_shown {post : Post} (hmem : post ∈ shown posts) : post ∈ posts := by
  obtain ⟨slot, -, hslot⟩ := List.mem_filterMap.mp hmem
  obtain ⟨k, hk, -⟩ := (lastWrites_eq_some_iff recordNum posts slot post).mp hslot
  exact List.mem_of_getElem? hk

/-- A pull is answered with the posts that the board shows. -/
theorem RingState.pullReply (hring : RingState posts s) (hall : s.process.all = s.file)
    (hplain : ∀ post ∈ posts, Plain post) :
    s.process.pullReply noOthers = '\'' :: (shown posts).flatMap starred := by
  have hrecord : ∀ slot, recordAt s.process.all slot = lastWrites recordNum posts slot := by
    intro slot
    have hplain : ∀ post ∈ lastWrites recordNum posts slot, Plain post := by
      intro post hpost
      obtain ⟨k, hk, -⟩ := (lastWrites_eq_some_iff recordNum posts slot post).mp hpost
      exact hplain post (List.mem_of_getElem? hk)
    have hshows := hring.shows slot
    rw [← hall] at hshows
    rw [recordAt_shows hring.all_length hshows fun post hpost =>
      ⟨(hplain post hpost).sender.2.1, (hplain post hpost).content.2.1⟩]
    cases hwrite : lastWrites recordNum posts slot with
    | none => rfl
    | some post => simp [Option.filter, (hplain post hwrite).complete]
  have hvisible : visible noOthers s.process.locked s.process.all = shown posts := by
    simp [visible, shown, noOthers, hring.idle.unlocked, hrecord]
  rw [pullReply_visible, hvisible]

/-- Without locks a post takes the slot behind the last one. -/
theorem RingState.post (hring : RingState posts s) {post : Post} (hpost : Plain post)
    (hbound : s.process.last < intMax - recordNum - 1) (tmp : Record) (j : Int) :
    ∃ file p, s.process.post noOthers noOthers s.file tmp j (Request.post post.1 post.2).bytes =
      some (file, p) ∧ RingState (posts ++ [post]) ⟨file, p⟩ := by
  obtain ⟨record, hparse, hstores⟩ := parsePost_fits tmp j hpost.sender.1 hpost.content.1
    hpost.sender_length.2 hpost.content_length.2
  obtain ⟨file, p, hposts, hcases⟩ :=
    hring.idle.post_cases noOthers noOthers s.file (by omega) hparse
  refine ⟨file, p, hposts, ?_⟩
  rcases hcases with ⟨⟨hall, -⟩, -⟩ | ⟨k, hchosen, hposted⟩
  · exact absurd (hall 0) (by simp [noOthers])
  have hfound := hchosen.found ⟨0, rfl⟩
  have hfirst : k = 0 := by
    by_contra hne
    have hlocked := hfound.first 0 (by omega)
    simp [noOthers] at hlocked
  subst hfirst
  have hlast := hring.last
  have hslot : slotOf (s.process.last + 1 + (0 : Nat)) = Fin.ofNat recordNum posts.length := by
    apply Fin.ext
    change ((s.process.last + 1 + (0 : Nat)) % (10 : Int)).toNat = posts.length % 10
    omega
  rw [hslot] at hposted
  have hlength : file.length = s.file.length := by
    rw [hposted.file_eq]
    apply length_overwrite
    have hlt := (Fin.ofNat recordNum posts.length).isLt
    have hle := Nat.mul_le_mul_left recordSize hlt
    rw [Nat.mul_succ] at hle
    rw [record.length_bytes, hring.file_length]
    omega
  constructor
  · refine ⟨hposted.unlocked, ?_⟩
    change -1 ≤ p.last
    rw [hposted.last_eq]
    omega
  · change p.last = _
    rw [hposted.last_eq, List.length_append, List.length_singleton]
    omega
  · exact hlength.trans hring.file_length
  · change p.all.length = _
    rw [hposted.all]
    exact hring.all_length
  · intro slot
    rw [lastWrites_append_singleton]
    by_cases heq : slot = Fin.ofNat recordNum posts.length
    · subst heq
      rw [Function.update_self, hposted.slotBytes_self]
      exact hstores
    · rw [Function.update_of_ne heq, hposted.slotBytes_of_ne heq]
      exact hring.shows slot
  · exact .inl hposted.offset

end Server

/-- One turn of the server loop, in which a connection may be accepted and one whole request
read; `tmp` and `j` are the uninitialised variables of the parser. -/
structure Turn where
  accepts : Bool
  sent : Option Request
  tmp : Record
  j : Int

/-- The turn up to the reading of requests. -/
def atTop (accepts : Bool) : List Event :=
  .refresh :: if accepts then [.accept noOthers] else []

def Turn.events (turn : Turn) : List Event :=
  atTop turn.accepts ++
    turn.sent.toList.map fun sent => .request noOthers noOthers turn.tmp turn.j sent.bytes

def Turn.post? (turn : Turn) : Option Post :=
  match turn.sent with
  | some (.post sender content) => some (sender, content)
  | _ => none

section Requests

variable {s : State} {tmp : Record} {j : Int}

theorem handle_pull (s : State) (others again : Slot → Bool) (tmp : Record) (j : Int) :
    s.handle others again tmp j Request.pull.bytes =
      some (.reply (s.process.pullReply again), { s with process := s.process.warn others }) := by
  have hbuf : cString Request.pull.bytes 0 = ['p', 'u', 'l', 'l'] := by decide
  simp [State.handle, hbuf, classify]

theorem handle_check (s : State) (others again : Slot → Bool) (tmp : Record) (j : Int) :
    s.handle others again tmp j Request.check.bytes =
      some (.reply (s.process.checkReply others), s) := by
  have hbuf : cString Request.check.bytes 0 = ['c', 'h', 'e', 'c', 'k'] := by decide
  simp [State.handle, hbuf, classify]

theorem handle_exit (s : State) (others again : Slot → Bool) (tmp : Record) (j : Int) :
    s.handle others again tmp j Request.exit.bytes = some (.closed, s) := by
  have hbuf : cString Request.exit.bytes 0 = ['e', 'x', 'i', 't'] := by decide
  simp [State.handle, hbuf, classify]

/-- A text with a newline is none of the fixed requests. -/
theorem classify_of_newline {buf : List Char} (hnewline : '\n' ∈ buf) : classify buf = .post := by
  unfold classify
  split_ifs with hpull hcheck hexit
  · simp [hpull] at hnewline
  · simp [hcheck] at hnewline
  · simp [hexit] at hnewline
  · rfl

theorem cString_post {sender content : List Char} (hsender : nul ∉ sender)
    (hcontent : nul ∉ content) :
    cString (Request.post sender content).bytes 0 = (Request.post sender content).bytes := by
  apply takeWhile_eq_self_of_free
  have hnewline : nul ≠ '\n' := by decide
  simp [Request.bytes, hsender, hcontent, hnewline]

theorem handle_post {sender content : List Char} (hsender : nul ∉ sender)
    (hcontent : nul ∉ content) (s : State) (others again : Slot → Bool) (tmp : Record) (j : Int) :
    s.handle others again tmp j (Request.post sender content).bytes =
      (s.process.post others again s.file tmp j (Request.post sender content).bytes).map
        fun next => (.silent, ⟨next.1, next.2⟩) := by
  have hnewline : '\n' ∈ (Request.post sender content).bytes := by simp [Request.bytes]
  simp [State.handle, cString_post hsender hcontent, classify_of_newline hnewline]

end Requests

/-- At the top of a turn the array `all` becomes the file. -/
theorem RingState.top {posts : List Post} {s : State} (hring : RingState posts s)
    (accepts : Bool) :
    ∃ t, serving.run s (atTop accepts) = some t ∧ RingState posts t ∧ t.process.all = t.file := by
  obtain ⟨hfresh, hsame⟩ := hring.refresh
  refine ⟨{ s with process := s.process.refresh s.file }, ?_, hfresh, hsame⟩
  cases accepts with
  | false => rfl
  | true =>
      have hwarn := warn_noOthers hfresh.idle
      simp only [atTop, TransitionSystem.run, serving, State.step, if_true, Option.bind_some]
      rw [hwarn]

/-- A request keeps the board. -/
theorem RingState.request {posts : List Post} {s : State} (hring : RingState posts s)
    (turn : Turn) (hplain : ∀ post ∈ turn.post?, Plain post)
    (hbound : s.process.last < intMax - recordNum - 1) :
    ∃ t, serving.run s (turn.sent.toList.map fun sent =>
        .request noOthers noOthers turn.tmp turn.j sent.bytes) = some t ∧
      RingState (posts ++ turn.post?.toList) t := by
  have hwarn := warn_noOthers hring.idle
  obtain ⟨accepts, sent, tmp, j⟩ := turn
  cases sent with
  | none => exact ⟨s, rfl, by simpa [Turn.post?] using hring⟩
  | some sent =>
      cases sent with
      | pull =>
          refine ⟨s, ?_, by simpa [Turn.post?] using hring⟩
          simp only [Option.toList_some, List.map_cons, List.map_nil, TransitionSystem.run, serving,
            State.step, handle_pull, Option.map_some, Option.bind_some, hwarn]
      | check =>
          refine ⟨s, ?_, by simpa [Turn.post?] using hring⟩
          simp only [Option.toList_some, List.map_cons, List.map_nil, TransitionSystem.run, serving,
            State.step, handle_check, Option.map_some, Option.bind_some]
      | exit =>
          refine ⟨s, ?_, by simpa [Turn.post?] using hring⟩
          simp only [Option.toList_some, List.map_cons, List.map_nil, TransitionSystem.run, serving,
            State.step, handle_exit, Option.map_some, Option.bind_some]
      | post sender content =>
          have hpost : Plain (sender, content) := hplain _ rfl
          obtain ⟨file, p, hposts, hnext⟩ := hring.post hpost hbound tmp j
          refine ⟨⟨file, p⟩, ?_, hnext⟩
          simp only [Option.toList_some, List.map_cons, List.map_nil, TransitionSystem.run, serving,
            State.step, handle_post hpost.sender.2.1 hpost.content.2.1]
          rw [hposts]
          rfl

/-- One turn of the loop keeps the board. -/
theorem RingState.turn {posts : List Post} {s : State} (hring : RingState posts s) (turn : Turn)
    (hplain : ∀ post ∈ turn.post?, Plain post)
    (hbound : s.process.last < intMax - recordNum - 1) :
    ∃ t, serving.run s turn.events = some t ∧ RingState (posts ++ turn.post?.toList) t := by
  obtain ⟨top, htop, hring', -⟩ := hring.top turn.accepts
  have hlast : top.process.last = s.process.last := hring'.last.trans hring.last.symm
  obtain ⟨t, hrun, ht⟩ := hring'.request turn hplain (by rw [hlast]; exact hbound)
  refine ⟨t, ?_, ht⟩
  rw [Turn.events, TransitionSystem.run_append, htop]
  exact hrun

def postsOf (turns : List Turn) : List Post := turns.filterMap Turn.post?

/-- The board of a run is the ring of its posts. -/
theorem RingState.run {posts : List Post} {s : State} (hring : RingState posts s)
    (turns : List Turn) (hplain : ∀ post ∈ postsOf turns, Plain post)
    (hbound : ((posts ++ postsOf turns).length : Int) - 1 < intMax - recordNum - 1) :
    ∃ t, serving.run s (turns.flatMap Turn.events) = some t ∧
      RingState (posts ++ postsOf turns) t := by
  induction turns generalizing posts s with
  | nil => exact ⟨s, rfl, by simpa [postsOf] using hring⟩
  | cons turn turns ih =>
      have hsplit : postsOf (turn :: turns) = turn.post?.toList ++ postsOf turns := by
        rw [postsOf, List.filterMap_cons]
        cases turn.post? <;> rfl
      rw [hsplit, ← List.append_assoc] at hbound ⊢
      have hlast := hring.last
      obtain ⟨next, hstep, hnext⟩ := hring.turn turn
        (fun post hpost => hplain post (by simp [hsplit, Option.mem_def.mp hpost]))
        (by simp only [List.length_append] at hbound; omega)
      obtain ⟨t, hrun, ht⟩ := ih hnext
        (fun post hpost => hplain post (by rw [hsplit]; exact List.mem_append_right _ hpost))
        hbound
      refine ⟨t, ?_, ht⟩
      rw [List.flatMap_cons, TransitionSystem.run_append, hstep]
      exact hrun

/-- A server that has just started on a file of zeros. -/
def State.zeros (all : List Char) : State :=
  ⟨List.replicate (recordSize * recordNum) nul, Process.init all⟩

theorem slotBytes_zeros (slot : Slot) :
    slotBytes (List.replicate (recordSize * recordNum) nul) slot =
      List.replicate recordSize nul := by
  apply List.ext_getElem (by simp [slotBytes])
  intro o hleft hright
  simp [slotBytes, block]

theorem ringState_zeros {all : List Char} (hall : all.length = recordSize * recordNum) :
    RingState [] (State.zeros all) := by
  exact ⟨⟨fun _ => rfl, Int.le_refl _⟩, rfl, List.length_replicate, hall, slotBytes_zeros, .inl rfl⟩

/-- After any turns of the loop each of the last ten posts is in its slot, and a pull in
the next turn makes the client print the posts that the slots show. -/
theorem pull_prints_shown (all : List Char) (hall : all.length = recordSize * recordNum)
    (turns : List Turn) (hplain : ∀ post ∈ postsOf turns, Plain post)
    (hbound : ((postsOf turns).length : Int) - 1 < intMax - recordNum - 1)
    (accepts : Bool) (tmp : Record) (j : Int) :
    ∃ s, serving.run (State.zeros all) (turns.flatMap Turn.events ++ atTop accepts) = some s ∧
      (∀ k post, (postsOf turns)[k]? = some post → (postsOf turns).length ≤ k + recordNum →
        Stores (slotBytes s.file (slotOf k)) post.1 post.2) ∧
      ∃ reply t, s.handle noOthers noOthers tmp j Request.pull.bytes = some (.reply reply, t) ∧
        printReply reply = (shown (postsOf turns)).flatMap listed := by
  obtain ⟨before, hbefore, hring⟩ := (ringState_zeros hall).run turns hplain hbound
  rw [List.nil_append] at hring
  obtain ⟨s, htop, hring', hsame⟩ := hring.top accepts
  refine ⟨s, ?_, fun k post hk hlast => ?_, _, _, handle_pull _ _ _ _ _, ?_⟩
  · rw [TransitionSystem.run_append, hbefore]
    exact htop
  · have hslot : (lastWrites recordNum (postsOf turns)) (slotOf k) = some post :=
      (lastWrites_eq_some_iff recordNum _ _ _).mpr ⟨k, hk, rfl, hlast⟩
    have hshows := hring'.shows (slotOf k)
    rw [hslot] at hshows
    exact hshows
  · rw [hring'.pullReply hsame hplain]
    exact printReply_starred _ fun post hpost => hplain post (mem_shown hpost)

theorem plain_ab : Plain (['a'], ['b']) := ⟨by decide, by decide, by decide, by decide⟩

/-- One post in the turn that accepts its connection, with an `x` in every byte of `all` and
of the record buffer. -/
theorem pull_prints_shown_one_post :
    let noise : List Char := List.replicate (recordSize * recordNum) 'x'
    let buffer : Record := ⟨List.replicate recordSize 'x', List.length_replicate⟩
    let turns : List Turn := [⟨true, some (.post ['a'] ['b']), buffer, 7⟩]
    ∃ s, serving.run (State.zeros noise) (turns.flatMap Turn.events ++ atTop false) = some s ∧
      (∀ k post, (postsOf turns)[k]? = some post → (postsOf turns).length ≤ k + recordNum →
        Stores (slotBytes s.file (slotOf k)) post.1 post.2) ∧
      ∃ reply t, s.handle noOthers noOthers buffer 7 Request.pull.bytes =
          some (.reply reply, t) ∧
        printReply reply = (shown (postsOf turns)).flatMap listed :=
  pull_prints_shown _ List.length_replicate [⟨true, some (.post ['a'] ['b']), _, 7⟩]
    (List.forall_mem_singleton.mpr plain_ab) (by decide) false _ 7

end Board

end SystemsProgramming
