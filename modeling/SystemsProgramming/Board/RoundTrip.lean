/-
The reply to a pull as a code for the board.  It is decoded to the listing of the posts
in the unlocked slots exactly if none of them has an empty text or a star in it.
-/
import SystemsProgramming.Board.Listing

namespace SystemsProgramming

namespace Board

open FlatBytes

/-- The texts fit their fields and end where the parser takes them to end. -/
structure Fits (post : Post) : Prop where
  sender_length : post.1.length < fromLen
  content_length : post.2.length < contentLen
  sender : '\n' ∉ post.1 ∧ nul ∉ post.1
  content : '\n' ∉ post.2 ∧ nul ∉ post.2

/-- The bytes of a slot that a post was stored in, or that has not been used. -/
def StoredBy (bytes : List Char) : Option Post → Prop
  | none => bytes = List.replicate recordSize nul
  | some post => ∃ tmp j record,
      parsePost tmp j (Request.post post.1 post.2).bytes = some record ∧ bytes = record.bytes

/-- A post that the reply to a pull can stand for. -/
def Carried (post : Post) : Prop :=
  complete post = true ∧ '*' ∉ post.1 ∧ '*' ∉ post.2

/-- The posts in the slots that no other process has locked, in the order of the slots. -/
def unlocked (others : Slot → Bool) (board : Slot → Option Post) : List Post :=
  (List.finRange recordNum).filterMap fun slot => if others slot then none else board slot

theorem StoredBy.shows {bytes : List Char} {write : Option Post} (hstored : StoredBy bytes write)
    (hfits : ∀ post ∈ write, Fits post) : Shows bytes write := by
  cases write with
  | none => exact hstored
  | some post =>
      obtain ⟨tmp, j, record, hparse, rfl⟩ := hstored
      have hpost := hfits post rfl
      obtain ⟨other, hother, hstores⟩ := parsePost_fits tmp j hpost.sender.1 hpost.content.1
        hpost.sender_length hpost.content_length
      obtain rfl : other = record := Option.some.inj (hother.symm.trans hparse)
      exact hstores

theorem Fits.plain {post : Post} (hfits : Fits post) (hcarried : Carried post) : Plain post := by
  obtain ⟨hcomplete, hsender, hcontent⟩ := hcarried
  have hne : post.1 ≠ [] ∧ post.2 ≠ [] := by simpa [complete] using hcomplete
  exact ⟨⟨List.length_pos_of_ne_nil hne.1, hfits.sender_length⟩,
    ⟨List.length_pos_of_ne_nil hne.2, hfits.content_length⟩,
    ⟨hfits.sender.1, hfits.sender.2, hsender⟩, ⟨hfits.content.1, hfits.content.2, hcontent⟩⟩

section Server

variable {s : State} {others : Slot → Bool}

theorem reachable_all_length (hreach : serving.Reachable s) :
    s.process.all.length = recordSize * recordNum := by
  unfold TransitionSystem.Reachable at hreach
  induction hreach with
  | start hstart =>
      obtain ⟨all, hlength, hinit⟩ := hstart
      rw [hinit]
      exact hlength
  | @step s t event hreach _ hstep hlength =>
      cases event with
      | refresh =>
          cases hstep
          exact length_refresh hlength _
      | accept others =>
          cases hstep
          unfold Process.warn
          split <;> exact hlength
      | request others again tmp j received =>
          obtain ⟨next, hhandle, rfl⟩ := Option.map_eq_some_iff.mp hstep
          obtain ⟨-, hall, -⟩ := (reachable_idle hreach).handle_cases hhandle
          exact (congrArg List.length hall).trans hlength
      | foreign file =>
          cases hstep
          exact hlength

/-- The visible records are the unlocked posts that have no empty text. -/
theorem visible_stored (hidle : Idle s.process)
    (hlength : s.process.all.length = recordSize * recordNum) {board : Slot → Option Post}
    (hfits : ∀ slot, ∀ post ∈ board slot, Fits post)
    (hstored : ∀ slot, StoredBy (slotBytes s.process.all slot) (board slot)) :
    visible others s.process.locked s.process.all = (unlocked others board).filter complete := by
  rw [visible, unlocked, List.filter_filterMap]
  congr 1
  funext slot
  rw [hidle.unlocked, Bool.or_false]
  cases others slot with
  | true => rfl
  | false =>
      have hshows := (hstored slot).shows (hfits slot)
      exact recordAt_shows hlength hshows fun post hpost =>
        ⟨(hfits slot post hpost).sender.2, (hfits slot post hpost).content.2⟩

end Server

section Client

theorem star_notMem_printLoop (cnt dir : Nat) (buf : List Char) :
    '*' ∉ printLoop cnt dir buf := by
  induction buf generalizing cnt dir with
  | nil => simp [printLoop]
  | cons c buf ih =>
      unfold printLoop
      split
      · simp
      · split
        case isTrue hc => simpa [ih, eq_comm] using hc
        case isFalse =>
          split
          · simp [ih]
          · split
            · simp [ih]
            · exact ih cnt dir

/-- The client prints no star. -/
theorem star_notMem_printReply (reply : List Char) : '*' ∉ printReply reply := by
  unfold printReply
  dsimp only
  split <;> simp [star_notMem_printLoop]

theorem star_notMem_of_listed {posts : List Post} (hfree : '*' ∉ posts.flatMap listed)
    {post : Post} (hpost : post ∈ posts) : '*' ∉ post.1 ∧ '*' ∉ post.2 := by
  have hlisted : '*' ∉ listed post := fun hmem =>
    hfree (List.mem_flatMap.mpr ⟨post, hpost, hmem⟩)
  simpa [listed] using hlisted

/-- A listing without some of the posts is shorter. -/
theorem forall_of_listing_filter (keep : Post → Bool) (posts : List Post)
    (hsame : ((posts.filter keep).flatMap listed).length = (posts.flatMap listed).length) :
    ∀ post ∈ posts, keep post = true := by
  induction posts with
  | nil => simp
  | cons post posts ih =>
      have hrest : ((posts.filter keep).flatMap listed).length ≤ (posts.flatMap listed).length :=
        (List.filter_sublist.flatMap listed).length_le
      cases hkeep : keep post with
      | true =>
          rw [List.filter_cons_of_pos hkeep, List.flatMap_cons, List.flatMap_cons,
            List.length_append, List.length_append] at hsame
          have ih := ih (by omega)
          exact List.forall_mem_cons.mpr ⟨hkeep, ih⟩
      | false =>
          have hpos : 0 < (listed post).length := by simp [listed]
          rw [List.filter_cons_of_neg (by simp [hkeep]), List.flatMap_cons,
            List.length_append] at hsame
          omega

end Client

/-- The client prints the listing of the posts in the slots that the reply finds unlocked
exactly if each of them has two texts without a star, none of them empty. -/
theorem prints_listing_iff (s : State) (hreach : serving.Reachable s) (others again : Slot → Bool)
    (board : Slot → Option Post) (hfits : ∀ slot, ∀ post ∈ board slot, Fits post)
    (hstored : ∀ slot, StoredBy (slotBytes s.process.all slot) (board slot))
    (tmp : Record) (j : Int) :
    (∃ reply t, s.handle others again tmp j Request.pull.bytes = some (.reply reply, t) ∧
      printReply reply = (unlocked again board).flatMap listed) ↔
      ∀ post ∈ unlocked again board, Carried post := by
  have hvisible : visible again s.process.locked s.process.all =
      (unlocked again board).filter complete :=
    visible_stored (reachable_idle hreach) (reachable_all_length hreach) hfits hstored
  have hunlocked : ∀ post ∈ unlocked again board, Fits post := by
    intro post hpost
    obtain ⟨slot, -, hslot⟩ := List.mem_filterMap.mp hpost
    cases hagain : again slot with
    | true => simp [hagain] at hslot
    | false => exact hfits slot post (by simpa [hagain] using hslot)
  have hpull := handle_pull s others again tmp j
  rw [pullReply_visible, hvisible] at hpull
  constructor
  · rintro ⟨reply, t, hreply, hprints⟩
    obtain ⟨rfl, -⟩ : _ = reply ∧ _ = t := by simpa using hpull.symm.trans hreply
    have hstars : ∀ post ∈ unlocked again board, '*' ∉ post.1 ∧ '*' ∉ post.2 := by
      intro post hpost
      apply star_notMem_of_listed _ hpost
      rw [← hprints]
      exact star_notMem_printReply _
    have hplain : ∀ post ∈ (unlocked again board).filter complete, Plain post := by
      intro post hpost
      obtain ⟨hmem, hcomplete⟩ := List.mem_filter.mp hpost
      exact (hunlocked post hmem).plain ⟨hcomplete, hstars post hmem⟩
    rw [printReply_starred _ hplain] at hprints
    have hcomplete := forall_of_listing_filter complete _ (congrArg List.length hprints)
    exact fun post hpost => ⟨hcomplete post hpost, hstars post hpost⟩
  · intro hcarried
    refine ⟨_, _, hpull, ?_⟩
    rw [List.filter_eq_self.mpr fun post hpost => (hcarried post hpost).1]
    exact printReply_starred _ fun post hpost => (hunlocked post hpost).plain (hcarried post hpost)

namespace FirstSlot

/-- A file of zeros with a record in its first slot. -/
def file (record : Record) : List Char :=
  overwrite nul (List.replicate (recordSize * recordNum) nul) (recordSize * (0 : Slot)) record.bytes

/-- A server that has just started and read the file. -/
def state (record : Record) : State :=
  ⟨file record, (Process.init (List.replicate (recordSize * recordNum) nul)).refresh (file record)⟩

theorem reachable (record : Record) : serving.Reachable (state record) := by
  have hstart : serving.Reachable
      ⟨file record, Process.init (List.replicate (recordSize * recordNum) nul)⟩ :=
    .start ⟨_, List.length_replicate, rfl⟩
  have hstep :
      serving.step ⟨file record, Process.init (List.replicate (recordSize * recordNum) nul)⟩
        .refresh = some (state record) := rfl
  exact .step hstart trivial hstep

def board (post : Post) (slot : Slot) : Option Post := if slot = 0 then some post else none

/-- The record of a post from `a`, in a buffer of zeros. -/
def record (content : List Char) (hlength : content.length = 5) : Record :=
  ⟨'a' :: List.replicate 4 nul ++ content ++ List.replicate 15 nul, by simp [hlength]; rfl⟩

theorem parsePost_record {content : List Char} (hlength : content.length = 5)
    (hfree : '\n' ∉ content) :
    parsePost AllLocked.blank 0 (Request.post ['a'] content).bytes =
      some (record content hlength) := by
  match content, hlength with
  | [a, b, c, d, e], _ =>
      simp only [List.mem_cons, List.not_mem_nil, or_false, not_or, eq_comm (a := '\n')] at hfree
      simp [parsePost, Request.bytes, Record.copyLine, Record.put, AllLocked.blank, record, hfree,
        recordSize, fromLen, contentLen]

theorem stored {content : List Char} (hlength : content.length = 5) (hfree : '\n' ∉ content)
    (slot : Slot) :
    StoredBy (slotBytes (state (record content hlength)).process.all slot)
      (board (['a'], content) slot) := by
  have hfile : (file (record content hlength)).length = recordSize * recordNum := by
    rw [file, length_overwrite, List.length_replicate]
    rw [List.length_replicate, Record.length_bytes]
    decide
  have hall : (state (record content hlength)).process.all = file (record content hlength) :=
    (refresh_full rfl hfile List.length_replicate).1
  rw [hall]
  by_cases heq : slot = 0
  · subst heq
    refine ⟨AllLocked.blank, 0, _, parsePost_record hlength hfree, ?_⟩
    rw [file, slotBytes, ← (record content hlength).length_bytes]
    exact block_overwrite_self _ _ _ _
  · have hzeros : slotBytes (file (record content hlength)) slot =
        slotBytes (List.replicate (recordSize * recordNum) nul) slot := by
      rw [file, slotBytes, slotBytes, ← (record content hlength).length_bytes]
      exact block_overwrite_of_ne _ _ _ fun hval => heq (Fin.ext hval)
    rw [hzeros, slotBytes_zeros, board, if_neg heq]
    rfl

theorem fits {content : List Char} (hlength : content.length = 5) (hfree : '\n' ∉ content)
    (hnul : nul ∉ content) (slot : Slot) : ∀ post ∈ board (['a'], content) slot, Fits post := by
  intro post hpost
  by_cases heq : slot = 0
  · obtain rfl : (['a'], content) = post := by simpa [board, heq] using hpost
    have hsender : nul ≠ 'a' := by decide
    exact ⟨by simp [fromLen], by simp [hlength, contentLen], by simp [hsender], hfree, hnul⟩
  · simp [board, heq] at hpost

end FirstSlot

/-- A post of `bcdef` from `a`. -/
theorem prints_listing_iff_one_record :
    let content : List Char := ['b', 'c', 'd', 'e', 'f']
    let board := FirstSlot.board (['a'], content)
    (∃ reply t, (FirstSlot.state (FirstSlot.record content rfl)).handle noOthers noOthers
        AllLocked.blank 0 Request.pull.bytes = some (.reply reply, t) ∧
      printReply reply = (unlocked noOthers board).flatMap listed) ↔
      ∀ post ∈ unlocked noOthers board, Carried post :=
  prints_listing_iff _ (FirstSlot.reachable _) noOthers noOthers _
    (FirstSlot.fits rfl (by decide) (by decide)) (FirstSlot.stored rfl (by decide)) _ 0

/-- A post of `b*c*d` from `a` is printed as two posts. -/
theorem not_prints_listing_star :
    ¬ ∀ s, serving.Reachable s → ∀ (others again : Slot → Bool) (board : Slot → Option Post),
      (∀ slot, ∀ post ∈ board slot, Fits post) →
      (∀ slot, StoredBy (slotBytes s.process.all slot) (board slot)) →
      ∀ (tmp : Record) (j : Int), ∃ reply t,
        s.handle others again tmp j Request.pull.bytes = some (.reply reply, t) ∧
          printReply reply = (unlocked again board).flatMap listed := by
  intro hprints
  have hcontent : (['b', '*', 'c', '*', 'd'] : List Char).length = 5 := rfl
  obtain ⟨reply, t, -, hprints⟩ := hprints _ (FirstSlot.reachable (FirstSlot.record _ hcontent))
    noOthers noOthers _ (FirstSlot.fits hcontent (by decide) (by decide))
    (FirstSlot.stored hcontent (by decide)) AllLocked.blank 0
  have hstar := star_notMem_printReply reply
  rw [hprints] at hstar
  exact hstar (by decide)

end Board

end SystemsProgramming
