/-
The two fields of the record that the parser of a post fills.  Its loops are bounded by the
message and not by the fields, and only a newline ends a field with a NUL.
-/
import SystemsProgramming.Board.Records
import SystemsProgramming.Board.Listing

namespace SystemsProgramming

namespace Board

open FlatBytes

/-- What `fgets` stores of the characters that come in, and what is left of them. -/
def getLine : Nat → List Char → List Char × List Char
  | 0, stdin => ([], stdin)
  | _ + 1, [] => ([], [])
  | n + 1, c :: stdin =>
      if c = '\n' then ([c], stdin) else (c :: (getLine n stdin).1, (getLine n stdin).2)

/-- `fgets` with a buffer of this size; `none` is NULL. -/
def fgets (size : Nat) (stdin : List Char) : Option (List Char × List Char) :=
  let (line, rest) := getLine (size - 1) stdin
  if line = [] then none else some (line, rest)

/-- The two lines of a post, where the client gets both. -/
def typedPost (stdin : List Char) : Option (List Char × List Char) :=
  (fgets bufferSize stdin).bind fun (sender, rest) =>
    (fgets bufferSize rest).map fun (content, _) => (sender, content)

/-- `strcpy(tot, from)` and `strcat(tot, content)`. -/
def tot (sender content : List Char) : List Char := cString sender 0 ++ cString content 0

/-- The text of a line, without the newline. -/
def typed (line : List Char) : List Char := terminated '\n' (cString line 0) 0

/-- The indices that a loop of the parser assigns, from `k` on. -/
def writes (k : Nat) : List Char → List Nat
  | [] => []
  | c :: text => k :: if c ≠ '\n' then writes (k + 1) text else []

/-- The text that the second loop of the parser reads. -/
def secondText (j : Int) (buf : List Char) : List Char :=
  if j + 1 < 0 then [] else buf.drop (j + 1).toNat

/-- What is expected of the parser for a message with these two texts, with `tmp` and `j` in
its uninitialised variables. -/
structure ParsedInside (tmp : Record) (j : Int) (buf sender content : List Char) : Prop where
  post : classify buf = .post
  inFrom : ∀ i ∈ writes 0 buf, i < fromLen
  inContent : ∃ next i, tmp.copyLine 0 buf = some (next, some i) ∧
    ∀ k ∈ writes 0 (secondText i buf), k < contentLen
  stored : ∃ record, parsePost tmp j buf = some record ∧
    (nul ∈ record.bytes.take fromLen ∧ record.fromField = sender.take (fromLen - 1)) ∧
    nul ∈ record.bytes.drop fromLen ∧ record.contentField = content.take (contentLen - 1)

/-- The newline of the line is in the message, and the text in front of it leaves room for a
NUL in a field of this size. -/
def InField (size : Nat) (line : List Char) : Prop :=
  '\n' ∈ cString line 0 ∧ (typed line).length < size

/-- A newline ends the line. -/
def SingleLine (line : List Char) : Prop := ∀ text rest, line = text ++ '\n' :: rest → rest = []

variable {tmp next : Record} {j : Int} {stdin line text rest sender content : List Char} {o : Nat}

section Lines

theorem singleLine_getLine (n : Nat) (stdin : List Char) : SingleLine (getLine n stdin).1 := by
  induction n generalizing stdin with
  | zero =>
      intro text rest heq
      simp [getLine] at heq
  | succ n ih =>
      cases stdin with
      | nil =>
          intro text rest heq
          simp [getLine] at heq
      | cons c stdin =>
          intro text rest heq
          by_cases hc : c = '\n'
          · have hone := congrArg List.length heq
            simp only [getLine, if_pos hc, List.length_append, List.length_cons,
              List.length_nil] at hone
            exact List.length_eq_zero_iff.mp (by omega)
          · simp only [getLine, if_neg hc] at heq
            cases text with
            | nil => exact absurd (List.cons.inj heq).1 hc
            | cons d text => exact ih stdin text rest (List.cons.inj heq).2

theorem singleLine_fgets {size : Nat} (hline : fgets size stdin = some (line, rest)) :
    SingleLine line := by
  simp only [fgets] at hline
  split_ifs at hline
  cases hline
  exact singleLine_getLine _ _

theorem singleLine_typedPost (htyped : typedPost stdin = some (sender, content)) :
    SingleLine sender ∧ SingleLine content := by
  obtain ⟨⟨first, behind⟩, hfirst, hbind⟩ := Option.bind_eq_some_iff.mp htyped
  obtain ⟨⟨second, left⟩, hsecond, heq⟩ := Option.map_eq_some_iff.mp hbind
  cases heq
  exact ⟨singleLine_fgets hfirst, singleLine_fgets hsecond⟩

/-- The string in front of the first NUL is a line as well. -/
theorem SingleLine.upToNul (hline : SingleLine line) : SingleLine (cString line 0) := by
  intro text rest heq
  have hsplit := List.takeWhile_append_dropWhile (p := (· ≠ nul)) (l := line)
  have hwhole : line = text ++ '\n' :: (rest ++ line.dropWhile (· ≠ nul)) := by
    rw [← List.cons_append, ← List.append_assoc, ← heq]
    exact hsplit.symm
  exact (List.append_eq_nil_iff.mp (hline _ _ hwhole)).1

/-- A line with its newline is its text and the newline. -/
theorem SingleLine.eq_typed (hline : SingleLine line) (hnewline : '\n' ∈ cString line 0) :
    '\n' ∉ typed line ∧ cString line 0 = typed line ++ ['\n'] := by
  obtain ⟨text, rest, heq, hfree⟩ := List.eq_append_cons_of_mem hnewline
  obtain rfl := hline.upToNul text rest heq
  have htyped : typed line = text := by
    rw [typed, heq]
    exact takeWhile_append_stop hfree []
  rw [htyped]
  exact ⟨hfree, heq⟩

theorem SingleLine.count_le_one (hline : SingleLine line) : line.count '\n' ≤ 1 := by
  by_cases hmem : '\n' ∈ line
  · obtain ⟨text, rest, heq, hfree⟩ := List.eq_append_cons_of_mem hmem
    obtain rfl := hline text rest heq
    rw [heq, List.count_append, List.count_eq_zero_of_not_mem hfree]
    simp
  · rw [List.count_eq_zero_of_not_mem hmem]
    exact Nat.zero_le 1

/-- Two newlines in a message come one from each line. -/
theorem newlines_of_tot (hsender : SingleLine sender) (hcontent : SingleLine content)
    (htwo : 2 ≤ (tot sender content).count '\n') :
    '\n' ∈ cString sender 0 ∧ '\n' ∈ cString content 0 := by
  have hfirst := hsender.upToNul.count_le_one
  have hsecond := hcontent.upToNul.count_le_one
  rw [tot, List.count_append] at htwo
  exact ⟨List.count_pos_iff.mp (by omega), List.count_pos_iff.mp (by omega)⟩

theorem nul_notMem_typed (line : List Char) : nul ∉ typed line := fun hmem =>
  notMem_terminated nul line 0 ((List.takeWhile_sublist _).subset hmem)

/-- The server gets the message as the client has put it together. -/
theorem cString_tot (sender content : List Char) :
    cString (tot sender content) 0 = tot sender content := by
  apply terminated_of_free
  simp [tot, cString, notMem_terminated]

end Lines

section Parser

theorem writes_of_newline (k : Nat) (hfree : '\n' ∉ text) (rest : List Char) :
    writes k (text ++ '\n' :: rest) = List.range' k (text.length + 1) := by
  induction text generalizing k with
  | nil => simp [writes]
  | cons c text ih =>
      rw [List.mem_cons, not_or] at hfree
      have hc : c ≠ '\n' := Ne.symm hfree.1
      rw [List.cons_append, writes, if_pos hc, ih (k + 1) hfree.2, List.length_cons,
        ← List.range'_succ]

/-- Only the indices of `writes` are assigned. -/
theorem Record.copyLine_isSome_iff (tmp : Record) (o k : Nat) (text : List Char) :
    (tmp.copyLine (o + k) text).isSome ↔ ∀ i ∈ writes k text, o + i < recordSize := by
  induction text generalizing tmp k with
  | nil => simp [copyLine, writes]
  | cons c text ih =>
      by_cases hin : o + k < recordSize
      · by_cases hc : c = '\n'
        · simp [copyLine, writes, put, hin, hc]
        · have hnext := ih ⟨tmp.bytes.set (o + k) c, by simp [tmp.length_bytes]⟩ (k + 1)
          simpa [copyLine, writes, put, hin, hc, Nat.add_assoc] using hnext
      · by_cases hc : c = '\n' <;> simp [copyLine, writes, put, hin, hc]

/-- One round of a loop. -/
theorem Record.copyLine_cons {c : Char} {newline : Option Nat}
    (hcopy : tmp.copyLine o (c :: text) = some (next, newline)) :
    o < recordSize ∧
      ((c = '\n' ∧ next.bytes = tmp.bytes.set o nul ∧ newline = some o) ∨
        c ≠ '\n' ∧ ∃ mid : Record, mid.bytes = tmp.bytes.set o c ∧
          mid.copyLine (o + 1) text = some (next, newline)) := by
  by_cases ho : o < recordSize
  · refine ⟨ho, ?_⟩
    by_cases hc : c = '\n'
    · rw [copyLine, if_neg (not_not.mpr hc), put, if_pos ho] at hcopy
      cases hcopy
      exact .inl ⟨hc, rfl, rfl⟩
    · rw [copyLine, if_pos hc, put, if_pos ho] at hcopy
      exact .inr ⟨hc, _, rfl, hcopy⟩
  · by_cases hc : c = '\n' <;> simp [copyLine, put, ho, hc] at hcopy

/-- A loop stops at the first newline, if there is one. -/
theorem Record.copyLine_cases {newline : Option Nat}
    (hcopy : tmp.copyLine o text = some (next, newline)) :
    ('\n' ∉ text ∧ newline = none) ∨
      ∃ line rest, text = line ++ '\n' :: rest ∧ '\n' ∉ line ∧
        newline = some (o + line.length) := by
  induction text generalizing tmp o with
  | nil =>
      cases hcopy
      exact .inl ⟨List.not_mem_nil, rfl⟩
  | cons c text ih =>
      obtain ⟨-, ⟨rfl, -, hsome⟩ | ⟨hc, mid, -, hrest⟩⟩ := copyLine_cons hcopy
      · exact .inr ⟨[], text, rfl, List.not_mem_nil, hsome⟩
      · rcases ih hrest with ⟨hfree, hnone⟩ | ⟨line, rest, rfl, hfree, hsome⟩
        · exact .inl ⟨by simp [hfree, Ne.symm hc], hnone⟩
        · refine .inr ⟨c :: line, rest, rfl, by simp [hfree, Ne.symm hc], ?_⟩
          rw [hsome, List.length_cons, Nat.add_right_comm, Nat.add_assoc]

/-- A NUL behind a loop stands where the newline was, or it has been there before. -/
theorem Record.copyLine_nul {newline : Option Nat} {i : Nat}
    (hcopy : tmp.copyLine o text = some (next, newline)) (htext : nul ∉ text)
    (hnul : next.bytes[i]? = some nul) : tmp.bytes[i]? = some nul ∨ newline = some i := by
  induction text generalizing tmp o with
  | nil =>
      cases hcopy
      exact .inl hnul
  | cons c text ih =>
      rw [List.mem_cons, not_or] at htext
      obtain ⟨ho, ⟨-, hbytes, hsome⟩ | ⟨-, mid, hbytes, hrest⟩⟩ := copyLine_cons hcopy
      · by_cases hi : o = i
        · exact .inr (hsome.trans (congrArg some hi))
        · rw [hbytes, List.getElem?_set_ne hi] at hnul
          exact .inl hnul
      · refine (ih hrest htext.2).imp_left fun hmid => ?_
        rw [hbytes] at hmid
        by_cases hi : o = i
        · subst hi
          rw [List.getElem?_set_self (tmp.length_bytes ▸ ho)] at hmid
          exact absurd (Option.some.inj hmid).symm htext.1
        · rwa [List.getElem?_set_ne hi] at hmid

/-- Behind the newline of the first loop the second one goes on. -/
theorem secondText_newline (line rest : List Char) :
    secondText line.length (line ++ '\n' :: rest) = rest := by
  have hnonneg : ¬ ((line.length : Int) + 1 < 0) := by omega
  have htoNat : ((line.length : Int) + 1).toNat = line.length + 1 := rfl
  rw [secondText, if_neg hnonneg, htoNat, List.drop_append]
  simp

/-- The texts that the record stores, each with its NUL inside its field. -/
theorem Stores.fields {record : Record} (hstores : Stores record.bytes sender content)
    (hsender : nul ∉ sender) (hcontent : nul ∉ content) :
    (nul ∈ record.bytes.take fromLen ∧ record.fromField = sender) ∧
      nul ∈ record.bytes.drop fromLen ∧ record.contentField = content := by
  have hfrom := hstores.cString_sender hsender []
  have hfield := hstores.cString_content hcontent []
  rw [List.append_nil] at hfrom hfield
  obtain ⟨x, y, hbytes, hlength⟩ := hstores
  have htake : record.bytes.take fromLen = sender ++ nul :: x := by
    rw [hbytes, ← hlength, List.take_left]
  have hdrop : record.bytes.drop fromLen = content ++ nul :: y := by
    rw [hbytes, ← hlength, List.drop_left]
  refine ⟨⟨?_, hfrom⟩, ?_, hfield⟩
  · simp [htake]
  · simp [hdrop]

/-- A message of two lines that fit their fields. -/
theorem parsedInside_of_fits (tmp : Record) (j : Int)
    (hsender : '\n' ∉ sender ∧ nul ∉ sender) (hcontent : '\n' ∉ content ∧ nul ∉ content)
    (hfrom : sender.length < fromLen) (hlength : content.length < contentLen) :
    ParsedInside tmp j (Request.post sender content).bytes sender content := by
  have hbytes : (Request.post sender content).bytes = sender ++ '\n' :: (content ++ ['\n']) := by
    simp [Request.bytes]
  refine ⟨classify_of_newline (by simp [Request.bytes]), ?_, ?_, ?_⟩
  · intro i hi
    rw [hbytes, writes_of_newline 0 hsender.1, List.mem_range'_1] at hi
    omega
  · have hroom : 0 + sender.length < recordSize :=
      (Nat.zero_add _).trans_lt (hfrom.trans (by decide))
    obtain ⟨next, hcopy, -⟩ := tmp.copyLine_line 0 hsender.1 (content ++ ['\n']) hroom
    rw [Nat.zero_add] at hcopy
    refine ⟨next, sender.length, by rw [hbytes, hcopy], fun k hk => ?_⟩
    rw [hbytes, secondText_newline, writes_of_newline 0 hcontent.1, List.mem_range'_1] at hk
    omega
  · obtain ⟨record, hparse, hstores⟩ :=
      parsePost_fits tmp j hsender.1 hcontent.1 hfrom hlength
    have hsenderCut : sender.take (fromLen - 1) = sender :=
      List.take_of_length_le (Nat.le_pred_of_lt hfrom)
    have hcontentCut : content.take (contentLen - 1) = content :=
      List.take_of_length_le (Nat.le_pred_of_lt hlength)
    refine ⟨record, hparse, ?_⟩
    rw [hsenderCut, hcontentCut]
    exact hstores.fields hsender.2 hcontent.2

/-- A record without any NUL, as the parser may find it. -/
def unset : Record := ⟨List.replicate recordSize 'x', List.length_replicate⟩

theorem unset_ne_nul (i : Nat) : unset.bytes[i]? ≠ some nul := by
  intro hnul
  exact absurd (List.eq_of_mem_replicate (List.mem_of_getElem? hnul)) (by decide)

/-- If the parser stays inside the fields and ends both of them, then the message consists of
two lines that fit. -/
theorem ParsedInside.two_lines {buf first second : List Char}
    (hinside : ParsedInside unset j buf first second) (hfree : nul ∉ buf) :
    ∃ line text rest, buf = line ++ '\n' :: (text ++ '\n' :: rest) ∧ '\n' ∉ line ∧
      '\n' ∉ text ∧ line.length < fromLen ∧ text.length < contentLen := by
  obtain ⟨next, i, hcopy, hcontent⟩ := hinside.inContent
  obtain ⟨record, hparse, -, hnul, -⟩ := hinside.stored
  rcases Record.copyLine_cases hcopy with ⟨-, hnone⟩ | ⟨line, behind, rfl, hline, hsome⟩
  · cases hnone
  obtain rfl : i = line.length := by simpa using hsome
  have hfrom : line.length < fromLen := by
    apply hinside.inFrom
    rw [writes_of_newline 0 hline, List.mem_range'_1]
    omega
  rw [secondText_newline] at hcontent
  have hsecond : ∃ newline, next.copyLine fromLen behind = some (record, newline) := by
    rw [parsePost, hcopy, Option.bind_some] at hparse
    obtain ⟨⟨_, newline⟩, hcopy', rfl⟩ := Option.map_eq_some_iff.mp hparse
    have htext := secondText_newline line behind
    rw [secondText] at htext
    exact ⟨newline, htext ▸ hcopy'⟩
  obtain ⟨newline, hcopy'⟩ := hsecond
  have hbehind : nul ∉ behind := fun hmem =>
    hfree (List.mem_append_right _ (List.mem_cons_of_mem _ hmem))
  -- The NUL of Content is neither from `unset` nor from the first loop.
  obtain ⟨k, hk⟩ := List.mem_iff_getElem?.mp hnul
  rw [List.getElem?_drop] at hk
  have hnewline : newline = some (fromLen + k) := by
    rcases Record.copyLine_nul hcopy' hbehind hk with hmid | hsecond
    · rcases Record.copyLine_nul hcopy hfree hmid with hunset | hfirst
      · exact absurd hunset (unset_ne_nul _)
      · have heq := Option.some.inj hfirst
        omega
    · exact hsecond
  rcases Record.copyLine_cases hcopy' with ⟨-, hnone⟩ | ⟨text, rest, rfl, htext, -⟩
  · rw [hnewline] at hnone
    cases hnone
  · refine ⟨line, text, rest, rfl, hline, htext, hfrom, ?_⟩
    apply hcontent
    rw [writes_of_newline 0 htext, List.mem_range'_1]
    omega

end Parser

/-- The parser of a post stays inside the fields, ends both and stores the texts, whatever is in
its uninitialised variables, exactly if both lines have come with their newlines and leave room
for a NUL. -/
theorem parsedInside_iff (htyped : typedPost stdin = some (sender, content)) :
    (∀ tmp j, ParsedInside tmp j (cString (tot sender content) 0) (typed sender) (typed content)) ↔
      InField fromLen sender ∧ InField contentLen content := by
  obtain ⟨hsender, hcontent⟩ := singleLine_typedPost htyped
  rw [cString_tot]
  constructor
  · intro hinside
    have hfree : nul ∉ tot sender content := by
      rw [← cString_tot]
      exact notMem_terminated _ _ _
    obtain ⟨line, text, rest, hlines, hline, htext, hfrom, hlength⟩ :=
      (hinside unset 0).two_lines hfree
    obtain ⟨hfirst, hsecond⟩ := newlines_of_tot hsender hcontent (by simp [hlines]; omega)
    obtain ⟨hsenderFree, hsenderEq⟩ := hsender.eq_typed hfirst
    obtain ⟨hcontentFree, hcontentEq⟩ := hcontent.eq_typed hsecond
    have hsplit : typed sender ++ '\n' :: (typed content ++ ['\n']) =
        line ++ '\n' :: (text ++ '\n' :: rest) := by
      rw [← hlines, tot, hsenderEq, hcontentEq]
      simp
    have hsame : typed sender = line := by
      have htake := congrArg (List.takeWhile (· ≠ '\n')) hsplit
      rwa [takeWhile_append_stop hsenderFree, takeWhile_append_stop hline] at htake
    have hsame' : typed content = text := by
      rw [hsame] at hsplit
      have htake := congrArg (List.takeWhile (· ≠ '\n'))
        (List.cons.inj (List.append_cancel_left hsplit)).2
      rwa [takeWhile_append_stop hcontentFree, takeWhile_append_stop htext] at htake
    exact ⟨⟨hfirst, hsame ▸ hfrom⟩, hsecond, hsame' ▸ hlength⟩
  · rintro ⟨⟨hfirst, hfrom⟩, hsecond, hlength⟩ tmp j
    obtain ⟨hsenderFree, hsenderEq⟩ := hsender.eq_typed hfirst
    obtain ⟨hcontentFree, hcontentEq⟩ := hcontent.eq_typed hsecond
    have hbytes : tot sender content = (Request.post (typed sender) (typed content)).bytes := by
      rw [tot, hsenderEq, hcontentEq]
      simp [Request.bytes]
    rw [hbytes]
    exact parsedInside_of_fits tmp j ⟨hsenderFree, nul_notMem_typed _⟩
      ⟨hcontentFree, nul_notMem_typed _⟩ hfrom hlength

theorem parsedInside_iff_short :
    (∀ tmp j, ParsedInside tmp j (cString (tot ['a', 'b', '\n'] ['c', '\n']) 0)
      (typed ['a', 'b', '\n']) (typed ['c', '\n'])) ↔
      InField fromLen ['a', 'b', '\n'] ∧ InField contentLen ['c', '\n'] :=
  have htyped : typedPost ['a', 'b', '\n', 'c', '\n'] = some (['a', 'b', '\n'], ['c', '\n']) := rfl
  parsedInside_iff htyped

/-- The NUL behind a From of five characters is the first byte of Content. -/
theorem not_parsedInside_five :
    ¬ ∀ stdin sender content, typedPost stdin = some (sender, content) →
      (tot sender content).length < bufferSize → ∀ tmp j,
      ParsedInside tmp j (cString (tot sender content) 0) (typed sender) (typed content) := by
  intro hinside
  have hfive := hinside ['a', 'b', 'c', 'd', 'e', '\n', 'f', '\n']
    ['a', 'b', 'c', 'd', 'e', '\n'] ['f', '\n'] (by decide) (by decide) unset 0
  exact absurd (hfive.inFrom 5 (by decide)) (by decide)

end Board

end SystemsProgramming
