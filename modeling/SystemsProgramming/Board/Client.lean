/-
How the client takes its commands from the script that is typed in.  `fgets` stores nothing at
the end of the input, and a buffer then keeps the line that is in it.
-/
import SystemsProgramming.LoopLog
import SystemsProgramming.Board.Fields

namespace SystemsProgramming

namespace Board

open LoopLog

/-- The three lines that `ipt` is compared with. -/
inductive Command where
  | pull
  | post
  | exit
deriving Repr, DecidableEq

def command (ipt : List Char) : Option Command :=
  if cString ipt 0 = ['p', 'u', 'l', 'l', '\n'] then some .pull
  else if cString ipt 0 = ['p', 'o', 's', 't', '\n'] then some .post
  else if cString ipt 0 = ['e', 'x', 'i', 't', '\n'] then some .exit
  else none

/-- What the client has written, and how many characters of the script were left then: two
requests with the same bytes belong to different lines.  `none` is a request behind the end of
the input. -/
structure Sent where
  unread : Option Nat
  bytes : List Char
deriving Repr, DecidableEq

/-- The client at the top of its loop: what is left of the script, or `none` where the end of
the input has been met, the buffers, the number of checks that have been answered, and what has
been written behind the first pull. -/
structure Client where
  stdin : Option (List Char)
  ipt : List Char
  sender : List Char
  content : List Char
  answered : Nat
  sent : List Sent
  left : Bool
deriving Repr, DecidableEq

/-- `fgets(buffer, sizeof(buffer), stdin)`: what the buffer holds and what is left. -/
def fgetsInto (old : List Char) (stdin : Option (List Char)) : List Char × Option (List Char) :=
  match stdin.bind (fgets bufferSize) with
  | some (line, rest) => (line, some rest)
  | none => (old, none)

namespace Client

/-- A request with what is unread of the script. -/
def sending (stdin : Option (List Char)) (bytes : List Char) : Sent :=
  ⟨stdin.map List.length, bytes⟩

/-- One round of the loop, where `answers k` is what the client reads for its check number `k`.
Only `exit` leaves it, and `none` is a `tot` that runs over. -/
def next (answers : Nat → List Char) (s : Client) : Option Client :=
  if s.left then some s
  else
    let (ipt, stdin) := fgetsInto s.ipt s.stdin
    match command ipt with
    | some .pull =>
        some { s with stdin := stdin, ipt := ipt
                      sent := s.sent ++ [sending stdin Request.pull.bytes] }
    | some .post =>
        let check := sending stdin Request.check.bytes
        if cString (answers s.answered) 0 = ['n', 'o'] then
          let (sender, stdin) := fgetsInto s.sender stdin
          let (content, stdin) := fgetsInto s.content stdin
          if (tot sender content).length < bufferSize then
            some { s with
              stdin := stdin, ipt := ipt, sender := sender, content := content
              answered := s.answered + 1
              sent := s.sent ++ [check, sending stdin (tot sender content)] }
          else none
        else
          some { s with stdin := stdin, ipt := ipt, answered := s.answered + 1
                        sent := s.sent ++ [check] }
    | some .exit =>
        some { s with stdin := stdin, ipt := ipt, left := true
                      sent := s.sent ++ [sending stdin Request.exit.bytes] }
    | none => some { s with stdin := stdin, ipt := ipt }

end Client

/-- The lines of a script, each with the newline that ends it; the last one may have none. -/
def lines : List Char → List (List Char)
  | [] => []
  | c :: stdin =>
      if c = '\n' then [c] :: lines stdin
      else
        match lines stdin with
        | [] => [[c]]
        | line :: rest => (c :: line) :: rest

/-- What the complete commands of a script ask for, up to the `exit` that ends it.  A post that
is answered "no" is complete with the newline of its content. -/
def requests (answers : Nat → List Char) : Nat → List (List Char) → List Sent
  | _, [] => []
  | k, line :: rest =>
      let unread := some rest.flatten.length
      match command line, rest with
      | some .pull, rest => ⟨unread, Request.pull.bytes⟩ :: requests answers k rest
      | some .post, rest =>
          ⟨unread, Request.check.bytes⟩ ::
            if cString (answers k) 0 = ['n', 'o'] then
              match rest with
              | sender :: content :: rest =>
                  if '\n' ∈ content then
                    ⟨some rest.flatten.length, sender ++ content⟩ ::
                      requests answers (k + 1) rest
                  else []
              | _ => []
            else requests answers (k + 1) rest
      | some .exit, _ => [⟨unread, Request.exit.bytes⟩]
      | none, rest => requests answers k rest

/-- The two lines of a post are complete, and `tot` holds them as they are. -/
def fitsTot (sender content : List Char) : Bool :=
  '\n' ∈ content && nul ∉ sender ++ content && (sender ++ content).length < bufferSize

/-- What the last call of `fgets` returns for a line. -/
def lastPiece (line : List Char) : List Char :=
  line.drop ((bufferSize - 1) * ((line.length - 1) / (bufferSize - 1)))

/-- Whether a script comes to `exit`, or ends behind a line in the place of a command that is
none, with whole posts, and with no line in the place of a command that is too long for the
buffer and has a command as its last piece.  `last` is what the last line there was. -/
def settles (answers : Nat → List Char) : Nat → Option Command → List (List Char) → Bool
  | _, last, [] => last.isNone
  | k, _, line :: rest =>
      match command line, rest with
      | some .pull, rest => settles answers k (some .pull) rest
      | some .post, rest =>
          if cString (answers k) 0 = ['n', 'o'] then
            match rest with
            | sender :: content :: rest =>
                fitsTot sender content && settles answers (k + 1) (some .post) rest
            | _ => false
          else settles answers (k + 1) (some .post) rest
      | some .exit, _ => true
      | none, rest => (command (lastPiece line)).isNone && settles answers k none rest

namespace Client

/-- Each complete command of the script is sent once and in order, and nothing else is, in
particular nothing behind the end of the input. -/
def SendsOnce (answers : Nat → List Char) (s : Client) : Prop :=
  Logs (next answers) sent s
    (s.sent ++ requests answers s.answered (lines (s.stdin.getD [])))

end Client

variable {stdin line behind text rest sender content : List Char} {n : Nat}

section Lines

/-- The first line of a script. -/
structure FirstLine (line behind : List Char) : Prop where
  ne_nil : line ≠ []
  single : SingleLine line
  last : '\n' ∉ line → behind = []

theorem singleLine_of_free (hfree : '\n' ∉ text) : SingleLine (text ++ ['\n']) := by
  intro other rest heq
  rcases List.eq_nil_or_concat rest with hnil | ⟨rest, c, rfl⟩
  · exact hnil
  · rw [List.concat_eq_append, ← List.cons_append, ← List.append_assoc] at heq
    obtain rfl := (List.append_inj' heq rfl).1
    simp at hfree

theorem exists_firstLine (hne : stdin ≠ []) :
    ∃ line behind, stdin = line ++ behind ∧ FirstLine line behind := by
  by_cases hmem : '\n' ∈ stdin
  · obtain ⟨text, behind, rfl, hfree⟩ := List.eq_append_cons_of_mem hmem
    exact ⟨text ++ ['\n'], behind, by simp, by simp, singleLine_of_free hfree, by simp⟩
  · refine ⟨stdin, [], by simp, hne, ?_, fun _ => rfl⟩
    rintro text rest rfl
    simp at hmem

theorem FirstLine.tail {c : Char} (hfirst : FirstLine (c :: line) behind) (hne : line ≠ []) :
    c ≠ '\n' ∧ FirstLine line behind := by
  have hc : c ≠ '\n' := by
    rintro rfl
    exact hne (hfirst.single [] line rfl)
  refine ⟨hc, hne, ?_, fun hfree => ?_⟩
  · rintro text rest rfl
    exact hfirst.single (c :: text) rest rfl
  · exact hfirst.last (by simp [hfree, Ne.symm hc])

theorem lines_firstLine (hfirst : FirstLine line behind) :
    lines (line ++ behind) = line :: lines behind := by
  induction line with
  | nil => exact absurd rfl hfirst.ne_nil
  | cons c line ih =>
      by_cases hend : line = []
      · subst hend
        by_cases hc : c = '\n'
        · simp [lines, hc]
        · obtain rfl := hfirst.last (by simp [Ne.symm hc])
          simp [lines, hc]
      · obtain ⟨hc, hrest⟩ := hfirst.tail hend
        rw [List.cons_append, lines, if_neg hc, ih hrest]

theorem firstLine_of_lines {script : List (List Char)} (hlines : lines stdin = line :: script) :
    ∃ behind, stdin = line ++ behind ∧ FirstLine line behind ∧ script = lines behind := by
  have hne : stdin ≠ [] := by
    rintro rfl
    cases hlines
  obtain ⟨first, behind, rfl, hfirst⟩ := exists_firstLine hne
  rw [lines_firstLine hfirst] at hlines
  obtain ⟨rfl, rfl⟩ := List.cons.inj hlines
  exact ⟨behind, rfl, hfirst, rfl⟩

theorem flatten_lines (stdin : List Char) : (lines stdin).flatten = stdin := by
  induction stdin with
  | nil => rfl
  | cons c stdin ih =>
      by_cases hc : c = '\n'
      · simp [lines, hc, ih]
      · rw [lines, if_neg hc]
        cases hlines : lines stdin with
        | nil =>
            rw [hlines] at ih
            simp [← ih]
        | cons line rest =>
            rw [hlines] at ih
            simp [← ih]

theorem nil_notMem_lines (stdin : List Char) : [] ∉ lines stdin := by
  induction stdin with
  | nil => simp [lines]
  | cons c stdin ih =>
      by_cases hc : c = '\n'
      · simp [lines, hc, ih]
      · rw [lines, if_neg hc]
        cases hlines : lines stdin with
        | nil => simp
        | cons line rest =>
            rw [hlines] at ih
            simp_all

/-- What is left of a line of which the buffer takes `n` characters is still the first line. -/
theorem FirstLine.drop (hfirst : FirstLine line behind) (hlong : n < line.length) :
    FirstLine (line.drop n) behind := by
  refine ⟨?_, ?_, ?_⟩
  · simpa using hlong
  · intro text rest heq
    apply hfirst.single (line.take n ++ text) rest
    rw [List.append_assoc, ← heq, List.take_append_drop]
  · intro hfree
    apply hfirst.last
    intro hmem
    obtain ⟨text, rest, rfl, -⟩ := List.eq_append_cons_of_mem hmem
    obtain rfl := hfirst.single text rest rfl
    apply hfree
    rw [List.drop_append_of_le_length (by simp at hlong; omega)]
    simp

theorem FirstLine.notMem_take (hfirst : FirstLine line behind) (hlong : n < line.length) :
    '\n' ∉ line.take n := by
  intro hmem
  obtain ⟨text, rest, heq, -⟩ := List.eq_append_cons_of_mem hmem
  have hline : line = text ++ '\n' :: (rest ++ line.drop n) := by
    rw [← List.cons_append, ← List.append_assoc, ← heq, List.take_append_drop]
  have hnil := hfirst.single _ _ hline
  have hrest := (List.append_eq_nil_iff.mp hnil).2
  simp at hrest
  omega

theorem getLine_firstLine (hfirst : FirstLine line behind) (n : Nat) :
    getLine n (line ++ behind) = (line.take n, line.drop n ++ behind) := by
  induction n generalizing line with
  | zero => simp [getLine]
  | succ n ih =>
      cases line with
      | nil => exact absurd rfl hfirst.ne_nil
      | cons c line =>
          by_cases hend : line = []
          · subst hend
            by_cases hc : c = '\n'
            · simp [getLine, hc]
            · obtain rfl := hfirst.last (by simp [Ne.symm hc])
              cases n <;> simp [getLine, hc]
          · obtain ⟨hc, hrest⟩ := hfirst.tail hend
            simp [getLine, hc, ih hrest]

end Lines

section Pieces

theorem command_of_free (hfree : '\n' ∉ text) : command text = none := by
  have hcut : '\n' ∉ cString text 0 := fun hmem =>
    hfree ((List.takeWhile_sublist _).subset hmem)
  unfold command
  split_ifs with hpull hpost hexit
  · simp [hpull] at hcut
  · simp [hpost] at hcut
  · simp [hexit] at hcut
  · rfl

/-- A line with a command is nothing but the command. -/
theorem length_of_command (hsingle : SingleLine line) (hcommand : command line ≠ none) :
    line.length = 5 := by
  have hword : ∃ word : List Char, word.length = 4 ∧ cString line 0 = word ++ ['\n'] := by
    unfold command at hcommand
    split_ifs at hcommand with hpull hpost hexit
    · exact ⟨['p', 'u', 'l', 'l'], rfl, hpull⟩
    · exact ⟨['p', 'o', 's', 't'], rfl, hpost⟩
    · exact ⟨['e', 'x', 'i', 't'], rfl, hexit⟩
    · exact absurd rfl hcommand
  obtain ⟨word, hlength, hcut⟩ := hword
  have hsplit := List.takeWhile_append_dropWhile (p := (· ≠ nul)) (l := line)
  have hwhole : line = word ++ '\n' :: line.dropWhile (· ≠ nul) := by
    have htake : line.takeWhile (· ≠ nul) = word ++ ['\n'] := hcut
    rw [htake, List.append_assoc] at hsplit
    exact hsplit.symm
  rw [hsingle _ _ hwhole] at hwhole
  rw [hwhole, List.length_append, hlength]
  rfl

theorem lastPiece_short (hshort : line.length < bufferSize) : lastPiece line = line := by
  have hzero : (line.length - 1) / (bufferSize - 1) = 0 := by
    rw [Nat.div_eq_zero_iff]
    omega
  rw [lastPiece, hzero, Nat.mul_zero, List.drop_zero]

theorem lastPiece_long (hlong : bufferSize ≤ line.length) :
    lastPiece line = lastPiece (line.drop (bufferSize - 1)) := by
  have hmore : (line.length - 1) / (bufferSize - 1) =
      (line.length - (bufferSize - 1) - 1) / (bufferSize - 1) + 1 := by
    rw [← Nat.add_div_right _ (by decide)]
    congr 1
    unfold bufferSize at hlong ⊢
    omega
  rw [lastPiece, lastPiece, List.drop_drop, List.length_drop, hmore, Nat.mul_succ, Nat.add_comm]

theorem length_drop_piece (hlong : bufferSize ≤ line.length) :
    bufferSize - 1 < line.length ∧ (line.drop (bufferSize - 1)).length < line.length := by
  rw [List.length_drop]
  unfold bufferSize at hlong ⊢
  omega

theorem FirstLine.lastPiece (hfirst : FirstLine line behind) :
    FirstLine (lastPiece line) behind ∧ (Board.lastPiece line).length < bufferSize := by
  induction hlength : line.length using Nat.strongRecOn generalizing line with
  | ind n ih =>
      by_cases hshort : line.length < bufferSize
      · rw [lastPiece_short hshort]
        exact ⟨hfirst, hshort⟩
      · rw [lastPiece_long (not_lt.mp hshort)]
        obtain ⟨hlong, hless⟩ := length_drop_piece (not_lt.mp hshort)
        exact ih _ (hlength ▸ hless) (hfirst.drop hlong) rfl

theorem fgetsInto_firstLine (hfirst : FirstLine line behind) (old : List Char) :
    fgetsInto old (some (line ++ behind)) =
      (line.take (bufferSize - 1), some (line.drop (bufferSize - 1) ++ behind)) := by
  have htake : line.take (bufferSize - 1) ≠ [] := by
    simp [bufferSize, hfirst.ne_nil]
  rw [fgetsInto, Option.bind_some, fgets, getLine_firstLine hfirst]
  simp only [if_neg htake]

theorem fgetsInto_short (hfirst : FirstLine line behind) (hshort : line.length < bufferSize)
    (old : List Char) : fgetsInto old (some (line ++ behind)) = (line, some behind) := by
  have hle : line.length ≤ bufferSize - 1 := Nat.le_pred_of_lt hshort
  rw [fgetsInto_firstLine hfirst, List.take_of_length_le hle, List.drop_of_length_le hle,
    List.nil_append]

theorem fgetsInto_end (old : List Char) {stdin : Option (List Char)}
    (hend : stdin.getD [] = []) : fgetsInto old stdin = (old, none) := by
  cases stdin with
  | none => rfl
  | some stdin =>
      obtain rfl : stdin = [] := hend
      rfl

end Pieces

/-- Fewer than `n` characters were left then. -/
def Sent.UnreadLt (n : Nat) (sent : Sent) : Prop := ∃ m, sent.unread = some m ∧ m < n

theorem Sent.UnreadLt.mono {m : Nat} {sent : Sent} (hunread : sent.UnreadLt m) (hle : m ≤ n) :
    sent.UnreadLt n := by
  obtain ⟨unread, heq, hlt⟩ := hunread
  exact ⟨unread, heq, hlt.trans_le hle⟩

theorem length_flatten_lt {script : List (List Char)} (hlines : [] ∉ line :: script) :
    script.flatten.length < (line :: script).flatten.length := by
  rw [List.mem_cons, not_or] at hlines
  have hpos := List.length_pos_iff.mpr (Ne.symm hlines.1)
  simp only [List.flatten_cons, List.length_append]
  omega

/-- Each request belongs to a line, and less than the line and what is behind it is left. -/
theorem unreadLt_requests {answers : Nat → List Char} {k : Nat} {script : List (List Char)}
    (hlines : [] ∉ script) :
    ∀ sent ∈ requests answers k script, sent.UnreadLt script.flatten.length := by
  fun_induction requests answers k script with
  | case1 => simp
  | case2 k line rest hcommand unread ih =>
      intro sent hmem
      rcases List.mem_cons.mp hmem with rfl | hrest
      · exact ⟨_, rfl, length_flatten_lt hlines⟩
      · exact (ih (by simp_all) sent hrest).mono (length_flatten_lt hlines).le
  | case3 k line rest hcommand unread ihPost ihRefused =>
      intro sent hmem
      rcases List.mem_cons.mp hmem with rfl | hrest
      · exact ⟨_, rfl, length_flatten_lt hlines⟩
      · split at hrest
        · rcases rest with _ | ⟨sender, _ | ⟨content, rest⟩⟩
          · cases hrest
          · cases hrest
          · have hle : rest.flatten.length ≤ (sender :: content :: rest).flatten.length := by
              simp only [List.flatten_cons, List.length_append]
              omega
            have hshorter := hle.trans_lt (length_flatten_lt hlines)
            simp only at hrest
            split at hrest
            · rcases List.mem_cons.mp hrest with rfl | hlater
              · exact ⟨_, rfl, hshorter⟩
              · exact (ihPost (by simp_all) sent hlater).mono hshorter.le
            · cases hrest
        · exact (ihRefused (by simp_all) sent hrest).mono (length_flatten_lt hlines).le
  | case4 k line rest unread hcommand =>
      intro sent hmem
      obtain rfl := List.mem_singleton.mp hmem
      exact ⟨_, rfl, length_flatten_lt hlines⟩
  | case5 k line rest hcommand ih =>
      intro sent hmem
      exact (ih (by simp_all) sent hmem).mono (length_flatten_lt hlines).le

section Post

variable {answers : Nat → List Char} {k : Nat} {last : Option Command}
  {script : List (List Char)}

theorem requests_refused (hcommand : command line = some .post)
    (hanswer : cString (answers k) 0 ≠ ['n', 'o']) :
    requests answers k (line :: script) =
      ⟨some script.flatten.length, Request.check.bytes⟩ :: requests answers (k + 1) script := by
  rw [requests.eq_def]
  simp only [hcommand, if_neg hanswer]

theorem settles_refused (hcommand : command line = some .post)
    (hanswer : cString (answers k) 0 ≠ ['n', 'o']) :
    settles answers k last (line :: script) = settles answers (k + 1) (some .post) script := by
  rw [settles.eq_def]
  simp only [hcommand, if_neg hanswer]

/-- What is expected behind the check of a post that is not refused. -/
theorem requests_post (script : List (List Char)) (hcommand : command line = some .post)
    (hanswer : cString (answers k) 0 = ['n', 'o']) :
    ∃ more, requests answers k (line :: script) =
        ⟨some script.flatten.length, Request.check.bytes⟩ :: more ∧
      ∀ sent ∈ more.head?, ∃ sender content rest, script = sender :: content :: rest ∧
        '\n' ∈ content ∧ sent.bytes = sender ++ content := by
  rw [requests.eq_def]
  simp only [hcommand, if_pos hanswer]
  refine ⟨_, rfl, ?_⟩
  intro sent hsent
  match script with
  | [] | [_] => cases hsent
  | sender :: content :: rest =>
      by_cases hnewline : '\n' ∈ content
      · simp only [if_pos hnewline] at hsent
        obtain rfl := Option.some.inj hsent
        exact ⟨sender, content, rest, rfl, hnewline, rfl⟩
      · simp only [if_neg hnewline] at hsent
        cases hsent

theorem requests_whole {rest : List (List Char)} (hcommand : command line = some .post)
    (hanswer : cString (answers k) 0 = ['n', 'o']) (hnewline : '\n' ∈ content) :
    requests answers k (line :: sender :: content :: rest) =
      [⟨some (sender :: content :: rest).flatten.length, Request.check.bytes⟩,
        ⟨some rest.flatten.length, sender ++ content⟩] ++ requests answers (k + 1) rest := by
  rw [requests.eq_def]
  simp only [hcommand, if_pos hanswer, if_pos hnewline]
  rfl

theorem settles_whole {rest : List (List Char)} (hcommand : command line = some .post)
    (hanswer : cString (answers k) 0 = ['n', 'o']) (hfits : fitsTot sender content = true) :
    settles answers k last (line :: sender :: content :: rest) =
      settles answers (k + 1) (some .post) rest := by
  rw [settles.eq_def]
  simp only [hcommand, if_pos hanswer, hfits, Bool.true_and]

/-- A script settles with whole posts only. -/
theorem whole_of_settles (hcommand : command line = some .post)
    (hanswer : cString (answers k) 0 = ['n', 'o'])
    (hsettles : settles answers k last (line :: script) = true) :
    ∃ sender content rest, script = sender :: content :: rest ∧ fitsTot sender content = true := by
  rw [settles.eq_def] at hsettles
  simp only [hcommand, if_pos hanswer] at hsettles
  match script with
  | [] | [_] => cases hsettles
  | sender :: content :: rest =>
      exact ⟨sender, content, rest, rfl, (Bool.and_eq_true_iff.mp hsettles).1⟩

end Post

theorem fitsTot_iff : fitsTot sender content = true ↔
    '\n' ∈ content ∧ nul ∉ sender ++ content ∧ (sender ++ content).length < bufferSize := by
  simp [fitsTot, and_assoc]

/-- `strcpy` and `strcat` leave the lines as they are. -/
theorem tot_of_fitsTot (hfits : fitsTot sender content = true) :
    tot sender content = sender ++ content := by
  obtain ⟨-, hfree, -⟩ := fitsTot_iff.mp hfits
  rw [List.mem_append, not_or] at hfree
  rw [tot, cString, cString, FlatBytes.terminated_of_free hfree.1,
    FlatBytes.terminated_of_free hfree.2]

namespace Client

variable {answers : Nat → List Char} {s t : Client} {ipt : List Char} {expected : List Sent}
  {script : Option (List Char)}

section Rounds

variable (hstays : s.left = false) (hread : fgetsInto s.ipt s.stdin = (ipt, script))

include hstays hread

theorem next_none (answers : Nat → List Char) (hcommand : command ipt = none) :
    next answers s = some { s with stdin := script, ipt := ipt } := by
  simp [next, hstays, hread, hcommand]

theorem next_pull (answers : Nat → List Char) (hcommand : command ipt = some .pull) :
    next answers s = some { s with stdin := script, ipt := ipt
                                   sent := s.sent ++ [sending script Request.pull.bytes] } := by
  simp [next, hstays, hread, hcommand]

theorem next_exit (answers : Nat → List Char) (hcommand : command ipt = some .exit) :
    next answers s = some { s with stdin := script, ipt := ipt, left := true
                                   sent := s.sent ++ [sending script Request.exit.bytes] } := by
  simp [next, hstays, hread, hcommand]

theorem next_refused (hcommand : command ipt = some .post)
    (hanswer : cString (answers s.answered) 0 ≠ ['n', 'o']) :
    next answers s = some { s with stdin := script, ipt := ipt, answered := s.answered + 1
                                   sent := s.sent ++ [sending script Request.check.bytes] } := by
  simp [next, hstays, hread, hcommand, hanswer]

/-- A post that is not refused sends a text without a NUL that fits the buffer. -/
theorem next_post (hcommand : command ipt = some .post)
    (hanswer : cString (answers s.answered) 0 = ['n', 'o']) (hnext : next answers s = some t) :
    ∃ unread text, nul ∉ text ∧ text.length < bufferSize ∧
      t.sent = s.sent ++ [sending script Request.check.bytes, ⟨unread, text⟩] := by
  simp only [next, hstays, hread, hcommand, if_pos hanswer] at hnext
  rw [if_neg (by simp)] at hnext
  split at hnext
  case isFalse => cases hnext
  case isTrue hfits =>
    obtain rfl := Option.some.inj hnext
    refine ⟨_, _, ?_, hfits, rfl⟩
    simp [tot, cString, FlatBytes.notMem_terminated]

/-- A command is followed by a request. -/
theorem sent_of_command (hcommand : command ipt ≠ none) (hnext : next answers s = some t) :
    ∃ bytes more, t.sent = s.sent ++ sending script bytes :: more := by
  cases hwhich : command ipt with
  | none => exact absurd hwhich hcommand
  | some which =>
      cases which with
      | pull =>
          obtain rfl := Option.some.inj ((next_pull hstays hread answers hwhich).symm.trans hnext)
          exact ⟨_, [], rfl⟩
      | exit =>
          obtain rfl := Option.some.inj ((next_exit hstays hread answers hwhich).symm.trans hnext)
          exact ⟨_, [], rfl⟩
      | post =>
          by_cases hanswer : cString (answers s.answered) 0 = ['n', 'o']
          · obtain ⟨unread, text, -, -, hsent⟩ := next_post hstays hread hwhich hanswer hnext
            exact ⟨_, _, hsent⟩
          · obtain rfl :=
              Option.some.inj ((next_refused hstays hread hwhich hanswer).symm.trans hnext)
            exact ⟨_, [], rfl⟩

end Rounds

/-- A line that is too long for the buffer is read in pieces, of which the last one counts. -/
theorem logs_lastPiece (answers : Nat → List Char) (hfirst : FirstLine line behind)
    (hstays : s.left = false) (hstdin : s.stdin = some (line ++ behind)) :
    ∃ ipt, ∀ expected, Logs (next answers) sent s expected ↔
      Logs (next answers) sent
        { s with stdin := some (lastPiece line ++ behind), ipt := ipt } expected := by
  induction hlength : line.length using Nat.strongRecOn generalizing s line with
  | ind n ih =>
      by_cases hshort : line.length < bufferSize
      · refine ⟨s.ipt, fun expected => ?_⟩
        rw [lastPiece_short hshort, ← hstdin]
      · obtain ⟨hlong, hless⟩ := length_drop_piece (not_lt.mp hshort)
        have hread : fgetsInto s.ipt s.stdin =
            (line.take (bufferSize - 1), some (line.drop (bufferSize - 1) ++ behind)) := by
          rw [hstdin, fgetsInto_firstLine hfirst]
        have hnext := next_none hstays hread answers
          (command_of_free (hfirst.notMem_take hlong))
        obtain ⟨ipt, hlogs⟩ := ih _ (hlength ▸ hless) (hfirst.drop hlong) (s := { s with
          stdin := some (line.drop (bufferSize - 1) ++ behind)
          ipt := line.take (bufferSize - 1) }) hstays rfl rfl
        refine ⟨ipt, fun expected => ?_⟩
        rw [logs_next hnext (List.prefix_refl _), hlogs, lastPiece_long (not_lt.mp hshort)]

/-- At the end of the input the last line decides: a command that is still there is executed
again. -/
theorem sendsOnce_end (hstays : s.left = false) (hend : s.stdin.getD [] = []) :
    s.SendsOnce answers ↔ (command s.ipt).isNone = true := by
  have hread := fgetsInto_end s.ipt hend
  have hnothing : requests answers s.answered (lines (s.stdin.getD [])) = [] := by
    rw [hend]
    rfl
  rw [SendsOnce, hnothing, List.append_nil]
  cases hcommand : command s.ipt with
  | none =>
      have hnext := next_none hstays hread answers hcommand
      have hfixed : next answers { s with stdin := none, ipt := s.ipt } =
          some { s with stdin := none, ipt := s.ipt } :=
        next_none (s := { s with stdin := none, ipt := s.ipt }) hstays (fgetsInto_end s.ipt rfl)
          answers hcommand
      rw [logs_next hnext (List.prefix_refl _), logs_fixed hfixed]
      simp
  | some which =>
      refine iff_of_false (not_logs fun t hnext hle => ?_) (by simp)
      obtain ⟨bytes, more, hsent⟩ := sent_of_command hstays hread (by simp [hcommand]) hnext
      have hlength := hle.length_le
      rw [hsent, List.length_append, List.length_cons] at hlength
      omega

/-- A round that sends `done`, and goes on with what is left of the script. -/
structure Goes (answers : Nat → List Char) (done : List Sent) (s t : Client) : Prop where
  logs : ∀ expected, Logs (next answers) sent s expected ↔ Logs (next answers) sent t expected
  sent : t.sent = s.sent ++ done
  requests : Board.requests answers s.answered (lines (s.stdin.getD [])) =
    done ++ Board.requests answers t.answered (lines (t.stdin.getD []))
  stays : t.left = false
  shorter : (t.stdin.getD []).length < (s.stdin.getD []).length
  settles : Board.settles answers s.answered (command s.ipt) (lines (s.stdin.getD [])) =
    Board.settles answers t.answered (command t.ipt) (lines (t.stdin.getD []))

theorem Goes.sendsOnce {done : List Sent} (hgoes : Goes answers done s t) :
    s.SendsOnce answers ↔ t.SendsOnce answers := by
  rw [SendsOnce, SendsOnce, hgoes.logs, hgoes.requests, hgoes.sent, List.append_assoc]

theorem shorter_behind (hfirst : FirstLine line behind) (hstdin : s.stdin = some (line ++ behind)) :
    behind.length < (s.stdin.getD []).length := by
  have hpos := List.length_pos_iff.mpr hfirst.ne_nil
  rw [hstdin, Option.getD_some, List.length_append]
  omega

theorem read_command (hfirst : FirstLine line behind) (hstdin : s.stdin = some (line ++ behind))
    (hcommand : command line ≠ none) : fgetsInto s.ipt s.stdin = (line, some behind) := by
  have hlength := length_of_command hfirst.single hcommand
  rw [hstdin]
  exact fgetsInto_short hfirst (by rw [hlength]; decide) s.ipt

section FirstLine

variable (hfirst : FirstLine line behind) (hstays : s.left = false)
  (hstdin : s.stdin = some (line ++ behind))

include hfirst hstays hstdin

theorem goes_none (hcommand : command line = none) (hpiece : command (lastPiece line) = none) :
    ∃ done t, Goes answers done s t := by
  obtain ⟨ipt, hlogs⟩ := logs_lastPiece answers hfirst hstays hstdin
  obtain ⟨hlast, hshort⟩ := hfirst.lastPiece
  have hnext := next_none (s := { s with stdin := some (lastPiece line ++ behind), ipt := ipt })
    hstays (fgetsInto_short hlast hshort ipt) answers hpiece
  refine ⟨[], { s with stdin := some behind, ipt := lastPiece line }, ?_, ?_, ?_, hstays, ?_, ?_⟩
  · intro expected
    rw [hlogs, logs_next hnext (List.prefix_refl _)]
  · simp
  · simp [hstdin, lines_firstLine hfirst, Board.requests, hcommand]
  · exact shorter_behind hfirst hstdin
  · simp [hstdin, lines_firstLine hfirst, Board.settles, hcommand, hpiece]

/-- A command that is the last piece of a longer line is one too many. -/
theorem not_sendsOnce_piece (hcommand : command line = none)
    (hpiece : command (lastPiece line) ≠ none) : ¬ s.SendsOnce answers := by
  obtain ⟨ipt, hlogs⟩ := logs_lastPiece answers hfirst hstays hstdin
  obtain ⟨hlast, hshort⟩ := hfirst.lastPiece
  rw [SendsOnce, hlogs]
  refine not_logs fun t hnext hle => ?_
  obtain ⟨bytes, more, hsent⟩ := sent_of_command
    (s := { s with stdin := some (lastPiece line ++ behind), ipt := ipt })
    hstays (fgetsInto_short hlast hshort ipt) hpiece hnext
  have hrequests : requests answers s.answered (lines (s.stdin.getD [])) =
      requests answers s.answered (lines behind) := by
    simp [hstdin, lines_firstLine hfirst, requests, hcommand]
  rw [hsent, List.prefix_append_right_inj, hrequests] at hle
  have hmem : sending (some behind) bytes ∈ requests answers s.answered (lines behind) :=
    hle.subset (List.mem_cons_self)
  obtain ⟨n, hunread, hlt⟩ := unreadLt_requests (nil_notMem_lines behind) _ hmem
  rw [flatten_lines] at hlt
  obtain rfl : behind.length = n := Option.some.inj hunread
  exact lt_irrefl _ hlt

theorem goes_pull (hcommand : command line = some .pull) : ∃ done t, Goes answers done s t := by
  have hread := read_command hfirst hstdin (by simp [hcommand])
  have hnext := next_pull hstays hread answers hcommand
  refine ⟨_, _, fun _ => logs_next hnext (List.prefix_append _ _), rfl, ?_, hstays,
    shorter_behind hfirst hstdin, ?_⟩
  · simp [hstdin, lines_firstLine hfirst, Board.requests, hcommand, sending, flatten_lines]
  · simp [hstdin, lines_firstLine hfirst, Board.settles, hcommand]

theorem goes_refused (hcommand : command line = some .post)
    (hanswer : cString (answers s.answered) 0 ≠ ['n', 'o']) :
    ∃ done t, Goes answers done s t := by
  have hread := read_command hfirst hstdin (by simp [hcommand])
  have hnext := next_refused hstays hread hcommand hanswer
  refine ⟨_, _, fun _ => logs_next hnext (List.prefix_append _ _), rfl, ?_, hstays,
    shorter_behind hfirst hstdin, ?_⟩
  · simp [hstdin, lines_firstLine hfirst, requests_refused hcommand hanswer, sending,
      flatten_lines]
  · simp [hstdin, lines_firstLine hfirst, settles_refused hcommand hanswer, hcommand]

/-- With `exit` the loop ends. -/
theorem sendsOnce_exit (hcommand : command line = some .exit) : s.SendsOnce answers := by
  have hread := read_command hfirst hstdin (by simp [hcommand])
  have hnext := next_exit hstays hread answers hcommand
  rw [SendsOnce, logs_next hnext (List.prefix_append _ _), logs_fixed (by simp [next])]
  simp [hstdin, lines_firstLine hfirst, requests, hcommand, sending, flatten_lines]

theorem goes_post (hcommand : command line = some .post)
    (hanswer : cString (answers s.answered) 0 = ['n', 'o']) {script : List (List Char)}
    (hlines : lines behind = sender :: content :: script) (hfits : fitsTot sender content = true) :
    ∃ done t, Goes answers done s t := by
  obtain ⟨later, rfl, hsender, hscript⟩ := firstLine_of_lines hlines
  obtain ⟨rest, rfl, hcontent, rfl⟩ := firstLine_of_lines hscript.symm
  obtain ⟨hnewline, -, hlength⟩ := fitsTot_iff.mp hfits
  have htot := tot_of_fitsTot hfits
  have hread := read_command hfirst hstdin (by simp [hcommand])
  rw [List.length_append] at hlength
  have hfrom := fgetsInto_short hsender (by omega) s.sender
  have htext := fgetsInto_short hcontent (by omega) s.content
  refine ⟨_, { s with
    stdin := some rest, ipt := line, sender := sender, content := content
    answered := s.answered + 1
    sent := s.sent ++ [sending (some (sender ++ (content ++ rest))) Request.check.bytes,
      sending (some rest) (tot sender content)] }, fun _ => logs_next ?_ (List.prefix_append _ _),
    rfl, ?_, hstays, ?_, ?_⟩
  · simp [next, hstays, hread, hcommand, hanswer, hfrom, htext, htot, hlength]
  · simp [hstdin, lines_firstLine hfirst, hlines, requests_whole hcommand hanswer hnewline, sending,
      flatten_lines, htot]
  · have hless := shorter_behind hfirst hstdin
    simp only [List.length_append] at hless
    simp only [Option.getD_some]
    omega
  · simp [hstdin, lines_firstLine hfirst, hlines, settles_whole hcommand hanswer hfits, hcommand]

/-- A post that is cut off, or that `tot` cannot hold as it is, is not sent as it was typed. -/
theorem not_sendsOnce_post (hcommand : command line = some .post)
    (hanswer : cString (answers s.answered) 0 = ['n', 'o'])
    (hnot : ¬ ∃ sender content rest, lines behind = sender :: content :: rest ∧
      fitsTot sender content = true) : ¬ s.SendsOnce answers := by
  refine not_logs fun t hnext hle => hnot ?_
  have hread := read_command hfirst hstdin (by simp [hcommand])
  obtain ⟨unread, text, hfree, hlength, hsent⟩ := next_post hstays hread hcommand hanswer hnext
  obtain ⟨more, hrequests, hmore⟩ := requests_post (lines behind) hcommand hanswer
  rw [hstdin, Option.getD_some, lines_firstLine hfirst, hrequests, hsent,
    List.prefix_append_right_inj, List.cons_prefix_cons] at hle
  obtain ⟨-, rest, rfl⟩ := hle
  obtain ⟨sender, content, script, hlines, hnewline, rfl⟩ := hmore _ rfl
  exact ⟨sender, content, script, hlines, fitsTot_iff.mpr ⟨hnewline, hfree, hlength⟩⟩

end FirstLine

/-- What a round can come to as long as the script has a line left. -/
theorem round_cases (answers : Nat → List Char) (hfirst : FirstLine line behind)
    (hstays : s.left = false) (hstdin : s.stdin = some (line ++ behind)) :
    (∃ done t, Goes answers done s t) ∨ command line = some .exit ∨
      (¬ s.SendsOnce answers ∧
        settles answers s.answered (command s.ipt) (line :: lines behind) = false) := by
  cases hcommand : command line with
  | none =>
      by_cases hpiece : command (lastPiece line) = none
      · exact .inl (goes_none hfirst hstays hstdin hcommand hpiece)
      · refine .inr (.inr ⟨not_sendsOnce_piece hfirst hstays hstdin hcommand hpiece, ?_⟩)
        simp [settles, hcommand, hpiece]
  | some which =>
      cases which with
      | pull => exact .inl (goes_pull hfirst hstays hstdin hcommand)
      | exit => exact .inr (.inl rfl)
      | post =>
          by_cases hanswer : cString (answers s.answered) 0 = ['n', 'o']
          · by_cases hwhole : ∃ sender content rest, lines behind = sender :: content :: rest ∧
                fitsTot sender content = true
            · obtain ⟨sender, content, script, hlines, hfits⟩ := hwhole
              exact .inl (goes_post hfirst hstays hstdin hcommand hanswer hlines hfits)
            · refine .inr (.inr
                ⟨not_sendsOnce_post hfirst hstays hstdin hcommand hanswer hwhole, ?_⟩)
              rw [Bool.eq_false_iff]
              exact fun hsettles => hwhole (whole_of_settles hcommand hanswer hsettles)
          · exact .inl (goes_refused hfirst hstays hstdin hcommand hanswer)

/-- Whatever the buffers hold at the start and whatever the checks are answered, the client
sends what the script asks for exactly if the script comes to `exit`, or ends behind a line
that is no command, with posts that the buffers hold as they are. -/
theorem sendsOnce_iff_settles (answers : Nat → List Char) (s : Client) (hstays : s.left = false) :
    s.SendsOnce answers ↔
      settles answers s.answered (command s.ipt) (lines (s.stdin.getD [])) = true := by
  induction hlength : (s.stdin.getD []).length using Nat.strongRecOn generalizing s with
  | ind n ih =>
      by_cases hend : s.stdin.getD [] = []
      · rw [hend]
        exact sendsOnce_end hstays hend
      · obtain ⟨line, behind, hsplit, hfirst⟩ := exists_firstLine hend
        have hstdin : s.stdin = some (line ++ behind) := by
          cases hscript : s.stdin with
          | none => simp [hscript] at hend
          | some stdin => rw [← hsplit, hscript, Option.getD_some]
        rcases round_cases answers hfirst hstays hstdin with
          ⟨done, t, hgoes⟩ | hexit | ⟨hnot, hsettles⟩
        · rw [hgoes.sendsOnce, hgoes.settles]
          exact ih _ (hlength ▸ hgoes.shorter) t hgoes.stays rfl
        · refine iff_of_true (sendsOnce_exit hfirst hstays hstdin hexit) ?_
          simp [hsplit, lines_firstLine hfirst, settles, hexit]
        · refine iff_of_false hnot ?_
          simp [hsplit, lines_firstLine hfirst, hsettles]

/-- The client behind its first pull, with nothing in its buffers. -/
def start (script : List Char) : Client where
  stdin := some script
  ipt := []
  sender := []
  content := []
  answered := 0
  sent := []
  left := false

def pullLine : List Char := ['p', 'u', 'l', 'l', '\n']
def postLine : List Char := ['p', 'o', 's', 't', '\n']
def exitLine : List Char := ['e', 'x', 'i', 't', '\n']

/-- The server has room for every post. -/
def notFull : Nat → List Char := fun _ => ['n', 'o']

theorem sendsOnce_iff_settles_exit :
    (start (pullLine ++ postLine ++ ['a', '\n', 'b', '\n'] ++ exitLine)).SendsOnce notFull :=
  (sendsOnce_iff_settles notFull _ rfl).mpr (by decide)

/-- A script that ends behind `pull` pulls again and again; one that ends behind a post sends
the post again and again, and one that ends in the middle of a post sends one all the same. -/
theorem not_sendsOnce_pull :
    ¬ (start pullLine).SendsOnce notFull ∧
      ¬ (start (postLine ++ ['a', '\n', 'b', '\n'])).SendsOnce notFull ∧
      ¬ (start (postLine ++ ['a', '\n'])).SendsOnce notFull := by
  refine ⟨?_, ?_, ?_⟩
  · exact not_logs_of_length_lt 2 (by decide)
  · exact not_logs_of_length_lt 2 (by decide)
  · exact not_logs_of_length_lt 1 (by decide)

end Client

end Board

end SystemsProgramming
