/-
The loops of `service.c` that take a command apart again, on the buffers as they are: a copy
with an index of its own, and what a relay has left behind the NUL of the text.
-/
import SystemsProgramming.Services.Names

namespace SystemsProgramming

namespace Services

/-- The loop that copies the characters behind the `k`-th space of the string to `want`; `j`
counts them. -/
def copyWord (k : Nat) (want : Bytes 512) (cntSpace j : Nat) :
    List Char → Option (Bytes 512 × Nat)
  | [] => some (want, j)
  | c :: text =>
      let cntSpace' := if c = ' ' then cntSpace + 1 else cntSpace
      if cntSpace = k ∧ c ≠ ' ' then
        (want.write j [c]).bind fun want => copyWord k want cntSpace' (j + 1) text
      else copyWord k want cntSpace' j text

/-- The loop, and `want[j] = '\0'` behind it. -/
def parseWord (k : Nat) (want buf : Bytes 512) : Option (List Char) :=
  (copyWord k want 0 0 (cString buf.cells)).bind fun (want, j) =>
    (want.write j [nul]).map fun want => cString want.cells

/-- `want` and `another` in the branch for "spawn". -/
def spawnWant := parseWord 1
def spawnAnother := parseWord 2

/-- `want` in the branches for "kill" and "find". -/
def killWant := parseWord 1
def findWant := parseWord 1

/-- `want` and `another` in the branch for "exchange". -/
def exchangeWant := parseWord 1
def exchangeAnother := parseWord 2

inductive Selected where
  | job (job : Job)
  | dead
deriving Repr, DecidableEq

/-- The branch that `buf[0]` selects. -/
def selected (buf : Bytes 512) : Option Selected :=
  match buf.cells.head? with
  | some 's' => some (.job .spawn)
  | some 'k' => some (.job .kill)
  | some 'd' => some .dead
  | some 'f' => some (.job .find)
  | some 'e' => some (.job .exchange)
  | _ => none

/-- The formats of the Manager. -/
inductive Formatted where
  | spawn (parent child : List Char)
  | kill (target : List Char)
  | find (target : List Char)
  | exchange (one other : List Char)
deriving Repr, DecidableEq

namespace Formatted

def text : Formatted → List Char
  | spawn parent child => spawnText parent child
  | kill target => killText target
  | find target => findText target
  | exchange one other => exchangeText one other

def names : Formatted → List (List Char)
  | spawn parent child => [parent, child]
  | kill target | find target => [target]
  | exchange one other => [one, other]

/-- The service takes the branch of the command and has its names, whatever was in `want` and
`another`. -/
def Recovered (want another buf : Bytes 512) : Formatted → Prop
  | spawn parent child => selected buf = some (.job .spawn) ∧
      spawnWant want buf = some parent ∧ spawnAnother another buf = some child
  | kill target => selected buf = some (.job .kill) ∧ killWant want buf = some target
  | find target => selected buf = some (.job .find) ∧ findWant want buf = some target
  | exchange one other => selected buf = some (.job .exchange) ∧
      exchangeWant want buf = some one ∧ exchangeAnother another buf = some other

end Formatted

/-- `sprintf` into `message` or `find`. -/
def sprintf (message : Bytes 512) (text : List Char) : Option (Bytes 512) :=
  message.write 0 (text ++ [nul])

/-- The string in `buf` is written with its NUL and read into a buffer that holds `old`. -/
def forward (buf old : Bytes 512) : Option (Bytes 512) := old.write 0 (cString buf.cells ++ [nul])

/-- From one service to the next; `olds` is what their buffers hold. -/
def relays : Bytes 512 → List (Bytes 512) → Option (Bytes 512)
  | buf, [] => some buf
  | buf, old :: olds => (forward buf old).bind fun buf => relays buf olds

/-- The buffer holds this string. -/
structure Holds (buf : Bytes 512) (text : List Char) : Prop where
  string : cString buf.cells = text
  terminated : nul ∈ buf.cells

variable {k cntSpace j : Nat} {text a b : List Char} {buf want another : Bytes 512}

section Loops

theorem word_sublist (k cntSpace : Nat) (text : List Char) :
    (word k cntSpace text).Sublist text := by
  induction text generalizing cntSpace with
  | nil => exact List.Sublist.refl _
  | cons c text ih =>
      unfold word
      dsimp only
      split
      · exact (ih _).cons_cons c
      · exact (ih _).cons c

/-- The loop puts the word behind what it has copied before. -/
theorem copyWord_eq (want : Bytes 512) (hfits : j + (word k cntSpace text).length ≤ 512) :
    ∃ want', copyWord k want cntSpace j text = some (want', j + (word k cntSpace text).length) ∧
      want'.cells.take (j + (word k cntSpace text).length) =
        want.cells.take j ++ word k cntSpace text := by
  induction text generalizing want cntSpace j with
  | nil => exact ⟨want, rfl, by simp [word]⟩
  | cons c text ih =>
      unfold copyWord word
      unfold word at hfits
      dsimp only at hfits ⊢
      by_cases hcopies : cntSpace = k ∧ c ≠ ' '
      · rw [if_pos hcopies, List.length_cons] at hfits
        rw [if_pos hcopies, if_pos hcopies, List.length_cons]
        have hlength := want.length_eq
        have hroom : j + [c].length ≤ 512 := by
          rw [List.length_singleton]
          omega
        obtain ⟨next, hwrite, hcells⟩ := want.exists_write hroom
        have htake : next.cells.take (j + 1) = want.cells.take j ++ [c] := by
          rw [hcells, List.take_append_of_le_length (by simp; omega)]
          exact List.take_of_length_le (by simp)
        rw [hwrite, Option.bind_some]
        generalize (if c = ' ' then cntSpace + 1 else cntSpace) = passed at hfits ⊢
        have hcount : j + ((word k passed text).length + 1) =
            j + 1 + (word k passed text).length := by omega
        rw [hcount] at hfits ⊢
        obtain ⟨want', hcopy, htake'⟩ := ih next hfits
        refine ⟨want', hcopy, ?_⟩
        rw [htake', htake, List.append_assoc]
        rfl
      · rw [if_neg hcopies] at hfits
        rw [if_neg hcopies, if_neg hcopies]
        exact ih want hfits

theorem Holds.length_lt (hholds : Holds buf text) : text.length < 512 := by
  obtain ⟨before, behind, hcells, hfree⟩ := List.eq_append_cons_of_mem hholds.terminated
  have hstring : text = before := by
    rw [← hholds.string, hcells]
    exact FlatBytes.takeWhile_append_stop hfree behind
  have hlength := buf.length_eq
  rw [hcells, List.length_append, List.length_cons, ← hstring] at hlength
  omega

/-- The six loops read the words of the string, whatever was in `want` and whatever stands
behind the NUL. -/
theorem parseWord_eq (want : Bytes 512) (hholds : Holds buf text) :
    parseWord k want buf = some (word k 0 text) := by
  have hlt := hholds.length_lt
  have hsub := word_sublist k 0 text
  have hle := hsub.length_le
  have hnul : nul ∉ word k 0 text := by
    intro hmem
    have hmem' := hsub.subset hmem
    rw [← hholds.string] at hmem'
    simpa using List.mem_takeWhile_imp hmem'
  have hfits : 0 + (word k 0 text).length ≤ 512 := by omega
  obtain ⟨copied, hcopy, htake⟩ := copyWord_eq want hfits
  have hroom : (word k 0 text).length + [nul].length ≤ 512 := by
    rw [List.length_singleton]
    omega
  obtain ⟨final, hwrite, hcells⟩ := copied.exists_write hroom
  rw [Nat.zero_add] at hcopy htake
  have hstring : cString final.cells = word k 0 text := by
    have hshape : final.cells = word k 0 text ++
        nul :: copied.cells.drop ((word k 0 text).length + 1) := by
      rw [hcells, htake]
      simp
    rw [hshape]
    exact FlatBytes.takeWhile_append_stop hnul _
  simp only [parseWord, hholds.string, hcopy, Option.bind_some, hwrite, Option.map_some, hstring]

end Loops

section Relays

/-- A buffer with a string in it after a write from the start on. -/
theorem holds_write (old : Bytes 512) (hnul : nul ∉ text) (hfits : text.length < 512) :
    ∃ buf, old.write 0 (text ++ [nul]) = some buf ∧ Holds buf text := by
  obtain ⟨buf, hwrite, hstring, hcells⟩ := write_string old hnul hfits
  exact ⟨buf, hwrite, hstring, by simp [hcells]⟩

theorem Holds.relays (hholds : Holds buf text) (olds : List (Bytes 512)) :
    ∃ buf', relays buf olds = some buf' ∧ Holds buf' text := by
  induction olds generalizing buf with
  | nil => exact ⟨buf, rfl, hholds⟩
  | cons old olds ih =>
      have hnul : nul ∉ text := by
        rw [← hholds.string]
        exact FlatBytes.notMem_terminated nul buf.cells 0
      obtain ⟨next, hwrite, hnext⟩ := holds_write old hnul hholds.length_lt
      obtain ⟨buf', hrelays, hholds'⟩ := ih hnext
      refine ⟨buf', ?_, hholds'⟩
      rw [Services.relays, forward, hholds.string, hwrite, Option.bind_some, hrelays]

/-- The first character of the string is the first one in the buffer. -/
theorem Holds.head {c : Char} {rest : List Char} (hholds : Holds buf (c :: rest)) :
    buf.cells.head? = some c := by
  have hstring := hholds.string
  unfold cString at hstring
  cases hcells : buf.cells with
  | nil => simp [hcells] at hstring
  | cons d cells =>
      rw [hcells, List.takeWhile_cons] at hstring
      split at hstring
      · rw [(List.cons.inj hstring).1]
        rfl
      · cases hstring

theorem Holds.selected {job : Job} {rest : List Char} (hholds : Holds buf (job.letter :: rest)) :
    selected buf = some (.job job) := by
  rw [Services.selected, hholds.head]
  cases job <;> rfl

end Relays

namespace Formatted

variable {f : Formatted}

theorem nul_notMem_text (hnames : ∀ name ∈ f.names, ' ' ∉ name ∧ nul ∉ name) : nul ∉ f.text := by
  cases f with
  | spawn parent child | exchange parent child =>
      have hparent := (hnames parent (by simp [names])).2
      have hchild := (hnames child (by simp [names])).2
      simpa [text, spawnText, exchangeText, nul] using And.intro hparent hchild
  | kill target | find target =>
      have htarget := (hnames target (by simp [names])).2
      simpa [text, killText, findText, nul] using htarget

/-- A service that holds the text of a command takes its branch and has its names. -/
theorem recovered (hnames : ∀ name ∈ f.names, ' ' ∉ name ∧ nul ∉ name)
    (hholds : Holds buf f.text) (want another : Bytes 512) : f.Recovered want another buf := by
  cases f with
  | spawn parent child =>
      have hparent := (hnames parent (by simp [names])).1
      have hchild := (hnames child (by simp [names])).1
      refine ⟨hholds.selected, ?_, ?_⟩
      · rw [spawnWant, parseWord_eq want hholds, text, spawnText_eq]
        exact congrArg some (word_two_names (by decide) hparent hchild).1
      · rw [spawnAnother, parseWord_eq another hholds, text, spawnText_eq]
        exact congrArg some (word_two_names (by decide) hparent hchild).2
  | kill target =>
      have htarget := (hnames target (by simp [names])).1
      refine ⟨hholds.selected, ?_⟩
      rw [killWant, parseWord_eq want hholds, text, killText_eq]
      exact congrArg some (word_one_name (by decide) htarget)
  | find target =>
      have htarget := (hnames target (by simp [names])).1
      refine ⟨hholds.selected, ?_⟩
      rw [findWant, parseWord_eq want hholds, text, findText_eq]
      exact congrArg some (word_one_name (by decide) htarget)
  | exchange one other =>
      have hone := (hnames one (by simp [names])).1
      have hother := (hnames other (by simp [names])).1
      refine ⟨hholds.selected, ?_, ?_⟩
      · rw [exchangeWant, parseWord_eq want hholds, text, exchangeText_eq]
        exact congrArg some (word_two_names (by decide) hone hother).1
      · rw [exchangeAnother, parseWord_eq another hholds, text, exchangeText_eq]
        exact congrArg some (word_two_names (by decide) hone hother).2

/-- Through any number of relays, whatever their buffers hold, a service takes the command apart
as the Manager has put it together. -/
theorem recovered_through_relays (f : Formatted)
    (hnames : ∀ name ∈ f.names, ' ' ∉ name ∧ nul ∉ name) (hfits : f.text.length < 512)
    (message want another : Bytes 512) (olds : List (Bytes 512)) :
    ∃ sent buf, sprintf message f.text = some sent ∧ relays sent olds = some buf ∧
      f.Recovered want another buf := by
  obtain ⟨sent, hwrite, hsent⟩ := holds_write message (nul_notMem_text hnames) hfits
  obtain ⟨buf, hrelays, hbuf⟩ := hsent.relays olds
  exact ⟨sent, buf, hwrite, hrelays, recovered hnames hbuf want another⟩

/-- Memory that nobody has cleared. -/
def stale : Bytes 512 := ⟨List.replicate 512 'z', List.length_replicate⟩

theorem recovered_through_relays_spawn :
    ∃ sent buf, sprintf stale (spawn ['A'] ['B', 'C']).text = some sent ∧
      relays sent [stale, stale] = some buf ∧ (spawn ['A'] ['B', 'C']).Recovered stale stale buf :=
  recovered_through_relays (spawn ['A'] ['B', 'C']) (by decide) (by decide) stale stale stale
    [stale, stale]

end Formatted

end Services

end SystemsProgramming
