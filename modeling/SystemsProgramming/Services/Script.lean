/-
How the Manager of `service.c` reads its script: `scanf` stores nothing at the end of the
input, and a variable then keeps what it holds.
-/
import SystemsProgramming.LoopLog
import SystemsProgramming.Services.Model

namespace SystemsProgramming

namespace Services

open LoopLog

/-- A word as `scanf("%s")` reads it. -/
abbrev Token := List Char

/-- The three words that `command` is compared with. -/
inductive Keyword where
  | spawn
  | kill
  | exchange
deriving Repr, DecidableEq

def keyword (command : Token) : Option Keyword :=
  if command = ['s', 'p', 'a', 'w', 'n'] then some .spawn
  else if command = ['k', 'i', 'l', 'l'] then some .kill
  else if command = ['e', 'x', 'c', 'h', 'a', 'n', 'g', 'e'] then some .exchange
  else none

/-- A command as it is executed. -/
inductive Execution where
  | spawn (parent child : Token)
  | kill (target : Token)
  | exchange (one other : Token)
deriving Repr, DecidableEq

/-- The Manager at the top of its loop: what is left of the input, the variables of the
loop, and what has been executed. -/
structure Reader where
  input : List Token
  command : Token
  spawnParent : Token
  spawnChild : Token
  killParent : Token
  exchangeParent : Token
  exchangeChild : Token
  executed : List Execution
  left : Bool
deriving Repr, DecidableEq

/-- `scanf("%s", variable)`: what the variable holds and what is left of the input. -/
def scan (old : Token) : List Token → Token × List Token
  | [] => (old, [])
  | token :: rest => (token, rest)

namespace Reader

/-- One round of the loop.  Only `kill Manager` leaves it. -/
def next (s : Reader) : Reader :=
  if s.left then s
  else
    let (command, input) := scan s.command s.input
    match keyword command with
    | some .spawn =>
        let (parent, input) := scan s.spawnParent input
        let (child, input) := scan s.spawnChild input
        { s with input := input, command := command, spawnParent := parent, spawnChild := child
                 executed := s.executed ++ [.spawn parent child] }
    | some .kill =>
        let (parent, input) := scan s.killParent input
        { s with input := input, command := command, killParent := parent
                 executed := s.executed ++ [.kill parent], left := parent = managerName }
    | some .exchange =>
        let (parent, input) := scan s.exchangeParent input
        let (child, input) := scan s.exchangeChild input
        { s with input := input, command := command, exchangeParent := parent
                 exchangeChild := child
                 executed := s.executed ++ [.exchange parent child] }
    | none => { s with input := input, command := command }

end Reader

/-- The complete commands of a script, up to the `kill Manager` that ends it. -/
def complete : List Token → List Execution
  | [] => []
  | word :: rest =>
      match keyword word, rest with
      | none, rest => complete rest
      | some .spawn, parent :: child :: rest => .spawn parent child :: complete rest
      | some .kill, target :: rest =>
          .kill target :: if target = managerName then [] else complete rest
      | some .exchange, one :: other :: rest => .exchange one other :: complete rest
      | some _, _ => []

/-- Whether a script ends with `kill Manager`, or behind a word in the place of a command
that is none; `command` is what the last word there was. -/
def settles : Token → List Token → Bool
  | command, [] => (keyword command).isNone
  | _, word :: rest =>
      match keyword word, rest with
      | none, rest => settles word rest
      | some .spawn, _ :: _ :: rest => settles word rest
      | some .kill, target :: rest => target = managerName || settles word rest
      | some .exchange, _ :: _ :: rest => settles word rest
      | some _, _ => false

namespace Reader

/-- Each complete command of the input is executed once and in order, and nothing else is. -/
def ExecutesOnce (s : Reader) : Prop :=
  (∀ k, (next^[k] s).executed <+: s.executed ++ complete s.input) ∧
    ∃ k, (next^[k] s).executed = s.executed ++ complete s.input

theorem next_left {s : Reader} (hleft : s.left = true) : s.next = s := if_pos hleft

theorem executesOnce_iff_logs (s : Reader) : s.ExecutesOnce ↔
    Logs (fun s => some (next s)) executed s (s.executed ++ complete s.input) :=
  logs_total.symm

/-- What one round does before what the rounds behind it do. -/
theorem executesOnce_next {s t : Reader} {done : List Execution} (hnext : s.next = t)
    (hexecuted : t.executed = s.executed ++ done)
    (hcomplete : complete s.input = done ++ complete t.input) :
    s.ExecutesOnce ↔ t.ExecutesOnce := by
  have hsame : s.executed ++ complete s.input = t.executed ++ complete t.input := by
    rw [hcomplete, hexecuted, List.append_assoc]
  have hmore : s.executed <+: t.executed := ⟨done, hexecuted.symm⟩
  rw [executesOnce_iff_logs, executesOnce_iff_logs, hsame,
    logs_total_next hnext hmore]

/-- What is executed although the input has no complete command left is one too many. -/
theorem not_executesOnce {s : Reader} (extra : Execution)
    (hexecuted : s.next.executed = s.executed ++ [extra]) (hcomplete : complete s.input = []) :
    ¬ s.ExecutesOnce := by
  rw [executesOnce_iff_logs, hcomplete, List.append_nil]
  refine not_logs fun t hnext hle => ?_
  obtain rfl : s.next = t := Option.some.inj hnext
  have hlength := hle.length_le
  rw [hexecuted, List.length_append] at hlength
  simp at hlength

/-- At the end of the input the last word decides: a command that is still there is executed
again. -/
theorem executesOnce_end {s : Reader} (hstays : s.left = false) (hinput : s.input = []) :
    s.ExecutesOnce ↔ (keyword s.command).isNone = true := by
  have hcomplete : complete s.input = [] := by rw [hinput]; rfl
  cases hword : keyword s.command with
  | none =>
      have hnext : s.next = s := by
        cases s
        simp_all [next, scan]
      refine iff_of_true ?_ rfl
      rw [executesOnce_iff_logs, hcomplete, List.append_nil]
      exact (logs_total_fixed hnext).mpr rfl
  | some word =>
      refine iff_of_false ?_ (by simp)
      cases word with
      | spawn =>
          refine not_executesOnce (.spawn s.spawnParent s.spawnChild) ?_ hcomplete
          simp [next, hstays, hinput, scan, hword]
      | kill =>
          refine not_executesOnce (.kill s.killParent) ?_ hcomplete
          simp [next, hstays, hinput, scan, hword]
      | exchange =>
          refine not_executesOnce (.exchange s.exchangeParent s.exchangeChild) ?_ hcomplete
          simp [next, hstays, hinput, scan, hword]

/-- A command that is cut off is executed with what the variables held before. -/
theorem not_executesOnce_cut {s : Reader} {word : Token} {rest : List Token} {which : Keyword}
    (hstays : s.left = false) (hinput : s.input = word :: rest)
    (hword : keyword word = some which) (hcomplete : complete s.input = []) :
    ¬ s.ExecutesOnce := by
  cases which with
  | spawn =>
      refine not_executesOnce (.spawn (scan s.spawnParent rest).1
        (scan s.spawnChild (scan s.spawnParent rest).2).1) ?_ hcomplete
      simp [next, hstays, hinput, scan, hword]
  | kill =>
      refine not_executesOnce (.kill (scan s.killParent rest).1) ?_ hcomplete
      simp [next, hstays, hinput, scan, hword]
  | exchange =>
      refine not_executesOnce (.exchange (scan s.exchangeParent rest).1
        (scan s.exchangeChild (scan s.exchangeParent rest).2).1) ?_ hcomplete
      simp [next, hstays, hinput, scan, hword]

/-- With `kill Manager` the loop ends. -/
theorem executesOnce_killManager {s : Reader} {word : Token} {rest : List Token}
    (hstays : s.left = false) (hinput : s.input = word :: managerName :: rest)
    (hword : keyword word = some .kill) : s.ExecutesOnce := by
  have hcomplete : complete s.input = [.kill managerName] := by
    simp [hinput, complete, hword]
  have hnext : s.next.executed = s.executed ++ [.kill managerName] ∧ s.next.left = true := by
    simp [next, hstays, hinput, scan, hword]
  have hmore : s.executed <+: s.next.executed := ⟨_, hnext.1.symm⟩
  rw [executesOnce_iff_logs, logs_total_next rfl hmore, logs_total_fixed (next_left hnext.2),
    hcomplete, hnext.1]

/-- A round that executes `done`, and goes on with what is left of the input. -/
structure Goes (done : List Execution) (s t : Reader) : Prop where
  next_eq : s.next = t
  executed : t.executed = s.executed ++ done
  complete : Services.complete s.input = done ++ Services.complete t.input
  stays : t.left = false
  shorter : t.input.length < s.input.length
  settles : Services.settles s.command s.input = Services.settles t.command t.input

/-- What a round can come to as long as the input has a word left. -/
theorem round_cases {s : Reader} {word : Token} {rest : List Token} (hstays : s.left = false)
    (hinput : s.input = word :: rest) :
    (∃ done t, Goes done s t) ∨
      (keyword word = some .kill ∧ ∃ rest', rest = managerName :: rest') ∨
      ∃ which, keyword word = some which ∧ complete s.input = [] ∧
        settles s.command s.input = false := by
  cases hword : keyword word with
  | none =>
      refine .inl ⟨[], { s with input := rest, command := word }, ?_, ?_, ?_, hstays, ?_, ?_⟩
      · simp [next, hstays, hinput, scan, hword]
      · simp
      · simp [hinput, complete, hword]
      · simp [hinput]
      · simp [hinput, settles, hword]
  | some which =>
      cases which with
      | spawn =>
          match rest with
          | parent :: child :: rest =>
              refine .inl ⟨[.spawn parent child], { s with
                input := rest, command := word, spawnParent := parent, spawnChild := child
                executed := s.executed ++ [.spawn parent child] }, ?_, rfl, ?_, hstays, ?_, ?_⟩
              · simp [next, hstays, hinput, scan, hword]
              · simp [hinput, complete, hword]
              · simp [hinput]
                omega
              · simp [hinput, settles, hword]
          | [parent] | [] =>
              refine .inr (.inr ⟨_, rfl, ?_, ?_⟩)
              · simp [hinput, complete, hword]
              · simp [hinput, settles, hword]
      | kill =>
          match rest with
          | target :: rest =>
              by_cases htarget : target = managerName
              · exact .inr (.inl ⟨rfl, rest, by rw [htarget]⟩)
              · refine .inl ⟨[.kill target], { s with
                  input := rest, command := word, killParent := target
                  executed := s.executed ++ [.kill target] }, ?_, rfl, ?_, hstays, ?_, ?_⟩
                · simp [next, hstays, hinput, scan, hword, htarget]
                · simp [hinput, complete, hword, htarget]
                · simp [hinput]
                · simp [hinput, settles, hword, htarget]
          | [] =>
              refine .inr (.inr ⟨_, rfl, ?_, ?_⟩)
              · simp [hinput, complete, hword]
              · simp [hinput, settles, hword]
      | exchange =>
          match rest with
          | one :: other :: rest =>
              refine .inl ⟨[.exchange one other], { s with
                input := rest, command := word, exchangeParent := one, exchangeChild := other
                executed := s.executed ++ [.exchange one other] }, ?_, rfl, ?_, hstays, ?_, ?_⟩
              · simp [next, hstays, hinput, scan, hword]
              · simp [hinput, complete, hword]
              · simp [hinput]
                omega
              · simp [hinput, settles, hword]
          | [one] | [] =>
              refine .inr (.inr ⟨_, rfl, ?_, ?_⟩)
              · simp [hinput, complete, hword]
              · simp [hinput, settles, hword]

/-- Whatever the variables hold at the start, a script is executed as it stands exactly if it
ends with `kill Manager` or behind a word that is no command. -/
theorem executesOnce_iff_settles (s : Reader) (hstays : s.left = false) :
    s.ExecutesOnce ↔ settles s.command s.input = true := by
  induction hlength : s.input.length using Nat.strongRecOn generalizing s with
  | ind n ih =>
      cases hinput : s.input with
      | nil => exact executesOnce_end hstays hinput
      | cons word rest =>
          rw [← hinput]
          rcases round_cases hstays hinput with
            ⟨done, t, hgoes⟩ | ⟨hword, rest', rfl⟩ | ⟨which, hword, hcomplete, hcut⟩
          · rw [executesOnce_next hgoes.next_eq hgoes.executed hgoes.complete, hgoes.settles]
            exact ih _ (hlength ▸ hgoes.shorter) t hgoes.stays rfl
          · refine iff_of_true (executesOnce_killManager hstays hinput hword) ?_
            simp [hinput, settles, hword]
          · refine iff_of_false (not_executesOnce_cut hstays hinput hword hcomplete) ?_
            simp [hcut]

/-- The Manager with a script and nothing in its variables. -/
def start (input : List Token) : Reader where
  input := input
  command := []
  spawnParent := []
  spawnChild := []
  killParent := []
  exchangeParent := []
  exchangeChild := []
  executed := []
  left := false

def spawnWord : Token := ['s', 'p', 'a', 'w', 'n']
def killWord : Token := ['k', 'i', 'l', 'l']

theorem executesOnce_iff_settles_killManager :
    (start [spawnWord, managerName, ['A'], killWord, managerName]).ExecutesOnce ↔
      settles [] [spawnWord, managerName, ['A'], killWord, managerName] = true :=
  executesOnce_iff_settles _ rfl

/-- A script that ends behind `spawn Manager A` spawns `A` again and again; one that ends
behind `spawn Manager` spawns a child all the same. -/
theorem not_executesOnce_spawn :
    ¬ (start [spawnWord, managerName, ['A']]).ExecutesOnce ∧
      ¬ (start [spawnWord, managerName]).ExecutesOnce := by
  constructor
  · rintro ⟨hdone, -⟩
    exact absurd (hdone 2).length_le (by decide)
  · rintro ⟨hdone, -⟩
    exact absurd (hdone 1).length_le (by decide)

end Reader

end Services

end SystemsProgramming
