/-
What the processes print, and the texts that they take apart for it.  The number in the last
line of a `kill` is left to `Services.Reports`.
-/
import SystemsProgramming.Services.Instructions
import SystemsProgramming.Services.Messages
import SystemsProgramming.Services.Names

namespace SystemsProgramming

namespace Services

variable {i : Instruction} {P : Proc} {name : Name}

/-- A line of the output without the number of a `kill`. -/
inductive Said where
  | received (name text : List Char)
  | notExist (name : List Char)
  | killed (name : List Char)
  | exchanged (one other : List Char)
deriving DecidableEq

def Message.text : Message → List Char
  | spawn parent child => spawnText parent.chars child.chars
  | kill target => killText target.chars
  | exchange one other => exchangeText one.chars other.chars

def Line.said : Line → Said
  | received by' message => .received by'.chars message.text
  | notExist party => .notExist party.chars
  | killed name _ => .killed name.chars
  | exchanged one other => .exchanged one.chars other.chars

def Request.text : Request → List Char
  | spawn parent child => spawnText parent.chars child.chars
  | kill target => killText target.chars
  | exchange one other => exchangeText one.chars other.chars

/-- What a service prints that has read this text. -/
def hears (name text : List Char) : List Said :=
  match text.head? with
  | some 's' => [.received name text]
  | some 'e' => [.received name text]
  | some 'f' => [.received name (killText (word 1 0 text))]
  | _ => []

namespace State

/-- What the Manager prints behind its loop, where the names are those in the message. -/
def closes (P : Proc) (job : Job) (yes : Bool) : List Said :=
  match job with
  | .spawn => if yes then [] else [.notExist (word 1 0 (cString P.buf))]
  | .find => if yes then [] else [.notExist (word 1 0 (cString P.find))]
  | .exchange => [.exchanged (word 1 0 (cString P.buf)) (word 2 0 (cString P.buf))]
  | .kill => if yes then [.killed (word 1 0 (cString P.buf))] else []

/-- What is printed in a turn, but for the lines of a service that starts. -/
def prints (s : State) (turn : Turn) : List Said :=
  let p := turn.pid
  let P := s.procs p
  match P.control with
  | .loop =>
      if p = 0 then s.script.head?.toList.map fun action => .received managerName action.1.text
      else
        (s.links p).nextMessage.toList.flatMap fun message =>
          hears P.name (cString (message ++ P.buf.drop message.length))
  | .walk job [] => if p = 0 then closes P job false else []
  | .await job c _ =>
      if p = 0 ∧ accepts p job (settle p job ((P.str job).load ((s.links c).rep.take 512))) = true
        then closes P job true else []
  | .dying .dead [] => if p = 0 then [.killed managerName] else []
  | _ => []

end State

/-! The texts of the instructions. -/

namespace Instruction

theorem noNul (i : Instruction) : nul ∉ i.text := by
  cases i with
  | spawn parent child =>
      exact nul_not_mem (by decide) parent.noNul child.noNul
  | exchange one other => exact nul_not_mem (by decide) one.noNul other.noNul
  | find want | kill want => exact List.not_mem_append (by decide) want.noNul

theorem cString_text (i : Instruction) (junk : List Char) :
    cString (i.text ++ nul :: junk) = i.text := FlatBytes.takeWhile_append_stop i.noNul junk

/-- The names in the texts. -/
theorem words_spawn (parent : Party) (child : Name) :
    word 1 0 (spawnText parent.chars child.chars) = parent.chars ∧
      word 2 0 (spawnText parent.chars child.chars) = child.chars := by
  rw [spawnText_eq]
  exact word_two_names (by decide) parent.noSpace child.noSpace

theorem words_exchange (one other : Party) :
    word 1 0 (exchangeText one.chars other.chars) = one.chars ∧
      word 2 0 (exchangeText one.chars other.chars) = other.chars := by
  rw [exchangeText_eq]
  exact word_two_names (by decide) one.noSpace other.noSpace

theorem word_find (want : Name) : word 1 0 (findText want.chars) = want.chars := by
  rw [findText_eq]
  exact word_one_name (by decide) want.noSpace

theorem word_kill (want : Name) : word 1 0 (killText want.chars) = want.chars := by
  rw [killText_eq]
  exact word_one_name (by decide) want.noSpace

/-- The place behind the `read` of an instruction that is not passed on. -/
def begins (i : Instruction) (children : List Nat) : Control :=
  match i with
  | spawn _ child _ => .forking child.chars
  | find _ | exchange _ _ => .reply .yes
  | kill _ => .dying .target children

/-- A service takes an instruction for what it is. -/
theorem dispatch_text (hname : name.chars = P.name) :
    P.dispatch i.text =
      if i.here name = true then i.begins P.children else .walk i.job P.children := by
  have hparty : ∀ party : Party, (P.name = party.chars ↔ Party.service name = party) := by
    intro party
    rw [Party.service_iff, hname]
  have hself : ∀ want : Name, (P.name = want.chars ↔ name = want) := by
    intro want
    have hwant := hparty (.service want)
    simpa [Party.chars] using hwant
  cases i with
  | spawn parent child garbage =>
      have hhead : (spawnText parent.chars child.chars).head? = some 's' := rfl
      simp only [Proc.dispatch, text, hhead, (words_spawn parent child).1,
        (words_spawn parent child).2, hparty, here, begins, job, decide_eq_true_eq]
  | find want =>
      have hhead : (findText want.chars).head? = some 'f' := rfl
      simp only [Proc.dispatch, text, hhead, word_find, hself, here, begins, job,
        decide_eq_true_eq]
  | exchange one other =>
      have hhead : (exchangeText one.chars other.chars).head? = some 'e' := rfl
      simp only [Proc.dispatch, text, hhead, (words_exchange one other).2, hparty, here, begins,
        job, decide_eq_true_eq]
  | kill want =>
      have hhead : (killText want.chars).head? = some 'k' := rfl
      simp only [Proc.dispatch, text, hhead, word_kill, hself, here, begins, job,
        decide_eq_true_eq]

/-- It prints what the branch prints. -/
theorem hears_text (hname : name.chars = P.name) :
    hears P.name i.text = (i.lines name).map Line.said := by
  cases i with
  | spawn parent child garbage =>
      have hhead : (spawnText parent.chars child.chars).head? = some 's' := rfl
      simp only [hears, text, hhead]
      simp [lines, Line.said, Party.chars, Message.text, hname]
  | find want =>
      have hhead : (findText want.chars).head? = some 'f' := rfl
      simp only [hears, text, hhead, word_find]
      simp [lines, Line.said, Party.chars, Message.text, hname]
  | exchange one other =>
      have hhead : (exchangeText one.chars other.chars).head? = some 'e' := rfl
      simp only [hears, text, hhead]
      simp [lines, Line.said, Party.chars, Message.text, hname]
  | kill want =>
      have hhead : (killText want.chars).head? = some 'k' := rfl
      simp only [hears, text, hhead]
      rfl

end Instruction

end Services

end SystemsProgramming
