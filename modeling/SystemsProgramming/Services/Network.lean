/-
The services of `service.c` as processes with byte pipes.  A label says whose turn it
is; a turn is one call of `read`, `write`, `fork` or `wait` with the work around it.
-/
import SystemsProgramming.Services.Model

namespace SystemsProgramming

namespace Services

/-- A name in a command, as `scanf` reads it into a buffer of 20 or 32 bytes. -/
structure Word where
  chars : List Char
  nonempty : chars ≠ []
  short : chars.length ≤ 31
  noSpace : ' ' ∉ chars
  noNul : nul ∉ chars

/-- The commands of the script. -/
inductive Request where
  | spawn (parent : Word) (child : Name)
  | kill (target : Word)
  | exchange (one other : Word)

def Job.letter : Job → Char
  | spawn => 's'
  | kill => 'k'
  | find => 'f'
  | exchange => 'e'

def spawnText (parent child : List Char) : List Char :=
  ['s', 'p', 'a', 'w', 'n', ' '] ++ parent ++ ' ' :: child

def killText (target : List Char) : List Char := ['k', 'i', 'l', 'l', ' '] ++ target

def findText (target : List Char) : List Char := ['f', 'i', 'n', 'd', ' '] ++ target

def exchangeText (one other : List Char) : List Char :=
  ['e', 'x', 'c', 'h', 'a', 'n', 'g', 'e', ' '] ++ one ++ ' ' :: other

/-- The text that is written without its NUL. -/
def deadText : List Char := ['d', 'e', 'a', 'd']

/-- The string in a buffer. -/
def cString (buf : List Char) : List Char := buf.takeWhile (· ≠ nul)

/-- The loops that copy the word behind the `k`-th space; `cntSpace` counts the spaces
passed. -/
def word (k : Nat) : Nat → List Char → List Char
  | _, [] => []
  | cntSpace, c :: text =>
      let rest := word k (if c = ' ' then cntSpace + 1 else cntSpace) text
      if cntSpace = k ∧ c ≠ ' ' then c :: rest else rest

/-- Why a process runs the loop that writes "dead". -/
inductive Ending where
  | target
  | dead
deriving Repr, DecidableEq

/-- Where a process stands; `tmp` and `next` are what is left of a list, and `returning` is
behind the loop of a service that has written "yesn". -/
inductive Control where
  | greet
  | loop
  | forking (child : List Char)
  | greeting (child : Nat)
  | walk (job : Job) (tmp : List Nat)
  | await (job : Job) (child : Nat) (next : List Nat)
  | reply (message : Reply)
  | dying (ending : Ending) (tmp : List Nat)
  | waiting (ending : Ending) (next : List Nat)
  | returning
  | exited
deriving Repr, DecidableEq

/-- What follows that loop. -/
def Ending.last : Ending → Control
  | target => .reply .yesn
  | dead => .exited

/-- `char str[8]` after `strcpy(str, "haha")`. -/
def haha : Buffer := fun i => ['h', 'a', 'h', 'a'].getD i nul

/-- A process. -/
structure Proc where
  name : List Char
  parent : Nat
  control : Control
  children : List Nat
  /-- The command at hand: `buf` in a service, `message` in the Manager. -/
  buf : List Char
  find : List Char
  str : Buffers

/-- What lies between a process and its parent: the `service` of the parent, with the
number of its pair of descriptors, and the pipes at descriptors 3 and 4 of the process.
`sent` and `got` record what was written to `cmd` and what each `read` of it returned. -/
structure Link where
  haveKilled : Bool
  isOpen : Bool
  fd : Nat
  cmd : List Char
  rep : List Char
  reaped : Bool
  sent : List (List Char)
  got : List (List Char)

namespace Link

def born (fd : Nat) : Link where
  haveKilled := false
  isOpen := true
  fd := fd
  cmd := []
  rep := []
  reaped := false
  sent := []
  got := []

/-- A `write` to the pipe at descriptor 3. -/
def post (L : Link) (bytes : List Char) : Link :=
  { L with cmd := L.cmd ++ bytes, sent := L.sent ++ [bytes] }

def close (L : Link) : Link := { L with isOpen := false }

/-- `read(3, buf, 512)`. -/
def take (L : Link) : Link :=
  { L with cmd := L.cmd.drop 512, got := L.got ++ [L.cmd.take 512] }

/-- A `write` to the pipe at descriptor 4. -/
def answer (L : Link) (message : Reply) : Link := { L with rep := L.rep ++ message.bytes }

/-- A `read` of that pipe by the parent, which may mark the child and close its pipes. -/
def hear (L : Link) (size : Nat) (marked : Bool) : Link :=
  { L with rep := L.rep.drop size, haveKilled := L.haveKilled || marked
           isOpen := L.isOpen && !marked }

def reap (L : Link) : Link := { L with reaped := true }

end Link

namespace Proc

/-- A service as it starts. -/
def born (parent : Nat) (name junk : List Char) : Proc where
  name := name
  parent := parent
  control := .greet
  children := []
  buf := junk
  find := []
  str _ := haha

/-- The parent behind the `fork`, with the new node at the end of its list. -/
def adopt (P : Proc) (child : Nat) : Proc :=
  { P with children := P.children ++ [child], control := .greeting child }

def goto (P : Proc) (control : Control) : Proc := { P with control := control }

/-- The Manager at the start of a command, whose buffers hold any bytes. -/
def load (P : Proc) (bufs : Buffers) : Proc := { P with str := bufs }

/-- The branch that a service takes for the text in `buf`. -/
def dispatch (P : Proc) (text : List Char) : Control :=
  match text.head? with
  | some 's' => if P.name = word 1 0 text then .forking (word 2 0 text) else .walk .spawn P.children
  | some 'k' => if P.name = word 1 0 text then .dying .target P.children else .walk .kill P.children
  | some 'd' => .dying .dead P.children
  | some 'f' => if P.name = word 1 0 text then .reply .yes else .walk .find P.children
  | some 'e' => if P.name = word 2 0 text then .reply .yes else .walk .exchange P.children
  | _ => .loop

/-- A service takes what `read` returned for the next command. -/
def receive (P : Proc) (chunk : List Char) : Proc :=
  let buf := chunk ++ P.buf.drop chunk.length
  { P with buf := buf, str := fun _ => haha, control := P.dispatch (cString buf) }

end Proc

/-- All processes, each with the link to its parent; the Manager is process 0, and no
service has its name.  A command of the script comes with what the Manager finds in the
reply buffers of its blocks. -/
structure State where
  procs : Nat → Proc
  links : Nat → Link
  count : Nat
  script : List (Request × Buffers)

/-- Whose turn it is, the process that a `wait` returns, and what is in the buffer of a
process that starts. -/
structure Turn where
  pid : Nat
  zombie : Nat
  junk : List Char

namespace State

def setProc (s : State) (p : Nat) (P : Proc) : State :=
  { s with procs := Function.update s.procs p P }

def setLink (s : State) (c : Nat) (L : Link) : State :=
  { s with links := Function.update s.links c L }

@[simp] theorem links_setLink_self (s : State) (c : Nat) (L : Link) :
    (s.setLink c L).links c = L := by
  simp [setLink]

@[simp] theorem procs_setLink (s : State) (c : Nat) (L : Link) : (s.setLink c L).procs = s.procs :=
  rfl

theorem links_setLink_of_ne {c c' : Nat} (hne : c' ≠ c) (s : State) (L : Link) :
    (s.setLink c L).links c' = s.links c' := by
  simp [setLink, hne]

/-- The descriptors of a child are closed in pairs and taken again lowest first; this is
the number of the first free pair. -/
def freeFd (s : State) (children : List Nat) : Nat :=
  ((List.range (children.length + 1)).find? fun n =>
    !children.any fun c => (s.links c).isOpen && (s.links c).fd = n).getD 0

/-- The child whose pipe is at the descriptor kept for `c`. -/
def holder (s : State) (p c : Nat) : Option Nat :=
  if (s.links c).isOpen then some c
  else (s.procs p).children.find? fun c' => (s.links c').isOpen && (s.links c').fd = (s.links c).fd

/-- The `fork` of `create_service`. -/
def fork (s : State) (p : Nat) (child junk : List Char) : State :=
  let P := s.procs p
  { ((s.setProc p (P.adopt s.count)).setProc s.count (.born p child junk)).setLink s.count
      (.born (s.freeFd P.children)) with
    count := s.count + 1 }

/-- What is written to a child. -/
def outgoing (p : Nat) (P : Proc) (job : Job) : List Char :=
  cString (if p = 0 ∧ job = .find then P.find else P.buf) ++ [nul]

/-- Where a walk goes on when a child has said "yes", and when none has. -/
def found (p : Nat) (P : Proc) (job : Job) : Control :=
  if p = 0 then if job = .find then .walk .kill P.children else .loop else .reply .yes

def notFound (p : Nat) : Control := if p = 0 then .loop else .reply .not

/-- What a loop does to the buffer before its test. -/
def settle (p : Nat) (job : Job) (str : Buffer) : Buffer :=
  if job = .kill ∨ p = 0 ∧ job = .spawn then str else str.terminate

def accepts (p : Nat) (job : Job) (str : Buffer) : Bool :=
  if p = 0 ∧ job = .spawn then str.isYes else str.startsYes

/-- Whether the child that said "yes" is marked and its pipes are closed. -/
def marks (p : Nat) (job : Job) (str : Buffer) : Bool :=
  accepts p job str && job = .kill && (p ≠ 0 || str fourth = 'n')

/-- The place behind the test of a reply that is in the buffer. -/
def judge (p : Nat) (P : Proc) (job : Job) (next : List Nat) (str : Buffer) : Proc :=
  { P with str := Function.update P.str job str
           control := if accepts p job str then found p P job else .walk job next }

/-- The `read` of a reply, and the test of it. -/
def hear (s : State) (p : Nat) (job : Job) (c : Nat) (next : List Nat) : State :=
  let P := s.procs p
  let size := if p = 0 then 512 else 8
  let str := settle p job ((P.str job).load ((s.links c).rep.take size))
  (s.setLink c ((s.links c).hear size (marks p job str))).setProc p (judge p P job next str)

/-- What the Manager does with a command of the script. -/
def obey (P : Proc) : Request → Proc
  | .spawn parent child =>
      if parent.chars = managerName then P.goto (.forking child.chars)
      else
        { P with buf := spawnText parent.chars child.chars ++ [nul]
                 control := .walk .spawn P.children }
  | .kill target =>
      if target.chars = managerName then P.goto (.dying .dead P.children)
      else
        { P with buf := killText target.chars ++ [nul], find := findText target.chars ++ [nul]
                 control := .walk .find P.children }
  | .exchange one other =>
      { P with buf := exchangeText one.chars other.chars ++ [nul]
               control := .walk .exchange P.children }

/-- The Manager reads a command of the script. -/
def nextCommand (s : State) : Option State :=
  match s.script with
  | [] => none
  | (request, bufs) :: rest =>
      some { s.setProc 0 (obey ((s.procs 0).load bufs) request) with script := rest }

/-- `wait(NULL)`. -/
def wait (s : State) (p : Nat) (ending : Ending) (next : List Nat) (zombie : Nat) :
    Option State :=
  let P := s.procs p
  if zombie ∈ P.children ∧ (s.procs zombie).control = .exited ∧
      (s.links zombie).reaped = false then
    some ((s.setLink zombie (s.links zombie).reap).setProc p (P.goto (.dying ending next)))
  else if P.children.all fun c => (s.links c).reaped then
    some (s.setProc p (P.goto (.dying ending next)))
  else none

/-- One turn of a process; `none` says that it is blocked. -/
def step (s : State) (turn : Turn) : Option State :=
  let p := turn.pid
  let P := s.procs p
  match P.control with
  | .greet =>
      if (s.links p).cmd = [] then none
      else some ((s.setLink p (s.links p).take).setProc p (P.goto .loop))
  | .loop =>
      if p = 0 then s.nextCommand
      else if (s.links p).cmd = [] then none
      else
        some ((s.setLink p (s.links p).take).setProc p (P.receive ((s.links p).cmd.take 512)))
  | .forking child => some (s.fork p child turn.junk)
  | .greeting child =>
      some ((s.setLink child ((s.links child).post (P.name ++ [nul]))).setProc p
        (P.goto (if p = 0 then .loop else .reply .yes)))
  | .walk _ [] => some (s.setProc p (P.goto (notFound p)))
  | .walk job (c :: next) =>
      if (s.links c).haveKilled then some (s.setProc p (P.goto (.walk job next)))
      else
        some ((s.setLink c ((s.links c).post (outgoing p P job))).setProc p
          (P.goto (.await job c next)))
  | .await job c next => if (s.links c).rep = [] then none else some (s.hear p job c next)
  | .reply message =>
      some ((s.setLink p ((s.links p).answer message)).setProc p
        (P.goto (if message = .yesn then .returning else .loop)))
  | .dying ending [] => some (s.setProc p (P.goto ending.last))
  | .dying ending (c :: next) =>
      if p = 0 ∧ (s.links c).haveKilled then some (s.setProc p (P.goto (.dying ending next)))
      else
        match s.holder p c with
        | some c' =>
            some ((s.setLink c' ((s.links c').post deadText).close).setProc p
              (P.goto (.waiting ending next)))
        | none => some (s.setProc p (P.goto (.waiting ending next)))
  | .waiting ending next => s.wait p ending next turn.zombie
  -- behind the "yesn" of a service its parent may go on before the process has exited
  | .returning => some (s.setProc p (P.goto .exited))
  | .exited => none

/-- The child that the turn of `p` writes a command or "dead" to. -/
def writesTo (s : State) (p : Nat) : Option Nat :=
  match (s.procs p).control with
  | .walk _ (c :: _) => if (s.links c).haveKilled then none else some c
  | .dying _ (c :: _) => if p = 0 ∧ (s.links c).haveKilled then none else s.holder p c
  | _ => none

end State

/-- The Manager starts alone, with any script. -/
def network : TransitionSystem State Turn where
  start s := s.count = 1 ∧ (s.procs 0).name = managerName ∧ (s.procs 0).control = .loop ∧
    (s.procs 0).children = [] ∧ ∀ p, p ≠ 0 → (s.procs p).control = .exited
  step := State.step

end Services

end SystemsProgramming
