/-
The tree of services of `service.c`, one completed command of the Manager at a time.
Each `read` takes one message, so a service that is asked answers before its parent
goes on.
-/
import SystemsProgramming.Runs
import SystemsProgramming.Forest
import Mathlib

namespace SystemsProgramming

namespace Services

def nul : Char := '\x00'

def managerName : List Char := ['M', 'a', 'n', 'a', 'g', 'e', 'r']

/-- The name of a service, as `scanf` reads it and as `service_name` can hold it. -/
structure Name where
  chars : List Char
  nonempty : chars ≠ []
  short : chars.length ≤ 15
  noSpace : ' ' ∉ chars
  noNul : nul ∉ chars
  notManager : chars ≠ managerName
deriving DecidableEq

def Name.letter (c : Char) (hspace : c ≠ ' ') (hnul : c ≠ nul) : Name where
  chars := [c]
  nonempty := by simp
  short := by simp
  noSpace := by simpa using Ne.symm hspace
  noNul := by simpa using Ne.symm hnul
  notManager := by simp [managerName]

/-- A name in a command. -/
inductive Party where
  | manager
  | service (name : Name)
deriving DecidableEq

/-- The commands as they are printed. -/
inductive Message where
  | spawn (parent : Party) (child : Name)
  | kill (target : Name)
  | exchange (one other : Party)
deriving DecidableEq

/-- The lines that the commands print, but for those of a service that starts. -/
inductive Line where
  | received (by' : Party) (message : Message)
  | notExist (name : Party)
  | killed (name : Name) (num : Int)
  | exchanged (one other : Party)
deriving DecidableEq

inductive Reply where
  | yes
  | yesn
  | not
deriving Repr, DecidableEq

namespace Reply

def bytes : Reply → List Char
  | yes => ['y', 'e', 's']
  | yesn => ['y', 'e', 's', 'n']
  | not => ['n', 'o', 't']

/-- `strncmp(str, "yes", 3) == 0`. -/
def isYes : Reply → Bool
  | not => false
  | _ => true

end Reply

/-- What a service keeps of a child, and whether the process of the child has left its loop
and so exits.  `child_num` is never set in these nodes. -/
structure Node where
  name : Name
  haveKilled : Bool
  childNum : Int
  exited : Bool
deriving DecidableEq

/-- The list behind `root`: a node, the list of the child it stands for, and `next`. -/
inductive Nodes where
  | nil
  | cons (node : Node) (root next : Nodes)
deriving DecidableEq

namespace Nodes

/-- `create_service`; `garbage` is the `child_num` of the node that `malloc` returns. -/
def createService (child : Name) (garbage : Int) : Nodes → Nodes
  | nil => cons ⟨child, false, garbage, false⟩ nil nil
  | cons node root next => cons node root (next.createService child garbage)

/-- The services that commands can reach. -/
def reachable : Nodes → Forest Name
  | nil => .nil
  | cons node root next =>
      if node.haveKilled then next.reachable
      else .cons node.name root.reachable next.reachable

/-- Whether a process that is told "dead" leaves its loop over these nodes.  The loop
does not look at `have_killed`, and waits once for each node. -/
def dies : Nodes → Bool
  | nil => true
  | cons node root next =>
      (if node.haveKilled then node.exited else root.dies) && next.dies

/-- The nodes when that loop is done: whoever was alive has exited. -/
def bury : Nodes → Nodes
  | nil => nil
  | cons node root next =>
      if node.haveKilled then cons node root next.bury
      else cons { node with exited := true } root.bury next.bury

end Nodes

/-- What a service answers, its list afterwards, and what was printed below it. -/
structure Outcome where
  reply : Reply
  root : Nodes
  lines : List Line

/-- A branch of the loop of a service that looks for one service: which service acts,
what it does, and what every service prints. -/
structure Branch where
  here : Name → Bool
  act : Nodes → Nodes
  line : Name → Line

namespace Branch

variable (b : Branch)

/-- One service in the branch, given what the loop over its children comes to. -/
def answer (name : Name) (root : Nodes) (relayed : Outcome) : Outcome :=
  if b.here name then ⟨.yes, b.act root, [b.line name]⟩
  else { relayed with lines := b.line name :: relayed.lines }

/-- The loop over the children. -/
def relay : Nodes → Outcome
  | .nil => ⟨.not, .nil, []⟩
  | .cons node root next =>
      if node.haveKilled then
        let rest := relay next
        ⟨rest.reply, .cons node root rest.root, rest.lines⟩
      else
        let child := b.answer node.name root (relay root)
        if child.reply.isYes then ⟨.yes, .cons node child.root next, child.lines⟩
        else
          let rest := relay next
          ⟨rest.reply, .cons node child.root rest.root, child.lines ++ rest.lines⟩

end Branch

/-- The branch of `buf[0] == 's'`. -/
def spawnBranch (parent : Party) (child : Name) (garbage : Int) : Branch where
  here name := Party.service name = parent
  act := Nodes.createService child garbage
  line name := .received (.service name) (.spawn parent child)

/-- The branch of `buf[0] == 'f'`, which prints the `kill` it prepares. -/
def findBranch (want : Name) : Branch where
  here name := name = want
  act root := root
  line name := .received (.service name) (.kill want)

/-- The branch of `buf[0] == 'e'`. -/
def exchangeBranch (one other : Party) : Branch where
  here name := Party.service name = other
  act root := root
  line name := .received (.service name) (.exchange one other)

/-- One service in the branch of `buf[0] == 'k'`; `none` says that it waits for ever. -/
def killAnswer (want : Name) (node : Node) (root : Nodes) (relayed : Option (Reply × Nodes)) :
    Option (Reply × Node × Nodes) :=
  if node.name = want then
    if root.dies then some (.yesn, { node with exited := true }, root.bury) else none
  else relayed.map fun (reply, root) => (reply, node, root)

/-- The loop over the children in that branch.  It marks the child that says "yes",
whoever has died. -/
def killRelay (want : Name) : Nodes → Option (Reply × Nodes)
  | .nil => some (.not, .nil)
  | .cons node root next =>
      if node.haveKilled then
        (killRelay want next).map fun (reply, next) => (reply, .cons node root next)
      else
        (killAnswer want node root (killRelay want root)).bind fun (reply, node, root) =>
          if reply.isYes then some (.yes, .cons { node with haveKilled := true } root next)
          else (killRelay want next).map fun (reply, next) => (reply, .cons node root next)

/-- A reply buffer of the Manager, which no loop clears. -/
abbrev Buffer := Fin 512 → Char

/-- The place behind the three bytes of "yes". -/
def fourth : Fin 512 := 3

namespace Buffer

/-- `read` writes the bytes that it gets over the first ones. -/
def load (buf : Buffer) (bytes : List Char) : Buffer := fun i => bytes.getD i (buf i)

/-- The `read` of one reply. -/
def read (buf : Buffer) (reply : Reply) : Buffer := buf.load reply.bytes

/-- `buf[3] = '\0'`. -/
def terminate (buf : Buffer) : Buffer := Function.update buf fourth nul

/-- `strncmp(buf, "yes", 3) == 0`. -/
def startsYes (buf : Buffer) : Bool := buf 0 = 'y' && buf 1 = 'e' && buf 2 = 's'

/-- `strcmp(buf, "yes") == 0`. -/
def isYes (buf : Buffer) : Bool := buf.startsYes && buf fourth = nul

end Buffer

def zeroed : Buffer := fun _ => nul

/-- What is passed on from parent to child. -/
inductive Job where
  | spawn
  | kill
  | find
  | exchange
deriving Repr, DecidableEq

/-- A buffer for each loop of the Manager. -/
abbrev Buffers := Job → Buffer

/-- Commands that all find zeros in their buffers. -/
def onZeroed {α : Type} (script : List α) : List (α × Buffers) :=
  script.map fun command => (command, fun _ => zeroed)

/-- Where a loop of the Manager stopped. -/
structure Walk where
  found : Bool
  buf : Buffer
  root : Nodes
  lines : List Line

/-- The loop of the Manager for a branch of the services; `settle` is done to the
buffer after each `read`, and `accepts` is the test that ends the loop. -/
def Branch.walk (b : Branch) (settle : Buffer → Buffer) (accepts : Buffer → Bool) :
    Buffer → Nodes → Walk
  | buf, .nil => ⟨false, buf, .nil, []⟩
  | buf, .cons node root next =>
      if node.haveKilled then
        let rest := b.walk settle accepts buf next
        ⟨rest.found, rest.buf, .cons node root rest.root, rest.lines⟩
      else
        let child := b.answer node.name root (b.relay root)
        let buf := settle (buf.read child.reply)
        if accepts buf then ⟨true, buf, .cons node child.root next, child.lines⟩
        else
          let rest := b.walk settle accepts buf next
          ⟨rest.found, rest.buf, .cons node child.root rest.root, child.lines ++ rest.lines⟩

/-- Where the second loop of `kill` stopped, with the `child_num` that it prints. -/
structure KillWalk where
  buf : Buffer
  killed : Option Int
  root : Nodes

/-- The second loop of `kill` in the Manager. -/
def killWalk (want : Name) : Buffer → Nodes → Option KillWalk
  | buf, .nil => some ⟨buf, none, .nil⟩
  | buf, .cons node root next =>
      if node.haveKilled then
        (killWalk want buf next).map fun rest =>
          ⟨rest.buf, rest.killed, .cons node root rest.root⟩
      else
        (killAnswer want node root (killRelay want root)).bind fun (reply, node, root) =>
          let buf := buf.read reply
          if buf.startsYes then
            let node := if buf fourth = 'n' then { node with haveKilled := true } else node
            some ⟨buf, some node.childNum, .cons node root next⟩
          else
            (killWalk want buf next).map fun rest =>
              ⟨rest.buf, rest.killed, .cons node root rest.root⟩

/-- The Manager between two commands, with the tree below it and the bytes that the loops
have left in their buffers. -/
structure Manager where
  root : Nodes
  childNum : Int
  spawnBuf : Buffer
  findBuf : Buffer
  killBuf : Buffer
  exchangeBuf : Buffer
  output : List Line

namespace Manager

/-- The buffers are local to the blocks of a command, which finds any bytes in them. -/
def load (m : Manager) (bufs : Buffers) : Manager :=
  { m with
    spawnBuf := bufs .spawn
    findBuf := bufs .find
    killBuf := bufs .kill
    exchangeBuf := bufs .exchange }

def print (m : Manager) (lines : List Line) : Manager := { m with output := m.output ++ lines }

def spawn (m : Manager) (parent : Party) (child : Name) (garbage : Int) : Manager :=
  let m := m.print [.received .manager (.spawn parent child)]
  if parent = .manager then
    { m with root := m.root.createService child garbage, childNum := m.childNum + 1 }
  else
    let walk := (spawnBranch parent child garbage).walk id Buffer.isYes m.spawnBuf m.root
    let m := { m.print walk.lines with spawnBuf := walk.buf, root := walk.root }
    if walk.found then m else m.print [.notExist parent]

/-- `kill` of a name other than `Manager`. -/
def kill (m : Manager) (target : Name) : Option Manager :=
  let m := m.print [.received .manager (.kill target)]
  let find := (findBranch target).walk Buffer.terminate Buffer.isYes m.findBuf m.root
  let m := { m.print find.lines with findBuf := find.buf, root := find.root }
  if find.found then
    (killWalk target m.killBuf m.root).map fun walk =>
      { m.print (walk.killed.toList.map (Line.killed target)) with
        killBuf := walk.buf, root := walk.root }
  else some (m.print [.notExist (.service target)])

def exchange (m : Manager) (one other : Party) : Manager :=
  let m := m.print [.received .manager (.exchange one other)]
  let walk := (exchangeBranch one other).walk Buffer.terminate Buffer.startsYes
    m.exchangeBuf m.root
  { m.print (walk.lines ++ [.exchanged one other]) with
    exchangeBuf := walk.buf, root := walk.root }

end Manager

inductive Command where
  | spawn (parent : Party) (child : Name) (garbage : Int)
  | kill (target : Name)
  | exchange (one other : Party)

/-- A completed command.  A `kill` that waits for ever never completes. -/
def Manager.step (m : Manager) : Command → Option Manager
  | .spawn parent child garbage => some (m.spawn parent child garbage)
  | .kill target => m.kill target
  | .exchange one other => some (m.exchange one other)

/-- The Manager starts alone.  A command comes with what it finds in its buffers. -/
def commands : TransitionSystem Manager (Command × Buffers) where
  start m := m.root = .nil ∧ m.childNum = 0 ∧ m.output = []
  step m action := (m.load action.2).step action.1

end Services

end SystemsProgramming
