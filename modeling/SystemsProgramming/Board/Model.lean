/-
The bulletin board of `server.c` and `client.c`.  A server process handles one request
at a time on the `BulletinBoard` file; what other processes do is in the labels.
-/
import SystemsProgramming.Runs
import SystemsProgramming.FlatBytes
import Mathlib

namespace SystemsProgramming

namespace Board

open FlatBytes

/-- `FROM_LEN`, `CONTENT_LEN`, `RECORD_NUM` and `sizeof(record)`. -/
def fromLen : Nat := 5
def contentLen : Nat := 20
def recordNum : Nat := 10
def recordSize : Nat := fromLen + contentLen

/-- `BUFFER_SIZE`, and the size of the buffers that both programs read into. -/
def bufferSize : Nat := 4096

/-- `INT_MAX`. -/
def intMax : Int := 2147483647

def nul : Char := '\x00'

instance : NeZero recordNum := ⟨by decide⟩

/-- The index of a record. -/
abbrev Slot := Fin recordNum

/-- The bytes of a `record`: `From`, and `Content` behind it. -/
structure Record where
  bytes : List Char
  length_bytes : bytes.length = recordSize
deriving DecidableEq

/-- The string that starts at an offset of a record or of `all`. -/
def cString (bytes : List Char) (offset : Nat) : List Char := terminated nul bytes offset

namespace Record

/-- An assignment to one byte; `none` says that it is outside the record. -/
def put (tmp : Record) (o : Nat) (c : Char) : Option Record :=
  if o < recordSize then some ⟨tmp.bytes.set o c, by simp [tmp.length_bytes]⟩ else none

/-- The loops of the parser: the text up to a newline goes to the bytes from `o` on, and
the newline becomes a NUL.  The second result is where the newline went. -/
def copyLine (tmp : Record) (o : Nat) : List Char → Option (Record × Option Nat)
  | [] => some (tmp, none)
  | c :: text =>
      if c ≠ '\n' then (tmp.put o c).bind fun tmp => tmp.copyLine (o + 1) text
      else (tmp.put o nul).map fun tmp => (tmp, some o)

def fromField (tmp : Record) : List Char := cString tmp.bytes 0

def contentField (tmp : Record) : List Char := cString tmp.bytes fromLen

end Record

/-- The parser of a post.  `tmp` and `j` are not initialised, so they come in with any
value; a negative `j + 1` is a large `size_t` in the test of the second loop. -/
def parsePost (tmp : Record) (j : Int) (buf : List Char) : Option Record :=
  (tmp.copyLine 0 buf).bind fun (tmp, newline) =>
    let j := (newline.map Int.ofNat).getD j
    (tmp.copyLine fromLen (if j + 1 < 0 then [] else buf.drop (j + 1).toNat)).map Prod.fst

inductive Message where
  | pull
  | check
  | exit
  | post
deriving Repr, DecidableEq

/-- The comparison of `buf` with the fixed requests; all else is a post. -/
def classify (buf : List Char) : Message :=
  if buf = ['p', 'u', 'l', 'l'] then .pull
  else if buf = ['c', 'h', 'e', 'c', 'k'] then .check
  else if buf = ['e', 'x', 'i', 't'] then .exit
  else .post

/-- What the server prints. -/
inductive Printed where
  | warning (locked : Nat)
  | receivePost (sender : List Char)
deriving Repr, DecidableEq

/-- A server process: its offset in the file, the array `all`, and the globals. -/
structure Process where
  offset : Nat
  all : List Char
  last : Int
  locked : Slot → Bool
  printed : List Printed

/-- `j = i % RECORD_NUM` for an `i` of zero or more. -/
def slotOf (i : Int) : Slot := ⟨(i % recordNum).toNat, by simp only [recordNum]; omega⟩

namespace Process

variable (others : Slot → Bool)

/-- `is_locked(DB, j) || locked[j]`, where `others` are the slots that other processes
hold write-locked. -/
def isLocked (p : Process) (j : Slot) : Bool := others j || p.locked j

def numOfLocked (p : Process) : Nat := (List.finRange recordNum).countP (p.isLocked others)

def warn (p : Process) : Process :=
  if 0 < p.numOfLocked others then
    { p with printed := p.printed ++ [.warning (p.numOfLocked others)] }
  else p

/-- `read(DB, all, sizeof(record) * RECORD_NUM)`. -/
def refresh (p : Process) (file : List Char) : Process :=
  let chunk := (file.drop p.offset).take (recordSize * recordNum)
  { p with all := chunk ++ p.all.drop chunk.length, offset := p.offset + chunk.length }

/-- One scan for a free slot from `last + 1` on, with the lock of the slot found. -/
def scan (p : Process) : Option (Process × Slot) :=
  ((List.range recordNum).find? fun (k : Nat) => !p.isLocked others (slotOf (p.last + 1 + k))).map
    fun (k : Nat) =>
      let i := p.last + 1 + k
      ({ p with locked := Function.update p.locked (slotOf i) true, last := i }, slotOf i)

/-- The two scans; `pos` stays `0` when both fail.  The second one tests the slots anew,
and finds `again` locked. -/
def choose (again : Slot → Bool) (p : Process) : Process × Slot :=
  match p.scan others with
  | some found => found
  | none =>
      match p.scan again with
      | some found => found
      | none => (p, 0)

/-- The records of the reply to a pull. -/
def pullRecord (p : Process) (i : Slot) : List Char :=
  if !others i && p.all.getD (recordSize * i) nul != nul &&
      p.all.getD (recordSize * i + fromLen) nul != nul && !p.locked i then
    cString p.all (recordSize * i) ++ '*' :: cString p.all (recordSize * i + fromLen) ++ ['*']
  else []

def pullReply (p : Process) : List Char :=
  '\'' :: (List.finRange recordNum).flatMap (p.pullRecord others)

def checkReply (p : Process) : List Char :=
  if p.numOfLocked others = recordNum then ['y', 'e', 's'] else ['n', 'o']

/-- A post.  `none` is undefined behaviour: an overflow of the bound of the scans, or a
write outside the record. -/
def post (again : Slot → Bool) (p : Process) (file : List Char) (tmp : Record) (j : Int)
    (buf : List Char) : Option (List Char × Process) :=
  if intMax < p.last + recordNum + 1 then none
  else
    let (p, pos) := p.choose others again
    (parsePost tmp j buf).map fun tmp =>
      (overwrite nul file (recordSize * pos) tmp.bytes,
        { p with
          offset := 0
          locked := Function.update p.locked pos false
          printed := p.printed ++ [.receivePost tmp.fromField] })

end Process

/-- What a request gets back on its connection. -/
inductive Answer where
  | reply (text : List Char)
  | silent
  | closed
deriving Repr, DecidableEq

/-- A server process and the file. -/
structure State where
  file : List Char
  process : Process

/-- The bytes of one read from a connection are handled; `tmp` and `j` are the
uninitialised variables of the parser.  A request tests each slot in at most two loops:
`others` are the slots that the first of them finds locked, `again` those of the second. -/
def State.handle (s : State) (others again : Slot → Bool) (tmp : Record) (j : Int)
    (received : List Char) : Option (Answer × State) :=
  let buf := cString received 0
  match classify buf with
  | .pull =>
      some (.reply (s.process.pullReply again),
        { s with process := s.process.warn others })
  | .check => some (.reply (s.process.checkReply others), s)
  | .exit => some (.closed, s)
  | .post =>
      (s.process.post others again s.file tmp j buf).map fun next => (.silent, ⟨next.1, next.2⟩)

inductive Event where
  /-- The top of the loop. -/
  | refresh
  /-- A new connection. -/
  | accept (others : Slot → Bool)
  | request (others again : Slot → Bool) (tmp : Record) (j : Int) (received : List Char)
  /-- Other processes write the file. -/
  | foreign (file : List Char)

def State.step (s : State) : Event → Option State
  | .refresh => some { s with process := s.process.refresh s.file }
  | .accept others => some { s with process := s.process.warn others }
  | .request others again tmp j received => (s.handle others again tmp j received).map Prod.snd
  | .foreign file => some { s with file }

/-- The globals of `server.c`, with `all` fresh from `malloc`. -/
def Process.init (all : List Char) : Process where
  offset := 0
  all := all
  last := -1
  locked _ := false
  printed := []

/-- One server process on any file. -/
def serving : TransitionSystem State Event where
  start s := ∃ all, all.length = recordSize * recordNum ∧ s.process = Process.init all
  step := State.step

/-- A request as the client means it. -/
inductive Request where
  | pull
  | check
  | exit
  | post (sender content : List Char)
deriving Repr, DecidableEq

/-- The bytes the client writes for a request. -/
def Request.bytes : Request → List Char
  | pull => ['p', 'u', 'l', 'l']
  | check => ['c', 'h', 'e', 'c', 'k']
  | exit => ['e', 'x', 'i', 't']
  | post sender content => sender ++ '\n' :: content ++ ['\n']

/-- The loop of the client over the reply to a pull, from index 1 on. -/
def printLoop (cnt dir : Nat) : List Char → List Char
  | [] => []
  | c :: buf =>
      if cnt = 0 then []
      else if c ≠ '*' then c :: printLoop cnt dir buf
      else if dir % 2 = 0 then
        ['\n', 'C', 'O', 'N', 'T', 'E', 'N', 'T', ':', '\n'] ++ printLoop (cnt - 1) (dir + 1) buf
      else if 1 < cnt then
        ['\n', 'F', 'R', 'O', 'M', ':', ' '] ++ printLoop (cnt - 1) (dir + 1) buf
      else printLoop cnt dir buf

/-- What the client prints between the two rule lines. -/
def printReply (reply : List Char) : List Char :=
  let buf := cString reply 0
  let cnt := buf.tail.count '*'
  if 0 < buf.length ∧ 0 < cnt then
    ['F', 'R', 'O', 'M', ':', ' '] ++ printLoop cnt 0 buf.tail ++ ['\n']
  else printLoop cnt 0 buf.tail

end Board

end SystemsProgramming
