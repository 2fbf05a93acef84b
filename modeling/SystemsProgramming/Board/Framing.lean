/-
One connection: the client writes its requests one behind the other, TCP keeps the
bytes and their order, and the server takes each read for one request.
-/
import SystemsProgramming.Board.Listing

namespace SystemsProgramming

namespace Board

open FlatBytes

/-- The client, the bytes under way and the server's side of a connection.  `answers`
counts the answers that the client has not read; `sent` and `executed` are logs. -/
structure Connection where
  script : List Request
  waiting : Bool
  answers : Nat
  channel : List Char
  closed : Bool
  sent : List Request
  executed : List Request
deriving Repr, DecidableEq

def Request.isAnswered : Request → Bool
  | pull | check => true
  | _ => false

/-- The request that the server executes for the bytes of one read. -/
def executes (tmp : Record) (j : Int) (received : List Char) : Option Request :=
  let buf := cString received 0
  match classify buf with
  | .pull => some .pull
  | .check => some .check
  | .exit => some .exit
  | .post => (parsePost tmp j buf).map fun tmp => .post tmp.fromField tmp.contentField

inductive Transfer where
  /-- The client writes its next request, or reads the answer it waits for. -/
  | client
  /-- The server reads `n` bytes. -/
  | read (n : Nat) (tmp : Record) (j : Int)
deriving DecidableEq

namespace Connection

/-- After `exit` the client leaves its loop. -/
def clientStep (c : Connection) : Option Connection :=
  if c.waiting then
    if 0 < c.answers then some { c with waiting := false, answers := c.answers - 1 } else none
  else
    match c.script with
    | [] => none
    | request :: script =>
        some { c with
          script := if request = .exit then [] else script
          waiting := request.isAnswered
          channel := c.channel ++ request.bytes
          sent := c.sent ++ [request] }

def serverStep (c : Connection) (n : Nat) (tmp : Record) (j : Int) : Option Connection :=
  if 0 < n ∧ n ≤ c.channel.length ∧ n ≤ bufferSize ∧ c.closed = false then
    (executes tmp j (c.channel.take n)).map fun request =>
      { c with
        channel := c.channel.drop n
        answers := if request.isAnswered then c.answers + 1 else c.answers
        closed := request = .exit
        executed := c.executed ++ [request] }
  else none

def step (c : Connection) : Transfer → Option Connection
  | .client => c.clientStep
  | .read n tmp j => c.serverStep n tmp j

end Connection

/-- A connection whose client sends the requests of `script`. -/
def connection (script : List Request) : TransitionSystem Connection Transfer where
  start c := c = ⟨script, false, 0, [], false, [], []⟩
  step := Connection.step

/-- What a line of the client can hold. -/
def Request.Typed : Request → Prop
  | post sender content => ('\n' ∉ sender ∧ nul ∉ sender) ∧ '\n' ∉ content ∧ nul ∉ content
  | _ => True

/-- The texts of a post leave room for their NULs. -/
def Request.Fits : Request → Prop
  | post sender content => sender.length < fromLen ∧ content.length < contentLen
  | _ => True

/-- The executed requests are the first ones that were sent, and the bytes under way are
those of the others. -/
def Framed (c : Connection) : Prop :=
  ∃ rest, c.sent = c.executed ++ rest ∧ c.channel = rest.flatMap Request.bytes

/-- A read takes the bytes of the next request, which fits its fields. -/
def TakesOne (c : Connection) : Transfer → Prop
  | .client => True
  | .read n _ _ => ∃ request, c.sent[c.executed.length]? = some request ∧
      n = request.bytes.length ∧ request.Fits

variable {c c' : Connection} {script : List Request} {request : Request} {n : Nat}
  {tmp : Record} {j : Int}

theorem Request.bytes_ne_nil (request : Request) : request.bytes ≠ [] := by
  cases request <;> simp [Request.bytes]

theorem executes_bytes (tmp : Record) (j : Int) (htyped : request.Typed) (hfits : request.Fits) :
    executes tmp j request.bytes = some request := by
  cases request with
  | pull =>
      have hbuf : cString Request.pull.bytes 0 = ['p', 'u', 'l', 'l'] := by decide
      simp [executes, hbuf, classify]
  | check =>
      have hbuf : cString Request.check.bytes 0 = ['c', 'h', 'e', 'c', 'k'] := by decide
      simp [executes, hbuf, classify]
  | exit =>
      have hbuf : cString Request.exit.bytes 0 = ['e', 'x', 'i', 't'] := by decide
      simp [executes, hbuf, classify]
  | post sender content =>
      obtain ⟨⟨hsender, hsenderNul⟩, hcontent, hcontentNul⟩ := htyped
      have hnewline : '\n' ∈ (Request.post sender content).bytes := by simp [Request.bytes]
      obtain ⟨record, hparse, hstores⟩ := parsePost_fits tmp j hsender hcontent hfits.1 hfits.2
      have hfrom := hstores.cString_sender hsenderNul []
      have hfield := hstores.cString_content hcontentNul []
      rw [List.append_nil] at hfrom hfield
      simp [executes, cString_post hsenderNul hcontentNul, classify_of_newline hnewline, hparse,
        Record.fromField, Record.contentField, hfrom, hfield]

/-- Everything that is sent comes from the script. -/
theorem typed_clientStep (htyped : ∀ r ∈ c.script ++ c.sent, r.Typed)
    (hstep : c.clientStep = some c') : ∀ r ∈ c'.script ++ c'.sent, r.Typed := by
  unfold Connection.clientStep at hstep
  split_ifs at hstep
  · cases hstep
    exact htyped
  · split at hstep
    · cases hstep
    · rename_i request script hscript
      cases hstep
      intro r hr
      apply htyped
      rw [hscript]
      dsimp only at hr
      split_ifs at hr <;> simp at hr ⊢ <;> tauto

theorem Framed.clientStep (hframed : Framed c) (hstep : c.clientStep = some c') :
    Framed c' := by
  obtain ⟨rest, hsent, hchannel⟩ := hframed
  unfold Connection.clientStep at hstep
  split_ifs at hstep
  · cases hstep
    exact ⟨rest, hsent, hchannel⟩
  · split at hstep
    · cases hstep
    · rename_i request script _
      cases hstep
      refine ⟨rest ++ [request], ?_, ?_⟩
      · rw [hsent, List.append_assoc]
      · rw [hchannel, List.flatMap_append, List.flatMap_singleton]

theorem serverStep_eq (hstep : c.serverStep n tmp j = some c') :
    (0 < n ∧ n ≤ c.channel.length) ∧ ∃ request, executes tmp j (c.channel.take n) = some request ∧
      c'.channel = c.channel.drop n ∧ c'.executed = c.executed ++ [request] ∧
      c'.sent = c.sent ∧ c'.script = c.script := by
  unfold Connection.serverStep at hstep
  split at hstep
  case isTrue hread =>
      obtain ⟨request, hexecutes, rfl⟩ := Option.map_eq_some_iff.mp hstep
      exact ⟨⟨hread.1, hread.2.1⟩, request, hexecutes, rfl, rfl, rfl, rfl⟩
  case isFalse => cases hstep

/-- The next request is the first one whose bytes are under way. -/
theorem Framed.next (hframed : Framed c) (hnext : c.sent[c.executed.length]? = some request) :
    ∃ rest, c.sent = c.executed ++ request :: rest ∧
      c.channel = request.bytes ++ rest.flatMap Request.bytes := by
  obtain ⟨rest, hsent, hchannel⟩ := hframed
  rw [hsent, List.getElem?_append_right (Nat.le_refl _), Nat.sub_self] at hnext
  cases rest with
  | nil => simp at hnext
  | cons first rest =>
      obtain rfl : first = request := by simpa using hnext
      exact ⟨rest, hsent, hchannel⟩

theorem Framed.serverStep (hframed : Framed c) (htyped : ∀ r ∈ c.script ++ c.sent, r.Typed)
    (htakes : TakesOne c (.read n tmp j)) (hstep : c.serverStep n tmp j = some c') :
    Framed c' := by
  obtain ⟨request, hnext, rfl, hfits⟩ := htakes
  obtain ⟨rest, hsent, hchannel⟩ := hframed.next hnext
  obtain ⟨-, executed, hexecutes, hdrop, hexecuted, hsame, -⟩ := serverStep_eq hstep
  have hrequest : request.Typed := htyped request (by simp [hsent])
  rw [hchannel, List.take_left, executes_bytes tmp j hrequest hfits] at hexecutes
  cases hexecutes
  refine ⟨rest, ?_, ?_⟩
  · rw [hsame, hexecuted, hsent, List.append_assoc]
    rfl
  · rw [hdrop, hchannel, List.drop_left]

/-- A read that keeps the framing has taken the bytes of the next request. -/
theorem Framed.of_serverStep (hframed : Framed c) (hstep : c.serverStep n tmp j = some c')
    (hafter : Framed c') :
    ∃ request, c.sent[c.executed.length]? = some request ∧ n = request.bytes.length := by
  obtain ⟨rest, hsent, hchannel⟩ := hframed
  obtain ⟨rest', hsent', hchannel'⟩ := hafter
  obtain ⟨⟨hpos, hle⟩, executed, -, hdrop, hexecuted, hsame, -⟩ := serverStep_eq hstep
  rw [hsame, hexecuted, hsent, List.append_assoc] at hsent'
  obtain rfl : rest = executed :: rest' := List.append_cancel_left hsent'
  refine ⟨executed, by simp [hsent], ?_⟩
  have hlength := congrArg List.length (hdrop.symm.trans hchannel')
  rw [List.length_drop, hchannel, List.flatMap_cons, List.length_append] at hlength
  rw [hchannel, List.flatMap_cons, List.length_append] at hle
  omega

theorem reachable_framed (hscript : ∀ r ∈ script, r.Typed)
    (hreach : (connection script).ReachableBy TakesOne c) :
    Framed c ∧ ∀ r ∈ c.script ++ c.sent, r.Typed := by
  refine hreach.invariant (P := fun c => Framed c ∧ ∀ r ∈ c.script ++ c.sent, r.Typed) ?_ ?_
  · rintro c rfl
    exact ⟨⟨[], rfl, rfl⟩, by simpa using hscript⟩
  · rintro c transfer c' ⟨hframed, htyped⟩ htakes hstep
    cases transfer with
    | client => exact ⟨hframed.clientStep hstep, typed_clientStep htyped hstep⟩
    | read n tmp j =>
        obtain ⟨-, _, -, -, -, hsame, hscripts⟩ := serverStep_eq hstep
        refine ⟨hframed.serverStep htyped htakes hstep, ?_⟩
        rw [hsame, hscripts]
        exact htyped

/-- As long as every read takes one whole request that fits, the server executes what
was sent, in this order, and nothing else once all bytes are read.  A read of another
number of bytes breaks this. -/
theorem framed_of_takesOne (script : List Request) (hscript : ∀ r ∈ script, r.Typed)
    (c : Connection) (hreach : (connection script).ReachableBy TakesOne c) :
    Framed c ∧ (c.channel = [] → c.executed = c.sent) ∧
      ∀ n tmp j c', c.serverStep n tmp j = some c' → Framed c' →
        ∃ request, c.sent[c.executed.length]? = some request ∧ n = request.bytes.length := by
  have hframed := (reachable_framed hscript hreach).1
  refine ⟨hframed, fun hempty => ?_, fun n tmp j c' hstep => hframed.of_serverStep hstep⟩
  obtain ⟨rest, hsent, hchannel⟩ := hframed
  rw [hempty] at hchannel
  cases rest with
  | nil => rw [hsent, List.append_nil]
  | cons request rest =>
      have hbytes := request.bytes_ne_nil
      simp [hbytes] at hchannel

namespace MergedRead

/-- A post, and a pull without a wait for anything in between. -/
def requests : List Request := [.post ['a'] ['b'], .pull]

/-- The server finds both requests in one read. -/
def transfers : List Transfer := [.client, .client, .read 8 AllLocked.blank 0]

end MergedRead

/-- The post is read alone and the pull is under way. -/
theorem framed_of_takesOne_post_pull :
    let c : Connection := ⟨[], true, 0, Request.pull.bytes, false, MergedRead.requests,
      [.post ['a'] ['b']]⟩
    Framed c ∧ (c.channel = [] → c.executed = c.sent) ∧
      ∀ n tmp j c', c.serverStep n tmp j = some c' → Framed c' →
        ∃ request, c.sent[c.executed.length]? = some request ∧ n = request.bytes.length := by
  apply framed_of_takesOne MergedRead.requests
  · simp [MergedRead.requests, Request.Typed, nul]
  · refine TransitionSystem.ReachableBy.run (.start rfl)
      [.client, .read 4 AllLocked.blank 0, .client] ⟨trivial, fun next hnext => ?_⟩ rfl
    cases hnext
    refine ⟨⟨.post ['a'] ['b'], rfl, rfl, by decide, by decide⟩, fun next hnext => ?_⟩
    exact ⟨trivial, fun _ _ => trivial⟩

/-- The pull is lost. -/
theorem not_executed_merged_read :
    ¬ ∀ c, (connection MergedRead.requests).Reachable c →
      c.channel = [] → c.executed = c.sent := by
  intro hexecuted
  have hall :=
    hexecuted _ (TransitionSystem.Reachable.run (.start rfl) MergedRead.transfers rfl) rfl
  exact absurd hall (by decide)

end Board

end SystemsProgramming
