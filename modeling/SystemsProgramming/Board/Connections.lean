/-
The connections of `server.c`: the list `requestP`, the local buffers that keep their bytes
from one request to the next, and a connection on which `read` returns 0.
-/
import SystemsProgramming.Board.LockedSlots
import SystemsProgramming.Board.Listing

namespace SystemsProgramming

namespace Board

/-- What is used of a `request`. -/
structure RequestP where
  connFd : Int
  bufLen : Nat
  id : Int
deriving Repr, DecidableEq

/-- `init_request`. -/
def initRequest : RequestP where
  connFd := -1
  bufLen := 0
  id := 0

/-- A server process with its connections.  `buf` is the string in the buffer of the loop, and
`message` is the request that the other buffer spells, if it spells one.  `executed` records
which requests have been executed for which connection. -/
structure Server where
  listenFd : Nat
  board : State
  requestP : Nat → RequestP
  connected : Nat → Bool
  buf : List Char
  message : Option Message
  executed : List (Nat × Message)

namespace Server

/-- `close(requestP[con_fd].conn_fd)`. -/
def close (s : Server) (conFd : Nat) : Server :=
  { s with connected := Function.update s.connected conFd false }

/-- `free_request(&requestP[con_fd])`. -/
def freeRequest (s : Server) (conFd : Nat) : Server :=
  { s with requestP := Function.update s.requestP conFd initRequest }

def log (s : Server) (conFd : Nat) (message : Message) : Server :=
  { s with executed := s.executed ++ [(conFd, message)] }

/-- The comparisons of `message`, and what they lead to. -/
def dispatch (s : Server) (conFd : Nat) (others again : Slot → Bool) (tmp : Record) (j : Int) :
    Option Server :=
  match s.message with
  | some .pull =>
      let process := s.board.process.warn others
      some ({ s with board := { s.board with process := process } }.log conFd .pull)
  | some .check => some (s.log conFd .check)
  | some .post =>
      (s.board.process.post others again s.board.file tmp j s.buf).map fun next =>
        { s with board := ⟨next.1, next.2⟩ }.log conFd .post
  | some .exit => some (((s.close conFd).freeRequest conFd).log conFd .exit)
  | none => some s

/-- A `read` that returns bytes. -/
def request (s : Server) (conFd : Nat) (others again : Slot → Bool) (tmp : Record) (j : Int)
    (received : List Char) : Option Server :=
  let buf := cString received 0
  { s with buf := buf, message := some (classify buf) }.dispatch conFd others again tmp j

/-- A `read` that returns 0.  `free(&requestP[con_fd])` gets a pointer that `malloc` has not
returned: `freeReturns` says whether it comes back, and if it does, it has assigned nothing to
the fields.  The comparisons of `message` follow in any case. -/
def lost (freeReturns : Nat → Bool) (s : Server) (conFd : Nat)
    (others again : Slot → Bool) (tmp : Record) (j : Int) : Option Server :=
  if freeReturns conFd then (s.close conFd).dispatch conFd others again tmp j else none

/-- A new connection at the descriptor that `accept` returns. -/
def accept (s : Server) (connFd : Nat) (others : Slot → Bool) : Server :=
  let process := s.board.process.warn others
  { s with
    board := { s.board with process := process }
    requestP := Function.update s.requestP connFd { s.requestP connFd with connFd := connFd }
    connected := Function.update s.connected connFd true }

/-- The connection is there, and the server waits for it. -/
def serves (s : Server) (conFd : Nat) : Bool :=
  s.connected conFd && (s.requestP conFd).connFd = conFd && 0 < conFd && conFd ≠ s.listenFd

end Server

/-- What comes up at `select`. -/
inductive Readiness where
  | refresh
  | accept (connFd : Nat) (others : Slot → Bool)
  | request (conFd : Nat) (others again : Slot → Bool) (tmp : Record) (j : Int)
      (received : List Char)
  | lost (conFd : Nat) (others again : Slot → Bool) (tmp : Record) (j : Int)
  | foreign (file : List Char)

def Server.step (freeReturns : Nat → Bool) (s : Server) : Readiness → Option Server
  | .refresh =>
      let process := s.board.process.refresh s.board.file
      some { s with board := { s.board with process := process } }
  | .accept connFd others =>
      if s.connected connFd || connFd = s.listenFd then none else some (s.accept connFd others)
  | .request conFd others again tmp j received =>
      if s.serves conFd then s.request conFd others again tmp j received else none
  | .lost conFd others again tmp j =>
      if s.serves conFd then s.lost freeReturns conFd others again tmp j else none
  | .foreign file => some { s with board := { s.board with file := file } }

/-- `init_server`, with anything in the local buffers of `main`. -/
def connections (freeReturns : Nat → Bool) : TransitionSystem Server Readiness where
  start s := serving.start s.board ∧
    s.requestP = Function.update (fun _ => initRequest) s.listenFd
      { initRequest with connFd := s.listenFd } ∧
    (∀ conFd, s.connected conFd = false) ∧ s.executed = []
  step := Server.step freeReturns

/-- A connection is lost only when a request has been read before, so that both buffers are
filled. -/
def Server.Heard (s : Server) : Readiness → Prop
  | .lost _ _ _ _ _ => s.message = some (classify s.buf) ∧ cString s.buf 0 = s.buf
  | _ => True

/-- What the loss of a connection should come to: it is closed, its slot is as `init_request`
leaves it, nothing is executed for it, all else stays as it is, and the server waits for the
other connections as before. -/
structure LosesOnly (s s' : Server) (conFd : Nat) : Prop where
  closed : s'.connected conFd = false
  reset : s'.requestP conFd = initRequest
  executed : s'.executed = s.executed
  file : s'.board.file = s.board.file
  last : s'.board.process.last = s.board.process.last
  locked : s'.board.process.locked = s.board.process.locked
  requestP : ∀ other, other ≠ conFd → s'.requestP other = s.requestP other
  serves : ∀ other, other ≠ conFd → s'.serves other = s.serves other

variable {freeReturns : Nat → Bool} {s s' : Server} {conFd : Nat} {others again : Slot → Bool}
  {tmp : Record} {j : Int} {received : List Char}

namespace Server

/-- On the board a request does what it does to a server without connections. -/
theorem board_dispatch (conFd : Nat) (others again : Slot → Bool) (tmp : Record) (j : Int)
    (hmessage : s.message = some (classify s.buf)) (hbuf : cString s.buf 0 = s.buf) :
    (s.dispatch conFd others again tmp j).map Server.board =
      (s.board.handle others again tmp j s.buf).map Prod.snd := by
  unfold dispatch State.handle
  rw [hbuf]
  cases hclass : classify s.buf with
  | pull | check | exit => simp [hmessage, hclass, log, close, freeRequest]
  | post =>
      simp only [hmessage, hclass, Option.map_map]
      rfl

theorem board_request (hrequest : s.request conFd others again tmp j received = some s') :
    (s.board.handle others again tmp j received).map Prod.snd = some s'.board := by
  have hbuf : cString (cString received 0) 0 = cString received 0 :=
    FlatBytes.terminated_of_free (FlatBytes.notMem_terminated nul received 0)
  have hhandle : s.board.handle others again tmp j (cString received 0) =
      s.board.handle others again tmp j received := by
    rw [State.handle, hbuf]
    rfl
  have hboard := congrArg (Option.map Server.board) hrequest
  rw [request, board_dispatch conFd others again tmp j rfl hbuf] at hboard
  rw [← hhandle]
  exact hboard

/-- On the board a connection that is lost repeats the last request. -/
theorem board_lost (hlost : s.lost freeReturns conFd others again tmp j = some s')
    (hmessage : s.message = some (classify s.buf)) (hbuf : cString s.buf 0 = s.buf) :
    (s.board.handle others again tmp j s.buf).map Prod.snd = some s'.board := by
  unfold lost at hlost
  split_ifs at hlost
  have hboard := board_dispatch (s := s.close conFd) conFd others again tmp j hmessage hbuf
  rw [hlost] at hboard
  exact hboard.symm

theorem step_board {readiness : Readiness} (hheard : s.Heard readiness)
    (hstep : s.step freeReturns readiness = some s') :
    ∃ event, serving.step s.board event = some s'.board := by
  cases readiness with
  | refresh =>
      obtain rfl := Option.some.inj hstep
      exact ⟨.refresh, rfl⟩
  | accept connFd others =>
      simp only [step] at hstep
      split_ifs at hstep
      obtain rfl := Option.some.inj hstep
      exact ⟨.accept others, rfl⟩
  | request conFd others again tmp j received =>
      simp only [step] at hstep
      split_ifs at hstep
      exact ⟨.request others again tmp j received, board_request hstep⟩
  | lost conFd others again tmp j =>
      simp only [step] at hstep
      split_ifs at hstep
      exact ⟨.request others again tmp j s.buf, board_lost hstep hheard.1 hheard.2⟩
  | foreign file =>
      obtain rfl := Option.some.inj hstep
      exact ⟨.foreign file, rfl⟩

/-- The board of a server with connections is that of a server without, where each connection
that is lost repeats a request. -/
theorem reachable_board (hreach : (connections freeReturns).ReachableBy Heard s) :
    serving.Reachable s.board := by
  refine hreach.invariant (P := fun s => serving.Reachable s.board) ?_ ?_
  · rintro s ⟨hstart, -⟩
    exact .start hstart
  · intro s readiness s' hboard hheard hstep
    obtain ⟨event, hevent⟩ := step_board hheard hstep
    exact .step hboard trivial hevent

/-- Whatever `message` spells is executed. -/
theorem executed_dispatch (hdispatch : s.dispatch conFd others again tmp j = some s') :
    s'.executed = s.executed ++ s.message.toList.map (Prod.mk conFd) := by
  unfold dispatch at hdispatch
  cases hmessage : s.message with
  | none =>
      simp only [hmessage, Option.some.injEq] at hdispatch
      subst hdispatch
      simp
  | some message =>
      cases message with
      | pull | check | exit =>
          simp only [hmessage, Option.some.injEq] at hdispatch
          subst hdispatch
          rfl
      | post =>
          simp only [hmessage] at hdispatch
          obtain ⟨next, -, rfl⟩ := Option.map_eq_some_iff.mp hdispatch
          rfl

/-- The last request of any client is executed again for a connection that is lost, and with
no request so far the slot stays as it was. -/
theorem executed_lost (hlost : s.lost freeReturns conFd others again tmp j = some s') :
    s'.executed = s.executed ++ s.message.toList.map (Prod.mk conFd) ∧
      (s.message = none → s'.requestP = s.requestP) := by
  unfold lost at hlost
  split at hlost
  · refine ⟨executed_dispatch (s := s.close conFd) hlost, fun hnone => ?_⟩
    have hmessage : (s.close conFd).message = none := hnone
    simp only [dispatch, hmessage, Option.some.injEq] at hlost
    subst hlost
    rfl
  · cases hlost

/-- No connection is lost without damage: the server is gone, or it has executed a request
for the connection, or the slot still holds the closed descriptor. -/
theorem not_losesOnly (freeReturns : Nat → Bool) (hserves : s.serves conFd = true)
    (others again : Slot → Bool) (tmp : Record) (j : Int) :
    ¬ ∃ s', s.lost freeReturns conFd others again tmp j = some s' ∧ LosesOnly s s' conFd := by
  rintro ⟨s', hlost, honly⟩
  obtain ⟨hexecuted, hkept⟩ := executed_lost hlost
  have hnone : s.message = none := by
    have hsame := honly.executed
    rw [hexecuted] at hsame
    simpa using hsame
  have hslot : (s.requestP conFd).connFd = conFd := by
    simp only [serves, Bool.and_eq_true, decide_eq_true_eq] at hserves
    exact hserves.1.1.2
  have hreset : (s.requestP conFd).connFd = -1 := by
    rw [← hkept hnone, honly.reset]
    rfl
  omega

namespace TwoClients

/-- A server that has just started, with zeros in its local buffers. -/
def start : Server where
  listenFd := 3
  board := AllLocked.state
  requestP := Function.update (fun _ => initRequest) 3 { initRequest with connFd := 3 }
  connected _ := false
  buf := []
  message := none
  executed := []

/-- One client posts, and another one connects. -/
def incidents : List Readiness :=
  [.accept 5 noOthers, .request 5 noOthers noOthers AllLocked.blank 0 AllLocked.text,
    .accept 6 noOthers]

theorem start_connections (freeReturns : Nat → Bool) : (connections freeReturns).start start :=
  ⟨⟨_, List.length_replicate, rfl⟩, rfl, fun _ => rfl, rfl⟩

/-- The state in which the second client goes. -/
theorem exists_run (freeReturns : Nat → Bool) :
    ∃ s, (connections freeReturns).run start incidents = some s ∧ s.serves 6 = true ∧
      s.message = some .post :=
  ⟨_, rfl, rfl, rfl⟩

end TwoClients

theorem not_losesOnly_two_clients :
    ∃ s, (connections fun _ => true).run TwoClients.start TwoClients.incidents = some s ∧
      ¬ ∃ s', s.lost (fun _ => true) 6 noOthers noOthers AllLocked.blank 0 = some s' ∧
        LosesOnly s s' 6 := by
  obtain ⟨s, hrun, hserves, -⟩ := TwoClients.exists_run fun _ => true
  exact ⟨s, hrun, not_losesOnly _ hserves _ _ _ _⟩

/-- Whatever `free` does, the connection of the second client is not lost without damage. -/
theorem not_losesOnly_reachable :
    ¬ ∃ freeReturns : Nat → Bool, ∀ s, (connections freeReturns).Reachable s →
      ∀ conFd, s.serves conFd = true → ∀ (others again : Slot → Bool) (tmp : Record) (j : Int),
      ∃ s', s.lost freeReturns conFd others again tmp j = some s' ∧ LosesOnly s s' conFd := by
  rintro ⟨freeReturns, hloses⟩
  obtain ⟨s, hrun, hserves, hmessage⟩ := TwoClients.exists_run freeReturns
  have hreach : (connections freeReturns).Reachable s :=
    TransitionSystem.Reachable.run (.start (TwoClients.start_connections freeReturns)) _ hrun
  obtain ⟨s', hlost, honly⟩ := hloses s hreach 6 hserves noOthers noOthers AllLocked.blank 0
  have hexecuted := (executed_lost hlost).1
  rw [honly.executed, hmessage] at hexecuted
  simp at hexecuted

end Server

end Board

end SystemsProgramming
