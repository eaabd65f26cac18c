import Protofish4.Tokio.Waiting

/-!
# What `send_frame` reads

`send_frame` looks at its socket only in the wait loop, and only as long
as the window is closed. Which of the control datagrams that wait when a
call starts are read in that call is therefore up to the window: to what
the sender knows when the call starts, and to what those datagrams say.
-/

namespace Protofish4

namespace Sender

open XferSender (Due Still)

/-- The packet in a datagram, if it opens and decodes. -/
def controlOf (key : SessionKey) (d : Bytes) : Option Body := packetOf key (.datagram d)

/-- The send that fails, if one does, is none of these. -/
def Sendable (fault : Option Nat) (evs : List SendEvent) : Prop :=
  ∀ n, fault = some n → (evs.map sendsOf).sum ≤ n

/-- The packet of a round, handled. -/
def takeIn (key : SessionKey) (x : XferSender) (r : Round) : XferSender × List SendEvent :=
  match packetOf key r.incoming with
  | none => (x, [])
  | some body => x.handle body r.now

/-- The state machine after these rounds: in each its packet is handled and
the timers are driven. -/
def afterRounds (key : SessionKey) (x : XferSender) (rounds : List Round) : XferSender :=
  rounds.foldl (fun x r => ((takeIn key x r).1.tick r.tickNow).1) x

/-- Something is received, or the wait for it is over, and what it asks for
is sent. -/
def Received (key : SessionKey) (x : XferSender) (r : Round) : Prop :=
  r.incoming ≠ .failed ∧ Sendable r.fault (takeIn key x r).2

/-- No timer gives up, and a keepalive that is due is sent. -/
def Ticked (key : SessionKey) (x : XferSender) (r : Round) : Prop :=
  ¬ Due (takeIn key x r).1 r.tickNow
    ∧ Sendable r.tickFault ((takeIn key x r).1.tick r.tickNow).2

/-- The state machine after this datagram has been passed to `handle`, which
does not look at the clock. -/
def hear (key : SessionKey) (x : XferSender) (d : Bytes) : XferSender :=
  match controlOf key d with
  | none => x
  | some body => (x.handle body 0).1

/-- The state machine after these datagrams. -/
def heard (key : SessionKey) (x : XferSender) (waiting : List Bytes) : XferSender :=
  waiting.foldl (hear key) x

/-- What waits at place `i` is reached in the call: neither what the sender
knows when the call starts nor what waits before it opens the window, and
the rounds up to it go through. -/
structure Reached (s : Sender) (waiting : List Bytes) (rounds : List Round) (i : Nat) : Prop where
  shut : ∀ k ≤ i, k < rounds.length →
    (heard s.key s.state (waiting.take k)).canSend = false
  received : ∀ k ≤ i, ∀ r, rounds[k]? = some r →
    Received s.key (afterRounds s.key s.state (rounds.take k)) r
  ticked : ∀ k < i, ∀ r, rounds[k]? = some r →
    Ticked s.key (afterRounds s.key s.state (rounds.take k)) r

/-- A `send_frame` call, with the datagrams that wait in the socket's
receive queue when it starts. -/
structure FrameCall where
  waiting : List Bytes
  ts : TimestampMs
  payload : Bytes
  rounds : List Round

namespace FrameCall

def call (c : FrameCall) : Call := .sendFrame c.ts c.payload c.rounds

end FrameCall

end Sender

end Protofish4
