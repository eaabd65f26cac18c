import Protofish4.Crypto
import Protofish4.Xfer.Sender

/-!
# Sender

The tap side of the tokio binding (`sender.rs`): an `XferSender` with the
key, and the receive-and-tick loop around it. The socket is the
environment: a receive brings a datagram, fails or times out, a send
succeeds or fails, and `fault` says which send of a call is the first to
fail. A call also stops where its future is dropped while it waits for a
send, which leaves behind what a failure of that send does.
-/

namespace Protofish4

/-- A UDP address. -/
structure SocketAddr where
  ip : Bytes
  port : UInt16
  deriving DecidableEq

/-- The errors of `protofish4::Error` that the modelled functions return. -/
inductive CallError where
  | io
  | proto (e : Error)
  | duplicateRequest (id : RequestId)
  | noAck (peer : SocketAddr)
  | finalizeTimeout
  deriving DecidableEq

structure Sender where
  key : SessionKey
  requestId : RequestId
  state : XferSender
  peer : SocketAddr

namespace Sender

/-- What a call does besides changing the state. -/
inductive Effect where
  /-- An event of the state machine is taken up. -/
  | event (ev : SendEvent)
  | sealed (call : SealCall)
  /-- The datagram went out. -/
  | sent (datagram : Bytes)
  deriving DecidableEq

/-- A call that has come to its end: the state it left, what it did and
what it returned. -/
structure Done where
  state : Sender
  effects : List Effect
  result : Except CallError Unit

namespace Done

/-- Go on with `f` unless the call has failed. -/
def andThen (d : Done) (f : Sender → Done) : Done :=
  match d.result with
  | .ok () => ⟨(f d.state).state, d.effects ++ (f d.state).effects, (f d.state).result⟩
  | .error e => ⟨d.state, d.effects, .error e⟩

/-- The same call, after one more effect. -/
def after (x : Effect) (d : Done) : Done := { d with effects := x :: d.effects }

end Done

/-- A sender connected to `peer`. -/
def connect (peer : SocketAddr) (requestId : RequestId) (key : SessionKey) (cfg : SenderConfig) :
    Sender where
  key := key
  requestId := requestId
  state := XferSender.new cfg
  peer := peer

/-- Encode, seal and send one packet, and keep a payload packet's bytes. -/
def emit (s : Sender) (fault : Option Nat) (seq : XferSeq) (body : Body) : Done :=
  match encodeBody body with
  | .error e => ⟨s, [], .error (.proto e)⟩
  | .ok plaintext =>
    let call := SealCall.run s.key ⟨body.kind, s.requestId, seq.val⟩ .send plaintext
    match call.result with
    | .error e => ⟨s, [.sealed call], .error (.proto e)⟩
    | .ok sealed =>
      if fault = some 0 then ⟨s, [.sealed call], .error .io⟩
      else
        ⟨if body.kind = .data then { s with state := s.state.recordSealed seq sealed } else s,
          [.sealed call, .sent sealed], .ok ()⟩

/-- Send these bytes again, as they are. -/
def resend (s : Sender) (fault : Option Nat) (datagrams : List Bytes) : Done :=
  match fault with
  | none => ⟨s, datagrams.map .sent, .ok ()⟩
  | some n =>
    if n < datagrams.length then ⟨s, (datagrams.take n).map .sent, .error .io⟩
    else ⟨s, datagrams.map .sent, .ok ()⟩

/-- The number of sends an event asks for. -/
def sendsOf : SendEvent → Nat
  | .emit .. => 1
  | .resend datagrams => datagrams.length
  | .completed | .failed _ => 0

/-- One round of `dispatch`'s loop. -/
def dispatchOne (s : Sender) (fault : Option Nat) : SendEvent → Done
  | .emit seq body => s.emit fault seq body
  | .resend datagrams => s.resend fault datagrams
  | .completed => ⟨s, [], .ok ()⟩
  | .failed .noAck => ⟨s, [], .error (.noAck s.peer)⟩
  | .failed .finalizeTimeout => ⟨s, [], .error .finalizeTimeout⟩

def dispatch (s : Sender) (fault : Option Nat) : List SendEvent → Done
  | [] => ⟨s, [], .ok ()⟩
  | ev :: evs => ((s.dispatchOne fault ev).after (.event ev)).andThen fun s =>
      s.dispatch (fault.map (· - sendsOf ev)) evs

/-- The size of the receive buffer; a longer datagram is cut off. -/
def bufLen : Nat := 2048

/-- What `socket.recv` comes back with. -/
inductive Incoming where
  | datagram (bytes : Bytes)
  | failed
  | timeout
  deriving DecidableEq

/-- The packet in a received datagram, if it opens and decodes. -/
def packetOf (key : SessionKey) : Incoming → Option Body
  | .datagram bytes => (openBody key .recv (bytes.take bufLen)).map (·.2)
  | .failed | .timeout => none

/-- The last line of `pump_once`. -/
def tickOnce (s : Sender) (now : Instant) (fault : Option Nat) : Done :=
  dispatch { s with state := (s.state.tick now).1 } fault (s.state.tick now).2

/-- The first half of `pump_once`: handle what has arrived. -/
def handleOnce (s : Sender) (incoming : Incoming) (now : Instant) (fault : Option Nat) : Done :=
  if incoming = .failed then ⟨s, [], .error .io⟩
  else
    match packetOf s.key incoming with
    | none => ⟨s, [], .ok ()⟩
    | some body =>
      dispatch { s with state := (s.state.handle body now).1 } fault (s.state.handle body now).2

/-- One step of the receive-and-tick loop. -/
def pumpOnce (s : Sender) (incoming : Incoming) (now tickNow : Instant)
    (fault tickFault : Option Nat) : Done :=
  (s.handleOnce incoming now fault).andThen fun s => s.tickOnce tickNow tickFault

/-- The part of `send_frame`'s loop before the `pump_once`. -/
def pushOnce (s : Sender) (ts : TimestampMs) (payload : Bytes) (now : Instant)
    (fault : Option Nat) : Done :=
  dispatch { s with state := (s.state.pushFrame ts payload now).1 } fault
    (s.state.pushFrame ts payload now).2.toList

/-- The part of `finish` before its loop. -/
def finishOnce (s : Sender) (now : Instant) (fault : Option Nat) : Done :=
  dispatch { s with state := (s.state.finish now).1 } fault (s.state.finish now).2.toList

/-- The steps `send_frame` and `finish` are made of; a caller may go on
after a failure. -/
inductive Step where
  | push (ts : TimestampMs) (payload : Bytes) (now : Instant) (fault : Option Nat)
  | finish (now : Instant) (fault : Option Nat)
  | pump (incoming : Incoming) (now tickNow : Instant) (fault tickFault : Option Nat)
  deriving DecidableEq

def step (s : Sender) : Step → Done
  | .push ts payload now fault => s.pushOnce ts payload now fault
  | .finish now fault => s.finishOnce now fault
  | .pump incoming now tickNow fault tickFault => s.pumpOnce incoming now tickNow fault tickFault

/-- A run of steps, with all they did. -/
def run (s : Sender) (steps : List Step) : Sender × List Effect :=
  Machine.run (fun s x => ((step s x).state, (step s x).effects)) s steps

/-! ## What a step can do to the state -/

/-- `s'` is `s` after some calls on its state machine. -/
structure Follows (s s' : Sender) : Prop where
  key : s'.key = s.key
  requestId : s'.requestId = s.requestId
  peer : s'.peer = s.peer
  calls : ∃ calls, s'.state = (Machine.run XferSender.step s.state calls).1

namespace Follows

variable {s s' s'' : Sender}

theorem refl (s : Sender) : Follows s s := ⟨rfl, rfl, rfl, [], rfl⟩

theorem trans (h : Follows s s') (h' : Follows s' s'') : Follows s s'' := by
  obtain ⟨calls, hc⟩ := h.calls
  obtain ⟨calls', hc'⟩ := h'.calls
  refine ⟨h'.key.trans h.key, h'.requestId.trans h.requestId, h'.peer.trans h.peer,
    calls ++ calls', ?_⟩
  rw [hc', hc, Machine.run_append, Machine.andThen_fst]

/-- One call on the state machine. -/
theorem call (s : Sender) (c : SendCall) : Follows s { s with state := (s.state.step c).1 } :=
  ⟨rfl, rfl, rfl, [c], by rw [Machine.run_singleton]⟩

theorem andThen {d : Done} {f : Sender → Done} (h : Follows s d.state)
    (hf : ∀ s, Follows s (f s).state) : Follows s (d.andThen f).state := by
  unfold Done.andThen
  split
  · exact h.trans (hf d.state)
  · exact h

/-- An invariant of the state machine holds on. -/
theorem keeps (h : Follows s s') (P : XferSender → Prop) (hP : ∀ x c, P x → P (x.step c).1)
    (hs : P s.state) : P s'.state := by
  obtain ⟨calls, hc⟩ := h.calls
  rw [hc]
  exact Machine.run_invariant _ P hs hP calls

end Follows

theorem dispatchOne_follows (s : Sender) (fault : Option Nat) (ev : SendEvent) :
    Follows s (s.dispatchOne fault ev).state := by
  cases ev with
  | emit seq body =>
    simp only [dispatchOne, emit]
    split
    · exact Follows.refl s
    · split
      · exact Follows.refl s
      · split
        · exact Follows.refl s
        · split
          · exact Follows.call s (.recordSealed seq _)
          · exact Follows.refl s
  | resend datagrams =>
    simp only [dispatchOne, resend]
    split
    · exact Follows.refl s
    · split <;> exact Follows.refl s
  | completed => exact Follows.refl s
  | failed reason => cases reason <;> exact Follows.refl s

theorem dispatch_follows (s : Sender) (fault : Option Nat) (evs : List SendEvent) :
    Follows s (s.dispatch fault evs).state := by
  induction evs generalizing s fault with
  | nil => exact Follows.refl s
  | cons ev evs ih =>
    exact Follows.andThen (d := (s.dispatchOne fault ev).after (.event ev))
      (s.dispatchOne_follows fault ev) fun s => ih s _

theorem handleOnce_follows (s : Sender) (incoming : Incoming) (now : Instant)
    (fault : Option Nat) : Follows s (s.handleOnce incoming now fault).state := by
  unfold handleOnce
  split
  · exact Follows.refl s
  · split
    · exact Follows.refl s
    · rename_i body _
      exact (Follows.call s (.handle body now)).trans (dispatch_follows _ fault _)

theorem tickOnce_follows (s : Sender) (now : Instant) (fault : Option Nat) :
    Follows s (s.tickOnce now fault).state :=
  (Follows.call s (.tick now)).trans (dispatch_follows _ fault _)

theorem step_follows (s : Sender) (x : Step) : Follows s (s.step x).state := by
  cases x with
  | push ts payload now fault =>
    exact (Follows.call s (.pushFrame ts payload now)).trans (dispatch_follows _ fault _)
  | finish now fault => exact (Follows.call s (.finish now)).trans (dispatch_follows _ fault _)
  | pump incoming now tickNow fault tickFault =>
    exact (s.handleOnce_follows incoming now fault).andThen fun s =>
      s.tickOnce_follows tickNow tickFault

theorem run_singleton (s : Sender) (x : Step) :
    s.run [x] = ((s.step x).state, (s.step x).effects) := Machine.run_singleton _ s x

theorem run_append (s : Sender) (xs ys : List Step) : s.run (xs ++ ys)
    = ((Sender.run (s.run xs).1 ys).1, (s.run xs).2 ++ (Sender.run (s.run xs).1 ys).2) :=
  Machine.run_append _ s xs ys

theorem run_follows (s : Sender) (steps : List Step) : Follows s (s.run steps).1 :=
  Machine.run_invariant _ (Follows s) (.refl s) (fun s' x h => h.trans (s'.step_follows x)) steps

end Sender

end Protofish4
