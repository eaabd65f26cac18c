import Protofish4.Crypto
import Protofish4.Lib.Net
import Protofish4.Xfer.ReceiverRun
import Protofish4.Xfer.Sender

/-!
# One transfer over a lossy network

The two halves of a transfer with the sealing their callers do, as the two
parties of a network that may lose, duplicate, reorder and delay sealed
datagrams. The sending party seals each `emit` once and records the bytes
of payload packets; the receiving party opens, handles, and seals its
replies under its own control counter. A packet that fails to open or to
decode is dropped before any state changes.

Clock values are free: every operation brings its own.
-/

namespace Protofish4

open Net (Reaction Party Op)

/-- A datagram in flight, with the clock value it was sent at. -/
structure Sent where
  sentAt : Instant
  bytes : Bytes
  deriving DecidableEq

/-! ## The sending party -/

inductive TxAct where
  | pushFrame (ts : TimestampMs) (payload : Bytes) (now : Instant)
  | finish (now : Instant)
  | tick (now : Instant)
  deriving DecidableEq

/-- What can be seen of the sending party: its events, and what became of
the packets it was to seal. -/
inductive TxObs where
  | event (e : SendEvent)
  /-- The bytes went into the ring, which evicted so many entries. -/
  | recorded (seq : XferSeq) (datagram : Bytes) (evicted : Nat)
  /-- The body did not encode, so nothing was sent. -/
  | unsent (seq : XferSeq) (error : Error)
  deriving DecidableEq

section Parties

variable (key : SessionKey) (id : RequestId)

/-- Carry out one event: seal and send an `emit`, resend as told. -/
def transmit (now : Instant) (s : XferSender) : SendEvent → Reaction XferSender Sent TxObs
  | .emit seq body =>
    match sealBody key id .send seq.val body with
    | .error e => ⟨s, [.event (.emit seq body), .unsent seq e], []⟩
    | .ok d =>
      if body.kind = .data then
        let s' := s.recordSealed seq d
        ⟨s', [.event (.emit seq body),
          .recorded seq d (s.ring.entries.length + 1 - s'.ring.entries.length)], [⟨now, d⟩]⟩
      else ⟨s, [.event (.emit seq body)], [⟨now, d⟩]⟩
  | .resend ds => ⟨s, [.event (.resend ds)], ds.map (Sent.mk now)⟩
  | e => ⟨s, [.event e], []⟩

def transmitAll (now : Instant) : XferSender → List SendEvent → Reaction XferSender Sent TxObs
  | s, [] => ⟨s, [], []⟩
  | s, e :: es =>
    let q := transmit key id now s e
    let q' := transmitAll now q.state es
    ⟨q'.state, q.events ++ q'.events, q.sent ++ q'.sent⟩

def txParty : Party XferSender TxAct Instant Sent TxObs where
  act s
    | .pushFrame ts payload now =>
      transmitAll key id now (s.pushFrame ts payload now).1 (s.pushFrame ts payload now).2.toList
    | .finish now => transmitAll key id now (s.finish now).1 (s.finish now).2.toList
    | .tick now => transmitAll key id now (s.tick now).1 (s.tick now).2
  receive s now m :=
    match openBody key .recv m.bytes with
    | none => ⟨s, [], []⟩
    | some (_, body) => transmitAll key id now (s.handle body now).1 (s.handle body now).2

end Parties

/-! ## The receiving party -/

/-- A receiver with the control counter its replies are sealed under, and
the sink's own occupancy figure, if it reports one. -/
structure Rx where
  state : XferReceiver
  controlSeq : ControlSeq
  report : Option UInt16

inductive RxAct where
  | tick (now : Instant)
  | setBufferedMs (ms : Nat)
  | report (occupancy : Option UInt16)
  deriving DecidableEq

/-- One call on the receiver and the events it returned. -/
structure RxObs where
  call : RecvCall
  events : List RecvEvent
  deriving DecidableEq

namespace Rx

def new (cfg : ReceiverConfig) (now : Instant) : Rx where
  state := XferReceiver.new cfg now
  controlSeq := ControlSeq.first
  report := none

/-- The packet an event asks for. -/
def replyBody (y : Rx) : RecvEvent → Option Body
  | .sendNack missing => some (.nack missing)
  | .sendAck contiguous highest bufferedMs =>
    some (.ack contiguous highest (y.report.getD bufferedMs))
  | .sendEndAck => some .endAck
  | _ => none

section

variable (key : SessionKey) (id : RequestId)

/-- Seal the replies to these events; each takes a counter value, also one
that fails to encode. -/
def reply (now : Instant) : Rx → List RecvEvent → Rx × List Sent
  | y, [] => (y, [])
  | y, e :: es =>
    match y.replyBody e with
    | none => reply now y es
    | some body =>
      let p := reply now { y with controlSeq := y.controlSeq.next } es
      match sealBody key id .recv y.controlSeq.val body with
      | .ok d => (p.1, ⟨now, d⟩ :: p.2)
      | .error _ => p

def call (now : Instant) (y : Rx) (c : RecvCall) : Reaction Rx Sent RxObs :=
  let p := y.state.step c
  let q := reply key id now { y with state := p.1 } p.2
  ⟨q.1, [⟨c, p.2⟩], q.2⟩

end

end Rx

section Parties

variable (key : SessionKey) (id : RequestId)

def rxParty : Party Rx RxAct Instant Sent RxObs where
  act y
    | .tick now => y.call key id now (.tick now)
    | .setBufferedMs ms => y.call key id 0 (.setBufferedMs ms)
    | .report occupancy => ⟨{ y with report := occupancy }, [], []⟩
  receive y now m :=
    match openBody key .send m.bytes with
    | none => ⟨y, [], []⟩
    | some (seq, body) => y.call key id now (.handle seq body now)

end Parties

/-! ## The link -/

abbrev LinkOp := Op TxAct RxAct Instant Instant

abbrev LinkState := Net.State XferSender Rx Sent

abbrev LinkTrace := List (TxObs ⊕ RxObs)

/-- A new sender, a new receiver armed at `start`, nothing in flight. -/
def linkStart (scfg : SenderConfig) (rcfg : ReceiverConfig) (start : Instant) : LinkState :=
  Net.start (XferSender.new scfg) (Rx.new rcfg start)

/-- The run of a link. -/
def linkRun (key : SessionKey) (id : RequestId) (scfg : SenderConfig) (rcfg : ReceiverConfig)
    (start : Instant) (ops : List LinkOp) : LinkState × LinkTrace :=
  Net.run (txParty key id) (rxParty key id) (linkStart scfg rcfg start) ops

/-- The frame an event emits, if it emits one. -/
def TxObs.frame : TxObs → Option Frame
  | .event (.emit seq (.data ts payload)) => some ⟨seq, ts, payload⟩
  | _ => none

/-- The datagram handed to the ring, if one was. -/
def TxObs.record : TxObs → Option (XferSeq × Bytes)
  | .recorded seq datagram _ => some (seq, datagram)
  | _ => none

/-- The datagrams handed to the ring so far, in order. -/
def recordedIn (t : LinkTrace) : List (XferSeq × Bytes) := (Net.lefts t).filterMap TxObs.record

/-- The frames pushed at the sender so far, in order. -/
def pushed (t : LinkTrace) : List Frame := (Net.lefts t).filterMap TxObs.frame

/-- The calls made on the receiver so far. -/
def recvCalls (t : LinkTrace) : List RecvCall := (Net.rights t).map RxObs.call

/-- The events of the receiver so far. -/
def recvEvents (t : LinkTrace) : List RecvEvent := (Net.rights t).flatMap RxObs.events

@[simp] theorem pushed_append (t u : LinkTrace) : pushed (t ++ u) = pushed t ++ pushed u := by
  simp [pushed]

@[simp] theorem recordedIn_append (t u : LinkTrace) :
    recordedIn (t ++ u) = recordedIn t ++ recordedIn u := by
  simp [recordedIn]

@[simp] theorem recordedIn_inl (l : List TxObs) :
    recordedIn (l.map (.inl : TxObs → TxObs ⊕ RxObs)) = l.filterMap TxObs.record := by
  simp [recordedIn]

@[simp] theorem recordedIn_inr (l : List RxObs) :
    recordedIn (l.map (.inr : RxObs → TxObs ⊕ RxObs)) = [] := by
  simp [recordedIn]

@[simp] theorem recvCalls_append (t u : LinkTrace) :
    recvCalls (t ++ u) = recvCalls t ++ recvCalls u := by
  simp [recvCalls]

@[simp] theorem recvEvents_append (t u : LinkTrace) :
    recvEvents (t ++ u) = recvEvents t ++ recvEvents u := by
  simp [recvEvents]

@[simp] theorem pushed_inl (l : List TxObs) :
    pushed (l.map (.inl : TxObs → TxObs ⊕ RxObs)) = l.filterMap TxObs.frame := by
  simp [pushed]

@[simp] theorem pushed_inr (l : List RxObs) :
    pushed (l.map (.inr : RxObs → TxObs ⊕ RxObs)) = [] := by
  simp [pushed]

@[simp] theorem recvCalls_inl (l : List TxObs) :
    recvCalls (l.map (.inl : TxObs → TxObs ⊕ RxObs)) = [] := by
  simp [recvCalls]

@[simp] theorem recvEvents_inl (l : List TxObs) :
    recvEvents (l.map (.inl : TxObs → TxObs ⊕ RxObs)) = [] := by
  simp [recvEvents]

@[simp] theorem recvCalls_inr (l : List RxObs) :
    recvCalls (l.map (.inr : RxObs → TxObs ⊕ RxObs)) = l.map RxObs.call := by
  simp [recvCalls]

@[simp] theorem recvEvents_inr (l : List RxObs) :
    recvEvents (l.map (.inr : RxObs → TxObs ⊕ RxObs)) = l.flatMap RxObs.events := by
  simp [recvEvents]

/-! ## What the parties do -/

section Reactions

variable {key : SessionKey} {id : RequestId}

/-- What carrying out events that hand out no new frame comes to: the sender
is as it was, and what is put on the network is a packet of its own, or bytes
sent before. -/
structure SendsFrom (key : SessionKey) (id : RequestId) (now : Instant) (s : XferSender)
    (es : List SendEvent) (q : Reaction XferSender Sent TxObs) : Prop where
  state : q.state = s
  frames : q.events.filterMap TxObs.frame = []
  records : q.events.filterMap TxObs.record = []
  sent : ∀ m ∈ q.sent, m.sentAt = now
    ∧ ((∃ seq body, .emit seq body ∈ es ∧ sealBody key id .send seq.val body = .ok m.bytes)
      ∨ ∃ ds, .resend ds ∈ es ∧ m.bytes ∈ ds)

theorem transmit_sendsFrom (key : SessionKey) (id : RequestId) (now : Instant) (s : XferSender)
    (e : SendEvent) (h : ∀ seq body, .emit seq body ∈ [e] → body.kind ≠ .data) :
    SendsFrom key id now s [e] (transmit key id now s e) := by
  cases e with
  | emit seq body =>
    have hkind := h seq body List.mem_cons_self
    have hframe : TxObs.frame (.event (.emit seq body)) = none := by
      cases body <;> first | rfl | exact absurd rfl hkind
    simp only [transmit]
    split
    · -- a body that does not encode is logged and not sent
      refine ⟨rfl, ?_, rfl, fun _ hm => by cases hm⟩
      rw [List.filterMap_cons, hframe]
      rfl
    · rename_i d hd
      rw [if_neg hkind]
      refine ⟨rfl, by simp [hframe], rfl, fun m hm => ?_⟩
      cases List.mem_singleton.mp hm
      exact ⟨rfl, Or.inl ⟨seq, body, List.mem_cons_self, hd⟩⟩
  | resend ds =>
    refine ⟨rfl, rfl, rfl, fun m hm => ?_⟩
    obtain ⟨d, hd, rfl⟩ := List.mem_map.mp hm
    exact ⟨rfl, Or.inr ⟨ds, List.mem_cons_self, hd⟩⟩
  | completed => exact ⟨rfl, rfl, rfl, fun _ hm => by cases hm⟩
  | failed reason => exact ⟨rfl, rfl, rfl, fun _ hm => by cases hm⟩

theorem transmitAll_sendsFrom (key : SessionKey) (id : RequestId) (now : Instant) (s : XferSender)
    (es : List SendEvent) (h : ∀ seq body, .emit seq body ∈ es → body.kind ≠ .data) :
    SendsFrom key id now s es (transmitAll key id now s es) := by
  induction es with
  | nil => exact ⟨rfl, rfl, rfl, fun _ hm => by cases hm⟩
  | cons e es ih =>
    have hhead := transmit_sendsFrom key id now s e fun seq body he =>
      h seq body (List.mem_cons.mpr (Or.inl (List.mem_singleton.mp he)))
    have htail := ih fun seq body he => h seq body (List.mem_cons_of_mem _ he)
    simp only [transmitAll, hhead.state]
    refine ⟨htail.state, ?_, ?_, fun m hm => ?_⟩
    · rw [List.filterMap_append, hhead.frames, htail.frames]
      rfl
    · rw [List.filterMap_append, hhead.records, htail.records]
      rfl
    · rcases List.mem_append.mp hm with hm | hm
      · obtain ⟨hat, hm⟩ := hhead.sent m hm
        refine ⟨hat, ?_⟩
        rcases hm with ⟨seq, body, he, hd⟩ | ⟨ds, he, hd⟩
        · exact Or.inl ⟨seq, body, List.mem_cons.mpr (Or.inl (List.mem_singleton.mp he)), hd⟩
        · exact Or.inr ⟨ds, List.mem_cons.mpr (Or.inl (List.mem_singleton.mp he)), hd⟩
      · obtain ⟨hat, hm⟩ := htail.sent m hm
        refine ⟨hat, ?_⟩
        rcases hm with ⟨seq, body, he, hd⟩ | ⟨ds, he, hd⟩
        · exact Or.inl ⟨seq, body, List.mem_cons_of_mem _ he, hd⟩
        · exact Or.inr ⟨ds, List.mem_cons_of_mem _ he, hd⟩

/-- Every event is logged. -/
theorem event_mem_transmitAll (now : Instant) {s : XferSender} {es : List SendEvent}
    {e : SendEvent} (h : e ∈ es) : .event e ∈ (transmitAll key id now s es).events := by
  induction es generalizing s with
  | nil => cases h
  | cons e' es ih =>
    simp only [transmitAll]
    rcases List.mem_cons.mp h with rfl | h
    · apply List.mem_append_left
      cases e with
      | emit seq body =>
        simp only [transmit]
        split
        · simp
        · split <;> simp
      | resend | completed | failed => simp [transmit]
    · exact List.mem_append_right _ (ih h)

/-- Only the events handed in are logged. -/
theorem mem_of_event_mem_transmitAll {now : Instant} {s : XferSender} {es : List SendEvent}
    {e : SendEvent} (h : .event e ∈ (transmitAll key id now s es).events) : e ∈ es := by
  induction es generalizing s with
  | nil => cases h
  | cons e' es ih =>
    simp only [transmitAll] at h
    rcases List.mem_append.mp h with h | h
    · refine List.mem_cons.mpr (Or.inl ?_)
      cases e' with
      | emit seq body =>
        simp only [transmit] at h
        split at h
        · simpa using h
        · split at h <;> simpa using h
      | resend | completed | failed => simpa [transmit] using h
    · exact List.mem_cons_of_mem _ (ih h)

/-- A new frame is sealed, recorded and sent, or does not encode. -/
theorem transmitAll_data (key : SessionKey) (id : RequestId) (now : Instant) (s : XferSender)
    (seq : XferSeq) (ts : TimestampMs) (payload : Bytes) :
    (∃ e, (transmitAll key id now s [.emit seq (.data ts payload)]).events
        = [.event (.emit seq (.data ts payload)), .unsent seq e]
      ∧ (transmitAll key id now s [.emit seq (.data ts payload)]).state = s
      ∧ (transmitAll key id now s [.emit seq (.data ts payload)]).sent = [])
    ∨ ∃ d, sealBody key id .send seq.val (.data ts payload) = .ok d
      ∧ (transmitAll key id now s [.emit seq (.data ts payload)]).events
        = [.event (.emit seq (.data ts payload)), .recorded seq d
          (s.ring.entries.length + 1 - (s.recordSealed seq d).ring.entries.length)]
      ∧ (transmitAll key id now s [.emit seq (.data ts payload)]).state = s.recordSealed seq d
      ∧ (transmitAll key id now s [.emit seq (.data ts payload)]).sent = [⟨now, d⟩] := by
  simp only [transmitAll, transmit]
  split
  · rename_i e _
    exact Or.inl ⟨e, rfl, rfl, rfl⟩
  · rename_i d hd
    exact Or.inr ⟨d, hd, rfl, rfl, rfl⟩

/-- What carrying out the emission of a new frame comes to: the frame is
logged, at most the ring changes, and whatever is recorded or sent is that
frame, sealed. -/
structure Pushes (key : SessionKey) (id : RequestId) (s : XferSender) (frame : Frame)
    (q : Reaction XferSender Sent TxObs) : Prop where
  frames : q.events.filterMap TxObs.frame = [frame]
  notCompleted : .event .completed ∉ q.events
  state : q.state = { s with ring := q.state.ring }
  ring : q.state.ring = s.ring
    ∨ ∃ d, sealBody key id .send frame.seq.val (.data frame.ts frame.payload) = .ok d
      ∧ q.state.ring = s.ring.push frame.seq d
  sent : ∀ m ∈ q.sent,
    sealBody key id .send frame.seq.val (.data frame.ts frame.payload) = .ok m.bytes

theorem transmitAll_pushes (key : SessionKey) (id : RequestId) (now : Instant) (s : XferSender)
    (seq : XferSeq) (ts : TimestampMs) (payload : Bytes) : Pushes key id s ⟨seq, ts, payload⟩
      (transmitAll key id now s [.emit seq (.data ts payload)]) := by
  rcases transmitAll_data key id now s seq ts payload with
    ⟨e, he, hs, hsent⟩ | ⟨d, hd, he, hs, hsent⟩
  · refine ⟨by rw [he]; rfl, by simp [he], by rw [hs], Or.inl (by rw [hs]), fun m hm => ?_⟩
    rw [hsent] at hm
    cases hm
  · refine ⟨by rw [he]; rfl, by simp [he], by rw [hs]; rfl, Or.inr ⟨d, hd, by rw [hs]; rfl⟩,
      fun m hm => ?_⟩
    rw [hsent] at hm
    cases List.mem_singleton.mp hm
    exact hd

/-- The entries of the ring are sealed frames, the new one included. -/
theorem Pushes.sealed {s : XferSender} {frame : Frame} {q : Reaction XferSender Sent TxObs}
    (h : Pushes key id s frame q) {frames : List Frame} (hnew : frame ∈ frames)
    (hold : ∀ e ∈ s.ring.entries, ∃ f ∈ frames, e.1 = f.seq
      ∧ sealBody key id .send f.seq.val (.data f.ts f.payload) = .ok e.2) :
    ∀ e ∈ q.state.ring.entries, ∃ f ∈ frames, e.1 = f.seq
      ∧ sealBody key id .send f.seq.val (.data f.ts f.payload) = .ok e.2 := by
  intro e he
  rcases h.ring with hr | ⟨d, hd, hr⟩ <;> rw [hr] at he
  · exact hold e he
  · rcases RetransRing.mem_push he with he | rfl
    · exact hold e he
    · exact ⟨frame, hnew, rfl, hd⟩

namespace Rx

theorem reply_state (now : Instant) (y : Rx) (es : List RecvEvent) :
    (reply key id now y es).1.state = y.state := by
  induction es generalizing y with
  | nil => rfl
  | cons e es ih =>
    simp only [reply]
    split
    · exact ih y
    · split <;> exact ih _

theorem replyBody_congr {y y' : Rx} (h : y'.report = y.report) (e : RecvEvent) :
    y'.replyBody e = y.replyBody e := by
  cases e <;> simp [replyBody, h]

/-- Every reply is the sealed packet of one of the events. -/
theorem mem_reply {now : Instant} {y : Rx} {es : List RecvEvent} {m : Sent}
    (h : m ∈ (reply key id now y es).2) :
    m.sentAt = now ∧ ∃ e ∈ es, ∃ seq : UInt32, ∃ body, y.replyBody e = some body
      ∧ sealBody key id .recv seq body = .ok m.bytes := by
  induction es generalizing y with
  | nil => cases h
  | cons e es ih =>
    simp only [reply] at h
    split at h
    · obtain ⟨hat, e', he', hrest⟩ := ih h
      exact ⟨hat, e', List.mem_cons_of_mem _ he', hrest⟩
    · rename_i body hbody
      have hih : m ∈ (reply key id now { y with controlSeq := y.controlSeq.next } es).2 →
          m.sentAt = now ∧ ∃ e' ∈ e :: es, ∃ seq : UInt32, ∃ body, y.replyBody e' = some body
            ∧ sealBody key id .recv seq body = .ok m.bytes := by
        intro hm
        obtain ⟨hat, e', he', seq, b, hb, hs⟩ := ih hm
        rw [replyBody_congr (y := y) (by rfl)] at hb
        exact ⟨hat, e', List.mem_cons_of_mem _ he', seq, b, hb, hs⟩
      split at h
      · rename_i d hd
        rcases List.mem_cons.mp h with rfl | h
        · exact ⟨rfl, e, List.mem_cons_self, _, body, hbody, hd⟩
        · exact hih h
      · exact hih h

/-- What an event asks for goes out, if it encodes. -/
theorem exists_mem_reply {now : Instant} {y : Rx} {es : List RecvEvent} {e : RecvEvent}
    {body : Body} {plaintext : Bytes} (he : e ∈ es) (hbody : y.replyBody e = some body)
    (henc : encodeBody body = .ok plaintext) :
    ∃ m ∈ (reply key id now y es).2, m.sentAt = now
      ∧ ∃ seq : UInt32, sealBody key id .recv seq body = .ok m.bytes := by
  induction es generalizing y with
  | nil => cases he
  | cons e' es ih =>
    simp only [reply]
    rcases List.mem_cons.mp he with rfl | he
    · rw [hbody]
      obtain ⟨d, hd⟩ := @sealBody_isOk key id .recv y.controlSeq.val _ _ henc
      simp only [hd]
      exact ⟨⟨now, d⟩, List.mem_cons_self, rfl, _, hd⟩
    · split
      · exact ih he hbody
      · obtain ⟨m, hm, hrest⟩ := ih (y := { y with controlSeq := y.controlSeq.next }) he
          (by rw [replyBody_congr (y := y) (by rfl)]; exact hbody)
        split
        · exact ⟨m, List.mem_cons_of_mem _ hm, hrest⟩
        · exact ⟨m, hm, hrest⟩

theorem call_state (now : Instant) (y : Rx) (c : RecvCall) :
    (y.call key id now c).state.state = (y.state.step c).1 :=
  reply_state now _ _

end Rx

/-! ## The receiver inside the link -/

/-- The receiver's part of a link is the run of its own calls. -/
def Projects (rcfg : ReceiverConfig) (start : Instant) (t : LinkTrace) (y : Rx) : Prop :=
  XferReceiver.run rcfg start (recvCalls t) = (y.state, recvEvents t)

theorem Projects.call {rcfg : ReceiverConfig} {start : Instant} {t : LinkTrace} {y : Rx}
    (h : Projects rcfg start t y) (now : Instant) (c : RecvCall) :
    Projects rcfg start (t ++ (y.call key id now c).events.map .inr)
      (y.call key id now c).state := by
  unfold Projects XferReceiver.run at h ⊢
  rw [recvCalls_append, recvEvents_append, recvCalls_inr, recvEvents_inr, Rx.call_state]
  simp only [Rx.call, List.map_cons, List.map_nil, List.flatMap_cons, List.flatMap_nil,
    List.append_nil]
  rw [Machine.run_concat, h]
  rfl

/-- **Projection**: in every run of a link, state and events of the
receiver are those of the run of the calls made on it. -/
theorem projects_run (key : SessionKey) (id : RequestId) (scfg : SenderConfig)
    (rcfg : ReceiverConfig) (start : Instant) (ops : List LinkOp) :
    Projects rcfg start (linkRun key id scfg rcfg start ops).2
      (linkRun key id scfg rcfg start ops).1.right := by
  suffices h : Net.Inv (fun t _ y => Projects rcfg start t y) (fun _ _ _ _ => True)
      (fun _ _ _ _ => True) (linkRun key id scfg rcfg start ops).2
      (linkRun key id scfg rcfg start ops).1 from h.holds
  refine Net.run_safe (fun _ => True) (fun _ _ _ => trivial)
    ⟨rfl, fun _ _ => trivial, fun _ _ => trivial⟩ ?_ ?_ ?_ ?_ ops trivial
  · intro ops t x y i _ _ h
    refine ⟨?_, fun _ _ => trivial, fun _ _ => trivial, fun _ _ => trivial⟩
    simpa [Projects] using h
  · intro ops t x y i _ _ h
    refine ⟨?_, fun _ _ => trivial, fun _ _ => trivial, fun _ _ => trivial⟩
    cases i with
    | tick now => exact h.call now _
    | setBufferedMs ms => exact h.call 0 _
    | report occupancy => simpa [Projects, rxParty] using h
  · intro ops t x y n c keep m _ _ h _
    refine ⟨?_, fun _ _ => trivial, fun _ _ => trivial, fun _ _ => trivial⟩
    simpa [Projects] using h
  · intro ops t x y n c keep m _ _ h _
    refine ⟨?_, fun _ _ => trivial, fun _ _ => trivial, fun _ _ => trivial⟩
    simp only [rxParty]
    split
    · simpa [Projects] using h
    · exact h.call c _

/-- The invariant of a receiver's runs holds of the receiver in a link. -/
theorem recvInv_link (key : SessionKey) (id : RequestId) (scfg : SenderConfig)
    (rcfg : ReceiverConfig) (start : Instant) (ops : List LinkOp) :
    XferReceiver.RecvInv (recvCalls (linkRun key id scfg rcfg start ops).2)
      (linkRun key id scfg rcfg start ops).1.right.state
      (recvEvents (linkRun key id scfg rcfg start ops).2) := by
  have h := XferReceiver.recvInv_run rcfg start
    (recvCalls (linkRun key id scfg rcfg start ops).2)
  rwa [projects_run key id scfg rcfg start ops] at h

end Reactions

end Protofish4
