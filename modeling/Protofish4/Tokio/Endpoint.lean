import Protofish4.Lib.Assoc
import Protofish4.Tokio.Sender
import Protofish4.Xfer.Receiver

/-!
# Endpoint

The sink side of the tokio binding (`receiver.rs`): one entry a request
with its `XferReceiver`, its peer and its control counter, and the endpoint
that routes datagrams to entries by request id. Every function that holds
the entries lock is one step. What runs after the lock has been dropped is
a step of its own: the removal of a finished entry, which goes by request
id alone.

The clock readings and the state of the channels to the application are
the environment: a step is given what `Instant::now` and `try_send` answer
in it.
-/

namespace Protofish4

/-! ## The play head -/

/-- Where playback has reached, as told to the endpoint. -/
structure BufferFeedback where
  playheadMs : Nat
  /-- When `playheadMs` was last written, in milliseconds since `epoch`. -/
  writtenAtMs : Nat
  epoch : Instant
  deriving DecidableEq

namespace BufferFeedback

def new (now : Instant) : BufferFeedback := ⟨0, 0, now⟩

def setPlayheadMs (b : BufferFeedback) (ms : Nat) (now : Instant) : BufferFeedback :=
  { b with playheadMs := ms, writtenAtMs := durationSince now b.epoch / fromMillis 1 }

/-- The play head reported, if it was reported within `ttl`. -/
def freshPlayheadMs (b : BufferFeedback) (now : Instant) (ttl : Duration) : Option Nat :=
  if durationSince now (b.epoch + fromMillis b.writtenAtMs) > ttl then none
  else some b.playheadMs

end BufferFeedback

/-- `BUFFER_REPORT_TTL`. -/
def bufferReportTtl : Duration := fromSecs 2

/-- `DROP_WARN_INTERVAL`. -/
def dropWarnInterval : Duration := fromSecs 5

/-- The occupancy to put in an acknowledgement. -/
def ackBufferedMs (feedback : BufferFeedback) (stateMs : UInt16) (newestDataMs : Nat)
    (now : Instant) : UInt16 :=
  match feedback.freshPlayheadMs now bufferReportTtl with
  | some playhead => UInt16.ofNat (min (newestDataMs - playhead) 65535)
  | none => stateMs

/-! ## One entry -/

structure Entry where
  key : SessionKey
  state : XferReceiver
  /-- Learned from the first datagram and then fixed. -/
  peer : Option SocketAddr
  controlSeq : ControlSeq
  /-- Whether `outcome_tx` is still there to be taken. -/
  outcomeTx : Bool
  feedback : BufferFeedback
  /-- Timestamp of the newest playback frame received. -/
  newestDataMs : Nat
  droppedUnrel : Nat
  lastDropWarn : Option Instant

/-- What the application and the clock answer while events are applied. -/
structure Around where
  /-- `try_send` on the playback channel finds room. -/
  unrelRoom : Bool
  /-- The consumer of the reliable stream has not hung up. -/
  relOpen : Bool
  /-- `Instant::now` for a dropped frame, and for an acknowledgement. -/
  warnNow : Instant
  ackNow : Instant
  deriving DecidableEq

namespace Entry

def new (key : SessionKey) (cfg : ReceiverConfig) (now : Instant) : Entry where
  key := key
  state := XferReceiver.new cfg now
  peer := none
  controlSeq := ControlSeq.first
  outcomeTx := true
  feedback := BufferFeedback.new now
  newestDataMs := 0
  droppedUnrel := 0
  lastDropWarn := none

/-- What applying events does besides changing the entry. -/
inductive Effect where
  | unrel (frame : Frame) (delivered : Bool)
  | rel (frame : Frame) (delivered : Bool)
  | outcome (outcome : RelOutcome)
  | sealed (call : SealCall)
  /-- A warning that so many playback frames have been dropped. -/
  | warned (dropped : Nat)
  deriving DecidableEq

/-- What applying events left, did, and wants sent to the peer. -/
structure Applied where
  entry : Entry
  effects : List Effect
  out : List Bytes

/-- Take a counter value, encode and seal; a packet that fails to encode or
to seal is dropped, its counter value is not reused. -/
def «seal» (e : Entry) (id : RequestId) (body : Body) : Applied :=
  let header : Header := ⟨body.kind, id, e.controlSeq.val⟩
  let e := { e with controlSeq := e.controlSeq.next }
  match encodeBody body with
  | .error _ => ⟨e, [], []⟩
  | .ok plaintext =>
    let call := SealCall.run e.key header .recv plaintext
    ⟨e, [.sealed call], match call.result with
      | .ok sealed => [sealed]
      | .error _ => []⟩

/-- The newest timestamp, this frame's counted. -/
def noteTimestamp (e : Entry) (f : Frame) : Entry :=
  { e with newestDataMs := max e.newestDataMs f.ts.val.toNat }

/-- Hand a frame to playback, or count it as dropped. -/
def deliverUnrel (e : Entry) (around : Around) (f : Frame) : Applied :=
  if around.unrelRoom then ⟨e, [.unrel f true], []⟩
  else
    let e := { e with droppedUnrel := e.droppedUnrel + 1 }
    if e.lastDropWarn.all fun last => durationSince around.warnNow last ≥ dropWarnInterval then
      ⟨{ e with lastDropWarn := some around.warnNow },
        [.unrel f false, .warned e.droppedUnrel], []⟩
    else ⟨e, [.unrel f false], []⟩

/-- One round of `apply`'s loop. -/
def applyOne (e : Entry) (id : RequestId) (around : Around) : RecvEvent → Applied
  | .unreliable f => (e.noteTimestamp f).deliverUnrel around f
  | .reliable f => ⟨e.noteTimestamp f, [.rel f around.relOpen], []⟩
  | .sendNack missing => e.seal id (.nack missing)
  | .sendAck contiguous highest bufferedMs =>
    e.seal id (.ack contiguous highest
      (ackBufferedMs e.feedback bufferedMs e.newestDataMs around.ackNow))
  | .sendEndAck => e.seal id .endAck
  | .relFinished outcome =>
    ⟨{ e with outcomeTx := false }, if e.outcomeTx then [.outcome outcome] else [], []⟩
  | .closed => ⟨e, [], []⟩

/-- Turn state-machine events into datagrams and channel sends. -/
def apply (e : Entry) (id : RequestId) (around : Around) : List RecvEvent → Applied
  | [] => ⟨e, [], []⟩
  | ev :: evs =>
    let p := e.applyOne id around ev
    let q := p.entry.apply id around evs
    ⟨q.entry, p.effects ++ q.effects, p.out ++ q.out⟩

/-- Pin the peer to the source of the first datagram that opened. -/
def pin (e : Entry) (source : SocketAddr) : Entry :=
  { e with peer := some (e.peer.getD source) }

/-- The locked part of `on_datagram`, once the entry has been found. -/
def onDatagram (e : Entry) (id : RequestId) (datagram : Bytes) (source : SocketAddr)
    (now : Instant) (around : Around) : Applied :=
  match openBody e.key .send datagram with
  | none => ⟨e, [], []⟩
  | some (seq, body) =>
    let e := e.pin source
    { e with state := (e.state.handle seq body now).1 }.apply id around
      (e.state.handle seq body now).2

/-- What `Endpoint::tick` does with one entry. -/
def tick (e : Entry) (id : RequestId) (now : Instant) (around : Around) : Applied :=
  { e with state := (e.state.tick now).1 }.apply id around (e.state.tick now).2

/-- What can happen to one entry while it is armed. -/
inductive Step where
  | datagram (bytes : Bytes) (source : SocketAddr) (now : Instant) (around : Around)
  | tick (now : Instant) (around : Around)
  | setPlayheadMs (ms : Nat) (now : Instant)

def step (e : Entry) (id : RequestId) : Step → Applied
  | .datagram bytes source now around => e.onDatagram id bytes source now around
  | .tick now around => e.tick id now around
  | .setPlayheadMs ms now => ⟨{ e with feedback := e.feedback.setPlayheadMs ms now }, [], []⟩

end Entry

/-! ## The endpoint -/

/-- The entries, and the removals by request id that are under way:
those of `on_datagram` after it has dropped the lock, and those that a
dropped `ArmedRequest` has spawned. -/
structure Endpoint where
  entries : AList fun _ : RequestId => Entry
  disarms : List RequestId

namespace Endpoint

inductive Effect where
  | entry (id : RequestId) (effect : Entry.Effect)
  /-- A datagram handed to the socket; `let _ =` ignores a failure. -/
  | sent (peer : SocketAddr) (datagram : Bytes)
  deriving DecidableEq

def bind : Endpoint := ⟨∅, []⟩

/-- Replies go to the pinned peer, if there is one. -/
def replies (peer : Option SocketAddr) (out : List Bytes) : List Effect :=
  match peer with
  | none => []
  | some peer => out.map (.sent peer)

/-- What an application of events to the entry of `id` does in all. -/
def effectsOf (id : RequestId) (p : Entry.Applied) : List Effect :=
  p.effects.map (.entry id) ++ replies p.entry.peer p.out

/-- Register a request. -/
def arm (s : Endpoint) (id : RequestId) (key : SessionKey) (cfg : ReceiverConfig) (now : Instant) :
    Endpoint × Except CallError Unit :=
  if (s.entries.lookup id).isSome then (s, .error (.duplicateRequest id))
  else ({ s with entries := s.entries.insert id (Entry.new key cfg now) }, .ok ())

/-- An `ArmedRequest` is dropped: its removal is spawned. -/
def dropArmed (s : Endpoint) (id : RequestId) : Endpoint := { s with disarms := s.disarms ++ [id] }

/-- One of the removals under way takes the lock. -/
def disarm (s : Endpoint) (n : Nat) : Endpoint :=
  match s.disarms[n]? with
  | none => s
  | some id => { entries := s.entries.erase id, disarms := s.disarms.eraseIdx n }

/-- `on_datagram` up to its last line; the removal of a finished entry is
left under way. -/
def onDatagram (s : Endpoint) (datagram : Bytes) (source : SocketAddr) (now : Instant)
    (around : Around) : Endpoint × List Effect :=
  match requestIdOf datagram with
  | .error _ => (s, [])
  | .ok id =>
    match s.entries.lookup id with
    | none => (s, [])
    | some e =>
      let p := e.onDatagram id datagram source now around
      ({ entries := s.entries.replace id p.entry
         disarms := if p.entry.state.closed ∧ (openBody e.key .send datagram).isSome then
            s.disarms ++ [id] else s.disarms }, effectsOf id p)

/-- The loop of `tick`: the entries, what was done, and the finished ids. -/
def tickLoop (now : Instant) (around : RequestId → Around) :
    List RequestId → (AList fun _ : RequestId => Entry) →
      (AList fun _ : RequestId => Entry) × List Effect × List RequestId
  | [], entries => (entries, [], [])
  | id :: ids, entries =>
    match entries.lookup id with
    | none => tickLoop now around ids entries
    | some e =>
      let p := e.tick id now (around id)
      let q := tickLoop now around ids (entries.replace id p.entry)
      (q.1, effectsOf id p ++ q.2.1, if p.entry.state.closed then id :: q.2.2 else q.2.2)

/-- Drive timers for every live transfer. -/
def tick (s : Endpoint) (now : Instant) (around : RequestId → Around) : Endpoint × List Effect :=
  let q := tickLoop now around s.entries.keys s.entries
  ({ s with entries := q.2.2.foldl (fun entries id => entries.erase id) q.1 }, q.2.1)

/-- The application reports its play head. -/
def setPlayheadMs (s : Endpoint) (id : RequestId) (ms : Nat) (now : Instant) : Endpoint :=
  match s.entries.lookup id with
  | none => s
  | some e =>
    { s with
      entries := s.entries.replace id { e with feedback := e.feedback.setPlayheadMs ms now } }

/-- Everything that can happen to an endpoint. -/
inductive Step where
  | arm (id : RequestId) (key : SessionKey) (cfg : ReceiverConfig) (now : Instant)
  | dropArmed (id : RequestId)
  | disarm (n : Nat)
  | datagram (bytes : Bytes) (source : SocketAddr) (now : Instant) (around : Around)
  | tick (now : Instant) (around : RequestId → Around)
  | setPlayheadMs (id : RequestId) (ms : Nat) (now : Instant)

def step (s : Endpoint) : Step → Endpoint × List Effect
  | .arm id key cfg now => ((s.arm id key cfg now).1, [])
  | .dropArmed id => (s.dropArmed id, [])
  | .disarm n => (s.disarm n, [])
  | .datagram bytes source now around => s.onDatagram bytes source now around
  | .tick now around => s.tick now around
  | .setPlayheadMs id ms now => (s.setPlayheadMs id ms now, [])

def run (s : Endpoint) (steps : List Step) : Endpoint × List Effect := Machine.run step s steps

end Endpoint

/-! ## What a step can do to an entry -/

namespace Entry

/-- `e'` is the entry `e` after some calls on its receiver. -/
structure Follows (e e' : Entry) : Prop where
  key : e'.key = e.key
  peer : e.peer.isSome → e'.peer = e.peer
  calls : ∃ calls, e'.state = (Machine.run XferReceiver.step e.state calls).1

namespace Follows

variable {e e' e'' : Entry}

theorem refl (e : Entry) : Follows e e := ⟨rfl, fun _ => rfl, [], rfl⟩

theorem trans (h : Follows e e') (h' : Follows e' e'') : Follows e e'' := by
  obtain ⟨calls, hc⟩ := h.calls
  obtain ⟨calls', hc'⟩ := h'.calls
  refine ⟨h'.key.trans h.key, fun hp => ?_, calls ++ calls', ?_⟩
  · rw [h'.peer (by rwa [h.peer hp]), h.peer hp]
  · rw [hc', hc, Machine.run_append, Machine.andThen_fst]

/-- An invariant of the receiver holds on. -/
theorem keeps (h : Follows e e') (P : XferReceiver → Prop) (hP : ∀ r c, P r → P (r.step c).1)
    (he : P e.state) : P e'.state := by
  obtain ⟨calls, hc⟩ := h.calls
  rw [hc]
  exact Machine.run_invariant _ P he hP calls

end Follows

theorem applyOne_frame (e : Entry) (id : RequestId) (around : Around) (ev : RecvEvent) :
    (e.applyOne id around ev).entry.state = e.state
      ∧ (e.applyOne id around ev).entry.key = e.key
      ∧ (e.applyOne id around ev).entry.peer = e.peer := by
  have hseal : ∀ body, (e.seal id body).entry.state = e.state
      ∧ (e.seal id body).entry.key = e.key ∧ (e.seal id body).entry.peer = e.peer := by
    intro body
    simp only [«seal»]
    split <;> exact ⟨rfl, rfl, rfl⟩
  cases ev with
  | unreliable f =>
    simp only [applyOne, deliverUnrel]
    split
    · exact ⟨rfl, rfl, rfl⟩
    · split <;> exact ⟨rfl, rfl, rfl⟩
  | sendNack missing => exact hseal _
  | sendAck contiguous highest bufferedMs => exact hseal _
  | sendEndAck => exact hseal _
  | reliable | relFinished | closed => exact ⟨rfl, rfl, rfl⟩

/-- Applying events leaves the receiver, the key and the peer alone. -/
theorem apply_frame (e : Entry) (id : RequestId) (around : Around) (evs : List RecvEvent) :
    (e.apply id around evs).entry.state = e.state
      ∧ (e.apply id around evs).entry.key = e.key
      ∧ (e.apply id around evs).entry.peer = e.peer := by
  induction evs generalizing e with
  | nil => exact ⟨rfl, rfl, rfl⟩
  | cons ev evs ih =>
    obtain ⟨hs, hk, hp⟩ := e.applyOne_frame id around ev
    obtain ⟨hs', hk', hp'⟩ := ih (e.applyOne id around ev).entry
    exact ⟨hs'.trans hs, hk'.trans hk, hp'.trans hp⟩

/-- The events of one call, applied. -/
theorem apply_follows (e : Entry) (c : RecvCall) (id : RequestId) (around : Around) :
    Follows e (Entry.apply { e with state := (e.state.step c).1 } id around
      (e.state.step c).2).entry := by
  obtain ⟨hs, hk, hp⟩ := Entry.apply_frame { e with state := (e.state.step c).1 } id around
    (e.state.step c).2
  exact ⟨hk, fun _ => hp, [c], by rw [hs, Machine.run_singleton]⟩

theorem pin_follows (e : Entry) (source : SocketAddr) : Follows e (e.pin source) := by
  refine ⟨rfl, fun hp => ?_, [], rfl⟩
  obtain ⟨peer, hpeer⟩ := Option.isSome_iff_exists.mp hp
  simp [pin, hpeer]

theorem onDatagram_follows (e : Entry) (id : RequestId) (datagram : Bytes) (source : SocketAddr)
    (now : Instant) (around : Around) :
    Follows e (e.onDatagram id datagram source now around).entry := by
  unfold onDatagram
  split
  · exact Follows.refl e
  · rename_i seq body _
    exact (e.pin_follows source).trans
      (apply_follows (e.pin source) (.handle seq body now) id around)

theorem tick_follows (e : Entry) (id : RequestId) (now : Instant) (around : Around) :
    Follows e (e.tick id now around).entry :=
  apply_follows e (.tick now) id around

end Entry

namespace Endpoint

/-- Every entry of the second map is one of the first, some calls later. -/
def EntriesFollow (m m' : AList fun _ : RequestId => Entry) : Prop :=
  ∀ id e', m'.lookup id = some e' → ∃ e, m.lookup id = some e ∧ Entry.Follows e e'

namespace EntriesFollow

variable {m m' m'' : AList fun _ : RequestId => Entry}

theorem refl (m : AList fun _ : RequestId => Entry) : EntriesFollow m m :=
  fun _ e' h => ⟨e', h, Entry.Follows.refl e'⟩

theorem trans (h : EntriesFollow m m') (h' : EntriesFollow m' m'') : EntriesFollow m m'' := by
  intro id e'' he''
  obtain ⟨e', he', hf'⟩ := h' id e'' he''
  obtain ⟨e, he, hf⟩ := h id e' he'
  exact ⟨e, he, hf.trans hf'⟩

theorem replace {id : RequestId} {e e' : Entry} (he : m.lookup id = some e)
    (hf : Entry.Follows e e') : EntriesFollow m (m.replace id e') := by
  intro id' e'' h
  by_cases hid : id' = id
  · subst hid
    rw [Assoc.lookup_replace _ he] at h
    cases h
    exact ⟨e, he, hf⟩
  · rw [Assoc.lookup_replace_ne _ hid] at h
    exact ⟨e'', h, Entry.Follows.refl e''⟩

theorem erase (m : AList fun _ : RequestId => Entry) (id : RequestId) :
    EntriesFollow m (m.erase id) :=
  fun _ e' h => ⟨e', Assoc.lookup_of_erase h, Entry.Follows.refl e'⟩

theorem eraseAll (m : AList fun _ : RequestId => Entry) (ids : List RequestId) :
    EntriesFollow m (ids.foldl (fun m id => m.erase id) m) :=
  fun _ e' h => ⟨e', Assoc.lookup_of_foldl_erase ids m h, Entry.Follows.refl e'⟩

end EntriesFollow

theorem tickLoop_follows (now : Instant) (around : RequestId → Around) (ids : List RequestId)
    (m : AList fun _ : RequestId => Entry) : EntriesFollow m (tickLoop now around ids m).1 := by
  induction ids generalizing m with
  | nil => exact EntriesFollow.refl m
  | cons id ids ih =>
    simp only [tickLoop]
    split
    · exact ih m
    · rename_i e he
      exact (EntriesFollow.replace he (e.tick_follows id now (around id))).trans (ih _)

/-- An entry found after a step was there before it, some calls earlier, or
has just been armed. -/
theorem step_follows (s : Endpoint) (x : Step) : EntriesFollow s.entries (s.step x).1.entries
    ∨ ∃ id key cfg now, x = .arm id key cfg now ∧ s.entries.lookup id = none
      ∧ (s.step x).1.entries = s.entries.insert id (Entry.new key cfg now) := by
  cases x with
  | arm id key cfg now =>
    simp only [step, arm]
    split
    · exact Or.inl (EntriesFollow.refl _)
    · rename_i h
      exact Or.inr ⟨id, key, cfg, now, rfl, by simpa using h, rfl⟩
  | dropArmed id => exact Or.inl (EntriesFollow.refl _)
  | disarm n =>
    left
    simp only [step, disarm]
    split
    · exact EntriesFollow.refl _
    · exact EntriesFollow.erase _ _
  | datagram bytes source now around =>
    left
    simp only [step, onDatagram]
    split
    · exact EntriesFollow.refl _
    · split
      · exact EntriesFollow.refl _
      · rename_i e he
        exact EntriesFollow.replace he (e.onDatagram_follows _ bytes source now around)
  | tick now around =>
    exact Or.inl ((tickLoop_follows now around _ _).trans (EntriesFollow.eraseAll _ _))
  | setPlayheadMs id ms now =>
    left
    simp only [step, setPlayheadMs]
    split
    · exact EntriesFollow.refl _
    · rename_i e he
      exact EntriesFollow.replace he ⟨rfl, fun _ => rfl, [], rfl⟩

theorem run_concat (steps : List Step) (x : Step) :
    (run bind (steps ++ [x])).1 = ((run bind steps).1.step x).1 := by
  unfold run
  rw [Machine.run_concat]
  rfl

end Endpoint

end Protofish4
