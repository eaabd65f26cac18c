import Protofish4.Config
import Protofish4.Frame
import Protofish4.Lib.Machine
import Protofish4.Xfer.Retrans

/-!
# XferSender

`xfer/sender.rs`: the sending half of one transfer. It owns no socket and
no clock; the caller seals every `emit` and hands the bytes of payload
packets back through `recordSealed`.
-/

namespace Protofish4

open Machine (andThen)

inductive SendFailure where
  /-- No `Ack` ever came back. -/
  | noAck
  /-- `EndAck` never arrived. -/
  | finalizeTimeout
  deriving DecidableEq, Repr

/-- What the sender wants done. -/
inductive SendEvent where
  /-- Seal this body under `seq` and send it. -/
  | emit (seq : XferSeq) (body : Body)
  /-- Resend these previously sealed datagrams verbatim. -/
  | resend (datagrams : List Bytes)
  | completed
  | failed (reason : SendFailure)
  deriving DecidableEq, Repr

/-- `State` of the source. -/
inductive SendState where
  | streaming
  /-- `End` sent, waiting for `EndAck` while still answering NACKs. -/
  | finalizing
  | done
  deriving DecidableEq, Repr

structure XferSender where
  cfg : SenderConfig
  ring : RetransRing
  state : SendState
  nextSeq : XferSeq
  /-- Counter for control packets, independent of `nextSeq`. -/
  controlCounter : UInt32
  /-- Highest sequence the receiver admits to having seen. -/
  ackedHighest : Nat
  bufferedMs : UInt16
  /-- True while occupancy sits above the high-water mark. -/
  paused : Bool
  firstDataAt : Option Instant
  gotAck : Bool
  finalizeAt : Option Instant
  lastKeepaliveAt : Option Instant
  deriving DecidableEq

namespace XferSender

def new (cfg : SenderConfig) : XferSender where
  cfg := cfg
  ring := RetransRing.new cfg.retransRingFrames cfg.retransRingBytes
  state := .streaming
  nextSeq := XferSeq.first
  controlCounter := 0
  ackedHighest := 0
  bufferedMs := 0
  paused := false
  firstDataAt := none
  gotAck := false
  finalizeAt := none
  lastKeepaliveAt := none

def isDone (s : XferSender) : Bool := s.state = .done

/-- Frames sent beyond the highest one the receiver admits to. -/
def outstanding (s : XferSender) : Nat := s.nextSeq.toNat - 1 - s.ackedHighest

/-- Whether another payload frame may be sent right now. -/
def canSend (s : XferSender) : Bool :=
  if s.state ≠ .streaming ∨ s.paused then false else s.outstanding < s.cfg.maxOutstanding

/-- Queue one frame; `none` if the window is closed. -/
def pushFrame (s : XferSender) (ts : TimestampMs) (payload : Bytes) (now : Instant) :
    XferSender × Option SendEvent :=
  if s.canSend then
    ({ s with
      nextSeq := s.nextSeq.next
      firstDataAt := some (s.firstDataAt.getD now) }, some (.emit s.nextSeq (.data ts payload)))
  else (s, none)

/-- Hand back the sealed bytes of an emitted frame. -/
def recordSealed (s : XferSender) (seq : XferSeq) (datagram : Bytes) : XferSender :=
  { s with ring := s.ring.push seq datagram }

/-- The control counter after one more packet. -/
def bumpControl (s : XferSender) : XferSender := { s with controlCounter := s.controlCounter + 1 }

/-- Signal end of payload. -/
def finish (s : XferSender) (now : Instant) : XferSender × Option SendEvent :=
  if s.state ≠ .streaming then (s, none)
  else
    let finalSeq := XferSeq.ofNat (s.nextSeq.toNat - 1)
    let s := { s with
      state := .finalizing
      finalizeAt := some now
      lastKeepaliveAt := some now }.bumpControl
    (s, some (.emit ⟨s.controlCounter⟩ (.end finalSeq)))

/-- The `Ack` arm of `handle`. -/
def onAck (s : XferSender) (contiguous highest : XferSeq) (bufferedMs : UInt16) : XferSender :=
  { s with
    gotAck := true
    ring := s.ring.ackThrough contiguous
    ackedHighest := if highest.toNat > s.ackedHighest then highest.toNat else s.ackedHighest
    bufferedMs := bufferedMs
    paused :=
      if bufferedMs ≥ s.cfg.bufferHighWaterMs then true
      else if bufferedMs ≤ s.cfg.bufferLowWaterMs then false
      else s.paused }

/-- The datagrams a `Nack` gets back. -/
def held (s : XferSender) (missing : List XferSeq) : List Bytes := missing.filterMap s.ring.get

/-- Feed an authenticated packet from the receiver. -/
def handle (s : XferSender) (body : Body) (_now : Instant) : XferSender × List SendEvent :=
  match body with
  | .ack contiguous highest bufferedMs => (s.onAck contiguous highest bufferedMs, [])
  | .nack missing =>
    ({ s with gotAck := true },
      if (s.held missing).isEmpty then [] else [.resend (s.held missing)])
  | .endAck => ({ s with state := .done }, [.completed])
  | .data .. | .end _ | .keepalive _ => (s, [])

/-- Send a keepalive that reports what has left the ring. -/
def keepalive (s : XferSender) (now : Instant) : XferSender × List SendEvent :=
  let s := { s with lastKeepaliveAt := some now }.bumpControl
  (s, [.emit ⟨s.controlCounter⟩ (.keepalive (XferSeq.ofNat s.ring.lostBelow))])

/-- A paused sender says that it is still there. -/
def tickPaused (s : XferSender) (now : Instant) : XferSender × List SendEvent :=
  if s.state = .streaming ∧ s.paused then
    match s.lastKeepaliveAt with
    | some last =>
      if durationSince now last ≥ s.cfg.tailKeepaliveInterval then s.keepalive now else (s, [])
    | none => s.keepalive now
  else (s, [])

/-- Between `End` and `EndAck`: give up, or keep the path open. -/
def tickFinalizing (s : XferSender) (now : Instant) : XferSender × List SendEvent :=
  if s.state = .finalizing then
    if s.finalizeAt.any fun started => durationSince now started > s.cfg.finalizeTimeout then
      ({ s with state := .done }, [.failed .finalizeTimeout])
    else if s.lastKeepaliveAt.any fun last =>
        durationSince now last ≥ s.cfg.tailKeepaliveInterval then
      s.keepalive now
    else (s, [])
  else (s, [])

/-- Drive timers. -/
def tick (s : XferSender) (now : Instant) : XferSender × List SendEvent :=
  if s.state = .done then (s, [])
  else if s.gotAck = false ∧ s.firstDataAt.any fun first =>
      durationSince now first > s.cfg.firstAckTimeout then
    ({ s with state := .done }, [.failed .noAck])
  else andThen (s.tickPaused now) fun s => s.tickFinalizing now

end XferSender

/-- One call on a sender. -/
inductive SendCall where
  | pushFrame (ts : TimestampMs) (payload : Bytes) (now : Instant)
  | recordSealed (seq : XferSeq) (datagram : Bytes)
  | finish (now : Instant)
  | handle (body : Body) (now : Instant)
  | tick (now : Instant)
  deriving DecidableEq, Repr

/-- What one call does to the state, and the events it returns. -/
def XferSender.step (s : XferSender) : SendCall → XferSender × List SendEvent
  | .pushFrame ts payload now =>
      ((s.pushFrame ts payload now).1, (s.pushFrame ts payload now).2.toList)
  | .recordSealed seq datagram => (s.recordSealed seq datagram, [])
  | .finish now => ((s.finish now).1, (s.finish now).2.toList)
  | .handle body now => s.handle body now
  | .tick now => s.tick now

/-! ## What a call leaves alone -/

namespace XferSender

variable (s : XferSender) (now : Instant)

theorem keepalive_frame : (s.keepalive now).1 = { s with
    controlCounter := (s.keepalive now).1.controlCounter
    lastKeepaliveAt := (s.keepalive now).1.lastKeepaliveAt } := rfl

theorem tickPaused_frame : (s.tickPaused now).1 = { s with
    controlCounter := (s.tickPaused now).1.controlCounter
    lastKeepaliveAt := (s.tickPaused now).1.lastKeepaliveAt } := by
  unfold tickPaused
  split
  · split
    · split
      · exact keepalive_frame s now
      · rfl
    · exact keepalive_frame s now
  · rfl

theorem tickFinalizing_frame : (s.tickFinalizing now).1 = { s with
    state := (s.tickFinalizing now).1.state
    controlCounter := (s.tickFinalizing now).1.controlCounter
    lastKeepaliveAt := (s.tickFinalizing now).1.lastKeepaliveAt } := by
  unfold tickFinalizing
  split
  · split
    · rfl
    · split
      · exact keepalive_frame s now
      · rfl
  · rfl

/-- Timers touch the state, the control counter and the keepalive clock. -/
theorem tick_frame : (s.tick now).1 = { s with
    state := (s.tick now).1.state
    controlCounter := (s.tick now).1.controlCounter
    lastKeepaliveAt := (s.tick now).1.lastKeepaliveAt } := by
  unfold tick
  split
  · rfl
  · split
    · rfl
    · rw [Machine.andThen_fst, tickFinalizing_frame, tickPaused_frame]

/-- Timers never take a sender back to streaming. -/
theorem tick_state (h : s.state ≠ .streaming) : (s.tick now).1.state ≠ .streaming := by
  unfold tick
  split
  · exact h
  · split
    · simp
    · rw [Machine.andThen_fst]
      have hp : (s.tickPaused now).1.state ≠ .streaming := by
        rw [tickPaused_frame]
        exact h
      generalize (s.tickPaused now).1 = s' at hp
      unfold tickFinalizing
      split
      · split
        · simp
        · split <;> exact hp
      · exact hp

/-- Timers emit keepalives and failures, nothing else. -/
theorem tick_events {e : SendEvent} (h : e ∈ (s.tick now).2) :
    (∃ seq, e = .emit seq (.keepalive (XferSeq.ofNat s.ring.lostBelow)))
      ∨ ∃ reason, e = .failed reason := by
  have hkeep : ∀ s' : XferSender, s'.ring = s.ring → ∀ e ∈ (s'.keepalive now).2,
      ∃ seq, e = .emit seq (.keepalive (XferSeq.ofNat s.ring.lostBelow)) := by
    intro s' hr e he
    cases List.mem_singleton.mp he
    exact ⟨_, by rw [← hr]; rfl⟩
  unfold tick at h
  split at h
  · cases h
  · split at h
    · cases List.mem_singleton.mp h
      exact Or.inr ⟨_, rfl⟩
    · rcases Machine.mem_andThen.mp h with h | h
      · left
        unfold tickPaused at h
        split at h
        · split at h
          · split at h
            · exact hkeep s rfl e h
            · cases h
          · exact hkeep s rfl e h
        · cases h
      · have hr : (s.tickPaused now).1.ring = s.ring := by rw [tickPaused_frame]
        generalize (s.tickPaused now).1 = s' at h hr
        unfold tickFinalizing at h
        split at h
        · split at h
          · cases List.mem_singleton.mp h
            exact Or.inr ⟨_, rfl⟩
          · split at h
            · exact Or.inl (hkeep s' hr e h)
            · cases h
        · cases h

theorem tick_emit {seq : XferSeq} {body : Body} (h : .emit seq body ∈ (s.tick now).2) :
    body = .keepalive (XferSeq.ofNat s.ring.lostBelow) := by
  rcases tick_events s now h with ⟨_, he⟩ | ⟨_, he⟩
  · cases he
    rfl
  · cases he

theorem resend_not_mem_tick {ds : List Bytes} : .resend ds ∉ (s.tick now).2 := by
  intro h
  rcases tick_events s now h with ⟨_, he⟩ | ⟨_, he⟩ <;> cases he

/-- A packet from the receiver touches the ring, the window and the state,
never the numbering. -/
theorem handle_frame (body : Body) : (s.handle body now).1 = { s with
    ring := (s.handle body now).1.ring
    state := (s.handle body now).1.state
    ackedHighest := (s.handle body now).1.ackedHighest
    bufferedMs := (s.handle body now).1.bufferedMs
    paused := (s.handle body now).1.paused
    gotAck := (s.handle body now).1.gotAck } := by
  cases body <;> rfl

theorem handle_state (body : Body) (h : s.state ≠ .streaming) :
    (s.handle body now).1.state ≠ .streaming := by
  cases body <;> first | exact h | simp [handle]

/-- A packet from the receiver makes the sender resend or complete. -/
theorem handle_events (body : Body) {e : SendEvent} (h : e ∈ (s.handle body now).2) :
    (∃ missing, body = .nack missing ∧ e = .resend (s.held missing)) ∨ e = .completed := by
  cases body with
  | nack missing =>
    simp only [handle] at h
    split at h
    · cases h
    · cases List.mem_singleton.mp h
      exact Or.inl ⟨missing, rfl, rfl⟩
  | endAck => exact Or.inr (List.mem_singleton.mp h)
  | data | «end» | ack | keepalive => cases h

theorem handle_ring_subset (body : Body) {e : XferSeq × Bytes}
    (h : e ∈ (s.handle body now).1.ring.entries) : e ∈ s.ring.entries := by
  cases body with
  | ack c _ _ => exact RetransRing.mem_ackThrough h
  | data | «end» | nack | endAck | keepalive => exact h

/-- What a `Nack` gets back was recorded before. -/
theorem mem_held {missing : List XferSeq} {d : Bytes} (h : d ∈ s.held missing) :
    ∃ seq ∈ missing, (seq, d) ∈ s.ring.entries := by
  obtain ⟨seq, hseq, hget⟩ := List.mem_filterMap.mp h
  exact ⟨seq, hseq, RetransRing.get_mem hget⟩

theorem emit_not_mem_handle {body b : Body} {seq : XferSeq} :
    .emit seq b ∉ (s.handle body now).2 := by
  intro h
  rcases handle_events s now body h with ⟨_, -, he⟩ | he <;> cases he

/-- What a packet has resent is in the ring. -/
theorem held_of_resend {body : Body} {ds : List Bytes} (h : .resend ds ∈ (s.handle body now).2)
    {d : Bytes} (hd : d ∈ ds) : ∃ seq, (seq, d) ∈ s.ring.entries := by
  rcases handle_events s now body h with ⟨missing, -, he⟩ | he
  · cases he
    obtain ⟨seq, -, hmem⟩ := mem_held s hd
    exact ⟨seq, hmem⟩
  · cases he

/-- `finish` announces the last number handed out, once. -/
theorem finish_cases : s.finish now = (s, none) ∧ s.state ≠ .streaming
    ∨ s.state = .streaming ∧ (s.finish now).1.state = .finalizing
      ∧ (s.finish now).1.nextSeq = s.nextSeq ∧ (s.finish now).1.ring = s.ring
      ∧ ∃ seq, (s.finish now).2
          = some (.emit seq (.end (XferSeq.ofNat (s.nextSeq.toNat - 1)))) := by
  unfold finish
  by_cases h : s.state = .streaming
  · right
    rw [if_neg (not_not.mpr h)]
    exact ⟨h, rfl, rfl, rfl, _, rfl⟩
  · left
    rw [if_pos h]
    exact ⟨rfl, h⟩

/-- A frame goes out under the next number, if the window is open. -/
theorem pushFrame_cases (ts : TimestampMs) (payload : Bytes) :
    s.pushFrame ts payload now = (s, none) ∧ s.canSend = false
    ∨ s.canSend = true ∧ (s.pushFrame ts payload now).1 = { s with
        nextSeq := s.nextSeq.next
        firstDataAt := some (s.firstDataAt.getD now) }
      ∧ (s.pushFrame ts payload now).2 = some (.emit s.nextSeq (.data ts payload)) := by
  unfold pushFrame
  cases h : s.canSend
  · left
    simp
  · right
    simp

theorem canSend_streaming (h : s.canSend = true) : s.state = .streaming := by
  by_contra hs
  simp [canSend, hs] at h

/-! ## How a state machine gets done -/

/-- By an event that says so, and that comes alone. -/
structure Concludes (s : XferSender) (p : XferSender × List SendEvent) : Prop where
  done : p.1.state = .done ↔ s.state = .done ∨ .completed ∈ p.2 ∨ ∃ reason, .failed reason ∈ p.2
  completed : .completed ∈ p.2 → p.2 = [.completed]
  failed : ∀ reason, .failed reason ∈ p.2 → p.2 = [.failed reason]

/-- A call that emits packets and keeps the state machine from being done. -/
theorem Concludes.of_emits {s : XferSender} {p : XferSender × List SendEvent}
    (hstate : p.1.state = .done ↔ s.state = .done)
    (h : ∀ e ∈ p.2, (∃ seq body, e = .emit seq body) ∨ ∃ datagrams, e = .resend datagrams) :
    Concludes s p := by
  have hc : .completed ∉ p.2 := fun hm => by
    rcases h _ hm with ⟨_, _, heq⟩ | ⟨_, heq⟩ <;> cases heq
  have hf : ∀ reason, .failed reason ∉ p.2 := fun reason hm => by
    rcases h _ hm with ⟨_, _, heq⟩ | ⟨_, heq⟩ <;> cases heq
  exact ⟨by simp [hstate, hc, hf], fun hm => absurd hm hc, fun reason hm => absurd hm (hf reason)⟩

theorem concludes_pushFrame (ts : TimestampMs) (payload : Bytes) :
    Concludes s (s.step (.pushFrame ts payload now)) := by
  rcases s.pushFrame_cases now ts payload with ⟨heq, -⟩ | ⟨-, hstate, hout⟩
  · refine .of_emits ?_ fun e he => ?_
    · simp only [step, heq]
    · simp only [step, heq, Option.toList_none, List.not_mem_nil] at he
  · refine .of_emits ?_ fun e he => ?_
    · simp only [step, hstate]
    · simp only [step, hout, Option.toList_some, List.mem_singleton] at he
      exact Or.inl ⟨_, _, he⟩

theorem concludes_finish : Concludes s (s.step (.finish now)) := by
  rcases s.finish_cases now with ⟨heq, -⟩ | ⟨hs, hstate, -, -, seq, hout⟩
  · refine .of_emits ?_ fun e he => ?_
    · simp only [step, heq]
    · simp only [step, heq, Option.toList_none, List.not_mem_nil] at he
  · refine .of_emits ?_ fun e he => ?_
    · simp only [step, hstate, hs, reduceCtorEq]
    · simp only [step, hout, Option.toList_some, List.mem_singleton] at he
      exact Or.inl ⟨_, _, he⟩

theorem concludes_handle (body : Body) : Concludes s (s.handle body now) := by
  cases body with
  | endAck => exact ⟨by simp [handle], fun _ => rfl, fun reason hm => by simp [handle] at hm⟩
  | nack missing =>
    refine .of_emits Iff.rfl fun e he => ?_
    simp only [handle] at he
    split at he
    · cases he
    · exact Or.inr ⟨_, List.mem_singleton.mp he⟩
  | data | «end» | ack | keepalive => exact .of_emits Iff.rfl fun e he => by cases he

/-- A streaming sender's pause timer emits keepalives only. -/
theorem tickPaused_emits {e : SendEvent} (h : e ∈ (s.tickPaused now).2) :
    ∃ seq body, e = .emit seq body := by
  unfold tickPaused at h
  split at h
  · split at h
    · split at h
      · exact ⟨_, _, List.mem_singleton.mp h⟩
      · cases h
    · exact ⟨_, _, List.mem_singleton.mp h⟩
  · cases h

theorem concludes_tickFinalizing : Concludes s (s.tickFinalizing now) := by
  unfold tickFinalizing
  split
  · split
    · refine ⟨by simp, fun hm => by simp at hm, fun reason hm => ?_⟩
      cases List.mem_singleton.mp hm
      rfl
    · split
      · exact .of_emits Iff.rfl fun e he => Or.inl ⟨_, _, List.mem_singleton.mp he⟩
      · exact .of_emits Iff.rfl fun e he => by cases he
  · exact .of_emits Iff.rfl fun e he => by cases he

theorem concludes_tick : Concludes s (s.tick now) := by
  unfold tick
  split
  · exact .of_emits Iff.rfl fun e he => by cases he
  · rename_i hs
    split
    · refine ⟨by simp, fun hm => by simp at hm, fun reason hm => ?_⟩
      cases List.mem_singleton.mp hm
      rfl
    · by_cases hstreaming : s.state = .streaming
      · -- the timers of finalizing are off
        have hoff : (s.tickPaused now).1.tickFinalizing now = ((s.tickPaused now).1, []) := by
          unfold tickFinalizing
          rw [tickPaused_frame]
          simp [hstreaming]
        refine .of_emits ?_ fun e he => Or.inl ?_
        · rw [Machine.andThen_fst, hoff, tickPaused_frame]
        · rw [Machine.andThen_snd, hoff, List.append_nil] at he
          exact tickPaused_emits s now he
      · have hoff : s.tickPaused now = (s, []) := by simp [tickPaused, hstreaming]
        have heq : Machine.andThen (s.tickPaused now) (fun s => s.tickFinalizing now)
            = s.tickFinalizing now := by
          rw [hoff]
          rfl
        rw [heq]
        exact concludes_tickFinalizing s now

end XferSender

end Protofish4
