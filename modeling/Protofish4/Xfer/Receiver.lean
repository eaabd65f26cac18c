import Protofish4.Config
import Protofish4.Frame
import Protofish4.Codec
import Protofish4.Lib.Machine
import Protofish4.Xfer.GapTracker

/-!
# XferReceiver

`xfer/receiver.rs`: the receiving half of one transfer. It is fed decrypted
bodies and a clock and returns events. Every function that pushes onto
`out` returns the new state with the events it pushed; `andThen` joins two
of them in the source's order.
-/

namespace Protofish4

open Std (ExtTreeMap)
open Machine (andThen)

/-- What the receiver wants done after a step. -/
inductive RecvEvent where
  /-- Play this now. Out of order and with gaps. -/
  | unreliable (frame : Frame)
  /-- In order and gap-free. -/
  | reliable (frame : Frame)
  | sendNack (missing : List XferSeq)
  | sendAck (contiguous highest : XferSeq) (bufferedMs : UInt16)
  | sendEndAck
  /-- The reliable stream is finished, one way or the other. -/
  | relFinished (outcome : RelOutcome)
  | closed
  deriving DecidableEq, Repr

inductive RelState where
  | streaming
  /-- Released or aborted: no gap tracking, no memory held. -/
  | finished
  deriving DecidableEq, Repr

structure XferReceiver where
  cfg : ReceiverConfig
  gaps : GapTracker
  /-- Frames above the contiguous segment, held until the gap below fills. -/
  reorder : ExtTreeMap Nat Frame
  reorderBytes : Nat
  relState : RelState
  relReleased : Nat
  finalSeq : Option XferSeq
  endAcked : Bool
  closed : Bool
  /-- Per gap: how many times asked, and when last asked. -/
  nacks : ExtTreeMap Nat (Nat × Instant)
  /-- Highest sequence the sender says it can no longer retransmit. -/
  senderLostBelow : Nat
  lastPacketAt : Instant
  lastAckAt : Instant
  lastRelProgressAt : Instant
  bufferedMs : Nat

namespace XferReceiver

def new (cfg : ReceiverConfig) (now : Instant) : XferReceiver where
  cfg := cfg
  gaps := GapTracker.new
  reorder := ∅
  reorderBytes := 0
  relState := .streaming
  relReleased := 0
  finalSeq := none
  endAcked := false
  closed := false
  nacks := ∅
  senderLostBelow := 0
  lastPacketAt := now
  lastAckAt := now
  lastRelProgressAt := now
  bufferedMs := 0

def setBufferedMs (r : XferReceiver) (ms : Nat) : XferReceiver := { r with bufferedMs := ms }

def finishRel (r : XferReceiver) (outcome : RelOutcome) : XferReceiver × List RecvEvent :=
  if r.relState = .finished then (r, [])
  else
    ({ r with
      relState := .finished
      reorder := ∅
      reorderBytes := 0
      nacks := ∅
      gaps := r.gaps.abandon }, [.relFinished outcome])

/-- The loop of `release_contiguous`; the fuel is the number of rounds
`while self.rel_released < contiguous` can make. -/
def releaseLoop : Nat → XferReceiver → XferReceiver × List RecvEvent
  | 0, r => (r, [])
  | fuel + 1, r =>
    let next := r.relReleased + 1
    match r.reorder[next]? with
    | none => (r, [])
    | some frame =>
      andThen
        ({ r with
          reorder := r.reorder.erase next
          reorderBytes := r.reorderBytes - frame.payload.length
          relReleased := next
          nacks := r.nacks.erase next }, [.reliable frame])
        (releaseLoop fuel)

def releaseContiguous (r : XferReceiver) (now : Instant) : XferReceiver × List RecvEvent :=
  let p := releaseLoop (r.gaps.contiguous - r.relReleased) r
  (if p.2.isEmpty then p.1 else { p.1 with lastRelProgressAt := now }, p.2)

/-- First half of `check_finish`: the outcome of a transfer that landed. -/
def completeRel (r : XferReceiver) (finalSeq : XferSeq) (now : Instant) :
    XferReceiver × List RecvEvent :=
  if r.relState = .streaming ∧ r.gaps.isComplete finalSeq then
    andThen (r.releaseContiguous now) fun r => r.finishRel (.complete finalSeq)
  else (r, [])

/-- Second half of `check_finish`: acknowledge the tail whenever the whole
transfer has landed, then close. -/
def ackEnd (r : XferReceiver) (finalSeq : XferSeq) : XferReceiver × List RecvEvent :=
  andThen
    (if r.endAcked = false ∧ r.gaps.isComplete finalSeq then
      ({ r with endAcked := true }, [.sendEndAck])
    else (r, []))
    fun r =>
      if r.endAcked ∧ r.closed = false then ({ r with closed := true }, [.closed]) else (r, [])

def checkFinish (r : XferReceiver) (now : Instant) : XferReceiver × List RecvEvent :=
  match r.finalSeq with
  | none => (r, [])
  | some finalSeq => andThen (r.completeRel finalSeq now) fun r => r.ackEnd finalSeq

/-- Put a frame into the reorder buffer. -/
def hold (r : XferReceiver) (frame : Frame) : XferReceiver :=
  { r with
    reorderBytes := r.reorderBytes + frame.payload.length
    reorder := r.reorder.insert frame.seq.toNat frame }

/-- What `on_data` does with a frame the reliable stream has not seen. -/
def storeFrame (r : XferReceiver) (frame : Frame) (now : Instant) :
    XferReceiver × List RecvEvent :=
  if r.gaps.windowSpan > r.cfg.reorderWindow then r.finishRel (.aborted .bufferExhausted)
  else if (r.hold frame).reorderBytes > r.cfg.maxReorderBytes then
    (r.hold frame).finishRel (.aborted .bufferExhausted)
  else andThen ((r.hold frame).releaseContiguous now) fun r => r.checkFinish now

/-- The part of `on_data` both streams share: record the arrival, and hand
a first arrival to playback the moment it lands, including frames the
reliable side has already given up on. -/
def noteArrival (r : XferReceiver) (frame : Frame) : XferReceiver × List RecvEvent :=
  let recorded := r.gaps.record frame.seq
  ({ r with gaps := recorded.1 },
    if recorded.2 && r.cfg.mode.wantsUnrel then [.unreliable frame] else [])

def onData (r : XferReceiver) (frame : Frame) (now : Instant) : XferReceiver × List RecvEvent :=
  let fresh := (r.gaps.record frame.seq).2
  andThen (r.noteArrival frame) fun r =>
    if r.relState ≠ .streaming then (r, [])
    -- a duplicate or a retransmission of something already released
    else if fresh = false then (r, [])
    else r.storeFrame frame now

/-- What a hole is entered with when it is first considered. -/
def freshNack (now : Instant) : Nat × Instant := (0, now - fromSecs 3600)

/-- What the loop of `emit_nacks` leaves: the bookkeeping, what to ask
for, and whether a gap's budget ran out. -/
structure Asked where
  nacks : ExtTreeMap Nat (Nat × Instant)
  ask : List XferSeq
  exhausted : Bool

/-- The loop of `emit_nacks`. -/
def nackLoop (cfg : ReceiverConfig) (senderLostBelow : Nat) (now : Instant) :
    List Nat → ExtTreeMap Nat (Nat × Instant) → List XferSeq → Asked
  | [], nacks, ask => ⟨nacks, ask, false⟩
  | seq :: rest, nacks, ask =>
    if seq ≤ senderLostBelow then ⟨nacks, ask, true⟩
    else
      let entry := nacks[seq]?.getD (freshNack now)
      if entry.1 ≥ cfg.maxNackAttempts then ⟨nacks.insert seq entry, ask, true⟩
      else if durationSince now entry.2 ≥ cfg.nackDelay entry.1 then
        nackLoop cfg senderLostBelow now rest (nacks.insert seq (entry.1 + 1, now))
          (ask ++ [XferSeq.ofNat seq])
      else nackLoop cfg senderLostBelow now rest (nacks.insert seq entry) ask

def emitNacks (r : XferReceiver) (now : Instant) : XferReceiver × List RecvEvent :=
  let missing := r.gaps.missing maxNackEntries
  if missing.isEmpty then (r, [])
  else
    let asked := nackLoop r.cfg r.senderLostBelow now missing r.nacks []
    let r := { r with nacks := asked.nacks }
    if asked.exhausted then r.finishRel (.aborted .unrecoverableGap)
    else (r, if asked.ask.isEmpty then [] else [.sendNack asked.ask])

def maybeAck (r : XferReceiver) (now : Instant) : XferReceiver × List RecvEvent :=
  if r.closed then (r, [])
  else if durationSince now r.lastAckAt < r.cfg.ackInterval then (r, [])
  else if r.gaps.highest = 0 then (r, [])
  else
    ({ r with lastAckAt := now },
      [.sendAck (XferSeq.ofNat r.gaps.contiguous) (XferSeq.ofNat r.gaps.highest)
        (UInt16.ofNat (min r.bufferedMs 65535))])

/-- The `Keepalive` arm of `handle`, before `check_finish`. -/
def noteLost (r : XferReceiver) (lostBelow : XferSeq) : XferReceiver × List RecvEvent :=
  if lostBelow.toNat > r.senderLostBelow then
    let r := { r with senderLostBelow := lostBelow.toNat }
    if r.relState = .streaming ∧ r.gaps.contiguous < r.senderLostBelow then
      r.finishRel (.aborted .senderDiscarded)
    else (r, [])
  else (r, [])

/-- `self.last_packet_at = now`. -/
def heard (r : XferReceiver) (now : Instant) : XferReceiver := { r with lastPacketAt := now }

/-- `self.final_seq = Some(final_seq)`. -/
def declareEnd (r : XferReceiver) (finalSeq : XferSeq) : XferReceiver :=
  { r with finalSeq := some finalSeq }

/-- The `match body` of `handle`. -/
def onBody (r : XferReceiver) (seq : XferSeq) (body : Body) (now : Instant) :
    XferReceiver × List RecvEvent :=
  match body with
  | .data ts payload => r.onData ⟨seq, ts, payload⟩ now
  | .end finalSeq => (r.declareEnd finalSeq).checkFinish now
  | .keepalive lostBelow => andThen (r.noteLost lostBelow) fun r => r.checkFinish now
  | .ack .. | .nack _ | .endAck => (r, [])

/-- Feed one authenticated packet body. -/
def handle (r : XferReceiver) (seq : XferSeq) (body : Body) (now : Instant) :
    XferReceiver × List RecvEvent :=
  andThen ((r.heard now).onBody seq body now) fun r => r.maybeAck now

/-- The reliable side's timers: a stalled segment, else the holes. -/
def tickRel (r : XferReceiver) (now : Instant) : XferReceiver × List RecvEvent :=
  if r.relState = .streaming then
    if durationSince now r.lastRelProgressAt > r.cfg.relStallTimeout then
      r.finishRel (.aborted .stalled)
    else r.emitNacks now
  else (r, [])

/-- The idle timeout: nothing has arrived for too long. -/
def closeIdle (r : XferReceiver) : XferReceiver × List RecvEvent :=
  andThen
    (if r.relState = .streaming then r.finishRel (.aborted .peerGone) else (r, []))
    fun r => ({ r with closed := true }, [.closed])

/-- Drive timers. -/
def tick (r : XferReceiver) (now : Instant) : XferReceiver × List RecvEvent :=
  if r.closed then (r, [])
  else if durationSince now r.lastPacketAt > r.cfg.idleTimeout then r.closeIdle
  else andThen (r.tickRel now) fun r => r.maybeAck now

end XferReceiver

/-- One call on a receiver. -/
inductive RecvCall where
  | handle (seq : XferSeq) (body : Body) (now : Instant)
  | tick (now : Instant)
  | setBufferedMs (ms : Nat)
  deriving DecidableEq, Repr

/-- What one call does to the state, and the events it returns. -/
def XferReceiver.step (r : XferReceiver) : RecvCall → XferReceiver × List RecvEvent
  | .handle seq body now => r.handle seq body now
  | .tick now => r.tick now
  | .setBufferedMs ms => (r.setBufferedMs ms, [])

/-! ## What a function leaves alone

Everything below `handle` and `tick` only moves the reliable side: it
releases frames, and it may end the stream, which forgets the arrivals
above the segment. `Keeps` says so once, and composes. -/

namespace XferReceiver

structure Keeps (r r' : XferReceiver) : Prop where
  cfg : r'.cfg = r.cfg
  finalSeq : r'.finalSeq = r.finalSeq
  senderLostBelow : r'.senderLostBelow = r.senderLostBelow
  lastPacketAt : r'.lastPacketAt = r.lastPacketAt
  lastAckAt : r'.lastAckAt = r.lastAckAt
  bufferedMs : r'.bufferedMs = r.bufferedMs
  closed : r.closed = true → r'.closed = true
  gaps : r'.relState = r.relState ∧ r'.gaps = r.gaps
    ∨ r.relState = .streaming ∧ r'.relState = .finished ∧ r'.gaps = r.gaps.abandon

namespace Keeps

variable {r r' r'' : XferReceiver}

theorem refl (r : XferReceiver) : Keeps r r :=
  ⟨rfl, rfl, rfl, rfl, rfl, rfl, id, Or.inl ⟨rfl, rfl⟩⟩

theorem trans (h : Keeps r r') (h' : Keeps r' r'') : Keeps r r'' where
  cfg := h'.cfg.trans h.cfg
  finalSeq := h'.finalSeq.trans h.finalSeq
  senderLostBelow := h'.senderLostBelow.trans h.senderLostBelow
  lastPacketAt := h'.lastPacketAt.trans h.lastPacketAt
  lastAckAt := h'.lastAckAt.trans h.lastAckAt
  bufferedMs := h'.bufferedMs.trans h.bufferedMs
  closed := h'.closed ∘ h.closed
  gaps := by
    rcases h.gaps with ⟨hs, hg⟩ | ⟨hs, hs', hg⟩ <;> rcases h'.gaps with ⟨ht, hg'⟩ | ⟨ht, ht', hg'⟩
    · exact Or.inl ⟨ht.trans hs, hg'.trans hg⟩
    · exact Or.inr ⟨hs ▸ ht, ht', by rw [hg', hg]⟩
    · exact Or.inr ⟨hs, ht.trans hs', by rw [hg', hg]⟩
    · rw [hs'] at ht
      cases ht

theorem andThen {p : XferReceiver × List RecvEvent}
    {f : XferReceiver → XferReceiver × List RecvEvent}
    (h : Keeps r p.1) (hf : ∀ r, Keeps r (f r).1) : Keeps r (Machine.andThen p f).1 :=
  h.trans (hf p.1)

theorem contiguous (h : Keeps r r') : r'.gaps.contiguous = r.gaps.contiguous := by
  rcases h.gaps with ⟨-, hg⟩ | ⟨-, -, hg⟩ <;> rw [hg]
  rfl

theorem highest (h : Keeps r r') : r'.gaps.highest = r.gaps.highest := by
  rcases h.gaps with ⟨-, hg⟩ | ⟨-, -, hg⟩ <;> rw [hg]
  rfl

/-- While the stream still streams, no arrival was forgotten. -/
theorem gaps_eq (h : Keeps r r') (hs : r'.relState = .streaming) :
    r.relState = .streaming ∧ r'.gaps = r.gaps := by
  rcases h.gaps with ⟨he, hg⟩ | ⟨-, hf, -⟩
  · exact ⟨he ▸ hs, hg⟩
  · rw [hf] at hs
    cases hs

theorem finished (h : Keeps r r') (hs : r.relState = .finished) : r'.relState = .finished := by
  rcases h.gaps with ⟨he, -⟩ | ⟨-, hf, -⟩
  · exact he.trans hs
  · exact hf

end Keeps

variable (r : XferReceiver) (now : Instant)

theorem finishRel_keeps (outcome : RelOutcome) : Keeps r (r.finishRel outcome).1 := by
  unfold finishRel
  split
  · exact Keeps.refl r
  · rename_i hs
    refine ⟨rfl, rfl, rfl, rfl, rfl, rfl, id, Or.inr ⟨?_, rfl, rfl⟩⟩
    cases h : r.relState
    · rfl
    · exact absurd h hs

theorem finishRel_finished (outcome : RelOutcome) :
    (r.finishRel outcome).1.relState = .finished := by
  unfold finishRel
  split
  · assumption
  · rfl

/-- The release loop touches the buffer, the released segment and the
bookkeeping of the holes it closes. -/
theorem releaseLoop_frame (fuel : Nat) : (releaseLoop fuel r).1 = { r with
    reorder := (releaseLoop fuel r).1.reorder
    reorderBytes := (releaseLoop fuel r).1.reorderBytes
    relReleased := (releaseLoop fuel r).1.relReleased
    nacks := (releaseLoop fuel r).1.nacks } := by
  induction fuel generalizing r with
  | zero => rfl
  | succ fuel ih =>
    simp only [releaseLoop]
    split
    · rfl
    · rw [Machine.andThen_fst, ih]

theorem releaseContiguous_frame : (r.releaseContiguous now).1 = { r with
    reorder := (r.releaseContiguous now).1.reorder
    reorderBytes := (r.releaseContiguous now).1.reorderBytes
    relReleased := (r.releaseContiguous now).1.relReleased
    nacks := (r.releaseContiguous now).1.nacks
    lastRelProgressAt := (r.releaseContiguous now).1.lastRelProgressAt } := by
  simp only [releaseContiguous]
  split <;> rw [releaseLoop_frame]

theorem releaseContiguous_keeps : Keeps r (r.releaseContiguous now).1 := by
  rw [releaseContiguous_frame]
  exact ⟨rfl, rfl, rfl, rfl, rfl, rfl, id, Or.inl ⟨rfl, rfl⟩⟩

theorem completeRel_keeps (f : XferSeq) : Keeps r (r.completeRel f now).1 := by
  unfold completeRel
  split
  · exact (releaseContiguous_keeps r now).andThen fun r => r.finishRel_keeps _
  · exact Keeps.refl r

theorem ackEnd_keeps (f : XferSeq) : Keeps r (r.ackEnd f).1 := by
  unfold ackEnd
  refine Keeps.andThen ?_ fun r => ?_
  · split
    · exact ⟨rfl, rfl, rfl, rfl, rfl, rfl, id, Or.inl ⟨rfl, rfl⟩⟩
    · exact Keeps.refl r
  · split
    · exact ⟨rfl, rfl, rfl, rfl, rfl, rfl, fun _ => rfl, Or.inl ⟨rfl, rfl⟩⟩
    · exact Keeps.refl r

theorem checkFinish_keeps : Keeps r (r.checkFinish now).1 := by
  unfold checkFinish
  split
  · exact Keeps.refl r
  · exact (completeRel_keeps r now _).andThen fun r => r.ackEnd_keeps _

theorem hold_keeps (frame : Frame) : Keeps r (r.hold frame) :=
  ⟨rfl, rfl, rfl, rfl, rfl, rfl, id, Or.inl ⟨rfl, rfl⟩⟩

theorem storeFrame_keeps (frame : Frame) : Keeps r (r.storeFrame frame now).1 := by
  unfold storeFrame
  split
  · exact finishRel_keeps r _
  · refine (hold_keeps r frame).trans ?_
    split
    · exact finishRel_keeps _ _
    · exact (releaseContiguous_keeps _ now).andThen fun r => r.checkFinish_keeps now

/-- After the arrival is noted, a data packet moves the reliable side only. -/
theorem onData_keeps (frame : Frame) :
    Keeps (r.noteArrival frame).1 (r.onData frame now).1 := by
  unfold onData
  rw [Machine.andThen_fst]
  generalize (r.noteArrival frame).1 = r'
  split
  · exact Keeps.refl r'
  · split
    · exact Keeps.refl r'
    · exact storeFrame_keeps r' now frame

theorem noteLost_keeps (l : XferSeq) :
    Keeps { r with senderLostBelow := (r.noteLost l).1.senderLostBelow } (r.noteLost l).1 := by
  simp only [noteLost]
  split
  · split
    · rw [(finishRel_keeps _ _).senderLostBelow]
      exact finishRel_keeps _ _
    · exact Keeps.refl _
  · exact Keeps.refl _

theorem emitNacks_keeps : Keeps r (r.emitNacks now).1 := by
  simp only [emitNacks]
  split
  · exact Keeps.refl r
  · have hnoted : ∀ nacks, Keeps r { r with nacks := nacks } :=
      fun _ => ⟨rfl, rfl, rfl, rfl, rfl, rfl, id, Or.inl ⟨rfl, rfl⟩⟩
    split
    · exact (hnoted _).trans (finishRel_keeps _ _)
    · exact hnoted _

theorem tickRel_keeps : Keeps r (r.tickRel now).1 := by
  unfold tickRel
  split
  · split
    · exact finishRel_keeps r _
    · exact emitNacks_keeps r now
  · exact Keeps.refl r

theorem closeIdle_keeps : Keeps r r.closeIdle.1 := by
  unfold closeIdle
  refine Keeps.andThen ?_ fun r =>
    ⟨rfl, rfl, rfl, rfl, rfl, rfl, fun _ => rfl, Or.inl ⟨rfl, rfl⟩⟩
  split
  · exact finishRel_keeps r _
  · exact Keeps.refl r

/-- An acknowledgement changes its own timer and nothing else. -/
theorem maybeAck_state : (r.maybeAck now).1 =
    { r with lastAckAt := (r.maybeAck now).1.lastAckAt } := by
  unfold maybeAck
  split
  · rfl
  · split
    · rfl
    · split <;> rfl

/-! ## One call -/

variable {r now}

/-- A closed receiver is not ticked. -/
theorem tick_of_closed (hc : r.closed = true) : r.tick now = (r, []) := by
  rw [tick, if_pos hc]

theorem tick_of_idle (hc : r.closed = false)
    (hi : r.cfg.idleTimeout < durationSince now r.lastPacketAt) : r.tick now = r.closeIdle := by
  rw [tick, if_neg (by simp [hc]), if_pos hi]

theorem tick_of_awake (hc : r.closed = false)
    (hi : durationSince now r.lastPacketAt ≤ r.cfg.idleTimeout) :
    r.tick now = andThen (r.tickRel now) fun r => r.maybeAck now := by
  rw [tick, if_neg (by simp [hc]), if_neg (not_lt.mpr hi)]

variable (r now)

theorem tick_keeps : Keeps r { (r.tick now).1 with lastAckAt := r.lastAckAt } := by
  unfold tick
  split
  · exact Keeps.refl r
  · split
    · have h := closeIdle_keeps r
      exact ⟨h.cfg, h.finalSeq, h.senderLostBelow, h.lastPacketAt, rfl, h.bufferedMs, h.closed,
        h.gaps⟩
    · have h := tickRel_keeps r now
      rw [Machine.andThen_fst, maybeAck_state]
      exact ⟨h.cfg, h.finalSeq, h.senderLostBelow, h.lastPacketAt, rfl, h.bufferedMs, h.closed,
        h.gaps⟩

/-- The receiver once it has taken note of a call, before it concludes
anything from it. -/
def told : RecvCall → XferReceiver
  | .handle seq (.data ts payload) now => ((r.heard now).noteArrival ⟨seq, ts, payload⟩).1
  | .handle _ (.end f) now => (r.heard now).declareEnd f
  | .handle _ (.keepalive l) now =>
    { r.heard now with senderLostBelow := ((r.heard now).noteLost l).1.senderLostBelow }
  | .handle _ _ now => r.heard now
  | .tick _ => r
  | .setBufferedMs ms => r.setBufferedMs ms

/-- What a call concludes leaves what it took note of, the acknowledgement
timer apart. -/
theorem step_keeps (c : RecvCall) :
    Keeps (r.told c) { (r.step c).1 with lastAckAt := r.lastAckAt } := by
  cases c with
  | tick now => exact tick_keeps r now
  | setBufferedMs ms => exact Keeps.refl _
  | handle seq body now =>
    have hbody : Keeps (r.told (.handle seq body now)) ((r.heard now).onBody seq body now).1 := by
      cases body with
      | data ts payload => exact onData_keeps (r.heard now) now ⟨seq, ts, payload⟩
      | «end» f => exact checkFinish_keeps ((r.heard now).declareEnd f) now
      | keepalive l => exact (noteLost_keeps (r.heard now) l).trans (checkFinish_keeps _ now)
      | ack | nack | endAck => exact Keeps.refl _
    have hack : (r.told (.handle seq body now)).lastAckAt = r.lastAckAt := by
      cases body <;> rfl
    show Keeps _ { (maybeAck _ now).1 with lastAckAt := r.lastAckAt }
    rw [maybeAck_state]
    exact ⟨hbody.cfg, hbody.finalSeq, hbody.senderLostBelow, hbody.lastPacketAt, hack.symm,
      hbody.bufferedMs, hbody.closed, hbody.gaps⟩

end XferReceiver

end Protofish4
