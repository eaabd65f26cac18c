import Protofish4.Xfer.Stall
import Protofish4.Xfer.Terminal

/-!
# What closes a receiver

Two things close a receiver: its end is acknowledged, or a tick finds that
nothing has been heard for too long. As long as no tick has found that, the
two flags of a closed and an acknowledged end go together.
-/

namespace Protofish4

namespace XferReceiver

variable {r : XferReceiver} {now : Instant}

/-! ## When the tap was last heard -/

/-- The time of the last packet among these calls, or their start. -/
def lastHeard (start : Instant) (calls : List RecvCall) : Instant :=
  calls.foldl (fun t c => match c with
    | .handle _ _ now => now
    | .tick _ | .setBufferedMs _ => t) start

theorem lastPacketAt_run (cfg : ReceiverConfig) (start : Instant) (calls : List RecvCall) :
    (run cfg start calls).1.lastPacketAt = lastHeard start calls := by
  induction calls using List.reverseRecOn with
  | nil => rfl
  | append_singleton calls c ih =>
    have hkeep := ((run cfg start calls).1.step_keeps c).lastPacketAt
    simp only at hkeep
    rw [run_concat, Machine.andThen_fst, hkeep, lastHeard, List.foldl_append]
    cases c with
    | handle seq body now => cases body <;> rfl
    | tick now => exact ih
    | setBufferedMs ms => exact ih

/-! ## The two flags -/

/-- Closed, and the end acknowledged: both or neither. -/
def Agrees (r : XferReceiver) : Prop := r.closed = r.endAcked

namespace Agrees

theorem new (cfg : ReceiverConfig) (start : Instant) : Agrees (.new cfg start) := rfl

theorem of_flags {r' : XferReceiver} (h : Agrees r)
    (hf : r'.endAcked = r.endAcked ∧ r'.closed = r.closed) : Agrees r' :=
  hf.2.trans (h.trans hf.1.symm)

theorem finishRel (h : Agrees r) (o : RelOutcome) : Agrees (r.finishRel o).1 := by
  refine h.of_flags ?_
  unfold XferReceiver.finishRel
  split <;> exact ⟨rfl, rfl⟩

/-- An end that is acknowledged closes. -/
theorem ackEnd (h : Agrees r) (f : XferSeq) : Agrees (r.ackEnd f).1 := by
  unfold Agrees at h ⊢
  unfold XferReceiver.ackEnd
  rw [Machine.andThen_fst]
  by_cases hack : r.endAcked = false ∧ r.gaps.isComplete f = true
  · rw [if_pos hack]
    rw [hack.1] at h
    simp [h]
  · rw [if_neg hack]
    have hnot : ¬ (r.endAcked = true ∧ r.closed = false) := by
      rw [h]
      simp
    rw [if_neg hnot]
    exact h

theorem checkFinish (h : Agrees r) : Agrees (r.checkFinish now).1 := by
  unfold XferReceiver.checkFinish
  split
  · exact h
  · rename_i f _
    exact (h.of_flags (completeRel_flags r now f)).ackEnd f

theorem storeFrame (h : Agrees r) (frame : Frame) : Agrees (r.storeFrame frame now).1 := by
  unfold XferReceiver.storeFrame
  split
  · exact h.finishRel _
  · split
    · exact finishRel (r := r.hold frame) h _
    · rw [Machine.andThen_fst]
      refine checkFinish ?_
      rw [releaseContiguous_frame]
      exact h

theorem onBody (h : Agrees r) (seq : XferSeq) (body : Body) : Agrees (r.onBody seq body now).1 := by
  cases body with
  | data ts payload =>
    change Agrees (r.onData ⟨seq, ts, payload⟩ now).1
    unfold onData
    rw [Machine.andThen_fst]
    have hnote : Agrees (r.noteArrival ⟨seq, ts, payload⟩).1 := h
    split
    · exact hnote
    · split
      · exact hnote
      · exact hnote.storeFrame _
  | «end» f => exact checkFinish (r := r.declareEnd f) h
  | keepalive l => exact checkFinish (h.of_flags (noteLost_flags r l))
  | ack | nack | endAck => exact h

theorem handle (h : Agrees r) (seq : XferSeq) (body : Body) : Agrees (r.handle seq body now).1 := by
  rw [XferReceiver.handle, Machine.andThen_fst, maybeAck_state]
  exact onBody (r := r.heard now) h seq body

/-- A tick that leaves the receiver open has not touched the flags. -/
theorem tick (h : Agrees r) (hopen : (r.tick now).1.closed = false) : Agrees (r.tick now).1 := by
  cases hc : r.closed with
  | true =>
    rw [tick_of_closed hc]
    exact h
  | false =>
    rcases Nat.lt_or_ge r.cfg.idleTimeout (durationSince now r.lastPacketAt) with hi | hi
    · rw [tick_of_idle hc hi] at hopen
      cases hopen
    · rw [tick_of_awake hc hi, Machine.andThen_fst, maybeAck_state]
      exact h.of_flags (tickRel_flags r now)

theorem step (h : Agrees r) (c : RecvCall)
    (hopen : ∀ now, c = .tick now → (r.step c).1.closed = false) : Agrees (r.step c).1 := by
  cases c with
  | handle seq body now => exact h.handle seq body
  | tick now => exact h.tick (hopen now rfl)
  | setBufferedMs ms => exact h

end Agrees

/-! ## What a tick decides -/

/-- A tick closes a receiver that has heard nothing for too long. -/
theorem tick_closed_iff : (r.tick now).1.closed = true
    ↔ r.closed = true ∨ r.cfg.idleTimeout < durationSince now r.lastPacketAt := by
  cases hc : r.closed with
  | true =>
    rw [tick_of_closed hc]
    simp [hc]
  | false =>
    rcases Nat.lt_or_ge r.cfg.idleTimeout (durationSince now r.lastPacketAt) with hi | hi
    · rw [tick_of_idle hc hi]
      simp [closeIdle, hi]
    · rw [tick_of_awake hc hi, Machine.andThen_fst, maybeAck_state]
      have hflag := (tickRel_flags r now).2
      simp [hflag, hc, not_lt.mpr hi]

/-- It declares the peer gone if the stream still streams then. -/
theorem peerGone_mem_tick_iff : .relFinished (.aborted .peerGone) ∈ (r.tick now).2
    ↔ r.closed = false ∧ r.relState = .streaming
      ∧ r.cfg.idleTimeout < durationSince now r.lastPacketAt := by
  constructor
  · intro h
    obtain ⟨hc, ⟨hi, h⟩ | ⟨-, h | h⟩⟩ := tick_events h
    · rcases closeIdle_events h with ⟨-, hs⟩ | he
      · exact ⟨hc, hs, hi⟩
      · cases he
    · rcases (tickRel_events h).2 with ⟨he, -⟩ | he | ⟨_, he, -⟩ <;> cases he
    · cases (maybeAck_events h).1
  · rintro ⟨hc, hs, hi⟩
    rw [tick_of_idle hc hi]
    simp [closeIdle, XferReceiver.finishRel, hs]

end XferReceiver

end Protofish4
