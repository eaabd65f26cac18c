import Protofish4.Xfer.Receiver

/-!
# Which events a receiver emits, and when

One inversion lemma for each function: an event in its output is one of a
few, each with the condition it is emitted under. Later proofs ask these
lemmas instead of unfolding the functions.
-/

namespace Protofish4

namespace XferReceiver

variable {r : XferReceiver} {now : Instant} {e : RecvEvent}

theorem finishRel_events {o : RelOutcome} (h : e ∈ (r.finishRel o).2) :
    r.relState = .streaming ∧ e = .relFinished o := by
  unfold finishRel at h
  split at h
  · cases h
  · rename_i hs
    refine ⟨?_, List.mem_singleton.mp h⟩
    cases hr : r.relState
    · rfl
    · exact absurd hr hs

theorem releaseLoop_events {fuel : Nat} (h : e ∈ (releaseLoop fuel r).2) :
    ∃ frame, e = .reliable frame := by
  induction fuel generalizing r with
  | zero => cases h
  | succ fuel ih =>
    simp only [releaseLoop] at h
    split at h
    · cases h
    · rcases Machine.mem_andThen.mp h with h | h
      · exact ⟨_, List.mem_singleton.mp h⟩
      · exact ih h

theorem completeRel_events {f : XferSeq} (h : e ∈ (r.completeRel f now).2) :
    r.relState = .streaming ∧ r.gaps.isComplete f
      ∧ ((∃ frame, e = .reliable frame) ∨ e = .relFinished (.complete f)) := by
  unfold completeRel at h
  split at h
  · rename_i hc
    refine ⟨hc.1, hc.2, ?_⟩
    rcases Machine.mem_andThen.mp h with h | h
    · exact Or.inl (releaseLoop_events h)
    · exact Or.inr (finishRel_events h).2
  · cases h

theorem ackEnd_events {f : XferSeq} (h : e ∈ (r.ackEnd f).2) :
    (e = .sendEndAck ∧ r.endAcked = false ∧ r.gaps.isComplete f)
      ∨ (e = .closed ∧ r.closed = false ∧ (r.endAcked ∨ r.gaps.isComplete f)) := by
  unfold ackEnd at h
  rcases Machine.mem_andThen.mp h with h | h
  · split at h
    · exact Or.inl ⟨List.mem_singleton.mp h, ‹_›⟩
    · cases h
  · by_cases hc : r.endAcked = false ∧ r.gaps.isComplete f = true
    · rw [if_pos hc] at h
      split at h
      · rename_i hcl
        exact Or.inr ⟨List.mem_singleton.mp h, hcl.2, Or.inr hc.2⟩
      · cases h
    · rw [if_neg hc] at h
      split at h
      · rename_i hcl
        exact Or.inr ⟨List.mem_singleton.mp h, hcl.2, Or.inl hcl.1⟩
      · cases h

/-- Finishing releases, declares completeness, acknowledges and closes. -/
theorem checkFinish_events (h : e ∈ (r.checkFinish now).2) :
    (∃ frame, e = .reliable frame) ∨ (∃ f, r.finalSeq = some f ∧ e = .relFinished (.complete f))
      ∨ e = .sendEndAck ∨ e = .closed := by
  unfold checkFinish at h
  split at h
  · cases h
  · rename_i f hf
    rcases Machine.mem_andThen.mp h with h | h
    · rcases (completeRel_events h).2.2 with he | he
      · exact Or.inl he
      · exact Or.inr (Or.inl ⟨f, hf, he⟩)
    · rcases ackEnd_events h with ⟨he, -⟩ | ⟨he, -⟩
      · exact Or.inr (Or.inr (Or.inl he))
      · exact Or.inr (Or.inr (Or.inr he))

theorem storeFrame_events {frame : Frame} (h : e ∈ (r.storeFrame frame now).2) :
    e = .relFinished (.aborted .bufferExhausted) ∨ (∃ frame, e = .reliable frame)
      ∨ (∃ f, r.finalSeq = some f ∧ e = .relFinished (.complete f))
      ∨ e = .sendEndAck ∨ e = .closed := by
  unfold storeFrame at h
  split at h
  · exact Or.inl (finishRel_events h).2
  · split at h
    · exact Or.inl (finishRel_events h).2
    · right
      rcases Machine.mem_andThen.mp h with h | h
      · exact Or.inl (releaseLoop_events h)
      · have hf := (releaseContiguous_keeps (r.hold frame) now).finalSeq
        rcases checkFinish_events h with h | ⟨f, hfs, h⟩ | h
        · exact Or.inl h
        · exact Or.inr (Or.inl ⟨f, hf ▸ hfs, h⟩)
        · exact Or.inr (Or.inr h)

theorem noteArrival_events {frame : Frame} (h : e ∈ (r.noteArrival frame).2) :
    e = .unreliable frame ∧ (r.gaps.record frame.seq).2 = true ∧ r.cfg.mode.wantsUnrel = true := by
  simp only [noteArrival] at h
  split at h
  · rename_i hc
    rw [Bool.and_eq_true] at hc
    exact ⟨List.mem_singleton.mp h, hc⟩
  · cases h

theorem onData_events {frame : Frame} (h : e ∈ (r.onData frame now).2) :
    e = .unreliable frame ∨ e = .relFinished (.aborted .bufferExhausted)
      ∨ (∃ frame, e = .reliable frame)
      ∨ (∃ f, r.finalSeq = some f ∧ e = .relFinished (.complete f))
      ∨ e = .sendEndAck ∨ e = .closed := by
  unfold onData at h
  rcases Machine.mem_andThen.mp h with h | h
  · exact Or.inl (noteArrival_events h).1
  · right
    have hf : (r.noteArrival frame).1.finalSeq = r.finalSeq := rfl
    generalize (r.noteArrival frame).1 = r' at h hf
    rw [← hf]
    split at h
    · cases h
    · split at h
      · cases h
      · exact storeFrame_events h

/-- A discard report ends a stream whose segment it reaches beyond. -/
theorem noteLost_events {l : XferSeq} (h : e ∈ (r.noteLost l).2) :
    e = .relFinished (.aborted .senderDiscarded) ∧ r.relState = .streaming
      ∧ r.gaps.contiguous < l.toNat := by
  simp only [noteLost] at h
  split at h
  · split at h
    · rename_i hc
      exact ⟨(finishRel_events h).2, hc⟩
    · cases h
  · cases h

/-- What handling one body can emit, its acknowledgement apart. -/
theorem onBody_events {seq : XferSeq} {body : Body} (h : e ∈ (r.onBody seq body now).2) :
    (∃ ts payload, body = .data ts payload ∧ e = .unreliable ⟨seq, ts, payload⟩)
      ∨ (∃ ts payload, body = .data ts payload ∧ e = .relFinished (.aborted .bufferExhausted))
      ∨ (∃ l, body = .keepalive l ∧ e = .relFinished (.aborted .senderDiscarded)
        ∧ r.gaps.contiguous < l.toNat)
      ∨ (∃ frame, e = .reliable frame) ∨ (∃ f, e = .relFinished (.complete f))
      ∨ e = .sendEndAck ∨ e = .closed := by
  have hfinish : ∀ {r' : XferReceiver}, e ∈ (r'.checkFinish now).2 →
      (∃ frame, e = .reliable frame) ∨ (∃ f, e = .relFinished (.complete f))
        ∨ e = .sendEndAck ∨ e = .closed := by
    intro r' he
    rcases checkFinish_events he with he | ⟨f, -, he⟩ | he
    · exact Or.inl he
    · exact Or.inr (Or.inl ⟨f, he⟩)
    · exact Or.inr (Or.inr he)
  cases body with
  | data ts payload =>
    rcases onData_events h with h | h | h | ⟨f, -, h⟩ | h
    · exact Or.inl ⟨ts, payload, rfl, h⟩
    · exact Or.inr (Or.inl ⟨ts, payload, rfl, h⟩)
    · exact Or.inr (Or.inr (Or.inr (Or.inl h)))
    · exact Or.inr (Or.inr (Or.inr (Or.inr (Or.inl ⟨f, h⟩))))
    · exact Or.inr (Or.inr (Or.inr (Or.inr (Or.inr h))))
  | «end» f => exact Or.inr (Or.inr (Or.inr (hfinish h)))
  | keepalive l =>
    rcases Machine.mem_andThen.mp h with h | h
    · obtain ⟨he, -, hlt⟩ := noteLost_events h
      exact Or.inr (Or.inr (Or.inl ⟨l, rfl, he, hlt⟩))
    · exact Or.inr (Or.inr (Or.inr (hfinish h)))
  | ack | nack | endAck => cases h

/-- An acknowledgement reports the tracker as it stands. -/
theorem maybeAck_events (h : e ∈ (r.maybeAck now).2) :
    e = .sendAck (XferSeq.ofNat r.gaps.contiguous) (XferSeq.ofNat r.gaps.highest)
        (UInt16.ofNat (min r.bufferedMs 65535))
      ∧ r.closed = false ∧ r.cfg.ackInterval ≤ durationSince now r.lastAckAt
      ∧ r.gaps.highest ≠ 0 := by
  unfold maybeAck at h
  split at h
  · cases h
  · rename_i hc
    split at h
    · cases h
    · rename_i hi
      split at h
      · cases h
      · rename_i hh
        exact ⟨List.mem_singleton.mp h, by simpa using hc, not_lt.mp hi, hh⟩

theorem maybeAck_due (hc : r.closed = false)
    (hi : r.cfg.ackInterval ≤ durationSince now r.lastAckAt)
    (hh : r.gaps.highest ≠ 0) :
    (r.maybeAck now).2 = [.sendAck (XferSeq.ofNat r.gaps.contiguous)
      (XferSeq.ofNat r.gaps.highest) (UInt16.ofNat (min r.bufferedMs 65535))] := by
  unfold maybeAck
  rw [if_neg (by simp [hc]), if_neg (not_lt.mpr hi), if_neg hh]

theorem emitNacks_events (h : e ∈ (r.emitNacks now).2) :
    e = .relFinished (.aborted .unrecoverableGap)
      ∨ ∃ ask, e = .sendNack ask ∧ ask ≠ [] ∧ ask = (nackLoop r.cfg r.senderLostBelow now
        (r.gaps.missing maxNackEntries) r.nacks []).ask := by
  simp only [emitNacks] at h
  split at h
  · cases h
  · generalize nackLoop r.cfg r.senderLostBelow now (r.gaps.missing maxNackEntries) r.nacks []
      = asked at h
    split at h
    · exact Or.inl (finishRel_events h).2
    · right
      split at h
      · cases h
      · rename_i hne
        exact ⟨_, List.mem_singleton.mp h, by simpa using hne, rfl⟩

theorem tickRel_events (h : e ∈ (r.tickRel now).2) :
    r.relState = .streaming
      ∧ ((e = .relFinished (.aborted .stalled)
          ∧ r.cfg.relStallTimeout < durationSince now r.lastRelProgressAt)
        ∨ e = .relFinished (.aborted .unrecoverableGap)
        ∨ ∃ ask, e = .sendNack ask ∧ ask ≠ [] ∧ ask = (nackLoop r.cfg r.senderLostBelow now
          (r.gaps.missing maxNackEntries) r.nacks []).ask) := by
  unfold tickRel at h
  split at h
  · rename_i hs
    refine ⟨hs, ?_⟩
    split at h
    · exact Or.inl ⟨(finishRel_events h).2, ‹_›⟩
    · exact Or.inr (emitNacks_events h)
  · cases h

theorem closeIdle_events (h : e ∈ r.closeIdle.2) :
    (e = .relFinished (.aborted .peerGone) ∧ r.relState = .streaming) ∨ e = .closed := by
  unfold closeIdle at h
  rcases Machine.mem_andThen.mp h with h | h
  · split at h
    · exact Or.inl ⟨(finishRel_events h).2, ‹_›⟩
    · cases h
  · exact Or.inr (List.mem_singleton.mp h)

theorem tick_events (h : e ∈ (r.tick now).2) : r.closed = false
    ∧ (r.cfg.idleTimeout < durationSince now r.lastPacketAt ∧ e ∈ r.closeIdle.2
      ∨ durationSince now r.lastPacketAt ≤ r.cfg.idleTimeout
        ∧ (e ∈ (r.tickRel now).2 ∨ e ∈ ((r.tickRel now).1.maybeAck now).2)) := by
  cases hc : r.closed with
  | true =>
    rw [tick_of_closed hc] at h
    cases h
  | false =>
    refine ⟨rfl, ?_⟩
    rcases Nat.lt_or_ge r.cfg.idleTimeout (durationSince now r.lastPacketAt) with hi | hi
    · rw [tick_of_idle hc hi] at h
      exact Or.inl ⟨hi, h⟩
    · rw [tick_of_awake hc hi] at h
      exact Or.inr ⟨hi, Machine.mem_andThen.mp h⟩

/-- What a tick can emit. -/
theorem tick_emits (h : e ∈ (r.tick now).2) :
    e = .relFinished (.aborted .peerGone) ∨ e = .relFinished (.aborted .stalled)
      ∨ e = .relFinished (.aborted .unrecoverableGap) ∨ (∃ ask, e = .sendNack ask)
      ∨ (∃ c hi b, e = .sendAck c hi b) ∨ e = .closed := by
  obtain ⟨-, ⟨-, h⟩ | ⟨-, h | h⟩⟩ := tick_events h
  · rcases closeIdle_events h with ⟨he, -⟩ | he
    · exact Or.inl he
    · exact Or.inr (Or.inr (Or.inr (Or.inr (Or.inr he))))
  · rcases (tickRel_events h).2 with ⟨he, -⟩ | he | ⟨ask, he, -⟩
    · exact Or.inr (Or.inl he)
    · exact Or.inr (Or.inr (Or.inl he))
    · exact Or.inr (Or.inr (Or.inr (Or.inl ⟨ask, he⟩)))
  · exact Or.inr (Or.inr (Or.inr (Or.inr (Or.inl ⟨_, _, _, (maybeAck_events h).1⟩))))

/-- One call hands over at most one playback frame, before anything else. -/
theorem handle_unreliable_first (r : XferReceiver) (seq : XferSeq) (body : Body) (now : Instant) :
    ∃ first rest, (r.handle seq body now).2 = first ++ rest
      ∧ (first = [] ∨ ∃ f, first = [.unreliable f]) ∧ ∀ f, .unreliable f ∉ rest := by
  have hack : ∀ (r' : XferReceiver) f, .unreliable f ∉ (r'.maybeAck now).2 := by
    intro r' f h
    cases (maybeAck_events h).1
  cases body with
  | data ts payload =>
    refine ⟨((r.heard now).noteArrival ⟨seq, ts, payload⟩).2, _, List.append_assoc _ _ _, ?_, ?_⟩
    · simp only [noteArrival]
      split
      · exact Or.inr ⟨_, rfl⟩
      · exact Or.inl rfl
    · intro f h
      rcases List.mem_append.mp h with h | h
      · beta_reduce at h
        split at h
        · cases h
        · split at h
          · cases h
          · rcases storeFrame_events h with he | ⟨_, he⟩ | ⟨_, -, he⟩ | he | he <;> cases he
      · exact hack _ f h
  | «end» | keepalive | ack | nack | endAck =>
    refine ⟨[], (r.handle seq _ now).2, rfl, Or.inl rfl, fun f h => ?_⟩
    rcases Machine.mem_andThen.mp h with h | h
    · rcases onBody_events h with ⟨_, _, hb, _⟩ | ⟨_, _, hb, _⟩ | ⟨_, _, he, _⟩ | ⟨_, he⟩
        | ⟨_, he⟩ | he | he <;> first | cases hb | cases he
    · exact hack _ f h

/-- A tick hands over no frame. -/
theorem tick_no_frame (r : XferReceiver) (now : Instant) (f : Frame) :
    .unreliable f ∉ (r.tick now).2 ∧ .reliable f ∉ (r.tick now).2 := by
  constructor <;> intro h <;>
    rcases tick_emits h with he | he | he | ⟨_, he⟩ | ⟨_, _, _, he⟩ | he <;> cases he

/-- Every acknowledgement a call returns reports the tracker it leaves. -/
theorem sendAck_of_mem_step {c : RecvCall} {contiguous highest : XferSeq} {bufferedMs : UInt16}
    (h : .sendAck contiguous highest bufferedMs ∈ (r.step c).2) :
    contiguous = XferSeq.ofNat (r.step c).1.gaps.contiguous
      ∧ highest = XferSeq.ofNat (r.step c).1.gaps.highest := by
  have hack : ∀ {r' : XferReceiver} {now : Instant},
      .sendAck contiguous highest bufferedMs ∈ (r'.maybeAck now).2 →
      contiguous = XferSeq.ofNat (r'.maybeAck now).1.gaps.contiguous
        ∧ highest = XferSeq.ofNat (r'.maybeAck now).1.gaps.highest := by
    intro r' now h
    rw [maybeAck_state]
    have he := (maybeAck_events h).1
    simp only [RecvEvent.sendAck.injEq] at he
    exact ⟨he.1, he.2.1⟩
  cases c with
  | setBufferedMs ms => cases h
  | handle seq body now =>
    rcases Machine.mem_andThen.mp h with h | h
    · exfalso
      rcases onBody_events h with ⟨_, _, _, he⟩ | ⟨_, _, _, he⟩ | ⟨_, _, he, _⟩ | ⟨_, he⟩
        | ⟨_, he⟩ | he | he <;> cases he
    · exact hack h
  | tick now =>
    show contiguous = XferSeq.ofNat (r.tick now).1.gaps.contiguous
      ∧ highest = XferSeq.ofNat (r.tick now).1.gaps.highest
    obtain ⟨hc, ⟨-, h⟩ | ⟨hi, h | h⟩⟩ := tick_events h
    · rcases closeIdle_events h with ⟨he, _⟩ | he <;> cases he
    · rcases (tickRel_events h).2 with ⟨he, _⟩ | he | ⟨_, he, _⟩ <;> cases he
    · rw [tick_of_awake hc hi]
      exact hack h

/-- A stream ends as discarded only on a report beyond its segment. -/
theorem senderDiscarded_of_mem_step {c : RecvCall}
    (h : .relFinished (.aborted .senderDiscarded) ∈ (r.step c).2) :
    ∃ seq l now, c = .handle seq (.keepalive l) now ∧ r.gaps.contiguous < l.toNat := by
  cases c with
  | setBufferedMs ms => cases h
  | handle seq body now =>
    rcases Machine.mem_andThen.mp h with h | h
    · rcases onBody_events h with ⟨_, _, _, he⟩ | ⟨_, _, _, he⟩ | ⟨l, hb, -, hlt⟩ | ⟨_, he⟩
        | ⟨_, he⟩ | he | he <;> first | cases he | skip
      exact ⟨seq, l, now, by rw [hb], hlt⟩
    · cases (maybeAck_events h).1
  | tick now =>
    rcases tick_emits h with he | he | he | ⟨_, he⟩ | ⟨_, _, _, he⟩ | he <;> cases he

theorem length_nackLoop_ask (cfg : ReceiverConfig) (senderLostBelow : Nat) (now : Instant)
    (l : List Nat) (nacks : Std.ExtTreeMap Nat (Nat × Instant)) (ask : List XferSeq) :
    (nackLoop cfg senderLostBelow now l nacks ask).ask.length ≤ ask.length + l.length := by
  induction l generalizing nacks ask with
  | nil => exact le_rfl
  | cons s l ih =>
    simp only [nackLoop, List.length_cons]
    split
    · exact Nat.le_add_right _ _
    · split
      · exact Nat.le_add_right _ _
      · split
        · refine (ih _ _).trans ?_
          rw [List.length_append, List.length_singleton]
          omega
        · exact (ih _ _).trans (by omega)

/-- Only a tick of a streaming receiver asks, and for what its loop
collected. -/
theorem sendNack_spec {c : RecvCall} {missing : List XferSeq}
    (h : .sendNack missing ∈ (r.step c).2) : r.relState = .streaming
      ∧ ∃ now, c = .tick now ∧ missing = (nackLoop r.cfg r.senderLostBelow now
        (r.gaps.missing maxNackEntries) r.nacks []).ask := by
  cases c with
  | setBufferedMs ms => cases h
  | handle seq body now =>
    exfalso
    rcases Machine.mem_andThen.mp h with h | h
    · rcases onBody_events h with ⟨_, _, _, he⟩ | ⟨_, _, _, he⟩ | ⟨_, _, he, _⟩ | ⟨_, he⟩
        | ⟨_, he⟩ | he | he <;> cases he
    · cases (maybeAck_events h).1
  | tick now =>
    obtain ⟨-, ⟨-, h⟩ | ⟨-, h | h⟩⟩ := tick_events h
    · rcases closeIdle_events h with ⟨he, _⟩ | he <;> cases he
    · obtain ⟨hs, he⟩ := tickRel_events h
      rcases he with ⟨he, _⟩ | he | ⟨ask, he, -, hask⟩
      · cases he
      · cases he
      · cases he
        exact ⟨hs, now, rfl, hask⟩
    · cases (maybeAck_events h).1

/-- A request fits into one `Nack`. -/
theorem sendNack_of_mem_step {c : RecvCall} {missing : List XferSeq} (hwf : r.gaps.WF)
    (h : .sendNack missing ∈ (r.step c).2) : missing.length ≤ maxNackEntries := by
  obtain ⟨-, now, -, rfl⟩ := sendNack_spec h
  refine (length_nackLoop_ask _ _ _ _ _ _).trans ?_
  simpa using GapTracker.length_missing_le r.gaps maxNackEntries hwf

end XferReceiver

end Protofish4
