import Protofish4.Xfer.Terminal

/-!
# When a transfer has landed

`check_finish` compares the announced end with the contiguous segment. For
each call, this module says exactly when it declares the stream complete
and when it acknowledges the end, in terms of the receiver before the call
and of the call itself.
-/

namespace Protofish4

namespace XferReceiver

variable {r : XferReceiver} {now : Instant} {f : XferSeq}

/-- The frame just noted breaks the reorder window or the byte budget. -/
def Overflows (r : XferReceiver) (frame : Frame) : Prop :=
  r.gaps.windowSpan > r.cfg.reorderWindow
    ∨ r.reorderBytes + frame.payload.length > r.cfg.maxReorderBytes

instance (r : XferReceiver) (frame : Frame) : Decidable (r.Overflows frame) :=
  inferInstanceAs (Decidable (_ ∨ _))

/-- The announced end lies inside the contiguous segment. -/
def Reached (r : XferReceiver) (f : XferSeq) : Prop :=
  r.finalSeq = some f ∧ f.toNat ≤ r.gaps.contiguous

theorem Keeps.reached_iff {r' : XferReceiver} (h : Keeps r r') : r'.Reached f ↔ r.Reached f := by
  unfold Reached
  rw [h.finalSeq, h.contiguous]

/-! ## `check_finish` -/

theorem complete_mem_checkFinish :
    .relFinished (.complete f) ∈ (r.checkFinish now).2 ↔ r.relState = .streaming ∧ r.Reached f := by
  unfold checkFinish Reached
  cases hfin : r.finalSeq with
  | none => simp
  | some g =>
    constructor
    · intro h
      rcases Machine.mem_andThen.mp h with h | h
      · obtain ⟨hs, hc, ⟨_, he⟩ | he⟩ := completeRel_events h
        · cases he
        · cases he
          exact ⟨hs, rfl, of_decide_eq_true hc⟩
      · rcases ackEnd_events h with ⟨he, -⟩ | ⟨he, -⟩ <;> cases he
    · rintro ⟨hs, heq, hle⟩
      cases heq
      refine Machine.mem_andThen.mpr (Or.inl ?_)
      rw [completeRel, if_pos ⟨hs, decide_eq_true hle⟩]
      refine Machine.mem_andThen.mpr (Or.inr ?_)
      have hstr : (r.releaseContiguous now).1.relState = .streaming := by
        rw [releaseContiguous_frame]
        exact hs
      simp [finishRel, hstr]

theorem sendEndAck_mem_ackEnd :
    .sendEndAck ∈ (r.ackEnd f).2 ↔ r.endAcked = false ∧ f.toNat ≤ r.gaps.contiguous := by
  constructor
  · intro h
    rcases ackEnd_events h with ⟨-, ha, hc⟩ | ⟨he, -⟩
    · exact ⟨ha, of_decide_eq_true hc⟩
    · cases he
  · rintro ⟨ha, hle⟩
    refine Machine.mem_andThen.mpr (Or.inl ?_)
    simp [ha, GapTracker.isComplete, hle]

theorem sendEndAck_mem_checkFinish :
    .sendEndAck ∈ (r.checkFinish now).2 ↔ r.endAcked = false ∧ ∃ f, r.Reached f := by
  unfold checkFinish Reached
  cases hfin : r.finalSeq with
  | none => simp
  | some g =>
    have hk := completeRel_keeps r now g
    have hnot : .sendEndAck ∉ (r.completeRel g now).2 := by
      intro h
      rcases (completeRel_events h).2.2 with ⟨_, he⟩ | he <;> cases he
    simp only [Machine.andThen_snd, List.mem_append, hnot, false_or, sendEndAck_mem_ackEnd,
      (completeRel_flags r now g).1, hk.contiguous, Option.some.injEq, exists_eq_left']

/-! ## Storing a frame -/

/-- A frame that fits is released as far as possible and then checked. -/
theorem storeFrame_fits {frame : Frame} (h : ¬ r.Overflows frame) :
    r.storeFrame frame now
      = Machine.andThen ((r.hold frame).releaseContiguous now) fun r => r.checkFinish now := by
  unfold Overflows at h
  push Not at h
  have h1 : ¬ r.gaps.windowSpan > r.cfg.reorderWindow := not_lt.mpr h.1
  have h2 : ¬ (r.hold frame).reorderBytes > r.cfg.maxReorderBytes := not_lt.mpr h.2
  rw [storeFrame, if_neg h1, if_neg h2]

/-- A frame that does not fit ends the stream. -/
theorem storeFrame_overflows {frame : Frame} (h : r.Overflows frame) {e : RecvEvent}
    (he : e ∈ (r.storeFrame frame now).2) : e = .relFinished (.aborted .bufferExhausted) := by
  unfold storeFrame at he
  split at he
  · exact (finishRel_events he).2
  · rename_i h1
    have h2 : (r.hold frame).reorderBytes > r.cfg.maxReorderBytes := h.resolve_left h1
    rw [if_pos h2] at he
    exact (finishRel_events he).2

/-- Only `check_finish` emits these. -/
def OfEnd (e : RecvEvent) : Prop := e = .sendEndAck ∨ ∃ f, e = .relFinished (.complete f)

theorem mem_storeFrame {frame : Frame} {e : RecvEvent} (he : OfEnd e) :
    e ∈ (r.storeFrame frame now).2 ↔ ¬ r.Overflows frame
      ∧ e ∈ (((r.hold frame).releaseContiguous now).1.checkFinish now).2 := by
  by_cases h : r.Overflows frame
  · simp only [h, not_true_eq_false, false_and, iff_false]
    intro hm
    rcases he with rfl | ⟨_, rfl⟩ <;> cases storeFrame_overflows h hm
  · have hnot : e ∉ ((r.hold frame).releaseContiguous now).2 := by
      intro hm
      obtain ⟨_, hr⟩ := releaseLoop_events hm
      rcases he with rfl | ⟨_, rfl⟩ <;> cases hr
    rw [storeFrame_fits h, Machine.mem_andThen]
    simp [hnot, h]

/-! ## One call -/

/-- The call reaches `check_finish`: its frame, if it brings one, is new to
a stream that streams, and fits. -/
def Checks (r : XferReceiver) : RecvCall → Prop
  | .handle seq (.data ts payload) _ => r.relState = .streaming
      ∧ (r.gaps.record seq).2 = true
      ∧ ¬ (r.noteArrival ⟨seq, ts, payload⟩).1.Overflows ⟨seq, ts, payload⟩
  | .handle _ (.end _) _ | .handle _ (.keepalive _) _ => True
  | _ => False

/-- The receiver that `check_finish` is given in a call that reaches it. -/
def settled (r : XferReceiver) : RecvCall → XferReceiver
  | .handle seq (.data ts payload) now =>
    ((((r.heard now).noteArrival ⟨seq, ts, payload⟩).1.hold
      ⟨seq, ts, payload⟩).releaseContiguous now).1
  | .handle _ (.end f) now => (r.heard now).declareEnd f
  | .handle _ (.keepalive l) now => ((r.heard now).noteLost l).1
  | _ => r

theorem mem_step_of_end {c : RecvCall} {e : RecvEvent} (he : OfEnd e) :
    e ∈ (r.step c).2 ↔ r.Checks c ∧ ∃ now, e ∈ ((r.settled c).checkFinish now).2 := by
  have hnow : ∀ {r' : XferReceiver} {now : Instant}, e ∈ (r'.checkFinish now).2 →
      ∀ now', e ∈ (r'.checkFinish now').2 := by
    intro r' now h now'
    rcases he with rfl | ⟨f, rfl⟩
    · rwa [sendEndAck_mem_checkFinish] at h ⊢
    · rwa [complete_mem_checkFinish] at h ⊢
  cases c with
  | setBufferedMs ms => simp [step, Checks]
  | tick now =>
    simp only [step, Checks, false_and, iff_false]
    intro h
    rcases he with rfl | ⟨_, rfl⟩ <;>
      rcases tick_emits h with hr | hr | hr | ⟨_, hr⟩ | ⟨_, _, _, hr⟩ | hr <;> cases hr
  | handle seq body now =>
    have hack : ∀ r' : XferReceiver, e ∉ (r'.maybeAck now).2 := by
      intro r' h
      have hr := (maybeAck_events h).1
      rcases he with rfl | ⟨_, rfl⟩ <;> cases hr
    have hmem : e ∈ (r.step (.handle seq body now)).2 ↔
        e ∈ ((r.heard now).onBody seq body now).2 := by
      show e ∈ (r.handle seq body now).2 ↔ _
      rw [handle, Machine.mem_andThen]
      simp [hack]
    rw [hmem]
    cases body with
    | data ts payload =>
      have hnote : e ∉ ((r.heard now).noteArrival ⟨seq, ts, payload⟩).2 := by
        intro h
        have hr := (noteArrival_events h).1
        rcases he with rfl | ⟨_, rfl⟩ <;> cases hr
      show e ∈ ((r.heard now).onData ⟨seq, ts, payload⟩ now).2 ↔ _
      by_cases hf : (r.heard now).relState = .streaming
          ∧ ((r.heard now).gaps.record (⟨seq, ts, payload⟩ : Frame).seq).2 = true
      · rw [onData_fresh hf.1 hf.2, Machine.mem_andThen, mem_storeFrame he]
        simp only [hnote, false_or]
        exact ⟨fun h => ⟨⟨hf.1, hf.2, h.1⟩, now, h.2⟩,
          fun ⟨hc, _, h⟩ => ⟨hc.2.2, hnow h now⟩⟩
      · rw [onData_stale ((not_and_or.mp hf).imp_right (by simp))]
        simp only [hnote, false_iff]
        rintro ⟨⟨h1, h2, -⟩, -⟩
        exact hf ⟨h1, h2⟩
    | «end» g => exact ⟨fun h => ⟨trivial, now, h⟩, fun ⟨_, _, h⟩ => hnow h now⟩
    | keepalive l =>
      have hnote : e ∉ ((r.heard now).noteLost l).2 := by
        intro h
        have hr := (noteLost_events h).1
        rcases he with rfl | ⟨_, rfl⟩ <;> cases hr
      show e ∈ (Machine.andThen ((r.heard now).noteLost l) fun r => r.checkFinish now).2 ↔ _
      rw [Machine.mem_andThen]
      simp only [hnote, false_or]
      exact ⟨fun h => ⟨trivial, now, h⟩, fun ⟨_, _, h⟩ => hnow h now⟩
    | ack | nack | endAck => simp [onBody, Checks]

/-- The end in force after a call lies inside the segment it leaves. -/
def ReachedAfter (r : XferReceiver) (c : RecvCall) (f : XferSeq) : Prop :=
  endAfter r.finalSeq c = some f ∧ f.toNat ≤ (noted r.gaps c).contiguous

theorem settled_reached {c : RecvCall} : (r.settled c).Reached f ↔ r.ReachedAfter c f := by
  cases c with
  | setBufferedMs ms => exact Iff.rfl
  | tick now => exact Iff.rfl
  | handle seq body now =>
    cases body with
    | data ts payload =>
      exact ((hold_keeps _ _).trans (releaseContiguous_keeps _ now)).reached_iff
    | keepalive l => exact (noteLost_keeps (r.heard now) l).reached_iff
    | «end» | ack | nack | endAck => exact Iff.rfl

theorem settled_endAcked {c : RecvCall} : (r.settled c).endAcked = r.endAcked := by
  cases c with
  | setBufferedMs ms => rfl
  | tick now => rfl
  | handle seq body now =>
    cases body with
    | data ts payload =>
      simp only [settled]
      rw [releaseContiguous_frame]
      rfl
    | keepalive l => exact (noteLost_flags (r.heard now) l).1
    | «end» | ack | nack | endAck => rfl

/-- **Acknowledging the end**: a call does so when it checks and the end in
force lies inside the segment it leaves. -/
theorem sendEndAck_mem_step {c : RecvCall} :
    .sendEndAck ∈ (r.step c).2
      ↔ r.Checks c ∧ r.endAcked = false ∧ ∃ f, r.ReachedAfter c f := by
  rw [mem_step_of_end (Or.inl rfl)]
  simp only [sendEndAck_mem_checkFinish, settled_endAcked, settled_reached, exists_const]

/-- **Declaring completeness**, in a receiver that has not overlooked a
reached end so far. -/
theorem complete_mem_step {c : RecvCall}
    (hun : r.relState = .streaming → ∀ g, r.finalSeq = some g → r.gaps.contiguous < g.toNat) :
    .relFinished (.complete f) ∈ (r.step c).2
      ↔ r.Checks c ∧ r.relState = .streaming ∧ r.ReachedAfter c f := by
  rw [mem_step_of_end (Or.inr ⟨f, rfl⟩)]
  simp only [complete_mem_checkFinish, settled_reached, exists_const]
  refine and_congr_right fun hc => and_congr_left fun hr => ?_
  cases c with
  | setBufferedMs ms => cases hc
  | tick now => cases hc
  | handle seq body now =>
    cases body with
    | data ts payload =>
      simp only [settled]
      rw [releaseContiguous_frame]
      exact Iff.rfl
    | keepalive l =>
      -- a keepalive brings neither a frame nor an end
      have hnot : ∀ {s : RelState}, s = r.relState → s ≠ .streaming := by
        rintro s rfl hs
        exact absurd hr.2 (not_le.mpr (hun hs f hr.1))
      have hends := noteLost_ends (r.heard now) l
      exact ⟨fun hs => absurd (hends.streaming_of hs) (hnot rfl), fun hs => absurd hs (hnot rfl)⟩
    | «end» => exact Iff.rfl
    | ack | nack | endAck => cases hc

end XferReceiver

end Protofish4
