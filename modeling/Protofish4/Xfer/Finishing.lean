import Protofish4.Xfer.Landing
import Protofish4.Xfer.Occasions

/-!
# The last steps of a receiver

What every run says about the outcome, the end and the arrivals together,
and the state in which every frame has arrived and only the announcement of
the end is missing: no packet but that one changes it, and no tick before
a timeout.
-/

namespace Protofish4

namespace XferReceiver

/-! ## Outcome, end and arrivals -/

/-- The end is acknowledged in the call that declares the stream complete. -/
theorem sendEndAck_of_complete {r : XferReceiver} {c : RecvCall} {f : XferSeq}
    (hun : r.relState = .streaming → ∀ g, r.finalSeq = some g → r.gaps.contiguous < g.toNat)
    (hacked : r.relState = .streaming → r.endAcked = false)
    (h : .relFinished (.complete f) ∈ (r.step c).2) : .sendEndAck ∈ (r.step c).2 := by
  obtain ⟨hc, hs, hr⟩ := (complete_mem_step hun).mp h
  exact sendEndAck_mem_step.mpr ⟨hc, hacked hs, f, hr⟩

theorem run_sendEndAck_of_complete (cfg : ReceiverConfig) (start : Instant) (calls : List RecvCall)
    {f : XferSeq} (h : .relFinished (.complete f) ∈ (run cfg start calls).2) :
    .sendEndAck ∈ (run cfg start calls).2 := by
  induction calls using List.reverseRecOn with
  | nil => cases h
  | append_singleton calls c ih =>
    have hinv := recvInv_run cfg start calls
    rw [run_concat] at h ⊢
    rcases Machine.mem_andThen.mp h with h | h
    · exact Machine.mem_andThen.mpr (Or.inl (ih h))
    · exact Machine.mem_andThen.mpr (Or.inr (sendEndAck_of_complete
        (fun hs => (hinv.live hs).unfinished) (fun hs => (hinv.live hs).not_acked) h))

/-- A stream that has ended has an outcome; one that was not aborted is
complete. -/
theorem RecvInv.complete_of_finished {calls : List RecvCall} {r : XferReceiver}
    {evs : List RecvEvent} (h : RecvInv calls r evs) (hs : r.relState = .finished)
    (hno : ∀ reason, .relFinished (.aborted reason) ∉ evs) :
    ∃ f, .relFinished (.complete f) ∈ evs := by
  have hends := h.ends
  rw [hs] at hends
  cases hends with
  | ending o hpre hpost =>
    cases o with
    | complete f => exact ⟨f, by simp⟩
    | aborted reason => exact absurd (by simp) (hno reason)

/-- An end that was announced stays announced. -/
theorem isSome_finalSeq (cfg : ReceiverConfig) (start : Instant) (calls : List RecvCall)
    {f : XferSeq} (h : EndDeclared calls f) : (run cfg start calls).1.finalSeq.isSome := by
  induction calls using List.reverseRecOn with
  | nil =>
    obtain ⟨_, _, hc⟩ := h
    cases hc
  | append_singleton calls c ih =>
    rw [run_concat, Machine.andThen_fst, step_finalSeq_eq]
    obtain ⟨seq, now, hc⟩ := h
    rcases List.mem_append.mp hc with hc | hc
    · unfold endAfter
      split
      · rfl
      · exact ih ⟨seq, now, hc⟩
    · rw [← List.mem_singleton.mp hc]
      rfl

/-- While the stream streams, the segment covers what has arrived in full. -/
theorem RecvInv.contiguous_ge {calls : List RecvCall} {r : XferReceiver} {evs : List RecvEvent}
    (h : RecvInv calls r evs) (hs : r.relState = .streaming) {n : Nat}
    (hall : ∀ k, 1 ≤ k → k ≤ n → (firstArrival calls k).isSome) : n ≤ r.gaps.contiguous := by
  by_contra hlt
  refine h.wf.next_not_mem (((h.live hs).mem_seen _).mpr (hall _ (by omega) (by omega)))

/-- Once the end is announced and everything up to it has arrived, a stream
that was not aborted is complete. -/
theorem RecvInv.complete_of_arrived {calls : List RecvCall} {r : XferReceiver}
    {evs : List RecvEvent} (h : RecvInv calls r evs) {f : XferSeq} (hf : r.finalSeq = some f)
    (hall : ∀ k, 1 ≤ k → k ≤ f.toNat → (firstArrival calls k).isSome)
    (hno : ∀ reason, .relFinished (.aborted reason) ∉ evs) :
    ∃ f, .relFinished (.complete f) ∈ evs := by
  cases hs : r.relState with
  | streaming =>
    have := (h.live hs).unfinished f hf
    have := h.contiguous_ge hs hall
    omega
  | finished => exact h.complete_of_finished hs hno

/-! ## Waiting for the end -/

/-- Nothing that has arrived leaves a hole, and no end is announced. -/
structure AtEnd (r : XferReceiver) : Prop where
  streaming : r.relState = .streaming
  notClosed : r.closed = false
  notAcked : r.endAcked = false
  noEnd : r.finalSeq = none
  wf : r.gaps.WF
  full : r.gaps.highest = r.gaps.contiguous

/-- No timeout is over at `last`. -/
structure OnTime (last : Instant) (r : XferReceiver) : Prop where
  idle : durationSince last r.lastPacketAt ≤ r.cfg.idleTimeout
  stall : durationSince last r.lastRelProgressAt ≤ r.cfg.relStallTimeout

/-- What can still come besides the end: frames of the segment, and reports
of discards inside it. -/
def Stale (n : Nat) (seq : XferSeq) : Body → Prop
  | .data .. => seq.toNat ≤ n
  | .keepalive lost => lost.toNat ≤ n
  | .end _ => False
  | _ => True

/-- Nothing but timers and reports has changed. -/
structure Idles (last : Instant) (r r' : XferReceiver) : Prop where
  atEnd : AtEnd r'
  onTime : OnTime last r'
  gaps : r'.gaps = r.gaps
  cfg : r'.cfg = r.cfg

variable {r : XferReceiver} {now last : Instant}

theorem RecvInv.atEnd {calls : List RecvCall} {evs : List RecvEvent} (h : RecvInv calls r evs)
    (hs : r.relState = .streaming) (hend : r.finalSeq = none)
    (hall : ∀ k, 1 ≤ k → k ≤ r.gaps.highest → (firstArrival calls k).isSome) : AtEnd r := by
  have hlive := h.live hs
  exact ⟨hs, hlive.not_closed, hlive.not_acked, hend, h.wf,
    Nat.le_antisymm (h.contiguous_ge hs hall) h.wf.contiguous_le⟩

theorem Idles.of_eq {r' : XferReceiver} (h : AtEnd r) (ht : OnTime last r')
    (hs : r'.relState = r.relState) (hc : r'.closed = r.closed) (ha : r'.endAcked = r.endAcked)
    (hf : r'.finalSeq = r.finalSeq) (hg : r'.gaps = r.gaps) (hcfg : r'.cfg = r.cfg) :
    Idles last r r' where
  atEnd := ⟨hs ▸ h.streaming, hc ▸ h.notClosed, ha ▸ h.notAcked, hf ▸ h.noEnd, hg ▸ h.wf,
    hg ▸ h.full⟩
  onTime := ht
  gaps := hg
  cfg := hcfg

namespace AtEnd

theorem seen (h : AtEnd r) {k : Nat} (h1 : 1 ≤ k) (hk : k ≤ r.gaps.highest) : k ∈ r.gaps.seen :=
  GapTracker.filled_seen _ k h1 (h.full ▸ hk)

/-- There is nothing to ask for. -/
theorem considered (h : AtEnd r) : r.considered = [] := by
  apply List.eq_nil_iff_forall_not_mem.mpr
  intro k hk
  have hhigh : r.gaps.highest = 0 ∨ r.gaps.highest ∈ r.gaps.seen := by
    rcases Nat.eq_zero_or_pos r.gaps.highest with h0 | hpos
    · exact Or.inl h0
    · exact Or.inr (h.seen hpos le_rfl)
  obtain ⟨h1, hlt, hnot⟩ := h.wf.mem_missing hhigh hk
  exact hnot (h.seen h1 hlt.le)

/-- A tick before the timeouts only acknowledges. -/
theorem tick (h : AtEnd r) (ht : OnTime last r) (hnow : now ≤ last) :
    Idles last r (r.tick now).1 := by
  have hidle := (durationSince_mono hnow).trans ht.idle
  have hstall := (durationSince_mono hnow).trans ht.stall
  have hrel : r.tickRel now = (r, []) := by
    have hcons : r.gaps.missing maxNackEntries = [] := h.considered
    unfold tickRel
    rw [if_pos h.streaming, if_neg (not_lt.mpr hstall)]
    simp only [emitNacks, hcons, List.isEmpty_nil, if_true]
  have heq : (r.tick now).1 = { r with lastAckAt := (r.maybeAck now).1.lastAckAt } := by
    rw [tick_of_awake h.notClosed hidle, Machine.andThen_fst, hrel]
    exact maybeAck_state r now
  rw [heq]
  exact Idles.of_eq h ⟨ht.idle, ht.stall⟩ rfl rfl rfl rfl rfl rfl

/-- A stale packet is proof of life and nothing else. -/
theorem onBody (h : AtEnd r) {seq : XferSeq} {body : Body}
    (hb : Stale r.gaps.contiguous seq body) : (r.onBody seq body now).1
      = { r with senderLostBelow := (r.onBody seq body now).1.senderLostBelow } := by
  cases body with
  | data ts payload =>
    have hstale : seq.toNat = 0 ∨ seq.toNat ∈ r.gaps.seen := by
      rcases Nat.eq_zero_or_pos seq.toNat with h0 | hpos
      · exact Or.inl h0
      · exact Or.inr (h.seen hpos (h.full ▸ hb))
    have heq : (r.onData ⟨seq, ts, payload⟩ now).1 = r := by
      simp only [onData, noteArrival, GapTracker.record_stale hstale, Machine.andThen_fst]
      split <;> rfl
    show (r.onData ⟨seq, ts, payload⟩ now).1
      = { r with senderLostBelow := (r.onData ⟨seq, ts, payload⟩ now).1.senderLostBelow }
    rw [heq]
  | keepalive l =>
    have hnote : (r.noteLost l).1
        = { r with senderLostBelow := (r.noteLost l).1.senderLostBelow } := by
      simp only [noteLost]
      split
      · rename_i hlt
        have hbound : l.toNat ≤ r.gaps.contiguous := hb
        rw [if_neg fun hc => absurd hc.2 (not_lt.mpr hbound)]
      · rfl
    have hfinish : (r.noteLost l).1.checkFinish now = ((r.noteLost l).1, []) := by
      have hend : (r.noteLost l).1.finalSeq = none := by
        rw [hnote]
        exact h.noEnd
      unfold checkFinish
      rw [hend]
    show ((r.noteLost l).1.checkFinish now).1
      = { r with senderLostBelow := ((r.noteLost l).1.checkFinish now).1.senderLostBelow }
    rw [hfinish]
    exact hnote
  | «end» f => exact hb.elim
  | ack | nack | endAck => rfl

theorem handle (h : AtEnd r) (ht : OnTime last r) {seq : XferSeq} {body : Body}
    (hb : Stale r.gaps.contiguous seq body) (hnow : durationSince last now ≤ r.cfg.idleTimeout) :
    Idles last r (r.handle seq body now).1 := by
  have hheard : AtEnd (r.heard now) := ⟨h.streaming, h.notClosed, h.notAcked, h.noEnd, h.wf, h.full⟩
  have hbody := @onBody (r.heard now) now hheard seq body hb
  unfold XferReceiver.handle
  rw [Machine.andThen_fst, maybeAck_state, hbody]
  exact Idles.of_eq h ⟨hnow, ht.stall⟩ rfl rfl rfl rfl rfl rfl

/-- The announcement of the end completes the transfer. -/
theorem handle_end (h : AtEnd r) {seq f : XferSeq} (hf : f.toNat ≤ r.gaps.contiguous) :
    .relFinished (.complete f) ∈ (r.step (.handle seq (.end f) now)).2
      ∧ .sendEndAck ∈ (r.step (.handle seq (.end f) now)).2 := by
  have hun : r.relState = .streaming → ∀ g, r.finalSeq = some g → r.gaps.contiguous < g.toNat := by
    intro _ g hg
    rw [h.noEnd] at hg
    cases hg
  have hr : r.ReachedAfter (.handle seq (.end f) now) f := ⟨rfl, hf⟩
  exact ⟨(complete_mem_step hun).mpr ⟨trivial, h.streaming, hr⟩,
    sendEndAck_mem_step.mpr ⟨trivial, h.notAcked, f, hr⟩⟩

end AtEnd

end XferReceiver

end Protofish4
