import Protofish4.Xfer.ReceiverRun
import Protofish4.Xfer.ReceiverEvents

/-!
# How a transfer ends at the receiver

The outcome, the acknowledgement of the end and the closing each appear at
most once, and in this order. Two flags of the receiver count the last two:
`Marks` says that each function moves a flag exactly with its event, and
that a closing finds the reliable stream ended.
-/

namespace Protofish4

/-- The reliable stream ends here. -/
def RecvEvent.isOutcome : RecvEvent → Bool
  | .relFinished _ => true
  | _ => false

theorem Undecided.countP_isOutcome {out : List RecvEvent} (h : Undecided out) :
    out.countP RecvEvent.isOutcome = 0 := by
  rw [List.countP_eq_zero]
  intro e he
  cases e with
  | relFinished o => exact absurd he (h o)
  | _ => simp [RecvEvent.isOutcome]

/-- The outcome is counted once by the time the stream has ended. -/
theorem Ends.countP_isOutcome {s : RelState} {out : List RecvEvent} (h : Ends .streaming s out) :
    out.countP RecvEvent.isOutcome = if s = .streaming then 0 else 1 := by
  cases h with
  | going hu => simpa using hu.countP_isOutcome
  | ending o hpre hpost =>
    rw [List.countP_append, List.countP_cons, hpre.countP_isOutcome,
      hpost.undecided.countP_isOutcome]
    rfl

/-- Every closing in these events finds the stream ended: it had ended
before them, or the outcome comes first. -/
def ClosesEnded (s : RelState) (out : List RecvEvent) : Prop :=
  ∀ pre post, out = pre ++ .closed :: post → s = .finished ∨ ∃ o, .relFinished o ∈ pre

theorem ClosesEnded.of_not_mem {s : RelState} {out : List RecvEvent} (h : .closed ∉ out) :
    ClosesEnded s out := by
  rintro pre post rfl
  simp at h

theorem ClosesEnded.append {s s' : RelState} {a b : List RecvEvent} (h : ClosesEnded s a)
    (he : Ends s s' a) (h' : ClosesEnded s' b) : ClosesEnded s (a ++ b) := by
  intro pre post heq
  rcases List.append_eq_append_iff.mp heq with ⟨x, rfl, hb⟩ | ⟨x, ha, hb⟩
  · -- the closing is one of the later events
    rcases h' x post hb with hs' | ⟨o, ho⟩
    · cases he with
      | going _ => cases hs'
      | ending o _ _ => exact Or.inr ⟨o, by simp⟩
      | quiet _ => exact Or.inl rfl
    · exact Or.inr ⟨o, List.mem_append_right _ ho⟩
  · cases x with
    | nil =>
      have hb' : b = [] ++ .closed :: post := by simpa using hb.symm
      rw [List.append_nil] at ha
      rcases h' [] post hb' with hs' | ⟨o, ho⟩
      · cases he with
        | going _ => cases hs'
        | ending o _ _ => exact Or.inr ⟨o, by simp [← ha]⟩
        | quiet _ => exact Or.inl rfl
      · cases ho
    | cons e x =>
      rw [List.cons_append, List.cons.injEq] at hb
      exact h pre x (by rw [ha, ← hb.1])

namespace XferReceiver

/-- What a function does to the two flags, and when. -/
structure Marks (r : XferReceiver) (p : XferReceiver × List RecvEvent) : Prop where
  endAcks : p.2.count .sendEndAck + r.endAcked.toNat = p.1.endAcked.toNat
  closes : p.2.count .closed + r.closed.toNat = p.1.closed.toNat
  reached : .sendEndAck ∈ p.2 → ∃ f, p.1.finalSeq = some f ∧ f.toNat ≤ p.1.gaps.contiguous
  ended : ClosesEnded r.relState p.2

namespace Marks

variable {r : XferReceiver} {p : XferReceiver × List RecvEvent}

/-- A function that emits neither event leaves both flags alone. -/
theorem quiet (ha : p.1.endAcked = r.endAcked) (hc : p.1.closed = r.closed)
    (h : ∀ e ∈ p.2, e ≠ .sendEndAck ∧ e ≠ .closed) : Marks r p where
  endAcks := by
    rw [List.count_eq_zero.mpr fun he => (h _ he).1 rfl, Nat.zero_add, ha]
  closes := by
    rw [List.count_eq_zero.mpr fun he => (h _ he).2 rfl, Nat.zero_add, hc]
  reached he := absurd rfl (h _ he).1
  ended := ClosesEnded.of_not_mem fun he => (h _ he).2 rfl

theorem nil (r : XferReceiver) : Marks r (r, []) :=
  quiet rfl rfl fun _ he => by cases he

theorem andThen {f : XferReceiver → XferReceiver × List RecvEvent} (h : Marks r p)
    (he : Ends r.relState p.1.relState p.2) (hf : Marks p.1 (f p.1))
    (hend : (f p.1).1.finalSeq = p.1.finalSeq)
    (hseg : (f p.1).1.gaps.contiguous = p.1.gaps.contiguous) : Marks r (Machine.andThen p f) where
  endAcks := by
    rw [Machine.andThen_snd, List.count_append, Machine.andThen_fst, ← hf.endAcks, ← h.endAcks]
    omega
  closes := by
    rw [Machine.andThen_snd, List.count_append, Machine.andThen_fst, ← hf.closes, ← h.closes]
    omega
  reached hm := by
    rcases Machine.mem_andThen.mp hm with hm | hm
    · obtain ⟨g, hg, hle⟩ := h.reached hm
      exact ⟨g, hend.trans hg, hseg.symm ▸ hle⟩
    · exact hf.reached hm
  ended := h.ended.append he hf.ended

/-- Only flags and the stream's state matter at the start. -/
theorem rebase (r' : XferReceiver) (h : Marks r' p) (ha : r'.endAcked = r.endAcked)
    (hc : r'.closed = r.closed) (hs : r'.relState = r.relState) : Marks r p :=
  ⟨ha ▸ h.endAcks, hc ▸ h.closes, h.reached, hs ▸ h.ended⟩

end Marks

variable (r : XferReceiver) (now : Instant)

theorem finishRel_marks (o : RelOutcome) : Marks r (r.finishRel o) := by
  refine Marks.quiet ?_ ?_ fun e he => ?_
  · unfold finishRel
    split <;> rfl
  · unfold finishRel
    split <;> rfl
  · rw [(finishRel_events he).2]
    simp

theorem releaseContiguous_marks : Marks r (r.releaseContiguous now) := by
  refine Marks.quiet ?_ ?_ fun e he => ?_
  · rw [releaseContiguous_frame]
  · rw [releaseContiguous_frame]
  · obtain ⟨frame, rfl⟩ := releaseLoop_events he
    simp

/-- The release and the outcome, which leave the flags to `ackEnd`. -/
theorem completeRel_flags (f : XferSeq) : (r.completeRel f now).1.endAcked = r.endAcked
    ∧ (r.completeRel f now).1.closed = r.closed := by
  have hfin : ∀ (r : XferReceiver) (o : RelOutcome), (r.finishRel o).1.endAcked = r.endAcked
      ∧ (r.finishRel o).1.closed = r.closed := by
    intro r o
    unfold finishRel
    split <;> exact ⟨rfl, rfl⟩
  unfold completeRel
  split
  · rw [Machine.andThen_fst, (hfin _ _).1, (hfin _ _).2, releaseContiguous_frame]
    exact ⟨rfl, rfl⟩
  · exact ⟨rfl, rfl⟩

theorem completeRel_marks (f : XferSeq) : Marks r (r.completeRel f now) := by
  refine Marks.quiet (completeRel_flags r now f).1 (completeRel_flags r now f).2 fun e he => ?_
  rcases (completeRel_events he).2.2 with ⟨frame, rfl⟩ | rfl <;> simp

/-- The end is acknowledged and the receiver closed on a stream that has
ended. -/
theorem ackEnd_marks {f : XferSeq} (hfinal : r.finalSeq = some f)
    (hended : r.endAcked = true ∨ r.gaps.isComplete f = true → r.relState = .finished) :
    Marks r (r.ackEnd f) := by
  have hclosed : ClosesEnded r.relState (r.ackEnd f).2 := by
    rintro pre post heq
    have hmem : .closed ∈ (r.ackEnd f).2 := by simp [heq]
    rcases ackEnd_events hmem with ⟨he, -⟩ | ⟨-, -, hor⟩
    · cases he
    · exact Or.inl (hended hor)
  have hreached : .sendEndAck ∈ (r.ackEnd f).2 →
      ∃ g, (r.ackEnd f).1.finalSeq = some g ∧ g.toNat ≤ (r.ackEnd f).1.gaps.contiguous := by
    intro hm
    have hk := ackEnd_keeps r f
    rcases ackEnd_events hm with ⟨-, -, hcomp⟩ | ⟨he, -⟩
    · exact ⟨f, hk.finalSeq.trans hfinal, hk.contiguous.symm ▸ of_decide_eq_true hcomp⟩
    · cases he
  refine ⟨?_, ?_, hreached, hclosed⟩
  all_goals
    unfold ackEnd Machine.andThen
    cases ha : r.endAcked <;> cases hc : r.closed <;> cases hcomp : r.gaps.isComplete f <;>
      simp [ha, hc]

/-- `check_finish` in a receiver whose acknowledged end ended the stream. -/
theorem checkFinish_marks (hacked : r.endAcked = true → r.relState = .finished) :
    Marks r (r.checkFinish now) := by
  unfold checkFinish
  split
  · exact Marks.nil r
  · rename_i f hf
    have hk' := ackEnd_keeps (r.completeRel f now).1 f
    refine (completeRel_marks r now f).andThen (completeRel_ends r now f) ?_ hk'.finalSeq
      hk'.contiguous
    have hk := completeRel_keeps r now f
    refine ackEnd_marks _ (hk.finalSeq.trans hf) fun hor => ?_
    rcases hor with ha | hcomp
    · exact hk.finished (hacked ((completeRel_flags r now f).1 ▸ ha))
    · -- a reached end has just ended the stream, if nothing had before
      have hc : r.gaps.isComplete f = true := by
        rw [GapTracker.isComplete, hk.contiguous] at hcomp
        exact hcomp
      cases hs : r.relState with
      | finished => exact hk.finished hs
      | streaming =>
        rw [completeRel, if_pos ⟨hs, hc⟩]
        exact finishRel_finished _ _

theorem storeFrame_marks (frame : Frame) (hs : r.relState = .streaming)
    (hacked : r.endAcked = true → r.relState = .finished) : Marks r (r.storeFrame frame now) := by
  unfold storeFrame
  split
  · exact finishRel_marks r _
  · split
    · exact (finishRel_marks (r.hold frame) _).rebase _ rfl rfl rfl
    · refine Marks.rebase (r.hold frame) ?_ rfl rfl rfl
      have hends := releaseContiguous_ends (r.hold frame) now hs
      have hk := checkFinish_keeps ((r.hold frame).releaseContiguous now).1 now
      refine (releaseContiguous_marks _ now).andThen hends ?_ hk.finalSeq hk.contiguous
      refine checkFinish_marks _ now fun ha => ?_
      rw [releaseContiguous_frame] at ha ⊢
      exact hacked ha

theorem noteArrival_marks (frame : Frame) : Marks r (r.noteArrival frame) := by
  refine Marks.quiet rfl rfl fun e he => ?_
  rw [(noteArrival_events he).1]
  simp

theorem onData_marks (frame : Frame) (hacked : r.endAcked = true → r.relState = .finished) :
    Marks r (r.onData frame now) := by
  by_cases h : r.relState = .streaming ∧ (r.gaps.record frame.seq).2 = true
  · rw [onData_fresh h.1 h.2]
    have hnote : Ends r.relState (r.noteArrival frame).1.relState (r.noteArrival frame).2 :=
      Ends.of_silent _ (noteArrival_silent frame)
    have hk := storeFrame_keeps (r.noteArrival frame).1 now frame
    exact (noteArrival_marks r frame).andThen hnote (storeFrame_marks _ now frame h.1 hacked)
      hk.finalSeq hk.contiguous
  · rw [onData_stale ((not_and_or.mp h).imp_right (by simp))]
    exact noteArrival_marks r frame

theorem noteLost_flags (l : XferSeq) : (r.noteLost l).1.endAcked = r.endAcked
    ∧ (r.noteLost l).1.closed = r.closed := by
  simp only [noteLost, finishRel]
  split
  · split
    · split <;> exact ⟨rfl, rfl⟩
    · exact ⟨rfl, rfl⟩
  · exact ⟨rfl, rfl⟩

theorem noteLost_marks (l : XferSeq) : Marks r (r.noteLost l) := by
  refine Marks.quiet (noteLost_flags r l).1 (noteLost_flags r l).2 fun e he => ?_
  rw [(noteLost_events he).1]
  simp

theorem onBody_marks (seq : XferSeq) (body : Body)
    (hacked : r.endAcked = true → r.relState = .finished) : Marks r (r.onBody seq body now) := by
  cases body with
  | data ts payload => exact onData_marks r now _ hacked
  | «end» f => exact (checkFinish_marks (r.declareEnd f) now hacked).rebase _ rfl rfl rfl
  | keepalive l =>
    have hends := noteLost_ends r l
    have hk := checkFinish_keeps (r.noteLost l).1 now
    refine Marks.andThen (f := fun r => r.checkFinish now) (noteLost_marks r l) hends ?_
      hk.finalSeq hk.contiguous
    refine checkFinish_marks _ now fun ha => ?_
    exact (noteLost_keeps r l).finished (hacked ((noteLost_flags r l).1 ▸ ha))
  | ack | nack | endAck => exact Marks.nil r

theorem maybeAck_marks : Marks r (r.maybeAck now) := by
  refine Marks.quiet ?_ ?_ fun e he => ?_
  · rw [maybeAck_state]
  · rw [maybeAck_state]
  · rw [(maybeAck_events he).1]
    simp

/-- What `maybeAck` leaves of the announced end and the segment. -/
theorem maybeAck_end : (r.maybeAck now).1.finalSeq = r.finalSeq
    ∧ (r.maybeAck now).1.gaps.contiguous = r.gaps.contiguous := by
  rw [maybeAck_state]
  exact ⟨rfl, rfl⟩

theorem handle_marks (seq : XferSeq) (body : Body)
    (hacked : r.endAcked = true → r.relState = .finished) : Marks r (r.handle seq body now) := by
  obtain ⟨hend, hseg⟩ := maybeAck_end ((r.heard now).onBody seq body now).1 now
  exact Marks.andThen (f := fun r => r.maybeAck now)
    ((onBody_marks (r.heard now) now seq body hacked).rebase _ rfl rfl rfl)
    (onBody_ends (r.heard now) now seq body) (maybeAck_marks _ now) hend hseg

theorem tickRel_flags : (r.tickRel now).1.endAcked = r.endAcked
    ∧ (r.tickRel now).1.closed = r.closed := by
  simp only [tickRel, emitNacks, finishRel]
  repeat' split
  all_goals exact ⟨rfl, rfl⟩

theorem tickRel_marks : Marks r (r.tickRel now) := by
  refine Marks.quiet (tickRel_flags r now).1 (tickRel_flags r now).2 fun e he => ?_
  rcases (tickRel_events he).2 with ⟨rfl, -⟩ | rfl | ⟨_, rfl, -⟩ <;> simp

/-- Going idle ends the stream first, if it still streams. -/
theorem closeIdle_marks (hc : r.closed = false) : Marks r r.closeIdle := by
  cases hs : r.relState with
  | streaming =>
    have hout : r.closeIdle.2 = [.relFinished (.aborted .peerGone), .closed] := by
      simp [closeIdle, finishRel, hs]
    have hends : ClosesEnded r.relState r.closeIdle.2 := by
      intro pre post heq
      rw [hout] at heq
      cases pre with
      | nil => cases heq
      | cons e pre =>
        rw [List.cons_append, List.cons.injEq] at heq
        exact Or.inr ⟨_, List.mem_cons.mpr (Or.inl heq.1)⟩
    refine ⟨?_, ?_, fun hm => by simp [hout] at hm, hends⟩
    · simp [closeIdle, finishRel, hs]
    · simp [closeIdle, finishRel, hs, hc]
  | finished =>
    refine ⟨?_, ?_, fun hm => ?_, fun _ _ _ => Or.inl hs⟩
    · simp [closeIdle, hs]
    · simp [closeIdle, hs, hc]
    · simp [closeIdle, hs] at hm

theorem tick_marks : Marks r (r.tick now) := by
  unfold tick
  split
  · exact Marks.nil r
  · rename_i hc
    split
    · exact closeIdle_marks r (by simpa using hc)
    · obtain ⟨hend, hseg⟩ := maybeAck_end (r.tickRel now).1 now
      exact Marks.andThen (f := fun r => r.maybeAck now) (tickRel_marks r now)
        (tickRel_ends r now) (maybeAck_marks _ now) hend hseg

theorem step_marks (c : RecvCall) (hacked : r.endAcked = true → r.relState = .finished) :
    Marks r (r.step c) := by
  cases c with
  | handle seq body now => exact handle_marks r now seq body hacked
  | tick now => exact tick_marks r now
  | setBufferedMs ms => exact Marks.quiet rfl rfl fun _ he => by cases he

/-! ## Every run -/

theorem endAcked_finished {calls : List RecvCall} {r : XferReceiver} {evs : List RecvEvent}
    (h : RecvInv calls r evs) (ha : r.endAcked = true) : r.relState = .finished := by
  cases hs : r.relState with
  | finished => rfl
  | streaming =>
    rw [(h.live hs).not_acked] at ha
    cases ha

/-- **Run rule**: a run marks its flags as its calls do. -/
theorem run_marks (cfg : ReceiverConfig) (start : Instant) (calls : List RecvCall) :
    (run cfg start calls).2.count .sendEndAck = (run cfg start calls).1.endAcked.toNat
      ∧ (run cfg start calls).2.count .closed = (run cfg start calls).1.closed.toNat
      ∧ ClosesEnded .streaming (run cfg start calls).2 := by
  induction calls using List.reverseRecOn with
  | nil => exact ⟨rfl, rfl, ClosesEnded.of_not_mem (by simp [run])⟩
  | append_singleton calls c ih =>
    obtain ⟨h1, h2, h3⟩ := ih
    have hinv := recvInv_run cfg start calls
    have hm := step_marks (run cfg start calls).1 c (endAcked_finished hinv)
    rw [run_concat, Machine.andThen_snd, Machine.andThen_fst, List.count_append, List.count_append,
      h1, h2]
    refine ⟨?_, ?_, h3.append hinv.ends hm.ended⟩
    · rw [← hm.endAcks, Nat.add_comm]
    · rw [← hm.closes, Nat.add_comm]

/-- Some end was announced, and every number up to it delivered. -/
def Landed (calls : List RecvCall) (f : XferSeq) : Prop :=
  EndDeclared calls f ∧ ∀ s, 1 ≤ s → s ≤ f.toNat → ∃ frame ∈ arrivals calls, frame.seq.toNat = s

/-- The end is acknowledged for a transfer that has landed. -/
theorem landed_of_sendEndAck (cfg : ReceiverConfig) (start : Instant) (before : List RecvCall)
    (c : RecvCall) (h : .sendEndAck ∈ ((run cfg start before).1.step c).2) :
    ∃ f, Landed (before ++ [c]) f := by
  have hpre := recvInv_run cfg start before
  obtain ⟨f, hf, hle⟩ := (step_marks _ c (endAcked_finished hpre)).reached h
  have hpost := recvInv_step hpre c
  refine ⟨f, hpost.final f hf, fun s h1 hs => ?_⟩
  exact (isSome_firstArrival.mp
    (hpost.seen s (GapTracker.filled_seen _ s h1 (hs.trans hle)))).2

/-- **Explicit termination.** In every run the outcome, the acknowledgement
of the end and the closing appear at most once each; a closing comes after
exactly one outcome; nothing is released or asked for after the outcome;
and the call that acknowledges the end has an announced end behind it, all
of whose numbers have been handled as payload. -/
theorem terminates_explicitly (cfg : ReceiverConfig) (start : Instant) (calls : List RecvCall) :
    let evs := (run cfg start calls).2
    evs.countP RecvEvent.isOutcome ≤ 1 ∧ evs.count .sendEndAck ≤ 1 ∧ evs.count .closed ≤ 1
      ∧ (∀ pre post, evs = pre ++ .closed :: post → pre.countP RecvEvent.isOutcome = 1)
      ∧ (∀ o pre post, evs = pre ++ .relFinished o :: post →
        ∀ e ∈ post, (∀ frame, e ≠ .reliable frame) ∧ ∀ missing, e ≠ .sendNack missing)
      ∧ ∀ before c rest, calls = before ++ c :: rest →
        .sendEndAck ∈ ((run cfg start before).1.step c).2 →
        ∃ f, EndDeclared (before ++ [c]) f
          ∧ ∀ s, 1 ≤ s → s ≤ f.toNat → ∃ frame ∈ arrivals (before ++ [c]), frame.seq.toNat = s := by
  have hinv := recvInv_run cfg start calls
  obtain ⟨hack, hclosed, horder⟩ := run_marks cfg start calls
  have hone := hinv.ends.countP_isOutcome
  have hle : (run cfg start calls).2.countP RecvEvent.isOutcome ≤ 1 := by
    rw [hone]
    split <;> omega
  refine ⟨hle, hack ▸ Bool.toNat_le _, hclosed ▸ Bool.toNat_le _, ?_, ?_, ?_⟩
  · intro pre post heq
    have hpos : 0 < pre.countP RecvEvent.isOutcome := by
      rcases horder pre post heq with hs | ⟨o, ho⟩
      · cases hs
      · exact List.countP_pos_iff.mpr ⟨_, ho, rfl⟩
    rw [heq, List.countP_append] at hle
    omega
  · intro o pre post heq e he
    have hends := hinv.ends
    rw [heq] at hends
    have hsil := hends.of_mem.2.2.2 e he
    constructor
    · rintro frame rfl
      cases hsil
    · rintro missing rfl
      cases hsil
  · intro before c rest _ hm
    obtain ⟨f, hf, harr⟩ := landed_of_sendEndAck cfg start before c hm
    exact ⟨f, hf, harr⟩

end XferReceiver

end Protofish4
