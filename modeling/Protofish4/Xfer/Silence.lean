import Protofish4.Xfer.Sender
import Protofish4.Xfer.Terminal

/-!
# Silence after the end

`Completed` and `Failed` end a sender, `Closed` ends a receiver. Their
timers, the window and the acknowledgements ask for that state and stay
silent in it; `handle` does not. This module says exactly which packets
still make an ended state machine speak.
-/

namespace Protofish4

/-! ## The sender -/

/-- The transfer is over for the sender. -/
def SendEvent.Concluding (e : SendEvent) : Prop := e = .completed ∨ ∃ reason, e = .failed reason

namespace XferSender

/-- The run of a new sender. -/
def run (cfg : SenderConfig) (calls : List SendCall) : XferSender × List SendEvent :=
  Machine.run step (new cfg) calls

theorem run_concat (cfg : SenderConfig) (calls : List SendCall) (c : SendCall) :
    run cfg (calls ++ [c]) = Machine.andThen (run cfg calls) fun s => s.step c :=
  Machine.run_concat step _ _ _

/-- Once the sender has concluded, it is done for good and emits nothing. -/
structure DoneFinal (cfg : SenderConfig) (calls : List SendCall) : Prop where
  silent : ∀ pre e post, (run cfg calls).2 = pre ++ e :: post → e.Concluding → post = []
  done : ∀ before after, calls = before ++ after → (∃ e ∈ (run cfg before).2, e.Concluding) →
    (run cfg before).1.isDone

/-- A call that finds nothing to say in a sender that is done: not a
confirmation of the end, nor a request for anything in the ring. -/
def Settled (s : XferSender) : SendCall → Prop
  | .handle .endAck _ => False
  | .handle (.nack missing) _ => s.held missing = []
  | _ => True

variable {s : XferSender}

theorem concludes_step (s : XferSender) (c : SendCall) : Concludes s (s.step c) := by
  cases c with
  | pushFrame ts payload now => exact concludes_pushFrame s now ts payload
  | recordSealed seq datagram => exact .of_emits Iff.rfl fun e he => by cases he
  | finish now => exact concludes_finish s now
  | handle body now => exact concludes_handle s now body
  | tick now => exact concludes_tick s now

theorem done_step_iff (s : XferSender) (c : SendCall) :
    (s.step c).1.state = .done ↔ s.state = .done ∨ ∃ e ∈ (s.step c).2, e.Concluding := by
  rw [(concludes_step s c).done]
  constructor
  · rintro (h | h | ⟨reason, h⟩)
    · exact Or.inl h
    · exact Or.inr ⟨_, h, Or.inl rfl⟩
    · exact Or.inr ⟨_, h, Or.inr ⟨reason, rfl⟩⟩
  · rintro (h | ⟨e, he, rfl | ⟨reason, rfl⟩⟩)
    · exact Or.inl h
    · exact Or.inr (Or.inl he)
    · exact Or.inr (Or.inr ⟨reason, he⟩)

/-- A concluding event comes alone. -/
theorem concluding_alone (s : XferSender) (c : SendCall) (e : SendEvent) (he : e ∈ (s.step c).2)
    (hc : e.Concluding) : (s.step c).2 = [e] := by
  rcases hc with rfl | ⟨reason, rfl⟩
  · exact (concludes_step s c).completed he
  · exact (concludes_step s c).failed reason he

/-- What a sender that is done emits. -/
theorem step_done_nil_iff (h : s.state = .done) (c : SendCall) :
    (s.step c).2 = [] ↔ s.Settled c := by
  cases c with
  | pushFrame ts payload now =>
    have hoff : s.canSend = false := by simp [canSend, h]
    simp [step, pushFrame, hoff, Settled]
  | recordSealed seq datagram => simp [step, Settled]
  | finish now => simp [step, finish, h, Settled]
  | tick now => simp [step, tick, h, Settled]
  | handle body now =>
    cases body with
    | nack missing =>
      simp only [step, handle, Settled]
      split
      · rename_i hnil
        simpa using List.isEmpty_iff.mp hnil
      · rename_i hne
        simpa using hne
    | endAck => simp [step, handle, Settled]
    | data | «end» | ack | keepalive => simp [step, handle, Settled]

/-- **Done is final, exactly.** In a run the sender is silent and done once
it has concluded, if and only if every call it gets in the done state is
settled there: no `EndAck`, and no `Nack` for a datagram in the ring. -/
theorem done_final_iff (cfg : SenderConfig) (calls : List SendCall) :
    DoneFinal cfg calls ↔ ∀ before c after, calls = before ++ c :: after →
      (run cfg before).1.isDone → (run cfg before).1.Settled c := by
  have hnew : ¬ (new cfg).state = .done := by simp [new]
  have hrule := @Machine.run_final_iff _ _ _ step (new cfg) (fun s => s.state = .done)
    SendEvent.Concluding hnew done_step_iff concluding_alone calls
  have hdone : ∀ s : XferSender, s.isDone = true ↔ s.state = .done := fun s => by simp [isDone]
  constructor
  · intro h before c after heq hd
    rw [hdone] at hd
    exact (step_done_nil_iff hd c).mp (hrule.mp h.silent before c after heq hd)
  · intro h
    refine ⟨hrule.mpr fun before c after heq hd => ?_, fun before after _ he => ?_⟩
    · exact (step_done_nil_iff hd c).mpr (h before c after heq ((hdone _).mpr hd))
    · exact (hdone _).mpr ((@Machine.stop_run_iff _ _ _ step (new cfg) (fun s => s.state = .done)
        SendEvent.Concluding hnew done_step_iff before).mpr he)

/-- The first acknowledgement does not come in time; after that the
receiver's request and its confirmation of the end do. -/
def lateReplyCalls : List SendCall :=
  [.pushFrame ⟨0⟩ [7] 0, .recordSealed .first [1, 2, 3], .finish 0, .tick (fromSecs 3),
    .handle (.nack [.first]) (fromSecs 3), .handle .endAck (fromSecs 4)]

/-- A failed sender resends, and then completes. -/
theorem late_replies_heard : ¬ DoneFinal {} lateReplyCalls := by
  intro h
  have hpost := h.silent [.emit .first (.data ⟨0⟩ [7]), .emit .first (.end .first)]
    (.failed .noAck) [.resend [[1, 2, 3]], .completed] (by decide +kernel) (Or.inr ⟨_, rfl⟩)
  cases hpost

end XferSender

/-! ## The receiver -/

namespace XferReceiver

/-- Once `Closed` is out, no later call emits anything. -/
def ClosedFinal (cfg : ReceiverConfig) (start : Instant) (calls : List RecvCall) : Prop :=
  ∀ before c after, calls = before ++ c :: after → .closed ∈ (run cfg start before).2 →
    ((run cfg start before).1.step c).2 = []

/-- The end is acknowledged, or `f` lies beyond the contiguous segment. -/
def TailSettled (r : XferReceiver) (f : XferSeq) : Prop :=
  r.endAcked = true ∨ r.gaps.isComplete f = false

/-- A call that finds nothing to say in a closed receiver: a frame brings
nothing playback is waiting for, and no packet completes an
unacknowledged end. -/
def Settled (r : XferReceiver) : RecvCall → Prop
  | .handle seq (.data _ _) _ => r.cfg.mode.wantsUnrel = true → (r.gaps.record seq).2 = false
  | .handle _ (.end f) _ => r.TailSettled f
  | .handle _ (.keepalive _) _ => ∀ f, r.finalSeq = some f → r.TailSettled f
  | _ => True

variable {r : XferReceiver} {now : Instant}

/-- A closed receiver whose stream has ended can only acknowledge the end. -/
theorem checkFinish_closed_nil_iff (hclosed : r.closed = true) (hfin : r.relState = .finished) :
    (r.checkFinish now).2 = [] ↔ ∀ f, r.finalSeq = some f → r.TailSettled f := by
  unfold checkFinish
  cases hf : r.finalSeq with
  | none => simp
  | some f =>
    have hno : r.completeRel f now = (r, []) := by simp [completeRel, hfin]
    show (Machine.andThen (r.completeRel f now) fun r => r.ackEnd f).2 = [] ↔ _
    rw [hno, Machine.andThen_snd, List.nil_append]
    simp only [Option.some.injEq, forall_eq', TailSettled]
    unfold ackEnd
    cases ha : r.endAcked <;> cases hc : r.gaps.isComplete f <;> simp [ha, hclosed]

theorem maybeAck_closed (hclosed : r.closed = true) : r.maybeAck now = (r, []) := by
  simp [maybeAck, hclosed]

theorem noteLost_finished (hfin : r.relState = .finished) (l : XferSeq) :
    (r.noteLost l).2 = [] := by
  simp only [noteLost, hfin]
  split <;> simp

/-- What a closed receiver emits. -/
theorem step_closed_nil_iff (hclosed : r.closed = true) (hfin : r.relState = .finished)
    (c : RecvCall) : (r.step c).2 = [] ↔ r.Settled c := by
  cases c with
  | setBufferedMs ms => simp [step, Settled]
  | tick now => simp [step, tick, hclosed, Settled]
  | handle seq body now =>
    have hack : ((r.heard now).onBody seq body now).1.closed = true := by
      cases body with
      | data ts payload => exact (onData_keeps (r.heard now) now ⟨seq, ts, payload⟩).closed hclosed
      | «end» f => exact (checkFinish_keeps ((r.heard now).declareEnd f) now).closed hclosed
      | keepalive l =>
        exact ((noteLost_keeps (r.heard now) l).trans (checkFinish_keeps _ now)).closed hclosed
      | ack | nack | endAck => exact hclosed
    have hbody : (r.step (.handle seq body now)).2 = ((r.heard now).onBody seq body now).2 := by
      show (r.handle seq body now).2 = _
      rw [handle, Machine.andThen_snd, maybeAck_closed hack, List.append_nil]
    rw [hbody]
    cases body with
    | data ts payload =>
      -- the stream has ended: a frame can only be played
      have hstale : (r.heard now).onData ⟨seq, ts, payload⟩ now
          = (r.heard now).noteArrival ⟨seq, ts, payload⟩ :=
        onData_stale (Or.inl (by simp [heard, hfin]))
      show ((r.heard now).onData ⟨seq, ts, payload⟩ now).2 = [] ↔ _
      rw [hstale]
      simp only [noteArrival, heard, Settled]
      by_cases hw : r.cfg.mode.wantsUnrel = true
      · simp [hw]
      · simp [hw]
    | «end» f =>
      -- a closed receiver still takes the end over before it looks at it
      show (((r.heard now).declareEnd f).checkFinish now).2 = [] ↔ _
      rw [checkFinish_closed_nil_iff (r := (r.heard now).declareEnd f) hclosed hfin]
      simp only [declareEnd, Option.some.injEq, forall_eq']
      exact Iff.rfl
    | keepalive l =>
      have hk := noteLost_keeps (r.heard now) l
      show ((Machine.andThen ((r.heard now).noteLost l) fun r => r.checkFinish now)).2 = [] ↔ _
      rw [Machine.andThen_snd, noteLost_finished (r := r.heard now) hfin, List.nil_append,
        checkFinish_closed_nil_iff (hk.closed hclosed) (hk.finished hfin)]
      simp only [noteLost_finalSeq, TailSettled, (noteLost_flags (r.heard now) l).1,
        GapTracker.isComplete, hk.contiguous]
      exact Iff.rfl
    | ack | nack | endAck => simp [onBody, Settled]

/-- The closing is out exactly in the closed states, and there the stream
has ended. -/
theorem closed_mem_iff (cfg : ReceiverConfig) (start : Instant) (calls : List RecvCall) :
    .closed ∈ (run cfg start calls).2 ↔ (run cfg start calls).1.closed = true := by
  rw [← List.count_pos_iff, (run_marks cfg start calls).2.1]
  cases (run cfg start calls).1.closed <;> simp

theorem RecvInv.finished_of_closed {calls : List RecvCall} {evs : List RecvEvent}
    (h : RecvInv calls r evs) (hclosed : r.closed = true) : r.relState = .finished := by
  cases hs : r.relState with
  | finished => rfl
  | streaming =>
    rw [(h.live hs).not_closed] at hclosed
    cases hclosed

/-- **Closed is final, exactly.** In a run nothing is emitted once `Closed`
is out, if and only if every call a closed receiver gets is settled there:
no new frame for playback, and no `End` or `Keepalive` that lets an end
not yet acknowledged fall inside the contiguous segment. -/
theorem closed_final_iff (cfg : ReceiverConfig) (start : Instant) (calls : List RecvCall) :
    ClosedFinal cfg start calls ↔ ∀ before c after, calls = before ++ c :: after →
      (run cfg start before).1.closed = true → (run cfg start before).1.Settled c := by
  have hstep : ∀ before c, (run cfg start before).1.closed = true →
      (((run cfg start before).1.step c).2 = [] ↔ (run cfg start before).1.Settled c) :=
    fun before c hclosed => step_closed_nil_iff hclosed
      ((recvInv_run cfg start before).finished_of_closed hclosed) c
  constructor
  · intro h before c after heq hclosed
    exact (hstep before c hclosed).mp (h before c after heq ((closed_mem_iff ..).mpr hclosed))
  · intro h before c after heq hm
    have hclosed := (closed_mem_iff ..).mp hm
    exact (hstep before c hclosed).mpr (h before c after heq hclosed)

/-- A receiver goes idle after one frame; then the sender goes on. -/
def wakingCalls : List RecvCall :=
  [.handle .first (.data ⟨0⟩ [7]) 0, .tick (fromSecs 16),
    .handle (.ofNat 2) (.data ⟨20⟩ [7]) (fromSecs 17),
    .handle .first (.end (.ofNat 2)) (fromSecs 18)]

/-- A receiver closed by the idle timeout plays the next frame. -/
theorem idle_receiver_wakes : ¬ ClosedFinal .audioEngine 0 wakingCalls := by
  intro h
  have hnil := h [.handle .first (.data ⟨0⟩ [7]) 0, .tick (fromSecs 16)]
    (.handle (.ofNat 2) (.data ⟨20⟩ [7]) (fromSecs 17)) _ rfl (by decide +kernel)
  exact absurd hnil (by decide +kernel)

end XferReceiver

end Protofish4
