import Protofish4.Lib.Image
import Protofish4.Xfer.ReceiverEvents
import Protofish4.Xfer.ReceiverRun

/-!
# What the mode decides

Of all a receiver does, `mode` decides one thing: whether a frame that
arrives for the first time is handed to playback. Take playback away, and
every function does what it did and returns what it returned, the playback
events apart.
-/

namespace Protofish4

open Machine (andThen image image_andThen)

/-- This configuration without playback. -/
def ReceiverConfig.withoutUnrel (cfg : ReceiverConfig) : ReceiverConfig :=
  { cfg with mode := .relOnly }

/-- An event that is not for playback. -/
def RecvEvent.unplayed : RecvEvent → Option RecvEvent
  | .unreliable _ => none
  | e => some e

namespace XferReceiver

@[simps] def withoutUnrel (r : XferReceiver) : XferReceiver :=
  { r with cfg := r.cfg.withoutUnrel }

/-- What is left of a reaction without playback. -/
abbrev unplayed (p : XferReceiver × List RecvEvent) : XferReceiver × List RecvEvent :=
  image withoutUnrel RecvEvent.unplayed p

variable (r : XferReceiver) (now : Instant)

theorem finishRel_withoutUnrel (outcome : RelOutcome) :
    r.withoutUnrel.finishRel outcome = unplayed (r.finishRel outcome) := by
  simp only [finishRel, withoutUnrel_relState]
  split <;> rfl

theorem releaseLoop_withoutUnrel (fuel : Nat) :
    releaseLoop fuel r.withoutUnrel = unplayed (releaseLoop fuel r) := by
  induction fuel generalizing r with
  | zero => rfl
  | succ fuel ih =>
    simp only [releaseLoop, withoutUnrel]
    split
    · rfl
    · exact image_andThen rfl ih

/-- What is released is nothing that playback got. -/
theorem releaseLoop_unplayed (fuel : Nat) :
    (releaseLoop fuel r).2.filterMap RecvEvent.unplayed = (releaseLoop fuel r).2 := by
  have hkept : (releaseLoop fuel r).2.filterMap RecvEvent.unplayed
      = (releaseLoop fuel r).2.filterMap some := List.filterMap_congr fun e he => by
    obtain ⟨frame, rfl⟩ := releaseLoop_events he
    rfl
  rw [hkept, List.filterMap_some]

theorem releaseContiguous_withoutUnrel :
    r.withoutUnrel.releaseContiguous now = unplayed (r.releaseContiguous now) := by
  simp only [releaseContiguous, withoutUnrel_gaps, withoutUnrel_relReleased,
    releaseLoop_withoutUnrel, image, releaseLoop_unplayed]
  split <;> rfl

theorem completeRel_withoutUnrel (f : XferSeq) :
    r.withoutUnrel.completeRel f now = unplayed (r.completeRel f now) := by
  simp only [completeRel, withoutUnrel_relState, withoutUnrel_gaps]
  split
  · exact image_andThen (releaseContiguous_withoutUnrel r now) fun r => r.finishRel_withoutUnrel _
  · rfl

theorem ackEnd_withoutUnrel (f : XferSeq) :
    r.withoutUnrel.ackEnd f = unplayed (r.ackEnd f) := by
  unfold ackEnd
  refine image_andThen ?_ fun r => ?_
  · simp only [withoutUnrel_endAcked, withoutUnrel_gaps]
    split <;> rfl
  · simp only [withoutUnrel_endAcked, withoutUnrel_closed]
    split <;> rfl

theorem checkFinish_withoutUnrel :
    r.withoutUnrel.checkFinish now = unplayed (r.checkFinish now) := by
  simp only [checkFinish, withoutUnrel_finalSeq]
  split
  · rfl
  · exact image_andThen (completeRel_withoutUnrel r now _) fun r => r.ackEnd_withoutUnrel _

theorem storeFrame_withoutUnrel (frame : Frame) :
    r.withoutUnrel.storeFrame frame now = unplayed (r.storeFrame frame now) := by
  have hhold : r.withoutUnrel.hold frame = (r.hold frame).withoutUnrel := rfl
  simp only [storeFrame, hhold, withoutUnrel_gaps, withoutUnrel_cfg, withoutUnrel_reorderBytes,
    ReceiverConfig.withoutUnrel, finishRel_withoutUnrel]
  split
  · rfl
  · split
    · rfl
    · exact image_andThen (releaseContiguous_withoutUnrel _ now) fun r =>
        r.checkFinish_withoutUnrel now

/-- The one place that reads the mode. -/
theorem noteArrival_withoutUnrel (frame : Frame) :
    r.withoutUnrel.noteArrival frame = unplayed (r.noteArrival frame) := by
  have hkept : ((r.noteArrival frame).2).filterMap RecvEvent.unplayed = [] := by
    simp only [noteArrival]
    split <;> rfl
  have hsilent : (r.withoutUnrel.noteArrival frame).2 = [] := by
    simp only [noteArrival, withoutUnrel_cfg, ReceiverConfig.withoutUnrel, RecvMode.wantsUnrel,
      Bool.and_false, Bool.false_eq_true, if_false]
  exact Prod.ext rfl (hsilent.trans hkept.symm)

theorem onData_withoutUnrel (frame : Frame) :
    r.withoutUnrel.onData frame now = unplayed (r.onData frame now) := by
  unfold onData
  refine image_andThen (noteArrival_withoutUnrel r frame) fun r' => ?_
  simp only [withoutUnrel_relState, withoutUnrel_gaps]
  split
  · rfl
  · split
    · rfl
    · exact r'.storeFrame_withoutUnrel now frame

theorem nackLoop_withoutUnrel (cfg : ReceiverConfig) (senderLostBelow : Nat) (missing : List Nat)
    (nacks : Std.ExtTreeMap Nat (Nat × Instant)) (ask : List XferSeq) :
    nackLoop cfg.withoutUnrel senderLostBelow now missing nacks ask
      = nackLoop cfg senderLostBelow now missing nacks ask := by
  induction missing generalizing nacks ask with
  | nil => rfl
  | cons seq rest ih =>
    simp only [nackLoop, ih]
    rfl

theorem emitNacks_withoutUnrel :
    r.withoutUnrel.emitNacks now = unplayed (r.emitNacks now) := by
  have hend : ∀ nacks outcome, ({ r.withoutUnrel with nacks := nacks }).finishRel outcome
      = unplayed (({ r with nacks := nacks }).finishRel outcome) :=
    fun nacks => finishRel_withoutUnrel { r with nacks := nacks }
  simp only [emitNacks, withoutUnrel_gaps, withoutUnrel_cfg, withoutUnrel_senderLostBelow,
    withoutUnrel_nacks, nackLoop_withoutUnrel]
  split
  · rfl
  · split
    · exact hend _ _
    · split <;> rfl

theorem maybeAck_withoutUnrel :
    r.withoutUnrel.maybeAck now = unplayed (r.maybeAck now) := by
  simp only [maybeAck, withoutUnrel_closed, withoutUnrel_lastAckAt, withoutUnrel_gaps,
    withoutUnrel_bufferedMs, withoutUnrel_cfg, ReceiverConfig.withoutUnrel]
  repeat' split
  all_goals rfl

theorem noteLost_withoutUnrel (lostBelow : XferSeq) :
    r.withoutUnrel.noteLost lostBelow = unplayed (r.noteLost lostBelow) := by
  simp only [noteLost, withoutUnrel_senderLostBelow, withoutUnrel_relState, withoutUnrel_gaps]
  split
  · split
    · exact finishRel_withoutUnrel { r with senderLostBelow := lostBelow.toNat } _
    · rfl
  · rfl

theorem handle_withoutUnrel (seq : XferSeq) (body : Body) :
    r.withoutUnrel.handle seq body now = unplayed (r.handle seq body now) := by
  refine image_andThen ?_ fun r => r.maybeAck_withoutUnrel now
  have hheard : r.withoutUnrel.heard now = (r.heard now).withoutUnrel := rfl
  rw [hheard]
  generalize r.heard now = r'
  cases body with
  | data ts payload => exact r'.onData_withoutUnrel now _
  | «end» finalSeq => exact (r'.declareEnd finalSeq).checkFinish_withoutUnrel now
  | keepalive lostBelow =>
    simp only [onBody]
    exact image_andThen (r'.noteLost_withoutUnrel lostBelow) fun r =>
      r.checkFinish_withoutUnrel now
  | ack | nack | endAck => rfl

theorem tick_withoutUnrel : r.withoutUnrel.tick now = unplayed (r.tick now) := by
  have hrel : ∀ r : XferReceiver, r.withoutUnrel.tickRel now = unplayed (r.tickRel now) := by
    intro r
    simp only [tickRel, withoutUnrel_relState, withoutUnrel_lastRelProgressAt, withoutUnrel_cfg,
      ReceiverConfig.withoutUnrel]
    split
    · split
      · exact r.finishRel_withoutUnrel _
      · exact r.emitNacks_withoutUnrel now
    · rfl
  have hidle : r.withoutUnrel.closeIdle = unplayed r.closeIdle := by
    refine image_andThen ?_ fun _ => rfl
    simp only [withoutUnrel_relState]
    split
    · exact r.finishRel_withoutUnrel _
    · rfl
  simp only [tick, withoutUnrel_closed, withoutUnrel_lastPacketAt, withoutUnrel_cfg,
    ReceiverConfig.withoutUnrel, hidle]
  split
  · rfl
  · split
    · rfl
    · exact image_andThen (hrel r) fun r => r.maybeAck_withoutUnrel now

theorem step_withoutUnrel (c : RecvCall) : r.withoutUnrel.step c = unplayed (r.step c) := by
  cases c with
  | handle seq body now => exact r.handle_withoutUnrel now seq body
  | tick now => exact r.tick_withoutUnrel now
  | setBufferedMs ms => rfl

/-- Without playback a run is what it was, its playback events apart. -/
theorem run_withoutUnrel (cfg : ReceiverConfig) (start : Instant) (calls : List RecvCall) :
    run cfg.withoutUnrel start calls = unplayed (run cfg start calls) :=
  Machine.run_image step_withoutUnrel (new cfg start) calls

end XferReceiver

end Protofish4
