import Protofish4.Link
import Protofish4.Xfer.Modes

/-!
# A link with and without playback

The mode stays where it is read. A sink that wants no playback asks,
acknowledges, releases and ends as one that wants it does, and so the whole
link runs alike: the same packets are in flight, and the sender cannot tell
the two apart.
-/

namespace Protofish4

open Machine (image)

def Rx.withoutUnrel (y : Rx) : Rx := { y with state := y.state.withoutUnrel }

/-- What is seen of a call without playback. -/
def RxObs.unplayed (o : RxObs) : RxObs := ⟨o.call, o.events.filterMap RecvEvent.unplayed⟩

variable {key : SessionKey} {id : RequestId}

/-- No packet answers a playback event. -/
theorem Rx.reply_withoutUnrel (now : Instant) (y : Rx) (es : List RecvEvent) :
    reply key id now y.withoutUnrel (es.filterMap RecvEvent.unplayed)
      = ((reply key id now y es).1.withoutUnrel, (reply key id now y es).2) := by
  induction es generalizing y with
  | nil => rfl
  | cons e es ih =>
    cases e with
    | unreliable frame => exact ih y
    | reliable | relFinished | closed => exact ih y
    | sendNack | sendAck | sendEndAck =>
      have hrest : reply key id now
            ⟨y.state.withoutUnrel, y.controlSeq.next, y.report⟩ (es.filterMap RecvEvent.unplayed)
          = ((reply key id now ⟨y.state, y.controlSeq.next, y.report⟩ es).1.withoutUnrel,
            (reply key id now ⟨y.state, y.controlSeq.next, y.report⟩ es).2) :=
        ih ⟨y.state, y.controlSeq.next, y.report⟩
      simp only [RecvEvent.unplayed, List.filterMap_cons, reply, replyBody, withoutUnrel, hrest]
      split <;> rfl

theorem Rx.call_withoutUnrel (now : Instant) (y : Rx) (c : RecvCall) :
    y.withoutUnrel.call key id now c
      = (y.call key id now c).image Rx.withoutUnrel RxObs.unplayed := by
  have hreply : reply key id now ⟨(y.state.step c).1.withoutUnrel, y.controlSeq, y.report⟩
      ((y.state.step c).2.filterMap RecvEvent.unplayed) = _ :=
    reply_withoutUnrel now ⟨(y.state.step c).1, y.controlSeq, y.report⟩ (y.state.step c).2
  simp only [call, withoutUnrel, XferReceiver.step_withoutUnrel, XferReceiver.unplayed, image,
    hreply]
  rfl

/-- The link of a sink without playback, run by run. -/
theorem linkRun_withoutUnrel (scfg : SenderConfig) (rcfg : ReceiverConfig) (start : Instant)
    (ops : List LinkOp) :
    linkRun key id scfg rcfg.withoutUnrel start ops
      = image (Net.State.mapRight Rx.withoutUnrel) (Net.seenRight RxObs.unplayed)
        (linkRun key id scfg rcfg start ops) := by
  have hact : ∀ y i, (rxParty key id).act (Rx.withoutUnrel y) i
      = ((rxParty key id).act y i).image Rx.withoutUnrel RxObs.unplayed := by
    intro y i
    cases i with
    | tick now => exact y.call_withoutUnrel now _
    | setBufferedMs ms => exact y.call_withoutUnrel 0 _
    | report occupancy => rfl
  have hreceive : ∀ y now m, (rxParty key id).receive (Rx.withoutUnrel y) now m
      = ((rxParty key id).receive y now m).image Rx.withoutUnrel RxObs.unplayed := by
    intro y now m
    simp only [rxParty]
    split
    · rfl
    · exact y.call_withoutUnrel now _
  exact Net.run_image hact hreceive (linkStart scfg rcfg start) ops

/-- **The mode decides what is played, and nothing else.** Whatever the
network and both ends do, a sink without playback and one with it, given the
same operations, leave the same sender, the same packets in flight and the
same receiver, mode apart; what the sender did is the same, and so is every
call on the receiver and every event it returned, those for playback
apart. -/
theorem mode_decides_playback_only (key : SessionKey) (id : RequestId) (scfg : SenderConfig)
    (rcfg : ReceiverConfig) (start : Instant) (ops : List LinkOp) :
    let w := linkRun key id scfg rcfg start ops
    let w' := linkRun key id scfg rcfg.withoutUnrel start ops
    w'.1.left = w.1.left ∧ w'.1.toRight = w.1.toRight ∧ w'.1.toLeft = w.1.toLeft
      ∧ w'.1.right = w.1.right.withoutUnrel
      ∧ Net.lefts w'.2 = Net.lefts w.2
      ∧ recvCalls w'.2 = recvCalls w.2
      ∧ recvEvents w'.2 = (recvEvents w.2).filterMap RecvEvent.unplayed := by
  intro w w'
  have himage : w' = image (Net.State.mapRight Rx.withoutUnrel) (Net.seenRight RxObs.unplayed) w :=
    linkRun_withoutUnrel scfg rcfg start ops
  rw [himage]
  refine ⟨rfl, rfl, rfl, rfl, Net.lefts_seenRight w.2, ?_, ?_⟩
  · rw [recvCalls, image, Net.rights_seenRight, List.map_map]
    rfl
  · rw [recvEvents, image, Net.rights_seenRight, List.flatMap_map, recvEvents,
      List.filterMap_flatMap]
    rfl

end Protofish4
