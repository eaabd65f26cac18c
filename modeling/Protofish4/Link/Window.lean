import Protofish4.Link.Mutual
import Protofish4.Xfer.Occasions

/-!
# Reopening a full window

The window moves only when an acknowledgement reports a higher arrival; the
receiver asks only for holes below an arrival, and the sender repeats
nothing on its own. So from a full window, with nothing in flight, ticks
over a network that loses nothing more make room exactly if the receiver
has seen one of the outstanding frames, holds little enough, and has an
occasion to speak ahead of it.
-/

namespace Protofish4

open Net (Party Reaction)

/-! ## Ticks over a network that loses nothing -/

/-- The clock value of a tick or of a delivery. -/
def tendedAt : LinkOp → Option Instant
  | .left (.tick now) | .right (.tick now) => some now
  | .deliverRight _ now false | .deliverLeft _ now false => some now
  | _ => none

/-- Ticks of both sides and deliveries, from `clock` on and in order. -/
structure Tended (clock : Instant) (ops : List LinkOp) : Prop where
  timed : ∀ op ∈ ops, ∃ now, tendedAt op = some now ∧ clock ≤ now
  ordered : (ops.filterMap tendedAt).Pairwise (· ≤ ·)

/-- Some ticks, with what they send delivered, make room in the window. -/
def Reopens (key : SessionKey) (id : RequestId) (clock : Instant) (s : LinkState) : Prop :=
  ∃ ops, Tended clock ops
    ∧ (Net.run (txParty key id) (rxParty key id) s ops).1.left.canSend = true

/-- The occupancy the next acknowledgement reports. -/
def Rx.occupancy (y : Rx) : UInt16 :=
  y.report.getD (UInt16.ofNat (min y.state.bufferedMs 65535))

/-- A sender held back by its window alone, with nothing in flight, both
sides going, and every frame that did not arrive still in the ring. -/
structure HeldBack (s : LinkState) (t : LinkTrace) : Prop where
  streaming : s.left.state = .streaming
  unpaused : s.left.paused = false
  allowed : 1 ≤ s.left.cfg.maxOutstanding
  held : s.left.canSend = false
  toRight : s.toRight = []
  toLeft : s.toLeft = []
  notClosed : s.right.state.closed = false
  notAborted : s.right.state.relState = .streaming
  recoverable : ∀ frame ∈ pushed t,
    (XferReceiver.firstArrival (recvCalls t) frame.seq.toNat).isSome
      ∨ ∃ e ∈ s.left.ring.entries, e.1 = frame.seq

/-- The receiver has news, room, and an occasion to speak. -/
structure CanReopen (clock : Instant) (s : LinkState) : Prop where
  seen : s.left.ackedHighest < s.right.state.gaps.highest
  room : s.right.occupancy < s.left.cfg.bufferHighWaterMs
  occasion : (∃ now, clock ≤ now ∧ s.right.state.AckDue now)
    ∨ ∃ now, s.right.state.NackDue clock now

section

variable {key : SessionKey} {id : RequestId} {clock now : Instant}

theorem Tended.of_concat {ops : List LinkOp} {op : LinkOp} (h : Tended clock (ops ++ [op])) :
    Tended clock ops where
  timed op' hop := h.timed op' (List.mem_append_left _ hop)
  ordered := by
    have := h.ordered
    rw [List.filterMap_append] at this
    exact (List.pairwise_append.mp this).1

theorem Tended.last {ops : List LinkOp} {op : LinkOp} (h : Tended clock (ops ++ [op])) :
    ∃ now, tendedAt op = some now ∧ clock ≤ now :=
  h.timed op (List.mem_append_right _ (List.mem_singleton_self _))

theorem XferSender.canSend_of_full {x : XferSender} (h : x.cfg.maxOutstanding ≤ x.outstanding) :
    x.canSend = false := by
  unfold XferSender.canSend
  split
  · rfl
  · exact decide_eq_false (not_lt.mpr h)

/-- **Shut rule**: what ticks and deliveries keep, and what keeps the window
shut, keeps it shut for good. -/
theorem not_reopens {J : LinkTrace → XferSender → Rx → Prop}
    {U D : LinkTrace → XferSender → Rx → Sent → Prop} {s : LinkState} (start : Net.Inv J U D [] s)
    (shut : ∀ t x y, J t x y → x.canSend = false)
    (leftTick : ∀ t x y now, clock ≤ now → J t x y →
      Net.LeftKeeps J U D t x y ((txParty key id).act x (.tick now)))
    (rightTick : ∀ t x y now, clock ≤ now → J t x y →
      Net.RightKeeps J U D t x y (y.call key id now (.tick now)))
    (leftReceive : ∀ t x y now m, J t x y → D t x y m →
      Net.LeftKeeps J U D t x y ((txParty key id).receive x now m))
    (rightReceive : ∀ t x y now m, J t x y → U t x y m →
      Net.RightKeeps J U D t x y ((rxParty key id).receive y now m)) :
    ¬ Reopens key id clock s := by
  rintro ⟨ops, htended, hopen⟩
  have hinv : Net.Inv J U D (Net.run (txParty key id) (rxParty key id) s ops).2
      (Net.run (txParty key id) (rxParty key id) s ops).1 := by
    refine Net.run_safe (Tended clock) (fun _ _ h => h.of_concat) start ?_ ?_ ?_ ?_ ops htended
    · intro ops t x y i _ hok h
      obtain ⟨now, hnow, hle⟩ := hok.last
      cases i with
      | tick at' =>
        cases hnow
        exact leftTick t x y now hle h
      | pushFrame | finish => cases hnow
    · intro ops t x y i _ hok h
      obtain ⟨now, hnow, hle⟩ := hok.last
      cases i with
      | tick at' =>
        cases hnow
        exact rightTick t x y now hle h
      | setBufferedMs | report => cases hnow
    · intro ops t x y n c keep m _ _ h hm
      exact leftReceive t x y c m h hm
    · intro ops t x y n c keep m _ _ h hm
      exact rightReceive t x y c m h hm
  rw [shut _ _ _ hinv.holds] at hopen
  cases hopen

/-! ## No news -/

/-- What a body from the receiver tells a sender that knows of `n`. -/
def OldNews (n : Nat) : Body → Prop
  | .ack _ highest _ => highest.toNat ≤ n
  | .nack missing => ∀ q ∈ missing, q.toNat ≤ n
  | _ => True

/-- The window is full and the sender knows of every arrival. -/
structure NoNews (key : SessionKey) (_ : LinkTrace) (x : XferSender) (y : Rx) : Prop where
  full : x.cfg.maxOutstanding ≤ x.outstanding
  known : y.state.gaps.highest ≤ x.ackedHighest
  reached : ∃ calls evs, XferReceiver.RecvInv calls y.state evs
  ring : ∀ e ∈ x.ring.entries, ∃ ts payload, openBody key .send e.2 = some (e.1, .data ts payload)

/-- A datagram in flight to the receiver holds no frame it has not seen the
like of. -/
def OldFrame (key : SessionKey) (_ : LinkTrace) (x : XferSender) (_ : Rx) (m : Sent) : Prop :=
  ∀ seq ts payload, openBody key .send m.bytes = some (seq, .data ts payload) →
    seq.toNat ≤ x.ackedHighest

def OldReply (key : SessionKey) (_ : LinkTrace) (x : XferSender) (_ : Rx) (m : Sent) : Prop :=
  ∀ seq body, openBody key .recv m.bytes = some (seq, body) → OldNews x.ackedHighest body

namespace NoNews

variable {t : LinkTrace} {x : XferSender} {y : Rx}

theorem leftTick (h : NoNews key t x y) (now : Instant) :
    Net.LeftKeeps (NoNews key) (OldFrame key) (OldReply key) t x y
      ((txParty key id).act x (.tick now)) := by
  obtain ⟨hstate, hsent⟩ := @txTick_spec key id x now
  have hframe := x.tick_frame now
  have hacked : (x.tick now).1.ackedHighest = x.ackedHighest := by rw [hframe]
  constructor
  · rw [hstate]
    refine ⟨?_, by rw [hacked]; exact h.known, h.reached, by rw [hframe]; exact h.ring⟩
    rw [hframe]
    exact h.full
  · intro m hm seq ts payload hopen
    obtain ⟨_, _, -, hkeep⟩ := hsent m hm
    rw [hkeep] at hopen
    cases hopen
  · intro m hm
    unfold OldFrame
    rw [hstate, hacked]
    exact hm
  · intro m hm
    unfold OldReply
    rw [hstate, hacked]
    exact hm

theorem leftReceive (h : NoNews key t x y) (now : Instant) {m : Sent} (hm : OldReply key t x y m) :
    Net.LeftKeeps (NoNews key) (OldFrame key) (OldReply key) t x y
      ((txParty key id).receive x now m) := by
  rcases @txReceive_spec key id x now m with ⟨hstate, hsent⟩ | ⟨seq, body, hopen, hstate, hsent⟩
  · constructor
    · rw [hstate]
      exact ⟨h.full, h.known, h.reached, h.ring⟩
    · rw [hsent]
      exact fun m hm => by cases hm
    · rw [hstate]
      exact fun m hm => hm
    · rw [hstate]
      exact fun m hm => hm
  · have hold := hm seq body hopen
    have hacked : (x.handle body now).1.ackedHighest = x.ackedHighest := by
      -- an `Ack` of old news moves nothing
      cases body with
      | ack c hi b => exact if_neg (not_lt.mpr hold)
      | data | «end» | nack | endAck | keepalive => rfl
    have hfull : (x.handle body now).1.cfg.maxOutstanding ≤ (x.handle body now).1.outstanding := by
      unfold XferSender.outstanding
      rw [hacked, x.handle_frame]
      exact h.full
    constructor
    · rw [hstate]
      exact ⟨hfull, by rw [hacked]; exact h.known, h.reached,
        fun e he => h.ring e (x.handle_ring_subset now body he)⟩
    · -- only what was asked for is sent again
      intro m' hm' seq' ts payload hopen'
      obtain ⟨missing, rfl, hheld⟩ := hsent m' hm'
      obtain ⟨q, hq, hmem⟩ := x.mem_held hheld
      obtain ⟨ts', payload', hring⟩ := h.ring _ hmem
      rw [hring] at hopen'
      cases hopen'
      rw [hstate, hacked]
      exact hold q hq
    · intro m hm
      unfold OldFrame
      rw [hstate, hacked]
      exact hm
    · intro m hm
      unfold OldReply
      rw [hstate, hacked]
      exact hm

theorem call (h : NoNews key t x y) (now : Instant) (c : RecvCall)
    (hc : ∀ frame, XferReceiver.arrival c = some frame → frame.seq.toNat ≤ x.ackedHighest) :
    Net.RightKeeps (NoNews key) (OldFrame key) (OldReply key) t x y (y.call key id now c) := by
  obtain ⟨calls, evs, hinv⟩ := h.reached
  have hstate := @Rx.call_state key id now y c
  have hhigh : (y.state.step c).1.gaps.highest ≤ x.ackedHighest := by
    rw [XferReceiver.highest_step hinv.wf c]
    cases ha : XferReceiver.arrival c with
    | none => exact h.known
    | some frame => exact max_le h.known (hc frame ha)
  refine ⟨⟨h.full, by rw [hstate]; exact hhigh, ?_, h.ring⟩, ?_, fun m hm => hm, fun m hm => hm⟩
  · rw [hstate]
    exact ⟨_, _, XferReceiver.recvInv_step hinv c⟩
  · intro m hm seq body hopen
    obtain ⟨e, he, seq', body', hbody, hopen'⟩ := Rx.open_of_mem_call hm
    rw [hopen'] at hopen
    cases hopen
    cases e with
    | sendNack missing =>
      cases hbody
      exact fun q hq => (XferReceiver.sendNack_le hinv he q hq).trans h.known
    | sendAck c' hi b =>
      cases hbody
      obtain ⟨-, rfl⟩ := XferReceiver.sendAck_of_mem_step he
      exact (XferSeq.toNat_ofNat_le _).trans hhigh
    | sendEndAck =>
      cases hbody
      trivial
    | unreliable | reliable | relFinished | closed => cases hbody

theorem rightReceive (h : NoNews key t x y) (now : Instant) {m : Sent} (hm : OldFrame key t x y m) :
    Net.RightKeeps (NoNews key) (OldFrame key) (OldReply key) t x y
      ((rxParty key id).receive y now m) := by
  simp only [rxParty]
  split
  · exact ⟨⟨h.full, h.known, h.reached, h.ring⟩, fun m hm => (by cases hm), fun m hm => hm,
      fun m hm => hm⟩
  · rename_i seq body hopen
    refine h.call now _ fun frame ha => ?_
    cases body with
    | data ts payload =>
      cases ha
      exact hm seq ts payload hopen
    | «end» | keepalive | ack | nack | endAck => cases ha

/-- With nothing new to report, the window stays shut. -/
theorem not_reopens {s : LinkState} (h : NoNews key [] s.left s.right) (hr : s.toRight = [])
    (hl : s.toLeft = []) : ¬ Reopens key id clock s := by
  refine Protofish4.not_reopens ⟨h, ?_, ?_⟩ (fun t x y h => XferSender.canSend_of_full h.full)
    (fun t x y now _ h => h.leftTick now)
    (fun t x y now _ h => h.call now _ fun frame ha => by cases ha)
    (fun t x y now m h hm => h.leftReceive now hm) fun t x y now m h hm => h.rightReceive now hm
  · rw [hr]
    exact fun m hm => by cases hm
  · rw [hl]
    exact fun m hm => by cases hm

end NoNews

/-! ## No room -/

namespace Rx

theorem reply_report (now : Instant) (y : Rx) (es : List RecvEvent) :
    (reply key id now y es).1.report = y.report := by
  induction es generalizing y with
  | nil => rfl
  | cons e es ih =>
    simp only [reply]
    split
    · exact ih y
    · split <;> exact ih _

/-- Calls that report no occupancy leave it as it is. -/
theorem call_occupancy (y : Rx) (c : RecvCall) (hc : ∀ ms, c ≠ .setBufferedMs ms) :
    (y.call key id now c).state.occupancy = y.occupancy := by
  unfold occupancy
  rw [call_state, XferReceiver.step_bufferedMs hc, Rx.call, reply_report]

end Rx

/-- The window is full or the sender paused, and the receiver holds more
than the sender resumes at. -/
structure NoRoom (_ : LinkTrace) (x : XferSender) (y : Rx) : Prop where
  shut : x.cfg.maxOutstanding ≤ x.outstanding ∨ x.paused = true
  holds : x.cfg.bufferHighWaterMs ≤ y.occupancy

/-- An acknowledgement in flight pauses the sender. -/
def Pauses (key : SessionKey) (_ : LinkTrace) (x : XferSender) (_ : Rx) (m : Sent) : Prop :=
  ∀ seq c h b, openBody key .recv m.bytes = some (seq, .ack c h b) → x.cfg.bufferHighWaterMs ≤ b

namespace NoRoom

variable {t : LinkTrace} {x : XferSender} {y : Rx}

theorem canSend (h : NoRoom t x y) : x.canSend = false := by
  rcases h.shut with hfull | hpaused
  · exact XferSender.canSend_of_full hfull
  · unfold XferSender.canSend
    rw [if_pos (Or.inr hpaused)]

theorem leftTick (h : NoRoom t x y) (now : Instant) :
    Net.LeftKeeps NoRoom (fun _ _ _ _ => True) (Pauses key) t x y
      ((txParty key id).act x (.tick now)) := by
  have hstate := (@txTick_spec key id x now).1
  have hframe := x.tick_frame now
  refine ⟨?_, fun _ _ => trivial, fun _ _ => trivial, fun m hm => ?_⟩
  · rw [hstate, hframe]
    exact ⟨h.shut, h.holds⟩
  · unfold Pauses
    rw [hstate, hframe]
    exact hm

theorem leftReceive (h : NoRoom t x y) (now : Instant) {m : Sent} (hm : Pauses key t x y m) :
    Net.LeftKeeps NoRoom (fun _ _ _ _ => True) (Pauses key) t x y
      ((txParty key id).receive x now m) := by
  rcases @txReceive_spec key id x now m with ⟨hstate, -⟩ | ⟨seq, body, hopen, hstate, -⟩
  · refine ⟨?_, fun _ _ => trivial, fun _ _ => trivial, fun m hm => ?_⟩
    · rw [hstate]
      exact ⟨h.shut, h.holds⟩
    · rw [hstate]
      exact hm
  · have hcfg : (x.handle body now).1.cfg = x.cfg := by rw [x.handle_frame]
    refine ⟨?_, fun _ _ => trivial, fun _ _ => trivial, fun m hm => ?_⟩
    · rw [hstate]
      refine ⟨?_, by rw [hcfg]; exact h.holds⟩
      cases body with
      | ack c hi b => exact Or.inr (if_pos (hm seq c hi b hopen))
      | data | «end» | nack | endAck | keepalive => exact h.shut
    · unfold Pauses
      rw [hstate, hcfg]
      exact hm

theorem call (h : NoRoom t x y) (now : Instant) (c : RecvCall) (hc : ∀ ms, c ≠ .setBufferedMs ms) :
    Net.RightKeeps NoRoom (fun _ _ _ _ => True) (Pauses key) t x y (y.call key id now c) := by
  refine ⟨⟨h.shut, by rw [Rx.call_occupancy y c hc]; exact h.holds⟩, ?_, fun _ _ => trivial,
    fun m hm => hm⟩
  intro m hm seq c' hi b hopen
  obtain ⟨e, he, seq', body, hbody, hopen'⟩ := Rx.open_of_mem_call hm
  rw [hopen'] at hopen
  cases hopen
  cases e with
  | sendAck c'' hi' b' =>
    cases hbody
    rw [XferReceiver.sendAck_bufferedMs he]
    exact h.holds
  | sendNack | sendEndAck | unreliable | reliable | relFinished | closed => cases hbody

theorem rightReceive (h : NoRoom t x y) (now : Instant) (m : Sent) :
    Net.RightKeeps NoRoom (fun _ _ _ _ => True) (Pauses key) t x y
      ((rxParty key id).receive y now m) := by
  simp only [rxParty]
  split
  · exact ⟨⟨h.shut, h.holds⟩, fun m hm => (by cases hm), fun _ _ => trivial, fun m hm => hm⟩
  · exact h.call now _ fun ms hc => by cases hc

/-- Without room at the receiver, the window stays shut. -/
theorem not_reopens {s : LinkState} (h : NoRoom [] s.left s.right) (hl : s.toLeft = []) :
    ¬ Reopens key id clock s := by
  refine Protofish4.not_reopens (U := fun _ _ _ _ => True) (D := Pauses key)
    ⟨h, fun _ _ => trivial, ?_⟩ (fun t x y h => h.canSend) (fun t x y now _ h => h.leftTick now)
    (fun t x y now _ h => h.call now _ fun ms hc => by cases hc)
    (fun t x y now m h hm => h.leftReceive now hm) fun t x y now m h _ => h.rightReceive now m
  rw [hl]
  exact fun m hm => by cases hm

end NoRoom

/-! ## No occasion -/

/-- The window is full, and neither side has anything to say. -/
structure NoOccasion (clock : Instant) (r : XferReceiver) (_ : LinkTrace) (x : XferSender)
    (y : Rx) : Prop where
  full : x.cfg.maxOutstanding ≤ x.outstanding
  unpaused : x.paused = false
  notFinalizing : x.state ≠ .finalizing
  mute : y.state.closed = true ∨ XferReceiver.Mute clock r y.state

/-- An unpaused sender that has not finished sends nothing on a tick. -/
theorem XferSender.tick_silent {x : XferSender} (hp : x.paused = false) (hs : x.state ≠ .finalizing)
    (now : Instant) : (x.tick now).1.state ≠ .finalizing
      ∧ ∀ seq body, .emit seq body ∉ (x.tick now).2 := by
  have hpaused : x.tickPaused now = (x, []) := by
    unfold tickPaused
    rw [if_neg (by simp [hp])]
  have hfinalizing : x.tickFinalizing now = (x, []) := by
    unfold tickFinalizing
    rw [if_neg hs]
  unfold tick
  split
  · exact ⟨hs, fun seq body he => by cases he⟩
  · split
    · exact ⟨by simp, fun seq body he => by simp at he⟩
    · rw [hpaused]
      simp only [Machine.andThen, hfinalizing]
      exact ⟨hs, fun seq body he => by simp at he⟩

namespace NoOccasion

variable {r : XferReceiver} {t : LinkTrace} {x : XferSender} {y : Rx}

theorem leftTick (h : NoOccasion clock r t x y) (now : Instant) :
    Net.LeftKeeps (NoOccasion clock r) (fun _ _ _ _ => False) (fun _ _ _ _ => False) t x y
      ((txParty key id).act x (.tick now)) := by
  obtain ⟨hstate, hsent⟩ := @txTick_spec key id x now
  obtain ⟨hs, hsilent⟩ := XferSender.tick_silent h.unpaused h.notFinalizing now
  have hframe := x.tick_frame now
  refine ⟨?_, ?_, fun _ hm => hm, fun _ hm => hm⟩
  · rw [hstate]
    refine ⟨?_, ?_, hs, h.mute⟩
    · rw [hframe]
      exact h.full
    · rw [hframe]
      exact h.unpaused
  · intro m hm
    obtain ⟨_, _, he, -⟩ := hsent m hm
    exact hsilent _ _ he

theorem rightTick (h : NoOccasion clock r t x y) (hnow : clock ≤ now) (hnodup : r.considered.Nodup)
    (hack : ¬ r.AckDue now) (hnack : ¬ r.NackDue clock now) :
    Net.RightKeeps (NoOccasion clock r) (fun _ _ _ _ => False) (fun _ _ _ _ => False) t x y
      (y.call key id now (.tick now)) := by
  obtain ⟨hmute, hevents⟩ := XferReceiver.tick_mute h.mute hnow hnodup hack hnack
  refine ⟨⟨h.full, h.unpaused, h.notFinalizing, ?_⟩, ?_, fun _ hm => hm, fun _ hm => hm⟩
  · rw [Rx.call_state]
    exact hmute
  · intro m hm
    obtain ⟨e, he, _, _, hbody, -⟩ := Rx.open_of_mem_call hm
    rcases hevents e he with ⟨o, rfl⟩ | rfl <;> cases hbody

/-- Without an occasion to speak, the window stays shut. -/
theorem not_reopens {s : LinkState} (h : NoOccasion clock r [] s.left s.right)
    (hr : s.toRight = []) (hl : s.toLeft = []) (hnodup : r.considered.Nodup)
    (hack : ∀ now, clock ≤ now → ¬ r.AckDue now) (hnack : ∀ now, ¬ r.NackDue clock now) :
    ¬ Reopens key id clock s := by
  refine Protofish4.not_reopens (U := fun _ _ _ _ => False) (D := fun _ _ _ _ => False)
    ⟨h, ?_, ?_⟩ (fun t x y h => XferSender.canSend_of_full h.full)
    (fun t x y now _ h => h.leftTick now)
    (fun t x y now hnow h => h.rightTick hnow hnodup (hack now hnow) (hnack now))
    (fun t x y now m h hm => hm.elim) fun t x y now m h hm => hm.elim
  · rw [hr]
    exact fun m hm => by cases hm
  · rw [hl]
    exact fun m hm => by cases hm

end NoOccasion

/-! ## Making room -/

theorem Tended.cons {op : LinkOp} {ops : List LinkOp} (hop : tendedAt op = some now)
    (hle : clock ≤ now) (h : Tended now ops) : Tended clock (op :: ops) where
  timed op' hop' := by
    rcases List.mem_cons.mp hop' with rfl | hop'
    · exact ⟨now, hop, hle⟩
    · obtain ⟨at', hat, hle'⟩ := h.timed op' hop'
      exact ⟨at', hat, hle.trans hle'⟩
  ordered := by
    rw [List.filterMap_cons, hop]
    refine List.pairwise_cons.mpr ⟨fun at' hat => ?_, h.ordered⟩
    obtain ⟨op', hop', heq⟩ := List.mem_filterMap.mp hat
    obtain ⟨_, hat', hle'⟩ := h.timed op' hop'
    rw [hat'] at heq
    cases heq
    exact hle'

theorem Reopens.of_canSend {s : LinkState} (h : s.left.canSend = true) : Reopens key id clock s :=
  ⟨[], ⟨fun op hop => (by cases hop), List.Pairwise.nil⟩, h⟩

theorem Reopens.after {s : LinkState} (op : LinkOp) (hop : tendedAt op = some now)
    (hle : clock ≤ now)
    (h : Reopens key id now (Net.step (txParty key id) (rxParty key id) s op).1) :
    Reopens key id clock s := by
  obtain ⟨ops, hops, hopen⟩ := h
  exact ⟨op :: ops, hops.cons hop hle, hopen⟩

theorem Reopens.mono {s : LinkState} (h : Reopens key id now s) (hle : clock ≤ now) :
    Reopens key id clock s := by
  obtain ⟨ops, hops, hopen⟩ := h
  refine ⟨ops, ⟨fun op hop => ?_, hops.ordered⟩, hopen⟩
  obtain ⟨at', hat, hge⟩ := hops.timed op hop
  exact ⟨at', hat, hle.trans hge⟩

/-- A sender that only its window holds back. -/
structure Ready (x : XferSender) : Prop where
  streaming : x.state = .streaming
  unpaused : x.paused = false
  allowed : 1 ≤ x.cfg.maxOutstanding
  window : x.outstanding ≤ x.cfg.maxOutstanding

/-- A receiver that is open and has seen more than the sender knows of. -/
structure News (x : XferSender) (y : Rx) : Prop where
  notClosed : y.state.closed = false
  noEnd : y.state.finalSeq = none
  wf : y.state.gaps.WF
  seen : x.ackedHighest < y.state.gaps.highest
  room : y.occupancy < x.cfg.bufferHighWaterMs

theorem Ready.canSend_onAck {x : XferSender} (h : Ready x) {contiguous highest : XferSeq}
    {bufferedMs : UInt16} (hnews : x.ackedHighest < highest.toNat)
    (hroom : bufferedMs < x.cfg.bufferHighWaterMs) :
    (x.onAck contiguous highest bufferedMs).canSend = true := by
  have hacked : (x.onAck contiguous highest bufferedMs).ackedHighest = highest.toNat := if_pos hnews
  have hpaused : (x.onAck contiguous highest bufferedMs).paused = false := by
    simp only [XferSender.onAck]
    rw [if_neg (by simpa using hroom), h.unpaused, ite_self]
  have hstreaming : (x.onAck contiguous highest bufferedMs).state = .streaming := h.streaming
  unfold XferSender.canSend
  rw [hpaused, if_neg (by simp [hstreaming])]
  refine decide_eq_true ?_
  have hwindow := h.window
  have hallowed := h.allowed
  unfold XferSender.outstanding at hwindow ⊢
  rw [hacked]
  show x.nextSeq.toNat - 1 - highest.toNat < x.cfg.maxOutstanding
  omega

/-- An acknowledgement in flight with news makes room once delivered. -/
theorem Ready.reopens_ack {s : LinkState} (h : Ready s.left) {m : Sent} (hm : m ∈ s.toLeft)
    {seq contiguous highest : XferSeq} {bufferedMs : UInt16}
    (hopen : openBody key .recv m.bytes = some (seq, .ack contiguous highest bufferedMs))
    (hnews : s.left.ackedHighest < highest.toNat)
    (hroom : bufferedMs < s.left.cfg.bufferHighWaterMs) : Reopens key id now s := by
  obtain ⟨n, hn⟩ := Net.exists_deliverLeft (txParty key id) (rxParty key id) hm now false
  refine Reopens.after (.deliverLeft n now false) rfl le_rfl (Reopens.of_canSend ?_)
  rw [hn]
  have hstate : ((txParty key id).receive s.left now m).state
      = s.left.onAck contiguous highest bufferedMs := by
    simp only [txParty, hopen]
    rfl
  show ((txParty key id).receive s.left now m).state.canSend = true
  rw [hstate]
  exact h.canSend_onAck hnews hroom

/-- A call on which the receiver acknowledges leads to room. -/
theorem Ready.reopens_call {s : LinkState} (h : Ready s.left) (l : List Sent) {c : RecvCall}
    (hack : ∃ contiguous highest bufferedMs,
      .sendAck contiguous highest bufferedMs ∈ (s.right.state.step c).2)
    (hwf : s.right.state.gaps.WF)
    (hnews : s.left.ackedHighest < (s.right.state.step c).1.gaps.highest)
    (hroom : s.right.occupancy < s.left.cfg.bufferHighWaterMs) :
    Reopens key id now (Net.rightDoes { s with toRight := l } (s.right.call key id now c)
      : LinkState × LinkTrace).1 := by
  obtain ⟨contiguous, highest, bufferedMs, he⟩ := hack
  obtain ⟨-, hhigh⟩ := XferReceiver.sendAck_of_mem_step he
  obtain ⟨m, hm, -, seq, hd⟩ := @Rx.exists_mem_reply key id now
    { s.right with state := (s.right.state.step c).1 } _ _ _ _ he rfl rfl
  refine Ready.reopens_ack h (m := m) (List.mem_append_right _ hm) (openBody_sealBody hd rfl) ?_ ?_
  · rw [hhigh, XferSeq.toNat_ofNat (XferReceiver.step_wf hwf c).bound]
    exact hnews
  · show s.right.report.getD bufferedMs < _
    rw [XferReceiver.sendAck_bufferedMs he]
    exact hroom

/-- A `Nack` in flight for a held frame makes room: the frame is sent again,
and its arrival acknowledged. -/
theorem Ready.reopens_nack {s : LinkState} (h : Ready s.left) (hnews : News s.left s.right)
    {m : Sent} (hm : m ∈ s.toLeft) {seq : XferSeq} {missing : List XferSeq}
    (hopen : openBody key .recv m.bytes = some (seq, .nack missing)) {q : XferSeq}
    (hq : q ∈ missing) {d : Bytes} (hd : s.left.ring.get q = some d) {ts : TimestampMs}
    {payload : Bytes} (hdata : openBody key .send d = some (q, .data ts payload)) :
    Reopens key id now s := by
  obtain ⟨n, hn⟩ := Net.exists_deliverLeft (txParty key id) (rxParty key id) hm now false
  refine Reopens.after (.deliverLeft n now false) rfl le_rfl ?_
  rw [hn]
  -- the sender hands the frame back to the network
  have hheld : d ∈ s.left.held missing := List.mem_filterMap.mpr ⟨q, hq, hd⟩
  have hreact : (txParty key id).receive s.left now m
      = ⟨{ s.left with gotAck := true }, [.event (.resend (s.left.held missing))],
        (s.left.held missing).map (Sent.mk now)⟩ := by
    have hne : (s.left.held missing).isEmpty = false := by
      cases hl : s.left.held missing with
      | nil =>
        rw [hl] at hheld
        cases hheld
      | cons => rfl
    simp only [txParty, hopen, XferSender.handle, hne, Bool.false_eq_true, if_false, transmitAll,
      transmit, List.append_nil]
  rw [hreact]
  generalize hs' : (Net.leftDoes { s with toLeft := Net.taken s.toLeft n false }
    ⟨{ s.left with gotAck := true }, [TxObs.event (.resend (s.left.held missing))],
      (s.left.held missing).map (Sent.mk now)⟩ : LinkState × LinkTrace).1 = s'
  have hready : Ready s'.left := by
    rw [← hs']
    exact ⟨h.streaming, h.unpaused, h.allowed, h.window⟩
  have hnews' : News s'.left s'.right := by
    rw [← hs']
    exact ⟨hnews.notClosed, hnews.noEnd, hnews.wf, hnews.seen, hnews.room⟩
  have hm' : (⟨now, d⟩ : Sent) ∈ s'.toRight := by
    rw [← hs']
    exact List.mem_append_right _ (List.mem_map_of_mem hheld)
  -- its arrival, once an acknowledgement is due
  let later : Instant := max now (s'.right.state.lastAckAt + s'.right.state.cfg.ackInterval)
  obtain ⟨k, hk⟩ := Net.exists_deliverRight (txParty key id) (rxParty key id) hm' later false
  refine Reopens.after (.deliverRight k later false) rfl (le_max_left _ _) ?_
  have hreceive : (rxParty key id).receive s'.right later ⟨now, d⟩
      = s'.right.call key id later (.handle q (.data ts payload) later) := by
    simp only [rxParty, hdata]
  -- the receiver knows of more than the sender does, whatever it is sent again
  have hhigh : s'.left.ackedHighest
      < (s'.right.state.step (.handle q (.data ts payload) later)).1.gaps.highest := by
    rw [XferReceiver.highest_step hnews'.wf]
    exact hnews'.seen.trans_le (le_max_left _ _)
  rw [hk, hreceive]
  refine hready.reopens_call _ ?_ hnews'.wf hhigh hnews'.room
  exact XferReceiver.handle_acks hnews'.notClosed hnews'.noEnd
    (le_durationSince (le_max_right _ _)) (Nat.ne_of_gt (Nat.zero_lt_of_lt hhigh))

/-- A tick on which the receiver asks for a held frame leads to room. -/
theorem Ready.reopens_ask {s : LinkState} (h : Ready s.left) (hnews : News s.left s.right)
    (hidle : durationSince now s.right.state.lastPacketAt ≤ s.right.state.cfg.idleTimeout)
    {missing : List XferSeq} (hask : .sendNack missing ∈ (s.right.state.tick now).2) {q : XferSeq}
    (hq : q ∈ missing) {d : Bytes} (hd : s.left.ring.get q = some d) {ts : TimestampMs}
    {payload : Bytes} (hdata : openBody key .send d = some (q, .data ts payload)) :
    Reopens key id now s := by
  refine Reopens.after (.right (.tick now)) rfl le_rfl ?_
  have hlen := XferReceiver.sendNack_of_mem_step (c := .tick now) hnews.wf hask
  obtain ⟨plaintext, henc⟩ : ∃ plaintext, encodeBody (.nack missing) = .ok plaintext :=
    ⟨_, if_neg (not_lt.mpr hlen)⟩
  obtain ⟨m, hm, -, seq, hseal⟩ := @Rx.exists_mem_reply key id now
    { s.right with state := (s.right.state.step (.tick now)).1 } _ _ _ _ hask rfl henc
  generalize hs' : (Net.step (txParty key id) (rxParty key id) s (.right (.tick now))).1 = s'
  have hright : s'.right = (s.right.call key id now (.tick now)).state := by
    rw [← hs']
    rfl
  have hleft : s'.left = s.left := by
    rw [← hs']
    rfl
  have hstate : s'.right.state = (s.right.state.tick now).1 := by
    rw [hright, Rx.call_state]
    rfl
  -- the tick asks, and is otherwise without effect on what makes room
  have hnews' : News s'.left s'.right := by
    rw [hleft]
    refine ⟨?_, ?_, ?_, ?_, ?_⟩
    · rw [hstate, XferReceiver.tick_closed hidle]
      exact hnews.notClosed
    · rw [hstate]
      exact (XferReceiver.step_finalSeq_eq s.right.state (.tick now)).trans hnews.noEnd
    · rw [hstate]
      exact XferReceiver.step_wf hnews.wf (.tick now)
    · rw [hstate]
      exact (XferReceiver.highest_step hnews.wf (.tick now)).symm ▸ hnews.seen
    · rw [hright, Rx.call_occupancy s.right _ fun ms hc => by cases hc]
      exact hnews.room
  refine Ready.reopens_nack (m := m) (hleft ▸ h) hnews' ?_ (openBody_sealBody hseal rfl) hq
    (hleft ▸ hd) hdata
  rw [← hs']
  exact List.mem_append_right _ hm

/-! ## Every run -/

section Runs

variable {rcfg : ReceiverConfig} {start : Instant} {s : LinkState} {t : LinkTrace}

theorem HeldBack.full (h : HeldBack s t) : s.left.cfg.maxOutstanding ≤ s.left.outstanding := by
  have hheld := h.held
  unfold XferSender.canSend at hheld
  rw [if_neg (by simp [h.streaming, h.unpaused])] at hheld
  exact not_lt.mp (of_decide_eq_false hheld)

theorem HeldBack.ready (h : HeldBack s t) (hm : Mutual key id rcfg start t s.left s.right) :
    Ready s.left :=
  ⟨h.streaming, h.unpaused, h.allowed, hm.window⟩

theorem HeldBack.live (h : HeldBack s t) (hm : Mutual key id rcfg start t s.left s.right) :
    XferReceiver.Live (XferReceiver.firstArrival (recvCalls t)) s.right.state :=
  hm.recvInv.live h.notAborted

/-- What the receiver may ask for was pushed, has not arrived, and is held. -/
theorem HeldBack.exists_held (h : HeldBack s t) (hm : Mutual key id rcfg start t s.left s.right)
    {k : Nat} (hk : k ∈ s.right.state.considered) :
    s.right.state.senderLostBelow < k ∧ ∃ d ts payload, s.left.ring.get (XferSeq.ofNat k) = some d
      ∧ openBody key .send d = some (XferSeq.ofNat k, .data ts payload) := by
  have hinv := hm.recvInv
  have hlive := h.live hm
  rw [hinv.considered_eq h.notAborted] at hk
  obtain ⟨h1, hle, hnone⟩ := XferReceiver.mem_absent.mp (List.mem_of_mem_take hk)
  have hnot : k ∉ s.right.state.gaps.seen := by
    rw [hlive.mem_seen, hnone]
    simp
  have hgt : s.right.state.gaps.contiguous < k := by
    by_contra hle
    exact hnot (GapTracker.filled_seen _ k h1 (not_lt.mp hle))
  refine ⟨hlive.lost_le.trans_lt hgt, ?_⟩
  -- the number of a frame pushed before the highest arrival
  have hlt : k < s.left.nextSeq.toNat := by
    have hne : k ≠ s.right.state.gaps.highest := by
      rintro rfl
      rcases hinv.highest_mem with h0 | hsome
      · omega
      · rw [hnone] at hsome
        cases hsome
    rcases hm.highest_upTo with h0 | ⟨frame, hf, hfle⟩
    · omega
    · have := (hm.numbered frame hf).2
      omega
  obtain ⟨frame, hf, hseq⟩ := hm.counted k h1 hlt
  have hq : frame.seq = XferSeq.ofNat k := by rw [← hseq, XferSeq.ofNat_toNat]
  have hring : ∃ e ∈ s.left.ring.entries, e.1 = XferSeq.ofNat k := by
    rcases h.recoverable frame hf with hsome | hring
    · rw [hseq, hnone] at hsome
      cases hsome
    · rwa [hq] at hring
  obtain ⟨d, hd⟩ := RetransRing.exists_get hring
  obtain ⟨frame', -, heq, hseal⟩ := hm.ring _ (RetransRing.get_mem hd)
  refine ⟨d, frame'.ts, frame'.payload, hd, ?_⟩
  have heq' : XferSeq.ofNat k = frame'.seq := heq
  rw [heq']
  exact openBody_sealBody hseal rfl

theorem HeldBack.nodup (h : HeldBack s t) (hm : Mutual key id rcfg start t s.left s.right) :
    s.right.state.considered.Nodup := by
  rw [hm.recvInv.considered_eq h.notAborted]
  exact (List.Nodup.filter _ List.nodup_range').sublist (List.take_sublist _ _)

/-- Ticks make room where the receiver has news, room and an occasion. -/
theorem HeldBack.reopens (h : HeldBack s t) (hm : Mutual key id rcfg start t s.left s.right)
    (hcan : CanReopen clock s) : Reopens key id clock s := by
  have hready := h.ready hm
  have hnews : News s.left s.right :=
    ⟨h.notClosed, hm.finalSeq_none h.streaming, hm.recvInv.wf, hcan.seen, hcan.room⟩
  have hhigh : s.right.state.gaps.highest ≠ 0 := Nat.ne_of_gt (Nat.zero_lt_of_lt hnews.seen)
  have hsame : ∀ now, (s.right.state.step (.tick now)).1.gaps.highest =
      s.right.state.gaps.highest :=
    fun now => XferReceiver.highest_step hnews.wf (.tick now)
  rcases hcan.occasion with ⟨now, hle, hack⟩ | ⟨now, hnack⟩
  · -- a tick acknowledges
    refine Reopens.after (.right (.tick now)) rfl hle ?_
    refine hready.reopens_call s.toRight (XferReceiver.tick_acks h.notClosed hack hhigh) hnews.wf ?_
      hnews.room
    rw [hsame]
    exact hnews.seen
  · have hidle : durationSince clock s.right.state.lastPacketAt ≤ s.right.state.cfg.idleTimeout :=
      (durationSince_mono hnack.later).trans hnack.notIdle
    have hstall : durationSince clock s.right.state.lastRelProgressAt
        ≤ s.right.state.cfg.relStallTimeout :=
      (durationSince_mono hnack.later).trans hnack.notStalled
    have hlost : ∀ k ∈ s.right.state.considered, s.right.state.senderLostBelow < k :=
      fun k hk => (h.exists_held hm hk).1
    by_cases hdue : ∃ k ∈ s.right.state.considered, s.right.state.DueFrom clock clock k
    · -- the first tick asks
      obtain ⟨k, hk, hdue⟩ := hdue
      obtain ⟨-, d, ts, payload, hd, hdata⟩ := h.exists_held hm hk
      obtain ⟨missing, hask, hq⟩ := XferReceiver.tick_asks h.notAborted h.notClosed (h.nodup hm)
        hlost hidle hstall hnack.budget hk hdue
      exact hready.reopens_ask hnews hidle hask hq hd hdata
    · -- the first tick enters the holes, a later one asks
      push Not at hdue
      obtain ⟨k, hk, hlater⟩ := hnack.elapsed
      obtain ⟨-, d, ts, payload, hd, hdata⟩ := h.exists_held hm hk
      have hwait : ∀ k ∈ s.right.state.considered, s.right.state.due clock k = false := by
        intro k hk
        by_contra hne
        exact hdue k hk (XferReceiver.due_iff.mp (by simpa using hne))
      obtain ⟨⟨nacks, acked, hstate⟩, missing, hask, hq⟩ := XferReceiver.tick_asks_later
        h.notAborted h.notClosed (h.nodup hm) hlost hnack hwait hk hlater
      refine Reopens.after (.right (.tick clock)) rfl le_rfl (.mono ?_ hnack.later)
      generalize hs' : (Net.step (txParty key id) (rxParty key id) s (.right (.tick clock))).1 = s'
      have hleft : s'.left = s.left := by
        rw [← hs']
        rfl
      have hright : s'.right = (s.right.call key id clock (.tick clock)).state := by
        rw [← hs']
        rfl
      have hticked : s'.right.state = (s.right.state.tick clock).1 := by
        rw [hright, Rx.call_state]
        rfl
      rw [← hticked] at hask hstate
      have hnews' : News s'.left s'.right := by
        rw [hleft]
        refine ⟨?_, ?_, ?_, ?_, ?_⟩
        · rw [hstate]
          exact hnews.notClosed
        · rw [hstate]
          exact hnews.noEnd
        · rw [hstate]
          exact hnews.wf
        · rw [hstate]
          exact hnews.seen
        · rw [hright, Rx.call_occupancy s.right _ fun ms hc => by cases hc]
          exact hnews.room
      exact Ready.reopens_ask (hleft ▸ hready) hnews' (by rw [hstate]; exact hnack.notIdle) hask hq
        (hleft ▸ hd) hdata

/-- Without news, the window stays shut. -/
theorem HeldBack.seen_of_reopens (h : HeldBack s t)
    (hm : Mutual key id rcfg start t s.left s.right) (hr : Reopens key id clock s) :
    s.left.ackedHighest < s.right.state.gaps.highest := by
  by_contra hle
  refine NoNews.not_reopens ⟨h.full, not_lt.mp hle, ⟨_, _, hm.recvInv⟩, fun e he => ?_⟩ h.toRight
    h.toLeft hr
  obtain ⟨frame, -, heq, hseal⟩ := hm.ring e he
  exact ⟨frame.ts, frame.payload, heq ▸ openBody_sealBody hseal rfl⟩

theorem HeldBack.canReopen (h : HeldBack s t) (hm : Mutual key id rcfg start t s.left s.right)
    (hr : Reopens key id clock s) : CanReopen clock s where
  seen := h.seen_of_reopens hm hr
  room := by
    by_contra hle
    exact NoRoom.not_reopens ⟨Or.inl h.full, by simpa using hle⟩ h.toLeft hr
  occasion := by
    by_contra hnone
    push Not at hnone
    have hmute : XferReceiver.Mute clock s.right.state s.right.state :=
      ⟨rfl, rfl, rfl, Or.inr (XferReceiver.Waits.refl h.notAborted)⟩
    exact NoOccasion.not_reopens ⟨h.full, h.unpaused, by simp [h.streaming], Or.inr hmute⟩
      h.toRight h.toLeft (h.nodup hm) hnone.1 hnone.2 hr

end Runs

/-- **Flow control, exactly.** In every reachable state in which a full
window holds the sender back, nothing is in flight and every missing frame
is still held, ticks make room again if and only if the receiver has seen
an outstanding frame, has room, and is due to acknowledge or to ask before
it gives up. -/
theorem full_window_reopens_iff (key : SessionKey) (id : RequestId) (scfg : SenderConfig)
    (rcfg : ReceiverConfig) (start : Instant) (ops : List LinkOp) (clock : Instant)
    (h : HeldBack (linkRun key id scfg rcfg start ops).1 (linkRun key id scfg rcfg start ops).2) :
    Reopens key id clock (linkRun key id scfg rcfg start ops).1
      ↔ CanReopen clock (linkRun key id scfg rcfg start ops).1 := by
  have hm := (mutual_run (sourceLike_txParty key id) (sinkLike_rxParty key id) scfg rcfg start
    ops).holds
  exact ⟨h.canReopen hm, h.reopens hm⟩

end

/-- A window of two frames, both lost. -/
def lostWindowOps : List LinkOp :=
  [.left (.pushFrame ⟨0⟩ [1] 0), .left (.pushFrame ⟨20⟩ [2] 0), .dropRight 0, .dropRight 0]

/-- With every outstanding frame lost, no tick makes room again. -/
theorem lost_window_stays_shut :
    HeldBack (linkRun plainKey zeroId { maxOutstanding := 2 } .cacheWorker 0 lostWindowOps).1
        (linkRun plainKey zeroId { maxOutstanding := 2 } .cacheWorker 0 lostWindowOps).2
      ∧ ∀ clock, ¬ Reopens plainKey zeroId clock
        (linkRun plainKey zeroId { maxOutstanding := 2 } .cacheWorker 0 lostWindowOps).1 := by
  have hheld : HeldBack
      (linkRun plainKey zeroId { maxOutstanding := 2 } .cacheWorker 0 lostWindowOps).1
      (linkRun plainKey zeroId { maxOutstanding := 2 } .cacheWorker 0 lostWindowOps).2 := by
    constructor <;> decide +kernel
  refine ⟨hheld, fun clock hr => ?_⟩
  have hm := (mutual_run (sourceLike_txParty plainKey zeroId) (sinkLike_rxParty plainKey zeroId)
    { maxOutstanding := 2 } .cacheWorker 0 lostWindowOps).holds
  exact absurd (hheld.seen_of_reopens hm hr) (by decide +kernel)

/-- A window of two frames of which the first is lost. -/
def lostFirstOps : List LinkOp :=
  [.left (.pushFrame ⟨0⟩ [1] 0), .left (.pushFrame ⟨20⟩ [2] 0), .dropRight 0,
    .deliverRight 0 0 false]

theorem full_window_reopens_iff_lost_first : Reopens plainKey zeroId 0
    (linkRun plainKey zeroId { maxOutstanding := 2 } .cacheWorker 0 lostFirstOps).1 := by
  refine (full_window_reopens_iff plainKey zeroId { maxOutstanding := 2 } .cacheWorker 0
    lostFirstOps 0 ?_).mpr ⟨by decide +kernel, by decide +kernel, Or.inl ⟨fromMillis 500, ?_⟩⟩
  · constructor <;> decide +kernel
  · exact ⟨by decide +kernel, ⟨by decide +kernel, by decide +kernel⟩⟩

end Protofish4
