import Protofish4.Xfer.ReceiverRun
import Protofish4.Xfer.Sender

/-!
# Repeated control packets at the two state machines

When handling a control packet does nothing at all: no field changes and
no event comes out. For each kind the condition is stated on the state
before the packet and proved exact, given what handling the same packet
before has left behind for good.
-/

namespace Protofish4

open Machine (andThen)

namespace XferReceiver

/-! ## At the receiver -/

/-- The state in which a repeated `End` or `Keepalive` does nothing. -/
structure ReplayHarmless (r : XferReceiver) (body : Body) (now : Instant) : Prop where
  sameInstant : r.lastPacketAt = now
  noAckDue : r.closed = true ∨ durationSince now r.lastAckAt < r.cfg.ackInterval
    ∨ r.gaps.highest = 0
  sameEnd : ∀ f, body = .end f → r.finalSeq = some f
  /-- No tail that has landed waits to be acknowledged. -/
  tailDone : ∀ f, r.finalSeq = some f →
    (r.gaps.isComplete f = true → r.relState = .finished ∧ r.endAcked = true)
      ∧ (r.endAcked = true → r.closed = true)

/-- What handling a packet leaves behind for good. -/
def Noted (r : XferReceiver) : Body → Prop
  | .keepalive lostBelow => lostBelow.toNat ≤ r.senderLostBelow
  | _ => True

variable {r : XferReceiver} {now : Instant}

theorem streaming_of_ne_finished {s : RelState} (h : s ≠ .finished) : s = .streaming := by
  cases s with
  | streaming => rfl
  | finished => exact absurd rfl h

theorem ackEnd_nothing_iff (f : XferSeq) : r.ackEnd f = (r, [])
    ↔ (r.gaps.isComplete f = true → r.endAcked = true) ∧ (r.endAcked = true → r.closed = true) := by
  unfold ackEnd
  by_cases ha : r.endAcked = true
  · by_cases hc : r.closed = true
    · simp [andThen, ha, hc]
    · simp [andThen, ha, hc]
  · by_cases hf : r.gaps.isComplete f = true
    · simp [andThen, ha, hf]
    · simp [andThen, ha, hf]

theorem checkFinish_nothing_iff : r.checkFinish now = (r, [])
    ↔ ∀ f, r.finalSeq = some f →
      (r.gaps.isComplete f = true → r.relState = .finished ∧ r.endAcked = true)
        ∧ (r.endAcked = true → r.closed = true) := by
  unfold checkFinish
  cases hf : r.finalSeq with
  | none => simp
  | some f =>
    simp only [Option.some.injEq, forall_eq']
    by_cases hc : r.relState = .streaming ∧ r.gaps.isComplete f = true
    · -- completing the stream is an event
      have hfin : .relFinished (.complete f) ∈ (r.completeRel f now).2 := by
        unfold completeRel
        rw [if_pos hc, Machine.mem_andThen]
        right
        have hs : (r.releaseContiguous now).1.relState = .streaming := by
          rw [releaseContiguous_frame]
          exact hc.1
        simp [finishRel, hs]
      constructor
      · intro h
        have hnil := congrArg Prod.snd h
        rw [Machine.andThen_snd, List.append_eq_nil_iff] at hnil
        rw [hnil.1] at hfin
        cases hfin
      · intro h
        have := (h.1 hc.2).1
        rw [hc.1] at this
        cases this
    · have hskip : r.completeRel f now = (r, []) := by
        unfold completeRel
        rw [if_neg hc]
      have hand : andThen (r.completeRel f now) (fun r => r.ackEnd f) = r.ackEnd f := by
        rw [hskip]
        rfl
      rw [hand, ackEnd_nothing_iff]
      constructor
      · intro h
        refine ⟨fun hcf => ⟨?_, h.1 hcf⟩, h.2⟩
        by_contra hs
        exact hc ⟨streaming_of_ne_finished hs, hcf⟩
      · exact fun h => ⟨fun hcf => (h.1 hcf).2, h.2⟩

theorem maybeAck_nothing_iff : (r.maybeAck now).2 = []
    ↔ r.closed = true ∨ durationSince now r.lastAckAt < r.cfg.ackInterval
      ∨ r.gaps.highest = 0 := by
  unfold maybeAck
  by_cases hc : r.closed = true
  · simp [hc]
  · by_cases hi : durationSince now r.lastAckAt < r.cfg.ackInterval
    · simp [hc, hi]
    · by_cases h0 : r.gaps.highest = 0
      · simp [hc, hi, h0]
      · simp [hc, hi, h0]

theorem maybeAck_of_nil (h : (r.maybeAck now).2 = []) : r.maybeAck now = (r, []) := by
  rw [maybeAck_nothing_iff] at h
  unfold maybeAck
  rcases h with h | h | h
  · rw [if_pos h]
  · rw [if_pos h, ite_self]
  · rw [if_pos h, ite_self, ite_self]

theorem noteLost_senderLostBelow (r : XferReceiver) (lostBelow : XferSeq) :
    (r.noteLost lostBelow).1.senderLostBelow = max r.senderLostBelow lostBelow.toNat := by
  simp only [noteLost]
  by_cases h : lostBelow.toNat > r.senderLostBelow
  · rw [if_pos h, max_eq_right h.le]
    split
    · rw [(finishRel_keeps _ _).senderLostBelow]
    · rfl
  · rw [if_neg h, max_eq_left (not_lt.mp h)]

theorem noteLost_of_noted {lostBelow : XferSeq} (h : r.Noted (.keepalive lostBelow)) :
    r.noteLost lostBelow = (r, []) := by
  unfold noteLost
  rw [if_neg (not_lt.mpr h)]

/-- The body of a repeated control packet does nothing. -/
theorem onBody_nothing_iff {body : Body} (h : r.Noted body)
    (hkind : body.kind.direction = .send) (hctl : body.kind ≠ .data) (seq : XferSeq) :
    r.onBody seq body now = (r, []) ↔ (∀ f, body = .end f → r.finalSeq = some f)
      ∧ r.checkFinish now = (r, []) := by
  cases body with
  | data ts payload => exact absurd rfl hctl
  | «end» f =>
    simp only [onBody, Body.end.injEq, forall_eq']
    constructor
    · intro heq
      -- finishing leaves the declared end alone
      have hf : r.finalSeq = some f := by
        have hk := (checkFinish_keeps (r.declareEnd f) now).finalSeq
        rw [heq] at hk
        exact hk
      have hsame : r.declareEnd f = r := by
        rw [declareEnd, ← hf]
      exact ⟨hf, by rwa [hsame] at heq⟩
    · rintro ⟨hf, heq⟩
      have hsame : r.declareEnd f = r := by
        rw [declareEnd, ← hf]
      rwa [hsame]
  | keepalive lostBelow =>
    have hand : andThen (r.noteLost lostBelow) (fun r => r.checkFinish now)
        = r.checkFinish now := by
      rw [noteLost_of_noted h]
      rfl
    simp only [onBody, hand, reduceCtorEq, false_implies, implies_true, true_and]
  | ack | nack | endAck => cases hkind

/-- **A repeated control packet does nothing at the receiver exactly in a
harmless state.** -/
theorem handle_nothing_iff {body : Body} (h : r.Noted body)
    (hkind : body.kind.direction = .send) (hctl : body.kind ≠ .data) (seq : XferSeq) :
    r.handle seq body now = (r, []) ↔ r.ReplayHarmless body now := by
  constructor
  · intro heq
    have hstate : (((r.heard now).onBody seq body now).1.maybeAck now).1 = r :=
      congrArg Prod.fst heq
    have hnil := List.append_eq_nil_iff.mp (congrArg Prod.snd heq)
    -- without an acknowledgement the packet itself has changed nothing
    have hbody : ((r.heard now).onBody seq body now).1 = r := by
      rwa [maybeAck_of_nil hnil.2] at hstate
    have hsame : r.lastPacketAt = now := by
      have htold : (r.told (.handle seq body now)).lastPacketAt = now := by
        cases body <;> rfl
      have hk : (r.handle seq body now).1.lastPacketAt = now :=
        (step_keeps r (.handle seq body now)).lastPacketAt.trans htold
      rwa [heq] at hk
    have hheard : r.heard now = r := by
      rw [heard, ← hsame]
    rw [hheard] at hbody hnil
    obtain ⟨hend, hfin⟩ := (onBody_nothing_iff h hkind hctl seq).mp (Prod.ext hbody hnil.1)
    have hdue := maybeAck_nothing_iff.mp hnil.2
    rw [hbody] at hdue
    exact ⟨hsame, hdue, hend, checkFinish_nothing_iff.mp hfin⟩
  · intro hr
    have hheard : r.heard now = r := by
      rw [heard, ← hr.sameInstant]
    have hbody : r.onBody seq body now = (r, []) := (onBody_nothing_iff h hkind hctl seq).mpr
      ⟨hr.sameEnd, checkFinish_nothing_iff.mpr hr.tailDone⟩
    have hack := maybeAck_of_nil (maybeAck_nothing_iff.mpr hr.noAckDue)
    unfold handle
    rw [hheard, hbody]
    simp [andThen, hack]

/-- A handled control packet has been noted. -/
theorem noted_handle (seq : XferSeq) (body : Body) : (r.handle seq body now).1.Noted body := by
  cases body with
  | keepalive lostBelow =>
    refine le_trans ?_ (step_keeps r (.handle seq (.keepalive lostBelow) now)).senderLostBelow.ge
    show lostBelow.toNat ≤ ((r.heard now).noteLost lostBelow).1.senderLostBelow
    rw [noteLost_senderLostBelow]
    exact le_max_right _ _
  | data | «end» | ack | nack | endAck => trivial

theorem senderLostBelow_le_step (r : XferReceiver) (c : RecvCall) :
    r.senderLostBelow ≤ (r.step c).1.senderLostBelow := by
  refine le_trans ?_ (step_keeps r c).senderLostBelow.ge
  cases c with
  | handle seq body now =>
    cases body with
    | keepalive lostBelow =>
      show r.senderLostBelow ≤ ((r.heard now).noteLost lostBelow).1.senderLostBelow
      rw [noteLost_senderLostBelow]
      exact le_max_left _ _
    | data | «end» | ack | nack | endAck => exact le_rfl
  | tick | setBufferedMs => exact le_rfl

theorem Noted.step {body : Body} (h : r.Noted body) (c : RecvCall) : (r.step c).1.Noted body := by
  cases body with
  | keepalive lostBelow => exact le_trans h (senderLostBelow_le_step r c)
  | data | «end» | ack | nack | endAck => trivial

end XferReceiver

/-! ## At the sender -/

namespace XferSender

/-- The pause flag is what the last occupancy report makes it. -/
def PauseFollows (s : XferSender) : Prop :=
  (s.cfg.bufferHighWaterMs ≤ s.bufferedMs → s.paused = true)
    ∧ (¬ s.cfg.bufferHighWaterMs ≤ s.bufferedMs → s.bufferedMs ≤ s.cfg.bufferLowWaterMs →
      s.paused = false)

/-- What handling a packet leaves behind for good. -/
def Noted (s : XferSender) : Body → Prop
  | .ack contiguous highest _ => s.gotAck = true ∧ contiguous.toNat ≤ s.ring.lostBelow
      ∧ highest.toNat ≤ s.ackedHighest ∧ s.PauseFollows
  | .nack _ => s.gotAck = true
  | _ => True

/-- The state in which a repeated packet does nothing: an `Ack` that says
what the last one said of the buffer and lets no datagram go, a `Nack` for
nothing that is still held, and never an `EndAck`. -/
def ReplayHarmless (s : XferSender) : Body → Prop
  | .ack contiguous _ bufferedMs => s.bufferedMs = bufferedMs
      ∧ ∀ e, s.ring.entries.head? = some e → contiguous.toNat < e.1.toNat
  | .nack missing => ∀ seq ∈ missing, s.ring.get seq = none
  | .endAck => False
  | _ => True

variable {s : XferSender}

theorem ackThrough_eq_self_iff {r : RetransRing} {c : XferSeq} (h : c.toNat ≤ r.lostBelow) :
    r.ackThrough c = r ↔ ∀ e, r.entries.head? = some e → c.toNat < e.1.toNat := by
  cases he : r.entries with
  | nil =>
    have hloop : RetransRing.dropAcked r.entries.length c r = r := by
      simp [he, RetransRing.dropAcked]
    simp only [RetransRing.ackThrough, hloop, if_neg (not_lt.mpr h)]
    simp
  | cons e rest =>
    simp only [List.head?_cons, Option.some.injEq, forall_eq']
    constructor
    · intro heq
      by_contra hle
      -- an acknowledged front entry would have been dropped
      have hent := RetransRing.ackThrough_entries r c
      rw [heq, he, List.dropWhile_cons_of_pos (by simpa using not_lt.mp hle)] at hent
      have hlen := congrArg List.length hent
      have := (List.dropWhile_sublist (l := rest) fun e => decide (e.1.toNat ≤ c.toNat)).length_le
      rw [← hlen, List.length_cons] at this
      omega
    · intro hlt
      obtain ⟨seq, data⟩ := e
      have hloop : RetransRing.dropAcked r.entries.length c r = r := by
        simp only [he, List.length_cons, RetransRing.dropAcked]
        rw [if_pos hlt]
      simp only [RetransRing.ackThrough, hloop, if_neg (not_lt.mpr h)]

theorem pauseFollows_onAck (s : XferSender) (contiguous highest : XferSeq) (bufferedMs : UInt16) :
    (s.onAck contiguous highest bufferedMs).PauseFollows := by
  simp only [PauseFollows, onAck]
  by_cases hhigh : bufferedMs ≥ s.cfg.bufferHighWaterMs
  · exact ⟨fun _ => if_pos hhigh, fun hlt => absurd hhigh hlt⟩
  · refine ⟨fun hle => absurd hle hhigh, fun _ hlow => ?_⟩
    rw [if_neg hhigh, if_pos hlow]

/-- **A repeated packet does nothing at the sender exactly in a harmless
state.** -/
theorem handle_nothing_iff {body : Body} (h : s.Noted body) (now : Instant) :
    s.handle body now = (s, []) ↔ s.ReplayHarmless body := by
  cases body with
  | ack c hi b =>
    obtain ⟨hgot, hlost, hhi, hpause⟩ := h
    have hring := ackThrough_eq_self_iff hlost
    simp only [handle, Prod.mk.injEq, and_true, ReplayHarmless, ← hring]
    constructor
    · intro heq
      exact ⟨(congrArg XferSender.bufferedMs heq).symm, congrArg XferSender.ring heq⟩
    · rintro ⟨rfl, hr⟩
      have hflag : (if s.bufferedMs ≥ s.cfg.bufferHighWaterMs then true
          else if s.bufferedMs ≤ s.cfg.bufferLowWaterMs then false else s.paused) = s.paused := by
        by_cases hhigh : s.bufferedMs ≥ s.cfg.bufferHighWaterMs
        · rw [if_pos hhigh, hpause.1 hhigh]
        · rw [if_neg hhigh]
          by_cases hlow : s.bufferedMs ≤ s.cfg.bufferLowWaterMs
          · rw [if_pos hlow, hpause.2 hhigh hlow]
          · rw [if_neg hlow]
      simp only [onAck, hr, hflag, if_neg (not_lt.mpr hhi)]
      rw [← hgot]
  | nack missing =>
    have hgot : { s with gotAck := true } = s := by
      rw [← show s.gotAck = true from h]
    simp only [handle, hgot, Prod.mk.injEq, true_and, ReplayHarmless]
    have hheld : s.held missing = [] ↔ ∀ seq ∈ missing, s.ring.get seq = none :=
      List.filterMap_eq_nil_iff
    rw [← hheld]
    cases s.held missing with
    | nil => simp
    | cons d ds => simp
  | endAck => simp [handle, ReplayHarmless]
  | data | «end» | keepalive => simp [handle, ReplayHarmless]

/-- A handled packet has been noted. -/
theorem noted_handle (s : XferSender) (body : Body) (now : Instant) :
    (s.handle body now).1.Noted body := by
  cases body with
  | ack c hi b =>
    refine ⟨rfl, ?_, ?_, ?_⟩
    · show _ ≤ (s.ring.ackThrough c).lostBelow
      rw [RetransRing.ackThrough_lostBelow]
      exact le_max_right _ _
    · show hi.toNat ≤ if hi.toNat > s.ackedHighest then hi.toNat else s.ackedHighest
      split <;> omega
    · exact pauseFollows_onAck s c hi b
  | nack missing => rfl
  | data | «end» | endAck | keepalive => trivial

/-- The part of a sender that acknowledgements have settled, and that only
moves one way. -/
structure Grows (s s' : XferSender) : Prop where
  gotAck : s.gotAck = true → s'.gotAck = true
  lostBelow : s.ring.lostBelow ≤ s'.ring.lostBelow
  ackedHighest : s.ackedHighest ≤ s'.ackedHighest
  pauseFollows : s.PauseFollows → s'.PauseFollows

theorem step_grows (s : XferSender) (c : SendCall) : Grows s (s.step c).1 := by
  cases c with
  | pushFrame ts payload now =>
    rcases s.pushFrame_cases now ts payload with ⟨heq, -⟩ | ⟨-, heq, -⟩
    · simp only [step, heq]
      exact ⟨id, le_rfl, le_rfl, id⟩
    · simp only [step, heq]
      exact ⟨id, le_rfl, le_rfl, id⟩
  | recordSealed seq datagram => exact ⟨id, RetransRing.lostBelow_le_push _ _ _, le_rfl, id⟩
  | finish now =>
    simp only [step, finish]
    split <;> exact ⟨id, le_rfl, le_rfl, id⟩
  | handle body now =>
    cases body with
    | ack c hi b =>
      refine ⟨fun _ => rfl, ?_, ?_, fun _ => pauseFollows_onAck s c hi b⟩
      · show _ ≤ (s.ring.ackThrough c).lostBelow
        rw [RetransRing.ackThrough_lostBelow]
        exact le_max_left _ _
      · show s.ackedHighest ≤ if hi.toNat > s.ackedHighest then hi.toNat else s.ackedHighest
        split <;> omega
    | nack missing => exact ⟨fun _ => rfl, le_rfl, le_rfl, id⟩
    | data | «end» | endAck | keepalive => exact ⟨id, le_rfl, le_rfl, id⟩
  | tick now =>
    show Grows s (s.tick now).1
    rw [tick_frame]
    exact ⟨id, le_rfl, le_rfl, id⟩

/-- What has been noted stays noted, whatever is called. -/
theorem Noted.step {body : Body} (h : s.Noted body) (c : SendCall) :
    (s.step c).1.Noted body := by
  have hg := step_grows s c
  cases body with
  | ack contiguous highest bufferedMs =>
    obtain ⟨hgot, hlost, hhi, hpause⟩ := h
    exact ⟨hg.gotAck hgot, hlost.trans hg.lostBelow, hhi.trans hg.ackedHighest,
      hg.pauseFollows hpause⟩
  | nack missing => exact hg.gotAck h
  | data | «end» | endAck | keepalive => trivial

end XferSender

end Protofish4
