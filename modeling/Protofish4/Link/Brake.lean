import Protofish4.Link.Exact
import Protofish4.Link.Mutual

/-!
# The window and what the receiver has seen

The sender brakes on the highest number the receiver has admitted to. What
it knows may be stale, replayed or out of order, but an `Ack` never admits
to more than the receiver has seen by the time it is delivered. So the
window bounds what is out beyond the receiver's true state.
-/

namespace Protofish4

variable {key : SessionKey} {id : RequestId}

/-! ## The sender's side of the window -/

/-- Carrying out events touches the ring alone. -/
theorem transmitAll_frame (now : Instant) (x : XferSender) (es : List SendEvent) :
    (transmitAll key id now x es).state
      = { x with ring := (transmitAll key id now x es).state.ring } := by
  induction es generalizing x with
  | nil => rfl
  | cons e es ih =>
    have hone : (transmit key id now x e).state
        = { x with ring := (transmit key id now x e).state.ring } := by
      cases e with
      | emit seq body =>
        simp only [transmit]
        split
        · rfl
        · split <;> rfl
      | resend | completed | failed => rfl
    simp only [transmitAll]
    rw [ih, hone]

/-- The application's calls and the timers leave the window's edge. -/
theorem txAct_edge (x : XferSender) (i : TxAct) : ((txParty key id).act x i).state.cfg = x.cfg
    ∧ ((txParty key id).act x i).state.ackedHighest = x.ackedHighest := by
  cases i with
  | pushFrame ts payload now =>
    simp only [txParty]
    rw [transmitAll_frame]
    unfold XferSender.pushFrame
    split <;> exact ⟨rfl, rfl⟩
  | finish now =>
    simp only [txParty]
    rw [transmitAll_frame]
    unfold XferSender.finish
    split <;> exact ⟨rfl, rfl⟩
  | tick now =>
    simp only [txParty]
    rw [transmitAll_frame, x.tick_frame]
    exact ⟨rfl, rfl⟩

/-- Where a datagram from the receiver may move the window's edge. -/
inductive EdgeMoves (key : SessionKey) (m : Sent) (x x' : XferSender) : Prop where
  | stays (h : x'.ackedHighest = x.ackedHighest)
  | admitted (seq c h b) (hopen : openBody key .recv m.bytes = some (seq, .ack c h b))
      (hlt : x.ackedHighest < h.toNat) (hedge : x'.ackedHighest = h.toNat)

theorem txReceive_edge (x : XferSender) (now : Instant) (m : Sent) :
    ((txParty key id).receive x now m).state.cfg = x.cfg
      ∧ EdgeMoves key m x ((txParty key id).receive x now m).state := by
  simp only [txParty]
  split
  · exact ⟨rfl, .stays rfl⟩
  · rename_i seq body hopen
    rw [transmitAll_frame]
    cases body with
    | ack c h b =>
      refine ⟨rfl, ?_⟩
      by_cases hlt : x.ackedHighest < h.toNat
      · exact .admitted seq c h b hopen hlt (if_pos hlt)
      · exact .stays (if_neg hlt)
    | nack missing => exact ⟨rfl, .stays rfl⟩
    | endAck => exact ⟨rfl, .stays rfl⟩
    | data | «end» | keepalive => exact ⟨rfl, .stays rfl⟩

/-- The edge of the window never moves back. -/
theorem acked_le_step (s : LinkState) (op : LinkOp) : s.left.ackedHighest
    ≤ (Net.step (txParty key id) (rxParty key id) s op).1.left.ackedHighest := by
  cases op with
  | left i => exact (txAct_edge s.left i).2.ge
  | deliverLeft n now keep =>
    simp only [Net.step]
    cases s.toLeft[n]? with
    | none => exact Nat.le_refl _
    | some m =>
      rcases (@txReceive_edge key id s.left now m).2 with heq | ⟨_, _, _, _, _, hlt, hedge⟩
      · exact heq.ge
      · exact hlt.le.trans hedge.ge
  | deliverRight n now keep =>
    simp only [Net.step]
    cases s.toRight[n]? <;> exact Nat.le_refl _
  | right i => exact Nat.le_refl _
  | dropRight n => exact Nat.le_refl _
  | dropLeft n => exact Nat.le_refl _

/-! ## What an `Ack` in flight admits -/

/-- The receiver has seen what the sender takes it to have seen. -/
structure Admitted (scfg : SenderConfig) (_ : LinkTrace) (x : XferSender) (y : Rx) : Prop where
  cfg : x.cfg = scfg
  wf : y.state.gaps.WF
  acked : x.ackedHighest ≤ y.state.gaps.highest

/-- An `Ack` in flight admits to no more than the receiver has seen. -/
def Admits (key : SessionKey) (_ : LinkTrace) (_ : XferSender) (y : Rx) (m : Sent) : Prop :=
  ∀ seq c h b, openBody key .recv m.bytes = some (seq, .ack c h b) →
    h.toNat ≤ y.state.gaps.highest

namespace Admitted

variable {scfg : SenderConfig} {t : LinkTrace} {x : XferSender} {y : Rx}

theorem left (h : Admitted scfg t x y) {q : Net.Reaction XferSender Sent TxObs}
    (hcfg : q.state.cfg = x.cfg) (hacked : q.state.ackedHighest ≤ y.state.gaps.highest) :
    Net.LeftKeeps (Admitted scfg) (fun _ _ _ _ => True) (Admits key) t x y q where
  holds := ⟨hcfg.trans h.cfg, h.wf, hacked⟩
  sent _ _ := trivial
  toRight _ _ := trivial
  toLeft _ hm := hm

theorem receive (h : Admitted scfg t x y) (now : Instant) {m : Sent} (hm : Admits key t x y m) :
    Net.LeftKeeps (Admitted scfg) (fun _ _ _ _ => True) (Admits key) t x y
      ((txParty key id).receive x now m) := by
  obtain ⟨hcfg, hedge⟩ := @txReceive_edge key id x now m
  refine h.left hcfg ?_
  rcases hedge with heq | ⟨seq, c, hi, b, hopen, -, heq⟩
  · exact heq ▸ h.acked
  · exact heq ▸ hm seq c hi b hopen

/-- A call on the receiver only raises what it has seen, and what it
acknowledges is what it has seen by then. -/
theorem call (h : Admitted scfg t x y) (now : Instant) (c : RecvCall) :
    Net.RightKeeps (Admitted scfg) (fun _ _ _ _ => True) (Admits key) t x y
      (y.call key id now c) := by
  have hstate := @Rx.call_state key id now y c
  have hgrow : y.state.gaps.highest ≤ (y.call key id now c).state.state.gaps.highest := by
    rw [hstate, XferReceiver.highest_step h.wf c]
    split
    · exact Nat.le_refl _
    · exact Nat.le_max_left _ _
  refine ⟨⟨h.cfg, ?_, h.acked.trans hgrow⟩, fun m hm => ?_, fun _ _ => trivial,
    fun m hm seq c hi b hopen => (hm seq c hi b hopen).trans hgrow⟩
  · rw [hstate]
    exact XferReceiver.step_wf h.wf c
  · intro seq c' hi b hopen
    obtain ⟨e, he, seq', body, hbody, hopen'⟩ := Rx.open_of_mem_call hm
    rw [hopen'] at hopen
    cases hopen
    cases e with
    | sendAck c' hi b =>
      cases hbody
      obtain ⟨-, rfl⟩ := XferReceiver.sendAck_of_mem_step he
      rw [hstate]
      exact XferSeq.toNat_ofNat_le _
    | sendNack | sendEndAck | unreliable | reliable | relFinished | closed => cases hbody

theorem ignore (h : Admitted scfg t x y) {y' : Rx} (hy : y'.state = y.state) :
    Net.RightKeeps (Admitted scfg) (fun _ _ _ _ => True) (Admits key) t x y ⟨y', [], []⟩ := by
  refine ⟨⟨h.cfg, hy ▸ h.wf, hy ▸ h.acked⟩, fun _ hm => (by cases hm), fun _ _ => trivial,
    fun m hm seq c hi b hopen => ?_⟩
  rw [hy]
  exact hm seq c hi b hopen

end Admitted

/-- **What is admitted has been seen**, in every run. -/
theorem admitted_run (key : SessionKey) (id : RequestId) (scfg : SenderConfig)
    (rcfg : ReceiverConfig) (start : Instant) (ops : List LinkOp) :
    Net.Inv (Admitted scfg) (fun _ _ _ _ => True) (Admits key)
      (linkRun key id scfg rcfg start ops).2 (linkRun key id scfg rcfg start ops).1 := by
  refine Net.run_safe (fun _ => True) (fun _ _ _ => trivial)
    ⟨⟨rfl, GapTracker.wf_new, Nat.le_refl _⟩, fun _ _ => trivial, fun _ hm => (by cases hm)⟩
    ?_ ?_ ?_ ?_ ops trivial
  · intro ops t x y i _ _ h
    obtain ⟨hcfg, hedge⟩ := @txAct_edge key id x i
    exact h.left hcfg (hedge ▸ h.acked)
  · intro ops t x y i _ _ h
    cases i with
    | tick now => exact h.call now _
    | setBufferedMs ms => exact h.call 0 _
    | report occupancy => exact h.ignore rfl
  · intro ops t x y n now keep m _ _ h hm
    exact h.receive now hm
  · intro ops t x y n now keep m _ _ h _
    simp only [rxParty]
    split
    · exact h.ignore rfl
    · exact h.call now _

/-! ## The window -/

/-- The last number emitted; zero if there is none. -/
def lastEmitted (t : LinkTrace) : Nat :=
  ((pushed t).getLast?.map fun frame => frame.seq.toNat).getD 0

/-- The frames emitted beyond `n`. -/
def beyond (t : LinkTrace) (n : Nat) : List Frame :=
  (pushed t).filter fun frame => n < frame.seq.toNat

/-- Frames numbered from one on are as many as the last number says. -/
theorem getLast_numbered {l : List Frame}
    (h : ∀ i frame, l[i]? = some frame → frame.seq.toNat = i + 1) :
    (l.getLast?.map fun frame => frame.seq.toNat).getD 0 = l.length := by
  induction l using List.reverseRecOn with
  | nil => rfl
  | append_singleton l frame _ =>
    have hlast := h l.length frame (by simp)
    simp [hlast]

theorem length_beyond_numbered {l : List Frame}
    (h : ∀ i frame, l[i]? = some frame → frame.seq.toNat = i + 1) (n : Nat) :
    (l.filter fun frame => n < frame.seq.toNat).length = l.length - n := by
  induction l using List.reverseRecOn with
  | nil => simp
  | append_singleton l frame ih =>
    have hlast := h l.length frame (by simp)
    have hinit : ∀ i frame, l[i]? = some frame → frame.seq.toNat = i + 1 := by
      intro i frame hi
      refine h i frame ?_
      rw [List.getElem?_append_left (List.getElem?_eq_some_iff.mp hi).1]
      exact hi
    rw [List.filter_append, List.length_append, ih hinit, List.length_append]
    by_cases hlt : n < l.length + 1
    · simp [hlast, hlt]
      omega
    · simp [hlast, hlt]
      omega

/-- **The window is the receiver's.** However the network treats the
datagrams, as long as the numbers last: what the sender takes as seen never
decreases and has been seen, what has been seen has been emitted, and no
more than the window allows is out beyond it. -/
theorem window_enforced (key : SessionKey) (id : RequestId) (scfg : SenderConfig)
    (rcfg : ReceiverConfig) (start : Instant) (ops : List LinkOp)
    (hfew : FewPushed key id scfg rcfg start ops) :
    (∀ more, (linkRun key id scfg rcfg start ops).1.left.ackedHighest
        ≤ (linkRun key id scfg rcfg start (ops ++ more)).1.left.ackedHighest)
      ∧ (linkRun key id scfg rcfg start ops).1.left.ackedHighest
        ≤ (linkRun key id scfg rcfg start ops).1.right.state.gaps.highest
      ∧ (linkRun key id scfg rcfg start ops).1.right.state.gaps.highest
        ≤ lastEmitted (linkRun key id scfg rcfg start ops).2
      ∧ (beyond (linkRun key id scfg rcfg start ops).2
          (linkRun key id scfg rcfg start ops).1.right.state.gaps.highest).length
        ≤ scfg.maxOutstanding := by
  have hexact := (exact_run key id scfg rcfg start ops hfew).holds
  have hadmitted := (admitted_run key id scfg rcfg start ops).holds
  have hmutual : Mutual key id rcfg start (linkRun key id scfg rcfg start ops).2
      (linkRun key id scfg rcfg start ops).1.left (linkRun key id scfg rcfg start ops).1.right :=
    (mutual_run (sourceLike_txParty key id) (sinkLike_rxParty key id) scfg rcfg start ops).holds
  refine ⟨fun more => ?_, hadmitted.acked, ?_, ?_⟩
  · induction more using List.reverseRecOn with
    | nil => rw [List.append_nil]
    | append_singleton more op ih =>
      refine ih.trans ?_
      unfold linkRun
      rw [← List.append_assoc, Net.run_concat_fst]
      exact acked_le_step _ op
  · rw [lastEmitted, getLast_numbered hexact.numbered]
    rcases hmutual.highest_upTo with h0 | ⟨frame, hf, hle⟩
    · exact h0 ▸ Nat.zero_le _
    · obtain ⟨i, hi⟩ := List.mem_iff_getElem?.mp hf
      have hlt := (List.getElem?_eq_some_iff.mp hi).1
      have hnum := hexact.numbered i frame hi
      omega
  · -- what the receiver has seen is at least what the sender counts from
    rw [beyond, length_beyond_numbered hexact.numbered]
    have hwindow := hmutual.window
    have hacked := hadmitted.acked
    unfold XferSender.outstanding at hwindow
    rw [hadmitted.cfg, hexact.next] at hwindow
    omega

/-- Two of three frames are lost; the `Ack` for the one that arrived comes
twice. -/
def replayedAckOps : List LinkOp :=
  [.left (.pushFrame ⟨0⟩ [1] 0), .left (.pushFrame ⟨20⟩ [2] 0), .dropRight 0,
    .deliverRight 0 (fromMillis 500) false, .deliverLeft 0 (fromMillis 500) true,
    .left (.pushFrame ⟨40⟩ [3] (fromMillis 500)), .dropRight 0,
    .deliverLeft 0 (fromMillis 510) false]

theorem window_enforced_replayed : (linkRun plainKey zeroId { maxOutstanding := 2 } .cacheWorker 0
    replayedAckOps).1.left.ackedHighest ≤ (linkRun plainKey zeroId { maxOutstanding := 2 }
      .cacheWorker 0 replayedAckOps).1.right.state.gaps.highest :=
  (window_enforced plainKey zeroId { maxOutstanding := 2 } .cacheWorker 0 replayedAckOps
    (by decide +kernel)).2.1

end Protofish4
