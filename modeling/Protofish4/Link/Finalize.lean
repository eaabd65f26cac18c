import Protofish4.Link.Tap

/-!
# Finishing a transfer

The tap announces the end once and the sink acknowledges it once; no timer
repeats either. A transfer whose frames have all arrived therefore
completes as long as these two packets get through: within two delays of
the network, whatever else was lost before. If one of them is lost, only
the timeouts are left.
-/

namespace Protofish4

open Net (Reaction)

section

variable {key : SessionKey} {id : RequestId} {now last since : Instant} {delay : Duration}

/-! ## What has arrived -/

section

variable {rcfg : ReceiverConfig} {start : Instant} {t : LinkTrace}

theorem Mutual.arrived_upTo {x : XferSender} {y : Rx} (h : Mutual key id rcfg start t x y)
    (harr : ∀ frame ∈ pushed t, (XferReceiver.firstArrival (recvCalls t) frame.seq.toNat).isSome)
    {n : Nat} (hn : UpTo t n) {k : Nat} (h1 : 1 ≤ k) (hk : k ≤ n) :
    (XferReceiver.firstArrival (recvCalls t) k).isSome := by
  rcases hn with rfl | ⟨frame, hf, hle⟩
  · omega
  · rcases Nat.lt_or_ge k frame.seq.toNat with hlt | hge
    · obtain ⟨frame', hf', heq⟩ := h.counted k h1 (hlt.trans_le (h.numbered frame hf).2)
      exact heq ▸ harr frame' hf'
    · rw [Nat.le_antisymm (hk.trans hle) hge]
      exact harr frame hf

theorem Mutual.finished_of_acked {x : XferSender} {y : Rx} (h : Mutual key id rcfg start t x y)
    (hack : .sendEndAck ∈ recvEvents t) : y.state.relState = .finished := by
  cases hs : y.state.relState with
  | finished => rfl
  | streaming =>
    have hcount := (XferReceiver.run_marks rcfg start (recvCalls t)).1
    have hp : XferReceiver.run rcfg start (recvCalls t) = (y.state, recvEvents t) := h.projects
    rw [hp, (h.recvInv.live hs).not_acked] at hcount
    exact absurd (List.count_pos_iff.mpr hack) (by rw [hcount]; exact Nat.lt_irrefl 0)

end

/-! ## The last two packets -/

/-- Every frame has arrived and the end is on its way. -/
structure AwaitsEnd (key : SessionKey) (since last : Instant) (t : LinkTrace) (s : LinkState) :
    Prop where
  carried : ∃ m ∈ s.toRight, opensEnd key m = true ∧ m.sentAt ≤ since
  closing : Closing last s.left
  atEnd : XferReceiver.AtEnd s.right.state
  onTime : XferReceiver.OnTime last s.right.state
  roomy : durationSince last since ≤ s.right.state.cfg.idleTimeout
  covers : ∀ frame ∈ pushed t, frame.seq.toNat ≤ s.right.state.gaps.contiguous
  reached : s.left.nextSeq.toNat - 1 ≤ s.right.state.gaps.contiguous

/-- The sink is done, and its acknowledgement of the end is on its way. -/
structure AwaitsEndAck (key : SessionKey) (sent last : Instant) (t : LinkTrace) (s : LinkState) :
    Prop where
  carried : ∃ m ∈ s.toLeft, opensEndAck key m = true ∧ m.sentAt ≤ sent
  closing : Closing last s.left
  complete : ∃ f, .relFinished (.complete f) ∈ recvEvents t

/-- How far the conclusion has come. -/
inductive Stage (key : SessionKey) (delay : Duration) (since last : Instant) (t : LinkTrace)
    (s : LinkState) : Prop where
  | awaitsEnd (h : AwaitsEnd key since last t s)
  | awaitsEndAck (h : AwaitsEndAck key (since + delay) last t s)
  | finalized (h : Finalized t)

theorem Finalized.append {t : LinkTrace} (h : Finalized t) (u : LinkTrace) :
    Finalized (t ++ u) := by
  obtain ⟨⟨f, hf⟩, hc⟩ := h
  refine ⟨⟨f, ?_⟩, ?_⟩
  · rw [recvEvents_append]
    exact List.mem_append_left _ hf
  · rw [Net.lefts_append]
    exact List.mem_append_left _ hc

namespace AwaitsEnd

variable {t : LinkTrace} {s : LinkState}

/-- The clock has not passed the delay of the packet awaited. -/
theorem soon (h : AwaitsEnd key since last t s) (hin : InTime delay since now s) :
    now ≤ since + delay := by
  obtain ⟨m, hm, -, hat⟩ := h.carried
  have hle := hin m (List.mem_append_left _ hm)
  rwa [max_eq_right hat] at hle

/-- The tap reacts, and goes on waiting. -/
theorem left (h : AwaitsEnd key since last t s) {q : Reaction XferSender Sent TxObs}
    (hclosing : Closing last q.state) (hnext : q.state.nextSeq = s.left.nextSeq)
    (hframes : q.events.filterMap TxObs.frame = []) (l : List Sent) :
    AwaitsEnd key since last (t ++ q.events.map .inl)
      { s with left := q.state, toRight := s.toRight ++ q.sent, toLeft := l } where
  carried := by
    obtain ⟨m, hm, hrest⟩ := h.carried
    exact ⟨m, List.mem_append_left _ hm, hrest⟩
  closing := hclosing
  atEnd := h.atEnd
  onTime := h.onTime
  roomy := h.roomy
  covers := by
    rw [pushed_append, pushed_inl, hframes, List.append_nil]
    exact h.covers
  reached := by
    rw [hnext]
    exact h.reached

/-- The sink reacts without learning of the end. -/
theorem right (h : AwaitsEnd key since last t s) {q : Reaction Rx Sent RxObs}
    (hidles : XferReceiver.Idles last s.right.state q.state.state) {l : List Sent}
    (hl : ∃ m ∈ l, opensEnd key m = true ∧ m.sentAt ≤ since) :
    AwaitsEnd key since last (t ++ q.events.map .inr)
      { s with right := q.state, toRight := l, toLeft := s.toLeft ++ q.sent } where
  carried := hl
  closing := h.closing
  atEnd := hidles.atEnd
  onTime := hidles.onTime
  roomy := by
    rw [hidles.cfg]
    exact h.roomy
  covers := by
    rw [pushed_append, pushed_inr, List.append_nil, hidles.gaps]
    exact h.covers
  reached := by
    rw [hidles.gaps]
    exact h.reached

theorem entryAct (h : AwaitsEnd key since last t s) (i : RxAct)
    (hi : ∀ now, i = .tick now → now ≤ last) :
    XferReceiver.Idles last s.right.state ((entryParty key id).act s.right i).state.state := by
  have hopen : (entryParty key id).act s.right i = (rxParty key id).act s.right i := by
    simp only [entryParty]
    rw [if_neg (by simp [h.atEnd.notClosed])]
  rw [hopen]
  cases i with
  | tick now =>
    simp only [rxParty]
    rw [Rx.call_state]
    exact h.atEnd.tick h.onTime (hi now rfl)
  | setBufferedMs ms =>
    simp only [rxParty]
    rw [Rx.call_state]
    exact .of_eq h.atEnd ⟨h.onTime.idle, h.onTime.stall⟩ rfl rfl rfl rfl rfl rfl
  | report occupancy => exact .of_eq h.atEnd h.onTime rfl rfl rfl rfl rfl rfl

/-- The announcement of the end concludes the transfer for the sink, which
acknowledges it at once; any other packet tells it nothing new. -/
theorem entryReceive (h : AwaitsEnd key since last t s) {m : Sent}
    (hm : SaysTrue key t s.left s.right m) (hnow : since ≤ now) :
    (opensEnd key m = true
      ∧ (∃ f, .relFinished (.complete f)
        ∈ ((entryParty key id).receive s.right now m).events.flatMap RxObs.events)
      ∧ ∃ m' ∈ ((entryParty key id).receive s.right now m).sent,
        opensEndAck key m' = true ∧ m'.sentAt = now)
    ∨ opensEnd key m = false
      ∧ XferReceiver.Idles last s.right.state
        ((entryParty key id).receive s.right now m).state.state := by
  have hopen : (entryParty key id).receive s.right now m
      = (rxParty key id).receive s.right now m := by
    simp only [entryParty]
    rw [if_neg (by simp [h.atEnd.notClosed])]
  rw [hopen]
  cases hb : opensEnd key m with
  | true =>
    obtain ⟨seq, f, hbody⟩ := opensEnd_iff.mp hb
    -- the end declared is the last number given out, and everything up to it has arrived
    obtain ⟨-, hf⟩ := hm seq _ hbody
    obtain ⟨hcomplete, hack⟩ := @XferReceiver.AtEnd.handle_end _ now h.atEnd seq f (hf ▸ h.reached)
    refine Or.inl ⟨rfl, ⟨f, ?_⟩, ?_⟩
    · simpa [rxParty, hbody, Rx.call] using hcomplete
    · obtain ⟨m', hm', hat, k, hseal⟩ := @Rx.exists_mem_reply key id now
        { s.right with state := (s.right.state.step (.handle seq (.end f) now)).1 } _ _ _ _ hack
        rfl rfl
      simp only [rxParty, hbody]
      exact ⟨m', hm', opensEndAck_iff.mpr ⟨⟨k⟩, openBody_sealBody hseal rfl⟩, hat⟩
  | false =>
    refine Or.inr ⟨rfl, ?_⟩
    simp only [rxParty]
    split
    · exact .of_eq h.atEnd h.onTime rfl rfl rfl rfl rfl rfl
    · rename_i seq body hbody
      -- every other packet repeats what the sink has, or reports a loss below it
      have hsaid := hm seq body hbody
      have hstale : XferReceiver.Stale s.right.state.gaps.contiguous seq body := by
        cases body with
        | data ts payload => exact h.covers _ hsaid
        | keepalive lost =>
          rcases hsaid with h0 | ⟨frame, hf, hle⟩
          · exact h0.le.trans (Nat.zero_le _)
          · exact hle.trans (h.covers frame hf)
        | «end» f =>
          rw [opensEnd_iff.mpr ⟨seq, f, hbody⟩] at hb
          cases hb
        | ack | nack | endAck => trivial
      rw [Rx.call_state]
      refine h.atEnd.handle h.onTime hstale (le_trans ?_ h.roomy)
      exact Int.toNat_le_toNat (Int.sub_le_sub_left hnow last)

end AwaitsEnd

namespace AwaitsEndAck

variable {sent : Instant} {t : LinkTrace} {s : LinkState}

theorem soon (h : AwaitsEndAck key (since + delay) last t s) (hin : InTime delay since now s) :
    now ≤ since + delay + delay := by
  obtain ⟨m, hm, -, hat⟩ := h.carried
  have hle := hin m (List.mem_append_right _ hm)
  have hmax : max m.sentAt since ≤ since + (delay : Int) :=
    max_le hat (Int.le_add_of_nonneg_right (Int.natCast_nonneg delay))
  exact hle.trans (Int.add_le_add_right hmax _)

theorem left (h : AwaitsEndAck key sent last t s) {q : Reaction XferSender Sent TxObs}
    (hclosing : Closing last q.state) {l : List Sent}
    (hl : ∃ m ∈ l, opensEndAck key m = true ∧ m.sentAt ≤ sent) :
    AwaitsEndAck key sent last (t ++ q.events.map .inl)
      { s with left := q.state, toRight := s.toRight ++ q.sent, toLeft := l } where
  carried := hl
  closing := hclosing
  complete := by
    obtain ⟨f, hf⟩ := h.complete
    refine ⟨f, ?_⟩
    rw [recvEvents_append]
    exact List.mem_append_left _ hf

theorem right (h : AwaitsEndAck key sent last t s) (q : Reaction Rx Sent RxObs) (l : List Sent) :
    AwaitsEndAck key sent last (t ++ q.events.map .inr)
      { s with right := q.state, toRight := l, toLeft := s.toLeft ++ q.sent } where
  carried := by
    obtain ⟨m, hm, hrest⟩ := h.carried
    exact ⟨m, List.mem_append_left _ hm, hrest⟩
  closing := h.closing
  complete := by
    obtain ⟨f, hf⟩ := h.complete
    refine ⟨f, ?_⟩
    rw [recvEvents_append]
    exact List.mem_append_left _ hf

end AwaitsEndAck

namespace Stage

variable {rcfg : ReceiverConfig} {start : Instant} {t : LinkTrace} {s : LinkState}

/-- One prompt operation, with the end on its way. -/
theorem step_awaitsEnd (h : AwaitsEnd key since last t s) (hlast : since + delay ≤ last)
    (hinv : Net.Inv (Mutual key id rcfg start) (SaysTrue key) (AnswersTrue key) t s) {op : LinkOp}
    (hop : PromptOp delay since s op) :
    Stage key delay since last (t ++ (Net.step (tapParty key id) (entryParty key id) s op).2)
      (Net.step (tapParty key id) (entryParty key id) s op).1 := by
  obtain ⟨hdrop, hclock⟩ := hop
  cases op with
  | left i =>
    obtain ⟨hclosing, hnext⟩ := @Closing.act key id last s.left h.closing i fun now hi => by
      subst hi
      exact (h.soon (hclock now rfl).2).trans hlast
    exact .awaitsEnd (h.left hclosing hnext (frames_tapAct h.closing.finalizing i) s.toLeft)
  | right i =>
    refine .awaitsEnd (h.right (h.entryAct i fun now hi => ?_) h.carried)
    subst hi
    exact (h.soon (hclock now rfl).2).trans hlast
  | deliverRight n now keep =>
    simp only [Net.step]
    cases hn : s.toRight[n]? with
    | none => exact .awaitsEnd (by simpa using h)
    | some m =>
      -- either this is the announcement, or the announcement is still in flight behind it
      obtain ⟨hfrom, hin⟩ := hclock now rfl
      have hsays := hinv.toRight m (List.mem_of_getElem? hn)
      rcases @AwaitsEnd.entryReceive key id now last since t s h m hsays hfrom with
        ⟨-, ⟨f, hf⟩, m', hm', hack, hat⟩ | ⟨hother, hidles⟩
      · refine .awaitsEndAck ⟨⟨m', List.mem_append_right _ hm', hack, ?_⟩, h.closing, f, ?_⟩
        · rw [hat]
          exact h.soon hin
        · simp only [Net.rightDoes, recvEvents_append, recvEvents_inr]
          exact List.mem_append_right _ hf
      · refine .awaitsEnd (h.right hidles ?_)
        obtain ⟨m', hm', hend, hat⟩ := h.carried
        refine ⟨m', Net.mem_taken hn hm' (fun heq => ?_) keep, hend, hat⟩
        rw [heq, hother] at hend
        cases hend
  | deliverLeft n now keep =>
    simp only [Net.step]
    cases hn : s.toLeft[n]? with
    | none => exact .awaitsEnd (by simpa using h)
    | some m =>
      rcases @Closing.receive key id last s.left h.closing now m with
        ⟨hack, -⟩ | ⟨-, hclosing, hnext⟩
      · -- the end is not acknowledged before it is known
        obtain ⟨seq, hopen⟩ := opensEndAck_iff.mp hack
        have hsent : .sendEndAck ∈ recvEvents t :=
          hinv.toLeft m (List.mem_of_getElem? hn) seq _ hopen
        have hfin := hinv.holds.finished_of_acked hsent
        rw [h.atEnd.streaming] at hfin
        cases hfin
      · exact .awaitsEnd (h.left hclosing hnext (frames_tapReceive s.left now m) _)
  | dropRight n => cases hdrop
  | dropLeft n => cases hdrop

/-- One prompt operation, with the acknowledgement of the end on its way. -/
theorem step_awaitsEndAck (h : AwaitsEndAck key (since + delay) last t s)
    (hlast : since + delay + delay ≤ last) {op : LinkOp} (hop : PromptOp delay since s op) :
    Stage key delay since last (t ++ (Net.step (tapParty key id) (entryParty key id) s op).2)
      (Net.step (tapParty key id) (entryParty key id) s op).1 := by
  obtain ⟨hdrop, hclock⟩ := hop
  cases op with
  | left i =>
    obtain ⟨hclosing, -⟩ := @Closing.act key id last s.left h.closing i fun now hi => by
      subst hi
      exact (h.soon (hclock now rfl).2).trans hlast
    exact .awaitsEndAck (h.left hclosing h.carried)
  | right i => exact .awaitsEndAck (h.right _ s.toRight)
  | deliverRight n now keep =>
    simp only [Net.step]
    cases hn : s.toRight[n]? with
    | none => exact .awaitsEndAck (by simpa using h)
    | some m => exact .awaitsEndAck (h.right _ _)
  | deliverLeft n now keep =>
    simp only [Net.step]
    cases hn : s.toLeft[n]? with
    | none => exact .awaitsEndAck (by simpa using h)
    | some m =>
      rcases @Closing.receive key id last s.left h.closing now m with
        ⟨-, hdone⟩ | ⟨hother, hclosing, -⟩
      · obtain ⟨f, hf⟩ := h.complete
        refine .finalized ⟨⟨f, ?_⟩, ?_⟩
        · simp only [Net.leftDoes, recvEvents_append]
          exact List.mem_append_left _ hf
        · simp only [Net.leftDoes, Net.lefts_append, Net.lefts_map_inl]
          exact List.mem_append_right _ hdone
      · refine .awaitsEndAck (h.left hclosing ?_)
        obtain ⟨m', hm', hack, hat⟩ := h.carried
        refine ⟨m', Net.mem_taken hn hm' (fun heq => ?_) keep, hack, hat⟩
        rw [heq, hother] at hack
        cases hack
  | dropRight n => cases hdrop
  | dropLeft n => cases hdrop

theorem step (h : Stage key delay since last t s) (hlast : since + delay + delay ≤ last)
    (hinv : Net.Inv (Mutual key id rcfg start) (SaysTrue key) (AnswersTrue key) t s) {op : LinkOp}
    (hop : PromptOp delay since s op) :
    Stage key delay since last (t ++ (Net.step (tapParty key id) (entryParty key id) s op).2)
      (Net.step (tapParty key id) (entryParty key id) s op).1 := by
  cases h with
  | awaitsEnd h =>
    refine step_awaitsEnd h (le_trans ?_ hlast) hinv hop
    exact Int.le_add_of_nonneg_right (Int.natCast_nonneg delay)
  | awaitsEndAck h => exact step_awaitsEndAck h hlast hop
  | finalized h => exact .finalized (h.append _)

end Stage

/-! ## Where the conclusion starts -/

section

variable {rcfg : ReceiverConfig} {start : Instant} {t : LinkTrace} {s : LinkState}

variable (hinv : Net.Inv (Mutual key id rcfg start) (SaysTrue key) (AnswersTrue key) t s)

namespace Finishing

include hinv

/-- A tap that is done has completed. -/
theorem completed_of_done (h : Finishing delay since s t) (hd : s.left.state = .done) :
    .event .completed ∈ Net.lefts t := by
  rcases hinv.holds.done hd with hc | ⟨reason, hfail⟩
  · exact hc
  · exact absurd hfail (h.notFailed reason)

theorem complete_of_acked (h : Finishing delay since s t) (hack : .sendEndAck ∈ recvEvents t) :
    ∃ f, .relFinished (.complete f) ∈ recvEvents t :=
  hinv.holds.recvInv.complete_of_finished (hinv.holds.finished_of_acked hack) h.notAborted

omit hinv in
/-- A tap that is not done waits. -/
theorem closing (h : Finishing delay since s t) (hcarried : Carried key delay since s t)
    (hd : s.left.state ≠ .done) : Closing (since + 2 * delay) s.left where
  finalizing := by
    cases hs : s.left.state with
    | streaming => exact absurd hs h.finished
    | finalizing => rfl
    | done => exact absurd hs hd
  finalize started hs := durationSince_within (h.finalize started hs)
  acked := by
    rcases hcarried.acked with hack | hin
    · exact Or.inl hack
    · refine Or.inr fun first hf => ?_
      have hadd := durationSince_add since first (2 * delay)
      push_cast at hadd
      exact hadd.trans (hin first hf)

/-- A stream that streams and knows of no end waits for it. -/
theorem awaitsEnd (h : Finishing delay since s t)
    (hclosing : Closing (since + 2 * delay) s.left) (hs : s.right.state.relState = .streaming)
    (hend : s.right.state.finalSeq = none) (hm : ∃ m ∈ s.toRight, opensEnd key m = true) :
    AwaitsEnd key since (since + 2 * delay) t s where
  carried := by
    obtain ⟨m, hm, hopens⟩ := hm
    exact ⟨m, hm, hopens, h.sent m (List.mem_append_left _ hm)⟩
  closing := hclosing
  atEnd := hinv.holds.recvInv.atEnd hs hend fun k h1 hk =>
    hinv.holds.arrived_upTo h.arrived hinv.holds.highest_upTo h1 hk
  onTime := by
    have hopen := (hinv.holds.recvInv.live hs).not_closed
    exact ⟨durationSince_within (h.idle hopen), durationSince_within (h.stall hopen)⟩
  roomy := by
    have hidle := h.idle (hinv.holds.recvInv.live hs).not_closed
    have hnone : durationSince since since = 0 := by simp [durationSince]
    have hle : durationSince since since ≤ durationSince since s.right.state.lastPacketAt := by
      rw [hnone]
      exact Nat.zero_le _
    exact durationSince_within (Nat.lt_of_le_of_lt (Nat.add_le_add_right hle _) hidle)
  covers frame hf := hinv.holds.recvInv.contiguous_ge hs fun k h1 hk =>
    hinv.holds.arrived_upTo h.arrived (Or.inr ⟨frame, hf, le_rfl⟩) h1 hk
  reached := hinv.holds.recvInv.contiguous_ge hs fun k h1 hk => by
    obtain ⟨frame, hf, heq⟩ := hinv.holds.counted k h1 (by have := hinv.holds.first; omega)
    exact heq ▸ h.arrived frame hf

/-- Where a transfer stands whose end and whose acknowledgement of it were
not lost. -/
theorem stage (h : Finishing delay since s t) (hcarried : Carried key delay since s t) :
    Stage key delay since (since + 2 * delay) t s := by
  have hrecv := hinv.holds.recvInv
  by_cases hcomplete : ∃ f, .relFinished (.complete f) ∈ recvEvents t
  · have hack : .sendEndAck ∈ recvEvents t := by
      obtain ⟨f, hf⟩ := hcomplete
      have hp : XferReceiver.run rcfg start (recvCalls t) = (s.right.state, recvEvents t) :=
        hinv.holds.projects
      have := @XferReceiver.run_sendEndAck_of_complete rcfg start (recvCalls t) f
      rw [hp] at this
      exact this hf
    -- the sink is through: its acknowledgement has arrived or is in flight
    rcases hcarried.acking hack with hc | ⟨m, hm, hopens⟩
    · exact .finalized ⟨hcomplete, hc⟩
    · by_cases hd : s.left.state = .done
      · exact .finalized ⟨hcomplete, h.completed_of_done hinv hd⟩
      · refine .awaitsEndAck ⟨⟨m, hm, hopens, ?_⟩, h.closing hcarried hd, hcomplete⟩
        have hsent := h.sent m (List.mem_append_right _ hm)
        exact hsent.trans (Int.le_add_of_nonneg_right (Int.natCast_nonneg delay))
  · have hd : s.left.state ≠ .done := fun hd =>
      hcomplete (h.complete_of_acked hinv (hinv.holds.completed (h.completed_of_done hinv hd)))
    have hs : s.right.state.relState = .streaming := by
      cases hs : s.right.state.relState with
      | streaming => rfl
      | finished => exact absurd (hrecv.complete_of_finished hs h.notAborted) hcomplete
    have hend : s.right.state.finalSeq = none := by
      cases hf : s.right.state.finalSeq with
      | none => rfl
      | some f =>
        -- a sink that knows of the end, with every frame arrived, has completed
        obtain ⟨seq, now, hc⟩ := hrecv.final f hf
        have hnum : f.toNat = s.left.nextSeq.toNat - 1 := (hinv.holds.heard seq _ now hc).2
        refine absurd (hrecv.complete_of_arrived hf (fun k h1 hk => ?_) h.notAborted) hcomplete
        obtain ⟨frame, hmem, heq⟩ := hinv.holds.counted k h1 (by omega)
        exact heq ▸ h.arrived frame hmem
    rcases hcarried.ending with ⟨f, hheard⟩ | hm
    · have hsome := XferReceiver.isSome_finalSeq rcfg start (recvCalls t) hheard
      have hp : XferReceiver.run rcfg start (recvCalls t) = (s.right.state, recvEvents t) :=
        hinv.holds.projects
      rw [hp, hend] at hsome
      cases hsome
    · exact .awaitsEnd (h.awaitsEnd hinv (h.closing hcarried hd) hs hend hm)

end Finishing

end

/-! ## The run -/

/-- What a prompt network brings about, operation by operation. -/
theorem Stage.run {scfg : SenderConfig} {rcfg : ReceiverConfig} {start until' : Instant}
    {past future : List LinkOp}
    (h : Stage key delay since last (tapRun key id scfg rcfg start past).2
      (tapRun key id scfg rcfg start past).1) (hlast : since + delay + delay ≤ last)
    (hp : Prompt key id delay since until' (tapRun key id scfg rcfg start past).1 future) :
    Stage key delay since last (tapRun key id scfg rcfg start (past ++ future)).2
        (tapRun key id scfg rcfg start (past ++ future)).1
      ∧ InTime delay since until' (tapRun key id scfg rcfg start (past ++ future)).1 := by
  induction future generalizing past with
  | nil =>
    rw [List.append_nil]
    exact ⟨h, hp⟩
  | cons op ops ih =>
    have hinv := mutual_run (sourceLike_tapParty key id) (sinkLike_entryParty key id) scfg rcfg
      start past
    have hfst : (tapRun key id scfg rcfg start (past ++ [op])).1
        = (Net.step (tapParty key id) (entryParty key id) (tapRun key id scfg rcfg start past).1
          op).1 := Net.run_concat_fst past op
    have hsnd : (tapRun key id scfg rcfg start (past ++ [op])).2
        = (tapRun key id scfg rcfg start past).2
          ++ (Net.step (tapParty key id) (entryParty key id) (tapRun key id scfg rcfg start past).1
            op).2 := Net.run_concat_snd past op
    rw [← List.singleton_append, ← List.append_assoc]
    refine ih ?_ ?_
    · rw [hfst, hsnd]
      exact h.step hlast hinv hp.1
    · rw [hfst]
      exact hp.2

end

/-- **A transfer concludes in two delays.** Whatever else was lost, if the
end and its acknowledgement were not and the first-acknowledgement timeout
leaves the time, both ends have concluded once a prompt network has had two
delays, before any timeout. -/
theorem finalizes_promptly (key : SessionKey) (id : RequestId) (scfg : SenderConfig)
    (rcfg : ReceiverConfig) (start : Instant) (past future : List LinkOp) (delay : Duration)
    (since until' : Instant)
    (hfinishing : Finishing delay since (tapRun key id scfg rcfg start past).1
      (tapRun key id scfg rcfg start past).2)
    (hcarried : Carried key delay since (tapRun key id scfg rcfg start past).1
      (tapRun key id scfg rcfg start past).2)
    (hprompt : Prompt key id delay since until' (tapRun key id scfg rcfg start past).1 future)
    (hlate : since + 2 * delay < until') :
    Finalized (tapRun key id scfg rcfg start (past ++ future)).2 := by
  have hinv := mutual_run (sourceLike_tapParty key id) (sinkLike_entryParty key id) scfg rcfg
    start past
  have htwo : since + (delay : Int) + delay = since + 2 * delay := by
    rw [two_mul, add_assoc]
  obtain ⟨hstage, hin⟩ := (hfinishing.stage hinv hcarried).run htwo.le hprompt
  cases hstage with
  | awaitsEnd h =>
    have hle : since + (delay : Int) ≤ since + delay + delay :=
      Int.le_add_of_nonneg_right (Int.natCast_nonneg delay)
    exact absurd (((h.soon hin).trans hle).trans htwo.le) (not_le.mpr hlate)
  | awaitsEndAck h => exact absurd ((h.soon hin).trans htwo.le) (not_le.mpr hlate)
  | finalized h => exact h

/-- The acknowledgement of the only frame is lost; the end is announced. -/
def announcedOps : List LinkOp :=
  [.left (.pushFrame ⟨0⟩ [1] 0), .deliverRight 0 (fromMillis 500) false, .dropLeft 0,
    .left (.finish (fromMillis 1500))]

theorem finalizes_promptly_announced : Finalized (tapRun plainKey zeroId {} .cacheWorker 0
    (announcedOps ++ [.deliverRight 0 (fromMillis 1550) false, .left (.tick (fromMillis 1580)),
      .deliverLeft 0 (fromMillis 1600) false, .deliverLeft 0 (fromMillis 1600) false])).2 :=
  finalizes_promptly plainKey zeroId {} .cacheWorker 0 announcedOps _ (fromMillis 100)
    (fromMillis 1500) (fromMillis 1701) (by decide +kernel)
    ⟨Or.inr (by decide +kernel), fun h => absurd h (by decide +kernel),
      Or.inr (by decide +kernel)⟩ (by decide +kernel) (by decide +kernel)

/-! ## Three losses -/

/-- Every five seconds from `since` on both ends are ticked, and what they
send arrives. -/
def keptTicking (since : Instant) : List LinkOp :=
  (List.range 7).flatMap fun n =>
    let now := since + (n + 1) * fromSecs 5
    [.left (.tick now), .deliverRight 0 now false, .right (.tick now), .deliverLeft 0 now false]

/-- The frame and its acknowledgement arrive; the announcement of the end is
lost. -/
def lostEnd : List LinkOp :=
  [.left (.pushFrame ⟨0⟩ [1] 0), .deliverRight 0 (fromMillis 500) false,
    .deliverLeft 0 (fromMillis 500) false, .left (.finish (fromMillis 500)), .dropRight 0]

/-- The announcement of the end arrives, and its acknowledgement is lost. -/
def lostEndAck : List LinkOp :=
  [.left (.pushFrame ⟨0⟩ [1] 0), .deliverRight 0 (fromMillis 500) false,
    .deliverLeft 0 (fromMillis 500) false, .left (.finish (fromMillis 500)),
    .deliverRight 0 (fromMillis 500) false, .dropLeft 0]

/-- The only acknowledgement of the frame is lost. -/
def lostAck : List LinkOp :=
  [.left (.pushFrame ⟨0⟩ [1] 0), .deliverRight 0 (fromMillis 500) false, .dropLeft 0,
    .left (.finish (fromMillis 1900))]

/-- The end arrives and is acknowledged, but the tap is ticked before the
acknowledgement comes. -/
def lateAck : List LinkOp :=
  [.deliverRight 0 (fromMillis 1980) false, .left (.tick (fromMillis 2010)),
    .deliverLeft 0 (fromMillis 2020) false, .deliverLeft 0 (fromMillis 2020) false]
      ++ keptTicking (fromMillis 2020)

/-- A transfer that is finishing, over a network that is prompt from then on
until the last timeout is over, and that is not concluded. -/
def Unconcluded (past future : List LinkOp) (since : Instant) : Prop :=
  Finishing (fromMillis 100) since (tapRun plainKey zeroId {} .cacheWorker 0 past).1
      (tapRun plainKey zeroId {} .cacheWorker 0 past).2
    ∧ Prompt plainKey zeroId (fromMillis 100) since (since + fromSecs 36)
      (tapRun plainKey zeroId {} .cacheWorker 0 past).1 future
    ∧ ¬ Finalized (tapRun plainKey zeroId {} .cacheWorker 0 (past ++ future)).2

theorem lost_end_unconcluded : Unconcluded lostEnd (keptTicking (fromMillis 500)) (fromMillis 500)
    ∧ Unconcluded lostEndAck (keptTicking (fromMillis 500)) (fromMillis 500)
    ∧ Unconcluded lostAck lateAck (fromMillis 1900) := by
  refine ⟨⟨by decide +kernel, by decide +kernel, fun h => absurd h.2 (by decide +kernel)⟩,
    ⟨by decide +kernel, by decide +kernel, fun h => absurd h.2 (by decide +kernel)⟩,
    ⟨by decide +kernel, by decide +kernel, fun h => absurd h.2 (by decide +kernel)⟩⟩

end Protofish4
