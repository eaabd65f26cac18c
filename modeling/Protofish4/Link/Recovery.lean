import Protofish4.Lib.Flight
import Protofish4.Link.Finalize
import Protofish4.Link.Sizing
import Protofish4.Xfer.Budget

/-!
# Recovering what was lost

A number the sink asks for comes back in a round trip: the request reaches
the tap within a delay, the ring of the tap still holds the frame, and the
frame reaches the sink within another. What the proof follows is one
number; the network may carry whatever else it likes meanwhile, in any
order, and both ends may do what they like.
-/

namespace Protofish4

open XferReceiver (firstArrival)

variable {key : SessionKey} {id : RequestId} {scfg : SenderConfig} {rcfg : ReceiverConfig}
variable {start : Instant}

/-! ## A tap and an entry run as a link does -/

/-- Inputs of a link that do what this operation does to a tap and an entry:
the operation itself, or what is lost by it. -/
def Matches (key : SessionKey) (id : RequestId) (s : LinkState) (op : LinkOp)
    (ops : List LinkOp) : Prop :=
  (∀ op' ∈ ops, op' = op ∨ drops op' = true)
    ∧ Net.run (txParty key id) (rxParty key id) s ops
      = Net.step (tapParty key id) (entryParty key id) s op

theorem Matches.nothing {s : LinkState} {op : LinkOp}
    (h : Net.step (tapParty key id) (entryParty key id) s op = (s, [])) :
    Matches key id s op [] :=
  ⟨(fun _ hop => by cases hop), h.symm⟩

theorem Matches.one {s : LinkState} {op op' : LinkOp} (hop : op' = op ∨ drops op' = true)
    (h : Net.step (txParty key id) (rxParty key id) s op'
      = Net.step (tapParty key id) (entryParty key id) s op) : Matches key id s op [op'] :=
  ⟨fun _ hmem => List.mem_singleton.mp hmem ▸ hop, (Machine.run_singleton _ s op').trans h⟩

/-- An end that is there does what it does in a link; what is for one that
is gone is lost. -/
theorem exists_matches (s : LinkState) (op : LinkOp) : ∃ ops, Matches key id s op ops := by
  cases op with
  | left i =>
    by_cases hdone : s.left.state = .done
    · exact ⟨[], .nothing (by simp [Net.step, Net.leftDoes, tapParty, hdone])⟩
    · exact ⟨_, .one (Or.inl rfl) (by simp [Net.step, tapParty, hdone])⟩
  | right i =>
    cases hclosed : s.right.state.closed with
    | true => exact ⟨[], .nothing (by simp [Net.step, Net.rightDoes, entryParty, hclosed])⟩
    | false => exact ⟨_, .one (Or.inl rfl) (by simp [Net.step, entryParty, hclosed])⟩
  | deliverLeft n now keep =>
    by_cases hdone : s.left.state = .done
    · cases hn : s.toLeft[n]? with
      | none => exact ⟨[], .nothing (by simp [Net.step, hn])⟩
      | some m =>
        cases keep with
        | true =>
          exact ⟨[], .nothing (by simp [Net.step, Net.leftDoes, Net.taken, tapParty, hdone, hn])⟩
        | false =>
          refine ⟨[.dropLeft n], .one (Or.inr rfl) ?_⟩
          simp [Net.step, Net.leftDoes, Net.taken, tapParty, hdone, hn]
    · exact ⟨_, .one (Or.inl rfl) (by simp [Net.step, tapParty, hdone])⟩
  | deliverRight n now keep =>
    cases hclosed : s.right.state.closed with
    | true =>
      cases hn : s.toRight[n]? with
      | none => exact ⟨[], .nothing (by simp [Net.step, hn])⟩
      | some m =>
        cases keep with
        | true =>
          refine ⟨[], .nothing ?_⟩
          simp [Net.step, Net.rightDoes, Net.taken, entryParty, hclosed, hn]
        | false =>
          refine ⟨[.dropRight n], .one (Or.inr rfl) ?_⟩
          simp [Net.step, Net.rightDoes, Net.taken, entryParty, hclosed, hn]
    | false => exact ⟨_, .one (Or.inl rfl) (by simp [Net.step, entryParty, hclosed])⟩
  | dropLeft n => exact ⟨_, .one (Or.inl rfl) rfl⟩
  | dropRight n => exact ⟨_, .one (Or.inl rfl) rfl⟩

/-- Every run of a tap and an entry is a run of a link. -/
theorem exists_linkRun (key : SessionKey) (id : RequestId) (scfg : SenderConfig)
    (rcfg : ReceiverConfig) (start : Instant) (ops : List LinkOp) :
    ∃ ops', (∀ op ∈ ops', op ∈ ops ∨ drops op = true)
      ∧ linkRun key id scfg rcfg start ops' = tapRun key id scfg rcfg start ops := by
  induction ops using List.reverseRecOn with
  | nil => exact ⟨[], (fun _ h => by cases h), rfl⟩
  | append_singleton ops op ih =>
    obtain ⟨ops', hfrom, hrun⟩ := ih
    obtain ⟨more, hmore, hstep⟩ :=
      @exists_matches key id (tapRun key id scfg rcfg start ops).1 op
    refine ⟨ops' ++ more, fun op' hop => ?_, ?_⟩
    · rcases List.mem_append.mp hop with h | h
      · exact (hfrom op' h).imp_left (List.mem_append_left _)
      · exact (hmore op' h).imp_left fun heq => by simp [heq]
    · have hlink : linkRun key id scfg rcfg start (ops' ++ more)
          = Machine.andThen (linkRun key id scfg rcfg start ops') fun s =>
            Net.run (txParty key id) (rxParty key id) s more := Machine.run_append _ _ _ _
      have htap : tapRun key id scfg rcfg start (ops ++ [op])
          = Machine.andThen (tapRun key id scfg rcfg start ops) fun s =>
            Net.step (tapParty key id) (entryParty key id) s op := Machine.run_concat _ _ _ _
      rw [hlink, htap, hrun]
      exact congrArg (fun p => (p.1, (tapRun key id scfg rcfg start ops).2 ++ p.2)) hstep

/-! ## The answer to a request -/

/-- A request for `q`, among others. -/
def AsksFor (key : SessionKey) (q : XferSeq) (m : Sent) : Prop :=
  ∃ seq missing, openBody key .recv m.bytes = some (seq, .nack missing) ∧ q ∈ missing

/-- The frame numbered `q`. -/
def CarriesFrame (key : SessionKey) (q : XferSeq) (bytes : Bytes) : Prop :=
  ∃ ts payload, openBody key .send bytes = some (q, .data ts payload)

/-- How far the answer to a request for `q`, made at `since`, has come. -/
inductive Refill (key : SessionKey) (q : XferSeq) (delay : Duration) (since : Instant)
    (t : LinkTrace) (s : LinkState) : Prop where
  | requested (m : Sent) (inFlight : m ∈ s.toLeft) (asks : AsksFor key q m)
      (sent : m.sentAt ≤ since)
  | answered (m : Sent) (inFlight : m ∈ s.toRight) (carries : CarriesFrame key q m.bytes)
      (sent : m.sentAt ≤ since + delay)
  | arrived (h : (firstArrival (recvCalls t) q.toNat).isSome)
  /-- The stream has ended, or the tap has. -/
  | gone (h : s.right.state.relState = .finished ∨ s.left.state = .done)

/-- What the sink asks for can be sent again. -/
def Answerable (key : SessionKey) (q : XferSeq) (t : LinkTrace) (s : LinkState) : Prop :=
  s.right.state.relState = .streaming → firstArrival (recvCalls t) q.toNat = none →
    ∃ d, s.left.ring.get q = some d ∧ CarriesFrame key q d

section

variable {q : XferSeq} {now since : Instant} {delay : Duration} {t : LinkTrace} {s : LinkState}

/-- A tap that is asked for a frame of its ring sends it again. -/
theorem resend_mem_receive {x : XferSender} {m : Sent} {d : Bytes} (hx : x.state ≠ .done)
    (hm : AsksFor key q m) (hd : x.ring.get q = some d) :
    (⟨now, d⟩ : Sent) ∈ ((tapParty key id).receive x now m).sent := by
  obtain ⟨seq, missing, hopen, hq⟩ := hm
  have hheld : d ∈ x.held missing := List.mem_filterMap.mpr ⟨q, hq, hd⟩
  have hne : (x.held missing).isEmpty = false := by
    cases hl : x.held missing with
    | nil =>
      rw [hl] at hheld
      cases hheld
    | cons => rfl
  have hreact : ((tapParty key id).receive x now m).sent
      = (x.held missing).map (Sent.mk now) := by
    simp only [tapParty]
    rw [if_neg hx]
    simp only [txParty, hopen, XferSender.handle, hne, Bool.false_eq_true, if_false, transmitAll,
      transmit, List.append_nil]
  rw [hreact]
  exact List.mem_map_of_mem hheld

/-- A frame that reaches the sink has arrived. -/
theorem arrived_of_receive {y : Rx} {m : Sent} (hy : y.state.closed = false)
    (hm : CarriesFrame key q m.bytes) (hq : q.toNat ≠ 0) : (firstArrival (recvCalls (t
      ++ ((entryParty key id).receive y now m).events.map .inr)) q.toNat).isSome := by
  obtain ⟨ts, payload, hopen⟩ := hm
  have hreact : ((entryParty key id).receive y now m).events.map RxObs.call
      = [.handle q (.data ts payload) now] := by
    simp only [entryParty]
    rw [if_neg (by simp [hy])]
    simp only [rxParty, hopen]
    rfl
  rw [recvCalls_append, recvCalls_inr, hreact, XferReceiver.isSome_firstArrival]
  refine ⟨hq, ⟨q, ts, payload⟩, XferReceiver.mem_arrivals.mpr ⟨now, ?_⟩, rfl⟩
  exact List.mem_append_right _ (List.mem_singleton_self _)

namespace Refill

theorem left_done {op : LinkOp} (h : s.left.state = .done) :
    (Net.step (tapParty key id) (entryParty key id) s op).1.left.state = .done :=
  Net.left_step (P := fun x : XferSender => x.state = .done) (fun x i hx => by simp [tapParty, hx])
    (fun x now m hx => by simp [tapParty, hx]) h

theorem right_finished {op : LinkOp} (h : s.right.state.relState = .finished) :
    (Net.step (tapParty key id) (entryParty key id) s op).1.right.state.relState = .finished := by
  have hstep : ∀ (y : Rx) now c, y.state.relState = .finished →
      (y.call key id now c).state.state.relState = .finished := by
    intro y now c hy
    have htold : (y.state.told c).relState = .finished := by
      cases c with
      | handle seq body now => cases body <;> exact hy
      | tick now => exact hy
      | setBufferedMs ms => exact hy
    rw [Rx.call_state]
    exact (XferReceiver.step_keeps y.state c).finished htold
  refine Net.right_step (P := fun y : Rx => y.state.relState = .finished) ?_ ?_ h
  · intro y i hy
    simp only [entryParty]
    split
    · exact hy
    · cases i with
      | tick now => exact hstep y now _ hy
      | setBufferedMs ms => exact hstep y 0 _ hy
      | report occupancy => exact hy
  · intro y now m hy
    simp only [entryParty]
    split
    · exact hy
    · simp only [rxParty]
      split
      · exact hy
      · exact hstep y now _ hy

/-- One prompt operation: only the delivery of what is waited for changes
how far the answer has come. -/
theorem step (h : Refill key q delay since t s) (hq : q.toNat ≠ 0)
    (hclosed : s.right.state.closed = true → s.right.state.relState = .finished)
    (hanswer : Answerable key q t s) {op : LinkOp} (hop : PromptOp delay since s op) :
    Refill key q delay since (t ++ (Net.step (tapParty key id) (entryParty key id) s op).2)
      (Net.step (tapParty key id) (entryParty key id) s op).1 := by
  obtain ⟨hdrop, hclock⟩ := hop
  have hkeepsLeft : ∀ n, op ≠ .dropLeft n := by
    rintro n rfl
    cases hdrop
  have hkeepsRight : ∀ n, op ≠ .dropRight n := by
    rintro n rfl
    cases hdrop
  cases h with
  | requested m inFlight asks sent =>
    rcases Net.toLeft_step (L := tapParty key id) (R := entryParty key id) inFlight
      hkeepsLeft with hstay | ⟨n, now, keep, rfl, hn⟩
    · exact .requested m hstay asks sent
    · by_cases hdone : s.left.state = .done
      · exact .gone (Or.inr (left_done hdone))
      · cases hs : s.right.state.relState with
        | finished => exact .gone (Or.inl (right_finished hs))
        | streaming =>
          simp only [Net.step, hn]
          cases ha : firstArrival (recvCalls t) q.toNat with
          | some frame =>
            refine .arrived ?_
            simp [Net.leftDoes, ha]
          | none =>
            -- the request has come within the delay, and the ring has the frame
            obtain ⟨d, hd, hcarries⟩ := hanswer hs ha
            refine .answered ⟨now, d⟩ (List.mem_append_right _
              (resend_mem_receive hdone asks hd)) hcarries ?_
            have hle := (hclock now rfl).2 m (List.mem_append_right _ inFlight)
            rwa [max_eq_right sent] at hle
  | answered m inFlight carries sent =>
    rcases Net.toRight_step (L := tapParty key id) (R := entryParty key id) inFlight
      hkeepsRight with hstay | ⟨n, now, keep, rfl, hn⟩
    · exact .answered m hstay carries sent
    · cases hc : s.right.state.closed with
      | true => exact .gone (Or.inl (right_finished (hclosed hc)))
      | false =>
        refine .arrived ?_
        simp only [Net.step, hn]
        exact arrived_of_receive hc carries hq
  | arrived h =>
    refine .arrived ?_
    rw [recvCalls_append]
    exact XferReceiver.isSome_firstArrival_append h _
  | gone h => exact .gone (h.imp right_finished left_done)

end Refill

end

/-! ## Every run -/

section Run

variable {ops past future : List LinkOp}

theorem recvInv_tap (key : SessionKey) (id : RequestId) (scfg : SenderConfig)
    (rcfg : ReceiverConfig) (start : Instant) (ops : List LinkOp) :
    XferReceiver.RecvInv (recvCalls (tapRun key id scfg rcfg start ops).2)
      (tapRun key id scfg rcfg start ops).1.right.state
      (recvEvents (tapRun key id scfg rcfg start ops).2) :=
  (mutual_run (sourceLike_tapParty key id) (sinkLike_entryParty key id) scfg rcfg start
    ops).holds.recvInv

theorem exact_tap
    (hfew : (pushed (tapRun key id scfg rcfg start ops).2).length < 2 ^ 32 - 1) :
    Exact key id (tapRun key id scfg rcfg start ops).2
      (tapRun key id scfg rcfg start ops).1.left := by
  obtain ⟨ops', -, hrun⟩ := exists_linkRun key id scfg rcfg start ops
  rw [← hrun] at hfew ⊢
  exact (exact_run key id scfg rcfg start ops' hfew).holds

/-- Fewer operations push fewer frames. -/
theorem few_of_append (h : (pushed (tapRun key id scfg rcfg start (past ++ future)).2).length
      < 2 ^ 32 - 1) : (pushed (tapRun key id scfg rcfg start past).2).length < 2 ^ 32 - 1 := by
  have hrun : tapRun key id scfg rcfg start (past ++ future)
      = Machine.andThen (tapRun key id scfg rcfg start past) fun s =>
        Net.run (tapParty key id) (entryParty key id) s future := Machine.run_append _ _ _ _
  rw [hrun, Machine.andThen_snd, pushed_append, List.length_append] at h
  omega

/-- The numbers of the frames pushed leave no gap. -/
theorem Exact.exists_numbered {t : LinkTrace} {x : XferSender} (h : Exact key id t x) {k : Nat}
    (h1 : 1 ≤ k) (hk : k ≤ (pushed t).length) : ∃ frame ∈ pushed t, frame.seq.toNat = k := by
  have hlt : k - 1 < (pushed t).length := by omega
  have hget := List.getElem?_eq_getElem hlt
  refine ⟨_, List.mem_of_getElem? hget, ?_⟩
  rw [h.numbered _ _ hget]
  omega

theorem Exact.seq_le {t : LinkTrace} {x : XferSender} (h : Exact key id t x) {frame : Frame}
    (hf : frame ∈ pushed t) : 1 ≤ frame.seq.toNat ∧ frame.seq.toNat ≤ (pushed t).length := by
  obtain ⟨n, hn⟩ := List.mem_iff_getElem?.mp hf
  obtain ⟨hlt, -⟩ := List.getElem?_eq_some_iff.mp hn
  have hnum := h.numbered n frame hn
  omega

/-- A ring with room for both windows can answer whatever is asked for. -/
theorem answerable_tap (hholds : Holds scfg rcfg.reorderWindow) (htag : key.AddsTag)
    (hfew : (pushed (tapRun key id scfg rcfg start ops).2).length < 2 ^ 32 - 1)
    (hfit : PayloadsFit ops) {frame : Frame}
    (hf : frame ∈ pushed (tapRun key id scfg rcfg start ops).2) :
    Answerable key frame.seq (tapRun key id scfg rcfg start ops).2
      (tapRun key id scfg rcfg start ops).1 := by
  intro hs hnone
  have hinv := recvInv_tap key id scfg rcfg start ops
  obtain ⟨ops', hfrom, hrun⟩ := exists_linkRun key id scfg rcfg start ops
  rw [← hrun] at hfew hf hs hnone hinv ⊢
  have hfit' : PayloadsFit ops' := by
    intro ts payload now hop
    rcases hfrom _ hop with h | h
    · exact hfit ts payload now h
    · cases h
  have hret := retained_of_streaming hholds htag hfew hfit' hs
  have hnot : frame.seq.toNat ∉ (linkRun key id scfg rcfg start ops').1.right.state.gaps.seen := by
    intro hseen
    have hsome := hinv.seen _ hseen
    rw [hnone] at hsome
    cases hsome
  obtain ⟨d, hd, hseal⟩ := held_of_retained hfew hret frame hf hnot
  exact ⟨d, hd, frame.ts, frame.payload, openBody_sealBody hseal rfl⟩

/-- What a prompt network brings about for one number asked for. -/
theorem Refill.run {q : XferSeq} {delay : Duration} {since until' : Instant}
    (hholds : Holds scfg rcfg.reorderWindow) (htag : key.AddsTag)
    (h : Refill key q delay since (tapRun key id scfg rcfg start past).2
      (tapRun key id scfg rcfg start past).1) (hq : q.toNat ≠ 0)
    (hpushed : ∃ frame ∈ pushed (tapRun key id scfg rcfg start past).2, frame.seq = q)
    (hfew : (pushed (tapRun key id scfg rcfg start (past ++ future)).2).length < 2 ^ 32 - 1)
    (hfit : PayloadsFit (past ++ future))
    (hp : Prompt key id delay since until' (tapRun key id scfg rcfg start past).1 future) :
    Refill key q delay since (tapRun key id scfg rcfg start (past ++ future)).2
        (tapRun key id scfg rcfg start (past ++ future)).1
      ∧ InTime delay since until' (tapRun key id scfg rcfg start (past ++ future)).1 := by
  induction future generalizing past with
  | nil =>
    rw [List.append_nil]
    exact ⟨h, hp⟩
  | cons op ops ih =>
    have hfst : (tapRun key id scfg rcfg start (past ++ [op])).1
        = (Net.step (tapParty key id) (entryParty key id) (tapRun key id scfg rcfg start past).1
          op).1 := Net.run_concat_fst past op
    have hsnd : (tapRun key id scfg rcfg start (past ++ [op])).2
        = (tapRun key id scfg rcfg start past).2
          ++ (Net.step (tapParty key id) (entryParty key id) (tapRun key id scfg rcfg start past).1
            op).2 := Net.run_concat_snd past op
    obtain ⟨frame, hf, rfl⟩ := hpushed
    have hclosed : (tapRun key id scfg rcfg start past).1.right.state.closed = true →
        (tapRun key id scfg rcfg start past).1.right.state.relState = .finished := by
      intro hc
      cases hs : (tapRun key id scfg rcfg start past).1.right.state.relState with
      | finished => rfl
      | streaming =>
        rw [((recvInv_tap key id scfg rcfg start past).live hs).not_closed] at hc
        cases hc
    have hanswer := answerable_tap hholds htag (few_of_append hfew)
      (fun ts payload now hop => hfit ts payload now (List.mem_append_left _ hop)) hf
    rw [← List.singleton_append, ← List.append_assoc] at hfew hfit ⊢
    refine ih ?_ ?_ hfew hfit ?_
    · rw [hfst, hsnd]
      exact h.step hq hclosed hanswer hp.1
    · rw [hsnd, pushed_append]
      exact ⟨frame, List.mem_append_left _ hf, rfl⟩
    · rw [hfst]
      exact hp.2

/-- What a tick asks for is a frame pushed, and the request is in flight. -/
theorem refill_of_asked {now : Instant} {q : XferSeq} (delay : Duration)
    (hfew : (pushed (tapRun key id scfg rcfg start past).2).length < 2 ^ 32 - 1)
    (hq : q ∈ XferReceiver.asked
      ((tapRun key id scfg rcfg start past).1.right.state.tick now).2) :
    q.toNat ≠ 0 ∧ (∃ frame ∈ pushed (tapRun key id scfg rcfg start past).2, frame.seq = q)
      ∧ Refill key q delay now
        (tapRun key id scfg rcfg start (past ++ [.right (.tick now)])).2
        (tapRun key id scfg rcfg start (past ++ [.right (.tick now)])).1 := by
  have hinv := recvInv_tap key id scfg rcfg start past
  have hmutual := (mutual_run (sourceLike_tapParty key id) (sinkLike_entryParty key id) scfg rcfg
    start past).holds
  have hexact := exact_tap hfew
  have hfst : (tapRun key id scfg rcfg start (past ++ [.right (.tick now)])).1
      = (Net.step (tapParty key id) (entryParty key id) (tapRun key id scfg rcfg start past).1
        (.right (.tick now))).1 := Net.run_concat_fst past _
  obtain ⟨hs, hcons, -⟩ := @XferReceiver.RecvInv.of_asked _ _ _ (.tick now) _ hinv hq
  obtain ⟨missing, hnack, hmem⟩ := XferReceiver.exists_nack_of_asked hq
  rw [hinv.considered_eq hs] at hcons
  obtain ⟨h1, hle, -⟩ := XferReceiver.mem_absent.mp (List.mem_of_mem_take hcons)
  refine ⟨Nat.ne_of_gt h1, ?_, ?_⟩
  · -- a number below an arrival is the number of a frame
    have htop : q.toNat ≤ (pushed (tapRun key id scfg rcfg start past).2).length := by
      rcases hmutual.highest_upTo with h0 | ⟨frame, hf, hup⟩
      · exact absurd (h1.trans (hle.trans h0.le)) (by decide)
      · exact hle.trans (hup.trans (hexact.seq_le hf).2)
    obtain ⟨frame, hf, hseq⟩ := hexact.exists_numbered h1 htop
    refine ⟨frame, hf, ?_⟩
    rw [← XferSeq.ofNat_toNat frame.seq, hseq, XferSeq.ofNat_toNat]
  · -- the tick seals the request and sends it
    have hlen := XferReceiver.sendNack_of_mem_step (c := .tick now) hinv.wf hnack
    obtain ⟨plaintext, henc⟩ : ∃ plaintext, encodeBody (.nack missing) = .ok plaintext :=
      ⟨_, if_neg (not_lt.mpr hlen)⟩
    rw [hfst]
    generalize tapRun key id scfg rcfg start past = w at *
    obtain ⟨m, hm, hat, seq, hseal⟩ := @Rx.exists_mem_reply key id now
      { w.1.right with state := (w.1.right.state.step (.tick now)).1 } _ _ _ _ hnack rfl henc
    refine .requested m ?_ ⟨⟨seq⟩, missing, openBody_sealBody hseal rfl, hmem⟩ hat.le
    simp only [Net.step, entryParty]
    rw [if_neg (by simp [(hinv.live hs).not_closed])]
    exact List.mem_append_right _ hm

/-- What has been handed up so far. -/
theorem reliables_tap (hfew : (pushed (tapRun key id scfg rcfg start ops).2).length < 2 ^ 32 - 1) :
    reliables (recvEvents (tapRun key id scfg rcfg start ops).2)
      = (pushed (tapRun key id scfg rcfg start ops).2).take
        (tapRun key id scfg rcfg start ops).1.right.state.relReleased := by
  have hx := exact_tap hfew
  have hr := recvInv_tap key id scfg rcfg start ops
  generalize tapRun key id scfg rcfg start ops = w at hx hr
  rw [hr.out, ← filterMap_range_getElem?]
  apply List.filterMap_congr
  intro k hk
  obtain ⟨h1, h2⟩ := List.mem_range'_1.mp hk
  have hle : k ≤ w.1.right.state.relReleased := by omega
  exact hx.firstArrival (hr.seen k (GapTracker.filled_seen _ k h1 (hle.trans hr.released_le)))

/-- A stream that has ended well has handed up every frame. -/
theorem released_of_complete {f : XferSeq}
    (hfew : (pushed (tapRun key id scfg rcfg start ops).2).length < 2 ^ 32 - 1)
    (hc : .relFinished (.complete f) ∈ recvEvents (tapRun key id scfg rcfg start ops).2) :
    (pushed (tapRun key id scfg rcfg start ops).2).length
      ≤ (tapRun key id scfg rcfg start ops).1.right.state.relReleased := by
  obtain ⟨⟨seq, now, hend⟩, hle⟩ := (recvInv_tap key id scfg rcfg start ops).complete f hc
  obtain ⟨-, hf, -⟩ := (exact_tap hfew).handled seq (.end f) now hend
  omega

/-- And every frame has arrived. -/
theorem arrived_of_complete {f : XferSeq}
    (hfew : (pushed (tapRun key id scfg rcfg start ops).2).length < 2 ^ 32 - 1)
    (hc : .relFinished (.complete f) ∈ recvEvents (tapRun key id scfg rcfg start ops).2)
    {frame : Frame} (hf : frame ∈ pushed (tapRun key id scfg rcfg start ops).2) :
    (firstArrival (recvCalls (tapRun key id scfg rcfg start ops).2) frame.seq.toNat).isSome := by
  have hinv := recvInv_tap key id scfg rcfg start ops
  obtain ⟨h1, hle⟩ := (exact_tap hfew).seq_le hf
  have hall := released_of_complete hfew hc
  exact hinv.seen _ (GapTracker.filled_seen _ _ h1 ((hle.trans hall).trans hinv.released_le))

/-- A stream that has neither ended badly nor streams any more, or whose tap
is done without having failed, has ended well. -/
theorem complete_of_gone
    (haborted : ∀ reason, .relFinished (.aborted reason)
      ∉ recvEvents (tapRun key id scfg rcfg start ops).2)
    (hfailed : ∀ reason, .event (.failed reason)
      ∉ Net.lefts (tapRun key id scfg rcfg start ops).2)
    (h : (tapRun key id scfg rcfg start ops).1.right.state.relState = .finished
      ∨ (tapRun key id scfg rcfg start ops).1.left.state = .done) :
    ∃ f, .relFinished (.complete f) ∈ recvEvents (tapRun key id scfg rcfg start ops).2 := by
  have hmutual := (mutual_run (sourceLike_tapParty key id) (sinkLike_entryParty key id) scfg rcfg
    start ops).holds
  refine (recvInv_tap key id scfg rcfg start ops).complete_of_finished ?_ haborted
  rcases h with h | h
  · exact h
  · rcases hmutual.done h with hdone | ⟨reason, hfail⟩
    · exact hmutual.finished_of_acked (hmutual.completed hdone)
    · exact absurd hfail (hfailed reason)

/-- What has arrived without a gap has been handed up, unless the stream was
aborted. -/
theorem take_prefix_reliables {n : Nat}
    (hfew : (pushed (tapRun key id scfg rcfg start ops).2).length < 2 ^ 32 - 1)
    (haborted : ∀ reason, .relFinished (.aborted reason)
      ∉ recvEvents (tapRun key id scfg rcfg start ops).2)
    (hfilled : ∀ k, 1 ≤ k → k ≤ n →
      (firstArrival (recvCalls (tapRun key id scfg rcfg start ops).2) k).isSome) :
    (pushed (tapRun key id scfg rcfg start ops).2).take n
      <+: reliables (recvEvents (tapRun key id scfg rcfg start ops).2) := by
  have hinv := recvInv_tap key id scfg rcfg start ops
  rw [reliables_tap hfew]
  cases hs : (tapRun key id scfg rcfg start ops).1.right.state.relState with
  | streaming =>
    have hle : n ≤ (tapRun key id scfg rcfg start ops).1.right.state.relReleased := by
      rw [(hinv.live hs).caught_up]
      exact hinv.contiguous_ge hs hfilled
    exact List.take_prefix_take_left hle
  | finished =>
    obtain ⟨f, hf⟩ := hinv.complete_of_finished hs haborted
    rw [List.take_of_length_le (released_of_complete hfew hf)]
    exact List.take_prefix _ _

/-- After two delays no answer is under way any more. -/
theorem not_under_way {now until' : Int} {delay : Nat} (hlate : now + 2 * delay < until')
    (hle : until' ≤ now + delay + delay) : False := by
  omega

/-- So by then the answer has come, unless an end is gone. -/
theorem Refill.done {q : XferSeq} {delay : Duration} {since until' : Instant} {t : LinkTrace}
    {s : LinkState} (h : Refill key q delay since t s) (hin : InTime delay since until' s)
    (hlate : since + 2 * delay < until') :
    (firstArrival (recvCalls t) q.toNat).isSome
      ∨ s.right.state.relState = .finished ∨ s.left.state = .done := by
  have hdelay : since ≤ since + (delay : Int) :=
    Int.le_add_of_nonneg_right (Int.natCast_nonneg delay)
  cases h with
  | requested m inFlight asks sent =>
    have hle := hin m (List.mem_append_right _ inFlight)
    rw [max_eq_right sent] at hle
    exact (not_under_way hlate (hle.trans (Int.add_le_add_right hdelay _))).elim
  | answered m inFlight carries sent =>
    have hle := hin m (List.mem_append_left _ inFlight)
    exact (not_under_way hlate (hle.trans (Int.add_le_add_right (max_le sent hdelay) _))).elim
  | arrived h => exact Or.inl h
  | gone h => exact Or.inr h

/-- **What is asked for arrives in a round trip.** The ring has room for
both windows, the sink's tick asks for what it misses, and from then on the
network delivers everything within `delay`, in whatever order and whatever
else it carries. Then two delays later, unless the stream was aborted or
the tap has failed, every frame asked for has arrived; and up to whatever
number every frame had arrived or was asked for, the stream has been handed
up in order. -/
theorem asked_arrives_promptly (hholds : Holds scfg rcfg.reorderWindow) (htag : key.AddsTag)
    (past future : List LinkOp) (now until' : Instant) (delay : Duration)
    (hfew : (pushed (tapRun key id scfg rcfg start
      (past ++ .right (.tick now) :: future)).2).length < 2 ^ 32 - 1)
    (hfit : PayloadsFit (past ++ .right (.tick now) :: future))
    (hprompt : Prompt key id delay now until'
      (tapRun key id scfg rcfg start (past ++ [.right (.tick now)])).1 future)
    (hlate : now + 2 * delay < until') :
    let w := tapRun key id scfg rcfg start past
    let w' := tapRun key id scfg rcfg start (past ++ .right (.tick now) :: future)
    let ask := XferReceiver.asked (w.1.right.state.tick now).2
    (∃ reason, .relFinished (.aborted reason) ∈ recvEvents w'.2)
      ∨ (∃ reason, .event (.failed reason) ∈ Net.lefts w'.2)
      ∨ (∀ q ∈ ask, (firstArrival (recvCalls w'.2) q.toNat).isSome)
        ∧ ∀ n, (∀ k, 1 ≤ k → k ≤ n →
            (firstArrival (recvCalls w.2) k).isSome ∨ ∃ q ∈ ask, q.toNat = k) →
          (pushed w'.2).take n <+: reliables (recvEvents w'.2) := by
  intro w w' ask
  by_cases haborted : ∃ reason, .relFinished (.aborted reason) ∈ recvEvents w'.2
  · exact Or.inl haborted
  by_cases hfailed : ∃ reason, .event (.failed reason) ∈ Net.lefts w'.2
  · exact Or.inr (Or.inl hfailed)
  refine Or.inr (Or.inr ?_)
  simp only [not_exists] at haborted hfailed
  have hlater : w'.2 = w.2 ++ (Net.run (tapParty key id) (entryParty key id) w.1
      (.right (.tick now) :: future)).2 := by
    have hrun : w' = Machine.andThen w fun s =>
        Net.run (tapParty key id) (entryParty key id) s (.right (.tick now) :: future) :=
      Machine.run_append _ _ _ _
    rw [hrun, Machine.andThen_snd]
  have hasked : ∀ q ∈ ask, (firstArrival (recvCalls w'.2) q.toNat).isSome := by
    intro q hq
    have hsplit : past ++ .right (.tick now) :: future
        = (past ++ [.right (.tick now)]) ++ future := by simp
    obtain ⟨hne, ⟨frame, hf, rfl⟩, hrefill⟩ := refill_of_asked delay (few_of_append hfew) hq
    have hmem : frame ∈ pushed
        (tapRun key id scfg rcfg start (past ++ [.right (.tick now)])).2 := by
      have hsnd : (tapRun key id scfg rcfg start (past ++ [.right (.tick now)])).2
          = w.2 ++ (Net.step (tapParty key id) (entryParty key id) w.1 (.right (.tick now))).2 :=
        Net.run_concat_snd past _
      rw [hsnd, pushed_append]
      exact List.mem_append_left _ hf
    have hrun := hrefill.run hholds htag hne ⟨frame, hmem, rfl⟩ (hsplit ▸ hfew) (hsplit ▸ hfit)
      hprompt
    rw [← hsplit] at hrun
    obtain ⟨hend, hin⟩ := hrun
    rcases hend.done hin hlate with h | h
    · exact h
    · obtain ⟨f, hf'⟩ := complete_of_gone haborted hfailed h
      have hpushed : frame ∈ pushed w'.2 := by
        rw [hlater, pushed_append]
        exact List.mem_append_left _ hf
      exact arrived_of_complete hfew hf' hpushed
  refine ⟨hasked, fun n hn => ?_⟩
  -- what had arrived is still there, and what was asked for has come
  have hfilled : ∀ k, 1 ≤ k → k ≤ n → (firstArrival (recvCalls w'.2) k).isSome := by
    intro k h1 hk
    rcases hn k h1 hk with harr | ⟨q, hq, rfl⟩
    · rw [hlater, recvCalls_append]
      exact XferReceiver.isSome_firstArrival_append harr _
    · exact hasked q hq
  exact take_prefix_reliables hfew haborted hfilled

/-- The request for the lost frame, and its answer, take twenty milliseconds
each. -/
def answeredOps : List LinkOp :=
  [.deliverLeft 0 (fromMillis 120) false, .deliverRight 0 (fromMillis 140) false]

theorem asked_arrives_promptly_lost_first :
    let w' := tapRun plainKey zeroId twoWindows narrowWindow 0
      (firstLostOps ++ .right (.tick (fromMillis 100)) :: answeredOps)
    (pushed w'.2).take 2 <+: reliables (recvEvents w'.2) := by
  intro w'
  have hfit : PayloadsFit (firstLostOps ++ .right (.tick (fromMillis 100)) :: answeredOps) := by
    intro ts payload now h
    simp only [firstLostOps, answeredOps, List.cons_append, List.nil_append, List.mem_cons,
      Net.Op.left.injEq, TxAct.pushFrame.injEq, List.not_mem_nil, reduceCtorEq, or_false] at h
    rcases h with ⟨_, rfl, _⟩ | ⟨_, rfl, _⟩ <;> decide
  have hsound : ∀ e ∈ recvEvents w'.2, e.aborts = false := by decide +kernel
  have hgoing : ∀ o ∈ Net.lefts w'.2, o.fails = false := by decide +kernel
  rcases @asked_arrives_promptly plainKey zeroId twoWindows narrowWindow 0 (by decide)
    plainKey_addsTag firstLostOps answeredOps (fromMillis 100) (fromMillis 250) (fromMillis 50)
    (by decide +kernel) hfit (by decide +kernel) (by decide) with
    ⟨reason, h⟩ | ⟨reason, h⟩ | ⟨-, h⟩
  · cases hsound _ h
  · cases hgoing _ h
  · refine h 2 fun k h1 hk => ?_
    interval_cases k
    · exact Or.inr ⟨.ofNat 1, by decide +kernel, by decide⟩
    · exact Or.inl (by decide +kernel)

end Run

end Protofish4
