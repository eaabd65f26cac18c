import Protofish4.Xfer.Commit
import Protofish4.Xfer.Exhaustion
import Protofish4.Xfer.Finishing
import Protofish4.Xfer.Silence

/-!
# Completeness in any order

A receiver is handed the frames of a transfer and the announcement of its
end, in any order and any number of times. If its limits leave room for the
whole transfer it streams until the last packet is in, and completes in
that very call.
-/

namespace Protofish4

namespace XferReceiver

variable {r : XferReceiver} {now : Instant}

/-! ## Acknowledging closes -/

theorem closed_of_sendEndAck_ackEnd {f : XferSeq} (h : .sendEndAck ∈ (r.ackEnd f).2) :
    (r.ackEnd f).1.closed = true := by
  obtain ⟨ha, hc⟩ := sendEndAck_mem_ackEnd.mp h
  have hcomp : r.gaps.isComplete f = true := decide_eq_true hc
  unfold ackEnd Machine.andThen
  cases r.closed <;> simp [ha, hcomp]

theorem closed_of_sendEndAck_checkFinish (h : .sendEndAck ∈ (r.checkFinish now).2) :
    (r.checkFinish now).1.closed = true := by
  unfold checkFinish at h ⊢
  split at h
  · cases h
  · rcases Machine.mem_andThen.mp h with h | h
    · rcases (completeRel_events h).2.2 with ⟨_, he⟩ | he <;> cases he
    · exact closed_of_sendEndAck_ackEnd h

theorem closed_of_sendEndAck_onBody {seq : XferSeq} {body : Body}
    (h : .sendEndAck ∈ (r.onBody seq body now).2) : (r.onBody seq body now).1.closed = true := by
  cases body with
  | data ts payload =>
    have hnote : .sendEndAck ∉ (r.noteArrival ⟨seq, ts, payload⟩).2 :=
      fun hm => by cases (noteArrival_events hm).1
    change .sendEndAck ∈ (r.onData ⟨seq, ts, payload⟩ now).2 at h
    change (r.onData ⟨seq, ts, payload⟩ now).1.closed = true
    by_cases hf : r.relState = .streaming
        ∧ (r.gaps.record (⟨seq, ts, payload⟩ : Frame).seq).2 = true
    · rw [onData_fresh hf.1 hf.2] at h ⊢
      rcases Machine.mem_andThen.mp h with h | h
      · exact absurd h hnote
      · obtain ⟨hfits, hm⟩ := (mem_storeFrame (Or.inl rfl)).mp h
        rw [Machine.andThen_fst, storeFrame_fits hfits]
        exact closed_of_sendEndAck_checkFinish hm
    · rw [onData_stale ((not_and_or.mp hf).imp_right (by simp))] at h
      exact absurd h hnote
  | «end» f => exact closed_of_sendEndAck_checkFinish h
  | keepalive l =>
    rcases Machine.mem_andThen.mp h with h | h
    · cases (noteLost_events h).1
    · exact closed_of_sendEndAck_checkFinish h
  | ack | nack | endAck => cases h

/-- The call that acknowledges the end leaves the receiver closed. -/
theorem closed_of_sendEndAck {seq : XferSeq} {body : Body}
    (h : .sendEndAck ∈ (r.handle seq body now).2) : (r.handle seq body now).1.closed = true := by
  rcases Machine.mem_andThen.mp h with h | h
  · rw [handle, Machine.andThen_fst, maybeAck_state]
    exact closed_of_sendEndAck_onBody h
  · cases (maybeAck_events h).1

/-! ## A transfer -/

/-- What a transfer carries under each number. -/
abbrev Contents := Nat → TimestampMs × Bytes

def frameOf (content : Contents) (s : Nat) : Frame := ⟨.ofNat s, (content s).1, (content s).2⟩

/-- The call hands over a packet of the transfer: one of the frames `1..f`,
or the announcement of `f`. -/
def IsPacket (content : Contents) (f : XferSeq) : RecvCall → Prop
  | .handle seq (.data ts payload) _ =>
    1 ≤ seq.toNat ∧ seq.toNat ≤ f.toNat ∧ content seq.toNat = (ts, payload)
  | .handle _ (.end g) _ => g = f
  | _ => False

/-- The calls hand over packets of the transfer and nothing else. -/
def Packets (content : Contents) (f : XferSeq) (calls : List RecvCall) : Prop :=
  ∀ c ∈ calls, IsPacket content f c

/-- The limits leave room for the whole transfer. -/
structure Roomy (cfg : ReceiverConfig) (content : Contents) (f : XferSeq) : Prop where
  window : f.toNat ≤ cfg.reorderWindow
  bytes : ((List.range' 1 f.toNat).map fun s => (content s).2.length).sum ≤ cfg.maxReorderBytes

section Transfer

variable {cfg : ReceiverConfig} {start : Instant} {content : Contents} {f : XferSeq}
  {calls before : List RecvCall} {c : RecvCall}

/-- A packet of the transfer is one of its frames, or its end. -/
theorem IsPacket.cases (h : IsPacket content f c) :
    (∃ seq ts payload now, c = .handle seq (.data ts payload) now ∧ 1 ≤ seq.toNat
      ∧ seq.toNat ≤ f.toNat ∧ content seq.toNat = (ts, payload))
      ∨ ∃ seq now, c = .handle seq (.end f) now := by
  cases c with
  | tick now => exact h.elim
  | setBufferedMs ms => exact h.elim
  | handle seq body now =>
    cases body with
    | data ts payload => exact Or.inl ⟨seq, ts, payload, now, rfl, h⟩
    | «end» g =>
      obtain rfl : g = f := h
      exact Or.inr ⟨seq, now, rfl⟩
    | ack | nack | keepalive | endAck => exact h.elim

theorem IsPacket.arrival {frame : Frame} (h : IsPacket content f c)
    (ha : XferReceiver.arrival c = some frame) : 1 ≤ frame.seq.toNat ∧ frame.seq.toNat ≤ f.toNat
      ∧ frame = frameOf content frame.seq.toNat := by
  rcases h.cases with ⟨seq, ts, payload, now, rfl, h1, hle, hcont⟩ | ⟨seq, now, rfl⟩
  · cases ha
    refine ⟨h1, hle, ?_⟩
    simp only [frameOf, XferSeq.ofNat_toNat, hcont]
  · cases ha

theorem Packets.init (h : Packets content f (before ++ [c])) : Packets content f before :=
  fun _ hc => h _ (List.mem_append_left _ hc)

theorem Packets.last (h : Packets content f (before ++ [c])) : IsPacket content f c :=
  h c (List.mem_append_right _ (List.mem_singleton_self _))

theorem frames_of_packets (h : Packets content f calls) {frame : Frame}
    (hf : frame ∈ arrivals calls) : 1 ≤ frame.seq.toNat ∧ frame.seq.toNat ≤ f.toNat
      ∧ frame = frameOf content frame.seq.toNat := by
  obtain ⟨c, hc, ha⟩ := List.mem_filterMap.mp hf
  exact (h c hc).arrival ha

theorem ends_of_packets (h : Packets content f calls) {g : XferSeq}
    (hg : EndDeclared calls g) : g = f := by
  obtain ⟨_, _, hc⟩ := hg
  exact h _ hc

theorem highest_le_of_packets (h : Packets content f calls) :
    (run cfg start calls).1.gaps.highest ≤ f.toNat := by
  rcases (recvInv_run cfg start calls).highest_mem with h0 | hsome
  · exact h0 ▸ Nat.zero_le _
  · obtain ⟨-, frame, hf, hseq⟩ := isSome_firstArrival.mp hsome
    exact hseq ▸ (frames_of_packets h hf).2.1

/-- No more can have to be held than the transfer weighs. -/
theorem payloadBytes_above_le_total (h : Packets content f calls) (k : Nat) :
    payloadBytes (above calls k)
      ≤ ((List.range' 1 f.toNat).map fun s => (content s).2.length).sum := by
  have hhigh : highestArrival calls ≤ f.toNat := by
    rw [← highest_run .audioEngine 0 calls]
    exact highest_le_of_packets h
  -- the history and the transfer, number by number
  have hpoint : ∀ l : List Nat, payloadBytes (l.filterMap (firstArrival calls))
      ≤ (l.map fun s => (content s).2.length).sum := by
    intro l
    induction l with
    | nil => exact Nat.le_refl 0
    | cons s l ih =>
      cases hs : firstArrival calls s with
      | none =>
        rw [List.filterMap_cons_none hs, List.map_cons, List.sum_cons]
        exact ih.trans (Nat.le_add_left _ _)
      | some frame =>
        obtain ⟨hmem, hseq, -⟩ := firstArrival_eq_some hs
        have heq := (frames_of_packets h hmem).2.2
        have hlen : frame.payload.length = (content s).2.length := by
          rw [heq, hseq]
          rfl
        rw [List.filterMap_cons_some hs, List.map_cons, List.sum_cons]
        show frame.payload.length + payloadBytes _ ≤ _
        rw [hlen]
        exact Nat.add_le_add_left ih _
  refine (hpoint _).trans (List.Sublist.sum_le_sum (List.Sublist.map _ ?_) fun _ _ => Nat.zero_le _)
  rcases Nat.le_total k (highestArrival calls) with hle | hle
  · have hlen : f.toNat = k + (highestArrival calls - k) + (f.toNat - highestArrival calls) := by
      omega
    rw [hlen, ← List.range'_append_1, ← List.range'_append_1, Nat.add_comm 1 k]
    exact (List.sublist_append_right _ _).trans (List.sublist_append_left _ _)
  · rw [Nat.sub_eq_zero_of_le hle]
    exact List.nil_sublist _

/-- A receiver with room for the transfer never overflows in it. -/
theorem Roomy.fits (hroom : Roomy cfg content f) {seq : XferSeq} {ts : TimestampMs}
    {payload : Bytes} (h : Packets content f (before ++ [.handle seq (.data ts payload) now]))
    (hs : (run cfg start before).1.relState = .streaming)
    (hnew : ((run cfg start before).1.gaps.record seq).2 = true) :
    ¬ ((run cfg start before).1.noteArrival ⟨seq, ts, payload⟩).1.Overflows ⟨seq, ts, payload⟩ := by
  have hinv := recvInv_run cfg start before
  have hcfg := run_cfg cfg start before
  obtain ⟨h0, hnone⟩ := ((hinv.live hs).fresh_iff seq).mp hnew
  have hj := @judged before cfg start seq ts payload now hs h0 hnone
  have hpack := h.last
  have hhigh : (run cfg start before).1.gaps.highest ≤ f.toNat :=
    highest_le_of_packets h.init
  generalize (run cfg start before).1 = r at hs hinv hcfg hj hhigh
  unfold Overflows
  push Not
  constructor
  · -- the span is at most the highest number of the transfer
    have hafter : (r.gaps.record seq).1.highest ≤ f.toNat := by
      rw [GapTracker.highest_record hinv.wf]
      exact Nat.max_le.mpr ⟨hhigh, hpack.2.1⟩
    show (r.gaps.record seq).1.windowSpan ≤ r.cfg.reorderWindow
    rw [hcfg]
    exact ((Nat.sub_le _ _).trans hafter).trans hroom.window
  · show r.reorderBytes + payload.length ≤ r.cfg.maxReorderBytes
    rw [hj.crowded, hcfg]
    exact (payloadBytes_above_le_total h _).trans hroom.bytes

/-- The outcome of a call on a packet of the transfer. -/
theorem Roomy.outcome (hroom : Roomy cfg content f)
    (h : Packets content f (before ++ [c]))
    (hs : (run cfg start before).1.relState = .streaming) {o : RelOutcome}
    (ho : .relFinished o ∈ ((run cfg start before).1.step c).2) : ∃ g, o = .complete g := by
  rcases h.last.cases with ⟨seq, ts, payload, now, rfl, -⟩ | ⟨seq, now, rfl⟩
  · by_cases ho' : o = .aborted .bufferExhausted
    · subst ho'
      obtain ⟨-, hnew, hover⟩ := exhausted_mem_handle_iff.mp ho
      exact absurd hover (hroom.fits h hs hnew)
    · rcases Machine.mem_andThen.mp ho with hm | hm
      · rcases onData_events hm with he | he | ⟨_, he⟩ | ⟨g, -, he⟩ | he | he
        · cases he
        · exact absurd (RecvEvent.relFinished.inj he) ho'
        · cases he
        · exact ⟨g, RecvEvent.relFinished.inj he⟩
        · cases he
        · cases he
      · cases (maybeAck_events hm).1
  · rcases Machine.mem_andThen.mp ho with hm | hm
    · rcases checkFinish_events hm with ⟨_, he⟩ | ⟨g, -, he⟩ | he | he
      · cases he
      · exact ⟨g, RecvEvent.relFinished.inj he⟩
      · cases he
      · cases he
    · cases (maybeAck_events hm).1

/-- The stream is going on until the transfer has landed. -/
theorem Roomy.streaming (hroom : Roomy cfg content f) (h : Packets content f calls)
    (hnot : ¬ Landed calls f) : (run cfg start calls).1.relState = .streaming := by
  induction calls using List.reverseRecOn with
  | nil => rfl
  | append_singleton calls c ih =>
    have hbefore : ¬ Landed calls f := by
      rintro ⟨hdecl, harr⟩
      exact hnot ⟨hdecl.append [c], fun s h1 hs =>
        exists_arrival_concat.mpr (Or.inl (harr s h1 hs))⟩
    have hs := ih h.init hbefore
    have hends := step_ends (run cfg start calls).1 c
    rw [run_concat, Machine.andThen_fst]
    rw [hs] at hends
    generalize hs' : ((run cfg start calls).1.step c).1.relState = s' at hends
    generalize hout : ((run cfg start calls).1.step c).2 = out at hends
    cases hends with
    | going _ => rfl
    | ending o _ _ =>
      -- the stream ends as complete, and then the transfer has landed
      have hmem : .relFinished o ∈ ((run cfg start calls).1.step c).2 := by simp [hout]
      obtain ⟨g, rfl⟩ := hroom.outcome h hs hmem
      obtain ⟨-, -, hforce, harr⟩ := complete_mem_iff.mp hmem
      have hdecl := endDeclared_of_lastEnd hforce
      cases ends_of_packets h hdecl
      exact absurd ⟨hdecl, harr⟩ hnot

/-- The call by which a transfer lands finds a receiver that can finish. -/
theorem Roomy.checks (hroom : Roomy cfg content f)
    (h : Packets content f (before ++ [c])) (hl : Landing before c f) :
    (run cfg start before).1.Checks c := by
  have hs : (run cfg start before).1.relState = .streaming := hroom.streaming h.init hl.2
  have hlive := (recvInv_run cfg start before).live hs
  rcases h.last.cases with ⟨seq, ts, payload, now, rfl, hone, -⟩ | ⟨seq, now, rfl⟩
  · have hnew : ((run cfg start before).1.gaps.record seq).2 = true := by
      rw [hlive.fresh_iff]
      refine ⟨Nat.one_le_iff_ne_zero.mp hone, ?_⟩
      by_contra hsome
      -- a repetition does not make the transfer land
      obtain ⟨-, first, hfirst, hseq⟩ :=
        isSome_firstArrival.mp (Option.isSome_iff_ne_none.mpr hsome)
      refine hl.2 ⟨?_, fun s h1 hle => ?_⟩
      · obtain ⟨seq', now', hm⟩ := hl.1.1
        rcases List.mem_append.mp hm with hm | hm
        · exact ⟨seq', now', hm⟩
        · cases List.mem_singleton.mp hm
      · rcases exists_arrival_concat.mp (hl.1.2 s h1 hle) with hold | ⟨frame, ha, hfs⟩
        · exact hold
        · cases ha
          exact ⟨first, hfirst, hseq.trans hfs⟩
    exact ⟨hs, hnew, hroom.fits h hs hnew⟩
  · trivial

/-- All three are out with the call by which the transfer lands. -/
theorem Roomy.lands (hroom : Roomy cfg content f) (h : Packets content f (before ++ [c]))
    (hl : Landing before c f) : .relFinished (.complete f) ∈ ((run cfg start before).1.step c).2
      ∧ .sendEndAck ∈ ((run cfg start before).1.step c).2
      ∧ .closed ∈ ((run cfg start before).1.step c).2 := by
  have hs : (run cfg start before).1.relState = .streaming := hroom.streaming h.init hl.2
  have hlive := (recvInv_run cfg start before).live hs
  have hforce : lastEnd (before ++ [c]) = some f := by
    obtain ⟨g, hg⟩ := Option.isSome_iff_exists.mp (isSome_lastEnd hl.1.1)
    rw [hg, ends_of_packets h (endDeclared_of_lastEnd hg)]
  have hcomplete : .relFinished (.complete f) ∈ ((run cfg start before).1.step c).2 :=
    complete_mem_iff.mpr ⟨hs, hroom.checks h hl, hforce, hl.1.2⟩
  have hack := sendEndAck_of_complete (fun _ => hlive.unfinished) (fun _ => hlive.not_acked)
    hcomplete
  refine ⟨hcomplete, hack, ?_⟩
  -- the call leaves the receiver closed, and it found it open
  have hclosed : (run cfg start (before ++ [c])).1.closed = true := by
    rw [run_concat]
    rcases h.last.cases with ⟨seq, ts, payload, now, rfl, -⟩ | ⟨seq, now, rfl⟩ <;>
      exact closed_of_sendEndAck hack
  have hrun := (closed_mem_iff cfg start (before ++ [c])).mpr hclosed
  rw [run_concat] at hrun
  refine (Machine.mem_andThen.mp hrun).resolve_left fun hm => ?_
  rw [closed_mem_iff, hlive.not_closed] at hm
  cases hm

/-- A transfer that has landed has done so by one of its calls. -/
theorem exists_landing (h : Landed calls f) :
    ∃ before c rest, calls = before ++ c :: rest ∧ Landing before c f := by
  induction calls using List.reverseRecOn with
  | nil =>
    obtain ⟨⟨_, _, hc⟩, -⟩ := h
    cases hc
  | append_singleton calls c ih =>
    by_cases hold : Landed calls f
    · obtain ⟨before, c', rest, rfl, hl⟩ := ih hold
      exact ⟨before, c', rest ++ [c], by simp, hl⟩
    · exact ⟨calls, c, [], rfl, h, hold⟩

/-- A list of frames of the transfer is known by its numbers. -/
theorem eq_map_frameOf {frames : List Frame} {n : Nat}
    (hframes : ∀ frame ∈ frames, frame = frameOf content frame.seq.toNat)
    (hseqs : frames.map (·.seq.toNat) = List.range' 1 n) :
    frames = (List.range' 1 n).map (frameOf content) := by
  rw [← hseqs, List.map_map]
  exact (List.map_id frames).symm.trans (List.map_congr_left hframes)

theorem count_eq_one {e : RecvEvent} {out : List RecvEvent} (hmem : e ∈ out)
    (hle : out.count e ≤ 1) : out.count e = 1 :=
  Nat.le_antisymm hle (List.count_pos_iff.mpr hmem)

/-- **Completeness in any order.** A receiver with room for the transfer
that is handed its packets in any order and any number of times, each at
least once, releases exactly the frames `1..f` in order. It declares the
stream complete, acknowledges the end and closes once each, all in the call
that hands over the last packet missing. -/
theorem completes (cfg : ReceiverConfig) (start : Instant) (content : Contents) (f : XferSeq)
    (hroom : Roomy cfg content f) (calls : List RecvCall) (hpackets : Packets content f calls)
    (hlanded : Landed calls f) :
    reliables (run cfg start calls).2 = (List.range' 1 f.toNat).map (frameOf content)
      ∧ (run cfg start calls).2.count (.relFinished (.complete f)) = 1
      ∧ (run cfg start calls).2.count .sendEndAck = 1
      ∧ (run cfg start calls).2.count .closed = 1
      ∧ ∃ before c rest, calls = before ++ c :: rest ∧ Landing before c f
        ∧ .relFinished (.complete f) ∈ ((run cfg start before).1.step c).2
        ∧ .sendEndAck ∈ ((run cfg start before).1.step c).2
        ∧ .closed ∈ ((run cfg start before).1.step c).2 := by
  obtain ⟨before, c, rest, heq, hl⟩ := exists_landing hlanded
  have hprefix : Packets content f (before ++ [c]) := by
    intro d hd
    refine hpackets d ?_
    rw [heq, ← List.singleton_append, ← List.append_assoc]
    exact List.mem_append_left _ hd
  obtain ⟨hcomplete, hack, hclosed⟩ := @Roomy.lands cfg start content f before c hroom hprefix hl
  have hout : ∀ e, e ∈ ((run cfg start before).1.step c).2 → e ∈ (run cfg start calls).2 :=
    fun e he => (Machine.mem_run step).mpr ⟨before, c, rest, heq, he⟩
  obtain ⟨houtcome, hacks, hcloses, -⟩ := terminates_explicitly cfg start calls
  have hseqs : (reliables (run cfg start calls).2).map (·.seq.toNat) = List.range' 1 f.toNat := by
    rw [heq]
    exact released_exactly hcomplete fun frame hf => (frames_of_packets hprefix hf).2.1
  have hframes : ∀ frame ∈ reliables (run cfg start calls).2,
      frame = frameOf content frame.seq.toNat := by
    intro frame hf
    rw [(recvInv_run cfg start calls).out] at hf
    obtain ⟨s, -, hs⟩ := List.mem_filterMap.mp hf
    exact (frames_of_packets hpackets (firstArrival_eq_some hs).1).2.2
  refine ⟨eq_map_frameOf hframes hseqs, count_eq_one (hout _ hcomplete) ?_,
    count_eq_one (hout _ hack) hacks, count_eq_one (hout _ hclosed) hcloses,
    before, c, rest, heq, hl, hcomplete, hack, hclosed⟩
  refine le_trans ?_ houtcome
  rw [List.count]
  exact List.countP_mono_left fun e _ he => by
    rw [beq_iff_eq] at he
    rw [he]
    rfl

end Transfer

/-- Three frames and the end, out of order and with repetitions. -/
def shuffledCalls : List RecvCall :=
  [.handle (.ofNat 3) (.data ⟨40⟩ [3]) 0, .handle (.ofNat 3) (.end (.ofNat 3)) 1,
    .handle (.ofNat 1) (.data ⟨0⟩ [1]) 2, .handle (.ofNat 1) (.data ⟨0⟩ [1]) 3,
    .handle (.ofNat 2) (.data ⟨20⟩ [2]) 4, .handle (.ofNat 3) (.end (.ofNat 3)) 5]

def shuffledContents : Contents
  | 1 => (⟨0⟩, [1])
  | 2 => (⟨20⟩, [2])
  | _ => (⟨40⟩, [3])

theorem completes_shuffled : (run .audioEngine 0 shuffledCalls).2.count .sendEndAck = 1 := by
  have hpackets : Packets shuffledContents (.ofNat 3) shuffledCalls := by
    intro c hc
    simp only [shuffledCalls, List.mem_cons, List.not_mem_nil, or_false] at hc
    rcases hc with rfl | rfl | rfl | rfl | rfl | rfl
    · exact ⟨by decide, by decide, rfl⟩
    · rfl
    · exact ⟨by decide, by decide, rfl⟩
    · exact ⟨by decide, by decide, rfl⟩
    · exact ⟨by decide, by decide, rfl⟩
    · rfl
  have hlanded : Landed shuffledCalls (.ofNat 3) := by
    refine ⟨⟨.ofNat 3, 1, by decide⟩, fun s h1 hs => ?_⟩
    change s ≤ 3 at hs
    interval_cases s
    · exact ⟨⟨.ofNat 1, ⟨0⟩, [1]⟩, by decide, rfl⟩
    · exact ⟨⟨.ofNat 2, ⟨20⟩, [2]⟩, by decide, rfl⟩
    · exact ⟨⟨.ofNat 3, ⟨40⟩, [3]⟩, by decide, rfl⟩
  exact (completes .audioEngine 0 shuffledContents (.ofNat 3) ⟨by decide, by decide⟩ shuffledCalls
    hpackets hlanded).2.2.1

end XferReceiver

end Protofish4
