import Protofish4.Xfer.Memory

/-!
# When the reorder buffer is exhausted

`on_data` tests the span after the tracker has absorbed the new frame, and
the bytes before anything is released. So the span is that of what must be
held, while the bytes still count the frame that fills the lowest gap and
everything it is about to release.
-/

namespace Protofish4

open Holes

namespace XferReceiver

/-! ## What must be held -/

/-- The highest number that has arrived. -/
def highestArrival (calls : List RecvCall) : Nat :=
  ((arrivals calls).map fun frame => frame.seq.toNat).foldl max 0

/-- The frames that have arrived above `k`, in order. -/
def above (calls : List RecvCall) (k : Nat) : List Frame :=
  (List.range' (k + 1) (highestArrival calls - k)).filterMap (firstArrival calls)

def payloadBytes (frames : List Frame) : Nat := (frames.map fun frame => frame.payload.length).sum

/-- `1..k` is the longest prefix that has arrived. -/
structure IsPrefix (calls : List RecvCall) (k : Nat) : Prop where
  filled : Filled {s | (firstArrival calls s).isSome} k
  ends : firstArrival calls (k + 1) = none

/-- What remains above the prefix breaks a limit: it reaches too far, or
weighs too much. -/
def Overfull (cfg : ReceiverConfig) (calls : List RecvCall) : Prop :=
  ∃ k, IsPrefix calls k ∧ (cfg.reorderWindow < highestArrival calls - k
    ∨ cfg.maxReorderBytes < payloadBytes (above calls k))

variable {r : XferReceiver} {calls : List RecvCall}

theorem highestArrival_concat (calls : List RecvCall) (c : RecvCall) :
    highestArrival (calls ++ [c])
      = max (highestArrival calls) ((arrival c).elim 0 fun frame => frame.seq.toNat) := by
  unfold highestArrival arrivals
  cases ha : arrival c with
  | none => simp [ha]
  | some frame => simp [ha]

theorem highest_run (cfg : ReceiverConfig) (start : Instant) (calls : List RecvCall) :
    (run cfg start calls).1.gaps.highest = highestArrival calls := by
  induction calls using List.reverseRecOn with
  | nil => rfl
  | append_singleton calls c ih =>
    rw [run_concat, Machine.andThen_fst, highest_step (recvInv_run cfg start calls).wf,
      highestArrival_concat, ih]
    cases arrival c with
    | none => exact (Nat.max_zero _).symm
    | some frame => rfl

theorem le_highestArrival {s : Nat} (h : (firstArrival calls s).isSome) :
    s ≤ highestArrival calls := by
  rw [← highest_run .audioEngine 0 calls]
  exact (recvInv_run .audioEngine 0 calls).highest_ge s h

/-- The prefix of a tracker that has seen the arrivals is its segment. -/
theorem isPrefix_iff {g : GapTracker} (hwf : g.WF)
    (hseen : ∀ s, s ∈ g.seen ↔ (firstArrival calls s).isSome) {k : Nat} :
    IsPrefix calls k ↔ k = g.contiguous := by
  have hset : {s | (firstArrival calls s).isSome} = g.seen := by
    ext s
    exact (hseen s).symm
  have hends : ∀ {k}, firstArrival calls (k + 1) = none ↔ k + 1 ∉ g.seen := by
    intro k
    rw [hseen]
    simp
  constructor
  · intro h
    have hfilled := h.filled
    rw [hset] at hfilled
    exact filled_unique hfilled (hends.mp h.ends) (GapTracker.filled_seen g) hwf.next_not_mem
  · rintro rfl
    exact ⟨hset ▸ GapTracker.filled_seen g, hends.mpr hwf.next_not_mem⟩

/-- More of the prefix leaves less above it. -/
theorem payloadBytes_above_le (calls : List RecvCall) {k k' : Nat} (h : k ≤ k') :
    payloadBytes (above calls k') ≤ payloadBytes (above calls k) := by
  have hsub : (above calls k').Sublist (above calls k) := by
    refine List.Sublist.filterMap _ ?_
    rcases Nat.le_total k' (highestArrival calls) with hle | hle
    · have hlen : highestArrival calls - k = (k' - k) + (highestArrival calls - k') := by omega
      have hend : k + 1 + (k' - k) = k' + 1 := by omega
      rw [hlen, ← List.range'_append_1, hend]
      exact List.sublist_append_right _ _
    · rw [Nat.sub_eq_zero_of_le hle]
      exact List.nil_sublist _
  exact (hsub.map fun frame => frame.payload.length).sum_le_sum (fun _ _ => Nat.zero_le _)

/-- The buffer weighs what has arrived above the released segment. -/
theorem heldBytes_eq (h : Held (firstArrival calls) r) :
    r.heldBytes = payloadBytes (above calls r.relReleased) :=
  Tally.total_eq_sum _ h.reorder_get fun _ => le_highestArrival

/-! ## What the code tests -/

theorem exhausted_mem_storeFrame_iff {frame : Frame} {now : Instant}
    (hs : r.relState = .streaming) :
    .relFinished (.aborted .bufferExhausted) ∈ (r.storeFrame frame now).2 ↔ r.Overflows frame := by
  constructor
  · intro h
    by_contra hfits
    rw [storeFrame_fits hfits] at h
    rcases Machine.mem_andThen.mp h with h | h
    · obtain ⟨_, he⟩ := releaseLoop_events h
      cases he
    · rcases checkFinish_events h with ⟨_, he⟩ | ⟨_, _, he⟩ | he | he <;> cases he
  · intro hover
    have hgives : ∀ r' : XferReceiver, r'.relState = .streaming →
        .relFinished (.aborted .bufferExhausted)
          ∈ (r'.finishRel (.aborted .bufferExhausted)).2 := by
      intro r' hs'
      rw [finishRel, if_neg (by rw [hs']; simp)]
      exact List.mem_singleton_self _
    unfold storeFrame
    split
    · exact hgives r hs
    · rename_i hspan
      have hbytes : (r.hold frame).reorderBytes > r.cfg.maxReorderBytes := hover.resolve_left hspan
      rw [if_pos hbytes]
      exact hgives (r.hold frame) hs

/-- **Exhaustion**: a frame new to a streaming stream overflows. -/
theorem exhausted_mem_handle_iff {seq : XferSeq} {ts : TimestampMs} {payload : Bytes}
    {now : Instant} :
    .relFinished (.aborted .bufferExhausted) ∈ (r.handle seq (.data ts payload) now).2
      ↔ r.relState = .streaming ∧ (r.gaps.record seq).2 = true
        ∧ (r.noteArrival ⟨seq, ts, payload⟩).1.Overflows ⟨seq, ts, payload⟩ := by
  have hnote : .relFinished (.aborted .bufferExhausted)
      ∉ ((r.heard now).noteArrival ⟨seq, ts, payload⟩).2 :=
    fun h => by cases (noteArrival_events h).1
  have hack : .relFinished (.aborted .bufferExhausted)
      ∉ (((r.heard now).onBody seq (.data ts payload) now).1.maybeAck now).2 :=
    fun h => by cases (maybeAck_events h).1
  rw [handle, Machine.mem_andThen, or_iff_left hack]
  show _ ∈ ((r.heard now).onData ⟨seq, ts, payload⟩ now).2 ↔ _
  by_cases hf : (r.heard now).relState = .streaming
      ∧ ((r.heard now).gaps.record (⟨seq, ts, payload⟩ : Frame).seq).2 = true
  · rw [onData_fresh hf.1 hf.2, Machine.mem_andThen, or_iff_right hnote,
      @exhausted_mem_storeFrame_iff ((r.heard now).noteArrival ⟨seq, ts, payload⟩).1
        ⟨seq, ts, payload⟩ now hf.1]
    exact ⟨fun h => ⟨hf.1, hf.2, h⟩, fun h => h.2.2⟩
  · rw [onData_stale ((not_and_or.mp hf).imp_right (by simp))]
    exact ⟨fun h => absurd h hnote, fun h => absurd ⟨h.1, h.2.1⟩ hf⟩

/-! ## Law and code -/

section Law

variable {cfg : ReceiverConfig} {start : Instant} {seq : XferSeq} {ts : TimestampMs}
  {payload : Bytes} {now : Instant}

/-- The packet fills the lowest gap, and although it exceeds the byte limit
together with what is held, what its release leaves does not. -/
def Relieves (cfg : ReceiverConfig) (calls : List RecvCall) (seq : XferSeq) (ts : TimestampMs)
    (payload : Bytes) (now : Instant) : Prop :=
  ∃ k k', IsPrefix calls k ∧ IsPrefix (calls ++ [.handle seq (.data ts payload) now]) k'
    ∧ seq.toNat = k + 1
    ∧ cfg.maxReorderBytes < payloadBytes (above calls k) + payload.length
    ∧ payloadBytes (above (calls ++ [.handle seq (.data ts payload) now]) k') ≤ cfg.maxReorderBytes

/-- A streaming receiver holds what its limits allow. -/
theorem not_overfull (hs : (run cfg start calls).1.relState = .streaming) :
    ¬ Overfull cfg calls := by
  have hinv := recvInv_run cfg start calls
  have hfits := (frugal_run cfg start calls).fits hs
  have hhigh := highest_run cfg start calls
  have hcfg := run_cfg cfg start calls
  generalize (run cfg start calls).1 = r at hs hinv hfits hhigh hcfg
  have hlive := hinv.live hs
  rintro ⟨k, hk, hover⟩
  rw [isPrefix_iff hlive.wf hlive.mem_seen] at hk
  subst hk
  rw [← hcfg, ← hhigh] at hover
  rcases hover with hspan | hbytes
  · exact absurd hfits.span (not_le.mpr hspan)
  · have hheld := heldBytes_eq hlive.toHeld
    rw [hlive.caught_up] at hheld
    rw [← hheld, ← hfits.bytes] at hbytes
    exact absurd hfits.budget (not_le.mpr hbytes)

/-- A call that brings nothing new leaves the history as it is. -/
theorem firstArrival_concat_stale {c : RecvCall}
    (h : ∀ frame, arrival c = some frame →
      ¬ (frame.seq.toNat ≠ 0 ∧ firstArrival calls frame.seq.toNat = none)) :
    firstArrival (calls ++ [c]) = firstArrival calls := by
  rw [firstArrival_concat]
  unfold after
  cases ha : arrival c with
  | none => rfl
  | some frame =>
    funext s
    show extend (firstArrival calls) frame s = firstArrival calls s
    rw [extend, if_neg]
    rintro ⟨rfl, h0, hnone⟩
    exact h frame ha ⟨h0, hnone⟩

theorem highestArrival_concat_stale {c : RecvCall}
    (h : ∀ frame, arrival c = some frame →
      ¬ (frame.seq.toNat ≠ 0 ∧ firstArrival calls frame.seq.toNat = none)) :
    highestArrival (calls ++ [c]) = highestArrival calls := by
  rw [highestArrival_concat]
  cases ha : arrival c with
  | none => exact Nat.max_zero _
  | some frame =>
    refine Nat.max_eq_left ?_
    show frame.seq.toNat ≤ highestArrival calls
    by_cases h0 : frame.seq.toNat = 0
    · exact h0 ▸ Nat.zero_le _
    · refine le_highestArrival ?_
      rw [Option.isSome_iff_ne_none]
      exact fun hnone => h frame ha ⟨h0, hnone⟩

/-- A repetition leaves what must be held as it is. -/
theorem overfull_concat_stale (h : ¬ (seq.toNat ≠ 0 ∧ firstArrival calls seq.toNat = none)) :
    Overfull cfg (calls ++ [.handle seq (.data ts payload) now]) ↔ Overfull cfg calls := by
  have hstale : ∀ frame, arrival (.handle seq (.data ts payload) now) = some frame →
      ¬ (frame.seq.toNat ≠ 0 ∧ firstArrival calls frame.seq.toNat = none) := by
    rintro frame ⟨⟩
    exact h
  -- only first arrivals count, so the history is the same
  have hhist := firstArrival_concat_stale hstale
  have hhigh := highestArrival_concat_stale hstale
  have hprefix : ∀ k, IsPrefix (calls ++ [.handle seq (.data ts payload) now]) k
      ↔ IsPrefix calls k := by
    intro k
    constructor
    · intro hk
      exact ⟨hhist ▸ hk.filled, hhist ▸ hk.ends⟩
    · intro hk
      exact ⟨hhist.symm ▸ hk.filled, hhist.symm ▸ hk.ends⟩
  unfold Overfull above
  simp only [hhist, hhigh, hprefix]

/-- A frame above the lowest gap leaves the prefix as it is. -/
theorem contiguous_record_above {g : GapTracker} (h : g.WF) (hne : seq.toNat ≠ g.contiguous + 1) :
    (g.record seq).1.contiguous = g.contiguous := by
  have hwf := GapTracker.wf_record h seq
  have hfilled : Filled (g.record seq).1.seen g.contiguous :=
    (GapTracker.filled_seen g).mono fun s hs => (GapTracker.mem_seen_record h seq s).mpr (Or.inl hs)
  refine (filled_unique hfilled ?_ (GapTracker.filled_seen _) hwf.next_not_mem).symm
  rw [GapTracker.mem_seen_record h]
  rintro (hmem | ⟨heq, -⟩)
  · exact h.next_not_mem hmem
  · exact hne heq.symm

/-- The frame that fills the lowest gap does not widen the span. -/
theorem windowSpan_record_next {g : GapTracker} (h : g.WF) (heq : seq.toNat = g.contiguous + 1) :
    (g.record seq).1.windowSpan ≤ g.windowSpan := by
  have hwf := GapTracker.wf_record h seq
  have hfilled : Filled (g.record seq).1.seen (g.contiguous + 1) := by
    intro s h1 hle
    rw [GapTracker.mem_seen_record h]
    rcases Nat.lt_or_eq_of_le hle with hlt | rfl
    · exact Or.inl (GapTracker.filled_seen g s h1 (Nat.lt_succ_iff.mp hlt))
    · exact Or.inr ⟨heq.symm, Nat.succ_ne_zero _⟩
  have hnext := hfilled.le_of_not_mem hwf.next_not_mem
  unfold GapTracker.windowSpan
  rw [GapTracker.highest_record h, heq]
  omega

/-- The frames above two tracked prefixes, before and after a new frame. -/
structure Judged (cfg : ReceiverConfig) (calls : List RecvCall) (r : XferReceiver) (seq : XferSeq)
    (ts : TimestampMs) (payload : Bytes) (now : Instant) : Prop where
  before : ∀ k, IsPrefix calls k ↔ k = r.gaps.contiguous
  after : ∀ k, IsPrefix (calls ++ [.handle seq (.data ts payload) now]) k
    ↔ k = (r.gaps.record seq).1.contiguous
  highest : highestArrival (calls ++ [.handle seq (.data ts payload) now])
    = (r.gaps.record seq).1.highest
  held : r.reorderBytes = payloadBytes (above calls r.gaps.contiguous)
  crowded : r.reorderBytes + payload.length
    = payloadBytes (above (calls ++ [.handle seq (.data ts payload) now]) r.gaps.contiguous)

theorem judged (hs : (run cfg start calls).1.relState = .streaming) (h0 : seq.toNat ≠ 0)
    (hnew : firstArrival calls seq.toNat = none) :
    Judged cfg calls (run cfg start calls).1 seq ts payload now := by
  have hinv := recvInv_run cfg start calls
  have hfits := (frugal_run cfg start calls).fits hs
  have hhigh := highest_run cfg start calls
  generalize (run cfg start calls).1 = r at hs hinv hfits hhigh
  have hlive := hinv.live hs
  have hheld : Held (extend (firstArrival calls) ⟨seq, ts, payload⟩)
      ((r.noteArrival ⟨seq, ts, payload⟩).1.hold ⟨seq, ts, payload⟩) := hlive.hold h0 hnew
  have hhist : firstArrival (calls ++ [.handle seq (.data ts payload) now])
      = extend (firstArrival calls) ⟨seq, ts, payload⟩ := firstArrival_concat calls _
  rw [← hhist] at hheld
  have hnone : r.reorder[seq.toNat]? = none := by
    rw [hlive.reorder_get, hnew, ite_self]
  have htotal : ((r.noteArrival ⟨seq, ts, payload⟩).1.hold ⟨seq, ts, payload⟩).heldBytes
      = r.heldBytes + payload.length :=
    Tally.total_insert (fun frame : Frame => frame.payload.length) ⟨seq, ts, payload⟩ hnone
  exact
    { before := fun k => isPrefix_iff hlive.wf hlive.mem_seen
      after := fun k => isPrefix_iff (GapTracker.wf_record hlive.wf seq) hheld.mem_seen
      highest := by
        rw [highestArrival_concat, GapTracker.highest_record hlive.wf, hhigh]
        rfl
      held := by
        rw [hfits.bytes, heldBytes_eq hlive.toHeld, hlive.caught_up]
      crowded := by
        rw [hfits.bytes, ← htotal, heldBytes_eq hheld, ← hlive.caught_up]
        rfl }

theorem Judged.overfull_iff {r : XferReceiver} (h : Judged cfg calls r seq ts payload now) :
    Overfull cfg (calls ++ [.handle seq (.data ts payload) now])
      ↔ cfg.reorderWindow < (r.gaps.record seq).1.windowSpan
        ∨ cfg.maxReorderBytes < payloadBytes (above (calls ++ [.handle seq (.data ts payload) now])
          (r.gaps.record seq).1.contiguous) := by
  unfold Overfull
  simp only [h.after, exists_eq_left, h.highest]
  exact Iff.rfl

theorem Judged.relieves_iff {r : XferReceiver} (h : Judged cfg calls r seq ts payload now) :
    Relieves cfg calls seq ts payload now
      ↔ seq.toNat = r.gaps.contiguous + 1 ∧ cfg.maxReorderBytes < r.reorderBytes + payload.length
        ∧ ¬ cfg.maxReorderBytes < payloadBytes
          (above (calls ++ [.handle seq (.data ts payload) now])
            (r.gaps.record seq).1.contiguous) := by
  unfold Relieves
  simp only [h.before, h.after, h.held, not_lt]
  constructor
  · rintro ⟨_, _, rfl, rfl, hrest⟩
    exact hrest
  · intro hrest
    exact ⟨_, _, rfl, rfl, hrest⟩

/-- Two tests that differ only when the weight is relieved. -/
theorem tests_agree_iff {span crowded heavy next : Prop} (hless : heavy → crowded)
    (hspan : next → ¬ span) (hnext : crowded → ¬ heavy → next) :
    ((span ∨ crowded) ↔ (span ∨ heavy)) ↔ ¬ (next ∧ crowded ∧ ¬ heavy) := by
  constructor
  · rintro hiff ⟨hn, hc, hh⟩
    exact (hiff.mp (Or.inr hc)).elim (hspan hn) hh
  · intro hnot
    refine or_congr_right ⟨fun hc => ?_, hless⟩
    by_contra hh
    exact hnot ⟨hnext hc hh, hc, hh⟩

/-- **Buffer exhaustion, exactly.** A data packet makes a streaming receiver
give up as exhausted just when what must be held afterwards breaks a limit,
if and only if it is not a packet that fills the lowest gap and exceeds the
byte limit only until its run is released. -/
theorem exhaustion_iff (cfg : ReceiverConfig) (start : Instant) (calls : List RecvCall)
    (hs : (run cfg start calls).1.relState = .streaming) (seq : XferSeq) (ts : TimestampMs)
    (payload : Bytes) (now : Instant) :
    (.relFinished (.aborted .bufferExhausted)
        ∈ ((run cfg start calls).1.handle seq (.data ts payload) now).2
      ↔ Overfull cfg (calls ++ [.handle seq (.data ts payload) now]))
      ↔ ¬ Relieves cfg calls seq ts payload now := by
  have hlive := (recvInv_run cfg start calls).live hs
  have hcfg := run_cfg cfg start calls
  have hfits := (frugal_run cfg start calls).fits hs
  rw [exhausted_mem_handle_iff]
  by_cases hnew : seq.toNat ≠ 0 ∧ firstArrival calls seq.toNat = none
  · have hfresh := (hlive.fresh_iff seq).mpr hnew
    have hj := @judged calls cfg start seq ts payload now hs hnew.1 hnew.2
    generalize (run cfg start calls).1 = r at hs hlive hcfg hfits hfresh hj
    have hcode : r.relState = .streaming ∧ (r.gaps.record seq).2 = true
          ∧ (r.noteArrival ⟨seq, ts, payload⟩).1.Overflows ⟨seq, ts, payload⟩
        ↔ cfg.reorderWindow < (r.gaps.record seq).1.windowSpan
          ∨ cfg.maxReorderBytes < r.reorderBytes + payload.length := by
      simp only [hs, hfresh, true_and, Overflows, noteArrival, hcfg]
    rw [hcode, hj.overfull_iff, hj.relieves_iff]
    -- the code weighs before the release and the law after it; both judge the span after it
    refine tests_agree_iff (fun h => ?_) (fun heq => ?_) (fun hc hh => ?_)
    · rw [hj.crowded]
      exact h.trans_le (payloadBytes_above_le _ (GapTracker.contiguous_le_record hlive.wf seq))
    · rw [not_lt, ← hcfg]
      exact (windowSpan_record_next hlive.wf heq).trans hfits.span
    · by_contra hne
      rw [contiguous_record_above hlive.wf hne, ← hj.crowded] at hh
      exact hh hc
  · -- a repetition changes nothing, and what is held is within the limits
    have hstale : ((run cfg start calls).1.gaps.record seq).2 ≠ true :=
      fun hf => hnew ((hlive.fresh_iff seq).mp hf)
    have hsame : ¬ Overfull cfg (calls ++ [.handle seq (.data ts payload) now]) :=
      fun h => not_overfull hs ((overfull_concat_stale hnew).mp h)
    have hnot : ¬ Relieves cfg calls seq ts payload now := by
      rintro ⟨k, -, hk, -, heq, -⟩
      exact hnew ⟨heq ▸ Nat.succ_ne_zero k, heq ▸ hk.ends⟩
    simp [hstale, hsame, hnot]

end Law

/-- Ten bytes may be held for reordering. -/
def tenBytes : ReceiverConfig := { ReceiverConfig.audioEngine with maxReorderBytes := 10 }

/-- Frame 2 is held, with six bytes. -/
def sixHeld : List RecvCall := [.handle (.ofNat 2) (.data ⟨20⟩ [1, 2, 3, 4, 5, 6]) 0]

/-- A frame 1 of four bytes still fits beside it. -/
theorem exhaustion_iff_four :
    .relFinished (.aborted .bufferExhausted)
        ∈ ((run tenBytes 0 sixHeld).1.handle (.ofNat 1) (.data ⟨0⟩ [1, 2, 3, 4]) 0).2
      ↔ Overfull tenBytes (sixHeld ++ [.handle (.ofNat 1) (.data ⟨0⟩ [1, 2, 3, 4]) 0]) := by
  refine (exhaustion_iff tenBytes 0 sixHeld (by decide +kernel) (.ofNat 1) ⟨0⟩ [1, 2, 3, 4] 0).mpr
    ?_
  have hj := @judged sixHeld tenBytes 0 (.ofNat 1) ⟨0⟩ [1, 2, 3, 4] 0 (by decide +kernel)
    (by decide) (by decide +kernel)
  rw [hj.relieves_iff]
  decide +kernel

/-- A frame 1 of six bytes would release both frames and leave nothing to
hold, but the stream is given up. -/
theorem release_too_late :
    ¬ (.relFinished (.aborted .bufferExhausted)
        ∈ ((run tenBytes 0 sixHeld).1.handle (.ofNat 1) (.data ⟨0⟩ [1, 2, 3, 4, 5, 6]) 0).2
      ↔ Overfull tenBytes (sixHeld ++ [.handle (.ofNat 1) (.data ⟨0⟩ [1, 2, 3, 4, 5, 6]) 0])) := by
  have hj := @judged sixHeld tenBytes 0 (.ofNat 1) ⟨0⟩ [1, 2, 3, 4, 5, 6] 0 (by decide +kernel)
    (by decide) (by decide +kernel)
  rw [hj.overfull_iff]
  decide +kernel

end XferReceiver

end Protofish4
