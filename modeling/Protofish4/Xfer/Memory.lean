import Protofish4.Lib.Tally
import Protofish4.Xfer.Commit

/-!
# What a receiver holds

While the reliable stream streams, one check in `on_data` bounds three
collections and the bytes held: everything a receiver holds lies between
the released segment and the highest arrival. Once the stream has ended,
buffer and bookkeeping are empty for good, and only the tracker still
collects: what is stranded above a number that is not delivered again.
-/

namespace Protofish4

open Tally Holes

namespace XferReceiver

/-- The payload bytes in the reorder buffer. -/
def heldBytes (r : XferReceiver) : Nat := total (fun frame => frame.payload.length) r.reorder

/-- Everything held is within the configured budgets. -/
structure Bounded (r : XferReceiver) : Prop where
  ahead : r.gaps.ahead.size ≤ r.cfg.reorderWindow
  reorder : r.reorder.size ≤ r.cfg.reorderWindow
  nacks : r.nacks.size ≤ r.cfg.reorderWindow
  bytes : r.heldBytes ≤ r.cfg.maxReorderBytes

/-- The byte count is that of the buffer, and the bookkeeping is about
holes above the released segment. -/
structure Accounts (r : XferReceiver) : Prop where
  bytes : r.reorderBytes = r.heldBytes
  nacks : ∀ s ∈ r.nacks, r.relReleased < s ∧ s ≤ r.gaps.highest

/-- What a streaming receiver holds fits. -/
structure Fits (r : XferReceiver) : Prop extends Accounts r where
  span : r.gaps.windowSpan ≤ r.cfg.reorderWindow
  budget : r.reorderBytes ≤ r.cfg.maxReorderBytes

/-- A receiver whose stream has ended holds nothing. -/
structure Cleared (r : XferReceiver) : Prop where
  reorder : r.reorder = ∅
  reorderBytes : r.reorderBytes = 0
  nacks : r.nacks = ∅

structure Frugal (r : XferReceiver) : Prop where
  fits : r.relState = .streaming → Fits r
  cleared : r.relState = .finished → Cleared r

variable {r : XferReceiver} {now : Instant}

theorem frugal_new (cfg : ReceiverConfig) (start : Instant) : Frugal (new cfg start) where
  fits _ :=
    { bytes := by simp [new, heldBytes]
      nacks := fun s hs => by simp [new] at hs
      span := Nat.zero_le _
      budget := Nat.zero_le _ }
  cleared h := by cases h

/-- Ending the stream clears it. -/
theorem finishRel_cleared (o : RelOutcome) (h : r.relState = .finished → Cleared r) :
    Cleared (r.finishRel o).1 := by
  unfold finishRel
  split
  · exact h ‹_›
  · exact ⟨rfl, rfl, rfl⟩

theorem finishRel_frugal (o : RelOutcome) (h : r.relState = .finished → Cleared r) :
    Frugal (r.finishRel o).1 where
  fits hs := by
    rw [finishRel_finished] at hs
    cases hs
  cleared _ := finishRel_cleared o h

/-- A release round moves one frame out of the books. -/
theorem releaseLoop_accounts (fuel : Nat) (h : Accounts r) :
    Accounts (releaseLoop fuel r).1 ∧ (releaseLoop fuel r).1.reorderBytes ≤ r.reorderBytes := by
  induction fuel generalizing r with
  | zero => exact ⟨h, Nat.le_refl _⟩
  | succ fuel ih =>
    simp only [releaseLoop]
    split
    · exact ⟨h, Nat.le_refl _⟩
    · rename_i frame hget
      have htotal := total_erase (fun frame : Frame => frame.payload.length) hget
      have hbytes := h.bytes
      unfold heldBytes at hbytes
      have haccounts : Accounts { r with
          reorder := r.reorder.erase (r.relReleased + 1)
          reorderBytes := r.reorderBytes - frame.payload.length
          relReleased := r.relReleased + 1
          nacks := r.nacks.erase (r.relReleased + 1) } := by
        refine ⟨?_, fun s hs => ?_⟩
        · show r.reorderBytes - frame.payload.length = total _ (r.reorder.erase _)
          omega
        · change s ∈ r.nacks.erase (r.relReleased + 1) at hs
          rw [Std.ExtTreeMap.mem_erase] at hs
          obtain ⟨hne, hmem⟩ := hs
          obtain ⟨h1, h2⟩ := h.nacks s hmem
          rw [ne_eq, compare_eq_iff_eq] at hne
          exact ⟨by show r.relReleased + 1 < s; omega, h2⟩
      obtain ⟨h1, h2⟩ := ih haccounts
      exact ⟨h1, h2.trans (Nat.sub_le _ _)⟩

theorem releaseContiguous_fits (h : Fits r) : Fits (r.releaseContiguous now).1 := by
  obtain ⟨h1, h2⟩ := releaseLoop_accounts (r.gaps.contiguous - r.relReleased) h.toAccounts
  have hframe := releaseLoop_frame r (r.gaps.contiguous - r.relReleased)
  have hspan : (releaseLoop (r.gaps.contiguous - r.relReleased) r).1.gaps.windowSpan
      ≤ (releaseLoop (r.gaps.contiguous - r.relReleased) r).1.cfg.reorderWindow := by
    rw [hframe]
    exact h.span
  have hbudget : (releaseLoop (r.gaps.contiguous - r.relReleased) r).1.reorderBytes
      ≤ (releaseLoop (r.gaps.contiguous - r.relReleased) r).1.cfg.maxReorderBytes := by
    refine h2.trans ?_
    rw [hframe]
    exact h.budget
  simp only [releaseContiguous]
  split
  · exact ⟨h1, hspan, hbudget⟩
  · exact ⟨⟨h1.bytes, h1.nacks⟩, hspan, hbudget⟩

/-- Flags, timers and announcements hold nothing. -/
theorem Frugal.congr (h : Frugal r) {r' : XferReceiver}
    (he : r' = { r with
      finalSeq := r'.finalSeq
      endAcked := r'.endAcked
      closed := r'.closed
      senderLostBelow := r'.senderLostBelow
      lastPacketAt := r'.lastPacketAt
      lastAckAt := r'.lastAckAt
      bufferedMs := r'.bufferedMs }) : Frugal r' := by
  rw [he]
  refine ⟨fun hs => ?_, fun hs => ?_⟩
  · obtain ⟨⟨h1, h2⟩, h3, h4⟩ := h.fits hs
    exact ⟨⟨h1, h2⟩, h3, h4⟩
  · obtain ⟨h1, h2, h3⟩ := h.cleared hs
    exact ⟨h1, h2, h3⟩

/-- Acknowledging the tail sets two flags. -/
theorem ackEnd_frame (r : XferReceiver) (f : XferSeq) : (r.ackEnd f).1 = { r with
    endAcked := (r.ackEnd f).1.endAcked
    closed := (r.ackEnd f).1.closed } := by
  unfold ackEnd
  rw [Machine.andThen_fst]
  split <;> split <;> rfl

theorem checkFinish_frugal (h : Frugal r) : Frugal (r.checkFinish now).1 := by
  unfold checkFinish
  split
  · exact h
  · rename_i f _
    rw [Machine.andThen_fst]
    have hcomplete : Frugal (r.completeRel f now).1 := by
      unfold completeRel
      split
      · rename_i hc
        refine finishRel_frugal _ fun hf => ?_
        rw [releaseContiguous_frame, hc.1] at hf
        cases hf
      · exact h
    exact hcomplete.congr (by rw [ackEnd_frame])

/-- A new frame is held only inside window and budget. -/
theorem storeFrame_frugal (hs : r.relState = .streaming) (h : Accounts r) {frame : Frame}
    (hnew : r.reorder[frame.seq.toNat]? = none) : Frugal (r.storeFrame frame now).1 := by
  have hstr : ∀ {r' : XferReceiver}, r'.relState = .streaming →
      r'.relState = .finished → Cleared r' := by
    intro r' h1 h2
    rw [h1] at h2
    cases h2
  have haccounts : Accounts (r.hold frame) := by
    refine ⟨?_, h.nacks⟩
    have htotal := total_insert (fun frame : Frame => frame.payload.length) frame hnew
    show r.reorderBytes + frame.payload.length = total _ (r.reorder.insert _ frame)
    rw [htotal, h.bytes]
    rfl
  by_cases hover : r.Overflows frame
  · unfold storeFrame
    split
    · exact finishRel_frugal _ (hstr hs)
    · rename_i hspan
      have hbytes : (r.hold frame).reorderBytes > r.cfg.maxReorderBytes :=
        hover.resolve_left hspan
      have hcleared := finishRel_frugal (r := r.hold frame) (.aborted .bufferExhausted) (hstr hs)
      rwa [if_pos hbytes]
  · rw [storeFrame_fits hover, Machine.andThen_fst]
    unfold Overflows at hover
    push Not at hover
    refine checkFinish_frugal ⟨fun _ => releaseContiguous_fits ⟨haccounts, hover.1, hover.2⟩, ?_⟩
    refine hstr ?_
    rw [releaseContiguous_frame]
    exact hs

theorem onData_frugal {hist : Nat → Option Frame} (hwf : r.gaps.WF)
    (hlive : r.relState = .streaming → Live hist r) (h : Frugal r) (frame : Frame) :
    Frugal (r.onData frame now).1 := by
  by_cases hf : r.relState = .streaming ∧ (r.gaps.record frame.seq).2 = true
  · obtain ⟨hs, hf⟩ := hf
    rw [onData_fresh hs hf, Machine.andThen_fst]
    obtain ⟨-, hnone⟩ := ((hlive hs).fresh_iff _).mp hf
    refine storeFrame_frugal (r := (r.noteArrival frame).1) hs
      ⟨(h.fits hs).bytes, fun s hmem => ?_⟩ ?_
    · obtain ⟨h1, h2⟩ := (h.fits hs).nacks s hmem
      have hhigh := GapTracker.highest_record hwf frame.seq
      exact ⟨h1, h2.trans (by rw [noteArrival, hhigh]; exact Nat.le_max_left _ _)⟩
    · show r.reorder[frame.seq.toNat]? = none
      rw [(hlive hs).reorder_get, hnone]
      simp
  · rw [onData_stale ((not_and_or.mp hf).imp_right (by simp))]
    refine ⟨fun hs => ?_, fun hs => ?_⟩
    · -- the packet is one the tracker has seen
      change r.relState = .streaming at hs
      have hst : frame.seq.toNat = 0 ∨ frame.seq.toNat ∈ r.gaps.seen := by
        by_contra hnot
        push Not at hnot
        exact hf ⟨hs, (GapTracker.record_flag_iff hwf _).mpr hnot⟩
      have heq : (r.noteArrival frame).1 = r := by
        simp only [noteArrival, GapTracker.record_stale hst]
      rw [heq]
      exact h.fits hs
    · obtain ⟨h1, h2, h3⟩ := h.cleared hs
      exact ⟨h1, h2, h3⟩

theorem noteLost_frugal (h : Frugal r) (l : XferSeq) : Frugal (r.noteLost l).1 := by
  have hlost : Frugal { r with senderLostBelow := l.toNat } := h.congr rfl
  simp only [noteLost]
  split
  · split
    · exact finishRel_frugal _ hlost.cleared
    · exact hlost
  · exact h

theorem onBody_frugal {hist : Nat → Option Frame} (hwf : r.gaps.WF)
    (hlive : r.relState = .streaming → Live hist r) (h : Frugal r) (seq : XferSeq) (body : Body) :
    Frugal (r.onBody seq body now).1 := by
  cases body with
  | data ts payload => exact onData_frugal hwf hlive h _
  | «end» f => exact checkFinish_frugal (h.congr rfl)
  | keepalive l => exact checkFinish_frugal (noteLost_frugal h l)
  | ack | nack | endAck => exact h

/-- The loop enters only what it was given. -/
theorem mem_nackLoop {cfg : ReceiverConfig} {lost : Nat} {l : List Nat}
    {nacks : Std.ExtTreeMap Nat (Nat × Instant)} {ask : List XferSeq} {s : Nat}
    (h : s ∈ (nackLoop cfg lost now l nacks ask).nacks) : s ∈ nacks ∨ s ∈ l := by
  induction l generalizing nacks ask with
  | nil => exact Or.inl h
  | cons k l ih =>
    have hinsert : ∀ {v : Nat × Instant}, s ∈ nacks.insert k v → s ∈ nacks ∨ s ∈ k :: l := by
      intro v hm
      rcases Std.ExtTreeMap.mem_insert.mp hm with hm | hm
      · exact Or.inr (List.mem_cons.mpr (Or.inl (compare_eq_iff_eq.mp hm).symm))
      · exact Or.inl hm
    have hlater : ∀ {v : Nat × Instant}, s ∈ nacks.insert k v ∨ s ∈ l → s ∈ nacks ∨ s ∈ k :: l :=
      fun hm => hm.elim hinsert fun hl => Or.inr (List.mem_cons_of_mem k hl)
    simp only [nackLoop] at h
    split at h
    · exact Or.inl h
    · split at h
      · exact hinsert h
      · split at h
        · exact hlater (ih h)
        · exact hlater (ih h)

theorem emitNacks_frugal (h : Frugal r)
    (hmiss : ∀ s ∈ r.gaps.missing maxNackEntries, r.relReleased < s ∧ s ≤ r.gaps.highest)
    (hs : r.relState = .streaming) : Frugal (r.emitNacks now).1 := by
  simp only [emitNacks]
  split
  · exact h
  · generalize hasked : nackLoop r.cfg r.senderLostBelow now (r.gaps.missing maxNackEntries)
      r.nacks [] = asked
    have hfits := h.fits hs
    have hnoted : Fits { r with nacks := asked.nacks } := by
      refine ⟨⟨hfits.bytes, fun s hm => ?_⟩, hfits.span, hfits.budget⟩
      change s ∈ asked.nacks at hm
      rw [← hasked] at hm
      exact (mem_nackLoop hm).elim (hfits.nacks s) (hmiss s)
    have hnot : ∀ {r' : XferReceiver}, r'.relState = .streaming →
        r'.relState = .finished → Cleared r' := by
      intro r' h1 h2
      rw [h1] at h2
      cases h2
    split
    · exact finishRel_frugal _ (hnot hs)
    · exact ⟨fun _ => hnoted, hnot hs⟩

/-- The holes of a tracker lie between the released segment and the
highest arrival. -/
theorem missing_between {calls : List RecvCall} {evs : List RecvEvent} (hinv : RecvInv calls r evs)
    (hs : r.relState = .streaming) :
    ∀ s ∈ r.gaps.missing maxNackEntries, r.relReleased < s ∧ s ≤ r.gaps.highest := by
  have hhigh : r.gaps.highest = 0 ∨ r.gaps.highest ∈ r.gaps.seen :=
    hinv.highest_mem.imp_right fun h => ((hinv.live hs).mem_seen _).mpr h
  intro s hmem
  obtain ⟨h1, hlt, hnot⟩ := hinv.wf.mem_missing hhigh hmem
  have hup := (hinv.live hs).caught_up
  refine ⟨?_, Nat.le_of_lt hlt⟩
  by_contra hle
  exact hnot ⟨h1, Or.inl (by omega)⟩

theorem maybeAck_frugal (h : Frugal r) : Frugal (r.maybeAck now).1 :=
  h.congr (by rw [maybeAck_state])

/-- **One call** keeps a receiver frugal. -/
theorem step_frugal {calls : List RecvCall} {evs : List RecvEvent} (hinv : RecvInv calls r evs)
    (h : Frugal r) (c : RecvCall) : Frugal (r.step c).1 := by
  cases c with
  | setBufferedMs ms => exact h.congr rfl
  | handle seq body now =>
    have hlive : (r.heard now).relState = .streaming → Live (firstArrival calls) (r.heard now) :=
      fun hs => (hinv.live hs).heard now
    have hbody : Frugal ((r.heard now).onBody seq body now).1 :=
      onBody_frugal (r := r.heard now) hinv.wf hlive (h.congr rfl) seq body
    exact maybeAck_frugal hbody
  | tick now =>
    show Frugal (r.tick now).1
    unfold tick
    split
    · exact h
    · split
      · unfold closeIdle
        split
        · exact (finishRel_frugal _ h.cleared).congr rfl
        · exact h.congr rfl
      · refine maybeAck_frugal ?_
        unfold tickRel
        split
        · split
          · exact finishRel_frugal _ h.cleared
          · exact emitNacks_frugal h (missing_between hinv ‹_›) ‹_›
        · exact h

theorem frugal_run (cfg : ReceiverConfig) (start : Instant) (calls : List RecvCall) :
    Frugal (run cfg start calls).1 := by
  have h := @Machine.run_induction _ _ _ step (new cfg start)
    (fun is r evs => RecvInv is r evs ∧ Frugal r) ⟨recvInv_new cfg start, frugal_new cfg start⟩
    (fun _ _ _ c h => ⟨recvInv_step h.1 c, step_frugal h.1 h.2 c⟩) calls
  exact h.2

/-- **While the stream streams**, everything held is within its budget. -/
theorem bounded_of_streaming {calls : List RecvCall} {evs : List RecvEvent}
    (hinv : RecvInv calls r evs) (h : Frugal r) (hs : r.relState = .streaming) : Bounded r := by
  have hfits := h.fits hs
  have hlive := hinv.live hs
  have hspan : r.gaps.highest - r.gaps.contiguous ≤ r.cfg.reorderWindow := hfits.span
  have hup := hlive.caught_up
  refine ⟨?_, ?_, ?_, by rw [← hfits.bytes]; exact hfits.budget⟩
  · refine (size_set_le fun s hmem => ⟨?_, hinv.wf.ahead_le s hmem⟩).trans hspan
    exact (Nat.lt_succ_self _).trans (hinv.wf.ahead_gt s hmem)
  · have hbetween : ∀ s ∈ r.reorder, r.relReleased < s ∧ s ≤ r.gaps.highest := ?_
    · exact (size_map_le hbetween).trans (hup ▸ hspan)
    intro s hmem
    have hget := hlive.reorder_get s
    rw [Std.ExtTreeMap.mem_iff_isSome_getElem?, hget] at hmem
    split at hmem
    · exact ⟨‹_›, hinv.highest_ge s hmem⟩
    · cases hmem
  · exact (size_map_le hfits.nacks).trans (hup ▸ hspan)

/-! ## After the stream has ended -/

/-- The sequence numbers these calls deliver. -/
def delivered (calls : List RecvCall) : Finset Nat :=
  ((arrivals calls).map fun frame => frame.seq.toNat).toFinset

theorem mem_delivered {calls : List RecvCall} {s : Nat} :
    s ∈ delivered calls ↔ ∃ frame ∈ arrivals calls, frame.seq.toNat = s := by
  simp [delivered]

/-- Of the numbers delivered after a stream ended with its segment at
`c₀`, those above one that was not delivered after it. -/
def stranded (c₀ : Nat) (late : List RecvCall) : Finset Nat :=
  (delivered late).filter fun s => ∃ u ∈ Finset.Ioo c₀ s, u ∉ delivered late

/-- The call by which the reliable stream ended. -/
structure EndsWith (cfg : ReceiverConfig) (start : Instant) (before : List RecvCall)
    (c : RecvCall) : Prop where
  streaming : (run cfg start before).1.relState = .streaming
  finished : (run cfg start (before ++ [c])).1.relState = .finished

/-- A call's own delivery. -/
theorem mem_delivered_concat {calls : List RecvCall} {c : RecvCall} {s : Nat} :
    s ∈ delivered (calls ++ [c]) ↔ s ∈ delivered calls ∨ Carries c s := by
  rw [mem_delivered, mem_delivered]
  exact exists_arrival_concat.trans (or_congr_right (by simp [Carries]))

variable {cfg : ReceiverConfig} {start : Instant} {before late : List RecvCall} {c : RecvCall}

/-- When the stream ends, nothing is kept above the segment. -/
theorem EndsWith.ahead (h : EndsWith cfg start before c) :
    (run cfg start (before ++ [c])).1.gaps.ahead = ∅ := by
  have hfinished := h.finished
  rw [run_concat, Machine.andThen_fst] at hfinished ⊢
  rcases step_gaps (run cfg start before).1 c with ⟨he, -⟩ | ⟨-, -, hg⟩
  · rw [he, h.streaming] at hfinished
    cases hfinished
  · rw [hg]
    rfl

/-- From then on, the tracker knows the segment of that time and what was
delivered since. -/
theorem EndsWith.seen (h : EndsWith cfg start before c) (late : List RecvCall) :
    (run cfg start (before ++ c :: late)).1.relState = .finished
      ∧ ∀ s ≠ 0, (s ∈ (run cfg start (before ++ c :: late)).1.gaps.seen
        ↔ s ≤ (run cfg start (before ++ [c])).1.gaps.contiguous ∨ s ∈ delivered late) := by
  induction late using List.reverseRecOn with
  | nil =>
    refine ⟨h.finished, fun s h0 => ?_⟩
    rw [GapTracker.mem_seen, h.ahead, Nat.one_le_iff_ne_zero]
    simp [delivered, arrivals, h0]
  | append_singleton late d ih =>
    obtain ⟨hf, hs⟩ := ih
    have hwf := (recvInv_run cfg start (before ++ c :: late)).wf
    have happ : before ++ c :: (late ++ [d]) = (before ++ c :: late) ++ [d] := by simp
    rw [happ, run_concat, Machine.andThen_fst]
    rcases step_gaps (run cfg start (before ++ c :: late)).1 d with ⟨he, hg⟩ | ⟨he, -⟩
    · refine ⟨he.trans hf, fun s h0 => ?_⟩
      rw [hg, mem_seen_noted hwf d h0, hs s h0, mem_delivered_concat, or_assoc]
    · rw [hf] at he
      cases he

/-- **Once the stream has ended**, the tracker holds the stranded numbers. -/
theorem EndsWith.size_ahead (h : EndsWith cfg start before c) (late : List RecvCall) :
    (run cfg start (before ++ c :: late)).1.gaps.ahead.size
      = (stranded (run cfg start (before ++ [c])).1.gaps.contiguous late).card := by
  have hwf := (recvInv_run cfg start (before ++ c :: late)).wf
  have hs := (h.seen late).2
  refine size_set_eq fun s => ?_
  rw [hwf.mem_ahead_iff, stranded, Finset.mem_filter]
  constructor
  · rintro ⟨hseen, hlt⟩
    -- the first number that is missing lies below
    have hnext := hwf.next_not_mem
    have hmem := (hs s (by omega)).mp hseen
    have hne : (run cfg start (before ++ c :: late)).1.gaps.contiguous + 1 ≠ s := by
      rintro rfl
      exact hnext hseen
    rw [hs _ (Nat.succ_ne_zero _)] at hnext
    push Not at hnext
    obtain ⟨hgt, hnot⟩ := hnext
    exact ⟨hmem.resolve_left (by omega), _, Finset.mem_Ioo.mpr ⟨hgt, by omega⟩, hnot⟩
  · rintro ⟨hmem, u, hu, hnot⟩
    obtain ⟨hlo, hhi⟩ := Finset.mem_Ioo.mp hu
    refine ⟨(hs s (by omega)).mpr (Or.inr hmem), ?_⟩
    by_contra hle
    have hfilled := GapTracker.filled_seen (run cfg start (before ++ c :: late)).1.gaps u
      (by omega) (by omega)
    rcases (hs u (by omega)).mp hfilled with h1 | h1
    · omega
    · exact hnot h1

/-- A stream that is not streaming ended with some call. -/
theorem exists_endsWith {calls : List RecvCall}
    (h : (run cfg start calls).1.relState = .finished) :
    ∃ before c late, calls = before ++ c :: late ∧ EndsWith cfg start before c := by
  induction calls using List.reverseRecOn with
  | nil => cases h
  | append_singleton calls c ih =>
    cases hs : (run cfg start calls).1.relState with
    | streaming => exact ⟨calls, c, [], by simp, hs, h⟩
    | finished =>
      obtain ⟨before, d, late, rfl, hend⟩ := ih hs
      exact ⟨before, d, late ++ [c], by simp, hend⟩

/-- After the end, only the tracker can outgrow its budget. -/
theorem EndsWith.bounded_iff (h : EndsWith cfg start before c) (late : List RecvCall) :
    Bounded (run cfg start (before ++ c :: late)).1
      ↔ (stranded (run cfg start (before ++ [c])).1.gaps.contiguous late).card
        ≤ cfg.reorderWindow := by
  have hcleared := (frugal_run cfg start (before ++ c :: late)).cleared (h.seen late).1
  have hcfg := run_cfg cfg start (before ++ c :: late)
  rw [← h.size_ahead late]
  constructor
  · intro hb
    have hle := hb.ahead
    rwa [hcfg] at hle
  · intro hle
    refine ⟨hcfg.symm ▸ hle, ?_, ?_, ?_⟩
    · rw [hcleared.reorder]
      exact Nat.zero_le _
    · rw [hcleared.nacks]
      exact Nat.zero_le _
    · rw [heldBytes, hcleared.reorder, total_empty]
      exact Nat.zero_le _

/-- **Memory, exactly.** In a run, everything held is within its budget
after every call, if and only if the numbers that get stranded after the
stream ended never outnumber the window. -/
theorem memory_bounded_iff (cfg : ReceiverConfig) (start : Instant) (calls : List RecvCall) :
    (∀ before rest, calls = before ++ rest → Bounded (run cfg start before).1)
      ↔ ∀ before c late rest, calls = before ++ c :: (late ++ rest) →
        EndsWith cfg start before c →
        (stranded (run cfg start (before ++ [c])).1.gaps.contiguous late).card
          ≤ cfg.reorderWindow := by
  constructor
  · intro h before c late rest heq hend
    exact (hend.bounded_iff late).mp (h (before ++ c :: late) rest (by simpa using heq))
  · intro h before rest heq
    cases hs : (run cfg start before).1.relState with
    | streaming =>
      exact bounded_of_streaming (recvInv_run cfg start before) (frugal_run cfg start before) hs
    | finished =>
      obtain ⟨pre, c, late, rfl, hend⟩ := exists_endsWith hs
      exact (hend.bounded_iff late).mpr (h pre c late rest (by simpa using heq) hend)

/-- A receiver with room for one frame above a hole. -/
def narrowConfig : ReceiverConfig := { ReceiverConfig.audioEngine with reorderWindow := 1 }

/-- The stream stalls; then frames come in above a hole that nobody asks
to be filled any more. -/
def lateTailCalls : List RecvCall :=
  [.tick (fromSecs 6), .handle (.ofNat 2) (.data ⟨20⟩ [2]) (fromSecs 7),
    .handle (.ofNat 3) (.data ⟨40⟩ [3]) (fromSecs 7)]

/-- An abandoned stream holds two numbers where the window is one. -/
theorem abandoned_stream_grows :
    (run narrowConfig 0 lateTailCalls).1.relState = .finished
      ∧ ¬ Bounded (run narrowConfig 0 lateTailCalls).1 := by
  refine ⟨by decide +kernel, fun h => ?_⟩
  have := h.ahead
  revert this
  decide +kernel

end XferReceiver

end Protofish4
