import Protofish4.Xfer.Landing
import Protofish4.Xfer.Playback

/-!
# What is committed, and when

A stream is declared complete in the call that fills the segment up to the
end in force, whatever has arrived above that end; and the end is
acknowledged in the call by which the transfer has landed, unless the
stream had been given up before.
-/

namespace Protofish4

open Holes

namespace XferReceiver

variable {cfg : ReceiverConfig} {start : Instant} {before : List RecvCall} {c : RecvCall}
variable {f : XferSeq}

/-- The end in force after these calls: the last one announced. -/
def lastEnd (calls : List RecvCall) : Option XferSeq := calls.foldl endAfter none

theorem lastEnd_concat (calls : List RecvCall) (c : RecvCall) :
    lastEnd (calls ++ [c]) = endAfter (lastEnd calls) c := by
  simp [lastEnd]

theorem finalSeq_run (cfg : ReceiverConfig) (start : Instant) (calls : List RecvCall) :
    (run cfg start calls).1.finalSeq = lastEnd calls := by
  induction calls using List.reverseRecOn with
  | nil => rfl
  | append_singleton calls c ih =>
    rw [run_concat, Machine.andThen_fst, step_finalSeq_eq, ih, lastEnd_concat]

theorem endDeclared_of_lastEnd {calls : List RecvCall} (h : lastEnd calls = some f) :
    EndDeclared calls f := by
  induction calls using List.reverseRecOn with
  | nil => cases h
  | append_singleton calls c ih =>
    rw [lastEnd_concat] at h
    unfold endAfter at h
    split at h
    · cases h
      exact ⟨_, _, List.mem_append_right _ List.mem_cons_self⟩
    · exact (ih h).append [c]

theorem isSome_lastEnd {calls : List RecvCall} (h : EndDeclared calls f) :
    (lastEnd calls).isSome := by
  induction calls using List.reverseRecOn with
  | nil =>
    obtain ⟨seq, now, hc⟩ := h
    cases hc
  | append_singleton calls c ih =>
    rw [lastEnd_concat]
    unfold endAfter
    split
    · rfl
    · rename_i hnot
      obtain ⟨seq, now, hc⟩ := h
      rcases List.mem_append.mp hc with hc | hc
      · exact ih ⟨seq, now, hc⟩
      · exact absurd (List.mem_singleton.mp hc).symm (hnot _ _ _)

theorem mem_arrivals_concat {calls : List RecvCall} {c : RecvCall} {frame : Frame} :
    frame ∈ arrivals (calls ++ [c]) ↔ frame ∈ arrivals calls ∨ arrival c = some frame := by
  rw [arrivals, List.filterMap_append, List.mem_append]
  refine or_congr_right ?_
  cases h : arrival c <;> simp [h, eq_comm]

/-- The numbers delivered by these calls and one more. -/
theorem exists_arrival_concat {calls : List RecvCall} {c : RecvCall} {s : Nat} :
    (∃ frame ∈ arrivals (calls ++ [c]), frame.seq.toNat = s)
      ↔ (∃ frame ∈ arrivals calls, frame.seq.toNat = s) ∨ Carries c s := by
  constructor
  · rintro ⟨frame, hf, hs⟩
    rcases mem_arrivals_concat.mp hf with hf | hf
    · exact Or.inl ⟨frame, hf, hs⟩
    · exact Or.inr ⟨frame, hf, hs⟩
  · rintro (⟨frame, hf, hs⟩ | ⟨frame, hf, hs⟩)
    · exact ⟨frame, mem_arrivals_concat.mpr (Or.inl hf), hs⟩
    · exact ⟨frame, mem_arrivals_concat.mpr (Or.inr hf), hs⟩

/-- The segment a call leaves reaches a number when all up to it are seen. -/
theorem le_contiguous_noted {g : GapTracker} (h : g.WF) (c : RecvCall) (n : Nat) :
    n ≤ (noted g c).contiguous ↔ ∀ s, 1 ≤ s → s ≤ n → s ∈ g.seen ∨ Carries c s := by
  have hwf := wf_noted h c
  constructor
  · intro hn s h1 hs
    exact (mem_seen_noted h c (by omega)).mp (GapTracker.filled_seen _ s h1 (hs.trans hn))
  · intro hall
    have hfill : Filled (noted g c).seen n := fun s h1 hs =>
      (mem_seen_noted h c (by omega)).mpr (hall s h1 hs)
    exact hfill.le_of_not_mem hwf.next_not_mem

/-! ## Completeness -/

/-- The call by which a streaming transfer lands at `f`, and is checked. -/
structure Lands (cfg : ReceiverConfig) (start : Instant) (before : List RecvCall) (c : RecvCall)
    (f : XferSeq) : Prop where
  streaming : (run cfg start before).1.relState = .streaming
  checks : (run cfg start before).1.Checks c
  inForce : lastEnd (before ++ [c]) = some f
  arrived : ∀ s, 1 ≤ s → s ≤ f.toNat → ∃ frame ∈ arrivals (before ++ [c]), frame.seq.toNat = s

/-- While the stream streams, the tracker has seen what has arrived. -/
theorem reachedAfter_iff (hs : (run cfg start before).1.relState = .streaming) :
    (run cfg start before).1.ReachedAfter c f ↔ lastEnd (before ++ [c]) = some f
      ∧ ∀ s, 1 ≤ s → s ≤ f.toNat → ∃ frame ∈ arrivals (before ++ [c]), frame.seq.toNat = s := by
  have hinv := recvInv_run cfg start before
  unfold ReachedAfter
  rw [finalSeq_run, ← lastEnd_concat, le_contiguous_noted hinv.wf]
  refine and_congr_right fun _ => forall_congr' fun s => forall_congr' fun h1 => ?_
  have h0 : s ≠ 0 := by omega
  rw [exists_arrival_concat, (hinv.live hs).mem_seen, isSome_firstArrival]
  simp [h0]

theorem complete_mem_iff : .relFinished (.complete f) ∈ ((run cfg start before).1.step c).2
    ↔ Lands cfg start before c f := by
  have hinv := recvInv_run cfg start before
  rw [complete_mem_step fun hs => (hinv.live hs).unfinished]
  constructor
  · rintro ⟨hc, hs, hr⟩
    obtain ⟨h1, h2⟩ := (reachedAfter_iff hs).mp hr
    exact ⟨hs, hc, h1, h2⟩
  · rintro ⟨hs, hc, h1, h2⟩
    exact ⟨hc, hs, (reachedAfter_iff hs).mpr ⟨h1, h2⟩⟩

/-- The numbers released are `1..k`. -/
theorem map_released {calls : List RecvCall} {k : Nat}
    (h : Filled {s | (firstArrival calls s).isSome} k) :
    (released (firstArrival calls) k).map (·.seq.toNat) = List.range' 1 k := by
  induction k with
  | zero => rfl
  | succ k ih =>
    obtain ⟨frame, hf⟩ := Option.isSome_iff_exists.mp (h (k + 1) (by omega) (Nat.le_refl _))
    have hrange : List.range' 1 (k + 1) = List.range' 1 k ++ [k + 1] := by
      rw [List.range'_1_concat, Nat.add_comm 1 k]
    rw [released_add, List.map_append, ih (h.le (Nat.le_succ k)), hrange]
    simp [hf, (firstArrival_eq_some hf).2.1]

/-- Nothing is released once the stream has ended. -/
theorem reliables_append_finished {calls : List RecvCall} (more : List RecvCall)
    (h : (run cfg start calls).1.relState = .finished) :
    reliables (run cfg start (calls ++ more)).2 = reliables (run cfg start calls).2 := by
  induction more using List.reverseRecOn with
  | nil => rw [List.append_nil]
  | append_singleton more c ih =>
    have hends := step_ends (run cfg start (calls ++ more)).1 c
    rw [finished_append cfg start calls more h] at hends
    rw [← List.append_assoc, run_concat, Machine.andThen_snd, reliables_append, ih]
    generalize ((run cfg start (calls ++ more)).1.step c).1.relState = s' at hends
    cases hends with
    | quiet hsil => rw [hsil.reliables, List.append_nil]

theorem finished_of_outcome {o : RelOutcome}
    (h : .relFinished o ∈ ((run cfg start before).1.step c).2) :
    (run cfg start (before ++ [c])).1.relState = .finished := by
  obtain ⟨pre, post, hout⟩ := List.append_of_mem h
  have hends := step_ends (run cfg start before).1 c
  rw [hout] at hends
  rw [run_concat]
  exact hends.of_mem.2.1

/-- A stream that is complete at `f`, with nothing delivered above `f`, has
released exactly `1..f`. -/
theorem released_exactly {rest : List RecvCall}
    (h : .relFinished (.complete f) ∈ ((run cfg start before).1.step c).2)
    (hle : ∀ frame ∈ arrivals (before ++ [c]), frame.seq.toNat ≤ f.toNat) :
    (reliables (run cfg start (before ++ c :: rest)).2).map (·.seq.toNat)
      = List.range' 1 f.toNat := by
  have hinv := recvInv_run cfg start (before ++ [c])
  have hmem : .relFinished (.complete f) ∈ (run cfg start (before ++ [c])).2 := by
    rw [run_concat]
    exact Machine.mem_andThen.mpr (Or.inr h)
  have hsplit : before ++ c :: rest = (before ++ [c]) ++ rest := by simp
  have hfill : Filled {s | (firstArrival (before ++ [c]) s).isSome}
      (run cfg start (before ++ [c])).1.relReleased :=
    fun s h1 hk => hinv.seen s (GapTracker.filled_seen _ s h1 (hk.trans hinv.released_le))
  have hhigh : (run cfg start (before ++ [c])).1.gaps.highest ≤ f.toNat := by
    rcases hinv.highest_mem with h0 | hsome
    · omega
    · obtain ⟨-, frame, hframe, hseq⟩ := isSome_firstArrival.mp hsome
      exact hseq ▸ hle frame hframe
  have hrel : (run cfg start (before ++ [c])).1.relReleased = f.toNat := by
    have h1 := (hinv.complete f hmem).2
    have h2 := hinv.released_le
    have h3 := hinv.wf.contiguous_le
    omega
  rw [hsplit, reliables_append_finished rest (finished_of_outcome h), hinv.out, map_released hfill,
    hrel]

/-- A completeness is sound if the frames released up to it are exactly
those up to the declared end, and none above that end has been delivered. -/
def CommitsSoundly (cfg : ReceiverConfig) (start : Instant) (calls : List RecvCall) : Prop :=
  (∀ evs f rest, (run cfg start calls).2 = evs ++ .relFinished (.complete f) :: rest →
    (reliables evs).map (·.seq.toNat) = List.range' 1 f.toNat)
  ∧ ∀ before c rest f, calls = before ++ c :: rest →
    .relFinished (.complete f) ∈ ((run cfg start before).1.step c).2 →
    ∀ frame ∈ arrivals (before ++ [c]), frame.seq.toNat ≤ f.toNat

/-- **Contradictory ends, exactly.** In a run, completeness is only ever
declared of exactly the frames released, at an end no frame lies above, if
and only if no frame above the end in force has been delivered by the call
that fills the segment up to that end. -/
theorem commits_soundly_iff (cfg : ReceiverConfig) (start : Instant) (calls : List RecvCall) :
    CommitsSoundly cfg start calls ↔ ∀ before c rest f, calls = before ++ c :: rest →
      Lands cfg start before c f →
      ∀ frame ∈ arrivals (before ++ [c]), frame.seq.toNat ≤ f.toNat := by
  constructor
  · rintro ⟨-, h⟩ before c rest f heq hl
    exact h before c rest f heq (complete_mem_iff.mpr hl)
  · intro h
    refine ⟨fun evs f rest hout => ?_, fun before c rest f heq hm =>
      h before c rest f heq (complete_mem_iff.mp hm)⟩
    have hmem : .relFinished (.complete f) ∈ (run cfg start calls).2 := by simp [hout]
    obtain ⟨before, c, more, rfl, hm⟩ := (Machine.mem_run step).mp hmem
    have hexact : (reliables (run cfg start (before ++ c :: more)).2).map (·.seq.toNat)
        = List.range' 1 f.toNat :=
      released_exactly hm (h before c more f rfl (complete_mem_iff.mp hm))
    rw [← hexact, hout]
    -- nothing is released after the outcome
    have hends := (recvInv_run cfg start (before ++ c :: more)).ends
    rw [hout] at hends
    rw [reliables_of_outcome hends]

/-- Five frames arrive in order, and then an end that names the third. -/
def shortEndCalls : List RecvCall :=
  [.handle (.ofNat 1) (.data ⟨0⟩ [1]) 0, .handle (.ofNat 2) (.data ⟨20⟩ [2]) 1,
    .handle (.ofNat 3) (.data ⟨40⟩ [3]) 2, .handle (.ofNat 4) (.data ⟨60⟩ [4]) 3,
    .handle (.ofNat 5) (.data ⟨80⟩ [5]) 4, .handle (.ofNat 1) (.end (.ofNat 3)) 5]

/-- The stream is declared complete at 3 with five frames released. -/
theorem short_end_commits : ¬ CommitsSoundly .audioEngine 0 shortEndCalls := by
  intro h
  have := h.2 (shortEndCalls.take 5) (.handle (.ofNat 1) (.end (.ofNat 3)) 5) [] (.ofNat 3) rfl
    (by decide +kernel) ⟨.ofNat 5, ⟨80⟩, [5]⟩ (by decide +kernel)
  revert this
  decide

/-! ## Acknowledging the tail -/

/-- The call by which a transfer lands that had not landed before. -/
def Landing (before : List RecvCall) (c : RecvCall) (f : XferSeq) : Prop :=
  Landed (before ++ [c]) f ∧ ¬ Landed before f

/-- Nothing was acknowledged before the transfer had landed. -/
theorem endAcked_run (h : ∀ g, EndDeclared before g → g = f) (hnot : ¬ Landed before f) :
    (run cfg start before).1.endAcked = false := by
  by_contra hacked
  have hcount := (run_marks cfg start before).1
  rw [Bool.not_eq_false] at hacked
  rw [hacked] at hcount
  have hmem : .sendEndAck ∈ (run cfg start before).2 := List.count_pos_iff.mp (by
    rw [hcount]
    decide)
  obtain ⟨pre, c, rest, rfl, hm⟩ := (Machine.mem_run step).mp hmem
  obtain ⟨g, hdecl, harr⟩ := landed_of_sendEndAck cfg start pre c hm
  have happ : pre ++ c :: rest = (pre ++ [c]) ++ rest := by simp
  have hdecl' := happ ▸ hdecl.append rest
  cases h g hdecl'
  refine hnot ⟨hdecl', fun s h1 hs => ?_⟩
  obtain ⟨frame, hf, hseq⟩ := harr s h1 hs
  refine ⟨frame, ?_, hseq⟩
  rw [happ, arrivals, List.filterMap_append]
  exact List.mem_append_left _ hf

/-- What the call by which the transfer lands must find: a frame, if it
brings one, is new to a stream that still streams, and fits; and no number
up to the end was forgotten when the stream ended. -/
structure Unspoilt (cfg : ReceiverConfig) (start : Instant) (before : List RecvCall)
    (c : RecvCall) (f : XferSeq) : Prop where
  checks : ∀ frame, arrival c = some frame → (run cfg start before).1.Checks c
  kept : ∀ s, 1 ≤ s → s ≤ f.toNat → ¬ Forgotten cfg start before s ∨ Carries c s

/-- At a landing, the end is acknowledged exactly in an unspoilt receiver. -/
theorem sendEndAck_at_landing (hsame : ∀ g, EndDeclared (before ++ [c]) g → g = f)
    (hl : Landing before c f) : .sendEndAck ∈ ((run cfg start before).1.step c).2
      ↔ Unspoilt cfg start before c f := by
  have hinv := recvInv_run cfg start before
  have hacked : (run cfg start before).1.endAcked = false :=
    endAcked_run (fun g hg => hsame g (hg.append [c])) hl.2
  have hforce : lastEnd (before ++ [c]) = some f := by
    obtain ⟨g, hg⟩ := Option.isSome_iff_exists.mp (isSome_lastEnd hl.1.1)
    rw [hg, hsame g (endDeclared_of_lastEnd hg)]
  have hseen : (∃ g, (run cfg start before).1.ReachedAfter c g)
      ↔ ∀ s, 1 ≤ s → s ≤ f.toNat → ¬ Forgotten cfg start before s ∨ Carries c s := by
    have hall : ∀ s, 1 ≤ s → s ≤ f.toNat →
        (s ∈ (run cfg start before).1.gaps.seen ∨ Carries c s
          ↔ ¬ Forgotten cfg start before s ∨ Carries c s) := by
      intro s h1 hs
      have h0 : s ≠ 0 := by omega
      rw [mem_seen_run cfg start before h0, isSome_firstArrival]
      have harr := exists_arrival_concat.mp (hl.1.2 s h1 hs)
      constructor
      · rintro (⟨-, hnot⟩ | hc)
        · exact Or.inl hnot
        · exact Or.inr hc
      · rintro (hnot | hc)
        · exact harr.imp_left fun hf => ⟨⟨h0, hf⟩, hnot⟩
        · exact Or.inr hc
    unfold ReachedAfter
    rw [finalSeq_run, ← lastEnd_concat, hforce]
    simp only [Option.some.injEq, exists_eq_left', le_contiguous_noted hinv.wf]
    exact forall_congr' fun s => forall_congr' fun h1 => forall_congr' fun hs => hall s h1 hs
  rw [sendEndAck_mem_step, hseen]
  constructor
  · rintro ⟨hc, -, hk⟩
    exact ⟨fun _ _ => hc, hk⟩
  · rintro ⟨hc, hk⟩
    refine ⟨?_, hacked, hk⟩
    cases ha : arrival c with
    | some frame => exact hc frame ha
    | none =>
      -- without a frame, it is the announcement that was missing
      have hold : ∀ s, 1 ≤ s → s ≤ f.toNat → ∃ frame ∈ arrivals before, frame.seq.toNat = s := by
        intro s h1 hs
        rcases exists_arrival_concat.mp (hl.1.2 s h1 hs) with h | ⟨frame, hf, -⟩
        · exact h
        · rw [ha] at hf
          cases hf
      obtain ⟨seq, now, hd⟩ := hl.1.1
      rcases List.mem_append.mp hd with hd | hd
      · exact absurd ⟨⟨seq, now, hd⟩, hold⟩ hl.2
      · cases List.mem_singleton.mp hd
        trivial

/-- **The tail, exactly.** In a run whose ends all agree, every call by
which the transfer lands acknowledges the end, if and only if it always
finds an unspoilt receiver. -/
theorem tail_acknowledged_iff (cfg : ReceiverConfig) (start : Instant) (calls : List RecvCall)
    (f : XferSeq) (h : ∀ g, EndDeclared calls g → g = f) :
    (∀ before c rest, calls = before ++ c :: rest → Landing before c f →
        .sendEndAck ∈ ((run cfg start before).1.step c).2)
      ↔ ∀ before c rest, calls = before ++ c :: rest → Landing before c f →
        Unspoilt cfg start before c f := by
  refine forall_congr' fun before => forall_congr' fun c => forall_congr' fun rest =>
    forall_congr' fun heq => forall_congr' fun hl => sendEndAck_at_landing (fun g hg => ?_) hl
  refine h g ?_
  have := hg.append rest
  rwa [List.append_assoc, List.singleton_append, ← heq] at this

/-- Frame 2 arrives while frame 1 is missing, and is forgotten when the
stream stalls; then frame 1 and the end come in. -/
def stalledTailCalls : List RecvCall :=
  [.handle (.ofNat 2) (.data ⟨20⟩ [2]) 0, .tick (fromSecs 6),
    .handle (.ofNat 1) (.data ⟨0⟩ [1]) (fromSecs 7),
    .handle (.ofNat 1) (.end (.ofNat 2)) (fromSecs 8)]

/-- Both frames and the end have been handled, on a receiver that is still
open, and the end is not acknowledged. -/
theorem stalled_tail_unacknowledged :
    let c : RecvCall := .handle (.ofNat 1) (.end (.ofNat 2)) (fromSecs 8)
    stalledTailCalls = stalledTailCalls.take 3 ++ [c]
      ∧ Landing (stalledTailCalls.take 3) c (.ofNat 2)
      ∧ (run .audioEngine 0 stalledTailCalls).1.closed = false
      ∧ .sendEndAck ∉ ((run .audioEngine 0 (stalledTailCalls.take 3)).1.step c).2 := by
  refine ⟨rfl, ⟨⟨⟨.ofNat 1, fromSecs 8, by decide⟩, fun s h1 hs => ?_⟩, ?_⟩, by decide +kernel,
    by decide +kernel⟩
  · change s ≤ 2 at hs
    interval_cases s
    · exact ⟨⟨.ofNat 1, ⟨0⟩, [1]⟩, by decide, rfl⟩
    · exact ⟨⟨.ofNat 2, ⟨20⟩, [2]⟩, by decide, rfl⟩
  · rintro ⟨⟨seq, now, hd⟩, -⟩
    simp [stalledTailCalls] at hd

/-- Frame 2 and the end come first; of the hole frame 3 is filled, frame 2
comes again, and then frame 1. -/
def holeCalls : List RecvCall :=
  [.handle (.ofNat 2) (.data ⟨20⟩ [2]) 0, .handle (.ofNat 1) (.end (.ofNat 3)) (fromMillis 10),
    .tick (fromMillis 100), .handle (.ofNat 3) (.data ⟨40⟩ [3]) (fromMillis 120),
    .handle (.ofNat 2) (.data ⟨20⟩ [2]) (fromMillis 130),
    .handle (.ofNat 1) (.data ⟨0⟩ [1]) (fromMillis 140)]

/-- The last of them lands the transfer, and the end is acknowledged. -/
theorem tail_acknowledged_iff_hole :
    .sendEndAck ∈ ((run .audioEngine 0 (holeCalls.take 5)).1.step
      (.handle (.ofNat 1) (.data ⟨0⟩ [1]) (fromMillis 140))).2 := by
  have hopen : ∀ n ≤ 5, ∀ frame ∈ arrivals (holeCalls.take n), frame.seq.toNat ≠ 1 := by decide
  have hlanding : Landing (holeCalls.take 5) (.handle (.ofNat 1) (.data ⟨0⟩ [1]) (fromMillis 140))
      (.ofNat 3) := by
    refine ⟨⟨⟨.ofNat 1, fromMillis 10, by decide⟩, fun s h1 hs => ?_⟩, ?_⟩
    · change s ≤ 3 at hs
      interval_cases s
      · exact ⟨⟨.ofNat 1, ⟨0⟩, [1]⟩, by decide, rfl⟩
      · exact ⟨⟨.ofNat 2, ⟨20⟩, [2]⟩, by decide, rfl⟩
      · exact ⟨⟨.ofNat 3, ⟨40⟩, [3]⟩, by decide, rfl⟩
    · rintro ⟨-, hall⟩
      obtain ⟨frame, hf, heq⟩ := hall 1 (by decide) (by decide)
      exact hopen 5 (by decide) frame hf heq
  refine (tail_acknowledged_iff .audioEngine 0 holeCalls (.ofNat 3) ?_).mpr ?_
    (holeCalls.take 5) _ [] rfl hlanding
  · rintro g ⟨seq, now, hd⟩
    simp only [holeCalls, List.mem_cons, List.not_mem_nil, or_false, RecvCall.handle.injEq,
      reduceCtorEq, and_false, false_and, false_or, Body.end.injEq] at hd
    exact hd.2.1
  · intro before c rest heq hl
    have hlen := congrArg List.length heq
    rw [List.length_append, List.length_cons] at hlen
    change 6 = _ at hlen
    cases rest with
    | nil =>
      have hsplit : holeCalls.take 5
          ++ [.handle (.ofNat 1) (.data ⟨0⟩ [1]) (fromMillis 140)] = before ++ [c] := heq
      obtain ⟨rfl, hc⟩ := List.append_inj' hsplit rfl
      cases hc
      refine ⟨fun _ _ => ⟨by decide +kernel, by decide +kernel, by decide +kernel⟩,
        fun s _ _ => Or.inl fun hforg => ?_⟩
      exact absurd hforg.finished (by decide +kernel)
    | cons c' rest =>
      -- frame 1 is still missing then
      rw [List.length_cons] at hlen
      have htake : holeCalls.take (before.length + 1) = before ++ [c] := by
        rw [heq, List.append_cons, List.take_left' (by simp)]
      obtain ⟨frame, hf, hseq⟩ := hl.1.2 1 (by decide) (by decide)
      exact absurd hseq (hopen (before.length + 1) (by omega) frame (htake ▸ hf))

end XferReceiver

end Protofish4
