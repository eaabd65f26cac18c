import Protofish4.Xfer.Reliable

/-!
# Runs of a receiver

A run is a list of calls on a new receiver; `XferReceiver.run` gives the
state it leads to and all the events it returned. `RecvInv` is the
invariant of every run, relating state and events to the calls: what has
arrived, what has been released, how the reliable stream ended.
-/

namespace Protofish4

open Holes

namespace XferReceiver

/-- The run of a new receiver. -/
def run (cfg : ReceiverConfig) (start : Instant) (calls : List RecvCall) :
    XferReceiver × List RecvEvent :=
  Machine.run step (new cfg start) calls

/-! ## The history of a run -/

/-- The data frames delivered by these calls. -/
def arrivals (calls : List RecvCall) : List Frame := calls.filterMap arrival

/-- The first frame delivered under a sequence number. Zero is none. -/
def firstArrival (calls : List RecvCall) (s : Nat) : Option Frame :=
  if s = 0 then none else (arrivals calls).find? fun frame => frame.seq.toNat = s

@[simp] theorem firstArrival_nil (s : Nat) : firstArrival [] s = none := by
  simp [firstArrival, arrivals]

theorem firstArrival_concat (calls : List RecvCall) (c : RecvCall) :
    firstArrival (calls ++ [c]) = after (firstArrival calls) c := by
  funext s
  unfold after
  cases ha : arrival c with
  | none => simp [firstArrival, arrivals, ha]
  | some frame =>
    by_cases h0 : s = 0
    · simp [firstArrival, extend, h0]
    · simp only [firstArrival, arrivals, List.filterMap_append, List.filterMap_cons, ha,
        List.filterMap_nil, List.find?_append, extend, h0, if_false, ne_eq, not_false_eq_true,
        true_and]
      cases hf : (calls.filterMap arrival).find? fun frame => frame.seq.toNat = s with
      | some first => simp
      | none => by_cases heq : frame.seq.toNat = s <;> simp [List.find?, heq]

theorem firstArrival_eq_some {calls : List RecvCall} {s : Nat} {frame : Frame}
    (h : firstArrival calls s = some frame) :
    frame ∈ arrivals calls ∧ frame.seq.toNat = s ∧ s ≠ 0 := by
  unfold firstArrival at h
  split at h
  · cases h
  · exact ⟨List.mem_of_find?_eq_some h, by simpa using List.find?_some h, ‹_›⟩

theorem mem_arrivals {calls : List RecvCall} {frame : Frame} :
    frame ∈ arrivals calls
      ↔ ∃ now, .handle frame.seq (.data frame.ts frame.payload) now ∈ calls := by
  simp only [arrivals, List.mem_filterMap]
  constructor
  · rintro ⟨c, hc, ha⟩
    unfold arrival at ha
    split at ha
    · cases ha
      exact ⟨_, hc⟩
    · cases ha
  · rintro ⟨now, hc⟩
    exact ⟨_, hc, rfl⟩

theorem run_concat (cfg : ReceiverConfig) (start : Instant) (calls : List RecvCall)
    (c : RecvCall) : run cfg start (calls ++ [c])
      = Machine.andThen (run cfg start calls) fun r => r.step c :=
  Machine.run_concat step _ _ _

theorem isSome_firstArrival {calls : List RecvCall} {s : Nat} :
    (firstArrival calls s).isSome ↔ s ≠ 0 ∧ ∃ frame ∈ arrivals calls, frame.seq.toNat = s := by
  unfold firstArrival
  split
  · simp [*]
  · simp [List.find?_isSome, *]

/-- Some call announced the end at `f`. -/
def EndDeclared (calls : List RecvCall) (f : XferSeq) : Prop :=
  ∃ seq now, .handle seq (.end f) now ∈ calls

theorem EndDeclared.append {calls : List RecvCall} {f : XferSeq} (h : EndDeclared calls f)
    (more : List RecvCall) : EndDeclared (calls ++ more) f := by
  obtain ⟨seq, now, hc⟩ := h
  exact ⟨seq, now, List.mem_append_left _ hc⟩

/-! ## What one call does to the tracker -/

/-- The tracker once the call's arrival is recorded. -/
def noted (g : GapTracker) (c : RecvCall) : GapTracker :=
  match arrival c with
  | none => g
  | some frame => (g.record frame.seq).1

/-- **The tracker in one call**: the arrival is recorded; if the reliable
stream ends in this call, the arrivals above the segment are forgotten. -/
theorem step_gaps (r : XferReceiver) (c : RecvCall) :
    ((r.step c).1.relState = r.relState ∧ (r.step c).1.gaps = noted r.gaps c)
      ∨ r.relState = .streaming ∧ (r.step c).1.relState = .finished
        ∧ (r.step c).1.gaps = (noted r.gaps c).abandon := by
  have hstate : (r.told c).relState = r.relState := by
    cases c with
    | handle seq body now => cases body <;> rfl
    | tick | setBufferedMs => rfl
  have hgaps : (r.told c).gaps = noted r.gaps c := by
    cases c with
    | handle seq body now => cases body <;> rfl
    | tick | setBufferedMs => rfl
  have h := (step_keeps r c).gaps
  rwa [hstate, hgaps] at h

/-- The announced end once the call is made: the last one counts. -/
def endAfter (e : Option XferSeq) : RecvCall → Option XferSeq
  | .handle _ (.end f) _ => some f
  | _ => e

theorem step_finalSeq_eq (r : XferReceiver) (c : RecvCall) :
    (r.step c).1.finalSeq = endAfter r.finalSeq c := by
  have htold : (r.told c).finalSeq = endAfter r.finalSeq c := by
    cases c with
    | handle seq body now => cases body <;> rfl
    | tick | setBufferedMs => rfl
  exact (step_keeps r c).finalSeq.trans htold

/-- The announced end after one call. -/
theorem step_finalSeq (r : XferReceiver) (c : RecvCall) (f : XferSeq)
    (h : (r.step c).1.finalSeq = some f) :
    r.finalSeq = some f ∨ ∃ seq now, c = .handle seq (.end f) now := by
  rw [step_finalSeq_eq] at h
  unfold endAfter at h
  split at h
  · cases h
    exact Or.inr ⟨_, _, rfl⟩
  · exact Or.inl h

theorem step_cfg (r : XferReceiver) (c : RecvCall) : (r.step c).1.cfg = r.cfg := by
  have htold : (r.told c).cfg = r.cfg := by
    cases c with
    | handle seq body now => cases body <;> rfl
    | tick | setBufferedMs => rfl
  exact (step_keeps r c).cfg.trans htold

/-- No call changes the configuration. -/
@[simp] theorem run_cfg (cfg : ReceiverConfig) (start : Instant) (calls : List RecvCall) :
    (run cfg start calls).1.cfg = cfg :=
  Machine.run_invariant step (fun r => r.cfg = cfg) rfl
    (fun r c h => (step_cfg r c).trans h) calls

theorem wf_noted {g : GapTracker} (h : g.WF) (c : RecvCall) : (noted g c).WF := by
  unfold noted
  split
  · exact h
  · exact GapTracker.wf_record h _

theorem contiguous_le_noted {g : GapTracker} (h : g.WF) (c : RecvCall) :
    g.contiguous ≤ (noted g c).contiguous := by
  unfold noted
  split
  · exact Nat.le_refl _
  · exact GapTracker.contiguous_le_record h _

theorem step_wf {r : XferReceiver} (h : r.gaps.WF) (c : RecvCall) : (r.step c).1.gaps.WF := by
  rcases step_gaps r c with ⟨-, hg⟩ | ⟨-, -, hg⟩ <;> rw [hg]
  · exact wf_noted h c
  · exact (wf_noted h c).abandon

/-- The contiguous segment never shrinks. -/
theorem contiguous_le_step {r : XferReceiver} (h : r.gaps.WF) (c : RecvCall) :
    r.gaps.contiguous ≤ (r.step c).1.gaps.contiguous := by
  rcases step_gaps r c with ⟨-, hg⟩ | ⟨-, -, hg⟩ <;> rw [hg]
  · exact contiguous_le_noted h c
  · exact contiguous_le_noted h c

theorem highest_step {r : XferReceiver} (h : r.gaps.WF) (c : RecvCall) :
    (r.step c).1.gaps.highest
      = match arrival c with
        | none => r.gaps.highest
        | some frame => max r.gaps.highest frame.seq.toNat := by
  have hnoted : (noted r.gaps c).highest = match arrival c with
      | none => r.gaps.highest
      | some frame => max r.gaps.highest frame.seq.toNat := by
    unfold noted
    split
    · rfl
    · exact GapTracker.highest_record h _
  rcases step_gaps r c with ⟨-, hg⟩ | ⟨-, -, hg⟩ <;> rw [hg]
  · exact hnoted
  · exact hnoted

theorem seen_noted {g : GapTracker} (h : g.WF) {hist : Nat → Option Frame}
    (hsub : ∀ s ∈ g.seen, (hist s).isSome) (c : RecvCall) :
    ∀ s ∈ (noted g c).seen, (after hist c s).isSome := by
  unfold noted after
  cases arrival c with
  | none => exact hsub
  | some frame =>
    intro s hs
    rw [isSome_extend]
    rcases (GapTracker.mem_seen_record h _ s).mp hs with hs | hs
    · exact Or.inl (hsub s hs)
    · exact Or.inr hs

/-! ## The invariant of every run -/

structure RecvInv (calls : List RecvCall) (r : XferReceiver) (evs : List RecvEvent) : Prop where
  wf : r.gaps.WF
  seen : ∀ s ∈ r.gaps.seen, (firstArrival calls s).isSome
  highest_ge : ∀ s, (firstArrival calls s).isSome → s ≤ r.gaps.highest
  highest_mem : r.gaps.highest = 0 ∨ (firstArrival calls r.gaps.highest).isSome
  live : r.relState = .streaming → Live (firstArrival calls) r
  ends : Ends .streaming r.relState evs
  released_le : r.relReleased ≤ r.gaps.contiguous
  out : reliables evs = released (firstArrival calls) r.relReleased
  final : ∀ f, r.finalSeq = some f → EndDeclared calls f
  complete : ∀ f, .relFinished (.complete f) ∈ evs →
    EndDeclared calls f ∧ f.toNat ≤ r.relReleased

theorem recvInv_new (cfg : ReceiverConfig) (start : Instant) :
    RecvInv [] (new cfg start) [] where
  wf := GapTracker.wf_new
  seen s hs := by
    change s ∈ GapTracker.new.seen at hs
    simp at hs
  highest_ge s hs := by simp at hs
  highest_mem := Or.inl rfl
  live _ :=
    { wf := GapTracker.wf_new
      mem_seen := fun s => by
        show s ∈ GapTracker.new.seen ↔ _
        simp
      released_le := Nat.le_refl _
      reorder_get := fun s => by
        show (∅ : Std.ExtTreeMap Nat Frame)[s]? = _
        simp
      caught_up := rfl
      not_acked := rfl
      not_closed := rfl
      unfinished := fun f hf => by cases hf
      lost_le := Nat.le_refl _ }
  ends := Ends.nil _
  released_le := Nat.le_refl _
  out := rfl
  final f hf := by cases hf
  complete f hf := by cases hf

/-- What is released of a history does not depend on what comes later. -/
theorem released_after {hist : Nat → Option Frame} {g : GapTracker} {n : Nat}
    (hsub : ∀ s ∈ g.seen, (hist s).isSome) (hn : n ≤ g.contiguous) (c : RecvCall) :
    released (after hist c) n = released hist n :=
  released_congr fun s h1 h2 =>
    after_of_isSome (hsub s (GapTracker.filled_seen g s h1 (h2.trans hn)))

theorem recvInv_step {calls : List RecvCall} {r : XferReceiver} {evs : List RecvEvent}
    (h : RecvInv calls r evs) (c : RecvCall) :
    RecvInv (calls ++ [c]) (r.step c).1 (evs ++ (r.step c).2) := by
  have hd := step_delivers h.wf h.live c
  -- declaring a gap lost only takes numbers out of the set
  have hseen : ∀ s ∈ (r.step c).1.gaps.seen, (after (firstArrival calls) c s).isSome := by
    intro s hs
    rcases step_gaps r c with ⟨-, hg⟩ | ⟨-, -, hg⟩ <;> rw [hg] at hs
    · exact seen_noted h.wf h.seen c s hs
    · exact seen_noted h.wf h.seen c s (GapTracker.mem_seen_abandon.mp hs).1
  have hfinal : ∀ f, (r.step c).1.finalSeq = some f → EndDeclared (calls ++ [c]) f := by
    intro f hf
    rcases step_finalSeq r c f hf with hf | ⟨seq, now, rfl⟩
    · exact (h.final f hf).append _
    · exact ⟨seq, now, by simp⟩
  refine ⟨step_wf h.wf c, ?_, ?_, ?_, ?_, h.ends.append (step_ends r c), hd.le h.released_le, ?_,
    hfinal, ?_⟩ <;> try rw [firstArrival_concat]
  · exact hseen
  · intro s hs
    rw [highest_step h.wf]
    unfold after at hs
    cases ha : arrival c with
    | none =>
      rw [ha] at hs
      exact h.highest_ge s hs
    | some frame =>
      rw [ha] at hs
      rcases isSome_extend.mp hs with hs | ⟨rfl, -⟩
      · exact (h.highest_ge s hs).trans (Nat.le_max_left _ _)
      · exact Nat.le_max_right _ _
  · rw [highest_step h.wf]
    unfold after
    cases ha : arrival c with
    | none => exact h.highest_mem
    | some frame =>
      simp only [isSome_extend]
      rcases Nat.le_total frame.seq.toNat r.gaps.highest with hle | hle
      · rw [Nat.max_eq_left hle]
        exact h.highest_mem.imp_right Or.inl
      · rw [Nat.max_eq_right hle]
        by_cases h0 : frame.seq.toNat = 0
        · exact Or.inl h0
        · exact Or.inr (Or.inr ⟨rfl, h0⟩)
  · exact step_live h.live c
  · rw [reliables_append, h.out, hd.out, released_after h.seen h.released_le]
  · intro f hf
    rcases List.mem_append.mp hf with hf | hf
    · obtain ⟨h1, h2⟩ := h.complete f hf
      exact ⟨h1.append _, h2.trans hd.mono⟩
    · obtain ⟨h1, h2⟩ := hd.complete f hf
      exact ⟨hfinal f h1, h2⟩

/-- **Every run** satisfies the invariant. -/
theorem recvInv_run (cfg : ReceiverConfig) (start : Instant) (calls : List RecvCall) :
    RecvInv calls (run cfg start calls).1 (run cfg start calls).2 :=
  Machine.run_induction step RecvInv (recvInv_new cfg start)
    (fun _ _ _ c h => recvInv_step h c) calls

/-! ## Consequences -/

/-- Once the outcome is out, the reliable frames before it are all there
will be. -/
theorem reliables_of_outcome {s : RelState} {pre post : List RecvEvent} {o : RelOutcome}
    (h : Ends .streaming s (pre ++ .relFinished o :: post)) :
    reliables (pre ++ .relFinished o :: post) = reliables pre := by
  obtain ⟨-, -, -, hpost⟩ := h.of_mem
  rw [reliables_append]
  have : reliables (.relFinished o :: post) = [] := hpost.reliables
  rw [this, List.append_nil]

end XferReceiver

end Protofish4
