import Protofish4.Lib.Machine
import Protofish4.Xfer.GapTracker

/-!
# GapTracker as a set of arrivals

A segment, an upper set and a highest number stand for one finite set of
numbers. Recording puts a nonzero number into it, and whatever the tracker
is asked is a question about the set.
-/

namespace Protofish4

open Holes

/-! ## The set -/

namespace ArrivalSet

/-- Put a number in; the flag tells whether it is nonzero and new. -/
def record (R : Finset ℕ) (seq : XferSeq) : Finset ℕ × List Bool :=
  if seq.toNat = 0 ∨ seq.toNat ∈ R then (R, [false]) else (insert seq.toNat R, [true])

/-- The nonzero numbers recorded. -/
def recorded (values : List XferSeq) : Finset ℕ := (values.map XferSeq.toNat).toFinset.erase 0

theorem recorded_concat (values : List XferSeq) (seq : XferSeq) :
    recorded (values ++ [seq]) = (record (recorded values) seq).1 := by
  ext s
  unfold record
  split
  · rename_i hold
    simp only [recorded, Finset.mem_erase, List.mem_toFinset, List.map_append, List.mem_append,
      List.map_cons, List.map_nil, List.mem_singleton]
    refine and_congr_right fun h0 => or_iff_left_of_imp ?_
    rintro rfl
    exact List.mem_toFinset.mp (Finset.mem_of_mem_erase (hold.resolve_left h0))
  · rename_i hnew
    simp only [recorded, Finset.mem_erase, List.mem_toFinset, List.map_append, List.mem_append,
      List.map_cons, List.map_nil, List.mem_singleton, Finset.mem_insert]
    constructor
    · rintro ⟨h0, hs | rfl⟩
      · exact Or.inr ⟨h0, hs⟩
      · exact Or.inl rfl
    · rintro (rfl | ⟨h0, hs⟩)
      · exact ⟨fun h0 => hnew (Or.inl h0), Or.inr rfl⟩
      · exact ⟨h0, Or.inl hs⟩

/-- The set after recording all of them. -/
theorem run_fst (values : List XferSeq) :
    (Machine.run record ∅ values).1 = recorded values := by
  induction values using List.reverseRecOn with
  | nil => rfl
  | append_singleton values seq ih => rw [Machine.run_concat, Machine.andThen_fst, ih,
      recorded_concat]

end ArrivalSet

namespace GapTracker

/-! ## The tracker stands for the set -/

/-- The tracker has seen just the numbers of `R`. -/
structure Refines (g : GapTracker) (R : Finset ℕ) : Prop where
  wf : g.WF
  seen : ∀ s, s ∈ g.seen ↔ s ∈ R
  highest : g.highest = R.sup id

variable {g : GapTracker} {R : Finset ℕ}

theorem refines_new : Refines new ∅ where
  wf := wf_new
  seen s := by simp
  highest := rfl

/-- One call, with its flag as output. -/
def call (g : GapTracker) (seq : XferSeq) : GapTracker × List Bool :=
  ((g.record seq).1, [(g.record seq).2])

theorem Refines.call (h : Refines g R) (seq : XferSeq) :
    Refines (g.call seq).1 (ArrivalSet.record R seq).1
      ∧ (g.call seq).2 = (ArrivalSet.record R seq).2 := by
  unfold GapTracker.call ArrivalSet.record
  by_cases hold : seq.toNat = 0 ∨ seq.toNat ∈ R
  · rw [if_pos hold, record_stale (hold.imp_right (h.seen _).mpr)]
    exact ⟨h, rfl⟩
  · rw [if_neg hold]
    push Not at hold
    obtain ⟨hflag, hwf, hseen, hhigh, -⟩ :=
      record_fresh h.wf hold.1 fun hs => hold.2 ((h.seen _).mp hs)
    refine ⟨⟨hwf, fun s => ?_, ?_⟩, by rw [hflag]⟩
    · rw [hseen, h.seen, Finset.mem_insert, or_comm]
    · rw [hhigh, h.highest, Finset.sup_insert, max_comm]
      rfl

/-- The tracker and its answers after these calls. -/
def run (values : List XferSeq) : GapTracker × List Bool := Machine.run call new values

theorem run_refines (values : List XferSeq) :
    Refines (run values).1 (ArrivalSet.recorded values)
      ∧ (run values).2 = (Machine.run ArrivalSet.record ∅ values).2 := by
  rw [← ArrivalSet.run_fst]
  exact Machine.run_refines Refines refines_new (fun _ _ seq h => h.call seq) values

/-! ## What the tracker answers -/

namespace Refines

theorem highest_mem (h : Refines g R) : g.highest = 0 ∨ g.highest ∈ g.seen := by
  rcases R.eq_empty_or_nonempty with rfl | hne
  · exact Or.inl h.highest
  · obtain ⟨s, hs, heq⟩ := Finset.exists_mem_eq_sup R hne id
    exact Or.inr ((h.seen _).mpr (h.highest.trans heq ▸ hs))

theorem filled_iff (h : Refines g R) {c : ℕ} : Filled (R : Set ℕ) c ↔ Filled g.seen c :=
  forall_congr' fun s => imp_congr_right fun _ => imp_congr_right fun _ =>
    Finset.mem_coe.trans (h.seen s).symm

/-- The segment is the longest there is. -/
theorem contiguous_isGreatest (h : Refines g R) :
    IsGreatest {c | Filled (R : Set ℕ) c} g.contiguous := by
  constructor
  · exact h.filled_iff.mpr (filled_seen g)
  · intro c hc
    exact (h.filled_iff.mp hc).le_of_not_mem h.wf.next_not_mem

/-- Below `highest` is up to `highest`: that one has arrived. -/
theorem missing_eq (h : Refines g R) (limit : ℕ) :
    g.missing limit = ((List.range' 1 (g.highest - 1)).filter (· ∉ R)).take limit := by
  rw [h.wf.missing_eq h.highest_mem limit (fun s => decide (s ∈ R)) fun s => by
    rw [decide_eq_true_iff, h.seen]]
  congr 1
  have hnot : ∀ l : List ℕ, l.filter (fun s => !decide (s ∈ R)) = l.filter (· ∉ R) :=
    fun l => List.filter_congr fun s _ => by simp
  rw [hnot]
  rcases h.highest_mem with h0 | hmem
  · rw [h0]
  · have hpos := hmem.1
    have hin := (h.seen _).mp hmem
    conv_lhs => rw [show g.highest = g.highest - 1 + 1 by omega, List.range'_1_concat,
      show 1 + (g.highest - 1) = g.highest by omega]
    simp [List.filter_append, hin]

end Refines

/-- What a tracker tells of the set of arrivals. -/
structure Answers (g : GapTracker) (R : Finset ℕ) : Prop where
  fresh : ∀ seq, (g.record seq).2 = true ↔ seq.toNat ≠ 0 ∧ seq.toNat ∉ R
  contiguous : IsGreatest {c | Filled (R : Set ℕ) c} g.contiguous
  ahead : ∀ s, s ∈ g.ahead ↔ s ∈ R ∧ g.contiguous < s
  highest : g.highest = R.sup id
  complete : ∀ finalSeq, g.isComplete finalSeq = true ↔ Filled (R : Set ℕ) finalSeq.toNat
  missing : ∀ limit,
    g.missing limit = ((List.range' 1 (g.highest - 1)).filter (· ∉ R)).take limit

theorem Refines.answers (h : Refines g R) : Answers g R where
  fresh seq := by rw [record_flag_iff h.wf, h.seen]
  contiguous := h.contiguous_isGreatest
  ahead s := by rw [h.wf.mem_ahead_iff, h.seen]
  highest := h.highest
  complete finalSeq := by rw [h.wf.isComplete_iff, h.filled_iff]
  missing := h.missing_eq

/-- **The tracker is the set of arrivals.** After any calls, the flags
returned are those of the set, and whatever the tracker is asked it answers
as the set of the nonzero numbers recorded does. -/
theorem tracks_arrivals (values : List XferSeq) :
    (run values).2 = (Machine.run ArrivalSet.record ∅ values).2
      ∧ Answers (run values).1 (ArrivalSet.recorded values) :=
  ⟨(run_refines values).2, (run_refines values).1.answers⟩

example : (run [.ofNat 5, .ofNat 1, .ofNat 0, .ofNat 5, .ofNat 2]).1.missing 8 = [3, 4] := by
  decide +kernel

end GapTracker

end Protofish4
