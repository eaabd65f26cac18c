import Protofish4.Types
import Protofish4.Lib.Holes

/-!
# GapTracker

`xfer/gap_tracker.rs`: which transfer sequence numbers have arrived, as a
contiguous segment plus the set of everything above it. `seen` reads the
two fields as one set of arrivals; `WF` is what every tracker satisfies,
also after `abandon` has dropped the upper part.

A `u32` addition that could overflow is written with `wrap32`; it only
does so at the last sequence number, where nothing is left to find.
-/

namespace Protofish4

open Std (ExtTreeSet)
open Holes

/-- The value a `u32` computation leaves. -/
def wrap32 (n : Nat) : Nat := n % 2 ^ 32

theorem wrap32_of_lt {n : Nat} (h : n < 2 ^ 32) : wrap32 n = n := Nat.mod_eq_of_lt h

structure GapTracker where
  /-- Everything up to and including this has arrived. -/
  contiguous : Nat
  /-- Arrived, but above the segment. -/
  ahead : ExtTreeSet Nat
  /-- Highest sequence number seen at all. -/
  highest : Nat

namespace GapTracker

def new : GapTracker := { contiguous := 0, ahead := ∅, highest := 0 }

/-- `while self.ahead.remove(&(self.contiguous + 1)) { self.contiguous += 1 }`,
at most `fuel` rounds; each round shrinks `ahead`. -/
def absorb : Nat → GapTracker → GapTracker
  | 0, g => g
  | fuel + 1, g =>
    let next := wrap32 (g.contiguous + 1)
    if next ∈ g.ahead then
      absorb fuel { g with contiguous := next, ahead := g.ahead.erase next }
    else g

/-- Record an arrival. The flag is `false` for a duplicate. -/
def record (g : GapTracker) (seq : XferSeq) : GapTracker × Bool :=
  let s := seq.toNat
  if s = 0 ∨ s ≤ g.contiguous then (g, false)
  else if s ∈ g.ahead then (g, false)
  else
    let g := { g with
      ahead := g.ahead.insert s
      highest := if s > g.highest then s else g.highest }
    (absorb g.ahead.size g, true)

def isComplete (g : GapTracker) (finalSeq : XferSeq) : Bool :=
  finalSeq.toNat ≤ g.contiguous

/-- `while expect < have && out.len() < limit`, with `n = have - expect`
rounds left. -/
def fillGap (limit : Nat) : Nat → Nat → List Nat → List Nat
  | 0, _, out => out
  | n + 1, expect, out =>
    if out.length < limit then fillGap limit n (expect + 1) (out ++ [expect]) else out

/-- The `for &have in &self.ahead` loop of `missing`. -/
def missingLoop (limit : Nat) : List Nat → Nat → List Nat → List Nat
  | [], _, out => out
  | have_ :: rest, expect, out =>
    let out := fillGap limit (have_ - expect) expect out
    if out.length ≥ limit then out else missingLoop limit rest (wrap32 (have_ + 1)) out

/-- Sequence numbers between the segment and the highest arrival, at most
`limit` of them. -/
def missing (g : GapTracker) (limit : Nat) : List Nat :=
  missingLoop limit g.ahead.toList (wrap32 (g.contiguous + 1)) []

def windowSpan (g : GapTracker) : Nat := g.highest - g.contiguous

def abandon (g : GapTracker) : GapTracker := { g with ahead := ∅ }

/-! ## The tracker as a set of arrivals -/

/-- The arrivals a tracker stands for. -/
def seen (g : GapTracker) : Set Nat := {s | 1 ≤ s ∧ (s ≤ g.contiguous ∨ s ∈ g.ahead)}

theorem mem_seen {g : GapTracker} {s : Nat} :
    s ∈ g.seen ↔ 1 ≤ s ∧ (s ≤ g.contiguous ∨ s ∈ g.ahead) := Iff.rfl

instance (g : GapTracker) (s : Nat) : Decidable (s ∈ g.seen) :=
  inferInstanceAs (Decidable (1 ≤ s ∧ (s ≤ g.contiguous ∨ s ∈ g.ahead)))

/-- What every tracker satisfies: the segment is maximal, nothing lies
above `highest`, everything is a `u32`. -/
structure WF (g : GapTracker) : Prop where
  ahead_gt : ∀ s ∈ g.ahead, g.contiguous + 1 < s
  ahead_le : ∀ s ∈ g.ahead, s ≤ g.highest
  contiguous_le : g.contiguous ≤ g.highest
  bound : g.highest < 2 ^ 32

theorem wf_new : new.WF where
  ahead_gt _ hs := by simp [new] at hs
  ahead_le _ hs := by simp [new] at hs
  contiguous_le := Nat.le_refl _
  bound := by decide

@[simp] theorem seen_new : new.seen = ∅ := by
  ext s
  simp [mem_seen, new]
  omega

theorem filled_seen (g : GapTracker) : Filled g.seen g.contiguous :=
  fun _ h1 hc => ⟨h1, Or.inl hc⟩

theorem WF.next_not_mem {g : GapTracker} (h : g.WF) : g.contiguous + 1 ∉ g.seen := by
  rintro ⟨-, hle | hmem⟩
  · omega
  · have := h.ahead_gt _ hmem
    omega

theorem WF.seen_le {g : GapTracker} (h : g.WF) {s : Nat} (hs : s ∈ g.seen) : s ≤ g.highest := by
  rcases hs.2 with hle | hmem
  · exact le_trans hle h.contiguous_le
  · exact h.ahead_le s hmem

theorem WF.mem_ahead_iff {g : GapTracker} (h : g.WF) {s : Nat} :
    s ∈ g.ahead ↔ s ∈ g.seen ∧ g.contiguous < s := by
  constructor
  · intro hs
    have := h.ahead_gt s hs
    exact ⟨⟨by omega, Or.inr hs⟩, by omega⟩
  · rintro ⟨⟨-, hle | hs⟩, hlt⟩
    · omega
    · exact hs

theorem WF.isComplete_iff {g : GapTracker} (h : g.WF) (f : XferSeq) :
    g.isComplete f = true ↔ Filled g.seen f.toNat := by
  rw [isComplete, decide_eq_true_iff]
  exact ⟨fun hle => (filled_seen g).le hle, fun hf => hf.le_of_not_mem h.next_not_mem⟩

/-! ## Recording -/

/-- The absorbing loop turns a tracker whose upper set merely lies above
the segment into a well-formed one with the same arrivals. -/
theorem absorb_spec (fuel : Nat) (g : GapTracker) (hfuel : g.ahead.size ≤ fuel)
    (hgt : ∀ s ∈ g.ahead, g.contiguous < s) (hle : ∀ s ∈ g.ahead, s ≤ g.highest)
    (hc : g.contiguous ≤ g.highest) (hb : g.highest < 2 ^ 32) :
    (absorb fuel g).WF ∧ (absorb fuel g).seen = g.seen
      ∧ (absorb fuel g).highest = g.highest ∧ g.contiguous ≤ (absorb fuel g).contiguous := by
  induction fuel generalizing g with
  | zero =>
    have hempty : g.ahead = ∅ := ExtTreeSet.eq_empty_iff_size_eq_zero.mpr (by omega)
    refine ⟨⟨?_, hle, hc, hb⟩, rfl, rfl, Nat.le_refl _⟩
    intro s hs
    change s ∈ g.ahead at hs
    simp [hempty] at hs
  | succ fuel ih =>
    simp only [absorb]
    split
    · rename_i hmem
      -- the loop takes one more member into the segment
      have hnext : wrap32 (g.contiguous + 1) = g.contiguous + 1 := by
        by_cases hlt : g.contiguous + 1 < 2 ^ 32
        · exact wrap32_of_lt hlt
        · have h0 : wrap32 (g.contiguous + 1) = 0 := by
            have : g.contiguous + 1 = 2 ^ 32 := by omega
            simp [wrap32, this]
          have := hgt _ hmem
          omega
      rw [hnext] at hmem ⊢
      have hsize : (g.ahead.erase (g.contiguous + 1)).size ≤ fuel := by
        rw [ExtTreeSet.size_erase, if_pos (ExtTreeSet.contains_iff_mem.mpr hmem)]
        omega
      obtain ⟨hwf, hseen, hhigh, hmono⟩ := ih
        { g with contiguous := g.contiguous + 1, ahead := g.ahead.erase (g.contiguous + 1) }
        hsize
        (by
          intro s hs
          simp only [ExtTreeSet.mem_erase, compare_eq_iff_eq, ne_eq] at hs
          have := hgt s hs.2
          show g.contiguous + 1 < s
          omega)
        (by
          intro s hs
          simp only [ExtTreeSet.mem_erase] at hs
          exact hle s hs.2)
        (hle _ hmem) hb
      refine ⟨hwf, ?_, hhigh, le_trans (Nat.le_succ _) hmono⟩
      rw [hseen]
      ext s
      simp only [mem_seen, ExtTreeSet.mem_erase, compare_eq_iff_eq, ne_eq]
      constructor
      · rintro ⟨h1, hs | ⟨-, hs⟩⟩
        · rcases Nat.lt_or_ge s (g.contiguous + 1) with hlt | hge
          · exact ⟨h1, Or.inl (by omega)⟩
          · have : s = g.contiguous + 1 := by omega
            exact ⟨h1, Or.inr (this ▸ hmem)⟩
        · exact ⟨h1, Or.inr hs⟩
      · rintro ⟨h1, hs | hs⟩
        · exact ⟨h1, Or.inl (by omega)⟩
        · by_cases heq : g.contiguous + 1 = s
          · exact ⟨h1, Or.inl (by omega)⟩
          · exact ⟨h1, Or.inr ⟨heq, hs⟩⟩
    · rename_i hmem
      refine ⟨⟨?_, hle, hc, hb⟩, rfl, rfl, Nat.le_refl _⟩
      intro s hs
      have hs1 := hgt s hs
      have hs2 := hle s hs
      rw [wrap32_of_lt (by omega)] at hmem
      have : s ≠ g.contiguous + 1 := fun heq => hmem (heq ▸ hs)
      omega

/-- A duplicate, or sequence number zero, changes nothing. -/
theorem record_stale {g : GapTracker} {seq : XferSeq}
    (hs : seq.toNat = 0 ∨ seq.toNat ∈ g.seen) : g.record seq = (g, false) := by
  simp only [record]
  split
  · rfl
  · rename_i hnot
    rcases hs with hs | ⟨-, hs | hs⟩
    · exact absurd (Or.inl hs) hnot
    · exact absurd (Or.inr hs) hnot
    · rw [if_pos hs]

/-- A first arrival joins the set and is reported as fresh. -/
theorem record_fresh {g : GapTracker} (h : g.WF) {seq : XferSeq} (h0 : seq.toNat ≠ 0)
    (hs : seq.toNat ∉ g.seen) :
    (g.record seq).2 = true ∧ (g.record seq).1.WF
      ∧ (∀ s, s ∈ (g.record seq).1.seen ↔ s ∈ g.seen ∨ s = seq.toNat)
      ∧ (g.record seq).1.highest = max g.highest seq.toNat
      ∧ g.contiguous ≤ (g.record seq).1.contiguous := by
  have hgt : g.contiguous < seq.toNat := by
    by_contra hle
    exact hs ⟨by omega, Or.inl (by omega)⟩
  have hnot : seq.toNat ∉ g.ahead := fun hmem => hs ⟨by omega, Or.inr hmem⟩
  have hlt := seq.toNat_lt
  have hhigh : (if seq.toNat > g.highest then seq.toNat else g.highest)
      = max g.highest seq.toNat := by
    split <;> omega
  simp only [record]
  rw [if_neg (by omega), if_neg hnot, hhigh]
  have hc := h.contiguous_le
  have hb := h.bound
  -- the new number joins the upper set first, then the segment grows over it
  obtain ⟨hwf, hseen, hhigh', hmono⟩ := absorb_spec (g.ahead.insert seq.toNat).size
    { g with ahead := g.ahead.insert seq.toNat, highest := max g.highest seq.toNat }
    (Nat.le_refl _)
    (by
      intro s hmem
      simp only [ExtTreeSet.mem_insert, compare_eq_iff_eq] at hmem
      rcases hmem with rfl | hmem
      · exact hgt
      · have := h.ahead_gt s hmem
        show g.contiguous < s
        omega)
    (by
      intro s hmem
      simp only [ExtTreeSet.mem_insert, compare_eq_iff_eq] at hmem
      rcases hmem with rfl | hmem
      · exact Nat.le_max_right _ _
      · exact le_trans (h.ahead_le s hmem) (Nat.le_max_left _ _))
    (le_trans hc (Nat.le_max_left _ _))
    (by show max g.highest seq.toNat < 2 ^ 32; omega)
  refine ⟨rfl, hwf, ?_, hhigh', hmono⟩
  intro s
  rw [hseen]
  simp only [mem_seen, ExtTreeSet.mem_insert, compare_eq_iff_eq]
  constructor
  · rintro ⟨h1, hs | rfl | hs⟩
    · exact Or.inl ⟨h1, Or.inl hs⟩
    · exact Or.inr rfl
    · exact Or.inl ⟨h1, Or.inr hs⟩
  · rintro (⟨h1, hs | hs⟩ | rfl)
    · exact ⟨h1, Or.inl hs⟩
    · exact ⟨h1, Or.inr (Or.inr hs)⟩
    · exact ⟨by omega, Or.inr (Or.inl rfl)⟩

/-- The flag tells first arrivals from the rest. -/
theorem record_flag_iff {g : GapTracker} (h : g.WF) (seq : XferSeq) :
    (g.record seq).2 = true ↔ seq.toNat ≠ 0 ∧ seq.toNat ∉ g.seen := by
  constructor
  · intro hflag
    by_contra hnot
    rw [record_stale (by tauto)] at hflag
    cases hflag
  · rintro ⟨h0, hs⟩
    exact (record_fresh h h0 hs).1

theorem wf_record {g : GapTracker} (h : g.WF) (seq : XferSeq) : (g.record seq).1.WF := by
  by_cases hs : seq.toNat = 0 ∨ seq.toNat ∈ g.seen
  · rw [record_stale hs]
    exact h
  · push Not at hs
    exact (record_fresh h hs.1 hs.2).2.1

theorem mem_seen_record {g : GapTracker} (h : g.WF) (seq : XferSeq) (s : Nat) :
    s ∈ (g.record seq).1.seen ↔ s ∈ g.seen ∨ (s = seq.toNat ∧ s ≠ 0) := by
  by_cases hs : seq.toNat = 0 ∨ seq.toNat ∈ g.seen
  · rw [record_stale hs]
    constructor
    · exact Or.inl
    · rintro (hmem | ⟨rfl, h0⟩)
      · exact hmem
      · exact hs.resolve_left h0
  · push Not at hs
    rw [(record_fresh h hs.1 hs.2).2.2.1]
    constructor
    · rintro (hmem | rfl)
      · exact Or.inl hmem
      · exact Or.inr ⟨rfl, hs.1⟩
    · rintro (hmem | ⟨rfl, -⟩)
      · exact Or.inl hmem
      · exact Or.inr rfl

theorem contiguous_le_record {g : GapTracker} (h : g.WF) (seq : XferSeq) :
    g.contiguous ≤ (g.record seq).1.contiguous := by
  by_cases hs : seq.toNat = 0 ∨ seq.toNat ∈ g.seen
  · rw [record_stale hs]
  · push Not at hs
    exact (record_fresh h hs.1 hs.2).2.2.2.2

/-- Only a first arrival can raise `highest`. -/
theorem highest_record {g : GapTracker} (h : g.WF) (seq : XferSeq) :
    (g.record seq).1.highest = max g.highest seq.toNat := by
  by_cases hs : seq.toNat = 0 ∨ seq.toNat ∈ g.seen
  · rw [record_stale hs]
    rcases hs with hs | hs
    · rw [hs, Nat.max_zero]
    · exact (Nat.max_eq_left (h.seen_le hs)).symm
  · push Not at hs
    exact (record_fresh h hs.1 hs.2).2.2.2.1

/-! ## Abandoning -/

@[simp] theorem abandon_contiguous (g : GapTracker) : g.abandon.contiguous = g.contiguous := rfl

@[simp] theorem abandon_highest (g : GapTracker) : g.abandon.highest = g.highest := rfl

theorem WF.abandon {g : GapTracker} (h : g.WF) : g.abandon.WF where
  ahead_gt _ hs := by simp [GapTracker.abandon] at hs
  ahead_le _ hs := by simp [GapTracker.abandon] at hs
  contiguous_le := h.contiguous_le
  bound := h.bound

/-- Abandoning forgets every arrival above the segment. -/
theorem mem_seen_abandon {g : GapTracker} {s : Nat} :
    s ∈ g.abandon.seen ↔ s ∈ g.seen ∧ s ≤ g.contiguous := by
  simp only [mem_seen, GapTracker.abandon, ExtTreeSet.not_mem_empty, or_false]
  constructor
  · rintro ⟨h1, hc⟩
    exact ⟨⟨h1, Or.inl hc⟩, hc⟩
  · rintro ⟨⟨h1, -⟩, hc⟩
    exact ⟨h1, hc⟩

/-! ## The list of holes -/

theorem fillGap_eq (limit n expect : Nat) (out : List Nat) :
    fillGap limit n expect out = out ++ (List.range' expect n).take (limit - out.length) := by
  induction n generalizing expect out with
  | zero => simp [fillGap]
  | succ n ih =>
    simp only [fillGap]
    split
    · rename_i hlt
      obtain ⟨k, hk⟩ : ∃ k, limit - out.length = k + 1 := ⟨limit - out.length - 1, by omega⟩
      have hk' : limit - (out ++ [expect]).length = k := by
        simp
        omega
      rw [ih, hk', hk, List.range'_succ, List.take_succ_cons, List.append_assoc]
      rfl
    · rename_i hge
      have : limit - out.length = 0 := by omega
      simp [this]

/-- The collecting loop yields the first holes of the list, up to the
limit. -/
theorem missingLoop_eq (limit : Nat) (l : List Nat) (expect : Nat) (out : List Nat)
    (sorted : l.Pairwise (· < ·)) (small : ∀ h ∈ l, h < 2 ^ 32) :
    missingLoop limit l expect out
      = out ++ (holesFrom expect l).take (limit - out.length) := by
  induction l generalizing expect out with
  | nil => simp [missingLoop, holesFrom]
  | cons have_ rest ih =>
    obtain ⟨hlt, hrest⟩ := List.pairwise_cons.mp sorted
    simp only [missingLoop, fillGap_eq, holesFrom, List.take_append]
    split
    · rename_i hfull
      simp only [List.length_append, List.length_take, List.length_range'] at hfull ⊢
      have : limit - out.length - (have_ - expect) = 0 := by omega
      simp [this]
    · rename_i hroom
      simp only [List.length_append, List.length_take, List.length_range'] at hroom ⊢
      cases rest with
      | nil => simp [missingLoop, holesFrom]
      | cons next rest' =>
        -- a further member means `have_` is not the last `u32`
        have h1 : have_ < next := hlt next (by simp)
        have h2 : next < 2 ^ 32 := small next (by simp)
        rw [wrap32_of_lt (by omega), ih _ _ hrest fun h hh => small h (by simp [hh])]
        have hlen : limit - (out ++ (List.range' expect (have_ - expect)).take
            (limit - out.length)).length = limit - out.length - (have_ - expect) := by
          simp only [List.length_append, List.length_take, List.length_range']
          omega
        rw [hlen, List.append_assoc]

theorem sorted_ahead (g : GapTracker) : g.ahead.toList.Pairwise (· < ·) := by
  have := ExtTreeSet.ordered_toList (t := g.ahead)
  simpa only [Nat.compare_eq_lt] using this

theorem WF.ahead_lt {g : GapTracker} (h : g.WF) : ∀ s ∈ g.ahead.toList, s < 2 ^ 32 :=
  fun s hs => lt_of_le_of_lt (h.ahead_le s (ExtTreeSet.mem_toList.mp hs)) h.bound

/-- The last member of a non-empty upper set is `highest`, once `highest`
itself has arrived. -/
theorem WF.getLast_ahead {g : GapTracker} (h : g.WF)
    (hhigh : g.highest = 0 ∨ g.highest ∈ g.seen) :
    g.ahead.toList.getLast?.getD (g.contiguous + 1) - (g.contiguous + 1)
      = g.highest - (g.contiguous + 1) := by
  have hsorted := g.sorted_ahead
  have hc := h.contiguous_le
  rcases List.eq_nil_or_concat g.ahead.toList with hnil | ⟨l, m, hl⟩
  · have hnot : ∀ s, s ∉ g.ahead := by
      intro s hs
      rw [← ExtTreeSet.mem_toList, hnil] at hs
      cases hs
    have hle : g.highest ≤ g.contiguous := by
      rcases hhigh with h0 | ⟨-, hle | hmem⟩
      · omega
      · exact hle
      · exact absurd hmem (hnot _)
    rw [hnil]
    simp
    omega
  · rw [List.concat_eq_append] at hl
    have hm : m ∈ g.ahead := by
      rw [← ExtTreeSet.mem_toList, hl]
      simp
    have hmle := h.ahead_le m hm
    have hmgt := h.ahead_gt m hm
    -- `highest` is not in the segment, so it is in the upper set, whose last member is the largest
    have hge : g.highest ≤ m := by
      rcases hhigh with h0 | ⟨-, hle | hmem⟩
      · omega
      · omega
      · rw [← ExtTreeSet.mem_toList, hl] at hmem
        rcases List.mem_append.mp hmem with hin | hin
        · rw [hl] at hsorted
          have := (List.pairwise_append.mp hsorted).2.2 _ hin m (by simp)
          omega
        · have := List.mem_singleton.mp hin
          omega
    rw [hl, List.getLast?_concat, Option.getD_some]
    omega

/-- **`missing` is the list it stands for**: the first `limit` numbers up
to `highest` that have not arrived. -/
theorem WF.missing_eq {g : GapTracker} (h : g.WF)
    (hhigh : g.highest = 0 ∨ g.highest ∈ g.seen) (limit : Nat) (p : Nat → Bool)
    (hp : ∀ s, p s = true ↔ s ∈ g.seen) :
    g.missing limit = ((List.range' 1 g.highest).filter (!p ·)).take limit := by
  have hsorted := g.sorted_ahead
  have hsmall := h.ahead_lt
  have habove : ∀ s ∈ g.ahead.toList, g.contiguous + 1 ≤ s := by
    intro s hs
    have := h.ahead_gt s (ExtTreeSet.mem_toList.mp hs)
    omega
  have hc := h.contiguous_le
  have hloop : g.missing limit = (holesFrom (g.contiguous + 1) g.ahead.toList).take limit := by
    by_cases hlt : g.contiguous + 1 < 2 ^ 32
    · rw [missing, wrap32_of_lt hlt, missingLoop_eq _ _ _ _ hsorted hsmall]
      simp
    · -- the segment reaches the last `u32`: nothing can lie above it
      have hnil : g.ahead.toList = [] := by
        apply List.eq_nil_iff_forall_not_mem.mpr
        intro s hs
        have h1 := habove s hs
        have h2 := hsmall s hs
        omega
      simp [missing, hnil, missingLoop, holesFrom]
  have hholes := holesFrom_eq_filter hsorted habove
  rw [h.getLast_ahead hhigh] at hholes
  rw [hloop, hholes]
  congr 1
  -- below the segment everything has arrived, and so has `highest`
  have hfront : (List.range' 1 g.contiguous).filter (!p ·) = [] := by
    apply List.filter_eq_nil_iff.mpr
    intro s hs
    obtain ⟨h1, h2⟩ := List.mem_range'_1.mp hs
    have : p s = true := (hp s).mpr ⟨h1, Or.inl (by omega)⟩
    simp [this]
  have hmid : (List.range' (g.contiguous + 1) (g.highest - (g.contiguous + 1))).filter
        (· ∉ g.ahead.toList)
      = (List.range' (g.contiguous + 1) (g.highest - (g.contiguous + 1))).filter (!p ·) := by
    apply List.filter_congr
    intro s hs
    have h1 := (List.mem_range'_1.mp hs).1
    have hiff : s ∈ g.ahead.toList ↔ p s = true := by
      rw [ExtTreeSet.mem_toList, hp, h.mem_ahead_iff]
      exact ⟨fun hs' => hs'.1, fun hs' => ⟨hs', by omega⟩⟩
    by_cases hin : s ∈ g.ahead.toList
    · simp [hin, hiff.mp hin]
    · have hps : p s = false := by
        cases hp' : p s with
        | false => rfl
        | true => exact absurd (hiff.mpr hp') hin
      simp [hin, hps]
  rcases Nat.lt_or_ge g.contiguous g.highest with hlt | hge
  · have hlast : p g.highest = true := (hp _).mpr (hhigh.resolve_left (by omega))
    have hsplit : List.range' 1 g.highest
        = List.range' 1 g.contiguous
          ++ (List.range' (g.contiguous + 1) (g.highest - (g.contiguous + 1)) ++ [g.highest]) := by
      have e1 : g.highest = g.contiguous + ((g.highest - (g.contiguous + 1)) + 1) := by omega
      have e2 : 1 + g.contiguous = g.contiguous + 1 := by omega
      have e3 : g.contiguous + 1 + (g.highest - (g.contiguous + 1)) = g.highest := by omega
      conv_lhs => rw [e1, ← List.range'_append_1, e2, ← List.range'_append_1, e3]
      rfl
    rw [hsplit, List.filter_append, hfront, List.filter_append, hmid]
    simp [hlast]
  · have heq : g.highest = g.contiguous := by omega
    have h0 : g.highest - (g.contiguous + 1) = 0 := by omega
    rw [heq] at *
    rw [hfront, h0]
    rfl

/-- Nothing in the list has arrived, and nothing lies at or above
`highest`. -/
theorem WF.mem_missing {g : GapTracker} (h : g.WF)
    (hhigh : g.highest = 0 ∨ g.highest ∈ g.seen) {limit s : Nat} (hs : s ∈ g.missing limit) :
    1 ≤ s ∧ s < g.highest ∧ s ∉ g.seen := by
  classical
  rw [h.missing_eq hhigh limit (fun s => decide (s ∈ g.seen)) (by simp)] at hs
  have hmem := List.mem_of_mem_take hs
  simp only [List.mem_filter, List.mem_range'_1, Bool.not_eq_true', decide_eq_false_iff_not]
    at hmem
  obtain ⟨⟨h1, h2⟩, h3⟩ := hmem
  refine ⟨h1, ?_, h3⟩
  rcases hhigh with h0 | hin
  · omega
  · have : s ≠ g.highest := fun heq => h3 (heq ▸ hin)
    omega

theorem length_missing_le (g : GapTracker) (limit : Nat) (h : g.WF) :
    (g.missing limit).length ≤ limit := by
  have hsorted := g.sorted_ahead
  have hsmall := h.ahead_lt
  rw [missing, missingLoop_eq _ _ _ _ hsorted hsmall]
  simp

end GapTracker

end Protofish4
