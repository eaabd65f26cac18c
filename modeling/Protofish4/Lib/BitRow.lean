import Mathlib

/-!
# Rows of bits in words

A row of bits kept in words of `w` bits, lowest word first: bit `i` is bit
`i % w` of word `i / w`. The module gives setting one bit and moving the
whole row up, by whole words and by fewer bits than a word with a carry,
and says of each what every bit is afterwards. Bits moved past the end are
lost; bits past the end read as clear.
-/

namespace BitRow

variable {w : ℕ}

/-- Bit `i` of the row. -/
def bit (r : List (BitVec w)) (i : ℕ) : Bool := (r.getD (i / w) 0).getLsbD (i % w)

/-- The row with bit `i` set. -/
def setBit (r : List (BitVec w)) (i : ℕ) : List (BitVec w) :=
  r.set (i / w) (r.getD (i / w) 0 ||| BitVec.twoPow w (i % w))

/-- From word `n - 1` down, in place: each word takes the one `k` below it. -/
def moveWords (k : ℕ) : ℕ → List (BitVec w) → List (BitVec w)
  | 0, r => r
  | n + 1, r => moveWords k n (r.set n (if k ≤ n then r.getD (n - k) 0 else 0))

/-- Up by `k` whole words. -/
def shiftWords (r : List (BitVec w)) (k : ℕ) : List (BitVec w) := moveWords k r.length r

/-- Up by `b` bits, `carry` coming in from below. -/
def shiftBits (b : ℕ) : BitVec w → List (BitVec w) → List (BitVec w)
  | _, [] => []
  | carry, x :: r => (x <<< b ||| carry) :: shiftBits b (x >>> (w - b)) r

/-! ## Lengths -/

@[simp] theorem length_setBit (r : List (BitVec w)) (i : ℕ) : (setBit r i).length = r.length :=
  List.length_set

theorem length_moveWords (k n : ℕ) (r : List (BitVec w)) :
    (moveWords k n r).length = r.length := by
  induction n generalizing r with
  | zero => rfl
  | succ n ih => rw [moveWords, ih, List.length_set]

@[simp] theorem length_shiftWords (r : List (BitVec w)) (k : ℕ) :
    (shiftWords r k).length = r.length :=
  length_moveWords k r.length r

@[simp] theorem length_shiftBits (b : ℕ) (carry : BitVec w) (r : List (BitVec w)) :
    (shiftBits b carry r).length = r.length := by
  induction r generalizing carry with
  | nil => rfl
  | cons x r ih => simp [shiftBits, ih]

/-! ## Bits -/

theorem bit_of_length_le {r : List (BitVec w)} {i : ℕ} (hw : 0 < w) (h : w * r.length ≤ i) :
    bit r i = false := by
  have hword : r.length ≤ i / w := (Nat.le_div_iff_mul_le hw).mpr (by rwa [Nat.mul_comm])
  simp [bit, List.getD_eq_getElem?_getD, List.getElem?_eq_none hword]

theorem bit_replicate_zero (n i : ℕ) : bit (List.replicate n (0 : BitVec w)) i = false := by
  unfold bit
  rw [List.getD_eq_getElem?_getD, List.getElem?_replicate]
  split <;> simp

theorem bit_cons (hw : 0 < w) (x : BitVec w) (r : List (BitVec w)) (i : ℕ) :
    bit (x :: r) i = if i < w then x.getLsbD i else bit r (i - w) := by
  unfold bit
  by_cases h : i < w
  · rw [if_pos h, Nat.div_eq_of_lt h, Nat.mod_eq_of_lt h]
    rfl
  · have hdiv : i / w = (i - w) / w + 1 := Nat.div_eq_sub_div hw (by omega)
    have hmod : i % w = (i - w) % w := Nat.mod_eq_sub_mod (by omega)
    rw [if_neg h, hdiv, hmod]
    rfl

/-- Setting a bit of the row sets that bit alone. -/
theorem bit_setBit {r : List (BitVec w)} {j : ℕ} (hj : j < w * r.length) (i : ℕ) :
    bit (setBit r j) i = (decide (i = j) || bit r i) := by
  have hw : 0 < w := by
    by_contra h
    simp [Nat.eq_zero_of_not_pos h] at hj
  have hword : j / w < r.length := Nat.div_lt_of_lt_mul hj
  unfold bit setBit
  by_cases hij : i / w = j / w
  · have heq : i = j ↔ i % w = j % w := by
      refine ⟨fun h => by rw [h], fun h => ?_⟩
      rw [← Nat.div_add_mod i w, ← Nat.div_add_mod j w, hij, h]
    rw [hij, List.getD_eq_getElem?_getD, List.getElem?_set_self hword, Option.getD_some,
      BitVec.getLsbD_or, BitVec.getLsbD_twoPow, Bool.or_comm, List.getD_eq_getElem?_getD]
    have hlow' : j % w < w := Nat.mod_lt j hw
    simp [hlow', heq, eq_comm]
  · have hne : i ≠ j := fun h => hij (by rw [h])
    rw [List.getD_eq_getElem?_getD, List.getElem?_set_ne (Ne.symm hij)]
    simp [hne, List.getD_eq_getElem?_getD]

/-- The words below `n` have moved, the others have not. -/
theorem getD_moveWords (k n : ℕ) {r : List (BitVec w)} (h : n ≤ r.length) (j : ℕ) :
    (moveWords k n r).getD j 0
      = if j < n then (if k ≤ j then r.getD (j - k) 0 else 0) else r.getD j 0 := by
  induction n generalizing r with
  | zero => rfl
  | succ n ih =>
    rw [moveWords, ih (by rw [List.length_set]; omega)]
    have hset : ∀ i v, (r.set n v).getD i 0 = if i = n then v else r.getD i 0 := by
      intro i v
      simp only [List.getD_eq_getElem?_getD]
      by_cases hi : i = n
      · rw [hi, List.getElem?_set_self (by omega), if_pos rfl, Option.getD_some]
      · rw [List.getElem?_set_ne (Ne.symm hi), if_neg hi]
    simp only [hset]
    -- words below `n` read from words not yet overwritten
    rcases Nat.lt_trichotomy j n with hj | rfl | hj
    · rw [if_pos hj, if_pos (show j < n + 1 by omega), if_neg (show ¬ j - k = n by omega)]
    · rw [if_neg (lt_irrefl j), if_pos rfl, if_pos (Nat.lt_succ_self j)]
    · rw [if_neg (show ¬ j < n by omega), if_neg (show ¬ j = n by omega),
        if_neg (show ¬ j < n + 1 by omega)]

/-- Up by whole words: bit `i` is the one `k * w` below. -/
theorem bit_shiftWords (hw : 0 < w) (r : List (BitVec w)) (k i : ℕ) :
    bit (shiftWords r k) i
      = (decide (i < w * r.length) && decide (k * w ≤ i) && bit r (i - k * w)) := by
  by_cases hi : i < w * r.length
  · have hword : i / w < r.length := Nat.div_lt_of_lt_mul hi
    have hk : k ≤ i / w ↔ k * w ≤ i := Nat.le_div_iff_mul_le hw
    unfold bit shiftWords
    rw [getD_moveWords k r.length le_rfl, if_pos hword]
    by_cases hki : k * w ≤ i
    · rw [if_pos (hk.mpr hki), Nat.mul_comm k w, Nat.sub_mul_div, Nat.sub_mul_mod (by
        rwa [Nat.mul_comm])]
      simp [hi, Nat.mul_comm w k, hki]
    · rw [if_neg (fun h => hki (hk.mp h))]
      simp [hki]
  · rw [bit_of_length_le hw (by rw [length_shiftWords]; omega)]
    simp [hi]

/-- Up by less than a word: the carry comes in below, every other bit is
the one `b` below. -/
theorem bit_shiftBits {b : ℕ} (hb : b < w) (r : List (BitVec w)) (carry : BitVec w)
    (hcarry : ∀ j, b ≤ j → carry.getLsbD j = false) (i : ℕ) :
    bit (shiftBits b carry r) i
      = (decide (i < w * r.length) && if i < b then carry.getLsbD i else bit r (i - b)) := by
  have hw : 0 < w := by omega
  induction r generalizing carry i with
  | nil => simp [shiftBits, bit]
  | cons x r ih =>
    rw [shiftBits, bit_cons hw, bit_cons hw, List.length_cons]
    by_cases hi : i < w
    · -- in the lowest word: its own bits from `b` up, the carry below
      have hlen : i < w * (r.length + 1) := by
        rw [Nat.mul_add, Nat.mul_one]
        omega
      rw [if_pos hi, BitVec.getLsbD_or, BitVec.getLsbD_shiftLeft]
      by_cases hib : i < b
      · simp [hi, hib, hlen]
      · have hsub : i - b < w := by omega
        rw [hcarry i (by omega), Bool.or_false]
        simp [hi, hib, hlen, hsub]
    · -- further up: the row above, with the top bits of this word as carry
      have htop : ∀ j, b ≤ j → (x >>> (w - b)).getLsbD j = false := by
        intro j hj
        rw [BitVec.getLsbD_ushiftRight]
        exact BitVec.getLsbD_of_ge x _ (by omega)
      have hlen : i - w < w * r.length ↔ i < w * (r.length + 1) := by
        rw [Nat.mul_add, Nat.mul_one]
        omega
      rw [if_neg hi, ih _ htop, BitVec.getLsbD_ushiftRight, if_neg (show ¬ i < b by omega)]
      simp only [hlen]
      by_cases hib : i - w < b
      · rw [if_pos hib, if_pos (by omega), show w - b + (i - w) = i - b by omega]
      · rw [if_neg hib, if_neg (by omega), show i - w - b = i - b - w by omega]

end BitRow
