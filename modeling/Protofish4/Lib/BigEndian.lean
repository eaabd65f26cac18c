import Mathlib

/-!
# Big-endian byte strings

A natural number as a fixed number of big-endian bytes and back, and the
slices a fixed-layout reader takes. Nothing here knows what the bytes
mean.
-/

namespace BigEndian

/-- The low `k` bytes of `n`, most significant first. -/
def toBE : Nat → Nat → List UInt8
  | 0, _ => []
  | k + 1, n => toBE k (n / 256) ++ [UInt8.ofNat n]

/-- The number a byte string denotes, most significant byte first. -/
def ofBE (bs : List UInt8) : Nat :=
  bs.foldl (fun acc b => acc * 256 + b.toNat) 0

@[simp] theorem length_toBE (k n : Nat) : (toBE k n).length = k := by
  induction k generalizing n with
  | zero => rfl
  | succ k ih => simp [toBE, ih]

@[simp] theorem ofBE_concat (bs : List UInt8) (b : UInt8) :
    ofBE (bs ++ [b]) = ofBE bs * 256 + b.toNat := by
  simp [ofBE]

theorem ofBE_toBE (k n : Nat) : ofBE (toBE k n) = n % 256 ^ k := by
  induction k generalizing n with
  | zero => simp [toBE, ofBE, Nat.mod_one]
  | succ k ih =>
    have hb : (UInt8.ofNat n).toNat = n % 256 := by simp
    rw [toBE, ofBE_concat, ih, hb, Nat.pow_succ', Nat.mod_mul]
    omega

theorem ofBE_toBE_of_lt {k n : Nat} (h : n < 256 ^ k) : ofBE (toBE k n) = n := by
  rw [ofBE_toBE, Nat.mod_eq_of_lt h]

theorem toBE_ofBE (bs : List UInt8) : toBE bs.length (ofBE bs) = bs := by
  induction bs using List.reverseRecOn with
  | nil => rfl
  | append_singleton bs b ih =>
    have hlt : b.toNat < 256 := UInt8.toNat_lt b
    have hdiv : (ofBE bs * 256 + b.toNat) / 256 = ofBE bs := by omega
    have hbyte : UInt8.ofNat (ofBE bs * 256 + b.toNat) = b := by
      apply UInt8.toNat_inj.mp
      simp
    rw [List.length_append, List.length_singleton, toBE, ofBE_concat, hdiv, ih, hbyte]

/-- A `k`-byte field reads back as its own encoding. -/
theorem toBE_ofBE_of_length {bs : List UInt8} {k : Nat} (h : bs.length = k) :
    toBE k (ofBE bs) = bs := by
  rw [← h, toBE_ofBE]

theorem ofBE_lt (bs : List UInt8) : ofBE bs < 256 ^ bs.length := by
  have h := ofBE_toBE bs.length (ofBE bs)
  rw [toBE_ofBE] at h
  rw [h]
  exact Nat.mod_lt _ (Nat.pow_pos (by decide))

/-- The `n` bytes from offset `i`, as `buf.get(i..i + n)`. -/
def slice? (buf : List UInt8) (i n : Nat) : Option (List UInt8) :=
  if i + n ≤ buf.length then some ((buf.drop i).take n) else none

theorem slice?_length {buf bs : List UInt8} {i n : Nat} (h : slice? buf i n = some bs) :
    bs.length = n := by
  unfold slice? at h
  split at h
  · cases h
    simp
    omega
  · cases h

theorem slice?_eq_some {buf bs : List UInt8} {i n : Nat} (h : slice? buf i n = some bs) :
    bs = (buf.drop i).take n := by
  unfold slice? at h
  split at h
  · cases h
    rfl
  · cases h

/-- A slice is found behind what stands before it. -/
theorem slice?_append {pre mid post : List UInt8} {i n : Nat}
    (hi : pre.length = i) (hn : mid.length = n) :
    slice? (pre ++ mid ++ post) i n = some mid := by
  subst hi hn
  simp [slice?]

end BigEndian
