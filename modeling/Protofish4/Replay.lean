import Protofish4.Lib.BitRow
import Protofish4.Lib.Machine
import Protofish4.Types

/-!
# ReplayWindow

The replay guard of `crypto.rs`: the highest control counter accepted so
far and a bitmap of the 1024 counters below it. The bitmap is a row of
sixteen words that moves up whenever a higher counter arrives; the first
half of the module says which counters a window remembers and what one
`accept` does to them, the second what that means for every sequence of
calls.
-/

namespace Protofish4

open BitRow

structure ReplayWindow where
  highest : Nat
  /-- Bit `i` stands for `highest - 1 - i`; `highest` itself has no bit. -/
  seen : List (BitVec 64)
  seen_length : seen.length = 16
  started : Bool

namespace ReplayWindow

/-- The number of counters below `highest` that have a bit. -/
def width : Nat := 16 * 64

def new : ReplayWindow where
  highest := 0
  seen := List.replicate 16 0
  seen_length := rfl
  started := false

def set (w : ReplayWindow) (b : Nat) : ReplayWindow :=
  if b ≥ width then w
  else { w with seen := setBit w.seen b, seen_length := by rw [length_setBit, w.seen_length] }

def get (w : ReplayWindow) (b : Nat) : Bool :=
  if b ≥ width then false else bit w.seen b

/-- The words of the bitmap, moved up by whole words and then by bits. -/
def moved (row : List (BitVec 64)) (shift : Nat) : List (BitVec 64) :=
  let words := shift / 64
  let bits := shift % 64
  let row := if words > 0 then shiftWords row words else row
  if bits > 0 then shiftBits bits 0 row else row

@[simp] theorem length_moved (row : List (BitVec 64)) (shift : Nat) :
    (moved row shift).length = row.length := by
  simp only [moved]
  split <;> split <;> simp

/-- Move the bitmap up and record the outgoing highest. -/
def shiftBy (w : ReplayWindow) (shift : Nat) : ReplayWindow :=
  if shift ≥ width then
    { w with
      seen := w.seen.map fun _ => 0
      seen_length := by rw [List.length_map, w.seen_length] }
  else
    let w := { w with
      seen := moved w.seen shift
      seen_length := by rw [length_moved, w.seen_length] }
    if shift - 1 < width then w.set (shift - 1) else w

/-- The window with a new highest counter, and the same bits. -/
def withHighest (w : ReplayWindow) (c : Nat) : ReplayWindow := { w with highest := c }

/-- Record `counter`, or refuse it: already seen, or out of the window. -/
def accept (w : ReplayWindow) (counter : UInt32) : ReplayWindow × Except Error Unit :=
  let c := counter.toNat
  if w.started = false then ({ w with started := true }.withHighest c, .ok ())
  else if c > w.highest then ((w.shiftBy (c - w.highest)).withHighest c, .ok ())
  else
    let back := w.highest - c
    if back = 0 ∨ back > width then (w, .error (.replay counter.toNat))
    else if w.get (back - 1) then (w, .error (.replay counter.toNat))
    else (w.set (back - 1), .ok ())

/-! ## The bitmap -/

theorem get_lt {w : ReplayWindow} {i : Nat} (h : w.get i = true) : i < width := by
  unfold get at h
  split at h
  · cases h
  · omega

@[simp] theorem set_highest (w : ReplayWindow) (b : Nat) : (w.set b).highest = w.highest := by
  unfold set
  split <;> rfl

@[simp] theorem set_started (w : ReplayWindow) (b : Nat) : (w.set b).started = w.started := by
  unfold set
  split <;> rfl

theorem get_set {w : ReplayWindow} {b : Nat} (hb : b < width) (i : Nat) :
    (w.set b).get i = true ↔ i = b ∨ w.get i = true := by
  have hrow : b < 64 * w.seen.length := by
    rw [w.seen_length]
    exact hb
  unfold get set
  rw [if_neg (by omega : ¬ b ≥ width)]
  by_cases hi : i ≥ width
  · rw [if_pos hi, if_pos hi]
    simp only [Bool.false_eq_true, or_false, false_iff]
    omega
  · rw [if_neg hi, if_neg hi, bit_setBit hrow]
    simp

@[simp] theorem withHighest_highest (w : ReplayWindow) (c : Nat) :
    (w.withHighest c).highest = c := rfl

@[simp] theorem withHighest_started (w : ReplayWindow) (c : Nat) :
    (w.withHighest c).started = w.started := rfl

@[simp] theorem withHighest_get (w : ReplayWindow) (c i : Nat) :
    (w.withHighest c).get i = w.get i := rfl

@[simp] theorem shiftBy_started (w : ReplayWindow) (shift : Nat) :
    (w.shiftBy shift).started = w.started := by
  unfold shiftBy
  split
  · rfl
  · simp only
    split <;> simp

theorem bit_moved (row : List (BitVec 64)) (shift i : Nat) :
    bit (moved row shift) i
      = (decide (i < 64 * row.length) && decide (shift ≤ i) && bit row (i - shift)) := by
  have hdm := Nat.div_add_mod shift 64
  -- whole words first; moving by none is the identity
  have hwords : ∀ j, bit (if shift / 64 > 0 then shiftWords row (shift / 64) else row) j
      = (decide (j < 64 * row.length) && decide (shift / 64 * 64 ≤ j)
        && bit row (j - shift / 64 * 64)) := by
    intro j
    by_cases hw : shift / 64 > 0
    · rw [if_pos hw, bit_shiftWords (by decide)]
    · have h0 : shift / 64 = 0 := by omega
      rw [if_neg hw, h0]
      by_cases hj : j < 64 * row.length
      · simp [hj]
      · rw [bit_of_length_le (by decide) (by omega)]
        simp [hj]
  have hlen : (if shift / 64 > 0 then shiftWords row (shift / 64) else row).length
      = row.length := by
    split <;> simp
  simp only [moved]
  by_cases hb : shift % 64 > 0
  · rw [if_pos hb, bit_shiftBits (Nat.mod_lt shift (by decide)) _ _ (by simp), hlen]
    by_cases hib : i < shift % 64
    · rw [if_pos hib, decide_eq_false (show ¬ shift ≤ i by omega)]
      simp
    · have hle : shift / 64 * 64 ≤ i - shift % 64 ↔ shift ≤ i := by omega
      have hlt : i < 64 * row.length → i - shift % 64 < 64 * row.length := by omega
      rw [if_neg hib, hwords, show i - shift % 64 - shift / 64 * 64 = i - shift by omega]
      by_cases hi : i < 64 * row.length
      · simp [hi, hlt hi, hle]
      · simp [hi]
  · have h0 : shift / 64 * 64 = shift := by omega
    rw [if_neg hb, hwords i, h0]

/-- After a move by `shift`, the bits are the old ones, `shift` further up,
and the outgoing highest; a move by the whole width or more clears all. -/
theorem get_shiftBy (w : ReplayWindow) {shift : Nat} (h0 : 0 < shift) (i : Nat) :
    (w.shiftBy shift).get i = true
      ↔ shift < width ∧ (i = shift - 1 ∨ shift ≤ i ∧ i < width ∧ w.get (i - shift) = true) := by
  unfold shiftBy
  by_cases hs : shift ≥ width
  · have hclear : bit (w.seen.map fun _ => (0 : BitVec 64)) i = false := by
      rw [List.map_const', bit_replicate_zero]
    rw [if_pos hs, get]
    simp only [hclear, ite_self, Bool.false_eq_true, false_iff, not_and]
    omega
  · rw [if_neg hs]
    simp only
    rw [if_pos (show shift - 1 < width by omega), get_set (by omega)]
    have hbit : ∀ w' : ReplayWindow, w'.seen = moved w.seen shift →
        (w'.get i = true ↔ shift ≤ i ∧ i < width ∧ w.get (i - shift) = true) := by
      intro w' hw'
      have hlen : 64 * w.seen.length = width := by
        rw [w.seen_length]
        rfl
      unfold get
      by_cases hi : i ≥ width
      · rw [if_pos hi]
        simp only [Bool.false_eq_true, false_iff]
        omega
      · rw [if_neg hi, hw', bit_moved, hlen, if_neg (show ¬ i - shift ≥ width by omega)]
        simp [not_le.mp hi]
    rw [hbit _ rfl]
    exact ⟨fun h => ⟨by omega, h⟩, And.right⟩

/-! ## One call -/

/-- The counters a window refuses because it has seen them. -/
def Remembers (w : ReplayWindow) (n : Nat) : Prop :=
  w.started = true ∧ (n = w.highest ∨ n < w.highest ∧ w.get (w.highest - 1 - n) = true)

/-- No bit is set before the first call. -/
def Clean (w : ReplayWindow) : Prop := w.started = false → ∀ i, w.get i = false

theorem clean_new : new.Clean := by
  intro _ i
  unfold get
  split
  · rfl
  · exact bit_replicate_zero 16 i

theorem Remembers.le {w : ReplayWindow} {n : Nat} (h : w.Remembers n) :
    n ≤ w.highest ∧ w.highest ≤ n + width := by
  rcases h.2 with rfl | ⟨hlt, hbit⟩
  · omega
  · have := get_lt hbit
    omega

/-- What one call does: start the window, move it up, refuse, or set the bit
of a late counter. -/
theorem accept_cases (w : ReplayWindow) (c : UInt32) :
    (w.started = false ∧ w.accept c = ({ w with started := true }.withHighest c.toNat, .ok ()))
    ∨ (w.started = true ∧ w.highest < c.toNat
      ∧ w.accept c = ((w.shiftBy (c.toNat - w.highest)).withHighest c.toNat, .ok ()))
    ∨ (w.started = true ∧ c.toNat ≤ w.highest
      ∧ (w.Remembers c.toNat ∨ c.toNat + width < w.highest)
      ∧ w.accept c = (w, .error (.replay c.toNat)))
    ∨ (w.started = true ∧ c.toNat < w.highest ∧ w.highest ≤ c.toNat + width
      ∧ ¬ w.Remembers c.toNat ∧ w.accept c = (w.set (w.highest - 1 - c.toNat), .ok ())) := by
  unfold accept Remembers
  by_cases h : w.started = false
  · left
    rw [if_pos h]
    exact ⟨h, rfl⟩
  · right
    have ht : w.started = true := by simpa using h
    simp only [ht, true_and, Bool.true_eq_false, if_false]
    by_cases hc : c.toNat > w.highest
    · exact Or.inl ⟨hc, by rw [if_pos hc]⟩
    · right
      rw [if_neg hc]
      by_cases hback : w.highest - c.toNat = 0 ∨ w.highest - c.toNat > width
      · left
        rw [if_pos hback]
        exact ⟨by omega, by omega, rfl⟩
      · have hbit : w.highest - c.toNat - 1 = w.highest - 1 - c.toNat := by omega
        rw [if_neg hback, hbit]
        by_cases hget : w.get (w.highest - 1 - c.toNat) = true
        · left
          rw [if_pos hget]
          exact ⟨by omega, Or.inl (Or.inr ⟨by omega, hget⟩), rfl⟩
        · right
          rw [if_neg hget]
          refine ⟨by omega, by omega, ?_, rfl⟩
          rintro (heq | ⟨_, hbit⟩)
          · omega
          · exact hget hbit

theorem accept_started (w : ReplayWindow) (c : UInt32) : (w.accept c).1.started = true := by
  obtain ⟨_, h⟩ | ⟨hs, _, h⟩ | ⟨hs, _, _, h⟩ | ⟨hs, _, _, _, h⟩ := accept_cases w c
  · simp [h]
  · simp [h, hs]
  · simp [h, hs]
  · simp [h, hs]

theorem accept_highest (w : ReplayWindow) (c : UInt32) :
    (w.accept c).1.highest = if w.started then max w.highest c.toNat else c.toNat := by
  obtain ⟨hs, h⟩ | ⟨hs, hc, h⟩ | ⟨hs, hc, _, h⟩ | ⟨hs, hc, _, _, h⟩ := accept_cases w c
  · simp [h, hs]
  · simp [h, hs, max_eq_right hc.le]
  · simp [h, hs, max_eq_left hc]
  · simp [h, hs, max_eq_left hc.le]

/-- A counter is accepted if it is not remembered and not too old. -/
theorem accept_ok_iff (w : ReplayWindow) (c : UInt32) : (w.accept c).2 = .ok ()
    ↔ ¬ w.Remembers c.toNat ∧ (w.started = true → w.highest ≤ c.toNat + width) := by
  obtain ⟨hs, h⟩ | ⟨hs, hc, h⟩ | ⟨hs, hc, hno, h⟩ | ⟨hs, hc, hle, hno, h⟩ := accept_cases w c
  · simp [h, hs, Remembers]
  · have hno : ¬ w.Remembers c.toNat := fun hr => absurd hr.le.1 (by omega)
    simp only [h, hno, not_false_eq_true, true_and, true_iff]
    omega
  · simp only [h, reduceCtorEq, false_iff, not_and, not_forall]
    intro hr
    exact ⟨hs, by have := hno.resolve_left hr; omega⟩
  · simp [h, hno, hle]

/-- What is remembered after a call: the counter if it was accepted, and
what was remembered before, unless the window has moved past it. A move by
the whole width forgets everything. -/
theorem remembers_accept {w : ReplayWindow} (hw : w.Clean) (c : UInt32) (n : Nat) :
    (w.accept c).1.Remembers n
      ↔ n = c.toNat ∧ (w.accept c).2 = .ok ()
        ∨ w.Remembers n ∧ c.toNat < w.highest + width ∧ c.toNat ≤ n + width := by
  have hn := Remembers.le (w := w) (n := n)
  obtain ⟨hs, h⟩ | ⟨hs, hc, h⟩ | ⟨hs, hc, hno, h⟩ | ⟨hs, hc, hle, hno, h⟩ := accept_cases w c
  · have hget : ∀ i, get { w with started := true } i = w.get i := fun _ => rfl
    simp [h, hs, Remembers, hget, hw hs]
  · -- the bitmap moves up
    simp only [h, Remembers, withHighest_highest, withHighest_started, withHighest_get,
      shiftBy_started, hs, true_and, and_true] at hn ⊢
    rw [get_shiftBy w (by omega)]
    by_cases hlow : n < w.highest
    · rw [show c.toNat - 1 - n - (c.toNat - w.highest) = w.highest - 1 - n by omega]
      constructor
      · rintro (heq | ⟨_, hlt, heq | ⟨_, hi, hbit⟩⟩)
        · exact Or.inl heq
        · omega
        · exact Or.inr ⟨Or.inr ⟨hlow, hbit⟩, by omega, by omega⟩
      · rintro (heq | ⟨heq | ⟨_, hbit⟩, hlt, hle⟩)
        · exact Or.inl heq
        · omega
        · exact Or.inr ⟨by omega, by omega, Or.inr ⟨by omega, by omega, hbit⟩⟩
    · constructor
      · rintro (heq | ⟨_, hlt, heq | ⟨hle, _, _⟩⟩)
        · exact Or.inl heq
        · exact Or.inr ⟨Or.inl (by omega), by omega, by omega⟩
        · omega
      · rintro (heq | ⟨heq | ⟨hlt, _⟩, hlt', hle⟩)
        · exact Or.inl heq
        · exact Or.inr ⟨by omega, by omega, Or.inl (by omega)⟩
        · omega
  · have hw0 : 0 < width := by decide
    simp only [h, reduceCtorEq, and_false, false_or]
    exact ⟨fun hr => ⟨hr, by have := hn hr; omega, by have := hn hr; omega⟩, And.left⟩
  · have hw0 : 0 < width := by decide
    have hb : w.highest - 1 - c.toNat < width := by omega
    simp only [h, Remembers, set_started, set_highest, hs, true_and, get_set hb, and_true] at hn ⊢
    constructor
    · rintro (heq | ⟨hlt, heq | hbit⟩)
      · exact Or.inr ⟨Or.inl heq, by omega, by omega⟩
      · exact Or.inl (by omega)
      · have := hn (Or.inr ⟨hlt, hbit⟩)
        exact Or.inr ⟨Or.inr ⟨hlt, hbit⟩, by omega, by omega⟩
    · rintro (rfl | ⟨heq | ⟨hlt, hbit⟩, _⟩)
      · exact Or.inr ⟨hc, Or.inl rfl⟩
      · exact Or.inl heq
      · exact Or.inr ⟨hlt, Or.inr hbit⟩

theorem clean_accept (w : ReplayWindow) (c : UInt32) : (w.accept c).1.Clean := by
  intro h
  rw [accept_started] at h
  cases h

/-! ## Every sequence of calls -/

/-- One call, with the counter it accepted, if it did. -/
def call (w : ReplayWindow) (c : UInt32) : ReplayWindow × List UInt32 :=
  ((w.accept c).1, if (w.accept c).2 = .ok () then [c] else [])

/-- The window after these calls, and the counters accepted. -/
def run (calls : List UInt32) : ReplayWindow × List UInt32 := Machine.run call new calls

theorem run_concat (calls : List UInt32) (c : UInt32) :
    run (calls ++ [c]) = (((run calls).1.accept c).1,
      (run calls).2 ++ if ((run calls).1.accept c).2 = .ok () then [c] else []) := by
  rw [run, Machine.run_concat]
  rfl

/-- The bitmap was moved by exactly its width away from the then highest
counter `n`, and no higher counter has come since. -/
def JumpedFrom (calls : List UInt32) (n : UInt32) : Prop :=
  ∃ before c after, calls = before ++ c :: after ∧ n ∈ before ∧ (∀ x ∈ before, x ≤ n)
    ∧ c.toNat = n.toNat + width ∧ ∀ x ∈ after, x ≤ c

/-- What the window knows about the counters accepted so far. -/
structure RunInv (calls : List UInt32) (w : ReplayWindow) (accepted : List UInt32) : Prop where
  clean : w.Clean
  started : w.started = true ↔ calls ≠ []
  highest_ge : ∀ x ∈ calls, x.toNat ≤ w.highest
  highest_mem : w.started = true → ∃ c ∈ accepted, c.toNat = w.highest
  subset : ∀ c ∈ accepted, c ∈ calls
  /-- An accepted counter is refused from then on, or was jumped over. -/
  known : ∀ c ∈ accepted, w.Remembers c.toNat ∨ c.toNat + width < w.highest
    ∨ c.toNat + width = w.highest ∧ JumpedFrom calls c

theorem JumpedFrom.concat {calls : List UInt32} {n : UInt32} (h : JumpedFrom calls n) {c : UInt32}
    (hc : c.toNat ≤ n.toNat + width) : JumpedFrom (calls ++ [c]) n := by
  obtain ⟨before, j, after, rfl, hn, hmax, hj, hafter⟩ := h
  refine ⟨before, j, after ++ [c], by simp, hn, hmax, hj, fun x hx => ?_⟩
  rcases List.mem_append.mp hx with hx | hx
  · exact hafter x hx
  · cases List.mem_singleton.mp hx
    rw [UInt32.le_iff_toNat_le, hj]
    exact hc

/-- An accepted counter that the next call makes the window forget is out
of its reach, or exactly one width below the new highest. -/
theorem RunInv.known_concat {calls : List UInt32} {w : ReplayWindow} {accepted : List UInt32}
    (h : RunInv calls w accepted) (c : UInt32) {a : UInt32} (ha : a ∈ accepted) :
    (w.accept c).1.Remembers a.toNat ∨ a.toNat + width < (w.accept c).1.highest
      ∨ a.toNat + width = (w.accept c).1.highest ∧ JumpedFrom (calls ++ [c]) a := by
  have hcalls : calls ≠ [] := List.ne_nil_of_mem (h.subset a ha)
  rw [remembers_accept h.clean, accept_highest, if_pos (h.started.mpr hcalls)]
  rcases h.known a ha with hr | hout | ⟨heq, hj⟩
  · by_cases hkeep : c.toNat < w.highest + width ∧ c.toNat ≤ a.toNat + width
    · exact Or.inl (Or.inr ⟨hr, hkeep⟩)
    · right
      have hle := hr.le
      by_cases hgt : a.toNat + width < c.toNat
      · exact Or.inl (by omega)
      · -- the window has jumped by its width, away from `a`
        have hjump : c.toNat = a.toNat + width := by omega
        refine Or.inr ⟨by omega, calls, c, [], rfl, h.subset a ha, fun x hx => ?_, hjump, by simp⟩
        have := h.highest_ge x hx
        rw [UInt32.le_iff_toNat_le]
        omega
  · exact Or.inr (Or.inl (by omega))
  · by_cases hgt : w.highest < c.toNat
    · exact Or.inr (Or.inl (by omega))
    · exact Or.inr (Or.inr ⟨by omega, hj.concat (by omega)⟩)

theorem runInv_run (calls : List UInt32) : RunInv calls (run calls).1 (run calls).2 := by
  induction calls using List.reverseRecOn with
  | nil =>
    exact ⟨clean_new, by simp [run, new], by simp, by simp [run, new], by simp [run],
      by simp [run]⟩
  | append_singleton calls c ih =>
    rw [run_concat]
    generalize (run calls).1 = w at ih ⊢
    generalize (run calls).2 = accepted at ih ⊢
    have hmem : ∀ {a}, a ∈ (if (w.accept c).2 = .ok () then [c] else []) →
        a = c ∧ (w.accept c).2 = .ok () := by
      intro a ha
      split at ha
      · exact ⟨List.mem_singleton.mp ha, ‹_›⟩
      · cases ha
    refine ⟨clean_accept w c, by simp [accept_started], fun x hx => ?_, fun _ => ?_, fun a ha => ?_,
      fun a ha => ?_⟩
    · rw [accept_highest]
      rcases List.mem_append.mp hx with hx | hx
      · rw [if_pos (ih.started.mpr (List.ne_nil_of_mem hx))]
        exact le_max_of_le_left (ih.highest_ge x hx)
      · cases List.mem_singleton.mp hx
        split
        · exact le_max_right _ _
        · exact le_rfl
    · -- the highest counter is the one just accepted, or an earlier one
      by_cases hold : w.started = true ∧ c.toNat ≤ w.highest
      · obtain ⟨a, ha, heq⟩ := ih.highest_mem hold.1
        refine ⟨a, List.mem_append_left _ ha, ?_⟩
        rw [accept_highest, if_pos hold.1, max_eq_left hold.2, heq]
      · have hok : (w.accept c).2 = .ok () := by
          rw [accept_ok_iff]
          refine ⟨fun hr => hold ⟨hr.1, hr.le.1⟩, fun hs => ?_⟩
          have : ¬ c.toNat ≤ w.highest := fun hle => hold ⟨hs, hle⟩
          omega
        refine ⟨c, by simp [hok], ?_⟩
        rw [accept_highest]
        split
        · rename_i hs
          have : ¬ c.toNat ≤ w.highest := fun hle => hold ⟨hs, hle⟩
          rw [max_eq_right (by omega)]
        · rfl
    · rcases List.mem_append.mp ha with ha | ha
      · exact List.mem_append_left _ (ih.subset a ha)
      · rw [(hmem ha).1]
        simp
    · rcases List.mem_append.mp ha with ha | ha
      · exact ih.known_concat c ha
      · obtain ⟨rfl, hok⟩ := hmem ha
        exact Or.inl ((remembers_accept ih.clean a _).mpr (Or.inl ⟨rfl, hok⟩))

theorem run_append_nodup {calls more : List UInt32} (h : (run (calls ++ more)).2.Nodup) :
    (run calls).2.Nodup := by
  rw [run, Machine.run_append] at h
  exact h.of_append_left

/-- The window does not know `n`, which lies just within its reach. -/
structure Lost (w : ReplayWindow) (n : UInt32) : Prop where
  started : w.started = true
  highest : w.highest = n.toNat + width
  unknown : ¬ w.Remembers n.toNat

theorem Lost.accept {w : ReplayWindow} {n : UInt32} (h : Lost w n) : (w.accept n).2 = .ok () :=
  (accept_ok_iff w n).mpr ⟨h.unknown, fun _ => h.highest.le⟩

/-- Other counters that do not move the window leave `n` unknown. -/
theorem Lost.other {w : ReplayWindow} {n x : UInt32} (h : Lost w n) (hw : w.Clean) (hne : x ≠ n)
    (hx : x.toNat ≤ w.highest) : Lost (w.accept x).1 n where
  started := accept_started w x
  highest := by rw [accept_highest, if_pos h.started, max_eq_left hx, h.highest]
  unknown := by
    rw [remembers_accept hw]
    rintro (⟨heq, _⟩ | ⟨hr, _⟩)
    · exact hne (UInt32.toNat_inj.mp heq.symm)
    · exact h.unknown hr

/-- A jump by the whole width away from the highest counter loses it. -/
theorem lost_jump {w : ReplayWindow} {n c : UInt32} (hw : w.Clean) (hs : w.started = true)
    (hn : w.highest = n.toNat) (hc : c.toNat = n.toNat + width) : Lost (w.accept c).1 n where
  started := accept_started w c
  highest := by rw [accept_highest, if_pos hs, max_eq_right (by omega), hc]
  unknown := by
    have hw0 : 0 < width := by decide
    rw [remembers_accept hw]
    omega

/-- The highest counter so far has been accepted. -/
theorem RunInv.max_accepted {calls : List UInt32} {w : ReplayWindow} {accepted : List UInt32}
    (h : RunInv calls w accepted) {n : UInt32} (hn : n ∈ calls) (hmax : ∀ x ∈ calls, x ≤ n) :
    n ∈ accepted ∧ w.started = true ∧ w.highest = n.toNat := by
  have hs := h.started.mpr (List.ne_nil_of_mem hn)
  obtain ⟨a, ha, heq⟩ := h.highest_mem hs
  have h1 := h.highest_ge n hn
  have h2 := UInt32.le_iff_toNat_le.mp (hmax a (h.subset a ha))
  have han : a = n := UInt32.toNat_inj.mp (by omega)
  exact ⟨han ▸ ha, hs, by omega⟩

/-- A counter that was jumped over is accepted again, at the latest when
it is next presented. -/
theorem not_nodup_of_jumpedFrom {calls : List UInt32} {n : UInt32} (h : JumpedFrom calls n) :
    ¬ (run (calls ++ [n])).2.Nodup := by
  obtain ⟨before, c, after, rfl, hn, hmax, hc, hafter⟩ := h
  obtain ⟨hacc, hs, hhigh⟩ := (runInv_run before).max_accepted hn hmax
  have hfirst : ∀ l, n ∈ (run (before ++ l)).2 := by
    intro l
    rw [run, Machine.run_append]
    exact List.mem_append_left _ hacc
  have hagain : ∀ l, Lost (run (before ++ l)).1 n → ¬ (run (before ++ l ++ [n])).2.Nodup := by
    intro l hl hnd
    rw [run_concat, if_pos hl.accept] at hnd
    exact (List.nodup_append.mp hnd).2.2 n (hfirst l) n (by simp) rfl
  -- by induction on the calls since the jump
  have hsince : ∀ l : List UInt32, (∀ x ∈ l, x ≤ c) →
      ¬ (run (before ++ c :: l)).2.Nodup ∨ Lost (run (before ++ c :: l)).1 n := by
    intro l
    induction l using List.reverseRecOn with
    | nil =>
      intro _
      right
      rw [run_concat]
      exact lost_jump (runInv_run before).clean hs hhigh hc
    | append_singleton l x ih =>
      intro hx
      rw [← List.cons_append, ← List.append_assoc]
      rcases ih fun y hy => hx y (List.mem_append_left _ hy) with hno | hlost
      · exact Or.inl fun hnd => hno (run_append_nodup hnd)
      · by_cases hxn : x = n
        · exact Or.inl (hxn ▸ hagain _ hlost)
        · right
          rw [run_concat]
          have hxc := UInt32.le_iff_toNat_le.mp (hx x (by simp))
          exact hlost.other (runInv_run _).clean hxn (by rw [hlost.highest]; omega)
  rcases hsince after hafter with hno | hlost
  · exact fun hnd => hno (run_append_nodup hnd)
  · exact hagain _ hlost

/-- **No counter is accepted twice, exactly if none is presented after the
window jumped by its whole width away from it.** At that distance
`shift_by` clears the bitmap and returns before it records the outgoing
highest, which is still within reach. -/
theorem accepted_once_iff (calls : List UInt32) : (run calls).2.Nodup
    ↔ ∀ before n after, calls = before ++ n :: after → ¬ JumpedFrom before n := by
  constructor
  · rintro hnd before n after rfl hj
    refine not_nodup_of_jumpedFrom hj (@run_append_nodup _ after ?_)
    simpa using hnd
  · induction calls using List.reverseRecOn with
    | nil => simp [run]
    | append_singleton calls c ih =>
      intro h
      have hnd := ih fun before n after heq => h before n (after ++ [c]) (by simp [heq])
      have hinv := runInv_run calls
      rw [run_concat]
      split
      · rename_i hok
        obtain ⟨hno, hle⟩ := (accept_ok_iff _ c).mp hok
        refine List.nodup_append.mpr ⟨hnd, by simp, fun a ha b hb heq => ?_⟩
        cases List.mem_singleton.mp hb
        subst heq
        -- a second acceptance: neither remembered nor out of reach
        rcases hinv.known a ha with hr | hout | ⟨_, hj⟩
        · exact hno hr
        · have := hle (hinv.started.mpr (List.ne_nil_of_mem (hinv.subset a ha)))
          omega
        · exact h calls a [] rfl hj
      · simpa using hnd

/-- Counter 0, the one exactly a width later, and counter 0 again. -/
theorem readmitted_at_width : ¬ ∀ calls, (run calls).2.Nodup := by
  intro h
  exact absurd (h [0, 1024, 0]) (by decide +kernel)

/-! ## What is refused -/

/-- What the window remembers was accepted: no move of the bitmap sets a
bit of its own. -/
theorem accepted_of_remembers (calls : List UInt32) {n : Nat} (h : (run calls).1.Remembers n) :
    ∃ a ∈ (run calls).2, a.toNat = n := by
  induction calls using List.reverseRecOn with
  | nil => simp [Remembers, run, new] at h
  | append_singleton calls c ih =>
    rw [run_concat] at h ⊢
    rcases (remembers_accept (runInv_run calls).clean c n).mp h with ⟨heq, hok⟩ | ⟨hr, _⟩
    · exact ⟨c, by simp [hok], heq.symm⟩
    · obtain ⟨a, ha, heq⟩ := ih hr
      exact ⟨a, List.mem_append_left _ ha, heq⟩

/-- The highest accepted counter is the one the window stands at. -/
theorem highest_run {calls : List UInt32} {h : UInt32}
    (hmax : IsGreatest {a | a ∈ (run calls).2} h) :
    (run calls).1.started = true ∧ (run calls).1.highest = h.toNat := by
  have hinv := runInv_run calls
  have hs := hinv.started.mpr (List.ne_nil_of_mem (hinv.subset h hmax.1))
  obtain ⟨a, ha, heq⟩ := hinv.highest_mem hs
  have hle := hinv.highest_ge h (hinv.subset h hmax.1)
  have hge := UInt32.le_iff_toNat_le.mp (hmax.2 ha)
  exact ⟨hs, by omega⟩

/-- `c` would be the first counter accepted, or it is above the highest one
accepted, or at most `width` below it. -/
def Within (accepted : List UInt32) (c : UInt32) : Prop :=
  accepted = [] ∨ ∃ h, IsGreatest {a | a ∈ accepted} h ∧ (h < c ∨ h.toNat ≤ c.toNat + width)

theorem Within.le {calls : List UInt32} {c : UInt32} (h : Within (run calls).2 c)
    (hs : (run calls).1.started = true) : (run calls).1.highest ≤ c.toNat + width := by
  rcases h with hnil | ⟨h, hmax, hc⟩
  · obtain ⟨a, ha, _⟩ := (runInv_run calls).highest_mem hs
    rw [hnil] at ha
    cases ha
  · rw [(highest_run hmax).2]
    rcases hc with hlt | hle
    · have := UInt32.lt_iff_toNat_lt.mp hlt
      omega
    · exact hle

/-- **The window refuses nothing it should accept.** A counter not accepted
before is accepted while it is within reach, one further back never is, and
every set bit stands for an accepted counter. -/
theorem window_complete (calls : List UInt32) :
    (∀ c, c ∉ (run calls).2 → Within (run calls).2 c → ((run calls).1.accept c).2 = .ok ())
    ∧ (∀ h c, IsGreatest {a | a ∈ (run calls).2} h → c.toNat + width < h.toNat →
      (run calls).1.accept c = ((run calls).1, .error (.replay c.toNat)))
    ∧ ∀ n, n < (run calls).1.highest → (run calls).1.get ((run calls).1.highest - 1 - n) = true →
      ∃ a ∈ (run calls).2, a.toNat = n := by
  refine ⟨fun c hnew hin => ?_, fun h c hmax hc => ?_, fun n hn hbit => ?_⟩
  · rw [accept_ok_iff]
    refine ⟨fun hr => ?_, hin.le⟩
    obtain ⟨a, ha, heq⟩ := accepted_of_remembers calls hr
    exact hnew (UInt32.toNat_inj.mp heq ▸ ha)
  · obtain ⟨hs, hhigh⟩ := highest_run hmax
    obtain ⟨hs', _⟩ | ⟨_, hgt, _⟩ | ⟨_, _, _, hacc⟩ | ⟨_, _, hle, _⟩ :=
      accept_cases (run calls).1 c
    · rw [hs] at hs'
      cases hs'
    · omega
    · exact hacc
    · omega
  · have hs : (run calls).1.started = true := by
      -- an empty window has no bit
      by_contra hs
      have := (runInv_run calls).clean (by simpa using hs) ((run calls).1.highest - 1 - n)
      rw [this] at hbit
      cases hbit
    exact accepted_of_remembers calls ⟨hs, Or.inr ⟨hn, hbit⟩⟩

end ReplayWindow

end Protofish4
