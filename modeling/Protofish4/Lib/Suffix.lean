import Mathlib

/-!
# The longest suffix that fits

A queue that drops its oldest elements until a budget is met keeps, of
everything ever put into it, the longest suffix within the budget. `longest`
is that suffix by recursion from the front; the budget is any property of
lists that shorter lists inherit.
-/

namespace Suffix

variable {α : Type*} {P : List α → Prop} {l s : List α}

/-- `s` is the longest suffix of `l` that satisfies `P`. -/
structure Longest (P : List α → Prop) (s l : List α) : Prop where
  suffix : s <:+ l
  holds : P s
  maximal : ∀ t, t <:+ l → P t → t <:+ s

/-- Where everything after an element that satisfies `a` satisfies it too,
what is left of a list is the same whichever way the others are dropped. -/
theorem dropWhile_eq_filter {a : α → Bool} (h : l.Pairwise fun x y => a x = true → a y = true) :
    l.dropWhile (fun x => !a x) = l.filter a := by
  induction l with
  | nil => rfl
  | cons x l ih =>
    obtain ⟨hx, hl⟩ := List.pairwise_cons.mp h
    by_cases ha : a x = true
    · rw [List.dropWhile_cons_of_neg (by simp [ha])]
      refine (List.filter_eq_self.mpr fun y hy => ?_).symm
      rcases List.mem_cons.mp hy with rfl | hy
      · exact ha
      · exact hx y hy ha
    · rw [List.dropWhile_cons_of_pos (by simp [ha]), List.filter_cons_of_neg ha, ih hl]

section Compute

variable (P) [DecidablePred P]

def longest : List α → List α
  | [] => []
  | x :: l => if P (x :: l) then x :: l else longest l

variable {P}

theorem longest_of_holds (h : P l) : longest P l = l := by
  cases l with
  | nil => rfl
  | cons x l => exact if_pos h

theorem longest_suffix (l : List α) : longest P l <:+ l := by
  induction l with
  | nil => exact List.suffix_rfl
  | cons x l ih =>
    unfold longest
    split
    · exact List.suffix_rfl
    · exact ih.trans (List.suffix_cons x l)

theorem longest_spec (h : P []) (l : List α) : Longest P (longest P l) l := by
  refine ⟨longest_suffix l, ?_, ?_⟩
  · induction l with
    | nil => exact h
    | cons x l ih =>
      unfold longest
      split
      · assumption
      · exact ih
  · induction l with
    | nil => exact fun t ht _ => ht
    | cons x l ih =>
      intro t ht hP
      unfold longest
      split
      · exact ht
      · rename_i hno
        rcases List.suffix_cons_iff.mp ht with rfl | ht
        · exact absurd hP hno
        · exact ih t ht hP

/-- **One more at the end**: what did not fit before does not fit now, so
only what was kept counts. -/
theorem longest_concat (hinit : ∀ l x, P (l ++ [x]) → P l) (l : List α) (x : α) :
    longest P (l ++ [x]) = longest P (longest P l ++ [x]) := by
  induction l with
  | nil => rfl
  | cons y l ih =>
    by_cases h : P (y :: l)
    · rw [longest_of_holds h]
    · have hno : ¬ P (y :: l ++ [x]) := fun hP => h (hinit _ _ hP)
      have hout : longest P (y :: l ++ [x]) = longest P (l ++ [x]) := if_neg hno
      have hin : longest P (y :: l) = longest P l := if_neg h
      rw [hout, hin, ih]

/-- **Dropping from the front** for another reason, before or after. -/
theorem longest_filter (htail : ∀ x l, P (x :: l) → P l) (a : α → Bool)
    (h : l.Pairwise fun x y => a x = true → a y = true) :
    longest P (l.filter a) = (longest P l).filter a := by
  induction l with
  | nil => rfl
  | cons x l ih =>
    obtain ⟨hx, hl⟩ := List.pairwise_cons.mp h
    by_cases ha : a x = true
    · -- everything from `x` on stays
      have hall : ∀ y ∈ x :: l, a y = true := by
        intro y hy
        rcases List.mem_cons.mp hy with rfl | hy
        · exact ha
        · exact hx y hy ha
      rw [List.filter_eq_self.mpr hall]
      exact (List.filter_eq_self.mpr fun y hy => hall y ((longest_suffix _).subset hy)).symm
    · rw [List.filter_cons_of_neg ha, ih hl]
      by_cases hP : P (x :: l)
      · rw [longest_of_holds hP, longest_of_holds (htail x l hP), List.filter_cons_of_neg ha]
      · rw [show longest P (x :: l) = longest P l from if_neg hP]

end Compute

end Suffix
