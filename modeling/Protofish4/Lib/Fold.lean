import Mathlib

/-!
# Order and repetition do not matter

Inputs that act on a state so that any two of them commute and each is
absorbed by an earlier occurrence of itself: the state they lead to depends
on the set of inputs alone.
-/

namespace Fold

variable {σ ι : Type*} {act : σ → ι → σ} {l l' : List ι}

theorem foldl_comm (hcomm : ∀ s i j, act (act s i) j = act (act s j) i) (l : List ι) (s : σ)
    (i : ι) : l.foldl act (act s i) = act (l.foldl act s) i := by
  induction l generalizing s with
  | nil => rfl
  | cons j l ih => rw [List.foldl_cons, List.foldl_cons, hcomm, ih]

/-- An input that has acted changes nothing any more. -/
theorem absorbed (hcomm : ∀ s i j, act (act s i) j = act (act s j) i)
    (hidem : ∀ s i, act (act s i) i = act s i) {i : ι} (h : i ∈ l) (s : σ) :
    act (l.foldl act s) i = l.foldl act s := by
  induction l generalizing s with
  | nil => cases h
  | cons j l ih =>
    rcases List.mem_cons.mp h with rfl | h
    · rw [List.foldl_cons, ← foldl_comm hcomm, hidem]
    · exact ih h (act s j)

theorem foldl_append_of_subset (hcomm : ∀ s i j, act (act s i) j = act (act s j) i)
    (hidem : ∀ s i, act (act s i) i = act s i) (h : l' ⊆ l) (s : σ) :
    (l ++ l').foldl act s = l.foldl act s := by
  induction l' using List.reverseRecOn with
  | nil => rw [List.append_nil]
  | append_singleton l' i ih =>
    obtain ⟨hl', hi⟩ := List.append_subset.mp h
    rw [← List.append_assoc, List.foldl_concat, ih hl']
    exact absorbed hcomm hidem (hi (List.mem_singleton_self i)) s

/-- **The same inputs**, in any order and any number, lead to the same state. -/
theorem foldl_eq_of_mem_iff (hcomm : ∀ s i j, act (act s i) j = act (act s j) i)
    (hidem : ∀ s i, act (act s i) i = act s i) (h : ∀ i, i ∈ l ↔ i ∈ l') (s : σ) :
    l.foldl act s = l'.foldl act s := by
  have hright : RightCommutative act := ⟨fun s i j => hcomm s i j⟩
  calc l.foldl act s
      = (l ++ l').foldl act s :=
        (foldl_append_of_subset hcomm hidem (fun i hi => (h i).mpr hi) s).symm
    _ = (l' ++ l).foldl act s := List.perm_append_comm.foldl_eq s
    _ = l'.foldl act s := foldl_append_of_subset hcomm hidem (fun i hi => (h i).mp hi) s

end Fold
