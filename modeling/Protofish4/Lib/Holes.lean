import Mathlib

/-!
# Initial segments and holes

A set of arrived positive numbers has an initial segment `1..c` and, above
it, numbers with holes between them. `Filled` is the segment, `holesFrom`
the list of numbers missing below the members of a sorted list. The
moving-expectation walk that collects holes up to a limit is proved equal
to the one-line definition: filter the whole interval, then truncate.
-/

namespace Holes

/-- Every number `1..c` belongs to `A`. -/
def Filled (A : Set ℕ) (c : ℕ) : Prop := ∀ s, 1 ≤ s → s ≤ c → s ∈ A

theorem Filled.mono {A B : Set ℕ} {c : ℕ} (h : Filled A c) (hAB : A ⊆ B) : Filled B c :=
  fun s h1 hc => hAB (h s h1 hc)

theorem Filled.le {A : Set ℕ} {c d : ℕ} (h : Filled A c) (hd : d ≤ c) : Filled A d :=
  fun s h1 hs => h s h1 (le_trans hs hd)

/-- A filled segment ends no later than the least absent number. -/
theorem Filled.le_of_not_mem {A : Set ℕ} {c d : ℕ} (h : Filled A c) (hd : d + 1 ∉ A) : c ≤ d := by
  by_contra hlt
  exact hd (h (d + 1) (by omega) (by omega))

/-- The end of the initial segment is unique. -/
theorem filled_unique {A : Set ℕ} {c d : ℕ} (hc : Filled A c) (hc' : c + 1 ∉ A)
    (hd : Filled A d) (hd' : d + 1 ∉ A) : c = d :=
  le_antisymm (hc.le_of_not_mem hd') (hd.le_of_not_mem hc')

/-! ## Holes below the members of a sorted list -/

/-- The numbers from `e` on that lie below some member of `l` and are not
members themselves, for an increasing `l`. -/
def holesFrom : ℕ → List ℕ → List ℕ
  | _, [] => []
  | e, h :: t => List.range' e (h - e) ++ holesFrom (h + 1) t

/-- The holes of an increasing list are the absent numbers of the interval
up to its last member. -/
theorem holesFrom_eq_filter {l : List ℕ} {e : ℕ} (sorted : l.Pairwise (· < ·))
    (above : ∀ h ∈ l, e ≤ h) :
    holesFrom e l = (List.range' e (l.getLast?.getD e - e)).filter (· ∉ l) := by
  induction l generalizing e with
  | nil => simp [holesFrom]
  | cons h t ih =>
    obtain ⟨hlt, ht⟩ := List.pairwise_cons.mp sorted
    have heh : e ≤ h := above h (by simp)
    rcases List.eq_nil_or_concat t with rfl | ⟨t', m, rfl⟩
    · -- a single member: everything below it is absent
      have hall : ∀ x ∈ List.range' e (h - e), x ∉ [h] := by
        intro x hx
        have := (List.mem_range'_1.mp hx).2
        simp
        omega
      simp only [holesFrom, List.append_nil, List.getLast?_singleton, Option.getD_some]
      exact (List.filter_eq_self.mpr (by simpa using hall)).symm
    · -- split the interval at `h`
      have hm : h < m := hlt m (by simp)
      have hrest := ih ht (fun x hx => hlt x hx)
      rw [List.concat_eq_append, List.getLast?_concat, Option.getD_some] at hrest
      rw [List.concat_eq_append] at *
      have hlast : (h :: (t' ++ [m])).getLast? = some m := by
        rw [← List.cons_append, List.getLast?_concat]
      have hsplit : List.range' e (m - e)
          = List.range' e (h - e) ++ h :: List.range' (h + 1) (m - (h + 1)) := by
        have h1 : m - e = (h - e) + (1 + (m - (h + 1))) := by omega
        have h2 : e + (h - e) = h := by omega
        rw [h1, ← List.range'_append_1, h2, ← List.range'_append_1]
        rfl
      have hfront : (List.range' e (h - e)).filter (· ∉ h :: (t' ++ [m]))
          = List.range' e (h - e) := by
        apply List.filter_eq_self.mpr
        intro x hx
        have hxh := (List.mem_range'_1.mp hx).2
        have hnot : x ∉ h :: (t' ++ [m]) := by
          intro hmem
          rcases List.mem_cons.mp hmem with rfl | hmem
          · omega
          · have := hlt x hmem
            omega
        simpa using hnot
      have hback : (List.range' (h + 1) (m - (h + 1))).filter (· ∉ h :: (t' ++ [m]))
          = (List.range' (h + 1) (m - (h + 1))).filter (· ∉ t' ++ [m]) := by
        apply List.filter_congr
        intro x hx
        have hxh := (List.mem_range'_1.mp hx).1
        have hne : x ≠ h := by omega
        simp [hne]
      rw [holesFrom, hlast, Option.getD_some, hsplit, List.filter_append, hfront, List.filter_cons,
        hback, hrest]
      simp

end Holes
