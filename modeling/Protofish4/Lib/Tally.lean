import Mathlib

/-!
# Counting in ordered maps

The total weight of the values of an ordered map, and how it moves with one
insertion or erasure; and how many numbers an ordered map or set can hold
between two bounds.
-/

namespace Tally

open Std (ExtTreeMap ExtTreeSet TransCmp LawfulEqCmp)

section Total

variable {α β : Type*} {cmp : α → α → Ordering} [TransCmp cmp] [LawfulEqCmp cmp]

/-- The summed weight of the values. -/
def total (w : β → ℕ) (m : ExtTreeMap α β cmp) : ℕ := (m.toList.map fun e => w e.2).sum

@[simp] theorem total_empty (w : β → ℕ) : total w (∅ : ExtTreeMap α β cmp) = 0 := by
  have hnil : (∅ : ExtTreeMap α β cmp).toList = [] := by
    refine List.eq_nil_iff_forall_not_mem.mpr ?_
    rintro ⟨a, b⟩ h
    rw [ExtTreeMap.mem_toList_iff_getElem?_eq_some] at h
    simp at h
  simp [total, hnil]

theorem nodup_toList (m : ExtTreeMap α β cmp) : m.toList.Nodup := by
  have h := ExtTreeMap.distinct_keys_toList (t := m)
  refine h.imp fun {a b} hab heq => hab ?_
  rw [heq]
  exact Std.ReflCmp.compare_self

theorem toList_perm_of_erase {m : ExtTreeMap α β cmp} {k : α} {v : β} (h : m[k]? = some v) :
    m.toList.Perm ((k, v) :: (m.erase k).toList) := by
  refine (List.perm_ext_iff_of_nodup (nodup_toList m) ?_).mpr ?_
  · refine List.nodup_cons.mpr ⟨fun hmem => ?_, nodup_toList _⟩
    rw [ExtTreeMap.mem_toList_iff_getElem?_eq_some, ExtTreeMap.getElem?_erase_self] at hmem
    cases hmem
  · rintro ⟨a, b⟩
    rw [List.mem_cons, ExtTreeMap.mem_toList_iff_getElem?_eq_some,
      ExtTreeMap.mem_toList_iff_getElem?_eq_some, ExtTreeMap.getElem?_erase]
    by_cases hk : cmp k a = .eq
    · have heq := LawfulEqCmp.eq_of_compare hk
      subst heq
      simp [h, eq_comm]
    · have hne : a ≠ k := by
        rintro rfl
        exact hk Std.ReflCmp.compare_self
      simp [hk, hne]

/-- An erased value takes its weight along. -/
theorem total_erase (w : β → ℕ) {m : ExtTreeMap α β cmp} {k : α} {v : β} (h : m[k]? = some v) :
    total w (m.erase k) + w v = total w m := by
  have hperm := (toList_perm_of_erase h).map fun e => w e.2
  rw [total, total, hperm.sum_eq, List.map_cons, List.sum_cons, Nat.add_comm]

/-- A value under a new key adds its weight. -/
theorem total_insert (w : β → ℕ) {m : ExtTreeMap α β cmp} {k : α} (v : β) (h : m[k]? = none) :
    total w (m.insert k v) = total w m + w v := by
  have herase : (m.insert k v).erase k = m := by
    ext a b
    rw [ExtTreeMap.getElem?_erase, ExtTreeMap.getElem?_insert]
    by_cases hk : cmp k a = .eq
    · have heq := LawfulEqCmp.eq_of_compare hk
      subst heq
      simp [h]
    · simp [hk]
  rw [← total_erase w (ExtTreeMap.getElem?_insert_self (t := m) (k := k) (v := v)), herase]

end Total

/-- The total of a map that holds the values of a history above `c`. -/
theorem total_eq_sum {β : Type*} (w : β → ℕ) {m : ExtTreeMap ℕ β} {hist : ℕ → Option β} {c n : ℕ}
    (h : ∀ s, m[s]? = if c < s then hist s else none) (hn : ∀ s, (hist s).isSome → s ≤ n) :
    total w m = (((List.range' (c + 1) (n - c)).filterMap hist).map w).sum := by
  let entries := (List.range' (c + 1) (n - c)).filterMap fun s => (hist s).map (Prod.mk s)
  have hnodup : entries.Nodup := by
    refine List.Nodup.of_map Prod.fst ?_
    have hkeys : entries.map Prod.fst
        = (List.range' (c + 1) (n - c)).filter fun s => (hist s).isSome := by
      rw [List.map_filterMap, ← List.filterMap_eq_filter]
      refine List.filterMap_congr fun s _ => ?_
      cases hs : hist s with
      | none => simp [Option.guard, hs]
      | some v => simp [Option.guard, hs]
    rw [hkeys]
    exact List.Nodup.filter _ List.nodup_range'
  have hperm : m.toList.Perm entries := by
    refine (List.perm_ext_iff_of_nodup (nodup_toList m) hnodup).mpr ?_
    rintro ⟨s, v⟩
    rw [ExtTreeMap.mem_toList_iff_getElem?_eq_some, h, List.mem_filterMap]
    simp only [List.mem_range'_1, Option.map_eq_some_iff, Prod.mk.injEq]
    constructor
    · intro hv
      split at hv
      · rename_i hlt
        have hle := hn s (by rw [hv]; rfl)
        exact ⟨s, by omega, v, hv, rfl, rfl⟩
      · cases hv
    · rintro ⟨t, hbetween, v', hv, rfl, rfl⟩
      rw [if_pos (by omega), hv]
  have hvalues : entries.map Prod.snd = (List.range' (c + 1) (n - c)).filterMap hist := by
    rw [List.map_filterMap]
    refine List.filterMap_congr fun s _ => ?_
    cases hist s <;> rfl
  rw [total, (hperm.map fun e => w e.2).sum_eq, ← hvalues, List.map_map]
  rfl

/-! ## Numbers between two bounds -/

theorem card_le_of_between {l : List ℕ} {lo hi : ℕ} (hnd : l.Nodup)
    (h : ∀ k ∈ l, lo < k ∧ k ≤ hi) : l.length ≤ hi - lo := by
  have hsub : l.toFinset ⊆ Finset.Ioc lo hi := by
    intro k hk
    exact Finset.mem_Ioc.mpr (h k (List.mem_toFinset.mp hk))
  calc l.length = l.toFinset.card := (List.toFinset_card_of_nodup hnd).symm
    _ ≤ (Finset.Ioc lo hi).card := Finset.card_le_card hsub
    _ = hi - lo := Nat.card_Ioc lo hi

theorem nodup_keys {β : Type*} (m : ExtTreeMap ℕ β) : m.keys.Nodup := by
  simpa using ExtTreeMap.nodup_keys (t := m)

theorem nodup_set (t : ExtTreeSet ℕ) : t.toList.Nodup := by
  have h : t.toList.Pairwise (· < ·) := by
    simpa only [Nat.compare_eq_lt] using ExtTreeSet.ordered_toList (t := t)
  exact h.imp Nat.ne_of_lt

theorem size_map_le {β : Type*} {m : ExtTreeMap ℕ β} {lo hi : ℕ}
    (h : ∀ k ∈ m, lo < k ∧ k ≤ hi) : m.size ≤ hi - lo := by
  rw [← ExtTreeMap.length_keys]
  exact card_le_of_between (nodup_keys m) fun k hk => h k (ExtTreeMap.mem_keys.mp hk)

theorem size_set_le {t : ExtTreeSet ℕ} {lo hi : ℕ} (h : ∀ k ∈ t, lo < k ∧ k ≤ hi) :
    t.size ≤ hi - lo := by
  rw [← ExtTreeSet.length_toList]
  exact card_le_of_between (nodup_set t) fun k hk => h k (ExtTreeSet.mem_toList.mp hk)

/-- A set of numbers with known members has their count. -/
theorem size_set_eq {t : ExtTreeSet ℕ} {s : Finset ℕ} (h : ∀ k, k ∈ t ↔ k ∈ s) :
    t.size = s.card := by
  have hs : t.toList.toFinset = s := by
    ext k
    rw [List.mem_toFinset, ExtTreeSet.mem_toList, h]
  rw [← ExtTreeSet.length_toList, ← List.toFinset_card_of_nodup (nodup_set t), hs]

end Tally
