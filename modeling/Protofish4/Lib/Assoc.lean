import Mathlib

/-!
# Updating a table in place

`AList.replace` writes through a reference that a lookup has found: the
keys stay, and stay in their order. What a lookup finds afterwards.
-/

namespace Assoc

variable {α : Type*} {β : α → Type*} [DecidableEq α]

theorem kreplace_cons (a k : α) (b : β a) (v : β k) (l : List (Sigma β)) :
    List.kreplace a b (⟨k, v⟩ :: l) = if a = k then ⟨a, b⟩ :: l else ⟨k, v⟩ :: l.kreplace a b := by
  unfold List.kreplace
  split
  · exact List.lookmap_cons_some _ _ (if_pos ‹_›)
  · exact List.lookmap_cons_none _ _ (if_neg ‹_›)

theorem dlookup_kreplace_ne {a a' : α} (b : β a) (h : a' ≠ a) (l : List (Sigma β)) :
    (l.kreplace a b).dlookup a' = l.dlookup a' := by
  induction l with
  | nil => rfl
  | cons x l ih =>
    obtain ⟨k, v⟩ := x
    rw [kreplace_cons]
    split
    · rename_i hk
      rw [List.dlookup_cons_ne l ⟨a, b⟩ h, List.dlookup_cons_ne l ⟨k, v⟩ (hk ▸ h)]
    · by_cases hk' : a' = k
      · subst hk'
        rw [List.dlookup_cons_eq, List.dlookup_cons_eq]
      · rw [List.dlookup_cons_ne _ ⟨k, v⟩ hk', List.dlookup_cons_ne _ ⟨k, v⟩ hk', ih]

theorem dlookup_kreplace_self {a : α} (b : β a) {l : List (Sigma β)}
    (h : (l.dlookup a).isSome) : (l.kreplace a b).dlookup a = some b := by
  induction l with
  | nil => cases h
  | cons x l ih =>
    obtain ⟨k, v⟩ := x
    rw [kreplace_cons]
    split
    · rw [List.dlookup_cons_eq]
    · rename_i hk
      rw [List.dlookup_cons_ne _ ⟨k, v⟩ hk] at h ⊢
      exact ih h

variable {m : AList β} {a a' : α}

theorem lookup_replace_ne (b : β a) (h : a' ≠ a) : (m.replace a b).lookup a' = m.lookup a' :=
  dlookup_kreplace_ne b h m.entries

/-- The new value is found where there was one. -/
theorem lookup_replace (b : β a) {v : β a} (h : m.lookup a = some v) :
    (m.replace a b).lookup a = some b :=
  dlookup_kreplace_self b (Option.isSome_iff_exists.mpr ⟨v, h⟩)

/-- Writing back what is there changes nothing. -/
theorem replace_self {v : β a} (h : m.lookup a = some v) : m.replace a v = m :=
  AList.ext (List.kreplace_self m.nodupKeys (AList.mem_lookup_iff.mp h))

/-- What is found after an erasure was there before it. -/
theorem lookup_of_erase {v : β a'} (h : (m.erase a).lookup a' = some v) :
    m.lookup a' = some v := by
  by_cases ha : a' = a
  · subst ha
    rw [AList.lookup_erase] at h
    cases h
  · rwa [AList.lookup_erase_ne ha] at h

theorem lookup_of_foldl_erase {v : β a'} (as : List α) (m : AList β)
    (h : (as.foldl (fun m a => m.erase a) m).lookup a' = some v) : m.lookup a' = some v := by
  induction as generalizing m with
  | nil => exact h
  | cons a as ih => exact lookup_of_erase (ih (m.erase a) h)

/-- Erasing several keys, one after the other. -/
theorem mem_foldl_erase (as : List α) (m : AList β) :
    a' ∈ as.foldl (fun m a => m.erase a) m ↔ a' ∉ as ∧ a' ∈ m := by
  induction as generalizing m with
  | nil => simp
  | cons a as ih =>
    rw [List.foldl_cons, ih, AList.mem_erase, List.mem_cons, not_or]
    tauto

end Assoc
