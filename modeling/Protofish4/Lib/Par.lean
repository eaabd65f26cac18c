import Protofish4.Lib.Net

/-!
# Two machines side by side

Two machines that share nothing, run in any interleaving: each side of the
run is the run of one machine on its own inputs. What relates earlier and
later entries of an interleaving is shown class by class.
-/

namespace Par

open Net (lefts rights)

variable {σ₁ σ₂ ι₁ ι₂ ε₁ ε₂ : Type*}

/-- One step of either machine. -/
def step (f : σ₁ → ι₁ → σ₁ × List ε₁) (g : σ₂ → ι₂ → σ₂ × List ε₂) (s : σ₁ × σ₂) :
    ι₁ ⊕ ι₂ → (σ₁ × σ₂) × List (ε₁ ⊕ ε₂)
  | .inl i => (((f s.1 i).1, s.2), (f s.1 i).2.map .inl)
  | .inr i => ((s.1, (g s.2 i).1), (g s.2 i).2.map .inr)

section

variable (f : σ₁ → ι₁ → σ₁ × List ε₁) (g : σ₂ → ι₂ → σ₂ × List ε₂) (x : σ₁) (y : σ₂)

/-- **Projection**: each side of a run is a run of its own. -/
theorem run_sides (is : List (ι₁ ⊕ ι₂)) :
    (lefts (Machine.run (step f g) (x, y) is).2 = (Machine.run f x (lefts is)).2
      ∧ (Machine.run (step f g) (x, y) is).1.1 = (Machine.run f x (lefts is)).1)
    ∧ rights (Machine.run (step f g) (x, y) is).2 = (Machine.run g y (rights is)).2
      ∧ (Machine.run (step f g) (x, y) is).1.2 = (Machine.run g y (rights is)).1 := by
  induction is using List.reverseRecOn with
  | nil => exact ⟨⟨rfl, rfl⟩, rfl, rfl⟩
  | append_singleton is i ih =>
    obtain ⟨⟨hl, hx⟩, hr, hy⟩ := ih
    rw [Machine.run_concat, Net.lefts_append, Net.rights_append]
    cases i with
    | inl i =>
      have h1 : lefts [(Sum.inl i : ι₁ ⊕ ι₂)] = [i] := rfl
      have h2 : rights [(Sum.inl i : ι₁ ⊕ ι₂)] = [] := rfl
      simp only [Machine.andThen, Net.lefts_append, Net.rights_append, h1, h2, Machine.run_concat,
        step, hl, hx, hr, hy, Net.lefts_map_inl, Net.rights_map_inl, List.append_nil, and_self]
    | inr i =>
      have h1 : lefts [(Sum.inr i : ι₁ ⊕ ι₂)] = [] := rfl
      have h2 : rights [(Sum.inr i : ι₁ ⊕ ι₂)] = [i] := rfl
      simp only [Machine.andThen, Net.lefts_append, Net.rights_append, h1, h2, Machine.run_concat,
        step, hl, hx, hr, hy, Net.lefts_map_inr, Net.rights_map_inr, List.append_nil, and_self]

end

section

variable {γ : Type*} {f : ε₁ → Option γ} {g : ε₂ → Option γ} {p : γ → Bool}

/-- What a filter takes from an interleaving, it takes from the left side,
if nothing on the right side passes it. -/
theorem filter_of_lefts (t : List (ε₁ ⊕ ε₂))
    (hr : ∀ c ∈ (rights t).filterMap g, p c = false) :
    (t.filterMap (Sum.elim f g)).filter p = ((lefts t).filterMap f).filter p := by
  induction t with
  | nil => rfl
  | cons e t ih =>
    cases e with
    | inl e =>
      have hl : lefts (.inl e :: t : List (ε₁ ⊕ ε₂)) = e :: lefts t := rfl
      rw [hl, List.filterMap_cons, List.filterMap_cons, Sum.elim_inl]
      cases f e with
      | none => exact ih hr
      | some c => simp only [List.filter_cons, ih hr]
    | inr e =>
      have hl : lefts (.inr e :: t : List (ε₁ ⊕ ε₂)) = lefts t := rfl
      have hright : rights (.inr e :: t : List (ε₁ ⊕ ε₂)) = e :: rights t := rfl
      rw [hright, List.filterMap_cons] at hr
      rw [hl, List.filterMap_cons, Sum.elim_inr]
      cases hg : g e with
      | none => exact ih (by rwa [hg] at hr)
      | some c =>
        rw [hg] at hr
        have hc := hr c List.mem_cons_self
        simp only [List.filter_cons, hc, Bool.false_eq_true, if_false]
        exact ih fun c hc => hr c (List.mem_cons_of_mem _ hc)

theorem lefts_map_swap (t : List (ε₁ ⊕ ε₂)) : lefts (t.map Sum.swap) = rights t := by
  simp only [lefts, rights, List.filterMap_map]
  congr 1
  ext e : 1
  cases e <;> rfl

theorem rights_map_swap (t : List (ε₁ ⊕ ε₂)) : rights (t.map Sum.swap) = lefts t := by
  simp only [lefts, rights, List.filterMap_map]
  congr 1
  ext e : 1
  cases e <;> rfl

theorem filter_of_rights (t : List (ε₁ ⊕ ε₂))
    (hl : ∀ c ∈ (lefts t).filterMap f, p c = false) :
    (t.filterMap (Sum.elim f g)).filter p = ((rights t).filterMap g).filter p := by
  have h := @filter_of_lefts _ _ γ g f p (t.map Sum.swap) (by rwa [rights_map_swap])
  rw [lefts_map_swap, List.filterMap_map] at h
  rw [← h]
  congr 2
  ext e : 1
  cases e <;> rfl

end

/-- A relation holds between earlier and later entries of a list if it
holds within each class of entries, and across. -/
theorem pairwise_of_classes {α κ : Type*} [DecidableEq κ] {R : α → α → Prop} {l : List α}
    (cls : α → κ) (hin : ∀ k, (l.filter fun a => cls a = k).Pairwise R)
    (hx : ∀ a ∈ l, ∀ b ∈ l, cls a ≠ cls b → R a b) : l.Pairwise R := by
  rw [List.pairwise_iff_forall_sublist]
  intro a b hab
  by_cases h : cls a = cls b
  · refine List.pairwise_iff_forall_sublist.mp (hin (cls b)) ?_
    have hf := hab.filter fun a => decide (cls a = cls b)
    simpa [h] using hf
  · have ha := hab.subset List.mem_cons_self
    have hb := hab.subset (List.mem_cons_of_mem _ List.mem_cons_self)
    exact hx a ha b hb h

end Par
