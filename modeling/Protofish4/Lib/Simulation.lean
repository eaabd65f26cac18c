import Protofish4.Lib.Machine

/-!
# Machines inside machines

Two rules that relate the runs of two machines. A machine that serves many
clients shows one of them what a machine of the client's own would show:
the projection rule. A machine whose steps are each matched by some inputs
of a second one runs as the second one can: the simulation rule, with the
inputs and outputs so far in the relation.
-/

namespace Machine

variable {σ τ ι κ ε δ : Type*}

/-- **Projection rule**: where every allowed step acts on the part that `R`
relates as the client's own input does, or leaves it alone if it is not the
client's, the run shows the client the run of its own inputs. -/
theorem run_projects (step : σ → ι → σ × List ε) (step' : τ → κ → τ × List δ) (R : σ → τ → Prop)
    (Ok : σ → ι → Prop) (own : ι → Option κ) (seen : ε → Option δ) {s : σ} {t : τ} {is : List ι}
    (start : R s t) (hok : ∀ pre i post, is = pre ++ i :: post → Ok (run step s pre).1 i)
    (keep : ∀ s t i, R s t → Ok s i →
      R (step s i).1 ((own i).elim t fun k => (step' t k).1)
        ∧ (step s i).2.filterMap seen = (own i).elim [] fun k => (step' t k).2) :
    R (run step s is).1 (run step' t (is.filterMap own)).1
      ∧ (run step s is).2.filterMap seen = (run step' t (is.filterMap own)).2 := by
  induction is generalizing s t with
  | nil => exact ⟨start, rfl⟩
  | cons i is ih =>
    obtain ⟨hR, hout⟩ := keep s t i start (hok [] i is rfl)
    obtain ⟨hrun, hrest⟩ := ih hR fun pre j post heq =>
      hok (i :: pre) j post (by rw [heq, List.cons_append])
    rw [run_cons, andThen_fst, andThen_snd, List.filterMap_append, hout]
    cases hown : own i with
    | none =>
      rw [hown] at hrun hrest
      rw [List.filterMap_cons_none hown]
      exact ⟨hrun, hrest⟩
    | some k =>
      rw [hown] at hrun hrest
      rw [List.filterMap_cons_some hown, run_cons, andThen_fst, andThen_snd]
      exact ⟨hrun, congrArg _ hrest⟩

/-- **Simulation rule**: where every step of the first machine is matched by
some inputs of the second, every run of the first is matched by a run of the
second. `Ok` restricts the runs considered; it must hold of every shorter run
too. -/
theorem exists_run (step : σ → ι → σ × List ε) (step' : τ → κ → τ × List δ) {s₀ : σ} {t₀ : τ}
    (P : List ι → σ → List ε → τ → List δ → Prop) (Ok : List ι → Prop)
    (hok : ∀ is i, Ok (is ++ [i]) → Ok is) (start : P [] s₀ [] t₀ [])
    (keep : ∀ is s es t ds i, run step s₀ is = (s, es) → Ok (is ++ [i]) → P is s es t ds →
      ∃ ks, P (is ++ [i]) (step s i).1 (es ++ (step s i).2) (run step' t ks).1
        (ds ++ (run step' t ks).2))
    (is : List ι) (h : Ok is) : ∃ ks, P is (run step s₀ is).1 (run step s₀ is).2
      (run step' t₀ ks).1 (run step' t₀ ks).2 := by
  induction is using List.reverseRecOn with
  | nil => exact ⟨[], start⟩
  | append_singleton is i ih =>
    obtain ⟨ks, hP⟩ := ih (hok is i h)
    obtain ⟨more, hmore⟩ := keep is _ _ _ _ i rfl h hP
    refine ⟨ks ++ more, ?_⟩
    rw [run_concat, run_append]
    exact hmore

/-- A property of every input and the ones before it can be checked input by
input. -/
theorem forall_split_iff {Q : List ι → ι → Prop} {is : List ι} :
    (∀ pre i post, is = pre ++ i :: post → Q pre i)
      ↔ ∀ n : Fin is.length, Q (is.take n) is[n] := by
  constructor
  · intro h n
    exact h (is.take n) is[n] (is.drop (n + 1)) (by simp)
  · rintro h pre i post rfl
    simpa using h ⟨pre.length, by simp⟩

end Machine
