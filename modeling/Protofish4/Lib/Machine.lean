import Mathlib

/-!
# Machines that react and emit

A state machine whose every step takes an input and returns a new state
with the outputs it produced, in order. The module gives sequencing of two
such reactions, runs over a list of inputs, and the induction rules a
safety proof uses: what holds at the start and is kept by one step holds
after every run, also when the invariant speaks about the inputs and the
outputs so far.
-/

namespace Machine

variable {σ ι ε : Type*}

/-! ## Sequencing -/

/-- Go on with `f` from the state `p` ends in; `f`'s outputs follow `p`'s. -/
def andThen (p : σ × List ε) (f : σ → σ × List ε) : σ × List ε :=
  ((f p.1).1, p.2 ++ (f p.1).2)

@[simp] theorem andThen_fst (p : σ × List ε) (f : σ → σ × List ε) :
    (andThen p f).1 = (f p.1).1 := rfl

@[simp] theorem andThen_snd (p : σ × List ε) (f : σ → σ × List ε) :
    (andThen p f).2 = p.2 ++ (f p.1).2 := rfl

theorem mem_andThen {p : σ × List ε} {f : σ → σ × List ε} {e : ε} :
    e ∈ (andThen p f).2 ↔ e ∈ p.2 ∨ e ∈ (f p.1).2 := by
  simp

/-! ## Runs -/

/-- The reactions to the inputs `is`, one after the other. -/
def run (step : σ → ι → σ × List ε) : σ → List ι → σ × List ε
  | s, [] => (s, [])
  | s, i :: is => andThen (step s i) fun s' => run step s' is

section Runs

variable (step : σ → ι → σ × List ε)

@[simp] theorem run_nil (s : σ) : run step s [] = (s, []) := rfl

theorem run_cons (s : σ) (i : ι) (is : List ι) :
    run step s (i :: is) = andThen (step s i) fun s' => run step s' is := rfl

theorem run_append (s : σ) (is js : List ι) :
    run step s (is ++ js) = andThen (run step s is) fun s' => run step s' js := by
  induction is generalizing s with
  | nil => simp [andThen]
  | cons i is ih =>
    simp only [List.cons_append, run_cons, andThen, ih, List.append_assoc]

theorem run_singleton (s : σ) (i : ι) : run step s [i] = step s i := by
  simp [run_cons, andThen]

theorem run_concat (s : σ) (is : List ι) (i : ι) :
    run step s (is ++ [i]) = andThen (run step s is) fun s' => step s' i := by
  simp only [run_append, run_singleton]

/-- **Run rule**: an invariant over inputs, state and outputs so far that
holds at the start and is kept by one more step holds after every run. -/
theorem run_induction {s₀ : σ} (P : List ι → σ → List ε → Prop) (start : P [] s₀ [])
    (keep : ∀ is s es i, P is s es → P (is ++ [i]) (step s i).1 (es ++ (step s i).2))
    (is : List ι) : P is (run step s₀ is).1 (run step s₀ is).2 := by
  induction is using List.reverseRecOn with
  | nil => exact start
  | append_singleton is i ih =>
    rw [run_concat]
    exact keep is _ _ i ih

/-- The run rule for an invariant of the state alone. -/
theorem run_invariant {s₀ : σ} (P : σ → Prop) (start : P s₀)
    (keep : ∀ s i, P s → P (step s i).1) (is : List ι) : P (run step s₀ is).1 :=
  run_induction step (fun _ s _ => P s) start (fun _ s _ i h => keep s i h) is

/-- An output of a run was produced by one of its steps, in the state the
inputs before it led to. -/
theorem mem_run {s₀ : σ} {is : List ι} {e : ε} :
    e ∈ (run step s₀ is).2 ↔
      ∃ pre i post, is = pre ++ i :: post ∧ e ∈ (step (run step s₀ pre).1 i).2 := by
  induction is using List.reverseRecOn with
  | nil => simp
  | append_singleton is i ih =>
    rw [run_concat, mem_andThen, ih]
    constructor
    · rintro (⟨pre, j, post, rfl, he⟩ | he)
      · exact ⟨pre, j, post ++ [i], by simp, he⟩
      · exact ⟨is, i, [], rfl, he⟩
    · rintro ⟨pre, j, post, heq, he⟩
      rcases List.eq_nil_or_concat post with rfl | ⟨post', k, rfl⟩
      · obtain ⟨rfl, hj⟩ := List.append_inj' heq rfl
        cases hj
        exact Or.inr he
      · rw [List.concat_eq_append, ← List.cons_append, ← List.append_assoc] at heq
        obtain ⟨rfl, hk⟩ := List.append_inj' heq rfl
        cases hk
        exact Or.inl ⟨pre, j, post', rfl, he⟩

end Runs

/-- A property of every split of a list, with one more input at its end. -/
theorem forall_split_concat {Q : List ι → ι → Prop} {is : List ι} {j : ι} :
    (∀ pre i post, is ++ [j] = pre ++ i :: post → Q pre i)
      ↔ (∀ pre i post, is = pre ++ i :: post → Q pre i) ∧ Q is j := by
  constructor
  · intro h
    refine ⟨fun pre i post heq => h pre i (post ++ [j]) (by simp [heq]), h is j [] rfl⟩
  · rintro ⟨h, hj⟩ pre i post heq
    rcases List.eq_nil_or_concat post with rfl | ⟨post', k, rfl⟩
    · obtain ⟨rfl, hi⟩ := List.append_inj' heq rfl
      cases hi
      exact hj
    · rw [List.concat_eq_append, ← List.cons_append, ← List.append_assoc] at heq
      obtain ⟨rfl, -⟩ := List.append_inj' heq rfl
      exact h pre i post' rfl

/-- **Refinement rule**: where related states react to every input with
related states and the same outputs, the two runs emit the same. -/
theorem run_refines {τ : Type*} {step : σ → ι → σ × List ε} {step' : τ → ι → τ × List ε}
    (R : σ → τ → Prop) {s : σ} {t : τ} (start : R s t)
    (keep : ∀ s t i, R s t → R (step s i).1 (step' t i).1 ∧ (step s i).2 = (step' t i).2)
    (is : List ι) :
    R (run step s is).1 (run step' t is).1 ∧ (run step s is).2 = (run step' t is).2 := by
  induction is generalizing s t with
  | nil => exact ⟨start, rfl⟩
  | cons i is ih =>
    obtain ⟨hnext, hout⟩ := keep s t i start
    obtain ⟨hend, houts⟩ := ih hnext
    refine ⟨hend, ?_⟩
    simp only [run_cons, andThen_snd, hout, houts]

/-! ## Final outputs -/

section Final

variable {step : σ → ι → σ × List ε} {s₀ : σ} {Stop : σ → Prop} {Final : ε → Prop}

/-- The states that are `Stop` are those a final output has led to. -/
theorem stop_run_iff (h₀ : ¬ Stop s₀)
    (mark : ∀ s i, Stop (step s i).1 ↔ Stop s ∨ ∃ e ∈ (step s i).2, Final e) (is : List ι) :
    Stop (run step s₀ is).1 ↔ ∃ e ∈ (run step s₀ is).2, Final e := by
  induction is using List.reverseRecOn with
  | nil => simpa using h₀
  | append_singleton is i ih =>
    rw [run_concat, andThen_fst, andThen_snd, mark, ih]
    simp only [List.mem_append, or_and_right, exists_or]

/-- **Finality rule**: where final outputs come alone and lead to the `Stop`
states, nothing follows a final output exactly if no step from a `Stop`
state emits. -/
theorem run_final_iff (h₀ : ¬ Stop s₀)
    (mark : ∀ s i, Stop (step s i).1 ↔ Stop s ∨ ∃ e ∈ (step s i).2, Final e)
    (alone : ∀ s i, ∀ e ∈ (step s i).2, Final e → (step s i).2 = [e]) (is : List ι) :
    (∀ pre e post, (run step s₀ is).2 = pre ++ e :: post → Final e → post = [])
      ↔ ∀ pre i post, is = pre ++ i :: post → Stop (run step s₀ pre).1 →
        (step (run step s₀ pre).1 i).2 = [] := by
  induction is using List.reverseRecOn with
  | nil => simp
  | append_singleton is i ih =>
    rw [forall_split_concat, ← ih, run_concat, andThen_snd, stop_run_iff h₀ mark]
    constructor
    · intro h
      constructor
      · intro pre e post heq hf
        have hnil := h pre e (post ++ (step (run step s₀ is).1 i).2) (by simp [heq]) hf
        exact (List.append_eq_nil_iff.mp hnil).1
      · rintro ⟨e, he, hf⟩
        obtain ⟨pre, post, heq⟩ := List.append_of_mem he
        have hnil := h pre e (post ++ (step (run step s₀ is).1 i).2) (by simp [heq]) hf
        exact (List.append_eq_nil_iff.mp hnil).2
    · rintro ⟨h, hstop⟩ pre e post heq hf
      rcases List.append_eq_append_iff.mp heq with ⟨x, -, hout⟩ | ⟨x, hevs, hout⟩
      · -- the final output comes from the last step
        have he : e ∈ (step (run step s₀ is).1 i).2 := by simp [hout]
        rw [alone _ i e he hf] at hout
        cases x with
        | nil => exact (List.cons.inj hout).2.symm
        | cons y x => simp at hout
      · cases x with
        | nil =>
          rw [List.nil_append] at hout
          have he : e ∈ (step (run step s₀ is).1 i).2 := by simp [← hout]
          rw [alone _ i e he hf] at hout
          exact (List.cons.inj hout).2
        | cons y x =>
          rw [List.cons_append, List.cons.injEq] at hout
          obtain ⟨rfl, hpost⟩ := hout
          have hx := h pre e x hevs hf
          rw [hpost, hx, List.nil_append]
          exact hstop ⟨e, by simp [hevs], hf⟩

end Final

/-! ## Inputs that change nothing -/

/-- The second list is the first with inputs satisfying `P` put in
anywhere. -/
inductive Inserted (P : ι → Prop) : List ι → List ι → Prop where
  | nil : Inserted P [] []
  | keep (i : ι) {is js : List ι} : Inserted P is js → Inserted P (i :: is) (i :: js)
  | add {i : ι} (h : P i) {is js : List ι} : Inserted P is js → Inserted P is (i :: js)

/-- **Insertion rule**: where `P` inputs leave every state of an invariant
alone and emit nothing, a run does not depend on them. -/
theorem run_inserted (step : σ → ι → σ × List ε) {P : ι → Prop} (Inv : σ → Prop) {s : σ}
    {is js : List ι} (h : Inserted P is js) (hs : Inv s)
    (keep : ∀ s, ∀ i ∈ js, Inv s → Inv (step s i).1)
    (inert : ∀ s, ∀ i ∈ js, Inv s → P i → step s i = (s, [])) :
    run step s js = run step s is := by
  induction h generalizing s with
  | nil => rfl
  | @keep i is js _ ih =>
    have htail := ih (keep s i List.mem_cons_self hs)
      (fun s k hk => keep s k (List.mem_cons_of_mem i hk))
      (fun s k hk => inert s k (List.mem_cons_of_mem i hk))
    simp only [run_cons, andThen, htail]
  | @add i hP is js _ ih =>
    have htail := ih hs (fun s k hk => keep s k (List.mem_cons_of_mem i hk))
      (fun s k hk => inert s k (List.mem_cons_of_mem i hk))
    rw [run_cons, inert s i List.mem_cons_self hs hP, ← htail]
    rfl

/-- Inputs put in at the end. -/
theorem Inserted.append {P : ι → Prop} (is : List ι) {more : List ι} (h : ∀ i ∈ more, P i) :
    Inserted P is (is ++ more) := by
  induction is with
  | cons i is ih => exact .keep i ih
  | nil =>
    induction more with
    | nil => exact .nil
    | cons i more ih =>
      exact .add (h i List.mem_cons_self) (ih fun j hj => h j (List.mem_cons_of_mem i hj))

/-- **Insertion rule for a simulation**: `P` inputs keep the second state
related to the first and emit nothing, and an input that is `Ok` in the
first state acts alike on both. Then the two runs emit the same. -/
theorem run_inserted_rel (step : σ → ι → σ × List ε) {P : ι → Prop} (R : σ → σ → Prop)
    (Ok : σ → ι → Prop) {s t : σ} {is js : List ι} (h : Inserted P is js) (hR : R s t)
    (hok : ∀ pre i post, is = pre ++ i :: post → Ok (run step s pre).1 i)
    (keep : ∀ s t i, R s t → Ok s i → R (step s i).1 (step t i).1 ∧ (step t i).2 = (step s i).2)
    (add : ∀ s t i, R s t → P i → R s (step t i).1 ∧ (step t i).2 = []) :
    R (run step s is).1 (run step t js).1 ∧ (run step t js).2 = (run step s is).2 := by
  induction h generalizing s t with
  | nil => exact ⟨hR, rfl⟩
  | @keep i is js _ ih =>
    obtain ⟨hR', he⟩ := keep s t i hR (hok [] i is rfl)
    obtain ⟨hrun, hes⟩ := ih hR' fun pre j post heq =>
      hok (i :: pre) j post (by rw [heq, List.cons_append])
    refine ⟨hrun, ?_⟩
    simp only [run_cons, andThen, he, hes]
  | @add i hP is js _ ih =>
    obtain ⟨hR', he⟩ := add s t i hR hP
    obtain ⟨hrun, hes⟩ := ih hR' hok
    refine ⟨hrun, ?_⟩
    simp only [run_cons, andThen, he, hes, List.nil_append]

end Machine
