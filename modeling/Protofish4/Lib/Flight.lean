import Mathlib.Data.List.Perm.Basic
import Protofish4.Lib.Net

/-!
# What becomes of a message in flight

A message in flight stays there until it is delivered or dropped, and the
state of a party changes by its own reactions alone. So over a network that
drops nothing, what waits for a message needs to know of one operation
only: its delivery. And a message that is not repeated is answered once at
most: the ledger rule.
-/

namespace Net

variable {σ₁ σ₂ ι₁ ι₂ τ₁ τ₂ μ ε₁ ε₂ : Type*}
variable {L : Party σ₁ ι₁ τ₁ μ ε₁} {R : Party σ₂ ι₂ τ₂ μ ε₂}
variable {s : State σ₁ σ₂ μ} {op : Op ι₁ ι₂ τ₁ τ₂} {m : μ}

/-- A message to the left stays in flight, unless this operation delivers
it. -/
theorem toLeft_step (hm : m ∈ s.toLeft) (hkept : ∀ n, op ≠ .dropLeft n) :
    m ∈ (step L R s op).1.toLeft
      ∨ ∃ n t keep, op = .deliverLeft n t keep ∧ s.toLeft[n]? = some m := by
  cases op with
  | left i => exact Or.inl hm
  | right i => exact Or.inl (List.mem_append_left _ hm)
  | deliverRight n t keep =>
    left
    simp only [step]
    split
    · exact hm
    · exact List.mem_append_left _ hm
  | deliverLeft n t keep =>
    by_cases hn : s.toLeft[n]? = some m
    · exact Or.inr ⟨n, t, keep, rfl, hn⟩
    · left
      simp only [step]
      split
      · exact hm
      · rename_i m' hm'
        exact mem_taken hm' hm (fun heq => hn (heq ▸ hm')) keep
  | dropRight n => exact Or.inl hm
  | dropLeft n => exact absurd rfl (hkept n)

theorem toRight_step (hm : m ∈ s.toRight) (hkept : ∀ n, op ≠ .dropRight n) :
    m ∈ (step L R s op).1.toRight
      ∨ ∃ n t keep, op = .deliverRight n t keep ∧ s.toRight[n]? = some m := by
  cases op with
  | left i => exact Or.inl (List.mem_append_left _ hm)
  | right i => exact Or.inl hm
  | deliverLeft n t keep =>
    left
    simp only [step]
    split
    · exact hm
    · exact List.mem_append_left _ hm
  | deliverRight n t keep =>
    by_cases hn : s.toRight[n]? = some m
    · exact Or.inr ⟨n, t, keep, rfl, hn⟩
    · left
      simp only [step]
      split
      · exact hm
      · rename_i m' hm'
        exact mem_taken hm' hm (fun heq => hn (heq ▸ hm')) keep
  | dropLeft n => exact Or.inl hm
  | dropRight n => exact absurd rfl (hkept n)

/-- What its own reactions keep, a party keeps. -/
theorem left_step {P : σ₁ → Prop} (hact : ∀ x i, P x → P (L.act x i).state)
    (hreceive : ∀ x t m, P x → P (L.receive x t m).state) (h : P s.left) :
    P (step L R s op).1.left := by
  cases op with
  | left i => exact hact _ i h
  | deliverLeft n t keep =>
    simp only [step]
    split
    · exact h
    · exact hreceive _ t _ h
  | deliverRight n t keep =>
    simp only [step]
    split
    · exact h
    · exact h
  | right | dropRight | dropLeft => exact h

theorem right_step {P : σ₂ → Prop} (hact : ∀ y i, P y → P (R.act y i).state)
    (hreceive : ∀ y t m, P y → P (R.receive y t m).state) (h : P s.right) :
    P (step L R s op).1.right := by
  cases op with
  | right i => exact hact _ i h
  | deliverRight n t keep =>
    simp only [step]
    split
    · exact h
    · exact hreceive _ t _ h
  | deliverLeft n t keep =>
    simp only [step]
    split
    · exact h
    · exact h
  | left | dropRight | dropLeft => exact h

/-! ## What a party sends -/

section Sends

variable (L R)

/-- What the left party sends in one operation. -/
def sentRight (s : State σ₁ σ₂ μ) : Op ι₁ ι₂ τ₁ τ₂ → List μ
  | .left i => (L.act s.left i).sent
  | .deliverLeft n c _ =>
    match s.toLeft[n]? with
    | none => []
    | some m => (L.receive s.left c m).sent
  | .right _ | .deliverRight .. | .dropRight _ | .dropLeft _ => []

/-- All that the left party sends in a run. -/
def allSentRight : State σ₁ σ₂ μ → List (Op ι₁ ι₂ τ₁ τ₂) → List μ
  | _, [] => []
  | s, op :: ops => sentRight L s op ++ allSentRight (step L R s op).1 ops

theorem allSentRight_concat (s : State σ₁ σ₂ μ) (ops : List (Op ι₁ ι₂ τ₁ τ₂))
    (op : Op ι₁ ι₂ τ₁ τ₂) : allSentRight L R s (ops ++ [op])
      = allSentRight L R s ops ++ sentRight L (run L R s ops).1 op := by
  induction ops generalizing s with
  | nil => simp [allSentRight, run]
  | cons op' ops ih =>
    have hrun : (run L R s (op' :: ops)).1 = (run L R (step L R s op').1 ops).1 := rfl
    rw [List.cons_append, allSentRight, ih, hrun, allSentRight, List.append_assoc]

end Sends

/-! ## Each message is answered once -/

section Ledger

/-- Taking out the `n`-th message takes its weight out of the sum. -/
theorem sum_eraseIdx {l : List μ} {n : ℕ} (hn : l[n]? = some m) (weight : μ → ℕ) :
    ((l.eraseIdx n).map weight).sum + weight m = (l.map weight).sum := by
  obtain ⟨hlt, rfl⟩ := List.getElem?_eq_some_iff.mp hn
  rw [← ((List.getElem_cons_eraseIdx_perm hlt).map weight).sum_nat, List.map_cons, List.sum_cons,
    Nat.add_comm]

theorem sum_eraseIdx_le (l : List μ) (n : ℕ) (weight : μ → ℕ) :
    ((l.eraseIdx n).map weight).sum ≤ (l.map weight).sum := by
  cases hn : l[n]? with
  | none => rw [List.eraseIdx_of_length_le (List.getElem?_eq_none_iff.mp hn)]
  | some m =>
    rw [← sum_eraseIdx hn weight]
    exact Nat.le_add_right _ _

variable (weight : μ → ℕ) (answers : ε₁ → ℕ) (requests : ε₂ → ℕ)

/-- What has been answered, and what is in flight to be answered, has been
asked for. -/
def Ledger (t : List (ε₁ ⊕ ε₂)) (s : State σ₁ σ₂ μ) : Prop :=
  ((lefts t).map answers).sum + (s.toLeft.map weight).sum ≤ ((rights t).map requests).sum

variable {weight answers requests} {t : List (ε₁ ⊕ ε₂)}

theorem Ledger.left (h : Ledger weight answers requests t s) {q : Reaction σ₁ μ ε₁} {l : List μ}
    (hl : (q.events.map answers).sum + (l.map weight).sum ≤ (s.toLeft.map weight).sum) :
    Ledger weight answers requests (t ++ q.events.map .inl)
      { s with left := q.state, toRight := s.toRight ++ q.sent, toLeft := l } := by
  unfold Ledger at h ⊢
  simp only [lefts_append, rights_append, lefts_map_inl, rights_map_inl, List.append_nil,
    List.map_append, List.sum_append]
  omega

theorem Ledger.right (h : Ledger weight answers requests t s) {q : Reaction σ₂ μ ε₂} {l : List μ}
    (hq : (q.sent.map weight).sum ≤ (q.events.map requests).sum) :
    Ledger weight answers requests (t ++ q.events.map .inr)
      { s with right := q.state, toRight := l, toLeft := s.toLeft ++ q.sent } := by
  unfold Ledger at h ⊢
  simp only [lefts_append, rights_append, lefts_map_inr, rights_map_inr, List.append_nil,
    List.map_append, List.sum_append]
  omega

/-- **Ledger rule**: where the left party answers nothing of its own accord,
and a message by its weight at most, and the right party books what it
sends, a network that repeats nothing of any weight brings about no more
answers than requests. -/
theorem Ledger.step (h : Ledger weight answers requests t s)
    (honce : ∀ n c m, op = .deliverLeft n c true → s.toLeft[n]? = some m → weight m = 0)
    (leftAct : ∀ i, ((L.act s.left i).events.map answers).sum = 0)
    (leftReceive : ∀ c m, ((L.receive s.left c m).events.map answers).sum ≤ weight m)
    (rightAct : ∀ i, ((R.act s.right i).sent.map weight).sum
      ≤ ((R.act s.right i).events.map requests).sum)
    (rightReceive : ∀ c m, ((R.receive s.right c m).sent.map weight).sum
      ≤ ((R.receive s.right c m).events.map requests).sum) :
    Ledger weight answers requests (t ++ (step L R s op).2) (step L R s op).1 := by
  cases op with
  | left i =>
    refine h.left (l := s.toLeft) ?_
    rw [leftAct i, Nat.zero_add]
  | right i => exact h.right (rightAct i)
  | deliverLeft n c keep =>
    simp only [Net.step]
    cases hn : s.toLeft[n]? with
    | none => simpa using h
    | some m =>
      have hanswer := leftReceive c m
      refine h.left ?_
      cases keep with
      | true =>
        -- it stays in flight, but nothing waits for an answer to it
        have hweight := honce n c m rfl hn
        simp only [taken, if_true]
        omega
      | false =>
        have hcount := sum_eraseIdx hn weight
        simp only [taken, Bool.false_eq_true, if_false]
        omega
  | deliverRight n c keep =>
    simp only [Net.step]
    cases hn : s.toRight[n]? with
    | none => simpa using h
    | some m => exact h.right (rightReceive c m)
  | dropLeft n =>
    unfold Ledger at h ⊢
    have hle := sum_eraseIdx_le s.toLeft n weight
    simp only [Net.step, List.append_nil]
    omega
  | dropRight n => simpa [Net.step, Ledger] using h

end Ledger

end Net
