import Protofish4.Lib.Machine

/-!
# Two parties over a lossy network

Two reactive parties exchange messages over a network that may lose,
duplicate, reorder and delay them, but delivers nothing that was not sent:
a message is delivered from, or dropped out of, the list of those in
flight, at any position, and may stay in flight after a delivery. A run is
a list of operations; its outputs are the events of both parties.

`run_safe` is the induction rule for such systems: an invariant of the two
states and the events so far, together with one predicate for the messages
in flight each way, holds after every run if every reaction of either party
keeps it.
-/

namespace Net

open Machine (andThen)

/-- What a party does in one step. -/
structure Reaction (σ μ ε : Type*) where
  state : σ
  events : List ε
  sent : List μ

/-- One end: reactions to its own inputs, and to a message that arrives
in some context (a clock, say). -/
structure Party (σ ι τ μ ε : Type*) where
  act : σ → ι → Reaction σ μ ε
  receive : σ → τ → μ → Reaction σ μ ε

/-- The two states and the messages in flight each way. -/
structure State (σ₁ σ₂ μ : Type*) where
  left : σ₁
  right : σ₂
  toRight : List μ
  toLeft : List μ

inductive Op (ι₁ ι₂ τ₁ τ₂ : Type*) where
  | left (i : ι₁)
  | right (i : ι₂)
  /-- Deliver the `n`-th message in flight; it stays in flight if `keep`. -/
  | deliverRight (n : ℕ) (t : τ₂) (keep : Bool)
  | deliverLeft (n : ℕ) (t : τ₁) (keep : Bool)
  | dropRight (n : ℕ)
  | dropLeft (n : ℕ)

/-- The messages still in flight after a delivery. -/
def taken {μ : Type*} (l : List μ) (n : ℕ) (keep : Bool) : List μ :=
  if keep then l else l.eraseIdx n

theorem mem_of_mem_taken {μ : Type*} {l : List μ} {n : ℕ} {keep : Bool} {m : μ}
    (h : m ∈ taken l n keep) : m ∈ l := by
  unfold taken at h
  split at h
  · exact h
  · exact List.mem_of_mem_eraseIdx h

/-- The other messages stay in flight. -/
theorem mem_taken {μ : Type*} {l : List μ} {n : ℕ} {m m' : μ} (hn : l[n]? = some m) (h : m' ∈ l)
    (hne : m' ≠ m) (keep : Bool) : m' ∈ taken l n keep := by
  unfold taken
  split
  · exact h
  · obtain ⟨i, hi⟩ := List.mem_iff_getElem?.mp h
    refine List.mem_eraseIdx_iff_getElem?.mpr ⟨i, fun heq => hne ?_, hi⟩
    rw [heq, hn] at hi
    exact (Option.some.inj hi).symm

variable {σ₁ σ₂ ι₁ ι₂ τ₁ τ₂ μ ε₁ ε₂ : Type*}

/-- The left party reacts: its messages join those in flight. -/
def leftDoes (s : State σ₁ σ₂ μ) (q : Reaction σ₁ μ ε₁) : State σ₁ σ₂ μ × List (ε₁ ⊕ ε₂) :=
  ({ s with left := q.state, toRight := s.toRight ++ q.sent }, q.events.map .inl)

def rightDoes (s : State σ₁ σ₂ μ) (q : Reaction σ₂ μ ε₂) : State σ₁ σ₂ μ × List (ε₁ ⊕ ε₂) :=
  ({ s with right := q.state, toLeft := s.toLeft ++ q.sent }, q.events.map .inr)

section

variable (L : Party σ₁ ι₁ τ₁ μ ε₁) (R : Party σ₂ ι₂ τ₂ μ ε₂)

def step (s : State σ₁ σ₂ μ) : Op ι₁ ι₂ τ₁ τ₂ → State σ₁ σ₂ μ × List (ε₁ ⊕ ε₂)
  | .left i => leftDoes s (L.act s.left i)
  | .right i => rightDoes s (R.act s.right i)
  | .deliverRight n t keep =>
    match s.toRight[n]? with
    | none => (s, [])
    | some m =>
      rightDoes { s with toRight := taken s.toRight n keep } (R.receive s.right t m)
  | .deliverLeft n t keep =>
    match s.toLeft[n]? with
    | none => (s, [])
    | some m =>
      leftDoes { s with toLeft := taken s.toLeft n keep } (L.receive s.left t m)
  | .dropRight n => ({ s with toRight := s.toRight.eraseIdx n }, [])
  | .dropLeft n => ({ s with toLeft := s.toLeft.eraseIdx n }, [])

def run (s : State σ₁ σ₂ μ) (ops : List (Op ι₁ ι₂ τ₁ τ₂)) :
    State σ₁ σ₂ μ × List (ε₁ ⊕ ε₂) :=
  Machine.run (step L R) s ops

end

/-- Both parties at the start, nothing in flight. -/
def start (x : σ₁) (y : σ₂) : State σ₁ σ₂ μ := ⟨x, y, [], []⟩

/-- A message in flight can be delivered. -/
theorem exists_deliverLeft (L : Party σ₁ ι₁ τ₁ μ ε₁) (R : Party σ₂ ι₂ τ₂ μ ε₂)
    {s : State σ₁ σ₂ μ} {m : μ} (h : m ∈ s.toLeft) (t : τ₁) (keep : Bool) :
    ∃ n, step L R s (.deliverLeft n t keep)
      = leftDoes { s with toLeft := taken s.toLeft n keep } (L.receive s.left t m) := by
  obtain ⟨n, hn⟩ := List.mem_iff_getElem?.mp h
  exact ⟨n, by simp only [step, hn]⟩

theorem exists_deliverRight (L : Party σ₁ ι₁ τ₁ μ ε₁) (R : Party σ₂ ι₂ τ₂ μ ε₂)
    {s : State σ₁ σ₂ μ} {m : μ} (h : m ∈ s.toRight) (t : τ₂) (keep : Bool) :
    ∃ n, step L R s (.deliverRight n t keep)
      = rightDoes { s with toRight := taken s.toRight n keep } (R.receive s.right t m) := by
  obtain ⟨n, hn⟩ := List.mem_iff_getElem?.mp h
  exact ⟨n, by simp only [step, hn]⟩

/-! ## The induction rule -/

/-- An invariant of states and events, with one predicate for the messages
in flight each way. -/
structure Inv (J : List (ε₁ ⊕ ε₂) → σ₁ → σ₂ → Prop) (U D : List (ε₁ ⊕ ε₂) → σ₁ → σ₂ → μ → Prop)
    (t : List (ε₁ ⊕ ε₂)) (s : State σ₁ σ₂ μ) : Prop where
  holds : J t s.left s.right
  toRight : ∀ m ∈ s.toRight, U t s.left s.right m
  toLeft : ∀ m ∈ s.toLeft, D t s.left s.right m

/-- The two parties, and the events so far, after some operations. -/
structure At (L : Party σ₁ ι₁ τ₁ μ ε₁) (R : Party σ₂ ι₂ τ₂ μ ε₂) (s₀ : State σ₁ σ₂ μ)
    (ops : List (Op ι₁ ι₂ τ₁ τ₂)) (t : List (ε₁ ⊕ ε₂)) (x : σ₁) (y : σ₂) : Prop where
  trace : (run L R s₀ ops).2 = t
  left : (run L R s₀ ops).1.left = x
  right : (run L R s₀ ops).1.right = y

/-- A reaction of the left party keeps the invariant, and what it sends is
good. -/
structure LeftKeeps (J : List (ε₁ ⊕ ε₂) → σ₁ → σ₂ → Prop)
    (U D : List (ε₁ ⊕ ε₂) → σ₁ → σ₂ → μ → Prop) (t : List (ε₁ ⊕ ε₂)) (x : σ₁) (y : σ₂)
    (q : Reaction σ₁ μ ε₁) : Prop where
  holds : J (t ++ q.events.map .inl) q.state y
  sent : ∀ m ∈ q.sent, U (t ++ q.events.map .inl) q.state y m
  toRight : ∀ m, U t x y m → U (t ++ q.events.map .inl) q.state y m
  toLeft : ∀ m, D t x y m → D (t ++ q.events.map .inl) q.state y m

structure RightKeeps (J : List (ε₁ ⊕ ε₂) → σ₁ → σ₂ → Prop)
    (U D : List (ε₁ ⊕ ε₂) → σ₁ → σ₂ → μ → Prop) (t : List (ε₁ ⊕ ε₂)) (x : σ₁) (y : σ₂)
    (q : Reaction σ₂ μ ε₂) : Prop where
  holds : J (t ++ q.events.map .inr) x q.state
  sent : ∀ m ∈ q.sent, D (t ++ q.events.map .inr) x q.state m
  toRight : ∀ m, U t x y m → U (t ++ q.events.map .inr) x q.state m
  toLeft : ∀ m, D t x y m → D (t ++ q.events.map .inr) x q.state m

section

variable {L : Party σ₁ ι₁ τ₁ μ ε₁} {R : Party σ₂ ι₂ τ₂ μ ε₂} {s₀ : State σ₁ σ₂ μ}
variable {ops : List (Op ι₁ ι₂ τ₁ τ₂)} {t : List (ε₁ ⊕ ε₂)} {x : σ₁} {y : σ₂}

/-- The events once one more operation is carried out. -/
theorem run_concat_snd (ops : List (Op ι₁ ι₂ τ₁ τ₂)) (op : Op ι₁ ι₂ τ₁ τ₂) :
    (run L R s₀ (ops ++ [op])).2
      = (run L R s₀ ops).2 ++ (step L R (run L R s₀ ops).1 op).2 := by
  unfold run
  rw [Machine.run_concat]
  rfl

theorem run_concat_fst (ops : List (Op ι₁ ι₂ τ₁ τ₂)) (op : Op ι₁ ι₂ τ₁ τ₂) :
    (run L R s₀ (ops ++ [op])).1 = (step L R (run L R s₀ ops).1 op).1 := by
  unfold run
  rw [Machine.run_concat]
  rfl

theorem At.act_left (h : At L R s₀ ops t x y) (i : ι₁) :
    (run L R s₀ (ops ++ [.left i])).2 = t ++ (L.act x i).events.map .inl := by
  rw [run_concat_snd, h.trace]
  simp only [step, leftDoes, h.left]

end

section Rule

variable {J : List (ε₁ ⊕ ε₂) → σ₁ → σ₂ → Prop} {U D : List (ε₁ ⊕ ε₂) → σ₁ → σ₂ → μ → Prop}
variable {L : Party σ₁ ι₁ τ₁ μ ε₁} {R : Party σ₂ ι₂ τ₂ μ ε₂} {s₀ : State σ₁ σ₂ μ}

theorem Inv.leftDoes {t : List (ε₁ ⊕ ε₂)} {s : State σ₁ σ₂ μ} (h : Inv J U D t s)
    {l : List μ} (hl : ∀ m ∈ l, m ∈ s.toLeft) {q : Reaction σ₁ μ ε₁}
    (hq : LeftKeeps J U D t s.left s.right q) :
    Inv J U D (t ++ q.events.map .inl)
      { s with left := q.state, toRight := s.toRight ++ q.sent, toLeft := l } where
  holds := hq.holds
  toRight m hm := by
    rcases List.mem_append.mp hm with hm | hm
    · exact hq.toRight m (h.toRight m hm)
    · exact hq.sent m hm
  toLeft m hm := hq.toLeft m (h.toLeft m (hl m hm))

theorem Inv.rightDoes {t : List (ε₁ ⊕ ε₂)} {s : State σ₁ σ₂ μ} (h : Inv J U D t s)
    {l : List μ} (hl : ∀ m ∈ l, m ∈ s.toRight) {q : Reaction σ₂ μ ε₂}
    (hq : RightKeeps J U D t s.left s.right q) :
    Inv J U D (t ++ q.events.map .inr)
      { s with right := q.state, toRight := l, toLeft := s.toLeft ++ q.sent } where
  holds := hq.holds
  toRight m hm := hq.toRight m (h.toRight m (hl m hm))
  toLeft m hm := by
    rcases List.mem_append.mp hm with hm | hm
    · exact hq.toLeft m (h.toLeft m hm)
    · exact hq.sent m hm

/-- **Safety rule**: what every reaction of either party keeps, given that
the messages it receives are good, holds after every run. `Ok` restricts
the runs considered; it must hold of every shorter run too. -/
theorem run_safe (Ok : List (Op ι₁ ι₂ τ₁ τ₂) → Prop) (hok : ∀ ops op, Ok (ops ++ [op]) → Ok ops)
    (start : Inv J U D [] s₀)
    (leftAct : ∀ ops t x y i, At L R s₀ ops t x y → Ok (ops ++ [.left i]) → J t x y →
      LeftKeeps J U D t x y (L.act x i))
    (rightAct : ∀ ops t x y i, At L R s₀ ops t x y → Ok (ops ++ [.right i]) → J t x y →
      RightKeeps J U D t x y (R.act y i))
    (leftReceive : ∀ ops t x y n c keep m, At L R s₀ ops t x y →
      Ok (ops ++ [.deliverLeft n c keep]) → J t x y → D t x y m →
      LeftKeeps J U D t x y (L.receive x c m))
    (rightReceive : ∀ ops t x y n c keep m, At L R s₀ ops t x y →
      Ok (ops ++ [.deliverRight n c keep]) → J t x y → U t x y m →
      RightKeeps J U D t x y (R.receive y c m))
    (ops : List (Op ι₁ ι₂ τ₁ τ₂)) (h : Ok ops) :
    Inv J U D (run L R s₀ ops).2 (run L R s₀ ops).1 := by
  induction ops using List.reverseRecOn with
  | nil => exact start
  | append_singleton ops op ih =>
    have hinv := ih (hok ops op h)
    have hat : At L R s₀ ops (run L R s₀ ops).2 (run L R s₀ ops).1.left
        (run L R s₀ ops).1.right := ⟨rfl, rfl, rfl⟩
    rw [run_concat_fst, run_concat_snd]
    generalize (run L R s₀ ops).1 = s at hinv hat
    generalize (run L R s₀ ops).2 = t at hinv hat
    cases op with
    | left i => exact hinv.leftDoes (fun m hm => hm) (leftAct ops t _ _ i hat h hinv.holds)
    | right i => exact hinv.rightDoes (fun m hm => hm) (rightAct ops t _ _ i hat h hinv.holds)
    | deliverRight n c keep =>
      simp only [step]
      cases hm : s.toRight[n]? with
      | none => simpa using hinv
      | some m =>
        have hmem := List.mem_of_getElem? hm
        exact hinv.rightDoes (fun m hm => mem_of_mem_taken hm)
          (rightReceive ops t _ _ n c keep m hat h hinv.holds (hinv.toRight m hmem))
    | deliverLeft n c keep =>
      simp only [step]
      cases hm : s.toLeft[n]? with
      | none => simpa using hinv
      | some m =>
        have hmem := List.mem_of_getElem? hm
        exact hinv.leftDoes (fun m hm => mem_of_mem_taken hm)
          (leftReceive ops t _ _ n c keep m hat h hinv.holds (hinv.toLeft m hmem))
    | dropRight n =>
      simp only [step, List.append_nil]
      exact ⟨hinv.holds, fun m hm => hinv.toRight m (List.mem_of_mem_eraseIdx hm), hinv.toLeft⟩
    | dropLeft n =>
      simp only [step, List.append_nil]
      exact ⟨hinv.holds, hinv.toRight, fun m hm => hinv.toLeft m (List.mem_of_mem_eraseIdx hm)⟩

end Rule

/-! ## The events of one party -/

def lefts (t : List (ε₁ ⊕ ε₂)) : List ε₁ := t.filterMap Sum.getLeft?

def rights (t : List (ε₁ ⊕ ε₂)) : List ε₂ := t.filterMap Sum.getRight?

@[simp] theorem lefts_append (t u : List (ε₁ ⊕ ε₂)) : lefts (t ++ u) = lefts t ++ lefts u :=
  List.filterMap_append

@[simp] theorem rights_append (t u : List (ε₁ ⊕ ε₂)) : rights (t ++ u) = rights t ++ rights u :=
  List.filterMap_append

@[simp] theorem lefts_map_inl (l : List ε₁) : lefts (l.map (.inl : ε₁ → ε₁ ⊕ ε₂)) = l := by
  simp [lefts, List.filterMap_map, Function.comp_def]

@[simp] theorem lefts_map_inr (l : List ε₂) : lefts (l.map (.inr : ε₂ → ε₁ ⊕ ε₂)) = [] := by
  simp [lefts, List.filterMap_map, Function.comp_def]

@[simp] theorem rights_map_inr (l : List ε₂) : rights (l.map (.inr : ε₂ → ε₁ ⊕ ε₂)) = l := by
  simp [rights, List.filterMap_map, Function.comp_def]

@[simp] theorem rights_map_inl (l : List ε₁) : rights (l.map (.inl : ε₁ → ε₁ ⊕ ε₂)) = [] := by
  simp [rights, List.filterMap_map, Function.comp_def]

end Net
