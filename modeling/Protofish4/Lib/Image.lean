import Protofish4.Lib.Net

/-!
# One machine as the image of another

A map of states, with a map of outputs that may hide some, carries the runs
of a machine to those of another as soon as it carries one step to one
step. Over a network the same holds of one party: what the map leaves of
its states and events is all that differs, for the packets it sends are the
same.
-/

namespace Machine

variable {σ τ ι ε δ : Type*} (f : σ → τ) (seen : ε → Option δ)

/-- What the maps leave of a reaction. -/
def image (p : σ × List ε) : τ × List δ := (f p.1, p.2.filterMap seen)

variable {f seen}

/-- A reaction and what follows it, each the image of another. -/
theorem image_andThen {p : σ × List ε} {p' : τ × List δ} {k : σ → σ × List ε}
    {k' : τ → τ × List δ} (hp : p' = image f seen p) (hk : ∀ s, k' (f s) = image f seen (k s)) :
    andThen p' k' = image f seen (andThen p k) := by
  have hnext : k' (f p.1) = image f seen (k p.1) := hk p.1
  simp only [hp, andThen, image, hnext, List.filterMap_append]

/-- **Image rule**: where one step is the image of one step, every run is
the image of a run. -/
theorem run_image {step : σ → ι → σ × List ε} {step' : τ → ι → τ × List δ}
    (h : ∀ s i, step' (f s) i = image f seen (step s i)) (s : σ) (is : List ι) :
    run step' (f s) is = image f seen (run step s is) := by
  induction is generalizing s with
  | nil => rfl
  | cons i is ih =>
    rw [run_cons, run_cons]
    exact image_andThen (h s i) ih

end Machine

namespace Net

variable {σ₁ σ₂ σ₂' ι₁ ι₂ τ₁ τ₂ μ ε₁ ε₂ ε₂' : Type*} (f : σ₂ → σ₂') (g : ε₂ → ε₂')

/-- What the maps leave of a reaction: the packets are as they were. -/
def Reaction.image (q : Reaction σ₂ μ ε₂) : Reaction σ₂' μ ε₂' :=
  ⟨f q.state, q.events.map g, q.sent⟩

def State.mapRight (s : State σ₁ σ₂ μ) : State σ₁ σ₂' μ :=
  ⟨s.left, f s.right, s.toRight, s.toLeft⟩

/-- The events of a run, those of the right party under the map. -/
def seenRight : ε₁ ⊕ ε₂ → Option (ε₁ ⊕ ε₂') := fun e => some (e.map id g)

variable {f g}

variable {L : Party σ₁ ι₁ τ₁ μ ε₁} {R : Party σ₂ ι₂ τ₂ μ ε₂} {R' : Party σ₂' ι₂ τ₂ μ ε₂'}

theorem leftDoes_mapRight (s : State σ₁ σ₂ μ) (q : Reaction σ₁ μ ε₁) :
    leftDoes (s.mapRight f) q
      = Machine.image (State.mapRight f) (seenRight g) (leftDoes s q) := by
  have hinl : (q.events.map .inl).filterMap (seenRight g)
      = q.events.map (.inl : ε₁ → ε₁ ⊕ ε₂') := by
    rw [List.filterMap_map]
    exact congrFun (List.filterMap_eq_map (f := Sum.inl)) q.events
  simp only [leftDoes, Machine.image, hinl]
  rfl

theorem rightDoes_mapRight (s : State σ₁ σ₂ μ) (q : Reaction σ₂ μ ε₂) :
    (rightDoes (s.mapRight f) (q.image f g) : State σ₁ σ₂' μ × List (ε₁ ⊕ ε₂'))
      = Machine.image (State.mapRight f) (seenRight g) (rightDoes s q) := by
  have hinr : (q.events.map .inr).filterMap (seenRight g)
      = (q.events.map g).map (.inr : ε₂' → ε₁ ⊕ ε₂') := by
    rw [List.filterMap_map, List.map_map]
    exact congrFun (List.filterMap_eq_map (f := Sum.inr ∘ g)) q.events
  simp only [rightDoes, Machine.image, hinr]
  rfl

theorem lefts_seenRight (t : List (ε₁ ⊕ ε₂)) : lefts (t.filterMap (seenRight g)) = lefts t := by
  rw [lefts, List.filterMap_filterMap]
  exact List.filterMap_congr fun e _ => by cases e <;> rfl

theorem rights_seenRight (t : List (ε₁ ⊕ ε₂)) :
    rights (t.filterMap (seenRight g)) = (rights t).map g := by
  rw [rights, rights, List.filterMap_filterMap, List.map_filterMap]
  exact List.filterMap_congr fun e _ => by cases e <;> rfl

/-- **Image rule for a party**: a party whose every reaction is the image of
another's has the same network around it, in every run. -/
theorem run_image (hact : ∀ y i, R'.act (f y) i = (R.act y i).image f g)
    (hreceive : ∀ y t m, R'.receive (f y) t m = (R.receive y t m).image f g)
    (s : State σ₁ σ₂ μ) (ops : List (Op ι₁ ι₂ τ₁ τ₂)) :
    run L R' (s.mapRight f) ops
      = Machine.image (State.mapRight f) (seenRight g) (run L R s ops) := by
  refine Machine.run_image (fun s op => ?_) s ops
  cases op with
  | left i => exact leftDoes_mapRight s _
  | right i =>
    simp only [step, State.mapRight, hact]
    exact rightDoes_mapRight s _
  | deliverRight n t keep =>
    simp only [step, State.mapRight]
    cases s.toRight[n]? with
    | none => rfl
    | some m =>
      simp only [hreceive]
      exact rightDoes_mapRight { s with toRight := taken s.toRight n keep } _
  | deliverLeft n t keep =>
    simp only [step, State.mapRight]
    cases s.toLeft[n]? with
    | none => rfl
    | some m => exact leftDoes_mapRight { s with toLeft := taken s.toLeft n keep } _
  | dropRight n => rfl
  | dropLeft n => rfl

end Net
