import Protofish4.Lib.Machine

/-!
# The log of a run

Every input of a run with the outputs it got. A machine that goes by what
it has heard and said keeps digests of this log in its state; the digest
rule reads them back from one fact about a step. Two digests are common
enough to have a name: the first and the latest entry that has a value.
-/

namespace Machine

variable {σ ι ε β : Type*}

/-- The inputs of a run, each with the outputs it got. -/
def log (step : σ → ι → σ × List ε) : σ → List ι → List (ι × List ε)
  | _, [] => []
  | s, i :: is => (i, (step s i).2) :: log step (step s i).1 is

theorem log_concat (step : σ → ι → σ × List ε) (s : σ) (is : List ι) (i : ι) :
    log step s (is ++ [i]) = log step s is ++ [(i, (step (run step s is).1 i).2)] := by
  induction is generalizing s with
  | nil => rfl
  | cons j is ih => exact congrArg (List.cons _) (ih (step s j).1)

/-- **Digest rule**: what every step brings up to date from its input and
its outputs is, after a run, the fold of the log. -/
theorem digest_run (step : σ → ι → σ × List ε) (get : σ → β) (update : β → ι × List ε → β)
    (h : ∀ s i, get (step s i).1 = update (get s) (i, (step s i).2)) (s : σ) (is : List ι) :
    get (run step s is).1 = (log step s is).foldl update (get s) := by
  induction is using List.reverseRecOn with
  | nil => rfl
  | append_singleton is i ih =>
    rw [run_concat, andThen_fst, h, ih, log_concat, List.foldl_append]
    rfl

/-- A digest that goes by the inputs alone. -/
theorem digest_inputs (step : σ → ι → σ × List ε) (get : σ → β) (update : β → ι → β)
    (h : ∀ s i, get (step s i).1 = update (get s) i) (s : σ) (is : List ι) :
    get (run step s is).1 = is.foldl update (get s) := by
  induction is generalizing s with
  | nil => rfl
  | cons i is ih => rw [run_cons, andThen_fst, ih, h, List.foldl_cons]

/-- The first value in the log. -/
def earliest (f : ι × List ε → Option β) (l : List (ι × List ε)) : Option β :=
  l.foldl (fun first x => first.or (f x)) none

/-- The latest value in the log. -/
def latest (f : ι × List ε → Option β) (l : List (ι × List ε)) : Option β :=
  l.foldl (fun last x => (f x).or last) none

end Machine
