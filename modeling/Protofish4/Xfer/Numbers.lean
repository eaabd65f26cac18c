import Protofish4.Xfer.Silence

/-!
# At the top of the sequence space

A sender numbers its frames by a counter that saturates. The `k`-th frame
goes out as `k` until the counter stands at the top; from then on every
frame carries the top number, and `finish`, which announces the number
before the next one, is one short of it.
-/

namespace Protofish4

namespace XferSender

/-- The numbers of the data packets among these events. -/
def dataSeqs (out : List SendEvent) : List XferSeq :=
  out.filterMap fun
    | .emit seq (.data ..) => some seq
    | _ => none

/-- The last of these numbers, 0 if there is none. -/
def lastNumber (seqs : List XferSeq) : Nat := seqs.getLast?.elim 0 XferSeq.toNat

/-- 1 for a frame that finds the window open. -/
def opened (s : XferSender) : SendCall → Nat
  | .pushFrame .. => if s.canSend then 1 else 0
  | _ => 0

def openedFrom (s : XferSender) : List SendCall → Nat
  | [] => 0
  | c :: calls => s.opened c + openedFrom (s.step c).1 calls

/-- How many frames find the window open in a run. -/
def framesTaken (cfg : SenderConfig) (calls : List SendCall) : Nat := openedFrom (new cfg) calls

/-- No two frames share a number, and `finish` announces the last one. -/
structure SoundNumbers (cfg : SenderConfig) (calls : List SendCall) : Prop where
  fresh : (dataSeqs (run cfg calls).2).Nodup
  final : ∀ before now after, calls = before ++ .finish now :: after →
    ∀ e, ((run cfg before).1.finish now).2 = some e →
      ∃ counter finalSeq, e = .emit counter (.end finalSeq)
        ∧ finalSeq.toNat = lastNumber (dataSeqs (run cfg before).2)

/-- The run takes no frame beyond the top number, and ends, if it does, one
short of it. -/
structure InRange (cfg : SenderConfig) (calls : List SendCall) : Prop where
  frames : framesTaken cfg calls ≤ 2 ^ 32 - 1
  finish : ∀ before now after, calls = before ++ .finish now :: after →
    (run cfg before).1.state = .streaming → framesTaken cfg before ≤ 2 ^ 32 - 2

/-! ## One call -/

variable {s : XferSender}

@[simp] theorem dataSeqs_append (a b : List SendEvent) :
    dataSeqs (a ++ b) = dataSeqs a ++ dataSeqs b :=
  List.filterMap_append

theorem dataSeqs_eq_nil {out : List SendEvent}
    (h : ∀ seq ts payload, .emit seq (.data ts payload) ∉ out) : dataSeqs out = [] := by
  refine List.filterMap_eq_nil_iff.mpr fun e he => ?_
  cases e with
  | emit seq body =>
    cases body with
    | data ts payload => exact absurd he (h seq ts payload)
    | _ => rfl
  | _ => rfl

/-- A call hands out the next number and advances the counter, or does
neither. -/
theorem step_numbers (s : XferSender) (c : SendCall) :
    s.opened c = 1 ∧ dataSeqs (s.step c).2 = [s.nextSeq] ∧ (s.step c).1.nextSeq = s.nextSeq.next
      ∨ s.opened c = 0 ∧ dataSeqs (s.step c).2 = [] ∧ (s.step c).1.nextSeq = s.nextSeq := by
  cases c with
  | pushFrame ts payload now =>
    rcases s.pushFrame_cases now ts payload with ⟨heq, hclosed⟩ | ⟨hopen, hstate, hout⟩
    · right
      refine ⟨by simp [opened, hclosed], ?_, ?_⟩
      · simp only [step, heq]
        rfl
      · simp only [step, heq]
    · left
      refine ⟨by simp [opened, hopen], ?_, ?_⟩
      · simp only [step, hout]
        rfl
      · simp only [step, hstate]
  | recordSealed seq datagram => exact Or.inr ⟨rfl, rfl, rfl⟩
  | finish now =>
    right
    rcases s.finish_cases now with ⟨heq, -⟩ | ⟨-, -, hnext, -, seq, hout⟩
    · refine ⟨rfl, ?_, ?_⟩
      · simp only [step, heq]
        rfl
      · simp only [step, heq]
    · refine ⟨rfl, ?_, hnext⟩
      simp only [step, hout]
      rfl
  | handle body now =>
    refine Or.inr ⟨rfl, dataSeqs_eq_nil fun _ _ _ => emit_not_mem_handle s now, ?_⟩
    show (s.handle body now).1.nextSeq = _
    rw [handle_frame]
  | tick now =>
    refine Or.inr ⟨rfl, dataSeqs_eq_nil fun seq ts payload h => ?_, ?_⟩
    · cases tick_emit s now h
    · show (s.tick now).1.nextSeq = _
      rw [tick_frame]

/-! ## Every run -/

theorem openedFrom_concat (s : XferSender) (calls : List SendCall) (c : SendCall) :
    openedFrom s (calls ++ [c]) = openedFrom s calls + (Machine.run step s calls).1.opened c := by
  induction calls generalizing s with
  | nil => simp [openedFrom]
  | cons d calls ih =>
    show s.opened d + openedFrom _ (calls ++ [c]) = s.opened d + openedFrom _ calls + _
    rw [ih, Nat.add_assoc]
    rfl

theorem framesTaken_concat (cfg : SenderConfig) (calls : List SendCall) (c : SendCall) :
    framesTaken cfg (calls ++ [c]) = framesTaken cfg calls + (run cfg calls).1.opened c :=
  openedFrom_concat _ _ _

/-- **The numbers of a run**: `1, 2, …` up to the top, and then the top. -/
theorem numbers_run (cfg : SenderConfig) (calls : List SendCall) :
    (run cfg calls).1.nextSeq.toNat = min (framesTaken cfg calls + 1) (2 ^ 32 - 1)
      ∧ (dataSeqs (run cfg calls).2).map XferSeq.toNat
        = (List.range (framesTaken cfg calls)).map fun i => min (i + 1) (2 ^ 32 - 1) := by
  induction calls using List.reverseRecOn with
  | nil => exact ⟨rfl, rfl⟩
  | append_singleton calls c ih =>
    obtain ⟨hnext, hout⟩ := ih
    rw [framesTaken_concat, run_concat, Machine.andThen_fst, Machine.andThen_snd, dataSeqs_append,
      List.map_append, hout]
    rcases step_numbers (run cfg calls).1 c with ⟨hone, hseq, hadv⟩ | ⟨hzero, hseq, hsame⟩
    · rw [hone, hadv, hseq, XferSeq.toNat_next, hnext, List.range_succ, List.map_append]
      refine ⟨by omega, ?_⟩
      rw [List.map_singleton, List.map_singleton, hnext]
    · rw [hzero, hsame, hseq, hnext, Nat.add_zero, List.map_nil, List.append_nil]
      exact ⟨rfl, rfl⟩

/-- Counting that sticks at `m` repeats itself exactly beyond `m`. -/
theorem nodup_saturated_iff {m k : Nat} (hm : 1 ≤ m) :
    ((List.range k).map fun i => min (i + 1) m).Nodup ↔ k ≤ m := by
  constructor
  · intro h
    by_contra hlt
    have heq := List.inj_on_of_nodup_map h (List.mem_range.mpr (show m - 1 < k by omega))
      (List.mem_range.mpr (show m < k by omega)) (by omega)
    omega
  · intro hle
    refine List.nodup_range.map_on fun i hi j hj heq => ?_
    have hi := List.mem_range.mp hi
    have hj := List.mem_range.mp hj
    omega

theorem nodup_dataSeqs_iff (cfg : SenderConfig) (calls : List SendCall) :
    (dataSeqs (run cfg calls).2).Nodup ↔ framesTaken cfg calls ≤ 2 ^ 32 - 1 := by
  have hinj : Function.Injective XferSeq.toNat := fun a b h => by
    rw [← XferSeq.ofNat_toNat a, ← XferSeq.ofNat_toNat b, h]
  rw [← List.nodup_map_iff hinj, (numbers_run cfg calls).2]
  exact nodup_saturated_iff (by omega)

theorem lastNumber_run (cfg : SenderConfig) (calls : List SendCall) :
    lastNumber (dataSeqs (run cfg calls).2) = min (framesTaken cfg calls) (2 ^ 32 - 1) := by
  have hlast : lastNumber (dataSeqs (run cfg calls).2)
      = (((dataSeqs (run cfg calls).2).map XferSeq.toNat).getLast?).getD 0 := by
    unfold lastNumber
    rw [List.getLast?_map]
    cases (dataSeqs (run cfg calls).2).getLast? <;> rfl
  rw [hlast, (numbers_run cfg calls).2]
  cases framesTaken cfg calls with
  | zero => rfl
  | succ k =>
    rw [List.range_succ, List.map_append, List.map_singleton, List.getLast?_concat]
    rfl

/-- What a streaming sender announces. -/
theorem finish_final (cfg : SenderConfig) (calls : List SendCall) (now : Instant)
    (hs : (run cfg calls).1.state = .streaming) :
    ∃ counter finalSeq, ((run cfg calls).1.finish now).2 = some (.emit counter (.end finalSeq))
      ∧ finalSeq.toNat = min (framesTaken cfg calls) (2 ^ 32 - 2) := by
  rcases (run cfg calls).1.finish_cases now with ⟨-, hno⟩ | ⟨-, -, -, -, counter, hout⟩
  · exact absurd hs hno
  · have hnext := (numbers_run cfg calls).1
    refine ⟨counter, _, hout, ?_⟩
    rw [XferSeq.toNat_ofNat (by omega)]
    omega

/-- **The sequence space, exactly.** No number is handed out twice and
`finish` announces the last one, if and only if the run takes at most
`2 ^ 32 - 1` frames, and at most `2 ^ 32 - 2` if it is finished: the counter
saturates instead of running out. -/
theorem sound_numbers_iff (cfg : SenderConfig) (calls : List SendCall) :
    SoundNumbers cfg calls ↔ InRange cfg calls := by
  constructor
  · intro h
    refine ⟨(nodup_dataSeqs_iff cfg calls).mp h.fresh, fun before now after heq hs => ?_⟩
    obtain ⟨counter, finalSeq, hout, hnum⟩ := finish_final cfg before now hs
    obtain ⟨_, _, he, hlast⟩ := h.final before now after heq _ hout
    cases he
    rw [hnum, lastNumber_run] at hlast
    omega
  · intro h
    refine ⟨(nodup_dataSeqs_iff cfg calls).mpr h.frames, fun before now after heq e he => ?_⟩
    have hs : (run cfg before).1.state = .streaming := by
      rcases (run cfg before).1.finish_cases now with ⟨hno, -⟩ | ⟨hs, -⟩
      · rw [hno] at he
        cases he
      · exact hs
    obtain ⟨counter, finalSeq, hout, hnum⟩ := finish_final cfg before now hs
    have hle := h.finish before now after heq hs
    rw [hout, Option.some.injEq] at he
    refine ⟨counter, finalSeq, he.symm, ?_⟩
    rw [hnum, lastNumber_run]
    omega

/-! ## Running over the top -/

/-- A window as wide as it can be set. -/
def widestConfig : SenderConfig := { maxOutstanding := 2 ^ 32 - 1 }

/-- So many frames, one after the other. -/
def frames (n : Nat) : List SendCall := List.replicate n (.pushFrame ⟨0⟩ [] 0)

theorem frames_succ (n : Nat) : frames (n + 1) = frames n ++ [.pushFrame ⟨0⟩ [] 0] :=
  List.replicate_succ'

/-- Pushing frames keeps the sender streaming, and its window cannot fill. -/
theorem canSend_frames (n : Nat) : (run widestConfig (frames n)).1.canSend = true := by
  have hkeep : (run widestConfig (frames n)).1.state = .streaming
      ∧ (run widestConfig (frames n)).1.paused = false
      ∧ (run widestConfig (frames n)).1.cfg = widestConfig := by
    induction n with
    | zero => exact ⟨rfl, rfl, rfl⟩
    | succ n ih =>
      rw [frames_succ, run_concat, Machine.andThen_fst]
      simp only [step]
      rcases (run widestConfig (frames n)).1.pushFrame_cases 0 ⟨0⟩ [] with ⟨heq, -⟩ | ⟨-, hstate, -⟩
      · rw [heq]
        exact ih
      · rw [hstate]
        exact ih
  obtain ⟨hs, hp, hcfg⟩ := hkeep
  have hlt := (run widestConfig (frames n)).1.nextSeq.toNat_lt
  have hwide : (run widestConfig (frames n)).1.cfg.maxOutstanding = 2 ^ 32 - 1 := by
    rw [hcfg]
    rfl
  have hroom : (run widestConfig (frames n)).1.outstanding
      < (run widestConfig (frames n)).1.cfg.maxOutstanding := by
    unfold outstanding
    omega
  simp [canSend, hs, hp, hroom]

theorem framesTaken_frames (n : Nat) : framesTaken widestConfig (frames n) = n := by
  induction n with
  | zero => rfl
  | succ n ih =>
    rw [frames_succ, framesTaken_concat, ih, opened, if_pos (canSend_frames n)]

/-- One frame more than there are numbers. -/
theorem top_number_repeats : ¬ SoundNumbers widestConfig (frames (2 ^ 32)) := by
  intro h
  have hle := (nodup_dataSeqs_iff _ _).mp h.fresh
  rw [framesTaken_frames] at hle
  omega

end XferSender

end Protofish4
