import Protofish4.Lib.Machine
import Protofish4.Lib.Suffix
import Protofish4.Xfer.Retrans

/-!
# What the ring holds

The ring evicts one entry at a time, on pushes and on acknowledgements. In
any run it holds what two one-shot definitions leave of the push history:
the longest suffix within the budgets, and of that the entries above every
acknowledged floor. `Evicts` says what any number of evictions do; both
loops are instances.
-/

namespace Protofish4

open Suffix

namespace RetransRing

/-! ## The eviction loop of a push -/

/-- At most so many datagrams, and so many bytes. -/
def InBudget (maxFrames maxBytes : Nat) (entries : List (XferSeq × Bytes)) : Prop :=
  entries.length ≤ maxFrames ∧ weight entries ≤ maxBytes

instance (maxFrames maxBytes : Nat) : DecidablePred (InBudget maxFrames maxBytes) :=
  fun entries =>
    inferInstanceAs (Decidable (entries.length ≤ maxFrames ∧ weight entries ≤ maxBytes))

section Budget

variable {maxFrames maxBytes : Nat} {e : XferSeq × Bytes} {entries : List (XferSeq × Bytes)}

theorem inBudget_nil : InBudget maxFrames maxBytes [] := ⟨Nat.zero_le _, Nat.zero_le _⟩

theorem InBudget.of_cons (h : InBudget maxFrames maxBytes (e :: entries)) :
    InBudget maxFrames maxBytes entries := by
  obtain ⟨h1, h2⟩ := h
  rw [List.length_cons] at h1
  rw [weight_cons] at h2
  exact ⟨by omega, by omega⟩

theorem InBudget.of_concat (h : InBudget maxFrames maxBytes (entries ++ [e])) :
    InBudget maxFrames maxBytes entries := by
  obtain ⟨h1, h2⟩ := h
  rw [List.length_append] at h1
  rw [weight_append] at h2
  exact ⟨by omega, by omega⟩

end Budget

/-- The eviction loop of `push` stops at the longest suffix in budget. -/
theorem shrink_entries (fuel : Nat) (r : RetransRing) (hfuel : r.entries.length ≤ fuel)
    (hb : r.bytes = weight r.entries) :
    (shrink fuel r).entries = longest (InBudget r.maxFrames r.maxBytes) r.entries := by
  induction fuel generalizing r with
  | zero =>
    have hnil : r.entries = [] := List.length_eq_zero_iff.mp (Nat.le_zero.mp hfuel)
    rw [shrink, hnil, longest]
  | succ fuel ih =>
    have htest : (r.entries.length > r.maxFrames ∨ r.bytes > r.maxBytes)
        ↔ ¬ InBudget r.maxFrames r.maxBytes r.entries := by
      unfold InBudget
      omega
    simp only [shrink, htest]
    split
    · rename_i hover
      cases he : r.evictOldest with
      | none =>
        -- an empty ring is within any budget
        unfold evictOldest at he
        cases hr : r.entries with
        | nil => exact absurd (hr ▸ inBudget_nil) hover
        | cons front rest => simp [hr] at he
      | some p =>
        obtain ⟨data, hone⟩ := evictOldest_evicts he
        have hcons := hone.entries
        rw [List.singleton_append] at hcons
        rw [hcons] at hover hfuel
        rw [List.length_cons] at hfuel
        have hrest := ih p.2 (by omega) (hone.exact hb)
        rw [hone.maxFrames, hone.maxBytes] at hrest
        show (shrink fuel p.2).entries = _
        rw [hrest, hcons]
        simp only [longest, if_neg hover]
    · rename_i hin
      exact (longest_of_holds (not_not.mp hin)).symm

/-- A push appends its entry, and evicts the oldest until what is left is
in budget. -/
theorem push_spec {r : RetransRing} (hb : r.bytes = weight r.entries) (seq : XferSeq)
    (sealed : Bytes) :
    (r.push seq sealed).entries
        = longest (InBudget r.maxFrames r.maxBytes) (r.entries ++ [(seq, sealed)])
      ∧ ∃ gone, Evicts { r with
          bytes := r.bytes + sealed.length
          entries := r.entries ++ [(seq, sealed)] } gone (r.push seq sealed) := by
  refine ⟨shrink_entries _ _ (Nat.le_refl _) ?_, push_evicts r seq sealed⟩
  show r.bytes + sealed.length = weight (r.entries ++ [(seq, sealed)])
  simp [hb]

end RetransRing

/-! ## Every run -/

/-- One call on a ring. -/
inductive RingCall where
  | push (seq : XferSeq) (sealed : Bytes)
  | ackThrough (contiguous : XferSeq)
  deriving DecidableEq

namespace RetransRing

/-- What a call puts into the ring. -/
def entered : RingCall → List (XferSeq × Bytes)
  | .push seq sealed => [(seq, sealed)]
  | .ackThrough _ => []

/-- The floor a call acknowledges. -/
def floor : RingCall → List Nat
  | .push .. => []
  | .ackThrough contiguous => [contiguous.toNat]

/-- The push history. -/
def pushed (calls : List RingCall) : List (XferSeq × Bytes) := calls.flatMap entered

/-- Every acknowledged floor. -/
def floors (calls : List RingCall) : List Nat := calls.flatMap floor

/-- What one call does to the ring. -/
def call (r : RetransRing) : RingCall → RetransRing
  | .push seq sealed => r.push seq sealed
  | .ackThrough contiguous => r.ackThrough contiguous

/-- One call, with the entries it removed from the front. -/
def step (r : RetransRing) (c : RingCall) : RetransRing × List (XferSeq × Bytes) :=
  (r.call c,
    (r.entries ++ entered c).take ((r.entries ++ entered c).length - (r.call c).entries.length))

/-- A new ring after these calls, and everything removed from it, in order. -/
def run (maxFrames maxBytes : Nat) (calls : List RingCall) : RetransRing × List (XferSeq × Bytes) :=
  Machine.run step (new maxFrames maxBytes) calls

/-- Pushed numbers go up, and no acknowledgement runs ahead of them: a push
lies above every floor acknowledged before it, as it does where no floor
is higher than the last push. -/
structure Proper (calls : List RingCall) : Prop where
  increasing : (seqs (pushed calls)).Pairwise (· < ·)
  behind : calls.Pairwise fun c c' => ∀ f ∈ floor c, ∀ e ∈ entered c', f < e.1.toNat

/-- The number of the last of these entries, 0 if there are none. -/
def lastSeq (entries : List (XferSeq × Bytes)) : Nat := entries.getLast?.elim 0 fun e => e.1.toNat

/-- The entry lies above each of these floors. -/
def aboveAll (fs : List Nat) (e : XferSeq × Bytes) : Bool := fs.all (· < e.1.toNat)

/-- What a ring with these budgets is after these calls, `gone` having been
removed from it. -/
structure Exact (maxFrames maxBytes : Nat) (calls : List RingCall) (r : RetransRing)
    (gone : List (XferSeq × Bytes)) : Prop where
  history : pushed calls = gone ++ r.entries
  /-- A budget of 0 counts as 1. -/
  held : ∃ kept, Longest (InBudget (max maxFrames 1) (max maxBytes 1)) kept (pushed calls)
    ∧ r.entries = kept.filter (aboveAll (floors calls))
  bytes : r.bytes = weight r.entries
  /-- Every subtraction from the byte count was covered by it. -/
  spent : weight (pushed calls) = weight gone + r.bytes
  lostBelow : r.lostBelow = max (lastSeq gone) (top (floors calls))
  get : ∀ s d, r.get s = some d ↔ (s, d) ∈ r.entries

section Runs

variable {maxFrames maxBytes : Nat} {calls : List RingCall} {c : RingCall}

theorem pushed_concat (calls : List RingCall) (c : RingCall) :
    pushed (calls ++ [c]) = pushed calls ++ entered c := by
  simp [pushed]

theorem floors_concat (calls : List RingCall) (c : RingCall) :
    floors (calls ++ [c]) = floors calls ++ floor c := by
  simp [floors]

theorem Proper.init (h : Proper (calls ++ [c])) : Proper calls where
  increasing := by
    have hinc := h.increasing
    rw [pushed_concat, seqs_append] at hinc
    exact (List.pairwise_append.mp hinc).1
  behind := (List.pairwise_append.mp h.behind).1

theorem Proper.floor_lt (h : Proper (calls ++ [c])) :
    ∀ f ∈ floors calls, ∀ e ∈ entered c, f < e.1.toNat := by
  intro f hf
  obtain ⟨c', hc', hf⟩ := List.mem_flatMap.mp hf
  exact (List.pairwise_append.mp h.behind).2.2 c' hc' c (List.mem_singleton_self c) f hf

/-- In numbers that go up, lying above a floor is inherited upwards. -/
theorem aboveAll_mono {entries : List (XferSeq × Bytes)} (h : (seqs entries).Pairwise (· < ·))
    (fs : List Nat) :
    entries.Pairwise fun x y => aboveAll fs x = true → aboveAll fs y = true := by
  rw [seqs, List.pairwise_map] at h
  refine h.imp fun {x y} hlt hx => ?_
  rw [aboveAll, List.all_eq_true] at hx ⊢
  intro f hf
  have := of_decide_eq_true (hx f hf)
  exact decide_eq_true (this.trans hlt)

theorem top_eq_lastSeq {entries : List (XferSeq × Bytes)} (h : (seqs entries).Pairwise (· < ·)) :
    top (seqs entries) = lastSeq entries := by
  induction entries using List.reverseRecOn with
  | nil => rfl
  | append_singleton entries e _ =>
    rw [seqs_append] at h ⊢
    have hlt := (List.pairwise_append.mp h).2.2
    have hle : top (seqs entries) ≤ e.1.toNat :=
      top_le fun n hn => (hlt n hn _ (List.mem_singleton_self _)).le
    rw [top_append, lastSeq, List.getLast?_concat]
    show max (top (seqs entries)) (max e.1.toNat 0) = e.1.toNat
    omega

/-- The ring in numbers that go up answers for exactly what it holds. -/
theorem get_eq_some_iff {r : RetransRing} (h : (seqs r.entries).Pairwise (· < ·)) (s : XferSeq)
    (d : Bytes) : r.get s = some d ↔ (s, d) ∈ r.entries := by
  refine ⟨get_mem, fun hmem => ?_⟩
  obtain ⟨d', hget⟩ := exists_get ⟨_, hmem, rfl⟩
  have hmem' := get_mem hget
  -- two entries under one number are one entry
  have hnodup : (r.entries.map fun e => e.1.toNat).Nodup := h.imp Nat.ne_of_lt
  have heq := List.inj_on_of_nodup_map hnodup hmem hmem' rfl
  rw [hget, (Prod.mk.inj heq).2]

/-- The invariant of a run, in terms of the computed suffix. -/
structure RingInv (maxFrames maxBytes : Nat) (calls : List RingCall) (r : RetransRing)
    (gone : List (XferSeq × Bytes)) : Prop where
  maxFrames_eq : r.maxFrames = max maxFrames 1
  maxBytes_eq : r.maxBytes = max maxBytes 1
  history : pushed calls = gone ++ r.entries
  held : r.entries = (longest (InBudget (max maxFrames 1) (max maxBytes 1)) (pushed calls)).filter
    (aboveAll (floors calls))
  bytes : r.bytes = weight r.entries
  lostBelow : r.lostBelow = max (top (seqs gone)) (top (floors calls))

/-- What a step reports as removed is the front that is gone. -/
theorem step_snd {r : RetransRing} {gone : List (XferSeq × Bytes)}
    (h : r.entries ++ entered c = gone ++ (r.call c).entries) : (r.step c).2 = gone := by
  show (r.entries ++ entered c).take _ = gone
  rw [h, List.length_append, Nat.add_sub_cancel, List.take_left]

theorem ringInv_push {r : RetransRing} {gone : List (XferSeq × Bytes)} {seq : XferSeq}
    {sealed : Bytes} (h : RingInv maxFrames maxBytes calls r gone)
    (hp : Proper (calls ++ [.push seq sealed])) :
    RingInv maxFrames maxBytes (calls ++ [.push seq sealed]) (r.step (.push seq sealed)).1
      (gone ++ (r.step (.push seq sealed)).2) := by
  obtain ⟨hentries, more, hevicts⟩ := push_spec h.bytes seq sealed
  have hsnd : (r.step (.push seq sealed)).2 = more := step_snd hevicts.entries
  have hincreasing := hp.increasing
  rw [pushed_concat] at hincreasing
  have habove : aboveAll (floors calls) (seq, sealed) = true :=
    List.all_eq_true.mpr fun f hf =>
      decide_eq_true (hp.floor_lt f hf (seq, sealed) (List.mem_singleton_self _))
  have hfloors : floors (calls ++ [.push seq sealed]) = floors calls := by
    rw [floors_concat]
    exact List.append_nil _
  rw [hsnd]
  refine ⟨hevicts.maxFrames.trans h.maxFrames_eq, hevicts.maxBytes.trans h.maxBytes_eq, ?_, ?_,
    hevicts.exact ?_, ?_⟩
  · rw [pushed_concat, h.history, List.append_assoc, List.append_assoc]
    exact congrArg (gone ++ ·) hevicts.entries
  · show (r.push seq sealed).entries = _
    rw [hentries, h.maxFrames_eq, h.maxBytes_eq, h.held, hfloors, pushed_concat]
    generalize hkept : longest (InBudget (max maxFrames 1) (max maxBytes 1)) (pushed calls) = kept
    have hsub : (kept ++ [(seq, sealed)]).Sublist (pushed calls ++ [(seq, sealed)]) :=
      (hkept ▸ (longest_suffix _).sublist).append_right _
    have hlast : kept.filter (aboveAll (floors calls)) ++ [(seq, sealed)]
        = (kept ++ [(seq, sealed)]).filter (aboveAll (floors calls)) := by
      simp [habove]
    show _ = (longest _ (pushed calls ++ [(seq, sealed)])).filter _
    have hconcat := longest_concat (P := InBudget (max maxFrames 1) (max maxBytes 1))
      (fun _ _ => InBudget.of_concat) (pushed calls) (seq, sealed)
    rw [hconcat, hkept, hlast, longest_filter (fun _ _ => InBudget.of_cons) _
      (aboveAll_mono (hincreasing.sublist (hsub.map _)) _)]
  · show r.bytes + sealed.length = weight (r.entries ++ [(seq, sealed)])
    simp [h.bytes]
  · show (r.push seq sealed).lostBelow = _
    rw [hevicts.lostBelow, hfloors, seqs_append, top_append]
    show max r.lostBelow _ = _
    rw [h.lostBelow]
    omega

theorem ringInv_ackThrough {r : RetransRing} {gone : List (XferSeq × Bytes)}
    {contiguous : XferSeq} (h : RingInv maxFrames maxBytes calls r gone)
    (hp : Proper (calls ++ [.ackThrough contiguous])) :
    RingInv maxFrames maxBytes (calls ++ [.ackThrough contiguous])
      (r.step (.ackThrough contiguous)).1 (gone ++ (r.step (.ackThrough contiguous)).2) := by
  obtain ⟨more, hevicts, hle, -⟩ := dropAcked_evicts _ contiguous r (Nat.le_refl _)
  have hmore : r.entries = more ++ (r.ackThrough contiguous).entries := hevicts.entries
  have hsnd : (r.step (.ackThrough contiguous)).2 = more :=
    step_snd ((List.append_nil _).trans hmore)
  have hpushed : pushed (calls ++ [.ackThrough contiguous]) = pushed calls := by
    rw [pushed_concat]
    exact List.append_nil _
  have hfloors : floors (calls ++ [.ackThrough contiguous]) = floors calls ++ [contiguous.toNat] :=
    floors_concat _ _
  have hincreasing := hp.increasing
  rw [hpushed] at hincreasing
  rw [hsnd]
  refine ⟨hevicts.maxFrames.trans h.maxFrames_eq, hevicts.maxBytes.trans h.maxBytes_eq, ?_, ?_,
    hevicts.exact h.bytes, ?_⟩
  · rw [hpushed, h.history, List.append_assoc]
    exact congrArg (gone ++ ·) hmore
  · have hsub : r.entries.Sublist (pushed calls) := h.history ▸ List.sublist_append_right _ _
    have hdrop : r.entries.dropWhile (fun e => e.1.toNat ≤ contiguous.toNat)
        = r.entries.filter (aboveAll [contiguous.toNat]) := by
      rw [← dropWhile_eq_filter (aboveAll_mono (hincreasing.sublist (hsub.map _)) _)]
      congr 1
      funext e
      simp only [aboveAll, List.all_cons, List.all_nil, Bool.and_true, ← decide_not, not_lt]
    show (r.ackThrough contiguous).entries = _
    rw [ackThrough_entries, hdrop, hpushed, hfloors, h.held, List.filter_filter]
    congr 1
    funext e
    simp [aboveAll, Bool.and_comm]
  · have htop : top (seqs more) ≤ contiguous.toNat := top_seqs_le hle
    show (r.ackThrough contiguous).lostBelow = _
    rw [ackThrough_lostBelow, h.lostBelow, seqs_append, top_append, hfloors, top_append]
    show _ = max _ (max (top (floors calls)) (max contiguous.toNat 0))
    omega

theorem ringInv_run (hp : Proper calls) : RingInv maxFrames maxBytes calls
    (run maxFrames maxBytes calls).1 (run maxFrames maxBytes calls).2 := by
  induction calls using List.reverseRecOn with
  | nil => exact ⟨rfl, rfl, rfl, rfl, rfl, rfl⟩
  | append_singleton calls c ih =>
    rw [run, Machine.run_concat]
    cases c with
    | push seq sealed => exact ringInv_push (ih hp.init) hp
    | ackThrough contiguous => exact ringInv_ackThrough (ih hp.init) hp

/-- **The ring holds exactly what its budgets allow**, and counts it
exactly. -/
theorem ring_exact (maxFrames maxBytes : Nat) (calls : List RingCall) (h : Proper calls) :
    Exact maxFrames maxBytes calls (run maxFrames maxBytes calls).1
      (run maxFrames maxBytes calls).2 := by
  have hinv := @ringInv_run maxFrames maxBytes calls h
  generalize run maxFrames maxBytes calls = p at hinv ⊢
  have hincreasing := h.increasing
  rw [hinv.history] at hincreasing
  refine ⟨hinv.history, ⟨_, longest_spec inBudget_nil _, hinv.held⟩, hinv.bytes, ?_, ?_, ?_⟩
  · rw [hinv.history, weight_append, hinv.bytes]
  · rw [hinv.lostBelow, top_eq_lastSeq (hincreasing.sublist ((List.sublist_append_left _ _).map _))]
  · exact get_eq_some_iff (hincreasing.sublist ((List.sublist_append_right _ _).map _))

/-- A ring for two datagrams of three bytes in all: the second evicts the
first, the fourth is too large to be held. -/
def evictingCalls : List RingCall :=
  [.push (.ofNat 1) [1, 1], .push (.ofNat 2) [2, 2], .ackThrough (.ofNat 1),
    .push (.ofNat 3) [3], .push (.ofNat 4) [4, 4, 4, 4], .push (.ofNat 5) [5],
    .push (.ofNat 6) [6], .ackThrough (.ofNat 5)]

theorem ring_exact_evicting : (run 2 3 evictingCalls).1.entries = [(.ofNat 6, [6])]
    ∧ Exact 2 3 evictingCalls (run 2 3 evictingCalls).1 (run 2 3 evictingCalls).2 :=
  ⟨by decide +kernel, ring_exact 2 3 evictingCalls ⟨by decide +kernel, by decide +kernel⟩⟩

end Runs

end RetransRing

end Protofish4
