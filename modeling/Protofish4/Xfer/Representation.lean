import Protofish4.Xfer.Budget
import Protofish4.Xfer.Exhaustion

/-!
# How a streaming receiver represents its stream

Five fields of a receiver say the same thing in their own way: which
frames lie above the released segment. Between calls they agree. Buffer,
tracker and byte count follow from the invariants of the release loop; the
entries for holes lie strictly below the highest arrival, since a hole is
entered only while something has arrived above it.
-/

namespace Protofish4

open Std (ExtTreeMap)

namespace XferReceiver

/-- The fields of a streaming receiver agree. -/
structure Represents (r : XferReceiver) : Prop where
  released : r.relReleased = r.gaps.contiguous
  keys : ∀ s, s ∈ r.reorder ↔ s ∈ r.gaps.ahead
  seq : ∀ s (frame : Frame), r.reorder[s]? = some frame → frame.seq.toNat = s
  bytes : r.reorderBytes = r.heldBytes
  nacks : ∀ s ∈ r.nacks, r.relReleased < s ∧ s < r.gaps.highest
  lost : r.senderLostBelow ≤ r.gaps.contiguous

/-- The bytes a call puts into the buffer, if it gets that far. -/
def incoming (r : XferReceiver) (c : RecvCall) : Nat :=
  match arrival c with
  | none => 0
  | some frame => if (r.gaps.record frame.seq).2 then frame.payload.length else 0

variable {r : XferReceiver} {calls : List RecvCall} {evs : List RecvEvent}

/-! ## The entries for holes -/

/-- Every entry is about a number below the highest arrival. -/
def EnteredBelow (r : XferReceiver) : Prop :=
  r.relState = .streaming → ∀ s ∈ r.nacks, s < r.gaps.highest

theorem highest_le_step (h : r.gaps.WF) (c : RecvCall) :
    r.gaps.highest ≤ (r.step c).1.gaps.highest := by
  rw [highest_step h]
  cases arrival c with
  | none => exact Nat.le_refl _
  | some frame => exact Nat.le_max_left _ _

theorem RecvInv.considered_lt (h : RecvInv calls r evs) (hs : r.relState = .streaming) :
    ∀ s ∈ r.considered, s < r.gaps.highest := by
  intro s hmem
  have hhigh : r.gaps.highest = 0 ∨ r.gaps.highest ∈ r.gaps.seen :=
    h.highest_mem.imp_right ((h.live hs).mem_seen _).mpr
  exact (h.wf.mem_missing hhigh hmem).2.1

/-- A call enters only holes it considers. -/
theorem mem_nacks_step (h : RecvInv calls r evs) (hfrugal : Frugal r) {c : RecvCall}
    (hs : (r.step c).1.relState = .streaming) {s : Nat} (hmem : s ∈ (r.step c).1.nacks) :
    s ∈ r.nacks ∨ s ∈ r.considered := by
  have hs₀ : r.relState = .streaming := (step_ends r c).streaming_of hs
  cases c with
  | setBufferedMs ms => exact Or.inl hmem
  | handle seq body now =>
    left
    -- the entry is for a number above the segment, and those are kept
    have hup := ((recvInv_step h (.handle seq body now)).live hs).caught_up
    have hlow := (((step_frugal h hfrugal (.handle seq body now)).fits hs).nacks s hmem).1
    rw [hup] at hlow
    have hkeep : (r.handle seq body now).1.nacks[s]? = r.nacks[s]? :=
      handle_books seq body hs s hlow
    rw [ExtTreeMap.mem_iff_isSome_getElem?] at hmem ⊢
    rwa [← hkeep]
  | tick now =>
    have hopen := (h.live hs₀).not_closed
    rcases @tick_cases r now hs₀ hopen with ⟨hidle, hstall, hgo⟩ | ⟨hfin, -⟩
    · obtain ⟨-, hnacks, -, -⟩ := tick_round hs₀ hopen hidle hstall hgo
      have hround : s ∈ (r.nackRound now).nacks := hnacks ▸ hmem
      exact mem_nackLoop hround
    · rw [show (r.step (.tick now)).1.relState = .finished from hfin] at hs
      cases hs

theorem step_enteredBelow (h : RecvInv calls r evs) (hfrugal : Frugal r) (hbelow : EnteredBelow r)
    (c : RecvCall) : EnteredBelow (r.step c).1 := by
  intro hs s hmem
  have hs₀ : r.relState = .streaming := (step_ends r c).streaming_of hs
  refine lt_of_lt_of_le ?_ (highest_le_step h.wf c)
  rcases mem_nacks_step h hfrugal hs hmem with hold | hnew
  · exact hbelow hs₀ s hold
  · exact h.considered_lt hs₀ s hnew

theorem enteredBelow_run (cfg : ReceiverConfig) (start : Instant) (calls : List RecvCall) :
    EnteredBelow (run cfg start calls).1 := by
  induction calls using List.reverseRecOn with
  | nil =>
    intro _ s hmem
    simp [run, new] at hmem
  | append_singleton calls c ih =>
    rw [run_concat, Machine.andThen_fst]
    exact step_enteredBelow (recvInv_run cfg start calls) (frugal_run cfg start calls) ih c

/-! ## What a call releases -/

/-- What a call releases is what has arrived next above the segment. -/
theorem reliables_step_sublist (h : RecvInv calls r evs) (c : RecvCall)
    (hhigh : (r.step c).1.gaps.highest = highestArrival (calls ++ [c])) :
    (reliables (r.step c).2).Sublist (above (calls ++ [c]) r.relReleased) := by
  have hd := step_delivers h.wf h.live c
  have hle := (hd.le h.released_le).trans (step_wf h.wf c).contiguous_le
  have hmono := hd.mono
  have hout := hd.out
  rw [hhigh] at hle
  rw [← firstArrival_concat] at hout
  generalize (r.step c).1.relReleased = n at hle hmono hout
  have hn : n = r.relReleased + (n - r.relReleased) := by omega
  rw [hn, released_add] at hout
  rw [← List.append_cancel_left hout, above]
  refine List.Sublist.filterMap _ ?_
  have hlen : highestArrival (calls ++ [c]) - r.relReleased
      = (n - r.relReleased) + (highestArrival (calls ++ [c]) - n) := by omega
  rw [hlen, ← List.range'_append_1]
  exact List.sublist_append_left _ _

/-- What has arrived above the segment, once a call is made, weighs what
the buffer holds and what the call puts into it. -/
theorem payloadBytes_above_concat {cfg : ReceiverConfig} {start : Instant}
    (hs : (run cfg start calls).1.relState = .streaming) (c : RecvCall) :
    payloadBytes (above (calls ++ [c]) (run cfg start calls).1.relReleased)
      = (run cfg start calls).1.reorderBytes + (run cfg start calls).1.incoming c := by
  have hlive := (recvInv_run cfg start calls).live hs
  have hbytes := ((frugal_run cfg start calls).fits hs).bytes
  have hheld := heldBytes_eq hlive.toHeld
  by_cases hnew : ∃ frame, arrival c = some frame
      ∧ ((run cfg start calls).1.gaps.record frame.seq).2 = true
  · obtain ⟨frame, ha, hflag⟩ := hnew
    obtain ⟨h0, hnone⟩ := (hlive.fresh_iff _).mp hflag
    have hin : (run cfg start calls).1.incoming c = frame.payload.length := by
      rw [incoming, ha]
      exact if_pos hflag
    unfold arrival at ha
    split at ha
    · cases ha
      rw [hin, (judged hs h0 hnone).crowded, hlive.caught_up]
    · cases ha
  · -- the call brings nothing new, and puts nothing into the buffer
    have hstale : ∀ frame, arrival c = some frame →
        ¬ (frame.seq.toNat ≠ 0 ∧ firstArrival calls frame.seq.toNat = none) :=
      fun frame ha h => hnew ⟨frame, ha, (hlive.fresh_iff _).mpr h⟩
    have hin : (run cfg start calls).1.incoming c = 0 := by
      unfold incoming
      cases ha : arrival c with
      | none => rfl
      | some frame => exact if_neg fun hflag => hnew ⟨frame, ha, hflag⟩
    rw [hin, Nat.add_zero, hbytes, hheld, above, above, firstArrival_concat_stale hstale,
      highestArrival_concat_stale hstale]

/-! ## Every run -/

theorem released_le_incoming {cfg : ReceiverConfig} {start : Instant}
    (hs : (run cfg start calls).1.relState = .streaming) (c : RecvCall) :
    payloadBytes (reliables ((run cfg start calls).1.step c).2)
      ≤ (run cfg start calls).1.reorderBytes + (run cfg start calls).1.incoming c := by
  have hhigh := highest_run cfg start (calls ++ [c])
  rw [run_concat, Machine.andThen_fst] at hhigh
  rw [← payloadBytes_above_concat hs c]
  have hsub := reliables_step_sublist (recvInv_run cfg start calls) c hhigh
  exact (hsub.map fun frame => frame.payload.length).sum_le_sum fun _ _ => Nat.zero_le _

theorem represents_run {cfg : ReceiverConfig} {start : Instant}
    (hs : (run cfg start calls).1.relState = .streaming) : Represents (run cfg start calls).1 := by
  have hinv := recvInv_run cfg start calls
  have hlive := hinv.live hs
  have hfits := (frugal_run cfg start calls).fits hs
  have hbelow := enteredBelow_run cfg start calls hs
  generalize (run cfg start calls).1 = r at hs hinv hlive hfits hbelow ⊢
  have hget : ∀ s (frame : Frame), r.reorder[s]? = some frame →
      r.relReleased < s ∧ firstArrival calls s = some frame := by
    intro s frame hsome
    rw [hlive.reorder_get] at hsome
    split at hsome
    · exact ⟨‹_›, hsome⟩
    · cases hsome
  refine ⟨hlive.caught_up, fun s => ?_, fun s frame hsome => ?_, hfits.bytes,
    fun s hm => ⟨(hfits.nacks s hm).1, hbelow s hm⟩, hlive.lost_le⟩
  · rw [hinv.wf.mem_ahead_iff, hlive.mem_seen, ExtTreeMap.mem_iff_isSome_getElem?,
      hlive.reorder_get, hlive.caught_up]
    split
    · simp [*]
    · simp [*]
  · exact (firstArrival_eq_some (hget s frame hsome).2).2.1

/-- **The fields of a streaming receiver agree**, after every run. So a
release never takes more out of the byte count than is in it, and the round
of requests never meets a number that the sender has given up. -/
theorem represents_stream (cfg : ReceiverConfig) (start : Instant) (calls : List RecvCall)
    (hs : (run cfg start calls).1.relState = .streaming) :
    Represents (run cfg start calls).1
      ∧ (∀ c, payloadBytes (reliables ((run cfg start calls).1.step c).2)
        ≤ (run cfg start calls).1.reorderBytes + (run cfg start calls).1.incoming c)
      ∧ ∀ s ∈ (run cfg start calls).1.considered, (run cfg start calls).1.senderLostBelow < s :=
  ⟨represents_run hs, released_le_incoming hs, (recvInv_run cfg start calls).lost_lt hs⟩

/-- A frame above a hole, and a tick that asks for what is missing. -/
def oneHole : List RecvCall := [.handle (.ofNat 2) (.data ⟨20⟩ [1, 2]) 0, .tick 0]

theorem represents_stream_one_hole :
    (run .audioEngine 0 oneHole).1.reorderBytes = 2
      ∧ 1 ∈ (run .audioEngine 0 oneHole).1.nacks ∧ Represents (run .audioEngine 0 oneHole).1 :=
  ⟨by decide +kernel, by decide +kernel,
    (represents_stream .audioEngine 0 oneHole (by decide +kernel)).1⟩

end XferReceiver

end Protofish4
