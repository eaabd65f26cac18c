import Protofish4.Xfer.ReceiverRun
import Protofish4.Xfer.ReceiverEvents

/-!
# Asking for what is missing

What `emit_nacks` considers on a tick and what it asks for. It computes
the holes from the arrivals alone, so it recovers the tail of a transfer
exactly when the declared end lies below an arrival, or the holes below
the highest arrival already fill one request.
-/

namespace Protofish4

open Std (ExtTreeMap)

namespace XferReceiver

/-- The numbers `emit_nacks` considers: its `missing`. -/
def considered (r : XferReceiver) : List Nat := r.gaps.missing maxNackEntries

/-- Bookkeeping of a hole: how often asked for, and when last. -/
def nackEntry (r : XferReceiver) (now : Instant) (s : Nat) : Nat × Instant :=
  r.nacks[s]?.getD (freshNack now)

/-- The backoff of this hole has elapsed. -/
def due (r : XferReceiver) (now : Instant) (s : Nat) : Bool :=
  durationSince now (r.nackEntry now s).2 ≥ r.cfg.nackDelay (r.nackEntry now s).1

/-- Everything asked for in these events. -/
def asked (out : List RecvEvent) : List XferSeq :=
  out.flatMap fun
    | .sendNack missing => missing
    | _ => []

theorem asked_append (a b : List RecvEvent) : asked (a ++ b) = asked a ++ asked b :=
  List.flatMap_append

/-- Inside the loop the books agree with the receiver's on what is left. -/
theorem untouched {r : XferReceiver} {nacks : ExtTreeMap Nat (Nat × Instant)} {s : Nat}
    {l : List Nat} (hs : s ∉ l) (hsame : ∀ s' ∈ s :: l, nacks[s']? = r.nacks[s']?)
    (e : Nat × Instant) : ∀ s' ∈ l, (nacks.insert s e)[s']? = r.nacks[s']? := by
  intro s' hs'
  have hne : s ≠ s' := fun heq => hs (heq ▸ hs')
  rw [ExtTreeMap.getElem?_insert, if_neg (by simpa using hne)]
  exact hsame s' (List.mem_cons_of_mem _ hs')

theorem entry_eq {r : XferReceiver} {nacks : ExtTreeMap Nat (Nat × Instant)} {s : Nat}
    {l : List Nat} (hsame : ∀ s' ∈ s :: l, nacks[s']? = r.nacks[s']?) (now : Instant) :
    nacks[s]?.getD (freshNack now) = r.nackEntry now s := by
  rw [hsame s List.mem_cons_self]
  rfl

/-- The books after a round that reaches its end. -/
def bookedAt (r : XferReceiver) (now : Instant) (s : Nat) : Nat × Instant :=
  if r.due now s then ((r.nackEntry now s).1 + 1, now) else r.nackEntry now s

/-- A round over the holes `l` that reaches its end: no hole was reported
lost or without budget, those that are due are asked for, and the books say
so. -/
structure RoundDone (r : XferReceiver) (now : Instant) (l : List Nat)
    (nacks : ExtTreeMap Nat (Nat × Instant)) (ask : List XferSeq) (a : Asked) : Prop where
  room : ∀ s ∈ l, r.senderLostBelow < s ∧ (r.nackEntry now s).1 < r.cfg.maxNackAttempts
  ends : a.exhausted = false
  ask : a.ask = ask ++ (l.filter (r.due now)).map XferSeq.ofNat
  books : ∀ s, a.nacks[s]? = if s ∈ l then some (r.bookedAt now s) else nacks[s]?

/-- **One round**: the loop breaks off at a hole without budget or reported
lost, and otherwise reaches its end. -/
theorem nackLoop_cases (r : XferReceiver) (now : Instant) (l : List Nat)
    (nacks : ExtTreeMap Nat (Nat × Instant)) (ask : List XferSeq) (hnodup : l.Nodup)
    (hsame : ∀ s ∈ l, nacks[s]? = r.nacks[s]?) :
    (∃ s ∈ l, s ≤ r.senderLostBelow ∨ r.cfg.maxNackAttempts ≤ (r.nackEntry now s).1)
        ∧ (nackLoop r.cfg r.senderLostBelow now l nacks ask).exhausted = true
      ∨ RoundDone r now l nacks ask (nackLoop r.cfg r.senderLostBelow now l nacks ask) := by
  induction l generalizing nacks ask with
  | nil =>
    exact Or.inr ⟨fun _ hs => (by cases hs), rfl, by simp [nackLoop], fun s => by simp [nackLoop]⟩
  | cons k l ih =>
    obtain ⟨hk, hl⟩ := List.nodup_cons.mp hnodup
    simp only [nackLoop, entry_eq hsame now]
    by_cases hlost : k ≤ r.senderLostBelow
    · rw [if_pos hlost]
      exact Or.inl ⟨⟨k, List.mem_cons_self, Or.inl hlost⟩, rfl⟩
    by_cases hspent : (r.nackEntry now k).1 ≥ r.cfg.maxNackAttempts
    · rw [if_neg hlost, if_pos hspent]
      exact Or.inl ⟨⟨k, List.mem_cons_self, Or.inr hspent⟩, rfl⟩
    rw [if_neg hlost, if_neg hspent]
    -- the rest of the round, with what is entered and asked for `k`
    have hrest : ∀ {asks : List XferSeq},
        asks = ask ++ ([k].filter (r.due now)).map XferSeq.ofNat →
        (∃ s ∈ k :: l, s ≤ r.senderLostBelow ∨ r.cfg.maxNackAttempts ≤ (r.nackEntry now s).1)
            ∧ (nackLoop r.cfg r.senderLostBelow now l (nacks.insert k (r.bookedAt now k))
              asks).exhausted = true
          ∨ RoundDone r now (k :: l) nacks ask (nackLoop r.cfg r.senderLostBelow now l
            (nacks.insert k (r.bookedAt now k)) asks) := by
      intro asks hasks
      rcases ih (nacks.insert k (r.bookedAt now k)) asks hl (untouched hk hsame _) with
        ⟨⟨s, hs, hout⟩, hex⟩ | hdone
      · exact Or.inl ⟨⟨s, List.mem_cons_of_mem _ hs, hout⟩, hex⟩
      · refine Or.inr ⟨fun s hs => ?_, hdone.ends, ?_, fun s => ?_⟩
        · rcases List.mem_cons.mp hs with rfl | hs
          · exact ⟨not_le.mp hlost, not_le.mp hspent⟩
          · exact hdone.room s hs
        · rw [hdone.ask, hasks, List.append_assoc, ← List.map_append, ← List.filter_append]
          rfl
        · rw [hdone.books]
          by_cases heq : k = s
          · subst heq
            rw [if_neg hk, if_pos List.mem_cons_self, ExtTreeMap.getElem?_insert_self]
          · have hother : (nacks.insert k (r.bookedAt now k))[s]? = nacks[s]? := by
              rw [ExtTreeMap.getElem?_insert, if_neg (by simpa using heq)]
            rw [hother]
            simp [Ne.symm heq]
    by_cases hdue : r.due now k = true
    · have hbooked : r.bookedAt now k = ((r.nackEntry now k).1 + 1, now) := by
        rw [bookedAt, if_pos hdue]
      rw [if_pos (of_decide_eq_true hdue), ← hbooked]
      exact hrest (by simp [hdue])
    · have hbooked : r.bookedAt now k = r.nackEntry now k := by
        rw [bookedAt, if_neg hdue]
      rw [if_neg fun h => hdue (decide_eq_true h), ← hbooked]
      exact hrest (by simp [hdue])

/-- With budget left for every hole the round reaches its end. -/
theorem nackLoop_done (r : XferReceiver) (now : Instant) {l : List Nat} (hnodup : l.Nodup)
    (hlost : ∀ s ∈ l, r.senderLostBelow < s)
    (hbudget : ∀ s ∈ l, (r.nackEntry now s).1 < r.cfg.maxNackAttempts) :
    RoundDone r now l r.nacks [] (nackLoop r.cfg r.senderLostBelow now l r.nacks []) := by
  rcases nackLoop_cases r now l r.nacks [] hnodup fun _ _ => rfl with ⟨⟨s, hs, hout⟩, -⟩ | hdone
  · have := hlost s hs
    have := hbudget s hs
    omega
  · exact hdone

theorem nackLoop_done_of_ends {r : XferReceiver} {now : Instant} {l : List Nat} (hnodup : l.Nodup)
    (h : (nackLoop r.cfg r.senderLostBelow now l r.nacks []).exhausted = false) :
    RoundDone r now l r.nacks [] (nackLoop r.cfg r.senderLostBelow now l r.nacks []) := by
  rcases nackLoop_cases r now l r.nacks [] hnodup fun _ _ => rfl with ⟨-, hex⟩ | hdone
  · rw [h] at hex
    cases hex
  · exact hdone

/-- What a tick asks for, as long as no budget ran out and no timeout is
due: the considered holes whose backoff has elapsed. -/
theorem asked_tick {r : XferReceiver} {now : Instant} (hs : r.relState = .streaming)
    (hclosed : r.closed = false)
    (hidle : durationSince now r.lastPacketAt ≤ r.cfg.idleTimeout)
    (hstall : durationSince now r.lastRelProgressAt ≤ r.cfg.relStallTimeout)
    (hnodup : r.considered.Nodup) (hlost : ∀ s ∈ r.considered, r.senderLostBelow < s)
    (hbudget : ∀ s ∈ r.considered, (r.nackEntry now s).1 < r.cfg.maxNackAttempts) :
    asked (r.tick now).2 = (r.considered.filter (r.due now)).map XferSeq.ofNat := by
  obtain ⟨-, h1, h2, -⟩ := nackLoop_done r now hnodup hlost hbudget
  have hack : ∀ r' : XferReceiver, asked (r'.maybeAck now).2 = [] := by
    intro r'
    apply List.flatMap_eq_nil_iff.mpr
    intro e he
    rw [(maybeAck_events he).1]
  have hnacks : asked (r.emitNacks now).2
      = (r.considered.filter (r.due now)).map XferSeq.ofNat := by
    unfold considered at h1 h2
    simp only [emitNacks]
    by_cases hempty : (r.gaps.missing maxNackEntries).isEmpty = true
    · rw [if_pos hempty]
      have : r.considered = [] := List.isEmpty_iff.mp hempty
      rw [this]
      rfl
    · rw [if_neg hempty, h1]
      simp only [Bool.false_eq_true, if_false, h2, List.nil_append]
      split
      · rename_i hask
        show [] = (r.considered.filter (r.due now)).map XferSeq.ofNat
        exact (List.isEmpty_iff.mp hask).symm
      · simp [asked, considered]
  rw [tick_of_awake hclosed hidle, Machine.andThen_snd, asked_append, hack, List.append_nil,
    tickRel, if_pos hs, if_neg (not_lt.mpr hstall)]
  exact hnacks

/-! ## The tail of a transfer -/

/-- Every number up to `n` that has not arrived. -/
def absent (calls : List RecvCall) (n : Nat) : List Nat :=
  (List.range' 1 n).filter fun s => !(firstArrival calls s).isSome

/-- What ought to be asked for, once the end is known to be `f`. -/
def wanted (calls : List RecvCall) (r : XferReceiver) (f : XferSeq) : List Nat :=
  (absent calls (max f.toNat r.gaps.highest)).take maxNackEntries

/-- The end is known, no hole's budget is exhausted, no timeout is due. -/
structure TailReady (calls : List RecvCall) (r : XferReceiver) (f : XferSeq) (now : Instant) :
    Prop where
  streaming : r.relState = .streaming
  final : r.finalSeq = some f
  budget : ∀ s ∈ absent calls (max f.toNat r.gaps.highest),
    (r.nackEntry now s).1 < r.cfg.maxNackAttempts
  notStalled : durationSince now r.lastRelProgressAt ≤ r.cfg.relStallTimeout
  notIdle : durationSince now r.lastPacketAt ≤ r.cfg.idleTimeout

/-- The tick considers exactly the numbers wanted, and asks for those whose
backoff has elapsed. -/
structure TailRecovered (calls : List RecvCall) (r : XferReceiver) (f : XferSeq)
    (now : Instant) : Prop where
  considered : r.considered = wanted calls r f
  asked : asked (r.tick now).2 = ((wanted calls r f).filter (r.due now)).map XferSeq.ofNat

theorem mem_absent {calls : List RecvCall} {n s : Nat} :
    s ∈ absent calls n ↔ 1 ≤ s ∧ s ≤ n ∧ firstArrival calls s = none := by
  simp only [absent, List.mem_filter, List.mem_range'_1, Bool.not_eq_true',
    Option.isSome_eq_false_iff,
    Option.isNone_iff_eq_none]
  constructor
  · rintro ⟨⟨h1, h2⟩, h3⟩
    exact ⟨h1, by omega, h3⟩
  · rintro ⟨h1, h2, h3⟩
    exact ⟨⟨h1, by omega⟩, h3⟩

/-- Above the highest arrival everything is absent. -/
theorem absent_max {calls : List RecvCall} {h n : Nat}
    (hge : ∀ s, (firstArrival calls s).isSome → s ≤ h) :
    absent calls (max n h) = absent calls h ++ List.range' (h + 1) (max n h - h) := by
  have hsum : max n h = h + (max n h - h) := by omega
  have hone : 1 + h = h + 1 := by omega
  unfold absent
  conv_lhs => rw [hsum, ← List.range'_append_1, List.filter_append, hone]
  congr 1
  apply List.filter_eq_self.mpr
  intro s hs
  have h1 := (List.mem_range'_1.mp hs).1
  cases hf : (firstArrival calls s).isSome with
  | false => rfl
  | true =>
    have := hge s hf
    omega

theorem RecvInv.considered_eq {calls : List RecvCall} {r : XferReceiver} {evs : List RecvEvent}
    (h : RecvInv calls r evs) (hs : r.relState = .streaming) :
    r.considered = (absent calls r.gaps.highest).take maxNackEntries := by
  have hlive := h.live hs
  exact h.wf.missing_eq (h.highest_mem.imp_right (hlive.mem_seen _).mpr) _
    (fun s => (firstArrival calls s).isSome) fun s => (hlive.mem_seen s).symm

/-- **Tail recovery, exactly.** In every reachable state with the end known,
a tick considers the first missing numbers up to the end, or to the highest
arrival, and asks for those that are due, if and only if the end is not
above the highest arrival or a full request is missing below it. -/
theorem tail_recovery_iff (cfg : ReceiverConfig) (start : Instant) (calls : List RecvCall)
    (f : XferSeq) (now : Instant) (h : TailReady calls (run cfg start calls).1 f now) :
    TailRecovered calls (run cfg start calls).1 f now
      ↔ f.toNat ≤ (run cfg start calls).1.gaps.highest
        ∨ maxNackEntries ≤ (absent calls (run cfg start calls).1.gaps.highest).length := by
  have hinv := recvInv_run cfg start calls
  generalize (run cfg start calls).1 = r at h hinv
  have hcons := hinv.considered_eq h.streaming
  have hlive := hinv.live h.streaming
  have habs := absent_max (n := f.toNat) hinv.highest_ge
  have hmem : ∀ s ∈ r.considered, s ∈ absent calls (max f.toNat r.gaps.highest) := by
    intro s hs
    rw [hcons] at hs
    rw [habs]
    exact List.mem_append_left _ (List.mem_of_mem_take hs)
  have hask : asked (r.tick now).2 = (r.considered.filter (r.due now)).map XferSeq.ofNat := by
    refine asked_tick h.streaming hlive.not_closed h.notIdle h.notStalled ?_ ?_
      fun s hs => h.budget s (hmem s hs)
    · rw [hcons]
      exact (List.Nodup.filter _ List.nodup_range').sublist (List.take_sublist _ _)
    · intro s hs
      obtain ⟨h1, -, hnone⟩ := mem_absent.mp (hmem s hs)
      have hnot : s ∉ r.gaps.seen := by
        rw [hlive.mem_seen, hnone]
        simp
      have hgt : r.gaps.contiguous < s := by
        by_contra hle
        exact hnot (GapTracker.filled_seen _ s h1 (not_lt.mp hle))
      exact hlive.lost_le.trans_lt hgt
  -- the tail is what the considered numbers can lack
  have hiff : r.considered = wanted calls r f ↔ f.toNat ≤ r.gaps.highest
      ∨ maxNackEntries ≤ (absent calls r.gaps.highest).length := by
    rw [hcons, wanted, habs, List.take_append]
    constructor
    · intro heq
      by_contra hnot
      push Not at hnot
      have hlen := congrArg List.length heq
      simp only [List.length_append, List.length_take, List.length_range'] at hlen
      omega
    · intro hor
      have hnil : (List.range' (r.gaps.highest + 1) (max f.toNat r.gaps.highest
          - r.gaps.highest)).take (maxNackEntries - (absent calls r.gaps.highest).length) = [] := by
        rcases hor with hle | hle
        · have : max f.toNat r.gaps.highest - r.gaps.highest = 0 := by omega
          simp [this]
        · have : maxNackEntries - (absent calls r.gaps.highest).length = 0 := by omega
          rw [this]
          rfl
      rw [hnil, List.append_nil]
  constructor
  · intro ht
    exact hiff.mp ht.considered
  · intro hor
    have heq := hiff.mpr hor
    exact ⟨heq, by rw [hask, heq]⟩

/-- One frame arrives, and the end is announced two frames further. -/
def lostTailCalls : List RecvCall :=
  [.handle (.ofNat 1) (.data ⟨0⟩ [7]) 0, .handle (.ofNat 1) (.end (.ofNat 3)) 1]

/-- The lost tail is not asked for: frames 2 and 3 are missing, and the
tick considers nothing. -/
theorem lost_tail_not_recovered :
    TailReady lostTailCalls (run .audioEngine 0 lostTailCalls).1 (.ofNat 3) 50000000
      ∧ ¬ TailRecovered lostTailCalls (run .audioEngine 0 lostTailCalls).1 (.ofNat 3) 50000000 :=
  ⟨⟨by decide +kernel, by decide +kernel, by decide +kernel, by decide +kernel,
    by decide +kernel⟩, fun h => absurd h.considered (by decide +kernel)⟩

/-- Frame 2 of three is lost. -/
def lostMiddleCalls : List RecvCall :=
  [.handle (.ofNat 1) (.data ⟨0⟩ [7]) 0, .handle (.ofNat 3) (.data ⟨40⟩ [7]) 1,
    .handle (.ofNat 1) (.end (.ofNat 3)) 2]

theorem tail_recovery_iff_lost_middle :
    TailRecovered lostMiddleCalls (run .audioEngine 0 lostMiddleCalls).1 (.ofNat 3) 50000000 :=
  (tail_recovery_iff .audioEngine 0 lostMiddleCalls (.ofNat 3) 50000000
    ⟨by decide +kernel, by decide +kernel, by decide +kernel, by decide +kernel,
      by decide +kernel⟩).mpr (Or.inl (by decide +kernel))

end XferReceiver

end Protofish4
