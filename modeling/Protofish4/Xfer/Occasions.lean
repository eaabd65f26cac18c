import Protofish4.Xfer.Nacks
import Protofish4.Xfer.Terminal

/-!
# When a receiver speaks

A receiver that is only ticked acknowledges once the interval has elapsed
and asks once some hole's backoff has, unless a timeout comes first.
`AckDue` and `NackDue` are these two occasions, as conditions on the state
the ticks start from; a receiver with neither ahead of it stays mute.
-/

namespace Protofish4

open Std (ExtTreeMap)

namespace XferReceiver

/-- No idle timeout at `now`, and the acknowledgement interval is over. -/
structure AckDue (r : XferReceiver) (now : Instant) : Prop where
  notIdle : durationSince now r.lastPacketAt ≤ r.cfg.idleTimeout
  elapsed : r.cfg.ackInterval ≤ durationSince now r.lastAckAt

/-- The backoff of this hole is over at `now`, when ticks begin at `clock`:
the first of them enters a hole that is not in the books. -/
def DueFrom (r : XferReceiver) (clock now : Instant) (s : Nat) : Prop :=
  r.cfg.nackDelay (r.nackEntry clock s).1 ≤ durationSince now (r.nackEntry clock s).2

/-- No timeout at `now`, budget for every hole considered, and the backoff
of one of them is over. -/
structure NackDue (r : XferReceiver) (clock now : Instant) : Prop where
  later : clock ≤ now
  notIdle : durationSince now r.lastPacketAt ≤ r.cfg.idleTimeout
  notStalled : durationSince now r.lastRelProgressAt ≤ r.cfg.relStallTimeout
  budget : ∀ s ∈ r.considered, (r.nackEntry clock s).1 < r.cfg.maxNackAttempts
  elapsed : ∃ s ∈ r.considered, r.DueFrom clock now s

variable {r : XferReceiver} {clock now : Instant}

theorem due_iff {s : Nat} : r.due now s = true ↔ r.DueFrom now now s := by
  simp only [due, DueFrom, ge_iff_le, decide_eq_true_eq]

theorem nackEntry_attempts (r : XferReceiver) (clock now : Instant) (s : Nat) :
    (r.nackEntry clock s).1 = (r.nackEntry now s).1 := by
  unfold nackEntry
  cases r.nacks[s]? <;> rfl

/-! ## What it says -/

theorem step_bufferedMs {c : RecvCall} (hc : ∀ ms, c ≠ .setBufferedMs ms) :
    (r.step c).1.bufferedMs = r.bufferedMs := by
  have htold : (r.told c).bufferedMs = r.bufferedMs := by
    cases c with
    | handle seq body now => cases body <;> rfl
    | tick now => rfl
    | setBufferedMs ms => exact absurd rfl (hc ms)
  exact (step_keeps r c).bufferedMs.trans htold

/-- An acknowledgement reports the buffer as it was. -/
theorem sendAck_bufferedMs {c : RecvCall} {contiguous highest : XferSeq} {bufferedMs : UInt16}
    (h : .sendAck contiguous highest bufferedMs ∈ (r.step c).2) :
    bufferedMs = UInt16.ofNat (min r.bufferedMs 65535) := by
  have hack : ∀ {r' : XferReceiver} {now : Instant},
      .sendAck contiguous highest bufferedMs ∈ (r'.maybeAck now).2 →
      bufferedMs = UInt16.ofNat (min (r'.maybeAck now).1.bufferedMs 65535) := by
    intro r' now h
    have he := (maybeAck_events h).1
    simp only [RecvEvent.sendAck.injEq] at he
    rw [maybeAck_state]
    exact he.2.2
  cases c with
  | setBufferedMs ms => cases h
  | handle seq body now =>
    rw [← @step_bufferedMs r (.handle seq body now) fun ms => by simp]
    rcases Machine.mem_andThen.mp h with h | h
    · rcases onBody_events h with ⟨_, _, _, he⟩ | ⟨_, _, _, he⟩ | ⟨_, _, he, _⟩ | ⟨_, he⟩ | ⟨_, he⟩
        | he | he <;> cases he
    · exact hack h
  | tick now =>
    rw [← @step_bufferedMs r (.tick now) fun ms => by simp]
    obtain ⟨hc, ⟨-, h⟩ | ⟨hi, h | h⟩⟩ := tick_events h
    · rcases closeIdle_events h with ⟨he, _⟩ | he <;> cases he
    · rcases (tickRel_events h).2 with ⟨he, _⟩ | he | ⟨_, he, _⟩ <;> cases he
    · show _ = UInt16.ofNat (min (r.tick now).1.bufferedMs 65535)
      rw [tick_of_awake hc hi]
      exact hack h

/-- A tick on which an acknowledgement is due sends one. -/
theorem tick_acks (hclosed : r.closed = false) (h : r.AckDue now) (hhigh : r.gaps.highest ≠ 0) :
    ∃ contiguous highest bufferedMs, .sendAck contiguous highest bufferedMs ∈ (r.tick now).2 := by
  have hkeeps := tickRel_keeps r now
  have hack := @maybeAck_due (r.tickRel now).1 now ((tickRel_flags r now).2.trans hclosed)
    (by rw [hkeeps.cfg, hkeeps.lastAckAt]; exact h.elapsed) (by rw [hkeeps.highest]; exact hhigh)
  rw [tick_of_awake hclosed h.notIdle]
  exact ⟨_, _, _, Machine.mem_andThen.mpr (Or.inr (by rw [hack]; exact List.mem_singleton_self _))⟩

/-- Only the idle timeout closes on a tick. -/
theorem tick_closed (hidle : durationSince now r.lastPacketAt ≤ r.cfg.idleTimeout) :
    (r.tick now).1.closed = r.closed := by
  unfold tick
  split
  · rfl
  · rw [if_neg (not_lt.mpr hidle), Machine.andThen_fst, maybeAck_state]
    exact (tickRel_flags r now).2

/-- Without an announced end, a data packet closes nothing. -/
theorem onData_closed (hfinal : r.finalSeq = none) (frame : Frame) :
    (r.onData frame now).1.closed = r.closed := by
  have hfinish : ∀ r' : XferReceiver, r'.finalSeq = none → r'.checkFinish now = (r', []) := by
    intro r' h
    unfold checkFinish
    rw [h]
  have hrel : ∀ (r' : XferReceiver) (o : RelOutcome), (r'.finishRel o).1.closed = r'.closed := by
    intro r' o
    unfold finishRel
    split <;> rfl
  unfold onData
  rw [Machine.andThen_fst]
  have hsame : (r.noteArrival frame).1.finalSeq = none
      ∧ (r.noteArrival frame).1.closed = r.closed :=
    ⟨hfinal, rfl⟩
  generalize (r.noteArrival frame).1 = r' at hsame
  rw [← hsame.2]
  split
  · rfl
  · split
    · rfl
    · unfold storeFrame
      split
      · exact hrel r' _
      · split
        · exact hrel (r'.hold frame) _
        · rw [Machine.andThen_fst, hfinish, releaseContiguous_frame]
          · rfl
          · rw [(releaseContiguous_keeps _ now).finalSeq]
            exact hsame.1

/-- A data packet that arrives when an acknowledgement is due makes the
receiver send one, even past the idle timeout. -/
theorem handle_acks {seq : XferSeq} {ts : TimestampMs} {payload : Bytes}
    (hclosed : r.closed = false)
    (hfinal : r.finalSeq = none) (h : r.cfg.ackInterval ≤ durationSince now r.lastAckAt)
    (hhigh : (r.handle seq (.data ts payload) now).1.gaps.highest ≠ 0) :
    ∃ contiguous highest bufferedMs, .sendAck contiguous highest bufferedMs
      ∈ (r.handle seq (.data ts payload) now).2 := by
  have hkeeps := onData_keeps (r.heard now) now ⟨seq, ts, payload⟩
  have hbody : (r.heard now).onBody seq (.data ts payload) now
      = (r.heard now).onData ⟨seq, ts, payload⟩ now := rfl
  have hopen := (@onData_closed (r.heard now) now hfinal ⟨seq, ts, payload⟩).trans hclosed
  unfold handle at hhigh ⊢
  rw [Machine.andThen_fst, maybeAck_state, hbody] at hhigh
  have hack := @maybeAck_due ((r.heard now).onData ⟨seq, ts, payload⟩ now).1 now hopen
    (by rw [hkeeps.cfg, hkeeps.lastAckAt]; exact h) hhigh
  exact ⟨_, _, _, Machine.mem_andThen.mpr (Or.inr (by
    rw [hbody, hack]
    exact List.mem_singleton_self _))⟩

/-- A tick on which some backoff is over asks for that hole. -/
theorem tick_asks (hs : r.relState = .streaming) (hclosed : r.closed = false)
    (hnodup : r.considered.Nodup) (hlost : ∀ s ∈ r.considered, r.senderLostBelow < s)
    (hidle : durationSince now r.lastPacketAt ≤ r.cfg.idleTimeout)
    (hstall : durationSince now r.lastRelProgressAt ≤ r.cfg.relStallTimeout)
    (hbudget : ∀ s ∈ r.considered, (r.nackEntry now s).1 < r.cfg.maxNackAttempts)
    {s : Nat} (hmem : s ∈ r.considered) (hdue : r.DueFrom now now s) :
    ∃ missing, .sendNack missing ∈ (r.tick now).2 ∧ XferSeq.ofNat s ∈ missing := by
  have hasked := asked_tick hs hclosed hidle hstall hnodup hlost hbudget
  have hin : XferSeq.ofNat s ∈ asked (r.tick now).2 := by
    rw [hasked]
    exact List.mem_map_of_mem (List.mem_filter.mpr ⟨hmem, due_iff.mpr hdue⟩)
  obtain ⟨e, he, hmem⟩ := List.mem_flatMap.mp hin
  cases e with
  | sendNack missing => exact ⟨missing, he, hmem⟩
  | unreliable | reliable | sendAck | sendEndAck | relFinished | closed => cases hmem

theorem mem_nackLoop_ask (cfg : ReceiverConfig) (senderLostBelow : Nat) (now : Instant)
    (l : List Nat) (nacks : ExtTreeMap Nat (Nat × Instant)) (ask : List XferSeq) {q : XferSeq}
    (h : q ∈ (nackLoop cfg senderLostBelow now l nacks ask).ask) :
    q ∈ ask ∨ ∃ s ∈ l, q = XferSeq.ofNat s := by
  induction l generalizing nacks ask with
  | nil => exact Or.inl h
  | cons s l ih =>
    have hlift : (q ∈ ask ∨ ∃ s' ∈ l, q = XferSeq.ofNat s') →
        q ∈ ask ∨ ∃ s' ∈ s :: l, q = XferSeq.ofNat s' := by
      intro h
      rcases h with h | ⟨s', hs', heq⟩
      · exact Or.inl h
      · exact Or.inr ⟨s', List.mem_cons_of_mem _ hs', heq⟩
    simp only [nackLoop] at h
    split at h
    · exact Or.inl h
    · split at h
      · exact Or.inl h
      · split at h
        · rcases ih _ _ h with h | ⟨s', hs', heq⟩
          · rcases List.mem_append.mp h with h | h
            · exact Or.inl h
            · exact Or.inr ⟨s, List.mem_cons_self, List.mem_singleton.mp h⟩
          · exact Or.inr ⟨s', List.mem_cons_of_mem _ hs', heq⟩
        · exact hlift (ih _ _ h)

/-- Nothing is asked for above the highest arrival. -/
theorem sendNack_le {calls : List RecvCall} {evs : List RecvEvent} (h : RecvInv calls r evs)
    {c : RecvCall} {missing : List XferSeq} (hm : .sendNack missing ∈ (r.step c).2) :
    ∀ q ∈ missing, q.toNat ≤ r.gaps.highest := by
  obtain ⟨hs, now, -, rfl⟩ := sendNack_spec hm
  intro q hq
  rcases mem_nackLoop_ask _ _ _ _ _ _ hq with hq | ⟨s, hs', rfl⟩
  · cases hq
  · have hcons : s ∈ r.considered := hs'
    rw [h.considered_eq hs] at hcons
    exact (XferSeq.toNat_ofNat_le s).trans (mem_absent.mp (List.mem_of_mem_take hcons)).2.1

/-! ## What it leaves unsaid -/

/-- A tick on which no backoff and no timeout is over enters the holes. -/
theorem tickRel_waits (hs : r.relState = .streaming)
    (hstall : durationSince now r.lastRelProgressAt ≤ r.cfg.relStallTimeout)
    (hnodup : r.considered.Nodup)
    (hex : (nackLoop r.cfg r.senderLostBelow now r.considered r.nacks []).exhausted = false)
    (hdue : ∀ s ∈ r.considered, r.due now s = false) :
    ∃ nacks, r.tickRel now = ({ r with nacks := nacks }, [])
      ∧ ∀ s ∈ r.considered, nacks[s]? = some (r.nackEntry now s) := by
  have hdone := nackLoop_done_of_ends hnodup hex
  have hask : (nackLoop r.cfg r.senderLostBelow now r.considered r.nacks []).ask = [] := by
    rw [hdone.ask, List.filter_eq_nil_iff.mpr fun s hs => by simp [hdue s hs]]
    rfl
  have hnacks : ∀ s ∈ r.considered,
      (nackLoop r.cfg r.senderLostBelow now r.considered r.nacks []).nacks[s]?
        = some (r.nackEntry now s) := by
    intro s hs
    rw [hdone.books, if_pos hs, bookedAt, if_neg (by simp [hdue s hs])]
  have hcons : r.gaps.missing maxNackEntries = r.considered := rfl
  unfold tickRel
  rw [if_pos hs, if_neg (not_lt.mpr hstall)]
  simp only [emitNacks, hcons]
  split
  · rename_i hempty
    refine ⟨r.nacks, rfl, fun s hs => ?_⟩
    rw [List.isEmpty_iff.mp hempty] at hs
    cases hs
  · rw [if_neg (by simp [hex]), hask, if_pos List.isEmpty_nil]
    exact ⟨_, rfl, hnacks⟩

/-- Where nothing is due yet, a first tick enters the holes, and a later
one asks for those whose backoff is over by then. -/
theorem tick_asks_later (hs : r.relState = .streaming) (hclosed : r.closed = false)
    (hnodup : r.considered.Nodup) (hlost : ∀ s ∈ r.considered, r.senderLostBelow < s)
    (hnack : r.NackDue clock now) (hwait : ∀ s ∈ r.considered, r.due clock s = false) {s : Nat}
    (hmem : s ∈ r.considered) (hdue : r.DueFrom clock now s) :
    (∃ nacks acked, (r.tick clock).1 = { r with nacks := nacks, lastAckAt := acked })
      ∧ ∃ missing, .sendNack missing ∈ ((r.tick clock).1.tick now).2
        ∧ XferSeq.ofNat s ∈ missing := by
  have hidle := (durationSince_mono hnack.later).trans hnack.notIdle
  have hstall := (durationSince_mono hnack.later).trans hnack.notStalled
  have hex := (nackLoop_done r clock hnodup hlost hnack.budget).ends
  obtain ⟨nacks, htick, hnacks⟩ := tickRel_waits hs hstall hnodup hex hwait
  have hstate : (r.tick clock).1 = { r with
      nacks := nacks, lastAckAt := (r.tick clock).1.lastAckAt } := by
    rw [tick_of_awake hclosed hidle, Machine.andThen_fst, htick, maybeAck_state]
  refine ⟨⟨_, _, hstate⟩, ?_⟩
  generalize (r.tick clock).1.lastAckAt = acked at hstate
  rw [hstate]
  have hentry : ∀ k ∈ r.considered,
      ({ r with nacks := nacks, lastAckAt := acked } : XferReceiver).nackEntry now k
        = r.nackEntry clock k := by
    intro k hk
    show nacks[k]?.getD _ = _
    rw [hnacks k hk]
    rfl
  refine @tick_asks { r with nacks := nacks, lastAckAt := acked } now hs hclosed hnodup hlost
    hnack.notIdle hnack.notStalled (fun k hk => ?_) s hmem ?_
  · rw [hentry k hk]
    exact hnack.budget k hk
  · unfold DueFrom
    rw [hentry s hmem]
    exact hdue

/-- The reliable side after ticks from `clock` on: still waiting, and at
most its holes were entered. -/
structure Waits (clock : Instant) (r r' : XferReceiver) : Prop where
  streaming : r'.relState = .streaming
  lastRelProgressAt : r'.lastRelProgressAt = r.lastRelProgressAt
  gaps : r'.gaps = r.gaps
  nacks : ∀ s ∈ r.considered, r'.nacks[s]? = r.nacks[s]?
    ∨ r.nacks[s]? = none ∧ ∃ entered, clock ≤ entered ∧ r'.nacks[s]? = some (freshNack entered)

/-- A receiver that has said nothing since `clock`: its timers are those of
`r`, and its reliable side waits or has ended. -/
structure Mute (clock : Instant) (r r' : XferReceiver) : Prop where
  cfg : r'.cfg = r.cfg
  lastPacketAt : r'.lastPacketAt = r.lastPacketAt
  lastAckAt : r'.lastAckAt = r.lastAckAt
  rel : r'.relState = .finished ∨ Waits clock r r'

theorem Waits.refl (hs : r.relState = .streaming) : Waits clock r r :=
  ⟨hs, rfl, rfl, fun _ _ => Or.inl rfl⟩

namespace Waits

variable {r' : XferReceiver} (h : Waits clock r r')

include h

theorem attempts (now : Instant) {s : Nat} (hs : s ∈ r.considered) :
    (r.nackEntry clock s).1 = (r'.nackEntry now s).1 := by
  rcases h.nacks s hs with heq | ⟨hnone, entered, -, heq⟩
  · rw [nackEntry_attempts r clock now, nackEntry, nackEntry, heq]
  · rw [nackEntry, nackEntry, hnone, heq]
    rfl

/-- What is due now was due from the start. -/
theorem dueFrom (hcfg : r'.cfg = r.cfg) (hnow : clock ≤ now) {s : Nat} (hs : s ∈ r.considered)
    (hdue : r'.DueFrom now now s) : r.DueFrom clock now s := by
  have hlater : ∀ entered, clock ≤ entered →
      durationSince now (freshNack entered).2 ≤ durationSince now (freshNack clock).2 := by
    intro entered hle
    exact Int.toNat_le_toNat (Int.sub_le_sub_left (Int.sub_le_sub_right hle _) now)
  unfold DueFrom at hdue ⊢
  rw [h.attempts now hs, ← hcfg]
  refine hdue.trans ?_
  rcases h.nacks s hs with heq | ⟨hnone, entered, hle, heq⟩
  · unfold nackEntry
    rw [heq]
    cases r.nacks[s]? with
    | none => exact hlater now hnow
    | some e => exact le_rfl
  · unfold nackEntry
    rw [hnone, heq]
    exact hlater entered hle

/-- Entering the holes at `now` is waiting. -/
theorem enter (hnow : clock ≤ now) {nacks : ExtTreeMap Nat (Nat × Instant)}
    (hn : ∀ s ∈ r.considered, nacks[s]? = some (r'.nackEntry now s)) :
    Waits clock r { r' with nacks := nacks } := by
  refine ⟨h.streaming, h.lastRelProgressAt, h.gaps, fun s hs => ?_⟩
  show nacks[s]? = _ ∨ _ ∧ ∃ entered, _ ∧ nacks[s]? = _
  rw [hn s hs, nackEntry]
  rcases h.nacks s hs with heq | ⟨hnone, entered, hle, heq⟩
  · rw [heq]
    cases he : r.nacks[s]? with
    | none => exact Or.inr ⟨rfl, now, hnow, rfl⟩
    | some e => exact Or.inl rfl
  · exact Or.inr ⟨hnone, entered, hle, by rw [heq]; rfl⟩

end Waits

/-- **Mute step**: on a tick with no occasion to speak, a mute receiver
stays mute, or closes. -/
theorem tick_mute {r' : XferReceiver} (h : r'.closed = true ∨ Mute clock r r') (hnow : clock ≤ now)
    (hnodup : r.considered.Nodup) (hack : ¬ r.AckDue now) (hnack : ¬ r.NackDue clock now) :
    ((r'.tick now).1.closed = true ∨ Mute clock r (r'.tick now).1)
      ∧ ∀ e ∈ (r'.tick now).2, (∃ o, e = .relFinished o) ∨ e = .closed := by
  unfold tick
  by_cases hclosed : r'.closed = true
  · rw [if_pos hclosed]
    exact ⟨Or.inl hclosed, fun e he => by cases he⟩
  · have hm := h.resolve_left hclosed
    rw [if_neg hclosed]
    split
    · refine ⟨Or.inl rfl, fun e he => ?_⟩
      rcases closeIdle_events he with ⟨he, -⟩ | he
      · exact Or.inl ⟨_, he⟩
      · exact Or.inr he
    · rename_i hidle
      rw [hm.cfg, hm.lastPacketAt, not_lt] at hidle
      -- no acknowledgement
      have hlate : ¬ r.cfg.ackInterval ≤ durationSince now r.lastAckAt :=
        fun hle => hack ⟨hidle, hle⟩
      have hquiet : (r'.tickRel now).1.maybeAck now = ((r'.tickRel now).1, []) := by
        have hkeeps := tickRel_keeps r' now
        unfold maybeAck
        rw [hkeeps.lastAckAt, hkeeps.cfg, hm.lastAckAt, hm.cfg, if_pos (not_le.mp hlate), ite_self]
      have hfinish : ∀ (q : XferReceiver) (o : RelOutcome), Keeps r' q →
          Mute clock r (q.finishRel o).1
            ∧ ∀ e ∈ (q.finishRel o).2, (∃ o, e = .relFinished o) ∨ e = .closed := by
        intro q o hq
        have hk := hq.trans (finishRel_keeps q o)
        exact ⟨⟨hk.cfg.trans hm.cfg, hk.lastPacketAt.trans hm.lastPacketAt,
          hk.lastAckAt.trans hm.lastAckAt, Or.inl (finishRel_finished q o)⟩,
          fun e he => Or.inl ⟨o, (finishRel_events he).2⟩⟩
      suffices hrel : Mute clock r (r'.tickRel now).1
          ∧ ∀ e ∈ (r'.tickRel now).2, (∃ o, e = .relFinished o) ∨ e = .closed by
        rw [Machine.andThen_fst, Machine.andThen_snd, hquiet, List.append_nil]
        exact ⟨Or.inr hrel.1, hrel.2⟩
      have hsilent : Mute clock r r' ∧ ∀ e ∈ ([] : List RecvEvent),
          (∃ o, e = .relFinished o) ∨ e = .closed := ⟨hm, fun e he => by cases he⟩
      by_cases hs : r'.relState = .streaming
      · have hw : Waits clock r r' := hm.rel.resolve_left (by rw [hs]; simp)
        by_cases hstall : durationSince now r'.lastRelProgressAt > r'.cfg.relStallTimeout
        · rw [tickRel, if_pos hs, if_pos hstall]
          exact hfinish r' _ (Keeps.refl r')
        · have hcons : r'.considered = r.considered := by
            unfold considered
            rw [hw.gaps]
          rw [not_lt] at hstall
          cases hex :
              (nackLoop r'.cfg r'.senderLostBelow now r'.considered r'.nacks []).exhausted with
          | true =>
            -- a budget is exhausted: what was collected is not sent
            have hcons' : r'.gaps.missing maxNackEntries = r'.considered := rfl
            rw [tickRel, if_pos hs, if_neg (not_lt.mpr hstall)]
            simp only [emitNacks, hcons']
            split
            · exact hsilent
            · exact hfinish _ _ ⟨rfl, rfl, rfl, rfl, rfl, rfl, id, Or.inl ⟨rfl, rfl⟩⟩
          | false =>
            have hbudget := (nackLoop_done_of_ends (hcons ▸ hnodup) hex).room
            have hdue : ∀ s ∈ r'.considered, r'.due now s = false := by
              intro s hs
              rw [hcons] at hs
              by_contra hne
              refine hnack ⟨hnow, hidle, ?_, fun s' hs' => ?_, s, hs,
                hw.dueFrom hm.cfg hnow hs (due_iff.mp (by simpa using hne))⟩
              · rw [← hm.cfg, ← hw.lastRelProgressAt]
                exact hstall
              · rw [hw.attempts now hs', ← hm.cfg]
                exact (hbudget s' (hcons ▸ hs')).2
            obtain ⟨nacks, heq, hnacks⟩ := tickRel_waits hs hstall (hcons ▸ hnodup) hex hdue
            rw [heq]
            exact ⟨⟨hm.cfg, hm.lastPacketAt, hm.lastAckAt,
              Or.inr (hw.enter hnow fun s hs => hnacks s (hcons ▸ hs))⟩, hsilent.2⟩
      · rw [tickRel, if_neg hs]
        exact hsilent

end XferReceiver

end Protofish4
