import Protofish4.Xfer.ReceiverRun
import Protofish4.Xfer.ReceiverEvents

/-!
# The stall timer

`last_rel_progress_at` is the time of the last release, or of the start;
it says nothing about whether a frame is missing. So a tick may give the
reliable stream up as stalled while every frame sent has been released:
exactly when it comes more than the timeout after the last release.
-/

namespace Protofish4

/-- The clock value a call brings. -/
def RecvCall.time : RecvCall → Option Instant
  | .handle _ _ now => some now
  | .tick now => some now
  | .setBufferedMs _ => none

namespace XferReceiver

/-- A frame is known to be missing: below an arrival, or below the end. -/
def KnownMissing (r : XferReceiver) : Prop :=
  r.gaps.contiguous < r.gaps.highest
    ∨ ∃ f, r.finalSeq = some f ∧ r.gaps.contiguous < f.toNat

instance (r : XferReceiver) : Decidable r.KnownMissing :=
  inferInstanceAs (Decidable (_ ∨ ∃ f ∈ r.finalSeq, r.gaps.contiguous < f.toNat))

/-! ## When the timer is touched -/

/-- The progress time moves to `now` exactly if something is released. -/
def Progress (now : Instant) (r : XferReceiver) (p : XferReceiver × List RecvEvent) : Prop :=
  p.1.lastRelProgressAt = if (reliables p.2).isEmpty then r.lastRelProgressAt else now

namespace Progress

variable {now : Instant} {r : XferReceiver}

theorem of_silent {p : XferReceiver × List RecvEvent}
    (h : p.1.lastRelProgressAt = r.lastRelProgressAt) (hsil : reliables p.2 = []) :
    Progress now r p := by
  unfold Progress
  rw [hsil]
  exact h

theorem nil (r : XferReceiver) : Progress now r (r, []) := of_silent rfl rfl

theorem andThen {p : XferReceiver × List RecvEvent}
    {f : XferReceiver → XferReceiver × List RecvEvent} (hp : Progress now r p)
    (hf : Progress now p.1 (f p.1)) : Progress now r (Machine.andThen p f) := by
  unfold Progress at *
  rw [Machine.andThen_fst, Machine.andThen_snd, hf, hp, reliables_append]
  cases reliables p.2 <;> cases reliables (f p.1).2 <;> rfl

/-- Only the progress time at the start matters. -/
theorem rebase (r' : XferReceiver) {p : XferReceiver × List RecvEvent} (h : Progress now r' p)
    (hr : r'.lastRelProgressAt = r.lastRelProgressAt) : Progress now r p := by
  unfold Progress at *
  rw [h, hr]

end Progress

variable (r : XferReceiver) (now : Instant)

theorem finishRel_progress (o : RelOutcome) : Progress now r (r.finishRel o) := by
  unfold finishRel
  split
  · exact Progress.nil r
  · exact Progress.of_silent rfl rfl

theorem releaseContiguous_progress : Progress now r (r.releaseContiguous now) := by
  have hall : ∀ fuel (r : XferReceiver),
      ((reliables (releaseLoop fuel r).2).isEmpty ↔ (releaseLoop fuel r).2.isEmpty) := by
    intro fuel r
    cases hl : (releaseLoop fuel r).2 with
    | nil => rfl
    | cons e l =>
      obtain ⟨frame, rfl⟩ := releaseLoop_events (e := e) (by rw [hl]; exact List.mem_cons_self)
      simp [reliables]
  unfold Progress
  simp only [releaseContiguous]
  by_cases h : (releaseLoop (r.gaps.contiguous - r.relReleased) r).2.isEmpty = true
  · rw [if_pos h, if_pos ((hall _ r).mpr h), releaseLoop_frame]
  · rw [if_neg h, if_neg fun h' => h ((hall _ r).mp h')]

theorem completeRel_progress (f : XferSeq) : Progress now r (r.completeRel f now) := by
  unfold completeRel
  split
  · exact (releaseContiguous_progress r now).andThen (finishRel_progress _ now _)
  · exact Progress.nil r

theorem ackEnd_lastRelProgressAt (f : XferSeq) :
    (r.ackEnd f).1.lastRelProgressAt = r.lastRelProgressAt := by
  unfold ackEnd
  rw [Machine.andThen_fst]
  split <;> split <;> rfl

theorem checkFinish_progress : Progress now r (r.checkFinish now) := by
  unfold checkFinish
  split
  · exact Progress.nil r
  · exact (completeRel_progress r now _).andThen
      (Progress.of_silent (ackEnd_lastRelProgressAt _ _) (ackEnd_silent _).reliables)

theorem storeFrame_progress (frame : Frame) : Progress now r (r.storeFrame frame now) := by
  unfold storeFrame
  split
  · exact finishRel_progress r now _
  · refine Progress.rebase (r.hold frame) ?_ rfl
    split
    · exact finishRel_progress _ now _
    · exact (releaseContiguous_progress _ now).andThen (checkFinish_progress _ now)

theorem onData_progress (frame : Frame) : Progress now r (r.onData frame now) := by
  have hnote : Progress now r (r.noteArrival frame) :=
    Progress.of_silent rfl (noteArrival_silent frame).reliables
  refine hnote.andThen ?_
  generalize (r.noteArrival frame).1 = r'
  split
  · exact Progress.nil r'
  · split
    · exact Progress.nil r'
    · exact storeFrame_progress r' now frame

theorem noteLost_progress (l : XferSeq) : Progress now r (r.noteLost l) := by
  simp only [noteLost]
  split
  · split
    · exact (finishRel_progress { r with senderLostBelow := l.toNat } now _).rebase _ rfl
    · exact Progress.of_silent rfl rfl
  · exact Progress.nil r

theorem handle_progress (seq : XferSeq) (body : Body) :
    Progress now r (r.handle seq body now) := by
  have hbody : Progress now (r.heard now) ((r.heard now).onBody seq body now) := by
    cases body with
    | data ts payload => exact onData_progress _ now ⟨seq, ts, payload⟩
    | «end» f => exact (checkFinish_progress ((r.heard now).declareEnd f) now).rebase _ rfl
    | keepalive l => exact (noteLost_progress _ now l).andThen (checkFinish_progress _ now)
    | ack | nack | endAck => exact Progress.nil _
  refine (hbody.rebase (r.heard now) rfl).andThen
    (Progress.of_silent (by rw [maybeAck_state]) (maybeAck_silent now).reliables)

theorem tick_progress : Progress now r (r.tick now) := by
  have hrel : (r.tickRel now).1.lastRelProgressAt = r.lastRelProgressAt := by
    unfold tickRel
    split
    · split
      · exact (finishRel_progress r now _).trans (by simp [finishRel, *, reliables])
      · simp only [emitNacks]
        split
        · rfl
        · generalize nackLoop r.cfg r.senderLostBelow now (r.gaps.missing maxNackEntries) r.nacks []
            = asked
          split
          · unfold finishRel
            split <;> rfl
          · rfl
    · rfl
  have hnone : reliables (r.tickRel now).2 = [] := by
    apply List.filterMap_eq_nil_iff.mpr
    intro e he
    rcases (tickRel_events he).2 with ⟨rfl, -⟩ | rfl | ⟨_, rfl, -⟩ <;> rfl
  unfold tick
  split
  · exact Progress.nil r
  · split
    · refine Progress.of_silent ?_ ?_
      · unfold closeIdle finishRel
        rw [Machine.andThen_fst]
        split
        · split <;> rfl
        · rfl
      · apply List.filterMap_eq_nil_iff.mpr
        intro e he
        rcases closeIdle_events he with ⟨rfl, -⟩ | rfl <;> rfl
    · exact (Progress.of_silent hrel hnone).andThen
        (Progress.of_silent (by rw [maybeAck_state]) (maybeAck_silent now).reliables)

/-- The time of the last call that released a frame, from a state and a
time on. -/
def lastReleaseFrom (r : XferReceiver) (t : Instant) : List RecvCall → Instant
  | [] => t
  | c :: cs =>
    lastReleaseFrom (r.step c).1
      (if (reliables (r.step c).2).isEmpty then t else c.time.getD t) cs

/-- When the run last released a frame; its start, if it never did. -/
def lastRelease (cfg : ReceiverConfig) (start : Instant) (calls : List RecvCall) : Instant :=
  lastReleaseFrom (new cfg start) start calls

theorem step_progress (c : RecvCall) : (r.step c).1.lastRelProgressAt
    = if (reliables (r.step c).2).isEmpty then r.lastRelProgressAt
      else c.time.getD r.lastRelProgressAt := by
  cases c with
  | handle seq body now => exact handle_progress r now seq body
  | tick now => exact tick_progress r now
  | setBufferedMs ms => rfl

/-- **The timer in every run** is the time of the last release. -/
theorem lastRelProgressAt_run (cfg : ReceiverConfig) (start : Instant) (calls : List RecvCall) :
    (run cfg start calls).1.lastRelProgressAt = lastRelease cfg start calls := by
  have hfrom : ∀ (calls : List RecvCall) (r : XferReceiver),
      (Machine.run step r calls).1.lastRelProgressAt
        = lastReleaseFrom r r.lastRelProgressAt calls := by
    intro calls
    induction calls with
    | nil => intro r; rfl
    | cons c calls ih =>
      intro r
      rw [Machine.run_cons, Machine.andThen_fst, ih, step_progress]
      rfl
  exact hfrom calls (new cfg start)

/-! ## When a stream is given up as stalled -/

/-- A tick gives the stream up as stalled exactly when it streams, the
receiver neither closed nor idle, and the last release is too long ago. -/
theorem stalled_mem_tick_iff : .relFinished (.aborted .stalled) ∈ (r.tick now).2
    ↔ r.closed = false ∧ durationSince now r.lastPacketAt ≤ r.cfg.idleTimeout
      ∧ r.relState = .streaming
      ∧ r.cfg.relStallTimeout < durationSince now r.lastRelProgressAt := by
  constructor
  · intro h
    obtain ⟨hc, ⟨-, h⟩ | ⟨hi, h | h⟩⟩ := tick_events h
    · rcases closeIdle_events h with ⟨he, -⟩ | he <;> cases he
    · obtain ⟨hs, ⟨-, ht⟩ | he | ⟨_, he, -⟩⟩ := tickRel_events h
      · exact ⟨hc, hi, hs, ht⟩
      · cases he
      · cases he
    · cases (maybeAck_events h).1
  · rintro ⟨hc, hi, hs, ht⟩
    rw [tick_of_awake hc hi]
    refine Machine.mem_andThen.mpr (Or.inl ?_)
    simp [tickRel, hs, ht, finishRel]

/-- Nothing is missing, yet the reliable stream waits: a tick here may only
come so long after the last release. -/
structure WaitsForNothing (cfg : ReceiverConfig) (r : XferReceiver) (now : Instant) : Prop where
  nothing : ¬ r.KnownMissing
  streaming : r.relState = .streaming
  opened : r.closed = false
  notIdle : durationSince now r.lastPacketAt ≤ cfg.idleTimeout

/-- **Stalls, exactly.** In a run, the stream is given up as stalled only
in states where a frame is known to be missing, if and only if every tick
that finds nothing missing comes within the stall timeout of the last
release. -/
theorem no_false_stall_iff (cfg : ReceiverConfig) (start : Instant) (calls : List RecvCall) :
    (∀ before now rest, calls = before ++ .tick now :: rest →
        .relFinished (.aborted .stalled) ∈ ((run cfg start before).1.tick now).2 →
        (run cfg start before).1.KnownMissing)
      ↔ ∀ before now rest, calls = before ++ .tick now :: rest →
        WaitsForNothing cfg (run cfg start before).1 now →
        durationSince now (lastRelease cfg start before) ≤ cfg.relStallTimeout := by
  constructor
  · intro h before now rest hc hw
    by_contra hlt
    refine hw.nothing (h before now rest hc ?_)
    rw [stalled_mem_tick_iff, lastRelProgressAt_run, run_cfg]
    exact ⟨hw.opened, hw.notIdle, hw.streaming, not_le.mp hlt⟩
  · intro h before now rest hc hmem
    by_contra hnot
    rw [stalled_mem_tick_iff, lastRelProgressAt_run, run_cfg] at hmem
    obtain ⟨ho, hi, hs, ht⟩ := hmem
    exact absurd (h before now rest hc ⟨hnot, hs, ho, hi⟩) (not_le.mpr ht)

/-- A receiver armed six seconds before its first packet has already given
the reliable stream up, with nothing missing. -/
theorem late_start_stalls :
    .relFinished (.aborted .stalled)
        ∈ ((run .audioEngine 0 []).1.tick (fromSecs 6)).2
      ∧ ¬ (run .audioEngine 0 []).1.KnownMissing := by
  decide +kernel

end XferReceiver

end Protofish4
