import Protofish4.Tokio.Endpoint

/-!
# The occupancy an acknowledgement reports

The sink reports its play head, the endpoint remembers the newest timestamp
it has handed up, and an acknowledgement carries the difference while the
report is fresh. A feedback starts out as if a play head of zero had been
reported when it was created: until `BUFFER_REPORT_TTL` has passed, a sink
that never reported looks like one that holds everything it received.
-/

namespace Protofish4

/-- What an entry's acknowledgements depend on: a report of the play head,
in whole milliseconds since the feedback was created, or an event of the
state machine that is applied. -/
inductive Moment where
  | report (ms atMs : Nat)
  | applied (ev : RecvEvent) (around : Around)

namespace Moment

/-- The report a moment makes: the play head and when. -/
def reported : Moment → Option (Nat × Nat)
  | report ms atMs => some (ms, atMs)
  | applied _ _ => none

/-- The timestamp of the frame a moment hands up. -/
def timestamp : Moment → Option Nat
  | applied (.unreliable f) _ | applied (.reliable f) _ => some f.ts.val.toNat
  | _ => none

end Moment

/-- The most recent report of a history. -/
def lastReport (history : List Moment) : Option (Nat × Nat) :=
  (history.filterMap Moment.reported).getLast?

/-- The newest frame timestamp of a history. -/
def newestTimestamp (history : List Moment) : Nat :=
  (history.filterMap Moment.timestamp).foldl max 0

/-- What is left to play, as far as sixteen bits tell. -/
def unplayedMs (newestMs playheadMs : Nat) : UInt16 :=
  UInt16.ofNat (min (newestMs - playheadMs) 65535)

/-- The occupancy to report at `atMs`: measured against the last play head
if it was reported within `BUFFER_REPORT_TTL`, and otherwise the state
machine's own value. -/
def occupancyMs (history : List Moment) (stateMs : UInt16) (atMs : Nat) : UInt16 :=
  match lastReport history with
  | some (playheadMs, writtenAtMs) =>
    if fromMillis (atMs - writtenAtMs) ≤ bufferReportTtl then
      unplayedMs (newestTimestamp history) playheadMs
    else stateMs
  | none => stateMs

theorem durationSince_millis (epoch : Int) (m n : Nat) :
    durationSince (epoch + fromMillis m) (epoch + fromMillis n) = fromMillis (m - n) := by
  show (epoch + ((m * 1000000 : Nat) : Int) - (epoch + ((n * 1000000 : Nat) : Int))).toNat
    = (m - n) * 1000000
  omega

theorem elapsed_millis (epoch : Int) (m : Nat) :
    durationSince (epoch + fromMillis m) epoch / fromMillis 1 = m := by
  show (epoch + ((m * 1000000 : Nat) : Int) - epoch).toNat / (1 * 1000000) = m
  omega

theorem lastReport_concat (history : List Moment) (m : Moment) :
    lastReport (history ++ [m]) = m.reported.or (lastReport history) := by
  unfold lastReport
  cases hm : m.reported with
  | none => simp [hm]
  | some report => simp [hm]

theorem newestTimestamp_concat (history : List Moment) (m : Moment) :
    newestTimestamp (history ++ [m]) = max (newestTimestamp history) (m.timestamp.getD 0) := by
  unfold newestTimestamp
  cases hm : m.timestamp with
  | none => simp [hm]
  | some ts => simp [hm]

namespace Entry

/-- An entry whose feedback was created at `epoch`. -/
def armed (key : SessionKey) (cfg : ReceiverConfig) (start epoch : Instant) : Entry :=
  { Entry.new key cfg start with feedback := BufferFeedback.new epoch }

/-- What a moment does to the entry. -/
def happen (id : RequestId) (epoch : Instant) (e : Entry) : Moment → Entry
  | .report ms atMs =>
    { e with feedback := e.feedback.setPlayheadMs ms (epoch + fromMillis atMs) }
  | .applied ev around => (e.applyOne id around ev).entry

/-- The entry after a history. -/
def past (e : Entry) (id : RequestId) (epoch : Instant) (history : List Moment) : Entry :=
  history.foldl (happen id epoch) e

/-- An acknowledgement that carries `ms` is sealed. -/
def AckSealed (p : Applied) (ms : UInt16) : Prop :=
  ∃ call contiguous highest, .sealed call ∈ p.effects
    ∧ decodeBody .ack call.plaintext = .ok (.ack contiguous highest ms)

variable {e : Entry} {id : RequestId} {epoch : Instant}

theorem seal_feedback (e : Entry) (id : RequestId) (body : Body) :
    (e.seal id body).entry.feedback = e.feedback
      ∧ (e.seal id body).entry.newestDataMs = max e.newestDataMs 0 := by
  rw [Nat.max_zero]
  simp only [«seal»]
  split <;> exact ⟨rfl, rfl⟩

/-- An event leaves the feedback alone, and counts its frame's timestamp. -/
theorem applyOne_feedback (e : Entry) (id : RequestId) (around : Around) (ev : RecvEvent) :
    (e.applyOne id around ev).entry.feedback = e.feedback
      ∧ (e.applyOne id around ev).entry.newestDataMs
        = max e.newestDataMs ((Moment.applied ev around).timestamp.getD 0) := by
  cases ev with
  | unreliable f =>
    simp only [applyOne, deliverUnrel]
    split
    · exact ⟨rfl, rfl⟩
    · split <;> exact ⟨rfl, rfl⟩
  | reliable f => exact ⟨rfl, rfl⟩
  | sendNack missing => exact seal_feedback e id _
  | sendAck contiguous highest bufferedMs => exact seal_feedback e id _
  | sendEndAck => exact seal_feedback e id _
  | relFinished outcome => exact ⟨rfl, (Nat.max_zero _).symm⟩
  | closed => exact ⟨rfl, (Nat.max_zero _).symm⟩

/-- What the entry knows after a history: the last report, or the one a
feedback is created with, and the newest timestamp. -/
theorem past_feedback (key : SessionKey) (cfg : ReceiverConfig) (start epoch : Instant)
    (id : RequestId) (history : List Moment) :
    ((armed key cfg start epoch).past id epoch history).feedback
        = ⟨((lastReport history).getD (0, 0)).1, ((lastReport history).getD (0, 0)).2, epoch⟩
      ∧ ((armed key cfg start epoch).past id epoch history).newestDataMs
        = newestTimestamp history := by
  induction history using List.reverseRecOn with
  | nil => exact ⟨rfl, rfl⟩
  | append_singleton history m ih =>
    rw [lastReport_concat, newestTimestamp_concat, past, List.foldl_append, List.foldl_cons,
      List.foldl_nil]
    change ((armed key cfg start epoch).past id epoch history).feedback = _ ∧ _ at ih
    cases m with
    | report ms atMs =>
      refine ⟨?_, ?_⟩
      · show BufferFeedback.setPlayheadMs (past _ id epoch history).feedback ms _ = _
        -- whole milliseconds since the epoch are stored without loss
        rw [ih.1, BufferFeedback.setPlayheadMs, elapsed_millis]
        rfl
      · show (past _ id epoch history).newestDataMs = _
        rw [ih.2]
        simp [Moment.timestamp]
    | applied ev around =>
      obtain ⟨hf, hn⟩ := applyOne_feedback (past (armed key cfg start epoch) id epoch history) id
        around ev
      refine ⟨hf.trans ?_, hn.trans ?_⟩
      · rw [ih.1]
        rfl
      · rw [ih.2]

/-- The play head counts as fresh up to the time to live. -/
theorem freshPlayheadMs_eq (playheadMs writtenAtMs atMs : Nat) (epoch : Instant) :
    (⟨playheadMs, writtenAtMs, epoch⟩ : BufferFeedback).freshPlayheadMs (epoch + fromMillis atMs)
        bufferReportTtl
      = if fromMillis (atMs - writtenAtMs) ≤ bufferReportTtl then some playheadMs else none := by
  unfold BufferFeedback.freshPlayheadMs
  rw [durationSince_millis]
  split
  · rename_i h
    rw [if_neg (not_le.mpr h)]
  · rename_i h
    rw [if_pos (not_lt.mp h)]

/-- The acknowledgement sealed carries what `ack_buffered_ms` answers. -/
theorem ackSealed_iff (around : Around) (contiguous highest : XferSeq) (stateMs ms : UInt16) :
    AckSealed (e.applyOne id around (.sendAck contiguous highest stateMs)) ms
      ↔ ms = ackBufferedMs e.feedback stateMs e.newestDataMs around.ackNow := by
  generalize hm : ackBufferedMs e.feedback stateMs e.newestDataMs around.ackNow = sent
  have heff : (e.applyOne id around (.sendAck contiguous highest stateMs)).effects
      = [.sealed (SealCall.run e.key ⟨.ack, id, e.controlSeq.val⟩ .recv
        (u32Bytes contiguous.val ++ u32Bytes highest.val ++ u16Bytes sent))] := by
    simp only [applyOne, hm, «seal», encodeBody]
    rfl
  have hdec : decodeBody .ack (u32Bytes contiguous.val ++ u32Bytes highest.val ++ u16Bytes sent)
      = .ok (.ack contiguous highest sent) :=
    @decodeBody_encodeBody (.ack contiguous highest sent) _ rfl
  constructor
  · rintro ⟨call, c, h, hcall, hcd⟩
    rw [heff, List.mem_singleton] at hcall
    cases hcall
    rw [SealCall.run, hdec] at hcd
    cases hcd
    rfl
  · rintro rfl
    exact ⟨_, contiguous, highest, by rw [heff]; exact List.mem_singleton_self _, hdec⟩

/-- **Reported occupancy, exactly.** After every history, the
acknowledgement sealed at `atMs` carries the occupancy to report, if and
only if there has been a report, or the feedback is older than
`BUFFER_REPORT_TTL`, or the state machine's own value is what a play head
of zero gives. -/
theorem reported_occupancy_iff (key : SessionKey) (cfg : ReceiverConfig) (start epoch : Instant)
    (id : RequestId) (history : List Moment) (around : Around) (contiguous highest : XferSeq)
    (stateMs : UInt16) (atMs : Nat) :
    AckSealed (((armed key cfg start epoch).past id epoch history).applyOne id
        { around with ackNow := epoch + fromMillis atMs } (.sendAck contiguous highest stateMs))
        (occupancyMs history stateMs atMs)
      ↔ (lastReport history).isSome ∨ bufferReportTtl < fromMillis atMs
        ∨ stateMs = unplayedMs (newestTimestamp history) 0 := by
  obtain ⟨hf, hn⟩ := past_feedback key cfg start epoch id history
  rw [ackSealed_iff, hf, hn, ackBufferedMs, freshPlayheadMs_eq, occupancyMs]
  cases lastReport history with
  | some report =>
    obtain ⟨playheadMs, writtenAtMs⟩ := report
    simp only [Option.getD_some, Option.isSome_some, true_or, iff_true]
    split <;> rfl
  | none =>
    simp only [Option.getD_none, Nat.sub_zero, Option.isSome_none, Bool.false_eq_true, false_or]
    -- a feedback without a report is dated at its creation, with a play head of zero
    by_cases hle : fromMillis atMs ≤ bufferReportTtl
    · rw [if_pos hle]
      simp only [not_lt.mpr hle, false_or]
      exact Iff.rfl
    · rw [if_neg hle]
      simp [not_le.mp hle]

/-- One frame, five seconds into the track, and no report. -/
def silentSink : List Moment :=
  [.applied (.unreliable ⟨.first, ⟨5320⟩, [7]⟩) ⟨true, true, 0, 0⟩]

/-- A sink that never reported is taken to hold everything it received. -/
theorem silent_sink_reports : ¬ AckSealed
    (((armed plainKey .audioEngine 0 0).past zeroId 0 silentSink).applyOne zeroId
      ⟨true, true, 0, fromMillis 200⟩ (.sendAck .first .first 0))
    (occupancyMs silentSink 0 200) := by
  rw [ackSealed_iff]
  decide +kernel

end Entry

end Protofish4
