import Protofish4.Lib.Log
import Protofish4.Xfer.Keepalive
import Protofish4.Xfer.Numbers

/-!
# What a sender goes by

A sender decides by a few numbers and times in its state. This module reads
them back from what it has said and heard, and says exactly when a tick
gives up, when it sends a keepalive, and when a frame is taken.
-/

namespace Protofish4

namespace SendEvent

/-- A packet of this kind goes out. -/
def sends (k : PacketKind) : SendEvent → Bool
  | .emit _ body => body.kind = k
  | .resend _ | .completed | .failed _ => false

/-- The end is announced, or a keepalive goes out. -/
def isSignal (e : SendEvent) : Bool := e.sends .end || e.sends .keepalive

end SendEvent

namespace XferSender

/-! ## What has been said and heard -/

def log (cfg : SenderConfig) (calls : List SendCall) : List (SendCall × List SendEvent) :=
  Machine.log step (new cfg) calls

/-- When this call made the sender say such a thing, if it did. -/
def saidAt (p : SendEvent → Bool) (x : SendCall × List SendEvent) : Option Instant :=
  if x.2.any p then x.1.time else none

/-- When the first frame went out. -/
def firstFrameAt (cfg : SenderConfig) (calls : List SendCall) : Option Instant :=
  Machine.earliest (saidAt (·.sends .data)) (log cfg calls)

/-- When the end was announced. -/
def endedAt (cfg : SenderConfig) (calls : List SendCall) : Option Instant :=
  Machine.latest (saidAt (·.sends .end)) (log cfg calls)

def lastSignalAt (cfg : SenderConfig) (calls : List SendCall) : Option Instant :=
  Machine.latest (saidAt SendEvent.isSignal) (log cfg calls)

/-- The receiver has answered: acknowledged something, or asked for it. -/
def isAnswer : SendCall → Bool
  | .handle (.ack ..) _ | .handle (.nack _) _ => true
  | _ => false

/-- The brake after a call: on above the high mark, off below the low one,
and in between as it was. -/
def brake (cfg : SenderConfig) (on : Bool) : SendCall → Bool
  | .handle (.ack _ _ bufferedMs) _ =>
    if bufferedMs ≥ cfg.bufferHighWaterMs then true
    else if bufferedMs ≤ cfg.bufferLowWaterMs then false
    else on
  | _ => on

/-- The receiver has put the brake on. -/
def Braked (cfg : SenderConfig) (calls : List SendCall) : Prop :=
  calls.foldl (brake cfg) false = true

/-- The highest number acknowledged. -/
def ackedOf (calls : List SendCall) : Nat :=
  calls.foldl (fun highest c => match c with
    | .handle (.ack _ h _) _ => max highest h.toNat
    | _ => highest) 0

/-- The sender has completed or failed. -/
def Over (cfg : SenderConfig) (calls : List SendCall) : Prop :=
  ∃ e ∈ (run cfg calls).2, e.Concluding

/-- The end has been announced. -/
def Ended (cfg : SenderConfig) (calls : List SendCall) : Prop :=
  ∃ e ∈ (run cfg calls).2, e.sends .end = true

/-- Nothing has been answered, for too long after the first frame. -/
def Unanswered (cfg : SenderConfig) (calls : List SendCall) (now : Instant) : Prop :=
  (∀ c ∈ calls, isAnswer c = false)
    ∧ ∃ t, firstFrameAt cfg calls = some t ∧ cfg.firstAckTimeout < durationSince now t

/-- The end has been announced too long ago. -/
def Late (cfg : SenderConfig) (calls : List SendCall) (now : Instant) : Prop :=
  ∃ t, endedAt cfg calls = some t ∧ cfg.finalizeTimeout < durationSince now t

/-- A keepalive interval has passed since the last signal, if there was one. -/
def SignalDue (cfg : SenderConfig) (calls : List SendCall) (now : Instant) : Prop :=
  ∀ t, lastSignalAt cfg calls = some t → cfg.tailKeepaliveInterval ≤ durationSince now t

section Step

variable (s : XferSender) (c : SendCall)

/-! ## What a tick decides -/

/-- What a tick can come to. -/
inductive Verdict where
  | nothing
  | unanswered
  | late
  | signal
  deriving DecidableEq

/-- No answer came, and the first frame went out too long ago. -/
def GivesUp (now : Instant) : Prop :=
  s.gotAck = false
    ∧ (s.firstDataAt.any fun first => durationSince now first > s.cfg.firstAckTimeout) = true

instance (now : Instant) : Decidable (s.GivesUp now) := inferInstanceAs (Decidable (_ ∧ _))

def verdict (now : Instant) : Verdict :=
  if s.state = .done then .nothing
  else if s.GivesUp now then .unanswered
  else if s.state = .finalizing then
    if s.finalizeAt.any fun started => durationSince now started > s.cfg.finalizeTimeout then .late
    else if s.lastKeepaliveAt.any fun last =>
        durationSince now last ≥ s.cfg.tailKeepaliveInterval then .signal
    else .nothing
  else if s.paused ∧ s.lastKeepaliveAt.all fun last =>
      durationSince now last ≥ s.cfg.tailKeepaliveInterval then .signal
  else .nothing

/-- A tick that does not find the sender done or given up on is the tick of
the phase it is in. -/
theorem tick_streaming {now : Instant} (hs : s.state = .streaming) (hanswer : ¬ s.GivesUp now) :
    s.tick now = s.tickPaused now := by
  have hstate : (s.tickPaused now).1.state ≠ .finalizing := by
    rw [tickPaused_frame]
    simp [hs]
  rw [GivesUp] at hanswer
  rw [tick, if_neg (by simp [hs]), if_neg hanswer, Machine.andThen, tickFinalizing,
    if_neg hstate, List.append_nil]

theorem tick_finalizing {now : Instant} (hs : s.state = .finalizing) (hanswer : ¬ s.GivesUp now) :
    s.tick now = s.tickFinalizing now := by
  have hpaused : s.tickPaused now = (s, []) := by
    rw [tickPaused, if_neg (by simp [hs])]
  rw [GivesUp] at hanswer
  rw [tick, if_neg (by simp [hs]), if_neg hanswer, hpaused]
  rfl

/-- A tick does what its verdict is, whichever phase the sender is in. -/
theorem tick_verdict (now : Instant) : s.tick now = match s.verdict now with
    | .nothing => (s, [])
    | .unanswered => ({ s with state := .done }, [.failed .noAck])
    | .late => ({ s with state := .done }, [.failed .finalizeTimeout])
    | .signal => s.keepalive now := by
  unfold verdict
  by_cases hdone : s.state = .done
  · rw [if_pos hdone, tick, if_pos hdone]
  · by_cases hup : s.GivesUp now
    · rw [if_neg hdone, if_pos hup, tick, if_neg hdone]
      exact if_pos hup
    · rw [if_neg hdone, if_neg hup]
      cases hs : s.state with
      | done => exact absurd hs hdone
      | finalizing =>
        rw [s.tick_finalizing hs hup, if_pos rfl, tickFinalizing, if_pos hs]
        split
        · rfl
        · split <;> rfl
      | streaming =>
        rw [s.tick_streaming hs hup, if_neg (by simp), tickPaused]
        cases hp : s.paused with
        | false => simp [hs]
        | true =>
          rw [if_pos ⟨hs, rfl⟩]
          cases s.lastKeepaliveAt with
          | none => rfl
          | some last =>
            by_cases hdue : durationSince now last ≥ s.cfg.tailKeepaliveInterval <;> simp [hdue]

/-- The verdict shows in what comes out. -/
theorem mem_tick_iff (now : Instant) :
    (.failed .noAck ∈ (s.tick now).2 ↔ s.verdict now = .unanswered)
      ∧ (.failed .finalizeTimeout ∈ (s.tick now).2 ↔ s.verdict now = .late)
      ∧ ((∃ e ∈ (s.tick now).2, e.sends .keepalive = true) ↔ s.verdict now = .signal) := by
  rw [tick_verdict]
  cases s.verdict now <;> simp [keepalive, SendEvent.sends, Body.kind]

theorem verdict_unanswered_iff (now : Instant) :
    s.verdict now = .unanswered ↔ s.state ≠ .done ∧ s.GivesUp now := by
  unfold verdict
  by_cases hdone : s.state = .done
  · simp [hdone]
  · by_cases hup : s.GivesUp now
    · simp [hdone, hup]
    · rw [if_neg hdone, if_neg hup]
      refine iff_of_false ?_ fun h => hup h.2
      split_ifs <;> simp

theorem verdict_late_iff (now : Instant) : s.verdict now = .late ↔ s.state = .finalizing
    ∧ ¬ s.GivesUp now
    ∧ (s.finalizeAt.any fun t => durationSince now t > s.cfg.finalizeTimeout) = true := by
  unfold verdict
  cases hs : s.state with
  | done => simp
  | streaming =>
    refine iff_of_false ?_ fun h => by cases h.1
    by_cases hup : s.GivesUp now
    · simp [hup]
    · rw [if_neg (by simp), if_neg hup, if_neg (by simp)]
      split <;> simp
  | finalizing =>
    rw [if_neg (by simp)]
    by_cases hup : s.GivesUp now
    · simp [hup]
    · rw [if_neg hup, if_pos rfl]
      split_ifs with hlate hdue <;> simp [hup, hlate]

theorem verdict_signal_iff (now : Instant) : s.verdict now = .signal ↔ ¬ s.GivesUp now
    ∧ (s.state = .streaming ∧ s.paused = true
        ∧ (∀ t, s.lastKeepaliveAt = some t → s.cfg.tailKeepaliveInterval ≤ durationSince now t)
      ∨ s.state = .finalizing
        ∧ ¬ (s.finalizeAt.any fun t => durationSince now t > s.cfg.finalizeTimeout) = true
        ∧ ∃ t, s.lastKeepaliveAt = some t
          ∧ s.cfg.tailKeepaliveInterval ≤ durationSince now t) := by
  unfold verdict
  cases hs : s.state with
  | done => simp
  | streaming =>
    rw [if_neg (by simp)]
    by_cases hup : s.GivesUp now
    · simp [hup]
    · rw [if_neg hup, if_neg (by simp)]
      cases s.lastKeepaliveAt <;> simp [hup]
  | finalizing =>
    rw [if_neg (by simp)]
    by_cases hup : s.GivesUp now
    · simp [hup]
    · rw [if_neg hup, if_pos rfl]
      cases s.lastKeepaliveAt <;> split_ifs <;> simp_all

/-! ## What one call changes -/

theorem step_paused : (s.step c).1.paused = brake s.cfg s.paused c := by
  cases c with
  | pushFrame ts payload now =>
    simp only [step, pushFrame]
    split <;> rfl
  | recordSealed seq sealed => rfl
  | finish now =>
    simp only [step, finish]
    split <;> rfl
  | handle body now => cases body <;> rfl
  | tick now =>
    simp only [step]
    rw [tick_frame]
    rfl

theorem step_gotAck : (s.step c).1.gotAck = (s.gotAck || isAnswer c) := by
  cases c with
  | pushFrame ts payload now =>
    simp only [step, pushFrame]
    split <;> simp [isAnswer]
  | recordSealed seq sealed => simp [step, recordSealed, isAnswer]
  | finish now =>
    simp only [step, finish]
    split <;> simp [isAnswer, bumpControl]
  | handle body now => cases body <;> simp [step, handle, onAck, isAnswer]
  | tick now =>
    simp only [step, isAnswer, Bool.or_false]
    rw [tick_frame]

theorem step_ackedHighest : (s.step c).1.ackedHighest = (match c with
    | .handle (.ack _ h _) _ => max s.ackedHighest h.toNat
    | _ => s.ackedHighest) := by
  cases c with
  | pushFrame ts payload now =>
    simp only [step, pushFrame]
    split <;> rfl
  | recordSealed seq sealed => rfl
  | finish now =>
    simp only [step, finish]
    split <;> rfl
  | handle body now =>
    cases body with
    | ack contiguous highest bufferedMs =>
      simp only [step, handle, onAck]
      split <;> omega
    | data | «end» | endAck | nack | keepalive => rfl
  | tick now =>
    simp only [step]
    rw [tick_frame]

theorem saidAt_eq_none {p : SendEvent → Bool} {x : SendCall × List SendEvent}
    (h : ∀ e ∈ x.2, p e = false) : saidAt p x = none := by
  refine if_neg fun hany => ?_
  obtain ⟨e, he, hp⟩ := List.any_eq_true.mp hany
  rw [h e he] at hp
  cases hp

/-- A packet from the receiver makes the sender send no packet of its own. -/
theorem not_sends_handle (body : Body) (now : Instant) :
    ∀ e ∈ (s.handle body now).2, ∀ k, e.sends k = false := by
  intro e he k
  rcases s.handle_events now body he with ⟨missing, -, rfl⟩ | rfl <;> rfl

/-- What a step sends, and the times it notes for it. -/
inductive Notes (s s' : XferSender) (c : SendCall) (out : List SendEvent) : Prop where
  | quiet (unsent : ∀ e ∈ out, ∀ k, e.sends k = false) (first : s'.firstDataAt = s.firstDataAt)
      (ended : s'.finalizeAt = s.finalizeAt) (signal : s'.lastKeepaliveAt = s.lastKeepaliveAt)
  | data (now : Instant) (time : c.time = some now)
      (sent : ∃ seq ts payload, out = [.emit seq (.data ts payload)])
      (first : s'.firstDataAt = s.firstDataAt.or (some now))
      (ended : s'.finalizeAt = s.finalizeAt) (signal : s'.lastKeepaliveAt = s.lastKeepaliveAt)
  | «end» (now : Instant) (time : c.time = some now)
      (sent : ∃ seq finalSeq, out = [.emit seq (.end finalSeq)])
      (first : s'.firstDataAt = s.firstDataAt) (ended : s'.finalizeAt = some now)
      (signal : s'.lastKeepaliveAt = some now)
  | keepalive (now : Instant) (time : c.time = some now)
      (sent : ∃ seq lostBelow, out = [.emit seq (.keepalive lostBelow)])
      (first : s'.firstDataAt = s.firstDataAt) (ended : s'.finalizeAt = s.finalizeAt)
      (signal : s'.lastKeepaliveAt = some now)

theorem step_notes : Notes s (s.step c).1 c (s.step c).2 := by
  cases c with
  | pushFrame ts payload now =>
    rcases s.pushFrame_cases now ts payload with ⟨heq, -⟩ | ⟨-, hstate, hout⟩
    · simp only [step, heq]
      exact .quiet (by simp) rfl rfl rfl
    · simp only [step, hstate, hout]
      refine .data now rfl ⟨_, _, _, rfl⟩ ?_ rfl rfl
      cases s.firstDataAt <;> rfl
  | recordSealed seq sealed => exact .quiet (by simp [step]) rfl rfl rfl
  | finish now =>
    simp only [step, finish]
    split
    · exact .quiet (by simp) rfl rfl rfl
    · exact .end now rfl ⟨_, _, rfl⟩ rfl rfl rfl
  | handle body now =>
    simp only [step]
    rw [handle_frame]
    exact .quiet (s.not_sends_handle body now) rfl rfl rfl
  | tick now =>
    simp only [step]
    rw [tick_verdict]
    cases s.verdict now with
    | nothing => exact .quiet (by simp) rfl rfl rfl
    | unanswered => exact .quiet (by simp [SendEvent.sends]) rfl rfl rfl
    | late => exact .quiet (by simp [SendEvent.sends]) rfl rfl rfl
    | signal => exact .keepalive now rfl ⟨_, _, rfl⟩ rfl rfl rfl

theorem step_firstDataAt : (s.step c).1.firstDataAt
    = s.firstDataAt.or (saidAt (·.sends .data) (c, (s.step c).2)) := by
  cases s.step_notes c with
  | quiet unsent first =>
    rw [first, saidAt_eq_none fun e he => unsent e he .data, Option.or_none]
  | data now time sent first =>
    obtain ⟨seq, ts, payload, hout⟩ := sent
    rw [first, hout, ← time]
    rfl
  | «end» now time sent first =>
    obtain ⟨seq, finalSeq, hout⟩ := sent
    rw [first, hout]
    exact Option.or_none.symm
  | keepalive now time sent first =>
    obtain ⟨seq, lostBelow, hout⟩ := sent
    rw [first, hout]
    exact Option.or_none.symm

theorem step_finalizeAt : (s.step c).1.finalizeAt
    = (saidAt (·.sends .end) (c, (s.step c).2)).or s.finalizeAt := by
  cases s.step_notes c with
  | quiet unsent first ended =>
    rw [ended, saidAt_eq_none fun e he => unsent e he .end, Option.none_or]
  | data now time sent first ended =>
    obtain ⟨seq, ts, payload, hout⟩ := sent
    rw [ended, hout]
    rfl
  | «end» now time sent first ended =>
    obtain ⟨seq, finalSeq, hout⟩ := sent
    simp [ended, hout, saidAt, SendEvent.sends, Body.kind, time]
  | keepalive now time sent first ended =>
    obtain ⟨seq, lostBelow, hout⟩ := sent
    rw [ended, hout]
    rfl

theorem step_lastKeepaliveAt : (s.step c).1.lastKeepaliveAt
    = (saidAt SendEvent.isSignal (c, (s.step c).2)).or s.lastKeepaliveAt := by
  have hsaid : ∀ {out : List SendEvent} {now : Instant}, c.time = some now →
      out.any SendEvent.isSignal = true →
      some now = (saidAt SendEvent.isSignal (c, out)).or s.lastKeepaliveAt := by
    intro out now htime hany
    rw [saidAt, if_pos hany, htime, Option.some_or]
  cases s.step_notes c with
  | quiet unsent first ended signal =>
    have hnone : ∀ e ∈ (s.step c).2, e.isSignal = false := by
      intro e he
      rw [SendEvent.isSignal, unsent e he, unsent e he, Bool.or_false]
    rw [signal, saidAt_eq_none hnone, Option.none_or]
  | data now time sent first ended signal =>
    obtain ⟨seq, ts, payload, hout⟩ := sent
    rw [signal, hout]
    rfl
  | «end» now time sent first ended signal =>
    obtain ⟨seq, finalSeq, hout⟩ := sent
    rw [signal, hout]
    exact hsaid time rfl
  | keepalive now time sent first ended signal =>
    obtain ⟨seq, lostBelow, hout⟩ := sent
    rw [signal, hout]
    exact hsaid time rfl

/-- What takes a sender out of streaming: the end announced, or a
conclusion. -/
theorem step_leaves_iff : (s.step c).1.state ≠ .streaming ↔ s.state ≠ .streaming
    ∨ ∃ e ∈ (s.step c).2, e.sends .end = true ∨ e.Concluding := by
  have hnone : ∀ {out : List SendEvent} {st : SendState}, st = s.state →
      (∀ e ∈ out, ¬ (e.sends .end = true ∨ e.Concluding)) →
      (st ≠ .streaming ↔ s.state ≠ .streaming ∨ ∃ e ∈ out, e.sends .end = true ∨ e.Concluding) := by
    rintro out st rfl h
    exact ⟨Or.inl, fun h' => h'.resolve_right fun ⟨e, he, hf⟩ => h e he hf⟩
  cases c with
  | pushFrame ts payload now =>
    rcases s.pushFrame_cases now ts payload with ⟨heq, -⟩ | ⟨-, hstate, hout⟩
    · simp only [step, heq]
      exact hnone rfl (by simp)
    · simp only [step, hstate, hout]
      exact hnone rfl (by simp [SendEvent.sends, Body.kind, SendEvent.Concluding])
  | recordSealed seq sealed => exact hnone rfl (by simp [step])
  | finish now =>
    simp only [step, finish]
    split
    · exact hnone rfl (by simp)
    · exact iff_of_true (by simp [bumpControl]) (Or.inr ⟨_, List.mem_singleton_self _, Or.inl rfl⟩)
  | handle body now =>
    cases body with
    | endAck =>
      exact iff_of_true (by simp [step, handle])
        (Or.inr ⟨_, List.mem_singleton_self _, Or.inr (Or.inl rfl)⟩)
    | nack missing =>
      refine hnone rfl fun e he hf => ?_
      simp only [step, handle] at he
      split at he
      · cases he
      · cases List.mem_singleton.mp he
        simp [SendEvent.sends, SendEvent.Concluding] at hf
    | data | «end» | ack | keepalive => exact hnone rfl (by simp [step, handle])
  | tick now =>
    simp only [step]
    rw [tick_verdict]
    have hfails : ∀ reason, (SendState.done ≠ .streaming ↔ s.state ≠ .streaming
        ∨ ∃ e ∈ [SendEvent.failed reason], e.sends .end = true ∨ e.Concluding) := fun reason =>
      iff_of_true (by simp)
        (Or.inr ⟨_, List.mem_singleton_self _, Or.inr (Or.inr ⟨reason, rfl⟩)⟩)
    cases s.verdict now with
    | nothing => exact hnone rfl (by simp)
    | unanswered => exact hfails .noAck
    | late => exact hfails .finalizeTimeout
    | signal =>
      exact hnone rfl (by simp [keepalive, SendEvent.sends, Body.kind, SendEvent.Concluding])

end Step

/-! ## What a run has left in the state -/

section Run

variable (cfg : SenderConfig) (calls : List SendCall)

theorem firstDataAt_run : (run cfg calls).1.firstDataAt = firstFrameAt cfg calls :=
  Machine.digest_run step XferSender.firstDataAt _ step_firstDataAt (new cfg) calls

theorem finalizeAt_run : (run cfg calls).1.finalizeAt = endedAt cfg calls :=
  Machine.digest_run step XferSender.finalizeAt (fun last x => (saidAt (·.sends .end) x).or last)
    step_finalizeAt (new cfg) calls

theorem lastKeepaliveAt_run : (run cfg calls).1.lastKeepaliveAt = lastSignalAt cfg calls :=
  Machine.digest_run step XferSender.lastKeepaliveAt
    (fun last x => (saidAt SendEvent.isSignal x).or last) step_lastKeepaliveAt (new cfg) calls

theorem ackedHighest_run : (run cfg calls).1.ackedHighest = ackedOf calls :=
  Machine.digest_inputs step XferSender.ackedHighest _ step_ackedHighest (new cfg) calls

theorem gotAck_run :
    (run cfg calls).1.gotAck = calls.foldl (fun got c => got || isAnswer c) false :=
  Machine.digest_inputs step XferSender.gotAck _ step_gotAck (new cfg) calls

theorem not_gotAck_iff :
    (run cfg calls).1.gotAck = false ↔ ∀ c ∈ calls, isAnswer c = false := by
  rw [gotAck_run]
  induction calls using List.reverseRecOn with
  | nil => simp
  | append_singleton calls c ih => simp [ih, or_imp, forall_and]

theorem paused_run : (run cfg calls).1.paused = true ↔ Braked cfg calls := by
  have hfold : (run cfg calls).1.paused = calls.foldl (brake cfg) false := by
    induction calls using List.reverseRecOn with
    | nil => rfl
    | append_singleton calls c ih =>
      rw [run_concat, Machine.andThen_fst, step_paused, run_cfg, ih, List.foldl_append]
      rfl
  rw [hfold, Braked]

theorem done_run : (run cfg calls).1.state = .done ↔ Over cfg calls :=
  @Machine.stop_run_iff _ _ _ step (new cfg) (fun s => s.state = .done) SendEvent.Concluding
    (fun h => by cases h) done_step_iff calls

theorem streaming_run :
    (run cfg calls).1.state = .streaming ↔ ¬ Over cfg calls ∧ ¬ Ended cfg calls := by
  have hleft := @Machine.stop_run_iff _ _ _ step (new cfg) (fun s => s.state ≠ .streaming)
    (fun e => e.sends .end = true ∨ e.Concluding) (fun h => h rfl) step_leaves_iff calls
  rw [← not_iff_not, not_and_or, not_not, not_not]
  refine hleft.trans ⟨?_, ?_⟩
  · rintro ⟨e, he, hend | hover⟩
    · exact Or.inr ⟨e, he, hend⟩
    · exact Or.inl ⟨e, he, hover⟩
  · rintro (⟨e, he, hover⟩ | ⟨e, he, hend⟩)
    · exact ⟨e, he, Or.inr hover⟩
    · exact ⟨e, he, Or.inl hend⟩

theorem givesUp_run (now : Instant) :
    (run cfg calls).1.GivesUp now ↔ Unanswered cfg calls now := by
  rw [GivesUp, not_gotAck_iff, firstDataAt_run, run_cfg, Option.any_eq_true]
  simp [Unanswered]

theorem finalizing_run :
    (run cfg calls).1.state = .finalizing ↔ ¬ Over cfg calls ∧ Ended cfg calls := by
  have hover := done_run cfg calls
  have hstreaming := streaming_run cfg calls
  cases hs : (run cfg calls).1.state with
  | streaming =>
    rw [hs] at hstreaming
    exact iff_of_false (by simp) fun h => (hstreaming.mp rfl).2 h.2
  | finalizing =>
    rw [hs] at hover hstreaming
    have hnot : ¬ Over cfg calls := fun h => by cases hover.mpr h
    refine iff_of_true rfl ⟨hnot, ?_⟩
    by_contra hended
    cases hstreaming.mpr ⟨hnot, hended⟩
  | done =>
    rw [hs] at hover
    exact iff_of_false (by simp) fun h => h.1 (hover.mp rfl)

theorem late_run (now : Instant) :
    ((run cfg calls).1.finalizeAt.any fun t => durationSince now t > cfg.finalizeTimeout) = true
      ↔ Late cfg calls now := by
  rw [finalizeAt_run, Option.any_eq_true]
  simp [Late]

/-- Waiting for the confirmation begins with a signal: the end itself. -/
theorem signal_of_finalizing (h : (run cfg calls).1.state = .finalizing) :
    ∃ t, lastSignalAt cfg calls = some t := by
  rw [← lastKeepaliveAt_run]
  exact Option.ne_none_iff_exists'.mp ((clocked_run cfg calls).armed h)

theorem noAck_iff (now : Instant) :
    .failed .noAck ∈ ((run cfg calls).1.tick now).2
      ↔ ¬ Over cfg calls ∧ Unanswered cfg calls now := by
  rw [(mem_tick_iff _ now).1, verdict_unanswered_iff, givesUp_run, ne_eq, done_run]

theorem finalizeTimeout_iff (now : Instant) :
    .failed .finalizeTimeout ∈ ((run cfg calls).1.tick now).2
      ↔ (¬ Over cfg calls ∧ ¬ Unanswered cfg calls now) ∧ Ended cfg calls
        ∧ Late cfg calls now := by
  rw [(mem_tick_iff _ now).2.1, verdict_late_iff, givesUp_run, finalizing_run, run_cfg, late_run]
  exact ⟨fun ⟨⟨hnot, hended⟩, hup, hlate⟩ => ⟨⟨hnot, hup⟩, hended, hlate⟩,
    fun ⟨⟨hnot, hup⟩, hended, hlate⟩ => ⟨⟨hnot, hended⟩, hup, hlate⟩⟩

theorem keepalive_iff (now : Instant) :
    (∃ e ∈ ((run cfg calls).1.tick now).2, e.sends .keepalive = true)
      ↔ (¬ Over cfg calls ∧ ¬ Unanswered cfg calls now) ∧ SignalDue cfg calls now
        ∧ (Ended cfg calls ∧ ¬ Late cfg calls now ∨ ¬ Ended cfg calls ∧ Braked cfg calls) := by
  have hsignal := signal_of_finalizing cfg calls
  rw [(mem_tick_iff _ now).2.2, verdict_signal_iff, givesUp_run, streaming_run, finalizing_run,
    run_cfg, late_run, paused_run, lastKeepaliveAt_run]
  rw [finalizing_run] at hsignal
  constructor
  · rintro ⟨hup, ⟨⟨hnot, hended⟩, hbrake, hdue⟩ | ⟨⟨hnot, hended⟩, hlate, t, ht, hdue⟩⟩
    · exact ⟨⟨hnot, hup⟩, hdue, Or.inr ⟨hended, hbrake⟩⟩
    · refine ⟨⟨hnot, hup⟩, fun t' ht' => ?_, Or.inl ⟨hended, hlate⟩⟩
      rw [ht] at ht'
      cases ht'
      exact hdue
  · rintro ⟨⟨hnot, hup⟩, hdue, ⟨hended, hlate⟩ | ⟨hended, hbrake⟩⟩
    · obtain ⟨t, ht⟩ := hsignal ⟨hnot, hended⟩
      exact ⟨hup, Or.inr ⟨⟨hnot, hended⟩, hlate, t, ht, hdue t ht⟩⟩
    · exact ⟨hup, Or.inl ⟨⟨hnot, hended⟩, hbrake, hdue⟩⟩

theorem takes_iff (now : Instant) (ts : TimestampMs) (payload : Bytes) :
    ((run cfg calls).1.pushFrame ts payload now).2.isSome = true
      ↔ ¬ Over cfg calls ∧ ¬ Ended cfg calls ∧ ¬ Braked cfg calls
        ∧ min ((dataSeqs (run cfg calls).2).length + 1) (2 ^ 32 - 1) - 1 - ackedOf calls
          < cfg.maxOutstanding := by
  have htaken : (dataSeqs (run cfg calls).2).length = framesTaken cfg calls := by
    simpa using congrArg List.length (numbers_run cfg calls).2
  have hpush : ((run cfg calls).1.pushFrame ts payload now).2.isSome = true
      ↔ (run cfg calls).1.canSend = true := by
    unfold pushFrame
    split <;> simp [*]
  rw [hpush, canSend, outstanding, htaken, ← (numbers_run cfg calls).1, ← ackedHighest_run cfg,
    ← paused_run, ← and_assoc, ← streaming_run, run_cfg]
  simp [and_assoc]

/-- **What a sender does, by what it has said and heard.** After any calls:
a tick gives up for want of an answer exactly when nothing has been
answered for too long after the first frame, for want of a confirmation
exactly when the end was announced too long ago, and sends a keepalive
exactly when neither holds, a keepalive interval has passed since the last
signal, and the sender waits for the confirmation or has the brake on. A
frame is taken exactly when the end has not been announced, the brake is
off, and fewer than the window's frames are beyond the highest one
acknowledged. A sender that is over does none of this. -/
theorem sender_decides (now : Instant) (ts : TimestampMs) (payload : Bytes) :
    let s := (run cfg calls).1
    let live := ¬ Over cfg calls ∧ ¬ Unanswered cfg calls now
    (.failed .noAck ∈ (s.tick now).2 ↔ ¬ Over cfg calls ∧ Unanswered cfg calls now)
      ∧ (.failed .finalizeTimeout ∈ (s.tick now).2
        ↔ live ∧ Ended cfg calls ∧ Late cfg calls now)
      ∧ ((∃ e ∈ (s.tick now).2, e.sends .keepalive = true)
        ↔ live ∧ SignalDue cfg calls now
          ∧ (Ended cfg calls ∧ ¬ Late cfg calls now ∨ ¬ Ended cfg calls ∧ Braked cfg calls))
      ∧ ((s.pushFrame ts payload now).2.isSome = true
        ↔ ¬ Over cfg calls ∧ ¬ Ended cfg calls ∧ ¬ Braked cfg calls
          ∧ min ((dataSeqs (run cfg calls).2).length + 1) (2 ^ 32 - 1) - 1 - ackedOf calls
            < cfg.maxOutstanding) :=
  ⟨noAck_iff cfg calls now, finalizeTimeout_iff cfg calls now, keepalive_iff cfg calls now,
    takes_iff cfg calls now ts payload⟩

end Run

end XferSender

end Protofish4
