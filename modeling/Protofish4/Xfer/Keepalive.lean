import Protofish4.Xfer.Silence

/-!
# A held sender makes itself heard

A sender that is paused, or waits for the end to be confirmed, has nothing
to send, and one timestamp decides when it next says so: the time of its
last keepalive, which may be left over from an earlier pause. It never lies
ahead of the clock, so a tick that comes a full interval into the silence
finds the keepalive due, whatever happened before.
-/

namespace Protofish4

/-- When a call is made; sealed bytes are handed back at no time of their own. -/
def SendCall.time : SendCall → Option Instant
  | .pushFrame _ _ now => some now
  | .recordSealed .. => none
  | .finish now => some now
  | .handle _ now => some now
  | .tick now => some now

def SendCall.isTick : SendCall → Bool
  | .tick _ => true
  | _ => false

/-- An `Emit` or a `Failed`. -/
def SendEvent.isHeard : SendEvent → Bool
  | .emit .. => true
  | .failed _ => true
  | .resend _ => false
  | .completed => false

namespace XferSender

/-! ## Runs in time -/

/-- The clock does not go back. -/
def Steady (calls : List SendCall) : Prop :=
  calls.Pairwise fun c c' => ∀ t ∈ c.time, ∀ t' ∈ c'.time, t ≤ t'

/-- These calls up to the next tick, which is the last of them. -/
def untilTick : List SendCall → List SendCall
  | [] => []
  | c :: calls => if c.isTick then [c] else c :: untilTick calls

/-- No call is followed by more than `d` without a tick. -/
def Ticked (d : Duration) : List SendCall → Prop
  | [] => True
  | c :: calls =>
    (∀ c' ∈ untilTick calls, ∀ t ∈ c.time, ∀ t' ∈ c'.time, t' ≤ t + d) ∧ Ticked d calls

/-- Paused while streaming, or waiting for the end to be confirmed. -/
def IsHeld (s : XferSender) : Prop := s.state = .streaming ∧ s.paused = true ∨ s.state = .finalizing

/-- Held before and after each of these calls, which make nothing heard. -/
def Quiet (s : XferSender) : List SendCall → Prop
  | [] => s.IsHeld
  | c :: calls => s.IsHeld ∧ (∀ e ∈ (s.step c).2, e.isHeard = false) ∧ Quiet (s.step c).1 calls

instance (calls : List SendCall) : Decidable (Steady calls) :=
  inferInstanceAs (Decidable
    (calls.Pairwise fun c c' => ∀ t ∈ c.time, ∀ t' ∈ c'.time, t ≤ t'))

instance decidableTicked (d : Duration) : (calls : List SendCall) → Decidable (Ticked d calls)
  | [] => isTrue trivial
  | c :: calls =>
    have := decidableTicked d calls
    inferInstanceAs (Decidable ((∀ c' ∈ untilTick calls, ∀ t ∈ c.time, ∀ t' ∈ c'.time, t' ≤ t + d)
      ∧ Ticked d calls))

instance (s : XferSender) : Decidable s.IsHeld :=
  inferInstanceAs (Decidable (s.state = .streaming ∧ s.paused = true ∨ s.state = .finalizing))

instance decidableQuiet : (s : XferSender) → (calls : List SendCall) → Decidable (Quiet s calls)
  | s, [] => inferInstanceAs (Decidable s.IsHeld)
  | s, c :: calls =>
    have := decidableQuiet (s.step c).1 calls
    inferInstanceAs (Decidable (s.IsHeld ∧ (∀ e ∈ (s.step c).2, e.isHeard = false)
      ∧ Quiet (s.step c).1 calls))

variable {s : XferSender} {calls : List SendCall}

theorem mem_untilTick {mid : List SendCall} (hmid : ∀ c ∈ mid, c.isTick = false) (c : SendCall)
    (after : List SendCall) : c ∈ untilTick (mid ++ c :: after) := by
  induction mid with
  | nil =>
    show c ∈ if c.isTick then [c] else c :: untilTick after
    split <;> exact List.mem_cons_self
  | cons m mid ih =>
    have hm : m.isTick = false := hmid m List.mem_cons_self
    show c ∈ if m.isTick then [m] else m :: untilTick (mid ++ c :: after)
    rw [if_neg (by simp [hm])]
    exact List.mem_cons_of_mem m (ih fun x hx => hmid x (List.mem_cons_of_mem m hx))

/-- Where no tick comes in between, at most `d` passes. -/
theorem Ticked.le {d : Duration} {before mid after : List SendCall} {c c' : SendCall}
    (h : Ticked d (before ++ c :: (mid ++ c' :: after))) (hmid : ∀ m ∈ mid, m.isTick = false)
    {t t' : Instant} (ht : c.time = some t) (ht' : c'.time = some t') : t' ≤ t + d := by
  induction before with
  | nil => exact h.1 c' (mem_untilTick hmid c' after) t ht t' ht'
  | cons b before ih => exact ih h.2

/-! ## The keepalive clock -/

/-- A keepalive is heard, and notes its time. -/
theorem keepalive_heard (s : XferSender) (now : Instant) :
    (s.keepalive now).1.lastKeepaliveAt = some now ∧ ∃ e ∈ (s.keepalive now).2, e.isHeard = true :=
  ⟨rfl, _, List.mem_singleton_self _, rfl⟩

theorem tickPaused_clock (s : XferSender) (now : Instant) :
    (s.tickPaused now).1.lastKeepaliveAt = s.lastKeepaliveAt
      ∨ (s.tickPaused now).1.lastKeepaliveAt = some now
        ∧ ∃ e ∈ (s.tickPaused now).2, e.isHeard = true := by
  unfold tickPaused
  split
  · split
    · split
      · exact Or.inr (keepalive_heard s now)
      · exact Or.inl rfl
    · exact Or.inr (keepalive_heard s now)
  · exact Or.inl rfl

theorem tickFinalizing_clock (s : XferSender) (now : Instant) :
    (s.tickFinalizing now).1.lastKeepaliveAt = s.lastKeepaliveAt
      ∨ (s.tickFinalizing now).1.lastKeepaliveAt = some now
        ∧ ∃ e ∈ (s.tickFinalizing now).2, e.isHeard = true := by
  unfold tickFinalizing
  split
  · split
    · exact Or.inl rfl
    · split
      · exact Or.inr (keepalive_heard s now)
      · exact Or.inl rfl
  · exact Or.inl rfl

theorem tick_clock (s : XferSender) (now : Instant) :
    (s.tick now).1.lastKeepaliveAt = s.lastKeepaliveAt
      ∨ (s.tick now).1.lastKeepaliveAt = some now ∧ ∃ e ∈ (s.tick now).2, e.isHeard = true := by
  unfold tick
  split
  · exact Or.inl rfl
  · split
    · exact Or.inl rfl
    · rw [Machine.andThen_fst, Machine.andThen_snd]
      rcases tickFinalizing_clock (s.tickPaused now).1 now with hsame | ⟨hset, e, he, hheard⟩
      · rw [hsame]
        rcases tickPaused_clock s now with hsame | ⟨hset, e, he, hheard⟩
        · exact Or.inl hsame
        · exact Or.inr ⟨hset, e, List.mem_append_left _ he, hheard⟩
      · exact Or.inr ⟨hset, e, List.mem_append_right _ he, hheard⟩

/-- `finish` does nothing, or sets the clock and announces the end. -/
theorem finish_clock (s : XferSender) (now : Instant) : s.finish now = (s, none)
    ∨ (s.finish now).1.lastKeepaliveAt = some now
      ∧ ∃ e ∈ (s.finish now).2, e.isHeard = true := by
  unfold finish
  split
  · exact Or.inl rfl
  · exact Or.inr ⟨rfl, _, rfl, rfl⟩

/-- A call leaves the time of the last keepalive, or sets it to its own
time and makes something heard. -/
theorem step_clock (s : XferSender) (c : SendCall) :
    (s.step c).1.lastKeepaliveAt = s.lastKeepaliveAt
      ∨ (∃ now, c.time = some now ∧ (s.step c).1.lastKeepaliveAt = some now)
        ∧ ∃ e ∈ (s.step c).2, e.isHeard = true := by
  cases c with
  | pushFrame ts payload now =>
    left
    rcases s.pushFrame_cases now ts payload with ⟨heq, -⟩ | ⟨-, hstate, -⟩
    · simp only [step, heq]
    · simp only [step, hstate]
  | recordSealed seq datagram => exact Or.inl rfl
  | finish now =>
    rcases finish_clock s now with heq | ⟨hset, e, he, hheard⟩
    · left
      simp only [step, heq]
    · exact Or.inr ⟨⟨now, rfl, hset⟩, e, Option.mem_toList.mpr he, hheard⟩
  | handle body now =>
    left
    show (s.handle body now).1.lastKeepaliveAt = _
    rw [handle_frame]
  | tick now =>
    rcases tick_clock s now with hsame | ⟨hset, hheard⟩
    · exact Or.inl hsame
    · exact Or.inr ⟨⟨now, rfl, hset⟩, hheard⟩

/-- What the keepalive clock of a run knows: it shows the time of one of
its calls, and it is set before the sender waits for the end. -/
structure Clocked (calls : List SendCall) (s : XferSender) : Prop where
  past : ∀ last, s.lastKeepaliveAt = some last → ∃ c ∈ calls, c.time = some last
  armed : s.state = .finalizing → s.lastKeepaliveAt ≠ none

/-- `finish` is the only way into the wait, and sets the clock. -/
theorem finalizing_step {c : SendCall} (h : (s.step c).1.state = .finalizing) :
    s.state = .finalizing ∨ (s.step c).1.lastKeepaliveAt ≠ none := by
  cases c with
  | pushFrame ts payload now =>
    left
    rcases s.pushFrame_cases now ts payload with ⟨heq, -⟩ | ⟨-, hstate, -⟩
    · simpa only [step, heq] using h
    · simpa only [step, hstate] using h
  | recordSealed seq datagram => exact Or.inl h
  | finish now =>
    rcases finish_clock s now with heq | ⟨hset, -⟩
    · left
      simpa only [step, heq] using h
    · right
      show (s.finish now).1.lastKeepaliveAt ≠ none
      simp [hset]
  | handle body now =>
    left
    cases body with
    | endAck => cases h
    | data | «end» | ack | nack | keepalive => exact h
  | tick now =>
    left
    by_contra hs
    have hp : (s.tickPaused now).1.state ≠ .finalizing := by
      rw [tickPaused_frame]
      exact hs
    have hoff : (s.tickPaused now).1.tickFinalizing now = ((s.tickPaused now).1, []) := by
      rw [tickFinalizing, if_neg hp]
    change (s.tick now).1.state = .finalizing at h
    unfold tick at h
    split at h
    · exact hs h
    · split at h
      · cases h
      · rw [Machine.andThen_fst, hoff] at h
        exact hp h

theorem clocked_run (cfg : SenderConfig) (calls : List SendCall) :
    Clocked calls (run cfg calls).1 := by
  induction calls using List.reverseRecOn with
  | nil =>
    constructor
    · intro last h
      cases h
    · intro h
      cases h
  | append_singleton calls c ih =>
    rw [run_concat, Machine.andThen_fst]
    rcases step_clock (run cfg calls).1 c with hsame | ⟨⟨now, htime, hset⟩, -⟩
    · refine ⟨fun last h => ?_, fun h => ?_⟩
      · obtain ⟨c', hc', ht⟩ := ih.past last (hsame ▸ h)
        exact ⟨c', List.mem_append_left _ hc', ht⟩
      · rcases finalizing_step h with hold | hnew
        · rw [hsame]
          exact ih.armed hold
        · exact hnew
    · refine ⟨fun last h => ⟨c, by simp, ?_⟩, fun _ => by simp [hset]⟩
      rw [hset] at h
      rw [htime, h]

/-- **A tick that finds the keepalive due makes a held sender heard**, by a
keepalive or by its giving up. -/
theorem tick_heard {now : Instant} (hheld : s.IsHeld)
    (harmed : s.state = .finalizing → s.lastKeepaliveAt ≠ none)
    (hdue : ∀ last, s.lastKeepaliveAt = some last →
      s.cfg.tailKeepaliveInterval ≤ durationSince now last) :
    ∃ e ∈ (s.tick now).2, e.isHeard = true := by
  have hnot : s.state ≠ .done := by
    rcases hheld with ⟨hs, -⟩ | hs <;> simp [hs]
  unfold tick
  rw [if_neg hnot]
  split
  · exact ⟨_, List.mem_singleton_self _, rfl⟩
  · rw [Machine.andThen_snd]
    rcases hheld with hpaused | hs
    · -- held by a pause
      have hheard : ∃ e ∈ (s.tickPaused now).2, e.isHeard = true := by
        rw [tickPaused, if_pos hpaused]
        cases hlast : s.lastKeepaliveAt with
        | none => exact (keepalive_heard s now).2
        | some last =>
          show ∃ e ∈ (if durationSince now last ≥ _ then s.keepalive now else (s, [])).2, _
          rw [if_pos (hdue last hlast)]
          exact (keepalive_heard s now).2
      obtain ⟨e, he, hheard⟩ := hheard
      exact ⟨e, List.mem_append_left _ he, hheard⟩
    · -- waiting for the end
      have hoff : s.tickPaused now = (s, []) := by simp [tickPaused, hs]
      rw [hoff, List.nil_append, tickFinalizing, if_pos hs]
      split
      · exact ⟨_, List.mem_singleton_self _, rfl⟩
      · obtain ⟨last, hlast⟩ := Option.ne_none_iff_exists'.mp (harmed hs)
        rw [if_pos (by rw [hlast]; exact decide_eq_true (hdue last hlast))]
        exact (keepalive_heard s now).2

/-! ## Quiet stretches -/

theorem step_cfg (s : XferSender) (c : SendCall) : (s.step c).1.cfg = s.cfg := by
  cases c with
  | pushFrame ts payload now =>
    rcases s.pushFrame_cases now ts payload with ⟨heq, -⟩ | ⟨-, hstate, -⟩
    · simp only [step, heq]
    · simp only [step, hstate]
  | recordSealed seq datagram => rfl
  | finish now =>
    show (s.finish now).1.cfg = s.cfg
    unfold finish
    split <;> rfl
  | handle body now =>
    show (s.handle body now).1.cfg = s.cfg
    rw [handle_frame]
  | tick now =>
    show (s.tick now).1.cfg = s.cfg
    rw [tick_frame]

theorem run_cfg (cfg : SenderConfig) (calls : List SendCall) : (run cfg calls).1.cfg = cfg :=
  Machine.run_invariant step (fun s => s.cfg = cfg) rfl
    (fun s c h => (step_cfg s c).trans h) calls

theorem run_append_fst (cfg : SenderConfig) (before calls : List SendCall) :
    (run cfg (before ++ calls)).1 = (Machine.run step (run cfg before).1 calls).1 := by
  rw [run, run, Machine.run_append]
  rfl

/-- Up to a call in a quiet stretch the clock stands still, and the call
finds the sender held and makes nothing heard. -/
theorem Quiet.at {before after : List SendCall} {c : SendCall}
    (h : Quiet s (before ++ c :: after)) :
    (Machine.run step s before).1.IsHeld
      ∧ (Machine.run step s before).1.lastKeepaliveAt = s.lastKeepaliveAt
      ∧ ∀ e ∈ ((Machine.run step s before).1.step c).2, e.isHeard = false := by
  induction before generalizing s with
  | nil => exact ⟨h.1, rfl, h.2.1⟩
  | cons b before ih =>
    obtain ⟨-, hsilent, hrest⟩ := h
    obtain ⟨hheld, hclock, hout⟩ := ih hrest
    refine ⟨hheld, hclock.trans ?_, hout⟩
    rcases step_clock s b with hsame | ⟨-, e, he, hheard⟩
    · exact hsame
    · rw [hsilent e he] at hheard
      cases hheard

/-- The last tick of a list of calls, if there is one. -/
theorem exists_last_tick (calls : List SendCall) : (∀ c ∈ calls, c.isTick = false)
    ∨ ∃ before now after, calls = before ++ .tick now :: after ∧ ∀ c ∈ after, c.isTick = false := by
  induction calls with
  | nil => exact Or.inl fun c hc => by cases hc
  | cons c calls ih =>
    rcases ih with hnone | ⟨before, now, after, rfl, hafter⟩
    · cases c with
      | tick now => exact Or.inr ⟨[], now, calls, rfl, hnone⟩
      | pushFrame | recordSealed | finish | handle =>
        refine Or.inl fun x hx => ?_
        rcases List.mem_cons.mp hx with rfl | hx
        · rfl
        · exact hnone x hx
    · exact Or.inr ⟨c :: before, now, after, rfl, hafter⟩

/-- **A held sender is never silent for long.** From a call after which it
is held, to any later call up to which it stays held and nothing is heard,
no more than the keepalive interval and the time between ticks passes. The
first call may start the period or be one that is heard in it, the last may
be the next that is heard or end the period. -/
theorem held_never_silent_long (cfg : SenderConfig) (d : Duration) (calls : List SendCall)
    (hsteady : Steady calls) (hticked : Ticked d calls) (before mid after : List SendCall)
    (first last : SendCall) (hcalls : calls = before ++ first :: (mid ++ last :: after))
    (hquiet : Quiet (run cfg (before ++ [first])).1 mid) (t t' : Instant)
    (hfirst : first.time = some t) (hlast : last.time = some t') :
    t' ≤ t + (cfg.tailKeepaliveInterval + d : Nat) := by
  subst hcalls
  rcases exists_last_tick mid with hnone | ⟨m, now, m', rfl, hm'⟩
  · have hle := hticked.le hnone hfirst hlast
    push_cast
    linarith [Int.natCast_nonneg cfg.tailKeepaliveInterval]
  · -- after the last tick in between, `d` is left
    have hle : t' ≤ now + d := by
      have hsplit : before ++ first :: ((m ++ .tick now :: m') ++ last :: after)
          = (before ++ first :: m) ++ .tick now :: (m' ++ last :: after) := by simp
      rw [hsplit] at hticked
      exact hticked.le hm' rfl hlast
    obtain ⟨hheld, hclock, hsilent⟩ := hquiet.at
    have hclocked := clocked_run cfg (before ++ first :: m)
    have hrun : (Machine.run step (run cfg (before ++ [first])).1 m).1
        = (run cfg (before ++ first :: m)).1 := by
      rw [← run_append_fst, List.append_assoc, List.singleton_append]
    rw [hrun] at hheld hclock hsilent
    -- the clock shows a time not after `first`
    have hold : ∀ l, (run cfg (before ++ first :: m)).1.lastKeepaliveAt = some l → l ≤ t := by
      intro l hl
      rw [hclock] at hl
      obtain ⟨c, hc, htime⟩ := (clocked_run cfg (before ++ [first])).past l hl
      rcases List.mem_append.mp hc with hc | hc
      · exact (List.pairwise_append.mp hsteady).2.2 c hc first List.mem_cons_self l htime t hfirst
      · rw [List.mem_singleton.mp hc, hfirst] at htime
        cases htime
        exact le_refl _
    have hnow : now < t + (cfg.tailKeepaliveInterval : Int) := by
      by_contra hge
      obtain ⟨e, he, hheard⟩ := @tick_heard _ now hheld hclocked.armed fun l hl => by
        rw [run_cfg]
        exact le_durationSince ((Int.add_le_add_right (hold l hl) _).trans (not_lt.mp hge))
      rw [hsilent e he] at hheard
      cases hheard
    push_cast
    linarith

/-- The receiver's buffer fills up, empties and fills up again. -/
def pausedTwice : List SendCall :=
  [.handle (.ack .first .first 10000) 0, .tick (fromSecs 2), .handle (.ack .first .first 0)
    (fromSecs 3),
    .tick (fromSecs 4), .handle (.ack .first .first 10000) (fromSecs 5)]

/-- The second pause starts with the keepalive of the first on the clock. -/
theorem held_never_silent_long_paused_twice :
    Quiet (run {} pausedTwice).1 [.tick (fromSecs 6)]
      ∧ (fromSecs 8 : Int) ≤ fromSecs 5 + (fromSecs 5 + fromSecs 2 : Nat) :=
  ⟨by decide +kernel, held_never_silent_long {} (fromSecs 2)
    (pausedTwice ++ [.tick (fromSecs 6), .tick (fromSecs 8)]) (by decide +kernel)
    (by decide +kernel)
    pausedTwice.dropLast [.tick (fromSecs 6)] [] (.handle (.ack .first .first 10000) (fromSecs 5))
    (.tick (fromSecs 8)) rfl (by decide +kernel) _ _ rfl rfl⟩

end XferSender

end Protofish4
