import Protofish4.Tokio.Finish

/-!
# Whether a blocked call ends

A wait loop has no measure of its own. If nothing more comes from the sink
it ends when a timer of the state machine gives up, and which timer is set
depends on the state the loop starts in.
-/

namespace Protofish4

namespace XferSender

/-- A timer gives up at this reading of the clock. -/
def Due (x : XferSender) (now : Instant) : Prop :=
  (x.state ≠ .done ∧ x.gotAck = false
      ∧ ∃ first, x.firstDataAt = some first ∧ durationSince now first > x.cfg.firstAckTimeout)
    ∨ x.state = .finalizing
      ∧ ∃ started, x.finalizeAt = some started ∧ durationSince now started > x.cfg.finalizeTimeout

/-- Some timer is set that will give up. -/
def Armed (x : XferSender) : Prop :=
  (x.state ≠ .done ∧ x.gotAck = false ∧ x.firstDataAt.isSome)
    ∨ x.state = .finalizing ∧ x.finalizeAt.isSome

/-- The end of the payload is dated. -/
def Dated (x : XferSender) : Prop := x.state = .finalizing → x.finalizeAt.isSome

variable {x : XferSender} {now : Instant}

/-- A timer that gives up says so, and nothing else. -/
theorem tick_of_due (h : Due x now) : ∃ reason, (x.tick now).2 = [.failed reason] := by
  rcases h with ⟨hs, hack, first, hfirst, hlate⟩ | ⟨hs, started, hstarted, hlate⟩
  · refine ⟨.noAck, ?_⟩
    simp [tick, hs, hack, hfirst, hlate]
  · by_cases hno : x.gotAck = false ∧ (x.firstDataAt.any fun first =>
        durationSince now first > x.cfg.firstAckTimeout) = true
    · refine ⟨.noAck, ?_⟩
      rw [tick, if_neg (by simp [hs]), if_pos hno]
    · refine ⟨.finalizeTimeout, ?_⟩
      have hoff : x.tickPaused now = (x, []) := by simp [tickPaused, hs]
      rw [tick, if_neg (by simp [hs]), if_neg hno, Machine.andThen_snd, hoff]
      simp [tickFinalizing, hs, hstarted, hlate]

theorem tickFinalizing_of_not_late (h : x.state = .finalizing → ∀ started,
    x.finalizeAt = some started → durationSince now started ≤ x.cfg.finalizeTimeout) :
    (x.tickFinalizing now).1.state = x.state
      ∧ ∀ reason, .failed reason ∉ (x.tickFinalizing now).2 := by
  unfold tickFinalizing
  split
  · rename_i hs
    split
    · rename_i hany
      cases hf : x.finalizeAt with
      | none => simp [hf] at hany
      | some started =>
        simp only [hf, Option.any_some, decide_eq_true_eq] at hany
        exact absurd (h hs started hf) (Nat.not_le.mpr hany)
    · split
      · exact ⟨rfl, fun reason hm => by cases List.mem_singleton.mp hm⟩
      · exact ⟨rfl, fun reason hm => by cases hm⟩
  · exact ⟨rfl, fun reason hm => by cases hm⟩

/-- Else nothing gives up, and the sender stays in its state. -/
theorem tick_of_not_due (h : ¬ Due x now) :
    (x.tick now).1.state = x.state ∧ ∀ reason, .failed reason ∉ (x.tick now).2 := by
  unfold Due at h
  push Not at h
  obtain ⟨hack, hfin⟩ := h
  unfold tick
  split
  · exact ⟨rfl, fun reason hm => by cases hm⟩
  · rename_i hs
    have hno : ¬ (x.gotAck = false ∧ (x.firstDataAt.any fun first =>
        durationSince now first > x.cfg.firstAckTimeout) = true) := by
      rintro ⟨hg, hany⟩
      cases hf : x.firstDataAt with
      | none => simp [hf] at hany
      | some first =>
        simp only [hf, Option.any_some, decide_eq_true_eq] at hany
        exact absurd (hack hs hg first hf) (Nat.not_le.mpr hany)
    rw [if_neg hno]
    have hlate : (x.tickPaused now).1.state = .finalizing → ∀ started,
        (x.tickPaused now).1.finalizeAt = some started →
        durationSince now started ≤ (x.tickPaused now).1.cfg.finalizeTimeout := by
      rw [tickPaused_frame]
      exact hfin
    obtain ⟨hstate, hnone⟩ := tickFinalizing_of_not_late hlate
    refine ⟨?_, fun reason hm => ?_⟩
    · rw [Machine.andThen_fst, hstate, tickPaused_frame]
    · rcases Machine.mem_andThen.mp hm with hm | hm
      · obtain ⟨seq, body, heq⟩ := x.tickPaused_emits now hm
        cases heq
      · exact hnone reason hm

/-- Only `finish` starts finalizing, and it dates the end. -/
theorem dated_step (h : Dated x) (c : SendCall) : Dated (x.step c).1 := by
  cases c with
  | pushFrame ts payload now =>
    rcases x.pushFrame_cases now ts payload with ⟨heq, -⟩ | ⟨-, hstate, -⟩
    · simp only [step, heq]
      exact h
    · simp only [step, hstate]
      exact h
  | recordSealed seq datagram => exact h
  | finish now =>
    simp only [step, finish]
    split
    · exact h
    · exact fun _ => rfl
  | handle body now =>
    cases body with
    | endAck =>
      intro hs
      cases hs
    | data | «end» | ack | nack | keepalive => exact h
  | tick now =>
    by_cases hdue : Due x now
    · -- giving up leaves the state
      obtain ⟨reason, hout⟩ := tick_of_due hdue
      have hdone : (x.tick now).1.state = .done :=
        (x.concludes_tick now).done.mpr (Or.inr (Or.inr ⟨reason, by rw [hout]; simp⟩))
      intro hs
      cases hdone.symm.trans hs
    · intro hs
      have hkept : (x.tick now).1.state = x.state := (tick_of_not_due hdue).1
      show (x.tick now).1.finalizeAt.isSome
      rw [tick_frame]
      exact h (hkept.symm.trans hs)

/-- `x'` is `x` but for what keepalives move, and the ring. -/
def Still (x x' : XferSender) : Prop :=
  ∃ ring counter last, x' = { x with
    ring := ring
    controlCounter := counter
    lastKeepaliveAt := last }

variable {x' : XferSender}

theorem Still.due (h : Still x x') : Due x' now ↔ Due x now := by
  obtain ⟨ring, counter, last, rfl⟩ := h
  exact Iff.rfl

theorem Still.canSend (h : Still x x') : x'.canSend = x.canSend := by
  obtain ⟨ring, counter, last, rfl⟩ := h
  rfl

theorem Still.isDone (h : Still x x') : x'.isDone = x.isDone := by
  obtain ⟨ring, counter, last, rfl⟩ := h
  rfl

theorem tick_still (h : ¬ Due x now) : Still x (x.tick now).1 :=
  ⟨x.ring, (x.tick now).1.controlCounter, (x.tick now).1.lastKeepaliveAt, by
    rw [tick_frame, (tick_of_not_due h).1]⟩

theorem durationSince_gt {first : Instant} {d : Duration} (h : first + d + 1 ≤ now) :
    durationSince now first > d := by
  unfold durationSince
  have h' : (d : Int) + 1 ≤ now - first := by linarith
  exact (Int.lt_toNat).mpr (by linarith)

/-- A timer that is set gives up late enough. -/
theorem Armed.due (h : Armed x) : ∃ t : Instant, ∀ now, t ≤ now → Due x now := by
  rcases h with ⟨hs, hack, hfirst⟩ | ⟨hs, hstarted⟩
  · obtain ⟨first, hfirst⟩ := Option.isSome_iff_exists.mp hfirst
    exact ⟨first + x.cfg.firstAckTimeout + 1, fun now hle =>
      Or.inl ⟨hs, hack, first, hfirst, durationSince_gt hle⟩⟩
  · obtain ⟨started, hstarted⟩ := Option.isSome_iff_exists.mp hstarted
    exact ⟨started + x.cfg.finalizeTimeout + 1, fun now hle =>
      Or.inr ⟨hs, started, hstarted, durationSince_gt hle⟩⟩

theorem Due.armed (h : Due x now) : Armed x := by
  rcases h with ⟨hs, hack, first, hfirst, -⟩ | ⟨hs, started, hstarted, -⟩
  · exact Or.inl ⟨hs, hack, by rw [hfirst]; rfl⟩
  · exact Or.inr ⟨hs, by rw [hstarted]; rfl⟩

end XferSender

namespace Sender

open XferSender (Due Still Armed Dated)

/-- No packet from the sink is handled any more. -/
def Quiet (key : SessionKey) (rounds : Nat → Round) : Prop :=
  ∀ n, packetOf key (rounds n).incoming = none

/-- The clock at the ticks grows without bound. -/
def Unbounded (rounds : Nat → Round) : Prop := ∀ t : Instant, ∃ n, t ≤ (rounds n).tickNow

/-- The first rounds of an endless environment. -/
def firstRounds (rounds : Nat → Round) (n : Nat) : List Round := (List.range n).map rounds

theorem firstRounds_succ (rounds : Nat → Round) (n : Nat) :
    firstRounds rounds (n + 1) = rounds 0 :: firstRounds (fun k => rounds (k + 1)) n := by
  simp [firstRounds, List.range_succ_eq_map]

variable {s : Sender} {r : Round}

/-- A round in which no packet is handled is its tick. -/
theorem pumpRound_quiet (h : packetOf s.key r.incoming = none) (hne : r.incoming ≠ .failed) :
    s.pumpRound r = s.tickOnce r.tickNow r.tickFault := by
  have hquiet : s.handleOnce r.incoming r.now r.fault = ⟨s, [], .ok ()⟩ := by
    simp only [handleOnce, if_neg hne, h]
  simp only [pumpRound, pumpOnce, hquiet, Done.andThen, List.nil_append]

/-- A quiet round the loop goes on after: no timer has given up, and
nothing that matters has moved. -/
theorem pumpRound_quiet_ok (h : packetOf s.key r.incoming = none)
    (hok : (s.pumpRound r).result = .ok ()) :
    ¬ Due s.state r.tickNow ∧ Still s.state (s.pumpRound r).state.state := by
  have hne : r.incoming ≠ .failed := by
    intro heq
    simp [pumpRound, pumpOnce, handleOnce, heq, Done.andThen] at hok
  rw [pumpRound_quiet h hne] at hok ⊢
  have hnot : ¬ Due s.state r.tickNow := by
    intro hdue
    obtain ⟨reason, hout⟩ := XferSender.tick_of_due hdue
    have htells := (dispatch_tells { s with state := (s.state.tick r.tickNow).1 } r.tickFault
      (s.state.tick r.tickNow).2).2 reason
    rw [hout] at htells
    have herr := htells.mp (event_head_dispatch _ _ _ _)
    rw [← hout] at herr
    cases hok.symm.trans herr
  refine ⟨hnot, ?_⟩
  obtain ⟨ring, hring⟩ := dispatch_frame { s with state := (s.state.tick r.tickNow).1 } r.tickFault
    (s.state.tick r.tickNow).2
  obtain ⟨ring', counter, last, hstill⟩ := XferSender.tick_still hnot
  refine ⟨ring, counter, last, ?_⟩
  have hstate : (s.tickOnce r.tickNow r.tickFault).state.state
      = { (s.state.tick r.tickNow).1 with ring := ring } := by
    rw [tickOnce, hring]
  rw [hstate, hstill]

/-! ## Wait loops -/

/-- A loop around `pump_once` that is left in the states `Open`. -/
structure WaitLoop (loop : Sender → List Round → Progress) (Open : Sender → Prop) : Prop where
  opens : ∀ s r rs, Open s → (loop s (r :: rs)).result.isSome
  fails : ∀ s r rs e, ¬ Open s → (s.pumpRound r).result = .error e →
    (loop s (r :: rs)).result.isSome
  goes : ∀ s r rs, ¬ Open s → (s.pumpRound r).result = .ok () →
    (loop s (r :: rs)).result = (loop (s.pumpRound r).state rs).result

theorem waitLoop_sendFrame (ts : TimestampMs) (payload : Bytes) :
    WaitLoop (fun s => s.sendFrame ts payload) fun s => s.state.canSend = true where
  opens s r rs h := by simp [sendFrame, h]
  fails s r rs e h he := by
    unfold sendFrame
    rw [if_neg h, he]
    rfl
  goes s r rs h hok := by
    show (s.sendFrame ts payload (r :: rs)).result = _
    rw [sendFrame, if_neg h, hok]
    rfl

theorem waitLoop_finishLoop : WaitLoop finishLoop fun s => s.state.isDone = true where
  opens s r rs h := by simp [finishLoop, h]
  fails s r rs e h he := by
    unfold finishLoop
    rw [if_neg h, he]
    rfl
  goes s r rs h hok := by
    rw [finishLoop, if_neg h, hok]
    rfl

/-- **A loop ends** once a timer gives up, if not before. -/
theorem WaitLoop.ends {loop : Sender → List Round → Progress} {Open : Sender → Prop}
    (h : WaitLoop loop Open) (n : Nat) (s : Sender) (rounds : Nat → Round)
    (hquiet : Quiet s.key rounds) (hdue : Due s.state (rounds n).tickNow) :
    ∃ m, (loop s (firstRounds rounds m)).result.isSome := by
  induction n generalizing s rounds with
  | zero =>
    refine ⟨1, ?_⟩
    rw [firstRounds_succ]
    by_cases hopen : Open s
    · exact h.opens s _ _ hopen
    · cases hres : (s.pumpRound (rounds 0)).result with
      | error e => exact h.fails s _ _ e hopen hres
      | ok u => exact absurd hdue (pumpRound_quiet_ok (hquiet 0) hres).1
  | succ n ih =>
    by_cases hopen : Open s
    · exact ⟨1, by rw [firstRounds_succ]; exact h.opens s _ _ hopen⟩
    · cases hres : (s.pumpRound (rounds 0)).result with
      | error e => exact ⟨1, by rw [firstRounds_succ]; exact h.fails s _ _ e hopen hres⟩
      | ok u =>
        have hstill := (pumpRound_quiet_ok (hquiet 0) hres).2
        have hkey := (s.pumpRound_follows (rounds 0)).key
        obtain ⟨m, hm⟩ := ih (s.pumpRound (rounds 0)).state (fun k => rounds (k + 1))
          (fun k => by rw [hkey]; exact hquiet (k + 1)) (hstill.due.mpr hdue)
        refine ⟨m + 1, ?_⟩
        rw [firstRounds_succ, h.goes s _ _ hopen hres]
        exact hm

/-! ## Loops that do not end -/

/-- A keepalive that meets no fault goes out. -/
theorem dispatch_keepalives (s : Sender) (evs : List SendEvent)
    (h : ∀ e ∈ evs, ∃ seq lost, e = .emit seq (.keepalive lost)) :
    (s.dispatch none evs).result = .ok () := by
  induction evs generalizing s with
  | nil => rfl
  | cons e evs ih =>
    obtain ⟨seq, lost, rfl⟩ := h e List.mem_cons_self
    have hone : (s.dispatchOne none (.emit seq (.keepalive lost))).result = .ok () := by
      have henc : encodeBody (.keepalive lost) = .ok (u32Bytes lost.val) := rfl
      obtain ⟨d, hd⟩ : ∃ d, sealBody s.key s.requestId .send seq.val (.keepalive lost) = .ok d :=
        sealBody_isOk henc
      have hseal : (SealCall.run s.key ⟨.keepalive, s.requestId, seq.val⟩ .send
          (u32Bytes lost.val)).result = .ok d := hd
      simp only [dispatchOne, emit, encodeBody, Body.kind, hseal]
      rfl
    have hrest := ih (s.dispatchOne none (.emit seq (.keepalive lost))).state
      fun e he => h e (List.mem_cons_of_mem _ he)
    simp only [dispatch, Done.andThen, Done.after, hone, Option.map_none]
    exact hrest

theorem pumpRound_quietRound {now : Instant} (h : ¬ Due s.state now) :
    (s.pumpRound (quietRound now)).result = .ok () := by
  rw [pumpRound_quiet rfl (by simp [quietRound])]
  refine dispatch_keepalives _ _ fun e he => ?_
  rcases s.state.tick_events now he with ⟨seq, heq⟩ | ⟨reason, heq⟩
  · exact ⟨seq, _, heq⟩
  · subst heq
    exact absurd he ((XferSender.tick_of_not_due h).2 reason)

/-- A closed window and no timer: the loop of `send_frame` goes on. -/
theorem sendFrame_waits (ts : TimestampMs) (payload : Bytes) (times : List Instant)
    (hclosed : s.state.canSend = false) (hnot : ¬ Armed s.state) :
    (s.sendFrame ts payload (times.map quietRound)).result = none := by
  induction times generalizing s with
  | nil => rfl
  | cons now times ih =>
    have hdue : ¬ Due s.state now := fun hdue => hnot hdue.armed
    have hok := pumpRound_quietRound hdue
    have hstill := (pumpRound_quiet_ok (r := quietRound now) rfl hok).2
    rw [List.map_cons, (waitLoop_sendFrame ts payload).goes s _ _ (by simp [hclosed]) hok]
    refine ih (hstill.canSend.trans hclosed) ?_
    obtain ⟨ring, counter, last, heq⟩ := hstill
    rw [heq]
    exact hnot

/-! ## Blocked calls -/

/-- The wait loop of every call of `send_frame` ends. -/
def SendFrameEnds (s : Sender) : Prop :=
  ∀ rounds, Quiet s.key rounds → Unbounded rounds → ∀ ts payload,
    ∃ n, (s.sendFrame ts payload (firstRounds rounds n)).result.isSome

/-- The wait loop of every call of `finish` ends. -/
def FinishEnds (s : Sender) : Prop :=
  ∀ rounds, Quiet s.key rounds → Unbounded rounds → ∀ now fault,
    ∃ n, (s.finish now fault (firstRounds rounds n)).result.isSome

theorem WaitLoop.ends_of_armed {loop : Sender → List Round → Progress} {Open : Sender → Prop}
    (h : WaitLoop loop Open) (harmed : Armed s.state) {rounds : Nat → Round}
    (hquiet : Quiet s.key rounds) (hclock : Unbounded rounds) :
    ∃ n, (loop s (firstRounds rounds n)).result.isSome := by
  obtain ⟨t, ht⟩ := harmed.due
  obtain ⟨n, hn⟩ := hclock t
  exact h.ends n s rounds hquiet (ht _ hn)

/-- With one second a round and nothing else, it may not. -/
theorem not_sendFrameEnds (hclosed : s.state.canSend = false) (hnot : ¬ Armed s.state) :
    ¬ SendFrameEnds s := by
  intro hends
  have hclock : Unbounded fun k => quietRound (fromSecs k) := by
    intro t
    refine ⟨t.toNat, ?_⟩
    have hle := Int.self_le_toNat t
    show t ≤ ((t.toNat * 1000000000 : Nat) : Int)
    push_cast
    linarith [Int.natCast_nonneg t.toNat]
  obtain ⟨n, hn⟩ := hends _ (fun _ => rfl) hclock ⟨0⟩ []
  have hwaits := sendFrame_waits ⟨0⟩ [] ((List.range n).map fun k : Nat => (fromSecs k : Instant))
    hclosed hnot
  rw [List.map_map] at hwaits
  change (s.sendFrame ⟨0⟩ [] ((List.range n).map fun k => quietRound (fromSecs k))).result = none
    at hwaits
  rw [firstRounds, hwaits] at hn
  cases hn

/-- `finish` always ends: it dates the end of the payload itself. -/
theorem finish_ends (hdated : Dated s.state) : FinishEnds s := by
  intro rounds hquiet hclock now fault
  have hstep := s.step_follows (.finish now fault)
  have hdated' : Dated (s.finishOnce now fault).state.state :=
    hstep.keeps Dated (fun x c hx => XferSender.dated_step hx c) hdated
  have hnot : (s.finishOnce now fault).state.state.state ≠ .streaming := by
    obtain ⟨ring, hring⟩ := dispatch_frame { s with state := (s.state.finish now).1 } fault
      (s.state.finish now).2.toList
    rw [finishOnce, hring]
    rcases s.state.finish_cases now with ⟨heq, hs⟩ | ⟨-, hs, -⟩
    · simp only [heq]
      exact hs
    · simp only [hs]
      decide
  cases hres : (s.finishOnce now fault).result with
  | error e => exact ⟨0, by simp [finish, hres]⟩
  | ok u =>
    simp only [finish, hres]
    cases hstate : (s.finishOnce now fault).state.state.state with
    | streaming => exact absurd hstate hnot
    | done => exact ⟨0, by simp [firstRounds, finishLoop, XferSender.isDone, hstate]⟩
    | finalizing =>
      refine waitLoop_finishLoop.ends_of_armed (Or.inr ⟨hstate, hdated' hstate⟩) ?_ hclock
      rw [show (s.finishOnce now fault).state.key = s.key from hstep.key]
      exact hquiet

/-- **Blocked calls, exactly.** On a reachable sender whose window is
closed, with nothing more from the sink and a clock without bound, both
wait loops end, if and only if it is finalizing, or it is streaming, has
sent a frame and has not heard from the sink at all. -/
theorem blocked_ends_iff (peer : SocketAddr) (id : RequestId) (key : SessionKey)
    (cfg : SenderConfig) (steps : List Step)
    (hblocked : ((connect peer id key cfg).run steps).1.state.canSend = false) :
    let s := ((connect peer id key cfg).run steps).1
    SendFrameEnds s ∧ FinishEnds s ↔ s.state.state = .finalizing
      ∨ s.state.state = .streaming ∧ s.state.gotAck = false ∧ s.state.firstDataAt.isSome := by
  intro s
  have hdated : Dated s.state :=
    (run_follows (connect peer id key cfg) steps).keeps Dated
      (fun x c hx => XferSender.dated_step hx c) fun h => by cases h
  have harmed : Armed s.state ↔ s.state.state = .finalizing
      ∨ s.state.state = .streaming ∧ s.state.gotAck = false ∧ s.state.firstDataAt.isSome := by
    unfold XferSender.Armed
    cases hs : s.state.state with
    | streaming => simp
    | finalizing => simp [hdated hs]
    | done => simp
  rw [← harmed]
  constructor
  · rintro ⟨hends, -⟩
    by_contra hnot
    exact not_sendFrameEnds hblocked hnot hends
  · intro h
    exact ⟨fun rounds hquiet hclock ts payload =>
      (waitLoop_sendFrame ts payload).ends_of_armed h hquiet hclock, finish_ends hdated⟩

/-- A window of two frames is full, and no acknowledgement has come. -/
theorem blocked_ends_iff_full :
    let s := ((connect ⟨[127, 0, 0, 1], 4000⟩ zeroId plainKey { maxOutstanding := 2 }).run
      [.push ⟨0⟩ [7] 0 none, .push ⟨20⟩ [8] 1 none, .pump .timeout 2 2 none none]).1
    s.state.outstanding = 2 ∧ SendFrameEnds s ∧ FinishEnds s :=
  ⟨by decide +kernel, (blocked_ends_iff ⟨[127, 0, 0, 1], 4000⟩ zeroId plainKey
    { maxOutstanding := 2 } [.push ⟨0⟩ [7] 0 none, .push ⟨20⟩ [8] 1 none,
      .pump .timeout 2 2 none none] (by decide +kernel)).mpr (by decide +kernel)⟩

/-- A window of one frame: frame 1 goes out and is acknowledged, frame 2
goes out, and the sink is never heard of again. -/
def deadSinkSteps : List Step :=
  [.push ⟨0⟩ [7] 0 none,
    .pump (.datagram ((sealBody plainKey zeroId .recv 0 (.ack ⟨1⟩ ⟨1⟩ 0)).toOption.getD [])) 1 1
      none none,
    .push ⟨20⟩ [8] 2 none]

/-- The next `send_frame` never returns, and neither does one on a sender
that has given up. -/
theorem dead_sink_blocks_forever :
    let peer : SocketAddr := ⟨[127, 0, 0, 1], 4000⟩
    let s := ((connect peer zeroId plainKey { maxOutstanding := 1 }).run deadSinkSteps).1
    let done := ((connect peer zeroId plainKey {}).run [.push ⟨0⟩ [7] 0 none,
      .pump .timeout (fromSecs 3) (fromSecs 3) none none]).1
    (s.state.canSend = false ∧ ¬ SendFrameEnds s) ∧ done.state.canSend = false
      ∧ ¬ SendFrameEnds done := by
  intro peer s done
  have hs : s.state.canSend = false := by decide +kernel
  have hdone : done.state.canSend = false := by decide +kernel
  refine ⟨⟨hs, not_sendFrameEnds hs ?_⟩, hdone, not_sendFrameEnds hdone ?_⟩
  · unfold XferSender.Armed
    decide +kernel
  · unfold XferSender.Armed
    decide +kernel

end Sender

end Protofish4
