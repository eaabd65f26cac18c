import Protofish4.Tokio.Calls

/-!
# What `finish` says

`XferSender` reports its end in two events: `Completed` when an `EndAck`
is handled, `Failed` when a timer gives up. A call passes a failure on as
its error. The state `Done` no longer tells them apart, and it is all that
`finish` looks at.
-/

namespace Protofish4

namespace Sender

/-! ## What dispatching does -/

/-- `s'` is `s` but for what the ring holds. -/
def SameButRing (s s' : Sender) : Prop :=
  ∃ ring, s' = { s with state := { s.state with ring := ring } }

theorem SameButRing.refl (s : Sender) : SameButRing s s := ⟨s.state.ring, rfl⟩

theorem SameButRing.trans {s s' s'' : Sender} (h : SameButRing s s') (h' : SameButRing s' s'') :
    SameButRing s s'' := by
  obtain ⟨ring, rfl⟩ := h
  obtain ⟨ring', rfl⟩ := h'
  exact ⟨ring', rfl⟩

theorem dispatchOne_frame (s : Sender) (fault : Option Nat) (ev : SendEvent) :
    SameButRing s (s.dispatchOne fault ev).state := by
  cases ev with
  | emit seq body =>
    simp only [dispatchOne, emit]
    split
    · exact .refl s
    · split
      · exact .refl s
      · split
        · exact .refl s
        · split
          · exact ⟨_, rfl⟩
          · exact .refl s
  | resend datagrams =>
    simp only [dispatchOne, resend]
    split
    · exact .refl s
    · split <;> exact .refl s
  | completed => exact .refl s
  | failed reason => cases reason <;> exact .refl s

/-- Dispatching may put datagrams into the ring, and that is all it does to
the sender. -/
theorem dispatch_frame (s : Sender) (fault : Option Nat) (evs : List SendEvent) :
    SameButRing s (s.dispatch fault evs).state := by
  induction evs generalizing s fault with
  | nil => exact .refl s
  | cons ev evs ih =>
    simp only [dispatch, Done.andThen]
    split
    · exact (dispatchOne_frame s fault ev).trans (ih _ _)
    · exact dispatchOne_frame s fault ev

theorem event_mem_dispatchOne {s : Sender} {fault : Option Nat} {e ev : SendEvent} :
    .event ev ∉ (s.dispatchOne fault e).effects := by
  cases e with
  | emit seq body =>
    simp only [dispatchOne, emit]
    split
    · simp
    · split
      · simp
      · split <;> simp
  | resend datagrams =>
    have hsent : ∀ l : List Bytes, Effect.event ev ∉ l.map .sent := fun l hm => by
      obtain ⟨_, -, heq⟩ := List.mem_map.mp hm
      cases heq
    simp only [dispatchOne, resend]
    split
    · exact hsent _
    · split <;> exact hsent _
  | completed => simp [dispatchOne]
  | failed reason => cases reason <;> simp [dispatchOne]

theorem event_mem_dispatch {s : Sender} {fault : Option Nat} {evs : List SendEvent}
    {ev : SendEvent} (h : .event ev ∈ (s.dispatch fault evs).effects) : ev ∈ evs := by
  induction evs generalizing s fault with
  | nil => cases h
  | cons e evs ih =>
    have hhead : .event ev ∈ ((s.dispatchOne fault e).after (.event e)).effects → ev = e := by
      intro hm
      rcases List.mem_cons.mp hm with hm | hm
      · exact Effect.event.inj hm
      · exact absurd hm event_mem_dispatchOne
    simp only [dispatch, Done.andThen] at h
    split at h
    · rcases List.mem_append.mp h with h | h
      · exact List.mem_cons.mpr (Or.inl (hhead h))
      · exact List.mem_cons_of_mem e (ih h)
    · exact List.mem_cons.mpr (Or.inl (hhead h))

/-- The first event is always taken up. -/
theorem event_head_dispatch (s : Sender) (fault : Option Nat) (ev : SendEvent)
    (evs : List SendEvent) : .event ev ∈ (s.dispatch fault (ev :: evs)).effects := by
  simp only [dispatch, Done.andThen]
  split
  · exact List.mem_append_left _ List.mem_cons_self
  · exact List.mem_cons_self

/-! ## Failures are errors -/

/-- The error a failure is passed on as. -/
def errorOf (peer : SocketAddr) : SendFailure → CallError
  | .noAck => .noAck peer
  | .finalizeTimeout => .finalizeTimeout

/-- The failure events of a call are its error. -/
def Tells (peer : SocketAddr) (d : Done) : Prop :=
  d.state.peer = peer
    ∧ ∀ reason, .event (.failed reason) ∈ d.effects ↔ d.result = .error (errorOf peer reason)

theorem Tells.andThen {peer : SocketAddr} {d : Done} {f : Sender → Done} (h : Tells peer d)
    (hf : ∀ s : Sender, s.peer = peer → Tells peer (f s)) : Tells peer (d.andThen f) := by
  obtain ⟨hp, he⟩ := h
  unfold Done.andThen
  cases hres : d.result with
  | ok u =>
    obtain ⟨hp', he'⟩ := hf d.state hp
    refine ⟨hp', fun reason => ?_⟩
    have hno : .event (.failed reason) ∉ d.effects := by
      rw [he, hres]
      simp
    simp only [List.mem_append, hno, false_or, he']
  | error err =>
    refine ⟨hp, fun reason => ?_⟩
    rw [he, hres]

theorem dispatchOne_tells (s : Sender) (fault : Option Nat) (ev : SendEvent) :
    Tells s.peer ((s.dispatchOne fault ev).after (.event ev)) := by
  have herr : ∀ reason, .io ≠ errorOf s.peer reason ∧ ∀ e, .proto e ≠ errorOf s.peer reason := by
    intro reason
    cases reason <;> simp [errorOf]
  -- what else goes wrong is reported as an error of its own kind
  have hquiet : (∀ reason, ev ≠ .failed reason) →
      (∀ reason, (s.dispatchOne fault ev).result ≠ .error (errorOf s.peer reason)) →
      Tells s.peer ((s.dispatchOne fault ev).after (.event ev)) := by
    intro hev hres
    refine ⟨(s.dispatchOne_follows fault ev).peer, fun reason => ?_⟩
    simp only [Done.after, List.mem_cons, Effect.event.injEq, event_mem_dispatchOne, or_false, hres,
      iff_false]
    exact fun h => hev reason h.symm
  cases ev with
  | emit seq body =>
    refine hquiet (by simp) fun reason => ?_
    simp only [dispatchOne, emit]
    split
    · simpa using (herr reason).2 _
    · split
      · simpa using (herr reason).2 _
      · split
        · simpa using (herr reason).1
        · simp
  | resend datagrams =>
    refine hquiet (by simp) fun reason => ?_
    simp only [dispatchOne, resend]
    split
    · simp
    · split
      · simpa using (herr reason).1
      · simp
  | completed => exact hquiet (by simp) (by simp [dispatchOne])
  | failed reason =>
    refine ⟨by cases reason <;> rfl, fun reason' => ?_⟩
    cases reason <;> cases reason' <;> simp [Done.after, dispatchOne, errorOf]

theorem dispatch_tells (s : Sender) (fault : Option Nat) (evs : List SendEvent) :
    Tells s.peer (s.dispatch fault evs) := by
  induction evs generalizing s fault with
  | nil => exact ⟨rfl, fun reason => by simp [dispatch]⟩
  | cons ev evs ih =>
    refine (dispatchOne_tells s fault ev).andThen fun s' hs' => ?_
    rw [← hs']
    exact ih s' _

theorem handleOnce_tells (s : Sender) (incoming : Incoming) (now : Instant) (fault : Option Nat) :
    Tells s.peer (s.handleOnce incoming now fault) := by
  unfold handleOnce
  split
  · refine ⟨rfl, fun reason => ?_⟩
    cases reason <;> simp [errorOf]
  · split
    · exact ⟨rfl, fun reason => by simp⟩
    · exact dispatch_tells _ fault _

theorem pumpRound_tells (s : Sender) (r : Round) : Tells s.peer (s.pumpRound r) := by
  refine (handleOnce_tells s r.incoming r.now r.fault).andThen fun s' hs' => ?_
  rw [← hs']
  exact dispatch_tells _ r.tickFault _

/-! ## Done, by what event -/

/-- The outcome of the transfer as its events tell it. -/
def Concluded (t : List Effect) : Prop :=
  .event .completed ∈ t ∨ ∃ reason, .event (.failed reason) ∈ t

theorem concluded_append {t u : List Effect} :
    Concluded (t ++ u) ↔ Concluded t ∨ Concluded u := by
  simp only [Concluded, List.mem_append, exists_or]
  tauto

/-- What a step of the loop leaves: done if it was, or by an event. -/
def DoneStep (s : Sender) (d : Done) : Prop :=
  d.state.state.state = .done ↔ s.state.state = .done ∨ Concluded d.effects

theorem dispatch_doneStep {s : Sender} {p : XferSender × List SendEvent}
    (h : XferSender.Concludes s.state p) (fault : Option Nat) :
    DoneStep s (dispatch { s with state := p.1 } fault p.2) := by
  obtain ⟨ring, hring⟩ := dispatch_frame { s with state := p.1 } fault p.2
  have hstate : (dispatch { s with state := p.1 } fault p.2).state.state.state = p.1.state := by
    rw [hring]
  have hiff : Concluded (dispatch { s with state := p.1 } fault p.2).effects
      ↔ .completed ∈ p.2 ∨ ∃ reason, .failed reason ∈ p.2 := by
    constructor
    · rintro (hm | ⟨reason, hm⟩)
      · exact Or.inl (event_mem_dispatch hm)
      · exact Or.inr ⟨reason, event_mem_dispatch hm⟩
    · rintro (hm | ⟨reason, hm⟩)
      · left
        rw [h.completed hm]
        exact event_head_dispatch _ _ _ _
      · refine Or.inr ⟨reason, ?_⟩
        rw [h.failed reason hm]
        exact event_head_dispatch _ _ _ _
  rw [DoneStep, hstate, h.done, hiff]

theorem DoneStep.andThen {s : Sender} {d : Done} {f : Sender → Done} (h : DoneStep s d)
    (hf : ∀ s, DoneStep s (f s)) : DoneStep s (d.andThen f) := by
  unfold Done.andThen
  split
  · show (f d.state).state.state.state = .done ↔ _ ∨ Concluded (d.effects ++ (f d.state).effects)
    refine Iff.trans (hf d.state) ?_
    rw [concluded_append, ← or_assoc]
    exact or_congr_left h
  · exact h

theorem handleOnce_doneStep (s : Sender) (incoming : Incoming) (now : Instant)
    (fault : Option Nat) : DoneStep s (s.handleOnce incoming now fault) := by
  unfold handleOnce
  split
  · simp [DoneStep, Concluded]
  · split
    · simp [DoneStep, Concluded]
    · exact dispatch_doneStep (s.state.concludes_handle now _) fault

theorem step_doneStep (s : Sender) (x : Step) : DoneStep s (s.step x) := by
  cases x with
  | push ts payload now fault => exact dispatch_doneStep (s.state.concludes_pushFrame now _ _) fault
  | finish now fault => exact dispatch_doneStep (s.state.concludes_finish now) fault
  | pump incoming now tickNow fault tickFault =>
    exact (handleOnce_doneStep s incoming now fault).andThen fun s =>
      dispatch_doneStep (s.state.concludes_tick tickNow) tickFault

/-- **A sender is done** if and only if one of the two events has said so. -/
theorem done_iff_run (s : Sender) (steps : List Step) : (s.run steps).1.state.state = .done
    ↔ s.state.state = .done ∨ Concluded (s.run steps).2 := by
  have h := @Machine.run_induction _ _ _ (fun s x => ((step s x).state, (step s x).effects)) s
    (fun _ s' t => s'.state.state = .done ↔ s.state.state = .done ∨ Concluded t)
    (by simp [Concluded]) (fun _ s' t x h => ?_) steps
  · exact h
  · show (s'.step x).state.state.state = .done ↔ _
    refine Iff.trans (step_doneStep s' x) ?_
    rw [concluded_append, ← or_assoc]
    exact or_congr_left h

/-! ## What a call returns -/

/-- An authentic `EndAck` has been handled in the course of a call. -/
def Confirms (key : SessionKey) (p : Progress) : Prop :=
  ∃ incoming ∈ p.handled, packetOf key incoming = some .endAck

/-- The call has returned that the transfer failed. -/
def GivesUp (peer : SocketAddr) (p : Progress) : Prop :=
  ∃ reason, p.result = some (.error (errorOf peer reason))

/-- What the events of a call say is what it has handled and returned. -/
structure Reports (s : Sender) (p : Progress) : Prop where
  completed : .event .completed ∈ p.effects ↔ Confirms s.key p
  failed : (∃ reason, .event (.failed reason) ∈ p.effects) ↔ GivesUp s.peer p

theorem completed_mem_handleOnce (s : Sender) (incoming : Incoming) (now : Instant)
    (fault : Option Nat) : .event .completed ∈ (s.handleOnce incoming now fault).effects
      ↔ packetOf s.key incoming = some .endAck := by
  unfold handleOnce
  split
  · rename_i hfailed
    simp [hfailed, packetOf]
  · cases hp : packetOf s.key incoming with
    | none => simp
    | some body =>
      rw [Option.some.injEq]
      constructor
      · intro hm
        rcases s.state.handle_events now body (event_mem_dispatch hm) with ⟨_, -, heq⟩ | -
        · cases heq
        · have hm := event_mem_dispatch hm
          cases body with
          | endAck => rfl
          | nack missing =>
            simp only [XferSender.handle] at hm
            split at hm
            · cases hm
            · cases List.mem_singleton.mp hm
          | data | «end» | ack | keepalive => cases hm
      · rintro rfl
        exact event_head_dispatch _ _ _ _

/-- An `EndAck` is dispatched without a send. -/
theorem handleOnce_endAck {s : Sender} {incoming : Incoming}
    (h : packetOf s.key incoming = some .endAck) (now : Instant) (fault : Option Nat) :
    (s.handleOnce incoming now fault).result = .ok () := by
  have hne : incoming ≠ .failed := by
    rintro rfl
    cases h
  simp only [handleOnce, hne, if_false, h]
  rfl

theorem completed_mem_pumpRound (s : Sender) (r : Round) :
    .event .completed ∈ (s.pumpRound r).effects ↔ packetOf s.key r.incoming = some .endAck := by
  rw [← completed_mem_handleOnce s r.incoming r.now r.fault]
  unfold pumpRound pumpOnce Done.andThen
  split
  · have htick : ∀ s' : Sender,
      .event .completed ∉ (s'.tickOnce r.tickNow r.tickFault).effects := by
      intro s' hm
      rcases s'.state.tick_events r.tickNow (event_mem_dispatch hm) with ⟨_, heq⟩ | ⟨_, heq⟩
      · cases heq
      · cases heq
    simp [htick]
  · rfl

theorem failed_mem_iff {peer : SocketAddr} {d : Done} (h : Tells peer d) :
    (∃ reason, .event (.failed reason) ∈ d.effects)
      ↔ ∃ reason, d.result = .error (errorOf peer reason) :=
  exists_congr h.2

/-- A round in which the call fails. -/
theorem failRound_reports {s : Sender} {r : Round} {e : CallError}
    (h : (s.pumpRound r).result = .error e) : Reports s (s.failRound r e) where
  completed := by
    show .event .completed ∈ (s.pumpRound r).effects ↔ _
    rw [completed_mem_pumpRound]
    unfold Confirms failRound
    constructor
    · intro hp
      rw [if_pos (handleOnce_endAck hp r.now r.fault)]
      exact ⟨_, List.mem_singleton_self _, hp⟩
    · rintro ⟨incoming, hmem, hp⟩
      split at hmem
      · rwa [← List.mem_singleton.mp hmem]
      · cases hmem
  failed := by
    show (∃ reason, .event (.failed reason) ∈ (s.pumpRound r).effects) ↔ _
    rw [failed_mem_iff (pumpRound_tells s r), h]
    simp [GivesUp, failRound]

theorem pumpRound_follows (s : Sender) (r : Round) : Follows s (s.pumpRound r).state :=
  s.step_follows (.pump r.incoming r.now r.tickNow r.fault r.tickFault)

/-- A round after which the call goes on. -/
theorem Reports.after {s : Sender} {r : Round} (h : (s.pumpRound r).result = .ok ())
    {p : Progress} (hp : Reports (s.pumpRound r).state p) :
    Reports s (p.after (s.pumpRound r) r.incoming) where
  completed := by
    have hkey := (s.pumpRound_follows r).key
    show .event .completed ∈ (s.pumpRound r).effects ++ p.effects ↔ _
    rw [List.mem_append, completed_mem_pumpRound, hp.completed, hkey]
    simp [Confirms, Progress.after]
  failed := by
    have hno : ¬ ∃ reason, .event (.failed reason) ∈ (s.pumpRound r).effects := by
      rw [failed_mem_iff (pumpRound_tells s r), h]
      simp
    have hpeer := (s.pumpRound_follows r).peer
    show (∃ reason, .event (.failed reason) ∈ (s.pumpRound r).effects ++ p.effects) ↔ _
    simp only [List.mem_append, exists_or, hno, false_or, hp.failed, hpeer]
    rfl

/-- What is sent in one go. -/
theorem dispatch_reports (s : Sender) (x : XferSender) (fault : Option Nat) (evs : List SendEvent)
    (h : .completed ∉ evs) : Reports s ⟨(dispatch { s with state := x } fault evs).state,
      (dispatch { s with state := x } fault evs).effects, [],
      some (dispatch { s with state := x } fault evs).result⟩ where
  completed := by
    refine iff_of_false (fun hm => h (event_mem_dispatch hm)) ?_
    rintro ⟨_, hm, -⟩
    cases hm
  failed := by
    rw [failed_mem_iff (dispatch_tells { s with state := x } fault evs)]
    simp [GivesUp]

theorem sendFrame_reports (s : Sender) (ts : TimestampMs) (payload : Bytes)
    (rounds : List Round) : Reports s (s.sendFrame ts payload rounds) := by
  induction rounds generalizing s with
  | nil => exact ⟨by simp [sendFrame, Confirms], by simp [sendFrame, GivesUp]⟩
  | cons r rs ih =>
    unfold sendFrame
    split
    · refine dispatch_reports s _ r.pushFault _ fun hm => ?_
      rcases s.state.pushFrame_cases r.pushNow ts payload with ⟨heq, -⟩ | ⟨-, -, hout⟩
      · simp [heq] at hm
      · simp [hout] at hm
    · split
      · exact failRound_reports ‹_›
      · exact (ih _).after ‹_›

theorem finishLoop_reports (s : Sender) (rounds : List Round) :
    Reports s (s.finishLoop rounds) := by
  induction rounds generalizing s with
  | nil =>
    unfold finishLoop
    exact ⟨by simp [Confirms], by simp only [GivesUp]; split <;> simp⟩
  | cons r rs ih =>
    unfold finishLoop
    split
    · exact ⟨by simp [Confirms], by simp [GivesUp]⟩
    · split
      · exact failRound_reports ‹_›
      · exact (ih _).after ‹_›

theorem finish_reports (s : Sender) (now : Instant) (fault : Option Nat) (rounds : List Round) :
    Reports s (s.finish now fault rounds) := by
  have hnone : .completed ∉ (s.state.finish now).2.toList := by
    rcases s.state.finish_cases now with ⟨heq, -⟩ | ⟨-, -, -, -, seq, hout⟩
    · simp [heq]
    · simp [hout]
  have hfirst := dispatch_reports s (s.state.finish now).1 fault _ hnone
  unfold finish
  split
  · rename_i e he
    have hres : (dispatch { s with state := (s.state.finish now).1 } fault
        (s.state.finish now).2.toList).result = .error e := he
    rw [hres] at hfirst
    exact hfirst
  · rename_i u hok
    -- the first step has neither failed nor completed, so the loop decides
    have hno : ∀ reason, .event (.failed reason) ∉ (s.finishOnce now fault).effects := by
      intro reason hm
      obtain ⟨reason', he⟩ := hfirst.failed.mp ⟨reason, hm⟩
      cases hok.symm.trans (Option.some.inj he)
    have hnot : .event .completed ∉ (s.finishOnce now fault).effects :=
      fun hm => hnone (event_mem_dispatch hm)
    have hfollows : Follows s (s.finishOnce now fault).state := s.step_follows (.finish now fault)
    have hloop := finishLoop_reports (s.finishOnce now fault).state rounds
    refine ⟨?_, ?_⟩
    · simp only [List.mem_append, hnot, false_or, hloop.completed, hfollows.key]
      rfl
    · simp only [List.mem_append, hno, false_or, hloop.failed, hfollows.peer]
      rfl

theorem call_reports (s : Sender) (c : Call) : Reports s (s.call c) := by
  cases c with
  | sendFrame ts payload rounds => exact sendFrame_reports s ts payload rounds
  | finish now fault rounds => exact finish_reports s now fault rounds

/-! ## What the calls of an application return -/

theorem callRun_follows (s : Sender) (calls : List Call) : Follows s (s.callRun calls).1 := by
  obtain ⟨steps, hsteps⟩ := s.callRun_isRun calls
  rw [← hsteps]
  exact run_follows s steps

theorem callRun_concat (s : Sender) (calls : List Call) (c : Call) : s.callRun (calls ++ [c])
    = (((s.callRun calls).1.call c).state,
        (s.callRun calls).2 ++ ((s.callRun calls).1.call c).effects) :=
  Machine.run_concat _ s calls c

/-- An authentic `EndAck` has been handled in one of these calls. -/
def Confirmed (s : Sender) (calls : List Call) : Prop :=
  ∃ before c after, calls = before ++ c :: after ∧ Confirms s.key ((s.callRun before).1.call c)

/-- One of these calls has returned that the transfer failed. -/
def GaveUp (s : Sender) (calls : List Call) : Prop :=
  ∃ before c after, calls = before ++ c :: after ∧ GivesUp s.peer ((s.callRun before).1.call c)

theorem completed_mem_callRun (s : Sender) (calls : List Call) :
    .event .completed ∈ (s.callRun calls).2 ↔ Confirmed s calls := by
  unfold callRun Confirmed
  rw [Machine.mem_run]
  refine exists_congr fun before => exists_congr fun c => exists_congr fun after =>
    and_congr_right fun _ => ?_
  rw [← (s.callRun_follows before).key]
  exact (call_reports _ c).completed

theorem failed_mem_callRun (s : Sender) (calls : List Call) :
    (∃ reason, .event (.failed reason) ∈ (s.callRun calls).2) ↔ GaveUp s calls := by
  have hcall : ∀ before c, GivesUp s.peer ((s.callRun before).1.call c)
      ↔ ∃ reason, .event (.failed reason) ∈ ((s.callRun before).1.call c).effects := by
    intro before c
    rw [← (s.callRun_follows before).peer]
    exact (call_reports _ c).failed.symm
  unfold GaveUp
  simp only [hcall]
  constructor
  · rintro ⟨reason, hm⟩
    obtain ⟨before, c, after, heq, hc⟩ := (Machine.mem_run _).mp hm
    exact ⟨before, c, after, heq, reason, hc⟩
  · rintro ⟨before, c, after, heq, reason, hc⟩
    exact ⟨reason, (Machine.mem_run _).mpr ⟨before, c, after, heq, hc⟩⟩

/-- **Done**, after a run of calls: confirmed, or given up. -/
theorem done_iff {peer : SocketAddr} {id : RequestId} {key : SessionKey} {cfg : SenderConfig}
    (calls : List Call) : ((connect peer id key cfg).callRun calls).1.state.isDone = true
      ↔ Confirmed (connect peer id key cfg) calls ∨ GaveUp (connect peer id key cfg) calls := by
  obtain ⟨steps, hsteps⟩ := (connect peer id key cfg).callRun_isRun calls
  have hdone := done_iff_run (connect peer id key cfg) steps
  rw [hsteps] at hdone
  unfold XferSender.isDone
  rw [decide_eq_true_iff, hdone, ← completed_mem_callRun, ← failed_mem_callRun]
  exact or_iff_right (by simp [connect, XferSender.new])

/-- The loop of `finish` returns `Ok` on a sender that is done. -/
theorem finishLoop_done {s : Sender} {rounds : List Round}
    (h : (s.finishLoop rounds).result = some (.ok ())) :
    (s.finishLoop rounds).state.state.isDone = true := by
  induction rounds generalizing s with
  | nil =>
    unfold finishLoop at h ⊢
    simp only at h
    split at h
    · assumption
    · cases h
  | cons r rs ih =>
    unfold finishLoop at h ⊢
    by_cases hdone : s.state.isDone
    · rw [if_pos hdone]
      exact hdone
    · rw [if_neg hdone] at h ⊢
      cases hres : (s.pumpRound r).result with
      | error e =>
        simp only [hres, failRound] at h
        cases h
      | ok u =>
        simp only [hres] at h ⊢
        exact ih h

theorem finish_done {s : Sender} {now : Instant} {fault : Option Nat} {rounds : List Round}
    (h : (s.finish now fault rounds).result = some (.ok ())) :
    (s.finish now fault rounds).state.state.isDone = true := by
  unfold finish at h ⊢
  cases hres : (s.finishOnce now fault).result with
  | error e =>
    simp only [hres] at h
    cases h
  | ok u =>
    simp only [hres] at h ⊢
    exact finishLoop_done h

/-- On a sender that is done `finish` returns at once. -/
theorem finish_of_done {s : Sender} (hs : s.state.isDone = true) (now : Instant)
    (fault : Option Nat) (rounds : List Round) :
    s.finish now fault rounds = ⟨s, [], [], some (.ok ())⟩ := by
  have hstate : s.state.state ≠ .streaming := by
    intro h
    simp [XferSender.isDone, h] at hs
  have honce : s.finishOnce now fault = ⟨s, [], .ok ()⟩ := by
    simp only [finishOnce, XferSender.finish, if_pos hstate, Option.toList_none]
    rfl
  have hloop : s.finishLoop rounds = ⟨s, [], [], some (.ok ())⟩ := by
    cases rounds with
    | nil => simp [finishLoop, hs]
    | cons r rs => simp [finishLoop, hs]
  simp only [finish, honce, hloop, List.append_nil]

/-- **What `finish` says, exactly.** In a run of calls, every `finish` that
returns `Ok` has an authentic `EndAck` behind it, if and only if none is
made after a call has returned that the transfer failed, before an
`EndAck` is handled. -/
theorem finish_ok_confirmed_iff (peer : SocketAddr) (id : RequestId) (key : SessionKey)
    (cfg : SenderConfig) (calls : List Call) :
    let s := connect peer id key cfg
    (∀ before now fault rounds after, calls = before ++ .finish now fault rounds :: after →
        ((s.callRun before).1.finish now fault rounds).result = some (.ok ()) →
        Confirmed s (before ++ [.finish now fault rounds]))
      ↔ ∀ before now fault rounds after, calls = before ++ .finish now fault rounds :: after →
        GaveUp s before → Confirmed s before := by
  intro s
  constructor
  · intro h before now fault rounds after heq hgave
    have hdone : (s.callRun before).1.state.isDone = true := (done_iff before).mpr (Or.inr hgave)
    have hfin := finish_of_done hdone now fault rounds
    have hconf := h before now fault rounds after heq (by rw [hfin])
    -- such a call handles nothing
    rw [← completed_mem_callRun, callRun_concat] at hconf
    simp only [call, hfin, List.append_nil] at hconf
    exact (completed_mem_callRun s before).mp hconf
  · intro h before now fault rounds after heq hok
    have hdone := finish_done hok
    have hlater : Confirmed s before → Confirmed s (before ++ [.finish now fault rounds]) := by
      rintro ⟨pre, c, post, rfl, hc⟩
      exact ⟨pre, c, post ++ [.finish now fault rounds], by simp, hc⟩
    have hstate : (s.callRun (before ++ [.finish now fault rounds])).1.state.isDone = true := by
      rw [callRun_concat]
      exact hdone
    rcases (done_iff (before ++ [.finish now fault rounds])).mp hstate with hconf | hgave
    · exact hconf
    · -- this call has not given up, so an earlier one had
      obtain ⟨pre, c, post, hsplit, hc⟩ := hgave
      rcases List.eq_nil_or_concat post with rfl | ⟨post, d, rfl⟩
      · obtain ⟨rfl, hlast⟩ := List.append_inj' hsplit rfl
        cases hlast
        obtain ⟨reason, hreason⟩ := hc
        cases hok.symm.trans hreason
      · rw [List.concat_eq_append, ← List.cons_append, ← List.append_assoc] at hsplit
        obtain ⟨rfl, -⟩ := List.append_inj' hsplit rfl
        exact hlater (h _ now fault rounds after heq ⟨pre, c, post, rfl, hc⟩)

/-- One frame is sent, and no acknowledgement ever comes; the caller goes
on after the error. -/
def unheardCalls : List Call :=
  [.sendFrame ⟨0⟩ [7] [quietRound 0], .finish 1 none [quietRound (fromSecs 3)],
    .finish (fromSecs 4) none []]

/-- The second `finish` reports a success. -/
theorem unheard_transfer_finishes_ok :
    let s := connect ⟨[127, 0, 0, 1], 4000⟩ zeroId plainKey {}
    ((s.callRun (unheardCalls.take 1)).1.finish 1 none [quietRound (fromSecs 3)]).result
        = some (.error (.noAck ⟨[127, 0, 0, 1], 4000⟩))
      ∧ ((s.callRun (unheardCalls.take 2)).1.finish (fromSecs 4) none []).result = some (.ok ())
      ∧ ¬ Confirmed s unheardCalls := by
  refine ⟨by decide +kernel, by decide +kernel, fun h => ?_⟩
  rw [← completed_mem_callRun] at h
  revert h
  decide +kernel

end Sender

end Protofish4
