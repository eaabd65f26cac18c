import Protofish4.Tokio.Finish
import Protofish4.Tokio.Nonces

/-!
# send_all

`send_all` as a task: once connected it sends every frame in turn and
finishes, and stops at the first error. One poll of the task is one round of
the loop it is in; between two polls anything else may happen. What the task
has done by then is what the calls it is made of have done.
-/

namespace Protofish4

namespace Sender

/-! ## The task -/

/-- How far `send_all` has come. -/
structure Task where
  sender : Sender
  /-- The frames still to be sent; the first one is being tried. -/
  todo : List (TimestampMs × Bytes)
  /-- `finish` has got past its first step. -/
  finishing : Bool
  /-- What the task has returned. -/
  result : Option (Except CallError Unit)

namespace Task

/-- The task once it has a connection. -/
def start (s : Sender) (frames : List (TimestampMs × Bytes)) : Task := ⟨s, frames, false, none⟩

/-- The task `k` after it has carried out `d`; an error ends it. -/
def did (k : Task) (d : Done) : Task × List Effect :=
  ({ k with
      sender := d.state
      result := match d.result with
        | .ok () => none
        | .error e => some (.error e) }, d.effects)

/-- One round of the loop the task is in, or the first step of `finish`. -/
def poll (k : Task) (r : Round) : Task × List Effect :=
  if k.result.isSome then (k, [])
  else
    match k.todo with
    | (ts, payload) :: todo =>
      if k.sender.state.canSend then
        did { k with todo := todo } (k.sender.pushOnce ts payload r.pushNow r.pushFault)
      else did k (k.sender.pumpRound r)
    | [] =>
      if k.finishing then
        if k.sender.state.isDone then ({ k with result := some (.ok ()) }, [])
        else did k (k.sender.pumpRound r)
      else did { k with finishing := true } (k.sender.finishOnce r.pushNow r.pushFault)

/-- The task after some polls, with all it did. -/
def run (k : Task) (rounds : List Round) : Task × List Effect := Machine.run poll k rounds

/-! ## What a poll does -/

@[simp] theorem did_sender (k : Task) (d : Done) : (k.did d).1.sender = d.state := rfl
@[simp] theorem did_todo (k : Task) (d : Done) : (k.did d).1.todo = k.todo := rfl
@[simp] theorem did_finishing (k : Task) (d : Done) : (k.did d).1.finishing = k.finishing := rfl
@[simp] theorem did_effects (k : Task) (d : Done) : (k.did d).2 = d.effects := rfl

theorem did_result {k : Task} {d : Done} {res : Except CallError Unit}
    (h : (k.did d).1.result = some res) : d.result = res ∧ ∃ e, res = .error e := by
  unfold did at h
  cases hd : d.result with
  | ok => simp [hd] at h
  | error e =>
    simp only [hd, Option.some.injEq] at h
    exact ⟨h, e, h.symm⟩

theorem did_result_none {k : Task} {d : Done} : (k.did d).1.result = none ↔ d.result = .ok () := by
  unfold did
  cases d.result <;> simp

/-- The five things a poll can be. -/
inductive Polls (k : Task) (r : Round) : Task × List Effect → Prop
  | ended (h : k.result.isSome) : Polls k r (k, [])
  | push (ts : TimestampMs) (payload : Bytes) (todo : List (TimestampMs × Bytes))
      (h : k.result = none) (htodo : k.todo = (ts, payload) :: todo)
      (hopen : k.sender.state.canSend = true) :
      Polls k r (did { k with todo := todo } (k.sender.pushOnce ts payload r.pushNow r.pushFault))
  | pump (h : k.result = none)
      (hwait : (∃ frame todo, k.todo = frame :: todo) ∧ k.sender.state.canSend = false
        ∨ k.todo = [] ∧ k.finishing = true ∧ k.sender.state.isDone = false) :
      Polls k r (k.did (k.sender.pumpRound r))
  | finish (h : k.result = none) (htodo : k.todo = []) (hf : k.finishing = false) :
      Polls k r (did { k with finishing := true } (k.sender.finishOnce r.pushNow r.pushFault))
  | done (h : k.result = none) (htodo : k.todo = []) (hf : k.finishing = true)
      (hdone : k.sender.state.isDone = true) : Polls k r ({ k with result := some (.ok ()) }, [])

theorem polls (k : Task) (r : Round) : Polls k r (k.poll r) := by
  unfold poll
  split
  · exact .ended ‹_›
  · rename_i hnone
    have h : k.result = none := Option.not_isSome_iff_eq_none.mp hnone
    split
    · rename_i ts payload todo htodo
      split
      · exact .push ts payload todo h htodo ‹_›
      · rename_i hclosed
        exact .pump h (Or.inl ⟨⟨_, _, htodo⟩, Bool.eq_false_iff.mpr hclosed⟩)
    · rename_i htodo
      split
      · rename_i hf
        split
        · exact .done h htodo hf ‹_›
        · rename_i hdone
          exact .pump h (Or.inr ⟨htodo, hf, Bool.eq_false_iff.mpr hdone⟩)
      · rename_i hf
        exact .finish h htodo (Bool.eq_false_iff.mpr hf)

theorem run_cons (k : Task) (r : Round) (rounds : List Round) : k.run (r :: rounds)
    = ((Task.run (k.poll r).1 rounds).1, (k.poll r).2 ++ (Task.run (k.poll r).1 rounds).2) :=
  Machine.run_cons poll k r rounds

/-- A task that has returned does nothing more. -/
theorem run_over {k : Task} (h : k.result.isSome) (rounds : List Round) :
    k.run rounds = (k, []) := by
  induction rounds with
  | nil => rfl
  | cons r rounds ih =>
    have hpoll : k.poll r = (k, []) := by
      unfold poll
      rw [if_pos h]
    rw [run_cons, hpoll, ih]
    rfl

/-! ## The task is its calls -/

/-- In its last loop the task does what the loop of `finish` does. -/
theorem run_finishing {k : Task} (h : k.result = none) (htodo : k.todo = [])
    (hf : k.finishing = true) (rounds : List Round) :
    (k.run rounds).1.sender = (k.sender.finishLoop rounds).state
      ∧ (k.run rounds).2 = (k.sender.finishLoop rounds).effects
      ∧ ∀ res, (k.run rounds).1.result = some res →
        (k.sender.finishLoop rounds).result = some res := by
  induction rounds generalizing k with
  | nil =>
    refine ⟨rfl, rfl, fun res hres => ?_⟩
    cases h.symm.trans hres
  | cons r rounds ih =>
    rw [run_cons]
    unfold poll finishLoop
    simp only [h, Option.isSome_none, Bool.false_eq_true, if_false, htodo, hf, if_true]
    split
    · rw [run_over rfl]
      exact ⟨rfl, rfl, fun res hres => hres⟩
    · cases hpump : (k.sender.pumpRound r).result with
      | error e =>
        have hover : (k.did (k.sender.pumpRound r)).1.result = some (.error e) := by
          simp [did, hpump]
        rw [run_over (by rw [hover]; rfl), hover]
        exact ⟨rfl, List.append_nil _, fun res hres => hres⟩
      | ok =>
        obtain ⟨hs, he, hr⟩ := ih (k := (k.did (k.sender.pumpRound r)).1)
          (did_result_none.mpr hpump) htodo hf
        exact ⟨hs, by rw [he]; rfl, hr⟩

/-- The frame a call sends; `finish` sends none. -/
def callFrame : Call → Option (TimestampMs × Bytes)
  | .sendFrame ts payload _ => some (ts, payload)
  | .finish .. => none

/-- `calls` are what the task has made: `send_frame` for its frames in turn
and then `finish`, each after the one before has returned `Ok`. -/
structure Made (k : Task) (calls : List Call) (p : Task × List Effect) : Prop where
  run : k.sender.callRun calls = (p.1.sender, p.2)
  frames : calls.map callFrame <+: k.todo.map some ++ [none]
  returned : ∀ before c after, calls = before ++ c :: after → after ≠ [] →
    ((k.sender.callRun before).1.call c).result = some (.ok ())
  result : ∀ res, p.1.result = some res → ∃ before c, calls = before ++ [c]
    ∧ ((k.sender.callRun before).1.call c).result = some res

theorem callRun_cons (s : Sender) (c : Call) (calls : List Call) : s.callRun (c :: calls)
    = (((s.call c).state.callRun calls).1,
      (s.call c).effects ++ ((s.call c).state.callRun calls).2) := rfl

/-- A single call, which may still be under way. -/
theorem Made.single {k : Task} {c : Call} {p : Task × List Effect}
    (hstate : (k.sender.call c).state = p.1.sender) (heffects : (k.sender.call c).effects = p.2)
    (hframe : [callFrame c] <+: k.todo.map some ++ [none])
    (hresult : ∀ res, p.1.result = some res → (k.sender.call c).result = some res) :
    Made k [c] p where
  run := by
    rw [← hstate, ← heffects]
    exact Machine.run_singleton _ k.sender c
  frames := hframe
  returned before c' after heq hafter := by
    cases before with
    | nil => exact absurd (List.cons.inj heq).2.symm hafter
    | cons b before => cases before <;> cases (List.cons.inj heq).2
  result res hres := ⟨[], c, rfl, hresult res hres⟩

/-- One more call in front. -/
theorem Made.cons {k k' : Task} {c : Call} {calls : List Call} {p : Task × List Effect}
    (h : Made k' calls p) (hstate : (k.sender.call c).state = k'.sender)
    (hresult : (k.sender.call c).result = some (.ok ()))
    (hframe : (c :: calls).map callFrame <+: k.todo.map some ++ [none]) :
    Made k (c :: calls) (p.1, (k.sender.call c).effects ++ p.2) where
  run := by
    have hrun := h.run
    rw [← hstate] at hrun
    show ((((k.sender.call c).state).callRun calls).1,
      (k.sender.call c).effects ++ (((k.sender.call c).state).callRun calls).2) = _
    rw [hrun]
  frames := hframe
  returned before c' after heq hafter := by
    cases before with
    | nil =>
      cases heq
      exact hresult
    | cons b before =>
      obtain ⟨hhead, htail⟩ := List.cons.inj heq
      subst hhead
      have hrest := h.returned before c' after htail hafter
      rw [← hstate] at hrest
      exact hrest
  result res hres := by
    obtain ⟨before, c', heq, hrest⟩ := h.result res hres
    rw [← hstate] at hrest
    exact ⟨c :: before, c', by rw [heq, List.cons_append], hrest⟩

/-- The first call has taken longer. -/
theorem Made.lengthen {k k' : Task} {c c' : Call} {calls : List Call} {p : Task × List Effect}
    {extra : List Effect} (h : Made k' (c' :: calls) p)
    (hstate : (k.sender.call c).state = (k'.sender.call c').state)
    (heffects : (k.sender.call c).effects = extra ++ (k'.sender.call c').effects)
    (hresult : (k.sender.call c).result = (k'.sender.call c').result)
    (hframe : callFrame c = callFrame c') (htodo : k'.todo = k.todo) :
    Made k (c :: calls) (p.1, extra ++ p.2) where
  run := by
    have hrun := h.run
    simp only [callRun_cons, Prod.mk.injEq] at hrun ⊢
    rw [hstate, heffects, List.append_assoc, hrun.2]
    exact ⟨hrun.1, rfl⟩
  frames := by
    have hframes := h.frames
    rwa [htodo, List.map_cons, ← hframe, ← List.map_cons] at hframes
  returned before c₁ after heq hafter := by
    cases before with
    | nil =>
      obtain ⟨rfl, rfl⟩ := List.cons.inj heq
      exact hresult.trans (h.returned [] c' calls rfl hafter)
    | cons b before =>
      obtain ⟨hhead, htail⟩ := List.cons.inj heq
      subst hhead
      have hrest := h.returned (c' :: before) c₁ after (congrArg _ htail) hafter
      rw [callRun_cons, ← hstate] at hrest
      exact hrest
  result res hres := by
    obtain ⟨before, c₁, heq, hrest⟩ := h.result res hres
    cases before with
    | nil =>
      obtain ⟨rfl, rfl⟩ := List.cons.inj heq
      exact ⟨[], c, rfl, hresult.trans hrest⟩
    | cons b before =>
      obtain ⟨hhead, htail⟩ := List.cons.inj heq
      subst hhead
      rw [callRun_cons, ← hstate] at hrest
      exact ⟨c :: before, c₁, congrArg _ htail, hrest⟩

/-- No call has been made yet. -/
theorem Made.nil {k : Task} (h : k.result = none) : Made k [] (k, []) where
  run := rfl
  frames := List.nil_prefix
  returned before c after heq := by cases before <;> cases heq
  result res hres := by cases h.symm.trans hres

/-- The call that ends the task with an error. -/
theorem Made.failed {k k' : Task} {c : Call} {d : Done} {e : CallError} (hd : d.result = .error e)
    (hstate : (k.sender.call c).state = d.state) (heffects : (k.sender.call c).effects = d.effects)
    (hresult : (k.sender.call c).result = some (.error e))
    (hframe : [callFrame c] <+: k.todo.map some ++ [none]) (rounds : List Round) :
    Made k [c] (((k'.did d).1.run rounds).1, (k'.did d).2 ++ ((k'.did d).1.run rounds).2) := by
  have hover : (k'.did d).1.result = some (.error e) := by simp [did, hd]
  rw [run_over (by rw [hover]; rfl)]
  refine .single hstate (heffects.trans (List.append_nil _).symm) hframe fun res hres => ?_
  rw [hresult, ← hres, hover]

/-- The window is open: the call returns in its first round. -/
theorem sendFrame_of_open {s : Sender} {r : Round} {ts : TimestampMs} {payload : Bytes}
    (hopen : s.state.canSend = true) : s.call (.sendFrame ts payload [r])
      = ⟨(s.pushOnce ts payload r.pushNow r.pushFault).state,
        (s.pushOnce ts payload r.pushNow r.pushFault).effects, [],
        some (s.pushOnce ts payload r.pushNow r.pushFault).result⟩ := by
  simp only [call, sendFrame, if_pos hopen]

/-- The window is closed: the call waits for a round, and goes on if it went
well. -/
theorem sendFrame_of_shut {s : Sender} {r : Round} (hshut : s.state.canSend = false)
    (hok : (s.pumpRound r).result = .ok ()) (ts : TimestampMs) (payload : Bytes)
    (rounds : List Round) : s.call (.sendFrame ts payload (r :: rounds))
      = (Sender.call (s.pumpRound r).state (.sendFrame ts payload rounds)).after (s.pumpRound r)
        r.incoming := by
  simp only [call, sendFrame, hshut, Bool.false_eq_true, if_false, hok]

/-- After a poll that comes to `p` and some more rounds, the task is its
calls. -/
def Goes (k : Task) (rounds : List Round) (p : Task × List Effect) : Prop :=
  ∃ calls, Made k calls ((p.1.run rounds).1, p.2 ++ (p.1.run rounds).2)

theorem goes_push {k : Task} {r : Round} {rounds : List Round} {ts : TimestampMs} {payload : Bytes}
    {todo : List (TimestampMs × Bytes)} (htodo : k.todo = (ts, payload) :: todo)
    (hopen : k.sender.state.canSend = true)
    (hrest : ∀ d : Done, d.result = .ok () →
      ∃ calls, Made (did { k with todo := todo } d).1 calls
        ((did { k with todo := todo } d).1.run rounds)) :
    Goes k rounds (did { k with todo := todo }
      (k.sender.pushOnce ts payload r.pushNow r.pushFault)) := by
  have hcall := @sendFrame_of_open k.sender r ts payload hopen
  generalize k.sender.pushOnce ts payload r.pushNow r.pushFault = d at hcall ⊢
  cases hd : d.result with
  | error e =>
    exact ⟨[.sendFrame ts payload [r]], .failed hd (by rw [hcall]) (by rw [hcall])
      (by rw [hcall, hd]) (by rw [htodo]; exact ⟨_, rfl⟩) rounds⟩
  | ok =>
    obtain ⟨calls, hmade⟩ := hrest d hd
    have hcons := hmade.cons (k := k) (c := .sendFrame ts payload [r]) (by rw [hcall]; rfl)
      (by rw [hcall, hd]) (by rw [htodo]; exact List.prefix_cons_inj _ |>.mpr hmade.frames)
    rw [hcall] at hcons
    exact ⟨.sendFrame ts payload [r] :: calls, hcons⟩

theorem goes_pump {k : Task} {r : Round} {rounds : List Round} {ts : TimestampMs} {payload : Bytes}
    {todo : List (TimestampMs × Bytes)} (htodo : k.todo = (ts, payload) :: todo)
    (hshut : k.sender.state.canSend = false)
    (hrest : (k.sender.pumpRound r).result = .ok () →
      ∃ calls, Made (k.did (k.sender.pumpRound r)).1 calls
        ((k.did (k.sender.pumpRound r)).1.run rounds)) :
    Goes k rounds (k.did (k.sender.pumpRound r)) := by
  have hfirst : ∀ rs, [callFrame (.sendFrame ts payload rs)] <+: k.todo.map some ++ [none] :=
    fun rs => by rw [htodo]; exact ⟨_, rfl⟩
  cases hd : (k.sender.pumpRound r).result with
  | error e =>
    have hcall : k.sender.call (.sendFrame ts payload [r]) = k.sender.failRound r e := by
      simp only [call, sendFrame, hshut, Bool.false_eq_true, if_false, hd]
    exact ⟨[.sendFrame ts payload [r]], .failed hd (by rw [hcall]; rfl) (by rw [hcall]; rfl)
      (by rw [hcall]; rfl) (hfirst [r]) rounds⟩
  | ok =>
    obtain ⟨calls, hmade⟩ := hrest hd
    have hlong := sendFrame_of_shut hshut hd ts payload
    cases calls with
    | nil =>
      obtain ⟨hs, he⟩ := Prod.mk.inj hmade.run
      refine ⟨[.sendFrame ts payload [r]], .single (by rw [hlong, ← hs]; rfl)
        (by rw [hlong, ← he]; rfl) (hfirst [r]) fun res hres => ?_⟩
      obtain ⟨before, c, heq, -⟩ := hmade.result res hres
      simp at heq
    | cons c calls =>
      -- the task is still at the frame it waits for
      have hhead := hmade.frames
      rw [did_todo, htodo] at hhead
      obtain ⟨hframe, -⟩ := List.cons_prefix_cons.mp hhead
      cases c with
      | finish => cases hframe
      | sendFrame ts' payload' rounds' =>
        cases hframe
        exact ⟨.sendFrame ts payload (r :: rounds') :: calls, hmade.lengthen
          (by rw [hlong]; rfl) (by rw [hlong]; rfl) (by rw [hlong]; rfl) rfl rfl⟩

theorem goes_finish {k : Task} (htodo : k.todo = []) (r : Round) (rounds : List Round) :
    Goes k rounds (did { k with finishing := true }
      (k.sender.finishOnce r.pushNow r.pushFault)) := by
  have hlast : [callFrame (.finish r.pushNow r.pushFault rounds)]
      <+: k.todo.map some ++ [none] := by
    rw [htodo]
    exact ⟨[], rfl⟩
  have hcall : k.sender.call (.finish r.pushNow r.pushFault rounds)
      = k.sender.finish r.pushNow r.pushFault rounds := rfl
  refine ⟨[.finish r.pushNow r.pushFault rounds], ?_⟩
  cases hd : (k.sender.finishOnce r.pushNow r.pushFault).result with
  | error e =>
    simp only [Sender.finish, hd] at hcall
    exact .failed hd (by rw [hcall]) (by rw [hcall]) (by rw [hcall]) hlast rounds
  | ok =>
    simp only [Sender.finish, hd] at hcall
    obtain ⟨hs, he, hr⟩ := run_finishing (k := (did { k with finishing := true }
      (k.sender.finishOnce r.pushNow r.pushFault)).1) (did_result_none.mpr hd) htodo rfl rounds
    refine .single (by rw [hcall, hs]; rfl) (by rw [hcall, he]; rfl) hlast fun res hres => ?_
    rw [hcall]
    exact hr res hres

/-- **The task is its calls**: whatever it has done after some rounds, it
has done by calling `send_frame` for its frames in turn and then `finish`,
and what it returns is what the last of these calls returned. -/
theorem run_calls {k : Task} (h : k.result = none) (hf : k.finishing = false)
    (rounds : List Round) : ∃ calls, Made k calls (k.run rounds) := by
  induction rounds generalizing k with
  | nil => exact ⟨[], .nil h⟩
  | cons r rounds ih =>
    rw [run_cons]
    have hp := k.polls r
    generalize k.poll r = q at hp
    cases hp with
    | ended hover =>
      rw [h] at hover
      cases hover
    | push ts payload todo _ htodo hopen =>
      exact goes_push htodo hopen fun d hd => ih (did_result_none.mpr hd) hf
    | pump _ hwait =>
      obtain ⟨⟨⟨ts, payload⟩, todo, htodo⟩, hshut⟩ | ⟨-, hfin, -⟩ := hwait
      · exact goes_pump htodo hshut fun hd => ih (did_result_none.mpr hd) hf
      · cases hf.symm.trans hfin
    | finish _ htodo _ => exact goes_finish htodo r rounds
    | done _ _ hfin _ => cases hf.symm.trans hfin

end Task

/-! ## What the task knows -/

/-- The event taken up, if one is. -/
def Effect.sendEvent : Effect → Option SendEvent
  | .event ev => some ev
  | _ => none

/-- The frame an event hands out. -/
def eventFrame : SendEvent → Option Frame
  | .emit seq (.data ts payload) => some ⟨seq, ts, payload⟩
  | _ => none

/-- The frames handed out so far. -/
def framesOf (t : List Effect) : List Frame := (t.filterMap Effect.sendEvent).filterMap eventFrame

@[simp] theorem framesOf_append (t u : List Effect) :
    framesOf (t ++ u) = framesOf t ++ framesOf u := by
  simp [framesOf]

/-- One event is taken up, whatever becomes of it. -/
theorem dispatch_events (s : Sender) (fault : Option Nat) {evs : List SendEvent}
    (h : evs.length ≤ 1) : (s.dispatch fault evs).effects.filterMap Effect.sendEvent = evs := by
  match evs, h with
  | [], _ => rfl
  | [ev], _ =>
    have hrest : (s.dispatchOne fault ev).effects.filterMap Effect.sendEvent = [] := by
      refine List.filterMap_eq_nil_iff.mpr fun f hf => ?_
      cases f with
      | event ev' => exact absurd hf event_mem_dispatchOne
      | sealed | sent => rfl
    rw [(dispatch_singleton s fault ev).1, List.filterMap_cons, hrest]
    rfl

theorem framesOf_eq_nil {t : List Effect} (h : ∀ ev, .event ev ∈ t → eventFrame ev = none) :
    framesOf t = [] := by
  refine List.filterMap_eq_nil_iff.mpr fun ev hev => h ev ?_
  obtain ⟨f, hf, heq⟩ := List.mem_filterMap.mp hev
  cases f with
  | event ev' =>
    cases heq
    exact hf
  | sealed | sent => cases heq

theorem framesOf_pushOnce {s : Sender} (h : s.state.canSend = true) (ts : TimestampMs)
    (payload : Bytes) (now : Instant) (fault : Option Nat) :
    framesOf (s.pushOnce ts payload now fault).effects = [⟨s.state.nextSeq, ts, payload⟩] := by
  rcases s.state.pushFrame_cases now ts payload with ⟨-, hclosed⟩ | ⟨-, -, hout⟩
  · rw [h] at hclosed
    cases hclosed
  · simp only [pushOnce, hout, framesOf, Option.toList_some]
    rw [dispatch_events _ fault (by simp)]
    rfl

theorem framesOf_finishOnce (s : Sender) (now : Instant) (fault : Option Nat) :
    framesOf (s.finishOnce now fault).effects = [] := by
  refine framesOf_eq_nil fun ev hev => ?_
  have hev := event_mem_dispatch hev
  rcases s.state.finish_cases now with ⟨heq, -⟩ | ⟨-, -, -, -, seq, heq⟩
  · simp [heq] at hev
  · rw [heq, Option.toList_some, List.mem_singleton] at hev
    rw [hev, eventFrame]
    simp

theorem end_not_mem_pushOnce (s : Sender) (ts : TimestampMs) (payload : Bytes) (now : Instant)
    (fault : Option Nat) {seq f : XferSeq} :
    .event (.emit seq (.end f)) ∉ (s.pushOnce ts payload now fault).effects := by
  intro hm
  have hev := event_mem_dispatch hm
  rcases s.state.pushFrame_cases now ts payload with ⟨heq, -⟩ | ⟨-, -, heq⟩
  · simp [heq] at hev
  · simp [heq] at hev

/-- A round of the loop hands out neither a frame nor the end. -/
theorem event_mem_pumpRound {s : Sender} {r : Round} {ev : SendEvent}
    (h : .event ev ∈ (s.pumpRound r).effects) : (∃ seq l, ev = .emit seq (.keepalive l))
      ∨ (∃ reason, ev = .failed reason) ∨ (∃ ds, ev = .resend ds) ∨ ev = .completed := by
  have htick : ∀ s : Sender, .event ev ∈ (s.tickOnce r.tickNow r.tickFault).effects →
      (∃ seq l, ev = .emit seq (.keepalive l)) ∨ ∃ reason, ev = .failed reason := by
    intro s hm
    rcases s.state.tick_events r.tickNow (event_mem_dispatch hm) with ⟨seq, rfl⟩ | hfail
    · exact Or.inl ⟨seq, _, rfl⟩
    · exact Or.inr hfail
  have hhandle : .event ev ∈ (s.handleOnce r.incoming r.now r.fault).effects →
      (∃ ds, ev = .resend ds) ∨ ev = .completed := by
    intro hm
    unfold handleOnce at hm
    split at hm
    · cases hm
    · split at hm
      · cases hm
      · rcases s.state.handle_events r.now _ (event_mem_dispatch hm) with ⟨_, -, rfl⟩ | hc
        · exact Or.inl ⟨_, rfl⟩
        · exact Or.inr hc
  unfold pumpRound pumpOnce Done.andThen at h
  split at h
  · rcases List.mem_append.mp h with h | h
    · exact Or.inr (Or.inr (hhandle h))
    · rcases htick _ h with hk | hf
      · exact Or.inl hk
      · exact Or.inr (Or.inl hf)
  · exact Or.inr (Or.inr (hhandle h))

theorem framesOf_pumpRound (s : Sender) (r : Round) : framesOf (s.pumpRound r).effects = [] := by
  refine framesOf_eq_nil fun ev hev => ?_
  rcases event_mem_pumpRound hev with ⟨_, _, rfl⟩ | ⟨_, rfl⟩ | ⟨_, rfl⟩ | rfl <;> rfl

theorem end_not_mem_pumpRound (s : Sender) (r : Round) {seq f : XferSeq} :
    .event (.emit seq (.end f)) ∉ (s.pumpRound r).effects := by
  intro hm
  rcases event_mem_pumpRound hm with ⟨_, _, h⟩ | ⟨_, h⟩ | ⟨_, h⟩ | h <;> cases h

namespace Task

/-- What the task has handed out and what it has left are its frames, it
announces the end when none is left, and it is done, or ends, as its events
say. -/
structure Inv (frames : List (TimestampMs × Bytes)) (t : List Effect) (k : Task) : Prop where
  frames : frames = (framesOf t).map (fun f => (f.ts, f.payload)) ++ k.todo
  ended : ∀ seq f, .event (.emit seq (.end f)) ∈ t → k.todo = []
  failed : k.result = none → ∀ reason, .event (.failed reason) ∉ t
  done : k.sender.state.state = .done → Concluded t
  ok : k.result = some (.ok ()) → .event .completed ∈ t ∧ k.todo = []

/-- Part of the task is carried out. -/
theorem Inv.did {frames : List (TimestampMs × Bytes)} {t : List Effect} {k : Task} {d : Done}
    (todo : List (TimestampMs × Bytes)) (finishing : Bool) (h : Inv frames t k)
    (hnone : k.result = none)
    (hframes : k.todo = (framesOf d.effects).map (fun f => (f.ts, f.payload)) ++ todo)
    (hended : ∀ seq f, .event (.emit seq (.end f)) ∈ d.effects → todo = [])
    (hdone : DoneStep k.sender d) (htells : Tells k.sender.peer d) :
    Inv frames (t ++ d.effects) (Task.did { k with todo := todo, finishing := finishing } d).1 where
  frames := by
    rw [framesOf_append, List.map_append, List.append_assoc, did_todo, ← hframes]
    exact h.frames
  ended seq f hm := by
    rcases List.mem_append.mp hm with hm | hm
    · have hnil := h.ended seq f hm
      rw [hframes] at hnil
      exact (List.append_eq_nil_iff.mp hnil).2
    · exact hended seq f hm
  failed hres reason hm := by
    rcases List.mem_append.mp hm with hm | hm
    · exact h.failed hnone reason hm
    · have herr := (htells.2 reason).mp hm
      rw [did_result_none.mp hres] at herr
      cases herr
  done hs := by
    rcases hdone.mp hs with hs | hs
    · exact concluded_append.mpr (Or.inl (h.done hs))
    · exact concluded_append.mpr (Or.inr hs)
  ok hres := by
    obtain ⟨-, e, he⟩ := did_result hres
    cases he

theorem Inv.poll {frames : List (TimestampMs × Bytes)} {t : List Effect} {k : Task}
    (h : Inv frames t k) (r : Round) : Inv frames (t ++ (k.poll r).2) (k.poll r).1 := by
  have hp := k.polls r
  generalize k.poll r = q at hp
  cases hp with
  | ended _ =>
    rw [List.append_nil]
    exact h
  | push ts payload todo hnone htodo hopen =>
    refine h.did todo k.finishing hnone ?_ (fun seq f hm => ?_)
      (k.sender.step_doneStep (.push ts payload r.pushNow r.pushFault)) (dispatch_tells _ _ _)
    · rw [framesOf_pushOnce hopen, htodo]
      rfl
    · exact absurd hm (end_not_mem_pushOnce k.sender ts payload r.pushNow r.pushFault)
  | pump hnone _ =>
    refine h.did k.todo k.finishing hnone ?_ (fun seq f hm => ?_)
      (k.sender.step_doneStep (.pump r.incoming r.now r.tickNow r.fault r.tickFault))
      (k.sender.pumpRound_tells r)
    · rw [framesOf_pumpRound]
      rfl
    · exact absurd hm (end_not_mem_pumpRound k.sender r)
  | finish hnone htodo _ =>
    refine h.did k.todo true hnone ?_ (fun _ _ _ => htodo)
      (k.sender.step_doneStep (.finish r.pushNow r.pushFault)) (dispatch_tells _ _ _)
    rw [framesOf_finishOnce]
    rfl
  | done hnone htodo _ hdone =>
    rw [List.append_nil]
    refine ⟨h.frames, h.ended, fun hres => ?_, h.done, fun _ => ⟨?_, htodo⟩⟩
    · cases hres
    · rcases h.done (by simpa [XferSender.isDone] using hdone) with hc | ⟨reason, hfailed⟩
      · exact hc
      · exact absurd hfailed (h.failed hnone reason)

theorem inv_run {s : Sender} (hs : s.state.state ≠ .done)
    (frames : List (TimestampMs × Bytes)) (rounds : List Round) :
    Inv frames ((start s frames).run rounds).2 ((start s frames).run rounds).1 :=
  Machine.run_induction poll (fun _ k t => Inv frames t k)
    ⟨rfl, fun _ _ hm => (by cases hm), fun _ _ hm => (by cases hm), fun hd => absurd hd hs,
      fun hres => by cases hres⟩
    (fun _ _ _ r h => h.poll r) rounds

end Task

end Sender

end Protofish4
