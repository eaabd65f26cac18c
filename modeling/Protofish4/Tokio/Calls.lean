import Protofish4.Tokio.Sender

/-!
# Calls on a Sender

`Sender::send_frame` and `Sender::finish` as the caller sees them: the
wait loops around `pump_once`. What the socket and the clock answer in one
round of a loop is a `Round`; a call that has used up its rounds without
returning is still waiting, or its future was dropped there.
-/

namespace Protofish4

namespace Sender

/-- What the environment answers in one round of a wait loop. -/
structure Round where
  pushNow : Instant
  pushFault : Option Nat
  incoming : Incoming
  now : Instant
  tickNow : Instant
  fault : Option Nat
  tickFault : Option Nat
  deriving DecidableEq

/-- One round in which nothing comes in, at this time. -/
def quietRound (now : Instant) : Round := ⟨now, none, .timeout, now, now, none, none⟩

/-- How far a call has come. -/
structure Progress where
  state : Sender
  effects : List Effect
  /-- What was received and handled, its events dispatched. -/
  handled : List Incoming
  /-- `none` while the call waits. -/
  result : Option (Except CallError Unit)

namespace Progress

/-- The same call, one round later. -/
def after (d : Done) (incoming : Incoming) (p : Progress) : Progress :=
  { p with effects := d.effects ++ p.effects, handled := incoming :: p.handled }

end Progress

def pumpRound (s : Sender) (r : Round) : Done :=
  s.pumpOnce r.incoming r.now r.tickNow r.fault r.tickFault

/-- A round that ends the call with an error; what came in still counts as
handled if it was the tick that failed. -/
def failRound (s : Sender) (r : Round) (e : CallError) : Progress where
  state := (s.pumpRound r).state
  effects := (s.pumpRound r).effects
  handled := if (s.handleOnce r.incoming r.now r.fault).result = .ok () then [r.incoming] else []
  result := some (.error e)

/-- Send one frame, waiting while the send window or the receiver's buffer
says to slow down. -/
def sendFrame (s : Sender) (ts : TimestampMs) (payload : Bytes) : List Round → Progress
  | [] => ⟨s, [], [], none⟩
  | r :: rs =>
    if s.state.canSend then
      let d := s.pushOnce ts payload r.pushNow r.pushFault
      ⟨d.state, d.effects, [], some d.result⟩
    else
      match (s.pumpRound r).result with
      | .error e => s.failRound r e
      | .ok () => ((s.pumpRound r).state.sendFrame ts payload rs).after (s.pumpRound r) r.incoming

/-- `while !self.state.is_done() { self.pump_once().await?; }` -/
def finishLoop (s : Sender) : List Round → Progress
  | [] => ⟨s, [], [], if s.state.isDone then some (.ok ()) else none⟩
  | r :: rs =>
    if s.state.isDone then ⟨s, [], [], some (.ok ())⟩
    else
      match (s.pumpRound r).result with
      | .error e => s.failRound r e
      | .ok () => ((s.pumpRound r).state.finishLoop rs).after (s.pumpRound r) r.incoming

/-- Declare the end of the payload and wait for the receiver to confirm the
tail. -/
def finish (s : Sender) (now : Instant) (fault : Option Nat) (rounds : List Round) : Progress :=
  match (s.finishOnce now fault).result with
  | .error e => ⟨(s.finishOnce now fault).state, (s.finishOnce now fault).effects, [],
      some (.error e)⟩
  | .ok () =>
    let p := (s.finishOnce now fault).state.finishLoop rounds
    { p with effects := (s.finishOnce now fault).effects ++ p.effects }

/-- One call on a sender, with the rounds it makes at most. -/
inductive Call where
  | sendFrame (ts : TimestampMs) (payload : Bytes) (rounds : List Round)
  | finish (now : Instant) (fault : Option Nat) (rounds : List Round)
  deriving DecidableEq

def call (s : Sender) : Call → Progress
  | .sendFrame ts payload rounds => s.sendFrame ts payload rounds
  | .finish now fault rounds => s.finish now fault rounds

/-- The calls of an application, one after the other; it may go on after an
error. -/
def callRun (s : Sender) (calls : List Call) : Sender × List Effect :=
  Machine.run (fun s c => ((s.call c).state, (s.call c).effects)) s calls

/-! ## A call is made of steps -/

/-- State and effects are those of some steps in a row. -/
def IsRun (s : Sender) (p : Progress) : Prop := ∃ steps, s.run steps = (p.state, p.effects)

theorem pumpRound_isRun (s : Sender) (r : Round) :
    s.run [.pump r.incoming r.now r.tickNow r.fault r.tickFault]
      = ((s.pumpRound r).state, (s.pumpRound r).effects) := run_singleton s _

theorem sendFrame_isRun (s : Sender) (ts : TimestampMs) (payload : Bytes) (rounds : List Round) :
    IsRun s (s.sendFrame ts payload rounds) := by
  induction rounds generalizing s with
  | nil => exact ⟨[], rfl⟩
  | cons r rs ih =>
    unfold sendFrame
    split
    · exact ⟨[.push ts payload r.pushNow r.pushFault], run_singleton s _⟩
    · split
      · exact ⟨_, s.pumpRound_isRun r⟩
      · obtain ⟨steps, hsteps⟩ := ih (s.pumpRound r).state
        refine ⟨.pump r.incoming r.now r.tickNow r.fault r.tickFault :: steps, ?_⟩
        rw [← List.singleton_append, run_append, s.pumpRound_isRun, hsteps]
        rfl

theorem finishLoop_isRun (s : Sender) (rounds : List Round) : IsRun s (s.finishLoop rounds) := by
  induction rounds generalizing s with
  | nil => exact ⟨[], rfl⟩
  | cons r rs ih =>
    unfold finishLoop
    split
    · exact ⟨[], rfl⟩
    · split
      · exact ⟨_, s.pumpRound_isRun r⟩
      · obtain ⟨steps, hsteps⟩ := ih (s.pumpRound r).state
        refine ⟨.pump r.incoming r.now r.tickNow r.fault r.tickFault :: steps, ?_⟩
        rw [← List.singleton_append, run_append, s.pumpRound_isRun, hsteps]
        rfl

theorem call_isRun (s : Sender) (c : Call) : IsRun s (s.call c) := by
  cases c with
  | sendFrame ts payload rounds => exact sendFrame_isRun s ts payload rounds
  | finish now fault rounds =>
    simp only [call, finish]
    split
    · exact ⟨[.finish now fault], run_singleton s _⟩
    · obtain ⟨steps, hsteps⟩ := finishLoop_isRun (s.finishOnce now fault).state rounds
      refine ⟨.finish now fault :: steps, ?_⟩
      rw [← List.singleton_append, run_append, run_singleton]
      simp only [step, hsteps]

/-- A run of calls is a run of steps. -/
theorem callRun_isRun (s : Sender) (calls : List Call) :
    ∃ steps, s.run steps = s.callRun calls := by
  induction calls generalizing s with
  | nil => exact ⟨[], rfl⟩
  | cons c calls ih =>
    obtain ⟨first, hfirst⟩ := s.call_isRun c
    obtain ⟨rest, hrest⟩ := ih (s.call c).state
    refine ⟨first ++ rest, ?_⟩
    rw [run_append, hfirst, hrest]
    rfl

end Sender

end Protofish4
