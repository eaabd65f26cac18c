import Protofish4.Tokio.Nonces
import Protofish4.Xfer.Terminal

/-!
# What an entry makes of its receiver

An entry drives an `XferReceiver` and turns its events into channel sends
and datagrams. Nothing is added, lost or reordered on the way: the two
streams and the outcome are those of the receiver's events, and every
control event goes out as one sealed packet.
-/

namespace Protofish4

/-- The frames handed up for playback, in order. -/
def unreliables (evs : List RecvEvent) : List Frame :=
  evs.filterMap fun
    | .unreliable frame => some frame
    | _ => none

/-- The outcomes declared, in order. -/
def outcomesOf (evs : List RecvEvent) : List RelOutcome :=
  evs.filterMap fun
    | .relFinished outcome => some outcome
    | _ => none

namespace RecvEvent

/-- The events that ask for a packet to the peer. -/
def isControl : RecvEvent → Bool
  | .sendNack _ | .sendAck .. | .sendEndAck => true
  | _ => false

/-- The packets that answer an event: in an `Ack`, the entry fills in the
occupancy. -/
def Asks : RecvEvent → Body → Prop
  | .sendNack missing, body => body = .nack missing
  | .sendAck contiguous highest _, body => ∃ bufferedMs, body = .ack contiguous highest bufferedMs
  | .sendEndAck, body => body = .endAck
  | _, _ => False

end RecvEvent

namespace Entry

/-- The call an entry's step makes on its receiver. -/
def Step.call (key : SessionKey) : Step → Option RecvCall
  | .datagram bytes _ now _ => (openBody key .send bytes).map fun p => .handle p.1 p.2 now
  | .tick now _ => some (.tick now)
  | .setPlayheadMs .. => none

/-- The frames handed to the reliable stream, in order; where its consumer
has hung up, `delivered` says so. -/
def relFrames (t : List Effect) : List Frame :=
  t.filterMap fun
    | .rel frame _ => some frame
    | _ => none

/-- The frames tried on the playback channel, in order, and whether there
was room. -/
def unrelFrames (t : List Effect) : List (Frame × Bool) :=
  t.filterMap fun
    | .unrel frame delivered => some (frame, delivered)
    | _ => none

/-- The outcomes sent. -/
def outcomes (t : List Effect) : List RelOutcome :=
  t.filterMap fun
    | .outcome outcome => some outcome
    | _ => none

/-- The playback frames that found no room. -/
def dropped (t : List Effect) : Nat := (unrelFrames t).countP fun p => !p.2

@[simp] theorem relFrames_append (t u : List Effect) :
    relFrames (t ++ u) = relFrames t ++ relFrames u := List.filterMap_append

@[simp] theorem unrelFrames_append (t u : List Effect) :
    unrelFrames (t ++ u) = unrelFrames t ++ unrelFrames u := List.filterMap_append

@[simp] theorem outcomes_append (t u : List Effect) :
    outcomes (t ++ u) = outcomes t ++ outcomes u := List.filterMap_append

@[simp] theorem dropped_append (t u : List Effect) : dropped (t ++ u) = dropped t + dropped u := by
  simp [dropped]

/-- A sealed packet that opens to what the event asks for. -/
def Answers (key : SessionKey) (ev : RecvEvent) (call : SealCall) : Prop :=
  ∃ body d, ev.Asks body ∧ call.result = .ok d
    ∧ openBody key .recv d = some (⟨call.header.seq⟩, body)

/-- What these events come to at the entry `e`: the streams, and the state
of what is kept about them. -/
structure Shows (e : Entry) (evs : List RecvEvent) (p : Applied) : Prop where
  key : p.entry.key = e.key
  rel : relFrames p.effects = reliables evs
  unrel : (unrelFrames p.effects).map Prod.fst = unreliables evs
  dropped : p.entry.droppedUnrel = e.droppedUnrel + Entry.dropped p.effects
  outcome : outcomes p.effects = if e.outcomeTx then (outcomesOf evs).take 1 else []
  outcomeTx : p.entry.outcomeTx = (e.outcomeTx && (outcomesOf evs).isEmpty)
  answers : List.Forall₂ (Answers e.key) (evs.filter RecvEvent.isControl) (sealCalls p.effects)
  out : p.out.map .ok = (sealCalls p.effects).map SealCall.result

theorem Shows.nil (e : Entry) : Shows e [] ⟨e, [], []⟩ where
  key := rfl
  rel := rfl
  unrel := rfl
  dropped := rfl
  outcome := by simp [outcomes, outcomesOf]
  outcomeTx := by simp [outcomesOf]
  answers := .nil
  out := rfl

theorem Shows.append {e : Entry} {evs evs' : List RecvEvent} {p q : Applied} (h : Shows e evs p)
    (h' : Shows p.entry evs' q) :
    Shows e (evs ++ evs') ⟨q.entry, p.effects ++ q.effects, p.out ++ q.out⟩ where
  key := h'.key.trans h.key
  rel := by rw [relFrames_append, h.rel, h'.rel, reliables_append]
  unrel := by
    rw [unrelFrames_append, List.map_append, h.unrel, h'.unrel]
    exact List.filterMap_append.symm
  dropped := by rw [h'.dropped, h.dropped, dropped_append, Nat.add_assoc]
  outcome := by
    have happ : outcomesOf (evs ++ evs') = outcomesOf evs ++ outcomesOf evs' :=
      List.filterMap_append
    rw [outcomes_append, h.outcome, h'.outcome, h.outcomeTx, happ]
    cases e.outcomeTx <;> cases outcomesOf evs <;> simp
  outcomeTx := by
    have happ : outcomesOf (evs ++ evs') = outcomesOf evs ++ outcomesOf evs' :=
      List.filterMap_append
    rw [h'.outcomeTx, h.outcomeTx, happ, Bool.and_assoc]
    cases outcomesOf evs <;> rfl
  answers := by
    have hrest := h'.answers
    rw [h.key] at hrest
    rw [List.filter_append, sealCalls_append]
    exact List.rel_append h.answers hrest
  out := by rw [List.map_append, sealCalls_append, List.map_append, h.out, h'.out]

/-- A packet that encodes is sealed, and opens again. -/
theorem seal_shows (e : Entry) (id : RequestId) (ev : RecvEvent) (body : Body)
    (hasks : ev.Asks body) (hkind : body.kind.direction = .recv)
    (henc : ∃ plaintext, encodeBody body = .ok plaintext) : Shows e [ev] (e.seal id body) := by
  obtain ⟨plaintext, henc⟩ := henc
  obtain ⟨d, hd⟩ := @sealBody_isOk e.key id .recv e.controlSeq.val body plaintext henc
  have hrun : (SealCall.run e.key ⟨body.kind, id, e.controlSeq.val⟩ .recv plaintext).result
      = .ok d := by
    simpa [sealBody, henc, Bind.bind, Except.bind, SealCall.run] using hd
  have hopen := openBody_sealBody hd hkind
  have hcontrol : ev.isControl = true := by
    cases ev <;> first | rfl | exact hasks.elim
  have hempty : reliables [ev] = [] ∧ unreliables [ev] = [] ∧ outcomesOf [ev] = [] := by
    cases ev <;> first | exact ⟨rfl, rfl, rfl⟩ | exact hasks.elim
  simp only [«seal», henc, hrun]
  exact {
    key := rfl
    rel := hempty.1.symm
    unrel := hempty.2.1.symm
    dropped := rfl
    outcome := by rw [hempty.2.2]; simp [outcomes]
    outcomeTx := by rw [hempty.2.2]; simp
    answers := by
      rw [List.filter_cons_of_pos hcontrol]
      exact .cons ⟨body, d, hasks, hrun, hopen⟩ .nil
    out := by simp [sealCalls, Effect.sealCall, hrun] }

/-- One event, given that a request for frames fits into a packet. -/
theorem applyOne_shows (e : Entry) (id : RequestId) (around : Around) (ev : RecvEvent)
    (hnack : ∀ missing, ev = .sendNack missing → missing.length ≤ maxNackEntries) :
    Shows e [ev] (e.applyOne id around ev) := by
  cases ev with
  | unreliable f =>
    simp only [applyOne, deliverUnrel]
    split
    · exact ⟨rfl, rfl, rfl, rfl, by simp [outcomes, outcomesOf],
        by simp [outcomesOf, noteTimestamp], .nil, rfl⟩
    · split <;> exact ⟨rfl, rfl, rfl, rfl, by simp [outcomes, outcomesOf],
        by simp [outcomesOf, noteTimestamp], .nil, rfl⟩
  | reliable f =>
    exact ⟨rfl, rfl, rfl, rfl, by simp [applyOne, outcomes, outcomesOf],
      by simp [applyOne, outcomesOf, noteTimestamp], .nil, rfl⟩
  | sendNack missing =>
    refine e.seal_shows id (.sendNack missing) (.nack missing) rfl rfl
      ⟨u16Bytes (UInt16.ofNat missing.length) ++ seqBytes missing, ?_⟩
    simp only [encodeBody]
    rw [if_neg (not_lt.mpr (hnack missing rfl))]
  | sendAck contiguous highest bufferedMs =>
    exact e.seal_shows id (.sendAck contiguous highest bufferedMs) _ ⟨_, rfl⟩ rfl ⟨_, rfl⟩
  | sendEndAck => exact e.seal_shows id .sendEndAck .endAck rfl rfl ⟨_, rfl⟩
  | relFinished outcome =>
    simp only [applyOne]
    cases htx : e.outcomeTx with
    | true => exact ⟨rfl, rfl, rfl, rfl, by simp [htx, outcomes, outcomesOf],
        by simp [outcomesOf], .nil, rfl⟩
    | false => exact ⟨rfl, rfl, rfl, rfl, by simp [htx, outcomes],
        by simp [outcomesOf], .nil, rfl⟩
  | closed =>
    exact ⟨rfl, rfl, rfl, rfl, by simp [applyOne, outcomes, outcomesOf],
      by simp [applyOne, outcomesOf], .nil, rfl⟩

theorem apply_shows (e : Entry) (id : RequestId) (around : Around) {evs : List RecvEvent}
    (hnack : ∀ missing, .sendNack missing ∈ evs → missing.length ≤ maxNackEntries) :
    Shows e evs (e.apply id around evs) := by
  induction evs generalizing e with
  | nil => exact .nil e
  | cons ev evs ih =>
    have hone := e.applyOne_shows id around ev fun missing heq =>
      hnack missing (heq ▸ List.mem_cons_self)
    exact hone.append (ih (e.applyOne id around ev).entry fun missing hm =>
      hnack missing (List.mem_cons_of_mem ev hm))

/-! ## A run -/

/-- The calls a run makes on the receiver. -/
def callsOf (key : SessionKey) (steps : List Step) : List RecvCall :=
  steps.filterMap (Step.call key)

/-- All that an entry does in these steps. -/
def drive (e : Entry) (id : RequestId) : List Step → Applied
  | [] => ⟨e, [], []⟩
  | x :: xs =>
    let p := e.step id x
    let q := p.entry.drive id xs
    ⟨q.entry, p.effects ++ q.effects, p.out ++ q.out⟩

theorem run_eq_drive (e : Entry) (id : RequestId) (steps : List Step) :
    e.run id steps = ((e.drive id steps).entry, (e.drive id steps).effects) := by
  induction steps generalizing e with
  | nil => rfl
  | cons x xs ih =>
    have hrest := ih (e.step id x).entry
    unfold run at hrest ⊢
    rw [Machine.run_cons, Machine.andThen, hrest]
    rfl

theorem drive_concat (e : Entry) (id : RequestId) (steps : List Step) (x : Step) :
    (e.drive id (steps ++ [x])).entry = ((e.drive id steps).entry.step id x).entry
      ∧ (e.drive id (steps ++ [x])).effects
        = (e.drive id steps).effects ++ ((e.drive id steps).entry.step id x).effects := by
  have hrun := e.run_eq_drive id (steps ++ [x])
  unfold run at hrun
  rw [Machine.run_concat] at hrun
  change Machine.andThen (e.run id steps) _ = _ at hrun
  rw [run_eq_drive] at hrun
  exact ⟨(congrArg Prod.fst hrun).symm, (congrArg Prod.snd hrun).symm⟩

/-- What is kept beside the receiver does not matter to what events show. -/
theorem Shows.rebase {e e' : Entry} {evs : List RecvEvent} {p : Applied} (h : Shows e' evs p)
    (hkey : e'.key = e.key) (hdropped : e'.droppedUnrel = e.droppedUnrel)
    (htx : e'.outcomeTx = e.outcomeTx) : Shows e evs p :=
  ⟨hkey ▸ h.key, h.rel, h.unrel, hdropped ▸ h.dropped, htx ▸ h.outcome, htx ▸ h.outcomeTx,
    hkey ▸ h.answers, h.out⟩

/-- One step makes at most one call. -/
theorem step_state (e : Entry) (id : RequestId) (x : Step) :
    (e.step id x).entry.state = ((x.call e.key).elim (e.state, []) e.state.step).1 := by
  cases x with
  | datagram bytes source now around =>
    simp only [step, onDatagram, Step.call]
    cases openBody e.key .send bytes with
    | none => rfl
    | some p => exact (Entry.apply_frame ..).1
  | tick now around => exact (Entry.apply_frame ..).1
  | setPlayheadMs ms now => rfl

/-- One step shows the events of its call. -/
theorem step_shows (e : Entry) (id : RequestId) (hwf : e.state.gaps.WF) (x : Step) :
    Shows e ((x.call e.key).elim (e.state, []) e.state.step).2 (e.step id x) := by
  -- the events of a call, applied to the entry that holds its state
  have hcall : ∀ (e' : Entry) (around : Around) (c : RecvCall), e'.key = e.key →
      e'.droppedUnrel = e.droppedUnrel → e'.outcomeTx = e.outcomeTx →
      Shows e (e.state.step c).2 (e'.apply id around (e.state.step c).2) := by
    intro e' around c hkey hdropped htx
    exact (e'.apply_shows id around fun missing hm =>
      XferReceiver.sendNack_of_mem_step hwf hm).rebase hkey hdropped htx
  cases x with
  | datagram bytes source now around =>
    simp only [step, onDatagram, Step.call]
    cases hopen : openBody e.key .send bytes with
    | none => exact .nil e
    | some p => exact hcall _ around (.handle p.1 p.2 now) rfl rfl rfl
  | tick now around => exact hcall _ around (.tick now) rfl rfl rfl
  | setPlayheadMs ms now => exact (Shows.nil _).rebase rfl rfl rfl

theorem drive_shows (e : Entry) (id : RequestId) (hwf : e.state.gaps.WF) (steps : List Step) :
    (e.drive id steps).entry.state
        = (Machine.run XferReceiver.step e.state (callsOf e.key steps)).1
      ∧ Shows e (Machine.run XferReceiver.step e.state (callsOf e.key steps)).2
        (e.drive id steps) := by
  induction steps generalizing e with
  | nil => exact ⟨rfl, .nil e⟩
  | cons x xs ih =>
    have hstate := e.step_state id x
    have hshows := e.step_shows id hwf x
    have hwf' : (e.step id x).entry.state.gaps.WF := by
      rw [hstate]
      cases x.call e.key with
      | none => exact hwf
      | some c => exact XferReceiver.step_wf hwf c
    obtain ⟨hrun, hrest⟩ := ih (e.step id x).entry hwf'
    rw [hshows.key, hstate] at hrun hrest
    have hall := hshows.append hrest
    cases hcall : x.call e.key with
    | none =>
      rw [hcall] at hrun hall
      rw [callsOf, List.filterMap_cons_none hcall]
      exact ⟨hrun, hall⟩
    | some c =>
      rw [hcall] at hrun hall
      rw [callsOf, List.filterMap_cons_some hcall, Machine.run_cons]
      exact ⟨hrun, hall⟩

/-! ## The streams of a transfer -/

theorem mem_outcomes {t : List Effect} {o : RelOutcome} : o ∈ outcomes t ↔ .outcome o ∈ t := by
  refine List.mem_filterMap.trans ⟨?_, fun h => ⟨_, h, rfl⟩⟩
  rintro ⟨f, hf, ho⟩
  cases f with
  | outcome o' =>
    cases ho
    exact hf
  | unrel | rel | sealed | warned => cases ho

theorem mem_outcomesOf {evs : List RecvEvent} {o : RelOutcome} :
    o ∈ outcomesOf evs ↔ .relFinished o ∈ evs := by
  refine List.mem_filterMap.trans ⟨?_, fun h => ⟨_, h, rfl⟩⟩
  rintro ⟨ev, hev, ho⟩
  cases ev with
  | relFinished o' =>
    cases ho
    exact hev
  | unreliable | reliable | sendNack | sendAck | sendEndAck | closed => cases ho

theorem length_outcomesOf (evs : List RecvEvent) :
    (outcomesOf evs).length = evs.countP RecvEvent.isOutcome := by
  induction evs with
  | nil => rfl
  | cons ev evs ih =>
    unfold outcomesOf at ih ⊢
    rw [List.countP_cons, ← ih]
    cases ev <;> rfl

section Fresh

variable (key : SessionKey) (id : RequestId) (cfg : ReceiverConfig) (start : Instant)
variable (steps : List Step)

/-- A stream that streams has declared no outcome, any other exactly one. -/
theorem length_outcomes :
    (outcomesOf (XferReceiver.run cfg start (callsOf key steps)).2).length
      = if (XferReceiver.run cfg start (callsOf key steps)).1.relState = .streaming then 0
        else 1 := by
  rw [length_outcomesOf]
  exact (XferReceiver.recvInv_run cfg start (callsOf key steps)).ends.countP_isOutcome

/-- Every outcome declared is sent. -/
theorem drive_outcomes : outcomes ((new key cfg start).drive id steps).effects
    = outcomesOf (XferReceiver.run cfg start (callsOf key steps)).2 := by
  obtain ⟨-, hshows⟩ := (new key cfg start).drive_shows id GapTracker.wf_new steps
  refine hshows.outcome.trans (List.take_of_length_le ?_)
  refine (length_outcomes key cfg start steps).trans_le ?_
  split <;> omega

/-- A closed receiver's entry has sent its outcome. -/
theorem outcome_of_closed
    (h : (XferReceiver.run cfg start (callsOf key steps)).1.closed = true) :
    ∃ o, outcomes ((new key cfg start).drive id steps).effects = [o] := by
  have hinv := XferReceiver.recvInv_run cfg start (callsOf key steps)
  have hfinished : (XferReceiver.run cfg start (callsOf key steps)).1.relState ≠ .streaming := by
    intro hs
    rw [(hinv.live hs).not_closed] at h
    cases h
  have hlen := length_outcomes key cfg start steps
  rw [if_neg hfinished] at hlen
  rw [drive_outcomes]
  exact List.length_eq_one_iff.mp hlen

end Fresh

/-- **The entry is its receiver, made visible.** Over any steps: its state
is that of the calls made on a receiver; the reliable stream and playback
get the frames of its events, in order, with every playback frame without
room counted; the outcome is sent when it is declared, and exactly one has
been sent once the receiver is closed; and the packets handed to the socket
are, one for each control event and in order, sealed packets that open to
what the event asks for. -/
theorem streams_exact (key : SessionKey) (id : RequestId) (cfg : ReceiverConfig) (start : Instant)
    (steps : List Step) :
    let p := (new key cfg start).drive id steps
    let r := XferReceiver.run cfg start (callsOf key steps)
    p.entry.state = r.1
      ∧ relFrames p.effects = reliables r.2
      ∧ (unrelFrames p.effects).map Prod.fst = unreliables r.2
      ∧ p.entry.droppedUnrel = dropped p.effects
      ∧ outcomes p.effects = outcomesOf r.2
      ∧ (r.1.closed = true → ∃ o, outcomes p.effects = [o])
      ∧ List.Forall₂ (Answers key) (r.2.filter RecvEvent.isControl) (sealCalls p.effects)
      ∧ p.out.map .ok = (sealCalls p.effects).map SealCall.result := by
  intro p r
  obtain ⟨hstate, hshows⟩ := (new key cfg start).drive_shows id GapTracker.wf_new steps
  exact ⟨hstate, hshows.rel, hshows.unrel, hshows.dropped.trans (Nat.zero_add _),
    drive_outcomes key id cfg start steps, outcome_of_closed key id cfg start steps,
    hshows.answers, hshows.out⟩

end Entry

end Protofish4
