import Protofish4.Tokio.Channels
import Protofish4.Tokio.SlowConsumer
import Protofish4.Tokio.Streams

/-!
# Backpressure loses nothing

A frame that is released goes into the reliable channel when there is room
and waits, the entries lock in hand, when there is none; a playback frame
is dropped and counted instead. Whatever the two consumers do, what they
have received and what is queued for them is, in order, what the receiver
has released.
-/

namespace Protofish4

/-! ## Passing events on -/

/-- An entry and its channels before and after these events have been
passed on. -/
structure Passes (e : Entry) (c : Channels) (done : List RecvEvent) (e' : Entry) (c' : Channels) :
    Prop where
  state : e'.state = e.state
  key : e'.key = e.key
  relOpen : c'.relOpen = c.relOpen
  rel : c.relOpen = true → c'.rel = c.rel ++ reliables done
  relCap : c.rel.length ≤ channelCap → c'.rel.length ≤ channelCap
  unrelOpen : c'.unrelOpen = c.unrelOpen
  /-- Of the playback frames some have found room, the others are counted. -/
  unrel : ∃ fits, c'.unrel = c.unrel ++ fits ∧ fits.Sublist (unreliables done)
    ∧ e'.droppedUnrel + fits.length = e.droppedUnrel + (unreliables done).length
  unrelCap : c.unrel.length ≤ channelCap → c'.unrel.length ≤ channelCap
  outcomeTx : e'.outcomeTx = (e.outcomeTx && (outcomesOf done).isEmpty)

namespace Passes

variable {e e' e'' : Entry} {c c' c'' : Channels} {done more : List RecvEvent}

theorem nil (e : Entry) (c : Channels) : Passes e c [] e c where
  state := rfl
  key := rfl
  relOpen := rfl
  rel _ := (List.append_nil _).symm
  relCap := id
  unrelOpen := rfl
  unrel := ⟨[], (List.append_nil _).symm, List.nil_sublist _, rfl⟩
  unrelCap := id
  outcomeTx := by simp [outcomesOf]

theorem append (h : Passes e c done e' c') (h' : Passes e' c' more e'' c'') :
    Passes e c (done ++ more) e'' c'' where
  state := h'.state.trans h.state
  key := h'.key.trans h.key
  relOpen := h'.relOpen.trans h.relOpen
  rel ho := by
    rw [h'.rel (h.relOpen.trans ho), h.rel ho, reliables_append, List.append_assoc]
  relCap hc := h'.relCap (h.relCap hc)
  unrelOpen := h'.unrelOpen.trans h.unrelOpen
  unrel := by
    obtain ⟨fits, hq, hsub, hlen⟩ := h.unrel
    obtain ⟨fits', hq', hsub', hlen'⟩ := h'.unrel
    have happ : unreliables (done ++ more) = unreliables done ++ unreliables more :=
      List.filterMap_append
    refine ⟨fits ++ fits', by rw [hq', hq, List.append_assoc], ?_, ?_⟩
    · rw [happ]
      exact hsub.append hsub'
    · rw [happ, List.length_append, List.length_append]
      omega
  unrelCap hc := h'.unrelCap (h.unrelCap hc)
  outcomeTx := by
    have happ : outcomesOf (done ++ more) = outcomesOf done ++ outcomesOf more :=
      List.filterMap_append
    rw [h'.outcomeTx, h.outcomeTx, happ, Bool.and_assoc]
    cases outcomesOf done <;> rfl

/-- Events that are no frames leave the channels. -/
theorem of_control (hstate : e'.state = e.state) (hkey : e'.key = e.key)
    (hdropped : e'.droppedUnrel = e.droppedUnrel) (hrel : reliables done = [])
    (hunrel : unreliables done = [])
    (htx : e'.outcomeTx = (e.outcomeTx && (outcomesOf done).isEmpty)) :
    Passes e c done e' c where
  state := hstate
  key := hkey
  relOpen := rfl
  rel _ := by rw [hrel, List.append_nil]
  relCap := id
  unrelOpen := rfl
  unrel := ⟨[], (List.append_nil _).symm, List.nil_sublist _, by rw [hdropped, hunrel]⟩
  unrelCap := id
  outcomeTx := htx

/-- One event that need not wait. -/
theorem one (e : Entry) (id : RequestId) (t : Readings) {ev : RecvEvent}
    (hb : c.blocks ev = false) :
    Passes e c [ev] (e.applyOne id (c.around t) ev).entry (c.put ev) := by
  obtain ⟨hstate, hkey, -⟩ := e.applyOne_frame id (c.around t) ev
  cases ev with
  | unreliable f =>
    have htx : (e.applyOne id (c.around t) (.unreliable f)).entry.outcomeTx = e.outcomeTx := by
      simp only [Entry.applyOne, Entry.deliverUnrel]
      split
      · rfl
      · split <;> rfl
    cases hroom : c.unrelRoom with
    | true =>
      have hlen : c.unrel.length < channelCap := by
        simp only [Channels.unrelRoom, Bool.and_eq_true, decide_eq_true_eq] at hroom
        exact hroom.2
      have hput : c.put (.unreliable f) = { c with unrel := c.unrel ++ [f] } := by
        simp [Channels.put, hroom]
      rw [hput]
      refine ⟨hstate, hkey, rfl, fun _ => (List.append_nil _).symm, fun hc => hc, rfl,
        ⟨[f], rfl, .refl _, ?_⟩, fun _ => by simpa using hlen, by simp [htx, outcomesOf]⟩
      simp [Entry.applyOne, Entry.deliverUnrel, Channels.around, hroom, Entry.noteTimestamp,
        unreliables]
    | false =>
      have hput : c.put (.unreliable f) = c := by simp [Channels.put, hroom]
      rw [hput]
      refine ⟨hstate, hkey, rfl, fun _ => (List.append_nil _).symm, fun hc => hc, rfl,
        ⟨[], (List.append_nil _).symm, List.nil_sublist _, ?_⟩, fun hc => hc,
        by simp [htx, outcomesOf]⟩
      simp only [Entry.applyOne, Entry.deliverUnrel, Channels.around, hroom, Bool.false_eq_true,
        if_false]
      split <;> simp [Entry.noteTimestamp, unreliables]
  | reliable f =>
    cases ho : c.relOpen with
    | false =>
      have hput : c.put (.reliable f) = c := by simp [Channels.put, ho]
      rw [hput]
      exact ⟨hstate, hkey, rfl, fun h => by simp [ho] at h, fun hc => hc, rfl,
        ⟨[], (List.append_nil _).symm, List.nil_sublist _, rfl⟩, fun hc => hc, by
          simp [Entry.applyOne, Entry.noteTimestamp, outcomesOf]⟩
    | true =>
      have hput : c.put (.reliable f) = { c with rel := c.rel ++ [f] } := by
        simp [Channels.put, ho]
      have hlen : c.rel.length < channelCap := by
        simpa [Channels.blocks, Channels.relFull, ho] using hb
      rw [hput]
      exact ⟨hstate, hkey, rfl, fun _ => rfl, fun _ => by simpa using hlen, rfl,
        ⟨[], (List.append_nil _).symm, List.nil_sublist _, rfl⟩, fun hc => hc, by
          simp [Entry.applyOne, Entry.noteTimestamp, outcomesOf]⟩
  | relFinished o =>
    exact of_control hstate hkey rfl rfl rfl (by simp [Entry.applyOne, outcomesOf])
  | sendNack missing =>
    refine of_control hstate hkey ?_ rfl rfl ?_ <;>
      simp only [Entry.applyOne, Entry.seal] <;> split <;> simp [outcomesOf]
  | sendAck contiguous highest bufferedMs =>
    refine of_control hstate hkey ?_ rfl rfl ?_ <;>
      simp only [Entry.applyOne, Entry.seal] <;> split <;> simp [outcomesOf]
  | sendEndAck =>
    refine of_control hstate hkey ?_ rfl rfl ?_ <;>
      simp only [Entry.applyOne, Entry.seal] <;> split <;> simp [outcomesOf]
  | closed => exact of_control hstate hkey rfl rfl rfl (by simp [Entry.applyOne, outcomesOf])

end Passes

/-- **What `apply` passes on** and what it leaves waiting are the events, in
order. -/
theorem Entry.hand_passes (e : Entry) (c : Channels) (id : RequestId) (t : Readings)
    (evs : List RecvEvent) : ∃ done, evs = done ++ (e.hand c id t evs).rest
      ∧ Passes e c done (e.hand c id t evs).applied.entry (e.hand c id t evs).chans := by
  induction evs generalizing e c with
  | nil => exact ⟨[], rfl, .nil e c⟩
  | cons ev evs ih =>
    cases hb : c.blocks ev with
    | false =>
      obtain ⟨done, hsplit, hpasses⟩ := ih (e.applyOne id (c.around t) ev).entry (c.put ev)
      rw [hand_cons_of_not_blocks hb]
      exact ⟨ev :: done, congrArg (ev :: ·) hsplit, (Passes.one e id t hb).append hpasses⟩
    | true =>
      refine ⟨[], by simp [hand, hb], ?_⟩
      have hwaits : e.hand c id t (ev :: evs) = ⟨⟨e.noteEvent ev, [], []⟩, c, ev :: evs⟩ := by
        simp [hand, hb]
      rw [hwaits]
      refine Passes.of_control ?_ ?_ ?_ rfl rfl ?_ <;> cases ev <;> simp [noteEvent,
        noteTimestamp, outcomesOf]

/-! ## What happens to one request -/

/-- A call on its receiver, or a frame one of its consumers receives. -/
inductive Notice where
  | call (c : RecvCall)
  | tookRel (frame : Frame)
  | tookUnrel (frame : Frame)

namespace LockedEndpoint

/-- The events of the request that the call which keeps the lock has still
to pass on. -/
def pending (s : LockedEndpoint) (id : RequestId) : List RecvEvent :=
  match s.held with
  | some h => if h.id = id then h.rest else []
  | none => []

/-- The call that a job makes on the receiver of `id`. -/
def Job.call (s : LockedEndpoint) (id : RequestId) (clock : RequestId → Readings) :
    Job → Option RecvCall
  | .arm .. => none
  | .datagram bytes _ =>
    if requestIdOf bytes = .ok id then
      (s.endpoint.entries.lookup id).bind fun e =>
        (openBody e.key .send bytes).map fun p => .handle p.1 p.2 (clock id).now
    else none
  | .tick now => (s.endpoint.entries.lookup id).map fun _ => .tick now

def notices (id : RequestId) (s : LockedEndpoint) : Step → List Notice
  | .grant n clock =>
    match s.held, s.waiting[n]? with
    | none, some job => ((Job.call s id clock job).map .call).toList
    | _, _ => []
  | .takeRel id' => if id' = id then ((s.chans id).rel.head?.map .tookRel).toList else []
  | .takeUnrel id' => if id' = id then ((s.chans id).unrel.head?.map .tookUnrel).toList else []
  | _ => []

/-- A run, as the application of `id` and its receiver see it. -/
def watch (id : RequestId) (s : LockedEndpoint) (xs : List Step) :
    LockedEndpoint × List Notice :=
  Machine.run (fun s x => ((s.step x).1, s.notices id x)) s xs

end LockedEndpoint

def callsIn (t : List Notice) : List RecvCall :=
  t.filterMap fun
    | .call c => some c
    | _ => none

/-- What the consumer of the reliable stream has received. -/
def tookRel (t : List Notice) : List Frame :=
  t.filterMap fun
    | .tookRel frame => some frame
    | _ => none

def tookUnrel (t : List Notice) : List Frame :=
  t.filterMap fun
    | .tookUnrel frame => some frame
    | _ => none

@[simp] theorem callsIn_append (t u : List Notice) :
    callsIn (t ++ u) = callsIn t ++ callsIn u := List.filterMap_append

@[simp] theorem tookRel_append (t u : List Notice) :
    tookRel (t ++ u) = tookRel t ++ tookRel u := List.filterMap_append

@[simp] theorem tookUnrel_append (t u : List Notice) :
    tookUnrel (t ++ u) = tookUnrel t ++ tookUnrel u := List.filterMap_append

/-- **What is conserved** for a request, its receiver having declared
`evs`: some of them have been passed on, the rest is pending; the reliable
frames passed on have been received or are queued, and so are the playback
frames that are not counted as dropped. -/
structure Conserves (evs : List RecvEvent) (t : List Notice) (pending : List RecvEvent)
    (c : Channels) (e : Entry) : Prop where
  relCap : c.rel.length ≤ channelCap
  unrelCap : c.unrel.length ≤ channelCap
  passed : ∃ done, evs = done ++ pending
    ∧ (c.relOpen = true → reliables done = tookRel t ++ c.rel)
    ∧ (c.unrelOpen = true → (tookUnrel t ++ c.unrel).Sublist (unreliables done)
      ∧ e.droppedUnrel + (tookUnrel t ++ c.unrel).length = (unreliables done).length)
    ∧ e.outcomeTx = (outcomesOf done).isEmpty

namespace Conserves

variable {evs more pending rest : List RecvEvent} {t : List Notice} {c c' : Channels}
variable {e e' : Entry}

theorem fresh (key : SessionKey) (cfg : ReceiverConfig) (start : Instant) :
    Conserves [] [] [] .fresh (.new key cfg start) where
  relCap := Nat.zero_le _
  unrelCap := Nat.zero_le _
  passed := ⟨[], rfl, fun _ => rfl, fun _ => ⟨.refl _, rfl⟩, rfl⟩

/-- More is declared and passed on, all of it or up to a frame that waits. -/
theorem pass (h : Conserves evs t [] c e) {done : List RecvEvent} (rest : List RecvEvent)
    (hp : Passes e c done e' c') {u : List Notice} (hrel : tookRel u = [])
    (hunrel : tookUnrel u = []) : Conserves (evs ++ (done ++ rest)) (t ++ u) rest c' e' := by
  obtain ⟨old, hold, hrel', hunrel', htx⟩ := h.passed
  rw [List.append_nil] at hold
  subst hold
  refine ⟨hp.relCap h.relCap, hp.unrelCap h.unrelCap, evs ++ done, by simp, fun ho => ?_,
    fun ho => ?_, ?_⟩
  · rw [hp.relOpen] at ho
    rw [reliables_append, hrel' ho, hp.rel ho, tookRel_append, hrel, List.append_nil,
      List.append_assoc]
  · rw [hp.unrelOpen] at ho
    obtain ⟨hsub, hlen⟩ := hunrel' ho
    obtain ⟨fits, hq, hsub', hlen'⟩ := hp.unrel
    have happ : unreliables (evs ++ done) = unreliables evs ++ unreliables done :=
      List.filterMap_append
    rw [tookUnrel_append, hunrel, List.append_nil, hq, ← List.append_assoc, happ]
    refine ⟨hsub.append hsub', ?_⟩
    simp only [List.length_append] at hlen ⊢
    omega
  · have happ : outcomesOf (evs ++ done) = outcomesOf evs ++ outcomesOf done :=
      List.filterMap_append
    rw [hp.outcomeTx, htx, happ]
    cases outcomesOf evs <;> rfl

/-- Some of what was pending is passed on. -/
theorem resume (h : Conserves evs t pending c e) {done : List RecvEvent}
    (hsplit : pending = done ++ rest) (hp : Passes e c done e' c') :
    Conserves evs t rest c' e' := by
  obtain ⟨old, hold, hrel, hunrel, htx⟩ := h.passed
  subst hold hsplit
  have hdone : Conserves old t [] c e :=
    ⟨h.relCap, h.unrelCap, old, (List.append_nil _).symm, hrel, hunrel, htx⟩
  have hmore := hdone.pass rest hp (u := []) rfl rfl
  rwa [List.append_nil] at hmore

/-- Only the channels and these three of the entry matter. -/
theorem congr (h : Conserves evs t pending c e) (e' : Entry)
    (hdropped : e'.droppedUnrel = e.droppedUnrel) (htx : e'.outcomeTx = e.outcomeTx) :
    Conserves evs t pending c e' :=
  ⟨h.relCap, h.unrelCap, by rw [hdropped, htx]; exact h.passed⟩

theorem takeRel (h : Conserves evs t pending c e) :
    Conserves evs (t ++ (c.rel.head?.map .tookRel).toList) pending c.takeRel e := by
  obtain ⟨done, hsplit, hrel, hunrel, htx⟩ := h.passed
  have hnone : tookUnrel (c.rel.head?.map .tookRel).toList = [] := by
    cases c.rel <;> rfl
  refine ⟨(List.tail_sublist _).length_le.trans h.relCap, h.unrelCap, done, hsplit, fun ho => ?_,
    fun ho => ?_, htx⟩
  · rw [hrel ho, tookRel_append, List.append_assoc]
    cases hq : c.rel <;> simp [Channels.takeRel, hq, tookRel]
  · rw [tookUnrel_append, hnone, List.append_nil]
    exact hunrel ho

theorem takeUnrel (h : Conserves evs t pending c e) :
    Conserves evs (t ++ (c.unrel.head?.map .tookUnrel).toList) pending c.takeUnrel e := by
  obtain ⟨done, hsplit, hrel, hunrel, htx⟩ := h.passed
  have hnone : tookRel (c.unrel.head?.map .tookUnrel).toList = [] := by
    cases c.unrel <;> rfl
  have hsame : tookUnrel (t ++ (c.unrel.head?.map .tookUnrel).toList) ++ c.takeUnrel.unrel
      = tookUnrel t ++ c.unrel := by
    rw [tookUnrel_append, List.append_assoc]
    cases hq : c.unrel <;> simp [Channels.takeUnrel, hq, tookUnrel]
  refine ⟨h.relCap, (List.tail_sublist _).length_le.trans h.unrelCap, done, hsplit, fun ho => ?_,
    fun ho => ?_, htx⟩
  · rw [tookRel_append, hnone, List.append_nil]
    exact hrel ho
  · rw [hsame]
    exact hunrel ho

theorem hangUpRel (h : Conserves evs t pending c e) :
    Conserves evs t pending c.hangUpRel e := by
  obtain ⟨done, hsplit, -, hunrel, htx⟩ := h.passed
  exact ⟨Nat.zero_le _, h.unrelCap, done, hsplit, (nomatch ·), hunrel, htx⟩

theorem hangUpUnrel (h : Conserves evs t pending c e) :
    Conserves evs t pending c.hangUpUnrel e := by
  obtain ⟨done, hsplit, hrel, -, htx⟩ := h.passed
  exact ⟨h.relCap, Nat.zero_le _, done, hsplit, hrel, (nomatch ·), htx⟩

end Conserves

/-! ## What a step does for the request -/

namespace LockedEndpoint

section Deliver

variable (s : LockedEndpoint) {id : RequestId} (h : Held)

/-- Events of the request are passed on. -/
theorem deliver_own {e₀ : Entry} (hid : h.id = id)
    (hentry : s.endpoint.entries.lookup id = some e₀) (e : Entry) (t : Readings) :
    let p := e.hand (s.chans id) id t h.rest
    (s.deliver e h t).1.endpoint.entries.lookup id = some p.applied.entry
      ∧ (s.deliver e h t).1.chans id = p.chans ∧ (s.deliver e h t).1.pending id = p.rest := by
  subst hid
  intro p
  have hlookup := Assoc.lookup_replace p.applied.entry hentry
  simp only [deliver]
  split
  · rename_i hrest
    exact ⟨hlookup, Function.update_self .., (List.isEmpty_iff.mp hrest).symm⟩
  · exact ⟨hlookup, Function.update_self .., if_pos rfl⟩

/-- Events of another request are passed on. -/
theorem deliver_other (hid : h.id ≠ id) (e : Entry) (t : Readings) :
    (s.deliver e h t).1.endpoint.entries.lookup id = s.endpoint.entries.lookup id
      ∧ (s.deliver e h t).1.chans id = s.chans id ∧ (s.deliver e h t).1.pending id = [] := by
  have hlookup := fun b : Entry => Assoc.lookup_replace_ne (m := s.endpoint.entries) b hid.symm
  simp only [deliver]
  split
  · exact ⟨hlookup _, Function.update_of_ne hid.symm .., rfl⟩
  · exact ⟨hlookup _, Function.update_of_ne hid.symm .., if_neg hid⟩

theorem pending_of_free {s : LockedEndpoint} (hfree : s.held = none) : s.pending id = [] := by
  simp [pending, hfree]

end Deliver

/-- An entry that stands, after these notices, with what is conserved. -/
structure Serves (id : RequestId) (cfg : ReceiverConfig) (start : Instant) (t : List Notice)
    (s : LockedEndpoint) (e : Entry) : Prop where
  entry : s.endpoint.entries.lookup id = some e
  state : e.state = (XferReceiver.run cfg start (callsIn t)).1
  conserves : Conserves (XferReceiver.run cfg start (callsIn t)).2 t (s.pending id)
    (s.chans id) e

namespace Serves

variable {id : RequestId} {cfg : ReceiverConfig} {start : Instant} {t : List Notice}
variable {s s' : LockedEndpoint} {e : Entry}

/-- Nothing of the request has changed. -/
theorem same (h : Serves id cfg start t s e)
    (hentry : s'.endpoint.entries.lookup id = s.endpoint.entries.lookup id)
    (hchans : s'.chans id = s.chans id) (hpending : s'.pending id = s.pending id) :
    Serves id cfg start t s' e :=
  ⟨hentry.trans h.entry, h.state, by rw [hchans, hpending]; exact h.conserves⟩

/-- A datagram is handled, all of it or up to a frame that waits. -/
theorem datagram (h : Serves id cfg start t s e) (hfree : s.held = none) {e₁ : Entry}
    (seq : XferSeq) (body : Body) (clock : Readings) (job : Job)
    (hstate : e₁.state = (e.state.handle seq body clock.now).1)
    (hdropped : e₁.droppedUnrel = e.droppedUnrel) (htx : e₁.outcomeTx = e.outcomeTx) :
    ∃ e', Serves id cfg start (t ++ [.call (.handle seq body clock.now)])
      (s.deliver e₁ ⟨id, (e.state.handle seq body clock.now).2, [], job⟩ clock).1 e' := by
  generalize hevs : (e.state.handle seq body clock.now).2 = evs
  obtain ⟨hentry, hchans, hpending⟩ := deliver_own s ⟨id, evs, [], job⟩ rfl h.entry e₁ clock
  obtain ⟨done, hsplit, hpasses⟩ := e₁.hand_passes (s.chans id) id clock evs
  have hrun : XferReceiver.run cfg start (callsIn (t ++ [.call (.handle seq body clock.now)]))
      = Machine.andThen (XferReceiver.run cfg start (callsIn t))
        fun r => r.handle seq body clock.now := by
    rw [callsIn_append]
    exact XferReceiver.run_concat ..
  have hbefore := h.conserves
  rw [pending_of_free hfree] at hbefore
  refine ⟨_, hentry, ?_, ?_⟩
  · rw [hpasses.state, hstate, hrun, Machine.andThen_fst, ← h.state]
  · have hpass := (hbefore.congr e₁ hdropped htx).pass (e₁.hand (s.chans id) id clock evs).rest
      hpasses (u := [.call (.handle seq body clock.now)]) rfl rfl
    rw [← hsplit] at hpass
    rw [hrun, Machine.andThen_snd, ← h.state, hevs, hchans, hpending]
    exact hpass

/-- A tick releases no frame. -/
theorem tick (h : Serves id cfg start t s e) (hfree : s.held = none) (now : Instant)
    (around : Around) (hchans : s'.chans id = s.chans id) (hheld : s'.held = none)
    (hentry : s'.endpoint.entries.lookup id = some (e.tick id now around).entry) :
    Serves id cfg start (t ++ [.call (.tick now)]) s' (e.tick id now around).entry := by
  have hwf : e.state.gaps.WF := h.state ▸ (XferReceiver.recvInv_run cfg start (callsIn t)).wf
  have hstate := e.step_state id (.tick now around)
  have hshows := e.step_shows id hwf (.tick now around)
  have hquiet : reliables (e.state.tick now).2 = [] ∧ unreliables (e.state.tick now).2 = [] := by
    constructor <;> refine List.filterMap_eq_nil_iff.mpr fun ev hev => ?_
    · cases ev with
      | reliable f => exact absurd hev (e.state.tick_no_frame now f).2
      | unreliable | sendNack | sendAck | sendEndAck | relFinished | closed => rfl
    · cases ev with
      | unreliable f => exact absurd hev (e.state.tick_no_frame now f).1
      | reliable | sendNack | sendAck | sendEndAck | relFinished | closed => rfl
  have hdropped : (e.tick id now around).entry.droppedUnrel = e.droppedUnrel := by
    have hnone : Entry.unrelFrames (e.tick id now around).effects = [] :=
      List.map_eq_nil_iff.mp (hshows.unrel.trans hquiet.2)
    have hcount := hshows.dropped
    simp only [Entry.step, Entry.dropped, hnone] at hcount
    exact hcount
  have hpasses : Passes { e with state := (e.state.tick now).1 } (s.chans id)
      (e.state.tick now).2 (e.tick id now around).entry (s.chans id) :=
    .of_control hstate hshows.key hdropped hquiet.1 hquiet.2 hshows.outcomeTx
  have hrun : XferReceiver.run cfg start (callsIn (t ++ [.call (.tick now)]))
      = Machine.andThen (XferReceiver.run cfg start (callsIn t)) fun r => r.tick now := by
    rw [callsIn_append]
    exact XferReceiver.run_concat ..
  have hbefore := h.conserves
  rw [pending_of_free hfree] at hbefore
  refine ⟨hentry, ?_, ?_⟩
  · rw [hrun, Machine.andThen_fst, ← h.state]
    exact hstate
  · rw [hrun, Machine.andThen_snd, ← h.state, hchans, pending_of_free hheld]
    have hpass := (hbefore.congr { e with state := (e.state.tick now).1 } rfl rfl).pass [] hpasses
      (u := [.call (.tick now)]) rfl rfl
    rwa [List.append_nil] at hpass

/-- A call that gets the lock. -/
theorem perform (h : Serves id cfg start t s e) (hfree : s.held = none)
    (clock : RequestId → Readings) (job : Job)
    (hthere : ((s.perform clock job).1.endpoint.entries.lookup id).isSome) :
    ∃ e', Serves id cfg start (t ++ ((Job.call s id clock job).map .call).toList)
      (s.perform clock job).1 e' := by
  have hsame : ∀ s', s'.endpoint.entries.lookup id = s.endpoint.entries.lookup id →
      s'.chans id = s.chans id → s'.pending id = [] → Job.call s id clock job = none →
      ∃ e', Serves id cfg start (t ++ ((Job.call s id clock job).map .call).toList) s' e' := by
    intro s' h1 h2 h3 h4
    rw [h4, Option.map_none, Option.toList_none, List.append_nil]
    exact ⟨e, h.same h1 h2 (h3.trans (pending_of_free hfree).symm)⟩
  cases job with
  | arm id' key' cfg' =>
    have hpending : (s.perform clock (.arm id' key' cfg')).1.pending id = [] :=
      pending_of_free hfree
    refine hsame _ ?_ ?_ hpending rfl
    · simp only [LockedEndpoint.perform, Endpoint.arm]
      split
      · rfl
      · rename_i hnot
        refine AList.lookup_insert_ne ?_
        rintro rfl
        simp [h.entry] at hnot
    · simp only [LockedEndpoint.perform]
      split
      · rfl
      · rename_i hnot
        refine Function.update_of_ne ?_ ..
        rintro rfl
        simp [h.entry] at hnot
  | datagram bytes source =>
    cases hid : requestIdOf bytes with
    | error err =>
      simp only [LockedEndpoint.perform, hid] at hthere ⊢
      exact hsame _ rfl rfl (pending_of_free hfree) (by simp [Job.call, hid])
    | ok id' =>
      by_cases heq : id' = id
      · subst heq
        cases hopen : openBody e.key .send bytes with
        | none =>
          simp only [LockedEndpoint.perform, hid, h.entry, hopen]
          exact hsame _ rfl rfl (pending_of_free hfree) (by simp [Job.call, hid, h.entry, hopen])
        | some p =>
          simp only [LockedEndpoint.perform, hid, h.entry, hopen, Job.call, if_true,
            Option.bind_some, Option.map_some, Option.toList_some]
          exact h.datagram hfree p.1 p.2 (clock id') _ rfl rfl rfl
      · have hcall : Job.call s id clock (.datagram bytes source) = none := by
          simp [Job.call, hid, heq]
        have hpending : s.pending id = [] := pending_of_free hfree
        simp only [LockedEndpoint.perform, hid]
        split
        · exact hsame _ rfl rfl hpending hcall
        · split
          · exact hsame _ rfl rfl hpending hcall
          · obtain ⟨h1, h2, h3⟩ := deliver_other s ⟨id', _, [], _⟩ heq _ (clock id')
            exact hsame _ h1 h2 h3 hcall
  | tick now =>
    obtain ⟨e', he'⟩ := Option.isSome_iff_exists.mp hthere
    obtain ⟨e₀, he₀, rfl⟩ := Endpoint.tick_lookup he'
    rw [h.entry] at he₀
    cases he₀
    simp only [Job.call, h.entry, Option.map_some, Option.toList_some]
    exact ⟨_, h.tick hfree now _ rfl hfree he'⟩

/-- The call that waits for the consumer goes on. -/
theorem wake (h : Serves id cfg start t s e) (id' : RequestId) (clock : Readings) :
    ∃ e', Serves id cfg start t (s.wake id' clock).1 e' := by
  unfold LockedEndpoint.wake
  split
  · exact ⟨e, h⟩
  · rename_i held hheld
    split
    · rename_i hid'
      subst hid'
      by_cases hid : held.id = id
      · have hentry : s.endpoint.entries.lookup held.id = some e := hid ▸ h.entry
        obtain ⟨h1, h2, h3⟩ := deliver_own s held hid h.entry e clock
        obtain ⟨done, hsplit, hpasses⟩ := e.hand_passes (s.chans id) id clock held.rest
        have hpending : s.pending id = held.rest := by simp [pending, hheld, hid]
        have hbefore := h.conserves
        rw [hpending] at hbefore
        rw [hentry]
        refine ⟨_, h1, hpasses.state.trans h.state, ?_⟩
        rw [h2, h3]
        exact hbefore.resume hsplit hpasses
      · have hpending : s.pending id = [] := by simp [pending, hheld, hid]
        split
        · exact ⟨e, h.same rfl rfl hpending.symm⟩
        · obtain ⟨h1, h2, h3⟩ := deliver_other s held hid _ clock
          exact ⟨e, h.same h1 h2 (h3.trans hpending.symm)⟩
    · exact ⟨e, h⟩

/-- A consumer does something to its channels. -/
theorem onChans (h : Serves id cfg start t s e) (id' : RequestId) (f : Channels → Channels)
    {u : List Notice} (hcalls : callsIn u = [])
    (hown : id' = id → ∀ evs pending, Conserves evs t pending (s.chans id) e →
      Conserves evs (t ++ u) pending (f (s.chans id)) e) (hother : id' ≠ id → u = []) :
    Serves id cfg start (t ++ u) (s.onChans id' f) e := by
  by_cases hid : id' = id
  · subst hid
    have hsame : callsIn (t ++ u) = callsIn t := by rw [callsIn_append, hcalls, List.append_nil]
    refine ⟨h.entry, hsame ▸ h.state, ?_⟩
    rw [hsame]
    change Conserves _ _ _ (Function.update s.chans id' (f (s.chans id')) id') e
    rw [Function.update_self]
    exact hown rfl _ _ h.conserves
  · rw [hother hid, List.append_nil]
    exact h.same rfl (Function.update_of_ne (Ne.symm hid) ..) rfl

/-- **One step** conserves what there is of a request, as long as its entry
stands. -/
theorem step (h : Serves id cfg start t s e) (x : Step)
    (hthere : ((s.step x).1.endpoint.entries.lookup id).isSome) :
    ∃ e', Serves id cfg start (t ++ s.notices id x) (s.step x).1 e' := by
  have hquiet : ∀ {s'}, s.notices id x = [] → (∃ e', Serves id cfg start t s' e') →
      ∃ e', Serves id cfg start (t ++ s.notices id x) s' e' := by
    intro s' hnone hs
    rwa [hnone, List.append_nil]
  cases x with
  | call job => exact hquiet rfl ⟨e, h.same rfl rfl rfl⟩
  | grant n clock =>
    simp only [LockedEndpoint.step, grant, notices] at hthere ⊢
    cases hheld : s.held with
    | some held =>
      simp only [List.append_nil]
      exact ⟨e, h⟩
    | none =>
      cases hjob : s.waiting[n]? with
      | none =>
        simp only [List.append_nil]
        exact ⟨e, h⟩
      | some job =>
        simp only [hheld, hjob] at hthere ⊢
        have hfree : Serves id cfg start t ⟨s.endpoint, s.chans, s.waiting.eraseIdx n, none⟩ e :=
          h.same rfl rfl (by simp [pending, hheld])
        exact hfree.perform rfl clock job hthere
  | wake id' clock => exact hquiet rfl (h.wake id' clock)
  | dropArmed id' => exact hquiet rfl ⟨e, h.same rfl rfl rfl⟩
  | disarm n =>
    refine hquiet rfl ?_
    simp only [LockedEndpoint.step] at hthere ⊢
    split
    · rename_i hheld
      rw [hheld] at hthere
      obtain ⟨e', he'⟩ := Option.isSome_iff_exists.mp hthere
      refine ⟨e, h.same ?_ rfl rfl⟩
      change (s.endpoint.disarm n).entries.lookup id = some e' at he'
      change (s.endpoint.disarm n).entries.lookup id = _
      unfold Endpoint.disarm at he' ⊢
      split at he'
      · rfl
      · rw [he', Assoc.lookup_of_erase he']
    · exact ⟨e, h⟩
  | takeRel id' =>
    refine ⟨e, h.onChans id' Channels.takeRel ?_ (fun hid evs pending hc => ?_) fun hid => ?_⟩
    · simp only [notices]
      split <;> cases (s.chans id).rel <;> rfl
    · simp only [notices, if_pos hid]
      exact hc.takeRel
    · simp only [notices, if_neg hid]
  | takeUnrel id' =>
    refine ⟨e, h.onChans id' Channels.takeUnrel ?_ (fun hid evs pending hc => ?_) fun hid => ?_⟩
    · simp only [notices]
      split <;> cases (s.chans id).unrel <;> rfl
    · simp only [notices, if_pos hid]
      exact hc.takeUnrel
    · simp only [notices, if_neg hid]
  | hangUpRel id' =>
    exact ⟨e, h.onChans id' Channels.hangUpRel rfl (fun _ evs pending hc => by
      change Conserves evs (t ++ []) pending _ e
      rw [List.append_nil]
      exact hc.hangUpRel) fun _ => rfl⟩
  | hangUpUnrel id' =>
    exact ⟨e, h.onChans id' Channels.hangUpUnrel rfl (fun _ evs pending hc => by
      change Conserves evs (t ++ []) pending _ e
      rw [List.append_nil]
      exact hc.hangUpUnrel) fun _ => rfl⟩
  | setPlayheadMs id' ms now =>
    refine hquiet rfl ?_
    simp only [LockedEndpoint.step, Endpoint.setPlayheadMs]
    cases he₀ : s.endpoint.entries.lookup id' with
    | none => exact ⟨e, h⟩
    | some e₀ =>
      by_cases hid : id' = id
      · subst hid
        rw [h.entry] at he₀
        cases he₀
        exact ⟨_, Assoc.lookup_replace _ h.entry, h.state, h.conserves.congr _ rfl rfl⟩
      · exact ⟨e, h.same (Assoc.lookup_replace_ne _ (Ne.symm hid)) rfl rfl⟩

end Serves

/-! ## Every run -/

theorem watch_fst (id : RequestId) (s : LockedEndpoint) (xs : List Step) :
    (watch id s xs).1 = (s.run xs).1 := by
  induction xs generalizing s with
  | nil => rfl
  | cons x xs ih => exact ih (s.step x).1

theorem serves_watch {id : RequestId} {cfg : ReceiverConfig} {start : Instant} {t : List Notice}
    {s : LockedEndpoint} {e : Entry} (h : Serves id cfg start t s e) (xs : List Step)
    (hlive : ∀ n ≤ xs.length, ((s.run (xs.take n)).1.endpoint.entries.lookup id).isSome) :
    ∃ e', Serves id cfg start (t ++ (watch id s xs).2) (watch id s xs).1 e' := by
  induction xs generalizing s e t with
  | nil => exact ⟨e, by simpa [watch] using h⟩
  | cons x xs ih =>
    obtain ⟨e', h'⟩ := h.step x (hlive 1 (by simp))
    have hrest := ih h' fun n hn => hlive (n + 1) (by simpa using hn)
    rw [List.append_assoc] at hrest
    exact hrest

/-- **Backpressure loses nothing.** In every run of the endpoint with its
lock and its channels, from the call that arms a request for as long as its
entry stands: of the events of its receiver some have been passed on, and
those left wait in hand of the call that keeps the lock. The reliable frames
passed on are, in order, those its consumer has received and those queued;
so are the playback frames, less the dropped ones, which are counted. No
more is ever queued than a channel holds, and when the outcome has been
sent no reliable frame is left waiting. -/
theorem backpressure_conserves (pre since : List Step) (n : Nat) (clock : RequestId → Readings)
    (id : RequestId) (key : SessionKey) (cfg : ReceiverConfig)
    (hfree : (bind.run pre).1.held = none)
    (hcall : (bind.run pre).1.waiting[n]? = some (.arm id key cfg))
    (hnone : (bind.run pre).1.endpoint.entries.lookup id = none)
    (hlive : ∀ k ≤ since.length, (((bind.run (pre ++ [.grant n clock])).1.run
      (since.take k)).1.endpoint.entries.lookup id).isSome) :
    let w := watch id (bind.run (pre ++ [.grant n clock])).1 since
    let c := w.1.chans id
    ∃ e done, w.1.endpoint.entries.lookup id = some e
      ∧ (XferReceiver.run cfg (clock id).now (callsIn w.2)).2 = done ++ w.1.pending id
      ∧ (c.relOpen = true → reliables done = tookRel w.2 ++ c.rel)
      ∧ (c.unrelOpen = true → (tookUnrel w.2 ++ c.unrel).Sublist (unreliables done)
        ∧ e.droppedUnrel + (tookUnrel w.2 ++ c.unrel).length = (unreliables done).length)
      ∧ c.rel.length ≤ channelCap ∧ c.unrel.length ≤ channelCap
      ∧ (e.outcomeTx = false → reliables (w.1.pending id) = []) := by
  intro w c
  have harmed : Serves id cfg (clock id).now [] (bind.run (pre ++ [.grant n clock])).1
      (Entry.new key cfg (clock id).now) := by
    have hstep : (bind.run (pre ++ [.grant n clock])).1
        = ((bind.run pre).1.step (.grant n clock)).1 := by
      unfold run
      rw [Machine.run_concat]
      rfl
    rw [hstep]
    simp only [LockedEndpoint.step, grant, hfree, hcall, LockedEndpoint.perform, Endpoint.arm,
      hnone, Option.isSome_none, Bool.false_eq_true, if_false]
    refine ⟨by simp, rfl, ?_⟩
    change Conserves [] [] [] (Function.update (bind.run pre).1.chans id Channels.fresh id) _
    rw [Function.update_self]
    exact .fresh key cfg _
  obtain ⟨e, hserves⟩ := serves_watch harmed since hlive
  rw [List.nil_append] at hserves
  obtain ⟨done, hsplit, hrel, hunrel, htx⟩ := hserves.conserves.passed
  refine ⟨e, done, hserves.entry, hsplit, hrel, hunrel, hserves.conserves.relCap,
    hserves.conserves.unrelCap, fun hsent => ?_⟩
  -- nothing is released after the outcome
  rw [htx] at hsent
  obtain ⟨o, ho⟩ := List.exists_mem_of_ne_nil (outcomesOf done) (by
    intro hnil
    simp [hnil] at hsent)
  obtain ⟨before, after, hdone⟩ := List.append_of_mem (Entry.mem_outcomesOf.mp ho)
  have hends := (XferReceiver.recvInv_run cfg (clock id).now (callsIn w.2)).ends
  rw [hsplit, hdone, List.append_assoc, List.cons_append] at hends
  have hquiet := hends.of_mem.2.2.2.reliables
  rw [reliables_append] at hquiet
  exact (List.append_eq_nil_iff.mp hquiet).2

/-! ## A full channel -/

/-- No tick is called for, and no removal carried out. -/
def Step.Keeps : Step → Prop
  | .call (.tick _) | .disarm _ => False
  | _ => True

/-- The entry is there, and none of the calls that wait is a tick. -/
def Stands (id : RequestId) (s : LockedEndpoint) : Prop :=
  id ∈ s.endpoint.entries ∧ ∀ job ∈ s.waiting, ∀ now, job ≠ .tick now

theorem mem_deliver {s : LockedEndpoint} {id : RequestId} {e : Entry} {p : Held} {τ : Readings} :
    id ∈ (s.deliver e p τ).1.endpoint.entries ↔ id ∈ s.endpoint.entries := by
  simp only [deliver, store]
  split <;> exact AList.mem_replace

theorem Stands.perform {id : RequestId} {s : LockedEndpoint} (h : Stands id s)
    (clock : RequestId → Readings) {job : Job} (hjob : ∀ now, job ≠ .tick now) :
    Stands id (s.perform clock job).1 := by
  refine ⟨?_, by rw [perform_waiting]; exact h.2⟩
  cases job with
  | arm id' key cfg =>
    simp only [LockedEndpoint.perform, Endpoint.arm]
    split
    · exact h.1
    · exact (AList.mem_insert _).mpr (Or.inr h.1)
  | datagram bytes source =>
    simp only [LockedEndpoint.perform]
    split
    · exact h.1
    · split
      · exact h.1
      · split
        · exact h.1
        · exact mem_deliver.mpr h.1
  | tick now => exact absurd rfl (hjob now)

theorem Stands.step {id : RequestId} {s : LockedEndpoint} (h : Stands id s) {x : Step}
    (hx : x.Keeps) : Stands id (s.step x).1 := by
  cases x with
  | call job =>
    refine ⟨h.1, fun job' hjob' now => ?_⟩
    rcases List.mem_append.mp hjob' with hold | hnew
    · exact h.2 job' hold now
    · rintro rfl
      cases List.mem_singleton.mp hnew
      exact hx
  | grant n clock =>
    simp only [LockedEndpoint.step, grant]
    split
    · rename_i job _ hjob
      have hrest : Stands id { s with waiting := s.waiting.eraseIdx n } :=
        ⟨h.1, fun job' hjob' => h.2 job' (List.mem_of_mem_eraseIdx hjob')⟩
      exact hrest.perform clock (h.2 job (List.mem_of_getElem? hjob))
    · exact h
  | wake id' τ =>
    simp only [LockedEndpoint.step, wake]
    split
    · exact h
    · split
      · split
        · exact h
        · exact ⟨mem_deliver.mpr h.1, by rw [deliver_waiting]; exact h.2⟩
      · exact h
  | disarm n => exact hx.elim
  | setPlayheadMs id' ms now =>
    refine ⟨?_, h.2⟩
    simp only [LockedEndpoint.step, Endpoint.setPlayheadMs]
    split
    · exact h.1
    · exact AList.mem_replace.mpr h.1
  | dropArmed | takeRel | takeUnrel | hangUpRel | hangUpUnrel => exact h

theorem Stands.run {id : RequestId} {s : LockedEndpoint} (h : Stands id s) {xs : List Step}
    (hxs : ∀ x ∈ xs, x.Keeps) : Stands id (s.run xs).1 := by
  induction xs generalizing s with
  | nil => exact h
  | cons x xs ih =>
    exact ih (h.step (hxs x List.mem_cons_self)) fun y hy => hxs y (List.mem_cons_of_mem x hy)

/-- After 256 frames that nobody reads comes a frame that waits for room, and
one that waits for the lock. -/
def fullSteps : List Step :=
  armBoth.drop 2 ++ ((List.range 256).map (· + 1)).flatMap arrives ++ arrives 257 ++ arrives 258

theorem run_fullSteps : ((bind.run (armBoth.take 2)).1.run fullSteps).1
    = (((bind.run unread).1.run (arrives 257)).1.run (arrives 258)).1 := by
  have hboth : ((bind.run (armBoth.take 2)).1.run (armBoth.drop 2)).1 = (bind.run armBoth).1 := by
    rw [← run_append, List.take_append_drop]
  rw [fullSteps, run_append, run_append, run_append, hboth, unread, run_append bind]

/-- A datagram for which the lock is not free waits. -/
theorem run_arrives_of_held {s : LockedEndpoint} {p : Held} (hheld : s.held = some p)
    (hwaiting : s.waiting = []) (n : Nat) :
    (s.run (arrives n)).1 = { s with waiting := [.datagram (frameOf n) tapAddr] } := by
  simp [run, arrives, Machine.run_cons, LockedEndpoint.step, grant, hheld, hwaiting]

theorem fullSteps_keep : ∀ x ∈ fullSteps, x.Keeps := by
  have harrives : ∀ n, ∀ x ∈ arrives n, x.Keeps := by
    intro n x hx
    rcases List.mem_pair.mp hx with rfl | rfl <;> trivial
  intro x hx
  simp only [fullSteps, List.mem_append, List.mem_flatMap] at hx
  rcases hx with ((hx | ⟨n, -, hx⟩) | hx) | hx
  · rcases List.mem_pair.mp (hx : x ∈ [_, _]) with rfl | rfl <;> trivial
  · exact harrives n x hx
  · exact harrives 257 x hx
  · exact harrives 258 x hx

theorem stands_fullSteps (k : Nat) : (((bind.run (armBoth.take 1 ++ [.grant 0
    fun _ => ⟨0, 0, 0⟩])).1.run (fullSteps.take k)).1.endpoint.entries.lookup zeroId).isSome := by
  have harmed : Stands zeroId (bind.run (armBoth.take 1 ++ [.grant 0 fun _ => ⟨0, 0, 0⟩])).1 := by
    refine ⟨by decide, fun job hjob => ?_⟩
    cases hjob
  exact AList.lookup_isSome.mpr
    (harmed.run fun x hx => fullSteps_keep x (List.mem_of_mem_take hx)).1

/-- What has been released is what is queued, and the frame that waits for
room. -/
theorem backpressure_conserves_full :
    let w := watch zeroId (bind.run (armBoth.take 2)).1 fullSteps
    (w.1.chans zeroId).rel.length = channelCap ∧ w.1.waiting = [.datagram (frameOf 258) tapAddr]
      ∧ reliables (XferReceiver.run .cacheWorker 0 (callsIn w.2)).2
        = tookRel w.2 ++ (w.1.chans zeroId).rel ++ [⟨⟨257⟩, ⟨0⟩, []⟩] := by
  obtain ⟨q, hserving, hevents⟩ := serving_unread
  -- the state that frame 257 leaves, as a variable
  obtain ⟨s, hs⟩ : ∃ s, ((bind.run unread).1.run (arrives 257)).1 = s := ⟨_, rfl⟩
  have hwaits := @Serving.waits (bind.run unread).1 q 257 _ hserving hevents
  rw [hs] at hwaits
  obtain ⟨hheld, hwaiting, hopen, hlen⟩ := hwaits
  have hw := (watch_fst zeroId (bind.run (armBoth.take 2)).1 fullSteps).trans run_fullSteps
  rw [hs, run_arrives_of_held hheld hwaiting 258] at hw
  have hconserves := backpressure_conserves (armBoth.take 1) fullSteps 0 (fun _ => ⟨0, 0, 0⟩) zeroId
    plainKey .cacheWorker rfl rfl rfl fun k _ => stands_fullSteps k
  rw [show armBoth.take 1 ++ [.grant 0 fun _ => ⟨0, 0, 0⟩] = armBoth.take 2 from rfl]
    at hconserves
  generalize watch zeroId (bind.run (armBoth.take 2)).1 fullSteps = w at hw hconserves ⊢
  obtain ⟨e, done, -, hsplit, hrel, -⟩ := hconserves
  have hpending : w.1.pending zeroId = [.reliable ⟨⟨257⟩, ⟨0⟩, []⟩] := by
    rw [hw]
    simp [pending, hheld]
  refine ⟨by rw [hw]; exact hlen, by rw [hw], ?_⟩
  rw [hsplit, hpending, reliables_append, hrel (by rw [hw]; exact hopen)]
  rfl

end LockedEndpoint

end Protofish4
