import Protofish4.Tokio.Endpoint
import Protofish4.Xfer.ReceiverEvents

/-!
# The entries lock and the channels

`Endpoint` again (`receiver.rs`), one level below `Tokio/Endpoint.lean`:
each transfer's two bounded channels hold their frames, and the entries
lock is something a call waits for and keeps. `apply` awaits the reliable
channel while it has the lock, so a datagram can be left half applied; the
lock is free again when the rest of its events has been applied.

Which waiting call gets the lock next, and when the applications read their
channels, is up to the schedule.
-/

namespace Protofish4

/-- `mpsc::channel(256)`. -/
def channelCap : Nat := 256

/-- What `Instant::now` answers while one entry is worked on. -/
structure Readings where
  now : Instant
  warnNow : Instant
  ackNow : Instant

/-! ## The channels of one transfer -/

/-- The frames sent and not yet received, and whether the application still
holds the receiving ends. -/
structure Channels where
  unrel : List Frame
  rel : List Frame
  unrelOpen : Bool
  relOpen : Bool

namespace Channels

def fresh : Channels := ⟨[], [], true, true⟩

/-- `try_send` finds room. -/
def unrelRoom (c : Channels) : Bool := c.unrelOpen && decide (c.unrel.length < channelCap)

/-- `send` would have to wait. -/
def relFull (c : Channels) : Bool := c.relOpen && decide (channelCap ≤ c.rel.length)

/-- What is asked of the channels and the clock for one event. -/
def around (c : Channels) (t : Readings) : Around :=
  ⟨c.unrelRoom, c.relOpen, t.warnNow, t.ackNow⟩

/-- The event cannot be passed on now. -/
def blocks (c : Channels) : RecvEvent → Bool
  | .reliable _ => c.relFull
  | _ => false

/-- The channels once the event has been passed on. -/
def put (c : Channels) : RecvEvent → Channels
  | .unreliable f => if c.unrelRoom then { c with unrel := c.unrel ++ [f] } else c
  | .reliable f => if c.relOpen then { c with rel := c.rel ++ [f] } else c
  | _ => c

/-- The reliable consumer receives a frame. -/
def takeRel (c : Channels) : Channels := { c with rel := c.rel.tail }

def takeUnrel (c : Channels) : Channels := { c with unrel := c.unrel.tail }

/-- The reliable consumer hangs up. -/
def hangUpRel (c : Channels) : Channels := { c with rel := [], relOpen := false }

def hangUpUnrel (c : Channels) : Channels := { c with unrel := [], unrelOpen := false }

end Channels

/-! ## `apply`, which may be left waiting -/

namespace Entry

/-- The first thing `apply` does with a frame, before it passes it on. -/
def noteEvent (e : Entry) : RecvEvent → Entry
  | .unreliable f | .reliable f => e.noteTimestamp f
  | _ => e

/-- How far `apply` has got: what was done, and the events from the one it
waits on. -/
structure Handed where
  applied : Applied
  chans : Channels
  rest : List RecvEvent

/-- `apply` up to its end, or to the first frame that has to wait. -/
def hand (e : Entry) (c : Channels) (id : RequestId) (t : Readings) : List RecvEvent → Handed
  | [] => ⟨⟨e, [], []⟩, c, []⟩
  | ev :: evs =>
    if c.blocks ev then ⟨⟨e.noteEvent ev, [], []⟩, c, ev :: evs⟩
    else
      let p := e.applyOne id (c.around t) ev
      let q := p.entry.hand (c.put ev) id t evs
      ⟨⟨q.applied.entry, p.effects ++ q.applied.effects, p.out ++ q.applied.out⟩, q.chans, q.rest⟩

end Entry

/-! ## The lock -/

/-- What is called for, and needs the entries lock. -/
inductive Job where
  | arm (id : RequestId) (key : SessionKey) (cfg : ReceiverConfig)
  | datagram (bytes : Bytes) (source : SocketAddr)
  /-- The clock was read before the lock was asked for. -/
  | tick (now : Instant)

/-- An `on_datagram` that awaits the reliable channel, the lock in hand:
the events left, and the replies so far. -/
structure Held where
  id : RequestId
  rest : List RecvEvent
  out : List Bytes
  job : Job

/-- An endpoint with its channels, the calls that wait for the lock, and
the call that keeps it while it waits for a consumer. -/
structure LockedEndpoint where
  endpoint : Endpoint
  chans : RequestId → Channels
  waiting : List Job
  held : Option Held

namespace LockedEndpoint

inductive Effect where
  | endpoint (effect : Endpoint.Effect)
  /-- A call has given the lock back and sent its replies. -/
  | completed (job : Job)

def bind : LockedEndpoint := ⟨Endpoint.bind, fun _ => Channels.fresh, [], none⟩

/-- Write the entry of a request back, with its channels. -/
def store (s : LockedEndpoint) (id : RequestId) (e : Entry) (c : Channels) : LockedEndpoint :=
  { s with
    endpoint := { s.endpoint with entries := s.endpoint.entries.replace id e }
    chans := Function.update s.chans id c }

/-- Go on applying events to an entry: to the end of `on_datagram`, whose
last line leaves the removal of a finished entry under way, or to a frame
that has to wait. -/
def deliver (s : LockedEndpoint) (e : Entry) (h : Held) (t : Readings) :
    LockedEndpoint × List Effect :=
  let p := e.hand (s.chans h.id) h.id t h.rest
  let s := s.store h.id p.applied.entry p.chans
  let delivered := p.applied.effects.map fun effect => Effect.endpoint (.entry h.id effect)
  if p.rest.isEmpty then
    ({ s with
      endpoint := { s.endpoint with
        disarms := if p.applied.entry.state.closed then s.endpoint.disarms ++ [h.id]
          else s.endpoint.disarms }
      held := none },
      delivered ++ (Endpoint.replies p.applied.entry.peer (h.out ++ p.applied.out)).map .endpoint
        ++ [.completed h.job])
  else ({ s with held := some { h with rest := p.rest, out := h.out ++ p.applied.out } }, delivered)

/-- What a call does once it has the lock. -/
def perform (s : LockedEndpoint) (clock : RequestId → Readings) (job : Job) :
    LockedEndpoint × List Effect :=
  match job with
  | .arm id key cfg =>
    ({ s with
      endpoint := (s.endpoint.arm id key cfg (clock id).now).1
      chans := if (s.endpoint.entries.lookup id).isSome then s.chans
        else Function.update s.chans id Channels.fresh }, [.completed job])
  | .datagram bytes source =>
    match requestIdOf bytes with
    | .error _ => (s, [.completed job])
    | .ok id =>
      match s.endpoint.entries.lookup id with
      | none => (s, [.completed job])
      | some e =>
        match openBody e.key .send bytes with
        | none => (s, [.completed job])
        | some (seq, body) =>
          let p := e.state.handle seq body (clock id).now
          s.deliver { e.pin source with state := p.1 } ⟨id, p.2, [], job⟩ (clock id)
  | .tick now =>
    -- no event of a tick is a frame, so nothing is awaited under the lock
    let p := s.endpoint.tick now fun id => (s.chans id).around (clock id)
    ({ s with endpoint := p.1 }, p.2.map .endpoint ++ [.completed job])

/-- The lock, if it is free, goes to one of the calls that wait for it. -/
def grant (s : LockedEndpoint) (n : Nat) (clock : RequestId → Readings) :
    LockedEndpoint × List Effect :=
  match s.held, s.waiting[n]? with
  | none, some job => { s with waiting := s.waiting.eraseIdx n }.perform clock job
  | _, _ => (s, [])

/-- The call that keeps the lock for a request tries its frame again. -/
def wake (s : LockedEndpoint) (id : RequestId) (t : Readings) : LockedEndpoint × List Effect :=
  match s.held with
  | none => (s, [])
  | some h =>
    if h.id = id then
      match s.endpoint.entries.lookup id with
      -- the lock keeps the entry
      | none => ({ s with held := none }, [])
      | some e => s.deliver e h t
    else (s, [])

/-- What an application does to the channels of its request. -/
def onChans (s : LockedEndpoint) (id : RequestId) (f : Channels → Channels) : LockedEndpoint :=
  { s with chans := Function.update s.chans id (f (s.chans id)) }

/-- Everything that can happen to an endpoint and its channels. -/
inductive Step where
  | call (job : Job)
  | grant (n : Nat) (clock : RequestId → Readings)
  | wake (id : RequestId) (t : Readings)
  | dropArmed (id : RequestId)
  | disarm (n : Nat)
  | takeRel (id : RequestId)
  | takeUnrel (id : RequestId)
  | hangUpRel (id : RequestId)
  | hangUpUnrel (id : RequestId)
  /-- The play head is shared; it needs no lock. -/
  | setPlayheadMs (id : RequestId) (ms : Nat) (now : Instant)

def step (s : LockedEndpoint) : Step → LockedEndpoint × List Effect
  | .call job => ({ s with waiting := s.waiting ++ [job] }, [])
  | .grant n clock => s.grant n clock
  | .wake id t => s.wake id t
  | .dropArmed id => ({ s with endpoint := s.endpoint.dropArmed id }, [])
  | .disarm n =>
    (match s.held with
      | none => { s with endpoint := s.endpoint.disarm n }
      | some _ => s, [])
  | .takeRel id => (s.onChans id Channels.takeRel, [])
  | .takeUnrel id => (s.onChans id Channels.takeUnrel, [])
  | .hangUpRel id => (s.onChans id Channels.hangUpRel, [])
  | .hangUpUnrel id => (s.onChans id Channels.hangUpUnrel, [])
  | .setPlayheadMs id ms now => ({ s with endpoint := s.endpoint.setPlayheadMs id ms now }, [])

def run (s : LockedEndpoint) (steps : List Step) : LockedEndpoint × List Effect :=
  Machine.run step s steps

end LockedEndpoint

/-! ## When nothing has to wait -/

/-- An event for the reliable channel. -/
def RecvEvent.isReliable : RecvEvent → Bool
  | .reliable _ => true
  | _ => false

namespace Channels

variable {c : Channels}

/-- There is room for the reliable frames among the events, or nobody left
to make room for. -/
def Fits (c : Channels) (evs : List RecvEvent) : Prop :=
  c.relOpen → evs.countP RecvEvent.isReliable ≤ channelCap - c.rel.length

/-- One event more fits when it does not block and the others fit after it. -/
theorem fits_cons {ev : RecvEvent} {evs : List RecvEvent} :
    c.Fits (ev :: evs) ↔ c.blocks ev = false ∧ (c.put ev).Fits evs := by
  cases ev with
  | reliable f =>
    cases ho : c.relOpen with
    | false => simp [Fits, blocks, relFull, put, ho]
    | true =>
      simp only [Fits, ho, blocks, relFull, put, List.countP_cons, RecvEvent.isReliable,
        Bool.true_and, decide_eq_false_iff_not, if_true, List.length_append, List.length_singleton,
        true_implies]
      omega
  | unreliable f =>
    cases hr : c.unrelRoom <;> simp [Fits, blocks, put, RecvEvent.isReliable, hr]
  | sendNack | sendAck | sendEndAck | relFinished | closed =>
    simp [Fits, blocks, put, RecvEvent.isReliable]

end Channels

namespace Entry

variable {c : Channels}

theorem hand_cons_of_not_blocks {ev : RecvEvent} (h : c.blocks ev = false) (e : Entry)
    (id : RequestId) (t : Readings) (evs : List RecvEvent) :
    e.hand c id t (ev :: evs)
      = ⟨⟨((e.applyOne id (c.around t) ev).entry.hand (c.put ev) id t evs).applied.entry,
          (e.applyOne id (c.around t) ev).effects
            ++ ((e.applyOne id (c.around t) ev).entry.hand (c.put ev) id t evs).applied.effects,
          (e.applyOne id (c.around t) ev).out
            ++ ((e.applyOne id (c.around t) ev).entry.hand (c.put ev) id t evs).applied.out⟩,
        ((e.applyOne id (c.around t) ev).entry.hand (c.put ev) id t evs).chans,
        ((e.applyOne id (c.around t) ev).entry.hand (c.put ev) id t evs).rest⟩ := by
  simp [hand, h]

/-- `apply` comes to its end exactly when all its reliable frames fit. -/
theorem hand_rest_nil_iff (e : Entry) (c : Channels) (id : RequestId) (t : Readings)
    (evs : List RecvEvent) : (e.hand c id t evs).rest = [] ↔ c.Fits evs := by
  induction evs generalizing e c with
  | nil => simp [hand, Channels.Fits]
  | cons ev evs ih =>
    rw [Channels.fits_cons]
    cases hb : c.blocks ev with
    | true => simp [hand, hb]
    | false => simp [hand_cons_of_not_blocks hb, ih]

/-- Another answer from the playback channel. -/
def withRoom (a : Around) (room : Bool) : Around := ⟨room, a.relOpen, a.warnNow, a.ackNow⟩

/-- The answers for one event stand for the next, a playback frame apart. -/
theorem around_put (t : Readings) {ev : RecvEvent} (h : ∀ f, ev ≠ .unreliable f) :
    (c.put ev).around t = c.around t := by
  cases ev with
  | unreliable f => exact absurd rfl (h f)
  | reliable f =>
    simp only [Channels.put]
    split <;> rfl
  | sendNack | sendAck | sendEndAck | relFinished | closed => rfl

theorem hand_of_fits_quiet (e : Entry) (id : RequestId) (t : Readings) {evs : List RecvEvent}
    (hf : c.Fits evs) (hq : ∀ f, .unreliable f ∉ evs) (room : Bool) :
    (e.hand c id t evs).applied = e.apply id (withRoom (c.around t) room) evs := by
  induction evs generalizing e c with
  | nil => rfl
  | cons ev evs ih =>
    obtain ⟨hb, hf'⟩ := Channels.fits_cons.mp hf
    have hev : ∀ f, ev ≠ .unreliable f := fun f he => hq f (by simp [he])
    have hone : e.applyOne id (c.around t) ev
        = e.applyOne id (withRoom (c.around t) room) ev := by
      cases ev with
      | unreliable f => exact absurd rfl (hev f)
      | reliable | sendNack | sendAck | sendEndAck | relFinished | closed => rfl
    have htail := ih (e.applyOne id (c.around t) ev).entry hf'
      fun f hmem => hq f (List.mem_cons_of_mem ev hmem)
    rw [around_put t hev] at htail
    rw [hand_cons_of_not_blocks hb, htail, hone]
    rfl

/-- Events that fit, a playback frame first if at all, are applied as with
the answers of the channels as they stood. -/
theorem hand_of_fits (e : Entry) (id : RequestId) (t : Readings) {evs first rest : List RecvEvent}
    (hf : c.Fits evs) (heq : evs = first ++ rest)
    (hfirst : first = [] ∨ ∃ f, first = [.unreliable f]) (hq : ∀ f, .unreliable f ∉ rest) :
    (e.hand c id t evs).applied = e.apply id (c.around t) evs := by
  subst heq
  rcases hfirst with rfl | ⟨f, rfl⟩
  · exact hand_of_fits_quiet e id t hf hq c.unrelRoom
  · rw [List.singleton_append] at hf ⊢
    obtain ⟨hb, hf'⟩ := Channels.fits_cons.mp hf
    have hopen : withRoom ((c.put (.unreliable f)).around t) c.unrelRoom = c.around t := by
      simp only [Channels.put]
      split <;> rfl
    have htail := hand_of_fits_quiet (e.applyOne id (c.around t) (.unreliable f)).entry id t hf' hq
      c.unrelRoom
    rw [hopen] at htail
    rw [hand_cons_of_not_blocks hb, htail]
    rfl

end Entry

namespace LockedEndpoint

/-- If the call is a datagram for the request, then what it releases, given
the lock, finds room in the reliable channel. -/
def JobFits (s : LockedEndpoint) (id : RequestId) (clock : RequestId → Readings)
    (job : Job) : Prop :=
  ∀ bytes source, job = .datagram bytes source → requestIdOf bytes = .ok id →
    ∀ e, s.endpoint.entries.lookup id = some e → ∀ seq body,
      openBody e.key .send bytes = some (seq, body) →
        (s.chans id).Fits (e.state.handle seq body (clock id).now).2

/-- The step of the endpoint that a call is. -/
def stepOf (s : LockedEndpoint) (clock : RequestId → Readings) : Job → Endpoint.Step
  | .arm id key cfg => .arm id key cfg (clock id).now
  | .datagram bytes source =>
    match requestIdOf bytes with
    | .error _ => .datagram bytes source 0 ⟨false, false, 0, 0⟩
    | .ok id => .datagram bytes source (clock id).now ((s.chans id).around (clock id))
  | .tick now => .tick now fun id => (s.chans id).around (clock id)

/-- **A call that need not wait** is one step of the endpoint, and gives the
lock back. -/
theorem perform_refines {s : LockedEndpoint} (hfree : s.held = none)
    (clock : RequestId → Readings) (job : Job) (hfits : ∀ id, s.JobFits id clock job) :
    (s.perform clock job).1.endpoint = (s.endpoint.step (s.stepOf clock job)).1
      ∧ (s.perform clock job).2
        = (s.endpoint.step (s.stepOf clock job)).2.map Effect.endpoint ++ [.completed job]
      ∧ (s.perform clock job).1.held = none := by
  cases job with
  | arm id key cfg => exact ⟨rfl, rfl, hfree⟩
  | tick now => exact ⟨rfl, rfl, hfree⟩
  | datagram bytes source =>
    cases hid : requestIdOf bytes with
    | error err =>
      simp only [perform, stepOf, hid, Endpoint.step, Endpoint.onDatagram]
      exact ⟨trivial, rfl, hfree⟩
    | ok id =>
      cases he : s.endpoint.entries.lookup id with
      | none =>
        simp only [perform, stepOf, hid, he, Endpoint.step, Endpoint.onDatagram]
        exact ⟨trivial, rfl, hfree⟩
      | some e =>
        cases hopen : openBody e.key .send bytes with
        | none =>
          simp only [perform, stepOf, hid, he, hopen, Endpoint.step, Endpoint.onDatagram,
            Entry.onDatagram]
          refine ⟨?_, by simp [Endpoint.effectsOf, Endpoint.replies]; cases e.peer <;> rfl, hfree⟩
          rw [Assoc.replace_self he]
          simp
        | some p =>
          obtain ⟨seq, body⟩ := p
          have hf := hfits id bytes source rfl hid e he seq body hopen
          obtain ⟨first, rest, heq, hfirst, hq⟩ :=
            e.state.handle_unreliable_first seq body (clock id).now
          have happ := Entry.hand_of_fits
            { e.pin source with state := (e.state.handle seq body (clock id).now).1 } id (clock id)
            hf heq hfirst hq
          have hrest := (Entry.hand_rest_nil_iff
            { e.pin source with
              state := (e.state.handle seq body (clock id).now).1 } (s.chans id) id
            (clock id) _).mpr hf
          have hpin : (e.pin source).state = e.state := rfl
          simp only [perform, stepOf, hid, he, hopen, Endpoint.step, Endpoint.onDatagram,
            Entry.onDatagram, deliver, hrest, happ, store, hpin]
          simp [Endpoint.effectsOf]

end LockedEndpoint

end Protofish4
