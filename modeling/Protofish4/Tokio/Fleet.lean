import Protofish4.Tokio.Delivery
import Protofish4.Tokio.Isolation

/-!
# Many taps, one endpoint

Each tap runs `send_all` on a socket of its own, and one endpoint serves
them all. A step of this system is at most one step of the transfer that a
request id names: a poll of its tap or a step of its entry. So every
transfer runs as if its tap and its entry were alone, and gets what such a
pair gets.
-/

namespace Protofish4

open Net (lefts rights)
open Endpoint (otherId)

/-! ## The system -/

/-- The taps, each under the request it serves. -/
abbrev Taps := RequestId → Sender.Task

/-- One of the taps is polled. -/
def Taps.poll (taps : Taps) (x : RequestId × Sender.Round) :
    Taps × List (RequestId × Sender.Effect) :=
  (Function.update taps x.1 ((taps x.1).poll x.2).1, ((taps x.1).poll x.2).2.map (x.1, ·))

abbrev FleetStep := (RequestId × Sender.Round) ⊕ Endpoint.Step

abbrev FleetTrace := List ((RequestId × Sender.Effect) ⊕ Endpoint.Effect)

/-- All taps and the endpoint, in any interleaving. -/
def fleetRun (w : Taps × Endpoint) (steps : List FleetStep) : (Taps × Endpoint) × FleetTrace :=
  Machine.run (Par.step Taps.poll Endpoint.step) w steps

/-- What a tap is told: its arguments of `send_all`. -/
structure Order where
  key : SessionKey
  peer : SocketAddr
  cfg : SenderConfig
  frames : List (TimestampMs × Bytes)

def Order.tap (o : Order) (id : RequestId) : Sender.Task :=
  .start (.connect o.peer id o.key o.cfg) o.frames

/-- No tap polled, no request armed. -/
def fleetStart (orders : RequestId → Order) : Taps × Endpoint :=
  (fun id => (orders id).tap id, Endpoint.bind)

/-! ## One transfer's part of it -/

/-- What a step is for the transfer of `id`. -/
def ownStep (id : RequestId) : FleetStep → Option (Sender.Round ⊕ Entry.Step)
  | .inl (id', r) => if id' = id then some (.inl r) else none
  | .inr x => (x.own id).map .inr

def ownEffect (id : RequestId) :
    (RequestId × Sender.Effect) ⊕ Endpoint.Effect → Option (Sender.Effect ⊕ Entry.Effect)
  | .inl (id', f) => if id' = id then some (.inl f) else none
  | .inr (.entry id' f) => if id' = id then some (.inr f) else none
  | .inr (.sent ..) => none

/-- What the transfer of `id` has done. -/
def view (id : RequestId) (t : FleetTrace) : JointTrace := t.filterMap (ownEffect id)

/-- For the transfer of `id`, nothing is forged in this run. -/
def FleetHonest (id : RequestId) (key : SessionKey) (w : Taps × Endpoint)
    (steps : List FleetStep) : Prop :=
  ∀ before x after, steps = before ++ x :: after →
    ∀ y ∈ ownStep id x, Unforged key (view id (fleetRun w before).2) y

instance (id : RequestId) (key : SessionKey) (w : Taps × Endpoint) (steps : List FleetStep) :
    Decidable (FleetHonest id key w steps) :=
  decidable_of_iff _ Machine.forall_split_iff.symm

theorem view_polled (id id' : RequestId) (fs : List Sender.Effect) :
    view id (fs.map fun f => .inl (id', f)) = if id' = id then fs.map .inl else [] := by
  unfold view
  rw [List.filterMap_map]
  by_cases hid : id' = id
  · subst hid
    simp only [if_true]
    rw [← List.filterMap_eq_map]
    congr 1
    ext f : 1
    simp [ownEffect]
  · rw [if_neg hid]
    refine List.filterMap_eq_nil_iff.mpr fun f _ => ?_
    simp [ownEffect, hid]

/-- Of what an endpoint does, a transfer's view takes nothing that is not
about its request. -/
theorem view_about (id : RequestId) (fs : List Endpoint.Effect) :
    view id (fs.map .inr) = view id ((fs.filter (Endpoint.Effect.about id)).map .inr) := by
  unfold view
  rw [List.filterMap_map, List.filterMap_map, List.filterMap_filter]
  refine List.filterMap_congr fun f _ => ?_
  cases f with
  | entry id' f => by_cases hid : id' = id <;> simp [ownEffect, Endpoint.Effect.about, hid]
  | sent peer d => simp [ownEffect]

theorem view_effectsOf (id : RequestId) (p : Entry.Applied) :
    view id ((Endpoint.effectsOf id p).map .inr) = p.effects.map .inr := by
  have hown : ∀ fs : List Entry.Effect,
      view id ((fs.map (Endpoint.Effect.entry id)).map .inr) = fs.map .inr := by
    intro fs
    unfold view
    rw [List.map_map, List.filterMap_map, ← List.filterMap_eq_map]
    congr 1
    ext f : 1
    simp [ownEffect]
  have hreplies : view id ((Endpoint.replies p.entry.peer p.out).map .inr) = [] := by
    refine List.filterMap_eq_nil_iff.mpr fun f hf => ?_
    obtain ⟨g, hg, rfl⟩ := List.mem_map.mp hf
    unfold Endpoint.replies at hg
    split at hg
    · cases hg
    · obtain ⟨d, -, rfl⟩ := List.mem_map.mp hg
      rfl
  rw [Endpoint.effectsOf, List.map_append, view, List.filterMap_append]
  change view id _ ++ view id _ = _
  rw [hown, hreplies, List.append_nil]

/-- A tap and an entry on their own. -/
def pairStep (id : RequestId) : Sender.Task × Entry → Sender.Round ⊕ Entry.Step →
    (Sender.Task × Entry) × JointTrace :=
  Par.step Sender.Task.poll fun e x => ((Entry.step e id x).entry, (Entry.step e id x).effects)

/-- **One step of the system** is for each transfer its own step or none. -/
theorem fleet_step {w : Taps × Endpoint} {id : RequestId} {e : Entry}
    (he : w.2.entries.lookup id = some e) (x : FleetStep) :
    let q := Par.step Taps.poll Endpoint.step w x
    (q.1.1 id = ((ownStep id x).elim (w.1 id, e) fun y => (pairStep id (w.1 id, e) y).1).1
        ∧ ∀ e', q.1.2.entries.lookup id = some e' →
          e' = ((ownStep id x).elim (w.1 id, e) fun y => (pairStep id (w.1 id, e) y).1).2)
      ∧ view id q.2 = (ownStep id x).elim [] fun y => (pairStep id (w.1 id, e) y).2 := by
  intro q
  have hsame : ∀ e', w.2.entries.lookup id = some e' → e' = e := fun e' he' => by
    rw [he] at he'
    exact (Option.some.inj he').symm
  cases x with
  | inl x =>
    obtain ⟨id', r⟩ := x
    have hview : view id q.2 = if id' = id then ((w.1 id').poll r).2.map .inl else [] := by
      rw [← view_polled id id']
      simp only [q, Par.step, Taps.poll, List.map_map]
      rfl
    by_cases hid : id' = id
    · subst hid
      rw [if_pos rfl] at hview
      simp only [ownStep, if_true, Option.elim, pairStep, Par.step]
      exact ⟨⟨by simp [q, Par.step, Taps.poll], hsame⟩, hview⟩
    · rw [if_neg hid] at hview
      simp only [ownStep, if_neg hid, Option.elim]
      exact ⟨⟨by simp [q, Par.step, Taps.poll, Ne.symm hid], hsame⟩, hview⟩
  | inr x =>
    obtain ⟨hentry, heffects⟩ := Endpoint.step_own he x
    have hview : view id q.2 = view id (((w.2.step x).2.filter (Endpoint.Effect.about id)).map
        .inr) := view_about id _
    rw [heffects] at hview
    cases hown : x.own id with
    | none =>
      rw [hown] at hentry hview
      simp only [ownStep, hown, Option.map_none, Option.elim]
      exact ⟨⟨rfl, hentry⟩, hview⟩
    | some k =>
      rw [hown] at hentry hview
      simp only [ownStep, hown, Option.map_some, Option.elim, pairStep, Par.step]
      exact ⟨⟨rfl, hentry⟩, hview.trans (view_effectsOf id _)⟩

/-! ## Every run -/

section Run

variable {w : Taps × Endpoint} {id : RequestId} {o : Order} {rcfg : ReceiverConfig}
variable {start : Instant}

/-- **A transfer among others runs as it would alone**, for as long as its
entry is there. -/
theorem fleet_projects (htap : w.1 id = o.tap id)
    (hentry : w.2.entries.lookup id = some (Entry.new o.key rcfg start)) (steps : List FleetStep)
    (hlive : ∀ before x after, steps = before ++ x :: after →
      ((fleetRun w before).1.2.entries.lookup id).isSome) :
    let v := deliveryRun o.key id o.peer o.cfg rcfg start o.frames (steps.filterMap (ownStep id))
    (fleetRun w steps).1.1 id = v.1.1 ∧ view id (fleetRun w steps).2 = v.2 := by
  have hstart : ∀ e, w.2.entries.lookup id = some e → e = Entry.new o.key rcfg start := by
    intro e he
    rw [hentry] at he
    exact (Option.some.inj he).symm
  refine And.imp_left And.left (Machine.run_projects (Par.step Taps.poll Endpoint.step)
    (pairStep id) (fun w p => w.1 id = p.1 ∧ ∀ e, w.2.entries.lookup id = some e → e = p.2)
    (fun w _ => (w.2.entries.lookup id).isSome) (ownStep id) (ownEffect id)
    (t := (o.tap id, Entry.new o.key rcfg start)) ⟨htap, hstart⟩ hlive ?_)
  rintro w ⟨k, e⟩ x ⟨hk, honly⟩ hthere
  obtain ⟨e', he'⟩ := Option.isSome_iff_exists.mp hthere
  cases honly e' he'
  cases hk
  exact fleet_step he' x

/-- What is not forged in the system is not forged for the transfer. -/
theorem fleet_honest (htap : w.1 id = o.tap id)
    (hentry : w.2.entries.lookup id = some (Entry.new o.key rcfg start)) {steps : List FleetStep}
    (hlive : ∀ before x after, steps = before ++ x :: after →
      ((fleetRun w before).1.2.entries.lookup id).isSome)
    (h : FleetHonest id o.key w steps) :
    Honest o.key id o.peer o.cfg rcfg start o.frames (steps.filterMap (ownStep id)) := by
  intro before y after heq
  obtain ⟨first, rest, hsteps, hfirst, hrest⟩ := List.filterMap_eq_append_iff.mp heq
  obtain ⟨skipped, x, after', hrest', hskipped, hown, -⟩ := List.filterMap_eq_cons_iff.mp hrest
  subst hrest'
  have hsplit : steps = (first ++ skipped) ++ x :: after' := by
    rw [hsteps, List.append_assoc]
  have hbefore : (first ++ skipped).filterMap (ownStep id) = before := by
    rw [List.filterMap_append, hfirst, List.filterMap_eq_nil_iff.mpr hskipped, List.append_nil]
  obtain ⟨-, hview⟩ := fleet_projects htap hentry (first ++ skipped) fun b x' a hb =>
    hlive b x' (a ++ x :: after') (by rw [hsplit, hb, List.append_assoc, List.cons_append])
  rw [hbefore] at hview
  rw [← hview]
  exact h _ x after' hsplit y hown

/-- Where no tap is polled, the tap stays as it is. -/
theorem tap_unpolled {steps : List FleetStep} (h : ∀ r, .inl (id, r) ∉ steps) :
    (fleetRun w steps).1.1 id = w.1 id := by
  induction steps using List.reverseRecOn with
  | nil => rfl
  | append_singleton steps x ih =>
    have hrun := Machine.run_concat (Par.step Taps.poll Endpoint.step) w steps x
    unfold fleetRun
    rw [hrun, Machine.andThen_fst]
    refine Eq.trans ?_ (ih fun r hr => h r (List.mem_append_left _ hr))
    cases x with
    | inl x =>
      obtain ⟨id', r⟩ := x
      have hid : id ≠ id' := by
        rintro rfl
        exact h r (by simp)
      simp [Par.step, Taps.poll, hid, fleetRun]
    | inr x => rfl

end Run

/-- **Every consumer gets the frames of its own tap.** Any number of taps
send to one endpoint, each from some moment on, over a network that loses,
repeats, reorders, delays and mixes up their datagrams. For as long as the
entry of a request armed before its tap starts is there: what its consumer
has got is a first part of that tap's frames, in order, numbered from one;
once its outcome says `Complete`, it is all of them; and once that tap's
`send_all` has returned `Ok`, the outcome has been sent. -/
theorem fleet_delivers (orders : RequestId → Order) (pre since : List FleetStep) (id : RequestId)
    (rcfg : ReceiverConfig) (now : Instant) (hwaits : ∀ r, .inl (id, r) ∉ pre)
    (hfree : (fleetRun (fleetStart orders) pre).1.2.entries.lookup id = none) :
    let o := orders id
    let armed := (fleetRun (fleetStart orders) (pre ++ [.inr (.arm id o.key rcfg now)])).1
    let w := fleetRun armed since
    let out := rights (view id w.2)
    (∀ n < since.length, ((fleetRun armed (since.take n)).1.2.entries.lookup id).isSome) →
    FleetHonest id o.key armed since → o.frames.length < 2 ^ 32 - 1 →
      untagged (Entry.relFrames out) <+: o.frames ∧ Numbered (Entry.relFrames out)
        ∧ (∀ f, .complete f ∈ Entry.outcomes out →
          untagged (Entry.relFrames out) = o.frames ∧ f.toNat = o.frames.length)
        ∧ ((w.1.1 id).result = some (.ok ()) → ∃ outcome, Entry.outcomes out = [outcome]) := by
  intro o armed w out hthere hhonest hfew
  have harm : armed = (Par.step Taps.poll Endpoint.step (fleetRun (fleetStart orders) pre).1
      (.inr (.arm id o.key rcfg now))).1 := by
    have hrun := Machine.run_concat (Par.step Taps.poll Endpoint.step) (fleetStart orders) pre
      (.inr (.arm id o.key rcfg now))
    exact (congrArg Prod.fst hrun :)
  have htap : armed.1 id = o.tap id := by
    rw [harm]
    exact tap_unpolled hwaits
  have hentry : armed.2.entries.lookup id = some (Entry.new o.key rcfg now) := by
    rw [harm]
    simp [Par.step, Endpoint.step, Endpoint.arm, hfree]
  have hlive : ∀ before x after, since = before ++ x :: after →
      ((fleetRun armed before).1.2.entries.lookup id).isSome := by
    intro before x after heq
    have h := hthere before.length (by rw [heq, List.length_append, List.length_cons]; omega)
    rwa [heq, List.take_left] at h
  obtain ⟨hresult, hview⟩ := fleet_projects htap hentry since hlive
  have hlinked := linked_of_honest (fleet_honest htap hentry hlive hhonest) hfew
  have htask := task_inv o.key id o.peer o.cfg rcfg now o.frames (since.filterMap (ownStep id))
  obtain ⟨hrel, hout⟩ := sink_shows o.key id o.peer o.cfg rcfg now o.frames
    (since.filterMap (ownStep id))
  rw [← hview] at hrel hout
  obtain ⟨hfirst, hnumbered, hcomplete⟩ := hlinked.delivered htask hrel hout
  refine ⟨hfirst, hnumbered, hcomplete, fun hok => ?_⟩
  exact hlinked.outcome htask (hresult ▸ hok) hout

/-- Two taps with a frame each. -/
def twoOrders (id : RequestId) : Order :=
  ⟨plainKey, ⟨[127, 0, 0, 1], 4000⟩, {}, if id = zeroId then [(⟨20⟩, [1, 2])] else [(⟨40⟩, [3])]⟩

/-- Both frames are sent and arrive, the other transfer's first, and the
first transfer ends. -/
def twoTapSteps : List FleetStep :=
  [.inl (otherId, Sender.quietRound 0), .inl (zeroId, Sender.quietRound 0),
    .inr (.datagram (carried otherId .send 1 (.data ⟨40⟩ [3])) ⟨[127, 0, 0, 1], 4002⟩ 1
      ⟨true, true, 0, 0⟩),
    .inr (.datagram (carried zeroId .send 1 (.data ⟨20⟩ [1, 2])) ⟨[127, 0, 0, 1], 4001⟩ 1
      ⟨true, true, 0, 0⟩),
    .inl (zeroId, Sender.quietRound 2), .inl (otherId, Sender.quietRound 2),
    .inr (.datagram (carried zeroId .send 1 (.end ⟨1⟩)) ⟨[127, 0, 0, 1], 4001⟩ 3
      ⟨true, true, 0, 0⟩),
    .inl (zeroId, { Sender.quietRound 4 with
      incoming := .datagram (carried zeroId .recv 0 .endAck) }),
    .inl (zeroId, Sender.quietRound 5)]

theorem fleet_delivers_two_taps :
    let armed := (fleetRun (fleetStart twoOrders) [.inr (.arm otherId plainKey .cacheWorker 0),
      .inr (.arm zeroId plainKey .cacheWorker 0)]).1
    let out := rights (view zeroId (fleetRun armed twoTapSteps).2)
    untagged (Entry.relFrames out) = [(⟨20⟩, [1, 2])]
      ∧ ∃ outcome, Entry.outcomes out = [outcome] := by
  have h := fleet_delivers twoOrders [.inr (.arm otherId plainKey .cacheWorker 0)] twoTapSteps
    zeroId .cacheWorker 0 (by simp) (by decide +kernel) (by decide +kernel) (by decide +kernel)
    (by decide)
  exact ⟨(h.2.2.1 ⟨1⟩ (by decide +kernel)).1, h.2.2.2 (by decide +kernel)⟩

end Protofish4
