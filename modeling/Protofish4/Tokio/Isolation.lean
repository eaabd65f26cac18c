import Protofish4.Lib.Simulation
import Protofish4.Tokio.Forgery

/-!
# Transfers do not see each other

One endpoint serves any number of transfers. A step of the endpoint is at
most one step of the entry that a request id names: a datagram routed to
it, a tick, a report of its play head. So each transfer gets what an
endpoint of its own would give it, whatever the others do meanwhile.
-/

namespace Protofish4

namespace Entry

/-- An entry on its own, with what it does as the endpoint would do it. -/
def react (id : RequestId) (e : Entry) (x : Step) : Entry × List Endpoint.Effect :=
  ((e.step id x).entry, Endpoint.effectsOf id (e.step id x))

/-- What an entry sends shows its own request. -/
theorem step_out (e : Entry) (id : RequestId) (x : Step) :
    ∀ d ∈ (e.step id x).out, requestIdOf d = .ok id := by
  cases x with
  | datagram bytes source now around =>
    simp only [step, onDatagram]
    split
    · simp
    · exact (apply_out _ id around _).2
  | tick now around => exact (apply_out _ id around _).2
  | setPlayheadMs ms now => simp [step]

end Entry

namespace Endpoint

/-- What a step of the endpoint is for the entry of `id`. -/
def Step.own (id : RequestId) : Step → Option Entry.Step
  | .datagram bytes source now around =>
    if requestIdOf bytes = .ok id then some (.datagram bytes source now around) else none
  | .tick now around => some (.tick now (around id))
  | .setPlayheadMs id' ms now => if id' = id then some (.setPlayheadMs ms now) else none
  | .arm .. | .dropArmed _ | .disarm _ => none

/-- An effect is about `id` if it is a delivery of its transfer or a
datagram that shows its request. -/
def Effect.about (id : RequestId) : Effect → Bool
  | .entry id' _ => id' = id
  | .sent _ d => requestIdOf d = .ok id

/-- All that an entry does is about its own request. -/
theorem filter_effectsOf (id id' : RequestId) (e : Entry) (x : Entry.Step) :
    (effectsOf id' (e.step id' x)).filter (Effect.about id)
      = if id' = id then effectsOf id' (e.step id' x) else [] := by
  have habout : ∀ f ∈ effectsOf id' (e.step id' x), Effect.about id f = decide (id' = id) := by
    intro f hf
    cases f with
    | entry id'' f => rw [(mem_effectsOf_entry.mp hf).1, Effect.about]
    | sent peer d =>
      rw [Effect.about, e.step_out id' x d (mem_effectsOf_sent.mp hf).2]
      simp
  rw [List.filter_congr habout]
  split
  · rename_i hid
    simp [hid]
  · rename_i hid
    simp [hid]

/-- A tick does for each entry what its own tick does, and nothing else
about its request. -/
theorem filter_tickLoop (now : Instant) (around : RequestId → Around) {ids : List RequestId}
    (hnd : ids.Nodup) (m : AList fun _ : RequestId => Entry) (id : RequestId) :
    (tickLoop now around ids m).2.1.filter (Effect.about id)
      = if id ∈ ids then
          (m.lookup id).elim [] fun e => effectsOf id (e.tick id now (around id))
        else [] := by
  induction ids generalizing m with
  | nil => rfl
  | cons k ids ih =>
    obtain ⟨hk, hnd⟩ := List.nodup_cons.mp hnd
    simp only [tickLoop]
    cases he : m.lookup k with
    | none =>
      rw [ih hnd]
      by_cases hid : id = k
      · subst hid
        simp [hk, he]
      · simp [hid]
    | some e =>
      have hone := filter_effectsOf id k e (.tick now (around k))
      simp only [Entry.step] at hone
      rw [List.filter_append, hone, ih hnd]
      by_cases hid : id = k
      · subst hid
        simp [hk, he]
      · simp [hid, Ne.symm hid, Assoc.lookup_replace_ne _ hid]

/-- In this step the entry that `id` names takes its own part of it and
nothing of the rest; it may be removed. -/
structure TakesOwn (s : Endpoint) (id : RequestId) (e : Entry) (x : Step) : Prop where
  entry : ∀ e', (s.step x).1.entries.lookup id = some e' →
    e' = (x.own id).elim e fun k => (e.react id k).1
  shown : (s.step x).2.filter (Effect.about id) = (x.own id).elim [] fun k => (e.react id k).2

section TakesOwn

variable {s : Endpoint} {id : RequestId} {e : Entry} (he : s.entries.lookup id = some e)
include he

theorem lookup_unique {e' : Entry} (he' : s.entries.lookup id = some e') : e' = e :=
  Option.some.inj (he'.symm.trans he)

/-- The request is taken: no other entry is armed in its place. -/
theorem arm_own (id' : RequestId) (key : SessionKey) (cfg : ReceiverConfig) (now : Instant) :
    TakesOwn s id e (.arm id' key cfg now) where
  entry e' he' := by
    refine lookup_unique he ?_
    simp only [step, arm] at he'
    split at he'
    · exact he'
    · rename_i hfree
      have hne : id ≠ id' := by
        rintro rfl
        simp [he] at hfree
      rwa [AList.lookup_insert_ne hne] at he'
  shown := rfl

theorem disarm_own (n : Nat) : TakesOwn s id e (.disarm n) where
  entry e' he' := by
    refine lookup_unique he ?_
    simp only [step, disarm] at he'
    split at he'
    · exact he'
    · exact Assoc.lookup_of_erase he'
  shown := rfl

theorem datagram_own (bytes : Bytes) (source : SocketAddr) (now : Instant) (around : Around) :
    TakesOwn s id e (.datagram bytes source now around) where
  entry e' he' := by
    obtain ⟨e₀, he₀, rfl⟩ := onDatagram_lookup he'
    cases lookup_unique he he₀
    simp only [Step.own]
    split <;> rfl
  shown := by
    simp only [step, onDatagram, Step.own]
    split
    · rename_i err hid
      simp [hid]
    · rename_i id' hid
      by_cases hown : id' = id
      · subst hown
        rw [he]
        have hone := filter_effectsOf id' id' e (.datagram bytes source now around)
        simpa [hid, Entry.react, Entry.step] using hone
      · -- it is routed to another entry, if to any
        have hnot : ¬ requestIdOf bytes = .ok id := by simp [hid, hown]
        rw [if_neg hnot]
        split
        · rfl
        · rename_i e' he'
          have hone := filter_effectsOf id id' e' (.datagram bytes source now around)
          simpa [hown, Entry.step] using hone

theorem tick_own (now : Instant) (around : RequestId → Around) :
    TakesOwn s id e (.tick now around) where
  entry e' he' := by
    obtain ⟨e₀, he₀, rfl⟩ := tick_lookup he'
    cases lookup_unique he he₀
    rfl
  shown := by
    have hloop := filter_tickLoop now around s.entries.keys_nodup s.entries id
    have hmem : id ∈ s.entries.keys :=
      AList.mem_keys.mpr (AList.lookup_isSome.mp (by rw [he]; rfl))
    rw [if_pos hmem, he] at hloop
    exact hloop

theorem setPlayheadMs_own (id' : RequestId) (ms : Nat) (now : Instant) :
    TakesOwn s id e (.setPlayheadMs id' ms now) where
  entry e' he' := by
    simp only [step, setPlayheadMs] at he'
    split at he'
    · rename_i hnone
      have hne : id' ≠ id := by
        rintro rfl
        simp [he] at hnone
      rw [Step.own, if_neg hne]
      exact lookup_unique he he'
    · rename_i e₀ he₀
      by_cases hown : id' = id
      · subst hown
        cases lookup_unique he he₀
        rw [Assoc.lookup_replace _ he₀] at he'
        rw [Step.own, if_pos rfl]
        exact (Option.some.inj he').symm
      · rw [Assoc.lookup_replace_ne _ (Ne.symm hown)] at he'
        rw [Step.own, if_neg hown]
        exact lookup_unique he he'
  shown := by
    simp only [step, Step.own]
    split
    · simp only [Option.elim, Entry.react, Entry.step, effectsOf, replies]
      cases e.peer <;> rfl
    · rfl

/-- **One step** of the endpoint. -/
theorem step_own (x : Step) : TakesOwn s id e x := by
  cases x with
  | arm id' key cfg now => exact arm_own he id' key cfg now
  | dropArmed id' => exact ⟨fun _ => lookup_unique he, rfl⟩
  | disarm n => exact disarm_own he n
  | datagram bytes source now around => exact datagram_own he bytes source now around
  | tick now around => exact tick_own he now around
  | setPlayheadMs id' ms now => exact setPlayheadMs_own he id' ms now

end TakesOwn

/-- **The run lemma**: as long as the entry is there, the endpoint shows of
it what it would do on its own. -/
theorem run_own {s : Endpoint} {id : RequestId} {e : Entry}
    (he : s.entries.lookup id = some e) (xs : List Step)
    (hlive : ∀ pre x post, xs = pre ++ x :: post →
      ((run s pre).1.entries.lookup id).isSome) :
    (∀ e', (run s xs).1.entries.lookup id = some e' →
        e' = (Machine.run (Entry.react id) e (xs.filterMap (Step.own id))).1)
      ∧ (run s xs).2.filter (Effect.about id)
        = (Machine.run (Entry.react id) e (xs.filterMap (Step.own id))).2 := by
  rw [← List.filterMap_eq_filter]
  refine Machine.run_projects step (Entry.react id)
    (fun s e => ∀ e', s.entries.lookup id = some e' → e' = e)
    (fun s _ => (s.entries.lookup id).isSome) (Step.own id) (Option.guard (Effect.about id)) ?_
    hlive ?_
  · intro e' he'
    rw [he] at he'
    exact (Option.some.inj he').symm
  · intro s e x honly hthere
    obtain ⟨e', he'⟩ := Option.isSome_iff_exists.mp hthere
    cases honly e' he'
    rw [List.filterMap_eq_filter]
    exact ⟨(step_own he' x).entry, (step_own he' x).shown⟩

/-- A request that is armed gets a new entry. -/
theorem lookup_armed {pre : List Step} {id : RequestId} (key : SessionKey) (cfg : ReceiverConfig)
    (now : Instant) (hfree : (run bind pre).1.entries.lookup id = none) :
    (run bind (pre ++ [.arm id key cfg now])).1.entries.lookup id
      = some (Entry.new key cfg now) := by
  have hstep : (run bind (pre ++ [.arm id key cfg now])).1
      = ((run bind pre).1.step (.arm id key cfg now)).1 := run_concat pre _
  rw [hstep]
  simp [step, arm, hfree]

/-- **Isolation.** From the moment a request is armed until its entry is
removed, whatever else the endpoint serves: the entry is the one that its
own datagrams, ticks and play head reports make of a new one, and the
deliveries, outcomes and replies about its request are those of that entry
alone, in that order. -/
theorem transfer_isolated (pre since : List Step) (id : RequestId) (key : SessionKey)
    (cfg : ReceiverConfig) (now : Instant) (hfree : (run bind pre).1.entries.lookup id = none)
    (hlive : ∀ n < since.length,
      ((run bind (pre ++ .arm id key cfg now :: since.take n)).1.entries.lookup id).isSome) :
    let armed := (run bind (pre ++ [.arm id key cfg now])).1
    let alone := Machine.run (Entry.react id) (Entry.new key cfg now)
      (since.filterMap (Step.own id))
    (∀ e, (run armed since).1.entries.lookup id = some e → e = alone.1)
      ∧ (run armed since).2.filter (Effect.about id) = alone.2 := by
  intro armed alone
  refine run_own (lookup_armed key cfg now hfree) since fun before x after heq => ?_
  have hthere := hlive before.length (by rw [heq, List.length_append, List.length_cons]; omega)
  have hafter : run bind (pre ++ .arm id key cfg now :: since.take before.length)
      = Machine.andThen (run bind (pre ++ [.arm id key cfg now])) fun s => run s before := by
    rw [heq, List.take_left, List.append_cons]
    exact Machine.run_append step bind _ before
  rw [hafter] at hthere
  exact hthere

/-- Another request of the same endpoint, and its first frame. -/
def otherId : RequestId := ⟨List.replicate 16 1, rfl⟩

def otherCall : SealCall := .run plainKey ⟨.data, otherId, 1⟩ .send (u64Bytes 0 ++ [9])

/-- A frame of each of two requests, a play head and a tick for both. -/
def sharedSteps : List Step :=
  [.datagram (otherCall.result.toOption.getD []) ⟨[127, 0, 0, 1], 4001⟩ 0 ⟨true, true, 0, 0⟩,
    .datagram (tapCall.result.toOption.getD []) ⟨[127, 0, 0, 1], 4000⟩ 0 ⟨true, true, 0, 0⟩,
    .setPlayheadMs otherId 20 (fromSecs 1),
    .tick (fromSecs 1) fun _ => ⟨true, true, fromSecs 1, fromSecs 1⟩]

theorem transfer_isolated_shared :
    (run (run bind [.arm otherId plainKey .audioEngine 0, .arm zeroId plainKey .cacheWorker 0]).1
        sharedSteps).2.filter (Effect.about zeroId)
      = (Machine.run (Entry.react zeroId) (Entry.new plainKey .cacheWorker 0)
          (sharedSteps.filterMap (Step.own zeroId))).2
      ∧ (sharedSteps.filterMap (Step.own zeroId)).length = 2 :=
  ⟨(transfer_isolated [.arm otherId plainKey .audioEngine 0] sharedSteps zeroId plainKey
    .cacheWorker 0 (by decide +kernel) (by decide +kernel)).2, by decide +kernel⟩

end Endpoint

end Protofish4
