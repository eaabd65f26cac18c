import Protofish4.Tokio.Isolation
import Protofish4.Tokio.Slots
import Protofish4.Tokio.Streams
import Protofish4.Xfer.Timers

/-!
# How long a transfer stands

An entry stands from the call of `arm` until its `ArmedRequest` is dropped,
a datagram has closed its receiver, or a tick removes it. This module says
exactly when a tick does, and that nobody waits for an outcome in vain: an
entry that is not dropped has sent exactly one when it goes.
-/

namespace Protofish4

open XferReceiver (Agrees lastHeard lastRelease)

namespace Entry

/-- The end is acknowledged where a packet sealed opens to an `EndAck`. -/
theorem endAck_answered {key : SessionKey} {evs : List RecvEvent} {calls : List SealCall}
    (h : List.Forall₂ (Answers key) evs calls) :
    .sendEndAck ∈ evs ↔ ∃ call ∈ calls, Answers key .sendEndAck call := by
  induction h with
  | nil => simp
  | @cons ev call evs calls hone _ ih =>
    rw [List.mem_cons, List.exists_mem_cons_iff, ih]
    refine or_congr_left ⟨fun heq => heq ▸ hone, ?_⟩
    -- what the packet opens to says which event it answers
    rintro ⟨body, d, hasks, hd, hopen⟩
    obtain ⟨body', d', hasks', hd', hopen'⟩ := hone
    rw [hd] at hd'
    cases hd'
    rw [hopen] at hopen'
    cases hopen'
    cases hasks
    cases ev with
    | sendEndAck => rfl
    | sendAck c hi b =>
      obtain ⟨ms, hms⟩ := hasks'
      cases hms
    | sendNack missing => cases hasks'
    | unreliable | reliable | relFinished | closed => exact hasks'.elim

/-- An entry's receiver has acknowledged its end where it has sealed an
`EndAck`. -/
theorem endAcked_iff (key : SessionKey) (id : RequestId) (cfg : ReceiverConfig) (start : Instant)
    (steps : List Step) :
    (XferReceiver.run cfg start (callsOf key steps)).1.endAcked = true
      ↔ ∃ call, .sealed call ∈ ((new key cfg start).drive id steps).effects
        ∧ Answers key .sendEndAck call := by
  obtain ⟨hcount, -⟩ := XferReceiver.run_marks cfg start (callsOf key steps)
  obtain ⟨-, hshows⟩ := (new key cfg start).drive_shows id GapTracker.wf_new steps
  have hmem : (XferReceiver.run cfg start (callsOf key steps)).1.endAcked = true
      ↔ .sendEndAck ∈ (XferReceiver.run cfg start (callsOf key steps)).2 := by
    rw [← List.count_pos_iff, hcount]
    cases (XferReceiver.run cfg start (callsOf key steps)).1.endAcked <;> simp
  have hanswered := endAck_answered hshows.answers
  have hcontrol : RecvEvent.isControl .sendEndAck = true := rfl
  rw [List.mem_filter, and_iff_left hcontrol] at hanswered
  refine (hmem.trans hanswered).trans (exists_congr fun call => and_congr_left fun _ => ?_)
  refine List.mem_filterMap.trans ⟨?_, fun h => ⟨_, h, rfl⟩⟩
  rintro ⟨f, hf, hcall⟩
  cases f with
  | sealed call' =>
    cases hcall
    exact hf
  | unrel | rel | outcome | warned => cases hcall

/-- What a step of an entry sends as its outcome is what the call of the
step declares. -/
theorem step_outcomes (key : SessionKey) (id : RequestId) (cfg : ReceiverConfig) (start : Instant)
    (steps : List Step) (x : Step) {c : RecvCall} (hcall : x.call key = some c) :
    outcomes (((new key cfg start).drive id steps).entry.step id x).effects
      = outcomesOf ((XferReceiver.run cfg start (callsOf key steps)).1.step c).2 := by
  have hall := drive_outcomes key id cfg start (steps ++ [x])
  have hcalls : callsOf key (steps ++ [x]) = callsOf key steps ++ [c] := by
    simp [callsOf, hcall]
  rw [((new key cfg start).drive_concat id steps x).2, outcomes_append, drive_outcomes, hcalls,
    XferReceiver.run_concat, Machine.andThen_snd] at hall
  exact List.append_cancel_left (hall.trans List.filterMap_append)

end Entry

namespace Endpoint

/-! ## One entry's part of a run -/

/-- What an effect is for the entry of `id`. -/
def Effect.own (id : RequestId) : Effect → Option Entry.Effect
  | .entry id' f => if id' = id then some f else none
  | .sent .. => none

/-- All that the entry of `id` has done. -/
def doneBy (id : RequestId) (t : List Effect) : List Entry.Effect := t.filterMap (Effect.own id)

theorem doneBy_append (id : RequestId) (t u : List Effect) :
    doneBy id (t ++ u) = doneBy id t ++ doneBy id u := List.filterMap_append

theorem mem_doneBy {id : RequestId} {t : List Effect} {f : Entry.Effect} :
    f ∈ doneBy id t ↔ .entry id f ∈ t := by
  refine List.mem_filterMap.trans ⟨?_, fun h => ⟨_, h, if_pos rfl⟩⟩
  rintro ⟨g, hg, hown⟩
  cases g with
  | entry id' f' =>
    simp only [Effect.own, Option.ite_none_right_eq_some, Option.some.injEq] at hown
    obtain ⟨rfl, rfl⟩ := hown
    exact hg
  | sent peer d => cases hown

theorem doneBy_about (id : RequestId) (t : List Effect) :
    doneBy id t = doneBy id (t.filter (Effect.about id)) := by
  unfold doneBy
  rw [List.filterMap_filter]
  refine List.filterMap_congr fun f _ => ?_
  cases f with
  | entry id' f => by_cases hid : id' = id <;> simp [Effect.own, Effect.about, hid]
  | sent peer d => simp [Effect.own]

theorem doneBy_effectsOf (id : RequestId) (p : Entry.Applied) :
    doneBy id (effectsOf id p) = p.effects := by
  have hown : doneBy id (p.effects.map (.entry id)) = p.effects := by
    unfold doneBy
    rw [List.filterMap_map]
    refine (List.filterMap_congr fun f _ => ?_).trans List.filterMap_some
    simp [Effect.own]
  have hreplies : doneBy id (replies p.entry.peer p.out) = [] := by
    refine List.filterMap_eq_nil_iff.mpr fun f hf => ?_
    unfold replies at hf
    split at hf
    · cases hf
    · obtain ⟨d, -, rfl⟩ := List.mem_map.mp hf
      rfl
  rw [effectsOf, doneBy_append, hown, hreplies, List.append_nil]

section Run

variable {s : Endpoint} {id : RequestId} {e : Entry}

/-- What one step does for the entry. -/
theorem doneBy_step (he : s.entries.lookup id = some e) (x : Step) :
    doneBy id (s.step x).2 = (x.own id).elim [] fun k => (e.step id k).effects := by
  rw [doneBy_about, (step_own he x).2]
  cases x.own id with
  | none => rfl
  | some k => exact doneBy_effectsOf id (e.step id k)

/-- The entry of a run, and what it has done, are those of its own steps. -/
theorem run_drives (he : s.entries.lookup id = some e) (xs : List Step)
    (hlive : ∀ n < xs.length, ((run s (xs.take n)).1.entries.lookup id).isSome) :
    (∀ e', (run s xs).1.entries.lookup id = some e' →
        e' = (e.drive id (xs.filterMap (Step.own id))).entry)
      ∧ doneBy id (run s xs).2 = (e.drive id (xs.filterMap (Step.own id))).effects := by
  have hrun := e.run_eq_drive id (xs.filterMap (Step.own id))
  unfold Entry.run at hrun
  have h := Machine.run_projects step
    (fun e k => ((Entry.step e id k).entry, (Entry.step e id k).effects))
    (fun s e => ∀ e', s.entries.lookup id = some e' → e' = e)
    (fun s _ => (s.entries.lookup id).isSome) (Step.own id) (Effect.own id) (s := s) (t := e) ?_
    (?_ : ∀ pre x post, xs = pre ++ x :: post → _) ?_
  · rw [hrun] at h
    exact h
  · intro e' he'
    rw [he] at he'
    exact (Option.some.inj he').symm
  · rintro before x after rfl
    have hthere := hlive before.length (by simp)
    rwa [List.take_left] at hthere
  · intro s e x honly hthere
    obtain ⟨e', he'⟩ := Option.isSome_iff_exists.mp hthere
    cases honly e' he'
    have hentry := (step_own he' x).1
    have heffects := doneBy_step he' x
    cases hown : x.own id with
    | none =>
      rw [hown] at hentry heffects
      exact ⟨hentry, heffects⟩
    | some k =>
      rw [hown] at hentry heffects
      exact ⟨hentry, heffects⟩

end Run

/-! ## What takes an entry away -/

section Gone

variable {s : Endpoint} {id : RequestId} {e : Entry}

theorem mem_tickLoop_done {now : Instant} {around : RequestId → Around} {ids : List RequestId}
    (hnd : ids.Nodup) {m : AList fun _ : RequestId => Entry} (hid : id ∈ ids)
    (he : m.lookup id = some e) (hc : (e.tick id now (around id)).entry.state.closed = true) :
    id ∈ (tickLoop now around ids m).2.2 := by
  induction ids generalizing m with
  | nil => cases hid
  | cons id' ids ih =>
    obtain ⟨hnot, hnd'⟩ := List.nodup_cons.mp hnd
    rcases List.mem_cons.mp hid with rfl | hrest
    · simp [tickLoop, he, hc]
    · have hne : id ≠ id' := by
        rintro rfl
        exact hnot hrest
      cases hm : m.lookup id' with
      | none =>
        simp only [tickLoop, hm]
        exact ih hnd' hrest he
      | some e' =>
        simp only [tickLoop, hm]
        have hdone := ih hnd' hrest ((Assoc.lookup_replace_ne
          (e'.tick id' now (around id')).entry hne).trans he)
        split
        · exact List.mem_cons_of_mem _ hdone
        · exact hdone

/-- A tick takes away the entries that it finds, or leaves, closed. -/
theorem tick_gone_iff (he : s.entries.lookup id = some e) (now : Instant)
    (around : RequestId → Around) : (s.tick now around).1.entries.lookup id = none
    ↔ (e.tick id now (around id)).entry.state.closed = true := by
  have hid : id ∈ s.entries := AList.lookup_isSome.mp (by rw [he]; rfl)
  constructor
  · intro hnone
    obtain ⟨e', he', hc⟩ := tick_removed hid (AList.lookup_eq_none.mp hnone)
    rw [he] at he'
    cases he'
    exact hc
  · intro hc
    have hdone := mem_tickLoop_done s.entries.keys_nodup (AList.mem_keys.mpr hid) he hc
    rw [tick, AList.lookup_eq_none, Assoc.mem_foldl_erase]
    exact fun h => h.1 hdone

end Gone

/-! ## What a standing entry keeps -/

section Keep

variable {s : Endpoint} {id : RequestId} {e : Entry}

/-- **Run rule** for an entry that stands: what every step that leaves it
there keeps, holds of it after a run. -/
theorem run_keeps (P : Endpoint → Entry → Prop) (he : s.entries.lookup id = some e) (hP : P s e)
    (xs : List Step)
    (hlive : ∀ n ≤ xs.length, ((run s (xs.take n)).1.entries.lookup id).isSome)
    (keep : ∀ s e e', ∀ x ∈ xs, s.entries.lookup id = some e → P s e →
      (s.step x).1.entries.lookup id = some e' → P (s.step x).1 e') :
    let e' := (e.drive id (xs.filterMap (Step.own id))).entry
    (run s xs).1.entries.lookup id = some e' ∧ P (run s xs).1 e' := by
  intro e'
  obtain ⟨e'', hthere⟩ := Option.isSome_iff_exists.mp (hlive xs.length le_rfl)
  rw [List.take_length] at hthere
  have hdrive := (run_drives he xs fun n hn => hlive n hn.le).1 e'' hthere
  subst hdrive
  refine ⟨hthere, ?_⟩
  induction xs using List.reverseRecOn with
  | nil => exact hP
  | append_singleton xs x ih =>
    have hprev : ∀ n ≤ xs.length, ((run s (xs.take n)).1.entries.lookup id).isSome := by
      intro n hn
      have h := hlive n (by rw [List.length_append]; omega)
      rwa [List.take_append_of_le_length hn] at h
    obtain ⟨e₁, he₁⟩ := Option.isSome_iff_exists.mp (hprev xs.length le_rfl)
    rw [List.take_length] at he₁
    have hdrive := (run_drives he xs fun n hn => hprev n hn.le).1 e₁ he₁
    subst hdrive
    have hkept := ih hprev (fun s e e' x hx => keep s e e' x (List.mem_append_left _ hx)) he₁
    have hrun : (run s (xs ++ [x])).1 = ((run s xs).1.step x).1 := by
      unfold run
      rw [Machine.run_concat]
      rfl
    rw [hrun] at hthere ⊢
    exact keep _ _ _ x (by simp) he₁ hkept hthere

/-- A tick that leaves the entry leaves its receiver open. -/
theorem tick_open {now : Instant} {around : RequestId → Around} {e' : Entry}
    (h : (s.tick now around).1.entries.lookup id = some e') : e'.state.closed = false := by
  obtain ⟨e, he, rfl⟩ := tick_lookup h
  have hthere : ¬ (s.tick now around).1.entries.lookup id = none := by simp [h]
  rw [tick_gone_iff he] at hthere
  simpa using hthere

/-- A step makes at most one call on an entry's receiver, a tick only if
the endpoint ticks. -/
theorem step_calls {x : Step} {e' : Entry} (he : s.entries.lookup id = some e)
    (h : (s.step x).1.entries.lookup id = some e') : e'.state = e.state
      ∨ ∃ c, e'.state = (e.state.step c).1
        ∧ ∀ now, c = .tick now → ∃ around, x = .tick now around := by
  have hentry := (step_own he x).1 e' h
  cases hown : x.own id with
  | none =>
    rw [hown] at hentry
    exact Or.inl (hentry ▸ rfl)
  | some k =>
    rw [hown] at hentry
    have hstate : e'.state = _ := (congrArg Entry.state hentry).trans (e.step_state id k)
    cases hcall : k.call e.key with
    | none =>
      rw [hcall] at hstate
      exact Or.inl hstate
    | some c =>
      rw [hcall] at hstate
      refine Or.inr ⟨c, hstate, ?_⟩
      rintro now rfl
      cases x with
      | tick now' around =>
        cases hown
        cases hcall
        exact ⟨around, rfl⟩
      | datagram bytes source now' around =>
        simp only [Step.own, Option.ite_none_right_eq_some, Option.some.injEq] at hown
        obtain ⟨-, rfl⟩ := hown
        simp [Entry.Step.call] at hcall
      | setPlayheadMs id' ms now' =>
        simp only [Step.own, Option.ite_none_right_eq_some, Option.some.injEq] at hown
        obtain ⟨-, rfl⟩ := hown
        cases hcall
      | arm | dropArmed | disarm => cases hown

theorem agrees_step {x : Step} {e' : Entry} (he : s.entries.lookup id = some e)
    (hagrees : Agrees e.state) (h : (s.step x).1.entries.lookup id = some e') :
    Agrees e'.state := by
  rcases step_calls he h with hstate | ⟨c, hstate, htick⟩
  · exact hstate ▸ hagrees
  · rw [hstate]
    refine hagrees.step c fun now hc => ?_
    obtain ⟨around, rfl⟩ := htick now hc
    exact hstate ▸ tick_open h

end Keep

/-! ## An armed request -/

section Armed

variable (pre since : List Step) (id : RequestId) (key : SessionKey) (cfg : ReceiverConfig)
variable (start : Instant)

/-- What of the receiver a standing entry shows. -/
theorem standing {pre since id key cfg start}
    (hfree : (run bind pre).1.entries.lookup id = none)
    (hlive : ∀ n ≤ since.length, ((run (run bind (pre ++ [.arm id key cfg start])).1
      (since.take n)).1.entries.lookup id).isSome) :
    let own := since.filterMap (Step.own id)
    let e := ((Entry.new key cfg start).drive id own).entry
    let w := run (run bind (pre ++ [.arm id key cfg start])).1 since
    w.1.entries.lookup id = some e
      ∧ e.state = (XferReceiver.run cfg start (Entry.callsOf key own)).1
      ∧ doneBy id w.2 = ((Entry.new key cfg start).drive id own).effects
      ∧ Agrees e.state := by
  intro own e w
  have harmed := lookup_armed key cfg start hfree
  obtain ⟨hentry, hagrees⟩ := run_keeps (fun _ e => Agrees e.state) harmed (.new cfg start) since
    hlive fun s e e' x _ he h he' => agrees_step he h he'
  exact ⟨hentry, ((Entry.new key cfg start).drive_shows id GapTracker.wf_new own).1,
    (run_drives harmed since fun n hn => hlive n hn.le).2, hagrees⟩

/-- **What a tick decides, exactly.** For a request that was armed and
whose entry stands, whatever else the endpoint has served: a tick removes
the entry if its `EndAck` has been sealed or its tap has been silent for
more than the idle timeout, and otherwise leaves it; it declares the peer
gone if the tap has been silent for so long and no outcome is out, and the
stream stalled if it has not, no outcome is out, and more than the stall
timeout has passed since the last release. -/
theorem tick_decides (now : Instant) (around : RequestId → Around)
    (hfree : (run bind pre).1.entries.lookup id = none)
    (hlive : ∀ n ≤ since.length, ((run (run bind (pre ++ [.arm id key cfg start])).1
      (since.take n)).1.entries.lookup id).isSome) :
    let w := run (run bind (pre ++ [.arm id key cfg start])).1 since
    let t := w.1.step (.tick now around)
    let calls := Entry.callsOf key (since.filterMap (Step.own id))
    let idle := cfg.idleTimeout < durationSince now (lastHeard start calls)
    let undecided := Entry.outcomes (doneBy id w.2) = []
    (t.1.entries.lookup id = none ↔ idle
        ∨ ∃ call, .entry id (.sealed call) ∈ w.2 ∧ Entry.Answers key .sendEndAck call)
      ∧ (.entry id (.outcome (.aborted .peerGone)) ∈ t.2 ↔ undecided ∧ idle)
      ∧ (.entry id (.outcome (.aborted .stalled)) ∈ t.2 ↔ undecided ∧ ¬ idle
        ∧ cfg.relStallTimeout < durationSince now (lastRelease cfg start calls)) := by
  intro w t calls idle undecided
  obtain ⟨hentry, hstate, hdone, hagrees⟩ := standing hfree hlive
  have hinv := XferReceiver.recvInv_run cfg start calls
  have hcfg := XferReceiver.run_cfg cfg start calls
  have hheard := XferReceiver.lastPacketAt_run cfg start calls
  -- the stream streams while no outcome is out
  have hstreams : (XferReceiver.run cfg start calls).1.relState = .streaming ↔ undecided := by
    have hlen := Entry.length_outcomes key cfg start (since.filterMap (Step.own id))
    simp only [undecided, w, hdone, Entry.drive_outcomes]
    rw [← List.length_eq_zero_iff, hlen]
    split <;> simp_all [calls]
  have hout : ∀ o, .entry id (.outcome o) ∈ t.2
      ↔ .relFinished o ∈ ((XferReceiver.run cfg start calls).1.tick now).2 := by
    intro o
    rw [← mem_doneBy, doneBy_step hentry, ← Entry.mem_outcomes, ← Entry.mem_outcomesOf]
    exact iff_of_eq (congrArg (o ∈ ·)
      (Entry.step_outcomes key id cfg start _ (.tick now (around id)) rfl))
  refine ⟨?_, ?_, ?_⟩
  · have hclosed := (tick_gone_iff hentry now around).trans
      (iff_of_eq (congrArg (·.closed = true) (Entry.apply_frame ..).1))
    refine hclosed.trans ?_
    rw [XferReceiver.tick_closed_iff, hagrees, hstate, hcfg, hheard, Entry.endAcked_iff key id,
      ← hdone]
    simp only [mem_doneBy]
    exact or_comm
  · rw [hout, XferReceiver.peerGone_mem_tick_iff, hcfg, hheard, hstreams]
    refine ⟨fun h => h.2, fun h => ⟨?_, h⟩⟩
    exact (hinv.live (hstreams.mpr h.1)).not_closed
  · rw [hout, XferReceiver.stalled_mem_tick_iff, hcfg, hheard, hstreams,
      XferReceiver.lastRelProgressAt_run, ← not_lt]
    refine ⟨fun h => ⟨h.2.2.1, h.2.1, h.2.2.2⟩, fun h => ⟨?_, h.2.1, h.1, h.2.2⟩⟩
    exact (hinv.live (hstreams.mpr h.1)).not_closed

/-- One frame comes, then nothing for sixteen seconds. -/
def silencedSteps : List Step :=
  [.datagram (tapCall.result.toOption.getD []) ⟨[127, 0, 0, 1], 4000⟩ 0 ⟨true, true, 0, 0⟩]

theorem tick_decides_silenced :
    let w := run (run bind [.arm zeroId plainKey .audioEngine 0]).1 silencedSteps
    let t := w.1.step (.tick (fromSecs 16) fun _ => ⟨true, true, fromSecs 16, fromSecs 16⟩)
    t.1.entries.lookup zeroId = none
      ∧ .entry zeroId (.outcome (.aborted .peerGone)) ∈ t.2 := by
  have h := tick_decides [] silencedSteps zeroId plainKey .audioEngine 0 (fromSecs 16)
    (fun _ => ⟨true, true, fromSecs 16, fromSecs 16⟩) rfl (by decide +kernel)
  exact ⟨h.1.mpr (Or.inl (by decide +kernel)), h.2.1.mpr (by decide +kernel)⟩

end Armed

end Endpoint

end Protofish4
