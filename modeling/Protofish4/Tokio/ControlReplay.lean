import Protofish4.Tokio.Endpoint
import Protofish4.Xfer.ControlReplay

/-!
# Control packets delivered again

No `ReplayWindow` stands in front of either state machine: a sealed control
datagram is handled as often as it is delivered. The module says for every
run of an endpoint, and for every run of a sender, which deliveries of a
control datagram that the transfer has already handled do nothing.
-/

namespace Protofish4

namespace Endpoint

/-- In this run the transfer of `id` handles a control datagram, and is
still the same transfer, or gone, after the steps that follow. -/
structure Handled (before : List Step) (bytes : Bytes) (source : SocketAddr) (now : Instant)
    (around : Around) (after : List Step) (id : RequestId) (body : Body) : Prop where
  routed : requestIdOf bytes = .ok id
  opened : ∃ e seq, (run bind before).1.entries.lookup id = some e
    ∧ openBody e.key .send bytes = some (seq, body)
  control : body.kind ≠ .data
  sameTransfer : ∀ mid key cfg armNow rest, after = mid ++ .arm id key cfg armNow :: rest →
    ((run bind (before ++ .datagram bytes source now around :: mid)).1.entries.lookup id).isSome

/-- The delivery changes no entry, produces no event and sends nothing. -/
structure Inert (s : Endpoint) (bytes : Bytes) (source : SocketAddr) (now : Instant)
    (around : Around) : Prop where
  unchanged : ∀ id, (s.onDatagram bytes source now around).1.entries.lookup id
    = s.entries.lookup id
  silent : (s.onDatagram bytes source now around).2 = []
  noEvent : ∀ id e seq body, requestIdOf bytes = .ok id → s.entries.lookup id = some e →
    openBody e.key .send bytes = some (seq, body) → (e.state.handle seq body now).2 = []

/-- Every repeated control datagram of the run is inert. -/
def ReplaysInert (steps : List Step) : Prop :=
  ∀ before bytes source now around after source' now' around' rest id body,
    steps = (before ++ .datagram bytes source now around :: after)
      ++ .datagram bytes source' now' around' :: rest →
    Handled before bytes source now around after id body →
    Inert (run bind (before ++ .datagram bytes source now around :: after)).1 bytes source' now'
      around'

/-- Every repeated control datagram of the run comes in a harmless state,
or after its entry is gone. -/
def ReplaysHarmless (steps : List Step) : Prop :=
  ∀ before bytes source now around after source' now' around' rest id body,
    steps = (before ++ .datagram bytes source now around :: after)
      ++ .datagram bytes source' now' around' :: rest →
    Handled before bytes source now around after id body →
    ∀ e, (run bind (before ++ .datagram bytes source now around :: after)).1.entries.lookup id
      = some e → e.state.ReplayHarmless body now'

/-- What the entry of `id`, if it is still there, knows of a handled
control datagram. -/
def Known (s : Endpoint) (id : RequestId) (bytes : Bytes) (body : Body) : Prop :=
  ∀ e, s.entries.lookup id = some e → e.peer.isSome ∧ e.state.Noted body
    ∧ ∃ seq, openBody e.key .send bytes = some (seq, body)

theorem Known.follow {s s' : Endpoint} {id : RequestId} {bytes : Bytes} {body : Body}
    (h : Known s id bytes body) (hf : EntriesFollow s.entries s'.entries) :
    Known s' id bytes body := by
  intro e' he'
  obtain ⟨e, he, hfe⟩ := hf id e' he'
  obtain ⟨hpeer, hnoted, hopen⟩ := h e he
  refine ⟨?_, hfe.keeps (XferReceiver.Noted · body) (fun r c hr => hr.step c) hnoted, ?_⟩
  · rwa [hfe.peer hpeer]
  · rwa [hfe.key]

/-- The delivery itself. -/
theorem known_onDatagram {s : Endpoint} {id : RequestId} {e : Entry} {bytes : Bytes}
    {seq : XferSeq} {body : Body} (hid : requestIdOf bytes = .ok id)
    (he : s.entries.lookup id = some e) (ho : openBody e.key .send bytes = some (seq, body))
    (source : SocketAddr) (now : Instant) (around : Around) :
    Known (s.onDatagram bytes source now around).1 id bytes body := by
  intro e' he'
  simp only [onDatagram, hid, he, Assoc.lookup_replace _ he, Option.some.injEq,
    Entry.onDatagram, ho] at he'
  obtain ⟨hs, hk, hp⟩ := Entry.apply_frame
    { e.pin source with state := ((e.pin source).state.handle seq body now).1 } id around
    ((e.pin source).state.handle seq body now).2
  rw [he'] at hs hk hp
  refine ⟨by rw [hp]; rfl, by rw [hs]; exact XferReceiver.noted_handle seq body, seq, ?_⟩
  rw [hk]
  exact ho

/-- What has been handled stays known for the rest of the transfer. -/
theorem known_run {before : List Step} {bytes : Bytes} {source : SocketAddr} {now : Instant}
    {around : Around} {after : List Step} {id : RequestId} {body : Body}
    (h : Handled before bytes source now around after id body) :
    Known (run bind (before ++ .datagram bytes source now around :: after)).1 id bytes body := by
  have hsame := h.sameTransfer
  obtain ⟨e, seq, he, ho⟩ := h.opened
  have hrouted := h.routed
  clear h
  induction after using List.reverseRecOn with
  | nil =>
    rw [run_concat]
    exact known_onDatagram hrouted he ho source now around
  | append_singleton after x ih =>
    have hk := ih fun mid key cfg armNow rest heq =>
      hsame mid key cfg armNow (rest ++ [x]) (by simp [heq])
    rw [← List.cons_append, ← List.append_assoc, run_concat]
    generalize hs : (run bind (before ++ .datagram bytes source now around :: after)).1 = s at hk
    rcases s.step_follows x with hf | ⟨id', key, cfg, armNow, rfl, hnone, heq⟩
    · exact hk.follow hf
    · -- another request was armed: this one's entry is where it was
      have hne : id ≠ id' := by
        rintro rfl
        have := hsame after key cfg armNow [] rfl
        rw [hs, hnone] at this
        cases this
      intro e' he'
      rw [heq, AList.lookup_insert_ne hne] at he'
      exact hk e' he'

/-- One delivery: it is inert exactly if the state it meets is harmless. -/
theorem inert_iff {s : Endpoint} {id : RequestId} {bytes : Bytes} {body : Body}
    (hid : requestIdOf bytes = .ok id) (hk : Known s id bytes body) (hctl : body.kind ≠ .data)
    (source : SocketAddr) (now : Instant) (around : Around) :
    Inert s bytes source now around
      ↔ ∀ e, s.entries.lookup id = some e → e.state.ReplayHarmless body now := by
  cases he : s.entries.lookup id with
  | none =>
    have hstep : s.onDatagram bytes source now around = (s, []) := by
      simp only [onDatagram, hid, he]
    constructor
    · rintro _ e h
      cases h
    · intro _
      refine ⟨fun _ => by rw [hstep], by rw [hstep], fun id' e seq b hid' he' _ => ?_⟩
      rw [hid] at hid'
      cases hid'
      rw [he] at he'
      cases he'
  | some e =>
    obtain ⟨hpeer, hnoted, seq, ho⟩ := hk e he
    -- the first delivery has pinned the peer already
    have hpin : e.pin source = e := by
      obtain ⟨peer, hp⟩ := Option.isSome_iff_exists.mp hpeer
      simp only [Entry.pin, hp, Option.getD_some]
      rw [← hp]
    have hiff : e.state.handle seq body now = (e.state, []) ↔ e.state.ReplayHarmless body now :=
      XferReceiver.handle_nothing_iff hnoted (openBody_direction ho) hctl seq
    simp only [Option.some.injEq, forall_eq', ← hiff]
    have happ : e.onDatagram id bytes source now around
        = Entry.apply { e with state := (e.state.handle seq body now).1 } id around
          (e.state.handle seq body now).2 := by
      simp only [Entry.onDatagram, ho, hpin]
    have hentries : (s.onDatagram bytes source now around).1.entries
        = s.entries.replace id (e.onDatagram id bytes source now around).entry := by
      simp only [onDatagram, hid, he]
    constructor
    · intro h
      -- an inert delivery hands out no event and leaves the state machine as it was
      have hev := h.noEvent id e seq body hid he ho
      have hsame := h.unchanged id
      rw [hentries, Assoc.lookup_replace _ he, he, Option.some.injEq, happ] at hsame
      have hstate := (Entry.apply_frame { e with state := (e.state.handle seq body now).1 } id
        around (e.state.handle seq body now).2).1
      rw [hsame] at hstate
      exact Prod.ext hstate.symm hev
    · intro h
      have hquiet : e.onDatagram id bytes source now around = ⟨e, [], []⟩ := by
        rw [happ, h]
        rfl
      refine ⟨fun id' => ?_, ?_, fun id' e' seq' b hid' he' ho' => ?_⟩
      · rw [hentries, hquiet]
        by_cases hne : id' = id
        · rw [hne, Assoc.lookup_replace _ he, he]
        · rw [Assoc.lookup_replace_ne _ hne]
      · simp only [onDatagram, hid, he, hquiet, effectsOf, List.map_nil, List.nil_append, replies]
        split <;> rfl
      · rw [hid] at hid'
        cases hid'
        rw [he] at he'
        cases he'
        rw [ho] at ho'
        cases ho'
        rw [h]

theorem replaysInert_iff (steps : List Step) : ReplaysInert steps ↔ ReplaysHarmless steps := by
  constructor
  · intro h before bytes source now around after source' now' around' rest id body heq hh
    exact (inert_iff hh.routed (known_run hh) hh.control source' now' around').mp
      (h before bytes source now around after source' now' around' rest id body heq hh)
  · intro h before bytes source now around after source' now' around' rest id body heq hh
    exact (inert_iff hh.routed (known_run hh) hh.control source' now' around').mpr
      (h before bytes source now around after source' now' around' rest id body heq hh)

end Endpoint

/-! ## At the tap -/

namespace Sender

/-- The delivery changes nothing, produces no event and sends nothing. -/
structure Inert (s : Sender) (bytes : Bytes) (now : Instant) : Prop where
  silent : ∀ fault, s.handleOnce (.datagram bytes) now fault = ⟨s, [], .ok ()⟩
  noEvent : ∀ body, packetOf s.key (.datagram bytes) = some body →
    (s.state.handle body now).2 = []

section

variable (peer : SocketAddr) (id : RequestId) (key : SessionKey) (cfg : SenderConfig)

/-- Every control datagram of the run that has been handled before is
inert. -/
def ReplaysInert (steps : List Step) : Prop :=
  ∀ before bytes now tickNow fault tickFault after now' tickNow' fault' tickFault' rest body,
    steps = (before ++ .pump (.datagram bytes) now tickNow fault tickFault :: after)
      ++ .pump (.datagram bytes) now' tickNow' fault' tickFault' :: rest →
    packetOf key (.datagram bytes) = some body →
    Inert ((connect peer id key cfg).run
      (before ++ .pump (.datagram bytes) now tickNow fault tickFault :: after)).1 bytes now'

/-- Every control datagram of the run that has been handled before comes
in a harmless state. -/
def ReplaysHarmless (steps : List Step) : Prop :=
  ∀ before bytes now tickNow fault tickFault after now' tickNow' fault' tickFault' rest body,
    steps = (before ++ .pump (.datagram bytes) now tickNow fault tickFault :: after)
      ++ .pump (.datagram bytes) now' tickNow' fault' tickFault' :: rest →
    packetOf key (.datagram bytes) = some body →
    ((connect peer id key cfg).run (before
        ++ .pump (.datagram bytes) now tickNow fault tickFault :: after)).1.state.ReplayHarmless
      body

end

theorem run_cons (s : Sender) (x : Step) (steps : List Step) :
    (s.run (x :: steps)).1 = ((s.step x).state.run steps).1 := rfl

/-- A handled packet is noted by the end of the step. -/
theorem noted_pump {s : Sender} {incoming : Incoming} {body : Body}
    (h : packetOf s.key incoming = some body) (now tickNow : Instant)
    (fault tickFault : Option Nat) :
    (s.pumpOnce incoming now tickNow fault tickFault).state.state.Noted body := by
  have hne : incoming ≠ .failed := by
    rintro rfl
    cases h
  have hhandled : (s.handleOnce incoming now fault).state.state.Noted body := by
    unfold handleOnce
    rw [if_neg hne, h]
    exact (dispatch_follows _ fault _).keeps (XferSender.Noted · body) (fun x c hx => hx.step c)
      (XferSender.noted_handle s.state body now)
  have hrest : Follows (s.handleOnce incoming now fault).state
      (s.pumpOnce incoming now tickNow fault tickFault).state :=
    (Follows.refl _).andThen fun s => s.tickOnce_follows tickNow tickFault
  exact hrest.keeps (XferSender.Noted · body) (fun x c hx => hx.step c) hhandled

/-- One delivery: it is inert exactly if the state it meets is harmless. -/
theorem inert_iff {s : Sender} {bytes : Bytes} {body : Body}
    (h : packetOf s.key (.datagram bytes) = some body) (hn : s.state.Noted body) (now : Instant) :
    Inert s bytes now ↔ s.state.ReplayHarmless body := by
  rw [← XferSender.handle_nothing_iff hn now]
  have honce : ∀ fault, s.handleOnce (.datagram bytes) now fault
      = dispatch { s with state := (s.state.handle body now).1 } fault
        (s.state.handle body now).2 := by
    intro fault
    unfold handleOnce
    rw [if_neg (by simp), h]
  constructor
  · intro hi
    have hev := hi.noEvent body h
    have hsilent := hi.silent none
    rw [honce, hev] at hsilent
    exact Prod.ext (congrArg (fun d => d.state.state) hsilent) hev
  · intro hq
    refine ⟨fun fault => ?_, fun b hb => ?_⟩
    · rw [honce, hq]
      rfl
    · rw [h] at hb
      cases hb
      rw [hq]

theorem replaysInert_iff (peer : SocketAddr) (id : RequestId) (key : SessionKey)
    (cfg : SenderConfig) (steps : List Step) :
    ReplaysInert peer id key cfg steps ↔ ReplaysHarmless peer id key cfg steps := by
  have hrun : ∀ before bytes now tickNow fault tickFault after body,
      packetOf key (.datagram bytes) = some body → ∀ now',
        (Inert ((connect peer id key cfg).run
          (before ++ .pump (.datagram bytes) now tickNow fault tickFault :: after)).1 bytes now'
        ↔ ((connect peer id key cfg).run (before
            ++ .pump (.datagram bytes) now tickNow fault tickFault :: after)).1.state.ReplayHarmless
          body) := by
    intro before bytes now tickNow fault tickFault after body hb now'
    have hkey : ∀ steps, ((connect peer id key cfg).run steps).1.key = key :=
      fun steps => (run_follows _ steps).key
    refine inert_iff (by rwa [hkey]) ?_ now'
    rw [run_append, run_cons]
    -- noted when it was handled, and from then on
    refine (run_follows _ after).keeps (XferSender.Noted · body) (fun x c hx => hx.step c) ?_
    exact noted_pump (by rwa [hkey]) now tickNow fault tickFault
  constructor
  · intro h before bytes now tickNow fault tickFault after now' tickNow' fault' tickFault' rest
      body heq hb
    exact (hrun before bytes now tickNow fault tickFault after body hb now').mp
      (h before bytes now tickNow fault tickFault after now' tickNow' fault' tickFault' rest body
        heq hb)
  · intro h before bytes now tickNow fault tickFault after now' tickNow' fault' tickFault' rest
      body heq hb
    exact (hrun before bytes now tickNow fault tickFault after body hb now').mpr
      (h before bytes now tickNow fault tickFault after now' tickNow' fault' tickFault' rest body
        heq hb)

end Sender

/-! ## Both ends -/

/-- **A control datagram delivered again does nothing, exactly if it comes
in a harmless state**: at the sink, after its entry is gone, or at the very
clock reading of the last packet with no `Ack` due, the same end declared
and no tail left to acknowledge; at the tap, an `Ack` that repeats the last
occupancy and lets nothing go, or a `Nack` for nothing held. -/
theorem control_replays_inert_iff (recvSteps : List Endpoint.Step) (peer : SocketAddr)
    (id : RequestId) (key : SessionKey) (cfg : SenderConfig) (sendSteps : List Sender.Step) :
    (Endpoint.ReplaysInert recvSteps ↔ Endpoint.ReplaysHarmless recvSteps)
    ∧ (Sender.ReplaysInert peer id key cfg sendSteps
      ↔ Sender.ReplaysHarmless peer id key cfg sendSteps) :=
  ⟨Endpoint.replaysInert_iff recvSteps, Sender.replaysInert_iff peer id key cfg sendSteps⟩

/-- A peer's address. -/
def localPeer : SocketAddr := ⟨[127, 0, 0, 1], 4000⟩

/-- What the application and the clock answer in a quiet run. -/
def quietAround : Around := ⟨true, true, 0, 0⟩

/-- A sealed `Keepalive`, and a sealed `Nack` for frame 1. -/
def sealedKeepalive : Bytes :=
  ((sealBody plainKey zeroId .send 1 (.keepalive (XferSeq.ofNat 0))).toOption).getD []

def sealedNack : Bytes :=
  ((sealBody plainKey zeroId .recv 0 (.nack [XferSeq.ofNat 1])).toOption).getD []

/-- A repeated `Keepalive` counts as a sign of life, and a repeated `Nack`
makes the tap send the frame once more. -/
theorem control_replays_take_effect :
    (¬ ∀ steps, Endpoint.ReplaysInert steps)
    ∧ ¬ ∀ peer id key cfg steps, Sender.ReplaysInert peer id key cfg steps := by
  constructor
  · intro h
    have hin := h [.arm zeroId plainKey .audioEngine 0,
        .datagram sealedKeepalive localPeer (fromSecs 1) quietAround,
        .datagram sealedKeepalive localPeer (fromSecs 10) quietAround]
      [.arm zeroId plainKey .audioEngine 0] sealedKeepalive localPeer (fromSecs 1) quietAround []
      localPeer (fromSecs 10) quietAround [] zeroId (.keepalive (XferSeq.ofNat 0)) rfl
      { routed := by decide +kernel
        opened := ⟨Entry.new plainKey .audioEngine 0, ⟨1⟩, rfl, by decide +kernel⟩
        control := by decide
        sameTransfer := by
          intro mid key cfg armNow rest heq
          cases mid <;> cases heq }
    have hclock := congrArg (Option.map fun e => e.state.lastPacketAt) (hin.unchanged zeroId)
    exact absurd hclock (by decide +kernel)
  · intro h
    have hin := h localPeer zeroId plainKey {} [.push ⟨0⟩ [7] 0 none,
        .pump (.datagram sealedNack) 1 1 none none, .pump (.datagram sealedNack) 2 2 none none]
      [.push ⟨0⟩ [7] 0 none] sealedNack 1 1 none none [] 2 2 none none []
      (.nack [XferSeq.ofNat 1]) rfl (by decide +kernel)
    exact absurd (hin.noEvent (.nack [XferSeq.ofNat 1]) (by decide +kernel)) (by decide +kernel)

end Protofish4
