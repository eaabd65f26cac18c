import Protofish4.Lib.Simulation
import Protofish4.Link.Exact
import Protofish4.Link.Mutual
import Protofish4.Tokio.Streams
import Protofish4.Tokio.Task

/-!
# From send_all to the streams

A tap running `send_all` and the entry of its request at an endpoint, each
driven by its own clock, socket and application, and a network that may do
anything to datagrams but forge them. Every such run is matched by a run of
the link, so what holds of the link holds of the program: the reliable
stream is what `send_all` was given, and its `Ok` means that all of it has
landed.
-/

namespace Protofish4

open Net (Reaction lefts rights)

/-! ## Carrying out events at the tap -/

/-- The event logged, if one is. -/
def TxObs.sendEvent : TxObs → Option SendEvent
  | .event ev => some ev
  | _ => none

/-- A call hands out one event at most. -/
theorem XferSender.Hands.length_le {x x' : XferSender} {evs : List SendEvent}
    (h : XferSender.Hands x x' evs) : evs.length ≤ 1 := by
  cases h <;> simp

namespace Sender

/-- A dispatch, and the same events carried out in the link: the link has
everything in flight that was sealed, and the state is the same unless the
dispatch has failed. -/
structure Carries (key : SessionKey) (id : RequestId) (d : Done)
    (q : Reaction XferSender Sent TxObs) : Prop where
  key : d.state.key = key
  requestId : d.state.requestId = id
  state : d.result = .ok () → q.state = d.state.state
  events : q.events.filterMap TxObs.sendEvent = d.effects.filterMap Effect.sendEvent
  sent : ∀ c ∈ sealCalls d.effects, ∀ b, c.result = .ok b → ∃ m ∈ q.sent, m.bytes = b

theorem transmitAll_singleton (key : SessionKey) (id : RequestId) (now : Instant) (x : XferSender)
    (ev : SendEvent) : transmitAll key id now x [ev] = transmit key id now x ev := by
  simp [transmitAll]

theorem emit_carries (s : Sender) (fault : Option Nat) (now : Instant) (seq : XferSeq)
    (body : Body) : Carries s.key s.requestId
      ((s.emit fault seq body).after (.event (.emit seq body)))
      (transmit s.key s.requestId now s.state (.emit seq body)) := by
  cases henc : encodeBody body with
  | error e =>
    have hseal : sealBody s.key s.requestId .send seq.val body = .error e := by
      simp [sealBody, henc, Bind.bind, Except.bind]
    simp only [emit, transmit, henc, hseal]
    refine ⟨rfl, rfl, fun h => ?_, rfl, fun c hc => ?_⟩
    · cases h
    · simp [Done.after, sealCalls, Effect.sealCall] at hc
  | ok plaintext =>
    have hseal : sealBody s.key s.requestId .send seq.val body
        = (SealCall.run s.key ⟨body.kind, s.requestId, seq.val⟩ .send plaintext).result := by
      simp [sealBody, henc, Bind.bind, Except.bind, SealCall.run]
    simp only [emit, transmit, henc, hseal]
    generalize hcall : SealCall.run s.key ⟨body.kind, s.requestId, seq.val⟩ .send plaintext = call
    cases hres : call.result with
    | error e =>
      refine ⟨rfl, rfl, fun h => ?_, rfl, fun c hc b hb => ?_⟩
      · cases h
      · have hcc : call = c := by simpa [Done.after, sealCalls, Effect.sealCall] using hc
        rw [← hcc, hres] at hb
        cases hb
    | ok sealed =>
      -- only this call is in the effects, and its bytes are in flight
      have hsent : ∀ (d : Done), sealCalls d.effects = [call] →
          ∀ c ∈ sealCalls d.effects, ∀ b, c.result = .ok b → sealed = b := by
        intro d hd c hc b hb
        rw [hd, List.mem_singleton] at hc
        rw [hc, hres] at hb
        exact Except.ok.inj hb
      by_cases hkind : body.kind = .data
      · simp only [hkind, if_true]
        split
        · refine ⟨rfl, rfl, fun h => ?_, rfl, fun c hc b hb => ⟨_, List.mem_singleton_self _, ?_⟩⟩
          · cases h
          · exact hsent _ rfl c hc b hb
        · exact ⟨rfl, rfl, fun _ => rfl, rfl, fun c hc b hb =>
            ⟨_, List.mem_singleton_self _, hsent _ rfl c hc b hb⟩⟩
      · simp only [hkind, if_false]
        split
        · refine ⟨rfl, rfl, fun h => ?_, rfl, fun c hc b hb => ⟨_, List.mem_singleton_self _, ?_⟩⟩
          · cases h
          · exact hsent _ rfl c hc b hb
        · exact ⟨rfl, rfl, fun _ => rfl, rfl, fun c hc b hb =>
            ⟨_, List.mem_singleton_self _, hsent _ rfl c hc b hb⟩⟩

theorem dispatchOne_carries (s : Sender) (fault : Option Nat) (now : Instant) (ev : SendEvent) :
    Carries s.key s.requestId ((s.dispatchOne fault ev).after (.event ev))
      (transmit s.key s.requestId now s.state ev) := by
  cases ev with
  | emit seq body => exact s.emit_carries fault now seq body
  | resend datagrams =>
    obtain ⟨k, heff, hstate⟩ := resend_effects s fault datagrams
    have hseals : sealCalls (.event (.resend datagrams) :: (s.resend fault datagrams).effects) = []
        ∧ (s.resend fault datagrams).effects.filterMap Effect.sendEvent = [] := by
      rw [heff]
      refine ⟨(sealCalls_sent _).1, List.filterMap_eq_nil_iff.mpr fun f hf => ?_⟩
      obtain ⟨d, -, rfl⟩ := List.mem_map.mp hf
      rfl
    simp only [Done.after, dispatchOne]
    refine ⟨by rw [hstate], by rw [hstate], fun _ => by rw [hstate]; rfl, ?_, fun c hc => ?_⟩
    · exact congrArg (SendEvent.resend datagrams :: ·) hseals.2.symm
    · rw [hseals.1] at hc
      cases hc
  | completed => exact ⟨rfl, rfl, fun _ => rfl, rfl, fun c hc => (by cases hc)⟩
  | failed reason =>
    cases reason <;>
      exact ⟨rfl, rfl, fun h => (by cases h), rfl, fun c hc => (by cases hc)⟩

theorem dispatch_one (s : Sender) (fault : Option Nat) (ev : SendEvent) :
    s.dispatch fault [ev] = (s.dispatchOne fault ev).after (.event ev) := by
  simp only [dispatch, Done.andThen]
  generalize (s.dispatchOne fault ev).after (.event ev) = d
  obtain ⟨state, effects, result⟩ := d
  cases result with
  | ok => simp
  | error => rfl

theorem carries_dispatch (s : Sender) (fault : Option Nat) (now : Instant) {evs : List SendEvent}
    (h : evs.length ≤ 1) :
    Carries s.key s.requestId (s.dispatch fault evs)
      (transmitAll s.key s.requestId now s.state evs) := by
  match evs, h with
  | [], _ => exact ⟨rfl, rfl, fun _ => rfl, rfl, fun c hc => (by cases hc)⟩
  | [ev], _ =>
    have hone := s.dispatchOne_carries fault now ev
    rwa [transmitAll_singleton, dispatch_one]

end Sender

/-! ## Applying events at the sink -/

namespace XferReceiver

theorem length_maybeAck (r : XferReceiver) (now : Instant) : (r.maybeAck now).2.length ≤ 1 := by
  unfold maybeAck
  split
  · simp
  · split
    · simp
    · split <;> simp

/-- An acknowledgement is the last thing a call asks for. -/
theorem ack_last (r : XferReceiver) (c : RecvCall) {pre post : List RecvEvent}
    {contiguous highest : XferSeq} {bufferedMs : UInt16}
    (heq : (r.step c).2 = pre ++ .sendAck contiguous highest bufferedMs :: post) : post = [] := by
  -- the events before the last call of `maybe_ack` hold none
  have hlast : ∀ front back : List RecvEvent, (r.step c).2 = front ++ back →
      (∀ a h b, .sendAck a h b ∉ front) → back.length ≤ 1 → post = [] := by
    intro front back hsplit hfront hback
    rw [hsplit] at heq
    rcases List.append_eq_append_iff.mp heq with ⟨mid, rfl, rfl⟩ | ⟨mid, rfl, hmid⟩
    · simp only [List.length_append, List.length_cons] at hback
      exact List.length_eq_zero_iff.mp (by omega)
    · cases mid with
      | nil =>
        rw [List.nil_append] at hmid
        rw [← hmid, List.length_cons] at hback
        exact List.length_eq_zero_iff.mp (by omega)
      | cons e mid =>
        obtain ⟨rfl, -⟩ := List.cons.inj hmid
        exact absurd (List.mem_append_right pre List.mem_cons_self) (hfront _ _ _)
  cases c with
  | setBufferedMs ms => cases pre <;> cases heq
  | handle seq body now =>
    refine hlast _ _ rfl (fun a h b hm => ?_) (length_maybeAck _ now)
    rcases onBody_events hm with ⟨_, _, -, he⟩ | ⟨_, _, -, he⟩ | ⟨_, -, he, -⟩ | ⟨_, he⟩ | ⟨_, he⟩ |
      he | he <;> cases he
  | tick now =>
    cases hc : r.closed with
    | true =>
      rw [step, tick_of_closed hc] at heq
      cases pre <;> cases heq
    | false =>
      rcases Nat.lt_or_ge r.cfg.idleTimeout (durationSince now r.lastPacketAt) with hi | hi
      · have hidle : (r.step (.tick now)).2 = r.closeIdle.2 :=
          congrArg Prod.snd (tick_of_idle hc hi)
        refine hlast r.closeIdle.2 [] (by rw [hidle, List.append_nil]) (fun a h b hm => ?_)
          (by simp)
        rcases closeIdle_events hm with ⟨he, -⟩ | he <;> cases he
      · refine hlast _ _ (congrArg Prod.snd (tick_of_awake hc hi)) (fun a h b hm => ?_)
          (length_maybeAck _ now)
        rcases (tickRel_events hm).2 with ⟨he, -⟩ | he | ⟨_, he, -⟩ <;> cases he

end XferReceiver

namespace Entry

/-- The occupancy that the entry puts into an acknowledgement, unless it
leaves that to its receiver. -/
def occupancy (e : Entry) (around : Around) : Option UInt16 :=
  (e.feedback.freshPlayheadMs around.ackNow bufferReportTtl).map fun playhead =>
    UInt16.ofNat (min (e.newestDataMs - playhead) 65535)

/-- Sealing one packet, at the entry and at the receiving party of a link. -/
theorem seal_reply (e : Entry) (id : RequestId) (body : Body) :
    (e.seal id body).entry = { e with controlSeq := e.controlSeq.next }
      ∧ ∀ c ∈ sealCalls (e.seal id body).effects, ∀ b, c.result = .ok b →
        sealBody e.key id .recv e.controlSeq.val body = .ok b := by
  cases henc : encodeBody body with
  | error err =>
    have hseal : e.seal id body = ⟨{ e with controlSeq := e.controlSeq.next }, [], []⟩ := by
      simp only [«seal», henc]
    rw [hseal]
    exact ⟨rfl, fun c hc => by cases hc⟩
  | ok plaintext =>
    have heffects : (e.seal id body).effects
        = [.sealed (.run e.key ⟨body.kind, id, e.controlSeq.val⟩ .recv plaintext)] := by
      simp only [«seal», henc]
    have hentry : (e.seal id body).entry = { e with controlSeq := e.controlSeq.next } := by
      simp only [«seal», henc]
    rw [heffects, hentry]
    refine ⟨rfl, fun c hc b hb => ?_⟩
    cases List.mem_singleton.mp hc
    simpa [sealBody, henc, Bind.bind, Except.bind, SealCall.run] using hb

/-- **Sealed alike**: the events applied at the entry, and answered by the
receiving party of a link that has been told the entry's occupancy. -/
theorem apply_reply (e : Entry) (id : RequestId) (around : Around) {evs : List RecvEvent}
    (now : Instant) (y : Rx) (hcounter : y.controlSeq = e.controlSeq)
    (hreport : y.report = (e.apply id around evs).entry.occupancy around)
    (hlast : ∀ pre a h b post, evs = pre ++ .sendAck a h b :: post → post = []) :
    (Rx.reply e.key id now y evs).1.controlSeq = (e.apply id around evs).entry.controlSeq
      ∧ ∀ c ∈ sealCalls (e.apply id around evs).effects, ∀ b, c.result = .ok b →
        ∃ m ∈ (Rx.reply e.key id now y evs).2, m.bytes = b := by
  induction evs generalizing e y with
  | nil => exact ⟨hcounter, fun c hc => by cases hc⟩
  | cons ev evs ih =>
    have htail : ∀ pre a h b post, evs = pre ++ .sendAck a h b :: post → post = [] :=
      fun pre a h b post heq => hlast (ev :: pre) a h b post (by rw [heq, List.cons_append])
    -- an event that is answered with one packet
    have hsealed : ∀ body, e.applyOne id around ev = e.seal id body → y.replyBody ev = some body →
        (Rx.reply e.key id now y (ev :: evs)).1.controlSeq
            = (e.apply id around (ev :: evs)).entry.controlSeq
          ∧ ∀ c ∈ sealCalls (e.apply id around (ev :: evs)).effects, ∀ b, c.result = .ok b →
            ∃ m ∈ (Rx.reply e.key id now y (ev :: evs)).2, m.bytes = b := by
      intro body hone hbody
      obtain ⟨hentry, hcalls⟩ := e.seal_reply id body
      obtain ⟨hcount, hrest⟩ := ih (e.seal id body).entry
        { y with controlSeq := y.controlSeq.next } (by rw [hentry, hcounter])
        (by rw [hreport, apply, hone]) htail
      have hkey : (e.seal id body).entry.key = e.key := by rw [hentry]
      rw [hkey] at hcount hrest
      simp only [apply, hone, Rx.reply, hbody, sealCalls_append, List.mem_append]
      cases hres : sealBody e.key id .recv y.controlSeq.val body with
      | error err =>
        refine ⟨hcount, fun c hc b hb => ?_⟩
        rcases hc with hc | hc
        · have hok := hcalls c hc b hb
          rw [← hcounter, hres] at hok
          cases hok
        · exact hrest c hc b hb
      | ok d =>
        refine ⟨hcount, fun c hc b hb => ?_⟩
        rcases hc with hc | hc
        · have hok := hcalls c hc b hb
          rw [← hcounter, hres] at hok
          exact ⟨⟨now, d⟩, List.mem_cons_self, Except.ok.inj hok⟩
        · obtain ⟨m, hm, hmb⟩ := hrest c hc b hb
          exact ⟨m, List.mem_cons_of_mem _ hm, hmb⟩
    -- and one that is not
    have hquiet : (e.applyOne id around ev).entry.key = e.key →
        (e.applyOne id around ev).entry.controlSeq = e.controlSeq →
        sealCalls (e.applyOne id around ev).effects = [] → y.replyBody ev = none →
        (Rx.reply e.key id now y (ev :: evs)).1.controlSeq
            = (e.apply id around (ev :: evs)).entry.controlSeq
          ∧ ∀ c ∈ sealCalls (e.apply id around (ev :: evs)).effects, ∀ b, c.result = .ok b →
            ∃ m ∈ (Rx.reply e.key id now y (ev :: evs)).2, m.bytes = b := by
      intro hkey hseq hnone hbody
      have hrest := ih (e.applyOne id around ev).entry y (hcounter.trans hseq.symm) hreport htail
      rw [hkey] at hrest
      simp only [apply, Rx.reply, hbody, sealCalls_append, hnone, List.nil_append]
      exact hrest
    cases ev with
    | unreliable f =>
      refine hquiet ?_ ?_ ?_ rfl <;>
      · simp only [applyOne, deliverUnrel]
        split
        · rfl
        · split <;> rfl
    | reliable f => exact hquiet rfl rfl rfl rfl
    | sendNack missing => exact hsealed _ rfl rfl
    | sendEndAck => exact hsealed _ rfl rfl
    | sendAck contiguous highest bufferedMs =>
      refine hsealed (.ack contiguous highest
        (ackBufferedMs e.feedback bufferedMs e.newestDataMs around.ackNow)) rfl ?_
      -- it is the last event, so the occupancy is that of the entry now
      cases hlast [] contiguous highest bufferedMs evs rfl
      have hocc : y.report = e.occupancy around := by
        rw [hreport]
        show (e.seal id _).entry.occupancy around = _
        rw [(e.seal_reply id _).1]
        rfl
      rw [Rx.replyBody, hocc, occupancy, ackBufferedMs]
      cases e.feedback.freshPlayheadMs around.ackNow bufferReportTtl <;> rfl
    | relFinished outcome =>
      refine hquiet rfl rfl ?_ rfl
      simp only [applyOne]
      split <;> rfl
    | closed => exact hquiet rfl rfl rfl rfl

end Entry

/-! ## The two ends of a transfer -/

/-- A tap that runs `send_all` and the entry it sends to, in any
interleaving of the polls of the one and the steps of the other. -/
def deliveryRun (key : SessionKey) (id : RequestId) (peer : SocketAddr) (scfg : SenderConfig)
    (rcfg : ReceiverConfig) (start : Instant) (frames : List (TimestampMs × Bytes))
    (steps : List (Sender.Round ⊕ Entry.Step)) : (Sender.Task × Entry) × JointTrace :=
  Machine.run (Par.step Sender.Task.poll
    (fun e x => ((Entry.step e id x).entry, (Entry.step e id x).effects)))
    (Sender.Task.start (Sender.connect peer id key scfg) frames, Entry.new key rcfg start) steps

/-- What opens at either end was sealed by the other before. -/
def Unforged (key : SessionKey) (t : JointTrace) : Sender.Round ⊕ Entry.Step → Prop
  | .inl r =>
    match r.incoming with
    | .datagram bytes => (openBody key .recv (bytes.take Sender.bufLen)).isSome →
      ∃ c ∈ Entry.sealCalls (rights t), c.result = .ok (bytes.take Sender.bufLen)
    | .failed | .timeout => True
  | .inr (.datagram bytes _ _ _) => (openBody key .send bytes).isSome →
    ∃ c ∈ Sender.sealCalls (lefts t), c.result = .ok bytes
  | .inr (.tick ..) | .inr (.setPlayheadMs ..) => True

instance (key : SessionKey) (t : JointTrace) : (x : Sender.Round ⊕ Entry.Step) →
    Decidable (Unforged key t x)
  | .inl ⟨_, _, .datagram _, _, _, _, _⟩ => inferInstanceAs (Decidable (_ → ∃ _ ∈ _, _))
  | .inl ⟨_, _, .failed, _, _, _, _⟩ => isTrue trivial
  | .inl ⟨_, _, .timeout, _, _, _, _⟩ => isTrue trivial
  | .inr (.datagram ..) => inferInstanceAs (Decidable (_ → ∃ _ ∈ _, _))
  | .inr (.tick ..) => isTrue trivial
  | .inr (.setPlayheadMs ..) => isTrue trivial

/-- A joint run and the run of a link that matches it. -/
structure Sim (key : SessionKey) (id : RequestId) (k : Sender.Task) (e : Entry) (t : JointTrace)
    (l : LinkState) (u : LinkTrace) : Prop where
  tapKey : k.sender.key = key
  tapId : k.sender.requestId = id
  sinkKey : e.key = key
  left : k.result = none → l.left = k.sender.state
  right : l.right.state = e.state
  counter : l.right.controlSeq = e.controlSeq
  toRight : ∀ c ∈ Sender.sealCalls (lefts t), ∀ b, c.result = .ok b → ∃ m ∈ l.toRight, m.bytes = b
  toLeft : ∀ c ∈ Entry.sealCalls (rights t), ∀ b, c.result = .ok b → ∃ m ∈ l.toLeft, m.bytes = b
  events : (lefts u).filterMap TxObs.sendEvent = (lefts t).filterMap Sender.Effect.sendEvent

section

variable {key : SessionKey} {id : RequestId}

/-- A dispatch at the tap is the reaction of the sending party. -/
theorem Sim.carry {k k' : Sender.Task} {e : Entry} {t : JointTrace} {l : LinkState} {u : LinkTrace}
    {d : Sender.Done} {q : Reaction XferSender Sent TxObs} (h : Sim key id k e t l u)
    (hq : Sender.Carries key id d q) (hstate : k'.sender = d.state)
    (hres : k'.result = none → d.result = .ok ()) :
    Sim key id k' e (t ++ d.effects.map .inl)
      { l with left := q.state, toRight := l.toRight ++ q.sent } (u ++ q.events.map .inl) where
  tapKey := by rw [hstate, hq.key]
  tapId := by rw [hstate, hq.requestId]
  sinkKey := h.sinkKey
  left hnone := by rw [hstate, hq.state (hres hnone)]
  right := h.right
  counter := h.counter
  toRight c hc b hb := by
    rw [Net.lefts_append, Net.lefts_map_inl, Sender.sealCalls_append] at hc
    rcases List.mem_append.mp hc with hc | hc
    · obtain ⟨m, hm, hmb⟩ := h.toRight c hc b hb
      exact ⟨m, List.mem_append_left _ hm, hmb⟩
    · obtain ⟨m, hm, hmb⟩ := hq.sent c hc b hb
      exact ⟨m, List.mem_append_right _ hm, hmb⟩
  toLeft c hc b hb := by
    rw [Net.rights_append, Net.rights_map_inl, List.append_nil] at hc
    exact h.toLeft c hc b hb
  events := by
    rw [Net.lefts_append, Net.lefts_append, Net.lefts_map_inl, Net.lefts_map_inl,
      List.filterMap_append, List.filterMap_append, h.events, hq.events]

/-- The link does what the tap does: some operations, all at the sending
party. -/
def Matched (key : SessionKey) (id : RequestId) (l : LinkState)
    (q : Reaction XferSender Sent TxObs) : Prop :=
  ∃ ops, Net.run (txParty key id) (rxParty key id) l ops
    = ({ l with left := q.state, toRight := l.toRight ++ q.sent }, q.events.map .inl)

theorem matched_act (l : LinkState) (i : TxAct) :
    Matched key id l ((txParty key id).act l.left i) :=
  ⟨[.left i], Machine.run_singleton _ l _⟩

theorem matched_nothing (l : LinkState) : Matched key id l ⟨l.left, [], []⟩ :=
  ⟨[], by simp [Net.run]⟩

/-- What the tap does with a datagram that is in flight. -/
theorem Sim.handle {k : Sender.Task} {e : Entry} {t : JointTrace} {l : LinkState} {u : LinkTrace}
    (h : Sim key id k e t l u) (hnone : k.result = none) (r : Sender.Round)
    (hr : Unforged key t (.inl r)) : ∃ q, Matched key id l q
      ∧ Sender.Carries key id (k.sender.handleOnce r.incoming r.now r.fault) q := by
  have hquiet : ∀ result, Sender.Carries key id ⟨k.sender, [], result⟩ ⟨l.left, [], []⟩ :=
    fun result => ⟨h.tapKey, h.tapId, fun _ => h.left hnone, rfl, fun c hc => (by cases hc)⟩
  unfold Sender.handleOnce
  split
  · exact ⟨_, matched_nothing l, hquiet _⟩
  · split
    · exact ⟨_, matched_nothing l, hquiet _⟩
    · rename_i body hpacket
      rw [h.tapKey] at hpacket
      cases hin : r.incoming with
      | failed | timeout =>
        rw [hin] at hpacket
        cases hpacket
      | datagram bytes =>
        simp only [Unforged, hin] at hr
        rw [hin] at hpacket
        obtain ⟨⟨seq, body'⟩, hopen, rfl⟩ := Option.map_eq_some_iff.mp hpacket
        obtain ⟨c, hc, hres⟩ := hr (by rw [hopen]; rfl)
        obtain ⟨m, hm, hmb⟩ := h.toLeft c hc _ hres
        obtain ⟨n, hn⟩ := Net.exists_deliverLeft (txParty key id) (rxParty key id) hm r.now true
        -- the link delivers the same bytes
        rw [← hmb] at hopen
        have hreceive : (txParty key id).receive l.left r.now m = transmitAll key id r.now
            (l.left.handle body' r.now).1 (l.left.handle body' r.now).2 := by
          simp only [txParty, hopen]
        refine ⟨_, ⟨[.deliverLeft n r.now true], (Machine.run_singleton _ l _).trans hn⟩, ?_⟩
        rw [hreceive, h.left hnone, ← h.tapKey, ← h.tapId]
        exact Sender.carries_dispatch
          { k.sender with state := (k.sender.state.handle body' r.now).1 } r.fault r.now
          (XferSender.hands_handle k.sender.state body' r.now).length_le

theorem Sim.matched {k : Sender.Task} {e : Entry} {t : JointTrace} {l : LinkState}
    {u : LinkTrace} {d : Sender.Done} {q : Reaction XferSender Sent TxObs}
    (h : Sim key id k e t l u) (k' : Sender.Task) (hm : Matched key id l q)
    (hq : Sender.Carries key id d q) (hstate : k'.sender = d.state)
    (hres : k'.result = none → d.result = .ok ()) :
    ∃ ops, Sim key id k' e (t ++ d.effects.map .inl)
        (Net.run (txParty key id) (rxParty key id) l ops).1
        (u ++ (Net.run (txParty key id) (rxParty key id) l ops).2)
      ∧ rights (Net.run (txParty key id) (rxParty key id) l ops).2 = [] := by
  obtain ⟨ops, hops⟩ := hm
  refine ⟨ops, ?_⟩
  rw [hops]
  exact ⟨h.carry hq hstate hres, Net.rights_map_inl _⟩

theorem Sim.tick {k : Sender.Task} {e : Entry} {t : JointTrace} {l : LinkState} {u : LinkTrace}
    (h : Sim key id k e t l u) (hnone : k.result = none) (now : Instant) (fault : Option Nat)
    (k' : Sender.Task) (hstate : k'.sender = (k.sender.tickOnce now fault).state)
    (hres : k'.result = none → (k.sender.tickOnce now fault).result = .ok ()) :
    ∃ ops, Sim key id k' e (t ++ (k.sender.tickOnce now fault).effects.map .inl)
        (Net.run (txParty key id) (rxParty key id) l ops).1
        (u ++ (Net.run (txParty key id) (rxParty key id) l ops).2)
      ∧ rights (Net.run (txParty key id) (rxParty key id) l ops).2 = [] := by
  refine h.matched k' (matched_act l (.tick now)) ?_ hstate hres
  rw [h.left hnone, ← h.tapKey, ← h.tapId]
  exact Sender.carries_dispatch { k.sender with state := (k.sender.state.tick now).1 } fault now
    (XferSender.hands_tick k.sender.state now).length_le

/-- **A poll of the task** is matched by what the sending party of the link
does. -/
theorem Sim.poll {k : Sender.Task} {e : Entry} {t : JointTrace} {l : LinkState} {u : LinkTrace}
    (h : Sim key id k e t l u) (r : Sender.Round) (hr : Unforged key t (.inl r)) :
    ∃ ops, Sim key id (k.poll r).1 e (t ++ (k.poll r).2.map .inl)
        (Net.run (txParty key id) (rxParty key id) l ops).1
        (u ++ (Net.run (txParty key id) (rxParty key id) l ops).2)
      ∧ rights (Net.run (txParty key id) (rxParty key id) l ops).2 = [] := by
  have hp := k.polls r
  generalize k.poll r = p at hp
  cases hp with
  | ended hover => exact ⟨[], by simpa [Net.run] using h, rfl⟩
  | done hnone htodo hf hdone =>
    refine ⟨[], ?_, rfl⟩
    have hsame : Sim key id { k with result := some (.ok ()) } e t l u :=
      ⟨h.tapKey, h.tapId, h.sinkKey, fun hres => (by cases hres), h.right, h.counter, h.toRight,
        h.toLeft, h.events⟩
    simpa [Net.run] using hsame
  | push ts payload todo hnone htodo hopen =>
    refine h.matched _ (matched_act l (.pushFrame ts payload r.pushNow)) ?_ rfl
      Sender.Task.did_result_none.mp
    rw [h.left hnone, ← h.tapKey, ← h.tapId]
    exact Sender.carries_dispatch
      { k.sender with state := (k.sender.state.pushFrame ts payload r.pushNow).1 } r.pushFault
      r.pushNow (XferSender.hands_pushFrame k.sender.state ts payload r.pushNow).length_le
  | finish hnone htodo hf =>
    refine h.matched _ (matched_act l (.finish r.pushNow)) ?_ rfl Sender.Task.did_result_none.mp
    rw [h.left hnone, ← h.tapKey, ← h.tapId]
    exact Sender.carries_dispatch { k.sender with state := (k.sender.state.finish r.pushNow).1 }
      r.pushFault r.pushNow (XferSender.hands_finish k.sender.state r.pushNow).length_le
  | pump hnone hwait =>
    obtain ⟨q, hm, hq⟩ := h.handle hnone r hr
    cases hd : (k.sender.handleOnce r.incoming r.now r.fault).result with
    | error err =>
      have hpump : k.sender.pumpRound r = k.sender.handleOnce r.incoming r.now r.fault := by
        simp only [Sender.pumpRound, Sender.pumpOnce, Sender.Done.andThen, hd]
        rw [← hd]
      rw [hpump]
      exact h.matched _ hm hq rfl Sender.Task.did_result_none.mp
    | ok =>
      -- the datagram, then the tick
      obtain ⟨ops, hops, hquiet⟩ := h.matched
        { k with sender := (k.sender.handleOnce r.incoming r.now r.fault).state } hm hq rfl
        fun _ => hd
      obtain ⟨more, hmore, hquiet'⟩ := hops.tick hnone r.tickNow r.tickFault
        (k.did (k.sender.pumpRound r)).1
        (by simp only [Sender.pumpRound, Sender.pumpOnce, Sender.Done.andThen, hd,
          Sender.Task.did_sender])
        (by
          rw [Sender.Task.did_result_none]
          simp only [Sender.pumpRound, Sender.pumpOnce, Sender.Done.andThen, hd, imp_self])
      have heffects : (k.sender.pumpRound r).effects
          = (k.sender.handleOnce r.incoming r.now r.fault).effects
            ++ (Sender.tickOnce (k.sender.handleOnce r.incoming r.now r.fault).state r.tickNow
              r.tickFault).effects := by
        simp only [Sender.pumpRound, Sender.pumpOnce, Sender.Done.andThen, hd]
      refine ⟨ops ++ more, ?_⟩
      rw [Net.run, Machine.run_append, Machine.andThen_fst, Machine.andThen_snd,
        Sender.Task.did_effects, heffects, List.map_append, ← List.append_assoc,
        ← List.append_assoc, Net.rights_append]
      exact ⟨hmore, List.append_eq_nil_iff.mpr ⟨hquiet, hquiet'⟩⟩

/-- One call on the receiver, with the entry's occupancy reported first. -/
theorem Sim.answer {k : Sender.Task} {e e' : Entry} {t : JointTrace} {l : LinkState}
    {u : LinkTrace} (h : Sim key id k e t l u) (around : Around) (c : RecvCall) (now : Instant)
    (hkey : e'.key = key) (hcounter : e'.controlSeq = e.controlSeq)
    (hstate : e'.state = (l.right.state.step c).1) :
    let p := e'.apply id around (l.right.state.step c).2
    let q := Rx.call key id now { l.right with report := p.entry.occupancy around } c
    Sim key id k p.entry (t ++ p.effects.map .inr)
      { l with right := q.state, toLeft := l.toLeft ++ q.sent } (u ++ q.events.map .inr) := by
  intro p q
  have hframe := e'.apply_frame id around (l.right.state.step c).2
  obtain ⟨hcount, hsent⟩ := e'.apply_reply id around now
    { l.right with state := (l.right.state.step c).1, report := p.entry.occupancy around }
    (h.counter.trans hcounter.symm) rfl fun pre a hi b post heq => l.right.state.ack_last c heq
  rw [hkey] at hcount hsent
  exact {
    tapKey := h.tapKey
    tapId := h.tapId
    sinkKey := hframe.2.1.trans hkey
    left := h.left
    right := (Rx.call_state now _ c).trans (hstate.symm.trans hframe.1.symm)
    counter := hcount
    toRight := fun c' hc b hb => by
      rw [Net.lefts_append, Net.lefts_map_inr, List.append_nil] at hc
      exact h.toRight c' hc b hb
    toLeft := fun c' hc b hb => by
      rw [Net.rights_append, Net.rights_map_inr, Entry.sealCalls_append] at hc
      rcases List.mem_append.mp hc with hc | hc
      · obtain ⟨m, hm, hmb⟩ := h.toLeft c' hc b hb
        exact ⟨m, List.mem_append_left _ hm, hmb⟩
      · obtain ⟨m, hm, hmb⟩ := hsent c' hc b hb
        exact ⟨m, List.mem_append_right _ hm, hmb⟩
    events := by
      rw [Net.lefts_append, Net.lefts_append, Net.lefts_map_inr, Net.lefts_map_inr, List.append_nil,
        List.append_nil]
      exact h.events }

/-- The receiving party is told the occupancy, and then makes the call. -/
theorem Sim.called {k : Sender.Task} {e : Entry} {t : JointTrace} {l : LinkState} {u : LinkTrace}
    (h : Sim key id k e t l u) (around : Around) (c : RecvCall) (now : Instant) (e' : Entry)
    (hkey : e'.key = key) (hcounter : e'.controlSeq = e.controlSeq)
    (hstate : e'.state = (l.right.state.step c).1) (op : LinkOp)
    (hop : ∀ occupancy, Net.step (txParty key id) (rxParty key id)
        { l with right := { l.right with report := occupancy } } op
      = Net.rightDoes { l with right := { l.right with report := occupancy } }
        (Rx.call key id now { l.right with report := occupancy } c)) :
    ∃ ops, Sim key id k (e'.apply id around (l.right.state.step c).2).entry
        (t ++ (e'.apply id around (l.right.state.step c).2).effects.map .inr)
        (Net.run (txParty key id) (rxParty key id) l ops).1
        (u ++ (Net.run (txParty key id) (rxParty key id) l ops).2)
      ∧ recvCalls (Net.run (txParty key id) (rxParty key id) l ops).2 = [c] := by
  have hans := h.answer around c now hkey hcounter hstate
  let occupancy := (e'.apply id around (l.right.state.step c).2).entry.occupancy around
  have hreport : Net.step (txParty key id) (rxParty key id) l (.right (.report occupancy))
      = ({ l with right := { l.right with report := occupancy } }, []) := by
    simp [Net.step, Net.rightDoes, rxParty]
  refine ⟨[.right (.report occupancy), op], ?_⟩
  rw [Net.run, Machine.run_cons, hreport]
  simp only [Machine.andThen, Machine.run_singleton, hop occupancy, List.nil_append]
  exact ⟨hans, rfl⟩

/-- **A step of the entry** is matched by what the receiving party of the
link does, with the same call on the receiver. -/
theorem Sim.entryStep {k : Sender.Task} {e : Entry} {t : JointTrace} {l : LinkState}
    {u : LinkTrace} (h : Sim key id k e t l u) (x : Entry.Step) (hx : Unforged key t (.inr x)) :
    ∃ ops, Sim key id k (e.step id x).entry (t ++ (e.step id x).effects.map .inr)
        (Net.run (txParty key id) (rxParty key id) l ops).1
        (u ++ (Net.run (txParty key id) (rxParty key id) l ops).2)
      ∧ recvCalls (Net.run (txParty key id) (rxParty key id) l ops).2
        = (x.call key).toList := by
  have hidle : ∀ e' : Entry, e'.key = e.key → e'.state = e.state → e'.controlSeq = e.controlSeq →
      Sim key id k e' t l u := fun e' hkey hstate hseq =>
    ⟨h.tapKey, h.tapId, hkey.trans h.sinkKey, h.left, h.right.trans hstate.symm,
      h.counter.trans hseq.symm, h.toRight, h.toLeft, h.events⟩
  cases x with
  | setPlayheadMs ms now =>
    refine ⟨[], ?_, rfl⟩
    have hsame := hidle { e with feedback := e.feedback.setPlayheadMs ms now } rfl rfl rfl
    simpa [Net.run, Entry.step] using hsame
  | tick now around =>
    have hcalled := h.called around (.tick now) now { e with state := (e.state.tick now).1 }
      h.sinkKey rfl (by rw [h.right]; rfl) (.right (.tick now)) fun _ => rfl
    rw [h.right] at hcalled
    exact hcalled
  | datagram bytes source now around =>
    cases hopen : openBody key .send bytes with
    | none =>
      simp only [Entry.step, Entry.onDatagram, Entry.Step.call, h.sinkKey, hopen]
      exact ⟨[], by simpa [Net.run] using h, rfl⟩
    | some p =>
      obtain ⟨c, hc, hres⟩ := hx (by rw [hopen]; rfl)
      obtain ⟨m, hm, hmb⟩ := h.toRight c hc bytes hres
      obtain ⟨n, hn⟩ := List.mem_iff_getElem?.mp hm
      have hcalled := h.called around (.handle p.1 p.2 now) now
        { e.pin source with state := (e.state.handle p.1 p.2 now).1 }
        h.sinkKey rfl (by rw [h.right]; rfl) (.deliverRight n now true) ?_
      · rw [h.right] at hcalled
        simp only [Entry.step, Entry.onDatagram, Entry.Step.call, h.sinkKey, hopen]
        exact hcalled
      · intro occupancy
        simp only [Net.step, hn, Net.taken, if_true, rxParty, hmb, hopen]

/-- **The program refines the link.** Every run of a tap and an entry in
which nothing is forged is matched by a run of the link: the same state
machines at both ends, the same events at the tap, the same calls on the
receiver. -/
theorem delivery_refines (key : SessionKey) (id : RequestId) (peer : SocketAddr)
    (scfg : SenderConfig) (rcfg : ReceiverConfig) (start : Instant)
    (frames : List (TimestampMs × Bytes)) (steps : List (Sender.Round ⊕ Entry.Step))
    (h : ∀ before x after, steps = before ++ x :: after →
      Unforged key (deliveryRun key id peer scfg rcfg start frames before).2 x) :
    ∃ ops, Sim key id (deliveryRun key id peer scfg rcfg start frames steps).1.1
        (deliveryRun key id peer scfg rcfg start frames steps).1.2
        (deliveryRun key id peer scfg rcfg start frames steps).2
        (linkRun key id scfg rcfg start ops).1 (linkRun key id scfg rcfg start ops).2
      ∧ recvCalls (linkRun key id scfg rcfg start ops).2 = Entry.callsOf key (rights steps) := by
  refine Machine.exists_run _ (Net.step (txParty key id) (rxParty key id))
    (fun is (s : Sender.Task × Entry) es t ds =>
      Sim key id s.1 s.2 es t ds ∧ recvCalls ds = Entry.callsOf key (rights is))
    (fun is => ∀ before x after, is = before ++ x :: after →
      Unforged key (deliveryRun key id peer scfg rcfg start frames before).2 x)
    (fun is x hx => (Machine.forall_split_concat.mp hx).1) ?_ ?_ steps h
  · refine ⟨⟨rfl, rfl, rfl, fun _ => rfl, rfl, rfl, ?_, ?_, rfl⟩, rfl⟩ <;>
      exact fun c hc => (by cases hc)
  · intro is s es t ds x hrun hok ⟨hsim, hcalls⟩
    have hx := (Machine.forall_split_concat.mp hok).2
    unfold deliveryRun at hx
    rw [hrun] at hx
    cases x with
    | inl r =>
      obtain ⟨ops, hsim', hquiet⟩ := hsim.poll r hx
      refine ⟨ops, hsim', ?_⟩
      have hnone : recvCalls (Net.run (txParty key id) (rxParty key id) t ops).2 = [] := by
        rw [recvCalls, hquiet]
        rfl
      rw [Net.rights_append, show rights [Sum.inl r] = ([] : List Entry.Step) from rfl,
        List.append_nil, recvCalls_append, ← hcalls]
      exact (congrArg _ hnone).trans (List.append_nil _)
    | inr x =>
      obtain ⟨ops, hsim', hcall⟩ := hsim.entryStep x hx
      refine ⟨ops, hsim', ?_⟩
      rw [Net.rights_append, show rights [Sum.inr x] = [x] from rfl, Entry.callsOf,
        List.filterMap_append, recvCalls_append, hcalls]
      refine congrArg _ (hcall.trans ?_)
      cases hx : x.call key <;> simp [hx]

end

/-! ## What the sink's application gets -/

/-- The frames pushed in the link are those the events hand out. -/
theorem pushed_eq_frames (u : LinkTrace) :
    pushed u = ((lefts u).filterMap TxObs.sendEvent).filterMap Sender.eventFrame := by
  rw [List.filterMap_filterMap]
  refine List.filterMap_congr fun o _ => ?_
  cases o with
  | event ev =>
    cases ev with
    | emit seq body => cases body <;> rfl
    | resend | completed | failed => rfl
  | recorded | unsent => rfl

/-- No frame under another number, and each under its own. -/
def Numbered (l : List Frame) : Prop := ∀ i frame, l[i]? = some frame → frame.seq.toNat = i + 1

/-- The frames without their numbers. -/
def untagged (l : List Frame) : List (TimestampMs × Bytes) := l.map fun f => (f.ts, f.payload)

section Delivered

variable (key : SessionKey) (id : RequestId) (peer : SocketAddr) (scfg : SenderConfig)
variable (rcfg : ReceiverConfig) (start : Instant) (frames : List (TimestampMs × Bytes))

/-- In this run nothing is forged. -/
def Honest (steps : List (Sender.Round ⊕ Entry.Step)) : Prop :=
  ∀ before x after, steps = before ++ x :: after →
    Unforged key (deliveryRun key id peer scfg rcfg start frames before).2 x

/-- What the two ends know of each other: the frames handed out by the tap
in the events `t`, and the calls made on the receiver. -/
structure Linked (t : List Sender.Effect) (calls : List RecvCall) : Prop where
  numbered : Numbered (Sender.framesOf t)
  arrived : ∀ s, (XferReceiver.firstArrival calls s).isSome →
    XferReceiver.firstArrival calls s = (Sender.framesOf t)[s - 1]?
  ended : ∀ f, XferReceiver.EndDeclared calls f → f.toNat = (Sender.framesOf t).length
    ∧ ∃ seq g, .event (.emit seq (.end g)) ∈ t
  completed : .event .completed ∈ t → .sendEndAck ∈ (XferReceiver.run rcfg start calls).2
  handled : ∀ seq ts payload now, .handle seq (.data ts payload) now ∈ calls →
    ⟨seq, ts, payload⟩ ∈ Sender.framesOf t

theorem sendEvent_mem {t : List Sender.Effect} {ev : SendEvent} :
    ev ∈ t.filterMap Sender.Effect.sendEvent ↔ .event ev ∈ t := by
  constructor
  · intro h
    obtain ⟨f, hf, heq⟩ := List.mem_filterMap.mp h
    cases f with
    | event ev' =>
      cases heq
      exact hf
    | sealed | sent => cases heq
  · exact fun h => List.mem_filterMap.mpr ⟨_, h, rfl⟩

theorem txEvent_mem {u : LinkTrace} {ev : SendEvent} :
    ev ∈ (lefts u).filterMap TxObs.sendEvent ↔ .event ev ∈ lefts u := by
  constructor
  · intro h
    obtain ⟨f, hf, heq⟩ := List.mem_filterMap.mp h
    cases f with
    | event ev' =>
      cases heq
      exact hf
    | recorded | unsent => cases heq
  · exact fun h => List.mem_filterMap.mpr ⟨_, h, rfl⟩

/-- The task's side of a joint run. -/
theorem task_inv (steps : List (Sender.Round ⊕ Entry.Step)) :
    Sender.Task.Inv frames (lefts (deliveryRun key id peer scfg rcfg start frames steps).2)
      (deliveryRun key id peer scfg rcfg start frames steps).1.1 := by
  obtain ⟨⟨heff, htask⟩, -⟩ := Par.run_sides Sender.Task.poll
    (fun e x => ((Entry.step e id x).entry, (Entry.step e id x).effects))
    (Sender.Task.start (Sender.connect peer id key scfg) frames) (Entry.new key rcfg start) steps
  have hinv := Sender.Task.inv_run (s := Sender.connect peer id key scfg)
    (by simp [Sender.connect, XferSender.new]) frames (lefts steps)
  unfold deliveryRun
  rw [heff, htask]
  exact hinv

/-- The entry's side of a joint run. -/
theorem sink_effects (steps : List (Sender.Round ⊕ Entry.Step)) :
    rights (deliveryRun key id peer scfg rcfg start frames steps).2
      = ((Entry.new key rcfg start).drive id (rights steps)).effects := by
  obtain ⟨-, heff, -⟩ := Par.run_sides Sender.Task.poll
    (fun e x => ((Entry.step e id x).entry, (Entry.step e id x).effects))
    (Sender.Task.start (Sender.connect peer id key scfg) frames) (Entry.new key rcfg start) steps
  exact heff.trans (congrArg Prod.snd ((Entry.new key rcfg start).run_eq_drive id (rights steps)))

theorem sink_shows (steps : List (Sender.Round ⊕ Entry.Step)) :
    let evs := (XferReceiver.run rcfg start (Entry.callsOf key (rights steps))).2
    let t := rights (deliveryRun key id peer scfg rcfg start frames steps).2
    Entry.relFrames t = reliables evs ∧ Entry.outcomes t = (outcomesOf evs).take 1 := by
  intro evs t
  obtain ⟨-, hshows⟩ := (Entry.new key rcfg start).drive_shows id GapTracker.wf_new (rights steps)
  have ht : t = _ := sink_effects key id peer scfg rcfg start frames steps
  rw [ht]
  exact ⟨hshows.rel, hshows.outcome⟩

variable {key id peer scfg rcfg start frames}

/-- **The two ends, linked.** -/
theorem linked_of_honest {steps : List (Sender.Round ⊕ Entry.Step)}
    (h : Honest key id peer scfg rcfg start frames steps) (hfew : frames.length < 2 ^ 32 - 1) :
    Linked rcfg start (lefts (deliveryRun key id peer scfg rcfg start frames steps).2)
      (Entry.callsOf key (rights steps)) := by
  obtain ⟨ops, hsim, hcalls⟩ := delivery_refines key id peer scfg rcfg start frames steps h
  have hpushed : pushed (linkRun key id scfg rcfg start ops).2
      = Sender.framesOf (lefts (deliveryRun key id peer scfg rcfg start frames steps).2) := by
    rw [pushed_eq_frames, hsim.events]
    rfl
  have hlen : (pushed (linkRun key id scfg rcfg start ops).2).length ≤ frames.length := by
    have hall := congrArg List.length (task_inv key id peer scfg rcfg start frames steps).frames
    rw [List.length_append, List.length_map] at hall
    rw [hpushed]
    omega
  have hx := (exact_run key id scfg rcfg start ops (Nat.lt_of_le_of_lt hlen hfew)).holds
  have hmutual : Mutual key id rcfg start (linkRun key id scfg rcfg start ops).2
      (linkRun key id scfg rcfg start ops).1.left (linkRun key id scfg rcfg start ops).1.right :=
    (mutual_run (sourceLike_txParty key id) (sinkLike_rxParty key id) scfg rcfg start ops).holds
  have hproj := hmutual.projects
  unfold Projects at hproj
  rw [hcalls] at hproj
  have hfirst := fun s => hx.firstArrival (s := s)
  rw [hcalls, hpushed] at hfirst
  exact {
    numbered := fun i frame hi => hx.numbered i frame (hpushed ▸ hi)
    arrived := fun s hs => hfirst s hs
    ended := fun f ⟨seq, now, hm⟩ => by
      rw [← hcalls] at hm
      obtain ⟨-, hf, seq', g, he⟩ := hx.handled seq (.end f) now hm
      refine ⟨hpushed ▸ hf, seq', g, ?_⟩
      rw [← sendEvent_mem, ← hsim.events]
      exact txEvent_mem.mpr (List.mem_filterMap.mpr ⟨_, he, rfl⟩)
    completed := fun hc => by
      rw [hproj]
      refine hmutual.completed (txEvent_mem.mp ?_)
      rw [hsim.events]
      exact sendEvent_mem.mpr hc
    handled := fun seq ts payload now hc => by
      rw [← hpushed]
      exact hx.handled seq (.data ts payload) now (hcalls ▸ hc) }

/-- What has been released is a first part of what was handed out. -/
theorem Linked.released {t : List Sender.Effect} {calls : List RecvCall}
    (h : Linked rcfg start t calls) : reliables (XferReceiver.run rcfg start calls).2
      = (Sender.framesOf t).take (XferReceiver.run rcfg start calls).1.relReleased := by
  have hinv := XferReceiver.recvInv_run rcfg start calls
  rw [hinv.out, ← filterMap_range_getElem?]
  refine List.filterMap_congr fun s hs => ?_
  obtain ⟨h1, h2⟩ := List.mem_range'_1.mp hs
  have hle := hinv.released_le
  exact h.arrived s (hinv.seen s (GapTracker.filled_seen _ s h1 (by omega)))

/-- What the sink hands on, of what the tap has handed out. -/
theorem Linked.delivered {t : List Sender.Effect} {calls : List RecvCall} {k : Sender.Task}
    {out : List Entry.Effect} (h : Linked rcfg start t calls)
    (htask : Sender.Task.Inv frames t k)
    (hrel : Entry.relFrames out = reliables (XferReceiver.run rcfg start calls).2)
    (hout : Entry.outcomes out = (outcomesOf (XferReceiver.run rcfg start calls).2).take 1) :
    untagged (Entry.relFrames out) <+: frames ∧ Numbered (Entry.relFrames out)
      ∧ ∀ f, .complete f ∈ Entry.outcomes out →
        untagged (Entry.relFrames out) = frames ∧ f.toNat = frames.length := by
  have hinv := XferReceiver.recvInv_run rcfg start calls
  have hframes := htask.frames
  have hgot := hrel.trans h.released
  refine ⟨?_, ?_, fun f hf => ?_⟩
  · rw [hgot, hframes, untagged, List.map_take]
    exact (List.take_prefix _ _).trans (List.prefix_append _ _)
  · intro i frame hi
    rw [hgot, List.getElem?_take] at hi
    split at hi
    · exact h.numbered i frame hi
    · cases hi
  · have hm : .complete f ∈ outcomesOf (XferReceiver.run rcfg start calls).2 :=
      List.mem_of_mem_take (hout ▸ hf)
    obtain ⟨ev, hev, heq⟩ := List.mem_filterMap.mp hm
    have hcomplete : .relFinished (.complete f) ∈ (XferReceiver.run rcfg start calls).2 := by
      cases ev with
      | relFinished outcome =>
        cases heq
        exact hev
      | _ => cases heq
    obtain ⟨hdeclared, hle⟩ := hinv.complete f hcomplete
    obtain ⟨hflen, seq, g, hend⟩ := h.ended f hdeclared
    have hnil := htask.ended seq g hend
    rw [hnil, List.append_nil] at hframes
    refine ⟨?_, ?_⟩
    · rw [hgot, List.take_of_length_le (by omega)]
      exact hframes.symm
    · rw [hframes, List.length_map, hflen]

/-- A completed task has had every frame through: the acknowledged end is
the one it has announced. -/
theorem Linked.arrived_all {t : List Sender.Effect} {calls : List RecvCall} {k : Sender.Task}
    (h : Linked rcfg start t calls) (htask : Sender.Task.Inv frames t k)
    (hok : k.result = some (.ok ())) {i : Nat} {ts : TimestampMs} {payload : Bytes}
    (hi : frames[i]? = some (ts, payload)) :
    ∃ frame, XferReceiver.firstArrival calls (i + 1) = some frame
      ∧ frame.ts = ts ∧ frame.payload = payload := by
  obtain ⟨hcompleted, hnil⟩ := htask.ok hok
  have hframes := htask.frames
  rw [hnil, List.append_nil] at hframes
  obtain ⟨before, c, after, heq, hc⟩ := (Machine.mem_run _).mp (h.completed hcompleted)
  obtain ⟨f, hdeclared, hlanded⟩ := XferReceiver.landed_of_sendEndAck rcfg start before c hc
  have hall : XferReceiver.EndDeclared calls f := by
    rw [heq, List.append_cons]
    exact hdeclared.append after
  obtain ⟨hflen, -⟩ := h.ended f hall
  have hlen : i < frames.length := (List.getElem?_eq_some_iff.mp hi).1
  have hcount := congrArg List.length hframes
  rw [List.length_map] at hcount
  obtain ⟨frame, hframe, hseq⟩ := hlanded (i + 1) (by omega) (by omega)
  have hsome : (XferReceiver.firstArrival calls (i + 1)).isSome := by
    refine XferReceiver.isSome_firstArrival.mpr ⟨by omega, frame, ?_, hseq⟩
    rw [heq, List.append_cons, XferReceiver.arrivals, List.filterMap_append]
    exact List.mem_append_left _ hframe
  have harrived := h.arrived (i + 1) hsome
  rw [Nat.add_sub_cancel] at harrived
  rw [hframes, List.getElem?_map] at hi
  obtain ⟨frame', hframe', heq'⟩ := Option.map_eq_some_iff.mp hi
  cases heq'
  exact ⟨frame', harrived.trans hframe', rfl, rfl⟩

/-- And its sink has sent an outcome. -/
theorem Linked.outcome {t : List Sender.Effect} {calls : List RecvCall} {k : Sender.Task}
    {out : List Entry.Effect} (h : Linked rcfg start t calls)
    (htask : Sender.Task.Inv frames t k) (hok : k.result = some (.ok ()))
    (hout : Entry.outcomes out = (outcomesOf (XferReceiver.run rcfg start calls).2).take 1) :
    ∃ o, Entry.outcomes out = [o] := by
  have hinv := XferReceiver.recvInv_run rcfg start calls
  obtain ⟨hacks, -⟩ := XferReceiver.run_marks rcfg start calls
  have hpos := List.count_pos_iff.mpr (h.completed (htask.ok hok).1)
  have hflag : (XferReceiver.run rcfg start calls).1.endAcked = true := by
    by_contra hnot
    rw [hacks, Bool.eq_false_iff.mpr hnot] at hpos
    cases hpos
  have hfinished := XferReceiver.endAcked_finished hinv hflag
  have hone := hinv.ends.countP_isOutcome
  rw [← Entry.length_outcomesOf, hfinished, if_neg (by simp)] at hone
  obtain ⟨o, ho⟩ := List.length_eq_one_iff.mp hone
  exact ⟨o, by rw [hout, ho]; rfl⟩

/-- **What the consumer of the reliable stream gets** from `send_all`,
whatever the network loses, repeats, reorders or delays: a first part of
the frames it was given, in order, numbered from one; and once the outcome
says `Complete`, all of them. -/
theorem reliable_stream_delivered {steps : List (Sender.Round ⊕ Entry.Step)}
    (h : Honest key id peer scfg rcfg start frames steps) (hfew : frames.length < 2 ^ 32 - 1) :
    let t := rights (deliveryRun key id peer scfg rcfg start frames steps).2
    untagged (Entry.relFrames t) <+: frames ∧ Numbered (Entry.relFrames t)
      ∧ ∀ f, .complete f ∈ Entry.outcomes t →
        untagged (Entry.relFrames t) = frames ∧ f.toNat = frames.length := by
  intro t
  obtain ⟨hrel, hout⟩ := sink_shows key id peer scfg rcfg start frames steps
  exact (linked_of_honest h hfew).delivered
    (task_inv key id peer scfg rcfg start frames steps) hrel hout

/-- **What `Ok` from `send_all` means**: every frame it was given has reached
the sink under its own number, and the sink's outcome has been sent. -/
theorem send_all_ok {steps : List (Sender.Round ⊕ Entry.Step)}
    (h : Honest key id peer scfg rcfg start frames steps) (hfew : frames.length < 2 ^ 32 - 1)
    (hok : (deliveryRun key id peer scfg rcfg start frames steps).1.1.result = some (.ok ())) :
    (∀ i ts payload, frames[i]? = some (ts, payload) → ∃ frame,
        XferReceiver.firstArrival (Entry.callsOf key (rights steps)) (i + 1) = some frame
          ∧ frame.ts = ts ∧ frame.payload = payload)
      ∧ ∃ o, Entry.outcomes (rights (deliveryRun key id peer scfg rcfg start frames steps).2)
        = [o] := by
  have hlinked := linked_of_honest h hfew
  have htask := task_inv key id peer scfg rcfg start frames steps
  obtain ⟨-, hout⟩ := sink_shows key id peer scfg rcfg start frames steps
  exact ⟨fun i ts payload => hlinked.arrived_all htask hok, hlinked.outcome htask hok hout⟩

instance (steps : List (Sender.Round ⊕ Entry.Step)) :
    Decidable (Honest key id peer scfg rcfg start frames steps) :=
  decidable_of_iff _ Machine.forall_split_iff.symm

/-- A packet, sealed. -/
def carried (id : RequestId) (dir : Direction) (seq : UInt32) (body : Body) : Bytes :=
  (sealBody plainKey id dir seq body).toOption.getD []

/-- A packet of the tap arrives at the sink. -/
def arrives (seq : UInt32) (body : Body) (now : Instant) : Sender.Round ⊕ Entry.Step :=
  .inr (.datagram (carried zeroId .send seq body) ⟨[127, 0, 0, 1], 4001⟩ now ⟨true, true, now, now⟩)

/-- The tap polls, and a packet of the sink has come back. -/
def comesBack (seq : UInt32) (body : Body) (now : Instant) : Sender.Round ⊕ Entry.Step :=
  .inl { Sender.quietRound now with incoming := .datagram (carried zeroId .recv seq body) }

def threeFrames : List (TimestampMs × Bytes) := [(⟨0⟩, [1]), (⟨20⟩, [2]), (⟨40⟩, [3])]

/-- Of three frames the second is lost and the first comes twice. The sink
asks for the second, it is sent again, and the end is announced, arrives
and is acknowledged. -/
def lossySteps : List (Sender.Round ⊕ Entry.Step) :=
  [.inl (Sender.quietRound 0), .inl (Sender.quietRound 0), .inl (Sender.quietRound 0),
    arrives 1 (.data ⟨0⟩ [1]) (fromMillis 10), arrives 3 (.data ⟨40⟩ [3]) (fromMillis 20),
    arrives 1 (.data ⟨0⟩ [1]) (fromMillis 30), .inr (.tick (fromMillis 100) ⟨true, true, 0, 0⟩),
    .inl (Sender.quietRound (fromMillis 110)), comesBack 0 (.nack [⟨2⟩]) (fromMillis 120),
    arrives 2 (.data ⟨20⟩ [2]) (fromMillis 130), arrives 1 (.end ⟨3⟩) (fromMillis 140),
    comesBack 1 .endAck (fromMillis 150), .inl (Sender.quietRound (fromMillis 160))]

theorem reliable_stream_delivered_lossy :
    let t := rights (deliveryRun plainKey zeroId ⟨[127, 0, 0, 1], 4000⟩ {} .cacheWorker 0
      threeFrames lossySteps).2
    untagged (Entry.relFrames t) = threeFrames ∧ (XferSeq.ofNat 3).toNat = threeFrames.length :=
  (reliable_stream_delivered (by decide +kernel) (by decide)).2.2 _
    (by decide +kernel)

/-- The frame that was lost has reached the sink. -/
theorem send_all_ok_lossy :
    (∃ frame, XferReceiver.firstArrival (Entry.callsOf plainKey (rights lossySteps)) 2 = some frame
        ∧ frame.ts = ⟨20⟩ ∧ frame.payload = [2])
      ∧ ∃ o, Entry.outcomes (rights (deliveryRun plainKey zeroId ⟨[127, 0, 0, 1], 4000⟩ {}
        .cacheWorker 0 threeFrames lossySteps).2) = [o] := by
  have hok := @send_all_ok plainKey zeroId ⟨[127, 0, 0, 1], 4000⟩ {} .cacheWorker 0 threeFrames
    lossySteps (by decide +kernel) (by decide) (by decide +kernel)
  exact ⟨hok.1 1 ⟨20⟩ [2] rfl, hok.2⟩

end Delivered

end Protofish4
