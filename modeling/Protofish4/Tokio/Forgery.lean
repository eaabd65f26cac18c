import Protofish4.Wire
import Protofish4.Tokio.Endpoint

/-!
# Forged datagrams

What reaches `on_datagram` from the outside is any byte string. Under an
ideal cipher, only what the tap has sealed for a request gets past the tag,
so a run is the same with and without anything else. The peer of a transfer
is the source of its first datagram that opened, and every reply goes there.
-/

namespace Protofish4

/-! ## What one entry does -/

namespace Entry

theorem seal_out (e : Entry) (id : RequestId) (body : Body) :
    (∀ call, .sealed call ∈ (e.seal id body).effects → call.dir = .recv)
      ∧ ∀ d ∈ (e.seal id body).out, requestIdOf d = .ok id := by
  cases henc : encodeBody body with
  | error err => simp [«seal», henc]
  | ok plaintext =>
    have hcall : ∀ d, (SealCall.run e.key ⟨body.kind, id, e.controlSeq.val⟩ .recv plaintext).result
        = .ok d → requestIdOf d = .ok id := by
      intro d hd
      exact requestIdOf_sealBody (by rw [sealBody, henc]; exact hd)
    simp only [«seal», henc, List.mem_singleton]
    refine ⟨fun call hc => ?_, fun d hd => ?_⟩
    · cases hc
      rfl
    · split at hd
      · cases List.mem_singleton.mp hd
        exact hcall _ ‹_›
      · cases hd

theorem applyOne_out (e : Entry) (id : RequestId) (around : Around) (ev : RecvEvent) :
    (∀ call, .sealed call ∈ (e.applyOne id around ev).effects → call.dir = .recv)
      ∧ ∀ d ∈ (e.applyOne id around ev).out, requestIdOf d = .ok id := by
  cases ev with
  | unreliable f =>
    simp only [applyOne, deliverUnrel]
    split
    · simp
    · split <;> simp
  | reliable f => simp [applyOne]
  | sendNack missing => exact seal_out e id _
  | sendAck contiguous highest bufferedMs => exact seal_out e id _
  | sendEndAck => exact seal_out e id _
  | relFinished outcome =>
    simp only [applyOne]
    split <;> simp
  | closed => simp [applyOne]

/-- **What an entry seals** it seals as the sink, and what it sends shows
its own request. -/
theorem apply_out (e : Entry) (id : RequestId) (around : Around) (evs : List RecvEvent) :
    (∀ call, .sealed call ∈ (e.apply id around evs).effects → call.dir = .recv)
      ∧ ∀ d ∈ (e.apply id around evs).out, requestIdOf d = .ok id := by
  induction evs generalizing e with
  | nil => simp [apply]
  | cons ev evs ih =>
    obtain ⟨h1, h2⟩ := e.applyOne_out id around ev
    obtain ⟨h3, h4⟩ := ih (e.applyOne id around ev).entry
    simp only [apply, List.mem_append]
    exact ⟨fun call hc => hc.elim (h1 call) (h3 call), fun d hd => hd.elim (h2 d) (h4 d)⟩

/-- The source this datagram pins, if it opens. -/
def opened (key : SessionKey) (id : RequestId) : Endpoint.Step → Option SocketAddr
  | .datagram bytes source _ _ =>
    if requestIdOf bytes = .ok id ∧ (openBody key .send bytes).isSome then some source else none
  | _ => none

theorem onDatagram_key_peer (e : Entry) (id : RequestId) (bytes : Bytes) (source : SocketAddr)
    (now : Instant) (around : Around) :
    (e.onDatagram id bytes source now around).entry.key = e.key
      ∧ (e.onDatagram id bytes source now around).entry.peer
        = if (openBody e.key .send bytes).isSome then some (e.peer.getD source) else e.peer := by
  unfold onDatagram
  cases ho : openBody e.key .send bytes with
  | none => exact ⟨rfl, rfl⟩
  | some p => exact (apply_frame _ id around _).2

theorem tick_key_peer (e : Entry) (id : RequestId) (now : Instant) (around : Around) :
    (e.tick id now around).entry.key = e.key ∧ (e.tick id now around).entry.peer = e.peer :=
  (apply_frame _ id around _).2

end Entry

namespace Endpoint

open Machine (Inserted)

theorem mem_effectsOf_sent {id : RequestId} {p : Entry.Applied} {peer : SocketAddr} {d : Bytes} :
    .sent peer d ∈ effectsOf id p ↔ p.entry.peer = some peer ∧ d ∈ p.out := by
  unfold effectsOf replies
  cases p.entry.peer with
  | none => simp
  | some q =>
    simp
    tauto

theorem mem_effectsOf_entry {id id' : RequestId} {p : Entry.Applied} {f : Entry.Effect} :
    .entry id' f ∈ effectsOf id p ↔ id' = id ∧ f ∈ p.effects := by
  unfold effectsOf replies
  cases p.entry.peer with
  | none => simp [and_comm, eq_comm]
  | some q => simp [and_comm, eq_comm]

/-! ## What a tick does, entry by entry -/

/-- Each entry is ticked once, on its own. -/
theorem tickLoop_lookup (now : Instant) (around : RequestId → Around) {ids : List RequestId}
    (hnd : ids.Nodup) (m : AList fun _ : RequestId => Entry) (id : RequestId) :
    (tickLoop now around ids m).1.lookup id
      = if id ∈ ids then (m.lookup id).map fun e => (e.tick id now (around id)).entry
        else m.lookup id := by
  induction ids generalizing m with
  | nil => rfl
  | cons k ids ih =>
    obtain ⟨hk, hnd⟩ := List.nodup_cons.mp hnd
    simp only [tickLoop]
    cases he : m.lookup k with
    | none =>
      rw [ih hnd]
      by_cases hid : id = k
      · subst hid
        simp [hk, he]
      · simp [hid]
    | some e =>
      rw [ih hnd]
      by_cases hid : id = k
      · subst hid
        simp [hk, he, Assoc.lookup_replace _ he]
      · simp [hid, Assoc.lookup_replace_ne _ hid]

theorem tickLoop_effects {now : Instant} {around : RequestId → Around} {ids : List RequestId}
    (hnd : ids.Nodup) {m : AList fun _ : RequestId => Entry} {f : Effect}
    (hf : f ∈ (tickLoop now around ids m).2.1) :
    ∃ id ∈ ids, ∃ e, m.lookup id = some e ∧ f ∈ effectsOf id (e.tick id now (around id)) := by
  induction ids generalizing m with
  | nil => cases hf
  | cons k ids ih =>
    obtain ⟨hk, hnd⟩ := List.nodup_cons.mp hnd
    simp only [tickLoop] at hf
    cases he : m.lookup k with
    | none =>
      rw [he] at hf
      obtain ⟨id, hid, e, h⟩ := ih hnd hf
      exact ⟨id, List.mem_cons_of_mem k hid, e, h⟩
    | some e =>
      rw [he] at hf
      rcases List.mem_append.mp hf with hf | hf
      · exact ⟨k, List.mem_cons_self, e, he, hf⟩
      · obtain ⟨id, hid, e', he', h⟩ := ih hnd hf
        have hne : id ≠ k := fun heq => hk (heq ▸ hid)
        rw [Assoc.lookup_replace_ne _ hne] at he'
        exact ⟨id, List.mem_cons_of_mem k hid, e', he', h⟩

/-- Whatever a tick does, it does for some entry. -/
theorem tick_effects {s : Endpoint} {now : Instant} {around : RequestId → Around} {f : Effect}
    (hf : f ∈ (s.tick now around).2) :
    ∃ id e, s.entries.lookup id = some e ∧ f ∈ effectsOf id (e.tick id now (around id)) := by
  obtain ⟨id, -, e, h⟩ := tickLoop_effects s.entries.keys_nodup hf
  exact ⟨id, e, h⟩

/-- An entry found after a tick was found before it. -/
theorem tick_lookup {s : Endpoint} {now : Instant} {around : RequestId → Around}
    {id : RequestId} {e' : Entry} (h : (s.tick now around).1.entries.lookup id = some e') :
    ∃ e, s.entries.lookup id = some e ∧ e' = (e.tick id now (around id)).entry := by
  have hloop := Assoc.lookup_of_foldl_erase _ _ h
  rw [tickLoop_lookup now around s.entries.keys_nodup] at hloop
  split at hloop
  · obtain ⟨e, he, heq⟩ := Option.map_eq_some_iff.mp hloop
    exact ⟨e, he, heq.symm⟩
  · rename_i hnot
    have hnone : s.entries.lookup id = none := AList.lookup_eq_none.mpr hnot
    rw [hnone] at hloop
    cases hloop

/-- Whatever a datagram does, it does for the entry it is routed to. -/
theorem onDatagram_effects {s : Endpoint} {bytes : Bytes} {source : SocketAddr} {now : Instant}
    {around : Around} {f : Effect} (hf : f ∈ (s.onDatagram bytes source now around).2) :
    ∃ id e, requestIdOf bytes = .ok id ∧ s.entries.lookup id = some e
      ∧ f ∈ effectsOf id (e.onDatagram id bytes source now around) := by
  unfold onDatagram at hf
  split at hf
  · cases hf
  · rename_i id hid
    split at hf
    · cases hf
    · rename_i e he
      exact ⟨id, e, hid, he, hf⟩

theorem onDatagram_lookup {s : Endpoint} {bytes : Bytes} {source : SocketAddr} {now : Instant}
    {around : Around} {id : RequestId} {e' : Entry}
    (h : (s.onDatagram bytes source now around).1.entries.lookup id = some e') :
    ∃ e, s.entries.lookup id = some e
      ∧ e' = if requestIdOf bytes = .ok id then (e.onDatagram id bytes source now around).entry
        else e := by
  unfold onDatagram at h
  split at h
  · rename_i err hid
    exact ⟨e', h, by simp [hid]⟩
  · rename_i id' hid
    split at h
    · rename_i hnone
      have hne : id' ≠ id := by
        rintro rfl
        rw [hnone] at h
        cases h
      exact ⟨e', h, by simp [hid, hne]⟩
    · rename_i e he
      by_cases heq : id = id'
      · subst heq
        rw [Assoc.lookup_replace _ he] at h
        cases h
        exact ⟨e, he, by simp [hid]⟩
      · rw [Assoc.lookup_replace_ne _ heq] at h
        exact ⟨e', h, by simp [hid, Ne.symm heq]⟩

/-! ## The peer of a transfer -/

/-- The source of the first of these datagrams that opens for a request. -/
def firstOpened (key : SessionKey) (id : RequestId) (steps : List Step) : Option SocketAddr :=
  steps.findSome? (Entry.opened key id)

theorem firstOpened_append (key : SessionKey) (id : RequestId) (steps more : List Step) :
    firstOpened key id (steps ++ more)
      = (firstOpened key id steps).or (firstOpened key id more) := List.findSome?_append

/-- The transfer of `id` that is under way after `steps`: armed with `key`,
`since` being what happened from then on, and never removed meanwhile. -/
structure Transfer (steps : List Step) (id : RequestId) (key : SessionKey) (since : List Step) :
    Prop where
  armed : ∃ pre cfg now, steps = pre ++ .arm id key cfg now :: since
    ∧ (run bind pre).1.entries.lookup id = none
    ∧ ∀ n, ((run bind (pre ++ .arm id key cfg now :: since.take n)).1.entries.lookup id).isSome

/-- What a step leaves of an entry: its key, and its peer, unless that is
the one it pins. -/
theorem step_peer {s : Endpoint} {x : Step} {id : RequestId} {e' : Entry}
    (h : (s.step x).1.entries.lookup id = some e') :
    (∃ e, s.entries.lookup id = some e ∧ e'.key = e.key
        ∧ e'.peer = e.peer.or (Entry.opened e.key id x))
      ∨ ∃ key cfg now, x = .arm id key cfg now ∧ s.entries.lookup id = none
        ∧ e' = Entry.new key cfg now := by
  -- the steps that pin nobody
  have hkept : ∀ e, s.entries.lookup id = some e → e'.key = e.key → e'.peer = e.peer →
      Entry.opened e.key id x = none → ∃ e, s.entries.lookup id = some e ∧ e'.key = e.key
        ∧ e'.peer = e.peer.or (Entry.opened e.key id x) :=
    fun e he hk hp ho => ⟨e, he, hk, by rw [ho, Option.or_none, hp]⟩
  cases x with
  | arm id' key cfg now =>
    simp only [step, arm] at h
    split at h
    · exact Or.inl (hkept e' h rfl rfl rfl)
    · rename_i hnone
      by_cases hid : id = id'
      · subst hid
        rw [AList.lookup_insert] at h
        cases h
        exact Or.inr ⟨key, cfg, now, rfl, by simpa using hnone, rfl⟩
      · rw [AList.lookup_insert_ne hid] at h
        exact Or.inl (hkept e' h rfl rfl rfl)
  | dropArmed id' => exact Or.inl (hkept e' h rfl rfl rfl)
  | disarm n =>
    left
    simp only [step, disarm] at h
    split at h
    · exact hkept e' h rfl rfl rfl
    · exact hkept e' (Assoc.lookup_of_erase h) rfl rfl rfl
  | datagram bytes source now around =>
    left
    -- only a datagram that opens in this entry pins its source
    obtain ⟨e, he, heq⟩ := onDatagram_lookup h
    obtain ⟨hk, hp⟩ := e.onDatagram_key_peer id bytes source now around
    refine ⟨e, he, ?_⟩
    simp only [Entry.opened]
    by_cases hid : requestIdOf bytes = .ok id
    · rw [if_pos hid] at heq
      rw [heq, hk, hp]
      refine ⟨rfl, ?_⟩
      by_cases ho : (openBody e.key .send bytes).isSome
      · rw [if_pos ho, if_pos ⟨hid, ho⟩]
        cases e.peer <;> rfl
      · rw [if_neg ho, if_neg (fun h => ho h.2), Option.or_none]
    · rw [if_neg hid] at heq
      rw [heq, if_neg (fun h => hid h.1), Option.or_none]
      exact ⟨rfl, rfl⟩
  | tick now around =>
    left
    obtain ⟨e, he, rfl⟩ := tick_lookup h
    obtain ⟨hk, hp⟩ := e.tick_key_peer id now (around id)
    exact hkept e he hk hp rfl
  | setPlayheadMs id' ms now =>
    left
    simp only [step, setPlayheadMs] at h
    split at h
    · exact hkept e' h rfl rfl rfl
    · rename_i e he
      by_cases hid : id = id'
      · subst hid
        rw [Assoc.lookup_replace _ he] at h
        cases h
        exact hkept e he rfl rfl rfl
      · rw [Assoc.lookup_replace_ne _ hid] at h
        exact hkept e' h rfl rfl rfl

/-- **Every entry** belongs to one transfer, and its peer is the source of
the first datagram that opened in it. -/
theorem transfer_run (steps : List Step) {id : RequestId} {e : Entry}
    (h : (run bind steps).1.entries.lookup id = some e) :
    ∃ since, Transfer steps id e.key since ∧ e.peer = firstOpened e.key id since := by
  induction steps using List.reverseRecOn generalizing e with
  | nil => cases h
  | append_singleton steps x ih =>
    have hsome := Option.isSome_iff_exists.mpr ⟨e, h⟩
    rw [run_concat] at h
    rcases step_peer h with ⟨e₀, he₀, hk, hp⟩ | ⟨key, cfg, now, rfl, hnone, rfl⟩
    · obtain ⟨since, ⟨pre, cfg, now, heq, hnone, halive⟩, hpeer⟩ := ih he₀
      have happ : steps ++ [x] = pre ++ .arm id e₀.key cfg now :: (since ++ [x]) := by
        rw [heq]
        simp
      refine ⟨since ++ [x], ⟨pre, cfg, now, hk ▸ happ, hnone, fun n => ?_⟩, ?_⟩
      · rw [hk]
        rcases Nat.lt_or_ge since.length n with hn | hn
        · rw [List.take_of_length_le (by simp; omega), ← happ]
          exact hsome
        · rw [List.take_append_of_le_length hn]
          exact halive n
      · rw [hp, hpeer, hk, firstOpened_append]
        congr 1
        simp [firstOpened, List.findSome?]
        cases Entry.opened e₀.key id x <;> rfl
    · refine ⟨[], ⟨steps, cfg, now, rfl, hnone, fun n => ?_⟩, rfl⟩
      rw [List.take_nil]
      exact hsome

/-- **Replies** go to the source that the transfer has pinned by then. -/
theorem sent_step {before : List Step} {x : Step} {peer : SocketAddr} {d : Bytes}
    (h : .sent peer d ∈ ((run bind before).1.step x).2) :
    ∃ id key since, Transfer before id key since ∧ requestIdOf d = .ok id
      ∧ firstOpened key id (since ++ [x]) = some peer := by
  have hreply : ∀ id e (p : Entry.Applied), (run bind before).1.entries.lookup id = some e →
      p.entry.peer = e.peer.or (Entry.opened e.key id x) →
      (∀ d ∈ p.out, requestIdOf d = .ok id) → .sent peer d ∈ effectsOf id p →
      ∃ id key since, Transfer before id key since ∧ requestIdOf d = .ok id
        ∧ firstOpened key id (since ++ [x]) = some peer := by
    intro id e p he hp hout hmem
    obtain ⟨hpeer, hd⟩ := mem_effectsOf_sent.mp hmem
    obtain ⟨since, htransfer, hfirst⟩ := transfer_run before he
    refine ⟨id, e.key, since, htransfer, hout d hd, ?_⟩
    rw [firstOpened_append, ← hfirst, ← hpeer, hp]
    congr 1
    simp only [firstOpened, List.findSome?]
    cases Entry.opened e.key id x <;> rfl
  cases x with
  | datagram bytes source now around =>
    obtain ⟨id, e, hid, he, hmem⟩ := onDatagram_effects h
    have hp := (e.onDatagram_key_peer id bytes source now around).2
    refine hreply id e _ he ?_ (fun d hd => ?_) hmem
    · rw [hp]
      simp only [Entry.opened]
      by_cases ho : (openBody e.key .send bytes).isSome
      · rw [if_pos ho, if_pos ⟨hid, ho⟩]
        cases e.peer <;> rfl
      · rw [if_neg ho, if_neg (fun h => ho h.2), Option.or_none]
    · unfold Entry.onDatagram at hd
      split at hd
      · cases hd
      · exact (Entry.apply_out _ id around _).2 d hd
  | tick now around =>
    obtain ⟨id, e, he, hmem⟩ := tick_effects h
    refine hreply id e (e.tick id now (around id)) he ?_ ?_ hmem
    · rw [(e.tick_key_peer id now (around id)).2]
      exact (Option.or_none ..).symm
    · exact (Entry.apply_out _ id (around id) _).2
  | arm | dropArmed | disarm | setPlayheadMs => cases h

/-! ## What gets past the tag -/

/-- The seal calls of the endpoint itself, its replies. -/
def Replied (steps : List Step) (call : SealCall) : Prop :=
  ∃ id, .entry id (.sealed call) ∈ (run bind steps).2

/-- The endpoint seals as the sink only. -/
theorem Replied.dir {steps : List Step} {call : SealCall} (h : Replied steps call) :
    call.dir = .recv := by
  obtain ⟨id, h⟩ := h
  obtain ⟨before, x, after, -, hmem⟩ := (Machine.mem_run step).mp h
  cases x with
  | datagram bytes source now around =>
    obtain ⟨id', e, -, -, hmem⟩ := onDatagram_effects hmem
    obtain ⟨-, hmem⟩ := mem_effectsOf_entry.mp hmem
    unfold Entry.onDatagram at hmem
    split at hmem
    · cases hmem
    · exact (Entry.apply_out _ id' around _).1 call hmem
  | tick now around =>
    obtain ⟨id', e, -, hmem⟩ := tick_effects hmem
    exact (Entry.apply_out _ id' (around id') _).1 call (mem_effectsOf_entry.mp hmem).2
  | arm | dropArmed | disarm | setPlayheadMs => cases hmem

/-- **An ideal cipher**, for the keys armed and the datagrams delivered in
a run: under such a key the tag verifies only on what a holder of it, tap
or endpoint, has sealed, under the same nonce and associated data. -/
def IdealAead (tap : Set SealCall) (steps : List Step) : Prop :=
  ∀ id key cfg armedAt, .arm id key cfg armedAt ∈ steps →
  ∀ bytes source now around, .datagram bytes source now around ∈ steps →
  ∀ header ciphertext dir plaintext, bytes = Header.toBytes header ++ ciphertext →
    key.decrypt (nonceFor dir header.kind.seqClass header.seq) header.toBytes ciphertext
      = some plaintext →
    ∃ call, (call ∈ tap ∨ Replied steps call)
      ∧ call.nonce = nonceFor dir header.kind.seqClass header.seq
      ∧ call.header = header ∧ call.result = .ok bytes

/-- Byte-identical to a datagram the tap has sealed, in the sending
direction, for the request it is routed to. -/
def Genuine (tap : Set SealCall) (bytes : Bytes) : Prop :=
  ∃ call ∈ tap, call.dir = .send ∧ call.result = .ok bytes
    ∧ requestIdOf bytes = .ok call.header.requestId

/-- A datagram that is not genuine, from anywhere, at any time. -/
def Forged (tap : Set SealCall) : Step → Prop
  | .datagram bytes _ _ _ => ¬ Genuine tap bytes
  | _ => False

/-- What opens as the tap's writing is genuine: a reply of our own was
sealed under a nonce of the other direction. -/
theorem genuine_of_opens {tap : Set SealCall} {steps : List Step} (h : IdealAead tap steps)
    {id : RequestId} {key : SessionKey} {cfg : ReceiverConfig} {armedAt : Instant}
    (harm : .arm id key cfg armedAt ∈ steps) {bytes : Bytes} {source : SocketAddr} {now : Instant}
    {around : Around} (hdatagram : .datagram bytes source now around ∈ steps)
    (hopens : (openBody key .send bytes).isSome) : Genuine tap bytes := by
  cases hopen : openDatagram key bytes .send with
  | error err =>
    unfold openBody at hopens
    rw [hopen] at hopens
    cases hopens
  | ok p =>
    obtain ⟨header, plaintext⟩ := p
    obtain ⟨hseal, -⟩ := seal_of_openDatagram hopen
    unfold SessionKey.seal at hseal
    simp only at hseal
    split at hseal
    · rename_i ciphertext hc
      cases hseal
      obtain ⟨call, hcall, hnonce, hheader, hresult⟩ := h id key cfg armedAt harm _ source now
        around hdatagram header ciphertext .send plaintext rfl (key.decrypt_encrypt hc)
      obtain ⟨hdir, -, -⟩ := nonceFor_inj hnonce
      refine ⟨call, ?_, hdir, hresult, ?_⟩
      · refine hcall.resolve_right fun hreply => ?_
        rw [hreply.dir] at hdir
        cases hdir
      · rw [hheader]
        exact Header.peekRequestId_toBytes header ciphertext
    · cases hseal

/-- A datagram that does not open changes nothing, not even the order of
the entries. -/
theorem onDatagram_inert {s : Endpoint} {bytes : Bytes}
    (h : ∀ id e, s.entries.lookup id = some e → openBody e.key .send bytes = none)
    (source : SocketAddr) (now : Instant) (around : Around) :
    s.onDatagram bytes source now around = (s, []) := by
  unfold onDatagram
  split
  · rfl
  · rename_i id _
    split
    · rfl
    · rename_i e he
      have hquiet : e.onDatagram id bytes source now around = ⟨e, [], []⟩ := by
        simp only [Entry.onDatagram, h id e he]
      simp only [hquiet, h id e he, Option.isSome_none, Bool.false_eq_true, and_false, if_false,
        Assoc.replace_self he, effectsOf, List.map_nil, List.nil_append, replies]
      split <;> rfl

/-- Every key in use was armed. -/
def KeysArmed (steps : List Step) (s : Endpoint) : Prop :=
  ∀ id e, s.entries.lookup id = some e →
    ∃ cfg now, .arm id e.key cfg now ∈ steps

theorem KeysArmed.step {steps : List Step} {s : Endpoint} (h : KeysArmed steps s) {x : Step}
    (hx : x ∈ steps) : KeysArmed steps (s.step x).1 := by
  intro id e' he'
  rcases step_peer he' with ⟨e, he, hk, -⟩ | ⟨key, cfg, now, rfl, -, rfl⟩
  · rw [hk]
    exact h id e he
  · exact ⟨cfg, now, hx⟩

/-- **Forged traffic is invisible.** Under an ideal cipher, a run with
forged datagrams put in anywhere is the run without them: same entries,
same deliveries, same replies. And in any run every reply of a transfer
goes to the source of its first datagram that opened, and once there is
one, the entry's peer is that one for good. -/
theorem forged_invisible (tap : Set SealCall) (genuine steps : List Step)
    (hinserted : Inserted (Forged tap) genuine steps) (hideal : IdealAead tap steps) :
    run bind steps = run bind genuine
      ∧ (∀ before x after peer d, steps = before ++ x :: after →
        .sent peer d ∈ ((run bind before).1.step x).2 →
        ∃ id key since, Transfer before id key since ∧ requestIdOf d = .ok id
          ∧ firstOpened key id (since ++ [x]) = some peer)
      ∧ ∀ before after id e, steps = before ++ after →
        (run bind before).1.entries.lookup id = some e →
        ∃ since, Transfer before id e.key since
          ∧ ∀ n peer, firstOpened e.key id (since.take n) = some peer → e.peer = some peer := by
  refine ⟨?_, fun before x after peer d _ h => sent_step h, fun before after id e _ he => ?_⟩
  · refine Machine.run_inserted step (KeysArmed steps) hinserted (fun id e he => by cases he)
      (fun s x hx hs => hs.step hx) fun s x hx hs hforged => ?_
    cases x with
    | datagram bytes source now around =>
      refine onDatagram_inert (fun id e he => ?_) source now around
      obtain ⟨cfg, armedAt, harm⟩ := hs id e he
      by_contra hopens
      exact hforged (genuine_of_opens hideal harm hx (Option.isSome_iff_ne_none.mpr hopens))
    | arm | dropArmed | disarm | tick | setPlayheadMs => cases hforged
  · obtain ⟨since, htransfer, hpeer⟩ := transfer_run before he
    refine ⟨since, htransfer, fun n peer hfirst => ?_⟩
    rw [hpeer, ← List.take_append_drop n since, firstOpened_append, hfirst, Option.some_or]

/-- The tap's first frame, and the acknowledgement it is answered with. -/
def tapCall : SealCall := .run plainKey ⟨.data, zeroId, 1⟩ .send (u64Bytes 0 ++ [7])

def ackCall : SealCall :=
  .run plainKey ⟨.ack, zeroId, 0⟩ .recv (u32Bytes 1 ++ u32Bytes 1 ++ u16Bytes 0)

/-- A frame is delivered and acknowledged; then somebody sends three bytes,
and the acknowledgement comes back to the endpoint. -/
def reflectedSteps : List Step :=
  [.arm zeroId plainKey .audioEngine 0,
    .datagram (tapCall.result.toOption.getD []) ⟨[127, 0, 0, 1], 4000⟩ 0 ⟨true, true, 0, 0⟩,
    .tick (fromSecs 1) fun _ => ⟨true, true, fromSecs 1, fromSecs 1⟩,
    .datagram [4, 5, 6] ⟨[10, 0, 0, 9], 99⟩ (fromSecs 1) ⟨true, true, 0, 0⟩,
    .datagram (ackCall.result.toOption.getD []) ⟨[10, 0, 0, 9], 99⟩ (fromSecs 1)
      ⟨true, true, 0, 0⟩]

theorem forged_invisible_reflected :
    run bind reflectedSteps = run bind (reflectedSteps.take 3)
      ∧ (run bind reflectedSteps).2.length = 4 := by
  refine ⟨(forged_invisible {tapCall} (reflectedSteps.take 3) reflectedSteps ?_ ?_).1,
    by decide +kernel⟩
  · refine .keep _ (.keep _ (.keep _ (.add ?_ (.add ?_ .nil))))
    · rintro ⟨call, rfl, -, hres, -⟩
      revert hres
      decide +kernel
    · rintro ⟨call, rfl, -, hres, -⟩
      revert hres
      decide +kernel
  · intro id key cfg armedAt harm bytes source now around hdatagram header ciphertext dir plaintext
      hbytes hopen
    have hkey : key = plainKey := by
      simp only [reflectedSteps, List.mem_cons, List.not_mem_nil, or_false, reduceCtorEq,
        Step.arm.injEq] at harm
      exact harm.2.1
    subst hkey
    have hparse := Header.parse_toBytes header ciphertext
    rw [← hbytes] at hparse
    simp only [reflectedSteps, List.mem_cons, List.not_mem_nil, or_false, reduceCtorEq, false_or,
      Step.datagram.injEq] at hdatagram
    rcases hdatagram with ⟨rfl, -⟩ | ⟨rfl, -⟩ | ⟨rfl, -⟩
    · -- the tap's own datagram, which opens in its own direction only
      have hown : Header.parse (tapCall.result.toOption.getD [])
          = .ok (tapCall.header, (tapCall.result.toOption.getD []).drop headerLen) := by
        decide +kernel
      rw [hown] at hparse
      cases hparse
      cases dir with
      | send => exact ⟨tapCall, Or.inl rfl, rfl, rfl, by decide +kernel⟩
      | recv =>
        have hclosed : plainKey.decrypt (nonceFor .recv .data 1) tapCall.header.toBytes
            ((tapCall.result.toOption.getD []).drop headerLen) = none := by decide +kernel
        cases hclosed.symm.trans hopen
    · -- too short to have a header
      have herr : Header.parse [4, 5, 6] = .error (.truncated headerLen 3) := by decide +kernel
      rw [herr] at hparse
      cases hparse
    · -- the endpoint's own reply
      have hown : Header.parse (ackCall.result.toOption.getD [])
          = .ok (ackCall.header, (ackCall.result.toOption.getD []).drop headerLen) := by
        decide +kernel
      rw [hown] at hparse
      cases hparse
      cases dir with
      | send =>
        have hclosed : plainKey.decrypt (nonceFor .send .control 0) ackCall.header.toBytes
            ((ackCall.result.toOption.getD []).drop headerLen) = none := by decide +kernel
        cases hclosed.symm.trans hopen
      | recv =>
        exact ⟨ackCall, Or.inr ⟨zeroId, by decide +kernel⟩, rfl, rfl, by decide +kernel⟩

end Endpoint

end Protofish4
