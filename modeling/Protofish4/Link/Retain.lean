import Protofish4.Link
import Protofish4.Xfer.ReceiverEvents

/-!
# What the receiver may still need stays in the ring

As long as the ring never overflows, entries leave it only on an `Ack`,
and every `Ack` in flight reports a segment the receiver has really
reached. So the ring holds everything above the receiver's segment, and
the floor its keepalives report never exceeds that segment.
-/

namespace Protofish4

variable {key : SessionKey} {id : RequestId}

/-- Nothing was lost on the way into the ring: every frame was sealed and
recorded, and no record evicted an entry. -/
def TxObs.retained : TxObs → Prop
  | .event _ => True
  | .recorded _ _ evicted => evicted = 0
  | .unsent _ _ => False

instance : DecidablePred TxObs.retained
  | .event _ => isTrue trivial
  | .recorded _ _ evicted => inferInstanceAs (Decidable (evicted = 0))
  | .unsent _ _ => isFalse (fun h => h)

def Retained (t : LinkTrace) : Prop := ∀ o ∈ Net.lefts t, o.retained

instance (t : LinkTrace) : Decidable (Retained t) :=
  inferInstanceAs (Decidable (∀ o ∈ Net.lefts t, o.retained))

/-- What is still above the floor of a ring. -/
def aboveFloor (r : RetransRing) (l : List (XferSeq × Bytes)) : List (XferSeq × Bytes) :=
  l.filter fun e => r.lostBelow < e.1.toNat

theorem filter_dropWhile {α : Type*} {p q : α → Bool} (h : ∀ a, p a = true → q a = false)
    (l : List α) : (l.dropWhile p).filter q = l.filter q := by
  induction l with
  | nil => rfl
  | cons a l ih =>
    cases hp : p a with
    | true => rw [List.dropWhile_cons_of_pos hp, ih, List.filter_cons_of_neg (by simp [h a hp])]
    | false => rw [List.dropWhile_cons_of_neg (by simp [hp])]

/-- An acknowledgement takes away only what it raises the floor over. -/
theorem aboveFloor_ackThrough (r : RetransRing) (c : XferSeq) :
    aboveFloor (r.ackThrough c) (r.ackThrough c).entries
      = aboveFloor (r.ackThrough c) r.entries := by
  rw [RetransRing.ackThrough_entries]
  refine filter_dropWhile (fun e he => ?_) _
  rw [RetransRing.ackThrough_lostBelow]
  simp only [decide_eq_true_eq] at he
  simp only [decide_eq_false_iff_not]
  omega

/-- The joint invariant: ring and record agree above the floor, and the
floor stays inside the receiver's segment. -/
structure Retain (t : LinkTrace) (x : XferSender) (y : Rx) : Prop where
  next : 1 ≤ x.nextSeq.toNat
  recorded : ∀ frame ∈ pushed t, 1 ≤ frame.seq.toNat ∧ ∃ d, (frame.seq, d) ∈ recordedIn t
  ring : aboveFloor x.ring x.ring.entries = aboveFloor x.ring (recordedIn t)
  floor_le : x.ring.lostBelow ≤ y.state.gaps.contiguous
  kept : .relFinished (.aborted .senderDiscarded) ∉ recvEvents t

/-- A keepalive in flight reports a floor inside the receiver's segment. -/
def ReportsFloor (key : SessionKey) (_ : LinkTrace) (_ : XferSender) (y : Rx) (m : Sent) : Prop :=
  ∀ seq l, openBody key .send m.bytes = some (seq, .keepalive l) →
    l.toNat ≤ y.state.gaps.contiguous

/-- An acknowledgement in flight reports a segment the receiver reached. -/
def ReportsSegment (key : SessionKey) (_ : LinkTrace) (_ : XferSender) (y : Rx) (m : Sent) :
    Prop :=
  ∀ seq c h b, openBody key .recv m.bytes = some (seq, .ack c h b) →
    c.toNat ≤ y.state.gaps.contiguous

theorem reportsFloor_of_seal {t : LinkTrace} {x : XferSender} {y : Rx} {seq : UInt32} {body : Body}
    {m : Sent} (hseal : sealBody key id .send seq body = .ok m.bytes)
    (hdir : body.kind.direction = .send)
    (h : ∀ l, body = .keepalive l → l.toNat ≤ y.state.gaps.contiguous) :
    ReportsFloor key t x y m := by
  intro seq' l hopen
  rw [openBody_sealBody hseal hdir] at hopen
  cases hopen
  exact h l rfl

/-- Every entry of the ring is the sealed packet of a payload frame. -/
def RingSealed (key : SessionKey) (id : RequestId) (x : XferSender) : Prop :=
  ∀ e ∈ x.ring.entries, ∃ ts payload, sealBody key id .send e.1.val (.data ts payload) = .ok e.2

theorem Retain.quiet {t : LinkTrace} {x x' : XferSender} {y : Rx}
    (h : Retain t x y ∧ RingSealed key id x) (now : Instant) (es : List SendEvent)
    (hnext : x'.nextSeq = x.nextSeq)
    (hring : ∀ e ∈ x'.ring.entries, e ∈ x.ring.entries)
    (hagree : aboveFloor x'.ring x'.ring.entries = aboveFloor x'.ring (recordedIn t))
    (hfloor : x'.ring.lostBelow ≤ y.state.gaps.contiguous)
    (hemit : ∀ seq body, .emit seq body ∈ es → body.kind ≠ .data ∧ body.kind.direction = .send
      ∧ ∀ l, body = .keepalive l → l.toNat ≤ y.state.gaps.contiguous)
    (hresend : ∀ ds, .resend ds ∈ es → ∀ d ∈ ds, ∃ s, (s, d) ∈ x.ring.entries) :
    Net.LeftKeeps (fun t x y => Retain t x y ∧ RingSealed key id x) (ReportsFloor key)
      (ReportsSegment key) t x y (transmitAll key id now x' es) := by
  obtain ⟨hs, hframes, hrec, hsent⟩ := transmitAll_sendsFrom key id now x' es
    fun seq body he => (hemit seq body he).1
  refine ⟨⟨⟨?_, ?_, ?_, ?_, ?_⟩, ?_⟩, ?_, fun m hm => hm, fun m hm => hm⟩
  · rw [hs, hnext]
    exact h.1.next
  · rw [pushed_append, recordedIn_append, pushed_inl, recordedIn_inl, hframes, hrec,
      List.append_nil, List.append_nil]
    exact h.1.recorded
  · rw [hs, recordedIn_append, recordedIn_inl, hrec, List.append_nil]
    exact hagree
  · rw [hs]
    exact hfloor
  · rw [recvEvents_append, recvEvents_inl, List.append_nil]
    exact h.1.kept
  · rw [hs]
    exact fun e he => h.2 e (hring e he)
  · intro m hm
    rcases (hsent m hm).2 with ⟨seq, body, he, hd⟩ | ⟨ds, hds, hd⟩
    · obtain ⟨-, hdir, hl⟩ := hemit seq body he
      exact reportsFloor_of_seal hd hdir hl
    · obtain ⟨s, hmem⟩ := hresend ds hds m.bytes hd
      obtain ⟨ts, payload, hseal⟩ := h.2 _ hmem
      exact reportsFloor_of_seal hseal rfl fun l hl => by cases hl

theorem Retain.push {t : LinkTrace} {x : XferSender} {y : Rx}
    (h : Retain t x y ∧ RingSealed key id x) (first : Option Instant) (ts : TimestampMs)
    (payload : Bytes) (now : Instant)
    (hret : Retained ((transmitAll key id now
      { x with nextSeq := x.nextSeq.next, firstDataAt := first }
      [.emit x.nextSeq (.data ts payload)]).events.map .inl)) :
    Net.LeftKeeps (fun t x y => Retain t x y ∧ RingSealed key id x) (ReportsFloor key)
      (ReportsSegment key) t x y
      (transmitAll key id now { x with nextSeq := x.nextSeq.next, firstDataAt := first }
        [.emit x.nextSeq (.data ts payload)]) := by
  generalize hx' : ({ x with nextSeq := x.nextSeq.next, firstDataAt := first } : XferSender) = x'
    at hret ⊢
  have hring' : x'.ring = x.ring := by rw [← hx']
  have hnext' : 1 ≤ x'.nextSeq.toNat := by
    rw [← hx']
    show 1 ≤ x.nextSeq.next.toNat
    rw [XferSeq.toNat_next]
    omega
  unfold Retained at hret
  rw [Net.lefts_map_inl] at hret
  rcases transmitAll_data key id now x' x.nextSeq ts payload with
    ⟨e, he, -, -⟩ | ⟨d, hd, he, hst, hsent⟩
  · rw [he] at hret
    -- what could not be sealed was not retained
    exact absurd (hret (.unsent x.nextSeq e) (by simp)) (by simp [TxObs.retained])
  · rw [he] at hret
    have hkeep := hret _ (List.mem_cons_of_mem _ List.mem_cons_self)
    have hlen : x'.ring.entries.length + 1 ≤ (x'.ring.push x.nextSeq d).entries.length := by
      simp only [TxObs.retained, XferSender.recordSealed] at hkeep
      omega
    -- nothing was pushed out, so the floor stays
    obtain ⟨hentries, hlost⟩ := RetransRing.push_of_length hlen
    have hframes : pushed
        ((transmitAll key id now x' [.emit x.nextSeq (.data ts payload)]).events.map
        (.inl : TxObs → TxObs ⊕ RxObs)) = [⟨x.nextSeq, ts, payload⟩] := by
      rw [pushed_inl, he]
      rfl
    have hrecord : recordedIn ((transmitAll key id now x'
        [.emit x.nextSeq (.data ts payload)]).events.map (.inl : TxObs → TxObs ⊕ RxObs))
        = [(x.nextSeq, d)] := by
      rw [recordedIn_inl, he]
      rfl
    refine ⟨⟨⟨?_, ?_, ?_, ?_, ?_⟩, ?_⟩, ?_, fun m hm => hm, fun m hm => hm⟩
    · rw [hst]
      exact hnext'
    · intro frame hf
      rw [pushed_append, hframes] at hf
      rw [recordedIn_append, hrecord]
      rcases List.mem_append.mp hf with hf | hf
      · obtain ⟨h1, d', hd'⟩ := h.1.recorded frame hf
        exact ⟨h1, d', List.mem_append_left _ hd'⟩
      · cases List.mem_singleton.mp hf
        exact ⟨h.1.next, d, by simp⟩
    · rw [hst, recordedIn_append, hrecord]
      unfold aboveFloor XferSender.recordSealed
      simp only
      rw [hentries, hlost, List.filter_append, List.filter_append, hring']
      have hagree := h.1.ring
      unfold aboveFloor at hagree
      rw [hagree]
    · rw [hst]
      show (x'.ring.push x.nextSeq d).lostBelow ≤ _
      rw [hlost, hring']
      exact h.1.floor_le
    · rw [recvEvents_append, recvEvents_inl, List.append_nil]
      exact h.1.kept
    · rw [hst]
      intro e' he'
      rcases RetransRing.mem_push he' with he' | rfl
      · exact h.2 e' (hring' ▸ he')
      · exact ⟨ts, payload, hd⟩
    · intro m hm
      rw [hsent] at hm
      cases List.mem_singleton.mp hm
      exact reportsFloor_of_seal hd rfl fun l hl => by cases hl

theorem Retain.act {t : LinkTrace} {x : XferSender} {y : Rx}
    (h : Retain t x y ∧ RingSealed key id x) (hwf : y.state.gaps.WF) (i : TxAct)
    (hret : Retained (((txParty key id).act x i).events.map .inl)) :
    Net.LeftKeeps (fun t x y => Retain t x y ∧ RingSealed key id x) (ReportsFloor key)
      (ReportsSegment key) t x y ((txParty key id).act x i) := by
  have hidle : ∀ now, Net.LeftKeeps (fun t x y => Retain t x y ∧ RingSealed key id x)
      (ReportsFloor key) (ReportsSegment key) t x y (transmitAll key id now x []) :=
    fun now => Retain.quiet h now [] rfl (fun _ he => he) h.1.ring h.1.floor_le
      (fun _ _ he => by cases he) fun _ he => by cases he
  cases i with
  | pushFrame ts payload now =>
    change Retained ((transmitAll key id now (x.pushFrame ts payload now).1
      (x.pushFrame ts payload now).2.toList).events.map .inl) at hret
    show Net.LeftKeeps _ _ _ _ _ _ (transmitAll key id now _ _)
    rcases x.pushFrame_cases now ts payload with ⟨hp, -⟩ | ⟨-, hp1, hp2⟩
    · rw [hp]
      exact hidle now
    · rw [hp1, hp2] at hret ⊢
      exact Retain.push h _ ts payload now hret
  | finish now =>
    show Net.LeftKeeps _ _ _ _ _ _ (transmitAll key id now _ _)
    rcases x.finish_cases now with ⟨hf, -⟩ | ⟨-, -, hn, hr, seq, he⟩
    · rw [hf]
      exact hidle now
    · rw [he]
      refine Retain.quiet h now _ hn (fun e he => hr ▸ he) (by rw [hr]; exact h.1.ring)
        (by rw [hr]; exact h.1.floor_le) ?_ ?_
      · intro seq' body' hm
        cases List.mem_singleton.mp hm
        exact ⟨by simp [Body.kind], rfl, fun l hl => by cases hl⟩
      · intro ds hm
        cases List.mem_singleton.mp hm
  | tick now =>
    show Net.LeftKeeps _ _ _ _ _ _ (transmitAll key id now _ _)
    have hring : (x.tick now).1.ring = x.ring := by rw [x.tick_frame]
    refine Retain.quiet h now _ (by rw [x.tick_frame]) (fun e he => hring ▸ he)
      (by rw [hring]; exact h.1.ring) (by rw [hring]; exact h.1.floor_le) ?_ ?_
    · intro seq body hm
      rw [x.tick_emit now hm]
      refine ⟨by simp [Body.kind], rfl, fun l hl => ?_⟩
      cases hl
      have hle := h.1.floor_le
      have hc := hwf.contiguous_le
      have hb := hwf.bound
      rw [XferSeq.toNat_ofNat (by omega)]
      exact hle
    · exact fun ds hm => absurd hm (x.resend_not_mem_tick now)

/-- Raising the floor keeps agreement above it. -/
theorem aboveFloor_mono {r r' : RetransRing} {l l' : List (XferSeq × Bytes)}
    (h : aboveFloor r l = aboveFloor r l') (hle : r.lostBelow ≤ r'.lostBelow) :
    aboveFloor r' l = aboveFloor r' l' := by
  have hsub : ∀ l, aboveFloor r' l = aboveFloor r' (aboveFloor r l) := by
    intro l
    simp only [aboveFloor, List.filter_filter]
    apply List.filter_congr
    intro e _
    by_cases hlt : r'.lostBelow < e.1.toNat
    · have : r.lostBelow < e.1.toNat := by omega
      simp [hlt, this]
    · simp [hlt]
  rw [hsub l, hsub l', h]

theorem Retain.receive {t : LinkTrace} {x : XferSender} {y : Rx}
    (h : Retain t x y ∧ RingSealed key id x) (now : Instant) (m : Sent)
    (hm : ReportsSegment key t x y m) :
    Net.LeftKeeps (fun t x y => Retain t x y ∧ RingSealed key id x) (ReportsFloor key)
      (ReportsSegment key) t x y ((txParty key id).receive x now m) := by
  simp only [txParty]
  split
  · exact Retain.quiet h now [] rfl (fun _ he => he) h.1.ring h.1.floor_le
      (fun _ _ he => by cases he) fun _ he => by cases he
  · rename_i seq body hopen
    refine Retain.quiet h now _ (by rw [x.handle_frame])
      (fun _ he => x.handle_ring_subset now body he) ?_ ?_ ?_ ?_
    · -- an `Ack` raises the floor of the ring to its contiguous prefix
      cases body with
      | ack c hi b =>
        show aboveFloor (x.ring.ackThrough c) (x.ring.ackThrough c).entries = _
        rw [aboveFloor_ackThrough]
        refine aboveFloor_mono h.1.ring ?_
        rw [RetransRing.ackThrough_lostBelow]
        exact Nat.le_max_left _ _
      | data | «end» | nack | endAck | keepalive => exact h.1.ring
    · cases body with
      | ack c hi b =>
        show (x.ring.ackThrough c).lostBelow ≤ _
        rw [RetransRing.ackThrough_lostBelow]
        exact Nat.max_le.mpr ⟨h.1.floor_le, hm _ _ _ _ hopen⟩
      | data | «end» | nack | endAck | keepalive => exact h.1.floor_le
    · exact fun seq b hmem => absurd hmem (x.emit_not_mem_handle now)
    · exact fun ds hmem d hd => x.held_of_resend now hmem hd

/-- The receiver's segment only grows, and it ends as discarded on no
report that stays inside it. -/
theorem Retain.observe {t : LinkTrace} {x : XferSender} {y : Rx}
    (h : Retain t x y ∧ RingSealed key id x) (hwf : y.state.gaps.WF) (now : Instant)
    (c : RecvCall)
    (hc : ∀ seq l now, c = .handle seq (.keepalive l) now → l.toNat ≤ y.state.gaps.contiguous) :
    Net.RightKeeps (fun t x y => Retain t x y ∧ RingSealed key id x) (ReportsFloor key)
      (ReportsSegment key) t x y (y.call key id now c) := by
  have hle : y.state.gaps.contiguous ≤ (y.call key id now c).state.state.gaps.contiguous := by
    rw [Rx.call_state]
    exact XferReceiver.contiguous_le_step hwf c
  refine ⟨⟨⟨h.1.next, ?_, ?_, h.1.floor_le.trans hle, ?_⟩, h.2⟩, ?_, ?_, ?_⟩
  · rw [pushed_append, recordedIn_append, pushed_inr, recordedIn_inr, List.append_nil,
      List.append_nil]
    exact h.1.recorded
  · rw [recordedIn_append, recordedIn_inr, List.append_nil]
    exact h.1.ring
  · rw [recvEvents_append, recvEvents_inr]
    intro hmem
    rcases List.mem_append.mp hmem with hmem | hmem
    · exact h.1.kept hmem
    · simp only [Rx.call, List.flatMap_cons, List.flatMap_nil, List.append_nil] at hmem
      obtain ⟨seq, l, now', rfl, hlt⟩ := XferReceiver.senderDiscarded_of_mem_step hmem
      exact absurd (hc seq l now' rfl) (by omega)
  · intro m hm seq c' hi b hopen
    obtain ⟨-, e, he, s, body, hbody, hseal⟩ := Rx.mem_reply hm
    cases e with
    | sendAck contiguous highest bufferedMs =>
      cases hbody
      rw [openBody_sealBody hseal rfl] at hopen
      cases hopen
      -- an `Ack` carries the prefix as it stands after the call
      obtain ⟨hcont, -⟩ := XferReceiver.sendAck_of_mem_step he
      have hwf' := XferReceiver.step_wf hwf c
      have h1 := hwf'.contiguous_le
      have h2 := hwf'.bound
      rw [Rx.call_state, hcont, XferSeq.toNat_ofNat (by omega)]
    | sendNack missing =>
      cases hbody
      rw [openBody_sealBody hseal rfl] at hopen
      cases hopen
    | sendEndAck =>
      cases hbody
      rw [openBody_sealBody hseal rfl] at hopen
      cases hopen
    | unreliable | reliable | relFinished | closed => cases hbody
  · exact fun m hm seq l hopen => (hm seq l hopen).trans hle
  · exact fun m hm seq c' hi b hopen => (hm seq c' hi b hopen).trans hle

theorem retain_start (scfg : SenderConfig) (rcfg : ReceiverConfig) (start : Instant) :
    Retain [] (XferSender.new scfg) (Rx.new rcfg start)
      ∧ RingSealed key id (XferSender.new scfg) :=
  ⟨⟨Nat.le_refl 1, (fun _ hf => by cases hf), rfl, Nat.le_refl 0, fun hm => by cases hm⟩,
    fun _ he => by cases he⟩

/-! ## Every run -/

section Run

variable (key : SessionKey) (id : RequestId) (scfg : SenderConfig) (rcfg : ReceiverConfig)
variable (start : Instant)

theorem Retained.of_append {t u : LinkTrace} (h : Retained (t ++ u)) : Retained t ∧ Retained u := by
  unfold Retained at h
  rw [Net.lefts_append] at h
  exact ⟨fun o ho => h o (List.mem_append_left _ ho), fun o ho => h o (List.mem_append_right _ ho)⟩

/-- **The joint invariant holds in every run** without a lost record. -/
theorem retain_run (ops : List LinkOp)
    (h : Retained (linkRun key id scfg rcfg start ops).2) :
    Net.Inv (fun t x y => Retain t x y ∧ RingSealed key id x) (ReportsFloor key)
      (ReportsSegment key) (linkRun key id scfg rcfg start ops).2
      (linkRun key id scfg rcfg start ops).1 := by
  have hwf : ∀ {ops t x y}, Net.At (txParty key id) (rxParty key id)
      (linkStart scfg rcfg start) ops t x y → y.state.gaps.WF := by
    intro ops t x y hat
    rw [← hat.right]
    exact (recvInv_link key id scfg rcfg start ops).wf
  refine Net.run_safe (fun ops => Retained (linkRun key id scfg rcfg start ops).2) ?_
    ⟨retain_start scfg rcfg start, (fun _ hm => by cases hm), fun _ hm => by cases hm⟩
    ?_ ?_ ?_ ?_ ops h
  · intro ops op hok
    unfold linkRun at hok
    rw [Net.run_concat_snd] at hok
    exact hok.of_append.1
  · intro ops t x y i hat hok hx
    refine Retain.act hx (hwf hat) i ?_
    unfold linkRun at hok
    rw [hat.act_left] at hok
    exact hok.of_append.2
  · intro ops t x y i hat _ hx
    cases i with
    | tick now => exact Retain.observe hx (hwf hat) now _ fun _ _ _ he => by cases he
    | setBufferedMs ms => exact Retain.observe hx (hwf hat) 0 _ fun _ _ _ he => by cases he
    | report occupancy =>
      have hkeep : Retain t x { y with report := occupancy } :=
        ⟨hx.1.next, hx.1.recorded, hx.1.ring, hx.1.floor_le, hx.1.kept⟩
      refine ⟨?_, (fun m hm => by cases hm), fun m hm => hm, fun m hm => hm⟩
      simpa [rxParty] using ⟨hkeep, hx.2⟩
  · intro ops t x y n now keep m hat _ hx hm
    exact Retain.receive hx now m hm
  · intro ops t x y n now keep m hat _ hx hm
    simp only [rxParty]
    split
    · refine ⟨?_, (fun m hm => by cases hm), fun m hm => hm, fun m hm => hm⟩
      simpa using hx
    · rename_i seq body hopen
      refine Retain.observe hx (hwf hat) now _ fun seq' l now' he => ?_
      cases he
      exact hm seq l hopen

/-- **Everything the receiver may still need stays retransmittable.** While
its reliable stream streams, a `Nack` that names a frame it has not
recorded gets back the datagram first recorded for that frame; and it
never aborts because the sender discarded something. -/
theorem unreceived_retransmittable (ops : List LinkOp)
    (h : Retained (linkRun key id scfg rcfg start ops).2) :
    let w := linkRun key id scfg rcfg start ops
    (w.1.right.state.relState = .streaming →
      ∀ frame ∈ pushed w.2, frame.seq.toNat ∉ w.1.right.state.gaps.seen →
        ∃ d, (recordedIn w.2).find? (fun e => e.1 = frame.seq) = some (frame.seq, d)
          ∧ w.1.left.ring.get frame.seq = some d
          ∧ ∀ missing now, frame.seq ∈ missing →
            (w.1.left.handle (.nack missing) now).2
              = [.resend (missing.filterMap w.1.left.ring.get)]
            ∧ d ∈ missing.filterMap w.1.left.ring.get)
      ∧ .relFinished (.aborted .senderDiscarded) ∉ recvEvents w.2 := by
  have hinv := (retain_run key id scfg rcfg start ops h).holds.1
  generalize linkRun key id scfg rcfg start ops = w at hinv
  refine ⟨fun _ frame hf hnot => ?_, hinv.kept⟩
  obtain ⟨h1, d', hd'⟩ := hinv.recorded frame hf
  have habove : w.1.left.ring.lostBelow < frame.seq.toNat := by
    by_contra hle
    exact hnot (GapTracker.filled_seen _ _ h1 ((not_lt.mp hle).trans hinv.floor_le))
  -- above the floor, looking up in the ring is looking up in the record
  have hfind : ∀ l : List (XferSeq × Bytes), (aboveFloor w.1.left.ring l).find?
      (fun e => e.1 = frame.seq) = l.find? fun e => e.1 = frame.seq := by
    intro l
    rw [aboveFloor, List.find?_filter]
    congr 1
    funext e
    by_cases he : e.1 = frame.seq
    · simp [he, habove]
    · simp [he]
  have hsome : ((recordedIn w.2).find? fun e => e.1 = frame.seq).isSome := by
    rw [List.find?_isSome]
    exact ⟨_, hd', by simp⟩
  obtain ⟨⟨s, d⟩, hd⟩ := Option.isSome_iff_exists.mp hsome
  have hs : s = frame.seq := by simpa using List.find?_some hd
  subst hs
  have hget : w.1.left.ring.get frame.seq = some d := by
    unfold RetransRing.get
    rw [← hfind, hinv.ring, hfind, hd]
    rfl
  refine ⟨d, hd, hget, fun missing now hmem => ?_⟩
  have hin : d ∈ missing.filterMap w.1.left.ring.get :=
    List.mem_filterMap.mpr ⟨frame.seq, hmem, hget⟩
  refine ⟨?_, hin⟩
  show (if (w.1.left.held missing).isEmpty then [] else
    [SendEvent.resend (w.1.left.held missing)]) = [SendEvent.resend (w.1.left.held missing)]
  rw [if_neg]
  intro hempty
  change d ∈ w.1.left.held missing at hin
  rw [List.isEmpty_iff.mp hempty] at hin
  cases hin

/-- A frame is lost, and the next one is delivered. -/
def lostFrameOps : List LinkOp :=
  [.left (.pushFrame ⟨20⟩ [1] 0), .left (.pushFrame ⟨40⟩ [2] 1), .dropRight 0,
    .deliverRight 0 2 false]

theorem unreceived_retransmittable_lost_frame :
    let w := linkRun plainKey zeroId {} .audioEngine 0 lostFrameOps
    ∃ d, (recordedIn w.2).find? (fun e => e.1 = .ofNat 1) = some (.ofNat 1, d)
      ∧ (w.1.left.handle (.nack [.ofNat 1]) 3).2 = [.resend [d]] := by
  obtain ⟨d, hd, hget, hnack⟩ := (unreceived_retransmittable plainKey zeroId {} .audioEngine 0
    lostFrameOps (by decide +kernel)).1 (by decide +kernel) ⟨.ofNat 1, ⟨20⟩, [1]⟩
    (by decide +kernel) (by decide +kernel)
  refine ⟨d, hd, ?_⟩
  rw [(hnack [.ofNat 1] 3 (by simp)).1]
  simp [hget]

end Run

end Protofish4
