import Protofish4.Link.Brake
import Protofish4.Link.Retain
import Protofish4.Xfer.Memory
import Protofish4.Xfer.Playback
import Protofish4.Xfer.Ring
import Protofish4.Xfer.Terminal

/-!
# How large the ring has to be

The receiver holds no frame more than its reorder window above its
segment, and the sender sends none more than its own window above what the
receiver has seen. So a ring with room for the two windows together never
evicts a frame that may still be asked for. The invariant is the sender's
own: how far its ring reaches, given that no `Ack` in flight is wider than
the reorder window.
-/

namespace Protofish4

variable {key : SessionKey} {id : RequestId}

/-- The longest payload packet: header, timestamp, payload and tag. -/
def maxDatagram : Nat := headerLen + (8 + maxPayload) + tagLen

/-- The tag is all that sealing adds to a message. -/
def SessionKey.AddsTag (key : SessionKey) : Prop :=
  ∀ n a m c, key.encrypt n a m = some c → c.length = m.length + tagLen

theorem length_sealed (htag : key.AddsTag) {seq : UInt32} {body : Body} {d : Bytes}
    (h : sealBody key id .send seq body = .ok d) : d.length ≤ maxDatagram := by
  obtain ⟨plaintext, c, henc, hc, rfl⟩ := sealBody_eq_ok h
  have hlen := length_encodeBody_le henc
  rw [List.length_append, Header.length_toBytes, htag _ _ _ _ hc, maxDatagram]
  have hmax : 8 + maxPayload = 1032 := rfl
  omega

/-! ## A push that fits -/

namespace RetransRing

variable {r : RetransRing}

/-- Within its budgets a push evicts nothing. -/
theorem push_of_fits (seq : XferSeq) {sealed : Bytes}
    (hlen : r.entries.length + 1 ≤ r.maxFrames) (hbytes : r.bytes + sealed.length ≤ r.maxBytes) :
    r.push seq sealed = { r with
      bytes := r.bytes + sealed.length
      entries := r.entries ++ [(seq, sealed)] } := by
  unfold push
  simp only [List.length_append, List.length_singleton, shrink]
  rw [if_neg (by omega)]

theorem length_le_of_between (hinc : (seqs r.entries).Pairwise (· < ·)) (lo hi : Nat)
    (h : ∀ e ∈ r.entries, lo < e.1.toNat ∧ e.1.toNat ≤ hi) : r.entries.length ≤ hi - lo := by
  have hcard := Tally.card_le_of_between (l := seqs r.entries) (hinc.imp fun hlt => hlt.ne)
    fun k hk => by
      obtain ⟨e, he, rfl⟩ := List.mem_map.mp hk
      exact h e he
  rwa [seqs, List.length_map] at hcard

theorem weight_le {entries : List (XferSeq × Bytes)} {b : Nat}
    (h : ∀ e ∈ entries, e.2.length ≤ b) : weight entries ≤ entries.length * b := by
  have hsum := List.sum_le_card_nsmul (entries.map fun e => e.2.length) b fun n hn => by
    obtain ⟨e, he, rfl⟩ := List.mem_map.mp hn
    exact h e he
  simpa [weight] using hsum

end RetransRing

/-! ## The reach of the ring -/

/-- How far the ring reaches: its entries lie between the floor and the last
number handed out, and these are at most two windows apart. -/
structure Reach (scfg : SenderConfig) (window : Nat) (x : XferSender) : Prop where
  cfg : x.cfg = scfg
  maxFrames : x.ring.maxFrames = max scfg.retransRingFrames 1
  maxBytes : x.ring.maxBytes = max scfg.retransRingBytes 1
  bytes : x.ring.bytes = RetransRing.weight x.ring.entries
  increasing : (RetransRing.seqs x.ring.entries).Pairwise (· < ·)
  between : ∀ e ∈ x.ring.entries, x.ring.lostBelow < e.1.toNat ∧ e.1.toNat < x.nextSeq.toNat
  small : ∀ e ∈ x.ring.entries, e.2.length ≤ maxDatagram
  ahead : x.nextSeq.toNat ≤ x.ackedHighest + scfg.maxOutstanding + 1
  /-- What the receiver has seen is a reorder window above its segment at most. -/
  lag : x.ackedHighest ≤ x.ring.lostBelow + window

/-- The ring has room for both windows. -/
structure Holds (scfg : SenderConfig) (window : Nat) : Prop where
  frames : scfg.maxOutstanding + window ≤ scfg.retransRingFrames
  bytes : (scfg.maxOutstanding + window) * maxDatagram ≤ scfg.retransRingBytes

instance (scfg : SenderConfig) (window : Nat) : Decidable (Holds scfg window) :=
  decidable_of_iff (scfg.maxOutstanding + window ≤ scfg.retransRingFrames
    ∧ (scfg.maxOutstanding + window) * maxDatagram ≤ scfg.retransRingBytes)
    ⟨fun h => ⟨h.1, h.2⟩, fun h => ⟨h.frames, h.bytes⟩⟩

namespace Reach

variable {scfg : SenderConfig} {window : Nat} {x : XferSender}

theorem new (scfg : SenderConfig) (window : Nat) : Reach scfg window (XferSender.new scfg) where
  cfg := rfl
  maxFrames := rfl
  maxBytes := rfl
  bytes := rfl
  increasing := List.Pairwise.nil
  between _ he := by cases he
  small _ he := by cases he
  ahead := by
    show 1 ≤ 0 + scfg.maxOutstanding + 1
    omega
  lag := Nat.zero_le _

/-- A call that leaves ring, numbering and window. -/
theorem of_same {x' : XferSender} (h : Reach scfg window x) (hcfg : x'.cfg = x.cfg)
    (hring : x'.ring = x.ring) (hnext : x'.nextSeq = x.nextSeq)
    (hacked : x'.ackedHighest = x.ackedHighest) : Reach scfg window x' where
  cfg := hcfg.trans h.cfg
  maxFrames := hring ▸ h.maxFrames
  maxBytes := hring ▸ h.maxBytes
  bytes := hring ▸ h.bytes
  increasing := hring ▸ h.increasing
  between := by
    rw [hring, hnext]
    exact h.between
  small := hring ▸ h.small
  ahead := by
    rw [hnext, hacked]
    exact h.ahead
  lag := by
    rw [hring, hacked]
    exact h.lag

/-- An open window leaves room in the ring for one more frame. -/
theorem fits (h : Reach scfg window x) (hholds : Holds scfg window) (hopen : x.canSend = true)
    {d : Bytes} (hd : d.length ≤ maxDatagram) :
    x.ring.entries.length + 1 ≤ x.ring.maxFrames ∧ x.ring.bytes + d.length ≤ x.ring.maxBytes := by
  have hout : x.outstanding < scfg.maxOutstanding := by
    rw [← h.cfg]
    unfold XferSender.canSend at hopen
    split at hopen
    · cases hopen
    · simpa using hopen
  unfold XferSender.outstanding at hout
  have hlen : x.ring.entries.length + 1 ≤ scfg.maxOutstanding + window := by
    have hle := RetransRing.length_le_of_between h.increasing x.ring.lostBelow
      (x.nextSeq.toNat - 1) fun e he => by
        have hb := h.between e he
        omega
    have hlag := h.lag
    omega
  have hframes := hholds.frames
  have hbytes := hholds.bytes
  have hweight := RetransRing.weight_le h.small
  have hall : (x.ring.entries.length + 1) * maxDatagram
      ≤ (scfg.maxOutstanding + window) * maxDatagram := Nat.mul_le_mul_right _ hlen
  rw [Nat.succ_mul] at hall
  rw [h.maxFrames, h.maxBytes, h.bytes]
  omega

/-- A frame goes out and into the ring; nothing leaves it. -/
theorem push (h : Reach scfg window x) (hholds : Holds scfg window) (hopen : x.canSend = true)
    (hnext : x.nextSeq.toNat < 2 ^ 32 - 1) (hlost : x.ring.lostBelow < x.nextSeq.toNat)
    (first : Option Instant) {d : Bytes} (hd : d.length ≤ maxDatagram) :
    Reach scfg window ({ x with nextSeq := x.nextSeq.next, firstDataAt := first }.recordSealed
      x.nextSeq d) := by
  obtain ⟨hlen, hbytes⟩ := h.fits hholds hopen hd
  have hpush := RetransRing.push_of_fits x.nextSeq hlen hbytes
  have hsucc : x.nextSeq.next.toNat = x.nextSeq.toNat + 1 := by
    rw [XferSeq.toNat_next]
    omega
  unfold XferSender.recordSealed
  simp only
  rw [hpush]
  refine ⟨h.cfg, h.maxFrames, h.maxBytes, ?_, ?_, ?_, ?_, ?_, h.lag⟩
  · simp [h.bytes]
  · simp only [RetransRing.seqs_append]
    refine List.pairwise_append.mpr ⟨h.increasing, List.pairwise_singleton _ _, ?_⟩
    intro a ha b hb
    obtain ⟨e, he, rfl⟩ := List.mem_map.mp ha
    cases List.mem_singleton.mp hb
    exact (h.between e he).2
  · intro e he
    simp only at he ⊢
    rw [hsucc]
    rcases List.mem_append.mp he with he | he
    · have hb := h.between e he
      omega
    · cases List.mem_singleton.mp he
      exact ⟨hlost, Nat.lt_succ_self _⟩
  · intro e he
    rcases List.mem_append.mp he with he | he
    · exact h.small e he
    · cases List.mem_singleton.mp he
      exact hd
  · unfold XferSender.canSend XferSender.outstanding at hopen
    split at hopen
    · cases hopen
    · simp only [decide_eq_true_eq] at hopen
      rw [h.cfg] at hopen
      show x.nextSeq.next.toNat ≤ x.ackedHighest + scfg.maxOutstanding + 1
      omega

/-- An `Ack` raises the floor at least as far behind as the reorder window
allows. -/
theorem onAck (h : Reach scfg window x) {c hi : XferSeq} (hnear : hi.toNat ≤ c.toNat + window)
    (b : UInt16) : Reach scfg window (x.onAck c hi b) := by
  obtain ⟨gone, hev, hgone, -⟩ := RetransRing.dropAcked_evicts x.ring.entries.length c x.ring
    (Nat.le_refl _)
  have hsuffix : (x.ring.ackThrough c).entries <:+ x.ring.entries :=
    ⟨gone, hev.entries.symm⟩
  have hlost := x.ring.ackThrough_lostBelow c
  have habove : ∀ e ∈ (x.ring.ackThrough c).entries, c.toNat < e.1.toNat := by
    have hup : x.ring.entries.Pairwise fun e e' =>
        decide (c.toNat < e.1.toNat) = true → decide (c.toNat < e'.1.toNat) = true :=
      (List.pairwise_map.mp h.increasing).imp fun hlt hc => by
        simp only [decide_eq_true_eq] at hc ⊢
        omega
    have hnot : (fun e : XferSeq × Bytes => decide (e.1.toNat ≤ c.toNat))
        = fun e => !decide (c.toNat < e.1.toNat) := by
      funext e
      rw [← decide_not]
      exact decide_eq_decide.mpr Nat.not_lt.symm
    rw [RetransRing.ackThrough_entries, hnot, Suffix.dropWhile_eq_filter hup]
    exact fun e he => of_decide_eq_true (List.mem_filter.mp he).2
  refine ⟨h.cfg, ?_, ?_, ?_, ?_, ?_, ?_, ?_, ?_⟩
  · exact hev.maxFrames.trans h.maxFrames
  · exact hev.maxBytes.trans h.maxBytes
  · exact hev.exact h.bytes
  · exact h.increasing.sublist (hsuffix.sublist.map _)
  · intro e he
    have hb := h.between e (hsuffix.subset he)
    have hc := habove e he
    show (x.ring.ackThrough c).lostBelow < e.1.toNat ∧ e.1.toNat < x.nextSeq.toNat
    omega
  · exact fun e he => h.small e (hsuffix.subset he)
  · have hahead := h.ahead
    show x.nextSeq.toNat ≤ (if hi.toNat > x.ackedHighest then hi.toNat else x.ackedHighest)
      + scfg.maxOutstanding + 1
    split <;> omega
  · have hlag := h.lag
    show (if hi.toNat > x.ackedHighest then hi.toNat else x.ackedHighest)
      ≤ (x.ring.ackThrough c).lostBelow + window
    split <;> omega

end Reach

/-! ## The reactions of the sender -/

/-- A packet that is not a payload packet always encodes, so carrying it out
leaves nothing unsent. -/
theorem transmitAll_retained {now : Instant} {x : XferSender} {es : List SendEvent}
    (h : ∀ seq body, .emit seq body ∈ es → body.kind ≠ .data ∧ ∃ p, encodeBody body = .ok p) :
    ∀ o ∈ (transmitAll key id now x es).events, o.retained := by
  induction es generalizing x with
  | nil =>
    intro o ho
    cases ho
  | cons e es ih =>
    intro o ho
    rcases List.mem_append.mp ho with ho | ho
    · cases e with
      | emit seq body =>
        obtain ⟨hkind, p, hp⟩ := h seq body List.mem_cons_self
        obtain ⟨d, hd⟩ := @sealBody_isOk key id .send seq.val body p hp
        simp only [transmit, hd, if_neg hkind] at ho
        cases List.mem_singleton.mp ho
        trivial
      | resend | completed | failed =>
        cases List.mem_singleton.mp ho
        trivial
    · exact ih (fun seq body hm => h seq body (List.mem_cons_of_mem _ hm)) o ho

theorem transmitAll_fitting {now : Instant} {x : XferSender} {seq : XferSeq} {ts : TimestampMs}
    {payload d : Bytes} (hd : sealBody key id .send seq.val (.data ts payload) = .ok d) :
    transmitAll key id now x [.emit seq (.data ts payload)]
      = ⟨x.recordSealed seq d, [.event (.emit seq (.data ts payload)), .recorded seq d
          (x.ring.entries.length + 1 - (x.recordSealed seq d).ring.entries.length)],
        [⟨now, d⟩]⟩ := by
  simp [transmitAll, transmit, hd, Body.kind]

/-- The joint invariant, for as long as the stream streams: nothing has been
lost on the way into the ring. -/
def Sized (scfg : SenderConfig) (window : Nat) (t : LinkTrace) (x : XferSender) (y : Rx) : Prop :=
  y.state.relState = .streaming → Reach scfg window x ∧ Retained t

/-- An `Ack` in flight from a stream that still streams is no wider than the
reorder window. -/
def Near (key : SessionKey) (window : Nat) (_ : LinkTrace) (_ : XferSender) (y : Rx) (m : Sent) :
    Prop :=
  y.state.relState = .streaming → ∀ seq c h b,
    openBody key .recv m.bytes = some (seq, .ack c h b) → h.toNat ≤ c.toNat + window

namespace Sized

variable {scfg : SenderConfig} {window : Nat} {t : LinkTrace} {x : XferSender} {y : Rx}

theorem retained_append {q : Net.Reaction XferSender Sent TxObs} (h : Retained t)
    (hq : ∀ o ∈ q.events, o.retained) : Retained (t ++ q.events.map .inl) := by
  intro o ho
  rw [Net.lefts_append, Net.lefts_map_inl] at ho
  rcases List.mem_append.mp ho with ho | ho
  · exact h o ho
  · exact hq o ho

theorem left (h : Sized scfg window t x y) {q : Net.Reaction XferSender Sent TxObs}
    (hq : y.state.relState = .streaming → Reach scfg window x →
      Reach scfg window q.state ∧ ∀ o ∈ q.events, o.retained) :
    Net.LeftKeeps (Sized scfg window) (fun _ _ _ _ => True) (Near key window) t x y q where
  holds hs := by
    obtain ⟨hreach, hret⟩ := h hs
    exact ⟨(hq hs hreach).1, retained_append hret (hq hs hreach).2⟩
  sent _ _ := trivial
  toRight _ _ := trivial
  toLeft _ hm := hm

/-- Events with no new frame, after a change that keeps the reach. -/
theorem quiet (h : Sized scfg window t x y) {now : Instant} {x' : XferSender}
    {es : List SendEvent}
    (hreach : y.state.relState = .streaming → Reach scfg window x → Reach scfg window x')
    (hes : ∀ seq body, .emit seq body ∈ es →
      body.kind ≠ .data ∧ ∃ p, encodeBody body = .ok p) :
    Net.LeftKeeps (Sized scfg window) (fun _ _ _ _ => True) (Near key window) t x y
      (transmitAll key id now x' es) := by
  refine h.left fun hs hr => ⟨?_, transmitAll_retained hes⟩
  rw [(transmitAll_sendsFrom key id now x' es fun seq body hm => (hes seq body hm).1).state]
  exact hreach hs hr

theorem act (h : Sized scfg window t x y) (hholds : Holds scfg window) (htag : key.AddsTag)
    (i : TxAct) (hnext : x.nextSeq.toNat = (pushed t).length + 1)
    (hfew : (pushed (t ++ ((txParty key id).act x i).events.map .inl)).length < 2 ^ 32 - 1)
    (hlost : x.ring.lostBelow < x.nextSeq.toNat)
    (hsmall : ∀ ts payload now, i = .pushFrame ts payload now → payload.length ≤ maxPayload) :
    Net.LeftKeeps (Sized scfg window) (fun _ _ _ _ => True) (Near key window) t x y
      ((txParty key id).act x i) := by
  cases i with
  | pushFrame ts payload now =>
    simp only [txParty] at hfew ⊢
    rcases x.pushFrame_cases now ts payload with ⟨hp, -⟩ | ⟨hopen, hp1, hp2⟩
    · rw [hp]
      exact h.quiet (fun _ hr => hr) fun _ _ hm => by cases hm
    · have henc : encodeBody (.data ts payload) = .ok (u64Bytes ts.val ++ payload) :=
        if_neg (not_lt.mpr (hsmall ts payload now rfl))
      obtain ⟨d, hd⟩ := @sealBody_isOk key id .send x.nextSeq.val _ _ henc
      have hlen := length_sealed htag hd
      rw [hp1, hp2, Option.toList_some, transmitAll_fitting hd] at hfew ⊢
      have hroom : x.nextSeq.toNat < 2 ^ 32 - 1 := by
        rw [pushed_append, pushed_inl, List.length_append] at hfew
        rw [hnext]
        exact hfew
      refine h.left fun _ hr => ⟨hr.push hholds hopen hroom hlost _ hlen, fun o ho => ?_⟩
      rcases List.mem_cons.mp ho with rfl | ho
      · trivial
      · -- the push has evicted nothing
        cases List.mem_singleton.mp ho
        obtain ⟨hframes, hbytes⟩ := hr.fits hholds hopen hlen
        have hpush := RetransRing.push_of_fits x.nextSeq hframes hbytes
        simp [TxObs.retained, XferSender.recordSealed, hpush]
  | finish now =>
    simp only [txParty]
    have hsame : (x.finish now).1.cfg = x.cfg ∧ (x.finish now).1.ring = x.ring
        ∧ (x.finish now).1.nextSeq = x.nextSeq
        ∧ (x.finish now).1.ackedHighest = x.ackedHighest := by
      unfold XferSender.finish
      split <;> exact ⟨rfl, rfl, rfl, rfl⟩
    obtain ⟨hcfg, hring, hn, hacked⟩ := hsame
    refine h.quiet (fun _ hr => hr.of_same hcfg hring hn hacked) fun seq body hm => ?_
    rcases x.finish_cases now with ⟨hf, -⟩ | ⟨-, -, -, -, seq', he⟩
    · rw [hf] at hm
      cases hm
    · rw [he] at hm
      cases List.mem_singleton.mp hm
      exact ⟨by simp [Body.kind], _, rfl⟩
  | tick now =>
    simp only [txParty]
    refine h.quiet (fun _ hr => hr.of_same ?_ ?_ ?_ ?_) fun seq body hm => ?_
    · rw [x.tick_frame]
    · rw [x.tick_frame]
    · rw [x.tick_frame]
    · rw [x.tick_frame]
    · rw [x.tick_emit now hm]
      exact ⟨by simp [Body.kind], _, rfl⟩

theorem receive (h : Sized scfg window t x y) (now : Instant) {m : Sent}
    (hm : Near key window t x y m) :
    Net.LeftKeeps (Sized scfg window) (fun _ _ _ _ => True) (Near key window) t x y
      ((txParty key id).receive x now m) := by
  simp only [txParty]
  split
  · exact h.left fun _ hr => ⟨hr, fun o ho => by cases ho⟩
  · rename_i seq body hopen
    have hnone : ∀ seq' body', .emit seq' body' ∈ (x.handle body now).2 →
        body'.kind ≠ .data ∧ ∃ p, encodeBody body' = .ok p :=
      fun _ _ he => absurd he (x.emit_not_mem_handle now)
    cases body with
    | ack c hi b => exact h.quiet (fun hs hr => hr.onAck (hm hs seq c hi b hopen) b) hnone
    | data | «end» | nack | endAck | keepalive =>
      exact h.quiet (fun _ hr => hr.of_same rfl rfl rfl rfl) hnone

/-- While the stream streams, an acknowledgement reports a receiver within
its reorder window. -/
theorem call {rcfg : ReceiverConfig} {start : Instant} (h : Sized scfg rcfg.reorderWindow t x y)
    (hproj : Projects rcfg start t y) (now : Instant) (c : RecvCall) :
    Net.RightKeeps (Sized scfg rcfg.reorderWindow) (fun _ _ _ _ => True)
      (Near key rcfg.reorderWindow) t x y (y.call key id now c) := by
  have hstate := @Rx.call_state key id now y c
  have hback : (y.call key id now c).state.state.relState = .streaming →
      y.state.relState = .streaming := by
    rw [hstate]
    exact (XferReceiver.step_ends y.state c).streaming_of
  refine ⟨fun hs => ?_, fun m hm hs seq c' hi b hopen => ?_, fun _ _ => trivial,
    fun m hm hs => hm (hback hs)⟩
  · obtain ⟨hreach, hret⟩ := h (hback hs)
    refine ⟨hreach, ?_⟩
    unfold Retained
    rw [Net.lefts_append, Net.lefts_map_inr, List.append_nil]
    exact hret
  · obtain ⟨e, he, seq', body, hbody, hopen'⟩ := Rx.open_of_mem_call hm
    rw [hopen'] at hopen
    cases hopen
    cases e with
    | sendAck c' hi b =>
      cases hbody
      obtain ⟨rfl, rfl⟩ := XferReceiver.sendAck_of_mem_step he
      -- the state after the call is that of a run of its own
      have hrun : (XferReceiver.run rcfg start (recvCalls t ++ [c])).1 = (y.state.step c).1 := by
        rw [XferReceiver.run_concat, hproj]
        rfl
      rw [hstate, ← hrun] at hs
      have hspan := ((XferReceiver.frugal_run rcfg start (recvCalls t ++ [c])).fits hs).span
      have hwf := (XferReceiver.recvInv_run rcfg start (recvCalls t ++ [c])).wf
      rw [GapTracker.windowSpan, XferReceiver.run_cfg] at hspan
      have hle := hwf.contiguous_le
      have hb := hwf.bound
      rw [← hrun, XferSeq.toNat_ofNat hb, XferSeq.toNat_ofNat (by omega)]
      omega
    | sendNack | sendEndAck | unreliable | reliable | relFinished | closed => cases hbody

theorem ignore (h : Sized scfg window t x y) {y' : Rx} (hy : y'.state = y.state) :
    Net.RightKeeps (Sized scfg window) (fun _ _ _ _ => True) (Near key window) t x y
      ⟨y', [], []⟩ := by
  refine ⟨fun hs => ?_, (fun _ hm => by cases hm), fun _ _ => trivial,
    fun m hm hs => hm (hy ▸ hs)⟩
  simpa using h (hy ▸ hs)

end Sized

/-! ## Every run -/

section Run

variable (key : SessionKey) (id : RequestId) (scfg : SenderConfig) (rcfg : ReceiverConfig)
variable (start : Instant)

/-- Every payload pushed is one that can be encoded. -/
def PayloadsFit (ops : List LinkOp) : Prop :=
  ∀ ts payload now, .left (.pushFrame ts payload now) ∈ ops → payload.length ≤ maxPayload

variable {key id scfg rcfg start}

/-- **The ring's reach, in every run.** -/
theorem sized_run (hholds : Holds scfg rcfg.reorderWindow) (htag : key.AddsTag)
    (ops : List LinkOp) (hfew : FewPushed key id scfg rcfg start ops) (hfit : PayloadsFit ops) :
    Net.Inv (Sized scfg rcfg.reorderWindow) (fun _ _ _ _ => True) (Near key rcfg.reorderWindow)
      (linkRun key id scfg rcfg start ops).2 (linkRun key id scfg rcfg start ops).1 := by
  have hproj : ∀ {ops t x y}, Net.At (txParty key id) (rxParty key id)
      (linkStart scfg rcfg start) ops t x y → Projects rcfg start t y := by
    intro ops t x y hat
    rw [← hat.trace, ← hat.right]
    exact projects_run key id scfg rcfg start ops
  refine Net.run_safe (fun ops => FewPushed key id scfg rcfg start ops ∧ PayloadsFit ops) ?_
    ⟨fun _ => ⟨Reach.new scfg _, fun _ ho => by cases ho⟩, fun _ _ => trivial,
      fun _ hm => by cases hm⟩ ?_ ?_ ?_ ?_ ops ⟨hfew, hfit⟩
  · exact fun ops op hok => ⟨hok.1.of_concat,
      fun ts payload now hm => hok.2 ts payload now (List.mem_append_left _ hm)⟩
  · intro ops t x y i hat hok hx
    -- numbers and floor are those of the frames pushed so far
    have hexact := (exact_run key id scfg rcfg start ops hok.1.of_concat).holds
    have hmutual : Mutual key id rcfg start (linkRun key id scfg rcfg start ops).2
        (linkRun key id scfg rcfg start ops).1.left (linkRun key id scfg rcfg start ops).1.right :=
      (mutual_run (sourceLike_txParty key id) (sinkLike_rxParty key id) scfg rcfg start ops).holds
    unfold linkRun at hexact hmutual
    rw [hat.trace, hat.left] at hexact hmutual
    have hnext := hexact.next
    have hfew := hok.1
    unfold FewPushed linkRun at hfew
    rw [hat.act_left] at hfew
    have hlost : x.ring.lostBelow < x.nextSeq.toNat := by
      rcases hmutual.lost with h0 | ⟨frame, hf, hle⟩
      · omega
      · obtain ⟨n, hn⟩ := List.mem_iff_getElem?.mp hf
        have hlt := (List.getElem?_eq_some_iff.mp hn).1
        have hnum := hexact.numbered n frame hn
        omega
    exact hx.act hholds htag i hnext hfew hlost fun ts payload now heq =>
      hok.2 ts payload now (by rw [heq]; simp)
  · intro ops t x y i hat hok hx
    cases i with
    | tick now => exact hx.call (hproj hat) now _
    | setBufferedMs ms => exact hx.call (hproj hat) 0 _
    | report occupancy => exact hx.ignore rfl
  · intro ops t x y n now keep m _ _ hx hm
    exact hx.receive now hm
  · intro ops t x y n now keep m hat hok hx _
    simp only [rxParty]
    split
    · exact hx.ignore rfl
    · exact hx.call (hproj hat) now _

/-- While the stream streams, nothing has been lost on the way into the ring. -/
theorem retained_of_streaming (hholds : Holds scfg rcfg.reorderWindow) (htag : key.AddsTag)
    {ops : List LinkOp} (hfew : FewPushed key id scfg rcfg start ops) (hfit : PayloadsFit ops)
    (hs : (linkRun key id scfg rcfg start ops).1.right.state.relState = .streaming) :
    Retained (linkRun key id scfg rcfg start ops).2 :=
  ((sized_run hholds htag ops hfew hfit).holds hs).2

/-- One more operation makes the receiver end, or the sender do something,
never both. -/
theorem step_one_sided (s : LinkState) (op : LinkOp) :
    let q := Net.step (txParty key id) (rxParty key id) s op
    Net.lefts q.2 = [] ∨ recvEvents q.2 = [] := by
  cases op with
  | left i => exact Or.inr (by simp [Net.step, Net.leftDoes])
  | deliverLeft n now keep =>
    refine Or.inr ?_
    simp only [Net.step]
    cases s.toLeft[n]? <;> simp [Net.leftDoes, recvEvents, Net.rights]
  | right i => exact Or.inl (by simp [Net.step, Net.rightDoes])
  | deliverRight n now keep =>
    refine Or.inl ?_
    simp only [Net.step]
    cases s.toRight[n]? <;> simp [Net.rightDoes, Net.lefts]
  | dropRight n => exact Or.inl rfl
  | dropLeft n => exact Or.inl rfl

/-- The stream is not given up for a discarded frame: up to the step that
gives it up, nothing has been lost, and that step is the receiver's. -/
theorem not_discarded (hholds : Holds scfg rcfg.reorderWindow) (htag : key.AddsTag)
    (ops : List LinkOp) (hfew : FewPushed key id scfg rcfg start ops) (hfit : PayloadsFit ops) :
    .relFinished (.aborted .senderDiscarded)
      ∉ recvEvents (linkRun key id scfg rcfg start ops).2 := by
  induction ops using List.reverseRecOn with
  | nil => simp [linkRun, Net.run, Machine.run, recvEvents, Net.rights]
  | append_singleton ops op ih =>
    intro hm
    have hbefore := ih hfew.of_concat fun ts payload now h =>
      hfit ts payload now (List.mem_append_left _ h)
    have hends := (recvInv_link key id scfg rcfg start ops).ends.countP_isOutcome
    have hends' := (recvInv_link key id scfg rcfg start (ops ++ [op])).ends.countP_isOutcome
    have hsplit : (linkRun key id scfg rcfg start (ops ++ [op])).2
        = (linkRun key id scfg rcfg start ops).2 ++ (Net.step (txParty key id) (rxParty key id)
          (linkRun key id scfg rcfg start ops).1 op).2 := Net.run_concat_snd ops op
    have hnew := hm
    rw [hsplit, recvEvents_append, List.mem_append] at hnew
    replace hnew := hnew.resolve_left hbefore
    rw [hsplit, recvEvents_append, List.countP_append] at hends'
    have hpos := List.countP_pos_iff.mpr ⟨_, hnew, (rfl : RecvEvent.isOutcome _ = true)⟩
    have hs : (linkRun key id scfg rcfg start ops).1.right.state.relState = .streaming := by
      by_contra hnot
      rw [if_neg hnot] at hends
      split at hends' <;> omega
    have hret := retained_of_streaming hholds htag hfew.of_concat
      (fun ts payload now h => hfit ts payload now (List.mem_append_left _ h)) hs
    have hone := @step_one_sided key id (linkRun key id scfg rcfg start ops).1 op
    rcases hone with hleft | hright
    · refine (retain_run key id scfg rcfg start (ops ++ [op]) ?_).holds.1.kept hm
      unfold Retained
      rw [hsplit, Net.lefts_append, hleft, List.append_nil]
      exact hret
    · rw [hright] at hnew
      cases hnew

/-- What was never lost on the way into the ring, and has not arrived, is in
the ring as it was first sealed. -/
theorem held_of_retained {ops : List LinkOp} (hfew : FewPushed key id scfg rcfg start ops)
    (hret : Retained (linkRun key id scfg rcfg start ops).2) :
    let w := linkRun key id scfg rcfg start ops
    ∀ frame ∈ pushed w.2, frame.seq.toNat ∉ w.1.right.state.gaps.seen →
      ∃ d, w.1.left.ring.get frame.seq = some d
        ∧ sealBody key id .send frame.seq.val (.data frame.ts frame.payload) = .ok d := by
  intro w frame hf hnot
  obtain ⟨hkeep, -⟩ := (retain_run key id scfg rcfg start ops hret).holds
  have hexact := (exact_run key id scfg rcfg start ops hfew).holds
  obtain ⟨h1, d, hd⟩ := hkeep.recorded frame hf
  -- above the floor the ring holds what was recorded
  have habove : w.1.left.ring.lostBelow < frame.seq.toNat := by
    by_contra hle
    exact hnot (GapTracker.filled_seen _ _ h1 ((not_lt.mp hle).trans hkeep.floor_le))
  have hin : (frame.seq, d) ∈ w.1.left.ring.entries := by
    have hmem : (frame.seq, d) ∈ aboveFloor w.1.left.ring (recordedIn w.2) :=
      List.mem_filter.mpr ⟨hd, by simpa using habove⟩
    rw [← hkeep.ring] at hmem
    exact List.mem_of_mem_filter hmem
  obtain ⟨d', hget⟩ := RetransRing.exists_get ⟨_, hin, rfl⟩
  obtain ⟨frame', hf', hseq, hsealed⟩ := hexact.ring _ (RetransRing.get_mem hget)
  refine ⟨d', hget, ?_⟩
  -- under one number there is one frame
  obtain ⟨n, hn⟩ := List.mem_iff_getElem?.mp hf
  obtain ⟨n', hn'⟩ := List.mem_iff_getElem?.mp hf'
  have hnum := hexact.numbered n frame hn
  have hnum' := hexact.numbered n' frame' hn'
  simp only at hseq
  rw [← hseq] at hnum'
  have heq : n = n' := by omega
  subst heq
  rw [hn] at hn'
  cases hn'
  exact hsealed

/-- **A ring with room for both windows keeps whatever is wanted.** Whatever
the network loses, repeats, reorders or delays: while the receiver's stream
streams, every frame pushed that it has not recorded is in the ring, as it
was first sealed; and it never aborts because the sender has discarded
something. -/
theorem sized_ring_keeps_wanted (hholds : Holds scfg rcfg.reorderWindow) (htag : key.AddsTag)
    (ops : List LinkOp) (hfew : FewPushed key id scfg rcfg start ops) (hfit : PayloadsFit ops) :
    let w := linkRun key id scfg rcfg start ops
    (w.1.right.state.relState = .streaming →
      ∀ frame ∈ pushed w.2, frame.seq.toNat ∉ w.1.right.state.gaps.seen →
        ∃ d, w.1.left.ring.get frame.seq = some d
          ∧ sealBody key id .send frame.seq.val (.data frame.ts frame.payload) = .ok d)
      ∧ .relFinished (.aborted .senderDiscarded) ∉ recvEvents w.2 := by
  intro w
  constructor
  · intro hs
    exact held_of_retained hfew (retained_of_streaming hholds htag hfew hfit hs)
  · exact not_discarded hholds htag ops hfew hfit

/-- A receiver and a sender with two windows of two. -/
def twoWindows : SenderConfig := { maxOutstanding := 2, retransRingFrames := 4 }

def narrowWindow : ReceiverConfig := { ReceiverConfig.audioEngine with reorderWindow := 2 }

/-- Two frames go out and the first is lost. -/
def firstLostOps : List LinkOp :=
  [.left (.pushFrame ⟨0⟩ [1] 0), .left (.pushFrame ⟨20⟩ [2] 0), .dropRight 0,
    .deliverRight 0 1 false]

theorem plainKey_addsTag : plainKey.AddsTag := by
  intro n a m c h
  cases h
  simp [plainTag, tagLen]

theorem sized_ring_keeps_wanted_lost_first :
    ∃ d, (linkRun plainKey zeroId twoWindows narrowWindow 0 firstLostOps).1.left.ring.get
      (XferSeq.ofNat 1) = some d := by
  have hfit : PayloadsFit firstLostOps := by
    intro ts payload now h
    simp only [firstLostOps, List.mem_cons, Net.Op.left.injEq, TxAct.pushFrame.injEq,
      List.not_mem_nil, reduceCtorEq, or_false] at h
    rcases h with ⟨_, rfl, _⟩ | ⟨_, rfl, _⟩ <;> decide
  have h := @sized_ring_keeps_wanted plainKey zeroId twoWindows narrowWindow 0 (by decide)
    plainKey_addsTag firstLostOps (by decide +kernel) hfit
  obtain ⟨d, hd, -⟩ := h.1 (by decide +kernel) ⟨XferSeq.ofNat 1, ⟨0⟩, [1]⟩ (by decide +kernel)
    (by decide +kernel)
  exact ⟨d, hd⟩

end Run

end Protofish4
