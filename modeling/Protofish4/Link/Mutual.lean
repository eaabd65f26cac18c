import Protofish4.Link
import Protofish4.Xfer.ReceiverEvents

/-!
# What the two halves know of each other

One invariant for every run of a link: the numbers handed out are those of
the frames pushed, the window is never overrun, the ring holds sealed
frames, and every packet in flight says something true about the party that
sent it. The two ends are any parties that react as a sender and a receiver
do or not at all, so the invariant also holds for a tap that has returned
and for an entry that is gone.
-/

namespace Protofish4

open Net (Party Reaction)

variable {key : SessionKey} {id : RequestId} {rcfg : ReceiverConfig} {start : Instant}

/-! ## What the parties do -/

/-- A tick of the sender sends keepalives only. -/
theorem txTick_spec (x : XferSender) (now : Instant) :
    ((txParty key id).act x (.tick now)).state = (x.tick now).1
      ∧ ∀ m ∈ ((txParty key id).act x (.tick now)).sent, ∃ seq lost,
        .emit seq (.keepalive lost) ∈ (x.tick now).2
          ∧ openBody key .send m.bytes = some (seq, .keepalive lost) := by
  obtain ⟨hs, -, -, hsent⟩ := transmitAll_sendsFrom key id now (x.tick now).1 (x.tick now).2
    fun seq body he => by
      rw [x.tick_emit now he]
      simp [Body.kind]
  refine ⟨hs, fun m hm => ?_⟩
  rcases (hsent m hm).2 with ⟨seq, body, he, hd⟩ | ⟨ds, he, -⟩
  · have hbody := x.tick_emit now he
    subst hbody
    exact ⟨seq, _, he, openBody_sealBody hd rfl⟩
  · exact absurd he (x.resend_not_mem_tick now)

/-- A packet makes the sender resend what it holds, at most. -/
theorem txReceive_spec (x : XferSender) (now : Instant) (m : Sent) :
    ((txParty key id).receive x now m).state = x ∧ ((txParty key id).receive x now m).sent = []
      ∨ ∃ seq body, openBody key .recv m.bytes = some (seq, body)
        ∧ ((txParty key id).receive x now m).state = (x.handle body now).1
        ∧ ∀ m' ∈ ((txParty key id).receive x now m).sent, ∃ missing, body = .nack missing
          ∧ m'.bytes ∈ x.held missing := by
  simp only [txParty]
  split
  · exact Or.inl ⟨rfl, rfl⟩
  · rename_i seq body hopen
    obtain ⟨hs, -, -, hsent⟩ := transmitAll_sendsFrom key id now (x.handle body now).1
      (x.handle body now).2 fun seq' body' he => absurd he (x.emit_not_mem_handle now)
    refine Or.inr ⟨seq, body, hopen, hs, fun m' hm' => ?_⟩
    rcases (hsent m' hm').2 with ⟨_, _, he, -⟩ | ⟨ds, he, hd⟩
    · exact absurd he (x.emit_not_mem_handle now)
    · rcases x.handle_events now body he with ⟨missing, hb, he'⟩ | he'
      · cases he'
        exact ⟨missing, hb, hd⟩
      · cases he'

namespace Rx

/-- What a call sends opens to the reply of one of its events. -/
theorem open_of_mem_call {y : Rx} {c : RecvCall} {m : Sent} (h : m ∈ (y.call key id now c).sent) :
    ∃ e ∈ (y.state.step c).2, ∃ seq body, y.replyBody e = some body
      ∧ openBody key .recv m.bytes = some (seq, body) := by
  obtain ⟨-, e, he, seq, body, hbody, hd⟩ := mem_reply h
  have hdir : body.kind.direction = .recv := by
    cases e <;> simp only [replyBody, Option.some.injEq, reduceCtorEq] at hbody <;>
      rw [← hbody] <;> rfl
  exact ⟨e, he, ⟨seq⟩, body, by rw [← hbody]; exact replyBody_congr rfl e,
    openBody_sealBody hd hdir⟩

end Rx

/-! ## What they know -/

/-- `n` does not exceed the numbers of the frames pushed. -/
def UpTo (t : LinkTrace) (n : Nat) : Prop := n = 0 ∨ ∃ frame ∈ pushed t, n ≤ frame.seq.toNat

theorem UpTo.append {t : LinkTrace} {n : Nat} (h : UpTo t n) (u : LinkTrace) : UpTo (t ++ u) n := by
  rcases h with h | ⟨frame, hf, hle⟩
  · exact Or.inl h
  · refine Or.inr ⟨frame, ?_, hle⟩
    rw [pushed_append]
    exact List.mem_append_left _ hf

theorem UpTo.le {t : LinkTrace} {m n : Nat} (h : UpTo t n) (hle : m ≤ n) : UpTo t m := by
  rcases h with rfl | ⟨frame, hf, hn⟩
  · exact Or.inl (by omega)
  · exact Or.inr ⟨frame, hf, hle.trans hn⟩

theorem UpTo.max {t : LinkTrace} {m n : Nat} (hm : UpTo t m) (hn : UpTo t n) :
    UpTo t (max m n) := by
  rcases Nat.le_total m n with h | h
  · rwa [Nat.max_eq_right h]
  · rwa [Nat.max_eq_left h]

/-- What a body from the sender says of it. -/
def Said (t : LinkTrace) (x : XferSender) (seq : XferSeq) : Body → Prop
  | .data ts payload => ⟨seq, ts, payload⟩ ∈ pushed t
  | .end f => x.state ≠ .streaming ∧ f.toNat = x.nextSeq.toNat - 1
  | .keepalive lost => UpTo t lost.toNat
  | _ => True

/-- What a body from the receiver says of it. -/
def Answered (t : LinkTrace) (y : Rx) : Body → Prop
  | .ack c h _ => c.toNat ≤ y.state.gaps.contiguous ∧ h.toNat ≤ y.state.gaps.highest
  | .endAck => .sendEndAck ∈ recvEvents t
  | _ => True

/-- The joint invariant. -/
structure Mutual (key : SessionKey) (id : RequestId) (rcfg : ReceiverConfig) (start : Instant)
    (t : LinkTrace) (x : XferSender) (y : Rx) : Prop where
  projects : Projects rcfg start t y
  first : 1 ≤ x.nextSeq.toNat
  numbered : ∀ frame ∈ pushed t, 1 ≤ frame.seq.toNat ∧ frame.seq.toNat ≤ x.nextSeq.toNat
  counted : ∀ k, 1 ≤ k → k < x.nextSeq.toNat → ∃ frame ∈ pushed t, frame.seq.toNat = k
  window : x.outstanding ≤ x.cfg.maxOutstanding
  ring : ∀ e ∈ x.ring.entries, ∃ frame ∈ pushed t, e.1 = frame.seq
    ∧ sealBody key id .send frame.seq.val (.data frame.ts frame.payload) = .ok e.2
  lost : UpTo t x.ring.lostBelow
  heard : ∀ seq body now, .handle seq body now ∈ recvCalls t → Said t x seq body
  done : x.state = .done → .event .completed ∈ Net.lefts t ∨ ∃ r, .event (.failed r) ∈ Net.lefts t
  completed : .event .completed ∈ Net.lefts t → .sendEndAck ∈ recvEvents t

/-- A datagram in flight to the receiver speaks true. -/
def SaysTrue (key : SessionKey) (t : LinkTrace) (x : XferSender) (_ : Rx) (m : Sent) : Prop :=
  ∀ seq body, openBody key .send m.bytes = some (seq, body) → Said t x seq body

/-- A datagram in flight to the sender speaks true. -/
def AnswersTrue (key : SessionKey) (t : LinkTrace) (_ : XferSender) (y : Rx) (m : Sent) : Prop :=
  ∀ seq body, openBody key .recv m.bytes = some (seq, body) → Answered t y body

namespace Mutual

variable {t : LinkTrace} {x x' : XferSender} {y : Rx}

/-! ## What it says of the receiver -/

theorem recvInv (h : Mutual key id rcfg start t x y) :
    XferReceiver.RecvInv (recvCalls t) y.state (recvEvents t) := by
  have hinv := XferReceiver.recvInv_run rcfg start (recvCalls t)
  have hp : XferReceiver.run rcfg start (recvCalls t) = (y.state, recvEvents t) := h.projects
  rwa [hp] at hinv

/-- Every arrival is a frame pushed. -/
theorem mem_pushed (h : Mutual key id rcfg start t x y) {s : Nat}
    (hs : (XferReceiver.firstArrival (recvCalls t) s).isSome) :
    ∃ frame ∈ pushed t, frame.seq.toNat = s := by
  obtain ⟨frame, hf⟩ := Option.isSome_iff_exists.mp hs
  obtain ⟨hmem, hseq, -⟩ := XferReceiver.firstArrival_eq_some hf
  obtain ⟨now, hc⟩ := XferReceiver.mem_arrivals.mp hmem
  exact ⟨frame, h.heard _ _ now hc, hseq⟩

theorem highest_upTo (h : Mutual key id rcfg start t x y) : UpTo t y.state.gaps.highest := by
  rcases h.recvInv.highest_mem with h0 | hs
  · exact Or.inl h0
  · obtain ⟨frame, hf, hseq⟩ := h.mem_pushed hs
    exact Or.inr ⟨frame, hf, hseq.ge⟩

theorem contiguous_upTo (h : Mutual key id rcfg start t x y) :
    UpTo t y.state.gaps.contiguous :=
  h.highest_upTo.le h.recvInv.wf.contiguous_le

/-- The receiver knows of an end only once the sender has finished. -/
theorem finalSeq_none (h : Mutual key id rcfg start t x y) (hs : x.state = .streaming) :
    y.state.finalSeq = none := by
  cases hf : y.state.finalSeq with
  | none => rfl
  | some f =>
    obtain ⟨seq, now, hc⟩ := h.recvInv.final f hf
    exact absurd hs (h.heard seq _ now hc).1

end Mutual

/-! ## What was true stays true -/

theorem Said.mono {t u : LinkTrace} {x x' : XferSender} {seq : XferSeq} {body : Body}
    (h : Said t x seq body)
    (hx : x.state ≠ .streaming → x'.state ≠ .streaming ∧ x'.nextSeq = x.nextSeq) :
    Said (t ++ u) x' seq body := by
  cases body with
  | data ts payload =>
    show _ ∈ pushed (t ++ u)
    rw [pushed_append]
    exact List.mem_append_left _ h
  | «end» f =>
    obtain ⟨hs', hn⟩ := hx h.1
    exact ⟨hs', by rw [hn]; exact h.2⟩
  | keepalive lost => exact UpTo.append h u
  | ack | nack | endAck => trivial

theorem Answered.mono {t u : LinkTrace} {y y' : Rx} {body : Body} (h : Answered t y body)
    (hc : y.state.gaps.contiguous ≤ y'.state.gaps.contiguous)
    (hh : y.state.gaps.highest ≤ y'.state.gaps.highest) : Answered (t ++ u) y' body := by
  cases body with
  | ack c hi b => exact ⟨h.1.trans hc, h.2.trans hh⟩
  | endAck =>
    show _ ∈ recvEvents (t ++ u)
    rw [recvEvents_append]
    exact List.mem_append_left _ h
  | data | «end» | nack | keepalive => trivial

theorem saysTrue_of_seal {t : LinkTrace} {x : XferSender} {y : Rx} {seq : XferSeq} {body : Body}
    {m : Sent} (hseal : sealBody key id .send seq.val body = .ok m.bytes)
    (hdir : body.kind.direction = .send) (h : Said t x seq body) : SaysTrue key t x y m := by
  intro seq' body' hopen
  rw [openBody_sealBody hseal hdir] at hopen
  cases hopen
  exact h

namespace Mutual

variable {t : LinkTrace} {x x' : XferSender} {y : Rx}

/-! ## The sender's reactions -/

/-- What the sender does adds nothing to what the receiver was told or has
said. -/
theorem recv_of_sender (t : LinkTrace) (l : List TxObs) :
    recvCalls (t ++ l.map .inl) = recvCalls t ∧ recvEvents (t ++ l.map .inl) = recvEvents t := by
  simp

/-- A reaction that pushes no frame. -/
theorem quiet (h : Mutual key id rcfg start t x y) (now : Instant) (es : List SendEvent)
    (hnext : x'.nextSeq = x.nextSeq) (hwindow : x'.outstanding ≤ x'.cfg.maxOutstanding)
    (hring : ∀ e ∈ x'.ring.entries, e ∈ x.ring.entries) (hlost : UpTo t x'.ring.lostBelow)
    (hstate : x.state ≠ .streaming → x'.state ≠ .streaming)
    (hdone : x'.state = .done → x.state = .done ∨ .completed ∈ es ∨ ∃ r, .failed r ∈ es)
    (hcompleted : .completed ∈ es → .sendEndAck ∈ recvEvents t)
    (hemit : ∀ seq body, .emit seq body ∈ es → body.kind ≠ .data ∧ body.kind.direction = .send
      ∧ Said t x' seq body)
    (hresend : ∀ ds, .resend ds ∈ es → ∀ d ∈ ds, ∃ s, (s, d) ∈ x.ring.entries) :
    Net.LeftKeeps (Mutual key id rcfg start) (SaysTrue key) (AnswersTrue key) t x y
      (transmitAll key id now x' es) := by
  obtain ⟨hs, hframes, -, hsent⟩ := transmitAll_sendsFrom key id now x' es
    fun seq body he => (hemit seq body he).1
  have hpush : pushed ((transmitAll key id now x' es).events.map
      (.inl : TxObs → TxObs ⊕ RxObs)) = [] := by
    rw [pushed_inl, hframes]
  have hevents : ∀ e, .event e ∈ (transmitAll key id now x' es).events ↔ e ∈ es :=
    fun e => ⟨mem_of_event_mem_transmitAll, event_mem_transmitAll now⟩
  generalize hu : ((transmitAll key id now x' es).events.map
    (.inl : TxObs → TxObs ⊕ RxObs)) = u at hpush
  have hlefts : Net.lefts (t ++ u) = Net.lefts t ++ (transmitAll key id now x' es).events := by
    rw [Net.lefts_append, ← hu, Net.lefts_map_inl]
  obtain ⟨hcalls, hrecv⟩ := recv_of_sender t (transmitAll key id now x' es).events
  rw [hu] at hcalls hrecv
  have hpushed : pushed (t ++ u) = pushed t := by
    rw [pushed_append, hpush, List.append_nil]
  have hsaid : ∀ seq body, Said t x seq body → Said (t ++ u) x' seq body :=
    fun seq body hsaid => hsaid.mono fun hne => ⟨hstate hne, hnext⟩
  constructor
  · -- the invariant itself
    rw [hs, hu]
    constructor
    · unfold Projects
      rw [hcalls, hrecv]
      exact h.projects
    · exact hnext ▸ h.first
    · rw [hpushed, hnext]
      exact h.numbered
    · rw [hpushed, hnext]
      exact h.counted
    · exact hwindow
    · rw [hpushed]
      exact fun e he => h.ring e (hring e he)
    · exact hlost.append u
    · intro seq body now' hc
      rw [hcalls] at hc
      exact hsaid seq body (h.heard seq body now' hc)
    · intro hd
      rw [hlefts]
      rcases hdone hd with hd | hd | ⟨r, hd⟩
      · rcases h.done hd with hd | ⟨r, hd⟩
        · exact Or.inl (List.mem_append_left _ hd)
        · exact Or.inr ⟨r, List.mem_append_left _ hd⟩
      · exact Or.inl (List.mem_append_right _ ((hevents _).mpr hd))
      · exact Or.inr ⟨r, List.mem_append_right _ ((hevents _).mpr hd)⟩
    · intro hc
      rw [hrecv]
      rw [hlefts] at hc
      rcases List.mem_append.mp hc with hc | hc
      · exact h.completed hc
      · exact hcompleted ((hevents _).mp hc)
  · -- what it sends
    intro m hm
    rw [hs, hu]
    rcases (hsent m hm).2 with ⟨seq, body, he, hd⟩ | ⟨ds, hds, hd⟩
    · obtain ⟨-, hdir, hg⟩ := hemit seq body he
      exact saysTrue_of_seal hd hdir (hg.mono fun hne => ⟨hne, rfl⟩)
    · obtain ⟨s, hmem⟩ := hresend ds hds m.bytes hd
      obtain ⟨frame, hframe, -, hseal⟩ := h.ring _ hmem
      refine saysTrue_of_seal hseal rfl ?_
      show _ ∈ pushed (t ++ u)
      rw [hpushed]
      exact hframe
  · intro m hm seq body hopen
    rw [hs, hu]
    exact hsaid seq body (hm seq body hopen)
  · intro m hm seq body hopen
    rw [hu]
    exact (hm seq body hopen).mono le_rfl le_rfl

/-- Nothing happens. -/
theorem idle (h : Mutual key id rcfg start t x y) (now : Instant) :
    Net.LeftKeeps (Mutual key id rcfg start) (SaysTrue key) (AnswersTrue key) t x y
      (transmitAll key id now x []) :=
  h.quiet now [] rfl h.window (fun _ he => he) h.lost (fun hs => hs) Or.inl
    (fun he => by cases he) (fun _ _ he => by cases he) fun _ he => by cases he

/-- After a push the floor of the ring is still the number of some frame. -/
theorem lost_push {r : RetransRing} {seq : XferSeq} {d : Bytes} (hlost : UpTo t r.lostBelow)
    (hring : ∀ e ∈ r.entries, ∃ frame ∈ pushed t, e.1 = frame.seq)
    (hseq : ∃ frame ∈ pushed t, seq = frame.seq) : UpTo t (r.push seq d).lostBelow := by
  have hkeeps : UpTo t (r.push seq d).lostBelow
      ∧ ∀ e ∈ (r.push seq d).entries, ∃ frame ∈ pushed t, e.1 = frame.seq := by
    refine RetransRing.push_keeps (fun q => UpTo t q.lostBelow
      ∧ ∀ e ∈ q.entries, ∃ frame ∈ pushed t, e.1 = frame.seq) ?_ ⟨hlost, fun e he => ?_⟩
    · -- an evicted entry is the oldest
      rintro q s q' hq ⟨hlost, hentries⟩
      obtain ⟨data, hcons, hmax⟩ := RetransRing.evictOldest_some hq
      obtain ⟨frame, hf, heq⟩ := hentries (s, data) (by rw [hcons]; exact List.mem_cons_self)
      refine ⟨?_, fun e he => hentries e (hcons ▸ List.mem_cons_of_mem _ he)⟩
      rw [hmax]
      exact hlost.max (Or.inr ⟨frame, hf, (congrArg XferSeq.toNat heq).le⟩)
    · rcases List.mem_append.mp he with he | he
      · exact hring e he
      · cases List.mem_singleton.mp he
        exact hseq
  exact hkeeps.1

section Push

variable {since : Option Instant} {ts : TimestampMs} {payload : Bytes}
  {q : Reaction XferSender Sent TxObs}

/-- The counter after a push: it saturates. -/
theorem nextSeq_push (hpush : Pushes key id
      { x with nextSeq := x.nextSeq.next, firstDataAt := since } ⟨x.nextSeq, ts, payload⟩ q) :
    q.state.nextSeq.toNat = min (x.nextSeq.toNat + 1) (2 ^ 32 - 1) := by
  rw [hpush.state]
  exact x.nextSeq.toNat_next

/-- The numbers handed out are those of the frames, the new one included. -/
theorem numbered_push (h : Mutual key id rcfg start t x y) {n : Nat}
    (hn : n = min (x.nextSeq.toNat + 1) (2 ^ 32 - 1)) {frame : Frame}
    (hf : frame ∈ pushed t ++ [⟨x.nextSeq, ts, payload⟩]) :
    1 ≤ frame.seq.toNat ∧ frame.seq.toNat ≤ n := by
  have hlt := x.nextSeq.toNat_lt
  rcases List.mem_append.mp hf with hf | hf
  · have := h.numbered frame hf
    omega
  · cases List.mem_singleton.mp hf
    have := h.first
    show 1 ≤ x.nextSeq.toNat ∧ x.nextSeq.toNat ≤ _
    omega

theorem counted_push (h : Mutual key id rcfg start t x y) {n k : Nat}
    (hn : n = min (x.nextSeq.toNat + 1) (2 ^ 32 - 1)) (h1 : 1 ≤ k) (hk : k < n) :
    ∃ frame ∈ pushed t ++ [⟨x.nextSeq, ts, payload⟩], frame.seq.toNat = k := by
  rcases Nat.lt_or_ge k x.nextSeq.toNat with hlt | hge
  · obtain ⟨frame, hf, heq⟩ := h.counted k h1 hlt
    exact ⟨frame, List.mem_append_left _ hf, heq⟩
  · exact ⟨_, List.mem_append_right _ (List.mem_singleton_self _),
      by show x.nextSeq.toNat = k; omega⟩

/-- The invariant after a push, the window having been open. -/
theorem holds_push (h : Mutual key id rcfg start t x y) (hs : x.state = .streaming)
    (hopen : x.outstanding < x.cfg.maxOutstanding)
    (hpush : Pushes key id { x with nextSeq := x.nextSeq.next, firstDataAt := since }
      ⟨x.nextSeq, ts, payload⟩ q) :
    Mutual key id rcfg start (t ++ q.events.map .inl) q.state y := by
  have hnext := nextSeq_push hpush
  have hlt := x.nextSeq.toNat_lt
  obtain ⟨hcalls, hrecv⟩ := recv_of_sender t q.events
  have hpushed : pushed (t ++ q.events.map .inl) = pushed t ++ [⟨x.nextSeq, ts, payload⟩] := by
    rw [pushed_append, pushed_inl, hpush.frames]
  have hnew : (⟨x.nextSeq, ts, payload⟩ : Frame) ∈ pushed (t ++ q.events.map .inl) := by
    rw [hpushed]
    simp
  have hring : ∀ e ∈ x.ring.entries, ∃ frame ∈ pushed (t ++ q.events.map .inl), e.1 = frame.seq
      ∧ sealBody key id .send frame.seq.val (.data frame.ts frame.payload) = .ok e.2 := by
    intro e he
    obtain ⟨frame, hf, hrest⟩ := h.ring e he
    exact ⟨frame, by rw [hpushed]; exact List.mem_append_left _ hf, hrest⟩
  constructor
  · unfold Projects
    rw [hcalls, hrecv]
    exact h.projects
  · rw [hnext]
    omega
  · intro frame hf
    rw [hpushed] at hf
    exact h.numbered_push hnext hf
  · intro k h1 hk
    rw [hpushed]
    exact h.counted_push hnext h1 hk
  · -- the window was open before: one more frame still fits
    obtain ⟨hacked, hcfg⟩ : q.state.ackedHighest = x.ackedHighest ∧ q.state.cfg = x.cfg := by
      rw [hpush.state]
      exact ⟨rfl, rfl⟩
    unfold XferSender.outstanding at hopen ⊢
    rw [hnext, hacked, hcfg]
    omega
  · exact hpush.sealed hnew hring
  · have hlost := h.lost.append (q.events.map .inl)
    -- the new frame may push the oldest one out of the ring
    rcases hpush.ring with hr | ⟨d, -, hr⟩ <;> rw [hr]
    · exact hlost
    · refine lost_push hlost (fun e he => ?_) ⟨_, hnew, rfl⟩
      obtain ⟨frame, hf, heq, -⟩ := hring e he
      exact ⟨frame, hf, heq⟩
  · intro seq body now hc
    rw [hcalls] at hc
    exact (h.heard seq body now hc).mono fun hne => absurd hs hne
  · intro hd
    rw [hpush.state] at hd
    cases hs.symm.trans hd
  · intro hc
    rw [Net.lefts_append, Net.lefts_map_inl] at hc
    rw [hrecv]
    rcases List.mem_append.mp hc with hc | hc
    · exact h.completed hc
    · exact absurd hc hpush.notCompleted

/-- A reaction that pushes one frame, the window being open. -/
theorem push (h : Mutual key id rcfg start t x y) (hs : x.state = .streaming)
    (hopen : x.outstanding < x.cfg.maxOutstanding) (since : Option Instant) (ts : TimestampMs)
    (payload : Bytes) (now : Instant) :
    Net.LeftKeeps (Mutual key id rcfg start) (SaysTrue key) (AnswersTrue key) t x y
      (transmitAll key id now { x with nextSeq := x.nextSeq.next, firstDataAt := since }
        [.emit x.nextSeq (.data ts payload)]) := by
  -- of the reaction only what `Pushes` says of it is used
  have hpush := transmitAll_pushes key id now
    { x with nextSeq := x.nextSeq.next, firstDataAt := since } x.nextSeq ts payload
  generalize transmitAll key id now _ [.emit x.nextSeq (.data ts payload)] = q at hpush ⊢
  refine ⟨h.holds_push hs hopen hpush, fun m hm => ?_, fun m hm seq body hbody => ?_,
    fun m hm seq body hbody => ?_⟩
  · refine saysTrue_of_seal (hpush.sent m hm) rfl ?_
    show _ ∈ pushed (t ++ q.events.map .inl)
    rw [pushed_append, pushed_inl, hpush.frames]
    simp
  · exact (hm seq body hbody).mono fun hne => absurd hs hne
  · exact (hm seq body hbody).mono le_rfl le_rfl

end Push

theorem act (h : Mutual key id rcfg start t x y) (i : TxAct) :
    Net.LeftKeeps (Mutual key id rcfg start) (SaysTrue key) (AnswersTrue key) t x y
      ((txParty key id).act x i) := by
  cases i with
  | pushFrame ts payload now =>
    show Net.LeftKeeps _ _ _ _ _ _ (transmitAll key id now _ _)
    rcases x.pushFrame_cases now ts payload with ⟨hp, -⟩ | ⟨hc, hp1, hp2⟩
    · rw [hp]
      exact h.idle now
    · rw [hp1, hp2]
      have hs := x.canSend_streaming hc
      have hwindow : x.outstanding < x.cfg.maxOutstanding := by
        unfold XferSender.canSend at hc
        split at hc
        · cases hc
        · exact of_decide_eq_true hc
      exact h.push hs hwindow _ ts payload now
  | finish now =>
    show Net.LeftKeeps _ _ _ _ _ _ (transmitAll key id now _ _)
    -- `End` declares the last number given out, and none is given out after it
    rcases x.finish_cases now with ⟨hf, -⟩ | ⟨hs, hs', hn, hr, seq, he⟩
    · rw [hf]
      exact h.idle now
    · have hsame : (x.finish now).1.outstanding = x.outstanding
          ∧ (x.finish now).1.cfg = x.cfg := by
        unfold XferSender.finish
        split <;> exact ⟨rfl, rfl⟩
      rw [he]
      refine h.quiet now _ hn (by rw [hsame.1, hsame.2]; exact h.window) (fun e he => hr ▸ he)
        (by rw [hr]; exact h.lost) (fun hne => absurd hs hne) ?_ ?_ ?_ ?_
      · intro hd
        rw [hs'] at hd
        cases hd
      · intro hm
        cases List.mem_singleton.mp hm
      · intro seq' body' hm
        cases List.mem_singleton.mp hm
        refine ⟨by simp [Body.kind], rfl, by rw [hs']; simp, ?_⟩
        have hlt := x.nextSeq.toNat_lt
        rw [XferSeq.toNat_ofNat (by omega), hn]
      · intro ds hm
        cases List.mem_singleton.mp hm
  | tick now =>
    show Net.LeftKeeps _ _ _ _ _ _ (transmitAll key id now _ _)
    have hring : (x.tick now).1.ring = x.ring := by rw [x.tick_frame]
    have hwindow : (x.tick now).1.outstanding ≤ (x.tick now).1.cfg.maxOutstanding := by
      rw [x.tick_frame]
      exact h.window
    refine h.quiet now _ (by rw [x.tick_frame]) hwindow (fun e he => hring ▸ he)
      (by rw [hring]; exact h.lost) (x.tick_state now) (x.concludes_tick now).done.mp ?_ ?_ ?_
    · intro hm
      rcases x.tick_events now hm with ⟨_, he⟩ | ⟨_, he⟩ <;> cases he
    · intro seq body hm
      rw [x.tick_emit now hm]
      refine ⟨by simp [Body.kind], rfl, ?_⟩
      show UpTo t (XferSeq.ofNat x.ring.lostBelow).toNat
      have hbound : x.ring.lostBelow < 2 ^ 32 := by
        rcases h.lost with h0 | ⟨frame, -, hle⟩
        · omega
        · exact hle.trans_lt frame.seq.toNat_lt
      rw [XferSeq.toNat_ofNat hbound]
      exact h.lost
    · exact fun ds hm => absurd hm (x.resend_not_mem_tick now)

theorem receive (h : Mutual key id rcfg start t x y) (now : Instant) (m : Sent)
    (hm : AnswersTrue key t x y m) :
    Net.LeftKeeps (Mutual key id rcfg start) (SaysTrue key) (AnswersTrue key) t x y
      ((txParty key id).receive x now m) := by
  simp only [txParty]
  split
  · exact h.idle now
  · rename_i seq body hopen
    have hsays := hm seq body hopen
    -- only an `Ack` moves the window and the floor of the ring
    have hwindow : (x.handle body now).1.outstanding ≤
        (x.handle body now).1.cfg.maxOutstanding := by
      cases body with
      | ack c hi b =>
        refine le_trans ?_ h.window
        simp only [XferSender.handle, XferSender.onAck, XferSender.outstanding]
        split <;> omega
      | data | «end» | nack | endAck | keepalive => exact h.window
    have hlost : UpTo t (x.handle body now).1.ring.lostBelow := by
      cases body with
      | ack c hi b =>
        show UpTo t (x.ring.ackThrough c).lostBelow
        rw [RetransRing.ackThrough_lostBelow]
        exact h.lost.max (h.contiguous_upTo.le hsays.1)
      | data | «end» | nack | endAck | keepalive => exact h.lost
    refine h.quiet now _ (by rw [x.handle_frame]) hwindow
      (fun _ he => x.handle_ring_subset now body he) hlost (x.handle_state now body)
      (x.concludes_handle now body).done.mp ?_ ?_ ?_
    · intro hc
      cases body with
      | endAck => exact hsays
      | nack missing =>
        rcases x.handle_events now _ hc with ⟨_, -, he⟩ | -
        · cases he
        · simp only [XferSender.handle] at hc
          split at hc <;> simp at hc
      | data | «end» | ack | keepalive => cases hc
    · exact fun seq b hmem => absurd hmem (x.emit_not_mem_handle now)
    · exact fun ds hmem d hd => x.held_of_resend now hmem hd

/-! ## The receiver's reactions -/

/-- One call on the receiver. -/
theorem observe (h : Mutual key id rcfg start t x y) (now : Instant) (c : RecvCall)
    (hc : ∀ seq body n, c = .handle seq body n → Said t x seq body) :
    Net.RightKeeps (Mutual key id rcfg start) (SaysTrue key) (AnswersTrue key) t x y
      (y.call key id now c) := by
  have hstate := @Rx.call_state key id now y c
  have hgrow : y.state.gaps.contiguous ≤ (y.call key id now c).state.state.gaps.contiguous
      ∧ y.state.gaps.highest ≤ (y.call key id now c).state.state.gaps.highest := by
    rw [hstate]
    refine ⟨XferReceiver.contiguous_le_step h.recvInv.wf c, ?_⟩
    rw [XferReceiver.highest_step h.recvInv.wf c]
    split
    · exact le_rfl
    · exact le_max_left _ _
  generalize hq : y.call key id now c = q at hstate hgrow
  have hu : q.events = [⟨c, (y.state.step c).2⟩] := by
    rw [← hq]
    rfl
  have hprojects : Projects rcfg start (t ++ q.events.map .inr) q.state := by
    rw [← hq]
    exact h.projects.call now c
  have hpushed : pushed (t ++ q.events.map .inr) = pushed t := by
    rw [pushed_append, pushed_inr, List.append_nil]
  have hlefts : Net.lefts (t ++ q.events.map .inr) = Net.lefts t := by
    rw [Net.lefts_append, Net.lefts_map_inr, List.append_nil]
  have hcalls : recvCalls (t ++ q.events.map .inr) = recvCalls t ++ [c] := by
    rw [recvCalls_append, recvCalls_inr, hu]
    rfl
  have hevents : recvEvents (t ++ q.events.map .inr) = recvEvents t ++ (y.state.step c).2 := by
    rw [recvEvents_append, recvEvents_inr, hu]
    simp
  generalize heq : q.events.map (.inr : RxObs → TxObs ⊕ RxObs) = u
    at hprojects hpushed hlefts hcalls hevents
  have hsaid : ∀ seq body, Said t x seq body → Said (t ++ u) x seq body :=
    fun seq body hsaid => hsaid.mono fun hne => ⟨hne, rfl⟩
  constructor
  · rw [heq]
    constructor
    · exact hprojects
    · exact h.first
    · rw [hpushed]
      exact h.numbered
    · rw [hpushed]
      exact h.counted
    · exact h.window
    · rw [hpushed]
      exact h.ring
    · exact h.lost.append u
    · intro seq body n hmem
      rw [hcalls] at hmem
      rcases List.mem_append.mp hmem with hmem | hmem
      · exact hsaid seq body (h.heard seq body n hmem)
      · exact hsaid seq body (hc seq body n (List.mem_singleton.mp hmem).symm)
    · rw [hlefts]
      exact h.done
    · intro hdone
      rw [hlefts] at hdone
      rw [hevents]
      exact List.mem_append_left _ (h.completed hdone)
  · intro m hm seq body hopen
    -- what is sent was sealed from one of the call's events
    rw [← hq] at hm
    obtain ⟨e, he, seq', body', hbody, hopen'⟩ := Rx.open_of_mem_call hm
    rw [hopen'] at hopen
    cases hopen
    cases e with
    | sendNack missing =>
      cases hbody
      trivial
    | sendAck c' hi b =>
      cases hbody
      obtain ⟨rfl, rfl⟩ := XferReceiver.sendAck_of_mem_step he
      show (XferSeq.ofNat _).toNat ≤ q.state.state.gaps.contiguous
        ∧ (XferSeq.ofNat _).toNat ≤ q.state.state.gaps.highest
      rw [hstate]
      exact ⟨XferSeq.toNat_ofNat_le _, XferSeq.toNat_ofNat_le _⟩
    | sendEndAck =>
      cases hbody
      show _ ∈ recvEvents (t ++ _)
      rw [heq, hevents]
      exact List.mem_append_right _ he
    | unreliable | reliable | relFinished | closed => cases hbody
  · intro m hm seq body hopen
    rw [heq]
    exact hsaid seq body (hm seq body hopen)
  · exact fun m hm seq body hopen => (hm seq body hopen).mono hgrow.1 hgrow.2

/-- The receiver does nothing, and what it holds besides its state machine
is free. -/
theorem ignore (h : Mutual key id rcfg start t x y) (y' : Rx) (hy : y'.state = y.state) :
    Net.RightKeeps (Mutual key id rcfg start) (SaysTrue key) (AnswersTrue key) t x y
      ⟨y', [], []⟩ := by
  constructor
  · simp only [List.map_nil, List.append_nil]
    refine ⟨?_, h.first, h.numbered, h.counted, h.window, h.ring, h.lost, h.heard, h.done,
      h.completed⟩
    unfold Projects
    rw [hy]
    exact h.projects
  · intro m hm
    cases hm
  · simp only [List.map_nil, List.append_nil]
    exact fun m hm => hm
  · simp only [List.map_nil, List.append_nil]
    intro m hm seq body hopen
    have := hm seq body hopen
    cases body with
    | ack c hi b =>
      show _ ≤ y'.state.gaps.contiguous ∧ _ ≤ y'.state.gaps.highest
      rw [hy]
      exact this
    | endAck => exact this
    | data | «end» | nack | keepalive => trivial

/-- It holds at the start. -/
theorem new (key : SessionKey) (id : RequestId) (scfg : SenderConfig) (rcfg : ReceiverConfig)
    (start : Instant) :
    Mutual key id rcfg start [] (XferSender.new scfg) (Rx.new rcfg start) where
  projects := rfl
  first := le_rfl
  numbered := fun _ hf => by cases hf
  counted := fun k h1 hk => absurd (hk : k < 1) (Nat.not_lt.mpr h1)
  window := Nat.zero_le _
  ring := fun _ he => by cases he
  lost := Or.inl rfl
  heard := fun _ _ _ hc => by cases hc
  done := fun hd => by cases hd
  completed := fun hc => by cases hc

end Mutual

/-! ## The run -/

/-- A party that does what a sender does, or nothing. -/
structure SourceLike (key : SessionKey) (id : RequestId)
    (L : Net.Party XferSender TxAct Instant Sent TxObs) : Prop where
  act : ∀ x i, L.act x i = (txParty key id).act x i ∨ L.act x i = ⟨x, [], []⟩
  receive : ∀ x now m, L.receive x now m = (txParty key id).receive x now m
    ∨ L.receive x now m = ⟨x, [], []⟩

/-- A party that does what a receiver does, or nothing. -/
structure SinkLike (key : SessionKey) (id : RequestId) (R : Net.Party Rx RxAct Instant Sent RxObs) :
    Prop where
  act : ∀ y i, R.act y i = (rxParty key id).act y i ∨ R.act y i = ⟨y, [], []⟩
  receive : ∀ y now m, R.receive y now m = (rxParty key id).receive y now m
    ∨ R.receive y now m = ⟨y, [], []⟩

theorem sourceLike_txParty (key : SessionKey) (id : RequestId) :
    SourceLike key id (txParty key id) :=
  ⟨fun _ _ => Or.inl rfl, fun _ _ _ => Or.inl rfl⟩

theorem sinkLike_rxParty (key : SessionKey) (id : RequestId) : SinkLike key id (rxParty key id) :=
  ⟨fun _ _ => Or.inl rfl, fun _ _ _ => Or.inl rfl⟩

/-- **Mutual knowledge**: the joint invariant holds in every run. -/
theorem mutual_run {L : Net.Party XferSender TxAct Instant Sent TxObs}
    {R : Net.Party Rx RxAct Instant Sent RxObs} (hL : SourceLike key id L) (hR : SinkLike key id R)
    (scfg : SenderConfig) (rcfg : ReceiverConfig) (start : Instant) (ops : List LinkOp) :
    Net.Inv (Mutual key id rcfg start) (SaysTrue key) (AnswersTrue key)
      (Net.run L R (linkStart scfg rcfg start) ops).2
      (Net.run L R (linkStart scfg rcfg start) ops).1 := by
  refine Net.run_safe (fun _ => True) (fun _ _ _ => trivial)
    ⟨Mutual.new key id scfg rcfg start, fun _ hm => (by cases hm), fun _ hm => (by cases hm)⟩
    ?_ ?_ ?_ ?_ ops trivial
  · intro ops t x y i _ _ h
    rcases hL.act x i with heq | heq <;> rw [heq]
    · exact h.act i
    · exact h.idle 0
  · intro ops t x y i _ _ h
    rcases hR.act y i with heq | heq <;> rw [heq]
    · cases i with
      | tick now => exact h.observe now _ fun _ _ _ hc => by cases hc
      | setBufferedMs ms => exact h.observe 0 _ fun _ _ _ hc => by cases hc
      | report occupancy => exact h.ignore _ rfl
    · exact h.ignore y rfl
  · intro ops t x y n c keep m _ _ h hm
    rcases hL.receive x c m with heq | heq <;> rw [heq]
    · exact h.receive c m hm
    · exact h.idle 0
  · intro ops t x y n c keep m _ _ h hm
    rcases hR.receive y c m with heq | heq <;> rw [heq]
    · simp only [rxParty]
      split
      · exact h.ignore y rfl
      · rename_i seq body hopen
        refine h.observe c _ fun seq' body' n' hc => ?_
        cases hc
        exact hm seq body hopen
    · exact h.ignore y rfl

end Protofish4
