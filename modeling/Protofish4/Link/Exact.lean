import Protofish4.Link

/-!
# The reliable stream is the pushed stream

Whatever the network does, the frames a receiver hands up as reliable are
the first so many frames pushed at the sender, in order, each once; and a
stream that is declared complete is all of them. The invariant relates
numbering, ring and every datagram in flight to the frames pushed so far.
-/

namespace Protofish4

open Holes

variable {key : SessionKey} {id : RequestId}

/-- The end of the payload was announced. -/
def FinishEmitted (t : LinkTrace) : Prop :=
  ∃ seq f, .inl (.event (.emit seq (.end f))) ∈ t

/-- What a body from the sender may say, given the frames pushed so far. -/
def Genuine (t : LinkTrace) (x : XferSender) (seq : XferSeq) : Body → Prop
  | .data ts payload => ⟨seq, ts, payload⟩ ∈ pushed t
  | .end f => x.state ≠ .streaming ∧ f.toNat = (pushed t).length ∧ FinishEmitted t
  | _ => True

theorem FinishEmitted.append {t : LinkTrace} (h : FinishEmitted t) (u : LinkTrace) :
    FinishEmitted (t ++ u) := by
  obtain ⟨seq, f, hm⟩ := h
  exact ⟨seq, f, List.mem_append_left _ hm⟩

/-- Nothing is pushed once the sender no longer streams, so what was
genuine stays genuine. -/
theorem Genuine.mono {t u : LinkTrace} {x x' : XferSender} {seq : XferSeq} {body : Body}
    (h : Genuine t x seq body)
    (hx : x.state ≠ .streaming → x'.state ≠ .streaming ∧ pushed u = []) :
    Genuine (t ++ u) x' seq body := by
  cases body with
  | data ts payload =>
    show _ ∈ pushed (t ++ u)
    rw [pushed_append]
    exact List.mem_append_left _ h
  | «end» f =>
    obtain ⟨hs, hf, he⟩ := h
    obtain ⟨hs', hu⟩ := hx hs
    refine ⟨hs', ?_, he.append u⟩
    rw [pushed_append, hu, List.append_nil]
    exact hf
  | _ => trivial

/-- The joint invariant: numbers follow the frames pushed, the ring holds
their sealed bytes, and the receiver was only ever given genuine bodies. -/
structure Exact (key : SessionKey) (id : RequestId) (t : LinkTrace) (x : XferSender) : Prop where
  next : x.nextSeq.toNat = (pushed t).length + 1
  numbered : ∀ i frame, (pushed t)[i]? = some frame → frame.seq.toNat = i + 1
  ring : ∀ e ∈ x.ring.entries, ∃ frame ∈ pushed t, e.1 = frame.seq
    ∧ sealBody key id .send frame.seq.val (.data frame.ts frame.payload) = .ok e.2
  handled : ∀ seq body now, .handle seq body now ∈ recvCalls t → Genuine t x seq body

/-- Every datagram in flight to the receiver opens to something genuine. -/
def OpensGenuine (key : SessionKey) (t : LinkTrace) (x : XferSender) (m : Sent) : Prop :=
  ∀ seq body, openBody key .send m.bytes = some (seq, body) → Genuine t x seq body

theorem opensGenuine_of_seal {t : LinkTrace} {x : XferSender} {seq : XferSeq} {body : Body}
    {m : Sent} (hseal : sealBody key id .send seq.val body = .ok m.bytes)
    (hdir : body.kind.direction = .send) (h : Genuine t x seq body) : OpensGenuine key t x m := by
  intro seq' body' hopen
  rw [openBody_sealBody hseal hdir] at hopen
  cases hopen
  exact h

/-- A reaction that pushes no frame: the numbering stands, the ring only
shrinks, and what is sent is genuine or comes from the ring. -/
theorem Exact.quiet {t : LinkTrace} {x x' : XferSender} {y : Rx} (h : Exact key id t x)
    (now : Instant) (es : List SendEvent) (hnext : x'.nextSeq = x.nextSeq)
    (hring : ∀ e ∈ x'.ring.entries, e ∈ x.ring.entries)
    (hstate : x.state ≠ .streaming → x'.state ≠ .streaming)
    (hemit : ∀ seq body, .emit seq body ∈ es → body.kind ≠ .data ∧ body.kind.direction = .send
      ∧ ∀ u, .inl (.event (.emit seq body)) ∈ u → pushed u = [] → Genuine (t ++ u) x' seq body)
    (hresend : ∀ ds, .resend ds ∈ es → ∀ d ∈ ds, ∃ s, (s, d) ∈ x.ring.entries) :
    Net.LeftKeeps (fun t x _ => Exact key id t x) (fun t x _ m => OpensGenuine key t x m)
      (fun _ _ _ _ => True) t x y (transmitAll key id now x' es) := by
  obtain ⟨hs, hframes, -, hsent⟩ := transmitAll_sendsFrom key id now x' es
    fun seq body he => (hemit seq body he).1
  have hpush : pushed ((transmitAll key id now x' es).events.map
      (.inl : TxObs → TxObs ⊕ RxObs)) = [] := by
    rw [pushed_inl, hframes]
  have hmono : ∀ seq body, Genuine t x seq body → Genuine (t ++
      (transmitAll key id now x' es).events.map .inl) x' seq body :=
    fun seq body hg => hg.mono fun hne => ⟨hstate hne, hpush⟩
  refine ⟨⟨?_, ?_, ?_, ?_⟩, ?_, ?_, fun _ _ => trivial⟩
  · rw [hs, hnext, pushed_append, hpush, List.append_nil]
    exact h.next
  · rw [pushed_append, hpush, List.append_nil]
    exact h.numbered
  · rw [hs, pushed_append, hpush, List.append_nil]
    exact fun e he => h.ring e (hring e he)
  · intro seq body now' hc
    rw [recvCalls_append, recvCalls_inl, List.append_nil] at hc
    rw [hs]
    exact hmono seq body (h.handled seq body now' hc)
  · intro m hm
    rw [hs]
    rcases (hsent m hm).2 with ⟨seq, body, he, hd⟩ | ⟨ds, hds, hd⟩
    · obtain ⟨-, hdir, hg⟩ := hemit seq body he
      refine opensGenuine_of_seal hd hdir (hg _ ?_ hpush)
      exact List.mem_map_of_mem (event_mem_transmitAll now he)
    · -- a resent datagram is the sealed packet of a frame pushed before
      obtain ⟨s, hmem⟩ := hresend ds hds m.bytes hd
      obtain ⟨frame, hframe, -, hseal⟩ := h.ring _ hmem
      refine opensGenuine_of_seal hseal rfl (hmono _ _ ?_)
      exact hframe
  · intro m hg seq body hopen
    rw [hs]
    exact hmono seq body (hg seq body hopen)

/-- A reaction that pushes one frame, below the top of the number range. -/
theorem Exact.push {t : LinkTrace} {x : XferSender} {y : Rx} (h : Exact key id t x)
    (hfew : (pushed t).length + 1 < 2 ^ 32 - 1) (hs : x.state = .streaming)
    (first : Option Instant) (ts : TimestampMs) (payload : Bytes) (now : Instant) :
    Net.LeftKeeps (fun t x _ => Exact key id t x) (fun t x _ m => OpensGenuine key t x m)
      (fun _ _ _ _ => True) t x y
      (transmitAll key id now { x with nextSeq := x.nextSeq.next, firstDataAt := first }
        [.emit x.nextSeq (.data ts payload)]) := by
  generalize hx' : ({ x with nextSeq := x.nextSeq.next, firstDataAt := first } : XferSender) = x'
  have hpush := transmitAll_pushes key id now x' x.nextSeq ts payload
  generalize transmitAll key id now x' [.emit x.nextSeq (.data ts payload)] = q at hpush ⊢
  have hnext : x'.nextSeq.toNat = (pushed t).length + 2 := by
    rw [← hx']
    show x.nextSeq.next.toNat = _
    rw [XferSeq.toNat_next, h.next]
    omega
  have hring' : x'.ring = x.ring := by rw [← hx']
  have hframes : pushed (q.events.map (.inl : TxObs → TxObs ⊕ RxObs))
      = [⟨x.nextSeq, ts, payload⟩] := by
    rw [pushed_inl, hpush.frames]
  have hstate : q.state.nextSeq = x'.nextSeq := by rw [hpush.state]
  have hmono : ∀ seq body, Genuine t x seq body →
      Genuine (t ++ q.events.map .inl) q.state seq body :=
    fun seq body hg => hg.mono fun hne => absurd hs hne
  have hnew : (⟨x.nextSeq, ts, payload⟩ : Frame) ∈ pushed (t ++ q.events.map .inl) := by
    rw [pushed_append, hframes]
    simp
  refine ⟨⟨?_, ?_, ?_, ?_⟩, ?_, ?_, fun _ _ => trivial⟩
  · rw [hstate, hnext, pushed_append, hframes]
    simp
  · intro i frame hi
    rw [pushed_append, hframes] at hi
    rcases Nat.lt_trichotomy i (pushed t).length with hlt | heq | hgt
    · rw [List.getElem?_append_left hlt] at hi
      exact h.numbered i frame hi
    · rw [List.getElem?_append_right (by omega), heq, Nat.sub_self] at hi
      cases hi
      rw [h.next, heq]
    · rw [List.getElem?_append_right (by omega), List.getElem?_eq_none (by simp; omega)] at hi
      cases hi
  · have hold : ∀ e ∈ x.ring.entries, ∃ frame ∈ pushed (t ++ q.events.map .inl), e.1 = frame.seq
        ∧ sealBody key id .send frame.seq.val (.data frame.ts frame.payload) = .ok e.2 := by
      intro e he
      obtain ⟨frame, hf, hrest⟩ := h.ring e he
      exact ⟨frame, by rw [pushed_append]; exact List.mem_append_left _ hf, hrest⟩
    exact hpush.sealed hnew fun e he => hold e (hring' ▸ he)
  · intro seq body now' hc
    rw [recvCalls_append, recvCalls_inl, List.append_nil] at hc
    exact hmono seq body (h.handled seq body now' hc)
  · intro m hm
    exact opensGenuine_of_seal (hpush.sent m hm) rfl hnew
  · intro m hg seq body hopen
    exact hmono seq body (hg seq body hopen)

/-- The number of frames a push adds, whether or not they encode. -/
theorem pushed_transmitAll_data (now : Instant) (s : XferSender) (seq : XferSeq)
    (ts : TimestampMs) (payload : Bytes) :
    pushed ((transmitAll key id now s [.emit seq (.data ts payload)]).events.map
      (.inl : TxObs → TxObs ⊕ RxObs)) = [⟨seq, ts, payload⟩] := by
  rw [pushed_inl, (transmitAll_pushes key id now s seq ts payload).frames]

theorem Exact.idle {t : LinkTrace} {x : XferSender} {y : Rx} (h : Exact key id t x)
    (now : Instant) :
    Net.LeftKeeps (fun t x _ => Exact key id t x) (fun t x _ m => OpensGenuine key t x m)
      (fun _ _ _ _ => True) t x y (transmitAll key id now x []) :=
  h.quiet now [] rfl (fun _ he => he) (fun hs => hs) (fun _ _ he => by cases he)
    fun _ he => by cases he

theorem Exact.act {t : LinkTrace} {x : XferSender} {y : Rx} (h : Exact key id t x) (i : TxAct)
    (hfew : (pushed (t ++ ((txParty key id).act x i).events.map .inl)).length < 2 ^ 32 - 1) :
    Net.LeftKeeps (fun t x _ => Exact key id t x) (fun t x _ m => OpensGenuine key t x m)
      (fun _ _ _ _ => True) t x y ((txParty key id).act x i) := by
  cases i with
  | pushFrame ts payload now =>
    show Net.LeftKeeps _ _ _ _ _ _ (transmitAll key id now _ _)
    change (pushed (t ++ (transmitAll key id now (x.pushFrame ts payload now).1
      (x.pushFrame ts payload now).2.toList).events.map .inl)).length < _ at hfew
    rcases x.pushFrame_cases now ts payload with ⟨hp, -⟩ | ⟨hc, hp1, hp2⟩
    · rw [hp]
      exact h.idle now
    · rw [hp1, hp2] at hfew ⊢
      rw [Option.toList_some, pushed_append, pushed_transmitAll_data] at hfew
      exact h.push (by simpa using hfew) (x.canSend_streaming hc) _ ts payload now
  | finish now =>
    show Net.LeftKeeps _ _ _ _ _ _ (transmitAll key id now _ _)
    rcases x.finish_cases now with ⟨hf, -⟩ | ⟨hs, hs', hn, hr, seq, he⟩
    · rw [hf]
      exact h.idle now
    · rw [he]
      refine h.quiet now _ hn (fun e he => hr ▸ he) (fun hne => absurd hs hne) ?_ ?_
      · intro seq' body' hm
        cases List.mem_singleton.mp hm
        refine ⟨by simp [Body.kind], rfl, fun u hu hpu => ⟨by rw [hs']; simp, ?_, ?_⟩⟩
        · have hnext := h.next
          have hlt := x.nextSeq.toNat_lt
          rw [pushed_append, hpu, List.append_nil, XferSeq.toNat_ofNat (by omega)]
          omega
        · exact ⟨_, _, List.mem_append_right _ hu⟩
      · intro ds hm
        cases List.mem_singleton.mp hm
  | tick now =>
    show Net.LeftKeeps _ _ _ _ _ _ (transmitAll key id now _ _)
    refine h.quiet now _ (by rw [x.tick_frame]) (fun e he => ?_) (x.tick_state now) ?_ ?_
    · rw [x.tick_frame] at he
      exact he
    · intro seq body hm
      rw [x.tick_emit now hm]
      exact ⟨by simp [Body.kind], rfl, fun _ _ _ => trivial⟩
    · exact fun ds hm => absurd hm (x.resend_not_mem_tick now)

theorem Exact.receive {t : LinkTrace} {x : XferSender} {y : Rx} (h : Exact key id t x)
    (now : Instant) (m : Sent) :
    Net.LeftKeeps (fun t x _ => Exact key id t x) (fun t x _ m => OpensGenuine key t x m)
      (fun _ _ _ _ => True) t x y ((txParty key id).receive x now m) := by
  simp only [txParty]
  split
  · exact h.idle now
  · rename_i body _
    refine h.quiet now _ (by rw [x.handle_frame]) (fun _ he => x.handle_ring_subset now body he)
      (x.handle_state now body) ?_ ?_
    · exact fun seq b hm => absurd hm (x.emit_not_mem_handle now)
    · exact fun ds hm d hd => x.held_of_resend now hm hd

/-- A receiver that is only given genuine bodies disturbs nothing. -/
theorem Exact.observe {t : LinkTrace} {x : XferSender} {y : Rx} (h : Exact key id t x)
    (q : Net.Reaction Rx Sent RxObs)
    (hq : ∀ o ∈ q.events, ∀ seq body now, o.call = .handle seq body now → Genuine t x seq body) :
    Net.RightKeeps (fun t x _ => Exact key id t x) (fun t x _ m => OpensGenuine key t x m)
      (fun _ _ _ _ => True) t x y q := by
  have hpush : pushed (q.events.map (.inr : RxObs → TxObs ⊕ RxObs)) = [] := pushed_inr _
  have hmono : ∀ seq body, Genuine t x seq body →
      Genuine (t ++ q.events.map .inr) x seq body :=
    fun seq body hg => hg.mono fun hne => ⟨hne, hpush⟩
  refine ⟨⟨?_, ?_, ?_, ?_⟩, fun _ _ => trivial, ?_, fun _ _ => trivial⟩
  · rw [pushed_append, hpush, List.append_nil]
    exact h.next
  · rw [pushed_append, hpush, List.append_nil]
    exact h.numbered
  · rw [pushed_append, hpush, List.append_nil]
    exact h.ring
  · intro seq body now hc
    rw [recvCalls_append, recvCalls_inr] at hc
    rcases List.mem_append.mp hc with hc | hc
    · exact hmono seq body (h.handled seq body now hc)
    · obtain ⟨o, ho, heq⟩ := List.mem_map.mp hc
      exact hmono seq body (hq o ho seq body now heq)
  · intro m hg seq body hopen
    exact hmono seq body (hg seq body hopen)

theorem exact_start (scfg : SenderConfig) : Exact key id [] (XferSender.new scfg) where
  next := rfl
  numbered i frame h := by simp [pushed, Net.lefts] at h
  ring e he := by cases he
  handled seq body now h := by cases h

theorem filterMap_range_getElem? {α : Type*} (l : List α) (k : Nat) :
    (List.range' 1 k).filterMap (fun s => l[s - 1]?) = l.take k := by
  induction k with
  | zero => rfl
  | succ k ih =>
    have hk : 1 + k - 1 = k := by omega
    rw [List.range'_1_concat, List.filterMap_append, ih, List.take_add_one]
    cases h : l[k]? <;> simp [h, hk]

/-- In a link, the first arrival under a number is the frame pushed under
it. -/
theorem Exact.firstArrival {t : LinkTrace} {x : XferSender} (h : Exact key id t x) {s : Nat}
    (hs : (XferReceiver.firstArrival (recvCalls t) s).isSome) :
    XferReceiver.firstArrival (recvCalls t) s = (pushed t)[s - 1]? := by
  obtain ⟨frame, hf⟩ := Option.isSome_iff_exists.mp hs
  obtain ⟨hmem, hseq, -⟩ := XferReceiver.firstArrival_eq_some hf
  obtain ⟨now, hc⟩ := XferReceiver.mem_arrivals.mp hmem
  have hp : frame ∈ pushed t := h.handled _ _ now hc
  obtain ⟨i, hi⟩ := List.mem_iff_getElem?.mp hp
  have hnum := h.numbered i frame hi
  have : s - 1 = i := by omega
  rw [hf, this, hi]

/-! ## Every run -/

section Run

variable (key : SessionKey) (id : RequestId) (scfg : SenderConfig) (rcfg : ReceiverConfig)
variable (start : Instant)

/-- Fewer than `2 ^ 32 - 1` frames were pushed. -/
def FewPushed (ops : List LinkOp) : Prop :=
  (pushed (linkRun key id scfg rcfg start ops).2).length < 2 ^ 32 - 1

instance (ops : List LinkOp) : Decidable (FewPushed key id scfg rcfg start ops) :=
  inferInstanceAs (Decidable (_ < _))

theorem FewPushed.of_concat {ops : List LinkOp} {op : LinkOp}
    (h : FewPushed key id scfg rcfg start (ops ++ [op])) :
    FewPushed key id scfg rcfg start ops := by
  unfold FewPushed linkRun at h
  rw [Net.run_concat_snd, pushed_append, List.length_append] at h
  unfold FewPushed linkRun
  omega

/-- **The joint invariant holds in every run.** -/
theorem exact_run (ops : List LinkOp) (h : FewPushed key id scfg rcfg start ops) :
    Net.Inv (fun t x _ => Exact key id t x) (fun t x _ m => OpensGenuine key t x m)
      (fun _ _ _ _ => True) (linkRun key id scfg rcfg start ops).2
      (linkRun key id scfg rcfg start ops).1 := by
  refine Net.run_safe (FewPushed key id scfg rcfg start) (fun _ _ => FewPushed.of_concat _ _ _ _ _)
    ⟨exact_start scfg, (fun _ hm => by cases hm), fun _ _ => trivial⟩ ?_ ?_ ?_ ?_ ops h
  · intro ops t x y i hat hok hx
    refine hx.act i ?_
    rw [← hat.act_left]
    exact hok
  · intro ops t x y i _ _ hx
    refine hx.observe _ fun o ho seq body now heq => ?_
    cases i with
    | tick | setBufferedMs =>
      cases List.mem_singleton.mp ho
      cases heq
    | report => cases ho
  · intro ops t x y n now keep m _ _ hx _
    exact hx.receive now m
  · intro ops t x y n now keep m _ _ hx hm
    refine hx.observe _ fun o ho seq body now' heq => ?_
    simp only [rxParty] at ho
    split at ho
    · cases ho
    · rename_i hopen
      cases List.mem_singleton.mp ho
      cases heq
      exact hm _ _ hopen

/-- `End` is only ever emitted by a call of `finish`. -/
theorem finish_of_finishEmitted {ops : List LinkOp}
    (h : FinishEmitted (linkRun key id scfg rcfg start ops).2) :
    ∃ now, .left (.finish now) ∈ ops := by
  obtain ⟨seq, f, hm⟩ := h
  obtain ⟨pre, op, post, rfl, he⟩ := (Machine.mem_run _).mp hm
  -- only the events the sender returned are logged
  have hlog : ∀ now (s : XferSender) es,
      (.inl (.event (.emit seq (.end f))) : TxObs ⊕ RxObs)
        ∈ (transmitAll key id now s es).events.map .inl → .emit seq (.end f) ∈ es := by
    intro now s es hm
    obtain ⟨o, ho, heq⟩ := List.mem_map.mp hm
    cases heq
    exact mem_of_event_mem_transmitAll ho
  generalize (Machine.run _ _ pre).1 = s at he
  cases op with
  | left i =>
    cases i with
    | finish now => exact ⟨now, by simp⟩
    | pushFrame ts payload now =>
      have := hlog now _ _ he
      rcases s.left.pushFrame_cases now ts payload with ⟨hp, -⟩ | ⟨-, -, hp⟩
      · rw [hp] at this
        cases this
      · rw [hp] at this
        cases List.mem_singleton.mp this
    | tick now =>
      cases s.left.tick_emit now (hlog now _ _ he)
  | deliverLeft n now keep =>
    simp only [Net.step] at he
    split at he
    · cases he
    · simp only [Net.leftDoes, txParty] at he
      split at he
      · cases he
      · exact absurd (hlog now _ _ he) (XferSender.emit_not_mem_handle _ now)
  | right i => simp [Net.step, Net.rightDoes] at he
  | deliverRight n now keep =>
    simp only [Net.step] at he
    split at he
    · cases he
    · simp [Net.rightDoes] at he
  | dropRight | dropLeft => cases he

/-! ## What the receiver hands up -/

/-- **End-to-end exactness of the reliable stream.** In every run in which
fewer than `2 ^ 32 - 1` frames are pushed, the frames emitted as reliable
so far are a first part of the frames pushed so far; and whenever the
stream is declared complete with `f`, `finish` has been called, and up to
that event all frames pushed, `f` of them, have been emitted. -/
theorem reliable_stream_exact (ops : List LinkOp) (h : FewPushed key id scfg rcfg start ops) :
    let t := (linkRun key id scfg rcfg start ops).2
    reliables (recvEvents t) <+: pushed t
      ∧ ∀ evs rest f, recvEvents t = evs ++ .relFinished (.complete f) :: rest →
        (∃ now, .left (.finish now) ∈ ops) ∧ reliables evs = pushed t
          ∧ f.toNat = (pushed t).length := by
  have hx := (exact_run key id scfg rcfg start ops h).holds
  have hfin : FinishEmitted (linkRun key id scfg rcfg start ops).2 → _ :=
    finish_of_finishEmitted key id scfg rcfg start
  have hr := recvInv_link key id scfg rcfg start ops
  generalize (linkRun key id scfg rcfg start ops).2 = t at hx hfin hr
  generalize (linkRun key id scfg rcfg start ops).1.left = x at hx
  generalize (linkRun key id scfg rcfg start ops).1.right.state = r at hr
  have hfilled : Filled {s | (XferReceiver.firstArrival (recvCalls t) s).isSome} r.relReleased :=
    fun s h1 hk => hr.seen s (GapTracker.filled_seen _ s h1 (hk.trans hr.released_le))
  have hout : reliables (recvEvents t) = (pushed t).take r.relReleased := by
    rw [hr.out, ← filterMap_range_getElem?]
    apply List.filterMap_congr
    intro s hs
    obtain ⟨h1, h2⟩ := List.mem_range'_1.mp hs
    exact hx.firstArrival (hfilled s h1 (by omega))
  refine ⟨hout ▸ List.take_prefix _ _, ?_⟩
  intro evs rest f heq
  obtain ⟨⟨seq, now, hc⟩, hle⟩ := hr.complete f (by simp [heq])
  obtain ⟨-, hf, he⟩ := hx.handled seq (.end f) now hc
  refine ⟨hfin he, ?_, hf⟩
  have hpre : reliables (recvEvents t) = reliables evs := by
    have hends := hr.ends
    rw [heq] at hends ⊢
    exact XferReceiver.reliables_of_outcome hends
  rw [← hpre, hout]
  exact List.take_of_length_le (by omega)

/-- Of three frames the second is lost and the first comes twice; so does
the request for the lost one, and the end comes last. -/
def lossyOps : List LinkOp :=
  [.left (.pushFrame ⟨0⟩ [1] 0), .left (.pushFrame ⟨20⟩ [2] 0), .left (.pushFrame ⟨40⟩ [3] 0),
    .dropRight 1, .deliverRight 0 1 true, .deliverRight 1 2 false, .deliverRight 0 3 false,
    .right (.tick (fromMillis 100)), .deliverLeft 0 (fromMillis 120) true,
    .deliverRight 0 (fromMillis 140) false, .left (.finish (fromMillis 150)),
    .deliverLeft 0 (fromMillis 160) false, .deliverRight 0 (fromMillis 170) false]

theorem reliable_stream_exact_lossy :
    let t := (linkRun plainKey zeroId {} .audioEngine 0 lossyOps).2
    ((∃ now, .left (.finish now) ∈ lossyOps) ∧ reliables ((recvEvents t).take 7) = pushed t
        ∧ (XferSeq.ofNat 3).toNat = (pushed t).length)
      ∧ pushed t = [⟨⟨1⟩, ⟨0⟩, [1]⟩, ⟨⟨2⟩, ⟨20⟩, [2]⟩, ⟨⟨3⟩, ⟨40⟩, [3]⟩] :=
  ⟨(reliable_stream_exact plainKey zeroId {} .audioEngine 0 lossyOps
    (by decide +kernel)).2 _ [.sendEndAck, .closed] _ (by decide +kernel), by decide +kernel⟩

end Run

end Protofish4
