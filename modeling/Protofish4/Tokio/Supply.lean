import Protofish4.Tokio.Finish
import Protofish4.Tokio.Nonces

/-!
# What a failed send leaves behind

`send_frame` takes the sequence number before it encodes, seals and sends,
and fills the ring after. This module follows every number handed out: it
must be held in the ring, or have left it for good.
-/

namespace Protofish4

namespace RetransRing

/-- The ring answers for this number: it holds it, or reports it as lost. -/
def Covers (r : RetransRing) (seq : XferSeq) : Prop :=
  seq.toNat ≤ r.lostBelow ∨ ∃ e ∈ r.entries, e.1 = seq

instance (r : RetransRing) (seq : XferSeq) : Decidable (r.Covers seq) :=
  inferInstanceAs (Decidable (_ ∨ _))

variable {r : RetransRing} {seq : XferSeq}

/-- What is evicted is reported as lost. -/
theorem Covers.evict {q q' : RetransRing} {oldest : XferSeq} (hc : q.Covers seq)
    (h : q.evictOldest = some (oldest, q')) : q'.Covers seq := by
  obtain ⟨data, hcons, hlost⟩ := evictOldest_some h
  rcases hc with hle | ⟨e, he, heq⟩
  · exact Or.inl (by omega)
  · rw [hcons] at he
    rcases List.mem_cons.mp he with rfl | he
    · cases heq
      exact Or.inl (hlost ▸ Nat.le_max_right _ _)
    · exact Or.inr ⟨e, he, heq⟩

theorem Covers.push (h : r.Covers seq) (new : XferSeq) (d : Bytes) : (r.push new d).Covers seq := by
  refine push_keeps (fun q => q.Covers seq) (fun q _ q' he hc => hc.evict he) ?_
  exact h.imp_right fun ⟨e, he, heq⟩ => ⟨e, List.mem_append_left _ he, heq⟩

theorem covers_push (r : RetransRing) (seq : XferSeq) (d : Bytes) : (r.push seq d).Covers seq := by
  refine push_keeps (fun q => q.Covers seq) (fun q _ q' he hc => hc.evict he) ?_
  exact Or.inr ⟨(seq, d), List.mem_append_right _ (List.mem_singleton_self _), rfl⟩

theorem Covers.ackThrough (h : r.Covers seq) (c : XferSeq) : (r.ackThrough c).Covers seq := by
  unfold Covers
  rw [ackThrough_lostBelow, ackThrough_entries]
  rcases h with hle | ⟨e, he, heq⟩
  · exact Or.inl (by omega)
  · by_cases hc : seq.toNat ≤ c.toNat
    · exact Or.inl (by omega)
    · refine Or.inr ⟨e, ?_, heq⟩
      rw [← List.takeWhile_append_dropWhile (p := fun e => decide (e.1.toNat ≤ c.toNat))
        (l := r.entries)] at he
      refine (List.mem_append.mp he).resolve_left fun htake => hc ?_
      have hle := List.mem_takeWhile_imp htake
      exact heq ▸ of_decide_eq_true hle

end RetransRing

namespace Sender

/-! ## Numbers handed out -/

/-- A frame was emitted under this number. -/
def HandedOut (t : List Effect) (seq : XferSeq) : Prop :=
  ∃ ts payload, .event (.emit seq (.data ts payload)) ∈ t

/-- The ring holds the sealed bytes of a frame emitted under this number,
or reports it as lost. -/
def Supplied (t : List Effect) (s : Sender) (seq : XferSeq) : Prop :=
  seq.toNat ≤ s.state.ring.lostBelow
    ∨ ∃ ts payload d, .event (.emit seq (.data ts payload)) ∈ t
      ∧ sealBody s.key s.requestId .send seq.val (.data ts payload) = .ok d
      ∧ s.state.ring.get seq = some d

/-- Every number handed out can be supplied or is known to be lost. -/
def NoHole (t : List Effect) (s : Sender) : Prop := ∀ seq, HandedOut t seq → Supplied t s seq

/-- The ring holds sealed bytes of frames emitted. -/
def HoldsSealed (t : List Effect) (s : Sender) : Prop :=
  ∀ e ∈ s.state.ring.entries, ∃ ts payload, .event (.emit e.1 (.data ts payload)) ∈ t
    ∧ sealBody s.key s.requestId .send e.1.val (.data ts payload) = .ok e.2

variable {s : Sender} {t u : List Effect} {seq : XferSeq}

theorem handedOut_append : HandedOut (t ++ u) seq ↔ HandedOut t seq ∨ HandedOut u seq := by
  simp only [HandedOut, List.mem_append, exists_or]

theorem supplied_iff (h : HoldsSealed t s) : Supplied t s seq ↔ s.state.ring.Covers seq := by
  refine or_congr_right ⟨?_, ?_⟩
  · rintro ⟨ts, payload, d, -, -, hget⟩
    exact ⟨(seq, d), RetransRing.get_mem hget, rfl⟩
  · intro hheld
    obtain ⟨d, hget⟩ := RetransRing.exists_get hheld
    obtain ⟨ts, payload, hev, hseal⟩ := h _ (RetransRing.get_mem hget)
    exact ⟨ts, payload, d, hev, hseal, hget⟩

/-! ## Steps that hand out nothing -/

/-- No number is handed out, and the ring answers for what it answered for. -/
structure Silent (s : Sender) (d : Done) : Prop where
  key : d.state.key = s.key
  requestId : d.state.requestId = s.requestId
  covers : ∀ seq, s.state.ring.Covers seq → d.state.state.ring.Covers seq
  entries : ∀ e ∈ d.state.state.ring.entries, e ∈ s.state.ring.entries
  hands : ∀ seq, ¬ HandedOut d.effects seq

namespace Silent

variable {d : Done}

theorem of_same (hs : d.state = s) (h : ∀ seq, ¬ HandedOut d.effects seq) : Silent s d := by
  subst hs
  exact ⟨rfl, rfl, fun _ hc => hc, fun _ he => he, h⟩

theorem andThen {f : Sender → Done} (h : Silent s d) (hf : ∀ s, Silent s (f s)) :
    Silent s (d.andThen f) := by
  unfold Done.andThen
  split
  · have h' := hf d.state
    refine ⟨h'.key.trans h.key, h'.requestId.trans h.requestId, fun seq hc => h'.covers seq
      (h.covers seq hc), fun e he => h.entries e (h'.entries e he), fun seq hh => ?_⟩
    exact (handedOut_append.mp hh).elim (h.hands seq) (h'.hands seq)
  · exact ⟨h.key, h.requestId, h.covers, h.entries, h.hands⟩

end Silent

/-- Without a frame among them, events leave the sender as it is. -/
theorem dispatch_silent (s : Sender) (fault : Option Nat) (evs : List SendEvent)
    (h : ∀ seq ts payload, .emit seq (.data ts payload) ∉ evs) :
    Silent s (s.dispatch fault evs) := by
  refine Silent.of_same ?_ fun seq ⟨ts, payload, hm⟩ => h seq ts payload (event_mem_dispatch hm)
  induction evs generalizing fault with
  | nil => rfl
  | cons ev evs ih =>
    have hone : (s.dispatchOne fault ev).state = s := by
      rcases ev with ⟨seq, body⟩ | _ | _ | reason
      · -- only a data packet is handed to the ring
        have hkind : body.kind ≠ .data := by
          cases body with
          | data ts payload => exact absurd List.mem_cons_self (h seq ts payload)
          | «end» | ack | nack | endAck | keepalive => simp [Body.kind]
        simp only [dispatchOne, emit, if_neg hkind]
        repeat' split
        all_goals rfl
      · simp only [dispatchOne, resend]
        repeat' split
        all_goals rfl
      · rfl
      · cases reason <;> rfl
    have hrest : ∀ seq ts payload, .emit seq (.data ts payload) ∉ evs :=
      fun seq ts payload hm => h seq ts payload (List.mem_cons_of_mem _ hm)
    simp only [dispatch, Done.andThen, Done.after, hone]
    split
    · exact ih _ hrest
    · rfl

/-- The state machine's own work on the ring, before its events are
dispatched. -/
theorem Silent.after_call {x : XferSender} {fault : Option Nat} {evs : List SendEvent}
    (hcovers : ∀ seq, s.state.ring.Covers seq → x.ring.Covers seq)
    (hentries : ∀ e ∈ x.ring.entries, e ∈ s.state.ring.entries)
    (h : ∀ seq ts payload, .emit seq (.data ts payload) ∉ evs) :
    Silent s (dispatch { s with state := x } fault evs) := by
  have h' := dispatch_silent { s with state := x } fault evs h
  exact ⟨h'.key, h'.requestId, fun seq hc => h'.covers seq (hcovers seq hc),
    fun e he => hentries e (h'.entries e he), h'.hands⟩

theorem handleOnce_silent (s : Sender) (incoming : Incoming) (now : Instant) (fault : Option Nat) :
    Silent s (s.handleOnce incoming now fault) := by
  have hnone : ∀ seq, ¬ HandedOut [] seq := fun _ ⟨_, _, hm⟩ => by cases hm
  unfold handleOnce
  split
  · exact .of_same rfl hnone
  · split
    · exact .of_same rfl hnone
    · rename_i body _
      refine .after_call (fun seq hc => ?_) (fun e he => s.state.handle_ring_subset now body he)
        fun seq ts payload hm => ?_
      · cases body with
        | ack c _ _ => exact hc.ackThrough c
        | data | «end» | nack | endAck | keepalive => exact hc
      · exact absurd hm (s.state.emit_not_mem_handle now)

theorem tickOnce_silent (s : Sender) (now : Instant) (fault : Option Nat) :
    Silent s (s.tickOnce now fault) := by
  have hring : (s.state.tick now).1.ring = s.state.ring := by rw [s.state.tick_frame]
  refine .after_call (fun seq hc => hring ▸ hc) (fun e he => hring ▸ he) fun seq ts payload hm => ?_
  cases s.state.tick_emit now hm

theorem finishOnce_silent (s : Sender) (now : Instant) (fault : Option Nat) :
    Silent s (s.finishOnce now fault) := by
  rcases s.state.finish_cases now with ⟨hf, -⟩ | ⟨-, -, -, hr, seq, he⟩
  · unfold finishOnce
    rw [hf]
    exact dispatch_silent s fault [] fun _ _ _ hm => by cases hm
  · refine .after_call (fun seq hc => hr ▸ hc) (fun e he => hr ▸ he) fun seq ts payload hm => ?_
    rw [he] at hm
    cases List.mem_singleton.mp hm

/-! ## The step that hands out a number -/

/-- The frame fits into a packet and its send succeeds. -/
def Fits (payload : Bytes) (fault : Option Nat) : Prop :=
  payload.length ≤ maxPayload ∧ fault ≠ some 0

instance (payload : Bytes) (fault : Option Nat) : Decidable (Fits payload fault) :=
  inferInstanceAs (Decidable (_ ∧ _))

/-- Emitting a frame fills the ring exactly if it fits. -/
theorem emit_data (s : Sender) (fault : Option Nat) (seq : XferSeq) (ts : TimestampMs)
    (payload : Bytes) :
    (Fits payload fault ∧ ∃ d, sealBody s.key s.requestId .send seq.val (.data ts payload) = .ok d
      ∧ (s.emit fault seq (.data ts payload)).state
        = { s with state := s.state.recordSealed seq d })
    ∨ (¬ Fits payload fault ∧ (s.emit fault seq (.data ts payload)).state = s) := by
  by_cases hlen : payload.length ≤ maxPayload
  · have henc : encodeBody (.data ts payload) = .ok (u64Bytes ts.val ++ payload) := by
      rw [encodeBody, if_neg (not_lt.mpr hlen)]
    obtain ⟨d, hd⟩ := @sealBody_isOk s.key s.requestId .send seq.val _ _ henc
    have hseal : (SealCall.run s.key ⟨Body.kind (.data ts payload), s.requestId, seq.val⟩ .send
        (u64Bytes ts.val ++ payload)).result = .ok d := by
      rw [SealCall.run]
      simpa [sealBody, henc, Bind.bind, Except.bind] using hd
    simp only [emit, henc, hseal]
    by_cases hf : fault = some 0
    · exact Or.inr ⟨fun h => h.2 hf, by rw [if_pos hf]⟩
    · refine Or.inl ⟨⟨hlen, hf⟩, d, hd, ?_⟩
      rw [if_neg hf]
      rfl
  · refine Or.inr ⟨fun h => hlen h.1, ?_⟩
    simp only [emit, encodeBody, if_pos (not_le.mp hlen)]

/-- Nothing is handed out, or it is kept: the frame fits, or the ring
answers for its number already. -/
def Kept (s : Sender) (payload : Bytes) (fault : Option Nat) : Prop :=
  s.state.canSend = true → Fits payload fault ∨ s.state.ring.Covers s.state.nextSeq

instance (s : Sender) (payload : Bytes) (fault : Option Nat) : Decidable (s.Kept payload fault) :=
  inferInstanceAs (Decidable (_ → _))

/-- What a push that takes a number does. -/
structure Takes (s : Sender) (payload : Bytes) (fault : Option Nat) (d : Done) : Prop where
  key : d.state.key = s.key
  requestId : d.state.requestId = s.requestId
  hands : ∀ seq, HandedOut d.effects seq ↔ seq = s.state.nextSeq
  fate : (Fits payload fault ∧ ∃ ts bytes,
      .event (.emit s.state.nextSeq (.data ts payload)) ∈ d.effects
      ∧ sealBody s.key s.requestId .send s.state.nextSeq.val (.data ts payload) = .ok bytes
      ∧ d.state.state.ring = s.state.ring.push s.state.nextSeq bytes)
    ∨ (¬ Fits payload fault ∧ d.state.state.ring = s.state.ring)

theorem pushOnce_cases (s : Sender) (ts : TimestampMs) (payload : Bytes) (now : Instant)
    (fault : Option Nat) :
    (s.state.canSend = false ∧ Silent s (s.pushOnce ts payload now fault))
      ∨ (s.state.canSend = true ∧ Takes s payload fault (s.pushOnce ts payload now fault)) := by
  unfold pushOnce
  cases hc : s.state.canSend with
  | false =>
    refine Or.inl ⟨rfl, ?_⟩
    have hp : s.state.pushFrame ts payload now = (s.state, none) := by
      simp [XferSender.pushFrame, hc]
    rw [hp]
    exact dispatch_silent s fault [] fun _ _ _ hm => by cases hm
  | true =>
    refine Or.inr ⟨rfl, ?_⟩
    simp only [XferSender.pushFrame, hc, if_true, Option.toList_some]
    -- `push_frame` has taken the number before anything is encoded or sent
    generalize hs' : ({ s with state := { s.state with
      nextSeq := s.state.nextSeq.next
      firstDataAt := some (s.state.firstDataAt.getD now) } } : Sender) = s'
    obtain ⟨heff, hstate⟩ :=
      dispatch_singleton s' fault (.emit s.state.nextSeq (.data ts payload))
    have hkey : s'.key = s.key ∧ s'.requestId = s.requestId ∧ s'.state.ring = s.state.ring := by
      rw [← hs']
      exact ⟨rfl, rfl, rfl⟩
    have hhead := event_head_dispatch s' fault (.emit s.state.nextSeq (.data ts payload)) []
    have hone : s'.dispatchOne fault (.emit s.state.nextSeq (.data ts payload))
        = s'.emit fault s.state.nextSeq (.data ts payload) := rfl
    rw [hone] at hstate
    have hdata := emit_data s' fault s.state.nextSeq ts payload
    rw [hkey.1, hkey.2.1, ← hstate] at hdata
    have hframe := dispatch_frame s' fault [.emit s.state.nextSeq (.data ts payload)]
    obtain ⟨ring, hring⟩ := hframe
    refine ⟨by rw [hring]; exact hkey.1, by rw [hring]; exact hkey.2.1, fun seq => ⟨?_, ?_⟩, ?_⟩
    · rintro ⟨ts', payload', hm⟩
      cases List.mem_singleton.mp (event_mem_dispatch hm)
      rfl
    · rintro rfl
      exact ⟨ts, payload, hhead⟩
    · rcases hdata with ⟨hfits, bytes, hseal, heq⟩ | ⟨hnot, heq⟩
      · refine Or.inl ⟨hfits, ts, bytes, hhead, hseal, ?_⟩
        rw [heq, ← hkey.2.2]
        rfl
      · refine Or.inr ⟨hnot, ?_⟩
        rw [heq]
        exact hkey.2.2

theorem step_cases (s : Sender) (x : Step) : Silent s (s.step x)
    ∨ ∃ ts payload now fault, x = .push ts payload now fault ∧ s.state.canSend = true
      ∧ Takes s payload fault (s.step x) := by
  cases x with
  | push ts payload now fault =>
    rcases s.pushOnce_cases ts payload now fault with ⟨-, h⟩ | ⟨hc, h⟩
    · exact Or.inl h
    · exact Or.inr ⟨ts, payload, now, fault, rfl, hc, h⟩
  | finish now fault => exact Or.inl (s.finishOnce_silent now fault)
  | pump incoming now tickNow fault tickFault =>
    exact Or.inl ((s.handleOnce_silent incoming now fault).andThen fun s =>
      s.tickOnce_silent tickNow tickFault)

/-! ## Every run -/

theorem HoldsSealed.of_subset {s' : Sender} (h : HoldsSealed t s) (hkey : s'.key = s.key)
    (hid : s'.requestId = s.requestId)
    (hsub : ∀ e ∈ s'.state.ring.entries, e ∈ s.state.ring.entries) : HoldsSealed (t ++ u) s' := by
  intro e he
  obtain ⟨ts, payload, hev, hseal⟩ := h e (hsub e he)
  exact ⟨ts, payload, List.mem_append_left _ hev, by rw [hkey, hid]; exact hseal⟩

theorem HoldsSealed.step (h : HoldsSealed t s) (x : Step) :
    HoldsSealed (t ++ (s.step x).effects) (s.step x).state := by
  rcases s.step_cases x with hsil | ⟨ts, payload, now, fault, -, -, htakes⟩
  · exact h.of_subset hsil.key hsil.requestId hsil.entries
  · rcases htakes.fate with ⟨-, ts', bytes, hev, hseal, hring⟩ | ⟨-, hring⟩
    · intro e he
      rw [hring] at he
      rcases RetransRing.mem_push he with he | rfl
      · obtain ⟨ts, payload, hev, hseal⟩ := h e he
        refine ⟨ts, payload, List.mem_append_left _ hev, ?_⟩
        rw [htakes.key, htakes.requestId]
        exact hseal
      · refine ⟨ts', payload, List.mem_append_right _ hev, ?_⟩
        rw [htakes.key, htakes.requestId]
        exact hseal
    · exact h.of_subset htakes.key htakes.requestId fun e he => hring ▸ he

theorem holdsSealed_run (peer : SocketAddr) (id : RequestId) (key : SessionKey)
    (cfg : SenderConfig) (steps : List Step) :
    HoldsSealed ((connect peer id key cfg).run steps).2
      ((connect peer id key cfg).run steps).1 := by
  induction steps using List.reverseRecOn with
  | nil => exact fun e he => by cases he
  | append_singleton steps x ih =>
    rw [run_append, run_singleton]
    exact ih.step x

/-- A step keeps the numbers supplied exactly if it keeps what it hands
out. -/
theorem noHole_step_iff (h : HoldsSealed t s) (hno : NoHole t s) (x : Step) :
    NoHole (t ++ (s.step x).effects) (s.step x).state
      ↔ ∀ ts payload now fault, x = .push ts payload now fault → s.Kept payload fault := by
  have h' := h.step x
  have hcovers : ∀ seq, HandedOut t seq → s.state.ring.Covers seq :=
    fun seq hh => (supplied_iff h).mp (hno seq hh)
  have hall : NoHole (t ++ (s.step x).effects) (s.step x).state
      ↔ ∀ seq, HandedOut t seq ∨ HandedOut (s.step x).effects seq →
        (s.step x).state.state.ring.Covers seq :=
    forall_congr' fun seq => imp_congr handedOut_append (supplied_iff h')
  rw [hall]
  rcases s.step_cases x with hsil | ⟨ts, payload, now, fault, rfl, hc, htakes⟩
  · refine iff_of_true (fun seq hh => ?_) ?_
    · exact hsil.covers seq (hcovers seq (hh.resolve_right (hsil.hands seq)))
    · rintro ts payload now fault rfl hc
      -- a push with the window open is not silent
      rcases s.pushOnce_cases ts payload now fault with ⟨hclosed, -⟩ | ⟨-, htakes⟩
      · rw [hc] at hclosed
        cases hclosed
      · exact absurd ((htakes.hands _).mpr rfl) (hsil.hands _)
  · have hpush : (∀ ts' payload' now' fault', Step.push ts payload now fault
          = .push ts' payload' now' fault' → s.Kept payload' fault')
        ↔ Fits payload fault ∨ s.state.ring.Covers s.state.nextSeq := by
      constructor
      · intro hk
        exact hk ts payload now fault rfl hc
      · rintro hk _ _ _ _ heq -
        cases heq
        exact hk
    rw [hpush]
    simp only [htakes.hands]
    rcases htakes.fate with ⟨hfits, -, bytes, -, -, hring⟩ | ⟨hnot, hring⟩ <;> rw [hring]
    · refine iff_of_true (fun seq hh => ?_) (Or.inl hfits)
      rcases hh with hh | rfl
      · exact (hcovers seq hh).push _ _
      · exact RetransRing.covers_push _ _ _
    · -- a frame that does not fit leaves the ring alone, so its number must be covered already
      rw [or_iff_right hnot]
      constructor
      · intro hh
        exact hh _ (Or.inr rfl)
      · rintro hcov seq (hh | rfl)
        · exact hcovers seq hh
        · exact hcov

/-- **No hole, exactly.** After every step of a run each number handed out
can be supplied or is known to be lost, if and only if every push that
takes a number has a payload that fits and a send that succeeds, or takes a
number the ring answers for already. -/
theorem no_hole_iff (peer : SocketAddr) (id : RequestId) (key : SessionKey) (cfg : SenderConfig)
    (steps : List Step) :
    (∀ before after, steps = before ++ after →
      NoHole ((connect peer id key cfg).run before).2 ((connect peer id key cfg).run before).1)
      ↔ ∀ before ts payload now fault after,
        steps = before ++ .push ts payload now fault :: after →
        ((connect peer id key cfg).run before).1.Kept payload fault := by
  have hstep : ∀ before x,
      NoHole ((connect peer id key cfg).run before).2 ((connect peer id key cfg).run before).1 →
      (NoHole ((connect peer id key cfg).run (before ++ [x])).2
          ((connect peer id key cfg).run (before ++ [x])).1
        ↔ ∀ ts payload now fault, x = .push ts payload now fault →
          ((connect peer id key cfg).run before).1.Kept payload fault) := by
    intro before x hno
    rw [run_append, run_singleton]
    exact noHole_step_iff (holdsSealed_run peer id key cfg before) hno x
  constructor
  · intro h before ts payload now fault after heq
    have hafter := h (before ++ [.push ts payload now fault]) after (by simp [heq])
    exact (hstep before _ (h before _ heq)).mp hafter ts payload now fault rfl
  · intro h before
    induction before using List.reverseRecOn with
    | nil =>
      rintro after - seq ⟨ts, payload, hm⟩
      cases hm
    | append_singleton before x ih =>
      intro after heq
      refine (hstep before x (ih (x :: after) (by simp [heq]))).mpr ?_
      rintro ts payload now fault rfl
      exact h before ts payload now fault after (by simp [heq])

/-- A frame one byte too long is refused; the next one goes out, and the end
is declared. -/
def oversizedSteps : List Step :=
  [.push ⟨0⟩ (List.replicate 1025 0) 0 none, .push ⟨20⟩ [7] 0 none, .finish 0 none]

/-- Number 1 is consumed for good: `End` declares it, and nothing can ever
supply it. -/
theorem oversized_frame_leaves_hole :
    ¬ ∀ before after, oversizedSteps = before ++ after →
      NoHole ((connect ⟨[], 0⟩ zeroId plainKey {}).run before).2
        ((connect ⟨[], 0⟩ zeroId plainKey {}).run before).1 := by
  intro h
  have hno := h oversizedSteps [] (by simp) (.ofNat 1)
    ⟨⟨0⟩, List.replicate 1025 0, by decide +kernel⟩
  rw [supplied_iff (holdsSealed_run _ _ _ _ oversizedSteps)] at hno
  exact absurd hno (by decide +kernel)

end Sender

end Protofish4
