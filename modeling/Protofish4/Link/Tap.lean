import Protofish4.Link.Mutual
import Protofish4.Xfer.Finishing

/-!
# A tap and an entry

The two ends of a transfer as their owners drive them. A tap is in `finish`
until its state machine is done, and an entry is removed once its receiver
has closed: from then on neither reacts.

`Finishing` is the situation after `finish` with every frame arrived;
`Prompt` is a network that from some instant on delivers everything in
time.
-/

namespace Protofish4

open Net (Party)

/-! ## The two ends -/

section Parties

variable (key : SessionKey) (id : RequestId)

def tapParty : Party XferSender TxAct Instant Sent TxObs where
  act x i := if x.state = .done then ⟨x, [], []⟩ else (txParty key id).act x i
  receive x now m := if x.state = .done then ⟨x, [], []⟩ else (txParty key id).receive x now m

def entryParty : Party Rx RxAct Instant Sent RxObs where
  act y i := if y.state.closed then ⟨y, [], []⟩ else (rxParty key id).act y i
  receive y now m := if y.state.closed then ⟨y, [], []⟩ else (rxParty key id).receive y now m

/-- The run of a tap and an entry. -/
def tapRun (scfg : SenderConfig) (rcfg : ReceiverConfig) (start : Instant) (ops : List LinkOp) :
    LinkState × LinkTrace :=
  Net.run (tapParty key id) (entryParty key id) (linkStart scfg rcfg start) ops

theorem sourceLike_tapParty : SourceLike key id (tapParty key id) where
  act x i := by
    simp only [tapParty]
    split
    · exact Or.inr rfl
    · exact Or.inl rfl
  receive x now m := by
    simp only [tapParty]
    split
    · exact Or.inr rfl
    · exact Or.inl rfl

theorem sinkLike_entryParty : SinkLike key id (entryParty key id) where
  act y i := by
    simp only [entryParty]
    split
    · exact Or.inr rfl
    · exact Or.inl rfl
  receive y now m := by
    simp only [entryParty]
    split
    · exact Or.inr rfl
    · exact Or.inl rfl

end Parties

/-! ## A prompt network -/

/-- The clock value an operation brings. -/
def clockOf : LinkOp → Option Instant
  | .left (.pushFrame _ _ now) | .left (.finish now) | .left (.tick now) => some now
  | .right (.tick now) => some now
  | .right (.setBufferedMs _) | .right (.report _) => none
  | .deliverRight _ now _ | .deliverLeft _ now _ => some now
  | .dropRight _ | .dropLeft _ => none

def drops : LinkOp → Bool
  | .dropRight _ | .dropLeft _ => true
  | _ => false

/-- At `now` nothing in flight has been under way, since `since` or since it
was sent, for longer than `delay`. -/
def InTime (delay : Duration) (since now : Instant) (s : LinkState) : Prop :=
  ∀ m ∈ s.toRight ++ s.toLeft, now ≤ max m.sentAt since + delay

instance (delay : Duration) (since now : Instant) (s : LinkState) :
    Decidable (InTime delay since now s) :=
  inferInstanceAs (Decidable (∀ _ ∈ _, _))

/-- An operation that loses nothing and comes after `since`, but not after
some delivery is overdue. -/
def PromptOp (delay : Duration) (since : Instant) (s : LinkState) (op : LinkOp) : Prop :=
  drops op = false ∧ ∀ now ∈ clockOf op, since ≤ now ∧ InTime delay since now s

instance (delay : Duration) (since : Instant) (s : LinkState) (op : LinkOp) :
    Decidable (PromptOp delay since s op) :=
  inferInstanceAs (Decidable (_ ∧ ∀ _ ∈ _, _))

section

variable (key : SessionKey) (id : RequestId)

/-- From `since` to `until'` every datagram in flight is delivered within
`delay`. -/
def Prompt (delay : Duration) (since until' : Instant) : LinkState → List LinkOp → Prop
  | s, [] => InTime delay since until' s
  | s, op :: ops => PromptOp delay since s op
      ∧ Prompt delay since until' (Net.step (tapParty key id) (entryParty key id) s op).1 ops

instance decidablePrompt (delay : Duration) (since until' : Instant) :
    (s : LinkState) → (ops : List LinkOp) → Decidable (Prompt key id delay since until' s ops)
  | s, [] => inferInstanceAs (Decidable (InTime delay since until' s))
  | s, op :: ops =>
    have := decidablePrompt delay since until'
      (Net.step (tapParty key id) (entryParty key id) s op).1 ops
    inferInstanceAs (Decidable (_ ∧ _))

end

/-! ## Finishing -/

def opensEnd (key : SessionKey) (m : Sent) : Bool :=
  match openBody key .send m.bytes with
  | some (_, .end _) => true
  | _ => false

def opensEndAck (key : SessionKey) (m : Sent) : Bool :=
  match openBody key .recv m.bytes with
  | some (_, .endAck) => true
  | _ => false

/-- The packet announcing the end was handled. -/
def HeardEnd (t : LinkTrace) : Prop := ∃ f, XferReceiver.EndDeclared (recvCalls t) f

/-- At `since` the tap has called `finish`, every frame has arrived, nothing
has failed, and every timeout still to come leaves a keepalive interval and
a round trip. -/
structure Finishing (delay : Duration) (since : Instant) (s : LinkState) (t : LinkTrace) :
    Prop where
  finished : s.left.state ≠ .streaming
  notFailed : ∀ reason, .event (.failed reason) ∉ Net.lefts t
  notAborted : ∀ reason, .relFinished (.aborted reason) ∉ recvEvents t
  arrived : ∀ frame ∈ pushed t,
    (XferReceiver.firstArrival (recvCalls t) frame.seq.toNat).isSome
  sent : ∀ m ∈ s.toRight ++ s.toLeft, m.sentAt ≤ since
  finalize : ∀ started ∈ s.left.finalizeAt, durationSince since started
    + (s.left.cfg.tailKeepaliveInterval + 2 * delay) < s.left.cfg.finalizeTimeout
  idle : s.right.state.closed = false → durationSince since s.right.state.lastPacketAt
    + (s.left.cfg.tailKeepaliveInterval + 2 * delay) < s.right.state.cfg.idleTimeout
  stall : s.right.state.closed = false → durationSince since s.right.state.lastRelProgressAt
    + (s.left.cfg.tailKeepaliveInterval + 2 * delay) < s.right.state.cfg.relStallTimeout

/-- The end and its acknowledgement were not lost, and the tap does not give
up for want of a first acknowledgement. -/
structure Carried (key : SessionKey) (delay : Duration) (since : Instant) (s : LinkState)
    (t : LinkTrace) : Prop where
  ending : HeardEnd t ∨ ∃ m ∈ s.toRight, opensEnd key m = true
  acking : .sendEndAck ∈ recvEvents t →
    .event .completed ∈ Net.lefts t ∨ ∃ m ∈ s.toLeft, opensEndAck key m = true
  acked : s.left.gotAck = true ∨ ∀ first ∈ s.left.firstDataAt,
    durationSince since first + 2 * delay ≤ s.left.cfg.firstAckTimeout

/-- Both ends have concluded the transfer. -/
def Finalized (t : LinkTrace) : Prop :=
  (∃ f, .relFinished (.complete f) ∈ recvEvents t) ∧ .event .completed ∈ Net.lefts t

/-! ## Checking a state at hand -/

def TxObs.fails : TxObs → Bool
  | .event (.failed _) => true
  | _ => false

def RecvEvent.aborts : RecvEvent → Bool
  | .relFinished (.aborted _) => true
  | _ => false

theorem finishing_iff {delay : Duration} {since : Instant} {s : LinkState} {t : LinkTrace} :
    Finishing delay since s t ↔ s.left.state ≠ .streaming
      ∧ (∀ o ∈ Net.lefts t, o.fails = false) ∧ (∀ e ∈ recvEvents t, e.aborts = false)
      ∧ (∀ frame ∈ pushed t, (XferReceiver.firstArrival (recvCalls t) frame.seq.toNat).isSome)
      ∧ (∀ m ∈ s.toRight ++ s.toLeft, m.sentAt ≤ since)
      ∧ (∀ started ∈ s.left.finalizeAt, durationSince since started
        + (s.left.cfg.tailKeepaliveInterval + 2 * delay) < s.left.cfg.finalizeTimeout)
      ∧ (s.right.state.closed = false → durationSince since s.right.state.lastPacketAt
        + (s.left.cfg.tailKeepaliveInterval + 2 * delay) < s.right.state.cfg.idleTimeout)
      ∧ (s.right.state.closed = false → durationSince since s.right.state.lastRelProgressAt
        + (s.left.cfg.tailKeepaliveInterval + 2 * delay) < s.right.state.cfg.relStallTimeout) := by
  constructor
  · intro h
    refine ⟨h.finished, fun o ho => ?_, fun e he => ?_, h.arrived, h.sent, h.finalize, h.idle,
      h.stall⟩
    · cases hf : o.fails with
      | false => rfl
      | true =>
        unfold TxObs.fails at hf
        split at hf
        · exact absurd ho (h.notFailed _)
        · cases hf
    · cases ha : e.aborts with
      | false => rfl
      | true =>
        unfold RecvEvent.aborts at ha
        split at ha
        · exact absurd he (h.notAborted _)
        · cases ha
  · rintro ⟨hfin, hfail, habort, harr, hsent, hlast, hidle, hstall⟩
    exact ⟨hfin, fun reason hm => (by cases hfail _ hm), fun reason hm => (by cases habort _ hm),
      harr, hsent, hlast, hidle, hstall⟩

instance (delay : Duration) (since : Instant) (s : LinkState) (t : LinkTrace) :
    Decidable (Finishing delay since s t) :=
  decidable_of_iff _ finishing_iff.symm

section

variable {key : SessionKey} {id : RequestId} {now last since : Instant} {delay : Duration}

theorem durationSince_add (now since : Int) (d : Nat) :
    durationSince (now + d) since ≤ durationSince now since + d := by
  have hle : now + (d : Int) - since ≤ ((now - since).toNat + d : Nat) := by omega
  exact Int.toNat_le.mpr hle

/-- Time enough for two delays and some more is time enough for two delays. -/
theorem durationSince_within {now since : Instant} {delay more limit : Duration}
    (h : durationSince now since + (more + 2 * delay) < limit) :
    durationSince (now + 2 * delay) since ≤ limit := by
  have hadd := durationSince_add now since (2 * delay)
  push_cast at hadd
  calc durationSince (now + 2 * delay) since
      ≤ durationSince now since + 2 * delay := hadd
    _ ≤ durationSince now since + (more + 2 * delay) :=
        Nat.add_le_add_left (Nat.le_add_left _ _) _
    _ ≤ limit := Nat.le_of_lt h

theorem opensEnd_iff {m : Sent} : opensEnd key m = true
    ↔ ∃ seq f, openBody key .send m.bytes = some (seq, .end f) := by
  unfold opensEnd
  split
  · rename_i seq f heq
    exact ⟨fun _ => ⟨seq, f, heq⟩, fun _ => rfl⟩
  · rename_i hne
    refine ⟨fun h => (by cases h), ?_⟩
    rintro ⟨seq, f, heq⟩
    exact absurd heq (hne seq f)

theorem opensEndAck_iff {m : Sent} : opensEndAck key m = true
    ↔ ∃ seq, openBody key .recv m.bytes = some (seq, .endAck) := by
  unfold opensEndAck
  split
  · rename_i seq heq
    exact ⟨fun _ => ⟨seq, heq⟩, fun _ => rfl⟩
  · rename_i hne
    refine ⟨fun h => (by cases h), ?_⟩
    rintro ⟨seq, heq⟩
    exact absurd heq (hne seq)

/-! ## A tap that waits for the acknowledgement -/

theorem pushFrame_finalizing {x : XferSender} (h : x.state = .finalizing) {ts : TimestampMs}
    {payload : Bytes} : x.pushFrame ts payload now = (x, none) := by
  rcases x.pushFrame_cases now ts payload with ⟨heq, -⟩ | ⟨hc, -⟩
  · exact heq
  · have := x.canSend_streaming hc
    rw [h] at this
    cases this

theorem finish_finalizing {x : XferSender} (h : x.state = .finalizing) :
    x.finish now = (x, none) := by
  rcases x.finish_cases now with ⟨heq, -⟩ | ⟨hs, -⟩
  · exact heq
  · rw [h] at hs
    cases hs

/-- Finalizing, with no timeout over at `last`. -/
structure Closing (last : Instant) (x : XferSender) : Prop where
  finalizing : x.state = .finalizing
  finalize : ∀ started ∈ x.finalizeAt, durationSince last started ≤ x.cfg.finalizeTimeout
  acked : x.gotAck = true
    ∨ ∀ first ∈ x.firstDataAt, durationSince last first ≤ x.cfg.firstAckTimeout

namespace Closing

variable {x : XferSender}

theorem tick (h : Closing last x) (hnow : now ≤ last) : Closing last (x.tick now).1 := by
  have hstate : (x.tick now).1.state = .finalizing := by
    have hpaused : x.tickPaused now = (x, []) := by
      unfold XferSender.tickPaused
      rw [if_neg (by simp [h.finalizing])]
    have hfirst : ¬ (x.gotAck = false ∧ x.firstDataAt.any fun first =>
        durationSince now first > x.cfg.firstAckTimeout) := by
      rintro ⟨hgot, hany⟩
      obtain ⟨first, hf, hlt⟩ := (Option.any_eq_true _ _).mp hany
      rcases h.acked with hack | hin
      · rw [hgot] at hack
        cases hack
      · have hle := (durationSince_mono hnow).trans (hin first hf)
        exact absurd (of_decide_eq_true hlt) (not_lt.mpr hle)
    have hlast : ¬ (x.finalizeAt.any fun started =>
        durationSince now started > x.cfg.finalizeTimeout) = true := by
      intro hany
      obtain ⟨started, hs, hlt⟩ := (Option.any_eq_true _ _).mp hany
      have hle := (durationSince_mono hnow).trans (h.finalize started hs)
      exact absurd (of_decide_eq_true hlt) (not_lt.mpr hle)
    unfold XferSender.tick
    rw [if_neg (by simp [h.finalizing]), if_neg hfirst, Machine.andThen_fst, hpaused,
      XferSender.tickFinalizing, if_pos h.finalizing, if_neg hlast]
    split
    · exact h.finalizing
    · exact h.finalizing
  have hframe := x.tick_frame now
  refine ⟨hstate, ?_, ?_⟩
  · rw [hframe]
    exact h.finalize
  · rw [hframe]
    exact h.acked

/-- Whatever the application does, the tap goes on waiting. -/
theorem act (h : Closing last x) (i : TxAct) (hi : ∀ now, i = .tick now → now ≤ last) :
    Closing last ((tapParty key id).act x i).state
      ∧ ((tapParty key id).act x i).state.nextSeq = x.nextSeq := by
  have hopen : (tapParty key id).act x i = (txParty key id).act x i := by
    simp only [tapParty]
    rw [if_neg (by simp [h.finalizing])]
  rw [hopen]
  cases i with
  | tick now =>
    rw [(@txTick_spec key id x now).1]
    exact ⟨h.tick (hi now rfl), by rw [x.tick_frame]⟩
  | pushFrame ts payload now =>
    simp only [txParty, pushFrame_finalizing h.finalizing]
    exact ⟨h, rfl⟩
  | finish now =>
    simp only [txParty, finish_finalizing h.finalizing]
    exact ⟨h, rfl⟩

/-- The acknowledgement of the end completes the transfer; any other packet
leaves the tap waiting. -/
theorem receive (h : Closing last x) (now : Instant) (m : Sent) :
    opensEndAck key m = true ∧ .event .completed ∈ ((tapParty key id).receive x now m).events
      ∨ opensEndAck key m = false ∧ Closing last ((tapParty key id).receive x now m).state
        ∧ ((tapParty key id).receive x now m).state.nextSeq = x.nextSeq := by
  have hopen : (tapParty key id).receive x now m = (txParty key id).receive x now m := by
    simp only [tapParty]
    rw [if_neg (by simp [h.finalizing])]
  rw [hopen]
  cases hb : opensEndAck key m with
  | true =>
    obtain ⟨seq, hopen⟩ := opensEndAck_iff.mp hb
    refine Or.inl ⟨rfl, ?_⟩
    simp only [txParty, hopen]
    exact event_mem_transmitAll now (List.mem_singleton_self _)
  | false =>
    refine Or.inr ⟨rfl, ?_⟩
    rcases @txReceive_spec key id x now m with ⟨hstate, -⟩ | ⟨seq, body, hopen, hstate, -⟩
    · rw [hstate]
      exact ⟨h, rfl⟩
    · rw [hstate]
      refine ⟨?_, by rw [x.handle_frame]⟩
      cases body with
      | ack c hi b => exact ⟨h.finalizing, h.finalize, Or.inl rfl⟩
      | nack missing => exact ⟨h.finalizing, h.finalize, Or.inl rfl⟩
      | endAck =>
        rw [opensEndAck_iff.mpr ⟨seq, hopen⟩] at hb
        cases hb
      | data | «end» | keepalive => exact h

end Closing

/-! ## What the two ends say meanwhile -/

/-- A tap that has finished hands out no frame. -/
theorem frames_tapAct {x : XferSender} (h : x.state = .finalizing) (i : TxAct) :
    ((tapParty key id).act x i).events.filterMap TxObs.frame = [] := by
  have hopen : (tapParty key id).act x i = (txParty key id).act x i := by
    simp only [tapParty]
    rw [if_neg (by simp [h])]
  rw [hopen]
  cases i with
  | pushFrame ts payload now =>
    simp only [txParty, pushFrame_finalizing h]
    rfl
  | finish now =>
    simp only [txParty, finish_finalizing h]
    rfl
  | tick now =>
    refine (transmitAll_sendsFrom key id now _ _ fun seq body he => ?_).frames
    rw [x.tick_emit now he]
    simp [Body.kind]

theorem frames_tapReceive (x : XferSender) (now : Instant) (m : Sent) :
    ((tapParty key id).receive x now m).events.filterMap TxObs.frame = [] := by
  simp only [tapParty]
  split
  · rfl
  · simp only [txParty]
    split
    · rfl
    · exact (transmitAll_sendsFrom key id now _ _ fun seq body he =>
        absurd he (x.emit_not_mem_handle now)).frames

end

end Protofish4
