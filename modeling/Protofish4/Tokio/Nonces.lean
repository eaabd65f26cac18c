import Protofish4.Lib.Par
import Protofish4.Tokio.Endpoint
import Protofish4.Xfer.ReceiverEvents
import Protofish4.Xfer.ReceiverRun

/-!
# Nonces

Every call to `crypto::seal` that a tap and a sink make under their shared
key, and every payload datagram the tap puts on the wire. Three counters
name the nonces: the frame number, the tap's control counter and the
sink's. For each the module keeps the exact list of values it has been
used with.
-/

namespace Protofish4

/-! ## What the sender's state machine hands out -/

namespace XferSender

/-- One call on the state machine, and the events its caller is to carry
out: at most one, and at most one new packet under the next number of its
counter. -/
inductive Hands (x x' : XferSender) : List SendEvent → Prop where
  | nothing (next : x'.nextSeq = x.nextSeq) (counter : x'.controlCounter = x.controlCounter)
      (ring : ∀ e ∈ x'.ring.entries, e ∈ x.ring.entries) : Hands x x' []
  | report (ev : SendEvent) (kind : ev = .completed ∨ ∃ reason, ev = .failed reason)
      (next : x'.nextSeq = x.nextSeq) (counter : x'.controlCounter = x.controlCounter)
      (ring : ∀ e ∈ x'.ring.entries, e ∈ x.ring.entries) : Hands x x' [ev]
  | resend (datagrams : List Bytes) (held : ∀ d ∈ datagrams, ∃ seq, (seq, d) ∈ x.ring.entries)
      (next : x'.nextSeq = x.nextSeq) (counter : x'.controlCounter = x.controlCounter)
      (ring : ∀ e ∈ x'.ring.entries, e ∈ x.ring.entries) : Hands x x' [.resend datagrams]
  | frame (ts : TimestampMs) (payload : Bytes) (next : x'.nextSeq = x.nextSeq.next)
      (counter : x'.controlCounter = x.controlCounter)
      (ring : x'.ring = x.ring) : Hands x x' [.emit x.nextSeq (.data ts payload)]
  | control (body : Body) (kind : body.kind.seqClass = .control)
      (encodes : ∃ plaintext, encodeBody body = .ok plaintext) (next : x'.nextSeq = x.nextSeq)
      (counter : x'.controlCounter = x.controlCounter + 1)
      (ring : x'.ring = x.ring) : Hands x x' [.emit ⟨x.controlCounter + 1⟩ body]

theorem hands_pushFrame (x : XferSender) (ts : TimestampMs) (payload : Bytes) (now : Instant) :
    Hands x (x.pushFrame ts payload now).1 (x.pushFrame ts payload now).2.toList := by
  rcases x.pushFrame_cases now ts payload with ⟨heq, -⟩ | ⟨-, hst, hev⟩
  · rw [heq]
    exact .nothing rfl rfl fun e he => he
  · rw [hst, hev]
    exact .frame ts payload rfl rfl rfl

theorem hands_finish (x : XferSender) (now : Instant) :
    Hands x (x.finish now).1 (x.finish now).2.toList := by
  unfold finish
  split
  · exact .nothing rfl rfl fun e he => he
  · exact .control (.end _) rfl ⟨_, rfl⟩ rfl rfl rfl

theorem hands_handle (x : XferSender) (body : Body) (now : Instant) :
    Hands x (x.handle body now).1 (x.handle body now).2 := by
  cases body with
  | ack c h b => exact .nothing rfl rfl fun e he => RetransRing.mem_ackThrough he
  | nack missing =>
    simp only [handle]
    split
    · exact .nothing rfl rfl fun e he => he
    · refine .resend _ (fun d hd => ?_) rfl rfl fun e he => he
      obtain ⟨seq, -, hmem⟩ := mem_held x hd
      exact ⟨seq, hmem⟩
  | endAck => exact .report _ (Or.inl rfl) rfl rfl fun e he => he
  | data | «end» | keepalive => exact .nothing rfl rfl fun e he => he

theorem hands_keepalive (x : XferSender) (now : Instant) :
    Hands x (x.keepalive now).1 (x.keepalive now).2 :=
  .control (.keepalive _) rfl ⟨_, rfl⟩ rfl rfl rfl

/-- The two keepalive timers belong to different states. -/
theorem hands_tick (x : XferSender) (now : Instant) : Hands x (x.tick now).1 (x.tick now).2 := by
  have hnothing : Hands x x [] := .nothing rfl rfl fun e he => he
  unfold tick
  by_cases hdone : x.state = .done
  · rw [if_pos hdone]
    exact hnothing
  · rw [if_neg hdone]
    split
    · exact .report _ (Or.inr ⟨_, rfl⟩) rfl rfl fun e he => he
    · by_cases hfin : x.state = .finalizing
      · -- finalizing: the first timer is off
        have hskip : x.tickPaused now = (x, []) := by
          unfold tickPaused
          rw [if_neg (by simp [hfin])]
        simp only [Machine.andThen, hskip, List.nil_append, tickFinalizing, if_pos hfin]
        split
        · exact .report _ (Or.inr ⟨_, rfl⟩) rfl rfl fun e he => he
        · split
          · exact hands_keepalive x now
          · exact hnothing
      · -- streaming: the second timer is off, also after a keepalive
        have hskip : ∀ x' : XferSender, x'.state = x.state → x'.tickFinalizing now = (x', []) := by
          intro x' hx
          unfold tickFinalizing
          rw [if_neg (by rw [hx]; exact hfin)]
        have hstate : (x.tickPaused now).1.state = x.state := by rw [tickPaused_frame]
        have hpaused : Machine.andThen (x.tickPaused now) (fun x => x.tickFinalizing now)
            = x.tickPaused now := by
          simp only [Machine.andThen, hskip _ hstate, List.append_nil]
        rw [hpaused]
        unfold tickPaused
        split
        · split
          · split
            · exact hands_keepalive x now
            · exact hnothing
          · exact hands_keepalive x now
        · exact hnothing

end XferSender

namespace Sender

/-! ## At the tap -/

def Effect.sealCall : Effect → Option SealCall
  | .sealed call => some call
  | _ => none

/-- A frame number is handed out. -/
def Effect.isFrame : Effect → Bool
  | .event (.emit _ (.data ..)) => true
  | _ => false

/-- The calls to `crypto::seal`, in order. -/
def sealCalls (t : List Effect) : List SealCall := t.filterMap Effect.sealCall

/-- The frames pushed. -/
def framesPushed (t : List Effect) : Nat := t.countP Effect.isFrame

/-- The counter values that packets of one nonce class were sealed under. -/
def countersOf (cls : SeqClass) (t : List Effect) : List UInt32 :=
  ((sealCalls t).filter fun c => c.header.kind.seqClass = cls).map fun c => c.header.seq

@[simp] theorem sealCalls_append (t u : List Effect) :
    sealCalls (t ++ u) = sealCalls t ++ sealCalls u := by
  simp [sealCalls]

@[simp] theorem framesPushed_append (t u : List Effect) :
    framesPushed (t ++ u) = framesPushed t + framesPushed u := by
  simp [framesPushed]

@[simp] theorem countersOf_append (cls : SeqClass) (t u : List Effect) :
    countersOf cls (t ++ u) = countersOf cls t ++ countersOf cls u := by
  simp [countersOf]

/-- The control counters used are 1, 2, 3 and so on, the frame numbers
increase, and what the ring holds or the wire has carried was sealed. -/
structure SealInv (t : List Effect) (s : Sender) : Prop where
  made : ∀ c ∈ sealCalls t, c.dir = .send ∧ c.Made
  control : countersOf .control t
    = (List.range (countersOf .control t).length).map fun i => UInt32.ofNat (i + 1)
  counter : s.state.controlCounter = UInt32.ofNat (countersOf .control t).length
  next : s.state.nextSeq.toNat = min (framesPushed t + 1) (2 ^ 32 - 1)
  data : framesPushed t < 2 ^ 32 - 1 → (countersOf .data t).Pairwise (fun a b => a.toNat < b.toNat)
    ∧ ∀ n ∈ countersOf .data t, n.toNat < s.state.nextSeq.toNat
  ring : ∀ e ∈ s.state.ring.entries, ∃ c ∈ sealCalls t, c.result = .ok e.2
  sent : ∀ d, .sent d ∈ t → ∃ c ∈ sealCalls t, c.result = .ok d

theorem sealInv_connect (peer : SocketAddr) (id : RequestId) (key : SessionKey)
    (cfg : SenderConfig) : SealInv [] (connect peer id key cfg) :=
  ⟨by simp [sealCalls], rfl, rfl, rfl,
    fun _ => ⟨List.Pairwise.nil, by simp [countersOf, sealCalls]⟩,
    by simp [connect, XferSender.new, RetransRing.new], by simp⟩

/-- Effects that seal nothing and hand out no frame number. -/
theorem SealInv.quiet {t u : List Effect} {s s' : Sender} (h : SealInv t s)
    (hseal : sealCalls u = []) (hframe : framesPushed u = 0)
    (hnext : s'.state.nextSeq = s.state.nextSeq)
    (hcounter : s'.state.controlCounter = s.state.controlCounter)
    (hring : ∀ e ∈ s'.state.ring.entries, e ∈ s.state.ring.entries)
    (hsent : ∀ d, .sent d ∈ u → ∃ seq, (seq, d) ∈ s.state.ring.entries) :
    SealInv (t ++ u) s' := by
  have hcnt : ∀ cls, countersOf cls (t ++ u) = countersOf cls t := by
    intro cls
    simp [countersOf, hseal]
  have hcalls : sealCalls (t ++ u) = sealCalls t := by simp [hseal]
  have hpushed : framesPushed (t ++ u) = framesPushed t := by simp [hframe]
  refine ⟨?_, ?_, ?_, ?_, ?_, fun e he => ?_, fun d hd => ?_⟩
  · rw [hcalls]
    exact h.made
  · rw [hcnt]
    exact h.control
  · rw [hcounter, hcnt]
    exact h.counter
  · rw [hnext, hpushed]
    exact h.next
  · rw [hpushed, hcnt, hnext]
    exact h.data
  · rw [hcalls]
    exact h.ring e (hring e he)
  · rw [hcalls]
    rcases List.mem_append.mp hd with hd | hd
    · exact h.sent d hd
    · obtain ⟨seq, hmem⟩ := hsent d hd
      exact h.ring _ hmem

/-- What `emit` does: nothing but fail to encode, or one call to `seal`
under the given number, and then perhaps the send. -/
theorem emit_cases (s : Sender) (fault : Option Nat) (seq : XferSeq) (body : Body) :
    ((∃ e, encodeBody body = .error e) ∧ (s.emit fault seq body).effects = []
      ∧ (s.emit fault seq body).state = s)
    ∨ ∃ c : SealCall, c.header = ⟨body.kind, s.requestId, seq.val⟩ ∧ (c.dir = .send ∧ c.Made)
      ∧ (((s.emit fault seq body).effects = [.sealed c] ∧ (s.emit fault seq body).state = s)
        ∨ ∃ d, c.result = .ok d ∧ (s.emit fault seq body).effects = [.sealed c, .sent d]
          ∧ (s.emit fault seq body).state
            = if body.kind = .data then { s with state := s.state.recordSealed seq d } else s) := by
  unfold emit
  cases henc : encodeBody body with
  | error e => exact Or.inl ⟨⟨e, rfl⟩, rfl, rfl⟩
  | ok plaintext =>
    refine Or.inr ⟨SealCall.run s.key ⟨body.kind, s.requestId, seq.val⟩ .send plaintext, rfl,
      ⟨rfl, SealCall.made_run _ _ _ _⟩, ?_⟩
    simp only
    cases hres : (SealCall.run s.key ⟨body.kind, s.requestId, seq.val⟩ .send plaintext).result with
    | error e => exact Or.inl ⟨rfl, rfl⟩
    | ok sealed =>
      simp only
      split
      · exact Or.inl ⟨rfl, rfl⟩
      · exact Or.inr ⟨sealed, rfl, rfl, rfl⟩

theorem dispatch_singleton (s : Sender) (fault : Option Nat) (ev : SendEvent) :
    (s.dispatch fault [ev]).effects = .event ev :: (s.dispatchOne fault ev).effects
      ∧ (s.dispatch fault [ev]).state = (s.dispatchOne fault ev).state := by
  simp only [dispatch, Done.andThen]
  split
  · exact ⟨by simp [Done.after], rfl⟩
  · exact ⟨rfl, rfl⟩

section

variable {t u : List Effect} {s s' : Sender}

/-- A frame number is handed out, and sealed under unless its body does
not encode. -/
theorem SealInv.frame (h : SealInv t s) (hframe : framesPushed u = 1)
    (hnext : s'.state.nextSeq = s.state.nextSeq.next)
    (hcounter : s'.state.controlCounter = s.state.controlCounter)
    (hcalls : sealCalls u = [] ∨ ∃ c, sealCalls u = [c] ∧ (c.dir = .send ∧ c.Made)
      ∧ c.header.kind = .data ∧ c.header.seq = s.state.nextSeq.val)
    (hring : ∀ e ∈ s'.state.ring.entries, e ∈ s.state.ring.entries
      ∨ ∃ c ∈ sealCalls u, c.result = .ok e.2)
    (hsent : ∀ d, .sent d ∈ u → ∃ c ∈ sealCalls u, c.result = .ok d) : SealInv (t ++ u) s' := by
  have hctl : countersOf .control u = [] := by
    rcases hcalls with hnil | ⟨c, hc, -, hk, -⟩
    · simp [countersOf, hnil]
    · simp [countersOf, hc, hk, PacketKind.seqClass]
  have hdata : countersOf .data u = [] ∨ countersOf .data u = [s.state.nextSeq.val] := by
    rcases hcalls with hnil | ⟨c, hc, -, hk, hseq⟩
    · exact Or.inl (by simp [countersOf, hnil])
    · exact Or.inr (by simp [countersOf, hc, hk, hseq, PacketKind.seqClass])
  have hsucc : s'.state.nextSeq.toNat = min (s.state.nextSeq.toNat + 1) (2 ^ 32 - 1) := by
    rw [hnext, XferSeq.toNat_next]
  refine ⟨fun c hc => ?_, ?_, ?_, ?_, fun hlt => ?_, fun e he => ?_, fun d hd => ?_⟩
  · rw [sealCalls_append] at hc
    rcases List.mem_append.mp hc with hc | hc
    · exact h.made c hc
    · rcases hcalls with hnil | ⟨c', hc', hmade, -, -⟩
      · rw [hnil] at hc
        cases hc
      · rw [hc'] at hc
        rw [List.mem_singleton.mp hc]
        exact hmade
  · rw [countersOf_append, hctl, List.append_nil]
    exact h.control
  · rw [hcounter, countersOf_append, hctl, List.append_nil]
    exact h.counter
  · rw [hsucc, h.next, framesPushed_append, hframe]
    omega
  · -- the new number is above all earlier ones, and the next one above it
    rw [framesPushed_append, hframe] at hlt
    obtain ⟨hpair, hbound⟩ := h.data (by omega)
    have hval : s.state.nextSeq.val.toNat < s'.state.nextSeq.toNat := by
      have heq : s.state.nextSeq.val.toNat = s.state.nextSeq.toNat := rfl
      have := h.next
      omega
    have hold : ∀ n ∈ countersOf .data t, n.toNat < s'.state.nextSeq.toNat :=
      fun n hn => (hbound n hn).trans hval
    rw [countersOf_append]
    rcases hdata with hnil | hone
    · rw [hnil, List.append_nil]
      exact ⟨hpair, hold⟩
    · rw [hone]
      refine ⟨List.pairwise_append.mpr ⟨hpair, by simp, fun a ha b hb => ?_⟩, fun n hn => ?_⟩
      · rw [List.mem_singleton.mp hb]
        exact hbound a ha
      · rcases List.mem_append.mp hn with hn | hn
        · exact hold n hn
        · rw [List.mem_singleton.mp hn]
          exact hval
  · rw [sealCalls_append]
    rcases hring e he with he | ⟨c, hc, hres⟩
    · obtain ⟨c, hc, hres⟩ := h.ring e he
      exact ⟨c, List.mem_append_left _ hc, hres⟩
    · exact ⟨c, List.mem_append_right _ hc, hres⟩
  · rw [sealCalls_append]
    rcases List.mem_append.mp hd with hd | hd
    · obtain ⟨c, hc, hres⟩ := h.sent d hd
      exact ⟨c, List.mem_append_left _ hc, hres⟩
    · obtain ⟨c, hc, hres⟩ := hsent d hd
      exact ⟨c, List.mem_append_right _ hc, hres⟩

/-- A control packet is sealed under the next counter value. -/
theorem SealInv.controlPacket (h : SealInv t s) {c : SealCall} (hframe : framesPushed u = 0)
    (hnext : s'.state.nextSeq = s.state.nextSeq)
    (hcounter : s'.state.controlCounter = s.state.controlCounter + 1)
    (hcalls : sealCalls u = [c]) (hmade : c.dir = .send ∧ c.Made)
    (hkind : c.header.kind.seqClass = .control)
    (hseq : c.header.seq = s.state.controlCounter + 1)
    (hring : s'.state.ring = s.state.ring)
    (hsent : ∀ d, .sent d ∈ u → c.result = .ok d) : SealInv (t ++ u) s' := by
  have hctl : countersOf .control u = [s.state.controlCounter + 1] := by
    simp [countersOf, hcalls, hkind, hseq]
  have hdata : countersOf .data u = [] := by
    simp [countersOf, hcalls, hkind]
  have hvalue : s.state.controlCounter + 1
      = UInt32.ofNat ((countersOf .control t).length + 1) := by
    rw [h.counter, UInt32.ofNat_add]
    rfl
  refine ⟨fun c' hc' => ?_, ?_, ?_, ?_, ?_, fun e he => ?_, fun d hd => ?_⟩
  · rw [sealCalls_append, hcalls] at hc'
    rcases List.mem_append.mp hc' with hc' | hc'
    · exact h.made c' hc'
    · rw [List.mem_singleton.mp hc']
      exact hmade
  · rw [countersOf_append, hctl, List.length_append, List.length_singleton, List.range_succ,
      List.map_append, ← h.control, List.map_singleton, hvalue]
  · rw [hcounter, countersOf_append, hctl, List.length_append, List.length_singleton, hvalue]
  · rw [hnext, h.next, framesPushed_append, hframe, Nat.add_zero]
  · rw [framesPushed_append, hframe, Nat.add_zero, countersOf_append, hdata, List.append_nil, hnext]
    exact h.data
  · rw [hring] at he
    obtain ⟨c', hc', hres⟩ := h.ring e he
    rw [sealCalls_append]
    exact ⟨c', List.mem_append_left _ hc', hres⟩
  · rw [sealCalls_append, hcalls]
    rcases List.mem_append.mp hd with hd | hd
    · obtain ⟨c', hc', hres⟩ := h.sent d hd
      exact ⟨c', List.mem_append_left _ hc', hres⟩
    · exact ⟨c, List.mem_append_right _ (List.mem_singleton_self c), hsent d hd⟩

end

theorem resend_effects (s : Sender) (fault : Option Nat) (datagrams : List Bytes) :
    ∃ k, (resend s fault datagrams).effects = (datagrams.take k).map .sent
      ∧ (resend s fault datagrams).state = s := by
  unfold resend
  split
  · exact ⟨datagrams.length, by rw [List.take_length], rfl⟩
  · rename_i n
    split
    · exact ⟨n, rfl, rfl⟩
    · exact ⟨datagrams.length, by rw [List.take_length], rfl⟩

/-- Bytes sent as they are seal nothing and push nothing. -/
theorem sealCalls_sent (l : List Bytes) :
    sealCalls (l.map .sent) = [] ∧ framesPushed (l.map .sent) = 0 := by
  induction l with
  | nil => exact ⟨rfl, rfl⟩
  | cons d l ih => exact ih

/-- **One call on the state machine, carried out.** -/
theorem SealInv.dispatch {t : List Effect} {s : Sender} (h : SealInv t s) {x' : XferSender}
    {evs : List SendEvent} (hh : s.state.Hands x' evs) (fault : Option Nat) :
    SealInv (t ++ (Sender.dispatch { s with state := x' } fault evs).effects)
      (Sender.dispatch { s with state := x' } fault evs).state := by
  cases hh with
  | nothing next counter ring => exact h.quiet rfl rfl next counter ring (by simp [Sender.dispatch])
  | report ev kind next counter ring =>
    obtain ⟨heff, hst⟩ := dispatch_singleton { s with state := x' } fault ev
    have hone : (dispatchOne { s with state := x' } fault ev).effects = []
        ∧ (dispatchOne { s with state := x' } fault ev).state = { s with state := x' } := by
      rcases kind with rfl | ⟨reason, rfl⟩
      · exact ⟨rfl, rfl⟩
      · cases reason <;> exact ⟨rfl, rfl⟩
    have hframe : framesPushed [.event ev] = 0 := by
      rcases kind with rfl | ⟨reason, rfl⟩ <;> rfl
    rw [heff, hst, hone.1, hone.2]
    exact h.quiet rfl hframe next counter ring (by simp)
  | resend datagrams held next counter ring =>
    obtain ⟨heff, hst⟩ := dispatch_singleton { s with state := x' } fault (.resend datagrams)
    obtain ⟨k, heff', hst'⟩ := resend_effects { s with state := x' } fault datagrams
    rw [heff, hst]
    simp only [dispatchOne, heff', hst']
    refine h.quiet (sealCalls_sent _).1 (sealCalls_sent _).2 next counter ring fun d hd => ?_
    rcases List.mem_cons.mp hd with hd | hd
    · cases hd
    · obtain ⟨d', hd', heq⟩ := List.mem_map.mp hd
      cases heq
      exact held d (List.mem_of_mem_take hd')
  | frame ts payload next counter ring =>
    obtain ⟨heff, hst⟩ := dispatch_singleton { s with state := x' } fault
      (.emit s.state.nextSeq (.data ts payload))
    rw [heff, hst]
    simp only [dispatchOne]
    rcases emit_cases { s with state := x' } fault s.state.nextSeq (.data ts payload) with
      ⟨-, heff, hst⟩ | ⟨c, hhead, hdir, hrest⟩
    · rw [heff, hst]
      exact h.frame rfl next counter (Or.inl rfl) (fun e he => Or.inl (ring ▸ he)) (by simp)
    · have hcall : c.header.kind = .data ∧ c.header.seq = s.state.nextSeq.val := by
        rw [hhead]
        exact ⟨rfl, rfl⟩
      rcases hrest with ⟨heff, hst⟩ | ⟨d, hres, heff, hst⟩
      · rw [heff, hst]
        exact h.frame rfl next counter (Or.inr ⟨c, rfl, hdir, hcall⟩)
          (fun e he => Or.inl (ring ▸ he)) (by simp)
      · -- sent: the ring takes the datagram that was sealed under this number
        rw [heff, hst, if_pos (by rfl)]
        refine h.frame rfl next counter (Or.inr ⟨c, rfl, hdir, hcall⟩) (fun e he => ?_)
          fun d' hd' => ⟨c, by simp [sealCalls, Effect.sealCall], ?_⟩
        · rcases RetransRing.mem_push he with he | rfl
          · exact Or.inl (ring ▸ he)
          · exact Or.inr ⟨c, by simp [sealCalls, Effect.sealCall], hres⟩
        · have : d' = d := by simpa using hd'
          rw [this, hres]
  | control body kind encodes next counter ring =>
    obtain ⟨heff, hst⟩ := dispatch_singleton { s with state := x' } fault
      (.emit ⟨s.state.controlCounter + 1⟩ body)
    have hdata : body.kind ≠ .data := by
      intro hk
      rw [hk] at kind
      cases kind
    have hframe : ∀ l, framesPushed (.event (.emit ⟨s.state.controlCounter + 1⟩ body) :: l)
        = framesPushed l := by
      intro l
      cases body <;> first | rfl | exact absurd rfl hdata
    rw [heff, hst]
    simp only [dispatchOne]
    rcases emit_cases { s with state := x' } fault ⟨s.state.controlCounter + 1⟩ body with
      ⟨⟨e, herr⟩, -, -⟩ | ⟨c, hhead, hdir, hrest⟩
    · -- a control packet always encodes
      obtain ⟨plaintext, hok⟩ := encodes
      rw [hok] at herr
      cases herr
    · rcases hrest with ⟨heff, hst⟩ | ⟨d, hres, heff, hst⟩
      · rw [heff, hst]
        exact h.controlPacket (c := c) (by rw [hframe]; rfl) next counter rfl hdir
          (by rw [hhead]; exact kind) (by rw [hhead]) ring (by simp)
      · rw [heff, hst, if_neg hdata]
        refine h.controlPacket (c := c) (by rw [hframe]; rfl) next counter rfl hdir
          (by rw [hhead]; exact kind) (by rw [hhead]) ring fun d' hd' => ?_
        have : d' = d := by simpa using hd'
        rw [this, hres]

theorem SealInv.andThen {t : List Effect} {d : Done} {f : Sender → Done}
    (h : SealInv (t ++ d.effects) d.state)
    (hf : ∀ t s, SealInv t s → SealInv (t ++ (f s).effects) (f s).state) :
    SealInv (t ++ (d.andThen f).effects) (d.andThen f).state := by
  unfold Done.andThen
  split
  · simp only [← List.append_assoc]
    exact hf _ _ h
  · exact h

theorem SealInv.step {t : List Effect} {s : Sender} (h : SealInv t s) (x : Step) :
    SealInv (t ++ (s.step x).effects) (s.step x).state := by
  cases x with
  | push ts payload now fault => exact h.dispatch (s.state.hands_pushFrame ts payload now) fault
  | finish now fault => exact h.dispatch (s.state.hands_finish now) fault
  | pump incoming now tickNow fault tickFault =>
    refine SealInv.andThen ?_ fun t s hs => hs.dispatch (s.state.hands_tick tickNow) tickFault
    unfold handleOnce
    split
    · simpa using h
    · split
      · simpa using h
      · rename_i body _
        exact h.dispatch (s.state.hands_handle body now) fault

theorem sealInv_run (peer : SocketAddr) (id : RequestId) (key : SessionKey) (cfg : SenderConfig)
    (steps : List Step) : SealInv ((connect peer id key cfg).run steps).2
      ((connect peer id key cfg).run steps).1 := by
  unfold run
  exact Machine.run_induction _ (fun _ s t => SealInv t s) (sealInv_connect peer id key cfg)
    (fun _ s t x h => h.step x) steps

end Sender

/-! ## At the sink -/

namespace Entry

def Effect.sealCall : Effect → Option SealCall
  | .sealed call => some call
  | _ => none

/-- The calls to `crypto::seal`, in order. -/
def sealCalls (t : List Effect) : List SealCall := t.filterMap Effect.sealCall

@[simp] theorem sealCalls_append (t u : List Effect) :
    sealCalls (t ++ u) = sealCalls t ++ sealCalls u := by
  simp [sealCalls]

/-- The run of an entry, with all it does. -/
def run (e : Entry) (id : RequestId) (steps : List Step) : Entry × List Effect :=
  Machine.run (fun e x => ((step e id x).entry, (step e id x).effects)) e steps

/-- Every packet was sealed under the next counter value: 0, 1, 2 and so
on. -/
structure SealInv (t : List Effect) (e : Entry) : Prop where
  wf : e.state.gaps.WF
  kind : ∀ c ∈ sealCalls t, c.dir = .recv ∧ c.header.kind.seqClass = .control
  seqs : (sealCalls t).map (fun c => c.header.seq)
    = (List.range (sealCalls t).length).map UInt32.ofNat
  counter : e.controlSeq.val = UInt32.ofNat (sealCalls t).length

variable {t u : List Effect} {e e' : Entry}

theorem SealInv.quiet (h : SealInv t e) (hseal : sealCalls u = []) (hwf : e'.state.gaps.WF)
    (hcounter : e'.controlSeq = e.controlSeq) : SealInv (t ++ u) e' := by
  have hcalls : sealCalls (t ++ u) = sealCalls t := by simp [hseal]
  exact ⟨hwf, by rw [hcalls]; exact h.kind, by rw [hcalls]; exact h.seqs,
    by rw [hcounter, hcalls]; exact h.counter⟩

/-- A control packet that encodes takes one counter value and is sealed
under it. -/
theorem SealInv.seal (h : SealInv t e) (id : RequestId) {body : Body}
    (hkind : body.kind.seqClass = .control) (henc : ∃ plaintext, encodeBody body = .ok plaintext) :
    SealInv (t ++ (e.seal id body).effects) (e.seal id body).entry := by
  obtain ⟨plaintext, henc⟩ := henc
  simp only [Entry.seal, henc]
  have hlen : (sealCalls t).length + 1
      = (sealCalls (t ++ [Effect.sealed (SealCall.run e.key ⟨body.kind, id, e.controlSeq.val⟩ .recv
        plaintext)])).length := by
    simp [sealCalls, Effect.sealCall]
  refine ⟨h.wf, fun c hc => ?_, ?_, ?_⟩
  · rw [sealCalls_append] at hc
    rcases List.mem_append.mp hc with hc | hc
    · exact h.kind c hc
    · rw [List.mem_singleton.mp hc]
      exact ⟨rfl, hkind⟩
  · rw [← hlen, List.range_succ, List.map_append, ← h.seqs, sealCalls_append, List.map_append]
    show _ ++ [e.controlSeq.val] = _
    rw [h.counter]
    rfl
  · rw [← hlen]
    show e.controlSeq.val + 1 = _
    rw [h.counter, UInt32.ofNat_add]
    rfl

/-- Events whose `Nack`s fit into one packet keep the counters exact. -/
theorem SealInv.apply {evs : List RecvEvent} (h : SealInv t e)
    (hnack : ∀ missing, .sendNack missing ∈ evs → missing.length ≤ maxNackEntries)
    (id : RequestId) (around : Around) :
    SealInv (t ++ (e.apply id around evs).effects) (e.apply id around evs).entry := by
  induction evs generalizing t e with
  | nil => simpa [Entry.apply] using h
  | cons ev evs ih =>
    simp only [Entry.apply, ← List.append_assoc]
    refine ih ?_ fun missing hm => hnack missing (List.mem_cons_of_mem _ hm)
    cases ev with
    | unreliable f =>
      simp only [applyOne, deliverUnrel]
      split
      · exact h.quiet rfl h.wf rfl
      · split <;> exact h.quiet rfl h.wf rfl
    | reliable f => exact h.quiet rfl h.wf rfl
    | sendNack missing =>
      refine h.seal id rfl ⟨u16Bytes (UInt16.ofNat missing.length) ++ seqBytes missing, ?_⟩
      simp only [encodeBody]
      rw [if_neg (not_lt.mpr (hnack missing List.mem_cons_self))]
    | sendAck contiguous highest bufferedMs => exact h.seal id rfl ⟨_, rfl⟩
    | sendEndAck => exact h.seal id rfl ⟨_, rfl⟩
    | relFinished outcome =>
      refine h.quiet ?_ h.wf rfl
      simp only [applyOne]
      split <;> rfl
    | closed => exact h.quiet rfl h.wf rfl

/-- One call on the receiver, applied. -/
theorem SealInv.call (h : SealInv t e) (c : RecvCall) (id : RequestId) (around : Around) :
    SealInv (t ++ (Entry.apply { e with state := (e.state.step c).1 } id around
        (e.state.step c).2).effects)
      (Entry.apply { e with state := (e.state.step c).1 } id around (e.state.step c).2).entry := by
  have hcalled : SealInv t { e with state := (e.state.step c).1 } :=
    ⟨XferReceiver.step_wf h.wf c, h.kind, h.seqs, h.counter⟩
  exact hcalled.apply (fun missing hm => XferReceiver.sendNack_of_mem_step h.wf hm) id around

theorem SealInv.step (h : SealInv t e) (id : RequestId) (x : Step) :
    SealInv (t ++ (e.step id x).effects) (e.step id x).entry := by
  cases x with
  | datagram bytes source now around =>
    simp only [Entry.step, onDatagram]
    split
    · simpa using h
    · rename_i seq body _
      have hpin : SealInv t (e.pin source) := ⟨h.wf, h.kind, h.seqs, h.counter⟩
      exact hpin.call (.handle seq body now) id around
  | tick now around => exact h.call (.tick now) id around
  | setPlayheadMs ms now => exact h.quiet rfl h.wf rfl

theorem sealInv_run (id : RequestId) (key : SessionKey) (cfg : ReceiverConfig) (start : Instant)
    (steps : List Step) : SealInv ((new key cfg start).run id steps).2
      ((new key cfg start).run id steps).1 := by
  unfold run
  exact Machine.run_induction _ (fun _ e t => SealInv t e)
    ⟨GapTracker.wf_new, by simp [sealCalls], rfl, rfl⟩ (fun _ e t x h => h.step id x) steps

end Entry

/-! ## Both ends under one key -/

/-- What both ends do, in the order they do it. -/
abbrev JointTrace := List (Sender.Effect ⊕ Entry.Effect)

/-- One tap and one sink entry under one key, in any interleaving of their
steps, whatever datagrams reach them. -/
def jointRun (key : SessionKey) (id : RequestId) (peer : SocketAddr) (scfg : SenderConfig)
    (rcfg : ReceiverConfig) (start : Instant) (steps : List (Sender.Step ⊕ Entry.Step)) :
    (Sender × Entry) × JointTrace :=
  Machine.run (Par.step (fun s x => ((s.step x).state, (s.step x).effects))
    (fun e x => ((e.step id x).entry, (e.step id x).effects)))
    (Sender.connect peer id key scfg, Entry.new key rcfg start) steps

/-- All calls to `crypto::seal`, in order. -/
def sealCallsOf (t : JointTrace) : List SealCall :=
  t.filterMap (Sum.elim Sender.Effect.sealCall Entry.Effect.sealCall)

/-- The control packets sealed in one direction. -/
def controlsSealed (dir : Direction) (t : JointTrace) : Nat :=
  (sealCallsOf t).countP fun c => c.dir = dir ∧ c.header.kind.seqClass = .control

/-- `d` is what sealing payload frame `seq` gave, and nothing else ever
was. -/
structure SealedFor (t : JointTrace) (seq : UInt32) (d : Bytes) : Prop where
  sealedOnce : ∃ c ∈ sealCallsOf t, c.dir = .send ∧ c.header.kind = .data ∧ c.header.seq = seq
    ∧ c.result = .ok d
  only : ∀ c ∈ sealCallsOf t, c.dir = .send → c.header.kind = .data → c.header.seq = seq →
    c.result = .ok d

section Joint

variable {t : JointTrace}

theorem mem_sealCallsOf {c : SealCall} : c ∈ sealCallsOf t
    ↔ c ∈ Sender.sealCalls (Net.lefts t) ∨ c ∈ Entry.sealCalls (Net.rights t) := by
  simp only [sealCallsOf, Sender.sealCalls, Entry.sealCalls, Net.lefts, Net.rights,
    List.filterMap_filterMap, List.mem_filterMap]
  constructor
  · rintro ⟨e | e, he, hc⟩
    · exact Or.inl ⟨.inl e, he, hc⟩
    · exact Or.inr ⟨.inr e, he, hc⟩
  · rintro (⟨e | e, he, hc⟩ | ⟨e | e, he, hc⟩)
    · exact ⟨.inl e, he, hc⟩
    · cases hc
    · cases hc
    · exact ⟨.inr e, he, hc⟩

/-- The calls of each direction are those of one end. -/
theorem filter_sealCallsOf (hl : ∀ c ∈ Sender.sealCalls (Net.lefts t), c.dir = .send)
    (hr : ∀ c ∈ Entry.sealCalls (Net.rights t), c.dir = .recv) (p : SealCall → Bool) :
    (sealCallsOf t).filter (fun c => c.dir = .send && p c)
        = (Sender.sealCalls (Net.lefts t)).filter p
      ∧ (sealCallsOf t).filter (fun c => c.dir = .recv && p c)
        = (Entry.sealCalls (Net.rights t)).filter p := by
  constructor
  · refine (Par.filter_of_lefts t fun c hc => ?_).trans (List.filter_congr fun c hc => ?_)
    · simp [hr c hc]
    · simp [hl c hc]
  · refine (Par.filter_of_rights t fun c hc => ?_).trans (List.filter_congr fun c hc => ?_)
    · simp [hl c hc]
    · simp [hr c hc]

/-- Different counters in one direction and class are different nonces. -/
theorem pairwise_nonce {l : List SealCall} (h : (l.map fun c => c.header.seq).Nodup) :
    l.Pairwise fun a b => a.nonce ≠ b.nonce := by
  refine (List.pairwise_map.mp h).imp fun hab heq => hab ?_
  exact (nonceFor_inj heq).2.2

/-- The first counter values, before the counter wraps around. -/
theorem nodup_counters {n : Nat} (k : Nat) (h : n + k ≤ 2 ^ 32) :
    ((List.range n).map fun i => UInt32.ofNat (i + k)).Nodup := by
  refine List.Nodup.map_on (fun a ha b hb heq => ?_) List.nodup_range
  have hval := congrArg UInt32.toNat heq
  rw [List.mem_range] at ha hb
  rw [UInt32.toNat_ofNat', UInt32.toNat_ofNat', Nat.mod_eq_of_lt (by omega),
    Nat.mod_eq_of_lt (by omega)] at hval
  omega

/-- Within a class, the tap's counters differ. -/
theorem nodup_tap {es : List Sender.Effect} {s : Sender} (h : Sender.SealInv es s)
    (hframes : Sender.framesPushed es < 2 ^ 32 - 1)
    (hcontrols : (Sender.countersOf .control es).length < 2 ^ 32) (cls : SeqClass) :
    (((Sender.sealCalls es).filter fun c => c.header.kind.seqClass = cls).map
      fun c => c.header.seq).Nodup := by
  cases cls with
  | data =>
    exact (h.data hframes).1.imp fun hlt heq => by
      rw [heq] at hlt
      exact lt_irrefl _ hlt
  | control =>
    show (Sender.countersOf .control es).Nodup
    rw [h.control]
    exact nodup_counters 1 hcontrols

/-- The sink seals control packets alone, and their counters differ. -/
theorem nodup_sink {es : List Entry.Effect} {e : Entry} (h : Entry.SealInv es e)
    (hcontrols : ((Entry.sealCalls es).filter
      fun c => c.header.kind.seqClass = .control).length < 2 ^ 32) (cls : SeqClass) :
    (((Entry.sealCalls es).filter fun c => c.header.kind.seqClass = cls).map
      fun c => c.header.seq).Nodup := by
  cases cls with
  | data =>
    have hnone : (Entry.sealCalls es).filter (fun c => c.header.kind.seqClass = .data) = [] := by
      refine List.filter_eq_nil_iff.mpr fun c hc => ?_
      simp [(h.kind c hc).2]
    rw [hnone]
    exact List.nodup_nil
  | control =>
    have hall : (Entry.sealCalls es).filter (fun c => c.header.kind.seqClass = .control)
        = Entry.sealCalls es := by
      refine List.filter_eq_self.mpr fun c hc => ?_
      simp [(h.kind c hc).2]
    rw [hall] at hcontrols ⊢
    rw [h.seqs]
    exact nodup_counters 0 hcontrols.le

/-- No nonce is used twice: the two ends differ in direction, their packets
in class, and within these the counters differ. -/
theorem nodup_nonces {s : Sender} {e : Entry} (htap : Sender.SealInv (Net.lefts t) s)
    (hsink : Entry.SealInv (Net.rights t) e)
    (hframes : Sender.framesPushed (Net.lefts t) < 2 ^ 32 - 1)
    (hcontrols : ∀ dir, controlsSealed dir t < 2 ^ 32) :
    ((sealCallsOf t).map SealCall.nonce).Nodup := by
  have hfilter := fun p => @filter_sealCallsOf t (fun c hc => (htap.made c hc).1)
    (fun c hc => (hsink.kind c hc).1) p
  have hsend := hcontrols .send
  have hrecv := hcontrols .recv
  simp only [controlsSealed, Bool.decide_and] at hsend hrecv
  rw [List.countP_eq_length_filter, (hfilter _).1] at hsend
  rw [List.countP_eq_length_filter, (hfilter _).2] at hrecv
  rw [List.Nodup, List.pairwise_map]
  refine Par.pairwise_of_classes (fun c => (c.dir, c.header.kind.seqClass)) ?_ ?_
  · rintro ⟨dir, cls⟩
    have hsplit : ∀ c : SealCall, decide ((c.dir, c.header.kind.seqClass) = (dir, cls))
        = (decide (c.dir = dir) && decide (c.header.kind.seqClass = cls)) := by
      intro c
      rw [← Bool.decide_and]
      exact decide_eq_decide.mpr Prod.mk_inj
    simp only [hsplit]
    apply pairwise_nonce
    cases dir with
    | send =>
      rw [(hfilter _).1]
      exact nodup_tap htap hframes (by rwa [Sender.countersOf, List.length_map]) cls
    | recv =>
      rw [(hfilter _).2]
      exact nodup_sink hsink hrecv cls
  · intro a _ b _ hne heq
    obtain ⟨hdir, hcls, -⟩ := nonceFor_inj heq
    exact hne (Prod.ext hdir hcls)

/-- **Every nonce is used once, and every payload datagram on the wire is
the one that was sealed for its number.** -/
theorem nonces_unique_resends_verbatim (key : SessionKey) (id : RequestId) (peer : SocketAddr)
    (scfg : SenderConfig) (rcfg : ReceiverConfig) (start : Instant)
    (steps : List (Sender.Step ⊕ Entry.Step))
    (hframes : Sender.framesPushed (Net.lefts (jointRun key id peer scfg rcfg start steps).2)
      < 2 ^ 32 - 1)
    (hcontrols : ∀ dir,
      controlsSealed dir (jointRun key id peer scfg rcfg start steps).2 < 2 ^ 32) :
    ((sealCallsOf (jointRun key id peer scfg rcfg start steps).2).map SealCall.nonce).Nodup
      ∧ ∀ d header c, .inl (.sent d) ∈ (jointRun key id peer scfg rcfg start steps).2 →
        Header.parse d = .ok (header, c) → header.kind = .data →
        SealedFor (jointRun key id peer scfg rcfg start steps).2 header.seq d := by
  have htap := Sender.sealInv_run peer id key scfg (Net.lefts steps)
  have hsink := Entry.sealInv_run id key rcfg start (Net.rights steps)
  obtain ⟨⟨hl, -⟩, hr, -⟩ := Par.run_sides
    (fun s x => ((Sender.step s x).state, (Sender.step s x).effects))
    (fun e x => ((Entry.step e id x).entry, (Entry.step e id x).effects))
    (Sender.connect peer id key scfg) (Entry.new key rcfg start) steps
  change Net.lefts (jointRun key id peer scfg rcfg start steps).2
    = ((Sender.connect peer id key scfg).run (Net.lefts steps)).2 at hl
  change Net.rights (jointRun key id peer scfg rcfg start steps).2
    = ((Entry.new key rcfg start).run id (Net.rights steps)).2 at hr
  rw [← hl] at htap
  rw [← hr] at hsink
  generalize (jointRun key id peer scfg rcfg start steps).2 = t at *
  have hnodup := nodup_nonces htap hsink hframes hcontrols
  refine ⟨hnodup, fun d header ciphertext hd hparse hkind => ?_⟩
  obtain ⟨c, hc, hres⟩ := htap.sent d (List.mem_filterMap.mpr ⟨.inl (.sent d), hd, rfl⟩)
  obtain ⟨hdir, hmade⟩ := htap.made c hc
  have hmem : c ∈ sealCallsOf t := mem_sealCallsOf.mpr (Or.inl hc)
  obtain ⟨ciphertext', hparse'⟩ := hmade.parse hres
  rw [hparse] at hparse'
  cases hparse'
  refine ⟨⟨c, hmem, hdir, hkind, rfl, hres⟩, fun c' hc' hdir' hkind' hseq' => ?_⟩
  -- a second call for the same number would have used the same nonce
  have hsame : c' = c := by
    refine List.inj_on_of_nodup_map hnodup hc' hmem ?_
    simp only [SealCall.nonce, hdir, hdir', hkind, hkind', hseq']
  rw [hsame, hres]

/-- Two frames, an acknowledged tick, a request for frame 1 and its resend. -/
def resendSteps : List (Sender.Step ⊕ Entry.Step) :=
  [.inl (.push ⟨0⟩ [7] 0 none), .inl (.push ⟨20⟩ [8] 0 none),
    .inr (.datagram ((sealBody plainKey zeroId .send 1 (.data ⟨0⟩ [7])).toOption.getD [])
      ⟨[127, 0, 0, 1], 4001⟩ 0 ⟨true, true, 0, 0⟩),
    .inr (.tick (fromSecs 1) ⟨true, true, 0, 0⟩),
    .inl (.pump (.datagram ((sealBody plainKey zeroId .recv 0
      (.nack [XferSeq.ofNat 1])).toOption.getD [])) 1 1 none none)]

theorem nonces_unique_resends_verbatim_one_resend :
    let t := (jointRun plainKey zeroId ⟨[127, 0, 0, 1], 4000⟩ {} .audioEngine 0 resendSteps).2
    ((sealCallsOf t).map SealCall.nonce).Nodup ∧ (sealCallsOf t).length = 3
      ∧ Sender.framesPushed (Net.lefts t) = 2 :=
  ⟨(nonces_unique_resends_verbatim plainKey zeroId ⟨[127, 0, 0, 1], 4000⟩ {} .audioEngine 0
      resendSteps (by decide +kernel) (fun dir => by cases dir <;> decide +kernel)).1,
    by decide +kernel, by decide +kernel⟩

end Joint

end Protofish4
