import Protofish4.Lib.Flight
import Protofish4.Lib.Simulation
import Protofish4.Link.Exact
import Protofish4.Link.Mutual
import Protofish4.Xfer.Budget

/-!
# How often a frame crosses the network

The sender puts a frame on the network when it is pushed, and again for
every request it gets for it; the receiver asks for a number as often as
its budget allows. So unless the network itself repeats a request, a frame
is sent once and then as often as the budget says, whatever is lost.
-/

namespace Protofish4

open XferReceiver (asked)

variable {key : SessionKey} {id : RequestId} {q : XferSeq}

/-- The packet holds the frame numbered `q`. -/
def holdsFrame (key : SessionKey) (q : XferSeq) (bytes : Bytes) : Bool :=
  match openBody key .send bytes with
  | some (seq, .data ..) => seq = q
  | _ => false

/-- How often a packet asks for `q`. -/
def askedBy (key : SessionKey) (q : XferSeq) (m : Sent) : Nat :=
  match openBody key .recv m.bytes with
  | some (_, .nack missing) => missing.count q
  | _ => 0

/-- The payload packets that go out with this: a new one, or those sent
again. -/
def TxObs.payloads : TxObs → List Bytes
  | .recorded _ datagram _ => [datagram]
  | .event (.resend datagrams) => datagrams
  | _ => []

theorem holdsFrame_of_seal {seq : XferSeq} {body : Body} {d : Bytes}
    (hseal : sealBody key id .send seq.val body = .ok d) (hdir : body.kind.direction = .send) :
    holdsFrame key q d = true ↔ body.kind = .data ∧ seq = q := by
  rw [holdsFrame, openBody_sealBody hseal hdir]
  cases body <;> simp [Body.kind]

/-! ## What goes out -/

/-- The payload packets logged are those put on the network. -/
theorem countP_payloads (now : Instant) (s : XferSender) {es : List SendEvent}
    (h : ∀ seq body, .emit seq body ∈ es → body.kind.direction = .send) :
    (((transmitAll key id now s es).events.flatMap TxObs.payloads).countP (holdsFrame key q))
      = (transmitAll key id now s es).sent.countP fun m => holdsFrame key q m.bytes := by
  have hone : ∀ s e, (∀ seq body, .emit seq body ∈ [e] → body.kind.direction = .send) →
      ((transmit key id now s e).events.flatMap TxObs.payloads).countP (holdsFrame key q)
        = (transmit key id now s e).sent.countP fun m => holdsFrame key q m.bytes := by
    intro s e he
    cases e with
    | emit seq body =>
      have hdir := he seq body (List.mem_singleton_self _)
      simp only [transmit]
      split
      · rfl
      · rename_i d hd
        split
        · simp [TxObs.payloads]
        · rename_i hkind
          have hnot : holdsFrame key q d = false := by
            simpa [hkind] using @holdsFrame_of_seal key id q seq body d hd hdir
          simp [TxObs.payloads, hnot]
    | resend ds => simp [transmit, TxObs.payloads, List.countP_map, Function.comp_def]
    | completed | failed reason => rfl
  induction es generalizing s with
  | nil => rfl
  | cons e es ih =>
    simp only [transmitAll, List.flatMap_append, List.countP_append]
    rw [hone s e fun seq body he => h seq body (List.mem_singleton.mp he ▸ List.mem_cons_self),
      ih _ fun seq body he => h seq body (List.mem_cons_of_mem _ he)]

theorem countP_act (x : XferSender) (i : TxAct) :
    ((txParty key id).act x i).sent.countP (fun m => holdsFrame key q m.bytes)
      = (((txParty key id).act x i).events.flatMap TxObs.payloads).countP (holdsFrame key q) := by
  cases i with
  | pushFrame ts payload now =>
    refine (countP_payloads now _ fun seq body he => ?_).symm
    rcases x.pushFrame_cases now ts payload with ⟨heq, -⟩ | ⟨-, -, hout⟩
    · rw [heq] at he
      cases he
    · rw [hout] at he
      cases List.mem_singleton.mp he
      rfl
  | finish now =>
    refine (countP_payloads now _ fun seq body he => ?_).symm
    rcases x.finish_cases now with ⟨heq, -⟩ | ⟨-, -, -, -, seq', hout⟩
    · rw [heq] at he
      cases he
    · rw [hout] at he
      cases List.mem_singleton.mp he
      rfl
  | tick now =>
    refine (countP_payloads now _ fun seq body he => ?_).symm
    rw [x.tick_emit now he]
    rfl

theorem countP_receive (x : XferSender) (now : Instant) (m : Sent) :
    ((txParty key id).receive x now m).sent.countP (fun m => holdsFrame key q m.bytes)
      = (((txParty key id).receive x now m).events.flatMap TxObs.payloads).countP
        (holdsFrame key q) := by
  simp only [txParty]
  split
  · rfl
  · refine (countP_payloads now _ fun seq body he => ?_).symm
    exact absurd he (x.emit_not_mem_handle now)

/-- The packet is new, and holds `q`. -/
def TxObs.anew (key : SessionKey) (q : XferSeq) : TxObs → Nat
  | .recorded _ datagram _ => if holdsFrame key q datagram then 1 else 0
  | _ => 0

/-- How many packets sent again hold `q`. -/
def TxObs.again (key : SessionKey) (q : XferSeq) : TxObs → Nat
  | .event (.resend datagrams) => datagrams.countP (holdsFrame key q)
  | _ => 0

theorem countP_anew_again (l : List TxObs) :
    (l.flatMap TxObs.payloads).countP (holdsFrame key q)
      = (l.map (TxObs.anew key q)).sum + (l.map (TxObs.again key q)).sum := by
  have hone : ∀ o : TxObs, o.payloads.countP (holdsFrame key q) = o.anew key q + o.again key q := by
    intro o
    cases o with
    | event e => cases e <;> simp [TxObs.payloads, TxObs.anew, TxObs.again]
    | recorded seq d evicted =>
      simp [TxObs.payloads, TxObs.anew, TxObs.again, List.countP_singleton]
    | unsent seq e => rfl
  rw [List.countP_flatMap]
  induction l with
  | nil => rfl
  | cons o l ih =>
    simp only [List.map_cons, List.sum_cons, ih, Function.comp_apply, hone]
    omega

/-! ## New packets -/

/-- A new packet that holds `q` is that of a frame pushed under `q`. -/
theorem anew_transmitAll (now : Instant) (s : XferSender) (es : List SendEvent) :
    ((transmitAll key id now s es).events.map (TxObs.anew key q)).sum
      ≤ ((transmitAll key id now s es).events.filterMap TxObs.frame).countP (·.seq = q) := by
  have hone : ∀ s e, ((transmit key id now s e).events.map (TxObs.anew key q)).sum
      ≤ ((transmit key id now s e).events.filterMap TxObs.frame).countP (·.seq = q) := by
    intro s e
    cases e with
    | emit seq body =>
      simp only [transmit]
      split
      · simp [TxObs.anew]
      · rename_i d hd
        split
        · rename_i hkind
          cases body with
          | data ts payload =>
            have hholds := @holdsFrame_of_seal key id q seq _ d hd rfl
            by_cases hq : seq = q <;> simp_all [TxObs.anew, TxObs.frame]
          | «end» | ack | nack | keepalive | endAck => cases hkind
        · simp [TxObs.anew]
    | resend ds => simp [transmit, TxObs.anew]
    | completed | failed reason => simp [transmit, TxObs.anew]
  induction es generalizing s with
  | nil => exact Nat.le_refl _
  | cons e es ih =>
    simp only [transmitAll, List.map_append, List.sum_append, List.filterMap_append,
      List.countP_append]
    exact Nat.add_le_add (hone s e) (ih _)

/-! ## Packets sent again -/

theorem again_transmitAll (now : Instant) (s : XferSender) (es : List SendEvent) :
    ((transmitAll key id now s es).events.map (TxObs.again key q)).sum
      = (es.map fun e => (TxObs.event e).again key q).sum := by
  have hone : ∀ s e, ((transmit key id now s e).events.map (TxObs.again key q)).sum
      = (TxObs.event e).again key q := by
    intro s e
    cases e with
    | emit seq body =>
      simp only [transmit]
      split
      · rfl
      · split <;> rfl
    | resend ds => simp [transmit]
    | completed | failed reason => rfl
  induction es generalizing s with
  | nil => rfl
  | cons e es ih =>
    simp only [transmitAll, List.map_append, List.sum_append, List.map_cons, List.sum_cons]
    rw [hone, ih]

/-- Of its own accord the sender sends nothing again. -/
theorem again_act (x : XferSender) (i : TxAct) :
    (((txParty key id).act x i).events.map (TxObs.again key q)).sum = 0 := by
  cases i with
  | pushFrame ts payload now =>
    rw [txParty, again_transmitAll]
    rcases x.pushFrame_cases now ts payload with ⟨heq, -⟩ | ⟨-, -, hout⟩
    · rw [heq]
      rfl
    · rw [hout]
      rfl
  | finish now =>
    rw [txParty, again_transmitAll]
    rcases x.finish_cases now with ⟨heq, -⟩ | ⟨-, -, -, -, seq, hout⟩
    · rw [heq]
      rfl
    · rw [hout]
      rfl
  | tick now =>
    rw [txParty, again_transmitAll]
    refine List.sum_eq_zero fun n hn => ?_
    obtain ⟨e, he, rfl⟩ := List.mem_map.mp hn
    rcases x.tick_events now he with ⟨seq, rfl⟩ | ⟨reason, rfl⟩ <;> rfl

/-- What the ring has for the numbers asked for is asked for. -/
theorem countP_held {x : XferSender} (hring : ∀ e ∈ x.ring.entries, ∃ ts payload,
      sealBody key id .send e.1.val (.data ts payload) = .ok e.2) (missing : List XferSeq) :
    (x.held missing).countP (holdsFrame key q) ≤ missing.count q := by
  rw [XferSender.held, List.countP_filterMap, List.count]
  refine List.countP_mono_left fun a _ ha => ?_
  cases hget : x.ring.get a with
  | none =>
    rw [hget] at ha
    cases ha
  | some d =>
    obtain ⟨ts, payload, hseal⟩ := hring _ (RetransRing.get_mem hget)
    rw [hget] at ha
    exact beq_iff_eq.mpr (((@holdsFrame_of_seal key id q a _ d hseal rfl).mp ha).2)

/-- A packet gets as many packets sent again as it asks for, at most. -/
theorem again_receive {x : XferSender} (hring : ∀ e ∈ x.ring.entries, ∃ ts payload,
      sealBody key id .send e.1.val (.data ts payload) = .ok e.2) (now : Instant) (m : Sent) :
    (((txParty key id).receive x now m).events.map (TxObs.again key q)).sum
      ≤ askedBy key q m := by
  simp only [txParty, askedBy]
  cases hopen : openBody key .recv m.bytes with
  | none => exact Nat.zero_le _
  | some p =>
    obtain ⟨seq, body⟩ := p
    simp only
    rw [again_transmitAll]
    cases body with
    | nack missing =>
      simp only [XferSender.handle]
      split
      · exact Nat.zero_le _
      · simpa [TxObs.again] using countP_held hring missing
    | data | «end» | ack | keepalive => exact Nat.zero_le _
    | endAck => exact Nat.zero_le _

/-! ## Requests -/

/-- The replies to some events ask for what these events ask for. -/
theorem askedBy_reply (now : Instant) (y : Rx) (es : List RecvEvent) :
    ((Rx.reply key id now y es).2.map (askedBy key q)).sum ≤ (asked es).count q := by
  induction es generalizing y with
  | nil => exact Nat.le_refl _
  | cons e es ih =>
    have hcons : (asked (e :: es)).count q = (asked [e]).count q + (asked es).count q := by
      rw [← List.singleton_append, XferReceiver.asked_append, List.count_append]
    rw [hcons]
    simp only [Rx.reply]
    split
    · exact (ih y).trans (Nat.le_add_left _ _)
    · rename_i body hbody
      split
      · rename_i d hd
        rw [List.map_cons, List.sum_cons]
        refine Nat.add_le_add ?_ (ih _)
        cases e with
        | sendNack missing =>
          cases hbody
          simp [askedBy, openBody_sealBody hd rfl, asked]
        | sendAck contiguous highest bufferedMs =>
          cases hbody
          simp [askedBy, openBody_sealBody hd rfl]
        | sendEndAck =>
          cases hbody
          simp [askedBy, openBody_sealBody hd rfl]
        | unreliable | reliable | relFinished | closed => cases hbody
      · exact (ih _).trans (Nat.le_add_left _ _)

theorem askedBy_call (now : Instant) (y : Rx) (c : RecvCall) :
    ((y.call key id now c).sent.map (askedBy key q)).sum
      ≤ ((y.call key id now c).events.map fun o => (asked o.events).count q).sum := by
  simpa [Rx.call] using askedBy_reply now { y with state := (y.state.step c).1 } (y.state.step c).2

/-- A run asks as often as its books say. -/
theorem XferReceiver.count_asked (cfg : ReceiverConfig) (start : Instant) (calls : List RecvCall)
    (q : XferSeq) : (asked (run cfg start calls).2).count q
      = (requests cfg start calls q).length := by
  induction calls using List.reverseRecOn with
  | nil => rfl
  | append_singleton calls c ih =>
    rw [run_concat, Machine.andThen_snd, asked_append, List.count_append, ih, requests_concat,
      List.length_append]
    congr 1
    cases c with
    | setBufferedMs ms => rfl
    | handle seq body now => exact (List.length_replicate).symm
    | tick now => exact (List.length_replicate).symm

/-! ## Every run -/

section Run

variable {scfg : SenderConfig} {rcfg : ReceiverConfig} {start : Instant} {ops : List LinkOp}

/-- How often the packet that the network repeats in this operation, if it
repeats one to the sender, asks for `q`. -/
def repeated (key : SessionKey) (q : XferSeq) (s : LinkState) : LinkOp → Nat
  | .deliverLeft n _ true => s.toLeft[n]?.elim 0 (askedBy key q)
  | _ => 0

/-- The network repeats no request for `q`. -/
def RequestsOnce (key : SessionKey) (id : RequestId) (scfg : SenderConfig) (rcfg : ReceiverConfig)
    (start : Instant) (q : XferSeq) (ops : List LinkOp) : Prop :=
  ∀ before op after, ops = before ++ op :: after →
    repeated key q (linkRun key id scfg rcfg start before).1 op = 0

instance (q : XferSeq) (ops : List LinkOp) :
    Decidable (RequestsOnce key id scfg rcfg start q ops) :=
  decidable_of_iff _ Machine.forall_split_iff.symm

/-- How often the frame numbered `q` is put on the network. -/
def timesSent (key : SessionKey) (id : RequestId) (scfg : SenderConfig) (rcfg : ReceiverConfig)
    (start : Instant) (q : XferSeq) (ops : List LinkOp) : Nat :=
  (Net.allSentRight (txParty key id) (rxParty key id) (linkStart scfg rcfg start) ops).countP
    fun m => holdsFrame key q m.bytes

/-- It is as often as the packets logged hold it. -/
theorem timesSent_eq (ops : List LinkOp) : timesSent key id scfg rcfg start q ops
    = ((Net.lefts (linkRun key id scfg rcfg start ops).2).flatMap TxObs.payloads).countP
      (holdsFrame key q) := by
  induction ops using List.reverseRecOn with
  | nil => rfl
  | append_singleton ops op ih =>
    have hsnd : (linkRun key id scfg rcfg start (ops ++ [op])).2
        = (linkRun key id scfg rcfg start ops).2
          ++ (Net.step (txParty key id) (rxParty key id) (linkRun key id scfg rcfg start ops).1
            op).2 := Net.run_concat_snd ops op
    rw [timesSent, Net.allSentRight_concat, List.countP_append, ← timesSent, ih, hsnd,
      Net.lefts_append, List.flatMap_append, List.countP_append]
    congr 1
    show (Net.sentRight (txParty key id) (linkRun key id scfg rcfg start ops).1 op).countP _ = _
    generalize (linkRun key id scfg rcfg start ops).1 = s
    cases op with
    | left i =>
      simp only [Net.sentRight, Net.step, Net.leftDoes, Net.lefts_map_inl]
      exact countP_act s.left i
    | deliverLeft n now keep =>
      simp only [Net.sentRight, Net.step]
      cases s.toLeft[n]? with
      | none => rfl
      | some m =>
        simp only [Net.leftDoes, Net.lefts_map_inl]
        exact countP_receive s.left now m
    | right i => simp [Net.sentRight, Net.step, Net.rightDoes]
    | deliverRight n now keep =>
      simp only [Net.sentRight, Net.step]
      split
      · rfl
      · simp [Net.rightDoes]
    | dropLeft n => rfl
    | dropRight n => rfl

/-- **Every packet sent again was asked for**, by a request that is not in
flight any more. -/
theorem ledger_run (honce : RequestsOnce key id scfg rcfg start q ops) :
    Net.Ledger (askedBy key q) (TxObs.again key q) (fun o : RxObs => (asked o.events).count q)
      (linkRun key id scfg rcfg start ops).2 (linkRun key id scfg rcfg start ops).1 := by
  induction ops using List.reverseRecOn with
  | nil => exact Nat.le_refl _
  | append_singleton ops op ih =>
    have hbefore := ih fun before op' after heq => honce before op' (after ++ [op]) (by simp [heq])
    have hlast := honce ops op [] rfl
    have hring := (mutual_run (sourceLike_txParty key id) (sinkLike_rxParty key id) scfg rcfg start
      ops).holds.ring
    have hfst : (linkRun key id scfg rcfg start (ops ++ [op])).1
        = (Net.step (txParty key id) (rxParty key id) (linkRun key id scfg rcfg start ops).1
          op).1 := Net.run_concat_fst ops op
    have hsnd : (linkRun key id scfg rcfg start (ops ++ [op])).2
        = (linkRun key id scfg rcfg start ops).2
          ++ (Net.step (txParty key id) (rxParty key id) (linkRun key id scfg rcfg start ops).1
            op).2 := Net.run_concat_snd ops op
    rw [hfst, hsnd]
    refine hbefore.step ?_ (fun i => again_act _ i) (fun now m => again_receive ?_ now m) ?_ ?_
    · rintro n now m rfl hm
      simpa [repeated, hm] using hlast
    · intro e he
      obtain ⟨frame, -, hseq, hseal⟩ := hring e he
      exact ⟨frame.ts, frame.payload, by rw [hseq]; exact hseal⟩
    · intro i
      cases i with
      | tick now => exact askedBy_call now _ _
      | setBufferedMs ms => exact askedBy_call 0 _ _
      | report occupancy => exact Nat.le_refl _
    · intro now m
      simp only [rxParty]
      split
      · exact Nat.le_refl _
      · exact askedBy_call now _ _

/-- Every new packet is that of a frame pushed. -/
theorem anew_run (ops : List LinkOp) :
    ((Net.lefts (linkRun key id scfg rcfg start ops).2).map (TxObs.anew key q)).sum
      ≤ (pushed (linkRun key id scfg rcfg start ops).2).countP (·.seq = q) := by
  induction ops using List.reverseRecOn with
  | nil => exact Nat.le_refl _
  | append_singleton ops op ih =>
    have hsnd : (linkRun key id scfg rcfg start (ops ++ [op])).2
        = (linkRun key id scfg rcfg start ops).2
          ++ (Net.step (txParty key id) (rxParty key id) (linkRun key id scfg rcfg start ops).1
            op).2 := Net.run_concat_snd ops op
    rw [hsnd, Net.lefts_append, List.map_append, List.sum_append, pushed_append, List.countP_append]
    refine Nat.add_le_add ih ?_
    generalize (linkRun key id scfg rcfg start ops).1 = s
    cases op with
    | left i =>
      cases i <;> simpa [Net.step, Net.leftDoes, pushed, txParty] using anew_transmitAll _ _ _
    | right i => simp [Net.step, Net.rightDoes]
    | deliverLeft n now keep =>
      simp only [Net.step]
      split
      · exact Nat.le_refl _
      · simp only [txParty]
        split
        · exact Nat.le_refl _
        · simpa [Net.leftDoes, pushed] using anew_transmitAll _ _ _
    | deliverRight n now keep =>
      simp only [Net.step]
      split
      · exact Nat.le_refl _
      · simp [Net.rightDoes]
    | dropLeft n => exact Nat.le_refl _
    | dropRight n => exact Nat.le_refl _

/-- No number is handed out twice. -/
theorem pushed_once (hfew : FewPushed key id scfg rcfg start ops) :
    (pushed (linkRun key id scfg rcfg start ops).2).countP (·.seq = q) ≤ 1 := by
  have hnum := (exact_run key id scfg rcfg start ops hfew).holds.numbered
  generalize pushed (linkRun key id scfg rcfg start ops).2 = l at hnum
  have hseqs : l.map (fun f => f.seq.toNat) = List.range' 1 l.length := by
    refine List.ext_getElem (by simp) fun i hi hi' => ?_
    rw [List.length_map] at hi
    rw [List.getElem_map, hnum i _ (List.getElem?_eq_getElem hi), List.getElem_range']
    omega
  calc l.countP (·.seq = q) ≤ (l.map fun f => f.seq.toNat).count q.toNat := by
        rw [List.count, List.countP_map]
        exact List.countP_mono_left fun f _ hf => beq_iff_eq.mpr
          (congrArg XferSeq.toNat (of_decide_eq_true hf))
    _ ≤ 1 := by
        rw [hseqs]
        exact List.nodup_iff_count_le_one.mp List.nodup_range' _

/-- **A frame is sent once, and then as often as the budget allows.** In
every run in which the network repeats no request for it, whatever the
network loses, reorders or delays and whatever else it repeats, the sender
puts the frame on the network at most once more than the receiver may ask
for it. -/
theorem frame_sent_within_budget (hfew : FewPushed key id scfg rcfg start ops) (q : XferSeq)
    (honce : RequestsOnce key id scfg rcfg start q ops) :
    timesSent key id scfg rcfg start q ops ≤ 1 + rcfg.maxNackAttempts := by
  have hledger := @ledger_run key id q scfg rcfg start ops honce
  have hproj : Projects rcfg start (linkRun key id scfg rcfg start ops).2
      (linkRun key id scfg rcfg start ops).1.right :=
    (mutual_run (sourceLike_txParty key id) (sinkLike_rxParty key id) scfg rcfg start
      ops).holds.projects
  unfold Projects at hproj
  have hrequests : ((Net.rights (linkRun key id scfg rcfg start ops).2).map
      fun o => (asked o.events).count q).sum
      = (XferReceiver.requests rcfg start
        (recvCalls (linkRun key id scfg rcfg start ops).2) q).length := by
    rw [← XferReceiver.count_asked, hproj, recvEvents]
    induction Net.rights (linkRun key id scfg rcfg start ops).2 with
    | nil => rfl
    | cons o l ih =>
      rw [List.map_cons, List.sum_cons, ih, List.flatMap_cons, XferReceiver.asked_append,
        List.count_append]
  have hbudget := (XferReceiver.booked_run rcfg start
    (recvCalls (linkRun key id scfg rcfg start ops).2)).budget q
  rw [XferReceiver.run_cfg] at hbudget
  rw [timesSent_eq, countP_anew_again]
  have hnew := (@anew_run key id q scfg rcfg start ops).trans (pushed_once hfew)
  unfold Net.Ledger at hledger
  omega

/-- The first of two frames is lost; the receiver asks for it, and the
request is answered. The frame that is sent again and the acknowledgement
come twice. -/
def requestedOps : List LinkOp :=
  [.left (.pushFrame ⟨0⟩ [1] 0), .left (.pushFrame ⟨20⟩ [2] 0), .dropRight 0,
    .deliverRight 0 1 false, .right (.tick (fromMillis 100)),
    .deliverLeft 0 (fromMillis 120) false, .deliverRight 0 (fromMillis 140) true,
    .deliverRight 0 (fromMillis 150) false, .right (.tick (fromMillis 250)),
    .deliverLeft 0 (fromMillis 270) true, .deliverLeft 0 (fromMillis 280) false]

theorem frame_sent_within_budget_requested :
    timesSent plainKey zeroId {} .audioEngine 0 (.ofNat 1) requestedOps = 2
      ∧ 2 ≤ 1 + ReceiverConfig.audioEngine.maxNackAttempts := by
  have hsent : timesSent plainKey zeroId {} .audioEngine 0 (.ofNat 1) requestedOps = 2 := by
    decide +kernel
  have hle := @frame_sent_within_budget plainKey zeroId {} .audioEngine 0 requestedOps
    (by decide +kernel) (.ofNat 1) (by decide +kernel)
  exact ⟨hsent, hsent ▸ hle⟩

end Run

end Protofish4
