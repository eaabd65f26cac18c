import Protofish4.Xfer.Memory
import Protofish4.Xfer.Occasions
import Protofish4.Xfer.Stall

/-!
# The NACK budget

Every hole has an entry in the books: how often it was asked for, and when
last. The entry gates the next request, and it says when the budget is
used up. Entries are made on the first tick that considers a hole and
leave with the release, so for a number that has not arrived the books and
the requests on the wire agree.
-/

namespace Protofish4

open Std (ExtTreeMap)

namespace XferReceiver

/-! ## One round of requests -/

/-- The round of `emit_nacks` at `now`. -/
def nackRound (r : XferReceiver) (now : Instant) : Asked :=
  nackLoop r.cfg r.senderLostBelow now r.considered r.nacks []

variable {r : XferReceiver} {now : Instant}

theorem emitNacks_eq (r : XferReceiver) (now : Instant) : r.emitNacks now
    = if (r.nackRound now).exhausted then
        { r with nacks := (r.nackRound now).nacks }.finishRel (.aborted .unrecoverableGap)
      else ({ r with nacks := (r.nackRound now).nacks },
        if (r.nackRound now).ask.isEmpty then [] else [.sendNack (r.nackRound now).ask]) := by
  have hcons : r.gaps.missing maxNackEntries = r.considered := rfl
  unfold emitNacks nackRound
  simp only [hcons]
  split
  · rename_i hempty
    rw [List.isEmpty_iff.mp hempty]
    rfl
  · rfl

/-- A round breaks off exactly if it meets a hole without budget. -/
theorem exhausted_iff (hnodup : r.considered.Nodup)
    (hlost : ∀ s ∈ r.considered, r.senderLostBelow < s) : (r.nackRound now).exhausted = true
      ↔ ∃ s ∈ r.considered, r.cfg.maxNackAttempts ≤ (r.nackEntry now s).1 := by
  constructor
  · intro h
    by_contra hnone
    push Not at hnone
    rw [nackRound, (nackLoop_done r now hnodup hlost hnone).ends] at h
    cases h
  · rintro ⟨s, hs, hle⟩
    by_contra hne
    have hgo : (r.nackRound now).exhausted = false := by simpa using hne
    exact absurd ((nackLoop_done_of_ends hnodup hgo).room s hs).2 (not_lt.mpr hle)

/-! ## What a call asks for -/

theorem RecvInv.considered_nodup {calls : List RecvCall} {evs : List RecvEvent}
    (h : RecvInv calls r evs) (hs : r.relState = .streaming) : r.considered.Nodup := by
  rw [h.considered_eq hs]
  exact (List.Nodup.filter _ List.nodup_range').sublist (List.take_sublist _ _)

/-- A considered number has not arrived, and lies above the segment. -/
theorem RecvInv.mem_considered {calls : List RecvCall} {evs : List RecvEvent}
    (h : RecvInv calls r evs) (hs : r.relState = .streaming) {s : Nat} (hm : s ∈ r.considered) :
    1 ≤ s ∧ s < 2 ^ 32 ∧ firstArrival calls s = none ∧ r.gaps.contiguous < s := by
  rw [h.considered_eq hs] at hm
  obtain ⟨h1, hle, hnone⟩ := mem_absent.mp (List.mem_of_mem_take hm)
  refine ⟨h1, hle.trans_lt h.wf.bound, hnone, ?_⟩
  by_contra hseg
  have hseen := h.seen s (GapTracker.filled_seen _ s h1 (not_lt.mp hseg))
  rw [hnone] at hseen
  cases hseen

theorem RecvInv.lost_lt {calls : List RecvCall} {evs : List RecvEvent} (h : RecvInv calls r evs)
    (hs : r.relState = .streaming) : ∀ s ∈ r.considered, r.senderLostBelow < s :=
  fun _ hm => (h.live hs).lost_le.trans_lt (h.mem_considered hs hm).2.2.2

theorem asked_of_no_nack {out : List RecvEvent} (h : ∀ missing, .sendNack missing ∉ out) :
    asked out = [] := by
  apply List.flatMap_eq_nil_iff.mpr
  intro e he
  cases e with
  | sendNack missing => exact absurd he (h missing)
  | unreliable | reliable | sendAck | sendEndAck | relFinished | closed => rfl

/-- A tick that asks for something does so in a round that reaches its end. -/
theorem tick_round (hs : r.relState = .streaming) (hopen : r.closed = false)
    (hidle : durationSince now r.lastPacketAt ≤ r.cfg.idleTimeout)
    (hstall : durationSince now r.lastRelProgressAt ≤ r.cfg.relStallTimeout)
    (hgo : (r.nackRound now).exhausted = false) :
    (r.tick now).1.relState = .streaming ∧ (r.tick now).1.nacks = (r.nackRound now).nacks
      ∧ asked (r.tick now).2 = (r.nackRound now).ask
      ∧ ∀ missing, .sendNack missing ∈ (r.tick now).2 →
        missing = (r.nackRound now).ask ∧ missing ≠ [] := by
  have hrel : r.tickRel now = ({ r with nacks := (r.nackRound now).nacks },
      if (r.nackRound now).ask.isEmpty then [] else [.sendNack (r.nackRound now).ask]) := by
    rw [tickRel, if_pos hs, if_neg (not_lt.mpr hstall), emitNacks_eq, if_neg (by simp [hgo])]
  have hack : ∀ (r' : XferReceiver) missing, .sendNack missing ∉ (r'.maybeAck now).2 :=
    fun r' missing hm => by cases (maybeAck_events hm).1
  rw [tick_of_awake hopen hidle, Machine.andThen_fst, Machine.andThen_snd, maybeAck_state,
    asked_append, asked_of_no_nack (hack _), List.append_nil, hrel]
  refine ⟨hs, rfl, ?_, fun missing hm => ?_⟩
  · cases hask : (r.nackRound now).ask with
    | nil => rfl
    | cons q rest => simp [asked]
  · rcases List.mem_append.mp hm with hm | hm
    · cases hask : (r.nackRound now).ask with
      | nil => simp [hask] at hm
      | cons q rest =>
        simp only [hask, List.isEmpty_cons, Bool.false_eq_true, if_false, List.mem_singleton,
          RecvEvent.sendNack.injEq] at hm
        exact ⟨hm, by simp [hm]⟩
    · exact absurd hm (hack _ missing)

/-- What the tick of a streaming receiver does: a round of requests, or the
end of the stream. -/
theorem tick_cases (hs : r.relState = .streaming) (hopen : r.closed = false) :
    durationSince now r.lastPacketAt ≤ r.cfg.idleTimeout
        ∧ durationSince now r.lastRelProgressAt ≤ r.cfg.relStallTimeout
        ∧ (r.nackRound now).exhausted = false
      ∨ (r.tick now).1.relState = .finished
        ∧ ∀ missing, .sendNack missing ∉ (r.tick now).2 := by
  by_cases hidle : durationSince now r.lastPacketAt > r.cfg.idleTimeout
  · right
    rw [tick_of_idle hopen hidle]
    refine ⟨closeIdle_finished, fun missing hm => ?_⟩
    rcases closeIdle_events hm with ⟨he, -⟩ | he <;> cases he
  · by_cases hend : durationSince now r.lastRelProgressAt > r.cfg.relStallTimeout
        ∨ (r.nackRound now).exhausted = true
    · right
      -- a stall and a spent gap both end the reliable stream
      have hrel : ∃ (r' : XferReceiver) (o : RelOutcome), r.tickRel now = r'.finishRel o := by
        rw [tickRel, if_pos hs]
        by_cases hstall : durationSince now r.lastRelProgressAt > r.cfg.relStallTimeout
        · rw [if_pos hstall]
          exact ⟨_, _, rfl⟩
        · rw [if_neg hstall, emitNacks_eq, if_pos (hend.resolve_left hstall)]
          exact ⟨_, _, rfl⟩
      obtain ⟨r', o, hrel⟩ := hrel
      rw [tick_of_awake hopen (not_lt.mp hidle), Machine.andThen_fst, Machine.andThen_snd,
        maybeAck_state, hrel]
      refine ⟨finishRel_finished r' o, fun missing hm => ?_⟩
      rcases List.mem_append.mp hm with hm | hm
      · cases (finishRel_events hm).2
      · cases (maybeAck_events hm).1
    · left
      push Not at hend hidle
      exact ⟨hidle, hend.1, by simpa using hend.2⟩

/-! ## What packets do to the books -/

/-- While the stream streams, entries above the segment stay. -/
def KeepsBooks (r r' : XferReceiver) : Prop :=
  r'.relState = .streaming → ∀ s, r'.gaps.contiguous < s → r'.nacks[s]? = r.nacks[s]?

namespace KeepsBooks

variable {r' r'' : XferReceiver}

theorem of_eq (h : r'.nacks = r.nacks) : KeepsBooks r r' := fun _ s _ => by rw [h]

theorem of_finished (h : r'.relState = .finished) : KeepsBooks r r' := by
  intro hs
  rw [h] at hs
  cases hs

theorem trans (h : KeepsBooks r r') (hk : Keeps r' r'') (h' : KeepsBooks r' r'') :
    KeepsBooks r r'' := by
  intro hs s hlt
  rw [h' hs s hlt]
  exact h (hk.gaps_eq hs).1 s (hk.contiguous ▸ hlt)

end KeepsBooks

/-- The release loop erases the entries of what it releases. -/
theorem releaseLoop_nacks (fuel s : Nat) (h : ¬ (r.relReleased < s ∧ s ≤ r.relReleased + fuel)) :
    (releaseLoop fuel r).1.nacks[s]? = r.nacks[s]? := by
  induction fuel generalizing r with
  | zero => rfl
  | succ fuel ih =>
    simp only [releaseLoop]
    split
    · rfl
    · rw [Machine.andThen_fst, ih]
      · have hne : r.relReleased + 1 ≠ s := by omega
        show (r.nacks.erase (r.relReleased + 1))[s]? = _
        rw [ExtTreeMap.getElem?_erase, if_neg (by simpa using hne)]
      · show ¬ (r.relReleased + 1 < s ∧ s ≤ r.relReleased + 1 + fuel)
        omega

theorem releaseContiguous_books : KeepsBooks r (r.releaseContiguous now).1 := by
  intro _ s hlt
  have hseg : r.gaps.contiguous < s := by
    rwa [(releaseContiguous_keeps r now).contiguous] at hlt
  have hnacks : (r.releaseContiguous now).1.nacks
      = (releaseLoop (r.gaps.contiguous - r.relReleased) r).1.nacks := by
    simp only [releaseContiguous]
    split <;> rfl
  rw [hnacks, releaseLoop_nacks]
  omega

theorem finishRel_books (o : RelOutcome) : KeepsBooks r (r.finishRel o).1 :=
  .of_finished (finishRel_finished r o)

theorem checkFinish_books : KeepsBooks r (r.checkFinish now).1 := by
  unfold checkFinish
  split
  · exact .of_eq rfl
  · rename_i f _
    have hrel : KeepsBooks r (r.completeRel f now).1 := by
      unfold completeRel
      split
      · exact releaseContiguous_books.trans (finishRel_keeps _ _) (finishRel_books _)
      · exact .of_eq rfl
    exact hrel.trans (ackEnd_keeps _ f) (.of_eq (by
      rw [Machine.andThen_fst, ackEnd_frame]))

theorem onData_books (frame : Frame) : KeepsBooks r (r.onData frame now).1 := by
  by_cases h : r.relState = .streaming ∧ (r.gaps.record frame.seq).2 = true
  · rw [onData_fresh h.1 h.2, Machine.andThen_fst]
    generalize hr : (r.noteArrival frame).1 = r'
    have hnacks : r'.nacks = r.nacks := by rw [← hr]; rfl
    suffices hstore : KeepsBooks r' (r'.storeFrame frame now).1 by
      intro hs s hlt
      rw [hstore hs s hlt, hnacks]
    unfold storeFrame
    split
    · exact finishRel_books _
    · split
      · exact .of_finished (finishRel_finished (r'.hold frame) _)
      · have hheld : KeepsBooks r' ((r'.hold frame).releaseContiguous now).1 :=
          releaseContiguous_books (r := r'.hold frame)
        exact hheld.trans (checkFinish_keeps _ now) checkFinish_books
  · rw [onData_stale ((not_and_or.mp h).imp_right (by simp))]
    exact .of_eq rfl

theorem noteLost_books (l : XferSeq) : KeepsBooks r (r.noteLost l).1 := by
  simp only [noteLost]
  split
  · split
    · exact .of_finished (finishRel_finished _ _)
    · exact .of_eq rfl
  · exact .of_eq rfl

/-- **A packet** leaves the entries of the numbers still missing alone. -/
theorem handle_books (seq : XferSeq) (body : Body) : KeepsBooks r (r.handle seq body now).1 := by
  have hbody : KeepsBooks r ((r.heard now).onBody seq body now).1 := by
    cases body with
    | data ts payload => exact onData_books (r := r.heard now) _
    | «end» f => exact checkFinish_books (r := (r.heard now).declareEnd f)
    | keepalive l =>
      exact (noteLost_books (r := r.heard now) l).trans (checkFinish_keeps _ now) checkFinish_books
    | ack | nack | endAck => exact .of_eq rfl
  unfold handle
  rw [Machine.andThen_fst, maybeAck_state]
  exact hbody

/-! ## Requests and books -/

section Requests

variable {calls : List RecvCall} {evs : List RecvEvent} {c : RecvCall} {q : XferSeq}

/-- What a round that reaches its end asks for and leaves in the books. -/
theorem RecvInv.round (h : RecvInv calls r evs) (hs : r.relState = .streaming)
    (hgo : (r.nackRound now).exhausted = false) :
    (∀ s ∈ r.considered, (r.nackEntry now s).1 < r.cfg.maxNackAttempts)
      ∧ (r.nackRound now).ask = (r.considered.filter (r.due now)).map XferSeq.ofNat
      ∧ ∀ s, (r.nackRound now).nacks[s]?
        = if s ∈ r.considered then some (r.bookedAt now s) else r.nacks[s]? := by
  have hdone := nackLoop_done_of_ends (h.considered_nodup hs) hgo
  exact ⟨fun s hm => (hdone.room s hm).2, hdone.ask, hdone.books⟩

theorem exists_nack_of_asked {out : List RecvEvent} (hq : q ∈ asked out) :
    ∃ missing, .sendNack missing ∈ out ∧ q ∈ missing := by
  obtain ⟨e, he, hm⟩ := List.mem_flatMap.mp hq
  cases e with
  | sendNack missing => exact ⟨missing, he, hm⟩
  | unreliable | reliable | sendAck | sendEndAck | relFinished | closed => cases hm

/-- A call that asks for something is a tick whose round reaches its end. -/
theorem RecvInv.round_of_nack (h : RecvInv calls r evs) {missing : List XferSeq}
    (hm : .sendNack missing ∈ (r.step c).2) : r.relState = .streaming
      ∧ ∃ now, c = .tick now ∧ (r.nackRound now).exhausted = false
        ∧ (r.step c).1.nacks = (r.nackRound now).nacks
        ∧ asked (r.step c).2 = (r.nackRound now).ask
        ∧ missing = (r.nackRound now).ask ∧ missing ≠ [] := by
  obtain ⟨hs, now, rfl, -⟩ := sendNack_spec hm
  have hopen := (h.live hs).not_closed
  rcases @tick_cases r now hs hopen with ⟨hidle, hstall, hgo⟩ | ⟨-, hnone⟩
  · obtain ⟨-, hnacks, hasked, hall⟩ := tick_round hs hopen hidle hstall hgo
    exact ⟨hs, now, rfl, hgo, hnacks, hasked, hall missing hm⟩
  · exact absurd hm (hnone missing)

/-- The numbers of one request ascend. -/
theorem RecvInv.sorted_asked (h : RecvInv calls r evs) (hs : r.relState = .streaming)
    (now : Instant) : ((r.considered.filter (r.due now)).map XferSeq.ofNat).Pairwise
      fun a b => a.toNat < b.toNat := by
  have hsorted : r.considered.Pairwise (· < ·) := by
    rw [h.considered_eq hs]
    exact ((List.pairwise_lt_range' 1).filter _).sublist (List.take_sublist _ _)
  rw [List.pairwise_map]
  refine (hsorted.filter _).imp_of_mem fun {a b} ha hb hlt => ?_
  have hbound : ∀ {k}, k ∈ r.considered.filter (r.due now) → k < 2 ^ 32 := fun hk =>
    (h.mem_considered hs (List.mem_of_mem_filter hk)).2.1
  rwa [XferSeq.toNat_ofNat (hbound ha), XferSeq.toNat_ofNat (hbound hb)]

/-- **A request**: the number is considered, its budget is not used up and
its backoff is over; the request is booked. -/
theorem RecvInv.of_asked (h : RecvInv calls r evs) (hq : q ∈ asked (r.step c).2) :
    r.relState = .streaming ∧ q.toNat ∈ r.considered ∧ (asked (r.step c).2).count q = 1
      ∧ ∃ now, c = .tick now ∧ (r.nackEntry now q.toNat).1 < r.cfg.maxNackAttempts
        ∧ r.due now q.toNat = true
        ∧ (r.step c).1.nacks[q.toNat]? = some ((r.nackEntry now q.toNat).1 + 1, now) := by
  obtain ⟨missing, hm, -⟩ := exists_nack_of_asked hq
  obtain ⟨hs, now, rfl, hgo, hnacks, hasked, -⟩ := h.round_of_nack hm
  obtain ⟨hbudget, hask, hbooks⟩ := h.round hs hgo
  rw [hasked, hask] at hq ⊢
  have hnodup : ((r.considered.filter (r.due now)).map XferSeq.ofNat).Nodup :=
    (h.sorted_asked hs now).imp fun hlt heq => Nat.ne_of_lt hlt (congrArg XferSeq.toNat heq)
  obtain ⟨s, hs', rfl⟩ := List.mem_map.mp hq
  obtain ⟨hcons, hdue⟩ := List.mem_filter.mp hs'
  rw [XferSeq.toNat_ofNat (h.mem_considered hs hcons).2.1]
  refine ⟨hs, hcons, List.count_eq_one_of_mem hnodup hq, now, rfl, hbudget s hcons, hdue, ?_⟩
  rw [hnacks, hbooks, if_pos hcons, bookedAt, if_pos hdue]

/-- The entry of a number that is missing and not asked for stays, or is
made. -/
theorem RecvInv.of_not_asked (h : RecvInv calls r evs) (hq : q ∉ asked (r.step c).2)
    (h1 : 1 ≤ q.toNat) (hs' : (r.step c).1.relState = .streaming)
    (hnone : firstArrival (calls ++ [c]) q.toNat = none) :
    (r.step c).1.nacks[q.toNat]? = r.nacks[q.toNat]?
      ∨ r.nacks[q.toNat]? = none ∧ ∃ t, (r.step c).1.nacks[q.toNat]? = some (0, t) := by
  have hs := (step_ends r c).streaming_of hs'
  cases c with
  | setBufferedMs ms => exact Or.inl rfl
  | handle seq body now =>
    refine Or.inl (handle_books seq body hs' _ ?_)
    -- an entry inside the segment would be that of a number that has arrived
    by_contra hseg
    have hpost := recvInv_step h (.handle seq body now)
    have hseen := hpost.seen _ (GapTracker.filled_seen _ _ h1 (not_lt.mp hseg))
    rw [hnone] at hseen
    cases hseen
  | tick now =>
    have hopen := (h.live hs).not_closed
    rcases @tick_cases r now hs hopen with ⟨hidle, hstall, hgo⟩ | ⟨hfin, -⟩
    · obtain ⟨-, hask, hbooks⟩ := h.round hs hgo
      obtain ⟨-, hnacks, hasked, -⟩ := tick_round hs hopen hidle hstall hgo
      show (r.tick now).1.nacks[q.toNat]? = _ ∨ _ ∧ ∃ t, (r.tick now).1.nacks[q.toNat]? = _
      rw [hnacks, hbooks]
      by_cases hcons : q.toNat ∈ r.considered
      · have hwait : r.due now q.toNat = false := by
          by_contra hdue
          refine hq ?_
          show q ∈ asked (r.tick now).2
          rw [hasked, hask]
          exact List.mem_map.mpr ⟨q.toNat, List.mem_filter.mpr ⟨hcons, by simpa using hdue⟩,
            XferSeq.ofNat_toNat q⟩
        -- a number looked at for the first time gets its entry, whether or not it is asked for
        rw [if_pos hcons, bookedAt, hwait, if_neg Bool.false_ne_true, nackEntry]
        cases r.nacks[q.toNat]? with
        | some entry => exact Or.inl rfl
        | none => exact Or.inr ⟨rfl, _, rfl⟩
      · rw [if_neg hcons]
        exact Or.inl rfl
    · change (r.tick now).1.relState = .streaming at hs'
      rw [hfin] at hs'
      cases hs'

/-- The times at which a call with these events asks for `q`. -/
def requestsOf (q : XferSeq) (c : RecvCall) (out : List RecvEvent) : List Instant :=
  match c.time with
  | none => []
  | some now => List.replicate ((asked out).count q) now

/-- The times at which calls made from `r` on ask for `q`. -/
def requestsFrom (q : XferSeq) (r : XferReceiver) : List RecvCall → List Instant
  | [] => []
  | c :: calls => requestsOf q c (r.step c).2 ++ requestsFrom q (r.step c).1 calls

/-- The times at which a run asks for `q`. -/
def requests (cfg : ReceiverConfig) (start : Instant) (calls : List RecvCall) (q : XferSeq) :
    List Instant := requestsFrom q (new cfg start) calls

theorem requests_concat (cfg : ReceiverConfig) (start : Instant) (calls : List RecvCall)
    (c : RecvCall) (q : XferSeq) : requests cfg start (calls ++ [c]) q
      = requests cfg start calls q ++ requestsOf q c ((run cfg start calls).1.step c).2 := by
  unfold requests run
  generalize new cfg start = r
  induction calls generalizing r with
  | nil => simp [requestsFrom]
  | cons d calls ih =>
    rw [List.cons_append, requestsFrom, ih, requestsFrom, List.append_assoc, Machine.run_cons,
      Machine.andThen_fst]

/-- Between the requests numbered `k` and `k + 1` lies the backoff for `k`
requests. -/
def Spaced (cfg : ReceiverConfig) (ts : List Instant) : Prop :=
  ∀ k t t', 1 ≤ k → ts[k - 1]? = some t → ts[k]? = some t' → cfg.nackDelay k ≤ durationSince t' t

theorem Spaced.concat {cfg : ReceiverConfig} {ts : List Instant} (h : Spaced cfg ts)
    (hlast : ∀ t, ts.getLast? = some t → cfg.nackDelay ts.length ≤ durationSince now t) :
    Spaced cfg (ts ++ [now]) := by
  intro k t t' h1 hk hk'
  have hlen := (List.getElem?_eq_some_iff.mp hk').1
  rw [List.length_append, List.length_singleton] at hlen
  rw [List.getElem?_append_left (by omega)] at hk
  rcases Nat.lt_or_ge k ts.length with hlt | hge
  · rw [List.getElem?_append_left hlt] at hk'
    exact h k t t' h1 hk hk'
  · have hkl : k = ts.length := by omega
    rw [hkl, List.getElem?_concat_length] at hk'
    cases hk'
    rw [hkl]
    exact hlast t (by rw [List.getLast?_eq_getElem?, ← hkl, hk])

/-- The requests for every number are within the budget and spaced, and
the books record them while the number is missing. -/
structure Booked (calls : List RecvCall) (r : XferReceiver) (log : XferSeq → List Instant) :
    Prop where
  budget : ∀ q, (log q).length ≤ r.cfg.maxNackAttempts
  spaced : ∀ q, Spaced r.cfg (log q)
  entry : r.relState = .streaming → ∀ q : XferSeq, 1 ≤ q.toNat →
    firstArrival calls q.toNat = none → ∀ now, (log q).length = (r.nackEntry now q.toNat).1
      ∧ ∀ t, (log q).getLast? = some t → (r.nackEntry now q.toNat).2 = t

theorem nackEntry_of_some {s : Nat} {e : Nat × Instant} (h : r.nacks[s]? = some e)
    (now : Instant) : r.nackEntry now s = e := by
  rw [nackEntry, h]
  rfl

/-- **One call** keeps the requests within the budget, spaced and booked. -/
theorem booked_step {log : XferSeq → List Instant} (hinv : RecvInv calls r evs)
    (h : Booked calls r log) (c : RecvCall) : Booked (calls ++ [c]) (r.step c).1
      fun q => log q ++ requestsOf q c (r.step c).2 := by
  have hone : ∀ q, q ∈ asked (r.step c).2 → ∃ now, c = .tick now
      ∧ requestsOf q c (r.step c).2 = [now] ∧ (log q).length < r.cfg.maxNackAttempts
      ∧ (∀ t, (log q).getLast? = some t → r.cfg.nackDelay (log q).length ≤ durationSince now t)
      ∧ (r.step c).1.nacks[q.toNat]? = some ((log q).length + 1, now) := by
    intro q hq
    obtain ⟨hs, hcons, hcount, now, rfl, hbudget, hdue, hbook⟩ := hinv.of_asked hq
    obtain ⟨h1, -, hnone, -⟩ := hinv.mem_considered hs hcons
    obtain ⟨hlen, hlast⟩ := h.entry hs q h1 hnone now
    refine ⟨now, rfl, ?_, hlen ▸ hbudget, fun t ht => ?_, hlen ▸ hbook⟩
    · simp only [requestsOf, RecvCall.time, hcount, List.replicate_one]
    · have hover : r.cfg.nackDelay (r.nackEntry now q.toNat).1
          ≤ durationSince now (r.nackEntry now q.toNat).2 := of_decide_eq_true hdue
      rwa [← hlen, hlast t ht] at hover
  have hzero : ∀ q, q ∉ asked (r.step c).2 → requestsOf q c (r.step c).2 = [] := by
    intro q hq
    unfold requestsOf
    split
    · rfl
    · rw [List.count_eq_zero.mpr hq, List.replicate_zero]
  refine ⟨fun q => ?_, fun q => ?_, fun hs' q h1 hnone now => ?_⟩ <;>
    by_cases hq : q ∈ asked (r.step c).2
  · obtain ⟨now, -, hreq, hbudget, -⟩ := hone q hq
    rw [hreq, step_cfg, List.length_append, List.length_singleton]
    exact hbudget
  · rw [hzero q hq, List.append_nil, step_cfg]
    exact h.budget q
  · obtain ⟨now, -, hreq, -, hlast, -⟩ := hone q hq
    rw [hreq, step_cfg]
    exact (h.spaced q).concat hlast
  · rw [hzero q hq, List.append_nil, step_cfg]
    exact h.spaced q
  · obtain ⟨clock, -, hreq, -, -, hbook⟩ := hone q hq
    rw [hreq, nackEntry_of_some hbook, List.length_append, List.length_singleton,
      List.getLast?_concat]
    exact ⟨rfl, fun t ht => by cases ht; rfl⟩
  · rw [hzero q hq, List.append_nil]
    have hs := (step_ends r c).streaming_of hs'
    have hbefore : firstArrival calls q.toNat = none := by
      cases hf : firstArrival calls q.toNat with
      | none => rfl
      | some frame =>
        rw [firstArrival_concat, after_of_isSome (by rw [hf]; rfl), hf] at hnone
        cases hnone
    obtain ⟨hlen, hlast⟩ := h.entry hs q h1 hbefore now
    rcases hinv.of_not_asked hq h1 hs' hnone with hsame | ⟨hno, t, hmade⟩
    · have heq : (r.step c).1.nackEntry now q.toNat = r.nackEntry now q.toNat := by
        rw [nackEntry, hsame]
        rfl
      rw [heq]
      exact ⟨hlen, hlast⟩
    · -- a number without an entry was never asked for
      have hnil : log q = [] := by
        refine List.eq_nil_of_length_eq_zero (hlen.trans ?_)
        rw [nackEntry, hno]
        rfl
      rw [nackEntry_of_some hmade, hnil]
      exact ⟨rfl, fun t ht => by cases ht⟩

end Requests

theorem booked_run (cfg : ReceiverConfig) (start : Instant) (calls : List RecvCall) :
    Booked calls (run cfg start calls).1 (requests cfg start calls) := by
  induction calls using List.reverseRecOn with
  | nil =>
    refine ⟨fun q => Nat.zero_le _, fun q k t t' _ hk => ?_,
      fun _ q _ _ now => ⟨?_, fun t ht => ?_⟩⟩
    · simp [requests, requestsFrom] at hk
    · simp [requests, requestsFrom, nackEntry, run, new, freshNack]
    · simp [requests, requestsFrom] at ht
  | append_singleton calls c ih =>
    have hstep := booked_step (recvInv_run cfg start calls) ih c
    have hlog : requests cfg start (calls ++ [c])
        = fun q => requests cfg start calls q
          ++ requestsOf q c ((run cfg start calls).1.step c).2 :=
      funext (requests_concat cfg start calls c)
    rw [hlog, run_concat]
    exact hstep

/-- **NACK budget and rate.** In every run each `Nack` asks for between one
and `MAX_NACK_ENTRIES` numbers, in ascending order, none of which has
arrived; every number is asked for at most `max_nack_attempts` times; and
its requests are spaced by the configured backoff. -/
theorem nack_budget_and_rate (cfg : ReceiverConfig) (start : Instant) (calls : List RecvCall) :
    (∀ before c after missing, calls = before ++ c :: after →
      .sendNack missing ∈ ((run cfg start before).1.step c).2 →
      1 ≤ missing.length ∧ missing.length ≤ maxNackEntries
        ∧ missing.Pairwise (fun a b => a.toNat < b.toNat)
        ∧ ∀ q ∈ missing, 1 ≤ q.toNat ∧ firstArrival before q.toNat = none)
      ∧ (∀ q, (requests cfg start calls q).length ≤ cfg.maxNackAttempts)
      ∧ ∀ q k t t', 1 ≤ k → (requests cfg start calls q)[k - 1]? = some t →
        (requests cfg start calls q)[k]? = some t' → cfg.nackDelay k ≤ durationSince t' t := by
  have hbooked := booked_run cfg start calls
  refine ⟨fun before c _ missing _ hm => ?_, fun q => ?_, fun q => ?_⟩
  · have hinv := recvInv_run cfg start before
    obtain ⟨hs, now, rfl, hgo, -, -, hask, hne⟩ := hinv.round_of_nack hm
    rw [(hinv.round hs hgo).2.1] at hask
    refine ⟨List.length_pos_iff.mpr hne, sendNack_of_mem_step hinv.wf hm, ?_, fun q hq => ?_⟩
    · rw [hask]
      exact hinv.sorted_asked hs now
    · rw [hask] at hq
      obtain ⟨s, hs', rfl⟩ := List.mem_map.mp hq
      obtain ⟨h1, hbound, hnone, -⟩ := hinv.mem_considered hs (List.mem_of_mem_filter hs')
      rw [XferSeq.toNat_ofNat hbound]
      exact ⟨h1, hnone⟩
  · have h := hbooked.budget q
    rwa [run_cfg] at h
  · have h := hbooked.spaced q
    rwa [run_cfg] at h

/-! ## Giving a gap up -/

/-- At `now` some number still missing has been asked for as often as
allowed, and the backoff of its last request is over. -/
def Unanswered (cfg : ReceiverConfig) (start : Instant) (calls : List RecvCall) (now : Instant) :
    Prop :=
  ∃ q : XferSeq, 1 ≤ q.toNat ∧ firstArrival calls q.toNat = none
    ∧ (requests cfg start calls q).length = cfg.maxNackAttempts
    ∧ ∃ last, (requests cfg start calls q).getLast? = some last
      ∧ cfg.nackDelay (cfg.maxNackAttempts - 1) ≤ durationSince now last

/-- The stream is given up for a gap only when a gap is unanswered. -/
def GivesTime (cfg : ReceiverConfig) (start : Instant) (calls : List RecvCall) : Prop :=
  ∀ before c after now, calls = before ++ c :: after → c.time = some now →
    .relFinished (.aborted .unrecoverableGap) ∈ ((run cfg start before).1.step c).2 →
    Unanswered cfg start before now

/-- A tick at `now` meets a hole whose requests are used up, and no timeout
comes first. -/
structure Spent (r : XferReceiver) (now : Instant) : Prop where
  streaming : r.relState = .streaming
  notIdle : durationSince now r.lastPacketAt ≤ r.cfg.idleTimeout
  notStalled : durationSince now r.lastRelProgressAt ≤ r.cfg.relStallTimeout
  spent : ∃ s ∈ r.considered, r.cfg.maxNackAttempts ≤ (r.nackEntry now s).1

/-- The books show a missing number whose requests are used up and whose
last request is a backoff ago. -/
def WaitedOut (r : XferReceiver) (now : Instant) : Prop :=
  ∃ e ∈ r.nacks.toList, e.1 ∉ r.gaps.seen ∧ r.cfg.maxNackAttempts ≤ e.2.1
    ∧ r.cfg.nackDelay (r.cfg.maxNackAttempts - 1) ≤ durationSince now e.2.2

instance (r : XferReceiver) (now : Instant) : Decidable (r.WaitedOut now) :=
  inferInstanceAs (Decidable (∃ e ∈ r.nacks.toList, _))

/-- **Giving up for a gap**: on a tick that meets a hole without budget. -/
theorem gap_mem_step_iff {calls : List RecvCall} {evs : List RecvEvent} {c : RecvCall}
    (h : RecvInv calls r evs) : .relFinished (.aborted .unrecoverableGap) ∈ (r.step c).2
      ↔ ∃ now, c = .tick now ∧ r.Spent now := by
  constructor
  · intro hm
    cases c with
    | setBufferedMs ms => cases hm
    | handle seq body now =>
      rcases Machine.mem_andThen.mp hm with hm | hm
      · rcases onBody_events hm with ⟨_, _, _, he⟩ | ⟨_, _, _, he⟩ | ⟨_, _, he, _⟩ | ⟨_, he⟩
          | ⟨_, he⟩ | he | he <;> cases he
      · cases (maybeAck_events hm).1
    | tick now =>
      obtain ⟨-, ⟨-, hm⟩ | ⟨hidle, hm | hm⟩⟩ := tick_events hm
      · rcases closeIdle_events hm with ⟨he, -⟩ | he <;> cases he
      · have hs := (tickRel_events hm).1
        rw [tickRel, if_pos hs] at hm
        split at hm
        · cases (finishRel_events hm).2
        · rename_i hstall
          rw [emitNacks_eq] at hm
          split at hm
          · -- the only way left is the round that stops at a spent gap
            rename_i hspent
            exact ⟨now, rfl, hs, hidle, not_lt.mp hstall,
              (exhausted_iff (h.considered_nodup hs) (h.lost_lt hs)).mp hspent⟩
          · split at hm
            · cases hm
            · cases List.mem_singleton.mp hm
      · cases (maybeAck_events hm).1
  · rintro ⟨now, rfl, hsp⟩
    have hopen := (h.live hsp.streaming).not_closed
    have hspent := (exhausted_iff (h.considered_nodup hsp.streaming) (h.lost_lt hsp.streaming)).mpr
      hsp.spent
    show _ ∈ (r.tick now).2
    rw [tick_of_awake hopen hsp.notIdle]
    refine Machine.mem_andThen.mpr (Or.inl ?_)
    rw [tickRel, if_pos hsp.streaming, if_neg (not_lt.mpr hsp.notStalled), emitNacks_eq,
      if_pos hspent]
    simp [finishRel, hsp.streaming]

/-- The books tell whether a gap is unanswered. -/
theorem unanswered_iff {cfg : ReceiverConfig} (hmax : 1 ≤ cfg.maxNackAttempts) (start : Instant)
    (calls : List RecvCall) (hs : (run cfg start calls).1.relState = .streaming) :
    Unanswered cfg start calls now ↔ (run cfg start calls).1.WaitedOut now := by
  have hinv := recvInv_run cfg start calls
  have hbooked := booked_run cfg start calls
  have hfits := (frugal_run cfg start calls).fits hs
  have hcfg := run_cfg cfg start calls
  generalize (run cfg start calls).1 = r at hs hinv hbooked hfits hcfg
  have hlive := hinv.live hs
  unfold WaitedOut
  rw [hcfg]
  constructor
  · rintro ⟨q, h1, hnone, hlen, last, hlast, hle⟩
    obtain ⟨hcount, htime⟩ := hbooked.entry hs q h1 hnone now
    cases hentry : r.nacks[q.toNat]? with
    | none =>
      -- a number without an entry has never been asked for
      rw [nackEntry, hentry, hlen] at hcount
      exact absurd hcount (by simp [freshNack]; omega)
    | some e =>
      have hbook := nackEntry_of_some hentry now
      rw [hbook] at hcount htime
      refine ⟨(q.toNat, e), ExtTreeMap.mem_toList_iff_getElem?_eq_some.mpr hentry, ?_, ?_, ?_⟩
      · rw [hlive.mem_seen, hnone]
        simp
      · exact (hlen.symm.trans hcount).le
      · rw [htime last hlast]
        exact hle
  · rintro ⟨⟨s, e⟩, hmem, hseen, hspent, hle⟩
    dsimp only at hseen hspent hle
    have hentry := ExtTreeMap.mem_toList_iff_getElem?_eq_some.mp hmem
    have hkey : s ∈ r.nacks := ExtTreeMap.mem_iff_isSome_getElem?.mpr (by rw [hentry]; rfl)
    -- the books hold numbers of the range only, so the key is a sequence number
    obtain ⟨hlow, hhigh⟩ := hfits.nacks s hkey
    have hnat := XferSeq.toNat_ofNat (hhigh.trans_lt hinv.wf.bound)
    have hnone : firstArrival calls s = none := by
      rw [hlive.mem_seen] at hseen
      simpa using hseen
    obtain ⟨hcount, htime⟩ := hbooked.entry hs (XferSeq.ofNat s) (by omega)
      (by rw [hnat]; exact hnone) now
    rw [hnat, nackEntry_of_some hentry] at hcount htime
    have hbudget := hbooked.budget (XferSeq.ofNat s)
    rw [hcfg] at hbudget
    cases hlast : (requests cfg start calls (XferSeq.ofNat s)).getLast? with
    | none =>
      rw [List.getLast?_eq_none_iff.mp hlast, List.length_nil] at hcount
      omega
    | some last =>
      refine ⟨XferSeq.ofNat s, by omega, by rw [hnat]; exact hnone, by omega, last, hlast, ?_⟩
      rw [← htime last hlast]
      exact hle

/-- **A gap is not given up too early, exactly.** In a run the stream is
given up for a gap only when some gap is unanswered, if and only if every
tick that meets a hole whose requests are used up comes a backoff after
the last request for such a hole. -/
theorem gives_time_iff (cfg : ReceiverConfig) (hmax : 1 ≤ cfg.maxNackAttempts) (start : Instant)
    (calls : List RecvCall) : GivesTime cfg start calls
      ↔ ∀ before now after, calls = before ++ .tick now :: after →
        (run cfg start before).1.Spent now → (run cfg start before).1.WaitedOut now := by
  constructor
  · intro h before now after heq hsp
    have hgap := (gap_mem_step_iff (recvInv_run cfg start before)).mpr ⟨now, rfl, hsp⟩
    exact (unanswered_iff hmax start before hsp.streaming).mp (h before _ after now heq rfl hgap)
  · intro h before c after now heq htime hgap
    obtain ⟨now', rfl, hsp⟩ := (gap_mem_step_iff (recvInv_run cfg start before)).mp hgap
    cases htime
    exact (unanswered_iff hmax start before hsp.streaming).mpr (h before _ after heq hsp)

/-- Frame 2 is lost. It is asked for three times, and the last answer gets
twenty milliseconds. -/
def hastyCalls : List RecvCall :=
  [.handle (.ofNat 1) (.data ⟨0⟩ [7]) 0, .handle (.ofNat 3) (.data ⟨40⟩ [7]) 0,
    .tick (fromMillis 20), .tick (fromMillis 120), .tick (fromMillis 420)]

theorem hasty_tick_gives_up :
    ¬ GivesTime .audioEngine 0 (hastyCalls ++ [.tick (fromMillis 440)]) := by
  intro h
  have hun := h hastyCalls (.tick (fromMillis 440)) [] _ rfl rfl (by decide +kernel)
  rw [unanswered_iff (by decide) 0 hastyCalls (by decide +kernel)] at hun
  exact absurd hun (by decide +kernel)

/-- With the next tick after 300 ms the last request is given its time. -/
theorem gives_time_iff_patient :
    GivesTime .audioEngine 0 (hastyCalls ++ [.tick (fromMillis 720)]) := by
  refine (gives_time_iff .audioEngine (by decide) 0 _).mpr fun before now after heq hsp => ?_
  rcases before with _ | ⟨_, _ | ⟨_, _ | ⟨_, _ | ⟨_, _ | ⟨_, _ | ⟨_, _⟩⟩⟩⟩⟩⟩
  · cases heq
  · cases heq
  · cases heq
    exact absurd hsp.spent (by decide +kernel)
  · cases heq
    exact absurd hsp.spent (by decide +kernel)
  · cases heq
    exact absurd hsp.spent (by decide +kernel)
  · cases heq
    decide +kernel
  · simp [hastyCalls] at heq

end XferReceiver

end Protofish4
