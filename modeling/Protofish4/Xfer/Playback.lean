import Protofish4.Xfer.ReceiverRun
import Protofish4.Xfer.ReceiverEvents

/-!
# Playback

In dual mode a frame is played when the tracker sees it for the first time.
The tracker forgets the arrivals above the contiguous segment when the
reliable stream ends, so a later copy of one of them is played again; that
is the only way a frame is played twice.
-/

namespace Protofish4

namespace XferReceiver

/-- The frames handed to playback, in order. -/
def played (out : List RecvEvent) : List Frame :=
  out.filterMap fun
    | .unreliable frame => some frame
    | _ => none

@[simp] theorem played_append (a b : List RecvEvent) :
    played (a ++ b) = played a ++ played b :=
  List.filterMap_append

theorem played_eq_nil {out : List RecvEvent} (h : ∀ frame, .unreliable frame ∉ out) :
    played out = [] := by
  apply List.filterMap_eq_nil_iff.mpr
  intro e he
  cases e with
  | unreliable frame => exact absurd he (h frame)
  | _ => rfl

theorem played_onData {r : XferReceiver} (hdual : r.cfg.mode = .dual) (frame : Frame)
    (now : Instant) :
    played (r.onData frame now).2 = [frame].filter fun frame => (r.gaps.record frame.seq).2 := by
  have hnote : played (r.noteArrival frame).2
      = [frame].filter fun frame => (r.gaps.record frame.seq).2 := by
    simp only [noteArrival, hdual, RecvMode.wantsUnrel, Bool.and_true]
    cases hf : (r.gaps.record frame.seq).2 <;> simp [played, hf]
  have hstore : ∀ r' : XferReceiver, played (r'.storeFrame frame now).2 = [] := by
    intro r'
    apply played_eq_nil
    intro f h
    rcases storeFrame_events h with h | ⟨_, h⟩ | ⟨_, -, h⟩ | h | h <;> cases h
  by_cases h : r.relState = .streaming ∧ (r.gaps.record frame.seq).2 = true
  · rw [onData_fresh h.1 h.2, Machine.andThen_snd, played_append, hstore, List.append_nil]
    exact hnote
  · rw [onData_stale ((not_and_or.mp h).imp_right (by simp))]
    exact hnote

/-- What one call plays: the frame it delivers, if the tracker has not seen
it. -/
theorem played_step {r : XferReceiver} (hdual : r.cfg.mode = .dual) (c : RecvCall) :
    played (r.step c).2
      = (arrival c).toList.filter fun frame => (r.gaps.record frame.seq).2 := by
  have hack : ∀ (r' : XferReceiver) (now : Instant), played (r'.maybeAck now).2 = [] :=
    fun r' now => played_eq_nil fun frame h => by cases (maybeAck_events h).1
  cases c with
  | setBufferedMs ms => rfl
  | tick now =>
    show played (r.tick now).2 = []
    exact played_eq_nil fun frame => (tick_no_frame r now frame).1
  | handle seq body now =>
    show played (r.handle seq body now).2 = _
    unfold handle
    rw [Machine.andThen_snd, played_append, hack, List.append_nil]
    cases body with
    | data ts payload => exact played_onData (r := r.heard now) hdual ⟨seq, ts, payload⟩ now
    | «end» | keepalive | ack | nack | endAck =>
      apply played_eq_nil
      intro frame h
      rcases onBody_events h with ⟨_, _, hb, -⟩ | ⟨_, _, _, he⟩ | ⟨_, _, he, _⟩ | ⟨_, he⟩ | ⟨_, he⟩
        | he | he <;> first | cases hb | cases he

/-! ## What the tracker has forgotten -/

/-- The call delivers a frame under this number. -/
def Carries (c : RecvCall) (s : Nat) : Prop := ∃ frame, arrival c = some frame ∧ frame.seq.toNat = s

/-- After `before`, the call `c` ends the reliable stream, and number `s`
has arrived by then above the contiguous segment. -/
structure Drops (cfg : ReceiverConfig) (start : Instant) (before : List RecvCall) (c : RecvCall)
    (s : Nat) : Prop where
  streaming : (run cfg start before).1.relState = .streaming
  finished : (run cfg start (before ++ [c])).1.relState = .finished
  arrived : (firstArrival (before ++ [c]) s).isSome
  above : (run cfg start (before ++ [c])).1.gaps.contiguous < s

/-- The number was dropped and has not been delivered since. -/
def Forgotten (cfg : ReceiverConfig) (start : Instant) (calls : List RecvCall) (s : Nat) : Prop :=
  ∃ before c rest, calls = before ++ c :: rest ∧ Drops cfg start before c s
    ∧ ∀ d ∈ rest, ¬ Carries d s

theorem carries_iff {c : RecvCall} {frame : Frame} (ha : arrival c = some frame) {s : Nat}
    (h0 : s ≠ 0) : Carries c s ↔ s = frame.seq.toNat ∧ s ≠ 0 := by
  simp [Carries, ha, h0, eq_comm]

theorem isSome_after {hist : Nat → Option Frame} {c : RecvCall} {s : Nat} (h0 : s ≠ 0) :
    (after hist c s).isSome ↔ (hist s).isSome ∨ Carries c s := by
  unfold after
  cases ha : arrival c with
  | none => simp [Carries, ha]
  | some frame => rw [isSome_extend, carries_iff ha h0]

theorem mem_seen_noted {g : GapTracker} (h : g.WF) (c : RecvCall) {s : Nat} (h0 : s ≠ 0) :
    s ∈ (noted g c).seen ↔ s ∈ g.seen ∨ Carries c s := by
  unfold noted
  cases ha : arrival c with
  | none => simp [Carries, ha]
  | some frame => rw [GapTracker.mem_seen_record h, carries_iff ha h0]

theorem finished_append (cfg : ReceiverConfig) (start : Instant) (calls more : List RecvCall)
    (h : (run cfg start calls).1.relState = .finished) :
    (run cfg start (calls ++ more)).1.relState = .finished := by
  induction more using List.reverseRecOn with
  | nil => rwa [List.append_nil]
  | append_singleton more c ih =>
    rw [← List.append_assoc, run_concat, Machine.andThen_fst]
    have hends := step_ends (run cfg start (calls ++ more)).1 c
    rw [ih] at hends
    generalize ((run cfg start (calls ++ more)).1.step c).1.relState = s' at hends ⊢
    cases hends with
    | quiet _ => rfl

theorem Forgotten.finished {cfg : ReceiverConfig} {start : Instant} {calls : List RecvCall}
    {s : Nat} (h : Forgotten cfg start calls s) :
    (run cfg start calls).1.relState = .finished := by
  obtain ⟨before, c, rest, rfl, hd, -⟩ := h
  rw [← List.singleton_append, ← List.append_assoc]
  exact finished_append cfg start _ _ hd.finished

/-- A call on a finished stream keeps what was dropped, but for the number
it delivers. -/
theorem forgotten_concat {cfg : ReceiverConfig} {start : Instant} {calls : List RecvCall}
    {c : RecvCall} {s : Nat} (hfin : (run cfg start calls).1.relState = .finished) :
    Forgotten cfg start (calls ++ [c]) s ↔ Forgotten cfg start calls s ∧ ¬ Carries c s := by
  constructor
  · rintro ⟨before, d, rest, heq, hd, hnone⟩
    rcases List.eq_nil_or_concat rest with rfl | ⟨rest', e, rfl⟩
    · -- the call itself would have to end the stream
      obtain ⟨rfl, -⟩ := List.append_inj' heq rfl
      rw [hd.streaming] at hfin
      cases hfin
    · rw [List.concat_eq_append, ← List.cons_append, ← List.append_assoc] at heq
      obtain ⟨rfl, he⟩ := List.append_inj' heq rfl
      cases he
      exact ⟨⟨before, d, rest', rfl, hd, fun x hx => hnone x (by simp [hx])⟩, hnone c (by simp)⟩
  · rintro ⟨⟨before, d, rest, rfl, hd, hnone⟩, hc⟩
    refine ⟨before, d, rest ++ [c], by simp, hd, fun x hx => ?_⟩
    rcases List.mem_append.mp hx with hx | hx
    · exact hnone x hx
    · cases List.mem_singleton.mp hx
      exact hc

/-- **The tracker's memory**: it has seen what has arrived, except what it
was made to forget. -/
theorem mem_seen_run (cfg : ReceiverConfig) (start : Instant) (calls : List RecvCall) {s : Nat}
    (h0 : s ≠ 0) : s ∈ (run cfg start calls).1.gaps.seen
      ↔ (firstArrival calls s).isSome ∧ ¬ Forgotten cfg start calls s := by
  induction calls using List.reverseRecOn with
  | nil =>
    have hnew : (run cfg start []).1.gaps.seen = ∅ := GapTracker.seen_new
    simp [hnew]
  | append_singleton calls c ih =>
    have hinv := recvInv_run cfg start calls
    have hrun : (run cfg start (calls ++ [c])).1 = ((run cfg start calls).1.step c).1 := by
      rw [run_concat]
      rfl
    rw [firstArrival_concat, isSome_after h0]
    cases hs : (run cfg start calls).1.relState with
    | finished =>
      have hfin := finished_append cfg start calls [c] hs
      have hgaps : (run cfg start (calls ++ [c])).1.gaps
          = noted (run cfg start calls).1.gaps c := by
        rw [hrun]
        rcases step_gaps (run cfg start calls).1 c with ⟨-, hg⟩ | ⟨hstr, -, -⟩
        · exact hg
        · rw [hs] at hstr
          cases hstr
      rw [hgaps, mem_seen_noted hinv.wf c h0, ih, forgotten_concat hs]
      tauto
    | streaming =>
      have hlive := hinv.live hs
      have hnoted : s ∈ (noted (run cfg start calls).1.gaps c).seen
          ↔ (firstArrival calls s).isSome ∨ Carries c s := by
        rw [mem_seen_noted hinv.wf c h0, hlive.mem_seen]
      rcases step_gaps (run cfg start calls).1 c with ⟨hst, hg⟩ | ⟨-, hfin, hg⟩
      · -- still streaming: nothing was ever dropped
        have hnot : ¬ Forgotten cfg start (calls ++ [c]) s := by
          intro hf
          have := hf.finished
          rw [hrun, hst, hs] at this
          cases this
        rw [hrun, hg, hnoted]
        tauto
      · -- this call ends the stream, and drops what lies above the segment
        have hforg : Forgotten cfg start (calls ++ [c]) s
            ↔ ((firstArrival calls s).isSome ∨ Carries c s)
              ∧ (noted (run cfg start calls).1.gaps c).contiguous < s := by
          have hcont : (run cfg start (calls ++ [c])).1.gaps.contiguous
              = (noted (run cfg start calls).1.gaps c).contiguous := by
            rw [hrun, hg]
            rfl
          constructor
          · rintro ⟨before, d, rest, heq, hd, -⟩
            rcases List.eq_nil_or_concat rest with rfl | ⟨rest', e, rfl⟩
            · obtain ⟨rfl, hce⟩ := List.append_inj' heq rfl
              cases hce
              have harr := hd.arrived
              rw [firstArrival_concat, isSome_after h0] at harr
              exact ⟨harr, hcont ▸ hd.above⟩
            · rw [List.concat_eq_append, ← List.cons_append, ← List.append_assoc] at heq
              obtain ⟨rfl, -⟩ := List.append_inj' heq rfl
              have := finished_append cfg start (before ++ [d]) rest' hd.finished
              rw [List.append_assoc, List.singleton_append, hs] at this
              cases this
          · rintro ⟨harr, hlt⟩
            refine ⟨calls, c, [], rfl, ⟨hs, hrun ▸ hfin, ?_, hcont ▸ hlt⟩, fun d hd => by cases hd⟩
            rw [firstArrival_concat, isSome_after h0]
            exact harr
        rw [hrun, hg, GapTracker.mem_seen_abandon, hnoted, hforg]
        constructor
        · rintro ⟨harr, hle⟩
          exact ⟨harr, fun h => absurd h.2 (not_lt.mpr hle)⟩
        · rintro ⟨harr, hnot⟩
          exact ⟨harr, not_lt.mp fun hlt => hnot ⟨harr, hlt⟩⟩

/-! ## Playing each frame once -/

/-- Every number is played at most once, with the first frame delivered
under it and in the call that delivers it; and whenever one was delivered. -/
structure PlayedOnce (cfg : ReceiverConfig) (start : Instant) (calls : List RecvCall) : Prop where
  once : ∀ s, 1 ≤ s → (played (run cfg start calls).2).filter (fun frame => frame.seq.toNat = s)
    = (firstArrival calls s).toList
  first : ∀ before c rest, calls = before ++ c :: rest →
    ∀ frame ∈ played ((run cfg start before).1.step c).2,
      firstArrival before frame.seq.toNat = none

/-- No frame dropped at the end of the reliable stream is delivered again. -/
def NoLateCopy (cfg : ReceiverConfig) (start : Instant) (calls : List RecvCall) : Prop :=
  ∀ before c between d rest s, calls = before ++ c :: (between ++ d :: rest) →
    Drops cfg start before c s → ¬ Carries d s

theorem isSome_firstArrival_append {calls : List RecvCall} {s : Nat}
    (h : (firstArrival calls s).isSome) (more : List RecvCall) :
    (firstArrival (calls ++ more) s).isSome := by
  rw [isSome_firstArrival] at h ⊢
  obtain ⟨h0, frame, hf, hs⟩ := h
  refine ⟨h0, frame, ?_, hs⟩
  rw [arrivals, List.filterMap_append]
  exact List.mem_append_left _ hf

theorem NoLateCopy.of_append {cfg : ReceiverConfig} {start : Instant}
    {calls more : List RecvCall} (h : NoLateCopy cfg start (calls ++ more)) :
    NoLateCopy cfg start calls := by
  intro before c between d rest s heq
  exact h before c between d (rest ++ more) s (by simp [heq])

/-- Without late copies, a delivered number is new to the tracker exactly
when it is new to the history. -/
theorem NoLateCopy.flag_iff {cfg : ReceiverConfig} {start : Instant} {before : List RecvCall}
    {c : RecvCall} {frame : Frame} (h : NoLateCopy cfg start (before ++ [c]))
    (hc : arrival c = some frame) :
    ((run cfg start before).1.gaps.record frame.seq).2 = true
      ↔ frame.seq.toNat ≠ 0 ∧ firstArrival before frame.seq.toNat = none := by
  rw [GapTracker.record_flag_iff (recvInv_run cfg start before).wf]
  refine and_congr_right fun h0 => ?_
  have hnot : ¬ Forgotten cfg start before frame.seq.toNat := by
    rintro ⟨b, d, rest, rfl, hd, -⟩
    exact h b d rest c [] _ (by simp) hd ⟨frame, hc, rfl⟩
  rw [mem_seen_run cfg start before h0]
  simp [hnot]

theorem NoLateCopy.once {cfg : ReceiverConfig} (hdual : cfg.mode = .dual) {start : Instant}
    {calls : List RecvCall} (h : NoLateCopy cfg start calls) {s : Nat} (h1 : 1 ≤ s) :
    (played (run cfg start calls).2).filter (fun frame => frame.seq.toNat = s)
      = (firstArrival calls s).toList := by
  induction calls using List.reverseRecOn with
  | nil => simp [run, played]
  | append_singleton calls c ih =>
    have hmode : (run cfg start calls).1.cfg.mode = .dual := by rw [run_cfg, hdual]
    rw [run_concat, Machine.andThen_snd, played_append, List.filter_append, ih h.of_append,
      played_step hmode, firstArrival_concat]
    unfold after
    cases hc : arrival c with
    | none => simp
    | some frame =>
      have hflag := h.flag_iff hc
      by_cases hs : frame.seq.toNat = s
      · have h0 : frame.seq.toNat ≠ 0 := by omega
        by_cases hnone : firstArrival calls s = none
        · have htrue := hflag.mpr ⟨h0, hs ▸ hnone⟩
          have hs0 : s ≠ 0 := by omega
          simp [htrue, hs, extend, hnone, hs0]
        · have hfalse : ((run cfg start calls).1.gaps.record frame.seq).2 = false := by
            rw [← Bool.not_eq_true, hflag, hs]
            exact fun h => hnone h.2
          simp [hfalse, extend, hnone]
      · have : extend (firstArrival calls) frame s = firstArrival calls s := by
          simp [extend, hs]
        simp only [Option.toList_some, this, List.filter_filter]
        rw [List.filter_eq_nil_iff.mpr, List.append_nil]
        intro f hf
        cases List.mem_singleton.mp hf
        simp [hs]

/-- **Each frame is played once, exactly** when no frame that had arrived
above the contiguous segment by the end of the reliable stream is delivered
again after it. -/
theorem played_once_iff (cfg : ReceiverConfig) (hdual : cfg.mode = .dual) (start : Instant)
    (calls : List RecvCall) :
    PlayedOnce cfg start calls ↔ NoLateCopy cfg start calls := by
  classical
  have hmode : ∀ before, (run cfg start before).1.cfg.mode = .dual := by
    intro before
    rw [run_cfg, hdual]
  constructor
  · intro h before c between d rest s heq hd hcar
    -- the first copy after the drop is played again
    have hsome : ((between ++ d :: rest).find? fun x => Carries x s).isSome := by
      rw [List.find?_isSome]
      exact ⟨d, by simp, by simpa using hcar⟩
    obtain ⟨x, hx⟩ := Option.isSome_iff_exists.mp hsome
    obtain ⟨hxs, l₁, l₂, hl, hnone⟩ := List.find?_eq_some_iff_append.mp hx
    simp only [decide_eq_true_eq, Bool.not_eq_true', decide_eq_false_iff_not] at hxs hnone
    obtain ⟨frame, hf, hseq⟩ := hxs
    have h0 : s ≠ 0 := by
      have := hd.above
      omega
    have hforg : Forgotten cfg start (before ++ c :: l₁) s := ⟨before, c, l₁, rfl, hd, hnone⟩
    have harr : (firstArrival (before ++ c :: l₁) s).isSome := by
      have := isSome_firstArrival_append hd.arrived l₁
      rwa [List.append_assoc, List.singleton_append] at this
    have hflag : ((run cfg start (before ++ c :: l₁)).1.gaps.record frame.seq).2 = true := by
      rw [GapTracker.record_flag_iff (recvInv_run cfg start _).wf, hseq,
        mem_seen_run cfg start _ h0]
      exact ⟨h0, fun hn => hn.2 hforg⟩
    have hplayed : frame ∈ played ((run cfg start (before ++ c :: l₁)).1.step x).2 := by
      rw [played_step (hmode _), hf]
      simp [hflag]
    have hnew := h.first (before ++ c :: l₁) x l₂ (by simp [heq, hl]) frame hplayed
    rw [hseq] at hnew
    simp [hnew] at harr
  · intro h
    refine ⟨fun s h1 => h.once hdual h1, ?_⟩
    intro before c rest heq frame hframe
    rw [played_step (hmode _)] at hframe
    obtain ⟨hmem, hflag⟩ := List.mem_filter.mp hframe
    have hc : arrival c = some frame := by simpa using hmem
    have hpre : NoLateCopy cfg start (before ++ [c]) := by
      have hall : NoLateCopy cfg start ((before ++ [c]) ++ rest) := by simpa [heq] using h
      exact hall.of_append
    exact ((hpre.flag_iff hc).mp hflag).2

/-- Frame 3 arrives, the gap below it is never filled, and after the
reliable stream has stalled another copy of frame 3 comes in. -/
def lateCopyCalls : List RecvCall :=
  [.handle (.ofNat 1) (.data ⟨0⟩ [1]) 0, .handle (.ofNat 3) (.data ⟨40⟩ [3]) 1,
    .tick (fromSecs 6), .handle (.ofNat 3) (.data ⟨40⟩ [3]) (fromSecs 7)]

/-- The late copy is played a second time, on a receiver that is still
open. -/
theorem late_copy_played_twice :
    (run .audioEngine 0 lateCopyCalls).1.closed = false
      ∧ ¬ PlayedOnce .audioEngine 0 lateCopyCalls :=
  ⟨by decide +kernel, fun h => absurd (h.once 3 (by decide)) (by decide +kernel)⟩

/-- A run in which a duplicate arrives while the stream still streams. -/
def duplicateCalls : List RecvCall :=
  [.handle (.ofNat 2) (.data ⟨20⟩ [2]) 0, .handle (.ofNat 2) (.data ⟨20⟩ [2]) 1]

theorem played_once_iff_duplicate : PlayedOnce .audioEngine 0 duplicateCalls := by
  refine (played_once_iff .audioEngine rfl 0 duplicateCalls).mpr ?_
  intro before c between d rest s heq hd
  -- the stream never ends in this run
  have hstr : (run .audioEngine 0 duplicateCalls).1.relState = .streaming := by decide +kernel
  have hfin := finished_append .audioEngine 0 (before ++ [c]) (between ++ d :: rest) hd.finished
  rw [List.append_assoc, List.singleton_append, ← heq, hstr] at hfin
  cases hfin

end XferReceiver

end Protofish4
