import Protofish4.Tokio.Delivery
import Protofish4.Xfer.Finishing
import Protofish4.Xfer.Modes
import Protofish4.Xfer.Playback

/-!
# What playback gets

Playback is handed each frame the moment it lands, in whatever order, and
may miss some. End to end that leaves it this much: only frames that
`send_all` was given, each under its own number, none twice as long as the
reliable stream was not given up, and none later than the reliable stream.
-/

namespace Protofish4

open Net (lefts rights)

namespace XferReceiver

variable {cfg : ReceiverConfig} {start : Instant} {calls : List RecvCall} {frame : Frame}

/-- What is played was delivered. -/
theorem handle_of_played (h : frame ∈ played (run cfg start calls).2) :
    ∃ now, .handle frame.seq (.data frame.ts frame.payload) now ∈ calls := by
  obtain ⟨e, he, heq⟩ := List.mem_filterMap.mp h
  have hplay : e = .unreliable frame := by
    cases e with
    | unreliable f => rw [Option.some.inj heq]
    | _ => cases heq
  obtain ⟨before, c, after, rfl, hc⟩ := (Machine.mem_run _).mp (hplay ▸ he)
  cases c with
  | setBufferedMs ms => cases hc
  | tick now => exact absurd hc (tick_no_frame _ now frame).1
  | handle seq body now =>
    rcases Machine.mem_andThen.mp hc with hc | hc
    · rcases onBody_events hc with ⟨ts, payload, rfl, hev⟩ | ⟨_, _, -, hev⟩ | ⟨_, -, hev, -⟩ |
        ⟨_, hev⟩ | ⟨_, hev⟩ | hev | hev <;> cases hev
      exact ⟨now, by simp⟩
    · cases (maybeAck_events hc).1

/-- In dual mode the first frame under a number is played. -/
theorem played_of_firstArrival (hdual : cfg.mode = .dual) {s : Nat}
    (h : firstArrival calls s = some frame) : frame ∈ played (run cfg start calls).2 := by
  induction calls using List.reverseRecOn with
  | nil => simp at h
  | append_singleton calls c ih =>
    have hmode : (run cfg start calls).1.cfg.mode = .dual := by rw [run_cfg, hdual]
    rw [run_concat, Machine.andThen_snd, played_append, played_step hmode]
    rw [firstArrival_concat, after] at h
    cases hc : arrival c with
    | none =>
      rw [hc] at h
      exact List.mem_append_left _ (ih h)
    | some frame' =>
      rw [hc] at h
      change extend (firstArrival calls) frame' s = some frame at h
      by_cases hnew : frame'.seq.toNat = s ∧ s ≠ 0 ∧ firstArrival calls s = none
      · -- nothing has arrived under the number, so the tracker has not seen it
        rw [extend, if_pos hnew] at h
        obtain ⟨rfl, h0, hnone⟩ := hnew
        have hinv := recvInv_run cfg start calls
        have hflag : ((run cfg start calls).1.gaps.record frame'.seq).2 = true := by
          refine (GapTracker.record_flag_iff hinv.wf _).mpr ⟨h0, fun hseen => ?_⟩
          have hsome := hinv.seen _ hseen
          rw [hnone] at hsome
          cases hsome
        cases h
        exact List.mem_append_right _ (by simp [hflag])
      · rw [extend, if_neg hnew] at h
        exact List.mem_append_left _ (ih h)

/-- A receiver without playback plays nothing. -/
theorem played_relOnly (hrel : cfg.mode = .relOnly) : played (run cfg start calls).2 = [] := by
  have hcfg : cfg.withoutUnrel = cfg := by
    cases cfg
    cases hrel
    rfl
  have hrun : run cfg start calls = unplayed (run cfg start calls) :=
    hcfg ▸ run_withoutUnrel cfg start calls
  refine played_eq_nil fun frame hm => ?_
  rw [hrun] at hm
  obtain ⟨e, -, he⟩ := List.mem_filterMap.mp hm
  cases e <;> cases he

end XferReceiver

namespace Linked

variable {rcfg : ReceiverConfig} {start : Instant} {t : List Sender.Effect}
variable {calls : List RecvCall}

/-- A frame played is one of those handed out. -/
theorem played_mem (h : Linked rcfg start t calls) {frame : Frame}
    (hf : frame ∈ XferReceiver.played (XferReceiver.run rcfg start calls).2) :
    frame ∈ Sender.framesOf t := by
  obtain ⟨now, hc⟩ := XferReceiver.handle_of_played hf
  exact h.handled _ _ _ now hc

/-- A stream that was not given up has forgotten no arrival: when it ended,
every frame handed out was in the segment. -/
theorem noLateCopy (h : Linked rcfg start t calls)
    (hno : ∀ reason, .relFinished (.aborted reason) ∉ (XferReceiver.run rcfg start calls).2) :
    XferReceiver.NoLateCopy rcfg start calls := by
  intro before c between d rest s heq hdrops
  have hsplit : calls = (before ++ [c]) ++ (between ++ d :: rest) := by simp [heq]
  have hinv := XferReceiver.recvInv_run rcfg start (before ++ [c])
  have hearlier : ∀ e ∈ (XferReceiver.run rcfg start (before ++ [c])).2,
      e ∈ (XferReceiver.run rcfg start calls).2 := by
    intro e he
    rw [hsplit, XferReceiver.run, Machine.run_append]
    exact Machine.mem_andThen.mpr (Or.inl he)
  obtain ⟨f, hf⟩ := hinv.complete_of_finished hdrops.finished
    fun reason hm => hno reason (hearlier _ hm)
  obtain ⟨hdeclared, hle⟩ := hinv.complete f hf
  obtain ⟨hlen, -⟩ := h.ended f (hsplit ▸ hdeclared.append _)
  have hsome : (XferReceiver.firstArrival calls s).isSome :=
    hsplit ▸ XferReceiver.isSome_firstArrival_append hdrops.arrived _
  have hget := h.arrived s hsome
  rw [hget] at hsome
  have hlt := (List.getElem?_eq_some_iff.mp (Option.eq_some_of_isSome hsome)).1
  have habove := hdrops.above
  have hreleased := hinv.released_le
  omega

/-- So no number is played twice. -/
theorem nodup_played (h : Linked rcfg start t calls)
    (hno : ∀ reason, .relFinished (.aborted reason) ∉ (XferReceiver.run rcfg start calls).2) :
    ((XferReceiver.played (XferReceiver.run rcfg start calls).2).map Frame.seq).Nodup := by
  cases hmode : rcfg.mode with
  | relOnly =>
    rw [XferReceiver.played_relOnly hmode]
    exact List.nodup_nil
  | dual =>
    refine List.nodup_iff_count_le_one.mpr fun seq => ?_
    by_cases hmem : seq ∈ (XferReceiver.played (XferReceiver.run rcfg start calls).2).map Frame.seq
    · obtain ⟨frame, hframe, rfl⟩ := List.mem_map.mp hmem
      obtain ⟨i, hi⟩ := List.mem_iff_getElem?.mp (h.played_mem hframe)
      have hnum := h.numbered i frame hi
      have h1 : 1 ≤ frame.seq.toNat := by omega
      have hcount : ∀ l : List Frame, (l.map Frame.seq).count frame.seq
          ≤ (l.filter fun f => f.seq.toNat = frame.seq.toNat).length := by
        intro l
        rw [List.count, List.countP_map, ← List.countP_eq_length_filter]
        exact List.countP_mono_left fun f _ hf =>
          decide_eq_true (congrArg XferSeq.toNat (eq_of_beq hf))
      refine (hcount _).trans ?_
      rw [(h.noLateCopy hno).once hmode h1]
      cases XferReceiver.firstArrival calls frame.seq.toNat <;> simp
    · rw [List.count_eq_zero.mpr hmem]
      exact Nat.zero_le 1

end Linked

section Played

variable (key : SessionKey) (id : RequestId) (peer : SocketAddr) (scfg : SenderConfig)
variable (rcfg : ReceiverConfig) (start : Instant) (frames : List (TimestampMs × Bytes))

/-- The frames tried on the playback channel. -/
def tried (t : List Entry.Effect) : List Frame := (Entry.unrelFrames t).map Prod.fst

theorem tried_eq_played (steps : List (Sender.Round ⊕ Entry.Step)) :
    tried (rights (deliveryRun key id peer scfg rcfg start frames steps).2)
      = XferReceiver.played
        (XferReceiver.run rcfg start (Entry.callsOf key (rights steps))).2 := by
  obtain ⟨-, hshows⟩ := (Entry.new key rcfg start).drive_shows id GapTracker.wf_new (rights steps)
  rw [sink_effects]
  exact hshows.unrel

variable {key id peer scfg rcfg start frames}

/-- **What playback gets** from `send_all`, whatever the network loses,
repeats, reorders or delays: frames it was given, each under its own number
and, unless the reliable stream is given up, none twice; in dual mode every
frame that the reliable stream has, and all of them by the time `send_all`
has returned `Ok`. -/
theorem playback_delivered {steps : List (Sender.Round ⊕ Entry.Step)}
    (h : Honest key id peer scfg rcfg start frames steps) (hfew : frames.length < 2 ^ 32 - 1) :
    let w := deliveryRun key id peer scfg rcfg start frames steps
    (∀ frame ∈ tried (rights w.2), ∃ i, frame.seq.toNat = i + 1
        ∧ frames[i]? = some (frame.ts, frame.payload))
      ∧ ((∀ reason, .aborted reason ∉ Entry.outcomes (rights w.2)) →
        ((tried (rights w.2)).map Frame.seq).Nodup)
      ∧ (rcfg.mode = .dual → Entry.relFrames (rights w.2) ⊆ tried (rights w.2)
        ∧ (w.1.1.result = some (.ok ()) → ∀ i ts payload, frames[i]? = some (ts, payload) →
          ∃ frame ∈ tried (rights w.2), frame.seq.toNat = i + 1
            ∧ frame.ts = ts ∧ frame.payload = payload)) := by
  intro w
  have hlinked := linked_of_honest h hfew
  have htask := task_inv key id peer scfg rcfg start frames steps
  have hinv := XferReceiver.recvInv_run rcfg start (Entry.callsOf key (rights steps))
  obtain ⟨hrel, -⟩ := sink_shows key id peer scfg rcfg start frames steps
  have houtcomes := Entry.drive_outcomes key id rcfg start (rights steps)
  rw [← sink_effects key id peer scfg rcfg start frames steps] at houtcomes
  have htried : tried (rights w.2) = _ := tried_eq_played key id peer scfg rcfg start frames steps
  rw [htried]
  refine ⟨fun frame hf => ?_, fun hno => ?_, fun hdual => ⟨fun frame hf => ?_, fun hok => ?_⟩⟩
  · obtain ⟨i, hi⟩ := List.mem_iff_getElem?.mp (hlinked.played_mem hf)
    have hlt := (List.getElem?_eq_some_iff.mp hi).1
    refine ⟨i, hlinked.numbered i frame hi, ?_⟩
    rw [htask.frames, List.getElem?_append_left (by rwa [List.length_map]), List.getElem?_map, hi]
    rfl
  · refine hlinked.nodup_played fun reason hm => hno reason ?_
    exact houtcomes ▸ Entry.mem_outcomesOf.mpr hm
  · rw [hrel, hinv.out] at hf
    obtain ⟨s, -, hs⟩ := List.mem_filterMap.mp hf
    exact XferReceiver.played_of_firstArrival hdual hs
  · intro i ts payload hi
    obtain ⟨frame, hframe, hts, hpayload⟩ := hlinked.arrived_all htask hok hi
    refine ⟨frame, XferReceiver.played_of_firstArrival hdual hframe, ?_, hts, hpayload⟩
    exact (XferReceiver.firstArrival_eq_some hframe).2.1

/-- The lost frame of `lossySteps` is tried on the playback channel in the
end, and the one that comes twice is not tried twice. -/
theorem playback_delivered_lossy :
    let t := rights (deliveryRun plainKey zeroId ⟨[127, 0, 0, 1], 4000⟩ {} .audioEngine 0
      threeFrames lossySteps).2
    ((tried t).map Frame.seq).Nodup
      ∧ ∃ frame ∈ tried t, frame.seq.toNat = 2 ∧ frame.ts = ⟨20⟩ ∧ frame.payload = [2] := by
  obtain ⟨-, hnodup, hdual⟩ := @playback_delivered plainKey zeroId ⟨[127, 0, 0, 1], 4000⟩ {}
    .audioEngine 0 threeFrames lossySteps (by decide +kernel) (by decide)
  have hnone : ∀ reason, .aborted reason ∉ Entry.outcomes (rights (deliveryRun plainKey zeroId
      ⟨[127, 0, 0, 1], 4000⟩ {} .audioEngine 0 threeFrames lossySteps).2) := by
    rw [show Entry.outcomes _ = [.complete ⟨3⟩] by decide +kernel]
    simp
  exact ⟨hnodup hnone, (hdual rfl).2 (by decide +kernel) 1 ⟨20⟩ [2] rfl⟩

end Played

end Protofish4
