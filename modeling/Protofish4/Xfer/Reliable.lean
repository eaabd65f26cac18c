import Protofish4.Xfer.Receiver

/-!
# The reliable stream of a receiver

Two facts about every function of the receiver. `Ends`: a stream that is
streaming may end once, its events stop there, and a finished one stays
silent. `Held`: while it streams, the reorder buffer holds exactly the
frames of a history above the released segment, and releasing hands up the
history's frames in order.
-/

namespace Protofish4

open Std (ExtTreeMap)
open Holes

/-! ## How a stream ends -/

/-- Events of the reliable side: releases, requests and the outcome. -/
def RecvEvent.isRel : RecvEvent → Bool
  | .reliable _ | .sendNack _ | .relFinished _ => true
  | _ => false

/-- The outcome is not among these events. -/
def Undecided (out : List RecvEvent) : Prop := ∀ o, .relFinished o ∉ out

/-- The reliable side says nothing in these events. -/
def RelSilent (out : List RecvEvent) : Prop := ∀ e ∈ out, e.isRel = false

theorem RelSilent.undecided {out : List RecvEvent} (h : RelSilent out) : Undecided out :=
  fun o ho => by cases h _ ho

theorem Undecided.append {a b : List RecvEvent} (ha : Undecided a) (hb : Undecided b) :
    Undecided (a ++ b) :=
  fun o ho => (List.mem_append.mp ho).elim (ha o) (hb o)

theorem RelSilent.append {a b : List RecvEvent} (ha : RelSilent a) (hb : RelSilent b) :
    RelSilent (a ++ b) :=
  fun e he => (List.mem_append.mp he).elim (ha e) (hb e)

/-- The events of a stretch that takes the reliable stream from one state
to another: the outcome appears exactly when it ends, and nothing of the
reliable side follows. -/
inductive Ends : RelState → RelState → List RecvEvent → Prop where
  | going {out : List RecvEvent} (h : Undecided out) : Ends .streaming .streaming out
  | ending {pre post : List RecvEvent} (o : RelOutcome) (hpre : Undecided pre)
      (hpost : RelSilent post) : Ends .streaming .finished (pre ++ .relFinished o :: post)
  | quiet {out : List RecvEvent} (h : RelSilent out) : Ends .finished .finished out

namespace Ends

variable {s s' s'' : RelState} {a b : List RecvEvent}

theorem append (h : Ends s s' a) (h' : Ends s' s'' b) : Ends s s'' (a ++ b) := by
  cases h with
  | going ha =>
    cases h' with
    | going hb => exact .going (ha.append hb)
    | ending o hpre hpost =>
      rw [← List.append_assoc]
      exact .ending o (ha.append hpre) hpost
  | ending o hpre hpost =>
    cases h' with
    | quiet hb =>
      rw [List.append_assoc, List.cons_append]
      exact .ending o hpre (hpost.append hb)
  | quiet ha =>
    cases h' with
    | quiet hb => exact .quiet (ha.append hb)

theorem of_silent (s : RelState) (h : RelSilent a) : Ends s s a := by
  cases s
  · exact .going h.undecided
  · exact .quiet h

theorem nil (s : RelState) : Ends s s [] := of_silent s fun _ he => by cases he

theorem andThen {r : XferReceiver} {p : XferReceiver × List RecvEvent}
    {f : XferReceiver → XferReceiver × List RecvEvent} (h : Ends r.relState p.1.relState p.2)
    (hf : Ends p.1.relState (f p.1).1.relState (f p.1).2) :
    Ends r.relState (Machine.andThen p f).1.relState (Machine.andThen p f).2 :=
  h.append hf

theorem streaming_of (h : Ends s s' a) (hs : s' = .streaming) : s = .streaming := by
  cases h with
  | going _ => rfl
  | ending _ _ _ => cases hs
  | quiet _ => exact hs

/-- The stretch in which the outcome appears ends the stream, and what
comes after it is silent. -/
theorem of_mem {pre post : List RecvEvent} {o : RelOutcome}
    (h : Ends s s' (pre ++ .relFinished o :: post)) :
    s = .streaming ∧ s' = .finished ∧ Undecided pre ∧ RelSilent post := by
  generalize hout : pre ++ .relFinished o :: post = out at h
  cases h with
  | going hu => exact absurd (by simp [← hout]) (hu o)
  | quiet hsil =>
    exact absurd (hsil (.relFinished o) (by simp [← hout])) (by simp [RecvEvent.isRel])
  | @ending pre' post' o' hpre hpost =>
    refine ⟨rfl, rfl, ?_⟩
    -- both splits are at the only outcome of the list
    rcases List.append_eq_append_iff.mp hout with ⟨x, hx, hy⟩ | ⟨x, hx, hy⟩
    · cases x with
      | nil =>
        simp only [List.append_nil] at hx
        cases hy
        exact ⟨hx ▸ hpre, hpost⟩
      | cons e x =>
        rw [List.cons_append, List.cons.injEq] at hy
        exact absurd (by simp [hx, ← hy.1]) (hpre o)
    · cases x with
      | nil =>
        simp only [List.append_nil] at hx
        cases hy
        exact ⟨hx ▸ hpre, hpost⟩
      | cons e x =>
        rw [List.cons_append, List.cons.injEq] at hy
        have := hpost (.relFinished o) (by simp [hy.2])
        cases this

end Ends

namespace XferReceiver

variable (r : XferReceiver) (now : Instant)

theorem finishRel_ends (o : RelOutcome) :
    Ends r.relState (r.finishRel o).1.relState (r.finishRel o).2 := by
  unfold finishRel
  cases hs : r.relState
  · simp only [reduceCtorEq, if_false]
    show Ends .streaming .finished ([] ++ .relFinished o :: [])
    exact Ends.ending o (fun _ h => by cases h) fun _ h => by cases h
  · simp only [if_true, hs]
    exact Ends.nil _

theorem releaseLoop_undecided (fuel : Nat) : Undecided (releaseLoop fuel r).2 := by
  induction fuel generalizing r with
  | zero => exact fun _ h => by cases h
  | succ fuel ih =>
    simp only [releaseLoop]
    split
    · exact fun _ h => by cases h
    · refine Undecided.append (fun o ho => ?_) (ih _)
      cases List.mem_singleton.mp ho

theorem releaseContiguous_ends (hs : r.relState = .streaming) :
    Ends r.relState (r.releaseContiguous now).1.relState (r.releaseContiguous now).2 := by
  rw [releaseContiguous_frame]
  simp only [hs]
  exact .going (releaseLoop_undecided r _)

theorem completeRel_ends (f : XferSeq) :
    Ends r.relState (r.completeRel f now).1.relState (r.completeRel f now).2 := by
  unfold completeRel
  split
  · rename_i h
    exact (releaseContiguous_ends r now h.1).andThen (finishRel_ends _ _)
  · exact Ends.nil _

theorem ackEnd_ends (f : XferSeq) :
    Ends r.relState (r.ackEnd f).1.relState (r.ackEnd f).2 := by
  unfold ackEnd
  refine Ends.andThen ?_ ?_
  · split
    · exact Ends.of_silent _ fun e he => by cases List.mem_singleton.mp he; rfl
    · exact Ends.nil _
  · generalize (if r.endAcked = false ∧ r.gaps.isComplete f = true then
      ({ r with endAcked := true }, [RecvEvent.sendEndAck]) else (r, [])) = p
    split
    · exact Ends.of_silent _ fun e he => by cases List.mem_singleton.mp he; rfl
    · exact Ends.nil _

theorem checkFinish_ends :
    Ends r.relState (r.checkFinish now).1.relState (r.checkFinish now).2 := by
  unfold checkFinish
  split
  · exact Ends.nil _
  · exact (completeRel_ends r now _).andThen (ackEnd_ends _ _)

theorem storeFrame_ends (frame : Frame) (hs : r.relState = .streaming) :
    Ends r.relState (r.storeFrame frame now).1.relState (r.storeFrame frame now).2 := by
  unfold storeFrame
  split
  · exact finishRel_ends r _
  · split
    · exact finishRel_ends (r.hold frame) _
    · exact (releaseContiguous_ends (r.hold frame) now hs).andThen (checkFinish_ends _ _)

theorem onData_ends (frame : Frame) :
    Ends r.relState (r.onData frame now).1.relState (r.onData frame now).2 := by
  have hnote : Ends r.relState (r.noteArrival frame).1.relState (r.noteArrival frame).2 := by
    refine Ends.of_silent _ fun e he => ?_
    simp only [noteArrival] at he
    split at he
    · cases List.mem_singleton.mp he
      rfl
    · cases he
  refine Ends.andThen hnote ?_
  generalize (r.noteArrival frame).1 = r'
  by_cases hs : r'.relState = .streaming
  · rw [if_neg (not_not.mpr hs)]
    split
    · exact Ends.nil _
    · exact storeFrame_ends r' now frame hs
  · rw [if_pos hs]
    exact Ends.nil _

theorem emitNacks_ends (hs : r.relState = .streaming) :
    Ends r.relState (r.emitNacks now).1.relState (r.emitNacks now).2 := by
  simp only [emitNacks]
  split
  · exact Ends.nil _
  · generalize nackLoop r.cfg r.senderLostBelow now (r.gaps.missing maxNackEntries) r.nacks []
      = asked
    split
    · exact finishRel_ends { r with nacks := asked.nacks } _
    · simp only [hs]
      refine .going fun o ho => ?_
      split at ho
      · cases ho
      · cases List.mem_singleton.mp ho

theorem maybeAck_ends :
    Ends r.relState (r.maybeAck now).1.relState (r.maybeAck now).2 := by
  rw [maybeAck_state]
  refine Ends.of_silent _ fun e he => ?_
  unfold maybeAck at he
  repeat' split at he
  all_goals first
    | (cases List.mem_singleton.mp he; rfl)
    | cases he

theorem noteLost_ends (lostBelow : XferSeq) :
    Ends r.relState (r.noteLost lostBelow).1.relState (r.noteLost lostBelow).2 := by
  simp only [noteLost]
  split
  · split
    · exact finishRel_ends { r with senderLostBelow := lostBelow.toNat } _
    · exact Ends.nil _
  · exact Ends.nil _

theorem onBody_ends (seq : XferSeq) (body : Body) :
    Ends r.relState (r.onBody seq body now).1.relState (r.onBody seq body now).2 := by
  cases body with
  | data ts payload => exact onData_ends r now _
  | «end» f => exact checkFinish_ends (r.declareEnd f) now
  | keepalive l => exact (noteLost_ends r l).andThen (checkFinish_ends _ _)
  | ack | nack | endAck => exact Ends.nil _

theorem handle_ends (seq : XferSeq) (body : Body) :
    Ends r.relState (r.handle seq body now).1.relState (r.handle seq body now).2 :=
  Ends.andThen (r := r) (onBody_ends (r.heard now) now seq body)
    (maybeAck_ends _ _)

theorem tickRel_ends : Ends r.relState (r.tickRel now).1.relState (r.tickRel now).2 := by
  unfold tickRel
  split
  · split
    · exact finishRel_ends r _
    · exact emitNacks_ends r now ‹_›
  · exact Ends.nil _

theorem closeIdle_ends : Ends r.relState r.closeIdle.1.relState r.closeIdle.2 := by
  unfold closeIdle
  refine Ends.andThen ?_ (Ends.of_silent _ fun e he => by cases List.mem_singleton.mp he; rfl)
  split
  · exact finishRel_ends r _
  · exact Ends.nil _

theorem tick_ends : Ends r.relState (r.tick now).1.relState (r.tick now).2 := by
  unfold tick
  split
  · exact Ends.nil _
  · split
    · exact closeIdle_ends r
    · exact (tickRel_ends r now).andThen (maybeAck_ends _ _)

/-- **One call**: the reliable stream ends at most once in it, and a
finished stream stays silent. -/
theorem step_ends (c : RecvCall) :
    Ends r.relState (r.step c).1.relState (r.step c).2 := by
  cases c with
  | handle seq body now => exact handle_ends r now seq body
  | tick now => exact tick_ends r now
  | setBufferedMs ms => exact Ends.nil _

end XferReceiver

/-! ## What a streaming receiver holds

`hist` is the first frame that arrived under each sequence number. -/

/-- The frames of a history up to `n`, in order. -/
def released (hist : Nat → Option Frame) (n : Nat) : List Frame :=
  (List.range' 1 n).filterMap hist

/-- The frames handed up as reliable, in order. -/
def reliables (out : List RecvEvent) : List Frame :=
  out.filterMap fun
    | .reliable frame => some frame
    | _ => none

@[simp] theorem reliables_nil : reliables [] = [] := rfl

@[simp] theorem reliables_append (a b : List RecvEvent) :
    reliables (a ++ b) = reliables a ++ reliables b :=
  List.filterMap_append

theorem reliables_map (l : List Frame) : reliables (l.map .reliable) = l := by
  induction l with
  | nil => rfl
  | cons frame l ih =>
    show frame :: reliables (l.map .reliable) = frame :: l
    rw [ih]

theorem RelSilent.reliables {out : List RecvEvent} (h : RelSilent out) : reliables out = [] := by
  apply List.filterMap_eq_nil_iff.mpr
  intro e he
  cases e with
  | reliable frame => cases h _ he
  | _ => rfl

theorem released_congr {hist hist' : Nat → Option Frame} {n : Nat}
    (h : ∀ s, 1 ≤ s → s ≤ n → hist s = hist' s) : released hist n = released hist' n := by
  apply List.filterMap_congr
  intro s hs
  obtain ⟨h1, h2⟩ := List.mem_range'_1.mp hs
  exact h s h1 (by omega)

theorem released_add (hist : Nat → Option Frame) (n k : Nat) :
    released hist (n + k) = released hist n ++ (List.range' (n + 1) k).filterMap hist := by
  have : 1 + n = n + 1 := by omega
  rw [released, released, ← List.range'_append_1, List.filterMap_append, this]

namespace XferReceiver

/-- The reorder buffer holds the history above the released segment. -/
structure Held (hist : Nat → Option Frame) (r : XferReceiver) : Prop where
  wf : r.gaps.WF
  mem_seen : ∀ s, s ∈ r.gaps.seen ↔ (hist s).isSome
  released_le : r.relReleased ≤ r.gaps.contiguous
  reorder_get : ∀ s, r.reorder[s]? = if r.relReleased < s then hist s else none

/-- What holds between calls while the reliable stream streams. -/
structure Live (hist : Nat → Option Frame) (r : XferReceiver) : Prop extends Held hist r where
  caught_up : r.relReleased = r.gaps.contiguous
  not_acked : r.endAcked = false
  not_closed : r.closed = false
  unfinished : ∀ f, r.finalSeq = some f → r.gaps.contiguous < f.toNat
  lost_le : r.senderLostBelow ≤ r.gaps.contiguous

/-- What a step may do to the released segment: extend it by frames of the
history, inside what is contiguous. It declares the stream complete only
up to an announced end. -/
structure Delivers (hist : Nat → Option Frame) (r : XferReceiver)
    (p : XferReceiver × List RecvEvent) : Prop where
  mono : r.relReleased ≤ p.1.relReleased
  le : r.relReleased ≤ r.gaps.contiguous → p.1.relReleased ≤ p.1.gaps.contiguous
  out : released hist p.1.relReleased = released hist r.relReleased ++ reliables p.2
  complete : ∀ f, .relFinished (.complete f) ∈ p.2 →
    p.1.finalSeq = some f ∧ f.toNat ≤ p.1.relReleased

namespace Delivers

variable {hist : Nat → Option Frame} {r : XferReceiver}

theorem of_silent {p : XferReceiver × List RecvEvent} (h : p.1.relReleased = r.relReleased)
    (hc : r.gaps.contiguous ≤ p.1.gaps.contiguous) (hsil : RelSilent p.2) :
    Delivers hist r p where
  mono := h.ge
  le hle := h ▸ hle.trans hc
  out := by rw [h, hsil.reliables, List.append_nil]
  complete f hf := by cases hsil _ hf

/-- Only the released and the contiguous segment at the start matter. -/
theorem rebase (r' : XferReceiver) {p : XferReceiver × List RecvEvent} (h : Delivers hist r' p)
    (hr : r'.relReleased = r.relReleased) (hc : r.gaps.contiguous ≤ r'.gaps.contiguous) :
    Delivers hist r p :=
  ⟨hr ▸ h.mono, fun hle => h.le (hr ▸ hle.trans hc), hr ▸ h.out, h.complete⟩

theorem nil (hist : Nat → Option Frame) (r : XferReceiver) : Delivers hist r (r, []) :=
  of_silent rfl (Nat.le_refl _) fun _ he => by cases he

theorem andThen {p : XferReceiver × List RecvEvent}
    {f : XferReceiver → XferReceiver × List RecvEvent} (hp : Delivers hist r p)
    (hf : Delivers hist p.1 (f p.1)) (hfinal : (f p.1).1.finalSeq = p.1.finalSeq) :
    Delivers hist r (Machine.andThen p f) where
  mono := hp.mono.trans hf.mono
  le h := hf.le (hp.le h)
  out := by
    rw [Machine.andThen_fst, hf.out, hp.out, Machine.andThen_snd, reliables_append,
      List.append_assoc]
  complete g hg := by
    rcases Machine.mem_andThen.mp hg with hg | hg
    · obtain ⟨h1, h2⟩ := hp.complete g hg
      exact ⟨hfinal.trans h1, h2.trans hf.mono⟩
    · exact hf.complete g hg

end Delivers

variable {hist : Nat → Option Frame} {r : XferReceiver}

theorem finishRel_delivers {o : RelOutcome}
    (ho : ∀ f, o = .complete f → r.finalSeq = some f ∧ f.toNat ≤ r.relReleased) :
    Delivers hist r (r.finishRel o) := by
  unfold finishRel
  split
  · exact Delivers.nil hist r
  · refine ⟨Nat.le_refl _, fun h => h, ?_, ?_⟩
    · simp [reliables]
    · intro f hf
      simp only [List.mem_singleton, RecvEvent.relFinished.injEq] at hf
      exact ho f hf.symm

theorem finishRel_aborted_delivers (reason : RelAbortReason) :
    Delivers hist r (r.finishRel (.aborted reason)) :=
  finishRel_delivers fun _ h => by cases h

/-- The release loop hands up the history's next frames, one a round. -/
theorem releaseLoop_spec (fuel : Nat) (r : XferReceiver) (h : Held hist r)
    (hf : r.relReleased + fuel = r.gaps.contiguous) :
    Held hist (releaseLoop fuel r).1
      ∧ (releaseLoop fuel r).1.relReleased = r.gaps.contiguous
      ∧ (releaseLoop fuel r).2
        = ((List.range' (r.relReleased + 1) fuel).filterMap hist).map .reliable := by
  induction fuel generalizing r with
  | zero => exact ⟨h, by simpa [releaseLoop] using hf, rfl⟩
  | succ fuel ih =>
    have hseen : r.relReleased + 1 ∈ r.gaps.seen :=
      GapTracker.filled_seen r.gaps _ (by omega) (by omega)
    obtain ⟨frame, hframe⟩ := Option.isSome_iff_exists.mp ((h.mem_seen _).mp hseen)
    have hget : r.reorder[r.relReleased + 1]? = some frame := by
      rw [h.reorder_get, if_pos (Nat.lt_succ_self _), hframe]
    simp only [releaseLoop, hget]
    obtain ⟨h1, h2, h3⟩ := ih
      { r with
        reorder := r.reorder.erase (r.relReleased + 1)
        reorderBytes := r.reorderBytes - frame.payload.length
        relReleased := r.relReleased + 1
        nacks := r.nacks.erase (r.relReleased + 1) }
      { wf := h.wf
        mem_seen := h.mem_seen
        released_le := by show r.relReleased + 1 ≤ r.gaps.contiguous; omega
        reorder_get := by
          intro s
          show (r.reorder.erase (r.relReleased + 1))[s]? = if r.relReleased + 1 < s then _ else _
          rw [ExtTreeMap.getElem?_erase, h.reorder_get]
          by_cases heq : r.relReleased + 1 = s
          · simp [heq]
          · simp only [compare_eq_iff_eq, if_neg heq]
            split <;> split <;> first | rfl | omega }
      (by show r.relReleased + 1 + fuel = r.gaps.contiguous; omega)
    refine ⟨h1, h2, ?_⟩
    rw [Machine.andThen_snd, h3, List.range'_succ, List.filterMap_cons, hframe]
    rfl

/-- **Releasing** brings the released segment up to the contiguous one. -/
theorem releaseContiguous_spec (h : Held hist r) (now : Instant) :
    Held hist (r.releaseContiguous now).1
      ∧ (r.releaseContiguous now).1.relReleased = r.gaps.contiguous
      ∧ (r.releaseContiguous now).2 = ((List.range' (r.relReleased + 1)
          (r.gaps.contiguous - r.relReleased)).filterMap hist).map .reliable := by
  have hle := h.released_le
  obtain ⟨h1, h2, h3⟩ := releaseLoop_spec (r.gaps.contiguous - r.relReleased) r h (by omega)
  simp only [releaseContiguous]
  refine ⟨?_, ?_, h3⟩
  · split
    · exact h1
    · exact ⟨h1.wf, h1.mem_seen, h1.released_le, h1.reorder_get⟩
  · split <;> exact h2

theorem releaseContiguous_delivers (h : Held hist r) (now : Instant) :
    Delivers hist r (r.releaseContiguous now) := by
  have hle := h.released_le
  obtain ⟨-, h2, h3⟩ := releaseContiguous_spec h now
  refine ⟨h2 ▸ hle, fun _ => ((releaseContiguous_keeps r now).contiguous ▸ h2).le, ?_, ?_⟩
  · have hsum : r.gaps.contiguous = r.relReleased + (r.gaps.contiguous - r.relReleased) := by omega
    rw [h2, h3, reliables_map]
    conv_lhs => rw [hsum]
    exact released_add hist _ _
  · intro f hf
    rw [h3] at hf
    simp at hf

theorem completeRel_delivers (h : r.relState = .streaming → Held hist r) {f : XferSeq}
    (hfinal : r.finalSeq = some f) (now : Instant) :
    Delivers hist r (r.completeRel f now) := by
  unfold completeRel
  split
  · rename_i hc
    have hk := releaseContiguous_keeps r now
    obtain ⟨hs, hcomp⟩ := hc
    obtain ⟨-, h2, -⟩ := releaseContiguous_spec (h hs) now
    refine (releaseContiguous_delivers (h hs) now).andThen (finishRel_delivers fun g hg => ?_)
      (finishRel_keeps _ _).finalSeq
    cases hg
    rw [hk.finalSeq, h2]
    exact ⟨hfinal, of_decide_eq_true hcomp⟩
  · exact Delivers.nil hist r

theorem ackEnd_relReleased (f : XferSeq) : (r.ackEnd f).1.relReleased = r.relReleased := by
  unfold ackEnd
  rw [Machine.andThen_fst]
  split <;> split <;> rfl

theorem ackEnd_silent (f : XferSeq) : RelSilent (r.ackEnd f).2 := by
  intro e he
  unfold ackEnd at he
  rcases Machine.mem_andThen.mp he with he | he
  · split at he
    · cases List.mem_singleton.mp he
      rfl
    · cases he
  · generalize (if r.endAcked = false ∧ r.gaps.isComplete f = true then
      ({ r with endAcked := true }, [RecvEvent.sendEndAck]) else (r, [])) = p at he
    split at he
    · cases List.mem_singleton.mp he
      rfl
    · cases he

theorem checkFinish_delivers (h : r.relState = .streaming → Held hist r) (now : Instant) :
    Delivers hist r (r.checkFinish now) := by
  unfold checkFinish
  split
  · exact Delivers.nil hist r
  · rename_i f hf
    have hk := ackEnd_keeps (r.completeRel f now).1 f
    exact (completeRel_delivers h hf now).andThen
      (Delivers.of_silent (ackEnd_relReleased f) hk.contiguous.ge (ackEnd_silent f)) hk.finalSeq

/-- An end that has not been reached changes nothing; one that has been
reached ends a streaming stream. -/
theorem checkFinish_cases (hs : r.relState = .streaming) (hacked : r.endAcked = false)
    (now : Instant) :
    (r.checkFinish now = (r, []) ∧ ∀ f, r.finalSeq = some f → r.gaps.contiguous < f.toNat)
      ∨ (r.checkFinish now).1.relState = .finished := by
  unfold checkFinish
  split
  · rename_i hnone
    refine Or.inl ⟨rfl, fun f hf => ?_⟩
    rw [hnone] at hf
    cases hf
  · rename_i f hf
    by_cases hc : r.gaps.isComplete f = true
    · right
      refine (ackEnd_keeps _ f).finished ?_
      rw [completeRel, if_pos ⟨hs, hc⟩]
      exact finishRel_finished _ _
    · left
      have hlt : r.gaps.contiguous < f.toNat := by
        simpa [GapTracker.isComplete] using hc
      refine ⟨?_, fun g hg => by rw [hf] at hg; cases hg; exact hlt⟩
      simp [completeRel, ackEnd, Machine.andThen, hs, hc, hacked]

/-- `check_finish` keeps a receiver live that has nothing to finish. -/
theorem checkFinish_live (h : Held hist r) (hup : r.relReleased = r.gaps.contiguous)
    (hacked : r.endAcked = false) (hclosed : r.closed = false)
    (hlost : r.senderLostBelow ≤ r.gaps.contiguous) (hs : r.relState = .streaming) (now : Instant)
    (hs' : (r.checkFinish now).1.relState = .streaming) : Live hist (r.checkFinish now).1 := by
  rcases checkFinish_cases hs hacked now with ⟨he, hun⟩ | hfin
  · rw [he]
    exact ⟨h, hup, hacked, hclosed, hun, hlost⟩
  · rw [hfin] at hs'
    cases hs'

/-! ## One call

`after hist c` is the history once `c` is made: a data packet adds its
frame unless that sequence number is zero or has arrived before. -/

/-- The frame a call delivers. -/
def arrival : RecvCall → Option Frame
  | .handle seq (.data ts payload) _ => some ⟨seq, ts, payload⟩
  | _ => none

def extend (hist : Nat → Option Frame) (frame : Frame) (s : Nat) : Option Frame :=
  if frame.seq.toNat = s ∧ s ≠ 0 ∧ hist s = none then some frame else hist s

def after (hist : Nat → Option Frame) (c : RecvCall) : Nat → Option Frame :=
  match arrival c with
  | none => hist
  | some frame => extend hist frame

theorem extend_of_isSome {frame : Frame} {s : Nat} (h : (hist s).isSome) :
    extend hist frame s = hist s := by
  rw [extend, if_neg]
  rintro ⟨-, -, hnone⟩
  simp [hnone] at h

theorem after_of_isSome {c : RecvCall} {s : Nat} (h : (hist s).isSome) :
    after hist c s = hist s := by
  unfold after
  cases arrival c with
  | none => rfl
  | some frame => exact extend_of_isSome h

theorem isSome_extend {frame : Frame} {s : Nat} :
    (extend hist frame s).isSome ↔ (hist s).isSome ∨ (s = frame.seq.toNat ∧ s ≠ 0) := by
  unfold extend
  split
  · rename_i h
    simp [h.1, h.2.1]
  · rename_i h
    constructor
    · exact Or.inl
    · rintro (hs | ⟨rfl, h0⟩)
      · exact hs
      · by_contra hnone
        exact h ⟨rfl, h0, by simpa using hnone⟩

/-- Storing a first arrival keeps the buffer in step with the history. -/
theorem Live.hold (h : Live hist r) {frame : Frame} (h0 : frame.seq.toNat ≠ 0)
    (hfresh : hist frame.seq.toNat = none) :
    Held (extend hist frame) ((r.noteArrival frame).1.hold frame) := by
  have hnot : frame.seq.toNat ∉ r.gaps.seen := by
    rw [h.mem_seen, hfresh]
    simp
  have hgt : r.relReleased < frame.seq.toNat := by
    by_contra hle
    exact hnot (GapTracker.filled_seen r.gaps _ (by omega) (by have := h.released_le; omega))
  refine ⟨GapTracker.wf_record h.wf _, ?_, ?_, ?_⟩
  · intro s
    rw [isSome_extend, ← h.mem_seen]
    exact GapTracker.mem_seen_record h.wf _ s
  · exact h.released_le.trans (GapTracker.contiguous_le_record h.wf _)
  · intro s
    show (r.reorder.insert frame.seq.toNat frame)[s]? = if r.relReleased < s then _ else _
    rw [ExtTreeMap.getElem?_insert, h.reorder_get]
    by_cases heq : frame.seq.toNat = s
    · subst heq
      simp [hgt, extend, h0, hfresh]
    · simp [heq, extend]

theorem storeFrame_delivers {frame : Frame} (h : Held hist (r.hold frame)) (now : Instant) :
    Delivers hist r (r.storeFrame frame now) := by
  unfold storeFrame
  split
  · exact finishRel_aborted_delivers _
  · refine Delivers.rebase (r.hold frame) ?_ rfl (Nat.le_refl _)
    split
    · exact finishRel_aborted_delivers _
    · obtain ⟨hheld, -, -⟩ := releaseContiguous_spec h now
      exact (releaseContiguous_delivers h now).andThen
        (checkFinish_delivers (fun _ => hheld) now) (checkFinish_keeps _ now).finalSeq

theorem storeFrame_live {frame : Frame} (h : Held hist (r.hold frame))
    (hacked : r.endAcked = false) (hclosed : r.closed = false)
    (hlost : r.senderLostBelow ≤ r.gaps.contiguous) (now : Instant)
    (hs' : (r.storeFrame frame now).1.relState = .streaming) :
    Live hist (r.storeFrame frame now).1 := by
  unfold storeFrame at hs' ⊢
  split at hs'
  · rw [finishRel_finished] at hs'
    cases hs'
  · split at hs'
    · rw [finishRel_finished] at hs'
      cases hs'
    · rename_i hw hb
      rw [if_neg hw, if_neg hb]
      obtain ⟨hheld, hup, -⟩ := releaseContiguous_spec h now
      have hk := releaseContiguous_keeps (r.hold frame) now
      have hframe := releaseContiguous_frame (r.hold frame) now
      refine checkFinish_live hheld (hk.contiguous ▸ hup) ?_ ?_ ?_
        ((checkFinish_keeps _ now).gaps_eq hs').1 now hs'
      · rw [hframe]
        exact hacked
      · rw [hframe]
        exact hclosed
      · rw [hk.senderLostBelow, hk.contiguous]
        exact hlost

/-- A receiver that no longer streams, or has the frame already, only
notes a packet's arrival. -/
theorem onData_stale {frame : Frame} {now : Instant}
    (h : r.relState ≠ .streaming ∨ (r.gaps.record frame.seq).2 = false) :
    r.onData frame now = r.noteArrival frame := by
  have hstate : (r.noteArrival frame).1.relState = r.relState := rfl
  simp only [onData, Machine.andThen, hstate]
  by_cases hs : r.relState = .streaming
  · rw [if_neg (not_not.mpr hs), if_pos (h.resolve_left (not_not.mpr hs))]
    simp
  · rw [if_pos hs]
    simp

theorem onData_fresh {frame : Frame} {now : Instant} (hs : r.relState = .streaming)
    (h : (r.gaps.record frame.seq).2 = true) :
    r.onData frame now
      = Machine.andThen (r.noteArrival frame) fun r => r.storeFrame frame now := by
  have hstate : (r.noteArrival frame).1.relState = r.relState := rfl
  simp only [onData, Machine.andThen, hstate, hs, h]
  simp

theorem noteArrival_silent (frame : Frame) : RelSilent (r.noteArrival frame).2 := by
  intro e he
  simp only [noteArrival] at he
  split at he
  · cases List.mem_singleton.mp he
    rfl
  · cases he

theorem noteArrival_delivers (hwf : r.gaps.WF) (frame : Frame) :
    Delivers hist r (r.noteArrival frame) :=
  Delivers.of_silent rfl (GapTracker.contiguous_le_record hwf _) (noteArrival_silent frame)

/-- In a live receiver, a packet is fresh exactly when the history lacks it. -/
theorem Live.fresh_iff (h : Live hist r) (seq : XferSeq) :
    (r.gaps.record seq).2 = true ↔ seq.toNat ≠ 0 ∧ hist seq.toNat = none := by
  rw [GapTracker.record_flag_iff h.wf, h.mem_seen]
  simp

theorem onData_delivers (hwf : r.gaps.WF) (h : r.relState = .streaming → Live hist r)
    (frame : Frame) (now : Instant) :
    Delivers (extend hist frame) r (r.onData frame now) := by
  by_cases hs : r.relState = .streaming ∧ (r.gaps.record frame.seq).2 = true
  · obtain ⟨hs, hf⟩ := hs
    obtain ⟨h0, hnone⟩ := ((h hs).fresh_iff _).mp hf
    rw [onData_fresh hs hf]
    exact (noteArrival_delivers hwf frame).andThen
      (storeFrame_delivers ((h hs).hold h0 hnone) now) (storeFrame_keeps _ now frame).finalSeq
  · rw [onData_stale ((not_and_or.mp hs).imp_right (by simp))]
    exact noteArrival_delivers hwf frame

theorem onData_live (h : r.relState = .streaming → Live hist r) (frame : Frame) (now : Instant)
    (hs' : (r.onData frame now).1.relState = .streaming) :
    Live (extend hist frame) (r.onData frame now).1 := by
  have hs : r.relState = .streaming := (onData_ends r now frame).streaming_of hs'
  by_cases hf : (r.gaps.record frame.seq).2 = true
  · obtain ⟨h0, hnone⟩ := ((h hs).fresh_iff _).mp hf
    rw [onData_fresh hs hf] at hs' ⊢
    exact storeFrame_live ((h hs).hold h0 hnone) (h hs).not_acked (h hs).not_closed
      ((h hs).lost_le.trans (GapTracker.contiguous_le_record (h hs).wf _)) now hs'
  · -- the packet is stale: neither the tracker nor the history changes
    have hext : extend hist frame = hist := by
      funext s
      unfold extend
      split
      · rename_i hc
        obtain ⟨rfl, h0, hnone⟩ := hc
        exact absurd (((h hs).fresh_iff _).mpr ⟨h0, hnone⟩) hf
      · rfl
    have hgaps : (r.gaps.record frame.seq).1 = r.gaps := by
      have hst : frame.seq.toNat = 0 ∨ frame.seq.toNat ∈ r.gaps.seen := by
        by_contra hnot
        push Not at hnot
        exact hf ((GapTracker.record_flag_iff (h hs).wf _).mpr hnot)
      rw [GapTracker.record_stale hst]
    have heq : (r.noteArrival frame).1 = r := by
      simp only [noteArrival, hgaps]
    rw [onData_stale (Or.inr (by simpa using hf)), heq, hext]
    exact h hs

theorem noteLost_delivers (l : XferSeq) : Delivers hist r (r.noteLost l) := by
  simp only [noteLost]
  split
  · split
    · exact (finishRel_aborted_delivers (r := { r with senderLostBelow := l.toNat }) _).rebase _ rfl
        (Nat.le_refl _)
    · exact Delivers.of_silent rfl (Nat.le_refl _) fun _ he => by cases he
  · exact Delivers.nil hist r

theorem noteLost_live (h : Live hist r) (l : XferSeq)
    (hs' : (r.noteLost l).1.relState = .streaming) : Live hist (r.noteLost l).1 := by
  simp only [noteLost] at hs' ⊢
  split at hs'
  · split at hs'
    · rw [finishRel_finished] at hs'
      cases hs'
    · rename_i hgt hnot
      rw [if_pos hgt, if_neg hnot]
      have hlost : l.toNat ≤ r.gaps.contiguous := by
        by_contra hlt
        exact hnot ⟨hs', by omega⟩
      exact ⟨⟨h.wf, h.mem_seen, h.released_le, h.reorder_get⟩, h.caught_up, h.not_acked,
        h.not_closed, h.unfinished, hlost⟩
  · rename_i hgt
    rw [if_neg hgt]
    exact h

theorem noteLost_finalSeq (l : XferSeq) : (r.noteLost l).1.finalSeq = r.finalSeq := by
  simp only [noteLost]
  split
  · split
    · exact (finishRel_keeps _ _).finalSeq
    · rfl
  · rfl

theorem onBody_delivers (hwf : r.gaps.WF) (h : r.relState = .streaming → Live hist r)
    (seq : XferSeq) (body : Body) (now : Instant) :
    Delivers (after hist (.handle seq body now)) r (r.onBody seq body now) := by
  cases body with
  | data ts payload => exact onData_delivers hwf h ⟨seq, ts, payload⟩ now
  | «end» f =>
    refine Delivers.rebase (r.declareEnd f) ?_ rfl (Nat.le_refl _)
    refine checkFinish_delivers (fun hs => ?_) now
    have hl := h hs
    exact ⟨hl.wf, hl.mem_seen, hl.released_le, hl.reorder_get⟩
  | keepalive l =>
    refine Delivers.andThen (f := fun r => r.checkFinish now) (noteLost_delivers l)
      (checkFinish_delivers (fun hs => ?_) now) (checkFinish_keeps _ now).finalSeq
    exact (noteLost_live (h ((noteLost_ends r l).streaming_of hs)) l hs).toHeld
  | ack | nack | endAck => exact Delivers.nil _ r

theorem onBody_live (h : r.relState = .streaming → Live hist r) (seq : XferSeq) (body : Body)
    (now : Instant) (hs' : (r.onBody seq body now).1.relState = .streaming) :
    Live (after hist (.handle seq body now)) (r.onBody seq body now).1 := by
  have hl := h ((onBody_ends r now seq body).streaming_of hs')
  cases body with
  | data ts payload => exact onData_live h ⟨seq, ts, payload⟩ now hs'
  | «end» f =>
    exact checkFinish_live (r := r.declareEnd f)
      ⟨hl.wf, hl.mem_seen, hl.released_le, hl.reorder_get⟩ hl.caught_up
      hl.not_acked hl.not_closed hl.lost_le
      ((checkFinish_ends (r.declareEnd f) now).streaming_of hs') now hs'
  | keepalive l =>
    have hs := (checkFinish_ends (r.noteLost l).1 now).streaming_of hs'
    have hl' := noteLost_live hl l hs
    exact checkFinish_live hl'.toHeld hl'.caught_up hl'.not_acked hl'.not_closed hl'.lost_le hs now
      hs'
  | ack | nack | endAck => exact hl

theorem maybeAck_silent (now : Instant) : RelSilent (r.maybeAck now).2 := by
  intro e he
  unfold maybeAck at he
  repeat' split at he
  all_goals first
    | (cases List.mem_singleton.mp he; rfl)
    | cases he

theorem maybeAck_delivers (now : Instant) : Delivers hist r (r.maybeAck now) :=
  Delivers.of_silent (by rw [maybeAck_state]) (by rw [maybeAck_state]) (maybeAck_silent now)

theorem maybeAck_live (h : Live hist r) (now : Instant) : Live hist (r.maybeAck now).1 := by
  rw [maybeAck_state]
  exact ⟨⟨h.wf, h.mem_seen, h.released_le, h.reorder_get⟩, h.caught_up, h.not_acked,
    h.not_closed, h.unfinished, h.lost_le⟩

theorem Live.heard (h : Live hist r) (now : Instant) : Live hist (r.heard now) :=
  ⟨⟨h.wf, h.mem_seen, h.released_le, h.reorder_get⟩, h.caught_up, h.not_acked, h.not_closed,
    h.unfinished, h.lost_le⟩

theorem handle_delivers (hwf : r.gaps.WF) (h : r.relState = .streaming → Live hist r)
    (seq : XferSeq) (body : Body) (now : Instant) :
    Delivers (after hist (.handle seq body now)) r (r.handle seq body now) := by
  refine Delivers.rebase (r.heard now) ?_ rfl (Nat.le_refl _)
  exact (onBody_delivers (r := r.heard now) hwf (fun hs => (h hs).heard now) seq body now).andThen
    (maybeAck_delivers now) (by rw [maybeAck_state])

theorem handle_live (h : r.relState = .streaming → Live hist r) (seq : XferSeq) (body : Body)
    (now : Instant) (hs' : (r.handle seq body now).1.relState = .streaming) :
    Live (after hist (.handle seq body now)) (r.handle seq body now).1 :=
  maybeAck_live (onBody_live (r := r.heard now) (fun hs => (h hs).heard now) seq body now
    ((maybeAck_ends ((r.heard now).onBody seq body now).1 now).streaming_of hs')) now

theorem tickRel_delivers (now : Instant) : Delivers hist r (r.tickRel now) := by
  unfold tickRel
  split
  · split
    · exact finishRel_aborted_delivers _
    · simp only [emitNacks]
      split
      · exact Delivers.nil hist r
      · generalize nackLoop r.cfg r.senderLostBelow now (r.gaps.missing maxNackEntries) r.nacks []
          = asked
        split
        · exact (finishRel_aborted_delivers (r := { r with nacks := asked.nacks }) _).rebase _ rfl
            (Nat.le_refl _)
        · refine ⟨Nat.le_refl _, fun h => h, ?_, fun f hf => ?_⟩
          · split <;> simp [reliables]
          · split at hf
            · cases hf
            · cases List.mem_singleton.mp hf
  · exact Delivers.nil hist r

theorem tickRel_live (h : Live hist r) (now : Instant)
    (hs' : (r.tickRel now).1.relState = .streaming) : Live hist (r.tickRel now).1 := by
  unfold tickRel at hs' ⊢
  split at hs'
  · split at hs'
    · rw [finishRel_finished] at hs'
      cases hs'
    · rename_i hs hstall
      rw [if_pos hs, if_neg hstall]
      simp only [emitNacks] at hs' ⊢
      split at hs'
      · rename_i hm
        rw [if_pos hm]
        exact h
      · rename_i hm
        rw [if_neg hm]
        split at hs'
        · rw [finishRel_finished] at hs'
          cases hs'
        · rename_i hx
          rw [if_neg hx]
          exact ⟨⟨h.wf, h.mem_seen, h.released_le, h.reorder_get⟩, h.caught_up, h.not_acked,
            h.not_closed, h.unfinished, h.lost_le⟩
  · rename_i hs
    exact absurd hs' hs

theorem closeIdle_delivers : Delivers hist r r.closeIdle := by
  unfold closeIdle
  refine Delivers.andThen ?_ (Delivers.of_silent rfl (Nat.le_refl _)
    fun e he => by cases List.mem_singleton.mp he; rfl) rfl
  split
  · exact finishRel_aborted_delivers _
  · exact Delivers.nil hist r

theorem closeIdle_finished : r.closeIdle.1.relState = .finished := by
  unfold closeIdle
  rw [Machine.andThen_fst]
  split
  · exact finishRel_finished _ _
  · rename_i hs
    cases h : r.relState
    · exact absurd h hs
    · rfl

theorem tick_delivers (now : Instant) : Delivers hist r (r.tick now) := by
  unfold tick
  split
  · exact Delivers.nil hist r
  · split
    · exact closeIdle_delivers
    · exact (tickRel_delivers now).andThen (maybeAck_delivers now) (by rw [maybeAck_state])

theorem tick_live (h : Live hist r) (now : Instant)
    (hs' : (r.tick now).1.relState = .streaming) : Live hist (r.tick now).1 := by
  unfold tick at hs' ⊢
  rw [if_neg (by simp [h.not_closed])] at hs' ⊢
  split at hs'
  · rw [closeIdle_finished] at hs'
    cases hs'
  · rename_i hidle
    rw [if_neg hidle]
    exact maybeAck_live (tickRel_live h now ((maybeAck_ends _ now).streaming_of hs')) now

/-- **One call, delivered**: whatever it is, it extends the released
segment by frames of the history. -/
theorem step_delivers (hwf : r.gaps.WF) (h : r.relState = .streaming → Live hist r)
    (c : RecvCall) : Delivers (after hist c) r (r.step c) := by
  cases c with
  | handle seq body now => exact handle_delivers hwf h seq body now
  | tick now => exact tick_delivers now
  | setBufferedMs ms => exact Delivers.of_silent rfl (Nat.le_refl _) fun _ he => by cases he

/-- **One call, live**: as long as the stream streams, the receiver stays
in step with its history. -/
theorem step_live (h : r.relState = .streaming → Live hist r) (c : RecvCall)
    (hs' : (r.step c).1.relState = .streaming) : Live (after hist c) (r.step c).1 := by
  have hl := h ((step_ends r c).streaming_of hs')
  cases c with
  | handle seq body now => exact handle_live h seq body now hs'
  | tick now => exact tick_live hl now hs'
  | setBufferedMs ms =>
    exact ⟨⟨hl.wf, hl.mem_seen, hl.released_le, hl.reorder_get⟩, hl.caught_up, hl.not_acked,
      hl.not_closed, hl.unfinished, hl.lost_le⟩

end XferReceiver

end Protofish4
