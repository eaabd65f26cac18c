import Protofish4.Tokio.Channels
import Protofish4.Tokio.Forgery

/-!
# A slow consumer

`apply` sends reliable frames with `rel_tx.send(..).await`, the entries lock
in hand. The module says, for every run, who notices that one request's
reliable consumer does not read: nobody, as long as no datagram releases
more reliable frames for it than its channel has room for; and everybody
from the first one that does.
-/

namespace Protofish4

namespace Channels

variable {c d : Channels}

/-- The same channels, the reliable one no fuller. -/
structure Shorter (c d : Channels) : Prop where
  unrel : d.unrel = c.unrel
  unrelOpen : d.unrelOpen = c.unrelOpen
  relOpen : d.relOpen = c.relOpen
  rel : d.rel.length ≤ c.rel.length

theorem Shorter.refl (c : Channels) : Shorter c c := ⟨rfl, rfl, rfl, le_rfl⟩

theorem Shorter.unrelRoom (h : Shorter c d) : d.unrelRoom = c.unrelRoom := by
  simp only [Channels.unrelRoom, h.unrel, h.unrelOpen]

theorem Shorter.around (h : Shorter c d) (t : Readings) : d.around t = c.around t := by
  simp only [Channels.around, h.unrelRoom, h.relOpen]

theorem Shorter.takeRel (h : Shorter c d) : Shorter c d.takeRel :=
  ⟨h.unrel, h.unrelOpen, h.relOpen,
    by simpa [Channels.takeRel] using le_trans (Nat.pred_le _) h.rel⟩

theorem Shorter.put (h : Shorter c d) (ev : RecvEvent) : Shorter (c.put ev) (d.put ev) := by
  cases ev with
  | unreliable f =>
    simp only [Channels.put, h.unrelRoom]
    split
    · exact ⟨by rw [h.unrel], h.unrelOpen, h.relOpen, h.rel⟩
    · exact h
  | reliable f =>
    simp only [Channels.put, h.relOpen]
    split
    · exact ⟨h.unrel, h.unrelOpen, rfl, by simpa using h.rel⟩
    · exact h
  | sendNack | sendAck | sendEndAck | relFinished | closed => exact h

theorem Fits.shorter (hs : Shorter c d) {evs : List RecvEvent} (h : c.Fits evs) : d.Fits evs := by
  intro hopen
  have := h (hs.relOpen ▸ hopen)
  have := hs.rel
  omega

end Channels

namespace Entry

variable {c d : Channels}

/-- With more room nothing changes for events that fit. -/
theorem hand_shorter (hs : c.Shorter d) {evs : List RecvEvent} (hf : c.Fits evs) (e : Entry)
    (id : RequestId) (t : Readings) :
    (e.hand d id t evs).applied = (e.hand c id t evs).applied
      ∧ (e.hand c id t evs).chans.Shorter (e.hand d id t evs).chans := by
  induction evs generalizing e c d with
  | nil => exact ⟨rfl, hs⟩
  | cons ev evs ih =>
    obtain ⟨hb, hf'⟩ := Channels.fits_cons.mp hf
    obtain ⟨hb', -⟩ := Channels.fits_cons.mp (hf.shorter hs)
    obtain ⟨happlied, hchans⟩ := ih (hs.put ev) hf' (e.applyOne id (c.around t) ev).entry
    rw [hand_cons_of_not_blocks hb, hand_cons_of_not_blocks hb', hs.around t]
    exact ⟨by rw [happlied], hchans⟩

/-- Passing on leaves the receiver and the key alone. -/
theorem hand_frame (e : Entry) (c : Channels) (id : RequestId) (t : Readings)
    (evs : List RecvEvent) : (e.hand c id t evs).applied.entry.state = e.state
      ∧ (e.hand c id t evs).applied.entry.key = e.key := by
  induction evs generalizing e c with
  | nil => exact ⟨rfl, rfl⟩
  | cons ev evs ih =>
    cases hb : c.blocks ev with
    | true =>
      simp only [hand, hb]
      cases ev <;> exact ⟨rfl, rfl⟩
    | false =>
      rw [hand_cons_of_not_blocks hb]
      obtain ⟨hstate, hkey, -⟩ := e.applyOne_frame id (c.around t) ev
      exact ⟨(ih _ _).1.trans hstate, (ih _ _).2.trans hkey⟩

/-- Every reliable frame that fits is in the channel afterwards. -/
theorem hand_rel (e : Entry) {c : Channels} (id : RequestId) (t : Readings) {evs : List RecvEvent}
    (hf : c.Fits evs) (hopen : c.relOpen = true) : (e.hand c id t evs).chans.relOpen = true
      ∧ (e.hand c id t evs).chans.rel.length
        = c.rel.length + evs.countP RecvEvent.isReliable := by
  induction evs generalizing e c with
  | nil => exact ⟨hopen, rfl⟩
  | cons ev evs ih =>
    obtain ⟨hb, hf'⟩ := Channels.fits_cons.mp hf
    have hput : (c.put ev).relOpen = true ∧ (c.put ev).rel.length
        = c.rel.length + if ev.isReliable then 1 else 0 := by
      cases ev with
      | unreliable f =>
        simp only [Channels.put]
        split <;> exact ⟨hopen, rfl⟩
      | reliable f => simp [Channels.put, hopen, RecvEvent.isReliable]
      | sendNack | sendAck | sendEndAck | relFinished | closed => exact ⟨hopen, rfl⟩
    rw [hand_cons_of_not_blocks hb]
    obtain ⟨hopen', hlen⟩ := ih (e.applyOne id (c.around t) ev).entry hf' hput.1
    refine ⟨hopen', ?_⟩
    rw [hlen, hput.2, List.countP_cons]
    omega

/-- What is left waiting is a later part of the events, a strictly later one
when the first does not block. -/
theorem length_hand_rest_le (e : Entry) (c : Channels) (id : RequestId) (t : Readings)
    (evs : List RecvEvent) : (e.hand c id t evs).rest.length ≤ evs.length := by
  induction evs generalizing e c with
  | nil => exact le_rfl
  | cons ev evs ih =>
    cases hb : c.blocks ev with
    | true => simp [hand, hb]
    | false =>
      rw [hand_cons_of_not_blocks hb]
      exact (ih _ _).trans (Nat.le_succ _)

theorem length_hand_rest_lt {ev : RecvEvent} (h : c.blocks ev = false) (e : Entry)
    (id : RequestId) (t : Readings) (evs : List RecvEvent) :
    (e.hand c id t (ev :: evs)).rest.length < (ev :: evs).length := by
  rw [hand_cons_of_not_blocks h]
  exact Nat.lt_succ_of_le (length_hand_rest_le _ _ _ _ _)

end Entry

namespace LockedEndpoint

variable {a : RequestId} {s t : LockedEndpoint}

/-! ## Two endpoints that differ in what is queued for one consumer -/

/-- The lock is not kept for the request. -/
def Clear (a : RequestId) (s : LockedEndpoint) : Prop := ∀ h, s.held = some h → h.id ≠ a

theorem clear_of_free (h : s.held = none) : Clear a s := by
  intro p hp
  rw [h] at hp
  cases hp

/-- The same endpoint, with no more queued for the reliable consumer of `a`. -/
structure SameButRel (a : RequestId) (s t : LockedEndpoint) : Prop where
  endpoint : t.endpoint = s.endpoint
  waiting : t.waiting = s.waiting
  held : t.held = s.held
  chans : ∀ id, id ≠ a → t.chans id = s.chans id
  shorter : (s.chans a).Shorter (t.chans a)

namespace SameButRel

theorem refl (a : RequestId) (s : LockedEndpoint) : SameButRel a s s :=
  ⟨rfl, rfl, rfl, fun _ _ => rfl, Channels.Shorter.refl _⟩

theorem chans_shorter (h : SameButRel a s t) (id : RequestId) :
    (s.chans id).Shorter (t.chans id) := by
  by_cases hid : id = a
  · exact hid ▸ h.shorter
  · rw [h.chans id hid]
    exact Channels.Shorter.refl _

/-- The channels of one request set, on both sides. -/
theorem update (h : SameButRel a s t) (id : RequestId) {c d : Channels}
    (heq : id ≠ a → d = c) (hs : c.Shorter d) :
    SameButRel a { s with chans := Function.update s.chans id c }
      { t with chans := Function.update t.chans id d } := by
  refine ⟨h.endpoint, h.waiting, h.held, fun id' hid' => ?_, ?_⟩
  · by_cases hid : id' = id
    · subst hid
      simp [heq hid']
    · simp [Function.update_of_ne hid, h.chans id' hid']
  · by_cases hid : a = id
    · subst hid
      simpa using hs
    · simpa [Function.update_of_ne hid] using h.shorter

end SameButRel

theorem deliver_same (h : SameButRel a s t) (e : Entry) (p : Held) (τ : Readings)
    (hfits : p.id = a → (s.chans a).Fits p.rest) :
    SameButRel a (s.deliver e p τ).1 (t.deliver e p τ).1 ∧ Clear a (s.deliver e p τ).1
      ∧ (t.deliver e p τ).2 = (s.deliver e p τ).2 := by
  by_cases hid : p.id = a
  · -- what fits is applied to the end on both sides
    have hf : (s.chans p.id).Fits p.rest := by rw [hid]; exact hfits hid
    have hs := h.chans_shorter p.id
    obtain ⟨happlied, hchans⟩ := e.hand_shorter hs hf p.id τ
    have hrest := (e.hand_rest_nil_iff (s.chans p.id) p.id τ p.rest).mpr hf
    have hrest' := (e.hand_rest_nil_iff (t.chans p.id) p.id τ p.rest).mpr (hf.shorter hs)
    simp only [deliver, hrest, hrest', List.isEmpty_nil, if_true, happlied, store, h.endpoint]
    refine ⟨?_, clear_of_free rfl, trivial⟩
    have hup := h.update p.id (fun hne => absurd hid hne) hchans
    exact ⟨rfl, hup.waiting, rfl, hup.chans, hup.shorter⟩
  · have hchans := h.chans p.id hid
    simp only [deliver, hchans, store, h.endpoint]
    have hup := h.update p.id (fun _ => rfl)
      (Channels.Shorter.refl (e.hand (s.chans p.id) p.id τ p.rest).chans)
    split
    · exact ⟨⟨rfl, hup.waiting, rfl, hup.chans, hup.shorter⟩, clear_of_free rfl, rfl⟩
    · refine ⟨⟨rfl, hup.waiting, rfl, hup.chans, hup.shorter⟩, ?_, rfl⟩
      rintro _ ⟨⟩
      exact hid

theorem perform_same (h : SameButRel a s t) (hclear : Clear a s) (clock : RequestId → Readings)
    (job : Job) (hfits : s.JobFits a clock job) :
    SameButRel a (s.perform clock job).1 (t.perform clock job).1 ∧ Clear a (s.perform clock job).1
      ∧ (t.perform clock job).2 = (s.perform clock job).2 := by
  cases job with
  | arm id key cfg =>
    simp only [perform, h.endpoint]
    refine ⟨?_, hclear, trivial⟩
    split
    · exact ⟨rfl, h.waiting, h.held, h.chans, h.shorter⟩
    · have hup := h.update id (fun _ => rfl) (Channels.Shorter.refl Channels.fresh)
      exact ⟨rfl, hup.waiting, hup.held, hup.chans, hup.shorter⟩
  | tick now =>
    have haround : (fun id => (t.chans id).around (clock id))
        = fun id => (s.chans id).around (clock id) := by
      funext id
      exact (h.chans_shorter id).around _
    simp only [perform, h.endpoint, haround]
    exact ⟨⟨rfl, h.waiting, h.held, h.chans, h.shorter⟩, hclear, trivial⟩
  | datagram bytes source =>
    simp only [perform, h.endpoint]
    split
    · exact ⟨h, hclear, rfl⟩
    · rename_i id hid
      split
      · exact ⟨h, hclear, rfl⟩
      · rename_i e he
        split
        · exact ⟨h, hclear, rfl⟩
        · rename_i seq body hopen
          refine deliver_same h _ _ _ ?_
          rintro rfl
          exact hfits bytes source rfl hid e he seq body hopen

/-! ## One step, then a run -/

/-- The consumer of `a` makes room: it receives a frame, or the call that
waits for it goes on. -/
def Drains (a : RequestId) (x : Step) : Prop := x = .takeRel a ∨ ∃ τ, x = .wake a τ

/-- A call that gets the free lock for `a` finds room for its frames. -/
def StepFits (a : RequestId) (s : LockedEndpoint) (x : Step) : Prop :=
  ∀ n clock, x = .grant n clock → s.held = none → ∀ job, s.waiting[n]? = some job →
    s.JobFits a clock job

theorem step_same (h : SameButRel a s t) (hclear : Clear a s) (x : Step) (hx : x ≠ .takeRel a)
    (hfits : StepFits a s x) :
    SameButRel a (s.step x).1 (t.step x).1 ∧ Clear a (s.step x).1
      ∧ (t.step x).2 = (s.step x).2 := by
  -- a change to one request's channels, on both sides
  have hon : ∀ id (f : Channels → Channels), (id = a → (f (s.chans a)).Shorter (f (t.chans a))) →
      SameButRel a (s.onChans id f) (t.onChans id f) := by
    intro id f hf
    refine h.update id (fun hne => by rw [h.chans id hne]) ?_
    by_cases hid : id = a
    · subst hid
      exact hf rfl
    · rw [h.chans id hid]
      exact Channels.Shorter.refl _
  cases x with
  | call job =>
    exact ⟨⟨h.endpoint, by simp [step, h.waiting], h.held, h.chans, h.shorter⟩, hclear, rfl⟩
  | grant n clock =>
    simp only [step, grant, h.held, h.waiting]
    split
    · rename_i job hheld hjob
      have hwaiting : SameButRel a { s with waiting := s.waiting.eraseIdx n }
          { t with waiting := s.waiting.eraseIdx n, held := s.held } :=
        ⟨h.endpoint, rfl, rfl, h.chans, h.shorter⟩
      exact perform_same hwaiting hclear clock job (hfits n clock rfl hheld job hjob)
    · exact ⟨h, hclear, rfl⟩
  | wake id τ =>
    simp only [step, wake, h.held, h.endpoint]
    split
    · exact ⟨h, hclear, rfl⟩
    · rename_i p hp
      split
      · rename_i hid
        split
        · exact ⟨⟨rfl, h.waiting, rfl, h.chans, h.shorter⟩, clear_of_free rfl, rfl⟩
        · exact deliver_same h _ p τ fun hpa => absurd hpa (hclear p hp)
      · exact ⟨h, hclear, rfl⟩
  | dropArmed id =>
    exact ⟨⟨by simp [step, h.endpoint], h.waiting, h.held, h.chans, h.shorter⟩, hclear, rfl⟩
  | disarm n =>
    simp only [step, h.held]
    split
    · exact ⟨⟨by simp [h.endpoint], h.waiting, rfl, h.chans, h.shorter⟩, hclear, trivial⟩
    · exact ⟨h, hclear, trivial⟩
  | takeRel id =>
    refine ⟨hon id _ ?_, hclear, rfl⟩
    rintro rfl
    exact absurd rfl hx
  | takeUnrel id =>
    refine ⟨hon id _ fun _ => ?_, hclear, rfl⟩
    exact ⟨by simp [Channels.takeUnrel, h.shorter.unrel], h.shorter.unrelOpen, h.shorter.relOpen,
      h.shorter.rel⟩
  | hangUpRel id =>
    refine ⟨hon id _ fun _ => ?_, hclear, rfl⟩
    exact ⟨h.shorter.unrel, h.shorter.unrelOpen, rfl, le_rfl⟩
  | hangUpUnrel id =>
    refine ⟨hon id _ fun _ => ?_, hclear, rfl⟩
    exact ⟨rfl, rfl, h.shorter.relOpen, h.shorter.rel⟩
  | setPlayheadMs id ms now =>
    exact ⟨⟨by simp [step, h.endpoint], h.waiting, h.held, h.chans, h.shorter⟩, hclear, rfl⟩

/-! ## The consumer makes room -/

theorem run_append (s : LockedEndpoint) (xs ys : List Step) : (s.run (xs ++ ys)).1
    = ((s.run xs).1.run ys).1 := by
  unfold run
  rw [Machine.run_append]
  rfl

theorem run_cons (s : LockedEndpoint) (x : Step) (xs : List Step) :
    (s.run (x :: xs)).1 = ((s.step x).1.run xs).1 := rfl

/-- The consumer receives all that is queued. -/
theorem exists_takeAll (a : RequestId) (s : LockedEndpoint) :
    ∃ l, (∀ x ∈ l, Drains a x) ∧ (s.run l).1.endpoint = s.endpoint ∧ (s.run l).1.held = s.held
      ∧ ((s.run l).1.chans a).rel = [] := by
  induction hn : (s.chans a).rel.length generalizing s with
  | zero => exact ⟨[], by simp, rfl, rfl, List.length_eq_zero_iff.mp hn⟩
  | succ n ih =>
    obtain ⟨l, hl, hend, hheld, hrel⟩ := ih (s.step (.takeRel a)).1
      (by simp [step, onChans, Channels.takeRel, hn])
    refine ⟨.takeRel a :: l, ?_, ?_⟩
    · intro x hx
      rcases List.mem_cons.mp hx with rfl | hx
      · exact Or.inl rfl
      · exact hl x hx
    · rw [run_cons]
      exact ⟨hend, hheld, hrel⟩

/-- A call that waits for the consumer ends once the consumer reads. -/
theorem exists_drain (τ : Readings) {p : Held} (hheld : s.held = some p) (hid : p.id = a) :
    ∃ l, (∀ x ∈ l, Drains a x) ∧ (s.run l).1.held = none := by
  induction hn : p.rest.length using Nat.strong_induction_on generalizing s p with
  | _ n ih =>
    obtain ⟨l, hl, hend, hheld', hrel⟩ := exists_takeAll a s
    generalize hs' : (s.run l).1 = s' at hend hheld' hrel
    rw [hheld] at hheld'
    have hgo : ∀ l', (∀ x ∈ l', Drains a x) → ((s'.step (.wake a τ)).1.run l').1.held = none →
        ∃ l, (∀ x ∈ l, Drains a x) ∧ (s.run l).1.held = none := by
      intro l' hl' hfree
      refine ⟨l ++ .wake a τ :: l', ?_, ?_⟩
      · intro x hx
        rcases List.mem_append.mp hx with hx | hx
        · exact hl x hx
        · rcases List.mem_cons.mp hx with rfl | hx
          · exact Or.inr ⟨τ, rfl⟩
          · exact hl' x hx
      · rw [run_append, run_cons, hs']
        exact hfree
    cases he : s'.endpoint.entries.lookup a with
    | none => exact hgo [] (by simp) (by simp [run, step, wake, hheld', hid, he])
    | some e =>
      have hwake : (s'.step (.wake a τ)).1 = (s'.deliver e p τ).1 := by
        simp [step, wake, hheld', hid, he]
      cases hrest : (e.hand (s'.chans p.id) p.id τ p.rest).rest with
      | nil => exact hgo [] (by simp) (by simp [run, hwake, deliver, hrest])
      | cons ev evs =>
        -- it waits again, for a later frame
        have hlt : (e.hand (s'.chans p.id) p.id τ p.rest).rest.length < p.rest.length := by
          cases hp : p.rest with
          | nil => simp [hp, Entry.hand] at hrest
          | cons first others =>
            refine Entry.length_hand_rest_lt ?_ e p.id τ others
            cases first with
            | reliable f => simp [Channels.blocks, Channels.relFull, hid, hrel, channelCap]
            | unreliable | sendNack | sendAck | sendEndAck | relFinished | closed => rfl
        have hheld'' : (s'.step (.wake a τ)).1.held
            = some { p with
              rest := ev :: evs
              out := p.out ++ (e.hand (s'.chans p.id) p.id τ p.rest).applied.out } := by
          simp [hwake, deliver, hrest]
        rw [hrest] at hlt
        obtain ⟨l', hl', hfree⟩ := ih _ (hn ▸ hlt) hheld'' hid rfl
        exact hgo l' hl' hfree

/-! ## Who notices -/

/-- The datagram is routed to the request. -/
def routedTo (a : RequestId) (bytes : Bytes) : Bool :=
  match requestIdOf bytes with
  | .ok id => id = a
  | .error _ => false

/-- An effect of the reliable side of `a`, or of the control traffic of `a`:
what `a`'s own slow consumer may hold up. -/
def ownAffair (a : RequestId) : Effect → Bool
  | .endpoint (.entry _ (.unrel ..)) => false
  | .endpoint (.entry id _) => id = a
  | .endpoint (.sent _ datagram) => routedTo a datagram
  | .completed (.datagram bytes _) => routedTo a bytes
  | .completed _ => false

/-- What is left: calls completed, deliveries and replies for every other
request, and playback frames for all. -/
def others (a : RequestId) (effects : List Effect) : List Effect :=
  effects.filter fun effect => !ownAffair a effect

/-- A call comes, and gets the lock if that is free. -/
def serve (s : LockedEndpoint) (clock : RequestId → Readings) (job : Job) : List Effect :=
  (s.run [.call job, .grant s.waiting.length clock]).2

/-- Whether the consumer of `a` has made room on the way or not: everybody
else has been served alike, and every call that comes now is. -/
def ServesOthers (a : RequestId) (s : LockedEndpoint) (steps : List Step) : Prop :=
  ∀ drained, Machine.Inserted (Drains a) steps drained →
    others a (s.run steps).2 = others a (s.run drained).2
      ∧ ∀ clock job, others a ((s.run steps).1.serve clock job)
        = others a ((s.run drained).1.serve clock job)

theorem serve_eq (s : LockedEndpoint) (clock : RequestId → Readings) (job : Job) :
    s.serve clock job = match s.held with
      | none => (s.perform clock job).2
      | some _ => [] := by
  obtain ⟨endpoint, chans, waiting, held⟩ := s
  have hget : (waiting ++ [job])[waiting.length]? = some job := by simp
  have herase : (waiting ++ [job]).eraseIdx waiting.length = waiting := by
    rw [List.eraseIdx_append_of_length_le le_rfl]
    simp
  simp only [serve, run, Machine.run_cons, Machine.run_nil, Machine.andThen, step, grant,
    List.nil_append, List.append_nil]
  cases held with
  | none => simp only [hget, herase]
  | some p => rfl

/-- What events other than a playback frame do is the affair of their own
request. -/
theorem ownAffair_hand (a : RequestId) (e : Entry) (c : Channels) (t : Readings)
    {evs : List RecvEvent} (hq : ∀ f, .unreliable f ∉ evs) :
    (∀ effect ∈ (e.hand c a t evs).applied.effects,
      ownAffair a (.endpoint (.entry a effect)) = true)
      ∧ ∀ d ∈ (e.hand c a t evs).applied.out, routedTo a d = true := by
  induction evs generalizing e c with
  | nil => simp [Entry.hand]
  | cons ev evs ih =>
    cases hb : c.blocks ev with
    | true => simp [Entry.hand, hb]
    | false =>
      obtain ⟨heffects, hout⟩ := ih (e.applyOne a (c.around t) ev).entry (c.put ev)
        fun f hf => hq f (List.mem_cons_of_mem ev hf)
      rw [Entry.hand_cons_of_not_blocks hb]
      simp only [List.mem_append]
      refine ⟨fun effect h => h.elim (fun h => ?_) (heffects effect),
        fun d h => h.elim (fun h => ?_) (hout d)⟩
      · cases effect with
        | unrel f delivered =>
          cases ev with
          | unreliable g => exact absurd List.mem_cons_self (hq g)
          | reliable g => simp [Entry.applyOne] at h
          | sendNack | sendAck | sendEndAck =>
            simp only [Entry.applyOne, Entry.«seal»] at h
            split at h <;> simp at h
          | relFinished outcome =>
            simp only [Entry.applyOne] at h
            split at h <;> simp at h
          | closed => simp [Entry.applyOne] at h
        | rel | outcome | sealed | warned => simp [ownAffair]
      · simp [routedTo, (e.applyOne_out a (c.around t) ev).2 d h]

/-- A playback frame that comes first is passed on first. -/
theorem hand_first (e : Entry) (c : Channels) (id : RequestId) (t : Readings)
    {first : List RecvEvent} (rest : List RecvEvent)
    (hfirst : first = [] ∨ ∃ f, first = [.unreliable f]) :
    ∃ e' c', (e.hand c id t (first ++ rest)).applied.effects
        = (e.apply id (c.around t) first).effects ++ (Entry.hand e' c' id t rest).applied.effects
      ∧ (e.hand c id t (first ++ rest)).applied.out = (Entry.hand e' c' id t rest).applied.out := by
  rcases hfirst with rfl | ⟨f, rfl⟩
  · exact ⟨e, c, rfl, rfl⟩
  · refine ⟨(e.applyOne id (c.around t) (.unreliable f)).entry, c.put (.unreliable f), ?_, ?_⟩
    · simp [Entry.hand, Channels.blocks, Entry.apply]
    · have hout : (e.applyOne id (c.around t) (.unreliable f)).out = [] := by
        simp only [Entry.applyOne, Entry.deliverUnrel]
        split
        · rfl
        · split <;> rfl
      simp [Entry.hand, Channels.blocks, hout]

/-- What is not the affair of `a` alone when a datagram for `a` is handled:
its playback frame. -/
theorem others_deliver (s : LockedEndpoint) (e : Entry) (t : Readings) {p : Held}
    (hid : p.id = a) (hout : p.out = []) (hjob : ownAffair a (.completed p.job) = true)
    {first rest : List RecvEvent} (heq : p.rest = first ++ rest)
    (hfirst : first = [] ∨ ∃ f, first = [.unreliable f]) (hq : ∀ f, .unreliable f ∉ rest) :
    others a (s.deliver e p t).2 = others a
      ((e.apply a ((s.chans a).around t) first).effects.map fun effect =>
        Effect.endpoint (.entry a effect)) := by
  obtain ⟨id, evs, out, job⟩ := p
  subst hid heq hout
  -- the playback frame never waits, and what follows it is filtered out
  have hsplit : ∃ own, (s.deliver e ⟨id, first ++ rest, [], job⟩ t).2
      = ((e.apply id ((s.chans id).around t) first).effects.map fun effect =>
        Effect.endpoint (.entry id effect)) ++ own
      ∧ ∀ effect ∈ own, ownAffair id effect = true := by
    obtain ⟨e', c', heffects, hout⟩ := hand_first e (s.chans id) id t rest hfirst
    obtain ⟨hown, hownOut⟩ := ownAffair_hand id e' c' t hq
    have hmapped : ∀ effect ∈ (e'.hand c' id t rest).applied.effects.map
        (fun effect => Effect.endpoint (.entry id effect)), ownAffair id effect = true := by
      intro effect h
      obtain ⟨effect, hmem, rfl⟩ := List.mem_map.mp h
      exact hown effect hmem
    simp only [deliver, heffects, hout, List.map_append, List.nil_append]
    split
    · refine ⟨_, by rw [List.append_assoc, List.append_assoc], fun effect h => ?_⟩
      rcases List.mem_append.mp h with h | h
      · exact hmapped effect h
      · rcases List.mem_append.mp h with h | h
        · obtain ⟨reply, hreply, rfl⟩ := List.mem_map.mp h
          unfold Endpoint.replies at hreply
          split at hreply
          · cases hreply
          · obtain ⟨d, hd, rfl⟩ := List.mem_map.mp hreply
            exact hownOut d hd
        · cases List.mem_singleton.mp h
          exact hjob
    · exact ⟨_, rfl, hmapped⟩
  obtain ⟨own, heq, hown⟩ := hsplit
  rw [heq, others, List.filter_append]
  have hnil : own.filter (fun effect => !ownAffair id effect) = [] :=
    List.filter_eq_nil_iff.mpr fun effect h => by simp [hown effect h]
  rw [hnil, List.append_nil]
  rfl

theorem serve_others (h : SameButRel a s t) (hclear : Clear a s) (clock : RequestId → Readings)
    (job : Job) : others a (s.serve clock job) = others a (t.serve clock job) := by
  rw [serve_eq, serve_eq, h.held]
  cases hheld : s.held with
  | some p => rfl
  | none =>
    by_cases hfits : s.JobFits a clock job
    · exact congrArg (others a) (perform_same h hclear clock job hfits).2.2.symm
    · -- a datagram for `a` itself, left half applied
      unfold JobFits at hfits
      push Not at hfits
      obtain ⟨bytes, source, rfl, hid, e, he, seq, body, hopen, -⟩ := hfits
      obtain ⟨first, rest, heq, hfirst, hq⟩ :=
        e.state.handle_unreliable_first seq body (clock a).now
      have hown : ownAffair a (.completed (.datagram bytes source)) = true := by
        simp [ownAffair, routedTo, hid]
      have hone : ∀ u : LockedEndpoint, u.endpoint = s.endpoint →
          others a (u.perform clock (.datagram bytes source)).2 = others a
            ((Entry.apply { e.pin source with state := (e.state.handle seq body (clock a).now).1 } a
              ((u.chans a).around (clock a)) first).effects.map fun effect =>
                Effect.endpoint (.entry a effect)) := by
        intro u hu
        simp only [perform, hu, hid, he, hopen]
        exact others_deliver u _ (clock a) (p := ⟨a, _, [], .datagram bytes source⟩) rfl rfl hown
          heq hfirst hq
      simp only
      rw [hone s rfl, hone t h.endpoint, h.shorter.around]

/-- The lock kept for `a`, nobody is served who would be if `a` read. -/
theorem not_servesOthers {steps : List Step} {p : Held} (hheld : (s.run steps).1.held = some p)
    (hid : p.id = a) : ¬ ServesOthers a s steps := by
  intro h
  obtain ⟨l, hl, hfree⟩ := exists_drain ⟨0, 0, 0⟩ hheld hid
  have hserve := (h (steps ++ l) (Machine.Inserted.append steps hl)).2 (fun _ => ⟨0, 0, 0⟩)
    (.tick 0)
  rw [run_append, serve_eq, serve_eq, hheld, hfree] at hserve
  simp [others, perform, ownAffair] at hserve

/-- A datagram that does not fit keeps the lock. -/
theorem held_of_not_stepFits {x : Step} (h : ¬ StepFits a s x) :
    ∃ p, (s.step x).1.held = some p ∧ p.id = a := by
  unfold StepFits JobFits at h
  push Not at h
  obtain ⟨n, clock, rfl, hfree, job, hjob, bytes, source, rfl, hid, e, he, seq, body,
    hopen, hfits⟩ := h
  have hrest : (Entry.hand { e.pin source with state := (e.state.handle seq body (clock a).now).1 }
      (s.chans a) a (clock a) (e.state.handle seq body (clock a).now).2).rest ≠ [] :=
    fun hnil => hfits ((Entry.hand_rest_nil_iff _ _ _ _ _).mp hnil)
  simp only [step, grant, hfree, hjob, perform, hid, he, hopen, deliver, List.isEmpty_iff, hrest,
    if_false]
  exact ⟨_, rfl, rfl⟩

/-- **A slow consumer, exactly.** Take any endpoint state, and a run from it
in which the reliable consumer of `a` receives nothing. Everybody else is
served, at every point of it, as if that consumer were reading, if and only
if the lock is not kept for `a` at the start and every datagram for `a` that
gets the lock releases no more reliable frames than there is room for. -/
theorem slow_consumer_unnoticed_iff (a : RequestId) (start more : List Step)
    (hundrained : ∀ x ∈ more, x ≠ .takeRel a) :
    (∀ before after, more = before ++ after → ServesOthers a (bind.run start).1 before)
      ↔ Clear a (bind.run start).1 ∧ ∀ before x after, more = before ++ x :: after →
        StepFits a ((bind.run start).1.run before).1 x := by
  generalize (bind.run start).1 = s
  constructor
  · intro h
    refine ⟨fun p hp hid => @not_servesOthers a s [] p hp hid (h [] more rfl), ?_⟩
    intro before x after heq
    by_contra hfits
    -- the first datagram that does not fit keeps the lock
    obtain ⟨p, hp, hid⟩ := held_of_not_stepFits hfits
    have hheld : (s.run (before ++ [x])).1.held = some p := by
      rw [run_append]
      simpa [run, Machine.run_singleton] using hp
    exact not_servesOthers hheld hid (h (before ++ [x]) after (by rw [heq]; simp))
  · rintro ⟨hclear, hfits⟩ before after rfl drained hins
    have hkeep : ∀ s t x, (SameButRel a s t ∧ Clear a s) → (x ≠ .takeRel a ∧ StepFits a s x) →
        (SameButRel a (s.step x).1 (t.step x).1 ∧ Clear a (s.step x).1)
          ∧ (t.step x).2 = (s.step x).2 := by
      rintro s t x ⟨hsame, hclear⟩ ⟨hx, hfits⟩
      obtain ⟨hsame', hclear', heffects⟩ := step_same hsame hclear x hx hfits
      exact ⟨⟨hsame', hclear'⟩, heffects⟩
    have hadd : ∀ s t x, (SameButRel a s t ∧ Clear a s) → Drains a x →
        (SameButRel a s (t.step x).1 ∧ Clear a s) ∧ (t.step x).2 = [] := by
      rintro s t x ⟨hsame, hclear⟩ (rfl | ⟨τ, rfl⟩)
      · -- the second queue gets shorter
        refine ⟨⟨⟨hsame.endpoint, hsame.waiting, hsame.held, fun id hid => ?_, ?_⟩, hclear⟩, rfl⟩
        · simp [step, onChans, Function.update_of_ne hid, hsame.chans id hid]
        · simpa [step, onChans] using hsame.shorter.takeRel
      · -- nobody waits
        have hwake : t.step (.wake a τ) = (t, []) := by
          simp only [step, wake, hsame.held]
          split
          · rfl
          · rename_i p hp
            rw [if_neg (hclear p hp)]
        rw [hwake]
        exact ⟨⟨hsame, hclear⟩, rfl⟩
    have hok : ∀ pre x post, before = pre ++ x :: post →
        x ≠ .takeRel a ∧ StepFits a (s.run pre).1 x := by
      rintro pre x post rfl
      exact ⟨hundrained x (by simp), hfits pre x (post ++ after) (by simp)⟩
    obtain ⟨⟨hsame, hclear'⟩, heffects⟩ := Machine.run_inserted_rel step
      (fun s t => SameButRel a s t ∧ Clear a s) (fun s x => x ≠ .takeRel a ∧ StepFits a s x) hins
      ⟨SameButRel.refl a s, hclear⟩ hok hkeep hadd
    exact ⟨congrArg (others a) heffects.symm, serve_others hsame hclear'⟩

/-! ## A consumer that stops everybody -/

def tapAddr : SocketAddr := ⟨[127, 0, 0, 1], 4000⟩

def otherId : RequestId := ⟨1 :: List.replicate 15 0, rfl⟩

/-- Frame `n` of the transfer `zeroId`. -/
def frameOf (n : Nat) : Bytes :=
  (sealBody plainKey zeroId .send (UInt32.ofNat n) (.data ⟨0⟩ [])).toOption.getD []

theorem frameOf_opens (n : Nat) : requestIdOf (frameOf n) = .ok zeroId
    ∧ openBody plainKey .send (frameOf n) = some (⟨UInt32.ofNat n⟩, .data ⟨0⟩ []) := by
  obtain ⟨plaintext, hp⟩ : ∃ plaintext, encodeBody (.data ⟨0⟩ []) = .ok plaintext := ⟨_, rfl⟩
  obtain ⟨d, hd⟩ : ∃ d, sealBody plainKey zeroId .send (UInt32.ofNat n) (.data ⟨0⟩ []) = .ok d :=
    sealBody_isOk hp
  have hframe : frameOf n = d := by simp [frameOf, hd, Except.toOption]
  rw [hframe]
  exact ⟨requestIdOf_sealBody hd, openBody_sealBody hd rfl⟩

/-- The datagram of frame `n` comes and gets the lock. -/
def arrives (n : Nat) : List Step :=
  [.call (.datagram (frameOf n) tapAddr), .grant 0 fun _ => ⟨0, 0, 0⟩]

/-- The receiver, and how many frames its consumer has not received, after
frame `n`, if that fits. -/
def fed (p : XferReceiver × Nat) (n : Nat) : Option (XferReceiver × Nat) :=
  let q := p.1.handle ⟨UInt32.ofNat n⟩ (.data ⟨0⟩ []) 0
  let released := q.2.countP RecvEvent.isReliable
  if released ≤ channelCap - p.2 then some (q.1, p.2 + released) else none

/-- The endpoint serves `zeroId` with this receiver and so many frames
unread, and `otherId`, which has not received any frame. -/
structure Serving (s : LockedEndpoint) (p : XferReceiver × Nat) : Prop where
  free : s.held = none
  waiting : s.waiting = []
  entry : ∃ e, s.endpoint.entries.lookup zeroId = some e ∧ e.key = plainKey ∧ e.state = p.1
  other : s.endpoint.entries.lookup otherId = some (Entry.new plainKey .cacheWorker 0)
  fresh : s.chans otherId = Channels.fresh
  relOpen : (s.chans zeroId).relOpen = true
  unread : (s.chans zeroId).rel.length = p.2

theorem run_arrives {p : XferReceiver × Nat} (h : Serving s p) (n : Nat) :
    ∃ e : Entry, s.endpoint.entries.lookup zeroId = some e ∧ e.key = plainKey
      ∧ (s.run (arrives n)).1 = (s.deliver
        { e with
          state := (p.1.handle ⟨UInt32.ofNat n⟩ (.data ⟨0⟩ []) 0).1
          peer := some (e.peer.getD tapAddr) }
        ⟨zeroId, (p.1.handle ⟨UInt32.ofNat n⟩ (.data ⟨0⟩ []) 0).2, [],
          .datagram (frameOf n) tapAddr⟩ ⟨0, 0, 0⟩).1 := by
  obtain ⟨hid, hopen⟩ := frameOf_opens n
  obtain ⟨endpoint, chans, waiting, held⟩ := s
  obtain ⟨rfl, rfl, ⟨e, hlookup, hkey, hstate⟩, -, -, -, -⟩ := h
  refine ⟨e, hlookup, hkey, ?_⟩
  simp only at hlookup
  simp [run, arrives, Machine.run_cons, step, grant, perform, hid, hlookup, hkey, hopen, hstate,
    Entry.pin]

theorem Serving.fed {p q : XferReceiver × Nat} (h : Serving s p) {n : Nat}
    (hfed : fed p n = some q) : Serving (s.run (arrives n)).1 q := by
  simp only [LockedEndpoint.fed] at hfed
  split at hfed
  · rename_i hroom
    cases hfed
    obtain ⟨e, hlookup, hkey, hrun⟩ := run_arrives h n
    have hf : (s.chans zeroId).Fits (p.1.handle ⟨UInt32.ofNat n⟩ (.data ⟨0⟩ []) 0).2 :=
      fun _ => h.unread ▸ hroom
    generalize hq : p.1.handle ⟨UInt32.ofNat n⟩ (.data ⟨0⟩ []) 0 = q at *
    generalize he' : ({ e with state := q.1, peer := some (e.peer.getD tapAddr) } : Entry) = e'
      at hrun
    have hrest := (e'.hand_rest_nil_iff (s.chans zeroId) zeroId ⟨0, 0, 0⟩ q.2).mpr hf
    obtain ⟨hstate, hkey'⟩ := e'.hand_frame (s.chans zeroId) zeroId ⟨0, 0, 0⟩ q.2
    obtain ⟨hopen, hlen⟩ := e'.hand_rel zeroId ⟨0, 0, 0⟩ hf h.relOpen
    rw [hrun]
    simp only [deliver, hrest, List.isEmpty_nil, if_true, store]
    refine ⟨rfl, h.waiting, ⟨_, Assoc.lookup_replace _ hlookup, hkey'.trans ?_, hstate.trans ?_⟩,
      ?_, ?_, ?_, ?_⟩
    · rw [← he', ← hkey]
    · rw [← he']
    · rw [Assoc.lookup_replace_ne _ (by decide)]
      exact h.other
    · have hne : otherId ≠ zeroId := by decide
      simpa [hne] using h.fresh
    · simpa only [Function.update_self] using hopen
    · simp only [Function.update_self]
      rw [hlen, h.unread]
  · cases hfed

theorem Serving.fedAll {l : List Nat} {p q : XferReceiver × Nat} (h : Serving s p)
    (hfed : l.foldlM LockedEndpoint.fed p = some q) : Serving (s.run (l.flatMap arrives)).1 q := by
  induction l generalizing s p with
  | nil =>
    cases hfed
    exact h
  | cons n l ih =>
    rw [List.foldlM_cons] at hfed
    obtain ⟨p', hp', hfed⟩ := Option.bind_eq_some_iff.mp hfed
    rw [List.flatMap_cons, run_append]
    exact ih (h.fed hp') hfed

def armBoth : List Step :=
  [.call (.arm zeroId plainKey .cacheWorker), .grant 0 fun _ => ⟨0, 0, 0⟩,
    .call (.arm otherId plainKey .cacheWorker), .grant 0 fun _ => ⟨0, 0, 0⟩]

theorem serving_armBoth : Serving (bind.run armBoth).1 (XferReceiver.new .cacheWorker 0, 0) where
  free := rfl
  waiting := rfl
  entry := ⟨Entry.new plainKey .cacheWorker 0, rfl, rfl, rfl⟩
  other := rfl
  fresh := rfl
  relOpen := by decide
  unread := by decide

/-- `zeroId` has received 256 frames that its consumer has not. -/
def unread : List Step := armBoth ++ ((List.range 256).map (· + 1)).flatMap arrives

/-- Its channel is full then, and frame 257 is released. -/
theorem fed_unread : (((List.range 256).map (· + 1)).foldlM fed
      (XferReceiver.new .cacheWorker 0, 0)).map
        (fun q => (q.2, (q.1.handle ⟨UInt32.ofNat 257⟩ (.data ⟨0⟩ []) 0).2))
    = some (channelCap, [.reliable ⟨⟨257⟩, ⟨0⟩, []⟩]) := by
  decide +kernel

theorem serving_unread : ∃ q : XferReceiver, Serving (bind.run unread).1 (q, channelCap)
    ∧ (q.handle ⟨UInt32.ofNat 257⟩ (.data ⟨0⟩ []) 0).2 = [.reliable ⟨⟨257⟩, ⟨0⟩, []⟩] := by
  obtain ⟨⟨q, n⟩, hq, hfull⟩ := Option.map_eq_some_iff.mp fed_unread
  obtain ⟨rfl, hevents⟩ := Prod.mk.inj hfull
  refine ⟨q, ?_, hevents⟩
  rw [unread, run_append]
  exact serving_armBoth.fedAll hq

/-- A frame that is released then waits for the consumer, and keeps the
lock. -/
theorem Serving.waits {q : XferReceiver} {n : Nat} {f : Frame} (h : Serving s (q, channelCap))
    (hevents : (q.handle ⟨UInt32.ofNat n⟩ (.data ⟨0⟩ []) 0).2 = [.reliable f]) :
    (s.run (arrives n)).1.held = some ⟨zeroId, [.reliable f], [], .datagram (frameOf n) tapAddr⟩
      ∧ (s.run (arrives n)).1.waiting = []
      ∧ ((s.run (arrives n)).1.chans zeroId).relOpen = true
      ∧ ((s.run (arrives n)).1.chans zeroId).rel.length = channelCap := by
  obtain ⟨e, -, -, hrun⟩ := run_arrives h n
  have hfull : (s.chans zeroId).blocks (.reliable f) = true := by
    simp [Channels.blocks, Channels.relFull, h.relOpen, h.unread]
  rw [hevents] at hrun
  simp only [deliver, Entry.hand, hfull, if_true, List.isEmpty_cons, Bool.false_eq_true, if_false,
    List.append_nil] at hrun
  rw [hrun]
  exact ⟨rfl, h.waiting, by simpa [store] using h.relOpen, by simpa [store] using h.unread⟩

/-- A tick is never served then. -/
theorem full_channel_stops_everybody :
    let s := (bind.run unread).1
    s.held = none ∧ (s.chans zeroId).relOpen ∧ (s.chans zeroId).rel.length = channelCap
      ∧ (s.endpoint.entries.lookup zeroId).isSome ∧ (s.endpoint.entries.lookup otherId).isSome
      ∧ (s.run (arrives 257)).1.serve (fun _ => ⟨0, 0, 0⟩) (.tick 0) = []
      ∧ ¬ ServesOthers zeroId s (arrives 257) := by
  obtain ⟨q, hserving, hevents⟩ := serving_unread
  have hheld := (@Serving.waits (bind.run unread).1 q 257 _ hserving hevents).1
  refine ⟨hserving.free, hserving.relOpen, hserving.unread, ?_, by rw [hserving.other]; rfl, ?_,
    not_servesOthers hheld rfl⟩
  · obtain ⟨e, he, -⟩ := hserving.entry
    rw [he]
    rfl
  · rw [serve_eq, hheld]

/-- The first frame of `otherId`. -/
def otherFrame : Bytes :=
  (sealBody plainKey otherId .send 1 (.data ⟨0⟩ [])).toOption.getD []

/-- It comes while the channel of `zeroId` is full, and a tick after it. -/
def otherSteps : List Step :=
  [.call (.datagram otherFrame tapAddr), .grant 0 fun _ => ⟨0, 0, 0⟩, .call (.tick 0),
    .grant 0 fun _ => ⟨0, 0, 0⟩]

theorem deliver_waiting (s : LockedEndpoint) (e : Entry) (p : Held) (τ : Readings) :
    (s.deliver e p τ).1.waiting = s.waiting := by
  simp only [deliver]
  split <;> rfl

/-- A call that has the lock leaves the others waiting. -/
theorem perform_waiting (s : LockedEndpoint) (clock : RequestId → Readings) (job : Job) :
    (s.perform clock job).1.waiting = s.waiting := by
  cases job with
  | arm id key cfg => rfl
  | tick now => rfl
  | datagram bytes source =>
    simp only [perform]
    split
    · rfl
    · split
      · rfl
      · split
        · rfl
        · exact deliver_waiting s _ _ _

theorem Serving.serves_other {p : XferReceiver × Nat} (h : Serving s p) :
    .endpoint (.entry otherId (.rel ⟨⟨1⟩, ⟨0⟩, []⟩ true)) ∈ (s.run otherSteps).2 := by
  have hid : requestIdOf otherFrame = .ok otherId := by decide +kernel
  have hopen : openBody plainKey .send otherFrame = some (⟨1⟩, .data ⟨0⟩ []) := by decide +kernel
  have hevents : ((XferReceiver.new .cacheWorker 0).handle ⟨1⟩ (.data ⟨0⟩ []) 0).2
      = [.reliable ⟨⟨1⟩, ⟨0⟩, []⟩] := by decide +kernel
  obtain ⟨endpoint, chans, waiting, held⟩ := s
  obtain ⟨rfl, rfl, -, hother, hfresh, -, -⟩ := h
  simp only at hother hfresh
  have hgrant : ((⟨endpoint, chans, [.datagram otherFrame tapAddr], none⟩ : LockedEndpoint).grant 0
      fun _ => ⟨0, 0, 0⟩).2 = [.endpoint (.entry otherId (.rel ⟨⟨1⟩, ⟨0⟩, []⟩ true)),
        .completed (.datagram otherFrame tapAddr)] := by
    simp [grant, perform, hid, hother, hopen, hevents, Entry.new, deliver, Entry.hand, hfresh,
      Channels.blocks, Channels.relFull, Channels.fresh, channelCap, Channels.around, Entry.pin,
      Entry.applyOne, Entry.noteTimestamp, Endpoint.replies]
  simp only [run, otherSteps, Machine.run_cons, Machine.andThen_snd, step, List.nil_append, hgrant]
  exact List.mem_cons_self

/-- No datagram for `zeroId` is among them. -/
theorem Serving.otherSteps_fit {p : XferReceiver × Nat} (h : Serving s p) (before : List Step)
    (x : Step) (after : List Step) (heq : otherSteps = before ++ x :: after) :
    StepFits zeroId (s.run before).1 x := by
  intro n clock hx _ job hjob bytes source hbytes hid
  subst hx hbytes
  match before, heq with
  | [], heq => cases heq
  | [_], heq =>
    cases heq
    simp only [run, Machine.run_singleton, step, h.waiting, List.nil_append,
      List.getElem?_cons_zero, Option.some.injEq, Job.datagram.injEq] at hjob
    rw [← hjob.1] at hid
    exact absurd hid (by decide +kernel)
  | [_, _], heq => cases heq
  | [_, _, _], heq =>
    cases heq
    simp [run, Machine.run_cons, step, h.waiting, grant, h.free,
      perform_waiting] at hjob
  | _ :: _ :: _ :: _ :: _, heq => simp [otherSteps] at heq

/-- Both are served, and it is the same to them whether `zeroId`'s consumer
reads. -/
theorem slow_consumer_unnoticed_iff_full :
    ((bind.run unread).1.chans zeroId).rel.length = channelCap
      ∧ ServesOthers zeroId (bind.run unread).1 otherSteps
      ∧ .endpoint (.entry otherId (.rel ⟨⟨1⟩, ⟨0⟩, []⟩ true))
        ∈ ((bind.run unread).1.run otherSteps).2 := by
  obtain ⟨q, hserving, -⟩ := serving_unread
  have hserves := (slow_consumer_unnoticed_iff zeroId unread otherSteps
    (by simp [otherSteps])).mpr ⟨clear_of_free hserving.free, hserving.otherSteps_fit⟩
  exact ⟨hserving.unread, hserves otherSteps [] (List.append_nil _).symm, hserving.serves_other⟩

end LockedEndpoint

end Protofish4
