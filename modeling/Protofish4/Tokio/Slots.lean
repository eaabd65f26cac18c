import Protofish4.Tokio.Forgery

/-!
# Who releases a slot

The entries are keyed by request id, and so is every removal: the one a
dropped `ArmedRequest` spawns, the one `on_datagram` leaves under way after
it has dropped the lock, and the one in `tick`. This module numbers the
calls of `arm` and follows for which of them each removal was started.
-/

namespace Protofish4

/-- Why a removal was started, and for which call of `arm`. -/
inductive Cause where
  /-- The `ArmedRequest` this call returned was dropped. -/
  | dropped (k : Nat)
  /-- A datagram found the receiver of this call's entry closed. -/
  | closed (k : Nat)
  deriving DecidableEq

def Cause.arm : Cause → Nat
  | .dropped k | .closed k => k

/-- An endpoint with its calls of `arm` numbered: which of them an entry
comes from, the `ArmedRequest`s still held, and the cause of each removal
under way. -/
structure Slots where
  entries : AList fun _ : RequestId => Entry
  removals : List (RequestId × Cause)
  armed : Nat
  owner : RequestId → Nat
  held : List (Nat × RequestId)

namespace Slots

/-- The endpoint without the numbers. -/
def endpoint (s : Slots) : Endpoint := ⟨s.entries, s.removals.map Prod.fst⟩

def bind : Slots := ⟨∅, [], 0, fun _ => 0, []⟩

/-- A successful call takes the next number. -/
def arm (s : Slots) (id : RequestId) (key : SessionKey) (cfg : ReceiverConfig) (now : Instant) :
    Slots :=
  if id ∈ s.entries then s
  else
    { s with
      entries := (s.endpoint.arm id key cfg now).1.entries
      armed := s.armed + 1
      owner := Function.update s.owner id s.armed
      held := s.held ++ [(s.armed, id)] }

/-- The `i`-th of the `ArmedRequest`s held is dropped. -/
def drop (s : Slots) (i : Nat) : Slots :=
  match s.held[i]? with
  | none => s
  | some (k, id) =>
    { s with
      removals := s.removals ++ [(id, .dropped k)]
      held := s.held.eraseIdx i }

def disarm (s : Slots) (n : Nat) : Slots :=
  { s with
    entries := (s.endpoint.disarm n).entries
    removals := s.removals.eraseIdx n }

/-- A removal that is left under way is that of the entry found closed. -/
def onDatagram (s : Slots) (bytes : Bytes) (source : SocketAddr) (now : Instant) (around : Around) :
    Slots :=
  let e := (s.endpoint.onDatagram bytes source now around).1
  { s with
    entries := e.entries
    removals := s.removals
      ++ (e.disarms.drop s.removals.length).map fun id => (id, .closed (s.owner id)) }

def tick (s : Slots) (now : Instant) (around : RequestId → Around) : Slots :=
  { s with entries := (s.endpoint.tick now around).1.entries }

def setPlayheadMs (s : Slots) (id : RequestId) (ms : Nat) (now : Instant) : Slots :=
  { s with entries := (s.endpoint.setPlayheadMs id ms now).entries }

/-- Everything that can happen, in any order. -/
inductive Step where
  | arm (id : RequestId) (key : SessionKey) (cfg : ReceiverConfig) (now : Instant)
  | drop (i : Nat)
  | disarm (n : Nat)
  | datagram (bytes : Bytes) (source : SocketAddr) (now : Instant) (around : Around)
  | tick (now : Instant) (around : RequestId → Around)
  | setPlayheadMs (id : RequestId) (ms : Nat) (now : Instant)

def step (s : Slots) : Step → Slots
  | .arm id key cfg now => s.arm id key cfg now
  | .drop i => s.drop i
  | .disarm n => s.disarm n
  | .datagram bytes source now around => s.onDatagram bytes source now around
  | .tick now around => s.tick now around
  | .setPlayheadMs id ms now => s.setPlayheadMs id ms now

def run (s : Slots) (steps : List Step) : Slots := steps.foldl step s

@[simp] theorem run_nil (s : Slots) : s.run [] = s := rfl

theorem run_concat (s : Slots) (steps : List Step) (x : Step) :
    s.run (steps ++ [x]) = (s.run steps).step x := by
  simp [run]

/-! ## The endpoint underneath -/

/-- The step of the endpoint; dropping what is not held is none. -/
def under (s : Slots) : Step → Option Endpoint.Step
  | .arm id key cfg now => some (.arm id key cfg now)
  | .drop i => s.held[i]?.map fun p => .dropArmed p.2
  | .disarm n => some (.disarm n)
  | .datagram bytes source now around => some (.datagram bytes source now around)
  | .tick now around => some (.tick now around)
  | .setPlayheadMs id ms now => some (.setPlayheadMs id ms now)

/-- A datagram leaves at most one removal under way, that of an entry. -/
theorem onDatagram_disarms (e : Endpoint) (bytes : Bytes) (source : SocketAddr) (now : Instant)
    (around : Around) : (e.onDatagram bytes source now around).1.disarms = e.disarms
      ∨ ∃ id ∈ e.entries, (e.onDatagram bytes source now around).1.disarms = e.disarms ++ [id] := by
  unfold Endpoint.onDatagram
  split
  · exact Or.inl rfl
  · rename_i id _
    split
    · exact Or.inl rfl
    · rename_i entry he
      simp only
      split
      · exact Or.inr ⟨id, AList.lookup_isSome.mp (by rw [he]; rfl), rfl⟩
      · exact Or.inl rfl

/-- The removals after a datagram, with their causes. -/
theorem onDatagram_removals (s : Slots) (bytes : Bytes) (source : SocketAddr) (now : Instant)
    (around : Around) : (s.onDatagram bytes source now around).removals = s.removals
      ∨ ∃ id ∈ s.entries, (s.onDatagram bytes source now around).removals
        = s.removals ++ [(id, .closed (s.owner id))] := by
  have hlen : s.endpoint.disarms.length = s.removals.length := List.length_map ..
  rcases onDatagram_disarms s.endpoint bytes source now around with h | ⟨id, hid, h⟩
  · left
    simp only [onDatagram, h]
    rw [List.drop_eq_nil_of_le hlen.le, List.map_nil, List.append_nil]
  · refine Or.inr ⟨id, hid, ?_⟩
    simp only [onDatagram, h]
    rw [← hlen, List.drop_left]
    rfl

/-- The numbers do not change what the endpoint does. -/
theorem step_endpoint (s : Slots) (x : Step) : (s.step x).endpoint
    = match s.under x with
      | none => s.endpoint
      | some y => (s.endpoint.step y).1 := by
  cases x with
  | arm id key cfg now =>
    simp only [step, under, arm, Endpoint.step]
    by_cases hid : id ∈ s.entries
    · have hsome : (s.endpoint.entries.lookup id).isSome := AList.lookup_isSome.mpr hid
      rw [if_pos hid, Endpoint.arm, if_pos hsome]
    · have hnone : ¬ (s.endpoint.entries.lookup id).isSome :=
        fun h => hid (AList.lookup_isSome.mp h)
      rw [if_neg hid, Endpoint.arm, if_neg hnone]
      rfl
  | drop i =>
    simp only [step, under, drop]
    cases hi : s.held[i]? with
    | none => rfl
    | some p => simp [endpoint, Endpoint.step, Endpoint.dropArmed]
  | disarm n =>
    simp only [step, under, disarm, Endpoint.step]
    have herase : (s.removals.eraseIdx n).map Prod.fst = (s.removals.map Prod.fst).eraseIdx n :=
      (List.eraseIdx_map _ _ _).symm
    unfold Endpoint.disarm
    split
    · rename_i hnone
      have hle : s.removals.length ≤ n := by
        have := List.getElem?_eq_none_iff.mp hnone
        rwa [endpoint, List.length_map] at this
      rw [List.eraseIdx_of_length_le hle]
      rfl
    · simp only [endpoint, herase]
  | datagram bytes source now around =>
    have hlen : s.endpoint.disarms.length = s.removals.length := List.length_map ..
    have htail : (s.endpoint.onDatagram bytes source now around).1.disarms
        = s.endpoint.disarms
          ++ (s.endpoint.onDatagram bytes source now around).1.disarms.drop s.removals.length := by
      rcases onDatagram_disarms s.endpoint bytes source now around with h | ⟨id, -, h⟩ <;> rw [h]
      · rw [List.drop_eq_nil_of_le hlen.le, List.append_nil]
      · rw [← hlen, List.drop_left]
    have hfst : ∀ l : List RequestId,
        (l.map fun id => (id, Cause.closed (s.owner id))).map Prod.fst = l := by
      intro l
      simp [Function.comp_def]
    simp only [step, under, onDatagram, Endpoint.step]
    rw [endpoint, List.map_append, hfst]
    exact congrArg (Endpoint.mk _) htail.symm
  | tick now around => rfl
  | setPlayheadMs id ms now =>
    simp only [step, under, setPlayheadMs, Endpoint.step]
    unfold Endpoint.setPlayheadMs
    split <;> rfl

/-- **Every run is one of the endpoint.** -/
theorem run_endpoint (steps : List Step) :
    ∃ ys, (bind.run steps).endpoint = (Endpoint.run Endpoint.bind ys).1 := by
  induction steps using List.reverseRecOn with
  | nil => exact ⟨[], rfl⟩
  | append_singleton steps x ih =>
    obtain ⟨ys, hys⟩ := ih
    rw [run_concat, step_endpoint]
    cases (bind.run steps).under x with
    | none => exact ⟨ys, hys⟩
    | some y => exact ⟨ys ++ [y], by rw [Endpoint.run_concat, ← hys]⟩

/-! ## What a step can do -/

/-- A removal under way was so before, or an `ArmedRequest` held has been
dropped, or an entry found closed. -/
theorem step_removals {s : Slots} {x : Step} {p : RequestId × Cause}
    (hp : p ∈ (s.step x).removals) : p ∈ s.removals
      ∨ (∃ k, (k, p.1) ∈ s.held ∧ p.2 = .dropped k)
      ∨ p.1 ∈ s.entries ∧ p.2 = .closed (s.owner p.1) := by
  cases x with
  | arm id key cfg now =>
    left
    simp only [step, arm] at hp
    split at hp <;> exact hp
  | drop i =>
    simp only [step, drop] at hp
    split at hp
    · exact Or.inl hp
    · rename_i k id hi
      rcases List.mem_append.mp hp with hp | hp
      · exact Or.inl hp
      · cases List.mem_singleton.mp hp
        exact Or.inr (Or.inl ⟨k, List.mem_of_getElem? hi, rfl⟩)
  | disarm n => exact Or.inl (List.mem_of_mem_eraseIdx hp)
  | datagram bytes source now around =>
    change p ∈ (s.onDatagram bytes source now around).removals at hp
    rcases s.onDatagram_removals bytes source now around with h | ⟨id, hid, h⟩ <;> rw [h] at hp
    · exact Or.inl hp
    · rcases List.mem_append.mp hp with hp | hp
      · exact Or.inl hp
      · cases List.mem_singleton.mp hp
        exact Or.inr (Or.inr ⟨hid, rfl⟩)
  | tick now around => exact Or.inl hp
  | setPlayheadMs id ms now => exact Or.inl hp

/-- A step that arms nothing: no number is taken, no entry appears. -/
structure ArmsNothing (s s' : Slots) : Prop where
  armed : s'.armed = s.armed
  owner : s'.owner = s.owner
  held : ∀ p ∈ s'.held, p ∈ s.held
  entries : ∀ id ∈ s'.entries, id ∈ s.entries

theorem mem_of_lookup {m : AList fun _ : RequestId => Entry} {id : RequestId} {e : Entry}
    (h : m.lookup id = some e) : id ∈ m := AList.lookup_isSome.mp (by rw [h]; rfl)

/-- A step arms a request that has no entry, or nothing. -/
theorem step_arms (s : Slots) (x : Step) : ArmsNothing s (s.step x)
    ∨ ∃ id key cfg now, x = .arm id key cfg now ∧ id ∉ s.entries
      ∧ s.step x = { s with
        entries := s.entries.insert id (Entry.new key cfg now)
        armed := s.armed + 1
        owner := Function.update s.owner id s.armed
        held := s.held ++ [(s.armed, id)] } := by
  have hfollow : ∀ {m : AList fun _ : RequestId => Entry},
      Endpoint.EntriesFollow s.entries m → ∀ id ∈ m, id ∈ s.entries := by
    intro m hm id hid
    obtain ⟨e', he'⟩ := Option.isSome_iff_exists.mp (AList.lookup_isSome.mpr hid)
    obtain ⟨e, he, -⟩ := hm id e' he'
    exact mem_of_lookup he
  have hunder : ∀ y : Endpoint.Step, (∀ id key cfg now, y ≠ .arm id key cfg now) →
      ∀ id ∈ (s.endpoint.step y).1.entries, id ∈ s.entries := by
    intro y hy
    rcases s.endpoint.step_follows y with h | ⟨id, key, cfg, now, heq, -⟩
    · exact hfollow h
    · exact absurd heq (hy id key cfg now)
  cases x with
  | arm id key cfg now =>
    simp only [step, arm]
    by_cases hid : id ∈ s.entries
    · rw [if_pos hid]
      exact Or.inl ⟨rfl, rfl, fun _ hp => hp, fun _ h => h⟩
    · have hnone : ¬ (s.endpoint.entries.lookup id).isSome :=
        fun h => hid (AList.lookup_isSome.mp h)
      refine Or.inr ⟨id, key, cfg, now, rfl, hid, ?_⟩
      rw [if_neg hid, Endpoint.arm, if_neg hnone]
      rfl
  | drop i =>
    left
    simp only [step, drop]
    split
    · exact ⟨rfl, rfl, fun _ hp => hp, fun _ h => h⟩
    · exact ⟨rfl, rfl, fun _ hp => List.mem_of_mem_eraseIdx hp, fun _ h => h⟩
  | disarm n =>
    exact Or.inl ⟨rfl, rfl, fun _ hp => hp, hunder (.disarm n) fun _ _ _ _ h => (by cases h)⟩
  | datagram bytes source now around =>
    exact Or.inl ⟨rfl, rfl, fun _ hp => hp,
      hunder (.datagram bytes source now around) fun _ _ _ _ h => (by cases h)⟩
  | tick now around =>
    exact Or.inl ⟨rfl, rfl, fun _ hp => hp, hunder (.tick now around) fun _ _ _ _ h => (by cases h)⟩
  | setPlayheadMs id ms now =>
    exact Or.inl ⟨rfl, rfl, fun _ hp => hp,
      hunder (.setPlayheadMs id ms now) fun _ _ _ _ h => (by cases h)⟩

end Slots

/-! ## What takes an entry away -/

namespace Endpoint

/-- The finished ids are those of entries found closed. -/
theorem tickLoop_done {now : Instant} {around : RequestId → Around} {ids : List RequestId}
    (hnd : ids.Nodup) {m : AList fun _ : RequestId => Entry} {id : RequestId}
    (h : id ∈ (tickLoop now around ids m).2.2) : id ∈ ids ∧ ∃ e, m.lookup id = some e
      ∧ (e.tick id now (around id)).entry.state.closed = true := by
  induction ids generalizing m with
  | nil => cases h
  | cons k ids ih =>
    obtain ⟨hk, hnd⟩ := List.nodup_cons.mp hnd
    simp only [tickLoop] at h
    cases he : m.lookup k with
    | none =>
      rw [he] at h
      obtain ⟨hid, hclosed⟩ := ih hnd h
      exact ⟨List.mem_cons_of_mem k hid, hclosed⟩
    | some e =>
      rw [he] at h
      have hrest :
          id ∈ (tickLoop now around ids (m.replace k (e.tick k now (around k)).entry)).2.2 →
          id ∈ k :: ids ∧ ∃ e, m.lookup id = some e
            ∧ (e.tick id now (around id)).entry.state.closed = true := by
        intro h
        obtain ⟨hid, e', he', hclosed⟩ := ih hnd h
        have hne : id ≠ k := by
          rintro rfl
          exact hk hid
        rw [Assoc.lookup_replace_ne _ hne] at he'
        exact ⟨List.mem_cons_of_mem k hid, e', he', hclosed⟩
      by_cases hc : (e.tick k now (around k)).entry.state.closed = true
      · simp only [hc, if_true] at h
        rcases List.mem_cons.mp h with rfl | h
        · exact ⟨List.mem_cons_self, e, he, hc⟩
        · exact hrest h
      · simp only [hc] at h
        exact hrest h

/-- A tick takes away only what it finds closed. -/
theorem tick_removed {s : Endpoint} {now : Instant} {around : RequestId → Around} {id : RequestId}
    (hid : id ∈ s.entries) (h : id ∉ (s.tick now around).1.entries) :
    ∃ e, s.entries.lookup id = some e ∧ (e.tick id now (around id)).entry.state.closed = true := by
  have hloop : id ∈ (tickLoop now around s.entries.keys s.entries).1 := by
    rw [← AList.lookup_isSome, tickLoop_lookup now around s.entries.keys_nodup,
      if_pos (AList.mem_keys.mp hid), Option.isSome_map]
    exact AList.lookup_isSome.mpr hid
  have hdone : id ∈ (tickLoop now around s.entries.keys s.entries).2.2 := by
    by_contra hnot
    exact h ((Assoc.mem_foldl_erase _ _).mpr ⟨hnot, hloop⟩)
  exact (tickLoop_done s.entries.keys_nodup hdone).2

theorem mem_onDatagram {s : Endpoint} {bytes : Bytes} {source : SocketAddr} {now : Instant}
    {around : Around} {id : RequestId} (hid : id ∈ s.entries) :
    id ∈ (s.onDatagram bytes source now around).1.entries := by
  unfold onDatagram
  split
  · exact hid
  · split
    · exact hid
    · exact AList.mem_replace.mpr hid

theorem mem_setPlayheadMs {s : Endpoint} {a : RequestId} {ms : Nat} {now : Instant} {id : RequestId}
    (hid : id ∈ s.entries) : id ∈ (s.setPlayheadMs a ms now).entries := by
  unfold setPlayheadMs
  split
  · exact hid
  · exact AList.mem_replace.mpr hid

end Endpoint

namespace Slots

/-- The step takes away the entry that call `k` of `arm` has created for
`id`. -/
structure Releases (s : Slots) (x : Step) (k : Nat) (id : RequestId) : Prop where
  present : id ∈ s.entries
  owner : s.owner id = k
  gone : id ∉ (s.step x).entries

/-- It does so for that call: its own `ArmedRequest` was dropped, or its own
receiver has closed. -/
def Rightly (s : Slots) (x : Step) (k : Nat) (id : RequestId) : Prop :=
  match x with
  | .disarm n => s.removals[n]? = some (id, .dropped k) ∨ s.removals[n]? = some (id, .closed k)
  | .tick now around => ∃ e, s.entries.lookup id = some e
    ∧ (e.tick id now (around id)).entry.state.closed = true
  | _ => False

/-- However things go on from `s`, what call `k` has created for `id` is
only released for it. -/
def KeptBy (s : Slots) (k : Nat) (id : RequestId) : Prop :=
  ∀ steps x, Releases (s.run steps) x k id → Rightly (s.run steps) x k id

/-- Nobody lays claim to `id`: no removal is under way, no `ArmedRequest`
of an earlier call is held. -/
def Unclaimed (s : Slots) (id : RequestId) : Prop :=
  (∀ c, (id, c) ∉ s.removals) ∧ ∀ k, (k, id) ∉ s.held

variable {s : Slots} {x : Step} {k : Nat} {id : RequestId}

/-- What takes an entry away: a removal of its id, or a tick that finds it
closed. -/
theorem Releases.cases (h : Releases s x k id) :
    (∃ n c, x = .disarm n ∧ s.removals[n]? = some (id, c)) ∨ Rightly s x k id := by
  have hgone := h.gone
  cases x with
  | arm a key cfg now =>
    rcases s.step_arms (.arm a key cfg now) with hn | ⟨a, key, cfg, now, -, -, heq⟩
    · simp only [step, arm] at hgone
      split at hgone
      · exact absurd h.present hgone
      · rw [Endpoint.arm] at hgone
        split at hgone
        · exact absurd h.present hgone
        · exact absurd ((AList.mem_insert _).mpr (Or.inr h.present)) hgone
    · rw [heq] at hgone
      exact absurd ((AList.mem_insert _).mpr (Or.inr h.present)) hgone
  | drop i =>
    simp only [step, drop] at hgone
    split at hgone <;> exact absurd h.present hgone
  | disarm n =>
    left
    simp only [step, disarm] at hgone
    unfold Endpoint.disarm at hgone
    split at hgone
    · exact absurd h.present hgone
    · rename_i id' hn
      change (s.removals.map Prod.fst)[n]? = some id' at hn
      rw [List.getElem?_map] at hn
      obtain ⟨p, hp, rfl⟩ := Option.map_eq_some_iff.mp hn
      -- a removal of another id takes nothing away from this one
      have heq : p.1 = id := by
        by_contra hne
        exact hgone (AList.mem_erase.mpr ⟨Ne.symm hne, h.present⟩)
      exact ⟨n, p.2, rfl, by rw [hp, ← heq]⟩
  | datagram bytes source now around =>
    exact absurd (Endpoint.mem_onDatagram (s := s.endpoint) h.present) hgone
  | tick now around =>
    exact Or.inr (Endpoint.tick_removed (s := s.endpoint) h.present hgone)
  | setPlayheadMs a ms now =>
    exact absurd (Endpoint.mem_setPlayheadMs (s := s.endpoint) h.present) hgone

/-! ## The invariants -/

/-- All numbers in use have been given out. -/
structure Numbered (s : Slots) : Prop where
  held : ∀ p ∈ s.held, p.1 < s.armed
  removals : ∀ p ∈ s.removals, p.2.arm < s.armed
  owner : ∀ id ∈ s.entries, s.owner id < s.armed

theorem Numbered.step (h : Numbered s) (x : Step) : Numbered (s.step x) := by
  -- a removal is on behalf of a value that was held, or of the entry found closed
  have hrem : ∀ p ∈ (s.step x).removals, p.2.arm < s.armed := by
    intro p hp
    rcases step_removals hp with hp | ⟨k, hk, heq⟩ | ⟨hid, heq⟩
    · exact h.removals p hp
    · rw [heq]
      exact h.held _ hk
    · rw [heq]
      exact h.owner _ hid
  rcases s.step_arms x with hn | ⟨a, key, cfg, now, -, -, heq⟩
  · refine ⟨fun p hp => ?_, fun p hp => ?_, fun id hid => ?_⟩
    · rw [hn.armed]
      exact h.held p (hn.held p hp)
    · rw [hn.armed]
      exact hrem p hp
    · rw [hn.armed, hn.owner]
      exact h.owner id (hn.entries id hid)
  · rw [heq] at hrem ⊢
    refine ⟨fun p hp => ?_, fun p hp => Nat.lt_succ_of_lt (hrem p hp), fun id hid => ?_⟩
    · rcases List.mem_append.mp hp with hp | hp
      · exact Nat.lt_succ_of_lt (h.held p hp)
      · cases List.mem_singleton.mp hp
        exact Nat.lt_succ_self _
    · show Function.update s.owner a s.armed id < s.armed + 1
      by_cases hid' : id = a
      · subst hid'
        rw [Function.update_self]
        exact Nat.lt_succ_self _
      · rw [Function.update_of_ne hid']
        exact Nat.lt_succ_of_lt (h.owner id (((AList.mem_insert _).mp hid).resolve_left hid'))

theorem numbered_run (steps : List Step) : Numbered (bind.run steps) := by
  induction steps using List.reverseRecOn with
  | nil => exact ⟨fun _ hp => (by cases hp), fun _ hp => (by cases hp), fun _ hid => (by cases hid)⟩
  | append_singleton steps x ih =>
    rw [run_concat]
    exact ih.step x

/-- While the entry that call `k` has created for `id` is there, every claim
on `id` is that call's. -/
structure Sole (k : Nat) (id : RequestId) (s : Slots) : Prop where
  given : k < s.armed
  removals : id ∈ s.entries → s.owner id = k → ∀ c, (id, c) ∈ s.removals → c.arm = k
  held : id ∈ s.entries → s.owner id = k → ∀ j, (j, id) ∈ s.held → j = k

theorem Sole.step (h : Sole k id s) (x : Step) : Sole k id (s.step x) := by
  rcases s.step_arms x with hn | ⟨a, key, cfg, now, -, hfree, heq⟩
  · refine ⟨hn.armed ▸ h.given, fun hid ho c hc => ?_, fun hid ho j hj => ?_⟩
    · rw [hn.owner] at ho
      rcases step_removals hc with hc | ⟨j, hj, hc⟩ | ⟨-, hc⟩
      · exact h.removals (hn.entries id hid) ho c hc
      · obtain rfl : c = .dropped j := hc
        exact h.held (hn.entries id hid) ho j hj
      · obtain rfl : c = .closed (s.owner id) := hc
        exact ho
    · rw [hn.owner] at ho
      exact h.held (hn.entries id hid) ho j (hn.held _ hj)
  · -- a new entry for `id` belongs to a later call
    rw [heq]
    have hsame : ∀ {P : Prop}, (id ≠ a → id ∈ s.entries → s.owner id = k → P) →
        id ∈ s.entries.insert a (Entry.new key cfg now) →
        Function.update s.owner a s.armed id = k → P := by
      intro P hP hid ho
      by_cases hid' : id = a
      · subst hid'
        rw [Function.update_self] at ho
        exact absurd ho (Nat.ne_of_gt h.given)
      · rw [Function.update_of_ne hid'] at ho
        exact hP hid' (((AList.mem_insert _).mp hid).resolve_left hid') ho
    refine ⟨Nat.lt_succ_of_lt h.given, hsame fun _ hid ho => h.removals hid ho,
      hsame fun hne hid ho j hj => ?_⟩
    rcases List.mem_append.mp hj with hj | hj
    · exact h.held hid ho j hj
    · cases List.mem_singleton.mp hj
      exact absurd rfl hne

theorem Sole.run (h : Sole k id s) (steps : List Step) : Sole k id (s.run steps) := by
  induction steps using List.reverseRecOn with
  | nil => exact h
  | append_singleton steps x ih =>
    rw [run_concat]
    exact ih.step x

theorem Sole.rightly (h : Sole k id s) (hr : Releases s x k id) : Rightly s x k id := by
  rcases hr.cases with ⟨n, c, rfl, hn⟩ | hright
  · have hc := h.removals hr.present hr.owner c (List.mem_of_getElem? hn)
    cases c with
    | dropped j =>
      cases hc
      exact Or.inl hn
    | closed j =>
      cases hc
      exact Or.inr hn
  · exact hright

/-! ## The claims on a slot -/

theorem step_arm_of_free (hfree : id ∉ s.entries) (key : SessionKey) (cfg : ReceiverConfig)
    (now : Instant) : s.step (.arm id key cfg now) = { s with
      entries := s.entries.insert id (Entry.new key cfg now)
      armed := s.armed + 1
      owner := Function.update s.owner id s.armed
      held := s.held ++ [(s.armed, id)] } := by
  rcases s.step_arms (.arm id key cfg now) with hn | ⟨_, _, _, _, heq, -, hs⟩
  · have hid : id ∈ (s.step (.arm id key cfg now)).entries := by
      have hnone : ¬ (s.endpoint.entries.lookup id).isSome :=
        fun h => hfree (AList.lookup_isSome.mp h)
      rw [step, arm, if_neg hfree, Endpoint.arm, if_neg hnone]
      exact (AList.mem_insert _).mpr (Or.inl rfl)
    exact absurd (hn.entries id hid) hfree
  · cases heq
    exact hs

theorem run_drop {i : Nat} (hi : s.held[i]? = some (k, id)) : s.run [.drop i] = { s with
    removals := s.removals ++ [(id, .dropped k)]
    held := s.held.eraseIdx i } := by
  simp only [run, List.foldl_cons, List.foldl_nil, step, drop, hi]

/-- Where a slot is kept for its owner, no removal for an earlier call gets
under way while the entry stands: it would take the entry away. -/
theorem KeptBy.not_earlier (h : KeptBy s k id) (howner : s.owner id = k) {more : List Step}
    (hn : ArmsNothing s (s.run more)) (hid : id ∈ (s.run more).entries) {c : Cause}
    (hc : (id, c) ∈ (s.run more).removals) : ¬ c.arm < k := by
  obtain ⟨n, hn'⟩ := List.mem_iff_getElem?.mp hc
  have hgone : id ∉ ((s.run more).step (.disarm n)).entries := by
    have hd : (s.run more).endpoint.disarms[n]? = some id := by
      rw [endpoint, List.getElem?_map, hn']
      rfl
    simp only [step, disarm, Endpoint.disarm, hd]
    exact fun h => (AList.mem_erase.mp h).1 rfl
  have hright := h more (.disarm n) ⟨hid, by rw [hn.owner]; exact howner, hgone⟩
  simp only [Rightly, hn', Option.some.injEq, Prod.mk.injEq, true_and] at hright
  rcases hright with rfl | rfl <;> exact Nat.lt_irrefl _

/-- **Slots released by their owner, exactly.** However things go on after
a call of `arm` that succeeds, its entry is only released for that call, if
and only if nobody laid claim to the request id when it was made. -/
theorem slot_released_by_owner_iff (steps : List Step) (id : RequestId) (key : SessionKey)
    (cfg : ReceiverConfig) (now : Instant) (hfree : id ∉ (bind.run steps).entries) :
    KeptBy ((bind.run steps).step (.arm id key cfg now)) (bind.run steps).armed id
      ↔ Unclaimed (bind.run steps) id := by
  have hnum := numbered_run steps
  generalize bind.run steps = s at hfree hnum
  have harm := step_arm_of_free hfree key cfg now
  generalize s.step (.arm id key cfg now) = s' at harm
  have hpresent : id ∈ s'.entries := by
    rw [harm]
    exact (AList.mem_insert _).mpr (Or.inl rfl)
  have howner : s'.owner id = s.armed := by
    rw [harm]
    exact Function.update_self ..
  constructor
  · intro hkept
    constructor
    · intro c hc
      refine @KeptBy.not_earlier s' s.armed id hkept howner []
        ⟨rfl, rfl, fun _ h => h, fun _ h => h⟩ hpresent c ?_ (hnum.removals _ hc)
      rw [run_nil, harm]
      exact hc
    · intro k hk
      obtain ⟨i, hi⟩ := List.mem_iff_getElem?.mp hk
      have hi' : s'.held[i]? = some (k, id) := by
        rw [harm]
        show (s.held ++ [(s.armed, id)])[i]? = _
        rw [List.getElem?_append_left (List.getElem?_eq_some_iff.mp hi).1]
        exact hi
      have hdrop := run_drop hi'
      refine @KeptBy.not_earlier s' s.armed id hkept howner [.drop i] ?_ ?_ (.dropped k) ?_
        (hnum.held _ hk)
      · rw [hdrop]
        exact ⟨rfl, rfl, fun _ hp => List.mem_of_mem_eraseIdx hp, fun _ h => h⟩
      · rw [hdrop]
        exact hpresent
      · rw [hdrop]
        simp
  · rintro ⟨hremovals, hheld⟩ more x hr
    have hsole : Sole s.armed id s' := by
      rw [harm]
      refine ⟨Nat.lt_succ_self _, fun _ _ c hc => absurd hc (hremovals c), fun _ _ j hj => ?_⟩
      rcases List.mem_append.mp hj with hj | hj
      · exact absurd hj (hheld j)
      · cases List.mem_singleton.mp hj
        rfl
    exact (hsole.run more).rightly hr

/-- A request goes idle, and a tick removes it; its `ArmedRequest` is still
held when the id is armed again. -/
def rearmSteps : List Step :=
  [.arm zeroId plainKey .audioEngine 0,
    .tick (fromSecs 16) fun _ => ⟨true, true, fromSecs 16, fromSecs 16⟩]

/-- Dropping the first `ArmedRequest` takes the second entry away. -/
theorem late_drop_releases_second :
    ¬ KeptBy ((bind.run rearmSteps).step (.arm zeroId plainKey .audioEngine (fromSecs 16))) 1
      zeroId := by
  intro h
  have hright := h [.drop 0] (.disarm 0) ⟨by decide +kernel, by decide +kernel, by decide +kernel⟩
  exact absurd hright (by unfold Rightly; decide +kernel)

/-- The first `ArmedRequest` is dropped, and its removal carried out, before
the id is armed again. -/
def handedBackSteps : List Step := [.arm zeroId plainKey .audioEngine 0, .drop 0, .disarm 0]

/-- The second entry is its owner's. -/
theorem slot_released_by_owner_iff_rearmed :
    KeptBy ((bind.run handedBackSteps).step (.arm zeroId plainKey .audioEngine (fromSecs 16))) 1
      zeroId :=
  (slot_released_by_owner_iff handedBackSteps zeroId plainKey .audioEngine (fromSecs 16)
    (by decide +kernel)).mpr ⟨fun _ h => (by cases h), fun _ h => (by cases h)⟩

end Slots

end Protofish4
