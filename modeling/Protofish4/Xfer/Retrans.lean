import Protofish4.Types

/-!
# RetransRing

`xfer/retrans.rs`: the sealed datagrams held for retransmission. The ring
only ever stores ciphertext; eviction takes the oldest entry, and
`lostBelow` records the highest sequence number that has left, by
overflow or by acknowledgement.
-/

namespace Protofish4

structure RetransRing where
  /-- Front first. -/
  entries : List (XferSeq × Bytes)
  bytes : Nat
  maxFrames : Nat
  maxBytes : Nat
  lostBelow : Nat
  deriving DecidableEq

namespace RetransRing

def new (maxFrames maxBytes : Nat) : RetransRing where
  entries := []
  bytes := 0
  maxFrames := max maxFrames 1
  maxBytes := max maxBytes 1
  lostBelow := 0

def evictOldest (r : RetransRing) : Option (XferSeq × RetransRing) :=
  match r.entries with
  | [] => none
  | (seq, data) :: rest =>
    some (seq, { r with
      entries := rest
      bytes := r.bytes - data.length
      lostBelow := if r.lostBelow < seq.toNat then seq.toNat else r.lostBelow })

/-- The eviction loop of `push`, at most `fuel` rounds; each round removes
an entry. -/
def shrink : Nat → RetransRing → RetransRing
  | 0, r => r
  | fuel + 1, r =>
    if r.entries.length > r.maxFrames ∨ r.bytes > r.maxBytes then
      match r.evictOldest with
      | none => r
      | some (_, r') => shrink fuel r'
    else r

/-- Store a sealed datagram, evicting the oldest entries to stay in budget. -/
def push (r : RetransRing) (seq : XferSeq) (sealed : Bytes) : RetransRing :=
  let r := { r with
    bytes := r.bytes + sealed.length
    entries := r.entries ++ [(seq, sealed)] }
  shrink r.entries.length r

/-- The exact bytes previously sent for `seq`, if still held. -/
def get (r : RetransRing) (seq : XferSeq) : Option Bytes :=
  (r.entries.find? fun e => e.1 = seq).map (·.2)

/-- The eviction loop of `ack_through`. -/
def dropAcked : Nat → XferSeq → RetransRing → RetransRing
  | 0, _, r => r
  | fuel + 1, contiguous, r =>
    match r.entries with
    | [] => r
    | (seq, _) :: _ =>
      if seq.toNat > contiguous.toNat then r
      else
        match r.evictOldest with
        | none => r
        | some (_, r') => dropAcked fuel contiguous r'

/-- Drop everything the receiver has confirmed. -/
def ackThrough (r : RetransRing) (contiguous : XferSeq) : RetransRing :=
  let r := dropAcked r.entries.length contiguous r
  { r with
    lostBelow := if r.lostBelow < contiguous.toNat then contiguous.toNat else r.lostBelow }

/-! ## Entries, by number and by size -/

/-- The bytes of these datagrams. -/
def weight (entries : List (XferSeq × Bytes)) : Nat := (entries.map fun e => e.2.length).sum

@[simp] theorem weight_nil : weight [] = 0 := rfl

@[simp] theorem weight_cons (e : XferSeq × Bytes) (entries : List (XferSeq × Bytes)) :
    weight (e :: entries) = e.2.length + weight entries := by
  simp [weight]

@[simp] theorem weight_append (a b : List (XferSeq × Bytes)) :
    weight (a ++ b) = weight a + weight b := by
  simp [weight]

/-- The highest of these numbers, 0 if there are none. -/
def top (l : List Nat) : Nat := l.foldr max 0

theorem top_append (a b : List Nat) : top (a ++ b) = max (top a) (top b) := by
  induction a with
  | nil => exact (Nat.zero_max _).symm
  | cons n a ih =>
    show max n (top (a ++ b)) = max (max n (top a)) (top b)
    rw [ih, Nat.max_assoc]

theorem top_le {l : List Nat} {b : Nat} (h : ∀ n ∈ l, n ≤ b) : top l ≤ b :=
  List.max_le_of_forall_le l b h

def seqs (entries : List (XferSeq × Bytes)) : List Nat := entries.map fun e => e.1.toNat

theorem top_seqs_le {entries : List (XferSeq × Bytes)} {b : Nat}
    (h : ∀ e ∈ entries, e.1.toNat ≤ b) : top (seqs entries) ≤ b := by
  refine top_le fun n hn => ?_
  obtain ⟨e, he, rfl⟩ := List.mem_map.mp hn
  exact h e he

@[simp] theorem seqs_append (a b : List (XferSeq × Bytes)) : seqs (a ++ b) = seqs a ++ seqs b :=
  List.map_append

/-! ## Evictions

Both loops pop entries off the front, and do nothing else. -/

/-- The entries `gone` have been evicted, in this order. -/
structure Evicts (r : RetransRing) (gone : List (XferSeq × Bytes)) (r' : RetransRing) : Prop where
  entries : r.entries = gone ++ r'.entries
  bytes : r'.bytes = r.bytes - weight gone
  lostBelow : r'.lostBelow = max r.lostBelow (top (seqs gone))
  maxFrames : r'.maxFrames = r.maxFrames
  maxBytes : r'.maxBytes = r.maxBytes

namespace Evicts

variable {r r' r'' : RetransRing} {gone more : List (XferSeq × Bytes)}

theorem refl (r : RetransRing) : Evicts r [] r :=
  ⟨rfl, rfl, (Nat.max_zero _).symm, rfl, rfl⟩

theorem trans (h : Evicts r gone r') (h' : Evicts r' more r'') : Evicts r (gone ++ more) r'' where
  entries := by rw [h.entries, h'.entries, List.append_assoc]
  bytes := by rw [h'.bytes, h.bytes, weight_append, Nat.sub_sub]
  lostBelow := by rw [h'.lostBelow, h.lostBelow, seqs_append, top_append, Nat.max_assoc]
  maxFrames := h'.maxFrames.trans h.maxFrames
  maxBytes := h'.maxBytes.trans h.maxBytes

/-- A byte count that is exact stays so: no subtraction is cut short. -/
theorem exact (h : Evicts r gone r') (hb : r.bytes = weight r.entries) :
    r'.bytes = weight r'.entries := by
  rw [h.bytes, hb, h.entries, weight_append, Nat.add_sub_cancel_left]

end Evicts

theorem evictOldest_evicts {r r' : RetransRing} {seq : XferSeq}
    (h : r.evictOldest = some (seq, r')) : ∃ data, Evicts r [(seq, data)] r' := by
  unfold evictOldest at h
  cases he : r.entries with
  | nil => simp [he] at h
  | cons e rest =>
    obtain ⟨s, data⟩ := e
    simp only [he, Option.some.injEq, Prod.mk.injEq] at h
    obtain ⟨rfl, rfl⟩ := h
    refine ⟨data, he, by simp, ?_, rfl, rfl⟩
    show (if r.lostBelow < s.toNat then s.toNat else r.lostBelow) = max r.lostBelow (max s.toNat 0)
    split <;> omega

theorem shrink_evicts (fuel : Nat) (r : RetransRing) : ∃ gone, Evicts r gone (shrink fuel r) := by
  induction fuel generalizing r with
  | zero => exact ⟨[], .refl r⟩
  | succ fuel ih =>
    simp only [shrink]
    split
    · cases he : r.evictOldest with
      | none => exact ⟨[], .refl r⟩
      | some p =>
        obtain ⟨data, hone⟩ := evictOldest_evicts he
        obtain ⟨gone, hrest⟩ := ih p.2
        exact ⟨_, hone.trans hrest⟩
    · exact ⟨[], .refl r⟩

/-- The loop of `ack_through` pops the longest front whose numbers are
acknowledged. -/
theorem dropAcked_evicts (fuel : Nat) (c : XferSeq) (r : RetransRing)
    (hfuel : r.entries.length ≤ fuel) :
    ∃ gone, Evicts r gone (dropAcked fuel c r) ∧ (∀ e ∈ gone, e.1.toNat ≤ c.toNat)
      ∧ ∀ e ∈ (dropAcked fuel c r).entries.head?, c.toNat < e.1.toNat := by
  induction fuel generalizing r with
  | zero =>
    have hnil : r.entries = [] := List.length_eq_zero_iff.mp (Nat.le_zero.mp hfuel)
    exact ⟨[], .refl r, by simp, by simp [dropAcked, hnil]⟩
  | succ fuel ih =>
    cases hr : r.entries with
    | nil =>
      have hstop : dropAcked (fuel + 1) c r = r := by simp [dropAcked, hr]
      rw [hstop]
      exact ⟨[], .refl r, by simp, by simp [hr]⟩
    | cons front rest =>
      obtain ⟨seq, data⟩ := front
      by_cases hgt : seq.toNat > c.toNat
      · have hstop : dropAcked (fuel + 1) c r = r := by simp [dropAcked, hr, hgt]
        rw [hstop]
        exact ⟨[], .refl r, by simp, by simp [hr, hgt]⟩
      · obtain ⟨r', he⟩ : ∃ r', r.evictOldest = some (seq, r') := by simp [evictOldest, hr]
        have hgo : dropAcked (fuel + 1) c r = dropAcked fuel c r' := by
          simp [dropAcked, hr, hgt, he]
        obtain ⟨data', hone⟩ := evictOldest_evicts he
        have hlen := congrArg List.length hone.entries
        simp only [List.length_append, List.length_singleton] at hlen
        obtain ⟨gone, hrest, hle, hhead⟩ := ih r' (by omega)
        rw [hgo]
        refine ⟨_, hone.trans hrest, fun e hmem => ?_, hhead⟩
        rcases List.mem_cons.mp hmem with rfl | hmem
        · exact not_lt.mp hgt
        · exact hle e hmem

/-! ## Acknowledging -/

theorem ackThrough_entries (r : RetransRing) (c : XferSeq) :
    (r.ackThrough c).entries = r.entries.dropWhile (fun e => e.1.toNat ≤ c.toNat) := by
  obtain ⟨gone, hevicts, hle, hhead⟩ := dropAcked_evicts _ c r (Nat.le_refl _)
  rw [hevicts.entries, List.dropWhile_append_of_pos fun e he => decide_eq_true (hle e he)]
  show (dropAcked r.entries.length c r).entries = _
  cases hrest : (dropAcked r.entries.length c r).entries with
  | nil => rfl
  | cons e rest =>
    rw [hrest] at hhead
    rw [List.dropWhile_cons_of_neg (by simpa using hhead e rfl)]

/-- An acknowledgement moves `lostBelow` exactly up to its own floor. -/
theorem ackThrough_lostBelow (r : RetransRing) (c : XferSeq) :
    (r.ackThrough c).lostBelow = max r.lostBelow c.toNat := by
  obtain ⟨gone, hevicts, hle, -⟩ := dropAcked_evicts _ c r (Nat.le_refl _)
  have htop : top (seqs gone) ≤ c.toNat := top_seqs_le hle
  have hlost := hevicts.lostBelow
  simp only [ackThrough]
  split <;> omega

/-! ## Pushing -/

theorem push_evicts (r : RetransRing) (seq : XferSeq) (sealed : Bytes) :
    ∃ gone, Evicts { r with
      bytes := r.bytes + sealed.length
      entries := r.entries ++ [(seq, sealed)] } gone (r.push seq sealed) :=
  shrink_evicts _ _

/-- A push that evicts nothing appends its entry and keeps the rest. -/
theorem push_of_length {r : RetransRing} {seq : XferSeq} {sealed : Bytes}
    (h : r.entries.length + 1 ≤ (r.push seq sealed).entries.length) :
    (r.push seq sealed).entries = r.entries ++ [(seq, sealed)]
      ∧ (r.push seq sealed).lostBelow = r.lostBelow := by
  obtain ⟨gone, hevicts⟩ := push_evicts r seq sealed
  have hlen := congrArg List.length hevicts.entries
  simp only [List.length_append, List.length_singleton] at hlen
  have hnil : gone = [] := List.length_eq_zero_iff.mp (by omega)
  subst hnil
  exact ⟨hevicts.entries.symm, hevicts.lostBelow.trans (Nat.max_zero _)⟩

/-- What an eviction keeps, the eviction loop keeps. -/
theorem shrink_keeps (P : RetransRing → Prop)
    (hP : ∀ q seq q', q.evictOldest = some (seq, q') → P q → P q') (fuel : Nat)
    {q : RetransRing} (h : P q) : P (shrink fuel q) := by
  induction fuel generalizing q with
  | zero => exact h
  | succ fuel ih =>
    simp only [shrink]
    split
    · cases he : q.evictOldest with
      | none => exact h
      | some e => exact ih (hP q e.1 e.2 he h)
    · exact h

theorem evictOldest_some {q q' : RetransRing} {seq : XferSeq}
    (h : q.evictOldest = some (seq, q')) : ∃ data, q.entries = (seq, data) :: q'.entries
      ∧ q'.lostBelow = max q.lostBelow seq.toNat := by
  obtain ⟨data, hevicts⟩ := evictOldest_evicts h
  have htop : top (seqs [(seq, data)]) = seq.toNat := Nat.max_zero _
  exact ⟨data, hevicts.entries, htop ▸ hevicts.lostBelow⟩

theorem push_keeps (P : RetransRing → Prop)
    (hP : ∀ q seq q', q.evictOldest = some (seq, q') → P q → P q') {r : RetransRing}
    {seq : XferSeq} {sealed : Bytes}
    (h : P { r with
      bytes := r.bytes + sealed.length
      entries := r.entries ++ [(seq, sealed)] }) : P (r.push seq sealed) :=
  shrink_keeps P hP _ h

/-- Every entry of the ring after a push was there before, or is the new
one. -/
theorem mem_push {r : RetransRing} {seq : XferSeq} {sealed : Bytes} {e : XferSeq × Bytes}
    (h : e ∈ (r.push seq sealed).entries) : e ∈ r.entries ∨ e = (seq, sealed) := by
  obtain ⟨gone, hevicts⟩ := push_evicts r seq sealed
  have hentries : r.entries ++ [(seq, sealed)] = gone ++ (r.push seq sealed).entries :=
    hevicts.entries
  have hmem : e ∈ r.entries ++ [(seq, sealed)] := by
    rw [hentries]
    exact List.mem_append_right _ h
  simpa using hmem

/-- A push never lowers `lostBelow`. -/
theorem lostBelow_le_push (r : RetransRing) (seq : XferSeq) (sealed : Bytes) :
    r.lostBelow ≤ (r.push seq sealed).lostBelow := by
  obtain ⟨gone, hevicts⟩ := push_evicts r seq sealed
  rw [hevicts.lostBelow]
  exact Nat.le_max_left _ _

theorem mem_ackThrough {r : RetransRing} {c : XferSeq} {e : XferSeq × Bytes}
    (h : e ∈ (r.ackThrough c).entries) : e ∈ r.entries := by
  rw [ackThrough_entries] at h
  exact (List.dropWhile_sublist _).subset h

theorem get_mem {r : RetransRing} {seq : XferSeq} {d : Bytes} (h : r.get seq = some d) :
    (seq, d) ∈ r.entries := by
  unfold get at h
  cases hf : r.entries.find? fun e => e.1 = seq with
  | none => simp [hf] at h
  | some e =>
    simp only [hf, Option.map_some, Option.some.injEq] at h
    have h1 := List.find?_some hf
    have h2 := List.mem_of_find?_eq_some hf
    simp only [decide_eq_true_iff] at h1
    obtain ⟨s, d'⟩ := e
    subst h1 h
    exact h2

/-- What is held can be had back. -/
theorem exists_get {r : RetransRing} {seq : XferSeq} (h : ∃ e ∈ r.entries, e.1 = seq) :
    ∃ d, r.get seq = some d := by
  obtain ⟨e, he, heq⟩ := h
  have hsome : (r.entries.find? fun e => e.1 = seq).isSome := by
    rw [List.find?_isSome]
    exact ⟨e, he, by simpa using heq⟩
  obtain ⟨e', he'⟩ := Option.isSome_iff_exists.mp hsome
  exact ⟨e'.2, by rw [get, he']; rfl⟩

end RetransRing

end Protofish4
