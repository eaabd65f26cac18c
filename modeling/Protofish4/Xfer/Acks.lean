import Protofish4.Lib.Fold
import Protofish4.Xfer.Ring
import Protofish4.Xfer.Sender

/-!
# Late, repeated and reordered acknowledgements

An `Ack` moves two things that count for later: the highest number the
receiver admits to, and the ring. Both only go up, the lower of two `Ack`s
adds nothing to the higher one, and so it does not matter in which order
or how often they come in.
-/

namespace Protofish4

namespace RetransRing

/-- What an acknowledgement takes out of the byte count. -/
theorem ackThrough_bytes (r : RetransRing) (c : XferSeq) : (r.ackThrough c).bytes
    = r.bytes - weight (r.entries.takeWhile fun e => e.1.toNat ≤ c.toNat) := by
  obtain ⟨gone, hevicts, -⟩ := dropAcked_evicts _ c r (Nat.le_refl _)
  have hentries : r.entries = gone ++ (r.ackThrough c).entries := hevicts.entries
  rw [ackThrough_entries] at hentries
  have htake := @List.takeWhile_append_dropWhile _ (fun e => decide (e.1.toNat ≤ c.toNat)) r.entries
  rw [List.append_cancel_right (htake.trans hentries)]
  exact hevicts.bytes

theorem ackThrough_budgets (r : RetransRing) (c : XferSeq) :
    (r.ackThrough c).maxFrames = r.maxFrames ∧ (r.ackThrough c).maxBytes = r.maxBytes := by
  obtain ⟨gone, hevicts, -⟩ := dropAcked_evicts _ c r (Nat.le_refl _)
  exact ⟨hevicts.maxFrames, hevicts.maxBytes⟩

/-- Dropping while the weaker test holds makes no difference to dropping
while the stronger one does. -/
theorem dropWhile_of_imp {α : Type*} {p q : α → Bool} (h : ∀ e, p e = true → q e = true)
    (l : List α) :
    (l.dropWhile p).dropWhile q = l.dropWhile q ∧ (l.dropWhile q).dropWhile p = l.dropWhile q := by
  induction l with
  | nil => exact ⟨rfl, rfl⟩
  | cons e l ih =>
    by_cases hq : q e = true
    · rw [List.dropWhile_cons_of_pos hq]
      refine ⟨?_, ih.2⟩
      by_cases hp : p e = true
      · rw [List.dropWhile_cons_of_pos hp]
        exact ih.1
      · rw [List.dropWhile_cons_of_neg hp, List.dropWhile_cons_of_pos hq]
    · have hp : ¬ p e = true := fun hp => hq (h e hp)
      rw [List.dropWhile_cons_of_neg hp, List.dropWhile_cons_of_neg hq,
        List.dropWhile_cons_of_neg hp]
      exact ⟨rfl, rfl⟩

theorem weight_split (p : XferSeq × Bytes → Bool) (l : List (XferSeq × Bytes)) :
    weight (l.takeWhile p) + weight (l.dropWhile p) = weight l := by
  rw [← weight_append, List.takeWhile_append_dropWhile]

theorem ext {r r' : RetransRing} (hentries : r.entries = r'.entries) (hbytes : r.bytes = r'.bytes)
    (hframes : r.maxFrames = r'.maxFrames) (hmax : r.maxBytes = r'.maxBytes)
    (hlost : r.lostBelow = r'.lostBelow) : r = r' := by
  cases r
  cases r'
  cases hentries
  cases hbytes
  cases hframes
  cases hmax
  cases hlost
  rfl

/-- Two floors in a row take as many bytes as the entries they take weigh,
so the one that leaves the same entries takes the same. -/
theorem ackThrough_bytes_eq (r : RetransRing) {c c' k : XferSeq}
    (h : ((r.ackThrough c).ackThrough c').entries = (r.ackThrough k).entries) :
    ((r.ackThrough c).ackThrough c').bytes = (r.ackThrough k).bytes := by
  simp only [ackThrough_entries] at h
  have hfirst := weight_split (fun e => decide (e.1.toNat ≤ c.toNat)) r.entries
  have hsecond := weight_split (fun e => decide (e.1.toNat ≤ c'.toNat))
    (r.entries.dropWhile fun e => decide (e.1.toNat ≤ c.toNat))
  have hboth := weight_split (fun e => decide (e.1.toNat ≤ k.toNat)) r.entries
  rw [h] at hsecond
  rw [ackThrough_bytes, ackThrough_bytes, ackThrough_bytes, ackThrough_entries, Nat.sub_sub]
  congr 1
  omega

/-- **The lower floor adds nothing**, before the higher one or after it. -/
theorem ackThrough_of_le (r : RetransRing) {c c' : XferSeq} (h : c.toNat ≤ c'.toNat) :
    (r.ackThrough c).ackThrough c' = r.ackThrough c'
      ∧ (r.ackThrough c').ackThrough c = r.ackThrough c' := by
  obtain ⟨hlow, hhigh⟩ := dropWhile_of_imp (p := fun e => decide (e.1.toNat ≤ c.toNat))
    (q := fun e => decide (e.1.toNat ≤ c'.toNat))
    (fun e he => decide_eq_true ((of_decide_eq_true he).trans h)) r.entries
  have hbefore : ((r.ackThrough c).ackThrough c').entries = (r.ackThrough c').entries := by
    simp only [ackThrough_entries]
    exact hlow
  have hafter : ((r.ackThrough c').ackThrough c).entries = (r.ackThrough c').entries := by
    simp only [ackThrough_entries]
    exact hhigh
  constructor
  · refine ext hbefore (ackThrough_bytes_eq r hbefore) ?_ ?_ ?_
    · simp only [ackThrough_budgets]
    · simp only [ackThrough_budgets]
    · simp only [ackThrough_lostBelow]
      omega
  · refine ext hafter (ackThrough_bytes_eq r hafter) ?_ ?_ ?_
    · simp only [ackThrough_budgets]
    · simp only [ackThrough_budgets]
    · simp only [ackThrough_lostBelow]
      omega

theorem ackThrough_comm (r : RetransRing) (c c' : XferSeq) :
    (r.ackThrough c).ackThrough c' = (r.ackThrough c').ackThrough c := by
  rcases Nat.le_total c.toNat c'.toNat with h | h
  · obtain ⟨h1, h2⟩ := ackThrough_of_le r h
    rw [h1, h2]
  · obtain ⟨h1, h2⟩ := ackThrough_of_le r h
    rw [h1, h2]

end RetransRing

/-! ## The sender -/

/-- An `Ack` and the time it is handled at. -/
structure AckPacket where
  contiguous : XferSeq
  highest : XferSeq
  bufferedMs : UInt16
  now : Instant
  deriving DecidableEq

namespace AckPacket

def call (a : AckPacket) : SendCall := .handle (.ack a.contiguous a.highest a.bufferedMs) a.now

/-- What it says about the transfer. -/
def pair (a : AckPacket) : XferSeq × XferSeq := (a.contiguous, a.highest)

end AckPacket

namespace XferSender

/-- The sender after these acknowledgements. -/
def hear (s : XferSender) (acks : List AckPacket) : XferSender :=
  (Machine.run step s (acks.map AckPacket.call)).1

/-- What an acknowledgement makes of the highest number admitted to and of
the ring. -/
def settle (p : Nat × RetransRing) (a : XferSeq × XferSeq) : Nat × RetransRing :=
  (max p.1 a.2.toNat, p.2.ackThrough a.1)

theorem hear_concat (s : XferSender) (acks : List AckPacket) (a : AckPacket) :
    s.hear (acks ++ [a]) = (s.hear acks).onAck a.contiguous a.highest a.bufferedMs := by
  rw [hear, List.map_append, Machine.run_append]
  rfl

theorem onAck_settles (s : XferSender) (contiguous highest : XferSeq) (bufferedMs : UInt16) :
    ((s.onAck contiguous highest bufferedMs).ackedHighest,
        (s.onAck contiguous highest bufferedMs).ring)
      = settle (s.ackedHighest, s.ring) (contiguous, highest) := by
  refine Prod.ext ?_ rfl
  show (if highest.toNat > s.ackedHighest then highest.toNat else s.ackedHighest)
    = max s.ackedHighest highest.toNat
  split <;> omega

theorem hear_eq (s : XferSender) (acks : List AckPacket) :
    ((s.hear acks).ackedHighest, (s.hear acks).ring)
      = (acks.map AckPacket.pair).foldl settle (s.ackedHighest, s.ring) := by
  induction acks using List.reverseRecOn with
  | nil => rfl
  | append_singleton acks a ih =>
    rw [hear_concat, onAck_settles, ih, List.map_append, List.map_singleton, List.foldl_concat]
    rfl

theorem settle_comm (p : Nat × RetransRing) (a b : XferSeq × XferSeq) :
    settle (settle p a) b = settle (settle p b) a :=
  Prod.ext (Nat.max_right_comm _ _ _) (RetransRing.ackThrough_comm p.2 a.1 b.1)

theorem settle_settle (p : Nat × RetransRing) (a : XferSeq × XferSeq) :
    settle (settle p a) a = settle p a := by
  refine Prod.ext ?_ (RetransRing.ackThrough_of_le p.2 (Nat.le_refl _)).1
  show max (max p.1 a.2.toNat) a.2.toNat = max p.1 a.2.toNat
  omega

/-- Neither the highest number admitted to nor `lostBelow` goes down. -/
def Advances (s s' : XferSender) : Prop :=
  s.ackedHighest ≤ s'.ackedHighest ∧ s.ring.lostBelow ≤ s'.ring.lostBelow

theorem advances_onAck (s : XferSender) (contiguous highest : XferSeq) (bufferedMs : UInt16) :
    Advances s (s.onAck contiguous highest bufferedMs) := by
  have h := onAck_settles s contiguous highest bufferedMs
  constructor
  · rw [(Prod.mk.inj h).1]
    exact Nat.le_max_left _ _
  · rw [(Prod.mk.inj h).2]
    show _ ≤ (s.ring.ackThrough contiguous).lostBelow
    rw [RetransRing.ackThrough_lostBelow]
    exact Nat.le_max_left _ _

/-- **Acknowledgements may come late, twice or out of order.** What they
leave of window and ring depends on the set of their pairs, and each of
them only moves it forward. -/
theorem acks_order_free (s : XferSender) (acks acks' : List AckPacket)
    (h : ∀ p, p ∈ acks.map AckPacket.pair ↔ p ∈ acks'.map AckPacket.pair) :
    (s.hear acks).ackedHighest = (s.hear acks').ackedHighest
      ∧ (s.hear acks).ring = (s.hear acks').ring
      ∧ ∀ before a after, acks = before ++ a :: after →
        Advances (s.hear before) (s.hear (before ++ [a])) := by
  have heq := Fold.foldl_eq_of_mem_iff settle_comm settle_settle h (s.ackedHighest, s.ring)
  rw [← hear_eq, ← hear_eq, Prod.mk.injEq] at heq
  refine ⟨heq.1, heq.2, fun before a after _ => ?_⟩
  rw [hear_concat]
  exact advances_onAck _ _ _ _

/-- A sender with three frames in its ring. -/
def threeHeld : XferSender :=
  (Machine.run step (new {})
    [.recordSealed (.ofNat 1) [1], .recordSealed (.ofNat 2) [2], .recordSealed (.ofNat 3) [3]]).1

/-- The later acknowledgement overtakes the earlier one, which comes twice. -/
theorem acks_order_free_overtaking :
    (threeHeld.hear [⟨.ofNat 1, .ofNat 2, 0, 0⟩, ⟨.ofNat 2, .ofNat 3, 9, 1⟩]).ring
      = (threeHeld.hear [⟨.ofNat 2, .ofNat 3, 9, 1⟩, ⟨.ofNat 1, .ofNat 2, 0, 2⟩,
        ⟨.ofNat 1, .ofNat 2, 5, 3⟩]).ring :=
  (acks_order_free threeHeld _ _ fun p => by simp [AckPacket.pair, or_comm]).2.1

end XferSender

end Protofish4
