import Mathlib

/-!
# Types

The value types of `types.rs` and `error.rs`. Sequence numbers, counters
and timestamps keep the widths of the source (`u32`, `u64`, `u16`); the
state machines compute with their `toNat`.

Clocks: an `Instant` is a whole number of nanoseconds on one machine's
monotonic clock (an `Int`, so that an instant one hour before any other is
always representable), a `Duration` a natural number of them.
-/

namespace Protofish4

abbrev Bytes := List UInt8

/-! ## Time -/

abbrev Instant := Int

abbrev Duration := Nat

/-- `Duration::from_millis`. -/
def fromMillis (ms : Nat) : Duration := ms * 1000000

/-- `Duration::from_secs`. -/
def fromSecs (s : Nat) : Duration := s * 1000000000

/-- `Instant::duration_since`, which saturates at zero. -/
def durationSince (now earlier : Instant) : Duration := (now - earlier).toNat

theorem durationSince_mono {now now' earlier : Instant} (h : now ≤ now') :
    durationSince now earlier ≤ durationSince now' earlier :=
  Int.toNat_le_toNat (Int.sub_le_sub_right h earlier)

theorem le_durationSince {now earlier : Int} {d : Nat} (h : earlier + d ≤ now) :
    d ≤ durationSince now earlier := by
  unfold durationSince
  omega

/-! ## Identifiers and counters -/

/-- The sixteen raw bytes of a v4 UUID. -/
structure RequestId where
  bytes : Bytes
  len : bytes.length = 16
  deriving DecidableEq

/-- Position of a payload frame within a transfer. Starts at 1. -/
structure XferSeq where
  val : UInt32
  deriving DecidableEq, Repr

namespace XferSeq

def toNat (s : XferSeq) : Nat := s.val.toNat

/-- The sequence number a `u32` computation yields, as `XferSeq(n)`. -/
def ofNat (n : Nat) : XferSeq := ⟨UInt32.ofNat n⟩

def first : XferSeq := ofNat 1

/-- `saturating_add(1)`. -/
def next (s : XferSeq) : XferSeq := ofNat (min (s.toNat + 1) (2 ^ 32 - 1))

theorem toNat_lt (s : XferSeq) : s.toNat < 2 ^ 32 := UInt32.toNat_lt s.val

@[simp] theorem ofNat_toNat (s : XferSeq) : ofNat s.toNat = s := by
  simp [ofNat, toNat]

theorem toNat_ofNat {n : Nat} (h : n < 2 ^ 32) : (ofNat n).toNat = n := by
  simp [ofNat, toNat]
  omega

theorem toNat_ofNat_le (n : Nat) : (ofNat n).toNat ≤ n := by
  simp only [ofNat, toNat, UInt32.toNat_ofNat']
  exact Nat.mod_le _ _

@[simp] theorem toNat_first : first.toNat = 1 := rfl

theorem toNat_next (s : XferSeq) :
    s.next.toNat = min (s.toNat + 1) (2 ^ 32 - 1) :=
  toNat_ofNat (by omega)

end XferSeq

/-- Monotonic counter for control packets, kept per direction. -/
structure ControlSeq where
  val : UInt32
  deriving DecidableEq, Repr

namespace ControlSeq

def first : ControlSeq := ⟨0⟩

/-- `wrapping_add(1)`. -/
def next (s : ControlSeq) : ControlSeq := ⟨s.val + 1⟩

end ControlSeq

/-- Playback timestamp of a payload frame, in milliseconds. -/
structure TimestampMs where
  val : UInt64
  deriving DecidableEq, Repr

/-- Which end a packet came from. -/
inductive Direction where
  /-- Tap to sink: payload, plus `End` and `Keepalive`. -/
  | send
  /-- Sink to tap: `Ack`, `Nack`, `EndAck`. -/
  | recv
  deriving DecidableEq, Repr

def Direction.toU8 : Direction → UInt8
  | .send => 0x00
  | .recv => 0x01

/-- Nonce counter space. -/
inductive SeqClass where
  | data
  | control
  deriving DecidableEq, Repr

def SeqClass.toU8 : SeqClass → UInt8
  | .data => 0x00
  | .control => 0x01

/-! ## Outcomes -/

inductive RelAbortReason where
  | unrecoverableGap
  | bufferExhausted
  | stalled
  | senderDiscarded
  | peerGone
  | notAttempted
  deriving DecidableEq, Repr

/-- How a reliable stream ended. -/
inductive RelOutcome where
  | complete (finalSeq : XferSeq)
  | aborted (reason : RelAbortReason)
  deriving DecidableEq, Repr

/-- The errors of `protofish4_proto::Error` that the modelled functions
return, with the data they carry. -/
inductive Error where
  | truncated (need got : Nat)
  | unsupportedVersion (v : UInt8)
  | unknownKind (v : UInt8)
  | malformedBody (kind reason : String)
  | trailingBytes (kind : String)
  | decryptFailed (id : RequestId)
  | replay (counter : Nat)
  | payloadTooLarge (got max : Nat)
  | wrongDirection (kind : String)
  deriving DecidableEq

end Protofish4
