import Protofish4.Types

/-!
# Frame

`frame/tag.rs` and `frame/mod.rs`: the six packet kinds and the decrypted
body of a packet. The sequence number is not part of a body; it rides in
the cleartext header.
-/

namespace Protofish4

inductive PacketKind where
  | data
  | «end»
  | endAck
  | ack
  | nack
  | keepalive
  deriving DecidableEq, Repr

namespace PacketKind

/-- `kind as u8`. -/
def toU8 : PacketKind → UInt8
  | .data => 0x00
  | .end => 0x01
  | .endAck => 0x02
  | .ack => 0x03
  | .nack => 0x04
  | .keepalive => 0x05

def fromU8 (v : UInt8) : Except Error PacketKind :=
  if v = 0x00 then .ok .data
  else if v = 0x01 then .ok .end
  else if v = 0x02 then .ok .endAck
  else if v = 0x03 then .ok .ack
  else if v = 0x04 then .ok .nack
  else if v = 0x05 then .ok .keepalive
  else .error (.unknownKind v)

def name : PacketKind → String
  | .data => "Data"
  | .end => "End"
  | .endAck => "EndAck"
  | .ack => "Ack"
  | .nack => "Nack"
  | .keepalive => "Keepalive"

/-- The direction this kind only ever travels in. -/
def direction : PacketKind → Direction
  | .data | .end | .keepalive => .send
  | .endAck | .ack | .nack => .recv

/-- Which nonce counter space this kind draws from. -/
def seqClass : PacketKind → SeqClass
  | .data => .data
  | _ => .control

@[simp] theorem fromU8_toU8 (k : PacketKind) : fromU8 k.toU8 = .ok k := by
  cases k <;> rfl

theorem toU8_fromU8 {v : UInt8} {k : PacketKind} (h : fromU8 v = .ok k) : k.toU8 = v := by
  unfold fromU8 at h
  repeat' split at h
  all_goals first
    | (cases h; simp_all [toU8])
    | cases h

end PacketKind

/-- The decrypted body of a packet. -/
inductive Body where
  /-- One Opus frame, to be played at `ts`. -/
  | data (ts : TimestampMs) (payload : Bytes)
  /-- No more payload will be produced. -/
  | «end» (finalSeq : XferSeq)
  /-- Everything up to the final sequence number arrived. -/
  | endAck
  /-- The receiver's view of the transfer, in one packet. -/
  | ack (contiguous highest : XferSeq) (bufferedMs : UInt16)
  /-- These sequence numbers are missing. -/
  | nack (missing : List XferSeq)
  /-- Nothing to say; frames up to `lostBelow` are gone from the ring. -/
  | keepalive (lostBelow : XferSeq)
  deriving DecidableEq, Repr

def Body.kind : Body → PacketKind
  | .data .. => .data
  | .end _ => .end
  | .endAck => .endAck
  | .ack .. => .ack
  | .nack _ => .nack
  | .keepalive _ => .keepalive

/-- A payload frame handed up to the application. -/
structure Frame where
  seq : XferSeq
  ts : TimestampMs
  payload : Bytes
  deriving DecidableEq, Repr

end Protofish4
