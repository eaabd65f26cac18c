import Protofish4.Codec

/-!
# Header

`header.rs`: the 22 cleartext bytes before the sealed body, and the round
trip between a header and its bytes.
-/

namespace Protofish4

open BigEndian

/-- Wire version carried in every datagram. -/
def version : UInt8 := 0x04

/-- Size of the cleartext header, in bytes. -/
def headerLen : Nat := 22

structure Header where
  kind : PacketKind
  requestId : RequestId
  /-- The transfer sequence number for `Data`, else that direction's
  control counter. -/
  seq : UInt32
  deriving DecidableEq

namespace Header

/-- The sixteen bytes from offset 2, present in any buffer that passed the
length check. -/
def idOf (buf : Bytes) (h : ¬ buf.length < headerLen) : RequestId where
  bytes := (buf.drop 2).take 16
  len := by
    simp only [headerLen] at h
    simp
    omega

/-- Parse the header, returning it with the remaining (still sealed) bytes. -/
def parse (buf : Bytes) : Except Error (Header × Bytes) :=
  if h : buf.length < headerLen then .error (.truncated headerLen buf.length)
  else if buf.getD 0 0 ≠ version then .error (.unsupportedVersion (buf.getD 0 0))
  else do
    let kind ← PacketKind.fromU8 (buf.getD 1 0)
    let seq := UInt32.ofNat (ofBE ((buf.drop 18).take 4))
    .ok (⟨kind, idOf buf h, seq⟩, buf.drop headerLen)

def toBytes (h : Header) : Bytes :=
  [version, h.kind.toU8] ++ h.requestId.bytes ++ u32Bytes h.seq

/-- Read just the request id. Tolerates kinds it does not recognise. -/
def peekRequestId (buf : Bytes) : Except Error RequestId :=
  if h : buf.length < headerLen then .error (.truncated headerLen buf.length)
  else if buf.getD 0 0 ≠ version then .error (.unsupportedVersion (buf.getD 0 0))
  else .ok (idOf buf h)

@[simp] theorem length_toBytes (h : Header) : h.toBytes.length = headerLen := by
  simp [toBytes, headerLen, h.requestId.len]

theorem idOf_toBytes (h : Header) (rest : Bytes)
    (hlen : ¬ (h.toBytes ++ rest).length < headerLen) :
    idOf (h.toBytes ++ rest) hlen = h.requestId := by
  have hid : h.requestId.bytes.length = 16 := h.requestId.len
  have hbytes : ((h.toBytes ++ rest).drop 2).take 16 = h.requestId.bytes := by
    simp only [toBytes, List.cons_append, List.nil_append, List.append_assoc, List.drop_succ_cons,
      List.drop_zero]
    exact List.take_left' hid
  cases hr : h.requestId with
  | mk bytes len =>
    rw [hr] at hbytes
    simp only [idOf, RequestId.mk.injEq]
    exact hbytes

/-- A header parses back from its own bytes, whatever follows them. -/
theorem parse_toBytes (h : Header) (rest : Bytes) :
    parse (h.toBytes ++ rest) = .ok (h, rest) := by
  have hid : h.requestId.bytes.length = 16 := h.requestId.len
  have hlen : ¬ (h.toBytes ++ rest).length < headerLen := by
    rw [List.length_append, length_toBytes]
    omega
  have hseq : ((h.toBytes ++ rest).drop 18).take 4 = u32Bytes h.seq := by
    have hfront : ([version, h.kind.toU8] ++ h.requestId.bytes).length = 18 := by simp [hid]
    rw [toBytes, List.append_assoc, List.drop_left' hfront]
    exact List.take_left' (length_u32Bytes _)
  have hv : ofBE (u32Bytes h.seq) = h.seq.toNat :=
    ofBE_toBE_of_lt (k := 4) (UInt32.toNat_lt h.seq)
  have hrest : (h.toBytes ++ rest).drop headerLen = rest := List.drop_left' (length_toBytes h)
  have h0 : (h.toBytes ++ rest)[0]?.getD 0 = version := rfl
  have h1 : (h.toBytes ++ rest)[1]?.getD 0 = h.kind.toU8 := rfl
  simp [parse, h0, h1, hseq, hv, hrest, idOf_toBytes, Bind.bind, Except.bind]

theorem peekRequestId_toBytes (h : Header) (rest : Bytes) :
    peekRequestId (h.toBytes ++ rest) = .ok h.requestId := by
  have hlen : ¬ (h.toBytes ++ rest).length < headerLen := by
    rw [List.length_append, length_toBytes]
    omega
  have h0 : (h.toBytes ++ rest)[0]?.getD 0 = version := rfl
  simp [peekRequestId, h0, idOf_toBytes]

end Header

end Protofish4
