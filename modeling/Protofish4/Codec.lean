import Protofish4.Lib.BigEndian
import Protofish4.Frame

/-!
# Codec

`codec.rs`: fixed-layout big-endian bodies with no length prefix on the
trailing payload, their error paths, and the round trip from a body to its
bytes and back.
-/

namespace Protofish4

open BigEndian

/-- Largest Opus payload accepted in one `Data` packet. -/
def maxPayload : Nat := 1024

/-- Most sequence numbers one `Nack` may carry. -/
def maxNackEntries : Nat := 128

def u16Bytes (v : UInt16) : Bytes := toBE 2 v.toNat

def u32Bytes (v : UInt32) : Bytes := toBE 4 v.toNat

def u64Bytes (v : UInt64) : Bytes := toBE 8 v.toNat

/-- The entries of a `Nack`, one after the other. -/
def seqBytes (l : List XferSeq) : Bytes := l.flatMap fun s => u32Bytes s.val

def encodeBody : Body → Except Error Bytes
  | .data ts payload =>
    if payload.length > maxPayload then
      .error (.payloadTooLarge payload.length maxPayload)
    else .ok (u64Bytes ts.val ++ payload)
  | .end finalSeq => .ok (u32Bytes finalSeq.val)
  | .endAck => .ok []
  | .ack contiguous highest bufferedMs =>
    .ok (u32Bytes contiguous.val ++ u32Bytes highest.val ++ u16Bytes bufferedMs)
  | .nack missing =>
    if missing.length > maxNackEntries then
      .error (.payloadTooLarge missing.length maxNackEntries)
    else .ok (u16Bytes (UInt16.ofNat missing.length) ++ seqBytes missing)
  | .keepalive lostBelow => .ok (u32Bytes lostBelow.val)

def expectLen (buf : Bytes) (want : Nat) (kind : String) : Except Error Unit :=
  if buf.length < want then
    .error (.malformedBody kind "body shorter than the fixed layout")
  else if want < buf.length then .error (.trailingBytes kind)
  else .ok ()

def takeU16 (buf : Bytes) (i : Nat) (kind : String) : Except Error UInt16 :=
  match slice? buf i 2 with
  | some b => .ok (UInt16.ofNat (ofBE b))
  | none => .error (.malformedBody kind "truncated u16")

def takeU32 (buf : Bytes) (i : Nat) (kind : String) : Except Error UInt32 :=
  match slice? buf i 4 with
  | some b => .ok (UInt32.ofNat (ofBE b))
  | none => .error (.malformedBody kind "truncated u32")

def takeU64 (buf : Bytes) (i : Nat) (kind : String) : Except Error UInt64 :=
  match slice? buf i 8 with
  | some b => .ok (UInt64.ofNat (ofBE b))
  | none => .error (.malformedBody kind "truncated u64")

def decodeBody (kind : PacketKind) (buf : Bytes) : Except Error Body :=
  let name := kind.name
  match kind with
  | .data => do
    let ts ← takeU64 buf 0 name
    let payload := buf.drop 8
    if payload.length > maxPayload then
      .error (.payloadTooLarge payload.length maxPayload)
    else .ok (.data ⟨ts⟩ payload)
  | .end => do
    expectLen buf 4 name
    let v ← takeU32 buf 0 name
    .ok (.end ⟨v⟩)
  | .endAck => do
    expectLen buf 0 name
    .ok .endAck
  | .ack => do
    expectLen buf 10 name
    let contiguous ← takeU32 buf 0 name
    let highest ← takeU32 buf 4 name
    let bufferedMs ← takeU16 buf 8 name
    .ok (.ack ⟨contiguous⟩ ⟨highest⟩ bufferedMs)
  | .nack => do
    let count := (← takeU16 buf 0 name).toNat
    if count > maxNackEntries then .error (.payloadTooLarge count maxNackEntries)
    else do
      expectLen buf (2 + count * 4) name
      let missing ← (List.range count).mapM fun i => do
        let v ← takeU32 buf (2 + i * 4) name
        .ok (XferSeq.mk v)
      .ok (.nack missing)
  | .keepalive => do
    expectLen buf 4 name
    let v ← takeU32 buf 0 name
    .ok (.keepalive ⟨v⟩)

/-! ## Field reads -/

@[simp] theorem length_u16Bytes (v : UInt16) : (u16Bytes v).length = 2 := length_toBE 2 _

@[simp] theorem length_u32Bytes (v : UInt32) : (u32Bytes v).length = 4 := length_toBE 4 _

@[simp] theorem length_u64Bytes (v : UInt64) : (u64Bytes v).length = 8 := length_toBE 8 _

theorem takeU16_at (p q : Bytes) {i : Nat} (v : UInt16) (name : String)
    (hi : p.length = i) :
    takeU16 (p ++ u16Bytes v ++ q) i name = .ok v := by
  have hv : ofBE (u16Bytes v) = v.toNat := ofBE_toBE_of_lt (k := 2) (UInt16.toNat_lt v)
  rw [takeU16, slice?_append hi (length_u16Bytes v)]
  simp [hv]

theorem takeU32_at (p q : Bytes) {i : Nat} (v : UInt32) (name : String)
    (hi : p.length = i) :
    takeU32 (p ++ u32Bytes v ++ q) i name = .ok v := by
  have hv : ofBE (u32Bytes v) = v.toNat := ofBE_toBE_of_lt (k := 4) (UInt32.toNat_lt v)
  rw [takeU32, slice?_append hi (length_u32Bytes v)]
  simp [hv]

theorem takeU64_at (p q : Bytes) {i : Nat} (v : UInt64) (name : String)
    (hi : p.length = i) :
    takeU64 (p ++ u64Bytes v ++ q) i name = .ok v := by
  have hv : ofBE (u64Bytes v) = v.toNat := ofBE_toBE_of_lt (k := 8) (UInt64.toNat_lt v)
  rw [takeU64, slice?_append hi (length_u64Bytes v)]
  simp [hv]

/-- A body of one `u32` reads back. -/
theorem takeU32_whole (v : UInt32) (name : String) :
    takeU32 (u32Bytes v) 0 name = .ok v := by
  have h := takeU32_at [] [] (i := 0) v name rfl
  rwa [List.nil_append, List.append_nil] at h

theorem expectLen_of_eq {buf : Bytes} {want : Nat} (h : buf.length = want) (name : String) :
    expectLen buf want name = .ok () := by
  simp [expectLen, h]

/-! ## Encode, then decode -/

theorem length_seqBytes (l : List XferSeq) : (seqBytes l).length = l.length * 4 := by
  induction l with
  | nil => rfl
  | cons s l ih =>
    simp only [seqBytes, List.flatMap_cons, List.length_append, length_u32Bytes,
      List.length_cons] at ih ⊢
    omega

theorem seqBytes_append (l m : List XferSeq) : seqBytes (l ++ m) = seqBytes l ++ seqBytes m :=
  List.flatMap_append

/-- Entry `i` of a `Nack` sits at offset `2 + 4 i`. -/
theorem takeU32_entry (hdr : Bytes) (l : List XferSeq) (name : String) (i : Nat)
    (hi : i < l.length) (hdrLen : hdr.length = 2) :
    takeU32 (hdr ++ seqBytes l) (2 + i * 4) name = .ok l[i].val := by
  have hsplit : l = l.take i ++ ([l[i]] ++ l.drop (i + 1)) := by
    rw [List.singleton_append, List.getElem_cons_drop, List.take_append_drop]
  have hone : seqBytes [l[i]] = u32Bytes l[i].val := List.append_nil _
  have hlen : (hdr ++ seqBytes (l.take i)).length = 2 + i * 4 := by
    rw [List.length_append, length_seqBytes, hdrLen, List.length_take]
    omega
  have hbuf : hdr ++ seqBytes l
      = hdr ++ seqBytes (l.take i) ++ u32Bytes l[i].val ++ seqBytes (l.drop (i + 1)) := by
    conv_lhs => rw [hsplit]
    rw [seqBytes_append, seqBytes_append, hone]
    simp only [List.append_assoc]
  rw [hbuf]
  exact takeU32_at _ _ l[i].val name hlen

theorem mapM_ok {ε α β : Type} {f : α → Except ε β} {g : α → β} {l : List α}
    (h : ∀ a ∈ l, f a = .ok (g a)) : l.mapM f = .ok (l.map g) := by
  induction l with
  | nil => rfl
  | cons a l ih =>
    rw [List.mapM_cons, h a (by simp), ih fun b hb => h b (by simp [hb])]
    rfl

theorem decode_entries (hdr : Bytes) (l : List XferSeq) (name : String)
    (hdrLen : hdr.length = 2) :
    ((List.range l.length).mapM fun i => do
        let v ← takeU32 (hdr ++ seqBytes l) (2 + i * 4) name
        .ok (XferSeq.mk v) : Except Error (List XferSeq)) = .ok l := by
  have hstep : ∀ i ∈ List.range l.length, (do
        let v ← takeU32 (hdr ++ seqBytes l) (2 + i * 4) name
        .ok (XferSeq.mk v) : Except Error XferSeq) = .ok (l[i]?.getD XferSeq.first) := by
    intro i hi
    have hi' : i < l.length := List.mem_range.mp hi
    rw [takeU32_entry hdr l name i hi' hdrLen, List.getElem?_eq_getElem hi']
    rfl
  rw [mapM_ok hstep]
  congr 1
  apply List.ext_getElem
  · simp
  · intro i h1 h2
    simp [List.getElem?_eq_getElem h2]

/-- **Decoding inverts encoding**, for every body the encoder accepts. -/
theorem decodeBody_encodeBody {body : Body} {plaintext : Bytes}
    (h : encodeBody body = .ok plaintext) : decodeBody body.kind plaintext = .ok body := by
  cases body with
  | data ts payload =>
    simp only [encodeBody] at h
    split at h
    · cases h
    · rename_i hlen
      cases h
      have hts := takeU64_at [] payload (i := 0) ts.val "Data" rfl
      rw [List.nil_append] at hts
      have hdrop : (u64Bytes ts.val ++ payload).drop 8 = payload :=
        List.drop_left' (length_u64Bytes _)
      simp only [decodeBody, Body.kind, PacketKind.name, hts, hdrop, Bind.bind, Except.bind,
        if_neg hlen]
  | «end» finalSeq =>
    cases h
    simp only [decodeBody, Body.kind, PacketKind.name, takeU32_whole, Bind.bind, Except.bind,
      expectLen_of_eq (length_u32Bytes _)]
  | endAck =>
    cases h
    rfl
  | ack contiguous highest bufferedMs =>
    cases h
    -- each field is read at the offset it was written to
    have h1 := takeU32_at [] (u32Bytes highest.val ++ u16Bytes bufferedMs) (i := 0)
      contiguous.val "Ack" rfl
    have h2 := takeU32_at (u32Bytes contiguous.val) (u16Bytes bufferedMs)
      highest.val "Ack" (length_u32Bytes _)
    have h3 := takeU16_at (u32Bytes contiguous.val ++ u32Bytes highest.val) [] (i := 8)
      bufferedMs "Ack" (by simp)
    have hlen : (u32Bytes contiguous.val ++ u32Bytes highest.val
        ++ u16Bytes bufferedMs).length = 10 := by simp
    rw [List.nil_append, ← List.append_assoc] at h1
    rw [List.append_nil] at h3
    simp only [decodeBody, Body.kind, PacketKind.name, expectLen_of_eq hlen, h1, h2, h3,
      Bind.bind, Except.bind]
  | nack missing =>
    simp only [encodeBody] at h
    split at h
    · cases h
    · rename_i hlen
      cases h
      have hmax : maxNackEntries = 128 := rfl
      have hcount : (UInt16.ofNat missing.length).toNat = missing.length := by
        simp
        omega
      -- the count fits into its two bytes, and says how many entries follow
      have h1 := takeU16_at [] (seqBytes missing) (i := 0)
        (UInt16.ofNat missing.length) "Nack" rfl
      rw [List.nil_append] at h1
      have htotal : (u16Bytes (UInt16.ofNat missing.length) ++ seqBytes missing).length
          = 2 + missing.length * 4 := by
        rw [List.length_append, length_seqBytes, length_u16Bytes]
      have hbody := decode_entries (u16Bytes (UInt16.ofNat missing.length)) missing "Nack"
        (length_u16Bytes _)
      simp only [Bind.bind, Except.bind] at hbody
      simp only [decodeBody, Body.kind, PacketKind.name, h1, Bind.bind, Except.bind, hcount,
        if_neg hlen, expectLen_of_eq htotal, hbody]
  | keepalive lostBelow =>
    cases h
    simp only [decodeBody, Body.kind, PacketKind.name, takeU32_whole, Bind.bind, Except.bind,
      expectLen_of_eq (length_u32Bytes _)]

/-- Every accepted body fits far inside one datagram. -/
theorem length_encodeBody_le {body : Body} {plaintext : Bytes}
    (h : encodeBody body = .ok plaintext) : plaintext.length ≤ 1032 := by
  have hp : maxPayload = 1024 := rfl
  have hn : maxNackEntries = 128 := rfl
  cases body with
  | data ts payload =>
    simp only [encodeBody] at h
    split at h
    · cases h
    · cases h
      simp
      omega
  | nack missing =>
    simp only [encodeBody] at h
    split at h
    · cases h
    · cases h
      rw [List.length_append, length_seqBytes, length_u16Bytes]
      omega
  | «end» _ | endAck | ack _ _ _ | keepalive _ =>
    cases h
    simp

theorem bind_eq_ok {ε α β : Type} {x : Except ε α} {f : α → Except ε β} {b : β}
    (h : x >>= f = .ok b) : ∃ a, x = .ok a ∧ f a = .ok b := by
  cases x with
  | error e => cases h
  | ok a => exact ⟨a, rfl, h⟩

/-- A decoded body is of the kind the header names. -/
theorem decodeBody_kind {kind : PacketKind} {buf : Bytes} {body : Body}
    (h : decodeBody kind buf = .ok body) : body.kind = kind := by
  cases kind with
  | data =>
    obtain ⟨ts, -, h⟩ := bind_eq_ok h
    simp only at h
    split at h
    · cases h
    · cases h
      rfl
  | «end» =>
    obtain ⟨-, -, h⟩ := bind_eq_ok h
    obtain ⟨v, -, h⟩ := bind_eq_ok h
    cases h
    rfl
  | endAck =>
    obtain ⟨-, -, h⟩ := bind_eq_ok h
    cases h
    rfl
  | ack =>
    obtain ⟨-, -, h⟩ := bind_eq_ok h
    obtain ⟨contiguous, -, h⟩ := bind_eq_ok h
    obtain ⟨highest, -, h⟩ := bind_eq_ok h
    obtain ⟨bufferedMs, -, h⟩ := bind_eq_ok h
    cases h
    rfl
  | nack =>
    obtain ⟨count, -, h⟩ := bind_eq_ok h
    simp only at h
    split at h
    · cases h
    · obtain ⟨-, -, h⟩ := bind_eq_ok h
      obtain ⟨missing, -, h⟩ := bind_eq_ok h
      cases h
      rfl
  | keepalive =>
    obtain ⟨-, -, h⟩ := bind_eq_ok h
    obtain ⟨v, -, h⟩ := bind_eq_ok h
    cases h
    rfl

end Protofish4
