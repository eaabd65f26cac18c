import Protofish4.Crypto

/-!
# Wire

The other direction of the wire format: what parses and decodes is exactly
what would have been built. With the round trips of the layers below, the
datagrams that open and decode correspond one to one to header and body.
-/

namespace Protofish4

open BigEndian

/-! ## Decode, then encode -/

theorem expectLen_eq_ok {buf : Bytes} {want : Nat} {name : String} {u : Unit}
    (h : expectLen buf want name = .ok u) : buf.length = want := by
  unfold expectLen at h
  split at h
  · cases h
  · split at h
    · cases h
    · omega

theorem takeU16_eq_ok {buf : Bytes} {i : Nat} {name : String} {v : UInt16}
    (h : takeU16 buf i name = .ok v) : slice? buf i 2 = some (u16Bytes v) := by
  unfold takeU16 at h
  split at h
  · rename_i b hb
    cases h
    have hlt := ofBE_lt b
    rw [slice?_length hb] at hlt
    have hv : (UInt16.ofNat (ofBE b)).toNat = ofBE b := by
      simp
      omega
    rw [hb, u16Bytes, hv, toBE_ofBE_of_length (slice?_length hb)]
  · cases h

theorem takeU32_eq_ok {buf : Bytes} {i : Nat} {name : String} {v : UInt32}
    (h : takeU32 buf i name = .ok v) : slice? buf i 4 = some (u32Bytes v) := by
  unfold takeU32 at h
  split at h
  · rename_i b hb
    cases h
    have hlt := ofBE_lt b
    rw [slice?_length hb] at hlt
    have hv : (UInt32.ofNat (ofBE b)).toNat = ofBE b := by
      simp
      omega
    rw [hb, u32Bytes, hv, toBE_ofBE_of_length (slice?_length hb)]
  · cases h

theorem takeU64_eq_ok {buf : Bytes} {i : Nat} {name : String} {v : UInt64}
    (h : takeU64 buf i name = .ok v) : slice? buf i 8 = some (u64Bytes v) := by
  unfold takeU64 at h
  split at h
  · rename_i b hb
    cases h
    have hlt := ofBE_lt b
    rw [slice?_length hb] at hlt
    have hv : (UInt64.ofNat (ofBE b)).toNat = ofBE b := by
      simp
      omega
    rw [hb, u64Bytes, hv, toBE_ofBE_of_length (slice?_length hb)]
  · cases h

/-- A body that is one `u32`. -/
theorem u32Bytes_of_takeU32 {buf : Bytes} {name : String} {v : UInt32} (hlen : buf.length = 4)
    (h : takeU32 buf 0 name = .ok v) : u32Bytes v = buf := by
  have hs := slice?_eq_some (takeU32_eq_ok h)
  rw [hs, List.drop_zero, List.take_of_length_le hlen.le]

/-- The entries read one after the other are the bytes after the count. -/
theorem seqBytes_of_mapM {buf : Bytes} {name : String} {n : Nat} {missing : List XferSeq}
    (h : ((List.range n).mapM fun i => do
        let v ← takeU32 buf (2 + i * 4) name
        .ok (XferSeq.mk v) : Except Error (List XferSeq)) = .ok missing) :
    missing.length = n ∧ seqBytes missing = (buf.drop 2).take (n * 4) := by
  induction n generalizing missing with
  | zero =>
    cases h
    exact ⟨rfl, rfl⟩
  | succ n ih =>
    rw [List.range_succ, List.mapM_append] at h
    obtain ⟨front, hfront, h⟩ := bind_eq_ok h
    obtain ⟨last, hlast, h⟩ := bind_eq_ok h
    cases h
    obtain ⟨hlen, hbytes⟩ := ih hfront
    rw [List.mapM_cons, List.mapM_nil] at hlast
    obtain ⟨s, hs, hlast⟩ := bind_eq_ok hlast
    obtain ⟨v, hv, hs⟩ := bind_eq_ok hs
    cases hs
    cases hlast
    have hslice := slice?_eq_some (takeU32_eq_ok hv)
    have hone : seqBytes [XferSeq.mk v] = u32Bytes v := List.append_nil _
    refine ⟨by simp [hlen], ?_⟩
    rw [seqBytes_append, hone, hbytes, hslice, Nat.add_mul, Nat.one_mul, List.take_add,
      List.drop_drop]

/-- **Encoding inverts decoding**, for every byte string the decoder
accepts. -/
theorem encodeBody_decodeBody {kind : PacketKind} {buf : Bytes} {body : Body}
    (h : decodeBody kind buf = .ok body) : encodeBody body = .ok buf := by
  cases kind with
  | data =>
    obtain ⟨ts, hts, h⟩ := bind_eq_ok h
    simp only at h
    split at h
    · cases h
    · rename_i hmax
      cases h
      have hs := slice?_eq_some (takeU64_eq_ok hts)
      rw [List.drop_zero] at hs
      rw [encodeBody, if_neg hmax, hs, List.take_append_drop]
  | «end» =>
    obtain ⟨_, hlen, h⟩ := bind_eq_ok h
    obtain ⟨v, hv, h⟩ := bind_eq_ok h
    cases h
    rw [encodeBody, u32Bytes_of_takeU32 (expectLen_eq_ok hlen) hv]
  | endAck =>
    obtain ⟨_, hlen, h⟩ := bind_eq_ok h
    cases h
    rw [encodeBody, List.eq_nil_of_length_eq_zero (expectLen_eq_ok hlen)]
  | ack =>
    obtain ⟨_, hlen, h⟩ := bind_eq_ok h
    obtain ⟨contiguous, h1, h⟩ := bind_eq_ok h
    obtain ⟨highest, h2, h⟩ := bind_eq_ok h
    obtain ⟨bufferedMs, h3, h⟩ := bind_eq_ok h
    cases h
    have hlast : (buf.drop 8).take 2 = buf.drop 8 :=
      List.take_of_length_le (by rw [List.length_drop, expectLen_eq_ok hlen])
    rw [encodeBody, slice?_eq_some (takeU32_eq_ok h1), slice?_eq_some (takeU32_eq_ok h2),
      slice?_eq_some (takeU16_eq_ok h3), hlast, List.drop_zero, ← List.take_add,
      List.take_append_drop]
  | nack =>
    obtain ⟨count, hcount, h⟩ := bind_eq_ok h
    simp only at h
    split at h
    · cases h
    · rename_i hmax
      obtain ⟨_, hlen, h⟩ := bind_eq_ok h
      obtain ⟨missing, hmiss, h⟩ := bind_eq_ok h
      cases h
      obtain ⟨hn, hbytes⟩ := seqBytes_of_mapM hmiss
      have hrest : (buf.drop 2).take (count.toNat * 4) = buf.drop 2 :=
        List.take_of_length_le (by rw [List.length_drop, expectLen_eq_ok hlen]; omega)
      rw [encodeBody, hn, if_neg hmax, hbytes, hrest, UInt16.ofNat_toNat,
        slice?_eq_some (takeU16_eq_ok hcount), List.drop_zero, List.take_append_drop]
  | keepalive =>
    obtain ⟨_, hlen, h⟩ := bind_eq_ok h
    obtain ⟨v, hv, h⟩ := bind_eq_ok h
    cases h
    rw [encodeBody, u32Bytes_of_takeU32 (expectLen_eq_ok hlen) hv]

/-! ## Parse, then write -/

/-- The parsed header, written out again, is what stood before the sealed
bytes. -/
theorem Header.toBytes_parse {buf rest : Bytes} {header : Header}
    (h : Header.parse buf = .ok (header, rest)) : header.toBytes ++ rest = buf := by
  unfold Header.parse at h
  split at h
  · cases h
  · rename_i hlen
    split at h
    · cases h
    · rename_i hversion
      obtain ⟨kind, hkind, h⟩ := bind_eq_ok h
      cases h
      simp only [headerLen, not_lt] at hlen
      have hlt := ofBE_lt ((buf.drop 18).take 4)
      have hseqLen : ((buf.drop 18).take 4).length = 4 := by
        simp
        omega
      rw [hseqLen] at hlt
      have hseq : (UInt32.ofNat (ofBE ((buf.drop 18).take 4))).toNat
          = ofBE ((buf.drop 18).take 4) := by
        simp
        omega
      -- a header is longer than its first two bytes
      rcases buf with _ | ⟨v, _ | ⟨k, tail⟩⟩
      · simp at hlen
      · simp at hlen
      · have hv : v = version := not_not.mp hversion
        have hk : kind.toU8 = k := PacketKind.toU8_fromU8 hkind
        rw [toBytes, u32Bytes, hseq, toBE_ofBE_of_length hseqLen, hk, ← hv]
        simp only [idOf, headerLen, List.drop_succ_cons, List.drop_zero, List.cons_append,
          List.nil_append]
        have h1 : tail.take 16 ++ (tail.drop 16).take 4 = tail.take 20 := List.take_add.symm
        rw [h1, List.take_append_drop]

/-! ## The wire format -/

/-- What opens was sealed: the same header and plaintext give the same
datagram. -/
theorem seal_of_openDatagram {key : SessionKey} {d : Bytes} {dir : Direction} {header : Header}
    {plaintext : Bytes} (h : openDatagram key d dir = .ok (header, plaintext)) :
    key.seal header dir plaintext = .ok d ∧ header.kind.direction = dir := by
  obtain ⟨⟨header', c⟩, hparse, h⟩ := bind_eq_ok h
  simp only at h
  split at h
  · cases h
  · rename_i hdir
    obtain ⟨plaintext', hopen, h⟩ := bind_eq_ok h
    cases h
    refine ⟨?_, not_not.mp hdir⟩
    simp only [SessionKey.open] at hopen
    split at hopen
    · rename_i m hm
      cases hopen
      simp only [SessionKey.seal, key.encrypt_decrypt hm, Header.toBytes_parse hparse]
    · cases hopen

theorem openDatagram_of_seal {key : SessionKey} {d : Bytes} {dir : Direction} {header : Header}
    {plaintext : Bytes} (h : key.seal header dir plaintext = .ok d)
    (hdir : header.kind.direction = dir) : openDatagram key d dir = .ok (header, plaintext) := by
  simp only [SessionKey.seal] at h
  split at h
  · rename_i c hc
    cases h
    simp [openDatagram, Header.parse_toBytes, hdir, SessionKey.open, key.decrypt_encrypt hc,
      Bind.bind, Except.bind]
  · cases h

/-- Whatever was sealed under a kind does not open as written by the other
side. -/
theorem openDatagram_wrong_direction {key : SessionKey} {d : Bytes} {dir dir' : Direction}
    {header : Header} {plaintext : Bytes} (h : key.seal header dir plaintext = .ok d)
    (hdir : header.kind.direction ≠ dir') :
    openDatagram key d dir' = .error (.wrongDirection header.kind.name) := by
  simp only [SessionKey.seal] at h
  split at h
  · cases h
    simp [openDatagram, Header.parse_toBytes, hdir, Bind.bind, Except.bind]
  · cases h

/-- **The wire format is a bijection** on its valid datagrams: every body
the encoder accepts travels as a datagram that shows its request, opens to
itself in its own direction only, and decodes back; and every datagram that
opens and decodes is the one its header and body are sealed to. -/
theorem wire_bijection (key : SessionKey) :
    (∀ (id : RequestId) (seq : UInt32) (body : Body) (plaintext : Bytes),
      encodeBody body = .ok plaintext →
      ∃ d, key.seal ⟨body.kind, id, seq⟩ body.kind.direction plaintext = .ok d
        ∧ requestIdOf d = .ok id
        ∧ openDatagram key d body.kind.direction = .ok (⟨body.kind, id, seq⟩, plaintext)
        ∧ decodeBody body.kind plaintext = .ok body
        ∧ ∀ dir, dir ≠ body.kind.direction →
          openDatagram key d dir = .error (.wrongDirection body.kind.name))
    ∧ ∀ (d : Bytes) (dir : Direction) (header : Header) (plaintext : Bytes) (body : Body),
      openDatagram key d dir = .ok (header, plaintext) →
      decodeBody header.kind plaintext = .ok body →
      header.kind = body.kind ∧ encodeBody body = .ok plaintext
        ∧ key.seal header dir plaintext = .ok d := by
  constructor
  · intro id seq body plaintext h
    obtain ⟨d, hd⟩ : ∃ d, sealBody key id body.kind.direction seq body = .ok d :=
      sealBody_isOk h
    have hseal : key.seal ⟨body.kind, id, seq⟩ body.kind.direction plaintext = .ok d := by
      rw [sealBody, h] at hd
      exact hd
    refine ⟨d, hseal, requestIdOf_sealBody hd, openDatagram_of_seal hseal rfl,
      decodeBody_encodeBody h, fun dir hdir => ?_⟩
    exact openDatagram_wrong_direction hseal (Ne.symm hdir)
  · intro d dir header plaintext body hopen hdec
    exact ⟨(decodeBody_kind hdec).symm, encodeBody_decodeBody hdec,
      (seal_of_openDatagram hopen).1⟩

/-- A request for the frames 2 and 5: its count and the two numbers. -/
def nackBytes : Bytes := [0, 2, 0, 0, 0, 2, 0, 0, 0, 5]

/-- The same, sealed as control packet 7, byte for byte. -/
def nackDatagram : Bytes :=
  [4, 4] ++ zeroId.bytes ++ [0, 0, 0, 7] ++ nackBytes
    ++ [0, 0, 0, 0, 1, 1, 0, 0, 0, 0, 0, 0, 0, 0, 0, 14]

/-- Both ways: the request travels, and the datagram is the one it travels
in. -/
theorem wire_bijection_nack :
    (∃ d, plainKey.seal ⟨.nack, zeroId, 7⟩ .recv nackBytes = .ok d ∧ requestIdOf d = .ok zeroId
        ∧ openDatagram plainKey d .recv = .ok (⟨.nack, zeroId, 7⟩, nackBytes)
        ∧ decodeBody .nack nackBytes = .ok (.nack [⟨2⟩, ⟨5⟩])
        ∧ openDatagram plainKey d .send = .error (.wrongDirection PacketKind.nack.name))
      ∧ plainKey.seal ⟨.nack, zeroId, 7⟩ .recv nackBytes = .ok nackDatagram := by
  obtain ⟨hto, hback⟩ := wire_bijection plainKey
  obtain ⟨d, hseal, hid, hopen, hdec, hwrong⟩ := hto zeroId 7 (.nack [⟨2⟩, ⟨5⟩]) nackBytes
    (by decide +kernel)
  refine ⟨⟨d, hseal, hid, hopen, hdec, hwrong .send (by decide)⟩, ?_⟩
  exact (hback nackDatagram .recv ⟨.nack, zeroId, 7⟩ nackBytes (.nack [⟨2⟩, ⟨5⟩])
    (by decide +kernel) (by decide +kernel)).2.2

end Protofish4
