import Protofish4.Header

/-!
# Crypto

The sealing half of `crypto.rs`. ChaCha20-Poly1305 itself is a third-party
crate, so a `SessionKey` is its keyed cipher together with what the crate
documents about it: decryption inverts encryption, accepts nothing that
encryption under the same nonce and associated data would not produce, and
encryption fails only on messages longer than the cipher's block counter
reaches. That nobody without the key produces an acceptable ciphertext is
not a property of the cipher's functions but of the network model, which
only ever delivers what was sealed.
-/

namespace Protofish4

open BigEndian

/-- Length of the authentication tag appended to every sealed body. -/
def tagLen : Nat := 16

/-- A per-request secret, as the AEAD it keys. -/
structure SessionKey where
  encrypt : (nonce aad msg : Bytes) → Option Bytes
  decrypt : (nonce aad ciphertext : Bytes) → Option Bytes
  decrypt_encrypt : ∀ {n a m c}, encrypt n a m = some c → decrypt n a c = some m
  encrypt_decrypt : ∀ {n a m c}, decrypt n a c = some m → encrypt n a m = some c
  encrypt_short : ∀ n a m, m.length < 64 * (2 ^ 32 - 1) → (encrypt n a m).isSome

/-- The 12-byte nonce: direction, class, a zero epoch, the counter. -/
def nonceFor (dir : Direction) (cls : SeqClass) (counter : UInt32) : Bytes :=
  [dir.toU8, cls.toU8, 0, 0] ++ toBE 8 counter.toNat

namespace SessionKey

def «seal» (key : SessionKey) (header : Header) (dir : Direction) (plaintext : Bytes) :
    Except Error Bytes :=
  let aad := header.toBytes
  let nonce := nonceFor dir header.kind.seqClass header.seq
  match key.encrypt nonce aad plaintext with
  | some c => .ok (aad ++ c)
  | none => .error (.decryptFailed header.requestId)

def «open» (key : SessionKey) (header : Header) (dir : Direction) (ciphertext : Bytes) :
    Except Error Bytes :=
  let aad := header.toBytes
  let nonce := nonceFor dir header.kind.seqClass header.seq
  match key.decrypt nonce aad ciphertext with
  | some m => .ok m
  | none => .error (.decryptFailed header.requestId)

end SessionKey

/-- A call to `crypto::seal`: what it was given, and what it returned. -/
structure SealCall where
  header : Header
  dir : Direction
  plaintext : Bytes
  result : Except Error Bytes
  deriving DecidableEq

namespace SealCall

def run (key : SessionKey) (header : Header) (dir : Direction) (plaintext : Bytes) : SealCall :=
  ⟨header, dir, plaintext, key.seal header dir plaintext⟩

/-- The nonce the cipher was run under. -/
def nonce (c : SealCall) : Bytes := nonceFor c.dir c.header.kind.seqClass c.header.seq

/-- The result is what sealing under some key gives. -/
def Made (c : SealCall) : Prop :=
  ∃ key : SessionKey, c.result = key.seal c.header c.dir c.plaintext

theorem made_run (key : SessionKey) (header : Header) (dir : Direction) (plaintext : Bytes) :
    (run key header dir plaintext).Made := ⟨key, rfl⟩

/-- A sealed datagram starts with the header it was sealed under. -/
theorem Made.parse {c : SealCall} (h : c.Made) {d : Bytes} (hd : c.result = .ok d) :
    ∃ ciphertext, Header.parse d = .ok (c.header, ciphertext) := by
  obtain ⟨key, hkey⟩ := h
  rw [hd, SessionKey.seal] at hkey
  split at hkey
  · rename_i ciphertext _
    cases hkey
    exact ⟨ciphertext, Header.parse_toBytes c.header ciphertext⟩
  · cases hkey

end SealCall

/-- `crypto::open`: parse the header, check the direction, then the tag. -/
def openDatagram (key : SessionKey) (datagram : Bytes) (dir : Direction) :
    Except Error (Header × Bytes) := do
  let (header, ciphertext) ← Header.parse datagram
  if header.kind.direction ≠ dir then .error (.wrongDirection header.kind.name)
  else
    let plaintext ← key.open header dir ciphertext
    .ok (header, plaintext)

/-- `crypto::request_id_of`. -/
def requestIdOf (datagram : Bytes) : Except Error RequestId :=
  Header.peekRequestId datagram

/-- Distinct (direction, class, counter) triples have distinct nonces. -/
theorem nonceFor_inj {d d' : Direction} {c c' : SeqClass} {n n' : UInt32}
    (h : nonceFor d c n = nonceFor d' c' n') : d = d' ∧ c = c' ∧ n = n' := by
  simp only [nonceFor, List.cons_append, List.nil_append, List.cons.injEq, true_and] at h
  obtain ⟨hd, hc, hn⟩ := h
  have hval : n.toNat = n'.toNat := by
    have h1 : n.toNat < 256 ^ 8 := lt_trans (UInt32.toNat_lt n) (by decide)
    have h2 : n'.toNat < 256 ^ 8 := lt_trans (UInt32.toNat_lt n') (by decide)
    rw [← ofBE_toBE_of_lt h1, ← ofBE_toBE_of_lt h2, hn]
  refine ⟨?_, ?_, UInt32.toNat_inj.mp hval⟩
  · cases d <;> cases d' <;> first | rfl | cases hd
  · cases c <;> cases c' <;> first | rfl | cases hc

/-! ## One packet, end to end -/

/-- What both ends do to send `body` under `seq`: build the header, encode,
seal. -/
def sealBody (key : SessionKey) (id : RequestId) (dir : Direction) (seq : UInt32)
    (body : Body) : Except Error Bytes := do
  let header : Header := ⟨body.kind, id, seq⟩
  let plaintext ← encodeBody body
  key.seal header dir plaintext

/-- What both ends do with a received datagram before any state changes:
open it as written by the peer, then decode. Errors drop the packet. -/
def openBody (key : SessionKey) (dir : Direction) (datagram : Bytes) :
    Option (XferSeq × Body) :=
  match openDatagram key datagram dir with
  | .error _ => none
  | .ok (header, plaintext) =>
    match decodeBody header.kind plaintext with
    | .error _ => none
    | .ok body => some (⟨header.seq⟩, body)

theorem sealBody_eq_ok {key : SessionKey} {id : RequestId} {dir : Direction} {seq : UInt32}
    {body : Body} {d : Bytes} (h : sealBody key id dir seq body = .ok d) :
    ∃ plaintext c, encodeBody body = .ok plaintext ∧
      key.encrypt (nonceFor dir body.kind.seqClass seq) (Header.toBytes ⟨body.kind, id, seq⟩)
        plaintext = some c ∧
      d = Header.toBytes ⟨body.kind, id, seq⟩ ++ c := by
  unfold sealBody at h
  cases hp : encodeBody body with
  | error e => simp [hp, Bind.bind, Except.bind] at h
  | ok plaintext =>
    simp only [hp, Bind.bind, Except.bind, SessionKey.seal] at h
    split at h
    · rename_i c hc
      cases h
      exact ⟨plaintext, c, rfl, hc, rfl⟩
    · cases h

/-- **What is sealed opens to itself**, in the direction of its kind. -/
theorem openBody_sealBody {key : SessionKey} {id : RequestId} {dir : Direction} {seq : UInt32}
    {body : Body} {d : Bytes} (h : sealBody key id dir seq body = .ok d)
    (hdir : body.kind.direction = dir) : openBody key dir d = some (⟨seq⟩, body) := by
  obtain ⟨plaintext, c, hp, hc, rfl⟩ := sealBody_eq_ok h
  have hopen : openDatagram key (Header.toBytes ⟨body.kind, id, seq⟩ ++ c) dir
      = .ok (⟨body.kind, id, seq⟩, plaintext) := by
    simp [openDatagram, Header.parse_toBytes, hdir, SessionKey.open, key.decrypt_encrypt hc,
      Bind.bind, Except.bind]
  simp only [openBody, hopen, decodeBody_encodeBody hp]

/-- A packet that opens travels in the direction it was opened in. -/
theorem openBody_direction {key : SessionKey} {dir : Direction} {d : Bytes} {seq : XferSeq}
    {body : Body} (h : openBody key dir d = some (seq, body)) : body.kind.direction = dir := by
  unfold openBody at h
  split at h
  · cases h
  · rename_i header plaintext hopen
    split at h
    · cases h
    · rename_i hdec
      cases h
      rw [decodeBody_kind hdec]
      obtain ⟨⟨header', c⟩, -, hopen⟩ := bind_eq_ok hopen
      simp only at hopen
      split at hopen
      · cases hopen
      · rename_i hdir
        obtain ⟨plaintext', -, hopen⟩ := bind_eq_ok hopen
        cases hopen
        exact not_not.mp hdir

/-- A sealed datagram still shows its own request. -/
theorem requestIdOf_sealBody {key : SessionKey} {id : RequestId} {dir : Direction} {seq : UInt32}
    {body : Body} {d : Bytes} (h : sealBody key id dir seq body = .ok d) :
    requestIdOf d = .ok id := by
  obtain ⟨plaintext, c, _, _, rfl⟩ := sealBody_eq_ok h
  exact Header.peekRequestId_toBytes _ c

/-- Sealing fails only where encoding does. -/
theorem sealBody_isOk {key : SessionKey} {id : RequestId} {dir : Direction} {seq : UInt32}
    {body : Body} {plaintext : Bytes} (h : encodeBody body = .ok plaintext) :
    ∃ d, sealBody key id dir seq body = .ok d := by
  have hlen := length_encodeBody_le h
  have hsome := key.encrypt_short (nonceFor dir body.kind.seqClass seq)
    (Header.toBytes ⟨body.kind, id, seq⟩) plaintext (by omega)
  obtain ⟨c, hc⟩ := Option.isSome_iff_exists.mp hsome
  refine ⟨Header.toBytes ⟨body.kind, id, seq⟩ ++ c, ?_⟩
  simp only [sealBody, h, Bind.bind, Except.bind, SessionKey.seal, hc]

/-! ## A concrete cipher -/

/-- The tag of `plainKey`: sixteen bytes determined by nonce and header. -/
def plainTag (nonce aad : Bytes) : Bytes := toBE 16 (ofBE nonce + ofBE aad)

/-- A cipher that hides nothing and tags nonce and associated data: an
inhabitant of `SessionKey` on which concrete runs can be evaluated. -/
def plainKey : SessionKey where
  encrypt n a m := some (m ++ plainTag n a)
  decrypt n a c :=
    if c = c.take (c.length - tagLen) ++ plainTag n a then some (c.take (c.length - tagLen))
    else none
  decrypt_encrypt {n a m c} h := by
    cases h
    have ht : (m ++ plainTag n a).take ((m ++ plainTag n a).length - tagLen) = m := by
      apply List.take_left'
      simp [plainTag, tagLen]
    rw [if_pos (by rw [ht]), ht]
  encrypt_decrypt {n a m c} h := by
    split at h
    · rename_i hc
      cases h
      exact congrArg some hc.symm
    · cases h
  encrypt_short n a m _ := rfl

/-- The request id of all zeros. -/
def zeroId : RequestId := ⟨List.replicate 16 0, rfl⟩

end Protofish4
