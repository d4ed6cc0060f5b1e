/-
  Amcrypt.Crypto — the primitives (`amcrypt/crypto.py`) over the code the repository
  calls and does not contain.

  `Backend` is that code: AES-GCM, HKDF, HMAC, ECDSA and key parsing from
  `cryptography`, pickle and zlib. Nothing is assumed of it here but that encrypting
  returns, as it does up to `gcmLimit` (`Amcrypt.Stream.sealAny` goes beyond); a theorem that
  needs a law takes it as a hypothesis, one of the `Backend` propositions below.
  Randomness is explicit: a nonce or a signing coin is an argument, so a theorem
  over all of them covers every outcome of `os.urandom`.

  Every call that matters to security is recorded (`Call`): what pickle dumped and
  loaded, what AES-GCM sealed and opened. `Ideal` is the ideal-cipher assumption over
  such a record: whatever AES-GCM opened, it had sealed before under the same key.
-/

import Amcrypt.Lib.Correspondence
import Amcrypt.Lib.Method
import Amcrypt.Struct

namespace Amcrypt

open Lib

/-- A 256-bit key. -/
abbrev Key := Block 32

/-- A 96-bit nonce. -/
abbrev Nonce := Block 12

structure Backend where
  /-- Python objects. -/
  Obj : Type
  PrivateKey : Type
  PublicKey : Type
  /-- `AESGCM(key).encrypt(nonce, data, associated_data)`. -/
  gcmEncrypt : Key → Bytes → Bytes → Option Bytes → Bytes
  /-- `AESGCM(key).decrypt(nonce, data, associated_data)`. -/
  gcmDecrypt : Key → Bytes → Bytes → Option Bytes → Except PyErr Bytes
  /-- `HKDF(SHA256, length=32, salt, info).derive(ikm)`. -/
  hkdf : (salt info ikm : Bytes) → Key
  /-- `hmac.new(key, msg, sha256).digest()`. -/
  hmacSha256 : Bytes → Bytes → Block 32
  loadDerPrivateKey : Bytes → Except PyErr PrivateKey
  loadDerPublicKey : Bytes → Except PyErr PublicKey
  /-- `isinstance(key, EllipticCurvePrivateKey)`. -/
  isEcPrivate : PrivateKey → Bool
  /-- `isinstance(key, EllipticCurvePublicKey)`. -/
  isEcPublic : PublicKey → Bool
  /-- `key.public_key().public_bytes(DER, SubjectPublicKeyInfo)`. -/
  publicDer : PrivateKey → Bytes
  /-- `key.sign(data, ECDSA(SHA256()))`; signing draws a coin. -/
  ecSign : PrivateKey → Bytes → Bytes → Bytes
  /-- `key.verify(signature, data, ECDSA(SHA256()))` raises nothing. -/
  ecVerify : PublicKey → Bytes → Bytes → Bool
  dumps : Obj → Except PyErr Bytes
  loads : Bytes → Except PyErr Obj
  compress : Bytes → Bytes
  decompress : Bytes → Except PyErr Bytes

/-- A call into pickle or AES-GCM, with what it was given and what came back. -/
inductive Call where
  | dumps (data : Bytes)
  | loads (data : Bytes)
  | encrypt (key : Key) (nonce : Nonce) (aad : Option Bytes) (plaintext ciphertext : Bytes)
  | decrypt (key : Key) (nonce ciphertext : Bytes) (aad : Option Bytes) (result : Except PyErr Bytes)
  deriving DecidableEq

/-- A method of an object of the library. -/
abbrev Py (σ α : Type) := Method PyErr Call σ α

variable (B : Backend)

/-! ## `crypto.py` -/

/-- The longest data that `AESGCM.encrypt` takes; `gcmEncrypt` is what it does up to there. -/
def gcmLimit : Nat := 2 ^ 31 - 1

/-- What it raises beyond. -/
def gcmOverflow : PyErr := .other "OverflowError: Data or associated data too long. Max 2**31 - 1 bytes"

section
variable {σ : Type}

/-- `aes_encrypt`; `nonce` is what `generate_nonce` drew. -/
def aesEncrypt (key : Key) (plaintext : Bytes) (associatedData : Option Bytes) (nonce : Nonce) :
    Py σ (Nonce × Bytes) := do
  let ct := B.gcmEncrypt key nonce.val plaintext associatedData
  Method.record (.encrypt key nonce associatedData plaintext ct)
  pure (nonce, ct)

def aesDecrypt (key : Key) (nonce ciphertextWithTag : Bytes) (associatedData : Option Bytes) : Py σ Bytes := do
  let r := B.gcmDecrypt key nonce ciphertextWithTag associatedData
  Method.record (.decrypt key nonce ciphertextWithTag associatedData r)
  Method.ofExcept r

def dumps (obj : B.Obj) : Py σ Bytes := do
  let data ← Method.ofExcept (B.dumps obj)
  Method.record (.dumps data)
  pure data

def loads (data : Bytes) : Py σ B.Obj := do
  Method.record (.loads data)
  Method.ofExcept (B.loads data)

end

/-- The loop of `dual_decrypt_single`: whatever AES-GCM raises, the next block is tried. -/
def firstDecrypted (key : Key) : List (Bytes × Bytes) → Option Bytes
  | [] => none
  | (nonce, ct) :: blocks => match B.gcmDecrypt key nonce ct none with
    | .ok plaintext => some plaintext
    | .error _ => firstDecrypted key blocks

def dualDecryptSingle (key : Key) (nonceR ctR nonceD ctD : Bytes) (matchReal : Bool := true) : Option Bytes :=
  firstDecrypted B key
    (if matchReal then [(nonceR, ctR), (nonceD, ctD)] else [(nonceD, ctD), (nonceR, ctR)])

def ecdsaSign (privateKeyDer data coin : Bytes) : Except PyErr Bytes := do
  let privateKey ← B.loadDerPrivateKey privateKeyDer
  if B.isEcPrivate privateKey then
    pure (B.ecSign privateKey data coin)
  else throw .assertionError

def ecdsaVerify (publicKeyDer signature data : Bytes) : Except PyErr Bool := do
  let publicKey ← B.loadDerPublicKey publicKeyDer
  if B.isEcPublic publicKey then
    pure (B.ecVerify publicKey signature data)
  else throw .assertionError

/-- `b"amcrypt-ouroboros-ratchet"`. -/
def ratchetInfo : Bytes :=
  [0x61, 0x6d, 0x63, 0x72, 0x79, 0x70, 0x74, 0x2d, 0x6f, 0x75, 0x72, 0x6f, 0x62, 0x6f, 0x72, 0x6f, 0x73, 0x2d,
    0x72, 0x61, 0x74, 0x63, 0x68, 0x65, 0x74]

/-- `ratchet_key` with its default `info`; a step of 64 bits or more does not pack. -/
def ratchetKey (currentKey : Key) (step : Nat) : Except PyErr Key := do
  let stepBytes ← packUInt 8 step
  pure (B.hkdf currentKey.val (ratchetInfo ++ stepBytes) currentKey.val)

/-! ## What a theorem may assume of the backend -/

namespace Backend

/-- AES-GCM decryption inverts encryption under the same key, nonce and associated data. -/
def AesInverts : Prop := ∀ (k : Key) (n : Nonce) p a, B.gcmDecrypt k n.val (B.gcmEncrypt k n.val p a) a = .ok p

/-- AES-GCM appends a 16-byte tag. -/
def AesTagged : Prop := ∀ (k : Key) (n : Nonce) p a, (B.gcmEncrypt k n.val p a).length = p.length + 16

/-- AES-GCM decryption raises none of the library's own exceptions. -/
def AesForeign : Prop := ∀ k n c a e, B.gcmDecrypt k n c a = .error e → ∀ kind message, e ≠ .amcrypt kind message

/-- Under a nonce of 12 bytes, AES-GCM decryption fails on the tag or not at all. -/
def AesVerdict : Prop := ∀ (k : Key) (n : Nonce) c a e, B.gcmDecrypt k n.val c a = .error e → e = .invalidTag

/-- AES-GCM decryption takes a nonce of 8 to 128 bytes, and then fails on the tag or not at all. -/
def AesNonces : Prop := ∀ (k : Key) n c a,
  if 8 ≤ n.length ∧ n.length ≤ 128 then ∀ e, B.gcmDecrypt k n c a = .error e → e = .invalidTag
  else ∃ message, B.gcmDecrypt k n c a = .error (.valueError message)

/-- AES-GCM opens nothing under `k'` that it sealed under `k`. -/
def AesApart (k k' : Key) : Prop :=
  ∀ (n : Nonce) p a p', B.gcmDecrypt k' n.val (B.gcmEncrypt k n.val p a) a ≠ .ok p'

/-- Absent associated data is authenticated as the empty byte string. -/
def AesAbsent : Prop := ∀ k n c, B.gcmDecrypt k n c none = B.gcmDecrypt k n c (some [])

def ZlibInverts : Prop := ∀ b, B.decompress (B.compress b) = .ok b

/-- zlib refuses what it cannot decompress with its own exception. -/
def ZlibFails : Prop := ∀ z e, B.decompress z = .error e → e = .zlibError

def PickleInverts : Prop := ∀ o b, B.dumps o = .ok b → B.loads b = .ok o

/-- The DER of a public key of an elliptic curve. -/
def EcPublicKey (der : Bytes) : Prop := ∃ pk, B.loadDerPublicKey der = .ok pk ∧ B.isEcPublic pk = true

/-- `verifyKey` belongs to `signingKey`: ECDSA accepts every signature made with it. -/
def EcdsaMatch (signingKey verifyKey : Bytes) : Prop :=
  ∀ data coin sig, ecdsaSign B signingKey data coin = .ok sig → ecdsaVerify B verifyKey sig data = .ok true

end Backend

/-! ## Ideal AES-GCM -/

/-- What a GCM call binds together: absent associated data is authenticated as empty. -/
structure Box where
  key : Key
  nonce : Bytes
  aad : Bytes
  plaintext : Bytes
  ciphertext : Bytes

def Call.Seals : Call → Box → Prop
  | .encrypt k n a p c, x => x = ⟨k, n.val, a.getD [], p, c⟩
  | _, _ => False

def Call.Opens : Call → Box → Prop
  | .decrypt k n c a (.ok p), x => x = ⟨k, n, a.getD [], p, c⟩
  | _, _ => False

/-- Ideal AES-GCM over a record of calls: whatever decrypted had been encrypted before,
    under the same key, nonce and associated data. -/
def Ideal (calls : List Call) : Prop := Corresponds Call.Opens Call.Seals calls

namespace Ideal

variable {calls : List Call}

theorem nil : Ideal [] := Corresponds.nil

/-- A call that opens nothing. -/
theorem snoc (h : Ideal calls) {c : Call} (hc : ∀ x, ¬ c.Opens x) : Ideal (calls ++ [c]) :=
  Corresponds.snoc h fun x hx => absurd hx (hc x)

theorem snoc_open (h : Ideal calls) {k : Key} {n : Nonce} {a a' : Option Bytes} {p c : Bytes}
    (hs : .encrypt k n a p c ∈ calls) (ha : a.getD [] = a'.getD []) :
    Ideal (calls ++ [.decrypt k n.val c a' (.ok p)]) := by
  refine Corresponds.snoc h fun x hx => ⟨_, hs, ?_⟩
  rw [Call.Seals, ha]
  exact hx

/-- Whatever opened was sealed under a nonce of 12 bytes. -/
theorem sealed {past calls : List Call} {k : Key} {n c p : Bytes} {a : Option Bytes}
    (h : Ideal (past ++ .decrypt k n c a (.ok p) :: calls)) :
    ∃ n' : Nonce, n'.val = n ∧ ∃ a', a'.getD [] = a.getD [] ∧ .encrypt k n' a' p c ∈ past := by
  obtain ⟨b, hb, hs⟩ := h.begun (x := ⟨k, n, a.getD [], p, c⟩) rfl
  cases b with
  | encrypt k' n' a' p' c' =>
    simp only [Call.Seals, Box.mk.injEq] at hs
    obtain ⟨rfl, rfl, ha, rfl, rfl⟩ := hs
    exact ⟨n', rfl, a', ha.symm, hb⟩
  | _ => exact hs.elim

/-- Among calls that seal nothing, whatever opens was sealed before them. -/
theorem opened {past calls : List Call} (h : Ideal (past ++ calls)) {k : Key} {n c p : Bytes} {a : Option Bytes}
    (hmem : .decrypt k n c a (.ok p) ∈ calls) (hno : ∀ k n a p c, .encrypt k n a p c ∉ calls) :
    ∃ n' : Nonce, n'.val = n ∧ ∃ a', a'.getD [] = a.getD [] ∧ .encrypt k n' a' p c ∈ past := by
  obtain ⟨pre, post, rfl⟩ := List.append_of_mem hmem
  rw [← List.append_assoc] at h
  obtain ⟨n', hn, a', ha, henc⟩ := h.sealed
  refine ⟨n', hn, a', ha, ?_⟩
  rcases List.mem_append.mp henc with hin | hin
  · exact hin
  · exact absurd (List.mem_append_left _ hin) (hno _ _ _ _ _)

end Ideal

end Amcrypt
