/-
  Amcrypt.Reference — a backend that satisfies every law assumed elsewhere, so the
  assumptions are consistent, and runs of the model can be evaluated.

  Objects are byte strings of at most 255 bytes, pickled as protocol 5 pickles them;
  zlib stores (`Amcrypt.Lib.Stored`), which is what level 9 writes for data it cannot
  shrink. AES-GCM is a stand-in with its interface: the plaintext followed by a
  16-byte tag that depends on key, nonce, associated data and plaintext. HKDF puts the
  ratchet step in the key; ECDSA keys are their own DER.
-/

import Amcrypt.Crypto
import Amcrypt.Lib.Stored

namespace Amcrypt.Reference

open Lib

def mix (bs : Bytes) : UInt8 := bs.foldl (fun acc b => acc * 5 + b + 1) 7

/-! ## AES-GCM -/

def gcmTag (key : Key) (nonce plaintext : Bytes) (aad : Option Bytes) : Bytes :=
  key.val.take 13 ++ [mix nonce, mix (aad.getD []), mix plaintext]

def gcmEncrypt (key : Key) (nonce plaintext : Bytes) (aad : Option Bytes) : Bytes :=
  plaintext ++ gcmTag key nonce plaintext aad

def gcmDecrypt (key : Key) (nonce ct : Bytes) (aad : Option Bytes) : Except PyErr Bytes :=
  if nonce.length < 8 ∨ 128 < nonce.length then .error (.valueError "Nonce must be between 8 and 128 bytes")
  else if ct.length < 16 then .error .invalidTag
  else
    let plaintext := ct.take (ct.length - 16)
    if ct.drop (ct.length - 16) = gcmTag key nonce plaintext aad then .ok plaintext else .error .invalidTag

theorem length_gcmTag (key : Key) (nonce plaintext : Bytes) (aad : Option Bytes) :
    (gcmTag key nonce plaintext aad).length = 16 := by
  simp [gcmTag, key.property]

/-! ## HKDF and HMAC -/

def hkdf (_salt info _ikm : Bytes) : Key :=
  ⟨(info.drop (info.length - 8) ++ List.replicate 32 0x5a).take 32, by simp⟩

theorem hkdf_ratchet (salt ikm : Bytes) (step : Nat) :
    (hkdf salt (ratchetInfo ++ BigEndian.encode 8 step) ikm).val =
      BigEndian.encode 8 step ++ List.replicate 24 0x5a := by
  have hdrop : (ratchetInfo ++ BigEndian.encode 8 step).drop
      ((ratchetInfo ++ BigEndian.encode 8 step).length - 8) = BigEndian.encode 8 step :=
    List.drop_left' (by simp)
  simp only [hkdf, hdrop, List.take_append, BigEndian.length_encode]
  rw [List.take_of_length_le (by simp)]
  rfl

def hmacSha256 (key _msg : Bytes) : Block 32 := ⟨(key ++ List.replicate 32 0x36).take 32, by simp⟩

/-! ## Keys and signatures -/

def loadDer (der : Bytes) : Except PyErr Bytes :=
  if der = [] then .error (.valueError "Could not deserialize key data.") else .ok der

def ecSign (key data _coin : Bytes) : Bytes := mix data :: key

def ecVerify (key signature data : Bytes) : Bool := decide (signature = mix data :: key)

/-! ## pickle -/

/-- `bytes` under protocol 5: one frame of `SHORT_BINBYTES`, `MEMOIZE`, `STOP`. -/
def dumps (obj : Bytes) : Except PyErr Bytes :=
  if obj.length < 256 then
    .ok (0x80 :: 0x05 :: 0x95 :: UInt8.ofNat (obj.length + 4) :: UInt8.ofNat ((obj.length + 4) / 256) ::
      0 :: 0 :: 0 :: 0 :: 0 :: 0 :: 0x43 :: UInt8.ofNat obj.length :: (obj ++ [0x94, 0x2e]))
  else .error (.other "OverflowError")

def loads (data : Bytes) : Except PyErr Bytes :=
  match data with
  | 0x80 :: 0x05 :: 0x95 :: _ :: _ :: 0 :: 0 :: 0 :: 0 :: 0 :: 0 :: 0x43 :: len :: rest =>
    if rest.take (len.toNat + 2) = rest.take len.toNat ++ [0x94, 0x2e] then .ok (rest.take len.toNat)
    else .error (.other "UnpicklingError")
  | _ => .error (.other "UnpicklingError")

theorem loads_dumps {obj data : Bytes} (h : dumps obj = .ok data) : loads data = .ok obj := by
  unfold dumps at h
  split at h
  · rename_i hlt
    obtain rfl := Except.ok.inj h
    have hn : (UInt8.ofNat obj.length).toNat = obj.length := by rw [UInt8.toNat_ofNat']; omega
    have htake : (obj ++ [0x94, 0x2e]).take obj.length = obj := List.take_left
    have htake2 : (obj ++ [0x94, 0x2e]).take (obj.length + 2) = obj ++ [0x94, 0x2e] :=
      List.take_of_length_le (by simp)
    simp only [loads, hn, htake, htake2, if_true]
  · cases h

/-! ## The backend and its laws -/

def reference : Backend where
  Obj := Bytes
  PrivateKey := Bytes
  PublicKey := Bytes
  gcmEncrypt := gcmEncrypt
  gcmDecrypt := gcmDecrypt
  hkdf := hkdf
  hmacSha256 := hmacSha256
  loadDerPrivateKey := loadDer
  loadDerPublicKey := loadDer
  isEcPrivate _ := true
  isEcPublic _ := true
  publicDer key := key
  ecSign := ecSign
  ecVerify := ecVerify
  dumps := dumps
  loads := loads
  compress := Stored.compress
  decompress bs := match Stored.decompress bs with
    | some data => .ok data
    | none => .error .zlibError

instance : DecidableEq reference.Obj := inferInstanceAs (DecidableEq Bytes)

/-- What was sealed under `k` opens under `k'` exactly if the tag comes out the same. -/
theorem gcmDecrypt_sealed (k k' : Key) (n : Nonce) (p : Bytes) (a : Option Bytes) :
    reference.gcmDecrypt k' n.val (reference.gcmEncrypt k n.val p a) a =
      if gcmTag k n.val p a = gcmTag k' n.val p a then .ok p else .error .invalidTag := by
  have htag := length_gcmTag k n.val p a
  have hn : ¬ (n.val.length < 8 ∨ 128 < n.val.length) := by rw [n.property]; omega
  have hlen : (p ++ gcmTag k n.val p a).length - 16 = p.length := by rw [List.length_append]; omega
  have hshort : ¬ (p ++ gcmTag k n.val p a).length < 16 := by rw [List.length_append]; omega
  show gcmDecrypt k' n.val (p ++ gcmTag k n.val p a) a = _
  simp only [gcmDecrypt, if_neg hn, if_neg hshort, hlen, List.take_left, List.drop_left]

theorem aesInverts : reference.AesInverts := by
  intro k n p a
  rw [gcmDecrypt_sealed, if_pos rfl]

theorem aesForeign : reference.AesForeign := by
  intro k n c a e h kind m
  have h : gcmDecrypt k n c a = .error e := h
  unfold gcmDecrypt at h
  split at h
  · cases h; simp
  split at h
  · cases h; simp
  dsimp only at h
  split at h
  · cases h
  · cases h; simp

theorem aesVerdict : reference.AesVerdict := by
  intro k n c a e h
  have h : gcmDecrypt k n.val c a = .error e := h
  have hn : ¬ (n.val.length < 8 ∨ 128 < n.val.length) := by rw [n.property]; omega
  rw [gcmDecrypt, if_neg hn] at h
  split at h
  · exact (Except.error.inj h).symm
  · dsimp only at h
    split at h
    · cases h
    · exact (Except.error.inj h).symm

theorem aesNonces : reference.AesNonces := by
  intro k n c a
  split
  · rename_i hn
    intro e h
    have h : gcmDecrypt k n c a = .error e := h
    rw [gcmDecrypt, if_neg (by omega)] at h
    split at h
    · exact (Except.error.inj h).symm
    · dsimp only at h
      split at h
      · cases h
      · exact (Except.error.inj h).symm
  · rename_i hn
    refine ⟨"Nonce must be between 8 and 128 bytes", ?_⟩
    show gcmDecrypt k n c a = _
    rw [gcmDecrypt, if_pos (by omega)]

/-- Keys that differ in what the tag takes of them. -/
theorem aesApart {k k' : Key} (h : k.val.take 13 ≠ k'.val.take 13) : reference.AesApart k k' := by
  intro n p a p' hopens
  have hlen : (k.val.take 13).length = (k'.val.take 13).length := by
    rw [List.length_take, List.length_take, k.property, k'.property]
  rw [gcmDecrypt_sealed] at hopens
  split at hopens
  · rename_i htags
    exact h (List.append_inj_left htags hlen)
  · cases hopens

theorem aesAbsent : reference.AesAbsent := fun _ _ _ => rfl

theorem aesTagged : reference.AesTagged := by
  intro k n p a
  show (p ++ gcmTag k n.val p a).length = p.length + 16
  rw [List.length_append, length_gcmTag]

theorem zlibInverts : reference.ZlibInverts := by
  intro b
  show (match Stored.decompress (Stored.compress b) with | some data => _ | none => _) = _
  rw [Stored.decompress_compress]

theorem zlibFails : reference.ZlibFails := by
  intro z e h
  have h : (match Stored.decompress z with
    | some data => Except.ok data
    | none => .error PyErr.zlibError) = .error e := h
  split at h
  · cases h
  · exact (Except.error.inj h).symm

theorem pickleInverts : reference.PickleInverts := fun _ _ h => loads_dumps h

/-- A nonempty key verifies what it signed. -/
theorem ecdsaMatch {key : Bytes} (h : key ≠ []) : reference.EcdsaMatch key key := by
  intro data coin sig hs
  have hload : loadDer key = .ok key := by simp [loadDer, h]
  have hs : (loadDer key >>= fun k => Except.ok (ecSign k data coin)) = .ok sig := hs
  rw [hload] at hs
  obtain rfl : ecSign key data coin = sig := Except.ok.inj hs
  show (loadDer key >>= fun k => Except.ok (ecVerify k (ecSign key data coin) data)) = _
  rw [hload]
  simp [ecVerify, ecSign]

/-! ## A key and a nonce for runs -/

def runKey : Key := ⟨List.replicate 32 0x41, rfl⟩

def runNonce : Nonce := ⟨List.replicate 12 0x4e, rfl⟩

end Amcrypt.Reference
