/-
  Amcrypt.Core.Layers — the layers of a plaintext between compression and AES-GCM
  (`core.py`: `_add_padding`, `_strip_padding`, `_pack_ttl`, `_unpack_ttl`, and the
  Blood Pact, TTL and Polymorphic Curse stages that `kill` and `revive` write inline).

  `kill` wraps the compressed bytes in the layers its options ask for and sets one
  flag bit for each (`wrap`); `revive` strips the layers its envelope's flags name
  (`unwrap`). `unwrap_wrap`: under the flags `wrap` chose, not past the packed expiry,
  with a verify key that accepts the signature, `unwrap` returns what was wrapped.
  Without these two it may raise, but returns nothing else (`unwrap_wrap_only`). `unwrap`
  reads three flag bits and no other (`unwrap_congr`). `stripPact_ok_iff` says which
  plaintexts the Blood Pact stage accepts, whoever made them.
-/

import Amcrypt.Core.Envelope
import Mathlib.Data.Rat.Floor

namespace Amcrypt.Core

open Lib

variable (B : Backend)

def padMin : Nat := 16
def padMax : Nat := 256
def ttlSize : Nat := 8

/-- `kill`'s options. -/
structure KillOptions where
  hwid : Option Bytes := none
  ttlSeconds : Option Int := none
  stealth : Bool := false
  signingKey : Option Bytes := none
  pad : Bool := false

/-- What one `kill` draws from `os.urandom`, and the coin its signature draws. -/
structure Draws where
  padLen : Block 2
  pad : (n : Nat) → Block n
  nonce : Nonce
  coin : Bytes

/-! ## Writing -/

/-- `int(t)`. -/
def pyInt (t : ℚ) : Int := if 0 ≤ t then t.floor else t.ceil

/-- Cutting off the fraction loses less than a second. -/
theorem lt_pyInt_add_one (t : ℚ) : t < (pyInt t : ℚ) + 1 := by
  unfold pyInt
  split
  · exact_mod_cast Rat.lt_floor_add_one t
  · have h : t ≤ (t.ceil : ℚ) := Rat.le_ceil
    linarith

theorem pyInt_le {t : ℚ} (h : 0 ≤ t) : (pyInt t : ℚ) ≤ t := by
  rw [pyInt, if_pos h]
  exact Rat.floor_le t

/-- A positive time to live has not run out when it starts. -/
theorem now_le_expiry (now : ℚ) {ttl : Int} (h : 0 < ttl) : now ≤ ((pyInt now + ttl : Int) : ℚ) := by
  have hpos : (1 : ℚ) ≤ (ttl : ℚ) := by exact_mod_cast h
  have := lt_pyInt_add_one now
  push_cast
  linarith

/-- `_pack_ttl` at time `now`. -/
def packTtl (now : ℚ) (ttlSeconds : Int) : Except PyErr Bytes :=
  let expiry := pyInt now + ttlSeconds
  if 0 ≤ expiry then packUInt 8 expiry.toNat else .error .structError

def unpackTtl (ttlRaw : Bytes) : Except PyErr Nat := unpackUInt 8 ttlRaw

/-- `_add_padding`: the length comes from two random bytes. -/
def addPadding (d : Draws) (data : Bytes) : Except PyErr Bytes := do
  let padLen := BigEndian.decode d.padLen.val % (padMax - padMin + 1) + padMin
  let lenField ← packUInt 1 padLen
  pure (lenField ++ (d.pad padLen).val ++ data)

/-- Blood Pact in `kill`: the public key and the signature in front of the compressed bytes. -/
def signPact (signingKey : Option Bytes) (coin compressed : Bytes) : Except PyErr Bytes :=
  match signingKey with
  | none => pure compressed
  | some signingKey => do
    let sig ← ecdsaSign B signingKey compressed coin
    let pk ← B.loadDerPrivateKey signingKey
    let pubDer := B.publicDer pk
    let pubLen ← packUInt 2 pubDer.length
    let sigLen ← packUInt 2 sig.length
    pure (pubLen ++ pubDer ++ sigLen ++ sig ++ compressed)

/-- TTL in `kill`. -/
def addTtl (now : ℚ) (ttlSeconds : Option Int) (signedData : Bytes) : Except PyErr Bytes :=
  match ttlSeconds with
  | none => pure signedData
  | some ttl =>
    if ttl ≤ 0 then throw (.valueError "ttl_seconds must be a positive integer")
    else do
      let ttlRaw ← packTtl now ttl
      pure (ttlRaw ++ signedData)

/-- The flags `kill` gathers on the way: `_pack` adds the stealth bit. -/
def flagsOf (o : KillOptions) : UInt8 :=
  let flags := if o.signingKey.isSome then flagSigned else 0
  let flags := if o.ttlSeconds.isSome then flags ||| flagTtl else flags
  let flags := if o.hwid.isSome then flags ||| flagHwid else flags
  if o.pad then flags ||| flagPadded else flags

/-- `kill` from the compressed bytes to the plaintext that AES-GCM seals. -/
def wrap (o : KillOptions) (d : Draws) (now : ℚ) (compressed : Bytes) : Except PyErr Bytes := do
  let signedData ← signPact B o.signingKey d.coin compressed
  let plaintext ← addTtl now o.ttlSeconds signedData
  if o.pad then addPadding d plaintext else pure plaintext

/-! ## Reading -/

def stripPadding (data : Bytes) : Except PyErr Bytes :=
  if data.length < 1 then throw (mutilatedCorpseError "Padding header missing")
  else do
    let padLen ← index data 0
    if data.length < 1 + padLen.toNat then throw (mutilatedCorpseError "Padding payload truncated")
    else pure (data.drop (1 + padLen.toNat))

/-- TTL in `revive`, at time `now`. -/
def stripTtl (now : ℚ) (plaintext : Bytes) : Except PyErr Bytes :=
  if plaintext.length < ttlSize then throw (mutilatedCorpseError "TTL header truncated")
  else do
    let expiry ← unpackTtl (plaintext.take ttlSize)
    if (expiry : ℚ) < now then
      throw (rottenCorpseError ("Payload expired at timestamp " ++ toString expiry))
    else pure (plaintext.drop ttlSize)

/-- `ecdsa_verify` with the caller's key; `None` has no DER to parse. -/
def verifyWith (verifyKey : Option Bytes) (signature data : Bytes) : Except PyErr Bool :=
  match verifyKey with
  | none => throw .typeError
  | some verifyKey => ecdsaVerify B verifyKey signature data

/-- Blood Pact in `revive`; the embedded public key is skipped, never used. -/
def stripPact (verifyKey : Option Bytes) (plaintext : Bytes) : Except PyErr Bytes :=
  if plaintext.length < 4 then throw (mutilatedCorpseError "Signed payload header truncated")
  else do
    let pubLen ← unpackFrom 2 plaintext 0
    let offset := 2
    if plaintext.length < offset + pubLen + 2 then throw (mutilatedCorpseError "Public key truncated")
    else
      let offset := offset + pubLen
      let sigLen ← unpackFrom 2 plaintext offset
      let offset := offset + 2
      if plaintext.length < offset + sigLen then throw (mutilatedCorpseError "Signature truncated")
      else
        let signature := slice offset (offset + sigLen) plaintext
        let dataToVerify := plaintext.drop (offset + sigLen)
        let valid ← verifyWith B verifyKey signature dataToVerify
        if valid then pure dataToVerify
        else throw (brokenPactError "ECDSA signature verification failed")

/-- A stage under `if flags & flag:`. -/
def stage (flags flag : UInt8) (strip : Bytes → Except PyErr Bytes) (plaintext : Bytes) : Except PyErr Bytes :=
  if has flags flag then strip plaintext else pure plaintext

/-- The stages of `revive` before the Blood Pact. -/
def peel (flags : UInt8) (now : ℚ) (plaintext : Bytes) : Except PyErr Bytes := do
  let plaintext ← stage flags flagPadded stripPadding plaintext
  stage flags flagTtl (stripTtl now) plaintext

/-- `revive` from the decrypted plaintext to the compressed bytes. -/
def unwrap (flags : UInt8) (verifyKey : Option Bytes) (now : ℚ) (plaintext : Bytes) : Except PyErr Bytes := do
  let plaintext ← peel flags now plaintext
  stage flags flagSigned (stripPact B verifyKey) plaintext

/-! ## Flag bits -/

/-- The flags byte of the envelope: `_pack` adds the stealth bit to what `kill` gathered. -/
def envelopeFlags (o : KillOptions) : UInt8 := if o.stealth then flagsOf o ||| flagStealth else flagsOf o

/-- Each bit says what its option says. -/
theorem has_envelopeFlags (o : KillOptions) :
    has (envelopeFlags o) flagPadded = o.pad ∧ has (envelopeFlags o) flagTtl = o.ttlSeconds.isSome ∧
      has (envelopeFlags o) flagSigned = o.signingKey.isSome ∧ has (envelopeFlags o) flagHwid = o.hwid.isSome := by
  unfold envelopeFlags flagsOf
  generalize o.signingKey.isSome = a, o.ttlSeconds.isSome = b, o.hwid.isSome = c, o.pad = d, o.stealth = e
  revert a b c d e
  decide

/-- The layer bits are the three that `unwrap` looks at. -/
theorem has_of_layerBits {f g : UInt8} (h : layerBits f = layerBits g) :
    has f flagPadded = has g flagPadded ∧ has f flagTtl = has g flagTtl ∧ has f flagSigned = has g flagSigned := by
  have mask : ∀ (x flag : UInt8), flag ∈ [flagTtl, flagSigned, flagPadded] →
      x &&& flag = layerBits x &&& flag := by
    intro x flag hflag
    unfold layerBits
    rw [UInt8.and_assoc]
    congr 1
    simp only [List.mem_cons, List.not_mem_nil, or_false] at hflag
    rcases hflag with rfl | rfl | rfl <;> decide
  simp only [has]
  refine ⟨?_, ?_, ?_⟩ <;> rw [mask f _ (by decide), mask g _ (by decide), h]

theorem unwrap_congr {f g : UInt8} (h : layerBits f = layerBits g) (verifyKey : Option Bytes) (now : ℚ)
    (p : Bytes) : unwrap B f verifyKey now p = unwrap B g verifyKey now p := by
  obtain ⟨h1, h2, h3⟩ := has_of_layerBits h
  simp only [unwrap, peel, stage, h1, h2, h3]

/-! ## Each layer read back -/

theorem stripPadding_addPadding {d : Draws} {data p : Bytes} (h : addPadding d data = .ok p) :
    stripPadding p = .ok data := by
  simp only [addPadding, bind_eq_ok, packUInt_ok_iff] at h
  obtain ⟨_, ⟨hlt, rfl⟩, h⟩ := h
  obtain rfl : _ = p := by simpa using h
  generalize hn : BigEndian.decode d.padLen.val % (padMax - padMin + 1) + padMin = n at hlt
  have hb : (UInt8.ofNat n).toNat = n := by rw [UInt8.toNat_ofNat']; omega
  have hlen : (d.pad n).val.length = n := (d.pad n).property
  simp [stripPadding, BigEndian.encode, hb, hlen, Nat.add_comm 1 n]

/-- The expiry is read back as it was packed, and compared with the clock as it is. -/
theorem stripTtl_of_packTtl {now : ℚ} (now' : ℚ) {ttl : Int} {raw : Bytes} (data : Bytes)
    (h : packTtl now ttl = .ok raw) :
    stripTtl now' (raw ++ data) =
      if ((pyInt now + ttl : Int) : ℚ) < now' then
        .error (rottenCorpseError ("Payload expired at timestamp " ++ toString (pyInt now + ttl).toNat))
      else .ok data := by
  unfold packTtl at h
  simp only at h
  split at h
  · rename_i hnn
    obtain ⟨hlt, rfl⟩ := packUInt_ok_iff.mp h
    have hexp : ((pyInt now + ttl).toNat : ℚ) = ((pyInt now + ttl : Int) : ℚ) := by
      exact_mod_cast Int.toNat_of_nonneg hnn
    have htake : (BigEndian.encode 8 (pyInt now + ttl).toNat ++ data).take ttlSize =
        BigEndian.encode 8 (pyInt now + ttl).toNat := by
      rw [List.take_append_of_le_length (by simp [ttlSize])]
      exact List.take_of_length_le (by simp [ttlSize])
    have hdrop : (BigEndian.encode 8 (pyInt now + ttl).toNat ++ data).drop ttlSize = data :=
      List.drop_left' (by simp [ttlSize])
    have hshort : ¬ (BigEndian.encode 8 (pyInt now + ttl).toNat ++ data).length < ttlSize := by simp [ttlSize]
    simp only [stripTtl, if_neg hshort, htake, hdrop, unpackTtl, unpackUInt_ok (BigEndian.length_encode 8 _),
      BigEndian.decode_encode hlt, ok_bind, hexp]
    rfl
  · cases h

theorem stripTtl_packTtl {now now' : ℚ} {ttl : Int} {raw data : Bytes} (h : packTtl now ttl = .ok raw)
    (hfresh : now' ≤ ((pyInt now + ttl : Int) : ℚ)) : stripTtl now' (raw ++ data) = .ok data := by
  rw [stripTtl_of_packTtl now' data h, if_neg (not_lt.mpr hfresh)]

/-- Past the expiry. -/
theorem stripTtl_rotten {now now' : ℚ} {ttl : Int} {raw : Bytes} (h : packTtl now ttl = .ok raw)
    (hpast : ((pyInt now + ttl : Int) : ℚ) < now') (data : Bytes) :
    ∃ e, stripTtl now' (raw ++ data) = .error e ∧ e.isA .rottenCorpse = true := by
  rw [stripTtl_of_packTtl now' data h, if_pos hpast]
  exact ⟨_, rfl, rfl⟩

theorem length_packTtl {now : ℚ} {ttl : Int} {raw : Bytes} (h : packTtl now ttl = .ok raw) :
    raw.length = ttlSize := by
  unfold packTtl at h
  simp only at h
  split at h
  · obtain ⟨-, rfl⟩ := packUInt_ok_iff.mp h
    exact BigEndian.length_encode 8 _
  · cases h

/-- Past the expiry or not, what comes off is what stands behind the eight bytes. -/
theorem stripTtl_only {now' : ℚ} {raw data y : Bytes} (hraw : raw.length = ttlSize)
    (h : stripTtl now' (raw ++ data) = .ok y) : y = data := by
  unfold stripTtl at h
  split at h
  · cases h
  · simp only [bind_eq_ok] at h
    obtain ⟨expiry, -, h⟩ := h
    split at h
    · cases h
    · rw [← Except.ok.inj h, List.drop_left' hraw]

/-- What `kill` puts in front of the compressed bytes it signs. -/
def pactSection (pub sig : Bytes) : Bytes :=
  BigEndian.encode 2 pub.length ++ pub ++ BigEndian.encode 2 sig.length ++ sig

theorem length_pactSection (pub sig : Bytes) : (pactSection pub sig).length = 2 + pub.length + 2 + sig.length := by
  simp [pactSection]; omega

/-- A signature section in front of `data` is skipped, and decides by the signature alone. -/
theorem stripPact_section {pub sig data : Bytes} (hp : pub.length < 65536) (hs : sig.length < 65536)
    (verifyKey : Option Bytes) :
    stripPact B verifyKey (pactSection pub sig ++ data) =
      (do let valid ← verifyWith B verifyKey sig data
          if valid then pure data else throw (brokenPactError "ECDSA signature verification failed")) := by
  have hlen : (pactSection pub sig ++ data).length = 2 + pub.length + 2 + sig.length + data.length := by
    rw [List.length_append, length_pactSection]
  have h1 : unpackFrom 2 (pactSection pub sig ++ data) 0 = .ok pub.length := by
    have := unpackFrom_append (w := 2) hp [] (pub ++ BigEndian.encode 2 sig.length ++ sig ++ data) rfl
    simpa [pactSection] using this
  have h2 : unpackFrom 2 (pactSection pub sig ++ data) (2 + pub.length) = .ok sig.length := by
    have := unpackFrom_append (w := 2) hs (BigEndian.encode 2 pub.length ++ pub) (sig ++ data)
      (show _ = 2 + pub.length by simp)
    simpa [pactSection] using this
  have h3 : slice (2 + pub.length + 2) (2 + pub.length + 2 + sig.length) (pactSection pub sig ++ data) = sig := by
    have := slice_append_right (a := BigEndian.encode 2 pub.length ++ pub ++ BigEndian.encode 2 sig.length)
      (b := sig) (c := data) (i := 2 + pub.length + 2) (j := 2 + pub.length + 2 + sig.length) (by simp; omega) rfl
    simpa [pactSection] using this
  have h4 : (pactSection pub sig ++ data).drop (2 + pub.length + 2 + sig.length) = data :=
    List.drop_left' (length_pactSection pub sig)
  have n1 : ¬ (pactSection pub sig ++ data).length < 4 := by omega
  have n2 : ¬ (pactSection pub sig ++ data).length < 2 + pub.length + 2 := by omega
  have n3 : ¬ (pactSection pub sig ++ data).length < 2 + pub.length + 2 + sig.length := by omega
  simp only [stripPact, if_neg n1, h1, ok_bind, if_neg n2, h2, if_neg n3, h3, h4]

/-- Two length fields that fit make any string a signature section and a rest. -/
theorem pactSection_split {data : Bytes} {n m : Nat} (hn : unpackFrom 2 data 0 = .ok n)
    (hm : unpackFrom 2 data (2 + n) = .ok m) (hlen : 2 + n + 2 + m ≤ data.length) :
    ∃ pub, pub.length = n ∧ n < 65536 ∧ m < 65536 ∧
      data = pactSection pub (slice (2 + n + 2) (2 + n + 2 + m) data) ++ data.drop (2 + n + 2 + m) := by
  have field : ∀ {i k}, i + 2 ≤ data.length → unpackFrom 2 data i = .ok k →
      k < 65536 ∧ BigEndian.encode 2 k = slice i (i + 2) data := by
    intro i k hi hk
    have hw : (slice i (i + 2) data).length = 2 := by rw [length_slice]; omega
    rw [unpackFrom_ok hi] at hk
    obtain rfl := Except.ok.inj hk
    have hlt := BigEndian.decode_lt (slice i (i + 2) data)
    have henc := BigEndian.encode_decode (slice i (i + 2) data)
    rw [hw] at hlt henc
    exact ⟨hlt, henc⟩
  obtain ⟨hn', hnf⟩ := field (by omega) hn
  obtain ⟨hm', hmf⟩ := field (by omega) hm
  have hpub : (slice 2 (2 + n) data).length = n := by rw [length_slice]; omega
  have hsig : (slice (2 + n + 2) (2 + n + 2 + m) data).length = m := by rw [length_slice]; omega
  refine ⟨slice 2 (2 + n) data, hpub, hn', hm', ?_⟩
  rw [pactSection, hpub, hsig, hnf, hmf]
  simp only [List.append_assoc]
  rw [slice_append_drop _ data (by omega), slice_append_drop _ data (by omega), slice_append_drop _ data (by omega),
    slice_append_drop _ data (by omega), List.drop_zero]

variable {B}

/-- What comes off a signature layer: a section whose signature the caller's key accepts over the rest. -/
theorem stripPact_ok_iff {verifyKey : Option Bytes} {plaintext z : Bytes} :
    stripPact B verifyKey plaintext = .ok z ↔
      ∃ pub sig, pub.length < 65536 ∧ sig.length < 65536 ∧ plaintext = pactSection pub sig ++ z ∧
        verifyWith B verifyKey sig z = .ok true := by
  refine ⟨?_, ?_⟩
  · intro h
    unfold stripPact at h
    split at h
    · cases h
    simp only [bind_eq_ok] at h
    obtain ⟨pubLen, hpub, h⟩ := h
    split at h
    · cases h
    simp only [bind_eq_ok] at h
    obtain ⟨sigLen, hsig, h⟩ := h
    split at h
    · cases h
    rename_i hlen
    obtain ⟨pub, rfl, hp, hs, heq⟩ := pactSection_split hpub hsig (by omega)
    simp only [bind_eq_ok] at h
    obtain ⟨valid, hv, h⟩ := h
    split at h
    · rename_i hvalid
      obtain rfl : _ = z := Except.ok.inj h
      refine ⟨pub, _, hp, ?_, heq, hvalid ▸ hv⟩
      rw [length_slice]; omega
    · cases h
  · intro hx
    obtain ⟨pub, sig, hp, hs, rfl, hv⟩ := hx
    rw [stripPact_section B hp hs, hv]
    rfl

/-! ## The round trip -/

theorem stripPact_signPact {sk vk coin compressed p : Bytes} (hm : B.EcdsaMatch sk vk)
    (h : signPact B (some sk) coin compressed = .ok p) : stripPact B (some vk) p = .ok compressed := by
  simp only [signPact, bind_eq_ok, packUInt_ok_iff] at h
  obtain ⟨sig, hsig, pk, -, _, ⟨hp, rfl⟩, _, ⟨hs, rfl⟩, ⟨⟩⟩ := h
  exact stripPact_ok_iff.mpr ⟨_, sig, hp, hs, rfl, hm _ _ _ hsig⟩

/-- Whichever key is asked, what comes off is what was signed. -/
theorem stripPact_only {sk coin compressed p z : Bytes} {verifyKey : Option Bytes}
    (h : signPact B (some sk) coin compressed = .ok p) (hz : stripPact B verifyKey p = .ok z) : z = compressed := by
  simp only [signPact, bind_eq_ok, packUInt_ok_iff] at h
  obtain ⟨sig, hsig, pk, -, _, ⟨hp, rfl⟩, _, ⟨hs, rfl⟩, ⟨⟩⟩ := h
  have hz : stripPact B verifyKey (pactSection (B.publicDer pk) sig ++ compressed) = .ok z := hz
  rw [stripPact_section B hp hs] at hz
  simp only [bind_eq_ok] at hz
  obtain ⟨valid, -, hz⟩ := hz
  split at hz
  · exact (Except.ok.inj hz).symm
  · cases hz

/-- Not past the expiry that `wrap` packed at time `now`. -/
def Fresh (o : KillOptions) (now now' : ℚ) : Prop :=
  ∀ ttl ∈ o.ttlSeconds, now' ≤ ((pyInt now + ttl : Int) : ℚ)

/-- The reader's verify key accepts the writer's signatures. -/
def Verifies (B : Backend) (o : KillOptions) (verifyKey : Option Bytes) : Prop :=
  ∀ sk ∈ o.signingKey, ∃ vk, verifyKey = some vk ∧ B.EcdsaMatch sk vk

/-- The padding of what `wrap` made comes off to the other two layers. -/
theorem unpad_wrap {o : KillOptions} {d : Draws} {now : ℚ} {compressed p : Bytes}
    (h : wrap B o d now compressed = .ok p) :
    ∃ signedData timed, signPact B o.signingKey d.coin compressed = .ok signedData ∧
      addTtl now o.ttlSeconds signedData = .ok timed ∧
      stage (envelopeFlags o) flagPadded stripPadding p = .ok timed := by
  obtain ⟨fpad, -, -, -⟩ := has_envelopeFlags o
  simp only [wrap, bind_eq_ok] at h
  obtain ⟨signedData, hsign, timed, httl, hpad⟩ := h
  refine ⟨signedData, timed, hsign, httl, ?_⟩
  rw [stage, fpad]
  cases hp : o.pad with
  | true => simp only [hp, if_true] at hpad ⊢; exact stripPadding_addPadding hpad
  | false => simpa [hp] using hpad.symm

theorem addTtl_some {now : ℚ} {ttl : Int} {signedData timed : Bytes} (h : addTtl now (some ttl) signedData = .ok timed) :
    ∃ raw, packTtl now ttl = .ok raw ∧ timed = raw ++ signedData := by
  simp only [addTtl] at h
  split at h
  · cases h
  · simp only [bind_eq_ok] at h
    obtain ⟨raw, hraw, h⟩ := h
    exact ⟨raw, hraw, (Except.ok.inj h).symm⟩

/-- What `wrap` packed has not expired yet. -/
theorem fresh_of_wrap {o : KillOptions} {d : Draws} {now : ℚ} {compressed p : Bytes}
    (h : wrap B o d now compressed = .ok p) : Fresh o now now := by
  obtain ⟨signedData, timed, -, httl, -⟩ := unpad_wrap h
  intro ttl ht
  rw [Option.mem_def.mp ht] at httl
  simp only [addTtl] at httl
  split at httl
  · cases httl
  · exact now_le_expiry now (by omega)

theorem unwrap_wrap {o : KillOptions} {d : Draws} {now now' : ℚ} {compressed p : Bytes} {verifyKey : Option Bytes}
    (h : wrap B o d now compressed = .ok p) (hfresh : Fresh o now now') (hv : Verifies B o verifyKey) :
    unwrap B (envelopeFlags o) verifyKey now' p = .ok compressed := by
  obtain ⟨-, fttl, fsig, -⟩ := has_envelopeFlags o
  obtain ⟨signedData, timed, hsign, httl, h1⟩ := unpad_wrap h
  have h2 : stage (envelopeFlags o) flagTtl (stripTtl now') timed = .ok signedData := by
    rw [stage, fttl]
    cases ht : o.ttlSeconds with
    | none => simpa [ht, addTtl] using httl.symm
    | some ttl =>
      obtain ⟨raw, hraw, rfl⟩ := addTtl_some (ht ▸ httl)
      exact stripTtl_packTtl hraw (hfresh ttl ht)
  have h3 : stage (envelopeFlags o) flagSigned (stripPact B verifyKey) signedData = .ok compressed := by
    rw [stage, fsig]
    cases hs : o.signingKey with
    | none => simpa [hs, signPact] using hsign.symm
    | some sk =>
      obtain ⟨vk, rfl, hm⟩ := hv sk hs
      exact stripPact_signPact hm (hs ▸ hsign)
  simp only [unwrap, peel, h1, ok_bind, h2, h3]

/-- Whatever the time and the verify key: under its own flags, what comes off at all is
    what was wrapped. -/
theorem unwrap_wrap_only {o : KillOptions} {d : Draws} {now now' : ℚ} {compressed p z : Bytes}
    {verifyKey : Option Bytes} (h : wrap B o d now compressed = .ok p)
    (hz : unwrap B (envelopeFlags o) verifyKey now' p = .ok z) : z = compressed := by
  obtain ⟨-, fttl, fsig, -⟩ := has_envelopeFlags o
  obtain ⟨signedData, timed, hsign, httl, h1⟩ := unpad_wrap h
  simp only [unwrap, peel, h1, ok_bind, bind_eq_ok] at hz
  obtain ⟨q, hq, hz⟩ := hz
  obtain rfl : q = signedData := by
    rw [stage, fttl] at hq
    cases ht : o.ttlSeconds with
    | none =>
      simp only [ht, addTtl, Option.isSome_none, Bool.false_eq_true, if_false] at hq httl
      exact (Except.ok.inj hq).symm.trans (Except.ok.inj httl).symm
    | some ttl =>
      obtain ⟨raw, hraw, rfl⟩ := addTtl_some (ht ▸ httl)
      simp only [ht, Option.isSome_some, if_true] at hq
      exact stripTtl_only (length_packTtl hraw) hq
  rw [stage, fsig] at hz
  cases hs : o.signingKey with
  | none =>
    simp only [hs, signPact, Option.isSome_none, Bool.false_eq_true, if_false] at hz hsign
    exact (Except.ok.inj hz).symm.trans (Except.ok.inj hsign).symm
  | some sk =>
    simp only [hs, Option.isSome_some, if_true] at hz
    exact stripPact_only (hs ▸ hsign) hz

end Amcrypt.Core
