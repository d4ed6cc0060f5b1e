/-
  Amcrypt.Core.Envelope — the v4 binary envelope (`core.py`: the envelope constants,
  the stealth helpers, `_is_poison_pill`, `_pack`, `_unpack`).

  `magic (4) | version (1) | flags (1) | nonce length (2) | nonce | ciphertext + tag`

  `unpack_ok_iff` is the reader's grammar: the byte strings `_unpack` accepts and what
  it reads from each, in both directions; every other one is a `CorpseDeliveryError`
  (`unpack_error_kind`). The writer stays inside the grammar (`unpack_of_pack`) and
  never writes a poison pill (`pack_not_pill`), since the version byte stands where the
  pill has 0xCA. The Doppelganger's envelope has the same header with another version,
  so the header functions take it as an argument.
-/

import Amcrypt.Crypto

namespace Amcrypt.Core

open Lib

/-! ## Constants -/

/-- `b"LCH1"`. -/
def magic : Bytes := [0x4c, 0x43, 0x48, 0x31]
def version : UInt8 := 4
def headerSize : Nat := 8

def flagTtl : UInt8 := 0x01
def flagStealth : UInt8 := 0x02
def flagHwid : UInt8 := 0x04
def flagSigned : UInt8 := 0x08
def flagPadded : UInt8 := 0x10

/-- `b"\xde\xad\xbe\xef\xca\xfe"`. -/
def poisonPill : Bytes := [0xde, 0xad, 0xbe, 0xef, 0xca, 0xfe]

/-- `flags & flag`, as a condition. -/
def has (flags flag : UInt8) : Bool := flags &&& flag != 0

/-- The bits that decide how `revive` reads a decrypted plaintext. -/
def layerBits (flags : UInt8) : UInt8 := flags &&& (flagTtl ||| flagSigned ||| flagPadded)

def isPoisonPill (data : Bytes) : Bool := decide (6 ≤ data.length) && data.take 6 == poisonPill

/-! ## Stealth -/

/-- `b"amcrypt-stealth-mask"`. -/
def stealthLabel : Bytes :=
  [0x61, 0x6d, 0x63, 0x72, 0x79, 0x70, 0x74, 0x2d, 0x73, 0x74, 0x65, 0x61, 0x6c, 0x74, 0x68, 0x2d, 0x6d, 0x61,
    0x73, 0x6b]

def stealthMask (B : Backend) (key : Key) : Bytes := (B.hmacSha256 key.val stealthLabel).val.take 4

def applyStealthMagic (magic mask : Bytes) : Bytes := List.zipWith (· ^^^ ·) magic mask

/-! ## The header -/

/-- `struct.pack(">4sBBH", ..)`, for a magic of 4 bytes. -/
def packHeader (magic : Bytes) (version flags : UInt8) (len : Nat) : Except PyErr Bytes := do
  let lenField ← packUInt 2 len
  pure (magic ++ [version, flags] ++ lenField)

/-- `struct.unpack_from(">4sBBH", data, 0)`. -/
def unpackHeader (data : Bytes) : Except PyErr (Bytes × UInt8 × UInt8 × Nat) := do
  if data.length < headerSize then throw .structError
  else
    let version ← index data 4
    let flags ← index data 5
    let len ← unpackFrom 2 data 6
    pure (data.take 4, version, flags, len)

/-- `Necromancer._pack`. -/
def pack (B : Backend) (key : Key) (nonce ciphertextWithTag : Bytes) (flags : UInt8) (stealth : Bool) :
    Except PyErr Bytes := do
  let flags := if stealth then flags ||| flagStealth else flags
  let magic := if stealth then applyStealthMagic magic (stealthMask B key) else magic
  let header ← packHeader magic version flags nonce.length
  pure (header ++ nonce ++ ciphertextWithTag)

def invalidMagic (got : Bytes) : PyErr :=
  corpseDeliveryError ("Invalid magic bytes: expected " ++ pyRepr magic ++ ", got " ++ pyRepr got)

def unsupportedVersion (version : UInt8) : PyErr :=
  corpseDeliveryError ("Unsupported version: " ++ toString version.toNat)

/-- `Necromancer._unpack`. -/
def unpack (data : Bytes) (stealth : Bool) : Except PyErr (Bytes × Bytes × UInt8) :=
  if data.length < headerSize then throw (corpseDeliveryError "Data too short for header")
  else do
    let (m, v, flags, nonceLen) ← unpackHeader data
    if !stealth && m != magic then throw (invalidMagic m)
    else if v ≠ version then throw (unsupportedVersion v)
    else if data.length < headerSize + nonceLen + 16 then throw (corpseDeliveryError "Payload truncated")
    else pure (slice headerSize (headerSize + nonceLen) data, data.drop (headerSize + nonceLen), flags)

/-! ## The header read back -/

/-- The eight header bytes. -/
def header (magic : Bytes) (version flags : UInt8) (len : Nat) : Bytes :=
  magic ++ (version :: flags :: BigEndian.encode 2 len)

theorem packHeader_ok_iff {m : Bytes} {v f : UInt8} {len : Nat} {bs : Bytes} :
    packHeader m v f len = .ok bs ↔ len < 65536 ∧ bs = header m v f len := by
  unfold packHeader packUInt header
  by_cases h : len < 65536
  · simp [h, bind, Except.bind, pure, Except.pure, eq_comm]
  · simp [h, bind, Except.bind]

theorem length_header {m : Bytes} (hm : m.length = 4) (v f : UInt8) (len : Nat) :
    (header m v f len).length = headerSize := by
  simp [header, headerSize, hm]

/-- Every string of at least eight bytes is a header and the rest. -/
theorem header_split {data : Bytes} (h : headerSize ≤ data.length) :
    ∃ m v f len rest, m.length = 4 ∧ len < 65536 ∧ data = header m v f len ++ rest := by
  match data, h with
  | m0 :: m1 :: m2 :: m3 :: v :: f :: l0 :: l1 :: rest, _ =>
    have hlen : BigEndian.decode [l0, l1] < 256 ^ 2 := BigEndian.decode_lt [l0, l1]
    refine ⟨[m0, m1, m2, m3], v, f, BigEndian.decode [l0, l1], rest, rfl, hlen, ?_⟩
    have := BigEndian.encode_decode [l0, l1]
    simp only [List.length_cons, List.length_nil, Nat.zero_add, Nat.reduceAdd] at this
    simp [header, this]

theorem unpackHeader_header {m : Bytes} (hm : m.length = 4) (v f : UInt8) {len : Nat} (hl : len < 65536)
    (rest : Bytes) : unpackHeader (header m v f len ++ rest) = .ok (m, v, f, len) := by
  have h8 := length_header hm v f len
  match m, hm with
  | [m0, m1, m2, m3], _ =>
    have hlen : unpackFrom 2 (header [m0, m1, m2, m3] v f len ++ rest) 6 = .ok len := by
      have := unpackFrom_append (w := 2) hl [m0, m1, m2, m3, v, f] rest rfl
      simpa [header] using this
    have hsize : ¬ (header [m0, m1, m2, m3] v f len ++ rest).length < headerSize := by
      rw [List.length_append]; omega
    simp only [unpackHeader, hlen, if_neg hsize]
    rfl

/-! ## What `_unpack` accepts -/

theorem unpack_header {m : Bytes} (hm : m.length = 4) (v f : UInt8) {len : Nat} (hl : len < 65536)
    (rest : Bytes) (stealth : Bool) :
    unpack (header m v f len ++ rest) stealth =
      if (!stealth && m != magic) = true then .error (invalidMagic m)
      else if v ≠ version then .error (unsupportedVersion v)
      else if rest.length < len + 16 then .error (corpseDeliveryError "Payload truncated")
      else .ok (rest.take len, rest.drop len, f) := by
  have h8 := length_header hm v f len
  have hsize : ¬ (header m v f len ++ rest).length < headerSize := by rw [List.length_append]; omega
  have hslice : slice headerSize (headerSize + len) (header m v f len ++ rest) = rest.take len := by
    simp only [slice, ← h8, List.take_length_add_append, List.drop_left]
  have hdrop : (header m v f len ++ rest).drop (headerSize + len) = rest.drop len := by
    rw [← h8, List.drop_length_add_append]
  have htrunc : (header m v f len ++ rest).length < headerSize + len + 16 ↔ rest.length < len + 16 := by
    rw [List.length_append, h8]; omega
  simp only [unpack, if_neg hsize, unpackHeader_header hm v f hl, bind, Except.bind, hslice, hdrop, htrunc]
  rfl

/-- The grammar of `_unpack`: exactly these byte strings are accepted, and read as this. -/
theorem unpack_ok_iff {data nonce ct : Bytes} {f : UInt8} {stealth : Bool} :
    unpack data stealth = .ok (nonce, ct, f) ↔
      ∃ m, m.length = 4 ∧ (stealth = true ∨ m = magic) ∧ nonce.length < 65536 ∧ 16 ≤ ct.length ∧
        data = header m version f nonce.length ++ (nonce ++ ct) := by
  refine ⟨?_, ?_⟩
  · intro h
    by_cases hsize : data.length < headerSize
    · simp [unpack, hsize, throw, throwThe, MonadExceptOf.throw] at h
    obtain ⟨m, v, f', len, rest, hm, hl, rfl⟩ := header_split (Nat.le_of_not_lt hsize)
    rw [unpack_header hm v f' hl] at h
    split at h
    · cases h
    rename_i hmagic
    split at h
    · cases h
    rename_i hv
    split at h
    · cases h
    rename_i htrunc
    obtain ⟨rfl, rfl, rfl⟩ := by simpa using h
    obtain rfl : v = version := by simpa using hv
    have hn : (rest.take len).length = len := by rw [List.length_take]; omega
    refine ⟨m, hm, ?_, by omega, by rw [List.length_drop]; omega, by rw [hn, List.take_append_drop]⟩
    cases stealth <;> simp_all
  · intro hx
    obtain ⟨m, hm, hmagic, hn, hc, rfl⟩ := hx
    rw [unpack_header hm version f hn]
    have h1 : ¬ (!stealth && m != magic) = true := by
      rcases hmagic with rfl | rfl <;> simp
    simp [h1, hc]

/-- Whatever `_unpack` refuses, it refuses as malformed. -/
theorem unpack_error_kind {data : Bytes} {stealth : Bool} {e : PyErr} (h : unpack data stealth = .error e) :
    e.isA .corpseDelivery = true := by
  by_cases hsize : data.length < headerSize
  · simp only [unpack, if_pos hsize] at h
    cases h; rfl
  · obtain ⟨m, v, f', len, rest, hm, hl, rfl⟩ := header_split (Nat.le_of_not_lt hsize)
    rw [unpack_header hm v f' hl] at h
    repeat' split at h
    all_goals cases h
    all_goals rfl

/-! ## What `_pack` writes -/

/-- Masked or not, the magic has four bytes. -/
theorem length_packedMagic (B : Backend) (key : Key) (stealth : Bool) :
    (if stealth then applyStealthMagic magic (stealthMask B key) else magic).length = 4 := by
  split
  · simp [applyStealthMagic, stealthMask, magic, (B.hmacSha256 key.val stealthLabel).property]
  · rfl

theorem pack_ok_iff {B : Backend} {key : Key} {nonce ct : Bytes} {f : UInt8} {stealth : Bool} {E : Bytes} :
    pack B key nonce ct f stealth = .ok E ↔ nonce.length < 65536 ∧
      E = header (if stealth then applyStealthMagic magic (stealthMask B key) else magic) version
        (if stealth then f ||| flagStealth else f) nonce.length ++ (nonce ++ ct) := by
  unfold pack
  cases hp : packHeader (if stealth then applyStealthMagic magic (stealthMask B key) else magic) version
    (if stealth then f ||| flagStealth else f) nonce.length with
  | error e =>
    have hno : ¬ nonce.length < 65536 := by
      intro hn
      rw [packHeader_ok_iff.mpr ⟨hn, rfl⟩] at hp
      cases hp
    simp [bind, Except.bind, hp, hno]
  | ok bs =>
    obtain ⟨hn, rfl⟩ := packHeader_ok_iff.mp hp
    simp [bind, Except.bind, pure, Except.pure, hp, hn, eq_comm]

/-- The reader takes a packed envelope apart again. -/
theorem unpack_of_pack {B : Backend} {key : Key} {nonce ct : Bytes} {f : UInt8} {stealth : Bool} {E : Bytes}
    (h : pack B key nonce ct f stealth = .ok E) (hc : 16 ≤ ct.length) :
    unpack E stealth = .ok (nonce, ct, if stealth then f ||| flagStealth else f) := by
  obtain ⟨hn, rfl⟩ := pack_ok_iff.mp h
  refine unpack_ok_iff.mpr ⟨_, length_packedMagic B key stealth, ?_, hn, hc, rfl⟩
  cases stealth <;> simp

/-- An envelope with a version byte of 4 is no poison pill. -/
theorem header_not_pill {m : Bytes} (hm : m.length = 4) (f : UInt8) (len : Nat) (rest : Bytes) :
    isPoisonPill (header m version f len ++ rest) = false := by
  match m, hm with
  | [m0, m1, m2, m3], _ => simp [isPoisonPill, header, poisonPill, version]

theorem unpack_not_pill {data nonce ct : Bytes} {f : UInt8} {stealth : Bool}
    (h : unpack data stealth = .ok (nonce, ct, f)) : isPoisonPill data = false := by
  obtain ⟨m, hm, -, -, -, rfl⟩ := unpack_ok_iff.mp h
  exact header_not_pill hm f _ _

theorem pack_not_pill {B : Backend} {key : Key} {nonce ct : Bytes} {f : UInt8} {stealth : Bool} {E : Bytes}
    (h : pack B key nonce ct f stealth = .ok E) : isPoisonPill E = false := by
  obtain ⟨-, rfl⟩ := pack_ok_iff.mp h
  exact header_not_pill (length_packedMagic B key stealth) _ _ _

end Amcrypt.Core
