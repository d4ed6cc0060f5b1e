/-
  Amcrypt.Core.Fields — the fixed-width fields that `kill` writes, and the values that do
  not fit them.

  A padding length is drawn from 16 to 256 and packed in one byte, which 256 does not
  fit. An expiry is packed in eight unsigned bytes: a time to live of 2^64 seconds, or a
  clock far enough before 1970, does not fit. The nonce length always fits; the two
  fields of a signature do, for the keys and signatures of an elliptic curve.
  `kill_fields`: given what `kill` asks of its arguments, it returns exactly if the drawn
  padding length is not 256 and the expiry fits.
-/

import Amcrypt.Core.Header

namespace Amcrypt.Core

open Lib

variable {B : Backend}

/-- The length that `_add_padding` draws. -/
def Draws.padLength (d : Draws) : Nat := BigEndian.decode d.padLen.val % (padMax - padMin + 1) + padMin

/-- The expiry of a `kill` at time `now` fits its field. -/
def ExpiryFits (now : ℚ) (ttlSeconds : Int) : Prop := 0 ≤ pyInt now + ttlSeconds ∧ pyInt now + ttlSeconds < 2 ^ 64

/-- The DER bytes of a private key of an elliptic curve, whose public key and signatures
    are short: a few hundred bytes for any curve. -/
def EcKey (B : Backend) (signingKey : Bytes) : Prop :=
  ∃ pk, B.loadDerPrivateKey signingKey = .ok pk ∧ B.isEcPrivate pk = true ∧ (B.publicDer pk).length < 2 ^ 16 ∧
    ∀ data coin, (B.ecSign pk data coin).length < 2 ^ 16

/-! ## Each field -/

theorem addPadding_returns {d : Draws} {data : Bytes} : Returns (addPadding d data) ↔ d.padLength < 256 := by
  have hfield : Returns (packUInt 1 d.padLength) ↔ d.padLength < 256 := packUInt_returns
  rw [← hfield]
  refine ⟨?_, ?_⟩
  · intro hx
    obtain ⟨p, h⟩ := hx
    simp only [addPadding, bind_eq_ok] at h
    obtain ⟨lenField, h, -⟩ := h
    exact ⟨lenField, h⟩
  · intro hx
    obtain ⟨lenField, h⟩ := hx
    exact ⟨lenField ++ (d.pad d.padLength).val ++ data, bind_eq_ok.mpr ⟨lenField, h, rfl⟩⟩

theorem packTtl_returns {now : ℚ} {ttl : Int} : Returns (packTtl now ttl) ↔ ExpiryFits now ttl := by
  simp only [packTtl, ExpiryFits]
  split
  · rename_i hpos
    rw [packUInt_returns]
    omega
  · rename_i hneg
    simp only [not_returns_error, hneg, false_and]

/-- A positive time to live is packed exactly if the expiry fits. -/
theorem addTtl_returns {now : ℚ} {ttlSeconds : Option Int} (hpos : ∀ ttl ∈ ttlSeconds, 0 < ttl) (signedData : Bytes) :
    Returns (addTtl now ttlSeconds signedData) ↔ ∀ ttl ∈ ttlSeconds, ExpiryFits now ttl := by
  cases ttlSeconds with
  | none =>
    refine ⟨?_, ?_⟩
    · intro _ ttl h
      cases h
    · intro _
      exact returns_ok signedData
  | some ttl =>
    have hnot : ¬ ttl ≤ 0 := by
      have := hpos ttl rfl
      omega
    simp only [Option.mem_some_iff, forall_eq', ← packTtl_returns, addTtl, if_neg hnot]
    refine ⟨?_, ?_⟩
    · intro hx
      obtain ⟨p, h⟩ := hx
      obtain ⟨ttlRaw, h, -⟩ := bind_eq_ok.mp h
      exact ⟨ttlRaw, h⟩
    · intro hx
      obtain ⟨ttlRaw, h⟩ := hx
      exact ⟨ttlRaw ++ signedData, bind_eq_ok.mpr ⟨ttlRaw, h, rfl⟩⟩

theorem signPact_returns {signingKey : Option Bytes} (h : ∀ sk ∈ signingKey, EcKey B sk) (coin compressed : Bytes) :
    Returns (signPact B signingKey coin compressed) := by
  cases signingKey with
  | none => exact returns_ok compressed
  | some sk =>
    obtain ⟨pk, hload, hec, hpub, hsig⟩ := h sk rfl
    have hsign : ecdsaSign B sk compressed coin = .ok (B.ecSign pk compressed coin) := by
      simp only [ecdsaSign, hload, ok_bind, hec, if_true, pure_eq_ok]
    obtain ⟨pubLen, h1⟩ := packUInt_returns.mpr (show (B.publicDer pk).length < 256 ^ 2 from hpub)
    obtain ⟨sigLen, h2⟩ := packUInt_returns.mpr (show (B.ecSign pk compressed coin).length < 256 ^ 2 from hsig _ _)
    simp only [signPact, hsign, hload, ok_bind, h1, h2]
    exact returns_ok _

/-! ## All of them -/

variable {obj : B.Obj} {o : KillOptions} {d : Draws} {now : ℚ} {self : Necromancer} {key : Key}

theorem wrap_returns (hsk : ∀ sk ∈ o.signingKey, EcKey B sk) (hpos : ∀ ttl ∈ o.ttlSeconds, 0 < ttl)
    (compressed : Bytes) :
    Returns (wrap B o d now compressed) ↔
      (o.pad = true → d.padLength < 256) ∧ ∀ ttl ∈ o.ttlSeconds, ExpiryFits now ttl := by
  obtain ⟨signedData, hsign⟩ := signPact_returns hsk d.coin compressed
  rw [← addTtl_returns hpos signedData]
  refine ⟨?_, ?_⟩
  · intro hx
    obtain ⟨p, h⟩ := hx
    simp only [wrap, hsign, ok_bind, bind_eq_ok] at h
    obtain ⟨timed, httl, hpad⟩ := h
    refine ⟨?_, timed, httl⟩
    intro hp
    rw [if_pos hp] at hpad
    exact addPadding_returns.mp ⟨p, hpad⟩
  · intro hx
    obtain ⟨hpad, timed, httl⟩ := hx
    simp only [wrap, hsign, ok_bind, httl]
    by_cases hp : o.pad = true
    · rw [if_pos hp]
      exact addPadding_returns.mpr (hpad hp)
    · rw [if_neg hp]
      exact returns_ok timed

/-- A nonce has 12 bytes, so its length always packs. -/
theorem pack_returns (B : Backend) (key : Key) (nonce : Nonce) (ct : Bytes) (flags : UInt8) (stealth : Bool) :
    Returns (pack B key nonce.val ct flags stealth) :=
  ⟨_, pack_ok_iff.mpr ⟨by rw [nonce.property]; omega, rfl⟩⟩

/-- Given a live instance, a picklable object, a positive time to live and a valid signing
    key, `kill` returns exactly if the two bytes drawn for the padding are not 240 modulo
    241 and the expiry fits. -/
theorem kill_fields (halive : self.destroyed = false) (hkey : self.key = some key) (hobj : Returns (B.dumps obj))
    (hsk : ∀ sk ∈ o.signingKey, EcKey B sk) (hpos : ∀ ttl ∈ o.ttlSeconds, 0 < ttl) :
    Returns (kill B obj o d now self).result ↔
      (o.pad = true → BigEndian.decode d.padLen.val % 241 ≠ 240) ∧ ∀ ttl ∈ o.ttlSeconds, ExpiryFits now ttl := by
  obtain ⟨pickled, hp⟩ := hobj
  have hdraw : d.padLength < 256 ↔ BigEndian.decode d.padLen.val % 241 ≠ 240 := by
    unfold Draws.padLength padMax padMin
    omega
  rw [← hdraw, ← wrap_returns hsk hpos (B.compress pickled), kill_alive obj o d now halive]
  simp only [hp, hkey]
  cases hw : wrap B o d now (B.compress pickled) with
  | error e => simp only [not_returns_error]
  | ok p => simp only [pack_returns, returns_ok]

/-! ## Runs -/

section
open Reference

/-- Two bytes that make a padding of 256 bytes. -/
def longDraws : Draws := { runDraws with padLen := ⟨[0, 240], rfl⟩ }

/-- A padding length of 256 does not fit its byte: `kill` raises. -/
theorem kill_fields_run :
    (kill reference [1, 2, 3] { pad := true } longDraws 0 live).result = .error .structError := by
  decide +kernel

/-- One less, with every option, and it returns. -/
theorem kill_returns_run :
    Returns (kill reference [1, 2, 3] runOptions { longDraws with padLen := ⟨[0, 239], rfl⟩ } 1000 live).result := by
  have hsk : ∀ sk ∈ runOptions.signingKey, EcKey reference sk := by
    intro sk hsk
    obtain rfl : [0x6b] = sk := by simpa [runOptions] using hsk
    exact ⟨[0x6b], rfl, rfl, by decide, fun data coin => by simp [reference, ecSign]⟩
  refine (kill_fields rfl rfl ⟨_, rfl⟩ hsk ?_).mpr ⟨fun _ => by decide, ?_⟩
  · intro ttl h
    obtain rfl : 60 = ttl := by simpa [runOptions] using h
    omega
  · intro ttl h
    obtain rfl : 60 = ttl := by simpa [runOptions] using h
    unfold ExpiryFits
    decide

end

end Amcrypt.Core
