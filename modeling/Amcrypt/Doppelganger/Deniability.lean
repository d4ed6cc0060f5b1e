/-
  Amcrypt.Doppelganger.Deniability — what an envelope tells the holder of one of its keys.

  The same two objects can be killed with the roles exchanged: the first real and the
  second its decoy, or the other way round. `observe` is what a holder of one key sees: he
  reads the blocks as `revive` does, tries the key on each, and compares the magic with
  `LCH1` under the key's mask. The decoy's block comes first whatever the roles, so a key
  tells the two envelopes apart, and with them whether it is the decoy key or the real one.
  `roles_observable` is the exact extent: it fails to only if AES-GCM opens under it what
  `kill` sealed under the other key (`Confused`).
-/

import Amcrypt.Doppelganger.Selection

namespace Amcrypt.Doppelganger

open Lib Amcrypt.Core

variable (B : Backend)

/-- What the holder of a key sees in an envelope. -/
@[ext] structure Observation where
  /-- The key opens the first block. -/
  first : Bool
  /-- The key opens the second block. -/
  second : Bool
  /-- The magic is `LCH1` under the key's mask. -/
  masked : Bool
  deriving DecidableEq

/-- AES-GCM opens the block. -/
def opens (key : Key) (hwid : Option Bytes) (block : Bytes) : Bool :=
  match B.gcmDecrypt key (block.take nonceLength) (block.drop nonceLength) hwid with
  | .ok _ => true
  | .error _ => false

def observe (corpse : Bytes) (key : Key) (hwid : Option Bytes) (stealth : Bool) : Except PyErr Observation := do
  let (_, decoyBlock, realBlock) ← readBlocks corpse hwid stealth
  pure ⟨opens B key hwid decoyBlock, opens B key hwid realBlock,
    corpse.take 4 == applyStealthMagic magic (stealthMask B key)⟩

variable {B} {realObj decoyObj : B.Obj} {realKey decoyKey : Key} {o : KillOptions} {nonceD nonceR : Nonce}
  {now : ℚ} {E real decoy ttlRaw : Bytes} {bd br : Block B}

theorem opens_block {key : Key} {hwid : Option Bytes} {b : Block B} :
    opens B key hwid b.bytes = true ↔ ∃ p, B.gcmDecrypt key b.nonce.val b.ciphertext hwid = .ok p := by
  have hsplit := b.split
  obtain ⟨hn, hc⟩ := Prod.mk.inj hsplit
  rw [opens, hn, hc]
  cases B.gcmDecrypt key b.nonce.val b.ciphertext hwid with
  | ok p => simp
  | error e => simp

/-- The block that `kill` seals for `obj` under `other` opens under `held` as well. -/
def CrossOpens (held other : Key) (nonce : Nonce) (o : KillOptions) (obj : B.Obj) (now : ℚ) : Prop :=
  ∃ pickled ttlRaw p, B.dumps obj = .ok pickled ∧ ttlPrefix now o.ttlSeconds = .ok ttlRaw ∧
    B.gcmDecrypt held nonce.val (B.gcmEncrypt other nonce.val (ttlRaw ++ B.compress pickled) o.hwid) o.hwid = .ok p

/-- `held` cannot be told from `other`: it opens the block of `other` at both times, and a
    masked magic looks alike under both. -/
def Confused (held other : Key) (nonce : Nonce) (o : KillOptions) (obj : B.Obj) (now₁ now₂ : ℚ) : Prop :=
  CrossOpens held other nonce o obj now₁ ∧ CrossOpens held other nonce o obj now₂ ∧
    (o.stealth = true → applyStealthMagic magic (stealthMask B other) = applyStealthMagic magic (stealthMask B held))

/-- Blocks made of two keys that AES-GCM keeps apart do not cross. -/
theorem not_crossOpens {held other : Key} (h : B.AesApart other held) (nonce : Nonce) (o : KillOptions) (obj : B.Obj)
    (now : ℚ) : ¬ CrossOpens held other nonce o obj now := by
  intro hx
  obtain ⟨pickled, ttlRaw, p, -, -, hp⟩ := hx
  exact h _ _ _ _ hp

theorem crossOpens_iff {held other : Key} {nonce : Nonce} {obj : B.Obj} {pickled : Bytes} {b : Block B}
    (hdump : B.dumps obj = .ok pickled) (httl : ttlPrefix now o.ttlSeconds = .ok ttlRaw)
    (hb : b = ⟨other, nonce, o.hwid, ttlRaw ++ B.compress pickled⟩) :
    opens B held o.hwid b.bytes = true ↔ CrossOpens held other nonce o obj now := by
  rw [opens_block]
  subst hb
  refine ⟨?_, ?_⟩
  · intro hx
    obtain ⟨p, hp⟩ := hx
    exact ⟨pickled, ttlRaw, p, hdump, httl, hp⟩
  · intro hx
    obtain ⟨pickled', ttlRaw', p, hdump', httl', hp⟩ := hx
    obtain rfl : pickled = pickled' := Except.ok.inj (hdump.symm.trans hdump')
    obtain rfl : ttlRaw = ttlRaw' := Except.ok.inj (httl.symm.trans httl')
    exact ⟨p, hp⟩

/-- The first four bytes are those of the decoy key. -/
theorem Killed.masked (h : Killed B realObj decoyObj realKey decoyKey o nonceD nonceR now real decoy ttlRaw bd br E) :
    E.take 4 = if o.stealth then applyStealthMagic magic (stealthMask B decoyKey) else magic := by
  have hm := length_packedMagic B decoyKey o.stealth
  rw [h.envelope, header, List.append_assoc]
  exact List.take_left' hm

/-- The decoy key opens the first block. -/
theorem observe_decoy (haes : B.AesInverts)
    (h : (kill B realObj decoyObj realKey.val decoyKey.val o nonceD nonceR now ()).result = .ok E) :
    ∃ seen, observe B E decoyKey o.hwid o.stealth = .ok seen ∧ seen.first = true ∧
      (seen.second = true ↔ CrossOpens decoyKey realKey nonceR o realObj now) ∧
      seen.masked = ((if o.stealth then applyStealthMagic magic (stealthMask B decoyKey) else magic) ==
        applyStealthMagic magic (stealthMask B decoyKey)) := by
  obtain ⟨real, decoy, ttlRaw, bd, br, hk, -⟩ := killed_of_kill h
  refine ⟨_, by rw [observe, hk.blocks]; rfl, ?_, ?_, ?_⟩
  · exact opens_block.mpr ⟨bd.plaintext, hk.decoy_opens haes⟩
  · exact crossOpens_iff hk.realDumped hk.timed hk.realBlock
  · rw [hk.masked]

/-- The real key opens the second. -/
theorem observe_real (haes : B.AesInverts)
    (h : (kill B realObj decoyObj realKey.val decoyKey.val o nonceD nonceR now ()).result = .ok E) :
    ∃ seen, observe B E realKey o.hwid o.stealth = .ok seen ∧ seen.second = true ∧
      (seen.first = true ↔ CrossOpens realKey decoyKey nonceD o decoyObj now) ∧
      seen.masked = ((if o.stealth then applyStealthMagic magic (stealthMask B decoyKey) else magic) ==
        applyStealthMagic magic (stealthMask B realKey)) := by
  obtain ⟨real, decoy, ttlRaw, bd, br, hk, -⟩ := killed_of_kill h
  refine ⟨_, by rw [observe, hk.blocks]; rfl, ?_, ?_, ?_⟩
  · exact opens_block.mpr ⟨br.plaintext, hk.real_opens haes⟩
  · exact crossOpens_iff hk.decoyDumped hk.timed hk.decoyBlock
  · rw [hk.masked]

theorem Confused.comm {held other : Key} {nonce : Nonce} {obj : B.Obj} {now₁ now₂ : ℚ} :
    Confused held other nonce o obj now₁ now₂ ↔ Confused held other nonce o obj now₂ now₁ := and_left_comm

/-- `held` is the decoy key of the first envelope and the real key of the second. -/
theorem roles_of_key (haes : B.AesInverts) {obj objOther : B.Obj} {held other : Key} {nonce nonceOther : Nonce}
    {now₁ now₂ : ℚ} {E₁ E₂ : Bytes}
    (h₁ : (kill B objOther obj other.val held.val o nonce nonceOther now₁ ()).result = .ok E₁)
    (h₂ : (kill B obj objOther held.val other.val o nonceOther nonce now₂ ()).result = .ok E₂) :
    observe B E₁ held o.hwid o.stealth = observe B E₂ held o.hwid o.stealth ↔
      Confused held other nonceOther o objOther now₁ now₂ := by
  obtain ⟨seen₁, hs₁, hfirst₁, hsecond₁, hmasked₁⟩ := observe_decoy haes h₁
  obtain ⟨seen₂, hs₂, hsecond₂, hfirst₂, hmasked₂⟩ := observe_real haes h₂
  have hmasked : seen₁.masked = seen₂.masked ↔ (o.stealth = true →
      applyStealthMagic magic (stealthMask B other) = applyStealthMagic magic (stealthMask B held)) := by
    rw [hmasked₁, hmasked₂]
    cases o.stealth with
    | false => simp
    | true =>
      rw [if_pos rfl, if_pos rfl, beq_self_eq_true, eq_comm, beq_iff_eq]
      exact ⟨fun h _ => h, fun h => h rfl⟩
  rw [hs₁, hs₂, Except.ok.injEq, Observation.ext_iff, hfirst₁, hsecond₂, eq_comm, hfirst₂, hsecond₁, hmasked]
  exact and_left_comm

/-- Two envelopes of the same two objects under the same two keys, the roles exchanged, each key
    with the same nonce in both: the holder of a key tells them apart, unless his key is
    confused with the other one. -/
theorem roles_observable (haes : B.AesInverts) {objA objB : B.Obj} {keyA keyB : Key} {nonceA nonceB : Nonce}
    {now₁ now₂ : ℚ} {E₁ E₂ : Bytes}
    (h₁ : (kill B objA objB keyA.val keyB.val o nonceB nonceA now₁ ()).result = .ok E₁)
    (h₂ : (kill B objB objA keyB.val keyA.val o nonceA nonceB now₂ ()).result = .ok E₂) :
    (observe B E₁ keyA o.hwid o.stealth = observe B E₂ keyA o.hwid o.stealth ↔
      Confused keyA keyB nonceB o objB now₁ now₂) ∧
    (observe B E₁ keyB o.hwid o.stealth = observe B E₂ keyB o.hwid o.stealth ↔
      Confused keyB keyA nonceA o objA now₁ now₂) := by
  refine ⟨?_, roles_of_key haes h₁ h₂⟩
  rw [eq_comm, roles_of_key haes h₂ h₁]
  exact Confused.comm

/-! ## A run -/

section
open Reference

def otherNonce : Nonce := ⟨List.replicate 12 0x6e, rfl⟩

/-- The envelopes, masked. -/
def envelope (realObj decoyObj : Bytes) (realKey decoyKey : Key) (nonceD nonceR : Nonce) : Except PyErr Bytes :=
  (kill reference realObj decoyObj realKey.val decoyKey.val { stealth := true } nonceD nonceR 0 ()).result

/-- What the holder of `key` sees in what `kill` returned. -/
def look (key : Key) (envelope : Except PyErr Bytes) : Except PyErr Observation := do
  observe reference (← envelope) key none true

/-- Under the first key: the second block opens, or the first. -/
theorem roles_seen_run :
    look runKey (envelope [1] [2] runKey otherKey otherNonce runNonce) = .ok ⟨false, true, false⟩ ∧
      look runKey (envelope [2] [1] otherKey runKey runNonce otherNonce) = .ok ⟨true, false, true⟩ := by
  decide +kernel

theorem roles_observable_run : ∃ E₁ E₂,
    envelope [1] [2] runKey otherKey otherNonce runNonce = .ok E₁ ∧
    envelope [2] [1] otherKey runKey runNonce otherNonce = .ok E₂ ∧
      observe reference E₁ runKey none true ≠ observe reference E₂ runKey none true ∧
      observe reference E₁ otherKey none true ≠ observe reference E₂ otherKey none true := by
  obtain ⟨E₁, h₁⟩ : ∃ E, envelope [1] [2] runKey otherKey otherNonce runNonce = .ok E := ⟨_, rfl⟩
  obtain ⟨E₂, h₂⟩ : ∃ E, envelope [2] [1] otherKey runKey runNonce otherNonce = .ok E := ⟨_, rfl⟩
  obtain ⟨hfirst, hsecond⟩ := roles_observable aesInverts h₁ h₂
  refine ⟨E₁, E₂, h₁, h₂, ?_, ?_⟩
  · exact fun hsame => not_crossOpens (aesApart (by decide)) _ _ _ _ (hfirst.mp hsame).1
  · exact fun hsame => not_crossOpens (aesApart (by decide)) _ _ _ _ (hsecond.mp hsame).1

end

end Amcrypt.Doppelganger
