/-
  Amcrypt.Doppelganger.Grammar — the byte strings that the dual `revive` accepts.

  `magic | 3 | flags | split | decoy block | real block`, where the decoy block ends at the
  split or with the bytes, and inside the block that opens `[expiry] z`. Nothing is said of
  the block that does not open, but that a decoy block has the eight bytes AES-GCM asks of a
  nonce. `dual_grammar`: `revive` returns exactly the objects that a carried pickle loads
  to, and what it hands to pickle is carried, in the block that it opened last.
-/

import Amcrypt.Doppelganger.Trial

namespace Amcrypt.Doppelganger

open Lib Amcrypt.Core

variable {B : Backend}

/-- The compressed bytes `z` behind the expiry of `p`, if it has one. -/
def Timed (flags : UInt8) (now : ℚ) (p z : Bytes) : Prop :=
  ∃ ttl, p = ttl ++ z ∧ Part (has flags flagTtl) (TtlPart now) ttl

/-- The envelope holds the pickle `b` for this caller: the key opens `p` in one of its blocks. -/
structure Carries (B : Backend) (key : Key) (corpse : Bytes) (hwid : Option Bytes) (stealth : Bool) (now : ℚ)
    (b : Bytes) (flags : UInt8) (decoyBlock realBlock p z : Bytes) : Prop where
  splits : Splits corpse stealth flags decoyBlock realBlock
  bound : has flags flagHwid = true → hwid.isSome = true
  nonce : 8 ≤ decoyBlock.length
  found : Found B key hwid decoyBlock realBlock p
  timed : Timed flags now p z
  pickled : B.decompress z = .ok b

theorem stage_timed_iff {flags : UInt8} {now : ℚ} {p z : Bytes} :
    stage flags flagTtl (stripTtl now) p = .ok z ↔ Timed flags now p z := by
  have hstrip : ∀ p q, stripTtl now p = .ok q ↔ ∃ s, p = s ++ q ∧ (fun _ => TtlPart now) q s := fun _ _ => stripTtl_ok_iff
  exact stage_ok_iff hstrip

theorem contents_ok_iff {flags : UInt8} {now : ℚ} {p b : Bytes} :
    contents B flags now p = .ok b ↔ ∃ z, Timed flags now p z ∧ B.decompress z = .ok b := by
  simp only [contents, bind_eq_ok, stage_timed_iff]

variable {key : Key} {corpse : Bytes} {hwid : Option Bytes} {stealth : Bool} {now : ℚ}

/-- A plaintext that is found can be found: neither block before it is too short. -/
theorem Found.tryable (hgcm : B.AesNonces) {decoyBlock realBlock p : Bytes} (h : Found B key hwid decoyBlock realBlock p)
    (hnonce : 8 ≤ decoyBlock.length) : Tryable B key hwid decoyBlock realBlock := by
  refine ⟨hnonce, ?_⟩
  intro hno
  rcases h with h | ⟨-, h⟩
  · exact absurd h (hno p)
  · have hreal := openBlock_verdict hgcm key hwid realBlock
    by_contra hshort
    rw [if_neg hshort] at hreal
    obtain ⟨message, hrefused⟩ := hreal
    rw [h] at hrefused
    cases hrefused

/-- The loop ends with a plaintext exactly if it is found and the decoy block has a nonce. -/
theorem trial_ok_iff (hgcm : B.AesNonces) {decoyBlock realBlock p : Bytes} :
    (trial B key hwid (candidates decoyBlock realBlock) ()).result = .ok (some p) ↔
      8 ≤ decoyBlock.length ∧ Found B key hwid decoyBlock realBlock p := by
  have hv := trial_verdict hgcm key hwid decoyBlock realBlock
  generalize (trial B key hwid (candidates decoyBlock realBlock) ()).result = r at hv
  cases hv with
  | found q htry hq =>
    simp only [Except.ok.injEq, Option.some.injEq]
    refine ⟨?_, ?_⟩
    · rintro rfl
      exact ⟨htry.1, hq⟩
    · rintro ⟨-, hp⟩
      exact hq.unique hp
  | nothing htry hno =>
    simp only [Except.ok.injEq, reduceCtorEq, false_iff, not_and]
    exact fun _ => hno p
  | refused message hno =>
    simp only [reduceCtorEq, false_iff, not_and]
    intro hnonce hp
    exact hno (hp.tryable hgcm hnonce)

/-- The envelope carries a pickle exactly if the blocks are read, one opens, and its layers
    hold it. -/
theorem carries_iff (hgcm : B.AesNonces) {b p : Bytes} {flags : UInt8} {decoyBlock realBlock : Bytes} :
    (∃ z, Carries B key corpse hwid stealth now b flags decoyBlock realBlock p z) ↔
      readBlocks corpse hwid stealth = .ok (flags, decoyBlock, realBlock) ∧
        (trial B key hwid (candidates decoyBlock realBlock) ()).result = .ok (some p) ∧
        contents B flags now p = .ok b := by
  rw [readBlocks_ok_iff, trial_ok_iff hgcm, contents_ok_iff]
  refine ⟨?_, ?_⟩
  · rintro ⟨z, h⟩
    exact ⟨⟨h.splits, h.bound⟩, ⟨h.nonce, h.found⟩, z, h.timed, h.pickled⟩
  · rintro ⟨⟨hsplits, hbound⟩, ⟨hnonce, hfound⟩, z, htimed, hpickled⟩
    exact ⟨z, hsplits, hbound, hnonce, hfound, htimed, hpickled⟩

/-- The trial loads nothing. -/
theorem trial_loads_nothing (key : Key) (hwid : Option Bytes) (blocks : List (Bytes × Bytes)) (b : Bytes) :
    .loads b ∉ (trial B key hwid blocks ()).calls := by
  induction blocks with
  | nil => exact List.not_mem_nil
  | cons block blocks ih =>
    obtain ⟨n, c⟩ := block
    cases hg : B.gcmDecrypt key n c hwid with
    | ok p => simp [trial_opens hg]
    | error e =>
      by_cases he : e = .invalidTag
      · subst he
        simp [trial_skips hg, ih]
      · simp [trial_raises hg he]

theorem not_carries (hgcm : B.AesNonces) {e : PyErr} (hread : readBlocks corpse hwid stealth = .error e) {b p z : Bytes}
    {flags : UInt8} {d r : Bytes} : ¬ Carries B key corpse hwid stealth now b flags d r p z := by
  intro h
  have hblocks := ((carries_iff hgcm).mp ⟨z, h⟩).1
  rw [hread] at hblocks
  cases hblocks

/-- There is one way to read the blocks. -/
theorem carried_iff (hgcm : B.AesNonces) {flags : UInt8} {d r : Bytes}
    (hread : readBlocks corpse hwid stealth = .ok (flags, d, r)) {b : Bytes} :
    (∃ flags' d' r' p z, Carries B key corpse hwid stealth now b flags' d' r' p z) ↔
      ∃ p, (trial B key hwid (candidates d r) ()).result = .ok (some p) ∧ contents B flags now p = .ok b := by
  refine ⟨?_, ?_⟩
  · rintro ⟨flags', d', r', p, z, h⟩
    obtain ⟨hblocks, htrial, hcontents⟩ := (carries_iff hgcm).mp ⟨z, h⟩
    rw [hread] at hblocks
    obtain ⟨rfl, rfl, rfl⟩ := by simpa using hblocks
    exact ⟨p, htrial, hcontents⟩
  · rintro ⟨p, htrial, hcontents⟩
    obtain ⟨z, h⟩ := (carries_iff hgcm).mpr ⟨hread, htrial, hcontents⟩
    exact ⟨flags, d, r, p, z, h⟩

/-- What is returned is loaded from a carried pickle. -/
theorem returns_iff (hgcm : B.AesNonces) {obj : B.Obj} :
    (revive B corpse key.val hwid stealth now ()).result = .ok obj ↔
      ∃ b, (∃ flags d r p z, Carries B key corpse hwid stealth now b flags d r p z) ∧ B.loads b = .ok obj := by
  cases hread : readBlocks corpse hwid stealth with
  | error e =>
    rw [revive_unread hread]
    simp only [reduceCtorEq, false_iff]
    rintro ⟨b, ⟨flags, d, r, p, z, h⟩, -⟩
    exact not_carries hgcm hread h
  | ok blocks =>
    obtain ⟨flags, d, r⟩ := blocks
    rw [revive_trial hread]
    simp only [carried_iff hgcm hread, bind_eq_ok]
    refine ⟨?_, ?_⟩
    · rintro ⟨found, htrial, hreading⟩
      cases found with
      | none => cases hreading
      | some p =>
        obtain ⟨b, hcontents, hloads⟩ := bind_eq_ok.mp hreading
        exact ⟨b, ⟨p, htrial, hcontents⟩, hloads⟩
    · rintro ⟨b, ⟨p, htrial, hcontents⟩, hloads⟩
      exact ⟨some p, htrial, bind_eq_ok.mpr ⟨b, hcontents, hloads⟩⟩

/-- A pickle is loaded after a plaintext was found, and it is the one that plaintext carries. -/
theorem loads_carried (hgcm : B.AesNonces) {b : Bytes}
    (hb : .loads b ∈ (revive B corpse key.val hwid stealth now ()).calls) :
    ∃ flags d r p z, Carries B key corpse hwid stealth now b flags d r p z ∧
      (revive B corpse key.val hwid stealth now ()).calls = (trial B key hwid (candidates d r) ()).calls ++ [.loads b] := by
  cases hread : readBlocks corpse hwid stealth with
  | error e => simp [revive, checkKey_key, hread] at hb
  | ok blocks =>
    obtain ⟨flags, d, r⟩ := blocks
    have hnone := trial_loads_nothing (B := B) key hwid (candidates d r) b
    cases ht : trial B key hwid (candidates d r) () with
    | mk result s cs =>
      rw [ht] at hnone
      cases result with
      | error e =>
        rw [revive_raises hread ht] at hb
        exact absurd hb hnone
      | ok found =>
        cases found with
        | none =>
          rw [revive_none hread ht] at hb
          exact absurd hb hnone
        | some p =>
          rw [revive_found hread ht] at hb ⊢
          cases hcontents : contents B flags now p with
          | error e =>
            rw [hcontents] at hb
            exact absurd hb hnone
          | ok data =>
            rw [hcontents] at hb
            rcases List.mem_append.mp hb with hb | hb
            · exact absurd hb hnone
            · obtain rfl : b = data := by simpa using hb
              obtain ⟨z, h⟩ := (carries_iff hgcm).mpr ⟨hread, by rw [ht], hcontents⟩
              exact ⟨flags, d, r, p, z, h, by rw [ht]⟩

/-- `revive` accepts exactly its grammar: what it returns, when it raises, and what it hands
    to pickle. -/
theorem dual_grammar (hgcm : B.AesNonces) (key : Key) (corpse : Bytes) (hwid : Option Bytes) (stealth : Bool) (now : ℚ) :
    (∀ obj, (revive B corpse key.val hwid stealth now ()).result = .ok obj ↔
      ∃ b, (∃ flags d r p z, Carries B key corpse hwid stealth now b flags d r p z) ∧ B.loads b = .ok obj) ∧
    ∀ b, .loads b ∈ (revive B corpse key.val hwid stealth now ()).calls →
      ∃ flags d r p z, Carries B key corpse hwid stealth now b flags d r p z ∧
        (revive B corpse key.val hwid stealth now ()).calls = (trial B key hwid (candidates d r) ()).calls ++ [.loads b] := by
  refine ⟨?_, ?_⟩
  · intro obj
    exact returns_iff hgcm
  · intro b hb
    exact loads_carried hgcm hb

/-! ## A run -/

section
open Reference

/-- The decoy of a killed envelope, under its key. -/
theorem dual_grammar_run : ∃ E b,
    (kill reference [1] [2] runKey.val otherKey.val runOptions runNonce runNonce 1000 ()).result = .ok E ∧
      (∃ flags d r p z, Carries reference otherKey E (some [0x68]) true 1030 b flags d r p z) ∧
      reference.loads b = .ok [2] := by
  have hrun : ((kill reference [1] [2] runKey.val otherKey.val runOptions runNonce runNonce 1000 ()).result >>= fun E =>
      (revive reference E otherKey.val (some [0x68]) true 1030 ()).result) = .ok [2] := by
    decide +kernel
  obtain ⟨E, hE, hok⟩ := bind_eq_ok.mp hrun
  obtain ⟨hiff, -⟩ := dual_grammar aesNonces otherKey E (some [0x68]) true 1030
  obtain ⟨b, hcarries, hloads⟩ := (hiff [2]).mp hok
  exact ⟨E, b, hE, hcarries, hloads⟩

end

end Amcrypt.Doppelganger
