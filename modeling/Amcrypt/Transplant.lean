/-
  Amcrypt.Transplant — one ciphertext in the formats of both classes.

  AES-GCM binds an envelope's ciphertext to its nonce and hardware id, and to nothing else
  of the envelope: not the version, not the flags, not the class that sealed it. So
  whoever holds an envelope, and no key, can put its ciphertext into one of the other class.
  `transplant`: a corpse of `Necromancer` without padding and signature has the outcome it
  had, object or exception, as the decoy block of a dual envelope; and the block that a key
  opens in a dual envelope has the outcome it had as a corpse of its own.
-/

import Amcrypt.Doppelganger.Trial

namespace Amcrypt.Transplant

open Lib Amcrypt.Core

variable {B : Backend}

/-- A dual envelope of these blocks; the flags but for the dual bit as they are. -/
def asDual (flags : UInt8) (decoyBlock realBlock : Bytes) : Bytes :=
  header magic Doppelganger.version (flags ||| Doppelganger.flagDual) decoyBlock.length ++ (decoyBlock ++ realBlock)

/-- A corpse of one block; of the flags, the two that a dual envelope has. -/
def asCorpse (flags : UInt8) (block : Bytes) : Bytes :=
  header magic version (flags &&& (flagTtl ||| flagHwid)) Doppelganger.nonceLength ++ block

/-! ## Flags -/

theorem or_and (f g m : UInt8) : (f ||| g) &&& m = f &&& m ||| g &&& m := by
  apply UInt8.toBitVec_inj.mp
  ext i
  simp [Bool.and_or_distrib_right]

/-- The dual bit is set, and the others are what they were. -/
theorem has_dual (f : UInt8) : has (f ||| Doppelganger.flagDual) Doppelganger.flagDual = true ∧
    has (f ||| Doppelganger.flagDual) flagTtl = has f flagTtl ∧
    has (f ||| Doppelganger.flagDual) flagHwid = has f flagHwid := by
  have hother : ∀ m, Doppelganger.flagDual &&& m = 0 → has (f ||| Doppelganger.flagDual) m = has f m := by
    intro m hm
    unfold has
    rw [or_and, hm, UInt8.or_zero]
  refine ⟨?_, hother flagTtl (by decide), hother flagHwid (by decide)⟩
  unfold has
  rw [or_and, bne_iff_ne]
  intro hzero
  have hbit := (UInt8.or_eq_zero_iff.mp hzero).2
  exact absurd hbit (by decide)

/-- Only the two bits are left. -/
theorem has_kept (f : UInt8) : has (f &&& (flagTtl ||| flagHwid)) flagTtl = has f flagTtl ∧
    has (f &&& (flagTtl ||| flagHwid)) flagHwid = has f flagHwid ∧
    has (f &&& (flagTtl ||| flagHwid)) flagPadded = false ∧ has (f &&& (flagTtl ||| flagHwid)) flagSigned = false := by
  unfold has
  rw [UInt8.and_assoc, UInt8.and_assoc, UInt8.and_assoc, UInt8.and_assoc]
  have htake : (flagTtl ||| flagHwid) &&& flagTtl = flagTtl ∧ (flagTtl ||| flagHwid) &&& flagHwid = flagHwid ∧
      (flagTtl ||| flagHwid) &&& flagPadded = 0 ∧ (flagTtl ||| flagHwid) &&& flagSigned = 0 := by decide
  obtain ⟨httl, hhwid, hpadded, hsigned⟩ := htake
  rw [httl, hhwid, hpadded, hsigned, UInt8.and_zero]
  exact ⟨rfl, rfl, rfl, rfl⟩

/-! ## One plaintext -/

/-- Without padding and signature both classes read a plaintext alike. -/
theorem contents_eq {f g : UInt8} (httl : has g flagTtl = has f flagTtl) (hpadded : has f flagPadded = false)
    (hsigned : has f flagSigned = false) (verifyKey : Option Bytes) (now : ℚ) (p : Bytes) :
    Core.contents B f verifyKey now p = Doppelganger.contents B g now p := by
  simp only [Core.contents, Doppelganger.contents, unwrap, peel, stage, hpadded, hsigned, httl, Bool.false_eq_true, if_false,
    pure_eq_ok, ok_bind]
  cases has f flagTtl with
  | true => cases stripTtl now p <;> rfl
  | false => rfl

variable {key : Key} {p : Bytes} {w : World} {self : Necromancer}

/-- A corpse that AES-GCM opens, by its plaintext. -/
theorem revive_opened {f : Frame} {a : ReviveOptions} (hw : (self.antiDebug && w.debugging) = false)
    (halive : self.destroyed = false) (hkey : self.key = some key) (hadmitted : Admitted f a)
    (hopen : B.gcmDecrypt key f.nonce f.ciphertext a.hwid = .ok p) :
    (Core.revive B f.bytes a w self).result = Core.contents B f.flags a.verifyKey w.now p >>= B.loads := by
  have hframe := unpack_frame_iff.mpr ⟨f, rfl, hadmitted.named, rfl, rfl, rfl⟩
  have hallowed := preCheck_ok_iff.mpr ⟨hadmitted.bound, hadmitted.pledged⟩
  have hr : Reaches f.bytes a w self key f.nonce f.ciphertext f.flags :=
    ⟨hw, unpack_not_pill hframe, halive, hframe, hallowed, hkey⟩
  rw [revive_reaches_result hr, hopen]

/-- A dual envelope whose trial finds a plaintext. -/
theorem dual_opened {corpse : Bytes} {hwid : Option Bytes} {stealth : Bool} {flags : UInt8} {d r : Bytes}
    (hread : Doppelganger.readBlocks corpse hwid stealth = .ok (flags, d, r))
    (htrial : (Doppelganger.trial B key hwid (Doppelganger.candidates d r) ()).result = .ok (some p)) (now : ℚ) :
    (Doppelganger.revive B corpse key.val hwid stealth now ()).result = Doppelganger.contents B flags now p >>= B.loads := by
  rw [Doppelganger.revive_trial hread, htrial]
  rfl

/-! ## There and back -/

theorem corpse_as_decoy {f : Frame} {a : ReviveOptions} (hw : (self.antiDebug && w.debugging) = false)
    (halive : self.destroyed = false) (hkey : self.key = some key) (hadmitted : Admitted f a)
    (hnonce : f.nonce.length = Doppelganger.nonceLength) (hfits : (f.nonce ++ f.ciphertext).length < 65536)
    (hpadded : has f.flags flagPadded = false) (hsigned : has f.flags flagSigned = false)
    (hopen : B.gcmDecrypt key f.nonce f.ciphertext a.hwid = .ok p) (realBlock : Bytes) :
    (Doppelganger.revive B (asDual f.flags (f.nonce ++ f.ciphertext) realBlock) key.val a.hwid false w.now ()).result =
      (Core.revive B f.bytes a w self).result := by
  obtain ⟨hdual, httl, hhwid⟩ := has_dual f.flags
  have hread := Doppelganger.readBlocks_header rfl (f.flags ||| Doppelganger.flagDual) hfits
    ((f.nonce ++ f.ciphertext) ++ realBlock) (show false = true ∨ magic = magic from .inr rfl) hdual
    (show _ → a.hwid.isSome = true by rw [hhwid]; exact hadmitted.bound)
  rw [List.take_left, List.drop_left] at hread
  have htrial : (Doppelganger.trial B key a.hwid (Doppelganger.candidates (f.nonce ++ f.ciphertext) realBlock) ()).result =
      .ok (some p) := by
    rw [Doppelganger.candidates, List.take_left' hnonce, List.drop_left' hnonce, Doppelganger.trial_opens hopen]
  rw [asDual, dual_opened hread htrial, revive_opened hw halive hkey hadmitted hopen,
    contents_eq httl hpadded hsigned]

theorem block_as_corpse {corpse : Bytes} {hwid : Option Bytes} {stealth : Bool} {flags : UInt8} {d r block : Bytes}
    (hread : Doppelganger.readBlocks corpse hwid stealth = .ok (flags, d, r))
    (htrial : (Doppelganger.trial B key hwid (Doppelganger.candidates d r) ()).result = .ok (some p))
    (hopen : Doppelganger.openBlock B key hwid block = .ok p) (hlong : Doppelganger.nonceLength + 16 ≤ block.length)
    (hw : (self.antiDebug && w.debugging) = false) (halive : self.destroyed = false) (hkey : self.key = some key) :
    (Core.revive B (asCorpse flags block) { hwid } w self).result =
      (Doppelganger.revive B corpse key.val hwid stealth w.now ()).result := by
  obtain ⟨httl, hhwid, hpadded, hsigned⟩ := has_kept flags
  have hnonce : (block.take Doppelganger.nonceLength).length = Doppelganger.nonceLength := by rw [List.length_take]; omega
  let f : Frame := {
    magic := ⟨magic, rfl⟩
    flags := flags &&& (flagTtl ||| flagHwid)
    nonce := block.take Doppelganger.nonceLength
    ciphertext := block.drop Doppelganger.nonceLength
    nonceFits := by rw [hnonce]; decide
    tagged := by rw [List.length_drop]; omega }
  have hbytes : asCorpse flags block = f.bytes := by
    simp only [asCorpse, Frame.bytes, header, f, hnonce, List.take_append_drop]
  have hadmitted : Admitted f { hwid } := by
    refine ⟨.inr rfl, ?_, ?_⟩
    · intro hbit
      rw [show has f.flags flagHwid = has flags flagHwid from hhwid] at hbit
      exact (Doppelganger.readBlocks_ok_iff.mp hread).2 hbit
    · intro hbit
      rw [show has f.flags flagSigned = false from hsigned] at hbit
      cases hbit
  rw [hbytes, revive_opened hw halive hkey hadmitted hopen, dual_opened hread htrial,
    contents_eq (f := f.flags) httl.symm hpadded hsigned]

/-- With no key at hand, and for any bytes that the receiver's key opens, on a live instance:
    what a corpse without padding and signature gives, with a nonce of 12 bytes and short
    enough for a block, it gives as the decoy block of a dual envelope; and what a dual
    envelope gives, the block that was opened gives as a corpse. -/
theorem transplant (hw : (self.antiDebug && w.debugging) = false) (halive : self.destroyed = false)
    (hkey : self.key = some key) :
    (∀ (f : Frame) (a : ReviveOptions) (p realBlock : Bytes), Admitted f a →
      f.nonce.length = 12 → (f.nonce ++ f.ciphertext).length < 65536 →
      has f.flags flagPadded = false → has f.flags flagSigned = false →
      B.gcmDecrypt key f.nonce f.ciphertext a.hwid = .ok p →
      (Doppelganger.revive B (asDual f.flags (f.nonce ++ f.ciphertext) realBlock) key.val a.hwid false w.now ()).result =
        (Core.revive B f.bytes a w self).result) ∧
    ∀ (corpse : Bytes) (hwid : Option Bytes) (stealth : Bool) (flags : UInt8) (d r block p : Bytes),
      Doppelganger.readBlocks corpse hwid stealth = .ok (flags, d, r) →
      (Doppelganger.trial B key hwid (Doppelganger.candidates d r) ()).result = .ok (some p) →
      (block = d ∨ block = r) → Doppelganger.openBlock B key hwid block = .ok p → 28 ≤ block.length →
      (Core.revive B (asCorpse flags block) { hwid } w self).result =
        (Doppelganger.revive B corpse key.val hwid stealth w.now ()).result := by
  refine ⟨?_, ?_⟩
  · intro f a p realBlock hadmitted hnonce hfits hpadded hsigned hopen
    exact corpse_as_decoy hw halive hkey hadmitted hnonce hfits hpadded hsigned hopen realBlock
  · intro corpse hwid stealth flags d r block p hread htrial _ hopen hlong
    exact block_as_corpse hread htrial hopen hlong hw halive hkey

/-! ## A run -/

section
open Reference

/-- The plain envelope as a dual one, with nothing for its real block. -/
theorem transplant_run :
    (Doppelganger.revive reference (asDual 0 (plainEnvelope.drop headerSize) []) runKey.val none false 0 ()).result =
      .ok carrier := by
  have hok : (Core.revive reference plainFrame.bytes {} ⟨false, 0⟩ live).result = .ok carrier := by decide +kernel
  have hadmitted : Admitted plainFrame {} := ⟨.inr rfl, fun h => absurd h (by decide), fun h => absurd h (by decide)⟩
  have hfits : (plainFrame.nonce ++ plainFrame.ciphertext).length < 65536 := by decide +kernel
  obtain ⟨hcorpse, -⟩ := @transplant reference runKey ⟨false, 0⟩ live rfl rfl rfl
  rw [← hok]
  exact hcorpse plainFrame {} carrierPlaintext [] hadmitted rfl hfits rfl rfl (aesInverts _ _ _ _)

end

end Amcrypt.Transplant
