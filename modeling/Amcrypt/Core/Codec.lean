/-
  Amcrypt.Core.Codec — `_pack` and `_unpack` as one codec, and what the magic bytes decide.

  `codec_bijection`: `_unpack` reads back what `_pack` wrote, and of the envelopes that it
  reads without stealth each is the one `_pack` writes for what was read.

  With stealth, `_pack` masks the magic under the key, and `_unpack`, a function without
  the key, does not look at it. So the setting need not match and the four bytes may be any:
  `stealth_magic` says what `revive` makes of a killed envelope with other magic bytes,
  under either setting.
-/

import Amcrypt.Core.Header

namespace Amcrypt.Core

open Lib

variable {B : Backend}

/-! ## The codec -/

/-- Without stealth, what was read is written back byte for byte. -/
theorem pack_of_unpack (B : Backend) (key : Key) {data nonce ct : Bytes} {f : UInt8}
    (h : unpack data false = .ok (nonce, ct, f)) : pack B key nonce ct f false = .ok data := by
  obtain ⟨m, -, hmagic, hn, -, rfl⟩ := unpack_ok_iff.mp h
  have hm := hmagic.resolve_left (by decide)
  subst hm
  exact pack_ok_iff.mpr ⟨hn, rfl⟩

theorem unpack_injective {data data' : Bytes} {frame : Bytes × Bytes × UInt8} (h : unpack data false = .ok frame)
    (h' : unpack data' false = .ok frame) : data = data' := by
  obtain ⟨nonce, ct, f⟩ := frame
  obtain ⟨m, -, hmagic, -, -, rfl⟩ := unpack_ok_iff.mp h
  obtain ⟨m', -, hmagic', -, -, rfl⟩ := unpack_ok_iff.mp h'
  rw [hmagic.resolve_left (by decide), hmagic'.resolve_left (by decide)]

/-- The two directions of the codec, for every key: a packed envelope is no poison pill and
    is read as it was written; a plain envelope is the packing of what is read from it. -/
theorem codec_bijection (B : Backend) (key : Key) :
    (∀ (nonce ct : Bytes) (f : UInt8) (stealth : Bool), nonce.length < 2 ^ 16 → 16 ≤ ct.length →
      ∃ E, pack B key nonce ct f stealth = .ok E ∧
        unpack E stealth = .ok (nonce, ct, if stealth then f ||| flagStealth else f) ∧ ¬ poisonPill <+: E) ∧
    (∀ data nonce ct f, unpack data false = .ok (nonce, ct, f) → pack B key nonce ct f false = .ok data) ∧
    ∀ data data' frame, unpack data false = .ok frame → unpack data' false = .ok frame → data = data' := by
  refine ⟨?_, ?_, ?_⟩
  · intro nonce ct f stealth hn hc
    obtain ⟨E, hpack⟩ : ∃ E, pack B key nonce ct f stealth = .ok E := ⟨_, pack_ok_iff.mpr ⟨hn, rfl⟩⟩
    refine ⟨E, hpack, unpack_of_pack hpack hc, ?_⟩
    rw [← isPoisonPill_iff, pack_not_pill hpack]
    simp
  · intro data nonce ct f h
    exact pack_of_unpack B key h
  · intro data data' frame h h'
    exact unpack_injective h h'

theorem codec_bijection_run :
    ∃ E, pack Reference.reference Reference.runKey Reference.runNonce.val (List.replicate 16 0) 0x10 true = .ok E ∧
      unpack E true = .ok (Reference.runNonce.val, List.replicate 16 0, 0x12) ∧ ¬ poisonPill <+: E :=
  (codec_bijection Reference.reference Reference.runKey).1 _ _ 0x10 true (by decide) (by decide)

/-! ## Other magic bytes -/

/-- The magic bytes that `_pack` writes. -/
def writtenMagic (B : Backend) (key : Key) (stealth : Bool) : Bytes :=
  if stealth then applyStealthMagic magic (stealthMask B key) else magic

/-- The envelope with other magic bytes. -/
def remagic (m : Block 4) (corpse : Bytes) : Bytes := m.val ++ corpse.drop 4

theorem remagic_header {m : Bytes} (hm : m.length = 4) (m' : Block 4) (v f : UInt8) (len : Nat) (rest : Bytes) :
    remagic m' (header m v f len ++ rest) = header m'.val v f len ++ rest := by
  match m, hm with
  | [m0, m1, m2, m3], _ => simp [remagic, header]

/-- A mask leaves the magic as it is only if it masks nothing. -/
theorem applyStealthMagic_eq_iff {mask : Bytes} (h : mask.length = 4) :
    applyStealthMagic magic mask = magic ↔ mask = [0, 0, 0, 0] := by
  match mask, h with
  | [a, b, c, d], _ =>
    have hzero : ∀ x y : UInt8, x ^^^ y = x ↔ y = 0 := by
      intro x y
      refine ⟨?_, ?_⟩
      · intro h
        rw [← UInt8.zero_xor (a := y), ← UInt8.xor_self (a := x), UInt8.xor_assoc, h]
      · intro h
        rw [h, UInt8.xor_zero]
    simp [applyStealthMagic, magic, hzero]

theorem length_stealthMask (B : Backend) (key : Key) : (stealthMask B key).length = 4 := by
  rw [stealthMask, List.length_take, (B.hmacSha256 key.val stealthLabel).property]
  rfl

/-- `revive` looks at its envelope twice, for the pill and for the frame. -/
theorem revive_congr {corpse corpse' : Bytes} {a a' : ReviveOptions}
    (hpill : isPoisonPill corpse = isPoisonPill corpse') (hframe : unpack corpse a.stealth = unpack corpse' a'.stealth)
    (hhwid : a.hwid = a'.hwid)
    (hkey : a.verifyKey = a'.verifyKey) (w : World) : revive B corpse a w = revive B corpse' a' w := by
  simp only [revive, checkPill, hpill, hframe, hhwid, hkey]

/-- A plain reader refuses any other magic. -/
theorem revive_other_magic {corpse : Bytes} {m : Bytes} (hm : m.length = 4) (hne : m ≠ magic) {v f : UInt8} {len : Nat}
    (hl : len < 65536) {rest : Bytes} (hcorpse : corpse = header m v f len ++ rest) {a : ReviveOptions}
    (hplain : a.stealth = false) {w : World} {self : Necromancer} (hpill : isPoisonPill corpse = false)
    (hw : (self.antiDebug && w.debugging) = false) (halive : self.destroyed = false) :
    revive B corpse a w self = ⟨.error (invalidMagic m), self, []⟩ := by
  have h1 : checkDebugger w.debugging self = ⟨.ok (), self, []⟩ := by rw [checkDebugger_apply, hw]; rfl
  have h2 : checkPill corpse self = ⟨.ok (), self, []⟩ := by rw [checkPill_apply, hpill]; rfl
  have h3 : checkDestroyed self = ⟨.ok (), self, []⟩ := by rw [checkDestroyed_apply, halive]; rfl
  have h4 : unpack corpse a.stealth = .error (invalidMagic m) := by
    rw [hcorpse, unpack_header hm v f hl, hplain, if_pos (by simpa using hne)]
  simp only [revive, Method.bind_ok h1, Method.bind_ok h2, Method.bind_ok h3, Out.after_nil, Method.bind_apply,
    Method.ofExcept_apply, h4, Out.andThen_error]

/-- What a live, unwatched instance makes of a killed envelope with the magic bytes `m`:
    without stealth it refuses every magic but `LCH1`, which a masked envelope has only
    under a mask of zeros; with stealth, or `LCH1`, it does what it does to the envelope
    as it was killed. -/
theorem stealth_magic (htag : B.AesTagged) {obj : B.Obj} {o : KillOptions} {d : Draws} {now : ℚ} {self : Necromancer}
    {key : Key} {E : Bytes} (hE : (kill B obj o d now self).result = .ok E) (hkey : self.key = some key)
    (a : ReviveOptions) {w : World} {self' : Necromancer} (hw : (self'.antiDebug && w.debugging) = false)
    (halive : self'.destroyed = false) :
    E.take 4 = writtenMagic B key o.stealth ∧
    (o.stealth = true → (writtenMagic B key o.stealth = magic ↔ stealthMask B key = [0, 0, 0, 0])) ∧
    (∀ m : Block 4, a.stealth = false → m.val ≠ magic →
      ∃ e, (revive B (remagic m E) a w self').result = .error e ∧ e.isA .corpseDelivery = true) ∧
    ∀ m : Block 4, a.stealth = true ∨ m.val = magic →
      revive B (remagic m E) a w self' = revive B E { a with stealth := o.stealth } w self' := by
  obtain ⟨key', pickled, p, hk, h, -⟩ := killed_of_kill hE
  obtain rfl : key' = key := Option.some.inj (hk.symm.trans hkey)
  have hframe := h.unpack htag
  obtain ⟨hn, hbytes⟩ := pack_ok_iff.mp h.packed
  have hm := length_packedMagic B key' o.stealth
  have hcorpse : ∀ m : Block 4, remagic m E = header m.val version (envelopeFlags o) d.nonce.val.length ++
      (d.nonce.val ++ B.gcmEncrypt key' d.nonce.val p o.hwid) := by
    intro m
    rw [hbytes, remagic_header hm]
    rfl
  refine ⟨?_, ?_, ?_, ?_⟩
  · rw [hbytes, header, List.append_assoc, List.take_left' hm, writtenMagic]
  · intro hs
    rw [writtenMagic, if_pos hs]
    exact applyStealthMagic_eq_iff (length_stealthMask B key')
  · intro m hplain hne
    have hpill : isPoisonPill (remagic m E) = false := by
      rw [hcorpse]
      exact header_not_pill m.property _ _ _
    exact ⟨_, by rw [revive_other_magic m.property hne hn (hcorpse m) hplain hpill hw halive], rfl⟩
  · intro m hm'
    have hframe' : unpack (remagic m E) a.stealth =
        .ok (d.nonce.val, B.gcmEncrypt key' d.nonce.val p o.hwid, envelopeFlags o) := by
      rw [hcorpse]
      exact unpack_ok_iff.mpr ⟨_, m.property, hm', hn, by rw [htag]; omega, rfl⟩
    have hpill : isPoisonPill (remagic m E) = isPoisonPill E := by
      rw [unpack_not_pill hframe, unpack_not_pill hframe']
    have hsame : unpack (remagic m E) a.stealth = unpack E ({ a with stealth := o.stealth } : ReviveOptions).stealth :=
      hframe'.trans hframe.symm
    rw [revive_congr hpill hsame rfl rfl]

section
open Reference

/-- The envelope of `carrier` in stealth mode, and the same with four zero bytes in front. -/
def maskedEnvelope : Bytes :=
  header (writtenMagic reference runKey true) version flagStealth 12 ++
    (runDraws.nonce.val ++ gcmEncrypt runKey runDraws.nonce.val carrierPlaintext none)

def zeroMagic : Block 4 := ⟨[0, 0, 0, 0], rfl⟩

theorem masked_killed : (kill reference carrier { stealth := true } runDraws 0 live).result =
    .ok maskedEnvelope := by
  decide +kernel

theorem stealth_magic_run :
    maskedEnvelope.take 4 = writtenMagic reference runKey true ∧
      ∃ e, (revive reference (remagic zeroMagic maskedEnvelope) {} ⟨false, 0⟩ live).result = .error e ∧
        e.isA .corpseDelivery = true := by
  have hlive : (live.antiDebug && (⟨false, 0⟩ : World).debugging) = false := rfl
  obtain ⟨hwritten, -, hplain, -⟩ := stealth_magic aesTagged masked_killed rfl {} hlive rfl
  exact ⟨hwritten, hplain zeroMagic rfl (by decide)⟩

/-- A stealth reader takes the plain envelope, and the masked one whatever stands in the
    place of its magic. -/
theorem stealth_mismatch_run :
    (kill reference carrier {} runDraws 0 live).result = .ok plainEnvelope ∧
      (revive reference plainEnvelope { stealth := true } ⟨false, 0⟩ live).result = .ok carrier ∧
      (kill reference carrier { stealth := true } runDraws 0 live).result = .ok maskedEnvelope ∧
      (remagic zeroMagic maskedEnvelope).take 4 ≠ writtenMagic reference runKey true ∧
      (revive reference (remagic zeroMagic maskedEnvelope) { stealth := true } ⟨false, 0⟩ live).result =
        .ok carrier := by
  refine ⟨plain_killed, ?_, masked_killed, ?_, ?_⟩
  all_goals decide +kernel

end

end Amcrypt.Core
