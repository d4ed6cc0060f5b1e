/-
  Amcrypt.Core.Header — what tampering with the eight header bytes can do.

  The header is not authenticated: neither the flags nor anything else of it is part of
  the associated data. AES-GCM therefore opens an envelope with another header to the
  plaintext `kill` sealed, and the new flags say which layers `revive` takes off it.
  `header_tampering` is the exact extent: the outcome changes only if the new header
  passes every gate and the sealed plaintext, read under the new layer bits, is an
  object that it is not under its own (`Misread`).

  It can be one: with the padding bit set, the first byte of a plain zlib stream (0x78)
  is a padding length, and zlib stores incompressible bytes as they are, so an object
  can carry a second stream at that place (`misread_run`).
-/

import Amcrypt.Core.Grammar

namespace Amcrypt.Core

open Lib

variable (B : Backend)

/-- The plaintext that `kill` seals. -/
def sealed (obj : B.Obj) (o : KillOptions) (d : Draws) (now : ℚ) : Except PyErr Bytes := do
  let pickled ← B.dumps obj
  wrap B o d now (B.compress pickled)

/-- The plaintext `p`, by the grammar of its layers under these flags, holds `obj`. -/
def Reads (flags : UInt8) (verifyKey : Option Bytes) (now : ℚ) (p : Bytes) (obj : B.Obj) : Prop :=
  ∃ z data, Plaintext B flags verifyKey now p z ∧ B.decompress z = .ok data ∧ B.loads data = .ok obj

/-- `E'` has a header that its reader takes, and under the layer bits of that header the sealed
    plaintext holds an object that it does not hold under its own. -/
def Misread (obj : B.Obj) (o : KillOptions) (d : Draws) (now : ℚ) (E' : Bytes) (verifyKey : Option Bytes)
    (now' : ℚ) : Prop :=
  ∃ m f p obj', m.length = 4 ∧ (o.stealth = true ∨ m = magic) ∧ E'.take headerSize = header m version f 12 ∧
    (has f flagHwid = true → o.hwid.isSome = true) ∧ (has f flagSigned = true → verifyKey.isSome = true) ∧
    layerBits f ≠ layerBits (envelopeFlags o) ∧ sealed B obj o d now = .ok p ∧
    Reads B f verifyKey now' p obj' ∧ ¬ Reads B (envelopeFlags o) verifyKey now' p obj'

variable {B}

/-! ## Reading a plaintext -/

/-- It is what `revive` makes of it. -/
theorem reads_iff {f : UInt8} {verifyKey : Option Bytes} {now : ℚ} {p : Bytes} {obj : B.Obj} :
    Reads B f verifyKey now p obj ↔ ∃ data, contents B f verifyKey now p = .ok data ∧ B.loads data = .ok obj := by
  simp only [Reads, contents, bind_eq_ok, unwrap_ok_iff]
  refine ⟨?_, ?_⟩
  · intro h
    obtain ⟨z, data, hp, hz, hl⟩ := h
    exact ⟨data, ⟨z, hp, hz⟩, hl⟩
  · intro hx
    obtain ⟨data, ⟨z, hp, hz⟩, hl⟩ := hx
    exact ⟨z, data, hp, hz, hl⟩

theorem Reads.congr {f g : UInt8} (h : layerBits f = layerBits g) {verifyKey : Option Bytes} {now : ℚ} {p : Bytes}
    {obj : B.Obj} : Reads B f verifyKey now p obj ↔ Reads B g verifyKey now p obj := by
  simp only [reads_iff, contents, unwrap_congr B h]

/-- A signature layer does not come off without a verify key. -/
theorem Reads.keyed {f : UInt8} {verifyKey : Option Bytes} {now : ℚ} {p : Bytes} {obj : B.Obj}
    (h : Reads B f verifyKey now p obj) (hf : has f flagSigned = true) : verifyKey.isSome = true := by
  obtain ⟨z, data, ⟨pad, ttl, pact, -, -, -, hpact⟩, -, -⟩ := h
  rw [Part, if_pos hf] at hpact
  obtain ⟨pub, sig, vk, -, -, rfl, -, -⟩ := hpact
  rfl

/-! ## What an envelope with a known frame revives to -/

theorem revive_frame_iff (haes : B.AesInverts) {corpse : Bytes} {a : ReviveOptions} {w : World} {self : Necromancer}
    {key : Key} {n : Nonce} {p : Bytes} {f : UInt8}
    (hframe : unpack corpse a.stealth = .ok (n.val, B.gcmEncrypt key n.val p a.hwid, f))
    (hkey : self.key = some key) (halive : self.destroyed = false) {obj : B.Obj} :
    (revive B corpse a w self).result = .ok obj ↔
      (self.antiDebug && w.debugging) = false ∧ preCheck f a.hwid a.verifyKey = .ok () ∧
        Reads B f a.verifyKey w.now p obj := by
  rw [revive_ok_iff, reads_iff]
  refine ⟨?_, ?_⟩
  · intro h
    obtain ⟨key', nonce, ct, f', p', data, hr, hg, hc, hl⟩ := h
    obtain rfl : key = key' := by simpa [hkey] using hr.keyed
    obtain ⟨rfl, rfl, rfl⟩ : n.val = nonce ∧ B.gcmEncrypt key n.val p a.hwid = ct ∧ f = f' := by
      simpa [hframe] using hr.frame
    obtain rfl : p = p' := by simpa [haes key n p a.hwid] using hg
    exact ⟨hr.unwatched, hr.allowed, data, hc, hl⟩
  · intro hx
    obtain ⟨hw, hpre, data, hc, hl⟩ := hx
    exact ⟨key, n.val, _, f, p, data, ⟨hw, unpack_not_pill hframe, halive, hframe, hpre, hkey⟩,
      haes key n p a.hwid, hc, hl⟩

variable {obj : B.Obj} {o : KillOptions} {d : Draws} {now : ℚ} {key : Key} {pickled p E E' : Bytes}

/-- An envelope with the body of a killed one, under AES-GCM, opens only behind a header
    that says 12 for the nonce; it then has the same frame, but for the flags. -/
theorem altered_frame (h : Killed B obj o d now key pickled p E) (hbody : E'.drop headerSize = E.drop headerSize)
    {nonce ct : Bytes} {f : UInt8} (hframe : unpack E' o.stealth = .ok (nonce, ct, f)) (hn : nonce.length = 12) :
    nonce = d.nonce.val ∧ ct = B.gcmEncrypt key d.nonce.val p o.hwid ∧
      ∃ m, m.length = 4 ∧ (o.stealth = true ∨ m = magic) ∧ E'.take headerSize = header m version f 12 := by
  obtain ⟨m, hm, hmagic, -, -, rfl⟩ := unpack_ok_iff.mp hframe
  obtain ⟨-, rfl⟩ := pack_ok_iff.mp h.packed
  have hm0 := length_packedMagic B key o.stealth
  rw [← length_header hm version f nonce.length, List.drop_left] at hbody
  rw [length_header hm, ← length_header hm0 version _ d.nonce.val.length, List.drop_left] at hbody
  obtain ⟨rfl, rfl⟩ := List.append_inj hbody (by rw [hn, d.nonce.property])
  refine ⟨rfl, rfl, m, hm, hmagic, ?_⟩
  rw [hn, ← length_header hm version f 12, List.take_left]

/-- Any header of four magic bytes that the reader takes, before the body of a killed envelope. -/
theorem frame_of_header (h : Killed B obj o d now key pickled p E) (htag : B.AesTagged)
    (hbody : E'.drop headerSize = E.drop headerSize) {m : Bytes} {f : UInt8}
    (hm : m.length = 4) (hmagic : o.stealth = true ∨ m = magic) (hhead : E'.take headerSize = header m version f 12) :
    unpack E' o.stealth = .ok (d.nonce.val, B.gcmEncrypt key d.nonce.val p o.hwid, f) := by
  refine unpack_ok_iff.mpr ⟨m, hm, hmagic, by rw [d.nonce.property]; omega, by rw [htag]; omega, ?_⟩
  obtain ⟨-, rfl⟩ := pack_ok_iff.mp h.packed
  have hm0 := length_packedMagic B key o.stealth
  rw [← length_header hm0 version _ d.nonce.val.length, List.drop_left, length_header hm0] at hbody
  rw [← List.take_append_drop headerSize E', hhead, hbody, d.nonce.property]

/-! ## The extent of header tampering -/

/-- The altered envelope raises, or revives to what the original revives to; and it is
    rejected whenever the original is. -/
def Unmoved (original altered : Except PyErr B.Obj) : Prop :=
  ((∃ e, altered = .error e) ∨ ∃ obj, altered = .ok obj ∧ original = .ok obj) ∧
    ((∃ e, original = .error e) → ∃ e, altered = .error e)

theorem unmoved_iff {original altered : Except PyErr B.Obj} :
    Unmoved original altered ↔ ∀ obj, altered = .ok obj → original = .ok obj := by
  unfold Unmoved
  cases altered with
  | error e => simp
  | ok obj => cases original <;> simp

/-- `E'` has another header, and otherwise the bytes of `E`. -/
theorem header_tampering (haes : B.AesInverts) (htag : B.AesTagged) {obj : B.Obj} {o : KillOptions} {d : Draws}
    {now : ℚ} {self : Necromancer} {E E' : Bytes} (hE : (kill B obj o d now self).result = .ok E)
    (hbody : E'.drop headerSize = E.drop headerSize) {verifyKey : Option Bytes}
    {w : World} {self' : Necromancer} (hkey : self'.key = self.key) (halive : self'.destroyed = false)
    {past : List Call} (hideal : Ideal (past ++ (revive B E' ⟨o.hwid, o.stealth, verifyKey⟩ w self').calls)) :
    Unmoved (revive B E ⟨o.hwid, o.stealth, verifyKey⟩ w self').result
        (revive B E' ⟨o.hwid, o.stealth, verifyKey⟩ w self').result ↔
      ¬ ((self'.antiDebug && w.debugging) = false ∧ Misread B obj o d now E' verifyKey w.now) := by
  obtain ⟨key, pickled, p, hk, h, -⟩ := killed_of_kill hE
  have hkey' := hkey.trans hk
  have hsealed : sealed B obj o d now = .ok p := by simp only [sealed, h.dumped, ok_bind, h.wrapped]
  have horig : ∀ obj', (revive B E ⟨o.hwid, o.stealth, verifyKey⟩ w self').result = .ok obj' ↔ _ :=
    fun obj' => revive_frame_iff haes (h.unpack htag) hkey' halive
  rw [unmoved_iff]
  refine ⟨?_, ?_⟩
  · intro hall hx
    obtain ⟨hw, m, f, p', obj', hm, hmagic, hhead, hbound, hpledged, -, hp', hreads, hnot⟩ := hx
    obtain rfl : p = p' := by simpa [hsealed] using hp'
    have hframe := frame_of_header h htag hbody hm hmagic hhead
    have hok := (revive_frame_iff (a := ⟨o.hwid, o.stealth, verifyKey⟩) haes hframe hkey' halive).mpr
      ⟨hw, preCheck_ok_iff.mpr ⟨hbound, hpledged⟩, hreads⟩
    exact hnot ((horig obj').mp (hall obj' hok)).2.2
  · intro hno obj' hok
    obtain ⟨key', nonce, ct, f, p', data, hr, hg, hc, hl⟩ := revive_ok_iff.mp hok
    have hn : nonce.length = 12 := by
      rw [revive_reaches hr, hg, Out.after_calls] at hideal
      obtain ⟨n', rfl, -⟩ := Ideal.sealed hideal
      exact n'.property
    obtain ⟨rfl, rfl, m, hm, hmagic, hhead⟩ := altered_frame h hbody hr.frame hn
    obtain ⟨hw, hpre, hreads⟩ :=
      (revive_frame_iff (a := ⟨o.hwid, o.stealth, verifyKey⟩) haes hr.frame hkey' halive).mp hok
    have hreads0 : Reads B (envelopeFlags o) verifyKey w.now p obj' := by
      by_contra hnot
      obtain ⟨hbound, hpledged⟩ := preCheck_ok_iff.mp hpre
      refine hno ⟨hw, m, f, p, obj', hm, hmagic, hhead, hbound, hpledged, fun hbits => hnot ?_, hsealed, hreads, hnot⟩
      exact (Reads.congr hbits).mp hreads
    refine (horig obj').mpr ⟨hw, preCheck_killed fun hsigned => hreads0.keyed ?_, hreads0⟩
    obtain ⟨-, -, fsig, -⟩ := has_envelopeFlags o
    rw [fsig, hsigned]

/-! ## Runs -/

section
open Reference

def evil : Bytes := [0x65, 0x76, 0x69, 0x6c]

def evilPickle : Bytes :=
  [0x80, 0x05, 0x95, 0x08, 0, 0, 0, 0, 0, 0, 0, 0x43, 0x04, 0x65, 0x76, 0x69, 0x6c, 0x94, 0x2e]

/-- 0x9b .. 0xff, then the compressed pickle of `evil`: 121 bytes after the first byte of
    the zlib stream that holds it. -/
def carrier : Bytes :=
  (List.range 101).map (fun i => UInt8.ofNat (155 + i)) ++ Stored.compress evilPickle

def carrierPickle : Bytes :=
  [0x80, 0x05, 0x95, 0x87, 0, 0, 0, 0, 0, 0, 0, 0x43, 0x83] ++ carrier ++ [0x94, 0x2e]

def carrierPlaintext : Bytes := Stored.compress carrierPickle

def live : Necromancer := .fresh runKey true 3

/-- The envelope of a plain `kill`, and the same with the padding bit set. -/
def plainEnvelope : Bytes :=
  header magic version 0 12 ++ (runDraws.nonce.val ++ gcmEncrypt runKey runDraws.nonce.val carrierPlaintext none)

def paddedEnvelope : Bytes :=
  header magic version flagPadded 12 ++
    (runDraws.nonce.val ++ gcmEncrypt runKey runDraws.nonce.val carrierPlaintext none)

theorem plain_killed : (kill reference carrier {} runDraws 0 live).result = .ok plainEnvelope := by decide +kernel

theorem padded_body : paddedEnvelope.drop headerSize = plainEnvelope.drop headerSize := rfl

/-- AES-GCM opens only what it sealed. -/
theorem padded_ideal :
    Ideal ((kill reference carrier {} runDraws 0 live).calls ++
      (revive reference paddedEnvelope {} ⟨false, 0⟩ live).calls) := by
  have hkill : (kill reference carrier {} runDraws 0 live).calls = [.dumps carrierPickle,
      .encrypt runKey runDraws.nonce none carrierPlaintext
        (gcmEncrypt runKey runDraws.nonce.val carrierPlaintext none)] := by
    decide +kernel
  have hrevive : (revive reference paddedEnvelope {} ⟨false, 0⟩ live).calls = [
      .decrypt runKey runDraws.nonce.val (gcmEncrypt runKey runDraws.nonce.val carrierPlaintext none) none
        (.ok carrierPlaintext), .loads evilPickle] := by
    decide +kernel
  rw [hkill, hrevive]
  exact (((Ideal.nil.snoc fun _ => id).snoc fun _ => id).snoc_open (by simp) rfl).snoc fun _ => id

theorem padded_moved :
    ¬ Unmoved (revive reference plainEnvelope {} ⟨false, 0⟩ live).result
      (revive reference paddedEnvelope {} ⟨false, 0⟩ live).result := by
  have hplain : (revive reference plainEnvelope {} ⟨false, 0⟩ live).result = .ok carrier := by decide +kernel
  have hpadded : (revive reference paddedEnvelope {} ⟨false, 0⟩ live).result = .ok evil := by decide +kernel
  have hne : carrier ≠ evil := by decide +kernel
  intro h
  have hsame := unmoved_iff.mp h evil hpadded
  rw [hplain] at hsame
  exact hne (Except.ok.inj hsame)

/-- One bit of the header changed, and another object comes back: the tag still holds. -/
theorem header_tampering_run :
    reference.PickleInverts ∧ reference.ZlibInverts ∧
      (kill reference carrier {} runDraws 0 live).result = .ok plainEnvelope ∧
      paddedEnvelope.drop headerSize = plainEnvelope.drop headerSize ∧
      Ideal ((kill reference carrier {} runDraws 0 live).calls ++
        (revive reference paddedEnvelope {} ⟨false, 0⟩ live).calls) ∧
      ¬ Unmoved (revive reference plainEnvelope {} ⟨false, 0⟩ live).result
        (revive reference paddedEnvelope {} ⟨false, 0⟩ live).result :=
  ⟨pickleInverts, zlibInverts, plain_killed, padded_body, padded_ideal, padded_moved⟩

theorem misread_run : Misread reference carrier {} runDraws 0 paddedEnvelope none 0 := by
  by_contra hno
  refine padded_moved ?_
  have hextent : _ ↔ ¬ ((live.antiDebug && false) = false ∧
      Misread reference carrier {} runDraws 0 paddedEnvelope none 0) :=
    header_tampering aesInverts aesTagged plain_killed padded_body rfl rfl padded_ideal
  exact hextent.mpr fun h => hno h.2

end

end Amcrypt.Core
