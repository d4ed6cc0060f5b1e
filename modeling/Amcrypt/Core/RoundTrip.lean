/-
  Amcrypt.Core.RoundTrip — an envelope revives to the object it was made from.

  `killed_reaches`: an envelope that `kill` returned passes every gate of a live
  instance with the same key and matching options. AES-GCM opens it to the plaintext
  `kill` sealed, `unwrap_wrap` takes the layers off (`contents_killed`), and pickle loads
  what it dumped: `revive_killed`, and for the two calls `revive_after_kill`.
-/

import Amcrypt.Core.Necromancer
import Amcrypt.Reference

namespace Amcrypt.Core

open Lib

variable {B : Backend}

/-- What `kill` sealed, and the envelope it put around it. -/
structure Killed (B : Backend) (obj : B.Obj) (o : KillOptions) (d : Draws) (now : ℚ) (key : Key)
    (pickled plaintext E : Bytes) : Prop where
  dumped : B.dumps obj = .ok pickled
  wrapped : wrap B o d now (B.compress pickled) = .ok plaintext
  packed : pack B key d.nonce.val (B.gcmEncrypt key d.nonce.val plaintext o.hwid) (flagsOf o) o.stealth = .ok E

theorem killed_of_kill {obj : B.Obj} {o : KillOptions} {d : Draws} {now : ℚ} {self : Necromancer} {E : Bytes}
    (h : (kill B obj o d now self).result = .ok E) :
    ∃ key pickled p, self.key = some key ∧ Killed B obj o d now key pickled p E ∧
      (kill B obj o d now self).calls =
        [.dumps pickled, .encrypt key d.nonce o.hwid p (B.gcmEncrypt key d.nonce.val p o.hwid)] := by
  obtain ⟨key, pickled, p, -, hk, hd, hw, hp, hrun⟩ := kill_ok h
  exact ⟨key, pickled, p, hk, ⟨hd, hw, hp⟩, by rw [hrun]⟩

variable {obj : B.Obj} {o : KillOptions} {d : Draws} {now : ℚ} {key : Key} {pickled p E : Bytes}

theorem Killed.unpack (h : Killed B obj o d now key pickled p E) (htag : B.AesTagged) :
    unpack E o.stealth = .ok (d.nonce.val, B.gcmEncrypt key d.nonce.val p o.hwid, envelopeFlags o) :=
  unpack_of_pack h.packed (by rw [htag]; omega)

/-- The flags of a killed envelope demand the hardware id it was bound to, and a verify key
    if it was signed. -/
theorem preCheck_killed {verifyKey : Option Bytes} (hsigned : o.signingKey.isSome → verifyKey.isSome) :
    preCheck (envelopeFlags o) o.hwid verifyKey = .ok () := by
  obtain ⟨-, -, fsig, fhwid⟩ := has_envelopeFlags o
  have h1 : (o.hwid.isSome && o.hwid.isNone) = false := by cases o.hwid <;> rfl
  have h2 : (o.signingKey.isSome && verifyKey.isNone) = false := by
    cases hs : o.signingKey with
    | none => rfl
    | some sk => simpa using hsigned (by rw [hs]; rfl)
  simp [preCheck, fhwid, fsig, h1, h2]

/-- A killed envelope passes every gate of a live instance with its key, given the
    hardware id it was killed with, and a verify key if it was signed. -/
theorem killed_reaches (h : Killed B obj o d now key pickled p E) (htag : B.AesTagged) {verifyKey : Option Bytes}
    (hsigned : o.signingKey.isSome → verifyKey.isSome) {w : World} {self : Necromancer}
    (hw : (self.antiDebug && w.debugging) = false) (halive : self.destroyed = false) (hkey : self.key = some key) :
    Reaches E ⟨o.hwid, o.stealth, verifyKey⟩ w self key d.nonce.val
      (B.gcmEncrypt key d.nonce.val p o.hwid) (envelopeFlags o) :=
  ⟨hw, pack_not_pill h.packed, halive, h.unpack htag, preCheck_killed hsigned, hkey⟩

/-- Under a key that verifies and before the expiry, the sealed plaintext holds the pickle. -/
theorem contents_killed (h : Killed B obj o d now key pickled p E) (hzlib : B.ZlibInverts)
    {verifyKey : Option Bytes} {now' : ℚ} (hfresh : Fresh o now now') (hv : Verifies B o verifyKey) :
    contents B (envelopeFlags o) verifyKey now' p = .ok pickled := by
  simp only [contents, unwrap_wrap h.wrapped hfresh hv, ok_bind, hzlib pickled]

theorem Verifies.isSome {verifyKey : Option Bytes} (hv : Verifies B o verifyKey) :
    o.signingKey.isSome → verifyKey.isSome := by
  intro hs
  obtain ⟨sk, hsk⟩ := Option.isSome_iff_exists.mp hs
  obtain ⟨vk, rfl, -⟩ := hv sk hsk
  rfl

/-- Reviving a killed envelope: AES-GCM opens what it sealed, pickle loads what it dumped. -/
theorem revive_killed (h : Killed B obj o d now key pickled p E) (hzlib : B.ZlibInverts) (haes : B.AesInverts)
    (htag : B.AesTagged) {verifyKey : Option Bytes} (hv : Verifies B o verifyKey) {w : World}
    (hfresh : Fresh o now w.now) {self : Necromancer} (hw : (self.antiDebug && w.debugging) = false)
    (halive : self.destroyed = false) (hkey : self.key = some key) :
    revive B E ⟨o.hwid, o.stealth, verifyKey⟩ w self = ⟨B.loads pickled, { self with tamperCount := 0 },
      [.decrypt key d.nonce.val (B.gcmEncrypt key d.nonce.val p o.hwid) o.hwid (.ok p), .loads pickled]⟩ := by
  rw [revive_reaches (killed_reaches h htag hv.isSome hw halive hkey)]
  simp only [haes key d.nonce p o.hwid, judge_ok, Out.andThen_ok, Out.after_nil, exhume_apply,
    contents_killed h hzlib hfresh hv]
  rfl

/-- Any options, any draws, any history of the reviving instance: the object comes back,
    the tamper counter is reset and nothing else of the instance changes. -/
theorem revive_after_kill (hpickle : B.PickleInverts) (hzlib : B.ZlibInverts) (haes : B.AesInverts)
    (htag : B.AesTagged) {obj : B.Obj} {o : KillOptions} {d : Draws} {now : ℚ} {self : Necromancer} {E : Bytes}
    (hE : (kill B obj o d now self).result = .ok E) {verifyKey : Option Bytes} (hv : Verifies B o verifyKey)
    {w : World} (hfresh : Fresh o now w.now) {self' : Necromancer} (hkey : self'.key = self.key)
    (halive : self'.destroyed = false) (hw : (self'.antiDebug && w.debugging) = false) :
    isPoisonPill E = false ∧
      (revive B E ⟨o.hwid, o.stealth, verifyKey⟩ w self').result = .ok obj ∧
      (revive B E ⟨o.hwid, o.stealth, verifyKey⟩ w self').self = { self' with tamperCount := 0 } := by
  obtain ⟨key, pickled, p, hk, h, -⟩ := killed_of_kill hE
  rw [revive_killed h hzlib haes htag hv hfresh hw halive (hkey.trans hk)]
  exact ⟨pack_not_pill h.packed, hpickle obj pickled h.dumped, rfl⟩

/-! ## A run -/

open Reference

def runDraws : Draws := ⟨⟨[0, 3], rfl⟩, fun n => ⟨List.replicate n 0x55, by simp⟩, runNonce, []⟩

/-- Soul-bound, expiring, masked, signed and padded. -/
def runOptions : KillOptions := ⟨some [0x68], some 60, true, some [0x6b], true⟩

theorem revive_after_kill_run :
    ∃ E, (kill reference [1, 2, 3] runOptions runDraws 1000 ⟨some runKey, true, 3, 0, false⟩).result = .ok E ∧
      isPoisonPill E = false ∧
      (revive reference E ⟨some [0x68], true, some [0x6b]⟩ ⟨false, 1059⟩ ⟨some runKey, true, 3, 2, false⟩).result =
        .ok [1, 2, 3] ∧
      (revive reference E ⟨some [0x68], true, some [0x6b]⟩ ⟨false, 1059⟩ ⟨some runKey, true, 3, 2, false⟩).self =
        ⟨some runKey, true, 3, 0, false⟩ := by
  have hE : ∃ E, (kill reference [1, 2, 3] runOptions runDraws 1000 ⟨some runKey, true, 3, 0, false⟩).result =
      .ok E := ⟨_, rfl⟩
  obtain ⟨E, hE⟩ := hE
  have hv : Verifies reference runOptions (some [0x6b]) := by
    intro sk hsk
    obtain rfl : [0x6b] = sk := by simpa [runOptions] using hsk
    exact ⟨_, rfl, ecdsaMatch (by simp)⟩
  have hfresh : Fresh runOptions 1000 (1059 : ℚ) := by
    intro ttl httl
    obtain rfl : 60 = ttl := by simpa [runOptions] using httl
    have : pyInt 1000 = 1000 := by decide
    rw [this]
    norm_num
  exact ⟨E, hE, revive_after_kill pickleInverts zlibInverts aesInverts aesTagged hE hv hfresh rfl rfl rfl⟩

end Amcrypt.Core
