/-
  Amcrypt.Core.BloodPact — what a verify key guarantees of a revived object.

  `Signed` is what a caller who passes `verify_key=` expects: the decrypted plaintext
  carried, where `kill` puts it, a signature that the key accepts over the bytes the
  object was decompressed from. `revive` checks one only if the envelope's flags ask for
  it, and whoever holds the AES key writes the flags. `blood_pact` is the exact extent:
  the guarantee fails on the envelopes that are accepted without the signature bit.
-/

import Amcrypt.Core.Header

namespace Amcrypt.Core

open Lib

variable (B : Backend)

/-- `obj` was decompressed and unpickled from bytes over which the decrypted plaintext
    carried a signature that `verifyKey` accepts. -/
def Signed (corpse : Bytes) (hwid : Option Bytes) (stealth : Bool) (verifyKey : Bytes) (w : World)
    (self : Necromancer) (obj : B.Obj) : Prop :=
  ∃ key nonce ct f p pub sig z data, Reaches corpse ⟨hwid, stealth, some verifyKey⟩ w self key nonce ct f ∧
    B.gcmDecrypt key nonce ct hwid = .ok p ∧ peel f w.now p = .ok (pactSection pub sig ++ z) ∧
    ecdsaVerify B verifyKey sig z = .ok true ∧ unwrap B f (some verifyKey) w.now p = .ok z ∧
    B.decompress z = .ok data ∧ B.loads data = .ok obj

/-- `revive` takes the envelope, its flags ask for no signature, and its plaintext holds an object. -/
def Unsigned (corpse : Bytes) (hwid : Option Bytes) (stealth : Bool) (verifyKey : Bytes) (w : World)
    (self : Necromancer) : Prop :=
  ∃ key nonce ct f p obj, Reaches corpse ⟨hwid, stealth, some verifyKey⟩ w self key nonce ct f ∧
    has f flagSigned = false ∧ B.gcmDecrypt key nonce ct hwid = .ok p ∧ Reads B f (some verifyKey) w.now p obj

variable {B} {corpse : Bytes} {hwid : Option Bytes} {stealth : Bool} {verifyKey : Bytes} {w : World}
  {self : Necromancer}

theorem unwrap_unsigned {f : UInt8} (hf : has f flagSigned = false) (vk : Option Bytes) (now : ℚ) (p : Bytes) :
    unwrap B f vk now p = peel f now p := by
  cases hp : peel f now p <;> simp [unwrap, hp, stage, hf]

/-- The layers of a signed envelope come off to the bytes the verify key vouches for. -/
theorem unwrap_signed {f : UInt8} (hf : has f flagSigned = true) {vk : Bytes} {now : ℚ} {p z : Bytes}
    (h : unwrap B f (some vk) now p = .ok z) :
    ∃ pub sig, peel f now p = .ok (pactSection pub sig ++ z) ∧ ecdsaVerify B vk sig z = .ok true := by
  simp only [unwrap, bind_eq_ok, stage, hf, if_true] at h
  obtain ⟨q, hq, hz⟩ := h
  obtain ⟨pub, sig, -, -, rfl, hv⟩ := stripPact_ok_iff.mp hz
  exact ⟨pub, sig, hq, hv⟩

theorem signed_of_flag {obj : B.Obj} {key : Key} {nonce ct : Bytes} {f : UInt8} {p : Bytes}
    (hr : Reaches corpse ⟨hwid, stealth, some verifyKey⟩ w self key nonce ct f) (hf : has f flagSigned = true)
    (hg : B.gcmDecrypt key nonce ct hwid = .ok p) (hreads : Reads B f (some verifyKey) w.now p obj) :
    Signed B corpse hwid stealth verifyKey w self obj := by
  obtain ⟨z, data, hlayers, hd, hl⟩ := hreads
  have hz := unwrap_ok_iff.mpr hlayers
  obtain ⟨pub, sig, hq, hv⟩ := unwrap_signed hf hz
  exact ⟨key, nonce, ct, f, p, pub, sig, z, data, hr, hg, hq, hv, hz, hd, hl⟩

/-- Nothing signed comes out of an envelope without the signature bit: what comes off the
    other layers is decompressed whole. -/
theorem not_signed {obj : B.Obj} {key : Key} {nonce ct : Bytes} {f : UInt8} {p : Bytes}
    (hr : Reaches corpse ⟨hwid, stealth, some verifyKey⟩ w self key nonce ct f) (hf : has f flagSigned = false)
    (hg : B.gcmDecrypt key nonce ct hwid = .ok p) : ¬ Signed B corpse hwid stealth verifyKey w self obj := by
  intro h
  obtain ⟨key', nonce', ct', f', p', pub, sig, z, data, hr', hg', hq, -, hz, -, -⟩ := h
  obtain ⟨rfl, rfl, rfl, rfl⟩ := hr.unique hr'
  obtain rfl : p = p' := by simpa [hg] using hg'
  rw [unwrap_unsigned hf, hq] at hz
  have hlen := congrArg List.length (Except.ok.inj hz)
  rw [List.length_append, length_pactSection] at hlen
  omega

theorem blood_pact :
    (∀ obj, (revive B corpse ⟨hwid, stealth, some verifyKey⟩ w self).result = .ok obj →
      Signed B corpse hwid stealth verifyKey w self obj) ↔
      ¬ Unsigned B corpse hwid stealth verifyKey w self := by
  refine ⟨?_, ?_⟩
  · intro hall h
    obtain ⟨key, nonce, ct, f, p, obj, hr, hf, hg, hreads⟩ := h
    obtain ⟨data, hc, hl⟩ := reads_iff.mp hreads
    exact not_signed hr hf hg (hall obj (revive_ok_iff.mpr ⟨key, nonce, ct, f, p, data, hr, hg, hc, hl⟩))
  · intro hno obj hok
    obtain ⟨key, nonce, ct, f, p, data, hr, hg, hc, hl⟩ := revive_ok_iff.mp hok
    cases hf : has f flagSigned with
    | true => exact signed_of_flag hr hf hg (reads_iff.mpr ⟨data, hc, hl⟩)
    | false => exact absurd ⟨key, nonce, ct, f, p, obj, hr, hf, hg, reads_iff.mpr ⟨data, hc, hl⟩⟩ hno

/-! ## A run -/

/-- What `kill` makes without a signing key carries no signature, whatever key is asked for. -/
theorem killed_not_signed (haes : B.AesInverts) (htag : B.AesTagged) {obj : B.Obj} {o : KillOptions} {d : Draws}
    {now : ℚ} {E : Bytes} (hE : (kill B obj o d now self).result = .ok E) (ho : o.signingKey = none)
    (halive : self.destroyed = false) (hw : (self.antiDebug && w.debugging) = false) (obj' : B.Obj) :
    ¬ Signed B E o.hwid o.stealth verifyKey w self obj' := by
  obtain ⟨key, pickled, p, hk, h, -⟩ := killed_of_kill hE
  have hr : Reaches E ⟨o.hwid, o.stealth, some verifyKey⟩ w self key d.nonce.val _ (envelopeFlags o) :=
    killed_reaches h htag (fun _ => rfl) hw halive hk
  obtain ⟨-, -, fsig, -⟩ := has_envelopeFlags o
  exact not_signed hr (by rw [fsig, ho]; rfl) (haes key d.nonce p o.hwid)

open Reference in
/-- Whoever holds the AES key leaves the signature out, and a caller who passes a verify key accepts. -/
theorem blood_pact_run :
    ∃ E, (kill reference [1, 2, 3] {} runDraws 0 live).result = .ok E ∧
      (revive reference E ⟨none, false, some [0x6b]⟩ ⟨false, 0⟩ live).result = .ok [1, 2, 3] ∧
      ¬ Signed reference E none false [0x6b] ⟨false, 0⟩ live [1, 2, 3] := by
  have hE : ∃ E, (kill reference [1, 2, 3] {} runDraws 0 live).result = .ok E := ⟨_, rfl⟩
  obtain ⟨E, hE⟩ := hE
  obtain ⟨key, pickled, p, hk, h, -⟩ := killed_of_kill hE
  have hrev : revive reference E ⟨none, false, some [0x6b]⟩ ⟨false, 0⟩ live = _ :=
    revive_killed h zlibInverts aesInverts aesTagged (by simp [Verifies]) (by simp [Fresh]) rfl rfl hk
  refine ⟨E, hE, ?_, killed_not_signed aesInverts aesTagged hE rfl rfl rfl _⟩
  rw [hrev]
  exact pickleInverts _ _ h.dumped

end Amcrypt.Core
