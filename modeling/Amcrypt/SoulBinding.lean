/-
  Amcrypt.SoulBinding — what the hardware id of an envelope keeps out.

  Both writers bind a payload to `hwid` in two ways: a flag bit that says one is needed,
  which anyone can overwrite, and the associated data of AES-GCM, which no one can. The
  flag tells `None` from a byte string, the associated data does not tell it from the empty
  one. `soul_binding` is the exact extent: whoever asks, with whatever key and under
  whatever flags byte, an envelope bound to one id is not revived with another, unless the
  two are `None` and `b""`.
-/

import Amcrypt.Core.Header
import Amcrypt.Doppelganger.Selection

namespace Amcrypt.SoulBinding

open Lib Amcrypt.Core

variable {B : Backend}

/-- The flags byte overwritten. -/
def reflag (f : UInt8) (corpse : Bytes) : Bytes := corpse.set 5 f

/-- No call with this `hwid` revives the envelope, whatever the flags byte, the instance,
    its key and the other arguments, AES-GCM being ideal. -/
def Bound (B : Backend) (past : List Call) (E : Bytes) (hwid : Option Bytes) : Prop :=
  ∀ f stealth verifyKey w self,
    Ideal (past ++ (revive B (reflag f E) ⟨hwid, stealth, verifyKey⟩ w self).calls) →
    ∃ e, (revive B (reflag f E) ⟨hwid, stealth, verifyKey⟩ w self).result = .error e

/-- The same for an envelope of two blocks. -/
def DualBound (B : Backend) (past : List Call) (E : Bytes) (hwid : Option Bytes) : Prop :=
  ∀ f key stealth now,
    Ideal (past ++ (Doppelganger.revive B (reflag f E) key hwid stealth now ()).calls) →
    ∃ e, (Doppelganger.revive B (reflag f E) key hwid stealth now ()).result = .error e

theorem reflag_header {m : Bytes} (hm : m.length = 4) (v f g : UInt8) (len : Nat) (rest : Bytes) :
    reflag g (header m v f len ++ rest) = header m v g len ++ rest := by
  match m, hm with
  | [m0, m1, m2, m3], _ => rfl

/-- Ids that AES-GCM authenticates alike open the same ciphertexts. -/
theorem gcmDecrypt_congr (habsent : B.AesAbsent) {a a' : Option Bytes} (h : a.getD [] = a'.getD []) (k : Key)
    (n c : Bytes) : B.gcmDecrypt k n c a = B.gcmDecrypt k n c a' := by
  have hfull : ∀ x : Option Bytes, B.gcmDecrypt k n c x = B.gcmDecrypt k n c (some (x.getD [])) := by
    intro x
    cases x with
    | none => exact habsent k n c
    | some x => rfl
  rw [hfull a, hfull a', h]

/-! ## `Necromancer` -/

section
variable {obj : B.Obj} {o : KillOptions} {d : Draws} {now : ℚ} {self : Necromancer} {E : Bytes} {hwid : Option Bytes}

/-- What `revive` returns came out of AES-GCM with the id that `kill` was given. -/
theorem revive_binds (hE : (kill B obj o d now self).result = .ok E) {corpse : Bytes} {a : ReviveOptions} {w : World}
    {self' : Necromancer} (hideal : Ideal ((kill B obj o d now self).calls ++ (revive B corpse a w self').calls))
    {obj' : B.Obj} (hok : (revive B corpse a w self').result = .ok obj') : o.hwid.getD [] = a.hwid.getD [] := by
  obtain ⟨key, nonce, ct, f, p, data, hr, hg, -, -⟩ := revive_ok_iff.mp hok
  obtain ⟨_, _, _, -, -, hcalls⟩ := killed_of_kill hE
  rw [revive_reaches hr, hg, hcalls] at hideal
  obtain ⟨n', -, a', ha, hmem⟩ := Ideal.sealed hideal
  simp only [List.mem_cons, reduceCtorEq, Call.encrypt.injEq, List.not_mem_nil, or_false, false_or] at hmem
  obtain ⟨-, -, rfl, -, -⟩ := hmem
  exact ha

theorem unpack_reflag {key : Key} {pickled p : Bytes} (htag : B.AesTagged) (h : Killed B obj o d now key pickled p E)
    (f : UInt8) :
    unpack (reflag f E) o.stealth = .ok (d.nonce.val, B.gcmEncrypt key d.nonce.val p o.hwid, f) := by
  obtain ⟨hn, rfl⟩ := pack_ok_iff.mp h.packed
  have hm := length_packedMagic B key o.stealth
  rw [reflag_header hm]
  refine unpack_ok_iff.mpr ⟨_, hm, ?_, hn, by rw [htag]; omega, rfl⟩
  cases o.stealth with
  | true => exact .inl rfl
  | false => exact .inr rfl

/-- With an id authenticated alike, and the flags rewritten to it, the object comes back. -/
theorem revive_rebound (haes : B.AesInverts) (htag : B.AesTagged) (habsent : B.AesAbsent) (hzlib : B.ZlibInverts)
    (hpickle : B.PickleInverts) (hE : (kill B obj o d now self).result = .ok E) {verifyKey : Option Bytes}
    (hv : Verifies B o verifyKey) (hsame : o.hwid.getD [] = hwid.getD []) :
    ¬ Bound B (kill B obj o d now self).calls E hwid := by
  obtain ⟨key, pickled, p, -, h, hcalls⟩ := killed_of_kill hE
  -- the flags of the same `kill` with the other id, and an instance that nothing stops
  let o' := { o with hwid := hwid }
  let f := envelopeFlags o'
  let alive : Necromancer := ⟨some key, false, 3, 0, false⟩
  have hframe := unpack_reflag htag h f
  have hallowed : preCheck f hwid verifyKey = .ok () := preCheck_killed (o := o') hv.isSome
  have hr : Reaches (reflag f E) ⟨hwid, o.stealth, verifyKey⟩ ⟨false, now⟩ alive key d.nonce.val
      (B.gcmEncrypt key d.nonce.val p o.hwid) f := ⟨rfl, unpack_not_pill hframe, rfl, hframe, hallowed, rfl⟩
  have hopens : B.gcmDecrypt key d.nonce.val (B.gcmEncrypt key d.nonce.val p o.hwid) hwid = .ok p := by
    rw [← gcmDecrypt_congr habsent hsame, haes key d.nonce p o.hwid]
  have hcontents : contents B f verifyKey now p = .ok pickled := by
    have hunwrap : unwrap B f verifyKey now p = .ok (B.compress pickled) :=
      unwrap_wrap (o := o') h.wrapped (fresh_of_wrap h.wrapped) hv
    rw [contents, hunwrap, ok_bind, hzlib]
  have hrun : revive B (reflag f E) ⟨hwid, o.stealth, verifyKey⟩ ⟨false, now⟩ alive = ⟨B.loads pickled, alive,
      [.decrypt key d.nonce.val (B.gcmEncrypt key d.nonce.val p o.hwid) hwid (.ok p), .loads pickled]⟩ := by
    rw [revive_reaches hr, hopens, judge_ok, Out.andThen_ok, Out.after_nil, exhume_apply, hcontents]
    rfl
  have hideal : Ideal ([.dumps pickled, .encrypt key d.nonce o.hwid p (B.gcmEncrypt key d.nonce.val p o.hwid)] ++
      [.decrypt key d.nonce.val (B.gcmEncrypt key d.nonce.val p o.hwid) hwid (.ok p), .loads pickled]) :=
    (((Ideal.nil.snoc fun _ => id).snoc fun _ => id).snoc_open (by simp) hsame).snoc fun _ => id
  intro hbound
  obtain ⟨e, he⟩ := hbound f o.stealth verifyKey ⟨false, now⟩ alive (by rw [hcalls, hrun]; exact hideal)
  rw [hrun, hpickle obj pickled h.dumped] at he
  cases he

end

/-! ## `DoppelgangerNecromancer` -/

section
variable {realObj decoyObj : B.Obj} {realKey decoyKey : Key} {o : Doppelganger.KillOptions} {nonceD nonceR : Nonce}
  {now : ℚ} {E : Bytes} {hwid : Option Bytes}

theorem dual_binds
    (hE : (Doppelganger.kill B realObj decoyObj realKey.val decoyKey.val o nonceD nonceR now ()).result = .ok E)
    {corpse key : Bytes} {stealth : Bool} {now' : ℚ}
    (hideal : Ideal ((Doppelganger.kill B realObj decoyObj realKey.val decoyKey.val o nonceD nonceR now ()).calls ++
      (Doppelganger.revive B corpse key hwid stealth now' ()).calls)) {obj : B.Obj}
    (hok : (Doppelganger.revive B corpse key hwid stealth now' ()).result = .ok obj) :
    o.hwid.getD [] = hwid.getD [] := by
  obtain ⟨real, decoy, ttlRaw, bd, br, h, hcalls⟩ := Doppelganger.killed_of_kill hE
  obtain ⟨hopened, hnone⟩ := Doppelganger.revive_opened (B := B) corpse key hwid stealth now'
  obtain ⟨k, n, c, p, hin⟩ := hopened obj hok
  rw [hcalls] at hideal
  obtain ⟨n', -, a', ha, hmem⟩ := hideal.opened hin hnone
  simp only [Doppelganger.Block.call, List.mem_cons, reduceCtorEq, Call.encrypt.injEq, List.not_mem_nil, or_false,
    false_or] at hmem
  rcases hmem with ⟨-, -, rfl, -, -⟩ | ⟨-, -, rfl, -, -⟩
  · rw [← ha, h.decoyBlock]
  · rw [← ha, h.realBlock]

/-- The same of an envelope of two blocks, with the decoy key. -/
theorem dual_rebound (haes : B.AesInverts) (habsent : B.AesAbsent) (hzlib : B.ZlibInverts) (hpickle : B.PickleInverts)
    (hE : (Doppelganger.kill B realObj decoyObj realKey.val decoyKey.val o nonceD nonceR now ()).result = .ok E)
    (hsame : o.hwid.getD [] = hwid.getD []) :
    ¬ DualBound B (Doppelganger.kill B realObj decoyObj realKey.val decoyKey.val o nonceD nonceR now ()).calls E
      hwid := by
  obtain ⟨real, decoy, ttlRaw, bd, br, h, hcalls⟩ := Doppelganger.killed_of_kill hE
  let o' := { o with hwid := hwid }
  let f := Doppelganger.envelopeFlags o'
  obtain ⟨hdual, -, hhwid⟩ := Doppelganger.has_envelopeFlags o'
  have hkey : bd.key = decoyKey := by rw [h.decoyBlock]
  have hbd : bd.hwid.getD [] = hwid.getD [] := by rw [h.decoyBlock, hsame]
  have hread : Doppelganger.readBlocks (reflag f E) hwid o.stealth = .ok (f, bd.bytes, br.bytes) := by
    rw [h.envelope, reflag_header (length_packedMagic B decoyKey o.stealth)]
    exact Doppelganger.readBlocks_killed h hdual (by rw [hhwid]; exact id)
  have hopens : B.gcmDecrypt decoyKey bd.nonce.val bd.ciphertext hwid = .ok bd.plaintext := by
    rw [← gcmDecrypt_congr habsent hsame, h.decoy_opens haes]
  have htrial : Doppelganger.trial B decoyKey hwid (Doppelganger.candidates bd.bytes br.bytes) () =
      ⟨.ok (some bd.plaintext), (),
        [] ++ [.decrypt decoyKey bd.nonce.val bd.ciphertext hwid (.ok bd.plaintext)]⟩ := by
    rw [Doppelganger.candidates, bd.split]
    exact Doppelganger.trial_opens hopens
  have hcontents : Doppelganger.contents B f now bd.plaintext = .ok decoy := by
    rw [h.decoyBlock]
    exact Doppelganger.contents_fresh (o := o') hzlib h.timed (Doppelganger.fresh_of_ttlPrefix h.timed) decoy
  have hideal := Doppelganger.ideal_revive hread (Doppelganger.ideal_kill bd br real decoy) (by simp) hkey hbd (by simp)
    htrial now
  rw [← hcalls] at hideal
  intro hbound
  obtain ⟨e, he⟩ := hbound f decoyKey.val o.stealth now hideal
  rw [Doppelganger.revive_found hread htrial, hcontents] at he
  have hloads := hpickle decoyObj decoy h.decoyDumped
  rw [show B.loads decoy = .error e from he] at hloads
  cases hloads

end

/-- In both classes: an envelope bound to one id cannot be revived with another exactly if
    AES-GCM tells the two apart. -/
theorem soul_binding (haes : B.AesInverts) (htag : B.AesTagged) (habsent : B.AesAbsent) (hzlib : B.ZlibInverts)
    (hpickle : B.PickleInverts) (hwid : Option Bytes) :
    (∀ {obj : B.Obj} {o : KillOptions} {d : Draws} {now : ℚ} {self : Necromancer} {E : Bytes} {verifyKey : Option Bytes},
      (kill B obj o d now self).result = .ok E → Verifies B o verifyKey →
      (Bound B (kill B obj o d now self).calls E hwid ↔ o.hwid.getD [] ≠ hwid.getD [])) ∧
    (∀ {realObj decoyObj : B.Obj} {realKey decoyKey : Key} {o : Doppelganger.KillOptions} {nonceD nonceR : Nonce}
        {now : ℚ} {E : Bytes},
      (Doppelganger.kill B realObj decoyObj realKey.val decoyKey.val o nonceD nonceR now ()).result = .ok E →
      (DualBound B (Doppelganger.kill B realObj decoyObj realKey.val decoyKey.val o nonceD nonceR now ()).calls E hwid ↔
        o.hwid.getD [] ≠ hwid.getD [])) := by
  refine ⟨?_, ?_⟩
  · intro obj o d now self E verifyKey hE hv
    refine ⟨?_, ?_⟩
    · intro hbound hsame
      exact revive_rebound haes htag habsent hzlib hpickle hE hv hsame hbound
    · intro hne f stealth vk w self' hideal
      cases hres : (revive B (reflag f E) ⟨hwid, stealth, vk⟩ w self').result with
      | error e => exact ⟨e, rfl⟩
      | ok obj' => exact absurd (revive_binds hE hideal hres) hne
  · intro realObj decoyObj realKey decoyKey o nonceD nonceR now E hE
    refine ⟨?_, ?_⟩
    · intro hbound hsame
      exact dual_rebound haes habsent hzlib hpickle hE hsame hbound
    · intro hne f key stealth now' hideal
      cases hres : (Doppelganger.revive B (reflag f E) key hwid stealth now' ()).result with
      | error e => exact ⟨e, rfl⟩
      | ok obj' => exact absurd (dual_binds hE hideal hres) hne

/-! ## Runs -/

section
open Reference

/-- Bound to an id, an envelope of either kind is not revived without one. -/
theorem soul_binding_run : ∃ E E₂,
    (kill reference [1, 2, 3] runOptions runDraws 1000 live).result = .ok E ∧
      (Doppelganger.kill reference [1] [2] runKey.val Doppelganger.otherKey.val Doppelganger.runOptions runNonce
        runNonce 1000 ()).result = .ok E₂ ∧
      Bound reference (kill reference [1, 2, 3] runOptions runDraws 1000 live).calls E none ∧
      DualBound reference (Doppelganger.kill reference [1] [2] runKey.val Doppelganger.otherKey.val
        Doppelganger.runOptions runNonce runNonce 1000 ()).calls E₂ none := by
  obtain ⟨E, hE⟩ : ∃ E, (kill reference [1, 2, 3] runOptions runDraws 1000 live).result = .ok E := ⟨_, rfl⟩
  obtain ⟨E₂, hE₂⟩ : ∃ E, (Doppelganger.kill reference [1] [2] runKey.val Doppelganger.otherKey.val
      Doppelganger.runOptions runNonce runNonce 1000 ()).result = .ok E := ⟨_, rfl⟩
  have hv : Verifies reference runOptions (some [0x6b]) := by
    intro sk hsk
    obtain rfl : [0x6b] = sk := by simpa [runOptions] using hsk
    exact ⟨_, rfl, ecdsaMatch (by simp)⟩
  obtain ⟨hsingle, hdual⟩ := soul_binding aesInverts aesTagged aesAbsent zlibInverts pickleInverts none
  exact ⟨E, E₂, hE, hE₂, (hsingle hE hv).mpr (by decide), (hdual hE₂).mpr (by decide)⟩

/-- Killed with no id, revived with the empty one; and the other way round, with the flag
    taken off. -/
theorem soul_unbound_run :
    (∃ E, (kill reference [1, 2, 3] {} runDraws 1000 live).result = .ok E ∧
      (revive reference E ⟨some [], false, none⟩ ⟨false, 1000⟩ live).result = .ok [1, 2, 3] ∧
      ¬ Bound reference (kill reference [1, 2, 3] {} runDraws 1000 live).calls E (some [])) ∧
    ∃ E, (Doppelganger.kill reference [1] [2] runKey.val Doppelganger.otherKey.val { hwid := some [] } runNonce
        runNonce 1000 ()).result = .ok E ∧
      (Doppelganger.revive reference (reflag Doppelganger.flagDual E) runKey.val none false 1000 ()).result = .ok [1] ∧
      ¬ DualBound reference (Doppelganger.kill reference [1] [2] runKey.val Doppelganger.otherKey.val
        { hwid := some [] } runNonce runNonce 1000 ()).calls E none := by
  refine ⟨⟨_, rfl, by decide +kernel, ?_⟩, ⟨_, rfl, by decide +kernel, ?_⟩⟩
  · have hv : Verifies reference {} none := fun sk h => by cases h
    exact revive_rebound aesInverts aesTagged aesAbsent zlibInverts pickleInverts rfl hv rfl
  · exact dual_rebound aesInverts aesAbsent zlibInverts pickleInverts rfl rfl

end

end Amcrypt.SoulBinding
