/-
  Amcrypt.TimeToLive — when a payload is too old to be revived.

  A `kill` packs its expiry as eight bytes, so it counts from the whole second of its
  clock; `revive` compares that with its own clock as it is. `OnTime` is what comes of it:
  the payload is rotten exactly past the whole second at which it was killed plus the time
  to live, which is never late for a clock after 1970 and less than a second early.
  `exact_time_to_live` says so of both classes, which repeat the code.
-/

import Amcrypt.Core.RoundTrip
import Amcrypt.Doppelganger.Selection

namespace Amcrypt.TimeToLive

open Lib Amcrypt.Core

variable {B : Backend}

/-- The call raises `RottenCorpseError`. -/
def Rots {α : Type} (result : Except PyErr α) : Prop := ∃ e, result = .error e ∧ e.isA .rottenCorpse = true

/-- Killed at `now` for `ttl` seconds and revived at `now'`: what `rotten` has to say. -/
structure OnTime (now now' : ℚ) (ttl : Int) (rotten : Prop) : Prop where
  exactly : rotten ↔ ((pyInt now + ttl : Int) : ℚ) < now'
  neverLate : 0 ≤ now → now + ttl < now' → rotten
  hardlyEarly : rotten → now + ttl < now' + 1

theorem OnTime.of_iff {now now' : ℚ} {ttl : Int} {rotten : Prop}
    (h : rotten ↔ ((pyInt now + ttl : Int) : ℚ) < now') : OnTime now now' ttl rotten := by
  refine ⟨h, ?_, ?_⟩
  · intro hnow hlate
    have := pyInt_le hnow
    refine h.mpr ?_
    push_cast
    linarith
  · intro hrot
    have hlate := h.mp hrot
    have := lt_pyInt_add_one now
    push_cast at hlate
    linarith

theorem not_rots_of_ok {α : Type} {result : Except PyErr α} {a : α} (h : result = .ok a) : ¬ Rots result := by
  intro hx
  obtain ⟨e, he, -⟩ := hx
  rw [h] at he
  cases he

/-! ## `Necromancer` -/

section
variable {obj : B.Obj} {o : KillOptions} {d : Draws} {now now' : ℚ} {ttl : Int} {compressed p : Bytes}

/-- Past the expiry, the layers of what `wrap` made do not come off. -/
theorem unwrap_rotten (h : wrap B o d now compressed = .ok p) (httl : o.ttlSeconds = some ttl)
    (hpast : ((pyInt now + ttl : Int) : ℚ) < now') (verifyKey : Option Bytes) :
    Rots (unwrap B (envelopeFlags o) verifyKey now' p) := by
  obtain ⟨-, fttl, -, -⟩ := has_envelopeFlags o
  obtain ⟨signedData, timed, -, hadd, hpad⟩ := unpad_wrap h
  obtain ⟨raw, hraw, rfl⟩ := addTtl_some (httl ▸ hadd)
  obtain ⟨e, he, hkind⟩ := stripTtl_rotten hraw hpast signedData
  refine ⟨e, ?_, hkind⟩
  rw [httl] at fttl
  have hstage : stage (envelopeFlags o) flagTtl (stripTtl now') (raw ++ signedData) = .error e := by
    rw [stage, fttl, Option.isSome_some, if_pos rfl, he]
  simp only [unwrap, peel, hpad, ok_bind, hstage, error_bind]

/-- A live `revive` of what `kill` returned. -/
theorem revive_rots_iff (haes : B.AesInverts) (htag : B.AesTagged) (hzlib : B.ZlibInverts) (hpickle : B.PickleInverts)
    {self : Necromancer} {E : Bytes} (hE : (kill B obj o d now self).result = .ok E) (httl : o.ttlSeconds = some ttl)
    {verifyKey : Option Bytes} (hv : Verifies B o verifyKey) {w : World} {self' : Necromancer}
    (hkey : self'.key = self.key) (halive : self'.destroyed = false) (hw : (self'.antiDebug && w.debugging) = false) :
    Rots (revive B E ⟨o.hwid, o.stealth, verifyKey⟩ w self').result ↔ ((pyInt now + ttl : Int) : ℚ) < w.now := by
  obtain ⟨key, pickled, p, hk, h, -⟩ := killed_of_kill hE
  by_cases hpast : ((pyInt now + ttl : Int) : ℚ) < w.now
  · obtain ⟨e, he, hkind⟩ := unwrap_rotten h.wrapped httl hpast verifyKey
    refine ⟨fun _ => hpast, fun _ => ⟨e, ?_, hkind⟩⟩
    rw [revive_reaches (killed_reaches h htag hv.isSome hw halive (hkey.trans hk)), haes key d.nonce p o.hwid, judge_ok,
      Out.andThen_ok, Out.after_nil, exhume_apply, contents, he, error_bind]
    rfl
  · have hfresh : Fresh o now w.now := by
      intro ttl' h
      obtain rfl : ttl = ttl' := by simpa [httl] using h
      exact not_lt.mp hpast
    have hok : (revive B E ⟨o.hwid, o.stealth, verifyKey⟩ w self').result = .ok obj := by
      rw [revive_killed h hzlib haes htag hv hfresh hw halive (hkey.trans hk)]
      exact hpickle obj pickled h.dumped
    exact iff_of_false (not_rots_of_ok hok) hpast

end

/-! ## `DoppelgangerNecromancer` -/

section
variable {realObj decoyObj : B.Obj} {realKey decoyKey : Key} {o : Doppelganger.KillOptions} {nonceD nonceR : Nonce}
  {now now' : ℚ} {ttl : Int} {E : Bytes}

/-- A `revive` under one of the two keys. -/
theorem dual_rots_iff (haes : B.AesInverts) (hverdict : B.AesVerdict) (hzlib : B.ZlibInverts)
    (hpickle : B.PickleInverts)
    (hE : (Doppelganger.kill B realObj decoyObj realKey.val decoyKey.val o nonceD nonceR now ()).result = .ok E)
    (httl : o.ttlSeconds = some ttl) {key : Key} (hkey : key = decoyKey ∨ key = realKey)
    (hideal : Ideal ((Doppelganger.kill B realObj decoyObj realKey.val decoyKey.val o nonceD nonceR now ()).calls ++
      (Doppelganger.revive B E key.val o.hwid o.stealth now' ()).calls)) :
    Rots (Doppelganger.revive B E key.val o.hwid o.stealth now' ()).result ↔ ((pyInt now + ttl : Int) : ℚ) < now' := by
  obtain ⟨real, decoy, ttlRaw, bd, br, hk, hcalls⟩ := Doppelganger.killed_of_kill hE
  rw [hcalls] at hideal
  obtain ⟨found, hresult, hd, hr, -⟩ := Doppelganger.revive_killed haes hverdict hk key hideal
  -- one of the two objects, behind the same time stamp
  obtain ⟨obj, pickled, hobj, hfound⟩ : ∃ obj pickled, B.dumps obj = .ok pickled ∧
      found = some (ttlRaw ++ B.compress pickled) := by
    by_cases hdecoy : key = decoyKey
    · exact ⟨decoyObj, decoy, hk.decoyDumped, hd hdecoy⟩
    · have hreal := hkey.resolve_left hdecoy
      exact ⟨realObj, real, hk.realDumped, hr hreal (hreal ▸ hdecoy)⟩
  rw [hresult, hfound]
  by_cases hpast : ((pyInt now + ttl : Int) : ℚ) < now'
  · have hnot : ¬ Doppelganger.Fresh o now now' := fun hfresh => absurd hpast (not_lt.mpr (hfresh ttl httl))
    exact iff_of_true (Doppelganger.reading_rotten hk.timed hnot _) hpast
  · have hfresh : Doppelganger.Fresh o now now' := by
      intro ttl' h
      obtain rfl : ttl = ttl' := by simpa [httl] using h
      exact not_lt.mp hpast
    exact iff_of_false (not_rots_of_ok (Doppelganger.reading_fresh hzlib hpickle hk.timed hfresh hobj)) hpast

end

/-- In both classes, whatever the clocks and the time to live. -/
theorem exact_time_to_live (haes : B.AesInverts) (htag : B.AesTagged) (hverdict : B.AesVerdict) (hzlib : B.ZlibInverts)
    (hpickle : B.PickleInverts) (ttl : Int) :
    (∀ {obj : B.Obj} {o : KillOptions} {d : Draws} {now : ℚ} {self self' : Necromancer} {E : Bytes}
        {verifyKey : Option Bytes} {w : World},
      (kill B obj o d now self).result = .ok E → o.ttlSeconds = some ttl → Verifies B o verifyKey →
      self'.key = self.key → self'.destroyed = false → (self'.antiDebug && w.debugging) = false →
      OnTime now w.now ttl (Rots (revive B E ⟨o.hwid, o.stealth, verifyKey⟩ w self').result)) ∧
    (∀ {realObj decoyObj : B.Obj} {realKey decoyKey key : Key} {o : Doppelganger.KillOptions}
        {nonceD nonceR : Nonce} {now now' : ℚ} {E : Bytes},
      (Doppelganger.kill B realObj decoyObj realKey.val decoyKey.val o nonceD nonceR now ()).result = .ok E →
      o.ttlSeconds = some ttl → (key = decoyKey ∨ key = realKey) →
      Ideal ((Doppelganger.kill B realObj decoyObj realKey.val decoyKey.val o nonceD nonceR now ()).calls ++
        (Doppelganger.revive B E key.val o.hwid o.stealth now' ()).calls) →
      OnTime now now' ttl (Rots (Doppelganger.revive B E key.val o.hwid o.stealth now' ()).result)) := by
  refine ⟨?_, ?_⟩
  · intro obj o d now self self' E verifyKey w hE httl hv hkey halive hw
    exact .of_iff (revive_rots_iff haes htag hzlib hpickle hE httl hv hkey halive hw)
  · intro realObj decoyObj realKey decoyKey key o nonceD nonceR now now' E hE httl hkey hideal
    exact .of_iff (dual_rots_iff haes hverdict hzlib hpickle hE httl hkey hideal)

/-! ## Runs -/

section
open Reference

/-- Killed half a second after a full one, for one second, and rotten 0.7 seconds later. -/
theorem early_run :
    ((kill reference [1, 2, 3] { ttlSeconds := some 1 } runDraws (1 / 2) live).result >>= fun E =>
        (revive reference E {} ⟨false, 6 / 5⟩ live).result) =
      .error (rottenCorpseError "Payload expired at timestamp 1") ∧
    ((Doppelganger.kill reference [1] [2] runKey.val Doppelganger.otherKey.val { ttlSeconds := some 1 } runNonce
        runNonce (1 / 2) ()).result >>= fun E => (Doppelganger.revive reference E runKey.val none false (6 / 5) ()).result) =
      .error (rottenCorpseError "Payload expired at timestamp 1") ∧
    (1 / 2 : ℚ) ≤ 6 / 5 ∧ ¬ 6 / 5 > (1 / 2 : ℚ) + 1 := by
  refine ⟨by decide +kernel, by decide +kernel, by norm_num, by norm_num⟩

/-- A minute is over after a minute and a half. -/
theorem exact_time_to_live_run : ∃ E E₂,
    (kill reference [1, 2, 3] runOptions runDraws 1000 live).result = .ok E ∧
      (Doppelganger.kill reference [1] [2] runKey.val Doppelganger.otherKey.val Doppelganger.runOptions runNonce
        runNonce 1000 ()).result = .ok E₂ ∧
      OnTime 1000 1090 60 (Rots (revive reference E ⟨some [0x68], true, some [0x6b]⟩ ⟨false, 1090⟩ live).result) ∧
      OnTime 1000 1090 60
        (Rots (Doppelganger.revive reference E₂ Doppelganger.otherKey.val (some [0x68]) true 1090 ()).result) := by
  obtain ⟨E, hE⟩ : ∃ E, (kill reference [1, 2, 3] runOptions runDraws 1000 live).result = .ok E := ⟨_, rfl⟩
  obtain ⟨E₂, hE₂⟩ : ∃ E, (Doppelganger.kill reference [1] [2] runKey.val Doppelganger.otherKey.val
      Doppelganger.runOptions runNonce runNonce 1000 ()).result = .ok E := ⟨_, rfl⟩
  have hv : Verifies reference runOptions (some [0x6b]) := by
    intro sk hsk
    obtain rfl : [0x6b] = sk := by simpa [runOptions] using hsk
    exact ⟨_, rfl, ecdsaMatch (by simp)⟩
  obtain ⟨real, decoy, ttlRaw, bd, br, hk, hcalls⟩ := Doppelganger.killed_of_kill hE₂
  have hideal := Doppelganger.ideal_decoy aesInverts hk 1090
  rw [← hcalls] at hideal
  obtain ⟨hsingle, hdual⟩ := exact_time_to_live aesInverts aesTagged aesVerdict zlibInverts pickleInverts 60
  have hkey : live.key = live.key := rfl
  have hsingle := hsingle (w := ⟨false, 1090⟩) hE rfl hv hkey rfl rfl
  exact ⟨E, E₂, hE, hE₂, hsingle, hdual hE₂ rfl (.inl rfl) hideal⟩

end

end Amcrypt.TimeToLive
