/-
  Amcrypt.Doppelganger.Selection — which object a key brings back, and whether there is an
  envelope to bring it back from.

  `key_selection`: of an envelope that `kill` returned, the decoy key revives the decoy, the
  real key, if it is another, the real object, and any other key is refused; past the expiry
  both keys find the payload rotten. `kill_recovers` says when the real object is safe at
  all: the length of the decoy's block goes into two bytes, so a decoy of 64 KiB makes
  `kill` raise and no envelope exists (`kill_returns`); and where the two keys are one,
  `revive` stops at the decoy.
-/

import Amcrypt.Doppelganger.Blocks
import Amcrypt.Reference

namespace Amcrypt.Doppelganger

open Lib Amcrypt.Core

variable {B : Backend} {realObj decoyObj : B.Obj} {realKey decoyKey : Key} {o : KillOptions} {nonceD nonceR : Nonce}
  {now now' : ℚ} {E real decoy ttlRaw : Bytes} {bd br : Block B}

/-! ## What a key revives -/

/-- The object in what the trial found. -/
def reading (B : Backend) (flags : UInt8) (now : ℚ) : Option Bytes → Except PyErr B.Obj
  | none => .error noMatch
  | some p => contents B flags now p >>= B.loads

theorem revive_result {key : Key} {found : Option Bytes} {cs : List Call}
    (h : Killed B realObj decoyObj realKey decoyKey o nonceD nonceR now real decoy ttlRaw bd br E)
    (ht : trial B key o.hwid (candidates bd.bytes br.bytes) () = ⟨.ok found, (), cs⟩) :
    (revive B E key.val o.hwid o.stealth now' ()).result = reading B (envelopeFlags o) now' found := by
  cases found with
  | none => rw [revive_none h.blocks ht, reading]
  | some p =>
    rw [revive_found h.blocks ht, reading]
    cases contents B (envelopeFlags o) now' p with
    | error e => rfl
    | ok data => rfl

/-- A block read before the expiry. -/
theorem reading_fresh (hzlib : B.ZlibInverts) (hpickle : B.PickleInverts)
    (ht : ttlPrefix now o.ttlSeconds = .ok ttlRaw) (hfresh : Fresh o now now') {obj : B.Obj} {pickled : Bytes}
    (hobj : B.dumps obj = .ok pickled) :
    reading B (envelopeFlags o) now' (some (ttlRaw ++ B.compress pickled)) = .ok obj := by
  rw [reading, contents_fresh hzlib ht hfresh, ok_bind, hpickle _ _ hobj]

/-- A block read past the expiry. -/
theorem reading_rotten (ht : ttlPrefix now o.ttlSeconds = .ok ttlRaw) (hpast : ¬ Fresh o now now')
    (compressed : Bytes) :
    ∃ e, reading B (envelopeFlags o) now' (some (ttlRaw ++ compressed)) = .error e ∧ e.isA .rottenCorpse = true := by
  obtain ⟨e, he, hkind⟩ := contents_rotten (B := B) ht hpast compressed
  exact ⟨e, by rw [reading, he, error_bind], hkind⟩

/-- What a key finds in a killed envelope, and what `revive` makes of it. -/
theorem revive_killed (haes : B.AesInverts) (hverdict : B.AesVerdict)
    (h : Killed B realObj decoyObj realKey decoyKey o nonceD nonceR now real decoy ttlRaw bd br E) (key : Key)
    (hideal : Ideal ([.dumps real, .dumps decoy, bd.call, br.call] ++
      (revive B E key.val o.hwid o.stealth now' ()).calls)) :
    ∃ found, (revive B E key.val o.hwid o.stealth now' ()).result = reading B (envelopeFlags o) now' found ∧
      (key = decoyKey → found = some (ttlRaw ++ B.compress decoy)) ∧
      (key = realKey → realKey ≠ decoyKey → found = some (ttlRaw ++ B.compress real)) ∧
      (key ≠ decoyKey → key ≠ realKey → found = none) := by
  obtain ⟨later, hcalls⟩ : ∃ later, (revive B E key.val o.hwid o.stealth now' ()).calls =
      (trial B key o.hwid (candidates bd.bytes br.bytes) ()).calls ++ later := revive_calls h.blocks
  rw [hcalls, ← List.append_assoc] at hideal
  obtain ⟨found, cs, ht, hd, hr, hnone⟩ := trial_killed haes hverdict h key hideal.of_append
  have hpd : bd.plaintext = ttlRaw ++ B.compress decoy := by rw [h.decoyBlock]
  have hpr : br.plaintext = ttlRaw ++ B.compress real := by rw [h.realBlock]
  rw [hpd] at hd
  rw [hpr] at hr
  exact ⟨found, revive_result h ht, hd, hr, hnone⟩

/-- Of an envelope that `kill` sealed under two distinct keys, each key revives its own
    object up to the expiry and finds it rotten after; every other key is refused. -/
theorem key_selection (haes : B.AesInverts) (hverdict : B.AesVerdict) (hzlib : B.ZlibInverts)
    (hpickle : B.PickleInverts) (hkeys : realKey ≠ decoyKey)
    (h : (kill B realObj decoyObj realKey.val decoyKey.val o nonceD nonceR now ()).result = .ok E) (key : Key)
    (hideal : Ideal ((kill B realObj decoyObj realKey.val decoyKey.val o nonceD nonceR now ()).calls ++
      (revive B E key.val o.hwid o.stealth now' ()).calls)) :
    (Fresh o now now' →
      (key = decoyKey → (revive B E key.val o.hwid o.stealth now' ()).result = .ok decoyObj) ∧
      (key = realKey → (revive B E key.val o.hwid o.stealth now' ()).result = .ok realObj)) ∧
    (key ≠ decoyKey → key ≠ realKey →
      (revive B E key.val o.hwid o.stealth now' ()).result =
        .error (wrongRealmError "Key does not match either the real or decoy block")) ∧
    (¬ Fresh o now now' → key = decoyKey ∨ key = realKey →
      ∃ e, (revive B E key.val o.hwid o.stealth now' ()).result = .error e ∧ e.isA .rottenCorpse = true) := by
  obtain ⟨real, decoy, ttlRaw, bd, br, hk, hcalls⟩ := killed_of_kill h
  rw [hcalls] at hideal
  obtain ⟨found, hresult, hd, hr, hnone⟩ := revive_killed haes hverdict hk key hideal
  rw [hresult]
  refine ⟨?_, ?_, ?_⟩
  · intro hfresh
    refine ⟨?_, ?_⟩
    · intro hkey
      rw [hd hkey]
      exact reading_fresh hzlib hpickle hk.timed hfresh hk.decoyDumped
    · intro hkey
      rw [hr hkey hkeys]
      exact reading_fresh hzlib hpickle hk.timed hfresh hk.realDumped
  · intro h1 h2
    rw [hnone h1 h2]
    rfl
  · intro hpast hkey
    rcases hkey with hkey | hkey
    · rw [hd hkey]
      exact reading_rotten hk.timed hpast _
    · rw [hr hkey hkeys]
      exact reading_rotten hk.timed hpast _

/-! ## Whether `kill` returns -/

/-- The block of a compressed decoy fits the split field. -/
def DecoyFits (o : KillOptions) (compressed : Bytes) : Prop :=
  nonceLength + (if o.ttlSeconds.isSome then ttlSize else 0) + compressed.length + 16 < 65536

theorem ttlPrefix_returns (hpos : ∀ ttl ∈ o.ttlSeconds, 0 < ttl) :
    Returns (ttlPrefix now o.ttlSeconds) ↔ ∀ ttl ∈ o.ttlSeconds, ExpiryFits now ttl := by
  cases httl : o.ttlSeconds with
  | none =>
    refine ⟨?_, ?_⟩
    · intro _ ttl h
      cases h
    · intro _
      exact returns_ok []
  | some ttl =>
    have hnot : ¬ ttl ≤ 0 := by
      have := hpos ttl httl
      omega
    simp only [Option.mem_some_iff, forall_eq', ← packTtl_returns, ttlPrefix, if_neg hnot]

theorem length_ttlPrefix (h : ttlPrefix now o.ttlSeconds = .ok ttlRaw) :
    ttlRaw.length = if o.ttlSeconds.isSome then ttlSize else 0 := by
  cases httl : o.ttlSeconds with
  | none =>
    rw [httl] at h
    obtain rfl : [] = ttlRaw := Except.ok.inj h
    rfl
  | some ttl =>
    rw [httl] at h
    exact length_packTtl (ttlPrefix_some h)

/-- The first block under a sealed time stamp. -/
theorem length_decoyBlock (htagged : B.AesTagged) (ht : ttlPrefix now o.ttlSeconds = .ok ttlRaw) (key : Key)
    (nonce : Nonce) (compressed : Bytes) :
    (nonce.val ++ B.gcmEncrypt key nonce.val (ttlRaw ++ compressed) o.hwid).length =
      nonceLength + (if o.ttlSeconds.isSome then ttlSize else 0) + compressed.length + 16 := by
  rw [← length_ttlPrefix ht, List.length_append, htagged, List.length_append, nonce.property, nonceLength]
  omega

/-- A decoy that does not fit makes `kill` raise. -/
theorem kill_overflow (htagged : B.AesTagged) (hreal : B.dumps realObj = .ok real)
    (hdecoy : B.dumps decoyObj = .ok decoy) (ht : ttlPrefix now o.ttlSeconds = .ok ttlRaw) (hbig : ¬ DecoyFits o (B.compress decoy)) :
    (kill B realObj decoyObj realKey.val decoyKey.val o nonceD nonceR now ()).result = .error .structError := by
  rw [DecoyFits, ← length_decoyBlock htagged ht decoyKey nonceD] at hbig
  have hfield := packUInt_overflow (show ¬ _ < 256 ^ 2 from hbig)
  rw [kill_eq, hreal, hdecoy, ht]
  simp only [pack, packHeader, hfield, error_bind]

/-- Given two picklable objects and a positive time to live, `kill` returns exactly if the
    decoy's block and the expiry fit their fields. -/
theorem kill_returns (htagged : B.AesTagged) (hreal : B.dumps realObj = .ok real)
    (hdecoy : B.dumps decoyObj = .ok decoy) (hpos : ∀ ttl ∈ o.ttlSeconds, 0 < ttl) :
    Returns (kill B realObj decoyObj realKey.val decoyKey.val o nonceD nonceR now ()).result ↔
      DecoyFits o (B.compress decoy) ∧ ∀ ttl ∈ o.ttlSeconds, ExpiryFits now ttl := by
  rw [← ttlPrefix_returns hpos, kill_eq, hreal, hdecoy]
  cases ht : ttlPrefix now o.ttlSeconds with
  | error e => simp only [not_returns_error, and_false]
  | ok ttlRaw =>
    have hlen := length_decoyBlock htagged ht decoyKey nonceD (B.compress decoy)
    refine ⟨?_, ?_⟩
    · intro h
      obtain ⟨E, hE⟩ := h
      obtain ⟨hfits, -⟩ := pack_ok_iff.mp hE
      rw [hlen] at hfits
      exact ⟨hfits, returns_ok ttlRaw⟩
    · intro hx
      obtain ⟨hfits, -⟩ := hx
      rw [DecoyFits, ← hlen] at hfits
      exact ⟨_, pack_ok_iff.mpr ⟨hfits, rfl⟩⟩

/-- `kill` returns an envelope, and before the expiry the real key brings the real object
    back from it. -/
def Recovers (B : Backend) (realObj decoyObj : B.Obj) (realKey decoyKey : Key) (o : KillOptions)
    (nonceD nonceR : Nonce) (now : ℚ) : Prop :=
  ∃ E, (kill B realObj decoyObj realKey.val decoyKey.val o nonceD nonceR now ()).result = .ok E ∧
    ∀ now', Fresh o now now' →
      Ideal ((kill B realObj decoyObj realKey.val decoyKey.val o nonceD nonceR now ()).calls ++
        (revive B E realKey.val o.hwid o.stealth now' ()).calls) →
      (revive B E realKey.val o.hwid o.stealth now' ()).result = .ok realObj

/-- The decoy key opens the first block. -/
theorem ideal_decoy (haes : B.AesInverts)
    (h : Killed B realObj decoyObj realKey decoyKey o nonceD nonceR now real decoy ttlRaw bd br E) (now' : ℚ) :
    Ideal ([.dumps real, .dumps decoy, bd.call, br.call] ++
      (revive B E decoyKey.val o.hwid o.stealth now' ()).calls) := by
  have ht : trial B decoyKey o.hwid (candidates bd.bytes br.bytes) () = ⟨.ok (some bd.plaintext), (),
      [] ++ [.decrypt decoyKey bd.nonce.val bd.ciphertext o.hwid (.ok bd.plaintext)]⟩ := by
    rw [candidates, bd.split]
    exact trial_opens (h.decoy_opens haes)
  refine ideal_revive h.blocks (ideal_kill bd br real decoy) (by simp) ?_ ?_ (by simp) ht now'
  · rw [h.decoyBlock]
  · rw [h.decoyBlock]

/-- The real key opens the second block, if it does not open the first. -/
theorem ideal_real (haes : B.AesInverts)
    (h : Killed B realObj decoyObj realKey decoyKey o nonceD nonceR now real decoy ttlRaw bd br E)
    (hskip : B.gcmDecrypt realKey bd.nonce.val bd.ciphertext o.hwid = .error .invalidTag) (now' : ℚ) :
    Ideal ([.dumps real, .dumps decoy, bd.call, br.call] ++
      (revive B E realKey.val o.hwid o.stealth now' ()).calls) := by
  have ht : trial B realKey o.hwid (candidates bd.bytes br.bytes) () = ⟨.ok (some br.plaintext), (),
      [.decrypt realKey bd.nonce.val bd.ciphertext o.hwid (.error .invalidTag)] ++
        [.decrypt realKey br.nonce.val br.ciphertext o.hwid (.ok br.plaintext)]⟩ := by
    rw [candidates, bd.split, br.split, trial_skips hskip, trial_opens (h.real_opens haes)]
    rfl
  refine ideal_revive h.blocks (ideal_kill bd br real decoy) (by simp) ?_ ?_ (by simp [Call.Opens]) ht now'
  · rw [h.realBlock]
  · rw [h.realBlock]

/-- Given two picklable objects and a positive time to live, the real object is recovered
    exactly if the decoy's block and the expiry fit their fields, and the keys are distinct
    (or the objects are not). -/
theorem kill_recovers (haes : B.AesInverts) (htagged : B.AesTagged) (hverdict : B.AesVerdict) (hzlib : B.ZlibInverts)
    (hpickle : B.PickleInverts) (hreal : B.dumps realObj = .ok real) (hdecoy : B.dumps decoyObj = .ok decoy)
    (hpos : ∀ ttl ∈ o.ttlSeconds, 0 < ttl) :
    Recovers B realObj decoyObj realKey decoyKey o nonceD nonceR now ↔
      DecoyFits o (B.compress decoy) ∧ (∀ ttl ∈ o.ttlSeconds, ExpiryFits now ttl) ∧
        (realKey ≠ decoyKey ∨ realObj = decoyObj) := by
  have hreturns : Returns (kill B realObj decoyObj realKey.val decoyKey.val o nonceD nonceR now ()).result ↔
      DecoyFits o (B.compress decoy) ∧ ∀ ttl ∈ o.ttlSeconds, ExpiryFits now ttl :=
    kill_returns htagged hreal hdecoy hpos
  rw [← and_assoc, ← hreturns]
  refine ⟨?_, ?_⟩
  · intro h
    obtain ⟨E, hE, hback⟩ := h
    refine ⟨⟨E, hE⟩, ?_⟩
    by_cases hkeys : realKey = decoyKey
    · right
      subst hkeys
      obtain ⟨real', decoy', ttlRaw, bd, br, hk, hcalls⟩ := killed_of_kill hE
      have hfresh := fresh_of_ttlPrefix hk.timed
      have hideal := ideal_decoy haes hk now
      have hreturned := hback now hfresh (by rw [hcalls]; exact hideal)
      obtain ⟨found, hresult, hd, -, -⟩ := revive_killed haes hverdict hk realKey hideal
      rw [hresult, hd rfl, reading_fresh hzlib hpickle hk.timed hfresh hk.decoyDumped] at hreturned
      exact (Except.ok.inj hreturned).symm
    · exact .inl hkeys
  · intro hx
    obtain ⟨⟨E, hE⟩, hkeys⟩ := hx
    refine ⟨E, hE, ?_⟩
    intro now' hfresh hideal
    obtain ⟨real', decoy', ttlRaw, bd, br, hk, hcalls⟩ := killed_of_kill hE
    rw [hcalls] at hideal
    obtain ⟨found, hresult, hd, hr, -⟩ := revive_killed haes hverdict hk realKey hideal
    rw [hresult]
    by_cases heq : realKey = decoyKey
    · rw [hd heq, reading_fresh hzlib hpickle hk.timed hfresh hk.decoyDumped]
      rcases hkeys with hne | hobj
      · exact absurd heq hne
      · rw [hobj]
    · rw [hr rfl heq]
      exact reading_fresh hzlib hpickle hk.timed hfresh hk.realDumped

/-! ## Runs -/

section
open Reference

def otherKey : Key := ⟨List.replicate 32 0x42, rfl⟩

/-- Soul-bound, expiring and masked. -/
def runOptions : KillOptions := ⟨some [0x68], some 60, true⟩

theorem runOptions_pos : ∀ ttl ∈ runOptions.ttlSeconds, 0 < ttl := by
  intro ttl h
  obtain rfl : 60 = ttl := by simpa [runOptions] using h
  omega

/-- A minute after the `kill` the real key still revives the real object. -/
theorem key_selection_run :
    ∃ E, (kill reference [1] [2] runKey.val otherKey.val runOptions runNonce runNonce 1000 ()).result = .ok E ∧
      (revive reference E runKey.val (some [0x68]) true 1060 ()).result = .ok [1] := by
  obtain ⟨E, hE⟩ : ∃ E, (kill reference [1] [2] runKey.val otherKey.val runOptions runNonce runNonce 1000 ()).result =
      .ok E := ⟨_, rfl⟩
  obtain ⟨real, decoy, ttlRaw, bd, br, hk, hcalls⟩ := killed_of_kill hE
  have hfresh : Fresh runOptions 1000 (1060 : ℚ) := by
    intro ttl httl
    obtain rfl : 60 = ttl := by simpa [runOptions] using httl
    have : pyInt 1000 = 1000 := by decide
    rw [this]
    norm_num
  have hskip : reference.gcmDecrypt runKey bd.nonce.val bd.ciphertext runOptions.hwid = .error .invalidTag := by
    obtain rfl := Except.ok.inj hk.decoyDumped
    obtain rfl := Except.ok.inj hk.timed
    rw [hk.decoyBlock]
    decide +kernel
  have hideal := ideal_real aesInverts hk hskip 1060
  rw [← hcalls] at hideal
  exact ⟨E, hE, ((key_selection aesInverts aesVerdict zlibInverts pickleInverts (by decide) hE runKey hideal).1
    hfresh).2 rfl⟩

theorem kill_recovers_run : Recovers reference [1] [2] runKey otherKey runOptions runNonce runNonce 1000 := by
  refine (kill_recovers aesInverts aesTagged aesVerdict zlibInverts pickleInverts rfl rfl runOptions_pos).mpr
    ⟨by unfold DecoyFits; decide, ?_, .inl (by decide)⟩
  intro ttl h
  obtain rfl : 60 = ttl := by simpa [runOptions] using h
  unfold ExpiryFits
  decide

/-- `bytes` from 256 bytes up to a frame, under protocol 5: `BINBYTES`. -/
def bulkDumps (obj : Bytes) : Except PyErr Bytes :=
  if obj.length < 256 then Reference.dumps obj
  else .ok (0x80 :: 0x05 :: 0x95 :: UInt8.ofNat (obj.length + 7) :: UInt8.ofNat ((obj.length + 7) / 256) ::
    0 :: 0 :: 0 :: 0 :: 0 :: 0 :: 0x42 :: UInt8.ofNat obj.length :: UInt8.ofNat (obj.length / 256) :: 0 :: 0 ::
    (obj ++ [0x94, 0x2e]))

def bulk : Backend := { reference with dumps := bulkDumps }

theorem bulk_dumps (obj : Bytes) : bulk.dumps obj = bulkDumps obj := rfl

theorem length_lt_bulk {obj pickled : Bytes} (hlong : ¬ obj.length < 256) (h : bulk.dumps obj = .ok pickled) :
    obj.length < pickled.length := by
  rw [bulk_dumps, bulkDumps, if_neg hlong] at h
  rw [← Except.ok.inj h]
  simp only [List.length_cons, List.length_append]
  omega

/-- Bytes that zlib cannot shrink. -/
def noise : Bytes := (List.range 65500).map fun i => UInt8.ofNat (i ^ 3 * 2654435761 / 65536)

theorem length_noise : noise.length = 65500 := by
  simp [noise]

theorem length_compress_noise {pickled : Bytes} (h : bulk.dumps noise = .ok pickled) :
    65507 < (bulk.compress pickled).length := by
  have hlen := length_lt_bulk (by rw [length_noise]; omega) h
  rw [length_noise] at hlen
  have hdeflate := Stored.length_lt_deflate pickled.length pickled
  show 65507 < (Stored.compress pickled).length
  simp only [Stored.compress, List.length_cons, List.length_append, BigEndian.length_encode]
  omega

/-- A decoy of 64 KiB makes `kill` raise; and under one key for both, `revive` stops at the
    decoy. -/
theorem kill_overflow_run :
    (kill bulk [1] noise runKey.val otherKey.val {} runNonce runNonce 1000 ()).result = .error .structError ∧
      ¬ Recovers reference [1] [2] runKey runKey {} runNonce runNonce 1000 := by
  refine ⟨?_, ?_⟩
  · have hnoise : ¬ noise.length < 256 := by rw [length_noise]; omega
    obtain ⟨decoy, hdecoy⟩ : ∃ decoy, bulk.dumps noise = .ok decoy := by
      rw [bulk_dumps, bulkDumps, if_neg hnoise]
      exact ⟨_, rfl⟩
    have hlen := length_compress_noise hdecoy
    have htagged : bulk.AesTagged := aesTagged
    refine kill_overflow htagged rfl hdecoy rfl ?_
    unfold DecoyFits nonceLength
    omega
  · intro h
    obtain ⟨E, hE, hback⟩ := h
    obtain ⟨real, decoy, ttlRaw, bd, br, hk, hcalls⟩ := killed_of_kill hE
    have hfresh := fresh_of_ttlPrefix hk.timed
    have hideal := ideal_decoy aesInverts hk 1000
    obtain ⟨found, hresult, hd, -, -⟩ := revive_killed aesInverts aesVerdict hk runKey hideal
    rw [hd rfl, reading_fresh zlibInverts pickleInverts hk.timed hfresh hk.decoyDumped] at hresult
    rw [← hcalls] at hideal
    have hreturned := hback 1000 hfresh hideal
    have hsame : ([2] : Bytes) = [1] := Except.ok.inj (hresult.symm.trans hreturned)
    cases hsame

end

end Amcrypt.Doppelganger
