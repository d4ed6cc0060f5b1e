/-
  Amcrypt.Core.Errors — what `revive` raises, and that its parser stays in bounds.

  The stages after the decryption read lengths that whoever holds the AES key chose. Each
  has an exact variant, which raises wherever a slice would come up short: `layers_in_bounds`
  says that it is the same function, that what a stage consumes and what it leaves make up
  its input, and that it raises the three exceptions of its stage and no other.

  Before and behind these stages stand AES-GCM and zlib, with exceptions of their own, and
  `revive` catches only `InvalidTag`. `documented_errors` says when nothing else escapes:
  exactly if, in every envelope that gets as far, AES-GCM is given a nonce it takes and
  the plaintext that comes out of the layers decompresses and unpickles.
-/

import Amcrypt.Core.Header
import Amcrypt.Core.KillSwitch

namespace Amcrypt.Core

open Lib

variable (B : Backend)

/-! ## The stages with every slice checked -/

/-- `data[i:j]` of a string that reaches as far. -/
def exactly (i j : Nat) (data : Bytes) : Except PyErr Bytes :=
  if i ≤ j ∧ j ≤ data.length then .ok (slice i j data) else .error (.other "short slice")

def stripPaddingExact (data : Bytes) : Except PyErr Bytes :=
  if data.length < 1 then throw (mutilatedCorpseError "Padding header missing")
  else do
    let padLen ← index data 0
    if data.length < 1 + padLen.toNat then throw (mutilatedCorpseError "Padding payload truncated")
    else exactly (1 + padLen.toNat) data.length data

def stripTtlExact (now : ℚ) (plaintext : Bytes) : Except PyErr Bytes :=
  if plaintext.length < ttlSize then throw (mutilatedCorpseError "TTL header truncated")
  else do
    let ttlRaw ← exactly 0 ttlSize plaintext
    let expiry ← unpackTtl ttlRaw
    if (expiry : ℚ) < now then
      throw (rottenCorpseError ("Payload expired at timestamp " ++ toString expiry))
    else exactly ttlSize plaintext.length plaintext

def stripPactExact (verifyKey : Option Bytes) (plaintext : Bytes) : Except PyErr Bytes :=
  if plaintext.length < 4 then throw (mutilatedCorpseError "Signed payload header truncated")
  else do
    let pubLen ← unpackFrom 2 plaintext 0
    let offset := 2
    if plaintext.length < offset + pubLen + 2 then throw (mutilatedCorpseError "Public key truncated")
    else
      let _pubDer ← exactly offset (offset + pubLen) plaintext
      let offset := offset + pubLen
      let sigLen ← unpackFrom 2 plaintext offset
      let offset := offset + 2
      if plaintext.length < offset + sigLen then throw (mutilatedCorpseError "Signature truncated")
      else
        let signature ← exactly offset (offset + sigLen) plaintext
        let dataToVerify ← exactly (offset + sigLen) plaintext.length plaintext
        let valid ← verifyWith B verifyKey signature dataToVerify
        if valid then pure dataToVerify
        else throw (brokenPactError "ECDSA signature verification failed")

def unwrapExact (flags : UInt8) (verifyKey : Option Bytes) (now : ℚ) (plaintext : Bytes) : Except PyErr Bytes := do
  let plaintext ← stage flags flagPadded stripPaddingExact plaintext
  let plaintext ← stage flags flagTtl (stripTtlExact now) plaintext
  stage flags flagSigned (stripPactExact B verifyKey) plaintext

variable {B}

theorem exactly_ok {i j : Nat} {data : Bytes} (hi : i ≤ j) (hj : j ≤ data.length) :
    exactly i j data = .ok (slice i j data) := if_pos ⟨hi, hj⟩

theorem exactly_drop {i : Nat} {data : Bytes} (h : i ≤ data.length) :
    exactly i data.length data = .ok (data.drop i) := by
  rw [exactly_ok h (Nat.le_refl _), slice, List.take_length]

/-- An exception of the stages behind the decryption. -/
def Condemned (e : PyErr) : Prop :=
  e.isA .mutilatedCorpse = true ∨ e.isA .rottenCorpse = true ∨ e.isA .brokenPact = true

/-- The stage reads `p` in bounds: no slice comes up short, what it consumes and what it
    leaves make up `p`, and else it condemns the corpse. -/
structure InBounds (exact strip : Bytes → Except PyErr Bytes) (P : Bytes → Bytes → Prop) (p : Bytes) : Prop where
  whole : exact p = strip p
  consumed : ∀ q, strip p = .ok q → ∃ s, p = s ++ q ∧ P q s
  refused : ∀ e, strip p = .error e → Condemned e

theorem stripPadding_in_bounds (p : Bytes) : InBounds stripPaddingExact stripPadding (fun _ => PadPart) p := by
  refine ⟨?_, ?_, ?_⟩
  · unfold stripPaddingExact stripPadding
    split
    · rfl
    · cases index p 0 with
      | error e => rfl
      | ok padLen =>
        simp only [ok_bind]
        split
        · rfl
        · exact exactly_drop (by omega)
  · intro q h
    exact stripPadding_ok_iff.mp h
  · intro e h
    cases p with
    | nil => cases h; exact .inl rfl
    | cons k rest =>
      simp only [stripPadding, index_zero_cons, ok_bind] at h
      rw [if_neg (by simp)] at h
      split at h
      · cases h; exact .inl rfl
      · cases h

theorem stripTtl_refused {now : ℚ} {p : Bytes} {e : PyErr} (h : stripTtl now p = .error e) :
    e.isA .mutilatedCorpse = true ∨ e.isA .rottenCorpse = true := by
  unfold stripTtl at h
  split at h
  · cases h; exact .inl rfl
  · rename_i hlong
    have htake : (p.take ttlSize).length = 8 := by rw [List.length_take]; unfold ttlSize at *; omega
    rw [unpackTtl, unpackUInt_ok htake, ok_bind] at h
    split at h
    · cases h; exact .inr rfl
    · cases h

theorem stripTtl_in_bounds (now : ℚ) (p : Bytes) :
    InBounds (stripTtlExact now) (stripTtl now) (fun _ => TtlPart now) p := by
  refine ⟨?_, ?_, ?_⟩
  · unfold stripTtlExact stripTtl
    split
    · rfl
    · rename_i hlong
      have hlong := Nat.le_of_not_lt hlong
      rw [exactly_ok (Nat.zero_le _) hlong, exactly_drop hlong]
      rfl
  · intro q h
    exact stripTtl_ok_iff.mp h
  · intro e h
    rcases stripTtl_refused h with hkind | hkind
    · exact .inl hkind
    · exact .inr (.inl hkind)

/-- A key that parses gives a verdict on every signature. -/
theorem verifyWith_verdict {verifyKey : Option Bytes} {vk : Bytes} (h : verifyKey = some vk) (hec : B.EcPublicKey vk)
    (sig data : Bytes) : ∃ valid, verifyWith B verifyKey sig data = .ok valid := by
  obtain ⟨pk, hload, hcurve⟩ := hec
  rw [h]
  exact ⟨B.ecVerify pk sig data, by simp [verifyWith, ecdsaVerify, hload, hcurve]⟩

theorem stripPact_in_bounds {verifyKey : Option Bytes} {vk : Bytes} (hvk : verifyKey = some vk)
    (hec : B.EcPublicKey vk) (p : Bytes) :
    InBounds (stripPactExact B verifyKey) (stripPact B verifyKey) (PactPart B verifyKey) p := by
  refine ⟨?_, ?_, ?_⟩
  · unfold stripPactExact stripPact
    split
    · rfl
    · cases unpackFrom 2 p 0 with
      | error e => rfl
      | ok pubLen =>
        simp only [ok_bind]
        split
        · rfl
        · rw [exactly_ok (by omega) (by omega), ok_bind]
          cases unpackFrom 2 p (2 + pubLen) with
          | error e => rfl
          | ok sigLen =>
            simp only [ok_bind]
            split
            · rfl
            · rw [exactly_ok (by omega) (by omega), exactly_drop (by omega)]
              rfl
  · intro q h
    exact pact_ok_iff.mp h
  · intro e h
    unfold stripPact at h
    split at h
    · cases h; exact .inl rfl
    rw [unpackFrom_ok (by omega), ok_bind] at h
    dsimp only at h
    split at h
    · cases h; exact .inl rfl
    rw [unpackFrom_ok (by omega), ok_bind] at h
    split at h
    · cases h; exact .inl rfl
    obtain ⟨valid, hvalid⟩ := verifyWith_verdict hvk hec _ _
    rw [hvalid, ok_bind] at h
    split at h
    · cases h
    · cases h; exact .inr (.inr rfl)

/-- A stage that is not named leaves its input as it is. -/
theorem InBounds.stage {exact strip : Bytes → Except PyErr Bytes} {P : Bytes → Bytes → Prop} {flags flag : UInt8}
    (h : has flags flag = true → ∀ p, InBounds exact strip P p) (p : Bytes) :
    InBounds (stage flags flag exact) (stage flags flag strip) (fun q => Part (has flags flag) (P q)) p := by
  unfold Core.stage Part
  cases hflag : has flags flag with
  | true => exact h hflag p
  | false =>
    refine ⟨rfl, ?_, ?_⟩
    · intro q hq
      exact ⟨[], Except.ok.inj hq, rfl⟩
    · intro e he
      cases he

section
variable {flags : UInt8} {verifyKey : Option Bytes} {now : ℚ}

theorem padding_in_bounds (p : Bytes) : InBounds (stage flags flagPadded stripPaddingExact)
    (stage flags flagPadded stripPadding) (fun _ => Part (has flags flagPadded) PadPart) p :=
  InBounds.stage (fun _ => stripPadding_in_bounds) p

theorem ttl_in_bounds (now : ℚ) (p : Bytes) : InBounds (stage flags flagTtl (stripTtlExact now))
    (stage flags flagTtl (stripTtl now)) (fun _ => Part (has flags flagTtl) (TtlPart now)) p :=
  InBounds.stage (fun _ => stripTtl_in_bounds now) p

theorem pact_in_bounds (hvk : ∀ vk, verifyKey = some vk → B.EcPublicKey vk)
    (hpledged : has flags flagSigned = true → verifyKey.isSome = true) (p : Bytes) :
    InBounds (stage flags flagSigned (stripPactExact B verifyKey)) (stage flags flagSigned (stripPact B verifyKey))
      (fun q => Part (has flags flagSigned) (PactPart B verifyKey q)) p := by
  refine InBounds.stage (fun hsigned => ?_) p
  obtain ⟨vk, hkey⟩ := Option.isSome_iff_exists.mp (hpledged hsigned)
  exact stripPact_in_bounds hkey (hvk vk hkey)

/-- Whatever stage raises, it condemns the corpse. -/
theorem unwrap_refused (hvk : ∀ vk, verifyKey = some vk → B.EcPublicKey vk)
    (hpledged : has flags flagSigned = true → verifyKey.isSome = true) {p : Bytes} {e : PyErr}
    (h : unwrap B flags verifyKey now p = .error e) : Condemned e := by
  have hpeel : ∀ e, peel flags now p = .error e → Condemned e := by
    rw [peel, bind_errors]
    exact ⟨(padding_in_bounds p).refused, fun q _ => (ttl_in_bounds now q).refused⟩
  revert e
  rw [unwrap, bind_errors]
  exact ⟨hpeel, fun q _ => (pact_in_bounds hvk hpledged q).refused⟩

/-- The parser behind the decryption, on any plaintext: stage by stage and as a whole. -/
theorem layers_in_bounds (now : ℚ) (hvk : ∀ vk, verifyKey = some vk → B.EcPublicKey vk)
    (hpledged : has flags flagSigned = true → verifyKey.isSome = true) :
    (∀ p, InBounds (stage flags flagPadded stripPaddingExact) (stage flags flagPadded stripPadding)
      (fun _ => Part (has flags flagPadded) PadPart) p) ∧
    (∀ p, InBounds (stage flags flagTtl (stripTtlExact now)) (stage flags flagTtl (stripTtl now))
      (fun _ => Part (has flags flagTtl) (TtlPart now)) p) ∧
    (∀ p, InBounds (stage flags flagSigned (stripPactExact B verifyKey))
      (stage flags flagSigned (stripPact B verifyKey))
      (fun q => Part (has flags flagSigned) (PactPart B verifyKey q)) p) ∧
    ∀ p, unwrapExact B flags verifyKey now p = unwrap B flags verifyKey now p ∧
      ((∃ z, unwrap B flags verifyKey now p = .ok z ∧ Plaintext B flags verifyKey now p z) ∨
        ∃ e, unwrap B flags verifyKey now p = .error e ∧ Condemned e) := by
  refine ⟨padding_in_bounds, ttl_in_bounds now, pact_in_bounds hvk hpledged, ?_⟩
  intro p
  refine ⟨?_, ?_⟩
  · simp only [unwrapExact, unwrap, peel, (padding_in_bounds _).whole, (ttl_in_bounds now _).whole,
      (pact_in_bounds hvk hpledged _).whole, bind_assoc]
  · cases hz : unwrap B flags verifyKey now p with
    | ok z => exact .inl ⟨z, rfl, unwrap_ok_iff.mp hz⟩
    | error e => exact .inr ⟨e, rfl, unwrap_refused hvk hpledged hz⟩

end

/-- A plaintext whose key length reaches far beyond it, under a signing key. -/
theorem layers_in_bounds_run :
    unwrapExact Reference.reference 0x1c (some [0x01]) 0 (0x00 :: List.replicate 12 0xff) =
      unwrap Reference.reference 0x1c (some [0x01]) 0 (0x00 :: List.replicate 12 0xff) ∧
    ((∃ z, unwrap Reference.reference 0x1c (some [0x01]) 0 (0x00 :: List.replicate 12 0xff) = .ok z ∧
        Plaintext Reference.reference 0x1c (some [0x01]) 0 (0x00 :: List.replicate 12 0xff) z) ∨
      ∃ e, unwrap Reference.reference 0x1c (some [0x01]) 0 (0x00 :: List.replicate 12 0xff) = .error e ∧
        Condemned e) := by
  have hvk : ∀ vk, some [0x01] = some vk → Reference.reference.EcPublicKey vk := by
    intro vk h
    obtain rfl := Option.some.inj h
    exact ⟨[0x01], rfl, rfl⟩
  exact (layers_in_bounds 0 hvk fun _ => rfl).2.2.2 _

/-! ## What escapes -/

/-- An exception that `revive` documents: one of the library's own. -/
def Documented (e : PyErr) : Prop := ∃ kind, e.isA kind = true

theorem Condemned.documented {e : PyErr} (h : Condemned e) : Documented e := by
  rcases h with h | h | h
  · exact ⟨_, h⟩
  · exact ⟨_, h⟩
  · exact ⟨_, h⟩

theorem documented_amcrypt (kind : AmcryptError) (message : String) : Documented (.amcrypt kind message) :=
  ⟨kind, beq_self_eq_true kind⟩

/-- The caller gave what the envelope demands. -/
structure Admitted (f : Frame) (a : ReviveOptions) : Prop where
  named : a.stealth = true ∨ f.magic.val = magic
  bound : has f.flags flagHwid = true → a.hwid.isSome = true
  pledged : has f.flags flagSigned = true → a.verifyKey.isSome = true

/-- AES-GCM takes the nonce, and what comes out of the layers decompresses and unpickles. -/
structure Sound (B : Backend) (key : Key) (f : Frame) (a : ReviveOptions) (now : ℚ) : Prop where
  nonce : 8 ≤ f.nonce.length ∧ f.nonce.length ≤ 128
  pickled : ∀ p z, B.gcmDecrypt key f.nonce f.ciphertext a.hwid = .ok p → Plaintext B f.flags a.verifyKey now p z →
    ∃ b, B.decompress z = .ok b ∧ ∀ e, B.loads b = .error e → Documented e

theorem refused_documented {corpse : Bytes} {a : ReviveOptions} {e : PyErr}
    (h : (unpack corpse a.stealth >>= fun x => preCheck x.2.2 a.hwid a.verifyKey) = .error e) : Documented e := by
  cases hf : unpack corpse a.stealth with
  | error e' =>
    rw [hf] at h
    cases h
    exact ⟨_, unpack_error_kind hf⟩
  | ok x =>
    rw [hf, ok_bind] at h
    unfold preCheck at h
    split at h
    · cases h; exact documented_amcrypt _ _
    split at h
    · cases h; exact documented_amcrypt _ _
    · cases h

theorem tamperError_documented (self : Necromancer) (hwid : Option Bytes) : Documented (self.tamperError hwid) := by
  unfold Necromancer.tamperError tagFailed
  repeat' split
  all_goals exact documented_amcrypt _ _

/-- A zlib stream of a pickle, by what decompressing and unpickling can raise. -/
theorem inflated_iff (hzlib : B.ZlibFails) {P : PyErr → Prop} (hP : ¬ P .zlibError) {z : Bytes} :
    (∀ e, (B.decompress z >>= B.loads) = .error e → P e) ↔
      ∃ b, B.decompress z = .ok b ∧ ∀ e, B.loads b = .error e → P e := by
  cases hz : B.decompress z with
  | error e =>
    obtain rfl := hzlib z e hz
    simp [hP]
  | ok b => simp

theorem not_documented_zlib : ¬ Documented .zlibError := by
  intro h
  obtain ⟨kind, hk⟩ := h
  cases hk

theorem contents_documented (hzlib : B.ZlibFails) {flags : UInt8} {verifyKey : Option Bytes} {now : ℚ} {p : Bytes}
    (hvk : ∀ vk, verifyKey = some vk → B.EcPublicKey vk)
    (hpledged : has flags flagSigned = true → verifyKey.isSome = true) :
    (∀ e, (contents B flags verifyKey now p >>= B.loads) = .error e → Documented e) ↔
      ∀ z, Plaintext B flags verifyKey now p z →
        ∃ b, B.decompress z = .ok b ∧ ∀ e, B.loads b = .error e → Documented e := by
  rw [contents, bind_assoc, bind_errors]
  simp only [unwrap_ok_iff, inflated_iff hzlib not_documented_zlib]
  refine ⟨fun h => h.2, fun h => ⟨?_, h⟩⟩
  intro e he
  exact (unwrap_refused hvk hpledged he).documented

/-- A call that reaches AES-GCM with a frame raises documented exceptions only exactly if the
    frame is sound. -/
theorem reaches_documented (hgcm : B.AesNonces) (hzlib : B.ZlibFails) {corpse : Bytes} {a : ReviveOptions} {w : World}
    {self : Necromancer} {key : Key} {f : Frame} (hvk : ∀ vk, a.verifyKey = some vk → B.EcPublicKey vk)
    (hr : Reaches corpse a w self key f.nonce f.ciphertext f.flags) :
    (∀ e, (revive B corpse a w self).result = .error e → Documented e) ↔ Sound B key f a w.now := by
  have hpledged := (preCheck_ok_iff.mp hr.allowed).2
  have hnonce := hgcm key f.nonce f.ciphertext a.hwid
  rw [revive_reaches_result hr]
  by_cases hn : 8 ≤ f.nonce.length ∧ f.nonce.length ≤ 128
  · rw [if_pos hn] at hnonce
    cases hg : B.gcmDecrypt key f.nonce f.ciphertext a.hwid with
    | error e =>
      obtain rfl := hnonce e hg
      refine ⟨fun _ => ⟨hn, ?_⟩, fun _ => ?_⟩
      · intro p z hp
        rw [hg] at hp
        cases hp
      · intro e he
        cases he
        exact tamperError_documented self a.hwid
    | ok p =>
      dsimp only
      rw [contents_documented hzlib hvk hpledged]
      refine ⟨fun h => ⟨hn, ?_⟩, fun h z => h.pickled p z hg⟩
      intro q z hq
      obtain rfl := Except.ok.inj (hg.symm.trans hq)
      exact h z
  · rw [if_neg hn] at hnonce
    obtain ⟨message, hg⟩ := hnonce
    refine ⟨fun hall => ?_, fun h => absurd h.nonce hn⟩
    rw [hg] at hall
    obtain ⟨kind, hk⟩ := hall _ rfl
    cases hk

/-- A call of an instance that has its key reaches AES-GCM, or raises documented exceptions only. -/
theorem reaches_or_documented {self : Necromancer} (hkey : self.destroyed = false → self.key ≠ none) (corpse : Bytes)
    (a : ReviveOptions) (w : World) :
    (∃ key nonce ct flags, Reaches corpse a w self key nonce ct flags) ∨
      ∀ e, (revive B corpse a w self).result = .error e → Documented e := by
  have hx := revive_exit (B := B) corpse a w self
  generalize revive B corpse a w self = out at hx
  cases hx with
  | trapped _ | pill _ _ | dead _ _ _ =>
    right
    intro e he
    cases he
    exact documented_amcrypt _ _
  | refused e' _ _ _ h =>
    right
    intro e he
    cases he
    exact refused_documented h
  | keyless _ _ halive hk => exact absurd hk (hkey halive)
  | tampered key nonce ct flags hr _ => exact .inl ⟨key, nonce, ct, flags, hr⟩
  | broken key nonce ct flags e hr _ _ => exact .inl ⟨key, nonce, ct, flags, hr⟩
  | late key nonce ct flags p e hr _ _ => exact .inl ⟨key, nonce, ct, flags, hr⟩
  | loaded key nonce ct flags p data hr _ _ => exact .inl ⟨key, nonce, ct, flags, hr⟩

/-- In every reachable state: `revive` raises its documented exceptions and no other exactly
    if every envelope that gets past the gates is sound. -/
theorem documented_errors (hgcm : B.AesNonces) (hzlib : B.ZlibFails) (key : Key) (antiDebug : Bool) (maxTamper : Int)
    (ops : List (Op B)) {corpse : Bytes} {a : ReviveOptions} {w : World}
    (hvk : ∀ vk, a.verifyKey = some vk → B.EcPublicKey vk) :
    let self := (history (.fresh key antiDebug maxTamper) ops).1
    (∀ e, (revive B corpse a w self).result = .error e → Documented e) ↔
      ((antiDebug && w.debugging) = false → self.destroyed = false →
        ∀ f : Frame, corpse = f.bytes → Admitted f a → Sound B key f a w.now) := by
  intro self
  have hgate : self.antiDebug = antiDebug := (switch_history key antiDebug maxTamper ops).gate
  have hlive : self.destroyed = false → self.key = some key := history_live
  refine ⟨?_, ?_⟩
  · intro hall hw halive f hcorpse hgiven
    have hframe := unpack_frame_iff.mpr ⟨f, hcorpse, hgiven.named, rfl, rfl, rfl⟩
    have hr : Reaches corpse a w self key f.nonce f.ciphertext f.flags :=
      ⟨by rw [hgate]; exact hw, unpack_not_pill hframe, halive, hframe,
        preCheck_ok_iff.mpr ⟨hgiven.bound, hgiven.pledged⟩, hlive halive⟩
    exact (reaches_documented hgcm hzlib hvk hr).mp hall
  · intro hsound
    have hkey : self.destroyed = false → self.key ≠ none := fun halive => by simp [hlive halive]
    rcases reaches_or_documented (B := B) hkey corpse a w with hx | hdoc
    · obtain ⟨key', nonce, ct, flags, hr⟩ := hx
      obtain rfl : key' = key := Option.some.inj (hr.keyed.symm.trans (hlive hr.alive))
      obtain ⟨f, hcorpse, hnamed, rfl, rfl, rfl⟩ := unpack_frame_iff.mp hr.frame
      obtain ⟨hbound, hpledged⟩ := preCheck_ok_iff.mp hr.allowed
      exact (reaches_documented hgcm hzlib hvk hr).mpr
        (hsound (hgate ▸ hr.unwatched) hr.alive f hcorpse ⟨hnamed, hbound, hpledged⟩)
    · exact hdoc

section
open Reference

def plainFrame : Frame where
  magic := ⟨magic, rfl⟩
  flags := 0
  nonce := runDraws.nonce.val
  ciphertext := gcmEncrypt runKey runDraws.nonce.val carrierPlaintext none
  nonceFits := by decide
  tagged := by decide +kernel

theorem documented_errors_run : Sound reference runKey plainFrame {} 0 := by
  have hok : (revive reference plainEnvelope {} ⟨false, 0⟩ live).result = .ok carrier := by decide +kernel
  have hiff : (∀ e, (revive reference plainEnvelope {} ⟨false, 0⟩ live).result = .error e → Documented e) ↔ _ :=
    documented_errors aesNonces zlibFails runKey true 3 [] fun _ h => nomatch h
  refine hiff.mp ?_ rfl rfl plainFrame rfl ⟨.inr rfl, fun h => ?_, fun h => ?_⟩
  · intro e he
    rw [hok] at he
    cases he
  · exact absurd h (by decide)
  · exact absurd h (by decide)

/-- An envelope with an empty nonce, and a killed envelope with the TTL bit set. -/
def noNonce : Bytes := header magic version 0 0 ++ List.replicate 16 0

def timedEnvelope : Bytes := header magic version flagTtl 12 ++ plainEnvelope.drop headerSize

/-- AES-GCM refuses the nonce, and zlib the eight bytes short: neither exception is caught. -/
theorem undocumented_run :
    (revive reference noNonce {} ⟨false, 0⟩ live).result =
        .error (.valueError "Nonce must be between 8 and 128 bytes") ∧
      (kill reference carrier {} runDraws 0 live).result = .ok plainEnvelope ∧
      (revive reference timedEnvelope {} ⟨false, 0⟩ live).result = .error .zlibError ∧
      ¬ Documented (.valueError "Nonce must be between 8 and 128 bytes") ∧ ¬ Documented .zlibError := by
  refine ⟨by decide +kernel, plain_killed, by decide +kernel, ?_, ?_⟩
  all_goals
    intro h
    obtain ⟨kind, hk⟩ := h
    cases hk

end

end Amcrypt.Core
