/-
  Amcrypt.Doppelganger.Trial — the trial decryption on blocks of any length.

  `revive` cuts its blocks at a split that nothing checks, so a block can be empty or too
  short for a nonce. AES-GCM raises `ValueError` there, and the loop catches `InvalidTag`
  alone. `Tryable` is what keeps it from happening: the blocks that are tried have eight
  bytes. `dual_documented_errors` says when `revive` raises only the library's exceptions, and
  `trials_agree` when its loop finds what `dual_decrypt_single` finds, which catches
  whatever AES-GCM raises.
-/

import Amcrypt.Core.Errors
import Amcrypt.Doppelganger.Selection

namespace Amcrypt.Doppelganger

open Lib Amcrypt.Core

variable {B : Backend}

/-! ## The envelope -/

/-- A dual-key envelope, and the two blocks its split field cuts it into. -/
def Splits (corpse : Bytes) (stealth : Bool) (flags : UInt8) (decoyBlock realBlock : Bytes) : Prop :=
  ∃ (m : Bytes) (len : Nat) (rest : Bytes), m.length = 4 ∧ len < 65536 ∧
    corpse = header m version flags len ++ rest ∧ (stealth = true ∨ m = magic) ∧ has flags flagDual = true ∧
    decoyBlock = rest.take len ∧ realBlock = rest.drop len

/-- An exception that `revive` documents, or raises for a malformed header. -/
def Documented (e : PyErr) : Prop :=
  ∃ kind ∈ [AmcryptError.corpseDelivery, .wrongRealm, .mutilatedCorpse, .rottenCorpse], e.isA kind = true

theorem readBlocks_short {corpse : Bytes} (h : corpse.length < headerSize) (hwid : Option Bytes) (stealth : Bool) :
    readBlocks corpse hwid stealth = .error .structError := by
  simp only [readBlocks, unpackHeader, if_pos h]
  rfl

theorem readBlocks_ok_iff {corpse : Bytes} {hwid : Option Bytes} {stealth : Bool} {flags : UInt8}
    {decoyBlock realBlock : Bytes} :
    readBlocks corpse hwid stealth = .ok (flags, decoyBlock, realBlock) ↔
      Splits corpse stealth flags decoyBlock realBlock ∧ (has flags flagHwid = true → hwid.isSome = true) := by
  refine ⟨?_, ?_⟩
  · intro h
    by_cases hsize : corpse.length < headerSize
    · rw [readBlocks_short hsize] at h
      cases h
    obtain ⟨m, v, f, len, rest, hm, hl, rfl⟩ := header_split (Nat.le_of_not_lt hsize)
    rw [readBlocks_cases hm v f hl] at h
    split at h
    · cases h
    rename_i hmagic
    split at h
    · cases h
    rename_i hv
    split at h
    · cases h
    rename_i hdual
    split at h
    · cases h
    rename_i hhwid
    obtain ⟨rfl, rfl, rfl⟩ := by simpa using h
    obtain rfl : v = version := by simpa using hv
    refine ⟨⟨m, len, rest, hm, hl, rfl, ?_, by simpa using hdual, rfl, rfl⟩, ?_⟩
    · cases stealth <;> simp_all
    · cases hwid <;> simp_all
  · intro hx
    obtain ⟨⟨m, len, rest, hm, hl, rfl, hmagic, hdual, rfl, rfl⟩, hhwid⟩ := hx
    exact readBlocks_header hm flags hl rest hmagic hdual hhwid

theorem readBlocks_documented {corpse : Bytes} (h : headerSize ≤ corpse.length) {hwid : Option Bytes} {stealth : Bool}
    {e : PyErr} (he : readBlocks corpse hwid stealth = .error e) : Documented e := by
  obtain ⟨m, v, f, len, rest, hm, hl, rfl⟩ := header_split h
  rw [readBlocks_cases hm v f hl] at he
  split at he
  · cases he; exact ⟨.corpseDelivery, by simp, rfl⟩
  split at he
  · cases he; exact ⟨.corpseDelivery, by simp, rfl⟩
  split at he
  · cases he; exact ⟨.corpseDelivery, by simp, rfl⟩
  split at he
  · cases he; exact ⟨.wrongRealm, by simp, rfl⟩
  · cases he

/-! ## One block -/

/-- AES-GCM on a block: twelve bytes of nonce, if it has them, and the rest. -/
def openBlock (B : Backend) (key : Key) (hwid : Option Bytes) (block : Bytes) : Except PyErr Bytes :=
  B.gcmDecrypt key (block.take nonceLength) (block.drop nonceLength) hwid

/-- With eight bytes or more a block opens or its tag fails; with fewer AES-GCM refuses the nonce. -/
theorem openBlock_verdict (hgcm : B.AesNonces) (key : Key) (hwid : Option Bytes) (block : Bytes) :
    if 8 ≤ block.length then ∀ e, openBlock B key hwid block = .error e → e = .invalidTag
    else ∃ message, openBlock B key hwid block = .error (.valueError message) := by
  have h := hgcm key (block.take nonceLength) (block.drop nonceLength) hwid
  have hlen : (block.take nonceLength).length = min 12 block.length := List.length_take
  by_cases h8 : 8 ≤ block.length
  · rw [if_pos h8]
    rwa [if_pos (by omega)] at h
  · rw [if_neg h8]
    rwa [if_neg (by omega)] at h

/-- The blocks that the loop comes to have the eight bytes that AES-GCM needs of a nonce. -/
def Tryable (B : Backend) (key : Key) (hwid : Option Bytes) (decoyBlock realBlock : Bytes) : Prop :=
  8 ≤ decoyBlock.length ∧ ((∀ p, openBlock B key hwid decoyBlock ≠ .ok p) → 8 ≤ realBlock.length)

/-- `p` is in the first of the two blocks that opens. -/
def Found (B : Backend) (key : Key) (hwid : Option Bytes) (decoyBlock realBlock p : Bytes) : Prop :=
  openBlock B key hwid decoyBlock = .ok p ∨
    ((∀ q, openBlock B key hwid decoyBlock ≠ .ok q) ∧ openBlock B key hwid realBlock = .ok p)

theorem Found.unique {key : Key} {hwid : Option Bytes} {decoyBlock realBlock p q : Bytes}
    (hp : Found B key hwid decoyBlock realBlock p) (hq : Found B key hwid decoyBlock realBlock q) : p = q := by
  rcases hp with hp | ⟨hno, hp⟩
  · rcases hq with hq | ⟨hno, -⟩
    · exact Except.ok.inj (hp.symm.trans hq)
    · exact absurd hp (hno p)
  · rcases hq with hq | ⟨-, hq⟩
    · exact absurd hq (hno q)
    · exact Except.ok.inj (hp.symm.trans hq)

/-- What the loop ends with: a plaintext, nothing, or the `ValueError` of a block too short. -/
inductive Verdict (B : Backend) (key : Key) (hwid : Option Bytes) (decoyBlock realBlock : Bytes) :
    Except PyErr (Option Bytes) → Prop
  | found (p : Bytes) : Tryable B key hwid decoyBlock realBlock → Found B key hwid decoyBlock realBlock p →
      Verdict B key hwid decoyBlock realBlock (.ok (some p))
  | nothing : Tryable B key hwid decoyBlock realBlock → (∀ p, ¬ Found B key hwid decoyBlock realBlock p) →
      Verdict B key hwid decoyBlock realBlock (.ok none)
  | refused (message : String) : ¬ Tryable B key hwid decoyBlock realBlock →
      Verdict B key hwid decoyBlock realBlock (.error (.valueError message))

theorem trial_verdict (hgcm : B.AesNonces) (key : Key) (hwid : Option Bytes) (decoyBlock realBlock : Bytes) :
    Verdict B key hwid decoyBlock realBlock (trial B key hwid (candidates decoyBlock realBlock) ()).result := by
  have hdecoy := openBlock_verdict hgcm key hwid decoyBlock
  have hreal := openBlock_verdict hgcm key hwid realBlock
  split at hdecoy
  · rename_i hd
    cases hopen : openBlock B key hwid decoyBlock with
    | ok p =>
      rw [candidates, trial_opens hopen]
      exact .found p ⟨hd, fun hno => absurd hopen (hno p)⟩ (.inl hopen)
    | error e =>
      obtain rfl := hdecoy e hopen
      have hno : ∀ q, openBlock B key hwid decoyBlock ≠ .ok q := by
        intro q hq
        rw [hopen] at hq
        cases hq
      rw [candidates, trial_skips hopen]
      split at hreal
      · rename_i hr
        cases hopen' : openBlock B key hwid realBlock with
        | ok p =>
          rw [trial_opens hopen']
          exact .found p ⟨hd, fun _ => hr⟩ (.inr ⟨hno, hopen'⟩)
        | error e =>
          obtain rfl := hreal e hopen'
          rw [trial_skips hopen']
          refine .nothing ⟨hd, fun _ => hr⟩ ?_
          intro p hp
          rcases hp with hp | ⟨-, hp⟩
          · exact hno p hp
          · rw [hopen'] at hp
            cases hp
      · rename_i hr
        obtain ⟨message, hopen'⟩ := hreal
        rw [trial_raises hopen' (by simp)]
        exact .refused message fun htry => hr (htry.2 hno)
  · rename_i hd
    obtain ⟨message, hopen⟩ := hdecoy
    rw [candidates, trial_raises hopen (by simp)]
    exact .refused message fun htry => hd htry.1

/-! ## What escapes `revive` -/

theorem revive_trial {corpse : Bytes} {key : Key} {hwid : Option Bytes} {stealth : Bool} {flags : UInt8}
    {decoyBlock realBlock : Bytes} (h : readBlocks corpse hwid stealth = .ok (flags, decoyBlock, realBlock)) (now : ℚ) :
    (revive B corpse key.val hwid stealth now ()).result =
      (trial B key hwid (candidates decoyBlock realBlock) ()).result >>= reading B flags now := by
  cases ht : trial B key hwid (candidates decoyBlock realBlock) () with
  | mk r s cs =>
    cases r with
    | error e => rw [revive_raises h ht]; rfl
    | ok found =>
      cases found with
      | none => rw [revive_none h ht]; rfl
      | some p =>
        rw [revive_found h ht, ok_bind, reading]
        cases contents B flags now p with
        | error e => rfl
        | ok data => rfl

/-- What comes out of the plaintext's TTL layer decompresses and unpickles. -/
def Sound (B : Backend) (flags : UInt8) (now : ℚ) (p : Bytes) : Prop :=
  ∀ ttl z, p = ttl ++ z → Part (has flags flagTtl) (TtlPart now) ttl →
    ∃ b, B.decompress z = .ok b ∧ ∀ e, B.loads b = .error e → Documented e

theorem not_documented_zlib : ¬ Documented .zlibError := by
  intro h
  obtain ⟨kind, -, hk⟩ := h
  cases hk

theorem reading_documented (hzlib : B.ZlibFails) {flags : UInt8} {now : ℚ} {p : Bytes} :
    (∀ e, reading B flags now (some p) = .error e → Documented e) ↔ Sound B flags now p := by
  have hstage : ∀ z, stage flags flagTtl (stripTtl now) p = .ok z ↔
      ∃ ttl, p = ttl ++ z ∧ Part (has flags flagTtl) (TtlPart now) ttl := by
    have hstrip : ∀ p q, stripTtl now p = .ok q ↔ ∃ s, p = s ++ q ∧ (fun _ => TtlPart now) q s :=
      fun _ _ => stripTtl_ok_iff
    exact fun z => stage_ok_iff hstrip
  have hrefused : ∀ e, stage flags flagTtl (stripTtl now) p = .error e → Documented e := by
    intro e he
    unfold stage at he
    split at he
    · rcases stripTtl_refused he with hk | hk
      · exact ⟨.mutilatedCorpse, by simp, hk⟩
      · exact ⟨.rottenCorpse, by simp, hk⟩
    · cases he
  rw [reading, contents, bind_assoc, bind_errors]
  simp only [hstage, inflated_iff hzlib not_documented_zlib]
  refine ⟨?_, ?_⟩
  · intro h ttl z hp hpart
    exact h.2 z ⟨ttl, hp, hpart⟩
  · intro hsound
    refine ⟨hrefused, ?_⟩
    intro z hz
    obtain ⟨ttl, hp, hpart⟩ := hz
    exact hsound ttl z hp hpart

/-- Once the blocks are read, what can escape is a block's `ValueError`, or an exception of
    what the plaintext holds. -/
theorem blocks_documented (hgcm : B.AesNonces) (hzlib : B.ZlibFails) {key : Key} {corpse : Bytes}
    {hwid : Option Bytes} {stealth : Bool} {flags : UInt8} {decoyBlock realBlock : Bytes}
    (h : readBlocks corpse hwid stealth = .ok (flags, decoyBlock, realBlock)) (now : ℚ) :
    (∀ e, (revive B corpse key.val hwid stealth now ()).result = .error e → Documented e) ↔
      Tryable B key hwid decoyBlock realBlock ∧
        ∀ p, Found B key hwid decoyBlock realBlock p → Sound B flags now p := by
  rw [revive_trial h]
  have hv := trial_verdict hgcm key hwid decoyBlock realBlock
  generalize (trial B key hwid (candidates decoyBlock realBlock) ()).result = r at hv
  cases hv with
  | found p htry hp =>
    rw [ok_bind, reading_documented hzlib]
    refine ⟨fun hsound => ⟨htry, ?_⟩, fun hx => hx.2 p hp⟩
    intro q hq
    obtain rfl := hp.unique hq
    exact hsound
  | nothing htry hno =>
    refine ⟨fun _ => ⟨htry, fun p hp => absurd hp (hno p)⟩, fun _ => ?_⟩
    intro e he
    cases he
    exact ⟨.wrongRealm, by simp, rfl⟩
  | refused message hno =>
    refine ⟨fun hall => ?_, fun hx => absurd hx.1 hno⟩
    obtain ⟨kind, -, hk⟩ := hall _ rfl
    cases hk

theorem revive_unread {corpse : Bytes} {key : Key} {hwid : Option Bytes} {stealth : Bool} {e : PyErr}
    (h : readBlocks corpse hwid stealth = .error e) (now : ℚ) :
    (revive B corpse key.val hwid stealth now ()).result = .error e := by
  simp [revive, checkKey_key, h]

/-- `revive` raises its documented exceptions and no other exactly if the corpse has a
    header and, where it is a dual-key envelope, blocks that can be tried and sound
    contents in the one that opens. -/
theorem dual_documented_errors (hgcm : B.AesNonces) (hzlib : B.ZlibFails) (key : Key) (corpse : Bytes)
    (hwid : Option Bytes) (stealth : Bool) (now : ℚ) :
    (∀ e, (revive B corpse key.val hwid stealth now ()).result = .error e → Documented e) ↔
      8 ≤ corpse.length ∧ ∀ flags decoyBlock realBlock, Splits corpse stealth flags decoyBlock realBlock →
        (has flags flagHwid = true → hwid.isSome = true) →
        Tryable B key hwid decoyBlock realBlock ∧
          ∀ p, Found B key hwid decoyBlock realBlock p → Sound B flags now p := by
  refine ⟨?_, ?_⟩
  · intro hall
    refine ⟨?_, ?_⟩
    · by_contra hshort
      have hread := readBlocks_short (Nat.lt_of_not_le hshort) hwid stealth
      obtain ⟨kind, -, hk⟩ := hall _ (revive_unread hread now)
      cases hk
    · intro flags decoyBlock realBlock hsplit hhwid
      exact (blocks_documented hgcm hzlib (readBlocks_ok_iff.mpr ⟨hsplit, hhwid⟩) now).mp hall
  · intro hx
    obtain ⟨hsize, hsplits⟩ := hx
    cases hread : readBlocks corpse hwid stealth with
    | error e' =>
      intro e he
      rw [revive_unread hread] at he
      cases he
      exact readBlocks_documented hsize hread
    | ok blocks =>
      obtain ⟨flags, decoyBlock, realBlock⟩ := blocks
      obtain ⟨hsplit, hhwid⟩ := readBlocks_ok_iff.mp hread
      exact (blocks_documented hgcm hzlib hread now).mpr (hsplits flags decoyBlock realBlock hsplit hhwid)

/-! ## The two decryptors -/

/-- The loop of `revive` on its blocks, and the refusal behind it. -/
def select (B : Backend) (key : Key) (hwid : Option Bytes) (decoyBlock realBlock : Bytes) : Py Unit Bytes := do
  let found ← trial B key hwid (candidates decoyBlock realBlock)
  match found with
  | none => Method.raise noMatch
  | some plaintext => pure plaintext

/-- `revive` is its selection, and then the plaintext selected. -/
theorem revive_select {corpse : Bytes} {key : Key} {hwid : Option Bytes} {stealth : Bool} {flags : UInt8}
    {decoyBlock realBlock : Bytes} (h : readBlocks corpse hwid stealth = .ok (flags, decoyBlock, realBlock)) (now : ℚ) :
    revive B corpse key.val hwid stealth now () =
      (select B key hwid decoyBlock realBlock ()).andThen fun p => unearth B flags now (some p) := by
  rw [revive_eq h, select, Method.bind_apply]
  cases trial B key hwid (candidates decoyBlock realBlock) () with
  | mk r s cs =>
    cases r with
    | error e => rfl
    | ok found =>
      cases found with
      | none => rfl
      | some p => simp

/-- `dual_decrypt_single` on the nonces and ciphertexts of the two blocks. -/
def dualDecryptBlocks (B : Backend) (key : Key) (decoyBlock realBlock : Bytes) (matchReal : Bool) : Option Bytes :=
  dualDecryptSingle B key (realBlock.take nonceLength) (realBlock.drop nonceLength) (decoyBlock.take nonceLength)
    (decoyBlock.drop nonceLength) matchReal

/-- Loop and function give one answer on these blocks, and the function the same in either
    order if at most one of them opens. -/
structure Agree (B : Backend) (key : Key) (decoyBlock realBlock : Bytes) : Prop where
  selects : ∀ p, (select B key none decoyBlock realBlock ()).result = .ok p ↔
    dualDecryptBlocks B key decoyBlock realBlock false = some p
  refuses : (∃ e, (select B key none decoyBlock realBlock ()).result = .error e ∧ e.isA .wrongRealm = true) ↔
    dualDecryptBlocks B key decoyBlock realBlock false = none
  ordered : ¬ ((∃ p, openBlock B key none decoyBlock = .ok p) ∧ ∃ q, openBlock B key none realBlock = .ok q) →
    dualDecryptBlocks B key decoyBlock realBlock true = dualDecryptBlocks B key decoyBlock realBlock false

/-- `dual_decrypt_single`, by what becomes of each block. -/
theorem dualDecryptBlocks_eq (key : Key) (decoyBlock realBlock : Bytes) (matchReal : Bool) :
    dualDecryptBlocks B key decoyBlock realBlock matchReal =
      let real := (openBlock B key none realBlock).toOption
      let decoy := (openBlock B key none decoyBlock).toOption
      if matchReal then real <|> decoy else decoy <|> real := by
  have hstep : ∀ block blocks, firstDecrypted B key ((block.take nonceLength, block.drop nonceLength) :: blocks) =
      ((openBlock B key none block).toOption <|> firstDecrypted B key blocks) := by
    intro block blocks
    rw [firstDecrypted, openBlock]
    cases B.gcmDecrypt key (block.take nonceLength) (block.drop nonceLength) none <;> rfl
  have hnil : firstDecrypted B key [] = none := rfl
  unfold dualDecryptBlocks dualDecryptSingle
  cases matchReal with
  | true => simp [hstep, hnil]
  | false => simp [hstep, hnil]

theorem dualDecryptBlocks_some {key : Key} {decoyBlock realBlock p : Bytes} :
    dualDecryptBlocks B key decoyBlock realBlock false = some p ↔ Found B key none decoyBlock realBlock p := by
  rw [dualDecryptBlocks_eq]
  unfold Found
  cases openBlock B key none decoyBlock with
  | ok q => simp [Except.toOption]
  | error e => cases openBlock B key none realBlock <;> simp [Except.toOption]

theorem dualDecryptBlocks_order {key : Key} {decoyBlock realBlock : Bytes}
    (h : ¬ ((∃ p, openBlock B key none decoyBlock = .ok p) ∧ ∃ q, openBlock B key none realBlock = .ok q)) :
    dualDecryptBlocks B key decoyBlock realBlock true = dualDecryptBlocks B key decoyBlock realBlock false := by
  rw [dualDecryptBlocks_eq, dualDecryptBlocks_eq]
  cases hd : openBlock B key none decoyBlock with
  | error e => simp [Except.toOption]
  | ok p =>
    cases hr : openBlock B key none realBlock with
    | error e => simp [Except.toOption]
    | ok q => exact absurd ⟨⟨p, hd⟩, q, hr⟩ h

theorem select_result (key : Key) (hwid : Option Bytes) (decoyBlock realBlock : Bytes) :
    (select B key hwid decoyBlock realBlock ()).result =
      (trial B key hwid (candidates decoyBlock realBlock) ()).result >>= fun found =>
        match found with
        | none => .error noMatch
        | some p => .ok p := by
  rw [select, Method.bind_apply]
  cases trial B key hwid (candidates decoyBlock realBlock) () with
  | mk r s cs =>
    cases r with
    | error e => rfl
    | ok found => cases found <;> rfl

/-- The loop agrees with `dual_decrypt_single` exactly on blocks that can be tried. -/
theorem agree_iff (hgcm : B.AesNonces) (key : Key) (decoyBlock realBlock : Bytes) :
    Agree B key decoyBlock realBlock ↔ Tryable B key none decoyBlock realBlock := by
  have hv := trial_verdict hgcm key none decoyBlock realBlock
  have hselect := select_result (B := B) key none decoyBlock realBlock
  generalize (trial B key none (candidates decoyBlock realBlock) ()).result = r at hv hselect
  cases hv with
  | found p htry hp =>
    have hdual := dualDecryptBlocks_some.mpr hp
    refine ⟨fun _ => htry, fun _ => ⟨?_, ?_, dualDecryptBlocks_order⟩⟩
    · intro q
      rw [hselect, hdual]
      simp
    · rw [hselect, hdual]
      simp
  | nothing htry hno =>
    have hdual : dualDecryptBlocks B key decoyBlock realBlock false = none := by
      cases hq : dualDecryptBlocks B key decoyBlock realBlock false with
      | none => rfl
      | some q => exact absurd (dualDecryptBlocks_some.mp hq) (hno q)
    refine ⟨fun _ => htry, fun _ => ⟨?_, ?_, dualDecryptBlocks_order⟩⟩
    · intro q
      rw [hselect, hdual]
      simp
    · rw [hselect, hdual]
      exact ⟨fun _ => rfl, fun _ => ⟨noMatch, rfl, rfl⟩⟩
  | refused message hno =>
    refine ⟨fun h => ?_, fun htry => absurd htry hno⟩
    cases hq : dualDecryptBlocks B key decoyBlock realBlock false with
    | some q =>
      have := (h.selects q).mpr hq
      rw [hselect] at this
      cases this
    | none =>
      obtain ⟨e, he, hkind⟩ := h.refuses.mpr hq
      rw [hselect] at he
      cases he
      cases hkind

/-- On every dual-key envelope: `revive` without a hardware id, if the flags ask for none,
    goes on with what its loop selects, and the loop agrees with `dual_decrypt_single`
    exactly if the blocks can be tried. -/
theorem trials_agree (hgcm : B.AesNonces) (key : Key) {corpse : Bytes} {stealth : Bool} {flags : UInt8}
    {decoyBlock realBlock : Bytes} (h : Splits corpse stealth flags decoyBlock realBlock) :
    (has flags flagHwid = false → ∀ now, revive B corpse key.val none stealth now () =
      (select B key none decoyBlock realBlock ()).andThen fun p => unearth B flags now (some p)) ∧
    (Agree B key decoyBlock realBlock ↔ Tryable B key none decoyBlock realBlock) := by
  refine ⟨?_, agree_iff hgcm key decoyBlock realBlock⟩
  intro hfree now
  refine revive_select (readBlocks_ok_iff.mpr ⟨h, ?_⟩) now
  intro hbound
  rw [hfree] at hbound
  cases hbound

/-! ## Runs -/

section
open Reference

/-- Two blocks of an empty plaintext, the first under another key. -/
def decoyRun : Bytes := runNonce.val ++ gcmEncrypt otherKey runNonce.val [] none

def realRun : Bytes := runNonce.val ++ gcmEncrypt runKey runNonce.val [] none

def dualEnvelope : Bytes := header magic version flagDual 28 ++ (decoyRun ++ realRun)

/-- The same real block, behind a decoy block of four bytes. -/
def shortEnvelope : Bytes := header magic version flagDual 4 ++ ([0, 0, 0, 0] ++ realRun)

theorem trials_agree_run : Agree reference runKey decoyRun realRun := by
  have hsplit : Splits dualEnvelope false flagDual decoyRun realRun :=
    ⟨magic, 28, _, rfl, by omega, rfl, .inr rfl, by decide, by decide, by decide⟩
  exact (trials_agree aesNonces runKey hsplit).2.mpr ⟨by decide, fun _ => by decide⟩

/-- The loop stops at the short block, and the function opens the other. -/
theorem short_decoy_run :
    Splits shortEnvelope false flagDual [0, 0, 0, 0] realRun ∧
      (select reference runKey none [0, 0, 0, 0] realRun ()).result =
        .error (.valueError "Nonce must be between 8 and 128 bytes") ∧
      dualDecryptBlocks reference runKey [0, 0, 0, 0] realRun false = some [] := by
  refine ⟨⟨magic, 4, _, rfl, by omega, rfl, .inr rfl, by decide, by decide, by decide⟩, ?_, ?_⟩
  · decide +kernel
  · decide +kernel

theorem dual_documented_errors_run :
    ∃ E, (kill reference [1] [2] runKey.val otherKey.val {} runNonce runNonce 1000 ()).result = .ok E ∧
      ∀ flags decoyBlock realBlock, Splits E false flags decoyBlock realBlock →
        (has flags flagHwid = true → (none : Option Bytes).isSome = true) →
        Tryable reference runKey none decoyBlock realBlock ∧
          ∀ p, Found reference runKey none decoyBlock realBlock p → Sound reference flags 1000 p := by
  obtain ⟨E, hE, hback⟩ : ∃ E,
      (kill reference [1] [2] runKey.val otherKey.val {} runNonce runNonce 1000 ()).result = .ok E ∧
        (revive reference E runKey.val none false 1000 ()).result = .ok [1] := ⟨_, rfl, by decide +kernel⟩
  refine ⟨E, hE, ((dual_documented_errors aesNonces zlibFails runKey E none false 1000).mp ?_).2⟩
  intro e he
  rw [hback] at he
  cases he

/-- No header, a block too short for a nonce, and a killed envelope with the TTL bit set. -/
theorem dual_undocumented_run :
    (revive reference [] runKey.val none false 0 ()).result = .error .structError ∧
      (revive reference shortEnvelope runKey.val none false 0 ()).result =
        .error (.valueError "Nonce must be between 8 and 128 bytes") ∧
      (∃ E, (kill reference [1] [2] runKey.val otherKey.val {} runNonce runNonce 1000 ()).result = .ok E ∧
        (revive reference (E.set 5 (flagDual ||| flagTtl)) runKey.val none false 1000 ()).result =
          .error .zlibError) ∧
      ¬ Documented .structError ∧ ¬ Documented (.valueError "Nonce must be between 8 and 128 bytes") ∧
      ¬ Documented .zlibError := by
  refine ⟨by decide +kernel, by decide +kernel, ⟨_, rfl, by decide +kernel⟩, ?_, ?_, ?_⟩
  all_goals
    intro h
    obtain ⟨kind, -, hk⟩ := h
    cases hk

end

end Amcrypt.Doppelganger
