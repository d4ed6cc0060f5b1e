/-
  Amcrypt.Memory.Doppelganger — the `DoppelgangerNecromancer` (`doppelganger.py`) with its
  buffers.

  The object holds nothing, and takes its keys with each call. What `kill` and `revive` wipe
  are copies of `bytes` objects; they wipe after the pickle is loaded, so that here nothing
  is dropped when loading raises. The slices of an envelope are ciphertext and left out.

  `relates_kill` and `relates_revive`: these bodies do what those of `Amcrypt.Doppelganger`
  do, keeping `Holds`.
-/

import Amcrypt.Doppelganger
import Amcrypt.Memory.Necromancer

namespace Amcrypt.Memory.Doppelganger

open Lib Amcrypt.Doppelganger

variable (B : Backend)

def kill (realObj decoyObj : B.Obj) (realKey decoyKey : Bytes) (o : KillOptions) (nonceD nonceR : Nonce) (now : ℚ) :
    Py (Mem Unit) Bytes := do
  let realKey ← Method.ofExcept (checkKey "real_key" realKey)
  let decoyKey ← Method.ofExcept (checkKey "decoy_key" decoyKey)
  let realPickled ← dumps B realObj
  let decoyPickled ← dumps B decoyObj
  let realCompressed := B.compress realPickled.2
  let realCompressedAt ← newBytes realCompressed
  let decoyCompressed := B.compress decoyPickled.2
  let decoyCompressedAt ← newBytes decoyCompressed
  let ttlRaw ← Method.ofExcept (ttlPrefix now o.ttlSeconds)
  let realPlaintext ← derived (realCompressedAt, realCompressed) o.ttlSeconds.isNone (ttlRaw ++ realCompressed)
  let decoyPlaintext ← derived (decoyCompressedAt, decoyCompressed) o.ttlSeconds.isNone (ttlRaw ++ decoyCompressed)
  let (nonceD, ctD) ← aesEncrypt B decoyKey decoyPlaintext.2 o.hwid nonceD
  let (nonceR, ctR) ← aesEncrypt B realKey realPlaintext.2 o.hwid nonceR
  wipeCopy realPickled.1
  wipeCopy decoyPickled.1
  wipeCopy realCompressedAt
  wipeCopy decoyCompressedAt
  Method.ofExcept (pack B nonceD.val ctD nonceR.val ctR (flagsOf o) o.stealth decoyKey)

def trial (key : Key) (hwid : Option Bytes) : List (Bytes × Bytes) → Py (Mem Unit) (Option (Addr × Bytes))
  | [] => pure none
  | (nonce, ct) :: blocks => do
    let verdict ← Method.attempt (aesDecrypt B key nonce ct hwid)
    match verdict with
    | .ok plaintext => pure (some plaintext)
    | .error .invalidTag => trial key hwid blocks
    | .error e => Method.raise e

def revive (corpse key : Bytes) (hwid : Option Bytes) (stealth : Bool) (now : ℚ) : Py (Mem Unit) B.Obj := do
  let key ← Method.ofExcept (checkKey "key" key)
  let (flags, decoyBlock, realBlock) ← Method.ofExcept (readBlocks corpse hwid stealth)
  let found ← trial B key hwid [(decoyBlock.take nonceLength, decoyBlock.drop nonceLength),
    (realBlock.take nonceLength, realBlock.drop nonceLength)]
  match found with
  | none => Method.raise noMatch
  | some plaintext => do
    let payload ← Method.ofExcept (Core.stage flags Core.flagTtl (Core.stripTtl now) plaintext.2)
    let payload ← derived plaintext (!Core.has flags Core.flagTtl) payload
    let decompressed ← Method.ofExcept (B.decompress payload.2)
    let decompressedAt ← newBytes decompressed
    let result ← loads B decompressed
    wipeCopy decompressedAt
    wipeCopy payload.1
    pure result

/-! ## The same by value -/

/-- No key and no other field. -/
def layout : Layout Unit Unit := ⟨fun _ _ => True, fun _ => none, fun _ => none, Necromancer.copies⟩

variable {B} {start : Mem Unit} {ks : List (Addr × Bytes)}

/-- A pickle loaded of which there is no copy yet. -/
theorem relates_loads {a : Addr} {d : Bytes} (hk : (a, d) ∈ ks) :
    Method.Relates (Holding B layout start ks) (loads B d) (loads B d)
      (fun obj obj' past m t => obj = obj' ∧ Holding B layout start ks past m t) (Holds B layout start) := by
  refine .bind (relates_record ?_) fun _ _ => ?_
  · intro d' hd
    obtain rfl := List.mem_singleton.mp hd
    exact ⟨a, hk⟩
  · exact .mono (.ofExcept _ fun _ _ _ h => h.toHolds) (fun _ _ _ h => h) fun _ _ _ _ _ h => ⟨h.1.1, h.2⟩

/-- The plaintext that was found lies in memory. -/
theorem relates_trial (key : Key) (hwid : Option Bytes) (blocks : List (Bytes × Bytes)) :
    Method.Relates (Holding B layout start ks) (trial B key hwid blocks) (Amcrypt.Doppelganger.trial B key hwid blocks)
      (fun x y past m t => x.map Prod.snd = y ∧ Holding B layout start (x.toList ++ ks) past m t)
      (Holds B layout start) := by
  induction blocks with
  | nil => exact .pure fun _ _ _ h => ⟨rfl, h⟩
  | cons block blocks ih =>
    obtain ⟨nonce, ct⟩ := block
    refine .bind (.attempt (relates_aesDecrypt ?_)) fun r r' => ?_
    · intro r d hd
      cases r with
      | ok p =>
        obtain rfl := List.mem_singleton.mp hd
        exact .inl rfl
      | error e => cases hd
    match r, r' with
    | .ok x, .ok y => exact .fact fun hxy => .pure fun _ _ _ h => ⟨congrArg some hxy, h⟩
    | .error e, .error e' =>
      refine .fact fun he => ?_
      subst he
      by_cases htag : e = .invalidTag
      · subst htag
        exact ih
      · cases e <;> first | exact absurd rfl htag | exact .raise _ fun _ _ _ h => h.toHolds
    | .ok _, .error _ => exact .absurd fun _ _ _ h => h
    | .error _, .ok _ => exact .absurd fun _ _ _ h => h

/-- Without an expiry, what AES-GCM opened is the payload. -/
theorem stage_bare {flags : UInt8} {now : ℚ} {plaintext payload : Bytes}
    (h : Core.stage flags Core.flagTtl (Core.stripTtl now) plaintext = .ok payload)
    (hbare : (!Core.has flags Core.flagTtl) = true) : payload = plaintext := by
  have hflag : Core.has flags Core.flagTtl = false := (Bool.not_eq_true' _).mp hbare
  rw [Core.stage, hflag] at h
  exact (Except.ok.inj h).symm

theorem relates_revive (corpse key : Bytes) (hwid : Option Bytes) (stealth : Bool) (now : ℚ) :
    Method.Relates (Holding B layout start ks) (revive B corpse key hwid stealth now)
      (Amcrypt.Doppelganger.revive B corpse key hwid stealth now)
      (fun obj obj' past m t => obj = obj' ∧ Holds B layout start past m t) (Holds B layout start) := by
  refine .bind (.ofExcept _ fun _ _ _ h => h.toHolds) fun key key' => .fact fun hkey => ?_
  obtain ⟨rfl, -⟩ := hkey
  refine .bind (.ofExcept _ fun _ _ _ h => h.toHolds) fun blocks blocks' => .fact fun hblocks => ?_
  obtain ⟨rfl, -⟩ := hblocks
  obtain ⟨flags, decoyBlock, realBlock⟩ := blocks
  refine .bind (relates_trial _ _ _) fun found found' => .fact fun hfound => ?_
  subst hfound
  cases found with
  | none => exact .raise _ fun _ _ _ h => h.toHolds
  | some x =>
    refine .bind (.ofExcept _ fun _ _ _ h => h.toHolds) fun payload payload' => .fact fun hpayload => ?_
    obtain ⟨rfl, hp⟩ := hpayload
    refine .left (relates_derived List.mem_cons_self ?_) fun y => .fact fun hy => ?_
    · intro hbare
      exact stage_bare hp hbare
    rw [hy]
    refine .bind (.ofExcept _ fun _ _ _ h => h.toHolds) fun decompressed _ => .fact fun hd => ?_
    obtain ⟨rfl, -⟩ := hd
    refine .left (relates_newBytes decompressed) fun lies => ?_
    refine .tail (relates_loads List.mem_cons_self) fun obj obj' => .fact fun hobj => ?_
    have hy : (y.1, y.2) ∈ (lies, decompressed) :: y :: x :: ks := List.mem_cons_of_mem _ List.mem_cons_self
    exact .left (relates_wipeCopy List.mem_cons_self) fun _ => .left (relates_wipeCopy hy) fun _ =>
      .pure fun _ _ _ h => ⟨hobj, h.toHolds⟩

theorem relates_kill (realObj decoyObj : B.Obj) (realKey decoyKey : Bytes) (o : KillOptions) (nonceD nonceR : Nonce)
    (now : ℚ) :
    Method.Relates (Holding B layout start ks) (kill B realObj decoyObj realKey decoyKey o nonceD nonceR now)
      (Amcrypt.Doppelganger.kill B realObj decoyObj realKey decoyKey o nonceD nonceR now)
      (fun wire wire' past m t => wire = wire' ∧ Holds B layout start past m t) (Holds B layout start) := by
  refine .bind (.ofExcept _ fun _ _ _ h => h.toHolds) fun real real' => .fact fun hreal => ?_
  obtain ⟨rfl, -⟩ := hreal
  refine .bind (.ofExcept _ fun _ _ _ h => h.toHolds) fun decoy decoy' => .fact fun hdecoy => ?_
  obtain ⟨rfl, -⟩ := hdecoy
  refine .bind (relates_dumps (fun _ _ h => h) realObj) fun x _ => .fact fun hx => ?_
  subst hx
  refine .bind (relates_dumps (fun _ _ h => h) decoyObj) fun y _ => .fact fun hy => ?_
  subst hy
  refine .left (relates_newBytes _) fun realAt => .left (relates_newBytes _) fun decoyAt => ?_
  refine .bind (.ofExcept _ fun _ _ _ h => h.toHolds) fun ttlRaw _ => .fact fun httl => ?_
  obtain ⟨rfl, httl⟩ := httl
  have hbare : o.ttlSeconds.isNone = true → ∀ compressed, ttlRaw ++ compressed = compressed := by
    intro hnone compressed
    rw [Option.isNone_iff_eq_none.mp hnone] at httl
    rw [← Except.ok.inj httl, List.nil_append]
  refine .left (relates_derived (by simp) fun hnone => hbare hnone _) fun realText => .fact fun hrealText => ?_
  refine .left (relates_derived (by simp) fun hnone => hbare hnone _) fun decoyText => .fact fun hdecoyText => ?_
  rw [hrealText, hdecoyText]
  refine .bind (relates_aesEncrypt ?_) fun ctD ctD' => .fact fun hctD => ?_
  · intro ct d hd
    obtain rfl := List.mem_singleton.mp hd
    exact ⟨decoyText.1, by rw [← hdecoyText]; exact List.mem_cons_self⟩
  subst hctD
  refine .bind (relates_aesEncrypt ?_) fun ctR ctR' => .fact fun hctR => ?_
  · intro ct d hd
    obtain rfl := List.mem_singleton.mp hd
    exact ⟨realText.1, by rw [← hrealText]; exact List.mem_cons_of_mem _ List.mem_cons_self⟩
  subst hctR
  refine .left (relates_wipeCopy (d := x.2) (by simp)) fun _ => .left (relates_wipeCopy (d := y.2) (by simp)) fun _ => ?_
  refine .left (relates_wipeCopy (d := B.compress x.2) (by simp)) fun _ =>
    .left (relates_wipeCopy (d := B.compress y.2) (by simp)) fun _ => ?_
  refine .mono (.ofExcept _ fun _ _ _ h => h.toHolds) (fun _ _ _ h => h) fun wire wire' past m t h => ?_
  obtain ⟨⟨rfl, -⟩, h⟩ := h
  exact ⟨rfl, h.toHolds⟩

end Amcrypt.Memory.Doppelganger
