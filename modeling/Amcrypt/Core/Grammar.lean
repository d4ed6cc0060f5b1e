/-
  Amcrypt.Core.Grammar — the byte strings that `revive` accepts, and what it makes of them.

  `magic | 4 | flags | nonce length | nonce | ciphertext`, and inside the ciphertext
  `[pad] [expiry] [public key, signature] z`, each part in brackets present exactly if
  its flag is (`Plaintext`). `Carries` puts the two levels together: the envelope, the
  flags' demands on the caller, the decryption, the plaintext's parts and the pickle
  behind them. Each stage of `revive` has its grammar as an iff (`stripPadding_ok_iff`,
  `stripTtl_ok_iff`, `stripPact_ok_iff`), and `unwrap_ok_iff` composes them.

  `revive_grammar`: on a live, unwatched instance `revive` returns exactly the objects
  that a carried pickle loads to, raises on everything else, and calls `pickle.loads` on
  a carried pickle only, as its last call after the decryption.
-/

import Amcrypt.Core.KillSwitch
import Amcrypt.Core.RoundTrip

namespace Amcrypt.Core

open Lib

variable (B : Backend)

/-! ## The grammar -/

/-- A part that is present if `c` says so, and empty otherwise. -/
def Part (c : Bool) (P : Bytes → Prop) (s : Bytes) : Prop := if c then P s else s = []

/-- A length byte, and as many bytes. -/
def PadPart (s : Bytes) : Prop := ∃ (k : UInt8) (pad : Block k.toNat), s = k :: pad.val

/-- An expiry that is not before now. -/
def TtlPart (now : ℚ) (s : Bytes) : Prop :=
  ∃ expiry : Nat, expiry < 2 ^ 64 ∧ now ≤ expiry ∧ s = BigEndian.encode 8 expiry

/-- A public key, and a signature over `z` that the caller's key accepts. -/
def PactPart (verifyKey : Option Bytes) (z s : Bytes) : Prop :=
  ∃ pub sig vk, pub.length < 2 ^ 16 ∧ sig.length < 2 ^ 16 ∧ verifyKey = some vk ∧
    s = BigEndian.encode 2 pub.length ++ pub ++ BigEndian.encode 2 sig.length ++ sig ∧
    ecdsaVerify B vk sig z = .ok true

/-- The plaintext `p` holds the compressed bytes `z` under these flags. -/
def Plaintext (flags : UInt8) (verifyKey : Option Bytes) (now : ℚ) (p z : Bytes) : Prop :=
  ∃ pad ttl pact, p = pad ++ (ttl ++ (pact ++ z)) ∧ Part (has flags flagPadded) PadPart pad ∧
    Part (has flags flagTtl) (TtlPart now) ttl ∧ Part (has flags flagSigned) (PactPart B verifyKey z) pact

/-- What an envelope is made of. -/
structure Frame where
  magic : Block 4
  flags : UInt8
  nonce : Bytes
  ciphertext : Bytes
  nonceFits : nonce.length < 2 ^ 16
  tagged : 16 ≤ ciphertext.length

def Frame.bytes (f : Frame) : Bytes :=
  f.magic.val ++ (version :: f.flags :: BigEndian.encode 2 f.nonce.length) ++ (f.nonce ++ f.ciphertext)

/-- The envelope holds the pickle `b` for this caller under the key, and everything that
    stands before it is in order. -/
structure Carries (key : Key) (corpse : Bytes) (a : ReviveOptions) (now : ℚ) (b : Bytes) (f : Frame) (p z : Bytes) :
    Prop where
  noPill : ¬ poisonPill <+: corpse
  envelope : corpse = f.bytes
  named : a.stealth = true ∨ f.magic.val = magic
  bound : has f.flags flagHwid = true → a.hwid.isSome = true
  pledged : has f.flags flagSigned = true → a.verifyKey.isSome = true
  opened : B.gcmDecrypt key f.nonce f.ciphertext a.hwid = .ok p
  layers : Plaintext B f.flags a.verifyKey now p z
  pickled : B.decompress z = .ok b

variable {B}

/-! ## The stages of `revive` -/

theorem stage_ok_iff {flags flag : UInt8} {strip : Bytes → Except PyErr Bytes} {P : Bytes → Bytes → Prop}
    (h : ∀ p q, strip p = .ok q ↔ ∃ s, p = s ++ q ∧ P q s) {p q : Bytes} :
    stage flags flag strip p = .ok q ↔ ∃ s, p = s ++ q ∧ Part (has flags flag) (P q) s := by
  unfold stage Part
  cases has flags flag with
  | true => simpa using h p q
  | false =>
    simp only [Bool.false_eq_true, if_false]
    refine ⟨?_, ?_⟩
    · intro hp
      exact ⟨[], Except.ok.inj hp, rfl⟩
    · intro hx
      obtain ⟨s, rfl, rfl⟩ := hx
      rfl

theorem stripPadding_ok_iff {p q : Bytes} : stripPadding p = .ok q ↔ ∃ s, p = s ++ q ∧ PadPart s := by
  cases p with
  | nil =>
    refine ⟨?_, ?_⟩
    · intro h
      simp [stripPadding, throw, throwThe, MonadExceptOf.throw] at h
    · intro hx
      obtain ⟨s, hs, k, pad, rfl⟩ := hx
      simp at hs
  | cons k rest =>
    have hrun : stripPadding (k :: rest) = if rest.length < k.toNat then
        .error (mutilatedCorpseError "Padding payload truncated") else .ok (rest.drop k.toNat) := by
      simp only [stripPadding, List.length_cons, index_zero_cons, ok_bind, Nat.add_comm 1, List.drop_succ_cons]
      rw [if_neg (by omega)]
      split <;> split <;> first | rfl | omega
    rw [hrun]
    by_cases hshort : rest.length < k.toNat
    · rw [if_pos hshort]
      refine ⟨?_, ?_⟩
      · intro h
        cases h
      · intro hx
        obtain ⟨s, hs, k', pad, rfl⟩ := hx
        rw [List.cons_append] at hs
        obtain ⟨rfl, rfl⟩ := List.cons.inj hs
        rw [List.length_append, pad.property] at hshort
        omega
    · rw [if_neg hshort]
      refine ⟨?_, ?_⟩
      · intro h
        obtain rfl := Except.ok.inj h
        exact ⟨k :: rest.take k.toNat, by simp, k, ⟨rest.take k.toNat, by rw [List.length_take]; omega⟩, rfl⟩
      · intro hx
        obtain ⟨s, hs, k', pad, rfl⟩ := hx
        rw [List.cons_append] at hs
        obtain ⟨rfl, rfl⟩ := List.cons.inj hs
        rw [List.drop_left' pad.property]

theorem stripTtl_ok_iff {now : ℚ} {p q : Bytes} : stripTtl now p = .ok q ↔ ∃ s, p = s ++ q ∧ TtlPart now s := by
  by_cases hshort : p.length < ttlSize
  · rw [stripTtl, if_pos hshort]
    refine ⟨?_, ?_⟩
    · intro h
      cases h
    · intro hx
      obtain ⟨s, rfl, expiry, -, -, rfl⟩ := hx
      rw [List.length_append, BigEndian.length_encode] at hshort
      unfold ttlSize at hshort
      omega
  · have htake : (p.take ttlSize).length = 8 := by rw [List.length_take]; unfold ttlSize at *; omega
    have hlt := BigEndian.decode_lt (p.take ttlSize)
    have henc := BigEndian.encode_decode (p.take ttlSize)
    rw [htake] at hlt henc
    rw [stripTtl, if_neg hshort, unpackTtl, unpackUInt_ok htake, ok_bind]
    by_cases hexp : ((BigEndian.decode (p.take ttlSize) : Nat) : ℚ) < now
    · rw [if_pos hexp]
      refine ⟨?_, ?_⟩
      · intro h
        cases h
      · intro hx
        obtain ⟨s, rfl, expiry, hfit, hnow, rfl⟩ := hx
        have hread : (BigEndian.encode 8 expiry ++ q).take ttlSize = BigEndian.encode 8 expiry :=
          List.take_left' (BigEndian.length_encode 8 expiry)
        rw [hread, BigEndian.decode_encode hfit] at hexp
        exact absurd hexp (not_lt.mpr hnow)
    · rw [if_neg hexp]
      refine ⟨?_, ?_⟩
      · intro h
        obtain rfl := Except.ok.inj h
        exact ⟨p.take ttlSize, (List.take_append_drop _ _).symm, _, hlt, not_lt.mp hexp, henc.symm⟩
      · intro hx
        obtain ⟨s, rfl, expiry, -, -, rfl⟩ := hx
        have hrest : (BigEndian.encode 8 expiry ++ q).drop ttlSize = q :=
          List.drop_left' (BigEndian.length_encode 8 expiry)
        rw [hrest]
        rfl

theorem pact_ok_iff {verifyKey : Option Bytes} {p z : Bytes} :
    stripPact B verifyKey p = .ok z ↔ ∃ s, p = s ++ z ∧ PactPart B verifyKey z s := by
  rw [stripPact_ok_iff]
  refine ⟨?_, ?_⟩
  · intro h
    obtain ⟨pub, sig, hp, hs, rfl, hv⟩ := h
    cases verifyKey with
    | none => cases hv
    | some vk => exact ⟨pactSection pub sig, rfl, pub, sig, vk, hp, hs, rfl, rfl, hv⟩
  · intro hx
    obtain ⟨s, rfl, pub, sig, vk, hp, hs, rfl, rfl, hv⟩ := hx
    exact ⟨pub, sig, hp, hs, rfl, hv⟩

theorem unwrap_ok_iff {flags : UInt8} {verifyKey : Option Bytes} {now : ℚ} {p z : Bytes} :
    unwrap B flags verifyKey now p = .ok z ↔ Plaintext B flags verifyKey now p z := by
  have hpad : ∀ p q, stripPadding p = .ok q ↔ ∃ s, p = s ++ q ∧ (fun _ => PadPart) q s := fun _ _ => stripPadding_ok_iff
  have httl : ∀ p q, stripTtl now p = .ok q ↔ ∃ s, p = s ++ q ∧ (fun _ => TtlPart now) q s :=
    fun _ _ => stripTtl_ok_iff
  have hpact : ∀ p q, stripPact B verifyKey p = .ok q ↔ ∃ s, p = s ++ q ∧ PactPart B verifyKey q s :=
    fun _ _ => pact_ok_iff
  simp only [unwrap, peel, bind_eq_ok, stage_ok_iff hpad, stage_ok_iff httl, stage_ok_iff hpact]
  refine ⟨?_, ?_⟩
  · intro h
    obtain ⟨q, ⟨r, ⟨pad, rfl, h1⟩, ttl, rfl, h2⟩, pact, rfl, h3⟩ := h
    exact ⟨pad, ttl, pact, rfl, h1, h2, h3⟩
  · intro hx
    obtain ⟨pad, ttl, pact, rfl, h1, h2, h3⟩ := hx
    exact ⟨_, ⟨_, ⟨pad, rfl, h1⟩, ttl, rfl, h2⟩, pact, rfl, h3⟩

/-! ## The envelope and the caller -/

theorem preCheck_ok_iff {flags : UInt8} {hwid verifyKey : Option Bytes} :
    preCheck flags hwid verifyKey = .ok () ↔
      (has flags flagHwid = true → hwid.isSome = true) ∧ (has flags flagSigned = true → verifyKey.isSome = true) := by
  unfold preCheck
  cases has flags flagHwid <;> cases has flags flagSigned <;> cases hwid <;> cases verifyKey <;>
    simp [throw, throwThe, MonadExceptOf.throw]

theorem unpack_frame_iff {data nonce ct : Bytes} {flags : UInt8} {stealth : Bool} :
    unpack data stealth = .ok (nonce, ct, flags) ↔
      ∃ f : Frame, data = f.bytes ∧ (stealth = true ∨ f.magic.val = magic) ∧ f.nonce = nonce ∧ f.ciphertext = ct ∧
        f.flags = flags := by
  rw [unpack_ok_iff]
  refine ⟨?_, ?_⟩
  · intro h
    obtain ⟨m, hm, hmagic, hn, hc, rfl⟩ := h
    exact ⟨⟨⟨m, hm⟩, flags, nonce, ct, hn, hc⟩, rfl, hmagic, rfl, rfl, rfl⟩
  · intro hx
    obtain ⟨f, rfl, hmagic, rfl, rfl, rfl⟩ := hx
    exact ⟨f.magic.val, f.magic.property, hmagic, f.nonceFits, f.tagged, rfl⟩

variable {key : Key} {corpse : Bytes} {a : ReviveOptions} {w : World} {self : Necromancer}

/-- A live, unwatched instance takes an envelope as far as its pickle exactly if the
    envelope carries it. -/
theorem carries_iff (hw : (self.antiDebug && w.debugging) = false) (halive : self.destroyed = false)
    (hkey : self.key = some key) {f : Frame} {p b : Bytes} :
    (∃ z, Carries B key corpse a w.now b f p z) ↔
      corpse = f.bytes ∧ (a.stealth = true ∨ f.magic.val = magic) ∧
        Reaches corpse a w self key f.nonce f.ciphertext f.flags ∧
        B.gcmDecrypt key f.nonce f.ciphertext a.hwid = .ok p ∧
        contents B f.flags a.verifyKey w.now p = .ok b := by
  simp only [contents, bind_eq_ok, unwrap_ok_iff]
  refine ⟨?_, ?_⟩
  · intro hx
    obtain ⟨z, h⟩ := hx
    have hframe := unpack_frame_iff.mpr ⟨f, h.envelope, h.named, rfl, rfl, rfl⟩
    refine ⟨h.envelope, h.named, ⟨hw, ?_, halive, hframe, ?_, hkey⟩, h.opened, z, h.layers, h.pickled⟩
    · exact unpack_not_pill hframe
    · exact preCheck_ok_iff.mpr ⟨h.bound, h.pledged⟩
  · intro hx
    obtain ⟨henv, hmagic, hr, hg, z, hp, hz⟩ := hx
    obtain ⟨hbound, hpledged⟩ := preCheck_ok_iff.mp hr.allowed
    refine ⟨z, ?_, henv, hmagic, hbound, hpledged, hg, hp, hz⟩
    rw [← isPoisonPill_iff, hr.noPill]
    simp

/-- `revive` accepts exactly its grammar: what it returns, when it raises, and the calls
    it makes when it unpickles. -/
theorem revive_grammar (hw : (self.antiDebug && w.debugging) = false) (halive : self.destroyed = false)
    (hkey : self.key = some key) :
    (∀ obj, (revive B corpse a w self).result = .ok obj ↔
      ∃ b, (∃ f p z, Carries B key corpse a w.now b f p z) ∧ B.loads b = .ok obj) ∧
    ((¬ ∃ b obj, (∃ f p z, Carries B key corpse a w.now b f p z) ∧ B.loads b = .ok obj) →
      ∃ e, (revive B corpse a w self).result = .error e) ∧
    ∀ b, .loads b ∈ (revive B corpse a w self).calls → ∃ f p z, Carries B key corpse a w.now b f p z ∧
      (revive B corpse a w self).calls =
        [.decrypt key f.nonce f.ciphertext a.hwid (.ok p), .loads b] := by
  have hiff : ∀ obj, (revive B corpse a w self).result = .ok obj ↔
      ∃ b, (∃ f p z, Carries B key corpse a w.now b f p z) ∧ B.loads b = .ok obj := by
    intro obj
    rw [revive_ok_iff]
    refine ⟨?_, ?_⟩
    · intro h
      obtain ⟨key', nonce, ct, flags, p, b, hr, hg, hc, hl⟩ := h
      obtain rfl : key = key' := Option.some.inj (hkey.symm.trans hr.keyed)
      obtain ⟨f, henv, hmagic, rfl, rfl, rfl⟩ := unpack_frame_iff.mp hr.frame
      exact ⟨b, ⟨f, p, (carries_iff hw halive hkey).mpr ⟨henv, hmagic, hr, hg, hc⟩⟩, hl⟩
    · intro hx
      obtain ⟨b, ⟨f, p, hcarries⟩, hl⟩ := hx
      obtain ⟨-, -, hr, hg, hc⟩ := (carries_iff hw halive hkey).mp hcarries
      exact ⟨key, f.nonce, f.ciphertext, f.flags, p, b, hr, hg, hc, hl⟩
  refine ⟨hiff, ?_, ?_⟩
  · intro hno
    cases hres : (revive B corpse a w self).result with
    | error e => exact ⟨e, rfl⟩
    | ok obj =>
      obtain ⟨b, hb, hl⟩ := (hiff obj).mp hres
      exact absurd ⟨b, obj, hb, hl⟩ hno
  · intro b hb
    have hx := revive_exit (B := B) corpse a w self
    generalize revive B corpse a w self = out at hx hb
    cases hx with
    | loaded key' nonce ct flags p data hr hg hc =>
      obtain rfl : key = key' := Option.some.inj (hkey.symm.trans hr.keyed)
      obtain rfl : b = data := by simpa using hb
      obtain ⟨f, henv, hmagic, rfl, rfl, rfl⟩ := unpack_frame_iff.mp hr.frame
      obtain ⟨z, hcarries⟩ := (carries_iff hw halive hkey).mpr ⟨henv, hmagic, hr, hg, hc⟩
      exact ⟨f, p, z, hcarries, rfl⟩
    | _ => simp at hb

/-! ## A run -/

section
open Reference

/-- An envelope with every layer, soul-bound and masked. -/
def fullEnvelope : Except PyErr Bytes :=
  (kill reference [1, 2, 3] runOptions runDraws 1000 (.fresh runKey true 3)).result

theorem revive_grammar_run : ∃ E, fullEnvelope = .ok E ∧
    ∃ b, (∃ f p z, Carries reference runKey E ⟨some [0x68], true, some [0x6b]⟩ 1059 b f p z) ∧
      reference.loads b = .ok [1, 2, 3] := by
  have hrun : (fullEnvelope >>= fun E => (revive reference E ⟨some [0x68], true, some [0x6b]⟩ ⟨false, 1059⟩
      (.fresh runKey true 3)).result) = .ok [1, 2, 3] := by
    decide +kernel
  obtain ⟨E, hE, hrevive⟩ := bind_eq_ok.mp hrun
  obtain ⟨hobj, -, -⟩ := @revive_grammar reference runKey E ⟨some [0x68], true, some [0x6b]⟩ ⟨false, 1059⟩
    (.fresh runKey true 3) rfl rfl rfl
  exact ⟨E, hE, (hobj [1, 2, 3]).mp hrevive⟩

end

end Amcrypt.Core
