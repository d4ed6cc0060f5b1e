/-
  Amcrypt.Core.Lengths — what the length of an envelope tells, and what the padding hides of
  it.

  AES-GCM keeps lengths, so an envelope is as long as its plaintext and 36 bytes. The
  padding is the last layer: it adds its length byte and as many bytes as two random
  ones give modulo 241, from 16 on (`padded_iff`). So

  - `padding_lengths`: the lengths from 17 to 256 above that of the envelope without
    padding, and no others, each for 272 of the 65536 draws up to 241 and for 271 beyond;
    on the 271 draws left `kill` raises.
  - `length_hiding`: two objects can come out at one length exactly if without padding
    their envelopes differ by 239 bytes at most.
-/

import Amcrypt.Core.Fields
import Amcrypt.Lib.Residues

namespace Amcrypt.Core

open Lib

variable {B : Backend}

/-- The draws with these two bytes for the length of the padding. -/
def Draws.withLength (d : Draws) (b : Block 2) : Draws := { d with padLen := b }

/-! ## Lengths, layer by layer -/

theorem length_pack {key : Key} {nonce : Nonce} {ct : Bytes} {f : UInt8} {stealth : Bool} {E : Bytes}
    (h : pack B key nonce.val ct f stealth = .ok E) : E.length = headerSize + 12 + ct.length := by
  obtain ⟨-, rfl⟩ := pack_ok_iff.mp h
  rw [List.length_append, length_header (length_packedMagic B key stealth), List.length_append, nonce.property]
  omega

theorem addPadding_ok_iff {d : Draws} {data p : Bytes} : addPadding d data = .ok p ↔
    d.padLength < 256 ∧ p = BigEndian.encode 1 d.padLength ++ (d.pad d.padLength).val ++ data := by
  rw [addPadding, ← Draws.padLength]
  simp only [bind_eq_ok, packUInt_ok_iff, Nat.pow_one, pure_eq_ok]
  refine ⟨?_, ?_⟩
  · rintro ⟨lenField, ⟨hlt, rfl⟩, hp⟩
    exact ⟨hlt, (Except.ok.inj hp).symm⟩
  · rintro ⟨hlt, rfl⟩
    exact ⟨_, ⟨hlt, rfl⟩, rfl⟩

/-- The padding is the last layer, and no other draws its length. -/
theorem wrap_padded (o : KillOptions) (d : Draws) (b : Block 2) (now : ℚ) (compressed : Bytes) :
    wrap B { o with pad := true } (d.withLength b) now compressed =
      (wrap B { o with pad := false } d now compressed >>= addPadding (d.withLength b)) := by
  simp only [wrap, Draws.withLength, bind_assoc, if_true, Bool.false_eq_true, if_false]
  rfl

variable {obj : B.Obj} {o : KillOptions} {d : Draws} {now : ℚ} {self : Necromancer} {E₀ : Bytes}

/-- The lengths that `kill` gives an object with padding, by the one it gives it without. -/
theorem padded_iff (htag : B.AesTagged) (hplain : (kill B obj { o with pad := false } d now self).result = .ok E₀)
    (b : Block 2) (n : Nat) :
    (∃ E, (kill B obj { o with pad := true } (d.withLength b) now self).result = .ok E ∧ E.length = n) ↔
      (d.withLength b).padLength < 256 ∧ n = E₀.length + 1 + (d.withLength b).padLength := by
  obtain ⟨key, pickled, p, halive, hkey, hdump, hwrap, hpack, -⟩ := kill_ok hplain
  have hplainLength := length_pack hpack
  rw [htag] at hplainLength
  rw [kill_alive obj _ _ now halive]
  simp only [hdump, hkey, wrap_padded, hwrap, ok_bind]
  cases hp : addPadding (d.withLength b) p with
  | error e =>
    simp only [reduceCtorEq, false_and, exists_false, false_iff, not_and]
    intro hfits
    rw [addPadding_ok_iff.mpr ⟨hfits, rfl⟩] at hp
    cases hp
  | ok padded =>
    obtain ⟨hfits, rfl⟩ := addPadding_ok_iff.mp hp
    have hlength : ∀ {E}, pack B key (d.withLength b).nonce.val (B.gcmEncrypt key (d.withLength b).nonce.val
        (BigEndian.encode 1 (d.withLength b).padLength ++ ((d.withLength b).pad (d.withLength b).padLength).val ++ p) o.hwid)
        (flagsOf { o with pad := true }) o.stealth = .ok E → E.length = E₀.length + 1 + (d.withLength b).padLength := by
      intro E hE
      have hpad := ((d.withLength b).pad (d.withLength b).padLength).property
      rw [length_pack hE, htag, List.length_append, List.length_append, BigEndian.length_encode, hpad, hplainLength]
      omega
    refine ⟨?_, ?_⟩
    · rintro ⟨E, hE, rfl⟩
      exact ⟨hfits, hlength hE⟩
    · rintro ⟨-, rfl⟩
      obtain ⟨E, hE⟩ := pack_returns B key (d.withLength b).nonce (B.gcmEncrypt key (d.withLength b).nonce.val
        (BigEndian.encode 1 (d.withLength b).padLength ++ ((d.withLength b).pad (d.withLength b).padLength).val ++ p) o.hwid)
        (flagsOf { o with pad := true }) o.stealth
      exact ⟨E, hE, hlength hE⟩

/-! ## How often each -/

/-- Over the two bytes that `os.urandom` draws for it: how many give each length, and how
    many make `kill` raise. -/
theorem padding_lengths (htag : B.AesTagged) (hplain : (kill B obj { o with pad := false } d now self).result = .ok E₀) :
    (∀ n, Nat.card { b : Block 2 //
        ∃ E, (kill B obj { o with pad := true } (d.withLength b) now self).result = .ok E ∧ E.length = n } =
      if E₀.length + 17 ≤ n ∧ n ≤ E₀.length + 241 then 272
      else if E₀.length + 242 ≤ n ∧ n ≤ E₀.length + 256 then 271 else 0) ∧
    Nat.card { b : Block 2 // ¬ Returns (kill B obj { o with pad := true } (d.withLength b) now self).result } = 271 := by
  have hdraw : ∀ b, (d.withLength b).padLength = BigEndian.decode b.val % 241 + 16 := fun b => rfl
  refine ⟨?_, ?_⟩
  · intro n
    simp only [padded_iff htag hplain, hdraw]
    by_cases hin : E₀.length + 17 ≤ n ∧ n ≤ E₀.length + 256
    · have hresidue : ∀ b : Block 2, (BigEndian.decode b.val % 241 + 16 < 256 ∧
          n = E₀.length + 1 + (BigEndian.decode b.val % 241 + 16)) ↔ BigEndian.decode b.val % 241 = n - E₀.length - 17 := by
        intro b
        omega
      simp only [hresidue]
      rw [BigEndian.card_residue 2 (show n - E₀.length - 17 < 241 by omega)]
      split_ifs <;> omega
    · have hnone : ∀ b : Block 2, ¬ (BigEndian.decode b.val % 241 + 16 < 256 ∧
          n = E₀.length + 1 + (BigEndian.decode b.val % 241 + 16)) := by
        intro b
        omega
      have hempty : IsEmpty { b : Block 2 // BigEndian.decode b.val % 241 + 16 < 256 ∧
          n = E₀.length + 1 + (BigEndian.decode b.val % 241 + 16) } := ⟨fun b => hnone b.val b.property⟩
      rw [Nat.card_of_isEmpty]
      split_ifs <;> omega
  · have hraises : ∀ b : Block 2, ¬ Returns (kill B obj { o with pad := true } (d.withLength b) now self).result ↔
        BigEndian.decode b.val % 241 = 240 := by
      intro b
      have hreturns : Returns (kill B obj { o with pad := true } (d.withLength b) now self).result ↔
          (d.withLength b).padLength < 256 := by
        refine ⟨?_, ?_⟩
        · rintro ⟨E, hE⟩
          exact ((padded_iff htag hplain b E.length).mp ⟨E, hE, rfl⟩).1
        · intro hfits
          obtain ⟨E, hE, -⟩ := (padded_iff htag hplain b _).mpr ⟨hfits, rfl⟩
          exact ⟨E, hE⟩
      rw [hreturns, hdraw]
      omega
    simp only [hraises]
    rw [BigEndian.card_residue 2 (show 240 < 241 by omega)]
    rfl

/-! ## What is hidden -/

variable {obj' : B.Obj} {o' : KillOptions} {d' : Draws} {now' : ℚ} {self' : Necromancer} {E₀' : Bytes}

/-- Every padding length from 16 to 255 is drawn. -/
theorem exists_draw (d : Draws) {k : Nat} (hmin : 16 ≤ k) (hmax : k < 256) : ∃ b, (d.withLength b).padLength = k := by
  refine ⟨⟨BigEndian.encode 2 (k - 16), BigEndian.length_encode 2 _⟩, ?_⟩
  show BigEndian.decode (BigEndian.encode 2 (k - 16)) % 241 + 16 = k
  rw [BigEndian.decode_encode (show k - 16 < 256 ^ 2 by omega)]
  omega

/-- Two kills, of whatever objects under whatever options: padded, they can come out at one
    length exactly if unpadded they are close enough. -/
theorem length_hiding (htag : B.AesTagged)
    (hplain : (kill B obj { o with pad := false } d now self).result = .ok E₀)
    (hplain' : (kill B obj' { o' with pad := false } d' now' self').result = .ok E₀') :
    (∃ b b' E E', (kill B obj { o with pad := true } (d.withLength b) now self).result = .ok E ∧
        (kill B obj' { o' with pad := true } (d'.withLength b') now' self').result = .ok E' ∧ E.length = E'.length) ↔
      E₀.length ≤ E₀'.length + 239 ∧ E₀'.length ≤ E₀.length + 239 := by
  refine ⟨?_, ?_⟩
  · rintro ⟨b, b', E, E', hE, hE', hsame⟩
    obtain ⟨hfits, hlen⟩ := (padded_iff htag hplain b E.length).mp ⟨E, hE, rfl⟩
    obtain ⟨hfits', hlen'⟩ := (padded_iff htag hplain' b' E'.length).mp ⟨E', hE', rfl⟩
    have hmin : padMin ≤ (d.withLength b).padLength := Nat.le_add_left _ _
    have hmin' : padMin ≤ (d'.withLength b').padLength := Nat.le_add_left _ _
    unfold padMin at hmin hmin'
    omega
  · rintro ⟨hle, hle'⟩
    -- the shorter one gets the longest padding that is needed, the longer one the shortest
    obtain ⟨k, k', hk, hk', hmax, hmax', hsum⟩ : ∃ k k', 16 ≤ k ∧ 16 ≤ k' ∧ k < 256 ∧ k' < 256 ∧
        E₀.length + 1 + k = E₀'.length + 1 + k' := by
      by_cases hshort : E₀.length ≤ E₀'.length
      · exact ⟨E₀'.length - E₀.length + 16, 16, by omega, by omega, by omega, by omega, by omega⟩
      · exact ⟨16, E₀.length - E₀'.length + 16, by omega, by omega, by omega, by omega, by omega⟩
    obtain ⟨b, hb⟩ := exists_draw d hk hmax
    obtain ⟨b', hb'⟩ := exists_draw d' hk' hmax'
    obtain ⟨E, hE, hlen⟩ := (padded_iff htag hplain b _).mpr ⟨by rw [hb]; exact hmax, rfl⟩
    obtain ⟨E', hE', hlen'⟩ := (padded_iff htag hplain' b' _).mpr ⟨by rw [hb']; exact hmax', rfl⟩
    exact ⟨b, b', E, E', hE, hE', by rw [hlen, hlen', hb, hb']; exact hsum⟩

/-! ## Runs -/

section
open Reference

def plainOptions : KillOptions := {}

theorem unpadded_killed :
    (kill reference carrier { plainOptions with pad := false } runDraws 0 live).result = .ok plainEnvelope := plain_killed

theorem padding_lengths_run :
    Nat.card { b : Block 2 // ∃ E,
      (kill reference carrier { plainOptions with pad := true } (runDraws.withLength b) 0 live).result = .ok E ∧
      E.length = plainEnvelope.length + 17 } = 272 := by
  obtain ⟨hcount, -⟩ := padding_lengths aesTagged unpadded_killed
  have hfirst := hcount (plainEnvelope.length + 17)
  rwa [if_pos ⟨Nat.le_refl _, Nat.add_le_add_left (by decide) _⟩] at hfirst

theorem length_hiding_run : ∃ b b' E E',
    (kill reference carrier { plainOptions with pad := true } (runDraws.withLength b) 0 live).result = .ok E ∧
      (kill reference [1, 2, 3] { plainOptions with pad := true } (runDraws.withLength b') 0 live).result = .ok E' ∧
      E.length = E'.length := by
  obtain ⟨E₀, hshort⟩ : ∃ E,
    (kill reference [1, 2, 3] { plainOptions with pad := false } runDraws 0 live).result = .ok E := ⟨_, rfl⟩
  have hlength : E₀.length = 65 := by
    have : (kill reference [1, 2, 3] { plainOptions with pad := false } runDraws 0 live).result.map List.length = .ok 65 := by
      decide +kernel
    rw [hshort] at this
    exact Except.ok.inj this
  have hlong : plainEnvelope.length = 193 := by decide +kernel
  refine (length_hiding aesTagged unpadded_killed hshort).mpr ?_
  rw [hlength, hlong]
  decide

end

end Amcrypt.Core
