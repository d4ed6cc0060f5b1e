/-
  Amcrypt.Lib.Residues — how often `w` random bytes, reduced modulo `r`, give each residue.

  The byte strings of length `w` are the numbers below `256 ^ w` (`decodeEquiv`), so the
  residues are hit in turn: each `256 ^ w / r` times, and the first `256 ^ w % r` of them
  once more (`card_residue`). Unless `r` is a power of two they are not equally likely.
-/

import Amcrypt.Lib.BigEndian
import Mathlib.Data.Int.CardIntervalMod
import Mathlib.Data.Nat.Count
import Mathlib.SetTheory.Cardinal.Finite

namespace Amcrypt.Lib.BigEndian

/-- The byte strings of length `w` whose number has a property, and these numbers. -/
def decodeEquiv (w : Nat) (P : Nat → Prop) : { b : Block w // P (decode b.val) } ≃ { n : Nat // n < 256 ^ w ∧ P n } where
  toFun b := ⟨decode b.val.val, by have := decode_lt b.val.val; rwa [b.val.property] at this, b.property⟩
  invFun n := ⟨⟨encode w n.val, length_encode w n.val⟩, by rw [decode_encode n.property.1]; exact n.property.2⟩
  left_inv b := by
    apply Subtype.ext
    apply Subtype.ext
    show encode w (decode b.val.val) = b.val.val
    have := encode_decode b.val.val
    rwa [b.val.property] at this
  right_inv n := Subtype.ext (decode_encode n.property.1)

theorem card_decode (w : Nat) (P : Nat → Prop) [DecidablePred P] :
    Nat.card { b : Block w // P (decode b.val) } = Nat.count P (256 ^ w) := by
  have hmem : ∀ n, n ∈ (Finset.range (256 ^ w)).filter P ↔ n < 256 ^ w ∧ P n := by simp
  rw [Nat.card_congr (decodeEquiv w P), Nat.subtype_card _ hmem, Nat.count_eq_card_filter_range]

theorem card_residue (w : Nat) {r v : Nat} (hv : v < r) :
    Nat.card { b : Block w // decode b.val % r = v } = 256 ^ w / r + if v < 256 ^ w % r then 1 else 0 := by
  rw [card_decode w fun n => n % r = v]
  have hcount := Nat.count_modEq_card (256 ^ w) (show 0 < r by omega) v
  simp only [Nat.ModEq, Nat.mod_eq_of_lt hv] at hcount
  exact hcount

end Amcrypt.Lib.BigEndian
