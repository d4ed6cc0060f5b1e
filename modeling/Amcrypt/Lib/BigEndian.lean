/-
  Amcrypt.Lib.BigEndian — byte strings, and unsigned integers in a fixed number of
  big-endian bytes.

  `encode w n` keeps the low `w` bytes of `n`; on numbers that fit it is inverted by
  `decode` (`decode_encode`), and every byte string is the encoding of what it decodes
  to (`encode_decode`), so a field of fixed width is a bijection on its range.
  `slice` is the half-open slice `bs[i:j]`, which stops at the end of the string.
-/

import Mathlib.Data.List.Basic
import Mathlib.Data.UInt

namespace Amcrypt.Lib

abbrev Bytes := List UInt8

/-- A byte string of a known length. -/
abbrev Block (n : Nat) := { b : Bytes // b.length = n }

/-- `bs[i:j]`. -/
def slice (i j : Nat) (bs : Bytes) : Bytes := (bs.take j).drop i

namespace BigEndian

/-- The low `w` bytes of `n`, most significant first. -/
def encode : Nat → Nat → Bytes
  | 0, _ => []
  | w + 1, n => encode w (n / 256) ++ [UInt8.ofNat n]

def decode (bs : Bytes) : Nat := bs.foldl (fun acc b => acc * 256 + b.toNat) 0

/-! ## The two are inverse -/

@[simp] theorem length_encode (w n : Nat) : (encode w n).length = w := by
  induction w generalizing n with
  | zero => rfl
  | succ w ih => simp [encode, ih]

@[simp] theorem decode_nil : decode [] = 0 := rfl

theorem decode_snoc (bs : Bytes) (b : UInt8) : decode (bs ++ [b]) = decode bs * 256 + b.toNat := by
  simp [decode, List.foldl_append]

theorem decode_encode {w n : Nat} (h : n < 256 ^ w) : decode (encode w n) = n := by
  induction w generalizing n with
  | zero => simp only [Nat.pow_zero] at h; simp [encode]; omega
  | succ w ih =>
    have hdiv : n / 256 < 256 ^ w := by
      rw [Nat.div_lt_iff_lt_mul (by omega)]; rw [Nat.pow_succ] at h; exact h
    rw [encode, decode_snoc, ih hdiv, UInt8.toNat_ofNat']
    omega

theorem decode_lt (bs : Bytes) : decode bs < 256 ^ bs.length := by
  induction bs using List.reverseRecOn with
  | nil => simp
  | append_singleton bs b ih =>
    have hb := b.toNat_lt
    rw [decode_snoc, List.length_append, List.length_singleton, Nat.pow_succ]
    omega

theorem encode_decode (bs : Bytes) : encode bs.length (decode bs) = bs := by
  induction bs using List.reverseRecOn with
  | nil => rfl
  | append_singleton bs b ih =>
    have hb := b.toNat_lt
    have hdiv : (decode bs * 256 + b.toNat) / 256 = decode bs := by omega
    have hlow : UInt8.ofNat (decode bs * 256 + b.toNat) = b := by
      apply UInt8.toNat_inj.mp
      rw [UInt8.toNat_ofNat']
      omega
    rw [decode_snoc, List.length_append, List.length_singleton, encode, hdiv, ih, hlow]

theorem encode_injective {w m n : Nat} (hm : m < 256 ^ w) (hn : n < 256 ^ w)
    (h : encode w m = encode w n) : m = n := by
  rw [← decode_encode hm, h, decode_encode hn]

end BigEndian

/-! ## Slices -/

@[simp] theorem length_slice (i j : Nat) (bs : Bytes) : (slice i j bs).length = min j bs.length - i := by
  simp [slice]

/-- Two slices that meet are one. -/
theorem slice_append_slice {i j k : Nat} (hij : i ≤ j) (hjk : j ≤ k) (bs : Bytes) :
    slice i j bs ++ slice j k bs = slice i k bs := by
  have hj : bs.take j = (bs.take k).take j := by rw [List.take_take, Nat.min_eq_left hjk]
  have hsplit : (bs.take k).drop i = ((bs.take k).take j).drop i ++
      ((bs.take k).drop j).drop (i - ((bs.take k).take j).length) := by
    rw [← List.drop_append, List.take_append_drop]
  rw [slice, slice, slice, hj, hsplit]
  by_cases hlen : j ≤ (bs.take k).length
  · have hzero : i - ((bs.take k).take j).length = 0 := by
      rw [List.length_take, Nat.min_eq_left hlen, Nat.sub_eq_zero_of_le hij]
    rw [hzero, List.drop_zero]
  · have hnil : (bs.take k).drop j = [] := List.drop_eq_nil_of_le (by omega)
    rw [hnil, List.drop_nil]

/-- A slice at the boundary of a concatenation is the second piece. -/
theorem slice_append_right {a b c : Bytes} {i j : Nat} (hi : a.length = i) (hj : i + b.length = j) :
    slice i j (a ++ (b ++ c)) = b := by
  subst hi hj
  simp [slice, List.take_append]

theorem slice_append_drop (i : Nat) {j : Nat} (bs : Bytes) (h : i ≤ j) :
    slice i j bs ++ bs.drop j = bs.drop i := by
  unfold slice
  rw [List.drop_take]
  have hj : j = i + (j - i) := by omega
  conv_lhs => rw [hj, ← List.drop_drop]
  simp

end Amcrypt.Lib
