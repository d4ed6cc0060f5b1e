/-
  Amcrypt.Struct — the fields the formats are made of: `struct.pack` and
  `struct.unpack` of big-endian unsigned integers (`>B`, `>H`, `>I`, `>Q`), indexing
  a byte string, and a byte string's `repr` in an error message.

  A field too narrow for its value and a read past the end raise, as in Python; a
  packed field is read back at its offset (`unpackFrom_append`).
-/

import Amcrypt.Exceptions
import Amcrypt.Lib.BigEndian

namespace Amcrypt

open Lib

/-- `struct.pack` of an unsigned field of `w` bytes. -/
def packUInt (w n : Nat) : Except PyErr Bytes :=
  if n < 256 ^ w then .ok (BigEndian.encode w n) else .error .structError

/-- `struct.unpack` of an unsigned field of `w` bytes: `raw` is the field and no more. -/
def unpackUInt (w : Nat) (raw : Bytes) : Except PyErr Nat :=
  if raw.length = w then .ok (BigEndian.decode raw) else .error .structError

/-- `struct.unpack_from` of an unsigned field of `w` bytes at `offset`. -/
def unpackFrom (w : Nat) (data : Bytes) (offset : Nat) : Except PyErr Nat :=
  if offset + w ≤ data.length then .ok (BigEndian.decode (slice offset (offset + w) data)) else .error .structError

/-- `data[i]`. -/
def index (data : Bytes) (i : Nat) : Except PyErr UInt8 :=
  match data[i]? with
  | some b => .ok b
  | none => .error (.other "IndexError")

theorem packUInt_ok_iff {w n : Nat} {bs : Bytes} :
    packUInt w n = .ok bs ↔ n < 256 ^ w ∧ bs = BigEndian.encode w n := by
  unfold packUInt
  split
  · simp_all [eq_comm]
  · simp_all

theorem packUInt_overflow {w n : Nat} (h : ¬ n < 256 ^ w) : packUInt w n = .error .structError := if_neg h

/-- A field packs exactly if its value fits. -/
theorem packUInt_returns {w n : Nat} : Returns (packUInt w n) ↔ n < 256 ^ w := by
  refine ⟨?_, ?_⟩
  · intro hx
    obtain ⟨bs, h⟩ := hx
    exact (packUInt_ok_iff.mp h).1
  · intro h
    exact ⟨_, packUInt_ok_iff.mpr ⟨h, rfl⟩⟩

theorem unpackUInt_ok {w : Nat} {raw : Bytes} (h : raw.length = w) : unpackUInt w raw = .ok (BigEndian.decode raw) := by
  simp [unpackUInt, h]

theorem unpackFrom_ok {w offset : Nat} {data : Bytes} (h : offset + w ≤ data.length) :
    unpackFrom w data offset = .ok (BigEndian.decode (slice offset (offset + w) data)) := by
  simp [unpackFrom, h]

/-- A field packed after `pre` is read back at offset `pre.length`. -/
theorem unpackFrom_append {w n : Nat} (hn : n < 256 ^ w) (pre post : Bytes) {offset : Nat}
    (ho : pre.length = offset) : unpackFrom w (pre ++ (BigEndian.encode w n ++ post)) offset = .ok n := by
  have hs : slice offset (offset + w) (pre ++ (BigEndian.encode w n ++ post)) = BigEndian.encode w n :=
    slice_append_right ho (by simp)
  rw [unpackFrom_ok (by simp; omega), hs, BigEndian.decode_encode hn]

@[simp] theorem index_zero_cons (b : UInt8) (bs : Bytes) : index (b :: bs) 0 = .ok b := rfl

/-! ## `repr` -/

def hexDigit (n : Nat) : Char := if n < 10 then Char.ofNat (48 + n) else Char.ofNat (87 + n)

/-- One byte of a `repr` between `quote` characters. -/
def reprByte (quote b : UInt8) : List Char :=
  if b = quote ∨ b = 0x5c then [Char.ofNat 0x5c, Char.ofNat b.toNat]
  else if b = 0x09 then [Char.ofNat 0x5c, 't']
  else if b = 0x0a then [Char.ofNat 0x5c, 'n']
  else if b = 0x0d then [Char.ofNat 0x5c, 'r']
  else if b < 0x20 ∨ 0x7f ≤ b then [Char.ofNat 0x5c, 'x', hexDigit (b.toNat / 16), hexDigit (b.toNat % 16)]
  else [Char.ofNat b.toNat]

/-- `repr(bs)`: single quotes, unless the bytes hold one and no double quote. -/
def pyRepr (bs : Bytes) : String :=
  let quote : UInt8 := if 0x27 ∈ bs ∧ 0x22 ∉ bs then 0x22 else 0x27
  String.ofList ('b' :: Char.ofNat quote.toNat :: bs.flatMap (reprByte quote) ++ [Char.ofNat quote.toNat])

end Amcrypt
