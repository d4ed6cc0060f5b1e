/-
  Amcrypt.Lib.Stored — zlib streams whose deflate blocks are all stored.

  `compress` is what zlib writes for data it cannot shrink: the header of level 9,
  stored blocks of at most 65535 bytes, the Adler-32 of the data. `decompress` reads
  such a stream, and like zlib's one-shot call it ignores what follows the checksum
  (`decompress_compress_append`). A block that is not stored is refused: the reader is
  zlib's on stored streams and nothing on others.
-/

import Amcrypt.Lib.BigEndian

namespace Amcrypt.Lib.Stored

def blockMax : Nat := 65535

def le16 (n : Nat) : Bytes := [UInt8.ofNat n, UInt8.ofNat (n / 256)]

/-- One stored block: the final bit, the length, its complement, the data. -/
def block (final : Bool) (data : Bytes) : Bytes :=
  (if final then 1 else 0) :: (le16 data.length ++ le16 (blockMax - data.length) ++ data)

def deflate : Nat → Bytes → Bytes
  | 0, data => block true data
  | fuel + 1, data =>
    if data.length ≤ blockMax then block true data
    else block false (data.take blockMax) ++ deflate fuel (data.drop blockMax)

/-- The data of a run of blocks up to the final one, and what follows it. -/
def inflate : Nat → Bytes → Option (Bytes × Bytes)
  | fuel + 1, h :: l0 :: l1 :: n0 :: n1 :: rest =>
    let len := l0.toNat + 256 * l1.toNat
    if h &&& 6 ≠ 0 then none
    else if len + (n0.toNat + 256 * n1.toNat) ≠ blockMax then none
    else if rest.length < len then none
    else if h &&& 1 = 1 then some (rest.take len, rest.drop len)
    else (inflate fuel (rest.drop len)).map fun x => (rest.take len ++ x.1, x.2)
  | _, _ => none

def adler32 (data : Bytes) : Nat :=
  let s := data.foldl (fun (s : Nat × Nat) b => ((s.1 + b.toNat) % 65521, (s.2 + s.1 + b.toNat) % 65521)) (1, 0)
  s.2 * 65536 + s.1

def compress (data : Bytes) : Bytes :=
  0x78 :: 0xda :: (deflate data.length data ++ BigEndian.encode 4 (adler32 data))

/-- The zlib header: deflate, a window of at most 32K, the check bits, no dictionary. -/
def headerOk (cmf flg : UInt8) : Bool :=
  cmf &&& 0x0f == 8 && decide (cmf.toNat < 128) && (cmf.toNat * 256 + flg.toNat) % 31 == 0 && flg &&& 0x20 == 0

def decompress (bs : Bytes) : Option Bytes :=
  match bs with
  | cmf :: flg :: rest =>
    if headerOk cmf flg then
      match inflate rest.length rest with
      | some (data, trailer) => if trailer.take 4 = BigEndian.encode 4 (adler32 data) then some data else none
      | none => none
    else none
  | _ => none

/-! ## Reading back what was written -/

theorem le16_value {n : Nat} (h : n ≤ blockMax) : n % 256 + 256 * (n / 256 % 256) = n := by
  unfold blockMax at h
  omega

/-- A block is read as its data; the final bit decides whether reading goes on. -/
theorem inflate_block (fuel : Nat) (final : Bool) {data : Bytes} (h : data.length ≤ blockMax) (rest : Bytes) :
    inflate (fuel + 1) (block final data ++ rest) =
      if final then some (data, rest) else (inflate fuel rest).map fun x => (data ++ x.1, x.2) := by
  have hlen := le16_value h
  have hcomp := le16_value (Nat.sub_le blockMax data.length)
  have hsum : data.length + (blockMax - data.length) = blockMax := by omega
  cases final
  · simp [block, le16, inflate, hlen, hcomp, hsum]
  · have hbits : (1 : UInt8) &&& 6 = 0 := by decide
    simp [block, le16, inflate, hlen, hcomp, hsum, hbits]

theorem inflate_deflate (rest : Bytes) :
    ∀ (fuel fuel' : Nat) (data : Bytes), data.length ≤ fuel → fuel < fuel' →
      inflate fuel' (deflate fuel data ++ rest) = some (data, rest) := by
  intro fuel
  induction fuel with
  | zero =>
    intro fuel' data hd hf
    obtain ⟨k, rfl⟩ : ∃ k, fuel' = k + 1 := ⟨fuel' - 1, by omega⟩
    exact inflate_block k true (by omega) rest
  | succ fuel ih =>
    intro fuel' data hd hf
    obtain ⟨k, rfl⟩ : ∃ k, fuel' = k + 1 := ⟨fuel' - 1, by omega⟩
    unfold deflate
    split
    · exact inflate_block k true (by assumption) rest
    · rename_i hbig
      have htake : (data.take blockMax).length ≤ blockMax := by rw [List.length_take]; omega
      have hdrop : (data.drop blockMax).length ≤ fuel := by rw [List.length_drop]; unfold blockMax at *; omega
      rw [List.append_assoc, inflate_block k false htake, ih k _ hdrop (by omega)]
      simp

theorem length_lt_deflate (fuel : Nat) (data : Bytes) : data.length < (deflate fuel data).length := by
  have hblock : ∀ (b : Bool) (data : Bytes), (block b data).length = data.length + 5 := by
    intro b data
    simp [block, le16]
  induction fuel generalizing data with
  | zero => simp [deflate, hblock]
  | succ fuel ih =>
    unfold deflate
    split
    · rw [hblock]; omega
    · have := ih (data.drop blockMax)
      rw [List.length_append, hblock]
      simp only [List.length_take, List.length_drop] at this ⊢
      omega

/-- A stream is read back whatever follows it. -/
theorem decompress_compress_append (data rest : Bytes) : decompress (compress data ++ rest) = some data := by
  have hlen := length_lt_deflate data.length data
  have hinf := inflate_deflate (BigEndian.encode 4 (adler32 data) ++ rest) data.length
    (deflate data.length data ++ (BigEndian.encode 4 (adler32 data) ++ rest)).length data (Nat.le_refl _)
    (by rw [List.length_append]; omega)
  have htake : (BigEndian.encode 4 (adler32 data) ++ rest).take 4 = BigEndian.encode 4 (adler32 data) :=
    List.take_left' (BigEndian.length_encode 4 _)
  have hok : headerOk 0x78 0xda = true := by decide
  simp only [compress, decompress, List.cons_append, List.append_assoc, hok, if_true, hinf, htake]

theorem decompress_compress (data : Bytes) : decompress (compress data) = some data := by
  simpa using decompress_compress_append data []

end Amcrypt.Lib.Stored
