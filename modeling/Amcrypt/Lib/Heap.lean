/-
  Amcrypt.Lib.Heap — a heap of byte buffers, some mutable and some not.

  A buffer's address is its position, for good: a new buffer comes at the end, and none is
  given back. `Evolves touched h h'` is the frame of whatever happened between `h` and `h'`:
  every buffer is still there, and one whose bytes have changed is mutable and among the
  `touched`. A buffer that is not mutable holds its bytes for ever (`Evolves.immutable`).
-/

import Amcrypt.Lib.BigEndian
import Amcrypt.Lib.Pointwise

namespace Amcrypt.Lib

structure Buffer where
  mutable : Bool
  data : Bytes
  deriving DecidableEq

abbrev Addr := Nat

abbrev Heap := List Buffer

namespace Heap

/-- The bytes at an address; nothing where there is no buffer. -/
def data (h : Heap) (a : Addr) : Bytes := match h[a]? with
  | some b => b.data
  | none => []

def isMutable (h : Heap) (a : Addr) : Bool := match h[a]? with
  | some b => b.mutable
  | none => false

/-- The buffer at `a` with these bytes in it. -/
def write (h : Heap) (a : Addr) (data : Bytes) : Heap := h.modify a fun b => { b with data := data }

variable {h h' h'' : Heap} {a a' : Addr} {b : Buffer}

theorem data_of (hb : h[a]? = some b) : h.data a = b.data := by rw [data, hb]

theorem isMutable_of (hb : h[a]? = some b) : h.isMutable a = b.mutable := by rw [isMutable, hb]

theorem getElem?_lt (hb : h[a]? = some b) : a < h.length := (List.getElem?_eq_some_iff.mp hb).1

@[simp] theorem length_write (h : Heap) (a : Addr) (data : Bytes) : (h.write a data).length = h.length :=
  List.length_modify _ _ _

theorem write_here (hb : h[a]? = some b) (data : Bytes) : (h.write a data)[a]? = some { b with data := data } := by
  simp [write, hb]

theorem write_elsewhere (hne : a' ≠ a) (data : Bytes) : (h.write a data)[a']? = h[a']? := by
  simp [write, hne.symm]

theorem write_cases {data : Bytes} (hb : (h.write a data)[a']? = some b) :
    (a' = a ∧ b.data = data) ∨ (a' ≠ a ∧ h[a']? = some b) := by
  by_cases hne : a' = a
  · subst hne
    have hlt := getElem?_lt hb
    rw [length_write] at hlt
    rw [write_here (List.getElem?_eq_getElem hlt)] at hb
    exact .inl ⟨rfl, by rw [← Option.some.inj hb]⟩
  · rw [write_elsewhere hne] at hb
    exact .inr ⟨hne, hb⟩

/-- A write leaves a buffer that is not mutable. -/
theorem write_immutable {d d' : Bytes} (ha : h[a]? = some ⟨true, d⟩) (hb : h[a']? = some ⟨false, d'⟩) (data : Bytes) :
    (h.write a data)[a']? = some ⟨false, d'⟩ := by
  have hne : a' ≠ a := by
    rintro rfl
    rw [ha] at hb
    cases hb
  rw [write_elsewhere hne, hb]

/-- A new buffer is at the end. -/
theorem alloc_here (h : Heap) (b : Buffer) : (h ++ [b])[h.length]? = some b := snoc_here h b

theorem alloc_elsewhere (hb : h[a]? = some b) (b' : Buffer) : (h ++ [b'])[a]? = some b := snoc_elsewhere hb b'

theorem alloc_cases {b' : Buffer} (hb : (h ++ [b])[a]? = some b') : h[a]? = some b' ∨ (a = h.length ∧ b' = b) :=
  snoc_cases hb

theorem write_last (h : Heap) (b : Buffer) (data : Bytes) :
    Heap.write (h ++ [b]) h.length data = h ++ [{ b with data := data }] := by
  refine List.ext_getElem? fun i => ?_
  rcases Nat.lt_trichotomy i h.length with hi | rfl | hi
  · rw [write_elsewhere (Nat.ne_of_lt hi), List.getElem?_append_left hi, List.getElem?_append_left hi]
  · rw [write_here (alloc_here h b), alloc_here]
  · rw [write_elsewhere (Nat.ne_of_gt hi), List.getElem?_eq_none (by simpa using Nat.succ_le_of_lt hi),
      List.getElem?_eq_none (by simpa using Nat.succ_le_of_lt hi)]

/-! ## The frame -/

structure Evolves (touched : Addr → Prop) (h h' : Heap) : Prop where
  kept : ∀ a b, h[a]? = some b → ∃ data, h'[a]? = some ⟨b.mutable, data⟩ ∧
    (data = b.data ∨ (b.mutable = true ∧ touched a))

namespace Evolves

variable {touched touched' : Addr → Prop}

theorem refl (h : Heap) : Evolves touched h h := ⟨fun _ b hb => ⟨b.data, hb, .inl rfl⟩⟩

theorem trans (h1 : Evolves touched h h') (h2 : Evolves touched h' h'') : Evolves touched h h'' := by
  refine ⟨?_⟩
  intro a b hb
  obtain ⟨data, hb', hsame⟩ := h1.kept a b hb
  obtain ⟨data', hb'', hsame'⟩ := h2.kept a _ hb'
  refine ⟨data', hb'', ?_⟩
  rcases hsame' with rfl | hx
  · exact hsame
  · exact .inr hx

theorem mono (h1 : Evolves touched h h') (ht : ∀ a b, h[a]? = some b → touched a → touched' a) :
    Evolves touched' h h' := by
  refine ⟨?_⟩
  intro a b hb
  obtain ⟨data, hb', hsame⟩ := h1.kept a b hb
  refine ⟨data, hb', ?_⟩
  rcases hsame with hsame | ⟨hm, hx⟩
  · exact .inl hsame
  · exact .inr ⟨hm, ht a b hb hx⟩

theorem alloc (h : Heap) (b : Buffer) : Evolves touched h (h ++ [b]) :=
  ⟨fun _ b' hb => ⟨b'.data, alloc_elsewhere hb b, .inl rfl⟩⟩

theorem write (h : Heap) (hm : h.isMutable a = true) (ht : touched a) (data : Bytes) :
    Evolves touched h (h.write a data) := by
  refine ⟨?_⟩
  intro a' b hb
  by_cases hne : a' = a
  · subst hne
    rw [isMutable_of hb] at hm
    exact ⟨data, write_here hb data, .inr ⟨hm, ht⟩⟩
  · exact ⟨b.data, (write_elsewhere hne data).trans hb, .inl rfl⟩

/-- What nobody touched is as it was. -/
theorem same (h1 : Evolves touched h h') (hb : h[a]? = some b) (ht : ¬ touched a) : h'[a]? = some b := by
  obtain ⟨data, hb', hsame⟩ := h1.kept a b hb
  rcases hsame with rfl | ⟨-, hx⟩
  · exact hb'
  · exact absurd hx ht

/-- A buffer that is not mutable is as it was. -/
theorem immutable (h1 : Evolves touched h h') (hb : h[a]? = some b) (hm : b.mutable = false) : h'[a]? = some b := by
  obtain ⟨data, hb', hsame⟩ := h1.kept a b hb
  rcases hsame with rfl | ⟨ht, -⟩
  · exact hb'
  · rw [hm] at ht
    cases ht

theorem length_le (h1 : Evolves touched h h') : h.length ≤ h'.length := by
  by_contra hlt
  have hlast : h'.length < h.length := Nat.lt_of_not_le hlt
  obtain ⟨data, hb, -⟩ := h1.kept h'.length _ (List.getElem?_eq_getElem hlast)
  exact absurd (getElem?_lt hb) (Nat.lt_irrefl _)

end Evolves

end Heap

end Amcrypt.Lib
