/-
  Amcrypt.Lib.Dotted — dotted names: `a.b.c`, and the names above it.

  A name is a list of letters, one of which is the dot. `ancestors` enumerates the names
  above `m`, and `m`, by splitting it at the dots and joining its first parts again;
  `mem_ancestors` says what they are as text: `m` itself, and every `d` that `m` continues
  after a dot. Parts may be empty, and `d` may hold dots of its own.
-/

import Mathlib.Data.List.Infix

namespace Amcrypt.Lib

namespace Dotted

variable {α : Type} {dot : α}

theorem intercalate_append {ps qs : List (List α)} (hp : ps ≠ []) (hq : qs ≠ []) :
    [dot].intercalate (ps ++ qs) = [dot].intercalate ps ++ dot :: [dot].intercalate qs := by
  induction ps with
  | nil => exact absurd rfl hp
  | cons p ps ih =>
    cases ps with
    | nil => simp [List.intercalate_cons_of_ne_nil hq]
    | cons p' ps =>
      have ih := ih (List.cons_ne_nil p' ps)
      rw [List.cons_append] at ih
      rw [List.cons_append, List.cons_append, List.intercalate_cons_cons, ih, List.intercalate_cons_cons,
        List.append_assoc (p ++ [dot])]

variable [DecidableEq α]

/-- The first parts of `m`, joined again: one of them, two, and so on to `m`. -/
def ancestors (dot : α) (m : List α) : List (List α) :=
  let parts := m.splitOn dot
  (List.range parts.length).map fun i => [dot].intercalate (parts.take (i + 1))

/-- `m` is `d`, or goes on after it with a dot. -/
def Under (dot : α) (d m : List α) : Prop := m = d ∨ d ++ [dot] <+: m

instance (d m : List α) : Decidable (Under dot d m) := inferInstanceAs (Decidable (m = d ∨ d ++ [dot] <+: m))

theorem mem_ancestors {d m : List α} : d ∈ ancestors dot m ↔ Under dot d m := by
  have hne : ∀ xs : List α, xs.splitOn dot ≠ [] := List.splitOn_ne_nil dot
  simp only [ancestors, List.mem_map, List.mem_range]
  refine ⟨?_, ?_⟩
  · intro hx
    obtain ⟨i, hi, rfl⟩ := hx
    by_cases hlast : (m.splitOn dot).drop (i + 1) = []
    · left
      rw [List.take_of_length_le (List.drop_eq_nil_iff.mp hlast), List.intercalate_splitOn]
    · right
      have hfirst : (m.splitOn dot).take (i + 1) ≠ [] := by
        rw [ne_eq, List.take_eq_nil_iff]
        exact not_or.mpr ⟨by omega, hne m⟩
      refine ⟨[dot].intercalate ((m.splitOn dot).drop (i + 1)), ?_⟩
      calc [dot].intercalate ((m.splitOn dot).take (i + 1)) ++ [dot] ++
            [dot].intercalate ((m.splitOn dot).drop (i + 1))
          = [dot].intercalate ((m.splitOn dot).take (i + 1) ++ (m.splitOn dot).drop (i + 1)) := by
            rw [intercalate_append hfirst hlast, List.append_assoc, List.singleton_append]
        _ = m := by rw [List.take_append_drop, List.intercalate_splitOn]
  · intro hx
    have hpos : ∀ xs : List α, 0 < (xs.splitOn dot).length := fun xs => List.length_pos_iff.mpr (hne xs)
    rcases hx with rfl | ⟨rest, rfl⟩
    · refine ⟨(m.splitOn dot).length - 1, Nat.sub_lt (hpos m) Nat.one_pos, ?_⟩
      rw [Nat.sub_add_cancel (hpos m), List.take_length, List.intercalate_splitOn]
    · rw [List.append_assoc, List.singleton_append, List.splitOn_append_cons_self]
      refine ⟨(d.splitOn dot).length - 1, ?_, ?_⟩
      · have := hpos d
        rw [List.length_append]
        omega
      · rw [Nat.sub_add_cancel (hpos d), List.take_left, List.intercalate_splitOn]

end Dotted

end Amcrypt.Lib
