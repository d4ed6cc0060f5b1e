/-
  Amcrypt.Lib.Pointwise — lists place by place.

  What stands where after an element is added at the end (`snoc_cases`, `split_snoc_iff`) or
  replaced (`set_cases`), and `List.Forall₂`
  by positions: what a lookup on one side finds on the other, and what an update or a change
  of the relation elsewhere leaves of it.
-/

import Mathlib.Data.List.Forall2

namespace Amcrypt.Lib

variable {α β : Type} {R R' : α → β → Prop} {xs : List α} {ys : List β} {x : α} {y : β} {i : Nat}

theorem snoc_here (xs : List α) (x : α) : (xs ++ [x])[xs.length]? = some x := List.getElem?_concat_length

theorem snoc_elsewhere {z : α} (h : xs[i]? = some z) (x : α) : (xs ++ [x])[i]? = some z := by
  rw [List.getElem?_append_left (List.getElem?_eq_some_iff.mp h).1, h]

theorem snoc_cases {z : α} (h : (xs ++ [x])[i]? = some z) : xs[i]? = some z ∨ (i = xs.length ∧ z = x) := by
  rcases Nat.lt_or_ge i xs.length with hlt | hge
  · rw [List.getElem?_append_left hlt] at h
    exact .inl h
  · have hlt := (List.getElem?_eq_some_iff.mp h).1
    rw [List.length_append, List.length_singleton] at hlt
    obtain rfl : i = xs.length := Nat.le_antisymm (Nat.lt_succ_iff.mp hlt) hge
    rw [snoc_here] at h
    exact .inr ⟨rfl, (Option.some.inj h).symm⟩

theorem set_cases {z : α} {j : Nat} (h : (xs.set i x)[j]? = some z) : (j = i ∧ z = x) ∨ (j ≠ i ∧ xs[j]? = some z) := by
  by_cases hj : i = j
  · subst hj
    have hlt := (List.getElem?_eq_some_iff.mp h).1
    rw [List.length_set] at hlt
    rw [List.getElem?_set_self hlt] at h
    exact .inl ⟨rfl, (Option.some.inj h).symm⟩
  · rw [List.getElem?_set_ne hj] at h
    exact .inr ⟨Ne.symm hj, h⟩

theorem forall₂_iff_getElem? : List.Forall₂ R xs ys ↔
    xs.length = ys.length ∧ ∀ (i : Nat) x y, xs[i]? = some x → ys[i]? = some y → R x y := by
  rw [List.forall₂_iff_get]
  refine and_congr_right fun _ => ⟨?_, ?_⟩
  · intro h i x y hx hy
    obtain ⟨h1, rfl⟩ := List.getElem?_eq_some_iff.mp hx
    obtain ⟨h2, rfl⟩ := List.getElem?_eq_some_iff.mp hy
    exact h i h1 h2
  · intro h i h1 h2
    exact h i _ _ (List.getElem?_eq_getElem h1) (List.getElem?_eq_getElem h2)

theorem forall₂_left (h : List.Forall₂ R xs ys) (hx : xs[i]? = some x) : ∃ y, ys[i]? = some y ∧ R x y := by
  obtain ⟨hlen, hall⟩ := forall₂_iff_getElem?.mp h
  have hlt : i < ys.length := hlen ▸ (List.getElem?_eq_some_iff.mp hx).1
  exact ⟨_, List.getElem?_eq_getElem hlt, hall i x _ hx (List.getElem?_eq_getElem hlt)⟩

theorem forall₂_right (h : List.Forall₂ R xs ys) (hy : ys[i]? = some y) : ∃ x, xs[i]? = some x ∧ R x y :=
  forall₂_left h.flip hy

/-- A place past the end is so on both sides. -/
theorem forall₂_none (h : List.Forall₂ R xs ys) (hx : xs[i]? = none) : ys[i]? = none := by
  rw [List.getElem?_eq_none_iff] at hx ⊢
  rw [← h.length_eq]
  exact hx

theorem forall₂_imp (h : List.Forall₂ R xs ys) (himp : ∀ (i : Nat) x y, xs[i]? = some x → ys[i]? = some y → R x y → R' x y) :
    List.Forall₂ R' xs ys := by
  obtain ⟨hlen, hall⟩ := forall₂_iff_getElem?.mp h
  exact forall₂_iff_getElem?.mpr ⟨hlen, fun i x y hx hy => himp i x y hx hy (hall i x y hx hy)⟩

theorem forall₂_set (h : List.Forall₂ R xs ys) (hxy : R' x y)
    (himp : ∀ (j : Nat) x y, j ≠ i → xs[j]? = some x → ys[j]? = some y → R x y → R' x y) :
    List.Forall₂ R' (xs.set i x) (ys.set i y) := by
  obtain ⟨hlen, hall⟩ := forall₂_iff_getElem?.mp h
  refine forall₂_iff_getElem?.mpr ⟨by rw [List.length_set, List.length_set, hlen], ?_⟩
  intro j x' y' hx hy
  rcases set_cases hx with ⟨rfl, rfl⟩ | ⟨hj, hx⟩ <;> rcases set_cases hy with ⟨hj', rfl⟩ | ⟨hj', hy⟩
  · exact hxy
  · exact absurd rfl hj'
  · exact absurd hj' hj
  · exact himp j x' y' hj hx hy (hall j x' y' hx hy)

theorem forall₂_snoc (h : List.Forall₂ R xs ys) (hxy : R x y) : List.Forall₂ R (xs ++ [x]) (ys ++ [y]) :=
  List.rel_append h (.cons hxy .nil)

end Amcrypt.Lib
