/-
  Amcrypt.Lib.Chain — a value that evolves by a step that may fail, and what two
  holders of the same start know of each other.

  `chain f a n` is `a` after `n` steps, if every one of them succeeded. Whoever started
  at `a` and stepped as often is in the same place; under `NoRepeat` the converse holds
  of what can be seen of it (`View`), so a view fixes the position.
-/

import Mathlib.Data.Option.Basic

namespace Amcrypt.Lib

variable {σ β : Type}

/-- `a` after `n` steps. -/
def chain (f : σ → Option σ) (a : σ) : Nat → Option σ
  | 0 => some a
  | n + 1 => (chain f a n).bind f

variable {f : σ → Option σ} {a s s' : σ} {n : Nat}

theorem chain_succ (h : chain f a n = some s) (hs : f s = some s') : chain f a (n + 1) = some s' := by
  rw [chain, h, Option.bind_some, hs]

/-- The chain after one step is the chain from there. -/
theorem chain_cons (hs : f a = some s) (n : Nat) : chain f a (n + 1) = chain f s n := by
  induction n with
  | zero => exact hs
  | succ n ih => rw [chain, ih, chain]

theorem chain_isSome_of_le {m : Nat} (h : (chain f a n).isSome) (hm : m ≤ n) : (chain f a m).isSome := by
  induction n with
  | zero =>
    obtain rfl : m = 0 := by omega
    exact h
  | succ n ih =>
    rcases Nat.le_succ_iff.mp hm with hm | rfl
    · refine ih ?_ hm
      rw [chain] at h
      exact Option.isSome_of_isSome_bind h
    · exact h

/-- Short of the end of the chain there is a next step. -/
theorem chain_next {m : Nat} (h : (chain f a n).isSome) (hs : chain f a m = some s) (hm : m < n) :
    ∃ s', f s = some s' := by
  have := chain_isSome_of_le h hm
  rw [chain, hs, Option.bind_some] at this
  exact Option.isSome_iff_exists.mp this

/-- An invariant of the step holds along the chain. -/
theorem chain_induction {P : Nat → σ → Prop} (h0 : P 0 a)
    (hstep : ∀ n s s', P n s → f s = some s' → P (n + 1) s') (h : chain f a n = some s) : P n s := by
  induction n generalizing s with
  | zero =>
    obtain rfl := Option.some.inj h
    exact h0
  | succ n ih =>
    obtain ⟨t, ht, hs⟩ := Option.bind_eq_some_iff.mp h
    exact hstep n t s (ih ht) hs

/-- No two positions of the chain look the same. -/
def NoRepeat (f : σ → Option σ) (a : σ) (view : σ → β) : Prop :=
  ∀ i j s s', chain f a i = some s → chain f a j = some s' → view s = view s' → i = j

end Amcrypt.Lib
