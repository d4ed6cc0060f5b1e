/-
  Amcrypt.Lib.Streak — the run of equal entries at the end of a log.

  A counter that goes up on `x` and back to zero on anything else holds the streak of
  `x` (`streak_snoc_same`, `streak_snoc_other`). It reached `n` at some time exactly
  when the log contains `n` consecutive `x`: `infix_snoc_iff` says so one entry at a
  time, which is the form an invariant of the counter needs. A log without `n` consecutive
  `x` has at most `n - 1` of them before each other entry and at its end (`count_le`), and
  `rounds` has as many.
-/

import Mathlib.Data.List.Infix
import Mathlib.Data.List.TakeWhile

namespace Amcrypt.Lib

variable {α : Type} [DecidableEq α]

/-- How many entries at the end of the log are `x`. -/
def streak (x : α) (log : List α) : Nat := (log.reverse.takeWhile (· = x)).length

@[simp] theorem streak_nil (x : α) : streak x [] = 0 := rfl

@[simp] theorem streak_snoc_same (x : α) (log : List α) : streak x (log ++ [x]) = streak x log + 1 := by
  simp [streak]

theorem streak_snoc_other {x y : α} (h : y ≠ x) (log : List α) : streak x (log ++ [y]) = 0 := by
  simp [streak, h]

theorem replicate_suffix_iff {x : α} {n : Nat} {log : List α} :
    List.replicate n x <:+ log ↔ n ≤ streak x log := by
  induction log using List.reverseRecOn generalizing n with
  | nil => cases n <;> simp [List.replicate_succ]
  | append_singleton log y ih =>
    cases n with
    | zero => simp
    | succ n =>
      rw [List.replicate_succ', List.suffix_concat_iff]
      by_cases h : y = x
      · subst h
        simp [ih]
      · rw [streak_snoc_other h]
        simp [Ne.symm h]

/-- `n` consecutive `x` are in the longer log if they were before, or are at its end. -/
theorem infix_snoc_iff {x y : α} {n : Nat} {log : List α} :
    List.replicate n x <:+: log ++ [y] ↔ List.replicate n x <:+: log ∨ n ≤ streak x (log ++ [y]) := by
  rw [List.infix_concat_iff, replicate_suffix_iff, or_comm]

/-! ## How many in all -/

theorem streak_lt {x : α} {n : Nat} {log : List α} (h : ¬ List.replicate n x <:+: log) : streak x log < n := by
  by_contra hlong
  apply h
  have hend : List.replicate n x <:+ log := replicate_suffix_iff.mpr (by omega)
  exact hend.isInfix

theorem count_le {x : α} {n : Nat} {log : List α} (h : ¬ List.replicate n x <:+: log) :
    log.count x ≤ log.countP (· ≠ x) * (n - 1) + streak x log := by
  induction log using List.reverseRecOn with
  | nil => simp
  | append_singleton log y ih =>
    have hpast : ¬ List.replicate n x <:+: log := fun hin => h (infix_snoc_iff.mpr (.inl hin))
    have hcount := ih hpast
    have hlast := streak_lt hpast
    by_cases hy : y = x
    · subst hy
      simp only [List.count_append, List.count_singleton_self, List.countP_append, streak_snoc_same, ne_eq,
        List.countP_singleton, decide_not, decide_true, Bool.not_true, Bool.false_eq_true, if_false, Nat.add_zero] at hcount ⊢
      omega
    · rw [streak_snoc_other hy]
      have hother : (log ++ [y]).countP (· ≠ x) = log.countP (· ≠ x) + 1 := by simp [hy]
      have hsame : (log ++ [y]).count x = log.count x := by simp [hy]
      rw [hother, hsame, Nat.add_mul]
      omega

/-- `k` times: as many `x` in a row as there may be, and a `y`. -/
def rounds (x y : α) (n : Nat) : Nat → List α
  | 0 => []
  | k + 1 => rounds x y n k ++ List.replicate (n - 1) x ++ [y]

theorem count_rounds {x y : α} (hxy : y ≠ x) (n k : Nat) :
    (rounds x y n k).count x = k * (n - 1) ∧ (rounds x y n k).count y = k := by
  induction k with
  | zero => simp [rounds]
  | succ k ih =>
    obtain ⟨hx, hy⟩ := ih
    have hno : (List.replicate (n - 1) x).count y = 0 := List.count_eq_zero.mpr fun h => hxy (List.eq_of_mem_replicate h)
    refine ⟨?_, ?_⟩
    · rw [rounds, List.count_append, List.count_append, hx, List.count_replicate_self, Nat.add_mul]
      simp [hxy]
    · rw [rounds, List.count_append, List.count_append, hy, hno]
      simp

/-- Fewer than `n` more. -/
theorem not_infix_replicate {x : α} {n m : Nat} {log : List α} (h : ¬ List.replicate n x <:+: log)
    (hm : streak x log + m < n) : ¬ List.replicate n x <:+: log ++ List.replicate m x := by
  induction m generalizing log with
  | zero => simpa using h
  | succ m ih =>
    rw [List.replicate_succ, ← List.singleton_append, ← List.append_assoc]
    have hstreak := streak_snoc_same x log
    apply ih
    · rw [infix_snoc_iff]
      rintro (hin | hend)
      · exact h hin
      · omega
    · omega

theorem not_infix_rounds {x y : α} (hxy : y ≠ x) {n : Nat} (hn : 0 < n) (k : Nat) :
    streak x (rounds x y n k) = 0 ∧ ¬ List.replicate n x <:+: rounds x y n k := by
  induction k with
  | zero =>
    refine ⟨rfl, ?_⟩
    rw [rounds, List.infix_nil, List.replicate_eq_nil_iff]
    omega
  | succ k ih =>
    obtain ⟨hstreak, hno⟩ := ih
    have hend := streak_snoc_other hxy (rounds x y n k ++ List.replicate (n - 1) x)
    refine ⟨hend, ?_⟩
    have hlong := not_infix_replicate (m := n - 1) hno (by omega)
    rw [rounds, infix_snoc_iff, hend]
    rintro (hin | hzero)
    · exact hlong hin
    · omega

end Amcrypt.Lib
