/-
  Amcrypt.Lib.Correspondence — correspondence between the events of a trace: every
  event that ends something is preceded by one that began it.

  `ends` and `begins` say which events concern `x`. A correspondence holds of every
  prefix of a trace that has it (`of_append`), and is extended one event at a time
  (`snoc`): that is the form in which a run lemma uses it.
-/

import Mathlib.Data.List.Induction

namespace Amcrypt.Lib

variable {κ α : Type} {ends begins : κ → α → Prop}

/-- In `tr`, whatever ends was begun before. -/
def Corresponds (ends begins : κ → α → Prop) (tr : List κ) : Prop :=
  ∀ pre e post, tr = pre ++ e :: post → ∀ x, ends e x → ∃ b ∈ pre, begins b x

namespace Corresponds

theorem nil : Corresponds ends begins [] := by
  intro pre e post h
  simp at h

theorem of_append {tr tr' : List κ} (h : Corresponds ends begins (tr ++ tr')) : Corresponds ends begins tr := by
  intro pre e post htr
  exact h pre e (post ++ tr') (by simp [htr])

/-- The event at the end of a piece of the trace was begun before that piece, or in it. -/
theorem begun {tr : List κ} {e : κ} {tr' : List κ} (h : Corresponds ends begins (tr ++ e :: tr')) {x : α}
    (he : ends e x) : ∃ b ∈ tr, begins b x :=
  h tr e tr' rfl x he

theorem snoc {tr : List κ} {e : κ} (h : Corresponds ends begins tr) (he : ∀ x, ends e x → ∃ b ∈ tr, begins b x) :
    Corresponds ends begins (tr ++ [e]) := by
  intro pre e' post htr x hx
  rcases List.eq_nil_or_concat post with rfl | ⟨post, l, rfl⟩
  · obtain ⟨rfl, h1⟩ := List.append_inj' htr rfl
    obtain rfl : e = e' := by simpa using h1
    exact he x hx
  · rw [List.concat_eq_append, ← List.cons_append, ← List.append_assoc] at htr
    obtain ⟨rfl, -⟩ := List.append_inj' htr rfl
    exact h pre e' post rfl x hx

/-- A piece of trace in which nothing ends. -/
theorem append {tr tr' : List κ} (h : Corresponds ends begins tr) (h' : ∀ e ∈ tr', ∀ x, ¬ ends e x) :
    Corresponds ends begins (tr ++ tr') := by
  induction tr' using List.reverseRecOn with
  | nil => simpa using h
  | append_singleton tr' e ih =>
    rw [← List.append_assoc]
    refine (ih fun e he => h' e (List.mem_append_left _ he)).snoc ?_
    intro x hx
    exact absurd hx (h' e (List.mem_append_right _ List.mem_cons_self) x)

end Corresponds

end Amcrypt.Lib
