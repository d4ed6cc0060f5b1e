/-
  Amcrypt.Lib.Expiry — calls whose outcome depends on the clock through one limit.

  A call that is given the time `Expires` if it ends in one way up to some limit and as
  expired from then on, or in one way at all times. The rules go along a method body: a
  statement that is not given the time may stand before (`bind`) or, if it leaves the
  object as it is, behind (`andThen`). What such a call returns it returns at every
  earlier time, and it never returns anything else (`returns`, `unique`).
-/

import Amcrypt.Lib.Method
import Mathlib.Order.Lattice

namespace Amcrypt.Lib

variable {ε κ σ α β τ δ : Type} [LinearOrder τ] {limit : δ → τ} {expired : δ → ε}

/-- The outcome at each time. Expired, the call leaves the object as it would have, and has
    made no other calls. -/
inductive Expires (limit : δ → τ) (expired : δ → ε) : (τ → Out ε κ σ α) → Prop
  | never (o : Out ε κ σ α) : Expires limit expired fun _ => o
  | past (d : δ) (o late : Out ε κ σ α) : late.result = .error (expired d) → late.self = o.self →
      late.calls <+: o.calls → Expires limit expired fun now => if limit d < now then late else o

namespace Expires

variable {f : τ → Out ε κ σ α}

theorem after (h : Expires limit expired f) (cs : List κ) : Expires limit expired fun now => (f now).after cs := by
  cases h with
  | never o => exact .never (o.after cs)
  | past d o late hresult hself hcalls =>
    have hsame : (fun now => (if limit d < now then late else o).after cs) =
        fun now => if limit d < now then late.after cs else o.after cs := by
      funext now
      split <;> rfl
    rw [hsame]
    exact .past d (o.after cs) (late.after cs) hresult hself ((List.prefix_append_right_inj cs).mpr hcalls)

/-- A statement that is not given the time, before. -/
theorem bind (m : Method ε κ σ α) (s : σ) {g : τ → α → Method ε κ σ β}
    (h : ∀ a s, Expires limit expired fun now => g now a s) : Expires limit expired fun now => (m >>= g now) s := by
  simp only [Method.bind_apply, Out.andThen]
  cases (m s).result with
  | ok a => exact (h a (m s).self).after (m s).calls
  | error e => exact .never _

/-- And behind: it does not run once the call has expired. -/
theorem andThen {m : τ → Method ε κ σ α} {s : σ} (h : Expires limit expired fun now => m now s) {g : α → Method ε κ σ β}
    (hself : ∀ a s, (g a s).self = s) : Expires limit expired fun now => (m now >>= g) s := by
  simp only [Method.bind_apply]
  generalize hf : (fun now => m now s) = f at h
  have hm : (fun now => (m now s).andThen g) = fun now => (f now).andThen g := by rw [← hf]
  rw [hm]
  cases h with
  | never o => exact .never _
  | past d o late hresult hsame hcalls =>
    have hbranch : (fun now => (if limit d < now then late else o).andThen g) =
        fun now => if limit d < now then late.andThen g else o.andThen g := by
      funext now
      split <;> rfl
    have hkept : (o.andThen g).self = o.self := by
      unfold Out.andThen
      split
      · exact hself _ _
      · rfl
    have hmore : o.calls <+: (o.andThen g).calls := by
      unfold Out.andThen
      split
      · exact List.prefix_append _ _
      · exact List.prefix_refl _
    have hlate : late.andThen g = ⟨.error (expired d), late.self, late.calls⟩ := by
      unfold Out.andThen
      rw [hresult]
    rw [hbranch, hlate]
    exact .past d _ _ rfl (hsame.trans hkept.symm) (hcalls.trans hmore)

/-- What is returned is returned at every earlier time. -/
theorem returns (h : Expires limit expired f) {a : α} {t t' : τ} (hle : t' ≤ t) (hr : (f t).result = .ok a) :
    (f t').result = .ok a := by
  cases h with
  | never o => exact hr
  | past d o late hresult _ _ =>
    by_cases hpast : limit d < t
    · simp [hpast, hresult] at hr
    · have hpast' : ¬ limit d < t' := fun hlt => hpast (lt_of_lt_of_le hlt hle)
      simpa [hpast, hpast'] using hr

theorem unique (h : Expires limit expired f) {a b : α} {t t' : τ} (ha : (f t).result = .ok a)
    (hb : (f t').result = .ok b) : a = b := by
  rcases le_total t t' with hle | hle
  · have hb' := h.returns hle hb
    exact Except.ok.inj (ha.symm.trans hb')
  · have ha' := h.returns hle ha
    exact Except.ok.inj (ha'.symm.trans hb)

end Expires

end Amcrypt.Lib
