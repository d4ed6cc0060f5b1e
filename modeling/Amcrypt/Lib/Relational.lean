/-
  Amcrypt.Lib.Relational — methods of two levels compared, by relational triples.

  A relation is between an object of each level and the trace they share, the calls made so
  far. `Relates P m m' Q E`: run on objects that `P` relates, `m` and `m'` make the same
  calls and both return or both raise. What they return, and the objects after, are related
  by `Q`; what they raise is one exception, and the objects after are related by `E`.

  The rules follow the statements of a body. `bind` steps over a statement of both; a
  statement that only the left level has is stepped over by `left`, if it returns, makes no
  call, and keeps the objects related.
-/

import Amcrypt.Lib.Method

namespace Amcrypt.Lib

variable {ε κ σ τ α β γ δ : Type}

/-- Two calls that leave the same trace, after `past`. -/
inductive Out.Relates (past : List κ) (Q : α → β → List κ → σ → τ → Prop) (E : List κ → σ → τ → Prop) :
    Out ε κ σ α → Out ε κ τ β → Prop
  | ok {a : α} {b : β} {s : σ} {t : τ} {cs : List κ} : Q a b (past ++ cs) s t →
      Relates past Q E ⟨.ok a, s, cs⟩ ⟨.ok b, t, cs⟩
  | error {e : ε} {s : σ} {t : τ} {cs : List κ} : E (past ++ cs) s t →
      Relates past Q E ⟨.error e, s, cs⟩ ⟨.error e, t, cs⟩

theorem Out.Relates.after {past cs : List κ} {Q : α → β → List κ → σ → τ → Prop} {E : List κ → σ → τ → Prop}
    {o : Out ε κ σ α} {o' : Out ε κ τ β} (h : Out.Relates (past ++ cs) Q E o o') :
    Out.Relates past Q E (o.after cs) (o'.after cs) := by
  cases h with
  | ok h =>
    rw [List.append_assoc] at h
    exact .ok h
  | error h =>
    rw [List.append_assoc] at h
    exact .error h

/-- The caller sees the same. -/
theorem Out.Relates.result {past : List κ} {Q E : List κ → σ → τ → Prop} {o : Out ε κ σ α} {o' : Out ε κ τ α}
    (h : Out.Relates past (fun a b past s t => a = b ∧ Q past s t) E o o') : o.result = o'.result := by
  cases h with
  | ok h => exact congrArg Except.ok h.1
  | error _ => rfl

namespace Method

def Relates (P : List κ → σ → τ → Prop) (m : Method ε κ σ α) (m' : Method ε κ τ β)
    (Q : α → β → List κ → σ → τ → Prop) (E : List κ → σ → τ → Prop) : Prop :=
  ∀ past s t, P past s t → Out.Relates past Q E (m s) (m' t)

namespace Relates

variable {P P' E : List κ → σ → τ → Prop} {m : Method ε κ σ α} {m' : Method ε κ τ β}
  {R : α → β → List κ → σ → τ → Prop} {Q Q' : γ → δ → List κ → σ → τ → Prop}

theorem bind {f : α → Method ε κ σ γ} {f' : β → Method ε κ τ δ} (hm : Relates P m m' R E)
    (hf : ∀ a b, Relates (R a b) (f a) (f' b) Q E) : Relates P (m >>= f) (m' >>= f') Q E := by
  intro past s t h
  have hx := hm past s t h
  rw [bind_apply, bind_apply]
  generalize m s = o, m' t = o' at hx
  cases hx with
  | ok hr => exact (hf _ _ _ _ _ hr).after
  | error he => exact .error he

/-- A statement that the right level does not have. -/
theorem left {f : α → Method ε κ σ γ} {g : Method ε κ τ δ} {R : α → List κ → σ → τ → Prop}
    (hm : Relates P m (Pure.pure ()) (fun a _ => R a) E) (hf : ∀ a, Relates (R a) (f a) g Q E) :
    Relates P (m >>= f) g Q E := by
  intro past s t h
  have hx := hm past s t h
  rw [bind_apply]
  rw [pure_apply] at hx
  generalize m s = o at hx
  cases hx with
  | ok hr =>
    rw [List.append_nil] at hr
    exact hf _ _ _ _ hr

/-- Statements that the left level has at the end. -/
theorem tail {Q : γ → β → List κ → σ → τ → Prop} {f : α → Method ε κ σ γ} (hm : Relates P m m' R E)
    (hf : ∀ a b, Relates (R a b) (f a) (Pure.pure b : Method ε κ τ β) Q E) : Relates P (m >>= f) m' Q E := by
  intro past s t h
  have hx := hm past s t h
  rw [bind_apply]
  generalize m s = o, m' t = o' at hx
  cases hx with
  | @ok a b s t cs hr =>
    have hy := (hf a b _ s t hr).after
    have hpure : ((Pure.pure b : Method ε κ τ β) t).after cs = ⟨.ok b, t, cs⟩ := by simp
    rw [hpure] at hy
    exact hy
  | error he => exact .error he

theorem mono {n : Method ε κ σ γ} {n' : Method ε κ τ δ} (h : Relates P n n' Q E)
    (hp : ∀ past s t, P' past s t → P past s t) (hq : ∀ a b past s t, Q a b past s t → Q' a b past s t) :
    Relates P' n n' Q' E := by
  intro past s t hs
  have hx := h past s t (hp past s t hs)
  generalize n s = o, n' t = o' at hx
  cases hx with
  | ok hx => exact .ok (hq _ _ _ _ _ hx)
  | error he => exact .error he

/-- A fact that holds whatever the objects are. -/
theorem fact {p : Prop} (h : p → Relates P m m' R E) : Relates (fun past s t => p ∧ P past s t) m m' R E :=
  fun past s t hs => h hs.1 past s t hs.2

/-- Nothing is related that could be run. -/
theorem absurd (h : ∀ past s t, ¬ P past s t) : Relates P m m' R E := fun past s t hs => (h past s t hs).elim

theorem pure {a : α} {b : β} (h : ∀ past s t, P past s t → R a b past s t) :
    Relates P (Pure.pure a : Method ε κ σ α) (Pure.pure b : Method ε κ τ β) R E := by
  intro past s t hs
  refine .ok ?_
  rw [List.append_nil]
  exact h past s t hs

theorem raise (e : ε) (h : ∀ past s t, P past s t → E past s t) :
    Relates P (Method.raise e : Method ε κ σ α) (Method.raise e : Method ε κ τ β) R E := by
  intro past s t hs
  refine .error ?_
  rw [List.append_nil]
  exact h past s t hs

/-- What both read is related. -/
theorem get : Relates P (Method.get : Method ε κ σ σ) (Method.get : Method ε κ τ τ)
    (fun a b past s t => P past s t ∧ a = s ∧ b = t) E := by
  intro past s t hs
  refine .ok ⟨?_, rfl, rfl⟩
  rw [List.append_nil]
  exact hs

/-- What both read of their objects is the same. -/
theorem gets {f : σ → α} {g : τ → α} {k : α → Method ε κ σ γ} {l : α → Method ε κ τ δ}
    (hsame : ∀ past s t, P past s t → f s = g t) (hk : ∀ a, Relates P (k a) (l a) Q E) :
    Relates P (Method.get >>= fun s => k (f s)) (Method.get >>= fun t => l (g t)) Q E := by
  intro past s t hs
  rw [bind_apply, bind_apply, get_apply, get_apply, Out.andThen_ok, Out.andThen_ok, Out.after_nil, Out.after_nil,
    hsame past s t hs]
  exact hk (g t) past s t hs

theorem raiseIf (c : Bool) (e : ε) (h : ∀ past s t, P past s t → E past s t) :
    Relates P (Method.raiseIf c e : Method ε κ σ Unit) (Method.raiseIf c e : Method ε κ τ Unit) (fun _ _ => P) E := by
  cases c with
  | true => exact .raise e h
  | false => exact .pure fun _ _ _ hs => hs

theorem modify {f : σ → σ} {f' : τ → τ} (h : ∀ past s t, P past s t → P' past (f s) (f' t)) :
    Relates P (Method.modify f : Method ε κ σ Unit) (Method.modify f') (fun _ _ => P') E := by
  intro past s t hs
  refine .ok ?_
  rw [List.append_nil]
  exact h past s t hs

theorem record {c : κ} (h : ∀ past s t, P past s t → P' (past ++ [c]) s t) :
    Relates P (Method.record c : Method ε κ σ Unit) (Method.record c) (fun _ _ => P') E :=
  fun past s t hs => .ok (h past s t hs)

theorem ofExcept (r : Except ε α) (h : ∀ past s t, P past s t → E past s t) :
    Relates P (Method.ofExcept r : Method ε κ σ α) (Method.ofExcept r : Method ε κ τ α)
      (fun a b past s t => (a = b ∧ r = .ok a) ∧ P past s t) E := by
  intro past s t hs
  rw [ofExcept_apply, ofExcept_apply]
  cases r with
  | ok a =>
    refine .ok ⟨⟨rfl, rfl⟩, ?_⟩
    rw [List.append_nil]
    exact hs
  | error e =>
    refine .error ?_
    rw [List.append_nil]
    exact h past s t hs

/-- What a `try` hands on, on both levels. -/
def Tried (R : α → β → List κ → σ → τ → Prop) (E : List κ → σ → τ → Prop) :
    Except ε α → Except ε β → List κ → σ → τ → Prop
  | .ok a, .ok b => R a b
  | .error e, .error e' => fun past s t => e = e' ∧ E past s t
  | _, _ => fun _ _ _ => False

/-- A `try` on both levels: both return, or both raise one exception. -/
theorem attempt {E' : List κ → σ → τ → Prop} (h : Relates P m m' R E') :
    Relates P (Method.attempt m) (Method.attempt m') (Tried R E') E := by
  intro past s t hs
  have hx := h past s t hs
  rw [attempt_apply, attempt_apply]
  generalize m s = o, m' t = o' at hx
  cases hx with
  | ok hx => exact .ok hx
  | error he => exact .ok ⟨rfl, he⟩

end Relates

end Method

end Amcrypt.Lib
