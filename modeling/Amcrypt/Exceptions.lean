/-
  Amcrypt.Exceptions — what a call can raise (`amcrypt/exceptions.py`, and the
  exceptions of the code it calls).

  `PyErr.amcrypt` is the library's own hierarchy: one kind for each subclass of
  `amcryptError`, with the message it is raised with (every raise in the source
  passes one, so the default messages are left out). The rest come from below:
  `InvalidTag` and `ValueError` from AES-GCM, `struct.error` from a field too narrow
  for its value, `zlib.error`, and whatever pickle or a key parser raises.
-/

namespace Amcrypt

/-- The subclasses of `amcryptError`. -/
inductive AmcryptError where
  | mutilatedCorpse
  | corpseDelivery
  | wrongRealm
  | rottenCorpse
  | brokenPact
  | soulTrapped
  | selfDestruct
  deriving DecidableEq, Repr

inductive PyErr where
  | amcrypt (kind : AmcryptError) (message : String)
  | invalidTag
  | valueError (message : String)
  | structError
  | zlibError
  | typeError
  | assertionError
  /-- Anything else a call into other code raises. -/
  | other (name : String)
  deriving DecidableEq, Repr

def mutilatedCorpseError (message : String) : PyErr := .amcrypt .mutilatedCorpse message
def corpseDeliveryError (message : String) : PyErr := .amcrypt .corpseDelivery message
def wrongRealmError (message : String) : PyErr := .amcrypt .wrongRealm message
def rottenCorpseError (message : String) : PyErr := .amcrypt .rottenCorpse message
def brokenPactError (message : String) : PyErr := .amcrypt .brokenPact message
def soulTrappedError (message : String) : PyErr := .amcrypt .soulTrapped message
def selfDestructError (message : String) : PyErr := .amcrypt .selfDestruct message

/-- The exception is an `amcryptError` of this kind. -/
def PyErr.isA (e : PyErr) (kind : AmcryptError) : Bool :=
  match e with
  | .amcrypt k _ => k == kind
  | _ => false

/-! ## Raising and returning -/

section
variable {ε α β : Type}

@[simp] theorem pure_eq_ok (a : α) : (pure a : Except ε α) = .ok a := rfl
@[simp] theorem ok_bind (a : α) (f : α → Except ε β) : (Except.ok a >>= f) = f a := rfl
@[simp] theorem error_bind (e : ε) (f : α → Except ε β) : (Except.error e >>= f) = .error e := rfl

/-- The call returns. -/
def Returns (m : Except ε α) : Prop := ∃ a, m = .ok a

theorem returns_ok (a : α) : Returns (.ok a : Except ε α) := ⟨a, rfl⟩

theorem not_returns_error (e : ε) : ¬ Returns (.error e : Except ε α) := by
  intro hx
  obtain ⟨a, h⟩ := hx
  cases h

/-- What a sequence can raise: what its first half can, and its second on what that returned. -/
theorem bind_errors {m : Except ε α} {f : α → Except ε β} {P : ε → Prop} :
    (∀ e, (m >>= f) = .error e → P e) ↔
      (∀ e, m = .error e → P e) ∧ ∀ a, m = .ok a → ∀ e, f a = .error e → P e := by
  cases m <;> simp

theorem bind_eq_ok {m : Except ε α} {f : α → Except ε β} {b : β} :
    (m >>= f) = .ok b ↔ ∃ a, m = .ok a ∧ f a = .ok b := by
  cases m <;> simp

end

end Amcrypt
