/-
  Amcrypt.Lib.Method — methods of a mutable object, as an effect type.

  A call of a method on an object of type `σ` returns or raises, leaves the object
  changed or not, and makes calls into other code, which are recorded in order
  (`κ`). Raising keeps what was done before: the object's state and the calls made.

  The `_apply` lemmas run a body statement by statement; `bind_ok` and `bind_error` step
  over a statement whose outcome is known, whatever stands in it.
-/

namespace Amcrypt.Lib

/-- What a call leaves behind. -/
structure Out (ε κ σ α : Type) where
  result : Except ε α
  self : σ
  calls : List κ

/-- A method body: from the object to what the call leaves behind. -/
def Method (ε κ σ α : Type) := σ → Out ε κ σ α

variable {ε κ σ α β : Type}

namespace Out

/-- The outcome of a call that came after the calls `cs`. -/
def after (cs : List κ) (o : Out ε κ σ α) : Out ε κ σ α := { o with calls := cs ++ o.calls }

/-- Go on with `f` unless the call raised. -/
def andThen (o : Out ε κ σ α) (f : α → Method ε κ σ β) : Out ε κ σ β :=
  match o.result with
  | .ok a => (f a o.self).after o.calls
  | .error e => ⟨.error e, o.self, o.calls⟩

@[simp] theorem after_result (cs : List κ) (o : Out ε κ σ α) : (o.after cs).result = o.result := rfl
@[simp] theorem after_self (cs : List κ) (o : Out ε κ σ α) : (o.after cs).self = o.self := rfl
@[simp] theorem after_calls (cs : List κ) (o : Out ε κ σ α) : (o.after cs).calls = cs ++ o.calls := rfl
@[simp] theorem after_nil (o : Out ε κ σ α) : o.after [] = o := rfl
@[simp] theorem after_mk (cs cs' : List κ) (r : Except ε α) (s : σ) :
    Out.after cs ⟨r, s, cs'⟩ = ⟨r, s, cs ++ cs'⟩ := rfl

@[simp] theorem andThen_ok (a : α) (s : σ) (cs : List κ) (f : α → Method ε κ σ β) :
    Out.andThen ⟨.ok a, s, cs⟩ f = (f a s).after cs := rfl
@[simp] theorem andThen_error (e : ε) (s : σ) (cs : List κ) (f : α → Method ε κ σ β) :
    Out.andThen ⟨.error e, s, cs⟩ f = ⟨.error e, s, cs⟩ := rfl

end Out

namespace Method

instance : Monad (Method ε κ σ) where
  pure a := fun s => ⟨.ok a, s, []⟩
  bind m f := fun s => (m s).andThen f

def raise (e : ε) : Method ε κ σ α := fun s => ⟨.error e, s, []⟩

def raiseIf (c : Bool) (e : ε) : Method ε κ σ Unit := if c then raise e else pure ()

def get : Method ε κ σ σ := fun s => ⟨.ok s, s, []⟩

def modify (f : σ → σ) : Method ε κ σ Unit := fun s => ⟨.ok (), f s, []⟩

/-- A call into other code. -/
def record (c : κ) : Method ε κ σ Unit := fun s => ⟨.ok (), s, [c]⟩

/-- Return or raise as `r` does. -/
def ofExcept (r : Except ε α) : Method ε κ σ α := fun s => ⟨r, s, []⟩

/-- `try`: run `m` and hand on its result, returned or raised. -/
def attempt (m : Method ε κ σ α) : Method ε κ σ (Except ε α) := fun s =>
  ⟨.ok (m s).result, (m s).self, (m s).calls⟩

/-- `m` as a statement: its value is dropped. -/
def void (m : Method ε κ σ α) : Method ε κ σ Unit := fun s =>
  ⟨(m s).result.map fun _ => (), (m s).self, (m s).calls⟩

/-! ## Running a body -/

@[simp] theorem pure_apply (a : α) (s : σ) : (pure a : Method ε κ σ α) s = ⟨.ok a, s, []⟩ := rfl
@[simp] theorem bind_apply (m : Method ε κ σ α) (f : α → Method ε κ σ β) (s : σ) :
    (m >>= f) s = (m s).andThen f := rfl
@[simp] theorem get_apply (s : σ) : (get : Method ε κ σ σ) s = ⟨.ok s, s, []⟩ := rfl
@[simp] theorem modify_apply (f : σ → σ) (s : σ) : (modify f : Method ε κ σ Unit) s = ⟨.ok (), f s, []⟩ := rfl
@[simp] theorem record_apply (c : κ) (s : σ) : (record c : Method ε κ σ Unit) s = ⟨.ok (), s, [c]⟩ := rfl
@[simp] theorem ofExcept_apply (r : Except ε α) (s : σ) : (ofExcept r : Method ε κ σ α) s = ⟨r, s, []⟩ := rfl
@[simp] theorem attempt_apply (m : Method ε κ σ α) (s : σ) :
    attempt m s = ⟨.ok (m s).result, (m s).self, (m s).calls⟩ := rfl

@[simp] theorem void_self (m : Method ε κ σ α) (s : σ) : (void m s).self = (m s).self := rfl
@[simp] theorem void_calls (m : Method ε κ σ α) (s : σ) : (void m s).calls = (m s).calls := rfl

/-- A statement that returns: the rest runs on the object it left. -/
theorem bind_ok {m : Method ε κ σ α} {f : α → Method ε κ σ β} {s s' : σ} {a : α} {cs : List κ}
    (h : m s = ⟨.ok a, s', cs⟩) : (m >>= f) s = (f a s').after cs := by
  simp [h]

/-- A statement that raises: the rest does not run. -/
theorem bind_error {m : Method ε κ σ α} {f : α → Method ε κ σ β} {s s' : σ} {e : ε} {cs : List κ}
    (h : m s = ⟨.error e, s', cs⟩) : (m >>= f) s = ⟨.error e, s', cs⟩ := by
  simp [h]

end Method

end Amcrypt.Lib
