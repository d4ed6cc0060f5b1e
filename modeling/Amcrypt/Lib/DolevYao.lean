/-
  Amcrypt.Lib.DolevYao — what an adversary can derive from terms, where encryption opens
  only with its key and a one-way function goes one way.

  Terms are free: two are equal only if they are built alike. The adversary knows every
  public value, pairs and takes pairs apart, applies the one-way function, encrypts, and
  decrypts under keys it has derived (`Derives`).

  `Safe leaked` is an over-approximation of what it can ever hold, read off the term: a
  name or an image of the one-way function is in reach if it has leaked, a ciphertext
  gives away its plaintext if its key is in reach. It is closed under every rule, so
  whatever is derived from safe terms is safe (`Derives.safe`): to show that a term is out
  of reach, show that it is not.
-/

namespace Amcrypt.Lib.DolevYao

/-- Terms over names `N`, public values `D` and indices `I` of the one-way function. -/
inductive Term (N D I : Type) where
  | name (n : N)
  | data (d : D)
  | pair (a b : Term N D I)
  | oneWay (k : Term N D I) (i : I)
  | enc (k : Term N D I) (nonce : D) (p : Term N D I)

variable {N D I : Type}

inductive Derives (known : Term N D I → Prop) : Term N D I → Prop
  | known {t} : known t → Derives known t
  | data (d) : Derives known (.data d)
  | pair {a b} : Derives known a → Derives known b → Derives known (.pair a b)
  | fst {a b} : Derives known (.pair a b) → Derives known a
  | snd {a b} : Derives known (.pair a b) → Derives known b
  | oneWay {k} (i) : Derives known k → Derives known (.oneWay k i)
  | enc {k p} (nonce) : Derives known k → Derives known p → Derives known (.enc k nonce p)
  | dec {k nonce p} : Derives known (.enc k nonce p) → Derives known k → Derives known p

/-- In reach, if what has `leaked` is. -/
def Safe (leaked : Term N D I → Prop) : Term N D I → Prop
  | .name n => leaked (.name n)
  | .data _ => True
  | .pair a b => Safe leaked a ∧ Safe leaked b
  | .oneWay k i => Safe leaked k ∨ leaked (.oneWay k i)
  | .enc k _ p => Safe leaked k → Safe leaked p

theorem Derives.safe {known leaked : Term N D I → Prop} (hknown : ∀ t, known t → Safe leaked t) {t : Term N D I}
    (h : Derives known t) : Safe leaked t := by
  induction h with
  | known ht => exact hknown _ ht
  | data d => trivial
  | pair _ _ iha ihb => exact ⟨iha, ihb⟩
  | fst _ ih => exact ih.1
  | snd _ ih => exact ih.2
  | oneWay i _ ih => exact .inl ih
  | enc nonce _ _ _ ihp => exact fun _ => ihp
  | dec _ _ ih ihk => exact ih ihk

end Amcrypt.Lib.DolevYao
