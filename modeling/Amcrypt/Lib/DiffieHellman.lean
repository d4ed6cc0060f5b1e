/-
  Amcrypt.Lib.DiffieHellman — what an adversary can derive where parties exchange powers and
  encrypt under keys derived from what they share.

  Terms are free but for the exchange, which is commutative: what two names share is their
  unordered pair. With an exponent and any power the adversary exchanges; it derives keys,
  encrypts, and decrypts under keys it has (`Derives`). `Safe lost` is what it can reach at
  most, if `lost` are the exponents, keys and payloads given up: it is closed under every
  rule (`Derives.safe`).
-/

import Mathlib.Data.Sym.Sym2

namespace Amcrypt.Lib.DiffieHellman

/-- Terms over names `N` of exponents, public values `D` and payloads `P`. -/
inductive Term (N D P : Type) where
  | exponent (n : N)
  | power (n : N)
  | shared (s : Sym2 N)
  | kdf (t : Term N D P)
  | payload (p : P)
  | enc (k : Term N D P) (nonce : D) (p : Term N D P)

variable {N D P : Type}

inductive Derives (known : Term N D P → Prop) : Term N D P → Prop
  | known {t} : known t → Derives known t
  | power {n} : Derives known (.exponent n) → Derives known (.power n)
  | exchange {a b} : Derives known (.exponent a) → Derives known (.power b) → Derives known (.shared s(a, b))
  | kdf {t} : Derives known t → Derives known (.kdf t)
  | enc {k p} (nonce) : Derives known k → Derives known p → Derives known (.enc k nonce p)
  | dec {k nonce p} : Derives known (.enc k nonce p) → Derives known k → Derives known p

/-- The key of what `a` and `b` share. -/
def sessionKey (a b : N) : Term N D P := .kdf (.shared s(a, b))

def Safe (lost : Term N D P → Prop) : Term N D P → Prop
  | .exponent n => lost (.exponent n)
  | .power _ => True
  | .shared s => ∃ n ∈ s, lost (.exponent n)
  | .kdf t => Safe lost t ∨ lost (.kdf t)
  | .payload p => lost (.payload p)
  | .enc k _ p => Safe lost k → Safe lost p

theorem Derives.safe {known lost : Term N D P → Prop} (hknown : ∀ t, known t → Safe lost t) {t : Term N D P}
    (h : Derives known t) : Safe lost t := by
  induction h with
  | known ht => exact hknown _ ht
  | power _ _ => trivial
  | @exchange a b _ _ iha _ => exact ⟨a, Sym2.mem_mk_left a b, iha⟩
  | kdf _ ih => exact .inl ih
  | enc nonce _ _ _ ihp => exact fun _ => ihp
  | dec _ _ ih ihk => exact ih ihk

/-- Whoever has either exponent has the key, where powers are known. -/
theorem Derives.sessionKey {known : Term N D P → Prop} (hpower : ∀ n, known (.power n)) {a b : N}
    (h : Derives known (.exponent a) ∨ Derives known (.exponent b)) : Derives known (sessionKey a b) := by
  rcases h with h | h
  · exact .kdf (.exchange h (.known (hpower b)))
  · rw [DiffieHellman.sessionKey, Sym2.eq_swap]
    exact .kdf (.exchange h (.known (hpower a)))

end Amcrypt.Lib.DiffieHellman
