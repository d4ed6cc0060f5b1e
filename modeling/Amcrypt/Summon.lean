/-
  Amcrypt.Summon — from a password to the object, in another session (`summon_key` of
  `__init__.py` and `derive_key` of `crypto.py`).

  A key is never stored: a session makes it anew from the password and the salt, and has
  an instance of its own, with its own limit and its own history. `summoned_again`: where
  Scrypt tells the two inputs apart, the second session's `revive` gives the object that the
  first killed exactly if it was given the password and the salt of the first, character by
  character; with any other it counts a forgery, and the limit of the second session's
  instance applies.

  Of the two steps before AES-GCM, UTF-8 loses nothing: it takes distinct passwords to
  distinct bytes (`encodeUtf8_injective`). Scrypt is a parameter, of which it is assumed that
  it does not collide on the two inputs at hand. It does on some: it keys HMAC with the
  password, and HMAC fills a short key up with zeros, so a password and the same with NULs
  behind it make one key, and of such a pair `summoned_again` says nothing.
-/

import Amcrypt.Core.KillSwitch
import Amcrypt.Core.RoundTrip

namespace Amcrypt.Summon

open Lib Amcrypt.Core

/-- A character of a `str`: a Unicode scalar value, or one from U+D800 to U+DFFF. -/
inductive PyChar where
  | scalar (c : Char)
  | surrogate (n : Fin 2048)
  deriving DecidableEq

abbrev PyStr := List PyChar

/-- `password.encode("utf-8")`, which takes no surrogates. -/
def encodeUtf8 : PyStr → Except PyErr Bytes
  | [] => pure []
  | .scalar c :: password => do
    let rest ← encodeUtf8 password
    pure (String.utf8EncodeChar c ++ rest)
  | .surrogate _ :: _ => throw (.other "UnicodeEncodeError")

-- `Scrypt(salt, length=32, n=2**20, r=8, p=1).derive(password)`.
variable (scrypt : (salt password : Bytes) → Key)

def deriveKey (password : PyStr) (salt : Bytes) : Except PyErr Key := do
  let password ← encodeUtf8 password
  pure (scrypt salt password)

/-- The salt that `summon_key` works with; `drawn` is what `os.urandom(32)` gives. -/
def saltOf (salt : Option Bytes) (generateSalt : Bool) (drawn : Block 32) : Except PyErr Bytes :=
  match salt with
  | some salt => pure salt
  | none =>
    if !generateSalt then throw (.valueError "A salt is required. Pass salt= or use generate_salt=True")
    else pure drawn.val

def summonKey (password : PyStr) (salt : Option Bytes) (generateSalt : Bool) (drawn : Block 32) :
    Except PyErr (Key × Bytes) := do
  let salt ← saltOf salt generateSalt drawn
  let key ← deriveKey scrypt password salt
  pure (key, salt)

/-- A session: `key, salt = summon_key(...)` and `Necromancer(key, ...)`. -/
def session (password : PyStr) (salt : Option Bytes) (generateSalt : Bool) (drawn : Block 32) (antiDebug : Bool)
    (maxTamper : Int) : Except PyErr (Necromancer × Bytes) := do
  let (key, salt) ← summonKey scrypt password salt generateSalt drawn
  let self ← Necromancer.new key.val antiDebug maxTamper
  pure (self, salt)

/-! ## Passwords as bytes -/

theorem encodeUtf8_ok_iff {password : PyStr} {bytes : Bytes} :
    encodeUtf8 password = .ok bytes ↔
      ∃ cs : List Char, password = cs.map .scalar ∧ bytes = cs.flatMap String.utf8EncodeChar := by
  induction password generalizing bytes with
  | nil => simp [encodeUtf8, eq_comm]
  | cons x password ih =>
    cases x with
    | surrogate n =>
      have hraise : encodeUtf8 (.surrogate n :: password) = .error (.other "UnicodeEncodeError") := rfl
      rw [hraise]
      refine ⟨nofun, ?_⟩
      rintro ⟨_ | ⟨c, cs⟩, hcs, -⟩ <;> cases hcs
    | scalar c =>
      simp only [encodeUtf8, bind_eq_ok, ih, pure_eq_ok]
      refine ⟨?_, ?_⟩
      · rintro ⟨_, ⟨cs, rfl, rfl⟩, h⟩
        exact ⟨c :: cs, rfl, (Except.ok.inj h).symm⟩
      · rintro ⟨_ | ⟨c', cs⟩, hcs, rfl⟩
        · cases hcs
        · obtain ⟨hc, hrest⟩ := List.cons.inj hcs
          obtain rfl := PyChar.scalar.inj hc
          exact ⟨_, ⟨cs, hrest, rfl⟩, rfl⟩

/-- UTF-8 is a code: no two passwords have the same bytes. -/
theorem encodeUtf8_injective {password password' : PyStr} {bytes : Bytes} (h : encodeUtf8 password = .ok bytes)
    (h' : encodeUtf8 password' = .ok bytes) : password = password' := by
  obtain ⟨cs, rfl, rfl⟩ := encodeUtf8_ok_iff.mp h
  obtain ⟨cs', rfl, hbytes⟩ := encodeUtf8_ok_iff.mp h'
  have hutf8 : cs.utf8Encode = cs'.utf8Encode := congrArg List.toByteArray hbytes
  have hstring : String.ofList cs = String.ofList cs' := by
    rw [← String.toByteArray_inj, String.toByteArray_ofList, String.toByteArray_ofList, hutf8]
  rw [String.ofList_injective hstring]

/-! ## Two sessions -/

variable {scrypt} {B : Backend}

theorem deriveKey_ok_iff {password : PyStr} {salt : Bytes} {key : Key} :
    deriveKey scrypt password salt = .ok key ↔
      ∃ bytes, encodeUtf8 password = .ok bytes ∧ key = scrypt salt bytes := by
  rw [deriveKey, bind_eq_ok]
  refine exists_congr fun bytes => and_congr_right fun _ => ?_
  rw [pure_eq_ok, Except.ok.injEq, eq_comm]

/-- What a session begins with: a salt, given or drawn, and a fresh instance with the key made of both. -/
theorem session_ok_iff {password : PyStr} {salt : Option Bytes} {generateSalt : Bool} {drawn : Block 32}
    {antiDebug : Bool} {maxTamper : Int} {self : Necromancer} {used : Bytes} :
    session scrypt password salt generateSalt drawn antiDebug maxTamper = .ok (self, used) ↔
      saltOf salt generateSalt drawn = .ok used ∧
        ∃ bytes, encodeUtf8 password = .ok bytes ∧ self = .fresh (scrypt used bytes) antiDebug maxTamper := by
  simp only [session, summonKey, bind_eq_ok, deriveKey_ok_iff, pure_eq_ok, new_eq_fresh]
  refine ⟨?_, ?_⟩
  · rintro ⟨_, ⟨s, hs, key, ⟨bytes, hbytes, rfl⟩, heq⟩, self', hself, hout⟩
    obtain rfl := Except.ok.inj heq
    obtain rfl := Except.ok.inj hself
    obtain ⟨rfl, rfl⟩ := Prod.mk.inj (Except.ok.inj hout)
    exact ⟨hs, bytes, hbytes, rfl⟩
  · rintro ⟨hs, bytes, hbytes, rfl⟩
    exact ⟨_, ⟨used, hs, _, ⟨bytes, hbytes, rfl⟩, rfl⟩, _, rfl, rfl⟩

/-- An envelope in the hands of a live instance with another key: its tag is refused, and counted. -/
theorem revive_apart {obj : B.Obj} {o : KillOptions} {d : Draws} {now : ℚ} {key key' : Key} {pickled p E : Bytes}
    (h : Killed B obj o d now key pickled p E) (htag : B.AesTagged) (hverdict : B.AesVerdict)
    (hapart : B.AesApart key key') {verifyKey : Option Bytes} (hsigned : o.signingKey.isSome → verifyKey.isSome)
    {w : World} {self : Necromancer} (hw : (self.antiDebug && w.debugging) = false) (halive : self.destroyed = false)
    (hkey : self.key = some key') :
    (revive B E ⟨o.hwid, o.stealth, verifyKey⟩ w self).result = .error (self.tamperError o.hwid) ∧
      (revive B E ⟨o.hwid, o.stealth, verifyKey⟩ w self).self = self.tampered := by
  have hreach : Reaches E ⟨o.hwid, o.stealth, verifyKey⟩ w self key' d.nonce.val
      (B.gcmEncrypt key d.nonce.val p o.hwid) (envelopeFlags o) :=
    ⟨hw, pack_not_pill h.packed, halive, h.unpack htag, preCheck_killed hsigned, hkey⟩
  have hrefused : B.gcmDecrypt key' d.nonce.val (B.gcmEncrypt key d.nonce.val p o.hwid) o.hwid = .error .invalidTag := by
    cases hopen : B.gcmDecrypt key' d.nonce.val (B.gcmEncrypt key d.nonce.val p o.hwid) o.hwid with
    | ok p' => exact absurd hopen (hapart d.nonce p o.hwid p')
    | error e => rw [hverdict key' d.nonce _ _ e hopen]
  rw [revive_reaches hreach, hrefused, judge_tag]
  exact ⟨rfl, rfl⟩

/-- Whatever happened to either instance before, and given two inputs on which Scrypt does not
    collide: the second session has the object exactly if it has the password and the salt of
    the first; otherwise its instance counts a forgery. -/
theorem summoned_again (hpickle : B.PickleInverts) (hzlib : B.ZlibInverts) (haes : B.AesInverts)
    (htag : B.AesTagged) (hverdict : B.AesVerdict) {password password' : PyStr} {salt salt' : Option Bytes}
    {generateSalt generateSalt' : Bool} {drawn drawn' : Block 32} {antiDebug antiDebug' : Bool}
    {maxTamper maxTamper' : Int} {self self' : Necromancer} {used used' : Bytes}
    (hfirst : session scrypt password salt generateSalt drawn antiDebug maxTamper = .ok (self, used))
    (hsecond : session scrypt password' salt' generateSalt' drawn' antiDebug' maxTamper' = .ok (self', used'))
    (hscrypt : ∀ bytes bytes', encodeUtf8 password = .ok bytes → encodeUtf8 password' = .ok bytes' →
      scrypt used bytes = scrypt used' bytes' → used = used' ∧ bytes = bytes')
    (hapart : ∀ key key', self.key = some key → self'.key = some key' → key ≠ key' → B.AesApart key key')
    (ops ops' : List (Op B)) {obj : B.Obj} {o : KillOptions} {d : Draws} {now : ℚ} {E : Bytes}
    (hE : (kill B obj o d now (history self ops).1).result = .ok E) {verifyKey : Option Bytes}
    (hv : Verifies B o verifyKey) {w : World} (hfresh : Fresh o now w.now)
    (halive : (history self' ops').1.destroyed = false) (hw : (antiDebug' && w.debugging) = false) :
    let out := revive B E ⟨o.hwid, o.stealth, verifyKey⟩ w (history self' ops').1
    (password' = password ∧ used' = used →
      out.result = .ok obj ∧ out.self = { (history self' ops').1 with tamperCount := 0 }) ∧
    (¬ (password' = password ∧ used' = used) →
      out.result = .error ((history self' ops').1.tamperError o.hwid) ∧ out.self = (history self' ops').1.tampered) := by
  obtain ⟨-, bytes, hbytes, rfl⟩ := session_ok_iff.mp hfirst
  obtain ⟨-, bytes', hbytes', rfl⟩ := session_ok_iff.mp hsecond
  obtain ⟨key, pickled, p, hk, hkilled, -⟩ := killed_of_kill hE
  have hkey : key = scrypt used bytes := by
    rcases history_key (scrypt used bytes) antiDebug maxTamper ops with h | h
    · exact Option.some.inj (hk.symm.trans h)
    · rw [hk] at h
      cases h
  have hgate := (switch_history (scrypt used' bytes') antiDebug' maxTamper' ops').gate
  have hlive := history_live halive
  rw [← hgate] at hw
  refine ⟨?_, ?_⟩
  · rintro ⟨rfl, rfl⟩
    obtain rfl := Except.ok.inj (hbytes.symm.trans hbytes')
    rw [hkey] at hkilled
    rw [revive_killed hkilled hzlib haes htag hv hfresh hw halive hlive]
    exact ⟨hpickle obj pickled hkilled.dumped, rfl⟩
  · intro hother
    have hkeys : key ≠ scrypt used' bytes' := by
      intro heq
      obtain ⟨rfl, rfl⟩ := hscrypt bytes bytes' hbytes hbytes' (hkey.symm.trans heq)
      exact hother ⟨encodeUtf8_injective hbytes' hbytes, rfl⟩
    have hbetween := hapart key _ (congrArg some hkey.symm) rfl hkeys
    exact revive_apart hkilled htag hverdict hbetween hv.isSome hw halive hlive

/-! ## A run -/

section
open Reference

/-- A stand-in for Scrypt. -/
def mixed (salt password : Bytes) : Key :=
  ⟨(password ++ salt ++ List.replicate 32 0).take 32, by simp; omega⟩

def ghost : PyStr := ['g', 'h', 'o', 's', 't'].map .scalar
def ghoul : PyStr := ['g', 'h', 'o', 'u', 'l'].map .scalar

def runSalt : Block 32 := ⟨List.replicate 32 0x77, rfl⟩

def ghostKey : Key := mixed runSalt.val [0x67, 0x68, 0x6f, 0x73, 0x74]
def ghoulKey : Key := mixed runSalt.val [0x67, 0x68, 0x6f, 0x75, 0x6c]

/-- The salt is right and the password is not, and the second instance forgives nothing. -/
theorem summoned_again_run :
    ∃ E, session mixed ghost none true runSalt true 3 = .ok (.fresh ghostKey true 3, runSalt.val) ∧
      session mixed ghoul (some runSalt.val) false runSalt true 1 = .ok (.fresh ghoulKey true 1, runSalt.val) ∧
      (kill reference [1, 2, 3] {} runDraws 1000 (.fresh ghostKey true 3)).result = .ok E ∧
      (revive reference E {} ⟨false, 1059⟩ (.fresh ghoulKey true 1)).result = .error (purged 1) := by
  have hfirst : session mixed ghost none true runSalt true 3 = .ok (.fresh ghostKey true 3, runSalt.val) := by rfl
  have hsecond : session mixed ghoul (some runSalt.val) false runSalt true 1 =
      .ok (.fresh ghoulKey true 1, runSalt.val) := by rfl
  have hghost : encodeUtf8 ghost = .ok [0x67, 0x68, 0x6f, 0x73, 0x74] := by rfl
  have hghoul : encodeUtf8 ghoul = .ok [0x67, 0x68, 0x6f, 0x75, 0x6c] := by rfl
  have hscrypt : ∀ bytes bytes', encodeUtf8 ghost = .ok bytes → encodeUtf8 ghoul = .ok bytes' →
      mixed runSalt.val bytes = mixed runSalt.val bytes' → runSalt.val = runSalt.val ∧ bytes = bytes' := by
    intro bytes bytes' hbytes hbytes' hsame
    obtain rfl := Except.ok.inj (hghost.symm.trans hbytes)
    obtain rfl := Except.ok.inj (hghoul.symm.trans hbytes')
    exact absurd hsame (by decide)
  have hapart : ∀ key key', (Necromancer.fresh ghostKey true 3).key = some key →
      (Necromancer.fresh ghoulKey true 1).key = some key' → key ≠ key' → reference.AesApart key key' := by
    intro key key' hkey hkey' _
    obtain rfl := Option.some.inj hkey
    obtain rfl := Option.some.inj hkey'
    exact aesApart (by decide)
  have hE : ∃ E, (kill reference [1, 2, 3] {} runDraws 1000 (.fresh ghostKey true 3)).result = .ok E := ⟨_, rfl⟩
  obtain ⟨E, hE⟩ := hE
  have hv : Verifies reference ({} : KillOptions) none := nofun
  have hagain := summoned_again pickleInverts zlibInverts aesInverts aesTagged aesVerdict hfirst hsecond hscrypt hapart
    [] [] hE hv (w := ⟨false, 1059⟩) nofun rfl rfl
  exact ⟨E, hfirst, hsecond, hE, (hagain.2 fun hsame => absurd hsame.1 (by decide)).1⟩

end

end Amcrypt.Summon
