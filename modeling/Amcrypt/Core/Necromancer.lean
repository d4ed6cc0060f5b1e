/-
  Amcrypt.Core.Necromancer — the `Necromancer` (`core.py`): its state, `kill` and
  `revive`, in the order of the source.

  The object is its key (`None` once wiped), its tamper counter and its destroyed flag.
  Secure wiping of a buffer that nothing reads again changes no result and is left
  out; wiping the key is what `selfDestruct` does to the state.

  `Exit` lists every way a `revive` call can end, with the guards it passed, the state
  it leaves and the calls it made; `revive_exit` says the list is complete. What later
  modules prove of `revive` is a case analysis over it, or `revive_reaches`: a call
  that passes every gate is its decryption, judged, and the layers after it.
-/

import Amcrypt.Core.Layers

namespace Amcrypt.Core

open Lib

variable (B : Backend)

structure Necromancer where
  key : Option Key
  antiDebug : Bool
  maxTamper : Int
  tamperCount : Nat
  destroyed : Bool

/-- `Necromancer.__init__`. -/
def Necromancer.new (key : Bytes) (antiDebug : Bool := true) (maxTamper : Int := 3) : Except PyErr Necromancer :=
  if h : key.length = 32 then .ok ⟨some ⟨key, h⟩, antiDebug, maxTamper, 0, false⟩
  else .error (.valueError "Key must be exactly 32 bytes")

/-- `revive`'s options. -/
structure ReviveOptions where
  hwid : Option Bytes := none
  stealth : Bool := false
  verifyKey : Option Bytes := none

/-- What a call finds around it: whether a debugger is detected, and the time. -/
structure World where
  debugging : Bool
  now : ℚ

/-! ## Kill switch -/

/-- The key wiped and the flag set. -/
def Necromancer.dead (self : Necromancer) : Necromancer := { self with key := none, destroyed := true }

def selfDestruct : Py Necromancer Unit := Method.modify Necromancer.dead

def alreadyDead : PyErr := selfDestructError "Kill switch already triggered: this Necromancer is dead"

def checkDestroyed : Py Necromancer Unit := do
  let self ← Method.get
  Method.raiseIf self.destroyed alreadyDead

def purged (count : Nat) : PyErr :=
  selfDestructError
    ("Kill switch activated after " ++ toString count ++ " consecutive tampering attempts: secrets purged")

def recordTamper : Py Necromancer Unit := do
  Method.modify fun self => { self with tamperCount := self.tamperCount + 1 }
  let self ← Method.get
  if self.maxTamper ≤ self.tamperCount then do
    selfDestruct
    Method.raise (purged self.tamperCount)
  else pure ()

def resetTamper : Py Necromancer Unit := Method.modify fun self => { self with tamperCount := 0 }

/-! ## Gates -/

def debuggerDetected : PyErr := soulTrappedError "Debugger detected: aborting revive to protect secrets"

/-- `_check_debugger`; `debugging` is what the detector says. -/
def checkDebugger (debugging : Bool) : Py Necromancer Unit := do
  let self ← Method.get
  Method.raiseIf (self.antiDebug && debugging) debuggerDetected

def pillReceived : PyErr := selfDestructError "Poison pill received: kill-command from server"

/-- Gate 2 of `revive`. -/
def checkPill (corpse : Bytes) : Py Necromancer Unit :=
  if isPoisonPill corpse then do
    selfDestruct
    Method.raise pillReceived
  else pure ()

/-- The pre-checks of `revive`: what the flags demand of the caller. -/
def preCheck (flags : UInt8) (hwid verifyKey : Option Bytes) : Except PyErr Unit :=
  if has flags flagHwid && hwid.isNone then
    throw (wrongRealmError "This payload is soul-bound; hwid= must be provided")
  else if has flags flagSigned && verifyKey.isNone then
    throw (brokenPactError "This payload is blood-pact signed; verify_key= must be provided to revive")
  else pure ()

/-- The key as AES-GCM takes it: `None` is a type error. -/
def liveKey : Py Necromancer Key := do
  let self ← Method.get
  match self.key with
  | some key => pure key
  | none => Method.raise .typeError

/-! ## `kill` and `revive` -/

def kill (obj : B.Obj) (o : KillOptions) (d : Draws) (now : ℚ) : Py Necromancer Bytes := do
  checkDestroyed
  let pickled ← dumps B obj
  let compressed := B.compress pickled
  let plaintext ← Method.ofExcept (wrap B o d now compressed)
  let key ← liveKey
  let (nonce, ciphertextWithTag) ← aesEncrypt B key plaintext o.hwid d.nonce
  Method.ofExcept (pack B key nonce.val ciphertextWithTag (flagsOf o) o.stealth)

def bindingFailed : PyErr := wrongRealmError "Soul binding verification failed"

def integrityCompromised : PyErr :=
  mutilatedCorpseError "Decryption failed: data integrity compromised or wrong key"

/-- What a failed tag is raised as, if the kill switch has not been raised first. -/
def tagFailed (hwid : Option Bytes) : PyErr := if hwid.isSome then bindingFailed else integrityCompromised

/-- The `try` around `aes_decrypt`: reset on success, record and convert on `InvalidTag`. -/
def judge (hwid : Option Bytes) : Except PyErr Bytes → Py Necromancer Bytes
  | .ok plaintext => do
    resetTamper
    pure plaintext
  | .error .invalidTag => do
    recordTamper
    Method.raise (tagFailed hwid)
  | .error e => Method.raise e

/-- `revive` after decryption: the layers, then decompress and unpickle. -/
def exhume (flags : UInt8) (verifyKey : Option Bytes) (now : ℚ) (plaintext : Bytes) : Py Necromancer B.Obj := do
  let payload ← Method.ofExcept (unwrap B flags verifyKey now plaintext)
  let decompressed ← Method.ofExcept (B.decompress payload)
  loads B decompressed

def revive (corpse : Bytes) (a : ReviveOptions) (w : World) : Py Necromancer B.Obj := do
  checkDebugger w.debugging
  checkPill corpse
  checkDestroyed
  let (nonce, ciphertextWithTag, flags) ← Method.ofExcept (unpack corpse a.stealth)
  Method.ofExcept (preCheck flags a.hwid a.verifyKey)
  let key ← liveKey
  let verdict ← Method.attempt (aesDecrypt B key nonce ciphertextWithTag a.hwid)
  let plaintext ← judge a.hwid verdict
  exhume B flags a.verifyKey w.now plaintext

/-! ## How each step runs -/

variable {B}

@[simp] theorem dead_destroyed (self : Necromancer) : self.dead.destroyed = true := rfl
@[simp] theorem dead_key (self : Necromancer) : self.dead.key = none := rfl

/-- The state a failed tag leaves. -/
def Necromancer.tampered (self : Necromancer) : Necromancer :=
  let counted := { self with tamperCount := self.tamperCount + 1 }
  if self.maxTamper ≤ (self.tamperCount + 1 : Nat) then counted.dead else counted

theorem tampered_antiDebug (self : Necromancer) : self.tampered.antiDebug = self.antiDebug := by
  unfold Necromancer.tampered; dsimp only; split <;> rfl

theorem tampered_maxTamper (self : Necromancer) : self.tampered.maxTamper = self.maxTamper := by
  unfold Necromancer.tampered; dsimp only; split <;> rfl

theorem tampered_tamperCount (self : Necromancer) : self.tampered.tamperCount = self.tamperCount + 1 := by
  unfold Necromancer.tampered; dsimp only; split <;> rfl

/-- The key is wiped with the flag set, or nothing happens to either. -/
theorem tampered_dead (self : Necromancer) :
    (self.tampered.destroyed = true ∧ self.tampered.key = none) ∨
      (self.tampered.destroyed = self.destroyed ∧ self.tampered.key = self.key) := by
  unfold Necromancer.tampered
  dsimp only
  split
  · exact .inl ⟨rfl, rfl⟩
  · exact .inr ⟨rfl, rfl⟩

/-- The exception a failed tag is raised as. -/
def Necromancer.tamperError (self : Necromancer) (hwid : Option Bytes) : PyErr :=
  if self.maxTamper ≤ (self.tamperCount + 1 : Nat) then purged (self.tamperCount + 1) else tagFailed hwid

theorem checkDebugger_apply (debugging : Bool) (self : Necromancer) :
    checkDebugger debugging self =
      if self.antiDebug && debugging then ⟨.error debuggerDetected, self, []⟩ else ⟨.ok (), self, []⟩ := by
  simp only [checkDebugger, Method.bind_apply, Method.get_apply, Out.andThen_ok, Out.after_nil]
  cases self.antiDebug && debugging <;> rfl

theorem checkPill_apply (corpse : Bytes) (self : Necromancer) :
    checkPill corpse self =
      if isPoisonPill corpse then ⟨.error pillReceived, self.dead, []⟩ else ⟨.ok (), self, []⟩ := by
  unfold checkPill
  cases isPoisonPill corpse <;> rfl

theorem checkDestroyed_apply (self : Necromancer) :
    checkDestroyed self = if self.destroyed then ⟨.error alreadyDead, self, []⟩ else ⟨.ok (), self, []⟩ := by
  simp only [checkDestroyed, Method.bind_apply, Method.get_apply, Out.andThen_ok, Out.after_nil]
  cases self.destroyed <;> rfl

theorem liveKey_apply (self : Necromancer) :
    liveKey self = match self.key with
      | some key => ⟨.ok key, self, []⟩
      | none => ⟨.error .typeError, self, []⟩ := by
  simp only [liveKey, Method.bind_apply, Method.get_apply, Out.andThen_ok, Out.after_nil]
  cases self.key <;> rfl

theorem judge_ok (hwid : Option Bytes) (p : Bytes) (self : Necromancer) :
    judge hwid (.ok p) self = ⟨.ok p, { self with tamperCount := 0 }, []⟩ := rfl

theorem judge_tag (hwid : Option Bytes) (self : Necromancer) :
    judge hwid (.error .invalidTag) self = ⟨.error (self.tamperError hwid), self.tampered, []⟩ := by
  by_cases h : self.maxTamper ≤ (self.tamperCount + 1 : Nat)
  · have : recordTamper self = ⟨.error (purged (self.tamperCount + 1)), self.tampered, []⟩ := by
      simp only [recordTamper, Method.bind_apply, Method.modify_apply, Method.get_apply, Out.andThen_ok,
        Out.after_nil, if_pos h, Necromancer.tampered]
      rfl
    simp only [judge]
    rw [Method.bind_error this, Necromancer.tamperError, if_pos h]
  · have : recordTamper self = ⟨.ok (), self.tampered, []⟩ := by
      simp only [recordTamper, Method.bind_apply, Method.modify_apply, Method.get_apply, Out.andThen_ok,
        Out.after_nil, if_neg h, Necromancer.tampered]
      rfl
    simp only [judge]
    rw [Method.bind_ok this, Necromancer.tamperError, if_neg h]
    rfl

theorem judge_error (hwid : Option Bytes) {e : PyErr} (he : e ≠ .invalidTag) (self : Necromancer) :
    judge hwid (.error e) self = ⟨.error e, self, []⟩ := by
  cases e <;> first | rfl | exact absurd rfl he

/-- The compressed bytes and the pickle that the layers of `plaintext` hold. -/
def contents (B : Backend) (flags : UInt8) (verifyKey : Option Bytes) (now : ℚ) (plaintext : Bytes) :
    Except PyErr Bytes := do
  let payload ← unwrap B flags verifyKey now plaintext
  B.decompress payload

theorem exhume_apply (flags : UInt8) (verifyKey : Option Bytes) (now : ℚ) (plaintext : Bytes)
    (self : Necromancer) :
    exhume B flags verifyKey now plaintext self = match contents B flags verifyKey now plaintext with
      | .ok data => ⟨B.loads data, self, [.loads data]⟩
      | .error e => ⟨.error e, self, []⟩ := by
  unfold exhume contents
  cases unwrap B flags verifyKey now plaintext with
  | error e => rfl
  | ok payload =>
    cases h : B.decompress payload with
    | error e => simp [h]
    | ok data => simp [h, loads]

/-! ## A call that reaches AES-GCM -/

/-- The call passes every gate and hands AES-GCM this key, nonce and ciphertext. -/
structure Reaches (corpse : Bytes) (a : ReviveOptions) (w : World) (s : Necromancer) (key : Key)
    (nonce ct : Bytes) (flags : UInt8) : Prop where
  unwatched : (s.antiDebug && w.debugging) = false
  noPill : isPoisonPill corpse = false
  alive : s.destroyed = false
  frame : unpack corpse a.stealth = .ok (nonce, ct, flags)
  allowed : preCheck flags a.hwid a.verifyKey = .ok ()
  keyed : s.key = some key

theorem Reaches.unique {corpse : Bytes} {a : ReviveOptions} {w : World} {s : Necromancer} {key key' : Key}
    {nonce nonce' ct ct' : Bytes} {flags flags' : UInt8} (h : Reaches corpse a w s key nonce ct flags)
    (h' : Reaches corpse a w s key' nonce' ct' flags') :
    key = key' ∧ (nonce = nonce' ∧ ct = ct' ∧ flags = flags') := by
  have hk := h'.keyed
  have hf := h'.frame
  rw [h.keyed] at hk
  rw [h.frame] at hf
  simpa using And.intro hk hf

/-- The calls before AES-GCM go by without trace. -/
theorem revive_reaches {corpse : Bytes} {a : ReviveOptions} {w : World} {self : Necromancer} {key : Key}
    {nonce ct : Bytes} {flags : UInt8} (h : Reaches corpse a w self key nonce ct flags) :
    revive B corpse a w self =
      ((judge a.hwid (B.gcmDecrypt key nonce ct a.hwid) self).andThen fun plaintext =>
        exhume B flags a.verifyKey w.now plaintext).after
        [.decrypt key nonce ct a.hwid (B.gcmDecrypt key nonce ct a.hwid)] := by
  have h1 : checkDebugger w.debugging self = ⟨.ok (), self, []⟩ := by rw [checkDebugger_apply, h.unwatched]; rfl
  have h2 : checkPill corpse self = ⟨.ok (), self, []⟩ := by rw [checkPill_apply, h.noPill]; rfl
  have h3 : checkDestroyed self = ⟨.ok (), self, []⟩ := by rw [checkDestroyed_apply, h.alive]; rfl
  have h4 : liveKey self = ⟨.ok key, self, []⟩ := by rw [liveKey_apply, h.keyed]
  simp only [revive, Method.bind_ok h1, Method.bind_ok h2, Method.bind_ok h3, Out.after_nil, Method.bind_apply,
    Method.ofExcept_apply, h.frame, h.allowed, Out.andThen_ok, h4, Method.attempt_apply, aesDecrypt,
    Method.record_apply, Out.after_result, Out.after_self, Out.after_calls, List.append_nil]

/-- What a call that reaches AES-GCM returns or raises. -/
theorem revive_reaches_result {corpse : Bytes} {a : ReviveOptions} {w : World} {self : Necromancer} {key : Key}
    {nonce ct : Bytes} {flags : UInt8} (h : Reaches corpse a w self key nonce ct flags) :
    (revive B corpse a w self).result = match B.gcmDecrypt key nonce ct a.hwid with
      | .ok p => contents B flags a.verifyKey w.now p >>= B.loads
      | .error e => .error (if e = .invalidTag then self.tamperError a.hwid else e) := by
  rw [revive_reaches h]
  cases B.gcmDecrypt key nonce ct a.hwid with
  | ok p =>
    rw [judge_ok, Out.andThen_ok, Out.after_nil, exhume_apply]
    dsimp only
    cases contents B flags a.verifyKey w.now p with
    | error e => rfl
    | ok data => rfl
  | error e =>
    by_cases he : e = .invalidTag
    · subst he
      rw [judge_tag]
      rfl
    · rw [judge_error _ he]
      exact congrArg Except.error (if_neg he).symm

/-! ## Every way a call can end -/

inductive Exit (B : Backend) (corpse : Bytes) (a : ReviveOptions) (w : World) (self : Necromancer) :
    Out PyErr Call Necromancer B.Obj → Prop
  | trapped : (self.antiDebug && w.debugging) = true → Exit B corpse a w self ⟨.error debuggerDetected, self, []⟩
  | pill : (self.antiDebug && w.debugging) = false → isPoisonPill corpse = true →
      Exit B corpse a w self ⟨.error pillReceived, self.dead, []⟩
  | dead : (self.antiDebug && w.debugging) = false → isPoisonPill corpse = false → self.destroyed = true →
      Exit B corpse a w self ⟨.error alreadyDead, self, []⟩
  /-- Malformed, or the flags demand what the caller did not give. -/
  | refused (e : PyErr) : (self.antiDebug && w.debugging) = false → isPoisonPill corpse = false →
      self.destroyed = false → (unpack corpse a.stealth >>= fun x => preCheck x.2.2 a.hwid a.verifyKey) = .error e →
      Exit B corpse a w self ⟨.error e, self, []⟩
  /-- A live instance without a key: no reachable state. -/
  | keyless : (self.antiDebug && w.debugging) = false → isPoisonPill corpse = false → self.destroyed = false →
      self.key = none → Exit B corpse a w self ⟨.error .typeError, self, []⟩
  | tampered (key : Key) (nonce ct : Bytes) (flags : UInt8) : Reaches corpse a w self key nonce ct flags →
      B.gcmDecrypt key nonce ct a.hwid = .error .invalidTag →
      Exit B corpse a w self
        ⟨.error (self.tamperError a.hwid), self.tampered, [.decrypt key nonce ct a.hwid (.error .invalidTag)]⟩
  /-- AES-GCM refuses the call itself: no verdict on the tag. -/
  | broken (key : Key) (nonce ct : Bytes) (flags : UInt8) (e : PyErr) : Reaches corpse a w self key nonce ct flags →
      B.gcmDecrypt key nonce ct a.hwid = .error e → e ≠ .invalidTag →
      Exit B corpse a w self ⟨.error e, self, [.decrypt key nonce ct a.hwid (.error e)]⟩
  /-- Decrypted, and refused by a layer or by zlib. -/
  | late (key : Key) (nonce ct : Bytes) (flags : UInt8) (p : Bytes) (e : PyErr) :
      Reaches corpse a w self key nonce ct flags → B.gcmDecrypt key nonce ct a.hwid = .ok p →
      contents B flags a.verifyKey w.now p = .error e →
      Exit B corpse a w self
        ⟨.error e, { self with tamperCount := 0 }, [.decrypt key nonce ct a.hwid (.ok p)]⟩
  | loaded (key : Key) (nonce ct : Bytes) (flags : UInt8) (p data : Bytes) :
      Reaches corpse a w self key nonce ct flags → B.gcmDecrypt key nonce ct a.hwid = .ok p →
      contents B flags a.verifyKey w.now p = .ok data →
      Exit B corpse a w self
        ⟨B.loads data, { self with tamperCount := 0 }, [.decrypt key nonce ct a.hwid (.ok p), .loads data]⟩

theorem revive_exit (corpse : Bytes) (a : ReviveOptions) (w : World) (self : Necromancer) :
    Exit B corpse a w self (revive B corpse a w self) := by
  cases hw : self.antiDebug && w.debugging with
  | true =>
    have h1 : checkDebugger w.debugging self = ⟨.error debuggerDetected, self, []⟩ := by
      rw [checkDebugger_apply, hw]; rfl
    rw [revive, Method.bind_error h1]
    exact .trapped hw
  | false =>
  have h1 : checkDebugger w.debugging self = ⟨.ok (), self, []⟩ := by rw [checkDebugger_apply, hw]; rfl
  cases hp : isPoisonPill corpse with
  | true =>
    have h2 : checkPill corpse self = ⟨.error pillReceived, self.dead, []⟩ := by rw [checkPill_apply, hp]; rfl
    rw [revive, Method.bind_ok h1, Method.bind_error h2]
    exact .pill hw hp
  | false =>
  have h2 : checkPill corpse self = ⟨.ok (), self, []⟩ := by rw [checkPill_apply, hp]; rfl
  cases hd : self.destroyed with
  | true =>
    have h3 : checkDestroyed self = ⟨.error alreadyDead, self, []⟩ := by rw [checkDestroyed_apply, hd]; rfl
    rw [revive, Method.bind_ok h1, Method.bind_ok h2, Method.bind_error h3]
    exact .dead hw hp hd
  | false =>
  have h3 : checkDestroyed self = ⟨.ok (), self, []⟩ := by rw [checkDestroyed_apply, hd]; rfl
  cases hf : unpack corpse a.stealth with
  | error e =>
    simp only [revive, Method.bind_ok h1, Method.bind_ok h2, Method.bind_ok h3, Out.after_nil, Method.bind_apply,
      Method.ofExcept_apply, hf, Out.andThen_error]
    exact .refused e hw hp hd (by rw [hf]; rfl)
  | ok frame =>
  obtain ⟨nonce, ct, flags⟩ := frame
  cases hc : preCheck flags a.hwid a.verifyKey with
  | error e =>
    simp only [revive, Method.bind_ok h1, Method.bind_ok h2, Method.bind_ok h3, Out.after_nil, Method.bind_apply,
      Method.ofExcept_apply, hf, hc, Out.andThen_ok, Out.andThen_error]
    exact .refused e hw hp hd (by rw [hf]; exact hc)
  | ok =>
  cases hk : self.key with
  | none =>
    have h4 : liveKey self = ⟨.error .typeError, self, []⟩ := by rw [liveKey_apply, hk]
    simp only [revive, Method.bind_ok h1, Method.bind_ok h2, Method.bind_ok h3, Out.after_nil, Method.bind_apply,
      Method.ofExcept_apply, hf, hc, Out.andThen_ok, h4, Out.andThen_error]
    exact .keyless hw hp hd hk
  | some key =>
  have hr : Reaches corpse a w self key nonce ct flags := ⟨hw, hp, hd, hf, hc, hk⟩
  rw [revive_reaches hr]
  cases hg : B.gcmDecrypt key nonce ct a.hwid with
  | error e =>
    by_cases he : e = .invalidTag
    · subst he
      rw [judge_tag, Out.andThen_error, Out.after_mk]
      exact .tampered key nonce ct flags hr hg
    · rw [judge_error _ he, Out.andThen_error, Out.after_mk]
      exact .broken key nonce ct flags e hr hg he
  | ok p =>
    rw [judge_ok, Out.andThen_ok, Out.after_nil, exhume_apply]
    cases hcon : contents B flags a.verifyKey w.now p with
    | error e => exact .late key nonce ct flags p e hr hg hcon
    | ok data => exact .loaded key nonce ct flags p data hr hg hcon

/-- The object `revive` returns: what pickle makes of the contents of what AES-GCM opened. -/
theorem revive_ok_iff {corpse : Bytes} {a : ReviveOptions} {w : World} {self : Necromancer} {obj : B.Obj} :
    (revive B corpse a w self).result = .ok obj ↔
      ∃ key nonce ct flags p data, Reaches corpse a w self key nonce ct flags ∧
        B.gcmDecrypt key nonce ct a.hwid = .ok p ∧ contents B flags a.verifyKey w.now p = .ok data ∧
        B.loads data = .ok obj := by
  refine ⟨?_, ?_⟩
  · intro h
    have hx := revive_exit (B := B) corpse a w self
    generalize revive B corpse a w self = out at h hx
    cases hx with
    | loaded key nonce ct flags p data hr hg hc => exact ⟨key, nonce, ct, flags, p, data, hr, hg, hc, h⟩
    | _ => cases h
  · intro hx
    obtain ⟨key, nonce, ct, flags, p, data, hr, hg, hc, hl⟩ := hx
    rw [revive_reaches hr, hg, judge_ok, Out.andThen_ok, Out.after_nil, exhume_apply, hc]
    exact hl

/-- `revive` keeps the key or wipes it. -/
theorem revive_key (corpse : Bytes) (a : ReviveOptions) (w : World) (self : Necromancer) :
    (revive B corpse a w self).self.key = self.key ∨ (revive B corpse a w self).self.key = none := by
  have hx := revive_exit (B := B) corpse a w self
  generalize revive B corpse a w self = out at hx
  cases hx with
  | pill _ _ => exact .inr rfl
  | tampered _ _ _ _ _ _ =>
    rcases tampered_dead self with ⟨-, hk⟩ | ⟨-, hk⟩
    · exact .inr hk
    · exact .inl hk
  | _ => exact .inl rfl

/-! ## What a `kill` does -/

/-- A wiped instance kills nothing. -/
theorem kill_dead (obj : B.Obj) (o : KillOptions) (d : Draws) (now : ℚ) {self : Necromancer}
    (h : self.destroyed = true) : kill B obj o d now self = ⟨.error alreadyDead, self, []⟩ := by
  have h1 : checkDestroyed self = ⟨.error alreadyDead, self, []⟩ := by rw [checkDestroyed_apply, h]; rfl
  rw [kill, Method.bind_error h1]

theorem kill_alive (obj : B.Obj) (o : KillOptions) (d : Draws) (now : ℚ) {self : Necromancer}
    (h : self.destroyed = false) :
    kill B obj o d now self =
      match B.dumps obj with
      | .error e => ⟨.error e, self, []⟩
      | .ok pickled => match wrap B o d now (B.compress pickled) with
        | .error e => ⟨.error e, self, [.dumps pickled]⟩
        | .ok p => match self.key with
          | none => ⟨.error .typeError, self, [.dumps pickled]⟩
          | some key => ⟨pack B key d.nonce.val (B.gcmEncrypt key d.nonce.val p o.hwid) (flagsOf o) o.stealth, self,
              [.dumps pickled, .encrypt key d.nonce o.hwid p (B.gcmEncrypt key d.nonce.val p o.hwid)]⟩ := by
  have h1 : checkDestroyed self = ⟨.ok (), self, []⟩ := by rw [checkDestroyed_apply, h]; rfl
  cases hp : B.dumps obj with
  | error e => simp [kill, h1, dumps, hp]
  | ok pickled =>
    cases hw : wrap B o d now (B.compress pickled) with
    | error e => simp [kill, h1, dumps, hp, hw]
    | ok p => cases hk : self.key <;> simp [kill, h1, dumps, hp, hw, liveKey_apply, hk, aesEncrypt]

/-- `kill` leaves the instance as it is. -/
theorem kill_self (obj : B.Obj) (o : KillOptions) (d : Draws) (now : ℚ) (self : Necromancer) :
    (kill B obj o d now self).self = self := by
  cases h : self.destroyed with
  | true => rw [kill_dead obj o d now h]
  | false =>
    rw [kill_alive obj o d now h]
    repeat' split
    all_goals rfl

/-- Whatever `kill` encrypts is wrapped around a pickle that it dumped. -/
theorem kill_encrypts {obj : B.Obj} {o : KillOptions} {d : Draws} {now : ℚ} {self : Necromancer} {k : Key} {n : Nonce}
    {a : Option Bytes} {p ct : Bytes} (h : .encrypt k n a p ct ∈ (kill B obj o d now self).calls) :
    ∃ pickled, wrap B o d now (B.compress pickled) = .ok p ∧ .dumps pickled ∈ (kill B obj o d now self).calls := by
  cases hd : self.destroyed with
  | true => rw [kill_dead obj o d now hd] at h; cases h
  | false =>
    rw [kill_alive obj o d now hd] at h ⊢
    cases hp : B.dumps obj with
    | error e => simp [hp] at h
    | ok pickled =>
      cases hw : wrap B o d now (B.compress pickled) with
      | error e => simp [hp, hw] at h
      | ok p' =>
        cases hk : self.key with
        | none => simp [hp, hw, hk] at h
        | some key =>
          simp only [hp, hw, hk, List.mem_cons, reduceCtorEq, Call.encrypt.injEq, List.not_mem_nil, or_false,
            false_or] at h
          obtain ⟨-, -, -, rfl, -⟩ := h
          exact ⟨pickled, hw, by simp [hw]⟩

/-- A `kill` that returns: what it dumped, wrapped, sealed and packed. -/
theorem kill_ok {obj : B.Obj} {o : KillOptions} {d : Draws} {now : ℚ} {self : Necromancer} {E : Bytes}
    (h : (kill B obj o d now self).result = .ok E) :
    ∃ key pickled p, self.destroyed = false ∧ self.key = some key ∧ B.dumps obj = .ok pickled ∧
      wrap B o d now (B.compress pickled) = .ok p ∧
      pack B key d.nonce.val (B.gcmEncrypt key d.nonce.val p o.hwid) (flagsOf o) o.stealth = .ok E ∧
      kill B obj o d now self = ⟨.ok E, self,
        [.dumps pickled, .encrypt key d.nonce o.hwid p (B.gcmEncrypt key d.nonce.val p o.hwid)]⟩ := by
  cases hd : self.destroyed with
  | true => rw [kill_dead obj o d now hd] at h; cases h
  | false =>
  rw [kill_alive obj o d now hd] at h ⊢
  cases hp : B.dumps obj with
  | error e => rw [hp] at h; cases h
  | ok pickled =>
  cases hw : wrap B o d now (B.compress pickled) with
  | error e => simp only [hp, hw] at h; cases h
  | ok p =>
  cases hk : self.key with
  | none => simp only [hp, hw, hk] at h; cases h
  | some key =>
  simp only [hp, hw, hk] at h
  exact ⟨key, pickled, p, rfl, rfl, rfl, hw, h, by simp only [hw, h]⟩

end Amcrypt.Core
