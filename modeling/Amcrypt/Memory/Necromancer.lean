/-
  Amcrypt.Memory.Necromancer — the `Necromancer` (`core.py`) with its buffers: where its key
  lies, what each call puts into memory, and what it wipes.

  The bodies are those of `Amcrypt.Core.Necromancer`, with the statements left out there. The
  key is a `bytearray` of the object's own, copied from the caller's and wiped by
  `_self_destruct`. Everything else is `bytes`, so the wipes at the end of `kill` and `revive`
  zero copies. The slices between two layers of a plaintext are left out: the last one stands
  for them.

  `relates_kill` and `relates_revive`: these bodies do what those do, keeping `Holds`.
-/

import Amcrypt.Core.Necromancer
import Amcrypt.Memory.Buffers

namespace Amcrypt.Memory

open Lib Amcrypt.Core

structure Necromancer where
  key : Option Addr
  antiDebug : Bool
  maxTamper : Int
  tamperCount : Nat
  destroyed : Bool

variable (B : Backend)

/-- The bytes of a key as AES-GCM takes them. -/
def asKey (data : Bytes) : Except PyErr Key :=
  if h : data.length = 32 then .ok ⟨data, h⟩
  else .error (.valueError "AESGCM key must be 128, 192, or 256 bits.")

namespace Necromancer

/-- `Necromancer.__init__`; `key` is the caller's buffer. -/
def new (key : Addr) (antiDebug : Bool := true) (maxTamper : Int := 3) : Py (Mem Unit) Necromancer := do
  let m ← Method.get
  let data := m.heap.data key
  if data.length = 32 then do
    let copy ← newBytearray data
    pure ⟨some copy, antiDebug, maxTamper, 0, false⟩
  else Method.raise (.valueError "Key must be exactly 32 bytes")

theorem new_apply {m : Mem Unit} {a : Addr} {b : Buffer} (h : m.heap[a]? = some b) (antiDebug : Bool) (maxTamper : Int) :
    new a antiDebug maxTamper m = if b.data.length = 32 then
        ⟨.ok ⟨some m.heap.length, antiDebug, maxTamper, 0, false⟩, ⟨m.heap ++ [⟨true, b.data⟩], ()⟩, []⟩
      else ⟨.error (.valueError "Key must be exactly 32 bytes"), m, []⟩ := by
  simp only [new, Method.bind_apply, Method.get_apply, Out.andThen_ok, Out.after_nil, Heap.data_of h]
  split <;> rfl

/-! ## Kill switch -/

def selfDestruct : Py (Mem Necromancer) Unit := do
  let m ← Method.get
  match m.self.key with
  | some a => do
    secureWipe a
    assign fun self => { self with key := none }
  | none => pure ()
  assign fun self => { self with destroyed := true }

def checkDestroyed : Py (Mem Necromancer) Unit := do
  let m ← Method.get
  Method.raiseIf m.self.destroyed alreadyDead

def recordTamper : Py (Mem Necromancer) Unit := do
  assign fun self => { self with tamperCount := self.tamperCount + 1 }
  let m ← Method.get
  if m.self.maxTamper ≤ m.self.tamperCount then do
    selfDestruct
    Method.raise (purged m.self.tamperCount)
  else pure ()

def resetTamper : Py (Mem Necromancer) Unit := assign fun self => { self with tamperCount := 0 }

/-! ## Gates -/

def checkDebugger (debugging : Bool) : Py (Mem Necromancer) Unit := do
  let m ← Method.get
  Method.raiseIf (m.self.antiDebug && debugging) debuggerDetected

def checkPill (corpse : Bytes) : Py (Mem Necromancer) Unit :=
  if isPoisonPill corpse then do
    selfDestruct
    Method.raise pillReceived
  else pure ()

/-- The key as AES-GCM reads it, where it lies. -/
def liveKey : Py (Mem Necromancer) Key := do
  let m ← Method.get
  match m.self.key with
  | some a => Method.ofExcept (asKey (m.heap.data a))
  | none => Method.raise .typeError

/-! ## `kill` and `revive` -/

def kill (obj : B.Obj) (o : KillOptions) (d : Draws) (now : ℚ) : Py (Mem Necromancer) Bytes := do
  checkDestroyed
  let pickled ← dumps B obj
  let compressed := B.compress pickled.2
  let compressedAt ← newBytes compressed
  let plaintext ← Method.ofExcept (wrap B o d now compressed)
  let plaintext ← derived (compressedAt, compressed) (o.signingKey.isNone && o.ttlSeconds.isNone && !o.pad) plaintext
  let key ← liveKey
  let (nonce, ciphertextWithTag) ← aesEncrypt B key plaintext.2 o.hwid d.nonce
  wipeCopy compressedAt
  wipeCopy pickled.1
  Method.ofExcept (pack B key nonce.val ciphertextWithTag (flagsOf o) o.stealth)

def judge (hwid : Option Bytes) : Except PyErr (Addr × Bytes) → Py (Mem Necromancer) (Addr × Bytes)
  | .ok plaintext => do
    resetTamper
    pure plaintext
  | .error .invalidTag => do
    recordTamper
    Method.raise (tagFailed hwid)
  | .error e => Method.raise e

def exhume (flags : UInt8) (verifyKey : Option Bytes) (now : ℚ) (plaintext : Addr × Bytes) :
    Py (Mem Necromancer) B.Obj := do
  let payload ← Method.ofExcept (unwrap B flags verifyKey now plaintext.2)
  let payload ← derived plaintext (layerBits flags = 0) payload
  let decompressed ← Method.ofExcept (B.decompress payload.2)
  let decompressedAt ← newBytes decompressed
  let buf ← toWritable decompressedAt
  let result ← loads B decompressed
  secureWipe buf
  wipeCopy payload.1
  pure result

def revive (corpse : Bytes) (a : ReviveOptions) (w : World) : Py (Mem Necromancer) B.Obj := do
  checkDebugger w.debugging
  checkPill corpse
  checkDestroyed
  let (nonce, ciphertextWithTag, flags) ← Method.ofExcept (unpack corpse a.stealth)
  Method.ofExcept (preCheck flags a.hwid a.verifyKey)
  let key ← liveKey
  let verdict ← Method.attempt (aesDecrypt B key nonce ciphertextWithTag a.hwid)
  let plaintext ← judge a.hwid verdict
  exhume B flags a.verifyKey w.now plaintext

end Necromancer

/-! ## The object that it stands for -/

/-- `_tamper_count` and the rest, the key apart. -/
structure Necromancer.Same (x : Necromancer) (y : Core.Necromancer) : Prop where
  antiDebug : x.antiDebug = y.antiDebug
  maxTamper : x.maxTamper = y.maxTamper
  tamperCount : x.tamperCount = y.tamperCount
  destroyed : x.destroyed = y.destroyed

/-- The `bytes` objects a call of a `Necromancer` leaves: pickles, and what AES-GCM is given to
    seal or opens. -/
def Necromancer.copies : Call → List Bytes
  | .dumps data => [data]
  | .loads data => [data]
  | .encrypt _ _ _ plaintext _ => [plaintext]
  | .decrypt _ _ _ _ (.ok plaintext) => [plaintext]
  | .decrypt _ _ _ _ (.error _) => []

def Necromancer.layout : Layout Necromancer Core.Necromancer :=
  ⟨Necromancer.Same, (·.key), (·.key), Necromancer.copies⟩

/-! ## Its methods -/

namespace Necromancer

variable {B : Backend} {start : Mem Necromancer} {ks : List (Addr × Bytes)}

theorem relates_checkDestroyed : Method.Relates (Holding B layout start ks) checkDestroyed Core.checkDestroyed
    (fun _ _ => Holding B layout start ks) (Holds B layout start) :=
  .gets (f := fun m : Mem Necromancer => m.self.destroyed) (k := fun b => Method.raiseIf b alreadyDead)
    (fun _ _ _ h => h.same.destroyed) fun _ => .raiseIf _ _ fun _ _ _ h => h.toHolds

theorem relates_checkDebugger (debugging : Bool) :
    Method.Relates (Holding B layout start ks) (checkDebugger debugging) (Core.checkDebugger debugging)
      (fun _ _ => Holding B layout start ks) (Holds B layout start) :=
  .gets (f := fun m : Mem Necromancer => m.self.antiDebug)
    (k := fun b => Method.raiseIf (b && debugging) debuggerDetected)
    (fun _ _ _ h => h.same.antiDebug) fun _ => .raiseIf _ _ fun _ _ _ h => h.toHolds

/-- A live key lies in the heap as it is. -/
theorem asKey_val (key : Key) : asKey key.val = .ok key := by rw [asKey, dif_pos key.property]

theorem relates_liveKey : Method.Relates (Holding B layout start ks) liveKey Core.liveKey
    (fun key key' past m t => key = key' ∧ Holding B layout start ks past m t) (Holds B layout start) := by
  intro past m t h
  have hkey : KeyAt m.heap m.self.key t.key := h.key
  simp only [liveKey, Core.liveKey, Method.bind_apply, Method.get_apply, Out.andThen_ok, Out.after_nil]
  generalize m.self.key = a, t.key = key at hkey
  cases hkey with
  | gone => exact .error (by rw [List.append_nil]; exact h.toHolds)
  | lies a key hk =>
    show Out.Relates past _ _ (Method.ofExcept (asKey (m.heap.data a)) m) ((Pure.pure key : Py Core.Necromancer Key) t)
    rw [Heap.data_of hk, asKey_val]
    exact .ok ⟨rfl, by rw [List.append_nil]; exact h⟩

/-- `_self_destruct` overwrites the key where it lies; other buffers are as they were. -/
theorem relates_selfDestruct : Method.Relates (Holding B layout start ks) selfDestruct Core.selfDestruct
    (fun _ _ => Holding B layout start ks) (Holds B layout start) := by
  intro past m t h
  have hsame : Same { m.self with key := none, destroyed := true } t.dead :=
    ⟨h.same.antiDebug, h.same.maxTamper, h.same.tamperCount, rfl⟩
  have hkey : KeyAt m.heap m.self.key t.key := h.key
  simp only [selfDestruct, Core.selfDestruct, Method.bind_apply, Method.get_apply, Out.andThen_ok, Out.after_nil,
    Method.modify_apply]
  generalize hm : m.self.key = a, ht : t.key = key at hkey
  cases hkey with
  | gone =>
    refine .ok ?_
    rw [List.append_nil]
    exact ⟨h.toHolds.assign ⟨h.same.antiDebug, h.same.maxTamper, h.same.tamperCount, rfl⟩ rfl ht.symm, h.known⟩
  | lies a key hk =>
    simp only [Method.bind_apply, secureWipe_apply hk, Out.andThen_ok, Out.after_nil, assign, Method.modify_apply]
    refine .ok ?_
    rw [List.append_nil]
    exact ⟨h.toHolds.wipe hm hk hsame rfl rfl _, fun x hx => Heap.write_immutable hk (h.known x hx) _⟩

theorem relates_checkPill (corpse : Bytes) :
    Method.Relates (Holding B layout start ks) (checkPill corpse) (Core.checkPill corpse)
      (fun _ _ => Holding B layout start ks) (Holds B layout start) := by
  unfold checkPill Core.checkPill
  cases isPoisonPill corpse with
  | true => exact .bind relates_selfDestruct fun _ _ => .raise _ fun _ _ _ h => h.toHolds
  | false => exact .pure fun _ _ _ h => h

theorem relates_resetTamper : Method.Relates (Holding B layout start ks) resetTamper Core.resetTamper
    (fun _ _ => Holding B layout start ks) (Holds B layout start) :=
  relates_assign (fun _ _ h => ⟨h.antiDebug, h.maxTamper, rfl, h.destroyed⟩) (fun _ => rfl) fun _ => rfl

theorem relates_recordTamper : Method.Relates (Holding B layout start ks) recordTamper Core.recordTamper
    (fun _ _ => Holding B layout start ks) (Holds B layout start) := by
  refine .bind (R := fun _ _ => Holding B layout start ks) (relates_assign ?_ (fun _ => rfl) fun _ => rfl) fun _ _ => ?_
  · intro x y h
    exact ⟨h.antiDebug, h.maxTamper, congrArg (· + 1) h.tamperCount, h.destroyed⟩
  refine .gets (f := fun m : Mem Necromancer => (m.self.maxTamper, m.self.tamperCount))
    (g := fun self : Core.Necromancer => (self.maxTamper, self.tamperCount))
    (k := fun x => if x.1 ≤ x.2 then do selfDestruct; Method.raise (purged x.2) else pure ())
    (l := fun x => if x.1 ≤ x.2 then do Core.selfDestruct; Method.raise (purged x.2) else pure ()) ?_ fun x => ?_
  · intro past m t h
    rw [h.same.maxTamper, h.same.tamperCount]
  · split
    · exact .bind relates_selfDestruct fun _ _ => .raise _ fun _ _ _ h => h.toHolds
    · exact .pure fun _ _ _ h => h

/-- `judge` on neither a plaintext nor a failed tag. -/
theorem judge_error (hwid : Option Bytes) {e : PyErr} (he : e ≠ .invalidTag) :
    judge hwid (.error e) = Method.raise e := by
  cases e <;> first | rfl | exact absurd rfl he

theorem relates_judge (hwid : Option Bytes) (r : Except PyErr (Addr × Bytes)) (r' : Except PyErr Bytes) :
    Method.Relates
      (Method.Relates.Tried (fun x y past m t => x.2 = y ∧ Holding B layout start (x :: ks) past m t)
        (Holding B layout start ks) r r')
      (judge hwid r) (Core.judge hwid r')
      (fun x y past m t => x.2 = y ∧ Holding B layout start (x :: ks) past m t) (Holds B layout start) := by
  match r, r' with
  | .ok x, .ok y =>
    refine .fact fun hxy => .bind relates_resetTamper fun _ _ => .pure fun _ _ _ h => ⟨hxy, h⟩
  | .error e, .error e' =>
    refine .fact fun he => ?_
    subst he
    by_cases htag : e = .invalidTag
    · subst htag
      exact .bind relates_recordTamper fun _ _ => .raise _ fun _ _ _ h => h.toHolds
    · rw [judge_error hwid htag]
      have hraise : Core.judge hwid (.error e) = Method.raise e := by
        funext t
        exact Core.judge_error hwid htag t
      rw [hraise]
      exact .raise e fun _ _ _ h => h.toHolds
  | .ok _, .error _ => exact .absurd fun _ _ _ h => h
  | .error _, .ok _ => exact .absurd fun _ _ _ h => h

/-- Without a layer, what AES-GCM opened is the payload. -/
theorem unwrap_bare {flags : UInt8} {verifyKey : Option Bytes} {now : ℚ} {plaintext payload : Bytes}
    (h : unwrap B flags verifyKey now plaintext = .ok payload) (hbare : layerBits flags = 0) : payload = plaintext := by
  have hzero : layerBits flags = layerBits 0 := hbare
  rw [unwrap_congr B hzero] at h
  exact (Except.ok.inj h).symm

theorem relates_exhume (flags : UInt8) (verifyKey : Option Bytes) (now : ℚ) (x : Addr × Bytes) (p : Bytes) :
    Method.Relates (fun past m t => x.2 = p ∧ Holding B layout start (x :: ks) past m t)
      (exhume B flags verifyKey now x) (Core.exhume B flags verifyKey now p)
      (fun obj obj' past m t => obj = obj' ∧ Holds B layout start past m t) (Holds B layout start) := by
  refine .fact fun hxp => ?_
  subst hxp
  refine .bind (.ofExcept _ fun _ _ _ h => h.toHolds) fun payload payload' => .fact fun hpayload => ?_
  obtain ⟨rfl, hp⟩ := hpayload
  refine .left (relates_derived List.mem_cons_self ?_) fun y => .fact fun hy => ?_
  · intro hbare
    exact unwrap_bare hp (of_decide_eq_true hbare)
  rw [hy]
  refine .bind (.ofExcept _ fun _ _ _ h => h.toHolds) fun decompressed _ => .fact fun hd => ?_
  obtain ⟨rfl, -⟩ := hd
  refine .left (relates_newBytes decompressed) fun lies => .left (relates_toWritable List.mem_cons_self) fun buf => ?_
  refine .tail (relates_loads (fun _ h => h) List.mem_cons_self) fun obj obj' => .fact fun hobj => ?_
  have hy : (y.1, y.2) ∈ (lies, decompressed) :: y :: x :: ks := List.mem_cons_of_mem _ List.mem_cons_self
  exact .left relates_secureWipe fun _ => .left (relates_wipeCopy hy) fun _ => .pure fun _ _ _ h => ⟨hobj, h.toHolds⟩

theorem relates_revive (corpse : Bytes) (a : ReviveOptions) (w : World) :
    Method.Relates (Holding B layout start ks) (revive B corpse a w) (Core.revive B corpse a w)
      (fun obj obj' past m t => obj = obj' ∧ Holds B layout start past m t) (Holds B layout start) := by
  refine .bind (relates_checkDebugger _) fun _ _ => .bind (relates_checkPill corpse) fun _ _ =>
    .bind relates_checkDestroyed fun _ _ => ?_
  refine .bind (.ofExcept _ fun _ _ _ h => h.toHolds) fun parts parts' => .fact fun hparts => ?_
  obtain ⟨rfl, -⟩ := hparts
  obtain ⟨nonce, ct, flags⟩ := parts
  refine .bind (.ofExcept _ fun _ _ _ h => h.toHolds) fun _ _ => .fact fun _ => ?_
  refine .bind relates_liveKey fun key key' => .fact fun hkey => ?_
  subst hkey
  refine .bind (.attempt (relates_aesDecrypt ?_)) fun r r' => ?_
  · intro r d hd
    cases r with
    | ok p =>
      obtain rfl := List.mem_singleton.mp hd
      exact .inl rfl
    | error e => cases hd
  · exact .bind (relates_judge a.hwid r r') fun x p => relates_exhume flags a.verifyKey w.now x p

/-- Without a layer, what AES-GCM seals are the compressed bytes. -/
theorem wrap_bare {o : KillOptions} {d : Draws} {now : ℚ} {compressed plaintext : Bytes}
    (h : wrap B o d now compressed = .ok plaintext)
    (hbare : (o.signingKey.isNone && o.ttlSeconds.isNone && !o.pad) = true) : plaintext = compressed := by
  simp only [Bool.and_eq_true, Option.isNone_iff_eq_none, Bool.not_eq_true'] at hbare
  obtain ⟨⟨hsign, httl⟩, hpad⟩ := hbare
  rw [wrap, hsign, httl, hpad] at h
  exact (Except.ok.inj h).symm

theorem relates_kill (obj : B.Obj) (o : KillOptions) (d : Draws) (now : ℚ) :
    Method.Relates (Holding B layout start ks) (kill B obj o d now) (Core.kill B obj o d now)
      (fun wire wire' past m t => wire = wire' ∧ Holds B layout start past m t) (Holds B layout start) := by
  refine .bind relates_checkDestroyed fun _ _ => ?_
  refine .bind (relates_dumps (fun _ _ h => h) obj) fun x pickled => .fact fun hx => ?_
  subst hx
  refine .left (relates_newBytes _) fun lies => ?_
  refine .bind (.ofExcept _ fun _ _ _ h => h.toHolds) fun plaintext _ => .fact fun hp => ?_
  obtain ⟨rfl, hp⟩ := hp
  refine .left (relates_derived List.mem_cons_self ?_) fun y => .fact fun hy => ?_
  · intro hbare
    exact wrap_bare hp hbare
  rw [hy]
  refine .bind relates_liveKey fun key key' => .fact fun hkey => ?_
  subst hkey
  refine .bind (relates_aesEncrypt ?_) fun ct ct' => .fact fun hct => ?_
  · intro ct d' hd
    obtain rfl := List.mem_singleton.mp hd
    exact ⟨y.1, by rw [← hy]; exact List.mem_cons_self⟩
  subst hct
  have hcompressed : (lies, B.compress x.2) ∈ y :: (lies, B.compress x.2) :: x :: ks := by simp
  have hpickled : (x.1, x.2) ∈ y :: (lies, B.compress x.2) :: x :: ks := by simp
  refine .left (relates_wipeCopy hcompressed) fun _ => .left (relates_wipeCopy hpickled) fun _ => ?_
  refine .mono (.ofExcept _ fun _ _ _ h => h.toHolds) (fun _ _ _ h => h) fun wire wire' past m t h => ?_
  obtain ⟨⟨rfl, -⟩, h⟩ := h
  exact ⟨rfl, h.toHolds⟩

end Necromancer

end Amcrypt.Memory
