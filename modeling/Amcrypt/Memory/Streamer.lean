/-
  Amcrypt.Memory.Streamer — the `Streamer` (`stream.py`) with its buffers.

  The key is a `bytearray` that the ratchet and `destroy` wipe and replace. AES-GCM and HKDF
  are given `bytes(self._key)`, a copy that is never wiped: `copies` lists it with every call.
  `_secure_wipe` and `_to_writable` are those of `core.py`, written again.

  `relates_sealChunk`, `relates_openChunk` and `relates_destroy`: these bodies do what those
  of `Amcrypt.Stream.Streamer` do, keeping `Holds`.
-/

import Amcrypt.Memory.Necromancer
import Amcrypt.Stream.Streamer

namespace Amcrypt.Memory

open Lib Amcrypt.Stream

structure Streamer where
  key : Addr
  ratchet : Bool
  step : Nat

variable (B : Backend)

namespace Streamer

/-- `Streamer.__init__`; `key` is the caller's buffer. -/
def new (key : Addr) (ratchet : Bool := true) : Py (Mem Unit) Streamer := do
  let m ← Method.get
  let data := m.heap.data key
  if data.length = 32 then do
    let copy ← newBytearray data
    pure ⟨copy, ratchet, 0⟩
  else Method.raise (.valueError "Key must be exactly 32 bytes")

theorem new_apply {m : Mem Unit} {a : Addr} {b : Buffer} (h : m.heap[a]? = some b) (ratchet : Bool) :
    new a ratchet m = if b.data.length = 32 then
        ⟨.ok ⟨m.heap.length, ratchet, 0⟩, ⟨m.heap ++ [⟨true, b.data⟩], ()⟩, []⟩
      else ⟨.error (.valueError "Key must be exactly 32 bytes"), m, []⟩ := by
  simp only [new, Method.bind_apply, Method.get_apply, Out.andThen_ok, Out.after_nil, Heap.data_of h]
  split <;> rfl

/-- `bytes(self._key)`. -/
def keyBytes : Py (Mem Streamer) (Addr × Key) := do
  let m ← Method.get
  let key ← Method.ofExcept (asKey (m.heap.data m.self.key))
  let a ← newBytes key.val
  pure (a, key)

/-! ## Key ratcheting -/

/-- The old key wiped, and a new buffer in its place. -/
def replaceKey (newKey : Bytes) : Py (Mem Streamer) Unit := do
  let m ← Method.get
  secureWipe m.self.key
  let a ← newBytearray newKey
  assign fun self => { self with key := a }

def ratchetForward : Py (Mem Streamer) Unit := do
  let m ← Method.get
  if m.self.ratchet then do
    let key ← keyBytes
    let newKey ← Method.ofExcept (ratchetKey B key.2 m.self.step)
    let _ ← newBytes newKey.val
    assign fun self => { self with step := self.step + 1 }
    replaceKey newKey.val
  else pure ()

/-! ## `seal` and `open` -/

def sealChunk (chunk : Bytes) (nonce : Nonce) : Py (Mem Streamer) (Option Bytes) :=
  if chunk = [] then pure none
  else do
    let key ← keyBytes
    let (nonce, ciphertextWithTag) ← aesEncrypt B key.2 chunk none nonce
    let lenBytes ← Method.ofExcept (packUInt lenField (nonceLen + ciphertextWithTag.length))
    ratchetForward B
    pure (some (lenBytes ++ (nonce.val ++ ciphertextWithTag)))

def openChunk (wire : Bytes) : Py (Mem Streamer) Bytes := do
  let (nonce, ciphertextWithTag) ← Method.ofExcept (readChunk wire)
  let key ← keyBytes
  let verdict ← Method.attempt (aesDecrypt B key.2 nonce ciphertextWithTag none)
  match verdict with
  | .error e => Method.raise (rejection e)
  | .ok plaintext => do
    ratchetForward B
    pure plaintext.2

def destroy : Py (Mem Streamer) Unit := replaceKey deadKey.val

/-! ## The object that it stands for -/

structure Same (x : Streamer) (y : Stream.Streamer) : Prop where
  ratchet : x.ratchet = y.ratchet
  step : x.step = y.step

/-- The `bytes` objects a call of a `Streamer` leaves: the key it was made with, and what
    AES-GCM opened. -/
def copies : Call → List Bytes
  | .encrypt key _ _ _ _ => [key.val]
  | .decrypt key _ _ _ (.ok plaintext) => [key.val, plaintext]
  | .decrypt key _ _ _ (.error _) => [key.val]
  | _ => []

def layout : Layout Streamer Stream.Streamer := ⟨Same, (some ·.key), (some ·.key), copies⟩

/-! ## Its methods -/

variable {B : Backend} {start m : Mem Streamer} {ks : List (Addr × Bytes)} {past : List Call} {t : Stream.Streamer}

theorem key_lies (h : KeyAt m.heap (layout.keyAt m.self) (layout.keyOf t)) :
    m.heap[m.self.key]? = some ⟨true, t.key.val⟩ := by
  cases h with
  | lies a key hk => exact hk

theorem keyBytes_apply (hk : m.heap[m.self.key]? = some ⟨true, t.key.val⟩) :
    keyBytes m = ⟨.ok (m.heap.length, t.key), ⟨m.heap ++ [⟨false, t.key.val⟩], m.self⟩, []⟩ := by
  simp only [keyBytes, Method.bind_apply, Method.get_apply, Out.andThen_ok, Out.after_nil, Heap.data_of hk,
    Necromancer.asKey_val]
  rfl

theorem replaceKey_apply {d : Bytes} (hk : m.heap[m.self.key]? = some ⟨true, d⟩) (newKey : Bytes) :
    replaceKey newKey m = ⟨.ok (),
      ⟨m.heap.write m.self.key (zeros d.length) ++ [⟨true, newKey⟩], { m.self with key := m.heap.length }⟩, []⟩ := by
  simp only [replaceKey, Method.bind_apply, Method.get_apply, Out.andThen_ok, Out.after_nil, secureWipe_apply hk,
    newBytearray, alloc, assign, Method.modify_apply, Heap.length_write]

/-- The old key is wiped where it lies, and the new one is in new memory. -/
theorem Holds.replaceKey (h : Holds B layout start past m t) (newKey : Key) :
    Holds B layout start past ⟨m.heap.write m.self.key (zeros t.key.val.length) ++ [⟨true, newKey.val⟩],
      { m.self with key := m.heap.length }⟩ { t with key := newKey } := by
  have hsame : Same { m.self with key := m.heap.length } { t with key := newKey } := ⟨h.same.ratchet, h.same.step⟩
  exact h.rekey rfl (key_lies h.key) hsame rfl rfl _

theorem relates_destroy : Method.Relates (Holding B layout start ks) destroy Stream.destroy
    (fun _ _ => Holds B layout start) (Holds B layout start) := by
  intro past m t h
  rw [destroy, replaceKey_apply (key_lies h.key)]
  refine .ok ?_
  rw [List.append_nil]
  exact Holds.replaceKey h.toHolds deadKey

/-- What `bytes(self._key)` copies is the key, and the copy stays. -/
theorem relates_keyBytes : Method.Relates (Holding B layout start ks) keyBytes (Method.get : Py Stream.Streamer _)
    (fun x self past m t => x.2 = self.key ∧ Holding B layout start ((x.1, x.2.val) :: ks) past m t)
    (Holds B layout start) := by
  intro past m t h
  rw [keyBytes_apply (key_lies h.key), Method.get_apply]
  refine .ok ⟨rfl, ?_⟩
  rw [List.append_nil]
  exact (h.alloc fun hm => by cases hm).cons (Heap.alloc_here _ _)

theorem relates_ratchetForward :
    Method.Relates (Holding B layout start ks) (ratchetForward B) (Stream.ratchetForward B)
      (fun _ _ => Holds B layout start) (Holds B layout start) := by
  intro past m t h
  simp only [ratchetForward, Stream.ratchetForward, Method.bind_apply, Method.get_apply, Out.andThen_ok, Out.after_nil]
  rw [h.same.ratchet, h.same.step]
  cases hr : t.ratchet with
  | false =>
    refine .ok ?_
    rw [List.append_nil]
    exact h.toHolds
  | true =>
    have hcopied := h.alloc (b := ⟨false, t.key.val⟩) fun hm => by cases hm
    simp only [if_true, Method.bind_apply, keyBytes_apply (key_lies h.key), Out.andThen_ok, Out.after_nil,
      Method.ofExcept_apply]
    cases ratchetKey B t.key t.step with
    | error e =>
      refine .error ?_
      rw [List.append_nil]
      exact hcopied.toHolds
    | ok newKey =>
      have hderived := (hcopied.alloc (b := ⟨false, newKey.val⟩) fun hm => by cases hm).toHolds
      have hcounted := hderived.assign (x := { m.self with step := m.self.step + 1 }) (y := { t with step := t.step + 1 })
        ⟨h.same.ratchet, congrArg (· + 1) h.same.step⟩ rfl rfl
      have hreplaced := Holds.replaceKey hcounted newKey
      simp only [Out.andThen_ok, Out.after_nil, Method.bind_apply, newBytes, alloc, assign, Method.modify_apply,
        replaceKey_apply (key_lies hcounted.key)]
      refine .ok ?_
      rw [List.append_nil]
      exact hreplaced

theorem relates_sealChunk (chunk : Bytes) (nonce : Nonce) :
    Method.Relates (Holding B layout start ks) (sealChunk B chunk nonce) (Stream.sealChunk B chunk nonce)
      (fun wire wire' past m t => wire = wire' ∧ Holds B layout start past m t) (Holds B layout start) := by
  unfold sealChunk Stream.sealChunk
  split
  · exact .pure fun _ _ _ h => ⟨rfl, h.toHolds⟩
  · refine .bind relates_keyBytes fun x self => .fact fun hkey => ?_
    rw [hkey]
    refine .bind (relates_aesEncrypt ?_) fun ct ct' => .fact fun hct => ?_
    · intro ct d hd
      obtain rfl := List.mem_singleton.mp hd
      exact ⟨x.1, by rw [← hkey]; exact List.mem_cons_self⟩
    subst hct
    refine .bind (.ofExcept _ fun _ _ _ h => h.toHolds) fun lenBytes _ => .fact fun hlen => ?_
    obtain ⟨rfl, -⟩ := hlen
    exact .bind relates_ratchetForward fun _ _ => .pure fun _ _ _ h => ⟨rfl, h⟩

theorem relates_openChunk (wire : Bytes) :
    Method.Relates (Holding B layout start ks) (openChunk B wire) (Stream.openChunk B wire)
      (fun p p' past m t => p = p' ∧ Holds B layout start past m t) (Holds B layout start) := by
  refine .bind (.ofExcept _ fun _ _ _ h => h.toHolds) fun parts parts' => .fact fun hparts => ?_
  obtain ⟨rfl, -⟩ := hparts
  obtain ⟨nonce, ct⟩ := parts
  refine .bind relates_keyBytes fun x self => .fact fun hkey => ?_
  rw [hkey]
  refine .bind (.attempt (relates_aesDecrypt ?_)) fun r r' => ?_
  · intro r d hd
    have hcopy : ∃ a, (a, self.key.val) ∈ (x.1, self.key.val) :: ks := ⟨x.1, List.mem_cons_self⟩
    cases r with
    | ok p =>
      rcases List.mem_cons.mp hd with rfl | hd
      · exact .inr hcopy
      · obtain rfl := List.mem_singleton.mp hd
        exact .inl rfl
    | error e =>
      obtain rfl := List.mem_singleton.mp hd
      exact .inr hcopy
  · match r, r' with
    | .ok y, .ok p =>
      refine .fact fun hy => .bind relates_ratchetForward fun _ _ => .pure fun _ _ _ h => ⟨hy, h⟩
    | .error e, .error e' =>
      refine .fact fun he => ?_
      subst he
      exact .raise _ fun _ _ _ h => h.toHolds
    | .ok _, .error _ => exact .absurd fun _ _ _ h => h
    | .error _, .ok _ => exact .absurd fun _ _ _ h => h

end Streamer

end Amcrypt.Memory
