/-
  Amcrypt.Stream.Streamer — the `Streamer` (`stream.py`): its state, the body of the
  `seal` and `open` loops, and the generators they run in.

  `chunk length (4) | nonce (12) | ciphertext + tag`

  The object is its key and its ratchet step. A generator keeps nothing but the rest of
  its iterator: everything else it reads from the object at every iteration, so a
  generator made before some call sees what that call did. `SealExit` and `OpenExit`
  list every way an iteration can end; `ratcheted` is where the key goes after one.
  The chunk size is stored by the constructor and read by nothing.
-/

import Amcrypt.Crypto
import Amcrypt.Lib.Chain

namespace Amcrypt.Stream

open Lib

variable (B : Backend)

def lenField : Nat := 4
def nonceLen : Nat := 12

structure Streamer where
  key : Key
  ratchet : Bool
  step : Nat

/-- `Streamer.__init__`. -/
def Streamer.new (key : Bytes) (ratchet : Bool := true) : Except PyErr Streamer :=
  if h : key.length = 32 then .ok ⟨⟨key, h⟩, ratchet, 0⟩ else .error (.valueError "Key must be exactly 32 bytes")

/-! ## Key ratcheting -/

def ratchetForward : Py Streamer Unit := do
  let self ← Method.get
  if self.ratchet then do
    let newKey ← Method.ofExcept (ratchetKey B self.key self.step)
    Method.modify fun self => { self with key := newKey, step := self.step + 1 }
  else pure ()

def ratchetBackward : Py Streamer Unit := ratchetForward B

/-! ## `seal` and `open` -/

def wireChunk (nonce : Nonce) (ciphertextWithTag : Bytes) : Bytes :=
  BigEndian.encode lenField (nonceLen + ciphertextWithTag.length) ++ (nonce.val ++ ciphertextWithTag)

/-- The body of `seal`'s loop; `none` is an empty chunk, skipped. -/
def sealChunk (chunk : Bytes) (nonce : Nonce) : Py Streamer (Option Bytes) :=
  if chunk = [] then pure none
  else do
    let self ← Method.get
    let (nonce, ciphertextWithTag) ← aesEncrypt B self.key chunk none nonce
    let lenBytes ← Method.ofExcept (packUInt lenField (nonceLen + ciphertextWithTag.length))
    ratchetForward B
    pure (some (lenBytes ++ (nonce.val ++ ciphertextWithTag)))

def tooShort : PyErr := mutilatedCorpseError "Encrypted chunk too short"
def truncated : PyErr := mutilatedCorpseError "Encrypted chunk truncated"
def authenticationFailed : PyErr := mutilatedCorpseError "Chunk authentication failed: data tampered or wrong key"

/-- The nonce and the ciphertext of a wire chunk, as `open` cuts them out. -/
def readChunk (wire : Bytes) : Except PyErr (Bytes × Bytes) :=
  if wire.length < lenField + nonceLen + 16 then throw tooShort
  else do
    let payloadLen ← unpackFrom lenField wire 0
    if wire.length < lenField + payloadLen then throw truncated
    else
      pure (slice lenField (lenField + nonceLen) wire, slice (lenField + nonceLen) (lenField + payloadLen) wire)

/-- What `open` raises where AES-GCM raised `e`. -/
def rejection (e : PyErr) : PyErr := if e = .invalidTag then authenticationFailed else e

/-- The body of `open`'s loop. -/
def openChunk (wire : Bytes) : Py Streamer Bytes := do
  let (nonce, ciphertextWithTag) ← Method.ofExcept (readChunk wire)
  let self ← Method.get
  let verdict ← Method.attempt (aesDecrypt B self.key nonce ciphertextWithTag none)
  match verdict with
  | .error e => Method.raise (rejection e)
  | .ok plaintext => do
    ratchetForward B
    pure plaintext

/-- 32 zero bytes. -/
def deadKey : Key := ⟨List.replicate 32 0, rfl⟩

def destroy : Py Streamer Unit := Method.modify fun self => { self with key := deadKey }

/-! ## Where the key goes -/

variable {B}

/-- The object after one chunk. -/
def ratcheted (B : Backend) (s : Streamer) : Option Streamer :=
  if s.ratchet then
    match ratchetKey B s.key s.step with
    | .ok newKey => some { s with key := newKey, step := s.step + 1 }
    | .error _ => none
  else some s

/-- A step past 64 bits does not pack; nothing else stops the ratchet. -/
theorem ratchetKey_error {key : Key} {step : Nat} {e : PyErr} (h : ratchetKey B key step = .error e) :
    e = .structError ∧ 2 ^ 64 ≤ step := by
  simp only [ratchetKey, packUInt] at h
  split at h
  · cases h
  · rename_i hn
    exact ⟨(Except.error.inj h).symm, by omega⟩

theorem ratcheted_eq_none {s : Streamer} : ratcheted B s = none ↔ s.ratchet = true ∧ 2 ^ 64 ≤ s.step := by
  unfold ratcheted
  split
  · rename_i hr
    simp only [hr, true_and]
    split
    · rename_i newKey hk
      simp only [ratchetKey, packUInt] at hk
      split at hk
      · simp; omega
      · cases hk
    · rename_i e hk
      simpa using (ratchetKey_error hk).2
  · simp_all

theorem ratchetForward_some {s s' : Streamer} (h : ratcheted B s = some s') :
    ratchetForward B s = ⟨.ok (), s', []⟩ := by
  unfold ratcheted at h
  simp only [ratchetForward, Method.bind_apply, Method.get_apply, Out.andThen_ok, Out.after_nil]
  split at h
  · rename_i hr
    cases hk : ratchetKey B s.key s.step with
    | ok newKey =>
      rw [hk] at h
      obtain rfl := Option.some.inj h
      simp only [hr, if_true, Method.bind_apply, Method.ofExcept_apply, Out.andThen_ok, Method.modify_apply,
        Out.after_nil]
    | error e => rw [hk] at h; cases h
  · rename_i hr
    simp only [hr, if_false, Bool.false_eq_true]
    rw [Option.some.inj h]
    rfl

theorem ratchetForward_none {s : Streamer} (h : ratcheted B s = none) :
    ratchetForward B s = ⟨.error .structError, s, []⟩ := by
  obtain ⟨hr, -⟩ := ratcheted_eq_none.mp h
  cases hk : ratchetKey B s.key s.step with
  | ok newKey => simp [ratcheted, hr, hk] at h
  | error e =>
    obtain ⟨rfl, -⟩ := ratchetKey_error hk
    simp [ratchetForward, hr, hk]

/-- After `n` chunks the step counter of a ratcheting object is `n`, at most 2^64. -/
theorem step_of_chain {key : Key} {ratchet : Bool} {n : Nat} {s : Streamer}
    (h : chain (ratcheted B) ⟨key, ratchet, 0⟩ n = some s) :
    s.ratchet = ratchet ∧ (ratchet = true → s.step = n ∧ n ≤ 2 ^ 64) := by
  refine chain_induction (P := fun n s => s.ratchet = ratchet ∧ (ratchet = true → s.step = n ∧ n ≤ 2 ^ 64))
    ⟨rfl, fun _ => ⟨rfl, by omega⟩⟩ ?_ h
  intro n s s' hx hs
  obtain ⟨hr, hn⟩ := hx
  have hsome : ratcheted B s ≠ none := by rw [hs]; simp
  rw [ne_eq, ratcheted_eq_none, hr] at hsome
  unfold ratcheted at hs
  split at hs
  · split at hs
    · obtain rfl := Option.some.inj hs
      refine ⟨hr, ?_⟩
      intro ht
      obtain ⟨hstep, -⟩ := hn ht
      simp only [ht, true_and, hstep] at hsome
      exact ⟨by rw [hstep], by omega⟩
    · cases hs
  · rename_i hoff
    obtain rfl := Option.some.inj hs
    exact ⟨hr, fun ht => absurd (hr.trans ht) hoff⟩

/-! ## The wire format -/

/-- What `open` reads of a piece that begins with a chunk that `seal` framed: the chunk, and
    nothing of what follows. -/
theorem readChunk_append (nonce : Nonce) {ct : Bytes} (htag : 16 ≤ ct.length)
    (hfit : nonceLen + ct.length < 256 ^ lenField) (rest : Bytes) :
    readChunk (wireChunk nonce ct ++ rest) = .ok (nonce.val, ct) := by
  have hn := nonce.property
  have hlen : (wireChunk nonce ct ++ rest).length = lenField + (nonceLen + ct.length) + rest.length := by
    simp [wireChunk, nonceLen, hn]
    omega
  have h1 : unpackFrom lenField (wireChunk nonce ct ++ rest) 0 = .ok (nonceLen + ct.length) := by
    simpa [wireChunk] using unpackFrom_append (w := lenField) hfit [] (nonce.val ++ ct ++ rest) rfl
  have h2 : slice lenField (lenField + nonceLen) (wireChunk nonce ct ++ rest) = nonce.val := by
    have := slice_append_right (b := nonce.val) (c := ct ++ rest) (j := lenField + nonceLen)
      (BigEndian.length_encode lenField (nonceLen + ct.length)) (by rw [hn]; rfl)
    simpa [wireChunk] using this
  have h3 : slice (lenField + nonceLen) (lenField + (nonceLen + ct.length)) (wireChunk nonce ct ++ rest) = ct := by
    have := slice_append_right (a := BigEndian.encode lenField (nonceLen + ct.length) ++ nonce.val) (b := ct) (c := rest)
      (i := lenField + nonceLen) (j := lenField + (nonceLen + ct.length)) (by simp [hn, nonceLen]) (by omega)
    simpa [wireChunk] using this
  have n1 : ¬ (wireChunk nonce ct ++ rest).length < lenField + nonceLen + 16 := by omega
  have n2 : ¬ (wireChunk nonce ct ++ rest).length < lenField + (nonceLen + ct.length) := by omega
  simp only [readChunk, if_neg n1, h1, ok_bind, if_neg n2, h2, h3]
  rfl

theorem readChunk_wireChunk (nonce : Nonce) {ct : Bytes} (htag : 16 ≤ ct.length)
    (hfit : nonceLen + ct.length < 256 ^ lenField) : readChunk (wireChunk nonce ct) = .ok (nonce.val, ct) := by
  simpa using readChunk_append nonce htag hfit []

/-- The slices that `open` cuts out, and the length field it cuts them by. -/
theorem readChunk_ok {wire nonce ct : Bytes} (h : readChunk wire = .ok (nonce, ct)) :
    ∃ len, slice 0 lenField wire = BigEndian.encode lenField len ∧ len < 256 ^ lenField ∧
      lenField + nonceLen + 16 ≤ wire.length ∧ lenField + len ≤ wire.length ∧
      nonce = slice lenField (lenField + nonceLen) wire ∧ ct = slice (lenField + nonceLen) (lenField + len) wire := by
  unfold readChunk at h
  split at h
  · cases h
  rename_i hlong
  simp only [bind_eq_ok] at h
  obtain ⟨len, hp, h⟩ := h
  split at h
  · cases h
  rename_i hfull
  obtain ⟨rfl, rfl⟩ := Prod.mk.inj (Except.ok.inj h)
  rw [unpackFrom_ok (by omega)] at hp
  obtain rfl := Except.ok.inj hp
  have hw : (slice 0 (0 + lenField) wire).length = lenField := by rw [length_slice]; omega
  have hlt := BigEndian.decode_lt (slice 0 (0 + lenField) wire)
  have hback := BigEndian.encode_decode (slice 0 (0 + lenField) wire)
  rw [hw] at hlt hback
  exact ⟨_, by rw [hback, Nat.zero_add], hlt, by omega, by omega, rfl, rfl⟩

theorem readChunk_nonce {wire nonce ct : Bytes} (h : readChunk wire = .ok (nonce, ct)) : nonce.length = 12 := by
  obtain ⟨len, -, -, hlong, -, rfl, -⟩ := readChunk_ok h
  rw [length_slice, Nat.min_eq_left (by omega), Nat.add_sub_cancel_left, nonceLen]

/-- Whatever `open` cuts out of a piece, the piece begins with a chunk of it. -/
theorem readChunk_prefix {wire ct : Bytes} {nonce : Nonce} (h : readChunk wire = .ok (nonce.val, ct)) (hct : ct ≠ []) :
    wireChunk nonce ct <+: wire := by
  obtain ⟨len, hfield, -, hlong, hfull, hn, hc⟩ := readChunk_ok h
  have hlen : ct.length = lenField + len - (lenField + nonceLen) := by
    rw [hc, length_slice, Nat.min_eq_left hfull]
  have hpos := List.length_pos_iff.mpr hct
  obtain rfl : len = nonceLen + ct.length := by omega
  have hwire : wireChunk nonce ct = wire.take (lenField + (nonceLen + ct.length)) := by
    calc wireChunk nonce ct
        = slice 0 lenField wire ++ (slice lenField (lenField + nonceLen) wire ++
            slice (lenField + nonceLen) (lenField + (nonceLen + ct.length)) wire) := by
          rw [hfield, ← hn, ← hc, wireChunk]
      _ = slice 0 (lenField + (nonceLen + ct.length)) wire := by
          rw [slice_append_slice (by omega) (by omega), slice_append_slice (by omega) (by omega)]
      _ = wire.take (lenField + (nonceLen + ct.length)) := by rw [slice, List.drop_zero]
  rw [hwire]
  exact List.take_prefix _ _

/-- Whatever `open` cuts out fits the length field. -/
theorem readChunk_fits {wire nonce ct : Bytes} (h : readChunk wire = .ok (nonce, ct)) :
    nonceLen + ct.length < 256 ^ lenField := by
  obtain ⟨len, -, hlt, -, -, -, rfl⟩ := readChunk_ok h
  have : nonceLen < 256 ^ lenField := by decide
  rw [length_slice]
  omega

theorem readChunk_error {wire : Bytes} {e : PyErr} (h : readChunk wire = .error e) :
    e.isA .mutilatedCorpse = true := by
  unfold readChunk at h
  split at h
  · cases h; rfl
  rename_i hlong
  rw [unpackFrom_ok (by omega), ok_bind] at h
  split at h
  · cases h; rfl
  · cases h

/-! ## Every way an iteration can end -/

/-- One iteration of `seal`. -/
inductive SealExit (B : Backend) (chunk : Bytes) (nonce : Nonce) (s : Streamer) :
    Out PyErr Call Streamer (Option Bytes) → Prop
  | skipped : chunk = [] → SealExit B chunk nonce s ⟨.ok none, s, []⟩
  /-- Too long for the length field, or the ratchet is at its end: sealed, but never sent. -/
  | refused (ct : Bytes) : chunk ≠ [] → ct = B.gcmEncrypt s.key nonce.val chunk none →
      256 ^ lenField ≤ nonceLen + ct.length ∨ ratcheted B s = none →
      SealExit B chunk nonce s ⟨.error .structError, s, [.encrypt s.key nonce none chunk ct]⟩
  | sealed (ct : Bytes) (s' : Streamer) : chunk ≠ [] → ct = B.gcmEncrypt s.key nonce.val chunk none →
      nonceLen + ct.length < 256 ^ lenField → ratcheted B s = some s' →
      SealExit B chunk nonce s ⟨.ok (some (wireChunk nonce ct)), s', [.encrypt s.key nonce none chunk ct]⟩

theorem sealChunk_exit (chunk : Bytes) (nonce : Nonce) (s : Streamer) :
    SealExit B chunk nonce s (sealChunk B chunk nonce s) := by
  by_cases hc : chunk = []
  · rw [sealChunk, if_pos hc]
    exact .skipped hc
  generalize hct : B.gcmEncrypt s.key nonce.val chunk none = ct
  rw [sealChunk, if_neg hc]
  simp only [Method.bind_apply, Method.get_apply, Out.andThen_ok, Out.after_nil, aesEncrypt, Method.record_apply,
    Method.pure_apply, Out.after_mk, hct, Method.ofExcept_apply, packUInt, List.append_nil]
  by_cases hfit : nonceLen + ct.length < 256 ^ lenField
  · cases hr : ratcheted B s with
    | none =>
      simp only [if_pos hfit, Out.andThen_ok, Method.bind_apply, ratchetForward_none hr, Out.andThen_error, Out.after_mk,
        List.append_nil]
      exact .refused ct hc hct.symm (.inr hr)
    | some s' =>
      simp only [if_pos hfit, Out.andThen_ok, Method.bind_apply, ratchetForward_some hr, Method.pure_apply,
        Out.after_mk, List.append_nil]
      exact .sealed ct s' hc hct.symm hfit hr
  · simp only [if_neg hfit, Out.andThen_error, Out.after_mk, List.append_nil]
    exact .refused ct hc hct.symm (.inl (by omega))

/-- One iteration of `open`. -/
inductive OpenExit (B : Backend) (wire : Bytes) (s : Streamer) : Out PyErr Call Streamer Bytes → Prop
  | malformed (e : PyErr) : readChunk wire = .error e → OpenExit B wire s ⟨.error e, s, []⟩
  | rejected (nonce ct : Bytes) (e : PyErr) : readChunk wire = .ok (nonce, ct) →
      B.gcmDecrypt s.key nonce ct none = .error e →
      OpenExit B wire s ⟨.error (rejection e), s, [.decrypt s.key nonce ct none (.error e)]⟩
  /-- Authentic, and lost: the ratchet is at its end. -/
  | stuck (nonce ct p : Bytes) : readChunk wire = .ok (nonce, ct) → B.gcmDecrypt s.key nonce ct none = .ok p →
      ratcheted B s = none → OpenExit B wire s ⟨.error .structError, s, [.decrypt s.key nonce ct none (.ok p)]⟩
  | opened (nonce ct p : Bytes) (s' : Streamer) : readChunk wire = .ok (nonce, ct) →
      B.gcmDecrypt s.key nonce ct none = .ok p → ratcheted B s = some s' →
      OpenExit B wire s ⟨.ok p, s', [.decrypt s.key nonce ct none (.ok p)]⟩

theorem openChunk_exit (wire : Bytes) (s : Streamer) : OpenExit B wire s (openChunk B wire s) := by
  cases hf : readChunk wire with
  | error e =>
    simp only [openChunk, Method.bind_apply, Method.ofExcept_apply, hf, Out.andThen_error]
    exact .malformed e hf
  | ok frame =>
  obtain ⟨nonce, ct⟩ := frame
  simp only [openChunk, Method.bind_apply, Method.ofExcept_apply, hf, Out.andThen_ok, Out.after_nil, Method.get_apply,
    Method.attempt_apply, aesDecrypt, Method.record_apply, Out.after_result, Out.after_self, Out.after_calls,
    List.append_nil]
  cases hg : B.gcmDecrypt s.key nonce ct none with
  | error e => exact .rejected nonce ct e hf hg
  | ok p =>
    cases hr : ratcheted B s with
    | none =>
      simp only [Method.bind_apply, ratchetForward_none hr, Out.andThen_error, Out.after_mk, List.append_nil]
      exact .stuck nonce ct p hf hg hr
    | some s' =>
      simp only [Method.bind_apply, ratchetForward_some hr, Out.andThen_ok, Method.pure_apply, Out.after_mk,
        List.append_nil]
      exact .opened nonce ct p s' hf hg hr

/-- A chunk is rejected without a trace on the object. -/
theorem openChunk_error_self {wire : Bytes} {s : Streamer} {e : PyErr}
    (h : (openChunk B wire s).result = .error e) : (openChunk B wire s).self = s := by
  have hx := openChunk_exit (B := B) wire s
  generalize openChunk B wire s = out at h hx
  cases hx with
  | opened nonce ct p s' => cases h
  | _ => rfl

theorem openChunk_opened {wire nonce ct p : Bytes} {s s' : Streamer} (hf : readChunk wire = .ok (nonce, ct))
    (hg : B.gcmDecrypt s.key nonce ct none = .ok p) (hr : ratcheted B s = some s') :
    openChunk B wire s = ⟨.ok p, s', [.decrypt s.key nonce ct none (.ok p)]⟩ := by
  have hx := openChunk_exit (B := B) wire s
  generalize openChunk B wire s = out at hx
  cases hx with
  | malformed e h => rw [hf] at h; cases h
  | rejected n c e h hd =>
    obtain ⟨rfl, rfl⟩ := Prod.mk.inj (Except.ok.inj (hf.symm.trans h))
    rw [hg] at hd; cases hd
  | stuck n c q h hd hs => rw [hr] at hs; cases hs
  | opened n c q s'' h hd hs =>
    obtain ⟨rfl, rfl⟩ := Prod.mk.inj (Except.ok.inj (hf.symm.trans h))
    obtain rfl := Except.ok.inj (hg.symm.trans hd)
    obtain rfl := Option.some.inj (hr.symm.trans hs)
    rfl

end Amcrypt.Stream
