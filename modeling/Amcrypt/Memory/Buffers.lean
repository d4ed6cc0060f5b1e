/-
  Amcrypt.Memory.Buffers — Python's byte buffers, and what wiping does to them.

  `bytes` objects are not mutable, `bytearray`s are; both lie in one heap, and nobody clears
  an object that is given up. `secure_wipe` overwrites a writable buffer with zeros.
  `_to_writable` copies what is not writable, so that a wipe of `bytes` wipes the copy:
  `wipeCopy_apply` says what such a wipe does to the heap, which is to add zeros to it.

  `Holds` relates an object whose key lies in the heap (`Layout`) to one that is its key, as
  the other modules have it: what every method keeps of the heap, and what the calls it makes
  leave there.
-/

import Amcrypt.Crypto
import Amcrypt.Lib.Heap
import Amcrypt.Lib.Relational

namespace Amcrypt.Memory

open Lib

/-- An object, in the memory that its fields point into. -/
structure Mem (σ : Type) where
  heap : Heap
  self : σ

section
variable {σ : Type}

def alloc (b : Buffer) : Py (Mem σ) Addr := fun m => ⟨.ok m.heap.length, ⟨m.heap ++ [b], m.self⟩, []⟩

/-- A call that returns `bytes`: a new object. -/
def newBytes (data : Bytes) : Py (Mem σ) Addr := alloc ⟨false, data⟩

/-- `bytearray(data)`: a copy. -/
def newBytearray (data : Bytes) : Py (Mem σ) Addr := alloc ⟨true, data⟩

def zeros (n : Nat) : Bytes := List.replicate n 0

/-- `secure_wipe` of the buffer at `a`; `from_buffer` takes none that is not writable. -/
def secureWipe (a : Addr) : Py (Mem σ) Unit := do
  let m ← Method.get
  let nbytes := (m.heap.data a).length
  if nbytes = 0 then pure ()
  else if m.heap.isMutable a then Method.modify fun m => ⟨m.heap.write a (zeros nbytes), m.self⟩
  else Method.raise .typeError

/-- `_to_writable`. -/
def toWritable (a : Addr) : Py (Mem σ) Addr := do
  let m ← Method.get
  if m.heap.isMutable a then pure a else newBytearray (m.heap.data a)

/-- `secure_wipe(memoryview(_to_writable(data)))`. -/
def wipeCopy (a : Addr) : Py (Mem σ) Unit := do
  let b ← toWritable a
  secureWipe b

/-- An assignment to a field. -/
def assign (f : σ → σ) : Py (Mem σ) Unit := Method.modify fun m => ⟨m.heap, f m.self⟩

variable (B : Backend)

/-- `pickle.dumps`, and where its result lies. -/
def dumps (obj : B.Obj) : Py (Mem σ) (Addr × Bytes) := do
  let data ← Method.ofExcept (B.dumps obj)
  let a ← newBytes data
  Method.record (.dumps data)
  pure (a, data)

/-- `aes_decrypt`: what it opened is a `bytes` object. -/
def aesDecrypt (key : Key) (nonce ciphertextWithTag : Bytes) (associatedData : Option Bytes) :
    Py (Mem σ) (Addr × Bytes) :=
  match B.gcmDecrypt key nonce ciphertextWithTag associatedData with
  | .ok plaintext => do
    let a ← newBytes plaintext
    Method.record (.decrypt key nonce ciphertextWithTag associatedData (.ok plaintext))
    pure (a, plaintext)
  | .error e => do
    Method.record (.decrypt key nonce ciphertextWithTag associatedData (.error e))
    Method.raise e

/-- A value computed from the object at `x.1`: that object, where `kept`, or a new one. -/
def derived (x : Addr × Bytes) (kept : Bool) (data : Bytes) : Py (Mem σ) (Addr × Bytes) :=
  if kept then pure x
  else do
    let a ← newBytes data
    pure (a, data)

/-! ## What a wipe does -/

variable {m : Mem σ} {a : Addr} {d : Bytes}

@[simp] theorem length_zeros (n : Nat) : (zeros n).length = n := List.length_replicate

theorem secureWipe_apply (h : m.heap[a]? = some ⟨true, d⟩) :
    secureWipe a m = ⟨.ok (), ⟨m.heap.write a (zeros d.length), m.self⟩, []⟩ := by
  simp only [secureWipe, Method.bind_apply, Method.get_apply, Out.andThen_ok, Out.after_nil, Heap.data_of h,
    Heap.isMutable_of h]
  split
  · rename_i hnil
    have hsame : m.heap.write a (zeros d.length) = m.heap := by
      refine List.ext_getElem? fun i => ?_
      by_cases hi : i = a
      · subst hi
        rw [Heap.write_here h, h, hnil, List.length_eq_zero_iff.mp hnil]
        rfl
      · exact Heap.write_elsewhere hi _
    rw [hsame]
    rfl
  · rfl

/-- Of what is not writable, a copy is made. -/
theorem toWritable_apply (h : m.heap[a]? = some ⟨false, d⟩) :
    toWritable a m = ⟨.ok m.heap.length, ⟨m.heap ++ [⟨true, d⟩], m.self⟩, []⟩ := by
  simp only [toWritable, Method.bind_apply, Method.get_apply, Out.andThen_ok, Out.after_nil, Heap.data_of h,
    Heap.isMutable_of h]
  rfl

/-- The copy, wiped. -/
theorem secureWipe_last (m : Mem σ) (d : Bytes) :
    secureWipe m.heap.length ⟨m.heap ++ [⟨true, d⟩], m.self⟩ =
      ⟨.ok (), ⟨m.heap ++ [⟨true, zeros d.length⟩], m.self⟩, []⟩ := by
  have hlast : (⟨m.heap ++ [⟨true, d⟩], m.self⟩ : Mem σ).heap[m.heap.length]? = some ⟨true, d⟩ :=
    Heap.alloc_here _ _
  rw [secureWipe_apply hlast]
  dsimp only
  rw [Heap.write_last]

/-- Wiping a `bytes` object leaves it as it is. -/
theorem wipeCopy_apply (h : m.heap[a]? = some ⟨false, d⟩) :
    wipeCopy a m = ⟨.ok (), ⟨m.heap ++ [⟨true, zeros d.length⟩], m.self⟩, []⟩ := by
  rw [wipeCopy, Method.bind_ok (toWritable_apply h), secureWipe_last]
  rfl

end

/-! ## An object and its key in the heap -/

/-- An object of type `σ` whose key lies in the heap, and the one of type `τ` that it stands for. -/
structure Layout (σ τ : Type) where
  /-- The other fields agree. -/
  same : σ → τ → Prop
  keyAt : σ → Option Addr
  keyOf : τ → Option Key
  /-- The `bytes` objects that a call of the object takes, or returns. -/
  copies : Call → List Bytes

inductive KeyAt (h : Heap) : Option Addr → Option Key → Prop
  | gone : KeyAt h none none
  | lies (a : Addr) (key : Key) : h[a]? = some ⟨true, key.val⟩ → KeyAt h (some a) (some key)

/-- The copy of a pickle that was not wiped, because loading it raised. -/
def Dropped (B : Backend) (past : List Call) (data : Bytes) : Prop :=
  .loads data ∈ past ∧ ∃ e, B.loads data = .error e

variable {σ τ : Type}

/-- The object began as `start`, and has made the calls `past` since. -/
structure Holds (B : Backend) (L : Layout σ τ) (start : Mem σ) (past : List Call) (m : Mem σ) (t : τ) : Prop where
  same : L.same m.self t
  key : KeyAt m.heap (L.keyAt m.self) (L.keyOf t)
  /-- Its key lies where it lay, or in new memory. -/
  own : ∀ a, L.keyAt m.self = some a → L.keyAt start.self = some a ∨ start.heap.length ≤ a
  frame : Heap.Evolves (L.keyAt start.self = some ·) start.heap m.heap
  /-- What went through its calls is still there. -/
  left : ∀ c ∈ past, ∀ d ∈ L.copies c, ∃ a : Addr, m.heap[a]? = some ⟨false, d⟩
  /-- What it wrote is its key, wiped, or dropped. -/
  clean : ∀ a b, m.heap[a]? = some b → b.mutable = true → start.heap.length ≤ a ∨ L.keyAt start.self = some a →
    L.keyAt m.self = some a ∨ b.data = zeros b.data.length ∨ Dropped B past b.data

theorem KeyAt.mono {h h' : Heap} {a : Option Addr} {key : Option Key} (hk : KeyAt h a key)
    (hkept : ∀ x b, a = some x → h[x]? = some b → h'[x]? = some b) : KeyAt h' a key := by
  cases hk with
  | gone => exact .gone
  | lies x key hx => exact .lies x key (hkept x _ rfl hx)

theorem KeyAt.found {h : Heap} {a : Addr} {key : Option Key} (hk : KeyAt h (some a) key) :
    ∃ k : Key, key = some k ∧ h[a]? = some ⟨true, k.val⟩ := by
  cases hk with
  | lies a k hx => exact ⟨k, rfl, hx⟩

theorem KeyAt.gone_iff {h : Heap} {a : Option Addr} {key : Option Key} (hk : KeyAt h a key) : a = none ↔ key = none := by
  cases hk with
  | gone => simp
  | lies a key hx => simp

theorem Dropped.mono {B : Backend} {past : List Call} {data : Bytes} (h : Dropped B past data) (more : List Call) :
    Dropped B (past ++ more) data := ⟨List.mem_append_left _ h.1, h.2⟩

namespace Holds

variable {B : Backend} {L : Layout σ τ} {start m : Mem σ} {past : List Call} {t : τ}

theorem refl (hsame : L.same m.self t) (hkey : KeyAt m.heap (L.keyAt m.self) (L.keyOf t)) : Holds B L m [] m t := by
  refine ⟨hsame, hkey, fun a ha => .inl ha, .refl _, by simp, ?_⟩
  intro a b hb hm hx
  rcases hx with hx | hx
  · exact absurd (Heap.getElem?_lt hb) (Nat.not_lt.mpr hx)
  · exact .inl hx

/-- A new buffer: zeros, dropped, or not writable. -/
theorem alloc (h : Holds B L start past m t) {b : Buffer}
    (hb : b.mutable = true → b.data = zeros b.data.length ∨ Dropped B past b.data) :
    Holds B L start past ⟨m.heap ++ [b], m.self⟩ t := by
  refine ⟨h.same, ?_, h.own, h.frame.trans (.alloc _ _), ?_, ?_⟩
  · exact h.key.mono fun x _ _ hx => Heap.alloc_elsewhere hx b
  · intro c hc d hd
    obtain ⟨a, ha⟩ := h.left c hc d hd
    exact ⟨a, Heap.alloc_elsewhere ha b⟩
  · intro a b' hb' hm hx
    rcases Heap.alloc_cases hb' with hold | ⟨-, rfl⟩
    · exact h.clean a b' hold hm hx
    · exact .inr (hb hm)

/-- A call whose copies are there. -/
theorem record (h : Holds B L start past m t) {c : Call} (hc : ∀ d ∈ L.copies c, ∃ a : Addr, m.heap[a]? = some ⟨false, d⟩) :
    Holds B L start (past ++ [c]) m t := by
  refine ⟨h.same, h.key, h.own, h.frame, ?_, ?_⟩
  · intro c' hc' d hd
    rcases List.mem_append.mp hc' with hc' | hc'
    · exact h.left c' hc' d hd
    · obtain rfl := List.mem_singleton.mp hc'
      exact hc d hd
  · intro a b hb hm hx
    rcases h.clean a b hb hm hx with hkey | hzero | hdrop
    · exact .inl hkey
    · exact .inr (.inl hzero)
    · exact .inr (.inr (hdrop.mono _))

/-- An assignment to a field that is not the key. -/
theorem assign (h : Holds B L start past m t) {x : σ} {y : τ} (hsame : L.same x y)
    (hat : L.keyAt x = L.keyAt m.self) (hof : L.keyOf y = L.keyOf t) : Holds B L start past ⟨m.heap, x⟩ y :=
  ⟨hsame, by rw [hat, hof]; exact h.key, by rw [hat]; exact h.own, h.frame, h.left, by rw [hat]; exact h.clean⟩

/-- Wiping its key touches no other buffer. -/
theorem wiped (h : Holds B L start past m t) {a : Addr} {d : Bytes} (hat : L.keyAt m.self = some a)
    (ha : m.heap[a]? = some ⟨true, d⟩) (n : Nat) :
    Heap.Evolves (L.keyAt start.self = some ·) start.heap (m.heap.write a (zeros n)) := by
  refine ⟨?_⟩
  intro a' b hb
  obtain ⟨data, hb', hsame⟩ := h.frame.kept a' b hb
  by_cases hne : a' = a
  · subst hne
    obtain ⟨hm, -⟩ := Buffer.mk.inj (Option.some.inj (ha.symm.trans hb'))
    rcases h.own a' hat with hstart | hnew
    · refine ⟨zeros n, ?_, .inr ⟨hm.symm, hstart⟩⟩
      rw [Heap.write_here ha, hm]
    · exact absurd (Heap.getElem?_lt hb) (Nat.not_lt.mpr hnew)
  · exact ⟨data, (Heap.write_elsewhere hne _).trans hb', hsame⟩

theorem clean_wiped (h : Holds B L start past m t) {a a' : Addr} {b : Buffer} {n : Nat} (hat : L.keyAt m.self = some a)
    (hb : (m.heap.write a (zeros n))[a']? = some b) (hm : b.mutable = true)
    (hx : start.heap.length ≤ a' ∨ L.keyAt start.self = some a') :
    b.data = zeros b.data.length ∨ Dropped B past b.data := by
  rcases Heap.write_cases hb with ⟨rfl, hd⟩ | ⟨hne, hold⟩
  · exact .inl (by rw [hd, length_zeros])
  · rcases h.clean a' b hold hm hx with hkey | hzero | hdrop
    · exact absurd (Option.some.inj (hkey.symm.trans hat)) hne
    · exact .inl hzero
    · exact .inr hdrop

/-- The key wiped where it lies. -/
theorem wipe (h : Holds B L start past m t) {a : Addr} {d : Bytes} (hat : L.keyAt m.self = some a)
    (ha : m.heap[a]? = some ⟨true, d⟩) {x : σ} {y : τ} (hsame : L.same x y) (hnone : L.keyAt x = none)
    (hof : L.keyOf y = none) (n : Nat) : Holds B L start past ⟨m.heap.write a (zeros n), x⟩ y := by
  refine ⟨hsame, ?_, ?_, h.wiped hat ha n, ?_, ?_⟩
  · rw [hnone, hof]
    exact .gone
  · intro a' ha'
    rw [hnone] at ha'
    cases ha'
  · intro c hc d' hd
    obtain ⟨a', ha'⟩ := h.left c hc d' hd
    exact ⟨a', Heap.write_immutable ha ha' _⟩
  · intro a' b hb hm hx
    rcases h.clean_wiped hat hb hm hx with hzero | hdrop
    · exact .inr (.inl hzero)
    · exact .inr (.inr hdrop)

/-- The key wiped where it lies, and a new one in new memory. -/
theorem rekey (h : Holds B L start past m t) {a : Addr} {d : Bytes} (hat : L.keyAt m.self = some a)
    (ha : m.heap[a]? = some ⟨true, d⟩) {x : σ} {y : τ} {key : Key} (hsame : L.same x y)
    (hnew : L.keyAt x = some m.heap.length) (hof : L.keyOf y = some key) (n : Nat) :
    Holds B L start past ⟨m.heap.write a (zeros n) ++ [⟨true, key.val⟩], x⟩ y := by
  have hlen : (m.heap.write a (zeros n)).length = m.heap.length := Heap.length_write _ _ _
  refine ⟨hsame, ?_, ?_, (h.wiped hat ha n).trans (.alloc _ _), ?_, ?_⟩
  · rw [hnew, hof, ← hlen]
    exact .lies _ _ (Heap.alloc_here _ _)
  · intro a' ha'
    rw [hnew] at ha'
    obtain rfl := Option.some.inj ha'
    exact .inr h.frame.length_le
  · intro c hc d' hd
    obtain ⟨a', ha'⟩ := h.left c hc d' hd
    exact ⟨a', Heap.alloc_elsewhere (Heap.write_immutable ha ha' _) _⟩
  · intro a' b hb hm hx
    rcases Heap.alloc_cases hb with hold | ⟨rfl, -⟩
    · rcases h.clean_wiped hat hold hm hx with hzero | hdrop
      · exact .inr (.inl hzero)
      · exact .inr (.inr hdrop)
    · rw [hlen]
      exact .inl hnew

end Holds

/-! ## Statement by statement -/

/-- The object holds, and these `bytes` objects lie in its memory. -/
structure Holding (B : Backend) (L : Layout σ τ) (start : Mem σ) (ks : List (Addr × Bytes)) (past : List Call)
    (m : Mem σ) (t : τ) : Prop extends Holds B L start past m t where
  known : ∀ x ∈ ks, m.heap[x.1]? = some ⟨false, x.2⟩

/-- Besides, at `buf` lies a copy of `d` that can be written. -/
def Copied (B : Backend) (L : Layout σ τ) (start : Mem σ) (ks : List (Addr × Bytes)) (d : Bytes) (buf : Addr)
    (past : List Call) (m : Mem σ) (t : τ) : Prop :=
  ∃ h : Heap, m.heap = h ++ [⟨true, d⟩] ∧ buf = h.length ∧ Holding B L start ks past ⟨h, m.self⟩ t

section
variable {B : Backend} {L : Layout σ τ} {start : Mem σ} {ks : List (Addr × Bytes)}
  {E : List Call → Mem σ → τ → Prop} {a : Addr} {d : Bytes}

/-- Before anything is called. -/
theorem Holding.refl {m : Mem σ} {t : τ} (hsame : L.same m.self t) (hkey : KeyAt m.heap (L.keyAt m.self) (L.keyOf t)) :
    Holding B L m [] [] m t := ⟨.refl hsame hkey, by simp⟩

theorem Holding.alloc {past : List Call} {m : Mem σ} {t : τ} (h : Holding B L start ks past m t) {b : Buffer}
    (hb : b.mutable = true → b.data = zeros b.data.length ∨ Dropped B past b.data) :
    Holding B L start ks past ⟨m.heap ++ [b], m.self⟩ t :=
  ⟨h.toHolds.alloc hb, fun x hx => Heap.alloc_elsewhere (h.known x hx) b⟩

/-- What is known, and what came with it. -/
theorem Holding.cons {past : List Call} {m : Mem σ} {t : τ} (h : Holding B L start ks past m t)
    (ha : m.heap[a]? = some ⟨false, d⟩) : Holding B L start ((a, d) :: ks) past m t := by
  refine ⟨h.toHolds, ?_⟩
  intro x hx
  rcases List.mem_cons.mp hx with rfl | hx
  · exact ha
  · exact h.known x hx

theorem relates_newBytes (d : Bytes) : Method.Relates (Holding B L start ks) (newBytes d) (pure ())
    (fun a _ => Holding B L start ((a, d) :: ks)) E := by
  intro past m t h
  refine .ok ?_
  rw [List.append_nil]
  exact (h.alloc fun hm => by cases hm).cons (Heap.alloc_here _ _)

theorem relates_wipeCopy (hk : (a, d) ∈ ks) : Method.Relates (Holding B L start ks) (wipeCopy a) (pure ())
    (fun _ _ => Holding B L start ks) E := by
  intro past m t h
  rw [wipeCopy_apply (h.known _ hk)]
  refine .ok ?_
  rw [List.append_nil]
  exact h.alloc fun _ => .inl (by rw [length_zeros])

theorem relates_record {c : Call} (hc : ∀ d ∈ L.copies c, ∃ a, (a, d) ∈ ks) :
    Method.Relates (Holding B L start ks) (Method.record c : Py (Mem σ) Unit) (Method.record c : Py τ Unit)
      (fun _ _ => Holding B L start ks) E := by
  refine .record fun past m t h => ⟨h.record ?_, h.known⟩
  intro d hd
  obtain ⟨a, ha⟩ := hc d hd
  exact ⟨a, h.known _ ha⟩

theorem relates_assign {f : σ → σ} {f' : τ → τ} (hsame : ∀ x y, L.same x y → L.same (f x) (f' y))
    (hat : ∀ x, L.keyAt (f x) = L.keyAt x) (hof : ∀ y, L.keyOf (f' y) = L.keyOf y) :
    Method.Relates (Holding B L start ks) (assign f) (Method.modify f') (fun _ _ => Holding B L start ks) E :=
  .modify fun _ _ _ h => ⟨h.assign (hsame _ _ h.same) (hat _) (hof _), h.known⟩

theorem relates_dumps (hc : ∀ d, L.copies (.dumps d) ⊆ [d]) (obj : B.Obj) :
    Method.Relates (Holding B L start ks) (dumps B obj) (Amcrypt.dumps B obj)
      (fun x y past m t => x.2 = y ∧ Holding B L start (x :: ks) past m t) (Holds B L start) := by
  refine .bind (.ofExcept (B.dumps obj) fun _ _ _ h => h.toHolds) fun data data' => .fact fun hdata => ?_
  obtain ⟨rfl, -⟩ := hdata
  refine .left (relates_newBytes data) fun a => .bind (relates_record ?_) fun _ _ => .pure fun _ _ _ h => ⟨rfl, h⟩
  intro d hd
  obtain rfl := List.mem_singleton.mp (hc data hd)
  exact ⟨a, List.mem_cons_self⟩

theorem relates_aesDecrypt {key : Key} {nonce ct : Bytes} {aad : Option Bytes}
    (hc : ∀ r, ∀ d ∈ L.copies (.decrypt key nonce ct aad r), r = .ok d ∨ ∃ a, (a, d) ∈ ks) :
    Method.Relates (Holding B L start ks) (aesDecrypt B key nonce ct aad) (Amcrypt.aesDecrypt B key nonce ct aad)
      (fun x y past m t => x.2 = y ∧ Holding B L start (x :: ks) past m t) (Holding B L start ks) := by
  unfold aesDecrypt Amcrypt.aesDecrypt
  cases B.gcmDecrypt key nonce ct aad with
  | ok p =>
    refine .left (relates_newBytes p) fun a => .bind (relates_record ?_) fun _ _ => .pure fun _ _ _ h => ⟨rfl, h⟩
    intro d hd
    rcases hc _ d hd with hp | ⟨b, hb⟩
    · obtain rfl := Except.ok.inj hp
      exact ⟨a, List.mem_cons_self⟩
    · exact ⟨b, List.mem_cons_of_mem _ hb⟩
  | error e =>
    refine .bind (relates_record ?_) fun _ _ => .raise e fun _ _ _ h => h
    intro d hd
    rcases hc _ d hd with hp | hb
    · cases hp
    · exact hb

theorem relates_aesEncrypt {key : Key} {plaintext : Bytes} {aad : Option Bytes} {nonce : Nonce}
    (hc : ∀ ct, ∀ d ∈ L.copies (.encrypt key nonce aad plaintext ct), ∃ a, (a, d) ∈ ks) :
    Method.Relates (Holding B L start ks) (aesEncrypt B key plaintext aad nonce) (aesEncrypt B key plaintext aad nonce)
      (fun x y past m t => x = y ∧ Holding B L start ks past m t) E :=
  .bind (relates_record (hc _)) fun _ _ => .pure fun _ _ _ h => ⟨rfl, h⟩

theorem relates_derived {x : Addr × Bytes} (hx : x ∈ ks) {kept : Bool} {data : Bytes} (hkept : kept = true → data = x.2) :
    Method.Relates (Holding B L start ks) (derived x kept data) (pure ())
      (fun y _ past m t => y.2 = data ∧ Holding B L start (y :: ks) past m t) E := by
  unfold derived
  cases kept with
  | true => exact .pure fun _ _ _ h => ⟨(hkept rfl).symm, h.cons (h.known _ hx)⟩
  | false => exact .left (relates_newBytes data) fun a => .pure fun _ _ _ h => ⟨rfl, h⟩

/-! ## A copy that is wiped at the end -/

theorem relates_toWritable (hk : (a, d) ∈ ks) : Method.Relates (Holding B L start ks) (toWritable a) (pure ())
    (fun buf _ => Copied B L start ks d buf) E := by
  intro past m t h
  rw [toWritable_apply (h.known _ hk)]
  refine .ok ⟨m.heap, rfl, rfl, ?_⟩
  rw [List.append_nil]
  exact h

/-- Where loading raises, the copy is dropped as it is. -/
theorem relates_loads {buf : Addr} (hc : L.copies (.loads d) ⊆ [d]) (hk : (a, d) ∈ ks) :
    Method.Relates (Copied B L start ks d buf) (loads B d) (loads B d)
      (fun x y past m t => x = y ∧ Copied B L start ks d buf past m t) (Holds B L start) := by
  intro past m t h
  obtain ⟨heap, hm, rfl, h⟩ := h
  have hrec : Holding B L start ks (past ++ [.loads d]) ⟨heap, m.self⟩ t := by
    refine ⟨h.record fun d' hd => ?_, h.known⟩
    obtain rfl := List.mem_singleton.mp (hc hd)
    exact ⟨a, h.known _ hk⟩
  simp only [loads, Method.bind_apply, Method.record_apply, Out.andThen_ok, Method.ofExcept_apply, Out.after_mk]
  cases hl : B.loads d with
  | ok obj => exact .ok ⟨rfl, heap, hm, rfl, hrec⟩
  | error e =>
    have hdrop : Dropped B (past ++ [.loads d]) d := ⟨by simp, e, hl⟩
    have hheld := (hrec.alloc (b := ⟨true, d⟩) fun _ => .inr hdrop).toHolds
    rw [← hm] at hheld
    exact .error hheld

theorem relates_secureWipe {buf : Addr} : Method.Relates (Copied B L start ks d buf) (secureWipe buf) (pure ())
    (fun _ _ => Holding B L start ks) E := by
  intro past m t h
  obtain ⟨heap, hm, rfl, h⟩ := h
  have hwipe : secureWipe heap.length m = ⟨.ok (), ⟨heap ++ [⟨true, zeros d.length⟩], m.self⟩, []⟩ := by
    have hlast := secureWipe_last ⟨heap, m.self⟩ d
    rw [← hm] at hlast
    exact hlast
  rw [hwipe]
  refine .ok ?_
  rw [List.append_nil]
  exact h.alloc fun _ => .inl (by rw [length_zeros])

end

end Amcrypt.Memory
