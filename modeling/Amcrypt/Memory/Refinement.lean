/-
  Amcrypt.Memory.Refinement — the process in memory does what the process by value does.

  `Sim` is the relation: the caller's buffers hold the same bytes, each object's key lies in a
  buffer that nobody else has, and what is in memory besides is wiped, left or dropped. Every
  act keeps it (`Sim.step`), so over every run:

  - `process_refines_values`: both return and raise the same and make the same calls. So no
    wipe reaches a key of another object or a buffer of the caller's, and no write of the
    caller's reaches a key, whatever was made from the same buffer.
  - `process_wipes`: what the library has written is zeros, but for the keys of live objects
    and the copies of pickles that did not load.
  - `process_residue`: what is wiped are copies. Each pickle, each plaintext that AES-GCM
    was given by a `Necromancer` or a `DoppelgangerNecromancer` or opened, and each key that a
    `Streamer` sealed or opened with stays in memory, whatever is called afterwards.
-/

import Amcrypt.Memory.Process
import Amcrypt.Reference

namespace Amcrypt.Memory

open Lib

variable {B : Backend}

/-! ## The two levels -/

/-- The calls of all objects. -/
def Process.calls (p : Process B) : List Call := p.trace.map Prod.snd

/-- The process, and the one by value that it stands for. -/
structure Sim (p : Process B) (q : Values B) : Prop where
  buffers : List.Forall₂ (fun a b => p.heap[a]? = some b) p.buffers q.buffers
  things : List.Forall₂ (fun x y => Thing.Same x y ∧ KeyAt p.heap x.keyAt y.keyOf) p.things q.things
  trace : p.trace = q.trace
  outputs : p.outputs = q.outputs
  distinct : p.buffers.Nodup
  /-- No two objects share a key buffer. -/
  apart : ∀ (i j : Nat) (x y : Object) (a : Addr), p.things[i]? = some x → p.things[j]? = some y → x.keyAt = some a → y.keyAt = some a → i = j
  /-- Nor does the caller have one. -/
  owned : ∀ x ∈ p.things, ∀ a, x.keyAt = some a → a ∉ p.buffers
  tagged : ∀ e ∈ p.trace, e.1 < p.things.length
  left : ∀ e ∈ p.trace, ∀ x, p.things[e.1]? = some x → ∀ d ∈ x.copies e.2, ∃ a : Addr, p.heap[a]? = some ⟨false, d⟩
  clean : ∀ (a : Addr) b, p.heap[a]? = some b → b.mutable = true →
    a ∈ p.buffers ∨ (∃ x ∈ p.things, x.keyAt = some a) ∨ b.data = zeros b.data.length ∨ Dropped B p.calls b.data

namespace Sim

variable {p : Process B} {q : Values B}

theorem empty : Sim (.empty : Process B) .empty := by
  refine ⟨.nil, .nil, rfl, rfl, List.nodup_nil, ?_, ?_, ?_, ?_, ?_⟩
  all_goals simp [Process.empty]

theorem key_lies (h : Sim p q) {i : Nat} {x : Object} (hx : p.things[i]? = some x) {a : Addr} (ha : x.keyAt = some a) :
    ∃ key : Key, p.heap[a]? = some ⟨true, key.val⟩ := by
  obtain ⟨y, -, -, hkey⟩ := forall₂_left h.things hx
  rw [ha] at hkey
  obtain ⟨key, -, hk⟩ := hkey.found
  exact ⟨key, hk⟩

theorem key_lt (h : Sim p q) {i : Nat} {x : Object} (hx : p.things[i]? = some x) {a : Addr} (ha : x.keyAt = some a) :
    a < p.heap.length := by
  obtain ⟨key, hk⟩ := h.key_lies hx ha
  exact Heap.getElem?_lt hk

theorem buffer_lt (h : Sim p q) {a : Addr} (ha : a ∈ p.buffers) : a < p.heap.length := by
  obtain ⟨i, hi⟩ := List.mem_iff_getElem?.mp ha
  obtain ⟨b, -, hb⟩ := forall₂_left h.buffers hi
  exact Heap.getElem?_lt hb

/-- The caller makes a buffer. -/
theorem allocate (h : Sim p q) (b : Buffer) :
    Sim { p with heap := p.heap ++ [b], buffers := p.buffers ++ [p.heap.length] } { q with buffers := q.buffers ++ [b] } := by
  refine ⟨?_, ?_, h.trace, h.outputs, ?_, h.apart, ?_, h.tagged, ?_, ?_⟩
  · have hold : List.Forall₂ (fun a b' => (p.heap ++ [b])[a]? = some b') p.buffers q.buffers :=
      forall₂_imp h.buffers fun _ _ _ _ _ hb => Heap.alloc_elsewhere hb b
    exact forall₂_snoc hold (Heap.alloc_here _ _)
  · exact forall₂_imp h.things fun _ _ _ _ _ hx => ⟨hx.1, hx.2.mono fun _ _ _ hb => Heap.alloc_elsewhere hb b⟩
  · refine List.nodup_append.mpr ⟨h.distinct, List.nodup_singleton _, ?_⟩
    intro a ha b hb
    obtain rfl := List.mem_singleton.mp hb
    exact Nat.ne_of_lt (h.buffer_lt ha)
  · intro x hx a ha hmem
    obtain ⟨i, hi⟩ := List.mem_iff_getElem?.mp hx
    rcases List.mem_append.mp hmem with hmem | hmem
    · exact h.owned x hx a ha hmem
    · obtain rfl := List.mem_singleton.mp hmem
      exact Nat.lt_irrefl _ (h.key_lt hi ha)
  · intro e he x hx d hd
    obtain ⟨a, ha⟩ := h.left e he x hx d hd
    exact ⟨a, Heap.alloc_elsewhere ha b⟩
  · intro a b' hb hm
    rcases Heap.alloc_cases hb with hold | ⟨rfl, -⟩
    · rcases h.clean a b' hold hm with hmem | hrest
      · exact .inl (List.mem_append_left _ hmem)
      · exact .inr hrest
    · exact .inl (List.mem_append_right _ (List.mem_singleton_self _))

/-- The caller writes one of its buffers. -/
theorem overwrite (h : Sim p q) {i : Nat} {a : Addr} (ha : p.buffers[i]? = some a) (data : Bytes)
    (hm : p.heap.isMutable a = true) :
    Sim { p with heap := p.heap.write a data } { q with buffers := q.buffers.set i ⟨true, data⟩ } := by
  have hmem := List.mem_of_getElem? ha
  obtain ⟨b, -, hb⟩ := forall₂_left h.buffers ha
  rw [Heap.isMutable_of hb] at hm
  have hb' : p.heap[a]? = some ⟨true, b.data⟩ := by rw [hb, ← hm]
  refine ⟨?_, ?_, h.trace, h.outputs, h.distinct, h.apart, h.owned, h.tagged, ?_, ?_⟩
  · have hset : p.buffers.set i a = p.buffers := by
      obtain ⟨hlt, rfl⟩ := List.getElem?_eq_some_iff.mp ha
      exact List.set_getElem_self hlt
    rw [← hset]
    refine forall₂_set h.buffers (Heap.write_here hb' data) ?_
    intro j a' b' hj ha' _ hold
    rw [Heap.write_elsewhere ?_ data]
    · exact hold
    · rintro rfl
      exact hj ((List.getElem?_inj (List.getElem?_eq_some_iff.mp ha').1 h.distinct).mp (ha'.trans ha.symm))
  · refine forall₂_imp h.things fun j x y hx _ hxy => ⟨hxy.1, hxy.2.mono ?_⟩
    intro a' b' ha' hold
    rw [Heap.write_elsewhere ?_ data]
    · exact hold
    · rintro rfl
      exact h.owned x (List.mem_of_getElem? hx) a' ha' hmem
  · intro e he x hx d hd
    obtain ⟨a', ha'⟩ := h.left e he x hx d hd
    exact ⟨a', Heap.write_immutable hb' ha' data⟩
  · intro a' b' hold hm'
    rcases Heap.write_cases hold with ⟨rfl, -⟩ | ⟨-, hold⟩
    · exact .inl hmem
    · exact h.clean a' b' hold hm'

/-- An object made from a copy of a buffer, in new memory. -/
theorem make (h : Sim p q) (key : Key) {x : Object} {y : ValueObject} (hsame : Thing.Same x y)
    (hat : x.keyAt = some p.heap.length) (hof : y.keyOf = some key) :
    Sim { p with heap := p.heap ++ [⟨true, key.val⟩], things := p.things ++ [x], outputs := p.outputs ++ [.none] }
      { q with things := q.things ++ [y], outputs := q.outputs ++ [.none] } := by
  refine ⟨?_, ?_, h.trace, congrArg (· ++ [.none]) h.outputs, h.distinct, ?_, ?_, ?_, ?_, ?_⟩
  · exact forall₂_imp h.buffers fun _ _ _ _ _ hb => Heap.alloc_elsewhere hb _
  · have hold : List.Forall₂ (fun x y => Thing.Same x y ∧ KeyAt (p.heap ++ [⟨true, key.val⟩]) x.keyAt y.keyOf)
        p.things q.things :=
      forall₂_imp h.things fun _ _ _ _ _ hx => ⟨hx.1, hx.2.mono fun _ _ _ hb => Heap.alloc_elsewhere hb _⟩
    refine forall₂_snoc hold ⟨hsame, ?_⟩
    rw [hat, hof]
    exact .lies _ _ (Heap.alloc_here _ _)
  · intro i j x' y' a hi hj hx hy
    rcases snoc_cases hi with hi' | ⟨hi', hx'⟩ <;> rcases snoc_cases hj with hj' | ⟨hj', hy'⟩
    · exact h.apart i j x' y' a hi' hj' hx hy
    · rw [hy'] at hy
      obtain rfl := Option.some.inj (hat.symm.trans hy)
      exact absurd (h.key_lt hi' hx) (Nat.lt_irrefl _)
    · rw [hx'] at hx
      obtain rfl := Option.some.inj (hat.symm.trans hx)
      exact absurd (h.key_lt hj' hy) (Nat.lt_irrefl _)
    · exact hi'.trans hj'.symm
  · intro x' hx a ha hmem
    rcases List.mem_append.mp hx with hx | hx
    · exact h.owned x' hx a ha hmem
    · obtain rfl := List.mem_singleton.mp hx
      obtain rfl := Option.some.inj (hat.symm.trans ha)
      exact Nat.lt_irrefl _ (h.buffer_lt hmem)
  · intro e he
    rw [List.length_append]
    exact Nat.lt_add_right _ (h.tagged e he)
  · intro e he x' hx d hd
    rcases snoc_cases hx with hx | ⟨hlast, -⟩
    · obtain ⟨a, ha⟩ := h.left e he x' hx d hd
      exact ⟨a, Heap.alloc_elsewhere ha _⟩
    · exact absurd (h.tagged e he) (hlast ▸ Nat.lt_irrefl _)
  · intro a b hb hm
    rcases Heap.alloc_cases hb with hold | ⟨rfl, -⟩
    · rcases h.clean a b hold hm with hmem | ⟨z, hz, hkey⟩ | hrest
      · exact .inl hmem
      · exact .inr (.inl ⟨z, List.mem_append_left _ hz, hkey⟩)
      · exact .inr (.inr hrest)
    · exact .inr (.inl ⟨x, List.mem_append_right _ (List.mem_singleton_self _), hat⟩)

/-- An object that holds nothing. -/
theorem makeKeyless (h : Sim p q) {x : Object} {y : ValueObject} (hsame : Thing.Same x y) (hat : x.keyAt = none)
    (hof : y.keyOf = none) :
    Sim { p with things := p.things ++ [x], outputs := p.outputs ++ [.none] }
      { q with things := q.things ++ [y], outputs := q.outputs ++ [.none] } := by
  have hno : ∀ a, x.keyAt ≠ some a := by
    intro a ha
    rw [hat] at ha
    cases ha
  refine ⟨h.buffers, ?_, h.trace, congrArg (· ++ [.none]) h.outputs, h.distinct, ?_, ?_, ?_, ?_, ?_⟩
  · refine forall₂_snoc h.things ⟨hsame, ?_⟩
    rw [hat, hof]
    exact .gone
  · intro i j x' y' a hi hj hx hy
    rcases snoc_cases hi with hi' | ⟨-, rfl⟩
    · rcases snoc_cases hj with hj' | ⟨-, rfl⟩
      · exact h.apart i j x' y' a hi' hj' hx hy
      · exact absurd hy (hno a)
    · exact absurd hx (hno a)
  · intro x' hx a ha
    rcases List.mem_append.mp hx with hx | hx
    · exact h.owned x' hx a ha
    · obtain rfl := List.mem_singleton.mp hx
      exact absurd ha (hno a)
  · intro e he
    rw [List.length_append]
    exact Nat.lt_add_right _ (h.tagged e he)
  · intro e he x' hx d hd
    rcases snoc_cases hx with hx | ⟨hlast, -⟩
    · exact h.left e he x' hx d hd
    · exact absurd (h.tagged e he) (hlast ▸ Nat.lt_irrefl _)
  · intro a b hb hm
    rcases h.clean a b hb hm with hmem | ⟨z, hz, hkey⟩ | hrest
    · exact .inl hmem
    · exact .inr (.inl ⟨z, List.mem_append_left _ hz, hkey⟩)
    · exact .inr (.inr hrest)

/-- Nothing was made. -/
theorem refused (h : Sim p q) (e : PyErr) :
    Sim { p with outputs := p.outputs ++ [.raised e] } { q with outputs := q.outputs ++ [.raised e] } :=
  ⟨h.buffers, h.things, h.trace, congrArg (· ++ [.raised e]) h.outputs, h.distinct, h.apart, h.owned, h.tagged, h.left,
    h.clean⟩

/-! ## A call on one object -/

section
variable {i : Nat} {x x' : Object} {y' : ValueObject} {heap : Heap} {calls : List Call}

/-- Whatever is not its key is as it was. -/
theorem kept (h : Sim p q) (hx : p.things[i]? = some x) (hold : Holds B x.layout ⟨p.heap, x⟩ calls ⟨heap, x'⟩ y')
    {j : Nat} {z : Object} (hz : p.things[j]? = some z) (hj : j ≠ i) {a : Addr} {b : Buffer} (ha : z.keyAt = some a)
    (hb : p.heap[a]? = some b) : heap[a]? = some b :=
  hold.frame.same hb fun hkey => hj (h.apart j i z x a hz hx ha hkey)

/-- Its key lies where it lay, or past what there was: nobody else's lies there. -/
theorem own (h : Sim p q) (hx : p.things[i]? = some x) (hold : Holds B x.layout ⟨p.heap, x⟩ calls ⟨heap, x'⟩ y')
    {j : Nat} {z : Object} (hz : p.things[j]? = some z) (hj : j ≠ i) {a : Addr} (ha : z.keyAt = some a) :
    x'.keyAt ≠ some a := by
  intro hx'
  rcases hold.own a hx' with hstart | hnew
  · exact hj (h.apart j i z x a hz hx ha hstart)
  · exact absurd (h.key_lt hz ha) (Nat.not_lt.mpr hnew)

theorem apart_called (h : Sim p q) (hx : p.things[i]? = some x)
    (hold : Holds B x.layout ⟨p.heap, x⟩ calls ⟨heap, x'⟩ y') {j k : Nat} {z z' : Object} {a : Addr}
    (hz : (p.things.set i x')[j]? = some z) (hz' : (p.things.set i x')[k]? = some z') (ha : z.keyAt = some a)
    (ha' : z'.keyAt = some a) : j = k := by
  rcases set_cases hz with ⟨rfl, rfl⟩ | ⟨hj, hj'⟩ <;> rcases set_cases hz' with ⟨rfl, rfl⟩ | ⟨hk, hk'⟩
  · rfl
  · exact absurd ha (h.own hx hold hk' hk ha')
  · exact absurd ha' (h.own hx hold hj' hj ha)
  · exact h.apart j k z z' a hj' hk' ha ha'

theorem owned_called (h : Sim p q) (hx : p.things[i]? = some x)
    (hold : Holds B x.layout ⟨p.heap, x⟩ calls ⟨heap, x'⟩ y') {z : Object} (hz : z ∈ p.things.set i x') {a : Addr}
    (ha : z.keyAt = some a) : a ∉ p.buffers := by
  intro hmem
  obtain ⟨j, hj⟩ := List.mem_iff_getElem?.mp hz
  rcases set_cases hj with ⟨rfl, rfl⟩ | ⟨-, hj⟩
  · rcases hold.own a ha with hstart | hnew
    · exact h.owned x (List.mem_of_getElem? hx) a hstart hmem
    · exact absurd (h.buffer_lt hmem) (Nat.not_lt.mpr hnew)
  · exact h.owned z (List.mem_of_getElem? hj) a ha hmem

/-- What earlier calls left is still there, and what this one left is. -/
theorem left_called (h : Sim p q) (hx : p.things[i]? = some x)
    (hold : Holds B x.layout ⟨p.heap, x⟩ calls ⟨heap, x'⟩ y') {e : Nat × Call} (he : e ∈ p.trace ++ calls.map (i, ·))
    {z : Object} (hz : (p.things.set i x')[e.1]? = some z) {d : Bytes} (hd : d ∈ z.copies e.2) :
    ∃ a : Addr, heap[a]? = some ⟨false, d⟩ := by
  have hcopies : x'.copies = x.copies := hold.same.2
  rcases List.mem_append.mp he with he | he
  · have hold' : ∀ z', p.things[e.1]? = some z' → d ∈ z'.copies e.2 → ∃ a : Addr, heap[a]? = some ⟨false, d⟩ := by
      intro z' hz' hd'
      obtain ⟨a, ha⟩ := h.left e he z' hz' d hd'
      exact ⟨a, hold.frame.immutable ha rfl⟩
    rcases set_cases hz with ⟨hi, rfl⟩ | ⟨-, hz'⟩
    · rw [hcopies] at hd
      exact hold' x (hi ▸ hx) hd
    · exact hold' z hz' hd
  · obtain ⟨c, hc, rfl⟩ := List.mem_map.mp he
    rcases set_cases hz with ⟨-, rfl⟩ | ⟨hne, -⟩
    · rw [hcopies] at hd
      exact hold.left c hc d hd
    · exact absurd rfl hne

/-- What this call wrote is wiped, dropped or a key, and the rest is as it was. -/
theorem clean_called (h : Sim p q) (hx : p.things[i]? = some x)
    (hold : Holds B x.layout ⟨p.heap, x⟩ calls ⟨heap, x'⟩ y') {a : Addr} {b : Buffer} (hb : heap[a]? = some b)
    (hm : b.mutable = true) :
    a ∈ p.buffers ∨ (∃ z ∈ p.things.set i x', z.keyAt = some a) ∨ b.data = zeros b.data.length ∨
      Dropped B (p.calls ++ calls) b.data := by
  by_cases hnew : p.heap.length ≤ a ∨ x.keyAt = some a
  · rcases hold.clean a b hb hm hnew with hkey | hzero | hdrop
    · exact .inr (.inl ⟨x', List.mem_set (List.getElem?_eq_some_iff.mp hx).1 x', hkey⟩)
    · exact .inr (.inr (.inl hzero))
    · exact .inr (.inr (.inr ⟨List.mem_append_right _ hdrop.1, hdrop.2⟩))
  · obtain ⟨hlt, hne⟩ := not_or.mp hnew
    have hb' : p.heap[a]? = some b := by
      have hstart := List.getElem?_eq_getElem (Nat.lt_of_not_le hlt)
      rw [hold.frame.same hstart hne] at hb
      rw [hstart, hb]
    rcases h.clean a b hb' hm with hmem | ⟨z, hz, hkey⟩ | hzero | hdrop
    · exact .inl hmem
    · obtain ⟨j, hj⟩ := List.mem_iff_getElem?.mp hz
      have hji : i ≠ j := by
        rintro rfl
        obtain rfl := Option.some.inj (hx.symm.trans hj)
        exact hne hkey
      exact .inr (.inl ⟨z, List.mem_of_getElem? ((List.getElem?_set_ne hji).trans hj), hkey⟩)
    · exact .inr (.inr (.inl hzero))
    · exact .inr (.inr (.inr (hdrop.mono _)))

/-- A call on one object, with the other objects and the caller's buffers. -/
theorem called (h : Sim p q) (hx : p.things[i]? = some x)
    (hold : Holds B x.layout ⟨p.heap, x⟩ calls ⟨heap, x'⟩ y') (v : Output B) :
    Sim { p with heap := heap, things := p.things.set i x', trace := p.trace ++ calls.map (i, ·),
                 outputs := p.outputs ++ [v] }
      { q with things := q.things.set i y', trace := q.trace ++ calls.map (i, ·), outputs := q.outputs ++ [v] } := by
  refine ⟨?_, ?_, congrArg (· ++ calls.map (i, ·)) h.trace, congrArg (· ++ [v]) h.outputs, h.distinct, ?_, ?_, ?_, ?_, ?_⟩
  · refine forall₂_imp h.buffers fun j a b ha _ hb => hold.frame.same hb ?_
    intro hkey
    exact h.owned x (List.mem_of_getElem? hx) a hkey (List.mem_of_getElem? ha)
  · refine forall₂_set h.things ⟨hold.same.1, hold.key⟩ ?_
    intro j z z' hj hz _ hzz
    exact ⟨hzz.1, hzz.2.mono fun a b ha hb => h.kept hx hold hz hj ha hb⟩
  · intro j k z z' a
    exact h.apart_called hx hold
  · intro z hz a
    exact h.owned_called hx hold hz
  · intro e he
    rw [List.length_set]
    rcases List.mem_append.mp he with he | he
    · exact h.tagged e he
    · obtain ⟨c, -, rfl⟩ := List.mem_map.mp he
      exact (List.getElem?_eq_some_iff.mp hx).1
  · intro e he z hz d
    exact h.left_called hx hold he hz
  · intro a b hb hm
    have hcalls : (p.trace ++ calls.map (i, ·)).map Prod.snd = p.calls ++ calls := by
      simp [Process.calls, Function.comp_def]
    rw [Process.calls, hcalls]
    exact h.clean_called hx hold hb hm

end

/-- The caller's buffer `i`, in memory and by value. -/
theorem buffer_cases (h : Sim p q) (i : Nat) : (p.buffers[i]? = none ∧ q.buffers[i]? = none) ∨
    ∃ (a : Addr) (b : Buffer), p.buffers[i]? = some a ∧ q.buffers[i]? = some b ∧ p.heap[a]? = some b := by
  cases ha : p.buffers[i]? with
  | none => exact .inl ⟨rfl, forall₂_none h.buffers ha⟩
  | some a =>
    obtain ⟨b, hb, hlies⟩ := forall₂_left h.buffers ha
    exact .inr ⟨a, b, rfl, hb, hlies⟩

theorem step (h : Sim p q) (act : Act B) : Sim (p.step act) (q.step act) := by
  cases act with
  | allocate b => exact h.allocate b
  | overwrite buffer data =>
    simp only [Process.step, Values.step]
    rcases h.buffer_cases buffer with ⟨ha, hb⟩ | ⟨a, b, ha, hb, hlies⟩ <;> rw [ha, hb]
    · exact h
    dsimp only
    rw [Heap.isMutable_of hlies]
    split
    · rename_i hm
      exact h.overwrite ha data ((Heap.isMutable_of hlies).trans hm)
    · exact h
  | newNecromancer buffer antiDebug maxTamper =>
    simp only [Process.step, Values.step]
    rcases h.buffer_cases buffer with ⟨ha, hb⟩ | ⟨a, b, ha, hb, hlies⟩ <;> rw [ha, hb]
    · exact h
    have hmem : (⟨p.heap, ()⟩ : Mem Unit).heap[a]? = some b := hlies
    dsimp only
    rw [Necromancer.new_apply hmem, Core.Necromancer.new]
    split
    · rename_i hlen
      exact h.make ⟨b.data, hlen⟩ (.necromancer ⟨rfl, rfl, rfl, rfl⟩) rfl rfl
    · exact h.refused _
  | newStreamer buffer ratchet =>
    simp only [Process.step, Values.step]
    rcases h.buffer_cases buffer with ⟨ha, hb⟩ | ⟨a, b, ha, hb, hlies⟩ <;> rw [ha, hb]
    · exact h
    have hmem : (⟨p.heap, ()⟩ : Mem Unit).heap[a]? = some b := hlies
    dsimp only
    rw [Streamer.new_apply hmem, Stream.Streamer.new]
    split
    · rename_i hlen
      exact h.make ⟨b.data, hlen⟩ (.streamer ⟨rfl, rfl⟩) rfl rfl
    · exact h.refused _
  | newDoppelganger => exact h.makeKeyless .doppelganger rfl rfl
  | use thing u =>
    simp only [Process.step, Values.step]
    cases hx : p.things[thing]? with
    | none =>
      rw [forall₂_none h.things hx]
      exact h
    | some x =>
      obtain ⟨y, hy, hsame, hkey⟩ := forall₂_left h.things hx
      rw [hy]
      have hrun := relates_use p.heap u hsame hkey
      dsimp only
      generalize u.run p.heap x = o, u.value y = o' at hrun
      cases hrun with
      | ok hout =>
        obtain ⟨rfl, hold⟩ := hout
        exact h.called hx hold _
      | error hold => exact h.called hx hold _

theorem after (h : Sim p q) (acts : List (Act B)) : Sim (p.after acts) (q.after acts) := by
  induction acts generalizing p q with
  | nil => exact h
  | cons act acts ih => exact ih (h.step act)

/-! ## What stays -/

/-- No step gives a buffer back, or changes one that is not mutable. -/
theorem frame (h : Sim p q) (act : Act B) : Heap.Evolves (fun _ => True) p.heap (p.step act).heap := by
  cases act with
  | allocate b => exact .alloc _ _
  | overwrite buffer data =>
    simp only [Process.step]
    split
    · split
      · rename_i hm
        exact .write _ hm trivial _
      · exact .refl _
    · exact .refl _
  | newNecromancer buffer antiDebug maxTamper =>
    simp only [Process.step]
    rcases h.buffer_cases buffer with ⟨ha, hb⟩ | ⟨a, b, ha, hb, hlies⟩ <;> rw [ha]
    · exact .refl _
    have hmem : (⟨p.heap, ()⟩ : Mem Unit).heap[a]? = some b := hlies
    dsimp only
    rw [Necromancer.new_apply hmem]
    split
    · exact .alloc _ _
    · exact .refl _
  | newStreamer buffer ratchet =>
    simp only [Process.step]
    rcases h.buffer_cases buffer with ⟨ha, hb⟩ | ⟨a, b, ha, hb, hlies⟩ <;> rw [ha]
    · exact .refl _
    have hmem : (⟨p.heap, ()⟩ : Mem Unit).heap[a]? = some b := hlies
    dsimp only
    rw [Streamer.new_apply hmem]
    split
    · exact .alloc _ _
    · exact .refl _
  | newDoppelganger => exact .refl _
  | use thing u =>
    simp only [Process.step]
    cases hx : p.things[thing]? with
    | none => exact .refl _
    | some x =>
      obtain ⟨y, -, hsame, hkey⟩ := forall₂_left h.things hx
      have hrun := relates_use p.heap u hsame hkey
      dsimp only
      generalize u.run p.heap x = o, u.value y = o' at hrun
      cases hrun with
      | ok hout => exact hout.2.frame.mono fun _ _ _ _ => trivial
      | error hold => exact hold.frame.mono fun _ _ _ _ => trivial

theorem stays (h : Sim p q) (acts : List (Act B)) : Heap.Evolves (fun _ => True) p.heap (p.after acts).heap := by
  induction acts generalizing p q with
  | nil => exact .refl _
  | cons act acts ih => exact (h.frame act).trans (ih (h.step act))

end Sim

/-! ## Runs -/

/-- However objects are made, used and destroyed, and whatever the caller writes into its own
    buffers, the process and the one by value return, raise and call the same; and each of the
    caller's buffers, and each key, holds the same bytes. -/
theorem process_refines_values (acts : List (Act B)) :
    ((Process.empty : Process B).after acts).outputs = ((Values.empty : Values B).after acts).outputs ∧
    ((Process.empty : Process B).after acts).trace = ((Values.empty : Values B).after acts).trace ∧
    List.Forall₂ (fun a b => ((Process.empty : Process B).after acts).heap[a]? = some b)
      ((Process.empty : Process B).after acts).buffers ((Values.empty : Values B).after acts).buffers ∧
    List.Forall₂
      (fun x y => Thing.Same x y ∧ KeyAt ((Process.empty : Process B).after acts).heap x.keyAt y.keyOf)
      ((Process.empty : Process B).after acts).things ((Values.empty : Values B).after acts).things := by
  have h := (Sim.empty (B := B)).after acts
  exact ⟨h.outputs, h.trace, h.buffers, h.things⟩

/-- At every moment, what the library has written is wiped, but for the keys in use and the
    pickles that were copied and did not load. -/
theorem process_wipes (acts : List (Act B)) {a : Addr} {b : Buffer}
    (hb : ((Process.empty : Process B).after acts).heap[a]? = some b) (hm : b.mutable = true)
    (hown : a ∉ ((Process.empty : Process B).after acts).buffers)
    (hkey : ∀ x ∈ ((Process.empty : Process B).after acts).things, x.keyAt ≠ some a) :
    b.data = zeros b.data.length ∨ Dropped B ((Process.empty : Process B).after acts).calls b.data := by
  rcases ((Sim.empty (B := B)).after acts).clean a b hb hm with hmem | ⟨x, hx, hk⟩ | hrest
  · exact absurd hmem hown
  · exact absurd hk (hkey x hx)
  · exact hrest

/-- A chunk is sealed under a key that the caller made of `bytes`, and the `Streamer` destroyed. -/
def sealedAndDestroyed : List (Act Reference.reference) :=
  [.allocate ⟨false, Reference.runKey.val⟩, .newStreamer 0 true, .use 0 (.sealChunk [0x41] Reference.runNonce),
    .use 0 .destroy]

theorem process_wipes_streamer :
    ((Process.empty.after sealedAndDestroyed).heap[1]? = some ⟨true, zeros 32⟩) ∧
      (zeros 32 = zeros (zeros 32).length ∨ Dropped Reference.reference (Process.empty.after sealedAndDestroyed).calls (zeros 32)) :=
  have hb : (Process.empty.after sealedAndDestroyed).heap[1]? = some ⟨true, zeros 32⟩ := by rfl
  ⟨hb, process_wipes sealedAndDestroyed hb rfl (by decide) (by decide)⟩

/-- What went through a call stays in memory for good, whatever is called or destroyed later. -/
theorem process_residue (acts : List (Act B)) {e : Nat × Call} (he : e ∈ ((Process.empty : Process B).after acts).trace)
    {x : Object} (hx : ((Process.empty : Process B).after acts).things[e.1]? = some x) {d : Bytes}
    (hd : d ∈ x.copies e.2) :
    ∃ a : Addr, ∀ more : List (Act B), ((Process.empty : Process B).after (acts ++ more)).heap[a]? = some ⟨false, d⟩ := by
  have h := (Sim.empty (B := B)).after acts
  obtain ⟨a, ha⟩ := h.left e he x hx d hd
  refine ⟨a, ?_⟩
  intro more
  rw [Process.after, List.foldl_append]
  exact (h.stays more).immutable ha rfl

theorem process_residue_streamer : ∃ a : Addr, ∀ more,
    (Process.empty.after (sealedAndDestroyed ++ more)).heap[a]? = some ⟨false, Reference.runKey.val⟩ := by
  refine process_residue sealedAndDestroyed (e := (0, .encrypt Reference.runKey Reference.runNonce none [0x41]
    (Reference.gcmEncrypt Reference.runKey Reference.runNonce.val [0x41] none))) (List.mem_singleton_self _)
    (x := .streamer ⟨6, true, 1⟩) (by rfl) (List.mem_singleton_self _)

end Amcrypt.Memory
