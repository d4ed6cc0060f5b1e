/-
  Amcrypt.Stream.Session — a `Streamer` with the generators made of it.

  `seal`, `seal_final` and `open` only make a generator; what they do happens when it is
  advanced. `next i` is one iteration of generator `i`: an `open` generator yields or
  raises at every one, a `seal` generator also skips empty chunks, so that one Python
  `next` is one iteration or several. A generator that raises is finished. The session's
  log is every iteration so far, with what it was given and how it ended.

  `drain` runs one generator to its end, as a `for` loop over it does.
-/

import Amcrypt.Stream.Streamer

namespace Amcrypt.Stream

open Lib

variable (B : Backend)

/-- What an iterator hands to one iteration; a chunk to seal comes with the nonce that will be drawn for it. -/
inductive Item where
  | chunk (chunk : Bytes) (nonce : Nonce)
  | wire (wire : Bytes)
  deriving DecidableEq

/-- A generator: the rest of its iterator. -/
abbrev Gen := List Item

def Streamer.seal (chunks : List (Bytes × Nonce)) : Gen := chunks.map fun c => .chunk c.1 c.2

def Streamer.sealFinal (lastChunk : Bytes) (nonce : Nonce) : Gen := Streamer.seal [(lastChunk, nonce)]

def Streamer.open (wires : List Bytes) : Gen := wires.map .wire

/-- The body of the loop an item is for, and what it yields. -/
def iteration : Item → Py Streamer (Option Bytes)
  | .chunk c n => sealChunk B c n
  | .wire w => do
    let plaintext ← openChunk B w
    pure (some plaintext)

/-- A generator run to its end: everything it yields. -/
def drain : Gen → Py Streamer (List Bytes)
  | [] => pure []
  | x :: rest => do
    let y ← iteration B x
    let ys ← drain rest
    pure (y.toList ++ ys)

/-! ## Sessions -/

/-- An iteration: its item, and what it yielded or raised. -/
abbrev Event := Item × Except PyErr (Option Bytes)

/-- The chunk an iteration of `seal` sealed, and the wire chunk it yielded. -/
def Event.sealed : Event → Option (Bytes × Bytes)
  | (.chunk c _, .ok (some w)) => some (c, w)
  | _ => none

/-- The plaintext an iteration of `open` yielded. -/
def Event.yielded : Event → Option Bytes
  | (.wire _, .ok (some p)) => some p
  | _ => none

theorem filterMap_snoc {α β : Type} (f : α → Option β) (log : List α) (e : α) :
    (log ++ [e]).filterMap f = log.filterMap f ++ (f e).toList := by
  rw [List.filterMap_append]
  cases h : f e <;> simp [h]

/-- An entry of an appended log is one of the log's, or the new one at its end. -/
theorem getElem?_snoc {α : Type} {log : List α} {e e' : α} {i : Nat} (h : (log ++ [e])[i]? = some e') :
    (i < log.length ∧ log[i]? = some e') ∨ (i = log.length ∧ e = e') := by
  rcases Nat.lt_or_ge i log.length with hlt | hge
  · rw [List.getElem?_append_left hlt] at h
    exact .inl ⟨hlt, h⟩
  · obtain rfl : i = log.length := by
      have := (List.getElem?_eq_some_iff.mp h).1
      rw [List.length_append, List.length_singleton] at this
      omega
    rw [List.getElem?_concat_length] at h
    exact .inr ⟨rfl, Option.some.inj h⟩

structure Session where
  self : Streamer
  gens : List Gen
  log : List Event

def Session.fresh (key : Key) (ratchet : Bool) : Session := ⟨⟨key, ratchet, 0⟩, [], []⟩

theorem new_eq_fresh_self (key : Key) (ratchet : Bool) :
    Streamer.new key.val ratchet = .ok (Session.fresh key ratchet).self := by
  simp [Streamer.new, Session.fresh, key.property]

/-- What can be done with a `Streamer`: make a generator, advance one, wipe the key. -/
inductive Act where
  | sealing (chunks : List (Bytes × Nonce))
  | sealingFinal (lastChunk : Bytes) (nonce : Nonce)
  | opening (wires : List Bytes)
  | next (i : Nat)
  | destroy

def Session.start (g : Gen) : Py Session Unit := Method.modify fun s => { s with gens := s.gens ++ [g] }

def Session.next (i : Nat) : Py Session Unit := fun s =>
  match s.gens[i]? with
  | some (x :: rest) =>
    let out := iteration B x s.self
    let rest := match out.result with
      | .ok _ => rest
      | .error _ => []
    ⟨out.result.map fun _ => (), ⟨out.self, s.gens.set i rest, s.log ++ [(x, out.result)]⟩, out.calls⟩
  | _ => ⟨.ok (), s, []⟩

def Session.destroy : Py Session Unit := Method.modify fun s => { s with self := (Stream.destroy s.self).self }

def Act.run : Act → Py Session Unit
  | .sealing chunks => Session.start (Streamer.seal chunks)
  | .sealingFinal lastChunk nonce => Session.start (Streamer.sealFinal lastChunk nonce)
  | .opening wires => Session.start (Streamer.open wires)
  | .next i => Session.next B i
  | .destroy => Session.destroy

/-- The session after `acts`. -/
def Session.after (s : Session) (acts : List Act) : Session := acts.foldl (fun s a => (a.run B s).self) s

variable {B}

@[simp] theorem after_nil (s : Session) : s.after B [] = s := rfl

@[simp] theorem after_append (s : Session) (acts acts' : List Act) :
    s.after B (acts ++ acts') = (s.after B acts).after B acts' := by
  simp [Session.after]

@[simp] theorem after_cons (s : Session) (a : Act) (acts : List Act) :
    s.after B (a :: acts) = (a.run B s).self.after B acts := rfl

@[simp] theorem start_self (g : Gen) (s : Session) : (Session.start g s).self.self = s.self := rfl
@[simp] theorem start_log (g : Gen) (s : Session) : (Session.start g s).self.log = s.log := rfl
@[simp] theorem start_calls (g : Gen) (s : Session) : (Session.start g s).calls = [] := rfl

/-- Advancing a generator runs one iteration on the object as it is now, or finds the
    generator finished and does nothing. -/
inductive Advance (B : Backend) (s : Session) : Out PyErr Call Session Unit → Prop
  | idle : Advance B s ⟨.ok (), s, []⟩
  | ran (x : Item) (gens : List Gen) : x ∈ s.gens.flatten → gens.flatten ⊆ s.gens.flatten → Advance B s
      ⟨(iteration B x s.self).result.map fun _ => (),
        ⟨(iteration B x s.self).self, gens, s.log ++ [(x, (iteration B x s.self).result)]⟩,
        (iteration B x s.self).calls⟩

theorem next_advance (i : Nat) (s : Session) : Advance B s (Session.next B i s) := by
  unfold Session.next
  split
  · rename_i x rest hg
    have hmem := List.mem_of_getElem? hg
    refine .ran _ _ (List.mem_flatten.mpr ⟨_, hmem, List.mem_cons_self⟩) ?_
    intro y hy
    obtain ⟨g, hg', hy⟩ := List.mem_flatten.mp hy
    rcases List.mem_or_eq_of_mem_set hg' with hg' | rfl
    · exact List.mem_flatten.mpr ⟨g, hg', hy⟩
    · refine List.mem_flatten.mpr ⟨_, hmem, List.mem_cons_of_mem x ?_⟩
      split at hy
      · exact hy
      · cases hy
  · exact .idle

/-- Every item that the generators still hold is one of these. -/
def Session.Only (P : Item → Prop) (s : Session) : Prop := ∀ x ∈ s.gens.flatten, P x

/-- A session without generators. -/
theorem Session.Only.fresh {P : Item → Prop} (key : Key) (ratchet : Bool) : (Session.fresh key ratchet).Only P := by
  intro x hx
  cases hx

theorem Session.Only.start {P : Item → Prop} {s : Session} (h : s.Only P) {g : Gen} (hg : ∀ x ∈ g, P x) :
    (Session.start g s).self.Only P := by
  intro x hx
  simp only [Session.start, Method.modify_apply, List.flatten_append, List.mem_append] at hx
  rcases hx with hx | hx
  · exact h x hx
  · exact hg x (by simpa using hx)

/-! ## Iterations -/

theorem iteration_chunk (c : Bytes) (n : Nonce) : iteration B (.chunk c n) = sealChunk B c n := rfl

theorem iteration_wire (w : Bytes) (s : Streamer) :
    iteration B (.wire w) s =
      ⟨(openChunk B w s).result.map some, (openChunk B w s).self, (openChunk B w s).calls⟩ := by
  simp only [iteration, Method.bind_apply, Out.andThen]
  generalize openChunk B w s = out
  obtain ⟨r, s', cs⟩ := out
  cases r <;> simp [Except.map]

/-! ## Draining a generator -/

theorem drain_ok {x : Item} {rest : Gen} {s s' : Streamer} {y : Option Bytes} {cs : List Call}
    (h : iteration B x s = ⟨.ok y, s', cs⟩) :
    drain B (x :: rest) s = ⟨(drain B rest s').result.map (y.toList ++ ·), (drain B rest s').self,
      cs ++ (drain B rest s').calls⟩ := by
  rw [drain, Method.bind_ok h, Method.bind_apply, Out.andThen]
  generalize drain B rest s' = out
  obtain ⟨r, s'', cs'⟩ := out
  cases r <;> simp [Except.map]

/-- An iteration that yields nothing and leaves the object as it is. -/
theorem drain_skip {x : Item} {rest : Gen} {s : Streamer} (h : iteration B x s = ⟨.ok none, s, []⟩) :
    drain B (x :: rest) s = drain B rest s := by
  rw [drain_ok h]
  generalize drain B rest s = out
  obtain ⟨r, s', cs⟩ := out
  cases r <;> simp [Except.map]

theorem drain_error {x : Item} {rest : Gen} {s s' : Streamer} {e : PyErr} {cs : List Call}
    (h : iteration B x s = ⟨.error e, s', cs⟩) : drain B (x :: rest) s = ⟨.error e, s', cs⟩ := by
  rw [drain, Method.bind_error h]

end Amcrypt.Stream
