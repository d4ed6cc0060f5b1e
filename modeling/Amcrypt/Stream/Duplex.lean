/-
  Amcrypt.Stream.Duplex — two peers, each with one `Streamer` for both directions.

  Sealing and opening move the same key, so the two directions share one chain of keys:
  a chunk sealed at some place opens only on a peer that stands there. `_ratchet_backward`
  says that in-order delivery keeps both in step. It does if they take turns: if nobody
  seals a chunk while one is on its way to them (`Polite`), then at every moment one peer
  leads, the other is behind by what is in flight to it, and every delivered chunk opens
  (`taking_turns`). Two chunks that cross are both lost (`crossing_chunks`).
-/

import Amcrypt.Stream.PrefixSafety
import Mathlib.Logic.Function.Basic

namespace Amcrypt.Stream

open Lib

variable (B : Backend)

inductive Side where
  | left
  | right
  deriving DecidableEq

def Side.other : Side → Side
  | .left => .right
  | .right => .left

/-- The peers, what is in flight towards each (the plaintext with its wire chunk), and
    every delivery so far: the plaintext that was sealed, and how `open` ended. -/
structure Duplex where
  peer : Side → Streamer
  inbox : Side → List (Bytes × Bytes)
  delivered : List (Bytes × Except PyErr Bytes)

def Duplex.fresh (key : Key) : Duplex := ⟨fun _ => ⟨key, true, 0⟩, fun _ => [], []⟩

inductive DuplexAct where
  | send (side : Side) (chunk : Bytes) (nonce : Nonce)
  | deliver (side : Side)

def Duplex.step (l : Duplex) : DuplexAct → Duplex
  | .send side chunk nonce =>
    let out := sealChunk B chunk nonce (l.peer side)
    { l with
      peer := Function.update l.peer side out.self
      inbox := Function.update l.inbox side.other
        (l.inbox side.other ++ (Event.sealed (.chunk chunk nonce, out.result)).toList) }
  | .deliver side => match l.inbox side with
    | [] => l
    | (p, w) :: rest =>
      let out := openChunk B w (l.peer side)
      { peer := Function.update l.peer side out.self
        inbox := Function.update l.inbox side rest
        delivered := l.delivered ++ [(p, out.result)] }

def Duplex.after (l : Duplex) (acts : List DuplexAct) : Duplex := acts.foldl (Duplex.step B) l

/-- Nothing is in flight towards whoever seals a chunk. -/
def Polite (l : Duplex) : DuplexAct → Prop
  | .send side chunk _ => chunk = [] ∨ l.inbox side = []
  | .deliver _ => True

/-- So it is at every step of a run. -/
def PoliteRun (l : Duplex) : List DuplexAct → Prop
  | [] => True
  | a :: acts => Polite l a ∧ PoliteRun (l.step B a) acts

/-- One peer leads; the other is behind it by what is in flight towards it. -/
structure Duplex.Led (B : Backend) (start : Streamer) (l : Duplex) (lead : Side) (sealed : List (Bytes × Bytes))
    (k : Nat) : Prop where
  leader : Sending B start sealed (l.peer lead)
  follower : chain (ratcheted B) start k = some (l.peer lead.other)
  empty : l.inbox lead = []
  inFlight : l.inbox lead.other = sealed.drop k
  behind : k ≤ sealed.length
  good : ∀ x ∈ l.delivered, x.2 = .ok x.1

variable {B}

@[simp] theorem other_other (side : Side) : side.other.other = side := by cases side <;> rfl

theorem other_ne (side : Side) : side.other ≠ side := by cases side <;> simp [Side.other]

theorem eq_or_other (lead side : Side) : side = lead ∨ side = lead.other := by
  cases lead <;> cases side <;> simp [Side.other]

/-! ## Taking turns -/

/-- With nothing in flight, either peer leads. -/
theorem Duplex.Led.turn {start : Streamer} {l : Duplex} {lead : Side} {sealed : List (Bytes × Bytes)} {k : Nat}
    (h : l.Led B start lead sealed k) (hempty : l.inbox lead.other = []) :
    l.Led B start lead.other sealed sealed.length := by
  obtain rfl : k = sealed.length := by
    have := h.inFlight
    rw [hempty] at this
    exact Nat.le_antisymm h.behind (List.drop_eq_nil_iff.mp this.symm)
  have hsame : l.peer lead.other = l.peer lead := Option.some.inj (h.follower.symm.trans h.leader.position)
  refine ⟨hsame ▸ h.leader, ?_, hempty, ?_, Nat.le_refl _, h.good⟩
  · rw [other_other]; exact h.leader.position
  · rw [other_other, h.empty, List.drop_length]

/-- The leader seals. -/
theorem Duplex.Led.send {start : Streamer} {l : Duplex} {lead : Side} {sealed : List (Bytes × Bytes)} {k : Nat}
    (h : l.Led B start lead sealed k) (c : Bytes) (n : Nonce) :
    ∃ more, (l.step B (.send lead c n)).Led B start lead (sealed ++ more) k := by
  have hne := other_ne lead
  refine ⟨(Event.sealed (.chunk c n, (sealChunk B c n (l.peer lead)).result)).toList, ?_, ?_, ?_, ?_, ?_, h.good⟩
  · simp only [Duplex.step, Function.update_self]
    exact h.leader.seal c n
  · simp only [Duplex.step, Function.update_of_ne hne]
    exact h.follower
  · simp only [Duplex.step, Function.update_of_ne hne.symm]
    exact h.empty
  · simp only [Duplex.step, Function.update_self, h.inFlight]
    rw [List.drop_append_of_le_length h.behind]
  · rw [List.length_append]
    exact Nat.le_add_right_of_le h.behind

/-- The follower opens what is next in flight towards it. -/
theorem Duplex.Led.deliver {start : Streamer} {l : Duplex} {lead : Side} {sealed : List (Bytes × Bytes)} {k : Nat}
    (h : l.Led B start lead sealed k) (haes : B.AesInverts) (htag : B.AesTagged) :
    ∃ k', (l.step B (.deliver lead.other)).Led B start lead sealed k' := by
  have hne := other_ne lead
  simp only [Duplex.step]
  split
  · exact ⟨k, h⟩
  · rename_i p w rest hin
    rw [h.inFlight] at hin
    have hlt : k < sealed.length := by
      by_contra hge
      rw [List.drop_eq_nil_of_le (by omega)] at hin
      cases hin
    rw [List.drop_eq_getElem_cons hlt] at hin
    obtain ⟨hget, hrest⟩ := List.cons.inj hin
    have hw : sealed[k]? = some (p, w) := List.getElem?_eq_some_iff.mpr ⟨hlt, hget⟩
    obtain ⟨s', cs, hr, hopen⟩ := h.leader.opens haes htag hw h.follower
    refine ⟨k + 1, ?_, ?_, ?_, ?_, hlt, ?_⟩
    · simpa only [Function.update_of_ne hne.symm] using h.leader
    · simpa only [Function.update_self, hopen] using chain_succ h.follower hr
    · simpa only [Function.update_of_ne hne.symm] using h.empty
    · simpa only [Function.update_self] using hrest.symm
    · simp only [hopen, List.forall_mem_append, List.forall_mem_singleton]
      exact ⟨h.good, trivial⟩

theorem Duplex.Led.step {start : Streamer} {l : Duplex} {lead : Side} {sealed : List (Bytes × Bytes)} {k : Nat}
    (h : l.Led B start lead sealed k) (haes : B.AesInverts) (htag : B.AesTagged) {a : DuplexAct} (ha : Polite l a) :
    ∃ lead' sealed' k', (l.step B a).Led B start lead' sealed' k' := by
  cases a with
  | send side c n =>
    rcases eq_or_other lead side with rfl | rfl
    · obtain ⟨more, h'⟩ := h.send c n
      exact ⟨_, _, _, h'⟩
    · rcases ha with rfl | hempty
      · -- an empty chunk is skipped, whoever has it
        have hskip : l.step B (.send lead.other [] n) = l := by
          simp [Duplex.step, sealChunk, Event.sealed]
        exact ⟨lead, sealed, k, by rw [hskip]; exact h⟩
      · obtain ⟨more, h'⟩ := (h.turn hempty).send c n
        exact ⟨_, _, _, h'⟩
  | deliver side =>
    rcases eq_or_other lead side with rfl | rfl
    · have hidle : l.step B (.deliver side) = l := by simp only [Duplex.step, h.empty]
      exact ⟨side, sealed, k, by rw [hidle]; exact h⟩
    · obtain ⟨k', h'⟩ := h.deliver haes htag
      exact ⟨lead, sealed, k', h'⟩

theorem Duplex.Led.after {start : Streamer} {l : Duplex} {lead : Side} {sealed : List (Bytes × Bytes)} {k : Nat}
    (h : l.Led B start lead sealed k) (haes : B.AesInverts) (htag : B.AesTagged) {acts : List DuplexAct}
    (hpolite : PoliteRun B l acts) : ∃ lead' sealed' k', (l.after B acts).Led B start lead' sealed' k' := by
  induction acts generalizing l lead sealed k with
  | nil => exact ⟨lead, sealed, k, h⟩
  | cons a acts ih =>
    obtain ⟨lead', sealed', k', h'⟩ := h.step haes htag hpolite.1
    exact ih h' hpolite.2

/-- In every run of two peers who take turns, every delivered chunk opens to what was sealed. -/
theorem taking_turns (haes : B.AesInverts) (htag : B.AesTagged) (key : Key) {acts : List DuplexAct}
    (hpolite : PoliteRun B (Duplex.fresh key) acts) :
    ∀ x ∈ ((Duplex.fresh key).after B acts).delivered, x.2 = .ok x.1 := by
  have h0 : (Duplex.fresh key).Led B ⟨key, true, 0⟩ .left [] 0 :=
    ⟨Sending.nil _, rfl, rfl, rfl, Nat.le_refl _, by simp [Duplex.fresh]⟩
  obtain ⟨lead, sealed, k, h⟩ := h0.after haes htag hpolite
  exact h.good

/-! ## Runs -/

section
open Reference

/-- Both peers seal a chunk before either arrives: neither opens. -/
theorem crossing_chunks :
    ((Duplex.fresh runKey).after reference [.send .left [1] runNonce, .send .right [2] runNonce, .deliver .right,
      .deliver .left]).delivered = [([1], .error authenticationFailed), ([2], .error authenticationFailed)] := by
  decide +kernel

/-- A question and an answer. -/
theorem taking_turns_run :
    let l := (Duplex.fresh runKey).after reference [.send .left [1] runNonce, .deliver .right,
      .send .right [2] runNonce, .deliver .left]
    l.delivered.length = 2 ∧ ∀ x ∈ l.delivered, x.2 = .ok x.1 := by
  refine ⟨by decide +kernel, taking_turns aesInverts aesTagged runKey ?_⟩
  exact ⟨.inr rfl, trivial, .inr (by decide +kernel), trivial, trivial⟩

end

end Amcrypt.Stream
