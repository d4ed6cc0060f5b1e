/-
  Amcrypt.Stream.Sending — what a sender has put on the wire.

  `Sending` relates a sender to its record: it is as far along the chain of keys as it has
  sealed chunks, and each of these is an encryption under the key at its place. One
  iteration of `seal` keeps it (`Sending.seal`), and whoever stands at a place of the
  chain opens the chunk that was sealed there (`Sending.opens`).
-/

import Amcrypt.Stream.Session

namespace Amcrypt.Stream

open Lib

variable {B : Backend} {start sender : Streamer} {sealed : List (Bytes × Bytes)}

/-- The wire chunk `w` is `p`, sealed at place `i` of the chain. -/
def SealedAt (B : Backend) (start : Streamer) (i : Nat) (p w : Bytes) : Prop :=
  p ≠ [] ∧ ∃ s n, chain (ratcheted B) start i = some s ∧ w = wireChunk n (B.gcmEncrypt s.key n.val p none) ∧
    nonceLen + (B.gcmEncrypt s.key n.val p none).length < 256 ^ lenField

structure Sending (B : Backend) (start : Streamer) (sealed : List (Bytes × Bytes)) (sender : Streamer) : Prop where
  position : chain (ratcheted B) start sealed.length = some sender
  wires : ∀ i p w, sealed[i]? = some (p, w) → SealedAt B start i p w

theorem Sending.nil (start : Streamer) : Sending B start [] start := ⟨rfl, by simp⟩

/-- A chunk sealed at the sender's place. -/
theorem Sending.snoc (h : Sending B start sealed sender) {p w : Bytes} {s' : Streamer}
    (hw : SealedAt B start sealed.length p w) (hr : ratcheted B sender = some s') :
    Sending B start (sealed ++ [(p, w)]) s' := by
  refine ⟨?_, ?_⟩
  · rw [List.length_append, List.length_singleton]
    exact chain_succ h.position hr
  · intro i q v hi
    rcases getElem?_snoc hi with ⟨-, hi⟩ | ⟨rfl, hlast⟩
    · exact h.wires i q v hi
    · obtain ⟨rfl, rfl⟩ := Prod.mk.inj hlast
      exact hw

theorem Sending.seal (h : Sending B start sealed sender) (c : Bytes) (n : Nonce) :
    Sending B start (sealed ++ (Event.sealed (.chunk c n, (sealChunk B c n sender).result)).toList)
      (sealChunk B c n sender).self := by
  have hx := sealChunk_exit (B := B) c n sender
  generalize sealChunk B c n sender = out at hx
  cases hx with
  | skipped _ => simpa [Event.sealed] using h
  | refused ct _ _ _ => simpa [Event.sealed] using h
  | sealed ct s' hc hct hfit hr =>
    exact h.snoc ⟨hc, sender, n, h.position, by rw [hct], by rw [← hct]; exact hfit⟩ hr

/-- At the place where it was sealed, a chunk opens. -/
theorem Sending.opens (h : Sending B start sealed sender) (haes : B.AesInverts) (htag : B.AesTagged) {i : Nat} {p w : Bytes}
    (hw : sealed[i]? = some (p, w)) {receiver : Streamer} (hr : chain (ratcheted B) start i = some receiver) :
    ∃ s' cs, ratcheted B receiver = some s' ∧ openChunk B w receiver = ⟨.ok p, s', cs⟩ := by
  obtain ⟨hlt, -⟩ := List.getElem?_eq_some_iff.mp hw
  obtain ⟨s', hnext⟩ := chain_next (by rw [h.position]; rfl) hr hlt
  obtain ⟨-, s, n, hs, rfl, hfit⟩ := h.wires i p w hw
  obtain rfl := Option.some.inj (hs.symm.trans hr)
  exact ⟨s', _, hnext, openChunk_opened (readChunk_wireChunk n (by rw [htag]; omega) hfit) (haes s.key n p none) hnext⟩

end Amcrypt.Stream
