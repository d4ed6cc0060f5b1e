/-
  Amcrypt.Stream.Channel — exactly what a receiver accepts.

  `Amcrypt.Stream.PrefixSafety` says that what is yielded was sealed, in order. Here the wire
  is compared too: every encryption that the sender made is the wire chunk of its place, or
  never went out (`Framed`). So at any moment of any run, under any bytes at all, a receiver
  accepts a piece exactly if it begins with the next genuine wire chunk (`open_exactly`). It
  is an in-order channel with one slot for the adversary: what stands after the chunk in the
  same piece is dropped without a sign.
-/

import Amcrypt.Stream.PrefixSafety

namespace Amcrypt.Stream

open Lib

variable {B : Backend}

/-- The encryption is the wire chunk of its place, or did not go out. -/
def Framed (B : Backend) (start : Streamer) (sealed : List (Bytes × Bytes)) (k : Key) (n : Nonce) (p ct : Bytes) : Prop :=
  ∃ i s, chain (ratcheted B) start i = some s ∧ s.key = k ∧
    (sealed[i]? = some (p, wireChunk n ct) ∨ 256 ^ lenField ≤ nonceLen + ct.length ∨ ratcheted B s = none)

def Link.Framed (B : Backend) (key : Key) (l : Link) : Prop :=
  ∀ k n a p ct, .encrypt k n a p ct ∈ l.calls → Stream.Framed B ⟨key, true, 0⟩ l.sealed k n p ct

theorem Framed.mono {start : Streamer} {sealed : List (Bytes × Bytes)} {k : Key} {n : Nonce} {p ct : Bytes}
    (h : Framed B start sealed k n p ct) (more : List (Bytes × Bytes)) : Framed B start (sealed ++ more) k n p ct := by
  obtain ⟨i, s, hs, hk, hw | hrest⟩ := h
  · have hlt := (List.getElem?_eq_some_iff.mp hw).1
    exact ⟨i, s, hs, hk, .inl (by rw [List.getElem?_append_left hlt, hw])⟩
  · exact ⟨i, s, hs, hk, .inr hrest⟩

/-- One iteration of `seal`, at the sender's place. -/
theorem Framed.seal {start sender : Streamer} {sealed : List (Bytes × Bytes)}
    (hpos : chain (ratcheted B) start sealed.length = some sender) {c : Bytes} {m : Nonce} {k : Key} {n : Nonce}
    {a : Option Bytes} {p ct : Bytes} (hmem : .encrypt k n a p ct ∈ (sealChunk B c m sender).calls) :
    Framed B start (sealed ++ (Event.sealed (.chunk c m, (sealChunk B c m sender).result)).toList) k n p ct := by
  have hx := sealChunk_exit (B := B) c m sender
  generalize sealChunk B c m sender = out at hx hmem
  cases hx with
  | skipped _ => cases hmem
  | refused ct' _ _ hwhy =>
    simp only [List.mem_singleton, Call.encrypt.injEq] at hmem
    obtain ⟨rfl, rfl, -, rfl, rfl⟩ := hmem
    exact ⟨sealed.length, sender, hpos, rfl, .inr hwhy⟩
  | sealed ct' s' _ _ _ _ =>
    simp only [List.mem_singleton, Call.encrypt.injEq] at hmem
    obtain ⟨rfl, rfl, -, rfl, rfl⟩ := hmem
    exact ⟨sealed.length, sender, hpos, rfl, .inl List.getElem?_concat_length⟩

theorem openChunk_encrypts_nothing (w : Bytes) (s : Streamer) (k : Key) (n : Nonce) (a : Option Bytes) (p ct : Bytes) :
    .encrypt k n a p ct ∉ (openChunk B w s).calls := by
  have hx := openChunk_exit (B := B) w s
  generalize openChunk B w s = out at hx
  cases hx <;> simp

theorem Link.framed_step {key : Key} {l : Link} (h : l.Inv B key) (hf : l.Framed B key) (act : LinkAct) :
    (l.step B act).Framed B key := by
  cases act with
  | sealing chunks => simpa [Link.Framed, Link.step, Link.sends, Link.sealed, Act.run] using hf
  | sealingFinal lastChunk nonce => simpa [Link.Framed, Link.step, Link.sends, Link.sealed, Act.run] using hf
  | opening wires => simpa [Link.Framed, Link.step, Link.receives, Link.sealed, Act.run] using hf
  | sealNext i =>
    have hadv := next_advance (B := B) i l.sender
    simp only [Link.step, Link.sends, Act.run]
    generalize Session.next B i l.sender = out at hadv
    cases hadv with
    | idle => simpa [Link.Framed, Link.sealed] using hf
    | ran x gens hx hgens =>
      cases x with
      | wire w => exact absurd (h.seals _ hx) id
      | chunk c m =>
        intro k n a p ct hmem
        simp only [Link.sealed, filterMap_snoc]
        rw [iteration_chunk] at hmem ⊢
        rcases List.mem_append.mp hmem with hmem | hmem
        · exact (hf k n a p ct hmem).mono _
        · exact Framed.seal h.aligned.sending.position hmem
  | openNext i =>
    have hadv := next_advance (B := B) i l.receiver
    simp only [Link.step, Link.receives, Act.run]
    generalize Session.next B i l.receiver = out at hadv
    cases hadv with
    | idle => simpa [Link.Framed, Link.sealed] using hf
    | ran x gens hx hgens =>
      cases x with
      | chunk c m => exact absurd (h.opens _ hx) id
      | wire w =>
        intro k n a p ct hmem
        rcases List.mem_append.mp hmem with hmem | hmem
        · exact hf k n a p ct hmem
        · rw [iteration_wire] at hmem
          exact absurd hmem (openChunk_encrypts_nothing w _ k n a p ct)

theorem Link.framed_after {key : Key} (hchain : NoRepeat (ratcheted B) ⟨key, true, 0⟩ Streamer.key)
    (acts : List LinkAct) (hideal : Ideal ((Link.fresh key).after B acts).calls) :
    ((Link.fresh key).after B acts).Framed B key := by
  induction acts using List.reverseRecOn with
  | nil => intro k n a p ct hmem; cases hmem
  | append_singleton acts act ih =>
    rw [Link.after_append] at hideal ⊢
    obtain ⟨cs, hcs⟩ := Link.step_calls (B := B) ((Link.fresh key).after B acts) act
    have hpast : Ideal ((Link.fresh key).after B acts).calls := by
      have hall : Ideal (((Link.fresh key).after B acts).calls ++ cs) := hcs ▸ hideal
      exact hall.of_append
    exact Link.framed_step (Link.inv_after hchain acts hpast) (ih hpast) act

/-- A piece that begins with the chunk sealed at the receiver's place opens. -/
theorem Sending.opens_prefix {start sender : Streamer} {sealed : List (Bytes × Bytes)}
    (h : Sending B start sealed sender) (haes : B.AesInverts) (htag : B.AesTagged) {i : Nat} {p w wire : Bytes}
    (hw : sealed[i]? = some (p, w)) {receiver : Streamer} (hr : chain (ratcheted B) start i = some receiver)
    (hpre : w <+: wire) : (openChunk B wire receiver).result = .ok p := by
  obtain ⟨hlt, -⟩ := List.getElem?_eq_some_iff.mp hw
  obtain ⟨s', hnext⟩ := chain_next (by rw [h.position]; rfl) hr hlt
  obtain ⟨-, s, n, hs, rfl, hfit⟩ := h.wires i p w hw
  obtain rfl := Option.some.inj (hs.symm.trans hr)
  obtain ⟨rest, rfl⟩ := hpre
  rw [openChunk_opened (readChunk_append n (by rw [htag]; omega) hfit rest) (haes s.key n p none) hnext]

/-- A receiver that is aligned with its sender opens a piece exactly if it begins with the next
    chunk. -/
theorem Link.opens_iff {key : Key} {l : Link} (haes : B.AesInverts) (htag : B.AesTagged)
    (hchain : NoRepeat (ratcheted B) ⟨key, true, 0⟩ Streamer.key) (h : l.Inv B key) (hframed : l.Framed B key)
    {wire p : Bytes} (hideal : Ideal (l.calls ++ (openChunk B wire l.receiver.self).calls)) :
    (openChunk B wire l.receiver.self).result = .ok p ↔ ∃ w, l.sealed[l.yielded.length]? = some (p, w) ∧ w <+: wire := by
  have hinv := h.aligned
  refine ⟨?_, ?_⟩
  · intro h
    have hx := openChunk_exit (B := B) wire l.receiver.self
    generalize openChunk B wire l.receiver.self = out at hx h hideal
    cases hx with
    | opened nonce ct q s' hread _ hr =>
      obtain rfl := Except.ok.inj h
      obtain ⟨n, rfl, a, -, hmem⟩ := Ideal.sealed hideal
      obtain ⟨i, s, hs, hk, hw⟩ := hframed _ _ _ _ _ hmem
      obtain rfl := hchain i l.yielded.length s l.receiver.self hs hinv.receiver hk
      obtain rfl := Option.some.inj (hs.symm.trans hinv.receiver)
      rcases hw with hw | hlong | hend
      · have hct : ct ≠ [] := by
          obtain ⟨-, s, m, -, hwire, -⟩ := hinv.sending.wires _ _ _ hw
          rintro rfl
          have hlen := congrArg List.length hwire
          simp only [wireChunk, List.length_append, BigEndian.length_encode, n.property, m.property, List.length_nil,
            htag s.key m q none] at hlen
          omega
        exact ⟨_, hw, readChunk_prefix hread hct⟩
      · have := readChunk_fits hread
        omega
      · rw [hr] at hend
        cases hend
    | _ => cases h
  · intro h
    obtain ⟨w, hw, hpre⟩ := h
    exact hinv.sending.opens_prefix haes htag hw hinv.receiver hpre

/-- At any moment of any run: the receiver accepts a piece, and yields `p`, exactly if the piece
    begins with the next wire chunk of the sender, in which `p` was sealed. -/
theorem open_exactly (haes : B.AesInverts) (htag : B.AesTagged) (key : Key)
    (hchain : NoRepeat (ratcheted B) ⟨key, true, 0⟩ Streamer.key) (acts : List LinkAct) (wire p : Bytes)
    (hideal : Ideal (((Link.fresh key).after B acts).calls ++
      (openChunk B wire ((Link.fresh key).after B acts).receiver.self).calls)) :
    (openChunk B wire ((Link.fresh key).after B acts).receiver.self).result = .ok p ↔
      ∃ w, ((Link.fresh key).after B acts).sealed[((Link.fresh key).after B acts).yielded.length]? = some (p, w) ∧
        w <+: wire :=
  have hpast : Ideal ((Link.fresh key).after B acts).calls := hideal.of_append
  Link.opens_iff haes htag hchain (Link.inv_after hchain acts hpast) (Link.framed_after hchain acts hpast) hideal

section
open Reference

/-- The second chunk, with a byte of the adversary's behind it. -/
theorem open_exactly_run :
    (openChunk reference (secondWire ++ [0xff]) ((Link.fresh runKey).after reference runActs).receiver.self).result =
      .ok [2] := by
  have hcalls : (openChunk reference (secondWire ++ [0xff])
      ((Link.fresh runKey).after reference runActs).receiver.self).calls =
        [.decrypt nextKey runNonce.val (gcmEncrypt nextKey runNonce.val [2] none) none (.ok [2])] := by
    decide +kernel
  have hsealed : .encrypt nextKey runNonce none [2] (gcmEncrypt nextKey runNonce.val [2] none) ∈
      ((Link.fresh runKey).after reference runActs).calls := by
    decide +kernel
  have hideal : Ideal (((Link.fresh runKey).after reference runActs).calls ++
      (openChunk reference (secondWire ++ [0xff]) ((Link.fresh runKey).after reference runActs).receiver.self).calls) := by
    rw [hcalls]
    exact run_ideal.snoc_open hsealed rfl
  exact (open_exactly aesInverts aesTagged runKey reference_noRepeat runActs _ [2] hideal).mpr
    ⟨secondWire, by decide +kernel, List.prefix_append _ _⟩

end

end Amcrypt.Stream
