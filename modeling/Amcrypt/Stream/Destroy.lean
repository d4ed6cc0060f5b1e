/-
  Amcrypt.Stream.Destroy — what is left of a `Streamer` after `destroy`.

  `destroy` puts 32 zero bytes where the key was, and nothing marks the object as dead:
  every generator, made before or after, goes on under the zero key. `destroy_final` is
  the exact extent of the promise that nothing works any more: it holds of the runs in
  which nobody seals a chunk and no chunk arrives that authenticates under the zero key.
  As long as that is so the key stays zero (`dormant_after`), so the condition is about
  what the generators are given alone.
-/

import Amcrypt.Stream.Session
import Amcrypt.Reference

namespace Amcrypt.Stream

open Lib

variable (B : Backend)

/-- A chunk to seal that is not empty, or a wire chunk. -/
def Item.Attempts : Item → Prop
  | .chunk c _ => c ≠ []
  | .wire _ => True

/-- What `destroy` promises of an iteration after it. -/
structure Final (e : Event) : Prop where
  raises : e.1.Attempts → ∃ err, e.2 = .error err ∧ err.isA .mutilatedCorpse = true
  silent : ∀ y, e.2 ≠ .ok (some y)

/-- Nothing to seal, or a wire chunk that is malformed or does not authenticate under the zero key. -/
def Inert : Item → Prop
  | .chunk c _ => c = []
  | .wire w => ∀ nonce ct, readChunk w = .ok (nonce, ct) → B.gcmDecrypt deadKey nonce ct none = .error .invalidTag

variable {B}

/-! ## One iteration under the zero key -/

theorem inert_final {x : Item} {s : Streamer} (hs : s.key = deadKey) (hx : Inert B x) :
    (iteration B x s).self = s ∧ Final (x, (iteration B x s).result) := by
  cases x with
  | chunk c n =>
    have hrun : iteration B (.chunk c n) s = ⟨.ok none, s, []⟩ := by
      rw [iteration_chunk, sealChunk, if_pos (show c = [] from hx)]; rfl
    rw [hrun]
    exact ⟨rfl, fun h => absurd hx h, by simp⟩
  | wire w =>
    have hexit := openChunk_exit (B := B) w s
    rw [iteration_wire]
    generalize openChunk B w s = out at hexit
    cases hexit with
    | malformed e h => exact ⟨rfl, fun _ => ⟨e, rfl, readChunk_error h⟩, by simp [Except.map]⟩
    | rejected nonce ct e h hd =>
      rw [hs, hx nonce ct h] at hd
      obtain rfl := Except.error.inj hd
      exact ⟨rfl, fun _ => ⟨authenticationFailed, rfl, rfl⟩, by simp [Except.map]⟩
    | stuck nonce ct p h hd _ => rw [hs, hx nonce ct h] at hd; cases hd
    | opened nonce ct p s' h hd _ => rw [hs, hx nonce ct h] at hd; cases hd

/-- An iteration that keeps the promise was given nothing that works under the zero key. -/
theorem inert_of_final (hforeign : B.AesForeign) {x : Item} {s : Streamer} (hs : s.key = deadKey)
    (h : Final (x, (iteration B x s).result)) : Inert B x := by
  cases x with
  | chunk c n =>
    by_contra hc
    obtain ⟨err, herr, hkind⟩ := h.raises hc
    have hexit := sealChunk_exit (B := B) c n s
    rw [iteration_chunk] at herr
    generalize sealChunk B c n s = out at herr hexit
    cases hexit with
    | skipped h0 => cases herr
    | refused ct _ _ _ => cases herr; cases hkind
    | sealed ct s' _ _ _ _ => cases herr
  | wire w =>
    intro nonce ct hf
    obtain ⟨err, herr, hkind⟩ := h.raises trivial
    have hexit := openChunk_exit (B := B) w s
    rw [iteration_wire] at herr
    generalize openChunk B w s = out at herr hexit
    cases hexit with
    | malformed e h' => rw [hf] at h'; cases h'
    | rejected n' ct' e h' hd =>
      obtain ⟨rfl, rfl⟩ := Prod.mk.inj (Except.ok.inj (hf.symm.trans h'))
      obtain rfl : rejection e = err := Except.error.inj herr
      by_cases he : e = .invalidTag
      · rw [← hs, hd, he]
      · rw [rejection, if_neg he] at hkind
        cases e with
        | amcrypt kind message => exact absurd rfl (hforeign _ _ _ _ _ hd kind message)
        | _ => cases hkind
    | stuck n' ct' p _ _ _ => cases herr; cases hkind
    | opened n' ct' p s' _ _ _ => cases herr

/-! ## Every continuation -/

/-- A session some time after `destroy`: what its log has gained, and that the key is
    still zero if nothing worked. -/
structure Dormant (B : Backend) (log : List Event) (s : Session) (events : List Event) : Prop where
  gained : s.log = log ++ events
  dead : (∀ e ∈ events, Inert B e.1) → s.self.key = deadKey ∧ ∀ e ∈ events, Final e
  inert : (∀ e ∈ events, Final e) → ∀ e ∈ events, Inert B e.1

theorem dormant_step (hforeign : B.AesForeign) {log events : List Event} {s : Session} (h : Dormant B log s events)
    (a : Act) : ∃ events', Dormant B log (a.run B s).self events' := by
  cases a with
  | sealing chunks => exact ⟨events, h.gained, h.dead, h.inert⟩
  | sealingFinal lastChunk nonce => exact ⟨events, h.gained, h.dead, h.inert⟩
  | opening wires => exact ⟨events, h.gained, h.dead, h.inert⟩
  | destroy => exact ⟨events, h.gained, fun hi => ⟨rfl, (h.dead hi).2⟩, h.inert⟩
  | next i =>
    have hadv := next_advance (B := B) i s
    rw [Act.run]
    generalize Session.next B i s = out at hadv
    cases hadv with
    | idle => exact ⟨events, h⟩
    | ran x gens _ _ =>
      refine ⟨events ++ [(x, (iteration B x s.self).result)], by simp [h.gained], ?_, ?_⟩
      · intro hi
        simp only [List.forall_mem_append, List.forall_mem_singleton] at hi ⊢
        obtain ⟨hkey, hfinal⟩ := h.dead hi.1
        obtain ⟨hself, hx⟩ := inert_final hkey hi.2
        exact ⟨by rw [hself]; exact hkey, hfinal, hx⟩
      · intro hf
        simp only [List.forall_mem_append, List.forall_mem_singleton] at hf ⊢
        have hinert := h.inert hf.1
        exact ⟨hinert, inert_of_final hforeign (h.dead hinert).1 hf.2⟩

theorem dormant_after (hforeign : B.AesForeign) {log : List Event} (acts : List Act) {s : Session}
    {events : List Event} (h : Dormant B log s events) : ∃ events', Dormant B log (s.after B acts) events' := by
  induction acts generalizing s events with
  | nil => exact ⟨events, h⟩
  | cons a acts ih =>
    obtain ⟨events', h'⟩ := dormant_step hforeign h a
    exact ih h'

/-- After `destroy`, everything raises and nothing comes out exactly as long as every
    generator is given nothing but what is inert under the zero key. -/
theorem destroy_final (hforeign : B.AesForeign) (key : Key) (ratchet : Bool) (history later : List Act) :
    let s := (Session.fresh key ratchet).after B (history ++ [.destroy])
    let events := (s.after B later).log.drop s.log.length
    (∀ e ∈ events, Final e) ↔ ∀ e ∈ events, Inert B e.1 := by
  intro s events
  have hdead : s.self.key = deadKey := by simp [s, Act.run, Session.destroy, destroy]
  have h0 : Dormant B s.log s [] := ⟨by simp, fun _ => ⟨hdead, by simp⟩, by simp⟩
  obtain ⟨events', h⟩ := dormant_after hforeign later h0
  have he : events = events' := by simp [events, h.gained]
  rw [he]
  exact ⟨h.inert, fun hi => (h.dead hi).2⟩

/-! ## Runs -/

section
open Reference

/-- A `seal` generator made before `destroy` and advanced after it: the chunk goes out
    under a key that everybody knows. -/
theorem sealed_after_destroy :
    let s := (Session.fresh runKey true).after reference ([.sealing [([1], runNonce)]] ++ [.destroy])
    let events := (s.after reference [.next 0]).log.drop s.log.length
    ∃ w, events = [(.chunk [1] runNonce, .ok (some w))] ∧
      (openChunk reference w ⟨deadKey, true, 0⟩).result = .ok [1] ∧ ¬ ∀ e ∈ events, Final e := by
  refine ⟨wireChunk runNonce (gcmEncrypt deadKey runNonce.val [1] none), by decide +kernel, by decide +kernel, ?_⟩
  have hlog : (((Session.fresh runKey true).after reference
      ([.sealing [([1], runNonce)]] ++ [.destroy] ++ [.next 0])).log) =
        [(.chunk [1] runNonce, .ok (some (wireChunk runNonce (gcmEncrypt deadKey runNonce.val [1] none))))] := by
    decide +kernel
  intro h
  exact (h _ (by rw [← after_append, hlog]; exact List.mem_singleton_self _)).silent _ rfl

/-- An empty chunk and a malformed one after `destroy`. -/
theorem destroy_final_run :
    let s := (Session.fresh runKey true).after reference ([.opening [[1, 2, 3]]] ++ [.destroy])
    ∀ e ∈ (s.after reference [.sealing [([], runNonce)], .next 1, .next 0]).log.drop s.log.length, Final e := by
  refine (destroy_final aesForeign runKey true [.opening [[1, 2, 3]]]
    [.sealing [([], runNonce)], .next 1, .next 0]).mpr ?_
  have hitems : (((Session.fresh runKey true).after reference
      ([.opening [[1, 2, 3]]] ++ [.destroy] ++ [.sealing [([], runNonce)], .next 1, .next 0])).log.map Prod.fst) =
        [.chunk [] runNonce, .wire [1, 2, 3]] := by
    decide +kernel
  intro e he
  have hmem := List.mem_map_of_mem (f := Prod.fst) (List.mem_of_mem_drop he)
  rw [← after_append, hitems] at hmem
  rcases List.mem_cons.mp hmem with h | h
  · rw [h]; exact rfl
  · rw [List.mem_singleton.mp h]
    have hshort : readChunk [1, 2, 3] = .error tooShort := by decide
    intro nonce ct hf
    rw [hshort] at hf
    cases hf

end

end Amcrypt.Stream
