/-
  Amcrypt.Stream.Sync — a one-way stream over a channel that loses nothing.

  The sender advances its `seal` generators in any order; each delivery is one iteration
  of the receiver's `open`, over the next wire chunk that has not arrived yet, as late as
  the channel likes. `Sync.Inv` holds at every moment: each side is as far along the
  chain of keys as it has chunks to show for it, and what was received is what was
  sealed, as far as it was delivered. Nothing is asked of the keys but that decryption
  inverts encryption: both sides are on one chain by construction.

  The ratchet packs its step in 64 bits and raises at the end of them, so a ratcheting
  sender seals the first 2^64 chunks it is given and no more.
-/

import Amcrypt.Stream.PrefixSafety

namespace Amcrypt.Stream

open Lib

variable (B : Backend)

/-- A sender, a receiver, and how every iteration of the receiver's `open` ended. -/
structure Sync where
  sender : Session
  receiver : Streamer
  received : List (Except PyErr Bytes)

def Sync.fresh (key : Key) (ratchet : Bool) : Sync := ⟨.fresh key ratchet, ⟨key, ratchet, 0⟩, []⟩

/-- The chunks sealed so far, each with its wire chunk. -/
def Sync.sealed (l : Sync) : List (Bytes × Bytes) := l.sender.log.filterMap Event.sealed

inductive SyncAct where
  | sealing (chunks : List (Bytes × Nonce))
  | sealingFinal (lastChunk : Bytes) (nonce : Nonce)
  | sealNext (i : Nat)
  | deliver

def Sync.sends (l : Sync) (a : Act) : Sync := { l with sender := (a.run B l.sender).self }

def Sync.step (l : Sync) : SyncAct → Sync
  | .sealing chunks => l.sends B (.sealing chunks)
  | .sealingFinal lastChunk nonce => l.sends B (.sealingFinal lastChunk nonce)
  | .sealNext i => l.sends B (.next i)
  | .deliver => match l.sealed[l.received.length]? with
    | some (_, w) =>
      let out := openChunk B w l.receiver
      { l with receiver := out.self, received := l.received ++ [out.result] }
    | none => l

def Sync.after (l : Sync) (acts : List SyncAct) : Sync := acts.foldl (Sync.step B) l

/-- The non-empty chunk an iteration of `seal` was given. -/
def Event.offered : Event → Option Bytes
  | (.chunk c _, _) => if c = [] then none else some c
  | (.wire _, _) => none

/-- The non-empty chunks that the sender's generators have drawn so far. -/
def Sync.offered (l : Sync) : List Bytes := l.sender.log.filterMap Event.offered

/-- As many chunks as the ratchet has steps for. -/
def limited (ratchet : Bool) (chunks : List Bytes) : List Bytes := if ratchet then chunks.take (2 ^ 64) else chunks

/-- The chunks an action gives to `seal`. -/
def SyncAct.chunks : SyncAct → List Bytes
  | .sealing chunks => chunks.map Prod.fst
  | .sealingFinal lastChunk _ => [lastChunk]
  | .sealNext _ => []
  | .deliver => []

/-- Short enough for the length field, with nonce and tag. -/
def Short (chunk : Bytes) : Prop := nonceLen + (chunk.length + 16) < 256 ^ lenField

instance (chunk : Bytes) : Decidable (Short chunk) :=
  inferInstanceAs (Decidable (nonceLen + (chunk.length + 16) < 256 ^ lenField))

/-- An item of a `seal` generator that is short enough. -/
def Item.IsShort : Item → Prop
  | .chunk c _ => Short c
  | .wire _ => False

structure Sync.Inv (B : Backend) (key : Key) (ratchet : Bool) (l : Sync) : Prop where
  sending : Sending B ⟨key, ratchet, 0⟩ l.sealed l.sender.self
  receiver : chain (ratcheted B) ⟨key, ratchet, 0⟩ l.received.length = some l.receiver
  received : l.received = (l.sealed.take l.received.length).map fun x => .ok x.1
  sealed : l.sealed.map Prod.fst = limited ratchet l.offered
  short : l.sender.Only Item.IsShort

variable {B}

theorem limited_snoc_some {ratchet : Bool} {chunks : List Bytes} (c : Bytes)
    (h : ratchet = true → (limited ratchet chunks).length < 2 ^ 64) :
    limited ratchet (chunks ++ [c]) = limited ratchet chunks ++ [c] := by
  unfold limited at h ⊢
  split at h
  · rename_i hr
    have hlen := h hr
    rw [List.length_take] at hlen
    rw [if_pos hr, if_pos hr, List.take_of_length_le (by rw [List.length_append, List.length_singleton]; omega),
      List.take_of_length_le (by omega)]
  · rename_i hr
    rw [if_neg hr, if_neg hr]

theorem limited_snoc_none {ratchet : Bool} {chunks : List Bytes} (c : Bytes)
    (h : ratchet = true ∧ 2 ^ 64 ≤ (limited ratchet chunks).length) :
    limited ratchet (chunks ++ [c]) = limited ratchet chunks := by
  obtain ⟨rfl, hlen⟩ := h
  simp only [limited, if_true, List.length_take] at hlen ⊢
  exact List.take_append_of_le_length (by omega)

/-- The sender seals what it is offered until the ratchet is at its end. -/
theorem seal_offered (htag : B.AesTagged) {key : Key} {ratchet : Bool} {sealed : List (Bytes × Bytes)}
    {sender : Streamer} {offered : List Bytes} (hs : Sending B ⟨key, ratchet, 0⟩ sealed sender)
    (ho : sealed.map Prod.fst = limited ratchet offered) {c : Bytes} (hc : Short c) (n : Nonce)
    (r : Except PyErr (Option Bytes)) :
    (sealed ++ (Event.sealed (.chunk c n, (sealChunk B c n sender).result)).toList).map Prod.fst =
      limited ratchet (offered ++ (Event.offered (.chunk c n, r)).toList) := by
  have hlen : (limited ratchet offered).length = sealed.length := by rw [← ho, List.length_map]
  obtain ⟨hr, hstep⟩ := step_of_chain hs.position
  have hx := sealChunk_exit (B := B) c n sender
  generalize sealChunk B c n sender = out at hx
  cases hx with
  | skipped h0 => simpa [Event.sealed, Event.offered, h0] using ho
  | refused ct h0 hct hwhy =>
    have hend := hwhy.resolve_left (by rw [hct, htag]; unfold Short at hc; omega)
    obtain ⟨hon, hend⟩ := ratcheted_eq_none.mp hend
    obtain rfl : true = ratchet := hon.symm.trans hr
    simp only [Event.sealed, Event.offered, if_neg h0, Option.toList_none, Option.toList_some, List.append_nil]
    rw [limited_snoc_none c ⟨rfl, by rw [hlen]; have := (hstep rfl).1; omega⟩, ho]
  | sealed ct s' h0 hct hfit hs' =>
    have hmore : ratchet = true → (limited ratchet offered).length < 2 ^ 64 := by
      intro hon
      have hsome : ratcheted B sender ≠ none := by rw [hs']; simp
      rw [ne_eq, ratcheted_eq_none, hr, (hstep hon).1] at hsome
      rw [hlen]
      simp only [hon, true_and] at hsome
      omega
    simp only [Event.sealed, Event.offered, if_neg h0, Option.toList_some, List.map_append, List.map_cons,
      List.map_nil]
    rw [limited_snoc_some c hmore, ho]

/-! ## Every schedule -/

theorem isShort_seal {chunks : List (Bytes × Nonce)} (h : ∀ c ∈ chunks.map Prod.fst, Short c) :
    ∀ x ∈ Streamer.seal chunks, x.IsShort := by
  intro x hx
  obtain ⟨c, hc, rfl⟩ := List.mem_map.mp hx
  exact h c.1 (List.mem_map_of_mem hc)

theorem Sync.inv_step (haes : B.AesInverts) (htag : B.AesTagged) {key : Key} {ratchet : Bool} {l : Sync}
    (h : l.Inv B key ratchet) (a : SyncAct) (hshort : ∀ c ∈ a.chunks, Short c) :
    (l.step B a).Inv B key ratchet := by
  cases a with
  | sealing chunks => exact ⟨h.sending, h.receiver, h.received, h.sealed, h.short.start (isShort_seal hshort)⟩
  | sealingFinal lastChunk nonce =>
    exact ⟨h.sending, h.receiver, h.received, h.sealed, h.short.start (isShort_seal hshort)⟩
  | sealNext i =>
    have hadv := next_advance (B := B) i l.sender
    simp only [Sync.step, Sync.sends, Act.run]
    generalize Session.next B i l.sender = out at hadv
    cases hadv with
    | idle => exact h
    | ran x gens hx hgens =>
      cases x with
      | wire w => exact absurd (h.short _ hx) id
      | chunk c n =>
        have hsending := h.sending.seal c n
        have hoffered := seal_offered htag h.sending h.sealed (h.short _ hx) n (iteration B (.chunk c n) l.sender.self).result
        refine ⟨?_, h.receiver, ?_, ?_, fun y hy => h.short y (hgens hy)⟩
        · simpa only [Sync.sealed, filterMap_snoc, iteration_chunk] using hsending
        · have hle : l.received.length ≤ (l.sender.log.filterMap Event.sealed).length := by
            have := congrArg List.length h.received
            rw [List.length_map, List.length_take] at this
            exact this ▸ Nat.min_le_right _ _
          simp only [Sync.sealed, filterMap_snoc, List.take_append_of_le_length hle]
          exact h.received
        · simpa only [Sync.sealed, Sync.offered, filterMap_snoc, iteration_chunk] using hoffered
  | deliver =>
    simp only [Sync.step]
    split
    · rename_i p w hw
      obtain ⟨s', cs, hr, hopen⟩ := h.sending.opens haes htag hw h.receiver
      obtain ⟨hlt, hget⟩ := List.getElem?_eq_some_iff.mp hw
      refine ⟨h.sending, ?_, ?_, h.sealed, h.short⟩
      · simp only [hopen, List.length_append, List.length_singleton]
        exact chain_succ h.receiver hr
      · simp only [hopen, List.length_append, List.length_singleton]
        have hmap : (l.sealed.take (l.received.length + 1)).map (fun x => (.ok x.1 : Except PyErr Bytes)) =
            (l.sealed.take l.received.length).map (fun x => .ok x.1) ++ [.ok p] := by
          rw [← List.take_append_getElem hlt, List.map_append, hget]
          rfl
        rw [show (Sync.sealed { l with receiver := s', received := l.received ++ [Except.ok p] }) = l.sealed from rfl,
          hmap, ← h.received]
    · exact h

theorem Sync.inv_after (haes : B.AesInverts) (htag : B.AesTagged) (key : Key) (ratchet : Bool)
    (acts : List SyncAct) (hshort : ∀ a ∈ acts, ∀ c ∈ a.chunks, Short c) :
    ((Sync.fresh key ratchet).after B acts).Inv B key ratchet := by
  induction acts using List.reverseRecOn with
  | nil =>
    refine ⟨Sending.nil _, rfl, rfl, ?_, Session.Only.fresh key ratchet⟩
    cases ratchet <;> rfl
  | append_singleton acts a ih =>
    have hstep : (Sync.fresh key ratchet).after B (acts ++ [a]) = ((Sync.fresh key ratchet).after B acts).step B a := by
      simp [Sync.after]
    rw [hstep]
    refine Sync.inv_step haes htag (ih fun a ha => hshort a (List.mem_append_left _ ha)) a ?_
    exact hshort a (List.mem_append_right _ List.mem_cons_self)

/-- The receiver never raises and yields what was sealed, in order, as far as it was
    delivered; what was sealed is the non-empty chunks, with the ratchet on the first 2^64
    of them; and the receiver is where the sender was after as many chunks. -/
theorem one_way_sync (haes : B.AesInverts) (htag : B.AesTagged) (key : Key) (ratchet : Bool) (acts : List SyncAct)
    (hshort : ∀ a ∈ acts, ∀ c ∈ a.chunks, Short c) :
    let l := (Sync.fresh key ratchet).after B acts
    l.received = ((limited ratchet l.offered).take l.received.length).map Except.ok ∧
      l.sealed.map Prod.fst = limited ratchet l.offered ∧
      ∀ earlier, earlier <+: acts →
        ((Sync.fresh key ratchet).after B earlier).sealed.length = l.received.length →
          ((Sync.fresh key ratchet).after B earlier).sender.self = l.receiver := by
  intro l
  have h := Sync.inv_after haes htag key ratchet acts hshort
  refine ⟨?_, h.sealed, ?_⟩
  · rw [← h.sealed, ← List.map_take, List.map_map]
    exact h.received
  · intro earlier hpre heq
    have h' := Sync.inv_after haes htag key ratchet earlier fun a ha => hshort a (hpre.subset ha)
    have hs := h'.sending.position
    rw [heq] at hs
    exact Option.some.inj (hs.symm.trans h.receiver)

/-! ## Runs -/

section
open Reference

/-- Two `seal` calls, an empty chunk, and a receiver that lags. -/
def syncActs : List SyncAct :=
  [.sealing [([1], runNonce), ([], runNonce)], .sealNext 0, .sealNext 0, .sealingFinal [2] runNonce, .sealNext 1,
    .deliver, .deliver]

theorem one_way_sync_run :
    let l := (Sync.fresh runKey true).after reference syncActs
    l.received = [.ok [1], .ok [2]] ∧ l.sealed.map Prod.fst = limited true l.offered ∧ l.receiver = l.sender.self := by
  have h := one_way_sync aesInverts aesTagged runKey true syncActs (by decide +kernel)
  refine ⟨by decide +kernel, h.2.1, (h.2.2 syncActs List.prefix_rfl (by decide +kernel)).symm⟩

theorem received_le (l : Sync) {key : Key} (h : l.Inv reference key true) : l.received.length ≤ 2 ^ 64 := by
  obtain ⟨-, hstep⟩ := step_of_chain h.receiver
  exact (hstep rfl).2

/-- One chunk more than the ratchet has steps for. -/
def longActs : List SyncAct :=
  .sealing (List.replicate (2 ^ 64 + 1) ([1], runNonce)) ::
    (List.replicate (2 ^ 64 + 1) (.sealNext 0) ++ List.replicate (2 ^ 64 + 1) .deliver)

/-- All chunks sealed and all wire chunks delivered, the receiver has not yielded them all. -/
theorem beyond_the_ratchet :
    (∀ a ∈ longActs, ∀ c ∈ a.chunks, Short c) ∧
      ((Sync.fresh runKey true).after reference longActs).received ≠ List.replicate (2 ^ 64 + 1) (.ok [1]) := by
  have hshort : ∀ a ∈ longActs, ∀ c ∈ a.chunks, Short c := by
    intro a ha c hc
    rcases List.mem_cons.mp ha with rfl | ha
    · rw [SyncAct.chunks, List.map_replicate] at hc
      rw [List.eq_of_mem_replicate hc]
      decide
    · rcases List.mem_append.mp ha with ha | ha
      · rw [List.eq_of_mem_replicate ha] at hc
        cases hc
      · rw [List.eq_of_mem_replicate ha] at hc
        cases hc
  refine ⟨hshort, ?_⟩
  intro heq
  have hle := received_le _ (Sync.inv_after aesInverts aesTagged runKey true longActs hshort)
  rw [heq, List.length_replicate] at hle
  omega

end

end Amcrypt.Stream
