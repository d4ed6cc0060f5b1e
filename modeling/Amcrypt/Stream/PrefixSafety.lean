/-
  Amcrypt.Stream.PrefixSafety — a stream under an adversary who owns the network.

  A sender seals; a receiver opens whatever byte strings it is given, through any number
  of generators. `Aligned` is the invariant: each side is as far along the chain of keys
  as it has chunks to show for it, what was yielded is a prefix of what was sealed, and
  every encryption is accounted for by its position on the chain. A chunk opens only
  under the key it was sealed with (ideal AES-GCM) and no key repeats, so the next one to
  open is the next one sealed (`Aligned.opened`). Two encryptions are in no wire chunk
  (too long for the length field, or the ratchet at its end); the first does not fit what
  `open` cuts out, the second is at a position where the receiver cannot go on either.
-/

import Amcrypt.Stream.Sending
import Amcrypt.Reference

namespace Amcrypt.Stream

open Lib

variable (B : Backend)

/-- A sender, a receiver, and the calls that both made. -/
structure Link where
  sender : Session
  receiver : Session
  calls : List Call

def Link.fresh (key : Key) : Link := ⟨.fresh key true, .fresh key true, []⟩

inductive LinkAct where
  | sealing (chunks : List (Bytes × Nonce))
  | sealingFinal (lastChunk : Bytes) (nonce : Nonce)
  | sealNext (i : Nat)
  | opening (wires : List Bytes)
  | openNext (i : Nat)

def Link.sends (l : Link) (a : Act) : Link :=
  { l with sender := (a.run B l.sender).self, calls := l.calls ++ (a.run B l.sender).calls }

def Link.receives (l : Link) (a : Act) : Link :=
  { l with receiver := (a.run B l.receiver).self, calls := l.calls ++ (a.run B l.receiver).calls }

def Link.step (l : Link) : LinkAct → Link
  | .sealing chunks => l.sends B (.sealing chunks)
  | .sealingFinal lastChunk nonce => l.sends B (.sealingFinal lastChunk nonce)
  | .sealNext i => l.sends B (.next i)
  | .opening wires => l.receives B (.opening wires)
  | .openNext i => l.receives B (.next i)

def Link.after (l : Link) (acts : List LinkAct) : Link := acts.foldl (Link.step B) l

/-- The chunks sealed so far, each with its wire chunk. -/
def Link.sealed (l : Link) : List (Bytes × Bytes) := l.sender.log.filterMap Event.sealed

/-- The plaintexts yielded so far. -/
def Link.yielded (l : Link) : List Bytes := l.receiver.log.filterMap Event.yielded

/-! ## Both sides on one chain -/

/-- The encryption is a chunk that went out, or one that did not because it was too long
    or the ratchet could not go on. -/
def Accounted (start : Streamer) (sealed : List (Bytes × Bytes)) (k : Key) (p ct : Bytes) : Prop :=
  ∃ i s, chain (ratcheted B) start i = some s ∧ s.key = k ∧
    ((∃ w, sealed[i]? = some (p, w)) ∨ 256 ^ lenField ≤ nonceLen + ct.length ∨ ratcheted B s = none)

structure Aligned (start : Streamer) (sealed : List (Bytes × Bytes)) (yielded : List Bytes)
    (sender receiver : Streamer) (calls : List Call) : Prop where
  sending : Sending B start sealed sender
  receiver : chain (ratcheted B) start yielded.length = some receiver
  agree : yielded <+: sealed.map Prod.fst
  keyed : ∀ k n a p ct, Call.encrypt k n a p ct ∈ calls → Accounted B start sealed k p ct

variable {B} {start sender receiver : Streamer} {sealed : List (Bytes × Bytes)} {yielded : List Bytes}
  {calls : List Call}

theorem Accounted.mono {k : Key} {p ct : Bytes} (h : Accounted B start sealed k p ct) (more : List (Bytes × Bytes)) :
    Accounted B start (sealed ++ more) k p ct := by
  obtain ⟨i, s, hs, hk, hw | hrest⟩ := h
  · obtain ⟨w, hw⟩ := hw
    obtain ⟨hi, -⟩ := List.getElem?_eq_some_iff.mp hw
    exact ⟨i, s, hs, hk, .inl ⟨w, by rw [List.getElem?_append_left hi, hw]⟩⟩
  · exact ⟨i, s, hs, hk, .inr hrest⟩

/-- An iteration of `seal` keeps both sides aligned. -/
theorem Aligned.seal (h : Aligned B start sealed yielded sender receiver calls) (c : Bytes) (n : Nonce) :
    Aligned B start (sealed ++ (Event.sealed (.chunk c n, (sealChunk B c n sender).result)).toList) yielded
      (sealChunk B c n sender).self receiver (calls ++ (sealChunk B c n sender).calls) := by
  have hsending := h.sending.seal c n
  have hx := sealChunk_exit (B := B) c n sender
  generalize sealChunk B c n sender = out at hx hsending
  cases hx with
  | skipped _ => simpa [Event.sealed] using h
  | refused ct _ _ hwhy =>
    simp only [Event.sealed, Option.toList_none, List.append_nil] at hsending ⊢
    refine ⟨hsending, h.receiver, h.agree, ?_⟩
    intro k n' a p ct' hmem
    rcases List.mem_append.mp hmem with hmem | hmem
    · exact h.keyed k n' a p ct' hmem
    · simp only [List.mem_singleton, Call.encrypt.injEq] at hmem
      obtain ⟨rfl, -, -, rfl, rfl⟩ := hmem
      exact ⟨sealed.length, sender, h.sending.position, rfl, .inr hwhy⟩
  | sealed ct s' hc hct hfit hr =>
    simp only [Event.sealed, Option.toList_some] at hsending ⊢
    refine ⟨hsending, h.receiver, ?_, ?_⟩
    · rw [List.map_append]
      exact h.agree.trans (List.prefix_append _ _)
    · intro k n' a p ct' hmem
      rcases List.mem_append.mp hmem with hmem | hmem
      · exact (h.keyed k n' a p ct' hmem).mono _
      · simp only [List.mem_singleton, Call.encrypt.injEq] at hmem
        obtain ⟨rfl, -, -, rfl, rfl⟩ := hmem
        exact ⟨sealed.length, sender, h.sending.position, rfl, .inl ⟨_, List.getElem?_concat_length⟩⟩

/-- What opens at the receiver's position is what was sealed there. -/
theorem Aligned.opened (h : Aligned B start sealed yielded sender receiver calls)
    (hchain : NoRepeat (ratcheted B) start Streamer.key) {wire nonce ct p : Bytes} {s' : Streamer}
    (hf : readChunk wire = .ok (nonce, ct)) (hr : ratcheted B receiver = some s') {later : List Call}
    (hideal : Ideal (calls ++ .decrypt receiver.key nonce ct none (.ok p) :: later)) :
    ∃ w, sealed[yielded.length]? = some (p, w) := by
  obtain ⟨n, -, a, -, hmem⟩ := Ideal.sealed hideal
  obtain ⟨i, s, hs, hk, hw⟩ := h.keyed _ _ _ _ _ hmem
  obtain rfl := hchain i yielded.length s receiver hs h.receiver hk
  obtain rfl := Option.some.inj (hs.symm.trans h.receiver)
  rcases hw with hw | hlong | hend
  · exact hw
  · have := readChunk_fits hf
    omega
  · rw [hr] at hend; cases hend

/-- An iteration of `open` keeps both sides aligned, whatever it was given. -/
theorem Aligned.open (h : Aligned B start sealed yielded sender receiver calls)
    (hchain : NoRepeat (ratcheted B) start Streamer.key) (wire : Bytes)
    (hideal : Ideal (calls ++ (iteration B (.wire wire) receiver).calls)) :
    Aligned B start sealed
      (yielded ++ (Event.yielded (.wire wire, (iteration B (.wire wire) receiver).result)).toList)
      sender (iteration B (.wire wire) receiver).self (calls ++ (iteration B (.wire wire) receiver).calls) := by
  have keep : ∀ k n c a r, ∀ k' n' a' p' ct',
      Call.encrypt k' n' a' p' ct' ∈ calls ++ [Call.decrypt k n c a r] → Accounted B start sealed k' p' ct' := by
    intro k n c a r k' n' a' p' ct' hmem
    exact h.keyed k' n' a' p' ct' (by simpa using hmem)
  have hx := openChunk_exit (B := B) wire receiver
  rw [iteration_wire] at hideal ⊢
  generalize openChunk B wire receiver = out at hx hideal
  cases hx with
  | malformed e _ => simpa [Event.yielded, Except.map] using h
  | rejected nonce ct e _ _ =>
    simp only [Except.map, Event.yielded, Option.toList_none, List.append_nil]
    exact ⟨h.sending, h.receiver, h.agree, keep _ _ _ _ _⟩
  | stuck nonce ct p _ _ _ =>
    simp only [Except.map, Event.yielded, Option.toList_none, List.append_nil]
    exact ⟨h.sending, h.receiver, h.agree, keep _ _ _ _ _⟩
  | opened nonce ct p s' hf hg hr =>
    obtain ⟨w, hw⟩ := h.opened hchain hf hr hideal
    simp only [Except.map, Event.yielded, Option.toList_some]
    refine ⟨h.sending, ?_, ?_, keep _ _ _ _ _⟩
    · rw [List.length_append, List.length_singleton]
      exact chain_succ h.receiver hr
    · have hnext : (sealed.map Prod.fst)[yielded.length]? = some p := by rw [List.getElem?_map, hw]; rfl
      obtain ⟨hlt, hget⟩ := List.getElem?_eq_some_iff.mp hnext
      rw [List.prefix_iff_eq_take.mp h.agree, ← hget, List.take_append_getElem hlt]
      exact List.take_prefix _ _

/-! ## Every schedule -/

/-- Items of a `seal` generator, and of an `open` generator. -/
def Item.IsChunk : Item → Prop
  | .chunk .. => True
  | .wire _ => False

def Item.IsWire : Item → Prop
  | .chunk .. => False
  | .wire _ => True

theorem isChunk_seal (chunks : List (Bytes × Nonce)) : ∀ x ∈ Streamer.seal chunks, x.IsChunk := by
  intro x hx
  obtain ⟨c, -, rfl⟩ := List.mem_map.mp hx
  trivial

theorem isWire_open (wires : List Bytes) : ∀ x ∈ Streamer.open wires, x.IsWire := by
  intro x hx
  obtain ⟨w, -, rfl⟩ := List.mem_map.mp hx
  trivial

structure Link.Inv (B : Backend) (key : Key) (l : Link) : Prop where
  aligned : Aligned B ⟨key, true, 0⟩ l.sealed l.yielded l.sender.self l.receiver.self l.calls
  seals : l.sender.Only Item.IsChunk
  opens : l.receiver.Only Item.IsWire

theorem Link.inv_step {key : Key} {l : Link} (h : l.Inv B key)
    (hchain : NoRepeat (ratcheted B) ⟨key, true, 0⟩ Streamer.key) (a : LinkAct)
    (hideal : Ideal (l.step B a).calls) : (l.step B a).Inv B key := by
  cases a with
  | sealing chunks =>
    refine ⟨?_, h.seals.start (isChunk_seal chunks), h.opens⟩
    simpa [Link.step, Link.sends, Link.sealed, Link.yielded, Act.run] using h.aligned
  | sealingFinal lastChunk nonce =>
    refine ⟨?_, h.seals.start (isChunk_seal _), h.opens⟩
    simpa [Link.step, Link.sends, Link.sealed, Link.yielded, Act.run] using h.aligned
  | opening wires =>
    refine ⟨?_, h.seals, h.opens.start (isWire_open wires)⟩
    simpa [Link.step, Link.receives, Link.sealed, Link.yielded, Act.run] using h.aligned
  | sealNext i =>
    have hadv := next_advance (B := B) i l.sender
    simp only [Link.step, Link.sends, Act.run] at hideal ⊢
    generalize Session.next B i l.sender = out at hadv
    cases hadv with
    | idle => exact ⟨by simpa [Link.sealed, Link.yielded] using h.aligned, h.seals, h.opens⟩
    | ran x gens hx hgens =>
      refine ⟨?_, fun y hy => h.seals y (hgens hy), h.opens⟩
      cases x with
      | wire w => exact absurd (h.seals _ hx) id
      | chunk c n =>
        have := h.aligned.seal c n
        simpa only [Link.sealed, Link.yielded, filterMap_snoc, iteration_chunk] using this
  | openNext i =>
    have hadv := next_advance (B := B) i l.receiver
    simp only [Link.step, Link.receives, Act.run] at hideal ⊢
    generalize Session.next B i l.receiver = out at hadv hideal
    cases hadv with
    | idle => exact ⟨by simpa [Link.sealed, Link.yielded] using h.aligned, h.seals, h.opens⟩
    | ran x gens hx hgens =>
      refine ⟨?_, h.seals, fun y hy => h.opens y (hgens hy)⟩
      cases x with
      | chunk c n => exact absurd (h.opens _ hx) id
      | wire w =>
        have := h.aligned.open hchain w hideal
        simpa only [Link.sealed, Link.yielded, filterMap_snoc] using this

theorem Link.after_append (l : Link) (acts acts' : List LinkAct) :
    l.after B (acts ++ acts') = (l.after B acts).after B acts' := by
  simp [Link.after]

theorem Link.step_calls (l : Link) (a : LinkAct) : ∃ cs, (l.step B a).calls = l.calls ++ cs := by
  cases a <;> exact ⟨_, rfl⟩

theorem Link.inv_after {key : Key} (hchain : NoRepeat (ratcheted B) ⟨key, true, 0⟩ Streamer.key)
    (acts : List LinkAct) (hideal : Ideal ((Link.fresh key).after B acts).calls) :
    ((Link.fresh key).after B acts).Inv B key := by
  induction acts using List.reverseRecOn with
  | nil =>
    have haligned : Aligned B ⟨key, true, 0⟩ [] [] ⟨key, true, 0⟩ ⟨key, true, 0⟩ [] :=
      ⟨Sending.nil _, rfl, List.nil_prefix, by simp⟩
    exact ⟨haligned, Session.Only.fresh key true, Session.Only.fresh key true⟩
  | append_singleton acts a ih =>
    rw [Link.after_append] at hideal ⊢
    obtain ⟨cs, hcs⟩ := Link.step_calls (B := B) ((Link.fresh key).after B acts) a
    have hpast : Ideal ((Link.fresh key).after B acts).calls := by
      have : Ideal (((Link.fresh key).after B acts).calls ++ cs) := hcs ▸ hideal
      exact this.of_append
    exact Link.inv_step (ih hpast) hchain a hideal

/-- At every moment: what was yielded is a prefix of what was sealed; a rejected chunk
    changes nothing; and the genuine next chunk opens. -/
theorem prefix_safety (haes : B.AesInverts) (htag : B.AesTagged) (key : Key)
    (hchain : NoRepeat (ratcheted B) ⟨key, true, 0⟩ Streamer.key) (acts : List LinkAct)
    (hideal : Ideal ((Link.fresh key).after B acts).calls) :
    let l := (Link.fresh key).after B acts
    l.yielded <+: l.sealed.map Prod.fst ∧ (∀ x ∈ l.sealed, x.1 ≠ []) ∧
      (∀ w e, (openChunk B w l.receiver.self).result = .error e →
        (openChunk B w l.receiver.self).self = l.receiver.self) ∧
      ∀ p w, l.sealed[l.yielded.length]? = some (p, w) → (openChunk B w l.receiver.self).result = .ok p := by
  intro l
  have h := (Link.inv_after hchain acts hideal).aligned
  refine ⟨h.agree, ?_, fun w e => openChunk_error_self, ?_⟩
  · intro hy hx
    obtain ⟨p, w⟩ := hy
    obtain ⟨i, hi⟩ := List.getElem?_of_mem hx
    exact (h.sending.wires i p w hi).1
  · intro p w hw
    obtain ⟨s', cs, -, hopen⟩ := h.sending.opens haes htag hw h.receiver
    rw [hopen]

/-! ## A run -/

section
open Reference

/-- The key after `step + 1` chunks is made of `step`. -/
structure Ratcheted (n : Nat) (s : Streamer) : Prop where
  ratchet : s.ratchet = true
  step : s.step = n
  first : n = 0 → s.key = runKey
  later : ∀ m, n = m + 1 → m < 256 ^ 8 ∧ s.key.val = BigEndian.encode 8 m ++ List.replicate 24 0x5a

theorem ratcheted_chain {n : Nat} {s : Streamer} (h : chain (ratcheted reference) ⟨runKey, true, 0⟩ n = some s) :
    Ratcheted n s := by
  refine chain_induction ⟨rfl, rfl, fun _ => rfl, by omega⟩ ?_ h
  intro n s s' hs hr
  simp only [ratcheted, hs.ratchet, if_true, ratchetKey, packUInt, hs.step] at hr
  split at hr
  · rename_i newKey hk
    split at hk
    · rename_i hlt
      obtain rfl := Option.some.inj hr
      refine ⟨rfl, rfl, by omega, ?_⟩
      intro m hm
      obtain rfl : n = m := by omega
      rw [← Except.ok.inj hk]
      exact ⟨hlt, hkdf_ratchet s.key.val s.key.val n⟩
    · cases hk
  · cases hr

theorem reference_noRepeat : NoRepeat (ratcheted reference) ⟨runKey, true, 0⟩ Streamer.key := by
  intro i j s s' hi hj hkey
  have h := ratcheted_chain hi
  have h' := ratcheted_chain hj
  have hfirst : ∀ m, runKey.val ≠ BigEndian.encode 8 m ++ List.replicate 24 0x5a := by
    intro m heq
    have := congrArg (fun l => l[8]?) heq
    simp [runKey] at this
  cases i with
  | zero => cases j with
    | zero => rfl
    | succ m => exact absurd ((h.first rfl ▸ hkey ▸ (h'.later m rfl).2 : runKey.val = _)) (hfirst m)
  | succ i => cases j with
    | zero => exact absurd ((h'.first rfl ▸ hkey ▸ (h.later i rfl).2 : runKey.val = _)) (hfirst i)
    | succ j =>
      obtain ⟨hi, hki⟩ := h.later i rfl
      obtain ⟨hj, hkj⟩ := h'.later j rfl
      rw [hkey, hkj] at hki
      rw [BigEndian.encode_injective hi hj (List.append_cancel_right hki).symm]

/-- The key after one chunk. -/
def nextKey : Key := hkdf [] (ratchetInfo ++ BigEndian.encode 8 0) []

def firstWire : Bytes := wireChunk runNonce (gcmEncrypt runKey runNonce.val [1] none)
def secondWire : Bytes := wireChunk runNonce (gcmEncrypt nextKey runNonce.val [2] none)

/-- Two chunks sealed; the receiver gets a forgery, then the first. -/
def runActs : List LinkAct :=
  [.sealing [([1], runNonce), ([], runNonce), ([2], runNonce)], .sealNext 0, .sealNext 0, .sealNext 0,
    .opening [List.replicate 40 0], .openNext 0, .opening [firstWire], .openNext 1]

theorem run_ideal : Ideal ((Link.fresh runKey).after reference runActs).calls := by
  have hcalls : ((Link.fresh runKey).after reference runActs).calls = [
      .encrypt runKey runNonce none [1] (gcmEncrypt runKey runNonce.val [1] none),
      .encrypt nextKey runNonce none [2] (gcmEncrypt nextKey runNonce.val [2] none),
      .decrypt runKey (List.replicate 12 0) [] none (.error .invalidTag),
      .decrypt runKey runNonce.val (gcmEncrypt runKey runNonce.val [1] none) none (.ok [1])] := by
    decide +kernel
  rw [hcalls]
  exact (((Ideal.nil.snoc fun _ => id).snoc fun _ => id).snoc fun _ => id).snoc_open (by simp) rfl

theorem prefix_safety_run :
    let l := (Link.fresh runKey).after reference runActs
    l.yielded = [[1]] ∧ l.sealed.map Prod.fst = [[1], [2]] ∧
      ∀ p w, l.sealed[l.yielded.length]? = some (p, w) → (openChunk reference w l.receiver.self).result = .ok p := by
  refine ⟨by decide +kernel, by decide +kernel, ?_⟩
  exact (prefix_safety aesInverts aesTagged runKey reference_noRepeat runActs run_ideal).2.2.2

end

end Amcrypt.Stream
