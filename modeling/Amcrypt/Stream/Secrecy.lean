/-
  Amcrypt.Stream.Secrecy — forward secrecy of the ratchet, against an adversary that
  reasons with terms (`Amcrypt.Lib.DolevYao`).

  The term of a session key is the ratchet applied as often as the `Streamer` has moved,
  the step counter as its index (`keyTerm`); the term of a wire chunk is its header and
  nonce, and its plaintext encrypted under the key of its place (`wireTerm`). Each plaintext
  is a fresh secret of its own. `Trail` connects the terms with the code, whatever it seals
  and opens: what the object holds and what it yields are the values of these terms
  (`eval`) in any backend. `forward_secrecy`: from all wire chunks and the state after some
  of the run, exactly the plaintexts of the chunks sealed after it can be derived.
-/

import Amcrypt.Lib.DolevYao
import Amcrypt.Stream.PrefixSafety

namespace Amcrypt.Stream

open Lib Lib.DolevYao

/-! ## Terms and their values -/

/-- What the adversary does not know: the first key, and the plaintext of the chunk at
    each place. -/
inductive Secret where
  | key (key : Key)
  | chunk (place : Nat) (plaintext : Bytes)

abbrev SymTerm := Term Secret Bytes Nat

def asKey (bs : Bytes) : Option Key := if h : bs.length = 32 then some ⟨bs, h⟩ else none

/-- The bytes that a term stands for; `oneWay` is `ratchet_key`, `enc` is AES-GCM. -/
def eval (B : Backend) : SymTerm → Option Bytes
  | .name (.key key) => some key.val
  | .name (.chunk _ plaintext) => some plaintext
  | .data bs => some bs
  | .pair a b => do pure ((← eval B a) ++ (← eval B b))
  | .oneWay k step => do
    let key ← asKey (← eval B k)
    let newKey ← (ratchetKey B key step).toOption
    pure newKey.val
  | .enc k nonce p => do
    let key ← asKey (← eval B k)
    pure (B.gcmEncrypt key nonce (← eval B p) none)

/-- The key after `n` chunks. -/
def keyTerm (key : Key) : Nat → SymTerm
  | 0 => .name (.key key)
  | n + 1 => .oneWay (keyTerm key n) n

/-- The wire chunk `w`, in which `plaintext` was sealed at place `i`. -/
def wireTerm (key : Key) (i : Nat) (plaintext w : Bytes) : SymTerm :=
  .pair (.data (w.take (lenField + nonceLen)))
    (.enc (keyTerm key i) (slice lenField (lenField + nonceLen) w) (.name (.chunk i plaintext)))

variable {B : Backend} {key : Key}

theorem asKey_val (k : Key) : asKey k.val = some k := by
  simp [asKey, k.property]

/-- The key of the object after `n` chunks is the value of its term. -/
theorem eval_keyTerm {n : Nat} {s : Streamer} (h : chain (ratcheted B) ⟨key, true, 0⟩ n = some s) :
    eval B (keyTerm key n) = some s.key.val ∧ s.step = n := by
  have hinv : eval B (keyTerm key n) = some s.key.val ∧ s.ratchet = true ∧ s.step = n := by
    refine chain_induction (P := fun n s => eval B (keyTerm key n) = some s.key.val ∧ s.ratchet = true ∧ s.step = n)
      ⟨rfl, rfl, rfl⟩ ?_ h
    intro n s s' hx hs
    obtain ⟨hkey, hr, rfl⟩ := hx
    unfold ratcheted at hs
    rw [if_pos hr] at hs
    cases hk : ratchetKey B s.key s.step with
    | error e => rw [hk] at hs; cases hs
    | ok newKey =>
      rw [hk] at hs
      obtain rfl := Option.some.inj hs
      refine ⟨?_, hr, rfl⟩
      simp [keyTerm, eval, hkey, asKey_val, hk, Except.toOption]
  exact ⟨hinv.1, hinv.2.2⟩

/-- A chunk sealed at a place is the value of its term. -/
theorem eval_wireTerm {i : Nat} {p w : Bytes} (h : SealedAt B ⟨key, true, 0⟩ i p w) :
    eval B (wireTerm key i p w) = some w := by
  obtain ⟨-, s, n, hs, rfl, -⟩ := h
  obtain ⟨hkey, -⟩ := eval_keyTerm hs
  generalize hct : B.gcmEncrypt s.key n.val p none = ct
  have hlen : (BigEndian.encode lenField (nonceLen + ct.length) ++ n.val).length = lenField + nonceLen := by
    simp [n.property, nonceLen]
  have htake : (wireChunk n ct).take (lenField + nonceLen) =
      BigEndian.encode lenField (nonceLen + ct.length) ++ n.val := by
    rw [wireChunk, ← List.append_assoc, List.take_left' hlen]
  have hslice : slice lenField (lenField + nonceLen) (wireChunk n ct) = n.val :=
    slice_append_right (BigEndian.length_encode _ _) (by rw [n.property]; rfl)
  have hvalue : eval B (wireTerm key i p (wireChunk n ct)) =
      some (BigEndian.encode lenField (nonceLen + ct.length) ++ n.val ++ ct) := by
    simp [wireTerm, eval, htake, hslice, hkey, asKey_val, hct]
  rw [hvalue, wireChunk, List.append_assoc]

/-! ## Where the object is -/

/-- The iteration moved the key on: it sealed a chunk or opened one. -/
def Event.moves : Event → Bool
  | (.chunk _ _, .ok (some _)) => true
  | (.wire _, .ok _) => true
  | _ => false

theorem Event.moves_of_sealed {e : Event} {p w : Bytes} (h : e.sealed = some (p, w)) : e.moves = true := by
  obtain ⟨x, r⟩ := e
  cases x with
  | wire w => cases h
  | chunk c n =>
    cases r with
    | error e => cases h
    | ok y =>
      cases y with
      | none => cases h
      | some w => rfl

/-- The object is as far along the chain of keys as the log says, and every chunk of the
    log was sealed under the key of its place. -/
structure Trail (B : Backend) (start : Streamer) (log : List Event) (s : Streamer) : Prop where
  position : chain (ratcheted B) start (log.countP Event.moves) = some s
  wires : ∀ i e p w, log[i]? = some e → e.sealed = some (p, w) →
    SealedAt B start ((log.take i).countP Event.moves) p w

theorem Trail.nil (start : Streamer) : Trail B start [] start := ⟨rfl, by simp⟩

theorem Trail.snoc {start s s' : Streamer} {log : List Event} (h : Trail B start log s) {e : Event}
    (hmoves : (if e.moves then ratcheted B s else some s) = some s')
    (hsealed : ∀ p w, e.sealed = some (p, w) → SealedAt B start (log.countP Event.moves) p w) :
    Trail B start (log ++ [e]) s' := by
  refine ⟨?_, ?_⟩
  · rw [List.countP_append, List.countP_singleton]
    split at hmoves
    · rename_i hm
      rw [if_pos hm]
      exact chain_succ h.position hmoves
    · rename_i hm
      rw [if_neg hm, Nat.add_zero, h.position, hmoves]
  · intro i e' p w hi he
    rcases getElem?_snoc hi with ⟨hlt, hi⟩ | ⟨rfl, rfl⟩
    · rw [List.take_append_of_le_length (by omega)]
      exact h.wires i e' p w hi he
    · rw [List.take_left]
      exact hsealed p w he

/-- One iteration of either loop. -/
theorem Trail.iteration {start s : Streamer} {log : List Event} (h : Trail B start log s) (x : Item) :
    Trail B start (log ++ [(x, (iteration B x s).result)]) (iteration B x s).self := by
  cases x with
  | chunk c n =>
    have hx := sealChunk_exit (B := B) c n s
    rw [iteration_chunk]
    generalize sealChunk B c n s = out at hx
    cases hx with
    | skipped _ => exact h.snoc rfl (by simp [Event.sealed])
    | refused ct _ _ _ => exact h.snoc rfl (by simp [Event.sealed])
    | sealed ct s' hc hct hfit hr =>
      refine h.snoc hr ?_
      intro p w he
      obtain ⟨rfl, rfl⟩ : c = p ∧ wireChunk n ct = w := by simpa [Event.sealed] using he
      exact ⟨hc, s, n, h.position, by rw [hct], by rw [← hct]; exact hfit⟩
  | wire w =>
    have hx := openChunk_exit (B := B) w s
    rw [iteration_wire]
    generalize openChunk B w s = out at hx
    cases hx with
    | opened nonce ct p s' _ _ hr => exact h.snoc hr (by simp [Event.sealed])
    | _ => exact h.snoc rfl (by simp [Event.sealed])

/-- Any call but `destroy` keeps the trail, and only adds to the log. -/
theorem Trail.act {start : Streamer} {s : Session} (h : Trail B start s.log s.self) {a : Act} (ha : a ≠ .destroy) :
    Trail B start (a.run B s).self.log (a.run B s).self.self ∧ s.log <+: (a.run B s).self.log := by
  cases a with
  | sealing chunks => exact ⟨h, List.prefix_rfl⟩
  | sealingFinal lastChunk nonce => exact ⟨h, List.prefix_rfl⟩
  | opening wires => exact ⟨h, List.prefix_rfl⟩
  | next i =>
    have hx := next_advance (B := B) i s
    rw [Act.run]
    generalize Session.next B i s = out at hx
    cases hx with
    | idle => exact ⟨h, List.prefix_rfl⟩
    | ran x gens _ _ => exact ⟨h.iteration x, List.prefix_append _ _⟩
  | destroy => exact absurd rfl ha

theorem Trail.after {start : Streamer} {acts : List Act} (hlive : .destroy ∉ acts) {s : Session}
    (h : Trail B start s.log s.self) :
    Trail B start (s.after B acts).log (s.after B acts).self ∧ s.log <+: (s.after B acts).log := by
  induction acts generalizing s with
  | nil => exact ⟨h, List.prefix_rfl⟩
  | cons a acts ih =>
    obtain ⟨ha, hlive⟩ := not_or.mp (mt List.mem_cons.mpr hlive)
    obtain ⟨h', hpre⟩ := h.act (Ne.symm ha)
    obtain ⟨h'', hpre'⟩ := ih hlive h'
    exact ⟨h'', hpre.trans hpre'⟩

/-! ## What a compromise gives away -/

/-- How far the key had moved when the iteration at `i` ran. -/
def place (log : List Event) (i : Nat) : Nat := (log.take i).countP Event.moves

/-- What the adversary holds: the key of the object after it has moved `j` times (the step
    counter is public), and every wire chunk that the run yielded. -/
inductive Compromised (key : Key) (j : Nat) (log : List Event) : SymTerm → Prop
  | state : Compromised key j log (keyTerm key j)
  | wire (i : Nat) (e : Event) (p w : Bytes) : log[i]? = some e → e.sealed = some (p, w) →
      Compromised key j log (wireTerm key (place log i) p w)

/-- The key that leaked, and the plaintexts of the places from it on. -/
def leaked (key : Key) (j : Nat) (t : SymTerm) : Prop := t = keyTerm key j ∨ ∃ i p, j ≤ i ∧ t = .name (.chunk i p)

/-- The keys in reach are the one that leaked and those after it. -/
theorem safe_keyTerm {j m : Nat} : Safe (leaked key j) (keyTerm key m) ↔ j ≤ m := by
  induction m with
  | zero =>
    cases j with
    | zero => simp [keyTerm, Safe, leaked]
    | succ j => simp [keyTerm, Safe, leaked]
  | succ m ih =>
    rw [keyTerm, Safe, ih]
    cases j with
    | zero => simp
    | succ j =>
      have hsame : leaked key (j + 1) (.oneWay (keyTerm key m) m) ↔ m = j := by
        refine ⟨?_, ?_⟩
        · intro hx
          rcases hx with h | ⟨i, p, -, h⟩
          · exact (Term.oneWay.inj h).2
          · cases h
        · intro heq
          subst heq
          exact .inl rfl
      rw [hsame]
      omega

theorem keyTerm_ne_chunk (m i : Nat) (p : Bytes) : keyTerm key m ≠ .name (.chunk i p) := by
  cases m <;> simp [keyTerm]

/-- From the key after `j` chunks, the adversary derives every key from there on. -/
theorem derives_keyTerm {j m : Nat} {log : List Event} (h : j ≤ m) :
    Derives (Compromised key j log) (keyTerm key m) := by
  induction m, h using Nat.le_induction with
  | base => exact .known .state
  | succ m _ ih => exact .oneWay m ih

/-- The plaintext sealed at a place is derived exactly if the leaked key is not past it. -/
theorem derives_chunk_iff {j i : Nat} {log : List Event} {e : Event} {p w : Bytes} (hi : log[i]? = some e)
    (he : e.sealed = some (p, w)) :
    Derives (Compromised key j log) (.name (.chunk (place log i) p)) ↔ j ≤ place log i := by
  refine ⟨?_, ?_⟩
  · intro h
    have hknown : ∀ t, Compromised key j log t → Safe (leaked key j) t := by
      intro t ht
      cases ht with
      | state => exact safe_keyTerm.mpr (Nat.le_refl j)
      | wire i' e' p' w' _ _ => exact ⟨trivial, fun hk => .inr ⟨_, p', safe_keyTerm.mp hk, rfl⟩⟩
    rcases h.safe hknown with h | ⟨i', p', hle, h⟩
    · exact absurd h.symm (keyTerm_ne_chunk j _ p)
    · obtain ⟨rfl, -⟩ := Secret.chunk.inj (Term.name.inj h)
      exact hle
  · intro h
    have hwire : Derives (Compromised key j log) (wireTerm key (place log i) p w) := .known (.wire i e p w hi he)
    exact hwire.snd.dec (derives_keyTerm h)

/-- A sealed chunk is at a place past the key of an earlier moment exactly if it was
    sealed after that moment. -/
theorem le_place_iff {earlier log : List Event} (hpre : earlier <+: log) {i : Nat} {e : Event} {p w : Bytes}
    (hi : log[i]? = some e) (he : e.sealed = some (p, w)) :
    earlier.countP Event.moves ≤ place log i ↔ earlier.length ≤ i := by
  obtain ⟨rest, rfl⟩ := hpre
  unfold place
  by_cases h : earlier.length ≤ i
  · rw [List.take_append, List.take_of_length_le h, List.countP_append]
    omega
  · have hlt : i < earlier.length := by omega
    rw [List.getElem?_append_left hlt] at hi
    rw [List.take_append_of_le_length (by omega)]
    obtain ⟨_, hget⟩ := List.getElem?_eq_some_iff.mp hi
    have hmoves := Event.moves_of_sealed he
    have hsplit : earlier = earlier.take i ++ e :: earlier.drop (i + 1) := by
      rw [← hget, ← List.drop_eq_getElem_cons, List.take_append_drop]
    have hcount : earlier.countP Event.moves = (earlier.take i).countP Event.moves +
        ((earlier.drop (i + 1)).countP Event.moves + 1) := by
      rw [← List.countP_cons_of_pos hmoves, ← List.countP_append, ← hsplit]
    omega

/-- A run of a ratcheting object, whatever it seals and opens, in two parts: what the
    adversary knows are the values of its terms, and it derives the plaintext of a chunk
    exactly if that was sealed in the second part. -/
theorem forward_secrecy (key : Key) {earlier later : List Act} (hlive : .destroy ∉ earlier ++ later) {s t : Session}
    (hs : (Session.fresh key true).after B earlier = s) (ht : s.after B later = t) :
    (eval B (keyTerm key (s.log.countP Event.moves)) = some s.self.key.val ∧
      s.self.step = s.log.countP Event.moves) ∧
    ∀ i e p w, t.log[i]? = some e → e.sealed = some (p, w) →
      eval B (wireTerm key (place t.log i) p w) = some w ∧
      (Derives (Compromised key (s.log.countP Event.moves) t.log) (.name (.chunk (place t.log i) p)) ↔
        s.log.length ≤ i) := by
  obtain ⟨hearlier, hlater⟩ := not_or.mp (mt List.mem_append.mpr hlive)
  have hfresh : Trail B ⟨key, true, 0⟩ (Session.fresh key true).log (Session.fresh key true).self := Trail.nil _
  obtain ⟨htrail, -⟩ := hfresh.after hearlier
  rw [hs] at htrail
  obtain ⟨htrail', hpre⟩ := htrail.after hlater
  rw [ht] at htrail' hpre
  refine ⟨eval_keyTerm htrail.position, ?_⟩
  intro i e p w hi he
  refine ⟨eval_wireTerm (htrail'.wires i e p w hi he), ?_⟩
  rw [derives_chunk_iff hi he, le_place_iff hpre hi he]

/-! ## A run -/

section
open Reference

def firstEvent : Event := (.chunk [1] runNonce, .ok (some firstWire))
def secondEvent : Event := (.chunk [2] runNonce, .ok (some secondWire))

/-- The key after the first of two chunks: the first is out of reach, the second is not. -/
theorem forward_secrecy_run :
    ((Session.fresh runKey true).after reference
      [.sealing [([1], runNonce), ([2], runNonce)], .next 0, .next 0]).log = [firstEvent, secondEvent] ∧
    ¬ Derives (Compromised runKey 1 [firstEvent, secondEvent]) (.name (.chunk 0 [1])) ∧
    Derives (Compromised runKey 1 [firstEvent, secondEvent]) (.name (.chunk 1 [2])) := by
  let earlier : List Act := [.sealing [([1], runNonce), ([2], runNonce)], .next 0]
  have hlog : ((Session.fresh runKey true).after reference earlier).log = [firstEvent] := by decide +kernel
  have hlog' : (((Session.fresh runKey true).after reference earlier).after reference [.next 0]).log =
      [firstEvent, secondEvent] := by
    decide +kernel
  have hlive : Act.destroy ∉ earlier ++ [.next 0] := by simp [earlier]
  obtain ⟨-, h⟩ := forward_secrecy (B := reference) runKey hlive rfl rfl
  rw [hlog, hlog'] at h
  refine ⟨hlog', ?_, ?_⟩
  · intro hderives
    have hlate := (h 0 firstEvent [1] firstWire rfl rfl).2.mp hderives
    simp at hlate
  · exact (h 1 secondEvent [2] secondWire rfl rfl).2.mpr (by simp)

end

end Amcrypt.Stream
