/-
  Amcrypt.Stream.Framing — `open` over the bytes of a stream, however they are cut.

  The wire chunks of a stream follow each other without a mark, and whoever receives them
  from a socket receives pieces of their concatenation. `open` takes each piece for one
  chunk: it reads as far as the length field says and drops what follows. So it completes
  over pieces exactly if each begins with a sealed chunk that opens there (`Heads`), and
  yields the plaintexts of these (`open_heads`, `heads_of_open`); the rest of the piece is
  gone. `lossless_framing` says over which pieces nothing is lost: with the ratchet on,
  over the chunks themselves, and where some piece does not begin with its chunk, as
  `open` then raises.
-/

import Amcrypt.Stream.Reorder

namespace Amcrypt.Stream

open Lib

variable {B : Backend}

/-- What `seal` seals of what it is given. -/
def plaintexts (chunks : List (Bytes × Nonce)) : List Bytes := (chunks.map Prod.fst).filter (· ≠ [])

/-- The pieces from position `k` on each begin with a sealed chunk, and these have the
    plaintexts `qs`; with the ratchet on, each with the chunk at its own place. -/
inductive Heads (ratchet : Bool) (ps ws : List Bytes) : Nat → List Bytes → List Bytes → Prop
  | nil (k : Nat) : Heads ratchet ps ws k [] []
  | cons {k i : Nat} {q w rest : Bytes} {v qs : List Bytes} : ps[i]? = some q → ws[i]? = some w →
      (ratchet = true → i = k) → Heads ratchet ps ws (k + 1) v qs →
      Heads ratchet ps ws k ((w ++ rest) :: v) (q :: qs)

/-- `open` over the pieces raises `MutilatedCorpseError`, or yields the whole plaintext. -/
def Lossless (B : Backend) (s : Streamer) (v : List Bytes) (whole : Bytes) : Prop :=
  (∃ e, (drain B (Streamer.open v) s).result = .error e ∧ e.isA .mutilatedCorpse = true) ∨
    ∃ qs, (drain B (Streamer.open v) s).result = .ok qs ∧ qs.flatten = whole

/-! ## Empty chunks -/

/-- An empty chunk changes nothing. -/
theorem seal_skips (chunks : List (Bytes × Nonce)) (s : Streamer) :
    drain B (Streamer.seal chunks) s = drain B (Streamer.seal (chunks.filter (·.1 ≠ []))) s := by
  induction chunks generalizing s with
  | nil => rfl
  | cons c chunks ih =>
    obtain ⟨c, n⟩ := c
    by_cases hc : c = []
    · subst hc
      have hit : iteration B (.chunk [] n) s = ⟨.ok none, s, []⟩ := rfl
      exact (drain_skip hit).trans (ih s)
    · rw [List.filter_cons_of_pos (by simpa using hc)]
      show drain B (.chunk c n :: Streamer.seal chunks) s = drain B (.chunk c n :: Streamer.seal _) s
      cases hit : iteration B (.chunk c n) s with
      | mk r s' cs =>
        cases r with
        | error e => rw [drain_error hit, drain_error hit]
        | ok y => rw [drain_ok hit, drain_ok hit, ih]

/-! ## What `open` makes of pieces -/

section
variable {start : Streamer} {chunks : List (Bytes × Nonce)} {ws : List Bytes} {calls : List Call}

/-- Whatever stands at position `k` opens the chunk that was sealed at `i`, if these are
    the same or the ratchet is off. -/
theorem SealRun.opens (h : SealRun B start chunks ws calls) (haes : B.AesInverts) (htag : B.AesTagged) {k i : Nat}
    {s : Streamer} (hs : chain (ratcheted B) start k = some s) {q w : Bytes} (hq : (chunks.map Prod.fst)[i]? = some q)
    (hw : ws[i]? = some w) (hplace : start.ratchet = true → i = k) (rest : Bytes) :
    ∃ s' cs, ratcheted B s = some s' ∧ openChunk B (w ++ rest) s = ⟨.ok q, s', cs⟩ := by
  obtain ⟨n, hi⟩ : ∃ n, chunks[i]? = some (q, n) := by simpa using hq
  obtain ⟨t, s', ht, hr, hwire, hfit⟩ := h.sealed hi
  obtain rfl := chain_same ht hs hplace
  obtain rfl := Option.some.inj (hwire.symm.trans hw)
  exact ⟨s', _, hr, openChunk_opened (readChunk_append n (by rw [htag]; omega) hfit rest) (haes t.key n q none) hr⟩

/-- Over pieces that begin with sealed chunks, `open` yields their plaintexts. -/
theorem open_heads (h : SealRun B start chunks ws calls) (haes : B.AesInverts) (htag : B.AesTagged) {k : Nat}
    {v qs : List Bytes} (hheads : Heads start.ratchet (chunks.map Prod.fst) ws k v qs) {s : Streamer}
    (hs : chain (ratcheted B) start k = some s) : (drain B (Streamer.open v) s).result = .ok qs := by
  induction hheads generalizing s with
  | nil k => rfl
  | cons hq hw hplace _ ih =>
    obtain ⟨s', cs, hr, hopen⟩ := h.opens haes htag hs hq hw hplace _
    rw [open_cons hopen, ih (chain_succ hs hr)]
    rfl

/-- `open` completes over such pieces only. -/
theorem heads_of_open (h : SealRun B start chunks ws calls) (htag : B.AesTagged)
    (hchain : start.ratchet = true → NoRepeat (ratcheted B) start Streamer.key) {v : List Bytes} {k : Nat}
    {s : Streamer} (hs : chain (ratcheted B) start k = some s)
    (hideal : ∀ key n a p ct, Call.decrypt key n ct a (.ok p) ∈ (drain B (Streamer.open v) s).calls →
      ∃ (n' : Nonce) (a' : Option Bytes), n'.val = n ∧ .encrypt key n' a' p ct ∈ calls)
    {qs : List Bytes} (hqs : (drain B (Streamer.open v) s).result = .ok qs) :
    Heads start.ratchet (chunks.map Prod.fst) ws k v qs := by
  induction v generalizing k s qs with
  | nil =>
    obtain rfl : [] = qs := Except.ok.inj hqs
    exact .nil k
  | cons piece v ih =>
    have hx := open_run (B := B) piece v s
    generalize drain B (Streamer.open (piece :: v)) s = out at hx hqs hideal
    cases hx with
    | malformed e _ => cases hqs
    | rejected nonce ct e _ _ => cases hqs
    | stuck nonce ct p _ _ _ => cases hqs
    | opened nonce ct p s' hf hg hr =>
      dsimp only at hqs hideal
      obtain ⟨n, a, rfl, hmem⟩ := hideal s.key nonce none p ct (by simp)
      obtain ⟨i, _, hp, hwire, hplace, -, hct⟩ := h.origin htag hchain hs hmem
      obtain ⟨rest, hrest⟩ := readChunk_prefix hf hct
      cases hlater : (drain B (Streamer.open v) s').result with
      | error e => rw [hlater] at hqs; cases hqs
      | ok qs' =>
        rw [hlater] at hqs
        obtain rfl : p :: qs' = qs := Except.ok.inj hqs
        rw [← hrest]
        refine .cons hp hwire hplace (ih (chain_succ hs hr) ?_ hlater)
        intro key n' a' p' ct' hmem'
        exact hideal key n' a' p' ct' (List.mem_cons_of_mem _ hmem')

end

/-! ## With the ratchet on -/

/-- Each piece begins with the chunk at its place. -/
def Begins (ws v : List Bytes) : Prop := List.Forall₂ (· <+: ·) (ws.take v.length) v

theorem heads_ratchet {ps ws : List Bytes} (hlen : ps.length = ws.length) {k : Nat} {v qs : List Bytes} :
    Heads true ps ws k v qs ↔
      qs = (ps.drop k).take v.length ∧ List.Forall₂ (· <+: ·) ((ws.drop k).take v.length) v := by
  refine ⟨?_, ?_⟩
  · intro h
    induction h with
    | nil k => exact ⟨by simp, by simp⟩
    | @cons k i q w rest v qs hq hw hplace _ ih =>
      obtain rfl := hplace rfl
      obtain ⟨hqs, hv⟩ := ih
      obtain ⟨hi, rfl⟩ := List.getElem?_eq_some_iff.mp hq
      obtain ⟨hi', rfl⟩ := List.getElem?_eq_some_iff.mp hw
      rw [List.drop_eq_getElem_cons hi, List.drop_eq_getElem_cons hi', List.length_cons, List.take_succ_cons,
        List.take_succ_cons, hqs]
      exact ⟨rfl, .cons (List.prefix_append _ _) hv⟩
  · intro hx
    obtain ⟨rfl, hv⟩ := hx
    induction v generalizing k with
    | nil => exact .nil k
    | cons piece v ih =>
      by_cases hk : k < ws.length
      · have hk' : k < ps.length := by omega
        rw [List.drop_eq_getElem_cons hk, List.length_cons, List.take_succ_cons] at hv
        rw [List.drop_eq_getElem_cons hk', List.length_cons, List.take_succ_cons]
        obtain ⟨⟨rest, hrest⟩, hv⟩ := List.forall₂_cons.mp hv
        rw [← hrest]
        exact .cons (List.getElem?_eq_getElem hk') (List.getElem?_eq_getElem hk) (fun _ => rfl) (ih hv)
      · rw [List.drop_eq_nil_of_le (by omega), List.take_nil] at hv
        cases hv

/-- Pieces that begin with all the chunks in turn, and hold nothing else, are the chunks. -/
theorem eq_of_begins {ws v : List Bytes} (h : List.Forall₂ (· <+: ·) ws v) (hcut : v.flatten = ws.flatten) :
    v = ws := by
  have hlonger : ∀ {ws v : List Bytes}, List.Forall₂ (· <+: ·) ws v → ws.flatten.length ≤ v.flatten.length := by
    intro ws v h
    induction h with
    | nil => exact Nat.le_refl _
    | cons hw _ ih =>
      have := hw.length_le
      simp only [List.flatten_cons, List.length_append]
      omega
  induction h with
  | nil => rfl
  | @cons w piece ws v hw hv ih =>
    obtain ⟨rest, rfl⟩ := hw
    have hle := hlonger hv
    rw [List.flatten_cons, List.flatten_cons, List.append_assoc] at hcut
    have hcut := List.append_cancel_left hcut
    have hlen := congrArg List.length hcut
    rw [List.length_append] at hlen
    obtain rfl : rest = [] := List.eq_nil_of_length_eq_zero (by omega)
    rw [List.append_nil, ih hcut]

/-- A beginning of the plaintexts that is all of the plaintext is all of them. -/
theorem length_le_of_flatten {ps : List Bytes} (hne : ∀ p ∈ ps, p ≠ []) {m : Nat}
    (h : (ps.take m).flatten = ps.flatten) : ps.length ≤ m := by
  by_contra hlt
  have hm : m < ps.length := by omega
  have hsplit : ps.flatten = (ps.take m).flatten ++ (ps.drop m).flatten := by
    rw [← List.flatten_append, List.take_append_drop]
  have hnil : (ps.drop m).flatten = [] := by
    rw [h] at hsplit
    exact List.self_eq_append_right.mp hsplit
  rw [List.drop_eq_getElem_cons hm, List.flatten_cons] at hnil
  exact hne _ (List.getElem_mem hm) (List.append_eq_nil_iff.mp hnil).1

/-! ## Lossless framing -/

theorem plaintexts_filter (chunks : List (Bytes × Nonce)) :
    (chunks.filter (·.1 ≠ [])).map Prod.fst = plaintexts chunks := by
  rw [plaintexts, List.filter_map]
  rfl

theorem plaintexts_flatten (chunks : List (Bytes × Nonce)) :
    (plaintexts chunks).flatten = (chunks.map Prod.fst).flatten := by
  induction chunks with
  | nil => rfl
  | cons c chunks ih =>
    rw [plaintexts] at ih ⊢
    by_cases hc : c.1 = []
    · rw [List.map_cons, List.filter_cons_of_neg (by simpa using hc), ih, List.flatten_cons, hc, List.nil_append]
    · rw [List.map_cons, List.filter_cons_of_pos (by simpa using hc), List.flatten_cons, ih, List.flatten_cons]

/-- `open` loses nothing of the pieces `v` of the stream exactly if those sealed chunks that
    the pieces begin with, where each does, make up the plaintext; with the ratchet on,
    exactly if the pieces are the chunks, or some piece does not begin with its chunk. -/
theorem lossless_framing (haes : B.AesInverts) (htag : B.AesTagged) (hverdict : B.AesVerdict) {key : Key}
    {ratchet : Bool} (hchain : ratchet = true → NoRepeat (ratcheted B) ⟨key, ratchet, 0⟩ Streamer.key)
    {chunks : List (Bytes × Nonce)} {ws v : List Bytes}
    (hseal : (drain B (Streamer.seal chunks) ⟨key, ratchet, 0⟩).result = .ok ws) (hcut : v.flatten = ws.flatten)
    (hideal : Ideal ((drain B (Streamer.seal chunks) ⟨key, ratchet, 0⟩).calls ++
      (drain B (Streamer.open v) ⟨key, ratchet, 0⟩).calls)) :
    (Lossless B ⟨key, ratchet, 0⟩ v (chunks.map Prod.fst).flatten ↔
        ∀ qs, Heads ratchet (plaintexts chunks) ws 0 v qs → qs.flatten = (chunks.map Prod.fst).flatten) ∧
      (ratchet = true →
        (Lossless B ⟨key, ratchet, 0⟩ v (chunks.map Prod.fst).flatten ↔ v = ws ∨ ¬ Begins ws v)) := by
  rw [seal_skips] at hseal hideal
  have h := sealRun_of_drain (by simp) hseal
  have hpos : chain (ratcheted B) ⟨key, ratchet, 0⟩ 0 = some ⟨key, ratchet, 0⟩ := rfl
  have hexact : Lossless B ⟨key, ratchet, 0⟩ v (chunks.map Prod.fst).flatten ↔
      ∀ qs, Heads ratchet (plaintexts chunks) ws 0 v qs → qs.flatten = (chunks.map Prod.fst).flatten := by
    rw [← plaintexts_filter]
    refine ⟨?_, ?_⟩
    · intro hlossless qs hheads
      have hqs := open_heads h haes htag hheads hpos
      rcases hlossless with ⟨e, he, -⟩ | ⟨qs', hqs', hwhole⟩
      · rw [hqs] at he
        cases he
      · rw [hqs] at hqs'
        rw [Except.ok.inj hqs']
        exact hwhole
    · intro hall
      have hsealed := opens_sealed hideal
      cases hout : (drain B (Streamer.open v) ⟨key, ratchet, 0⟩).result with
      | ok qs => exact .inr ⟨qs, hout, hall qs (heads_of_open h htag hchain hpos hsealed hout)⟩
      | error e =>
        refine .inl ⟨e, hout, ?_⟩
        rcases open_raises h htag hverdict hchain hpos hsealed hout with rfl | ⟨piece, -, hpiece⟩
        · rfl
        · exact readChunk_error hpiece
  refine ⟨hexact, ?_⟩
  intro heq
  subst heq
  have hlen : (plaintexts chunks).length = ws.length := by
    rw [← plaintexts_filter, List.length_map, h.length]
  have hbegins : ∀ qs, Heads true (plaintexts chunks) ws 0 v qs ↔
      qs = (plaintexts chunks).take v.length ∧ Begins ws v := by
    intro qs
    rw [heads_ratchet hlen, List.drop_zero, List.drop_zero, Begins]
  rw [hexact]
  refine ⟨?_, ?_⟩
  · intro hall
    by_cases hb : Begins ws v
    · have hwhole := hall _ ((hbegins _).mpr ⟨rfl, hb⟩)
      rw [← plaintexts_flatten] at hwhole
      have hle := length_le_of_flatten (by simp [plaintexts]) hwhole
      rw [Begins, List.take_of_length_le (by omega)] at hb
      exact .inl (eq_of_begins hb hcut)
    · exact .inr hb
  · intro hv qs hheads
    obtain ⟨rfl, hb⟩ := (hbegins qs).mp hheads
    rcases hv with rfl | hb'
    · rw [List.take_of_length_le (by omega), plaintexts_flatten]
    · exact absurd hb hb'

/-! ## Runs -/

section
open Reference

/-- Both chunks arrive in one piece: `open` completes with the first, the second is lost. -/
theorem merged_run :
    (drain reference (Streamer.seal runChunks) ⟨runKey, true, 0⟩).result = .ok [firstWire, secondWire] ∧
      [firstWire ++ secondWire].flatten = [firstWire, secondWire].flatten ∧
      (drain reference (Streamer.open [firstWire ++ secondWire]) ⟨runKey, true, 0⟩).result = .ok [[1]] ∧
      ¬ Lossless reference ⟨runKey, true, 0⟩ [firstWire ++ secondWire] (runChunks.map Prod.fst).flatten := by
  have hopen : (drain reference (Streamer.open [firstWire ++ secondWire]) ⟨runKey, true, 0⟩).result = .ok [[1]] := by
    decide +kernel
  refine ⟨by decide +kernel, by simp, hopen, ?_⟩
  intro h
  rcases h with ⟨e, he, -⟩ | ⟨qs, hqs, hwhole⟩
  · rw [hopen] at he
    cases he
  · rw [hopen] at hqs
    obtain rfl := Except.ok.inj hqs
    exact absurd hwhole (by decide)

/-- The chunks as they were sealed: nothing is lost. -/
theorem lossless_framing_run :
    Lossless reference ⟨runKey, true, 0⟩ [firstWire, secondWire] (runChunks.map Prod.fst).flatten := by
  have hcalls : (drain reference (Streamer.seal runChunks) ⟨runKey, true, 0⟩).calls ++
      (drain reference (Streamer.open [firstWire, secondWire]) ⟨runKey, true, 0⟩).calls = [
        .encrypt runKey runNonce none [1] (gcmEncrypt runKey runNonce.val [1] none),
        .encrypt nextKey runNonce none [2] (gcmEncrypt nextKey runNonce.val [2] none),
        .decrypt runKey runNonce.val (gcmEncrypt runKey runNonce.val [1] none) none (.ok [1]),
        .decrypt nextKey runNonce.val (gcmEncrypt nextKey runNonce.val [2] none) none (.ok [2])] := by
    decide +kernel
  have hideal : Ideal ((drain reference (Streamer.seal runChunks) ⟨runKey, true, 0⟩).calls ++
      (drain reference (Streamer.open [firstWire, secondWire]) ⟨runKey, true, 0⟩).calls) := by
    rw [hcalls]
    exact (((Ideal.nil.snoc fun _ => id).snoc fun _ => id).snoc_open (by simp) rfl).snoc_open (by simp) rfl
  have hseal : (drain reference (Streamer.seal runChunks) ⟨runKey, true, 0⟩).result =
      .ok [firstWire, secondWire] := by
    decide +kernel
  exact ((lossless_framing aesInverts aesTagged aesVerdict (fun _ => reference_noRepeat) hseal rfl hideal).2 rfl).mpr
    (.inl rfl)

end

end Amcrypt.Stream
