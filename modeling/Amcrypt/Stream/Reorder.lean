/-
  Amcrypt.Stream.Reorder — what the receiver of a stream notices when wire chunks are
  dropped, moved or repeated on the way.

  A wire chunk carries neither a number nor an end mark: its only place in the stream is
  the key it was sealed under. With the ratchet on, `open` therefore completes exactly
  over the prefixes of what was sealed (`open_beginning`, `prefix_of_open`), so the loss of
  the last chunks goes unnoticed; with the ratchet off all chunks share one key, and it
  completes over any selection of them (`open_any`). Over anything else made of sealed
  chunks the authentication fails (`open_raises`). `drop_and_reorder` puts these together:
  the sequences for which completion means that nothing was lost or moved.
-/

import Amcrypt.Stream.PrefixSafety

namespace Amcrypt.Stream

open Lib

variable {B : Backend}

/-! ## A completed `seal` -/

/-- `seal` over non-empty chunks, run to its end: the wire chunks and the encryptions. -/
inductive SealRun (B : Backend) : Streamer → List (Bytes × Nonce) → List Bytes → List Call → Prop
  | nil (s : Streamer) : SealRun B s [] [] []
  | cons {s s' : Streamer} {c ct : Bytes} {n : Nonce} {chunks : List (Bytes × Nonce)} {ws : List Bytes}
      {calls : List Call} : ct = B.gcmEncrypt s.key n.val c none → nonceLen + ct.length < 256 ^ lenField →
      ratcheted B s = some s' → SealRun B s' chunks ws calls →
      SealRun B s ((c, n) :: chunks) (wireChunk n ct :: ws) (.encrypt s.key n none c ct :: calls)

theorem sealRun_of_drain {chunks : List (Bytes × Nonce)} {s : Streamer} {ws : List Bytes}
    (hne : ∀ c ∈ chunks, c.1 ≠ []) (h : (drain B (Streamer.seal chunks) s).result = .ok ws) :
    SealRun B s chunks ws (drain B (Streamer.seal chunks) s).calls := by
  induction chunks generalizing s ws with
  | nil =>
    obtain rfl : [] = ws := Except.ok.inj h
    exact .nil s
  | cons c chunks ih =>
    obtain ⟨c, n⟩ := c
    have hx := sealChunk_exit (B := B) c n s
    have hit : iteration B (.chunk c n) s = sealChunk B c n s := rfl
    generalize sealChunk B c n s = out at hx hit
    show SealRun B s ((c, n) :: chunks) ws (drain B (.chunk c n :: Streamer.seal chunks) s).calls
    have h : (drain B (.chunk c n :: Streamer.seal chunks) s).result = .ok ws := h
    cases hx with
    | skipped hc => exact absurd hc (hne (c, n) List.mem_cons_self)
    | refused ct _ _ _ => rw [drain_error hit] at h; cases h
    | sealed ct s' _ hct hfit hr =>
      rw [drain_ok hit] at h ⊢
      cases hrest : (drain B (Streamer.seal chunks) s').result with
      | error e => rw [hrest] at h; cases h
      | ok ws' =>
        rw [hrest] at h
        obtain rfl : wireChunk n ct :: ws' = ws := Except.ok.inj h
        exact .cons hct hfit hr (ih (fun c hc => hne c (List.mem_cons_of_mem _ hc)) hrest)

theorem SealRun.length {s : Streamer} {chunks : List (Bytes × Nonce)} {ws : List Bytes} {calls : List Call}
    (h : SealRun B s chunks ws calls) : chunks.length = ws.length := by
  induction h with
  | nil s => rfl
  | cons _ _ _ _ ih => rw [List.length_cons, List.length_cons, ih]

/-- Each chunk is sealed under the key at its place, and the key moves on. -/
theorem SealRun.sealed {s : Streamer} {chunks : List (Bytes × Nonce)} {ws : List Bytes} {calls : List Call}
    (h : SealRun B s chunks ws calls) {i : Nat} {p : Bytes} {n : Nonce} (hi : chunks[i]? = some (p, n)) :
    ∃ t t', chain (ratcheted B) s i = some t ∧ ratcheted B t = some t' ∧
      ws[i]? = some (wireChunk n (B.gcmEncrypt t.key n.val p none)) ∧
      nonceLen + (B.gcmEncrypt t.key n.val p none).length < 256 ^ lenField := by
  induction h generalizing i with
  | nil s => cases hi
  | @cons s s' c ct m chunks ws calls hct hfit hr _ ih =>
    cases i with
    | zero =>
      obtain ⟨rfl, rfl⟩ : c = p ∧ m = n := by simpa using hi
      exact ⟨s, s', rfl, hr, by rw [hct]; rfl, by rw [← hct]; exact hfit⟩
    | succ i =>
      obtain ⟨t, t', hs, rest⟩ := ih (show chunks[i]? = some (p, n) from hi)
      exact ⟨t, t', (chain_cons hr i).trans hs, rest⟩

/-- Each wire chunk is an encryption under the key at its place. -/
theorem SealRun.wire {s : Streamer} {chunks : List (Bytes × Nonce)} {ws : List Bytes} {calls : List Call}
    (h : SealRun B s chunks ws calls) {w : Bytes} (hw : w ∈ ws) :
    ∃ i s' n p, chain (ratcheted B) s i = some s' ∧ w = wireChunk n (B.gcmEncrypt s'.key n.val p none) ∧
      nonceLen + (B.gcmEncrypt s'.key n.val p none).length < 256 ^ lenField := by
  obtain ⟨i, hi⟩ := List.mem_iff_getElem?.mp hw
  obtain ⟨hlt, -⟩ := List.getElem?_eq_some_iff.mp hi
  rw [← h.length] at hlt
  obtain ⟨t, t', ht, -, hwire, hfit⟩ := h.sealed (List.getElem?_eq_getElem hlt)
  exact ⟨i, t, _, _, ht, Option.some.inj (hi.symm.trans hwire), hfit⟩

/-- Each encryption is the wire chunk at the place of its key. -/
theorem SealRun.encrypted {s : Streamer} {chunks : List (Bytes × Nonce)} {ws : List Bytes} {calls : List Call}
    (h : SealRun B s chunks ws calls) {k : Key} {n : Nonce} {a : Option Bytes} {p ct : Bytes}
    (hmem : Call.encrypt k n a p ct ∈ calls) :
    ∃ i s', chain (ratcheted B) s i = some s' ∧ s'.key = k ∧ ws[i]? = some (wireChunk n ct) ∧
      chunks[i]? = some (p, n) ∧ ct = B.gcmEncrypt k n.val p none := by
  induction h with
  | nil s => cases hmem
  | cons hct hfit hr _ ih =>
    rcases List.mem_cons.mp hmem with hmem | hmem
    · simp only [Call.encrypt.injEq] at hmem
      obtain ⟨rfl, rfl, -, rfl, rfl⟩ := hmem
      exact ⟨0, _, rfl, rfl, rfl, rfl, hct⟩
    · obtain ⟨i, s', hs, rest⟩ := ih hmem
      exact ⟨i + 1, s', (chain_cons hr i).trans hs, rest⟩

/-! ## What `open` completes over -/

/-- `open` over a first chunk and more: it stops at the first, or goes on behind it. -/
inductive OpenRun (B : Backend) (w : Bytes) (v : List Bytes) (s : Streamer) : Out PyErr Call Streamer (List Bytes) → Prop
  | malformed (e : PyErr) : readChunk w = .error e → OpenRun B w v s ⟨.error e, s, []⟩
  | rejected (nonce ct : Bytes) (e : PyErr) : readChunk w = .ok (nonce, ct) →
      B.gcmDecrypt s.key nonce ct none = .error e →
      OpenRun B w v s ⟨.error (rejection e), s, [.decrypt s.key nonce ct none (.error e)]⟩
  | stuck (nonce ct p : Bytes) : readChunk w = .ok (nonce, ct) → B.gcmDecrypt s.key nonce ct none = .ok p →
      ratcheted B s = none → OpenRun B w v s ⟨.error .structError, s, [.decrypt s.key nonce ct none (.ok p)]⟩
  | opened (nonce ct p : Bytes) (s' : Streamer) : readChunk w = .ok (nonce, ct) →
      B.gcmDecrypt s.key nonce ct none = .ok p → ratcheted B s = some s' →
      OpenRun B w v s ⟨(drain B (Streamer.open v) s').result.map (p :: ·), (drain B (Streamer.open v) s').self,
        .decrypt s.key nonce ct none (.ok p) :: (drain B (Streamer.open v) s').calls⟩

theorem open_run (w : Bytes) (v : List Bytes) (s : Streamer) :
    OpenRun B w v s (drain B (Streamer.open (w :: v)) s) := by
  show OpenRun B w v s (drain B (.wire w :: Streamer.open v) s)
  have hx := openChunk_exit (B := B) w s
  have hit := iteration_wire (B := B) w s
  generalize openChunk B w s = out at hx hit
  cases hx with
  | malformed e hf =>
    rw [drain_error hit]
    exact .malformed e hf
  | rejected nonce ct e hf hg =>
    rw [drain_error hit]
    exact .rejected nonce ct e hf hg
  | stuck nonce ct p hf hg hr =>
    rw [drain_error hit]
    exact .stuck nonce ct p hf hg hr
  | opened nonce ct p s' hf hg hr =>
    rw [drain_ok hit]
    exact .opened nonce ct p s' hf hg hr

theorem open_cons {w : Bytes} {v : List Bytes} {s s' : Streamer} {p : Bytes} {cs : List Call}
    (h : openChunk B w s = ⟨.ok p, s', cs⟩) :
    drain B (Streamer.open (w :: v)) s = ⟨(drain B (Streamer.open v) s').result.map (p :: ·),
      (drain B (Streamer.open v) s').self, cs ++ (drain B (Streamer.open v) s').calls⟩ := by
  have hit : iteration B (.wire w) s = ⟨.ok (some p), s', cs⟩ := by rw [iteration_wire, h]; rfl
  exact drain_ok hit

/-- `open` completes over any prefix of a sealed stream. -/
theorem open_beginning (haes : B.AesInverts) (htag : B.AesTagged) {s : Streamer} {chunks : List (Bytes × Nonce)}
    {ws : List Bytes} {calls : List Call} (h : SealRun B s chunks ws calls) {v : List Bytes} (hv : v <+: ws) :
    ∃ ps, (drain B (Streamer.open v) s).result = .ok ps := by
  induction h generalizing v with
  | nil s =>
    rw [List.prefix_nil.mp hv]
    exact ⟨[], rfl⟩
  | @cons s s' c ct n chunks ws calls hct hfit hr _ ih =>
    rcases List.prefix_cons_iff.mp hv with rfl | ⟨v, rfl, hv'⟩
    · exact ⟨[], rfl⟩
    · have hopen := openChunk_opened (readChunk_wireChunk n (by rw [hct, htag]; omega) hfit)
        (by rw [hct]; exact haes s.key n c none) hr
      obtain ⟨ps, hps⟩ := ih hv'
      exact ⟨c :: ps, by rw [open_cons hopen, hps]; rfl⟩

/-- Without the ratchet the object stays where it is. -/
theorem chain_still {s t : Streamer} (hoff : s.ratchet = false) {i : Nat} (h : chain (ratcheted B) s i = some t) :
    t = s := by
  refine chain_induction (P := fun _ t => t = s) rfl ?_ h
  intro _ t t' heq hr
  subst heq
  simp only [ratcheted, hoff, Bool.false_eq_true, if_false, Option.some.injEq] at hr
  exact hr.symm

/-- With the ratchet off, `open` completes over any selection. -/
theorem open_any (haes : B.AesInverts) (htag : B.AesTagged) {s : Streamer} (hoff : s.ratchet = false)
    {chunks : List (Bytes × Nonce)} {ws : List Bytes} {calls : List Call} (h : SealRun B s chunks ws calls)
    {v : List Bytes} (hv : ∀ w ∈ v, w ∈ ws) : ∃ ps, (drain B (Streamer.open v) s).result = .ok ps := by
  have hstay : ratcheted B s = some s := by simp [ratcheted, hoff]
  induction v with
  | nil => exact ⟨[], rfl⟩
  | cons w v ih =>
    obtain ⟨i, s', n, p, hs, rfl, hfit⟩ := h.wire (hv w List.mem_cons_self)
    obtain rfl := chain_still hoff hs
    have hopen := openChunk_opened (readChunk_wireChunk n (by rw [htag]; omega) hfit) (haes s'.key n p none) hstay
    obtain ⟨ps, hps⟩ := ih fun w hw => hv w (List.mem_cons_of_mem _ hw)
    exact ⟨p :: ps, by rw [open_cons hopen, hps]; rfl⟩

theorem open_encrypts_nothing (v : List Bytes) (s : Streamer) (k : Key) (n : Nonce) (a : Option Bytes)
    (p ct : Bytes) : Call.encrypt k n a p ct ∉ (drain B (Streamer.open v) s).calls := by
  induction v generalizing s with
  | nil => exact List.not_mem_nil
  | cons w v ih =>
    have hx := open_run (B := B) w v s
    generalize drain B (Streamer.open (w :: v)) s = out at hx
    cases hx with
    | malformed e _ => exact List.not_mem_nil
    | rejected nonce ct' e _ _ => simp
    | stuck nonce ct' p' _ _ _ => simp
    | opened nonce ct' p' s' _ _ _ => simp [ih s']

/-- What `open` decrypts was encrypted before. -/
theorem opens_sealed {past : List Call} {v : List Bytes} {s : Streamer}
    (hideal : Ideal (past ++ (drain B (Streamer.open v) s).calls)) (k : Key) (n : Bytes) (a : Option Bytes)
    (p ct : Bytes) (hmem : Call.decrypt k n ct a (.ok p) ∈ (drain B (Streamer.open v) s).calls) :
    ∃ (n' : Nonce) (a' : Option Bytes), n'.val = n ∧ .encrypt k n' a' p ct ∈ past := by
  obtain ⟨n', hn, a', -, henc⟩ := hideal.opened hmem (open_encrypts_nothing v s)
  exact ⟨n', a', hn, henc⟩

/-- With the ratchet on, what `open` completes over is the stream from its position on. -/
theorem prefix_of_open (htag : B.AesTagged) {start : Streamer}
    (hchain : NoRepeat (ratcheted B) start Streamer.key) {chunks : List (Bytes × Nonce)} {ws : List Bytes}
    {calls : List Call} (h : SealRun B start chunks ws calls) {v : List Bytes} (hv : ∀ w ∈ v, w ∈ ws) {i : Nat}
    {s : Streamer} (hs : chain (ratcheted B) start i = some s)
    (hideal : ∀ k n a p ct, Call.decrypt k n ct a (.ok p) ∈ (drain B (Streamer.open v) s).calls →
      ∃ (n' : Nonce) (a' : Option Bytes), n'.val = n ∧ .encrypt k n' a' p ct ∈ calls)
    {ps : List Bytes} (hps : (drain B (Streamer.open v) s).result = .ok ps) : v <+: ws.drop i := by
  induction v generalizing i s ps with
  | nil => exact List.nil_prefix
  | cons w v ih =>
    have hx := open_run (B := B) w v s
    generalize drain B (Streamer.open (w :: v)) s = out at hx hps hideal
    cases hx with
    | malformed e _ => cases hps
    | rejected nonce ct e _ _ => cases hps
    | stuck nonce ct p _ _ _ => cases hps
    | opened nonce ct p s' hf hg hr =>
      dsimp only at hps hideal
      obtain ⟨n, a, rfl, hmem⟩ := hideal s.key nonce none p ct (by simp)
      obtain ⟨j, t, ht, hk, hget, -⟩ := h.encrypted hmem
      obtain rfl := hchain j i t s ht hs hk
      -- the chunk presented is the one sealed with this nonce and ciphertext, which is the one at `j`
      have hw : w = wireChunk n ct := by
        obtain ⟨_, t', m, q, _, rfl, hfit⟩ := h.wire (hv w List.mem_cons_self)
        rw [readChunk_wireChunk m (by rw [htag]; omega) hfit] at hf
        obtain ⟨hn, hc⟩ := Prod.mk.inj (Except.ok.inj hf)
        obtain rfl := Subtype.ext hn
        rw [hc]
      obtain ⟨hlt, hget⟩ := List.getElem?_eq_some_iff.mp hget
      rw [List.drop_eq_getElem_cons hlt, hget, hw]
      refine List.cons_prefix_cons.mpr ⟨rfl, ?_⟩
      cases hrest : (drain B (Streamer.open v) s').result with
      | error e => rw [hrest] at hps; cases hps
      | ok ps' =>
        refine ih (fun w hw => hv w (List.mem_cons_of_mem _ hw)) (chain_succ hs hr) ?_ hrest
        intro k n' a' p' ct' hmem'
        exact hideal k n' a' p' ct' (List.mem_cons_of_mem _ hmem')

/-! ## What `open` raises -/

section
variable {start : Streamer} {chunks : List (Bytes × Nonce)} {ws : List Bytes} {calls : List Call}

/-- Two positions that are the same, or on a chain without ratchet. -/
theorem chain_same {i k : Nat} {s t : Streamer} (ht : chain (ratcheted B) start i = some t)
    (hs : chain (ratcheted B) start k = some s) (hplace : start.ratchet = true → i = k) : t = s := by
  cases hon : start.ratchet with
  | true =>
    rw [hplace hon] at ht
    exact Option.some.inj (ht.symm.trans hs)
  | false => rw [chain_still hon ht, chain_still hon hs]

/-- What was sealed under the key at position `k` is the chunk of that place, or of any
    place if the ratchet is off; and the key moves on from there. -/
theorem SealRun.origin (h : SealRun B start chunks ws calls) (htag : B.AesTagged)
    (hchain : start.ratchet = true → NoRepeat (ratcheted B) start Streamer.key) {k : Nat} {s : Streamer}
    (hs : chain (ratcheted B) start k = some s) {n : Nonce} {a : Option Bytes} {p ct : Bytes}
    (hmem : Call.encrypt s.key n a p ct ∈ calls) :
    ∃ i s', (chunks.map Prod.fst)[i]? = some p ∧ ws[i]? = some (wireChunk n ct) ∧ (start.ratchet = true → i = k) ∧
      ratcheted B s = some s' ∧ ct ≠ [] := by
  obtain ⟨i, t, ht, hkey, hwire, hi, hct⟩ := h.encrypted hmem
  obtain ⟨t', s', ht', hr, -, -⟩ := h.sealed hi
  obtain rfl := Option.some.inj (ht.symm.trans ht')
  have hplace : start.ratchet = true → i = k := fun hon => hchain hon i k t s ht hs hkey
  obtain rfl := chain_same ht hs hplace
  refine ⟨i, s', by rw [List.getElem?_map, hi]; rfl, hwire, hplace, hr, ?_⟩
  have hlen := htag t.key n p none
  intro heq
  subst heq
  rw [← hct, List.length_nil] at hlen
  omega

/-- Over what was sealed and not, `open` stops at a piece that is no chunk, or at one that
    does not authenticate: the ratchet goes as far as the chunks that open. -/
theorem open_raises (h : SealRun B start chunks ws calls) (htag : B.AesTagged) (hverdict : B.AesVerdict)
    (hchain : start.ratchet = true → NoRepeat (ratcheted B) start Streamer.key) {v : List Bytes} {k : Nat}
    {s : Streamer} (hs : chain (ratcheted B) start k = some s)
    (hideal : ∀ key n a p ct, Call.decrypt key n ct a (.ok p) ∈ (drain B (Streamer.open v) s).calls →
      ∃ (n' : Nonce) (a' : Option Bytes), n'.val = n ∧ .encrypt key n' a' p ct ∈ calls)
    {e : PyErr} (he : (drain B (Streamer.open v) s).result = .error e) :
    e = authenticationFailed ∨ ∃ piece ∈ v, readChunk piece = .error e := by
  induction v generalizing k s with
  | nil => cases he
  | cons piece v ih =>
    have hx := open_run (B := B) piece v s
    generalize drain B (Streamer.open (piece :: v)) s = out at hx he hideal
    cases hx with
    | malformed e' hf =>
      obtain rfl : e' = e := Except.error.inj he
      exact .inr ⟨piece, List.mem_cons_self, hf⟩
    | rejected nonce ct e' hf hg =>
      obtain ⟨n, rfl⟩ : ∃ n : Nonce, n.val = nonce := ⟨⟨nonce, readChunk_nonce hf⟩, rfl⟩
      obtain rfl := hverdict _ _ _ _ _ hg
      exact .inl (Except.error.inj he).symm
    | stuck nonce ct p hf hg hr =>
      -- what opened was sealed here, and the sender's ratchet went on from here
      obtain ⟨n, a, -, hmem⟩ := hideal s.key nonce none p ct (by simp)
      obtain ⟨_, s', -, -, -, hnext, -⟩ := h.origin htag hchain hs hmem
      rw [hr] at hnext
      cases hnext
    | opened nonce ct p s' hf hg hr =>
      dsimp only at hideal he
      cases hlater : (drain B (Streamer.open v) s').result with
      | ok qs => rw [hlater] at he; cases he
      | error e' =>
        rw [hlater] at he
        obtain rfl : e' = e := Except.error.inj he
        refine (ih (chain_succ hs hr) ?_ hlater).imp_right ?_
        · intro key n' a' p' ct' hmem'
          exact hideal key n' a' p' ct' (List.mem_cons_of_mem _ hmem')
        · intro hx
          obtain ⟨piece', hmem', hread⟩ := hx
          exact ⟨piece', List.mem_cons_of_mem _ hmem', hread⟩

end

/-! ## Drops and reorderings -/

/-- Over `v`, made of the sealed chunks, completion means that `v` is the stream exactly
    when `v` is the stream, or the ratchet is on and `v` is not the beginning of it; and
    `open` stops short of the end of `v` only where the authentication fails. -/
theorem drop_and_reorder (haes : B.AesInverts) (htag : B.AesTagged) {key : Key} {ratchet : Bool}
    (hchain : ratchet = true → NoRepeat (ratcheted B) ⟨key, ratchet, 0⟩ Streamer.key)
    {chunks : List (Bytes × Nonce)} (hne : ∀ c ∈ chunks, c.1 ≠ []) {ws v : List Bytes}
    (hseal : (drain B (Streamer.seal chunks) ⟨key, ratchet, 0⟩).result = .ok ws) (hv : ∀ w ∈ v, w ∈ ws)
    (hideal : Ideal ((drain B (Streamer.seal chunks) ⟨key, ratchet, 0⟩).calls ++
      (drain B (Streamer.open v) ⟨key, ratchet, 0⟩).calls)) :
    (((∃ ps, (drain B (Streamer.open v) ⟨key, ratchet, 0⟩).result = .ok ps) → v = ws) ↔
        v = ws ∨ (ratchet = true ∧ ¬ v <+: ws)) ∧
      (B.AesVerdict → ∀ e, (drain B (Streamer.open v) ⟨key, ratchet, 0⟩).result = .error e →
        e = authenticationFailed) := by
  have h := sealRun_of_drain hne hseal
  have hsealed := opens_sealed hideal
  refine ⟨⟨?_, ?_⟩, ?_⟩
  · intro hall
    cases hr : ratchet with
    | false =>
      subst hr
      exact .inl (hall (open_any haes htag rfl h hv))
    | true =>
      by_cases hpre : v <+: ws
      · exact .inl (hall (open_beginning haes htag h hpre))
      · exact .inr ⟨rfl, hpre⟩
  · intro hx hy
    obtain ⟨ps, hps⟩ := hy
    rcases hx with rfl | ⟨hr, hpre⟩
    · rfl
    · exact absurd (prefix_of_open htag (hchain hr) h hv (i := 0) rfl hsealed hps) hpre
  · intro hverdict e he
    rcases open_raises h htag hverdict hchain (k := 0) rfl hsealed he with rfl | ⟨w, hw, hread⟩
    · rfl
    · -- a sealed chunk is a chunk
      obtain ⟨_, _, n, p, -, rfl, hfit⟩ := h.wire (hv w hw)
      rw [readChunk_wireChunk n (by rw [htag]; omega) hfit] at hread
      cases hread

/-! ## Runs -/

section
open Reference

def runChunks : List (Bytes × Nonce) := [([1], runNonce), ([2], runNonce)]

/-- The last chunk is dropped, and `open` completes. -/
theorem last_chunk_dropped :
    (drain reference (Streamer.seal runChunks) ⟨runKey, true, 0⟩).result = .ok [firstWire, secondWire] ∧
      Ideal ((drain reference (Streamer.seal runChunks) ⟨runKey, true, 0⟩).calls ++
        (drain reference (Streamer.open [firstWire]) ⟨runKey, true, 0⟩).calls) ∧
      (drain reference (Streamer.open [firstWire]) ⟨runKey, true, 0⟩).result = .ok [[1]] ∧
      [firstWire] ≠ [firstWire, secondWire] := by
  have hcalls : (drain reference (Streamer.seal runChunks) ⟨runKey, true, 0⟩).calls ++
      (drain reference (Streamer.open [firstWire]) ⟨runKey, true, 0⟩).calls = [
        .encrypt runKey runNonce none [1] (gcmEncrypt runKey runNonce.val [1] none),
        .encrypt nextKey runNonce none [2] (gcmEncrypt nextKey runNonce.val [2] none),
        .decrypt runKey runNonce.val (gcmEncrypt runKey runNonce.val [1] none) none (.ok [1])] := by
    decide +kernel
  refine ⟨by decide +kernel, ?_, by decide +kernel, by simp⟩
  rw [hcalls]
  exact ((Ideal.nil.snoc fun _ => id).snoc fun _ => id).snoc_open (by simp) rfl

/-- Two chunks swapped: `open` raises. -/
theorem swap_detected :
    (drain reference (Streamer.open [secondWire, firstWire]) ⟨runKey, true, 0⟩).result =
      .error authenticationFailed := by
  have hcalls : (drain reference (Streamer.seal runChunks) ⟨runKey, true, 0⟩).calls ++
      (drain reference (Streamer.open [secondWire, firstWire]) ⟨runKey, true, 0⟩).calls = [
        .encrypt runKey runNonce none [1] (gcmEncrypt runKey runNonce.val [1] none),
        .encrypt nextKey runNonce none [2] (gcmEncrypt nextKey runNonce.val [2] none),
        .decrypt runKey runNonce.val (gcmEncrypt nextKey runNonce.val [2] none) none (.error .invalidTag)] := by
    decide +kernel
  have hideal : Ideal ((drain reference (Streamer.seal runChunks) ⟨runKey, true, 0⟩).calls ++
      (drain reference (Streamer.open [secondWire, firstWire]) ⟨runKey, true, 0⟩).calls) := by
    rw [hcalls]
    exact ((Ideal.nil.snoc fun _ => id).snoc fun _ => id).snoc fun _ => id
  have hseal : (drain reference (Streamer.seal runChunks) ⟨runKey, true, 0⟩).result =
      .ok [firstWire, secondWire] := by
    decide +kernel
  have hne : [secondWire, firstWire] ≠ [firstWire, secondWire] := by decide +kernel
  obtain ⟨hcompletes, hraises⟩ := drop_and_reorder aesInverts aesTagged (fun _ => reference_noRepeat) (by decide) hseal
    (by simp) hideal
  cases hout : (drain reference (Streamer.open [secondWire, firstWire]) ⟨runKey, true, 0⟩).result with
  | ok ps => exact absurd (hcompletes.mpr (.inr ⟨rfl, by decide +kernel⟩) ⟨ps, hout⟩) hne
  | error e => rw [hraises aesVerdict e hout]

end

end Amcrypt.Stream
