/-
  Amcrypt.Stream.Chunks — the sizes of chunks: what `open` makes of any bytes, and how long
  the chunks of `seal` are.

  `open_any_input`: whatever is offered as a wire chunk, in whatever state, `open` yields one
  plaintext and ratchets once, or raises `MutilatedCorpseError` and changes nothing; only at
  the end of the 64-bit step field an authentic chunk is lost to `struct.error`.

  `seal` frames each chunk of its iterator as it is: the chunk size that the constructor
  stores is read by nothing, and AES-GCM refuses a chunk beyond `gcmLimit`. `emitted` runs
  `seal` to its end, or to such a chunk, as a session does (`emitted_session`). What a wire
  chunk carries is what a receiver opens it as (`carried`); `chunk_size_bound` says when the
  wire chunks carry at most a chunk size each, and all that was given to `seal`.
-/

import Amcrypt.Stream.Framing

namespace Amcrypt.Stream

open Lib

variable {B : Backend}

/-! ## One step along the ratchet -/

/-- The next key and the next step, or no change with the ratchet off. -/
def Advanced (B : Backend) (s s' : Streamer) : Prop :=
  if s.ratchet then ratchetKey B s.key s.step = .ok s'.key ∧ s'.step = s.step + 1 ∧ s'.ratchet = true
  else s' = s

theorem advanced_of_ratcheted {s s' : Streamer} (h : ratcheted B s = some s') : Advanced B s s' := by
  unfold ratcheted at h
  unfold Advanced
  split at h
  · rename_i hon
    rw [if_pos hon]
    split at h
    · rename_i newKey hk
      obtain rfl := Option.some.inj h
      exact ⟨hk, rfl, hon⟩
    · cases h
  · rename_i hoff
    rw [if_neg hoff]
    exact (Option.some.inj h).symm

/-! ## Any input to `open` -/

/-- The state allows no further step: the ratchet is on and its step field full. -/
def Exhausted (s : Streamer) : Prop := s.ratchet = true ∧ 2 ^ 64 ≤ s.step

/-- One iteration of `open` over arbitrary bytes, in an arbitrary state. -/
theorem open_any_input (hverdict : B.AesVerdict) (s : Streamer) (wire : Bytes) :
    (∃ p, (iteration B (.wire wire) s).result = .ok (some p) ∧ Advanced B s (iteration B (.wire wire) s).self) ∨
    ((iteration B (.wire wire) s).self = s ∧ ∃ e, (iteration B (.wire wire) s).result = .error e ∧
      (e.isA .mutilatedCorpse = true ∨
        (e = .structError ∧ Exhausted s ∧ ∃ nonce ct p, readChunk wire = .ok (nonce, ct) ∧
          B.gcmDecrypt s.key nonce ct none = .ok p))) := by
  rw [iteration_wire]
  have hx := openChunk_exit (B := B) wire s
  generalize openChunk B wire s = out at hx
  cases hx with
  | malformed e hf => exact .inr ⟨rfl, e, rfl, .inl (readChunk_error hf)⟩
  | rejected nonce ct e hf hg =>
    have hn := readChunk_nonce hf
    obtain rfl := hverdict s.key ⟨nonce, hn⟩ ct none e hg
    exact .inr ⟨rfl, _, rfl, .inl rfl⟩
  | stuck nonce ct p hf hg hr =>
    exact .inr ⟨rfl, _, rfl, .inr ⟨rfl, ratcheted_eq_none.mp hr, nonce, ct, p, hf, hg⟩⟩
  | opened nonce ct p s' hf hg hr => exact .inl ⟨p, rfl, advanced_of_ratcheted hr⟩

section
open Reference

def lastState : Streamer := ⟨runKey, true, 2 ^ 64⟩

def lastWire : Bytes := wireChunk runNonce (gcmEncrypt runKey runNonce.val [0x01] none)

/-- An authentic chunk at the end of the ratchet: neither yielded nor refused as mutilated. -/
theorem open_exhausted_run : (iteration reference (.wire lastWire) lastState).result = .error .structError := by
  decide +kernel

/-- A length field that says zero. -/
theorem open_any_input_run :
    (iteration reference (.wire (List.replicate 32 0)) lastState).self = lastState ∧
      ∃ e, (iteration reference (.wire (List.replicate 32 0)) lastState).result = .error e ∧
        e.isA .mutilatedCorpse = true := by
  have hresult : (iteration reference (.wire (List.replicate 32 0)) lastState).result =
      .error authenticationFailed := by
    decide +kernel
  rcases open_any_input aesVerdict lastState (List.replicate 32 0) with ⟨p, hp, -⟩ | ⟨hself, -⟩
  · rw [hresult] at hp
    cases hp
  · exact ⟨hself, _, hresult, rfl⟩

end

/-! ## What `seal` emits -/

/-- A `Streamer` with all that its constructor stores. -/
structure SizedStreamer extends Streamer where
  chunkSize : Nat

/-- `Streamer.__init__` with its chunk size. -/
def SizedStreamer.new (key : Bytes) (chunkSize : Nat := 4096) (ratchet : Bool := true) :
    Except PyErr SizedStreamer := do
  let streamer ← Streamer.new key ratchet
  pure ⟨streamer, chunkSize⟩

/-- The body of `seal`'s loop over chunks of any length: AES-GCM takes a chunk only up to
    its limit, and above it raises before anything is sealed. -/
def sealAny (B : Backend) (chunk : Bytes) (nonce : Nonce) : Py Streamer (Option Bytes) :=
  if gcmLimit < chunk.length then Method.raise gcmOverflow else sealChunk B chunk nonce

/-- The wire chunks that `seal` over `chunks` emits until it is through or raises. -/
def emitted (B : Backend) : List (Bytes × Nonce) → Streamer → List Bytes
  | [], _ => []
  | (c, n) :: chunks, s =>
    let out := sealAny B c n s
    match out.result with
    | .ok (some w) => w :: emitted B chunks out.self
    | .ok none => emitted B chunks out.self
    | .error _ => []

theorem sealAny_within {c : Bytes} (h : c.length ≤ gcmLimit) (n : Nonce) : sealAny B c n = sealChunk B c n :=
  if_neg (Nat.not_lt.mpr h)

theorem emitted_cons {c : Bytes} {n : Nonce} {s : Streamer} {out : Out PyErr Call Streamer (Option Bytes)}
    (h : sealAny B c n s = out) (chunks : List (Bytes × Nonce)) :
    emitted B ((c, n) :: chunks) s = match out.result with
      | .ok (some w) => w :: emitted B chunks out.self
      | .ok none => emitted B chunks out.self
      | .error _ => [] := by
  rw [emitted, h]

theorem sealAny_beyond {c : Bytes} (h : gcmLimit < c.length) (n : Nonce) (s : Streamer) :
    sealAny B c n s = ⟨.error gcmOverflow, s, []⟩ := by
  rw [sealAny, if_pos h]
  rfl

/-! ## As a generator -/

/-- The first generator advanced: an iteration that returns, and one that raises. -/
theorem next_returned {x : Item} {rest : Gen} {s : Streamer} {log : List Event} {y : Option Bytes}
    (h : (iteration B x s).result = .ok y) :
    (Act.run B (.next 0) ⟨s, [x :: rest], log⟩).self = ⟨(iteration B x s).self, [rest], log ++ [(x, .ok y)]⟩ := by
  simp [Act.run, Session.next, h]

theorem next_raised {x : Item} {rest : Gen} {s : Streamer} {log : List Event} {e : PyErr}
    (h : (iteration B x s).result = .error e) :
    (Act.run B (.next 0) ⟨s, [x :: rest], log⟩).self = ⟨(iteration B x s).self, [[]], log ++ [(x, .error e)]⟩ := by
  simp [Act.run, Session.next, h]

/-- A generator that is through, advanced again. -/
theorem after_finished (s : Streamer) (log : List Event) (k : Nat) :
    (⟨s, [[]], log⟩ : Session).after B (List.replicate k (.next 0)) = ⟨s, [[]], log⟩ := by
  induction k with
  | zero => rfl
  | succ k ih =>
    rw [List.replicate_succ, after_cons]
    exact ih

/-- The chunks before the first one that AES-GCM does not take. -/
def taken (chunks : List (Bytes × Nonce)) : List (Bytes × Nonce) := chunks.takeWhile fun c => c.1.length ≤ gcmLimit

/-- The wire chunks of a log. -/
def wires (log : List Event) : List Bytes := (log.filterMap Event.sealed).map Prod.snd

/-- The log of a session in which one `seal` generator is advanced to its end. -/
theorem emitted_log (chunks : List (Bytes × Nonce)) (s : Streamer) (log : List Event) :
    wires ((⟨s, [Streamer.seal (taken chunks)], log⟩ : Session).after B (List.replicate chunks.length (.next 0))).log =
      wires log ++ emitted B chunks s := by
  induction chunks generalizing s log with
  | nil => simp [emitted, taken]
  | cons c chunks ih =>
    obtain ⟨c, n⟩ := c
    rw [emitted]
    by_cases hfits : c.length ≤ gcmLimit
    · have hgen : Streamer.seal (taken ((c, n) :: chunks)) = .chunk c n :: Streamer.seal (taken chunks) := by
        rw [taken, List.takeWhile_cons_of_pos (by simpa using hfits)]
        rfl
      rw [List.length_cons, List.replicate_succ, after_cons, hgen, sealAny_within hfits]
      cases hr : (sealChunk B c n s).result with
      | error e =>
        rw [next_raised (iteration_chunk (B := B) c n ▸ hr), after_finished, wires, filterMap_snoc]
        simp [wires, Event.sealed]
      | ok y =>
        rw [next_returned (iteration_chunk (B := B) c n ▸ hr), ih, iteration_chunk, wires, filterMap_snoc]
        cases y <;> simp [wires, Event.sealed]
    · have hgen : Streamer.seal (taken ((c, n) :: chunks)) = [] := by
        rw [taken, List.takeWhile_cons_of_neg (by simpa using hfits)]
        rfl
      rw [hgen, after_finished, sealAny_beyond (Nat.lt_of_not_le hfits), List.append_nil]

/-- `emitted` is what the generator yields, as long as AES-GCM takes its chunks. -/
theorem emitted_session (chunks : List (Bytes × Nonce)) (s : Streamer) :
    wires ((⟨s, [], []⟩ : Session).after B (.sealing (taken chunks) :: List.replicate chunks.length (.next 0))).log =
      emitted B chunks s :=
  emitted_log chunks s []

/-! ## What the wire chunks carry -/

/-- What a receiver in the state of the sender opens wire chunks as. -/
def carried (B : Backend) (ws : List Bytes) (s : Streamer) : Except PyErr (List Bytes) :=
  (drain B (Streamer.open ws) s).result

/-- A wire chunk that carries at least one byte and at most a chunk size, and says so. -/
structure Bounded (chunkSize : Nat) (w p : Bytes) : Prop where
  least : 1 ≤ p.length
  most : p.length ≤ chunkSize
  field : ∃ len, w.take lenField = BigEndian.encode lenField len ∧ w.length = lenField + len ∧
    len ≤ chunkSize + 28 ∧ len < 2 ^ 32

/-- Every wire chunk that `seal` emits is bounded by what it carries, and together they carry
    all that `seal` was given. -/
def ChunksBounded (B : Backend) (s : SizedStreamer) (chunks : List (Bytes × Nonce)) : Prop :=
  ∃ ps, carried B (emitted B chunks s.toStreamer) s.toStreamer = .ok ps ∧
    List.Forall₂ (Bounded s.chunkSize) (emitted B chunks s.toStreamer) ps ∧
      ps.flatten = (chunks.map Prod.fst).flatten

theorem bounded_iff (htag : B.AesTagged) {chunkSize : Nat} {s : Streamer} {c : Bytes} {n : Nonce} (hc : c ≠ [])
    (hfit : nonceLen + (B.gcmEncrypt s.key n.val c none).length < 256 ^ lenField) :
    Bounded chunkSize (wireChunk n (B.gcmEncrypt s.key n.val c none)) c ↔ c.length ≤ chunkSize := by
  have hpos := List.length_pos_iff.mpr hc
  have hct := htag s.key n c none
  have hn := n.property
  refine ⟨fun h => h.most, ?_⟩
  intro hmost
  refine ⟨hpos, hmost, nonceLen + (B.gcmEncrypt s.key n.val c none).length, ?_, ?_, ?_, hfit⟩
  · exact List.take_left' (BigEndian.length_encode _ _)
  · simp [wireChunk, nonceLen, hn]
  · rw [hct]
    unfold nonceLen
    omega

/-- A chunk that is sealed is opened again, and both sides move on alike. -/
theorem carried_cons (haes : B.AesInverts) (htag : B.AesTagged) {s s' : Streamer} {c : Bytes} {n : Nonce}
    (hfit : nonceLen + (B.gcmEncrypt s.key n.val c none).length < 256 ^ lenField) (hs' : ratcheted B s = some s')
    (ws : List Bytes) :
    carried B (wireChunk n (B.gcmEncrypt s.key n.val c none) :: ws) s = (carried B ws s').map (c :: ·) := by
  have hread := readChunk_wireChunk n (by rw [htag]; omega) hfit
  have hopen := openChunk_opened hread (haes s.key n c none) hs'
  rw [carried, open_cons hopen]
  rfl

/-! ## Exactly when they are bounded -/

/-- The ratchet has a step left for each of these chunks. -/
def StepsFor (s : Streamer) (ps : List Bytes) : Prop :=
  s.ratchet = true → ps ≠ [] → s.step + ps.length ≤ 2 ^ 64

theorem stepsFor_cons {s s' : Streamer} (h : ratcheted B s = some s') (p : Bytes) (ps : List Bytes) :
    StepsFor s (p :: ps) ↔ StepsFor s' ps := by
  have hadv := advanced_of_ratcheted h
  have hsome : ratcheted B s ≠ none := by rw [h]; simp
  rw [ne_eq, ratcheted_eq_none] at hsome
  unfold Advanced at hadv
  unfold StepsFor
  cases hon : s.ratchet with
  | false =>
    rw [hon, if_neg (by decide)] at hadv
    rw [hadv, hon]
    simp
  | true =>
    rw [hon, if_pos rfl] at hadv
    obtain ⟨-, hstep, hon'⟩ := hadv
    have hlt : s.step < 2 ^ 64 := Nat.lt_of_not_le fun hle => hsome ⟨hon, hle⟩
    rw [hon', hstep]
    cases ps with
    | nil => simp only [List.length_singleton, ne_eq, not_true_eq_false, false_implies, implies_true, iff_true]; omega
    | cons q ps => simp only [ne_eq, reduceCtorEq, not_false_eq_true, List.length_cons, forall_const]; omega

/-- Within the limit, only the end of the ratchet stops `seal`. -/
theorem refused_why (htag : B.AesTagged) {s : Streamer} {c : Bytes} {n : Nonce}
    (h : 256 ^ lenField ≤ nonceLen + (B.gcmEncrypt s.key n.val c none).length ∨ ratcheted B s = none)
    (hlimit : c.length ≤ gcmLimit) (ps : List Bytes) : ¬ StepsFor s (c :: ps) := by
  have hend : ratcheted B s = none := by
    refine h.resolve_left ?_
    rw [htag]
    unfold gcmLimit at hlimit
    unfold nonceLen lenField
    omega
  intro hsteps
  obtain ⟨hon, hfull⟩ := ratcheted_eq_none.mp hend
  have hle := hsteps hon (List.cons_ne_nil c ps)
  rw [List.length_cons] at hle
  omega

/-- Where `seal` stops at a chunk, that chunk is missing. -/
theorem not_bounded {s : SizedStreamer} {c : Bytes} {n : Nonce} {chunks : List (Bytes × Nonce)} (hc : c ≠ [])
    (h : emitted B ((c, n) :: chunks) s.toStreamer = []) : ¬ ChunksBounded B s ((c, n) :: chunks) := by
  intro hx
  obtain ⟨ps, -, hbounded, hall⟩ := hx
  rw [h] at hbounded
  cases hbounded
  exact hc (List.append_eq_nil_iff.mp hall.symm).1

/-- One chunk that is sealed, and the rest. -/
theorem bounded_cons (haes : B.AesInverts) (htag : B.AesTagged) {s s' : Streamer} {c : Bytes} {n : Nonce}
    {chunks : List (Bytes × Nonce)} (hc : c ≠ []) (chunkSize : Nat)
    (hfit : nonceLen + (B.gcmEncrypt s.key n.val c none).length < 256 ^ lenField) (hs' : ratcheted B s = some s')
    (hemit : emitted B ((c, n) :: chunks) s = wireChunk n (B.gcmEncrypt s.key n.val c none) :: emitted B chunks s') :
    ChunksBounded B ⟨s, chunkSize⟩ ((c, n) :: chunks) ↔
      c.length ≤ chunkSize ∧ ChunksBounded B ⟨s', chunkSize⟩ chunks := by
  unfold ChunksBounded
  dsimp only
  have hsize : c.length ≤ chunkSize ↔ Bounded chunkSize _ c := (bounded_iff htag hc hfit).symm
  rw [hemit, carried_cons haes htag hfit hs', hsize]
  refine ⟨?_, ?_⟩
  · intro hx
    obtain ⟨ps, hps, hbounded, hall⟩ := hx
    cases hrest : carried B (emitted B chunks s') s' with
    | error e => rw [hrest] at hps; cases hps
    | ok qs =>
      rw [hrest] at hps
      obtain rfl : c :: qs = ps := Except.ok.inj hps
      obtain ⟨hfirst, hothers⟩ := List.forall₂_cons.mp hbounded
      exact ⟨hfirst, qs, rfl, hothers, List.append_cancel_left hall⟩
  · intro hx
    obtain ⟨hfirst, qs, hqs, hothers, hall⟩ := hx
    refine ⟨c :: qs, by rw [hqs]; rfl, .cons hfirst hothers, ?_⟩
    rw [List.map_cons, List.flatten_cons, List.flatten_cons, hall]

/-- The chunk size bounds what the wire chunks carry exactly if it bounds what `seal` is given,
    and no chunk is beyond AES-GCM's limit or comes after the last step of the ratchet. -/
theorem chunk_size_bound (haes : B.AesInverts) (htag : B.AesTagged) (s : SizedStreamer)
    (chunks : List (Bytes × Nonce)) :
    ChunksBounded B s chunks ↔
      (∀ c ∈ chunks, c.1.length ≤ s.chunkSize ∧ c.1.length ≤ gcmLimit) ∧ StepsFor s.toStreamer (plaintexts chunks) := by
  obtain ⟨s, chunkSize⟩ := s
  dsimp only
  induction chunks generalizing s with
  | nil =>
    have hnone : ChunksBounded B ⟨s, chunkSize⟩ [] := ⟨[], rfl, .nil, rfl⟩
    simp [hnone, plaintexts, StepsFor]
  | cons c chunks ih =>
    obtain ⟨c, n⟩ := c
    by_cases hlimit : c.length ≤ gcmLimit
    · have hx := sealChunk_exit (B := B) c n s
      have hemit := emitted_cons (s := s) (congrFun (sealAny_within (B := B) hlimit n) s) chunks
      generalize sealChunk B c n s = out at hx hemit
      cases hx with
      | skipped h0 =>
        subst h0
        have hp : plaintexts (([], n) :: chunks) = plaintexts chunks := rfl
        have hsame : ChunksBounded B ⟨s, chunkSize⟩ (([], n) :: chunks) ↔ ChunksBounded B ⟨s, chunkSize⟩ chunks := by
          unfold ChunksBounded
          rw [hemit]
          rfl
        rw [hsame, ih s, hp]
        simp
      | refused ct h0 hct hwhy =>
        have hp : plaintexts ((c, n) :: chunks) = c :: plaintexts chunks := by simp [plaintexts, h0]
        refine iff_of_false (not_bounded h0 hemit) ?_
        intro h
        obtain ⟨-, hsteps⟩ := h
        rw [hp] at hsteps
        exact refused_why htag (hct ▸ hwhy) hlimit _ hsteps
      | sealed ct s' h0 hct hfit hs' =>
        subst hct
        have hp : plaintexts ((c, n) :: chunks) = c :: plaintexts chunks := by simp [plaintexts, h0]
        rw [bounded_cons haes htag h0 chunkSize hfit hs' hemit, ih s', hp, stepsFor_cons hs']
        simp only [List.forall_mem_cons, hlimit, and_true, and_assoc]
    · have hc : c ≠ [] := by
        rintro rfl
        exact hlimit (Nat.zero_le _)
      have hemit := emitted_cons (sealAny_beyond (B := B) (Nat.lt_of_not_le hlimit) n s) chunks
      refine iff_of_false (not_bounded hc hemit) ?_
      intro h
      exact hlimit (h.1 (c, n) List.mem_cons_self).2

section
open Reference

/-- A chunk size of four, and a chunk of five bytes: they are carried, all in one wire chunk. -/
theorem chunk_size_run : ∃ s, SizedStreamer.new runKey.val 4 = .ok s ∧
    carried reference (emitted reference [([1, 2, 3, 4, 5], runNonce)] s.toStreamer) s.toStreamer =
      .ok [[1, 2, 3, 4, 5]] ∧
    ¬ ChunksBounded reference s [([1, 2, 3, 4, 5], runNonce)] := by
  have hcarried : carried reference (emitted reference [([1, 2, 3, 4, 5], runNonce)] ⟨runKey, true, 0⟩)
      ⟨runKey, true, 0⟩ = .ok [[1, 2, 3, 4, 5]] := by
    decide +kernel
  refine ⟨⟨⟨runKey, true, 0⟩, 4⟩, rfl, hcarried, ?_⟩
  intro h
  obtain ⟨ps, hps, hbounded, -⟩ := h
  obtain rfl := Except.ok.inj (hcarried.symm.trans hps)
  generalize emitted reference _ _ = ws at hbounded
  cases hbounded with
  | cons hfirst _ => exact absurd hfirst.most (by decide)

theorem chunk_size_bound_run :
    ChunksBounded reference ⟨⟨runKey, true, 0⟩, 4096⟩
      [([1, 2, 3, 4, 5], runNonce), ([], runNonce), ([6], runNonce)] := by
  refine (chunk_size_bound aesInverts aesTagged _ _).mpr ⟨by decide, ?_⟩
  intro _ _
  decide

end

end Amcrypt.Stream
