/-
  Amcrypt.Doppelganger.Blocks — the two blocks of an envelope, written and found again.

  `kill_eq` runs `kill` statement by statement; `Killed` names what a `kill` that returned
  has sealed. `readBlocks` takes the envelope apart where `pack` put it together
  (`Killed.blocks`), whatever the sizes and the flags. `revive` tries its key on one block
  after the other: `trial_killed` says which plaintext a key finds in a killed envelope,
  AES-GCM being ideal over the calls of the two methods, and `contents_fresh` and
  `contents_rotten` what becomes of it before and after the expiry.
-/

import Amcrypt.Core.Fields
import Amcrypt.Doppelganger

namespace Amcrypt.Doppelganger

open Lib Amcrypt.Core

variable {B : Backend}

/-! ## `kill` -/

theorem checkKey_key (label : String) (key : Key) : checkKey label key.val = .ok key := by
  simp [checkKey, key.property]

theorem kill_eq (realObj decoyObj : B.Obj) (realKey decoyKey : Key) (o : KillOptions) (nonceD nonceR : Nonce)
    (now : ℚ) :
    kill B realObj decoyObj realKey.val decoyKey.val o nonceD nonceR now () =
      match B.dumps realObj with
      | .error e => ⟨.error e, (), []⟩
      | .ok real => match B.dumps decoyObj with
        | .error e => ⟨.error e, (), [.dumps real]⟩
        | .ok decoy => match ttlPrefix now o.ttlSeconds with
          | .error e => ⟨.error e, (), [.dumps real, .dumps decoy]⟩
          | .ok ttlRaw =>
            let ctD := B.gcmEncrypt decoyKey nonceD.val (ttlRaw ++ B.compress decoy) o.hwid
            let ctR := B.gcmEncrypt realKey nonceR.val (ttlRaw ++ B.compress real) o.hwid
            ⟨pack B nonceD.val ctD nonceR.val ctR (flagsOf o) o.stealth decoyKey, (), [.dumps real, .dumps decoy,
              .encrypt decoyKey nonceD o.hwid (ttlRaw ++ B.compress decoy) ctD,
              .encrypt realKey nonceR o.hwid (ttlRaw ++ B.compress real) ctR]⟩ := by
  cases hr : B.dumps realObj with
  | error e => simp [kill, checkKey_key, dumps, hr]
  | ok real =>
    cases hd : B.dumps decoyObj with
    | error e => simp [kill, checkKey_key, dumps, hr, hd]
    | ok decoy =>
      cases ht : ttlPrefix now o.ttlSeconds <;> simp [kill, checkKey_key, dumps, hr, hd, ht, aesEncrypt]

/-- The block of a `kill` under `key`: a nonce and what AES-GCM made of the plaintext. -/
structure Block (B : Backend) where
  key : Key
  nonce : Nonce
  hwid : Option Bytes
  plaintext : Bytes

def Block.ciphertext (b : Block B) : Bytes := B.gcmEncrypt b.key b.nonce.val b.plaintext b.hwid

def Block.bytes (b : Block B) : Bytes := b.nonce.val ++ b.ciphertext

/-- The call that sealed the block. -/
def Block.call (b : Block B) : Call := .encrypt b.key b.nonce b.hwid b.plaintext b.ciphertext

/-- The flags byte of the envelope. -/
def envelopeFlags (o : KillOptions) : UInt8 := if o.stealth then flagsOf o ||| flagStealth else flagsOf o

/-- What a `kill` that returned `E` has sealed: the two blocks, in the order of the envelope. -/
structure Killed (B : Backend) (realObj decoyObj : B.Obj) (realKey decoyKey : Key) (o : KillOptions)
    (nonceD nonceR : Nonce) (now : ℚ) (real decoy ttlRaw : Bytes) (bd br : Block B) (E : Bytes) : Prop where
  realDumped : B.dumps realObj = .ok real
  decoyDumped : B.dumps decoyObj = .ok decoy
  timed : ttlPrefix now o.ttlSeconds = .ok ttlRaw
  decoyBlock : bd = ⟨decoyKey, nonceD, o.hwid, ttlRaw ++ B.compress decoy⟩
  realBlock : br = ⟨realKey, nonceR, o.hwid, ttlRaw ++ B.compress real⟩
  fits : bd.bytes.length < 65536
  envelope : E = header (if o.stealth then applyStealthMagic magic (stealthMask B decoyKey) else magic) version
    (envelopeFlags o) bd.bytes.length ++ (bd.bytes ++ br.bytes)

theorem pack_ok_iff {nonceD ctD nonceR ctR E : Bytes} {f : UInt8} {stealth : Bool} {key : Key} :
    pack B nonceD ctD nonceR ctR f stealth key = .ok E ↔ (nonceD ++ ctD).length < 65536 ∧
      E = header (if stealth then applyStealthMagic magic (stealthMask B key) else magic) version
        (if stealth then f ||| flagStealth else f) (nonceD ++ ctD).length ++ ((nonceD ++ ctD) ++ (nonceR ++ ctR)) := by
  simp only [pack, bind_eq_ok, packHeader_ok_iff]
  refine ⟨?_, ?_⟩
  · intro hx
    obtain ⟨h, ⟨hn, rfl⟩, hE⟩ := hx
    refine ⟨hn, ?_⟩
    rw [← Except.ok.inj hE]
    simp only [List.append_assoc]
  · intro hx
    obtain ⟨hn, rfl⟩ := hx
    refine ⟨_, ⟨hn, rfl⟩, ?_⟩
    simp only [List.append_assoc, pure_eq_ok]

variable {realObj decoyObj : B.Obj} {realKey decoyKey : Key} {o : KillOptions} {nonceD nonceR : Nonce} {now : ℚ}
  {E : Bytes}

theorem killed_of_kill (h : (kill B realObj decoyObj realKey.val decoyKey.val o nonceD nonceR now ()).result = .ok E) :
    ∃ real decoy ttlRaw bd br,
      Killed B realObj decoyObj realKey decoyKey o nonceD nonceR now real decoy ttlRaw bd br E ∧
        (kill B realObj decoyObj realKey.val decoyKey.val o nonceD nonceR now ()).calls =
          [.dumps real, .dumps decoy, bd.call, br.call] := by
  rw [kill_eq] at h ⊢
  cases hr : B.dumps realObj with
  | error e => simp only [hr] at h; cases h
  | ok real =>
  cases hd : B.dumps decoyObj with
  | error e => simp only [hr, hd] at h; cases h
  | ok decoy =>
  cases ht : ttlPrefix now o.ttlSeconds with
  | error e => simp only [hr, hd, ht] at h; cases h
  | ok ttlRaw =>
  simp only [hr, hd, ht] at h
  obtain ⟨hfits, hE⟩ := pack_ok_iff.mp h
  exact ⟨real, decoy, ttlRaw, _, _, ⟨hr, hd, ht, rfl, rfl, hfits, hE⟩, rfl⟩

/-! ## The envelope taken apart -/

/-- Each bit says what its option says. -/
theorem has_envelopeFlags (o : KillOptions) :
    has (envelopeFlags o) flagDual = true ∧ has (envelopeFlags o) flagTtl = o.ttlSeconds.isSome ∧
      has (envelopeFlags o) flagHwid = o.hwid.isSome := by
  unfold envelopeFlags flagsOf
  generalize o.ttlSeconds.isSome = a, o.hwid.isSome = b, o.stealth = c
  revert a b c
  decide

/-- The header checks of `revive`, one after the other. -/
theorem readBlocks_cases {m : Bytes} (hm : m.length = 4) (v f : UInt8) {len : Nat} (hl : len < 65536) (rest : Bytes)
    (hwid : Option Bytes) (stealth : Bool) :
    readBlocks (header m v f len ++ rest) hwid stealth =
      if (!stealth && m != magic) = true then .error (invalidMagic m)
      else if v ≠ version then .error (unsupportedVersion v)
      else if (!has f flagDual) = true then .error (corpseDeliveryError "Envelope is not a dual-key payload")
      else if (has f flagHwid && hwid.isNone) = true then
        .error (wrongRealmError "This payload is soul-bound; hwid= must be provided")
      else .ok (f, rest.take len, rest.drop len) := by
  have h8 := length_header hm v f len
  have hslice : slice headerSize (headerSize + len) (header m v f len ++ rest) = rest.take len := by
    simp only [slice, ← h8, List.take_length_add_append, List.drop_left]
  have hdrop : (header m v f len ++ rest).drop (headerSize + len) = rest.drop len := by
    rw [← h8, List.drop_length_add_append]
  simp only [readBlocks, unpackHeader_header hm v f hl, ok_bind, hslice, hdrop]
  rfl

/-- What `revive` reads of an envelope, by its header. -/
theorem readBlocks_header {m : Bytes} (hm : m.length = 4) (f : UInt8) {len : Nat} (hl : len < 65536) (rest : Bytes)
    {hwid : Option Bytes} {stealth : Bool} (hmagic : stealth = true ∨ m = magic) (hdual : has f flagDual = true)
    (hhwid : has f flagHwid = true → hwid.isSome = true) :
    readBlocks (header m version f len ++ rest) hwid stealth = .ok (f, rest.take len, rest.drop len) := by
  have h1 : (!stealth && m != magic) = false := by
    rcases hmagic with rfl | rfl <;> simp
  have h2 : (has f flagHwid && hwid.isNone) = false := by
    cases hb : has f flagHwid with
    | false => rfl
    | true => simpa using hhwid hb
  simp only [readBlocks_cases hm version f hl, h1, h2, hdual, Bool.false_eq_true, if_false, Bool.not_true, ne_eq,
    not_true_eq_false]

/-- The blocks of a killed envelope are found where they were put, also under another
    flags byte that the reader takes. -/
theorem readBlocks_killed {real decoy ttlRaw : Bytes} {bd br : Block B}
    (h : Killed B realObj decoyObj realKey decoyKey o nonceD nonceR now real decoy ttlRaw bd br E) {f : UInt8}
    {hwid : Option Bytes} (hdual : has f flagDual = true) (hhwid : has f flagHwid = true → hwid.isSome = true) :
    readBlocks (header (if o.stealth then applyStealthMagic magic (stealthMask B decoyKey) else magic) version f
      bd.bytes.length ++ (bd.bytes ++ br.bytes)) hwid o.stealth = .ok (f, bd.bytes, br.bytes) := by
  have hmagic : o.stealth = true ∨
      (if o.stealth then applyStealthMagic magic (stealthMask B decoyKey) else magic) = magic := by
    cases o.stealth with
    | true => exact .inl rfl
    | false => exact .inr rfl
  rw [readBlocks_header (length_packedMagic B decoyKey o.stealth) f h.fits _ hmagic hdual hhwid, List.take_left,
    List.drop_left]

theorem Killed.blocks {real decoy ttlRaw : Bytes} {bd br : Block B}
    (h : Killed B realObj decoyObj realKey decoyKey o nonceD nonceR now real decoy ttlRaw bd br E) :
    readBlocks E o.hwid o.stealth = .ok (envelopeFlags o, bd.bytes, br.bytes) := by
  obtain ⟨hdual, -, hhwid⟩ := has_envelopeFlags o
  rw [h.envelope]
  exact readBlocks_killed h hdual (by rw [hhwid]; exact id)

theorem Block.split (b : Block B) :
    (b.bytes.take nonceLength, b.bytes.drop nonceLength) = (b.nonce.val, b.ciphertext) := by
  have hn : b.nonce.val.length = nonceLength := b.nonce.property
  rw [Block.bytes, List.take_left' hn, List.drop_left' hn]

/-! ## The trial decryption -/

section
variable {key : Key} {hwid : Option Bytes} {n c : Bytes} {blocks : List (Bytes × Bytes)}

theorem trial_opens {p : Bytes} (h : B.gcmDecrypt key n c hwid = .ok p) :
    trial B key hwid ((n, c) :: blocks) () = ⟨.ok (some p), (), [.decrypt key n c hwid (.ok p)]⟩ := by
  simp [trial, aesDecrypt, h]

theorem trial_skips (h : B.gcmDecrypt key n c hwid = .error .invalidTag) :
    trial B key hwid ((n, c) :: blocks) () =
      (trial B key hwid blocks ()).after [.decrypt key n c hwid (.error .invalidTag)] := by
  simp [trial, aesDecrypt, h]

theorem trial_raises {e : PyErr} (h : B.gcmDecrypt key n c hwid = .error e) (he : e ≠ .invalidTag) :
    trial B key hwid ((n, c) :: blocks) () = ⟨.error e, (), [.decrypt key n c hwid (.error e)]⟩ := by
  cases e with
  | invalidTag => exact absurd rfl he
  | _ => simp [trial, aesDecrypt, h, Method.raise]

/-- A plaintext that the trial finds is one that AES-GCM opened in it; and it seals nothing. -/
theorem trial_calls (key : Key) (hwid : Option Bytes) (blocks : List (Bytes × Bytes)) :
    (∀ p, (trial B key hwid blocks ()).result = .ok (some p) →
      ∃ n c, .decrypt key n c hwid (.ok p) ∈ (trial B key hwid blocks ()).calls) ∧
    ∀ k n a p c, .encrypt k n a p c ∉ (trial B key hwid blocks ()).calls := by
  induction blocks with
  | nil =>
    refine ⟨?_, ?_⟩
    · intro p h
      cases h
    · intro k n a p c h
      cases h
  | cons block blocks ih =>
    obtain ⟨n, c⟩ := block
    obtain ⟨hfound, hnone⟩ := ih
    cases hg : B.gcmDecrypt key n c hwid with
    | ok p =>
      rw [trial_opens hg]
      refine ⟨?_, by simp⟩
      intro q hq
      obtain rfl : p = q := by simpa using hq
      exact ⟨n, c, List.mem_singleton_self _⟩
    | error e =>
      by_cases he : e = .invalidTag
      · subst he
        rw [trial_skips hg]
        refine ⟨?_, by simpa using hnone⟩
        intro p hp
        obtain ⟨n', c', hin⟩ := hfound p hp
        exact ⟨n', c', List.mem_append_right _ hin⟩
      · rw [trial_raises hg he]
        exact ⟨by simp, by simp⟩

end

/-! ## `revive` -/

/-- What `revive` tries its key on. -/
def candidates (decoyBlock realBlock : Bytes) : List (Bytes × Bytes) :=
  [(decoyBlock.take nonceLength, decoyBlock.drop nonceLength), (realBlock.take nonceLength, realBlock.drop nonceLength)]

/-- The pickle in a plaintext that the trial found. -/
def contents (B : Backend) (flags : UInt8) (now : ℚ) (plaintext : Bytes) : Except PyErr Bytes := do
  let plaintext ← stage flags flagTtl (stripTtl now) plaintext
  B.decompress plaintext

/-- What `revive` does with the outcome of its trial. -/
def unearth (B : Backend) (flags : UInt8) (now : ℚ) : Option Bytes → Py Unit B.Obj
  | none => Method.raise noMatch
  | some plaintext => do
    let plaintext ← Method.ofExcept (stage flags flagTtl (stripTtl now) plaintext)
    let decompressed ← Method.ofExcept (B.decompress plaintext)
    loads B decompressed

section
variable {corpse : Bytes} {key : Key} {hwid : Option Bytes} {stealth : Bool} {flags : UInt8}
  {decoyBlock realBlock : Bytes} {cs : List Call}

/-- A call whose blocks are read is its trial, and then the plaintext found or the refusal. -/
theorem revive_eq (h : readBlocks corpse hwid stealth = .ok (flags, decoyBlock, realBlock)) :
    revive B corpse key.val hwid stealth now () =
      (trial B key hwid (candidates decoyBlock realBlock) ()).andThen (unearth B flags now) := by
  simp only [revive, checkKey_key, Method.bind_apply, Method.ofExcept_apply, Out.andThen_ok, Out.after_nil, h,
      candidates]
  rfl

theorem revive_none (h : readBlocks corpse hwid stealth = .ok (flags, decoyBlock, realBlock))
    (ht : trial B key hwid (candidates decoyBlock realBlock) () = ⟨.ok none, (), cs⟩) :
    revive B corpse key.val hwid stealth now () = ⟨.error noMatch, (), cs⟩ := by
  rw [revive_eq h, ht]
  simp [unearth, Method.raise]

theorem revive_found (h : readBlocks corpse hwid stealth = .ok (flags, decoyBlock, realBlock)) {p : Bytes}
    (ht : trial B key hwid (candidates decoyBlock realBlock) () = ⟨.ok (some p), (), cs⟩) :
    revive B corpse key.val hwid stealth now () = match contents B flags now p with
      | .ok data => ⟨B.loads data, (), cs ++ [.loads data]⟩
      | .error e => ⟨.error e, (), cs⟩ := by
  rw [revive_eq h, ht, contents]
  simp only [Out.andThen, unearth]
  cases hs : stage flags flagTtl (stripTtl now) p with
  | error e => simp
  | ok q =>
    cases hd : B.decompress q with
    | error e => simp [hd]
    | ok data => simp [hd, loads]

theorem revive_raises (h : readBlocks corpse hwid stealth = .ok (flags, decoyBlock, realBlock)) {e : PyErr}
    (ht : trial B key hwid (candidates decoyBlock realBlock) () = ⟨.error e, (), cs⟩) :
    revive B corpse key.val hwid stealth now () = ⟨.error e, (), cs⟩ := by
  rw [revive_eq h, ht]
  rfl

/-- The calls of `revive` are those of its trial, and then the load of what it found. -/
theorem revive_calls (h : readBlocks corpse hwid stealth = .ok (flags, decoyBlock, realBlock)) :
    ∃ later, (revive B corpse key.val hwid stealth now ()).calls =
      (trial B key hwid (candidates decoyBlock realBlock) ()).calls ++ later := by
  cases ht : trial B key hwid (candidates decoyBlock realBlock) () with
  | mk r s cs =>
    cases r with
    | error e => exact ⟨[], by rw [revive_raises h ht, List.append_nil]⟩
    | ok found =>
      cases found with
      | none => exact ⟨[], by rw [revive_none h ht, List.append_nil]⟩
      | some p =>
        rw [revive_found h ht]
        cases contents B flags now p with
        | error e => exact ⟨[], (List.append_nil _).symm⟩
        | ok data => exact ⟨[.loads data], rfl⟩

theorem ideal_kill (bd br : Block B) (real decoy : Bytes) :
    Ideal [.dumps real, .dumps decoy, bd.call, br.call] := by
  have hopens : ∀ c ∈ [Call.dumps real, .dumps decoy, bd.call, br.call], ∀ x, ¬ c.Opens x := by
    intro c hc x
    simp only [List.mem_cons, List.not_mem_nil, or_false] at hc
    rcases hc with rfl | rfl | rfl | rfl <;> exact id
  exact Ideal.nil.append hopens

/-- The calls of a `revive` are ideal that opens a block sealed before, after calls that
    opened nothing. -/
theorem ideal_revive (hread : readBlocks corpse hwid stealth = .ok (flags, decoyBlock, realBlock)) {past : List Call}
    (hpast : Ideal past) {b : Block B} (hb : b.call ∈ past) (hkey : b.key = key)
    (hhwid : b.hwid.getD [] = hwid.getD []) {skipped : List Call} (hskip : ∀ c ∈ skipped, ∀ x, ¬ c.Opens x)
    (ht : trial B key hwid (candidates decoyBlock realBlock) () = ⟨.ok (some b.plaintext), (),
      skipped ++ [.decrypt key b.nonce.val b.ciphertext hwid (.ok b.plaintext)]⟩) (now : ℚ) :
    Ideal (past ++ (revive B corpse key.val hwid stealth now ()).calls) := by
  have hcall : .encrypt key b.nonce b.hwid b.plaintext b.ciphertext ∈ past ++ skipped := by
    rw [← hkey]
    exact List.mem_append_left _ hb
  have hskipped : Ideal (past ++ skipped) := hpast.append hskip
  have hopen := hskipped.snoc_open hcall hhwid
  rw [List.append_assoc] at hopen
  rw [revive_found hread ht]
  cases contents B flags now b.plaintext with
  | error e => exact hopen
  | ok data =>
    show Ideal (_ ++ (_ ++ [Call.loads data]))
    rw [← List.append_assoc]
    exact hopen.snoc fun x => id

/-- An object comes only out of a block that AES-GCM opened, with the associated data given. -/
theorem revive_opened (corpse key : Bytes) (hwid : Option Bytes) (stealth : Bool) (now : ℚ) :
    (∀ obj, (revive B corpse key hwid stealth now ()).result = .ok obj →
      ∃ k n c p, .decrypt k n c hwid (.ok p) ∈ (revive B corpse key hwid stealth now ()).calls) ∧
    ∀ k n a p c, .encrypt k n a p c ∉ (revive B corpse key hwid stealth now ()).calls := by
  by_cases hlen : key.length = 32
  · obtain ⟨k, rfl⟩ : ∃ k : Key, k.val = key := ⟨⟨key, hlen⟩, rfl⟩
    cases hb : readBlocks corpse hwid stealth with
    | error e => simp [revive, checkKey_key, hb]
    | ok found =>
      obtain ⟨flags, decoyBlock, realBlock⟩ := found
      obtain ⟨hfound, hnone⟩ := trial_calls (B := B) k hwid (candidates decoyBlock realBlock)
      cases ht : trial B k hwid (candidates decoyBlock realBlock) () with
      | mk r s cs =>
        rw [ht] at hfound hnone
        cases r with
        | error e => rw [revive_raises hb ht]; exact ⟨by simp, hnone⟩
        | ok found =>
          cases found with
          | none => rw [revive_none hb ht]; exact ⟨by simp, hnone⟩
          | some p =>
            obtain ⟨n, c, hin⟩ := hfound p rfl
            rw [revive_found hb ht]
            cases contents B flags now p with
            | error e => exact ⟨by simp, hnone⟩
            | ok data =>
              refine ⟨?_, by simpa using hnone⟩
              intro obj _
              exact ⟨k, n, c, p, List.mem_append_left _ hin⟩
  · simp [revive, checkKey, hlen]

end

/-! ## A killed envelope -/

/-- Not past the expiry that `kill` packed at time `now`. -/
def Fresh (o : KillOptions) (now now' : ℚ) : Prop :=
  ∀ ttl ∈ o.ttlSeconds, now' ≤ ((pyInt now + ttl : Int) : ℚ)

theorem ttlPrefix_some {now : ℚ} {ttl : Int} {raw : Bytes} (h : ttlPrefix now (some ttl) = .ok raw) :
    packTtl now ttl = .ok raw := by
  simp only [ttlPrefix] at h
  split at h
  · cases h
  · exact h

/-- What `kill` packed has not expired yet. -/
theorem fresh_of_ttlPrefix {ttlRaw : Bytes} (h : ttlPrefix now o.ttlSeconds = .ok ttlRaw) : Fresh o now now := by
  intro ttl ht
  rw [Option.mem_def.mp ht] at h
  simp only [ttlPrefix] at h
  split at h
  · cases h
  · exact now_le_expiry now (by omega)

section
variable {real decoy ttlRaw : Bytes} {bd br : Block B}

/-- Before the expiry, the pickle behind the time stamp is found in it. -/
theorem contents_fresh (hzlib : B.ZlibInverts) (ht : ttlPrefix now o.ttlSeconds = .ok ttlRaw) {now' : ℚ}
    (hfresh : Fresh o now now') (pickled : Bytes) :
    contents B (envelopeFlags o) now' (ttlRaw ++ B.compress pickled) = .ok pickled := by
  obtain ⟨-, fttl, -⟩ := has_envelopeFlags o
  have hstage : stage (envelopeFlags o) flagTtl (stripTtl now') (ttlRaw ++ B.compress pickled) =
      .ok (B.compress pickled) := by
    rw [stage, fttl]
    cases httl : o.ttlSeconds with
    | none =>
      rw [httl] at ht
      obtain rfl : [] = ttlRaw := Except.ok.inj ht
      rfl
    | some ttl =>
      rw [httl] at ht
      exact stripTtl_packTtl (ttlPrefix_some ht) (hfresh ttl httl)
  rw [contents, hstage, ok_bind, hzlib]

/-- Past the expiry, nothing is. -/
theorem contents_rotten (ht : ttlPrefix now o.ttlSeconds = .ok ttlRaw) {now' : ℚ} (hpast : ¬ Fresh o now now')
    (compressed : Bytes) :
    ∃ e, contents B (envelopeFlags o) now' (ttlRaw ++ compressed) = .error e ∧ e.isA .rottenCorpse = true := by
  obtain ⟨-, fttl, -⟩ := has_envelopeFlags o
  cases httl : o.ttlSeconds with
  | none =>
    refine absurd ?_ hpast
    intro ttl h
    rw [httl] at h
    cases h
  | some ttl =>
    have hlate : ((pyInt now + ttl : Int) : ℚ) < now' := by
      refine not_le.mp fun hle => hpast ?_
      intro ttl' h
      rw [httl] at h
      obtain rfl := Option.some.inj h
      exact hle
    rw [httl] at ht fttl
    obtain ⟨e, he, hkind⟩ := stripTtl_rotten (ttlPrefix_some ht) hlate compressed
    refine ⟨e, ?_, hkind⟩
    rw [contents, stage, fttl, Option.isSome_some, if_pos rfl, he, error_bind]

/-- Each block opens under its key. -/
theorem Killed.decoy_opens (haes : B.AesInverts)
    (h : Killed B realObj decoyObj realKey decoyKey o nonceD nonceR now real decoy ttlRaw bd br E) :
    B.gcmDecrypt decoyKey bd.nonce.val bd.ciphertext o.hwid = .ok bd.plaintext := by
  rw [Block.ciphertext, h.decoyBlock]
  exact haes _ _ _ _

theorem Killed.real_opens (haes : B.AesInverts)
    (h : Killed B realObj decoyObj realKey decoyKey o nonceD nonceR now real decoy ttlRaw bd br E) :
    B.gcmDecrypt realKey br.nonce.val br.ciphertext o.hwid = .ok br.plaintext := by
  rw [Block.ciphertext, h.realBlock]
  exact haes _ _ _ _

/-- The plaintext that a key finds in a killed envelope: the decoy's, the real one's, or none. -/
theorem trial_killed (haes : B.AesInverts) (hverdict : B.AesVerdict)
    (h : Killed B realObj decoyObj realKey decoyKey o nonceD nonceR now real decoy ttlRaw bd br E) (key : Key)
    (hideal : Ideal ([.dumps real, .dumps decoy, bd.call, br.call] ++
      (trial B key o.hwid (candidates bd.bytes br.bytes) ()).calls)) :
    ∃ found cs, trial B key o.hwid (candidates bd.bytes br.bytes) () = ⟨.ok found, (), cs⟩ ∧
      (key = decoyKey → found = some bd.plaintext) ∧
      (key = realKey → realKey ≠ decoyKey → found = some br.plaintext) ∧
      (key ≠ decoyKey → key ≠ realKey → found = none) := by
  have hcand : candidates bd.bytes br.bytes = [(bd.nonce.val, bd.ciphertext), (br.nonce.val, br.ciphertext)] := by
    rw [candidates, bd.split, br.split]
  have hkd : bd.key = decoyKey := by rw [h.decoyBlock]
  have hkr : br.key = realKey := by rw [h.realBlock]
  have hdecoy := h.decoy_opens haes
  have hreal := h.real_opens haes
  -- whatever opens in the trial is one of the two blocks, under its own key
  have hopened : ∀ n c p, .decrypt key n c o.hwid (.ok p) ∈
      (trial B key o.hwid (candidates bd.bytes br.bytes) ()).calls →
        (key = decoyKey ∧ p = bd.plaintext) ∨ (key = realKey ∧ p = br.plaintext) := by
    intro n c p hin
    obtain ⟨n', -, a', -, hmem⟩ := hideal.opened hin (trial_calls key o.hwid _).2
    simp only [Block.call, List.mem_cons, reduceCtorEq, Call.encrypt.injEq, List.not_mem_nil, or_false,
      false_or] at hmem
    rcases hmem with ⟨rfl, -, -, rfl, -⟩ | ⟨rfl, -, -, rfl, -⟩
    · exact .inl ⟨hkd, rfl⟩
    · exact .inr ⟨hkr, rfl⟩
  rw [hcand] at hopened ⊢
  cases hd : B.gcmDecrypt key bd.nonce.val bd.ciphertext o.hwid with
  | ok p =>
    rw [trial_opens hd] at hopened ⊢
    have hfirst := hopened bd.nonce.val bd.ciphertext p (List.mem_singleton_self _)
    refine ⟨some p, _, rfl, ?_, ?_, ?_⟩
    · intro heq
      subst heq
      rw [Except.ok.inj (hd.symm.trans hdecoy)]
    · intro hk hne
      rcases hfirst with ⟨hk', -⟩ | ⟨-, hp⟩
      · exact absurd (hk.symm.trans hk') hne
      · rw [hp]
    · intro h1 h2
      rcases hfirst with ⟨hk, -⟩ | ⟨hk, -⟩
      · exact absurd hk h1
      · exact absurd hk h2
  | error e =>
    obtain rfl := hverdict _ _ _ _ _ hd
    have hnotd : key ≠ decoyKey := by
      intro heq
      subst heq
      rw [hdecoy] at hd
      cases hd
    rw [trial_skips hd] at hopened ⊢
    cases hr : B.gcmDecrypt key br.nonce.val br.ciphertext o.hwid with
    | ok p =>
      rw [trial_opens hr] at hopened ⊢
      refine ⟨some p, _, rfl, fun hk => absurd hk hnotd, ?_, ?_⟩
      · intro heq _
        subst heq
        rw [Except.ok.inj (hr.symm.trans hreal)]
      · intro _ h2
        rcases hopened br.nonce.val br.ciphertext p (by simp) with ⟨hk, -⟩ | ⟨hk, -⟩
        · exact absurd hk hnotd
        · exact absurd hk h2
    | error e =>
      obtain rfl := hverdict _ _ _ _ _ hr
      rw [trial_skips hr]
      refine ⟨none, _, rfl, fun hk => absurd hk hnotd, ?_, fun _ _ => rfl⟩
      intro heq _
      subst heq
      rw [hreal] at hr
      cases hr

end

end Amcrypt.Doppelganger
