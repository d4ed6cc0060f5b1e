/-
  Amcrypt.Stream.KeySeparation — the keys of one session, and streams under a key that two
  rituals agreed on.

  A session that begins with a ritual derives every key with HKDF: the first under the label
  of the ritual, each later one under that of the ratchet with its step behind it
  (`Derived`). `CollisionFree` asks that HKDF maps no two of these inputs to one key. Then no
  key comes back (`agreed_noRepeat`), and

  - `chunk_keys_distinct`: of the encryptions that a session is recorded to make
    (`Session.recorded`), no two that became wire chunks are under one key, however sealing
    and opening alternate, and whatever `os.urandom` draws: a nonce may repeat.
  - `ritual_stream`: two parties of any network that took each other's public keys hold one
    key, and a receiver under it accepts exactly the sender's chunks in order, whoever owns
    the wire.
-/

import Amcrypt.Ritual.Network
import Amcrypt.Stream.Channel
import Amcrypt.Stream.Secrecy

namespace Amcrypt.Stream

open Lib Ritual

variable {B : Backend} {key : Key} {raw : Bytes}

/-- The key that a ritual derives from what X25519 gave it. -/
def agreed (B : Backend) (raw : Bytes) : Key := B.hkdf noSalt agreementInfo raw

/-- The inputs of HKDF (salt, label, key material) in a session under the agreed key. -/
inductive Derived (B : Backend) (raw : Bytes) : Bytes × Bytes × Bytes → Prop
  | agreement : Derived B raw (noSalt, agreementInfo, raw)
  | ratchet (n : Nat) (s : Streamer) : chain (ratcheted B) ⟨agreed B raw, true, 0⟩ n = some s → n < 2 ^ 64 →
      Derived B raw (s.key.val, ratchetInfo ++ BigEndian.encode 8 n, s.key.val)

/-- No two of these give one key. -/
def CollisionFree (B : Backend) (raw : Bytes) : Prop :=
  ∀ x y, Derived B raw x → Derived B raw y → B.hkdf x.1 x.2.1 x.2.2 = B.hkdf y.1 y.2.1 y.2.2 → x = y

/-! ## No key comes back -/

/-- The input whose key a session seals its chunk `n` under. -/
inductive InputOf (B : Backend) (raw : Bytes) : Nat → Bytes × Bytes × Bytes → Prop
  | first : InputOf B raw 0 (noSalt, agreementInfo, raw)
  | later (n : Nat) (key : Bytes) : n < 2 ^ 64 → InputOf B raw (n + 1) (key, ratchetInfo ++ BigEndian.encode 8 n, key)

theorem agreementInfo_ne (step : Nat) : agreementInfo ≠ ratchetInfo ++ BigEndian.encode 8 step := by
  intro h
  have hlen := congrArg List.length h
  rw [List.length_append, BigEndian.length_encode] at hlen
  exact absurd hlen (by decide)

/-- The label tells the place. -/
theorem InputOf.place {i j : Nat} {x : Bytes × Bytes × Bytes} (hi : InputOf B raw i x) (hj : InputOf B raw j x) :
    i = j := by
  cases hi with
  | first =>
    generalize hx : (noSalt, agreementInfo, raw) = x at hj
    cases hj with
    | first => rfl
    | later n key _ => exact absurd (Prod.mk.inj (Prod.mk.inj hx).2).1 (agreementInfo_ne n)
  | later m key hm =>
    generalize hx : (key, ratchetInfo ++ BigEndian.encode 8 m, key) = x at hj
    cases hj with
    | first => exact absurd (Prod.mk.inj (Prod.mk.inj hx).2).1.symm (agreementInfo_ne m)
    | later n key' hn =>
      have hlabel := List.append_cancel_left (Prod.mk.inj (Prod.mk.inj hx).2).1
      rw [BigEndian.encode_injective hm hn hlabel]

theorem input_chain {n : Nat} {s : Streamer} (h : chain (ratcheted B) ⟨agreed B raw, true, 0⟩ n = some s) :
    ∃ x, InputOf B raw n x ∧ Derived B raw x ∧ s.key = B.hkdf x.1 x.2.1 x.2.2 := by
  cases n with
  | zero =>
    obtain rfl := Option.some.inj h
    exact ⟨_, .first, .agreement, rfl⟩
  | succ n =>
    obtain ⟨t, ht, hr⟩ := Option.bind_eq_some_iff.mp h
    obtain ⟨hratchet, hstep⟩ := step_of_chain ht
    obtain ⟨hstep, -⟩ := hstep rfl
    rw [ratcheted, if_pos hratchet, hstep] at hr
    cases hk : ratchetKey B t.key n with
    | error e => rw [hk] at hr; cases hr
    | ok newKey =>
      rw [hk] at hr
      obtain rfl := Option.some.inj hr
      simp only [ratchetKey, packUInt] at hk
      split at hk
      · rename_i hlt
        exact ⟨_, .later n t.key.val hlt, .ratchet n t ht hlt, (Except.ok.inj hk).symm⟩
      · cases hk

theorem agreed_noRepeat (hfree : CollisionFree B raw) :
    NoRepeat (ratcheted B) ⟨agreed B raw, true, 0⟩ Streamer.key := by
  intro i j s s' hi hj hkey
  obtain ⟨x, hx, hdx, hkx⟩ := input_chain hi
  obtain ⟨y, hy, hdy, hky⟩ := input_chain hj
  obtain rfl := hfree x y hdx hdy (hkx.symm.trans (hkey.trans hky))
  exact hx.place hy

/-! ## One session -/

/-- A chunk sealed later is at a later place. -/
theorem place_lt {log : List Event} {i j : Nat} (hij : i < j) {e : Event} {p w : Bytes} (hi : log[i]? = some e)
    (he : e.sealed = some (p, w)) : place log i < place log j := by
  have hlt := (List.getElem?_eq_some_iff.mp hi).1
  have hget := (List.getElem?_eq_some_iff.mp hi).2
  have hpre : log.take (i + 1) <+: log.take j := List.take_prefix_take_left hij
  have hcount : (log.take (i + 1)).countP Event.moves = place log i + 1 := by
    rw [List.take_succ_eq_append_getElem hlt, List.countP_append, hget, List.countP_singleton,
      if_pos (Event.moves_of_sealed he)]
    rfl
  have hle : (log.take (i + 1)).countP Event.moves ≤ place log j := hpre.sublist.countP_le
  omega

/-- The entries that a call adds to the log, with the calls it made into AES-GCM. -/
def Act.record (B : Backend) (a : Act) (s : Session) : List (Event × List Call) :=
  ((a.run B s).self.log.drop s.log.length).map fun e => (e, (a.run B s).calls)

/-- A run's log with the calls behind each entry. -/
def Session.recorded (B : Backend) (s : Session) : List Act → List (Event × List Call)
  | [] => []
  | a :: acts => a.record B s ++ Session.recorded B (a.run B s).self acts

/-- The iteration encrypted `p` under `k` and nothing else, and yielded it as the wire chunk `w`. -/
def EncryptedAs (B : Backend) (k : Key) (p w : Bytes) (calls : List Call) : Prop :=
  ∃ n : Nonce, calls = [.encrypt k n none p (B.gcmEncrypt k n.val p none)] ∧
    w = wireChunk n (B.gcmEncrypt k n.val p none)

/-- The record is the log, and each of its wire chunks was encrypted under the key of its place. -/
structure Traced (B : Backend) (start : Streamer) (record : List (Event × List Call)) (s : Session) : Prop where
  log : record.map Prod.fst = s.log
  trail : Trail B start s.log s.self
  keys : ∀ i x p w, record[i]? = some x → x.1.sealed = some (p, w) →
    ∃ t, chain (ratcheted B) start (place s.log i) = some t ∧ EncryptedAs B t.key p w x.2

theorem encrypted_iteration {x : Item} {s : Streamer} {p w : Bytes}
    (h : Event.sealed (x, (iteration B x s).result) = some (p, w)) :
    EncryptedAs B s.key p w (iteration B x s).calls := by
  cases x with
  | wire data => cases h
  | chunk c n =>
    have hx := sealChunk_exit (B := B) c n s
    rw [iteration_chunk] at h ⊢
    generalize sealChunk B c n s = out at hx h
    cases hx with
    | skipped _ => cases h
    | refused ct _ _ _ => cases h
    | sealed ct s' _ hct _ _ =>
      subst hct
      obtain ⟨rfl, rfl⟩ : c = p ∧ wireChunk n _ = w := by simpa [Event.sealed] using h
      exact ⟨n, rfl, rfl⟩

theorem Traced.act {start : Streamer} {record : List (Event × List Call)} {s : Session}
    (h : Traced B start record s) {a : Act} (ha : a ≠ .destroy) :
    Traced B start (record ++ a.record B s) (a.run B s).self := by
  have hlen : record.length = s.log.length := by rw [← h.log, List.length_map]
  have hsame : ∀ {out : Out PyErr Call Session Unit}, out.self.log = s.log → out.self.self = s.self →
      Traced B start (record ++ (out.self.log.drop s.log.length).map fun e => (e, out.calls)) out.self := by
    intro out hlog hself
    rw [hlog, List.drop_length, List.map_nil, List.append_nil]
    refine ⟨by rw [hlog]; exact h.log, by rw [hlog, hself]; exact h.trail, ?_⟩
    rw [hlog]
    exact h.keys
  unfold Act.record
  cases a with
  | sealing chunks => exact hsame rfl rfl
  | sealingFinal lastChunk nonce => exact hsame rfl rfl
  | opening wires => exact hsame rfl rfl
  | destroy => exact absurd rfl ha
  | next i =>
    have hx := next_advance (B := B) i s
    rw [Act.run]
    generalize Session.next B i s = out at hx
    cases hx with
    | idle => exact hsame rfl rfl
    | ran x gens _ _ =>
      dsimp only
      rw [List.drop_left, List.map_singleton]
      refine ⟨by rw [List.map_append, h.log]; rfl, h.trail.iteration x, ?_⟩
      intro j y p w hj hy
      rcases getElem?_snoc hj with ⟨hlt, hj⟩ | ⟨rfl, rfl⟩
      · rw [place, List.take_append_of_le_length (by omega)]
        exact h.keys j y p w hj hy
      · rw [hlen, place, List.take_left]
        exact ⟨s.self, h.trail.position, encrypted_iteration hy⟩

theorem Traced.after {start : Streamer} {acts : List Act} (hlive : .destroy ∉ acts) {record : List (Event × List Call)}
    {s : Session} (h : Traced B start record s) :
    Traced B start (record ++ Session.recorded B s acts) (s.after B acts) := by
  induction acts generalizing s record with
  | nil => simpa [Session.recorded] using h
  | cons a acts ih =>
    obtain ⟨ha, hlive⟩ := not_or.mp (mt List.mem_cons.mpr hlive)
    have hrest := ih hlive (h.act (Ne.symm ha))
    rw [List.append_assoc] at hrest
    exact hrest

/-- Whatever a session sealed and opened, under whatever nonces: each of its wire chunks was
    made by the one encryption recorded for it, and no two of these are under one key. -/
theorem chunk_keys_distinct (hchain : NoRepeat (ratcheted B) ⟨key, true, 0⟩ Streamer.key) {acts : List Act}
    (hlive : .destroy ∉ acts) :
    let recorded := (Session.fresh key true).recorded B acts
    recorded.map Prod.fst = ((Session.fresh key true).after B acts).log ∧
    ∀ (i j : Nat) (x x' : Event × List Call) (p p' w w' : Bytes), i < j →
      recorded[i]? = some x → x.1.sealed = some (p, w) →
      recorded[j]? = some x' → x'.1.sealed = some (p', w') →
      ∃ k k', EncryptedAs B k p w x.2 ∧ EncryptedAs B k' p' w' x'.2 ∧ k ≠ k' := by
  intro recorded
  have hfresh : Traced B ⟨key, true, 0⟩ [] (Session.fresh key true) := ⟨rfl, Trail.nil _, by simp⟩
  have htraced := hfresh.after hlive
  rw [List.nil_append] at htraced
  refine ⟨htraced.log, ?_⟩
  intro i j x x' p p' w w' hij hi hx hj hx'
  obtain ⟨t, ht, hcalls⟩ := htraced.keys i x p w hi hx
  obtain ⟨t', ht', hcalls'⟩ := htraced.keys j x' p' w' hj hx'
  refine ⟨t.key, t'.key, hcalls, hcalls', ?_⟩
  intro hkey
  have hentry : ((Session.fresh key true).after B acts).log[i]? = some x.1 := by
    rw [← htraced.log, List.getElem?_map, hi]
    rfl
  have hplace := place_lt hij hentry hx
  exact absurd (hchain _ _ t t' ht ht' hkey) (Nat.ne_of_lt hplace)

/-! ## From the ritual to the stream -/

variable {X : X25519} {keys : Keys X} {whose : Bytes → Name}

/-- Two parties that took each other's public keys, on any network and among any other
    parties, hold one key, of which both make a `Streamer`; a receiver under it accepts a piece
    exactly if it begins with the sender's next wire chunk, so what it yields is a prefix of
    what was sealed. -/
theorem ritual_stream (haes : B.AesInverts) (htag : B.AesTagged) (hraw : X.RawInverts) (hcomm : X.Commutes)
    (hwhose : Naming keys whose) (netActs : List NetAct) {i j : Nat}
    (hi : (Network.run B keys whose netActs).peers i = some (.party j))
    (hj : (Network.run B keys whose netActs).peers j = some (.party i))
    (hex : X.exchange (keys.party i) (X.publicKey (keys.party j)) = .ok raw) (hfree : CollisionFree B raw)
    (acts : List LinkAct) (hideal : Ideal ((Link.fresh (agreed B raw)).after B acts).calls) :
    (Network.run B keys whose netActs).rituals i = ⟨none, some (agreed B raw)⟩ ∧
    (Network.run B keys whose netActs).rituals j = ⟨none, some (agreed B raw)⟩ ∧
    Streamer.new (agreed B raw).val = .ok (Link.fresh (agreed B raw)).sender.self ∧
    Streamer.new (agreed B raw).val = .ok (Link.fresh (agreed B raw)).receiver.self ∧
    ((Link.fresh (agreed B raw)).after B acts).yielded <+:
      ((Link.fresh (agreed B raw)).after B acts).sealed.map Prod.fst ∧
    ∀ wire p, Ideal (((Link.fresh (agreed B raw)).after B acts).calls ++
        (openChunk B wire ((Link.fresh (agreed B raw)).after B acts).receiver.self).calls) →
      ((openChunk B wire ((Link.fresh (agreed B raw)).after B acts).receiver.self).result = .ok p ↔
        ∃ w, ((Link.fresh (agreed B raw)).after B acts).sealed[
            ((Link.fresh (agreed B raw)).after B acts).yielded.length]? = some (p, w) ∧ w <+: wire) := by
  have hchain := agreed_noRepeat hfree
  have hinv := run_inv (B := B) hwhose netActs
  have hkey : x25519SharedKey B X (keys.of (.party i)) (rawPower keys (.party j)) = .ok (agreed B raw) := by
    simp only [x25519SharedKey, Keys.of, rawPower, hraw _, ok_bind, hex, pure_eq_ok]
    rfl
  have hheld : ∀ a b, (Network.run B keys whose netActs).peers a = some b →
      (.party i = Name.party a ∧ .party j = b ∨ .party i = b ∧ .party j = Name.party a) →
      (Network.run B keys whose netActs).rituals a = ⟨none, some (agreed B raw)⟩ := by
    intro a b hpeer hsame
    have hr := hinv.rituals a
    rw [hpeer] at hr
    generalize (Network.run B keys whose netActs).rituals a = r at hr
    cases hr with
    | completed _ key' hk' => rw [denotes_once hraw hcomm hkey hk' hsame]
  refine ⟨hheld i _ hi (.inl ⟨rfl, rfl⟩), hheld j _ hj (.inr ⟨rfl, rfl⟩), new_eq_fresh_self _ true,
    new_eq_fresh_self _ true, ?_, ?_⟩
  · exact (Link.inv_after hchain acts hideal).aligned.agree
  · intro wire p hideal'
    exact Link.opens_iff haes htag hchain (Link.inv_after hchain acts hideal) (Link.framed_after hchain acts hideal)
      hideal'

/-! ## Runs -/

section
open Reference

/-- A stand-in for HKDF that puts the label's length and last bytes into the key. -/
def labelled (_salt info _ikm : Bytes) : Key :=
  ⟨(UInt8.ofNat info.length :: (info.drop (info.length - 8) ++ List.replicate 32 0x5a)).take 32, by simp⟩

/-- The reference with keys that tell their labels. -/
def labelling : Backend := { reference with hkdf := labelled }

theorem labelled_ratchet (salt ikm : Bytes) (step : Nat) :
    (labelled salt (ratchetInfo ++ BigEndian.encode 8 step) ikm).val =
      33 :: (BigEndian.encode 8 step ++ List.replicate 23 0x5a) := by
  have hdrop : (ratchetInfo ++ BigEndian.encode 8 step).drop
      ((ratchetInfo ++ BigEndian.encode 8 step).length - 8) = BigEndian.encode 8 step :=
    List.drop_left' (by simp)
  have hlen : UInt8.ofNat (ratchetInfo ++ BigEndian.encode 8 step).length = 33 := by
    rw [List.length_append, BigEndian.length_encode]
    rfl
  simp only [labelled, hdrop, hlen, List.take_succ_cons, List.take_append, BigEndian.length_encode]
  rw [List.take_of_length_le (by simp)]
  rfl

theorem labelling_collisionFree (raw : Bytes) : CollisionFree labelling raw := by
  have hfirst : ∀ n salt ikm, labelled noSalt agreementInfo raw ≠ labelled salt (ratchetInfo ++ BigEndian.encode 8 n) ikm := by
    intro n salt ikm h
    have hhead := congrArg (fun k => k.val.head?) h
    simp only [labelled_ratchet] at hhead
    have hlabel : (some 25 : Option UInt8) = some 33 := hhead
    exact absurd hlabel (by decide)
  intro x y hx hy h
  cases hx with
  | agreement =>
    cases hy with
    | agreement => rfl
    | ratchet n s _ _ => exact absurd h (hfirst n s.key.val s.key.val)
  | ratchet n s hs hn =>
    cases hy with
    | agreement => exact absurd h.symm (hfirst n s.key.val s.key.val)
    | ratchet m t ht hm =>
      have hval : (labelled s.key.val (ratchetInfo ++ BigEndian.encode 8 n) s.key.val).val =
          (labelled t.key.val (ratchetInfo ++ BigEndian.encode 8 m) t.key.val).val := congrArg Subtype.val h
      rw [labelled_ratchet, labelled_ratchet] at hval
      obtain rfl := BigEndian.encode_injective hn hm (List.append_cancel_right (List.cons.inj hval).2)
      obtain rfl := Option.some.inj (hs.symm.trans ht)
      rfl

/-- Two chunks under one nonce. -/
def repeatedNonce : List Act := [.sealing [([1], runNonce), ([2], runNonce)], .next 0, .next 0]

theorem chunk_keys_distinct_run : ∃ k k', k ≠ k' ∧
    EncryptedAs reference k [1] firstWire
      [.encrypt runKey runNonce none [1] (gcmEncrypt runKey runNonce.val [1] none)] ∧
    EncryptedAs reference k' [2] secondWire
      [.encrypt nextKey runNonce none [2] (gcmEncrypt nextKey runNonce.val [2] none)] := by
  have hrecord : (Session.fresh runKey true).recorded reference repeatedNonce =
      [(firstEvent, [.encrypt runKey runNonce none [1] (gcmEncrypt runKey runNonce.val [1] none)]),
        (secondEvent, [.encrypt nextKey runNonce none [2] (gcmEncrypt nextKey runNonce.val [2] none)])] := by
    decide +kernel
  have hlive : .destroy ∉ repeatedNonce := by simp [repeatedNonce]
  obtain ⟨-, hdistinct⟩ := chunk_keys_distinct (B := reference) reference_noRepeat hlive
  rw [hrecord] at hdistinct
  obtain ⟨k, k', hk, hk', hne⟩ := hdistinct 0 1 _ _ [1] [2] firstWire secondWire Nat.zero_lt_one rfl rfl rfl rfl
  exact ⟨k, k', hne, hk, hk'⟩

/-- What the first two parties of `fourParties` share. -/
def sharedRaw : Bytes := List.zipWith (· + ·) (9 :: (netKeys.party 0).val) (9 :: (netKeys.party 1).val)

def oneChunk : List LinkAct := [.sealing [([1], runNonce)], .sealNext 0]

theorem ritual_stream_run :
    (Network.run labelling netKeys netWhose fourParties).rituals 0 = ⟨none, some (agreed labelling sharedRaw)⟩ ∧
      ((Link.fresh (agreed labelling sharedRaw)).after labelling oneChunk).yielded <+:
        ((Link.fresh (agreed labelling sharedRaw)).after labelling oneChunk).sealed.map Prod.fst := by
  have hcalls : ((Link.fresh (agreed labelling sharedRaw)).after labelling oneChunk).calls =
      [.encrypt (agreed labelling sharedRaw) runNonce none [1]
        (gcmEncrypt (agreed labelling sharedRaw) runNonce.val [1] none)] := by
    decide +kernel
  have hideal : Ideal ((Link.fresh (agreed labelling sharedRaw)).after labelling oneChunk).calls := by
    rw [hcalls]
    exact Ideal.nil.snoc fun _ => id
  have hfree : CollisionFree labelling sharedRaw := labelling_collisionFree sharedRaw
  have hpeers : (Network.run labelling netKeys netWhose fourParties).peers 0 = some (.party 1) ∧
      (Network.run labelling netKeys netWhose fourParties).peers 1 = some (.party 0) := by
    decide +kernel
  obtain ⟨hritual, -, -, -, hprefix, -⟩ := ritual_stream (B := labelling) aesInverts aesTagged curve_rawInverts
    curve_commutes netWhose_naming fourParties hpeers.1 hpeers.2 (curve_exchange _ _) hfree oneChunk hideal
  exact ⟨hritual, hprefix⟩

end

end Amcrypt.Stream
