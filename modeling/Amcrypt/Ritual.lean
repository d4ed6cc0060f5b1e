/-
  Amcrypt.Ritual — the `DarkRitual` (`ritual.py`), and two of them that agree on a key.

  X25519 is code the repository calls: `X25519` is its interface, and a theorem that needs
  a law of it takes it as a hypothesis. A ritual destroys its private key when it derives
  the shared key, and its public key is computed from the private one: `publicKeyBytes`
  raises on a completed ritual.

  `run` is any interleaving of the calls of two parties. `agreement` is the exact extent of
  the protocol: whatever the parties do before they complete, both derive one key; every
  `publicKeyBytes` returns exactly if nobody reads a party's public key after that party has
  completed. The order in which one party completes and the other then reads its public key
  does not work (`sequential_run`).
-/

import Amcrypt.Reference
import Mathlib.Data.List.Count
import Mathlib.Logic.Function.Basic

namespace Amcrypt.Ritual

open Lib

/-- `cryptography`'s X25519 keys. -/
structure X25519 where
  PrivateKey : Type
  PublicKey : Type
  /-- `key.public_key()`. -/
  publicKey : PrivateKey → PublicKey
  /-- `key.public_bytes(Raw, Raw)`. -/
  publicBytes : PublicKey → Bytes
  /-- `X25519PublicKey.from_public_bytes(data)`. -/
  fromPublicBytes : Bytes → Except PyErr PublicKey
  /-- `key.exchange(peer)`. -/
  exchange : PrivateKey → PublicKey → Except PyErr Bytes

namespace X25519

variable (X : X25519)

/-- Raw public bytes parse back. -/
def RawInverts : Prop := ∀ pk, X.fromPublicBytes (X.publicBytes pk) = .ok pk

/-- The exchange is commutative. -/
def Commutes : Prop := ∀ a b, X.exchange a (X.publicKey b) = X.exchange b (X.publicKey a)

/-- The exchange refuses low-order points only: no private key has one for its public key. -/
def Exchanges : Prop := ∀ a b, Returns (X.exchange a (X.publicKey b))

end X25519

variable (B : Backend) (X : X25519)

/-! ## `crypto.py` -/

/-- What an attribute of `None` raises. -/
def attributeError : PyErr := .other "AttributeError"

def x25519PublicBytes (privateKey : Option X.PrivateKey) : Except PyErr Bytes :=
  match privateKey with
  | some privateKey => .ok (X.publicBytes (X.publicKey privateKey))
  | none => .error attributeError

/-- `b"amcrypt-x25519-aesgcm-key"`. -/
def agreementInfo : Bytes :=
  [0x61, 0x6d, 0x63, 0x72, 0x79, 0x70, 0x74, 0x2d, 0x78, 0x32, 0x35, 0x35, 0x31, 0x39, 0x2d, 0x61, 0x65, 0x73, 0x67,
    0x63, 0x6d, 0x2d, 0x6b, 0x65, 0x79]

/-- The salt that HKDF takes for `None`. -/
def noSalt : Bytes := List.replicate 32 0

def x25519SharedKey (privateKey : Option X.PrivateKey) (peerPublicKeyBytes : Bytes) : Except PyErr Key := do
  let peerPublicKey ← X.fromPublicBytes peerPublicKeyBytes
  match privateKey with
  | some privateKey => do
    let rawShared ← X.exchange privateKey peerPublicKey
    pure (B.hkdf noSalt agreementInfo rawShared)
  | none => throw attributeError

/-! ## `DarkRitual` -/

structure DarkRitual where
  privateKey : Option X.PrivateKey
  shared : Option Key

/-- `DarkRitual.__init__`, with the key it generates. -/
def DarkRitual.new (privateKey : X.PrivateKey) : DarkRitual X := ⟨some privateKey, none⟩

def publicKeyBytes : Py (DarkRitual X) Bytes := do
  let self ← Method.get
  Method.ofExcept (x25519PublicBytes X self.privateKey)

def alreadyCompleted : PyErr :=
  .other "RuntimeError: This ritual has already been completed; generate a new DarkRitual for a fresh exchange"

def sharedKey (peerPublicKeyBytes : Bytes) : Py (DarkRitual X) Key := do
  let self ← Method.get
  if self.shared.isSome then Method.raise alreadyCompleted
  else do
    let key ← Method.ofExcept (x25519SharedKey B X self.privateKey peerPublicKeyBytes)
    Method.modify fun self => { self with privateKey := none }
    Method.modify fun self => { self with shared := some key }
    pure key

/-! ## Two parties -/

inductive Party where
  | alice
  | bob
  deriving DecidableEq

def Party.other : Party → Party
  | .alice => .bob
  | .bob => .alice

inductive Op where
  | publicKeyBytes
  | sharedKey (peer : Bytes)
  deriving DecidableEq

/-- The call on a ritual; both return bytes. -/
def Op.call : Op → Py (DarkRitual X) Bytes
  | .publicKeyBytes => Ritual.publicKeyBytes X
  | .sharedKey peer => do
    let key ← Ritual.sharedKey B X peer
    pure key.val

/-- The calls of an interleaving, each with how it ended. -/
def run (rituals : Party → DarkRitual X) : List (Party × Op) → List (Party × Op × Except PyErr Bytes)
  | [] => []
  | (p, op) :: calls =>
    let out := op.call B X (rituals p)
    (p, op, out.result) :: run (Function.update rituals p out.self) calls

variable {X} in
/-- A party's one public key. -/
def rawPublic (keys : Party → X.PrivateKey) (p : Party) : Bytes := X.publicBytes (X.publicKey (keys p))

variable {X} in
/-- The party's `shared_key` call with the other's public key. -/
def genuine (keys : Party → X.PrivateKey) (p : Party) : Op := .sharedKey (rawPublic keys p.other)

/-- Each party makes one genuine `shared_key` call; its others raise on an invalid peer key. -/
structure Schedule (keys : Party → X.PrivateKey) (calls : List (Party × Op)) : Prop where
  once : ∀ p, calls.count (p, genuine keys p) = 1
  invalid : ∀ p peer, (p, .sharedKey peer) ∈ calls → peer ≠ rawPublic keys p.other →
    ∃ e, x25519SharedKey B X (some (keys p)) peer = .error e

variable {X} in
/-- Every `publicKeyBytes` returns its party's public key; both genuine calls return one key. -/
def Agrees (keys : Party → X.PrivateKey) (trace : List (Party × Op × Except PyErr Bytes)) : Prop :=
  (∀ p r, (p, .publicKeyBytes, r) ∈ trace → r = .ok (rawPublic keys p)) ∧
    ∃ key : Key, ∀ p r, (p, genuine keys p, r) ∈ trace ↔ r = .ok key.val

variable {X} in
/-- Nobody reads a party's public key after the party has completed. -/
def ReadsFirst (keys : Party → X.PrivateKey) (calls : List (Party × Op)) : Prop :=
  ∀ p, calls.Pairwise fun call later => call = (p, genuine keys p) → later ≠ (p, .publicKeyBytes)

variable {B X} {keys : Party → X.PrivateKey} {key : Key}

/-! ## One call -/

/-- The ritual of a party that has completed, or has not. -/
def ritualOf (keys : Party → X.PrivateKey) (key : Key) (p : Party) (done : Bool) : DarkRitual X :=
  if done then ⟨none, some key⟩ else .new X (keys p)

theorem call_publicKeyBytes (p : Party) (done : Bool) :
    Op.publicKeyBytes.call B X (ritualOf keys key p done) =
      ⟨if done then .error attributeError else .ok (rawPublic keys p), ritualOf keys key p done, []⟩ := by
  cases done <;> rfl

/-- Completed, it refuses every peer. -/
theorem call_completed (p : Party) (peer : Bytes) :
    (Op.sharedKey peer).call B X (ritualOf keys key p true) =
      ⟨.error alreadyCompleted, ritualOf keys key p true, []⟩ := rfl

theorem call_sharedKey (p : Party) {peer : Bytes} (h : x25519SharedKey B X (some (keys p)) peer = .ok key) :
    (Op.sharedKey peer).call B X (ritualOf keys key p false) = ⟨.ok key.val, ritualOf keys key p true, []⟩ := by
  simp [Op.call, sharedKey, ritualOf, DarkRitual.new, h]

/-- An invalid peer key leaves the ritual as it was. -/
theorem call_invalid (p : Party) {peer : Bytes} {e : PyErr} (h : x25519SharedKey B X (some (keys p)) peer = .error e) :
    (Op.sharedKey peer).call B X (ritualOf keys key p false) = ⟨.error e, ritualOf keys key p false, []⟩ := by
  simp [Op.call, sharedKey, ritualOf, DarkRitual.new, h]

/-- `key` is what both parties derive, and other peer keys are refused. -/
structure Honest (B : Backend) (X : X25519) (keys : Party → X.PrivateKey) (key : Key) (calls : List (Party × Op)) :
    Prop where
  derives : ∀ p, x25519SharedKey B X (some (keys p)) (rawPublic keys p.other) = .ok key
  invalid : ∀ p peer, (p, .sharedKey peer) ∈ calls → peer ≠ rawPublic keys p.other →
    ∃ e, x25519SharedKey B X (some (keys p)) peer = .error e

theorem Honest.tail {call : Party × Op} {calls : List (Party × Op)} (h : Honest B X keys key (call :: calls)) :
    Honest B X keys key calls :=
  ⟨h.derives, fun p peer hmem => h.invalid p peer (List.mem_cons_of_mem _ hmem)⟩

/-- The genuine call completes a ritual; every other leaves it as it was. -/
theorem call_self {calls : List (Party × Op)} {p : Party} {op : Op} (h : Honest B X keys key ((p, op) :: calls))
    (done : Bool) :
    (op.call B X (ritualOf keys key p done)).self = ritualOf keys key p (done || decide (op = genuine keys p)) := by
  cases op with
  | publicKeyBytes =>
    rw [call_publicKeyBytes]
    simp [genuine]
  | sharedKey peer =>
    cases done with
    | true => rw [call_completed, Bool.true_or]
    | false =>
      by_cases hpeer : peer = rawPublic keys p.other
      · subst hpeer
        rw [call_sharedKey p (h.derives p)]
        simp [genuine]
      · obtain ⟨e, he⟩ := h.invalid p peer List.mem_cons_self hpeer
        rw [call_invalid p he]
        simp [genuine, hpeer]

/-! ## A run -/

/-- A call is answered by a ritual that its party's genuine call, if it came before, has
    completed. -/
theorem mem_run (calls : List (Party × Op)) :
    ∀ (done : Party → Bool), Honest B X keys key calls → ∀ {p : Party} {op : Op} {r : Except PyErr Bytes},
      (p, op, r) ∈ run B X (fun p => ritualOf keys key p (done p)) calls ↔
        ∃ pre post, calls = pre ++ (p, op) :: post ∧
          r = (op.call B X (ritualOf keys key p (done p || decide ((p, genuine keys p) ∈ pre)))).result := by
  induction calls with
  | nil =>
    intro done _ p op r
    simp [run]
  | cons call calls ih =>
    intro done h p op r
    obtain ⟨q, op'⟩ := call
    let done' := Function.update done q (done q || decide (op' = genuine keys q))
    have hstate : Function.update (fun p => ritualOf keys key p (done p)) q
        (op'.call B X (ritualOf keys key q (done q))).self = fun p => ritualOf keys key p (done' p) := by
      funext p
      by_cases hp : p = q
      · subst hp
        simp only [Function.update_self, done', call_self h]
      · simp only [Function.update_of_ne hp, done']
    have hdone : ∀ pre, (done' p || decide ((p, genuine keys p) ∈ pre)) =
        (done p || decide ((p, genuine keys p) ∈ (q, op') :: pre)) := by
      intro pre
      by_cases hp : p = q
      · subst hp
        simp [done', Bool.or_assoc, eq_comm]
      · simp [done', hp]
    simp only [run, List.mem_cons, Prod.mk.injEq]
    rw [hstate, ih done' h.tail]
    refine ⟨?_, ?_⟩
    · intro hx
      rcases hx with ⟨rfl, rfl, rfl⟩ | ⟨pre, post, rfl, rfl⟩
      · exact ⟨[], calls, rfl, by simp⟩
      · exact ⟨(q, op') :: pre, post, rfl, by rw [hdone]⟩
    · intro hx
      obtain ⟨pre, post, hcalls, rfl⟩ := hx
      cases pre with
      | nil =>
        obtain ⟨⟨rfl, rfl⟩, rfl⟩ := by simpa using hcalls
        exact .inl ⟨rfl, rfl, by simp⟩
      | cons call pre =>
        obtain ⟨rfl, rfl⟩ := by simpa using hcalls
        exact .inr ⟨pre, post, rfl, by rw [hdone]⟩

/-- Said of every place of a run where a public key is read. -/
theorem readsFirst_iff {calls : List (Party × Op)} :
    ReadsFirst keys calls ↔
      ∀ p pre post, calls = pre ++ (p, .publicKeyBytes) :: post → (p, genuine keys p) ∉ pre := by
  refine ⟨?_, ?_⟩
  · intro h p pre post heq hmem
    subst heq
    obtain ⟨-, -, hlater⟩ := List.pairwise_append.mp (h p)
    exact hlater _ hmem _ List.mem_cons_self rfl rfl
  · intro h p
    rw [List.pairwise_iff_getElem]
    intro i j hi hj hij hgenuine hread
    have hsplit : calls = calls.take j ++ (p, .publicKeyBytes) :: calls.drop (j + 1) := by
      rw [← hread, ← List.drop_eq_getElem_cons, List.take_append_drop]
    refine h p _ _ hsplit ?_
    rw [← hgenuine]
    exact List.mem_take_iff_getElem.mpr ⟨i, by omega, rfl⟩

/-- Both exchanges of two honest keys derive one key. -/
theorem derives_one (hraw : X.RawInverts) (hcomm : X.Commutes) (hex : X.Exchanges) (keys : Party → X.PrivateKey) :
    ∃ key, ∀ p, x25519SharedKey B X (some (keys p)) (rawPublic keys p.other) = .ok key := by
  obtain ⟨raw, h⟩ := hex (keys .alice) (keys .bob)
  refine ⟨B.hkdf noSalt agreementInfo raw, ?_⟩
  intro p
  have hp : X.exchange (keys p) (X.publicKey (keys p.other)) = .ok raw := by
    cases p with
    | alice => exact h
    | bob => exact (hcomm _ _).trans h
  simp only [x25519SharedKey, rawPublic, hraw _, ok_bind, hp, pure_eq_ok]

theorem Schedule.not_before {calls : List (Party × Op)} (h : Schedule B X keys calls) {p : Party}
    {pre post : List (Party × Op)} (hcalls : calls = pre ++ (p, genuine keys p) :: post) :
    (p, genuine keys p) ∉ pre := by
  have hone := h.once p
  rw [hcalls, List.count_append, List.count_cons_self] at hone
  exact List.count_eq_zero.mp (by omega)

theorem Schedule.calls_genuine {calls : List (Party × Op)} (h : Schedule B X keys calls) (p : Party) :
    ∃ pre post, calls = pre ++ (p, genuine keys p) :: post := by
  have hmem : (p, genuine keys p) ∈ calls := List.count_pos_iff.mp (by rw [h.once p]; omega)
  exact List.append_of_mem hmem

/-- Two fresh rituals, any interleaving of their calls: the protocol agrees exactly if
    nobody reads a party's public key after that party has completed. -/
theorem agreement (hraw : X.RawInverts) (hcomm : X.Commutes) (hex : X.Exchanges) {keys : Party → X.PrivateKey}
    {calls : List (Party × Op)} (h : Schedule B X keys calls) :
    Agrees keys (run B X (fun p => .new X (keys p)) calls) ↔ ReadsFirst keys calls := by
  obtain ⟨key, hderives⟩ := derives_one (B := B) hraw hcomm hex keys
  have hhonest : Honest B X keys key calls := ⟨hderives, h.invalid⟩
  have hrun := @mem_run B X keys key calls (fun _ => false) hhonest
  simp only [Bool.false_or] at hrun
  refine ⟨?_, ?_⟩
  · intro hx
    obtain ⟨hpublic, -⟩ := hx
    rw [readsFirst_iff]
    intro p pre post hcalls hmem
    have hread := hpublic p _ (hrun.mpr ⟨pre, post, hcalls, rfl⟩)
    rw [call_publicKeyBytes, decide_eq_true hmem] at hread
    cases hread
  · intro hfirst
    rw [readsFirst_iff] at hfirst
    refine ⟨?_, key, ?_⟩
    · intro p r hmem
      obtain ⟨pre, post, hcalls, rfl⟩ := hrun.mp hmem
      rw [call_publicKeyBytes, decide_eq_false (hfirst p pre post hcalls)]
      rfl
    · intro p r
      have hanswer : ∀ pre post, calls = pre ++ (p, genuine keys p) :: post →
          ((genuine keys p).call B X (ritualOf keys key p (decide ((p, genuine keys p) ∈ pre)))).result =
            .ok key.val := by
        intro pre post hcalls
        rw [decide_eq_false (h.not_before hcalls), genuine, call_sharedKey p (hderives p)]
      refine ⟨?_, ?_⟩
      · intro hmem
        obtain ⟨pre, post, hcalls, rfl⟩ := hrun.mp hmem
        exact hanswer pre post hcalls
      · intro heq
        subst heq
        obtain ⟨pre, post, hcalls⟩ := h.calls_genuine p
        exact hrun.mpr ⟨pre, post, hcalls, (hanswer pre post hcalls).symm⟩

/-! ## Runs -/

section
open Reference

/-- A stand-in with the interface of X25519: a public key is its private key behind the
    base point's byte, and an exchange adds the two bytewise. -/
def curve : X25519 where
  PrivateKey := Block 31
  PublicKey := Block 32
  publicKey a := ⟨9 :: a.val, by simp [a.property]⟩
  publicBytes pk := pk.val
  fromPublicBytes data :=
    if h : data.length = 32 then .ok ⟨data, h⟩ else .error (.valueError "An X25519 public key is 32 bytes long")
  exchange a pk :=
    if pk.val = List.replicate 32 0 then .error (.valueError "Error computing shared key.")
    else .ok (List.zipWith (· + ·) (9 :: a.val) pk.val)

theorem curve_rawInverts : curve.RawInverts := by
  intro pk
  exact dif_pos pk.property

theorem curve_exchange (a b : Block 31) :
    curve.exchange a (curve.publicKey b) = .ok (List.zipWith (· + ·) (9 :: a.val) (9 :: b.val)) := by
  have hpoint : (curve.publicKey b).val ≠ List.replicate 32 0 := by simp [curve, List.replicate]
  simp only [curve] at hpoint ⊢
  rw [if_neg hpoint]

theorem curve_commutes : curve.Commutes := by
  intro a b
  have hcomm : List.zipWith (· + ·) (9 :: a.val) (9 :: b.val) = List.zipWith (· + ·) (9 :: b.val) (9 :: a.val) :=
    List.zipWith_comm_of_comm UInt8.add_comm
  exact (curve_exchange a b).trans ((congrArg Except.ok hcomm).trans (curve_exchange b a).symm)

theorem curve_exchanges : curve.Exchanges := fun a b => ⟨_, curve_exchange a b⟩

def runKeys : Party → Block 31
  | .alice => ⟨List.replicate 31 0x61, rfl⟩
  | .bob => ⟨List.replicate 31 0x62, rfl⟩

/-- As the README has it: the first party completes, and then its public key is read. -/
def sequential : List (Party × Op) :=
  [(.bob, .publicKeyBytes), (.alice, genuine (X := curve) runKeys .alice), (.alice, .publicKeyBytes),
    (.bob, genuine (X := curve) runKeys .bob)]

/-- As the docstrings of the module have it: both public keys first; and a malformed one. -/
def readFirst : List (Party × Op) :=
  [(.alice, .publicKeyBytes), (.bob, .publicKeyBytes), (.bob, .sharedKey [1, 2, 3]),
    (.bob, genuine (X := curve) runKeys .bob), (.alice, genuine (X := curve) runKeys .alice)]

theorem sequential_schedule : Schedule reference curve runKeys sequential := by
  refine ⟨?_, ?_⟩
  · intro p
    cases p <;> decide
  · intro p peer hmem hne
    simp only [sequential, genuine, List.mem_cons, Prod.mk.injEq, reduceCtorEq, and_false, Op.sharedKey.injEq,
      List.not_mem_nil, or_false, false_or] at hmem
    rcases hmem with ⟨rfl, rfl⟩ | ⟨rfl, rfl⟩
    · exact absurd rfl hne
    · exact absurd rfl hne

/-- The first party's public key is gone with its private key. -/
theorem sequential_run :
    Schedule reference curve runKeys sequential ∧
      (.alice, .publicKeyBytes, .error attributeError) ∈
        run reference curve (fun p => .new curve (runKeys p)) sequential ∧
      ¬ Agrees (X := curve) runKeys (run reference curve (fun p => .new curve (runKeys p)) sequential) := by
  have hraised : (.alice, .publicKeyBytes, .error attributeError) ∈
      run reference curve (fun p => .new curve (runKeys p)) sequential := by
    decide +kernel
  refine ⟨sequential_schedule, hraised, ?_⟩
  intro h
  obtain ⟨hpublic, -⟩ := h
  have hread := hpublic _ _ hraised
  cases hread

theorem agreement_run :
    Agrees (X := curve) runKeys (run reference curve (fun p => .new curve (runKeys p)) readFirst) := by
  have hschedule : Schedule reference curve runKeys readFirst := by
    refine ⟨?_, ?_⟩
    · intro p
      cases p <;> decide
    · intro p peer hmem hne
      simp only [readFirst, genuine, List.mem_cons, Prod.mk.injEq, reduceCtorEq, and_false, Op.sharedKey.injEq,
        List.not_mem_nil, or_false, false_or] at hmem
      rcases hmem with ⟨rfl, rfl⟩ | ⟨rfl, rfl⟩ | ⟨rfl, rfl⟩
      · exact ⟨_, rfl⟩
      · exact absurd rfl hne
      · exact absurd rfl hne
  refine (agreement curve_rawInverts curve_commutes curve_exchanges hschedule).mpr ?_
  intro p
  cases p <;> decide

end

end Amcrypt.Ritual
