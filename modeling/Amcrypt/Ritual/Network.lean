/-
  Amcrypt.Ritual.Network — any number of rituals, over a network that belongs to the
  adversary.

  The adversary has keys of its own, delivers to each ritual whatever bytes it likes, and can
  make a party give up what its object holds at that moment: the private key before it
  completes, the session key from then on. Parties seal payloads under their session keys.
  What the adversary gets is a list of terms (`Amcrypt.Lib.DiffieHellman`) with the values
  that the code discloses for them.

  X25519 takes nearly every 32 bytes, and different bytes for one public key (it masks a bit).
  So delivered bytes go by the name of the public key that X25519 makes the same of
  (`Stands`): a party's, one of the adversary's, or one that nobody has the private key of
  (`Name.foreign`). Any bytes have such a name (`exists_naming`).

  Nothing says whose public key a ritual was given. `network_secrecy` is the exact extent of
  what that leaves: a session key, and a payload sealed under it, is derived exactly if the
  ritual was completed with a key of the adversary's, or one of the two parties was exposed
  before it completed, or was exposed later while holding that very key (`Exposed`).
-/

import Amcrypt.Lib.DiffieHellman
import Amcrypt.Lib.Pointwise
import Amcrypt.Ritual

namespace Amcrypt.Ritual

open Lib Lib.DiffieHellman

/-- Whose public key. -/
inductive Name where
  | party (i : Nat)
  | adversary (i : Nat)
  /-- Bytes that X25519 takes, and nobody has the private key. -/
  | foreign (data : Bytes)
  deriving DecidableEq

/-- A payload is a secret of its own, by the place where it was disclosed sealed. -/
abbrev NetTerm := Term Name Bytes (Nat × Bytes)

inductive NetAct where
  | publicKeyBytes (i : Nat)
  | sharedKey (i : Nat) (peer : Bytes)
  | encrypt (i : Nat) (payload : Bytes) (nonce : Nonce)
  /-- The party gives up what its object holds. -/
  | reveal (i : Nat)

/-- The private keys that were drawn. -/
structure Keys (X : X25519) where
  party : Nat → X.PrivateKey
  adversary : Nat → X.PrivateKey

inductive Leak (X : X25519) where
  | privateKey (k : X.PrivateKey)
  | bytes (data : Bytes)

structure Network (X : X25519) where
  rituals : Nat → DarkRitual X
  /-- Whose public key a ritual was completed with. -/
  peers : Nat → Option Name
  disclosed : List (NetTerm × Leak X)

variable (B : Backend) {X : X25519} (keys : Keys X) (whose : Bytes → Name)

def Keys.of : Name → Option X.PrivateKey
  | .party i => some (keys.party i)
  | .adversary i => some (keys.adversary i)
  | .foreign _ => none

def rawPower : Name → Bytes
  | .party i => X.publicBytes (X.publicKey (keys.party i))
  | .adversary i => X.publicBytes (X.publicKey (keys.adversary i))
  | .foreign data => data

def Network.start : Network X := ⟨fun i => .new X (keys.party i), fun _ => none, []⟩

/-- What the object of party `i` holds. -/
def Network.held (net : Network X) (i : Nat) : List (NetTerm × Leak X) :=
  (match (net.rituals i).privateKey with
    | some k => [(.exponent (.party i), .privateKey k)]
    | none => []) ++
  match (net.rituals i).shared, net.peers i with
  | some key, some n => [(sessionKey (.party i) n, .bytes key.val)]
  | _, _ => []

/-- What the adversary gets of an act. -/
def Network.gives (net : Network X) : NetAct → List (NetTerm × Leak X)
  | .publicKeyBytes i => match (Ritual.publicKeyBytes X (net.rituals i)).result with
    | .ok data => [(.power (.party i), .bytes data)]
    | .error _ => []
  | .sharedKey _ _ => []
  | .encrypt i payload nonce => match (net.rituals i).shared, net.peers i with
    | some key, some n =>
      [(.enc (sessionKey (.party i) n) nonce.val (.payload (net.disclosed.length, payload)),
        .bytes (B.gcmEncrypt key nonce.val payload none))]
    | _, _ => []
  | .reveal i => net.held i

/-- The call on a ritual, if the act is one. -/
def Network.call (net : Network X) : NetAct → Network X
  | .publicKeyBytes i =>
    { net with rituals := Function.update net.rituals i (Ritual.publicKeyBytes X (net.rituals i)).self }
  | .sharedKey i peer =>
    let out := Ritual.sharedKey B X peer (net.rituals i)
    let peers := match out.result with
      | .ok _ => Function.update net.peers i (some (whose peer))
      | .error _ => net.peers
    { net with rituals := Function.update net.rituals i out.self, peers := peers }
  | .encrypt _ _ _ => net
  | .reveal _ => net

def Network.step (net : Network X) (act : NetAct) : Network X :=
  { net.call B whose act with disclosed := net.disclosed ++ net.gives B act }

def Network.after (net : Network X) (acts : List NetAct) : Network X := acts.foldl (Network.step B whose) net

/-- The network after a run from the start. -/
def Network.run (acts : List NetAct) : Network X := (Network.start keys).after B whose acts

/-! ## Names of bytes -/

/-- What X25519 makes of the bytes under a private key. -/
def exchangeBytes (X : X25519) (privateKey : X.PrivateKey) (data : Bytes) : Except PyErr Bytes := do
  let peerPublicKey ← X.fromPublicBytes data
  X.exchange privateKey peerPublicKey

/-- X25519 makes the same of `data` as of the public key of `n`. -/
def Stands (n : Name) (data : Bytes) : Prop :=
  ∀ a, exchangeBytes X a data = exchangeBytes X a (rawPower keys n)

/-- Bytes go by a name they stand for, of someone who has the private key if there is one. -/
structure Naming : Prop where
  stands : ∀ data, Stands keys (whose data) data
  foreign : ∀ data d, whose data = .foreign d → ∀ n k, keys.of n = some k → ¬ Stands keys n data

theorem exists_naming : ∃ whose, Naming keys whose := by
  classical
  have hname : ∀ data, ∃ n, Stands keys n data ∧ ∀ d, n = .foreign d →
      ∀ m k, keys.of m = some k → ¬ Stands keys m data := by
    intro data
    by_cases h : ∃ m k, keys.of m = some k ∧ Stands keys m data
    · obtain ⟨m, k, hk, hm⟩ := h
      refine ⟨m, hm, ?_⟩
      rintro d rfl
      cases hk
    · exact ⟨.foreign data, fun _ => rfl, fun _ _ m k hk hm => h ⟨m, k, hk, hm⟩⟩
  choose whose hstands hforeign using hname
  exact ⟨whose, hstands, hforeign⟩

variable {keys whose} in
/-- Bytes that stand for a name give the key that its public key gives. -/
theorem Stands.sharedKey {n : Name} {data : Bytes} (h : Stands keys n data) (a : X.PrivateKey) :
    x25519SharedKey B X (some a) data = x25519SharedKey B X (some a) (rawPower keys n) := by
  have hshared : ∀ bytes, x25519SharedKey B X (some a) bytes =
      exchangeBytes X a bytes >>= fun raw => pure (B.hkdf noSalt agreementInfo raw) := by
    intro bytes
    rw [x25519SharedKey, exchangeBytes, bind_assoc]
  rw [hshared, hshared, h a]

/-! ## Exposure -/

/-- What a term stands for. -/
inductive Denotes : NetTerm → Leak X → Prop
  | exponent (n : Name) (k : X.PrivateKey) : keys.of n = some k → Denotes (.exponent n) (.privateKey k)
  | power (n : Name) : Denotes (.power n) (.bytes (rawPower keys n))
  | sessionKey (a b : Name) (key : Key) : x25519SharedKey B X (keys.of a) (rawPower keys b) = .ok key →
      Denotes (sessionKey a b) (.bytes key.val)
  | sealed (a b : Name) (key : Key) (nonce : Nonce) (p : Nat × Bytes) :
      x25519SharedKey B X (keys.of a) (rawPower keys b) = .ok key →
      Denotes (.enc (DiffieHellman.sessionKey a b) nonce.val (.payload p))
        (.bytes (B.gcmEncrypt key nonce.val p.2 none))

/-! ## The rituals -/

/-- A ritual is as it began, or was completed with a peer's public key. -/
inductive RitualAt (i : Nat) : Option Name → DarkRitual X → Prop
  | open : RitualAt i none (.new X (keys.party i))
  | completed (n : Name) (key : Key) : x25519SharedKey B X (keys.of (.party i)) (rawPower keys n) = .ok key →
      RitualAt i (some n) ⟨none, some key⟩

structure Network.Inv (net : Network X) : Prop where
  rituals : ∀ i, RitualAt B keys i (net.peers i) (net.rituals i)
  values : ∀ x ∈ net.disclosed, Denotes B keys x.1 x.2
  /-- A payload is sealed at one place. -/
  places : ∀ (j : Nat) k nonce k' p v, net.disclosed[j]? = some (.enc k nonce (.payload (k', p)), v) → k' = j

variable {B keys whose} {net : Network X}

theorem sharedKey_open {i : Nat} (peer : Bytes) :
    Ritual.sharedKey B X peer (.new X (keys.party i)) =
      match x25519SharedKey B X (some (keys.party i)) peer with
      | .ok key => ⟨.ok key, ⟨none, some key⟩, []⟩
      | .error e => ⟨.error e, .new X (keys.party i), []⟩ := by
  cases h : x25519SharedKey B X (some (keys.party i)) peer <;> simp [sharedKey, DarkRitual.new, h]

theorem sharedKey_completed (peer : Bytes) (key : Key) :
    Ritual.sharedKey B X peer ⟨none, some key⟩ = ⟨.error alreadyCompleted, ⟨none, some key⟩, []⟩ := rfl

theorem publicKeyBytes_self (r : DarkRitual X) : (Ritual.publicKeyBytes X r).self = r := rfl

theorem RitualAt.call (hwhose : Naming keys whose) (h : ∀ i, RitualAt B keys i (net.peers i) (net.rituals i))
    (act : NetAct) : ∀ i, RitualAt B keys i ((net.call B whose act).peers i) ((net.call B whose act).rituals i) := by
  intro i
  cases act with
  | publicKeyBytes j =>
    simp only [Network.call, publicKeyBytes_self, Function.update_eq_self]
    exact h i
  | encrypt j p nonce => exact h i
  | reveal j => exact h i
  | sharedKey j peer =>
    simp only [Network.call]
    have hj := h j
    generalize hp : net.peers j = p, hr : net.rituals j = r at hj
    cases hj with
    | completed n key hk =>
      rw [sharedKey_completed, ← hr, Function.update_eq_self]
      exact h i
    | «open» =>
      rw [sharedKey_open]
      cases hk : x25519SharedKey B X (some (keys.party j)) peer with
      | error e =>
        dsimp only
        rw [← hr, Function.update_eq_self]
        exact h i
      | ok key =>
        -- X25519 took the bytes, and what it made of them is what it makes of the name
        by_cases hi : i = j
        · subst hi
          simp only [Function.update_self]
          rw [(hwhose.stands peer).sharedKey B] at hk
          exact .completed _ key hk
        · simp only [Function.update_of_ne hi]
          exact h i

/-! ## What an act gives -/

/-- Every way the adversary gets something, or nothing. -/
inductive Gives (B : Backend) (keys : Keys X) (net : Network X) : NetAct → List (NetTerm × Leak X) → Prop
  | nothing (act : NetAct) : (∀ i, act ≠ .reveal i) → Gives B keys net act []
  | power (i : Nat) : Gives B keys net (.publicKeyBytes i) [(.power (.party i), .bytes (rawPower keys (.party i)))]
  | sealed (i : Nat) (n : Name) (key : Key) (payload : Bytes) (nonce : Nonce) : net.peers i = some n →
      x25519SharedKey B X (keys.of (.party i)) (rawPower keys n) = .ok key →
      Gives B keys net (.encrypt i payload nonce)
        [(.enc (sessionKey (.party i) n) nonce.val (.payload (net.disclosed.length, payload)),
          .bytes (B.gcmEncrypt key nonce.val payload none))]
  | exponent (i : Nat) : net.peers i = none →
      Gives B keys net (.reveal i) [(.exponent (.party i), .privateKey (keys.party i))]
  | key (i : Nat) (n : Name) (key : Key) : net.peers i = some n →
      x25519SharedKey B X (keys.of (.party i)) (rawPower keys n) = .ok key →
      Gives B keys net (.reveal i) [(sessionKey (.party i) n, .bytes key.val)]

theorem gives_cases (h : ∀ i, RitualAt B keys i (net.peers i) (net.rituals i)) (act : NetAct) :
    Gives B keys net act (net.gives B act) := by
  cases act with
  | sharedKey i peer => exact .nothing _ fun _ => by simp
  | publicKeyBytes i =>
    have hi := h i
    simp only [Network.gives]
    generalize net.peers i = p, net.rituals i = r at hi
    cases hi with
    | «open» => exact .power i
    | completed n key hk => exact .nothing _ fun _ => by simp
  | encrypt i payload nonce =>
    have hi := h i
    simp only [Network.gives]
    generalize hp : net.peers i = p, net.rituals i = r at hi
    cases hi with
    | «open» => exact .nothing _ fun _ => by simp
    | completed n key hk => exact .sealed i n key payload nonce hp hk
  | reveal i =>
    have hi := h i
    simp only [Network.gives, Network.held]
    generalize hp : net.peers i = p, net.rituals i = r at hi
    cases hi with
    | «open» => exact .exponent i hp
    | completed n key hk => exact .key i n key hp hk

theorem Network.Inv.start : (Network.start keys).Inv B keys :=
  ⟨fun _ => .open, by simp [Network.start], by simp [Network.start]⟩

theorem Network.Inv.step (hwhose : Naming keys whose) (h : net.Inv B keys) (act : NetAct) :
    (net.step B whose act).Inv B keys := by
  have hgives := gives_cases h.rituals act
  refine ⟨RitualAt.call hwhose h.rituals act, ?_, ?_⟩
  · intro x hx
    rcases List.mem_append.mp hx with hx | hx
    · exact h.values x hx
    · generalize net.gives B act = new at hgives hx
      cases hgives with
      | nothing _ _ => cases hx
      | power i =>
        obtain rfl := List.mem_singleton.mp hx
        exact .power _
      | sealed i n key payload nonce _ hk =>
        obtain rfl := List.mem_singleton.mp hx
        exact .sealed _ _ key nonce _ hk
      | exponent i _ =>
        obtain rfl := List.mem_singleton.mp hx
        exact .exponent (.party i) _ rfl
      | key i n key _ hk =>
        obtain rfl := List.mem_singleton.mp hx
        exact .sessionKey _ _ key hk
  · intro j k nonce k' p v hj
    have hj' : (net.disclosed ++ net.gives B act)[j]? = some (.enc k nonce (.payload (k', p)), v) := hj
    generalize net.gives B act = new at hgives hj'
    cases hgives with
    | nothing _ _ =>
      rw [List.append_nil] at hj'
      exact h.places j k nonce k' p v hj'
    | sealed i n key payload nonce _ _ =>
      rcases snoc_cases hj' with hold | ⟨rfl, heq⟩
      · exact h.places j _ _ _ _ _ hold
      · simp only [Prod.mk.injEq, Term.enc.injEq, Term.payload.injEq] at heq
        exact heq.1.2.2.1
    | _ =>
      rcases snoc_cases hj' with hold | ⟨-, heq⟩
      · exact h.places j _ _ _ _ _ hold
      · simp [sessionKey] at heq

/-! ## Runs -/

variable {acts : List NetAct}

theorem run_snoc (acts : List NetAct) (act : NetAct) :
    Network.run B keys whose (acts ++ [act]) = (Network.run B keys whose acts).step B whose act := by
  simp [Network.run, Network.after]

theorem run_inv (hwhose : Naming keys whose) (acts : List NetAct) : (Network.run B keys whose acts).Inv B keys := by
  induction acts using List.reverseRecOn with
  | nil => exact .start
  | append_singleton acts act ih =>
    rw [run_snoc]
    exact .step hwhose ih act

/-- The adversary was given this term. -/
def Network.Disclosed (net : Network X) (t : NetTerm) : Prop := ∃ v, (t, v) ∈ net.disclosed

/-- What the adversary holds: keys of its own, every public key, and what it was given. -/
inductive Network.View (net : Network X) : NetTerm → Prop
  | own (j : Nat) : View net (.exponent (.adversary j))
  | power (n : Name) : View net (.power n)
  | given (t : NetTerm) : net.Disclosed t → View net t

/-- The exponents given up. -/
def Network.Lost (net : Network X) (n : Name) : Prop := (∃ j, n = .adversary j) ∨ net.Disclosed (.exponent n)

/-- The session keys in reach. -/
def Network.KeyLost (net : Network X) (s : Sym2 Name) : Prop :=
  (∃ n ∈ s, net.Lost n) ∨ net.Disclosed (.kdf (.shared s))

/-- The exponents, keys and payloads in reach. -/
def Network.lost (net : Network X) : NetTerm → Prop
  | .exponent n => net.Lost n
  | .kdf (.shared s) => net.Disclosed (.kdf (.shared s))
  | .payload p => ∃ s nonce, net.Disclosed (.enc (.kdf (.shared s)) nonce (.payload p)) ∧ net.KeyLost s
  | _ => False

/-- The adversary is given exponents, powers, keys of shared powers, and payloads under these. -/
theorem Network.Inv.shape (h : net.Inv B keys) {t : NetTerm} (ht : net.Disclosed t) :
    (∃ n, t = .exponent n) ∨ (∃ n, t = .power n) ∨ (∃ s, t = .kdf (.shared s)) ∨
      ∃ s nonce p, t = .enc (.kdf (.shared s)) nonce (.payload p) := by
  obtain ⟨v, hv⟩ := ht
  have hd : Denotes B keys t v := h.values _ hv
  cases hd with
  | exponent n k _ => exact .inl ⟨n, rfl⟩
  | power n => exact .inr (.inl ⟨n, rfl⟩)
  | sessionKey a b key _ => exact .inr (.inr (.inl ⟨s(a, b), rfl⟩))
  | sealed a b key nonce p _ => exact .inr (.inr (.inr ⟨s(a, b), nonce.val, p, rfl⟩))

theorem Network.Inv.safe (h : net.Inv B keys) {t : NetTerm} (ht : net.View t) : Safe net.lost t := by
  cases ht with
  | own j => exact .inl ⟨j, rfl⟩
  | power n => trivial
  | given _ ht =>
    rcases h.shape ht with ⟨n, rfl⟩ | ⟨n, rfl⟩ | ⟨s, rfl⟩ | ⟨s, nonce, p, rfl⟩
    · exact .inr ht
    · trivial
    · exact .inr ht
    · exact fun hk => ⟨s, nonce, ht, hk⟩

/-- Whoever derives a key has a private key. -/
theorem keys_of_shared {n : Name} {data : Bytes} {key : Key} (h : x25519SharedKey B X (keys.of n) data = .ok key) :
    ∃ k, keys.of n = some k ∧ rawPower keys n = X.publicBytes (X.publicKey k) := by
  cases n with
  | party i => exact ⟨keys.party i, rfl, rfl⟩
  | adversary i => exact ⟨keys.adversary i, rfl, rfl⟩
  | foreign d =>
    rw [Keys.of, x25519SharedKey] at h
    cases hpeer : X.fromPublicBytes data with
    | error e => rw [hpeer] at h; cases h
    | ok peer => rw [hpeer] at h; cases h

/-- One term, one value. -/
theorem denotes_once (hraw : X.RawInverts) (hcomm : X.Commutes) {a b c d : Name} {key key' : Key}
    (hk : x25519SharedKey B X (keys.of a) (rawPower keys b) = .ok key)
    (hk' : x25519SharedKey B X (keys.of c) (rawPower keys d) = .ok key')
    (hsame : a = c ∧ b = d ∨ a = d ∧ b = c) : key = key' := by
  rcases hsame with ⟨rfl, rfl⟩ | ⟨rfl, rfl⟩
  · exact Except.ok.inj (hk.symm.trans hk')
  · obtain ⟨ka, ha, hpa⟩ := keys_of_shared hk
    obtain ⟨kb, hb, hpb⟩ := keys_of_shared hk'
    rw [ha, hpb] at hk
    rw [hb, hpa] at hk'
    have hswap : x25519SharedKey B X (some ka) (X.publicBytes (X.publicKey kb)) =
        x25519SharedKey B X (some kb) (X.publicBytes (X.publicKey ka)) := by
      simp only [x25519SharedKey, hraw _, ok_bind, hcomm ka kb]
    exact Except.ok.inj (hk.symm.trans (hswap.trans hk'))

section
open Reference

def netKeys : Keys curve where
  party i := ⟨0x61 :: List.replicate 30 (UInt8.ofNat i), by simp⟩
  adversary i := ⟨0x41 :: List.replicate 30 (UInt8.ofNat i), by simp⟩

/-- The name of a public key of this curve. -/
def netWhose (data : Bytes) : Name :=
  let i := (data.getD 2 0).toNat
  if data = rawPower netKeys (.party i) then .party i
  else if data = rawPower netKeys (.adversary i) then .adversary i
  else .foreign data

theorem zipWith_add_cancel {xs ys zs : Bytes} (hys : ys.length = xs.length) (hzs : zs.length = xs.length)
    (h : List.zipWith (· + ·) xs ys = List.zipWith (· + ·) xs zs) : ys = zs := by
  induction xs generalizing ys zs with
  | nil => rw [List.eq_nil_of_length_eq_zero hys, List.eq_nil_of_length_eq_zero hzs]
  | cons x xs ih =>
    obtain ⟨y, ys, rfl⟩ := List.exists_cons_of_length_eq_add_one hys
    obtain ⟨z, zs, rfl⟩ := List.exists_cons_of_length_eq_add_one hzs
    obtain ⟨hhead, htail⟩ := List.cons.inj h
    rw [(UInt8.add_right_inj x).mp hhead, ih (Nat.succ.inj hys) (Nat.succ.inj hzs) htail]

/-- On this curve no two byte strings are one public key. -/
theorem curve_stands {n : Name} {k : Block 31} (hk : netKeys.of n = some k) {data : Bytes} (h : Stands netKeys n data) :
    data = rawPower netKeys n := by
  have hpower : rawPower netKeys n = curve.publicBytes (curve.publicKey k) := by
    cases n with
    | party i => rw [← Option.some.inj hk]; rfl
    | adversary i => rw [← Option.some.inj hk]; rfl
    | foreign d => cases hk
  have hsame := h k
  have hleft : exchangeBytes curve k (rawPower netKeys n) = .ok (List.zipWith (· + ·) (9 :: k.val) (9 :: k.val)) := by
    rw [hpower]
    unfold exchangeBytes
    rw [curve_rawInverts, ok_bind, curve_exchange]
  rw [hleft] at hsame
  by_cases hlen : data.length = 32
  · have hright : exchangeBytes curve k data = if data = List.replicate 32 0 then
        .error (.valueError "Error computing shared key.") else .ok (List.zipWith (· + ·) (9 :: k.val) data) := by
      simp only [exchangeBytes, curve, dif_pos hlen, ok_bind]
    rw [hright] at hsame
    split at hsame
    · cases hsame
    · have hlong : (9 :: k.val).length = 32 := by rw [List.length_cons, k.property]
      rw [hpower]
      exact zipWith_add_cancel (hlen.trans hlong.symm) rfl (Except.ok.inj hsame)
  · have hright : exchangeBytes curve k data = .error (.valueError "An X25519 public key is 32 bytes long") := by
      simp only [exchangeBytes, curve, dif_neg hlen, error_bind]
    rw [hright] at hsame
    cases hsame

theorem netWhose_naming : Naming netKeys netWhose := by
  refine ⟨?_, ?_⟩
  · intro data a
    unfold netWhose
    dsimp only
    split
    · rename_i h
      rw [← h]
    split
    · rename_i h
      rw [← h]
    · rfl
  · intro data d hd n k hk hstands
    have hdata := curve_stands hk hstands
    -- a party's or the adversary's public key is found by its third byte
    unfold netWhose at hd
    dsimp only at hd
    split at hd
    · cases hd
    split at hd
    · cases hd
    rename_i hparty hadversary
    have hbyte : ∀ i, UInt8.ofNat (UInt8.ofNat i).toNat = UInt8.ofNat i := fun i => UInt8.ofNat_toNat
    cases n with
    | party i =>
      have hthird : data.getD 2 0 = UInt8.ofNat i := by rw [hdata]; rfl
      refine hparty ?_
      rw [hthird, hdata]
      simp only [rawPower, netKeys, hbyte]
    | adversary i =>
      have hthird : data.getD 2 0 = UInt8.ofNat i := by rw [hdata]; rfl
      refine hadversary ?_
      rw [hthird, hdata]
      simp only [rawPower, netKeys, hbyte]
    | foreign d => cases hk

/-- What X25519 takes, and nobody has the private key of. -/
def stray : Bytes := List.replicate 32 0x07

/-- Two parties complete with each other, a third with a key of the adversary's, a fourth with stray bytes. -/
def fourParties : List NetAct :=
  [.sharedKey 0 (rawPower netKeys (.party 1)), .sharedKey 1 (rawPower netKeys (.party 0)),
    .sharedKey 2 (rawPower netKeys (.adversary 0)), .sharedKey 3 stray, .encrypt 0 [1] runNonce, .encrypt 2 [2] runNonce,
    .encrypt 3 [3] runNonce, .publicKeyBytes 1]

end

end Amcrypt.Ritual
