/-
  Amcrypt.Ritual.Lifecycle — one ritual, under any sequence of calls.

  A ritual is open until the first `shared_key` call whose peer key X25519 accepts, and
  completed from then on, for good. `lifecycle` says of every call of every history how it
  ends: open, as the functions of `crypto.py` do on the private key; completed,
  `public_key_bytes` and `shared_key` raise, each its own exception. `is_complete` tells the
  two apart.
-/

import Amcrypt.Ritual

namespace Amcrypt.Ritual

open Lib

variable (B : Backend) (X : X25519)

def isComplete : Py (DarkRitual X) Bool := do
  let self ← Method.get
  pure self.shared.isSome

/-- The object after `ops`. -/
def DarkRitual.after (self : DarkRitual X) (ops : List Op) : DarkRitual X :=
  ops.foldl (fun self op => (op.call B X self).self) self

variable {X} in
/-- X25519 accepts the call's peer key. -/
def Op.Accepted (privateKey : X.PrivateKey) : Op → Prop
  | .publicKeyBytes => False
  | .sharedKey peer => Returns (x25519SharedKey B X (some privateKey) peer)

variable {X} in
/-- How a call on an open ritual ends. -/
def Op.onOpen (privateKey : X.PrivateKey) : Op → Except PyErr Bytes
  | .publicKeyBytes => .ok (X.publicBytes (X.publicKey privateKey))
  | .sharedKey peer => (x25519SharedKey B X (some privateKey) peer).map Subtype.val

/-- How a call on a completed ritual ends. -/
def Op.onCompleted : Op → Except PyErr Bytes
  | .publicKeyBytes => .error attributeError
  | .sharedKey _ => .error alreadyCompleted

variable {B X} {privateKey : X.PrivateKey}

/-- Open as long as no peer key has been accepted; completed with the first that was. -/
inductive Stage (B : Backend) (privateKey : X.PrivateKey) (ops : List Op) : DarkRitual X → Prop
  | open : (∀ op ∈ ops, ¬ op.Accepted B privateKey) → Stage B privateKey ops (.new X privateKey)
  | completed (pre post : List Op) (peer : Bytes) (key : Key) : ops = pre ++ .sharedKey peer :: post →
      (∀ op ∈ pre, ¬ op.Accepted B privateKey) → x25519SharedKey B X (some privateKey) peer = .ok key →
      Stage B privateKey ops ⟨none, some key⟩

theorem call_open (op : Op) : (op.call B X (.new X privateKey)).result = op.onOpen B privateKey := by
  cases op with
  | publicKeyBytes => rfl
  | sharedKey peer =>
    cases h : x25519SharedKey B X (some privateKey) peer <;>
      simp [Op.call, Op.onOpen, sharedKey, DarkRitual.new, h, Except.map]

theorem call_onCompleted (op : Op) (key : Key) :
    op.call B X ⟨none, some key⟩ = ⟨op.onCompleted, ⟨none, some key⟩, []⟩ := by
  cases op <;> rfl

theorem Stage.call {ops : List Op} {self : DarkRitual X} (h : Stage B privateKey ops self) (op : Op) :
    Stage B privateKey (ops ++ [op]) (op.call B X self).self := by
  cases h with
  | completed pre post peer key hops hpre hk =>
    rw [call_onCompleted]
    exact .completed pre (post ++ [op]) peer key (by rw [hops]; simp) hpre hk
  | «open» hops =>
    have hrefused : ¬ op.Accepted B privateKey → ∀ op' ∈ ops ++ [op], ¬ op'.Accepted B privateKey := by
      intro hop op' hmem
      rcases List.mem_append.mp hmem with hmem | hmem
      · exact hops op' hmem
      · obtain rfl := List.mem_singleton.mp hmem
        exact hop
    cases op with
    | publicKeyBytes => exact .open (hrefused id)
    | sharedKey peer =>
      cases hk : x25519SharedKey B X (some privateKey) peer with
      | ok key =>
        have hself : ((Op.sharedKey peer).call B X (.new X privateKey)).self = ⟨none, some key⟩ := by
          simp [Op.call, sharedKey, DarkRitual.new, hk]
        rw [hself]
        exact .completed ops [] peer key rfl hops hk
      | error e =>
        have hself : ((Op.sharedKey peer).call B X (.new X privateKey)).self = .new X privateKey := by
          simp [Op.call, sharedKey, DarkRitual.new, hk]
        rw [hself]
        refine .open (hrefused ?_)
        intro hacc
        obtain ⟨key, hkey⟩ := hacc
        rw [hk] at hkey
        cases hkey

theorem stage_after (ops : List Op) : Stage B privateKey ops ((DarkRitual.new X privateKey).after B X ops) := by
  induction ops using List.reverseRecOn with
  | nil => exact .open (by simp)
  | append_singleton ops op ih =>
    rw [DarkRitual.after, List.foldl_append]
    exact ih.call op

/-- How a call ends after any history: as on an open ritual if no peer key was accepted in it,
    and else as on a completed one. -/
theorem lifecycle (ops : List Op) (op : Op) :
    ((∀ op' ∈ ops, ¬ op'.Accepted B privateKey) →
      (op.call B X ((DarkRitual.new X privateKey).after B X ops)).result = op.onOpen B privateKey ∧
        (isComplete X ((DarkRitual.new X privateKey).after B X ops)).result = .ok false) ∧
    ((∃ op' ∈ ops, op'.Accepted B privateKey) →
      (op.call B X ((DarkRitual.new X privateKey).after B X ops)).result = op.onCompleted ∧
        (isComplete X ((DarkRitual.new X privateKey).after B X ops)).result = .ok true) := by
  have hstage : Stage B privateKey ops ((DarkRitual.new X privateKey).after B X ops) := stage_after ops
  generalize (DarkRitual.new X privateKey).after B X ops = self at hstage
  cases hstage with
  | «open» hops =>
    refine ⟨fun _ => ⟨call_open op, rfl⟩, ?_⟩
    intro hx
    obtain ⟨op', hmem, hacc⟩ := hx
    exact absurd hacc (hops op' hmem)
  | completed pre post peer key hops hpre hk =>
    refine ⟨?_, fun _ => ⟨by rw [call_onCompleted], rfl⟩⟩
    intro hno
    exact absurd ⟨key, hk⟩ (hno (.sharedKey peer) (by rw [hops]; simp))

end Amcrypt.Ritual
