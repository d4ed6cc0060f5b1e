/-
  Amcrypt.Doppelganger — the `DoppelgangerNecromancer` (`doppelganger.py`): two
  ciphertexts under two keys in one envelope.

  `magic (4) | version (1) | flags (1) | decoy block length (2) | decoy block | real block`

  A block is a nonce of 12 bytes and a ciphertext. The object has no state. The helpers
  that the source repeats here (`_pack_ttl`, the stealth mask, the header format) are
  those of `Amcrypt.Core`.
-/

import Amcrypt.Core.Layers

namespace Amcrypt.Doppelganger

open Lib Amcrypt.Core

variable (B : Backend)

def version : UInt8 := 3
def nonceLength : Nat := 12
def flagDual : UInt8 := 0x20

/-- `kill`'s options. -/
structure KillOptions where
  hwid : Option Bytes := none
  ttlSeconds : Option Int := none
  stealth : Bool := false

/-- The check of a key argument; `label` names it in the message. -/
def checkKey (label : String) (key : Bytes) : Except PyErr Key :=
  if h : key.length = 32 then .ok ⟨key, h⟩ else .error (.valueError (label ++ " must be exactly 32 bytes"))

def flagsOf (o : KillOptions) : UInt8 :=
  let flags := flagDual
  let flags := if o.ttlSeconds.isSome then flags ||| flagTtl else flags
  if o.hwid.isSome then flags ||| flagHwid else flags

/-- What `kill` puts in front of both compressed pickles, at time `now`. -/
def ttlPrefix (now : ℚ) (ttlSeconds : Option Int) : Except PyErr Bytes :=
  match ttlSeconds with
  | none => pure []
  | some ttl => if ttl ≤ 0 then throw (.valueError "ttl_seconds must be a positive integer") else packTtl now ttl

/-- `DoppelgangerNecromancer._pack`. -/
def pack (nonceD ctD nonceR ctR : Bytes) (flags : UInt8) (stealth : Bool) (key : Key) : Except PyErr Bytes := do
  let flags := if stealth then flags ||| flagStealth else flags
  let magic := if stealth then applyStealthMagic magic (stealthMask B key) else magic
  let decoyBlock := nonceD ++ ctD
  let header ← packHeader magic version flags decoyBlock.length
  pure (header ++ decoyBlock ++ nonceR ++ ctR)

/-- `kill`; the nonces are what its two encryptions draw. -/
def kill (realObj decoyObj : B.Obj) (realKey decoyKey : Bytes) (o : KillOptions) (nonceD nonceR : Nonce) (now : ℚ) :
    Py Unit Bytes := do
  let realKey ← Method.ofExcept (checkKey "real_key" realKey)
  let decoyKey ← Method.ofExcept (checkKey "decoy_key" decoyKey)
  let realPickled ← dumps B realObj
  let decoyPickled ← dumps B decoyObj
  let realCompressed := B.compress realPickled
  let decoyCompressed := B.compress decoyPickled
  let ttlRaw ← Method.ofExcept (ttlPrefix now o.ttlSeconds)
  let (nonceD, ctD) ← aesEncrypt B decoyKey (ttlRaw ++ decoyCompressed) o.hwid nonceD
  let (nonceR, ctR) ← aesEncrypt B realKey (ttlRaw ++ realCompressed) o.hwid nonceR
  Method.ofExcept (pack B nonceD.val ctD nonceR.val ctR (flagsOf o) o.stealth decoyKey)

/-- The header checks of `revive`: the flags, the decoy block and the real block. -/
def readBlocks (corpse : Bytes) (hwid : Option Bytes) (stealth : Bool) : Except PyErr (UInt8 × Bytes × Bytes) := do
  let (m, v, flags, split) ← unpackHeader corpse
  if !stealth && m != magic then throw (invalidMagic m)
  else if v ≠ version then throw (unsupportedVersion v)
  else if !has flags flagDual then throw (corpseDeliveryError "Envelope is not a dual-key payload")
  else if has flags flagHwid && hwid.isNone then
    throw (wrongRealmError "This payload is soul-bound; hwid= must be provided")
  else
    let decoyEnd := headerSize + split
    pure (flags, slice headerSize decoyEnd corpse, corpse.drop decoyEnd)

/-- The trial decryption: the first block that the key opens. -/
def trial (key : Key) (hwid : Option Bytes) : List (Bytes × Bytes) → Py Unit (Option Bytes)
  | [] => pure none
  | (nonce, ct) :: blocks => do
    let verdict ← Method.attempt (aesDecrypt B key nonce ct hwid)
    match verdict with
    | .ok plaintext => pure (some plaintext)
    | .error .invalidTag => trial key hwid blocks
    | .error e => Method.raise e

def noMatch : PyErr := wrongRealmError "Key does not match either the real or decoy block"

def revive (corpse key : Bytes) (hwid : Option Bytes) (stealth : Bool) (now : ℚ) : Py Unit B.Obj := do
  let key ← Method.ofExcept (checkKey "key" key)
  let (flags, decoyBlock, realBlock) ← Method.ofExcept (readBlocks corpse hwid stealth)
  let found ← trial B key hwid [(decoyBlock.take nonceLength, decoyBlock.drop nonceLength),
    (realBlock.take nonceLength, realBlock.drop nonceLength)]
  match found with
  | none => Method.raise noMatch
  | some plaintext => do
    let plaintext ← Method.ofExcept (stage flags flagTtl (stripTtl now) plaintext)
    let decompressed ← Method.ofExcept (B.decompress plaintext)
    loads B decompressed

end Amcrypt.Doppelganger
