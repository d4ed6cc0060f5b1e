/-
  Amcrypt.Rce — what reaches `pickle.loads` when the components share a key.

  A library is any number of `Necromancer` and `Streamer` instances under one key, and
  `DoppelgangerNecromancer` calls under any keys; a run is any sequence of calls on them,
  the adversary choosing every argument. The trace is every call into pickle and AES-GCM
  with the API call it was made in.

  Nothing in an envelope or in its associated data says which component sealed it, and
  the flags that say how to read the plaintext are not authenticated. So what `revive`
  unpickles was pickled by an earlier `kill` as long as it is not handed a ciphertext that
  another component sealed, nor one of `kill` under other layer bits (`Honest`):
  `loads_dumped`. A chunk of a stream, framed as an envelope, is unpickled as it is:
  `stream_chunk_loaded`.
-/

import Amcrypt.Core.Header
import Amcrypt.Doppelganger
import Amcrypt.Stream.Session

namespace Amcrypt.Rce

open Lib Amcrypt.Core

variable (B : Backend)

/-- The API call that a call into other code was made in; `kill` with the flags of its envelope. -/
inductive Origin where
  | kill (flags : UInt8)
  | revive
  | doppelganger
  | streamer
  deriving DecidableEq

abbrev Entry := Origin × Call

structure Library where
  necromancers : List Necromancer
  streamers : List Stream.Session
  trace : List Entry

def Library.empty : Library := ⟨[], [], []⟩

inductive Use where
  | newNecromancer (antiDebug : Bool) (maxTamper : Int)
  | kill (i : Nat) (obj : B.Obj) (o : KillOptions) (d : Draws) (now : ℚ)
  | revive (i : Nat) (corpse : Bytes) (a : ReviveOptions) (w : World)
  | newStreamer (ratchet : Bool)
  | streamer (i : Nat) (act : Stream.Act)
  | doppelKill (realObj decoyObj : B.Obj) (realKey decoyKey : Bytes) (o : Doppelganger.KillOptions)
      (nonceD nonceR : Nonce) (now : ℚ)
  | doppelRevive (corpse key : Bytes) (hwid : Option Bytes) (stealth : Bool) (now : ℚ)

def tag (origin : Origin) (calls : List Call) : List Entry := calls.map fun c => (origin, c)

variable {B}

def Library.record (l : Library) (origin : Origin) (calls : List Call) : Library :=
  { l with trace := l.trace ++ tag origin calls }

def Library.onNecromancer {α : Type} (l : Library) (i : Nat) (origin : Origin) (m : Py Necromancer α) : Library :=
  match l.necromancers[i]? with
  | some s => { l with necromancers := l.necromancers.set i (m s).self }.record origin (m s).calls
  | none => l

def Library.onStreamer (l : Library) (i : Nat) (m : Py Stream.Session Unit) : Library :=
  match l.streamers[i]? with
  | some s => { l with streamers := l.streamers.set i (m s).self }.record .streamer (m s).calls
  | none => l

def Library.step (key : Key) (l : Library) : Use B → Library
  | .newNecromancer antiDebug maxTamper =>
    { l with necromancers := l.necromancers ++ [.fresh key antiDebug maxTamper] }
  | .kill i obj o d now => l.onNecromancer i (.kill (envelopeFlags o)) (Core.kill B obj o d now)
  | .revive i corpse a w => l.onNecromancer i .revive (Core.revive B corpse a w)
  | .newStreamer ratchet => { l with streamers := l.streamers ++ [.fresh key ratchet] }
  | .streamer i act => l.onStreamer i (act.run B)
  | .doppelKill realObj decoyObj realKey decoyKey o nonceD nonceR now =>
    l.record .doppelganger (Doppelganger.kill B realObj decoyObj realKey decoyKey o nonceD nonceR now ()).calls
  | .doppelRevive corpse key' hwid stealth now =>
    l.record .doppelganger (Doppelganger.revive B corpse key' hwid stealth now ()).calls

def Library.after (key : Key) (l : Library) (uses : List (Use B)) : Library := uses.foldl (Library.step key) l

/-! ## What is promised, and when it holds -/

/-- `revive` hands `data` to pickle. -/
def Loads (e : Entry) (data : Bytes) : Prop := e = (.revive, .loads data)

/-- `kill` had `data` from pickle. -/
def Dumps (e : Entry) (data : Bytes) : Prop := ∃ flags, e = (.kill flags, .dumps data)

/-- Every ciphertext under the shared key that the envelope carries was sealed by `kill`,
    under the layer bits that the envelope names. -/
def Honest (key : Key) (trace : List Entry) (corpse : Bytes) (stealth : Bool) : Prop :=
  ∀ nonce ct f, unpack corpse stealth = .ok (nonce, ct, f) →
    ∀ origin (n : Nonce) a p, (origin, .encrypt key n a p ct) ∈ trace → n.val = nonce →
      ∃ g, origin = .kill g ∧ layerBits g = layerBits f

def Use.Honest (key : Key) (trace : List Entry) : Use B → Prop
  | .revive _ corpse a _ => Rce.Honest key trace corpse a.stealth
  | _ => True

/-- So it is at every step of a run. -/
def HonestRun (key : Key) (l : Library) : List (Use B) → Prop
  | [] => True
  | u :: uses => u.Honest key l.trace ∧ HonestRun key (l.step key u) uses

/-! ## One step -/

structure Library.Inv (B : Backend) (key : Key) (l : Library) : Prop where
  keyed : ∀ s ∈ l.necromancers, ∀ k, s.key = some k → k = key
  wrapped : ∀ g k n a p ct, (.kill g, .encrypt k n a p ct) ∈ l.trace → ∃ o d now pickled,
    wrap B o d now (B.compress pickled) = .ok p ∧ g = envelopeFlags o ∧ (.kill g, .dumps pickled) ∈ l.trace
  immune : Corresponds Loads Dumps l.trace

variable {key : Key} {l : Library}

/-- Calls that seal, inside a `kill`, only what was wrapped around a pickle dumped there. -/
theorem Library.Inv.wrapped_append (h : l.Inv B key) {origin : Origin} {calls : List Call}
    (hnew : ∀ g k n a p ct, origin = .kill g → .encrypt k n a p ct ∈ calls → ∃ o d now pickled,
      wrap B o d now (B.compress pickled) = .ok p ∧ g = envelopeFlags o ∧ .dumps pickled ∈ calls)
    (g : UInt8) (k : Key) (n : Nonce) (a : Option Bytes) (p ct : Bytes)
    (hmem : (.kill g, .encrypt k n a p ct) ∈ l.trace ++ tag origin calls) :
    ∃ o d now pickled, wrap B o d now (B.compress pickled) = .ok p ∧ g = envelopeFlags o ∧
      (.kill g, .dumps pickled) ∈ l.trace ++ tag origin calls := by
  rcases List.mem_append.mp hmem with hmem | hmem
  · obtain ⟨o, d, now, pickled, hw, hg, hd⟩ := h.wrapped g k n a p ct hmem
    exact ⟨o, d, now, pickled, hw, hg, List.mem_append_left _ hd⟩
  · obtain ⟨c, hc, heq⟩ := List.mem_map.mp hmem
    obtain ⟨rfl, rfl⟩ := Prod.mk.inj heq
    obtain ⟨o, d, now, pickled, hw, hg, hd⟩ := hnew g k n a p ct rfl hc
    exact ⟨o, d, now, pickled, hw, hg, List.mem_append_right _ (List.mem_map_of_mem hd)⟩

/-- Calls that load nothing inside a `revive`. -/
theorem Library.Inv.immune_append (h : l.Inv B key) {origin : Origin} {calls : List Call}
    (hno : ∀ x, .loads x ∈ calls → origin ≠ .revive) : Corresponds Loads Dumps (l.trace ++ tag origin calls) := by
  refine h.immune.append ?_
  intro e he x hx
  obtain ⟨c, hc, rfl⟩ := List.mem_map.mp he
  obtain ⟨horigin, rfl⟩ := Prod.mk.inj hx
  exact hno x hc horigin

/-- Calls of another component than `kill` and `revive`. -/
theorem Library.Inv.other (h : l.Inv B key) {origin : Origin} (hk : ∀ g, origin ≠ .kill g) (hr : origin ≠ .revive)
    (calls : List Call) : (l.record origin calls).Inv B key := by
  refine ⟨h.keyed, h.wrapped_append ?_, h.immune_append fun _ _ => hr⟩
  intro g k n a p ct hg
  exact absurd hg (hk g)

theorem Library.Inv.kill (h : l.Inv B key) (i : Nat) (obj : B.Obj) (o : KillOptions) (d : Draws) (now : ℚ) :
    (l.onNecromancer i (.kill (envelopeFlags o)) (Core.kill B obj o d now)).Inv B key := by
  unfold Library.onNecromancer
  split
  · rename_i s hs
    refine ⟨?_, h.wrapped_append ?_, h.immune_append fun _ _ => by simp⟩
    · intro t ht k hk
      rw [kill_self] at ht
      rcases List.mem_or_eq_of_mem_set ht with ht | rfl
      · exact h.keyed t ht k hk
      · exact h.keyed t (List.mem_of_getElem? hs) k hk
    · intro g k n a p ct hg hc
      obtain rfl := Origin.kill.inj hg
      obtain ⟨pickled, hw, hd⟩ := kill_encrypts hc
      exact ⟨o, d, now, pickled, hw, rfl, hd⟩
  · exact h

/-- What an honest envelope holds was dumped by the `kill` that sealed it. -/
theorem Library.Inv.loaded (h : l.Inv B key) (hzlib : B.ZlibInverts) {corpse : Bytes} {a : ReviveOptions}
    {w : World} {s : Necromancer} (hs : s ∈ l.necromancers) {k : Key} {nonce ct : Bytes} {f : UInt8}
    {p data : Bytes} (hr : Reaches corpse a w s k nonce ct f)
    (hc : contents B f a.verifyKey w.now p = .ok data) (hhonest : Honest key l.trace corpse a.stealth)
    {later : List Call} (hideal : Ideal (l.trace.map Prod.snd ++ .decrypt k nonce ct a.hwid (.ok p) :: later)) :
    ∃ e ∈ l.trace, Dumps e data := by
  obtain rfl := h.keyed s hs k hr.keyed
  obtain ⟨n, hn, a', -, hmem⟩ := Ideal.sealed hideal
  obtain ⟨⟨origin, c⟩, hentry, rfl⟩ := List.mem_map.mp hmem
  obtain ⟨g, rfl, hbits⟩ := hhonest nonce ct f hr.frame origin n a' p hentry hn
  obtain ⟨o, d, now, pickled, hw, rfl, hd⟩ := h.wrapped _ _ _ _ _ _ hentry
  simp only [contents, bind_eq_ok] at hc
  obtain ⟨z, hz, hdata⟩ := hc
  rw [unwrap_congr B hbits.symm] at hz
  rw [unwrap_wrap_only hw hz, hzlib pickled] at hdata
  obtain rfl := Except.ok.inj hdata
  exact ⟨_, hd, envelopeFlags o, rfl⟩

theorem Library.Inv.revive (h : l.Inv B key) (hzlib : B.ZlibInverts) (i : Nat) (corpse : Bytes) (a : ReviveOptions)
    (w : World) (hhonest : Honest key l.trace corpse a.stealth)
    (hideal : Ideal ((l.onNecromancer i .revive (Core.revive B corpse a w)).trace.map Prod.snd)) :
    (l.onNecromancer i .revive (Core.revive B corpse a w)).Inv B key := by
  unfold Library.onNecromancer at hideal ⊢
  split at hideal
  · rename_i s hs
    have hmem := List.mem_of_getElem? hs
    have hkeyed := revive_key (B := B) corpse a w s
    have hx := revive_exit (B := B) corpse a w s
    refine ⟨?_, h.wrapped_append ?_, ?_⟩
    · intro t ht k hk
      rcases List.mem_or_eq_of_mem_set ht with ht | rfl
      · exact h.keyed t ht k hk
      · rcases hkeyed with he | he
        · exact h.keyed s hmem k (he ▸ hk)
        · rw [he] at hk; cases hk
    · intro g k n a' p ct hg
      cases hg
    · show Corresponds Loads Dumps (l.trace ++ tag .revive (Core.revive B corpse a w s).calls)
      simp only [Library.record, List.map_append, tag, List.map_map] at hideal
      generalize Core.revive B corpse a w s = out at hx hideal
      cases hx with
      | loaded k nonce ct f p data hr hg hc =>
        have hdump := h.loaded hzlib hmem hr hc hhonest (by simpa [Function.comp_def] using hideal)
        have hopen : Corresponds Loads Dumps (l.trace ++ tag .revive [.decrypt k nonce ct a.hwid (.ok p)]) :=
          h.immune_append fun x hin => by simp at hin
        have hbegun : ∀ x, Loads (.revive, .loads data) x →
            ∃ e ∈ l.trace ++ tag .revive [.decrypt k nonce ct a.hwid (.ok p)], Dumps e x := by
          intro x hx
          obtain ⟨-, hx⟩ := Prod.mk.inj hx
          obtain rfl := Call.loads.inj hx
          obtain ⟨e, he, hd⟩ := hdump
          exact ⟨e, List.mem_append_left _ he, hd⟩
        simpa [tag] using hopen.snoc hbegun
      | _ => exact h.immune_append fun x hin => by simp at hin
  · exact h

/-! ## Every run -/

theorem Library.Inv.step (h : l.Inv B key) (hzlib : B.ZlibInverts) (u : Use B) (hhonest : u.Honest key l.trace)
    (hideal : Ideal ((l.step key u).trace.map Prod.snd)) : (l.step key u).Inv B key := by
  cases u with
  | newNecromancer antiDebug maxTamper =>
    refine ⟨?_, h.wrapped, h.immune⟩
    intro s hs k hk
    rcases List.mem_append.mp hs with hs | hs
    · exact h.keyed s hs k hk
    · rw [List.mem_singleton.mp hs] at hk
      exact (Option.some.inj hk).symm
  | kill i obj o d now => exact h.kill i obj o d now
  | revive i corpse a w => exact h.revive hzlib i corpse a w hhonest hideal
  | newStreamer ratchet => exact ⟨h.keyed, h.wrapped, h.immune⟩
  | streamer i act =>
    simp only [Library.step, Library.onStreamer]
    split
    · rename_i s _
      have h' : ({ l with streamers := l.streamers.set i (act.run B s).self } : Library).Inv B key :=
        ⟨h.keyed, h.wrapped, h.immune⟩
      exact h'.other (by simp) (by simp) _
    · exact h
  | doppelKill realObj decoyObj realKey decoyKey o nonceD nonceR now => exact h.other (by simp) (by simp) _
  | doppelRevive corpse key' hwid stealth now => exact h.other (by simp) (by simp) _

theorem step_trace (key : Key) (l : Library) (u : Use B) : ∃ more, (l.step key u).trace = l.trace ++ more := by
  cases u with
  | newNecromancer antiDebug maxTamper => exact ⟨[], (List.append_nil _).symm⟩
  | newStreamer ratchet => exact ⟨[], (List.append_nil _).symm⟩
  | kill i obj o d now | revive i corpse a w =>
    simp only [Library.step, Library.onNecromancer]
    split
    · exact ⟨_, rfl⟩
    · exact ⟨[], (List.append_nil _).symm⟩
  | streamer i act =>
    simp only [Library.step, Library.onStreamer]
    split
    · exact ⟨_, rfl⟩
    · exact ⟨[], (List.append_nil _).symm⟩
  | doppelKill realObj decoyObj realKey decoyKey o nonceD nonceR now => exact ⟨_, rfl⟩
  | doppelRevive corpse key' hwid stealth now => exact ⟨_, rfl⟩

theorem after_trace (key : Key) (l : Library) (uses : List (Use B)) :
    ∃ more, (l.after key uses).trace = l.trace ++ more := by
  induction uses generalizing l with
  | nil => exact ⟨[], (List.append_nil _).symm⟩
  | cons u uses ih =>
    obtain ⟨m, hm⟩ := step_trace key l u
    obtain ⟨m', hm'⟩ := ih (l.step key u)
    exact ⟨m ++ m', by rw [← List.append_assoc, ← hm]; exact hm'⟩

theorem Library.Inv.after (h : l.Inv B key) (hzlib : B.ZlibInverts) {uses : List (Use B)}
    (hhonest : HonestRun key l uses) (hideal : Ideal ((l.after key uses).trace.map Prod.snd)) :
    (l.after key uses).Inv B key := by
  induction uses generalizing l with
  | nil => exact h
  | cons u uses ih =>
    have hstep : Ideal ((l.step key u).trace.map Prod.snd) := by
      obtain ⟨more, hmore⟩ := after_trace key (l.step key u) uses
      have hideal : Ideal (((l.step key u).after key uses).trace.map Prod.snd) := hideal
      rw [hmore, List.map_append] at hideal
      exact hideal.of_append
    exact ih (h.step hzlib u hhonest.1 hstep) hhonest.2 hideal

/-- In every run of honest envelopes, whatever `revive` hands to pickle was dumped inside
    an earlier `kill`. -/
theorem loads_dumped (hzlib : B.ZlibInverts) (key : Key) {uses : List (Use B)}
    (hhonest : HonestRun key .empty uses) (hideal : Ideal ((Library.empty.after key uses).trace.map Prod.snd)) :
    Corresponds Loads Dumps (Library.empty.after key uses).trace := by
  have h0 : Library.empty.Inv B key := ⟨by simp [Library.empty], by simp [Library.empty], Corresponds.nil⟩
  exact (h0.after hzlib hhonest hideal).immune

/-! ## Runs -/

section
open Reference

/-- A pickle nobody dumped, compressed: a chunk of a stream. -/
def evilChunk : Bytes := Stored.compress evilPickle

/-- What was seen of that stream, behind the header of an envelope. -/
def forged : Bytes := header magic version 0 12 ++ (runNonce.val ++ gcmEncrypt runKey runNonce.val evilChunk none)

def forging : List (Use reference) :=
  [.newNecromancer true 3, .newStreamer true, .streamer 0 (.sealing [(evilChunk, runNonce)]), .streamer 0 (.next 0),
    .revive 0 forged {} ⟨false, 0⟩]

/-- A stream chunk is framed as an envelope, and `revive` unpickles it. -/
theorem stream_chunk_loaded :
    Ideal ((Library.empty.after runKey forging).trace.map Prod.snd) ∧
      ¬ Corresponds Loads Dumps (Library.empty.after runKey forging).trace := by
  have htrace : (Library.empty.after runKey forging).trace = [
      (.streamer, .encrypt runKey runNonce none evilChunk (gcmEncrypt runKey runNonce.val evilChunk none)),
      (.revive, .decrypt runKey runNonce.val (gcmEncrypt runKey runNonce.val evilChunk none) none (.ok evilChunk)),
      (.revive, .loads evilPickle)] := by
    decide +kernel
  rw [htrace]
  refine ⟨((Ideal.nil.snoc fun _ => id).snoc_open (by simp) rfl).snoc fun _ => id, ?_⟩
  intro h
  obtain ⟨e, he, flags, rfl⟩ := h [_, _] _ [] rfl evilPickle rfl
  simp at he

def plainPickle : Bytes := [0x80, 0x05, 0x95, 7, 0, 0, 0, 0, 0, 0, 0, 0x43, 3, 1, 2, 3, 0x94, 0x2e]

def plainCiphertext : Bytes := gcmEncrypt runKey runNonce.val (Stored.compress plainPickle) none

def genuine : Bytes := header magic version 0 12 ++ (runNonce.val ++ plainCiphertext)

def honestUses : List (Use reference) :=
  [.newNecromancer true 3, .kill 0 [1, 2, 3] {} runDraws 0, .revive 0 genuine {} ⟨false, 0⟩]

/-- A killed envelope, revived. -/
theorem loads_dumped_run :
    Corresponds Loads Dumps (Library.empty.after runKey honestUses).trace ∧
      (Library.empty.after runKey honestUses).trace.getLast? = some (.revive, .loads plainPickle) := by
  have htrace : (Library.empty.after runKey honestUses).trace = [
      (.kill 0, .dumps plainPickle),
      (.kill 0, .encrypt runKey runNonce none (Stored.compress plainPickle) plainCiphertext),
      (.revive, .decrypt runKey runNonce.val plainCiphertext none (.ok (Stored.compress plainPickle))),
      (.revive, .loads plainPickle)] := by
    decide +kernel
  have hframe : unpack genuine false = .ok (runNonce.val, plainCiphertext, 0) := by decide +kernel
  have hbefore : (Library.empty.after runKey (honestUses.take 2)).trace = [
      (.kill 0, .dumps plainPickle),
      (.kill 0, .encrypt runKey runNonce none (Stored.compress plainPickle) plainCiphertext)] := by
    decide +kernel
  have hhonest : Honest runKey (Library.empty.after runKey (honestUses.take 2)).trace genuine false := by
    intro nonce ct f hf origin n a p hmem _
    rw [hframe] at hf
    rw [hbefore] at hmem
    obtain ⟨-, -, rfl⟩ : _ ∧ _ ∧ 0 = f := by simpa using hf
    simp only [List.mem_cons, Prod.mk.injEq, reduceCtorEq, and_false, List.not_mem_nil, or_false, false_or] at hmem
    exact ⟨0, hmem.1, rfl⟩
  have hideal : Ideal ((Library.empty.after runKey honestUses).trace.map Prod.snd) := by
    rw [htrace]
    exact (((Ideal.nil.snoc fun _ => id).snoc fun _ => id).snoc_open (by simp) rfl).snoc fun _ => id
  exact ⟨loads_dumped zlibInverts runKey ⟨trivial, trivial, hhonest, trivial⟩ hideal, by rw [htrace]; rfl⟩

end

end Amcrypt.Rce
