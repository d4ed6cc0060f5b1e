/-
  Amcrypt.Memory.Process — a process that holds any number of `Necromancer`s,
  `DoppelgangerNecromancer`s and `Streamer`s, and the buffers their keys were made from.

  The caller allocates buffers, overwrites its own as it likes, makes objects from them and
  calls any method of any object in any order (`Act`). `Process` runs the bodies of
  `Amcrypt.Memory`, over one heap; `Values` runs those of the other modules, where an object
  is its key and a buffer its bytes. `relates_use`: one call in memory is that call by value.
-/

import Amcrypt.Memory.Doppelganger
import Amcrypt.Memory.Streamer

namespace Amcrypt.Memory

open Lib

/-- An object of the library. -/
inductive Thing (ν σ : Type) where
  | necromancer (self : ν)
  | streamer (self : σ)
  /-- A `DoppelgangerNecromancer` has no fields. -/
  | doppelganger (self : Unit)

inductive Output (B : Backend) where
  | none
  | raised (e : PyErr)
  | bytes (data : Bytes)
  | object (obj : B.Obj)

/-- A method call. -/
inductive Use (B : Backend) where
  | kill (obj : B.Obj) (o : Core.KillOptions) (d : Core.Draws) (now : ℚ)
  | revive (corpse : Bytes) (a : Core.ReviveOptions) (w : Core.World)
  | killBoth (realObj decoyObj : B.Obj) (realKey decoyKey : Bytes) (o : Doppelganger.KillOptions)
      (nonceD nonceR : Nonce) (now : ℚ)
  | reviveOne (corpse key : Bytes) (hwid : Option Bytes) (stealth : Bool) (now : ℚ)
  | sealChunk (chunk : Bytes) (nonce : Nonce)
  | openChunk (wire : Bytes)
  | destroy

/-- What the caller does; buffers and objects go by the order they were made in. -/
inductive Act (B : Backend) where
  | allocate (b : Buffer)
  | overwrite (buffer : Nat) (data : Bytes)
  | newNecromancer (buffer : Nat) (antiDebug : Bool) (maxTamper : Int)
  | newStreamer (buffer : Nat) (ratchet : Bool)
  | newDoppelganger
  | use (thing : Nat) (u : Use B)

variable {B : Backend}

def Output.wire : Option Bytes → Output B
  | some data => .bytes data
  | .none => .none

/-- What the caller sees of a call. -/
def Output.of : Except PyErr (Output B) → Output B
  | .ok v => v
  | .error e => .raised e

/-! ## In memory -/

abbrev Object := Thing Necromancer Streamer

def inMemory {σ α : Type} (f : α → Output B) (g : σ → Object) (out : Out PyErr Call (Mem σ) α) :
    Out PyErr Call (Mem Object) (Output B) :=
  ⟨out.result.map f, ⟨out.self.heap, g out.self.self⟩, out.calls⟩

/-- The call on the object; a method it does not have does nothing. -/
def Use.run (u : Use B) (heap : Heap) (x : Object) : Out PyErr Call (Mem Object) (Output B) :=
  match u, x with
  | .kill obj o d now, .necromancer self =>
    inMemory .bytes .necromancer (Necromancer.kill B obj o d now ⟨heap, self⟩)
  | .revive corpse a w, .necromancer self =>
    inMemory .object .necromancer (Necromancer.revive B corpse a w ⟨heap, self⟩)
  | .killBoth realObj decoyObj realKey decoyKey o nonceD nonceR now, .doppelganger self =>
    inMemory .bytes .doppelganger
      (Doppelganger.kill B realObj decoyObj realKey decoyKey o nonceD nonceR now ⟨heap, self⟩)
  | .reviveOne corpse key hwid stealth now, .doppelganger self =>
    inMemory .object .doppelganger (Doppelganger.revive B corpse key hwid stealth now ⟨heap, self⟩)
  | .sealChunk chunk nonce, .streamer self =>
    inMemory .wire .streamer (Streamer.sealChunk B chunk nonce ⟨heap, self⟩)
  | .openChunk wire, .streamer self => inMemory .bytes .streamer (Streamer.openChunk B wire ⟨heap, self⟩)
  | .destroy, .streamer self => inMemory (fun _ => .none) .streamer (Streamer.destroy ⟨heap, self⟩)
  | _, x => ⟨.ok .none, ⟨heap, x⟩, []⟩

structure Process (B : Backend) where
  heap : Heap
  buffers : List Addr
  things : List Object
  trace : List (Nat × Call)
  outputs : List (Output B)

def Process.empty : Process B := ⟨[], [], [], [], []⟩

/-- An object made, or not, from a buffer of the caller's. -/
def Process.make {σ : Type} (p : Process B) (g : σ → Object) (out : Out PyErr Call (Mem Unit) σ) : Process B :=
  match out.result with
  | .ok self => { p with heap := out.self.heap, things := p.things ++ [g self], outputs := p.outputs ++ [.none] }
  | .error e => { p with heap := out.self.heap, outputs := p.outputs ++ [.raised e] }

def Process.step (p : Process B) : Act B → Process B
  | .allocate b => { p with heap := p.heap ++ [b], buffers := p.buffers ++ [p.heap.length] }
  | .overwrite buffer data => match p.buffers[buffer]? with
    | some a => if p.heap.isMutable a then { p with heap := p.heap.write a data } else p
    | none => p
  | .newNecromancer buffer antiDebug maxTamper => match p.buffers[buffer]? with
    | some a => p.make .necromancer (Necromancer.new a antiDebug maxTamper ⟨p.heap, ()⟩)
    | none => p
  | .newStreamer buffer ratchet => match p.buffers[buffer]? with
    | some a => p.make .streamer (Streamer.new a ratchet ⟨p.heap, ()⟩)
    | none => p
  | .newDoppelganger => { p with things := p.things ++ [.doppelganger ()], outputs := p.outputs ++ [.none] }
  | .use thing u => match p.things[thing]? with
    | some x =>
      let out := u.run p.heap x
      { p with heap := out.self.heap, things := p.things.set thing out.self.self,
               trace := p.trace ++ out.calls.map (thing, ·), outputs := p.outputs ++ [.of out.result] }
    | none => p

def Process.after (p : Process B) (acts : List (Act B)) : Process B := acts.foldl Process.step p

/-! ## By value -/

abbrev ValueObject := Thing Core.Necromancer Stream.Streamer

def byValue {σ α : Type} (f : α → Output B) (g : σ → ValueObject) (out : Out PyErr Call σ α) :
    Out PyErr Call ValueObject (Output B) :=
  ⟨out.result.map f, g out.self, out.calls⟩

def Use.value (u : Use B) (y : ValueObject) : Out PyErr Call ValueObject (Output B) :=
  match u, y with
  | .kill obj o d now, .necromancer self => byValue .bytes .necromancer (Core.kill B obj o d now self)
  | .revive corpse a w, .necromancer self => byValue .object .necromancer (Core.revive B corpse a w self)
  | .killBoth realObj decoyObj realKey decoyKey o nonceD nonceR now, .doppelganger self =>
    byValue .bytes .doppelganger
      (Amcrypt.Doppelganger.kill B realObj decoyObj realKey decoyKey o nonceD nonceR now self)
  | .reviveOne corpse key hwid stealth now, .doppelganger self =>
    byValue .object .doppelganger (Amcrypt.Doppelganger.revive B corpse key hwid stealth now self)
  | .sealChunk chunk nonce, .streamer self => byValue .wire .streamer (Stream.sealChunk B chunk nonce self)
  | .openChunk wire, .streamer self => byValue .bytes .streamer (Stream.openChunk B wire self)
  | .destroy, .streamer self => byValue (fun _ => .none) .streamer (Stream.destroy self)
  | _, y => ⟨.ok .none, y, []⟩

structure Values (B : Backend) where
  buffers : List Buffer
  things : List ValueObject
  trace : List (Nat × Call)
  outputs : List (Output B)

def Values.empty : Values B := ⟨[], [], [], []⟩

def Values.make {σ : Type} (q : Values B) (g : σ → ValueObject) : Except PyErr σ → Values B
  | .ok self => { q with things := q.things ++ [g self], outputs := q.outputs ++ [.none] }
  | .error e => { q with outputs := q.outputs ++ [.raised e] }

def Values.step (q : Values B) : Act B → Values B
  | .allocate b => { q with buffers := q.buffers ++ [b] }
  | .overwrite buffer data => match q.buffers[buffer]? with
    | some b => if b.mutable then { q with buffers := q.buffers.set buffer ⟨true, data⟩ } else q
    | none => q
  | .newNecromancer buffer antiDebug maxTamper => match q.buffers[buffer]? with
    | some b => q.make .necromancer (Core.Necromancer.new b.data antiDebug maxTamper)
    | none => q
  | .newStreamer buffer ratchet => match q.buffers[buffer]? with
    | some b => q.make .streamer (Stream.Streamer.new b.data ratchet)
    | none => q
  | .newDoppelganger => q.make .doppelganger (.ok ())
  | .use thing u => match q.things[thing]? with
    | some y =>
      let out := u.value y
      { q with things := q.things.set thing out.self, trace := q.trace ++ out.calls.map (thing, ·),
               outputs := q.outputs ++ [.of out.result] }
    | none => q

def Values.after (q : Values B) (acts : List (Act B)) : Values B := acts.foldl Values.step q

/-! ## One call -/

namespace Thing

def keyAt : Object → Option Addr
  | .necromancer self => self.key
  | .streamer self => some self.key
  | .doppelganger _ => none

def keyOf : ValueObject → Option Key
  | .necromancer self => self.key
  | .streamer self => some self.key
  | .doppelganger _ => none

/-- The `bytes` objects that the object's calls leave. -/
def copies : Object → Call → List Bytes
  | .necromancer _ => Necromancer.copies
  | .streamer _ => Streamer.copies
  | .doppelganger _ => Necromancer.copies

inductive Same : Object → ValueObject → Prop
  | necromancer {x : Necromancer} {y : Core.Necromancer} : Necromancer.Same x y → Same (.necromancer x) (.necromancer y)
  | streamer {x : Streamer} {y : Stream.Streamer} : Streamer.Same x y → Same (.streamer x) (.streamer y)
  | doppelganger {x y : Unit} : Same (.doppelganger x) (.doppelganger y)

/-- As the objects of its class have it. -/
def layout (x : Object) : Layout Object ValueObject := ⟨fun x' y => Same x' y ∧ x'.copies = x.copies, keyAt, keyOf, x.copies⟩

end Thing

variable {heap : Heap}

theorem Holds.necromancer {start m : Mem Necromancer} {past : List Call} {t : Core.Necromancer}
    (h : Holds B Necromancer.layout start past m t) :
    Holds B (Thing.layout (.necromancer start.self)) ⟨start.heap, .necromancer start.self⟩ past
      ⟨m.heap, .necromancer m.self⟩ (.necromancer t) :=
  ⟨⟨.necromancer h.same, rfl⟩, h.key, h.own, h.frame, h.left, h.clean⟩

theorem Holds.streamer {start m : Mem Streamer} {past : List Call} {t : Stream.Streamer}
    (h : Holds B Streamer.layout start past m t) :
    Holds B (Thing.layout (.streamer start.self)) ⟨start.heap, .streamer start.self⟩ past
      ⟨m.heap, .streamer m.self⟩ (.streamer t) :=
  ⟨⟨.streamer h.same, rfl⟩, h.key, h.own, h.frame, h.left, h.clean⟩

theorem Holds.doppelganger {start m : Mem Unit} {past : List Call} {t : Unit}
    (h : Holds B Doppelganger.layout start past m t) :
    Holds B (Thing.layout (.doppelganger start.self)) ⟨start.heap, .doppelganger start.self⟩ past
      ⟨m.heap, .doppelganger m.self⟩ (.doppelganger t) :=
  ⟨⟨.doppelganger, rfl⟩, h.key, h.own, h.frame, h.left, h.clean⟩

theorem relates_inMemory {σ τ α : Type} {L : Layout σ τ} {start : Mem σ} {x : Object} {f : α → Output B} {g : σ → Object}
    {g' : τ → ValueObject}
    (hg : ∀ past m t, Holds B L start past m t → Holds B x.layout ⟨heap, x⟩ past ⟨m.heap, g m.self⟩ (g' t))
    {o : Out PyErr Call (Mem σ) α} {o' : Out PyErr Call τ α}
    (h : Out.Relates [] (fun a b past m t => a = b ∧ Holds B L start past m t) (Holds B L start) o o') :
    Out.Relates [] (fun v v' past m t => v = v' ∧ Holds B x.layout ⟨heap, x⟩ past m t) (Holds B x.layout ⟨heap, x⟩)
      (inMemory f g o) (byValue f g' o') := by
  cases h with
  | ok h => exact .ok ⟨congrArg f h.1, hg _ _ _ h.2⟩
  | error h => exact .error (hg _ _ _ h)

/-- One call in memory is that call by value, and keeps the frame. -/
theorem relates_use (heap : Heap) (u : Use B) {x : Object} {y : ValueObject} (hsame : Thing.Same x y)
    (hkey : KeyAt heap x.keyAt y.keyOf) :
    Out.Relates [] (fun v v' past m t => v = v' ∧ Holds B x.layout ⟨heap, x⟩ past m t) (Holds B x.layout ⟨heap, x⟩)
      (u.run heap x) (u.value y) := by
  have idle : Out.Relates [] (fun v v' past m t => v = v' ∧ Holds B x.layout ⟨heap, x⟩ past m t)
      (Holds B x.layout ⟨heap, x⟩) (⟨.ok .none, ⟨heap, x⟩, []⟩ : Out PyErr Call (Mem Object) (Output B))
      ⟨.ok .none, y, []⟩ := .ok ⟨rfl, .refl ⟨hsame, rfl⟩ hkey⟩
  cases hsame with
  | @necromancer n n' h =>
    have hstart : Holding B Necromancer.layout ⟨heap, n⟩ [] [] ⟨heap, n⟩ n' := .refl h hkey
    cases u with
    | kill obj o d now => exact relates_inMemory (fun _ _ _ => Holds.necromancer) (Necromancer.relates_kill obj o d now _ _ _ hstart)
    | revive corpse a w => exact relates_inMemory (fun _ _ _ => Holds.necromancer) (Necromancer.relates_revive corpse a w _ _ _ hstart)
    | _ => exact idle
  | @streamer s s' h =>
    have hstart : Holding B Streamer.layout ⟨heap, s⟩ [] [] ⟨heap, s⟩ s' := .refl h hkey
    cases u with
    | sealChunk chunk nonce => exact relates_inMemory (fun _ _ _ => Holds.streamer) (Streamer.relates_sealChunk chunk nonce _ _ _ hstart)
    | openChunk wire => exact relates_inMemory (fun _ _ _ => Holds.streamer) (Streamer.relates_openChunk wire _ _ _ hstart)
    | destroy =>
      have hd : Method.Relates (Holding B Streamer.layout ⟨heap, s⟩ []) Streamer.destroy Stream.destroy
          (fun a b past m t => a = b ∧ Holds B Streamer.layout ⟨heap, s⟩ past m t) (Holds B Streamer.layout ⟨heap, s⟩) :=
        Streamer.relates_destroy.mono (fun _ _ _ h => h) fun _ _ _ _ _ h => ⟨rfl, h⟩
      exact relates_inMemory (fun _ _ _ => Holds.streamer) (hd _ _ _ hstart)
    | _ => exact idle
  | @doppelganger n n' =>
    have hstart : Holding B Doppelganger.layout ⟨heap, n⟩ [] [] ⟨heap, n⟩ n' := .refl trivial hkey
    cases u with
    | killBoth realObj decoyObj realKey decoyKey o nonceD nonceR now =>
      exact relates_inMemory (fun _ _ _ => Holds.doppelganger)
        (Doppelganger.relates_kill realObj decoyObj realKey decoyKey o nonceD nonceR now _ _ _ hstart)
    | reviveOne corpse key hwid stealth now =>
      exact relates_inMemory (fun _ _ _ => Holds.doppelganger)
        (Doppelganger.relates_revive corpse key hwid stealth now _ _ _ hstart)
    | _ => exact idle

end Amcrypt.Memory
