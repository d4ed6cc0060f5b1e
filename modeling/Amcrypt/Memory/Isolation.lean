/-
  Amcrypt.Memory.Isolation — an object in a process is as if it were alone.

  Objects are made from the caller's buffers, which may be shared between them and written
  later, and all lie in one heap. An object is what its own calls have made of the key that its
  buffer held when it was made (`Values.Begun.after`, and every object began so, `begins`).

  - `noninterference`: in two processes with different objects besides, and callers that do
    different things with their buffers, objects made from the same bytes and called alike are
    alike: their calls, their keys, and what the next call returns.
  - `process_kill_switch`: so what is known of one instance holds of each in a process. Its
    switch counts the forgeries that it saw itself, and while it is alive its own buffer holds
    its key.
-/

import Amcrypt.Core.KillSwitch
import Amcrypt.Memory.Refinement

namespace Amcrypt.Memory

open Lib

variable {B : Backend}

/-! ## One object's part of a run -/

/-- The call that the act makes on object `i`. -/
def Act.on (i : Nat) : Act B → List (Use B)
  | .use j u => if j = i then [u] else []
  | _ => []

def usesOf (i : Nat) (acts : List (Act B)) : List (Use B) := acts.flatMap (Act.on i)

def callsOf (i : Nat) (trace : List (Nat × Call)) : List Call := (trace.filter (·.1 = i)).map Prod.snd

/-- The object after these calls, and the calls they made. -/
def Thing.run (y : ValueObject) (us : List (Use B)) : ValueObject × List Call :=
  us.foldl (fun h u => ((u.value h.1).self, h.2 ++ (u.value h.1).calls)) (y, [])

/-- What the caller's buffer holds. -/
def Process.contents (p : Process B) (k : Nat) : Option Bytes := p.buffers[k]?.map p.heap.data

def Values.contents (q : Values B) (k : Nat) : Option Bytes := q.buffers[k]?.map (·.data)

/-- The act makes this object, with the caller's buffers so. -/
inductive Makes (contents : Nat → Option Bytes) : Act B → ValueObject → Prop
  | necromancer {k : Nat} {data : Bytes} {antiDebug : Bool} {maxTamper : Int} {self : Core.Necromancer} :
      contents k = some data → Core.Necromancer.new data antiDebug maxTamper = .ok self →
      Makes contents (.newNecromancer k antiDebug maxTamper) (.necromancer self)
  | streamer {k : Nat} {data : Bytes} {ratchet : Bool} {self : Stream.Streamer} :
      contents k = some data → Stream.Streamer.new data ratchet = .ok self →
      Makes contents (.newStreamer k ratchet) (.streamer self)
  | doppelganger : Makes contents .newDoppelganger (.doppelganger ())

theorem usesOf_snoc (i : Nat) (acts : List (Act B)) (act : Act B) : usesOf i (acts ++ [act]) = usesOf i acts ++ act.on i := by
  simp [usesOf]

theorem callsOf_append (i : Nat) (trace trace' : List (Nat × Call)) :
    callsOf i (trace ++ trace') = callsOf i trace ++ callsOf i trace' := by
  simp [callsOf]

theorem callsOf_own (i : Nat) (calls : List Call) : callsOf i (calls.map (i, ·)) = calls := by
  simp [callsOf, List.filter_map, Function.comp_def]

theorem callsOf_other {i j : Nat} (h : j ≠ i) (calls : List Call) : callsOf i (calls.map (j, ·)) = [] := by
  simp [callsOf, List.filter_map, Function.comp_def, h]

/-- There are no calls of an object before it is made. -/
theorem callsOf_fresh {n : Nat} {trace : List (Nat × Call)} (h : ∀ e ∈ trace, e.1 < n) : callsOf n trace = [] := by
  unfold callsOf
  rw [List.filter_eq_nil_iff.mpr, List.map_nil]
  intro e he heq
  exact Nat.ne_of_lt (h e he) (of_decide_eq_true heq)

theorem Thing.run_snoc (y : ValueObject) (us : List (Use B)) (u : Use B) :
    y.run (us ++ [u]) = ((u.value (y.run us).1).self, (y.run us).2 ++ (u.value (y.run us).1).calls) := by
  simp [Thing.run]

theorem Thing.run_append (y : ValueObject) (us us' : List (Use B)) :
    y.run (us ++ us') = (((y.run us).1.run us').1, (y.run us).2 ++ ((y.run us).1.run us').2) := by
  induction us' using List.reverseRecOn with
  | nil => simp [Thing.run]
  | append_singleton us' u ih => rw [← List.append_assoc, Thing.run_snoc, ih, Thing.run_snoc, List.append_assoc]

theorem Sim.contents {p : Process B} {q : Values B} (h : Sim p q) (k : Nat) : p.contents k = q.contents k := by
  unfold Process.contents Values.contents
  rcases h.buffer_cases k with ⟨ha, hb⟩ | ⟨a, b, ha, hb, hlies⟩ <;> rw [ha, hb]
  · rfl
  · exact congrArg some (Heap.data_of hlies)

namespace Values

variable {q q' : Values B} {i : Nat} {y : ValueObject} {calls : List Call}

/-! ## One act -/

/-- What an act does to the objects and their trace. -/
inductive Stepped (q : Values B) : Act B → Values B → Prop
  | idle {act : Act B} {q' : Values B} : (∀ i < q.things.length, act.on i = []) → q'.things = q.things →
      q'.trace = q.trace → Stepped q act q'
  | made {act : Act B} {q' : Values B} {y : ValueObject} : (∀ i, act.on i = []) → Makes q.contents act y →
      q'.things = q.things ++ [y] → q'.trace = q.trace → Stepped q act q'
  | called {q' : Values B} {j : Nat} {u : Use B} {y : ValueObject} : q.things[j]? = some y →
      q'.things = q.things.set j (u.value y).self → q'.trace = q.trace ++ (u.value y).calls.map (j, ·) →
      Stepped q (.use j u) q'

theorem step_cases (q : Values B) (act : Act B) : Stepped q act (q.step act) := by
  cases act with
  | allocate b => exact .idle (fun _ _ => rfl) rfl rfl
  | overwrite k data =>
    simp only [Values.step]
    split
    · split <;> exact .idle (fun _ _ => rfl) rfl rfl
    · exact .idle (fun _ _ => rfl) rfl rfl
  | newNecromancer k antiDebug maxTamper =>
    simp only [Values.step]
    split
    · rename_i b hb
      have hcontents : q.contents k = some b.data := congrArg (Option.map _) hb
      cases hnew : Core.Necromancer.new b.data antiDebug maxTamper with
      | ok self => exact .made (fun _ => rfl) (.necromancer hcontents hnew) rfl rfl
      | error e => exact .idle (fun _ _ => rfl) rfl rfl
    · exact .idle (fun _ _ => rfl) rfl rfl
  | newStreamer k ratchet =>
    simp only [Values.step]
    split
    · rename_i b hb
      have hcontents : q.contents k = some b.data := congrArg (Option.map _) hb
      cases hnew : Stream.Streamer.new b.data ratchet with
      | ok self => exact .made (fun _ => rfl) (.streamer hcontents hnew) rfl rfl
      | error e => exact .idle (fun _ _ => rfl) rfl rfl
    · exact .idle (fun _ _ => rfl) rfl rfl
  | newDoppelganger => exact .made (fun _ => rfl) .doppelganger rfl rfl
  | use j u =>
    simp only [Values.step]
    split
    · rename_i y hy
      exact .called hy rfl rfl
    · rename_i hy
      refine .idle (fun i hi => if_neg ?_) rfl rfl
      rintro rfl
      exact Nat.not_lt.mpr (List.getElem?_eq_none_iff.mp hy) hi

/-- The calls in the trace are of objects that are there. -/
def Tagged (q : Values B) : Prop := ∀ e ∈ q.trace, e.1 < q.things.length

theorem Tagged.step (h : q.Tagged) (act : Act B) : (q.step act).Tagged := by
  intro e he
  have hstep := q.step_cases act
  generalize q.step act = q' at hstep he
  cases hstep with
  | idle _ hthings htrace =>
    rw [htrace] at he
    rw [hthings]
    exact h e he
  | made _ _ hthings htrace =>
    rw [htrace] at he
    rw [hthings, List.length_append]
    exact Nat.lt_add_right _ (h e he)
  | called hy hthings htrace =>
    rw [htrace] at he
    rw [hthings, List.length_set]
    rcases List.mem_append.mp he with he | he
    · exact h e he
    · obtain ⟨c, -, rfl⟩ := List.mem_map.mp he
      exact (List.getElem?_eq_some_iff.mp hy).1

theorem Tagged.after (h : q.Tagged) (acts : List (Act B)) : (q.after acts).Tagged := by
  induction acts generalizing q with
  | nil => exact h
  | cons act acts ih => exact ih (h.step act)

/-! ## From the making of an object on -/

/-- Object `i` is `y`, and has made these calls. -/
structure Begun (q : Values B) (i : Nat) (y : ValueObject) (calls : List Call) : Prop where
  here : q.things[i]? = some y
  calls : callsOf i q.trace = calls

theorem Begun.of_makes (h : q.Tagged) {act : Act B} (hmk : Makes q.contents act y) :
    (q.step act).Begun q.things.length y [] := by
  cases hmk with
  | @necromancer k data antiDebug maxTamper self hk hnew =>
    obtain ⟨b, hb, rfl⟩ := Option.map_eq_some_iff.mp hk
    simp only [Values.step, hb, hnew]
    exact ⟨snoc_here _ _, callsOf_fresh h⟩
  | @streamer k data ratchet self hk hnew =>
    obtain ⟨b, hb, rfl⟩ := Option.map_eq_some_iff.mp hk
    simp only [Values.step, hb, hnew]
    exact ⟨snoc_here _ _, callsOf_fresh h⟩
  | doppelganger => exact ⟨snoc_here _ _, callsOf_fresh h⟩

/-- One act: its own call, or something else. -/
theorem Begun.step (h : q.Begun i y calls) (act : Act B) :
    (q.step act).Begun i (y.run (act.on i)).1 (calls ++ (y.run (act.on i)).2) := by
  have hlt := (List.getElem?_eq_some_iff.mp h.here).1
  have hstep := q.step_cases act
  generalize q.step act = q' at hstep
  cases hstep with
  | idle hon hthings htrace =>
    rw [hon i hlt]
    refine ⟨by rw [hthings]; exact h.here, ?_⟩
    rw [htrace, h.calls]
    exact (List.append_nil _).symm
  | made hon _ hthings htrace =>
    rw [hon i]
    refine ⟨by rw [hthings]; exact snoc_elsewhere h.here _, ?_⟩
    rw [htrace, h.calls]
    exact (List.append_nil _).symm
  | @called _ j u z hz hthings htrace =>
    by_cases hj : j = i
    · subst hj
      obtain rfl := Option.some.inj (h.here.symm.trans hz)
      have hon : (Act.use j u).on j = [u] := if_pos rfl
      rw [hon]
      refine ⟨by rw [hthings]; exact List.getElem?_set_self hlt, ?_⟩
      rw [htrace, callsOf_append, callsOf_own, h.calls]
      rfl
    · have hon : (Act.use j u).on i = [] := if_neg hj
      rw [hon]
      refine ⟨by rw [hthings, List.getElem?_set_ne hj]; exact h.here, ?_⟩
      rw [htrace, callsOf_append, callsOf_other hj, h.calls]
      rfl

theorem Begun.after (h : q.Begun i y []) (acts : List (Act B)) :
    (q.after acts).Begun i (y.run (usesOf i acts)).1 (y.run (usesOf i acts)).2 := by
  induction acts using List.reverseRecOn with
  | nil => exact h
  | append_singleton acts act ih =>
    rw [usesOf_snoc, Thing.run_append, Values.after, List.foldl_append]
    exact ih.step act

/-- Every object was made by one of the acts. -/
theorem begins (acts : List (Act B)) (hy : ((Values.empty : Values B).after acts).things[i]? = some y) :
    ∃ pre act post y₀, acts = pre ++ act :: post ∧ ((Values.empty : Values B).after pre).things.length = i ∧
      Makes ((Values.empty : Values B).after pre).contents act y₀ := by
  induction acts using List.reverseRecOn generalizing y with
  | nil => cases hy
  | append_singleton acts act ih =>
    have earlier : ∀ z, ((Values.empty : Values B).after acts).things[i]? = some z →
        ∃ pre act' post y₀, acts ++ [act] = pre ++ act' :: post ∧
          ((Values.empty : Values B).after pre).things.length = i ∧
          Makes ((Values.empty : Values B).after pre).contents act' y₀ := by
      intro z hz
      obtain ⟨pre, act', post, y₀, rfl, hrest⟩ := ih hz
      exact ⟨pre, act', post ++ [act], y₀, by simp, hrest⟩
    have hstep := ((Values.empty : Values B).after acts).step_cases act
    rw [Values.after, List.foldl_append] at hy
    change (((Values.empty : Values B).after acts).step act).things[i]? = some y at hy
    generalize ((Values.empty : Values B).after acts).step act = q' at hstep hy
    cases hstep with
    | idle _ hthings _ =>
      rw [hthings] at hy
      exact earlier y hy
    | made _ hmk hthings _ =>
      rw [hthings] at hy
      rcases snoc_cases hy with hold | ⟨rfl, rfl⟩
      · exact earlier y hold
      · exact ⟨acts, act, [], y, rfl, rfl, hmk⟩
    | called hz hthings _ =>
      rw [hthings] at hy
      rcases set_cases hy with ⟨rfl, -⟩ | ⟨-, hold⟩
      · exact earlier _ hz
      · exact earlier y hold

/-- The object that `act` makes is, after `post`, what its own calls there have made of it. -/
theorem own_history {pre : List (Act B)} {act : Act B} (hmk : Makes ((Values.empty : Values B).after pre).contents act y)
    (hlen : ((Values.empty : Values B).after pre).things.length = i) (post : List (Act B)) :
    ((Values.empty : Values B).after (pre ++ act :: post)).Begun i (y.run (usesOf i post)).1 (y.run (usesOf i post)).2 := by
  have htagged : (Values.empty : Values B).Tagged := nofun
  have hbegun := Begun.of_makes (htagged.after pre) hmk
  rw [hlen] at hbegun
  rw [Values.after, List.foldl_append]
  exact hbegun.after post

end Values

/-! ## In memory -/

/-- Object `i` was made, and in memory it is what its own calls have made of it. -/
structure OwnHistory (acts : List (Act B)) (i : Nat) (x : Object) (z : ValueObject) (calls : List Call) : Prop where
  here : ((Process.empty : Process B).after acts).things[i]? = some x
  same : Thing.Same x z
  key : KeyAt ((Process.empty : Process B).after acts).heap x.keyAt z.keyOf
  calls : callsOf i ((Process.empty : Process B).after acts).trace = calls

theorem own_history {pre : List (Act B)} {act : Act B} {y : ValueObject} {i : Nat}
    (hmk : Makes ((Process.empty : Process B).after pre).contents act y)
    (hlen : ((Process.empty : Process B).after pre).things.length = i) (post : List (Act B)) :
    ∃ x, OwnHistory (pre ++ act :: post) i x (y.run (usesOf i post)).1 (y.run (usesOf i post)).2 := by
  have hpre := (Sim.empty (B := B)).after pre
  have h := (Sim.empty (B := B)).after (pre ++ act :: post)
  rw [funext hpre.contents] at hmk
  rw [hpre.things.length_eq] at hlen
  have hbegun := Values.own_history hmk hlen post
  obtain ⟨x, hx, hsame, hkey⟩ := forall₂_right h.things hbegun.here
  refine ⟨x, hx, hsame, hkey, ?_⟩
  rw [h.trace]
  exact hbegun.calls

/-- Objects made from the same bytes and called alike are alike, and so is what their next call
    returns: whatever else the two processes make and call, and write into their buffers. -/
theorem noninterference {pre post pre' post' : List (Act B)} {act act' : Act B} {y : ValueObject} {i i' : Nat}
    (hmk : Makes ((Process.empty : Process B).after pre).contents act y)
    (hmk' : Makes ((Process.empty : Process B).after pre').contents act' y)
    (hlen : ((Process.empty : Process B).after pre).things.length = i)
    (hlen' : ((Process.empty : Process B).after pre').things.length = i')
    (huses : usesOf i post = usesOf i' post') :
    ∃ x x' z calls, OwnHistory (pre ++ act :: post) i x z calls ∧ OwnHistory (pre' ++ act' :: post') i' x' z calls ∧
      ∀ u : Use B,
        (u.run ((Process.empty : Process B).after (pre ++ act :: post)).heap x).result =
          (u.run ((Process.empty : Process B).after (pre' ++ act' :: post')).heap x').result := by
  obtain ⟨x, h⟩ := own_history hmk hlen post
  obtain ⟨x', h'⟩ := own_history hmk' hlen' post'
  rw [← huses] at h'
  refine ⟨x, x', _, _, h, h', ?_⟩
  intro u
  have hvalue := (relates_use ((Process.empty : Process B).after (pre ++ act :: post)).heap u h.same h.key).result
  have hvalue' := (relates_use ((Process.empty : Process B).after (pre' ++ act' :: post')).heap u h'.same h'.key).result
  rw [hvalue, hvalue']

section
open Reference

/-- A key in a buffer, and the same with another instance made from it. -/
def madeAlone : List (Act reference) := [.allocate ⟨false, runKey.val⟩]

def madeAmong : List (Act reference) := [.allocate ⟨true, runKey.val⟩, .newNecromancer 0 false 1]

/-- A chunk sealed; in the other process after the buffer is cleared and the other instance pilled. -/
def sealedAlone : List (Act reference) := [.use 0 (.sealChunk [0x41] runNonce)]

def sealedAmong : List (Act reference) :=
  [.overwrite 0 (zeros 32), .use 0 (.revive Core.poisonPill {} ⟨false, 0⟩), .use 1 (.sealChunk [0x41] runNonce)]

theorem noninterference_run :
    ∃ x x' z calls, OwnHistory (madeAlone ++ .newStreamer 0 true :: sealedAlone) 0 x z calls ∧
      OwnHistory (madeAmong ++ .newStreamer 0 true :: sealedAmong) 1 x' z calls ∧
      ∀ u : Use reference,
        (u.run (Process.empty.after (madeAlone ++ .newStreamer 0 true :: sealedAlone)).heap x).result =
          (u.run (Process.empty.after (madeAmong ++ .newStreamer 0 true :: sealedAmong)).heap x').result :=
  have hnew : Stream.Streamer.new runKey.val true = .ok ⟨runKey, true, 0⟩ := by rfl
  noninterference (.streamer (by rfl) hnew) (.streamer (by rfl) hnew) (by rfl) (by rfl) (by rfl)

end

/-! ## The kill switch of one instance among many -/

/-- The `kill` or `revive` that a call on a `Necromancer` is. -/
def Use.op : Use B → Option (Core.Op B)
  | .kill obj o d now => some (.kill obj o d now)
  | .revive corpse a w => some (.revive corpse a w)
  | _ => none

theorem Use.value_necromancer (u : Use B) (self : Core.Necromancer) :
    ((u.value (.necromancer self)).self, (u.value (.necromancer self)).calls) =
      match u.op with
      | some op => (.necromancer (op.run self).self, (op.run self).calls)
      | none => (.necromancer self, []) := by
  cases u <;> rfl

/-- What a `Necromancer`'s own calls make of it is its history. -/
theorem Thing.run_necromancer (self : Core.Necromancer) (us : List (Use B)) :
    Thing.run (.necromancer self) us =
      (.necromancer (Core.history self (us.filterMap Use.op)).1, (Core.history self (us.filterMap Use.op)).2) := by
  induction us using List.reverseRecOn with
  | nil => rfl
  | append_singleton us u ih =>
    have hvalue := u.value_necromancer (Core.history self (us.filterMap Use.op)).1
    obtain ⟨hself, hcalls⟩ := Prod.ext_iff.mp hvalue
    rw [Thing.run_snoc, ih, List.filterMap_append]
    dsimp only at hself hcalls ⊢
    rw [hself, hcalls]
    cases hop : u.op with
    | none => simp [hop]
    | some op => simp [hop]

/-- An object that is no `Necromancer` does not become one. -/
theorem Thing.run_other {y : ValueObject} (hy : ∀ self, y ≠ .necromancer self) (us : List (Use B)) (self : Core.Necromancer) :
    (y.run us).1 ≠ .necromancer self := by
  induction us using List.reverseRecOn generalizing self with
  | nil => exact hy self
  | append_singleton us u ih =>
    rw [Thing.run_snoc]
    generalize (y.run us).1 = z at ih
    cases z with
    | necromancer z => exact absurd rfl (ih z)
    | streamer z => cases u <;> nofun
    | doppelganger => cases u <;> nofun

theorem Thing.Same.necromancer_of {x : Necromancer} {z : ValueObject} (h : Thing.Same (.necromancer x) z) :
    ∃ n, z = .necromancer n := by
  cases h with
  | @necromancer _ n _ => exact ⟨n, rfl⟩

/-- `Core.switch_history` and `Core.history_key`, of an instance that got these calls among others. -/
theorem switch_run {data : Bytes} {antiDebug : Bool} {maxTamper : Int} {self : Core.Necromancer}
    (hnew : Core.Necromancer.new data antiDebug maxTamper = .ok self) (us : List (Use B)) :
    Core.Switch antiDebug maxTamper (∃ op ∈ us.filterMap Use.op, op.Pills antiDebug)
        (Core.verdicts (Core.history self (us.filterMap Use.op)).2) (Core.history self (us.filterMap Use.op)).1 ∧
      ∀ key, (Core.history self (us.filterMap Use.op)).1.key = some key → key.val = data := by
  by_cases hlen : data.length = 32
  · rw [Core.new_eq_fresh ⟨data, hlen⟩] at hnew
    obtain rfl := Except.ok.inj hnew
    refine ⟨Core.switch_history _ _ _ _, ?_⟩
    intro key hkey
    rcases Core.history_key ⟨data, hlen⟩ antiDebug maxTamper (us.filterMap Use.op) with h | h
    · rw [h] at hkey
      exact congrArg Subtype.val (Option.some.inj hkey).symm
    · rw [h] at hkey
      cases hkey
  · rw [Core.Necromancer.new, dif_neg hlen] at hnew
    cases hnew

/-- Instance `i` was made from a buffer that held `data`; its own pills, and enough forgeries in a
    row among the tags that it was given itself, destroy it, and nothing else does; until then
    its own buffer holds `data`. -/
def OwnSwitch (acts : List (Act B)) (i : Nat) (x : Necromancer) : Prop :=
  ∃ (pre post : List (Act B)) (k : Nat) (data : Bytes) (antiDebug : Bool) (maxTamper : Int),
    acts = pre ++ .newNecromancer k antiDebug maxTamper :: post ∧
    ((Process.empty : Process B).after pre).things.length = i ∧
    ((Process.empty : Process B).after pre).contents k = some data ∧
    (x.destroyed = true ↔ (∃ op ∈ (usesOf i post).filterMap Use.op, op.Pills antiDebug) ∨
      List.replicate (Core.threshold maxTamper) false <:+:
        Core.verdicts (callsOf i ((Process.empty : Process B).after acts).trace)) ∧
    (x.destroyed = true ↔ x.key = none) ∧
    (x.destroyed = false →
      x.tamperCount = streak false (Core.verdicts (callsOf i ((Process.empty : Process B).after acts).trace)) ∧
      ∃ a, x.key = some a ∧ ((Process.empty : Process B).after acts).heap[a]? = some ⟨true, data⟩)

/-- Whatever other instances there are, and whatever their caller does with them and with its buffers. -/
theorem process_kill_switch (acts : List (Act B)) {i : Nat} {x : Necromancer}
    (hx : ((Process.empty : Process B).after acts).things[i]? = some (.necromancer x)) : OwnSwitch acts i x := by
  obtain ⟨y, hy, -, -⟩ := forall₂_left ((Sim.empty (B := B)).after acts).things hx
  obtain ⟨pre, act, post, y₀, rfl, hlen, hmk⟩ := Values.begins acts hy
  have hpre := (Sim.empty (B := B)).after pre
  rw [← funext hpre.contents] at hmk
  rw [← hpre.things.length_eq] at hlen
  obtain ⟨x', hx', hsame, hkey, hcalls⟩ := own_history hmk hlen post
  obtain rfl := Option.some.inj (hx.symm.trans hx')
  cases hmk with
  | streamer _ _ =>
    obtain ⟨n, hn⟩ := hsame.necromancer_of
    exact absurd hn (Thing.run_other (by nofun) _ n)
  | doppelganger =>
    obtain ⟨n, hn⟩ := hsame.necromancer_of
    exact absurd hn (Thing.run_other (by nofun) _ n)
  | @necromancer k data antiDebug maxTamper self hk hnew =>
    obtain ⟨hswitch, hval⟩ := switch_run hnew (usesOf i post)
    rw [Thing.run_necromancer] at hsame hkey hcalls
    rw [← hcalls] at hswitch
    cases hsame with
    | necromancer h =>
      have hat : KeyAt _ x.key (Core.history self ((usesOf i post).filterMap Use.op)).1.key := hkey
      refine ⟨pre, post, k, data, antiDebug, maxTamper, rfl, hlen, hk, ?_, ?_, ?_⟩
      · rw [h.destroyed]
        exact hswitch.cause
      · rw [h.destroyed, hat.gone_iff]
        exact hswitch.keyless
      · intro hd
        rw [h.destroyed] at hd
        rw [h.tamperCount]
        refine ⟨(hswitch.count hd).1, ?_⟩
        cases ha : x.key with
        | none =>
          rw [hswitch.keyless.mpr (hat.gone_iff.mp ha)] at hd
          cases hd
        | some a =>
          rw [ha] at hat
          obtain ⟨key, hn, hlies⟩ := hat.found
          rw [hval key hn] at hlies
          exact ⟨a, rfl, hlies⟩

/-- Two instances of one buffer; the first is sent a poison pill, and the buffer is cleared. -/
def onePilled : List (Act Reference.reference) :=
  [.allocate ⟨true, Reference.runKey.val⟩, .newNecromancer 0 false 1, .newNecromancer 0 false 1,
    .use 0 (.revive Core.poisonPill {} ⟨false, 0⟩), .overwrite 0 (zeros 32)]

theorem process_kill_switch_second : OwnSwitch onePilled 1 ⟨some 2, false, 1, 0, false⟩ :=
  process_kill_switch onePilled (by rfl)

end Amcrypt.Memory
