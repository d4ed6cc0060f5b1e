/-
  Amcrypt.Core.KillSwitch — Ashes to Ashes over whole histories.

  A history is any sequence of `kill` and `revive` calls on one instance, with the
  calls they made into AES-GCM and pickle. Its verdicts are the tags that AES-GCM
  accepted and refused; every other way a call ends leaves no verdict. `Effect` says
  what one call does to the switch (`op_effect`, from the list of exits), `Switch`
  is the invariant, kept by every effect (`Switch.effect`) and so by every history
  (`switch_history`).
-/

import Amcrypt.Core.Necromancer
import Amcrypt.Lib.Streak

namespace Amcrypt.Core

open Lib

variable (B : Backend)

/-- One call of the public API. -/
inductive Op where
  | kill (obj : B.Obj) (o : KillOptions) (d : Draws) (now : ℚ)
  | revive (corpse : Bytes) (a : ReviveOptions) (w : World)

variable {B}

def Op.run : Op B → Py Necromancer Unit
  | .kill obj o d now => Method.void (Core.kill B obj o d now)
  | .revive corpse a w => Method.void (Core.revive B corpse a w)

/-- The instance after `ops`, and the calls they made. -/
def history (self : Necromancer) (ops : List (Op B)) : Necromancer × List Call :=
  ops.foldl (fun h op => ((op.run h.1).self, h.2 ++ (op.run h.1).calls)) (self, [])

/-- A fresh instance. -/
def Necromancer.fresh (key : Key) (antiDebug : Bool) (maxTamper : Int) : Necromancer :=
  ⟨some key, antiDebug, maxTamper, 0, false⟩

theorem new_eq_fresh (key : Key) (antiDebug : Bool) (maxTamper : Int) :
    Necromancer.new key.val antiDebug maxTamper = .ok (.fresh key antiDebug maxTamper) := by
  simp [Necromancer.new, Necromancer.fresh, key.property]

/-! ## What a history is judged by -/

/-- What AES-GCM said of the tag: accepted or refused. -/
def Call.verdict : Call → Option Bool
  | .decrypt _ _ _ _ (.ok _) => some true
  | .decrypt _ _ _ _ (.error .invalidTag) => some false
  | _ => none

def verdicts (calls : List Call) : List Bool := calls.filterMap Call.verdict

@[simp] theorem verdicts_nil : verdicts [] = [] := rfl
@[simp] theorem verdicts_append (xs ys : List Call) : verdicts (xs ++ ys) = verdicts xs ++ verdicts ys :=
  List.filterMap_append

/-- The call is a `revive` of a poison pill that passes the debugger gate. -/
def Op.Pills (antiDebug : Bool) : Op B → Prop
  | .kill .. => False
  | .revive corpse _ w => (antiDebug && w.debugging) = false ∧ poisonPill <+: corpse

/-- Refused tags in a row that trip the switch. -/
def threshold (maxTamper : Int) : Nat := (max 1 maxTamper).toNat

theorem threshold_pos (maxTamper : Int) : 0 < threshold maxTamper := by
  unfold threshold; omega

theorem isPoisonPill_iff {data : Bytes} : isPoisonPill data = true ↔ poisonPill <+: data := by
  rw [List.prefix_iff_eq_take]
  have hlen : poisonPill.length = 6 := rfl
  simp only [isPoisonPill, Bool.and_eq_true, decide_eq_true_eq, beq_iff_eq, hlen]
  refine ⟨?_, ?_⟩
  · intro hx
    obtain ⟨-, h⟩ := hx
    exact h.symm
  · intro h
    refine ⟨?_, h.symm⟩
    have := congrArg List.length h
    rw [hlen, List.length_take] at this
    omega

@[simp] theorem history_nil (self : Necromancer) : history self ([] : List (Op B)) = (self, []) := rfl

@[simp] theorem history_snoc (self : Necromancer) (ops : List (Op B)) (op : Op B) :
    history self (ops ++ [op]) =
      ((op.run (history self ops).1).self, (history self ops).2 ++ (op.run (history self ops).1).calls) := by
  simp [history]

/-! ## One call -/

/-- What a call does to the switch, and the verdicts it leaves. -/
inductive Effect (op : Op B) (self : Necromancer) : Necromancer → List Bool → Prop
  | silent : ¬ op.Pills self.antiDebug → Effect op self self []
  | pill : op.Pills self.antiDebug → Effect op self self.dead []
  | refused : ¬ op.Pills self.antiDebug → self.destroyed = false → Effect op self self.tampered [false]
  | opened : ¬ op.Pills self.antiDebug → self.destroyed = false →
      Effect op self { self with tamperCount := 0 } [true]

theorem kill_silent (obj : B.Obj) (o : KillOptions) (d : Draws) (now : ℚ) (self : Necromancer) :
    verdicts (kill B obj o d now self).calls = [] := by
  cases h : self.destroyed with
  | true => rw [kill_dead obj o d now h]; rfl
  | false =>
    rw [kill_alive obj o d now h]
    repeat' split
    all_goals rfl

theorem op_effect (op : Op B) (self : Necromancer) :
    Effect op self (op.run self).self (verdicts (op.run self).calls) := by
  cases op with
  | kill obj o d now =>
    simp only [Op.run, Method.void_self, Method.void_calls, kill_self, kill_silent]
    exact .silent id
  | revive corpse a w =>
    have nopill : isPoisonPill corpse = false → ¬ (Op.revive (B := B) corpse a w).Pills self.antiDebug := by
      intro hp hx
      obtain ⟨-, h⟩ := hx
      rw [isPoisonPill_iff.mpr h] at hp
      cases hp
    have hx := revive_exit (B := B) corpse a w self
    simp only [Op.run, Method.void_self, Method.void_calls]
    generalize revive B corpse a w self = out at hx
    cases hx with
    | trapped hw =>
      refine .silent ?_
      intro hx
      obtain ⟨hw', -⟩ := hx
      rw [hw'] at hw
      cases hw
    | pill hw hp => exact .pill ⟨hw, isPoisonPill_iff.mp hp⟩
    | dead _ hp _ => exact .silent (nopill hp)
    | refused e _ hp _ _ => exact .silent (nopill hp)
    | keyless _ hp _ _ => exact .silent (nopill hp)
    | tampered key nonce ct flags hr _ => exact .refused (nopill hr.noPill) hr.alive
    | broken key nonce ct flags e hr _ he =>
      have : verdicts [Call.decrypt key nonce ct a.hwid (.error e)] = [] := by
        cases e <;> first | rfl | exact absurd rfl he
      rw [this]
      exact .silent (nopill hr.noPill)
    | late key nonce ct flags p e hr _ _ => exact .opened (nopill hr.noPill) hr.alive
    | loaded key nonce ct flags p data hr _ _ => exact .opened (nopill hr.noPill) hr.alive

/-! ## Every history -/

/-- The switch, after a history that left these verdicts, with a pill among its calls or not. -/
structure Switch (antiDebug : Bool) (maxTamper : Int) (pilled : Prop) (vs : List Bool) (s : Necromancer) :
    Prop where
  gate : s.antiDebug = antiDebug
  limit : s.maxTamper = maxTamper
  keyless : s.destroyed = true ↔ s.key = none
  count : s.destroyed = false → s.tamperCount = streak false vs ∧ s.tamperCount < threshold maxTamper
  cause : s.destroyed = true ↔ pilled ∨ List.replicate (threshold maxTamper) false <:+: vs

theorem tampered_destroyed {maxTamper : Int} {self : Necromancer} (hm : self.maxTamper = maxTamper)
    (hd : self.destroyed = false) : self.tampered.destroyed = decide (threshold maxTamper ≤ self.tamperCount + 1) := by
  have : threshold maxTamper ≤ self.tamperCount + 1 ↔ self.maxTamper ≤ (self.tamperCount + 1 : Nat) := by
    unfold threshold; omega
  simp only [Necromancer.tampered, this]
  split <;> simp_all

theorem Switch.effect {antiDebug : Bool} {maxTamper : Int} {pilled : Prop} {vs vs' : List Bool}
    {self self' : Necromancer} {op : Op B} (h : Switch antiDebug maxTamper pilled vs self)
    (he : Effect op self self' vs') :
    Switch antiDebug maxTamper (pilled ∨ op.Pills antiDebug) (vs ++ vs') self' := by
  have hpos := threshold_pos maxTamper
  cases he with
  | silent hp =>
    rw [h.gate] at hp
    simpa [hp] using h
  | pill hp =>
    rw [h.gate] at hp
    exact ⟨h.gate, h.limit, by simp, fun hd => by simp at hd, by simp [hp]⟩
  | opened hp hd =>
    rw [h.gate] at hp
    have hno := (not_congr h.cause).mp (by simp [hd])
    refine ⟨h.gate, h.limit, h.keyless, fun _ => ⟨?_, hpos⟩, ?_⟩
    · exact (streak_snoc_other (by decide) vs).symm
    · rw [infix_snoc_iff, streak_snoc_other (by decide)]
      simp only [hd, hp]
      simp only [not_or] at hno
      simp [hno, hpos.ne']
  | refused hp hd =>
    rw [h.gate] at hp
    have hno := (not_congr h.cause).mp (by simp [hd])
    obtain ⟨hcount, -⟩ := h.count hd
    have hdead := tampered_destroyed h.limit hd
    have hkey : self.key ≠ none := by
      intro hk
      rw [h.keyless.mpr hk] at hd
      cases hd
    refine ⟨(tampered_antiDebug self).trans h.gate, (tampered_maxTamper self).trans h.limit, ?_, ?_, ?_⟩
    · rcases tampered_dead self with ⟨hd', hk'⟩ | ⟨hd', hk'⟩
      · simp [hd', hk']
      · simp [hd', hk', hd, hkey]
    · intro hd'
      rw [hdead, decide_eq_false_iff_not] at hd'
      rw [tampered_tamperCount, streak_snoc_same, hcount]
      omega
    · rw [hdead, decide_eq_true_eq, infix_snoc_iff, streak_snoc_same, hcount]
      simp only [not_or] at hno
      simp [hno, hp]

theorem switch_history (key : Key) (antiDebug : Bool) (maxTamper : Int) (ops : List (Op B)) :
    Switch antiDebug maxTamper (∃ op ∈ ops, op.Pills antiDebug)
      (verdicts (history (.fresh key antiDebug maxTamper) ops).2)
      (history (.fresh key antiDebug maxTamper) ops).1 := by
  induction ops using List.reverseRecOn with
  | nil =>
    have hpos := threshold_pos maxTamper
    exact ⟨rfl, rfl, by simp [Necromancer.fresh], fun _ => ⟨rfl, hpos⟩, by simp [Necromancer.fresh, hpos.ne']⟩
  | append_singleton ops op ih =>
    have h := ih.effect (op_effect op _)
    rw [history_snoc, verdicts_append]
    convert h using 1
    simp [or_and_right, exists_or]

/-- Over a whole history the key stays, or goes with the switch. -/
theorem history_key (key : Key) (antiDebug : Bool) (maxTamper : Int) (ops : List (Op B)) :
    (history (.fresh key antiDebug maxTamper) ops).1.key = some key ∨
      (history (.fresh key antiDebug maxTamper) ops).1.key = none := by
  induction ops using List.reverseRecOn with
  | nil => exact .inl rfl
  | append_singleton ops op ih =>
    rw [history_snoc]
    cases op with
    | kill obj o d now =>
      simp only [Op.run, Method.void_self, kill_self]
      exact ih
    | revive corpse a w =>
      simp only [Op.run, Method.void_self]
      rcases revive_key (B := B) corpse a w (history (.fresh key antiDebug maxTamper) ops).1 with h | h
      · rw [h]
        exact ih
      · exact .inr h

theorem history_live {key : Key} {antiDebug : Bool} {maxTamper : Int} {ops : List (Op B)}
    (h : (history (.fresh key antiDebug maxTamper) ops).1.destroyed = false) :
    (history (.fresh key antiDebug maxTamper) ops).1.key = some key := by
  refine (history_key key antiDebug maxTamper ops).resolve_right ?_
  rw [← (switch_history key antiDebug maxTamper ops).keyless, h]
  decide

/-! ## Once destroyed -/

/-- The exception a call on a destroyed instance raises. -/
def Op.mourns (antiDebug : Bool) : Op B → PyErr
  | .kill .. => alreadyDead
  | .revive corpse _ w =>
    if antiDebug && w.debugging then debuggerDetected else if isPoisonPill corpse then pillReceived else alreadyDead

theorem run_destroyed (op : Op B) {self : Necromancer} (hd : self.destroyed = true) (hk : self.key = none) :
    op.run self = ⟨.error (op.mourns self.antiDebug), self, []⟩ := by
  have hdead : self.dead = self := by cases self; simp_all [Necromancer.dead]
  cases op with
  | kill obj o d now =>
    simp only [Op.run, Method.void, kill_dead obj o d now hd, Op.mourns]
    rfl
  | revive corpse a w =>
    have hx := revive_exit (B := B) corpse a w self
    simp only [Op.run, Method.void, Op.mourns]
    generalize revive B corpse a w self = out at hx
    cases hx with
    | trapped hw => rw [if_pos hw]; rfl
    | pill hw hp => rw [if_neg (by simp [hw]), if_pos hp, hdead]; rfl
    | dead hw hp _ => rw [if_neg (by simp [hw]), if_neg (by simp [hp])]; rfl
    | refused _ _ _ h _ | keyless _ _ h _ => rw [hd] at h; cases h
    | tampered _ _ _ _ hr _ | broken _ _ _ _ _ hr _ _ | late _ _ _ _ _ _ hr _ _ | loaded _ _ _ _ _ _ hr _ _ =>
      rw [hr.alive] at hd; cases hd

theorem history_destroyed {self : Necromancer} {ops : List (Op B)} (hd : (history self ops).1.destroyed = true)
    (hk : (history self ops).1.key = none) (later : List (Op B)) :
    history self (ops ++ later) = history self ops := by
  induction later using List.reverseRecOn with
  | nil => rw [List.append_nil]
  | append_singleton later op ih => simp [← List.append_assoc, ih, run_destroyed op hd hk]

/-- The kill switch as an automaton: what destroys an instance, what its state says of
    the history, and that nothing happens after. -/
theorem kill_switch (key : Key) (antiDebug : Bool) (maxTamper : Int) (ops : List (Op B)) :
    let h := history (.fresh key antiDebug maxTamper) ops
    (h.1.destroyed = true ↔
      (∃ op ∈ ops, op.Pills antiDebug) ∨ List.replicate (threshold maxTamper) false <:+: verdicts h.2) ∧
    (h.1.destroyed = true ↔ h.1.key = none) ∧
    (h.1.destroyed = false → h.1.tamperCount = streak false (verdicts h.2) ∧
      h.1.tamperCount < threshold maxTamper) ∧
    (h.1.destroyed = true →
      (∀ later, history (.fresh key antiDebug maxTamper) (ops ++ later) = h) ∧
      (∀ obj o d now, ∃ e, (kill B obj o d now h.1).result = .error e ∧ e.isA .selfDestruct = true) ∧
      (∀ corpse a w, ∃ e, (revive B corpse a w h.1).result = .error e ∧
        e.isA (if antiDebug && w.debugging then .soulTrapped else .selfDestruct) = true)) := by
  have hs := switch_history (B := B) key antiDebug maxTamper ops
  refine ⟨hs.cause, hs.keyless, hs.count, fun hd => ⟨?_, ?_, ?_⟩⟩
  · exact history_destroyed hd (hs.keyless.mp hd)
  · intro obj o d now
    exact ⟨alreadyDead, by rw [kill_dead obj o d now hd], rfl⟩
  · intro corpse a w
    have hrun := run_destroyed (.revive (B := B) corpse a w) hd (hs.keyless.mp hd)
    simp only [Op.run, Method.void, Op.mourns, hs.gate, Out.mk.injEq] at hrun
    cases hr : (revive B corpse a w (history (.fresh key antiDebug maxTamper) ops).1).result with
    | ok obj => rw [hr] at hrun; cases hrun.1
    | error e =>
      rw [hr] at hrun
      obtain rfl := Except.error.inj hrun.1
      refine ⟨_, rfl, ?_⟩
      repeat' split
      all_goals rfl

end Amcrypt.Core
