/-
  Amcrypt.Core.GuessBudget — how many forgeries the kill switch lets through to AES-GCM.

  The switch counts refused tags in a row, and one accepted tag clears the count. So
  over a history the bound is not the limit of the instance: with `k` accepted tags it
  is `(k + 1) * (t - 1) + 1` refused ones, for a limit of `t` (`refused_le`). Nothing in
  an envelope keeps it from being accepted again, so whoever has one genuine envelope
  has as many accepted tags as it likes: `guess_budget` says that the bound is exact, and
  reached with replays of that one envelope between the forgeries.
-/

import Amcrypt.Core.Header

namespace Amcrypt.Core

open Lib

variable {B : Backend} {key : Key} {antiDebug : Bool} {maxTamper : Int}

/-- The tags that AES-GCM accepted in a history. -/
def acceptedTags (self : Necromancer) (ops : List (Op B)) : Nat := (verdicts (history self ops).2).count true

/-- The tags that it refused. -/
def refusedTags (self : Necromancer) (ops : List (Op B)) : Nat := (verdicts (history self ops).2).count false

/-! ## The bound -/

theorem countP_ne_false (vs : List Bool) : vs.countP (· ≠ false) = vs.count true := by
  unfold List.count
  congr 1
  funext v
  cases v <;> rfl

/-- A live instance has seen no limit's worth of refused tags in a row. -/
theorem Switch.alive_count {pilled : Prop} {vs : List Bool} {self : Necromancer}
    (h : Switch antiDebug maxTamper pilled vs self) (hd : self.destroyed = false) :
    vs.count false ≤ (vs.count true + 1) * (threshold maxTamper - 1) := by
  have hno : ¬ List.replicate (threshold maxTamper) false <:+: vs := by
    intro hin
    rw [h.cause.mpr (.inr hin)] at hd
    cases hd
  have hcount := count_le hno
  have hlast := streak_lt hno
  rw [countP_ne_false] at hcount
  rw [Nat.add_mul]
  omega

/-- Each accepted tag buys as many refused ones as the limit leaves, and the last one trips the switch. -/
theorem refused_le (ops : List (Op B)) :
    refusedTags (.fresh key antiDebug maxTamper) ops ≤
      (acceptedTags (.fresh key antiDebug maxTamper) ops + 1) * (threshold maxTamper - 1) + 1 := by
  unfold refusedTags acceptedTags
  induction ops using List.reverseRecOn with
  | nil => simp
  | append_singleton ops op ih =>
    have hswitch := switch_history key antiDebug maxTamper ops
    have heffect := op_effect op (history (.fresh key antiDebug maxTamper) ops).1
    rw [history_snoc, verdicts_append]
    generalize verdicts (op.run (history (.fresh key antiDebug maxTamper) ops).1).calls = vs,
      (op.run (history (.fresh key antiDebug maxTamper) ops).1).self = self' at heffect
    cases heffect with
    | silent _ => simpa using ih
    | pill _ => simpa using ih
    | refused _ hd =>
      have hcount := hswitch.alive_count hd
      rw [List.count_append, List.count_append, List.count_singleton_self, List.count_singleton]
      simpa using hcount
    | opened _ hd =>
      have hcount := hswitch.alive_count hd
      rw [List.count_append, List.count_append, List.count_singleton_self, List.count_singleton, Nat.add_mul]
      simp only [beq_iff_eq, Bool.true_eq_false, if_false, Nat.add_zero]
      omega

/-! ## As many are reached -/

/-- On every live instance the call reaches AES-GCM, and the tag is accepted or refused. -/
def Op.Answered (key : Key) (antiDebug : Bool) (verdict : Bool) : Op B → Prop
  | .kill .. => False
  | .revive corpse a w => ∃ nonce ct flags, Reaches corpse a w (.fresh key antiDebug 0) key nonce ct flags ∧
      match verdict with
      | true => ∃ p, B.gcmDecrypt key nonce ct a.hwid = .ok p
      | false => B.gcmDecrypt key nonce ct a.hwid = .error .invalidTag

theorem Op.Answered.not_pills {verdict : Bool} {op : Op B} (h : op.Answered key antiDebug verdict) :
    ¬ op.Pills antiDebug := by
  cases op with
  | kill obj o d now => exact id
  | revive corpse a w =>
    obtain ⟨nonce, ct, flags, hr, -⟩ := h
    intro hp
    have hpill := isPoisonPill_iff.mpr hp.2
    rw [hr.noPill] at hpill
    cases hpill

theorem Op.Answered.verdicts {verdict : Bool} {op : Op B} (h : op.Answered key antiDebug verdict)
    {self : Necromancer} (hgate : self.antiDebug = antiDebug) (halive : self.destroyed = false)
    (hkey : self.key = some key) : Core.verdicts (op.run self).calls = [verdict] := by
  cases op with
  | kill obj o d now => exact h.elim
  | revive corpse a w =>
    obtain ⟨nonce, ct, flags, hr, hg⟩ := h
    have hreach : Reaches corpse a w self key nonce ct flags := by
      refine ⟨?_, hr.noPill, halive, hr.frame, hr.allowed, hkey⟩
      rw [hgate]
      exact hr.unwatched
    rw [Op.run, Method.void_calls, revive_reaches hreach]
    cases verdict with
    | true =>
      obtain ⟨p, hg⟩ := hg
      rw [hg, judge_ok, Out.andThen_ok, Out.after_nil, exhume_apply]
      cases contents B flags a.verifyKey w.now p <;> rfl
    | false =>
      rw [show B.gcmDecrypt key nonce ct a.hwid = .error .invalidTag from hg, judge_tag, Out.andThen_error]
      rfl

section
variable {good bad : Op B} (hgood : good.Answered key antiDebug true) (hbad : bad.Answered key antiDebug false)

/-- The calls that AES-GCM answers with these verdicts. -/
def played (good bad : Op B) (vs : List Bool) : List (Op B) := vs.map fun v => if v then good else bad

include hgood hbad in
theorem played_answered (v : Bool) : (if v then good else bad).Answered key antiDebug v := by
  cases v
  · exact hbad
  · exact hgood

include hgood hbad in
theorem played_alive {vs : List Bool} (hno : ¬ List.replicate (threshold maxTamper) false <:+: vs)
    (hvs : verdicts (history (.fresh key antiDebug maxTamper) (played good bad vs)).2 = vs) :
    (history (.fresh key antiDebug maxTamper) (played good bad vs)).1.destroyed = false := by
  have hswitch := switch_history key antiDebug maxTamper (played good bad vs)
  rw [hvs] at hswitch
  apply Bool.eq_false_iff.mpr
  intro hd
  rcases hswitch.cause.mp hd with ⟨op, hop, hp⟩ | hin
  · obtain ⟨v, -, rfl⟩ := List.mem_map.mp hop
    exact (played_answered hgood hbad v).not_pills hp
  · exact hno hin

include hgood hbad in
/-- As long as the limit is not reached, the next call is answered too. -/
theorem verdicts_played {vs : List Bool} (hno : ¬ List.replicate (threshold maxTamper) false <:+: vs) (v : Bool) :
    verdicts (history (.fresh key antiDebug maxTamper) (played good bad (vs ++ [v]))).2 = vs ++ [v] := by
  have hlast : ∀ {us : List Bool}, ¬ List.replicate (threshold maxTamper) false <:+: us →
      verdicts (history (.fresh key antiDebug maxTamper) (played good bad us)).2 = us → ∀ v,
      verdicts (history (.fresh key antiDebug maxTamper) (played good bad (us ++ [v]))).2 = us ++ [v] := by
    intro us hno hus v
    have halive := played_alive hgood hbad hno hus
    have hgate := (switch_history key antiDebug maxTamper (played good bad us)).gate
    have hanswer := (played_answered hgood hbad v).verdicts hgate halive (history_live halive)
    rw [played, List.map_append, List.map_singleton, history_snoc, verdicts_append, ← played, hus, hanswer]
  induction vs using List.reverseRecOn generalizing v with
  | nil => exact hlast hno rfl v
  | append_singleton us u ih =>
    have hpast : ¬ List.replicate (threshold maxTamper) false <:+: us := fun hin => hno (infix_snoc_iff.mpr (.inl hin))
    exact hlast hno (ih hpast u) v

end

/-- Over every history: the refused tags are at most so many for the accepted ones; and with
    one envelope that opens and one that does not, as many are reached for each number of
    replays. -/
theorem guess_budget (key : Key) (antiDebug : Bool) (maxTamper : Int) :
    (∀ ops : List (Op B), refusedTags (.fresh key antiDebug maxTamper) ops ≤
      (acceptedTags (.fresh key antiDebug maxTamper) ops + 1) * (threshold maxTamper - 1) + 1) ∧
    ∀ good bad : Op B, good.Answered key antiDebug true → bad.Answered key antiDebug false →
      ∀ k, ∃ ops : List (Op B), (∀ op ∈ ops, op = good ∨ op = bad) ∧
        acceptedTags (.fresh key antiDebug maxTamper) ops = k ∧
        refusedTags (.fresh key antiDebug maxTamper) ops = (k + 1) * (threshold maxTamper - 1) + 1 := by
  refine ⟨refused_le, ?_⟩
  intro good bad hgood hbad k
  have hpos := threshold_pos maxTamper
  have htrue : true ≠ false := by decide
  obtain ⟨hstreak, hno⟩ := not_infix_rounds htrue hpos k
  obtain ⟨hfalses, htrues⟩ := count_rounds htrue (threshold maxTamper) k
  have hlong := not_infix_replicate hno (show _ + (threshold maxTamper - 1) < _ by omega)
  have hvs := verdicts_played hgood hbad hlong false
  refine ⟨played good bad (rounds false true (threshold maxTamper) k ++ List.replicate (threshold maxTamper - 1) false
    ++ [false]), ?_, ?_, ?_⟩
  · intro op hop
    obtain ⟨v, -, rfl⟩ := List.mem_map.mp hop
    cases v
    · exact .inr rfl
    · exact .inl rfl
  · unfold acceptedTags
    rw [hvs]
    simp [htrues, List.count_replicate]
  · unfold refusedTags
    rw [hvs]
    simp only [List.count_append, hfalses, List.count_replicate_self, List.count_singleton_self, Nat.add_mul, Nat.one_mul]

/-! ## A run -/

section
open Reference

/-- A plain envelope, and its header before bytes that no one sealed. -/
def replay : Op reference := .revive plainEnvelope {} ⟨false, 0⟩

def forgery : Op reference := .revive (header magic version 0 12 ++ List.replicate 28 0) {} ⟨false, 0⟩

theorem guess_budget_run : ∃ ops, (∀ op ∈ ops, op = replay ∨ op = forgery) ∧ acceptedTags live ops = 1000 ∧
    refusedTags live ops = 2003 := by
  have hreplay : replay.Answered runKey true true :=
    ⟨runDraws.nonce.val, gcmEncrypt runKey runDraws.nonce.val carrierPlaintext none, 0,
      ⟨rfl, by decide +kernel, rfl, by decide +kernel, by decide +kernel, rfl⟩, carrierPlaintext, aesInverts _ _ _ _⟩
  have hforgery : forgery.Answered runKey true false :=
    ⟨List.replicate 12 0, List.replicate 16 0, 0, ⟨rfl, rfl, rfl, by decide +kernel, rfl, rfl⟩, by decide +kernel⟩
  obtain ⟨-, hreached⟩ := guess_budget (B := reference) runKey true 3
  exact hreached replay forgery hreplay hforgery 1000

end

end Amcrypt.Core
