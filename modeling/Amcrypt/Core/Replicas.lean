/-
  Amcrypt.Core.Replicas — instances of one key and one setting, with different pasts.

  What an instance went through leaves nothing in it but the count of refused tags
  (`Twins`). `replicas`: of two that are alive, whatever either went through, the calls that
  both get go alike, as long as both live; a tag that is accepted makes the two one state
  for good; and the next call ends alike in both, unless it is the refused tag that trips
  the switch of exactly one.
-/

import Amcrypt.Core.GuessBudget

namespace Amcrypt.Core

open Lib

variable {B : Backend} {key : Key} {antiDebug : Bool} {maxTamper : Int}

/-- They differ in their tamper counts at most. -/
def Twins (self self' : Necromancer) : Prop := self' = { self with tamperCount := self'.tamperCount }

/-- A call that goes alike in both: the same outcome, in twins that one accepted tag makes
    equal; or a refused tag, which trips the switch of one of them. -/
structure Alike {α : Type} (o o' : Out PyErr Call Necromancer α) : Prop where
  calls : o.calls = o'.calls
  synced : true ∈ verdicts o.calls → o.self = o'.self
  ends : (o.result = o'.result ∧ Twins o.self o'.self) ∨
    (verdicts o.calls = [false] ∧ o.self.destroyed = !o'.self.destroyed)

theorem Alike.void {α : Type} {m : Py Necromancer α} {self self' : Necromancer} (h : Alike (m self) (m self')) :
    Alike (Method.void m self) (Method.void m self') := by
  refine ⟨h.calls, h.synced, ?_⟩
  rcases h.ends with ⟨hsame, htwins⟩ | hone
  · exact .inl ⟨congrArg (Except.map fun _ => ()) hsame, htwins⟩
  · exact .inr hone

/-! ## One call -/

/-- `revive` on a live instance with its key. -/
theorem revive_live {self : Necromancer} (halive : self.destroyed = false) (hkey : self.key = some key)
    (corpse : Bytes) (a : ReviveOptions) (w : World) :
    revive B corpse a w self =
      if self.antiDebug && w.debugging then ⟨.error debuggerDetected, self, []⟩
      else if isPoisonPill corpse then ⟨.error pillReceived, self.dead, []⟩
      else match unpack corpse a.stealth >>= fun x => preCheck x.2.2 a.hwid a.verifyKey >>= fun _ => pure x with
        | .error e => ⟨.error e, self, []⟩
        | .ok (nonce, ct, flags) =>
          ((judge a.hwid (B.gcmDecrypt key nonce ct a.hwid) self).andThen fun plaintext =>
            exhume B flags a.verifyKey w.now plaintext).after
            [.decrypt key nonce ct a.hwid (B.gcmDecrypt key nonce ct a.hwid)] := by
  cases hw : self.antiDebug && w.debugging with
  | true =>
    have h1 : checkDebugger w.debugging self = ⟨.error debuggerDetected, self, []⟩ := by
      rw [checkDebugger_apply, hw]; rfl
    rw [revive, Method.bind_error h1]
    rfl
  | false =>
  have h1 : checkDebugger w.debugging self = ⟨.ok (), self, []⟩ := by rw [checkDebugger_apply, hw]; rfl
  cases hp : isPoisonPill corpse with
  | true =>
    have h2 : checkPill corpse self = ⟨.error pillReceived, self.dead, []⟩ := by rw [checkPill_apply, hp]; rfl
    rw [revive, Method.bind_ok h1, Method.bind_error h2]
    rfl
  | false =>
  have h2 : checkPill corpse self = ⟨.ok (), self, []⟩ := by rw [checkPill_apply, hp]; rfl
  have h3 : checkDestroyed self = ⟨.ok (), self, []⟩ := by rw [checkDestroyed_apply, halive]; rfl
  rw [revive, Method.bind_ok h1, Method.bind_ok h2, Method.bind_ok h3]
  cases hf : unpack corpse a.stealth with
  | error e => simp
  | ok frame =>
  obtain ⟨nonce, ct, flags⟩ := frame
  cases hc : preCheck flags a.hwid a.verifyKey with
  | error e => simp [hc]
  | ok _ =>
  have h4 : liveKey self = ⟨.ok key, self, []⟩ := by rw [liveKey_apply, hkey]
  simp [hc, h4, aesDecrypt]

/-- One more refused tag reaches the limit. -/
theorem trips_iff {limit : Int} {n : Nat} (h : n < threshold limit) :
    limit ≤ (n + 1 : Nat) ↔ n + 1 = threshold limit := by
  unfold threshold at h ⊢
  omega

/-- The refused tag in twins: it trips both switches or neither, or exactly one. -/
theorem tampered_twins {self : Necromancer} {count' : Nat} (hcount : self.tamperCount < threshold self.maxTamper)
    (hcount' : count' < threshold self.maxTamper) (halive : self.destroyed = false) (hwid : Option Bytes) :
    let self' := { self with tamperCount := count' }
    (self.tamperError hwid = self'.tamperError hwid ∧ Twins self.tampered self'.tampered) ∨
      self.tampered.destroyed = !self'.tampered.destroyed := by
  intro self'
  simp only [Necromancer.tamperError, Necromancer.tampered, self', trips_iff hcount, trips_iff hcount']
  by_cases h : self.tamperCount + 1 = threshold self.maxTamper
  · by_cases h' : count' + 1 = threshold self.maxTamper
    · obtain rfl : count' = self.tamperCount := by omega
      exact .inl ⟨rfl, rfl⟩
    · rw [if_pos h, if_neg h', if_pos h, if_neg h']
      exact .inr (by simp [halive])
  · by_cases h' : count' + 1 = threshold self.maxTamper
    · rw [if_neg h, if_pos h', if_neg h, if_pos h']
      exact .inr (by simp [halive])
    · rw [if_neg h, if_neg h', if_neg h, if_neg h']
      exact .inl ⟨rfl, rfl⟩

theorem revive_twins {self self' : Necromancer} (h : Twins self self') (halive : self.destroyed = false)
    (hkey : self.key = some key) (hcount : self.tamperCount < threshold self.maxTamper)
    (hcount' : self'.tamperCount < threshold self.maxTamper) (corpse : Bytes) (a : ReviveOptions) (w : World) :
    Alike (revive B corpse a w self) (revive B corpse a w self') := by
  unfold Twins at h
  generalize self'.tamperCount = count' at h hcount'
  subst h
  have hlive : ({ self with tamperCount := count' } : Necromancer).destroyed = false := halive
  rw [revive_live halive hkey, revive_live hlive hkey]
  split
  · exact ⟨rfl, by simp, .inl ⟨rfl, rfl⟩⟩
  split
  · exact ⟨rfl, by simp, .inl ⟨rfl, rfl⟩⟩
  split
  · exact ⟨rfl, by simp, .inl ⟨rfl, rfl⟩⟩
  · rename_i nonce ct flags _
    cases B.gcmDecrypt key nonce ct a.hwid with
    | ok p =>
      -- the count is back to zero in both, and the layers see neither
      rw [judge_ok, judge_ok]
      exact ⟨rfl, fun _ => rfl, .inl ⟨rfl, rfl⟩⟩
    | error e =>
      by_cases he : e = .invalidTag
      · subst he
        rw [judge_tag, judge_tag, Out.andThen_error, Out.andThen_error, Out.after_mk, Out.after_mk]
        refine ⟨rfl, fun hin => ?_, ?_⟩
        · have hno : true ∉ [false] := by decide
          exact (hno hin).elim
        · rcases tampered_twins hcount hcount' halive a.hwid with ⟨hsame, htwins⟩ | hone
          · exact .inl ⟨congrArg Except.error hsame, htwins⟩
          · exact .inr ⟨rfl, hone⟩
      · rw [judge_error _ he, judge_error _ he, Out.andThen_error, Out.andThen_error, Out.after_mk, Out.after_mk]
        have hnone : verdicts [Call.decrypt key nonce ct a.hwid (.error e)] = [] := by
          cases e <;> first | rfl | exact absurd rfl he
        exact ⟨rfl, by simp [hnone], .inl ⟨rfl, rfl⟩⟩

/-- `kill` reads the key and the flag. -/
theorem kill_twins {self self' : Necromancer} (h : Twins self self') (halive : self.destroyed = false) (obj : B.Obj)
    (o : KillOptions) (d : Draws) (now : ℚ) : Alike (kill B obj o d now self) (kill B obj o d now self') := by
  have hlive : self'.destroyed = false := by rw [h]; exact halive
  have hkeys : self'.key = self.key := by rw [h]
  refine ⟨?_, ?_, .inl ⟨?_, ?_⟩⟩
  · rw [kill_alive obj o d now halive, kill_alive obj o d now hlive, hkeys]
    repeat' split
    all_goals rfl
  · rw [kill_silent]
    intro hin
    cases hin
  · rw [kill_alive obj o d now halive, kill_alive obj o d now hlive, hkeys]
    repeat' split
    all_goals rfl
  · rw [kill_self, kill_self]
    exact h

/-! ## Every continuation -/

theorem history_append (self : Necromancer) (ops later : List (Op B)) :
    history self (ops ++ later) =
      ((history (history self ops).1 later).1, (history self ops).2 ++ (history (history self ops).1 later).2) := by
  induction later using List.reverseRecOn with
  | nil => simp
  | append_singleton later op ih => rw [← List.append_assoc, history_snoc, history_snoc, ih, List.append_assoc]

/-- Once destroyed, destroyed. -/
theorem history_alive {ops later : List (Op B)}
    (h : (history (.fresh key antiDebug maxTamper) (ops ++ later)).1.destroyed = false) :
    (history (.fresh key antiDebug maxTamper) ops).1.destroyed = false := by
  have hswitch := switch_history key antiDebug maxTamper ops
  by_contra hd
  have hd := Bool.eq_true_of_not_eq_false hd
  rw [history_destroyed hd (hswitch.keyless.mp hd), hd] at h
  cases h

/-- What is the same in every live instance after any history. -/
structure Live (key : Key) (antiDebug : Bool) (maxTamper : Int) (s : Necromancer) : Prop where
  alive : s.destroyed = false
  keyed : s.key = some key
  gate : s.antiDebug = antiDebug
  limit : s.maxTamper = maxTamper
  count : s.tamperCount < threshold maxTamper

theorem live_history {ops : List (Op B)} (h : (history (.fresh key antiDebug maxTamper) ops).1.destroyed = false) :
    Live key antiDebug maxTamper (history (.fresh key antiDebug maxTamper) ops).1 := by
  have hswitch := switch_history key antiDebug maxTamper ops
  exact ⟨h, history_live h, hswitch.gate, hswitch.limit, (hswitch.count h).2⟩

theorem Live.twins {self self' : Necromancer} (h : Live key antiDebug maxTamper self)
    (h' : Live key antiDebug maxTamper self') : Twins self self' := by
  obtain ⟨halive, hkey, hgate, hlimit, -⟩ := h
  obtain ⟨halive', hkey', hgate', hlimit', -⟩ := h'
  cases self
  cases self'
  simp_all [Twins]

section
variable {self self' : Necromancer} (h : Live key antiDebug maxTamper self) (h' : Live key antiDebug maxTamper self')

include h h' in
theorem Live.kill_alike (obj : B.Obj) (o : KillOptions) (d : Draws) (now : ℚ) :
    Alike (kill B obj o d now self) (kill B obj o d now self') := kill_twins (h.twins h') h.alive obj o d now

include h h' in
theorem Live.revive_alike (corpse : Bytes) (a : ReviveOptions) (w : World) :
    Alike (revive B corpse a w self) (revive B corpse a w self') := by
  have hcount : self.tamperCount < threshold self.maxTamper := by rw [h.limit]; exact h.count
  have hcount' : self'.tamperCount < threshold self.maxTamper := by rw [h.limit]; exact h'.count
  exact revive_twins (h.twins h') h.alive h.keyed hcount hcount' corpse a w

include h h' in
theorem Live.run_alike (op : Op B) : Alike (op.run self) (op.run self') := by
  cases op with
  | kill obj o d now => exact (h.kill_alike h' obj o d now).void
  | revive corpse a w => exact (h.revive_alike h' corpse a w).void

end

theorem calls_alike (ops ops' later : List (Op B))
    (h : (history (.fresh key antiDebug maxTamper) (ops ++ later)).1.destroyed = false)
    (h' : (history (.fresh key antiDebug maxTamper) (ops' ++ later)).1.destroyed = false) :
    let self := (history (.fresh key antiDebug maxTamper) ops).1
    let self' := (history (.fresh key antiDebug maxTamper) ops').1
    (history self later).2 = (history self' later).2 ∧
      (true ∈ verdicts (history self later).2 → (history self later).1 = (history self' later).1) := by
  intro self self'
  induction later using List.reverseRecOn with
  | nil => exact ⟨rfl, fun hin => by cases hin⟩
  | append_singleton later op ih =>
    rw [← List.append_assoc] at h h'
    have hlive := live_history (history_alive h)
    have hlive' := live_history (history_alive h')
    obtain ⟨hcalls, hsync⟩ := ih hlive.alive hlive'.alive
    rw [history_append] at hlive hlive'
    have hop := hlive.run_alike hlive' op
    rw [history_snoc, history_snoc]
    refine ⟨?_, ?_⟩
    · rw [hcalls, hop.calls]
    · intro hin
      rw [verdicts_append, List.mem_append] at hin
      rcases hin with hpast | hnow
      · rw [hsync hpast]
      · exact hop.synced hnow

/-- Two instances of one key and one setting, alive after histories of their own and the
    same calls `later`: AES-GCM and pickle were asked and answered the same in both, one
    accepted tag among these makes them one state, and the next call goes alike in both. -/
theorem replicas (ops ops' later : List (Op B)) :
    let self := (history (.fresh key antiDebug maxTamper) ops).1
    let self' := (history (.fresh key antiDebug maxTamper) ops').1
    let h := history self later
    let h' := history self' later
    h.1.destroyed = false → h'.1.destroyed = false →
      h.2 = h'.2 ∧ (true ∈ verdicts h.2 → h.1 = h'.1) ∧
      (∀ obj o d now, Alike (kill B obj o d now h.1) (kill B obj o d now h'.1)) ∧
      ∀ corpse a w, Alike (revive B corpse a w h.1) (revive B corpse a w h'.1) := by
  intro self self' h h' halive halive'
  have hboth : (history (.fresh key antiDebug maxTamper) (ops ++ later)).1.destroyed = false := by
    rw [history_append]
    exact halive
  have hboth' : (history (.fresh key antiDebug maxTamper) (ops' ++ later)).1.destroyed = false := by
    rw [history_append]
    exact halive'
  obtain ⟨hcalls, hsync⟩ := calls_alike ops ops' later hboth hboth'
  have hlive := live_history hboth
  have hlive' := live_history hboth'
  rw [history_append] at hlive hlive'
  exact ⟨hcalls, hsync, hlive.kill_alike hlive', hlive.revive_alike hlive'⟩

/-! ## A run -/

section
open Reference

/-- A fresh instance, and one that refused a forgery: the same replay makes them one state. -/
theorem replicas_run :
    (history (history (B := reference) live []).1 [replay]).1 = (history (history live [forgery]).1 [replay]).1 := by
  have halive : (history (history (B := reference) live []).1 [replay]).1.destroyed = false := by decide +kernel
  have halive' : (history (history live [forgery]).1 [replay]).1.destroyed = false := by decide +kernel
  have htrue : true ∈ verdicts (history (history (B := reference) live []).1 [replay]).2 := by decide +kernel
  have hrun := @replicas reference runKey true 3 [] [forgery] [replay]
  dsimp only at hrun
  rw [← live] at hrun
  obtain ⟨-, hsync, -⟩ := hrun halive halive'
  exact hsync htrue

end

end Amcrypt.Core
