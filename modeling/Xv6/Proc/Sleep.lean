import Mathlib.Tactic.Ring
import Mathlib.Data.List.Induction

/-!
# `sys_sleep`

The loop of `sys_sleep` and the clock. `ticks` and `ticks0` are unsigned, so `ticks - ticks0 < n` compares
with `n` as an unsigned number: for a negative `n` the call waits for more than 2³¹ ticks. For any other `n`
it returns when it should exactly if the ticks that have elapsed at that wakeup are still at least `n` modulo
2³² (`sleep_right_iff`).
-/

namespace Xv6.Sleep

open List

/-- What can happen while the process is in `sys_sleep`. -/
inductive Event where
  /-- `clockintr` increments `ticks` and wakes the process up; it need not run before the next tick -/
  | tick
  /-- the process, woken up by the clock or for no reason, returns from `sleep` -/
  | wakeup
  /-- `kill` of the process -/
  | kill
deriving DecidableEq

/-- The counter and the process; `ret` is the result of the call once it has returned. -/
structure State where
  ticks : BitVec 32
  killed : Bool
  ret : Option ℤ

/-- The condition of the loop and its body up to `sleep`. -/
def loop (n ticks0 : BitVec 32) (s : State) : State :=
  if s.ticks - ticks0 < n then
    if s.killed then { s with ret := some (-1) } else s
  else { s with ret := some 0 }

def step (n ticks0 : BitVec 32) (s : State) : Event → State
  | .tick => { s with ticks := s.ticks + 1 }
  | .wakeup => if s.ret = none then loop n ticks0 s else s
  | .kill => { s with killed := true }

/-- `sys_sleep(n)`, called when the counter is `ticks0`, after the events `es`. -/
def sysSleep (n ticks0 : BitVec 32) (es : List Event) : State :=
  es.foldl (step n ticks0) (loop n ticks0 ⟨ticks0, false, none⟩)

/-- At least `n` ticks had elapsed at the call or at a wakeup. -/
def Due (n : ℤ) (es : List Event) : Prop :=
  n ≤ 0 ∨ ∃ p, p ++ [.wakeup] <+: es ∧ n ≤ p.count .tick

/-- Along `es` the call returns 0 when it is due, and does not return before. -/
def Right (n ticks0 : BitVec 32) (es : List Event) : Prop :=
  ∀ p, p <+: es → (Due n.toInt p → (sysSleep n ticks0 p).ret = some 0) ∧
    (¬ Due n.toInt p → (sysSleep n ticks0 p).ret = none)

variable {n ticks0 : BitVec 32} {es : List Event}

theorem ret_nil : (sysSleep n ticks0 []).ret = if 0 < n.toNat then none else some 0 := by
  simp only [sysSleep, foldl_nil, loop, BitVec.sub_self, BitVec.lt_def, BitVec.toNat_zero]
  split <;> rfl

theorem sysSleep_concat (e : Event) :
    sysSleep n ticks0 (es ++ [e]) = step n ticks0 (sysSleep n ticks0 es) e := by
  simp [sysSleep]

theorem due_concat {z : ℤ} (e : Event) :
    Due z (es ++ [e]) ↔ Due z es ∨ e = .wakeup ∧ z ≤ es.count .tick := by
  constructor
  · rintro (hz | ⟨p, hp, hle⟩)
    · exact .inl (.inl hz)
    · rcases prefix_concat_iff.mp hp with heq | hp
      · obtain ⟨rfl, he⟩ := append_inj' heq rfl
        exact .inr ⟨(singleton_inj.mp he).symm, hle⟩
      · exact .inl (.inr ⟨p, hp, hle⟩)
  · rintro ((hz | ⟨p, hp, hle⟩) | ⟨rfl, hle⟩)
    · exact .inl hz
    · exact .inr ⟨p, hp.trans (prefix_append _ _), hle⟩
    · exact .inr ⟨es, prefix_rfl, hle⟩

theorem sysSleep_of_no_kill (n ticks0 : BitVec 32) (hes : .kill ∉ es) :
    (sysSleep n ticks0 es).ticks = ticks0 + BitVec.ofNat 32 (es.count .tick) ∧
      (sysSleep n ticks0 es).killed = false := by
  induction es using reverseRecOn with
  | nil => simp [sysSleep, loop]; split <;> simp
  | append_singleton es e ih =>
    obtain ⟨hticks, hkilled⟩ := ih fun h => hes (mem_append_left _ h)
    rw [sysSleep_concat]
    cases e with
    | tick => simp [step, hticks, hkilled, BitVec.ofNat_add, BitVec.add_assoc]
    | wakeup =>
      simp only [step, loop, hkilled]
      split_ifs <;> simp [hticks, hkilled]
    | kill => simp at hes

theorem toInt_eq_toNat (hn : 0 ≤ n.toInt) : n.toInt = n.toNat := by
  have := n.isLt
  rw [BitVec.toInt_eq_toNat_cond] at hn ⊢
  split at hn
  · next hlt => rw [if_pos hlt]
  · omega

/-- What the loop compares after the events `es`: the ticks that have elapsed, modulo 2³². -/
theorem elapsed (n ticks0 : BitVec 32) (hes : .kill ∉ es) :
    (sysSleep n ticks0 es).ticks - ticks0 < n ↔ es.count .tick % 2 ^ 32 < n.toNat := by
  rw [(sysSleep_of_no_kill n ticks0 hes).1, BitVec.add_comm, BitVec.add_sub_cancel, BitVec.lt_def,
    BitVec.toNat_ofNat]

/-- A wakeup after `es` ends a call that has not returned exactly if enough ticks have elapsed modulo 2³². -/
theorem ret_wakeup (hes : .kill ∉ es) (hret : (sysSleep n ticks0 es).ret = none) :
    (sysSleep n ticks0 (es ++ [.wakeup])).ret =
      if n.toNat ≤ es.count .tick % 2 ^ 32 then some 0 else none := by
  rw [sysSleep_concat, step, if_pos hret, loop, (sysSleep_of_no_kill n ticks0 hes).2]
  simp only [elapsed n ticks0 hes]
  by_cases hle : n.toNat ≤ es.count .tick % 2 ^ 32
  · rw [if_neg (Nat.not_lt.mpr hle), if_pos hle]
  · rw [if_pos (Nat.lt_of_not_le hle), if_neg hle]
    exact hret

/-- The wakeup after the events `p` is the first one at which `z` ticks have elapsed. -/
def FirstDue (z : ℤ) (p : List Event) : Prop := ¬ Due z p ∧ z ≤ p.count .tick

/-- At the first wakeup of `es` that is due, at least `n` ticks have elapsed modulo 2³². -/
def Counts (n : BitVec 32) (es : List Event) : Prop :=
  ∀ p, p ++ [.wakeup] <+: es → FirstDue n.toInt p → n.toNat ≤ p.count .tick % 2 ^ 32

/-- The run of a call with `0 ≤ n`: one case for each kind of event, the last one first. -/
theorem ret_of_nonneg (hn : 0 ≤ n.toInt) (hes : .kill ∉ es) (hcounts : Counts n es) :
    (Due n.toInt es → (sysSleep n ticks0 es).ret = some 0) ∧
      (¬ Due n.toInt es → (sysSleep n ticks0 es).ret = none) := by
  have hnat := toInt_eq_toNat hn
  have hlt := n.isLt
  induction es using reverseRecOn with
  | nil =>
    have hdue : Due n.toInt [] ↔ n.toInt ≤ 0 := by simp [Due]
    rw [hdue, ret_nil]
    exact ⟨fun h => if_neg (by omega), fun h => if_pos (by omega)⟩
  | append_singleton es e ih =>
    have hes' : Event.kill ∉ es := fun h => hes (mem_append_left _ h)
    obtain ⟨hdue, hnot⟩ := ih hes' fun p hp => hcounts p (hp.trans (prefix_append _ _))
    rw [due_concat]
    cases e with
    | tick =>
      rw [sysSleep_concat]
      simpa [step] using ⟨hdue, hnot⟩
    | kill => simp at hes
    | wakeup =>
      by_cases h : Due n.toInt es
      · rw [sysSleep_concat]
        simp [step, hdue h, h]
      · rw [ret_wakeup hes' (hnot h)]
        by_cases hle : n.toInt ≤ es.count .tick
        · have hwrap := hcounts es prefix_rfl ⟨h, hle⟩
          rw [if_pos hwrap]
          simp [hle]
        · -- fewer than `n` ticks: the remainder is their number
          have hmod : es.count .tick % 2 ^ 32 = es.count .tick := Nat.mod_eq_of_lt (by omega)
          rw [hmod, if_neg (by omega)]
          simp [hle, h]

/-- `sleep(-1)` does not return at once. Nor does a `sleep(1)` whose process runs again after 2³² ticks. -/
theorem sleep_waits :
    (sysSleep (-1) 0 []).ret = none ∧ ¬ Right (-1) 0 [] ∧
      (sysSleep 1 0 (List.replicate (2 ^ 32) .tick ++ [.wakeup])).ret = none := by
  refine ⟨by decide, fun h => ?_, ?_⟩
  · have := (h [] prefix_rfl).1 (.inl (by decide))
    exact absurd this (by decide)
  · have hkill : Event.kill ∉ replicate (2 ^ 32) Event.tick := fun h => by
      cases eq_of_mem_replicate h
    have hret : ∀ k, (sysSleep 1 0 (replicate k .tick)).ret = none := fun k => by
      induction k with
      | zero => rfl
      | succ k ih => rw [replicate_succ', sysSleep_concat]; exact ih
    obtain ⟨hticks, hkilled⟩ := sysSleep_of_no_kill 1 0 hkill
    rw [count_replicate_self] at hticks
    rw [sysSleep_concat, step, hret, if_pos rfl, loop, hticks, hkilled]
    exact hret (2 ^ 32)

/-- **`sys_sleep`.** Along every run without a `kill`, from every value of the counter, the call returns 0 at
the first wakeup (or at once) at which `n` ticks have elapsed exactly if `n` is not negative and the ticks that
have elapsed at that wakeup are at least `n` modulo 2³² as well. -/
theorem sleep_right_iff (n ticks0 : BitVec 32) {es : List Event} (hes : .kill ∉ es) :
    Right n ticks0 es ↔ 0 ≤ n.toInt ∧ Counts n es := by
  constructor
  · intro h
    refine ⟨?_, fun p hp hfirst => ?_⟩
    · by_contra hneg
      have hret := (h [] nil_prefix).1 (.inl (by omega))
      have hpos : 0 < n.toNat := by
        rw [BitVec.toInt_eq_toNat_cond] at hneg
        split at hneg <;> omega
      rw [ret_nil, if_pos hpos] at hret
      cases hret
    · have hp' : p <+: es := (prefix_append _ _).trans hp
      have hret := (h _ hp).1 ((due_concat _).mpr (.inr ⟨rfl, hfirst.2⟩))
      rw [ret_wakeup (fun hkill => hes (hp'.subset hkill)) ((h p hp').2 hfirst.1)] at hret
      by_contra hlt
      rw [if_neg hlt] at hret
      cases hret
  · rintro ⟨hn, hcounts⟩ p hp
    exact ret_of_nonneg hn (fun h => hes (hp.subset h)) fun q hq => hcounts q (hq.trans hp)

/-- The counter wraps during a `sleep(2)`. -/
theorem sleep_right_iff_wrapping : Right 2 0xffffffff [.tick, .wakeup, .tick, .wakeup] := by
  refine (sleep_right_iff 2 0xffffffff (by decide)).mpr ⟨by decide, fun p hp hfirst => ?_⟩
  have hcount := ((prefix_append p [.wakeup]).trans hp).sublist.count_le .tick
  have hle : (2 : ℤ) ≤ p.count .tick := hfirst.2
  rw [Nat.mod_eq_of_lt (Nat.lt_of_le_of_lt hcount (by decide))]
  exact Int.ofNat_le.mp hle

end Xv6.Sleep
