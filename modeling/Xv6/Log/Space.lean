import Mathlib.Algebra.BigOperators.Ring.Finset
import Xv6.Log.Transaction

/-!
# Does the log reservation suffice?

`begin_op` reserves `MAXOPBLOCKS` of the `LOGSIZE` log slots for each operation, `log_write` panics
when `lh.n` reaches `log.size - 1`, and mkfs sets `sb.nlog = LOGSIZE`. One of the `nlog` blocks is
the header, so the log holds `LOGSIZE - 1` blocks while `LOGSIZE` are promised: three operations that
keep to `MAXOPBLOCKS` blocks each can panic (`log_space_exhausted`). `log_space` says exactly which
runs do: those with a `log_write` after the operations of the transaction have already written
`LOGSIZE - 1` distinct blocks. One block less for each operation is enough to rule them out.
-/

namespace Xv6.Log

open Xv6.Lib State Finset List

variable {P : Type*} [DecidableEq P] [Fintype P]

/-- Every operation passes at most `k` distinct block numbers to `log_write`. -/
def OpBound (k : ℕ) (s : State P) : Act P → Prop
  | .logWrite p b => (b :: s.wrote p).toFinset.card ≤ k
  | _ => True

instance (k : ℕ) (s : State P) (a : Act P) : Decidable (OpBound k s a) := by
  cases a <;> unfold OpBound <;> infer_instance

/-- The blocks that the operations of the current transaction, ended or not, have log-written. -/
def txnBlocks (s : State P) : Finset ℕ :=
  s.ended.flatten.toFinset ∪
    Finset.univ.biUnion fun p => if s.pc p = .inOp then (s.wrote p).toFinset else ∅

/-- A `log_write` is made only while the transaction has fewer than `LOGSIZE - 1` distinct blocks. -/
def TxnRoom (s : State P) : Act P → Prop
  | .logWrite _ _ => (txnBlocks s).card < LOGSIZE - 1
  | _ => True

instance (s : State P) (a : Act P) : Decidable (TxnRoom s a) := by
  cases a <;> unfold TxnRoom <;> infer_instance

local instance neZero3 : NeZero 3 := ⟨by decide⟩

/-- Three operations of ten blocks each: the thirtieth `log_write` panics although no operation
writes more than `MAXOPBLOCKS` blocks. -/
def thirtyWrites : List (Act (Fin 3)) :=
  [Act.beginOp 0, .beginOp 1, .beginOp 2] ++
    (List.range 30).map fun i => Act.logWrite (Fin.ofNat 3 i) (100 + i)

theorem log_space_exhausted :
    (machine (Fin 3) LOGSIZE).AllSteps (OpBound MAXOPBLOCKS) (State.initial _) thirtyWrites ∧
      ∃ s, (machine (Fin 3) LOGSIZE).run (State.initial _) thirtyWrites = some s ∧
        s.panic = some .tooBig := by
  refine ⟨by decide +kernel, _, rfl, by decide +kernel⟩

/-! ## When `log_write` runs out of log space -/

section Exact

variable {s s' : State P}

omit [DecidableEq P] in
theorem Inv.card_txnBlocks (h : Inv s) : (txnBlocks s).card = s.lh.length := by
  rw [← toFinset_card_of_nodup h.nodup]
  congr 1
  ext b
  simp only [txnBlocks, mem_union, mem_toFinset, mem_flatten, mem_biUnion, mem_univ, true_and]
  constructor
  · rintro (⟨ws, hws, hb⟩ | ⟨p, hb⟩)
    · exact h.ended ws hws b hb
    · split at hb
      · next hp => exact h.wrote p hp b (by simpa using hb)
      · simp at hb
  · intro hb
    rcases h.source b hb with hend | ⟨p, hp, hb⟩
    · exact Or.inl hend
    · exact Or.inr ⟨p, by simpa [hp] using hb⟩

theorem panic_tooBig_iff (h : Inv s) {a : Act P} (hs : step LOGSIZE s a = some s') :
    s'.panic = some .tooBig ↔ ¬ TxnRoom s a := by
  obtain ⟨hnone, hs⟩ := step_cases hs
  have hbegin : ∀ p, (s.beginOp p).panic = none := fun p => by
    unfold State.beginOp; split <;> [exact hnone; (split <;> exact hnone)]
  cases hs with
  | beginOp | retry => simp [hbegin, TxnRoom]
  | logWrite =>
    simp only [TxnRoom, h.card_txnBlocks]
    unfold State.logWrite
    split
    · simp only [true_iff]; omega
    · have hlt : s.lh.length < LOGSIZE - 1 := by omega
      split <;> simp [hnone, hlt]
  | endOp =>
    unfold State.endOp
    split
    · simp [TxnRoom]
    · split <;> simp [TxnRoom, wakeup, goto, hnone]
  | @commit p c =>
    have hpanic : (s.commitStep p c).panic = none := by
      cases c <;> simp only [commitStep] <;> first | exact hnone | (split <;> exact hnone)
    simp [hpanic, TxnRoom]
  | kill => simp [goto, hnone, TxnRoom]

omit [Fintype P] in
theorem run_of_panic {as : List (Act P)} (hp : s.panic.isSome)
    (hrun : (machine P LOGSIZE).run s as = some s') : as = [] ∧ s = s' := by
  cases as with
  | nil => simpa using hrun
  | cons a as =>
    have hnone : (machine P LOGSIZE).step s a = none := by simp [machine, step, hp]
    rw [Machine.run_cons, hnone] at hrun
    cases hrun

theorem run_no_panic_iff {as : List (Act P)} (h : Inv s) (hp : s.panic ≠ some .tooBig)
    (hrun : (machine P LOGSIZE).run s as = some s') :
    s'.panic ≠ some .tooBig ↔ (machine P LOGSIZE).AllSteps TxnRoom s as := by
  induction as generalizing s with
  | nil =>
    obtain rfl : s = s' := by simpa using hrun
    exact ⟨fun _ => trivial, fun _ => hp⟩
  | cons a as ih =>
    rw [Machine.run_cons, Option.bind_eq_some_iff] at hrun
    obtain ⟨t, ht, hrun⟩ := hrun
    have hiff := panic_tooBig_iff h ht
    have hall : (machine P LOGSIZE).AllSteps TxnRoom s (a :: as) ↔
        TxnRoom s a ∧ (machine P LOGSIZE).AllSteps TxnRoom t as := by
      simp only [Machine.AllSteps, ht, Option.mem_def, Option.some.injEq, forall_eq']
    rw [hall]
    by_cases htp : t.panic = some .tooBig
    · -- the panic ends the run
      obtain ⟨rfl, rfl⟩ := run_of_panic (by simp [htp]) hrun
      exact ⟨fun hne => absurd htp hne, fun hroom => absurd hroom.1 (hiff.mp htp)⟩
    · have hroom : TxnRoom s a := by
        by_contra hno
        exact htp (hiff.mpr hno)
      rw [ih (inv_step LOGSIZE h ht) htp hrun]
      exact ⟨fun hrest => ⟨hroom, hrest⟩, fun hrest => hrest.2⟩

end Exact

/-! ## Operations of at most `MAXOPBLOCKS - 1` blocks -/

section Nine

variable {s s' : State P}

/-- The blocks that process `p` may still write in its operation, when each writes at most nine. -/
def slack (s : State P) (p : P) : ℕ :=
  if s.pc p = .inOp then 9 - (s.wrote p).toFinset.card else 0

/-- The space in use and the space still claimed by the operations in progress fit in 28 blocks, one
less than what the log can take. -/
structure NineInv (s : State P) : Prop where
  inv : Inv s
  fits : s.lh.length + ∑ p, slack s p ≤ 28
  wrote_le : ∀ p, s.pc p = .inOp → (s.wrote p).toFinset.card ≤ 9

omit [DecidableEq P] in
theorem NineInv.of_le (h : NineInv s) (hi : Inv s') (hlh : s'.lh.length ≤ s.lh.length)
    (hpc : ∀ p, s'.pc p = .inOp → s.pc p = .inOp) (hw : s'.wrote = s.wrote) : NineInv s' where
  inv := hi
  fits := by
    refine le_trans (Nat.add_le_add hlh (sum_le_sum fun p _ => ?_)) h.fits
    unfold slack
    split
    · next hp => rw [if_pos (hpc p hp), hw]
    · omega
  wrote_le p hp := hw ▸ h.wrote_le p (hpc p hp)

omit [DecidableEq P] in
theorem sum_slack_le (s : State P) : ∑ p, slack s p ≤ 9 * countAt s.pc .inOp := by
  rw [countAt_eq_sum, mul_sum]
  refine sum_le_sum fun p _ => ?_
  unfold slack
  split <;> omega

theorem nineInv_beginOp {p : P} (h : NineInv s) (hp : s.pc p = .idle ∨ s.pc p = .woken) :
    NineInv (s.beginOp p) := by
  have hi := inv_beginOp h.inv hp
  have hpne : s.pc p ≠ .inOp := by rcases hp with hp | hp <;> simp [hp]
  have hsleep : ∀ q, (s.goto p .sleeping).pc q = .inOp → s.pc q = .inOp := by
    intro q hq
    by_cases hqp : q = p
    · subst hqp; simp [goto] at hq
    · simpa [goto, hqp] using hq
  unfold State.beginOp at hi ⊢
  split
  · next hc =>
    rw [if_pos hc] at hi
    exact h.of_le hi (le_refl _) hsleep rfl
  next hc =>
  rw [if_neg hc] at hi
  split
  · next hfull =>
    rw [if_pos hfull] at hi
    exact h.of_le hi (le_refl _) hsleep rfl
  next hroom =>
  rw [if_neg hroom] at hi
  set t : State P := { s.goto p .inOp with
    outstanding := s.outstanding + 1, wrote := Function.update s.wrote p [] } with ht
  have hsum := sum_add_eq_of_eq_off (f := slack s) (g := slack t) p fun q hq => by
    simp [slack, ht, goto, hq]
  have hs0 : slack s p = 0 := if_neg hpne
  have ht9 : slack t p = 9 := by simp [slack, ht, goto]
  have hcount := h.inv.count
  have hle := sum_slack_le s
  have hL : (LOGSIZE : ℤ) = 30 := rfl
  have hM : (MAXOPBLOCKS : ℤ) = 10 := rfl
  rw [hL, hM] at hroom
  refine ⟨hi, ?_, fun q hq => ?_⟩
  · show s.lh.length + ∑ q, slack t q ≤ 28
    rcases Nat.eq_zero_or_pos (countAt s.pc .inOp) with hzero | hpos
    · have hnil := h.inv.quiet (by omega) (by simpa using hc)
      rw [hnil, length_nil]
      omega
    · omega
  · by_cases hqp : q = p
    · subst hqp; simp [ht]
    · simp only [ht, goto, Function.update_of_ne hqp] at hq ⊢
      exact h.wrote_le q hq

theorem nineInv_logWrite {p : P} {b : ℕ} (h : NineInv s) (hp : s.pc p = .inOp)
    (hb : (b :: s.wrote p).toFinset.card ≤ 9) : NineInv (s.logWrite LOGSIZE p b) := by
  have hi := inv_logWrite LOGSIZE b h.inv hp
  have hfits := h.fits
  have hpos := countAt_pos hp
  have hcount := h.inv.count
  have hL : (LOGSIZE : ℤ) = 30 := rfl
  unfold State.logWrite at hi ⊢
  rw [if_neg (by omega), if_neg (by omega)] at hi ⊢
  set t : State P := { s with
    lh := absorb s.lh b, wrote := Function.update s.wrote p (b :: s.wrote p) } with ht
  have hsum := sum_add_eq_of_eq_off (f := slack s) (g := slack t) p fun q hq => by
    simp [slack, ht, hq]
  have hsp : slack s p = 9 - (s.wrote p).toFinset.card := if_pos hp
  have htp : slack t p = 9 - (b :: s.wrote p).toFinset.card := by simp [slack, ht, hp]
  refine ⟨hi, ?_, fun q hq => ?_⟩
  · show (absorb s.lh b).length + ∑ q, slack t q ≤ 28
    rw [absorb_eq]
    by_cases hmem : b ∈ s.wrote p
    · -- repeated by the same operation: already in the log
      have hcard : (b :: s.wrote p).toFinset.card = (s.wrote p).toFinset.card := by
        rw [toFinset_cons, insert_eq_of_mem (by simpa using hmem)]
      rw [if_pos (h.inv.wrote p hp b hmem)]
      omega
    · have hcard : (b :: s.wrote p).toFinset.card = (s.wrote p).toFinset.card + 1 := by
        rw [toFinset_cons, card_insert_of_notMem (by simpa using hmem)]
      split
      · omega
      · rw [length_append, length_singleton]
        omega
  · by_cases hqp : q = p
    · subst hqp; simpa [ht] using hb
    · simp only [ht, Function.update_of_ne hqp] at hq ⊢
      exact h.wrote_le q hq

omit [Fintype P] in
theorem pc_commitStep {p q : P} {c : CommitPc} (hp : s.pc p = .commit c)
    (hq : (s.commitStep p c).pc q = .inOp) : s.pc q = .inOp := by
  by_cases hqp : q = p
  · subst hqp
    cases c <;> simp only [commitStep] at hq <;> try split at hq
    all_goals simp [wakeup, goto] at hq
  · cases c <;> simp only [commitStep] at hq <;> try split at hq
    all_goals first
      | simpa [goto, hqp] using hq
      | (by_cases hsl : s.pc q = .sleeping <;> simp [wakeup, goto, hqp, hsl] at hq
         exact hq)

theorem nineInv_step {a : Act P} (h : NineInv s) (ha : OpBound 9 s a)
    (hs : step LOGSIZE s a = some s') : NineInv s' := by
  have hi := inv_step LOGSIZE h.inv hs
  cases (step_cases hs).2 with
  | beginOp hp => exact nineInv_beginOp h (Or.inl hp)
  | retry hp => exact nineInv_beginOp h (Or.inr hp)
  | logWrite hp => exact nineInv_logWrite h hp ha
  | @endOp p hp =>
    refine h.of_le hi ?_ (fun q hq => ?_) ?_
    · unfold State.endOp; split <;> [exact le_refl _; (split <;> exact le_refl _)]
    · by_cases hqp : q = p
      · exact hqp ▸ hp
      · unfold State.endOp at hq
        split at hq <;> [exact hq; split at hq]
        · simpa [goto, hqp] using hq
        · by_cases hsl : s.pc q = .sleeping <;> simp [wakeup, goto, hqp, hsl] at hq
          exact hq
    · unfold State.endOp; split <;> [rfl; (split <;> rfl)]
  | @commit p c hp =>
    refine h.of_le hi ?_ (fun q hq => pc_commitStep hp hq) ?_
    · cases c <;> simp only [commitStep] <;>
        first | exact le_refl _ | (split <;> exact le_refl _) | exact Nat.zero_le _
    · cases c <;> simp only [commitStep] <;> first | rfl | (split <;> rfl)
  | @kill p hp =>
    refine h.of_le hi (le_refl _) (fun q hq => ?_) rfl
    by_cases hqp : q = p
    · subst hqp; simp [goto] at hq
    · simpa [goto, hqp] using hq

theorem NineInv.allSteps_txnRoom {as : List (Act P)} (h : NineInv s)
    (hC : (machine P LOGSIZE).AllSteps (OpBound 9) s as) :
    (machine P LOGSIZE).AllSteps TxnRoom s as := by
  induction as generalizing s with
  | nil => trivial
  | cons a as ih =>
    refine ⟨?_, fun t ht => ih (nineInv_step h hC.1 ht) (hC.2 t ht)⟩
    cases a with
    | logWrite p b =>
      show (txnBlocks s).card < 29
      have := h.fits
      rw [h.inv.card_txnBlocks]
      omega
    | _ => trivial

end Nine

/-! ## The exact condition -/

/-- **Log space.** With the log that mkfs lays out, a run ends without the panic of `log_write`
exactly if each of its `log_write` calls was made while the operations of the transaction had
written fewer than `LOGSIZE - 1` distinct blocks. This is so in particular if no operation writes
more than `MAXOPBLOCKS - 1` distinct blocks. -/
theorem log_space (as : List (Act P)) {s' : State P}
    (hrun : (machine P LOGSIZE).run (State.initial P) as = some s') :
    (s'.panic ≠ some .tooBig ↔ (machine P LOGSIZE).AllSteps TxnRoom (State.initial P) as) ∧
      ((machine P LOGSIZE).AllSteps (OpBound (MAXOPBLOCKS - 1)) (State.initial P) as →
        s'.panic ≠ some .tooBig) := by
  have hexact := run_no_panic_iff inv_initial (by simp [initial]) hrun
  have hinit : NineInv (initial P) :=
    ⟨inv_initial, by simp [initial, slack], by simp [initial]⟩
  exact ⟨hexact, fun hnine => hexact.mpr (hinit.allSteps_txnRoom hnine)⟩

/-- The first 29 of the thirty writes are fine. -/
theorem log_space_twentyNine :
    ∃ s, (machine (Fin 3) LOGSIZE).run (State.initial _) (thirtyWrites.take 32) = some s ∧
      s.panic ≠ some .tooBig :=
  ⟨_, rfl, (log_space (thirtyWrites.take 32) rfl).1.mpr (by decide +kernel)⟩

end Xv6.Log
