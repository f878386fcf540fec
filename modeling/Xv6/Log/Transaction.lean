import Xv6.Lib.Counting
import Xv6.Log.Protocol

/-!
# Invariants of the log transaction protocol

`Inv` collects what holds between any two critical sections of `log.lock`: the count of outstanding
operations, the exclusion between operations and a running commit, where the entries of the log
header come from, and why every process asleep in `begin_op` still has somebody to wake it. Each
transition has one lemma that says it keeps `Inv`; the statements about runs follow from
`Reachable.invariant`.
-/

namespace Xv6.Log

open Xv6.Lib Function State

variable {P : Type*} [DecidableEq P]

/-- The steps of the log. -/
inductive Step (size : ℕ) (s : State P) : Act P → State P → Prop where
  | beginOp {p : P} (hp : s.pc p = .idle) : Step size s (.beginOp p) (s.beginOp p)
  | retry {p : P} (hp : s.pc p = .woken) : Step size s (.retry p) (s.beginOp p)
  | logWrite {p : P} {b : ℕ} (hp : s.pc p = .inOp) :
      Step size s (.logWrite p b) (s.logWrite size p b)
  | endOp {p : P} (hp : s.pc p = .inOp) : Step size s (.endOp p) (s.endOp p)
  | commit {p : P} {c : CommitPc} (hp : s.pc p = .commit c) :
      Step size s (.commit p) (s.commitStep p c)
  | kill {p : P} (hp : s.pc p = .sleeping) : Step size s (.kill p) (s.goto p .woken)

theorem step_cases {size : ℕ} {s s' : State P} {a : Act P} (hs : step size s a = some s') :
    s.panic = none ∧ Step size s a s' := by
  unfold step at hs
  split at hs
  · cases hs
  next hnone =>
  refine ⟨by simpa using hnone, ?_⟩
  cases a with
  | commit p =>
    simp only at hs
    split at hs
    · next c hp =>
      cases hs
      exact .commit hp
    · cases hs
  | _ =>
    obtain ⟨hp, hs⟩ := Option.ite_none_right_eq_some.mp hs
    cases hs
    constructor
    exact hp

/-! ## Log absorption -/

theorem absorb_eq (lh : List ℕ) (b : ℕ) : absorb lh b = if b ∈ lh then lh else lh ++ [b] := by
  unfold absorb
  by_cases hmem : b ∈ lh
  · have hlt : lh.idxOf b < lh.length := List.idxOf_lt_length_iff.mpr hmem
    rw [if_neg (by omega), if_pos hmem]
    conv_rhs => rw [← List.set_getElem_self hlt]
    rw [List.getElem_idxOf hlt]
  · rw [if_pos (List.idxOf_eq_length hmem), if_neg hmem]

variable {lh : List ℕ}

theorem mem_absorb {b c : ℕ} : c ∈ absorb lh b ↔ c ∈ lh ∨ c = b := by
  rw [absorb_eq]
  split
  · next hmem =>
    constructor
    · exact Or.inl
    · rintro (h | rfl)
      · exact h
      · exact hmem
  · simp

theorem nodup_absorb (h : lh.Nodup) (b : ℕ) : (absorb lh b).Nodup := by
  rw [absorb_eq]
  split
  · exact h
  · next hmem =>
    rw [List.nodup_append]
    refine ⟨h, List.nodup_singleton b, ?_⟩
    rintro x hx y hy rfl
    rw [List.mem_singleton] at hy
    exact hmem (hy ▸ hx)

/-! ## The invariant -/

section Invariant

variable [Fintype P]

/-- What holds in every state of the protocol. -/
structure Inv (s : State P) : Prop where
  /-- `outstanding` counts the operations in progress. -/
  count : s.outstanding = countAt s.pc .inOp
  /-- at most one process commits, and only with `committing` set -/
  commit_unique : ∀ p q c c', s.pc p = .commit c → s.pc q = .commit c' → p = q
  commit_flag : ∀ p c, s.pc p = .commit c → s.committing = true
  flag_outstanding : s.committing = true → s.outstanding = 0
  nodup : s.lh.Nodup
  wrote : ∀ p, s.pc p = .inOp → ∀ b ∈ s.wrote p, b ∈ s.lh
  ended : ∀ ws ∈ s.ended, ∀ b ∈ ws, b ∈ s.lh
  /-- every logged block was written by an operation that has ended or is in progress -/
  source : ∀ b ∈ s.lh, (∃ ws ∈ s.ended, b ∈ ws) ∨ ∃ p, s.pc p = .inOp ∧ b ∈ s.wrote p
  /-- with no operation and no commit the log is empty -/
  quiet : s.outstanding = 0 → s.committing = false → s.lh = []
  cleared : ∀ p c, s.pc p = .commit c → c = .erase ∨ c = .done → s.lh = []
  headed : ∀ p c, s.pc p = .commit c → (∃ tail, c = .install tail) ∨ c = .clear → s.head = s.lh
  sleeper : ∀ p, s.pc p = .sleeping → 0 < s.outstanding ∨ s.committing = true
  no_panic : s.panic ≠ some .outsideTrans ∧ s.panic ≠ some .committing

variable {s : State P} {p : P}

omit [DecidableEq P] in
theorem inv_initial : Inv (State.initial P) := by
  constructor <;> simp [initial, countAt_eq_zero.mpr]

theorem Inv.goto_outside (h : Inv s) (hp : s.pc p ≠ .inOp) {c : Pc} (hc : c ≠ .inOp)
    (hcommit : ∀ k, c ≠ .commit k)
    (hsleep : c = .sleeping → 0 < s.outstanding ∨ s.committing = true) : Inv (s.goto p c) := by
  have hcount := countAt_update s.pc p c .inOp
  rw [if_neg hp, if_neg hc] at hcount
  have hout := h.count
  constructor
  case count => simp only [goto]; omega
  -- with `linarith`, most of the time goes into the search for ordered modules
  all_goals
    simp only [goto]
    grind -linarith [Inv, update_apply]

omit [DecidableEq P] in
theorem countAt_wakeup (s : State P) : countAt s.wakeup.pc .inOp = countAt s.pc .inOp := by
  refine countAt_congr fun q => ?_
  by_cases hq : s.pc q = .sleeping <;> simp [wakeup, hq]

variable {c : CommitPc}

theorem Inv.goto_commit (h : Inv s) {c' : CommitPc} (hp : s.pc p = .commit c)
    (hclear : c' = .erase ∨ c' = .done → s.lh = [])
    (hhead : (∃ tail, c' = .install tail) ∨ c' = .clear → s.head = s.lh) :
    Inv (s.goto p (.commit c')) := by
  have hcount := countAt_update s.pc p (.commit c') .inOp
  rw [if_neg (by rw [hp]; simp), if_neg (by simp)] at hcount
  have hout := h.count
  constructor
  case count => simp only [goto]; omega
  all_goals
    simp only [goto]
    grind -linarith [Inv, update_apply]

/-! ## Every transition keeps the invariant -/

omit [DecidableEq P] in
theorem Inv.wait_has_waker (h : Inv s) (hc : s.committing = false)
    (hfull : (s.lh.length : ℤ) + (s.outstanding + 1) * MAXOPBLOCKS > LOGSIZE) : 0 < s.outstanding := by
  have hnonneg : 0 ≤ s.outstanding := by rw [h.count]; omega
  rcases hnonneg.lt_or_eq with hlt | heq
  · exact hlt
  · have hnil := h.quiet heq.symm hc
    rw [hnil, ← heq] at hfull
    simp at hfull

theorem inv_beginOp (h : Inv s) (hp : s.pc p = .idle ∨ s.pc p = .woken) : Inv (s.beginOp p) := by
  have hpne : s.pc p ≠ .inOp := by rcases hp with hp | hp <;> simp [hp]
  unfold State.beginOp
  split
  · next hc => exact h.goto_outside hpne (by simp) (by simp) fun _ => Or.inr hc
  · next hc =>
    split
    · next hfull =>
      exact h.goto_outside hpne (by simp) (by simp) fun _ =>
        Or.inl (h.wait_has_waker (by simpa using hc) hfull)
    · have hcount := countAt_update s.pc p .inOp .inOp
      rw [if_neg hpne, if_pos rfl] at hcount
      have hout := h.count
      constructor
      case count => simp only [goto]; omega
      case quiet => intro h0; simp only at h0; omega
      case source =>
        intro b hb
        rcases h.source b hb with hend | ⟨q, hq, hqb⟩
        · exact Or.inl hend
        · have hqp : q ≠ p := fun heq => hpne (heq ▸ hq)
          exact Or.inr ⟨q, by simpa [goto, hqp] using hq, by simpa [hqp] using hqb⟩
      all_goals
        simp only [goto]
        grind -linarith [Inv, update_apply]

theorem inv_logWrite (size : ℕ) (b : ℕ) (h : Inv s) (hp : s.pc p = .inOp) :
    Inv (s.logWrite size p b) := by
  have hpos : 0 < countAt s.pc .inOp := countAt_pos hp
  have hout := h.count
  unfold State.logWrite
  split
  · -- the panic changes nothing else
    exact ⟨h.count, h.commit_unique, h.commit_flag, h.flag_outstanding, h.nodup, h.wrote, h.ended,
      h.source, h.quiet, h.cleared, h.headed, h.sleeper, by simp⟩
  · rw [if_neg (by omega)]
    have hcomm : s.committing = false := by
      by_contra hne
      have := h.flag_outstanding (by simpa using hne)
      omega
    constructor
    case nodup => exact nodup_absorb h.nodup b
    case source =>
      intro c hc
      rcases mem_absorb.mp hc with hc | rfl
      · rcases h.source c hc with hend | ⟨q, hq, hqc⟩
        · exact Or.inl hend
        · refine Or.inr ⟨q, hq, ?_⟩
          by_cases hqp : q = p
          · subst hqp; simp [hqc]
          · simpa [hqp] using hqc
      · exact Or.inr ⟨p, hp, by simp⟩
    all_goals grind -linarith [Inv, mem_absorb, update_apply]

theorem Inv.source_endOp (h : Inv s) {b : ℕ} (hb : b ∈ s.lh) :
    (∃ ws ∈ s.wrote p :: s.ended, b ∈ ws) ∨ ∃ q, q ≠ p ∧ s.pc q = .inOp ∧ b ∈ s.wrote q := by
  rcases h.source b hb with ⟨ws, hws, hbw⟩ | ⟨q, hq, hqb⟩
  · exact Or.inl ⟨ws, by simp [hws], hbw⟩
  · by_cases hqp : q = p
    · subst hqp
      exact Or.inl ⟨s.wrote q, by simp, hqb⟩
    · exact Or.inr ⟨q, hqp, hq, hqb⟩

theorem inv_endOp (h : Inv s) (hp : s.pc p = .inOp) : Inv (s.endOp p) := by
  have hpos : 0 < countAt s.pc .inOp := countAt_pos hp
  have hout := h.count
  have hcomm : s.committing = false := by
    by_contra hne
    have := h.flag_outstanding (by simpa using hne)
    omega
  have hnc : ∀ q c, s.pc q ≠ .commit c := fun q c hq => by
    rw [h.commit_flag q c hq] at hcomm
    cases hcomm
  unfold State.endOp
  rw [if_neg (by simp [hcomm])]
  split
  · -- the last operation: nobody else is in one, and the commit starts
    have hcount := countAt_update s.pc p (.commit .enter) .inOp
    rw [if_pos hp, if_neg (by simp)] at hcount
    have hnone : ∀ q, Function.update s.pc p (.commit .enter) q ≠ .inOp :=
      countAt_eq_zero.mp (by omega)
    constructor
    case count => simp only [goto]; omega
    case source =>
      intro b hb
      rcases h.source_endOp (p := p) hb with hend | ⟨q, hqp, hq, -⟩
      · exact Or.inl hend
      · exact absurd (by simpa [hqp] using hq) (hnone q)
    all_goals
      simp only [goto]
      grind -linarith [Inv, update_apply]
  · have hcount := countAt_update s.pc p .idle .inOp
    rw [if_pos hp, if_neg (by simp)] at hcount
    constructor
    case count => simp only [countAt_wakeup, goto]; omega
    case source =>
      intro b hb
      rcases h.source_endOp (p := p) hb with hend | ⟨q, hqp, hq, hqb⟩
      · exact Or.inl hend
      · exact Or.inr ⟨q, by simp [wakeup, goto, hqp, hq], hqb⟩
    all_goals
      simp only [wakeup, goto]
      grind -linarith [Inv, update_apply]

theorem inv_commitStep (h : Inv s) (hp : s.pc p = .commit c) : Inv (s.commitStep p c) := by
  have hcomm := h.commit_flag p c hp
  have hzero := h.flag_outstanding hcomm
  -- no operation is in progress during a commit
  have hnone : ∀ q, s.pc q ≠ .inOp := countAt_eq_zero.mp (by have := h.count; omega)
  cases c with
  | enter =>
    simp only [commitStep]
    split
    · exact h.goto_commit hp (by simp) (by simp)
    · have hnil : s.lh = [] := List.eq_nil_of_length_eq_zero (by omega)
      have h' : Inv (s.goto p (.commit .done)) := h.goto_commit hp (fun _ => hnil) (by simp)
      exact ⟨h'.count, h'.commit_unique, h'.commit_flag, h'.flag_outstanding, h'.nodup, h'.wrote,
        by simp, by simp [goto, hnil], h'.quiet, h'.cleared, h'.headed, h'.sleeper,
        h'.no_panic⟩
  | writeLog tail =>
    simp only [commitStep]
    split <;> exact h.goto_commit hp (by simp) (by simp)
  | writeHead =>
    have h' : Inv { s with head := s.lh } :=
      ⟨h.count, h.commit_unique, h.commit_flag, h.flag_outstanding, h.nodup, h.wrote, h.ended,
        h.source, h.quiet, h.cleared, fun _ _ _ _ => rfl, h.sleeper, h.no_panic⟩
    exact h'.goto_commit hp (by simp) (fun _ => rfl)
  | install tail =>
    have hhead := h.headed p _ hp (Or.inl ⟨tail, rfl⟩)
    simp only [commitStep]
    split <;> exact h.goto_commit hp (by simp) (fun _ => hhead)
  | clear =>
    have hcount := countAt_update s.pc p (.commit .erase) .inOp
    rw [if_neg (by rw [hp]; simp), if_neg (by simp)] at hcount
    have hout := h.count
    simp only [commitStep]
    constructor
    case count => simp only [goto]; omega
    all_goals
      simp only [goto]
      grind -linarith [Inv, update_apply]
  | erase =>
    have hnil := h.cleared p _ hp (Or.inl rfl)
    have h' : Inv { s with head := s.lh } :=
      ⟨h.count, h.commit_unique, h.commit_flag, h.flag_outstanding, h.nodup, h.wrote, h.ended,
        h.source, h.quiet, h.cleared, fun _ _ _ _ => rfl, h.sleeper, h.no_panic⟩
    exact h'.goto_commit hp (fun _ => hnil) (by simp)
  | done =>
    have hnil := h.cleared p _ hp (Or.inr rfl)
    have hcount := countAt_update s.pc p .idle .inOp
    rw [if_neg (by rw [hp]; simp), if_neg (by simp)] at hcount
    have hout := h.count
    simp only [commitStep]
    constructor
    case count =>
      simp only [countAt_wakeup]
      simp only [wakeup, goto]
      omega
    all_goals
      simp only [wakeup, goto]
      grind -linarith [Inv, update_apply]

variable {a : Act P} {s' : State P}

theorem inv_step (size : ℕ) (h : Inv s) (hs : step size s a = some s') : Inv s' := by
  cases (step_cases hs).2 with
  | beginOp hp => exact inv_beginOp h (Or.inl hp)
  | retry hp => exact inv_beginOp h (Or.inr hp)
  | logWrite hp => exact inv_logWrite size _ h hp
  | endOp hp => exact inv_endOp h hp
  | commit hp => exact inv_commitStep h hp
  | kill hp => exact h.goto_outside (by simp [hp]) (by simp) (by simp) (by simp)

theorem inv_reachable {size : ℕ} (h : (machine P size).Reachable s) : Inv s := by
  refine h.invariant Inv ?_ fun _ _ _ hi hs => inv_step size hi hs
  rintro _ rfl
  exact inv_initial

/-! ## The protocol's guarantees -/

omit [Fintype P] in
theorem lh_subset_step (size : ℕ) (hs : step size s a = some s')
    (hclear : ∀ q, a = .commit q → s.pc q ≠ .commit .clear) : ∀ b ∈ s.lh, b ∈ s'.lh := by
  have hbegin : ∀ p, (s.beginOp p).lh = s.lh := fun p => by
    unfold State.beginOp; split <;> [rfl; (split <;> rfl)]
  intro b hb
  cases (step_cases hs).2 with
  | beginOp | retry => rwa [hbegin]
  | logWrite =>
    unfold State.logWrite
    split
    · exact hb
    · split
      · exact hb
      · exact mem_absorb.mpr (Or.inl hb)
  | endOp =>
    unfold State.endOp
    split <;> [exact hb; (split <;> exact hb)]
  | @commit p c hp =>
    cases c with
    | clear => exact absurd hp (hclear p rfl)
    | enter | writeLog tail | install tail => simp only [commitStep]; split <;> exact hb
    | writeHead | erase | done => exact hb
  | kill => exact hb

omit [DecidableEq P] in
theorem Inv.commit_alone (h : Inv s) (hp : s.pc p = .commit c) (q : P) : s.pc q ≠ .inOp := by
  have hzero := h.flag_outstanding (h.commit_flag p c hp)
  exact countAt_eq_zero.mp (by have := h.count; omega) q

omit [DecidableEq P] in
theorem Inv.committed (h : Inv s) (hp : s.pc p = .commit c)
    (hc : (∃ tail, c = .install tail) ∨ c = .clear) :
    s.head = s.lh ∧ ∀ b, b ∈ s.head ↔ ∃ ws ∈ s.ended, b ∈ ws := by
  have hhead := h.headed p c hp hc
  refine ⟨hhead, fun b => ⟨fun hb => ?_, ?_⟩⟩
  · rw [hhead] at hb
    rcases h.source b hb with hend | ⟨q, hq, -⟩
    · exact hend
    · exact absurd hq (h.commit_alone hp q)
  · rintro ⟨ws, hws, hb⟩
    rw [hhead]
    exact h.ended ws hws b hb

/-- **The transaction protocol.** In every reachable state: (a) a commit excludes operations, so the
panics of `end_op` and of `log_write` outside a transaction do not happen; (b) the log header has no
duplicates; (c) the blocks of an operation stay in the header until a commit that runs with every
operation ended has written them to the header on disk, which then lists exactly the blocks of the
ended operations; (d) a process asleep in `begin_op` has an operation or a commit to wake it. -/
theorem log_transaction_protocol (size : ℕ) {s : State P} (h : (machine P size).Reachable s) :
    -- (a)
    ((s.committing = true → s.outstanding = 0) ∧
      s.panic ≠ some .committing ∧ s.panic ≠ some .outsideTrans ∧
      ∀ p c, s.pc p = .commit c → ∀ q, s.pc q ≠ .inOp) ∧
    -- (b)
    s.lh.Nodup ∧
    -- (c)
    ((∀ p, s.pc p = .inOp → ∀ b ∈ s.wrote p, b ∈ s.lh) ∧
      (∀ ws ∈ s.ended, ∀ b ∈ ws, b ∈ s.lh) ∧
      (∀ a s', (machine P size).step s a = some s' → ∀ b ∈ s.lh, b ∉ s'.lh →
        ∃ p, a = .commit p ∧ s.pc p = .commit .clear) ∧
      (∀ p c, s.pc p = .commit c → ((∃ tail, c = .install tail) ∨ c = .clear) →
        s.head = s.lh ∧ ∀ b, b ∈ s.head ↔ ∃ ws ∈ s.ended, b ∈ ws)) ∧
    -- (d)
    ∀ p, s.pc p = .sleeping → 0 < s.outstanding ∨ s.committing = true := by
  have hi := inv_reachable h
  refine ⟨⟨hi.flag_outstanding, hi.no_panic.2, hi.no_panic.1, fun p c hp q => hi.commit_alone hp q⟩,
    hi.nodup, ⟨hi.wrote, hi.ended, ?_, fun p c hp hc => hi.committed hp hc⟩, hi.sleeper⟩
  intro a s' hs b hb hb'
  by_contra hnone
  refine hb' (lh_subset_step size hs (fun q hq hpc => ?_) b hb)
  exact hnone ⟨q, hq, hpc⟩

/-- Three processes share a transaction; the first one waits for room after its end, and the last one
is inside the commit, its header written. -/
def sharedCommit : List (Act (Fin 3)) :=
  [.beginOp 0, .beginOp 1, .beginOp 2, .logWrite 0 50, .logWrite 1 50, .endOp 0, .beginOp 0,
    .endOp 1, .endOp 2, .commit 2, .commit 2, .commit 2, .commit 2]

theorem log_transaction_protocol_shared :
    ∃ s, (machine (Fin 3) 30).run (State.initial _) sharedCommit = some s ∧
      s.pc 0 = .woken ∧ s.pc 2 = .commit (.install 0) ∧ s.head = [50] ∧ s.lh.Nodup :=
  ⟨_, rfl, by decide, by decide, by decide,
    (log_transaction_protocol 30 (Machine.Reachable.of_run (.init rfl) sharedCommit rfl)).2.1⟩

end Invariant

end Xv6.Log
