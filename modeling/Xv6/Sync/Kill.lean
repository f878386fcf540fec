import Xv6.Sync.Steps

/-!
# Kills and sleeping victims

`wait`, `piperead`, `pipewrite`, `consoleread` and `sys_sleep` test `p->killed` before they call `sleep`,
and `kill` makes a SLEEPING victim RUNNABLE. The test and `sleep` take `p->lock` one after the other: a
`kill` that comes between the two is lost, and no other is.
-/

namespace Xv6.Sync

open Lib

variable {s s' : State} {a : Act}

/-- The program points between the test of `p->killed` and `sleep`. -/
def Pc.tested : Pc → Bool
  | .wakeup _ _ k => k.tested
  | .waitSleep _ | .readSleep _ | .writeSleep _ _ | .consSleep _ _ | .tickSleep _ _ => true
  | _ => false

/-- The five calls that test `p->killed`, where they acquire their lock. -/
def Pc.tests : Pc → Bool
  | .waitAcquire _ | .readAcquire _ | .writeAcquire _ _ | .consAcquire _ _ | .tickAcquire _ _ => true
  | _ => false

/-- `q` sleeps in one of the five calls. -/
def Sleeps (s : State) (q : Slot) : Prop :=
  (s.proc q).state = .sleeping ∧ ∃ k, s.pc q = .asleep k ∧ k.tests = true

/-- No `kill` hits a process between its test of `p->killed` and `sleep`. -/
def SparesTested (s : State) (a : Act) : Prop := ∀ v ∈ victim s a, (s.pc v).tested = false

instance (s : State) (a : Act) : Decidable (SparesTested s a) :=
  inferInstanceAs (Decidable (∀ v ∈ victim s a, (s.pc v).tested = false))

/-- A process that is about to sleep in one of the five calls, or does, was not killed. -/
structure KillInv (s : State) : Prop where
  tested : ∀ q, (s.pc q).tested = true → (s.proc q).killed = false
  sleeps : ∀ q, Sleeps s q → (s.proc q).killed = false

section

variable {t : Table} {sh : Shared} {p : Slot} {fault : Bool} {k : Pc} {n : Next}

theorem next_tested (hok : k.Ok p) (hn : next t sh p fault k = some n) (hk : k.tested = false)
    (hkilled : (t.proc p).killed = true) : n.1.tested = false := by
  cases k with
  | user r => cases hn
  | dead => cases hn
  | asleep k =>
    cases hn
    obtain ⟨c, hc⟩ := hok
    cases k <;> first | rfl | cases hc
  | wakeup c j k =>
    simp only [next] at hn
    split at hn
    · cases hn
      exact hk
    · cases hn
      exact hk
  | writeTest _ _ | writeNext _ _ | writeStore _ _ | readTest _ | readCopy _ _ | waitScan _ _ _
  | consTest _ _ | tickTest _ _ =>
    cases hn
    simp only [writeLoop, writeByte, readLoop, copyLoop, scanLoop, consLoop, tickLoop, hkilled, or_true,
      if_true]
    repeat' split
    all_goals rfl
  | _ =>
    first
    | exact Bool.noConfusion hk
    | simp only [next] at hn
      repeat' split at hn
      all_goals cases hn
      all_goals rfl

theorem next_sleeps {k' : Pc} (hok : k.Ok p) (hn : next t sh p fault k = some n)
    (hk' : n.1 = .asleep k') (htests : k'.tests = true) : k.tested = true := by
  have hdoes := next_does hok hn
  obtain ⟨k1, sh1, e⟩ := n
  obtain rfl : k1 = .asleep k' := hk'
  cases hdoes with
  | none _ hplain => cases hplain
  | tidy hplain => cases hplain
  | sleep hto hc =>
    cases k with
    | otherSleep a =>
      cases hto
      cases htests
    | _ => first | rfl | cases hto

end

theorem KillInv.go (h : KillInv s) (ht : Threads s) {p : Slot} {fault : Bool} {n : Next}
    (hr : (s.proc p).state = .running) (hn : next s.table s.shared p fault (s.pc p) = some n)
    (hspare : SparesTested s (.go p fault)) : KillInv (s.advance p n) := by
  have hdoes := next_does (ht.ok p) hn
  -- a step of `kill` hits its victim awake and outside
  have hkill : ∀ q, ((s.advance p n).proc q).killed = true → (s.proc q).killed = false →
      (s.pc q).tested = false ∧ ((s.advance p n).proc q).state ≠ .sleeping := by
    intro q hk hk0
    rcases advance_killed hk with hk | he
    · rw [hk] at hk0
      cases hk0
    · rw [he] at hdoes
      refine ⟨hspare q (hdoes.victim fault), ?_⟩
      rw [advance_proc, he]
      simp only [Table.apply, setProc_proc, if_true]
      split
      · simp
      · assumption
  refine ⟨fun q hq => ?_, fun q hq => ?_⟩
  · by_contra hk
    have hk : ((s.advance p n).proc q).killed = true := Bool.of_not_eq_false hk
    by_cases hqp : q = p
    · subst hqp
      rw [advance_pc_self] at hq
      rcases advance_killed hk with hk0 | he
      · have hno : (s.pc q).tested = false := by
          by_contra hyes
          rw [h.tested q (Bool.of_not_eq_false hyes)] at hk0
          cases hk0
        rw [next_tested (ht.ok q) hn hno hk0] at hq
        cases hq
      · -- a process that kills itself returns to user space
        obtain ⟨k, sh, e⟩ := n
        obtain rfl : e = .kill q := he
        generalize s.pc q = k0 at hdoes
        cases hdoes
        cases hq
    · by_cases hrun : n.2.2 = .runnable q
      · rw [advance_pc_runnable hqp hrun] at hq
        cases hq
      · rw [advance_pc_ne hqp hrun] at hq
        have := (hkill q hk (h.tested q hq)).1
        rw [hq] at this
        cases this
  · by_contra hk
    have hk : ((s.advance p n).proc q).killed = true := Bool.of_not_eq_false hk
    obtain ⟨hst, k', hk', htests⟩ := hq
    have hno : (s.proc q).killed = false := by
      by_cases hqp : q = p
      · subst hqp
        rw [advance_pc_self] at hk'
        exact h.tested q (next_sleeps (ht.ok q) hn hk' htests)
      · rcases advance_sleeping hst with hst | ⟨hqp', -⟩
        · by_cases hrun : n.2.2 = .runnable q
          · rw [advance_pc_runnable hqp hrun] at hk'
            cases hk'
          · rw [advance_pc_ne hqp hrun] at hk'
            exact h.sleeps q ⟨hst, k', hk', htests⟩
        · exact absurd hqp' hqp
    exact (hkill q hk hno).2 hst

theorem KillInv.of_awake (h : KillInv s) (hpc : s'.pc = s.pc) (hproc : ∀ q, s'.proc q = s.proc q ∨
    (s'.proc q).state ≠ .sleeping ∧ (s'.proc q).killed = (s.proc q).killed) : KillInv s' := by
  refine ⟨fun q hq => ?_, fun q hq => ?_⟩
  · rw [hpc] at hq
    rcases hproc q with hp | ⟨-, hp⟩ <;> rw [hp] <;> exact h.tested q hq
  · obtain ⟨hst, k, hk, htests⟩ := hq
    rw [hpc] at hk
    rcases hproc q with hp | ⟨hne, -⟩
    · rw [hp] at hst ⊢
      exact h.sleeps q ⟨hst, k, hk, htests⟩
    · exact absurd hst hne

theorem not_tested_of_isEntry {k : Pc} (h : k.isEntry = true) : k.tested = false := by
  cases k with
  | wakeup c j k =>
    cases c with
    | other a => cases k <;> first | rfl | (cases j <;> cases h)
    | _ => cases h
  | _ => first | rfl | cases h

theorem KillInv.step (h : KillInv s) (ht : Threads s) (hs : Step s a s') (hspare : SparesTested s a) :
    KillInv s' := by
  cases hs.kind with
  | go hr hn => exact h.go ht hr hn hspare
  | @call p r k hpc hr hk hinit =>
    refine ⟨fun q hq => ?_, fun q hq => ?_⟩
    · rw [goto_pc] at hq
      split at hq
      · rw [not_tested_of_isEntry hk] at hq
        cases hq
      · exact h.tested q hq
    · obtain ⟨hst, k', hk', htests⟩ := hq
      rw [goto_pc] at hk'
      split at hk'
      · next hq =>
        rw [hq, show (s.goto p k).proc p = s.proc p from rfl, hr] at hst
        cases hst
      · exact h.sleeps q ⟨hst, k', hk', htests⟩
  | quiet hq => exact h.of_awake hq.pc hq.awake

theorem KillInv.initial : KillInv .initial where
  tested q hq := by
    simp only [State.initial] at hq
    split at hq <;> cases hq
  sleeps q hq := by
    obtain ⟨-, k, hk, -⟩ := hq
    simp only [State.initial] at hk
    split at hk <;> cases hk

/-- **Kills are not lost.** In every run in which no `kill` hits a process between its test of `p->killed`
and `sleep`, no process that was killed sleeps in `wait`, `piperead`, `pipewrite`, `consoleread` or
`sys_sleep`. -/
theorem kill_not_lost {as : List Act} (hspare : machine.AllSteps SparesTested .initial as)
    (hrun : machine.run .initial as = some s) (q : Slot) :
    ¬ ((s.proc q).killed = true ∧ Sleeps s q) := by
  have hstep : ∀ s a s', Threads s ∧ KillInv s → SparesTested s a → machine.step s a = some s' →
      Threads s' ∧ KillInv s' := by
    rintro s a s' ⟨ht, hk⟩ ha hstep
    have hstep := step_cases hstep
    exact ⟨ht.step hstep, hk.step ht hstep ha⟩
  have h := Machine.run_invariant hstep ⟨Threads.initial, KillInv.initial⟩ hspare hrun
  rintro ⟨hkilled, hsleeps⟩
  rw [h.2.sleeps q hsleeps] at hkilled
  cases hkilled

/-- `init` forks process 1, which sleeps in `piperead`, and kills it. -/
def killedRun : List Act := List.flatten
  [[.schedule 0, .call 0 (.forkScan 0)], steps 0 4, [.schedule 1, .call 1 (.readAcquire 1)], steps 1 3,
    [.call 0 (.kill 2 0)], steps 0 2]

theorem kill_not_lost_small :
    ∃ s, machine.run .initial killedRun = some s ∧ (s.proc 1).killed = true ∧ ¬ Sleeps s 1 := by
  have hrun : ∃ s ∈ machine.run .initial killedRun, (s.proc 1).killed = true := by decide +kernel
  obtain ⟨s, hs, hkilled⟩ := hrun
  have hs := Option.mem_def.mp hs
  have hlost := kill_not_lost (by decide +kernel) hs 1
  exact ⟨s, hs, hkilled, fun hsleeps => hlost ⟨hkilled, hsleeps⟩⟩

/-- The same with the `kill` between the test of `p->killed` and `sleep`. -/
def lostKillRun : List Act := List.flatten
  [[.schedule 0, .call 0 (.forkScan 0)], steps 0 4, [.schedule 1, .call 1 (.readAcquire 1)], steps 1 2,
    [.call 0 (.kill 2 0)], steps 0 2, steps 1 1]

/-- Process 1 was killed and sleeps. -/
theorem kill_lost_before_sleep :
    ∃ s, machine.run .initial lostKillRun = some s ∧ (s.proc 1).killed = true ∧ Sleeps s 1 := by
  have hrun : ∃ s ∈ machine.run .initial lostKillRun, (s.proc 1).killed = true ∧
      (s.proc 1).state = .sleeping ∧ s.pc 1 = .asleep (.readAcquire 1) := by decide +kernel
  obtain ⟨s, hs, hkilled, hst, hpc⟩ := hrun
  exact ⟨s, Option.mem_def.mp hs, hkilled, hst, _, hpc, rfl⟩

end Xv6.Sync
