import Xv6.Proc.Query

/-!
# Whom `kill` hits

`kill` takes the first slot with the given pid and does not look at its state. The pids of processes in use
are positive and distinct, so for every other pid than 0 this is the process meant. Free slots have pid 0:
`kill(0)` marks the first of them as killed and returns 0, and the mark is still there when `allocproc`
hands the slot to a new process.
-/

namespace Xv6.ProcTable

open Xv6.Lib Function

/-- A process that `kill` has found. -/
def Proc.hit (p : Proc) : Proc :=
  { p with killed := true, state := if p.state = .sleeping then .runnable else p.state }

/-- What `kill(pid)` returns. -/
def State.killResult (s : State) (pid : ℤ) : ℤ :=
  match s.find fun p => p.pid == pid with
  | none => -1
  | some _ => 0

/-- `kill(pid)` affects the process in use with this pid only, and returns 0 if there is one. -/
def Targets (s : State) (pid : ℤ) : Prop :=
  (s.killResult pid = 0 ↔ ∃ i, (s.proc i).InUse ∧ (s.proc i).pid = pid) ∧
  s.kill pid = { s with proc := fun i =>
    if (s.proc i).InUse ∧ (s.proc i).pid = pid then (s.proc i).hit else s.proc i }

/-- The pid is not that of a free slot. -/
def Named (s : State) (pid : ℤ) : Prop := pid ≠ 0 ∨ ∀ i, (s.proc i).InUse

instance (s : State) (pid : ℤ) : Decidable (Named s pid) :=
  inferInstanceAs (Decidable (pid ≠ 0 ∨ ∀ i, (s.proc i).InUse))

/-- The step is no `kill`, or one whose pid is not that of a free slot. -/
def NamedKill (s : State) : Act → Prop
  | .kill pid => Named s pid
  | _ => True

variable {s s' : State} {pid : ℤ} {i : Slot}

theorem Inv.kill_inUse (h : Inv s) (hi : (s.proc i).InUse) :
    s.killResult (s.proc i).pid = 0 ∧ s.kill (s.proc i).pid = s.setProc i (s.proc i).hit := by
  have hfind := h.find_pid hi
  constructor
  · rw [State.killResult, hfind]
  · rw [State.kill, hfind]
    rfl

theorem kill_unknown (h : ∀ i, (s.proc i).pid ≠ pid) : s.killResult pid = -1 ∧ s.kill pid = s := by
  have hfind := find_pid_none h
  constructor
  · rw [State.killResult, hfind]
  · rw [State.kill, hfind]

theorem Inv.inUse_of_named (h : Inv s) (hpid : Named s pid) (hi : (s.proc i).pid = pid) :
    (s.proc i).InUse := by
  by_contra hfree
  rcases hpid with hne | hall
  · exact hne (hi.symm.trans (h.unused i hfree).1)
  · exact hfree (hall i)

theorem Inv.targets (h : Inv s) (hpid : Named s pid) : Targets s pid := by
  by_cases hex : ∃ i, (s.proc i).pid = pid
  · obtain ⟨i, rfl⟩ := hex
    have hi := h.inUse_of_named hpid rfl
    obtain ⟨hres, hkill⟩ := h.kill_inUse hi
    refine ⟨iff_of_true hres ⟨i, hi, rfl⟩, ?_⟩
    have hproc : update s.proc i (s.proc i).hit = fun j =>
        if (s.proc j).InUse ∧ (s.proc j).pid = (s.proc i).pid then (s.proc j).hit else s.proc j := by
      funext j
      by_cases hj : j = i
      · subst hj
        rw [update_self, if_pos ⟨hi, rfl⟩]
      · rw [update_of_ne hj, if_neg fun hp => hj (h.inj j i hp.1 hi hp.2)]
    rw [hkill, ← hproc]
    rfl
  · have hno : ∀ i, (s.proc i).pid ≠ pid := fun i hi => hex ⟨i, hi⟩
    obtain ⟨hres, hkill⟩ := kill_unknown hno
    refine ⟨iff_of_false ?_ ?_, ?_⟩
    · rw [hres]
      decide
    · rintro ⟨i, -, hi⟩
      exact hno i hi
    · rw [hkill]
      have hproc : s.proc = fun j =>
          if (s.proc j).InUse ∧ (s.proc j).pid = pid then (s.proc j).hit else s.proc j := by
        funext j
        rw [if_neg fun hp => hno j hp.2]
      rw [← hproc]

theorem Inv.not_targets (h : Inv s) (hi : ¬ (s.proc i).InUse) : ¬ Targets s 0 := by
  intro ht
  have hfree : ∀ j, (s.proc j).pid = 0 → ¬ (s.proc j).InUse := by
    intro j hj hu
    have hpos := (h.pid j hu).1
    omega
  obtain ⟨j, hfind, -⟩ := find_pid_free hfree (h.unused i hi).1
  have hres : s.killResult 0 = 0 := by
    rw [State.killResult, hfind]
  obtain ⟨k, hk, hpid⟩ := ht.1.mp hres
  exact hfree k hpid hk

/-! ## Free slots are not marked -/

/-- No free slot is marked as killed. -/
def Clean (s : State) : Prop := ∀ i, ¬ (s.proc i).InUse → (s.proc i).killed = false

variable {p : Proc}

section

variable (h : Clean s)

include h

theorem Clean.setProc (hp : ¬ p.InUse → p.killed = false) : Clean (s.setProc i p) := by
  intro j hj
  by_cases hji : j = i
  · subst hji
    simp only [State.setProc, update_self] at hj ⊢
    exact hp hj
  · simp only [State.setProc, update_of_ne hji] at hj ⊢
    exact h j hj

theorem Clean.setInUse (hp : p.InUse) : Clean (s.setProc i p) :=
  h.setProc fun hfree => absurd hp hfree

theorem Clean.wakeup (c : Chan) : Clean (s.wakeup c) := by
  intro i hi
  by_cases hc : (s.proc i).state = .sleeping ∧ (s.proc i).chan = some c
  · rw [State.wakeup] at hi
    dsimp only at hi
    rw [if_pos hc] at hi
    exact absurd (by simp [Proc.InUse]) hi
  · rw [State.wakeup] at hi ⊢
    dsimp only at hi ⊢
    rw [if_neg hc] at hi ⊢
    exact h i hi

theorem Clean.wakeupAll (cs : List Slot) : Clean (s.wakeupAll cs) := by
  induction cs generalizing s with
  | nil => exact h
  | cons c cs ih => exact ih (h.wakeup (.proc c))

theorem Clean.reparent (p : Slot) : Clean (s.reparent p) := by
  intro i hi
  rw [State.reparent] at hi ⊢
  dsimp only at hi ⊢
  by_cases hp : (s.proc i).parent = some p
  · rw [if_pos hp] at hi ⊢
    exact h i hi
  · rw [if_neg hp] at hi ⊢
    exact h i hi

theorem Clean.allocproc (ha : s.allocproc = some (i, s')) : Clean s' ∧ (s'.proc i).killed = false := by
  obtain ⟨hun, -, -, hi, hoff, -, -⟩ := allocproc_spec ha
  have hkilled : (s'.proc i).killed = false := by
    rw [hi]
    exact h i fun hu => hu hun
  refine ⟨fun j hj => ?_, hkilled⟩
  by_cases hji : j = i
  · rw [hji]
    exact hkilled
  · rw [hoff j hji] at hj ⊢
    exact h j hj

theorem Clean.userinit (hs : s.userinit = some s') : Clean s' := by
  unfold State.userinit at hs
  split at hs
  · cases hs
  · next i t ht =>
    cases hs
    exact Clean.setInUse (h.allocproc ht).1 nofun

theorem Clean.kill (ht : Targets s pid) : Clean (s.kill pid) := by
  rw [ht.2]
  intro i hi
  dsimp only at hi ⊢
  by_cases hp : (s.proc i).InUse ∧ (s.proc i).pid = pid
  · rw [if_pos hp] at hi
    refine absurd ?_ hi
    change (if (s.proc i).state = .sleeping then ProcState.runnable else (s.proc i).state) ≠ .unused
    by_cases hs : (s.proc i).state = .sleeping
    · rw [if_pos hs]
      exact nofun
    · rw [if_neg hs]
      exact hp.1
  · rw [if_neg hp] at hi ⊢
    exact h i hi

theorem Clean.step (hinv : Inv s) {a : Act} (ha : NamedKill s a)
    (hs : step s a = some s') : Clean s' := by
  have hrun : ∀ {p}, (s.proc p).state = .running → (s.proc p).InUse := fun hp hu => by
    rw [hp] at hu
    cases hu
  have hchild : ∀ {p np}, (s.pc p).child = some np → (s.proc np).InUse := fun hp hu => by
    rw [hinv.child _ _ hp] at hu
    cases hu
  cases a with
  | userinit =>
    obtain ⟨-, hs⟩ : s.initproc = none ∧ s.userinit = some s' := by simpa [ProcTable.step] using hs
    exact h.userinit hs
  | forkAlloc p =>
    simp only [ProcTable.step] at hs
    split at hs
    · obtain ⟨⟨i, t⟩, ht, rfl⟩ := Option.map_eq_some_iff.mp hs
      exact (h.allocproc ht).1
    · cases hs
  | forkFail p =>
    simp only [ProcTable.step] at hs
    split at hs
    · cases hs
      exact h.setProc fun _ => rfl
    · cases hs
  | forkCopy p | forkParent p =>
    simp only [ProcTable.step] at hs
    split at hs
    · next np hp =>
      cases hs
      exact h.setInUse (hchild (by rw [hp]; rfl))
    · cases hs
  | forkRunnable p =>
    simp only [ProcTable.step] at hs
    split at hs
    · cases hs
      exact h.setInUse (by simp [Proc.InUse])
    · cases hs
  | exec p last =>
    obtain ⟨⟨hp, -⟩, rfl⟩ : ((s.proc p).state = .running ∧ _ ∧ _) ∧ _ = s' := by
      simpa [ProcTable.step] using hs
    exact h.setInUse (hrun hp)
  | schedule p =>
    obtain ⟨-, rfl⟩ : (s.proc p).state = .runnable ∧ _ = s' := by simpa [ProcTable.step] using hs
    exact h.setInUse (by simp [Proc.InUse])
  | yield p | sleep p chan =>
    obtain ⟨-, rfl⟩ : (s.proc p).state = .running ∧ _ = s' := by simpa [ProcTable.step] using hs
    exact h.setInUse (by simp [Proc.InUse])
  | wakeup chan =>
    obtain rfl : s.wakeup chan = s' := by simpa [ProcTable.step] using hs
    exact h.wakeup chan
  | kill pid =>
    obtain rfl : s.kill pid = s' := by simpa [ProcTable.step] using hs
    exact h.kill (hinv.targets ha)
  | exit p status =>
    obtain ⟨-, rfl⟩ : ((s.proc p).state = .running ∧ _ ∧ _) ∧ s.exit p status = s' := by
      simpa [ProcTable.step] using hs
    exact Clean.setInUse ((h.reparent p).wakeupAll _) (by simp [Proc.InUse])
  | wait p =>
    simp only [ProcTable.step] at hs
    split at hs
    · obtain ⟨i, -, rfl⟩ := Option.map_eq_some_iff.mp hs
      exact h.setProc fun _ => rfl
    · cases hs

theorem Clean.fork {p np : Slot} (hs : ProcTable.step s (.forkAlloc p) = some s')
    (hp : s'.pc p = .allocated np) : (s'.proc np).killed = false := by
  simp only [ProcTable.step] at hs
  split at hs
  · obtain ⟨⟨i, t⟩, ht, rfl⟩ := Option.map_eq_some_iff.mp hs
    have hkilled := (h.allocproc ht).2
    simp only [State.goto, update_self] at hp
    obtain rfl := Pc.allocated.inj hp
    exact hkilled
  · cases hs

end

/-! ## The two halves of the property -/

/-- After boot `kill(0)` returns 0 though no process has pid 0, and the child that `fork` makes next is
marked as killed from the start. -/
theorem kill_zero_marks_child :
    machine.Reachable booted ∧ booted.killResult 0 = 0 ∧
    (∀ i, (booted.proc i).InUse → (booted.proc i).pid ≠ 0) ∧ ¬ Targets booted 0 ∧
    ∃ s ∈ machine.run .initial [.userinit, .schedule 0, .kill 0],
      ∃ s' ∈ step s (.forkAlloc 0), ∃ np, s'.pc 0 = .allocated np ∧ (s'.proc np).killed = true := by
  have hreach : machine.Reachable booted := Machine.Reachable.of_run (.init rfl) [.userinit] rfl
  refine ⟨hreach, by decide +kernel, by decide +kernel, ?_, ?_⟩
  · exact (inv_of_reachable hreach).not_targets (i := 1) (by decide +kernel)
  · refine ⟨_, rfl, _, rfl, 1, rfl, rfl⟩

/-- **Whom `kill` hits.** In every reachable process table `kill(pid)` affects exactly the process in use
with this pid, and returns 0 exactly if there is one, unless the pid is 0 and a slot is free. In every run
without such a `kill` the processes that `fork` makes are not marked as killed when they are made. -/
theorem kill_targets_iff (pid : ℤ) :
    (∀ s, machine.Reachable s → (Targets s pid ↔ Named s pid)) ∧
    ∀ as s, machine.AllSteps NamedKill .initial as → machine.run .initial as = some s →
      ∀ p np s', step s (.forkAlloc p) = some s' → s'.pc p = .allocated np →
        (s'.proc np).killed = false := by
  refine ⟨fun s hs => ⟨fun ht => ?_, (inv_of_reachable hs).targets⟩,
    fun as s has hrun p np s' hstep hp => ?_⟩
  · by_contra hnamed
    obtain ⟨rfl, hfree⟩ : pid = 0 ∧ ∃ i, ¬ (s.proc i).InUse := by
      simpa [Named] using hnamed
    obtain ⟨i, hi⟩ := hfree
    exact (inv_of_reachable hs).not_targets hi ht
  · have hclean : Inv s ∧ Clean s := by
      have hstart : Inv .initial ∧ Clean .initial := ⟨Inv.initial, fun _ _ => rfl⟩
      refine Machine.run_invariant (fun s a s' (hs : Inv s ∧ Clean s) ha hstep => ?_) hstart has
        hrun
      exact ⟨hs.1.step hstep, hs.2.step hs.1 ha hstep⟩
    exact hclean.2.fork hstep hp

/-- `init` is killed by its pid, then forks. -/
theorem kill_targets_iff_init :
    (machine.Reachable booted ∧ Targets booted 1) ∧
    ∃ s ∈ machine.run .initial [.userinit, .schedule 0, .kill 1],
      ∃ s' ∈ step s (.forkAlloc 0), s'.pc 0 = .allocated 1 ∧ (s'.proc 1).killed = false := by
  have hreach : machine.Reachable booted := Machine.Reachable.of_run (.init rfl) [.userinit] rfl
  have hne : (1 : ℤ) ≠ 0 := by decide
  have has : machine.AllSteps NamedKill .initial [.userinit, .schedule 0, .kill 1] :=
    ⟨trivial, fun _ _ => ⟨trivial, fun _ _ => ⟨.inl hne, fun _ _ => trivial⟩⟩⟩
  refine ⟨⟨hreach, ((kill_targets_iff 1).1 booted hreach).mpr (.inl hne)⟩, _, rfl, _, rfl, rfl, ?_⟩
  exact (kill_targets_iff 1).2 _ _ has rfl 0 1 _ rfl rfl

end Xv6.ProcTable
