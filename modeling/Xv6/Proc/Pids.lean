import Xv6.Proc.Table

/-!
# Pids and names in the process table

The invariant of the process table that the lookups by pid rest on: processes in use have distinct
positive pids, free slots have pid 0, and every name is terminated. A child under construction is
`USED` and belongs to one `fork`, so nothing but that `fork` frees it or makes it runnable.
-/

namespace Xv6.ProcTable

open Xv6.Lib

/-- The slot is not free. -/
def Proc.InUse (p : Proc) : Prop := p.state ≠ .unused

instance (p : Proc) : Decidable p.InUse := inferInstanceAs (Decidable (p.state ≠ .unused))

/-- The invariant of the process table. -/
structure Inv (s : State) : Prop where
  nextpid : 1 ≤ s.nextpid ∧ s.nextpid < 2 ^ 31
  unused : ∀ i, ¬ (s.proc i).InUse → (s.proc i).pid = 0 ∧ (s.proc i).name.head? = some 0
  pid : ∀ i, (s.proc i).InUse → 0 < (s.proc i).pid ∧ (s.proc i).pid < s.nextpid
  inj : ∀ i j, (s.proc i).InUse → (s.proc j).InUse → (s.proc i).pid = (s.proc j).pid → i = j
  name : ∀ i, (s.proc i).name.length = NAMESIZE ∧ 0 ∈ (s.proc i).name
  child : ∀ p np, (s.pc p).child = some np → (s.proc np).state = .used
  childInj : ∀ p q np, (s.pc p).child = some np → (s.pc q).child = some np → p = q

theorem Inv.initial : Inv .initial where
  nextpid := by decide
  unused i _ := ⟨rfl, rfl⟩
  pid i h := absurd rfl h
  inj i j h := absurd rfl h
  name i := ⟨rfl, by simp [State.initial, NAMESIZE]⟩
  child p np h := by simp [State.initial, Pc.child] at h
  childInj p q np h := by simp [State.initial, Pc.child] at h

variable {s s' : State}

/-! ## Steps that move processes -/

section

variable (h : Inv s)

include h

theorem Inv.move (hnext : s'.nextpid = s.nextpid)
    (hproc : ∀ i, (s'.proc i).pid = (s.proc i).pid ∧ ((s'.proc i).InUse ↔ (s.proc i).InUse))
    (hhead : ∀ i, ¬ (s.proc i).InUse → (s'.proc i).name.head? = some 0)
    (hname : ∀ i, (s'.proc i).name.length = NAMESIZE ∧ 0 ∈ (s'.proc i).name)
    (hchild : ∀ p np, (s'.pc p).child = some np →
      (s.pc p).child = some np ∧ (s'.proc np).state = .used) : Inv s' where
  nextpid := by rw [hnext]; exact h.nextpid
  unused i hi := by
    rw [(hproc i).2] at hi
    exact ⟨by rw [(hproc i).1]; exact (h.unused i hi).1, hhead i hi⟩
  pid i hi := by
    rw [(hproc i).1, hnext]
    exact h.pid i ((hproc i).2.mp hi)
  inj i j hi hj hij := by
    rw [(hproc i).1, (hproc j).1] at hij
    exact h.inj i j ((hproc i).2.mp hi) ((hproc j).2.mp hj) hij
  name := hname
  child p np hp := (hchild p np hp).2
  childInj p q np hp hq := h.childInj p q np (hchild p np hp).1 (hchild q np hq).1

variable {i : Slot}

theorem Inv.setProc {c : Proc} (hi : (s.proc i).InUse) (hpid : c.pid = (s.proc i).pid)
    (huse : c.InUse) (hname : c.name.length = NAMESIZE ∧ 0 ∈ c.name)
    (hused : (∃ p, (s.pc p).child = some i) → c.state = .used) : Inv (s.setProc i c) := by
  refine h.move rfl ?_ ?_ ?_ ?_
  · intro j
    rcases eq_or_ne j i with rfl | hj
    · simp [State.setProc, hpid, huse, hi]
    · simp [State.setProc, hj]
  · intro j hj
    rcases eq_or_ne j i with rfl | hji
    · exact absurd hi hj
    · simpa [State.setProc, hji] using (h.unused j hj).2
  · intro j
    rcases eq_or_ne j i with rfl | hji
    · simpa [State.setProc] using hname
    · simpa [State.setProc, hji] using h.name j
  · intro p np hp
    refine ⟨hp, ?_⟩
    rcases eq_or_ne np i with rfl | hni
    · simpa [State.setProc] using hused ⟨p, hp⟩
    · simpa [State.setProc, hni] using h.child p np hp

theorem Inv.not_child (hi : (s.proc i).state ≠ .used) : ¬ ∃ p, (s.pc p).child = some i := by
  rintro ⟨p, hp⟩
  exact hi (h.child p i hp)

variable {p : Slot}

theorem Inv.goto {c : Pc} (hc : ∀ np, c.child = some np →
    (s.pc p).child = some np) : Inv (s.goto p c) := by
  refine h.move rfl (fun _ => ⟨rfl, Iff.rfl⟩) (fun i hi => (h.unused i hi).2) h.name ?_
  intro q np hq
  have hold : (s.pc q).child = some np := by
    by_cases hqp : q = p
    · subst hqp
      exact hc np (by simpa [State.goto] using hq)
    · simpa [State.goto, hqp] using hq
  exact ⟨hold, h.child q np hold⟩

theorem Inv.wakeup (c : Chan) : Inv (s.wakeup c) := by
  have hproc : ∀ i, (s.wakeup c).proc i = s.proc i ∨ (s.proc i).state = .sleeping ∧
      (s.wakeup c).proc i = { s.proc i with state := .runnable } := fun i => by
    by_cases hi : (s.proc i).state = .sleeping ∧ (s.proc i).chan = some c
    · exact Or.inr ⟨hi.1, by simp [State.wakeup, hi]⟩
    · exact Or.inl (by simp [State.wakeup, hi])
  refine h.move rfl ?_ ?_ ?_ ?_
  · intro i
    rcases hproc i with hi | ⟨hs, hi⟩ <;> simp [hi, Proc.InUse]
    simp [hs]
  · intro i hi
    rcases hproc i with hi' | ⟨hs, -⟩
    · rw [hi']; exact (h.unused i hi).2
    · simp [Proc.InUse, hs] at hi
  · intro i
    rcases hproc i with hi | ⟨-, hi⟩ <;> simpa [hi] using h.name i
  · intro p np hp
    have hused := h.child p np hp
    refine ⟨hp, ?_⟩
    rcases hproc np with hi | ⟨hs, -⟩
    · rw [hi]; exact hused
    · rw [hused] at hs; cases hs

theorem Inv.wakeupAll (cs : List Slot) : Inv (s.wakeupAll cs) := by
  induction cs generalizing s with
  | nil => exact h
  | cons c cs ih => exact ih (h.wakeup (.proc c))

end

theorem proc_wakeupAll (cs : List Slot) (hi : (s.proc i).state = .running) :
    (s.wakeupAll cs).proc i = s.proc i ∧ (s.wakeupAll cs).pc = s.pc := by
  induction cs generalizing s with
  | nil => exact ⟨rfl, rfl⟩
  | cons c cs ih =>
    have hw : (s.wakeup (.proc c)).proc i = s.proc i := by simp [State.wakeup, hi]
    have := ih (s := s.wakeup (.proc c)) (by rw [hw]; exact hi)
    rw [hw] at this
    exact this

theorem Inv.reparent (h : Inv s) (p : Slot) : Inv (s.reparent p) := by
  have hproc : ∀ i, ∃ q, (s.reparent p).proc i = { s.proc i with parent := q } := fun i => by
    by_cases hi : (s.proc i).parent = some p
    · exact ⟨s.initproc, by simp [State.reparent, hi]⟩
    · exact ⟨(s.proc i).parent, by simp [State.reparent, hi]⟩
  refine h.move rfl ?_ ?_ ?_ ?_
  · intro i
    obtain ⟨q, hq⟩ := hproc i
    simp [hq, Proc.InUse]
  · intro i hi
    obtain ⟨q, hq⟩ := hproc i
    simpa [hq] using (h.unused i hi).2
  · intro i
    obtain ⟨q, hq⟩ := hproc i
    simpa [hq] using h.name i
  · intro r np hr
    obtain ⟨q, hq⟩ := hproc np
    exact ⟨hr, by simpa [hq] using h.child r np hr⟩

theorem Inv.exit (h : Inv s) (hp : (s.proc p).state = .running) (status : ℤ) :
    Inv (s.exit p status) := by
  have hstate : ((s.reparent p).proc p).state = .running := by
    simp only [State.reparent]
    split <;> exact hp
  unfold State.exit
  have hkeep := fun cs => proc_wakeupAll cs hstate
  have hinv := fun cs => (h.reparent p).wakeupAll cs
  refine (hinv _).setProc ?_ rfl (by simp [Proc.InUse]) ((hinv _).name p) fun hc => ?_
  · rw [(hkeep _).1]; simp [Proc.InUse, hstate]
  · exact absurd hc ((hinv _).not_child (by rw [(hkeep _).1, hstate]; simp))

theorem mem_of_find {f : Proc → Bool} (h : s.find f = some i) : f (s.proc i) = true := by
  have := List.find?_some h
  simpa using this

theorem Inv.kill (h : Inv s) (pid : ℤ) : Inv (s.kill pid) := by
  unfold State.kill
  split
  · exact h
  · next i hi =>
    by_cases huse : (s.proc i).InUse
    · refine h.setProc huse rfl ?_ (h.name i) fun ⟨p, hp⟩ => ?_
      · by_cases hs : (s.proc i).state = .sleeping <;> simp_all [Proc.InUse]
      · simp [h.child p i hp]
    -- an unknown pid 0 finds a free slot; its `killed` flag changes nothing here
    · have hs : (s.proc i).state = .unused := by simpa [Proc.InUse] using huse
      refine h.move rfl ?_ ?_ ?_ ?_
      all_goals intro j
      · rcases eq_or_ne j i with rfl | hj <;> simp [State.setProc, Proc.InUse, *]
      · intro hj
        have := (h.unused j hj).2
        rcases eq_or_ne j i with rfl | hji <;> simp [State.setProc, *]
      · have := h.name j
        rcases eq_or_ne j i with rfl | hji <;> simp [State.setProc, *]
      · intro np hnp
        have := h.child j np hnp
        refine ⟨hnp, ?_⟩
        rcases eq_or_ne np i with rfl | hni
        · rw [hs] at this; cases this
        · simpa [State.setProc, hni] using this

/-! ## Taking and freeing a slot -/

theorem allocproc_spec (h : s.allocproc = some (i, s')) :
    (s.proc i).state = .unused ∧ s.nextpid < 2 ^ 31 - 1 ∧ s'.nextpid = s.nextpid + 1 ∧
      s'.proc i = { s.proc i with pid := s.nextpid, state := .used } ∧
      (∀ j, j ≠ i → s'.proc j = s.proc j) ∧ s'.pc = s.pc ∧ s'.initproc = s.initproc := by
  unfold State.allocproc at h
  split at h
  · cases h
  · next j hj =>
    have hun := mem_of_find hj
    split at h
    · next hlt =>
      obtain ⟨rfl, rfl⟩ : j = i ∧ _ = s' := by simpa using h
      refine ⟨by simpa using hun, hlt, rfl, by simp [State.setProc], fun k hk => ?_, rfl, rfl⟩
      simp [State.setProc, hk]
    · cases h

theorem Inv.allocproc (h : Inv s) (ha : s.allocproc = some (i, s')) :
    Inv s' ∧ (s'.proc i).state = .used ∧ s'.pc = s.pc ∧ ¬ ∃ p, (s.pc p).child = some i := by
  obtain ⟨hun, hlt, hnext, hi, hoff, hpc, -⟩ := allocproc_spec ha
  have hnot := h.not_child (i := i) (by rw [hun]; simp)
  obtain ⟨hpos, -⟩ := h.nextpid
  refine ⟨?_, by rw [hi], hpc, hnot⟩
  constructor
  case nextpid => omega
  case unused =>
    intro j hj
    rcases eq_or_ne j i with rfl | hji
    · simp [hi, Proc.InUse] at hj
    · rw [hoff j hji] at hj ⊢
      exact h.unused j hj
  case pid =>
    intro j hj
    rcases eq_or_ne j i with rfl | hji
    · rw [hi, hnext]
      simp only
      omega
    · rw [hoff j hji] at hj ⊢
      have := h.pid j hj
      omega
  case inj =>
    intro j k hj hk hjk
    -- the new pid is above all others
    rcases eq_or_ne j i with rfl | hji <;> rcases eq_or_ne k j with rfl | hkj
    · rfl
    · rw [hoff k hkj] at hk hjk
      have := (h.pid k hk).2
      rw [hi] at hjk
      simp only at hjk
      omega
    · rfl
    · rw [hoff j hji] at hj hjk
      rcases eq_or_ne k i with rfl | hki
      · have := (h.pid j hj).2
        rw [hi] at hjk
        simp only at hjk
        omega
      · rw [hoff k hki] at hk hjk
        exact h.inj j k hj hk hjk
  case name =>
    intro j
    rcases eq_or_ne j i with rfl | hji
    · rw [hi]; exact h.name j
    · rw [hoff j hji]; exact h.name j
  case child =>
    intro p np hp
    rw [hpc] at hp
    have hni : np ≠ i := by
      rintro rfl
      exact hnot ⟨p, hp⟩
    rw [hoff np hni]
    exact h.child p np hp
  case childInj => rw [hpc]; exact h.childInj

theorem Inv.freeproc (h : Inv s) (hnot : ¬ ∃ p, (s.pc p).child = some i) :
    Inv (s.setProc i (s.proc i).freeproc) := by
  have huse : ∀ j, Proc.InUse ((s.setProc i (s.proc i).freeproc).proc j) → j ≠ i := by
    rintro j hj rfl
    exact hj (by simp [State.setProc, Proc.freeproc])
  have hproc : ∀ j, j ≠ i → (s.setProc i (s.proc i).freeproc).proc j = s.proc j := fun j hj => by
    simp [State.setProc, hj]
  have hnamei := h.name i
  constructor
  case nextpid => exact h.nextpid
  case unused =>
    intro j hj
    rcases eq_or_ne j i with rfl | hji
    · have : (s.proc j).name ≠ [] := fun h0 => by simp [h0, NAMESIZE] at hnamei
      obtain ⟨c, cs, hc⟩ := List.exists_cons_of_ne_nil this
      simp [State.setProc, Proc.freeproc, hc]
    · rw [hproc j hji] at hj ⊢
      exact h.unused j hj
  case pid =>
    intro j hj
    have hji := huse j hj
    rw [hproc j hji] at hj ⊢
    exact h.pid j hj
  case inj =>
    intro j k hj hk hjk
    have hji := huse j hj
    have hki := huse k hk
    rw [hproc j hji] at hj hjk
    rw [hproc k hki] at hk hjk
    exact h.inj j k hj hk hjk
  case name =>
    intro j
    rcases eq_or_ne j i with rfl | hji
    · refine ⟨by simpa [State.setProc, Proc.freeproc] using hnamei.1, ?_⟩
      have : 0 < (s.proc j).name.length := by rw [hnamei.1]; decide
      simpa [State.setProc, Proc.freeproc] using List.mem_set this 0
    · rw [hproc j hji]; exact h.name j
  case child =>
    intro p np hp
    have hni : np ≠ i := by
      rintro rfl
      exact hnot ⟨p, hp⟩
    rw [hproc np hni]
    exact h.child p np hp
  case childInj => exact h.childInj

/-! ## Every step -/

theorem Inv.userinit (h : Inv s) (hs : s.userinit = some s') : Inv s' := by
  unfold State.userinit at hs
  split at hs
  · cases hs
  · next i t ht =>
    obtain ⟨hinv, hused, hpc, hnot⟩ := h.allocproc ht
    cases hs
    have hname := hinv.name i
    have hinit : 0 ∈ safestrcpy (t.proc i).name (literal "initcode") NAMESIZE :=
      zero_mem_safestrcpy (by decide) (by rw [hname.1]) _
    have := hinv.setProc (i := i) (c := { t.proc i with
        name := safestrcpy (t.proc i).name (literal "initcode") NAMESIZE, state := .runnable })
      (by simp [Proc.InUse, hused]) rfl (by simp [Proc.InUse])
      ⟨by rw [length_safestrcpy]; exact hname.1, hinit⟩ fun hc => absurd (hpc ▸ hc) hnot
    exact ⟨this.nextpid, this.unused, this.pid, this.inj, this.name, this.child, this.childInj⟩

theorem Inv.step (h : Inv s) {a : Act} (hs : step s a = some s') : Inv s' := by
  have hrun : ∀ {p}, (s.proc p).state = .running → (s.proc p).InUse ∧
      ¬ ∃ q, (s.pc q).child = some p := fun hp =>
    ⟨by simp [Proc.InUse, hp], h.not_child (by rw [hp]; simp)⟩
  have hname : ∀ i t, (safestrcpy (s.proc i).name t NAMESIZE).length = NAMESIZE ∧
      0 ∈ safestrcpy (s.proc i).name t NAMESIZE := fun i t =>
    ⟨by rw [length_safestrcpy]; exact (h.name i).1,
      zero_mem_safestrcpy (by decide) (by rw [(h.name i).1]) t⟩
  cases a with
  | userinit =>
    obtain ⟨-, hs⟩ : s.initproc = none ∧ s.userinit = some s' := by simpa [ProcTable.step] using hs
    exact h.userinit hs
  | forkAlloc p =>
    simp only [ProcTable.step] at hs
    split at hs
    · obtain ⟨⟨i, t⟩, ht, rfl⟩ := Option.map_eq_some_iff.mp hs
      obtain ⟨hinv, hused, hpc, hnot⟩ := h.allocproc ht
      constructor
      case nextpid => exact hinv.nextpid
      case unused => exact hinv.unused
      case pid => exact hinv.pid
      case inj => exact hinv.inj
      case name => exact hinv.name
      case child =>
        intro q np hq
        by_cases hqp : q = p
        · obtain rfl : i = np := by simpa [State.goto, hqp, Pc.child] using hq
          exact hused
        · exact hinv.child q np (by simpa [State.goto, hqp] using hq)
      case childInj =>
        intro q r np hq hr
        simp only [State.goto, hpc] at hq hr
        by_cases hqp : q = p <;> by_cases hrp : r = p
        · rw [hqp, hrp]
        · obtain rfl : i = np := by simpa [hqp, Pc.child] using hq
          exact absurd ⟨r, by simpa [hrp] using hr⟩ hnot
        · obtain rfl : i = np := by simpa [hrp, Pc.child] using hr
          exact absurd ⟨q, by simpa [hqp] using hq⟩ hnot
        · exact h.childInj q r np (by simpa [hqp] using hq) (by simpa [hrp] using hr)
    · cases hs
  | forkFail p =>
    simp only [ProcTable.step] at hs
    split at hs
    · next np hp =>
      cases hs
      refine (h.goto (p := p) (c := .run) (by simp [Pc.child])).freeproc ?_
      rintro ⟨q, hq⟩
      by_cases hqp : q = p
      · simp [State.goto, hqp, Pc.child] at hq
      · exact hqp (h.childInj q p np (by simpa [State.goto, hqp] using hq) (by simp [hp, Pc.child]))
    · cases hs
  | forkCopy p =>
    simp only [ProcTable.step] at hs
    split at hs
    · next np hp =>
      cases hs
      have hused := h.child p np (by simp [hp, Pc.child])
      refine (h.goto (p := p) (c := .copied np) (by simp [hp, Pc.child])).setProc ?_ rfl ?_
        (hname np _) fun _ => hused
      · simp [State.goto, Proc.InUse, hused]
      · simp [Proc.InUse, hused]
    · cases hs
  | forkParent p =>
    simp only [ProcTable.step] at hs
    split at hs
    · next np hp =>
      cases hs
      have hused := h.child p np (by simp [hp, Pc.child])
      refine (h.goto (p := p) (c := .parented np) (by simp [hp, Pc.child])).setProc ?_ rfl ?_
        (h.name np) fun _ => hused
      · simp [State.goto, Proc.InUse, hused]
      · simp [Proc.InUse, hused]
    · cases hs
  | forkRunnable p =>
    simp only [ProcTable.step] at hs
    split at hs
    · next np hp =>
      cases hs
      have hused := h.child p np (by simp [hp, Pc.child])
      refine (h.goto (p := p) (c := .run) (by simp [Pc.child])).setProc ?_ rfl ?_ (h.name np) ?_
      · simp [State.goto, Proc.InUse, hused]
      · simp [Proc.InUse]
      · rintro ⟨q, hq⟩
        by_cases hqp : q = p
        · simp [State.goto, hqp, Pc.child] at hq
        · exact absurd (h.childInj q p np (by simpa [State.goto, hqp] using hq)
            (by simp [hp, Pc.child])) hqp
    · cases hs
  | exec p last =>
    obtain ⟨⟨hp, -⟩, rfl⟩ : ((s.proc p).state = .running ∧ _ ∧ _) ∧ _ = s' := by
      simpa [ProcTable.step] using hs
    exact h.setProc (hrun hp).1 rfl (hrun hp).1 (hname p last) fun hc => absurd hc (hrun hp).2
  | schedule p =>
    obtain ⟨hp, rfl⟩ : (s.proc p).state = .runnable ∧ _ = s' := by simpa [ProcTable.step] using hs
    exact h.setProc (by simp [Proc.InUse, hp]) rfl (by simp [Proc.InUse]) (h.name p)
      fun hc => absurd hc (h.not_child (by rw [hp]; simp))
  | yield p | sleep p chan =>
    obtain ⟨hp, rfl⟩ : (s.proc p).state = .running ∧ _ = s' := by simpa [ProcTable.step] using hs
    exact h.setProc (hrun hp).1 rfl (by simp [Proc.InUse]) (h.name p) fun hc => absurd hc (hrun hp).2
  | wakeup chan =>
    obtain rfl : s.wakeup chan = s' := by simpa [ProcTable.step] using hs
    exact h.wakeup chan
  | kill pid =>
    obtain rfl : s.kill pid = s' := by simpa [ProcTable.step] using hs
    exact h.kill pid
  | exit p status =>
    obtain ⟨⟨hp, -⟩, rfl⟩ : ((s.proc p).state = .running ∧ _ ∧ _) ∧ s.exit p status = s' := by
      simpa [ProcTable.step] using hs
    exact h.exit hp status
  | wait p =>
    simp only [ProcTable.step] at hs
    split at hs
    · obtain ⟨i, hi, rfl⟩ := Option.map_eq_some_iff.mp hs
      have hz : (s.proc i).state = .zombie := by
        have := mem_of_find hi
        simp only [Bool.and_eq_true, beq_iff_eq] at this
        exact this.2
      exact h.freeproc (h.not_child (by rw [hz]; simp))
    · cases hs

theorem inv_of_reachable (h : machine.Reachable s) : Inv s :=
  h.invariant Inv (by rintro _ rfl; exact .initial) fun _ _ _ hi hs => hi.step hs

end Xv6.ProcTable
