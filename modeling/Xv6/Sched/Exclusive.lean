import Xv6.Sched.Switch

/-!
# A process runs on one CPU

The invariant of the scheduler. A CPU *claims* a process from the moment it makes it RUNNING until it
has switched back to its `scheduler`. Two CPUs never claim the same process; a claimed process is
RUNNING, except on the way from `sched` back to `scheduler`, when the CPU holds its lock. A process that
nobody executes has a complete context.
-/

namespace Xv6.Sched

open Lib Option

variable {C : Type} {own : Option Slot} {p : Slot} {k : Pc C}

/-! ## Program points -/

namespace Pc

/-- Program points at which the CPU is not about to switch. -/
def ordinary : Pc C → Bool
  | schedProc _ | schedBack _ | sched _ _ | swtch _ _ _ | store _ _ _ | load _ _ | forkSetup _ _ => false
  | _ => true

/-- On the way from a process back to `scheduler`. -/
def parting : Pc C → Bool
  | schedBack _ | sched _ _ | swtch (.proc _) _ _ | store (.proc _) _ _ | load (.proc _) _ => true
  | _ => false

/-- The process that `scheduler` has chosen. -/
def current : Pc C → Option Slot
  | schedBack p | swtch _ (.proc p) _ | store _ (.proc p) _ | load _ (.proc p) => some p
  | _ => none

def isLoad : Pc C → Bool
  | load _ _ => true
  | _ => false

/-- The child of a `fork` in progress. -/
def child : Pc C → Option Slot
  | forkSetup _ np | forkParent _ np | forkRunnable np => some np
  | acquire _ k | release _ k | sched _ k | swtch _ _ k | store _ _ k | yield _ k | sleep _ _ k
  | tidy _ k | wakeup _ _ k | wake _ _ k => k.child
  | _ => none

/-- The program points outside `swtch` of a process, or of `scheduler` if `own = none`: locals that
hold `myproc()` have the right value, and locks are acquired and released in pairs. -/
def Ok (own : Option Slot) : Pc C → Prop
  | boot | scan _ | schedTest _ | schedProc _ | schedBack _ => own = none
  | acquire p k => k.holds = some p ∧ k.ordinary = true ∧ k.Ok own
  | release _ k => k.holds = none ∧ k.Ok own
  | sched p k => own = some p ∧ k.holds = some p ∧ k.ordinary = true ∧ k.Ok own
  | swtch _ _ _ | store _ _ _ | load _ _ => False
  | run | kill _ _ | killTest _ _ | forkRunnable _ => own ≠ none
  | forkret p | setkilled p | forkScan p _ | forkTest p _ | forkSetup p _ | forkParent p _
  | exitReparent p _ _ | exitZombie p _ | zombieExit p | waitScan p _ _ | waitTest p _
  | waitKilled p => own = some p
  | yield p k | sleep p _ k | tidy p k => own = some p ∧ k.holds = none ∧ k.Ok own
  | wakeup _ _ k | wake _ _ k => k.holds = none ∧ k.Ok own

/-- Where a process can go on after `swtch`. -/
def Resumes (p : Slot) (k : Pc C) : Prop :=
  k.holds = some p ∧ k.ordinary = true ∧ k.Ok (some p)

theorem not_parting_of_ordinary (h : k.ordinary = true) : k.parting = false := by
  cases k <;> first | rfl | cases h

theorem not_load_of_ordinary (h : k.ordinary = true) : k.isLoad = false := by
  cases k <;> first | rfl | cases h

theorem current_of_ordinary (h : k.ordinary = true) : k.current = none := by
  cases k <;> first | rfl | cases h

theorem child_of_ok_none (h : k.Ok none) : k.child = none := by
  induction k with
  | acquire p k ih | yield p k ih | sleep p chan k ih | tidy p k ih => exact ih h.2.2
  | release p k ih => exact ih h.2
  | sched p k ih => exact ih h.2.2.2
  | wakeup chan j k ih => exact ih h.2
  | wake chan i k ih => exact ih h.2
  | swtch old new k => exact h.elim
  | store old new k => exact h.elim
  | forkSetup p np => cases h
  | forkParent p np => cases h
  | forkRunnable np => exact absurd rfl h
  | _ => rfl

end Pc

/-! ## The invariant -/

/-- CPU `c` is in the middle of `swtch`, away from process `p`. -/
inductive Away (c : C) (p : Slot) : Pc C → Prop where
  | swtch {k : Pc C} (hk : k.Resumes p) : Away c p (.swtch (.proc p) (.cpu c) k)
  | store {k : Pc C} (hk : k.Resumes p) : Away c p (.store (.proc p) (.cpu c) k)
  | load : Away c p (.load (.proc p) (.cpu c))

/-- CPU `c` is in the middle of `swtch`, to process `p`. -/
inductive Toward (s : State C) (c : C) (p : Slot) : Pc C → Prop where
  | swtch : Toward s c p (.swtch (.cpu c) (.proc p) (.schedBack p))
  | store : Toward s c p (.store (.cpu c) (.proc p) (.schedBack p))
  | load (h : s.context (.cpu c) = some ⟨.schedBack p, .cpu c⟩) :
      Toward s c p (.load (.cpu c) (.proc p))

/-- A CPU executes the process `c->proc` on its stack, or `scheduler` on its own. -/
inductive On (s : State C) (c : C) : Prop where
  | proc (p : Slot) (hsp : s.sp c = .proc p) (hcur : s.cur c = some p)
      (hctx : s.context (.cpu c) = some ⟨.schedBack p, .cpu c⟩)
      (hpc : (s.pc c).Ok (some p) ∨ Away c p (s.pc c)) : On s c
  | cpu (hsp : s.sp c = .cpu c) (hcur : s.cur c = (s.pc c).current)
      (hpc : (s.pc c).Ok none ∨ ∃ p, Toward s c p (s.pc c)) : On s c

/-- CPU `c` has chosen process `p`. -/
def Claims (s : State C) (c : C) (p : Slot) : Prop := s.cur c = some p ∨ s.pc c = .schedProc p

/-- CPU `c` executes the thread of process `p`, whose context is not saved. -/
def Live (s : State C) (c : C) (p : Slot) : Prop := s.sp c = .proc p ∧ (s.pc c).isLoad = false

/-- The context of `p` is complete. -/
def Saved (s : State C) (p : Slot) : Prop :=
  ∃ k, s.context (.proc p) = some ⟨k, .proc p⟩ ∧ k.Resumes p

/-- The states of a process that has a thread to go on with. -/
def active : ProcState → Bool
  | .runnable | .sleeping | .running => true
  | _ => false

/-- The state of a claimed process. -/
def Fits (parting : Bool) (x : ProcState) : Prop :=
  if parting then x = .runnable ∨ x = .sleeping ∨ x = .zombie else x = .running

/-- The thread of process `p` is at `k`: on a CPU, or in its context. -/
def At (s : State C) (p : Slot) (k : Pc C) : Prop :=
  (∃ c, Live s c p ∧ s.pc c = k) ∨
    (∀ c, ¬ Live s c p) ∧ active (s.proc p).state = true ∧ s.context (.proc p) = some ⟨k, .proc p⟩

/-- Process `p` is in `fork` and has allocated `np`. -/
def Forks (s : State C) (p np : Slot) : Prop := ∃ k, At s p k ∧ k.child = some np

/-- A child that is not RUNNABLE yet. -/
def Newborn (s : State C) (np : Slot) : Prop :=
  (s.proc np).state = .used ∧
    ((∃ c p, s.pc c = .forkSetup p np) ∨ s.context (.proc np) = some ⟨.forkret np, .proc np⟩)

/-- The invariant. -/
structure Inv (s : State C) : Prop where
  lock : ∀ c p, s.lock p = some c ↔ (s.pc c).holds = some p
  on : ∀ c, On s c
  state : ∀ c p, Claims s c p → Fits (s.pc c).parting (s.proc p).state
  claimed : ∀ p, (s.proc p).state = .running → ∃ c, Claims s c p
  unique : ∀ c d p, Claims s c p → Claims s d p → c = d
  saved : ∀ p, active (s.proc p).state = true → (∀ c, ¬ Live s c p) → Saved s p
  newborn : ∀ p np, Forks s p np → Newborn s np
  forker : ∀ p q np, Forks s p np → Forks s q np → p = q

variable {s s' : State C} {c d : C} {np : Slot}

namespace Inv

variable (h : Inv s)

include h

theorem cur_of_sp (hsp : s.sp c = .proc p) : s.cur c = some p := by
  cases h.on c with
  | proc q hsp' hcur =>
    rw [hsp] at hsp'
    rw [hcur, Stack.proc.inj hsp']
  | cpu hsp' =>
    rw [hsp] at hsp'
    cases hsp'

theorem claims_of_live (hl : Live s c p) : Claims s c p := .inl (h.cur_of_sp hl.1)

theorem holds_of_parting (hc : Claims s c p) (hp : (s.pc c).parting = true) :
    (s.pc c).holds = some p := by
  have hcur : s.cur c = some p := by
    refine hc.resolve_right fun hpc => ?_
    rw [hpc] at hp
    cases hp
  cases h.on c with
  | proc q hsp hcur' hctx hpc =>
    obtain rfl : p = q := some.inj (hcur.symm.trans hcur')
    generalize s.pc c = k at hp hpc
    rcases hpc with hok | haway
    · cases k with
      | sched q k =>
        obtain rfl := some.inj hok.1
        rfl
      | schedBack q => cases hok
      | swtch old new k | store old new k | load old new => exact hok.elim
      | _ => cases hp
    · cases haway <;> rfl
  | cpu hsp hcur' hpc =>
    rw [hcur] at hcur'
    generalize s.pc c = k at hp hpc hcur'
    rcases hpc with hok | ⟨q, htoward⟩
    · cases k with
      | sched q k => cases hok.1
      | schedBack q => exact hcur'.symm
      | swtch old new k | store old new k | load old new => exact hok.elim
      | _ => cases hp
    · cases htoward <;> cases hp

theorem lock_of_pc (hpc : s.pc c = k) (hk : k.holds = some p) : s.lock p = some c :=
  (h.lock c p).mpr (by rw [hpc, hk])

theorem eq_of_claims (hlock : s.lock p = some c) (hr : (s.proc p).state ≠ .running)
    (hd : Claims s d p) : d = c ∧ (s.pc d).parting = true := by
  have hp : (s.pc d).parting = true := by
    by_contra hp
    have hfits := h.state d p hd
    rw [Bool.not_eq_true] at hp
    rw [hp] at hfits
    exact hr hfits
  have hheld := (h.lock d p).mpr (h.holds_of_parting hd hp)
  exact ⟨some.inj (hheld.symm.trans hlock), hp⟩

theorem not_claims (hlock : s.lock p = some c) (hc : (s.pc c).parting = false)
    (hr : (s.proc p).state ≠ .running) : ¬ Claims s d p := by
  intro hd
  obtain ⟨rfl, hp⟩ := h.eq_of_claims hlock hr hd
  rw [hc] at hp
  cases hp

theorem frame (hother : ∀ d, d ≠ c → s'.pc d = s.pc d ∧ s'.sp d = s.sp d ∧ s'.cur d = s.cur d ∧
      s'.context (.cpu d) = s.context (.cpu d))
    (hlock : ∀ d p, s'.lock p = some d ↔ (s'.pc d).holds = some p) (hon : On s' c)
    (hmine : ∀ p, Claims s' c p →
      Fits (s'.pc c).parting (s'.proc p).state ∧ ∀ d, d ≠ c → ¬ Claims s d p)
    (hstate : ∀ p, (s'.proc p).state = (s.proc p).state ∨ ∀ d, d ≠ c → ¬ Claims s d p)
    (hrunning : ∀ p, (s'.proc p).state = .running → Claims s' c p ∨ ∃ d, d ≠ c ∧ Claims s d p)
    (hsaved : ∀ p, active (s'.proc p).state = true → (∀ d, ¬ Live s' d p) → Saved s' p)
    (hnewborn : ∀ p np, Forks s' p np → Newborn s' np)
    (hforker : ∀ p q np, Forks s' p np → Forks s' q np → p = q) : Inv s' := by
  have hclaims : ∀ d p, d ≠ c → (Claims s' d p ↔ Claims s d p) := by
    intro d p hd
    obtain ⟨hpc, -, hcur, -⟩ := hother d hd
    rw [Claims, Claims, hpc, hcur]
  refine ⟨hlock, fun d => ?_, fun d p hd => ?_, fun p hp => ?_, fun d e p hd he => ?_, hsaved,
    hnewborn, hforker⟩
  · by_cases hdc : d = c
    · rw [hdc]
      exact hon
    · obtain ⟨hpc, hsp, hcur, hctx⟩ := hother d hdc
      cases h.on d with
      | proc p hsp' hcur' hctx' hpc' =>
        exact .proc p (hsp.trans hsp') (hcur.trans hcur') (hctx.trans hctx') (by rwa [hpc])
      | cpu hsp' hcur' hpc' =>
        refine .cpu (hsp.trans hsp') (by rw [hcur, hpc, hcur']) ?_
        rw [hpc]
        refine hpc'.imp_right ?_
        rintro ⟨p, htoward⟩
        refine ⟨p, ?_⟩
        generalize s.pc d = k at htoward
        cases htoward with
        | swtch => exact .swtch
        | store => exact .store
        | load hload => exact .load (hctx.trans hload)
  · by_cases hdc : d = c
    · subst hdc
      exact (hmine p hd).1
    · have hd := (hclaims d p hdc).mp hd
      rw [(hother d hdc).1, (hstate p).resolve_right fun hno => hno d hdc hd]
      exact h.state d p hd
  · rcases hrunning p hp with hc | ⟨d, hdc, hd⟩
    · exact ⟨c, hc⟩
    · exact ⟨d, (hclaims d p hdc).mpr hd⟩
  · by_cases hdc : d = c
    · by_cases hec : e = c
      · rw [hdc, hec]
      · rw [hdc] at hd
        exact absurd ((hclaims e p hec).mp he) ((hmine p hd).2 e hec)
    · by_cases hec : e = c
      · rw [hec] at he
        exact absurd ((hclaims d p hdc).mp hd) ((hmine p he).2 d hdc)
      · exact h.unique d e p ((hclaims d p hdc).mp hd) ((hclaims e p hec).mp he)

theorem claims_alone (hc : Claims s c p) (d : C) (hd : d ≠ c) : ¬ Claims s d p :=
  fun hd' => hd (h.unique d c p hd' hc)

end Inv

theorem live_of_pc (hsp : s'.sp = s.sp) (hload : (s'.pc c).isLoad = (s.pc c).isLoad)
    (hpc : ∀ d, d ≠ c → s'.pc d = s.pc d) (d : C) (q : Slot) : Live s' d q ↔ Live s d q := by
  rw [Live, Live, hsp]
  by_cases hd : d = c
  · rw [hd, hload]
  · rw [hpc d hd]

/-- The threads of `s'` are those of `s`, and no `fork` has begun. -/
def SameForks (s s' : State C) : Prop :=
  ∀ p k, At s' p k → k.child = none ∨ ∃ k₀, At s p k₀ ∧ k.child = k₀.child

theorem SameForks.forks (h : SameForks s s') (hf : Forks s' p np) : Forks s p np := by
  obtain ⟨k, hk, hchild⟩ := hf
  rcases h p k hk with hnone | ⟨k₀, hk0, heq⟩
  · rw [hnone] at hchild
    cases hchild
  · exact ⟨k₀, hk0, heq.symm.trans hchild⟩

theorem sameForks_of_live (hlive : ∀ d p, Live s' d p → Live s d p)
    (hlive' : ∀ d p, Live s d p → Live s' d p)
    (hpc : ∀ d p, Live s d p → (s'.pc d).child = none ∨ (s'.pc d).child = (s.pc d).child)
    (hctx : ∀ p, (∀ d, ¬ Live s d p) → active (s'.proc p).state = true →
      s'.context (.proc p) = some ⟨.forkret p, .proc p⟩ ∨
        active (s.proc p).state = true ∧ s'.context (.proc p) = s.context (.proc p)) :
    SameForks s s' := by
  rintro p k (⟨d, hd, rfl⟩ | ⟨hno, hactive, hk⟩)
  · have hd := hlive d p hd
    exact (hpc d p hd).imp_right fun heq => ⟨s.pc d, .inl ⟨d, hd, rfl⟩, heq⟩
  · have hno : ∀ d, ¬ Live s d p := fun d hd => hno d (hlive' d p hd)
    rcases hctx p hno hactive with hnew | ⟨hactive, heq⟩
    · obtain ⟨rfl, -⟩ := Context.mk.inj (some.inj (hk.symm.trans hnew))
      exact .inl rfl
    · exact .inr ⟨k, .inr ⟨hno, hactive, by rwa [← heq]⟩, rfl⟩

/-! ## Steps that do not switch -/

/-- How the holder of a lock outside `sched` changes the state of process `i`, going from `k` to
`k'`. -/
inductive Turn (k k' : Pc C) (i : Slot) : ProcState → ProcState → Prop where
  /-- in `wakeup` and `kill` -/
  | wake : Turn k k' i .sleeping .runnable
  /-- in `wait` -/
  | free : Turn k k' i .zombie .unused
  /-- at the end of `fork` -/
  | start (h : k.child = some i) (h' : k'.child = none) : Turn k k' i .used .runnable

/-- A step of CPU `c` between ordinary program points. -/
structure Moves (s s' : State C) (c : C) : Prop where
  sp : s'.sp = s.sp
  cur : s'.cur = s.cur
  context : s'.context = s.context
  pc : ∀ d, d ≠ c → s'.pc d = s.pc d
  ordinary : (s.pc c).ordinary = true
  ordinary' : (s'.pc c).ordinary = true
  ok : (s.pc c).Ok (s.cur c) → (s'.pc c).Ok (s.cur c)
  lock : ∀ d p, s'.lock p = some d ↔ (s'.pc d).holds = some p
  child : (s'.pc c).child = none ∨ (s'.pc c).child = (s.pc c).child
  state : ∀ i, (s'.proc i).state = (s.proc i).state ∨
    s.lock i = some c ∧ Turn (s.pc c) (s'.pc c) i (s.proc i).state (s'.proc i).state

namespace Inv

variable (h : Inv s)

include h

theorem ok_cur (hk : (s.pc c).ordinary = true) : (s.pc c).Ok (s.cur c) := by
  cases h.on c with
  | proc p hsp hcur hctx hpc =>
    rw [hcur]
    refine hpc.resolve_right fun haway => ?_
    generalize s.pc c = k at hk haway
    cases haway <;> cases hk
  | cpu hsp hcur hpc =>
    rw [hcur, Pc.current_of_ordinary hk]
    refine hpc.resolve_right ?_
    rintro ⟨p, htoward⟩
    generalize s.pc c = k at hk htoward
    cases htoward <;> cases hk

theorem ok_at (hpc : s.pc c = k) (hk : k.ordinary = true) : k.Ok (s.cur c) := by
  subst hpc
  exact h.ok_cur hk

theorem forks_of_child (hk : (s.pc c).Ok (s.cur c)) (hchild : (s.pc c).child = some np) :
    ∃ p, Live s c p ∧ Forks s p np := by
  cases h.on c with
  | proc p hsp hcur hctx hpc =>
    have hload : (s.pc c).isLoad = false := by
      generalize s.pc c = k at hk
      cases k <;> first | rfl | exact hk.elim
    exact ⟨p, ⟨hsp, hload⟩, s.pc c, .inl ⟨c, ⟨hsp, hload⟩, rfl⟩, hchild⟩
  | cpu hsp hcur hpc =>
    rcases hpc with hok | ⟨p, htoward⟩
    · rw [Pc.child_of_ok_none hok] at hchild
      cases hchild
    · generalize s.pc c = k at hchild htoward
      cases htoward <;> cases hchild

theorem move (hm : Moves s s' c) : Inv s' := by
  have hparting := Pc.not_parting_of_ordinary hm.ordinary
  have hparting' := Pc.not_parting_of_ordinary hm.ordinary'
  have hload := Pc.not_load_of_ordinary hm.ordinary
  have hload' := Pc.not_load_of_ordinary hm.ordinary'
  have hok := hm.ok (h.ok_cur hm.ordinary)
  have hlive := live_of_pc hm.sp (hload'.trans hload.symm) hm.pc
  have hmine : ∀ p, Claims s' c p → Claims s c p := by
    rintro p (hcur | hpc)
    · rw [hm.cur] at hcur
      exact .inl hcur
    · have := hm.ordinary'
      rw [hpc] at this
      cases this
  have hturn : ∀ i, (s'.proc i).state = (s.proc i).state ∨
      (s.proc i).state ≠ .running ∧ (s'.proc i).state ≠ .running ∧ ∀ d, ¬ Claims s d i := by
    intro i
    refine (hm.state i).imp_right ?_
    rintro ⟨hlock, hturn⟩
    have hx : (s.proc i).state ≠ .running ∧ (s'.proc i).state ≠ .running := by
      generalize (s.proc i).state = x at hturn
      generalize (s'.proc i).state = y at hturn
      cases hturn <;> exact ⟨nofun, nofun⟩
    exact ⟨hx.1, hx.2, fun d => h.not_claims hlock hparting hx.1⟩
  -- the child of a `fork` that ends here was ready
  have hstart : ∀ i, (s.pc c).child = some i →
      (s.proc i).state = .used ∧ s.context (.proc i) = some ⟨.forkret i, .proc i⟩ ∨
        s.lock i ≠ some c := by
    intro i hi
    by_contra hcon
    rw [not_or, not_not] at hcon
    obtain ⟨p, -, hf⟩ := h.forks_of_child (h.ok_cur hm.ordinary) hi
    obtain ⟨hused, ⟨d, q, hd⟩ | hctx⟩ := h.newborn p i hf
    · have hheld := (h.lock d i).mpr (by rw [hd]; rfl)
      obtain rfl : d = c := some.inj (hheld.symm.trans hcon.2)
      have := hm.ordinary
      rw [hd] at this
      cases this
    · exact hcon.1 ⟨hused, hctx⟩
  have hsame : SameForks s s' := by
    refine sameForks_of_live (fun d p => (hlive d p).mp) (fun d p => (hlive d p).mpr)
      (fun d p _ => ?_) fun p _ hactive => ?_
    · by_cases hd : d = c
      · rw [hd]
        exact hm.child
      · exact .inr (by rw [hm.pc d hd])
    · rw [hm.context]
      rcases hm.state p with heq | ⟨hlock, hturn⟩
      · exact .inr ⟨by rwa [← heq], rfl⟩
      · generalize hx : (s.proc p).state = x at hturn
        generalize hy : (s'.proc p).state = y at hturn hactive
        cases hturn with
        | wake => exact .inr ⟨rfl, rfl⟩
        | free => cases hactive
        | start hc hc' => exact .inl ((hstart p hc).resolve_right fun hne => hne hlock).2
  refine h.frame (c := c) (fun d hd => ⟨hm.pc d hd, by rw [hm.sp], by rw [hm.cur], by rw [hm.context]⟩)
    hm.lock ?_ (fun p hc => ⟨?_, h.claims_alone (hmine p hc)⟩)
    (fun p => (hturn p).imp_right fun hp d _ => hp.2.2 d) (fun p hp => ?_) (fun p hactive hno => ?_)
    (fun p np hf => ?_) fun p q np hp hq => h.forker p q np (hsame.forks hp) (hsame.forks hq)
  · cases h.on c with
    | proc p hsp hcur hctx hpc =>
      rw [hcur] at hok
      exact .proc p (by rw [hm.sp, hsp]) (by rw [hm.cur, hcur]) (by rw [hm.context, hctx]) (.inl hok)
    | cpu hsp hcur hpc =>
      rw [Pc.current_of_ordinary hm.ordinary] at hcur
      rw [hcur] at hok
      exact .cpu (by rw [hm.sp, hsp]) (by rw [hm.cur, hcur, Pc.current_of_ordinary hm.ordinary'])
        (.inl hok)
  · have hfits := h.state c p (hmine p hc)
    rw [hparting] at hfits
    rw [hparting', (hturn p).resolve_right fun hp => hp.1 hfits]
    exact hfits
  · have heq := (hturn p).resolve_right fun hp' => hp'.2.1 hp
    rw [heq] at hp
    obtain ⟨d, hd⟩ := h.claimed p hp
    by_cases hdc : d = c
    · left
      have hfrom := hm.ordinary
      rw [hdc] at hd
      refine .inl ?_
      rw [hm.cur]
      refine hd.resolve_right fun hpc => ?_
      rw [hpc] at hfrom
      cases hfrom
    · exact .inr ⟨d, hdc, hd⟩
  · have hno : ∀ d, ¬ Live s d p := fun d hd => hno d ((hlive d p).mpr hd)
    have hsaved : active (s.proc p).state = true → Saved s' p := by
      intro ha
      obtain ⟨k, hk, hresumes⟩ := h.saved p ha hno
      exact ⟨k, by rw [hm.context, hk], hresumes⟩
    rcases hm.state p with heq | ⟨hlock, hturn⟩
    · rw [heq] at hactive
      exact hsaved hactive
    · generalize hx : (s.proc p).state = x at hturn
      generalize hy : (s'.proc p).state = y at hturn hactive
      cases hturn with
      | wake => exact hsaved (by rw [hx]; rfl)
      | free => cases hactive
      | start hc hc' =>
        have hctx := ((hstart p hc).resolve_right fun hne => hne hlock).2
        exact ⟨.forkret p, by rw [hm.context, hctx], rfl, rfl, rfl⟩
  · have hf0 := hsame.forks hf
    obtain ⟨hused, hready⟩ := h.newborn p np hf0
    refine ⟨?_, hready.imp ?_ ?_⟩
    · rcases hm.state np with heq | ⟨hlock, hturn⟩
      · rw [heq, hused]
      · rw [hused] at hturn
        generalize (s'.proc np).state = y at hturn
        cases hturn with
        | start hc hc' =>
          -- the only process that has this child is the one that just finished its `fork`
          obtain ⟨q, hlq, hfq⟩ := h.forks_of_child (h.ok_cur hm.ordinary) hc
          obtain rfl := h.forker q p np hfq hf0
          obtain ⟨k, hk, hchild⟩ := hf
          rcases hk with ⟨d, hd, rfl⟩ | ⟨hno, -⟩
          · have hd := (hlive d q).mp hd
            obtain rfl := h.unique d c q (h.claims_of_live hd) (h.claims_of_live hlq)
            rw [hc'] at hchild
            cases hchild
          · exact absurd ((hlive c q).mpr hlq) (hno c)
    · rintro ⟨d, q, hd⟩
      have hdc : d ≠ c := by
        rintro rfl
        have := hm.ordinary
        rw [hd] at this
        cases this
      exact ⟨d, q, by rw [hm.pc d hdc, hd]⟩
    · intro hctx
      rw [hm.context, hctx]

end Inv

/-! ## Switching -/

variable {i : Slot} {x : Proc}

theorem setProc_self : (s.setProc i x).proc i = x := if_pos rfl

theorem setProc_ne {j : Slot} (h : j ≠ i) : (s.setProc i x).proc j = s.proc j :=
  if_neg h

section

variable [DecidableEq C]

theorem goto_self : (s.goto c k).pc c = k := if_pos rfl

theorem goto_ne (h : d ≠ c) : (s.goto c k).pc d = s.pc d := if_neg h

variable {v : Option (Context C)} {x : Stack C}

theorem setContext_self : (s.setContext x v).context x = v := if_pos rfl

theorem setContext_ne {y : Stack C} (h : y ≠ x) : (s.setContext x v).context y = s.context y := if_neg h

end

/-- CPU `c` goes from `k` to `k'` and keeps the locks. -/
structure Goes (s s' : State C) (c : C) (k k' : Pc C) : Prop where
  src : s.pc c = k
  dst : s'.pc c = k'
  pc : ∀ d, d ≠ c → s'.pc d = s.pc d
  lock : s'.lock = s.lock

namespace Goes

variable {k' : Pc C} (hg : Goes s s' c k k')

include hg

theorem live (hsp : s'.sp = s.sp) (hload : k'.isLoad = k.isLoad) : ∀ d q, Live s' d q ↔ Live s d q :=
  live_of_pc hsp (by rw [hg.dst, hg.src, hload]) hg.pc

theorem live_of_cpu (hsp : s'.sp = s.sp) (hspc : s.sp c = .cpu c) (d : C) (q : Slot) :
    Live s' d q ↔ Live s d q := by
  rw [Live, Live, hsp]
  by_cases hd : d = c
  · rw [hd, hspc]
    constructor <;> rintro ⟨heq, -⟩ <;> cases heq
  · rw [hg.pc d hd]

theorem claims (hcur : s'.cur c = s.cur c) (hk : ∀ q, k ≠ .schedProc q) (hk' : ∀ q, k' ≠ .schedProc q)
    (q : Slot) : Claims s' c q ↔ Claims s c q := by
  rw [Claims, Claims, hcur, hg.src, hg.dst]
  exact ⟨fun hq => .inl (hq.resolve_right (hk' q)), fun hq => .inl (hq.resolve_right (hk q))⟩

theorem sameForks (hlive : ∀ d q, Live s' d q ↔ Live s d q)
    (hchild : k'.child = none ∨ k'.child = k.child)
    (hkeep : ∀ q, (∀ d, ¬ Live s d q) → active (s'.proc q).state = true →
      active (s.proc q).state = true ∧ s'.context (.proc q) = s.context (.proc q)) :
    SameForks s s' := by
  refine sameForks_of_live (fun d q => (hlive d q).mp) (fun d q => (hlive d q).mpr) (fun d q _ => ?_)
    fun q hno hq => .inr (hkeep q hno hq)
  by_cases hd : d = c
  · rw [hd, hg.src, hg.dst]
    exact hchild
  · exact .inr (by rw [hg.pc d hd])

end Goes

section

variable [DecidableEq C] {k' : Pc C}

theorem Goes.goto {t : State C} (hpc : s.pc c = k) (hs' : s' = t.goto c k') (ht : t.pc = s.pc)
    (hlock : t.lock = s.lock) : Goes s s' c k k' := by
  subst hs'
  exact ⟨hpc, goto_self, fun d hd => (goto_ne hd).trans (by rw [ht]), hlock⟩

theorem Goes.resume {v : Context C} (hpc : s.pc c = k) (hs' : s' = s.resume c v) :
    Goes s s' c k v.ra := by
  subst hs'
  exact ⟨hpc, if_pos rfl, fun _ hd => if_neg hd, rfl⟩

end

/-- The step changes the entry of process `i` only. -/
structure SetsProc (s s' : State C) (c : C) (k k' : Pc C) (i : Slot) (x : Proc) : Prop
    extends Goes s s' c k k' where
  sp : s'.sp = s.sp
  cur : s'.cur = s.cur
  context : s'.context = s.context
  self : s'.proc i = x
  proc : ∀ j, j ≠ i → s'.proc j = s.proc j

/-- The step changes the context `x` only. -/
structure SetsContext (s s' : State C) (c : C) (k k' : Pc C) (x : Stack C) (v : Option (Context C)) :
    Prop extends Goes s s' c k k' where
  sp : s'.sp = s.sp
  cur : s'.cur = s.cur
  proc : s'.proc = s.proc
  self : s'.context x = v
  context : ∀ y, y ≠ x → s'.context y = s.context y

section

variable {k' : Pc C}

theorem SetsProc.goto [DecidableEq C] {n : ℤ} (hpc : s.pc c = k)
    (hs' : s' = { s.setProc i x with nextpid := n }.goto c k') : SetsProc s s' c k k' i x := by
  have hg := Goes.goto hpc hs' rfl rfl
  subst hs'
  exact ⟨hg, rfl, rfl, rfl, setProc_self, fun j hj => setProc_ne hj⟩

theorem SetsContext.goto [DecidableEq C] {x : Stack C} {v : Option (Context C)} (hpc : s.pc c = k)
    (hs' : s' = (s.setContext x v).goto c k') : SetsContext s s' c k k' x v := by
  have hg := Goes.goto hpc hs' rfl rfl
  subst hs'
  exact ⟨hg, rfl, rfl, rfl, setContext_self, fun y hy => setContext_ne hy⟩

theorem SetsProc.other (h : SetsProc s s' c k k' i x) (d : C) : s'.sp d = s.sp d ∧ s'.cur d = s.cur d ∧
    s'.context (.cpu d) = s.context (.cpu d) := by
  rw [h.sp, h.cur, h.context]
  exact ⟨rfl, rfl, rfl⟩

theorem SetsProc.state_or (h : SetsProc s s' c k k' i x) (hfree : ∀ d, d ≠ c → ¬ Claims s d i) (q : Slot) :
    (s'.proc q).state = (s.proc q).state ∨ ∀ d, d ≠ c → ¬ Claims s d q := by
  by_cases hq : q = i
  · rw [hq]
    exact .inr hfree
  · rw [h.proc q hq]
    exact .inl rfl

end

/-- A step of `swtch` or around it: processes and locks are as before, and so are the claims. -/
structure Shifts (s s' : State C) (c : C) (k k' : Pc C) : Prop extends Goes s s' c k k' where
  other : ∀ d, d ≠ c → s'.sp d = s.sp d ∧ s'.cur d = s.cur d ∧
    s'.context (.cpu d) = s.context (.cpu d)
  proc : s'.proc = s.proc
  holds : k'.holds = k.holds
  on : On s' c
  claims : ∀ p, Claims s' c p ↔ Claims s c p
  parting : k'.parting = k.parting
  not_setup : ∀ p np, k ≠ .forkSetup p np

namespace Inv

variable {k' : Pc C} (h : Inv s)

include h

theorem hold (hpc : ∀ d, d ≠ c → s'.pc d = s.pc d) (hlock : s'.lock = s.lock)
    (hholds : (s'.pc c).holds = (s.pc c).holds) (d : C) (p : Slot) :
    s'.lock p = some d ↔ (s'.pc d).holds = some p := by
  rw [hlock, h.lock]
  by_cases hd : d = c
  · rw [hd, hholds]
  · rw [hpc d hd]

theorem saved_of (hactive : active (s.proc p).state = true) (hno : ∀ d, ¬ Live s' d p)
    (hlive : ∀ d, Live s d p → Live s' d p) (hctx : s'.context (.proc p) = s.context (.proc p)) :
    Saved s' p := by
  obtain ⟨k, hk, hresumes⟩ := h.saved p hactive fun d hd => hno d (hlive d hd)
  exact ⟨k, hctx.trans hk, hresumes⟩

theorem newborn_of (hsame : SameForks s s') (hpc : ∀ d, d ≠ c → s'.pc d = s.pc d)
    (hfrom : ∀ p np, s.pc c ≠ .forkSetup p np)
    (hkeep : ∀ np, (s.proc np).state = .used → (s'.proc np).state = .used ∧
      s'.context (.proc np) = s.context (.proc np)) (hf : Forks s' p np) : Newborn s' np := by
  obtain ⟨hused, hready⟩ := h.newborn p np (hsame.forks hf)
  obtain ⟨hused', hctx⟩ := hkeep np hused
  refine ⟨hused', hready.imp ?_ fun hr => hctx.trans hr⟩
  rintro ⟨d, q, hd⟩
  have hdc : d ≠ c := by
    rintro rfl
    exact hfrom q np hd
  exact ⟨d, q, by rw [hpc d hdc, hd]⟩

theorem frame_live (hg : Goes s s' c k k') (hholds : k'.holds = k.holds)
    (hother : ∀ d, d ≠ c → s'.sp d = s.sp d ∧ s'.cur d = s.cur d ∧
      s'.context (.cpu d) = s.context (.cpu d)) (hon : On s' c) (hmine : ∀ p, Claims s' c p →
      Fits (s'.pc c).parting (s'.proc p).state ∧ ∀ d, d ≠ c → ¬ Claims s d p)
    (hstate : ∀ p, (s'.proc p).state = (s.proc p).state ∨ ∀ d, d ≠ c → ¬ Claims s d p)
    (hrunning : ∀ p, (s'.proc p).state = .running → Claims s' c p ∨ ∃ d, d ≠ c ∧ Claims s d p)
    (hlive : ∀ d q, Live s' d q ↔ Live s d q) (hchild : k'.child = none ∨ k'.child = k.child)
    (hkeep : ∀ q, (∀ d, ¬ Live s d q) → active (s'.proc q).state = true →
      active (s.proc q).state = true ∧ s'.context (.proc q) = s.context (.proc q))
    (hnewborn : SameForks s s' → ∀ p np, Forks s' p np → Newborn s' np) : Inv s' := by
  have hsame := hg.sameForks hlive hchild hkeep
  refine h.frame (c := c) (fun d hd => ⟨hg.pc d hd, hother d hd⟩)
    (h.hold hg.pc hg.lock (by rw [hg.src, hg.dst, hholds])) hon hmine hstate hrunning
    (fun q hq hno => ?_) (hnewborn hsame)
    fun p q np hp hq => h.forker p q np (hsame.forks hp) (hsame.forks hq)
  obtain ⟨hactive, hctx⟩ := hkeep q (fun d hd => hno d ((hlive d q).mpr hd)) hq
  exact h.saved_of hactive hno (fun d => (hlive d q).mpr) hctx

theorem claimed_or (hclaims : ∀ p, Claims s' c p ↔ Claims s c p)
    (hp : (s.proc p).state = .running) : Claims s' c p ∨ ∃ d, d ≠ c ∧ Claims s d p := by
  obtain ⟨d, hd⟩ := h.claimed p hp
  by_cases hdc : d = c
  · rw [hdc] at hd
    exact .inl ((hclaims p).mpr hd)
  · exact .inr ⟨d, hdc, hd⟩

theorem not_live_of_used (hused : (s.proc p).state = .used) : ¬ Live s d p := by
  intro hl
  have hfits := h.state d p (h.claims_of_live hl)
  rw [hused] at hfits
  cases hp : (s.pc d).parting with
  | false =>
    rw [hp] at hfits
    cases hfits
  | true =>
    rw [hp] at hfits
    rcases hfits with hfits | hfits | hfits <;> cases hfits

theorem shift (hm : Shifts s s' c k k') (hsame : SameForks s s')
    (hsaved : ∀ p, active (s.proc p).state = true → (∀ d, ¬ Live s' d p) → Saved s' p)
    (hctx : ∀ p, (∀ d, ¬ Live s d p) → (s.proc p).state = .used →
      s'.context (.proc p) = s.context (.proc p)) : Inv s' := by
  refine h.frame (fun d hd => ⟨hm.pc d hd, hm.other d hd⟩)
    (h.hold hm.pc hm.lock (by rw [hm.src, hm.dst, hm.holds])) hm.on (fun p hp => ?_)
    (fun p => .inl (by rw [hm.proc])) (fun p hp => ?_) (fun p hp => hsaved p (by rwa [← hm.proc]))
    (fun p np => h.newborn_of hsame hm.pc (by rw [hm.src]; exact hm.not_setup) fun np hused => ?_)
    fun p q np hp hq => h.forker p q np (hsame.forks hp) (hsame.forks hq)
  · have hp := (hm.claims p).mp hp
    rw [hm.proc, hm.dst, hm.parting, ← hm.src]
    exact ⟨h.state c p hp, h.claims_alone hp⟩
  · rw [hm.proc] at hp
    exact h.claimed_or hm.claims hp
  · rw [hm.proc]
    exact ⟨hused, hctx np (fun d => h.not_live_of_used hused) hused⟩

theorem shift_live (hm : Shifts s s' c k k')
    (hlive : ∀ d p, Live s' d p ↔ Live s d p) (hchild : k'.child = none ∨ k'.child = k.child)
    (hctx : ∀ p, (∀ d, ¬ Live s d p) → s'.context (.proc p) = s.context (.proc p)) : Inv s' := by
  refine h.shift hm (hm.sameForks hlive hchild fun q hno hq => ⟨by rwa [← hm.proc], hctx q hno⟩)
    (fun p hp hno => ?_) fun p hno _ => hctx p hno
  exact h.saved_of hp hno (fun d => (hlive d p).mpr) (hctx p fun d hd => hno d ((hlive d p).mpr hd))

theorem on_cpu (hpc : s.pc c = k) (hok : ∀ q, ¬ k.Ok (some q)) (haway : ∀ q, ¬ Away c q k) :
    s.sp c = .cpu c ∧ s.cur c = k.current := by
  cases h.on c with
  | proc q hsp hcur hctx hpc' =>
    rw [hpc] at hpc'
    exact (hpc'.elim (hok q) (haway q)).elim
  | cpu hsp hcur hpc' => exact ⟨hsp, by rw [hcur, hpc]⟩

variable [DecidableEq C] {y : Proc}

theorem depart (hcur : s.cur c = some p) (hk : (s.pc c).ordinary = true)
    (hholds : (s.pc c).holds = some p) (hk' : k'.Resumes p) (hchild : k'.child = (s.pc c).child)
    (hy : Fits true y.state) : Inv ((s.setProc p y).goto c (.sched p k')) := by
  have hclaims : Claims s c p := .inl hcur
  obtain ⟨s', hs'⟩ : ∃ s', s' = (s.setProc p y).goto c (.sched p k') := ⟨_, rfl⟩
  have hg := SetsProc.goto (n := s.nextpid) (s := s) rfl hs'
  have hload := Pc.not_load_of_ordinary hk
  -- the process still executes on this CPU
  have hrun : (s.proc p).state = .running := by
    have hfits := h.state c p hclaims
    rwa [Pc.not_parting_of_ordinary hk] at hfits
  have hstack : s.sp c = .proc p := by
    cases h.on c with
    | proc q hsp hcur'' =>
      rw [hcur''] at hcur
      rw [hsp, some.inj hcur]
    | cpu hsp hcur'' =>
      rw [hcur'', Pc.current_of_ordinary hk] at hcur
      cases hcur
  have hne : ∀ q, (∀ d, ¬ Live s d q) → q ≠ p := by
    rintro q hno rfl
    exact hno c ⟨hstack, hload⟩
  rw [← hs']
  refine h.frame_live hg.toGoes (by rw [hholds]; rfl) (fun d _ => hg.other d) ?_
    (fun q hq => ?_) (hg.state_or (h.claims_alone hclaims)) (fun q hq => ?_) (hg.live hg.sp hload.symm)
    (.inr hchild) (fun q hno hq => ⟨by rwa [← hg.proc q (hne q hno)], by rw [hg.context]⟩)
    fun hsame q np => h.newborn_of hsame hg.pc ?_ fun np hused => ?_
  · cases h.on c with
    | proc q hsp' hcur'' hctx' hpc' =>
      rw [hstack] at hsp'
      obtain rfl := Stack.proc.inj hsp'
      refine .proc p (by rw [hg.sp, hstack]) (by rw [hg.cur, hcur]) (by rw [hg.context, hctx'])
        (.inl ?_)
      rw [hg.dst]
      exact ⟨rfl, hk'⟩
    | cpu hsp' =>
      rw [hstack] at hsp'
      cases hsp'
  · have hq : s.cur c = some q := by
      rw [Claims, hg.cur, hg.dst] at hq
      exact hq.resolve_right nofun
    obtain rfl : p = q := some.inj (hcur.symm.trans hq)
    rw [hg.self, hg.dst]
    exact ⟨hy, h.claims_alone hclaims⟩
  · have hqp : q ≠ p := by
      rintro rfl
      rw [hg.self] at hq
      rcases hy with hy | hy | hy <;> rw [hy] at hq <;> cases hq
    rw [hg.proc q hqp] at hq
    obtain ⟨d, hd⟩ := h.claimed q hq
    refine .inr ⟨d, ?_, hd⟩
    rintro rfl
    rcases hd with hd | hd
    · exact hqp (some.inj (hd.symm.trans hcur))
    · rw [hd] at hk
      cases hk
  · intro q np hq
    rw [hq] at hk
    cases hk
  · have hnp : np ≠ p := by
      rintro rfl
      rw [hrun] at hused
      cases hused
    rw [hg.proc np hnp, hg.context]
    exact ⟨hused, rfl⟩

theorem enterSwtch (hpc : s.pc c = .sched p k') : Inv (s.goto c (.swtch (.proc p) (.cpu c) k')) := by
  have hg : Goes s (s.goto c (.swtch (.proc p) (.cpu c) k')) c _ _ := .goto hpc rfl rfl rfl
  refine h.shift_live ⟨hg, fun _ _ => ⟨rfl, rfl, rfl⟩, rfl, rfl, ?_, hg.claims rfl nofun nofun, rfl, nofun⟩
    (hg.live rfl rfl) (.inr rfl) fun _ _ => rfl
  cases h.on c with
  | proc q hsp hcur hctx hpc' =>
    rw [hpc] at hpc'
    have hok := hpc'.resolve_right nofun
    obtain rfl := some.inj hok.1
    refine .proc q hsp hcur hctx (.inr ?_)
    rw [hg.dst]
    exact .swtch hok.2
  | cpu hsp hcur hpc' =>
    rw [hpc] at hpc'
    rcases hpc' with hok | ⟨q, htoward⟩
    · cases hok.1
    · cases htoward

variable {new : Stack C}

theorem startStore {old : Stack C} (hpc : s.pc c = .swtch old new k') :
    Inv ((s.setContext old none).goto c (.store old new k')) := by
  obtain ⟨s', hs'⟩ : ∃ s', s' = (s.setContext old none).goto c (.store old new k') := ⟨_, rfl⟩
  have hg := SetsContext.goto hpc hs'
  have hold : (∃ p, old = .proc p ∧ s.sp c = .proc p ∧ On s' c) ∨ old = .cpu c ∧ On s' c := by
    cases h.on c with
    | proc p hsp' hcur' hctx' hpc' =>
      rw [hpc] at hpc'
      cases hpc'.resolve_left id with
      | swtch hk =>
        refine .inl ⟨p, rfl, hsp', .proc p (by rw [hg.sp, hsp']) (by rw [hg.cur, hcur']) ?_ (.inr ?_)⟩
        · rw [hg.context (.cpu c) nofun, hctx']
        · rw [hg.dst]
          exact .store hk
    | cpu hsp' hcur' hpc' =>
      rw [hpc] at hpc' hcur'
      obtain ⟨p, htoward⟩ := hpc'.resolve_left id
      cases htoward with
      | swtch =>
        refine .inr ⟨rfl, .cpu (by rw [hg.sp, hsp']) ?_ (.inr ⟨p, ?_⟩)⟩
        · rw [hg.cur, hcur', hg.dst]
          rfl
        · rw [hg.dst]
          exact .store
  have hother : ∀ d, d ≠ c → s'.context (.cpu d) = s.context (.cpu d) := by
    intro d hd
    refine hg.context _ fun heq => ?_
    rcases hold with ⟨p, rfl, -⟩ | ⟨rfl, -⟩
    · cases heq
    · exact hd (Stack.cpu.inj heq)
  rw [← hs']
  refine h.shift_live ⟨hg.toGoes, fun d hd => ⟨by rw [hg.sp], by rw [hg.cur], hother d hd⟩, hg.proc, ?_, ?_,
    hg.claims (by rw [hg.cur]) nofun nofun, ?_, nofun⟩ (hg.live hg.sp rfl) (.inr rfl) fun q hno => ?_
  · cases old <;> cases new <;> rfl
  · rcases hold with ⟨p, -, -, hon⟩ | ⟨-, hon⟩ <;> exact hon
  · cases old <;> cases new <;> rfl
  · refine hg.context _ fun heq => ?_
    rcases hold with ⟨p, rfl, hsp', -⟩ | ⟨rfl, -⟩
    · obtain rfl := Stack.proc.inj heq
      exact hno c ⟨hsp', by rw [hpc]; rfl⟩
    · cases heq

theorem saveProc (hpc : s.pc c = .store (.proc p) new k') :
    Inv ((s.setContext (.proc p) (some ⟨k', s.sp c⟩)).goto c (.load (.proc p) new)) := by
  obtain ⟨s', hs'⟩ : ∃ s', s' =
    (s.setContext (.proc p) (some ⟨k', s.sp c⟩)).goto c (.load (.proc p) new) := ⟨_, rfl⟩
  have hg := SetsContext.goto hpc hs'
  obtain ⟨hspc, hresumes, hon⟩ : s.sp c = .proc p ∧ k'.Resumes p ∧ On s' c := by
    cases h.on c with
    | proc q hsp' hcur' hctx' hpc' =>
      rw [hpc] at hpc'
      cases hpc'.resolve_left id with
      | store hk =>
        refine ⟨hsp', hk, .proc p (by rw [hg.sp, hsp']) (by rw [hg.cur, hcur']) ?_ (.inr ?_)⟩
        · rw [hg.context (.cpu c) nofun, hctx']
        · rw [hg.dst]
          exact .load
    | cpu hsp' hcur' hpc' =>
      rw [hpc] at hpc'
      obtain ⟨q, htoward⟩ := hpc'.resolve_left id
      cases htoward
  have hsaved : s'.context (.proc p) = some ⟨k', .proc p⟩ := by rw [hg.self, hspc]
  have hpl : Live s c p := ⟨hspc, by rw [hpc]; rfl⟩
  have hnot : ¬ Live s' c p := by
    rintro ⟨-, hload⟩
    rw [hg.dst] at hload
    cases hload
  have hlive : ∀ d q, q ≠ p → (Live s' d q ↔ Live s d q) := by
    intro d q hq
    rw [Live, Live, hg.sp]
    by_cases hd : d = c
    · rw [hd, hspc]
      constructor <;> rintro ⟨heq, -⟩ <;> exact absurd (Stack.proc.inj heq).symm hq
    · rw [hg.pc d hd]
  have hne : ∀ q, q ≠ p → s'.context (.proc q) = s.context (.proc q) :=
    fun q hq => hg.context _ fun heq => hq (Stack.proc.inj heq)
  rw [← hs']
  refine h.shift ⟨hg.toGoes, fun d _ => ⟨by rw [hg.sp], by rw [hg.cur], hg.context (.cpu d) nofun⟩, hg.proc, rfl,
    hon, hg.claims (by rw [hg.cur]) nofun nofun, rfl, nofun⟩ (fun q k ha => ?_) (fun q hactive hno => ?_)
    fun q hno _ => hne q ?_
  · by_cases hq : q = p
    · subst hq
      right
      refine ⟨s.pc c, .inl ⟨c, hpl, rfl⟩, ?_⟩
      rcases ha with ⟨d, hd, rfl⟩ | ⟨-, -, hk⟩
      · have hdc : d ≠ c := by
          rintro rfl
          exact hnot hd
        have hdl : Live s d q := ⟨by rw [← hg.sp]; exact hd.1, by rw [← hg.pc d hdc]; exact hd.2⟩
        exact absurd (h.unique d c q (h.claims_of_live hdl) (h.claims_of_live hpl)) hdc
      · rw [hsaved] at hk
        obtain ⟨rfl, -⟩ := Context.mk.inj (some.inj hk)
        rw [hpc]
        rfl
    · refine .inr ⟨k, ?_, rfl⟩
      rcases ha with ⟨d, hd, rfl⟩ | ⟨hno, hactive, hk⟩
      · have hdc : d ≠ c := by
          rintro rfl
          have := hd.1
          rw [hg.sp, hspc] at this
          exact hq (Stack.proc.inj this).symm
        exact .inl ⟨d, (hlive d q hq).mp hd, (hg.pc d hdc).symm⟩
      · exact .inr ⟨fun d hd => hno d ((hlive d q hq).mpr hd), by rwa [← hg.proc], by rwa [← hne q hq]⟩
  · by_cases hq : q = p
    · subst hq
      exact ⟨k', hsaved, hresumes⟩
    · exact h.saved_of hactive hno (fun d => (hlive d q hq).mpr) (hne q hq)
  · rintro rfl
    exact hno c hpl

theorem saveCpu {d : C} (hpc : s.pc c = .store (.cpu d) new k') :
    Inv ((s.setContext (.cpu d) (some ⟨k', s.sp c⟩)).goto c (.load (.cpu d) new)) := by
  obtain ⟨s', hs'⟩ : ∃ s', s' =
    (s.setContext (.cpu d) (some ⟨k', s.sp c⟩)).goto c (.load (.cpu d) new) := ⟨_, rfl⟩
  have hg := SetsContext.goto hpc hs'
  obtain ⟨hdc, hspc, p, hnew, hon⟩ : d = c ∧ s.sp c = .cpu c ∧ ∃ p, new = .proc p ∧ On s' c := by
    cases h.on c with
    | proc q hsp' hcur' hctx' hpc' =>
      rw [hpc] at hpc'
      cases hpc'.resolve_left id
    | cpu hsp' hcur' hpc' =>
      rw [hpc] at hpc' hcur'
      obtain ⟨q, htoward⟩ := hpc'.resolve_left id
      cases htoward with
      | store =>
        refine ⟨rfl, hsp', q, rfl, .cpu (by rw [hg.sp, hsp']) ?_ (.inr ⟨q, ?_⟩)⟩
        · rw [hg.cur, hcur', hg.dst]
          rfl
        · rw [hg.dst]
          exact .load (by rw [hg.self, hsp'])
  subst hdc hnew
  rw [← hs']
  exact h.shift_live ⟨hg.toGoes,
    fun e he => ⟨by rw [hg.sp], by rw [hg.cur], hg.context _ fun heq => he (Stack.cpu.inj heq)⟩,
    hg.proc, rfl, hon, hg.claims (by rw [hg.cur]) nofun nofun, rfl, nofun⟩
    (hg.live_of_cpu hg.sp hspc) (.inl rfl) fun q _ => hg.context _ nofun

variable {v : Context C}

theorem loadCpu (hpc : s.pc c = .load (.proc p) new) (hv : s.context new = some v) :
    Inv (s.resume c v) := by
  obtain ⟨hspc, hcurc, rfl⟩ : s.sp c = .proc p ∧ s.cur c = some p ∧ v = ⟨.schedBack p, .cpu c⟩ := by
    cases h.on c with
    | proc q hsp hcur hctx hpc' =>
      rw [hpc] at hpc'
      cases hpc'.resolve_left id
      exact ⟨hsp, hcur, some.inj (hv.symm.trans hctx)⟩
    | cpu hsp hcur hpc' =>
      rw [hpc] at hpc'
      obtain ⟨q, htoward⟩ := hpc'.resolve_left id
      cases htoward
  obtain ⟨s', hs'⟩ : ∃ s', s' = s.resume c ⟨.schedBack p, .cpu c⟩ := ⟨_, rfl⟩
  have hg := Goes.resume hpc hs'
  have hsp : s'.sp c = .cpu c := by rw [hs']; exact if_pos rfl
  have hspd : ∀ d, d ≠ c → s'.sp d = s.sp d := fun d hd => by rw [hs']; exact if_neg hd
  have hcur : s'.cur = s.cur := by rw [hs']; rfl
  have hctx : s'.context = s.context := by rw [hs']; rfl
  rw [← hs']
  refine h.shift_live ⟨hg, fun d hd => ⟨hspd d hd, by rw [hcur], by rw [hctx]⟩, by rw [hs']; rfl, rfl, ?_,
    hg.claims (by rw [hcur]) nofun nofun, rfl, nofun⟩ (fun d q => ?_) (.inl rfl) fun q _ => by rw [hctx]
  · refine .cpu hsp ?_ (.inl ?_)
    · rw [hcur, hcurc, hg.dst]
      rfl
    · rw [hg.dst]
      rfl
  · rw [Live, Live]
    by_cases hd : d = c
    · rw [hd, hsp, hpc]
      constructor
      · rintro ⟨heq, -⟩
        cases heq
      · rintro ⟨-, hload⟩
        cases hload
    · rw [hg.pc d hd, hspd d hd]

theorem loadProc {d : C} (hpc : s.pc c = .load (.cpu d) new)
    (hv : s.context new = some v) : Inv (s.resume c v) := by
  obtain ⟨p, hspc, hcurc, hback, rfl⟩ : ∃ p, s.sp c = .cpu c ∧ s.cur c = some p ∧
      s.context (.cpu c) = some ⟨.schedBack p, .cpu c⟩ ∧ new = .proc p := by
    cases h.on c with
    | proc q hsp hcur hctx hpc' =>
      rw [hpc] at hpc'
      cases hpc'.resolve_left id
    | cpu hsp hcur hpc' =>
      rw [hpc] at hpc' hcur
      obtain ⟨q, htoward⟩ := hpc'.resolve_left id
      cases htoward with
      | load hctx => exact ⟨q, hsp, hcur, hctx, rfl⟩
  have hclaims : Claims s c p := .inl hcurc
  have hno : ∀ e, ¬ Live s e p := by
    intro e he
    obtain rfl := h.unique e c p (h.claims_of_live he) hclaims
    have hsp := he.1
    rw [hspc] at hsp
    cases hsp
  have hrun : (s.proc p).state = .running := by
    have hfits := h.state c p hclaims
    rwa [hpc] at hfits
  obtain ⟨k, hk, hresumes⟩ := h.saved p (by rw [hrun]; rfl) hno
  obtain rfl : v = ⟨k, .proc p⟩ := some.inj (hv.symm.trans hk)
  obtain ⟨s', hs'⟩ : ∃ s', s' = s.resume c ⟨k, .proc p⟩ := ⟨_, rfl⟩
  have hg := Goes.resume hpc hs'
  have hsp : s'.sp c = .proc p := by rw [hs']; exact if_pos rfl
  have hspd : ∀ d, d ≠ c → s'.sp d = s.sp d := fun d hd => by rw [hs']; exact if_neg hd
  have hcur : s'.cur = s.cur := by rw [hs']; rfl
  have hctx : s'.context = s.context := by rw [hs']; rfl
  have hproc : s'.proc = s.proc := by rw [hs']; rfl
  have hpl : Live s' c p := ⟨hsp, by rw [hg.dst]; exact Pc.not_load_of_ordinary hresumes.2.1⟩
  have hlive : ∀ e q, q ≠ p → (Live s' e q ↔ Live s e q) := by
    intro e q hq
    rw [Live, Live]
    by_cases he : e = c
    · rw [he, hsp, hspc]
      constructor
      · rintro ⟨heq, -⟩
        exact absurd (Stack.proc.inj heq).symm hq
      · rintro ⟨heq, -⟩
        cases heq
    · rw [hg.pc e he, hspd e he]
  rw [← hs']
  refine h.shift ⟨hg, fun e he => ⟨hspd e he, by rw [hcur], by rw [hctx]⟩, hproc, ?_, ?_,
    hg.claims (by rw [hcur]) nofun ?_, ?_, nofun⟩ (fun q k' ha => ?_) (fun q hactive hno' => ?_)
    fun q _ _ => by rw [hctx]
  · rw [hresumes.1]
    rfl
  · refine .proc p hsp (by rw [hcur, hcurc]) (by rw [hctx, hback]) (.inl ?_)
    rw [hg.dst]
    exact hresumes.2.2
  · rintro q rfl
    cases hresumes.2.1
  · exact Pc.not_parting_of_ordinary hresumes.2.1
  · refine .inr ⟨k', ?_, rfl⟩
    by_cases hq : q = p
    · subst hq
      rcases ha with ⟨e, he, rfl⟩ | ⟨hno', -⟩
      · have hec : e = c := by
          by_contra hec
          exact hno e ⟨by rw [← hspd e hec]; exact he.1, by rw [← hg.pc e hec]; exact he.2⟩
        rw [hec, hg.dst]
        exact .inr ⟨hno, by rw [hrun]; rfl, hk⟩
      · exact absurd hpl (hno' c)
    · rcases ha with ⟨e, he, rfl⟩ | ⟨hno', hactive, hk'⟩
      · have hec : e ≠ c := by
          rintro rfl
          have := he.1
          rw [hsp] at this
          exact hq (Stack.proc.inj this).symm
        exact .inl ⟨e, (hlive e q hq).mp he, (hg.pc e hec).symm⟩
      · exact .inr ⟨fun e he => hno' e ((hlive e q hq).mpr he), by rwa [← hproc], by rwa [← hctx]⟩
  · have hq : q ≠ p := by
      rintro rfl
      exact hno' c hpl
    exact h.saved_of hactive hno' (fun e => (hlive e q hq).mpr) (by rw [hctx])

theorem schedBack (hpc : s.pc c = .schedBack p) {j : ℕ} :
    Inv ((s.setCur c none).goto c (.release p (.scan j))) := by
  obtain ⟨hspc, hcurc⟩ := h.on_cpu hpc nofun nofun
  have hfits := h.state c p (.inl hcurc)
  rw [hpc] at hfits
  obtain ⟨s', hs'⟩ : ∃ s', s' = (s.setCur c none).goto c (.release p (.scan j)) := ⟨_, rfl⟩
  have hg := Goes.goto hpc hs' rfl rfl
  have hsp : s'.sp = s.sp := by rw [hs']; rfl
  have hcur : s'.cur c = none := by rw [hs']; exact if_pos rfl
  have hcurd : ∀ d, d ≠ c → s'.cur d = s.cur d := fun d hd => by rw [hs']; exact if_neg hd
  have hctx : s'.context = s.context := by rw [hs']; rfl
  have hproc : s'.proc = s.proc := by rw [hs']; rfl
  rw [← hs']
  refine h.frame_live hg rfl (fun d hd => ⟨by rw [hsp], hcurd d hd, by rw [hctx]⟩) ?_ (fun q hq => ?_)
    (fun q => .inl (by rw [hproc])) (fun q hq => ?_) (hg.live_of_cpu hsp hspc) (.inl rfl)
    (fun q _ hq => ⟨by rwa [← hproc], by rw [hctx]⟩)
    fun hsame q np => h.newborn_of hsame hg.pc (by rw [hpc]; nofun) fun np hused => ?_
  · refine .cpu (by rw [hsp, hspc]) ?_ (.inl ?_)
    · rw [hcur, hg.dst]
      rfl
    · rw [hg.dst]
      exact ⟨rfl, rfl⟩
  · rw [Claims, hcur, hg.dst] at hq
    rcases hq with hq | hq <;> cases hq
  · rw [hproc] at hq
    obtain ⟨d, hd⟩ := h.claimed q hq
    refine .inr ⟨d, ?_, hd⟩
    rintro rfl
    have hqp : q = p := by
      rcases hd with hd | hd
      · exact some.inj (hd.symm.trans hcurc)
      · rw [hpc] at hd
        cases hd
    rw [← hqp, hq] at hfits
    rcases hfits with hfits | hfits | hfits <;> cases hfits
  · rw [hproc, hctx]
    exact ⟨hused, rfl⟩

theorem choose (hpc : s.pc c = .schedTest p) (hp : (s.proc p).state = .runnable) :
    Inv ((s.setState p .running).goto c (.schedProc p)) := by
  have hlock : s.lock p = some c := h.lock_of_pc hpc rfl
  have hfree : ∀ d, ¬ Claims s d p :=
    fun d => h.not_claims hlock (by rw [hpc]; rfl) (by rw [hp]; nofun)
  obtain ⟨hspc, hcurc⟩ := h.on_cpu hpc nofun nofun
  obtain ⟨s', hs'⟩ : ∃ s', s' = (s.setState p .running).goto c (.schedProc p) := ⟨_, rfl⟩
  have hg := SetsProc.goto (n := s.nextpid) hpc hs'
  have hactive : ∀ q, active (s'.proc q).state = true → active (s.proc q).state = true := by
    intro q hq
    by_cases hqp : q = p
    · rw [hqp, hp]
      rfl
    · rwa [← hg.proc q hqp]
  rw [← hs']
  refine h.frame_live hg.toGoes rfl (fun d _ => hg.other d) ?_ (fun q hq => ?_)
    (hg.state_or fun d _ => hfree d) (fun q hq => ?_) (hg.live_of_cpu hg.sp hspc) (.inl rfl)
    (fun q _ ha => ⟨hactive q ha, by rw [hg.context]⟩)
    fun hsame q np => h.newborn_of hsame hg.pc (by rw [hpc]; nofun) fun np hused => ?_
  · refine .cpu (by rw [hg.sp, hspc]) ?_ (.inl ?_)
    · rw [hg.cur, hcurc, hg.dst]
      rfl
    · rw [hg.dst]
      rfl
  · rw [Claims, hg.cur, hcurc, hg.dst] at hq
    rcases hq with hq | hq
    · cases hq
    · obtain rfl := Pc.schedProc.inj hq
      rw [hg.self, hg.dst]
      exact ⟨rfl, fun d _ => hfree d⟩
  · by_cases hqp : q = p
    · rw [hqp]
      exact .inl (.inr hg.dst)
    · rw [hg.proc q hqp] at hq
      obtain ⟨d, hd⟩ := h.claimed q hq
      refine .inr ⟨d, ?_, hd⟩
      rintro rfl
      rw [Claims, hcurc, hpc] at hd
      rcases hd with hd | hd <;> cases hd
  · have hnp : np ≠ p := by
      rintro rfl
      rw [hp] at hused
      cases hused
    rw [hg.proc np hnp, hg.context]
    exact ⟨hused, rfl⟩

theorem setCur (hpc : s.pc c = .schedProc p) :
    Inv ((s.setCur c (some p)).goto c (.swtch (.cpu c) (.proc p) (.schedBack p))) := by
  obtain ⟨hspc, hcurc⟩ := h.on_cpu hpc nofun nofun
  obtain ⟨s', hs'⟩ : ∃ s', s' =
    (s.setCur c (some p)).goto c (.swtch (.cpu c) (.proc p) (.schedBack p)) := ⟨_, rfl⟩
  have hg := Goes.goto hpc hs' rfl rfl
  have hsp : s'.sp = s.sp := by rw [hs']; rfl
  have hcur : s'.cur c = some p := by rw [hs']; exact if_pos rfl
  have hcurd : ∀ d, d ≠ c → s'.cur d = s.cur d := fun d hd => by rw [hs']; exact if_neg hd
  have hctx : s'.context = s.context := by rw [hs']; rfl
  rw [← hs']
  refine h.shift_live ⟨hg, fun d hd => ⟨by rw [hsp], hcurd d hd, by rw [hctx]⟩, by rw [hs']; rfl, rfl, ?_,
    fun q => ?_, rfl, nofun⟩ (hg.live_of_cpu hsp hspc) (.inl rfl) fun q _ => by rw [hctx]
  · refine .cpu (by rw [hsp, hspc]) ?_ (.inr ⟨p, ?_⟩)
    · rw [hcur, hg.dst]
      rfl
    · rw [hg.dst]
      exact .swtch
  · rw [Claims, Claims, hcur, hcurc, hpc, hg.dst]
    constructor
    · intro hq
      rw [some.inj (hq.resolve_right nofun)]
      exact .inr rfl
    · intro hq
      rw [Pc.schedProc.inj (hq.resolve_left nofun)]
      exact .inl rfl

omit [DecidableEq C] in
theorem on_proc (hpc : s.pc c = k) (hnone : ¬ k.Ok none)
    (hself : ∀ q, k.Ok (some q) → q = p) (htoward : ∀ q, ¬ Toward s c q k) (haway : ∀ q, ¬ Away c q k) :
    s.sp c = .proc p ∧ s.cur c = some p ∧ s.context (.cpu c) = some ⟨.schedBack p, .cpu c⟩ := by
  cases h.on c with
  | proc q hsp hcur hctx hpc' =>
    rw [hpc] at hpc'
    obtain rfl := hself q (hpc'.resolve_right (haway q))
    exact ⟨hsp, hcur, hctx⟩
  | cpu hsp hcur hpc' =>
    rw [hpc] at hpc'
    rcases hpc' with hpc' | ⟨q, hpc'⟩
    · exact (hnone hpc').elim
    · exact (htoward q hpc').elim

variable {i : Slot}

theorem allocate (hpc : s.pc c = .forkTest p i) (hi : (s.proc i).state = .unused)
    (hy : y.state = .used) {n : ℤ} :
    Inv ({ s.setProc i y with nextpid := n }.goto c (.forkSetup p i)) := by
  obtain ⟨hspc, hcurc, hback⟩ := h.on_proc hpc nofun (fun _ => some.inj) nofun nofun
  have hlock : s.lock i = some c := h.lock_of_pc hpc rfl
  have hfree : ∀ d, ¬ Claims s d i :=
    fun d => h.not_claims hlock (by rw [hpc]; rfl) (by rw [hi]; nofun)
  obtain ⟨s', hs'⟩ : ∃ s', s' = { s.setProc i y with nextpid := n }.goto c (.forkSetup p i) :=
    ⟨_, rfl⟩
  have hg := SetsProc.goto hpc hs'
  have hself : (s'.proc i).state = .used := by rw [hg.self, hy]
  have hlive := hg.live hg.sp rfl
  have hactive : ∀ r, active (s'.proc r).state = true → r ≠ i := by
    rintro r hr rfl
    rw [hself] at hr
    cases hr
  have hclaims := hg.claims (by rw [hg.cur]) nofun nofun
  -- the only new child is `i`
  have hforks : ∀ r np, Forks s' r np → r = p ∧ np = i ∨ Forks s r np ∧ np ≠ i := by
    rintro r np ⟨k, ha, hchild⟩
    have hold : At s r k → Forks s r np ∧ np ≠ i := by
      intro ha
      refine ⟨⟨k, ha, hchild⟩, ?_⟩
      rintro rfl
      have := (h.newborn r np ⟨k, ha, hchild⟩).1
      rw [hi] at this
      cases this
    rcases ha with ⟨d, hd, rfl⟩ | ⟨hno, hr, hk⟩
    · by_cases hdc : d = c
      · left
        rw [hdc] at hd hchild
        rw [hg.dst] at hchild
        have hr := hd.1
        rw [hg.sp, hspc] at hr
        exact ⟨(Stack.proc.inj hr).symm, (some.inj hchild).symm⟩
      · exact .inr (hold (.inl ⟨d, (hlive d r).mp hd, (hg.pc d hdc).symm⟩))
    · have hri := hactive r hr
      rw [hg.proc r hri] at hr
      exact .inr (hold (.inr ⟨fun d hd => hno d ((hlive d r).mpr hd), hr, by rwa [← hg.context]⟩))
  rw [← hs']
  refine h.frame (c := c) (fun d hd => ⟨hg.pc d hd, hg.other d⟩)
    (h.hold hg.pc hg.lock (by rw [hg.src, hg.dst]; rfl)) ?_ (fun r hr => ?_)
    (hg.state_or fun d _ => hfree d) (fun r hr => ?_) (fun r hr hno => ?_) (fun r np hf => ?_) fun r r' np hr hr' => ?_
  · refine .proc p (by rw [hg.sp, hspc]) (by rw [hg.cur, hcurc]) (by rw [hg.context, hback]) (.inl ?_)
    rw [hg.dst]
    rfl
  · have hr := (hclaims r).mp hr
    have hri : r ≠ i := by
      rintro rfl
      exact hfree c hr
    have hfits := h.state c r hr
    rw [hpc] at hfits
    rw [hg.proc r hri, hg.dst]
    exact ⟨hfits, h.claims_alone hr⟩
  · rw [hg.proc r (hactive r (by rw [hr]; rfl))] at hr
    exact h.claimed_or hclaims hr
  · rw [hg.proc r (hactive r hr)] at hr
    exact h.saved_of hr hno (fun d => (hlive d r).mpr) (by rw [hg.context])
  · rcases hforks r np hf with ⟨rfl, rfl⟩ | ⟨hf, hnp⟩
    · exact ⟨hself, .inl ⟨c, r, hg.dst⟩⟩
    · obtain ⟨hused, hready⟩ := h.newborn r np hf
      rw [Newborn, hg.proc np hnp, hg.context]
      refine ⟨hused, hready.imp_left ?_⟩
      rintro ⟨d, r', hd⟩
      refine ⟨d, r', (hg.pc d ?_).trans hd⟩
      rintro rfl
      rw [hpc] at hd
      cases hd
  · rcases hforks r np hr with ⟨rfl, rfl⟩ | ⟨hf, hnp⟩
    · rcases hforks r' np hr' with ⟨rfl, -⟩ | ⟨-, hnp⟩
      · rfl
      · exact absurd rfl hnp
    · rcases hforks r' np hr' with ⟨-, rfl⟩ | ⟨hf', -⟩
      · exact absurd rfl hnp
      · exact h.forker r r' np hf hf'

omit [DecidableEq C] in
theorem setup_facts (hpc : s.pc c = .forkSetup p np) :
    Live s c p ∧ s.cur c = some p ∧ s.context (.cpu c) = some ⟨.schedBack p, .cpu c⟩ ∧ Forks s p np ∧
      (s.proc np).state = .used ∧ ∀ d, ¬ Claims s d np := by
  obtain ⟨hsp, hcur, hctx⟩ := h.on_proc hpc nofun (fun _ => some.inj) nofun nofun
  have hpl : Live s c p := ⟨hsp, by rw [hpc]; rfl⟩
  have hf : Forks s p np := ⟨s.pc c, .inl ⟨c, hpl, rfl⟩, by rw [hpc]; rfl⟩
  have hused := (h.newborn p np hf).1
  have hlock : s.lock np = some c := h.lock_of_pc hpc rfl
  exact ⟨hpl, hcur, hctx, hf, hused,
    fun d => h.not_claims hlock (by rw [hpc]; rfl) (by rw [hused]; nofun)⟩

theorem setupDone (hpc : s.pc c = .forkSetup p np) :
    Inv ((s.setContext (.proc np) (some ⟨.forkret np, .proc np⟩)).goto c
      (.release np (.forkParent p np))) := by
  obtain ⟨hpl, hcurc, hback, hfp, hused, -⟩ := h.setup_facts hpc
  obtain ⟨s', hs'⟩ : ∃ s', s' = (s.setContext (.proc np) (some ⟨.forkret np, .proc np⟩)).goto c
    (.release np (.forkParent p np)) := ⟨_, rfl⟩
  have hg := SetsContext.goto hpc hs'
  have hne : ∀ q, active (s.proc q).state = true → s'.context (.proc q) = s.context (.proc q) := by
    refine fun q hq => hg.context _ fun heq => ?_
    rw [Stack.proc.inj heq, hused] at hq
    cases hq
  have hclaims := hg.claims (by rw [hg.cur]) nofun nofun
  rw [← hs']
  refine h.frame_live hg.toGoes rfl (fun d _ => ⟨by rw [hg.sp], by rw [hg.cur], hg.context (.cpu d) nofun⟩)
    ?_ (fun q hq => ?_) (fun q => .inl (by rw [hg.proc])) (fun q hq => ?_) (hg.live hg.sp rfl) (.inr rfl)
    (fun q _ hq => ?_) fun hsame q n hf => ?_
  · refine .proc p (by rw [hg.sp, hpl.1]) (by rw [hg.cur, hcurc])
      (by rw [hg.context (.cpu c) nofun, hback]) (.inl ?_)
    rw [hg.dst]
    exact ⟨rfl, rfl⟩
  · have hq := (hclaims q).mp hq
    have hfits := h.state c q hq
    rw [hpc] at hfits
    rw [hg.proc, hg.dst]
    exact ⟨hfits, h.claims_alone hq⟩
  · rw [hg.proc] at hq
    exact h.claimed_or hclaims hq
  · rw [hg.proc] at hq
    exact ⟨hq, hne q hq⟩
  · obtain ⟨hn, hready⟩ := h.newborn q n (hsame.forks hf)
    rw [Newborn, hg.proc]
    refine ⟨hn, ?_⟩
    by_cases hnn : n = np
    · rw [hnn]
      exact .inr hg.self
    · refine hready.imp ?_ fun hr => (hg.context _ fun heq => hnn (Stack.proc.inj heq)).trans hr
      rintro ⟨d, r, hd⟩
      refine ⟨d, r, (hg.pc d ?_).trans hd⟩
      rintro rfl
      rw [hpc] at hd
      exact hnn (Pc.forkSetup.inj hd).2.symm

theorem setupFail (hpc : s.pc c = .forkSetup p np) (hy : y.state = .unused) :
    Inv ((s.setProc np y).goto c (.release np .run)) := by
  obtain ⟨hpl, hcurc, hback, hfp, hused, hfree⟩ := h.setup_facts hpc
  obtain ⟨s', hs'⟩ : ∃ s', s' = (s.setProc np y).goto c (.release np .run) := ⟨_, rfl⟩
  have hg := SetsProc.goto (n := s.nextpid) hpc hs'
  have hactive : ∀ r, active (s'.proc r).state = true → r ≠ np := by
    rintro r hr rfl
    rw [hg.self, hy] at hr
    cases hr
  have hlive := hg.live hg.sp rfl
  have hclaims := hg.claims (by rw [hg.cur]) nofun nofun
  rw [← hs']
  refine h.frame_live hg.toGoes rfl (fun d _ => hg.other d) ?_ (fun q hq => ?_)
    (hg.state_or fun d _ => hfree d) (fun q hq => ?_) hlive (.inl rfl) (fun q _ hq => ?_) fun hsame q n hf => ?_
  · refine .proc p (by rw [hg.sp, hpl.1]) (by rw [hg.cur, hcurc]) (by rw [hg.context, hback]) (.inl ?_)
    rw [hg.dst]
    exact ⟨rfl, nofun⟩
  · have hq := (hclaims q).mp hq
    have hfits := h.state c q hq
    rw [hpc] at hfits
    rw [hg.proc q, hg.dst]
    · exact ⟨hfits, h.claims_alone hq⟩
    · rintro rfl
      exact hfree c hq
  · rw [hg.proc q (hactive q (by rw [hq]; rfl))] at hq
    exact h.claimed_or hclaims hq
  · rw [hg.proc q (hactive q hq)] at hq
    exact ⟨hq, by rw [hg.context]⟩
  · have hf0 := hsame.forks hf
    obtain ⟨hn, hready⟩ := h.newborn q n hf0
    have hnn : n ≠ np := by
      -- the process that had this child has left `fork`
      rintro rfl
      obtain rfl := h.forker q p n hf0 hfp
      obtain ⟨k, ⟨d, hd, rfl⟩ | ⟨hno, -⟩, hchild⟩ := hf
      · have hd := (hlive d q).mp hd
        obtain rfl := h.unique d c q (h.claims_of_live hd) (h.claims_of_live hpl)
        rw [hg.dst] at hchild
        cases hchild
      · exact hno c ((hlive c q).mpr hpl)
    rw [Newborn, hg.proc n hnn, hg.context]
    refine ⟨hn, hready.imp_left ?_⟩
    rintro ⟨d, r, hd⟩
    refine ⟨d, r, (hg.pc d ?_).trans hd⟩
    rintro rfl
    rw [hpc] at hd
    exact hnn (Pc.forkSetup.inj hd).2.symm

theorem edit (hpc : s.pc c = k)
    (hk : k.ordinary = true) (hk' : k'.ordinary = true) (hholds : k'.holds = k.holds)
    (hok : k.Ok (s.cur c) → k'.Ok (s.cur c)) (hchild : k'.child = none ∨ k'.child = k.child)
    (hy : y.state = (s.proc i).state ∨
      s.lock i = some c ∧ Turn k k' i (s.proc i).state y.state) : Inv ((s.setProc i y).goto c k') := by
  have hpcc : ((s.setProc i y).goto c k').pc c = k' := goto_self
  refine h.move (c := c) ⟨rfl, rfl, rfl, fun d hd => goto_ne hd, by rwa [hpc], by rwa [hpcc], ?_,
    h.hold (fun d hd => goto_ne hd) rfl ?_, ?_, fun j => ?_⟩
  · rwa [hpc, hpcc]
  · rw [hpc, hpcc, hholds]
  · rwa [hpc, hpcc]
  · rw [hpc, hpcc]
    by_cases hj : j = i
    · rw [hj]
      change ((s.setProc i y).proc i).state = _ ∨ _ ∧ Turn k k' i _ ((s.setProc i y).proc i).state
      rw [setProc_self]
      exact hy
    · exact .inl (by rw [show ((s.setProc i y).goto c k').proc j = s.proc j from setProc_ne hj])

theorem jump (hpc : s.pc c = k) (hk : k.ordinary = true)
    (hk' : k'.ordinary = true) (hholds : k'.holds = k.holds)
    (hok : k.Ok (s.cur c) → k'.Ok (s.cur c)) (hchild : k'.child = none ∨ k'.child = k.child) :
    Inv (s.goto c k') := by
  have hpcc : (s.goto c k').pc c = k' := goto_self
  refine h.move (c := c) ⟨rfl, rfl, rfl, fun d hd => goto_ne hd, by rwa [hpc], by rwa [hpcc], ?_,
    h.hold (fun d hd => goto_ne hd) rfl ?_, ?_, fun _ => .inl rfl⟩
  · rwa [hpc, hpcc]
  · rw [hpc, hpcc, hholds]
  · rwa [hpc, hpcc]

theorem acquire (hpc : s.pc c = .acquire p k) (hlock : s.lock p = none) :
    Inv ((s.setLock p (some c)).goto c k) := by
  have hfrom := h.ok_at hpc rfl
  obtain ⟨hholds, hk, hok⟩ := hfrom
  have hpcc : ((s.setLock p (some c)).goto c k).pc c = k := goto_self
  refine h.move (c := c) ⟨rfl, rfl, rfl, fun d hd => goto_ne hd, by rw [hpc]; rfl, by rwa [hpcc], ?_,
    fun d q => ?_, ?_, fun _ => .inl rfl⟩
  · rw [hpcc]
    exact fun _ => hok
  · change (if q = p then some c else s.lock q) = some d ↔ _
    by_cases hd : d = c
    · rw [hd, hpcc, hholds]
      split
      · next hq =>
        rw [hq]
        exact ⟨fun _ => rfl, fun _ => rfl⟩
      · next hq =>
        rw [h.lock, hpc]
        exact ⟨nofun, fun heq => absurd (some.inj heq).symm hq⟩
    · rw [goto_ne hd, show (s.setLock p (some c)).pc d = s.pc d from rfl, ← h.lock]
      split
      · next hq =>
        rw [hq, hlock]
        exact ⟨fun heq => absurd (some.inj heq).symm hd, nofun⟩
      · rfl
  · rw [hpcc, hpc]
    exact .inr rfl

theorem release (hpc : s.pc c = .release p k) : Inv ((s.setLock p none).goto c k) := by
  have hfrom := h.ok_at hpc rfl
  obtain ⟨hholds, hok⟩ := hfrom
  have hk : k.ordinary = true := by
    cases k <;> first | rfl | cases hholds | exact hok.elim
  have hlock : s.lock p = some c := h.lock_of_pc hpc rfl
  have hpcc : ((s.setLock p none).goto c k).pc c = k := goto_self
  refine h.move (c := c) ⟨rfl, rfl, rfl, fun d hd => goto_ne hd, by rw [hpc]; rfl, by rwa [hpcc], ?_,
    fun d q => ?_, ?_, fun _ => .inl rfl⟩
  · rw [hpcc]
    exact fun _ => hok
  · change (if q = p then none else s.lock q) = some d ↔ _
    by_cases hd : d = c
    · rw [hd, hpcc, hholds]
      refine ⟨fun heq => ?_, nofun⟩
      split at heq
      · cases heq
      · next hq =>
        rw [h.lock, hpc] at heq
        exact absurd (some.inj heq).symm hq
    · rw [goto_ne hd, show (s.setLock p none).pc d = s.pc d from rfl, ← h.lock]
      split
      · next hq =>
        rw [hq, hlock]
        exact ⟨nofun, fun heq => absurd (some.inj heq).symm hd⟩
      · rfl
  · rw [hpcc, hpc]
    exact .inr rfl

theorem go {fault : Bool} (hs : s.go c fault = some s') : Inv s' := by
  unfold State.go at hs
  split at hs
  case h_1 hpc => -- boot
    cases hs
    obtain ⟨-, hcur⟩ := h.on_cpu hpc nofun nofun
    have hsame : s.setCur c none = s := by
      have : assign s.cur c none = s.cur := by
        funext d
        by_cases hd : d = c
        · rw [hd, hcur]
          exact if_pos rfl
        · exact if_neg hd
      rw [State.setCur, this]
    rw [hsame]
    exact h.jump hpc rfl rfl rfl id (.inl rfl)
  case h_2 j hpc => -- scan
    split at hs
    · cases hs
      exact h.jump hpc rfl rfl rfl id (.inl rfl)
    · cases hs
      exact h.jump hpc rfl rfl rfl (fun hok => ⟨rfl, rfl, hok⟩) (.inl rfl)
  case h_3 p hpc => -- schedTest
    cases hs
    unfold State.schedTest
    split
    · next hp => exact h.choose hpc hp
    · exact h.jump hpc rfl rfl rfl (fun hok => ⟨rfl, hok⟩) (.inl rfl)
  case h_4 p hpc => -- schedProc
    cases hs
    exact h.setCur hpc
  case h_5 p hpc => -- schedBack
    cases hs
    exact h.schedBack hpc
  case h_6 p k hpc => -- acquire
    unfold State.acquire at hs
    split at hs
    · next hlock =>
      cases hs
      exact h.acquire hpc hlock
    · cases hs
  case h_7 p k hpc => -- release
    unfold State.release at hs
    split at hs
    · cases hs
      exact h.release hpc
    · cases hs
  case h_8 p k hpc => -- sched
    unfold State.sched at hs
    split at hs
    · cases hs
      exact h.enterSwtch hpc
    · cases hs
  case h_9 old new k hpc => -- swtch
    cases hs
    exact h.startStore hpc
  case h_10 old new k hpc => -- store
    cases hs
    cases old with
    | proc p => exact h.saveProc hpc
    | cpu d => exact h.saveCpu hpc
  case h_11 old new hpc => -- load
    obtain ⟨v, hv, rfl⟩ := map_eq_some_iff.mp hs
    cases old with
    | proc p => exact h.loadCpu hpc hv
    | cpu d => exact h.loadProc hpc hv
  case h_12 => cases hs
  case h_13 p hpc => -- forkret
    obtain ⟨q, hq, rfl⟩ := map_eq_some_iff.mp hs
    have hok := h.ok_at hpc rfl
    rw [hq] at hok
    cases hok
    refine h.jump hpc rfl rfl rfl (fun _ => ⟨rfl, ?_⟩) (.inl rfl)
    rw [hq]
    nofun
  case h_14 p k hpc => -- yield
    cases hs
    have hok := h.ok_at hpc rfl
    obtain ⟨hcur, hok⟩ := hok
    rw [hcur] at hok
    exact h.depart hcur (by rw [hpc]; rfl) (by rw [hpc]; rfl) ⟨rfl, rfl, hok⟩ (by rw [hpc]; rfl) (.inl rfl)
  case h_15 p chan k hpc => -- sleep
    cases hs
    have hok := h.ok_at hpc rfl
    obtain ⟨hcur, hok⟩ := hok
    rw [hcur] at hok
    exact h.depart hcur (by rw [hpc]; rfl) (by rw [hpc]; rfl) ⟨rfl, rfl, rfl, hok⟩ (by rw [hpc]; rfl)
      (.inr (.inl rfl))
  case h_16 p k hpc => -- tidy
    cases hs
    exact h.edit hpc rfl rfl rfl (fun hok => hok.2) (.inr rfl) (.inl rfl)
  case h_17 chan j k hpc => -- wakeup
    split at hs
    · cases hs
      have hok := h.ok_at hpc rfl
      have hk : k.ordinary = true := by
        cases k <;> first | rfl | cases hok.1 | exact hok.2.elim
      exact h.jump hpc rfl hk hok.1 (fun _ => hok.2) (.inr rfl)
    · split at hs
      · cases hs
        exact h.jump hpc rfl rfl rfl id (.inr rfl)
      · cases hs
        exact h.jump hpc rfl rfl rfl (fun hok => ⟨rfl, rfl, hok⟩) (.inr rfl)
  case h_18 chan i k hpc => -- wake
    cases hs
    have hlock : s.lock i = some c := h.lock_of_pc hpc rfl
    unfold State.wake
    split
    · next hi =>
      refine h.edit hpc rfl rfl rfl (fun hok => ⟨rfl, hok⟩) (.inr rfl) (.inr ⟨hlock, ?_⟩)
      rw [hi.1]
      exact .wake
    · exact h.jump hpc rfl rfl rfl (fun hok => ⟨rfl, hok⟩) (.inr rfl)
  case h_19 pid j hpc => -- kill
    split at hs
    · cases hs
      exact h.jump hpc rfl rfl rfl id (.inl rfl)
    · cases hs
      exact h.jump hpc rfl rfl rfl (fun hok => ⟨rfl, rfl, hok⟩) (.inl rfl)
  case h_20 pid i hpc => -- killTest
    cases hs
    have hlock : s.lock i = some c := h.lock_of_pc hpc rfl
    unfold State.killTest
    split
    · refine h.edit hpc rfl rfl rfl (fun hok => ⟨rfl, hok⟩) (.inl rfl) ?_
      by_cases hi : (s.proc i).state = .sleeping
      · rw [if_pos hi, hi]
        exact .inr ⟨hlock, .wake⟩
      · exact .inl (if_neg hi)
    · exact h.jump hpc rfl rfl rfl (fun hok => ⟨rfl, hok⟩) (.inl rfl)
  case h_21 p hpc => -- setkilled
    cases hs
    refine h.edit hpc rfl rfl rfl (fun hok => ⟨rfl, ?_⟩) (.inl rfl) (.inl rfl)
    rw [show s.cur c = some p from hok]
    nofun
  case h_22 p j hpc => -- forkScan
    split at hs
    · cases hs
      refine h.jump hpc rfl rfl rfl (fun hok => ?_) (.inl rfl)
      rw [show s.cur c = some p from hok]
      nofun
    · cases hs
      exact h.jump hpc rfl rfl rfl (fun hok => ⟨rfl, rfl, hok⟩) (.inl rfl)
  case h_23 p i hpc => -- forkTest
    cases hs
    unfold State.forkTest
    split
    · next hi => exact h.allocate hpc hi rfl
    · exact h.jump hpc rfl rfl rfl (fun hok => ⟨rfl, hok⟩) (.inl rfl)
  case h_24 p np hpc => -- forkSetup
    cases hs
    unfold State.forkSetup
    split
    · exact h.setupFail hpc rfl
    · exact h.setupDone hpc
  case h_25 p np hpc => -- forkParent
    cases hs
    refine h.edit hpc rfl rfl rfl (fun hok => ⟨rfl, rfl, ?_⟩) (.inr rfl) (.inl rfl)
    rw [show s.cur c = some p from hok]
    nofun
  case h_26 np hpc => -- forkRunnable
    cases hs
    have hlock : s.lock np = some c := h.lock_of_pc hpc rfl
    have hchild : (s.pc c).child = some np := by rw [hpc]; rfl
    obtain ⟨q, -, hf⟩ := h.forks_of_child (h.ok_cur (by rw [hpc]; rfl)) hchild
    refine h.edit hpc rfl rfl rfl (fun hok => ⟨rfl, hok⟩) (.inl rfl) (.inr ⟨hlock, ?_⟩)
    rw [(h.newborn q np hf).1]
    exact .start rfl rfl
  case h_27 p status j hpc => -- exitReparent
    cases hs
    unfold State.exitReparent
    split
    · split
      · exact h.jump hpc rfl rfl rfl (fun hok => ⟨rfl, rfl, hok⟩) (.inl rfl)
      · exact h.jump hpc rfl rfl rfl (fun hok => ⟨rfl, rfl, rfl, hok⟩) (.inl rfl)
    · split
      · exact h.edit hpc rfl rfl rfl (fun hok => ⟨rfl, hok⟩) (.inl rfl) (.inl rfl)
      · exact h.jump hpc rfl rfl rfl id (.inl rfl)
  case h_28 p status hpc => -- exitZombie
    cases hs
    have hcur := h.ok_at hpc rfl
    exact h.depart hcur (by rw [hpc]; rfl) (by rw [hpc]; rfl) ⟨rfl, rfl, rfl⟩ (by rw [hpc]; rfl)
      (.inr (.inr rfl))
  case h_29 => cases hs
  case h_30 p j havekids hpc => -- waitScan
    cases hs
    unfold State.waitScan
    split
    · split
      · exact h.jump hpc rfl rfl rfl (fun hok => ⟨rfl, rfl, hok⟩) (.inl rfl)
      · refine h.jump hpc rfl rfl rfl (fun hok => ?_) (.inl rfl)
        rw [show s.cur c = some p from hok]
        nofun
    · split
      · exact h.jump hpc rfl rfl rfl (fun hok => ⟨rfl, rfl, hok⟩) (.inl rfl)
      · exact h.jump hpc rfl rfl rfl id (.inl rfl)
  case h_31 p i hpc => -- waitTest
    cases hs
    have hlock : s.lock i = some c := h.lock_of_pc hpc rfl
    have hrun : (Pc.waitTest p i : Pc C).Ok (s.cur c) → (Pc.release i .run : Pc C).Ok (s.cur c) := by
      intro hok
      refine ⟨rfl, ?_⟩
      rw [show s.cur c = some p from hok]
      nofun
    unfold State.waitTest
    split
    · next hz =>
      split
      · exact h.jump hpc rfl rfl rfl hrun (.inl rfl)
      · refine h.edit hpc rfl rfl rfl hrun (.inl rfl) (.inr ⟨hlock, ?_⟩)
        rw [hz]
        exact .free
    · exact h.jump hpc rfl rfl rfl (fun hok => ⟨rfl, hok⟩) (.inl rfl)
  case h_32 p hpc => -- waitKilled
    cases hs
    unfold State.waitKilled
    split
    · refine h.jump hpc rfl rfl rfl (fun hok => ⟨rfl, ?_⟩) (.inl rfl)
      rw [show s.cur c = some p from hok]
      nofun
    · exact h.jump hpc rfl rfl rfl (fun hok => ⟨rfl, rfl, rfl, hok, rfl, hok⟩) (.inl rfl)

theorem enter (hk : (s.pc c).holds = none) (hk' : k'.ordinary = true)
    (hholds : k'.holds = none) (hok : (s.pc c).Ok (s.cur c) → k'.Ok (s.cur c))
    (hchild : k'.child = none ∨ k'.child = (s.pc c).child) : Inv (s.goto c k') := by
  have hordinary : (s.pc c).ordinary = true := by
    have hon := h.on c
    cases hon with
    | proc q hsp hcur hctx hpc =>
      generalize s.pc c = k at hk hpc
      rcases hpc with hpc | hpc
      · cases k <;> first | rfl | cases hk | exact hpc.elim
      · cases hpc <;> cases hk
    | cpu hsp hcur hpc =>
      generalize s.pc c = k at hk hpc
      rcases hpc with hpc | ⟨q, hpc⟩
      · cases k <;> first | rfl | cases hk | exact hpc.elim
      · cases hpc <;> cases hk
  exact h.jump rfl hordinary hk' (hholds.trans hk.symm) hok hchild

theorem step {a : Act C} (hs : step s a = some s') : Inv s' := by
  cases a with
  | go c fault => exact h.go hs
  | call c f =>
    simp only [Sched.step] at hs
    split at hs
    · next p hpc hcur =>
      have hentry : Inv (s.goto c (f.entry p)) := by
        refine h.enter (by rw [hpc]; rfl) ?_ ?_ (fun _ => ?_) (.inl ?_)
        · cases f <;> rfl
        · cases f <;> rfl
        · rw [hcur]
          cases f with
          | sleep chan => exact ⟨rfl, rfl, rfl, rfl, nofun⟩
          | wakeup chan => exact ⟨rfl, nofun⟩
          | kill pid => nofun
          | setkilled => exact ⟨rfl, rfl, rfl⟩
          | _ => rfl
        · cases f <;> rfl
      split at hs
      · split at hs
        · cases hs
        · cases hs
          exact hentry
      · cases hs
        exact hentry
    · cases hs
  | intr c chan =>
    simp only [Sched.step] at hs
    split at hs
    · next hk =>
      cases hs
      exact h.enter hk rfl rfl (fun hok => ⟨hk, hok⟩) (.inr rfl)
    · cases hs
  | timer c =>
    simp only [Sched.step] at hs
    split at hs
    · cases hs
    · next p hcur =>
      split at hs
      · next hk =>
        cases hs
        exact h.enter hk.1 rfl rfl (fun hok => ⟨rfl, rfl, hcur, hk.1, hok⟩) (.inr rfl)
      · cases hs

omit h in
theorem initial : Inv (.initial : State C) := by
  have hclaims : ∀ c p, ¬ Claims (.initial : State C) c p := by
    rintro c p (h | h) <;> cases h
  have hlive : ∀ c p, ¬ Live (.initial : State C) c p := by
    rintro c p ⟨h, -⟩
    cases h
  have hproc : ∀ p, p ≠ 0 → ((.initial : State C).proc p).state = .unused := by
    intro p hp
    rw [show (.initial : State C).proc p = .free from if_neg hp]
    rfl
  have hforks : ∀ p np, ¬ Forks (.initial : State C) p np := by
    rintro p np ⟨k, ⟨c, hl, -⟩ | ⟨-, hactive, hk⟩, hchild⟩
    · exact hlive c p hl
    · by_cases hp : p = 0
      · subst hp
        obtain ⟨rfl, -⟩ := Context.mk.inj (some.inj hk)
        cases hchild
      · rw [hproc p hp] at hactive
        cases hactive
  refine ⟨fun c p => ⟨nofun, nofun⟩, fun c => .cpu rfl rfl (.inl rfl),
    fun c p hc => absurd hc (hclaims c p), fun p hp => ?_, fun c d p hc => absurd hc (hclaims c p),
    fun p hactive _ => ?_, fun p np hf => absurd hf (hforks p np),
    fun p q np hf => absurd hf (hforks p np)⟩
  · by_cases hp0 : p = 0
    · subst hp0
      cases hp
    · rw [hproc p hp0] at hp
      cases hp
  · by_cases hp : p = 0
    · subst hp
      exact ⟨.forkret 0, rfl, rfl, rfl, rfl⟩
    · rw [hproc p hp] at hactive
      cases hactive

/-! ## What stops a CPU -/

omit [DecidableEq C] in
theorem cur_of_sched (hpc : s.pc c = .sched p k) : s.cur c = some p := by
  cases h.on c with
  | proc q _ hcur _ hok =>
    rw [hpc] at hok
    rcases hok with hok | haway
    · rw [hcur, hok.1]
    · cases haway
  | cpu _ _ hok =>
    rw [hpc] at hok
    rcases hok with hok | ⟨q, htoward⟩
    · cases hok.1
    · cases htoward

omit [DecidableEq C] in
/-- The context that `swtch` loads is complete. -/
theorem context_of_load {old new : Stack C} (hpc : s.pc c = .load old new) :
    ∃ v, s.context new = some v := by
  cases h.on c with
  | proc q _ _ hctx hok =>
    rw [hpc] at hok
    cases hok.resolve_left id with
    | load => exact ⟨_, hctx⟩
  | cpu hsp hcur hok =>
    rw [hpc] at hok hcur
    obtain ⟨q, htoward⟩ := hok.resolve_left id
    cases htoward with
    | load _ =>
      have hrun : (s.proc q).state = .running := by
        have hfits := h.state c q (.inl hcur)
        rwa [hpc] at hfits
      -- the process is not on another CPU, which would have it in `c->proc` as well
      have hlive : ∀ d, ¬ Live s d q := by
        intro d hl
        obtain rfl := h.unique d c q (h.claims_of_live hl) (.inl hcur)
        cases hsp.symm.trans hl.1
      obtain ⟨k, hk, -⟩ := h.saved q (by rw [hrun]; rfl) hlive
      exact ⟨_, hk⟩

theorem pc_of_go_eq_none {fault : Bool} (hgo : s.go c fault = none) :
    s.pc c = .run ∨ (∃ p, s.pc c = .zombieExit p) ∨
      ∃ p k, s.pc c = .acquire p k ∧ s.lock p ≠ none := by
  unfold State.go at hgo
  cases hpc : s.pc c with
  | run => exact .inl rfl
  | zombieExit p => exact .inr (.inl ⟨p, rfl⟩)
  | acquire p k =>
    refine .inr (.inr ⟨p, k, rfl, fun hfree => ?_⟩)
    rw [hpc] at hgo
    simp [State.acquire, hfree] at hgo
  | release p k =>
    rw [hpc] at hgo
    simp [State.release, h.lock_of_pc hpc rfl] at hgo
  | sched p k =>
    have hfits := h.state c p (.inl (h.cur_of_sched hpc))
    rw [hpc] at hgo hfits
    have hne : (s.proc p).state ≠ .running := by
      rcases hfits with hx | hx | hx <;> rw [hx] <;> decide
    simp [State.sched, h.lock_of_pc hpc rfl, hne] at hgo
  | load old new =>
    obtain ⟨v, hv⟩ := h.context_of_load hpc
    rw [hpc] at hgo
    simp [hv] at hgo
  | forkret p =>
    rw [hpc] at hgo
    have hcur : s.cur c = some p := h.ok_at hpc rfl
    rw [hcur] at hgo
    cases hgo
  | _ =>
    rw [hpc] at hgo
    dsimp only at hgo
    repeat' split at hgo
    all_goals cases hgo

end Inv

variable [DecidableEq C]

theorem inv_of_reachable (h : machine.Reachable s) : Inv s :=
  h.invariant Inv (fun _ hs => by rw [hs]; exact Inv.initial) fun _ _ _ hi hstep => hi.step hstep

/-- **A process runs on at most one CPU.** In every reachable state no two CPUs have the same process
in `c->proc`. A process whose lock is free is RUNNING if and only if exactly one CPU has it; if it is
RUNNABLE or SLEEPING its context is complete and no CPU is on its kernel stack. -/
theorem cpu_exclusive (h : machine.Reachable s) :
    (∀ c d p, s.cur c = some p → s.cur d = some p → c = d) ∧
      ∀ p, s.lock p = none →
        ((s.proc p).state = .running ↔ ∃! c, s.cur c = some p) ∧
          ((s.proc p).state = .runnable ∨ (s.proc p).state = .sleeping →
            (∃ k, s.context (.proc p) = some ⟨k, .proc p⟩) ∧ ∀ c, s.sp c ≠ .proc p) := by
  have hi := inv_of_reachable h
  refine ⟨fun c d p hc hd => hi.unique c d p (.inl hc) (.inl hd), fun p hlock => ?_⟩
  -- a CPU that is not RUNNING the process it claims holds the lock
  have hrun : ∀ c, s.cur c = some p → (s.proc p).state = .running := by
    intro c hc
    have hfits := hi.state c p (.inl hc)
    cases hp : (s.pc c).parting with
    | false => rwa [hp] at hfits
    | true =>
      have hheld := (hi.lock c p).mpr (hi.holds_of_parting (.inl hc) hp)
      rw [hlock] at hheld
      cases hheld
  refine ⟨⟨fun hp => ?_, fun ⟨c, hc, _⟩ => hrun c hc⟩, fun hp => ?_⟩
  · obtain ⟨c, hc⟩ := hi.claimed p hp
    have hcur : s.cur c = some p := by
      refine hc.resolve_right fun hpc => ?_
      have hheld := (hi.lock c p).mpr (by rw [hpc]; rfl)
      rw [hlock] at hheld
      cases hheld
    exact ⟨c, hcur, fun d hd => hi.unique d c p (.inl hd) hc⟩
  · have hstack : ∀ c, s.sp c ≠ .proc p := by
      intro c hsp
      have hr := hrun c (hi.cur_of_sp hsp)
      rw [hr] at hp
      rcases hp with hp | hp <;> cases hp
    refine ⟨?_, hstack⟩
    obtain ⟨k, hk, -⟩ := hi.saved p (by rcases hp with hp | hp <;> rw [hp] <;> rfl)
      fun c hl => hstack c hl.1
    exact ⟨k, hk⟩

/-- One of two CPUs has switched to `init`, the other one is about to look at it. -/
def twoCpus : List (Act Bool) := List.flatten
  [List.replicate 10 (.go true false), List.replicate 2 (.go false false)]

theorem cpu_exclusive_two : ∃ s, machine.run .initial twoCpus = some s ∧ s.lock 0 = none ∧
    (s.proc 0).state = .running ∧ ∃! c, s.cur c = some 0 := by
  have hrun : ∃ s ∈ machine.run .initial twoCpus, s.lock 0 = none ∧ (s.proc 0).state = .running := by
    decide +kernel
  obtain ⟨s, hs, hlock, hr⟩ := hrun
  have hs := Option.mem_def.mp hs
  have hreach : machine.Reachable s := (Machine.Reachable.init rfl).of_run _ hs
  exact ⟨s, hs, hlock, hr, (((cpu_exclusive hreach).2 0 hlock).1).mp hr⟩

/-- **Nothing but a lock stops a CPU.** In every reachable state a CPU that cannot go on is in user
code, at the panic at the end of `exit`, or spins on the lock of a process, which another CPU holds.
The holder spins on no lock. So `acquire`, `release` and `sched` do not panic, `swtch` loads a complete
context, and the CPUs do not wait for one another in a circle. -/
theorem cpu_stops (h : machine.Reachable s) {fault : Bool} (hstuck : s.go c fault = none) :
    s.pc c = .run ∨ (∃ p, s.pc c = .zombieExit p) ∨
      ∃ p k d, s.pc c = .acquire p k ∧ s.lock p = some d ∧ d ≠ c ∧
        ∀ fault, s.go d fault = none → ∃ q, s.pc d = .zombieExit q := by
  have hi := inv_of_reachable h
  rcases hi.pc_of_go_eq_none hstuck with hrun | hexit | ⟨p, k, hpc, hlock⟩
  · exact .inl hrun
  · exact .inr (.inl hexit)
  · obtain ⟨d, hd⟩ := Option.ne_none_iff_exists'.mp hlock
    have hholds := (hi.lock d p).mp hd
    refine .inr (.inr ⟨p, k, d, hpc, hd, ?_, fun fault hgo => ?_⟩)
    · rintro rfl
      rw [hpc] at hholds
      cases hholds
    · rcases hi.pc_of_go_eq_none hgo with hrun | hexit | ⟨q, k, hpc, -⟩
      · rw [hrun] at hholds
        cases hholds
      · exact hexit
      · rw [hpc] at hholds
        cases hholds

/-- One of two CPUs is about to look at `init`, the other one waits for its lock. -/
def lockWait : List (Act Bool) := List.flatten
  [List.replicate 3 (.go true false), List.replicate 2 (.go false false)]

theorem cpu_stops_at_lock : ∃ s, machine.run .initial lockWait = some s ∧ s.go false false = none ∧
    ∃ p k d, s.pc false = .acquire p k ∧ s.lock p = some d ∧ d ≠ false := by
  have hrun : ∃ s ∈ machine.run .initial lockWait, s.go false false = none ∧
      s.pc false = .acquire 0 (.schedTest 0) := by decide +kernel
  obtain ⟨s, hs, hstuck, hpc⟩ := hrun
  have hs := Option.mem_def.mp hs
  have hreach : machine.Reachable s := (Machine.Reachable.init rfl).of_run _ hs
  refine ⟨s, hs, hstuck, ?_⟩
  rcases cpu_stops hreach hstuck with hrun | ⟨p, hexit⟩ | ⟨p, k, d, hpc', hlock, hne, -⟩
  · rw [hpc] at hrun
    cases hrun
  · rw [hpc] at hexit
    cases hexit
  · exact ⟨p, k, d, hpc', hlock, hne⟩

end Xv6.Sched
