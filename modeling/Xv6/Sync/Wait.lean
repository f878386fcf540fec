import Xv6.Sync.Steps

/-!
# Exit and wait

`exit` wakes the parent before it becomes a ZOMBIE, and hands its children, some of which may be zombies,
to `init`. Since all of this happens under `wait_lock`, a process that sleeps in `wait` never has a
ZOMBIE child while the lock is free, and parent pointers lead to processes that have a thread.
-/

namespace Xv6.Sync

open Lib
open Table (apply)

variable {s s' : State} {a : Act}

/-! ## Under `wait_lock` -/

namespace Pc

/-- The program points at which `wait_lock` is held. -/
def holdsWait : Pc → Bool
  | wakeup _ _ k => k.holdsWait
  | exitReparent _ _ | exitZombie _ | waitScan _ _ _ | waitSleep _ => true
  | _ => false

/-- The program points of `exit`. -/
def exits : Pc → Bool
  | wakeup _ _ k => k.exits
  | exitAcquire _ | exitReparent _ _ | exitZombie _ => true
  | _ => false

/-- How many processes `reparent` has seen. -/
def reparented : Pc → ℕ
  | wakeup _ _ k => k.reparented
  | exitReparent _ j => j
  | exitZombie _ => NPROC
  | _ => 0

/-- How many processes the scan of `wait` has seen. -/
def scanned : Pc → ℕ
  | waitScan _ j _ => j
  | waitSleep _ => NPROC
  | _ => 0

/-- `exit` has woken process `q`, or will do so, before the process becomes a ZOMBIE. -/
def Notifies (q : Slot) (sleeps : Prop) : Pc → Prop
  | exitZombie _ => ¬ sleeps
  | wakeup c j (exitZombie _) => sleeps → c = .proc q ∧ j ≤ q.val
  | _ => True

/-- The holder of `wait_lock` will still wake `q`, if it sleeps in `wait`. -/
def WakesParent (q : Slot) : Pc → Prop
  | wakeup c j k => c = .proc q ∧ j ≤ q.val ∧ k.holdsWait = true
  | _ => False

variable {q : Slot} {k : Pc}

theorem WakesParent.holds (h : k.WakesParent q) : k.holdsWait = true := by
  cases k with
  | wakeup c j k => exact h.2.2
  | _ => exact h.elim

section

variable (h : k.holdsWait = false)

include h

theorem reparented_of_not_holds : k.reparented = 0 := by
  induction k with
  | wakeup c j k ih => exact ih h
  | exitReparent status j => cases h
  | exitZombie status => cases h
  | _ => rfl

theorem scanned_of_not_holds : k.scanned = 0 := by
  cases k with
  | waitScan addr j havekids => cases h
  | waitSleep addr => cases h
  | _ => rfl

theorem notifies_of_not_holds {x : Prop} : k.Notifies q x := by
  cases k with
  | exitZombie status => cases h
  | wakeup c j k =>
    cases k with
    | exitZombie status => cases h
    | _ => trivial
  | _ => trivial

end

theorem Notifies.mono {x y : Prop} (h : k.Notifies q x) (hyx : y → x) : k.Notifies q y := by
  cases k with
  | exitZombie status => exact fun hy => h (hyx hy)
  | wakeup c j k =>
    cases k with
    | exitZombie status => exact fun hy => h (hyx hy)
    | _ => trivial
  | _ => trivial

end Pc

/-- No process has been seen yet. -/
theorem below_zero {φ : Slot → Prop} (c : Slot) (h : c.val < 0) : φ c := absurd h (Nat.not_lt_zero _)

/-- `q` sleeps in `wait`. -/
def WaiterSleeps (s : State) (q : Slot) : Prop :=
  (s.proc q).state = .sleeping ∧ ∃ addr, s.pc q = .asleep (.waitAcquire addr)

structure WaitInv (s : State) : Prop where
  lock : ∀ p, (s.pc p).holdsWait = true → s.shared.waitLock = some p
  init_live : live (s.proc s.table.initproc).state = true
  init_stays : (s.pc s.table.initproc).exits = false
  parent : ∀ c q, (s.proc c).parent = some q → live (s.proc q).state = true
  reparented : ∀ p c, c.val < (s.pc p).reparented → (s.proc c).parent ≠ some p
  scanned : ∀ p c, c.val < (s.pc p).scanned → (s.proc c).parent = some p → (s.proc c).state ≠ .zombie
  notifies : ∀ p q, (s.proc p).parent = some q → (s.pc p).Notifies q (WaiterSleeps s q)
  sleepers : ∀ q c, WaiterSleeps s q → (s.proc c).parent = some q → (s.proc c).state = .zombie →
    ∃ o, (s.pc o).WakesParent q

namespace WaitInv

variable (h : WaitInv s)

include h

theorem free (hl : s.shared.waitLock = none) (q : Slot) : (s.pc q).holdsWait = false := by
  by_contra hq
  rw [h.lock q (by simpa using hq)] at hl
  cases hl

theorem alone {p q : Slot} (hp : (s.pc p).holdsWait = true) (hq : q ≠ p) :
    (s.pc q).holdsWait = false := by
  by_contra hh
  have h1 := h.lock q (by simpa using hh)
  rw [h.lock p hp] at h1
  exact hq (Option.some.inj h1).symm

theorem frame (hlock : s'.shared.waitLock = s.shared.waitLock)
    (hinit : s'.table.initproc = s.table.initproc)
    (hpc : ∀ q, s'.pc q = s.pc q ∨ (s.pc q).holdsWait = false ∧ (s'.pc q).holdsWait = false ∧
      ¬ WaiterSleeps s' q) (hexits : (s'.pc s.table.initproc).exits = false)
    (hparent : ∀ c q, (s'.proc c).parent = some q → (s.proc c).parent = some q)
    (hzombie : ∀ c, (s'.proc c).state = .zombie → (s.proc c).state = .zombie)
    (hlive : ∀ q, live (s.proc q).state = true → live (s'.proc q).state = true)
    (hsleep : ∀ q, s'.pc q = s.pc q → (s'.proc q).state = .sleeping → (s.proc q).state = .sleeping) :
    WaitInv s' := by
  have hkeep : ∀ o, (s.pc o).holdsWait = true → s'.pc o = s.pc o := by
    intro o ho
    rcases hpc o with heq | ⟨hno, -⟩
    · exact heq
    · rw [ho] at hno
      cases hno
  have hw : ∀ q, WaiterSleeps s' q → WaiterSleeps s q := by
    intro q hq
    rcases hpc q with heq | ⟨-, -, hno⟩
    · exact ⟨hsleep q heq hq.1, heq ▸ hq.2⟩
    · exact absurd hq hno
  refine ⟨fun p hp => ?_, ?_, ?_, fun c q hc => ?_, fun p c hc hcp => ?_, fun p c hc hcp hz => ?_,
    fun p q hp => ?_, fun q c hq hc hz => ?_⟩
  · rw [hlock]
    rcases hpc p with heq | ⟨-, hno, -⟩
    · exact h.lock p (heq ▸ hp)
    · rw [hp] at hno
      cases hno
  · rw [hinit]
    exact hlive _ h.init_live
  · rw [hinit]
    exact hexits
  · exact hlive q (h.parent c q (hparent c q hc))
  · rcases hpc p with heq | ⟨-, hno, -⟩
    · rw [heq] at hc
      exact h.reparented p c hc (hparent c p hcp)
    · rw [Pc.reparented_of_not_holds hno] at hc
      omega
  · rcases hpc p with heq | ⟨-, hno, -⟩
    · rw [heq] at hc
      exact h.scanned p c hc (hparent c p hcp) (hzombie c hz)
    · rw [Pc.scanned_of_not_holds hno] at hc
      omega
  · rcases hpc p with heq | ⟨-, hno, -⟩
    · rw [heq]
      exact (h.notifies p q (hparent p q hp)).mono (hw q)
    · exact Pc.notifies_of_not_holds hno
  · obtain ⟨o, ho⟩ := h.sleepers q c (hw q hq) (hparent c q hc) (hzombie c hz)
    exact ⟨o, by rwa [hkeep o ho.holds]⟩

theorem own {p : Slot} (hother : ∀ q, q ≠ p → (s.pc q).holdsWait = false ∧ s'.pc q = s.pc q)
    (hlock : (s'.pc p).holdsWait = true → s'.shared.waitLock = some p)
    (hinit : s'.table.initproc = s.table.initproc)
    (hlive : live (s'.proc s.table.initproc).state = true)
    (hexits : (s'.pc p).exits = true → p ≠ s.table.initproc)
    (hparent : ∀ c q, (s'.proc c).parent = some q → live (s'.proc q).state = true)
    (hreparented : ∀ c, c.val < (s'.pc p).reparented → (s'.proc c).parent ≠ some p)
    (hscanned : ∀ c, c.val < (s'.pc p).scanned → (s'.proc c).parent = some p →
      (s'.proc c).state ≠ .zombie)
    (hnotifies : ∀ q, (s'.proc p).parent = some q → (s'.pc p).Notifies q (WaiterSleeps s' q))
    (hsleepers : ∀ q c, WaiterSleeps s' q → (s'.proc c).parent = some q →
      (s'.proc c).state = .zombie → (s'.pc p).WakesParent q) : WaitInv s' := by
  have hno : ∀ q, q ≠ p → (s'.pc q).holdsWait = false := by
    intro q hq
    rw [(hother q hq).2]
    exact (hother q hq).1
  refine ⟨fun q hq => ?_, by rwa [hinit], ?_, hparent, fun q c hc => ?_, fun q c hc => ?_,
    fun q r hq => ?_, fun q c hq hc hz => ⟨p, hsleepers q c hq hc hz⟩⟩
  · by_cases hqp : q = p
    · rw [hqp] at hq ⊢
      exact hlock hq
    · rw [hno q hqp] at hq
      cases hq
  · rw [hinit]
    by_cases hip : s.table.initproc = p
    · by_contra he
      rw [hip] at he
      exact hexits (by simpa using he) hip.symm
    · rw [(hother _ hip).2]
      exact h.init_stays
  · by_cases hqp : q = p
    · rw [hqp] at hc ⊢
      exact hreparented c hc
    · rw [Pc.reparented_of_not_holds (hno q hqp)] at hc
      omega
  · by_cases hqp : q = p
    · rw [hqp] at hc ⊢
      exact hscanned c hc
    · rw [Pc.scanned_of_not_holds (hno q hqp)] at hc
      omega
  · by_cases hqp : q = p
    · rw [hqp] at hq ⊢
      exact hnotifies r hq
    · exact Pc.notifies_of_not_holds (hno q hqp)

end WaitInv

/-! ## Steps outside -/

/-- The program points from which `wait_lock` is acquired. -/
def Pc.takesWait : Pc → Bool
  | .exitAcquire _ | .waitAcquire _ | .forkParent _ _ => true
  | _ => false

section

variable {t : Table} {sh : Shared} {p q : Slot} {fault : Bool} {k k' : Pc} {n : Next} {e : Effect}

theorem next_outsideWait (hok : k.Ok p) (hk : k.holdsWait = false) (ha : k.takesWait = false)
    (hn : next t sh p fault k = some n) :
    n.1.holdsWait = false ∧ n.2.1.waitLock = sh.waitLock ∧ n.1.exits = false ∧
      ∀ addr, n.1 ≠ .asleep (.waitAcquire addr) := by
  cases k with
  | user r => cases hn
  | dead => cases hn
  | asleep k =>
    cases hn
    obtain ⟨c, hc⟩ := hok
    cases k with
    | asleep k => cases hc
    | _ => first | exact ⟨rfl, rfl, rfl, by simp⟩ | cases hc
  | wakeup c j k =>
    simp only [next] at hn
    split at hn
    · cases hn
      cases k with
      | asleep k => cases hok
      | _ => first | exact ⟨rfl, rfl, rfl, by simp⟩ | cases hok | cases hk
    · cases hn
      cases k with
      | asleep k => cases hok
      | _ => first | exact ⟨rfl, rfl, rfl, by simp⟩ | cases hok | cases hk
  | writeTest _ _ | writeNext _ _ | writeStore _ _ | readTest _ | readCopy _ _ | consTest _ _
  | tickTest _ _ =>
    cases hn
    simp only [writeLoop, writeByte, readLoop, copyLoop, consLoop, tickLoop]
    repeat' split
    all_goals exact ⟨rfl, rfl, rfl, by simp⟩
  | _ =>
    first
    | exact Bool.noConfusion hk
    | exact Bool.noConfusion ha
    | simp only [next] at hn
      repeat' split at hn
      all_goals cases hn
      all_goals exact ⟨rfl, rfl, rfl, by simp⟩

/-- Outside `wait_lock` no process gets a parent, becomes a ZOMBIE or loses its thread. -/
structure Calm (x x' : Proc) : Prop where
  parent : ∀ q, x'.parent = some q → x.parent = some q
  zombie : x'.state = .zombie → x.state = .zombie
  live : live x.state = true → live x'.state = true

theorem Calm.refl (x : Proc) : Calm x x := ⟨fun _ => id, id, id⟩

theorem Does.calm (h : Does t p k k' e) (hr : (t.proc p).state = .running) (hk : k.holdsWait = false)
    (ha : k.takesWait = false) (q : Slot) : Calm (t.proc q) ((t.apply p e).proc q) := by
  by_cases ht : e.touches p q
  · cases h with
    | none => exact ht.elim
    | parent => cases ha
    | reparent => cases hk
    | zombie => cases hk
    | reap => cases hk
    | wake i hi hf =>
      obtain rfl : q = i := ht
      simp only [apply]
      split
      · rw [setProc_proc, if_pos rfl]
        exact ⟨fun _ => id, by simp, fun _ => rfl⟩
      · exact .refl _
    | kill i hi hpid =>
      obtain rfl : q = i := ht
      simp only [apply, setProc_proc, if_true]
      split
      · exact ⟨fun _ => id, by simp, fun _ => rfl⟩
      · exact ⟨fun _ => id, id, id⟩
    | sleep =>
      obtain rfl : q = p := ht
      simp only [apply, setProc_proc, if_true]
      exact ⟨fun _ => id, by simp, fun _ => rfl⟩
    | tidy =>
      obtain rfl : q = p := ht
      simp only [apply, setProc_proc, if_true]
      exact ⟨fun _ => id, id, id⟩
    | alloc i hi =>
      obtain rfl : q = i := ht
      simp only [apply, bumpPid_proc, setProc_proc, if_true]
      exact ⟨fun _ => id, by simp, fun hl => by rw [hi] at hl; cases hl⟩
    | allocFail i hi =>
      obtain rfl : q = i := ht
      simp only [apply, bumpPid_proc, setProc_proc, if_true]
      refine ⟨fun _ h => ?_, fun h => ?_, fun hl => ?_⟩
      · cases h
      · cases h
      · rw [hi] at hl
        cases hl
    | @runnable np pid =>
      obtain rfl : q = np := ht
      simp only [apply, setProc_proc, if_true]
      exact ⟨fun _ => id, by simp, fun _ => rfl⟩
  · rw [apply_proc_of_not_touches ht]
    exact .refl _

@[simp] theorem apply_initproc : (t.apply p e).initproc = t.initproc := by
  cases e with
  | wake c j =>
    simp only [apply]
    split <;> rfl
  | _ => rfl

end

namespace WaitInv

variable (h : WaitInv s)

include h

variable {p : Slot} {fault : Bool} {n : Next}

theorem outside (ht : Threads s) (hr : (s.proc p).state = .running)
    (hn : next s.table s.shared p fault (s.pc p) = some n) (hk : (s.pc p).holdsWait = false)
    (ha : (s.pc p).takesWait = false) : WaitInv (s.advance p n) := by
  obtain ⟨hk', hlock, hexits, hsleeps⟩ := next_outsideWait (ht.ok p) hk ha hn
  have hdoes := next_does (ht.ok p) hn
  have hcalm : ∀ q, Calm (s.proc q) ((s.advance p n).proc q) := fun q => hdoes.calm hr hk ha q
  refine h.frame hlock apply_initproc (fun q => ?_) ?_ (fun c => (hcalm c).parent)
    (fun c => (hcalm c).zombie) (fun q => (hcalm q).live) fun q => hdoes.sleeping
  · by_cases hqp : q = p
    · right
      rw [hqp, advance_pc_self]
      refine ⟨hk, hk', ?_⟩
      rintro ⟨-, addr, haddr⟩
      rw [advance_pc_self] at haddr
      exact hsleeps addr haddr
    · by_cases hrun : n.2.2 = .runnable q
      · right
        have hpc := advance_pc_runnable (s := s) hqp hrun
        rw [hrun] at hdoes
        refine ⟨by rw [ht.dead_of_runnable hdoes]; rfl, by rw [hpc]; rfl, ?_⟩
        rintro ⟨-, addr, haddr⟩
        rw [hpc] at haddr
        cases haddr
      · exact .inl (advance_pc_ne hqp hrun)
  · by_cases hip : s.table.initproc = p
    · rw [hip, advance_pc_self]
      exact hexits
    · by_cases hrun : n.2.2 = .runnable s.table.initproc
      · rw [advance_pc_runnable hip hrun]
        rfl
      · rw [advance_pc_ne hip hrun]
        exact h.init_stays

variable {c : Slot}

theorem wakes (hother : ∀ q, q ≠ p → (s.pc q).holdsWait = false) {q : Slot}
    (hq : WaiterSleeps s q) (hc : (s.proc c).parent = some q) (hz : (s.proc c).state = .zombie) :
    (s.pc p).WakesParent q := by
  obtain ⟨o, ho⟩ := h.sleepers q c hq hc hz
  obtain rfl : o = p := by
    by_contra hne
    have := ho.holds
    rw [hother o hne] at this
    cases this
  exact ho

theorem ne_init (hp : (s.pc p).exits = true) : p ≠ s.table.initproc := by
  rintro rfl
  rw [h.init_stays] at hp
  cases hp

variable {sh' : Shared} {k' : Pc}

theorem own_advance {e : Effect} (hs' : s' = s.advance p (k', sh', e)) (he : ∀ q, e ≠ .runnable q)
    (hother : ∀ q, q ≠ p → (s.pc q).holdsWait = false)
    (hlock : k'.holdsWait = true → sh'.waitLock = some p)
    (hlive : live (s'.proc s.table.initproc).state = true)
    (hexits : k'.exits = true → p ≠ s.table.initproc)
    (hparent : ∀ c q, (s'.proc c).parent = some q → live (s'.proc q).state = true)
    (hreparented : ∀ c : Slot, c.val < k'.reparented → (s'.proc c).parent ≠ some p)
    (hscanned : ∀ c : Slot, c.val < k'.scanned → (s'.proc c).parent = some p →
      (s'.proc c).state ≠ .zombie)
    (hnotifies : ∀ q, (s'.proc p).parent = some q → k'.Notifies q (WaiterSleeps s' q))
    (hsleepers : ∀ q c, WaiterSleeps s' q → (s'.proc c).parent = some q →
      (s'.proc c).state = .zombie → k'.WakesParent q) : WaitInv s' := by
  subst hs'
  have hpc : (s.advance p (k', sh', e)).pc p = k' := advance_pc_self
  refine h.own (p := p) (fun q hq => ⟨hother q hq, advance_pc_ne hq (he q)⟩) ?_ apply_initproc hlive ?_
    hparent ?_ ?_ ?_ ?_
  all_goals rw [hpc]
  · exact hlock
  · exact hexits
  · exact hreparented
  · exact hscanned
  · exact hnotifies
  · exact hsleepers

omit h in
theorem waiterSleeps_of_advance {e : Effect} {q : Slot}
    (hs' : s' = s.advance p (k', sh', e)) (he : ∀ q, e ≠ .runnable q)
    (hqp : ∀ addr, k' = .asleep (.waitAcquire addr) → q ≠ p) (hq : WaiterSleeps s' q) :
    WaiterSleeps s q := by
  subst hs'
  obtain ⟨hst, addr, haddr⟩ := hq
  have hqp : q ≠ p := by
    rintro rfl
    rw [advance_pc_self] at haddr
    exact hqp addr haddr rfl
  rw [advance_pc_ne hqp (he q)] at haddr
  rcases advance_sleeping hst with hst | ⟨rfl, -⟩
  · exact ⟨hst, addr, haddr⟩
  · exact absurd rfl hqp

section

variable (hr : (s.proc p).state = .running)

include hr

theorem own_none (hother : ∀ q, q ≠ p → (s.pc q).holdsWait = false)
    (hlock : k'.holdsWait = true → sh'.waitLock = some p)
    (hexits : k'.exits = true → (s.pc p).exits = true)
    (hreparented : ∀ c : Slot, c.val < k'.reparented → (s.proc c).parent ≠ some p)
    (hscanned : ∀ c : Slot, c.val < k'.scanned → (s.proc c).parent = some p →
      (s.proc c).state ≠ .zombie)
    (hnotifies : ∀ q, (s.proc p).parent = some q → k'.Notifies q (WaiterSleeps s q))
    (hwakes : ∀ q, WaiterSleeps s q → (s.pc p).WakesParent q → k'.WakesParent q) :
    WaitInv (s.advance p (k', sh', .none)) := by
  have hsleeps : ∀ q, WaiterSleeps (s.advance p (k', sh', .none)) q → WaiterSleeps s q := by
    intro q hq
    refine waiterSleeps_of_advance (e := .none) rfl nofun (fun _ _ => ?_) hq
    rintro rfl
    rw [WaiterSleeps, show (s.advance q (k', sh', .none)).proc q = s.proc q from rfl, hr] at hq
    cases hq.1
  exact h.own_advance rfl nofun hother hlock h.init_live (fun he => h.ne_init (hexits he)) h.parent
    hreparented hscanned (fun q hq => (hnotifies q hq).mono (hsleeps q))
    fun q c hq hc hz => hwakes q (hsleeps q hq) (h.wakes hother (hsleeps q hq) hc hz)

theorem release (hholds : (s.pc p).holdsWait = true) (hw : ∀ q, ¬ (s.pc p).WakesParent q)
    (hk' : k'.holdsWait = false) (hexits : k'.exits = false) :
    WaitInv (s.advance p (k', sh', .none)) := by
  refine h.own_none hr (fun q => h.alone hholds) (fun hk => ?_) (fun he => ?_) (fun c hc => ?_)
    (fun c hc => ?_) (fun q _ => Pc.notifies_of_not_holds hk') fun q _ hq => absurd hq (hw q)
  · rw [hk'] at hk
    cases hk
  · rw [hexits] at he
    cases he
  · rw [Pc.reparented_of_not_holds hk'] at hc
    omega
  · rw [Pc.scanned_of_not_holds hk'] at hc
    omega

variable {addr havekids : Bool} {j : ℕ}

theorem scan {havekids' : Bool} (hpc : s.pc p = .waitScan addr j havekids) (hc : slot? j = some c)
    (hno : (s.proc c).parent = some p → (s.proc c).state ≠ .zombie) :
    WaitInv (s.advance p (.waitScan addr (j + 1) havekids', s.shared, .none)) := by
  have hholds : (s.pc p).holdsWait = true := by rw [hpc]; rfl
  refine h.own_none hr (fun q => h.alone hholds) (fun _ => h.lock p hholds) nofun
    below_zero (fun d hd hdp => ?_) (fun _ _ => trivial) fun q _ hq => ?_
  · have hscanned := h.scanned p
    rw [hpc] at hscanned
    rcases Nat.lt_or_ge d.val j with hlt | hge
    · exact hscanned d hlt hdp
    · have hd : d.val < j + 1 := hd
      obtain rfl : d = c := Fin.ext (by have := slot?_eq_some hc; omega)
      exact hno hdp
  · rw [hpc] at hq
    exact hq.elim

end

theorem reap (hpc : s.pc p = .waitScan addr j havekids)
    (hz : (s.proc c).state = .zombie) {r : ℤ} : WaitInv (s.advance p (.user r, sh', .reap c)) := by
  have hother := fun q => h.alone (p := p) (q := q) (by rw [hpc]; rfl)
  obtain ⟨s', hs'⟩ : ∃ s', s' = s.advance p (.user r, sh', .reap c) := ⟨_, rfl⟩
  have hself : s'.proc c = .free := by
    rw [hs', advance_proc]
    simp only [apply, setProc_proc, if_true]
  have hproc : ∀ q, q ≠ c → s'.proc q = s.proc q := by
    intro q hq
    rw [hs']
    exact advance_proc_of_not_touches hq
  have hlive : ∀ q, live (s.proc q).state = true → live (s'.proc q).state = true := by
    intro q hq
    rwa [hproc q]
    rintro rfl
    rw [hz] at hq
    cases hq
  have hback : ∀ d q, (s'.proc d).parent = some q → d ≠ c ∧ (s.proc d).parent = some q := by
    intro d q hd
    have hdc : d ≠ c := by
      rintro rfl
      rw [hself] at hd
      cases hd
    rw [hproc d hdc] at hd
    exact ⟨hdc, hd⟩
  rw [← hs']
  refine h.own_advance hs' (by simp) hother (fun h => by cases h) (hlive _ h.init_live)
    (fun h => by cases h)
    (fun d q hd => hlive q (h.parent d q (hback d q hd).2)) below_zero below_zero
    (fun q _ => trivial) fun q d hq hd hzd => ?_
  -- nobody was promised a wakeup, so there was no other ZOMBIE with a sleeping parent
  obtain ⟨hdc, hd⟩ := hback d q hd
  rw [hproc d hdc] at hzd
  have := h.wakes hother (waiterSleeps_of_advance hs' (by simp) (by simp) hq) hd hzd
  rw [hpc] at this
  exact this.elim

theorem sleep (hpc : s.pc p = .waitSleep addr) {c : Chan} :
    WaitInv (s.advance p (.asleep (.waitAcquire addr), { s.shared with waitLock := none }, .sleep c)) := by
  have hother := fun q => h.alone (p := p) (q := q) (by rw [hpc]; rfl)
  obtain ⟨s', hs'⟩ : ∃ s', s' = s.advance p (.asleep (.waitAcquire addr),
    { s.shared with waitLock := none }, .sleep c) := ⟨_, rfl⟩
  have hself : s'.proc p = { s.proc p with state := .sleeping, chan := some c } := by
    rw [hs', advance_proc]
    simp only [apply, setProc_proc, if_true]
    rfl
  have hproc : ∀ q, q ≠ p → s'.proc q = s.proc q := by
    intro q hq
    rw [hs']
    exact advance_proc_of_not_touches hq
  have hparent : ∀ q, (s'.proc q).parent = (s.proc q).parent := by
    intro q
    by_cases hq : q = p
    · rw [hq, hself]
    · rw [hproc q hq]
  have hlive : ∀ q, live (s.proc q).state = true → live (s'.proc q).state = true := by
    intro q hq
    by_cases hqp : q = p
    · rw [hqp, hself]
      rfl
    · rwa [hproc q hqp]
  rw [← hs']
  refine h.own_advance hs' (by simp) hother (fun h => by cases h) (hlive _ h.init_live)
    (fun h => by cases h) (fun d q hd => ?_) below_zero below_zero
    (fun q _ => trivial) fun q d hq hd hzd => ?_
  · rw [hparent] at hd
    exact hlive q (h.parent d q hd)
  · rw [hparent] at hd
    have hzd : (s.proc d).state = .zombie := by
      by_cases hdp : d = p
      · rw [hdp, hself] at hzd
        cases hzd
      · rwa [hproc d hdp] at hzd
    by_cases hqp : q = p
    · -- the scan found no ZOMBIE
      rw [hqp] at hd
      refine absurd hzd (h.scanned p d ?_ hd)
      rw [hpc]
      exact d.isLt
    · have := h.wakes hother (waiterSleeps_of_advance hs' (by simp) (fun _ _ => hqp) hq) hd hzd
      rw [hpc] at this
      exact this.elim

variable {i : Slot} {status : ℤ}

omit h in
theorem setParent_proc {x : Option Slot}
    (h : s'.table = s.table.setProc i { s.table.proc i with parent := x }) (q : Slot) :
    (s'.proc q).state = (s.proc q).state ∧
      ((s'.proc q).parent = (s.proc q).parent ∧ q ≠ i ∨ q = i ∧ (s'.proc q).parent = x) := by
  simp only [State.proc, h, setProc_proc]
  by_cases hq : q = i
  · rw [if_pos hq, hq]
    exact ⟨rfl, .inr ⟨rfl, rfl⟩⟩
  · rw [if_neg hq]
    exact ⟨rfl, .inl ⟨rfl, hq⟩⟩

theorem reparent (hpc : s.pc p = .exitReparent status j) (hi : i.val = j) :
    WaitInv (s.advance p (.wakeup (.proc s.table.initproc) 0 (.exitReparent status (j + 1)), s.shared,
      .reparent i)) := by
  have hholds : (s.pc p).holdsWait = true := by rw [hpc]; rfl
  have hother := fun q => h.alone hholds (q := q)
  have hpi : p ≠ s.table.initproc := h.ne_init (by rw [hpc]; rfl)
  obtain ⟨s', hs'⟩ : ∃ s', s' = s.advance p (.wakeup (.proc s.table.initproc) 0
    (.exitReparent status (j + 1)), s.shared, .reparent i) := ⟨_, rfl⟩
  have hstate := setParent_proc (s := s) (show s'.table = _ by rw [hs']; rfl)
  rw [← hs']
  refine h.own_advance hs' nofun hother (fun _ => h.lock p hholds) ?_ (fun _ => hpi) (fun d q hd => ?_)
    (fun d hd hdp => ?_) below_zero (fun q _ => trivial)
    fun q d hq hd hzd => ?_
  · rw [(hstate _).1]
    exact h.init_live
  · rw [(hstate q).1]
    rcases (hstate d).2 with ⟨heq, -⟩ | ⟨-, heq⟩
    · rw [heq] at hd
      exact h.parent d q hd
    · rw [heq] at hd
      cases hd
      exact h.init_live
  · rcases (hstate d).2 with ⟨heq, hdi⟩ | ⟨-, heq⟩
    · rw [heq] at hdp
      refine h.reparented p d ?_ hdp
      rw [hpc]
      have hd : d.val < j + 1 := hd
      have : d.val ≠ j := fun hdj => hdi (Fin.ext (hdj.trans hi.symm))
      change d.val < j
      omega
    · rw [heq] at hdp
      exact hpi (Option.some.inj hdp).symm
  · rw [(hstate d).1] at hzd
    rcases (hstate d).2 with ⟨heq, -⟩ | ⟨-, heq⟩
    · rw [heq] at hd
      have := h.wakes hother (waiterSleeps_of_advance hs' nofun nofun hq) hd hzd
      rw [hpc] at this
      exact this.elim
    · rw [heq] at hd
      cases hd
      exact ⟨rfl, Nat.zero_le _, rfl⟩

theorem zombie (hpc : s.pc p = .exitZombie status) :
    WaitInv (s.advance p (.dead, { s.shared with waitLock := none }, .zombie status)) := by
  have hother := fun q => h.alone (p := p) (q := q) (by rw [hpc]; rfl)
  have hpi : p ≠ s.table.initproc := h.ne_init (by rw [hpc]; rfl)
  obtain ⟨s', hs'⟩ : ∃ s', s' = s.advance p (.dead, { s.shared with waitLock := none },
    .zombie status) := ⟨_, rfl⟩
  have hproc : ∀ q, q ≠ p → s'.proc q = s.proc q := by
    intro q hq
    rw [hs']
    exact advance_proc_of_not_touches hq
  have hparent : ∀ q, (s'.proc q).parent = (s.proc q).parent := by
    intro q
    by_cases hq : q = p
    · rw [hq, hs', advance_proc]
      simp only [apply, setProc_proc, if_true]
      rfl
    · rw [hproc q hq]
  have hnochild : ∀ c q, (s'.proc c).parent = some q → (s.proc c).parent = some q ∧ q ≠ p := by
    intro c q hc
    rw [hparent] at hc
    refine ⟨hc, ?_⟩
    rintro rfl
    refine h.reparented q c ?_ hc
    rw [hpc]
    exact c.isLt
  rw [← hs']
  refine h.own_advance hs' (by simp) hother (fun h => by cases h) ?_ (fun _ => hpi) (fun d q hd => ?_)
    below_zero below_zero (fun q _ => trivial) fun q d hq hd hzd => ?_
  · rw [hproc _ hpi.symm]
    exact h.init_live
  · obtain ⟨hd, hqp⟩ := hnochild d q hd
    rw [hproc q hqp]
    exact h.parent d q hd
  · obtain ⟨hd, -⟩ := hnochild d q hd
    have hqs := waiterSleeps_of_advance hs' (by simp) (by simp) hq
    by_cases hdp : d = p
    · -- the parent was woken before
      have := h.notifies p q (by rw [← hdp]; exact hd)
      rw [hpc] at this
      exact absurd hqs this
    · rw [hproc d hdp] at hzd
      have := h.wakes hother hqs hd hzd
      rw [hpc] at this
      exact this.elim

theorem wake (ht : Threads s) (hr : (s.proc p).state = .running) {c : Chan} {k : Pc}
    (hpc : s.pc p = .wakeup c j k) (hk : k.holdsWait = true) (hi : i.val = j) :
    WaitInv (s.advance p (.wakeup c (j + 1) k, s.shared, .wake c i)) := by
  have hholds : (s.pc p).holdsWait = true := by rw [hpc]; exact hk
  have hother := fun q => h.alone hholds (q := q)
  have hf : follows c k = true := by
    have := ht.ok p
    rwa [hpc] at this
  obtain ⟨s', hs'⟩ : ∃ s', s' = s.advance p (.wakeup c (j + 1) k, s.shared, .wake c i) := ⟨_, rfl⟩
  have hproc : ∀ q, s'.proc q = s.proc q ∨ q = i ∧ (s.proc q).state = .sleeping ∧
      s'.proc q = { s.proc q with state := .runnable } := by
    intro q
    rw [hs', advance_proc]
    simp only [apply]
    split
    · next hw =>
      rw [setProc_proc]
      split
      · next hq =>
        rw [hq]
        exact .inr ⟨rfl, hw.2.1, rfl⟩
      · exact .inl rfl
    · exact .inl rfl
  have hparent : ∀ q, (s'.proc q).parent = (s.proc q).parent := by
    intro q
    rcases hproc q with hq | ⟨-, -, hq⟩ <;> rw [hq]
  have hzombie : ∀ q, (s'.proc q).state = .zombie → (s.proc q).state = .zombie := by
    intro q hz
    rcases hproc q with hq | ⟨-, -, hq⟩
    · rwa [hq] at hz
    · rw [hq] at hz
      cases hz
  have hlive : ∀ q, live (s.proc q).state = true → live (s'.proc q).state = true := by
    intro q hq
    rcases hproc q with hq' | ⟨-, -, hq'⟩
    · rwa [hq']
    · rw [hq']
      rfl
  have hsleeps := fun q (hq : WaiterSleeps s' q) => waiterSleeps_of_advance hs' (by simp) (by simp) hq
  -- whoever sleeps on `c` at place `j` is awake now
  have hmiss : ∀ q, WaiterSleeps s' q → c = .proc q → q.val ≠ j := by
    rintro q hq rfl hqj
    obtain ⟨hst, addr, haddr⟩ := hsleeps q hq
    obtain rfl : q = i := Fin.ext (hqj.trans hi.symm)
    obtain ⟨k', c', hk', hc', hon⟩ := ht.asleep q hst
    rw [haddr] at hk'
    obtain rfl := Pc.asleep.inj hk'
    have hqp : q ≠ p := by
      rintro rfl
      rw [hr] at hst
      cases hst
    have hc : (s.table.proc q).chan = some (.proc q) := by
      rw [show (s.table.proc q).chan = some c' from hc']
      exact congrArg some (by simpa [sleepsOn] using hon)
    have hq := hq.1
    rw [hs', advance_proc] at hq
    simp only [apply] at hq
    rw [if_pos ⟨hqp, hst, hc⟩, setProc_proc, if_pos rfl] at hq
    cases hq
  rw [← hs']
  refine h.own_advance hs' (by simp) hother (fun _ => h.lock p hholds) (hlive _ h.init_live)
    (fun he => h.ne_init (by rw [hpc]; exact he)) (fun d q hd => ?_) (fun d hd => ?_)
    below_zero (fun q hq => ?_) fun q d hq hd hzd => ?_
  · rw [hparent] at hd
    exact hlive q (h.parent d q hd)
  · rw [hparent]
    apply h.reparented p d
    rw [hpc]
    exact hd
  · rw [hparent] at hq
    cases k with
    | exitZombie status =>
      have hnot := h.notifies p q hq
      rw [hpc] at hnot
      intro hqs
      obtain ⟨hc, hle⟩ := hnot (hsleeps q hqs)
      have := hmiss q hqs hc
      exact ⟨hc, by omega⟩
    | _ => trivial
  · rw [hparent] at hd
    have hw := h.wakes hother (hsleeps q hq) hd (hzombie d hzd)
    rw [hpc] at hw
    have := hmiss q hq hw.1
    have := hw.2.1
    exact ⟨hw.1, by omega, hk⟩

theorem forkParent (ht : Threads s) (hr : (s.proc p).state = .running) {np : Slot}
    {pid : ℤ} (hpc : s.pc p = .forkParent np pid) (hfree : s.shared.waitLock = none) :
    WaitInv (s.advance p (.forkRunnable np pid, s.shared, .parent np)) := by
  have hother : ∀ q, q ≠ p → (s.pc q).holdsWait = false := fun q _ => h.free hfree q
  obtain ⟨s', hs'⟩ : ∃ s', s' = s.advance p (.forkRunnable np pid, s.shared, .parent np) := ⟨_, rfl⟩
  have hstate := setParent_proc (s := s) (show s'.table = _ by rw [hs']; rfl)
  rw [← hs']
  refine h.own_advance hs' nofun hother nofun ?_ nofun (fun d q hd => ?_)
    below_zero below_zero (fun q _ => trivial) fun q d hq hd hzd => ?_
  · rw [(hstate _).1]
    exact h.init_live
  · rw [(hstate q).1]
    rcases (hstate d).2 with ⟨heq, -⟩ | ⟨-, heq⟩
    · rw [heq] at hd
      exact h.parent d q hd
    · rw [heq] at hd
      cases hd
      rw [hr]
      rfl
  · rw [(hstate d).1] at hzd
    rcases (hstate d).2 with ⟨heq, -⟩ | ⟨rfl, -⟩
    · rw [heq] at hd
      have := h.wakes hother (waiterSleeps_of_advance hs' nofun nofun hq) hd hzd
      rw [hpc] at this
      exact this.elim
    · rw [ht.child p d (by rw [hpc]; rfl)] at hzd
      cases hzd

theorem scanLoop (hr : (s.proc p).state = .running) (hpc : s.pc p = .waitScan addr j havekids) :
    WaitInv (s.advance p (scanLoop s.table s.shared p addr j havekids fault)) := by
  have hholds : (s.pc p).holdsWait = true := by rw [hpc]; rfl
  have hw : ∀ q, ¬ (s.pc p).WakesParent q := by rw [hpc]; exact fun _ => id
  simp only [Sync.scanLoop]
  split
  · next hj =>
    split
    · exact h.release hr hholds hw rfl rfl
    · refine h.own_none hr (fun q => h.alone hholds) (fun _ => h.lock p hholds) (fun h => by cases h)
        below_zero (fun d _ hdp => ?_) (fun _ _ => trivial)
        fun q _ hq => absurd hq (hw q)
      refine h.scanned p d ?_ hdp
      rw [hpc]
      exact slot?_eq_none hj d
  · next c hc =>
    split
    · split
      · next hz =>
        split
        · exact h.release hr hholds hw rfl rfl
        · exact h.reap hpc hz
      · next hz => exact h.scan hr hpc hc fun _ => hz
    · next hp => exact h.scan hr hpc hc fun hcp => absurd hcp hp

theorem go (ht : Threads s) (hr : (s.proc p).state = .running)
    (hn : next s.table s.shared p fault (s.pc p) = some n) : WaitInv (s.advance p n) := by
  by_cases hk : (s.pc p).holdsWait = true
  · obtain ⟨k, hpc⟩ : ∃ k, s.pc p = k := ⟨_, rfl⟩
    rw [hpc] at hn hk
    have hholds : (s.pc p).holdsWait = true := by rwa [hpc]
    have hreparented := h.reparented p
    have hnotifies := h.notifies p
    rw [hpc] at hreparented hnotifies
    cases k with
    | wakeup c j k =>
      simp only [next] at hn
      split at hn
      · next hj =>
        cases hn
        refine h.own_none hr (fun q => h.alone hholds) (fun _ => h.lock p hholds) (fun he => ?_)
          hreparented (fun d hd => ?_) (fun q hq => ?_) fun q _ hq => ?_
        · rw [hpc]
          exact he
        · have hf := ht.ok p
          rw [hpc] at hf
          cases k <;> first | exact absurd hd (Nat.not_lt_zero _) | cases hf
        · cases k with
          | exitZombie status =>
            intro hqs
            have := (hnotifies q hq hqs).2
            have := slot?_eq_none hj q
            omega
          | wakeup c j k =>
            have hf := ht.ok p
            rw [hpc] at hf
            cases hf
          | _ => trivial
        · rw [hpc] at hq
          have := slot?_eq_none hj q
          have := hq.2.1
          omega
      · next i hi =>
        cases hn
        exact h.wake ht hr hpc hk (slot?_eq_some hi)
    | exitReparent status j =>
      simp only [next] at hn
      split at hn
      · next hj =>
        have hall : ∀ c, (s.proc c).parent ≠ some p := fun c => hreparented c (slot?_eq_none hj c)
        split at hn
        · next hnone =>
          cases hn
          refine h.own_none hr (fun q => h.alone hholds) (fun _ => h.lock p hholds)
            (fun _ => by rw [hpc]; rfl) (fun c _ => hall c) below_zero
            (fun q hq => ?_) fun q _ hq => ?_
          · rw [show (s.proc p).parent = none from hnone] at hq
            cases hq
          · rw [hpc] at hq
            exact hq.elim
        · next q hq =>
          cases hn
          refine h.own_none hr (fun q => h.alone hholds) (fun _ => h.lock p hholds)
            (fun _ => by rw [hpc]; rfl) (fun c _ => hall c) below_zero
            (fun r hr' => ?_) fun r _ hr' => ?_
          · rw [show (s.proc p).parent = some q from hq] at hr'
            cases hr'
            exact fun _ => ⟨rfl, Nat.zero_le _⟩
          · rw [hpc] at hr'
            exact hr'.elim
      · next i hi =>
        split at hn
        · cases hn
          exact h.reparent hpc (slot?_eq_some hi)
        · next hp =>
          cases hn
          refine h.own_none hr (fun q => h.alone hholds) (fun _ => h.lock p hholds)
            (fun _ => by rw [hpc]; rfl) (fun c hc => ?_) below_zero
            (fun _ _ => trivial) fun q _ hq => ?_
          · rcases Nat.lt_or_ge c.val j with hlt | hge
            · exact hreparented c hlt
            · have hc : c.val < j + 1 := hc
              obtain rfl : c = i := Fin.ext (by have := slot?_eq_some hi; omega)
              exact hp
          · rw [hpc] at hq
            exact hq.elim
    | exitZombie status =>
      cases hn
      exact h.zombie hpc
    | waitScan addr j havekids =>
      cases hn
      exact h.scanLoop hr hpc
    | waitSleep addr =>
      cases hn
      exact h.sleep hpc
    | _ => cases hk
  · have hk : (s.pc p).holdsWait = false := by simpa using hk
    by_cases ha : (s.pc p).takesWait = true
    · obtain ⟨k, hpc⟩ : ∃ k, s.pc p = k := ⟨_, rfl⟩
      rw [hpc] at hn ha
      cases k with
      | exitAcquire status =>
        simp only [next] at hn
        split at hn
        · next hfree =>
          cases hn
          refine h.own_none hr (fun q _ => h.free hfree q) (fun _ => rfl) (fun _ => by rw [hpc]; rfl)
            below_zero below_zero (fun _ _ => trivial) fun q _ hq => ?_
          rw [hpc] at hq
          exact hq.elim
        · cases hn
      | waitAcquire addr =>
        simp only [next] at hn
        split at hn
        · next hfree =>
          cases hn
          refine h.own_none hr (fun q _ => h.free hfree q) (fun _ => rfl)
            (fun h => by cases h) below_zero below_zero
            (fun _ _ => trivial) fun q _ hq => ?_
          rw [hpc] at hq
          exact hq.elim
        · cases hn
      | forkParent np pid =>
        simp only [next] at hn
        split at hn
        · next hfree =>
          cases hn
          exact h.forkParent ht hr hpc hfree
        · cases hn
      | _ => cases ha
    · exact h.outside ht hr hn hk (by simpa using ha)

theorem of_awake (hlock : s'.shared.waitLock = s.shared.waitLock)
    (hinit : s'.table.initproc = s.table.initproc) (hpc : s'.pc = s.pc)
    (hproc : ∀ q, s'.proc q = s.proc q ∨ live (s.proc q).state = true ∧
      ∃ x, s'.proc q = { s.proc q with state := x } ∧ (x = .runnable ∨ x = .running)) : WaitInv s' := by
  refine h.frame hlock hinit (fun q => .inl (by rw [hpc])) (by rw [hpc]; exact h.init_stays)
    (fun c q hc => ?_) (fun c hz => ?_) (fun q hq => ?_) fun q _ hs => ?_
  · rcases hproc c with heq | ⟨-, x, heq, -⟩ <;> rwa [heq] at hc
  · rcases hproc c with heq | ⟨-, x, heq, hx⟩
    · rwa [heq] at hz
    · rw [heq] at hz
      rcases hx with rfl | rfl <;> cases hz
  · rcases hproc q with heq | ⟨-, x, heq, hx⟩
    · rwa [heq]
    · rw [heq]
      rcases hx with rfl | rfl <;> rfl
  · rcases hproc q with heq | ⟨-, x, heq, hx⟩
    · rwa [heq] at hs
    · rw [heq] at hs
      rcases hx with rfl | rfl <;> cases hs

theorem step (ht : Threads s) (hs : Step s a s') : WaitInv s' := by
  cases hs.kind with
  | go hr hn => exact h.go ht hr hn
  | @call p r k hpc hr hk hinit =>
    have hentry : k.holdsWait = false ∧ (k.exits = true → k.isExit = true) := by
      cases k with
      | wakeup c j k =>
        cases c with
        | other a =>
          cases k <;> first
            | exact ⟨rfl, fun he => Bool.noConfusion he⟩
            | (cases j <;> cases hk)
        | _ => cases hk
      | exitAcquire status => exact ⟨rfl, fun _ => rfl⟩
      | _ => first | exact ⟨rfl, fun he => Bool.noConfusion he⟩ | cases hk
    refine h.frame rfl rfl (fun q => ?_) ?_ (fun _ _ => id) (fun _ => id) (fun _ => id) fun _ _ => id
    · rw [goto_pc]
      split
      · next hq =>
        subst hq
        refine .inr ⟨by rw [hpc]; rfl, hentry.1, ?_⟩
        rintro ⟨hst, -⟩
        rw [show (s.goto q k).proc q = s.proc q from rfl, hr] at hst
        cases hst
      · exact .inl rfl
    · rw [goto_pc]
      split
      · next hip =>
        by_contra he
        exact hinit ⟨hentry.2 (by simpa using he), hip.symm⟩
      · exact h.init_stays
  | quiet hq => exact h.of_awake hq.waitLock (by rw [hq.table]) hq.pc hq.proc

omit h in
theorem initial : WaitInv .initial := by
  have hpc : ∀ q, State.initial.pc q = .user 0 ∨ State.initial.pc q = .dead := by
    intro q
    simp only [State.initial]
    split
    · exact .inl rfl
    · exact .inr rfl
  have hparent : ∀ q, (State.initial.proc q).parent = none := by
    intro q
    simp only [State.initial, State.proc]
    split <;> rfl
  refine ⟨fun p hp => ?_, rfl, rfl, fun c q hc => ?_, fun p c hc => ?_, fun p c hc => ?_,
    fun p q hp => ?_, fun q c hq hc => ?_⟩
  · rcases hpc p with h | h <;> rw [h] at hp <;> cases hp
  · rw [hparent] at hc
    cases hc
  · rw [hparent]
    simp
  · rcases hpc p with h | h <;> rw [h] at hc <;> exact absurd hc (Nat.not_lt_zero _)
  · rw [hparent] at hp
    cases hp
  · rw [hparent] at hc
    cases hc

end WaitInv

theorem threads_of_reachable (h : machine.Reachable s) : Threads s :=
  h.invariant Threads (fun _ hs => by rw [hs]; exact Threads.initial)
    fun _ _ _ ht hstep => ht.step (step_cases hstep)

theorem waitInv_of_reachable (h : machine.Reachable s) : WaitInv s := by
  have hboth : Threads s ∧ WaitInv s := by
    refine h.invariant (fun s => Threads s ∧ WaitInv s) (fun _ hs => ?_) ?_
    · rw [hs]
      exact ⟨Threads.initial, WaitInv.initial⟩
    · rintro s a s' ⟨ht, hw⟩ hstep
      have hstep := step_cases hstep
      exact ⟨ht.step hstep, hw.step ht hstep⟩
  exact hboth.2

/-- **No lost wakeup, no dangling parent.** In every reachable state in which `wait_lock` is free, a
process that sleeps in `wait` has no ZOMBIE child, and the parent of a process that is in use is neither
a ZOMBIE nor UNUSED. -/
theorem wait_wakeup (h : machine.Reachable s) (hfree : s.shared.waitLock = none) :
    (∀ q c, WaiterSleeps s q → (s.proc c).parent = some q → (s.proc c).state ≠ .zombie) ∧
      ∀ c q, (s.proc c).state ≠ .unused → (s.proc c).parent = some q →
        (s.proc q).state ≠ .zombie ∧ (s.proc q).state ≠ .unused := by
  have hw := waitInv_of_reachable h
  refine ⟨fun q c hq hc hz => ?_, fun c q _ hc => ?_⟩
  · obtain ⟨o, ho⟩ := hw.sleepers q c hq hc hz
    have := ho.holds
    rw [hw.free hfree o] at this
    cases this
  · have hl := hw.parent c q hc
    constructor <;> intro hst <;> rw [hst] at hl <;> cases hl

/-- `init` forks process 1 and sleeps in `wait`; process 1 exits as far as waking `init`. -/
def waitRun : List Act := List.flatten
  [[.schedule 0, .call 0 (.forkScan 0)], steps 0 4, [.call 0 (.waitAcquire true)], steps 0 67,
    [.schedule 1, .call 1 (.exitAcquire 7)], steps 1 132]

theorem wait_wakeup_small :
    ∃ s, machine.run .initial waitRun = some s ∧ s.shared.waitLock = none ∧
      (s.proc 1).state = .zombie ∧ (s.proc 1).parent = some 0 ∧ ¬ WaiterSleeps s 0 := by
  have hrun : ∃ s ∈ machine.run .initial waitRun, s.shared.waitLock = none ∧
      (s.proc 1).state = .zombie ∧ (s.proc 1).parent = some 0 := by decide +kernel
  obtain ⟨s, hs, hfree, hz, hp⟩ := hrun
  have hs := Option.mem_def.mp hs
  have hreach : machine.Reachable s := (Machine.Reachable.init rfl).of_run _ hs
  exact ⟨s, hs, hfree, hz, hp, fun hq => (wait_wakeup hreach hfree).1 0 1 hq hp hz⟩

end Xv6.Sync
