import Xv6.Proc.Alloc

/-!
# Process identifiers are unique

A slot that `fork` is making belongs to one process, which holds its lock until the slot has all it needs.
Free slots have been reset by `freeproc`, whichever way they became free, and as long as `nextpid` does not
overflow every pid is given out once.
-/

namespace Xv6.ProcAlloc

open Lib Option

/-- Does `fork` hold the lock of the new slot? -/
def Stage.locked : Stage → Bool
  | parent | runnable => false
  | _ => true

/-- Is the new slot `USED`? -/
def Stage.used : Stage → Bool
  | trapframe | pagetable | copy | unlock | parent | runnable => true
  | _ => false

/-- Does `fork` hold `pid_lock`? -/
def Stage.pidLocked : Stage → Bool
  | readPid | bumpPid _ => true
  | _ => false

theorem Stage.not_pidLocked {k : Stage} (h : k.used = true) : k.pidLocked = false := by
  cases k <;> first | rfl | exact absurd h nofun

/-- The fields that `freeproc` resets, other than the pid. -/
structure Tidy (x : Proc) : Prop where
  parent : x.parent = none
  sz : x.sz = 0
  pagetable : x.pagetable = none
  trapframe : x.trapframe = none

theorem tidy_free : Tidy .free := ⟨rfl, rfl, rfl, rfl⟩

/-- The invariant. -/
structure Inv (s : State) : Prop where
  nextpid : s.nextpid = s.calls + 1
  pid : ∀ i, 0 ≤ (s.proc i).pid ∧ (s.proc i).pid ≤ s.calls
  inj : ∀ i j, (s.proc i).pid ≠ 0 → (s.proc i).pid = (s.proc j).pid → i = j
  live : ∀ i, (s.proc i).state ≠ .unused → (s.proc i).pid ≠ 0
  free : ∀ i, (s.proc i).state = .unused →
    Tidy (s.proc i) ∧ ((s.proc i).pid = 0 ∨ ∃ p, s.pc p = .fork i .setUsed)
  making : ∀ p np k, s.pc p = .fork np k → (k.locked = true → s.lock np = some p) ∧
    (s.proc np).state = if k.used then .used else .unused
  one : ∀ p q np k k', s.pc p = .fork np k → s.pc q = .fork np k' → p = q
  pidLock : ∀ p np k, s.pc p = .fork np k → k.pidLocked = true → s.pidLock = some p
  read : ∀ p np pid, s.pc p = .fork np (.bumpPid pid) → pid = s.nextpid
  set : ∀ p np, s.pc p = .fork np .setUsed → (s.proc np).pid ≠ 0
  pending : ∀ p np pid, s.pc p = .fork np (.setPid pid) → 0 < pid ∧ pid ≤ s.calls ∧
    (∀ i, (s.proc i).pid ≠ pid) ∧ ∀ q np', s.pc q = .fork np' (.setPid pid) → q = p

variable {s s' : State} {p np : Slot} {k : Stage} {x y : Pc}

theorem pc_assign {q : Slot} (h : assign s.pc p x q = y) :
    (q = p ∧ x = y) ∨ (q ≠ p ∧ s.pc q = y) := assign_cases (φ := fun z => z = y) h

theorem Inv.frame (h : Inv s) (hnext : s'.nextpid = s.nextpid) (hcalls : s'.calls = s.calls)
    (hlock : s'.lock = s.lock) (hpidLock : s'.pidLock = s.pidLock)
    (hpc : ∀ q np k, s'.pc q = .fork np k ↔ s.pc q = .fork np k)
    (hproc : ∀ i, (s'.proc i).pid = (s.proc i).pid ∧
      ((s'.proc i).state = .unused ↔ (s.proc i).state = .unused) ∧
      ((s'.proc i).state = .used ↔ (s.proc i).state = .used) ∧
      ((s.proc i).state = .unused → Tidy (s.proc i) → Tidy (s'.proc i))) : Inv s' := by
  refine ⟨by rw [hnext, hcalls]; exact h.nextpid, fun i => ?_, fun i j hi hij => ?_, fun i hi => ?_,
    fun i hi => ?_, fun p np k hp => ?_, fun p q np k k' hp hq => ?_, fun p np k hp => ?_,
    fun p np pid hp => ?_, fun p np hp => ?_, fun p np pid hp => ?_⟩
  · rw [(hproc i).1, hcalls]
    exact h.pid i
  · rw [(hproc i).1] at hi hij
    rw [(hproc j).1] at hij
    exact h.inj i j hi hij
  · rw [(hproc i).1]
    exact h.live i fun hu => hi ((hproc i).2.1.mpr hu)
  · have hu := (hproc i).2.1.mp hi
    obtain ⟨htidy, hpid⟩ := h.free i hu
    refine ⟨(hproc i).2.2.2 hu htidy, ?_⟩
    rw [(hproc i).1]
    rcases hpid with hpid | ⟨p, hp⟩
    · exact .inl hpid
    · exact .inr ⟨p, (hpc p i .setUsed).mpr hp⟩
  · obtain ⟨h1, h2⟩ := h.making p np k ((hpc p np k).mp hp)
    rw [hlock]
    refine ⟨h1, ?_⟩
    by_cases hk : k.used = true
    · rw [if_pos hk] at h2 ⊢
      exact (hproc np).2.2.1.mpr h2
    · rw [if_neg hk] at h2 ⊢
      exact (hproc np).2.1.mpr h2
  · exact h.one p q np k k' ((hpc p np k).mp hp) ((hpc q np k').mp hq)
  · rw [hpidLock]
    exact h.pidLock p np k ((hpc p np k).mp hp)
  · rw [hnext]
    exact h.read p np pid ((hpc p np _).mp hp)
  · rw [(hproc np).1]
    exact h.set p np ((hpc p np _).mp hp)
  · obtain ⟨h1, h2, h3, h4⟩ := h.pending p np pid ((hpc p np _).mp hp)
    refine ⟨h1, by rw [hcalls]; exact h2, fun i => ?_, fun q np' hq => h4 q np' ((hpc q np' _).mp hq)⟩
    rw [(hproc i).1]
    exact h3 i

/-- The program point is not in `fork`, past the scan. -/
def Pc.Plain (x : Pc) : Prop := ∀ np k, x ≠ .fork np k

theorem Inv.goto (h : Inv s) (hp : (s.pc p).Plain) (hx : x.Plain) : Inv (s.goto p x) := by
  refine h.frame rfl rfl rfl rfl (fun q np k => ⟨fun hq => ?_, fun hq => ?_⟩)
    fun i => ⟨rfl, .rfl, .rfl, fun _ => id⟩
  · rcases pc_assign hq with ⟨-, heq⟩ | ⟨-, heq⟩
    · exact absurd heq (hx np k)
    · exact heq
  · change assign s.pc p x q = _
    rw [assign, if_neg]
    · exact hq
    · rintro rfl
      exact hp np k hq

variable {i : Slot}

theorem Inv.setProc (h : Inv s) {x : Proc} (hpid : x.pid = (s.proc i).pid)
    (hunused : x.state = .unused ↔ (s.proc i).state = .unused)
    (hused : x.state = .used ↔ (s.proc i).state = .used)
    (htidy : (s.proc i).state = .unused → Tidy (s.proc i) → Tidy x) : Inv (s.setProc i x) := by
  refine h.frame rfl rfl rfl rfl (fun _ _ _ => .rfl) fun j => ?_
  change (assign s.proc i x j).pid = _ ∧ ((assign s.proc i x j).state = _ ↔ _) ∧
    ((assign s.proc i x j).state = _ ↔ _) ∧ (_ → _ → Tidy (assign s.proc i x j))
  rw [assign]
  split
  · next hj =>
    subst hj
    exact ⟨hpid, hunused, hused, htidy⟩
  · exact ⟨rfl, .rfl, .rfl, fun _ => id⟩

variable {l : Slot → Option Slot} {o : Option Slot}

/-- Process `p` goes on to `y`, with the locks `l` and `o` and with `x` in slot `np`, the only one it may be
making. -/
structure Makes (s : State) (p np : Slot) (x : Proc) (y : Pc) (l : Slot → Option Slot)
    (o : Option Slot) : Prop where
  live : x.state ≠ .unused → x.pid ≠ 0
  free : x.state = .unused → Tidy x ∧ (x.pid = 0 ∨ y = .fork np .setUsed)
  making : ∀ np' k', y = .fork np' k' → np' = np ∧ (k'.locked = true → l np = some p) ∧
    (x.state = if k'.used then .used else .unused) ∧ (k'.pidLocked = true → o = some p) ∧
    (∀ pid, k' = .bumpPid pid → pid = s.nextpid) ∧ (k' = .setUsed → x.pid ≠ 0) ∧
    ∀ pid, k' ≠ .setPid pid
  lock : ∀ i, i ≠ np → l i = s.lock i
  pidLock : ∀ q, q ≠ p → s.pidLock = some q → o = some q

theorem Inv.put (h : Inv s) {x : Proc} (hmine : ∀ np' k', s.pc p = .fork np' k' → np' = np)
    (hother : ∀ {q np' k'}, q ≠ p → s.pc q = .fork np' k' → np' ≠ np)
    (hbound : 0 ≤ x.pid ∧ x.pid ≤ s.calls) (hnew : x.pid ≠ 0 → ∀ i, i ≠ np → x.pid ≠ (s.proc i).pid)
    (hset : ∀ q np', q ≠ p → s.pc q ≠ .fork np' (.setPid x.pid)) (hm : Makes s p np x y l o) :
    Inv { s with proc := assign s.proc np x, pc := assign s.pc p y, lock := l, pidLock := o } := by
  obtain ⟨hlive, hfree, hy, hl, ho⟩ := hm
  refine ⟨h.nextpid, fun i => ?_, fun i j hi hij => ?_, fun i hi => ?_, fun i hi => ?_,
    fun q np' k' hq => ?_, fun q r np' k' k'' hq hr => ?_, fun q np' k' hq hk => ?_,
    fun q np' pid hq => ?_, fun q np' hq => ?_, fun q np' pid hq => ?_⟩
  · change 0 ≤ (assign s.proc np x i).pid ∧ (assign s.proc np x i).pid ≤ s.calls
    rw [assign]
    split
    · exact hbound
    · exact h.pid i
  · change (assign s.proc np x i).pid ≠ 0 at hi
    change (assign s.proc np x i).pid = (assign s.proc np x j).pid at hij
    by_cases h1 : i = np <;> by_cases h2 : j = np
    · rw [h1, h2]
    · rw [h1, assign, if_pos rfl] at hi hij
      rw [assign, if_neg h2] at hij
      exact absurd hij (hnew hi j h2)
    · rw [assign, if_neg h1] at hi hij
      rw [h2, assign, if_pos rfl] at hij
      rw [hij] at hi
      exact absurd hij.symm (hnew hi i h1)
    · rw [assign, if_neg h1] at hi hij
      rw [assign, if_neg h2] at hij
      exact h.inj i j hi hij
  · change (assign s.proc np x i).state ≠ .unused at hi
    change (assign s.proc np x i).pid ≠ 0
    rw [assign] at hi ⊢
    split at hi
    · next heq =>
      rw [if_pos heq]
      exact hlive hi
    · next heq =>
      rw [if_neg heq]
      exact h.live i hi
  · change (assign s.proc np x i).state = .unused at hi
    change Tidy (assign s.proc np x i) ∧ ((assign s.proc np x i).pid = 0 ∨ ∃ q, assign s.pc p y q = _)
    rw [assign] at hi ⊢
    split at hi
    · next heq =>
      rw [if_pos heq]
      obtain ⟨htidy, hz⟩ := hfree hi
      refine ⟨htidy, hz.imp_right fun hused => ⟨p, ?_⟩⟩
      rw [assign, if_pos rfl, heq, hused]
    · next heq =>
      rw [if_neg heq]
      obtain ⟨htidy, hz⟩ := h.free i hi
      refine ⟨htidy, hz.imp_right ?_⟩
      rintro ⟨q, hq⟩
      refine ⟨q, ?_⟩
      rw [assign, if_neg]
      · exact hq
      · rintro rfl
        exact heq (hmine _ _ hq)
  · change (_ → l np' = some q) ∧ (assign s.proc np x np').state = _
    rcases pc_assign hq with ⟨rfl, heq⟩ | ⟨hne, heq⟩
    · obtain ⟨rfl, h1, h2, -⟩ := hy np' k' heq
      rw [assign, if_pos rfl]
      exact ⟨h1, h2⟩
    · have hnp := hother hne heq
      rw [hl np' hnp, assign, if_neg hnp]
      exact h.making q np' k' heq
  · rcases pc_assign hq with ⟨hqp, hq'⟩ | ⟨hqp, hq'⟩ <;> rcases pc_assign hr with ⟨hrp, hr'⟩ | ⟨hrp, hr'⟩
    · rw [hqp, hrp]
    · exact absurd (hy np' k' hq').1 (hother hrp hr')
    · exact absurd (hy np' k'' hr').1 (hother hqp hq')
    · exact h.one q r np' k' k'' hq' hr'
  · rcases pc_assign hq with ⟨rfl, heq⟩ | ⟨hne, heq⟩
    · exact (hy np' k' heq).2.2.2.1 hk
    · exact ho q hne (h.pidLock q np' k' heq hk)
  · rcases pc_assign hq with ⟨rfl, heq⟩ | ⟨hne, heq⟩
    · exact (hy np' _ heq).2.2.2.2.1 pid rfl
    · exact h.read q np' pid heq
  · change (assign s.proc np x np').pid ≠ 0
    rcases pc_assign hq with ⟨rfl, heq⟩ | ⟨hne, heq⟩
    · obtain ⟨rfl, -, -, -, -, hpid, -⟩ := hy np' _ heq
      rw [assign, if_pos rfl]
      exact hpid rfl
    · rw [assign, if_neg (hother hne heq)]
      exact h.set q np' heq
  · rcases pc_assign hq with ⟨rfl, heq⟩ | ⟨hne, heq⟩
    · exact absurd rfl ((hy np' _ heq).2.2.2.2.2.2 pid)
    · obtain ⟨h1, h2, h3, h4⟩ := h.pending q np' pid heq
      refine ⟨h1, h2, fun i => ?_, fun r np'' hr => ?_⟩
      · change (assign s.proc np x i).pid ≠ pid
        rw [assign]
        split
        · rintro rfl
          exact hset q np' hne heq
        · exact h3 i
      · rcases pc_assign hr with ⟨rfl, heq'⟩ | ⟨-, heq'⟩
        · exact absurd rfl ((hy np'' _ heq').2.2.2.2.2.2 pid)
        · exact h4 r np'' heq'

theorem Inv.update (h : Inv s) (hp : s.pc p = .fork np k) {x : Proc}
    (hpid : x.pid = (s.proc np).pid ∨ x.pid = 0 ∨ k = .setPid x.pid) (hm : Makes s p np x y l o) :
    Inv { s with proc := assign s.proc np x, pc := assign s.pc p y, lock := l, pidLock := o } := by
  have hpend : k = .setPid x.pid → 0 < x.pid ∧ x.pid ≤ s.calls ∧ (∀ i, (s.proc i).pid ≠ x.pid) ∧
      ∀ q np', s.pc q = .fork np' (.setPid x.pid) → q = p :=
    fun hset => h.pending p np x.pid (hset ▸ hp)
  refine h.put (fun np' k' hq => ?_) ?_ ?_ (fun hne i hi heq => ?_) (fun q np' hq hpc => ?_) hm
  · rw [hp] at hq
    exact (Pc.fork.inj hq).1.symm
  · rintro q np' k' hq hpc rfl
    exact hq (h.one q p _ _ _ hpc hp)
  · rcases hpid with hold | hzero | hset
    · rw [hold]
      exact h.pid np
    · rw [hzero]
      omega
    · have := hpend hset
      omega
  · -- the pid of the slot is its old one, none or one that nobody else has
    rcases hpid with hold | hzero | hset
    · rw [hold] at hne heq
      exact hi (h.inj np i hne heq).symm
    · exact hne hzero
    · exact (hpend hset).2.2.1 i heq.symm
  · obtain ⟨h1, -, h3, -⟩ := h.pending q np' x.pid hpc
    rcases hpid with hold | hzero | hset
    · exact h3 np hold.symm
    · omega
    · exact hq ((hpend hset).2.2.2 q np' hpc)

theorem Inv.found (h : Inv s) (hp : (s.pc p).Plain) (hi : (s.proc i).state = .unused)
    (hlock : s.lock i = none) : Inv ((s.setLock i (some p)).goto p (.fork i .allocpid)) := by
  -- nobody else makes this slot, for the lock is free
  have hfree : ∀ q k, s.pc q ≠ .fork i k := by
    intro q k hq
    obtain ⟨h1, h2⟩ := h.making q i k hq
    rw [hi] at h2
    cases hk : k.used with
    | true =>
      rw [hk] at h2
      cases h2
    | false =>
      have hl : k.locked = true := by
        cases k <;> first | rfl | exact absurd hk nofun
      rw [h1 hl] at hlock
      cases hlock
  have hself : assign s.proc i (s.proc i) = s.proc := by
    rw [assign_eq_update, Function.update_eq_self]
  have hinv := h.put (p := p) (x := s.proc i) (y := .fork i .allocpid) (l := assign s.lock i (some p))
    (o := s.pidLock) (fun np' k hq => absurd hq (hp np' k)) ?_ (h.pid i)
    (fun hne j hj heq => hj (h.inj i j hne heq).symm)
    (fun q np' _ hq => (h.pending q np' _ hq).2.2.1 i rfl) ⟨h.live i, fun hu => ?_, fun np' k' heq => ?_,
    fun j hj => if_neg hj, fun _ _ ho => ho⟩
  · rw [hself] at hinv
    exact hinv
  · rintro q np' k' - hq rfl
    exact hfree q k' hq
  · obtain ⟨htidy, hz⟩ := h.free i hu
    exact ⟨htidy, .inl (hz.resolve_right fun ⟨q, hq⟩ => hfree q _ hq)⟩
  · obtain ⟨rfl, rfl⟩ := Pc.fork.inj heq
    exact ⟨rfl, fun _ => if_pos rfl, hi, nofun, nofun, nofun, nofun⟩

theorem Inv.bumpPid (h : Inv s) {pid : ℤ} (hp : s.pc p = .fork np (.bumpPid pid))
    (hcalls : s.calls + 1 < 2 ^ 31 - 1) : Inv { s.goto p (.fork np (.setPid pid)) with
      nextpid := Int.bmod (s.nextpid + 1) (2 ^ 32)
      calls := s.calls + 1
      pidLock := none } := by
  have hpidp : pid = s.calls + 1 := (h.read p np pid hp).trans h.nextpid
  have hmine : s.pidLock = some p := h.pidLock p np _ hp rfl
  have halone : ∀ q np' k', q ≠ p → s.pc q = .fork np' k' → k'.pidLocked = true → False := by
    intro q np' k' hq hpc hk
    have hother := h.pidLock q np' k' hpc hk
    rw [hmine] at hother
    exact hq (some.inj hother).symm
  have hbmod : Int.bmod (s.nextpid + 1) (2 ^ 32) = s.calls + 1 + 1 := by
    rw [h.nextpid, Int.bmod_eq_of_le]
    · have := hcalls
      omega
    · omega
  refine ⟨?_, fun i => ?_, h.inj, h.live, fun i hi => ?_, fun q np' k' hq => ?_,
    fun q r np' k k' hq hr => ?_, fun q np' k' hq hk => ?_, fun q np' pid' hq => ?_,
    fun q np' hq => ?_, fun q np' pid' hq => ?_⟩
  · rw [hbmod]
    push_cast
    rfl
  · have hi := h.pid i
    change 0 ≤ (s.proc i).pid ∧ (s.proc i).pid ≤ ((s.calls + 1 : ℕ) : ℤ)
    push_cast
    omega
  · obtain ⟨htidy, hz⟩ := h.free i hi
    refine ⟨htidy, hz.imp_right fun ⟨q, hq⟩ => ⟨q, ?_⟩⟩
    change assign s.pc p _ q = _
    rw [assign, if_neg]
    · exact hq
    · rintro rfl
      rw [hp] at hq
      cases (Pc.fork.inj hq).2
  · rcases pc_assign hq with ⟨rfl, heq⟩ | ⟨-, heq⟩
    · obtain ⟨rfl, rfl⟩ := Pc.fork.inj heq
      obtain ⟨h1, h2⟩ := h.making q _ _ hp
      exact ⟨fun _ => h1 rfl, h2⟩
    · exact h.making q np' k' heq
  · rcases pc_assign hq with ⟨hqp, hq'⟩ | ⟨hqp, hq'⟩ <;> rcases pc_assign hr with ⟨hrp, hr'⟩ | ⟨hrp, hr'⟩
    · rw [hqp, hrp]
    · obtain ⟨rfl, -⟩ := Pc.fork.inj hq'
      exact absurd (h.one r p _ _ _ hr' hp) hrp
    · obtain ⟨rfl, -⟩ := Pc.fork.inj hr'
      exact absurd (h.one q p _ _ _ hq' hp) hqp
    · exact h.one q r np' k k' hq' hr'
  · rcases pc_assign hq with ⟨rfl, heq⟩ | ⟨hne, heq⟩
    · obtain ⟨rfl, rfl⟩ := Pc.fork.inj heq
      cases hk
    · exact (halone q np' k' hne heq hk).elim
  · rcases pc_assign hq with ⟨rfl, heq⟩ | ⟨hne, heq⟩
    · cases (Pc.fork.inj heq).2
    · exact (halone q np' _ hne heq rfl).elim
  · rcases pc_assign hq with ⟨rfl, heq⟩ | ⟨hne, heq⟩
    · cases (Pc.fork.inj heq).2
    · exact h.set q np' heq
  · have hold : ∀ r np'', r ≠ p → s.pc r ≠ .fork np'' (.setPid pid) := by
      intro r np'' _ hr
      have hr' := (h.pending r np'' pid hr).2.1
      omega
    rcases pc_assign hq with ⟨rfl, heq⟩ | ⟨hne, heq⟩
    · obtain ⟨rfl, hset⟩ := Pc.fork.inj heq
      obtain rfl := Stage.setPid.inj hset
      refine ⟨by omega, by change pid ≤ ((s.calls + 1 : ℕ) : ℤ); push_cast; omega, fun i hi => ?_,
        fun r np'' hr => ?_⟩
      · have hle := (h.pid i).2
        change (s.proc i).pid = pid at hi
        omega
      · rcases pc_assign hr with ⟨hrp, -⟩ | ⟨hrp, hr'⟩
        · exact hrp
        · exact absurd hr' (hold r np'' hrp)
    · obtain ⟨h1, h2, h3, h4⟩ := h.pending q np' pid' heq
      refine ⟨h1, by change pid' ≤ ((s.calls + 1 : ℕ) : ℤ); push_cast; omega, h3, fun r np'' hr => ?_⟩
      rcases pc_assign hr with ⟨rfl, heq'⟩ | ⟨-, heq'⟩
      · obtain ⟨-, hset⟩ := Pc.fork.inj heq'
        rw [Stage.setPid.inj hset] at hold
        exact absurd heq (hold q np' hne)
      · exact h4 r np'' heq'

variable {t : State}

theorem locked_eq (hs : s.locked i t = some s') : s.lock i = none ∧ t = s' := by
  rw [State.locked] at hs
  split at hs
  · next h => exact ⟨h, some.inj hs⟩
  · cases hs

namespace Inv

variable (h : Inv s)

include h

theorem reap (hp : (s.pc p).Plain) (hi : (s.proc i).state = .zombie) : Inv (s.setProc i .free) := by
  have hself : assign s.pc p (s.pc p) = s.pc := by
    rw [assign_eq_update, Function.update_eq_self]
  have hinv : Inv { s.setProc i .free with pc := assign s.pc p (s.pc p) } := h.put (x := .free)
    (fun np' k hq => absurd hq (hp np' k)) ?_ ⟨Int.le_refl 0, Int.natCast_nonneg _⟩
    (fun hne => absurd rfl hne) (fun q np' _ hq => absurd (h.pending q np' _ hq).1 (Int.lt_irrefl 0))
    ⟨fun hne => absurd rfl hne, fun _ => ⟨tidy_free, .inl rfl⟩,
      fun np' k' heq => absurd heq (hp np' k'), fun _ _ => rfl, fun _ _ ho => ho⟩
  · rw [hself] at hinv
    exact hinv
  · rintro q np' k - hq rfl
    have hstate := (h.making q np' k hq).2
    rw [hi] at hstate
    cases hk : k.used <;> rw [hk] at hstate <;> cases hstate

section

variable (hp : s.pc p = .fork np k)

include hp

theorem stay (hset : k ≠ .setUsed)
    (hy : ∀ np' k', y = .fork np' k' → np' = np ∧ k'.used = k.used ∧ (k'.locked = true → l np = some p) ∧
      (k'.pidLocked = true → o = some p) ∧ (∀ pid, k' = .bumpPid pid → pid = s.nextpid) ∧
      k' ≠ .setUsed ∧ ∀ pid, k' ≠ .setPid pid)
    (hl : ∀ i, i ≠ np → l i = s.lock i) (ho : ∀ q, q ≠ p → s.pidLock = some q → o = some q) :
    Inv { s with pc := assign s.pc p y, lock := l, pidLock := o } := by
  have hself : assign s.proc np (s.proc np) = s.proc := by
    rw [assign_eq_update, Function.update_eq_self]
  obtain ⟨-, hstate⟩ := h.making p np k hp
  have hinv := h.update (x := s.proc np) (y := y) hp (.inl rfl) ⟨h.live np, fun hu => ?_,
    fun np' k' heq => ?_, hl, ho⟩
  · rw [hself] at hinv
    exact hinv
  · obtain ⟨htidy, hz⟩ := h.free np hu
    refine ⟨htidy, .inl ?_⟩
    rcases hz with hz | ⟨q, hq⟩
    · exact hz
    · obtain rfl := h.one p q np _ _ hp hq
      rw [hp] at hq
      exact absurd (Pc.fork.inj hq).2 hset
  · obtain ⟨h1, h2, h3, h4, h5, h6, h7⟩ := hy np' k' heq
    rw [h2]
    exact ⟨h1, h3, hstate, h4, h5, fun hk => absurd hk h6, h7⟩

theorem fill (hk : k.used = true) {x : Proc} {k' : Stage}
    (hpid : x.pid = (s.proc np).pid) (hstate : x.state = (s.proc np).state) (hk' : k'.used = true)
    (hlock : k'.locked = true → k.locked = true) : Inv ((s.setProc np x).goto p (.fork np k')) := by
  obtain ⟨hl, hused⟩ := h.making p np k hp
  rw [if_pos hk] at hused
  have hx : x.state = .used := hstate.trans hused
  refine h.update (x := x) hp (.inl hpid) ⟨fun _ => ?_, fun hu => ?_, fun np' k'' heq => ?_,
    fun _ _ => rfl, fun _ _ ho => ho⟩
  · rw [hpid]
    exact h.live np (by rw [hused]; exact nofun)
  · rw [hx] at hu
    cases hu
  · obtain ⟨rfl, rfl⟩ := Pc.fork.inj heq
    rw [if_pos hk']
    refine ⟨rfl, fun hlk => hl (hlock hlk), hx, fun hpl => ?_, ?_, ?_, ?_⟩
    · rw [Stage.not_pidLocked hk'] at hpl
      cases hpl
    · rintro pid rfl
      cases hk'
    · rintro rfl
      cases hk'
    · rintro pid rfl
      cases hk'

theorem giveUp (hlock : k.locked = true) : Inv (s.giveUp p np) := by
  refine h.update (x := .free) hp (.inr (.inl rfl)) ⟨fun hne => absurd rfl hne,
    fun _ => ⟨tidy_free, .inl rfl⟩, fun np' k'' heq => ?_, fun _ _ => rfl, fun _ _ ho => ho⟩
  obtain ⟨rfl, rfl⟩ := Pc.fork.inj heq
  exact ⟨rfl, fun _ => (h.making p _ k hp).1 hlock, rfl, nofun, nofun, nofun, nofun⟩

variable {ptr : Option ℕ}

theorem fork (hs : s.fork p np ptr k = some s') (hcalls : s'.calls < 2 ^ 31 - 1) : Inv s' := by
  obtain ⟨hlock, hstate⟩ := h.making p np k hp
  have hkeep : ∀ q, q ≠ p → s.pidLock = some q → s.pidLock = some q := fun _ _ ho => ho
  cases k with
  | allocpid =>
    dsimp only [State.fork] at hs
    split at hs
    · next hfree =>
      cases hs
      refine h.stay hp nofun (fun np' k' heq => ?_) (fun _ _ => rfl) fun q _ ho => ?_
      · obtain ⟨rfl, rfl⟩ := Pc.fork.inj heq
        exact ⟨rfl, rfl, fun _ => hlock rfl, fun _ => rfl, nofun, nofun, nofun⟩
      · rw [hfree] at ho
        cases ho
    · cases hs
  | readPid =>
    cases hs
    refine h.stay hp nofun (fun np' k' heq => ?_) (fun _ _ => rfl) hkeep
    obtain ⟨rfl, rfl⟩ := Pc.fork.inj heq
    exact ⟨rfl, rfl, fun _ => hlock rfl, fun _ => h.pidLock p _ _ hp rfl,
      fun pid hb => (Stage.bumpPid.inj hb).symm, nofun, nofun⟩
  | bumpPid pid =>
    cases hs
    exact h.bumpPid hp hcalls
  | setPid pid =>
    cases hs
    obtain ⟨hpos, -⟩ := h.pending p np pid hp
    refine h.update hp (.inr (.inr rfl)) ⟨fun _ => (Int.ne_of_lt hpos).symm,
      fun hu => ⟨?_, .inr rfl⟩, fun np' k' heq => ?_, fun _ _ => rfl, hkeep⟩
    · obtain ⟨h1, h2, h3, h4⟩ := (h.free np hstate).1
      exact ⟨h1, h2, h3, h4⟩
    · obtain ⟨rfl, rfl⟩ := Pc.fork.inj heq
      exact ⟨rfl, fun _ => hlock rfl, hstate, nofun, nofun, fun _ => (Int.ne_of_lt hpos).symm, nofun⟩
  | setUsed =>
    cases hs
    refine h.update hp (.inl rfl) ⟨fun _ => h.set p np hp, nofun, fun np' k' heq => ?_,
      fun _ _ => rfl, hkeep⟩
    obtain ⟨rfl, rfl⟩ := Pc.fork.inj heq
    exact ⟨rfl, fun _ => hlock rfl, rfl, nofun, nofun, nofun, nofun⟩
  | trapframe | pagetable | copy =>
    cases ptr with
    | none =>
      cases hs
      exact h.giveUp hp rfl
    | some a =>
      cases hs
      exact h.fill hp rfl rfl rfl rfl fun _ => rfl
  | release =>
    cases hs
    exact h.stay hp nofun nofun (fun i hi => if_neg hi) hkeep
  | unlock =>
    cases hs
    refine h.stay hp nofun (fun np' k' heq => ?_) (fun i hi => if_neg hi) hkeep
    obtain ⟨rfl, rfl⟩ := Pc.fork.inj heq
    exact ⟨rfl, rfl, nofun, nofun, nofun, nofun, nofun⟩
  | parent =>
    dsimp only [State.fork] at hs
    split at hs
    · cases hs
      exact h.fill hp rfl rfl rfl rfl fun hf => by cases hf
    · cases hs
  | runnable =>
    dsimp only [State.fork, State.locked] at hs
    split at hs
    · cases hs
      refine h.update hp (.inl rfl) ⟨fun _ => ?_, nofun, nofun, fun _ _ => rfl, hkeep⟩
      refine h.live np ?_
      rw [hstate]
      exact nofun
    · cases hs

end

/-! ## The other steps -/

theorem setWaitLock (o : Option Slot) : Inv { s with waitLock := o } :=
  ⟨h.nextpid, h.pid, h.inj, h.live, h.free, h.making, h.one, h.pidLock, h.read, h.set, h.pending⟩

theorem acquireWait (hp : (s.pc p).Plain)
    (hs : s.acquireWait p (s.goto p x) = some s') (hx : x.Plain) : Inv s' := by
  rw [State.acquireWait] at hs
  split at hs
  · cases hs
    exact (h.goto hp hx).setWaitLock (some p)
  · cases hs

theorem releaseWait (hp : (s.pc p).Plain) (hx : x.Plain) :
    Inv (s.releaseWait p x) := (h.goto hp hx).setWaitLock none

variable {f : Sync.Proc → Sync.Proc}

theorem modify (hpid : (f (s.proc i).toProc).pid = (s.proc i).pid)
    (hunused : (f (s.proc i).toProc).state = .unused ↔ (s.proc i).state = .unused)
    (hused : (f (s.proc i).toProc).state = .used ↔ (s.proc i).state = .used)
    (hparent : (s.proc i).parent = none → (f (s.proc i).toProc).parent = none) : Inv (s.modify i f) :=
  h.setProc hpid hunused hused fun _ ht => ⟨hparent ht.parent, ht.sz, ht.pagetable, ht.trapframe⟩

theorem move (hpid : (f (s.proc i).toProc).pid = (s.proc i).pid)
    (hold : (s.proc i).state ≠ .unused ∧ (s.proc i).state ≠ .used)
    (hnew : (f (s.proc i).toProc).state ≠ .unused ∧ (f (s.proc i).toProc).state ≠ .used)
    (hparent : (f (s.proc i).toProc).parent = (s.proc i).parent) : Inv (s.modify i f) :=
  h.modify hpid (iff_of_false hnew.1 hold.1) (iff_of_false hnew.2 hold.2) fun hn => hparent.trans hn

theorem wake (chan : Chan) (i : Slot) : Inv (s.wake chan i) := by
  by_cases hc : (s.proc i).state = .sleeping ∧ (s.proc i).chan = some chan
  · refine h.move rfl ?_ ?_ rfl
    · rw [hc.1]
      exact ⟨nofun, nofun⟩
    · dsimp only
      rw [if_pos hc]
      exact ⟨nofun, nofun⟩
  · refine h.modify rfl ?_ ?_ id <;> dsimp only <;> rw [if_neg hc]

theorem go (hs : s.go p ptr = some s') (hcalls : s'.calls < 2 ^ 31 - 1) : Inv s' := by
  rw [State.go] at hs
  split at hs
  case isFalse => cases hs
  case isTrue hrun =>
  have hstate : (s.proc p).state ≠ .unused ∧ (s.proc p).state ≠ .used := by
    rw [hrun]
    exact ⟨nofun, nofun⟩
  by_cases hplain : (s.pc p).Plain
  case neg =>
    obtain ⟨np, k, hp⟩ : ∃ np k, s.pc p = .fork np k := by
      simpa [Pc.Plain] using hplain
    rw [hp] at hs
    exact h.fork hp hs hcalls
  cases hp : s.pc p with
  | run =>
    rw [hp] at hs
    cases hs
  | scan j =>
    rw [hp] at hs
    dsimp only at hs
    split at hs
    · cases hs
      exact h.goto hplain nofun
    · obtain ⟨hfree, rfl⟩ := locked_eq hs
      split
      · next hu => exact h.found hplain hu hfree
      · exact h.goto hplain nofun
  | fork np k => exact absurd hp (hplain np k)
  | exit status | wait =>
    rw [hp] at hs
    exact h.acquireWait hplain hs nofun
  | reparent status j =>
    rw [hp] at hs
    dsimp only at hs
    split at hs
    · split at hs <;> obtain rfl := some.inj hs <;> exact h.goto hplain nofun
    · split at hs
      · next hpar =>
        cases hs
        refine Inv.goto (h.modify rfl .rfl .rfl fun hn => ?_) hplain nofun
        rw [hpar] at hn
        cases hn
      · cases hs
        exact h.goto hplain nofun
  | wakeInit status j m | wakeParent status q m =>
    rw [hp] at hs
    dsimp only at hs
    split at hs
    · cases hs
      exact h.goto hplain nofun
    · next i hi =>
      split at hs
      · cases hs
        exact h.goto hplain nofun
      · obtain ⟨-, rfl⟩ := locked_eq hs
        exact Inv.goto (h.wake _ i) hplain nofun
  | zombie status | waitSleep =>
    rw [hp] at hs
    obtain ⟨-, rfl⟩ := locked_eq hs
    refine Inv.releaseWait (h.move rfl hstate ?_ rfl) hplain nofun
    exact ⟨nofun, nofun⟩
  | dead =>
    rw [hp] at hs
    cases hs
  | waitScan j havekids =>
    rw [hp] at hs
    dsimp only at hs
    split at hs
    · cases hs
      exact h.goto hplain nofun
    · split at hs
      · obtain ⟨-, rfl⟩ := locked_eq hs
        split
        · next hz =>
          cases ptr with
          | none => exact h.releaseWait hplain nofun
          | some a => exact Inv.releaseWait (h.reap hplain hz) hplain nofun
        · exact h.goto hplain nofun
      · cases hs
        exact h.goto hplain nofun
  | waitEnd havekids =>
    rw [hp] at hs
    dsimp only at hs
    split at hs
    · obtain ⟨-, rfl⟩ := locked_eq hs
      split
      · exact h.releaseWait hplain nofun
      · exact h.goto hplain nofun
    · cases hs
      exact h.releaseWait hplain nofun
  | asleep wait =>
    rw [hp] at hs
    cases hs
    refine Inv.goto (h.modify rfl .rfl .rfl id) hplain ?_
    cases wait <;> exact nofun
  | kill pid j =>
    rw [hp] at hs
    dsimp only at hs
    split at hs
    · cases hs
      exact h.goto hplain nofun
    · next i hi =>
      obtain ⟨-, rfl⟩ := locked_eq hs
      split
      · refine Inv.goto ?_ hplain nofun
        by_cases hsl : (s.proc i).state = .sleeping
        · refine h.move rfl ?_ ?_ rfl
          · rw [hsl]
            exact ⟨nofun, nofun⟩
          · dsimp only
            rw [if_pos hsl]
            exact ⟨nofun, nofun⟩
        · refine h.modify rfl ?_ ?_ id <;> dsimp only <;> rw [if_neg hsl]
      · exact h.goto hplain nofun

theorem call {f : Call} (hrun : (s.proc p).state = .running) (hp : s.pc p = .run)
    (hs : s.call p f = some s') : Inv s' := by
  have hstate : (s.proc p).state ≠ .unused ∧ (s.proc p).state ≠ .used := by
    rw [hrun]
    exact ⟨nofun, nofun⟩
  have hplain : (s.pc p).Plain := by
    rw [hp]
    exact nofun
  cases f with
  | fork | wait | kill pid =>
    cases hs
    exact h.goto hplain nofun
  | exit status =>
    rw [State.call] at hs
    split at hs
    · cases hs
    · cases hs
      exact h.goto hplain nofun
  | sleep chan =>
    obtain ⟨-, rfl⟩ := locked_eq hs
    refine Inv.goto (h.move rfl hstate ?_ rfl) hplain nofun
    exact ⟨nofun, nofun⟩
  | growproc sz | exec pagetable sz =>
    cases hs
    exact h.setProc rfl .rfl .rfl fun hu => absurd hu hstate.1

variable {a : Act}

theorem step (hs : step s a = some s') (hcalls : s'.calls < 2 ^ 31 - 1) : Inv s' := by
  cases a with
  | go p ptr => exact h.go hs hcalls
  | call p f =>
    rw [ProcAlloc.step] at hs
    split at hs
    · next hp => exact h.call hp.1 hp.2 hs
    · cases hs
  | schedule p | yield p =>
    rw [ProcAlloc.step] at hs
    split at hs
    · next hp =>
      obtain ⟨-, rfl⟩ := locked_eq hs
      refine h.move rfl ?_ ⟨nofun, nofun⟩ rfl
      rw [hp]
      exact ⟨nofun, nofun⟩
    · cases hs
  | wakeup chan i =>
    obtain ⟨-, rfl⟩ := locked_eq hs
    exact h.wake chan i

end Inv

/-! ## Every run -/

theorem calls_some (hs : some t = some s') (ht : s.calls ≤ t.calls) : s.calls ≤ s'.calls := by
  cases hs
  exact ht

theorem calls_locked (hs : s.locked i t = some s') (ht : s.calls ≤ t.calls) : s.calls ≤ s'.calls := by
  obtain ⟨-, rfl⟩ := locked_eq hs
  exact ht

theorem calls_fork (hs : s.fork p np ptr k = some s') : s.calls ≤ s'.calls := by
  unfold State.fork at hs
  split at hs <;> try split at hs
  all_goals first
    | exact calls_locked hs (Nat.le_refl _)
    | exact calls_some hs (Nat.le_refl _)
    | exact calls_some hs (Nat.le_succ _)
    | cases hs

theorem calls_go (hs : s.go p ptr = some s') : s.calls ≤ s'.calls := by
  unfold State.go State.acquireWait at hs
  repeat' split at hs
  all_goals first
    | exact calls_fork hs
    | exact calls_locked hs (Nat.le_refl _)
    | exact calls_some hs (Nat.le_refl _)
    | cases hs

theorem calls_step (hs : step s a = some s') : s.calls ≤ s'.calls := by
  cases a with
  | go p ptr => exact calls_go hs
  | call p f =>
    rw [step] at hs
    split at hs
    · unfold State.call at hs
      split at hs <;> try split at hs
      all_goals first
        | exact calls_locked hs (Nat.le_refl _)
        | exact calls_some hs (Nat.le_refl _)
        | cases hs
    · cases hs
  | schedule p | yield p =>
    rw [step] at hs
    split at hs
    · exact calls_locked hs (Nat.le_refl _)
    · cases hs
  | wakeup chan i => exact calls_locked hs (Nat.le_refl _)

theorem inv_initial (pagetable trapframe : ℕ) : Inv (.initial pagetable trapframe) := by
  have hproc : ∀ i, i = 0 ∨ (State.initial pagetable trapframe).proc i = .free := by
    intro i
    by_cases hi : i = 0
    · exact .inl hi
    · exact .inr (if_neg hi)
  refine ⟨rfl, fun i => ?_, fun i j hi hij => ?_, fun i hi => ?_, fun i hi => ?_, nofun, nofun, nofun,
    nofun, nofun, nofun⟩
  · rcases hproc i with rfl | hi
    · change (0 : ℤ) ≤ 1 ∧ (1 : ℤ) ≤ 1
      decide
    · rw [hi]
      change (0 : ℤ) ≤ 0 ∧ (0 : ℤ) ≤ 1
      decide
  · rcases hproc i with rfl | hi'
    · rcases hproc j with rfl | hj
      · rfl
      · rw [hj] at hij
        cases hij
    · rw [hi'] at hi
      exact absurd rfl hi
  · rcases hproc i with rfl | hi'
    · exact nofun
    · rw [hi'] at hi
      exact absurd rfl hi
  · rcases hproc i with rfl | hi'
    · cases hi
    · rw [hi']
      exact ⟨tidy_free, .inl rfl⟩

theorem inv_of_reachable (h : machine.Reachable s) (hcalls : s.calls < 2 ^ 31 - 1) : Inv s := by
  revert hcalls
  refine Machine.Reachable.invariant (fun s => s.calls < 2 ^ 31 - 1 → Inv s) ?_ ?_ h
  · rintro _ ⟨pagetable, trapframe, rfl⟩ -
    exact inv_initial pagetable trapframe
  · intro s a s' hs hstep hcalls
    exact (hs (Nat.lt_of_le_of_lt (calls_step hstep) hcalls)).step hstep hcalls

/-- **Pids are unique.** Where the locks are free, processes have distinct positive pids, and a free slot has
pid 0, no parent, size 0 and neither a page table nor a trap frame. -/
theorem pids_unique (h : machine.Reachable s) (hcalls : s.calls < 2 ^ 31 - 1) :
    (∀ i, s.lock i = none → (s.proc i).state ≠ .unused → 0 < (s.proc i).pid) ∧
    (∀ i j, s.lock i = none → s.lock j = none → (s.proc i).state ≠ .unused →
      (s.proc j).state ≠ .unused → (s.proc i).pid = (s.proc j).pid → i = j) ∧
    ∀ i, s.lock i = none → (s.proc i).state = .unused → (s.proc i).pid = 0 ∧
      (s.proc i).parent = none ∧ (s.proc i).sz = 0 ∧ (s.proc i).pagetable = none ∧
      (s.proc i).trapframe = none := by
  have hinv := inv_of_reachable h hcalls
  refine ⟨fun i _ hi => ?_, fun i j _ _ hi _ hij => hinv.inj i j (hinv.live i hi) hij,
    fun i hlock hi => ?_⟩
  · have hpid := hinv.pid i
    have hne := hinv.live i hi
    omega
  · obtain ⟨htidy, hz⟩ := hinv.free i hi
    refine ⟨?_, htidy.parent, htidy.sz, htidy.pagetable, htidy.trapframe⟩
    rcases hz with hz | ⟨p, hp⟩
    · exact hz
    · have hheld := (hinv.making p i .setUsed hp).1 rfl
      rw [hlock] at hheld
      cases hheld

/-- `init` forks twice: there is no memory for the page table of the first child. -/
def twoForks : List Act :=
  [Act.schedule 0, .call 0 .fork] ++ List.replicate 7 (Act.go 0 (some 1)) ++
    [Act.go 0 (some 1), .go 0 none, .go 0 none, .call 0 .fork] ++
    List.replicate 13 (Act.go 0 (some 1))

theorem pids_unique_twoForks : ∃ s ∈ machine.run (.initial 0 0) twoForks,
    s.lock 1 = none ∧ (s.proc 1).state = .runnable ∧ 0 < (s.proc 1).pid ∧ s.calls = 3 := by
  have hsome : (machine.run (.initial 0 0) twoForks).isSome = true := by decide +kernel
  obtain ⟨s, hs⟩ := Option.isSome_iff_exists.mp hsome
  have hrun : (machine.run (.initial 0 0) twoForks).all (fun s =>
      decide (s.lock 1 = none ∧ (s.proc 1).state = .runnable ∧ s.calls = 3)) = true := by
    decide +kernel
  rw [hs, Option.all_some, decide_eq_true_eq] at hrun
  obtain ⟨hlock, hstate, hcalls⟩ := hrun
  have hreach : machine.Reachable s :=
    Machine.Reachable.of_run (.init ⟨0, 0, rfl⟩) _ hs
  refine ⟨s, hs, hlock, hstate, ?_, hcalls⟩
  refine (pids_unique hreach (by rw [hcalls]; decide)).1 1 hlock ?_
  rw [hstate]
  exact nofun

end Xv6.ProcAlloc
