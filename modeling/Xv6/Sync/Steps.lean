import Xv6.Sync.Kernel

/-!
# What a step can do

`Step` lists the steps of the kernel with their guards. The lemmas below say what a step leaves alone:
a process is made SLEEPING only by itself, and only a step of its own moves it to another program point,
except that `fork` starts its child.
-/

namespace Xv6.Sync

open Lib
open Table (apply)

variable {s s' : State} {a : Act}

/-- The steps of the kernel. -/
inductive Step (s : State) : Act → State → Prop where
  | schedule {p : Slot} (h : (s.proc p).state = .runnable) :
      Step s (.schedule p) (s.setState p .running)
  | yield {p : Slot} {r : ℤ} (hpc : s.pc p = .user r) (h : (s.proc p).state = .running) :
      Step s (.yield p) (s.setState p .runnable)
  | call {p : Slot} {r : ℤ} {k : Pc} (hpc : s.pc p = .user r) (h : (s.proc p).state = .running)
      (hk : k.isEntry = true) (hinit : ¬ (k.isExit = true ∧ p = s.table.initproc)) :
      Step s (.call p k) (s.goto p k)
  | go {p : Slot} {fault : Bool} {n : Next} (h : (s.proc p).state = .running)
      (hn : next s.table s.shared p fault (s.pc p) = some n) : Step s (.go p fault) (s.advance p n)
  | clockStart (h : s.clock = none) (hlock : s.shared.tickslock = none) :
      Step s .clock { s with
        clock := some 0
        shared := { s.shared with tickslock := some .clock, ticks := s.shared.ticks + 1 } }
  | clockWake {j : ℕ} {i : Slot} (h : s.clock = some j) :
      Step s .clock { s.intrWake .ticks i with clock := some (j + 1) }
  | clockEnd {j : ℕ} (h : s.clock = some j) :
      Step s .clock { s with clock := none, shared := { s.shared with tickslock := none } }
  | uartEdit {c : UInt8} (h : s.uart = none) (hlock : s.shared.cons.lock = none) :
      Step s (.uart c) { s with shared := { s.shared with cons := (s.shared.cons.intr c).1 } }
  | uartStart {c : UInt8} (h : s.uart = none) (hlock : s.shared.cons.lock = none) :
      Step s (.uart c) { s with
        uart := some 0
        shared := { s.shared with cons := { (s.shared.cons.intr c).1 with lock := some .uart } } }
  | uartWake {c : UInt8} {j : ℕ} {i : Slot} (h : s.uart = some j) :
      Step s (.uart c) { s.intrWake .cons i with uart := some (j + 1) }
  | uartEnd {c : UInt8} {j : ℕ} (h : s.uart = some j) :
      Step s (.uart c) { s with uart := none, shared := { s.shared with cons.lock := none } }

theorem step_cases (h : step s a = some s') : Step s a s' := by
  cases a with
  | schedule p =>
    simp only [step] at h
    split at h
    · next hr =>
      cases h
      exact .schedule hr
    · cases h
  | yield p =>
    simp only [step] at h
    split at h
    · next r hpc =>
      split at h
      · next hr =>
        cases h
        exact .yield hpc hr
      · cases h
    · cases h
  | call p k =>
    simp only [step] at h
    split at h
    · next r hpc =>
      split at h
      · next hr =>
        cases h
        exact .call hpc hr.1 hr.2.1 hr.2.2
      · cases h
    · cases h
  | go p fault =>
    simp only [step] at h
    split at h
    · next hr =>
      obtain ⟨n, hn, rfl⟩ := Option.map_eq_some_iff.mp h
      exact .go hr hn
    · cases h
  | clock =>
    simp only [step, State.stepClock] at h
    split at h
    · next hc =>
      split at h
      · next hl =>
        cases h
        exact .clockStart hc hl
      · cases h
    · next j hc =>
      split at h
      · cases h
        exact .clockEnd hc
      · cases h
        exact .clockWake hc
  | uart c =>
    simp only [step, State.stepUart] at h
    split at h
    · next hc =>
      split at h
      · next hl =>
        split at h
        · cases h
          exact .uartStart hc hl
        · cases h
          exact .uartEdit hc hl
      · cases h
    · next j hc =>
      split at h
      · cases h
        exact .uartEnd hc
      · cases h
        exact .uartWake hc

/-! ## The process table -/

section

variable {t : Table} {p q i : Slot} {e : Effect}

@[simp] theorem setProc_proc (x : Proc) (q : Slot) :
    (t.setProc i x).proc q = if q = i then x else t.proc q := by
  simp only [Table.setProc, assign]

@[simp] theorem bumpPid_proc : t.bumpPid.proc = t.proc := rfl

/-- The processes an effect may change. -/
def Effect.touches (p : Slot) : Effect → Slot → Prop
  | .none, _ => False
  | .sleep _, q | .tidy, q | .zombie _, q => q = p
  | .wake _ j, q | .kill j, q | .alloc j, q | .allocFail j, q | .parent j, q | .runnable j, q
  | .reparent j, q | .reap j, q => q = j

theorem apply_proc_of_not_touches (h : ¬ e.touches p q) : (t.apply p e).proc q = t.proc q := by
  cases e with
  | none => rfl
  | wake c j =>
    simp only [apply]
    split
    · rw [setProc_proc]
      exact if_neg h
    · rfl
  | _ => simp only [apply, bumpPid_proc, setProc_proc]; exact if_neg h

theorem apply_sleeping (h : ((t.apply p e).proc q).state = .sleeping) :
    (t.proc q).state = .sleeping ∨ q = p ∧ ∃ c, e = .sleep c := by
  by_cases ht : e.touches p q
  · cases e with
    | none => exact ht.elim
    | sleep c => exact .inr ⟨ht, c, rfl⟩
    | wake c j =>
      simp only [apply] at h
      split at h
      · obtain rfl : q = j := ht
        rw [setProc_proc, if_pos rfl] at h
        cases h
      · exact .inl h
    | kill j =>
      obtain rfl : q = j := ht
      simp only [apply, setProc_proc, if_true] at h
      split at h
      · cases h
      · exact .inl h
    | tidy =>
      obtain rfl : q = p := ht
      simp only [apply, setProc_proc, if_true] at h
      exact .inl h
    | parent j | reparent j =>
      obtain rfl : q = j := ht
      simp only [apply, setProc_proc, if_true] at h
      exact .inl h
    | _ =>
      simp only [Effect.touches] at ht
      subst ht
      simp only [apply, bumpPid_proc, setProc_proc, if_true] at h
      cases h
  · rw [apply_proc_of_not_touches ht] at h
    exact .inl h

theorem apply_killed (h : ((t.apply p e).proc q).killed = true) :
    (t.proc q).killed = true ∨ e = .kill q := by
  by_cases ht : e.touches p q
  · cases e with
    | none => exact ht.elim
    | kill j =>
      obtain rfl : q = j := ht
      exact .inr rfl
    | wake c j =>
      simp only [apply] at h
      split at h
      · obtain rfl : q = j := ht
        rw [setProc_proc, if_pos rfl] at h
        exact .inl h
      · exact .inl h
    | reap j =>
      obtain rfl : q = j := ht
      simp only [apply, setProc_proc, if_true] at h
      cases h
    | allocFail j =>
      obtain rfl : q = j := ht
      simp only [apply, bumpPid_proc, setProc_proc, if_true] at h
      cases h
    | _ =>
      simp only [Effect.touches] at ht
      subst ht
      simp only [apply, bumpPid_proc, setProc_proc, if_true] at h
      exact .inl h
  · rw [apply_proc_of_not_touches ht] at h
    exact .inl h

end

/-! ## Program points -/

/-- A process that sleeps in `sleep`, called with channel `c`, goes on at `k`. -/
def sleepsOn (p : Slot) (c : Chan) : Pc → Bool
  | .waitAcquire _ => c = .proc p
  | .writeAcquire _ _ => c = .nwrite
  | .readAcquire _ => c = .nread
  | .consAcquire _ _ => c = .cons
  | .tickAcquire _ _ => c = .ticks
  | .user _ => match c with | .other _ => true | _ => false
  | _ => false

/-- What follows a call of `wakeup(c)`. -/
def follows (c : Chan) : Pc → Bool
  | .writeSleep _ _ | .writeEnd _ => c = .nread
  | .readEnd _ => c = .nwrite
  | .closeEnd => c = .nread ∨ c = .nwrite
  | .exitReparent _ _ | .exitZombie _ => match c with | .proc _ => true | _ => false
  | .user _ => match c with | .other _ => true | _ => false
  | _ => false

/-- The program points that are not tied to the state of the process or of a child. -/
def Pc.plain : Pc → Bool
  | .dead | .asleep _ | .forkParent _ _ | .forkRunnable _ _ => false
  | .wakeup c _ k => follows c k
  | _ => true

variable {c : Chan} {k : Pc} {p : Slot}

theorem plain_of_sleepsOn (h : sleepsOn p c k = true) : k.plain = true := by
  cases k <;> first | rfl | cases h

theorem plain_of_follows (h : follows c k = true) : k.plain = true := by
  cases k <;> first | rfl | cases h

theorem plain_of_isEntry (h : k.isEntry = true) : k.plain = true := by
  cases k with
  | wakeup c j k =>
    cases c with
    | other a => cases k <;> first | rfl | (cases j <;> cases h)
    | _ => cases h
  | asleep k => cases h
  | dead => cases h
  | forkParent np pid => cases h
  | forkRunnable np pid => cases h
  | _ => rfl

/-- Where a process goes on that calls `sleep`. -/
def Pc.sleepsTo : Pc → Option Pc
  | .waitSleep addr => some (.waitAcquire addr)
  | .writeSleep bs i => some (.writeAcquire bs i)
  | .readSleep n => some (.readAcquire n)
  | .consSleep target n => some (.consAcquire target n)
  | .tickSleep n ticks0 => some (.tickAcquire n (some ticks0))
  | .otherSleep _ => some (.user 0)
  | _ => none

/-- A process that has been found in `wakeup` or `sleep` got there by a call. -/
def Pc.Ok (p : Slot) : Pc → Prop
  | .asleep k => ∃ c, sleepsOn p c k = true
  | .wakeup c _ k => follows c k = true
  | _ => True

/-- What a step of process `p` from `k` to `k'` does to the process table. -/
inductive Does (t : Table) (p : Slot) : Pc → Pc → Effect → Prop where
  | none {k k' : Pc} (hk : k.plain = true) (hk' : k'.plain = true) : Does t p k k' .none
  | sleep {k k' : Pc} {c : Chan} (hk : k.sleepsTo = some k') (hc : sleepsOn p c k' = true) :
      Does t p k (.asleep k') (.sleep c)
  | tidy {k' : Pc} (hk' : k'.plain = true) : Does t p (.asleep k') k' .tidy
  | wake {k : Pc} {c : Chan} {j : ℕ} (i : Slot) (hi : i.val = j) (hk : follows c k = true) :
      Does t p (.wakeup c j k) (.wakeup c (j + 1) k) (.wake c i)
  | kill {pid : ℤ} {j : ℕ} (i : Slot) (hi : i.val = j) (hpid : (t.proc i).pid = pid) :
      Does t p (.kill pid j) (.user 0) (.kill i)
  | alloc {j : ℕ} (i : Slot) (hi : (t.proc i).state = .unused) :
      Does t p (.forkScan j) (.forkParent i t.nextpid) (.alloc i)
  | allocFail {j : ℕ} (i : Slot) (hi : (t.proc i).state = .unused) :
      Does t p (.forkScan j) (.user (-1)) (.allocFail i)
  | parent {np : Slot} {pid : ℤ} : Does t p (.forkParent np pid) (.forkRunnable np pid) (.parent np)
  | runnable {np : Slot} {pid : ℤ} : Does t p (.forkRunnable np pid) (.user pid) (.runnable np)
  | reparent {status : ℤ} {j : ℕ} (i : Slot) (hi : i.val = j) (hp : (t.proc i).parent = some p) :
      Does t p (.exitReparent status j)
        (.wakeup (.proc t.initproc) 0 (.exitReparent status (j + 1))) (.reparent i)
  | zombie {status : ℤ} : Does t p (.exitZombie status) .dead (.zombie status)
  | reap {addr havekids : Bool} {j : ℕ} (i : Slot) (hi : i.val = j) (hp : (t.proc i).parent = some p)
      (hz : (t.proc i).state = .zombie) :
      Does t p (.waitScan addr j havekids) (.user (t.proc i).pid) (.reap i)

variable {j : ℕ}

theorem slot?_eq_some {i : Slot} (h : slot? j = some i) : i.val = j := by
  unfold slot? at h
  split at h
  · cases h
    rfl
  · cases h

theorem slot?_eq_none (h : slot? j = none) (i : Slot) : i.val < j := by
  unfold slot? at h
  split at h
  · cases h
  · next hj => exact Nat.lt_of_lt_of_le i.isLt (Nat.le_of_not_lt hj)

variable {fault : Bool} {n : Next}

theorem next_does {t : Table} {sh : Shared} (hk : k.Ok p)
    (h : next t sh p fault k = some n) : Does t p k n.1 n.2.2 := by
  cases k with
  | user r => cases h
  | dead => cases h
  | asleep k =>
    cases h
    obtain ⟨c, hc⟩ := hk
    exact .tidy (plain_of_sleepsOn hc)
  | wakeup c j k =>
    simp only [next] at h
    split at h
    · cases h
      exact .none hk (plain_of_follows hk)
    · next i hi =>
      cases h
      exact .wake i (slot?_eq_some hi) hk
  | kill pid j =>
    simp only [next] at h
    split at h
    · cases h
      exact .none rfl rfl
    · next i hi =>
      split at h
      · next hpid =>
        cases h
        exact .kill i (slot?_eq_some hi) hpid
      · cases h
        exact .none rfl rfl
  | forkScan j =>
    simp only [next] at h
    split at h
    · cases h
      exact .none rfl rfl
    · next i hi =>
      split at h
      · next hu =>
        split at h
        · cases h
          exact .allocFail i hu
        · cases h
          exact .alloc i hu
      · cases h
        exact .none rfl rfl
  | forkParent np pid =>
    simp only [next] at h
    split at h
    · cases h
      exact .parent
    · cases h
  | forkRunnable np pid =>
    cases h
    exact .runnable
  | exitReparent status j =>
    simp only [next] at h
    split at h
    · split at h
      · cases h
        exact .none rfl rfl
      · cases h
        exact .none rfl rfl
    · next i hi =>
      split at h
      · next hp =>
        cases h
        exact .reparent i (slot?_eq_some hi) hp
      · cases h
        exact .none rfl rfl
  | exitZombie status =>
    cases h
    exact .zombie
  | waitScan addr j havekids =>
    cases h
    simp only [scanLoop]
    split
    · split
      · exact .none rfl rfl
      · exact .none rfl rfl
    · next i hi =>
      split
      · next hp =>
        split
        · next hz =>
          split
          · exact .none rfl rfl
          · exact .reap i (slot?_eq_some hi) hp hz
        · exact .none rfl rfl
      · exact .none rfl rfl
  | waitSleep addr =>
    cases h
    exact .sleep rfl (decide_eq_true rfl)
  | writeSleep bs i | readSleep n | consSleep target n | tickSleep n ticks0 | otherSleep a =>
    cases h
    exact .sleep rfl rfl
  | writeTest _ _ | writeNext _ _ | writeStore _ _ | readTest _ | readCopy _ _ | consTest _ _
  | tickTest _ _ =>
    cases h
    simp only [writeLoop, writeByte, readLoop, copyLoop, consLoop, tickLoop]
    repeat' split
    all_goals exact .none rfl rfl
  | closeAcquire writable =>
    simp only [next] at h
    split at h
    · cases h
      cases writable <;> exact .none rfl rfl
    · cases h
  | _ =>
    simp only [next] at h
    first
    | cases h
      exact .none rfl rfl
    | split at h
      · cases h
        exact .none rfl rfl
      · cases h

section

variable {p q : Slot} {n : Next}

@[simp] theorem advance_pc_self : (s.advance p n).pc p = n.1 := by
  simp only [State.advance, assign, if_true]

theorem advance_pc_runnable (hq : q ≠ p) (h : n.2.2 = .runnable q) :
    (s.advance p n).pc q = .user 0 := by
  simp only [State.advance, assign, if_neg hq, h, Effect.start, if_true]

theorem advance_pc_ne (hq : q ≠ p) (h : n.2.2 ≠ .runnable q) : (s.advance p n).pc q = s.pc q := by
  simp only [State.advance, assign, if_neg hq]
  cases he : n.2.2 with
  | runnable np =>
    rw [he] at h
    simp only [Effect.start, assign]
    rw [if_neg]
    rintro rfl
    exact h rfl
  | _ => rfl

@[simp] theorem advance_proc : (s.advance p n).proc q = (s.table.apply p n.2.2).proc q := rfl

theorem advance_proc_of_not_touches (h : ¬ n.2.2.touches p q) : (s.advance p n).proc q = s.proc q :=
  apply_proc_of_not_touches h

theorem advance_sleeping (h : ((s.advance p n).proc q).state = .sleeping) :
    (s.proc q).state = .sleeping ∨ q = p ∧ ∃ c, n.2.2 = .sleep c := apply_sleeping h

theorem advance_killed (h : ((s.advance p n).proc q).killed = true) :
    (s.proc q).killed = true ∨ n.2.2 = .kill q := apply_killed h

@[simp] theorem setState_proc (x : ProcState) :
    (s.setState p x).proc q = if q = p then { s.proc p with state := x } else s.proc q :=
  setProc_proc _ q

@[simp] theorem goto_pc (k : Pc) : (s.goto p k).pc q = if q = p then k else s.pc q := rfl

theorem intrWake_proc (c : Chan) (i : Slot) :
    (s.intrWake c i).proc q = s.proc q ∨ q = i ∧ (s.proc q).state = .sleeping ∧
      (s.proc q).chan = some c ∧ (s.intrWake c i).proc q = { s.proc q with state := .runnable } := by
  by_cases h : (s.proc i).state = .sleeping ∧ (s.proc i).chan = some c
  · have htable : (s.intrWake c i).proc q = if q = i then { s.proc i with state := .runnable }
        else s.proc q := by
      rw [State.intrWake, if_pos h]
      exact setProc_proc _ q
    rw [htable]
    split
    · next hq =>
      subst hq
      exact .inr ⟨rfl, h.1, h.2, rfl⟩
    · exact .inl rfl
  · left
    rw [State.intrWake, if_neg h]

end

/-! ## Kills -/

/-- The process that a step of `kill` hits. -/
def victim (s : State) : Act → Option Slot
  | .go p _ =>
    match s.pc p with
    | .kill pid j => (slot? j).filter fun i => (s.proc i).pid = pid
    | _ => none
  | _ => none

variable {k' : Pc}

theorem Does.victim {p q : Slot} (h : Does s.table p (s.pc p) k' (.kill q)) (fault : Bool) :
    victim s (.go p fault) = some q := by
  obtain ⟨pid, hpc, hpid⟩ : ∃ pid, s.pc p = .kill pid q.val ∧ (s.proc q).pid = pid := by
    generalize s.pc p = k at h
    cases h with
    | kill i hi hpid => exact ⟨_, by rw [hi], hpid⟩
  have hslot : slot? q.val = some q := dif_pos q.isLt
  unfold Sync.victim
  simp only [hpc, hslot, Option.filter_some, hpid, decide_true, if_true]

/-! ## Threads -/

/-- The states of a process that has a thread. -/
def live : ProcState → Bool
  | .sleeping | .runnable | .running => true
  | _ => false

/-- A step outside the code of the processes: of the scheduler or an interrupt. All it does to a process is
to make it RUNNABLE or RUNNING. -/
structure Quiet (s s' : State) : Prop where
  pc : s'.pc = s.pc
  waitLock : s'.shared.waitLock = s.shared.waitLock
  pipe : s'.shared.pipe = s.shared.pipe
  table : s'.table = { s.table with proc := s'.table.proc }
  proc : ∀ q, s'.proc q = s.proc q ∨ live (s.proc q).state = true ∧
    ∃ x, s'.proc q = { s.proc q with state := x } ∧ (x = .runnable ∨ x = .running)

theorem Quiet.awake (h : Quiet s s') (q : Slot) : s'.proc q = s.proc q ∨
    (s'.proc q).state ≠ .sleeping ∧ (s'.proc q).killed = (s.proc q).killed := by
  refine (h.proc q).imp_right ?_
  rintro ⟨-, x, hq, rfl | rfl⟩ <;> rw [hq] <;> exact ⟨nofun, rfl⟩

theorem quiet_setState {x : ProcState} (hl : live (s.proc p).state = true)
    (hx : x = .runnable ∨ x = .running) : Quiet s (s.setState p x) := by
  refine ⟨rfl, rfl, rfl, rfl, fun q => ?_⟩
  rw [setState_proc]
  split
  · next hq =>
    subst hq
    exact .inr ⟨hl, x, rfl, hx⟩
  · exact .inl rfl

theorem quiet_intrWake (c : Chan) (i : Slot) : Quiet s (s.intrWake c i) := by
  refine ⟨rfl, rfl, rfl, ?_, fun q => (intrWake_proc c i).imp_right fun hq => ?_⟩
  · simp only [State.intrWake]
    split <;> rfl
  · exact ⟨by rw [hq.2.1]; rfl, _, hq.2.2.2, .inl rfl⟩

/-- The steps of processes, and the others. -/
inductive Step.Kind (s : State) : Act → State → Prop where
  | go {p : Slot} {fault : Bool} {n : Next} (h : (s.proc p).state = .running)
      (hn : next s.table s.shared p fault (s.pc p) = some n) : Kind s (.go p fault) (s.advance p n)
  | call {p : Slot} {r : ℤ} {k : Pc} (hpc : s.pc p = .user r) (h : (s.proc p).state = .running)
      (hk : k.isEntry = true) (hinit : ¬ (k.isExit = true ∧ p = s.table.initproc)) :
      Kind s (.call p k) (s.goto p k)
  | quiet {a : Act} {s' : State} (h : Quiet s s') : Kind s a s'

theorem Step.kind (hs : Step s a s') : Step.Kind s a s' := by
  cases hs with
  | go hr hn => exact .go hr hn
  | call hpc hr hk hinit => exact .call hpc hr hk hinit
  | schedule hr => exact .quiet (quiet_setState (by rw [hr]; rfl) (.inr rfl))
  | yield hpc hr => exact .quiet (quiet_setState (by rw [hr]; rfl) (.inl rfl))
  | @clockWake j i => exact .quiet { quiet_intrWake (s := s) .ticks i with }
  | @uartWake c j i => exact .quiet { quiet_intrWake (s := s) .cons i with }
  | _ => exact .quiet ⟨rfl, rfl, rfl, rfl, fun _ => .inl rfl⟩

/-- The child of a `fork` in progress. -/
def Pc.child : Pc → Option Slot
  | .forkParent np _ | .forkRunnable np _ => some np
  | _ => none

/-- Program points agree with the states of the processes. -/
structure Threads (s : State) : Prop where
  ok : ∀ q, (s.pc q).Ok q
  dead : ∀ q, s.pc q = .dead ↔ live (s.proc q).state = false
  asleep : ∀ q, (s.proc q).state = .sleeping →
    ∃ k c, s.pc q = .asleep k ∧ (s.proc q).chan = some c ∧ sleepsOn q c k = true
  child : ∀ p np, (s.pc p).child = some np → (s.proc np).state = .used
  unique : ∀ p q np, (s.pc p).child = some np → (s.pc q).child = some np → p = q

theorem Pc.ok_of_plain (h : k.plain = true) : k.Ok p := by
  cases k with
  | asleep k => cases h
  | wakeup c j k => exact h
  | _ => trivial

theorem Pc.child_of_plain (h : k.plain = true) : k.child = none := by
  cases k with
  | forkParent np pid => cases h
  | forkRunnable np pid => cases h
  | _ => rfl

theorem Pc.ne_dead_of_plain (h : k.plain = true) : k ≠ .dead := by
  rintro rfl
  cases h

/-- A process keeps its state, or has another one that is not SLEEPING. -/
def Stirs (x x' : Proc) : Prop :=
  x'.state = x.state ∧ (x.state = .sleeping → x'.chan = x.chan) ∨
    live x'.state = live x.state ∧ x'.state ≠ .sleeping ∧ x.state ≠ .used

theorem Stirs.refl (x : Proc) : Stirs x x := .inl ⟨rfl, fun _ => rfl⟩

theorem Threads.of_awake (h : Threads s) (hpc : ∀ q, q ≠ p → s'.pc q = s.pc q)
    (hp : s'.pc p = s.pc p ∨ (s'.pc p).child = (s.pc p).child ∧ s.pc p ≠ .dead ∧ s'.pc p ≠ .dead ∧
      (s'.pc p).Ok p ∧ (s.proc p).state ≠ .sleeping)
    (hproc : ∀ q, Stirs (s.proc q) (s'.proc q)) : Threads s' := by
  have hall : ∀ q, s'.pc q = s.pc q ∨ (s'.pc q).child = (s.pc q).child ∧ s.pc q ≠ .dead ∧
      s'.pc q ≠ .dead ∧ (s'.pc q).Ok q ∧ (s.proc q).state ≠ .sleeping := by
    intro q
    by_cases hq : q = p
    · rwa [hq]
    · exact .inl (hpc q hq)
  have hchild : ∀ q, (s'.pc q).child = (s.pc q).child := by
    intro q
    rcases hall q with hq | ⟨hq, -⟩
    · rw [hq]
    · exact hq
  refine ⟨fun q => ?_, fun q => ?_, fun q hq => ?_, fun r np hr => ?_, fun r r' np hr hr' => ?_⟩
  · rcases hall q with hq | ⟨-, -, -, hq, -⟩
    · rw [hq]
      exact h.ok q
    · exact hq
  · have hdead : s'.pc q = .dead ↔ s.pc q = .dead := by
      rcases hall q with hq | ⟨-, hq, hq', -, -⟩
      · rw [hq]
      · exact iff_of_false hq' hq
    rw [hdead, h.dead]
    rcases hproc q with ⟨hst, -⟩ | ⟨hl, -, -⟩
    · rw [hst]
    · rw [hl]
  · rcases hproc q with ⟨hst, hchan⟩ | ⟨-, hne, -⟩
    · rw [hst] at hq
      obtain ⟨k, c, hk, hc, hon⟩ := h.asleep q hq
      refine ⟨k, c, ?_, by rw [hchan hq, hc], hon⟩
      rcases hall q with hq' | ⟨-, -, -, -, hne⟩
      · rw [hq', hk]
      · exact absurd hq hne
    · exact absurd hq hne
  · rw [hchild] at hr
    have hused := h.child r np hr
    rcases hproc np with ⟨hst, -⟩ | ⟨-, -, hne⟩
    · rw [hst, hused]
    · exact absurd hused hne
  · rw [hchild] at hr hr'
    exact h.unique r r' np hr hr'

/-- `p` goes to another program point, and the process in slot `i` changes. -/
theorem Threads.of_set (h : Threads s) {p i : Slot} (hr : (s.proc p).state = .running)
    (hpc : ∀ q, q ≠ p → q ≠ i → s'.pc q = s.pc q) (hproc : ∀ q, q ≠ i → s'.proc q = s.proc q)
    (hp : (s'.pc p).Ok p ∧ (p ≠ i → s'.pc p ≠ .dead)) (hi : (s'.pc i).Ok i)
    (hdead : s'.pc i = .dead ↔ live (s'.proc i).state = false)
    (hasleep : (s'.proc i).state = .sleeping →
      ∃ k c, s'.pc i = .asleep k ∧ (s'.proc i).chan = some c ∧ sleepsOn i c k = true)
    (hchild : ∀ r np, (s'.pc r).child = some np →
      np ≠ i ∧ (s.pc r).child = some np ∨ np = i ∧ r = p ∧ (s'.proc i).state = .used) : Threads s' := by
  refine ⟨fun q => ?_, fun q => ?_, fun q hq => ?_, fun r np hc => ?_, fun r r' np hc hc' => ?_⟩
  · by_cases hqp : q = p
    · rw [hqp]
      exact hp.1
    · by_cases hqi : q = i
      · rwa [hqi]
      · rw [hpc q hqp hqi]
        exact h.ok q
  · by_cases hqi : q = i
    · rwa [hqi]
    · rw [hproc q hqi]
      by_cases hqp : q = p
      · subst hqp
        rw [hr]
        exact iff_of_false (hp.2 hqi) nofun
      · rw [hpc q hqp hqi]
        exact h.dead q
  · by_cases hqi : q = i
    · rw [hqi] at hq ⊢
      exact hasleep hq
    · rw [hproc q hqi] at hq ⊢
      have hqp : q ≠ p := by
        rintro rfl
        rw [hr] at hq
        cases hq
      rw [hpc q hqp hqi]
      exact h.asleep q hq
  · rcases hchild r np hc with ⟨hne, hold⟩ | ⟨rfl, -, hused⟩
    · rw [hproc np hne]
      exact h.child r np hold
    · exact hused
  · rcases hchild r np hc with ⟨hne, hold⟩ | ⟨rfl, rfl, -⟩
    · rcases hchild r' np hc' with ⟨-, hold'⟩ | ⟨heq, -⟩
      · exact h.unique r r' np hold hold'
      · exact absurd heq hne
    · rcases hchild r' np hc' with ⟨hne, -⟩ | ⟨-, rfl, -⟩
      · exact absurd rfl hne
      · rfl

theorem Threads.go (h : Threads s) (hr : (s.proc p).state = .running)
    (hn : next s.table s.shared p fault (s.pc p) = some n) : Threads (s.advance p n) := by
  have hdoes := next_does (h.ok p) hn
  obtain ⟨k', sh', e⟩ := n
  obtain ⟨k, hk⟩ : ∃ k, s.pc p = k := ⟨_, rfl⟩
  rw [hk] at hdoes
  have hdead : k ≠ .dead := by
    rw [← hk]
    intro hd
    rw [h.dead, hr] at hd
    cases hd
  have hns : (s.proc p).state ≠ .sleeping := by
    rw [hr]
    nofun
  have hold : ∀ q np, q ≠ p → e ≠ .runnable q →
      ((s.advance p (k', sh', e)).pc q).child = some np → (s.pc q).child = some np := by
    intro q np hq he hc
    rwa [advance_pc_ne hq he] at hc
  have hrunning : ∀ r np, (s.pc r).child = some np → np ≠ p := by
    rintro r np hc rfl
    rw [h.child r np hc] at hr
    cases hr
  -- the step to a program point where the process has the same child
  have hmove : ∀ {k' : Pc} {e : Effect}, (∀ q, e ≠ .runnable q) → k'.child = k.child → k' ≠ .dead →
      k'.Ok p → (∀ q, e.touches p q → Stirs (s.proc q) ((s.table.apply p e).proc q)) →
      Threads (s.advance p (k', sh', e)) := by
    intro k' e he hchild hdead' hok htouched
    refine h.of_awake (fun q hq => advance_pc_ne hq (he q)) (.inr ?_) fun q => ?_
    · rw [advance_pc_self, hk]
      exact ⟨hchild, hdead, hdead', hok, hns⟩
    · by_cases ht : e.touches p q
      · exact htouched q ht
      · rw [advance_proc_of_not_touches ht]
        exact .refl _
  cases hdoes with
  | none hk0 hk' =>
    exact hmove nofun ((Pc.child_of_plain hk').trans (Pc.child_of_plain hk0).symm)
      (Pc.ne_dead_of_plain hk') (Pc.ok_of_plain hk') fun q ht => ht.elim
  | tidy hk' =>
    refine hmove nofun (Pc.child_of_plain hk') (Pc.ne_dead_of_plain hk') (Pc.ok_of_plain hk') ?_
    rintro q rfl
    simp only [apply, setProc_proc, if_true]
    exact .inl ⟨rfl, fun hs => absurd hs hns⟩
  | @wake k c j i hi hk0 =>
    refine hmove nofun rfl nofun hk0 ?_
    rintro q rfl
    simp only [apply]
    split
    · next hw =>
      have hst : (s.proc q).state = .sleeping := hw.2.1
      rw [setProc_proc, if_pos rfl]
      exact .inr ⟨by rw [hst]; rfl, nofun, by rw [hst]; nofun⟩
    · exact .refl _
  | kill i hi hpid =>
    refine hmove nofun rfl nofun trivial ?_
    rintro q rfl
    simp only [apply, setProc_proc, if_true]
    split
    · next hst =>
      have hst : (s.proc q).state = .sleeping := hst
      exact .inr ⟨by rw [hst]; rfl, nofun, by rw [hst]; nofun⟩
    · exact .inl ⟨rfl, fun _ => rfl⟩
  | allocFail i hi =>
    refine hmove nofun rfl nofun trivial ?_
    rintro q rfl
    have hst : (s.proc q).state = .unused := hi
    simp only [apply, bumpPid_proc, setProc_proc, if_true]
    exact .inl ⟨hst.symm, fun hs => by rw [hst] at hs; cases hs⟩
  | reap i hi hp hz =>
    refine hmove nofun rfl nofun trivial ?_
    rintro q rfl
    have hst : (s.proc q).state = .zombie := hz
    simp only [apply, setProc_proc, if_true]
    exact .inr ⟨by rw [hst]; rfl, nofun, by rw [hst]; nofun⟩
  | reparent i hi hp =>
    refine hmove nofun rfl nofun rfl ?_
    rintro q rfl
    simp only [apply, setProc_proc, if_true]
    exact .inl ⟨rfl, fun _ => rfl⟩
  | @parent np pid =>
    refine hmove nofun rfl nofun trivial ?_
    rintro q rfl
    simp only [apply, setProc_proc, if_true]
    exact .inl ⟨rfl, fun _ => rfl⟩
  | @sleep _ k1 c hk0 hc =>
    have hself : (s.advance p (.asleep k1, sh', .sleep c)).proc p =
        { s.proc p with state := .sleeping, chan := some c } := by
      rw [advance_proc]
      simp only [apply, setProc_proc, if_true, State.proc]
    have hok : ((s.advance p (.asleep k1, sh', .sleep c)).pc p).Ok p := by
      rw [advance_pc_self]
      exact ⟨c, hc⟩
    refine h.of_set (i := p) hr (fun q hq _ => advance_pc_ne hq nofun)
      (fun q hq => advance_proc_of_not_touches hq) ⟨hok, fun hne => absurd rfl hne⟩ hok ?_
      (fun _ => ⟨k1, c, advance_pc_self, by rw [hself], hc⟩) fun r np hc => .inl ?_
    · rw [advance_pc_self, hself]
      exact iff_of_false nofun nofun
    · by_cases hrp : r = p
      · rw [hrp, advance_pc_self] at hc
        cases hc
      · have hc := hold r np hrp nofun hc
        exact ⟨hrunning r np hc, hc⟩
  | @alloc j i hi =>
    have hself : ((s.advance p (.forkParent i s.table.nextpid, sh', .alloc i)).proc i).state =
        .used := by
      rw [advance_proc]
      simp only [apply, bumpPid_proc, setProc_proc, if_true]
    have hi : (s.proc i).state = .unused := hi
    have hip : i ≠ p := by
      rintro rfl
      rw [hr] at hi
      cases hi
    have hpc : ∀ q, q ≠ p → (s.advance p (.forkParent i s.table.nextpid, sh', .alloc i)).pc q =
        s.pc q := fun q hq => advance_pc_ne hq nofun
    refine h.of_set (i := i) hr (fun q hq _ => hpc q hq) (fun q hq => advance_proc_of_not_touches hq)
      ?_ ?_ ?_ (fun hs => ?_) fun r np hc => ?_
    · rw [advance_pc_self]
      exact ⟨trivial, fun _ => nofun⟩
    · rw [hpc i hip]
      exact h.ok i
    · rw [hself, hpc i hip, h.dead, hi]
      exact iff_of_true rfl rfl
    · rw [hself] at hs
      cases hs
    · by_cases hrp : r = p
      · rw [hrp, advance_pc_self] at hc
        exact .inr ⟨(Option.some.inj hc).symm, hrp, hself⟩
      · have hr0 := hold r np hrp nofun hc
        -- the slot was not the child of another `fork`
        refine .inl ⟨?_, hr0⟩
        rintro rfl
        rw [h.child r np hr0] at hi
        cases hi
  | @runnable np pid =>
    have hforks : (s.pc p).child = some np := by
      rw [hk]
      rfl
    have hself : ((s.advance p (.user pid, sh', .runnable np)).proc np).state = .runnable := by
      rw [advance_proc]
      simp only [apply, setProc_proc, if_true]
    have hip : np ≠ p := hrunning p np hforks
    have hnpc : (s.advance p (.user pid, sh', .runnable np)).pc np = .user 0 :=
      advance_pc_runnable hip rfl
    have hrest : ∀ {q}, q ≠ np → Effect.runnable np ≠ .runnable q := by
      rintro q hq ⟨⟩
      exact hq rfl
    refine h.of_set (i := np) hr (fun q hq hqn => advance_pc_ne hq (hrest hqn))
      (fun q hq => advance_proc_of_not_touches hq) ?_ ?_ ?_ (fun hs => ?_) fun r c hc => .inl ?_
    · rw [advance_pc_self]
      exact ⟨trivial, fun _ => nofun⟩
    · rw [hnpc]
      trivial
    · rw [hself, hnpc]
      exact iff_of_false nofun nofun
    · rw [hself] at hs
      cases hs
    · by_cases hrp : r = p
      · rw [hrp, advance_pc_self] at hc
        cases hc
      · by_cases hrn : r = np
        · rw [hrn, hnpc] at hc
          cases hc
        · have hr0 := hold r c hrp (hrest hrn) hc
          refine ⟨?_, hr0⟩
          rintro rfl
          exact hrp (h.unique r p c hr0 hforks)
  | @zombie status =>
    have hself : ((s.advance p (.dead, sh', .zombie status)).proc p).state = .zombie := by
      rw [advance_proc]
      simp only [apply, setProc_proc, if_true]
    have hok : ((s.advance p (.dead, sh', .zombie status)).pc p).Ok p := by
      rw [advance_pc_self]
      trivial
    refine h.of_set (i := p) hr (fun q hq _ => advance_pc_ne hq nofun)
      (fun q hq => advance_proc_of_not_touches hq) ⟨hok, fun hne => absurd rfl hne⟩ hok ?_
      (fun hs => ?_) fun r np hc => .inl ?_
    · rw [advance_pc_self, hself]
      exact iff_of_true rfl rfl
    · rw [hself] at hs
      cases hs
    · by_cases hrp : r = p
      · rw [hrp, advance_pc_self] at hc
        cases hc
      · have hc := hold r np hrp nofun hc
        exact ⟨hrunning r np hc, hc⟩

theorem Threads.dead_of_runnable (h : Threads s) {p q : Slot}
    (hdoes : Does s.table p (s.pc p) k' (.runnable q)) : s.pc q = .dead := by
  obtain ⟨pid, hpp⟩ : ∃ pid, s.pc p = .forkRunnable q pid := by
    generalize s.pc p = k at hdoes
    cases hdoes
    exact ⟨_, rfl⟩
  rw [h.dead, h.child p q (by rw [hpp]; rfl)]
  rfl

theorem Does.sleeping {p q : Slot} (h : Does s.table p (s.pc p) n.1 n.2.2)
    (hq : (s.advance p n).pc q = s.pc q) (hs : ((s.advance p n).proc q).state = .sleeping) :
    (s.proc q).state = .sleeping := by
  rcases advance_sleeping hs with hs | ⟨rfl, c, hc⟩
  · exact hs
  · rw [advance_pc_self] at hq
    rw [hc, hq] at h
    generalize s.pc q = k at h
    cases h
    next hto _ => cases hto

theorem Threads.of_quiet (h : Threads s) (hq : Quiet s s') : Threads s' := by
  refine h.of_awake (p := 0) (fun q _ => by rw [hq.pc]) (.inl (by rw [hq.pc])) fun q => ?_
  rcases hq.proc q with hp | ⟨hl, x, hp, hx⟩
  · rw [hp]
    exact .refl _
  · have hused : (s.proc q).state ≠ .used := by
      intro hu
      rw [hu] at hl
      cases hl
    rw [hp, Stirs, hl]
    rcases hx with rfl | rfl <;> exact .inr ⟨rfl, nofun, hused⟩

theorem Threads.step (h : Threads s) (hs : Step s a s') : Threads s' := by
  cases hs.kind with
  | go hr hn => exact h.go hr hn
  | @call p r k hpc hr hk hinit =>
    have hplain := plain_of_isEntry hk
    refine h.of_awake (p := p) (fun q hq => by rw [goto_pc, if_neg hq]) (.inr ?_) fun q => .refl _
    rw [goto_pc, if_pos rfl, hpc]
    exact ⟨Pc.child_of_plain hplain, nofun, Pc.ne_dead_of_plain hplain, Pc.ok_of_plain hplain,
      by rw [hr]; nofun⟩
  | quiet hq => exact h.of_quiet hq

theorem Threads.initial : Threads .initial where
  ok q := by
    simp only [State.initial]
    split <;> trivial
  dead q := by
    simp only [State.initial, State.proc]
    split
    · exact iff_of_false nofun nofun
    · exact iff_of_true rfl rfl
  asleep q hq := by
    simp only [State.initial, State.proc] at hq
    split at hq <;> cases hq
  child p np hp := by
    simp only [State.initial] at hp
    split at hp <;> cases hp
  unique p q np hp := by
    simp only [State.initial] at hp
    split at hp <;> cases hp

end Xv6.Sync
