import Xv6.Sync.Kernel

/-!
# Scheduling on several CPUs

Model of `scheduler`, `sched`, `swtch`, `yield`, `sleep`, `wakeup`, `kill`, `fork`, `exit` and `wait`
on any number of CPUs, with every operation on a `p->lock` as a step of its own. A CPU executes code on
a stack: the kernel stack of a process, or the one it booted with, on which its `scheduler` runs.
`swtch` first writes the old context, which is incomplete for a while, and then loads the new one, so
`p->lock` is acquired by one thread and released by another.

The locks other than `p->lock` are left out; they only forbid interleavings. So are the checks of
`noff` and of the interrupt flag in `sched`, and memory: whether an allocation or a `copyout` fails is
part of the action. Interrupts come at any point where the CPU holds no `p->lock`. A CPU that panics
takes no further step.
-/

namespace Xv6.Sched

open Lib

export Sync (Slot ProcState Chan Proc slot?)

/-- A stack, and with it the context that is saved when its thread is switched out: `p->context` or
`c->context`. -/
inductive Stack (C : Type) where
  | proc (p : Slot)
  | cpu (c : C)
deriving DecidableEq

/-- Where a CPU is. Locals of the C functions are arguments and `k` is where a call returns to. A comment
names the lock that is held. -/
inductive Pc (C : Type) where
  /-- the start of `scheduler` -/
  | boot
  /-- the loop of `scheduler`, at process `j` -/
  | scan (j : ℕ)
  /-- `if(p->state == RUNNABLE)`, with `p->lock` -/
  | schedTest (p : Slot)
  /-- `c->proc = p`, with `p->lock` -/
  | schedProc (p : Slot)
  /-- `c->proc = 0` after `swtch`, with `p->lock` -/
  | schedBack (p : Slot)
  | acquire (p : Slot) (k : Pc C)
  | release (p : Slot) (k : Pc C)
  /-- `sched`, with `p->lock` -/
  | sched (p : Slot) (k : Pc C)
  /-- `swtch`, before the first store, with the lock of the process that comes or goes -/
  | swtch (old new : Stack C) (k : Pc C)
  /-- `swtch`, before the last store -/
  | store (old new : Stack C) (k : Pc C)
  /-- `swtch`, before the loads -/
  | load (old new : Stack C)
  /-- a process in user space, or in kernel code that does not concern this model -/
  | run
  /-- `forkret` on the stack of `p`, with `p->lock` -/
  | forkret (p : Slot)
  /-- `yield`, with `p->lock` -/
  | yield (p : Slot) (k : Pc C)
  /-- `sleep`, with `p->lock` -/
  | sleep (p : Slot) (chan : Chan) (k : Pc C)
  /-- `p->chan = 0` in `sleep`, with `p->lock` -/
  | tidy (p : Slot) (k : Pc C)
  /-- the loop of `wakeup`, at process `j` -/
  | wakeup (chan : Chan) (j : ℕ) (k : Pc C)
  /-- its body, with the lock of `i` -/
  | wake (chan : Chan) (i : Slot) (k : Pc C)
  /-- the loop of `kill`, at process `j` -/
  | kill (pid : ℤ) (j : ℕ)
  /-- its body, with the lock of `i` -/
  | killTest (pid : ℤ) (i : Slot)
  /-- `setkilled`, with `p->lock` -/
  | setkilled (p : Slot)
  /-- the loop of `allocproc` in `fork` of process `p`, at process `j` -/
  | forkScan (p : Slot) (j : ℕ)
  /-- its body, with the lock of `i` -/
  | forkTest (p i : Slot)
  /-- the rest of `allocproc` and the copies of `fork`, with the lock of `np` -/
  | forkSetup (p np : Slot)
  | forkParent (p np : Slot)
  /-- `np->state = RUNNABLE`, with the lock of `np` -/
  | forkRunnable (np : Slot)
  /-- `reparent` in `exit`, at process `j` -/
  | exitReparent (p : Slot) (status : ℤ) (j : ℕ)
  /-- with `p->lock` -/
  | exitZombie (p : Slot) (status : ℤ)
  /-- the panic at the end of `exit` -/
  | zombieExit (p : Slot)
  /-- the scan of `wait`, at process `j` -/
  | waitScan (p : Slot) (j : ℕ) (havekids : Bool)
  /-- its body, with the lock of `i` -/
  | waitTest (p i : Slot)
  /-- `killed(p)` in `wait`, with `p->lock` -/
  | waitKilled (p : Slot)
deriving DecidableEq

/-- `struct context`: where the thread goes on and its stack. -/
structure Context (C : Type) where
  ra : Pc C
  sp : Stack C
deriving DecidableEq

/-- The process table and the CPUs. A context is `none` before its first use and while `swtch` writes
it. -/
structure State (C : Type) where
  proc : Slot → Proc
  initproc : Slot
  nextpid : ℤ
  /-- the CPU that holds `p->lock` -/
  lock : Slot → Option C
  context : Stack C → Option (Context C)
  /-- `c->proc` -/
  cur : C → Option Slot
  pc : C → Pc C
  sp : C → Stack C

variable {C : Type} [DecidableEq C]

namespace State

variable (s : State C) (c : C)

def goto (k : Pc C) : State C := { s with pc := assign s.pc c k }

def setProc (i : Slot) (x : Proc) : State C := { s with proc := assign s.proc i x }

def setState (i : Slot) (x : ProcState) : State C := s.setProc i { s.proc i with state := x }

def setLock (i : Slot) (x : Option C) : State C := { s with lock := assign s.lock i x }

def setCur (x : Option Slot) : State C := { s with cur := assign s.cur c x }

def setContext (x : Stack C) (v : Option (Context C)) : State C :=
  { s with context := assign s.context x v }

/-- The loads of `swtch`. -/
def resume (v : Context C) : State C :=
  { s with pc := assign s.pc c v.ra, sp := assign s.sp c v.sp }

/-! ## The functions of `proc.c` -/

/-- `acquire(&p->lock)`, which spins while the lock is taken. -/
def acquire (p : Slot) (k : Pc C) : Option (State C) :=
  if s.lock p = none then some ((s.setLock p (some c)).goto c k) else none

/-- `release(&p->lock)`, which panics unless this CPU holds the lock. -/
def release (p : Slot) (k : Pc C) : Option (State C) :=
  if s.lock p = some c then some ((s.setLock p none).goto c k) else none

/-- The body of the loop of `scheduler`, up to `swtch`. -/
def schedTest (p : Slot) : State C :=
  if (s.proc p).state = .runnable then (s.setState p .running).goto c (.schedProc p)
  else s.goto c (.release p (.scan (p.val + 1)))

/-- `sched`, up to `swtch`. -/
def sched (p : Slot) (k : Pc C) : Option (State C) :=
  if s.lock p = some c ∧ (s.proc p).state ≠ .running then
    some (s.goto c (.swtch (.proc p) (.cpu c) k))
  else none

/-- The body of the loop of `wakeup`. -/
def wake (chan : Chan) (i : Slot) (k : Pc C) : State C :=
  (if (s.proc i).state = .sleeping ∧ (s.proc i).chan = some chan then s.setState i .runnable
    else s).goto c (.release i (.wakeup chan (i.val + 1) k))

/-- The body of the loop of `kill`. -/
def killTest (pid : ℤ) (i : Slot) : State C :=
  if (s.proc i).pid = pid then
    (s.setProc i { s.proc i with
      killed := true
      state := if (s.proc i).state = .sleeping then .runnable else (s.proc i).state }).goto c
        (.release i .run)
  else s.goto c (.release i (.kill pid (i.val + 1)))

/-- The body of the loop of `allocproc`. -/
def forkTest (p i : Slot) : State C :=
  if (s.proc i).state = .unused then
    { s.setProc i { s.proc i with pid := s.nextpid, state := .used } with
      nextpid := Int.bmod (s.nextpid + 1) (2 ^ 32) }.goto c (.forkSetup p i)
  else s.goto c (.release i (.forkScan p (i.val + 1)))

/-- The rest of `allocproc` and what `fork` does before it releases the lock of the child. -/
def forkSetup (p np : Slot) (fault : Bool) : State C :=
  if fault then (s.setProc np .free).goto c (.release np .run)
  else
    (s.setContext (.proc np) (some ⟨.forkret np, .proc np⟩)).goto c (.release np (.forkParent p np))

/-- The loop of `reparent`, and what `exit` does then. -/
def exitReparent (p : Slot) (status : ℤ) (j : ℕ) : State C :=
  match slot? j with
  | none =>
    match (s.proc p).parent with
    | none => s.goto c (.acquire p (.exitZombie p status))
    | some q => s.goto c (.wakeup (.proc q) 0 (.acquire p (.exitZombie p status)))
  | some i =>
    if (s.proc i).parent = some p then
      (s.setProc i { s.proc i with parent := some s.initproc }).goto c
        (.wakeup (.proc s.initproc) 0 (.exitReparent p status (j + 1)))
    else s.goto c (.exitReparent p status (j + 1))

/-- The scan of `wait`. -/
def waitScan (p : Slot) (j : ℕ) (havekids : Bool) : State C :=
  match slot? j with
  | none => if havekids then s.goto c (.acquire p (.waitKilled p)) else s.goto c .run
  | some i =>
    if (s.proc i).parent = some p then s.goto c (.acquire i (.waitTest p i))
    else s.goto c (.waitScan p (j + 1) havekids)

/-- The body of the scan. -/
def waitTest (p i : Slot) (fault : Bool) : State C :=
  if (s.proc i).state = .zombie then
    if fault then s.goto c (.release i .run)
    else (s.setProc i .free).goto c (.release i .run)
  else s.goto c (.release i (.waitScan p (i.val + 1) true))

/-- The end of a round of `wait`. -/
def waitKilled (p : Slot) : State C :=
  if (s.proc p).killed then s.goto c (.release p .run)
  else
    s.goto c (.release p (.acquire p (.sleep p (.proc p) (.waitScan p 0 false))))

/-- The next step of CPU `c`. -/
def go (fault : Bool) : Option (State C) :=
  match s.pc c with
  | .boot => some ((s.setCur c none).goto c (.scan 0))
  | .scan j =>
    match slot? j with
    | none => some (s.goto c (.scan 0))
    | some p => some (s.goto c (.acquire p (.schedTest p)))
  | .schedTest p => some (s.schedTest c p)
  | .schedProc p =>
    some ((s.setCur c (some p)).goto c (.swtch (.cpu c) (.proc p) (.schedBack p)))
  | .schedBack p => some ((s.setCur c none).goto c (.release p (.scan (p.val + 1))))
  | .acquire p k => s.acquire c p k
  | .release p k => s.release c p k
  | .sched p k => s.sched c p k
  | .swtch old new k => some ((s.setContext old none).goto c (.store old new k))
  | .store old new k => some ((s.setContext old (some ⟨k, s.sp c⟩)).goto c (.load old new))
  | .load _ new => (s.context new).map (s.resume c)
  | .run => none
  | .forkret _ => (s.cur c).map fun p => s.goto c (.release p .run)
  | .yield p k => some ((s.setState p .runnable).goto c (.sched p (.release p k)))
  | .sleep p chan k =>
    some ((s.setProc p { s.proc p with chan := some chan, state := .sleeping }).goto c
      (.sched p (.tidy p k)))
  | .tidy p k => some ((s.setProc p { s.proc p with chan := none }).goto c (.release p k))
  | .wakeup chan j k =>
    match slot? j with
    | none => some (s.goto c k)
    | some i =>
      if s.cur c = some i then some (s.goto c (.wakeup chan (j + 1) k))
      else some (s.goto c (.acquire i (.wake chan i k)))
  | .wake chan i k => some (s.wake c chan i k)
  | .kill pid j =>
    match slot? j with
    | none => some (s.goto c .run)
    | some i => some (s.goto c (.acquire i (.killTest pid i)))
  | .killTest pid i => some (s.killTest c pid i)
  | .setkilled p =>
    some ((s.setProc p { s.proc p with killed := true }).goto c (.release p .run))
  | .forkScan p j =>
    match slot? j with
    | none => some (s.goto c .run)
    | some i => some (s.goto c (.acquire i (.forkTest p i)))
  | .forkTest p i => some (s.forkTest c p i)
  | .forkSetup p np => some (s.forkSetup c p np fault)
  | .forkParent p np =>
    some ((s.setProc np { s.proc np with parent := some p }).goto c
      (.acquire np (.forkRunnable np)))
  | .forkRunnable np => some ((s.setState np .runnable).goto c (.release np .run))
  | .exitReparent p status j => some (s.exitReparent c p status j)
  | .exitZombie p status =>
    some ((s.setProc p { s.proc p with xstate := status, state := .zombie }).goto c
      (.sched p (.zombieExit p)))
  | .zombieExit _ => none
  | .waitScan p j havekids => some (s.waitScan c p j havekids)
  | .waitTest p i => some (s.waitTest c p i fault)
  | .waitKilled p => some (s.waitKilled c p)

end State

/-- What a process can call. -/
inductive Call where
  | sleep (chan : Chan)
  | wakeup (chan : Chan)
  | kill (pid : ℤ)
  | setkilled
  | fork
  | exit (status : ℤ)
  | wait
deriving DecidableEq

/-- The first program point of a call of process `p`. -/
def Call.entry (p : Slot) : Call → Pc C
  | .sleep chan => .acquire p (.sleep p chan .run)
  | .wakeup chan => .wakeup chan 0 .run
  | .kill pid => .kill pid 0
  | .setkilled => .acquire p (.setkilled p)
  | .fork => .forkScan p 0
  | .exit status => .exitReparent p status 0
  | .wait => .waitScan p 0 false

/-- The lock of a process that a CPU holds. -/
def Pc.holds : Pc C → Option Slot
  | schedTest p | schedProc p | schedBack p | release p _ | sched p _ | forkret p | yield p _
  | sleep p _ _ | tidy p _ | setkilled p | forkRunnable p | exitZombie p _ | zombieExit p
  | waitKilled p => some p
  | wake _ i _ | killTest _ i | forkTest _ i | forkSetup _ i | waitTest _ i => some i
  | swtch (.proc p) _ _ | store (.proc p) _ _ | load (.proc p) _ => some p
  | swtch _ (.proc p) _ | store _ (.proc p) _ | load _ (.proc p) => some p
  | _ => none

inductive Act (C : Type) where
  /-- the next step of a CPU -/
  | go (c : C) (fault : Bool)
  /-- the process that CPU `c` runs calls the kernel -/
  | call (c : C) (f : Call)
  /-- a device interrupt whose handler calls `wakeup` -/
  | intr (c : C) (chan : Chan)
  /-- a timer interrupt, whose handler calls `yield` if a process runs -/
  | timer (c : C)
deriving DecidableEq

/-- One step of the machine. `exit` of `init` panics. -/
def step (s : State C) : Act C → Option (State C)
  | .go c fault => s.go c fault
  | .call c f =>
    match s.pc c, s.cur c with
    | .run, some p =>
      match f with
      | .exit _ => if p = s.initproc then none else some (s.goto c (f.entry p))
      | _ => some (s.goto c (f.entry p))
    | _, _ => none
  | .intr c chan =>
    if (s.pc c).holds = none then some (s.goto c (.wakeup chan 0 (s.pc c))) else none
  | .timer c =>
    match s.cur c with
    | none => none
    | some p =>
      if (s.pc c).holds = none ∧ (s.proc p).state = .running then
        some (s.goto c (.acquire p (.yield p (s.pc c))))
      else none

/-- After `userinit`: `init` is runnable and every CPU calls `scheduler`. -/
def State.initial : State C where
  proc := fun i => if i = 0 then ⟨.runnable, none, false, 0, 1, none⟩ else .free
  initproc := 0
  nextpid := 2
  lock := fun _ => none
  context := fun x => if x = .proc 0 then some ⟨.forkret 0, .proc 0⟩ else none
  cur := fun _ => none
  pc := fun _ => .boot
  sp := .cpu

/-- The scheduler on the CPUs `C`. -/
def machine : Machine (State C) (Act C) where
  init s := s = .initial
  step := step

end Xv6.Sched
