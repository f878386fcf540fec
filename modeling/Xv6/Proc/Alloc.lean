import Xv6.Sync.Kernel

/-!
# Taking and giving back process slots

Model of `allocpid`, `allocproc`, `freeproc`, `fork`, `exit` and `wait` of `kernel/proc.c`, step by step,
with the locks of the slots, `pid_lock` and `wait_lock`. The steps of one process interleave with those of
all others. `fork` holds the lock of the new slot over many steps; the other critical sections of a
`p->lock` are one step each, which waits while a `fork` has the lock.

Whether an allocation succeeds, and where it puts the page, is part of the action, as is the outcome of
`uvmcopy` and `copyout`. Timer interrupts come at any time, also while a process has a lock. `calls`
counts the calls of `allocpid` and is not part of the program.
-/

namespace Xv6.ProcAlloc

open Lib

export Sync (Slot ProcState Chan slot?)

/-- `struct proc`, with the addresses of the page table and of the trap frame. -/
structure Proc extends Sync.Proc where
  sz : ℕ
  pagetable : Option ℕ
  trapframe : Option ℕ

/-- `freeproc`. -/
def Proc.free : Proc := ⟨Sync.Proc.free, 0, none, none⟩

/-- Where `fork` is with the slot that it has found. -/
inductive Stage where
  /-- before `acquire(&pid_lock)` in `allocpid` -/
  | allocpid
  /-- `pid = nextpid`, with `pid_lock` -/
  | readPid
  /-- `nextpid = nextpid + 1`, with `pid_lock` -/
  | bumpPid (pid : ℤ)
  /-- `p->pid = allocpid()` -/
  | setPid (pid : ℤ)
  /-- `p->state = USED` -/
  | setUsed
  /-- before `kalloc` -/
  | trapframe
  /-- before `proc_pagetable` -/
  | pagetable
  /-- `allocproc` has returned; before `uvmcopy` -/
  | copy
  /-- after `freeproc` -/
  | release
  /-- before the first `release(&np->lock)` of `fork` -/
  | unlock
  /-- before `acquire(&wait_lock)` -/
  | parent
  /-- before the second `acquire(&np->lock)` -/
  | runnable
deriving DecidableEq

/-- Where a process is. -/
inductive Pc where
  /-- in user space, or in kernel code that does not concern this model -/
  | run
  /-- the loop of `allocproc` in `fork`, at process `j` -/
  | scan (j : ℕ)
  | fork (np : Slot) (k : Stage)
  | exit (status : ℤ)
  /-- the loop of `reparent`, with `wait_lock` -/
  | reparent (status : ℤ) (j : ℕ)
  /-- `wakeup(initproc)` in `reparent`, at process `k`; `reparent` goes on at `j` -/
  | wakeInit (status : ℤ) (j k : ℕ)
  /-- `wakeup(p->parent)` in `exit`, at process `k` -/
  | wakeParent (status : ℤ) (q : Slot) (k : ℕ)
  /-- before `acquire(&p->lock)` in `exit`, with `wait_lock` -/
  | zombie (status : ℤ)
  | dead
  | wait
  /-- the scan of `wait`, with `wait_lock` -/
  | waitScan (j : ℕ) (havekids : Bool)
  /-- the end of a round of `wait`, with `wait_lock` -/
  | waitEnd (havekids : Bool)
  /-- before `sleep(p, &wait_lock)` -/
  | waitSleep
  /-- in `sleep`, called by `wait` or elsewhere -/
  | asleep (wait : Bool)
  /-- the loop of `kill`, at process `j` -/
  | kill (pid : ℤ) (j : ℕ)
deriving DecidableEq

/-- The process table with its locks, each with the process that holds it. -/
structure State where
  proc : Slot → Proc
  nextpid : ℤ
  calls : ℕ
  initproc : Slot
  lock : Slot → Option Slot
  pidLock : Option Slot
  waitLock : Option Slot
  pc : Slot → Pc

namespace State

variable (s : State) (p : Slot)

def goto (k : Pc) : State := { s with pc := assign s.pc p k }

def setProc (i : Slot) (x : Proc) : State := { s with proc := assign s.proc i x }

/-- Change the fields that `Sync.Proc` has. -/
def modify (i : Slot) (f : Sync.Proc → Sync.Proc) : State :=
  s.setProc i { s.proc i with toProc := f (s.proc i).toProc }

def setLock (i : Slot) (x : Option Slot) : State := { s with lock := assign s.lock i x }

/-- A critical section of the lock of slot `i`. -/
def locked (i : Slot) (t : State) : Option State := if s.lock i = none then some t else none

/-- `acquire(&wait_lock)` -/
def acquireWait (t : State) : Option State :=
  if s.waitLock = none then some { t with waitLock := some p } else none

/-- The end of a call that holds `wait_lock`. -/
def releaseWait (k : Pc) : State := { s.goto p k with waitLock := none }

/-- `if(p->state == SLEEPING && p->chan == chan) p->state = RUNNABLE` -/
def wake (chan : Chan) (i : Slot) : State :=
  s.modify i fun x =>
    { x with state := if x.state = .sleeping ∧ x.chan = some chan then .runnable else x.state }

/-- `freeproc(np)` after a failure in `fork`. -/
def giveUp (np : Slot) : State := (s.setProc np .free).goto p (.fork np .release)

/-- The steps of `fork` of process `p` with the new slot `np`. -/
def fork (np : Slot) (ptr : Option ℕ) : Stage → Option State
  | .allocpid =>
    if s.pidLock = none then some { s.goto p (.fork np .readPid) with pidLock := some p } else none
  | .readPid => some (s.goto p (.fork np (.bumpPid s.nextpid)))
  | .bumpPid pid =>
    some { s.goto p (.fork np (.setPid pid)) with
      nextpid := Int.bmod (s.nextpid + 1) (2 ^ 32)
      calls := s.calls + 1
      pidLock := none }
  | .setPid pid => some ((s.modify np fun x => { x with pid := pid }).goto p (.fork np .setUsed))
  | .setUsed => some ((s.modify np fun x => { x with state := .used }).goto p (.fork np .trapframe))
  | .trapframe =>
    match ptr with
    | none => some (s.giveUp p np)
    | some a =>
      some ((s.setProc np { s.proc np with trapframe := some a }).goto p (.fork np .pagetable))
  | .pagetable =>
    match ptr with
    | none => some (s.giveUp p np)
    | some a => some ((s.setProc np { s.proc np with pagetable := some a }).goto p (.fork np .copy))
  | .copy =>
    match ptr with
    | none => some (s.giveUp p np)
    | some _ => some ((s.setProc np { s.proc np with sz := (s.proc p).sz }).goto p (.fork np .unlock))
  | .release => some ((s.setLock np none).goto p .run)
  | .unlock => some ((s.setLock np none).goto p (.fork np .parent))
  | .parent =>
    if s.waitLock = none then
      some ((s.modify np fun x => { x with parent := some p }).goto p (.fork np .runnable))
    else none
  | .runnable => s.locked np ((s.modify np fun x => { x with state := .runnable }).goto p .run)

/-- The next step of process `p`, if it runs. -/
def go (ptr : Option ℕ) : Option State :=
  if (s.proc p).state = .running then
    match s.pc p with
    | .run => none
    | .scan j =>
      match slot? j with
      | none => some (s.goto p .run)
      | some i =>
        s.locked i (if (s.proc i).state = .unused then
          (s.setLock i (some p)).goto p (.fork i .allocpid) else s.goto p (.scan (j + 1)))
    | .fork np k => s.fork p np ptr k
    | .exit status => s.acquireWait p (s.goto p (.reparent status 0))
    | .reparent status j =>
      match slot? j with
      | none =>
        match (s.proc p).parent with
        | none => some (s.goto p (.zombie status))
        | some q => some (s.goto p (.wakeParent status q 0))
      | some i =>
        if (s.proc i).parent = some p then
          some ((s.modify i fun x => { x with parent := some s.initproc }).goto p
            (.wakeInit status (j + 1) 0))
        else some (s.goto p (.reparent status (j + 1)))
    | .wakeInit status j k =>
      match slot? k with
      | none => some (s.goto p (.reparent status j))
      | some i =>
        if i = p then some (s.goto p (.wakeInit status j (k + 1)))
        else s.locked i ((s.wake (.proc s.initproc) i).goto p (.wakeInit status j (k + 1)))
    | .wakeParent status q k =>
      match slot? k with
      | none => some (s.goto p (.zombie status))
      | some i =>
        if i = p then some (s.goto p (.wakeParent status q (k + 1)))
        else s.locked i ((s.wake (.proc q) i).goto p (.wakeParent status q (k + 1)))
    | .zombie status =>
      s.locked p ((s.modify p fun x => { x with xstate := status, state := .zombie }).releaseWait p
        .dead)
    | .dead => none
    | .wait => s.acquireWait p (s.goto p (.waitScan 0 false))
    | .waitScan j havekids =>
      match slot? j with
      | none => some (s.goto p (.waitEnd havekids))
      | some i =>
        if (s.proc i).parent = some p then
          s.locked i (if (s.proc i).state = .zombie then
            match ptr with
            | none => s.releaseWait p .run
            | some _ => (s.setProc i .free).releaseWait p .run
          else s.goto p (.waitScan (j + 1) true))
        else some (s.goto p (.waitScan (j + 1) havekids))
    | .waitEnd havekids =>
      if havekids then
        s.locked p (if (s.proc p).killed then s.releaseWait p .run else s.goto p .waitSleep)
      else some (s.releaseWait p .run)
    | .waitSleep =>
      s.locked p ((s.modify p fun x => { x with chan := some (.proc p), state := .sleeping }).releaseWait
        p (.asleep true))
    | .asleep wait =>
      some ((s.modify p fun x => { x with chan := none }).goto p (if wait then .wait else .run))
    | .kill pid j =>
      match slot? j with
      | none => some (s.goto p .run)
      | some i =>
        s.locked i (if (s.proc i).pid = pid then
          (s.modify i fun x => { x with
            killed := true, state := if x.state = .sleeping then .runnable else x.state }).goto p .run
        else s.goto p (.kill pid (j + 1)))
  else none

end State

/-- What a process can call. -/
inductive Call where
  | fork
  | exit (status : ℤ)
  | wait
  | kill (pid : ℤ)
  | sleep (chan : Chan)
  | growproc (sz : ℕ)
  | exec (pagetable sz : ℕ)

/-- The call `f` of process `p`. `exit` of `init` panics. -/
def State.call (s : State) (p : Slot) : Call → Option State
  | .fork => some (s.goto p (.scan 0))
  | .exit status => if p = s.initproc then none else some (s.goto p (.exit status))
  | .wait => some (s.goto p .wait)
  | .kill pid => some (s.goto p (.kill pid 0))
  | .sleep chan =>
    s.locked p ((s.modify p fun x => { x with chan := some chan, state := .sleeping }).goto p
      (.asleep false))
  | .growproc sz => some (s.setProc p { s.proc p with sz := sz })
  | .exec pagetable sz => some (s.setProc p { s.proc p with pagetable := some pagetable, sz := sz })

/-- The actions. -/
inductive Act where
  /-- the next step of a process -/
  | go (p : Slot) (ptr : Option ℕ)
  | call (p : Slot) (f : Call)
  /-- the scheduler picks `p` -/
  | schedule (p : Slot)
  /-- a timer interrupt -/
  | yield (p : Slot)
  /-- `wakeup` of an interrupt or of other kernel code -/
  | wakeup (chan : Chan) (i : Slot)

/-- One action. -/
def step (s : State) : Act → Option State
  | .go p ptr => s.go p ptr
  | .call p f => if (s.proc p).state = .running ∧ s.pc p = .run then s.call p f else none
  | .schedule p =>
    if (s.proc p).state = .runnable then
      s.locked p (s.modify p fun x => { x with state := .running })
    else none
  | .yield p =>
    if (s.proc p).state = .running then
      s.locked p (s.modify p fun x => { x with state := .runnable })
    else none
  | .wakeup chan i => s.locked i (s.wake chan i)

/-- After `userinit`: `init` is runnable, with its page table and its trap frame somewhere. -/
def State.initial (pagetable trapframe : ℕ) : State where
  proc := fun i =>
    if i = 0 then ⟨⟨.runnable, none, false, 0, 1, none⟩, 4096, some pagetable, some trapframe⟩
    else .free
  nextpid := 2
  calls := 1
  initproc := 0
  lock := fun _ => none
  pidLock := none
  waitLock := none
  pc := fun _ => .run

/-- The process table from `userinit` on. -/
def machine : Machine State Act where
  init s := ∃ pagetable trapframe, s = .initial pagetable trapframe
  step := step

end Xv6.ProcAlloc
