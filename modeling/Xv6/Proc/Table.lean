import Mathlib.Data.Fintype.Basic
import Xv6.CString
import Xv6.Lib.Transition
import Xv6.Param

/-!
# The process table

Model of the process table of `kernel/proc.c` and of the code that changes it: `userinit`, `fork`,
`exec`, the scheduler, `yield`, `sleep`, `wakeup`, `kill`, `exit` and `wait`. A step is one critical
section of `p->lock` or `wait_lock`; `fork` takes several, so a process can be seen before its name
is copied, before it has a parent and before it is runnable. `allocproc`, `wakeup` and `kill` scan all
slots in one step: in the kernel, `kill(0)` can meet a slot that `wait` frees during the scan. The fields of `struct proc` that only
memory management, context switches and files use are left out.

`allocpid` is not enabled at the largest `int`: the signed increment of `nextpid` would overflow. The
panic of an exiting `init` ends the run.
-/

namespace Xv6.ProcTable

/-- Index of a process in `proc[NPROC]`. -/
abbrev Slot := Fin NPROC

/-- `enum procstate`. -/
inductive ProcState where
  | unused
  | used
  | sleeping
  | runnable
  | running
  | zombie
deriving DecidableEq

/-- The value of the enumerator. -/
def ProcState.toNat : ProcState → ℕ
  | unused => 0
  | used => 1
  | sleeping => 2
  | runnable => 3
  | running => 4
  | zombie => 5

/-- A sleep channel: the address of a process or another kernel address. -/
inductive Chan where
  | proc (i : Slot)
  | addr (a : ℕ)
deriving DecidableEq

/-- `sizeof(p->name)` -/
abbrev NAMESIZE : ℕ := 16

/-- The fields of `struct proc` that the process table's code reads. -/
structure Proc where
  state : ProcState
  chan : Option Chan
  killed : Bool
  xstate : ℤ
  pid : ℤ
  parent : Option Slot
  name : List UInt8

/-- `freeproc`. -/
def Proc.freeproc (p : Proc) : Proc where
  state := .unused
  chan := none
  killed := false
  xstate := 0
  pid := 0
  parent := none
  name := p.name.set 0 0

/-- Where a process is in `fork`, with the child it is making. -/
inductive Pc where
  | run
  /-- `allocproc` has returned the child -/
  | allocated (np : Slot)
  /-- memory, files and name are copied -/
  | copied (np : Slot)
  /-- the child has its parent -/
  | parented (np : Slot)
deriving DecidableEq

/-- The child of a `fork` in progress. -/
def Pc.child : Pc → Option Slot
  | .run => none
  | .allocated np | .copied np | .parented np => some np

/-- The process table and the control state of each process. -/
structure State where
  proc : Slot → Proc
  nextpid : ℤ
  initproc : Option Slot
  pc : Slot → Pc

/-- The table after `procinit`: static storage is zero. -/
def State.initial : State where
  proc := fun _ => ⟨.unused, none, false, 0, 0, none, List.replicate NAMESIZE 0⟩
  nextpid := 1
  initproc := none
  pc := fun _ => .run

namespace State

variable (s : State)

/-- Replace process `i`. -/
def setProc (i : Slot) (p : Proc) : State := { s with proc := Function.update s.proc i p }

/-- Move process `i` to `c`. -/
def goto (i : Slot) (c : Pc) : State := { s with pc := Function.update s.pc i c }

/-- The first slot, in table order, that satisfies `f`. -/
def find (f : Proc → Bool) : Option Slot := (List.finRange NPROC).find? fun i => f (s.proc i)

/-- `allocproc`: the first unused slot gets the next pid. -/
def allocproc : Option (Slot × State) :=
  match s.find fun p => p.state == .unused with
  | none => none
  | some i =>
    if s.nextpid < 2 ^ 31 - 1 then
      some (i, { s.setProc i { s.proc i with pid := s.nextpid, state := .used } with
        nextpid := s.nextpid + 1 })
    else none

/-- `userinit`. -/
def userinit : Option State :=
  match s.allocproc with
  | none => none
  | some (i, t) =>
    some { t.setProc i { t.proc i with
        name := safestrcpy (t.proc i).name (literal "initcode") NAMESIZE, state := .runnable } with
      initproc := some i }

/-- `wakeup(chan)`. -/
def wakeup (c : Chan) : State :=
  { s with proc := fun i =>
      if (s.proc i).state = .sleeping ∧ (s.proc i).chan = some c then
        { s.proc i with state := .runnable }
      else s.proc i }

/-- `kill(pid)`. -/
def kill (pid : ℤ) : State :=
  match s.find fun p => p.pid == pid with
  | none => s
  | some i =>
    s.setProc i { s.proc i with
      killed := true
      state := if (s.proc i).state = .sleeping then .runnable else (s.proc i).state }

/-- `reparent(p)`, less its wakeups. -/
def reparent (p : Slot) : State :=
  { s with proc := fun i =>
      if (s.proc i).parent = some p then { s.proc i with parent := s.initproc } else s.proc i }

/-- The wakeups of `reparent` and `exit`. -/
def wakeupAll (cs : List Slot) : State := cs.foldl (fun t i => t.wakeup (.proc i)) s

/-- `exit(status)` of process `p`, from `acquire(&wait_lock)` on. -/
def exit (p : Slot) (status : ℤ) : State :=
  let children := (List.finRange NPROC).filter fun i => (s.proc i).parent = some p
  let woken := (s.reparent p).wakeupAll
    ((if children = [] then [] else s.initproc.toList) ++ (s.proc p).parent.toList)
  woken.setProc p { woken.proc p with xstate := status, state := .zombie }

/-- The zombie that `wait` of process `p` finds: its first exited child. -/
def zombieChild (p : Slot) : Option Slot :=
  s.find fun q => decide (q.parent = some p) && q.state == .zombie

end State

/-- The steps. -/
inductive Act where
  | userinit
  /-- `fork`: `allocproc` succeeds -/
  | forkAlloc (p : Slot)
  /-- `allocproc` or `uvmcopy` runs out of memory and the child is freed -/
  | forkFail (p : Slot)
  | forkCopy (p : Slot)
  | forkParent (p : Slot)
  | forkRunnable (p : Slot)
  /-- `exec` of a file whose path's last element is the terminated string `last` -/
  | exec (p : Slot) (last : List UInt8)
  /-- the scheduler picks `p` -/
  | schedule (p : Slot)
  | yield (p : Slot)
  | sleep (p : Slot) (chan : Chan)
  | wakeup (chan : Chan)
  | kill (pid : ℤ)
  | exit (p : Slot) (status : ℤ)
  /-- `wait` reaps an exited child -/
  | wait (p : Slot)

/-- One step of the process table. -/
def step (s : State) : Act → Option State
  | .userinit => if s.initproc = none then s.userinit else none
  | .forkAlloc p =>
    if (s.proc p).state = .running ∧ s.pc p = .run then
      s.allocproc.map fun r => r.2.goto p (.allocated r.1)
    else none
  | .forkFail p =>
    match s.pc p with
    | .allocated np => some ((s.setProc np (s.proc np).freeproc).goto p .run)
    | _ => none
  | .forkCopy p =>
    match s.pc p with
    | .allocated np =>
      some ((s.setProc np { s.proc np with
        name := safestrcpy (s.proc np).name (s.proc p).name NAMESIZE }).goto p (.copied np))
    | _ => none
  | .forkParent p =>
    match s.pc p with
    | .copied np =>
      some ((s.setProc np { s.proc np with parent := some p }).goto p (.parented np))
    | _ => none
  | .forkRunnable p =>
    match s.pc p with
    | .parented np => some ((s.setProc np { s.proc np with state := .runnable }).goto p .run)
    | _ => none
  | .exec p last =>
    if (s.proc p).state = .running ∧ s.pc p = .run ∧ 0 ∈ last then
      some (s.setProc p { s.proc p with name := safestrcpy (s.proc p).name last NAMESIZE })
    else none
  | .schedule p =>
    if (s.proc p).state = .runnable then
      some (s.setProc p { s.proc p with state := .running })
    else none
  | .yield p =>
    if (s.proc p).state = .running then
      some (s.setProc p { s.proc p with state := .runnable })
    else none
  | .sleep p chan =>
    if (s.proc p).state = .running then
      some (s.setProc p { s.proc p with state := .sleeping, chan := some chan })
    else none
  | .wakeup chan => some (s.wakeup chan)
  | .kill pid => some (s.kill pid)
  | .exit p status =>
    if (s.proc p).state = .running ∧ s.pc p = .run ∧ s.initproc ≠ some p then
      some (s.exit p status)
    else none
  | .wait p =>
    if (s.proc p).state = .running ∧ s.pc p = .run then
      (s.zombieChild p).map fun i => s.setProc i (s.proc i).freeproc
    else none

/-- The process table from boot on. -/
def machine : Lib.Machine State Act where
  init s := s = .initial
  step := step

end Xv6.ProcTable
