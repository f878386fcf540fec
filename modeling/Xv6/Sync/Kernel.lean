import Xv6.Lib.Writes
import Xv6.Proc.Table

/-!
# Processes that sleep and wake each other

Model of the system calls in which processes wait for each other: `fork`, `exit`, `wait`, `kill`,
`pipewrite`, `piperead` and `pipeclose` on one pipe, `consoleread` with the console interrupt, and
`sys_sleep` with the clock interrupt. Every process has a program point. A step takes one process from
one lock operation to the next: a critical section of `p->lock` is one step, so `wakeup` and `kill`
visit the process table slot by slot, while `wait_lock`, `pi->lock`, `cons.lock` and `tickslock` are
held over many steps. `sleep` gives up the lock it was called with in the step that makes the process
SLEEPING, since it holds `p->lock` over both.

Memory is not modelled: whether `copyin`, `copyout` or an allocation fails is part of the action. The
fields of `struct proc` that no step here reads are left out. `pi`'s page is not reused after
`pipeclose` has freed it.
-/

namespace Xv6.Sync

open Lib

export ProcTable (Slot ProcState)

/-- A sleep channel: the address of a process, of the pipe's counters, of the console's read index, of
`ticks`, or another kernel address. -/
inductive Chan where
  | proc (i : Slot)
  | nread
  | nwrite
  | cons
  | ticks
  | other (a : ℕ)
deriving DecidableEq

/-- The fields of `struct proc` that sleeping, killing, exiting and waiting use. -/
structure Proc where
  state : ProcState
  chan : Option Chan
  killed : Bool
  xstate : ℤ
  pid : ℤ
  parent : Option Slot

/-- `freeproc`. -/
def Proc.free : Proc := ⟨.unused, none, false, 0, 0, none⟩

/-- Where a process is. Locals of the C functions are arguments; a call returns to `user`. -/
inductive Pc where
  /-- in user space, or in code that does not concern this model, with the last return value -/
  | user (ret : ℤ)
  /-- in `sched`, called by `sleep`; `k` acquires the lock again -/
  | asleep (k : Pc)
  /-- `wakeup(c)`, at process `j` -/
  | wakeup (c : Chan) (j : ℕ) (k : Pc)
  /-- `kill(pid)`, at process `j` -/
  | kill (pid : ℤ) (j : ℕ)
  /-- `allocproc` in `fork`, at process `j` -/
  | forkScan (j : ℕ)
  | forkParent (np : Slot) (pid : ℤ)
  | forkRunnable (np : Slot) (pid : ℤ)
  | exitAcquire (status : ℤ)
  /-- `reparent`, at process `j` -/
  | exitReparent (status : ℤ) (j : ℕ)
  | exitZombie (status : ℤ)
  /-- never scheduled again -/
  | dead
  /-- `addr`: whether a status is to be stored -/
  | waitAcquire (addr : Bool)
  /-- the scan of `wait`, at process `j` -/
  | waitScan (addr : Bool) (j : ℕ) (havekids : Bool)
  | waitSleep (addr : Bool)
  /-- `pipewrite` of `bs`, with `i` bytes written -/
  | writeAcquire (bs : List UInt8) (i : ℕ)
  /-- the loop of `pipewrite`, entered from `acquire` -/
  | writeTest (bs : List UInt8) (i : ℕ)
  /-- the same, after a byte was stored -/
  | writeNext (bs : List UInt8) (i : ℕ)
  /-- the rest of a turn that stores a byte, after `killed` has returned 0 -/
  | writeStore (bs : List UInt8) (i : ℕ)
  | writeSleep (bs : List UInt8) (i : ℕ)
  | writeEnd (i : ℕ)
  /-- `piperead` of `n` bytes -/
  | readAcquire (n : ℕ)
  | readTest (n : ℕ)
  | readSleep (n : ℕ)
  | readCopy (n i : ℕ)
  | readEnd (i : ℕ)
  | closeAcquire (writable : Bool)
  | closeEnd
  /-- `consoleread` of `target` bytes, `n` of them still to come -/
  | consAcquire (target n : ℕ)
  | consTest (target n : ℕ)
  | consSleep (target n : ℕ)
  /-- `sys_sleep(n)`, called at `ticks0` -/
  | tickAcquire (n : UInt32) (ticks0 : Option UInt32)
  | tickTest (n ticks0 : UInt32)
  | tickSleep (n ticks0 : UInt32)
  /-- `sleep` elsewhere in the kernel -/
  | otherSleep (a : ℕ)
deriving DecidableEq

/-- The program points at which system calls start, and other uses of `sleep` and `wakeup`. -/
def Pc.isEntry : Pc → Bool
  | wakeup (.other _) 0 (user 0) => true
  | kill _ 0 => true
  | forkScan 0 => true
  | exitAcquire _ => true
  | waitAcquire _ => true
  | writeAcquire _ 0 => true
  | readAcquire _ => true
  | closeAcquire _ => true
  | consAcquire target n => target = n
  | tickAcquire _ none => true
  | otherSleep _ => true
  | _ => false

/-- Is this a call of `exit`? -/
def Pc.isExit : Pc → Bool
  | exitAcquire _ => true
  | _ => false

/-! ## Shared data -/

/-- `PIPESIZE` -/
abbrev PIPESIZE : ℕ := 512

/-- `struct pipe`. The history of the bytes that `pipewrite` stored and of those that `piperead`
delivered is not part of the program. -/
structure Pipe where
  lock : Option Slot
  data : ℕ → UInt8
  nread : UInt32
  nwrite : UInt32
  readopen : Bool
  writeopen : Bool
  freed : Bool
  stored : List UInt8
  delivered : List UInt8

namespace Pipe

/-- `pi->nwrite == pi->nread + PIPESIZE` -/
def full (pi : Pipe) : Bool := pi.nwrite = pi.nread + 512

/-- `pi->nread == pi->nwrite` -/
def empty (pi : Pipe) : Bool := pi.nread = pi.nwrite

/-- `pi->data[pi->nwrite++ % PIPESIZE] = ch` -/
def store (pi : Pipe) (ch : UInt8) : Pipe :=
  { pi with
    data := assign pi.data (pi.nwrite.toNat % PIPESIZE) ch
    nwrite := pi.nwrite + 1
    stored := pi.stored ++ [ch] }

/-- `pi->data[pi->nread % PIPESIZE]` -/
def next (pi : Pipe) : UInt8 := pi.data (pi.nread.toNat % PIPESIZE)

/-- `pi->nread++`; with `copyout` the byte reaches the reader. -/
def take (pi : Pipe) (copied : Bool) : Pipe :=
  { pi with
    nread := pi.nread + 1
    delivered := if copied then pi.delivered ++ [pi.next] else pi.delivered }

/-- The assignments of `pipeclose`. -/
def close (pi : Pipe) (writable : Bool) : Pipe :=
  if writable then { pi with writeopen := false } else { pi with readopen := false }

end Pipe

/-- A thread of control that can hold `cons.lock` or `tickslock`. -/
inductive Agent where
  | proc (p : Slot)
  | clock
  | uart
deriving DecidableEq

/-- `INPUT_BUF_SIZE` -/
abbrev INPUT_BUF_SIZE : ℕ := 128

/-- `cons` -/
structure Cons where
  lock : Option Agent
  buf : ℕ → UInt8
  r : UInt32
  w : UInt32
  e : UInt32

/-- `C('D')` -/
abbrev ctrlD : UInt8 := 4

namespace Cons

/-- Kill the line: the loop of `consoleintr`, over at most `n` characters. -/
def killLine (cs : Cons) : ℕ → Cons
  | 0 => cs
  | n + 1 =>
    if cs.e ≠ cs.w ∧ cs.buf ((cs.e - 1).toNat % INPUT_BUF_SIZE) ≠ 10 then
      killLine { cs with e := cs.e - 1 } n
    else cs

/-- The `switch` of `consoleintr(c)`, and whether it calls `wakeup`. -/
def intr (cs : Cons) (c : UInt8) : Cons × Bool :=
  if c = 16 then (cs, false)
  else if c = 21 then (cs.killLine (cs.e - cs.w).toNat, false)
  else if c = 8 ∨ c = 127 then (if cs.e ≠ cs.w then { cs with e := cs.e - 1 } else cs, false)
  else if c ≠ 0 ∧ cs.e - cs.r < 128 then
    let ch : UInt8 := if c = 13 then 10 else c
    let cs' := { cs with buf := assign cs.buf (cs.e.toNat % INPUT_BUF_SIZE) ch, e := cs.e + 1 }
    if ch = 10 ∨ ch = ctrlD ∨ cs'.e - cs'.r = 128 then ({ cs' with w := cs'.e }, true)
    else (cs', false)
  else (cs, false)

end Cons

/-- The data behind the locks. -/
structure Shared where
  waitLock : Option Slot
  pipe : Pipe
  cons : Cons
  tickslock : Option Agent
  ticks : UInt32

/-- What happened to processes: for the record only. A process is named by the number it got when it
was allocated, since slots and pids come back. -/
inductive Event where
  | exited (id : ℕ) (pid status : ℤ)
  /-- `wait` of process `parent` found `id`, which `forker` had made, and returned `pid`; the status
  was `status` -/
  | reaped (parent forker id : ℕ) (pid status : ℤ)
deriving DecidableEq

/-- The process table. `id`, `forker`, `births` and `history` are for the record only. -/
structure Table where
  proc : Slot → Proc
  initproc : Slot
  nextpid : ℤ
  id : Slot → ℕ
  forker : Slot → ℕ
  births : ℕ
  history : List Event

/-- What a step does to the process table. -/
inductive Effect where
  | none
  /-- the end of `sleep`'s first half: SLEEPING on `c` -/
  | sleep (c : Chan)
  /-- the tidying up when `sleep` is scheduled again -/
  | tidy
  /-- one process of `wakeup(c)` -/
  | wake (c : Chan) (j : Slot)
  /-- one process of `kill`: the victim -/
  | kill (j : Slot)
  /-- `allocproc` found a slot -/
  | alloc (np : Slot)
  /-- the same, with an allocation that failed afterwards -/
  | allocFail (np : Slot)
  | parent (np : Slot)
  | runnable (np : Slot)
  /-- one process of `reparent` -/
  | reparent (j : Slot)
  | zombie (status : ℤ)
  /-- `freeproc` in `wait` -/
  | reap (j : Slot)

namespace Table

variable (t : Table)

def setProc (i : Slot) (x : Proc) : Table := { t with proc := assign t.proc i x }

/-- `nextpid = nextpid + 1`, as an `int` -/
def bumpPid : Table := { t with nextpid := Int.bmod (t.nextpid + 1) (2 ^ 32) }

/-- The effect of a step of process `p`. -/
def apply (p : Slot) : Effect → Table
  | .none => t
  | .sleep c => t.setProc p { t.proc p with state := .sleeping, chan := some c }
  | .tidy => t.setProc p { t.proc p with chan := none }
  | .wake c j =>
    if j ≠ p ∧ (t.proc j).state = .sleeping ∧ (t.proc j).chan = some c then
      t.setProc j { t.proc j with state := .runnable }
    else t
  | .kill j =>
    t.setProc j { t.proc j with
      killed := true
      state := if (t.proc j).state = .sleeping then .runnable else (t.proc j).state }
  | .alloc np =>
    { (t.setProc np { t.proc np with pid := t.nextpid, state := .used }).bumpPid with
      id := assign t.id np t.births
      forker := assign t.forker np (t.id p)
      births := t.births + 1 }
  | .allocFail np => (t.setProc np .free).bumpPid
  | .parent np => t.setProc np { t.proc np with parent := some p }
  | .runnable np => t.setProc np { t.proc np with state := .runnable }
  | .reparent j => t.setProc j { t.proc j with parent := some t.initproc }
  | .zombie status =>
    { t.setProc p { t.proc p with xstate := status, state := .zombie } with
      history := t.history ++ [.exited (t.id p) (t.proc p).pid status] }
  | .reap j =>
    { t.setProc j .free with
      history := t.history ++ [.reaped (t.id p) (t.forker j) (t.id j) (t.proc j).pid
        (t.proc j).xstate] }

end Table

/-- A child that becomes runnable starts in user space. -/
def Effect.start (pc : Slot → Pc) : Effect → Slot → Pc
  | .runnable np => assign pc np (.user 0)
  | _ => pc

/-! ## Steps -/

/-- The kernel. `clock` and `uart` are the interrupt handlers: at which process their `wakeup` is. -/
structure State where
  table : Table
  pc : Slot → Pc
  shared : Shared
  clock : Option ℕ
  uart : Option ℕ

/-- The `j`th process. -/
def slot? (j : ℕ) : Option Slot := if h : j < NPROC then some ⟨j, h⟩ else none

/-- The next program point of a process, the shared data and the effect on the process table. -/
abbrev Next := Pc × Shared × Effect

section

variable (t : Table) (sh : Shared) (p : Slot)

/-- The tests of the loop of `pipewrite`. `killed` holds `p->lock` only while it reads, so a `kill` can come
before the rest of the turn; `pi->lock` is held, so the pipe cannot change before it. -/
def writeLoop (bs : List UInt8) (i : ℕ) : Next :=
  let pi := sh.pipe
  if i < bs.length then
    if pi.readopen = false ∨ (t.proc p).killed then
      (.user (-1), { sh with pipe := { pi with lock := none } }, .none)
    else if pi.full then (.wakeup .nread 0 (.writeSleep bs i), sh, .none)
    else (.writeStore bs i, sh, .none)
  else (.wakeup .nread 0 (.writeEnd i), sh, .none)

/-- The rest of a turn of the loop of `pipewrite`: `copyin` and the byte. -/
def writeByte (bs : List UInt8) (i : ℕ) (fault : Bool) : Next :=
  if fault then (.wakeup .nread 0 (.writeEnd i), sh, .none)
  else (.writeNext bs (i + 1), { sh with pipe := sh.pipe.store (bs.getD i 0) }, .none)

/-- The loop of `piperead` that waits for bytes. -/
def readLoop (n : ℕ) : Next :=
  let pi := sh.pipe
  if pi.empty ∧ pi.writeopen then
    if (t.proc p).killed then (.user (-1), { sh with pipe := { pi with lock := none } }, .none)
    else (.readSleep n, sh, .none)
  else (.readCopy n 0, sh, .none)

/-- The loop of `piperead` that copies bytes. -/
def copyLoop (n i : ℕ) (fault : Bool) : Next :=
  let pi := sh.pipe
  if i < n ∧ ¬ pi.empty then
    if fault then (.wakeup .nwrite 0 (.readEnd i), { sh with pipe := pi.take false }, .none)
    else (.readCopy n (i + 1), { sh with pipe := pi.take true }, .none)
  else (.wakeup .nwrite 0 (.readEnd i), sh, .none)

/-- One process of the scan of `wait`, or its end. -/
def scanLoop (addr : Bool) (j : ℕ) (havekids fault : Bool) : Next :=
  match slot? j with
  | none =>
    if havekids = false ∨ (t.proc p).killed then
      (.user (-1), { sh with waitLock := none }, .none)
    else (.waitSleep addr, sh, .none)
  | some c =>
    if (t.proc c).parent = some p then
      if (t.proc c).state = .zombie then
        if addr ∧ fault then (.user (-1), { sh with waitLock := none }, .none)
        else (.user (t.proc c).pid, { sh with waitLock := none }, .reap c)
      else (.waitScan addr (j + 1) true, sh, .none)
    else (.waitScan addr (j + 1) havekids, sh, .none)

/-- The loop of `consoleread`. -/
def consLoop (target n : ℕ) (fault : Bool) : Next :=
  let cs := sh.cons
  let return' (n : ℕ) (r : UInt32) : Next :=
    (.user (target - n), { sh with cons := { cs with lock := none, r := r } }, .none)
  match n with
  | 0 => return' 0 cs.r
  | n + 1 =>
    if cs.r = cs.w then
      if (t.proc p).killed then
        (.user (-1), { sh with cons := { cs with lock := none } }, .none)
      else (.consSleep target (n + 1), sh, .none)
    else
      let c := cs.buf (cs.r.toNat % INPUT_BUF_SIZE)
      if c = ctrlD then return' (n + 1) (if n + 1 < target then cs.r else cs.r + 1)
      else if fault then return' (n + 1) (cs.r + 1)
      else if c = 10 then return' n (cs.r + 1)
      else (.consTest target n, { sh with cons := { cs with r := cs.r + 1 } }, .none)

/-- The loop of `sys_sleep`. -/
def tickLoop (n ticks0 : UInt32) : Next :=
  if sh.ticks - ticks0 < n then
    if (t.proc p).killed then (.user (-1), { sh with tickslock := none }, .none)
    else (.tickSleep n ticks0, sh, .none)
  else (.user 0, { sh with tickslock := none }, .none)

/-- The next step of process `p` at a program point; `none` while it waits for a lock, and where there
is nothing to do. `fault` is the outcome of the memory operation of the step, if it has one. -/
def next (fault : Bool) : Pc → Option Next
  | .user _ => none
  | .dead => none
  | .asleep k => some (k, sh, .tidy)
  | .wakeup c j k =>
    match slot? j with
    | none => some (k, sh, .none)
    | some i => some (.wakeup c (j + 1) k, sh, .wake c i)
  | .kill pid j =>
    match slot? j with
    | none => some (.user (-1), sh, .none)
    | some i =>
      if (t.proc i).pid = pid then some (.user 0, sh, .kill i)
      else some (.kill pid (j + 1), sh, .none)
  | .forkScan j =>
    match slot? j with
    | none => some (.user (-1), sh, .none)
    | some i =>
      if (t.proc i).state = .unused then
        if fault then some (.user (-1), sh, .allocFail i)
        else some (.forkParent i t.nextpid, sh, .alloc i)
      else some (.forkScan (j + 1), sh, .none)
  | .forkParent np pid =>
    if sh.waitLock = none then some (.forkRunnable np pid, sh, .parent np) else none
  | .forkRunnable np pid => some (.user pid, sh, .runnable np)
  | .exitAcquire status =>
    if sh.waitLock = none then
      some (.exitReparent status 0, { sh with waitLock := some p }, .none)
    else none
  | .exitReparent status j =>
    match slot? j with
    | none =>
      match (t.proc p).parent with
      | none => some (.exitZombie status, sh, .none)
      | some q => some (.wakeup (.proc q) 0 (.exitZombie status), sh, .none)
    | some i =>
      if (t.proc i).parent = some p then
        some (.wakeup (.proc t.initproc) 0 (.exitReparent status (j + 1)), sh, .reparent i)
      else some (.exitReparent status (j + 1), sh, .none)
  | .exitZombie status => some (.dead, { sh with waitLock := none }, .zombie status)
  | .waitAcquire addr =>
    if sh.waitLock = none then
      some (.waitScan addr 0 false, { sh with waitLock := some p }, .none)
    else none
  | .waitScan addr j havekids => some (scanLoop t sh p addr j havekids fault)
  | .waitSleep addr =>
    some (.asleep (.waitAcquire addr), { sh with waitLock := none }, .sleep (.proc p))
  | .writeAcquire bs i =>
    if sh.pipe.lock = none then
      some (.writeTest bs i, { sh with pipe := { sh.pipe with lock := some p } }, .none)
    else none
  | .writeTest bs i => some (writeLoop t sh p bs i)
  | .writeNext bs i => some (writeLoop t sh p bs i)
  | .writeStore bs i => some (writeByte sh bs i fault)
  | .writeSleep bs i =>
    some (.asleep (.writeAcquire bs i), { sh with pipe := { sh.pipe with lock := none } },
      .sleep .nwrite)
  | .writeEnd i => some (.user i, { sh with pipe := { sh.pipe with lock := none } }, .none)
  | .readAcquire n =>
    if sh.pipe.lock = none then
      some (.readTest n, { sh with pipe := { sh.pipe with lock := some p } }, .none)
    else none
  | .readTest n => some (readLoop t sh p n)
  | .readSleep n =>
    some (.asleep (.readAcquire n), { sh with pipe := { sh.pipe with lock := none } },
      .sleep .nread)
  | .readCopy n i => some (copyLoop sh n i fault)
  | .readEnd i => some (.user i, { sh with pipe := { sh.pipe with lock := none } }, .none)
  | .closeAcquire writable =>
    if sh.pipe.lock = none then
      some (.wakeup (if writable then .nread else .nwrite) 0 .closeEnd,
        { sh with pipe := { sh.pipe.close writable with lock := some p } }, .none)
    else none
  | .closeEnd =>
    some (.user 0, { sh with
      pipe := { sh.pipe with
        lock := none
        freed := sh.pipe.freed || (!sh.pipe.readopen && !sh.pipe.writeopen) } }, .none)
  | .consAcquire target n =>
    if sh.cons.lock = none then
      some (.consTest target n, { sh with cons := { sh.cons with lock := some (.proc p) } }, .none)
    else none
  | .consTest target n => some (consLoop t sh p target n fault)
  | .consSleep target n =>
    some (.asleep (.consAcquire target n), { sh with cons := { sh.cons with lock := none } },
      .sleep .cons)
  | .tickAcquire n ticks0 =>
    if sh.tickslock = none then
      some (.tickTest n (ticks0.getD sh.ticks), { sh with tickslock := some (.proc p) }, .none)
    else none
  | .tickTest n ticks0 => some (tickLoop t sh p n ticks0)
  | .tickSleep n ticks0 =>
    some (.asleep (.tickAcquire n (some ticks0)), { sh with tickslock := none }, .sleep .ticks)
  | .otherSleep a => some (.asleep (.user 0), sh, .sleep (.other a))

end

/-- The actions. -/
inductive Act where
  /-- the scheduler picks `p` -/
  | schedule (p : Slot)
  | yield (p : Slot)
  /-- a system call of `p` -/
  | call (p : Slot) (k : Pc)
  /-- the next step of `p` -/
  | go (p : Slot) (fault : Bool)
  /-- the next step of the clock interrupt -/
  | clock
  /-- the next step of the console interrupt, which starts with character `c` -/
  | uart (c : UInt8)
deriving DecidableEq

namespace State

variable (s : State)

/-- The process table entry of `p`. -/
def proc (p : Slot) : Proc := s.table.proc p

def setState (p : Slot) (x : ProcState) : State :=
  { s with table := s.table.setProc p { s.proc p with state := x } }

def goto (p : Slot) (k : Pc) : State := { s with pc := assign s.pc p k }

/-- Process `p` goes on. -/
def advance (p : Slot) (n : Next) : State :=
  { s with
    table := s.table.apply p n.2.2
    shared := n.2.1
    pc := assign (n.2.2.start s.pc) p n.1 }

/-- `wakeup(c)` at process `j`, by an interrupt handler. -/
def intrWake (c : Chan) (j : Slot) : State :=
  { s with table :=
      if (s.proc j).state = .sleeping ∧ (s.proc j).chan = some c then
        s.table.setProc j { s.proc j with state := .runnable }
      else s.table }

/-- `clockintr`. -/
def stepClock : Option State :=
  match s.clock with
  | none =>
    if s.shared.tickslock = none then
      some { s with
        clock := some 0
        shared := { s.shared with tickslock := some .clock, ticks := s.shared.ticks + 1 } }
    else none
  | some j =>
    match slot? j with
    | none => some { s with clock := none, shared := { s.shared with tickslock := none } }
    | some i => some { s.intrWake .ticks i with clock := some (j + 1) }

/-- `consoleintr`. -/
def stepUart (c : UInt8) : Option State :=
  match s.uart with
  | none =>
    if s.shared.cons.lock = none then
      let r := s.shared.cons.intr c
      if r.2 then
        some { s with
          uart := some 0
          shared := { s.shared with cons := { r.1 with lock := some .uart } } }
      else some { s with shared := { s.shared with cons := r.1 } }
    else none
  | some j =>
    match slot? j with
    | none => some { s with uart := none, shared := { s.shared with cons.lock := none } }
    | some i => some { s.intrWake .cons i with uart := some (j + 1) }

end State

/-- One step of the kernel. The panic of an exiting `init` ends the run. -/
def step (s : State) : Act → Option State
  | .schedule p =>
    if (s.proc p).state = .runnable then some (s.setState p .running) else none
  | .yield p =>
    match s.pc p with
    | .user _ => if (s.proc p).state = .running then some (s.setState p .runnable) else none
    | _ => none
  | .call p k =>
    match s.pc p with
    | .user _ =>
      if (s.proc p).state = .running ∧ k.isEntry ∧ ¬ (k.isExit ∧ p = s.table.initproc) then
        some (s.goto p k)
      else none
    | _ => none
  | .go p fault =>
    if (s.proc p).state = .running then
      (next s.table s.shared p fault (s.pc p)).map (s.advance p)
    else none
  | .clock => s.stepClock
  | .uart c => s.stepUart c

/-- `n` steps of process `p` in which nothing fails. -/
def steps (p : Slot) (n : ℕ) : List Act := List.replicate n (.go p false)

/-- After `userinit` and `pipealloc`: `init` is runnable. -/
def State.initial : State where
  table := {
    proc := fun i => if i = 0 then ⟨.runnable, none, false, 0, 1, none⟩ else .free
    initproc := 0
    nextpid := 2
    id := fun _ => 0
    forker := fun _ => 0
    births := 1
    history := [] }
  pc := fun i => if i = 0 then .user 0 else .dead
  shared := {
    waitLock := none
    pipe := ⟨none, fun _ => 0, 0, 0, true, true, false, [], []⟩
    cons := ⟨none, fun _ => 0, 0, 0, 0⟩
    tickslock := none
    ticks := 0 }
  clock := none
  uart := none

/-- The kernel from boot on. -/
def machine : Machine State Act where
  init s := s = .initial
  step := step

end Xv6.Sync
