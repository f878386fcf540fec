import Mathlib.Data.Fintype.Basic
import Xv6.Lib.Transition
import Xv6.Param

/-!
# The log transaction protocol

Model of `begin_op`, `end_op`, `log_write` and `commit` of `kernel/log.c` as a transition system over
any number of processes. A step is one critical section of `log.lock`, so the lock is free in every
state; `commit` runs without the lock and is cut into its block copies and header writes. `sleep`
releases `log.lock` only under `p->lock`, so going to sleep and waking up are part of the critical
section that does them.

Two fields are history variables that no transition reads: `wrote`, the blocks that a process has
passed to `log_write` since its `begin_op`, and `ended`, those of the operations that have called
`end_op` since the last commit emptied the log.
-/

namespace Xv6.Log

/-- The points of `commit` between which other processes can run. -/
inductive CommitPc where
  | enter
  | writeLog (tail : ℕ)
  | writeHead
  | install (tail : ℕ)
  | clear
  | erase
  | done
deriving DecidableEq, Repr

/-- Where a process is with respect to the log. -/
inductive Pc where
  /-- outside any file-system operation -/
  | idle
  /-- SLEEPING on `&log` in `begin_op` -/
  | sleeping
  /-- RUNNABLE in the loop of `begin_op`, after a wakeup -/
  | woken
  /-- between `begin_op` and `end_op` -/
  | inOp
  /-- in the `commit` that its `end_op` started -/
  | commit (c : CommitPc)
deriving DecidableEq, Repr

/-- The panics of `log_write` and `end_op`. -/
inductive Panic where
  | tooBig
  | outsideTrans
  | committing
deriving DecidableEq, Repr

/-- `struct log`, the on-disk header, and where each process is. -/
structure State (P : Type*) where
  /-- `lh.block[0 .. n)` -/
  lh : List ℕ
  outstanding : ℤ
  committing : Bool
  /-- the block numbers in the header block on disk -/
  head : List ℕ
  pc : P → Pc
  panic : Option Panic
  wrote : P → List ℕ
  ended : List (List ℕ)

/-- The log after `initlog`, with no process inside it. -/
def State.initial (P : Type*) : State P where
  lh := []
  outstanding := 0
  committing := false
  head := []
  pc := fun _ => .idle
  panic := none
  wrote := fun _ => []
  ended := []

/-- The search loop of `log_write` and its store: an absorbed block is stored over itself, a new one
is appended. -/
def absorb (lh : List ℕ) (b : ℕ) : List ℕ :=
  if lh.idxOf b = lh.length then lh ++ [b] else lh.set (lh.idxOf b) b

namespace State

variable {P : Type*} [DecidableEq P] (s : State P)

/-- Move process `p` to `c`. -/
def goto (p : P) (c : Pc) : State P := { s with pc := Function.update s.pc p c }

/-- `wakeup(&log)`: every process sleeping in `begin_op` becomes runnable. -/
def wakeup : State P := { s with pc := fun q => if s.pc q = .sleeping then .woken else s.pc q }

/-- One pass through the loop of `begin_op`. -/
def beginOp (p : P) : State P :=
  if s.committing then s.goto p .sleeping
  else if (s.lh.length : ℤ) + (s.outstanding + 1) * MAXOPBLOCKS > LOGSIZE then s.goto p .sleeping
  else { s.goto p .inOp with
    outstanding := s.outstanding + 1, wrote := Function.update s.wrote p [] }

/-- `log_write` of block `b`, with `size` the number of log blocks. -/
def logWrite (size : ℕ) (p : P) (b : ℕ) : State P :=
  if (s.lh.length : ℤ) ≥ LOGSIZE ∨ (s.lh.length : ℤ) ≥ (size : ℤ) - 1 then
    { s with panic := some .tooBig }
  else if s.outstanding < 1 then { s with panic := some .outsideTrans }
  else { s with lh := absorb s.lh b, wrote := Function.update s.wrote p (b :: s.wrote p) }

/-- The first critical section of `end_op`. -/
def endOp (p : P) : State P :=
  if s.committing then { s with outstanding := s.outstanding - 1, panic := some .committing }
  else if s.outstanding - 1 = 0 then
    { s.goto p (.commit .enter) with
      outstanding := s.outstanding - 1, committing := true, ended := s.wrote p :: s.ended }
  else
    { (s.goto p .idle).wakeup with
      outstanding := s.outstanding - 1, ended := s.wrote p :: s.ended }

/-- One step of `commit`, and after it the second critical section of `end_op`. -/
def commitStep (p : P) : CommitPc → State P
  | .enter =>
    if 0 < s.lh.length then s.goto p (.commit (.writeLog 0))
    else { s.goto p (.commit .done) with ended := [] }
  | .writeLog tail =>
    if tail < s.lh.length then s.goto p (.commit (.writeLog (tail + 1)))
    else s.goto p (.commit .writeHead)
  | .writeHead => { s.goto p (.commit (.install 0)) with head := s.lh }
  | .install tail =>
    if tail < s.lh.length then s.goto p (.commit (.install (tail + 1)))
    else s.goto p (.commit .clear)
  | .clear => { s.goto p (.commit .erase) with lh := [], ended := [] }
  | .erase => { s.goto p (.commit .done) with head := s.lh }
  | .done => { (s.goto p .idle).wakeup with committing := false }

end State

/-- What a process can do next. -/
inductive Act (P : Type*) where
  /-- call `begin_op` -/
  | beginOp (p : P)
  /-- a woken process tests again in the loop of `begin_op` -/
  | retry (p : P)
  | logWrite (p : P) (b : ℕ)
  | endOp (p : P)
  /-- the next step of a running `commit` -/
  | commit (p : P)
  /-- `kill` makes a sleeping process runnable -/
  | kill (p : P)

/-- The transitions; `none` when the process is not at the point the action starts from. After a
panic nothing runs. -/
def step {P : Type*} [DecidableEq P] (size : ℕ) (s : State P) (a : Act P) : Option (State P) :=
  if s.panic.isSome then none
  else
    match a with
    | .beginOp p => if s.pc p = .idle then some (s.beginOp p) else none
    | .retry p => if s.pc p = .woken then some (s.beginOp p) else none
    | .logWrite p b => if s.pc p = .inOp then some (s.logWrite size p b) else none
    | .endOp p => if s.pc p = .inOp then some (s.endOp p) else none
    | .commit p =>
      match s.pc p with
      | .commit c => some (s.commitStep p c)
      | _ => none
    | .kill p => if s.pc p = .sleeping then some (s.goto p .woken) else none

/-- The log with `size` blocks, shared by the processes `P`. -/
def machine (P : Type*) [DecidableEq P] (size : ℕ) : Lib.Machine (State P) (Act P) where
  init s := s = State.initial P
  step := step size

end Xv6.Log
