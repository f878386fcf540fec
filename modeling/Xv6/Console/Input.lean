import Xv6.Sync.Kernel

/-!
# Console input

Model of `consoleread` and `consoleintr` of `kernel/console.c` at the granularity of `cons.lock`: a
character arrives, or a reader runs from where it gets the lock to where it gives it up, at the end of the
call or in `sleep`. A sleeping reader may look again at any time. The ring `cons` and the `switch` of
`consoleintr` are those of `Xv6.Sync.Kernel`; what is echoed to the uart is left out.

The bookkeeping of the readers does not depend on how the input is stored. `machine` takes the storage and
the two functions on it as parameters, so that the line editor of `Xv6.Console.Editor` is a machine with
the same actions.
-/

namespace Xv6.Console

open Lib Sync

/-- How a reader gives up the lock; `n` is the number of bytes still asked for. -/
inductive Status where
  | sleep (n : ℕ)
  | done (n : ℕ)
  /-- the process has been killed -/
  | killed
deriving DecidableEq

/-- The loop of `consoleread`. `target` bytes were asked for, `n` are still to come, and `out` is what the
caller has been given; `mapped` says which bytes of the caller's buffer `either_copyout` can write. -/
def readLoop (killed : Bool) (mapped : ℕ → Bool) (target : ℕ) :
    ℕ → Cons → List UInt8 → Cons × List UInt8 × Status
  | 0, cs, out => (cs, out, .done 0)
  | n + 1, cs, out =>
    if cs.r = cs.w then (cs, out, if killed then .killed else .sleep (n + 1))
    else
      let c := cs.buf (cs.r.toNat % INPUT_BUF_SIZE)
      let cs := { cs with r := cs.r + 1 }
      if c = ctrlD then
        (if n + 1 < target then { cs with r := cs.r - 1 } else cs, out, .done (n + 1))
      else if mapped (target - (n + 1)) = false then (cs, out, .done (n + 1))
      else if c = 10 then (cs, out ++ [c], .done n)
      else readLoop killed mapped target n cs (out ++ [c])

/-! ## The readers -/

/-- A call of `consoleread` that sleeps. -/
structure Reader where
  target : ℕ
  n : ℕ
  mapped : ℕ → Bool
  out : List UInt8

/-- A call of `consoleread` that has returned: what was asked for, what was delivered, and the return
value. For the record only. -/
structure Return (P : Type) where
  proc : P
  n : ℕ
  out : List UInt8
  ret : ℤ

/-- The input, stored as `B`, and the processes `P` that read it. -/
structure State (B P : Type) where
  input : B
  killed : P → Bool
  reader : P → Option Reader
  returned : List (Return P)

/-- The actions. -/
inductive Act (P : Type) where
  /-- `consoleintr(c)` -/
  | intr (c : UInt8)
  /-- process `p` calls `consoleread` for `n` bytes, up to its first `sleep` or its end -/
  | read (p : P) (n : ℤ) (mapped : ℕ → Bool)
  /-- a reader wakes up -/
  | wake (p : P)
  /-- `p->killed = 1` -/
  | kill (p : P)

/-- How input is stored: `consoleintr`, and the critical section of `consoleread`. -/
structure Device (B : Type) where
  intr : B → UInt8 → B
  read : (killed : Bool) → (mapped : ℕ → Bool) → (target n : ℕ) → B → List UInt8 →
    B × List UInt8 × Status

section

variable {B P : Type} [DecidableEq P] (dev : Device B)

/-- Reader `x` of process `p` has the lock. -/
def State.readOn (s : State B P) (p : P) (x : Reader) : State B P :=
  match dev.read (s.killed p) x.mapped x.target x.n s.input x.out with
  | (b, out, .sleep n) =>
    { s with input := b, reader := assign s.reader p (some { x with n := n, out := out }) }
  | (b, out, .done n) =>
    { s with
      input := b
      reader := assign s.reader p none
      returned := s.returned ++ [⟨p, x.target, out, x.target - n⟩] }
  | (b, out, .killed) =>
    { s with
      input := b
      reader := assign s.reader p none
      returned := s.returned ++ [⟨p, x.target, out, -1⟩] }

/-- One action. -/
def step (s : State B P) : Act P → Option (State B P)
  | .intr c => some { s with input := dev.intr s.input c }
  | .read p n mapped =>
    match s.reader p with
    | some _ => none
    | none =>
      -- a count that is not positive reads nothing
      some (s.readOn dev p { target := n.toNat, n := n.toNat, mapped := mapped, out := [] })
  | .wake p => (s.reader p).map (s.readOn dev p)
  | .kill p => some { s with killed := assign s.killed p true }

/-- The console with no reader and input that satisfies `empty`. -/
def machine (empty : B → Prop) : Machine (State B P) (Act P) where
  init s := empty s.input ∧ (∀ p, s.killed p = false) ∧ (∀ p, s.reader p = none) ∧ s.returned = []
  step := step dev

end

/-- The ring buffer of the console. -/
def ring : Device Cons where
  intr cs c := (cs.intr c).1
  read killed mapped target n cs out := readLoop killed mapped target n cs out

/-- The console; its counters may start anywhere. -/
def console (P : Type) [DecidableEq P] : Machine (State Cons P) (Act P) :=
  machine ring fun cs => cs.r = cs.w ∧ cs.w = cs.e

end Xv6.Console
