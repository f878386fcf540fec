import Mathlib.Data.Fintype.Basic
import Xv6.Block
import Xv6.Lib.Transition

/-!
# The buffer cache

Model of `kernel/bio.c` as a transition system over any number of processes. A step is one critical
section of `bcache.lock`, the acquisition or release of a buffer's sleep-lock, one disk transfer, or
one access to the data of a buffer by the process that holds it. `bget` drops `bcache.lock` before it
waits for the sleep-lock and `brelse` gives the sleep-lock back before it takes `bcache.lock`, so
`bread` and `brelse` are several steps with points of their own in `Pc`.

The list through `prev`/`next` is kept as the list `lru` from `head.next` to `head.prev`. History
variables, which no transition of the code reads: `latest`, the contents last stored for each block;
`dirty`, whether a buffer was modified after its last `bwrite`; `fresh` and `settled`, the pins of a
buffer made after and before its last `bwrite`. They state the discipline of the callers: a modified
buffer is written or pinned before it is released (`log_write` pins, or finds the block pinned), and a
pin is dropped only after the pinned contents were written (`install_trans`).
-/

namespace Xv6.Bio

/-- Index of a buffer in `bcache.buf`. -/
abbrev BufId := Fin NBUF

/-- `struct buf`, less the lock and the list links. -/
structure Buf where
  valid : Bool
  dev : ℕ
  blockno : ℕ
  refcnt : ℕ
  data : Block

/-- Where a process is in the code of the cache. -/
inductive Pc where
  /-- outside `bio.c` -/
  | run
  /-- in `bget(dev, blockno)`, counted in `refcnt`, before it has the sleep-lock -/
  | wait (i : BufId) (dev blockno : ℕ)
  /-- in `bread`, holding the sleep-lock, at the test of `valid` -/
  | fill (i : BufId) (dev blockno : ℕ)
  /-- in `bread`, the block read from disk, before `valid = 1` -/
  | filled (i : BufId) (dev blockno : ℕ)
  /-- in `brelse`, the sleep-lock released, before the `refcnt` is decremented -/
  | release (i : BufId)
deriving DecidableEq

/-- The panics of `bget`, `bwrite` and `brelse`. -/
inductive Panic where
  | noBuffers
  | bwrite
  | brelse
deriving DecidableEq

/-- The cache, its locks, the disk, and where each process is. -/
structure State (P : Type*) where
  buf : BufId → Buf
  /-- the holder of the buffer's sleep-lock -/
  lock : BufId → Option P
  lru : List BufId
  /-- the kernel uses `ROOTDEV` only, the one disk that `virtio_disk_rw` drives; another device number
  stands for another disk -/
  disk : ℕ → ℕ → Block
  pc : P → Pc
  /-- the buffers that `bread` has returned to a process and it has not passed to `brelse` -/
  held : P → List BufId
  panic : Option Panic
  latest : ℕ → ℕ → Block
  dirty : BufId → Bool
  fresh : BufId → ℕ
  settled : BufId → ℕ

/-- The cache that `binit` builds over a disk: every buffer is zero, the last one is most recent. -/
def State.initial (P : Type*) (disk : ℕ → ℕ → Block) : State P where
  buf := fun _ => ⟨false, 0, 0, 0, zeroBlock⟩
  lock := fun _ => none
  lru := (List.finRange NBUF).reverse
  disk := disk
  pc := fun _ => .run
  held := fun _ => []
  panic := none
  latest := disk
  dirty := fun _ => false
  fresh := fun _ => 0
  settled := fun _ => 0

/-- Replace the contents of block `(dev, blockno)`. -/
def store (m : ℕ → ℕ → Block) (dev blockno : ℕ) (v : Block) : ℕ → ℕ → Block :=
  fun d b => if d = dev ∧ b = blockno then v else m d b

namespace State

variable {P : Type*} [DecidableEq P] (s : State P)

/-- Replace buffer `i`. -/
def setBuf (i : BufId) (b : Buf) : State P := { s with buf := Function.update s.buf i b }

/-- Move process `p` to `c`. -/
def goto (p : P) (c : Pc) : State P := { s with pc := Function.update s.pc p c }

/-- The first loop of `bget`: the buffer that caches the block, from `head.next` on. -/
def lookup (dev blockno : ℕ) : Option BufId :=
  s.lru.find? fun i => (s.buf i).dev == dev && (s.buf i).blockno == blockno

/-- The second loop of `bget`: the unused buffer to recycle, from `head.prev` back. -/
def victim : Option BufId :=
  s.lru.reverse.find? fun i => (s.buf i).refcnt == 0

/-- `bget` up to the release of `bcache.lock`. -/
def bget (p : P) (dev blockno : ℕ) : State P :=
  match s.lookup dev blockno with
  | some i =>
    (s.setBuf i { s.buf i with refcnt := (s.buf i).refcnt + 1 }).goto p (.wait i dev blockno)
  | none =>
    match s.victim with
    | some i =>
      (s.setBuf i { s.buf i with dev := dev, blockno := blockno, valid := false, refcnt := 1 }).goto
        p (.wait i dev blockno)
    | none => { s with panic := some .noBuffers }

/-- `acquiresleep(&b->lock)` at the end of `bget`, when the lock is free. -/
def acquiresleep (p : P) (i : BufId) (dev blockno : ℕ) : State P :=
  { s.goto p (.fill i dev blockno) with lock := Function.update s.lock i (some p) }

/-- `bread` returns the locked buffer to the process. -/
def breadReturn (p : P) (i : BufId) : State P :=
  { s.goto p .run with held := Function.update s.held p (i :: s.held p) }

/-- `bread` at the test of `valid`: return, or read the block from disk. -/
def bread (p : P) (i : BufId) (dev blockno : ℕ) : State P :=
  if (s.buf i).valid then s.breadReturn p i
  else
    (s.setBuf i { s.buf i with data := s.disk (s.buf i).dev (s.buf i).blockno }).goto p
      (.filled i dev blockno)

/-- `bread` sets `valid` and returns. -/
def breadValid (p : P) (i : BufId) : State P :=
  (s.setBuf i { s.buf i with valid := true }).breadReturn p i

/-- The holder of a buffer stores new contents in it. -/
def modify (i : BufId) (v : Block) : State P :=
  { s.setBuf i { s.buf i with data := v } with
    latest := store s.latest (s.buf i).dev (s.buf i).blockno v
    dirty := Function.update s.dirty i true }

/-- `bwrite`. -/
def bwrite (p : P) (i : BufId) : State P :=
  if s.lock i = some p then
    { s with
      disk := store s.disk (s.buf i).dev (s.buf i).blockno (s.buf i).data
      dirty := Function.update s.dirty i false
      settled := Function.update s.settled i (s.settled i + s.fresh i)
      fresh := Function.update s.fresh i 0 }
  else { s with panic := some .bwrite }

/-- `bpin`. -/
def bpin (i : BufId) : State P :=
  { s.setBuf i { s.buf i with refcnt := (s.buf i).refcnt + 1 } with
    fresh := Function.update s.fresh i (s.fresh i + 1) }

/-- `bunpin`. -/
def bunpin (i : BufId) : State P :=
  { s.setBuf i { s.buf i with refcnt := (s.buf i).refcnt - 1 } with
    settled := Function.update s.settled i (s.settled i - 1) }

/-- `brelse` up to `releasesleep`. -/
def brelse (p : P) (i : BufId) : State P :=
  if s.lock i = some p then
    { s.goto p (.release i) with
      lock := Function.update s.lock i none
      held := Function.update s.held p ((s.held p).erase i) }
  else { s with panic := some .brelse }

/-- The rest of `brelse`: decrement, and move an unused buffer to the head of the list. -/
def brelseDrop (p : P) (i : BufId) : State P :=
  { (s.setBuf i { s.buf i with refcnt := (s.buf i).refcnt - 1 }).goto p .run with
    lru := if (s.buf i).refcnt - 1 = 0 then i :: s.lru.erase i else s.lru }

end State

/-- The steps of process `p`. -/
inductive Act (P : Type*) where
  | bget (p : P) (dev blockno : ℕ)
  | acquiresleep (p : P)
  | bread (p : P)
  | modify (p : P) (i : BufId) (v : Block)
  | bwrite (p : P) (i : BufId)
  | bpin (p : P) (i : BufId)
  | bunpin (p : P) (i : BufId)
  | brelse (p : P) (i : BufId)
  | brelseDrop (p : P)

variable {P : Type*} [DecidableEq P]

/-- One step. `bget` is called for devices other than 0. The guards on `modify`, `bpin`, `bunpin` and
`brelse` are the discipline of the callers; `bwrite` and `brelse` check the lock themselves. -/
def step (s : State P) (a : Act P) : Option (State P) :=
  if s.panic.isSome then none
  else
    match a with
    | .bget p dev blockno =>
      if s.pc p = .run ∧ dev ≠ 0 then some (s.bget p dev blockno) else none
    | .acquiresleep p =>
      match s.pc p with
      | .wait i dev blockno =>
        if s.lock i = none then some (s.acquiresleep p i dev blockno) else none
      | _ => none
    | .bread p =>
      match s.pc p with
      | .fill i dev blockno => some (s.bread p i dev blockno)
      | .filled i _ _ => some (s.breadValid p i)
      | _ => none
    | .modify p i v => if s.pc p = .run ∧ i ∈ s.held p then some (s.modify i v) else none
    | .bwrite p i => if s.pc p = .run then some (s.bwrite p i) else none
    | .bpin p i => if s.pc p = .run ∧ i ∈ s.held p then some (s.bpin i) else none
    | .bunpin p i => if s.pc p = .run ∧ 0 < s.settled i then some (s.bunpin i) else none
    | .brelse p i =>
      if s.pc p = .run ∧ (s.dirty i = true → 0 < s.fresh i) then some (s.brelse p i) else none
    | .brelseDrop p =>
      match s.pc p with
      | .release i => some (s.brelseDrop p i)
      | _ => none

/-- The buffer cache with processes `P`, started by `binit` over any disk. -/
def machine (P : Type*) [DecidableEq P] : Lib.Machine (State P) (Act P) where
  init s := ∃ disk, s = State.initial P disk
  step := step

end Xv6.Bio
