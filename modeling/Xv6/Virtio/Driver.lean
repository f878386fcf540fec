import Xv6.Lib.Transition
import Xv6.Lib.Writes

/-!
# The virtio disk driver

Model of `kernel/virtio_disk.c` with the device: the descriptors, the avail and used rings with their
16-bit indices, and the driver's own bookkeeping. `virtio_disk_rw` is run by any number of processes, each
of which holds the sleep-lock of its buffer, as `bread` and `bwrite` do. A step is what a process or
`virtio_disk_intr` does between two points at which the device can see a difference: the ring entry and
the ring index are written in separate steps, and the interrupt handler takes one used entry per step. A
sleeping process may look again at any time.

The device takes the next entry of the avail ring, following the chain of descriptors in memory, and
completes the requests it has taken in any order. What the transfers do to the data is left out.

Requests are numbered. The numbers, `availTag`, `usedTag` and the record of what happened to each request
are not part of the program.
-/

namespace Xv6.Virtio

open Lib

/-- this many virtio descriptors -/
abbrev NUM : ℕ := 8

/-- What a descriptor points to: a command header, the data of a buffer or a status byte. -/
inductive Addr (B : Type) where
  | null
  | ops (i : ℕ)
  | data (b : B)
  | status (i : ℕ)

/-- `struct virtq_desc`; `flags` is `VRING_DESC_F_NEXT` and `VRING_DESC_F_WRITE`. -/
structure Desc (B : Type) where
  addr : Addr B
  len : ℕ
  flagNext : Bool
  flagWrite : Bool
  next : ℕ

/-- `struct virtio_blk_req`: whether the disk is written, and the sector. -/
structure BlkReq where
  write : Bool
  sector : ℕ

/-- The record of an operation in `disk.info`. -/
structure Info (B : Type) where
  b : Option B
  status : ℕ

/-- `struct virtq_avail` and `struct virtq_used`: an index modulo 2¹⁶ and `NUM` entries. -/
structure Ring where
  idx : ℕ
  ring : ℕ → ℕ

/-- `idx += 1`, for a `uint16` -/
def bump (idx : ℕ) : ℕ := (idx + 1) % 2 ^ 16

/-- An entry is added behind the last. -/
def Ring.push (r : Ring) (id : ℕ) : Ring := ⟨bump r.idx, assign r.ring (r.idx % NUM) id⟩

/-- `struct disk`, and of the buffers `blockno` and `disk`. -/
structure Disk (B : Type) where
  desc : ℕ → Desc B
  avail : Ring
  used : Ring
  free : ℕ → Bool
  usedIdx : ℕ
  info : ℕ → Info B
  ops : ℕ → BlkReq
  blockno : B → ℕ
  busy : B → Bool

/-- The panics, by their messages. -/
inductive Panic where
  /-- "free_desc 1" -/
  | freeDesc1
  /-- "free_desc 2" -/
  | freeDesc2
  /-- "virtio_disk_intr status" -/
  | status
  /-- not a panic: `virtio_disk_intr` uses a null pointer -/
  | null
  /-- not a panic: `free_chain` does not end -/
  | endless
deriving DecidableEq

/-- Three descriptors. -/
structure Chain where
  i0 : ℕ
  i1 : ℕ
  i2 : ℕ
deriving DecidableEq

namespace Disk

variable {B : Type} [DecidableEq B] (d : Disk B)

/-- `alloc_desc`. -/
def allocDesc : Option (ℕ × Disk B) :=
  ((List.range NUM).find? d.free).map fun i => (i, { d with free := assign d.free i false })

/-- `free_desc`. -/
def freeDesc (i : ℕ) : Except Panic (Disk B) :=
  if NUM ≤ i then .error .freeDesc1
  else if d.free i then .error .freeDesc2
  else .ok { d with
    desc := assign d.desc i ⟨.null, 0, false, false, 0⟩
    free := assign d.free i true }

/-- `free_chain`, for chains of at most `n` descriptors. -/
def freeChain : ℕ → ℕ → Disk B → Except Panic (Disk B)
  | 0, _, _ => .error .endless
  | n + 1, i, d => do
      let flag := (d.desc i).flagNext
      let nxt := (d.desc i).next
      let d ← d.freeDesc i
      if flag then freeChain n nxt d else return d

/-- `alloc3_desc`. -/
def alloc3Desc : Except Panic (Option Chain × Disk B) :=
  match d.allocDesc with
  | none => return (none, d)
  | some (i0, d) =>
    match d.allocDesc with
    | none => do
        let d ← d.freeDesc i0
        return (none, d)
    | some (i1, d) =>
      match d.allocDesc with
      | none => do
          let d ← d.freeDesc i0
          let d ← d.freeDesc i1
          return (none, d)
      | some (i2, d) => return (some ⟨i0, i1, i2⟩, d)

/-- The part of `virtio_disk_rw` that formats the descriptors and records the buffer. The sector is computed
as a `uint`. -/
def format (b : B) (write : Bool) (c : Chain) : Disk B :=
  { d with
    ops := assign d.ops c.i0 ⟨write, d.blockno b * 2 % 2 ^ 32⟩
    desc := assign (assign (assign d.desc c.i0 ⟨.ops c.i0, 16, true, false, c.i1⟩)
      c.i1 ⟨.data b, 1024, true, !write, c.i2⟩) c.i2 ⟨.status c.i0, 1, false, true, 0⟩
    info := assign d.info c.i0 ⟨some b, 0xff⟩
    busy := assign d.busy b true }

/-- The end of `virtio_disk_rw`. -/
def finish (c : Chain) : Except Panic (Disk B) :=
  freeChain (NUM + 1) c.i0 { d with info := assign d.info c.i0 { d.info c.i0 with b := none } }

/-- One turn of the loop of `virtio_disk_intr`: the buffer that is done. -/
def intr : Except Panic (B × Disk B) :=
  let id := d.used.ring (d.usedIdx % NUM)
  if (d.info id).status ≠ 0 then .error .status
  else
    match (d.info id).b with
    | none => .error .null
    | some b => .ok (b, { d with busy := assign d.busy b false, usedIdx := bump d.usedIdx })

end Disk

/-- Where a process is in `virtio_disk_rw`. -/
inductive Pc (B : Type) where
  | idle
  /-- before `acquire` -/
  | start (b : B) (write : Bool)
  /-- before `alloc3_desc`, with the lock -/
  | alloc (b : B) (write : Bool)
  /-- asleep on `disk.free[0]` -/
  | sleepFree (b : B) (write : Bool)
  /-- with descriptors -/
  | format (b : B) (write : Bool) (c : Chain)
  /-- before the write to the avail ring -/
  | ring (b : B) (c : Chain) (t : ℕ)
  /-- before the avail index moves -/
  | bump (b : B) (c : Chain) (t : ℕ)
  /-- before the test of `b->disk`, with the lock -/
  | test (b : B) (c : Chain) (t : ℕ)
  /-- asleep on `b` -/
  | sleepBuf (b : B) (c : Chain) (t : ℕ)

/-- A request that the device has taken: the head of its chain and where its status goes. -/
structure Taken (B : Type) where
  head : ℕ
  status : Addr B
  tag : ℕ

/-- What happened to a request: how often the device has completed it, which buffers were released for
it, and whether `virtio_disk_rw` has returned. -/
structure Request (B P : Type) where
  proc : P
  buf : B
  chain : Chain
  completions : ℕ
  cleared : List B
  returned : Bool

/-- Who holds `vdisk_lock`. -/
inductive Holder (P : Type) where
  | proc (p : P)
  | intr
deriving DecidableEq

/-- Driver, processes and device. -/
structure State (B P : Type) where
  disk : Disk B
  lock : Option (Holder P)
  pc : P → Pc B
  /-- who holds the sleep-lock of a buffer -/
  owner : B → Option P
  /-- the device's position in the avail ring -/
  taken : ℕ
  flight : List (Taken B)
  requests : ℕ
  request : ℕ → Option (Request B P)
  availTag : ℕ → ℕ
  usedTag : ℕ → ℕ

/-- The actions. -/
inductive Act (B P : Type) where
  /-- `acquiresleep(&b->lock)` -/
  | lockBuf (p : P) (b : B)
  /-- `releasesleep(&b->lock)` -/
  | unlockBuf (p : P) (b : B)
  /-- a call of `virtio_disk_rw(b, write)` -/
  | call (p : P) (b : B) (write : Bool)
  /-- the next step of `p` -/
  | go (p : P)
  /-- the next step of `virtio_disk_intr` -/
  | intr
  /-- the device takes an entry of the avail ring -/
  | take
  /-- the device completes the `k`th request that it has taken -/
  | complete (k : ℕ)

section

variable {B P : Type} [DecidableEq B] [DecidableEq P] (s : State B P)

namespace State

/-- Process `p` goes to `k`. -/
def goto (p : P) (k : Pc B) : State B P := { s with pc := assign s.pc p k }

/-- The record of request `t` changes. -/
def note (t : ℕ) (f : Request B P → Request B P) : State B P :=
  { s with request := assign s.request t ((s.request t).map f) }

/-- Process `p` acquires `vdisk_lock` and goes to `k`; it waits while somebody else has it. -/
def acquire (p : P) (k : Pc B) : Option (Except Panic (State B P)) :=
  if s.lock = none then some (.ok { s.goto p k with lock := some (.proc p) }) else none

/-- The next step of process `p`. -/
def go (p : P) : Option (Except Panic (State B P)) :=
  match s.pc p with
  | .idle => none
  | .start b write => s.acquire p (.alloc b write)
  | .alloc b write =>
    some (s.disk.alloc3Desc.map fun r =>
      match r with
      | (some c, d) => { s.goto p (.format b write c) with disk := d }
      | (none, d) => { s.goto p (.sleepFree b write) with disk := d, lock := none })
  | .sleepFree b write => s.acquire p (.alloc b write)
  | .format b write c =>
    some (.ok { s.goto p (.ring b c s.requests) with
      disk := s.disk.format b write c
      requests := s.requests + 1
      request := assign s.request s.requests (some ⟨p, b, c, 0, [], false⟩) })
  | .ring b c t =>
    let avail := s.disk.avail
    some (.ok { s.goto p (.bump b c t) with
      disk := { s.disk with avail := { avail with ring := assign avail.ring (avail.idx % NUM) c.i0 } }
      availTag := assign s.availTag (avail.idx % NUM) t })
  | .bump b c t =>
    let avail := s.disk.avail
    some (.ok { s.goto p (.test b c t) with
      disk := { s.disk with avail := { avail with idx := bump avail.idx } } })
  | .test b c t =>
    if s.disk.busy b then some (.ok { s.goto p (.sleepBuf b c t) with lock := none })
    else
      some ((s.disk.finish c).map fun d =>
        { (s.goto p .idle).note t fun x => { x with returned := true } with
          disk := d, lock := none })
  | .sleepBuf b c t => s.acquire p (.test b c t)

/-- The next step of `virtio_disk_intr`: `acquire`, one turn of the loop, or `release`. -/
def intr : Option (Except Panic (State B P)) :=
  match s.lock with
  | none => some (.ok { s with lock := some .intr })
  | some (.proc _) => none
  | some .intr =>
    if s.disk.usedIdx ≠ s.disk.used.idx then
      some (s.disk.intr.map fun r =>
        { s.note (s.usedTag (s.disk.usedIdx % NUM)) fun x => { x with cleared := x.cleared ++ [r.1] }
          with disk := r.2 })
    else some (.ok { s with lock := none })

/-- The device takes the next entry of the avail ring and follows the chain. -/
def take : Option (State B P) :=
  if s.taken ≠ s.disk.avail.idx then
    let head := s.disk.avail.ring (s.taken % NUM)
    let second := (s.disk.desc head).next
    let third := (s.disk.desc second).next
    some { s with
      taken := bump s.taken
      flight := s.flight ++ [⟨head, (s.disk.desc third).addr, s.availTag (s.taken % NUM)⟩] }
  else none

/-- The device completes a request: it sets the status byte and adds the head to the used ring. -/
def complete (k : ℕ) : Option (State B P) :=
  (s.flight[k]?).map fun x =>
    let used := s.disk.used
    let info := s.disk.info
    { s.note x.tag fun y => { y with completions := y.completions + 1 } with
      flight := s.flight.eraseIdx k
      usedTag := assign s.usedTag (used.idx % NUM) x.tag
      disk := { s.disk with
        used := used.push x.head
        info := match x.status with
          | .status i => assign info i { info i with status := 0 }
          | _ => info } }

end State

/-- What an action leads to; `none` if it is not possible. -/
def next : Act B P → Option (Except Panic (State B P))
  | .lockBuf p b =>
    match s.pc p with
    | .idle =>
      if s.owner b = none then some (.ok { s with owner := assign s.owner b (some p) }) else none
    | _ => none
  | .unlockBuf p b =>
    match s.pc p with
    | .idle =>
      if s.owner b = some p then some (.ok { s with owner := assign s.owner b none }) else none
    | _ => none
  | .call p b write =>
    match s.pc p with
    | .idle => if s.owner b = some p then some (.ok (s.goto p (.start b write))) else none
    | _ => none
  | .go p => s.go p
  | .intr => s.intr
  | .take => s.take.map .ok
  | .complete k => (s.complete k).map .ok

/-- One action. A panic ends the run. -/
def step (a : Act B P) : Option (State B P) :=
  match next s a with
  | some (.ok s') => some s'
  | _ => none

end

/-- The driver after `virtio_disk_init`: all descriptors are free. The indices of the rings may be
anything, as long as driver and device agree. -/
structure Ready {B P : Type} (s : State B P) : Prop where
  free : ∀ i < NUM, s.disk.free i = true
  avail : s.disk.avail.idx = s.taken ∧ s.taken < 2 ^ 16
  used : s.disk.used.idx = s.disk.usedIdx ∧ s.disk.usedIdx < 2 ^ 16
  lock : s.lock = none
  pc : ∀ p, s.pc p = .idle
  owner : ∀ b, s.owner b = none
  flight : s.flight = []
  requests : s.requests = 0
  request : ∀ t, s.request t = none

/-- Every interleaving of processes, interrupts and device. -/
def machine (B P : Type) [DecidableEq B] [DecidableEq P] : Machine (State B P) (Act B P) where
  init := Ready
  step := step

end Xv6.Virtio
