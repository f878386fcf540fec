import Xv6.Fs.Blocks
import Xv6.Fs.File
import Xv6.Lib.Transition

/-!
# Writing to a shared file

Model of `filewrite` of `kernel/file.c` for a `struct file` of type `FD_INODE` that any number of processes
share. A call writes its bytes in chunks, each between `begin_op` and `end_op` and under the lock of the
inode; between two chunks other processes may write theirs. The bytes a process passes are in its own
memory, which does not change during the call.

`order` and `written` record the chunks whose lock was acquired and those that were written.
-/

namespace Xv6.Fs.FileWrite

open Lib

/-- `int max = ((MAXOPBLOCKS-1-1-2) / 2) * BSIZE;` -/
abbrev maxWrite : ℕ := (MAXOPBLOCKS - 1 - 1 - 2) / 2 * BSIZE

/-- The arguments `addr` and `n` of a call, with the caller's memory. -/
structure Call where
  mem : UserMem
  addr : ℕ
  n : ℤ

/-- The bytes of the user's buffer. -/
def Call.bytes (c : Call) : List UInt8 := c.mem.read c.addr c.n.toNat

/-- The user's buffer is mapped. -/
def Call.Mapped (c : Call) : Prop := c.mem.Mapped c.addr c.n.toNat

/-- The piece of `n1` bytes from byte `i` on of call number `id`. -/
structure Chunk where
  id : ℕ
  i : ℕ
  n1 : ℕ
deriving DecidableEq

/-- Where a process is in `filewrite`, with its call, the number of the call, and its local variables. -/
inductive Pc where
  /-- in user space -/
  | idle
  /-- `while(i < n)` -/
  | loop (id : ℕ) (c : Call) (i : ℕ)
  /-- `ilock(f->ip)`, behind `begin_op()` -/
  | ilock (c : Call) (x : Chunk)
  /-- `if ((r = writei(f->ip, 1, addr + i, f->off, n1)) > 0) f->off += r;` -/
  | write (c : Call) (x : Chunk)
  /-- `iunlock(f->ip)`, and `end_op()` -/
  | iunlock (c : Call) (x : Chunk) (r : ℤ)
  /-- `return ret` -/
  | ret (id : ℕ) (c : Call) (ret : ℤ)

/-- What processes do: call `filewrite`, or go on. -/
inductive Act (P : Type) where
  | call (p : P) (c : Call)
  | go (p : P)

/-- The file system, the shared file and the processes; the calls so far, and their chunks in the order of
`ilock` and of `writei`. -/
structure State (P : Type) where
  fs : Fs.State
  file : Fs.File
  pc : P → Pc
  calls : List Call
  order : List Chunk
  written : List Chunk

section

variable {P : Type} [DecidableEq P] (sb : Superblock) (s : State P)

/-- The value `ret = (i == n ? n : -1)`. -/
def result (c : Call) (i : ℕ) : ℤ := if i = c.n then c.n else -1

/-- The next part of the call of process `p`; `none` if it has to wait. -/
def go (p : P) : Option (Except Err (State P)) :=
  match s.pc p with
  | .idle => none
  | .loop id c i =>
    if (i : ℤ) < c.n then
      some (.ok { s with pc := assign s.pc p (.ilock c ⟨id, i, min (c.n.toNat - i) maxWrite⟩) })
    else some (.ok { s with pc := assign s.pc p (.ret id c (result c i)) })
  | .ilock c x =>
    if (s.fs.inode s.file.ip).locked then none
    else some (((ilock sb s.file.ip).run s.fs).map fun r =>
      { s with fs := r.2, pc := assign s.pc p (.write c x), order := s.order ++ [x] })
  | .write c x =>
    some (((writei sb s.file.ip (.user c.mem (c.addr + x.i)) s.file.off x.n1).run s.fs).map fun r =>
      { s with
        fs := r.2
        file := { s.file with
          off := if (0 : ℤ) < r.1 then (s.file.off + r.1.toNat) % 2 ^ 32 else s.file.off }
        pc := assign s.pc p (.iunlock c x r.1)
        written := s.written ++ [x] })
  | .iunlock c x r =>
    some (((iunlock s.file.ip).run s.fs).map fun t =>
      { s with
        fs := t.2
        pc := assign s.pc p
          (if r ≠ x.n1 then .ret x.id c (result c x.i) else .loop x.id c (x.i + r.toNat)) })
  | .ret _ _ _ => some (.ok { s with pc := assign s.pc p .idle })

/-- What an action leads to; `none` if it is not possible. -/
def next : Act P → Option (Except Err (State P))
  | .call p c =>
    match s.pc p with
    | .idle =>
      some (.ok { s with
        pc := assign s.pc p
          (if s.file.writable then .loop s.calls.length c 0 else .ret s.calls.length c (-1))
        calls := s.calls ++ [c] })
    | _ => none
  | .go p => go sb s p

/-- One action. A panic ends the run. -/
def step (a : Act P) : Option (State P) :=
  match next sb s a with
  | some (.ok s') => some s'
  | _ => none

end

/-- Processes that share an open file: it can be written, its inode is an allocated one, and its offset is
within the file. The inode is not locked, and no process is in a call. -/
structure Start {P : Type} (sb : Superblock) (s : State P) : Prop where
  writable : s.file.writable = true
  type : s.file.type = .inode
  inum_lt : (s.fs.inode s.file.ip).inum < sb.ninodes
  ref : 0 < (s.fs.inode s.file.ip).ref
  unlocked : (s.fs.inode s.file.ip).locked = false
  alloc : ((sb.abs s.fs.disk).din (s.fs.inode s.file.ip).inum).type ≠ 0
  sync : (s.fs.inode s.file.ip).valid = true →
    (s.fs.inode s.file.ip).din = (sb.abs s.fs.disk).din (s.fs.inode s.file.ip).inum
  off : s.file.off ≤ ((sb.abs s.fs.disk).din (s.fs.inode s.file.ip).inum).size.toNat
  size : ((sb.abs s.fs.disk).din (s.fs.inode s.file.ip).inum).size.toNat ≤ MAXFILE * BSIZE
  own : Own sb (sb.abs s.fs.disk)
  pc : ∀ p, s.pc p = .idle
  calls : s.calls = []
  order : s.order = []
  written : s.written = []

/-- Every interleaving of calls of `filewrite`. -/
def machine (sb : Superblock) (P : Type) [DecidableEq P] : Machine (State P) (Act P) where
  init := Start sb
  step := step sb

end Xv6.Fs.FileWrite
