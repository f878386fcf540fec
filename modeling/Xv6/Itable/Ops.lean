import Xv6.Fs.Dir
import Xv6.Fs.File
import Xv6.Lib.Threads

/-!
# The inode table and the file table: their critical sections

The inode table of `kernel/fs.c`, the file table of `kernel/file.c` and what a process has of them, as
shared state, and the atomic operations on it: the code between an `acquire` and the next `release` of
`itable.lock` or `ftable.lock`, or an access to data that a sleep-lock or the process itself protects.
`Xv6.Itable.Calls` builds the system calls from them.

What the disk holds and whether memory is available is not part of the state. Where the code depends on
it (the inode that `ilock` reads, what `dirlookup` finds, whether a write succeeds) the outcome is any
that the choice says.
-/

namespace Xv6.Itable

open Fs Lib

/-- device number of file system root disk -/
abbrev ROOTDEV : ℕ := 1

/-- `struct inode`, less what only the contents of a file depend on. -/
structure Inode where
  dev : ℕ
  inum : ℕ
  ref : ℕ
  /-- `lock` is held -/
  locked : Bool
  valid : Bool
  type : UInt16
  nlink : UInt16
  major : UInt16

/-- `state` of a process, as far as it matters here: `live` is any state in which it can run or wait. -/
inductive ProcState where
  | unused
  | used
  | live
  | zombie
deriving DecidableEq

/-- `struct proc`, what it has of files and inodes. -/
structure Proc where
  state : ProcState
  ofile : Ofile
  cwd : Option Slot

/-- The ends of a `struct pipe`. -/
structure Pipe where
  readopen : Bool
  writeopen : Bool
deriving DecidableEq

/-- The pipe without one of its ends. -/
def Pipe.close (x : Pipe) (writable : Bool) : Pipe :=
  if writable then { x with writeopen := false } else { x with readopen := false }

/-- Index into `proc`. -/
abbrev ProcSlot := Fin NPROC

/-- `itable`, `ftable`, `proc`, the pipes by their page, and which processes are between `begin_op` and
`end_op`. -/
structure Shared where
  inode : Slot → Inode
  file : Ftable
  proc : ProcSlot → Proc
  pipe : ℕ → Option Pipe
  inOp : ProcSlot → Bool

/-- The panics, by their messages. -/
inductive Panic where
  /-- of `kernel/file.c` -/
  | file (e : FilePanic)
  /-- not a panic: a process waits in `begin_op` for its own transaction -/
  | nestedOp
  /-- "iget: no inodes" -/
  | noInodes
  /-- "ilock" -/
  | ilock
  /-- "ilock: no type" -/
  | noType
  /-- "iunlock" -/
  | iunlock
  /-- "dirlookup not DIR" -/
  | notDir
  /-- "unlink: nlink < 1" -/
  | unlinkNlink
  /-- "unlink: writei" -/
  | unlinkWritei
  /-- "init exiting" -/
  | initExiting
  /-- not a panic: a process uses a pipe whose page has been freed, or frees the page again -/
  | freedPipe
deriving DecidableEq

/-- Where `fileclose` is called: to close a file, or on an error exit to give back a slot that was just
allocated. -/
inductive Site where
  | close
  | fail
deriving DecidableEq

/-- The atomic operations. -/
inductive Op where
  | beginOp
  | endOp
  | panic (e : Panic)
  /-- `iget` -/
  | iget (dev inum : ℕ)
  /-- `idup` -/
  | idup (k : Slot)
  /-- `ilock` -/
  | ilock (k : Slot)
  /-- `iunlock` -/
  | iunlock (k : Slot)
  /-- `iput`, until it first releases `itable.lock`: whether it frees the inode -/
  | iputFirst (k : Slot)
  /-- `itrunc` to `releasesleep` in `iput` -/
  | iputFree (k : Slot)
  /-- the rest of `iput` after it freed the inode -/
  | iputLast (k : Slot)
  /-- the fields of a locked inode, or those that never change -/
  | inode (k : Slot)
  /-- `ip->nlink = n; iupdate(ip);` -/
  | setNlink (k : Slot) (n : UInt16)
  /-- `ip->major = major; ip->minor = minor; ip->nlink = 1; iupdate(ip);` -/
  | setNew (k : Slot) (major : UInt16)
  /-- the search of `dirlookup`: the inode number of the entry -/
  | lookup (k : Slot) (name : List UInt8)
  /-- the search of `ialloc` for a free inode on disk -/
  | ifind (dev : ℕ) (type : UInt16)
  /-- whether a disk or memory operation succeeds -/
  | succeeds
  | filealloc
  | filedup (f : FileSlot)
  /-- the critical section of `fileclose` -/
  | unref (site : Site) (f : FileSlot)
  /-- the assignments of `sys_open` to its new file -/
  | setInode (f : FileSlot) (ip : Slot) (device : Bool) (major : UInt16) (readable writable : Bool)
  /-- the assignments of `pipealloc` to a new file -/
  | setPipe (f : FileSlot) (pi : ℕ) (writable : Bool)
  /-- the `kalloc` of `pipealloc`, and the new pipe -/
  | pipe
  /-- the critical section of `pipeclose`: whether both ends are closed now -/
  | pipeclose (pi : ℕ) (writable : Bool)
  /-- the `kfree` of `pipeclose` -/
  | kfree (pi : ℕ)
  /-- the fields of a file -/
  | file (f : FileSlot)
  /-- a critical section of `piperead` or `pipewrite`, until it sleeps or returns: whether it returns -/
  | pipeTurn (pi : ℕ) (writable : Bool)
  /-- `p->ofile[fd] = f` -/
  | setOfile (fd : Fin NOFILE) (f : Option FileSlot)
  /-- `p->cwd = ip` -/
  | setCwd (ip : Option Slot)
  | allocproc
  | freeproc (np : ProcSlot)
  /-- `np->ofile[fd] = f` -/
  | childOfile (np : ProcSlot) (fd : Fin NOFILE) (f : FileSlot)
  /-- `np->cwd = ip` -/
  | childCwd (np : ProcSlot) (ip : Slot)
  /-- `np->state = RUNNABLE` -/
  | runnable (np : ProcSlot)
  /-- `p->state = ZOMBIE` -/
  | zombie
  /-- `wait` finds a zombie -/
  | reap
deriving DecidableEq

/-- What an operation returns. -/
abbrev Op.Res : Op → Type
  | panic _ => Empty
  | iget _ _ => Slot
  | iputFirst _ => Bool
  | inode _ => Inode
  | lookup _ _ => Option ℕ
  | ifind _ _ => Option ℕ
  | succeeds => Bool
  | filealloc => Option FileSlot
  | unref _ _ => Option File
  | pipe => Option ℕ
  | pipeclose _ _ => Bool
  | file _ => File
  | pipeTurn _ _ => Bool
  | allocproc => Option ProcSlot
  | _ => Unit

/-- The outcomes that the state does not determine. -/
structure Choice where
  /-- type, link count and major number on disk -/
  din : UInt16 × UInt16 × UInt16 := (0, 0, 0)
  inum : Option ℕ := none
  ok : Bool := true
  proc : Option ProcSlot := none
  page : Option ℕ := none

namespace Shared

variable (s : Shared)

def withInode (k : Slot) (x : Inode) : Shared := { s with inode := assign s.inode k x }

def withFile (f : FileSlot) (x : File) : Shared := { s with file := assign s.file f x }

def withProc (p : ProcSlot) (x : Proc) : Shared := { s with proc := assign s.proc p x }

/-- A computation on the file table. -/
def liftFile {α : Type} (x : FM α) : Option (Except Panic (α × Shared)) :=
  match x.run s.file with
  | .ok (a, t) => some (.ok (a, { s with file := t }))
  | .error e => some (.error (.file e))

/-- `iget`: the entry of the inode, with a reference, or an empty one that becomes its entry. -/
def iget (dev inum : ℕ) : Option (Except Panic (Slot × Shared)) :=
  match (List.finRange NINODE).find? fun k =>
      0 < (s.inode k).ref ∧ (s.inode k).dev = dev ∧ (s.inode k).inum = inum with
  | some k => some (.ok (k, s.withInode k { s.inode k with ref := (s.inode k).ref + 1 }))
  | none =>
    match (List.finRange NINODE).find? fun k => (s.inode k).ref = 0 with
    | none => some (.error .noInodes)
    | some k =>
      some (.ok (k, s.withInode k
        { s.inode k with dev := dev, inum := inum, ref := 1, valid := false }))

/-- `ilock`: it waits while the inode is locked. -/
def ilock (k : Slot) (din : UInt16 × UInt16 × UInt16) : Option (Except Panic (Unit × Shared)) :=
  let ip := s.inode k
  if ip.ref < 1 then some (.error .ilock)
  else if ip.locked then none
  else if ip.valid then some (.ok ((), s.withInode k { ip with locked := true }))
  else if din.1 = 0 then some (.error .noType)
  else some (.ok ((), s.withInode k
    { ip with locked := true, valid := true, type := din.1, nlink := din.2.1, major := din.2.2 }))

/-- `iunlock`. -/
def iunlock (k : Slot) : Option (Except Panic (Unit × Shared)) :=
  let ip := s.inode k
  if ip.locked = false ∨ ip.ref < 1 then some (.error .iunlock)
  else some (.ok ((), s.withInode k { ip with locked := false }))

/-- `iput`, until it first releases `itable.lock`. -/
def iputFirst (k : Slot) : Option (Except Panic (Bool × Shared)) :=
  let ip := s.inode k
  if ip.ref = 1 ∧ ip.valid = true ∧ ip.nlink = 0 then
    if ip.locked then none
    else some (.ok (true, s.withInode k { ip with locked := true }))
  else some (.ok (false, s.withInode k { ip with ref := ip.ref - 1 }))

/-- An operation on the pipe in page `pi`. -/
def onPipe {α : Type} (pi : ℕ) (x : Pipe → α × Option Pipe) : Option (Except Panic (α × Shared)) :=
  match s.pipe pi with
  | none => some (.error .freedPipe)
  | some ends => some (.ok ((x ends).1, { s with pipe := assign s.pipe pi (x ends).2 }))

/-- `pipeclose`, without its `kfree`. -/
def pipeclose (pi : ℕ) (writable : Bool) : Option (Except Panic (Bool × Shared)) :=
  s.onPipe pi fun x => (decide (x.close writable = ⟨false, false⟩), some (x.close writable))

end Shared

/-- Process `p` performs an operation. It is not possible (`none`) while it waits, and when the choice is
not one of its outcomes. -/
def exec (p : ProcSlot) (o : Op) (x : Choice) (s : Shared) :
    Option (Except Panic (o.Res × Shared)) :=
  match o with
  | .beginOp =>
    if s.inOp p then some (.error .nestedOp)
    else some (.ok ((), { s with inOp := assign s.inOp p true }))
  | .endOp => some (.ok ((), { s with inOp := assign s.inOp p false }))
  | .panic e => some (.error e)
  | .iget dev inum => s.iget dev inum
  | .idup k => some (.ok ((), s.withInode k { s.inode k with ref := (s.inode k).ref + 1 }))
  | .ilock k => s.ilock k x.din
  | .iunlock k => s.iunlock k
  | .iputFirst k => s.iputFirst k
  | .iputFree k =>
    some (.ok ((), s.withInode k { s.inode k with type := 0, valid := false, locked := false }))
  | .iputLast k => some (.ok ((), s.withInode k { s.inode k with ref := (s.inode k).ref - 1 }))
  | .inode k => some (.ok (s.inode k, s))
  | .setNlink k n => some (.ok ((), s.withInode k { s.inode k with nlink := n }))
  | .setNew k major =>
    some (.ok ((), s.withInode k { s.inode k with major := major, nlink := 1 }))
  | .lookup _ _ => some (.ok (x.inum, s))
  | .ifind _ _ => some (.ok (x.inum, s))
  | .succeeds => some (.ok (x.ok, s))
  | .filealloc => s.liftFile filealloc
  | .filedup f => s.liftFile (filedup f)
  | .unref _ f => s.liftFile (unref f)
  | .setInode f ip device major readable writable =>
    let ff := s.file f
    some (.ok ((), s.withFile f
      { ff with
        type := if device then .device else .inode
        major := if device then major else ff.major
        off := if device then ff.off else 0
        ip := ip
        readable := readable
        writable := writable }))
  | .setPipe f pi writable =>
    some (.ok ((), s.withFile f
      { s.file f with type := .pipe, pipe := pi, readable := !writable, writable := writable }))
  | .pipe =>
    match x.page with
    | none => some (.ok (none, s))
    | some pi =>
      if s.pipe pi = none then
        some (.ok (some pi, { s with pipe := assign s.pipe pi (some ⟨true, true⟩) }))
      else none
  | .pipeclose pi writable => s.pipeclose pi writable
  | .kfree pi => s.onPipe pi fun _ => ((), none)
  | .file f => some (.ok (s.file f, s))
  | .pipeTurn pi _ => s.onPipe pi fun ends => (x.ok, some ends)
  | .setOfile fd f =>
    some (.ok ((), s.withProc p { s.proc p with ofile := assign (s.proc p).ofile fd f }))
  | .setCwd ip => some (.ok ((), s.withProc p { s.proc p with cwd := ip }))
  | .allocproc =>
    match x.proc with
    | none => some (.ok (none, s))
    | some np =>
      if (s.proc np).state = .unused then
        some (.ok (some np, s.withProc np { s.proc np with state := .used }))
      else none
  | .freeproc np => some (.ok ((), s.withProc np { s.proc np with state := .unused }))
  | .childOfile np fd f =>
    some (.ok ((), s.withProc np
      { s.proc np with ofile := assign (s.proc np).ofile fd (some f) }))
  | .childCwd np ip => some (.ok ((), s.withProc np { s.proc np with cwd := some ip }))
  | .runnable np => some (.ok ((), s.withProc np { s.proc np with state := .live }))
  | .zombie => some (.ok ((), s.withProc p { s.proc p with state := .zombie }))
  | .reap =>
    match x.proc with
    | none => none
    | some q =>
      if (s.proc q).state = .zombie then
        some (.ok ((), s.withProc q { s.proc q with state := .unused }))
      else none

end Xv6.Itable
