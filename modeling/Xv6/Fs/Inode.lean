import Mathlib.Data.Fintype.Basic
import Xv6.Fs.Layout
import Xv6.Lib.Writes
import Xv6.Vm.UserMem

/-!
# Blocks and inodes

Model of the block and inode layers of `kernel/fs.c`: `balloc`, `bfree`, `ialloc`, `iupdate`, `iget`,
`idup`, `ilock`, `iunlock`, `iput`, `bmap`, `itrunc`, `readi` and `writei`, as computations on a file
system state that end in a result or in the panic that stops the kernel.

The disk is seen through the buffer cache: `bread` returns the cached contents and a change to a
buffer is a change to `disk`, whose block numbers `log_write` records in `logged`. There is one device.
System calls run one at a time, so a sleep-lock that is not free is never released: waiting for it is
the error `deadlock`.
-/

namespace Xv6

namespace Block

/-- The `m` bytes from offset `off` on. -/
def bytes (b : Block) (off m : ℕ) : List UInt8 := (List.range m).map fun j => b (off + j)

/-- Copy `bs` to offset `off`. -/
def store (b : Block) (off : ℕ) (bs : List UInt8) : Block :=
  fun k => if off ≤ k then bs.getD (k - off) (b k) else b k

end Block

namespace Fs

open Lib (assign)

/-- Index of an in-memory inode, the `struct inode *` of the code. -/
abbrev Slot := Fin NINODE

/-- `struct inode`, less the device. -/
structure Inode where
  inum : ℕ
  ref : ℕ
  locked : Bool
  valid : Bool
  /-- copy of the disk inode -/
  din : Dinode

/-- The file system: the disk behind the buffer cache, the inode table, and the blocks passed to
`log_write`. -/
structure State where
  disk : Disk
  inode : Slot → Inode
  logged : List ℕ

/-- The panics, by their messages, and waiting for oneself. -/
inductive Err where
  /-- "freeing free block" -/
  | freeingFreeBlock
  /-- "iget: no inodes" -/
  | noInodes
  /-- "ilock" -/
  | ilock
  /-- "ilock: no type" -/
  | noType
  /-- "iunlock" -/
  | iunlock
  /-- "bmap: out of range" -/
  | bmapRange
  /-- "dirlookup not DIR" -/
  | notDir
  /-- "dirlookup read" -/
  | dirlookupRead
  /-- "dirlink read" -/
  | dirlinkRead
  /-- "isdirempty: readi" -/
  | isdiremptyRead
  /-- "unlink: nlink < 1" -/
  | unlinkNlink
  /-- "unlink: writei" -/
  | unlinkWritei
  /-- a process waits for a sleep-lock that it holds -/
  | deadlock
deriving DecidableEq

/-- Computations of the file system code. -/
abbrev M (α : Type) := StateT State (Except Err) α

/-! ## Blocks -/

/-- `bread(dev, b)`: the contents of the buffer. -/
def bread (b : ℕ) : M Block := do return (← get).disk b

/-- Change the buffer of block `b`. -/
def setBuf (b : ℕ) (blk : Block) : M Unit :=
  modify fun s => { s with disk := assign s.disk b blk }

/-- Change the buffer of block `b` and pass it to `log_write`. -/
def logWrite (b : ℕ) (blk : Block) : M Unit :=
  modify fun s => { s with disk := assign s.disk b blk, logged := b :: s.logged }

/-- `bzero`. -/
def bzero (bno : ℕ) : M Unit := logWrite bno zeroBlock

/-- The inner loop of `balloc`: the first clear bit from `bi` on, among `n`. -/
def findClear (blk : Block) : ℕ → ℕ → Option ℕ
  | 0, _ => none
  | n + 1, bi => if blk.bit bi then findClear blk n (bi + 1) else some bi

section

variable (sb : Superblock)

/-- The outer loop of `balloc`, from block `b` on. `b` is an `int`, here the number with its 32 bits: the
comparison with `sb.size` is unsigned, the division in `BBLOCK` is not, and `b += BPB` wraps around. -/
def ballocLoop : ℕ → ℕ → M ℕ
  | 0, _ => pure 0
  | n + 1, b =>
    if b < sb.size then do
      let bp ← bread (sb.bblockInt b)
      match findClear bp (min BPB (sb.size - b)) 0 with
      | some bi =>
        logWrite (sb.bblockInt b) (bp.orBit bi)
        bzero (b + bi)
        return b + bi
      | none => ballocLoop n ((b + BPB) % 2 ^ 32)
    else pure 0

/-- `balloc`: allocate a zeroed disk block; 0 if out of disk space. -/
def balloc : M ℕ := ballocLoop sb (sb.size / BPB + 1) 0

/-- `bfree`. -/
def bfree (b : ℕ) : M Unit := do
  let bp ← bread (sb.bblock b)
  if bp.bit (b % BPB) then logWrite (sb.bblock b) (bp.clearBit (b % BPB))
  else throw .freeingFreeBlock

/-! ## The inode table -/

/-- Replace in-memory inode `k`. -/
def setInode (k : Slot) (ip : Inode) : M Unit :=
  modify fun s => { s with inode := assign s.inode k ip }

/-- Change the in-memory copy of the disk inode. -/
def setDin (k : Slot) (f : Dinode → Dinode) : M Unit := do
  let ip := (← get).inode k
  setInode k { ip with din := f ip.din }

/-- `iget`. -/
def iget (inum : ℕ) : M Slot := do
  let s ← get
  match (List.finRange NINODE).find? fun k => 0 < (s.inode k).ref ∧ (s.inode k).inum = inum with
  | some k => do
      setInode k { s.inode k with ref := (s.inode k).ref + 1 }
      return k
  | none =>
    match (List.finRange NINODE).find? fun k => (s.inode k).ref = 0 with
    | none => throw .noInodes
    | some k => do
        setInode k { s.inode k with inum := inum, ref := 1, valid := false }
        return k

/-- `idup`. -/
def idup (k : Slot) : M Slot := do
  let ip := (← get).inode k
  setInode k { ip with ref := ip.ref + 1 }
  return k

/-- The search of `ialloc` for a free disk inode, from `inum` on. -/
def iallocLoop (type : UInt16) : ℕ → ℕ → M (Option Slot)
  | 0, _ => pure none
  | n + 1, inum => do
      let bp ← bread (sb.iblock inum)
      if (bp.getDinode (inum % IPB)).type = 0 then do
        logWrite (sb.iblock inum) (bp.putDinode (inum % IPB) { Dinode.zero with type := type })
        let k ← iget inum
        return some k
      else iallocLoop type n (inum + 1)

/-- `ialloc`: the inode numbers run from 1 to `sb.ninodes - 1`. -/
def ialloc (type : UInt16) : M (Option Slot) := iallocLoop sb type (sb.ninodes - 1) 1

/-- `iupdate`. -/
def iupdate (k : Slot) : M Unit := do
  let ip := (← get).inode k
  let bp ← bread (sb.iblock ip.inum)
  logWrite (sb.iblock ip.inum) (bp.putDinode (ip.inum % IPB) ip.din)

/-- `ilock`. -/
def ilock (k : Slot) : M Unit := do
  let ip := (← get).inode k
  if ip.ref < 1 then throw .ilock
  else if ip.locked then throw .deadlock
  else if ip.valid then setInode k { ip with locked := true }
  else do
    let bp ← bread (sb.iblock ip.inum)
    let din := bp.getDinode (ip.inum % IPB)
    setInode k { ip with locked := true, valid := true, din := din }
    if din.type = 0 then throw .noType else pure ()

/-- `iunlock`. -/
def iunlock (k : Slot) : M Unit := do
  let ip := (← get).inode k
  if ip.locked = false ∨ ip.ref < 1 then throw .iunlock
  else setInode k { ip with locked := false }

/-! ## Inode content -/

/-- `if((addr = ip->addrs[j]) == 0){ addr = balloc(ip->dev); if(addr == 0) return 0;
ip->addrs[j] = addr; }` -/
def addrOrAlloc (k : Slot) (j : Fin (NDIRECT + 1)) : M ℕ := do
  let addr := (((← get).inode k).din.addrs j).toNat
  if addr = 0 then do
    let addr ← balloc sb
    if addr = 0 then pure 0
    else do
      setDin k fun d => { d with addrs := assign d.addrs j (UInt32.ofNat addr) }
      return addr
  else pure addr

/-- The index of the indirect block's address. -/
abbrev indirect : Fin (NDIRECT + 1) := Fin.ofNat _ NDIRECT

/-- `bmap`: the disk block of block `bn` of the inode, allocated if there is none; 0 if out of disk
space. -/
def bmap (k : Slot) (bn : ℕ) : M ℕ :=
  if bn < NDIRECT then addrOrAlloc sb k (Fin.ofNat _ bn)
  else if bn - NDIRECT < NINDIRECT then do
    let addr ← addrOrAlloc sb k indirect
    if addr = 0 then pure 0
    else do
      let bp ← bread addr
      if bp.word (bn - NDIRECT) = 0 then do
        let a ← balloc sb
        if a = 0 then pure 0
        else do
          logWrite addr (bp.setWord (bn - NDIRECT) a)
          return a
      else return bp.word (bn - NDIRECT)
  else throw .bmapRange

/-- The first loop of `itrunc`, from `i` on. -/
def truncDirect (k : Slot) : ℕ → ℕ → M Unit
  | 0, _ => pure ()
  | n + 1, i => do
      let addr := (((← get).inode k).din.addrs (Fin.ofNat _ i)).toNat
      if addr ≠ 0 then do
        bfree sb addr
        setDin k fun d => { d with addrs := assign d.addrs (Fin.ofNat _ i) 0 }
        truncDirect k n (i + 1)
      else truncDirect k n (i + 1)

/-- The loop of `itrunc` over the entries of the indirect block, from `j` on. -/
def truncIndirect (bp : Block) : ℕ → ℕ → M Unit
  | 0, _ => pure ()
  | n + 1, j =>
    if bp.word j ≠ 0 then do
      bfree sb (bp.word j)
      truncIndirect bp n (j + 1)
    else truncIndirect bp n (j + 1)

/-- `itrunc`. -/
def itrunc (k : Slot) : M Unit := do
  truncDirect sb k NDIRECT 0
  let addr := (((← get).inode k).din.addrs indirect).toNat
  if addr ≠ 0 then do
    let bp ← bread addr
    truncIndirect sb bp NINDIRECT 0
    bfree sb addr
    setDin k fun d => { d with addrs := assign d.addrs indirect 0 }
  setDin k fun d => { d with size := 0 }
  iupdate sb k

/-- `iput`. -/
def iput (k : Slot) : M Unit := do
  let ip := (← get).inode k
  if ip.ref = 1 ∧ ip.valid = true ∧ ip.din.nlink = 0 then
    if ip.locked then throw .deadlock
    else do
      setInode k { ip with locked := true }
      itrunc sb k
      setDin k fun d => { d with type := 0 }
      iupdate sb k
      let ip := (← get).inode k
      setInode k { ip with valid := false, locked := false, ref := ip.ref - 1 }
  else setInode k { ip with ref := ip.ref - 1 }

/-- `iunlockput`. -/
def iunlockput (k : Slot) : M Unit := do
  iunlock k
  iput sb k

/-- Where `readi` copies to: bytes collected in kernel memory, or a process's memory. -/
inductive Dest where
  | kernel (bytes : List UInt8)
  | user (m : UserMem) (dst : ℕ)

/-- `either_copyout` of the next bytes; the destination pointer moves on. -/
def Dest.copyout : Dest → List UInt8 → Bool × Dest
  | .kernel t, bs => (true, .kernel (t ++ bs))
  | .user m dst, bs =>
    let r := m.copyout dst bs
    (decide (r.1 ≠ -1), .user r.2 (dst + bs.length))

/-- Where `writei` copies from. -/
inductive Source where
  | kernel (bytes : List UInt8)
  | user (m : UserMem) (src : ℕ)

/-- `either_copyin` of the next `n` bytes: whether it succeeds, the bytes copied, and the source
pointer moved on. -/
def Source.copyin : Source → ℕ → Bool × List UInt8 × Source
  | .kernel t, n => (true, t.take n, .kernel (t.drop n))
  | .user m src, n =>
    let r := m.copyin src n
    (r.1, r.2, .user m (src + n))

/-- The loop of `readi`; every turn but the last reads at least one byte. -/
def readiLoop (k : Slot) : ℕ → ℕ → ℕ → ℕ → Dest → M (ℤ × Dest)
  | 0, tot, _, _, dst => pure (tot, dst)
  | f + 1, tot, off, n, dst =>
    if tot < n then do
      let addr ← bmap sb k (off / BSIZE)
      if addr = 0 then pure ((tot : ℤ), dst)
      else do
        let bp ← bread addr
        let m := min (n - tot) (BSIZE - off % BSIZE)
        let r := dst.copyout (bp.bytes (off % BSIZE) m)
        if r.1 then readiLoop k f (tot + m) (off + m) n r.2 else pure (-1, r.2)
    else pure ((tot : ℤ), dst)

/-- `readi(ip, user_dst, dst, off, n)`, for `uint` arguments. -/
def readi (k : Slot) (dst : Dest) (off n : ℕ) : M (ℤ × Dest) := do
  let size := ((← get).inode k).din.size.toNat
  if size < off ∨ (off + n) % 2 ^ 32 < off then pure (0, dst)
  else
    let n := if size < off + n then size - off else n
    readiLoop sb k n 0 off n dst

/-- The loop of `writei`: the bytes written and the offset reached. -/
def writeiLoop (k : Slot) : ℕ → ℕ → ℕ → ℕ → Source → M (ℕ × ℕ)
  | 0, tot, off, _, _ => pure (tot, off)
  | f + 1, tot, off, n, src =>
    if tot < n then do
      let addr ← bmap sb k (off / BSIZE)
      if addr = 0 then pure (tot, off)
      else do
        let bp ← bread addr
        let m := min (n - tot) (BSIZE - off % BSIZE)
        let r := src.copyin m
        if r.1 then do
          logWrite addr (bp.store (off % BSIZE) r.2.1)
          writeiLoop k f (tot + m) (off + m) n r.2.2
        else do
          setBuf addr (bp.store (off % BSIZE) r.2.1)
          return (tot, off)
    else pure (tot, off)

/-- `writei(ip, user_src, src, off, n)`, for `uint` arguments. -/
def writei (k : Slot) (src : Source) (off n : ℕ) : M ℤ := do
  let size := ((← get).inode k).din.size.toNat
  if size < off ∨ (off + n) % 2 ^ 32 < off then pure (-1)
  else if MAXFILE * BSIZE < off + n then pure (-1)
  else do
    let r ← writeiLoop sb k n 0 off n src
    if size < r.2 then setDin k fun d => { d with size := UInt32.ofNat r.2 }
    iupdate sb k
    return r.1

end

end Fs

end Xv6
