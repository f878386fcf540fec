import Xv6.Fs.Dir

/-!
# Making a file system

Model of `mkfs/mkfs.c`: the disk image with a root directory and the given files.
-/

namespace Xv6.Fs.Mkfs

open Lib (assign)

/-- number of inodes -/
abbrev NINODES : ℕ := 200

/-- number of bit map blocks -/
abbrev nbitmap : ℕ := FSSIZE / (BSIZE * 8) + 1

/-- number of inode blocks -/
abbrev ninodeblocks : ℕ := NINODES / IPB + 1

/-- number of log blocks -/
abbrev nlog : ℕ := LOGSIZE

/-- number of meta blocks: boot, super, log, inode, bit map -/
abbrev nmeta : ℕ := 2 + nlog + ninodeblocks + nbitmap

/-- The super block. -/
def sb : Superblock where
  size := FSSIZE
  nblocks := FSSIZE - nmeta
  ninodes := NINODES
  nlog := nlog
  logstart := 2
  inodestart := 2 + nlog
  bmapstart := 2 + nlog + ninodeblocks

/-- "must be FSMAGIC" -/
abbrev FSMAGIC : ℕ := 0x10203040

/-- The block with the super block: `memmove(buf, &sb, sizeof(sb))` into a buffer of zeros. -/
def sbBlock : Block :=
  [FSMAGIC, sb.size, sb.nblocks, sb.ninodes, sb.nlog, sb.logstart, sb.inodestart,
    sb.bmapstart].zipIdx.foldl (fun b x => b.setWord x.2 x.1) zeroBlock

/-- The kernel's `readsb`, with the magic number that `fsinit` tests. -/
def readsb (d : Disk) : ℕ × Superblock :=
  ((d 1).word 0, ⟨(d 1).word 1, (d 1).word 2, (d 1).word 3, (d 1).word 4, (d 1).word 5, (d 1).word 6,
    (d 1).word 7⟩)

/-- The image and the counters `freeinode` and `freeblock`. -/
structure Image where
  disk : Disk
  freeinode : ℕ
  freeblock : ℕ

/-- The image when `main` has written zeros and the super block. -/
def Image.blank : Image := ⟨assign (fun _ => zeroBlock) 1 sbBlock, 1, nmeta⟩

/-- Computations of `mkfs`; the error is a failed assertion or `die`. -/
abbrev MK (α : Type) := StateT Image (Except Unit) α

/-- `wsect`. -/
def wsect (sec : ℕ) (buf : Block) : MK Unit :=
  modify fun s => { s with disk := assign s.disk sec buf }

/-- `rsect`; there is nothing to read behind the `FSSIZE` blocks that `main` wrote first. -/
def rsect (sec : ℕ) : MK Block := do
  let s ← get
  if sec < FSSIZE then pure (s.disk sec) else throw ()

/-- `winode`. -/
def winode (inum : ℕ) (ip : Dinode) : MK Unit := do
  let buf ← rsect (sb.iblock inum)
  wsect (sb.iblock inum) (buf.putDinode (inum % IPB) ip)

/-- `rinode`. -/
def rinode (inum : ℕ) : MK Dinode := do
  let buf ← rsect (sb.iblock inum)
  return buf.getDinode (inum % IPB)

/-- `ialloc`. -/
def ialloc (type : UInt16) : MK ℕ := do
  let inum := (← get).freeinode
  modify fun s => { s with freeinode := s.freeinode + 1 }
  winode inum { Dinode.zero with type := type, nlink := 1 }
  return inum

/-- `freeblock++` -/
def nextBlock : MK ℕ := do
  let b := (← get).freeblock
  modify fun s => { s with freeblock := s.freeblock + 1 }
  return b

/-- `if(xint(din.addrs[j]) == 0) din.addrs[j] = xint(freeblock++);` -/
def addrOrNext (din : Dinode) (j : Fin (NDIRECT + 1)) : MK Dinode := do
  if din.addrs j = 0 then do
    let b ← nextBlock
    return { din with addrs := assign din.addrs j (UInt32.ofNat b) }
  else return din

/-- The block of the file that `iappend` writes next. -/
def appendBlock (din : Dinode) (fbn : ℕ) : MK (Dinode × ℕ) := do
  if fbn < NDIRECT then do
    let din ← addrOrNext din (Fin.ofNat _ fbn)
    return (din, (din.addrs (Fin.ofNat _ fbn)).toNat)
  else do
    let din ← addrOrNext din indirect
    let addr := (din.addrs indirect).toNat
    let ind ← rsect addr
    if ind.word (fbn - NDIRECT) = 0 then do
      let b ← nextBlock
      wsect addr (ind.setWord (fbn - NDIRECT) b)
      return (din, b)
    else return (din, ind.word (fbn - NDIRECT))

/-- The loop of `iappend`; every turn appends at least one byte. -/
def iappendLoop : ℕ → Dinode → ℕ → List UInt8 → MK (Dinode × ℕ)
  | 0, din, off, _ => return (din, off)
  | f + 1, din, off, p =>
    if p = [] then return (din, off)
    else if off / BSIZE < MAXFILE then do
      let (din, x) ← appendBlock din (off / BSIZE)
      let n1 := min p.length (BSIZE - off % BSIZE)
      let buf ← rsect x
      wsect x (buf.store (off % BSIZE) (p.take n1))
      iappendLoop f din (off + n1) (p.drop n1)
    else throw ()

/-- `iappend`. -/
def iappend (inum : ℕ) (p : List UInt8) : MK Unit := do
  let din ← rinode inum
  let (din, off) ← iappendLoop p.length din din.size.toNat p
  winode inum { din with size := UInt32.ofNat off }

/-- The block that `balloc` writes: the first `used` bits are set. -/
def bitmapBlock : ℕ → Block
  | 0 => zeroBlock
  | used + 1 => (bitmapBlock used).orBit used

/-- `balloc`. -/
def balloc (used : ℕ) : MK Unit :=
  if used < BSIZE * 8 then wsect sb.bmapstart (bitmapBlock used) else throw ()

/-- Append an entry to the root directory. -/
def appendDirent (inum : ℕ) (name : List UInt8) : MK Unit :=
  iappend ROOTINO (Dirent.encode ⟨inum, strncpy DIRSIZ name⟩)

/-- An argument of the command, without "user/" and then without a leading "_". -/
def shortname (arg : List UInt8) : List UInt8 :=
  let user := (dirName "user/").dropLast
  let s := if user.isPrefixOf arg then arg.drop user.length else arg
  if s.head? = some 95 then s.tail else s

/-- `while((cc = read(fd, buf, sizeof(buf))) > 0) iappend(inum, buf, cc);` -/
def appendContent (inum : ℕ) : ℕ → List UInt8 → MK Unit
  | 0, _ => pure ()
  | f + 1, bytes =>
    if bytes = [] then pure ()
    else do
      iappend inum (bytes.take BSIZE)
      appendContent inum f (bytes.drop BSIZE)

/-- The loop over the files. -/
def addFiles : List (List UInt8 × List UInt8) → MK Unit
  | [] => pure ()
  | (arg, bytes) :: files =>
    if slash ∈ shortname arg then throw ()
    else do
      let inum ← ialloc T_FILE
      appendDirent inum (shortname arg ++ [0])
      appendContent inum bytes.length bytes
      addFiles files

/-- `main`, from the first `ialloc` on: the image of the named files with their contents. -/
def main (files : List (List UInt8 × List UInt8)) : MK Unit := do
  let rootino ← ialloc T_DIR
  if rootino ≠ ROOTINO then throw ()
  else do
    appendDirent rootino (dirName ".")
    appendDirent rootino (dirName "..")
    addFiles files
    let din ← rinode rootino
    winode rootino
      { din with size := UInt32.ofNat ((din.size.toNat / BSIZE + 1) * BSIZE) }
    balloc (← get).freeblock

/-- The image that the command writes, if it gets to the end. -/
def mkfs (files : List (List UInt8 × List UInt8)) : Except Unit Image :=
  ((main files).run .blank).map Prod.snd

end Xv6.Fs.Mkfs
