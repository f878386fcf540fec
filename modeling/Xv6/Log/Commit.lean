import Xv6.Block
import Xv6.Lib.Writes

/-!
# The redo log on disk: commit and recovery

Model of the disk side of `kernel/log.c`: `write_log`, `write_head`, `install_trans`, `read_head`,
`commit` and `recover_from_log`. The log occupies `log.size` blocks from `log.start`: a header block
with the number `n` of logged blocks and their home block numbers, then the logged blocks.

A `Dev` is the disk behind the buffer cache, with the list of block writes issued so far. A buffer
that the code fills and then passes to `bwrite` is one `bwrite` of the new contents. The
`brelse`/`bunpin` calls only give buffers back: they change no contents and are not modelled here.
-/

namespace Xv6.Log

open Xv6.Lib

/-- Where the log lies on disk: `log.start` and `log.size`, set from `sb.logstart` and `sb.nlog`. -/
structure Region where
  start : ℕ
  size : ℕ

/-- Block `b` is in the log region `[start, start + size)`. -/
def Region.Contains (L : Region) (b : ℕ) : Prop := L.start ≤ b ∧ b < L.start + L.size

instance (L : Region) (b : ℕ) : Decidable (L.Contains b) := by
  unfold Region.Contains; infer_instance

/-- The in-memory `struct logheader`: the entries `block[0 .. n)`, with the bounds that the C type
gives (an array of `LOGSIZE` words). -/
structure Header where
  block : List ℕ
  length_le : block.length ≤ LOGSIZE
  word : ∀ b ∈ block, b < 2 ^ 32

/-- The field `n` of the header. -/
def Header.n (lh : Header) : ℕ := lh.block.length

/-- The disk, the buffer cache in front of it and the block writes issued so far, oldest first. -/
structure Dev where
  cache : ℕ → Option Block
  disk : Disk
  writes : List (ℕ × Block)

/-- The machine after a reboot: an empty cache. -/
def Dev.boot (d : Disk) : Dev := ⟨fun _ => none, d, []⟩

/-- The contents `bread` returns: the cached ones, or those on disk. -/
def Dev.bread (s : Dev) (b : ℕ) : Block := (s.cache b).getD (s.disk b)

/-- Fill the buffer of block `b` with `v` and write it to disk. -/
def Dev.bwrite (s : Dev) (b : ℕ) (v : Block) : Dev where
  cache := Function.update s.cache b (some v)
  disk := Function.update s.disk b v
  writes := s.writes ++ [(b, v)]

/-- The signed `n` of a header block. -/
def headN (hb : Block) : ℤ := if hb.word 0 < 2 ^ 31 then hb.word 0 else (hb.word 0 : ℤ) - 2 ^ 32

/-- `hb->block[i] = log.lh.block[i]` from index `i` on. -/
def storeBlocks (hb : Block) : ℕ → List ℕ → Block
  | _, [] => hb
  | i, b :: bs => storeBlocks (hb.setWord (i + 1) b) (i + 1) bs

/-- Copy modified blocks from the cache to the log, from log slot `tail` on. -/
def writeLog (L : Region) (s : Dev) : ℕ → List ℕ → Dev
  | _, [] => s
  | tail, b :: bs => writeLog L (s.bwrite (L.start + tail + 1) (s.bread b)) (tail + 1) bs

/-- Copy committed blocks from the log to their home location, from log slot `tail` on. -/
def installTrans (L : Region) (s : Dev) : ℕ → List ℕ → Dev
  | _, [] => s
  | tail, b :: bs => installTrans L (s.bwrite b (s.bread (L.start + tail + 1))) (tail + 1) bs

/-- Write the in-memory header to disk. Only `n` and the first `n` entries of the header block
change. -/
def writeHead (L : Region) (s : Dev) (block : List ℕ) : Dev :=
  s.bwrite L.start (storeBlocks ((s.bread L.start).setWord 0 block.length) 0 block)

/-- Read the log header from disk; a negative `n` reads no entries. -/
def readHead (L : Region) (s : Dev) : List ℕ :=
  (List.range (headN (s.bread L.start)).toNat).map fun i => (s.bread L.start).word (i + 1)

/-- `recover_from_log`: if committed, copy from the log to disk; then clear the log. -/
def recoverFromLog (L : Region) (s : Dev) : Dev :=
  writeHead L (installTrans L s 0 (readHead L s)) []

/-- `commit`: write the log, the header, the home locations and the erased header. -/
def commit (L : Region) (s : Dev) (block : List ℕ) : Dev :=
  if 0 < block.length then
    writeHead L (installTrans L (writeHead L (writeLog L s 0 block) block) 0 block) []
  else s

/-- The writes that `commit` issues, oldest first. -/
def commitWrites (L : Region) (cache : ℕ → Option Block) (d : Disk) (block : List ℕ) :
    List (ℕ × Block) :=
  (commit L ⟨cache, d, []⟩ block).writes

/-- The disk after a crash of `commit` that lets only its first `k` block writes through. -/
def crashCommit (L : Region) (cache : ℕ → Option Block) (d : Disk) (block : List ℕ) (k : ℕ) :
    Disk :=
  applyWrites ((commitWrites L cache d block).take k) d

/-- The disk after a reboot whose recovery crashes after its first `k` block writes. -/
def crashRecover (L : Region) (d : Disk) (k : ℕ) : Disk :=
  applyWrites ((recoverFromLog L (Dev.boot d)).writes.take k) d

/-- Reboot once for every element of `ks`, each time crashing after that many writes, and then once
more to the end of the recovery. -/
def recoverThrough (L : Region) (d : Disk) (ks : List ℕ) : Disk :=
  (recoverFromLog L (Dev.boot (ks.foldl (crashRecover L) d))).disk

end Xv6.Log
