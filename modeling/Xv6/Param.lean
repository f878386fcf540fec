import Mathlib.Tactic.Ring

/-!
# Kernel parameters

The constants of `kernel/param.h`, `kernel/fs.h` and `mkfs/mkfs.c` that the modelled code reads,
under the names the headers give them.
-/

namespace Xv6

/-- Maximum number of processes. -/
abbrev NPROC : ℕ := 64

/-- Open files per process. -/
abbrev NOFILE : ℕ := 16

/-- Open files per system. -/
abbrev NFILE : ℕ := 100

/-- Maximum number of active i-nodes. -/
abbrev NINODE : ℕ := 50

/-- Maximum major device number. -/
abbrev NDEV : ℕ := 10

/-- Maximum number of blocks any file-system operation writes. -/
abbrev MAXOPBLOCKS : ℕ := 10

/-- Maximum number of data blocks in the on-disk log. -/
abbrev LOGSIZE : ℕ := MAXOPBLOCKS * 3

/-- Size of the disk block cache. -/
abbrev NBUF : ℕ := MAXOPBLOCKS * 3

/-- Size of the file system in blocks. -/
abbrev FSSIZE : ℕ := 2000

/-- Maximum file path name. -/
abbrev MAXPATH : ℕ := 128

/-- Block size in bytes. -/
abbrev BSIZE : ℕ := 1024

-- so that a numeral can be an index of these tables
instance : NeZero NPROC := ⟨by decide⟩
instance : NeZero NINODE := ⟨by decide⟩

end Xv6
