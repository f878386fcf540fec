import Xv6.Fs.Inode

/-!
# Directories and paths

Model of the directory and path layers of `kernel/fs.c` and of the file-system operations of
`kernel/sysfile.c` that work on names: `dirlookup`, `dirlink`, `skipelem`, `namex`, `create`, `link`
and `unlink`. Paths are the bytes of the string before its NUL, as `argstr` fetches it. A name buffer
is the bytes written to it: `DIRSIZ` bytes, or fewer with a NUL.
-/

namespace Xv6.Fs

/-- directory -/
abbrev T_DIR : UInt16 := 1

/-- file -/
abbrev T_FILE : UInt16 := 2

/-- device -/
abbrev T_DEVICE : UInt16 := 3

/-- length of a name in a directory entry -/
abbrev DIRSIZ : ℕ := 14

/-- `sizeof(struct dirent)` -/
abbrev DIRENT : ℕ := 16

/-- root i-number -/
abbrev ROOTINO : ℕ := 1

/-- `struct dirent`. -/
structure Dirent where
  inum : ℕ
  name : List UInt8
deriving DecidableEq

/-- The entry in `sizeof(struct dirent)` bytes. -/
def Dirent.decode (bs : List UInt8) : Dirent where
  inum := (bs.getD 0 0).toNat + 256 * (bs.getD 1 0).toNat
  name := bs.drop 2

/-- The bytes of an entry. -/
def Dirent.encode (de : Dirent) : List UInt8 :=
  UInt8.ofNat de.inum :: UInt8.ofNat (de.inum / 256) :: de.name

/-- `strncmp(p, q, n)`. -/
def strncmp : ℕ → List UInt8 → List UInt8 → ℤ
  | 0, _, _ => 0
  | n + 1, p, q =>
    if p.headD 0 ≠ 0 ∧ p.headD 0 = q.headD 0 then strncmp n p.tail q.tail
    else ((p.headD 0).toNat : ℤ) - (q.headD 0).toNat

/-- `strncpy(s, t, n)`: the `n` bytes stored at `s`. -/
def strncpy : ℕ → List UInt8 → List UInt8
  | 0, _ => []
  | n + 1, t =>
    if t.headD 0 = 0 then List.replicate (n + 1) 0 else t.headD 0 :: strncpy n t.tail

/-- `namecmp`. -/
def namecmp (s t : List UInt8) : ℤ := strncmp DIRSIZ s t

/-- The bytes of a string literal, as a name. -/
def dirName (s : String) : List UInt8 := s.toList.map (fun c => UInt8.ofNat c.toNat) ++ [0]

section

variable (sb : Superblock)

/-! ## Directories -/

/-- `if(readi(dp, 0, (uint64)&de, off, sizeof(de)) != sizeof(de)) panic(...)` -/
def readDirent (k : Slot) (off : ℕ) (err : Err) : M Dirent := do
  match ← readi sb k (.kernel []) off DIRENT with
  | (tot, .kernel bs) => if tot = DIRENT then pure (Dirent.decode bs) else throw err
  | _ => throw err

/-- The loop of `dirlookup`, from offset `off` on. -/
def dirlookupLoop (k : Slot) (name : List UInt8) : ℕ → ℕ → M (Option (Slot × ℕ))
  | 0, _ => pure none
  | n + 1, off => do
      if off < ((← get).inode k).din.size.toNat then do
        let de ← readDirent sb k off .dirlookupRead
        if de.inum = 0 then dirlookupLoop k name n (off + DIRENT)
        else if namecmp name de.name = 0 then do
          let ip ← iget de.inum
          return some (ip, off)
        else dirlookupLoop k name n (off + DIRENT)
      else pure none

/-- `dirlookup(dp, name, poff)`: the inode and the offset of the entry. -/
def dirlookup (k : Slot) (name : List UInt8) : M (Option (Slot × ℕ)) := do
  let din := ((← get).inode k).din
  if din.type = T_DIR then dirlookupLoop sb k name (din.size.toNat / DIRENT + 1) 0
  else throw .notDir

/-- The loop of `dirlink`: the offset of an empty entry, or the end of the directory. -/
def dirlinkLoop (k : Slot) : ℕ → ℕ → M ℕ
  | 0, off => pure off
  | n + 1, off => do
      if off < ((← get).inode k).din.size.toNat then do
        let de ← readDirent sb k off .dirlinkRead
        if de.inum = 0 then return off else dirlinkLoop k n (off + DIRENT)
      else pure off

/-- `dirlink(dp, name, inum)`. -/
def dirlink (k : Slot) (name : List UInt8) (inum : ℕ) : M ℤ := do
  match ← dirlookup sb k name with
  | some (ip, _) => do
      iput sb ip
      return -1
  | none => do
      let off ← dirlinkLoop sb k (((← get).inode k).din.size.toNat / DIRENT + 1) 0
      let r ← writei sb k (.kernel (Dirent.encode ⟨inum, strncpy DIRSIZ name⟩)) off DIRENT
      return if r = DIRENT then 0 else -1

/-- The loop of `isdirempty`, from offset `off` on. -/
def isdiremptyLoop (k : Slot) : ℕ → ℕ → M Bool
  | 0, _ => pure true
  | n + 1, off => do
      if off < ((← get).inode k).din.size.toNat then do
        let de ← readDirent sb k off .isdiremptyRead
        if de.inum = 0 then isdiremptyLoop k n (off + DIRENT) else return false
      else pure true

/-- `isdirempty(dp)`. -/
def isdirempty (k : Slot) : M Bool := do
  isdiremptyLoop sb k (((← get).inode k).din.size.toNat / DIRENT + 1) (2 * DIRENT)

/-! ## Paths -/

/-- The byte `/`. -/
abbrev slash : UInt8 := 47

/-- `skipelem(path, name)`: the name of the next element and the rest of the path. -/
def skipelem (path : List UInt8) : Option (List UInt8 × List UInt8) :=
  let path := path.dropWhile (· = slash)
  if path = [] then none
  else
    let elem := path.takeWhile (· ≠ slash)
    some (if DIRSIZ ≤ elem.length then elem.take DIRSIZ else elem ++ [0],
      (path.dropWhile (· ≠ slash)).dropWhile (· = slash))

/-- The loop of `namex`; each turn takes at least one byte of the path. -/
def namexLoop (parent : Bool) : ℕ → Slot → List UInt8 → M (Option (Slot × List UInt8))
  | n + 1, ip, path =>
    match skipelem path with
    | some (name, path) => do
        ilock sb ip
        if ((← get).inode ip).din.type ≠ T_DIR then do
          iunlockput sb ip
          return none
        else if parent ∧ path = [] then do
          iunlock ip
          return some (ip, name)
        else do
          match ← dirlookup sb ip name with
          | none => do
              iunlockput sb ip
              return none
          | some (next, _) => do
              iunlockput sb ip
              namexLoop parent n next path
    | none =>
      if parent then do
        iput sb ip
        return none
      else pure (some (ip, []))
  | 0, ip, _ => pure (some (ip, []))

/-- `namex(path, nameiparent, name)` of a process with current directory `cwd`: the inode, with the
last path element for `nameiparent`. -/
def namex (cwd : Slot) (path : List UInt8) (parent : Bool) : M (Option (Slot × List UInt8)) := do
  let ip ← if path.head? = some slash then iget ROOTINO else idup cwd
  namexLoop sb parent (path.length + 1) ip path

/-- `namei`. -/
def namei (cwd : Slot) (path : List UInt8) : M (Option Slot) := do
  return (← namex sb cwd path false).map Prod.fst

/-- `nameiparent`. -/
def nameiparent (cwd : Slot) (path : List UInt8) : M (Option (Slot × List UInt8)) :=
  namex sb cwd path true

/-! ## Operations on names -/

/-- The `fail` exit of `create`. -/
def createFail (dp ip : Slot) : M (Option Slot) := do
  setDin ip fun d => { d with nlink := 0 }
  iupdate sb ip
  iunlockput sb ip
  iunlockput sb dp
  return none

/-- The part of `create` that gives a new directory its first entries. -/
def createDots (dp ip : Slot) : M ℤ := do
  let r ← dirlink sb ip (dirName ".") ((← get).inode ip).inum
  if r < 0 then pure r else dirlink sb ip (dirName "..") ((← get).inode dp).inum

/-- The last part of `create`, which enters the new inode in its parent. -/
def createLink (dp ip : Slot) (name : List UInt8) (type : UInt16) : M (Option Slot) := do
  let r ← dirlink sb dp name ((← get).inode ip).inum
  if r < 0 then createFail sb dp ip
  else do
    if type = T_DIR then do
      setDin dp fun d => { d with nlink := d.nlink + 1 }
      iupdate sb dp
    iunlockput sb dp
    return some ip

/-- The part of `create` that follows `ialloc`. -/
def createNew (dp ip : Slot) (name : List UInt8) (type major minor : UInt16) : M (Option Slot) := do
  ilock sb ip
  setDin ip fun d => { d with major := major, minor := minor, nlink := 1 }
  iupdate sb ip
  if type = T_DIR then do
    let r ← createDots sb dp ip
    if r < 0 then createFail sb dp ip else createLink sb dp ip name type
  else createLink sb dp ip name type

/-- `create(path, type, major, minor)`: the locked inode. -/
def create (cwd : Slot) (path : List UInt8) (type major minor : UInt16) : M (Option Slot) := do
  match ← nameiparent sb cwd path with
  | none => return none
  | some (dp, name) => do
      ilock sb dp
      match ← dirlookup sb dp name with
      | some (ip, _) => do
          iunlockput sb dp
          ilock sb ip
          let t := ((← get).inode ip).din.type
          if type = T_FILE ∧ (t = T_FILE ∨ t = T_DEVICE) then return some ip
          else do
            iunlockput sb ip
            return none
      | none => do
          match ← ialloc sb type with
          | none => do
              iunlockput sb dp
              return none
          | some ip => createNew sb dp ip name type major minor

/-- The `bad` exit of `sys_link`. -/
def linkBad (ip : Slot) : M ℤ := do
  ilock sb ip
  setDin ip fun d => { d with nlink := d.nlink - 1 }
  iupdate sb ip
  iunlockput sb ip
  return -1

/-- The part of `sys_link` that follows the change of the link count. -/
def linkNew (cwd ip : Slot) (new : List UInt8) : M ℤ := do
  match ← nameiparent sb cwd new with
  | none => linkBad sb ip
  | some (dp, name) => do
      ilock sb dp
      let r ← dirlink sb dp name ((← get).inode ip).inum
      if r < 0 then do
        iunlockput sb dp
        linkBad sb ip
      else do
        iunlockput sb dp
        iput sb ip
        return 0

/-- `sys_link`. -/
def sysLink (cwd : Slot) (old new : List UInt8) : M ℤ := do
  match ← namei sb cwd old with
  | none => return -1
  | some ip => do
      ilock sb ip
      if ((← get).inode ip).din.type = T_DIR then do
        iunlockput sb ip
        return -1
      else do
        setDin ip fun d => { d with nlink := d.nlink + 1 }
        iupdate sb ip
        iunlock ip
        linkNew sb cwd ip new

/-- The `bad` exit of `sys_unlink`. -/
def unlinkBad (dp : Slot) : M ℤ := do
  iunlockput sb dp
  return -1

/-- `ip->nlink < 1`, for the signed `nlink`. -/
def Dinode.nlinkLtOne (d : Dinode) : Bool := d.nlink = 0 ∨ 2 ^ 15 ≤ d.nlink.toNat

/-- The last part of `sys_unlink`: the entry at `off` of `dp`, which names `ip`, is removed. -/
def unlinkEntry (dp ip : Slot) (off : ℕ) : M ℤ := do
  let r ← writei sb dp (.kernel (List.replicate DIRENT 0)) off DIRENT
  if r ≠ DIRENT then throw .unlinkWritei
  else do
    if ((← get).inode ip).din.type = T_DIR then do
      setDin dp fun d => { d with nlink := d.nlink - 1 }
      iupdate sb dp
    iunlockput sb dp
    setDin ip fun d => { d with nlink := d.nlink - 1 }
    iupdate sb ip
    iunlockput sb ip
    return 0

/-- The part of `sys_unlink` that follows `dirlookup`. -/
def unlinkFound (dp ip : Slot) (off : ℕ) : M ℤ := do
  ilock sb ip
  let din := ((← get).inode ip).din
  if din.nlinkLtOne then throw .unlinkNlink
  else if din.type = T_DIR then do
    let empty ← isdirempty sb ip
    if empty then unlinkEntry sb dp ip off
    else do
      iunlockput sb ip
      unlinkBad sb dp
  else unlinkEntry sb dp ip off

/-- `sys_unlink`. -/
def sysUnlink (cwd : Slot) (path : List UInt8) : M ℤ := do
  match ← nameiparent sb cwd path with
  | none => return -1
  | some (dp, name) => do
      ilock sb dp
      if namecmp name (dirName ".") = 0 ∨ namecmp name (dirName "..") = 0 then unlinkBad sb dp
      else do
        match ← dirlookup sb dp name with
        | none => unlinkBad sb dp
        | some (ip, off) => unlinkFound sb dp ip off

end

end Xv6.Fs
