import Xv6.Itable.Ops

/-!
# The system calls on inodes and open files

The functions of `kernel/fs.c`, `kernel/file.c`, `kernel/pipe.c`, `kernel/sysfile.c`, `kernel/exec.c` and
`kernel/proc.c` that take and drop references to inodes and open files, as programs over the atomic
operations of `Xv6.Itable.Ops`, and the machine of all processes that interleaves them.

A call gets the record of its process as it is when the call starts: only the process itself changes
it. Values returned to the user are left out, except where another function reads them.
-/

namespace Xv6.Itable

open Fs Lib

/-- Programs over the atomic operations. -/
abbrev Program := Prog Op.Res

/-- A single operation. -/
abbrev perform (o : Op) : Program o.Res := Prog.perform o

/-- `panic`. -/
def panic {α : Type} (e : Panic) : Program α := do
  let never ← perform (.panic e)
  nomatch never

/-! ## `kernel/fs.c` -/

/-- `iput`. -/
def iput (k : Slot) : Program Unit := do
  if ← perform (.iputFirst k) then do
    perform (.iputFree k)
    perform (.iputLast k)
  else pure ()

/-- `iunlockput`. -/
def iunlockput (k : Slot) : Program Unit := do
  perform (.iunlock k)
  iput k

/-- `ialloc`. -/
def ialloc (dev : ℕ) (type : UInt16) : Program (Option Slot) := do
  match ← perform (.ifind dev type) with
  | none => return none
  | some inum => do
      let k ← perform (.iget dev inum)
      return some k

/-- `dirlookup`. -/
def dirlookup (dp : Slot) (name : List UInt8) : Program (Option Slot) := do
  let d ← perform (.inode dp)
  if d.type ≠ T_DIR then panic .notDir
  else do
    match ← perform (.lookup dp name) with
    | none => return none
    | some inum => do
        let k ← perform (.iget d.dev inum)
        return some k

/-- `dirlink`: whether it succeeds. -/
def dirlink (dp : Slot) (name : List UInt8) : Program Bool := do
  match ← dirlookup dp name with
  | some ip => do
      iput ip
      return false
  | none => perform .succeeds

/-- The loop of `namex`; each turn takes at least one byte of the path. -/
def namexLoop (parent : Bool) : ℕ → Slot → List UInt8 → Program (Option (Slot × List UInt8))
  | n + 1, ip, path =>
    match skipelem path with
    | some (name, path) => do
        perform (.ilock ip)
        let d ← perform (.inode ip)
        if d.type ≠ T_DIR then do
          iunlockput ip
          return none
        else if parent ∧ path = [] then do
          perform (.iunlock ip)
          return some (ip, name)
        else do
          match ← dirlookup ip name with
          | none => do
              iunlockput ip
              return none
          | some next => do
              iunlockput ip
              namexLoop parent n next path
    | none =>
      if parent then do
        iput ip
        return none
      else pure (some (ip, []))
  | 0, ip, _ => pure (some (ip, []))

/-- `namex` of a process with current directory `cwd`. -/
def namex (cwd : Slot) (path : List UInt8) (parent : Bool) :
    Program (Option (Slot × List UInt8)) :=
  if path.head? = some slash then do
    let ip ← perform (.iget ROOTDEV ROOTINO)
    namexLoop parent (path.length + 1) ip path
  else do
    perform (.idup cwd)
    namexLoop parent (path.length + 1) cwd path

/-- `namei`. -/
def namei (cwd : Slot) (path : List UInt8) : Program (Option Slot) := do
  return (← namex cwd path false).map Prod.fst

/-- `nameiparent`. -/
def nameiparent (cwd : Slot) (path : List UInt8) : Program (Option (Slot × List UInt8)) :=
  namex cwd path true

/-! ## `kernel/file.c` and `kernel/pipe.c` -/

/-- `pipeclose`. -/
def pipeclose (pi : ℕ) (writable : Bool) : Program Unit := do
  if ← perform (.pipeclose pi writable) then perform (.kfree pi) else pure ()

/-- The part of `fileclose` that follows the critical section, for the copy `ff` of the file. -/
def closeCopy (ff : File) : Program Unit :=
  match ff.type with
  | .pipe => pipeclose ff.pipe ff.writable
  | .inode | .device => do
      perform .beginOp
      iput ff.ip
      perform .endOp
  | .none => pure ()

/-- `fileclose`. -/
def fileclose (site : Site) (f : FileSlot) : Program Unit := do
  match ← perform (.unref site f) with
  | none => pure ()
  | some ff => closeCopy ff

/-- `pipealloc`. -/
def pipealloc : Program (Option (FileSlot × FileSlot)) := do
  match ← perform .filealloc with
  | none => return none
  | some f0 => do
      match ← perform .filealloc with
      | none => do
          fileclose .fail f0
          return none
      | some f1 => do
          match ← perform .pipe with
          | none => do
              fileclose .fail f0
              fileclose .fail f1
              return none
          | some pi => do
              perform (.setPipe f0 pi false)
              perform (.setPipe f1 pi true)
              return some (f0, f1)

/-! ## `kernel/sysfile.c` -/

/-- `fdalloc`: the first free descriptor of `ofile`. -/
def sysFdalloc (ofile : Ofile) (f : FileSlot) : Program (Option (Fin NOFILE)) :=
  match fdalloc ofile with
  | none => return none
  | some fd => do
      perform (.setOfile fd (some f))
      return some fd

/-- `sys_dup`. -/
def sysDup (x : Proc) (n : ℤ) : Program Unit :=
  match argfd x.ofile n with
  | none => pure ()
  | some (_, f) => do
      match ← sysFdalloc x.ofile f with
      | none => pure ()
      | some _ => perform (.filedup f)

/-- `sys_close`. -/
def sysClose (x : Proc) (n : ℤ) : Program Unit :=
  match argfd x.ofile n with
  | none => pure ()
  | some (fd, f) => do
      perform (.setOfile fd none)
      fileclose .close f

/-- The `bad` exit of `sys_link`. -/
def linkBad (ip : Slot) : Program Unit := do
  perform (.ilock ip)
  let d ← perform (.inode ip)
  perform (.setNlink ip (d.nlink - 1))
  iunlockput ip
  perform .endOp

/-- The part of `sys_link` that follows the change of the link count. -/
def linkNew (cwd ip : Slot) (new : List UInt8) : Program Unit := do
  match ← nameiparent cwd new with
  | none => linkBad ip
  | some (dp, name) => do
      perform (.ilock dp)
      let d ← perform (.inode dp)
      let e ← perform (.inode ip)
      let linked ← if d.dev ≠ e.dev then pure false else dirlink dp name
      if linked then do
        iunlockput dp
        iput ip
        perform .endOp
      else do
        iunlockput dp
        linkBad ip

/-- `sys_link`. -/
def sysLink (cwd : Slot) (old new : List UInt8) : Program Unit := do
  perform .beginOp
  match ← namei cwd old with
  | none => perform .endOp
  | some ip => do
      perform (.ilock ip)
      let d ← perform (.inode ip)
      if d.type = T_DIR then do
        iunlockput ip
        perform .endOp
      else do
        perform (.setNlink ip (d.nlink + 1))
        perform (.iunlock ip)
        linkNew cwd ip new

/-- The `bad` exit of `sys_unlink`. -/
def unlinkBad (dp : Slot) : Program Unit := do
  iunlockput dp
  perform .endOp

/-- The last part of `sys_unlink`: the entry for `ip` of the given type is removed from `dp`. -/
def unlinkEntry (dp ip : Slot) (type : UInt16) : Program Unit := do
  if ← perform .succeeds then do
    if type = T_DIR then do
      let d ← perform (.inode dp)
      perform (.setNlink dp (d.nlink - 1))
    iunlockput dp
    let d ← perform (.inode ip)
    perform (.setNlink ip (d.nlink - 1))
    iunlockput ip
    perform .endOp
  else panic .unlinkWritei

/-- The part of `sys_unlink` that follows `dirlookup`. -/
def unlinkFound (dp ip : Slot) : Program Unit := do
  perform (.ilock ip)
  let d ← perform (.inode ip)
  if d.nlink = 0 ∨ 2 ^ 15 ≤ d.nlink.toNat then panic .unlinkNlink
  else if d.type = T_DIR then do
    -- isdirempty
    if ← perform .succeeds then unlinkEntry dp ip d.type
    else do
      iunlockput ip
      unlinkBad dp
  else unlinkEntry dp ip d.type

/-- `sys_unlink`. -/
def sysUnlink (cwd : Slot) (path : List UInt8) : Program Unit := do
  perform .beginOp
  match ← nameiparent cwd path with
  | none => perform .endOp
  | some (dp, name) => do
      perform (.ilock dp)
      if namecmp name (dirName ".") = 0 ∨ namecmp name (dirName "..") = 0 then unlinkBad dp
      else do
        match ← dirlookup dp name with
        | none => unlinkBad dp
        | some ip => unlinkFound dp ip

/-- The `fail` exit of `create`. -/
def createFail (dp ip : Slot) : Program (Option Slot) := do
  perform (.setNlink ip 0)
  iunlockput ip
  iunlockput dp
  return none

/-- The last part of `create`, which enters the new inode in its parent. -/
def createLink (dp ip : Slot) (name : List UInt8) (type : UInt16) : Program (Option Slot) := do
  if ← dirlink dp name then do
    if type = T_DIR then do
      let d ← perform (.inode dp)
      perform (.setNlink dp (d.nlink + 1))
    iunlockput dp
    return some ip
  else createFail dp ip

/-- The part of `create` that follows `ialloc`. -/
def createNew (dp ip : Slot) (name : List UInt8) (type major : UInt16) :
    Program (Option Slot) := do
  perform (.ilock ip)
  perform (.setNew ip major)
  if type = T_DIR then do
    if ← dirlink ip (dirName ".") then do
      if ← dirlink ip (dirName "..") then createLink dp ip name type else createFail dp ip
    else createFail dp ip
  else createLink dp ip name type

/-- `create`: the locked inode. -/
def create (cwd : Slot) (path : List UInt8) (type major : UInt16) : Program (Option Slot) := do
  match ← nameiparent cwd path with
  | none => return none
  | some (dp, name) => do
      perform (.ilock dp)
      match ← dirlookup dp name with
      | some ip => do
          iunlockput dp
          perform (.ilock ip)
          let d ← perform (.inode ip)
          if type = T_FILE ∧ (d.type = T_FILE ∨ d.type = T_DEVICE) then return some ip
          else do
            iunlockput ip
            return none
      | none => do
          let d ← perform (.inode dp)
          match ← ialloc d.dev type with
          | none => do
              iunlockput dp
              return none
          | some ip => createNew dp ip name type major

/-- The part of `sys_open` that finds or creates the inode; it is locked. -/
def openInode (cwd : Slot) (path : List UInt8) (omode : ℕ) : Program (Option Slot) := do
  if omode.testBit O_CREATE then create cwd path T_FILE 0
  else do
    match ← namei cwd path with
    | none => return none
    | some ip => do
        perform (.ilock ip)
        let d ← perform (.inode ip)
        if d.type = T_DIR ∧ omode ≠ 0 then do
          iunlockput ip
          return none
        else return some ip

/-- The exits of `sys_open` with a locked inode. -/
def openFail (ip : Slot) : Program Unit := do
  iunlockput ip
  perform .endOp

/-- The part of `sys_open` that opens the locked inode. -/
def openFile (x : Proc) (ip : Slot) (omode : ℕ) : Program Unit := do
  let d ← perform (.inode ip)
  if d.type = T_DEVICE ∧ NDEV ≤ d.major.toNat then openFail ip
  else do
    match ← perform .filealloc with
    | none => openFail ip
    | some f => do
        match ← sysFdalloc x.ofile f with
        | none => do
            fileclose .fail f
            openFail ip
        | some _ => do
            perform (.setInode f ip (d.type = T_DEVICE) d.major (!omode.testBit O_WRONLY)
              (omode.testBit O_WRONLY || omode.testBit O_RDWR))
            perform (.iunlock ip)
            perform .endOp

/-- `sys_open`. -/
def sysOpen (x : Proc) (cwd : Slot) (path : List UInt8) (omode : ℕ) : Program Unit := do
  match argstr path with
  | none => pure ()
  | some path => do
      perform .beginOp
      match ← openInode cwd path omode with
      | none => perform .endOp
      | some ip => openFile x ip omode

/-- `sys_mkdir` and `sys_mknod`: `create` and drop the inode again. -/
def sysCreate (cwd : Slot) (path : List UInt8) (type major : UInt16) : Program Unit := do
  perform .beginOp
  match argstr path with
  | none => perform .endOp
  | some path => do
      match ← create cwd path type major with
      | none => perform .endOp
      | some ip => do
          iunlockput ip
          perform .endOp

/-- `sys_chdir`. -/
def sysChdir (cwd : Slot) (path : List UInt8) : Program Unit := do
  perform .beginOp
  match argstr path with
  | none => perform .endOp
  | some path => do
      match ← namei cwd path with
      | none => perform .endOp
      | some ip => do
          perform (.ilock ip)
          let d ← perform (.inode ip)
          if d.type ≠ T_DIR then do
            iunlockput ip
            perform .endOp
          else do
            perform (.iunlock ip)
            iput cwd
            perform .endOp
            perform (.setCwd (some ip))

/-- `sys_pipe`. -/
def sysPipe (x : Proc) : Program Unit := do
  match ← pipealloc with
  | none => pure ()
  | some (rf, wf) => do
      match ← sysFdalloc x.ofile rf with
      | none => do
          fileclose .close rf
          fileclose .close wf
      | some fd0 => do
          match ← sysFdalloc (assign x.ofile fd0 (some rf)) wf with
          | none => do
              perform (.setOfile fd0 none)
              fileclose .close rf
              fileclose .close wf
          | some fd1 => do
              -- the two copyouts
              if ← perform .succeeds then pure ()
              else do
                perform (.setOfile fd0 none)
                perform (.setOfile fd1 none)
                fileclose .close rf
                fileclose .close wf

/-- `piperead` and `pipewrite`, for a call that sleeps at most `turns` times and then returns. -/
def pipeTurns (pi : ℕ) (writable : Bool) : ℕ → Program Unit
  | 0 => do
      let _ ← perform (.pipeTurn pi writable)
  | turns + 1 => do
      if ← perform (.pipeTurn pi writable) then pure () else pipeTurns pi writable turns

/-- `fileread` and `filewrite`. For a file that is no pipe they take and drop nothing. -/
def fileTransfer (f : FileSlot) (writable : Bool) (turns : ℕ) : Program Unit := do
  let x ← perform (.file f)
  if (if writable then x.writable else x.readable) = true ∧ x.type = .pipe then
    pipeTurns x.pipe writable turns
  else pure ()

/-- `sys_read` and `sys_write`. -/
def sysTransfer (x : Proc) (n : ℤ) (writable : Bool) (turns : ℕ) : Program Unit :=
  match argfd x.ofile n with
  | none => pure ()
  | some (_, f) => fileTransfer f writable turns

/-! ## `kernel/exec.c` -/

/-- The loop of `exec` over the program headers: whether each is read, well formed and loaded. -/
def execLoad : ℕ → Program Bool
  | 0 => return true
  | n + 1 => do
      if ← perform .succeeds then execLoad n else return false

/-- `exec` of a file with `phnum` program headers. -/
def sysExec (cwd : Slot) (path : List UInt8) (phnum : ℕ) : Program Unit := do
  match argstr path with
  | none => pure ()
  | some path => do
      -- the arguments are fetched
      if ← perform .succeeds then do
        perform .beginOp
        match ← namei cwd path with
        | none => perform .endOp
        | some ip => do
            perform (.ilock ip)
            -- the ELF header is read and proc_pagetable succeeds
            if ← perform .succeeds then do
              -- on success, and at bad
              let _ ← execLoad phnum
              iunlockput ip
              perform .endOp
            else do
              iunlockput ip
              perform .endOp
      else pure ()

/-! ## `kernel/proc.c` -/

/-- The loop of `fork` over the descriptors. -/
def forkFiles (x : Proc) (np : ProcSlot) : List (Fin NOFILE) → Program Unit
  | [] => pure ()
  | fd :: fds => do
      match x.ofile fd with
      | some f => do
          perform (.filedup f)
          perform (.childOfile np fd f)
          forkFiles x np fds
      | none => forkFiles x np fds

/-- `fork`. -/
def fork (x : Proc) (cwd : Slot) : Program Unit := do
  match ← perform .allocproc with
  | none => pure ()
  | some np => do
      -- uvmcopy
      if ← perform .succeeds then do
        forkFiles x np (List.finRange NOFILE)
        perform (.idup cwd)
        perform (.childCwd np cwd)
        perform (.runnable np)
      else perform (.freeproc np)

/-- The loop of `exit` over the descriptors. -/
def exitFiles (x : Proc) : List (Fin NOFILE) → Program Unit
  | [] => pure ()
  | fd :: fds => do
      match x.ofile fd with
      | some f => do
          fileclose .close f
          perform (.setOfile fd none)
          exitFiles x fds
      | none => exitFiles x fds

/-- The process that `userinit` sets up. -/
abbrev initproc : ProcSlot := 0

/-- `exit`. -/
def exit (p : ProcSlot) (x : Proc) (cwd : Slot) : Program Unit :=
  if p = initproc then panic .initExiting
  else do
    exitFiles x (List.finRange NOFILE)
    perform .beginOp
    iput cwd
    perform .endOp
    perform (.setCwd none)
    perform .zombie

/-- `wait`: it returns at once, or when it has found a zombie. -/
def wait : Program Unit := do
  if ← perform .succeeds then perform .reap else pure ()

/-! ## The machine -/

/-- System calls. -/
inductive Call where
  | open (path : List UInt8) (omode : ℕ)
  | dup (fd : ℤ)
  | close (fd : ℤ)
  /-- in `piperead` it sleeps at most `turns` times -/
  | read (fd : ℤ) (turns : ℕ)
  /-- in `pipewrite` it sleeps at most `turns` times -/
  | write (fd : ℤ) (turns : ℕ)
  | pipe
  | mkdir (path : List UInt8)
  | mknod (path : List UInt8) (major : UInt16)
  | link (old new : List UInt8)
  | unlink (path : List UInt8)
  | chdir (path : List UInt8)
  | exec (path : List UInt8) (phnum : ℕ)
  | fork
  | exit
  | wait

/-- The program of a call of process `p`, whose record is `x` and whose current directory is `cwd`. -/
def syscall (p : ProcSlot) (x : Proc) (cwd : Slot) : Call → Program Unit
  | .open path omode => sysOpen x cwd path omode
  | .dup fd => sysDup x fd
  | .close fd => sysClose x fd
  | .read fd turns => sysTransfer x fd false turns
  | .write fd turns => sysTransfer x fd true turns
  | .pipe => sysPipe x
  | .mkdir path => sysCreate cwd path T_DIR 0
  | .mknod path major => sysCreate cwd path T_DEVICE major
  | .link old new =>
    match argstr old, argstr new with
    | some old, some new => sysLink cwd old new
    | _, _ => pure ()
  | .unlink path =>
    match argstr path with
    | some path => sysUnlink cwd path
    | none => pure ()
  | .chdir path => sysChdir cwd path
  | .exec path phnum => sysExec cwd path phnum
  | .fork => fork x cwd
  | .exit => exit p x cwd
  | .wait => wait

/-- A live process can make any call. -/
def entry (s : Shared) (p : ProcSlot) (c : Call) : Option (Program Unit) :=
  if (s.proc p).state = .live then (s.proc p).cwd.map fun cwd => syscall p (s.proc p) cwd c
  else none

/-- After `userinit`: nothing is open, and the first process has the root directory. -/
def Shared.initial : Shared where
  inode k :=
    if k = 0 then
      { dev := ROOTDEV, inum := ROOTINO, ref := 1, locked := false, valid := false, type := 0,
        nlink := 0, major := 0 }
    else
      { dev := 0, inum := 0, ref := 0, locked := false, valid := false, type := 0, nlink := 0,
        major := 0 }
  file _ :=
    { type := .none, ref := 0, readable := false, writable := false, pipe := 0, ip := 0, off := 0,
      major := 0 }
  proc p :=
    if p = initproc then { state := .live, ofile := fun _ => none, cwd := some 0 }
    else { state := .unused, ofile := fun _ => none, cwd := none }
  pipe _ := none
  inOp _ := false

/-- The processes and their system calls. -/
def threads : Threads Op.Res ProcSlot Shared Call Choice Panic where
  init s := s = Shared.initial
  entry := entry
  exec := exec

/-- Every interleaving of the system calls of all processes. -/
def machine : Machine (Threads.State Op.Res ProcSlot Shared) (Threads.Act ProcSlot Call Choice) :=
  threads.machine

end Xv6.Itable
