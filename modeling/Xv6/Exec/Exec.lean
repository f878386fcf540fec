import Xv6.CString
import Xv6.Fs.Dir
import Xv6.Vm.Fork

/-!
# `exec`

Model of `kernel/exec.c`: `exec` of a process, with the file system it reads the program from and the
physical memory it loads it to. The header and the program headers are taken apart from the bytes that
`readi` delivers, whatever they are, and every `goto bad` of the source is one here.
-/

namespace Xv6.Exec

open Lib Vm

/-- `MAXARG` -/
abbrev MAXARG : ℕ := 32

/-- `ELF_MAGIC` -/
abbrev ELF_MAGIC : ℕ := 0x464C457F

/-- `ELF_PROG_LOAD` -/
abbrev ELF_PROG_LOAD : ℕ := 1

/-- `sizeof(struct elfhdr)` -/
abbrev ELFHDR : ℕ := 64

/-- `sizeof(struct proghdr)` -/
abbrev PROGHDR : ℕ := 56

/-- The file system, physical memory, the process that calls `exec`, and how often `begin_op` and `end_op`
have been called. -/
structure World where
  fs : Fs.State
  ram : Ram
  proc : Vm.Proc
  name : List UInt8
  cwd : Fs.Slot
  begins : ℕ
  ends : ℕ

/-- What stops the kernel: a panic of the file system or of the virtual memory code, or `ustack[MAXARG]`
being written, which is not an element of the array. -/
inductive Stop where
  | fs (e : Fs.Err)
  | vm (e : Panic)
  | ustack

/-- Computations of `exec`. -/
abbrev X (α : Type) := StateT World (Except Stop) α

/-- A computation of the file system. -/
def onFs {α : Type} (x : Fs.M α) : X α := fun w =>
  match x.run w.fs with
  | .ok (a, s) => .ok (a, { w with fs := s })
  | .error e => .error (.fs e)

/-- A computation on physical memory. -/
def onRam {α : Type} (x : VM α) : X α := fun w =>
  match x.run w.ram with
  | .ok (a, s) => .ok (a, { w with ram := s })
  | .error e => .error (.vm e)

/-- `begin_op` -/
def beginOp : X Unit := modify fun w => { w with begins := w.begins + 1 }

/-- `end_op` -/
def endOp : X Unit := modify fun w => { w with ends := w.ends + 1 }

/-- The number in the `n` bytes from offset `off` on. -/
def number (bs : List UInt8) (off n : ℕ) : ℕ :=
  ((bs.drop off).take n).foldr (fun b m => m * 256 + b.toNat) 0

/-- `flags2perm` -/
def flags2perm (flags : ℕ) : Perm := ⟨false, flags.testBit 1, flags.testBit 0, false, 0⟩

section

variable (K : Image) (sb : Fs.Superblock)

/-- `readi(ip, 0, dst, off, n)`: the result, and the bytes that have been read. -/
def readKernel (ip : Fs.Slot) (off n : ℕ) : Fs.M (ℤ × List UInt8) := do
  match ← Fs.readi sb ip (.kernel []) off n with
  | (tot, .kernel bs) => return (tot, bs)
  | (tot, .user _ _) => return (tot, [])

/-- The loop of `loadseg`, from `i` on. -/
def loadsegLoop (pagetable va : ℕ) (ip : Fs.Slot) (offset sz : ℕ) : ℕ → ℕ → X Bool
  | 0, _ => return true
  | f + 1, i => do
      if i < sz then do
        match ← onRam (walkaddr pagetable ((va + i) % 2 ^ 64)) with
        | none => throw (.vm .loadseg)
        | some pa => do
            let n := if sz - i < PGSIZE then sz - i else PGSIZE
            let r ← onFs (readKernel sb ip ((offset + i) % 2 ^ 32) n)
            onRam (do fill pa (memmove ((← get).word pa) 0 r.2))
            if r.1 = n then loadsegLoop pagetable va ip offset sz f (i + PGSIZE)
            else return false
      else return true

/-- `loadseg`: whether it succeeds. -/
def loadseg (pagetable va : ℕ) (ip : Fs.Slot) (offset sz : ℕ) : X Bool :=
  loadsegLoop sb pagetable va ip offset sz (sz / PGSIZE + 1) 0

/-- The loop over the program headers, `n` of them from `off` on: whether all are loaded, and the size that
has been reached. -/
def segments (pagetable : ℕ) (ip : Fs.Slot) : ℕ → ℕ → ℕ → X (Bool × ℕ)
  | 0, _, sz => return (true, sz)
  | n + 1, off, sz => do
      let ph ← onFs (readKernel sb ip off PROGHDR)
      if ph.1 ≠ PROGHDR then return (false, sz)
      else if number ph.2 0 4 ≠ ELF_PROG_LOAD then
        segments pagetable ip n ((off + PROGHDR) % 2 ^ 32) sz
      else
        let flags := number ph.2 4 4
        let offset := number ph.2 8 8
        let vaddr := number ph.2 16 8
        let filesz := number ph.2 32 8
        let memsz := number ph.2 40 8
        if memsz < filesz then return (false, sz)
        else if (vaddr + memsz) % 2 ^ 64 < vaddr then return (false, sz)
        else if vaddr % PGSIZE ≠ 0 then return (false, sz)
        else do
          let sz1 ← onRam
            (uvmalloc K pagetable sz ((vaddr + memsz) % 2 ^ 64) (flags2perm flags))
          if sz1 = 0 then return (false, sz)
          else do
            if ← loadseg sb pagetable vaddr ip (offset % 2 ^ 32) (filesz % 2 ^ 32) then
              segments pagetable ip n ((off + PROGHDR) % 2 ^ 32) sz1
            else return (false, sz1)

/-- `sp -= n; sp -= sp % 16;` -/
def push (sp n : ℕ) : ℕ :=
  let sp := (sp + 2 ^ 64 - n) % 2 ^ 64
  sp - sp % 16

/-- The loop that pushes the arguments: the stack pointer and `ustack`, if it succeeds. -/
def pushArgs (pagetable stackbase : ℕ) : List (List UInt8) → ℕ → List ℕ → X (Option (ℕ × List ℕ))
  | [], sp, ustack => return some (sp, ustack)
  | arg :: argv, sp, ustack => do
      if MAXARG ≤ ustack.length then return none
      else
        let sp := push sp (arg.length + 1)
        if sp < stackbase then return none
        else do
          if ← onRam (copyout pagetable sp (arg ++ [0])) then
            pushArgs pagetable stackbase argv sp (ustack ++ [sp])
          else return none

/-- The eight bytes of a `uint64`. -/
def bytes64 (n : ℕ) : List UInt8 := (List.range 8).map fun t => UInt8.ofNat (n / 2 ^ (8 * t))

/-- `last`: the path after its last slash. -/
def lastElem (path : List UInt8) : List UInt8 :=
  (path.reverse.takeWhile (· ≠ Fs.slash)).reverse

/-- The words of the trapframe that `exec` writes. -/
abbrev EPC : Idx := 3

/-- See `EPC`. -/
abbrev SP : Idx := 6

/-- See `EPC`. -/
abbrev A1 : Idx := 15

/-- The process gets the new image. -/
def commit (path : List UInt8) (pagetable sz sp entry : ℕ) : X Unit := do
  let p := (← get).proc
  onRam (store p.trapframe A1 (.ofWord sp))
  modify fun w => { w with
    name := safestrcpy w.name (lastElem path ++ [0]) 16
    proc := { p with pagetable := pagetable, sz := sz } }
  onRam (store p.trapframe EPC (.ofWord entry))
  onRam (store p.trapframe SP (.ofWord sp))
  onRam (procFreepagetable K p.pagetable p.sz)

/-- The page below the user stack, for a memory of size `sz`. -/
@[irreducible] def guardPage (sz : ℕ) : ℕ := sz - 2 * PGSIZE

/-- `stackbase` -/
@[irreducible] def stackbase (sz : ℕ) : ℕ := sz - PGSIZE

/-- The part of `exec` after the stack has been allocated. -/
def execArgs (path : List UInt8) (argv : List (List UInt8)) (pagetable sz entry : ℕ) : X ℤ := do
  onRam (uvmclear pagetable (guardPage sz))
  match ← pushArgs pagetable (stackbase sz) argv sz [] with
  | none => do
      onRam (procFreepagetable K pagetable sz)
      return -1
  | some (sp, ustack) => do
      if MAXARG ≤ ustack.length then throw .ustack
      else do
        let sp := push sp ((ustack.length + 1) * 8)
        if sp < stackbase sz then do
          onRam (procFreepagetable K pagetable sz)
          return -1
        else do
          if ← onRam (copyout pagetable sp ((ustack ++ [0]).flatMap bytes64)) then do
            commit K path pagetable sz sp entry
            return ustack.length
          else do
            onRam (procFreepagetable K pagetable sz)
            return -1

/-- The part of `exec` after the program has been loaded. -/
def execStack (path : List UInt8) (argv : List (List UInt8)) (pagetable sz entry : ℕ) : X ℤ := do
  let sz := PGROUNDUP sz
  let sz1 ← onRam (uvmalloc K pagetable sz (sz + 2 * PGSIZE) ⟨false, true, false, false, 0⟩)
  if sz1 = 0 then do
    onRam (procFreepagetable K pagetable sz)
    return -1
  else execArgs K path argv pagetable sz1 entry

/-- `exec(path, argv)`. -/
def exec (path : List UInt8) (argv : List (List UInt8)) : X ℤ := do
  beginOp
  match ← onFs (Fs.namei sb (← get).cwd path) with
  | none => do
      endOp
      return -1
  | some ip => do
      onFs (Fs.ilock sb ip)
      let elf ← onFs (readKernel sb ip 0 ELFHDR)
      if elf.1 ≠ ELFHDR ∨ number elf.2 0 4 ≠ ELF_MAGIC then do
        onFs (Fs.iunlockput sb ip)
        endOp
        return -1
      else do
        match ← onRam (procPagetable K (← get).proc.trapframe) with
        | none => do
            onFs (Fs.iunlockput sb ip)
            endOp
            return -1
        | some pagetable => do
            let phoff := number elf.2 32 8
            let phnum := number elf.2 56 2
            let r ← segments K sb pagetable ip phnum (phoff % 2 ^ 32) 0
            if r.1 then do
              onFs (Fs.iunlockput sb ip)
              endOp
              execStack K path argv pagetable r.2 (number elf.2 24 8)
            else do
              onRam (procFreepagetable K pagetable r.2)
              onFs (Fs.iunlockput sb ip)
              endOp
              return -1

end

end Xv6.Exec
