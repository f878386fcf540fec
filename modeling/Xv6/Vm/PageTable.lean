import Xv6.Vm.Kalloc

/-!
# Page tables

Model of `kernel/vm.c`: `walk`, `mappages`, `uvmunmap`, `freewalk` and the functions on a process's memory
that are built from them, with `proc_pagetable` and `proc_freepagetable` of `kernel/proc.c`. A page table is
the number of its root page; an entry is a page and an index into it. Physical addresses are page numbers.
-/

namespace Xv6.Vm

/-- `PGROUNDUP`, for `uint64` sizes. -/
def PGROUNDUP (sz : ℕ) : ℕ := (sz + PGSIZE - 1) % 2 ^ 64 / PGSIZE * PGSIZE

/-- `PX(level, va)` -/
def PX (level va : ℕ) : Idx := Fin.ofNat 512 (va / 2 ^ (12 + 9 * level))

/-- The highest page of the address space. -/
abbrev TRAMPOLINE : ℕ := MAXVA - PGSIZE

/-- The page below. -/
abbrev TRAPFRAME : ℕ := TRAMPOLINE - PGSIZE

/-- `PA2PTE(pagetable) | PTE_V` -/
def Pte.ptr (q : ℕ) : Pte := ⟨q, true, ⟨false, false, false, false, 0⟩⟩

/-- The loop of `walk`, from `level` down. -/
def walkLoop (va : ℕ) (alloc : Bool) : ℕ → ℕ → VM (Option (ℕ × Idx))
  | 0, pagetable => return some (pagetable, PX 0 va)
  | level + 1, pagetable => do
      let pte := (← get).word pagetable (PX (level + 1) va)
      if pte.v then walkLoop va alloc level pte.ppn
      else if alloc then do
        match ← kalloc with
        | none => return none
        | some q => do
            zeroPage q
            store pagetable (PX (level + 1) va) (.ptr q)
            walkLoop va alloc level q
      else return none

/-- `walk`: where the entry for `va` is. -/
def walk (pagetable va : ℕ) (alloc : Bool) : VM (Option (ℕ × Idx)) :=
  if MAXVA ≤ va then throw .walk else walkLoop va alloc 2 pagetable

/-- `walkaddr`: the page of a user address. -/
def walkaddr (pagetable va : ℕ) : VM (Option ℕ) := do
  if MAXVA ≤ va then return none
  else do
    match ← walk pagetable va false with
    | none => return none
    | some (q, i) => do
        let pte := (← get).word q i
        if pte.v = false ∨ pte.perm.u = false then return none else return some pte.ppn

/-- The loop of `mappages`: address `a`, and `n` pages after it. -/
def mappagesLoop (pagetable : ℕ) (perm : Perm) : ℕ → ℕ → ℕ → VM Bool
  | n, a, ppn => do
      match ← walk pagetable a true with
      | none => return false
      | some (q, i) => do
          if ((← get).word q i).v then throw .remap
          else do
            store q i ⟨ppn, true, perm⟩
            match n with
            | 0 => return true
            | n + 1 => mappagesLoop pagetable perm n (a + PGSIZE) (ppn + 1)

/-- `mappages`: whether it succeeds. -/
def mappages (pagetable va size ppn : ℕ) (perm : Perm) : VM Bool :=
  if size = 0 then throw .mapSize
  else
    let a := va / PGSIZE
    let last := (va + size - 1) / PGSIZE
    mappagesLoop pagetable perm (last - a) (a * PGSIZE) ppn

section

variable (K : Image)

/-- The loop of `uvmunmap`: `n` pages from `a` on. -/
def uvmunmapLoop (pagetable : ℕ) (doFree : Bool) : ℕ → ℕ → VM Unit
  | 0, _ => pure ()
  | n + 1, a => do
      match ← walk pagetable a false with
      | none => throw .unmapWalk
      | some (q, i) => do
          let pte := (← get).word q i
          if pte.v = false then throw .unmapNotMapped
          else if pte.perm = ⟨false, false, false, false, 0⟩ then throw .unmapNotLeaf
          else do
            if doFree then kfree K pte.ppn
            store q i (.ofWord 0)
            uvmunmapLoop pagetable doFree n (a + PGSIZE)

/-- `uvmunmap`. -/
def uvmunmap (pagetable va npages : ℕ) (doFree : Bool) : VM Unit :=
  if va % PGSIZE ≠ 0 then throw .unmapAlign else uvmunmapLoop K pagetable doFree npages va

/-- `uvmcreate`. -/
def uvmcreate : VM (Option ℕ) := do
  match ← kalloc with
  | none => return none
  | some q => do
      zeroPage q
      return some q

/-- `uvmdealloc`. -/
def uvmdealloc (pagetable oldsz newsz : ℕ) : VM ℕ := do
  if oldsz ≤ newsz then return oldsz
  else do
    if PGROUNDUP newsz < PGROUNDUP oldsz then do
      let npages := (PGROUNDUP oldsz - PGROUNDUP newsz) / PGSIZE
      uvmunmap K pagetable (PGROUNDUP newsz) npages true
    return newsz

/-- The loop of `uvmalloc`: `n` pages from `a` on. -/
def uvmallocLoop (pagetable oldsz newsz : ℕ) (perm : Perm) : ℕ → ℕ → VM ℕ
  | 0, _ => return newsz
  | n + 1, a => do
      match ← kalloc with
      | none => do
          let _ ← uvmdealloc K pagetable a oldsz
          return 0
      | some q => do
          zeroPage q
          if ← mappages pagetable a PGSIZE q perm then
            uvmallocLoop pagetable oldsz newsz perm n (a + PGSIZE)
          else do
            kfree K q
            let _ ← uvmdealloc K pagetable a oldsz
            return 0

/-- `uvmalloc`: the new size, 0 on failure. The pages get `PTE_R|PTE_U|xperm`. -/
def uvmalloc (pagetable oldsz newsz : ℕ) (xperm : Perm) : VM ℕ :=
  if newsz < oldsz then return oldsz
  else
    let oldsz := PGROUNDUP oldsz
    uvmallocLoop K pagetable oldsz newsz { xperm with r := true, u := true }
      ((newsz + PGSIZE - 1 - oldsz) / PGSIZE) oldsz

/-- The loop of `freewalk`, where `free` is `freewalk` of a lower table. -/
def freewalkLoop (free : ℕ → VM Unit) (pagetable : ℕ) : List Idx → VM Unit
  | [] => pure ()
  | i :: is => do
      let pte := (← get).word pagetable i
      if pte.v ∧ (pte.perm.r || pte.perm.w || pte.perm.x) = false then do
        free pte.ppn
        store pagetable i (.ofWord 0)
        freewalkLoop free pagetable is
      else if pte.v then throw .freewalkLeaf
      else freewalkLoop free pagetable is

/-- The indices of a page table, in order. -/
@[irreducible] def indices : List Idx := List.finRange 512

theorem mem_indices (i : Idx) : i ∈ indices := by
  unfold indices
  exact List.mem_finRange i

/-- `freewalk` of a table of at most `n` levels. -/
def freewalk : ℕ → ℕ → VM Unit
  | 0, _ => throw .freewalkDeep
  | n + 1, pagetable => do
      freewalkLoop (freewalk n) pagetable indices
      kfree K pagetable

/-- `uvmfree`. -/
def uvmfree (pagetable sz : ℕ) : VM Unit := do
  if 0 < sz then uvmunmap K pagetable 0 (PGROUNDUP sz / PGSIZE) true
  freewalk K 3 pagetable

/-- The loop of `uvmcopy`: `n` pages from `i` on. -/
def uvmcopyLoop (old new : ℕ) : ℕ → ℕ → VM Bool
  | 0, _ => return true
  | n + 1, i => do
      match ← walk old i false with
      | none => throw .uvmcopyPte
      | some (q, j) => do
          let pte := (← get).word q j
          if pte.v = false then throw .uvmcopyPresent
          else do
            match ← kalloc with
            | none => do
                uvmunmap K new 0 (i / PGSIZE) true
                return false
            | some mem => do
                fill mem ((← get).word pte.ppn)
                if ← mappages new i PGSIZE mem pte.perm then uvmcopyLoop old new n (i + PGSIZE)
                else do
                  kfree K mem
                  uvmunmap K new 0 (i / PGSIZE) true
                  return false

/-- `uvmcopy`: whether it succeeds. -/
def uvmcopy (old new sz : ℕ) : VM Bool := uvmcopyLoop K old new ((sz + PGSIZE - 1) / PGSIZE) 0

/-- `uvmclear`. -/
def uvmclear (pagetable va : ℕ) : VM Unit := do
  match ← walk pagetable va false with
  | none => throw .uvmclear
  | some (q, i) => do
      let pte := (← get).word q i
      store q i { pte with perm := { pte.perm with u := false } }

/-- `proc_pagetable` for a process with this trapframe. -/
def procPagetable (trapframe : ℕ) : VM (Option ℕ) := do
  match ← uvmcreate with
  | none => return none
  | some pagetable => do
      if ← mappages pagetable TRAMPOLINE PGSIZE K.trampoline ⟨true, false, true, false, 0⟩ then
        if ← mappages pagetable TRAPFRAME PGSIZE trapframe ⟨true, true, false, false, 0⟩ then
          return some pagetable
        else do
          uvmunmap K pagetable TRAMPOLINE 1 false
          uvmfree K pagetable 0
          return none
      else do
        uvmfree K pagetable 0
        return none

/-- `proc_freepagetable`. -/
def procFreepagetable (pagetable sz : ℕ) : VM Unit := do
  uvmunmap K pagetable TRAMPOLINE 1 false
  uvmunmap K pagetable TRAPFRAME 1 false
  uvmfree K pagetable sz

end

/-! ## Bytes -/

/-- The word of an entry. -/
def Pte.toWord (c : Pte) : ℕ :=
  c.ppn * 2 ^ 10 + c.perm.rest * 2 ^ 5 + c.perm.u.toNat * 2 ^ 4 + c.perm.x.toNat * 2 ^ 3 +
    c.perm.w.toNat * 2 ^ 2 + c.perm.r.toNat * 2 + c.v.toNat

/-- Byte `j` of a page. -/
def pageByte (c : Idx → Pte) (j : ℕ) : UInt8 :=
  UInt8.ofNat ((c (Fin.ofNat 512 (j / 8))).toWord / 2 ^ (8 * (j % 8)))

/-- A page after `bs` has been moved to its bytes from `off` on. -/
def memmove (c : Idx → Pte) (off : ℕ) (bs : List UInt8) : Idx → Pte := fun i =>
  let byte (j : ℕ) : UInt8 :=
    if off ≤ j then bs.getD (j - off) (pageByte c j) else pageByte c j
  .ofWord ((List.range 8).foldr (fun t w => w * 256 + (byte (8 * i + t)).toNat) 0)

/-- The loop of `copyout`; every turn copies at least one byte. -/
def copyoutLoop (pagetable : ℕ) : ℕ → ℕ → List UInt8 → VM Bool
  | 0, _, _ => return true
  | f + 1, dstva, src => do
      if src = [] then return true
      else do
        let va0 := dstva / PGSIZE * PGSIZE
        match ← walkaddr pagetable va0 with
        | none => return false
        | some pa0 => do
            let n := min (PGSIZE - (dstva - va0)) src.length
            fill pa0 (memmove ((← get).word pa0) (dstva - va0) (src.take n))
            copyoutLoop pagetable f (va0 + PGSIZE) (src.drop n)

/-- `copyout(pagetable, dstva, src, len)`: whether it succeeds. -/
def copyout (pagetable dstva : ℕ) (src : List UInt8) : VM Bool :=
  copyoutLoop pagetable src.length dstva src

end Xv6.Vm
