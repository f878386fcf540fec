import Xv6.Param
import Xv6.Vm.Copyout
import Xv6.Vm.Space

/-!
# `fork` copies memory

Model of `allocproc`, `freeproc`, `growproc` and `fork` of `kernel/proc.c`, as far as they concern memory: the page
tables, the trapframes and the user pages of the processes. `Spaces` is the address-space invariant: every
process has the pages below its size, `TRAMPOLINE` and `TRAPFRAME` mapped and nothing else, and no page
has two owners.
-/

namespace Xv6.Vm

open Lib Finset List Function
open UserPage (pte)
open Multiset hiding mem_singleton_self

/-- The memory of a slot of the process table. `trapframe` and `pagetable` are page numbers, 0 for a null
pointer; `inUse` is `state != UNUSED`. -/
structure Proc where
  inUse : Bool
  trapframe : ℕ
  pagetable : ℕ
  sz : ℕ

/-- A free slot. -/
def Proc.unused : Proc := ⟨false, 0, 0, 0⟩

/-- Physical memory and the process table. -/
structure Kernel where
  ram : Ram
  proc : Fin NPROC → Proc

/-- Computations on them. -/
abbrev KM (α : Type) := StateT Kernel (Except Panic) α

/-- A computation on physical memory. -/
def onRam {α : Type} (x : VM α) : KM α := fun k => do
  let r ← x.run k.ram
  return (r.1, { k with ram := r.2 })

/-- Write a slot. -/
def setProc (i : Fin NPROC) (p : Proc) : KM Unit :=
  modify fun k => { k with proc := assign k.proc i p }

section

variable (K : Image)

/-- `freeproc`. -/
def freeproc (i : Fin NPROC) : KM Unit := do
  let p := (← get).proc i
  if p.trapframe ≠ 0 then onRam (kfree K p.trapframe)
  if p.pagetable ≠ 0 then onRam (procFreepagetable K p.pagetable p.sz)
  setProc i .unused

/-- `allocproc`: the slot, if there is one and memory for it. -/
def allocproc : KM (Option (Fin NPROC)) := do
  let k ← get
  match (List.finRange NPROC).find? fun i => !(k.proc i).inUse with
  | none => return none
  | some i => do
      match ← onRam kalloc with
      | none => do
          setProc i { k.proc i with inUse := true, trapframe := 0 }
          freeproc K i
          return none
      | some trapframe => do
          match ← onRam (procPagetable K trapframe) with
          | none => do
              setProc i { k.proc i with inUse := true, trapframe := trapframe, pagetable := 0 }
              freeproc K i
              return none
          | some pagetable => do
              setProc i
                { k.proc i with inUse := true, trapframe := trapframe, pagetable := pagetable }
              return some i

/-- `growproc` for process `p`: whether it succeeds. -/
def growproc (p : Fin NPROC) (n : ℤ) : KM Bool := do
  let proc := (← get).proc p
  let newsz := ((proc.sz + n) % 2 ^ 64).toNat
  if 0 < n then do
    let sz ← onRam (uvmalloc K proc.pagetable proc.sz newsz ⟨false, true, false, false, 0⟩)
    if sz = 0 then return false
    else do
      setProc p { proc with sz := sz }
      return true
  else if n < 0 then do
    let sz ← onRam (uvmdealloc K proc.pagetable proc.sz newsz)
    setProc p { proc with sz := sz }
    return true
  else do
    setProc p proc
    return true

/-- The words of `struct trapframe`. -/
abbrev TRAPFRAMEWORDS : ℕ := 36

/-- The word of `struct trapframe` that is `a0`. -/
abbrev A0 : Idx := 14

/-- A page after the trapframe `src` has been copied to it. -/
def copyTrapframe (src dst : Idx → Pte) : Idx → Pte := fun i =>
  if i.val < TRAPFRAMEWORDS then src i else dst i

/-- `fork` by `p`: the slot of the child. Its open files, its directory and its name are not memory. -/
def fork (p : Fin NPROC) : KM (Option (Fin NPROC)) := do
  match ← allocproc K with
  | none => return none
  | some np => do
      let k ← get
      if ← onRam (uvmcopy K (k.proc p).pagetable (k.proc np).pagetable (k.proc p).sz) then do
        setProc np { k.proc np with sz := (k.proc p).sz }
        let word := (← get).ram.word
        onRam (fill (k.proc np).trapframe
          (copyTrapframe (word (k.proc p).trapframe) (word (k.proc np).trapframe)))
        onRam (store (k.proc np).trapframe A0 (.ofWord 0))
        return some np
      else do
        freeproc K np
        return none

end

variable {K : Image} {k : Kernel} {E : Panic → Prop} {F : Pages} {i : Fin NPROC}

@[simp] theorem wp_onRam {α : Type} {x : VM α} {Q : α → Kernel → Prop} :
    wp (onRam x) E k Q ↔ wp x E k.ram fun a s => Q a { k with ram := s } := by
  have hrun : (onRam x).run k = (x.run k.ram).map fun r => (r.1, { k with ram := r.2 }) := by
    cases hx : x.run k.ram with
    | error e | ok r =>
      change ((x.run k.ram) >>= _) = _
      rw [hx]
      rfl
  rw [wp, wp, hrun]
  cases x.run k.ram with
  | error e => exact Iff.rfl
  | ok r => exact Iff.rfl

variable {p : Proc}

@[simp] theorem wp_setProc {Q : Unit → Kernel → Prop} :
    wp (setProc i p) E k Q ↔ Q () { k with proc := assign k.proc i p } := Iff.rfl

/-! ## What the functions do -/

variable {q : ℕ} {s : Ram} {x : Multiset ℕ}

theorem Acc.pos (h : Acc K s x) (hq : q ∈ x) : q ≠ 0 := by
  have hle := (h.mem hq).1
  have hbase := K.base_le
  have hfirst := K.trampoline_lt
  rintro rfl
  omega

theorem Own.page_ne_zero (h : Own K s (held {q} * F)) : q ≠ 0 := by
  obtain ⟨y, hacc, -⟩ := own_page.mp h
  exact hacc.pos (mem_cons_self ..)

variable {leaf : ℕ → Option Pte} {root : ℕ}

theorem Own.root_ne_zero (h : Own K s (pt root leaf * F)) : root ≠ 0 := by
  obtain ⟨_, y, hacc, ⟨t, ht, rfl⟩, -⟩ := own_mul.mp h
  obtain ⟨q, entry, rfl, hq⟩ := Holds.exists_node ht.holds rfl
  obtain rfl : root = q := congrArg Pte.ppn hq
  exact hacc.pos (mem_add.mpr (.inl (Radix.page_mem_nodes ..)))

/-- The pages of a slot that `freeproc` finds: the trapframe, and the page table with the user pages `u`,
as far as there are such. -/
def found (K : Image) (p : Proc) (u : List UserPage) : Pages :=
  (if p.trapframe = 0 then 1 else held {p.trapframe}) *
    if p.pagetable = 0 then 1
    else pt p.pagetable (leaves K p.trapframe (u.map UserPage.pte)) * umem u

variable {u : List UserPage}

theorem freeproc_spec (h : Own K k.ram (found K (k.proc i) u * F)) (hu : ∀ p ∈ u, p.pte.IsLeaf)
    (hsz : PGROUNDUP (k.proc i).sz = u.length * PGSIZE) (hlen : u.length ≤ 2 ^ 26 - 2) :
    wp (freeproc K i) E k fun _ k' =>
      k'.proc = assign k.proc i .unused ∧ Own K k'.ram F := by
  rw [found, mul_assoc] at h
  -- the second half, when the trapframe has been freed
  have hrest : ∀ s, Own K s ((if (k.proc i).pagetable = 0 then 1 else
      pt (k.proc i).pagetable (leaves K (k.proc i).trapframe (u.map pte)) * umem u) * F) →
      wp (do
        if (k.proc i).pagetable ≠ 0 then
          onRam (procFreepagetable K (k.proc i).pagetable (k.proc i).sz)
        setProc i .unused) E { k with ram := s } fun _ k' =>
        k'.proc = assign k.proc i .unused ∧ Own K k'.ram F := by
    intro s hs
    by_cases hz : (k.proc i).pagetable = 0
    · rw [if_pos hz, one_mul] at hs
      rw [if_neg (not_not_intro hz)]
      exact ⟨rfl, hs⟩
    · rw [if_neg hz, mul_assoc] at hs
      rw [if_pos hz, wp_bind, wp_onRam]
      exact (hs.procFreepagetable hu hsz hlen).mono fun _ s' hs' => ⟨rfl, hs'⟩
  rw [freeproc, wp_bind, wp_get]
  by_cases hz : (k.proc i).trapframe = 0
  · rw [if_pos hz, one_mul] at h
    rw [if_neg (not_not_intro hz)]
    exact hrest k.ram h
  · rw [if_neg hz] at h
    rw [if_pos hz, wp_bind, wp_onRam]
    exact h.kfree.mono fun _ s hs => hrest s hs

theorem freeproc_give_up (hslot : k.proc i = .unused)
    (h : Own K s ((if p.trapframe = 0 then 1 else held {p.trapframe}) * F)) (hpt : p.pagetable = 0)
    (hsz : p.sz = 0) :
    wp (freeproc K i) E ⟨s, assign k.proc i p⟩ fun _ k' => k'.proc = k.proc ∧ Own K k'.ram F := by
  have hp : assign k.proc i p i = p := if_pos rfl
  have hown : Own K s (found K (assign k.proc i p i) [] * F) := by
    rw [hp, found, if_pos hpt, mul_one]
    exact h
  have hround : PGROUNDUP (assign k.proc i p i).sz = ([] : List UserPage).length * PGSIZE := by
    rw [hp, hsz, length_nil, Nat.zero_mul, PGROUNDUP_zero]
  refine (freeproc_spec (k := ⟨s, assign k.proc i p⟩) hown (fun q hq => absurd hq not_mem_nil)
    hround (Nat.zero_le _)).mono fun _ k' ⟨hproc, hk'⟩ => ⟨?_, hk'⟩
  rw [hproc, assign_eq_update, assign_eq_update, update_idem, ← hslot, update_eq_self]

theorem not_inUse_of_find? (h : ((finRange NPROC).find? fun j => !(k.proc j).inUse) = some i) :
    (k.proc i).inUse = false := by
  simpa using find?_some h

theorem allocproc_spec (h : Own K k.ram F)
    (hunused : ∀ j, (k.proc j).inUse = false → k.proc j = .unused) : wp (allocproc K) E k fun r k' =>
      match r with
      | none => k'.proc = k.proc ∧ Own K k'.ram F
      | some np => (k.proc np).inUse = false ∧ ∃ tf root,
          k'.proc = assign k.proc np ⟨true, tf, root, 0⟩ ∧
          Own K k'.ram (pt root (leaves K tf []) * (held {tf} * F)) := by
  rw [allocproc, wp_bind, wp_get]
  split
  · exact ⟨rfl, h⟩
  · next np hnp =>
    have hfree := not_inUse_of_find? hnp
    have hslot := hunused np hfree
    have hpt : (k.proc np).pagetable = 0 := by rw [hslot, Proc.unused]
    have hz : (k.proc np).sz = 0 := by rw [hslot, Proc.unused]
    rw [wp_bind, wp_onRam]
    refine h.kalloc.mono fun r s1 hr => ?_
    cases r with
    | none =>
      rw [wp_bind, wp_setProc, wp_bind]
      refine (freeproc_give_up (p := ⟨true, 0, (k.proc np).pagetable, (k.proc np).sz⟩) hslot ?_ hpt
        hz).mono fun _ k' hk' => hk'
      rw [if_pos rfl, one_mul]
      exact hr
    | some tf =>
      rw [wp_bind, wp_onRam]
      refine hr.procPagetable.mono fun r s2 hr => ?_
      cases r with
      | none =>
        rw [wp_bind, wp_setProc, wp_bind]
        refine (freeproc_give_up (p := ⟨true, tf, 0, (k.proc np).sz⟩) hslot ?_ rfl hz).mono
          fun _ k' hk' => hk'
        rw [if_neg hr.page_ne_zero]
        exact hr
      | some root =>
        rw [wp_bind, wp_setProc, wp_pure]
        refine ⟨hfree, tf, root, ?_, hr⟩
        rw [hslot]
        rfl

/-! ## The address-space invariant -/

/-- The user pages `u` are the pages below the size of the process. -/
structure Proc.Fits (p : Proc) (u : List UserPage) : Prop where
  below : p.sz ≤ TRAPFRAME
  length : u.length * PGSIZE = PGROUNDUP p.sz
  leaf : ∀ q ∈ u, q.pte.IsLeaf

theorem Proc.Fits.turns (h : p.Fits u) : (p.sz + PGSIZE - 1) / PGSIZE = u.length := by
  have hlen := h.length
  have hbelow : p.sz ≤ 2 ^ 38 - 8192 := h.below
  simp only [PGROUNDUP, PGSIZE] at hlen ⊢
  omega

theorem Proc.Fits.length_le (h : p.Fits u) : u.length ≤ 2 ^ 26 - 2 := by
  have hturns := h.turns
  have hbelow : p.sz ≤ 2 ^ 38 - 8192 := h.below
  simp only [PGSIZE] at hturns
  omega

/-- The pages of a process: its page table, its user pages, and its trapframe with the contents `c`. -/
def image (K : Image) (p : Proc) (u : List UserPage) (c : Idx → Pte) : Pages :=
  pt p.pagetable (leaves K p.trapframe (u.map UserPage.pte)) * (umem u * page p.trapframe c)

variable {c : Idx → Pte}

theorem Own.word_trapframe (h : Own K s (image K p u c * F)) : s.word p.trapframe = c := by
  rw [image, mul_assoc, mul_assoc, mul_left_comm (umem u), mul_left_comm] at h
  exact h.word_page

theorem fork_spec {p : Fin NPROC} {A : Pages} (h : Own K k.ram (A * F))
    (hA : ∀ mem x, A.Sat mem x → (image K (k.proc p) u c).Sat mem x)
    (hp : (k.proc p).inUse = true) (hfits : (k.proc p).Fits u)
    (hunused : ∀ j, (k.proc j).inUse = false → k.proc j = .unused) : wp (fork K p) E k fun r k' =>
      match r with
      | none => k'.proc = k.proc ∧ Own K k'.ram (A * F)
      | some np => (k.proc np).inUse = false ∧ ∃ tf root u' c',
          k'.proc = assign k.proc np ⟨true, tf, root, (k.proc p).sz⟩ ∧
          List.Forall₂ CopyOf u u' ∧
          (∀ i : Idx, i.val < TRAPFRAMEWORDS → c' i = if i = A0 then .ofWord 0 else c i) ∧
          Own K k'.ram (A * (image K ⟨true, tf, root, (k.proc p).sz⟩ u' c' * F)) := by
  rw [fork, wp_bind]
  refine (allocproc_spec h hunused).mono fun r k1 hr => ?_
  cases r with
  | none => exact hr
  | some np =>
    obtain ⟨hfree, tf, root, hproc, hown⟩ := hr
    have hne : p ≠ np := by
      rintro rfl
      rw [hp] at hfree
      cases hfree
    have hparent : k1.proc p = k.proc p := by rw [hproc, assign, if_neg hne]
    have hchild : k1.proc np = ⟨true, tf, root, 0⟩ := by rw [hproc, assign, if_pos rfl]
    have hleaf : ∀ j (hj : j < u.length),
        leaves K (k.proc p).trapframe (u.map pte) j = some u[j].pte := by
      intro j hj
      rw [leaves_of_lt (by rw [length_map]; exact hj), getElem_map]
    rw [wp_bind, wp_get, wp_bind, wp_onRam, hparent, hchild]
    have hcopy : Own K k1.ram (A * (pt root (leaves K tf []) * (held {tf} * F))) := by
      convert hown using 1
      ac_rfl
    refine (hcopy.uvmcopy hA hleaf hfits.leaf hfits.turns hfits.length_le).mono fun ok s2 h2 => ?_
    cases ok with
    | true =>
      rw [if_pos rfl] at h2 ⊢
      obtain ⟨u', hu', hown'⟩ := h2
      have hframe : Own K s2 (held {tf} * (A * (pt root (leaves K tf (u'.map pte)) *
          (umem u' * F)))) := by
        convert hown' using 1
        ac_rfl
      have hword : s2.word (k.proc p).trapframe = c := (hown'.imp fun x hx => hA _ x hx).word_trapframe
      rw [wp_bind, wp_setProc, wp_bind, wp_get, wp_bind, wp_onRam, hword]
      refine hframe.fill_page.mono fun _ s3 h3 => ?_
      rw [wp_bind, wp_onRam]
      refine h3.store_page.mono fun _ s4 h4 => ?_
      rw [wp_pure]
      refine ⟨hfree, tf, root, u', assign (copyTrapframe c (s2.word tf)) A0 (.ofWord 0), ?_, hu',
        fun i hi => ?_, ?_⟩
      · rw [hproc, assign_eq_update, assign_eq_update, assign_eq_update, update_idem]
      · rw [assign, copyTrapframe, if_pos hi]
      · change Own K s4 (page tf (assign (copyTrapframe c (s2.word tf)) A0 (.ofWord 0)) * _) at h4
        simp only [image]
        convert h4 using 1
        ac_rfl
    | false =>
      rw [if_neg Bool.false_ne_true] at h2 ⊢
      rw [wp_bind]
      have hroot : root ≠ 0 := hown.root_ne_zero
      have htf : tf ≠ 0 := by
        rw [mul_left_comm] at hown
        exact hown.page_ne_zero
      have hfound : Own K s2 (found K (k1.proc np) [] * (A * F)) := by
        rw [hchild, found, if_neg htf, if_neg hroot, umem_nil]
        convert h2 using 1
        simp only [map_nil, mul_one]
        ac_rfl
      have hround : PGROUNDUP (k1.proc np).sz = ([] : List UserPage).length * PGSIZE := by
        rw [hchild, length_nil, Nat.zero_mul]
        exact PGROUNDUP_zero
      refine (freeproc_spec (k := ⟨s2, k1.proc⟩) hfound (fun q hq => absurd hq not_mem_nil)
        hround (Nat.zero_le _)).mono ?_
      rintro _ k3 ⟨hproc', h3⟩
      refine ⟨?_, h3⟩
      rw [hproc', hproc, assign_eq_update, assign_eq_update, update_idem,
        ← hunused np hfree, update_eq_self]

/-- The memory of a process: the pages below its size, the trapframe, and the page table, which maps these
and `TRAMPOLINE`. -/
def space (K : Image) (p : Proc) : Pages where
  Sat mem x := ∃ u c, p.Fits u ∧ (image K p u c).Sat mem x
  frame := by
    rintro mem mem' x ⟨u, c, hfits, hsat⟩ hmem
    exact ⟨u, c, hfits, (image K p u c).frame hsat hmem⟩

/-- What a slot of the process table has. -/
def ofSlot (K : Image) (p : Proc) : Pages := if p.inUse then space K p else 1

/-- Every process has its memory, no page has two owners, and the pages that are not free and belong to
no process belong to somebody else. -/
structure Spaces (K : Image) (k : Kernel) : Prop where
  own : ∃ R, Own K k.ram ((∏ i, ofSlot K (k.proc i)) * R)
  unused : ∀ i, (k.proc i).inUse = false → k.proc i = .unused

/-- The entry by which `va` is mapped. -/
def mapping (word : ℕ → Idx → Pte) (pagetable va : ℕ) : Option Pte :=
  (entry word pagetable va).bind Pte.leaf

variable {va : ℕ}

theorem Own.mapping (h : Own K s (pt root leaf * F)) (hva : va < MAXVA) :
    mapping s.word root va = leaf (va / PGSIZE) := by
  obtain ⟨loc, hrun, hloc⟩ := walkLoop_run s va 2 root
  have hwalk : (Vm.walk root va false).run s = .ok (loc, s) := by
    rw [Vm.walk, if_neg (by omega)]
    exact hrun
  obtain ⟨-, hr⟩ := (h.walk (E := fun _ => False) hva).of_run_eq_ok hwalk
  rw [Vm.mapping, entry, if_neg (by omega), hloc]
  cases loc with
  | none => exact hr.symm
  | some q => exact (hr.slot_leaf (div_lt_of_lt_MAXVA hva)).symm

variable {word : ℕ → Idx → Pte}

theorem mapping_of_le (h : MAXVA ≤ va) : mapping word root va = none := by
  rw [mapping, entry, if_pos h]
  rfl

theorem leaves_cases {tf v : ℕ} {c : Pte} (h : leaves K tf (u.map pte) v = some c) :
    (∃ p ∈ u, p.pte = c) ∨ u.length ≤ v ∧ (c = trampolinePte K ∨ c = trapframePte tf) := by
  rw [leaves, length_map, top] at h
  split_ifs at h with hv htr htf
  · rw [getElem?_map, getElem?_eq_getElem hv] at h
    exact .inl ⟨u[v], getElem_mem hv, Option.some.inj h⟩
  · exact .inr ⟨by omega, .inl (Option.some.inj h).symm⟩
  · exact .inr ⟨by omega, .inr (Option.some.inj h).symm⟩

theorem mem_of_sat_umem {mem : ℕ → Idx → Pte} {p : UserPage} (h : (umem u).Sat mem x) (hp : p ∈ u) :
    p.pte.ppn ∈ x := by
  induction u generalizing x with
  | nil => exact absurd hp not_mem_nil
  | cons q u ih =>
    rw [umem_cons] at h
    obtain ⟨y, z, rfl, ⟨rfl, -⟩, hz⟩ := h
    rw [mem_add]
    rcases mem_cons.mp hp with rfl | hp
    · exact .inl (Multiset.mem_singleton_self _)
    · exact .inr (ih hz hp)

theorem Spaces.split (h : Spaces K k) (hi : (k.proc i).inUse = true) : ∃ R u c,
    (k.proc i).Fits u ∧ Own K k.ram (image K (k.proc i) u c *
      ((∏ j ∈ Finset.univ.erase i, ofSlot K (k.proc j)) * R)) := by
  obtain ⟨R, hR⟩ := h.own
  rw [← mul_prod_erase _ _ (mem_univ i), ofSlot, if_pos hi, mul_assoc] at hR
  obtain ⟨x, y, hacc, ⟨u, c, hfits, hsat⟩, hF⟩ := own_mul.mp hR
  exact ⟨R, u, c, hfits, own_mul.mpr ⟨x, y, hacc, hsat, hF⟩⟩

theorem mapping_mem {y : Multiset ℕ} {c : Pte} (hacc : Acc K s (x + y))
    (hsat : (space K p).Sat s.word x) (h : mapping s.word p.pagetable va = some c) :
    c.ppn ∈ x ∨ c = trampolinePte K ∧ PGROUNDUP p.sz ≤ va := by
  obtain ⟨u, d, hfits, x1, _, rfl, hpt, x2, _, rfl, hu, rfl, -⟩ := hsat
  have hown : Own K s (pt p.pagetable (leaves K p.trapframe (u.map pte)) *
      held (x2 + {p.trapframe} + y)) := by
    rw [add_assoc] at hacc
    exact own_mul.mpr ⟨x1, _, hacc, hpt, rfl⟩
  have hva : va < MAXVA := by
    by_contra hle
    rw [mapping_of_le (by omega)] at h
    cases h
  rw [hown.mapping hva] at h
  rcases leaves_cases h with ⟨q, hq, rfl⟩ | ⟨hv, rfl | rfl⟩
  · exact .inl (mem_add.mpr (.inr (mem_add.mpr (.inl (mem_of_sat_umem hu hq)))))
  · refine .inr ⟨rfl, ?_⟩
    rw [← hfits.length]
    exact (Nat.le_div_iff_mul_le (by decide)).mp hv
  · exact .inl (mem_add.mpr (.inr (mem_add.mpr (.inr (Multiset.mem_singleton_self _)))))

variable {j : Fin NPROC}

theorem Spaces.ppn_ne (h : Spaces K k) (hij : i ≠ j) (hi : (k.proc i).inUse = true)
    (hj : (k.proc j).inUse = true) {va' : ℕ} {c d : Pte}
    (hc : mapping k.ram.word (k.proc i).pagetable va = some c)
    (huser : c.perm.u = true ∨ va < PGROUNDUP (k.proc i).sz)
    (hd : mapping k.ram.word (k.proc j).pagetable va' = some d) : d.ppn ≠ c.ppn := by
  obtain ⟨R, hR⟩ := h.own
  have hmem : j ∈ univ.erase i := mem_erase.mpr ⟨hij.symm, mem_univ j⟩
  rw [← mul_prod_erase _ _ (mem_univ i), ← mul_prod_erase _ _ hmem, ofSlot,
    ofSlot, if_pos hi, if_pos hj, mul_assoc, mul_assoc] at hR
  obtain ⟨x, _, hacc, hx, y, z, rfl, hy, -⟩ := own_mul.mp hR
  have hcx : c.ppn ∈ x := by
    rcases mapping_mem hacc hx hc with hcx | ⟨rfl, hle⟩
    · exact hcx
    · rcases huser with hu | hlt
      · cases hu
      · omega
  have hacc' : Acc K k.ram (y + (x + z)) := by
    rw [add_left_comm] at hacc
    exact hacc
  rcases mapping_mem hacc' hy hd with hdy | ⟨rfl, -⟩
  · intro heq
    rw [heq] at hdy
    exact disjoint_left.mp (nodup_add.mp hacc.nodup).2.2 hcx (mem_add.mpr (.inl hdy))
  · intro heq
    have hfirst := (hacc.mem (mem_add.mpr (.inl hcx))).1
    have htramp := K.trampoline_lt
    rw [← heq] at hfirst
    exact absurd hfirst (by simp only [trampolinePte]; omega)

/-! ## Isolation -/

/-- What process `i` stores and what the kernel copies to it goes to no page that `j` reaches. -/
def Isolated (k : Kernel) (i j : Fin NPROC) : Prop :=
  ∀ va q, Copy.target k.ram.word (k.proc j).pagetable va = some q →
    (∀ a, Copy.target k.ram.word (k.proc i).pagetable a ≠ some q) ∧
    ∀ data dstva src,
      (Copy.copyout k.ram.word (k.proc i).pagetable data dstva src).2 q = data q

variable {pagetable : ℕ}

theorem mapping_of_physical (h : physical word pagetable va = some q) :
    ∃ c, mapping word pagetable va = some c ∧ c.perm.u = true ∧ c.ppn = q := by
  rw [physical] at h
  split at h
  · cases h
  · next c hentry =>
    split_ifs at h with hno
    rw [not_or, Bool.not_eq_false, Bool.not_eq_false] at hno
    refine ⟨c, ?_, hno.2, Option.some.inj h⟩
    rw [mapping, hentry, Option.bind_some, Pte.leaf, if_pos hno.1]

theorem mapping_of_target (h : Copy.target word pagetable va = some q) :
    ∃ c, mapping word pagetable va = some c ∧ c.perm.u = true ∧ c.ppn = q := by
  exact mapping_of_physical (Option.filter_eq_some_iff.mp h).1

theorem Spaces.isolated (h : Spaces K k) (hij : i ≠ j) (hi : (k.proc i).inUse = true)
    (hj : (k.proc j).inUse = true) : Isolated k i j := by
  intro va q hq
  obtain ⟨d, hd, -, rfl⟩ := mapping_of_target hq
  have hne : ∀ a, Copy.target k.ram.word (k.proc i).pagetable a ≠ some d.ppn := by
    intro a ha
    obtain ⟨c, hc, hu, heq⟩ := mapping_of_target ha
    exact h.ppn_ne hij hi hj hc (.inl hu) hd heq.symm
  exact ⟨hne, fun data dstva src => Copy.copyout_frame data dstva src _ fun a _ _ _ => hne a⟩

/-! ## What `fork` does to memory -/

/-- The memory after `p` has forked the process `np`. -/
structure Forked (K : Image) (k k' : Kernel) (p np : Fin NPROC) : Prop where
  /-- Every page of the parent has a copy in the child with the same flags, which is another page. -/
  copied : ∀ va < PGROUNDUP (k.proc p).sz, ∃ c d,
    mapping k.ram.word (k.proc p).pagetable va = some c ∧
    mapping k'.ram.word (k'.proc np).pagetable va = some d ∧
    d.perm = c.perm ∧ k'.ram.word d.ppn = k.ram.word c.ppn ∧ d.ppn ≠ c.ppn
  /-- No other process maps a user page of the child. -/
  alone : ∀ va < PGROUNDUP (k.proc p).sz, ∀ d,
    mapping k'.ram.word (k'.proc np).pagetable va = some d →
    ∀ j, j ≠ np → (k'.proc j).inUse = true → ∀ va' c,
      mapping k'.ram.word (k'.proc j).pagetable va' = some c → c.ppn ≠ d.ppn
  /-- The trapframe of the child is that of the parent but for `a0`. -/
  trapframe : ∀ i : Idx, i.val < TRAPFRAMEWORDS → k'.ram.word (k'.proc np).trapframe i =
    if i = A0 then .ofWord 0 else k.ram.word (k.proc p).trapframe i
  /-- The parent has what it had. -/
  parent : k'.proc p = k.proc p
  table : ∀ va, mapping k'.ram.word (k.proc p).pagetable va =
    mapping k.ram.word (k.proc p).pagetable va
  memory : ∀ va < PGROUNDUP (k.proc p).sz, ∀ c,
    mapping k.ram.word (k.proc p).pagetable va = some c → k'.ram.word c.ppn = k.ram.word c.ppn
  frame : k'.ram.word (k.proc p).trapframe = k.ram.word (k.proc p).trapframe
  /-- The invariant holds again, and as long as it holds neither sees what the other stores. -/
  spaces : Spaces K k'
  isolated : ∀ k'', Spaces K k'' → (k''.proc p).inUse = true → (k''.proc np).inUse = true →
    Isolated k'' p np ∧ Isolated k'' np p

theorem Own.space (h : Own K s (image K p u c * F)) (hfits : p.Fits u) : Own K s (space K p * F) :=
  h.imp fun _ hx => ⟨u, c, hfits, hx⟩

variable {k' : Kernel}

theorem Spaces.set {q : Proc} {R : Pages}
    (h : Own K k'.ram (image K q u c * ((∏ j ∈ Finset.univ.erase i, ofSlot K (k.proc j)) * R)))
    (hunused : ∀ j, (k.proc j).inUse = false → k.proc j = .unused)
    (hproc : k'.proc = assign k.proc i q) (hq : q.inUse = true) (hfits : q.Fits u) : Spaces K k' := by
  refine ⟨⟨R, ?_⟩, fun j hj => ?_⟩
  · have hi : assign k.proc i q i = q := if_pos rfl
    have hrest : ∏ j ∈ univ.erase i, ofSlot K (assign k.proc i q j) =
        ∏ j ∈ univ.erase i, ofSlot K (k.proc j) := by
      refine prod_congr rfl fun j hj => ?_
      rw [assign, if_neg (ne_of_mem_erase hj)]
    rw [hproc, ← mul_prod_erase _ _ (mem_univ i), hi, hrest, ofSlot, if_pos hq, mul_assoc]
    exact h.space hfits
  · rw [hproc, assign] at hj ⊢
    by_cases hji : j = i
    · rw [if_pos hji, hq] at hj
      cases hj
    · rw [if_neg hji] at hj ⊢
      exact hunused j hj

theorem prod_ofSlot_of_free (hfree : (k.proc i).inUse = false) :
    ∏ j, ofSlot K (k.proc j) = ∏ j ∈ Finset.univ.erase i, ofSlot K (k.proc j) := by
  rw [← mul_prod_erase _ _ (mem_univ i), ofSlot,
    if_neg (by rw [hfree]; exact Bool.false_ne_true), one_mul]

theorem Own.mapping_user (h : Own K s (image K p u c * F)) (hfits : p.Fits u)
    (hva : va / PGSIZE < u.length) : Vm.mapping s.word p.pagetable va = some u[va / PGSIZE].pte := by
  have hle := hfits.length_le
  have hlt : va < MAXVA := by
    change va / 4096 < u.length at hva
    change va < 2 ^ 38
    omega
  rw [image, mul_assoc] at h
  rw [h.mapping hlt, leaves_of_lt (by rw [length_map]; exact hva), getElem_map]

theorem Own.word_image {q : UserPage} (h : Own K s (image K p u c * F)) (hq : q ∈ u) :
    s.word q.pte.ppn = q.data := by
  rw [image, mul_assoc, mul_assoc, mul_left_comm] at h
  exact h.word_umem hq

/-- **`fork` copies memory and isolates it.** -/
theorem fork_copies_memory {p np : Fin NPROC} (hk : Spaces K k) (hp : (k.proc p).inUse = true)
    (hrun : (fork K p).run k = .ok (some np, k')) :
    Forked K k k' p np := by
  obtain ⟨R, u, c, hfits, hown⟩ := hk.split hp
  obtain ⟨hfree, tf, root, u', c', hproc, hcopy, hframe, hown'⟩ :=
    (fork_spec (E := fun _ => True) hown (fun _ _ h => h) hp hfits hk.unused).of_run_eq_ok hrun
  have hne : p ≠ np := by
    rintro rfl
    rw [hp] at hfree
    cases hfree
  have hparent : k'.proc p = k.proc p := by rw [hproc, assign, if_neg hne]
  have hchild : k'.proc np = ⟨true, tf, root, (k.proc p).sz⟩ := by rw [hproc, assign, if_pos rfl]
  have hlen : u.length = u'.length := hcopy.length_eq
  have hfits' : Proc.Fits ⟨true, tf, root, (k.proc p).sz⟩ u' :=
    ⟨hfits.below, by rw [← hlen]; exact hfits.length, CopyOf.forall_isLeaf hcopy hfits.leaf⟩
  have hown'' := hown'
  rw [mul_left_comm] at hown''
  have hspaces : Spaces K k' := by
    have hadd := hown'.space hfits
    rw [mul_left_comm, ← mul_assoc (space K _)] at hadd
    have hslot : ofSlot K (k.proc p) = space K (k.proc p) := if_pos hp
    rw [← hslot, mul_prod_erase _ (fun i => ofSlot K (k.proc i)) (mem_univ p)] at hadd
    rw [prod_ofSlot_of_free hfree] at hadd
    exact .set hadd hk.unused hproc rfl hfits'
  have hin : (k'.proc np).inUse = true := by rw [hchild]
  have hpage : ∀ va, va < PGROUNDUP (k.proc p).sz → va / PGSIZE < u.length := by
    intro va hva
    rw [← hfits.length] at hva
    exact (Nat.div_lt_iff_lt_mul (by decide)).mpr hva
  have halone : ∀ va < PGROUNDUP (k.proc p).sz, ∀ d,
      mapping k'.ram.word (k'.proc np).pagetable va = some d →
      ∀ j, j ≠ np → (k'.proc j).inUse = true → ∀ va' c,
        mapping k'.ram.word (k'.proc j).pagetable va' = some c → c.ppn ≠ d.ppn := by
    intro va hva d hd j hj hjin va' c hc
    refine hspaces.ppn_ne hj.symm hin hjin hd (.inr ?_) hc
    rw [hchild]
    exact hva
  refine ⟨fun va hva => ?_, halone, fun i hi => ?_, hparent, fun va => ?_, fun va hva d hd => ?_, ?_,
    hspaces, fun k'' hk'' hpin hnpin => ⟨hk''.isolated hne hpin hnpin,
      hk''.isolated hne.symm hnpin hpin⟩⟩
  · have hv := hpage va hva
    have hv' : va / PGSIZE < u'.length := by omega
    have hcopies : CopyOf u[va / PGSIZE] u'[va / PGSIZE] := hcopy.get hv hv'
    have hd : mapping k'.ram.word (k'.proc np).pagetable va = some u'[va / PGSIZE].pte := by
      rw [hchild]
      exact hown''.mapping_user hfits' hv'
    refine ⟨_, _, hown.mapping_user hfits hv, hd, hcopies.perm, ?_, ?_⟩
    · rw [hown''.word_image (List.getElem_mem hv'), hown.word_image (List.getElem_mem hv),
        hcopies.data]
    · refine (halone va hva _ hd p hne (by rw [hparent]; exact hp) va _ ?_).symm
      rw [hparent]
      exact hown'.mapping_user hfits hv
  · have hchildFrame := hown''.word_trapframe
    rw [hchild, hchildFrame, hframe i hi, hown.word_trapframe]
  · by_cases hva : va < MAXVA
    · rw [image, mul_assoc] at hown hown'
      rw [hown.mapping hva, hown'.mapping hva]
    · rw [mapping_of_le (by omega), mapping_of_le (by omega)]
  · rw [hown.mapping_user hfits (hpage va hva)] at hd
    cases hd
    rw [hown'.word_image (List.getElem_mem _), hown.word_image (List.getElem_mem _)]
  · rw [hown'.word_trapframe, hown.word_trapframe]

/-! ## The invariant is kept -/

theorem Spaces.allocproc (h : Spaces K k) : wp (allocproc K) E k fun r k' => Spaces K k' ∧
    ∀ np ∈ r, (k'.proc np).inUse = true := by
  obtain ⟨R, hR⟩ := h.own
  refine (allocproc_spec hR h.unused).mono fun r k' hr => ?_
  match r, hr with
  | none, ⟨hproc, hown⟩ =>
    refine ⟨⟨⟨R, ?_⟩, ?_⟩, fun np hnp => by cases hnp⟩
    · rw [hproc]
      exact hown
    · rw [hproc]
      exact h.unused
  | some np, ⟨hfree, tf, root, hproc, hown⟩ =>
    have hpage : Own K k'.ram (image K ⟨true, tf, root, 0⟩ [] (k'.ram.word tf) *
        ((∏ j ∈ univ.erase np, ofSlot K (k.proc j)) * R)) := by
      rw [← prod_ofSlot_of_free hfree, image, umem_nil, one_mul, mul_assoc, mul_left_comm]
      rw [mul_left_comm] at hown
      exact hown.imp fun x hx => ⟨hx, rfl⟩
    refine ⟨.set hpage h.unused hproc rfl ⟨Nat.zero_le _, ?_, fun q hq => absurd hq not_mem_nil⟩,
      fun j hj => ?_⟩
    · rw [length_nil, Nat.zero_mul, PGROUNDUP_zero]
    · cases hj
      rw [hproc, assign, if_pos rfl]

variable {sz : ℕ}

theorem PGROUNDUP_grow {oldsz newsz : ℕ} {new : List UserPage}
    (hold : PGROUNDUP oldsz = u.length * PGSIZE) (hle : oldsz ≤ newsz)
    (hlen : new.length = (newsz + PGSIZE - 1 - u.length * PGSIZE) / PGSIZE)
    (hmax : (u ++ new).length ≤ 2 ^ 15) : PGROUNDUP newsz = (u ++ new).length * PGSIZE := by
  rw [length_append] at hmax ⊢
  simp only [PGROUNDUP, PGSIZE] at hold hlen ⊢
  have hsz : newsz ≤ 2 ^ 28 := by omega
  have hmod : ∀ sz ≤ 2 ^ 28, (sz + 4096 - 1) % 2 ^ 64 = sz + 4096 - 1 := fun sz h =>
    Nat.mod_eq_of_lt (by omega)
  rw [hmod _ (hle.trans hsz)] at hold
  have hturns : (oldsz + 4096 - 1) / 4096 = u.length := Nat.eq_of_mul_eq_mul_right (by decide) hold
  have hpages : (newsz + 4096 - 1) / 4096 = u.length + new.length := by
    clear hmod hold
    omega
  rw [hmod _ hsz, hpages]

theorem Proc.Fits.grow {p : Proc} {new : List UserPage} {sz : ℕ} (h : p.Fits u) (hle : p.sz ≤ sz)
    (hlen : new.length = (sz + PGSIZE - 1 - u.length * PGSIZE) / PGSIZE)
    (hmax : (u ++ new).length ≤ 2 ^ 15) (hleaf : ∀ q ∈ new, q.pte.IsLeaf) :
    Proc.Fits { p with sz := sz } (u ++ new) := by
  refine ⟨?_, (PGROUNDUP_grow h.length.symm hle hlen hmax).symm,
    fun q hq => (mem_append.mp hq).elim (h.leaf q) (hleaf q)⟩
  rw [length_append] at hmax
  simp only [PGSIZE] at hlen
  change sz ≤ 2 ^ 38 - 8192
  omega

theorem Proc.Fits.shrink (h : p.Fits u) (hle : sz ≤ p.sz) :
    ∃ n ≤ u.length, PGROUNDUP sz = n * PGSIZE ∧ Proc.Fits { p with sz := sz } (u.take n) := by
  have hround := h.length
  have hbelow : p.sz ≤ 2 ^ 38 - 8192 := h.below
  have hlen : PGROUNDUP sz / PGSIZE ≤ u.length ∧ PGROUNDUP sz = PGROUNDUP sz / PGSIZE * PGSIZE := by
    simp only [PGROUNDUP, PGSIZE] at hround ⊢
    omega
  refine ⟨PGROUNDUP sz / PGSIZE, hlen.1, hlen.2, ⟨hle.trans h.below, ?_, fun q hq => ?_⟩⟩
  · rw [length_take, min_eq_left hlen.1]
    exact hlen.2.symm
  · exact h.leaf q (mem_of_mem_take hq)

theorem growproc_spec {p : Fin NPROC} {u : List UserPage} {c : Idx → Pte} {n : ℤ}
    (h : Own K k.ram (image K (k.proc p) u c * F)) (hfits : (k.proc p).Fits u)
    (hn : -2 ^ 31 ≤ n ∧ n < 2 ^ 31) :
    wp (growproc K p n) E k fun ok k' => ∃ sz u', k'.proc = assign k.proc p { k.proc p with sz := sz } ∧
      Proc.Fits { k.proc p with sz := sz } u' ∧ (u <+: u' ∨ u' <+: u) ∧
      Own K k'.ram (image K { k.proc p with sz := sz } u' c * F) ∧
      if ok then (sz : ℤ) = if 0 ≤ (k.proc p).sz + n then (k.proc p).sz + n else (k.proc p).sz
      else 0 < n ∧ sz = (k.proc p).sz ∧ u' = u := by
  have hself : k.proc = assign k.proc p { k.proc p with sz := (k.proc p).sz } := by
    rw [assign_eq_update, update_eq_self]
  have hsz : PGROUNDUP (k.proc p).sz = u.length * PGSIZE := hfits.length.symm
  have hbelow : (k.proc p).sz ≤ 2 ^ 38 - 8192 := hfits.below
  have hspace : Own K k.ram (pt (k.proc p).pagetable (leaves K (k.proc p).trapframe
      (u.map pte)) * (umem u * (page (k.proc p).trapframe c * F))) := by
    rw [image, mul_assoc, mul_assoc] at h
    exact h
  rw [Vm.growproc, wp_bind, wp_get]
  by_cases hpos : 0 < n
  · have hnew : (k.proc p).sz ≤ (((k.proc p).sz + n) % 2 ^ 64).toNat := by omega
    rw [if_pos hpos, wp_bind, wp_onRam]
    refine (hspace.uvmalloc hsz hnew).mono fun r s' hr => ?_
    rcases hr with ⟨hr, new, hlen, hperm, hs'⟩ | ⟨hr, hs'⟩
    · have hne : ¬ (((k.proc p).sz + n) % 2 ^ 64).toNat = 0 := by omega
      rw [hr, if_neg hne, wp_bind, wp_setProc, wp_pure]
      refine ⟨_, u ++ new, rfl, hfits.grow hnew hlen ?_ ?_, .inl (prefix_append u new), ?_, ?_⟩
      · rw [mul_left_comm] at hs'
        exact hs'.length_le
      · intro q hq
        rw [Pte.IsLeaf, (hperm q hq).1]
        rfl
      · rw [image, mul_assoc, mul_assoc]
        exact hs'
      · rw [if_pos rfl, if_pos (by omega)]
        omega
    · rw [hr, if_pos rfl, wp_pure]
      refine ⟨(k.proc p).sz, u, hself, hfits, .inl (prefix_refl u), ?_, hpos, rfl, rfl⟩
      rw [image, mul_assoc, mul_assoc]
      exact hs'
  · rw [if_neg hpos]
    by_cases hneg : n < 0
    · rw [if_pos hneg, wp_bind, wp_onRam]
      by_cases hle : (((k.proc p).sz + n) % 2 ^ 64).toNat ≤ (k.proc p).sz
      · obtain ⟨m, hm, hround, hfits'⟩ := hfits.shrink hle
        have hlen : (u.take m).length = m := by rw [length_take, min_eq_left hm]
        have hsplit := hspace
        rw [← take_append_drop m u] at hsplit hsz
        rw [← hlen] at hround
        refine (hsplit.uvmdealloc (fun q hq => hfits.leaf q (mem_of_mem_drop hq)) hle hsz
          hround).mono ?_
        rintro r s' ⟨hr, hs'⟩
        rw [hr, wp_bind, wp_setProc, wp_pure]
        refine ⟨_, u.take m, rfl, hfits', .inr (List.take_prefix m u), ?_, ?_⟩
        · rw [image, mul_assoc, mul_assoc]
          exact hs'
        · rw [if_pos rfl, if_pos (by omega)]
          omega
      · -- the size would be negative: `uvmdealloc` does nothing
        rw [uvmdealloc, if_pos (by omega), wp_pure, wp_bind, wp_setProc, wp_pure]
        refine ⟨(k.proc p).sz, u, rfl, hfits, .inl (prefix_refl u), h, ?_⟩
        rw [if_pos rfl, if_neg (by omega)]
    · rw [if_neg hneg, wp_bind, wp_setProc, wp_pure]
      refine ⟨(k.proc p).sz, u, rfl, hfits, .inl (prefix_refl u), h, ?_⟩
      rw [if_pos rfl, if_pos (by omega)]
      omega

theorem Spaces.growproc {p : Fin NPROC} {n : ℤ} (h : Spaces K k) (hp : (k.proc p).inUse = true)
    (hn : -2 ^ 31 ≤ n ∧ n < 2 ^ 31) :
    wp (growproc K p n) E k fun _ k' => Spaces K k' ∧ ∀ j, (k'.proc j).inUse = (k.proc j).inUse := by
  obtain ⟨R, u, c, hfits, hown⟩ := h.split hp
  refine (growproc_spec hown hfits hn).mono fun _ k' ⟨sz, u', hproc, hfits', _, hown', _⟩ =>
    ⟨.set hown' h.unused hproc hp hfits', fun j => ?_⟩
  rw [hproc, assign]
  by_cases hj : j = p
  · rw [if_pos hj, hj]
  · rw [if_neg hj]

/-! ## A process that forks -/

/-- A machine with 32 pages for the allocator. -/
def tiny : Image := ⟨0x87000, 0x87fe0, by decide, by decide⟩

/-- All its pages are free. -/
def noProcs : Kernel := ⟨⟨fun _ _ => .ofWord 0, List.range' 0x87fe0 32, []⟩, fun _ => .unused⟩

theorem noProcs_spaces : Spaces tiny noProcs := by
  refine ⟨⟨1, 0, rfl, 0, 0, rfl, ?_, rfl⟩, fun _ _ => rfl⟩
  have hone : ∏ i, ofSlot tiny (noProcs.proc i) = 1 := prod_eq_one fun _ _ => rfl
  rw [hone]
  rfl

theorem firstProc_eq : ((allocproc tiny).run noProcs).toOption.map
    (fun r => (r.1, (r.2.proc 0).sz)) = some (some 0, 0) := by
  decide +kernel

theorem exists_firstProc : ∃ k, (allocproc tiny).run noProcs = .ok (some 0, k) ∧ Spaces tiny k ∧
    (k.proc 0).inUse = true ∧ (k.proc 0).sz = 0 := by
  have hfirst := firstProc_eq
  obtain ⟨r, k, hrun, hk, hin⟩ := (noProcs_spaces.allocproc (E := fun _ => False)).exists_ok
  rw [hrun] at hfirst
  obtain ⟨rfl, hsz⟩ : r = some 0 ∧ (k.proc 0).sz = 0 := by simpa [Except.toOption] using hfirst
  exact ⟨k, hrun, hk, hin 0 rfl, hsz⟩

/-- A process is made, gets 5000 bytes, and forks. -/
def firstFork : KM (Option (Fin NPROC)) := do
  let _ ← allocproc tiny
  let _ ← growproc tiny 0 5000
  fork tiny 0

theorem firstFork_eq : ((firstFork.run noProcs).toOption.map fun r => (r.1, (r.2.proc 0).sz)) =
    some (some 1, 5000) := by
  decide +kernel

/-- A process with 5000 bytes, two pages, forks. -/
theorem fork_copies_memory_small : ∃ k k', (Spaces tiny k ∧ (k.proc 0).sz = 5000) ∧
    (fork tiny 0).run k = .ok (some 1, k') ∧ Forked tiny k k' 0 1 := by
  have hall := firstFork_eq
  obtain ⟨k₁, hrun₁, hk₁, hin₁, -⟩ := exists_firstProc
  obtain ⟨ok, k₂, hrun₂, hk₂, hsame⟩ :=
    (hk₁.growproc (E := fun _ => False) (n := 5000) hin₁ (by omega)).exists_ok
  have hin₂ : (k₂.proc 0).inUse = true := by rw [hsame, hin₁]
  obtain ⟨R, u, c, hfits, hown⟩ := hk₂.split hin₂
  obtain ⟨r, k₃, hrun₃, -⟩ :=
    (fork_spec (E := fun _ => False) hown (fun _ _ h => h) hin₂ hfits hk₂.unused).exists_ok
  have hrun : firstFork.run noProcs = .ok (r, k₃) := by
    rw [firstFork, StateT.run_bind, hrun₁]
    change ((growproc tiny 0 5000).run k₁ >>= fun p => (fork tiny 0).run p.2) = _
    rw [hrun₂]
    exact hrun₃
  rw [hrun] at hall
  obtain ⟨rfl, hsz⟩ : r = some 1 ∧ (k₃.proc 0).sz = 5000 := by
    simpa [Except.toOption] using hall
  have hforked := fork_copies_memory hk₂ hin₂ hrun₃
  rw [hforked.parent] at hsz
  exact ⟨k₂, k₃, ⟨hk₂, hsz⟩, hrun₃, hforked⟩

end Xv6.Vm
