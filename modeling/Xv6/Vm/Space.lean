import Xv6.Vm.Map

/-!
# The memory of a process

The page table of a process maps its pages from address 0 on, and `TRAMPOLINE` and `TRAPFRAME` at the top
of the address space. `leaves K tf l` are these entries, and `umem u` are the user pages with their
contents. This module says what the functions of `kernel/vm.c` and `kernel/proc.c` that build, copy and
free such a memory do to it; every specification leaves the pages of others, `F`, as they are.
-/

namespace Xv6.Vm

open Lib List

variable {K : Image} {s : Ram} {E : Panic → Prop} {root : ℕ} {leaf : ℕ → Option Pte} {F : Pages}

/-! ## Pages with contents -/

/-- The pages `x`, as they are in `mem`. -/
def exactly (mem : ℕ → Idx → Pte) (x : Multiset ℕ) : Pages where
  Sat mem' y := y = x ∧ ∀ q ∈ x, mem' q = mem q
  frame := by
    rintro mem' mem'' _ ⟨rfl, h⟩ hmem
    exact ⟨rfl, fun q hq => (hmem q hq).trans (h q hq)⟩

/-- Page `q`, with contents `c`. -/
def page (q : ℕ) (c : Idx → Pte) : Pages where
  Sat mem x := x = {q} ∧ mem q = c
  frame := by
    rintro mem mem' _ ⟨rfl, rfl⟩ hmem
    exact ⟨rfl, hmem q (Multiset.mem_singleton_self q)⟩

/-- A page of a process: the entry that maps it, and what it holds. -/
structure UserPage where
  pte : Pte
  data : Idx → Pte

open UserPage (pte)

/-- The pages `u`, with their contents. -/
def umem (u : List UserPage) : Pages := (u.map fun p => page p.pte.ppn p.data).prod

theorem umem_nil : umem [] = 1 := rfl

theorem umem_append (u u' : List UserPage) : umem (u ++ u') = umem u * umem u' := by
  rw [umem, map_append, prod_append]
  rfl

theorem umem_singleton (p : UserPage) : umem [p] = page p.pte.ppn p.data := prod_singleton

theorem umem_cons (p : UserPage) (u : List UserPage) :
    umem (p :: u) = page p.pte.ppn p.data * umem u := prod_cons

variable {c : Idx → Pte} {q : ℕ}

theorem Own.word_page (h : Own K s (page q c * F)) : s.word q = c := by
  obtain ⟨_, _, _, ⟨-, hq⟩, -⟩ := own_mul.mp h
  exact hq

theorem Own.held_of_page (h : Own K s (page q c * F)) : Own K s (held {q} * F) := h.imp fun _ hx => hx.1

theorem Own.word_umem {u : List UserPage} {p : UserPage} (h : Own K s (umem u * F)) (hp : p ∈ u) :
    s.word p.pte.ppn = p.data := by
  obtain ⟨u1, u2, rfl⟩ := append_of_mem hp
  rw [umem_append, umem_cons, mul_assoc, mul_assoc, mul_left_comm] at h
  exact h.word_page

theorem Own.mapped_of_umem {u : List UserPage} (h : Own K s (umem u * F)) :
    Own K s (mapped (u.map pte) * F) := by
  induction u generalizing F with
  | nil => exact h
  | cons p u ih =>
    rw [umem_cons, mul_assoc] at h
    have hrest := h.held_of_page
    rw [mul_left_comm] at hrest
    rw [map_cons, mapped_cons, mul_assoc, mul_left_comm]
    exact ih hrest

theorem Own.fill_page (h : Own K s (held {q} * F)) :
    wp (Vm.fill q c) E s fun _ s' => Own K s' (page q c * F) := by
  obtain ⟨y, hacc, hF⟩ := own_page.mp h
  refine (fill_spec hacc).mono fun _ s' ⟨hsame, hacc', hpage⟩ => ?_
  rw [← Multiset.singleton_add] at hacc'
  exact own_mul.mpr ⟨{q}, y, hacc', ⟨rfl, hpage⟩, hsame.sat hF⟩

theorem Own.store_page {i : Idx} {pte : Pte} (h : Own K s (page q c * F)) :
    wp (Vm.store q i pte) E s fun _ s' => Own K s' (page q (assign c i pte) * F) := by
  have hfill := h.held_of_page.fill_page (E := E) (c := assign c i pte)
  rw [Vm.fill, wp_modify] at hfill
  rw [Vm.store, wp_modify, h.word_page]
  exact hfill

/-! ## The entries of a process's page table -/

/-- The entry for `TRAMPOLINE`: `trampoline`, with `PTE_R | PTE_X`. -/
def trampolinePte (K : Image) : Pte := ⟨K.trampoline, true, ⟨true, false, true, false, 0⟩⟩

/-- The entry for `TRAPFRAME`: the trapframe, with `PTE_R | PTE_W`. -/
def trapframePte (tf : ℕ) : Pte := ⟨tf, true, ⟨true, true, false, false, 0⟩⟩

/-- The entries at the top of the address space. -/
def top (K : Image) (tf : ℕ) : ℕ → Option Pte := fun v =>
  if v = TRAMPOLINE / PGSIZE then some (trampolinePte K)
  else if v = TRAPFRAME / PGSIZE then some (trapframePte tf)
  else none

/-- The entries of a process's page table, `l` for the user pages. -/
def leaves (K : Image) (tf : ℕ) (l : List Pte) : ℕ → Option Pte := fun v =>
  if v < l.length then l[v]? else top K tf v

theorem trampoline_div : TRAMPOLINE / PGSIZE = 2 ^ 26 - 1 := rfl

theorem trapframe_div : TRAPFRAME / PGSIZE = 2 ^ 26 - 2 := rfl

section

variable {tf : ℕ} {l : List Pte} {v : ℕ}

theorem leaves_of_lt (h : v < l.length) : leaves K tf l v = some l[v] := by
  rw [leaves, if_pos h, getElem?_eq_getElem h]

theorem leaves_between (h : l.length ≤ v) (hv : v < 2 ^ 26 - 2) : leaves K tf l v = none := by
  rw [leaves, if_neg (by omega), top, trampoline_div, trapframe_div, if_neg (by omega),
    if_neg (by omega)]

theorem leaves_trampoline (h : l.length ≤ 2 ^ 26 - 2) :
    leaves K tf l (TRAMPOLINE / PGSIZE) = some (trampolinePte K) := by
  rw [leaves, if_neg (by rw [trampoline_div]; omega), top, if_pos rfl]

theorem leaves_trapframe (h : l.length ≤ 2 ^ 26 - 2) :
    leaves K tf l (TRAPFRAME / PGSIZE) = some (trapframePte tf) := by
  rw [leaves, if_neg (by rw [trapframe_div]; omega), top,
    if_neg (by rw [trampoline_div, trapframe_div]; omega), if_pos rfl]

theorem assign_leaves (c : Pte) :
    assign (leaves K tf l) l.length (some c) = leaves K tf (l ++ [c]) := by
  funext v
  rw [assign]
  by_cases hv : v = l.length
  · rw [if_pos hv, hv, leaves_of_lt (by simp), getElem_concat_length rfl]
  · rw [if_neg hv]
    by_cases hlt : v < l.length
    · rw [leaves_of_lt hlt, leaves_of_lt (by simp; omega), getElem_append_left hlt]
    · have hlen : ¬ v < (l ++ [c]).length := by
        rw [length_append, length_singleton]
        omega
      rw [leaves, leaves, if_neg hlt, if_neg hlen]

theorem cleared_leaves {m n : ℕ} (hm : m + n = l.length) (h : l.length ≤ 2 ^ 26 - 2) :
    cleared (leaves K tf l) m n = leaves K tf (l.take m) := by
  have hlen : (l.take m).length = m := by
    rw [length_take]
    omega
  funext v
  rw [cleared]
  by_cases hv : v < m
  · rw [if_neg (by omega), leaves_of_lt (by omega), leaves_of_lt (by omega), getElem_take]
  · by_cases hin : v < m + n
    · rw [if_pos ⟨by omega, hin⟩, leaves_between (by omega) (by omega)]
    · rw [if_neg (by omega), leaves, leaves, if_neg (by omega), if_neg (by omega)]

end

/-! ## Building and freeing -/

section

variable {tf : ℕ} {l : List Pte} {u : List UserPage} {m : ℕ}

theorem Own.uvmunmap {doFree : Bool}
    (h : Own K s (pt root leaf * ((if doFree then mapped l else 1) * F))) (hl : ∀ c ∈ l, c.IsLeaf)
    (hm : m + l.length ≤ 2 ^ 26) (hleaf : ∀ j (hj : j < l.length), leaf (m + j) = some l[j]) :
    wp (uvmunmap K root (m * PGSIZE) l.length doFree) E s fun _ s' =>
      Own K s' (pt root (cleared leaf m l.length) * F) := by
  rw [Vm.uvmunmap, if_neg (by rw [Nat.mul_mod_left]; exact fun hne => hne rfl)]
  exact h.uvmunmapLoop hl hm hleaf

variable {c : Pte}

theorem Own.uvmunmap_one (h : Own K s (pt root leaf * F)) (hc : c.IsLeaf) (hm : m < 2 ^ 26)
    (hleaf : leaf m = some c) : wp (Vm.uvmunmap K root (m * PGSIZE) 1 false) E s fun _ s' =>
      Own K s' (pt root (cleared leaf m 1) * F) := by
  have h' : Own K s (pt root leaf * ((if false then mapped [c] else 1) * F)) := by
    rw [if_neg Bool.false_ne_true, one_mul]
    exact h
  refine h'.uvmunmap (fun d hd => ?_) hm fun j hj => ?_
  · rw [mem_singleton.mp hd]
    exact hc
  · obtain rfl : j = 0 := Nat.lt_one_iff.mp hj
    exact hleaf

theorem Own.uvmunmap_free (h : Own K s (pt root leaf * (umem u * F)))
    (hl : ∀ c ∈ u.map pte, c.IsLeaf) (hm : m + (u.map pte).length ≤ 2 ^ 26)
    (hleaf : ∀ j (hj : j < (u.map pte).length),
      leaf (m + j) = some (u.map pte)[j]) :
    wp (Vm.uvmunmap K root (m * PGSIZE) (u.map pte).length true) E s fun _ s' =>
      Own K s' (pt root (cleared leaf m (u.map pte).length) * F) := by
  have hmapped : Own K s (pt root leaf * ((if true then mapped (u.map pte) else 1) * F)) := by
    rw [mul_left_comm] at h ⊢
    exact h.mapped_of_umem
  exact hmapped.uvmunmap hl hm hleaf

theorem Own.uvmcreate (h : Own K s F) : wp uvmcreate E s fun r s' => match r with
    | none => Own K s' F | some q => Own K s' (pt q (fun _ => none) * F) := by
  rw [Vm.uvmcreate, wp_bind]
  refine h.kalloc.mono fun r s1 hr => ?_
  match r, hr with
  | none, hr => exact hr
  | some q, hr =>
    rw [wp_bind]
    exact hr.zeroPage.mono fun _ s2 h2 => h2

theorem Own.uvmfree_zero (h : Own K s (pt root (fun _ => none) * F)) :
    wp (uvmfree K root 0) E s fun _ s' => Own K s' F := by
  rw [Vm.uvmfree, if_neg (Nat.lt_irrefl 0)]
  exact h.freewalk

theorem assign_none (v : ℕ) (r : Option Pte) : assign (assign (fun _ => none) v r) v none =
    fun _ => none := by
  funext w
  rw [assign, assign]
  by_cases hw : w = v
  · rw [if_pos hw]
  · rw [if_neg hw, if_neg hw]

theorem leaves_nil : assign (assign (fun _ => none) (TRAMPOLINE / PGSIZE) (some (trampolinePte K)))
    (TRAPFRAME / PGSIZE) (some (trapframePte tf)) = leaves K tf [] := by
  funext v
  have hlen : ¬ v < ([] : List Pte).length := Nat.not_lt_zero v
  rw [leaves, if_neg hlen, top, assign, assign]
  by_cases hv : v = TRAPFRAME / PGSIZE
  · rw [if_pos hv, if_neg (by rw [hv, trampoline_div, trapframe_div]; omega), if_pos hv]
  · rw [if_neg hv, if_neg hv]

theorem Own.procPagetable (h : Own K s F) : wp (procPagetable K tf) E s fun r s' => match r with
    | none => Own K s' F | some q => Own K s' (pt q (leaves K tf []) * F) := by
  rw [Vm.procPagetable, wp_bind]
  refine h.uvmcreate.mono fun r s1 hr => ?_
  match r, hr with
  | none, hr => exact hr
  | some q, hr =>
    rw [wp_bind]
    refine (hr.mappages (by decide) (by decide) rfl).mono fun ok s2 h2 => ?_
    cases ok with
    | false =>
      rw [if_neg Bool.false_ne_true, wp_bind]
      exact h2.uvmfree_zero.mono fun _ s3 h3 => h3
    | true =>
      rw [if_pos rfl] at h2 ⊢
      rw [wp_bind]
      have hnone : assign (fun _ => none) (TRAMPOLINE / PGSIZE) (some (trampolinePte K))
          (TRAPFRAME / PGSIZE) = none := by
        rw [assign, if_neg (by rw [trampoline_div, trapframe_div]; omega)]
      refine (h2.mappages (by decide) (by decide) hnone).mono fun ok s3 h3 => ?_
      cases ok with
      | true =>
        rw [if_pos rfl] at h3 ⊢
        rw [wp_pure, ← leaves_nil]
        exact h3
      | false =>
        rw [if_neg Bool.false_ne_true] at h3 ⊢
        rw [wp_bind]
        refine (h3.uvmunmap_one (c := trampolinePte K) (m := TRAMPOLINE / PGSIZE) rfl
          (by rw [trampoline_div]; omega) (if_pos rfl)).mono fun _ s4 h4 => ?_
        rw [← cleared_succ, cleared_zero, assign_none] at h4
        rw [wp_bind]
        exact h4.uvmfree_zero.mono fun _ s5 h5 => h5

theorem cleared_top (h : l.length ≤ 2 ^ 26 - 2) :
    cleared (cleared (leaves K tf l) (TRAMPOLINE / PGSIZE) 1) (TRAPFRAME / PGSIZE) 1 =
      fun v => l[v]? := by
  funext v
  rw [cleared, cleared, trampoline_div, trapframe_div]
  by_cases hv : v < l.length
  · rw [if_neg (by omega), if_neg (by omega), leaves, if_pos hv]
  · rw [getElem?_eq_none (by omega)]
    by_cases htf : v = 2 ^ 26 - 2
    · rw [if_pos (by omega)]
    · rw [if_neg (by omega)]
      by_cases htr : v = 2 ^ 26 - 1
      · rw [if_pos (by omega)]
      · rw [if_neg (by omega), leaves, if_neg hv, top, trampoline_div, trapframe_div, if_neg htr,
          if_neg htf]

theorem cleared_all : cleared (fun v => l[v]?) 0 l.length = fun _ => none := by
  funext v
  rw [cleared]
  by_cases hv : v < l.length
  · rw [if_pos (by omega)]
  · rw [if_neg (by omega), getElem?_eq_none (by omega)]

theorem PGROUNDUP_zero : PGROUNDUP 0 = 0 := rfl

variable {sz : ℕ}

theorem Own.procFreepagetable (h : Own K s (pt root (leaves K tf (u.map pte)) * (umem u * F)))
    (hu : ∀ p ∈ u, p.pte.IsLeaf) (hsz : PGROUNDUP sz = u.length * PGSIZE)
    (hlen : u.length ≤ 2 ^ 26 - 2) : wp (procFreepagetable K root sz) E s fun _ s' => Own K s' F := by
  have hl : (u.map pte).length = u.length := length_map ..
  rw [Vm.procFreepagetable, wp_bind]
  refine (h.uvmunmap_one (c := trampolinePte K) (m := TRAMPOLINE / PGSIZE) rfl
    (by rw [trampoline_div]; omega) (leaves_trampoline (by omega))).mono fun _ s1 h1 => ?_
  have htf : cleared (leaves K tf (u.map pte)) (TRAMPOLINE / PGSIZE) 1
      (TRAPFRAME / PGSIZE) = some (trapframePte tf) := by
    rw [cleared, if_neg (by rw [trampoline_div, trapframe_div]; omega)]
    exact leaves_trapframe (by omega)
  rw [wp_bind]
  refine (h1.uvmunmap_one (c := trapframePte tf) (m := TRAPFRAME / PGSIZE) rfl
    (by rw [trapframe_div]; omega) htf).mono fun _ s2 h2 => ?_
  rw [cleared_top (by omega)] at h2
  rw [Vm.uvmfree]
  by_cases hz : 0 < sz
  · have hn : PGROUNDUP sz / PGSIZE = (u.map pte).length := by
      rw [hsz, hl, Nat.mul_div_cancel _ (by decide)]
    rw [if_pos hz, wp_bind, hn, ← Nat.zero_mul PGSIZE]
    refine (h2.uvmunmap_free (fun c hc => ?_) (by omega) fun j hj => ?_).mono fun _ s3 h3 => ?_
    · obtain ⟨p, hp, rfl⟩ := mem_map.mp hc
      exact hu p hp
    · rw [Nat.zero_add, getElem?_eq_getElem hj]
    · rw [cleared_all] at h3
      exact h3.freewalk
  · obtain rfl : sz = 0 := by omega
    have hnil : u.length = 0 := by
      rw [PGROUNDUP_zero] at hsz
      exact (Nat.mul_eq_zero.mp hsz.symm).resolve_right (by decide)
    obtain rfl : u = [] := length_eq_zero_iff.mp hnil
    rw [umem_nil, one_mul] at h2
    exact h2.uvmfree_zero

variable {more : List UserPage}

theorem Own.uvmunmap_rest
    (h : Own K s (pt root (leaves K tf ((u ++ more).map pte)) * (umem (u ++ more) * F)))
    (hu : ∀ p ∈ more, p.pte.IsLeaf) (hlen : (u ++ more).length ≤ 2 ^ 26 - 2) :
    wp (Vm.uvmunmap K root (u.length * PGSIZE) more.length true) E s fun _ s' =>
      Own K s' (pt root (leaves K tf (u.map pte)) * (umem u * F)) := by
  have hl : ∀ w : List UserPage, (w.map pte).length = w.length := fun w => length_map ..
  rw [umem_append, mul_assoc, mul_left_comm (umem u)] at h
  rw [length_append] at hlen
  rw [← hl more]
  refine (h.uvmunmap_free (fun c hc => ?_) (by rw [hl]; omega) fun j hj => ?_).mono fun _ s1 h1 => ?_
  · obtain ⟨p, hp, rfl⟩ := mem_map.mp hc
    exact hu p hp
  · rw [hl] at hj
    rw [leaves_of_lt (by rw [hl, length_append]; omega)]
    simp only [getElem_map, getElem_append_right (Nat.le_add_right ..), Nat.add_sub_cancel_left]
  · rw [cleared_leaves (by rw [hl, hl, length_append]) (by rw [hl, length_append]; omega),
      ← hl u, map_append, take_left] at h1
    exact h1

theorem Own.push {data : Idx → Pte}
    (h : Own K s (pt root (assign (leaves K tf (u.map pte)) u.length (some c)) *
      (page c.ppn data * (umem u * F)))) :
    Own K s (pt root (leaves K tf ((u ++ [UserPage.mk c data]).map pte)) *
      (umem (u ++ [UserPage.mk c data]) * F)) := by
  have hl : (u.map pte).length = u.length := length_map ..
  rw [← hl, assign_leaves] at h
  rw [map_append, map_singleton, umem_append, umem_singleton, mul_assoc, mul_left_comm (umem u)]
  exact h

/-! ## `uvmcopy` -/

/-- A copy of a page. -/
structure CopyOf (p p' : UserPage) : Prop where
  perm : p'.pte.perm = p.pte.perm
  valid : p'.pte.v = true
  data : p'.data = p.data

theorem CopyOf.isLeaf {p p' : UserPage} (h : CopyOf p p') (hp : p.pte.IsLeaf) : p'.pte.IsLeaf := by
  rw [Pte.IsLeaf, h.perm]
  exact hp

theorem CopyOf.forall_isLeaf {u u' : List UserPage} (h : List.Forall₂ CopyOf u u')
    (hu : ∀ p ∈ u, p.pte.IsLeaf) : ∀ p' ∈ u', p'.pte.IsLeaf := by
  induction h with
  | nil => exact fun p' hp' => absurd hp' not_mem_nil
  | cons hp _ ih =>
    rw [forall_mem_cons] at hu ⊢
    exact ⟨hp.isLeaf hu.1, ih hu.2⟩

variable {done : List UserPage} {new : ℕ}

theorem Own.uvmcopy_bad {A : Pages}
    (h : Own K s (pt new (leaves K tf (done.map pte)) * (umem done * A)))
    (hu : ∀ p ∈ done, p.pte.IsLeaf) (hlen : done.length ≤ 2 ^ 26 - 2) :
    wp (Vm.uvmunmap K new 0 done.length true) E s fun _ s' =>
      Own K s' (pt new (leaves K tf []) * A) := by
  rw [← Nat.zero_mul PGSIZE]
  refine (Own.uvmunmap_rest (u := []) h hu hlen).mono fun _ s1 h1 => ?_
  rw [umem_nil, one_mul] at h1
  exact h1

variable {old : ℕ} {A B : Pages}

theorem Own.uvmcopyLoop {pre rest : List UserPage}
    (h : Own K s (A * (pt new (leaves K tf (done.map pte)) * (umem done * F))))
    (hA : ∀ mem x, A.Sat mem x → (pt old leaf * (umem (pre ++ rest) * B)).Sat mem x)
    (hcopy : List.Forall₂ CopyOf pre done)
    (hleaf : ∀ j (hj : j < (pre ++ rest).length), leaf j = some (pre ++ rest)[j].pte)
    (hu : ∀ p ∈ pre ++ rest, p.pte.IsLeaf) (hlen : (pre ++ rest).length ≤ 2 ^ 26 - 2) :
    wp (uvmcopyLoop K old new rest.length (pre.length * PGSIZE)) E s fun ok s' =>
      if ok then ∃ done', List.Forall₂ CopyOf (pre ++ rest) done' ∧
        Own K s' (A * (pt new (leaves K tf (done'.map pte)) * (umem done' * F)))
      else Own K s' (A * (pt new (leaves K tf []) * F)) := by
  induction rest generalizing s pre done with
  | nil =>
    rw [length_nil, Vm.uvmcopyLoop, wp_pure, if_pos rfl]
    rw [append_nil] at ⊢
    exact ⟨done, hcopy, h⟩
  | cons p rest ih =>
    have hdone : done.length = pre.length := hcopy.length_eq.symm
    have hlt : pre.length < (pre ++ p :: rest).length := by simp
    have hva : pre.length * PGSIZE < MAXVA := by
      change pre.length * 4096 < 2 ^ 38
      omega
    have hdiv : pre.length * PGSIZE / PGSIZE = pre.length := Nat.mul_div_cancel _ (by decide)
    have hp : leaf pre.length = some p.pte := by
      rw [hleaf pre.length hlt, getElem_append_right le_rfl]
      simp
    have hmem : p ∈ pre ++ p :: rest := by simp
    have hdoneLeaf : ∀ p' ∈ done, p'.pte.IsLeaf :=
      CopyOf.forall_isLeaf hcopy fun q hq => hu q (mem_append_left _ hq)
    -- both ways to fail end with the pages of the copy freed
    have hbad : ∀ s2, Own K s2 (A * (pt new (leaves K tf (done.map pte)) * (umem done * F))) → wp (do
          Vm.uvmunmap K new 0 (pre.length * PGSIZE / PGSIZE) true
          return false) E s2 fun ok s' =>
          if ok then ∃ done', List.Forall₂ CopyOf (pre ++ p :: rest) done' ∧
            Own K s' (A * (pt new (leaves K tf (done'.map pte)) * (umem done' * F)))
          else Own K s' (A * (pt new (leaves K tf []) * F)) := by
      intro s2 h2
      rw [mul_left_comm, mul_left_comm A] at h2
      rw [wp_bind, hdiv, ← hdone]
      refine (h2.uvmcopy_bad hdoneLeaf (by omega)).mono fun _ s3 h3 => ?_
      rw [wp_pure, if_neg Bool.false_ne_true, mul_left_comm]
      exact h3
    have hold := h.imp fun x hx => hA _ x hx
    rw [mul_assoc] at hold
    rw [length_cons, Vm.uvmcopyLoop, wp_bind]
    refine (hold.walk hva).mono ?_
    rintro r s1 ⟨hs, hr⟩
    rw [hdiv] at hr
    subst hs
    cases r with
    | none =>
      rw [hp] at hr
      cases hr
    | some loc =>
      obtain ⟨q, k⟩ := loc
      obtain ⟨hword, hval⟩ := hr.slot_eq (by omega) hp
      simp only [wp_bind, wp_get]
      rw [hword, if_neg (by rw [hval]; exact Bool.noConfusion), wp_bind]
      refine h.kalloc.mono fun r s2 h2 => ?_
      cases r with
      | none => exact hbad s2 h2
      | some mem =>
        have hdata : s2.word p.pte.ppn = p.data := by
          have h3 := h2
          change Own K s2 (held {mem} * _) at h3
          rw [mul_left_comm] at h3
          have h4 := h3.imp fun x hx => hA _ x hx
          rw [mul_assoc, mul_left_comm, mul_assoc] at h4
          exact h4.word_umem hmem
        simp only [wp_bind, wp_get]
        rw [hdata]
        refine h2.fill_page.mono fun _ s3 h3 => ?_
        rw [mul_left_comm A, mul_left_comm] at h3
        have hnone : leaves K tf (done.map pte) (pre.length * PGSIZE / PGSIZE) = none := by
          rw [hdiv]
          exact leaves_between (by rw [length_map]; omega) (by omega)
        refine (h3.mappages hva (Nat.mul_mod_left ..) hnone).mono fun ok s4 h4 => ?_
        rw [mul_left_comm A] at h4
        cases ok with
        | true =>
          rw [if_pos rfl, hdiv, ← hdone] at h4
          have hpush := Own.push (c := ⟨mem, true, p.pte.perm⟩) h4
          rw [mul_left_comm (umem _), mul_left_comm] at hpush
          have hcons : pre ++ p :: rest = (pre ++ [p]) ++ rest := by simp
          have hnext : (pre.length + 1) * PGSIZE = (pre ++ [p]).length * PGSIZE := by simp
          rw [if_pos rfl, ← Nat.succ_mul, Nat.succ_eq_add_one, hnext]
          rw [hcons] at hA hleaf hu hlen ⊢
          exact ih hpush hA (rel_append hcopy (.cons ⟨rfl, rfl, rfl⟩ .nil)) hleaf hu hlen
        | false =>
          rw [if_neg Bool.false_ne_true] at h4 ⊢
          rw [mul_left_comm] at h4
          rw [wp_bind]
          refine h4.held_of_page.kfree.mono fun _ s5 h5 => hbad s5 ?_
          rw [mul_left_comm A, mul_left_comm A]
          exact h5

theorem Own.uvmcopy (h : Own K s (A * (pt new (leaves K tf []) * F)))
    (hA : ∀ mem x, A.Sat mem x → (pt old leaf * (umem u * B)).Sat mem x)
    (hleaf : ∀ j (hj : j < u.length), leaf j = some u[j].pte)
    (hu : ∀ p ∈ u, p.pte.IsLeaf) (hsz : (sz + PGSIZE - 1) / PGSIZE = u.length)
    (hlen : u.length ≤ 2 ^ 26 - 2) : wp (uvmcopy K old new sz) E s fun ok s' =>
      if ok then ∃ u', List.Forall₂ CopyOf u u' ∧
        Own K s' (A * (pt new (leaves K tf (u'.map pte)) * (umem u' * F)))
      else Own K s' (A * (pt new (leaves K tf []) * F)) := by
  have h' : Own K s (A * (pt new (leaves K tf ([].map pte)) * (umem [] * F))) := by
    rw [umem_nil, one_mul]
    exact h
  have hloop := h'.uvmcopyLoop (E := E) hA .nil hleaf hu hlen
  rw [length_nil, Nat.zero_mul] at hloop
  rw [Vm.uvmcopy, hsz]
  exact hloop

/-! ## `uvmalloc` and `uvmdealloc` -/

variable {n : ℕ}

theorem PGROUNDUP_mul (h : n ≤ 2 ^ 26) : PGROUNDUP (n * PGSIZE) = n * PGSIZE := by
  simp only [PGROUNDUP, PGSIZE]
  omega

theorem Own.length_le (h : Own K s (umem u * F)) : u.length ≤ 2 ^ 15 := by
  have hcard := h.mapped_of_umem.card_le
  rw [Multiset.coe_card, length_map, length_map] at hcard
  exact hcard

variable {newsz oldsz : ℕ}

theorem Own.uvmdealloc
    (h : Own K s (pt root (leaves K tf ((u ++ more).map pte)) * (umem (u ++ more) * F)))
    (hu : ∀ p ∈ more, p.pte.IsLeaf) (hle : newsz ≤ oldsz)
    (hold : PGROUNDUP oldsz = (u ++ more).length * PGSIZE)
    (hnew : PGROUNDUP newsz = u.length * PGSIZE) :
    wp (uvmdealloc K root oldsz newsz) E s fun r s' => r = newsz ∧
      Own K s' (pt root (leaves K tf (u.map pte)) * (umem u * F)) := by
  have hlen : (u ++ more).length ≤ 2 ^ 26 - 2 := by
    have hpages := h
    rw [mul_left_comm] at hpages
    have hmax := hpages.length_le
    omega
  have hmore : (PGROUNDUP oldsz - PGROUNDUP newsz) / PGSIZE = more.length := by
    rw [hold, hnew, ← Nat.sub_mul, Nat.mul_div_cancel _ (by decide), length_append,
      Nat.add_sub_cancel_left]
  -- with no pages to free there is nothing to do
  have hsame : PGROUNDUP oldsz ≤ PGROUNDUP newsz →
      Own K s (pt root (leaves K tf (u.map pte)) * (umem u * F)) := by
    intro hround
    have hzero : more.length = 0 := by rw [← hmore, Nat.sub_eq_zero_of_le hround, Nat.zero_div]
    rw [length_eq_zero_iff.mp hzero, append_nil] at h
    exact h
  rw [Vm.uvmdealloc]
  by_cases heq : oldsz ≤ newsz
  · obtain rfl : oldsz = newsz := by omega
    rw [if_pos heq, wp_pure]
    exact ⟨rfl, hsame le_rfl⟩
  · rw [if_neg heq]
    by_cases hlt : PGROUNDUP newsz < PGROUNDUP oldsz
    · rw [if_pos hlt, wp_bind, hmore, hnew]
      exact (h.uvmunmap_rest hu hlen).mono fun _ s' hs' => ⟨rfl, hs'⟩
    · rw [if_neg hlt]
      exact ⟨rfl, hsame (by omega)⟩

/-- A page that `uvmalloc` has mapped: zeroed, with the permissions it was called with. -/
def UserPage.Fresh (perm : Perm) (p : UserPage) : Prop := p.pte.perm = perm ∧ p.data = bytes 0

theorem Own.uvmallocLoop {perm : Perm} {new : List UserPage}
    (h : Own K s (pt root (leaves K tf ((u ++ new).map pte)) * (umem (u ++ new) * F)))
    (hnew : ∀ p ∈ new, p.Fresh perm) (hperm : perm.r = true) :
    wp (uvmallocLoop K root (u.length * PGSIZE) newsz perm n ((u ++ new).length * PGSIZE)) E s
      fun r s' =>
        (r = newsz ∧ ∃ new', new'.length = new.length + n ∧ (∀ p ∈ new', p.Fresh perm) ∧
          Own K s' (pt root (leaves K tf ((u ++ new').map pte)) * (umem (u ++ new') * F))) ∨
        (r = 0 ∧ Own K s' (pt root (leaves K tf (u.map pte)) * (umem u * F))) := by
  induction n generalizing s new with
  | zero =>
    rw [Vm.uvmallocLoop, wp_pure]
    exact .inl ⟨rfl, new, rfl, hnew, h⟩
  | succ n ih =>
    have hlen : (u ++ new).length ≤ 2 ^ 15 := by
      have hpages := h
      rw [mul_left_comm] at hpages
      exact hpages.length_le
    have hulen : u.length ≤ (u ++ new).length := by
      rw [length_append]
      omega
    have hleaf : ∀ p ∈ new, p.pte.IsLeaf := by
      intro p hp
      rw [Pte.IsLeaf, (hnew p hp).1, hperm]
      rfl
    have hva : (u ++ new).length * PGSIZE < MAXVA := by
      change (u ++ new).length * 4096 < 2 ^ 38
      omega
    have hdiv : (u ++ new).length * PGSIZE / PGSIZE = (u ++ new).length :=
      Nat.mul_div_cancel _ (by decide)
    -- both ways to fail end with the new pages freed
    have hbad : ∀ s1, Own K s1 (pt root (leaves K tf ((u ++ new).map pte)) * (umem (u ++ new) * F)) →
        wp (do
          let _ ← Vm.uvmdealloc K root ((u ++ new).length * PGSIZE) (u.length * PGSIZE)
          return 0) E s1 fun r s' =>
          (r = newsz ∧ ∃ new', new'.length = new.length + (n + 1) ∧
            (∀ p ∈ new', p.Fresh perm) ∧ Own K s'
              (pt root (leaves K tf ((u ++ new').map pte)) * (umem (u ++ new') * F))) ∨
          (r = 0 ∧ Own K s' (pt root (leaves K tf (u.map pte)) * (umem u * F))) := by
      intro s1 h1
      rw [wp_bind]
      refine (h1.uvmdealloc hleaf (Nat.mul_le_mul_right _ hulen) (PGROUNDUP_mul (by omega))
        (PGROUNDUP_mul (by omega))).mono ?_
      rintro _ s2 ⟨_, h2⟩
      exact .inr ⟨rfl, h2⟩
    rw [Vm.uvmallocLoop, wp_bind]
    refine h.kalloc.mono fun r s1 h1 => ?_
    cases r with
    | none => exact hbad s1 h1
    | some q =>
      rw [wp_bind]
      refine h1.fill_page.mono fun _ s2 h2 => ?_
      rw [mul_left_comm] at h2
      have hnone : leaves K tf ((u ++ new).map pte) ((u ++ new).length * PGSIZE / PGSIZE) = none := by
        rw [hdiv]
        exact leaves_between (by rw [length_map]) (by omega)
      rw [wp_bind]
      refine (h2.mappages hva (Nat.mul_mod_left ..) hnone).mono fun ok s3 h3 => ?_
      cases ok with
      | true =>
        rw [if_pos rfl, hdiv] at h3
        have hpush := Own.push (c := ⟨q, true, perm⟩) h3
        rw [append_assoc] at hpush
        have hnext : ((u ++ new).length + 1) * PGSIZE =
            (u ++ (new ++ [UserPage.mk ⟨q, true, perm⟩ (bytes 0)])).length * PGSIZE := by
          simp only [length_append, length_singleton, Nat.add_assoc]
        rw [if_pos rfl, ← Nat.succ_mul, Nat.succ_eq_add_one, hnext]
        refine (ih hpush fun p hp => ?_).mono fun r s4 hr => ?_
        · rcases mem_append.mp hp with hp | hp
          · exact hnew p hp
          · rw [mem_singleton.mp hp]
            exact ⟨rfl, rfl⟩
        · rw [length_append, length_singleton, Nat.add_assoc, Nat.add_comm 1] at hr
          exact hr
      | false =>
        rw [if_neg Bool.false_ne_true] at h3 ⊢
        rw [mul_left_comm] at h3
        rw [wp_bind]
        exact h3.held_of_page.kfree.mono fun _ => hbad

theorem Own.uvmalloc {xperm : Perm} (h : Own K s (pt root (leaves K tf (u.map pte)) * (umem u * F)))
    (hsz : PGROUNDUP oldsz = u.length * PGSIZE) (hle : oldsz ≤ newsz) :
    wp (uvmalloc K root oldsz newsz xperm) E s fun r s' =>
      (r = newsz ∧ ∃ new, new.length = (newsz + PGSIZE - 1 - u.length * PGSIZE) / PGSIZE ∧
        (∀ p ∈ new, p.Fresh { xperm with r := true, u := true }) ∧
        Own K s' (pt root (leaves K tf ((u ++ new).map pte)) * (umem (u ++ new) * F))) ∨
      (r = 0 ∧ Own K s' (pt root (leaves K tf (u.map pte)) * (umem u * F))) := by
  have h' : Own K s (pt root (leaves K tf ((u ++ []).map pte)) * (umem (u ++ []) * F)) := by
    rw [append_nil]
    exact h
  rw [Vm.uvmalloc, if_neg (by omega)]
  simp only [hsz]
  have hloop : wp (Vm.uvmallocLoop K root (u.length * PGSIZE) newsz { xperm with r := true, u := true }
      ((newsz + PGSIZE - 1 - u.length * PGSIZE) / PGSIZE) ((u ++ []).length * PGSIZE)) E s _ :=
    h'.uvmallocLoop (fun p hp => absurd hp not_mem_nil) rfl
  rw [append_nil] at hloop
  refine hloop.mono fun r s' hr => ?_
  rw [length_nil, Nat.zero_add] at hr
  exact hr

end

end Xv6.Vm
