import Mathlib.Data.Finset.Interval
import Mathlib.Order.Interval.Finset.Nat
import Xv6.Lib.Hoare
import Xv6.Lib.Sep
import Xv6.Lib.Writes
import Xv6.Vm.UserMem

/-!
# Physical pages

Model of `kernel/kalloc.c`: physical memory by pages of 512 words, each read as a page-table entry, and
the list of free pages. Any `kalloc` may fail. `Acc` says that the free pages and the pages somebody has
are all the pages of the allocator, each once; `Own` says what those who have them know about them.
-/

namespace Xv6.Vm

open Lib Multiset

-- the flags and the indices of entries are written as numerals
instance neZero32 : NeZero 32 := ⟨by decide⟩
instance neZero512 : NeZero 512 := ⟨by decide⟩

/-- The flags of an entry but `PTE_V`: `PTE_R`, `PTE_W`, `PTE_X`, `PTE_U`, and bits 5 to 9. -/
structure Perm where
  r : Bool
  w : Bool
  x : Bool
  u : Bool
  rest : Fin 32
deriving DecidableEq

/-- A word of memory, read as a page-table entry; `v` is `PTE_V`. -/
structure Pte where
  ppn : ℕ
  v : Bool
  perm : Perm
deriving DecidableEq

/-- The entry in a word. -/
def Pte.ofWord (w : ℕ) : Pte where
  ppn := w / 2 ^ 10
  v := w.testBit 0
  perm := ⟨w.testBit 1, w.testBit 2, w.testBit 3, w.testBit 4, Fin.ofNat 32 (w / 2 ^ 5)⟩

/-- Index into a page table. -/
abbrev Idx := Fin 512

/-- The first page of memory: `KERNBASE / PGSIZE` -/
abbrev KERNBASE : ℕ := 0x80000

/-- One beyond the last page of memory: `PHYSTOP / PGSIZE` -/
abbrev PHYSTOP : ℕ := 0x88000

/-- Where the kernel is in memory: the page of `trampoline`, and the first page after `end`. -/
structure Image where
  trampoline : ℕ
  first : ℕ
  base_le : KERNBASE ≤ trampoline
  trampoline_lt : trampoline < first

/-- The pages of the allocator. -/
def Image.pages (K : Image) : Finset ℕ := Finset.Ico K.first PHYSTOP

/-- Physical memory: its words, the free pages, and which of the next `kalloc`s are to fail. -/
structure Ram where
  word : ℕ → Idx → Pte
  free : List ℕ
  oom : List Bool

/-- The panics, by their messages. -/
inductive Panic where
  /-- "kfree" -/
  | kfree
  /-- "walk" -/
  | walk
  /-- "mappages: size" -/
  | mapSize
  /-- "mappages: remap" -/
  | remap
  /-- "uvmunmap: not aligned" -/
  | unmapAlign
  /-- "uvmunmap: walk" -/
  | unmapWalk
  /-- "uvmunmap: not mapped" -/
  | unmapNotMapped
  /-- "uvmunmap: not a leaf" -/
  | unmapNotLeaf
  /-- "freewalk: leaf" -/
  | freewalkLeaf
  /-- not a panic: `freewalk` calls itself more often than a page table has levels -/
  | freewalkDeep
  /-- "uvmcopy: pte should exist" -/
  | uvmcopyPte
  /-- "uvmcopy: page not present" -/
  | uvmcopyPresent
  /-- "uvmclear" -/
  | uvmclear
  /-- "loadseg: address should exist" -/
  | loadseg
  /-- "filedup" -/
  | filedup
  /-- "fileclose" -/
  | fileclose
  /-- "init exiting" -/
  | initExiting
  /-- not a panic: the kernel uses a null pointer -/
  | null
deriving DecidableEq

/-- Computations of the virtual memory code. -/
abbrev VM (α : Type) := StateT Ram (Except Panic) α

/-- Write a word of page `q`. -/
def store (q : ℕ) (i : Idx) (pte : Pte) : VM Unit :=
  modify fun s => { s with word := assign s.word q (assign (s.word q) i pte) }

/-- Fill page `q`. -/
def fill (q : ℕ) (page : Idx → Pte) : VM Unit :=
  modify fun s => { s with word := assign s.word q page }

/-- A page of which every byte is `b`. -/
def bytes (b : ℕ) : Idx → Pte := fun _ => .ofWord (b * 0x0101010101010101)

/-- `memset(pa, 0, PGSIZE)` -/
def zeroPage (q : ℕ) : VM Unit := fill q (bytes 0)

/-- `kalloc`: the page number, if there is a page; it is filled with junk. -/
def kalloc : VM (Option ℕ) := do
  let s ← get
  match s.oom.head?, s.free with
  | some true, _ => do
      set { s with oom := s.oom.tail }
      return none
  | _, [] => do
      set { s with oom := s.oom.tail }
      return none
  | _, q :: free => do
      set { word := assign s.word q (bytes 5), free := free, oom := s.oom.tail : Ram }
      return some q

/-- `kfree` of page `q`. -/
def kfree (K : Image) (q : ℕ) : VM Unit := do
  if q < K.first ∨ PHYSTOP ≤ q then throw .kfree
  else modify fun s => { s with word := assign s.word q (bytes 1), free := q :: s.free }

/-! ## The pages that somebody has -/

/-- The free pages and the pages `x` are the pages of the allocator. -/
def Acc (K : Image) (s : Ram) (x : Multiset ℕ) : Prop := (s.free : Multiset ℕ) + x = K.pages.val

/-- The pages `x` are as they were. -/
def Same (s s' : Ram) (x : Multiset ℕ) : Prop := ∀ q ∈ x, s'.word q = s.word q

variable {K : Image} {s s' s'' : Ram} {x y : Multiset ℕ} {q : ℕ} {E : Panic → Prop}

theorem Same.refl (s : Ram) (x : Multiset ℕ) : Same s s x := fun _ _ => rfl

theorem Same.trans (h : Same s s' x) (h' : Same s' s'' x) : Same s s'' x := fun q hq =>
  (h' q hq).trans (h q hq)

theorem Same.mono (h : Same s s' x) (hle : ∀ q ∈ y, q ∈ x) : Same s s' y := fun q hq =>
  h q (hle q hq)

theorem Acc.nodup (h : Acc K s x) : x.Nodup := by
  have hall : ((s.free : Multiset ℕ) + x).Nodup := by
    rw [show (s.free : Multiset ℕ) + x = K.pages.val from h]
    exact K.pages.nodup
  exact (nodup_add.mp hall).2.1

theorem Acc.mem (h : Acc K s x) (hq : q ∈ x) : K.first ≤ q ∧ q < PHYSTOP := by
  have hmem : q ∈ K.pages := by
    rw [← Finset.mem_val, ← show (s.free : Multiset ℕ) + x = K.pages.val from h]
    exact mem_add.mpr (.inr hq)
  exact Finset.mem_Ico.mp hmem

theorem Acc.card_le (h : Acc K s x) : x.card ≤ 2 ^ 15 := by
  have hcard := congrArg card h
  rw [card_add, ← Finset.card_def, Image.pages, Nat.card_Ico] at hcard
  have h1 : 0x80000 ≤ K.trampoline := K.base_le
  have h2 := K.trampoline_lt
  change _ = 0x88000 - K.first at hcard
  omega

theorem Acc.cons_ne (h : Acc K s (q ::ₘ x)) {r : ℕ} (hr : r ∈ x) : r ≠ q := by
  rintro rfl
  exact (nodup_cons.mp h.nodup).1 hr

/-- The free pages and the pages `x` are the pages `all`, each once. -/
structure Split (all : Multiset ℕ) (s : Ram) (x : Multiset ℕ) : Prop where
  sum : (s.free : Multiset ℕ) + x = all
  once : all.Nodup

theorem Acc.split (h : Acc K s x) : Split K.pages.val s x := ⟨h, K.pages.nodup⟩

section

variable {all : Multiset ℕ}

theorem Split.nodup (h : Split all s x) : x.Nodup := by
  have hall := h.once
  rw [← h.sum] at hall
  exact (nodup_add.mp hall).2.1

theorem Split.cons_ne (h : Split all s (q ::ₘ x)) {r : ℕ} (hr : r ∈ x) : r ≠ q := by
  rintro rfl
  exact (nodup_cons.mp h.nodup).1 hr

theorem kalloc_split (h : Split all s x) : wp kalloc E s fun r s' => Same s s' x ∧ match r with
    | none => Split all s' x | some q => Split all s' (q ::ₘ x) := by
  simp only [kalloc, wp_bind, wp_get]
  split
  · rw [wp_bind, wp_set, wp_pure]
    exact ⟨fun _ _ => rfl, h.sum, h.once⟩
  · rw [wp_bind, wp_set, wp_pure]
    exact ⟨fun _ _ => rfl, h.sum, h.once⟩
  · next q free hfree _ =>
    rw [wp_bind, wp_set, wp_pure]
    have hsplit : Split all ⟨assign s.word q (bytes 5), free, s.oom.tail⟩ (q ::ₘ x) := by
      have h' := h.sum
      rw [hfree, ← cons_coe, cons_add] at h'
      exact ⟨(add_cons ..).trans h', h.once⟩
    exact ⟨fun r hr => if_neg (hsplit.cons_ne hr), hsplit⟩

end

theorem kalloc_spec (h : Acc K s x) : wp kalloc E s fun r s' => Same s s' x ∧ match r with
    | none => Acc K s' x | some q => Acc K s' (q ::ₘ x) := by
  refine (kalloc_split h.split).mono fun r s' ⟨hsame, hr⟩ => ⟨hsame, ?_⟩
  cases r with
  | none => exact hr.sum
  | some q => exact hr.sum

theorem kfree_spec (h : Acc K s (q ::ₘ x)) : wp (kfree K q) E s fun _ s' =>
    Same s s' x ∧ Acc K s' x := by
  obtain ⟨hlo, hhi⟩ := h.mem (mem_cons_self q x)
  rw [kfree, if_neg (by omega), wp_modify]
  refine ⟨fun r hr => if_neg (h.cons_ne hr), ?_⟩
  have h' : (s.free : Multiset ℕ) + q ::ₘ x = K.pages.val := h
  rw [add_cons, ← cons_add] at h'
  exact h'

theorem fill_spec {page : Idx → Pte} (h : Acc K s (q ::ₘ x)) : wp (fill q page) E s fun _ s' =>
    Same s s' x ∧ Acc K s' (q ::ₘ x) ∧ s'.word q = page := by
  rw [fill, wp_modify]
  exact ⟨fun r hr => if_neg (h.cons_ne hr), h, if_pos rfl⟩

/-! ## What is known about them -/

/-- Assertions about physical pages. -/
abbrev Pages := Assn (Idx → Pte)

/-- The pages `x`, with any contents. -/
abbrev held (x : Multiset ℕ) : Pages := Assn.pages _ x

/-- The pages that are not free are as `A` says. -/
def Own (K : Image) (s : Ram) (A : Pages) : Prop := ∃ x, Acc K s x ∧ A.Sat s.word x

variable {A B F : Pages}

theorem Same.sat (h : Same s s' x) (hA : A.Sat s.word x) : A.Sat s'.word x := A.frame hA h

theorem own_mul : Own K s (A * F) ↔ ∃ x y, Acc K s (x + y) ∧ A.Sat s.word x ∧ F.Sat s.word y := by
  constructor
  · rintro ⟨_, hacc, x, y, rfl, hA, hF⟩
    exact ⟨x, y, hacc, hA, hF⟩
  · rintro ⟨x, y, hacc, hA, hF⟩
    exact ⟨x + y, hacc, hA.mul hF⟩

theorem own_held : Own K s (held x * F) ↔ ∃ y, Acc K s (x + y) ∧ F.Sat s.word y := by
  rw [own_mul]
  constructor
  · rintro ⟨_, y, hacc, rfl, hF⟩
    exact ⟨y, hacc, hF⟩
  · rintro ⟨y, hacc, hF⟩
    exact ⟨x, y, hacc, rfl, hF⟩

theorem own_page : Own K s (held {q} * F) ↔ ∃ y, Acc K s (q ::ₘ y) ∧ F.Sat s.word y := by
  simp only [own_held, singleton_add]

theorem Own.imp (h : Own K s (A * F)) (hAB : ∀ x, A.Sat s.word x → B.Sat s.word x) :
    Own K s (B * F) := by
  obtain ⟨x, y, hacc, hA, hF⟩ := own_mul.mp h
  exact own_mul.mpr ⟨x, y, hacc, hAB x hA, hF⟩

theorem Own.card_le (h : Own K s (held x * F)) : x.card ≤ 2 ^ 15 := by
  obtain ⟨y, hacc, -⟩ := own_held.mp h
  have hle := hacc.card_le
  rw [card_add] at hle
  omega

theorem Own.kalloc (h : Own K s F) : wp kalloc E s fun r s' => match r with
    | none => Own K s' F | some q => Own K s' (held {q} * F) := by
  obtain ⟨x, hacc, hF⟩ := h
  refine (kalloc_spec hacc).mono fun r s' ⟨hsame, hr⟩ => ?_
  cases r with
  | none => exact ⟨x, hr, hsame.sat hF⟩
  | some q => exact own_page.mpr ⟨x, hr, hsame.sat hF⟩

theorem Own.kfree (h : Own K s (held {q} * F)) : wp (kfree K q) E s fun _ s' => Own K s' F := by
  obtain ⟨x, hacc, hF⟩ := own_page.mp h
  exact (kfree_spec hacc).mono fun _ s' ⟨hsame, hr⟩ => ⟨x, hr, hsame.sat hF⟩

end Xv6.Vm
