import Mathlib.Data.Fintype.BigOperators

/-!
# Radix trees in memory

A table of `n` levels is a tree whose nodes are pages of memory: a page has one cell for each index, and a
cell is empty, or points to the page of a table of one level less, or, at the last level, holds a value.
`Radix` is the tree, `Radix.Rep` says that memory holds it, and `nodes` are its pages. `Rep.congr` is the
frame rule, `Rep.update` replaces one entry of a node, and `Rep.set` writes the last cell of a path.
-/

namespace Xv6.Lib

open Multiset Function

/-- Tables of `n` levels over the indices `ι`, with cells of type `C`. -/
inductive Radix (ι C : Type) : ℕ → Type where
  | empty {n : ℕ} : Radix ι C n
  | value (c : C) : Radix ι C 0
  | node {n : ℕ} (page : ℕ) (entry : ι → Radix ι C n) : Radix ι C (n + 1)

namespace Radix

variable {ι C : Type} {n : ℕ}

/-- The value at a path. -/
def lookup : {n : ℕ} → Radix ι C n → List ι → Option C
  | _, node _ entry, i :: p => (entry i).lookup p
  | _, value c, _ => some c
  | _, _, _ => none

/-- The page and the index of the cell at a path. -/
def cell : {n : ℕ} → Radix ι C n → List ι → Option (ℕ × ι)
  | _, node page _, [i] => some (page, i)
  | _, node _ entry, i :: p => (entry i).cell p
  | _, _, _ => none

section

variable [Fintype ι] [DecidableEq ι]

/-- The pages of the nodes. -/
def nodes : {n : ℕ} → Radix ι C n → Multiset ℕ
  | _, empty => 0
  | _, value _ => 0
  | _, node page entry => page ::ₘ ∑ i, (entry i).nodes

/-- The pages below a node, except those below its entry `i`. -/
def siblings (entry : ι → Radix ι C n) (i : ι) : Multiset ℕ :=
  ∑ j ∈ Finset.univ.erase i, (entry j).nodes

omit [DecidableEq ι] in
theorem nodes_empty : (empty : Radix ι C n).nodes = 0 := by
  cases n <;> rfl

omit [DecidableEq ι] in
/-- A node without entries. -/
theorem nodes_blank (page : ℕ) : (node page fun _ => empty : Radix ι C (n + 1)).nodes = {page} := by
  rw [nodes, Finset.sum_eq_zero fun _ _ => nodes_empty]
  rfl

omit [DecidableEq ι] in
theorem page_mem_nodes (page : ℕ) (entry : ι → Radix ι C n) : page ∈ (node page entry).nodes :=
  mem_cons_self ..

theorem nodes_node (page : ℕ) (entry : ι → Radix ι C n) (i : ι) :
    (node page entry).nodes = (entry i).nodes + page ::ₘ siblings entry i := by
  rw [nodes, siblings, ← Finset.add_sum_erase _ _ (Finset.mem_univ i), add_cons]

theorem nodes_update (page : ℕ) (entry : ι → Radix ι C n) (i : ι) (t : Radix ι C n) :
    (node page (Function.update entry i t)).nodes = t.nodes + page ::ₘ siblings entry i := by
  rw [nodes_node page _ i, update_self, siblings, siblings]
  congr 2
  refine Finset.sum_congr rfl fun j hj => ?_
  rw [update_of_ne (Finset.ne_of_mem_erase hj)]

variable {entry : ι → Radix ι C n} {q : ℕ}

theorem mem_siblings {i j : ι} (h : j ≠ i) (hq : q ∈ (entry j).nodes) : q ∈ siblings entry i := by
  rw [siblings]
  exact mem_sum.mpr ⟨j, Finset.mem_erase.mpr ⟨h, Finset.mem_univ j⟩, hq⟩

/-- A page of an entry is another page than the node's, and than those of the other entries. -/
theorem ne_of_nodup {page : ℕ} (h : (node page entry).nodes.Nodup) {i : ι}
    (hq : q ∈ (entry i).nodes) : q ≠ page ∧ q ∉ siblings entry i := by
  rw [nodes_node page entry i, nodup_add] at h
  have hnot := disjoint_left.mp h.2.2 hq
  rw [mem_cons, not_or] at hnot
  exact hnot

end

/-! ## Memory -/

variable (Empty : C → Prop) (ptr : ℕ → C)

/-- The cell `c` of memory `mem` refers to the tree. -/
def Rep (mem : ℕ → ι → C) : {n : ℕ} → Radix ι C n → C → Prop
  | _, empty, c => Empty c
  | _, value c', c => c = c' ∧ ¬ Empty c
  | _, node page entry, c => c = ptr page ∧ ∀ i, (entry i).Rep mem (mem page i)

variable {Empty ptr} {mem mem' : ℕ → ι → C} {page : ℕ} {entry : ι → Radix ι C n} {c c' : C} {i : ι}

variable {t : Radix ι C n}

/-- What an empty cell refers to. -/
theorem Rep.eq_empty (hptr : ∀ q, ¬ Empty (ptr q)) (h : t.Rep Empty ptr mem c)
    (hc : Empty c) : t = empty := by
  cases t with
  | empty => rfl
  | value c' => exact absurd hc h.2
  | node page entry =>
    rw [h.1] at hc
    exact absurd hc (hptr page)

variable [Fintype ι] [DecidableEq ι]

/-- **The frame rule.** A tree depends on its own pages only. -/
theorem Rep.congr (h : t.Rep Empty ptr mem c)
    (heq : ∀ q ∈ t.nodes, mem' q = mem q) : t.Rep Empty ptr mem' c := by
  induction t generalizing c with
  | empty => exact h
  | value c' => exact h
  | node page entry ih =>
    refine ⟨h.1, fun i => ?_⟩
    rw [heq page (mem_cons_self ..)]
    refine ih i (h.2 i) fun q hq => heq q ?_
    rw [nodes_node page entry i]
    exact mem_add.mpr (.inl hq)

/-- One entry of a node is replaced. -/
theorem Rep.update (h : (node page entry).Rep Empty ptr mem c)
    (ht : t.Rep Empty ptr mem' (mem' page i)) (hpage : ∀ j, j ≠ i → mem' page j = mem page j)
    (hsib : ∀ q ∈ siblings entry i, mem' q = mem q) :
    (node page (Function.update entry i t)).Rep Empty ptr mem' c := by
  refine ⟨h.1, fun j => ?_⟩
  by_cases hj : j = i
  · subst hj
    rw [update_self]
    exact ht
  · rw [update_of_ne hj, hpage j hj]
    exact (h.2 j).congr fun q hq => hsib q (mem_siblings hj hq)

/-- An entry changes and the node does not. -/
theorem Rep.update_below (h : (node page entry).Rep Empty ptr mem c)
    (ht : t.Rep Empty ptr mem' (mem page i)) (hpage : mem' page = mem page)
    (hsib : ∀ q ∈ siblings entry i, mem' q = mem q) :
    (node page (Function.update entry i t)).Rep Empty ptr mem' c :=
  h.update (by rw [hpage]; exact ht) (fun j _ => by rw [hpage]) hsib

/-! ## The cell at a path -/

/-- Store a value, or none, at a path. -/
def set : {n : ℕ} → Radix ι C n → List ι → Radix ι C 0 → Radix ι C n
  | 0, _, _, v => v
  | _ + 1, node page entry, i :: p, v =>
    node page (Function.update entry i ((entry i).set p v))
  | _ + 1, t, _, _ => t

omit [Fintype ι] in
theorem set_zero (t : Radix ι C 0) (p : List ι) (v : Radix ι C 0) : t.set p v = v := by
  cases t with
  | empty => rfl
  | value c => rfl

omit [Fintype ι] in
theorem lookup_update (page : ℕ) (entry : ι → Radix ι C n) (i : ι) (t : Radix ι C n) (j : ι)
    (p : List ι) : (node page (Function.update entry i t)).lookup (j :: p) =
      if j = i then t.lookup p else (node page entry).lookup (j :: p) := by
  change (Function.update entry i t j).lookup p = _
  by_cases hj : j = i
  · rw [if_pos hj, hj, update_self]
  · rw [if_neg hj, update_of_ne hj]
    rfl

theorem nodes_set (t : Radix ι C n) (p : List ι) (v : Radix ι C 0) : (t.set p v).nodes = t.nodes := by
  have hzero : ∀ u : Radix ι C 0, u.nodes = 0 := fun u => by cases u <;> rfl
  induction t generalizing p with
  | @empty n =>
    cases n with
    | zero => rw [set_zero, hzero, hzero]
    | succ n => rfl
  | value c => rw [set_zero, hzero, hzero]
  | node page entry ih =>
    cases p with
    | nil => rfl
    | cons i p =>
      rw [set, nodes_update, ih i, ← nodes_node page entry i]

omit [Fintype ι] [DecidableEq ι] in
/-- A path as long as the tree is deep, seen at the first node: it ends there or goes on below. -/
theorem cell_node {q : ℕ} {k : ι} {p : List ι} (hp : p.length = n + 1)
    (h : (node page entry).cell p = some (q, k)) :
    (n = 0 ∧ p = [k] ∧ q = page) ∨
      ∃ i r, p = i :: r ∧ r.length = n ∧ (entry i).cell r = some (q, k) := by
  match p, hp, h with
  | [i], hp, h =>
    obtain ⟨rfl, rfl⟩ := Prod.mk.inj (Option.some.inj h)
    refine .inl ⟨?_, rfl, rfl⟩
    rw [List.length_singleton] at hp
    omega
  | i :: j :: r, hp, h =>
    rw [List.length_cons] at hp
    exact .inr ⟨i, j :: r, rfl, by omega, h⟩

variable {p : List ι}

omit [Fintype ι] [DecidableEq ι] in
theorem cell_cons {i : ι} (hp : p ≠ []) : (node page entry).cell (i :: p) = (entry i).cell p := by
  cases p with
  | nil => exact absurd rfl hp
  | cons j p => rfl

omit [Fintype ι] [DecidableEq ι] in
theorem cell_empty (p : List ι) : (empty : Radix ι C n).cell p = none := by
  cases n <;> rfl

omit [Fintype ι] in
theorem cell_update (page : ℕ) (entry : ι → Radix ι C n) (i : ι) (t : Radix ι C n) (j : ι)
    (hp : p ≠ []) : (node page (Function.update entry i t)).cell (j :: p) =
      if j = i then t.cell p else (node page entry).cell (j :: p) := by
  rw [cell_cons hp, cell_cons hp]
  by_cases hj : j = i
  · rw [if_pos hj, hj, update_self]
  · rw [if_neg hj, update_of_ne hj]

omit [Fintype ι] in
/-- The cells are where they were. -/
theorem cell_set (t : Radix ι C n) (p p' : List ι) (v : Radix ι C 0) :
    (t.set p v).cell p' = t.cell p' := by
  have hzero : ∀ (u : Radix ι C 0) (r : List ι), u.cell r = none := fun u r => by cases u <;> rfl
  induction t generalizing p p' with
  | @empty n =>
    cases n with
    | zero => rw [set_zero, hzero, hzero]
    | succ n => rfl
  | value c => rw [set_zero, hzero, hzero]
  | node page entry ih =>
    match p, p' with
    | [], p' => rfl
    | i :: p, [] => rfl
    | i :: p, [j] => rfl
    | i :: p, j :: k :: p' =>
      have hne : k :: p' ≠ [] := List.cons_ne_nil k p'
      rw [set, cell_update page entry i _ j hne, ih i]
      by_cases hj : j = i
      · rw [if_pos hj, cell_cons hne, hj]
      · rw [if_neg hj]

omit [Fintype ι] [DecidableEq ι] in
/-- Where there is no cell there is no value. -/
theorem lookup_of_cell_eq_none {t : Radix ι C (n + 1)} {p : List ι} (hp : p.length = n + 1)
    (h : t.cell p = none) : t.lookup p = none := by
  induction n generalizing p with
  | zero =>
    match t, p, hp with
    | empty, [i], _ => rfl
    | node page entry, [i], _ => cases h
  | succ n ih =>
    match t, p, hp with
    | empty, _ :: _, _ => rfl
    | node page entry, i :: j :: p, hp => exact ih (Nat.succ.inj hp) h

variable {k : ι}

theorem mem_nodes_of_cell {q : ℕ} (hp : p.length = n) (h : t.cell p = some (q, k)) : q ∈ t.nodes := by
  induction t generalizing p with
  | empty => rw [cell_empty] at h; cases h
  | value c => cases h
  | node page entry ih =>
    rcases cell_node hp h with ⟨_, _, rfl⟩ | ⟨i, r, rfl, hr, hcell⟩
    · exact mem_cons_self ..
    · rw [nodes_node page entry i]
      exact mem_add.mpr (.inl (ih i hr hcell))

omit [Fintype ι] [DecidableEq ι] in
/-- A table of no levels, as the content of a cell. -/
theorem Rep.lookup_nil {t : Radix ι C 0} (h : t.Rep Empty ptr mem c) :
    (t.lookup [] = none ∧ Empty c) ∨ (t.lookup [] = some c ∧ ¬ Empty c) := by
  cases t with
  | empty => exact .inl ⟨rfl, h⟩
  | value c' => exact .inr ⟨by rw [h.1]; rfl, h.2⟩

omit [Fintype ι] [DecidableEq ι] in
/-- The cell at a path holds what is found there. -/
theorem Rep.lookup_cell {t : Radix ι C n} {p : List ι} {q : ℕ} {k : ι}
    (h : t.Rep Empty ptr mem c) (hp : p.length = n) (hcell : t.cell p = some (q, k)) :
    (t.lookup p = none ∧ Empty (mem q k)) ∨ (t.lookup p = some (mem q k) ∧ ¬ Empty (mem q k)) := by
  induction t generalizing p c with
  | empty => rw [cell_empty] at hcell; cases hcell
  | value c => cases hcell
  | node page entry ih =>
    rcases cell_node hp hcell with ⟨rfl, rfl, rfl⟩ | ⟨i, r, rfl, hr, hcell⟩
    · exact (h.2 k).lookup_nil
    · exact ih i (h.2 i) hr hcell

/-- **Writing the cell at a path.** -/
theorem Rep.set {q : ℕ} {v : Radix ι C 0}
    (h : t.Rep Empty ptr mem c) (hnodup : t.nodes.Nodup) (hp : p.length = n)
    (hcell : t.cell p = some (q, k)) (hv : v.Rep Empty ptr mem' (mem' q k))
    (hpage : ∀ j, j ≠ k → mem' q j = mem q j) (hother : ∀ r, r ≠ q → mem' r = mem r) :
    (t.set p v).Rep Empty ptr mem' c := by
  induction t generalizing p c with
  | empty => rw [cell_empty] at hcell; cases hcell
  | value c => cases hcell
  | node page entry ih =>
    rcases cell_node hp hcell with ⟨rfl, rfl, rfl⟩ | ⟨i, r, rfl, hr, hcell⟩
    · refine h.update (by rw [set_zero]; exact hv) hpage fun r hr => hother r ?_
      rintro rfl
      rw [nodes_node _ entry k, nodup_add, nodup_cons] at hnodup
      exact hnodup.2.1.1 hr
    · have hq := mem_nodes_of_cell hr hcell
      obtain ⟨hne, hsib⟩ := ne_of_nodup hnodup hq
      have hbelow : (entry i).nodes.Nodup := by
        rw [nodes_node page entry i, nodup_add] at hnodup
        exact hnodup.1
      refine h.update_below (ih i (h.2 i) hbelow hr hcell) (hother page hne.symm) fun r hr => ?_
      refine hother r ?_
      rintro rfl
      exact hsib hr

omit [Fintype ι] in
/-- What is found after a cell is written. -/
theorem lookup_set {t : Radix ι C n} {p p' : List ι} {q : ℕ} {k : ι} {v : Radix ι C 0}
    (hp : p.length = n) (hp' : p'.length = n) (hcell : t.cell p = some (q, k)) :
    (t.set p v).lookup p' = if p' = p then v.lookup [] else t.lookup p' := by
  induction t generalizing p p' with
  | empty => rw [cell_empty] at hcell; cases hcell
  | value c => cases hcell
  | @node n page entry ih =>
    obtain ⟨j, r', rfl⟩ : ∃ j r', p' = j :: r' := by
      cases p' with
      | nil => cases hp'
      | cons j r' => exact ⟨j, r', rfl⟩
    rw [List.length_cons, Nat.add_right_cancel_iff] at hp'
    rcases cell_node hp hcell with ⟨rfl, rfl, rfl⟩ | ⟨i, r, rfl, hr, hcell⟩
    · obtain rfl := List.length_eq_zero_iff.mp hp'
      rw [set, lookup_update]
      by_cases hj : j = k
      · rw [if_pos hj, if_pos (by rw [hj]), set_zero]
      · rw [if_neg hj, if_neg fun he => hj (List.cons.inj he).1]
    · rw [set, lookup_update]
      by_cases hj : j = i
      · rw [if_pos hj, ih i hr hp' hcell, hj]
        by_cases hr' : r' = r
        · rw [if_pos hr', if_pos (by rw [hr'])]
        · rw [if_neg hr', if_neg fun he => hr' (List.cons.inj he).2]
          rfl
      · rw [if_neg hj, if_neg fun he => hj (List.cons.inj he).1]

/- From here on only the lemmas count: a sum over many indices must not be computed. -/
attribute [irreducible] nodes siblings

end Radix

end Xv6.Lib
