import Xv6.Lib.Radix
import Xv6.Vm.PageTable

/-!
# What a page table maps

`pt root leaf`: the page table at page `root` maps page `v` of the address space by the entry `leaf v`. It
is a radix tree of three levels in memory, and owns the pages of its nodes. This module gives `walk`,
`mappages`, `uvmunmap` and `freewalk` their specifications in these terms.
-/

namespace Xv6.Vm

open Lib Multiset Function
open Radix (siblings node nodes_update cell_cons nodes_node nodes_blank)

/-- Page tables of `n` levels. -/
abbrev Tree (n : ℕ) := Radix Idx Pte n

/-- `PTE_V` is clear. -/
def Pte.Invalid (c : Pte) : Prop := c.v = false

theorem not_invalid_ptr (q : ℕ) : ¬ (Pte.ptr q).Invalid := Bool.noConfusion

/-- The entry `c` refers to the tree. -/
abbrev Holds (s : Ram) {n : ℕ} (t : Tree n) (c : Pte) : Prop := t.Rep Pte.Invalid Pte.ptr s.word c

variable {K : Image} {all : Multiset ℕ} {s s' s'' : Ram} {x : Multiset ℕ} {n : ℕ}
  {E : Panic → Prop}

/-- The indices that `walk` takes from `level` down. -/
def walkPath (va : ℕ) : ℕ → List Idx
  | 0 => [PX 0 va]
  | level + 1 => PX (level + 1) va :: walkPath va level

theorem length_walkPath (va level : ℕ) : (walkPath va level).length = level + 1 := by
  induction level with
  | zero => rfl
  | succ level ih => rw [walkPath, List.length_cons, ih]

/-- The nodes of `t'` are those of `t`, where they were, and pages that were free. Entries have been
written; the others are as they were, and zero in the new nodes. The pages `x` have not changed. -/
structure Added (all : Multiset ℕ) (s s' : Ram) (x : Multiset ℕ) (t t' : Tree n) : Prop where
  same : Same s s' x
  split : Split all s' (t'.nodes + x)
  nodes : t.nodes ≤ t'.nodes
  word : ∀ q ∈ t'.nodes, ∀ i, (s'.word q i).v = true ∨
    s'.word q i = if q ∈ t.nodes then s.word q i else .ofWord 0
  cell : ∀ p, p.length = n →
    t'.cell p = t.cell p ∨ t.cell p = none ∧ ∀ q k, t'.cell p = some (q, k) → q ∉ t.nodes

variable {t : Tree n}

theorem Added.refl (h : Split all s (t.nodes + x)) : Added all s s x t t :=
  ⟨Same.refl s x, h, le_rfl, fun _ hq _ => .inr (if_pos hq).symm, fun _ _ => .inl rfl⟩

variable {t' t'' : Tree n}

theorem Added.trans (h : Added all s s' x t t') (h' : Added all s' s'' x t' t'') :
    Added all s s'' x t t'' := by
  refine ⟨h.same.trans h'.same, h'.split, h.nodes.trans h'.nodes, fun q hq i => ?_, fun p hp => ?_⟩
  · rcases h'.word q hq i with hv | hw
    · exact .inl hv
    · by_cases hq' : q ∈ t'.nodes
      · rw [hw, if_pos hq']
        exact h.word q hq' i
      · rw [hw, if_neg hq', if_neg fun hmem => hq' (mem_of_le h.nodes hmem)]
        exact .inr rfl
  · rcases h'.cell p hp with heq | ⟨hnone, hnew⟩
    · rw [heq]
      exact h.cell p hp
    · have hnone' : t.cell p = none := (h.cell p hp).elim (fun heq => heq ▸ hnone) And.left
      exact .inr ⟨hnone', fun q k hc hq => hnew q k hc (mem_of_le h.nodes hq)⟩

theorem Added.of_same (hsame : Same s s' (t.nodes + x)) (h : Added all s' s'' x t t') :
    Added all s s'' x t t' := by
  refine ⟨(hsame.mono fun q hq => mem_add.mpr (.inr hq)).trans h.same, h.split, h.nodes,
    fun q hq i => ?_, h.cell⟩
  rcases h.word q hq i with hv | hw
  · exact .inl hv
  · refine .inr (hw.trans ?_)
    by_cases hq' : q ∈ t.nodes
    · rw [if_pos hq', if_pos hq', hsame q (mem_add.mpr (.inl hq'))]
    · rw [if_neg hq', if_neg hq']

/-- Tables may have been added to the tree `t`, which gives `t'`, and nothing else has changed. -/
structure Grown (all : Multiset ℕ) (s s' : Ram) (x : Multiset ℕ) (t t' : Tree n) (c : Pte) : Prop
    extends Added all s s' x t t' where
  holds : Holds s' t' c
  lookup : ∀ p, p.length = n → t'.lookup p = t.lookup p

variable {c : Pte}

theorem Grown.refl (h : Holds s t c) (hsplit : Split all s (t.nodes + x)) : Grown all s s x t t c :=
  ⟨.refl hsplit, h, fun _ _ => rfl⟩

theorem Grown.trans (h : Grown all s s' x t t' c) (h' : Grown all s' s'' x t' t'' c) :
    Grown all s s'' x t t'' c :=
  ⟨h.toAdded.trans h'.toAdded, h'.holds, fun p hp => (h'.lookup p hp).trans (h.lookup p hp)⟩

theorem Holds.exists_node {t : Tree (n + 1)} (h : Holds s t c) (hc : c.v = true) :
    ∃ q entry, t = .node q entry ∧ c = .ptr q := by
  cases t with
  | empty =>
    have h' : c.v = false := h
    rw [hc] at h'
    cases h'
  | node q entry => exact ⟨q, entry, rfl, h.1⟩

variable {q : ℕ} {entry : Idx → Tree n} {i : Idx}

theorem acc_below (entry : Idx → Tree n) (i : Idx) : Acc K s ((node q (update entry i t)).nodes + x) ↔
      Acc K s (t.nodes + (q ::ₘ siblings entry i + x)) := by
  rw [nodes_update, add_assoc]

theorem split_below (entry : Idx → Tree n) (i : Idx) :
    Split all s ((node q (update entry i t)).nodes + x) ↔
      Split all s (t.nodes + (q ::ₘ siblings entry i + x)) := by
  rw [nodes_update, add_assoc]

variable {u : Tree n}

theorem Added.below (hu : Added all s s' (q ::ₘ siblings entry i + x) (entry i) u) :
    Added all s s' x (.node q entry) (.node q (update entry i u)) where
  same := hu.same.mono fun _ hr => mem_add.mpr (.inr hr)
  split := by
    rw [split_below]
    exact hu.split
  nodes := by
    rw [nodes_node q entry i, nodes_update]
    exact add_le_add_left hu.nodes _
  word r hr j := by
    have hmem := nodes_node q entry i
    rw [nodes_update, mem_add] at hr
    rw [hmem]
    by_cases hrest : r ∈ q ::ₘ siblings entry i
    · rw [if_pos (mem_add.mpr (.inr hrest)), hu.same r (mem_add.mpr (.inl hrest))]
      exact .inr rfl
    · rcases hu.word r (hr.resolve_right hrest) j with hv | hw
      · exact .inl hv
      · refine .inr (hw.trans ?_)
        by_cases hin : r ∈ (entry i).nodes
        · rw [if_pos hin, if_pos (mem_add.mpr (.inl hin))]
        · rw [if_neg hin, if_neg fun h => (mem_add.mp h).elim hin hrest]
  cell p hp := by
    match p, hp with
    | [j], _ => exact .inl rfl
    | j :: k :: p, hp =>
      have hne : k :: p ≠ [] := List.cons_ne_nil k p
      have hlen : (k :: p).length = n := Nat.succ.inj hp
      rw [Radix.cell_update q entry i u j hne]
      by_cases hj : j = i
      · rw [if_pos hj, cell_cons hne, hj]
        rcases hu.cell _ hlen with heq | ⟨hnone, hnew⟩
        · exact .inl heq
        · refine .inr ⟨hnone, fun r k' hc hr => ?_⟩
          rw [nodes_node q entry i, mem_add] at hr
          have hdisj := (nodup_add.mp hu.split.nodup).2.2
          exact disjoint_left.mp hdisj (Radix.mem_nodes_of_cell hlen hc)
            (mem_add.mpr (.inl (hr.resolve_left (hnew r k' hc))))
      · rw [if_neg hj]
        exact .inl rfl

theorem Grown.below (h : Holds s (.node q entry) c)
    (hu : Grown all s s' (q ::ₘ siblings entry i + x) (entry i) u (s.word q i)) :
    Grown all s s' x (.node q entry) (.node q (update entry i u)) c where
  toAdded := hu.toAdded.below
  holds := h.update_below hu.holds (hu.same q (mem_add.mpr (.inl (mem_cons_self ..))))
    fun r hr => hu.same r (mem_add.mpr (.inl (mem_cons_of_mem hr)))
  lookup p hp := by
    cases p with
    | nil => cases hp
    | cons j p =>
      rw [Radix.lookup_update]
      by_cases hj : j = i
      · rw [if_pos hj, hu.lookup p (Nat.succ.inj hp), hj]
        rfl
      · rw [if_neg hj]

/-- The words after `walk` has added the table `b` below entry `i` of `q`. -/
def newTable (s : Ram) (q b : ℕ) (i : Idx) : Ram :=
  { s with word := assign (assign s.word b (bytes 0)) q
             (assign (assign s.word b (bytes 0) q) i (.ptr b)) }

variable {b : ℕ}

theorem newTable_of_ne {r : ℕ} (hrq : r ≠ q) (hrb : r ≠ b) : (newTable s q b i).word r = s.word r := by
  change assign (assign s.word b (bytes 0)) q _ r = _
  rw [assign_eq_update, update_of_ne hrq, assign, if_neg hrb]

theorem newTable_node (hqb : q ≠ b) : (newTable s q b i).word q = assign (s.word q) i (.ptr b) := by
  change assign (assign s.word b (bytes 0)) q (assign (assign s.word b (bytes 0) q) i _) q = _
  rw [assign_eq_update, update_self, assign, if_neg hqb]

theorem newTable_new (hqb : q ≠ b) : (newTable s q b i).word b = bytes 0 := by
  change assign (assign s.word b (bytes 0)) q _ b = _
  rw [assign_eq_update, update_of_ne hqb.symm, assign, if_pos rfl]

theorem grown_newTable {entry : Idx → Tree (n + 1)} (h : Holds s (.node q entry) c)
    (hi : (s.word q i).v = false) (hsplit : Split all s (b ::ₘ ((node q entry).nodes + x))) :
    Grown all s (newTable s q b i) x (.node q entry)
      (.node q (update entry i (.node b fun _ => .empty))) c := by
  have hempty : entry i = .empty := (h.2 i).eq_empty not_invalid_ptr hi
  have hnodes : (node q entry).nodes = q ::ₘ siblings entry i := by
    rw [nodes_node q entry i, hempty, Radix.nodes_empty, zero_add]
  rw [hnodes] at hsplit
  have hne : ∀ r ∈ q ::ₘ siblings entry i + x, r ≠ b := fun r hr => hsplit.cons_ne hr
  have hqb : q ≠ b := hne q (mem_add.mpr (.inl (mem_cons_self ..)))
  have hword : ∀ r ∈ siblings entry i + x, (newTable s q b i).word r = s.word r := by
    intro r hr
    have hnodup := (nodup_cons.mp hsplit.nodup).2
    rw [cons_add, nodup_cons] at hnodup
    refine newTable_of_ne ?_ (hne r (by rw [cons_add]; exact mem_cons_of_mem hr))
    rintro rfl
    exact hnodup.1 hr
  refine ⟨⟨fun r hr => hword r (mem_add.mpr (.inr hr)), ?_, ?_, fun r hr j => ?_,
    fun p hp => ?_⟩, ?_, fun p hp => ?_⟩
  · rw [split_below, nodes_blank, singleton_add]
    exact ⟨hsplit.sum, hsplit.once⟩
  · rw [hnodes, nodes_update]
    exact Multiset.le_add_left ..
  · -- the new table is zero, and its node has one entry more
    rw [nodes_update, nodes_blank, singleton_add, mem_cons, mem_cons] at hr
    rw [hnodes]
    rcases hr with rfl | rfl | hr
    · refine .inr ?_
      rw [newTable_new hqb, if_neg fun hmem => hne r (mem_add.mpr (.inl hmem)) rfl, bytes, Nat.zero_mul]
    · rw [newTable_node hqb, assign]
      by_cases hj : j = i
      · rw [if_pos hj]
        exact .inl rfl
      · rw [if_neg hj, if_pos (mem_cons_self ..)]
        exact .inr rfl
    · rw [hword r (mem_add.mpr (.inl hr)), if_pos (mem_cons_of_mem hr)]
      exact .inr rfl
  · obtain ⟨j, t, rfl⟩ := List.exists_cons_of_length_eq_add_one hp
    obtain ⟨k, p, rfl⟩ := List.exists_cons_of_length_eq_add_one (Nat.succ.inj hp)
    have hcons : k :: p ≠ [] := List.cons_ne_nil k p
    rw [Radix.cell_update q entry i _ j hcons]
    by_cases hj : j = i
    · rw [if_pos hj, cell_cons hcons, hj, hempty, Radix.cell_empty]
      refine .inr ⟨rfl, fun r k' hc hr => ?_⟩
      have hrb := Radix.mem_nodes_of_cell (Nat.succ.inj hp) hc
      rw [nodes_blank, mem_singleton] at hrb
      rw [hnodes] at hr
      exact hne r (mem_add.mpr (.inl hr)) hrb
    · rw [if_neg hj]
      exact .inl rfl
  · refine h.update ⟨?_, fun j => ?_⟩ (fun j hj => ?_) fun r hr => hword r (mem_add.mpr (.inl hr))
    · rw [newTable_node hqb, assign, if_pos rfl]
    · rw [newTable_new hqb]
      rfl
    · rw [newTable_node hqb, assign, if_neg hj]
  · cases p with
    | nil => cases hp
    | cons j p =>
      rw [Radix.lookup_update]
      by_cases hj : j = i
      · rw [if_pos hj, hj]
        change _ = (entry i).lookup p
        rw [hempty]
        cases p <;> rfl
      · rw [if_neg hj]

/-- What `walk` finds: the cell of the path, or nothing; then there is none, if it may not add one. -/
def Found (alloc : Bool) (t t' : Tree n) (p : List Idx) : Option (ℕ × Idx) → Prop
  | none => alloc = true ∨ t.cell p = none
  | some (b, k) => t'.cell p = some (b, k)

variable {alloc : Bool} {p : List Idx} {r : Option (ℕ × Idx)}

theorem Found.below (hp : p ≠ []) (h : Found alloc (entry i) u p r) :
    Found alloc (.node q entry) (.node q (update entry i u)) (i :: p) r := by
  cases r with
  | none =>
    refine h.imp id fun hnone => ?_
    rw [cell_cons hp]
    exact hnone
  | some r =>
    change (node q (update entry i u)).cell (i :: p) = _
    rw [cell_cons hp, update_self]
    exact h

theorem Found.of_alloc {t1 : Tree n} (h : Found true t1 t' p r) : Found true t t' p r := by
  cases r with
  | none => exact .inl rfl
  | some r => exact h

variable {va : ℕ}

theorem walkLoop_spec {level : ℕ} {t : Tree (level + 1)} (h : Holds s t (.ptr q))
    (hsplit : Split all s (t.nodes + x)) :
    wp (walkLoop va alloc level q) E s fun r s' => ∃ t', Grown all s s' x t t' (.ptr q) ∧
      (alloc = true ∨ s' = s ∧ t' = t) ∧ Found alloc t t' (walkPath va level) r := by
  induction level generalizing q s x with
  | zero =>
    obtain ⟨q', entry, rfl, hq⟩ := Holds.exists_node h rfl
    obtain rfl : q = q' := congrArg Pte.ppn hq
    rw [walkLoop, wp_pure]
    exact ⟨_, .refl h hsplit, .inr ⟨rfl, rfl⟩, rfl⟩
  | succ level ih =>
    obtain ⟨q', entry, rfl, hq⟩ := Holds.exists_node h rfl
    obtain rfl : q = q' := congrArg Pte.ppn hq
    have hpath : walkPath va level ≠ [] :=
      List.ne_nil_of_length_eq_add_one (length_walkPath va level)
    -- the rest of the loop, below an entry that refers to a table
    have below : ∀ {s1 : Ram} {entry1 : Idx → Tree (level + 1)} {b : ℕ},
        Holds s1 (.node q entry1) (.ptr q) → s1.word q (PX (level + 1) va) = .ptr b →
        Split all s1 ((node q entry1).nodes + x) →
        wp (walkLoop va alloc level b) E s1 fun r s' => ∃ t',
          Grown all s1 s' x (.node q entry1) t' (.ptr q) ∧
          (alloc = true ∨ s' = s1 ∧ t' = .node q entry1) ∧
          Found alloc (.node q entry1) t' (walkPath va (level + 1)) r := by
      intro s1 entry1 b h1 hword hsplit1
      have hentry := h1.2 (PX (level + 1) va)
      rw [hword] at hentry
      rw [nodes_node q entry1 (PX (level + 1) va), add_assoc] at hsplit1
      refine (ih hentry hsplit1).mono ?_
      rintro r s' ⟨u, hu, hro, hr⟩
      rw [← hword] at hu
      refine ⟨_, hu.below h1, hro.imp id ?_, hr.below hpath⟩
      rintro ⟨hs, rfl⟩
      exact ⟨hs, by rw [update_eq_self]⟩
    rw [walkLoop, wp_bind, wp_get, wp_ite]
    refine ⟨fun hv => ?_, fun hv => ?_⟩
    · obtain ⟨b, entry', hb, hptr⟩ := Holds.exists_node (h.2 (PX (level + 1) va)) hv
      rw [hptr]
      exact below h hptr hsplit
    have hv' := Bool.eq_false_of_not_eq_true hv
    rw [wp_ite]
    refine ⟨fun halloc => ?_, fun halloc => ?_⟩
    · subst halloc
      rw [wp_bind]
      refine (kalloc_split hsplit).mono ?_
      rintro r s1 ⟨hsame, hr⟩
      have hword : ∀ b ∈ (node q entry).nodes, s1.word b = s.word b := fun b hb =>
        hsame b (mem_add.mpr (.inl hb))
      have h1 : Holds s1 (.node q entry) (.ptr q) := h.congr hword
      cases r with
      | none =>
        rw [wp_pure]
        exact ⟨_, ⟨.of_same hsame (.refl hr), h1, fun _ _ => rfl⟩, .inl rfl, .inl rfl⟩
      | some b =>
        have hpage := Radix.page_mem_nodes q entry
        rw [← hword q hpage] at hv'
        have hnew := grown_newTable h1 hv' hr
        have hqb : q ≠ b := hr.cons_ne (mem_add.mpr (.inl hpage))
        have hptr : (newTable s1 q b (PX (level + 1) va)).word q (PX (level + 1) va) = .ptr b := by
          rw [newTable_node hqb, assign, if_pos rfl]
        rw [wp_bind, zeroPage, fill, wp_modify, wp_bind, store, wp_modify]
        refine (below hnew.holds hptr hnew.split).mono ?_
        rintro r s' ⟨t', ht', _, hr⟩
        have hall := hnew.trans ht'
        exact ⟨t', ⟨.of_same hsame hall.toAdded, hall.holds, hall.lookup⟩, .inl rfl, hr.of_alloc⟩
    · rw [wp_pure]
      have hentry := (h.2 (PX (level + 1) va)).eq_empty not_invalid_ptr hv'
      refine ⟨_, .refl h hsplit, .inr ⟨rfl, rfl⟩, .inr ?_⟩
      rw [walkPath, cell_cons hpath, hentry, Radix.cell_empty]

/-! ## Page tables as assertions -/

/-- The indices of page `v` of the address space. -/
def path (v : ℕ) : List Idx := walkPath (v * PGSIZE) 2

theorem length_path (v : ℕ) : (path v).length = 3 := length_walkPath _ 2

theorem walkPath_eq_path (va : ℕ) : walkPath va 2 = path (va / PGSIZE) := by
  have hPX : ∀ level, PX level va = PX level (va / PGSIZE * PGSIZE) := by
    intro level
    rw [PX, PX, pow_add, ← Nat.div_div_eq_div_mul, ← Nat.div_div_eq_div_mul]
    change Fin.ofNat 512 (va / PGSIZE / _) = Fin.ofNat 512 (va / PGSIZE * PGSIZE / PGSIZE / _)
    rw [Nat.mul_div_cancel _ (by decide)]
  simp only [path, walkPath, ← hPX]

theorem div_lt_of_lt_MAXVA (h : va < MAXVA) : va / PGSIZE < 2 ^ 27 := by
  change va < 2 ^ 38 at h
  change va / 4096 < 2 ^ 27
  omega

theorem path_inj {v w : ℕ} (hv : v < 2 ^ 27) (hw : w < 2 ^ 27) (h : path v = path w) : v = w := by
  simp only [path, walkPath, PX, List.cons.injEq, and_true, Fin.ofNat, Fin.mk.injEq] at h
  obtain ⟨h2, h1, h0⟩ := h
  change v * 4096 / 2 ^ 30 % 512 = w * 4096 / 2 ^ 30 % 512 at h2
  change v * 4096 / 2 ^ 21 % 512 = w * 4096 / 2 ^ 21 % 512 at h1
  change v * 4096 / 2 ^ 12 % 512 = w * 4096 / 2 ^ 12 % 512 at h0
  omega

/-- The memory `mem` holds the page table `t` at `root`, which maps page `v` by `leaf v`. -/
structure Maps (mem : ℕ → Idx → Pte) (root : ℕ) (leaf : ℕ → Option Pte) (t : Tree 3) : Prop where
  holds : t.Rep Pte.Invalid Pte.ptr mem (.ptr root)
  lookup : ∀ v < 2 ^ 27, t.lookup (path v) = leaf v

/-- The page table at `root`, which maps page `v` by `leaf v`. -/
def pt (root : ℕ) (leaf : ℕ → Option Pte) : Pages where
  Sat mem x := ∃ t, Maps mem root leaf t ∧ t.nodes = x
  frame := by
    rintro mem mem' _ ⟨t, ⟨hrep, hlookup⟩, rfl⟩ hmem
    exact ⟨t, ⟨hrep.congr hmem, hlookup⟩, rfl⟩

/-- The page table at `root`, where the entry for page `v` is word `k` of page `q`. -/
def slot (root : ℕ) (leaf : ℕ → Option Pte) (v q : ℕ) (k : Idx) : Pages where
  Sat mem x := ∃ t, Maps mem root leaf t ∧ t.nodes = x ∧ t.cell (path v) = some (q, k)
  frame := by
    rintro mem mem' _ ⟨t, ⟨hrep, hlookup⟩, rfl, hcell⟩ hmem
    exact ⟨t, ⟨hrep.congr hmem, hlookup⟩, rfl, hcell⟩

/-- What an entry of the last level maps. -/
def Pte.leaf (c : Pte) : Option Pte := if c.v then some c else none

variable {root v : ℕ} {leaf : ℕ → Option Pte} {k : Idx} {F : Pages}

theorem Own.slot_leaf (h : Own K s (slot root leaf v q k * F)) (hv : v < 2 ^ 27) :
    leaf v = (s.word q k).leaf := by
  obtain ⟨_, _, _, ⟨t, ht, -, hcell⟩, -⟩ := own_mul.mp h
  rw [← ht.lookup v hv, Pte.leaf]
  rcases ht.holds.lookup_cell (length_path v) hcell with ⟨hl, hinv⟩ | ⟨hl, hval⟩
  · rw [hl, if_neg (by rw [show (s.word q k).v = false from hinv]; exact Bool.false_ne_true)]
  · rw [hl, if_pos (Bool.eq_true_of_not_eq_false hval)]

theorem Maps.store {mem : ℕ → Idx → Pte} {t : Tree 3} (h : Maps mem root leaf t)
    (hnodup : t.nodes.Nodup) (hv : v < 2 ^ 27) (hcell : t.cell (path v) = some (q, k)) (pte : Pte) :
    ∃ t' : Tree 3, Maps (assign mem q (assign (mem q) k pte)) root (assign leaf v pte.leaf) t' ∧
      t'.nodes = t.nodes ∧ ∀ p, t'.cell p = t.cell p := by
  -- the tree with the entry, if it is one
  obtain ⟨u, hu, hlookup⟩ : ∃ u : Tree 0, u.Rep Pte.Invalid Pte.ptr
      (assign mem q (assign (mem q) k pte)) pte ∧ u.lookup [] = pte.leaf := by
    by_cases hpte : pte.v = true
    · exact ⟨.value pte, ⟨rfl, fun hinv => absurd hpte (by rw [hinv]; exact Bool.false_ne_true)⟩,
        (if_pos hpte).symm⟩
    · exact ⟨.empty, Bool.eq_false_of_not_eq_true hpte, (if_neg hpte).symm⟩
  have hother : ∀ r, r ≠ q → assign mem q (assign (mem q) k pte) r = mem r :=
    fun r hr => if_neg hr
  have hpage : assign mem q (assign (mem q) k pte) q = assign (mem q) k pte := if_pos rfl
  have hset : (t.set (path v) u).Rep Pte.Invalid Pte.ptr
      (assign mem q (assign (mem q) k pte)) (.ptr root) := by
    refine h.holds.set hnodup (length_path v) hcell ?_ (fun j hj => ?_) hother
    · rw [hpage, assign, if_pos rfl]
      exact hu
    · rw [hpage, assign, if_neg hj]
  refine ⟨t.set (path v) u, ⟨hset, fun w hw => ?_⟩, Radix.nodes_set .., fun p => Radix.cell_set ..⟩
  rw [Radix.lookup_set (length_path v) (length_path w) hcell, assign, h.lookup w hw, hlookup]
  by_cases hwv : w = v
  · rw [if_pos hwv, if_pos (by rw [hwv])]
  · rw [if_neg hwv, if_neg fun he => hwv (path_inj hw hv he)]

theorem Own.store {pte : Pte} (h : Own K s (slot root leaf v q k * F)) (hv : v < 2 ^ 27) :
    wp (store q k pte) E s fun _ s' => Own K s' (pt root (assign leaf v pte.leaf) * F) := by
  obtain ⟨_, y, hacc, ⟨t, ht, rfl, hcell⟩, hF⟩ := own_mul.mp h
  obtain ⟨hnodup, -, hdisj⟩ := nodup_add.mp hacc.nodup
  have hq := Radix.mem_nodes_of_cell (length_path v) hcell
  rw [Vm.store, wp_modify]
  obtain ⟨t', ht', hnodes, -⟩ := ht.store hnodup hv hcell pte
  refine own_mul.mpr ⟨t.nodes, y, hacc, ⟨t', ht', hnodes⟩, F.frame hF fun r hr => if_neg ?_⟩
  rintro rfl
  exact disjoint_left.mp hdisj hq hr

theorem Maps.walk {t : Tree 3} (h : Maps s.word root leaf t) (hsplit : Split all s (t.nodes + x))
    (hva : va < MAXVA) : wp (walk root va alloc) E s fun r s' => ∃ t', Maps s'.word root leaf t' ∧
      Added all s s' x t t' ∧ (alloc = true ∨ s' = s ∧ t' = t) ∧
      Found alloc t t' (path (va / PGSIZE)) r := by
  rw [Vm.walk, if_neg (by omega)]
  refine (walkLoop_spec h.holds hsplit).mono fun r s' ⟨t', ht', hro, hr⟩ => ?_
  rw [walkPath_eq_path] at hr
  refine ⟨t', ⟨ht'.holds, fun w hw => ?_⟩, ht'.toAdded, hro, hr⟩
  rw [ht'.lookup _ (length_path w), h.lookup w hw]

theorem Own.walk (h : Own K s (pt root leaf * F)) (hva : va < MAXVA) :
    wp (walk root va false) E s fun r s' => s' = s ∧
      match r with
      | none => leaf (va / PGSIZE) = none
      | some (q, k) => Own K s (slot root leaf (va / PGSIZE) q k * F) := by
  obtain ⟨_, y, hacc, ⟨t, ht, rfl⟩, hF⟩ := own_mul.mp h
  refine (ht.walk hacc.split hva).mono fun r s' ⟨t', _, _, hro, hr⟩ => ?_
  obtain hro | ⟨rfl, rfl⟩ := hro
  · exact Bool.noConfusion hro
  refine ⟨rfl, ?_⟩
  match r, hr with
  | none, hr =>
    rw [← ht.lookup _ (div_lt_of_lt_MAXVA hva)]
    exact Radix.lookup_of_cell_eq_none (length_path _) (hr.resolve_left Bool.false_ne_true)
  | some (q, k), hr => exact own_mul.mpr ⟨_, y, hacc, ⟨_, ht, rfl, hr⟩, hF⟩

theorem Own.walk_alloc (h : Own K s (pt root leaf * F)) (hva : va < MAXVA) :
    wp (Vm.walk root va true) E s fun r s' =>
      match r with
      | none => Own K s' (pt root leaf * F)
      | some (q, k) => Own K s' (slot root leaf (va / PGSIZE) q k * F) := by
  obtain ⟨_, y, hacc, ⟨t, ht, rfl⟩, hF⟩ := own_mul.mp h
  refine (ht.walk hacc.split hva).mono fun r s' ⟨t', hmaps, hadd, _, hr⟩ => ?_
  match r, hr with
  | none, _ => exact own_mul.mpr ⟨_, y, hadd.split.sum, ⟨t', hmaps, rfl⟩, hadd.same.sat hF⟩
  | some (q, k), hr => exact own_mul.mpr ⟨_, y, hadd.split.sum, ⟨t', hmaps, rfl, hr⟩, hadd.same.sat hF⟩

end Xv6.Vm
