import Xv6.Vm.Walk

/-!
# Mapping a range

What `mappages` does to a page table in memory, whatever pages its nodes and the free list are: it maps
the pages of the range one after the other, until a table is needed and there is no page for it. The
entries of the other pages are as they were, and the new tables are pages of the free list, with zero in
the entries that have not been written.
-/

namespace Xv6.Vm

open Lib

variable {all x : Multiset ℕ} {s s' : Ram} {E : Panic → Prop} {root : ℕ}
  {leaf leaf' : ℕ → Option Pte} {t t' : Tree 3} {v : ℕ}

/-! ## Entries as words -/

/-- `PTE2PA(pte)` -/
def PTE2PA (pte : ℕ) : ℕ := pte / 2 ^ 10 * 2 ^ 12 % 2 ^ 64

/-- `PTE_FLAGS(pte)` -/
def PTE_FLAGS (pte : ℕ) : ℕ := pte % 2 ^ 10

/-- The flags in the argument `perm` of `mappages`. -/
def Perm.ofBits (perm : ℕ) : Perm := (Pte.ofWord perm).perm

theorem or_one (n : ℕ) : n ||| 1 = n / 2 * 2 + 1 := by
  have hdiv : (n ||| 1) / 2 = n / 2 := by
    rw [Nat.or_div_two]
    exact Nat.or_zero _
  have hmod : (n ||| 1) % 2 = 1 := by
    rw [Nat.or_mod_two_eq_one]
    exact .inr rfl
  omega

theorem toWord_ofBits {ppn perm : ℕ} (hperm : perm < 2 ^ 10) :
    (Pte.mk ppn true (.ofBits perm)).toWord = ppn * 2 ^ 10 + (perm ||| 1) := by
  have hrest : ((Fin.ofNat 32 (perm / 2 ^ 5) : Fin 32) : ℕ) = perm / 2 ^ 5 % 32 := rfl
  simp only [Pte.toWord, Perm.ofBits, Pte.ofWord, Nat.toNat_testBit, Bool.toNat_true, or_one, hrest]
  omega

theorem PTE2PA_toWord {pa k perm : ℕ} (hpa : pa % PGSIZE = 0) (hlt : pa < 2 ^ 56) (hk : k < 2 ^ 26)
    (hperm : perm < 2 ^ 10) :
    PTE2PA (Pte.mk (pa / PGSIZE + k) true (.ofBits perm)).toWord = pa + k * PGSIZE := by
  have hor : perm ||| 1 < 2 ^ 10 := Nat.or_lt_two_pow hperm (by decide)
  simp only [PGSIZE] at hpa ⊢
  rw [toWord_ofBits hperm, PTE2PA]
  omega

theorem PTE_FLAGS_toWord {ppn perm : ℕ} (hperm : perm < 2 ^ 10) :
    PTE_FLAGS (Pte.mk ppn true (.ofBits perm)).toWord = perm ||| 1 := by
  have hor : perm ||| 1 < 2 ^ 10 := Nat.or_lt_two_pow hperm (by decide)
  rw [toWord_ofBits hperm, PTE_FLAGS]
  omega

/-! ## The entry of a page -/

/-- The entry for page `v` that the loop of `walk` finds, and zero if there is no table for it. -/
def leafPte (s : Ram) (root v : ℕ) : Pte :=
  match (walkLoop (v * PGSIZE) false 2 root).run s with
  | .ok (some (q, k), s') => s'.word q k
  | _ => .ofWord 0

theorem Maps.leafPte_eq (h : Maps s.word root leaf t) (hsplit : Split all s (t.nodes + x)) (v : ℕ) :
    (t.cell (path v) = none ∧ leafPte s root v = .ofWord 0) ∨
      ∃ q k, t.cell (path v) = some (q, k) ∧ leafPte s root v = s.word q k := by
  have hwalk : wp (walkLoop (v * PGSIZE) false 2 root) (fun _ => False) s _ :=
    walkLoop_spec h.holds hsplit
  obtain ⟨r, s1, hrun, t1, -, hro, hr⟩ := hwalk.exists_ok
  obtain hro | ⟨rfl, rfl⟩ := hro
  · exact Bool.noConfusion hro
  rw [leafPte, hrun]
  match r, hr with
  | none, hr => exact .inl ⟨hr.resolve_left Bool.false_ne_true, rfl⟩
  | some (q, k), hr => exact .inr ⟨q, k, hr, rfl⟩

theorem Maps.leaf_eq (h : Maps s.word root leaf t) (hsplit : Split all s (t.nodes + x))
    (hv : v < 2 ^ 27) : leaf v = (leafPte s root v).leaf := by
  rw [← h.lookup v hv, Pte.leaf]
  rcases h.leafPte_eq hsplit v with ⟨hnone, hpte⟩ | ⟨q, k, hcell, hpte⟩
  · rw [hpte, Radix.lookup_of_cell_eq_none (length_path v) hnone]
    rfl
  · rw [hpte]
    rcases h.holds.lookup_cell (length_path v) hcell with ⟨hnone, hinv⟩ | ⟨hsome, hval⟩
    · rw [hnone, if_neg (by rw [hinv]; exact Bool.false_ne_true)]
    · rw [hsome, if_pos (Bool.eq_true_of_not_eq_false hval)]

theorem Added.leafPte_eq (hadd : Added all s s' x t t') (h : Maps s.word root leaf t)
    (h' : Maps s'.word root leaf' t') (hsplit : Split all s (t.nodes + x)) (hv : v < 2 ^ 27)
    (hleaf : leaf' v = leaf v) : leafPte s' root v = leafPte s root v := by
  rw [h.leaf_eq hsplit hv, h'.leaf_eq hadd.split hv, Pte.leaf, Pte.leaf] at hleaf
  by_cases hval : (leafPte s' root v).v = true
  · rw [if_pos hval] at hleaf
    by_cases hval' : (leafPte s root v).v = true
    · rw [if_pos hval'] at hleaf
      exact Option.some.inj hleaf
    · rw [if_neg hval'] at hleaf
      cases hleaf
  -- an invalid entry has not been written
  have hword : ∀ q k, t'.cell (path v) = some (q, k) → leafPte s' root v = s'.word q k →
      s'.word q k = if q ∈ t.nodes then s.word q k else .ofWord 0 := by
    intro q k hcell hpte
    refine (hadd.word q (Radix.mem_nodes_of_cell (length_path v) hcell) k).resolve_left ?_
    rw [← hpte]
    exact hval
  rcases h'.leafPte_eq hadd.split v with ⟨hnone', hpte'⟩ | ⟨q, k, hcell', hpte'⟩
  · rcases h.leafPte_eq hsplit v with ⟨-, hpte⟩ | ⟨q, k, hcell, -⟩
    · rw [hpte, hpte']
    · rcases hadd.cell (path v) (length_path v) with heq | ⟨hnone, -⟩
      · rw [heq, hcell] at hnone'
        cases hnone'
      · rw [hnone] at hcell
        cases hcell
  · rw [hpte', hword q k hcell' hpte']
    rcases h.leafPte_eq hsplit v with ⟨hnone, hpte⟩ | ⟨q', k', hcell, hpte⟩
    · rcases hadd.cell (path v) (length_path v) with heq | ⟨-, hnew⟩
      · rw [← heq, hcell'] at hnone
        cases hnone
      · rw [hpte, if_neg (hnew q k hcell')]
    · rcases hadd.cell (path v) (length_path v) with heq | ⟨hnone, -⟩
      · rw [← heq, hcell'] at hcell
        obtain ⟨rfl, rfl⟩ := Prod.mk.inj (Option.some.inj hcell)
        rw [heq] at hcell'
        rw [hpte, if_pos (Radix.mem_nodes_of_cell (length_path v) hcell')]
      · rw [hnone] at hcell
        cases hcell

/-! ## The range -/

/-- The entries with those for the `n` pages from `m` on. -/
def mappedRange (leaf : ℕ → Option Pte) (m n ppn : ℕ) (perm : Perm) : ℕ → Option Pte := fun v =>
  if m ≤ v ∧ v < m + n then some ⟨ppn + (v - m), true, perm⟩ else leaf v

theorem mappedRange_zero (m ppn : ℕ) (perm : Perm) : mappedRange leaf m 0 ppn perm = leaf := by
  funext v
  rw [mappedRange, if_neg (by omega)]

theorem mappedRange_succ (m n ppn : ℕ) (perm : Perm) :
    mappedRange (assign leaf m (some ⟨ppn, true, perm⟩)) (m + 1) n (ppn + 1) perm =
      mappedRange leaf m (n + 1) ppn perm := by
  funext v
  simp only [mappedRange, assign]
  by_cases hv : v = m
  · rw [if_neg (by omega), if_pos hv, if_pos (by omega), hv, Nat.sub_self, Nat.add_zero]
  · by_cases hin : m + 1 ≤ v ∧ v < m + 1 + n
    · rw [if_pos hin, if_pos (by omega), show ppn + 1 + (v - (m + 1)) = ppn + (v - m) by omega]
    · rw [if_neg hin, if_neg hv, if_neg (by omega)]

theorem Added.of_store {q : ℕ} {k : Idx} {pte : Pte} (hsplit : Split all s (t.nodes + x))
    (hq : q ∈ t.nodes) (hpte : pte.v = true) (hnodes : t'.nodes = t.nodes)
    (hcell : ∀ p, t'.cell p = t.cell p) :
    Added all s { s with word := assign s.word q (assign (s.word q) k pte) } x t t' where
  same r hr := by
    refine if_neg ?_
    rintro rfl
    exact Multiset.disjoint_left.mp (Multiset.nodup_add.mp hsplit.nodup).2.2 hq hr
  split := by
    rw [hnodes]
    exact ⟨hsplit.sum, hsplit.once⟩
  nodes := hnodes.ge
  word r hr i := by
    rw [hnodes] at hr
    rw [if_pos hr]
    simp only [assign]
    by_cases hrq : r = q
    · by_cases hi : i = k
      · rw [if_pos hrq, assign, if_pos hi]
        exact .inl hpte
      · rw [if_pos hrq, assign, if_neg hi, hrq]
        exact .inr rfl
    · rw [if_neg hrq]
      exact .inr rfl
  cell p _ := .inl (hcell p)

theorem mappagesLoop_turn {m ppn : ℕ} {perm : Perm} {rest : VM Bool} {Q : Bool → Ram → Prop}
    (h : Maps s.word root leaf t) (hsplit : Split all s (t.nodes + x)) (hm : m < 2 ^ 26)
    (hnone : leaf m = none)
    (hfail : ∀ s' t', Maps s'.word root leaf t' → Added all s s' x t t' → Q false s')
    (hrest : ∀ s' t', Maps s'.word root (assign leaf m (some ⟨ppn, true, perm⟩)) t' →
      Added all s s' x t t' → wp rest E s' Q) : wp (do
      match ← walk root (m * PGSIZE) true with
      | none => return false
      | some (q, i) => do
          if ((← get).word q i).v then throw .remap
          else do
            store q i ⟨ppn, true, perm⟩
            rest) E s Q := by
  have hva : m * PGSIZE < MAXVA := by
    change m * 4096 < 2 ^ 38
    omega
  have hdiv : m * PGSIZE / PGSIZE = m := Nat.mul_div_cancel m (by decide)
  rw [wp_bind]
  refine (h.walk hsplit hva).mono fun r s1 ⟨t1, h1, hadd, _, hr⟩ => ?_
  rw [hdiv] at hr
  match r, hr with
  | none, _ => exact hfail s1 t1 h1 hadd
  | some (q, k), hcell =>
    have hinv : ¬ (s1.word q k).v = true := by
      intro hval
      rcases h1.holds.lookup_cell (length_path m) hcell with ⟨_, hinv⟩ | ⟨hsome, _⟩
      · exact Bool.false_ne_true (hinv.symm.trans hval)
      · rw [h1.lookup m (by omega), hnone] at hsome
        cases hsome
    have hnodup := (Multiset.nodup_add.mp hadd.split.nodup).1
    obtain ⟨t2, h2, hnodes, hcells⟩ :=
      h1.store hnodup (by omega : m < 2 ^ 27) hcell ⟨ppn, true, perm⟩
    have hq := Radix.mem_nodes_of_cell (length_path m) hcell
    simp only [wp_bind, wp_get]
    rw [if_neg hinv, wp_bind, store, wp_modify]
    exact hrest _ t2 h2 (hadd.trans (.of_store hadd.split hq rfl hnodes hcells))

theorem mappagesLoop_spec {m n ppn : ℕ} {perm : Perm} (h : Maps s.word root leaf t)
    (hsplit : Split all s (t.nodes + x)) (hm : m + n < 2 ^ 26) (hnone : ∀ k ≤ n, leaf (m + k) = none) :
    wp (mappagesLoop root perm n (m * PGSIZE) ppn) E s fun r s' => ∃ j t',
      Maps s'.word root (mappedRange leaf m j ppn perm) t' ∧ Added all s s' x t t' ∧
      (if r then j = n + 1 else j ≤ n) := by
  -- by induction on the pages after this one, for every page table with none of them mapped
  induction n generalizing s leaf t m ppn with
  | zero =>
    rw [mappagesLoop]
    refine mappagesLoop_turn h hsplit (by omega) (hnone 0 le_rfl) (fun s' t' h' hadd => ?_)
      fun s' t' h' hadd => ?_
    · refine ⟨0, t', ?_, hadd, le_rfl⟩
      rw [mappedRange_zero]
      exact h'
    · rw [wp_pure]
      refine ⟨1, t', ?_, hadd, rfl⟩
      rw [← mappedRange_succ, mappedRange_zero]
      exact h'
  | succ n ih =>
    rw [mappagesLoop]
    refine mappagesLoop_turn h hsplit (by omega) (hnone 0 (Nat.zero_le _))
      (fun s' t' h' hadd => ?_) fun s' t' h' hadd => ?_
    · refine ⟨0, t', ?_, hadd, Nat.zero_le _⟩
      rw [mappedRange_zero]
      exact h'
    · rw [← Nat.succ_mul]
      refine (ih h' hadd.split (by omega) fun k hk => ?_).mono
        fun r s'' ⟨j, t'', h'', hadd', hj⟩ => ⟨j + 1, t'', ?_, hadd.trans hadd', ?_⟩
      · rw [assign, if_neg (by omega), Nat.succ_add, ← Nat.add_succ]
        exact hnone (k + 1) (Nat.succ_le_succ hk)
      · rw [← mappedRange_succ]
        exact h''
      · cases r with
        | false => exact Nat.succ_le_succ hj
        | true => exact congrArg Nat.succ hj

/-- What `mappages` has done where the pages `first`, …, `first + n` were to be mapped to the addresses
from `pa` on: it has mapped the first `j` of them. -/
structure RangeMapped (s s' : Ram) (root : ℕ) (t : Tree 3) (first n pa perm j : ℕ) : Prop where
  /-- `walk` finds the entries. -/
  mapped : ∀ k < j, ∃ q i, (walk root ((first + k) * PGSIZE) false).run s' = .ok (some (q, i), s') ∧
    PTE2PA (s'.word q i).toWord = pa + k * PGSIZE ∧ PTE_FLAGS (s'.word q i).toWord = perm ||| 1
  unmapped : ∀ k, j ≤ k → k ≤ n → (leafPte s' root (first + k)).v = false
  others : ∀ v < 2 ^ 27, ¬ (first ≤ v ∧ v ≤ first + n) → leafPte s' root v = leafPte s root v
  /-- The new nodes are from the free list, and have been zeroed. -/
  tree : ∃ (t' : Tree 3) (new : Multiset ℕ), Holds s' t' (.ptr root) ∧ t'.nodes.Nodup ∧
    t'.nodes = t.nodes + new ∧ (s.free : Multiset ℕ) = new + s'.free ∧
    ∀ q ∈ new, ∀ i, (s'.word q i).v = true ∨ s'.word q i = .ofWord 0

theorem Maps.walk_eq {c : Pte} (h : Maps s.word root leaf t) (hsplit : Split all s (t.nodes + x))
    (hv : v < 2 ^ 26) (hc : leaf v = some c) :
    ∃ q k, (Vm.walk root (v * PGSIZE) false).run s = .ok (some (q, k), s) ∧ s.word q k = c := by
  have hva : v * PGSIZE < MAXVA := by
    change v * 4096 < 2 ^ 38
    omega
  have hdiv : v * PGSIZE / PGSIZE = v := Nat.mul_div_cancel v (by decide)
  have hwalk : wp (Vm.walk root (v * PGSIZE) false) (fun _ => False) s _ := h.walk hsplit hva
  obtain ⟨r, s', hrun, t', -, -, hro, hr⟩ := hwalk.exists_ok
  obtain hro | ⟨rfl, rfl⟩ := hro
  · exact Bool.noConfusion hro
  rw [hdiv] at hr
  rw [← h.lookup v (by omega)] at hc
  match r, hr with
  | none, hr =>
    rw [Radix.lookup_of_cell_eq_none (length_path v) (hr.resolve_left Bool.false_ne_true)] at hc
    cases hc
  | some (q, k), hcell =>
    rcases h.holds.lookup_cell (length_path v) hcell with ⟨hnone, _⟩ | ⟨hsome, _⟩
    · rw [hnone] at hc
      cases hc
    · rw [hsome] at hc
      exact ⟨q, k, hrun, Option.some.inj hc⟩

theorem RangeMapped.of_maps {first n pa perm j : ℕ} (h : Maps s.word root leaf t)
    (hsplit : Split all s t.nodes) (hadd : Added all s s' 0 t t')
    (h' : Maps s'.word root (mappedRange leaf first j (pa / PGSIZE) (.ofBits perm)) t')
    (hn : first + n < 2 ^ 26) (hj : j ≤ n + 1) (hpa : pa % PGSIZE = 0) (hlt : pa < 2 ^ 56)
    (hperm : perm < 2 ^ 10) (hnone : ∀ k ≤ n, leaf (first + k) = none) :
    RangeMapped s s' root t first n pa perm j where
  mapped k hk := by
    have hleaf : mappedRange leaf first j (pa / PGSIZE) (.ofBits perm) (first + k) =
        some ⟨pa / PGSIZE + k, true, .ofBits perm⟩ := by
      rw [mappedRange, if_pos (by omega), Nat.add_sub_cancel_left]
    obtain ⟨q, i, hrun, hword⟩ := h'.walk_eq hadd.split (by omega) hleaf
    refine ⟨q, i, hrun, ?_, ?_⟩
    · rw [hword, PTE2PA_toWord hpa hlt (by omega) hperm]
    · rw [hword, PTE_FLAGS_toWord hperm]
  unmapped k hjk hkn := by
    have hleaf := h'.leaf_eq hadd.split (show first + k < 2 ^ 27 by omega)
    rw [mappedRange, if_neg (by omega), hnone k hkn, Pte.leaf] at hleaf
    refine Bool.eq_false_of_not_eq_true fun hval => ?_
    rw [if_pos hval] at hleaf
    cases hleaf
  others v hv hout := by
    refine hadd.leafPte_eq h h' (by rw [add_zero]; exact hsplit) hv ?_
    rw [mappedRange, if_neg (by omega)]
  tree := by
    have hsum := hadd.split.sum
    have hnodup := hadd.split.nodup
    obtain ⟨new, hnew⟩ := Multiset.le_iff_exists_add.mp hadd.nodes
    rw [add_zero] at hsum hnodup
    refine ⟨t', new, h'.holds, hnodup, hnew, ?_, fun q hq i => ?_⟩
    · rw [← hsplit.sum, hnew, add_comm t.nodes new, ← add_assoc] at hsum
      rw [add_comm]
      exact (add_right_cancel hsum).symm
    · rw [hnew] at hnodup
      have hq' := Multiset.disjoint_right.mp (Multiset.nodup_add.mp hnodup).2.2 hq
      have hword := hadd.word q (hnew ▸ Multiset.mem_add.mpr (.inr hq)) i
      rw [if_neg hq'] at hword
      exact hword

/-- **Mapping a range of pages.** In a page table without shared nodes, with none of the pages of the
range mapped, `mappages` returns 0 with all of them mapped, or -1 with a proper part of them from the
first on; and nothing else changes in the page table but that it may have new tables. -/
theorem mappages_range {va size pa perm : ℕ} (ht : Holds s t (.ptr root)) (hnodup : t.nodes.Nodup)
    (hfree : s.free.Nodup) (hdisj : Disjoint (s.free : Multiset ℕ) t.nodes) (hsize : 0 < size)
    (hlast : va + size - 1 < MAXVA) (hpa : pa % PGSIZE = 0) (hlt : pa < 2 ^ 56)
    (hperm : perm < 2 ^ 10)
    (hnone : ∀ v, va / PGSIZE ≤ v → v ≤ (va + size - 1) / PGSIZE → (leafPte s root v).v = false) :
    ∃ r s' j, (mappages root va size (pa / PGSIZE) (.ofBits perm)).run s = .ok (r, s') ∧
      RangeMapped s s' root t (va / PGSIZE) ((va + size - 1) / PGSIZE - va / PGSIZE) pa perm j ∧
      if r then j = (va + size - 1) / PGSIZE - va / PGSIZE + 1
      else j < (va + size - 1) / PGSIZE - va / PGSIZE + 1 := by
  have hmaps : Maps s.word root (fun v => t.lookup (path v)) t := ⟨ht, fun _ _ => rfl⟩
  have hsplit : Split (s.free + t.nodes) s t.nodes :=
    ⟨rfl, Multiset.nodup_add.mpr ⟨Multiset.coe_nodup.mpr hfree, hnodup, hdisj⟩⟩
  have hn : va / PGSIZE + ((va + size - 1) / PGSIZE - va / PGSIZE) < 2 ^ 26 := by
    change va + size - 1 < 2 ^ 38 at hlast
    simp only [PGSIZE]
    omega
  have hunmapped : ∀ k ≤ (va + size - 1) / PGSIZE - va / PGSIZE,
      t.lookup (path (va / PGSIZE + k)) = none := by
    intro k hk
    have hle : va / PGSIZE ≤ (va + size - 1) / PGSIZE := Nat.div_le_div_right (by omega)
    have hinv := hnone (va / PGSIZE + k) (by omega) (by omega)
    have hleaf := hmaps.leaf_eq (x := 0) (v := va / PGSIZE + k)
      (by rw [add_zero]; exact hsplit) (by omega)
    rw [Pte.leaf, hinv] at hleaf
    exact hleaf
  rw [mappages, if_neg (by omega)]
  have hloop : wp (mappagesLoop root (.ofBits perm) _ (va / PGSIZE * PGSIZE) (pa / PGSIZE))
      (fun _ => False) s _ :=
    mappagesLoop_spec (x := 0) hmaps (by rw [add_zero]; exact hsplit) hn hunmapped
  obtain ⟨r, s', hrun, j, t', h', hadd, hj⟩ := hloop.exists_ok
  refine ⟨r, s', j, hrun, .of_maps hmaps hsplit hadd h' hn ?_ hpa hlt hperm hunmapped, ?_⟩
  · cases r with
    | false => exact Nat.le_succ_of_le hj
    | true => exact hj.le
  · cases r with
    | false => exact Nat.lt_succ_of_le hj
    | true => exact hj

/-- A page table at page 10 without entries, and two free pages. -/
def blankTable : Ram := ⟨fun _ _ => .ofWord 0, [20, 21], []⟩

/-- Three pages, with two tables for them. -/
theorem mappages_range_blank :
    ∃ r s' j, (mappages 10 5000 8192 (0x80000000 / PGSIZE) (.ofBits 6)).run blankTable = .ok (r, s') ∧
      RangeMapped blankTable s' 10 (.node 10 fun _ => .empty) (5000 / PGSIZE)
        ((5000 + 8192 - 1) / PGSIZE - 5000 / PGSIZE) 0x80000000 6 j ∧
      if r then j = (5000 + 8192 - 1) / PGSIZE - 5000 / PGSIZE + 1
      else j < (5000 + 8192 - 1) / PGSIZE - 5000 / PGSIZE + 1 := by
  refine mappages_range ⟨rfl, fun _ => rfl⟩ ?_ (by decide) ?_ (by decide) (by decide) rfl (by decide)
    (by decide) fun _ _ _ => rfl
  · rw [Radix.nodes_blank]
    exact Multiset.nodup_singleton 10
  · rw [Radix.nodes_blank, Multiset.disjoint_singleton]
    decide

end Xv6.Vm
