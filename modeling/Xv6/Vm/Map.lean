import Xv6.Vm.Walk

/-!
# Mapping and unmapping

What `mappages`, `uvmunmap` and `freewalk` do to the entries of a page table, and to the pages that they
map.
-/

namespace Xv6.Vm

open Lib Multiset Function

variable {K : Image} {s : Ram} {E : Panic → Prop} {root : ℕ} {leaf : ℕ → Option Pte} {F : Pages}

theorem Own.mappages {va ppn : ℕ} {perm : Perm} (h : Own K s (pt root leaf * F)) (hva : va < MAXVA)
    (halign : va % PGSIZE = 0) (hnone : leaf (va / PGSIZE) = none) :
    wp (mappages root va PGSIZE ppn perm) E s fun r s' => Own K s'
      (pt root (if r then assign leaf (va / PGSIZE) (some ⟨ppn, true, perm⟩) else leaf) * F) := by
  have hlast : (va + PGSIZE - 1) / PGSIZE - va / PGSIZE = 0 := by
    change va % 4096 = 0 at halign
    change (va + 4096 - 1) / 4096 - va / 4096 = 0
    omega
  have ha : va / PGSIZE * PGSIZE = va := Nat.div_mul_cancel (Nat.dvd_of_mod_eq_zero halign)
  simp only [Vm.mappages, if_neg (show PGSIZE ≠ 0 from Nat.noConfusion)]
  rw [hlast, ha, mappagesLoop, wp_bind]
  refine (h.walk_alloc hva).mono fun r s1 hr => ?_
  cases r with
  | none => exact hr
  | some slot =>
    obtain ⟨q, k⟩ := slot
    have hv := div_lt_of_lt_MAXVA hva
    have hleaf := hr.slot_leaf hv
    rw [hnone, Pte.leaf] at hleaf
    have hinv : ¬ (s1.word q k).v = true := by
      intro hval
      rw [if_pos hval] at hleaf
      cases hleaf
    simp only [wp_bind, wp_get]
    rw [if_neg hinv, wp_bind]
    exact (hr.store hv).mono fun _ s2 h2 => h2

/-- The entries without those for the `n` pages from `m` on. -/
def cleared (leaf : ℕ → Option Pte) (m n : ℕ) : ℕ → Option Pte := fun v =>
  if m ≤ v ∧ v < m + n then none else leaf v

theorem cleared_zero (m : ℕ) : cleared leaf m 0 = leaf := by
  funext v
  rw [cleared, if_neg (by omega)]

theorem cleared_succ (m n : ℕ) : cleared (assign leaf m none) (m + 1) n = cleared leaf m (n + 1) := by
  funext v
  simp only [cleared, assign]
  by_cases hv : v = m
  · rw [if_pos hv, if_neg (by omega), if_pos (by omega)]
  · rw [if_neg hv]
    by_cases hin : m + 1 ≤ v ∧ v < m + 1 + n
    · rw [if_pos hin, if_pos (by omega)]
    · rw [if_neg hin, if_neg (by omega)]

/-- The entry maps a page, and is no pointer to a lower table. -/
def Pte.IsLeaf (c : Pte) : Prop := (c.perm.r || c.perm.w || c.perm.x) = true

instance (c : Pte) : Decidable c.IsLeaf :=
  inferInstanceAs (Decidable ((c.perm.r || c.perm.w || c.perm.x) = true))

theorem Pte.IsLeaf.perm_ne {c : Pte} (h : c.IsLeaf) : c.perm ≠ ⟨false, false, false, false, 0⟩ := by
  intro hz
  rw [IsLeaf, hz] at h
  exact Bool.false_ne_true h

/-- The pages that entries map. -/
def mapped (l : List Pte) : Pages := held (l.map Pte.ppn)

theorem mapped_nil : mapped [] = 1 := rfl

theorem mapped_cons (c : Pte) (l : List Pte) : mapped (c :: l) = held {c.ppn} * mapped l := by
  rw [mapped, List.map_cons, ← cons_coe, held, Assn.pages_cons]
  rfl

theorem Own.slot_eq {v q : ℕ} {k : Idx} {c : Pte} (h : Own K s (slot root leaf v q k * F))
    (hv : v < 2 ^ 27) (hc : leaf v = some c) : s.word q k = c ∧ c.v = true := by
  have hslot := h.slot_leaf hv
  rw [hc, Pte.leaf] at hslot
  by_cases hval : (s.word q k).v = true
  · rw [if_pos hval] at hslot
    cases hslot
    exact ⟨rfl, hval⟩
  · rw [if_neg hval] at hslot
    cases hslot

theorem Own.uvmunmapLoop {doFree : Bool} {l : List Pte} {m : ℕ}
    (h : Own K s (pt root leaf * ((if doFree then mapped l else 1) * F)))
    (hl : ∀ c ∈ l, c.IsLeaf) (hm : m + l.length ≤ 2 ^ 26)
    (hleaf : ∀ j (hj : j < l.length), leaf (m + j) = some l[j]) :
    wp (uvmunmapLoop K root doFree l.length (m * PGSIZE)) E s fun _ s' =>
      Own K s' (pt root (cleared leaf m l.length) * F) := by
  induction l generalizing s leaf m with
  | nil =>
    rw [mapped_nil, ite_self, one_mul] at h
    rw [List.length_nil, Vm.uvmunmapLoop, wp_pure, cleared_zero]
    exact h
  | cons c l ih =>
    rw [List.length_cons] at hm
    have hva : m * PGSIZE < MAXVA := by
      change m * 4096 < 2 ^ 38
      omega
    have hdiv : m * PGSIZE / PGSIZE = m := Nat.mul_div_cancel m (by decide)
    have hc : leaf m = some c := hleaf 0 (Nat.succ_pos _)
    rw [List.length_cons, Vm.uvmunmapLoop, wp_bind]
    refine (h.walk hva).mono fun r s1 ⟨hs, hr⟩ => ?_
    rw [hdiv] at hr
    subst hs
    match r, hr with
    | none, hr =>
      rw [hc] at hr
      cases hr
    | some (q, k), hr =>
      obtain ⟨rfl, hval⟩ := hr.slot_eq (by omega) hc
      have hperm := (hl _ (List.mem_cons_self ..)).perm_ne
      simp only [wp_bind, wp_get]
      rw [if_neg (by rw [hval]; exact Bool.noConfusion), if_neg hperm]
      -- with the page given back, the entry is cleared
      have hrest : ∀ s2, Own K s2 (slot root leaf m q k * ((if doFree then mapped l else 1) * F)) →
          wp (do
            Vm.store q k (.ofWord 0)
            Vm.uvmunmapLoop K root doFree l.length (m * PGSIZE + PGSIZE)) E s2 fun _ s' =>
            Own K s' (pt root (cleared leaf m (l.length + 1)) * F) := by
        intro s2 h2
        rw [wp_bind]
        refine (h2.store (by omega)).mono fun _ s3 h3 => ?_
        rw [← Nat.succ_mul, ← cleared_succ]
        refine ih h3 (fun d hd => hl d (List.mem_cons_of_mem _ hd)) (by omega) fun j hj => ?_
        rw [assign, if_neg (by omega), Nat.succ_add, ← Nat.add_succ]
        exact hleaf (j + 1) (Nat.succ_lt_succ hj)
      cases doFree with
      | false => exact hrest s1 hr
      | true =>
        change Own K s1 (slot root leaf m q k * (mapped (s1.word q k :: l) * F)) at hr
        rw [mapped_cons, mul_assoc, mul_left_comm] at hr
        rw [if_pos rfl, wp_bind]
        exact hr.kfree.mono fun _ s2 h2 => hrest s2 h2

/-! ## Freeing a page table -/

/-- No page is mapped. -/
def Blank {n : ℕ} (t : Tree n) : Prop := ∀ p, p.length = n → t.lookup p = none

theorem Blank.entry {n q : ℕ} {entry : Idx → Tree n} (h : Blank (.node q entry)) (i : Idx) :
    Blank (entry i) := fun p hp => h (i :: p) (congrArg Nat.succ hp)

theorem Blank.cases {n : ℕ} {t : Tree n} {c : Pte} (h : Blank t) (ht : Holds s t c) :
    (t = .empty ∧ c.v = false) ∨ ∃ b, c = .ptr b := by
  cases t with
  | empty => exact .inl ⟨rfl, ht⟩
  | value c' => cases h [] rfl
  | node b entry => exact .inr ⟨b, ht.1⟩

/-- What `freewalk` of a table with `n` levels does: the pages of the table are free. -/
def Frees (K : Image) (E : Panic → Prop) (n : ℕ) : Prop :=
  ∀ {s : Ram} {x : Multiset ℕ} {t : Tree n} {q : ℕ}, Holds s t (.ptr q) → Blank t →
    Acc K s (t.nodes + x) → wp (freewalk K n q) E s fun _ s' => Same s s' x ∧ Acc K s' x

theorem freewalkLoop_spec {n q : ℕ} (hfree : Frees K E n) {is : List Idx} {entry : Idx → Tree n}
    {x : Multiset ℕ} (h : Holds s (.node q entry) (.ptr q)) (hblank : ∀ i, Blank (entry i))
    (hdone : ∀ i, i ∉ is → entry i = .empty) (hacc : Acc K s ((Radix.node q entry).nodes + x)) :
    wp (freewalkLoop (freewalk K n) q is) E s fun _ s' => Same s s' x ∧ Acc K s' (q ::ₘ x) := by
  induction is generalizing s entry with
  | nil =>
    obtain rfl : entry = fun _ => .empty := funext fun i => hdone i List.not_mem_nil
    rw [Radix.nodes_blank, singleton_add] at hacc
    rw [freewalkLoop, wp_pure]
    exact ⟨Same.refl s x, hacc⟩
  | cons i is ih =>
    rw [freewalkLoop]
    simp only [wp_bind, wp_get]
    rcases (hblank i).cases (h.2 i) with ⟨hempty, hinv⟩ | ⟨b, hptr⟩
    · rw [hinv, if_neg (fun hc => Bool.false_ne_true hc.1), if_neg Bool.false_ne_true]
      refine ih h hblank (fun j hj => ?_) hacc
      by_cases hji : j = i
      · rw [hji, hempty]
      · exact hdone j fun hmem => (List.mem_cons.mp hmem).elim hji hj
    · rw [hptr, if_pos ⟨rfl, rfl⟩, wp_bind]
      rw [Radix.nodes_node q entry i, add_assoc] at hacc
      have hentry := h.2 i
      rw [hptr] at hentry
      refine (hfree hentry (hblank i) hacc).mono ?_
      rintro _ s1 ⟨hsame, hacc1⟩
      rw [wp_bind, store, wp_modify]
      -- the entry is cleared, and the table refers to nothing there
      have hq1 : s1.word q = s.word q :=
        hsame q (mem_add.mpr (.inl (mem_cons_self ..)))
      have hother : ∀ r ∈ Radix.siblings entry i + x,
          assign s1.word q (assign (s1.word q) i (.ofWord 0)) r = s.word r := by
        intro r hr
        rw [cons_add] at hacc1 hsame
        rw [assign_eq_update, update_of_ne (hacc1.cons_ne hr)]
        exact hsame r (mem_cons_of_mem hr)
      have hpage : ∀ j, j ≠ i →
          assign s1.word q (assign (s1.word q) i (.ofWord 0)) q j = s.word q j := by
        intro j hj
        rw [assign_eq_update, update_self, assign, if_neg hj, hq1]
      have hclear : Pte.Invalid (assign s1.word q (assign (s1.word q) i (.ofWord 0)) q i) := by
        rw [assign_eq_update, update_self, assign, if_pos rfl]
        rfl
      have hupdate : Holds { s1 with word := assign s1.word q (assign (s1.word q) i (.ofWord 0)) }
          (.node q (update entry i .empty)) (.ptr q) :=
        h.update hclear hpage fun r hr => hother r (mem_add.mpr (.inl hr))
      refine (ih hupdate (fun j => ?_) (fun j hj => ?_) ?_).mono fun _ s' hs' => ⟨fun r hr => ?_, hs'.2⟩
      · by_cases hji : j = i
        · rw [hji, update_self]
          intro p _
          cases n <;> cases p <;> rfl
        · rw [update_of_ne hji]
          exact hblank j
      · by_cases hji : j = i
        · rw [hji, update_self]
        · rw [update_of_ne hji]
          exact hdone j fun hmem => (List.mem_cons.mp hmem).elim hji hj
      · rw [acc_below, Radix.nodes_empty, zero_add]
        exact hacc1
      · rw [hs'.1 r hr]
        exact hother r (mem_add.mpr (.inr hr))

theorem freewalk_spec (n : ℕ) : Frees K E n := by
  induction n with
  | zero =>
    -- a table of no levels that maps nothing is not referred to
    intro s x t q h hblank _
    cases t with
    | empty => cases h
    | value c => cases hblank [] rfl
  | succ n ih =>
    intro s x t q h hblank hacc
    obtain ⟨q', entry, rfl, hq⟩ := Holds.exists_node h rfl
    obtain rfl : q = q' := congrArg Pte.ppn hq
    rw [freewalk, wp_bind]
    refine (freewalkLoop_spec ih h hblank.entry (fun i hi => absurd (mem_indices i) hi)
      hacc).mono fun _ s1 ⟨hsame, hacc1⟩ => ?_
    exact (kfree_spec hacc1).mono fun _ s' ⟨hsame', hacc'⟩ => ⟨hsame.trans hsame', hacc'⟩

theorem exists_path (p : List Idx) (hp : p.length = 3) : ∃ v < 2 ^ 27, path v = p := by
  match p, hp with
  | [i, j, k], _ =>
    refine ⟨i * 2 ^ 18 + j * 2 ^ 9 + k, by omega, ?_⟩
    simp only [path, walkPath, PX, List.cons.injEq, and_true, Fin.ofNat, Fin.ext_iff]
    change (i * 2 ^ 18 + j * 2 ^ 9 + k) * 4096 / 2 ^ 30 % 512 = i.val ∧
      (i * 2 ^ 18 + j * 2 ^ 9 + k) * 4096 / 2 ^ 21 % 512 = j.val ∧
      (i * 2 ^ 18 + j * 2 ^ 9 + k) * 4096 / 2 ^ 12 % 512 = k.val
    omega

theorem Own.freewalk (h : Own K s (pt root (fun _ => none) * F)) :
    wp (freewalk K 3 root) E s fun _ s' => Own K s' F := by
  obtain ⟨_, y, hacc, ⟨t, ht, rfl⟩, hF⟩ := own_mul.mp h
  have hblank : Blank t := by
    intro p hp
    obtain ⟨v, hv, rfl⟩ := exists_path p hp
    exact ht.lookup v hv
  exact (freewalk_spec 3 ht.holds hblank hacc).mono fun _ s' ⟨hsame, hacc'⟩ =>
    ⟨y, hacc', hsame.sat hF⟩

theorem Own.zeroPage {q : ℕ} (h : Own K s (held {q} * F)) :
    wp (zeroPage q) E s fun _ s' => Own K s' (pt q (fun _ => none) * F) := by
  obtain ⟨y, hacc, hF⟩ := own_page.mp h
  refine (fill_spec hacc).mono fun _ s' ⟨hsame, hacc', hpage⟩ => ?_
  refine own_mul.mpr ⟨{q}, y, hacc', ⟨.node q fun _ => .empty, ⟨⟨rfl, fun i => ?_⟩, fun v _ => ?_⟩,
    Radix.nodes_blank q⟩, hsame.sat hF⟩
  · rw [hpage]
    rfl
  · rfl

end Xv6.Vm
