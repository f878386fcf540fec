import Xv6.Vm.Fork

/-!
# Growing and shrinking a process

What `uvmalloc` and `growproc` do to the memory of a process. Out of memory, in the allocation of a page
or of a node of the page table, `uvmalloc` unmaps and frees exactly the pages it has added: the page table
maps what it mapped, no page has other contents, and all that may be missing from the free list are nodes
of this page table. `growproc(n)` changes the size by `n` or fails, except where the size would become
negative: there the sum wraps around, `uvmdealloc` takes it for a larger size and does nothing, and
`growproc` reports success.
-/

namespace Xv6.Vm

open Lib List

variable {K : Image} {s s' : Ram} {root tf oldsz newsz : ℕ} {u new : List UserPage}
  {rest : Multiset ℕ} {F : Pages}

/-! ## `uvmalloc` -/

/-- The page table at `root` maps the pages `u`, which are those below `sz`, and the pages at the top of
the address space; `rest` are the other pages that are not free. -/
structure AddressSpace (K : Image) (s : Ram) (root tf : ℕ) (u : List UserPage) (rest : Multiset ℕ)
    (sz : ℕ) : Prop where
  own : Own K s (pt root (leaves K tf (u.map UserPage.pte)) * (umem u * exactly s.word rest))
  pages : PGROUNDUP sz = u.length * PGSIZE

/-- Nothing that existed has changed. -/
structure Kept (s s' : Ram) (u : List UserPage) (rest : Multiset ℕ) : Prop where
  memory : ∀ p ∈ u, s'.word p.pte.ppn = s.word p.pte.ppn
  others : ∀ q ∈ rest, s'.word q = s.word q

/-- A failed `uvmalloc`: only nodes of this page table may have been taken from the free list. -/
structure Undone (K : Image) (s s' : Ram) (root tf : ℕ) (u : List UserPage) (rest : Multiset ℕ) : Prop
    extends Kept s s' u rest where
  table : ∀ va, mapping s'.word root va = mapping s.word root va
  free : ∃ nodes nodes', (pt root (leaves K tf (u.map UserPage.pte))).Sat s.word nodes ∧
    (pt root (leaves K tf (u.map UserPage.pte))).Sat s'.word nodes' ∧
    (s.free : Multiset ℕ) + nodes = s'.free + nodes'

/-- A successful `uvmalloc`. -/
structure PagesAdded (K : Image) (s s' : Ram) (root tf : ℕ) (u : List UserPage) (rest : Multiset ℕ)
    (oldsz newsz : ℕ) (perm : Perm) : Prop extends Kept s s' u rest where
  table : ∀ va, if PGROUNDUP oldsz ≤ va ∧ va < PGROUNDUP newsz then
      ∃ c, mapping s'.word root va = some c ∧ c.perm = perm ∧ s'.word c.ppn = bytes 0
    else mapping s'.word root va = mapping s.word root va
  space : ∃ new, AddressSpace K s' root tf (u ++ new) rest newsz

variable {leaf : ℕ → Option Pte} {mem : ℕ → Idx → Pte}

/-- What is not free: user pages, nodes of the page table, and the rest. -/
theorem Own.nodes (h : Own K s (pt root leaf * (umem u * exactly mem rest))) :
    ∃ nodes, (pt root leaf).Sat s.word nodes ∧
      (s.free : Multiset ℕ) + nodes + (((u.map UserPage.pte).map Pte.ppn : Multiset ℕ) + rest) =
        K.pages.val := by
  rw [mul_left_comm] at h
  obtain ⟨_, hacc, nodes, _, rfl, hpt, rfl, -⟩ := own_held.mp h.mapped_of_umem
  refine ⟨nodes, hpt, ?_⟩
  rw [← hacc]
  ac_rfl

theorem Own.others (h : Own K s (pt root leaf * (umem u * exactly mem rest))) :
    ∀ q ∈ rest, s.word q = mem q := by
  rw [mul_comm, mul_assoc, mul_left_comm] at h
  obtain ⟨_, _, _, ⟨-, hmem⟩, -⟩ := own_mul.mp h
  exact hmem

theorem Own.kept (h : Own K s' (pt root leaf * (umem new * exactly s.word rest)))
    (hs : Own K s (umem u * F)) (hsub : ∀ p ∈ u, p ∈ new) : Kept s s' u rest := by
  refine ⟨fun p hp => ?_, h.others⟩
  rw [mul_left_comm] at h
  rw [h.word_umem (hsub p hp), hs.word_umem hp]

/-- The page table before and after pages were added. -/
theorem AddressSpace.added {perm : Perm} (h : AddressSpace K s root tf u rest oldsz)
    (hs' : Own K s' (pt root (leaves K tf ((u ++ new).map UserPage.pte)) *
      (umem (u ++ new) * exactly s.word rest)))
    (hnew : ∀ p ∈ new, p.Fresh perm) (hround : PGROUNDUP newsz = (u ++ new).length * PGSIZE) :
    PagesAdded K s s' root tf u rest oldsz newsz perm := by
  have hown := h.own
  rw [mul_left_comm] at hown
  have hpages := hs'
  rw [mul_left_comm] at hpages
  have hmax := hpages.length_le
  refine ⟨hs'.kept hown fun p hp => mem_append_left new hp, fun va => ?_, new, ?_, hround⟩
  · have hlen : (u ++ new).length = u.length + new.length := length_append
    rw [h.pages, hround]
    by_cases hva : va < MAXVA
    · rw [hs'.mapping hva, h.own.mapping hva]
      have hdiv : ∀ n, n * PGSIZE ≤ va ↔ n ≤ va / PGSIZE := fun n =>
        (Nat.le_div_iff_mul_le (by decide)).symm
      by_cases hr : u.length * PGSIZE ≤ va ∧ va < (u ++ new).length * PGSIZE
      · rw [if_pos hr]
        have h1 := (hdiv _).mp hr.1
        have h2 := Nat.lt_of_not_le fun hge => absurd ((hdiv _).mpr hge) (Nat.not_le.mpr hr.2)
        have hget : (u ++ new)[va / PGSIZE] = new[va / PGSIZE - u.length] :=
          getElem_append_right h1
        have hmem : new[va / PGSIZE - u.length] ∈ new := getElem_mem _
        refine ⟨new[va / PGSIZE - u.length].pte, ?_, (hnew _ hmem).1, ?_⟩
        · rw [leaves_of_lt (by rw [length_map]; exact h2), getElem_map, hget]
        · rw [hpages.word_umem (mem_append_right u hmem), (hnew _ hmem).2]
      · rw [if_neg hr]
        have hr' : va / PGSIZE < u.length ∨ (u ++ new).length ≤ va / PGSIZE := by
          rw [hdiv, ← Nat.not_le, hdiv] at hr
          omega
        simp only [leaves, length_map]
        rcases hr' with hlt | hge
        · rw [if_pos (by omega), if_pos hlt, map_append,
            getElem?_append_left (by rw [length_map]; exact hlt)]
        · rw [if_neg (by omega), if_neg (by omega)]
    · have hend : (u ++ new).length * PGSIZE ≤ MAXVA := by
        change (u ++ new).length * 4096 ≤ 2 ^ 38
        omega
      rw [if_neg fun hr => hva (hr.2.trans_le hend), mapping_of_le (by omega), mapping_of_le (by omega)]
  · rw [mul_comm, mul_assoc, mul_left_comm] at hs' ⊢
    refine hs'.imp fun x hx => ⟨hx.1, fun q _ => rfl⟩

/-- **Out-of-memory growth is undone**, and otherwise `uvmalloc` adds exactly the pages up to the new
size, zeroed. -/
theorem uvmalloc_undone_or_added {xperm : Perm} (h : AddressSpace K s root tf u rest oldsz)
    (hle : oldsz ≤ newsz) : ∃ r s', (uvmalloc K root oldsz newsz xperm).run s = .ok (r, s') ∧
      (r = 0 ∨ r = newsz) ∧ (0 < newsz → r = 0 → Undone K s s' root tf u rest) ∧
      (r = newsz → PagesAdded K s s' root tf u rest oldsz newsz { xperm with r := true, u := true }) := by
  have hwp : wp (uvmalloc K root oldsz newsz xperm) (fun _ => False) s _ := h.own.uvmalloc h.pages hle
  obtain ⟨r, s', hrun, hr⟩ := hwp.exists_ok
  refine ⟨r, s', hrun, ?_⟩
  rcases hr with ⟨rfl, new, hlen, hnew, hs'⟩ | ⟨rfl, hs'⟩
  · have hpages := hs'
    rw [mul_left_comm] at hpages
    exact ⟨.inr rfl, fun hpos hz => absurd hz hpos.ne',
      fun _ => h.added hs' hnew (PGROUNDUP_grow h.pages hle hlen hpages.length_le)⟩
  · refine ⟨.inl rfl, fun _ _ => ?_, fun hz => ?_⟩
    · have hown := h.own
      rw [mul_left_comm] at hown
      obtain ⟨nodes, hn, hacc⟩ := h.own.nodes
      obtain ⟨nodes', hn', hacc'⟩ := hs'.nodes
      refine ⟨hs'.kept hown fun _ hp => hp, fun va => ?_, nodes, nodes', hn, hn',
        add_right_cancel (hacc.trans hacc'.symm)⟩
      by_cases hva : va < MAXVA
      · rw [hs'.mapping hva, h.own.mapping hva]
      · rw [mapping_of_le (by omega), mapping_of_le (by omega)]
    · -- nothing was asked for
      subst hz
      obtain rfl := Nat.le_zero.mp hle
      rw [← append_nil u] at hs'
      refine h.added hs' (fun p hp => absurd hp not_mem_nil) ?_
      rw [append_nil]
      exact h.pages

/-- What else is not free may be said to be exactly what it is. -/
theorem Own.exists_exactly {A : Pages} (h : Own K s (A * F)) : ∃ x, Own K s (A * exactly s.word x) := by
  obtain ⟨y, x, hacc, hA, -⟩ := own_mul.mp h
  exact ⟨x, own_mul.mpr ⟨y, x, hacc, hA, rfl, fun _ _ => rfl⟩⟩

/-- A process without memory asks for two pages. -/
theorem uvmalloc_undone_or_added_two : ∃ s root tf rest r s', AddressSpace tiny s root tf [] rest 0 ∧
    (uvmalloc tiny root 0 8192 ⟨false, true, false, false, 0⟩).run s = .ok (r, s') ∧
    (r = 0 → Undone tiny s s' root tf [] rest) := by
  obtain ⟨k, -, hk, hin, hsz⟩ := exists_firstProc
  obtain ⟨R, u, c, hfits, hown⟩ := hk.split hin
  have hnil : u = [] := by
    have hlen := hfits.length
    rw [hsz, PGROUNDUP_zero] at hlen
    exact length_eq_zero_iff.mp (by simp only [PGSIZE] at hlen; omega)
  subst hnil
  rw [image, mul_assoc, mul_assoc, ← mul_assoc] at hown
  obtain ⟨rest, hrest⟩ := hown.exists_exactly
  have hspace : AddressSpace tiny k.ram _ _ [] rest 0 := ⟨by rw [← mul_assoc]; exact hrest, rfl⟩
  obtain ⟨r, s', hrun, -, hbad, -⟩ : ∃ r s', (uvmalloc tiny _ 0 8192 ⟨false, true, false, false, 0⟩).run
      k.ram = .ok (r, s') ∧ _ := uvmalloc_undone_or_added hspace (Nat.zero_le 8192)
  exact ⟨_, _, _, rest, r, s', hspace, hrun, hbad (by decide)⟩

/-! ## `growproc` -/

/-- The byte of the process at `va`. -/
def userByte (s : Ram) (root va : ℕ) : Option UInt8 :=
  (mapping s.word root va).map fun c => pageByte (s.word c.ppn) (va % PGSIZE)

/-- What `growproc(n)` should do: change the size by `n` and keep the bytes below both sizes, or fail and
change nothing. -/
def Resized (k k' : Kernel) (p : Fin NPROC) (n : ℤ) (ok : Bool) : Prop :=
  if ok then ((k'.proc p).sz : ℤ) = (k.proc p).sz + n ∧
    ∀ va < min (k.proc p).sz (k'.proc p).sz,
      userByte k'.ram (k'.proc p).pagetable va = userByte k.ram (k.proc p).pagetable va
  else k'.proc p = k.proc p ∧
    (∀ va, mapping k'.ram.word (k.proc p).pagetable va = mapping k.ram.word (k.proc p).pagetable va) ∧
    ∀ va < PGROUNDUP (k.proc p).sz,
      userByte k'.ram (k.proc p).pagetable va = userByte k.ram (k.proc p).pagetable va

variable {k : Kernel} {p : Fin NPROC} {q q' : Proc} {u' : List UserPage} {c : Idx → Pte}

/-- A page that the process keeps. -/
theorem userByte_of_prefix {va : ℕ} (h : Own K s (image K q u c * F))
    (h' : Own K s' (image K q' u' c * F)) (hfits : q.Fits u) (hfits' : q'.Fits u')
    (hpre : u <+: u' ∨ u' <+: u) (hva : va / PGSIZE < u.length) (hva' : va / PGSIZE < u'.length) :
    userByte s' q'.pagetable va = userByte s q.pagetable va := by
  have hget : u'[va / PGSIZE] = u[va / PGSIZE] := by
    rcases hpre with hpre | hpre
    · exact (hpre.getElem hva).symm
    · exact hpre.getElem hva'
  rw [userByte, userByte, h.mapping_user hfits hva, h'.mapping_user hfits' hva', Option.map_some,
    Option.map_some, h.word_image (getElem_mem hva), h'.word_image (getElem_mem hva'), hget]

/-- A byte below the size is on a page. -/
theorem Proc.Fits.div_lt {va : ℕ} (h : q.Fits u) (hva : va < PGROUNDUP q.sz) : va / PGSIZE < u.length := by
  rw [← h.length] at hva
  exact Nat.div_lt_of_lt_mul (by rwa [Nat.mul_comm])

theorem Proc.Fits.sz_le (h : q.Fits u) : q.sz ≤ PGROUNDUP q.sz := by
  have hbelow : q.sz ≤ 2 ^ 38 - 8192 := h.below
  simp only [PGROUNDUP, PGSIZE]
  omega

/-- **`growproc(n)` changes the size by `n` or fails, exactly where the size does not become negative.** -/
theorem growproc_resizes_iff {n : ℤ} (hk : Spaces K k) (hp : (k.proc p).inUse = true)
    (hn : -2 ^ 31 ≤ n ∧ n < 2 ^ 31) : ∃ ok k', (growproc K p n).run k = .ok (ok, k') ∧
      (Resized k k' p n ok ↔ 0 ≤ (k.proc p).sz + n) := by
  obtain ⟨R, u, c, hfits, hown⟩ := hk.split hp
  obtain ⟨ok, k', hrun, sz, u', hproc, hfits', hpre, hown', hsz⟩ :=
    (growproc_spec (E := fun _ => False) hown hfits hn).exists_ok
  refine ⟨ok, k', hrun, ?_⟩
  have hself : k'.proc p = { k.proc p with sz := sz } := by rw [hproc, assign, if_pos rfl]
  cases ok with
  | true =>
    rw [if_pos rfl] at hsz
    rw [Resized, if_pos rfl, hself]
    constructor
    · rintro ⟨heq, -⟩
      change (sz : ℤ) = _ at heq
      omega
    · intro hnonneg
      rw [if_pos hnonneg] at hsz
      refine ⟨hsz, fun va hva => ?_⟩
      obtain ⟨h1, h2⟩ := lt_min_iff.mp hva
      exact userByte_of_prefix hown hown' hfits hfits' hpre (hfits.div_lt (h1.trans_le hfits.sz_le))
        (hfits'.div_lt (h2.trans_le hfits'.sz_le))
  | false =>
    rw [if_neg Bool.false_ne_true] at hsz
    obtain ⟨hpos, rfl, rfl⟩ := hsz
    refine ⟨fun _ => by omega, fun _ => ?_⟩
    rw [Resized, if_neg Bool.false_ne_true, hself]
    refine ⟨rfl, fun va => ?_, fun va hva => ?_⟩
    · rw [image, mul_assoc] at hown hown'
      by_cases hva : va < MAXVA
      · rw [hown.mapping hva]
        exact hown'.mapping hva
      · rw [mapping_of_le (by omega), mapping_of_le (by omega)]
    · exact userByte_of_prefix hown hown' hfits hfits' hpre (hfits.div_lt hva) (hfits.div_lt hva)

/-- A process of size 0 asks for a byte less: nothing happens, and `growproc` succeeds. -/
theorem growproc_wraps : ∃ k k', (Spaces tiny k ∧ (k.proc 0).inUse = true) ∧
    (growproc tiny 0 (-1)).run k = .ok (true, k') ∧ ¬ Resized k k' 0 (-1) true := by
  obtain ⟨k, -, hk, hin, hsz⟩ := exists_firstProc
  obtain ⟨R, u, c, hfits, hown⟩ := hk.split hin
  obtain ⟨ok, k', hrun, sz, u', -, -, -, -, hend⟩ :=
    (growproc_spec (E := fun _ => False) (n := -1) hown hfits (by omega)).exists_ok
  cases ok with
  | true =>
    refine ⟨k, k', ⟨hk, hin⟩, hrun, fun hbad => ?_⟩
    rw [Resized, if_pos rfl, hsz] at hbad
    omega
  | false => exact absurd hend.1 (by decide)

theorem growproc_resizes_iff_page : ∃ k ok k', Spaces tiny k ∧ (growproc tiny 0 4096).run k = .ok (ok, k') ∧
    Resized k k' 0 4096 ok := by
  obtain ⟨k, -, hk, hin, hsz⟩ := exists_firstProc
  obtain ⟨ok, k', hrun, hiff⟩ := growproc_resizes_iff (n := 4096) hk hin (by omega)
  exact ⟨k, ok, k', hk, hrun, hiff.mpr (by omega)⟩

end Xv6.Vm
