import Xv6.Vm.PageTable

/-!
# The permissions that `copyout` checks

`copyout` of `kernel/vm.c` on the bytes of physical memory. It stores to every page that `walkaddr` finds,
and `walkaddr` looks at `PTE_V` and `PTE_U` but not at `PTE_W`. The tables are read-only here: the pages of
a page table are not user pages.

`copyout_rule` is the induction over the loop, one page a turn; what `copyout` leaves alone, what it stores
and what it returns are its instances.
-/

namespace Xv6.Vm

open Lib List Option

section

variable (word : ℕ → Idx → Pte) (pagetable : ℕ)

/-- The entry that the loop of `walk` finds without `alloc`, from `level` down. -/
def entryLoop (va : ℕ) : ℕ → ℕ → Option Pte
  | 0, q => some (word q (PX 0 va))
  | level + 1, q =>
    let pte := word q (PX (level + 1) va)
    if pte.v then entryLoop va level pte.ppn else none

/-- `*walk(pagetable, va, 0)`, if there is an entry for `va`. -/
def entry (va : ℕ) : Option Pte := if MAXVA ≤ va then none else entryLoop word va 2 pagetable

/-- The page that `walkaddr` finds. -/
def physical (va : ℕ) : Option ℕ :=
  match entry word pagetable va with
  | none => none
  | some pte => if pte.v = false ∨ pte.perm.u = false then none else some pte.ppn

end

theorem walkLoop_run (s : Ram) (va level q : ℕ) :
    ∃ loc, (walkLoop va false level q).run s = .ok (loc, s) ∧
      entryLoop s.word va level q = loc.map fun l => s.word l.1 l.2 := by
  induction level generalizing q with
  | zero => exact ⟨_, rfl, rfl⟩
  | succ level ih =>
    have hrun : (walkLoop va false (level + 1) q).run s = (if (s.word q (PX (level + 1) va)).v
          then walkLoop va false level (s.word q (PX (level + 1) va)).ppn
          else if false then _ else pure none : VM _).run s := rfl
    rw [hrun, entryLoop]
    cases hv : (s.word q (PX (level + 1) va)).v with
    | true => exact ih _
    | false => exact ⟨none, rfl, rfl⟩

theorem walkaddr_run (s : Ram) (pagetable va : ℕ) :
    (walkaddr pagetable va).run s = .ok (physical s.word pagetable va, s) := by
  rw [walkaddr, physical, entry]
  by_cases hva : MAXVA ≤ va
  · rw [if_pos hva, if_pos hva]
    rfl
  · obtain ⟨loc, hrun, hloc⟩ := walkLoop_run s va 2 pagetable
    rw [if_neg hva, if_neg hva, walk, if_neg hva, StateT.run_bind, hrun, hloc]
    cases loc with
    | none => rfl
    | some l =>
      change ((if (s.word l.1 l.2).v = false ∨ (s.word l.1 l.2).perm.u = false then pure none
        else pure (some (s.word l.1 l.2).ppn) : VM _).run s) = _
      rw [map_some]
      dsimp only
      split
      · rfl
      · rfl

theorem wp_walkaddr {s : Ram} {pagetable va : ℕ} {E : Panic → Prop} {Q : Option ℕ → Ram → Prop} :
    wp (walkaddr pagetable va) E s Q ↔ Q (physical s.word pagetable va) s := by
  rw [wp, walkaddr_run]

namespace Copy

/-- The bytes of memory, by page and offset. -/
abbrev Bytes := ℕ → ℕ → UInt8

/-- `memmove((void *)(pa0 + off), bs, n)` -/
def store (data : Bytes) (pa0 off : ℕ) (bs : List UInt8) : Bytes := fun q k =>
  if q = pa0 ∧ off ≤ k then bs.getD (k - off) (data q k) else data q k

section

variable (word : ℕ → Idx → Pte) (pagetable : ℕ)

/-- The page that `copyout` stores to for the address `va`; address 0 is `walkaddr`'s failure. -/
def target (va : ℕ) : Option ℕ := (physical word pagetable va).filter (· ≠ 0)

/-- The loop of `copyout`; every turn copies at least one byte. -/
def copyoutLoop : ℕ → Bytes → ℕ → List UInt8 → ℤ × Bytes
  | 0, data, _, _ => (0, data)
  | f + 1, data, dstva, src =>
    if src = [] then (0, data)
    else
      let va0 := dstva / PGSIZE * PGSIZE
      match target word pagetable va0 with
      | none => (-1, data)
      | some pa0 =>
        let n := min (PGSIZE - (dstva - va0)) src.length
        copyoutLoop f (store data pa0 (dstva - va0) (src.take n)) (va0 + PGSIZE) (src.drop n)

/-- `copyout(pagetable, dstva, src, len)`: the result, and the memory after it. -/
def copyout (data : Bytes) (dstva : ℕ) (src : List UInt8) : ℤ × Bytes :=
  copyoutLoop word pagetable src.length data dstva src

end

section

variable {word : ℕ → Idx → Pte} {pagetable : ℕ} {a b : ℕ}

theorem PX_congr (level : ℕ) (h : a / PGSIZE = b / PGSIZE) : PX level a = PX level b := by
  have hpow : 2 ^ (12 + 9 * level) = PGSIZE * 2 ^ (9 * level) := Nat.pow_add 2 12 (9 * level)
  rw [PX, PX, hpow, ← Nat.div_div_eq_div_mul, h, Nat.div_div_eq_div_mul]

section

variable (h : a / PGSIZE = b / PGSIZE)

include h

theorem entryLoop_congr (level q : ℕ) : entryLoop word a level q = entryLoop word b level q := by
  induction level generalizing q with
  | zero => rw [entryLoop, entryLoop, PX_congr 0 h]
  | succ level ih => rw [entryLoop, entryLoop, PX_congr (level + 1) h, ih]

theorem entry_congr : entry word pagetable a = entry word pagetable b := by
  have hlt : MAXVA ≤ a ↔ MAXVA ≤ b := by
    simp only [PGSIZE, MAXVA] at *
    omega
  rw [entry, entry, entryLoop_congr h, if_congr hlt rfl rfl]

theorem target_congr : target word pagetable a = target word pagetable b := by
  rw [target, target, physical, physical, entry_congr h]

end

variable {q : ℕ}

theorem entry_of_target {va : ℕ} (h : target word pagetable va = some q) :
    ∃ pte, entry word pagetable va = some pte ∧ pte.v = true ∧ pte.perm.u = true ∧ pte.ppn = q := by
  obtain ⟨hphys, -⟩ := filter_eq_some_iff.mp h
  unfold physical at hphys
  split at hphys
  · cases hphys
  next pte hentry =>
    split at hphys
    · cases hphys
    next hbits =>
      rw [not_or, Bool.not_eq_false, Bool.not_eq_false] at hbits
      exact ⟨pte, hentry, hbits.1, hbits.2, some.inj hphys⟩

variable {bs : List UInt8} {data : Bytes} {off pa0 : ℕ}

theorem store_ne (h : q ≠ pa0) : store data pa0 off bs q = data q := by
  funext k
  exact if_neg fun hq => h hq.1

theorem store_cases (data : Bytes) (pa0 off q k : ℕ) (bs : List UInt8) :
    store data pa0 off bs q k = data q k ∨ store data pa0 off bs q k ∈ bs := by
  unfold store
  split
  · rw [getD_eq_getElem?_getD]
    cases hb : bs[k - off]? with
    | none => exact .inl rfl
    | some b => exact .inr (mem_of_getElem? hb)
  · exact .inl rfl

theorem store_mem {k : ℕ} (hk : k < bs.length) : store data pa0 off bs pa0 (off + k) ∈ bs := by
  rw [store, if_pos ⟨rfl, Nat.le_add_right _ _⟩, Nat.add_sub_cancel_left,
    getD_eq_getElem?_getD, getElem?_eq_getElem hk]
  exact getElem_mem hk

theorem copyout_rule {P : Bytes → ℕ → List UInt8 → ℤ × Bytes → Prop}
    (done : ∀ data dstva, P data dstva [] (0, data))
    (missing : ∀ data dstva src, src ≠ [] → target word pagetable dstva = none →
      P data dstva src (-1, data)) (turn : ∀ data dstva q bs rest r, 0 < bs.length →
      (∀ k < bs.length, target word pagetable (dstva + k) = some q ∧
        (dstva + k) % PGSIZE = dstva % PGSIZE + k) →
      P (store data q (dstva % PGSIZE) bs) (dstva + bs.length) rest r →
      P data dstva (bs ++ rest) r) (data : Bytes) (dstva : ℕ) (src : List UInt8) :
    P data dstva src (copyout word pagetable data dstva src) := by
  have key : ∀ f data dstva src, src.length ≤ f →
      P data dstva src (copyoutLoop word pagetable f data dstva src) := by
    intro f
    induction f with
    | zero =>
      intro data dstva src hf
      obtain rfl := eq_nil_of_length_eq_zero (Nat.le_zero.mp hf)
      exact done data dstva
    | succ f ih =>
      intro data dstva src hf
      rw [copyoutLoop]
      by_cases hsrc : src = []
      · rw [if_pos hsrc, hsrc]
        exact done data dstva
      rw [if_neg hsrc]
      have hpos : 0 < src.length := length_pos_iff.mpr hsrc
      obtain ⟨va0, hva0⟩ : ∃ v, v = dstva / PGSIZE * PGSIZE := ⟨_, rfl⟩
      obtain ⟨n, hn⟩ : ∃ n, n = min (PGSIZE - (dstva - va0)) src.length := ⟨_, rfl⟩
      have hle : va0 ≤ dstva := hva0 ▸ Nat.div_mul_le_self dstva PGSIZE
      have hoff : dstva - va0 = dstva % PGSIZE ∧ dstva % PGSIZE < PGSIZE := by
        simp only [PGSIZE] at hva0 ⊢
        omega
      have hpage : target word pagetable va0 = target word pagetable dstva := by
        refine target_congr ?_
        simp only [PGSIZE] at hva0 ⊢
        omega
      dsimp only
      rw [← hva0, ← hn, hoff.1, hpage]
      cases htarget : target word pagetable dstva with
      | none => exact missing data dstva src hsrc htarget
      | some q =>
        have hlen : (src.take n).length = n := length_take_of_le (by omega)
        have hrest : (src.drop n).length ≤ f := by
          rw [length_drop]
          omega
        have hsame : ∀ k < (src.take n).length, target word pagetable (dstva + k) = some q ∧
              (dstva + k) % PGSIZE = dstva % PGSIZE + k := by
          intro k hk
          rw [hlen] at hk
          have hdiv : (dstva + k) / PGSIZE = dstva / PGSIZE := by
            simp only [PGSIZE] at *
            omega
          refine ⟨(target_congr hdiv).trans htarget, ?_⟩
          simp only [PGSIZE] at *
          omega
        have hturn := turn data dstva q (src.take n) (src.drop n)
          (copyoutLoop word pagetable f (store data q (dstva % PGSIZE) (src.take n))
            (va0 + PGSIZE) (src.drop n)) (by omega) hsame
        rw [take_append_drop] at hturn
        refine hturn ?_
        by_cases hall : src.drop n = []
        · rw [hall]
          cases f with
          | zero => exact done _ _
          | succ f => exact done _ _
        · have hnext : va0 + PGSIZE = dstva + (src.take n).length := by
            have := length_pos_iff.mpr hall
            rw [length_drop] at this
            rw [hlen]
            omega
          rw [hnext]
          exact ih _ _ _ hrest
  exact key src.length data dstva src le_rfl

/-! ## What `copyout` stores -/

/-- `copyout` comes to the address `va`: no address of the range up to `va` is missing. -/
def Copied (word : ℕ → Idx → Pte) (pagetable dstva va : ℕ) : Prop :=
  ∀ b, dstva ≤ b → b ≤ va → target word pagetable b ≠ none

theorem Copied.of_turn {dstva n : ℕ} (hn : ∀ k < n, target word pagetable (dstva + k) = some q)
    (h : Copied word pagetable (dstva + n) a) : Copied word pagetable dstva a := by
  intro b hle hba
  by_cases hb : b < dstva + n
  · have hk := hn (b - dstva) (by omega)
    rw [Nat.add_sub_cancel' hle] at hk
    rw [hk]
    exact some_ne_none q
  · exact h b (by omega) hba

theorem copyout_frame (data : Bytes) (dstva : ℕ) (src : List UInt8) (q : ℕ)
    (h : ∀ a, dstva ≤ a → a < dstva + src.length → Copied word pagetable dstva a →
      target word pagetable a ≠ some q) : (copyout word pagetable data dstva src).2 q = data q := by
  refine copyout_rule (P := fun data dstva src r => (∀ a, dstva ≤ a → a < dstva + src.length →
    Copied word pagetable dstva a → target word pagetable a ≠ some q) → r.2 q = data q)
    (fun _ _ _ => rfl) (fun _ _ _ _ _ _ => rfl) ?_ data dstva src h
  intro data dstva p bs rest r hpos hsame ih h
  have hpages : ∀ k < bs.length, target word pagetable (dstva + k) = some p :=
    fun k hk => (hsame k hk).1
  rw [ih fun a hle hlt hcopied => ?_]
  · refine store_ne fun heq => ?_
    have h0 : target word pagetable dstva = some p := hpages 0 hpos
    refine h dstva le_rfl ?_ (fun b hle hge => ?_) (by rw [h0, heq])
    · rw [length_append]
      omega
    · obtain rfl := Nat.le_antisymm hle hge
      rw [h0]
      exact some_ne_none p
  · rw [length_append, ← Nat.add_assoc] at h
    exact h a (by omega) (by omega) (hcopied.of_turn hpages)

theorem copyout_result (data : Bytes) (dstva : ℕ) (src : List UInt8) :
    (copyout word pagetable data dstva src).1 = -1 ∨
      ∀ a, dstva ≤ a → a < dstva + src.length → target word pagetable a ≠ none := by
  refine copyout_rule (P := fun _ dstva src r => r.1 = -1 ∨
    ∀ a, dstva ≤ a → a < dstva + src.length → target word pagetable a ≠ none)
    (fun _ dstva => .inr fun a hle hlt => ?_) (fun _ _ _ _ _ => .inl rfl) ?_ data dstva src
  · rw [length_nil] at hlt
    omega
  · intro data dstva p bs rest r hpos hsame ih
    refine ih.imp_right fun h a hle hlt => ?_
    rw [length_append, ← Nat.add_assoc] at hlt
    have hcopied : Copied word pagetable dstva a :=
      Copied.of_turn (fun k hk => (hsame k hk).1) fun b hb hba => h b hb (by omega)
    exact hcopied a hle le_rfl

theorem copyout_const {b : UInt8} (data : Bytes) (dstva : ℕ) (src : List UInt8)
    (hsrc : ∀ c ∈ src, c = b) :
    (∀ q k, data q k = b → (copyout word pagetable data dstva src).2 q k = b) ∧
    ∀ a q, dstva ≤ a → a < dstva + src.length → Copied word pagetable dstva a →
      target word pagetable a = some q →
      (copyout word pagetable data dstva src).2 q (a % PGSIZE) = b := by
  refine copyout_rule (P := fun data dstva src r => (∀ c ∈ src, c = b) →
    (∀ q k, data q k = b → r.2 q k = b) ∧
    ∀ a q, dstva ≤ a → a < dstva + src.length → Copied word pagetable dstva a →
      target word pagetable a = some q → r.2 q (a % PGSIZE) = b) ?_ ?_ ?_ data dstva src hsrc
  · refine fun _ dstva _ => ⟨fun _ _ h => h, fun a q hle hlt => ?_⟩
    rw [length_nil] at hlt
    omega
  · refine fun _ dstva src _ hnone _ => ⟨fun _ _ h => h, fun a q hle _ hcopied => ?_⟩
    exact absurd hnone (hcopied dstva le_rfl hle)
  · intro data dstva p bs rest r hpos hsame ih hsrc
    obtain ⟨hkeep, hcopy⟩ := ih fun c hc => hsrc c (mem_append_right _ hc)
    have hbs : ∀ c ∈ bs, c = b := fun c hc => hsrc c (mem_append_left _ hc)
    refine ⟨fun q k hqk => hkeep q k ?_, fun a q hle hlt hcopied hq => ?_⟩
    · rcases store_cases data p (dstva % PGSIZE) q k bs with h | h
      · rw [h, hqk]
      · exact hbs _ h
    · by_cases ha : a < dstva + bs.length
      · obtain ⟨k, rfl⟩ := Nat.exists_eq_add_of_le hle
        have hk : k < bs.length := by omega
        obtain ⟨hp, hmod⟩ := hsame k hk
        obtain rfl := some.inj (hp.symm.trans hq)
        rw [hmod]
        exact hkeep _ _ (hbs _ (store_mem hk))
      · rw [length_append, ← Nat.add_assoc] at hlt
        exact hcopy a q (by omega) hlt (fun c hc hca => hcopied c (by omega) hca) hq

end

/-! ## Permissions -/

section

variable (word : ℕ → Idx → Pte) (pagetable : ℕ)

/-- The address `va` is mapped to page `q`. -/
def Maps (va q : ℕ) : Prop :=
  ∃ pte, entry word pagetable va = some pte ∧ pte.v = true ∧ pte.ppn = q

/-- Page `q` is mapped, but only without `PTE_W`. -/
def ReadOnly (q : ℕ) : Prop :=
  (∃ va, Maps word pagetable va q) ∧
    ∀ va pte, entry word pagetable va = some pte → pte.v = true → pte.ppn = q → pte.perm.w = false

/-- `copyout` to `len` bytes from `dstva` on respects the permissions: whatever is copied, no page that is
mapped only without `PTE_W` changes, and if there is such a page in the range, the result is -1. -/
def Respects (dstva len : ℕ) : Prop :=
  ∀ (data : Bytes) (src : List UInt8), src.length = len →
    (∀ q, ReadOnly word pagetable q → (copyout word pagetable data dstva src).2 q = data q) ∧
    ((∃ a q, dstva ≤ a ∧ a < dstva + len ∧ Maps word pagetable a q ∧ ReadOnly word pagetable q) →
      (copyout word pagetable data dstva src).1 = -1)

end

theorem exists_of_entry {word : ℕ → Idx → Pte} {pagetable va : ℕ} {pte : Pte}
    (h : entry word pagetable va = some pte) : ∃ q i, pte = word q i := by
  have key : ∀ level q, entryLoop word va level q = some pte → ∃ q i, pte = word q i := by
    intro level
    induction level with
    | zero => exact fun q hq => ⟨q, PX 0 va, (some.inj hq).symm⟩
    | succ level ih =>
      intro q hq
      rw [entryLoop] at hq
      split at hq
      · exact ih _ hq
      · cases hq
  rw [entry] at h
  split at h
  · cases h
  · exact key 2 pagetable h

/-- A page table in which address 0 is mapped to page 4, with the permissions of text. -/
def textTable : ℕ → Idx → Pte := fun q i =>
  if i ≠ 0 then .ofWord 0
  else if q = 1 ∨ q = 2 then .ptr (q + 1)
  else if q = 3 then ⟨4, true, ⟨true, false, true, true, 0⟩⟩
  else .ofWord 0

theorem textTable_not_writable (q : ℕ) (i : Idx) : (textTable q i).perm.w = false := by
  unfold textTable
  split_ifs <;> rfl

/-- `copyout` of one byte stores it to a page of text, and succeeds. -/
theorem copyout_stores_to_text :
    ReadOnly textTable 1 4 ∧ (copyout textTable 1 (fun _ _ => 0) 0 [1]).1 = 0 ∧
      (copyout textTable 1 (fun _ _ => 0) 0 [1]).2 4 0 = 1 := by
  refine ⟨⟨⟨0, ⟨4, true, ⟨true, false, true, true, 0⟩⟩, by decide, rfl, rfl⟩, fun va pte h _ _ => ?_⟩,
    by decide, by decide⟩
  obtain ⟨q, i, rfl⟩ := exists_of_entry h
  exact textTable_not_writable q i

/-- `copyout` respects the permissions if and only if, up to the first address of the range that
`walkaddr` rejects, no page of the range is mapped only without `PTE_W`. -/
theorem copyout_respects_permissions_iff (word : ℕ → Idx → Pte) (pagetable dstva len : ℕ) :
    Respects word pagetable dstva len ↔
      ∀ a q, dstva ≤ a → a < dstva + len → Copied word pagetable dstva a →
        Maps word pagetable a q → ¬ ReadOnly word pagetable q := by
  constructor
  · intro h a q hle hlt hcopied hmaps hro
    obtain ⟨p, hp⟩ := Option.ne_none_iff_exists'.mp (hcopied a hle le_rfl)
    obtain ⟨pte, hentry, -, -, rfl⟩ := entry_of_target hp
    obtain ⟨pte', hentry', -, rfl⟩ := hmaps
    obtain rfl := Option.some.inj (hentry.symm.trans hentry')
    -- a page of zeros, and a source of ones
    have hlen : (replicate len (1 : UInt8)).length = len := length_replicate
    have hsame := (h (fun _ _ => 0) (replicate len 1) hlen).1 _ hro
    have hone := (@copyout_const word pagetable 1 (fun _ _ => 0) dstva
      (replicate len 1) fun c hc => eq_of_mem_replicate hc).2 a _ hle
      (by rwa [hlen]) hcopied hp
    rw [hsame] at hone
    cases hone
  · intro h data src hsrc
    refine ⟨fun q hro => ?_, ?_⟩
    · refine copyout_frame data dstva src q fun a hle hlt hcopied htarget => ?_
      rw [hsrc] at hlt
      obtain ⟨pte, hentry, hv, -, hppn⟩ := entry_of_target htarget
      exact h a q hle hlt hcopied ⟨pte, hentry, hv, hppn⟩ hro
    · rintro ⟨a, q, hle, hlt, hmaps, hro⟩
      rcases @copyout_result word pagetable data dstva src with hr | hall
      · exact hr
      · rw [hsrc] at hall
        exact absurd hro (h a q hle hlt (fun b hb hba => hall b hb (by omega)) hmaps)

end Copy

end Xv6.Vm
