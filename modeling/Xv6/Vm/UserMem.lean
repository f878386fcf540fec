import Mathlib.Tactic.Ring
import Mathlib.Data.List.Basic

/-!
# User memory as the copy functions of the kernel see it

A process's memory by virtual address: which pages `walkaddr` finds, and the bytes behind them.
Distinct pages are distinct memory. `copyout` of `kernel/vm.c` copies page by page; `copyout_of_mapped`
and `copyout_of_not_mapped` say what it does as a whole.
-/

namespace Xv6

open List

/-- bytes per page -/
abbrev PGSIZE : ℕ := 4096

/-- one beyond the highest virtual address -/
abbrev MAXVA : ℕ := 2 ^ 38

/-- The memory of a process. -/
structure UserMem where
  /-- the page has a valid PTE with `PTE_U` -/
  user : ℕ → Bool
  byte : ℕ → UInt8

namespace UserMem

variable (m : UserMem)

/-- `walkaddr` finds a physical address for `va`. -/
def walkaddr (va : ℕ) : Bool := decide (va < MAXVA) && m.user (va / PGSIZE)

/-- Store `bs` from address `va` on. -/
def write (va : ℕ) (bs : List UInt8) : UserMem :=
  { m with byte := fun a => if va ≤ a then bs.getD (a - va) (m.byte a) else m.byte a }

/-- The `n` bytes from address `va` on. -/
def read (va n : ℕ) : List UInt8 := (List.range n).map fun k => m.byte (va + k)

/-- Every page of `[va, va + n)` is the process's. -/
def Mapped (va n : ℕ) : Prop := ∀ k < n, m.walkaddr (va + k) = true

instance (va n : ℕ) : Decidable (m.Mapped va n) :=
  inferInstanceAs (Decidable (∀ k < n, m.walkaddr (va + k) = true))

/-- The loop of `copyout`; every turn but the last copies at least one byte, so `src.length` turns
suffice. -/
def copyoutLoop : ℕ → UserMem → ℕ → List UInt8 → ℤ × UserMem
  | 0, m, _, _ => (0, m)
  | k + 1, m, dstva, src =>
    if src = [] then (0, m)
    else
      let va0 := dstva / PGSIZE * PGSIZE
      if m.walkaddr va0 then
        let n := min (PGSIZE - (dstva - va0)) src.length
        copyoutLoop k (m.write dstva (src.take n)) (va0 + PGSIZE) (src.drop n)
      else (-1, m)

/-- `copyout(pagetable, dstva, src, len)`: the result and the memory after it. -/
def copyout (dstva : ℕ) (src : List UInt8) : ℤ × UserMem := copyoutLoop src.length m dstva src

/-- The loop of `copyin`: whether it succeeds, and the bytes it copies before it ends. -/
def copyinLoop (m : UserMem) : ℕ → ℕ → ℕ → Bool × List UInt8
  | 0, _, _ => (true, [])
  | k + 1, srcva, len =>
    if len = 0 then (true, [])
    else
      let va0 := srcva / PGSIZE * PGSIZE
      if m.walkaddr va0 then
        let n := min (PGSIZE - (srcva - va0)) len
        let r := copyinLoop m k (va0 + PGSIZE) (len - n)
        (r.1, m.read srcva n ++ r.2)
      else (false, [])

/-- `copyin(pagetable, dst, srcva, len)`. -/
def copyin (srcva len : ℕ) : Bool × List UInt8 := m.copyinLoop len srcva len

variable {m}

@[simp] theorem walkaddr_write (va : ℕ) (bs : List UInt8) (a : ℕ) :
    (m.write va bs).walkaddr a = m.walkaddr a := rfl

@[simp] theorem mapped_write (va : ℕ) (bs : List UInt8) (a n : ℕ) :
    (m.write va bs).Mapped a n ↔ m.Mapped a n := Iff.rfl

theorem walkaddr_congr {a b : ℕ} (h : a / PGSIZE = b / PGSIZE) : m.walkaddr a = m.walkaddr b := by
  have hlt : a < MAXVA ↔ b < MAXVA := by
    simp only [PGSIZE, MAXVA] at *
    omega
  simp [walkaddr, h, hlt]

variable {bs : List UInt8}

theorem byte_write_of_notMem {va a : ℕ} (h : ¬ (va ≤ a ∧ a < va + bs.length)) :
    (m.write va bs).byte a = m.byte a := by
  by_cases hva : va ≤ a
  · simp [write, hva, getD_eq_getElem?_getD, getElem?_eq_none (show bs.length ≤ a - va by omega)]
  · simp [write, hva]

theorem byte_write_of_lt {va k : ℕ} (h : k < bs.length) : (m.write va bs).byte (va + k) = bs[k] := by
  simp [write, getElem?_eq_getElem h]

theorem read_write (m : UserMem) (va : ℕ) {n : ℕ} (h : bs.length ≤ n) :
    ∃ rest, (m.write va bs).read va n = bs ++ rest := by
  refine ⟨((m.write va bs).read va n).drop bs.length, ?_⟩
  conv_lhs => rw [← take_append_drop bs.length ((m.write va bs).read va n)]
  congr 1
  apply ext_getElem
  · simp [read, h]
  · intro k h1 h2
    simp [read, byte_write_of_lt h2]

theorem read_write_of_disjoint {va a n : ℕ} (h : ∀ k < n, ¬ (va ≤ a + k ∧ a + k < va + bs.length)) :
    (m.write va bs).read a n = m.read a n := by
  unfold read
  refine map_congr_left fun k hk => ?_
  exact byte_write_of_notMem (h k (by simpa using hk))

@[simp] theorem write_nil (va : ℕ) : m.write va [] = m := by
  simp [write]

theorem write_append (va : ℕ) (bs cs : List UInt8) :
    (m.write va bs).write (va + bs.length) cs = m.write va (bs ++ cs) := by
  simp only [write, UserMem.mk.injEq, true_and]
  funext a
  by_cases ha : va ≤ a
  · by_cases hb : va + bs.length ≤ a
    · have h1 : bs.length ≤ a - va := by omega
      simp [ha, hb, getD_eq_getElem?_getD, getElem?_append_right h1, Nat.sub_sub, getElem?_eq_none h1]
    · have h1 : a - va < bs.length := by omega
      simp [ha, hb, getD_eq_getElem?_getD, getElem?_append_left h1]
  · have hb : ¬ va + bs.length ≤ a := by omega
    simp [ha, hb]

theorem copyoutLoop_spec (k : ℕ) (dstva : ℕ) (src : List UInt8) (hk : src.length ≤ k) :
    (m.Mapped dstva src.length → copyoutLoop k m dstva src = (0, m.write dstva src)) ∧
      (¬ m.Mapped dstva src.length → ∃ m', copyoutLoop k m dstva src = (-1, m')) := by
  induction k generalizing m dstva src with
  | zero =>
    obtain rfl : src = [] := eq_nil_of_length_eq_zero (by omega)
    exact ⟨fun _ => by simp [copyoutLoop], fun h => absurd (fun k hk => by simp at hk) h⟩
  | succ k ih =>
    by_cases hsrc : src = []
    · subst hsrc
      exact ⟨fun _ => by simp [copyoutLoop], fun h => absurd (fun k hk => by simp at hk) h⟩
    have hlen : 0 < src.length := length_pos_iff.mpr hsrc
    obtain ⟨va0, hva0⟩ : ∃ v, v = dstva / PGSIZE * PGSIZE := ⟨_, rfl⟩
    obtain ⟨n, hn⟩ : ∃ n, n = min (PGSIZE - (dstva - va0)) src.length := ⟨_, rfl⟩
    have hoff : va0 ≤ dstva ∧ dstva - va0 < PGSIZE := by
      simp only [PGSIZE] at hva0 ⊢
      omega
    have hnpos : 0 < n := by omega
    have hnle : n ≤ src.length := by omega
    have hpage : ∀ j < n, m.walkaddr (dstva + j) = m.walkaddr va0 := fun j hj => by
      apply walkaddr_congr
      simp only [PGSIZE] at *
      omega
    -- the range is the rest of this page and what the next turns copy
    have hsplit : m.Mapped dstva src.length ↔
        m.walkaddr va0 = true ∧ m.Mapped (va0 + PGSIZE) (src.length - n) := by
      constructor
      · intro h
        refine ⟨by rw [← hpage 0 hnpos]; exact h 0 hlen, fun j hj => ?_⟩
        have hjn : dstva + (n + j) = va0 + PGSIZE + j := by omega
        rw [← hjn]
        exact h (n + j) (by omega)
      · rintro ⟨h0, h1⟩ j hj
        by_cases hjn : j < n
        · rw [hpage j hjn, h0]
        · have : dstva + j = va0 + PGSIZE + (j - n) := by omega
          rw [this]
          exact h1 (j - n) (by omega)
    have hstep : m.walkaddr va0 = true → copyoutLoop (k + 1) m dstva src =
        copyoutLoop k (m.write dstva (src.take n)) (va0 + PGSIZE) (src.drop n) := fun h0 => by
      simp [copyoutLoop, hsrc, ← hva0, h0, ← hn]
    have hrest := ih (m := m.write dstva (src.take n)) (va0 + PGSIZE) (src.drop n)
      (by rw [length_drop]; omega)
    rw [length_drop, mapped_write] at hrest
    rw [hsplit]
    constructor
    · rintro ⟨h0, h1⟩
      rw [hstep h0, hrest.1 h1]
      by_cases hall : n = src.length
      · rw [hall, take_length, drop_length, write_nil]
      · have hnext : va0 + PGSIZE = dstva + (src.take n).length := by
          rw [length_take_of_le hnle]
          omega
        rw [hnext, write_append, take_append_drop]
    · intro h
      by_cases h0 : m.walkaddr va0 = true
      · rw [hstep h0]
        exact hrest.2 fun h1 => h ⟨h0, h1⟩
      · exact ⟨m, by simp [copyoutLoop, hsrc, ← hva0, h0]⟩

variable {src : List UInt8}

theorem copyout_of_mapped {dstva : ℕ} (h : m.Mapped dstva src.length) :
    m.copyout dstva src = (0, m.write dstva src) :=
  (copyoutLoop_spec src.length dstva src (Nat.le_refl _)).1 h

theorem copyout_of_not_mapped {dstva : ℕ} (h : ¬ m.Mapped dstva src.length) :
    ∃ m', m.copyout dstva src = (-1, m') :=
  (copyoutLoop_spec src.length dstva src (Nat.le_refl _)).2 h

theorem byte_copyoutLoop_of_notMem (k : ℕ) {dstva a : ℕ}
    (ha : ¬ (dstva ≤ a ∧ a < dstva + src.length)) : (copyoutLoop k m dstva src).2.byte a = m.byte a := by
  induction k generalizing m dstva src with
  | zero => rfl
  | succ k ih =>
    rw [copyoutLoop]
    split
    · rfl
    simp only [PGSIZE]
    split
    · rw [ih (by rw [length_drop]; omega), byte_write_of_notMem (by rw [length_take]; omega)]
    · rfl

theorem read_append (m : UserMem) (va n k : ℕ) : m.read va n ++ m.read (va + n) k = m.read va (n + k) := by
  unfold read
  rw [range_add, map_append, map_map]
  congr 1
  refine map_congr_left fun j _ => ?_
  rw [Function.comp_apply, Nat.add_assoc]

@[simp] theorem length_read (m : UserMem) (va n : ℕ) : (m.read va n).length = n := by
  simp [read]

theorem Mapped.append {va n j : ℕ} (h : m.Mapped va n) (h' : m.Mapped (va + n) j) :
    m.Mapped va (n + j) := by
  intro i hi
  by_cases hin : i < n
  · exact h i hin
  · have := h' (i - n) (by omega)
    rwa [Nat.add_assoc, Nat.add_sub_cancel' (by omega)] at this

theorem copyinLoop_cases (k : ℕ) {srcva len : ℕ} (hk : len ≤ k) :
    (m.Mapped srcva len ∧ m.copyinLoop k srcva len = (true, m.read srcva len)) ∨
      ∃ u < len, m.Mapped srcva u ∧ m.walkaddr (srcva + u) = false ∧
        m.copyinLoop k srcva len = (false, m.read srcva u) := by
  induction k generalizing srcva len with
  | zero =>
    obtain rfl : len = 0 := by omega
    exact .inl ⟨fun j hj => by omega, rfl⟩
  | succ k ih =>
    rw [copyinLoop]
    by_cases hlen : len = 0
    · subst hlen
      exact .inl ⟨fun j hj => by omega, rfl⟩
    obtain ⟨va0, hva0⟩ : ∃ v, v = srcva / PGSIZE * PGSIZE := ⟨_, rfl⟩
    obtain ⟨n, hn⟩ : ∃ n, n = min (PGSIZE - (srcva - va0)) len := ⟨_, rfl⟩
    have hoff : va0 ≤ srcva ∧ srcva - va0 < PGSIZE := by
      simp only [PGSIZE] at hva0 ⊢
      omega
    have hpage : ∀ j < n, m.walkaddr (srcva + j) = m.walkaddr va0 := fun j hj => by
      apply walkaddr_congr
      simp only [PGSIZE] at *
      omega
    rw [if_neg hlen]
    simp only [← hva0, ← hn]
    by_cases h0 : m.walkaddr va0 = true
    · have hmapped : m.Mapped srcva n := fun j hj => (hpage j hj).trans h0
      rw [if_pos h0]
      by_cases hall : n = len
      · have hend : m.copyinLoop k (va0 + PGSIZE) 0 = (true, []) := by cases k <;> rfl
        rw [hall, Nat.sub_self, hend, append_nil]
        rw [hall] at hmapped
        exact .inl ⟨hmapped, rfl⟩
      · have hnext : va0 + PGSIZE = srcva + n := by omega
        rw [hnext]
        rcases @ih (srcva + n) (len - n) (by omega) with ⟨hrest, hrun⟩ | ⟨u, hu, hrest, hbad, hrun⟩
        · have hsum : n + (len - n) = len := by omega
          rw [hrun, read_append, hsum]
          exact .inl ⟨hsum ▸ hmapped.append hrest, rfl⟩
        · rw [hrun, read_append]
          refine .inr ⟨n + u, by omega, hmapped.append hrest, ?_, rfl⟩
          rwa [← Nat.add_assoc]
    · rw [if_neg h0]
      refine .inr ⟨0, by omega, fun j hj => by omega, ?_, rfl⟩
      rw [hpage 0 (by omega)]
      exact Bool.eq_false_iff.mpr h0

theorem copyin_cases (m : UserMem) (srcva len : ℕ) :
    (m.Mapped srcva len ∧ m.copyin srcva len = (true, m.read srcva len)) ∨
      ∃ u < len, m.Mapped srcva u ∧ m.walkaddr (srcva + u) = false ∧
        m.copyin srcva len = (false, m.read srcva u) :=
  copyinLoop_cases len (Nat.le_refl _)

theorem copyin_of_mapped {srcva len : ℕ} (h : m.Mapped srcva len) :
    m.copyin srcva len = (true, m.read srcva len) := by
  rcases copyin_cases m srcva len with ⟨-, hrun⟩ | ⟨u, hu, -, hbad, -⟩
  · exact hrun
  · rw [h u hu] at hbad
    cases hbad

end UserMem

end Xv6
