import Mathlib.Algebra.Order.BigOperators.Group.Finset
import Mathlib.Data.Fintype.BigOperators

/-!
# Counting the indices at which a function takes a value

A protocol state holds one value for each process; its counters count the processes at certain
values. `countAt_update` says what moving one process does to such a count, in a form that linear
arithmetic can use without case splits.
-/

namespace Xv6.Lib

open Finset

variable {ι X : Type*} [Fintype ι] [DecidableEq X]

omit [DecidableEq X] in
/-- Two sums whose terms differ at one index only. -/
theorem sum_add_eq_of_eq_off [DecidableEq ι] {f g : ι → ℕ} (i : ι) (h : ∀ j, j ≠ i → g j = f j) :
    ∑ j, g j + f i = ∑ j, f j + g i := by
  have hrest : ∑ j ∈ univ.erase i, g j = ∑ j ∈ univ.erase i, f j :=
    sum_congr rfl fun j hj => h j (ne_of_mem_erase hj)
  have hg : g i + ∑ j ∈ univ.erase i, g j = ∑ j, g j :=
    add_sum_erase _ g (mem_univ i)
  have hf : f i + ∑ j ∈ univ.erase i, f j = ∑ j, f j :=
    add_sum_erase _ f (mem_univ i)
  omega

omit [DecidableEq X] in
/-- Two terms of a sum. -/
theorem add_le_sum_of_ne [DecidableEq ι] (f : ι → ℕ) {i j : ι} (h : i ≠ j) :
    f i + f j ≤ ∑ k, f k := by
  have hj : f j + ∑ k ∈ univ.erase j, f k = ∑ k, f k :=
    add_sum_erase _ f (mem_univ j)
  have hi : f i ≤ ∑ k ∈ univ.erase j, f k :=
    single_le_sum (fun _ _ => Nat.zero_le _) (mem_erase.mpr ⟨h, mem_univ i⟩)
  omega

/-- The number of indices at which `f` is `x`. -/
def countAt (f : ι → X) (x : X) : ℕ := (Finset.univ.filter fun i => f i = x).card

theorem countAt_eq_sum (f : ι → X) (x : X) : countAt f x = ∑ i, if f i = x then 1 else 0 := by
  rw [countAt, card_filter]

/-- Moving index `i` from `f i` to `y` takes one from the count of `f i` and adds one to that of
`y`. -/
theorem countAt_update [DecidableEq ι] (f : ι → X) (i : ι) (y x : X) :
    countAt (Function.update f i y) x + (if f i = x then 1 else 0) =
      countAt f x + (if y = x then 1 else 0) := by
  have h := sum_add_eq_of_eq_off (f := fun j => if f j = x then 1 else 0)
    (g := fun j => if Function.update f i y j = x then 1 else 0) i
    fun j hj => by rw [Function.update_of_ne hj]
  simpa only [countAt_eq_sum, Function.update_self] using h

theorem countAt_pos {f : ι → X} {x : X} {i : ι} (h : f i = x) : 0 < countAt f x :=
  card_pos.mpr ⟨i, by simpa using h⟩

theorem countAt_eq_zero {f : ι → X} {x : X} : countAt f x = 0 ↔ ∀ i, f i ≠ x := by
  rw [countAt, card_eq_zero, filter_eq_empty_iff]
  simp

theorem countAt_congr {f g : ι → X} {x : X} (h : ∀ i, f i = x ↔ g i = x) :
    countAt f x = countAt g x := by
  rw [countAt, countAt]
  congr 1
  ext i
  simp [h i]

end Xv6.Lib
