import Mathlib.Data.Nat.Notation
import Mathlib.Logic.Function.Basic

/-!
# Ownership of numbered resources

Slots refer to resources by number, 0 meaning none, and a map marks the resources in use. `Owns` says
that the marked resources of a region and the nonzero slots correspond one to one. Filling an empty
slot with an unmarked resource and emptying a slot while unmarking its resource keep it.
-/

namespace Xv6.Lib

open Function

variable {ι : Type*}

/-- Each resource of the region that is in use has exactly one slot, and slots refer to no others. -/
structure Owns (val : ι → ℕ) (Region : ℕ → Prop) (used : ℕ → Bool) : Prop where
  pos : ∀ b, Region b → b ≠ 0
  inj : ∀ x y, val x ≠ 0 → val x = val y → x = y
  owned : ∀ x, val x ≠ 0 → Region (val x) ∧ used (val x) = true
  cover : ∀ b, Region b → used b = true → ∃ x, val x = b

namespace Owns

variable {val : ι → ℕ} {Region : ℕ → Prop} {used : ℕ → Bool}

/-- An unused resource is in no slot. -/
theorem val_ne (h : Owns val Region used) {b : ℕ} (hb : Region b) (hu : used b = false) (x : ι) :
    val x ≠ b := by
  rintro rfl
  have := (h.owned x (h.pos _ hb)).2
  rw [hu] at this
  cases this

variable [DecidableEq ι]

/-- An empty slot takes an unused resource. -/
theorem alloc (h : Owns val Region used) {x : ι} (hx : val x = 0) {b : ℕ} (hb : Region b)
    (hu : used b = false) : Owns (Function.update val x b) Region (Function.update used b true) where
  pos := h.pos
  inj y z hy hyz := by
    have hne := h.val_ne hb hu
    rcases eq_or_ne y x with rfl | hyx <;> rcases eq_or_ne z y with rfl | hzy
    · rfl
    · rw [update_self, update_of_ne hzy] at hyz
      exact absurd hyz.symm (hne z)
    · rfl
    · rw [update_of_ne hyx] at hy hyz
      rcases eq_or_ne z x with rfl | hzx
      · rw [update_self] at hyz
        exact absurd hyz (hne y)
      · rw [update_of_ne hzx] at hyz
        exact h.inj y z hy hyz
  owned y hy := by
    rcases eq_or_ne y x with rfl | hyx
    · rw [update_self]
      exact ⟨hb, update_self ..⟩
    · rw [update_of_ne hyx] at hy ⊢
      rw [update_of_ne (h.val_ne hb hu y)]
      exact h.owned y hy
  cover c hc hcu := by
    rcases eq_or_ne c b with rfl | hcb
    · exact ⟨x, update_self ..⟩
    · rw [update_of_ne hcb] at hcu
      obtain ⟨y, rfl⟩ := h.cover c hc hcu
      have hyx : y ≠ x := by
        rintro rfl
        exact h.pos _ hc hx
      exact ⟨y, update_of_ne hyx ..⟩

/-- A slot gives its resource up. -/
theorem release (h : Owns val Region used) {x : ι} (hx : val x ≠ 0) :
    Owns (Function.update val x 0) Region (Function.update used (val x) false) where
  pos := h.pos
  inj y z hy hyz := by
    have hyx : y ≠ x := by
      rintro rfl
      exact hy (update_self ..)
    rw [update_of_ne hyx] at hy hyz
    have hzx : z ≠ x := by
      rintro rfl
      rw [update_self] at hyz
      exact hy hyz
    rw [update_of_ne hzx] at hyz
    exact h.inj y z hy hyz
  owned y hy := by
    have hyx : y ≠ x := by
      rintro rfl
      exact hy (update_self ..)
    rw [update_of_ne hyx] at hy ⊢
    have hne : val y ≠ val x := fun heq => hyx (h.inj y x hy heq)
    rw [update_of_ne hne]
    exact h.owned y hy
  cover c hc hcu := by
    have hne : c ≠ val x := by
      rintro rfl
      rw [update_self] at hcu
      cases hcu
    rw [update_of_ne hne] at hcu
    obtain ⟨y, rfl⟩ := h.cover c hc hcu
    have hyx : y ≠ x := fun heq => hne (by rw [heq])
    exact ⟨y, update_of_ne hyx ..⟩

end Owns

end Xv6.Lib
