import Mathlib.Algebra.BigOperators.Group.Finset.Basic

/-!
# Assertions about the pages that somebody has

An assertion speaks about memory and a multiset of pages, those that it owns, and depends on the contents
of these pages only. `A * B` owns what `A` owns and what `B` owns. With this product the assertions are a
commutative monoid, so that the assertions of a family of owners multiply up, and one owner is taken out of
the family by the rules for products.
-/

namespace Xv6.Lib

/-- An assertion about pages with contents in `P`. -/
structure Assn (P : Type) where
  Sat : (ℕ → P) → Multiset ℕ → Prop
  frame {mem mem' : ℕ → P} {x : Multiset ℕ} :
    Sat mem x → (∀ q ∈ x, mem' q = mem q) → Sat mem' x

namespace Assn

variable {P : Type} {A A' B : Assn P} {mem : ℕ → P} {x y : Multiset ℕ}

theorem ext_sat (h : ∀ mem x, A.Sat mem x ↔ B.Sat mem x) : A = B := by
  obtain ⟨SatA, hA⟩ := A
  obtain ⟨SatB, hB⟩ := B
  obtain rfl : SatA = SatB := by
    funext mem x
    exact propext (h mem x)
  rfl

/-- Exactly the pages `x`, with any contents. -/
def pages (P : Type) (x : Multiset ℕ) : Assn P where
  Sat _ y := y = x
  frame h _ := h

instance : One (Assn P) := ⟨pages P 0⟩

instance : Mul (Assn P) where
  mul A B := {
    Sat := fun mem x => ∃ y z, x = y + z ∧ A.Sat mem y ∧ B.Sat mem z
    frame := fun ⟨y, z, hx, hA, hB⟩ hmem => by
      subst hx
      exact ⟨y, z, rfl, A.frame hA fun q hq => hmem q (Multiset.mem_add.mpr (.inl hq)),
        B.frame hB fun q hq => hmem q (Multiset.mem_add.mpr (.inr hq))⟩ }

theorem Sat.mul (hA : A.Sat mem x) (hB : B.Sat mem y) : (A * B).Sat mem (x + y) :=
  ⟨x, y, rfl, hA, hB⟩

protected theorem mul_comm (A B : Assn P) : A * B = B * A := by
  have hswap : ∀ A B : Assn P, ∀ mem x, (A * B).Sat mem x → (B * A).Sat mem x := by
    rintro A B mem x ⟨y, z, rfl, hA, hB⟩
    exact ⟨z, y, add_comm y z, hB, hA⟩
  exact ext_sat fun mem x => ⟨hswap A B mem x, hswap B A mem x⟩

instance : CommMonoid (Assn P) where
  mul_assoc A B C := by
    refine ext_sat fun mem x => ⟨?_, ?_⟩
    · rintro ⟨_, z, rfl, ⟨u, v, rfl, hA, hB⟩, hC⟩
      exact ⟨u, v + z, add_assoc u v z, hA, hB.mul hC⟩
    · rintro ⟨u, _, rfl, hA, v, z, rfl, hB, hC⟩
      exact ⟨u + v, z, (add_assoc u v z).symm, hA.mul hB, hC⟩
  one_mul A := by
    refine ext_sat fun mem x => ⟨?_, fun h => ⟨0, x, (zero_add x).symm, rfl, h⟩⟩
    rintro ⟨_, z, rfl, rfl, hA⟩
    rw [zero_add]
    exact hA
  mul_one A := by
    refine ext_sat fun mem x => ⟨?_, fun h => ⟨x, 0, (add_zero x).symm, h, rfl⟩⟩
    rintro ⟨y, _, rfl, hA, rfl⟩
    rw [add_zero]
    exact hA
  mul_comm := Assn.mul_comm

theorem pages_add (x y : Multiset ℕ) : pages P (x + y) = pages P x * pages P y := by
  refine ext_sat fun mem z => ⟨fun h => ⟨x, y, h, rfl, rfl⟩, ?_⟩
  rintro ⟨_, _, rfl, rfl, rfl⟩
  rfl

theorem pages_cons (q : ℕ) (x : Multiset ℕ) : pages P (q ::ₘ x) = pages P {q} * pages P x := by
  rw [← Multiset.singleton_add, pages_add]

end Assn

end Xv6.Lib
