import Mathlib.Data.List.Basic

/-!
# Finite maps in slots

A finite map kept in an array of slots, each empty or with a key and its value. Keys are found by a scan,
a new key goes to any empty slot, and a key is removed by emptying its slot. As long as no key is in two
slots the scan finds the map, whatever the order of the slots is.
-/

namespace Xv6.Lib.Slots

open Function Option

variable {K V : Type} [DecidableEq K] {t : ℕ → Option (K × V)} {n n' m : ℕ} {k k' : K} {v : V}

/-- What slot `m` says about key `k`. -/
def hit (t : ℕ → Option (K × V)) (k : K) (m : ℕ) : Option (ℕ × V) :=
  (t m).bind fun x => if x.1 = k then some (m, x.2) else none

/-- The first of `n` slots that has the key, with its value. -/
def find (t : ℕ → Option (K × V)) (n : ℕ) (k : K) : Option (ℕ × V) :=
  (List.range n).findSome? (hit t k)

/-- No key is in two slots. -/
def Distinct (t : ℕ → Option (K × V)) : Prop :=
  ∀ m m' k v v', t m = some (k, v) → t m' = some (k, v') → m = m'

theorem hit_eq_some_iff {x : ℕ × V} : hit t k m = some x ↔ x.1 = m ∧ t m = some (k, x.2) := by
  obtain ⟨m', v⟩ := x
  unfold hit
  cases ht : t m with
  | none => simp
  | some y =>
    obtain ⟨k', v'⟩ := y
    by_cases hk : k' = k
    · simp only [bind_some, hk, if_true, Option.some.injEq, Prod.mk.injEq, true_and]
      rw [eq_comm (a := m)]
    · simp [hk]

/-- What is found is there. -/
theorem of_find_eq_some (h : find t n k = some (m, v)) : m < n ∧ t m = some (k, v) := by
  obtain ⟨m', hm', hhit⟩ := List.exists_of_findSome?_eq_some h
  obtain ⟨heq, ht⟩ := hit_eq_some_iff.mp hhit
  obtain rfl : m = m' := heq
  exact ⟨List.mem_range.mp hm', ht⟩

theorem find_eq_none_iff : find t n k = none ↔ ∀ m < n, ∀ v, t m ≠ some (k, v) := by
  unfold find
  rw [List.findSome?_eq_none_iff]
  constructor
  · intro h m hm v ht
    have hhit : hit t k m = some (m, v) := hit_eq_some_iff.mpr ⟨rfl, ht⟩
    rw [h m (List.mem_range.mpr hm)] at hhit
    exact some_ne_none _ hhit.symm
  · intro h m hm
    rw [eq_none_iff_forall_ne_some]
    intro x hx
    exact h m (List.mem_range.mp hm) x.2 (hit_eq_some_iff.mp hx).2

/-- In a table without double keys, what is there is found. -/
theorem find_eq_some_iff (hd : Distinct t) : find t n k = some (m, v) ↔ m < n ∧ t m = some (k, v) := by
  refine ⟨of_find_eq_some, fun ⟨hm, ht⟩ => ?_⟩
  cases hf : find t n k with
  | none => exact absurd ht (find_eq_none_iff.mp hf m hm v)
  | some x =>
    obtain ⟨m', v'⟩ := x
    obtain ⟨-, ht'⟩ := of_find_eq_some hf
    obtain rfl := hd m m' k v v' ht ht'
    rw [ht] at ht'
    rw [(Prod.mk.inj (Option.some.inj ht')).2]

/-- Two tables that hold the same of a key. -/
theorem find_congr (hd : Distinct t) {t' : ℕ → Option (K × V)} (hd' : Distinct t')
    (h : ∀ m v, m < n' ∧ t' m = some (k, v) ↔ m < n ∧ t m = some (k, v)) :
    find t' n' k = find t n k := by
  refine ext fun x => ?_
  obtain ⟨m, v⟩ := x
  rw [find_eq_some_iff hd', find_eq_some_iff hd]
  exact h m v

/-! ## A new key -/

section

variable (hd : Distinct t) (hend : ∀ m, n ≤ m → t m = none) (hfree : t m = none)
  (hnew : find t n k = none)

include hd hend hnew

theorem distinct_insert (v : V) : Distinct (update t m (some (k, v))) := by
  have hno : ∀ j w, t j ≠ some (k, w) := by
    intro j w hj
    by_cases hlt : j < n
    · exact find_eq_none_iff.mp hnew j hlt w hj
    · rw [hend j (Nat.not_lt.mp hlt)] at hj
      exact some_ne_none _ hj.symm
  intro i j q w w' hi hj
  by_cases him : i = m
  · by_cases hjm : j = m
    · rw [him, hjm]
    · rw [him, update_self] at hi
      rw [update_of_ne hjm, ← (Prod.mk.inj (Option.some.inj hi)).1] at hj
      exact absurd hj (hno j w')
  · rw [update_of_ne him] at hi
    by_cases hjm : j = m
    · rw [hjm, update_self] at hj
      rw [← (Prod.mk.inj (Option.some.inj hj)).1] at hi
      exact absurd hi (hno i w)
    · rw [update_of_ne hjm] at hj
      exact hd i j q w w' hi hj

theorem find_insert_self (v : V) (hm : m < n') : find (update t m (some (k, v))) n' k = some (m, v) :=
  (find_eq_some_iff (distinct_insert hd hend hnew v)).mpr ⟨hm, update_self ..⟩

include hfree in
theorem find_insert_ne (v : V) (hn : n ≤ n') (hk : k' ≠ k) :
    find (Function.update t m (some (k, v))) n' k' = find t n k' := by
  refine find_congr hd (distinct_insert hd hend hnew v) fun j w => ?_
  by_cases hj : j = m
  · subst hj
    rw [update_self, hfree]
    refine iff_of_false (fun h => hk ?_) fun h => some_ne_none _ h.2.symm
    exact (Prod.mk.inj (Option.some.inj h.2)).1.symm
  · rw [update_of_ne hj]
    refine ⟨fun h => ⟨?_, h.2⟩, fun h => ⟨Nat.lt_of_lt_of_le h.1 hn, h.2⟩⟩
    by_contra hge
    rw [hend j (Nat.not_lt.mp hge)] at h
    exact some_ne_none _ h.2.symm

end

/-! ## A key is removed -/

section

variable (hd : Distinct t)

include hd

omit [DecidableEq K] in
theorem distinct_clear (m : ℕ) : Distinct (update t m none) := by
  have hold : ∀ j x, update t m none j = some x → t j = some x := by
    intro j x hj
    by_cases hjm : j = m
    · rw [hjm, update_self] at hj
      exact absurd hj.symm (some_ne_none x)
    · rwa [update_of_ne hjm] at hj
  intro i j q w w' hi hj
  exact hd i j q w w' (hold i _ hi) (hold j _ hj)

theorem find_clear_self (hm : t m = some (k, v)) : find (update t m none) n k = none := by
  rw [find_eq_none_iff]
  intro j _ w hj
  by_cases hjm : j = m
  · rw [hjm, update_self] at hj
    exact some_ne_none _ hj.symm
  · rw [update_of_ne hjm] at hj
    exact hjm (hd j m k w v hj hm)

theorem find_clear_ne (hm : t m = some (k, v)) (hk : k' ≠ k) :
    find (update t m none) n k' = find t n k' := by
  refine find_congr hd (distinct_clear hd m) fun j w => ?_
  by_cases hj : j = m
  · subst hj
    rw [update_self, hm]
    refine iff_of_false (fun h => some_ne_none _ h.2.symm) fun h => hk ?_
    exact (Prod.mk.inj (Option.some.inj h.2)).1.symm
  · rw [update_of_ne hj]

end

end Xv6.Lib.Slots
