import Mathlib.Data.List.Range
import Xv6.Lib.Writes

/-!
# Ring buffers with free-running indices

A ring buffer of `cap` cells keeps its elements at consecutive positions modulo `cap`. `window` is the list
of `n` elements from position `i` on. Positions only matter modulo `cap`; where they are 32-bit counters
that wrap around, `cap` has to divide `2 ^ 32`.
-/

namespace Xv6.Lib

variable {α : Type} {buf : ℕ → α} {cap i j n : ℕ}

/-- The `n` elements from position `i` on. -/
def window (buf : ℕ → α) (cap i n : ℕ) : List α := (List.range n).map fun k => buf ((i + k) % cap)

@[simp] theorem window_zero (buf : ℕ → α) (cap i : ℕ) : window buf cap i 0 = [] := rfl

/-- The last element. -/
theorem window_succ (buf : ℕ → α) (cap i n : ℕ) :
    window buf cap i (n + 1) = window buf cap i n ++ [buf ((i + n) % cap)] := by
  rw [window, List.range_succ, List.map_append]
  rfl

/-- The first element. -/
theorem window_cons (buf : ℕ → α) (cap i n : ℕ) :
    window buf cap i (n + 1) = buf (i % cap) :: window buf cap (i + 1) n := by
  rw [window, List.range_succ_eq_map, List.map_cons, List.map_map, Nat.add_zero, window]
  congr 1
  refine List.map_congr_left fun k _ => ?_
  rw [Function.comp_apply, Nat.succ_eq_add_one, Nat.add_assoc, Nat.add_comm 1 k]

/-- Only the position modulo `cap` counts. -/
theorem window_congr (h : i % cap = j % cap) : window buf cap i n = window buf cap j n := by
  refine List.map_congr_left fun k _ => ?_
  rw [Nat.add_mod, h, ← Nat.add_mod]

/-- A write behind the last element leaves the others alone. -/
theorem window_assign (h : n < cap) (x : α) :
    window (assign buf ((i + n) % cap) x) cap i n = window buf cap i n := by
  refine List.map_congr_left fun k hk => ?_
  have hk' : k < n := List.mem_range.mp hk
  rw [assign, if_neg]
  intro heq
  have hmod : (i + n - (i + k)) % cap = 0 := Nat.sub_mod_eq_zero_of_mod_eq heq.symm
  rw [Nat.mod_eq_of_lt (by omega)] at hmod
  omega

/-- A new last element. -/
theorem window_push (h : n < cap) (x : α) :
    window (assign buf ((i + n) % cap) x) cap i (n + 1) = window buf cap i n ++ [x] := by
  rw [window_succ, window_assign h, assign, if_pos rfl]

/-- A counter that has moved on by `k`, as a position. -/
theorem toNat_add_mod (hcap : cap ∣ 2 ^ 32) (r : UInt32) (k : ℕ) :
    (r + UInt32.ofNat k).toNat % cap = (r.toNat + k) % cap := by
  rw [UInt32.toNat_add, UInt32.toNat_ofNat', Nat.mod_mod_of_dvd _ hcap, Nat.add_mod,
    Nat.mod_mod_of_dvd _ hcap, ← Nat.add_mod]

theorem counter_succ (r : UInt32) (k : ℕ) : r + UInt32.ofNat k + 1 = r + UInt32.ofNat (k + 1) := by
  rw [UInt32.ofNat_add, UInt32.add_assoc]
  rfl

theorem counter_pred (r : UInt32) (k : ℕ) : r + UInt32.ofNat (k + 1) - 1 = r + UInt32.ofNat k := by
  rw [← counter_succ, UInt32.add_sub_cancel]

theorem counter_sub (r : UInt32) (k : ℕ) : r + UInt32.ofNat k - r = UInt32.ofNat k := by
  rw [UInt32.add_comm, UInt32.add_sub_cancel]

theorem counter_inj (r : UInt32) {a b : ℕ} (ha : a < 2 ^ 32) (hb : b < 2 ^ 32) :
    r + UInt32.ofNat a = r + UInt32.ofNat b ↔ a = b := by
  refine ⟨fun h => ?_, fun h => by rw [h]⟩
  have h' := congrArg (· - r) h
  simp only [counter_sub] at h'
  have hnat := congrArg UInt32.toNat h'
  rwa [UInt32.toNat_ofNat_of_lt' ha, UInt32.toNat_ofNat_of_lt' hb] at hnat

end Xv6.Lib
