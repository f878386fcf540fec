import Mathlib.Data.BitVec
import Mathlib.Data.List.Range
import Mathlib.Logic.Function.Basic

/-!
# `memmove`

The two versions of `memmove`: `kernel/string.c` copies from the end if the destination begins inside the
source, `user/ulib.c` if the source does not lie above the destination. Memory is byte-addressed and pointers
are 64-bit numbers, so that their arithmetic wraps as in the code. Both loops copy the same bytes, in
opposite orders; `copy_eq` says that an order gives the move of the original bytes if no byte is read after
it has been overwritten.
-/

namespace Xv6

open Function List
open BitVec (ofNat ofNat_toNat lt_def)

abbrev Memory : Type := BitVec 64 → UInt8

/-- `while(n-- > 0) *d++ = *s++;` -/
def copyUp : ℕ → BitVec 64 → BitVec 64 → Memory → Memory
  | 0, _, _, m => m
  | n + 1, d, s, m => copyUp n (d + 1) (s + 1) (update m d (m s))

/-- `while(n-- > 0) *--d = *--s;` -/
def copyDown : ℕ → BitVec 64 → BitVec 64 → Memory → Memory
  | 0, _, _, m => m
  | n + 1, d, s, m => copyDown n (d - 1) (s - 1) (update m (d - 1) (m (s - 1)))

/-- `memmove(dst, src, n)` of the kernel, with `uint n`: the result and the memory. -/
def Kernel.memmove (m : Memory) (dst src : BitVec 64) (n : BitVec 32) : BitVec 64 × Memory :=
  if n = 0 then (dst, m)
  else if src < dst ∧ src + n.setWidth 64 > dst then
    (dst, copyDown n.toNat (dst + n.setWidth 64) (src + n.setWidth 64) m)
  else (dst, copyUp n.toNat dst src m)

/-- `memmove(vdst, vsrc, n)` of the user library, with `int n`. -/
def User.memmove (m : Memory) (vdst vsrc : BitVec 64) (n : BitVec 32) : BitVec 64 × Memory :=
  if vsrc > vdst then (vdst, copyUp n.toInt.toNat vdst vsrc m)
  else (vdst, copyDown n.toInt.toNat (vdst + n.signExtend 64) (vsrc + n.signExtend 64) m)

/-- The bytes at the offsets `ks` are copied from `s` to `d`, one after the other. -/
def copy (ks : List ℕ) (d s : BitVec 64) (m : Memory) : Memory :=
  ks.foldl (fun m k => update m (d + BitVec.ofNat 64 k) (m (s + BitVec.ofNat 64 k))) m

variable {d s : BitVec 64}

theorem copyUp_eq_copy (n i : ℕ) (m : Memory) :
    copyUp n (d + ofNat 64 i) (s + ofNat 64 i) m = copy (range' i n) d s m := by
  induction n generalizing i m with
  | zero => rfl
  | succ n ih =>
    have hnext (p : BitVec 64) : p + ofNat 64 i + 1 = p + ofNat 64 (i + 1) := by
      rw [BitVec.ofNat_add, BitVec.add_assoc]
      rfl
    rw [copyUp, hnext, hnext, ih]
    rfl

theorem copyDown_eq_copy (n : ℕ) (m : Memory) :
    copyDown n (d + ofNat 64 n) (s + ofNat 64 n) m = copy (range n).reverse d s m := by
  induction n generalizing m with
  | zero => rfl
  | succ n ih =>
    have hpred (p : BitVec 64) : p + ofNat 64 (n + 1) - 1 = p + ofNat 64 n := by
      rw [BitVec.ofNat_add]
      bv_omega
    rw [copyDown, hpred, hpred, ih, range_succ, reverse_append]
    rfl

/-- The memory in which the `n` bytes from `d` on are those that `m` has from `s` on. -/
def moved (n : ℕ) (d s : BitVec 64) (m : Memory) : Memory := fun a =>
  if (a - d).toNat < n then m (s + (a - d)) else m a

theorem copy_eq {ks : List ℕ} (hlt : ∀ k ∈ ks, k < 2 ^ 64)
    (hread : ks.Pairwise fun i j => d + ofNat 64 i ≠ s + ofNat 64 j) (m : Memory)
    (a : BitVec 64) : copy ks d s m a = if (a - d).toNat ∈ ks then m (s + (a - d)) else m a := by
  induction ks generalizing m with
  | nil => simp [copy]
  | cons k ks ih =>
    obtain ⟨hfirst, hrest⟩ := pairwise_cons.mp hread
    have hat : (a - d).toNat = k ↔ a = d + ofNat 64 k := by
      have := hlt k mem_cons_self
      bv_omega
    have hcons : copy (k :: ks) d s m =
        copy ks d s (update m (d + ofNat 64 k) (m (s + ofNat 64 k))) := rfl
    rw [hcons, ih (fun k hk => hlt k (mem_cons_of_mem _ hk)) hrest]
    simp only [mem_cons, hat]
    by_cases hin : (a - d).toNat ∈ ks
    · -- the byte written first is not read again
      have hne := hfirst _ hin
      rw [ofNat_toNat, BitVec.setWidth_eq] at hne
      rw [if_pos hin, if_pos (.inr hin), update_of_ne hne.symm]
    · rw [if_neg hin]
      by_cases ha : a = d + ofNat 64 k
      · have hoff : a - d = ofNat 64 k := by
          bv_omega
        rw [if_pos (.inl ha), hoff, ha, update_self]
      · rw [if_neg (not_or.mpr ⟨ha, hin⟩), update_of_ne ha]

theorem toNat_add_ofNat {p : BitVec 64} {i : ℕ} (h : p.toNat + i < 2 ^ 64) :
    (p + ofNat 64 i).toNat = p.toNat + i := by
  rw [BitVec.toNat_add, BitVec.toNat_ofNat, Nat.mod_eq_of_lt (by omega : i < 2 ^ 64), Nat.mod_eq_of_lt h]

section

variable {n : ℕ} (hdst : d.toNat + n ≤ 2 ^ 64) (hsrc : s.toNat + n ≤ 2 ^ 64) (m : Memory)

include hdst hsrc

theorem copy_eq_moved {ks : List ℕ} {R : ℕ → ℕ → Prop} (hmem : ∀ k, k ∈ ks ↔ k < n) (hks : ks.Pairwise R)
    (hread : ∀ i < n, ∀ j < n, R i j → d.toNat + i ≠ s.toNat + j) : copy ks d s m = moved n d s m := by
  funext a
  rw [copy_eq (fun k hk => by have := (hmem k).mp hk; omega) (hks.imp_of_mem ?_), moved]
  · simp only [hmem]
  · intro i j hi hj hij heq
    have hi := (hmem i).mp hi
    have hj := (hmem j).mp hj
    have haddr := congrArg BitVec.toNat heq
    rw [toNat_add_ofNat (by omega), toNat_add_ofNat (by omega)] at haddr
    exact hread i hi j hj hij haddr

theorem copyUp_eq (h : d.toNat ≤ s.toNat ∨ s.toNat + n ≤ d.toNat) : copyUp n d s m = moved n d s m := by
  have hup := copyUp_eq_copy (d := d) (s := s) n 0 m
  rw [BitVec.add_zero, BitVec.add_zero, ← range_eq_range'] at hup
  rw [hup]
  exact copy_eq_moved hdst hsrc m (fun _ => mem_range) pairwise_lt_range fun i hi j hj hij => by omega

theorem copyDown_eq (h : s.toNat ≤ d.toNat) :
    copyDown n (d + ofNat 64 n) (s + ofNat 64 n) m = moved n d s m := by
  rw [copyDown_eq_copy]
  exact copy_eq_moved hdst hsrc m (fun _ => mem_reverse.trans mem_range)
    (pairwise_reverse.mpr pairwise_lt_range) fun i hi j hj hij => by omega

end

section

variable {n : BitVec 32} (hdst : d.toNat + n.toNat ≤ 2 ^ 64) (hsrc : s.toNat + n.toNat ≤ 2 ^ 64) (m : Memory)

include hdst hsrc

theorem Kernel.memmove_eq : Kernel.memmove m d s n = (d, moved n.toNat d s m) := by
  rw [Kernel.memmove, ← ofNat_toNat]
  split
  · next h =>
    subst h
    exact congrArg (Prod.mk d) (funext fun a => (if_neg (Nat.not_lt_zero _)).symm)
  · split
    · next h => rw [copyDown_eq hdst hsrc m (BitVec.lt_def.mp h.1).le]
    · next h =>
      rw [copyUp_eq hdst hsrc m]
      by_cases hlt : s.toNat < d.toNat
      · -- the end of the source does not wrap, since that of the destination does not
        have hend : ¬ d < s + ofNat 64 n.toNat := fun hend => h ⟨BitVec.lt_def.mpr hlt, hend⟩
        rw [lt_def, toNat_add_ofNat (by omega)] at hend
        omega
      · omega

theorem User.memmove_eq (hn : n.toNat < 2 ^ 31) : User.memmove m d s n = (d, moved n.toNat d s m) := by
  have hint : n.toInt.toNat = n.toNat := by
    rw [BitVec.toInt_eq_toNat_of_lt (by omega), Int.toNat_natCast]
  have hwidth : n.signExtend 64 = ofNat 64 n.toNat := by
    rw [BitVec.signExtend_eq_setWidth_of_msb_false (BitVec.msb_eq_false_iff_two_mul_lt.mpr (by omega)),
      ofNat_toNat]
  unfold User.memmove
  rw [hint, hwidth]
  split
  · next h => rw [copyUp_eq hdst hsrc m (.inl (BitVec.lt_def.mp h).le)]
  · next h =>
    rw [copyDown_eq hdst hsrc m]
    rw [gt_iff_lt, lt_def] at h
    omega

end

/-- **`memmove`.** Both versions return the destination and leave the same memory: the original bytes of the
source in the destination range, and every other byte as it was. -/
theorem memmove_moves (m : Memory) (dst src : BitVec 64) (n : BitVec 32) (hn : n.toNat < 2 ^ 31)
    (hdst : dst.toNat + n.toNat ≤ 2 ^ 64) (hsrc : src.toNat + n.toNat ≤ 2 ^ 64) :
    ∃ m', Kernel.memmove m dst src n = (dst, m') ∧ User.memmove m dst src n = (dst, m') ∧
      (∀ i < n.toNat, m' (dst + BitVec.ofNat 64 i) = m (src + BitVec.ofNat 64 i)) ∧
      ∀ a : BitVec 64, a.toNat < dst.toNat ∨ dst.toNat + n.toNat ≤ a.toNat → m' a = m a := by
  refine ⟨_, Kernel.memmove_eq hdst hsrc m, User.memmove_eq hdst hsrc m hn, fun i hi => ?_, fun a ha => ?_⟩
  · have hoff : dst + BitVec.ofNat 64 i - dst = BitVec.ofNat 64 i := by
      bv_omega
    have hlt : (BitVec.ofNat 64 i).toNat < n.toNat := by
      rwa [BitVec.toNat_ofNat, Nat.mod_eq_of_lt (by omega)]
    rw [moved, hoff, if_pos hlt]
  · have hout : ¬ (a - dst).toNat < n.toNat := by
      bv_omega
    rw [moved, if_neg hout]

/-- Four bytes move up by one, with an overlap of three. -/
theorem memmove_moves_overlap :
    ∃ m', Kernel.memmove (fun a => UInt8.ofNat a.toNat) 1 0 4 = (1, m') ∧
      User.memmove (fun a => UInt8.ofNat a.toNat) 1 0 4 = (1, m') ∧ m' 4 = 3 ∧ m' 0 = 0 := by
  obtain ⟨m', hkernel, huser, hin, hout⟩ := memmove_moves (fun a => UInt8.ofNat a.toNat) 1 0 4
    (by decide) (by decide) (by decide)
  exact ⟨m', hkernel, huser, hin 3 (by decide), hout 0 (.inl (by decide))⟩

end Xv6
