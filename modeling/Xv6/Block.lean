import Xv6.Param

/-!
# Disk blocks as byte arrays

A block is the `uchar data[BSIZE]` of a buffer. The kernel reads it through casts: as an array of
32-bit words (log header, indirect block, the `addrs` of a disk inode). Words are little-endian, as
on RISC-V. `setWord` stores one word and leaves the other bytes alone, which is all that the code
relies on when it changes one field of a buffer.
-/

namespace Xv6

/-- The bytes of a disk block; only the offsets below `BSIZE` are used. -/
abbrev Block := ℕ → UInt8

/-- The disk: block number to contents. -/
abbrev Disk := ℕ → Block

/-- The block `memset(data, 0, BSIZE)` leaves. -/
def zeroBlock : Block := fun _ => 0

namespace Block

/-- The `i`-th 32-bit word of a block, `((uint*)data)[i]`. -/
def word (b : Block) (i : ℕ) : ℕ :=
  (b (4 * i)).toNat + 256 * (b (4 * i + 1)).toNat + 65536 * (b (4 * i + 2)).toNat
    + 16777216 * (b (4 * i + 3)).toNat

/-- Store `v` in the `i`-th 32-bit word of a block. -/
def setWord (b : Block) (i v : ℕ) : Block :=
  fun k => if k / 4 = i then UInt8.ofNat (v / 256 ^ (k % 4)) else b k

@[simp] theorem word_zeroBlock (i : ℕ) : Block.word zeroBlock i = 0 := rfl

theorem word_setWord_self (b : Block) (i v : ℕ) : (b.setWord i v).word i = v % 2 ^ 32 := by
  have h0 : 4 * i / 4 = i := by omega
  have h1 : (4 * i + 1) / 4 = i := by omega
  have h2 : (4 * i + 2) / 4 = i := by omega
  have h3 : (4 * i + 3) / 4 = i := by omega
  have m0 : 4 * i % 4 = 0 := by omega
  have m1 : (4 * i + 1) % 4 = 1 := by omega
  have m2 : (4 * i + 2) % 4 = 2 := by omega
  have m3 : (4 * i + 3) % 4 = 3 := by omega
  simp only [word, setWord, h0, h1, h2, h3, m0, m1, m2, m3, if_true, UInt8.toNat_ofNat']
  omega

theorem word_setWord_of_lt (b : Block) (i : ℕ) {v : ℕ} (hv : v < 2 ^ 32) :
    (b.setWord i v).word i = v := by
  rw [word_setWord_self, Nat.mod_eq_of_lt hv]

theorem word_setWord_ne (b : Block) {i j : ℕ} (v : ℕ) (h : j ≠ i) :
    (b.setWord i v).word j = b.word j := by
  have h0 : 4 * j / 4 ≠ i := by omega
  have h1 : (4 * j + 1) / 4 ≠ i := by omega
  have h2 : (4 * j + 2) / 4 ≠ i := by omega
  have h3 : (4 * j + 3) / 4 ≠ i := by omega
  simp only [word, setWord, if_neg h0, if_neg h1, if_neg h2, if_neg h3]

end Block

end Xv6
