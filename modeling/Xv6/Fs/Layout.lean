import Mathlib.Data.Nat.Bitwise
import Xv6.Block

/-!
# The disk layout of the file system

The on-disk structures of `kernel/fs.h`: the free bit map, the inode blocks and the data blocks, as
the kernel reads and writes them in the bytes of disk blocks. `Store` is what the bytes mean: which
blocks are in use, the disk inodes, the contents of the data blocks. `Superblock.abs` reads a disk as a
`Store`, and the three kinds of block write become updates of one component (`abs_orBit`,
`abs_clearBit`, `abs_putDinode`, `abs_update`): the rest of the development reasons about stores.
-/

namespace Xv6.Fs

/-- number of direct block addresses of an inode -/
abbrev NDIRECT : ℕ := 12

instance (priority := 2000) : NeZero (NDIRECT + 1) := ⟨by decide⟩

/-- number of block addresses in an indirect block -/
abbrev NINDIRECT : ℕ := 256

/-- largest file, in blocks -/
abbrev MAXFILE : ℕ := NDIRECT + NINDIRECT

/-- inodes per block -/
abbrev IPB : ℕ := 16

/-- bitmap bits per block -/
abbrev BPB : ℕ := BSIZE * 8

/-- `struct superblock`, less the magic number. -/
structure Superblock where
  size : ℕ
  nblocks : ℕ
  ninodes : ℕ
  nlog : ℕ
  logstart : ℕ
  inodestart : ℕ
  bmapstart : ℕ
deriving DecidableEq

/-- The first data block: the data blocks are the last `nblocks` of the disk. -/
def Superblock.dataStart (sb : Superblock) : ℕ := sb.size - sb.nblocks

/-- `BBLOCK(b, sb)` -/
def Superblock.bblock (sb : Superblock) (b : ℕ) : ℕ := b / BPB + sb.bmapstart

/-- `BBLOCK(b, sb)` for an `int b` with the bits of the 32-bit number `b`. From 2³¹ on it is negative, and so is
its quotient by `BPB`. -/
def Superblock.bblockInt (sb : Superblock) (b : ℕ) : ℕ :=
  if b < 2 ^ 31 then sb.bblock b else (sb.bblock b + (2 ^ 32 - 2 ^ 32 / BPB)) % 2 ^ 32

/-- `IBLOCK(i, sb)` -/
def Superblock.iblock (sb : Superblock) (i : ℕ) : ℕ := i / IPB + sb.inodestart

/-- The inode blocks, the free bit map and the data blocks follow each other, and the root directory has
an inode. -/
structure Superblock.Valid (sb : Superblock) : Prop where
  root : 1 < sb.ninodes
  inodes : ∀ i < sb.ninodes, sb.iblock i < sb.bmapstart
  bitmap : ∀ b < sb.size, sb.bblock b < sb.dataStart
  size_lt : sb.size < 2 ^ 31

/-! ## Bits and disk inodes in the bytes of a block -/

/-- `struct dinode`. -/
@[ext]
structure Dinode where
  type : UInt16
  major : UInt16
  minor : UInt16
  nlink : UInt16
  size : UInt32
  addrs : Fin (NDIRECT + 1) → UInt32

instance : DecidableEq Dinode := fun d e =>
  decidable_of_iff (d.type = e.type ∧ d.major = e.major ∧ d.minor = e.minor ∧ d.nlink = e.nlink ∧
    d.size = e.size ∧ ∀ j, d.addrs j = e.addrs j) (by rw [Dinode.ext_iff, funext_iff])

/-- The inode of 64 zero bytes. -/
def Dinode.zero : Dinode := ⟨0, 0, 0, 0, 0, fun _ => 0⟩

/-- The sixteen 32-bit words of a disk inode. -/
def Dinode.word (d : Dinode) : ℕ → ℕ
  | 0 => d.type.toNat + 65536 * d.major.toNat
  | 1 => d.minor.toNat + 65536 * d.nlink.toNat
  | 2 => d.size.toNat
  | j + 3 => (d.addrs (Fin.ofNat _ j)).toNat

end Xv6.Fs

namespace Xv6

namespace Block

open Fs Function

/-- `data[bi/8] & (1 << (bi % 8))` -/
def bit (b : Block) (bi : ℕ) : Bool := (b (bi / 8)).toNat.testBit (bi % 8)

/-- `data[bi/8] |= 1 << (bi % 8)` -/
def orBit (b : Block) (bi : ℕ) : Block :=
  fun k => if k = bi / 8 then UInt8.ofNat ((b k).toNat ||| 2 ^ (bi % 8)) else b k

/-- `data[bi/8] &= ~(1 << (bi % 8))` -/
def clearBit (b : Block) (bi : ℕ) : Block :=
  fun k => if k = bi / 8 then UInt8.ofNat ((b k).toNat &&& (255 ^^^ 2 ^ (bi % 8))) else b k

/-- `(struct dinode*)data + k` -/
def getDinode (b : Block) (k : ℕ) : Dinode where
  type := UInt16.ofNat (b.word (16 * k))
  major := UInt16.ofNat (b.word (16 * k) / 65536)
  minor := UInt16.ofNat (b.word (16 * k + 1))
  nlink := UInt16.ofNat (b.word (16 * k + 1) / 65536)
  size := UInt32.ofNat (b.word (16 * k + 2))
  addrs j := UInt32.ofNat (b.word (16 * k + 3 + j))

/-- Store all fields of the `k`-th inode of a block. -/
def putDinode (b : Block) (k : ℕ) (d : Dinode) : Block :=
  fun c => if c / 64 = k then UInt8.ofNat (d.word (c / 4 % 16) / 256 ^ (c % 4)) else b c

theorem testBit_ofNat (n k : ℕ) : (UInt8.ofNat n).toNat.testBit (k % 8) = n.testBit (k % 8) := by
  rw [UInt8.toNat_ofNat', Nat.testBit_mod_two_pow]
  simp [show k % 8 < 8 by omega]

theorem bit_orBit (b : Block) (bi bj : ℕ) : (b.orBit bi).bit bj = (decide (bj = bi) || b.bit bj) := by
  unfold bit orBit
  by_cases h : bj / 8 = bi / 8
  · rw [if_pos h, testBit_ofNat, Nat.testBit_or, Nat.testBit_two_pow, Bool.or_comm]
    congr 1
    rw [decide_eq_decide]
    omega
  · rw [if_neg h]
    have : bj ≠ bi := by
      rintro rfl
      exact h rfl
    simp [this]

theorem bit_clearBit (b : Block) (bi bj : ℕ) :
    (b.clearBit bi).bit bj = (!decide (bj = bi) && b.bit bj) := by
  unfold bit clearBit
  by_cases h : bj / 8 = bi / 8
  · have h255 : Nat.testBit 255 (bj % 8) = true := by
      rw [show 255 = 2 ^ 8 - 1 from rfl, Nat.testBit_two_pow_sub_one]
      simp [show bj % 8 < 8 by omega]
    rw [if_pos h, testBit_ofNat, Nat.testBit_and, Nat.testBit_xor, Nat.testBit_two_pow, h255,
      Bool.and_comm]
    congr 1
    rw [Bool.true_xor]
    congr 1
    rw [decide_eq_decide]
    omega
  · rw [if_neg h]
    have : bj ≠ bi := by
      rintro rfl
      exact h rfl
    simp [this]

theorem dinode_word_lt (d : Dinode) (j : ℕ) : d.word j < 2 ^ 32 := by
  match j with
  | 0 | 1 | 2 | j + 3 =>
    simp only [Dinode.word]
    have := d.type.toNat_lt
    have := d.major.toNat_lt
    have := d.minor.toNat_lt
    have := d.nlink.toNat_lt
    have := d.size.toNat_lt
    have := (d.addrs (Fin.ofNat _ j)).toNat_lt
    omega

theorem word_putDinode (b : Block) (k : ℕ) (d : Dinode) (w : ℕ) :
    (b.putDinode k d).word w = if w / 16 = k then d.word (w % 16) else b.word w := by
  have hbyte : ∀ r < 4, (b.putDinode k d) (4 * w + r) =
      if w / 16 = k then UInt8.ofNat (d.word (w % 16) / 256 ^ r) else b (4 * w + r) := fun r hr => by
    rw [putDinode, show (4 * w + r) / 64 = w / 16 by omega, show (4 * w + r) / 4 % 16 = w % 16 by omega,
      show (4 * w + r) % 4 = r by omega]
  have h0 := hbyte 0 (by omega)
  have h1 := hbyte 1 (by omega)
  have h2 := hbyte 2 (by omega)
  have h3 := hbyte 3 (by omega)
  have hlt := dinode_word_lt d (w % 16)
  rw [Nat.add_zero] at h0
  by_cases h : w / 16 = k
  · simp only [if_pos h] at h0 h1 h2 h3 ⊢
    simp only [word, h0, h1, h2, h3, UInt8.toNat_ofNat']
    omega
  · simp only [if_neg h] at h0 h1 h2 h3 ⊢
    simp only [word, h0, h1, h2, h3]

theorem getDinode_putDinode_self (b : Block) (k : ℕ) (d : Dinode) : (b.putDinode k d).getDinode k = d := by
  have hw : ∀ j < 16, (b.putDinode k d).word (16 * k + j) = d.word j := fun j hj => by
    rw [word_putDinode, if_pos (by omega), show (16 * k + j) % 16 = j by omega]
  have h0 := hw 0 (by omega)
  rw [Nat.add_zero] at h0
  have low : ∀ a c : UInt16, UInt16.ofNat (a.toNat + 65536 * c.toNat) = a := fun a c => by
    have := a.toNat_lt
    apply UInt16.toNat_inj.mp
    rw [UInt16.toNat_ofNat']
    omega
  have high : ∀ a c : UInt16, UInt16.ofNat ((a.toNat + 65536 * c.toNat) / 65536) = c := fun a c => by
    have := a.toNat_lt
    have := c.toNat_lt
    apply UInt16.toNat_inj.mp
    rw [UInt16.toNat_ofNat']
    omega
  apply Dinode.ext
  · simp only [getDinode, h0, Dinode.word, low]
  · simp only [getDinode, h0, Dinode.word, high]
  · simp only [getDinode, hw 1 (by omega), Dinode.word, low]
  · simp only [getDinode, hw 1 (by omega), Dinode.word, high]
  · simp only [getDinode, hw 2 (by omega), Dinode.word, UInt32.ofNat_toNat]
  · funext j
    have hj := j.isLt
    have hof : Fin.ofNat (NDIRECT + 1) j.val = j := Fin.ext (Nat.mod_eq_of_lt hj)
    simp only [getDinode]
    rw [show 16 * k + 3 + j.val = 16 * k + (j.val + 3) by omega,
      hw (j.val + 3) (by simp only [NDIRECT] at hj; omega)]
    simp only [Dinode.word, hof, UInt32.ofNat_toNat]

theorem getDinode_putDinode_ne (b : Block) {k j : ℕ} (d : Dinode) (h : j ≠ k) :
    (b.putDinode k d).getDinode j = b.getDinode j := by
  have hw : ∀ r < 16, (b.putDinode k d).word (16 * j + r) = b.word (16 * j + r) := fun r hr => by
    rw [word_putDinode, if_neg (by omega)]
  have h0 := hw 0 (by omega)
  rw [Nat.add_zero] at h0
  simp only [getDinode, h0, hw 1 (by omega), hw 2 (by omega), Dinode.mk.injEq, true_and]
  funext i
  have hi := i.isLt
  rw [Nat.add_assoc, hw (3 + i.val) (by simp only [NDIRECT] at hi; omega)]

end Block

/-! ## The disk as a store -/

namespace Fs

/-- The meaning of a disk: the blocks in use, the disk inodes and the data blocks. -/
@[ext]
structure Store where
  used : ℕ → Bool
  din : ℕ → Dinode
  data : ℕ → Block

namespace Superblock

open Function

variable (sb : Superblock)

/-- A block of the data region. -/
def IsData (b : ℕ) : Prop := sb.dataStart ≤ b ∧ b < sb.size

instance (b : ℕ) : Decidable (sb.IsData b) := inferInstanceAs (Decidable (_ ∧ _))

/-- The store on a disk. -/
def abs (d : Disk) : Store where
  used b := decide (b < sb.size) && (d (sb.bblock b)).bit (b % BPB)
  din i := if i < sb.ninodes then (d (sb.iblock i)).getDinode (i % IPB) else .zero
  data b := if sb.IsData b then d b else zeroBlock

variable {sb} {i : ℕ}

theorem abs_din_of_not_lt (d : Disk) (h : ¬ i < sb.ninodes) : (sb.abs d).din i = .zero :=
  if_neg h

theorem forall_din {d : Disk} {φ : ℕ → Dinode → Prop}
    (h : ∀ i < sb.ninodes, φ i ((sb.abs d).din i)) (hzero : ∀ i, φ i .zero) (i : ℕ) :
    φ i ((sb.abs d).din i) := by
  by_cases hi : i < sb.ninodes
  · exact h i hi
  · rw [abs_din_of_not_lt _ hi]
    exact hzero i

theorem bmapstart_le_bblock (sb : Superblock) (b : ℕ) : sb.bmapstart ≤ sb.bblock b := Nat.le_add_left ..

theorem eq_of_bblock {b c : ℕ} (h : sb.bblock c = sb.bblock b) (hm : c % BPB = b % BPB) : c = b := by
  simp only [bblock, BPB, BSIZE] at h hm
  omega

theorem eq_of_iblock {i j : ℕ} (h : sb.iblock j = sb.iblock i) (hm : j % IPB = i % IPB) : j = i := by
  simp only [iblock, IPB] at h hm
  omega

variable {b : ℕ}

section

variable (h : sb.Valid)

include h

theorem Valid.abs_bblock (d : Disk) (hb : b < sb.size) (blk : Block) :
    (sb.abs (update d (sb.bblock b) blk)).din = (sb.abs d).din ∧
      (sb.abs (update d (sb.bblock b) blk)).data = (sb.abs d).data := by
  have hbit := h.bitmap b hb
  constructor
  · funext i
    simp only [abs]
    split
    · next hi =>
      have := h.inodes i hi
      have := bmapstart_le_bblock sb b
      rw [update_of_ne (by omega)]
    · rfl
  · funext c
    simp only [abs]
    split
    · next hc => rw [update_of_ne (by have := hc.1; omega)]
    · rfl

theorem Valid.abs_setBit (d : Disk) (hb : b < sb.size) {blk : Block} {v : Bool}
    (hself : blk.bit (b % BPB) = v) (hother : ∀ i, i ≠ b % BPB → blk.bit i = (d (sb.bblock b)).bit i) :
    sb.abs (update d (sb.bblock b) blk) =
      { sb.abs d with used := update (sb.abs d).used b v } := by
  obtain ⟨hdin, hdata⟩ := h.abs_bblock d hb blk
  refine Store.ext (funext fun c => ?_) hdin hdata
  simp only [abs]
  by_cases hcb : c = b
  · rw [hcb, update_self, update_self, hself, decide_eq_true hb, Bool.true_and]
  · rw [update_of_ne hcb]
    by_cases hblk : sb.bblock c = sb.bblock b
    · rw [hblk, update_self, hother _ fun hm => hcb (eq_of_bblock hblk hm)]
    · rw [update_of_ne hblk]

theorem Valid.abs_orBit (d : Disk) (hb : b < sb.size) :
    sb.abs (update d (sb.bblock b) ((d (sb.bblock b)).orBit (b % BPB))) =
      { sb.abs d with used := update (sb.abs d).used b true } :=
  h.abs_setBit d hb (by simp [Block.bit_orBit]) fun i hi => by simp [Block.bit_orBit, hi]

theorem Valid.abs_clearBit (d : Disk) (hb : b < sb.size) :
    sb.abs (update d (sb.bblock b) ((d (sb.bblock b)).clearBit (b % BPB))) =
      { sb.abs d with used := update (sb.abs d).used b false } :=
  h.abs_setBit d hb (by simp [Block.bit_clearBit]) fun i hi => by simp [Block.bit_clearBit, hi]

theorem Valid.abs_putDinode (d : Disk) (hi : i < sb.ninodes) (x : Dinode) :
    sb.abs (update d (sb.iblock i) ((d (sb.iblock i)).putDinode (i % IPB) x)) =
      { sb.abs d with din := update (sb.abs d).din i x } := by
  have hino := h.inodes i hi
  apply Store.ext
  · funext b
    simp only [abs]
    by_cases hb : b < sb.size
    · have := bmapstart_le_bblock sb b
      rw [update_of_ne (by omega)]
    · simp [hb]
  · funext j
    simp only [abs]
    by_cases hj : j < sb.ninodes
    · rw [if_pos hj]
      by_cases hblk : sb.iblock j = sb.iblock i
      · rw [hblk, update_self]
        by_cases hji : j = i
        · rw [hji, update_self, Block.getDinode_putDinode_self]
        · have : j % IPB ≠ i % IPB := fun hm => hji (eq_of_iblock hblk hm)
          rw [update_of_ne hji, Block.getDinode_putDinode_ne _ _ this, if_pos hj, hblk]
      · have hji : j ≠ i := by
          rintro rfl
          exact hblk rfl
        rw [update_of_ne hblk, update_of_ne hji, if_pos hj]
    · have hji : j ≠ i := by
        rintro rfl
        exact hj hi
      rw [if_neg hj, update_of_ne hji, if_neg hj]
  · funext b
    simp only [abs]
    split
    · next hb =>
      have := hb.1
      have := h.bitmap 0 (by have := hb.2; omega)
      have := bmapstart_le_bblock sb 0
      rw [update_of_ne (by omega)]
    · rfl

theorem Valid.abs_update (d : Disk) (hb : sb.IsData b) (blk : Block) : sb.abs (update d b blk) =
      { sb.abs d with data := update (sb.abs d).data b blk } := by
  have hlow := hb.1
  apply Store.ext
  · funext c
    simp only [abs]
    by_cases hc : c < sb.size
    · have := h.bitmap c hc
      rw [update_of_ne (by omega)]
    · simp [hc]
  · funext i
    simp only [abs]
    split
    · next hi =>
      have := h.inodes i hi
      have := h.bitmap 0 (by have := hb.2; omega)
      have := bmapstart_le_bblock sb 0
      rw [update_of_ne (by omega)]
    · rfl
  · funext c
    simp only [abs]
    by_cases hcb : c = b
    · rw [hcb, if_pos hb, update_self, update_self]
    · rw [update_of_ne hcb, update_of_ne hcb]

end

end Superblock

end Fs

end Xv6
