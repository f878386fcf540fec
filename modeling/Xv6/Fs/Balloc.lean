import Xv6.Fs.BlockSpec

/-!
# The block allocator on any geometry

`balloc` and `bfree` in terms of the bits of the bit map, for any size of the disk up to 2³¹ and any place of
the bit map. On a larger disk the `int b` of `balloc` becomes negative, and `BBLOCK` with it. `balloc` zeroes the block it has found after it has marked it, so what it does is exact unless it
hands out a block of the bit map itself: then the block that is zeroed holds the bits. The bit map blocks
have to be marked, as `mkfs` does.
-/

namespace Xv6.Fs

open Lib Function

variable {sb : Superblock} {s : State} {b c : ℕ}

/-- The bit of block `b` is set. -/
def marked (sb : Superblock) (d : Disk) (b : ℕ) : Bool := (d (sb.bblock b)).bit (b % BPB)

/-- The block number has a bit in the bit map blocks of the disk; the last of them may have more bits
than the disk has blocks. -/
def Superblock.HasBit (sb : Superblock) (c : ℕ) : Prop := c / BPB * BPB < sb.size

theorem Superblock.HasBit.of_lt (h : c < sb.size) : sb.HasBit c :=
  Nat.lt_of_le_of_lt (Nat.div_mul_le_self c BPB) h

theorem bblock_first (sb : Superblock) (c : ℕ) : sb.bblock (c / BPB * BPB) = sb.bblock c := by
  simp only [Superblock.bblock, BPB, BSIZE]
  omega

theorem used_eq_marked (d : Disk) (h : c < sb.size) : (sb.abs d).used c = marked sb d c := by
  simp only [Superblock.abs, h, decide_true, Bool.true_and, marked]

theorem marked_update (d : Disk) {blk : Block} {v : Bool} (hself : blk.bit (b % BPB) = v)
    (hother : ∀ i, i ≠ b % BPB → blk.bit i = (d (sb.bblock b)).bit i) (c : ℕ) :
    marked sb (update d (sb.bblock b) blk) c = if c = b then v else marked sb d c := by
  unfold marked
  by_cases hblk : sb.bblock c = sb.bblock b
  · rw [hblk, update_self]
    by_cases hc : c = b
    · rw [if_pos hc, hc, hself]
    · rw [if_neg hc, hother _ fun hm => hc (Superblock.eq_of_bblock hblk hm)]
  · rw [update_of_ne hblk, if_neg]
    rintro rfl
    exact hblk rfl

theorem marked_orBit (d : Disk) (b c : ℕ) :
    marked sb (update d (sb.bblock b) ((d (sb.bblock b)).orBit (b % BPB))) c =
      if c = b then true else marked sb d c := by
  refine marked_update d ?_ (fun i hi => ?_) c
  · rw [Block.bit_orBit, decide_eq_true rfl, Bool.true_or]
  · rw [Block.bit_orBit, decide_eq_false hi, Bool.false_or]

theorem marked_clearBit (d : Disk) (b c : ℕ) :
    marked sb (update d (sb.bblock b) ((d (sb.bblock b)).clearBit (b % BPB))) c =
      if c = b then false else marked sb d c := by
  refine marked_update d ?_ (fun i hi => ?_) c
  · rw [Block.bit_clearBit, decide_eq_true rfl, Bool.not_true, Bool.false_and]
  · rw [Block.bit_clearBit, decide_eq_false hi, Bool.not_false, Bool.true_and]

theorem bfree_run (h : marked sb s.disk b = true) : (bfree sb b).run s = .ok ((), { s with
      disk := update s.disk (sb.bblock b) ((s.disk (sb.bblock b)).clearBit (b % BPB))
      logged := sb.bblock b :: s.logged }) := by
  have hrun : wp (bfree sb b) (fun _ => False) s fun _ s' => s' = { s with
      disk := update s.disk (sb.bblock b) ((s.disk (sb.bblock b)).clearBit (b % BPB))
      logged := sb.bblock b :: s.logged } := by
    simp only [bfree, bread, wp_bind, wp_get, wp_pure]
    rw [if_pos (show (s.disk (sb.bblock b)).bit (b % BPB) = true from h)]
    simp only [logWrite, wp_modify, assign_eq_update]
  obtain ⟨a, s', hok, rfl⟩ := hrun.exists_ok
  exact hok

theorem marked_taken (hb : ∀ c, sb.HasBit c → sb.bblock c ≠ b) (hc : sb.HasBit c) :
    marked sb (taken sb s b).disk c = if c = b then true else marked sb s.disk c := by
  rw [← marked_orBit]
  unfold marked taken takenAt
  dsimp only
  rw [update_of_ne (hb c hc)]

/-- **The block allocator is exact.** On a disk of at most 2³¹ blocks, with block 0 and the blocks of the bit
map marked, `balloc` returns the first block that is not marked, marks it and no other, zeroes it and changes no other block but that
of the bit; or it returns 0 and changes nothing, if and only if all are marked. `bfree` of a marked block
clears its bit and no other, and changes no other block; after `balloc` it restores the bits. -/
theorem balloc_exact (hsize : sb.size ≤ 2 ^ 31) (hzero : marked sb s.disk 0 = true)
    (hmap : ∀ c < sb.size, sb.bblock c < sb.size → marked sb s.disk (sb.bblock c) = true) :
    (∃ r s', (balloc sb).run s = .ok (r, s') ∧
      (r = 0 ↔ ∀ c < sb.size, marked sb s.disk c = true) ∧ (r = 0 → s' = s) ∧
      (r ≠ 0 → r < sb.size ∧ marked sb s.disk r = false ∧
        (∀ c < r, marked sb s.disk c = true) ∧
        (∀ c, sb.HasBit c → marked sb s'.disk c = if c = r then true else marked sb s.disk c) ∧
        s'.disk r = zeroBlock ∧
        (∀ n, n ≠ r → n ≠ sb.bblock r → s'.disk n = s.disk n) ∧ s'.inode = s.inode ∧
        ∃ s'', (bfree sb r).run s' = .ok ((), s'') ∧
          ∀ c, sb.HasBit c → marked sb s''.disk c = marked sb s.disk c)) ∧
    ∀ b, marked sb s.disk b = true → ∃ s', (bfree sb b).run s = .ok ((), s') ∧
      (∀ c, marked sb s'.disk c = if c = b then false else marked sb s.disk c) ∧
      (∀ n, n ≠ sb.bblock b → s'.disk n = s.disk n) ∧ s'.inode = s.inode := by
  constructor
  · have hspec : wp (balloc sb) (fun _ => False) s _ := balloc_spec hsize
    obtain ⟨r, s', hrun, hr⟩ := hspec.exists_ok
    refine ⟨r, s', hrun, ?_⟩
    rcases hr with ⟨rfl, rfl, hfull⟩ | ⟨hlt, hfree, hall, rfl⟩
    · have hfull' : ∀ c < sb.size, marked sb s'.disk c = true := fun c hc => by
        rw [← used_eq_marked _ hc, hfull c hc]
      exact ⟨⟨fun _ => hfull', fun _ => rfl⟩, fun _ => rfl, fun hne => absurd rfl hne⟩
    · rw [used_eq_marked _ hlt] at hfree
      have hall' : ∀ c < r, marked sb s.disk c = true := fun c hc => by
        rw [← used_eq_marked _ (hc.trans hlt), hall c hc]
      have hne : r ≠ 0 := by
        rintro rfl
        rw [hzero] at hfree
        cases hfree
      -- the block found holds no bits, as those that do are marked
      have hbits : ∀ c, sb.HasBit c → sb.bblock c ≠ r := by
        intro c hc heq
        rw [← bblock_first] at heq
        have hmark := hmap _ hc (by rw [heq]; exact hlt)
        rw [heq, hfree] at hmark
        cases hmark
      have hmarks : ∀ c, sb.HasBit c → marked sb (taken sb s r).disk c =
          if c = r then true else marked sb s.disk c := fun c hc => marked_taken hbits hc
      have hset : marked sb (taken sb s r).disk r = true := by
        rw [hmarks r (.of_lt hlt), if_pos rfl]
      refine ⟨⟨fun h0 => absurd h0 hne, fun hfull => ?_⟩, fun h0 => absurd h0 hne, fun _ =>
        ⟨hlt, hfree, hall', hmarks, Function.update_self .., fun n hn hn' => ?_, rfl, _,
          bfree_run hset, fun c hc => ?_⟩⟩
      · rw [hfull r hlt] at hfree
        cases hfree
      · change Function.update (Function.update _ _ _) _ _ n = _
        rw [Function.update_of_ne hn, Function.update_of_ne hn']
      · rw [marked_clearBit, hmarks c hc]
        by_cases hcr : c = r
        · rw [if_pos hcr, hcr, hfree]
        · rw [if_neg hcr, if_neg hcr]
  · intro b hb
    exact ⟨_, bfree_run hb, fun c => marked_clearBit s.disk b c, fun n hn =>
      Function.update_of_ne hn .., rfl⟩

/-- A disk of four blocks, of which block 1 has the bits: blocks 0, 1 and 2 are marked. -/
def fourBlocks : Superblock := ⟨4, 0, 0, 0, 0, 0, 1⟩

/-- The state of that disk, with the bits `bits`. -/
def withBits (bits : UInt8) : State where
  disk b k := if b = 1 ∧ k = 0 then bits else 9
  inode _ := { inum := 0, ref := 0, locked := false, valid := false, din := .zero }
  logged := []

/-- Block 3, the first that is not marked, is returned; it holds zeros and bytes 9 no more. -/
theorem balloc_exact_small : ∃ s', (balloc fourBlocks).run (withBits 7) = .ok (3, s') ∧
    marked fourBlocks s'.disk 3 = true ∧ s'.disk 3 = zeroBlock ∧ (withBits 7).disk 3 ≠ zeroBlock := by
  have hmap : ∀ c < fourBlocks.size, fourBlocks.bblock c < fourBlocks.size →
      marked fourBlocks (withBits 7).disk (fourBlocks.bblock c) = true := by decide
  obtain ⟨⟨r, s', hrun, hfull, -, htaken⟩, -⟩ :=
    balloc_exact (s := withBits 7) (by decide) (by decide) hmap
  have hclear : marked fourBlocks (withBits 7).disk 3 = false := by decide
  have hne : r ≠ 0 := fun h0 => by
    rw [hfull.mp h0 3 (by decide)] at hclear
    cases hclear
  obtain ⟨hlt, hfree, hbelow, hbits, hzero, -⟩ := htaken hne
  obtain rfl : r = 3 := by
    by_contra h3
    have hr : r < 3 := by
      have : r < 4 := hlt
      omega
    have hset : ∀ c < 3, marked fourBlocks (withBits 7).disk c = true := by decide
    rw [hset r hr] at hfree
    cases hfree
  refine ⟨s', hrun, ?_, hzero, fun h => ?_⟩
  · rw [hbits 3 (.of_lt hlt), if_pos rfl]
  · have := congrFun h 0
    cases this

/-- A disk of 2³¹ + 1 blocks, with the bits from block 1 on. -/
def hugeDisk : Superblock := ⟨2 ^ 31 + 1, 0, 0, 0, 0, 0, 1⟩

/-- All its blocks but the last are marked. -/
def hugeState : State where
  disk b _ := if b = 2 ^ 18 + 1 then 0 else 255
  inode _ := { inum := 0, ref := 0, locked := false, valid := false, din := .zero }
  logged := []

/-- A loop that finds no clear bit returns 0. -/
theorem ballocLoop_full {E : Err → Prop} (hfull : ∀ b < 2 ^ 32, ∀ i, (s.disk (sb.bblockInt b)).bit i = true)
    (n : ℕ) : ∀ b < 2 ^ 32, wp (ballocLoop sb n b) E s fun r s' => r = 0 ∧ s' = s := by
  induction n with
  | zero => exact fun _ _ => ⟨rfl, rfl⟩
  | succ n ih =>
    intro b hb
    rw [ballocLoop, wp_ite]
    refine ⟨fun _ => ?_, fun _ => ⟨rfl, rfl⟩⟩
    simp only [bread, wp_bind, wp_get, wp_pure]
    split
    · next bi hbi =>
      obtain ⟨-, -, hclear, -⟩ := findClear_some hbi
      rw [hfull b hb] at hclear
      cases hclear
    · exact ih _ (Nat.mod_lt _ (by decide))

/-- The block with the bit of block 2³¹ is not read: as an `int` its number is negative. -/
theorem hugeState_full {b : ℕ} (hb : b < 2 ^ 32) (i : ℕ) :
    (hugeState.disk (hugeDisk.bblockInt b)).bit i = true := by
  have hne : hugeDisk.bblockInt b ≠ 2 ^ 18 + 1 := by
    simp only [Superblock.bblockInt, Superblock.bblock, hugeDisk, BPB, BSIZE]
    split <;> omega
  have hbyte : hugeState.disk (hugeDisk.bblockInt b) = fun _ => 255 := funext fun _ => if_neg hne
  have hbits : ∀ j < 8, Nat.testBit 255 j = true := by decide
  rw [hbyte]
  exact hbits _ (Nat.mod_lt _ (by decide))

/-- Without its own bit the bit map block is handed out, and zeroed with all the bits that were set. On a disk
of more than 2³¹ blocks the block that is free is not found. -/
theorem balloc_unmarked_bitmap :
    (∃ s', (balloc fourBlocks).run (withBits 5) = .ok (1, s') ∧
      marked fourBlocks (withBits 5).disk 0 = true ∧
      marked fourBlocks s'.disk 1 = false ∧ marked fourBlocks s'.disk 0 = false) ∧
    (balloc hugeDisk).run hugeState = .ok (0, hugeState) ∧
      marked hugeDisk hugeState.disk (2 ^ 31) = false ∧
      ∀ c < 2 ^ 31, marked hugeDisk hugeState.disk c = true := by
  refine ⟨?_, ?_, ?_, fun c hc => ?_⟩
  · have h0 : (fourBlocks.abs (withBits 5).disk).used 0 = true := by decide
    have h1 : (fourBlocks.abs (withBits 5).disk).used 1 = false := by decide
    have hspec : wp (balloc fourBlocks) (fun _ => False) (withBits 5) _ := balloc_spec (by decide)
    obtain ⟨r, s', hrun, ⟨-, -, hfull⟩ | ⟨-, hfree, hall, rfl⟩⟩ := hspec.exists_ok
    · rw [hfull 1 (by decide)] at h1
      cases h1
    · obtain rfl : r = 1 := by
        rcases Nat.lt_trichotomy r 1 with hlt | heq | hgt
        · obtain rfl : r = 0 := by omega
          rw [h0] at hfree
          cases hfree
        · exact heq
        · rw [hall 1 hgt] at h1
          cases h1
      exact ⟨_, hrun, by decide, by decide, by decide⟩
  · obtain ⟨n, hn⟩ : ∃ n, n = hugeDisk.size / BPB + 1 := ⟨_, rfl⟩
    have hrun := ballocLoop_full (E := fun _ => False) (fun b hb => hugeState_full hb) n 0 (by decide)
    obtain ⟨r, s', hok, rfl, rfl⟩ := hrun.exists_ok
    rw [balloc, ← hn, hok]
  · have hblock : hugeDisk.bblock (2 ^ 31) = 2 ^ 18 + 1 := by
      norm_num [Superblock.bblock, hugeDisk]
    have hbyte : hugeState.disk (2 ^ 18 + 1) = fun _ => 0 := by
      funext k
      simp only [hugeState, if_true]
    rw [marked, hblock, hbyte]
    exact Nat.zero_testBit _
  · have hint : hugeDisk.bblockInt c = hugeDisk.bblock c := if_pos hc
    rw [marked, ← hint]
    exact hugeState_full (by omega) _

end Xv6.Fs
