import Xv6.Fs.Blocks

/-!
# Specifications of the block layer

What `balloc`, `bmap` and `iupdate` do to the store. An in-memory inode may be ahead of its disk
inode until `iupdate`; `view` is the store with the in-memory copy of one inode in place of the disk
inode, and the specifications are about it.
-/

namespace Xv6.Fs

open Lib Function

variable {sb : Superblock} {E : Err → Prop} {s : State} {k : Slot}

/-! ## The bit map -/

variable {bi n : ℕ} {blk : Block}

theorem findClear_some {j : ℕ} (h : findClear blk n bi = some j) :
    bi ≤ j ∧ j < bi + n ∧ blk.bit j = false ∧ ∀ i, bi ≤ i → i < j → blk.bit i = true := by
  induction n generalizing bi with
  | zero => simp [findClear] at h
  | succ n ih =>
    rw [findClear] at h
    split at h
    · next hbit =>
      obtain ⟨hle, hlt, hj, hall⟩ := ih h
      refine ⟨by omega, by omega, hj, fun i hi hij => ?_⟩
      rcases Nat.eq_or_lt_of_le hi with rfl | hi
      · exact hbit
      · exact hall i hi hij
    · next hbit =>
      obtain rfl : bi = j := by simpa using h
      exact ⟨Nat.le_refl _, by omega, by simpa using hbit, fun i hi hij => by omega⟩

theorem findClear_none (h : findClear blk n bi = none) :
    ∀ i, bi ≤ i → i < bi + n → blk.bit i = true := by
  induction n generalizing bi with
  | zero => exact fun i hi hlt => by omega
  | succ n ih =>
    rw [findClear] at h
    split at h
    · next hbit =>
      intro i hi hlt
      rcases Nat.eq_or_lt_of_le hi with rfl | hi
      · exact hbit
      · exact ih h i hi (by omega)
    · simp at h

variable {b : ℕ}

theorem bblock_add (sb : Superblock) (hb : b % BPB = 0) (hbi : bi < BPB) :
    sb.bblock (b + bi) = sb.bblock b ∧ (b + bi) % BPB = bi := by
  simp only [Superblock.bblock, BPB, BSIZE] at *
  omega

theorem used_add (hb : b % BPB = 0) (hbi : bi < BPB) (hlt : b + bi < sb.size) (d : Disk) :
    (sb.abs d).used (b + bi) = (d (sb.bblock b)).bit bi := by
  obtain ⟨hblk, hmod⟩ := bblock_add sb hb hbi
  simp only [Superblock.abs, hlt, hblk, hmod, decide_true, Bool.true_and]

/-- The state after `balloc` has returned block `b`, whose bit is bit `bi` of block `bb`. -/
def takenAt (bb bi : ℕ) (s : State) (b : ℕ) : State where
  disk := Function.update (Function.update s.disk bb ((s.disk bb).orBit bi)) b zeroBlock
  inode := s.inode
  logged := b :: bb :: s.logged

/-- The state after `balloc` has returned block `b`. -/
def taken (sb : Superblock) (s : State) (b : ℕ) : State := takenAt (sb.bblock b) (b % BPB) s b

/-- On a disk of any size `balloc` leaves everything as it is, or takes a block of the disk. -/
theorem balloc_cases : wp (balloc sb) E s fun r s' =>
    (r = 0 ∧ s' = s) ∨ r < sb.size ∧ ∃ bb bi, s' = takenAt bb bi s r := by
  have hloop : ∀ n b, wp (ballocLoop sb n b) E s fun r s' =>
      (r = 0 ∧ s' = s) ∨ r < sb.size ∧ ∃ bb bi, s' = takenAt bb bi s r := by
    intro n
    induction n with
    | zero => exact fun _ => .inl ⟨rfl, rfl⟩
    | succ n ih =>
      intro b
      rw [ballocLoop, wp_ite]
      refine ⟨fun hlt => ?_, fun _ => .inl ⟨rfl, rfl⟩⟩
      simp only [bread, wp_bind, wp_get, wp_pure]
      split
      · next bi hbi =>
        obtain ⟨-, hbi_lt, -⟩ := findClear_some hbi
        simp only [logWrite, bzero, wp_bind, wp_modify, wp_pure, assign_eq_update]
        exact .inr ⟨by omega, _, bi, rfl⟩
      · exact ih _
  exact hloop _ 0

/-- The loop from block `b` on, on a disk whose block numbers are not negative as an `int`. -/
theorem ballocLoop_spec (hsize : sb.size ≤ 2 ^ 31) (n b : ℕ) (hb : b % BPB = 0)
    (hn : sb.size ≤ b + n * BPB) : wp (ballocLoop sb n b) E s fun r s' =>
      (r = 0 ∧ s' = s ∧ ∀ c, b ≤ c → c < sb.size → (sb.abs s.disk).used c = true) ∨
      (b ≤ r ∧ r < sb.size ∧ (sb.abs s.disk).used r = false ∧
        (∀ c, b ≤ c → c < r → (sb.abs s.disk).used c = true) ∧ s' = taken sb s r) := by
  induction n generalizing b with
  | zero =>
    rw [ballocLoop, wp_pure]
    exact .inl ⟨rfl, rfl, fun c hc hlt => by omega⟩
  | succ n ih =>
    rw [ballocLoop]
    by_cases hlt : b < sb.size
    · have hblock : sb.bblockInt b = sb.bblock b := if_pos (by omega)
      have hnext : (b + BPB) % 2 ^ 32 = b + BPB := by
        simp only [BPB, BSIZE]
        omega
      rw [if_pos hlt, hblock, hnext]
      simp only [bread, wp_bind, wp_get, wp_pure]
      -- the bits of this bit map block that were tested
      have hused : ∀ c, b ≤ c → c < b + min BPB (sb.size - b) →
          (sb.abs s.disk).used c = (s.disk (sb.bblock b)).bit (c - b) := fun c hc hcb => by
        rw [← used_add hb (by omega) (by omega), Nat.add_sub_cancel' hc]
      split
      · next bi hbi =>
        obtain ⟨-, hbi_lt, hclear, hall⟩ := findClear_some hbi
        have hlow : bi < BPB := by omega
        obtain ⟨hblk, hmod⟩ := bblock_add sb hb hlow
        simp only [logWrite, bzero, wp_bind, wp_modify, wp_pure, assign_eq_update]
        refine .inr ⟨by omega, by omega, ?_, ?_, ?_⟩
        · rw [hused _ (by omega) (by omega), Nat.add_sub_cancel_left, hclear]
        · intro c hc hcr
          rw [hused c hc (by omega)]
          exact hall _ (by omega) (by omega)
        · rw [taken, hblk, hmod]
          rfl
      · next hnone =>
        have hall := findClear_none hnone
        have hbits : ∀ c, b ≤ c → c < sb.size → c < b + BPB → (sb.abs s.disk).used c = true := by
          intro c hc hcs hcb
          rw [hused c hc (by omega)]
          exact hall _ (by omega) (by omega)
        have hrest := ih (b + BPB) (by simp only [BPB, BSIZE] at *; omega)
          (by simp only [BPB, BSIZE] at *; omega)
        apply hrest.mono
        intro r s' hr
        rcases hr with ⟨hr, hs', hfull⟩ | ⟨hle, hr, hfree, hfull, hs'⟩
        · refine .inl ⟨hr, hs', fun c hc hcs => ?_⟩
          by_cases hcb : c < b + BPB
          · exact hbits c hc hcs hcb
          · exact hfull c (by omega) hcs
        · refine .inr ⟨by omega, hr, hfree, fun c hc hcr => ?_, hs'⟩
          by_cases hcb : c < b + BPB
          · exact hbits c hc (by omega) hcb
          · exact hfull c (by omega) hcr
    · rw [if_neg hlt, wp_pure]
      exact .inl ⟨rfl, rfl, fun c hc hcs => by omega⟩

theorem balloc_spec (hsize : sb.size ≤ 2 ^ 31) : wp (balloc sb) E s fun r s' =>
      (r = 0 ∧ s' = s ∧ ∀ c < sb.size, (sb.abs s.disk).used c = true) ∨
      (r < sb.size ∧ (sb.abs s.disk).used r = false ∧
        (∀ c < r, (sb.abs s.disk).used c = true) ∧ s' = taken sb s r) := by
  have h : sb.size ≤ 0 + (sb.size / BPB + 1) * BPB := by
    simp only [BPB, BSIZE]
    omega
  apply (ballocLoop_spec (s := s) (E := E) hsize _ 0 (Nat.zero_mod _) h).mono
  intro r s' hr
  rcases hr with ⟨hr, hs', hfull⟩ | ⟨-, hr, hfree, hfull, hs'⟩
  · exact .inl ⟨hr, hs', fun c hc => hfull c (Nat.zero_le c) hc⟩
  · exact .inr ⟨hr, hfree, fun c hc => hfull c (Nat.zero_le c) hc, hs'⟩

theorem abs_taken (hv : sb.Valid) (hb : sb.IsData b) :
    sb.abs (taken sb s b).disk = (sb.abs s.disk).take b := by
  rw [taken, takenAt, hv.abs_update _ hb, hv.abs_orBit _ hb.2]
  rfl

/-! ## The store with one in-memory inode -/

/-- The store in which inode `k` is as the in-memory copy has it. -/
def view (sb : Superblock) (s : State) (k : Slot) : Store :=
  { sb.abs s.disk with
    din := Function.update (sb.abs s.disk).din (s.inode k).inum (s.inode k).din }

@[simp] theorem view_din_self : (view sb s k).din (s.inode k).inum = (s.inode k).din :=
  update_self ..

theorem view_din_ne {i : ℕ} (h : i ≠ (s.inode k).inum) :
    (view sb s k).din i = (sb.abs s.disk).din i := update_of_ne h ..

theorem view_eq (h : (s.inode k).din = (sb.abs s.disk).din (s.inode k).inum) :
    view sb s k = sb.abs s.disk := by
  rw [view, h, update_eq_self]

/-- The state with another in-memory copy of the disk inode. -/
def State.setDinode (s : State) (k : Slot) (d : Dinode) : State :=
  { s with inode := Function.update s.inode k { s.inode k with din := d } }

@[simp] theorem setDinode_inode_self (d : Dinode) :
    (s.setDinode k d).inode k = { s.inode k with din := d } := update_self ..

theorem setDinode_inode_ne {j : Slot} (h : j ≠ k) (d : Dinode) :
    (s.setDinode k d).inode j = s.inode j := update_of_ne h ..

@[simp] theorem setDinode_disk (d : Dinode) : (s.setDinode k d).disk = s.disk := rfl

theorem view_setDinode (d : Dinode) : view sb (s.setDinode k d) k =
      { view sb s k with din := update (view sb s k).din (s.inode k).inum d } := by
  simp only [view, setDinode_inode_self, setDinode_disk, update_idem]

@[simp] theorem wp_setDin {f : Dinode → Dinode} {Q : PUnit → State → Prop} :
    wp (setDin k f) E s Q ↔ Q ⟨⟩ (s.setDinode k (f (s.inode k).din)) := by
  simp only [setDin, setInode, wp_bind, wp_get, wp_modify, assign_eq_update]
  rfl

/-- What the block layer may change on behalf of inode `k`: its in-memory copy and its disk inode, the
bit map and data blocks. -/
structure Frame (sb : Superblock) (k : Slot) (s s' : State) : Prop where
  ne : ∀ j ≠ k, s'.inode j = s.inode j
  self : s'.inode k = { s.inode k with din := (s'.inode k).din }
  din : ∀ i ≠ (s.inode k).inum, (sb.abs s'.disk).din i = (sb.abs s.disk).din i

namespace Frame

variable {s' s'' : State}

theorem refl (s : State) : Frame sb k s s := ⟨fun _ _ => rfl, rfl, fun _ _ => rfl⟩

section

variable (h : Frame sb k s s')

include h

theorem inum : (s'.inode k).inum = (s.inode k).inum := by
  rw [h.self]

theorem ref (j : Slot) : (s'.inode j).ref = (s.inode j).ref := by
  by_cases hj : j = k
  · rw [hj, h.self]
  · rw [h.ne j hj]

theorem valid (j : Slot) : (s'.inode j).valid = (s.inode j).valid := by
  by_cases hj : j = k
  · rw [hj, h.self]
  · rw [h.ne j hj]

theorem trans (h' : Frame sb k s' s'') : Frame sb k s s'' where
  ne j hj := (h'.ne j hj).trans (h.ne j hj)
  self := by rw [h'.self, h.self]
  din i hi := by rw [h'.din i (by rwa [h.inum]), h.din i hi]

end

theorem setDinode (d : Dinode) : Frame sb k s (s.setDinode k d) where
  ne _ hj := setDinode_inode_ne hj d
  self := by rw [setDinode_inode_self]
  din _ _ := rfl

end Frame

/-! ## Block numbers of an inode -/

/-- No block is free. -/
def Full (sb : Superblock) (st : Store) : Prop := ∀ b < sb.size, st.used b = true

/-- Inode `k` has got new blocks. -/
structure Grow (sb : Superblock) (k : Slot) (s s' : State) : Prop where
  frame : Frame sb k s s'
  own : Own sb (view sb s' k)
  ext : Store.Ext (view sb s k) (view sb s' k) (s.inode k).inum

theorem Grow.refl (h : Own sb (view sb s k)) : Grow sb k s s :=
  ⟨Frame.refl s, h, Store.Ext.refl _ _⟩

theorem Grow.trans {s' s'' : State} (h : Grow sb k s s') (h' : Grow sb k s' s'') : Grow sb k s s'' := by
  refine ⟨h.frame.trans h'.frame, h'.own, h.ext.trans ?_⟩
  rw [← h.frame.inum]
  exact h'.ext

theorem Grow.type {s' : State} (h : Grow sb k s s') : (s'.inode k).din.type = (s.inode k).din.type := by
  have := h.ext.type
  rwa [← h.frame.inum, view_din_self, h.frame.inum, view_din_self] at this

/-- Inode `k` has got blocks at the places `P` only. -/
def OnlyAt (sb : Superblock) (k : Slot) (P : Place → Prop) (s s' : State) : Prop :=
  ∀ p, ¬ P p → (view sb s' k).val ((s.inode k).inum, p) = (view sb s k).val ((s.inode k).inum, p)

theorem OnlyAt.refl (P : Place → Prop) (s : State) : OnlyAt sb k P s s := fun _ _ => rfl

variable {P Q : Place → Prop}

theorem OnlyAt.trans {s' s'' : State} (h : OnlyAt sb k P s s') (h' : OnlyAt sb k Q s' s'')
    (hinum : (s'.inode k).inum = (s.inode k).inum) : OnlyAt sb k (fun p => P p ∨ Q p) s s'' := by
  intro p hp
  rw [← h p fun hP => hp (.inl hP), ← hinum, h' p fun hQ => hp (.inr hQ)]

theorem OnlyAt.mono {s' : State} (h : OnlyAt sb k P s s') (hPQ : ∀ p, P p → Q p) :
    OnlyAt sb k Q s s' := fun p hp => h p fun hP => hp (hPQ p hP)

section

variable (hv : sb.Valid) (hb : sb.IsData b)

include hv hb

theorem view_taken : view sb (taken sb s b) k = (view sb s k).take b := by
  rw [view, abs_taken hv hb]
  rfl

theorem Frame.taken : Frame sb k s (taken sb s b) where
  ne _ _ := rfl
  self := rfl
  din i _ := by rw [abs_taken hv hb]; rfl

theorem Superblock.Valid.pos_of_isData : b ≠ 0 := by
  have h1 := hv.bitmap b hb.2
  have h2 := hb.1
  omega

end

/-- `place` finds the place `x` of a data block. -/
def Placed (sb : Superblock) (d : Disk) (place : ℕ → ℕ × Place) (x : ℕ × Place) : Prop :=
  (sb.abs d).val x ≠ 0 → place ((sb.abs d).val x) = x ∧ sb.IsData ((sb.abs d).val x) ∧
    (sb.abs d).used ((sb.abs d).val x) = true

instance (d : Disk) (place : ℕ → ℕ × Place) (x : ℕ × Place) : Decidable (Placed sb d place x) :=
  inferInstanceAs (Decidable (_ → _))

/-- `place` finds the place of every data block of a disk. -/
def Places (sb : Superblock) (d : Disk) (place : ℕ → ℕ × Place) : Prop :=
  (∀ i < sb.ninodes, (∀ j, Placed sb d place (i, .inl j)) ∧ ∀ j, Placed sb d place (i, .inr j)) ∧
  ∀ b < sb.size, sb.dataStart ≤ b → (sb.abs d).used b = true → (sb.abs d).val (place b) = b

instance (d : Disk) (place : ℕ → ℕ × Place) : Decidable (Places sb d place) :=
  inferInstanceAs (Decidable (_ ∧ _))

theorem Superblock.Valid.owns (hv : sb.Valid) {d : Disk} (place : ℕ → ℕ × Place)
    (h : Places sb d place) : Owns (sb.abs d).val sb.IsData (sb.abs d).used := by
  have hplace : ∀ x, Placed sb d place x := by
    rintro ⟨i, p⟩ hx
    have hi : i < sb.ninodes := by
      by_contra hi
      refine hx (Store.val_of_free ?_ p)
      rw [Superblock.abs_din_of_not_lt _ hi]
      rfl
    rcases p with j | j
    · exact (h.1 i hi).1 j hx
    · exact (h.1 i hi).2 j hx
  refine ⟨fun _ hb => hv.pos_of_isData hb, fun x y hx hxy => ?_, fun x hx => (hplace x hx).2,
    fun b hb hu => ⟨place b, h.2 b hb.2 hb.1 hu⟩⟩
  rw [← (hplace x hx).1, hxy, (hplace y (by rwa [← hxy])).1]

theorem balloc_own (hv : sb.Valid) (h : Own sb (view sb s k)) : wp (balloc sb) E s fun b s' =>
      (b = 0 ∧ s' = s ∧ Full sb (view sb s k)) ∨
      (sb.IsData b ∧ (view sb s k).used b = false ∧ s' = taken sb s b) := by
  apply (balloc_spec (Nat.le_of_lt hv.size_lt)).mono
  intro b s' hb
  rcases hb with ⟨hb, hs', hfull⟩ | ⟨hlt, hfree, -, hs'⟩
  · exact .inl ⟨hb, hs', hfull⟩
  · exact .inr ⟨h.isData hlt hfree, hfree, hs'⟩

theorem addrOrAlloc_spec (hv : sb.Valid) (h : Own sb (view sb s k)) (ht : (s.inode k).din.type ≠ 0)
    (j : Fin (NDIRECT + 1)) : wp (addrOrAlloc sb k j) E s fun b s' =>
      Grow sb k s s' ∧ (b = 0 → Full sb (view sb s' k)) ∧
      (b ≠ 0 → (view sb s' k).val ((s.inode k).inum, .inl j) = b) ∧
      ((s.inode k).din.addrs j ≠ 0 → b ≠ 0 ∧ s' = s) ∧
      OnlyAt sb k (· = .inl j) s s' ∧ (b = 0 → s' = s) := by
  have hview : ((view sb s k).din (s.inode k).inum).type ≠ 0 := by rwa [view_din_self]
  simp only [addrOrAlloc, wp_bind, wp_get]
  by_cases h0 : (s.inode k).din.addrs j = 0
  · rw [if_pos (by rw [h0]; rfl), wp_bind]
    apply (balloc_own hv h).mono
    rintro b s' (⟨rfl, rfl, hfull⟩ | ⟨hb, hfree, rfl⟩)
    · rw [if_pos rfl, wp_pure]
      exact ⟨Grow.refl h, fun _ => hfull, fun hne => absurd rfl hne, fun hne => absurd h0 hne,
        .refl _ _, fun _ => rfl⟩
    · have hpos := hv.pos_of_isData hb
      have hlt : b < 2 ^ 32 := by have := hv.size_lt; have := hb.2; omega
      simp only [if_neg hpos, wp_bind, wp_setDin, wp_pure, assign_eq_update]
      -- the view of the new state is the old one with the block taken and stored
      obtain ⟨hown, hext, hval⟩ := h.setAddr_take hb hfree hlt hview (by rwa [view_din_self])
      have hview' : ∀ d, view sb ((taken sb s b).setDinode k d) k = { (view sb s k).take b with
            din := update (view sb s k).din (s.inode k).inum d } := fun d => by
        rw [view_setDinode, view_taken hv hb]
        rfl
      have heq : view sb ((taken sb s b).setDinode k { ((taken sb s b).inode k).din with
          addrs := update ((taken sb s b).inode k).din.addrs j (UInt32.ofNat b) }) k =
          ((view sb s k).take b).setAddr (s.inode k).inum j b := by
        rw [hview', Store.setAddr, show ((view sb s k).take b).din = (view sb s k).din from rfl,
          view_din_self]
        rfl
      have hvals := h.val_setAddr_take hb hfree hlt hview (j := j) (by rwa [view_din_self])
      rw [← heq] at hown hext hval hvals
      refine ⟨⟨(Frame.taken hv hb).trans (Frame.setDinode _), hown, hext⟩,
        fun hb0 => absurd hb0 hpos, fun _ => hval, fun hne => absurd h0 hne, fun p hp => ?_,
        fun hb0 => absurd hb0 hpos⟩
      rw [hvals, update_of_ne fun heq => hp (Prod.mk.inj heq).2]
  · have hne : ((s.inode k).din.addrs j).toNat ≠ 0 := by
      intro hz
      exact h0 (UInt32.toNat_inj.mp hz)
    rw [if_neg hne, wp_pure]
    refine ⟨Grow.refl h, fun hz => absurd hz hne, fun _ => ?_, fun _ => ⟨hne, rfl⟩, .refl _ _,
      fun _ => rfl⟩
    rw [Store.val_inl hview, view_din_self]

theorem Own.isData_val {st : Store} (h : Own sb st) {x : ℕ × Place} (hx : st.val x ≠ 0) :
    sb.IsData (st.val x) := (h.owns.owned x hx).1

theorem bmapEntry_spec (hv : sb.Valid) (h : Own sb (view sb s k)) (ht : (s.inode k).din.type ≠ 0)
    (h0 : (s.inode k).din.addrs indirect ≠ 0) (j : Fin NINDIRECT) {addr : ℕ}
    (haddr : addr = ((s.inode k).din.addrs indirect).toNat) : wp (do
      let bp ← bread addr
      if bp.word j = 0 then do
        let a ← balloc sb
        if a = 0 then pure 0
        else do
          logWrite addr (bp.setWord j a)
          return a
      else return bp.word j) E s fun b s' =>
      Grow sb k s s' ∧ (b = 0 → Full sb (view sb s' k)) ∧
      (b ≠ 0 → (view sb s' k).val ((s.inode k).inum, .inr j) = b) ∧
      ((view sb s k).val ((s.inode k).inum, .inr j) ≠ 0 → b ≠ 0 ∧ s' = s) ∧
      OnlyAt sb k (· = .inr j) s s' ∧ (b = 0 → s' = s) := by
  have hview : ((view sb s k).din (s.inode k).inum).type ≠ 0 := by rwa [view_din_self]
  have hind : (view sb s k).ind (s.inode k).inum = addr := by rw [Store.ind, view_din_self, haddr]
  have hne : addr ≠ 0 := by
    rw [haddr]
    intro hz
    exact h0 (UInt32.toNat_inj.mp hz)
  have hisData : sb.IsData addr := by
    rw [← hind, ← Store.val_indirect hview] at hne ⊢
    exact h.isData_val hne
  have hdata : (view sb s k).data addr = s.disk addr := if_pos hisData
  have hval : (view sb s k).val ((s.inode k).inum, .inr j) = (s.disk addr).word j := by
    rw [Store.val_inr hview, hind, if_neg hne, hdata]
  simp only [bread, wp_bind, wp_get, wp_pure]
  by_cases hw : (s.disk addr).word j = 0
  · rw [if_pos hw, wp_bind]
    apply (balloc_own hv h).mono
    rintro b s' (⟨rfl, rfl, hfull⟩ | ⟨hb, hfree, rfl⟩)
    · rw [if_pos rfl, wp_pure]
      exact ⟨Grow.refl h, fun _ => hfull, fun hne => absurd rfl hne,
        fun hne => absurd (hval.trans hw) hne, .refl _ _, fun _ => rfl⟩
    · have hpos := hv.pos_of_isData hb
      have hlt : b < 2 ^ 32 := by have := hv.size_lt; have := hb.2; omega
      simp only [if_neg hpos, logWrite, wp_bind, wp_modify, wp_pure, assign_eq_update]
      obtain ⟨hown, hext, hval'⟩ :=
        h.setEntry_take hb hfree hlt hview (by rwa [hind]) (by rwa [hind, hdata])
      have hvals := h.val_setEntry_take hb hfree hlt hview (by rwa [hind]) j
      rw [← h.setEntry_take_eq hb hfree hview j] at hvals
      rw [hind, hdata, ← view_taken hv hb] at hown hext hval' hvals
      have heq : view sb ⟨update (taken sb s b).disk addr ((s.disk addr).setWord j b),
          (taken sb s b).inode, addr :: (taken sb s b).logged⟩ k =
          { view sb (taken sb s b) k with
            data := update (view sb (taken sb s b) k).data addr ((s.disk addr).setWord j b) } := by
        simp only [view, hv.abs_update _ hisData]
      rw [← heq] at hown hext hval' hvals
      refine ⟨⟨(Frame.taken hv hb).trans ⟨fun _ _ => rfl, rfl, fun i _ => ?_⟩, hown, hext⟩,
        fun hb0 => absurd hb0 hpos, fun _ => hval', fun hne => absurd (hval.trans hw) hne,
        fun p hp => ?_, fun hb0 => absurd hb0 hpos⟩
      · rw [hv.abs_update _ hisData]
      · rw [hvals, update_of_ne fun heq => hp (Prod.mk.inj heq).2]
  · rw [if_neg hw, wp_pure]
    exact ⟨Grow.refl h, fun hz => absurd hz hw, fun _ => hval, fun _ => ⟨hw, rfl⟩, .refl _ _, fun _ => rfl⟩

theorem bmap_spec (hv : sb.Valid) (h : Own sb (view sb s k)) (ht : (s.inode k).din.type ≠ 0) {bn : ℕ}
    (hbn : bn < MAXFILE) : wp (bmap sb k bn) E s fun b s' =>
      Grow sb k s s' ∧ (b = 0 → Full sb (view sb s' k)) ∧
      (b ≠ 0 → (view sb s' k).val ((s.inode k).inum, filePlace bn) = b) ∧
      ((view sb s k).val ((s.inode k).inum, filePlace bn) ≠ 0 → b ≠ 0 ∧ s' = s) ∧
      OnlyAt sb k (fun p => p = filePlace bn ∨ p = .inl indirect ∧ NDIRECT ≤ bn) s s' ∧
      (b = 0 → (view sb s' k).val ((s.inode k).inum, filePlace bn) = 0) := by
  have hview : ((view sb s k).din (s.inode k).inum).type ≠ 0 := by rwa [view_din_self]
  simp only [MAXFILE, NDIRECT, NINDIRECT] at hbn
  unfold bmap
  by_cases hd : bn < NDIRECT
  · rw [if_pos hd, filePlace, if_pos hd]
    apply (addrOrAlloc_spec hv h ht _).mono
    rintro b s' ⟨hgrow, hfull, hval, hsame, honly, hfail⟩
    have hsame' : (view sb s k).val ((s.inode k).inum, .inl (Fin.ofNat _ bn)) ≠ 0 → b ≠ 0 ∧ s' = s :=
      fun hne => hsame fun hz => hne (by
        rw [Store.val_inl hview, view_din_self, hz]
        rfl)
    refine ⟨hgrow, hfull, hval, hsame', honly.mono fun _ hp => .inl hp, fun hb => ?_⟩
    rw [hfail hb]
    by_contra hne
    exact (hsame' hne).1 hb
  · have hin : bn - NDIRECT < NINDIRECT := by
      simp only [NDIRECT, NINDIRECT] at *
      omega
    have hj : ((Fin.ofNat NINDIRECT (bn - NDIRECT) : Fin NINDIRECT) : ℕ) = bn - NDIRECT :=
      Nat.mod_eq_of_lt hin
    rw [if_neg hd, if_pos hin, filePlace, if_neg hd, wp_bind]
    apply (addrOrAlloc_spec hv h ht indirect).mono
    rintro addr s1 ⟨hgrow, hfull, hval, hsame, honly, hfail⟩
    -- an indirect block that had to be allocated has no entry
    have hsame' : (view sb s k).val ((s.inode k).inum, .inr (Fin.ofNat _ (bn - NDIRECT))) ≠ 0 →
        addr ≠ 0 ∧ s1 = s := fun hne => hsame fun hz => hne (by
      rw [Store.val_inr hview, Store.ind, view_din_self, hz]
      rfl)
    by_cases ha : addr = 0
    · rw [if_pos ha, wp_pure]
      refine ⟨hgrow, fun _ => hfull ha, fun hne => absurd rfl hne,
        fun hne => absurd ha (hsame' hne).1, honly.mono fun _ hp => .inr ⟨hp, by omega⟩, fun _ => ?_⟩
      rw [hfail ha]
      by_contra hne
      exact (hsame' hne).1 ha
    · rw [if_neg ha]
      have hview1 : ((view sb s1 k).din (s1.inode k).inum).type ≠ 0 := by
        rwa [view_din_self, hgrow.type]
      have haddr : addr = ((s1.inode k).din.addrs indirect).toNat := by
        rw [← hval ha, ← hgrow.frame.inum, Store.val_inl hview1, view_din_self]
      have h0 : (s1.inode k).din.addrs indirect ≠ 0 := by
        intro hz
        rw [hz] at haddr
        exact ha haddr
      have hentry := bmapEntry_spec (E := E) hv hgrow.own (by rwa [hgrow.type]) h0
        (Fin.ofNat NINDIRECT (bn - NDIRECT)) haddr
      simp only [hj] at hentry
      apply hentry.mono
      rintro b s' ⟨hgrow', hfull', hval', hsame'', honly', hfail'⟩
      have honly'' := honly.trans honly' hgrow.frame.inum
      rw [hgrow.frame.inum] at hval' hsame''
      refine ⟨hgrow.trans hgrow', hfull', hval', fun hne => ?_,
        honly''.mono fun p hp => hp.symm.imp_right fun hp => ⟨hp, by omega⟩, fun hb => ?_⟩
      · obtain ⟨-, rfl⟩ := hsame' hne
        exact hsame'' hne
      · rw [hfail' hb]
        by_contra hne
        exact (hsame'' hne).1 hb

/-! ## Updating the disk inode -/

theorem iupdate_spec (hv : sb.Valid) (hi : (s.inode k).inum < sb.ninodes) :
    wp (iupdate sb k) E s fun _ s' => s'.inode = s.inode ∧ sb.abs s'.disk = view sb s k := by
  simp only [iupdate, bread, logWrite, wp_bind, wp_get, wp_pure, wp_modify, assign_eq_update]
  refine ⟨trivial, ?_⟩
  rw [hv.abs_putDinode _ hi]
  rfl

end Xv6.Fs
