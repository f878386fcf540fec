import Xv6.Fs.ReadWrite
import Xv6.Fs.Trunc

/-!
# The inode table

`Table` is the invariant of the in-memory inodes: no disk inode has two entries in use, and an entry that
is valid agrees with its disk inode. Specifications of `iget`, `idup`, `ilock`, `iunlock`, `iput` and
`ialloc` say how each changes the table and the store.
-/

namespace Xv6.Fs

open Lib Function

variable {sb : Superblock} {E : Err → Prop} {s s' : State} {k : Slot}

/-- The invariant of the inode table. -/
structure Table (sb : Superblock) (s : State) : Prop where
  inj : ∀ j k, 0 < (s.inode j).ref → 0 < (s.inode k).ref → (s.inode j).inum = (s.inode k).inum → j = k
  inum_lt : ∀ k, 0 < (s.inode k).ref → (s.inode k).inum < sb.ninodes
  sync : ∀ k, 0 < (s.inode k).ref → (s.inode k).valid = true →
    (s.inode k).din = (sb.abs s.disk).din (s.inode k).inum
  type : ∀ k, 0 < (s.inode k).ref → (s.inode k).valid = true → (s.inode k).din.type ≠ 0

instance : Decidable (Table sb s) :=
  decidable_of_iff ((∀ j k, 0 < (s.inode j).ref → 0 < (s.inode k).ref →
      (s.inode j).inum = (s.inode k).inum → j = k) ∧
    ∀ k, 0 < (s.inode k).ref → (s.inode k).inum < sb.ninodes ∧ ((s.inode k).valid = true →
      (s.inode k).din = (sb.abs s.disk).din (s.inode k).inum ∧ (s.inode k).din.type ≠ 0))
    ⟨fun h => ⟨h.1, fun k hk => (h.2 k hk).1, fun k hk hv => ((h.2 k hk).2 hv).1,
      fun k hk hv => ((h.2 k hk).2 hv).2⟩,
    fun h => ⟨h.inj, fun k hk => ⟨h.inum_lt k hk, fun hv => ⟨h.sync k hk hv, h.type k hk hv⟩⟩⟩⟩

theorem Table.held (h : Table sb s) (hr : 0 < (s.inode k).ref) (hvalid : (s.inode k).valid = true) :
    Held sb s k := ⟨h.inum_lt k hr, h.sync k hr hvalid, h.type k hr hvalid⟩

/-- The state with another in-memory inode. -/
def State.withInode (s : State) (k : Slot) (x : Inode) : State :=
  { s with inode := Function.update s.inode k x }

@[simp] theorem withInode_disk (x : Inode) : (s.withInode k x).disk = s.disk := rfl

@[simp] theorem withInode_self (x : Inode) : (s.withInode k x).inode k = x := update_self ..

variable {j : Slot}

theorem withInode_ne (h : j ≠ k) (x : Inode) : (s.withInode k x).inode j = s.inode j :=
  update_of_ne h ..

variable {x : Inode}

@[simp] theorem wp_setInode {Q : PUnit → State → Prop} : wp (setInode k x) E s Q ↔ Q ⟨⟩ (s.withInode k x) := by
  simp only [setInode, wp_modify, assign_eq_update]
  rfl

theorem Table.withInode (h : Table sb s) (hinum : 0 < x.ref → x.inum < sb.ninodes ∧
      ∀ j ≠ k, 0 < (s.inode j).ref → (s.inode j).inum ≠ x.inum)
    (hsync : 0 < x.ref → x.valid = true → x.din = (sb.abs s.disk).din x.inum ∧ x.din.type ≠ 0) :
    Table sb (s.withInode k x) where
  inj j l hj hl heq := by
    by_cases hjk : j = k <;> by_cases hlk : l = k
    · rw [hjk, hlk]
    · subst hjk
      rw [withInode_self] at hj heq
      rw [withInode_ne hlk] at hl heq
      exact absurd heq.symm ((hinum hj).2 l hlk hl)
    · subst hlk
      rw [withInode_self] at hl heq
      rw [withInode_ne hjk] at hj heq
      exact absurd heq ((hinum hl).2 j hjk hj)
    · rw [withInode_ne hjk] at hj heq
      rw [withInode_ne hlk] at hl heq
      exact h.inj j l hj hl heq
  inum_lt j hj := by
    by_cases hjk : j = k
    · subst hjk
      rw [withInode_self] at hj ⊢
      exact (hinum hj).1
    · rw [withInode_ne hjk] at hj ⊢
      exact h.inum_lt j hj
  sync j hj hvalid := by
    by_cases hjk : j = k
    · subst hjk
      rw [withInode_self] at hj hvalid ⊢
      exact (hsync hj hvalid).1
    · rw [withInode_ne hjk] at hj hvalid ⊢
      exact h.sync j hj hvalid
  type j hj hvalid := by
    by_cases hjk : j = k
    · subst hjk
      rw [withInode_self] at hj hvalid ⊢
      exact (hsync hj hvalid).2
    · rw [withInode_ne hjk] at hj hvalid ⊢
      exact h.type j hj hvalid

theorem Table.relock (h : Table sb s) (hr : 0 < (s.inode k).ref) (n : ℕ) (l : Bool) :
    Table sb (s.withInode k { s.inode k with ref := n, locked := l }) := by
  apply h.withInode
  · intro _
    refine ⟨h.inum_lt k hr, fun j hjk hj heq => hjk (h.inj j k hj hr heq)⟩
  · intro _ hvalid
    exact ⟨h.sync k hr hvalid, h.type k hr hvalid⟩

/-! ## Getting and locking an inode -/

/-- The errors `E` include the panics that no invariant here rules out: all but "freeing free block",
"ilock: no type" and "unlink: nlink < 1". -/
def Tolerant (E : Err → Prop) : Prop :=
  ∀ e, e ≠ .freeingFreeBlock → e ≠ .noType → e ≠ .unlinkNlink → E e

/-- `iget` of inode `i` returned entry `k`. -/
structure Got (i : ℕ) (s : State) (k : Slot) (s' : State) : Prop where
  eq : s' = s.withInode k (s'.inode k)
  inum : (s'.inode k).inum = i
  ref : (s'.inode k).ref = (s.inode k).ref + 1
  old : 0 < (s.inode k).ref →
    s'.inode k = { s.inode k with ref := (s.inode k).ref + 1 } ∧ (s.inode k).inum = i
  new : (s.inode k).ref = 0 →
    (s'.inode k).valid = false ∧ ∀ j, 0 < (s.inode j).ref → (s.inode j).inum ≠ i

theorem iget_got (hE : (∀ k, (s.inode k).ref ≠ 0) → E .noInodes) (i : ℕ) :
    wp (iget i) E s fun k s' => Got i s k s' ∧ (s'.inode k).locked = (s.inode k).locked := by
  simp only [iget, wp_bind, wp_get]
  split
  · next k hfind =>
    have hk := List.find?_some hfind
    simp only [decide_eq_true_eq] at hk
    rw [wp_bind, wp_setInode, wp_pure]
    refine ⟨⟨by rw [withInode_self], ?_, ?_, fun _ => ⟨withInode_self _, hk.2⟩,
      fun h0 => absurd hk.1 (by omega)⟩, ?_⟩
    · rw [withInode_self]
      exact hk.2
    · rw [withInode_self]
    · rw [withInode_self]
  · next hnone =>
    rw [List.find?_eq_none] at hnone
    split
    · next hfull =>
      rw [List.find?_eq_none] at hfull
      rw [wp_throw]
      exact hE fun k h0 => hfull k (List.mem_finRange k) (by simpa using h0)
    · next k hfind =>
      have hk := List.find?_some hfind
      simp only [decide_eq_true_eq] at hk
      rw [wp_bind, wp_setInode, wp_pure]
      refine ⟨⟨by rw [withInode_self], ?_, ?_, fun h => absurd hk (by omega), fun _ => ⟨?_, ?_⟩⟩, ?_⟩
      · rw [withInode_self]
      · rw [withInode_self, hk]
      · rw [withInode_self]
      · intro j hj heq
        exact hnone j (List.mem_finRange j) (by simpa using ⟨hj, heq⟩)
      · rw [withInode_self]

theorem iget_spec (hE : Tolerant E) (i : ℕ) : wp (iget i) E s fun k s' => Got i s k s' :=
  (iget_got (fun _ => hE _ (by decide) (by decide) (by decide)) i).mono fun _ _ h => h.1

namespace Got

variable {i : ℕ}

section

variable (h : Got i s k s')

include h

theorem disk : s'.disk = s.disk := by rw [h.eq]; rfl

theorem ne (hj : j ≠ k) : s'.inode j = s.inode j := by
  rw [h.eq, withInode_ne hj]

theorem ref_pos : 0 < (s'.inode k).ref := by
  rw [h.ref]
  omega

theorem table (ht : Table sb s) (hi : i < sb.ninodes) : Table sb s' := by
  rw [h.eq]
  rcases Nat.eq_zero_or_pos (s.inode k).ref with h0 | hpos
  · obtain ⟨hvalid, hfresh⟩ := h.new h0
    apply ht.withInode
    · intro _
      refine ⟨by rwa [h.inum], fun j _ hj => ?_⟩
      rw [h.inum]
      exact hfresh j hj
    · intro _ hv
      rw [hvalid] at hv
      cases hv
  · obtain ⟨heq, -⟩ := h.old hpos
    rw [heq]
    exact ht.relock hpos _ _

end

end Got

@[simp] theorem wp_idup {Q : Slot → State → Prop} : wp (idup k) E s Q ↔
      Q k (s.withInode k { s.inode k with ref := (s.inode k).ref + 1 }) := by
  simp only [idup, wp_bind, wp_get, wp_setInode, wp_pure]

/-- The entry after `ilock`. -/
def lockedInode (sb : Superblock) (s : State) (k : Slot) : Inode :=
  { s.inode k with
    locked := true
    valid := true
    din := (sb.abs s.disk).din (s.inode k).inum }

theorem ilock_free_spec (hlt : (s.inode k).inum < sb.ninodes)
    (hvalid : (s.inode k).valid = true → Held sb s k) (hpos : 0 < (s.inode k).ref)
    (hl : (s.inode k).locked = false)
    (hT : ((sb.abs s.disk).din (s.inode k).inum).type = 0 → E .noType) :
    wp (ilock sb k) E s fun _ s' => ((sb.abs s.disk).din (s.inode k).inum).type ≠ 0 ∧
      s' = s.withInode k (lockedInode sb s k) := by
  simp only [ilock, wp_bind, wp_get]
  rw [if_neg (by omega), if_neg (by rw [hl]; decide)]
  by_cases hv : (s.inode k).valid = true
  · have hheld := hvalid hv
    rw [if_pos hv, wp_setInode]
    refine ⟨by rw [← hheld.sync]; exact hheld.type, ?_⟩
    rw [lockedInode, ← hheld.sync, ← hv]
  · have hdin : (s.disk (sb.iblock (s.inode k).inum)).getDinode ((s.inode k).inum % IPB) =
        (sb.abs s.disk).din (s.inode k).inum := (if_pos hlt).symm
    rw [if_neg hv]
    simp only [bread, wp_bind, wp_get, wp_pure, wp_setInode, hdin]
    rw [wp_ite]
    refine ⟨fun h0 => ?_, fun h0 => ?_⟩
    · rw [wp_throw]
      exact hT h0
    · rw [wp_pure]
      exact ⟨h0, rfl⟩

theorem ilock_spec (hE : Tolerant E) (h : Table sb s)
    (hT : 0 < (s.inode k).ref → ((sb.abs s.disk).din (s.inode k).inum).type = 0 → E .noType) :
    wp (ilock sb k) E s fun _ s' =>
      0 < (s.inode k).ref ∧ ((sb.abs s.disk).din (s.inode k).inum).type ≠ 0 ∧
        s' = s.withInode k (lockedInode sb s k) := by
  by_cases hr : (s.inode k).ref < 1
  · simp only [ilock, wp_bind, wp_get]
    rw [if_pos hr, wp_throw]
    exact hE _ (by decide) (by decide) (by decide)
  have hpos : 0 < (s.inode k).ref := by omega
  by_cases hl : (s.inode k).locked = true
  · simp only [ilock, wp_bind, wp_get]
    rw [if_neg hr, if_pos hl, wp_throw]
    exact hE _ (by decide) (by decide) (by decide)
  · exact (ilock_free_spec (h.inum_lt k hpos) (h.held hpos) hpos (Bool.eq_false_iff.mpr hl)
      (hT hpos)).mono fun _ _ h' => ⟨hpos, h'⟩

theorem iunlock_spec (hE : Tolerant E) : wp (iunlock k) E s fun _ s' =>
      0 < (s.inode k).ref ∧ s' = s.withInode k { s.inode k with locked := false } := by
  simp only [iunlock, wp_bind, wp_get]
  rw [wp_ite]
  refine ⟨fun h => ?_, fun h => ?_⟩
  · rw [wp_throw]
    exact hE _ (by decide) (by decide) (by decide)
  · rw [wp_setInode]
    exact ⟨by omega, rfl⟩

theorem Table.locked (h : Table sb s) (hr : 0 < (s.inode k).ref)
    (ht : ((sb.abs s.disk).din (s.inode k).inum).type ≠ 0) :
    Table sb (s.withInode k (lockedInode sb s k)) := by
  apply h.withInode
  · intro _
    exact ⟨h.inum_lt k hr, fun j hjk hj heq => hjk (h.inj j k hj hr heq)⟩
  · intro _ _
    exact ⟨rfl, ht⟩

/-! ## Updating the disk inode -/

/-- Inode `k` has the fields `d`, in memory and on disk. -/
structure Updated (sb : Superblock) (k : Slot) (d : Dinode) (s s' : State) : Prop where
  inode : s'.inode = Function.update s.inode k { s.inode k with din := d }
  abs : sb.abs s'.disk = (sb.abs s.disk).setDin (s.inode k).inum d

theorem iupdate_setDinode (hv : sb.Valid) (h : Table sb s) (hr : 0 < (s.inode k).ref) (d : Dinode) :
    wp (iupdate sb k) E (s.setDinode k d) fun _ s' => Updated sb k d s s' := by
  apply (iupdate_spec hv (by rw [setDinode_inode_self]; exact h.inum_lt k hr)).mono
  rintro _ s' ⟨hinode, habs⟩
  refine ⟨hinode, ?_⟩
  rw [habs, view, setDinode_inode_self]
  rfl

namespace Updated

variable {d : Dinode}

section

variable (h : Updated sb k d s s')

include h

theorem self : s'.inode k = { s.inode k with din := d } := by
  rw [h.inode, update_self]

theorem ne (hj : j ≠ k) : s'.inode j = s.inode j := by
  rw [h.inode, update_of_ne hj]

theorem frame : Frame sb k s s' where
  ne _ hj := h.ne hj
  self := by rw [h.self]
  din i hi := by rw [h.abs, Store.setDin_din_ne hi]

theorem sync : (sb.abs s'.disk).din (s.inode k).inum = (s'.inode k).din := by
  rw [h.abs, Store.setDin_din_self, h.self]

end

end Updated

theorem Frame.table (h : Frame sb k s s') (ht : Table sb s) (hr : 0 < (s.inode k).ref)
    (hsync : (sb.abs s'.disk).din (s.inode k).inum = (s'.inode k).din)
    (htype : (s'.inode k).din.type ≠ 0) : Table sb s' := by
  have hinum : ∀ j, (s'.inode j).inum = (s.inode j).inum := fun j => by
    by_cases hj : j = k
    · rw [hj, h.inum]
    · rw [h.ne j hj]
  refine ⟨fun i j hi hj heq => ?_, fun j hj => ?_, fun j hj hvalid => ?_, fun j hj hvalid => ?_⟩
  · rw [h.ref] at hi hj
    rw [hinum, hinum] at heq
    exact ht.inj i j hi hj heq
  · rw [h.ref] at hj
    rw [hinum]
    exact ht.inum_lt j hj
  · rw [h.ref] at hj
    rw [h.valid] at hvalid
    by_cases hjk : j = k
    · rw [hjk, h.inum, hsync]
    · rw [h.ne j hjk, ht.sync j hj hvalid, h.din]
      exact fun heq => hjk (ht.inj j k hj hr heq)
  · rw [h.ref] at hj
    rw [h.valid] at hvalid
    by_cases hjk : j = k
    · rwa [hjk]
    · rw [h.ne j hjk]
      exact ht.type j hj hvalid

/-! ## Putting and allocating an inode -/

variable {st : Store} {d : Dinode} {i : ℕ}

theorem Store.val_setDin_empty (hd : ∀ j, d.addrs j = 0)
    (hst : ∀ p, st.val (i, p) = 0) : (st.setDin i d).val = st.val := by
  funext ⟨j, p⟩
  by_cases hj : j = i
  · rw [hj, hst]
    apply Store.val_of_addrs_zero
    rwa [Store.setDin_din_self]
  · exact Store.val_congr st (st.setDin i d) (Store.setDin_din_ne hj d) (fun _ _ => rfl) p

theorem Own.setDin_empty (h : Own sb st) (hd : ∀ j, d.addrs j = 0)
    (hst : ∀ p, st.val (i, p) = 0) : Own sb (st.setDin i d) :=
  ⟨by rw [Store.val_setDin_empty hd hst]; exact h.owns, h.low⟩

/-- The last reference to inode `k` is gone, and with it the inode. -/
structure Freed (sb : Superblock) (k : Slot) (s s' : State) : Prop where
  ne : ∀ j ≠ k, s'.inode j = s.inode j
  ref : (s'.inode k).ref = 0
  own : Own sb (sb.abs s'.disk)
  type : ((sb.abs s'.disk).din (s.inode k).inum).type = 0
  din_ne : ∀ i ≠ (s.inode k).inum, (sb.abs s'.disk).din i = (sb.abs s.disk).din i
  data : (sb.abs s'.disk).data = (sb.abs s.disk).data

/-- `iput` frees the inode. -/
def Drops (sb : Superblock) (s : State) (k : Slot) : Prop :=
  (s.inode k).ref = 1 ∧ (s.inode k).valid = true ∧
    ((sb.abs s.disk).din (s.inode k).inum).nlink = 0

theorem iput_spec (hE : Tolerant E) (hv : sb.Valid) (h : Table sb s) (hown : Own sb (sb.abs s.disk))
    (hr : 0 < (s.inode k).ref) : wp (iput sb k) E s fun _ s' =>
      (¬ Drops sb s k ∧ s' = s.withInode k { s.inode k with ref := (s.inode k).ref - 1 }) ∨
      (Drops sb s k ∧ Freed sb k s s') := by
  simp only [iput, wp_bind, wp_get]
  by_cases hc : (s.inode k).ref = 1 ∧ (s.inode k).valid = true ∧ (s.inode k).din.nlink = 0
  · obtain ⟨h1, hvalid, hnlink⟩ := hc
    have hheld := h.held hr hvalid
    have hdrop : Drops sb s k := ⟨h1, hvalid, by rw [← hheld.sync]; exact hnlink⟩
    rw [if_pos ⟨h1, hvalid, hnlink⟩]
    by_cases hl : (s.inode k).locked = true
    · rw [if_pos hl, wp_throw]
      exact hE _ (by decide) (by decide) (by decide)
    rw [if_neg hl]
    simp only [wp_bind, wp_setInode]
    obtain ⟨s1, hs1⟩ : ∃ s1, s1 = s.withInode k { s.inode k with locked := true } := ⟨_, rfl⟩
    have hk1 : s1.inode k = { s.inode k with locked := true } := by rw [hs1, withInode_self]
    have hview1 : view sb s1 k = sb.abs s.disk := by
      rw [view, hk1, hs1]
      exact view_eq hheld.sync
    rw [← hs1]
    apply (itrunc_spec hv (by rw [hview1]; exact hown) (by rw [hk1]; exact hheld.type)
      (by rw [hk1]; exact hheld.inum_lt)).mono
    intro _ s2 htr
    have hinum : (s2.inode k).inum = (s.inode k).inum := by rw [htr.frame.inum, hk1]
    rw [wp_setDin]
    apply (iupdate_spec hv (by rw [setDinode_inode_self, hinum]; exact hheld.inum_lt)).mono
    rintro _ s3 ⟨hinode, habs⟩
    right
    -- the disk inode has neither blocks nor a type
    have hsync : (sb.abs s2.disk).din (s.inode k).inum = (s2.inode k).din := by
      have := htr.sync
      rwa [hk1] at this
    have habs' : sb.abs s3.disk =
        (sb.abs s2.disk).setDin (s.inode k).inum { (s2.inode k).din with type := 0 } := by
      rw [habs, view, setDinode_inode_self, hinum]
      rfl
    have haddrs : ∀ j, (s2.inode k).din.addrs j = 0 := fun j => by rw [htr.din]
    refine ⟨hdrop, fun j hj => ?_, ?_, ?_, ?_, fun i hi => ?_, ?_⟩
    · rw [withInode_ne hj, hinode, setDinode_inode_ne hj, htr.frame.ne j hj, hs1, withInode_ne hj]
    · rw [withInode_self, hinode, setDinode_inode_self]
      change (s2.inode k).ref - 1 = 0
      rw [htr.frame.ref, hk1]
      change (s.inode k).ref - 1 = 0
      omega
    · rw [withInode_disk, habs']
      refine htr.own.setDin_empty (fun j => haddrs j) fun p => ?_
      apply Store.val_of_addrs_zero
      rwa [hsync]
    · rw [withInode_disk, habs', Store.setDin_din_self]
    · rw [withInode_disk, habs', Store.setDin_din_ne hi, htr.frame.din i (by rw [hk1]; exact hi), hs1]
      rfl
    · rw [withInode_disk, habs']
      refine htr.data.trans ?_
      rw [hs1]
      rfl
  · rw [if_neg hc, wp_setInode]
    refine .inl ⟨?_, rfl⟩
    rintro ⟨h1, hvalid, hnlink⟩
    rw [← h.sync k hr hvalid] at hnlink
    exact hc ⟨h1, hvalid, hnlink⟩

theorem Freed.table (h : Freed sb k s s') (ht : Table sb s) (hr : 0 < (s.inode k).ref) :
    Table sb s' := by
  have hne : ∀ j, 0 < (s'.inode j).ref → j ≠ k := by
    rintro j hj rfl
    rw [h.ref] at hj
    omega
  have hpos : ∀ j, 0 < (s'.inode j).ref → 0 < (s.inode j).ref := fun j hj => by
    rwa [h.ne j (hne j hj)] at hj
  refine ⟨fun i j hi hj heq => ?_, fun j hj => ?_, fun j hj hvalid => ?_, fun j hj hvalid => ?_⟩
  · rw [h.ne i (hne i hi), h.ne j (hne j hj)] at heq
    exact ht.inj i j (hpos i hi) (hpos j hj) heq
  · rw [h.ne j (hne j hj)]
    exact ht.inum_lt j (hpos j hj)
  · rw [h.ne j (hne j hj)] at hvalid ⊢
    rw [ht.sync j (hpos j hj) hvalid, h.din_ne]
    exact fun heq => hne j hj (ht.inj j k (hpos j hj) hr heq)
  · rw [h.ne j (hne j hj)] at hvalid ⊢
    exact ht.type j (hpos j hj) hvalid

/-- The state after `ialloc` has marked disk inode `i`. -/
structure Marked (sb : Superblock) (type : UInt16) (i : ℕ) (s s' : State) : Prop where
  inode : s'.inode = s.inode
  pos : i ≠ 0
  lt : i < sb.ninodes
  free : ((sb.abs s.disk).din i).type = 0
  abs : sb.abs s'.disk = (sb.abs s.disk).setDin i { Dinode.zero with type := type }

theorem iallocLoop_spec (hE : Tolerant E) (hv : sb.Valid) (type : UInt16) (n i : ℕ) (hi : i ≠ 0)
    (hn : i + n ≤ sb.ninodes) : wp (iallocLoop sb type n i) E s fun r s' =>
      (r = none ∧ s' = s) ∨ ∃ k j s1, r = some k ∧ Marked sb type j s s1 ∧ Got j s1 k s' := by
  induction n generalizing i with
  | zero =>
    rw [iallocLoop, wp_pure]
    exact .inl ⟨rfl, rfl⟩
  | succ n ih =>
    have hlt : i < sb.ninodes := by omega
    have hdin : (s.disk (sb.iblock i)).getDinode (i % IPB) = (sb.abs s.disk).din i :=
      (if_pos hlt).symm
    simp only [iallocLoop, bread, logWrite, wp_bind, wp_get, wp_pure, hdin, assign_eq_update]
    rw [wp_ite]
    refine ⟨fun h0 => ?_, fun _ => ih (i + 1) (by omega) (by omega)⟩
    simp only [wp_bind, wp_modify, wp_pure]
    apply (iget_spec hE i).mono
    intro k s' hgot
    refine .inr ⟨k, i, _, rfl, ?_, hgot⟩
    exact ⟨rfl, hi, hlt, h0, hv.abs_putDinode _ hlt _⟩

theorem ialloc_spec (hE : Tolerant E) (hv : sb.Valid) (type : UInt16) :
    wp (ialloc sb type) E s fun r s' =>
      (r = none ∧ s' = s) ∨ ∃ k j s1, r = some k ∧ Marked sb type j s s1 ∧ Got j s1 k s' :=
  iallocLoop_spec hE hv type _ 1 (by decide) (by have := hv.root; omega)

namespace Marked

variable {type : UInt16} {i : ℕ}

theorem table (h : Marked sb type i s s') (ht : Table sb s) : Table sb s' := by
  refine ⟨?_, ?_, fun j hj hvalid => ?_, ?_⟩
  · rw [h.inode]
    exact ht.inj
  · rw [h.inode]
    exact ht.inum_lt
  · rw [h.inode] at hj hvalid ⊢
    rw [h.abs, Store.setDin_din_ne, ht.sync j hj hvalid]
    rintro rfl
    exact ht.type j hj hvalid (by rw [ht.sync j hj hvalid]; exact h.free)
  · rw [h.inode]
    exact ht.type

theorem own (h : Marked sb type i s s') (hown : Own sb (sb.abs s.disk)) : Own sb (sb.abs s'.disk) := by
  rw [h.abs]
  exact hown.setDin_empty (fun _ => rfl) (Store.val_of_free h.free)

end Marked

end Xv6.Fs
