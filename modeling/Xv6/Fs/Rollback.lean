import Xv6.Fs.Parent

/-!
# Creations and links that fail

If `create` or `sys_link` fails, what it did must be taken back. On the way both put inodes, and `iput`
frees an inode without links whose last reference it drops; so the calls leave the file system as it was if
every allocated inode without links is in use (`rolls_back`). Of the blocks that were allocated, one may
stay: a block of the parent directory behind its end, the indirect block.
-/

namespace Xv6.Fs

open Lib Multiset Store

variable {sb : Superblock} {st st' st'' : Store} {b s s' : State} {x : Multiset Slot} {k : Slot}

/-! ## Changes beside the files -/

/-- Only inode `i` changed, and directory `d` may have got blocks. -/
structure Beside (st st' : Store) (i d : ℕ) : Prop where
  fields : ∀ j ≠ i, (st'.din j).type = (st.din j).type ∧ (st'.din j).nlink = (st.din j).nlink ∧
    (st'.din j).size = (st.din j).size
  val : ∀ j ≠ i, ∀ p, st.val (j, p) ≠ 0 → st'.val (j, p) = st.val (j, p)
  val_ne : ∀ j ≠ i, j ≠ d → ∀ p, st'.val (j, p) = st.val (j, p)
  content : ∀ j ≠ i, ∀ o < MAXFILE * BSIZE, st'.content j o = st.content j o

namespace Beside

variable {i d : ℕ}

theorem trans (h : Beside st st' i d) (h' : Beside st' st'' i d) : Beside st st'' i d where
  fields j hj := by
    obtain ⟨h₁, h2, h3⟩ := h.fields j hj
    obtain ⟨h1', h2', h3'⟩ := h'.fields j hj
    exact ⟨h1'.trans h₁, h2'.trans h2, h3'.trans h3⟩
  val j hj p hp := by rw [h'.val j hj p (by rwa [h.val j hj p hp]), h.val j hj p hp]
  val_ne j hj hd p := by rw [h'.val_ne j hj hd, h.val_ne j hj hd]
  content j hj o ho := by rw [h'.content j hj o ho, h.content j hj o ho]

theorem of_eq (hdin : ∀ j ≠ i, st'.din j = st.din j) (hval : ∀ j ≠ i, ∀ p, st'.val (j, p) = st.val (j, p))
    (hcontent : ∀ j ≠ i, ∀ o, st'.content j o = st.content j o) : Beside st st' i d where
  fields j hj := by rw [hdin j hj]; exact ⟨rfl, rfl, rfl⟩
  val j hj p _ := hval j hj p
  val_ne j hj _ p := hval j hj p
  content j hj o _ := hcontent j hj o

theorem marked {type : UInt16} (h : Marked sb type i s s') :
    Beside (sb.abs s.disk) (sb.abs s'.disk) i d := by
  have hval := val_setDin_empty (d := { Dinode.zero with type := type }) (fun _ => rfl)
    (val_of_free h.free)
  rw [h.abs]
  refine of_eq (fun j hj => Store.setDin_din_ne hj _) (fun j _ p => by rw [hval]) fun j _ o => ?_
  simp only [Store.content, hval]
  rfl

variable {e : Dinode}

theorem setDin (htype : e.type = (st.din i).type) (haddrs : e.addrs = (st.din i).addrs) :
    Beside st (st.setDin i e) i d := by
  refine of_eq (fun j hj => Store.setDin_din_ne hj _) (fun j _ p => ?_) fun j _ o => ?_
  · rw [Store.val_setDin htype haddrs]
  · rw [Store.content_setDin htype haddrs]

theorem updated (h : Updated sb k e s s') (hk : Held sb s k) (htype : e.type = (s.inode k).din.type)
    (haddrs : e.addrs = (s.inode k).din.addrs) :
    Beside (sb.abs s.disk) (sb.abs s'.disk) (s.inode k).inum d := by
  rw [hk.sync] at htype haddrs
  rw [h.abs]
  exact setDin htype haddrs

theorem wrote {off tot : ℕ} (h : Wrote sb k s s' off tot) (hk : Held sb s k) :
    Beside (sb.abs s.disk) (sb.abs s'.disk) (s.inode k).inum d := by
  refine of_eq h.frame.din (fun j hj p => ?_) fun j hj o => ?_
  · rw [h.val_ne j hj, hk.view]
  · rw [h.content_ne j hj, hk.view]

theorem freed (h : Freed sb k s s') : Beside (sb.abs s.disk) (sb.abs s'.disk) (s.inode k).inum d :=
  of_eq h.din_ne (fun _ hj p => h.val_ne hj p) fun _ hj o => h.content_ne hj o

theorem kept (h : EntryKeep sb k s s') (hk : Held sb s k) :
    Beside (sb.abs s.disk) (sb.abs s'.disk) i (s.inode k).inum := by
  obtain ⟨off, tot, -, -, hw⟩ := h.wrote
  have hval := hw.val
  have hne := hw.val_ne
  have hcontent := hw.content_ne
  rw [hk.view] at hval hne hcontent
  refine ⟨fun j _ => ?_, fun j _ p => hval (j, p), fun j _ hj p => hne j hj p, fun j _ o ho => ?_⟩
  · by_cases hj : j = (s.inode k).inum
    · obtain ⟨a, z, hdin⟩ := hw.din
      have hsync := hw.sync
      rw [hdin, hk.sync] at hsync
      refine ⟨?_, ?_, by rw [hj]; exact h.size⟩
      · rw [hj, hsync]
      · rw [hj, hsync]
    · rw [hw.frame.din j hj]
      exact ⟨rfl, rfl, rfl⟩
  · by_cases hj : j = (s.inode k).inum
    · rw [hj]
      exact h.content o ho
    · exact hcontent j hj o

theorem linked (h : Beside st st' i d) (hl : Linked st b)
    (hi : (st'.din i).type ≠ 0 → (st'.din i).nlink = 0 → ∃ k, 0 < (b.inode k).ref ∧ (b.inode k).inum = i) :
    Linked st' b := by
  intro j ht hn
  by_cases hj : j = i
  · rw [hj] at ht hn ⊢
    exact hi ht hn
  · obtain ⟨h₁, h2, -⟩ := h.fields j hj
    exact hl j (by rwa [← h₁]) (by rwa [← h2])

end Beside

/-! ## What is left of a call that failed -/

/-- Every inode that was allocated is as it was, no other is allocated, and each block that was allocated
is in a directory that satisfies `P`, behind its end. -/
structure RolledBack (sb : Superblock) (st st' : Store) (P : ℕ → Prop) : Prop where
  kept : ∀ j, (st.din j).type ≠ 0 → (st'.din j).type = (st.din j).type ∧
    (st'.din j).nlink = (st.din j).nlink ∧ (st'.din j).size = (st.din j).size ∧
    st'.contents j = st.contents j
  free : ∀ j, (st.din j).type = 0 → (st'.din j).type = 0
  blocks : ∀ c, sb.IsData c → st.used c = false → st'.used c = true →
    ∃ d p, P d ∧ (st.din d).type = T_DIR ∧ st'.val (d, p) = c ∧ ¬ Below (st'.din d).size.toNat p

/-- Inode `i` is free, before and after, or nothing of it changed. -/
def Restored (st st' : Store) (i : ℕ) : Prop :=
  ((st.din i).type = 0 ∧ (st'.din i).type = 0) ∨ (st'.din i = st.din i ∧
    (∀ p, st'.val (i, p) = st.val (i, p)) ∧ ∀ o, st'.content i o = st.content i o)

theorem Store.contents_congr {i : ℕ} (hsize : (st'.din i).size = (st.din i).size)
    (hcontent : ∀ o < (st.din i).size.toNat, st'.content i o = st.content i o) :
    st'.contents i = st.contents i := by
  rw [Store.contents, Store.contents, hsize]
  refine bytes_congr fun j hj => ?_
  rw [Nat.zero_add]
  exact hcontent j hj

theorem Beside.rolledBack {i d : ℕ} {P : ℕ → Prop} (h : Beside st st' i d) (hi : Restored st st' i)
    (hown : Own sb st) (hown' : Own sb st') (hole : st.Whole)
    (hdir : (st.din d).type = T_DIR) (hd : P d) : RolledBack sb st st' P := by
  refine ⟨fun j hj => ?_, fun j hj => ?_, fun c hc hfree hused => ?_⟩
  · by_cases hji : j = i
    · rw [hji] at hj ⊢
      rcases hi with ⟨h0, -⟩ | ⟨hdin, -, hcontent⟩
      · exact absurd h0 hj
      · rw [hdin]
        exact ⟨rfl, rfl, rfl, contents_congr (by rw [hdin]) fun o _ => hcontent o⟩
    · obtain ⟨h₁, h2, h3⟩ := h.fields j hji
      have hsize := (hole j hj).size_le
      exact ⟨h₁, h2, h3, contents_congr h3 fun o ho => h.content j hji o (by omega)⟩
  · by_cases hji : j = i
    · rw [hji] at hj ⊢
      rcases hi with ⟨-, h0⟩ | ⟨hdin, -⟩
      · exact h0
      · rwa [hdin]
    · rwa [(h.fields j hji).1]
  · have hpos := hown.owns.pos c hc
    obtain ⟨⟨j, p⟩, hval⟩ := hown'.owns.cover c hc hused
    have hnew : st'.val (j, p) ≠ st.val (j, p) := fun heq =>
      hown.owns.val_ne hc hfree (j, p) (heq.symm.trans hval)
    have hji : j ≠ i := by
      rintro rfl
      rcases hi with ⟨-, h0⟩ | ⟨-, heq, -⟩
      · rw [val_of_free h0] at hval
        exact hpos hval.symm
      · exact hnew (heq p)
    obtain rfl : j = d := by
      by_contra hjd
      exact hnew (h.val_ne j hji hjd p)
    refine ⟨j, p, hd, hdir, hval, fun hbelow => ?_⟩
    rw [(h.fields j hji).2.2] at hbelow
    have hj : (st.din j).type ≠ 0 := by
      rw [hdir]
      decide
    exact hnew (h.val j hji p (filled (hole j hj) hbelow))

theorem RolledBack.refl (P : ℕ → Prop) : RolledBack sb st st P := by
  refine ⟨fun _ _ => ⟨rfl, rfl, rfl, rfl⟩, fun _ h => h, fun c _ hfree hused => ?_⟩
  rw [hfree] at hused
  cases hused

theorem Same.rolledBack {x : Multiset Slot} {P : ℕ → Prop} (h : Same sb st s x s') :
    RolledBack sb st (sb.abs s'.disk) P := by
  rw [h.abs]
  exact .refl P

/-! ## Entries -/

/-- Directory `d` has the new entry `n`, and nothing else has changed in directories and disk inodes. -/
structure Entered (st st' : Store) (d n : ℕ) (de : Dirent) : Prop where
  dir : (st.din d).type = T_DIR
  le : n ≤ st.nents d
  free : n < st.nents d → (st.dirent d n).inum = 0
  nents : st'.nents d = max (st.nents d) (n + 1)
  self : st'.dirent d n = de
  ne : ∀ m < st.nents d, m ≠ n → st'.dirent d m = st.dirent d m
  nents_ne : ∀ j ≠ d, st'.nents j = st.nents j
  dirent_ne : ∀ j ≠ d, ∀ m, st'.dirent j m = st.dirent j m
  fields : ∀ j, (st'.din j).type = (st.din j).type ∧ (st'.din j).nlink = (st.din j).nlink

theorem Entered.of_write {n : ℕ} {de : Dirent} (hheld : Held sb s k)
    (ht : (s.inode k).din.type = T_DIR) (hn : n ≤ (sb.abs s.disk).nents (s.inode k).inum)
    (hfree : n < (sb.abs s.disk).nents (s.inode k).inum →
      ((sb.abs s.disk).dirent (s.inode k).inum n).inum = 0) (h : EntryWrite sb k n de s s') :
    Entered (sb.abs s.disk) (sb.abs s'.disk) (s.inode k).inum n de := by
  obtain ⟨off, tot, -, -, hw⟩ := h.wrote
  have hdin := hw.frame.din
  refine ⟨by rwa [← hheld.sync], hn, hfree, h.nents, h.self, h.ne, fun j hj => ?_, fun j hj m => ?_,
    fun j => ?_⟩
  · rw [Store.nents, Store.nents, hdin j hj]
  · refine dirent_congr fun o _ => ?_
    rw [hw.content_ne j hj, hheld.view]
  · by_cases hj : j = (s.inode k).inum
    · obtain ⟨a, z, hd⟩ := hw.din
      rw [hj, hw.sync, hd, ← hheld.sync]
      exact ⟨rfl, rfl⟩
    · rw [hdin j hj]
      exact ⟨rfl, rfl⟩

theorem Same.dirlink (hv : sb.Valid) (hl : Linked st b) (h : Same sb st b x s) (hk : k ∈ x)
    (hvalid : (s.inode k).valid = true) (ht : (s.inode k).din.type = T_DIR) (nm : List UInt8) {inum : ℕ}
    (hi : inum < sb.ninodes) : wp (dirlink sb k nm inum) (fun _ => True) s fun r s' => Inv sb s' ∧
      ((r < 0 ∧ Same sb st b x s' ∧ Persist x s s') ∨
      (∃ off tot, Wrote sb k s s' off tot ∧ (r < 0 → EntryKeep sb k s s') ∧
        (¬ r < 0 → ∃ n, Entered (sb.abs s.disk) (sb.abs s'.disk) (s.inode k).inum n
          ⟨inum % 65536, strncpy DIRSIZ nm⟩))) := by
  have hJ := Same.closed hv hl
  have hE := tolerant_true
  have hr := hJ.pos h hk
  have hheld := hJ.held h hk hvalid
  simp only [Fs.dirlink, wp_bind]
  refine (hJ.dirlookup hE hv h hk hvalid ht nm).mono ?_
  rintro r s1 (⟨rfl, rfl, -, hsize⟩ | ⟨ip, m, rfl, -, hgot, h₁, hp1⟩)
  · refine (dirlinkTail_spec hv h.inv.own hheld (h.inv.noHole hheld ht) hE hsize nm inum).mono ?_
    rintro r s' (⟨rfl, n, hn, hfree, hw⟩ | ⟨rfl, hw⟩)
    · obtain ⟨off, tot, -, -, hwrote⟩ := hw.wrote
      exact ⟨h.inv.entryWrite hr hheld ht hw hn (by change inum % 65536 < _; omega),
        .inr ⟨off, tot, hwrote, fun hlt => absurd hlt (by decide),
          fun _ => ⟨n, .of_write hheld ht hn hfree hw⟩⟩⟩
    · obtain ⟨off, tot, -, -, hwrote⟩ := hw.wrote
      exact ⟨h.inv.entryKeep hr hheld ht hw,
        .inr ⟨off, tot, hwrote, fun _ => hw, fun hge => absurd (by decide) hge⟩⟩
  · simp only [wp_bind]
    refine (hJ.iput hE hv h₁).mono ?_
    rintro _ s' ⟨h', hp'⟩
    rw [wp_pure]
    exact ⟨h'.inv, .inl ⟨by decide, h', hp1.trans hp'⟩⟩

/-! ## New inodes -/

/-- `create` has a new inode `i` of a type, in entry `ip`, and the parent `d`, in entry `dp`. -/
structure Making (sb : Superblock) (st : Store) (b : State) (type : UInt16) (i d : ℕ) (dp ip : Slot)
    (s : State) : Prop where
  same : Same sb (sb.abs s.disk) b (ip ::ₘ dp ::ₘ 0) s
  beside : Beside st (sb.abs s.disk) i d
  type : ((sb.abs s.disk).din i).type = type
  nlink : ((sb.abs s.disk).din i).nlink = 1
  new : (s.inode ip).inum = i
  parent : (s.inode dp).inum = d
  newValid : (s.inode ip).valid = true
  parentValid : (s.inode dp).valid = true
  parentDir : (s.inode dp).din.type = T_DIR

/-- How `create` of a new inode ends: without a result everything is taken back. -/
def Ends (sb : Superblock) (st : Store) (b : State) (i d : ℕ) (r : Option Slot) (s : State) : Prop :=
  r = none → ∃ st', Same sb st' b 0 s ∧ Beside st st' i d ∧ (st'.din i).type = 0

section

variable {i d : ℕ} {dp ip : Slot} {type : UInt16} (hv : sb.Valid) (hl : Linked st b)
  (hfresh : (b.inode ip).ref = 0) (hne : ip ≠ dp)

namespace Making

theorem mem_parent : dp ∈ ip ::ₘ dp ::ₘ (0 : Multiset Slot) :=
  mem_cons_of_mem (mem_cons_self _ _)

variable (h : Making sb st b type i d dp ip s)

include h

theorem linked_now (hl : Linked st b) : Linked (sb.abs s.disk) b :=
  h.beside.linked hl fun _ h0 => by
    rw [h.nlink] at h0
    cases h0

theorem pos_new : 0 < (s.inode ip).ref := by
  rw [h.same.ref, count_cons_self]
  omega

theorem pos_parent : 0 < (s.inode dp).ref := by
  rw [h.same.ref, count_cons, count_cons_self]
  omega

theorem held_new : Held sb s ip := h.same.inv.held h.pos_new h.newValid

theorem held_parent : Held sb s dp := h.same.inv.held h.pos_parent h.parentValid

theorem persist (hsame : Same sb (sb.abs s.disk) b (ip ::ₘ dp ::ₘ 0) s')
    (hp : Persist (ip ::ₘ dp ::ₘ 0) s s') : Making sb st b type i d dp ip s' := by
  obtain ⟨hv1, hi1, -⟩ := hp ip (mem_cons_self _ _) h.newValid
  obtain ⟨hv2, hi2, ht2⟩ := hp dp mem_parent h.parentValid
  refine ⟨?_, ?_, ?_, ?_, hi1.trans h.new, hi2.trans h.parent, hv1, hv2, ht2.trans h.parentDir⟩
  · rwa [hsame.abs]
  · rw [hsame.abs]
    exact h.beside
  · rw [hsame.abs]
    exact h.type
  · rw [hsame.abs]
    exact h.nlink

theorem step {k : Slot} (hframe : Frame sb k s s') (hinv : Inv sb s')
    (hbeside : Beside (sb.abs s.disk) (sb.abs s'.disk) i d)
    (hnew : ((sb.abs s'.disk).din i).type = type ∧ ((sb.abs s'.disk).din i).nlink = 1)
    (htype : (s'.inode dp).din.type = (s.inode dp).din.type) : Making sb st b type i d dp ip s' := by
  have hinum : ∀ j, (s'.inode j).inum = (s.inode j).inum := fun j => by
    by_cases hj : j = k
    · rw [hj, hframe.inum]
    · rw [hframe.ne j hj]
  exact ⟨h.same.step hframe hinv, h.beside.trans hbeside, hnew.1, hnew.2, (hinum ip).trans h.new,
    (hinum dp).trans h.parent, by rw [hframe.valid]; exact h.newValid,
    by rw [hframe.valid]; exact h.parentValid, htype.trans h.parentDir⟩

variable {off tot : ℕ}

theorem new_wrote {k : Slot} (hw : Wrote sb k s s' off tot) (hk : Held sb s k) :
    ((sb.abs s'.disk).din i).type = type ∧ ((sb.abs s'.disk).din i).nlink = 1 := by
  by_cases hi : i = (s.inode k).inum
  · obtain ⟨a, z, hdin⟩ := hw.din
    rw [hi, hw.sync, hdin]
    change (s.inode k).din.type = type ∧ (s.inode k).din.nlink = 1
    rw [hk.sync, ← hi]
    exact ⟨h.type, h.nlink⟩
  · rw [hw.frame.din i hi]
    exact ⟨h.type, h.nlink⟩

include hv hl hne

variable {inum : ℕ}

theorem dirlink_new (ht : (s.inode ip).din.type = T_DIR) (nm : List UInt8) (hi : inum < sb.ninodes) :
    wp (dirlink sb ip nm inum) (fun _ => True) s fun _ s' => Making sb st b type i d dp ip s' ∧
      (s'.inode ip).din.type = T_DIR := by
  refine (h.same.dirlink hv (h.linked_now hl) (mem_cons_self _ _) h.newValid ht nm hi).mono ?_
  rintro r s' ⟨hinv, ⟨-, hsame, hp⟩ | ⟨off, tot, hw, -, -⟩⟩
  · exact ⟨h.persist hsame hp, (hp ip (mem_cons_self _ _) h.newValid).2.2.trans ht⟩
  · have hbeside := Beside.wrote (d := d) hw h.held_new
    rw [h.new] at hbeside
    exact ⟨h.step hw.frame hinv hbeside (h.new_wrote hw h.held_new) (by rw [hw.frame.ne dp hne.symm]),
      hw.type.trans ht⟩

omit hne in
theorem dirlink_parent (nm : List UInt8) (hi : inum < sb.ninodes) :
    wp (dirlink sb dp nm inum) (fun _ => True) s fun r s' => r < 0 → Making sb st b type i d dp ip s' := by
  refine (h.same.dirlink hv (h.linked_now hl) mem_parent h.parentValid h.parentDir nm hi).mono ?_
  rintro r s' ⟨hinv, ⟨-, hsame, hp⟩ | ⟨off, tot, hw, hkeep, -⟩⟩
  · exact fun _ => h.persist hsame hp
  · intro hr
    have hbeside := Beside.kept (i := i) (hkeep hr) h.held_parent
    rw [h.parent] at hbeside
    exact h.step hw.frame hinv hbeside (h.new_wrote hw h.held_parent) hw.type

include hfresh

theorem createFail : wp (createFail sb dp ip) (fun _ => True) s fun r s' => r = none ∧ ∃ st',
    Same sb st' b 0 s' ∧ Beside st st' i d ∧ (st'.din i).type = 0 := by
  simp only [Fs.createFail, wp_bind, wp_setDin]
  refine (iupdate_setDinode hv h.same.inv.table h.pos_new _).mono fun _ s1 hu => ?_
  have hinv1 := h.same.inv.updated h.pos_new h.held_new hu rfl rfl rfl
  have h₁ := h.same.step hu.frame hinv1
  have hbeside := Beside.updated (d := d) hu h.held_new rfl rfl
  rw [h.new] at hbeside
  have hself : s1.inode ip = { s.inode ip with din := { (s.inode ip).din with nlink := 0 } } := hu.self
  have hpos₁ : 0 < (s1.inode ip).ref := by
    rw [hself]
    exact h.pos_new
  simp only [iunlockput, wp_bind]
  refine (iunlock_spec tolerant_true).mono ?_
  rintro _ _ ⟨-, rfl⟩
  have h2 := h₁.unlock hpos₁
  refine (iput_spec tolerant_true hv h2.inv.table h2.inv.own (by rw [withInode_self]; exact hpos₁)).mono ?_
  have hinum1 : (s1.inode ip).inum = i := by
    rw [hself]
    exact h.new
  rintro _ s3 (⟨hkeep, -⟩ | ⟨-, hfreed⟩)
  · -- the entry has one reference, and the inode no link
    refine absurd ⟨?_, ?_, ?_⟩ hkeep
    · rw [withInode_self]
      change (s1.inode ip).ref = 1
      rw [hself]
      change (s.inode ip).ref = 1
      rw [h.same.ref, hfresh, count_cons_self, count_cons_of_ne hne, count_zero]
    · rw [withInode_self]
      change (s1.inode ip).valid = true
      rw [hself]
      exact h.newValid
    · rw [withInode_self, withInode_disk]
      change ((sb.abs s1.disk).din (s1.inode ip).inum).nlink = 0
      rw [hinum1, ← h.new, hu.abs, Store.setDin_din_self]
  · have hinum2 : ((s1.withInode ip { s1.inode ip with locked := false }).inode ip).inum = i := by
      rw [withInode_self]
      exact hinum1
    have htype := hfreed.type
    have hbeside3 := Beside.freed (d := d) hfreed
    rw [hinum2] at htype hbeside3
    have hall := (h.beside.trans hbeside).trans hbeside3
    have h3 : Same sb (sb.abs s3.disk) b (dp ::ₘ 0) s3 := by
      refine ⟨hfreed.inv h2.inv (by rw [withInode_self]; exact hpos₁), rfl, fun j => ?_, fun j hj => ?_⟩
      · by_cases hj : j = ip
        · rw [hj, hfreed.ref, hfresh, count_cons_of_ne hne, count_zero]
        · rw [hfreed.ne j hj, h2.ref, count_cons_of_ne hj]
      · have hjp : j ≠ ip := by
          rintro rfl
          omega
        rw [hfreed.ne j hjp, h2.inum j hj]
    have hl3 : Linked (sb.abs s3.disk) b := hall.linked hl fun h0 => absurd htype h0
    have hput := h3.iunlockput_inum hv hl3
    simp only [iunlockput, wp_bind] at hput
    refine hput.mono fun _ s4 h4 => h4.mono fun _ s' hs' => ?_
    rw [wp_pure]
    exact ⟨rfl, _, hs'.1, hall, htype⟩

theorem createLink (nm : List UInt8) :
    wp (createLink sb dp ip nm type) (fun _ => True) s (Ends sb st b i d) := by
  have hlt : (s.inode ip).inum < sb.ninodes := h.held_new.inum_lt
  simp only [Fs.createLink, wp_bind, wp_get]
  refine (h.dirlink_parent hv hl nm hlt).mono fun r s1 h₁ => ?_
  rw [wp_ite]
  refine ⟨fun hr => ?_, fun _ => ?_⟩
  · exact ((h₁ hr).createFail hv hl hfresh hne).mono fun _ _ hs _ => hs.2
  · rw [wp_ite]
    simp only [wp_bind, wp_pure]
    refine ⟨fun _ => ?_, fun _ => ?_⟩
    · exact wp_of_forall (fun _ => trivial) fun _ _ => wp_of_forall (fun _ => trivial)
        fun _ _ => wp_of_forall (fun _ => trivial) fun _ _ => by simp [Ends]
    · exact wp_of_forall (fun _ => trivial) fun _ _ => by simp [Ends]

theorem createRest (htype : type = T_DIR → (s.inode ip).din.type = T_DIR) (nm : List UInt8) :
    wp (if type = T_DIR then do
          let r ← createDots sb dp ip
          if r < 0 then Fs.createFail sb dp ip else Fs.createLink sb dp ip nm type
        else Fs.createLink sb dp ip nm type) (fun _ => True) s (Ends sb st b i d) := by
  have hfail : ∀ {t : State}, Making sb st b type i d dp ip t →
      wp (Fs.createFail sb dp ip) (fun _ => True) t (Ends sb st b i d) :=
    fun ht => (ht.createFail hv hl hfresh hne).mono fun _ _ hs _ => hs.2
  rw [wp_ite]
  refine ⟨fun hdir => ?_, fun _ => h.createLink hv hl hfresh hne nm⟩
  simp only [createDots, wp_bind, wp_get]
  refine (h.dirlink_new hv hl hne (htype hdir) _ h.held_new.inum_lt).mono ?_
  rintro r s1 ⟨h₁, ht1⟩
  rw [wp_ite]
  refine ⟨fun hr => ?_, fun _ => ?_⟩
  · rw [wp_pure, if_pos hr]
    exact hfail h₁
  simp only [wp_bind, wp_get]
  refine (h₁.dirlink_new hv hl hne ht1 _ h₁.held_parent.inum_lt).mono ?_
  rintro r s₂ ⟨h2, _⟩
  rw [wp_ite]
  exact ⟨fun _ => hfail h2, fun _ => h2.createLink hv hl hfresh hne nm⟩

end Making

include hv hl hfresh hne in
theorem Same.createNew (h : Same sb (sb.abs s.disk) b (ip ::ₘ dp ::ₘ 0) s)
    (hbeside : Beside st (sb.abs s.disk) i d) (hnew : (s.inode ip).inum = i)
    (hdin : (sb.abs s.disk).din i = { Dinode.zero with type := type })
    (hparent : (s.inode dp).inum = d) (hvalid : (s.inode dp).valid = true)
    (hdir : (s.inode dp).din.type = T_DIR) (nm : List UInt8) (major minor : UInt16) :
    wp (createNew sb dp ip nm type major minor) (fun _ => True) s (Ends sb st b i d) := by
  simp only [Fs.createNew, wp_bind, wp_setDin]
  refine (ilock_spec tolerant_true h.inv.table fun _ _ => trivial).mono ?_
  rintro _ _ ⟨hpos, ht, rfl⟩
  have h₁ := h.lock hpos ht
  have hheld := Held.locked h.inv hpos ht
  have hpos₁ : 0 < ((s.withInode ip (lockedInode sb s ip)).inode ip).ref := by
    rw [withInode_self]
    exact hpos
  refine (iupdate_setDinode hv h₁.inv.table hpos₁ _).mono fun _ s₂ hu => ?_
  have hinv₂ := h₁.inv.updated hpos₁ hheld hu rfl rfl rfl
  have hb₂ := Beside.updated (d := d) hu hheld rfl rfl
  have hi : ((s.withInode ip (lockedInode sb s ip)).inode ip).inum = i := by
    rw [withInode_self]
    exact hnew
  rw [hi] at hb₂
  have hdp : s₂.inode dp = s.inode dp := by rw [hu.frame.ne dp hne.symm, withInode_ne hne.symm]
  have hmaking : Making sb st b type i d dp ip s₂ := by
    refine ⟨h₁.step hu.frame hinv₂, hbeside.trans hb₂, ?_, ?_, hu.frame.inum.trans hi, ?_, ?_, ?_, ?_⟩
    · rw [← hi, hu.abs, Store.setDin_din_self, withInode_self]
      change ((sb.abs s.disk).din (s.inode ip).inum).type = type
      rw [hnew, hdin]
    · rw [← hi, hu.abs, Store.setDin_din_self]
    · rw [hdp]
      exact hparent
    · rw [hu.frame.valid, withInode_self]
      rfl
    · rw [hdp]
      exact hvalid
    · rw [hdp]
      exact hdir
  refine hmaking.createRest hv hl hfresh hne (fun hT => ?_) nm
  rw [hu.self, withInode_self]
  change ((sb.abs s.disk).din (s.inode ip).inum).type = T_DIR
  rw [hnew, hdin]
  exact hT

end

/-! ## The calls -/

/-- A file system between two calls: its invariant holds, no file has a hole, and the entries of the inode
table in use are for allocated inodes. -/
structure Settled (sb : Superblock) (s : State) : Prop where
  inv : Inv sb s
  hole : (sb.abs s.disk).Whole
  alive : ∀ k, 0 < (s.inode k).ref → ((sb.abs s.disk).din (s.inode k).inum).type ≠ 0

section

variable {cwd : Slot} (hv : sb.Valid) (h : Settled sb s) (hl : Linked (sb.abs s.disk) s)
  (hcwd : 0 < (s.inode cwd).ref)

include hv h hl hcwd

theorem create_rolls_back (path : List UInt8) (type major minor : UInt16) :
    wp (create sb cwd path type major minor) (fun _ => True) s fun r s' => r = none →
      RolledBack sb (sb.abs s.disk) (sb.abs s'.disk)
        ((sb.abs s.disk).Parent (s.inode cwd).inum path) := by
  have hJ := Same.closed hv hl
  have hE := tolerant_true
  simp only [create, wp_bind]
  refine ((Same.refl h.inv).nameiparent hv hl hcwd path).mono ?_
  rintro r s1 ⟨hnone, hsome⟩
  rcases r with _ | ⟨dp, nm⟩
  · exact fun _ => (hnone rfl).rolledBack
  obtain ⟨h₁, hdir, hparent⟩ := hsome dp nm rfl
  simp only [wp_bind]
  refine (hJ.ilock hE h₁).mono ?_
  rintro _ s₂ ⟨h2, hheld, hvalid, -, hs2⟩
  have hinum2 : (s₂.inode dp).inum = (s1.inode dp).inum := by
    rw [hs2, withInode_self]
    rfl
  have ht : (s₂.inode dp).din.type = T_DIR := by
    rw [hheld.sync, h2.abs, hinum2]
    exact hdir
  have hpos := hJ.pos h2 (mem_cons_self dp 0)
  refine (hJ.dirlookup hE hv h2 (mem_cons_self _ _) hvalid ht nm).mono ?_
  rintro r s3 (⟨rfl, rfl, -, -⟩ | ⟨ip, m, rfl, -, -, h3, -⟩)
  · simp only [wp_bind]
    refine (ialloc_spec hE hv type).mono ?_
    rintro r s4 (⟨rfl, rfl⟩ | ⟨ip, i, s4', rfl, hmark, hgot⟩)
    · simp only [wp_bind, wp_pure]
      exact (hJ.iunlockput hE hv h2).mono fun _ _ hs _ => hs.1.rolledBack
    -- the new inode was free, so no entry was for it
    have hfree := hmark.free
    rw [h2.abs] at hfree
    have hold : 0 < (s3.inode ip).ref → (s3.inode ip).inum = i := fun hr => by
      have := (hgot.old (by rwa [hmark.inode])).2
      rwa [hmark.inode] at this
    have hfresh : (s.inode ip).ref = 0 := by
      by_contra hr
      refine h.alive ip (by omega) ?_
      rw [← h2.inum ip (by omega), hold (by rw [h2.ref]; omega)]
      exact hfree
    have hne : ip ≠ dp := by
      rintro rfl
      rw [← hinum2, hold hpos, hfree] at hdir
      cases hdir
    have hm : Same sb (sb.abs s4'.disk) s (dp ::ₘ 0) s4' :=
      ⟨hmark.inv h2.inv, rfl, fun k => by rw [hmark.inode, h2.ref],
        fun k hk => by rw [hmark.inode, h2.inum k hk]⟩
    have h4 := hm.got hmark.lt hgot
    have hdp : s4.inode dp = s3.inode dp := by rw [hgot.ne hne.symm, hmark.inode]
    have hbeside : Beside (sb.abs s.disk) (sb.abs s4.disk) i (s1.inode dp).inum := by
      have := Beside.marked (d := (s1.inode dp).inum) hmark
      rwa [h2.abs, ← hgot.disk] at this
    rw [← hgot.disk] at h4
    have hdin : (sb.abs s4.disk).din i = { Dinode.zero with type := type } := by
      rw [hgot.disk, hmark.abs, Store.setDin_din_self]
    refine (h4.createNew hv hl hfresh hne hbeside hgot.inum hdin ?_ ?_ ?_ nm major minor).mono ?_
    · rw [hdp, hinum2]
    · rw [hdp]
      exact hvalid
    · rw [hdp]
      exact ht
    · intro r s' hr hnone
      obtain ⟨st', hs', hb, hzero⟩ := hr hnone
      rw [hs'.abs]
      exact hb.rolledBack (.inl ⟨hfree, hzero⟩) h.inv.own (by rw [← hs'.abs]; exact hs'.inv.own) h.hole
        hdir hparent
  · -- the name exists
    simp only [wp_bind]
    rw [cons_swap] at h3
    refine (hJ.iunlockput hE hv h3).mono ?_
    rintro _ s4 ⟨h4, -⟩
    refine (hJ.ilock hE h4).mono ?_
    rintro _ s5 ⟨h5, -, -, -, -⟩
    simp only [wp_get]
    rw [wp_ite]
    refine ⟨fun _ => by simp, fun _ => ?_⟩
    simp only [wp_bind, wp_pure]
    exact (hJ.iunlockput hE hv h5).mono fun _ _ hs _ => hs.1.rolledBack

end

theorem Same.linkBad {ip : Slot} {i : ℕ} {e : Dinode} (hv : sb.Valid)
    (h : Same sb st b (ip ::ₘ 0) s) (hi : (s.inode ip).inum = i)
    (hdin : st.din i = { e with nlink := e.nlink + 1 }) (hl : Linked (st.setDin i e) b) :
    wp (linkBad sb ip) (fun _ => True) s fun r s' => r = -1 ∧ Same sb (st.setDin i e) b 0 s' := by
  simp only [Fs.linkBad, wp_bind, wp_setDin]
  refine (ilock_spec tolerant_true h.inv.table fun _ _ => trivial).mono ?_
  rintro _ _ ⟨hpos, ht, rfl⟩
  have h₁ := h.lock hpos ht
  have hheld := Held.locked h.inv hpos ht
  have hpos₁ : 0 < ((s.withInode ip (lockedInode sb s ip)).inode ip).ref := by
    rw [withInode_self]
    exact hpos
  refine (iupdate_setDinode hv h₁.inv.table hpos₁ _).mono fun _ s₂ hu => ?_
  have h2 := h₁.step hu.frame (h₁.inv.updated hpos₁ hheld hu rfl rfl rfl)
  have habs : sb.abs s₂.disk = st.setDin i e := by
    have hlocked : (lockedInode sb s ip).din = { e with nlink := e.nlink + 1 } := by
      change (sb.abs s.disk).din (s.inode ip).inum = _
      rw [h.abs, hi, hdin]
    have hback : e.nlink + 1 - 1 = e.nlink := by
      rw [UInt16.add_sub_cancel]
    rw [hu.abs, withInode_self, hlocked, withInode_disk, h.abs]
    change st.setDin (s.inode ip).inum { e with nlink := e.nlink + 1 - 1 } = _
    rw [hi, hback]
  rw [habs] at h2
  refine (h2.iunlockput_inum hv hl).mono fun _ s' hs' => ?_
  rw [wp_pure]
  exact ⟨rfl, hs'.1⟩

/-- The store while a link is made: one more is counted for inode `i`. -/
def Store.linking (st : Store) (i : ℕ) : Store :=
  st.setDin i { st.din i with nlink := (st.din i).nlink + 1 }

theorem Store.linking_setDin (st : Store) (i : ℕ) : (st.linking i).setDin i (st.din i) = st := by
  rw [linking, setDin, setDin, Function.update_idem, Function.update_eq_self]

section

variable (st : Store) (i j : ℕ)

@[simp] theorem Store.linking_val : (st.linking i).val = st.val :=
  val_setDin (show { st.din i with nlink := (st.din i).nlink + 1 }.type = _ from rfl) rfl

@[simp] theorem Store.linking_content : (st.linking i).content = st.content :=
  content_setDin (show { st.din i with nlink := (st.din i).nlink + 1 }.type = _ from rfl) rfl

@[simp] theorem Store.linking_type : ((st.linking i).din j).type = (st.din j).type := by
  by_cases hj : j = i
  · rw [hj, linking, setDin_din_self]
  · rw [linking, setDin_din_ne hj]

@[simp] theorem Store.linking_size : ((st.linking i).din j).size = (st.din j).size := by
  by_cases hj : j = i
  · rw [hj, linking, setDin_din_self]
  · rw [linking, setDin_din_ne hj]

end

/-- A link to inode `i` has been made: a directory has an entry for it, and it has one link more. -/
def LinkMade (sb : Superblock) (st : Store) (b : State) (i : ℕ) (s' : State) : Prop :=
  ∃ st' d n nm, Entered (st.linking i) st' d n ⟨i % 65536, nm⟩ ∧ (st.din d).type = T_DIR ∧
    Linked st' b ∧ Same sb st' b 0 s'

theorem Same.linkNew {cwd ip : Slot} {i : ℕ} (hv : sb.Valid) (hl : Linked st b)
    (h : Same sb (st.linking i) b (ip ::ₘ 0) s) (hi : (s.inode ip).inum = i)
    (hfile : (st.din i).type ≠ T_DIR) (hown : Own sb st)
    (hole : st.Whole) (hcwd : 0 < (s.inode cwd).ref) (new : List UInt8) :
    wp (linkNew sb cwd ip new) (fun _ => True) s fun r s' =>
      (r = -1 → RolledBack sb st (sb.abs s'.disk) (st.Parent (s.inode cwd).inum new)) ∧
      (r = 0 → (st.din i).nlink + 1 ≠ 0 → LinkMade sb st b i s') := by
  have hpos : 0 < (s.inode ip).ref := by
    rw [h.ref, count_cons_self]
    omega
  have h₀ : Same sb (st.linking i) s 0 s := by
    have := Same.refl h.inv
    rwa [h.abs] at this
  have hcount : Beside st (st.linking i) i i := .setDin rfl rfl
  -- inode `i` is in use, whatever its link count
  have hl0 : Linked (st.linking i) s := by
    refine hcount.linked (fun j ht hn => ?_) fun _ _ => ⟨ip, hpos, hi⟩
    obtain ⟨k, hk, hinum⟩ := hl j ht hn
    exact ⟨k, by rw [h.ref]; omega, (h.inum k hk).trans hinum⟩
  have hJ := Same.closed hv hl0
  have hE := tolerant_true
  -- nothing else was changed
  have hback : ∀ {t : State}, Same sb (st.linking i) s 0 t →
      wp (Fs.linkBad sb ip) (fun _ => True) t fun r s' =>
        (r = -1 → RolledBack sb st (sb.abs s'.disk) (st.Parent (s.inode cwd).inum new)) ∧
        (r = 0 → (st.din i).nlink + 1 ≠ 0 → LinkMade sb st b i s') := by
    intro t ht
    have hl' : Linked ((st.linking i).setDin i (st.din i)) b := by rwa [linking_setDin]
    refine ((h.rebase ht).linkBad hv ((ht.inum ip hpos).trans hi) (Store.setDin_din_self _) hl').mono
      fun _ s' hs' => ⟨fun _ => ?_, fun h0 => absurd (hs'.1.symm.trans h0) (by decide)⟩
    rw [hs'.2.abs, linking_setDin]
    exact .refl _
  simp only [Fs.linkNew, wp_bind]
  refine (h₀.nameiparent hv hl0 hcwd new).mono ?_
  rintro r s1 ⟨hnone, hsome⟩
  rcases r with _ | ⟨dp, nm⟩
  · exact hback (hnone rfl)
  obtain ⟨h₁, hdir, nm', hwalk⟩ := hsome dp nm rfl
  have hdir' : (st.din (s1.inode dp).inum).type = T_DIR := by rwa [linking_type] at hdir
  simp only [wp_bind]
  refine (hJ.ilock hE h₁).mono ?_
  rintro _ s₂ ⟨h2, hheld, hvalid, -, hs2⟩
  have hinum2 : (s₂.inode dp).inum = (s1.inode dp).inum := by
    rw [hs2, withInode_self]
    rfl
  have ht : (s₂.inode dp).din.type = T_DIR := by
    rw [hheld.sync, h2.abs, hinum2]
    exact hdir
  have hlt : (s₂.inode ip).inum < sb.ninodes := h2.inv.table.inum_lt ip (by rw [h2.ref]; omega)
  rw [wp_get]
  refine (h2.dirlink hv hl0 (mem_cons_self dp 0) hvalid ht nm hlt).mono ?_
  rintro r s3 ⟨hinv, hcase⟩
  rw [wp_ite]
  refine ⟨fun hr => ?_, fun hge => ?_⟩
  · rw [wp_bind]
    rcases hcase with ⟨-, h3, -⟩ | ⟨off, tot, hw, hkeep, -⟩
    · exact (h3.iunlockput_inum hv hl0).mono fun _ s4 h4 => hback h4.1
    · -- the parent has no room for the entry
      have hid : i ≠ (s₂.inode dp).inum := by
        intro heq
        rw [heq, hinum2] at hfile
        exact hfile hdir'
      have h3 := h2.step hw.frame hinv
      have hb := Beside.kept (i := i) (hkeep hr) hheld
      rw [h2.abs] at hb
      have hl3 : Linked (sb.abs s3.disk) s := hb.linked hl0 fun _ _ => ⟨ip, hpos, hi⟩
      refine (h3.iunlockput_inum hv hl3).mono fun _ s4 h4 => ?_
      have hdin : (sb.abs s3.disk).din i = { st.din i with nlink := (st.din i).nlink + 1 } := by
        rw [hw.frame.din i hid, h2.abs, Store.linking, Store.setDin_din_self]
      have hall : Beside st ((sb.abs s3.disk).setDin i (st.din i)) i (s₂.inode dp).inum :=
        ((Beside.setDin rfl rfl : Beside st (st.linking i) i _).trans hb).trans
          (.setDin (by rw [hdin]) (by rw [hdin]))
      have hl' : Linked ((sb.abs s3.disk).setDin i (st.din i)) b := hall.linked hl fun h0 hn => by
        rw [Store.setDin_din_self] at h0 hn
        exact hl i h0 hn
      refine ((h.rebase h4.1).linkBad hv ((h4.1.inum ip hpos).trans hi) hdin hl').mono
        fun _ s' hs' => ⟨fun _ => ?_, fun h0 => absurd (hs'.1.symm.trans h0) (by decide)⟩
      rw [hs'.2.abs]
      refine hall.rolledBack (.inr ⟨Store.setDin_din_self _, fun p => ?_, fun o => ?_⟩) hown
        (by rw [← hs'.2.abs]; exact hs'.2.inv.own) hole ?_ ⟨nm', ?_⟩
      · rw [Store.val_setDin (by rw [hdin]) (by rw [hdin]), hw.val_ne i hid, hheld.view, h2.abs,
          linking_val]
      · rw [Store.content_setDin (by rw [hdin]) (by rw [hdin]), hw.content_ne i hid, hheld.view,
          h2.abs, linking_content]
      · rw [hinum2]
        exact hdir'
      · rw [hinum2]
        exact hwalk.congr (fun j => (linking_type st i j).symm)
          (fun j => (linking_size st i j).symm) fun j o => by rw [linking_content]
  · simp only [wp_bind, wp_pure]
    rcases hcase with ⟨hr, -, -⟩ | ⟨off, tot, hw, -, hent⟩
    · exact absurd hr hge
    by_cases hwrap : (st.din i).nlink + 1 = 0
    · exact wp_of_forall (fun _ => trivial) fun _ _ => wp_of_forall (fun _ => trivial) fun _ _ =>
        ⟨by simp, fun _ h0 => absurd hwrap h0⟩
    obtain ⟨n, hent⟩ := hent hge
    rw [h2.abs, hinum2, (h2.inum ip hpos).trans hi] at hent
    have hl3 : Linked (sb.abs s3.disk) b := fun j ht hn => by
      rw [(hent.fields j).1, linking_type] at ht
      rw [(hent.fields j).2] at hn
      by_cases hj : j = i
      · rw [hj, Store.linking, Store.setDin_din_self] at hn
        exact absurd hn hwrap
      · rw [Store.linking, Store.setDin_din_ne hj] at hn
        exact hl j ht hn
    have h3 := h2.step hw.frame hinv
    have hl3' : Linked (sb.abs s3.disk) s := fun j ht hn => by
      obtain ⟨k, hk, hinum⟩ := hl3 j ht hn
      exact ⟨k, by rw [h.ref]; omega, (h.inum k hk).trans hinum⟩
    refine (h3.iunlockput_inum hv hl3').mono fun _ s4 h4 => ?_
    refine ((Same.closed hv hl3).iput hE hv (h.rebase h4.1)).mono fun _ s' hs' => ?_
    exact ⟨by simp, fun _ _ => ⟨_, _, _, _, hent, hdir', hl3, hs'.1⟩⟩

section

variable {cwd : Slot} (hv : sb.Valid) (h : Settled sb s) (hl : Linked (sb.abs s.disk) s)
  (hcwd : 0 < (s.inode cwd).ref)

include hv h hl hcwd

theorem sysLink_outcome (old new : List UInt8) :
    wp (sysLink sb cwd old new) (fun _ => True) s fun r s' =>
      (r = -1 → RolledBack sb (sb.abs s.disk) (sb.abs s'.disk)
        ((sb.abs s.disk).Parent (s.inode cwd).inum new)) ∧
      (r = 0 → ∃ ip s1, (namei sb cwd old).run s = .ok (some ip, s1) ∧
        (((sb.abs s.disk).din (s1.inode ip).inum).nlink + 1 ≠ 0 →
          (s1.inode ip).inum < sb.ninodes ∧
          ((sb.abs s.disk).din (s1.inode ip).inum).type ≠ T_DIR ∧
          LinkMade sb (sb.abs s.disk) s (s1.inode ip).inum s')) := by
  have hJ := Same.closed hv hl
  have hE := tolerant_true
  obtain ⟨st, hst⟩ : ∃ st, st = sb.abs s.disk := ⟨_, rfl⟩
  rw [← hst] at hl hJ ⊢
  simp only [sysLink, wp_bind]
  refine (hJ.namei hE hv (by rw [hst]; exact Same.refl h.inv) hcwd old).with_run.mono ?_
  rintro r s1 ⟨hnamei, -, hnone, hsome⟩
  rcases r with _ | ip
  · exact ⟨fun _ => (hnone rfl).rolledBack, nofun⟩
  simp only [wp_bind]
  refine (hJ.ilock hE (hsome ip rfl)).mono ?_
  rintro _ s₂ ⟨h2, hheld, hvalid, -, hs2⟩
  have hpos := hJ.pos h2 (mem_cons_self ip 0)
  have hinum : (s1.inode ip).inum = (s₂.inode ip).inum := by
    rw [hs2, withInode_self]
    rfl
  rw [wp_get, wp_ite]
  refine ⟨fun _ => ?_, fun hfile => ?_⟩
  · simp only [wp_bind, wp_pure]
    exact (hJ.iunlockput hE hv h2).mono fun _ _ hs => ⟨fun _ => hs.1.rolledBack, nofun⟩
  simp only [wp_bind, wp_setDin]
  refine (iupdate_setDinode hv h2.inv.table hpos _).mono fun _ s3 hu => ?_
  obtain ⟨i, hi⟩ : ∃ i, i = (s₂.inode ip).inum := ⟨_, rfl⟩
  have hdin : (s₂.inode ip).din = st.din i := by rw [hheld.sync, h2.abs, hi]
  have h3 := h2.step hu.frame (h2.inv.updated hpos hheld hu rfl rfl rfl)
  have habs : sb.abs s3.disk = st.linking i := by rw [hu.abs, h2.abs, hdin, ← hi, Store.linking]
  rw [habs] at h3
  refine (iunlock_spec hE).mono ?_
  rintro _ _ ⟨hpos3, rfl⟩
  have h4 := h3.unlock hpos3
  have hcwd4 := h4.inum cwd hcwd
  have hfile' : (st.din i).type ≠ T_DIR := by rwa [← hdin]
  have hpos4 := h4.ref cwd
  have hlink := h4.linkNew hv hl (by rw [withInode_self, hi]; exact hu.frame.inum) hfile'
    (by rw [hst]; exact h.inv.own) (by rw [hst]; exact h.hole) (Nat.lt_of_lt_of_eq (by omega) hpos4.symm)
    new
  rw [hcwd4] at hlink
  refine hlink.mono fun r s' hr => ⟨hr.1, fun h0 => ⟨ip, s1, hnamei, fun hwrap => ?_⟩⟩
  rw [hinum, ← hi] at hwrap ⊢
  exact ⟨by rw [hi]; exact h2.inv.table.inum_lt ip hpos, hfile', hr.2 h0 hwrap⟩

theorem sysLink_rolls_back (old new : List UInt8) :
    wp (sysLink sb cwd old new) (fun _ => True) s fun r s' => r = -1 →
      RolledBack sb (sb.abs s.disk) (sb.abs s'.disk)
        ((sb.abs s.disk).Parent (s.inode cwd).inum new) :=
  (sysLink_outcome hv h hl hcwd old new).mono fun _ _ hr => hr.1

/-- **Failed creations and links roll back.** In a file system in which every allocated inode without links
is in use, if `create` or `sys_link` fails, every inode that was allocated has its type, link count, size
and contents, no other inode is allocated, and every block that was allocated is one of the parent
directory, behind its end. -/
theorem failures_roll_back :
    (∀ path type major minor s', (create sb cwd path type major minor).run s = .ok (none, s') →
      RolledBack sb (sb.abs s.disk) (sb.abs s'.disk)
        ((sb.abs s.disk).Parent (s.inode cwd).inum path)) ∧
    ∀ old new s', (sysLink sb cwd old new).run s = .ok (-1, s') →
      RolledBack sb (sb.abs s.disk) (sb.abs s'.disk)
        ((sb.abs s.disk).Parent (s.inode cwd).inum new) :=
  ⟨fun path type major minor _ hrun =>
      (create_rolls_back hv h hl hcwd path type major minor).of_run_eq_ok hrun rfl,
    fun old new _ hrun => (sysLink_rolls_back hv h hl hcwd old new).of_run_eq_ok hrun rfl⟩

end

/-- A root directory in use, with the entry "f" for a file with `z` links, in eight blocks. -/
def linkState (z : UInt16) : State :=
  twoInodes (smallDir 4) { tinyFile with nlink := z } (smallBits 31) fun k =>
    if k = 0 then 2 else if k = 2 then 102 else 0

example : ((linkState 1).inode 0).ref = 1 := by decide +kernel

theorem link_settled {z : UInt16} (hz : z = 0 ∨ z = 1) : Settled crossed (linkState z) := by
  rcases hz with rfl | rfl
  all_goals
    exact ⟨.of_check (by decide +kernel) (by decide +kernel)
      ⟨crossed_valid.owns smallPlace (by decide +kernel), by decide +kernel⟩, by decide +kernel,
      by decide +kernel⟩

theorem link_fails : wp (sysLink crossed 0 [102] []) (fun _ => False) (linkState 1)
    fun r _ => r = -1 := by
  decide +kernel

theorem link_linked : Linked (crossed.abs (linkState 1).disk) (linkState 1) := by decide +kernel

/-- Four inodes, and no block behind that of the root directory. -/
def cramped : Superblock := { tiny with ninodes := 4, size := 5, nblocks := 1 }

theorem cramped_valid : cramped.Valid where
  root := by decide
  inodes i hi := by
    simp only [cramped, tiny, Superblock.iblock, IPB] at *
    omega
  bitmap := by decide
  size_lt := by decide

example : cramped.IsData 4 := by decide +kernel

theorem cramped_settled : Settled cramped (linkState 1) :=
  ⟨.of_check (by decide +kernel) (by decide +kernel)
    ⟨cramped_valid.owns smallPlace (by decide +kernel), by decide +kernel⟩, by decide +kernel,
    by decide +kernel⟩

/-- `mkdir` of "g" takes inode 3, and finds no block for its entries. -/
theorem cramped_fails : wp (create cramped 0 [103] T_DIR 0 0) (fun _ => False) (linkState 1)
    fun r _ => r = none := by
  decide +kernel

theorem cramped_linked : Linked (cramped.abs (linkState 1).disk) (linkState 1) := by decide +kernel

/-- A link to the file under the empty path, and a directory on a full disk. -/
theorem failures_roll_back_small :
    (∃ s', (sysLink crossed 0 [102] []).run (linkState 1) = .ok (-1, s') ∧
      RolledBack crossed (crossed.abs (linkState 1).disk) (crossed.abs s'.disk)
        ((crossed.abs (linkState 1).disk).Parent 1 [])) ∧
    ∃ s', (create cramped 0 [103] T_DIR 0 0).run (linkState 1) = .ok (none, s') ∧
      RolledBack cramped (cramped.abs (linkState 1).disk) (cramped.abs s'.disk)
        ((cramped.abs (linkState 1).disk).Parent 1 [103]) := by
  have hcwd : 0 < ((linkState 1).inode 0).ref := Nat.one_pos
  constructor
  · obtain ⟨r, s', hok, rfl⟩ := link_fails.exists_ok
    exact ⟨s', hok,
      (failures_roll_back crossed_valid (link_settled (.inr rfl)) link_linked hcwd).2 _ _ _ hok⟩
  · obtain ⟨r, s', hok, rfl⟩ := cramped_fails.exists_ok
    exact ⟨s', hok,
      (failures_roll_back cramped_valid cramped_settled cramped_linked hcwd).1 _ _ _ _ _ hok⟩

/-- The root directory has the entries "f" for inode 2 and "e" for inode 33, which does not exist: it
would be where the entry is. -/
def danglingState : State :=
  twoInodes { smallDir 4 with size := 80 } tinyFile (smallBits 31) fun k =>
    if k = 0 then 2 else if k = 2 then 102 else if k = 64 then 33 else if k = 66 then 101 else 0

/-- The file is in use, with more links in the inode table than on the disk. -/
def staleState : State :=
  { linkState 1 with
    inode := assign (linkState 1).inode 1 ⟨2, 1, false, true, { tinyFile with nlink := 5 }⟩ }

/-- If the file has no link, it is freed. If an entry names an inode that does not exist, the failing
link puts that inode, and the entry is gone. If the inode table does not agree with the disk, the failing
link leaves the link count of the table. -/
theorem failed_link_frees :
    (Settled crossed (linkState 0) ∧ ((crossed.abs (linkState 0).disk).din 2).type = T_FILE ∧
      wp (sysLink crossed 0 [102] []) (fun _ => False) (linkState 0) fun r s' =>
        r = -1 ∧ ((crossed.abs s'.disk).din 2).type = 0) ∧
    (Table crossed danglingState ∧ Own crossed (crossed.abs danglingState.disk) ∧
      (crossed.abs danglingState.disk).Whole ∧
      Linked (crossed.abs danglingState.disk) danglingState ∧
      (crossed.abs danglingState.disk).content 1 64 = 33 ∧
      wp (sysLink crossed 0 [102] [101, 47, 120]) (fun _ => False) danglingState fun r s' =>
        r = -1 ∧ (crossed.abs s'.disk).content 1 64 = 0) ∧
    Own crossed (crossed.abs staleState.disk) ∧ (crossed.abs staleState.disk).Whole ∧
      Linked (crossed.abs staleState.disk) staleState ∧
      ((crossed.abs staleState.disk).din 2).nlink = 1 ∧
      wp (sysLink crossed 0 [102] []) (fun _ => False) staleState fun r s' =>
        r = -1 ∧ ((crossed.abs s'.disk).din 2).nlink = 5 :=
  ⟨⟨link_settled (.inl rfl), by decide +kernel, by decide +kernel⟩,
    ⟨by decide +kernel, ⟨crossed_valid.owns smallPlace (by decide +kernel), by decide +kernel⟩,
      by decide +kernel, by decide +kernel, by decide +kernel, by decide +kernel⟩,
    ⟨crossed_valid.owns smallPlace (by decide +kernel), by decide +kernel⟩,
    by decide +kernel, by decide +kernel, by decide +kernel, by decide +kernel⟩

end Xv6.Fs
