import Xv6.Fs.NoHole

/-!
# Lookups that change nothing

A path lookup puts the inodes that it has passed, and `iput` frees an inode without links whose last
reference it drops. If every allocated inode without links is in use, a lookup changes nothing but the
references, and `nameiparent` ends at the directory that the names of the path lead to.
-/

namespace Xv6.Fs

open Lib Multiset

variable {sb : Superblock} {st st' : Store} {b s s' : State} {x : Multiset Slot} {k : Slot}

/-! ## References -/

/-- Every allocated inode without links is in use. -/
def Linked (st : Store) (b : State) : Prop :=
  ∀ i, (st.din i).type ≠ 0 → (st.din i).nlink = 0 → ∃ k, 0 < (b.inode k).ref ∧ (b.inode k).inum = i

instance (d : Disk) (b : State) : Decidable (Linked (sb.abs d) b) :=
  decidable_of_iff (∀ i < sb.ninodes, ((sb.abs d).din i).type ≠ 0 → ((sb.abs d).din i).nlink = 0 →
      ∃ k, 0 < (b.inode k).ref ∧ (b.inode k).inum = i)
    ⟨fun h => Superblock.forall_din (φ := fun i e => e.type ≠ 0 → e.nlink = 0 →
      ∃ k, 0 < (b.inode k).ref ∧ (b.inode k).inum = i) h fun _ h => absurd rfl h, fun h i _ => h i⟩

/-- The store is `st`, and the references are those of `b` and `x`. -/
structure Same (sb : Superblock) (st : Store) (b : State) (x : Multiset Slot) (s : State) : Prop where
  inv : Inv sb s
  abs : sb.abs s.disk = st
  ref : ∀ k, (s.inode k).ref = (b.inode k).ref + x.count k
  inum : ∀ k, 0 < (b.inode k).ref → (s.inode k).inum = (b.inode k).inum

namespace Same

theorem refl (h : Inv sb s) : Same sb (sb.abs s.disk) s 0 s :=
  ⟨h, rfl, fun _ => rfl, fun _ _ => rfl⟩

theorem entry (h : Same sb st b x s) {j : Slot} (hj : 0 < (b.inode j).ref) (hk : 0 < (s.inode k).ref)
    (heq : (b.inode j).inum = (s.inode k).inum) : j = k := by
  refine h.inv.table.inj j k ?_ hk (by rw [h.inum j hj, heq])
  rw [h.ref]
  omega

theorem not_drops (h : Same sb st b (k ::ₘ x) s) (hl : Linked st b) : ¬ Drops sb s k := by
  rintro ⟨hone, hvalid, hnlink⟩
  have hheld := h.inv.held (by omega) hvalid
  rw [h.abs] at hnlink
  obtain ⟨j, hj, hinum⟩ := hl _ (by rw [← h.abs, ← hheld.sync]; exact hheld.type) hnlink
  obtain rfl := h.entry hj (by omega) hinum
  have href := h.ref j
  rw [count_cons_self] at href
  omega

section

variable (h : Same sb st b x s)

include h

theorem withInode {z : Inode} {y : Multiset Slot}
    (ht : Table sb (s.withInode k z)) (hz : z.ref = (b.inode k).ref + y.count k)
    (hy : ∀ j ≠ k, y.count j = x.count j) (hinum : 0 < (b.inode k).ref → z.inum = (s.inode k).inum) :
    Same sb st b y (s.withInode k z) where
  inv := h.inv.ofTable ht rfl
  abs := h.abs
  ref j := by
    by_cases hj : j = k
    · rw [hj, withInode_self, hz]
    · rw [withInode_ne hj, h.ref, hy j hj]
  inum j hj := by
    by_cases hjk : j = k
    · rw [hjk] at hj ⊢
      rw [withInode_self, hinum hj, h.inum k hj]
    · rw [withInode_ne hjk, h.inum j hj]

theorem lock (hr : 0 < (s.inode k).ref) (ht : ((sb.abs s.disk).din (s.inode k).inum).type ≠ 0) :
    Same sb st b x (s.withInode k (lockedInode sb s k)) :=
  h.withInode (h.inv.table.locked hr ht) (h.ref k) (fun _ _ => rfl) fun _ => rfl

theorem unlock (hr : 0 < (s.inode k).ref) :
    Same sb st b x (s.withInode k { s.inode k with locked := false }) :=
  h.withInode (h.inv.table.relock hr _ _) (h.ref k) (fun _ _ => rfl) fun _ => rfl

theorem got {i : ℕ} (hi : i < sb.ninodes) (hgot : Got i s k s') : Same sb st b (k ::ₘ x) s' := by
  have ht := hgot.table h.inv.table hi
  rw [hgot.eq] at ht ⊢
  refine h.withInode ht ?_ (fun j hj => count_cons_of_ne hj x) fun hb => ?_
  · rw [hgot.ref, h.ref, count_cons_self, Nat.add_assoc]
  · obtain ⟨heq, -⟩ := hgot.old (by rw [h.ref]; omega)
    rw [heq]

theorem rebase (h' : Same sb st' s 0 s') : Same sb st' b x s' where
  inv := h'.inv
  abs := h'.abs
  ref k := by rw [h'.ref, h.ref, count_zero, Nat.add_zero]
  inum k hk := by rw [h'.inum k (by rw [h.ref]; omega), h.inum k hk]

theorem step (hframe : Frame sb k s s') (hinv : Inv sb s') : Same sb (sb.abs s'.disk) b x s' where
  inv := hinv
  abs := rfl
  ref j := by rw [hframe.ref, h.ref]
  inum j hj := by
    by_cases hjk : j = k
    · rw [hjk] at hj ⊢
      rw [hframe.inum, h.inum k hj]
    · rw [hframe.ne j hjk, h.inum j hj]

end

theorem closed_of {E : Err → Prop} (hv : sb.Valid) (hl : Linked st b) (hno : E .noType) :
    Closed sb E (Same sb st b) where
  inv h := h.inv
  count_le h k := by
    rw [h.ref]
    omega
  got h hi hgot := h.got (hi.lt hv h.inv) hgot
  dup {x s k} h hr := by
    refine h.withInode (h.inv.table.relock hr _ _) ?_ (fun j hj => count_cons_of_ne hj x) fun _ => rfl
    rw [count_cons_self, ← Nat.add_assoc, ← h.ref]
  lock h hr ht := h.lock hr ht
  unlock h hr := h.unlock hr
  put {x s k} h _ := by
    have href := h.ref k
    rw [count_cons_self] at href
    refine h.withInode (h.inv.table.relock (by omega) _ _) ?_
      (fun j hj => (count_cons_of_ne hj x).symm) fun _ => rfl
    change (s.inode k).ref - 1 = _
    omega
  free h hdrop _ := absurd hdrop (h.not_drops hl)
  noType _ _ := hno

theorem closed (hv : sb.Valid) (hl : Linked st b) : Closed sb (fun _ => True) (Same sb st b) :=
  closed_of hv hl trivial

end Same

theorem tolerant_true : Tolerant fun _ => True := fun _ _ _ _ => trivial

theorem Same.iunlockput_inum (hv : sb.Valid) (hl : Linked st b) (h : Same sb st b (k ::ₘ x) s) :
    wp (iunlockput sb k) (fun _ => True) s fun _ s' => Same sb st b x s' ∧
      (∀ j, (s'.inode j).inum = (s.inode j).inum) ∧ ∀ j ≠ k, s'.inode j = s.inode j := by
  have hJ := Same.closed hv hl
  simp only [iunlockput, wp_bind]
  refine (hJ.iunlock tolerant_true h).mono ?_
  rintro _ s1 ⟨h1, -, hs1⟩
  refine (iput_spec tolerant_true hv h1.inv.table h1.inv.own (hJ.pos h1 (mem_cons_self k x))).mono ?_
  rintro _ s' (⟨hkeep, rfl⟩ | ⟨hdrop, -⟩)
  · refine ⟨hJ.put h1 hkeep, fun j => ?_, fun j hj => ?_⟩
    · by_cases hj : j = k
      · rw [hj, withInode_self, hs1, withInode_self]
      · rw [withInode_ne hj, hs1, withInode_ne hj]
    · rw [withInode_ne hj, hs1, withInode_ne hj]
  · exact absurd hdrop (h1.not_drops hl)

/-! ## Parents -/

/-- The lookup of the parent of a path, from inode `i` on, ends at directory `d` with the last element
`nm`. -/
inductive Store.Walks (st : Store) : ℕ → List UInt8 → ℕ → List UInt8 → Prop
  | last {i : ℕ} {path nm : List UInt8} (hskip : skipelem path = some (nm, []))
      (hdir : (st.din i).type = T_DIR) : Store.Walks st i path i nm
  | next {i d n : ℕ} {path nm rest nm' : List UInt8} (hskip : skipelem path = some (nm, rest))
      (hdir : (st.din i).type = T_DIR) (hfound : st.Found i nm n)
      (hrest : Store.Walks st (st.dirent i n).inum rest d nm') : Store.Walks st i path d nm'

/-- Directory `d` is the parent in `path`, for a process in directory `cwd`. -/
def Store.Parent (st : Store) (cwd : ℕ) (path : List UInt8) (d : ℕ) : Prop :=
  ∃ nm, st.Walks (if path.head? = some slash then ROOTINO else cwd) path d nm

theorem Store.Walks.congr {i d : ℕ} {path nm : List UInt8} (h : st.Walks i path d nm)
    (htype : ∀ j, (st'.din j).type = (st.din j).type) (hsize : ∀ j, (st'.din j).size = (st.din j).size)
    (hcontent : ∀ j o, st'.content j o = st.content j o) : st'.Walks i path d nm := by
  induction h with
  | last hskip hdir => exact .last hskip (by rw [htype]; exact hdir)
  | @next i d n path nm rest nm' hskip hdir hfound _ ih =>
    have hent : st'.dirent i n = st.dirent i n := Store.dirent_congr fun _ _ => hcontent _ _
    have hfound' : st'.Found i nm n := by
      rw [Store.Found, Store.nents, hsize, hent]
      exact hfound
    refine .next hskip (by rw [htype]; exact hdir) hfound' ?_
    rw [hent]
    exact ih

section

variable (hv : sb.Valid) (hl : Linked st b)

include hv hl

theorem namexLoop_walks (f : ℕ) {ip : Slot} {path : List UInt8} (hf : path.length < f)
    (h : Same sb st b (ip ::ₘ x) s) : wp (namexLoop sb true f ip path) (fun _ => True) s fun r s' =>
      ∀ k nm, r = some (k, nm) → st.Walks (s.inode ip).inum path (s'.inode k).inum nm := by
  have hJ := Same.closed hv hl
  have hE := tolerant_true
  induction f generalizing s ip path with
  | zero => omega
  | succ f ih =>
    rw [namexLoop]
    split
    · next nm rest hskip =>
      have hlen := length_skipelem hskip
      rw [wp_bind]
      refine (hJ.ilock hE h).mono ?_
      rintro _ s1 ⟨h1, hheld, hvalid, -, hs1⟩
      have hinum1 : (s1.inode ip).inum = (s.inode ip).inum := by
        rw [hs1, withInode_self]
        rfl
      simp only [wp_bind, wp_get]
      have hnone : wp (iunlockput sb ip) (fun _ => True) s1 fun _ s' =>
          wp (pure none : M (Option (Slot × List UInt8))) (fun _ => True) s' fun r s' => ∀ k nm, r = some (k, nm) →
            st.Walks (s.inode ip).inum path (s'.inode k).inum nm := by
        refine (hJ.iunlockput hE hv h1).mono fun _ s' _ => ?_
        rw [wp_pure]
        simp
      rw [wp_ite]
      refine ⟨fun _ => ?_, fun hdir => ?_⟩
      · rw [wp_bind]
        exact hnone
      have htype : (s1.inode ip).din.type = T_DIR := by simpa using hdir
      have hdir' : (st.din (s.inode ip).inum).type = T_DIR := by
        rw [← h1.abs, ← hinum1, ← hheld.sync]
        exact htype
      rw [wp_ite]
      refine ⟨fun hparent => ?_, fun _ => ?_⟩
      · rw [wp_bind]
        refine (hJ.iunlock hE h1).mono ?_
        rintro _ s' ⟨-, -, hs'⟩
        rw [wp_pure]
        intro k nm' heq
        obtain ⟨rfl, rfl⟩ : ip = k ∧ nm = nm' := by simpa using heq
        rw [hs', withInode_self]
        change st.Walks (s.inode ip).inum path (s1.inode ip).inum nm
        rw [hinum1]
        exact .last (by rw [hskip, hparent.2]) hdir'
      · rw [wp_bind]
        refine (hJ.dirlookup hE hv h1 (mem_cons_self ip x) hvalid htype nm).mono ?_
        rintro r s2 (⟨rfl, rfl, -, -⟩ | ⟨next, n, rfl, hfound, hgot, h2, -⟩)
        · simp only [wp_bind]
          exact hnone
        · simp only [wp_bind]
          rw [cons_swap] at h2
          refine (h2.iunlockput_inum hv hl).mono ?_
          rintro _ s3 ⟨h3, hinum3, -⟩
          refine (ih (by omega) h3).mono fun r s' hr k nm' heq => ?_
          have hrest := hr k nm' heq
          rw [hinum3, hgot.inum, hinum1, h1.abs] at hrest
          rw [hinum1, h1.abs] at hfound
          exact .next hskip hdir' hfound hrest
    · rw [if_pos rfl, wp_bind]
      refine (hJ.iput hE hv h).mono fun _ s' _ => ?_
      rw [wp_pure]
      simp

theorem Same.nameiparent {cwd : Slot} (h : Same sb st b x s) (hcwd : 0 < (s.inode cwd).ref)
    (path : List UInt8) :
    wp (nameiparent sb cwd path) (fun _ => True) s fun r s' => (r = none → Same sb st b x s') ∧
      ∀ k nm, r = some (k, nm) → Same sb st b (k ::ₘ x) s' ∧ (st.din (s'.inode k).inum).type = T_DIR ∧
        st.Parent (s.inode cwd).inum path (s'.inode k).inum := by
  have hJ := Same.closed hv hl
  have hwalk : wp (namex sb cwd path true) (fun _ => True) s fun r s' => ∀ k nm, r = some (k, nm) →
      st.Parent (s.inode cwd).inum path (s'.inode k).inum := by
    rw [namex]
    by_cases hroot : path.head? = some slash
    · rw [if_pos hroot, wp_bind]
      refine (iget_spec tolerant_true ROOTINO).mono fun k s1 hgot => ?_
      refine (namexLoop_walks hv hl _ (Nat.lt_succ_self _) (hJ.got h (.inl rfl) hgot)).mono ?_
      intro r s' hr k' nm heq
      have := hr k' nm heq
      rw [hgot.inum] at this
      exact ⟨nm, by rwa [if_pos hroot]⟩
    · rw [if_neg hroot, wp_bind, wp_idup]
      refine (namexLoop_walks hv hl _ (Nat.lt_succ_self _) (hJ.dup h hcwd)).mono ?_
      intro r s' hr k' nm heq
      have := hr k' nm heq
      rw [withInode_self] at this
      exact ⟨nm, by rwa [if_neg hroot]⟩
  refine ((hJ.namex tolerant_true hv h hcwd path true).and hwalk).mono ?_
  rintro r s' ⟨hr, hw⟩
  refine ⟨hr.none, fun k nm heq => ?_⟩
  obtain ⟨hsame, hdir⟩ := hr.some k nm heq
  refine ⟨hsame, ?_, hw k nm heq⟩
  rw [← hsame.abs]
  exact hdir rfl

end

end Xv6.Fs
