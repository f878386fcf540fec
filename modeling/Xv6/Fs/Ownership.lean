import Xv6.Fs.Path
import Xv6.Lib.Transition

/-!
# Block ownership over whole runs

Every operation on inodes and names keeps `Inv`, so the block ownership invariant holds after any
sequence of them, and `bfree` never meets a free block.
-/

namespace Xv6.Fs

open Lib Multiset Store

variable {sb : Superblock} {s s' : State} {k : Slot} {x : Multiset Slot}

/-- The errors that may end an operation: any panic but "freeing free block". -/
abbrev NoDoubleFree (e : Err) : Prop := e ≠ .freeingFreeBlock

theorem tolerant_noDoubleFree : Tolerant NoDoubleFree := fun _ h _ _ => h

/-- The invariant, with the references `x` counted. -/
structure Holds (sb : Superblock) (x : Multiset Slot) (s : State) : Prop where
  inv : Inv sb s
  count : ∀ k, x.count k ≤ (s.inode k).ref

/-- The invariant with the references `x` counted, and a property of the store. -/
structure HoldsWith (sb : Superblock) (Z : Store → Prop) (x : Multiset Slot) (s : State) : Prop
    extends Holds sb x s where
  also : Z (sb.abs s.disk)

variable {Z : Store → Prop}

theorem HoldsWith.of_inv (h : HoldsWith sb Z x s) (hinv : Inv sb s')
    (href : ∀ j, (s'.inode j).ref = (s.inode j).ref) (hz : Z (sb.abs s'.disk)) : HoldsWith sb Z x s' :=
  ⟨⟨hinv, fun j => by rw [href]; exact h.count j⟩, hz⟩

/-- The property is kept by everything that the operations do to the store. -/
structure Keeps (sb : Superblock) (Z : Store → Prop) : Prop where
  freed : ∀ {s s' k}, Z (sb.abs s.disk) → Freed sb k s s' → Z (sb.abs s'.disk)
  wrote : ∀ {s s' k off tot}, Z (sb.abs s.disk) → Held sb s k →
    off ≤ (s.inode k).din.size.toNat → off + tot ≤ MAXFILE * BSIZE → Wrote sb k s s' off tot →
    Z (sb.abs s'.disk)
  updated : ∀ {s s' k d}, Z (sb.abs s.disk) → Held sb s k → Updated sb k d s s' →
    d.type = (s.inode k).din.type → d.size = (s.inode k).din.size →
    d.addrs = (s.inode k).din.addrs → Z (sb.abs s'.disk)
  marked : ∀ {type i s s'}, Z (sb.abs s.disk) → Marked sb type i s s' → Z (sb.abs s'.disk)
  truncated : ∀ {s s' k}, Z (sb.abs s.disk) → Held sb s k → Truncated sb k s s' →
    Z (sb.abs s'.disk)

theorem keeps_true : Keeps sb fun _ => True :=
  ⟨fun _ _ => trivial, fun _ _ _ _ _ => trivial, fun _ _ _ _ _ _ => trivial, fun _ _ => trivial,
    fun _ _ _ => trivial⟩

variable {i : ℕ}

theorem Named.lt (hv : sb.Valid) (h : Inv sb s) (hi : Named sb s i) : i < sb.ninodes := by
  rcases hi with rfl | ⟨d, n, ht, hn, rfl, -⟩
  · exact hv.root
  · exact (h.dirs d ht).ents n hn

theorem Freed.val_ne (h : Freed sb k s s') (hi : i ≠ (s.inode k).inum) (p : Place) :
    (sb.abs s'.disk).val (i, p) = (sb.abs s.disk).val (i, p) :=
  val_congr _ _ (h.din_ne i hi) (fun _ _ => by rw [h.data]) p

theorem Freed.content_ne (h : Freed sb k s s') (hi : i ≠ (s.inode k).inum) (o : ℕ) :
    (sb.abs s'.disk).content i o = (sb.abs s.disk).content i o := by
  simp only [content, h.val_ne hi, h.data]

theorem Freed.inv (h : Freed sb k s s') (hinv : Inv sb s) (hr : 0 < (s.inode k).ref) : Inv sb s' := by
  refine ⟨h.table hinv.table hr, h.own, fun i hi => ?_⟩
  have hne : i ≠ (s.inode k).inum := by
    rintro rfl
    rw [h.type] at hi
    cases hi
  have hdin := h.din_ne i hne
  rw [hdin] at hi
  exact (hinv.dirs i hi).congr (by rw [hdin]) (h.val_ne hne) (h.content_ne hne)

theorem count_cons_le {r : Slot → ℕ} (h : ∀ j, x.count j ≤ r j) (j : Slot) :
    (k ::ₘ x).count j ≤ if j = k then r k + 1 else r j := by
  rw [count_cons]
  have := h j
  split
  · next hj =>
    subst hj
    omega
  · omega

variable {E : Err → Prop}

theorem closed_holdsWith (hv : sb.Valid) (hZ : Keeps sb Z)
    (hno : E .noType) : Closed sb E (HoldsWith sb Z) where
  inv h := h.inv
  count_le h := h.count
  got {x s s' k i} h hi hgot := by
    refine ⟨⟨h.inv.ofTable (hgot.table h.inv.table (hi.lt hv h.inv)) hgot.disk, fun j => ?_⟩,
      by rw [hgot.disk]; exact h.also⟩
    refine (count_cons_le h.count j).trans ?_
    split
    · next hj => rw [hj, hgot.ref]
    · next hj => rw [hgot.ne hj]
  dup {x s k} h hr := by
    refine ⟨⟨h.inv.ofTable (h.inv.table.relock hr _ _) rfl, fun j => ?_⟩, h.also⟩
    refine (count_cons_le h.count j).trans ?_
    split
    · next hj => rw [hj, withInode_self]
    · next hj => rw [withInode_ne hj]
  lock {x s k} h hr ht := by
    refine ⟨⟨h.inv.ofTable (h.inv.table.locked hr ht) rfl, fun j => ?_⟩, h.also⟩
    by_cases hj : j = k
    · rw [hj, withInode_self]
      exact h.count k
    · rw [withInode_ne hj]
      exact h.count j
  unlock {x s k} h hr := by
    refine ⟨⟨h.inv.ofTable (h.inv.table.relock hr _ _) rfl, fun j => ?_⟩, h.also⟩
    by_cases hj : j = k
    · rw [hj, withInode_self]
      exact h.count k
    · rw [withInode_ne hj]
      exact h.count j
  put {x s k} h _ := by
    have hk := h.count k
    rw [count_cons_self] at hk
    refine ⟨⟨h.inv.ofTable (h.inv.table.relock (by omega) _ _) rfl, fun j => ?_⟩, h.also⟩
    by_cases hj : j = k
    · rw [hj, withInode_self]
      change x.count k ≤ (s.inode k).ref - 1
      omega
    · have := h.count j
      rw [count_cons_of_ne hj] at this
      rwa [withInode_ne hj]
  free {x s s' k} h hdrop hfreed := by
    have hk := h.count k
    rw [count_cons_self, hdrop.1] at hk
    refine ⟨⟨hfreed.inv h.inv (by rw [hdrop.1]; decide), fun j => ?_⟩, hZ.freed h.also hfreed⟩
    by_cases hj : j = k
    · rw [hj]
      omega
    · have := h.count j
      rw [count_cons_of_ne hj] at this
      rwa [hfreed.ne j hj]
  noType _ _ := hno

theorem holds_closed (hv : sb.Valid) (hZ : Keeps sb Z) : Closed sb NoDoubleFree (HoldsWith sb Z) :=
  closed_holdsWith hv hZ (by decide)

/-! ## Links and names -/

theorem Frame.persist (h : Frame sb k s s') (ht : (s'.inode k).din.type = (s.inode k).din.type) :
    Persist x s s' := by
  intro j _ hvalid
  by_cases hj : j = k
  · rw [hj, h.self]
    subst hj
    exact ⟨hvalid, rfl, ht⟩
  · rw [h.ne j hj]
    exact ⟨hvalid, rfl, rfl⟩

theorem Wrote.type {off tot : ℕ} (h : Wrote sb k s s' off tot) :
    (s'.inode k).din.type = (s.inode k).din.type := by
  obtain ⟨a, z, hdin⟩ := h.din
  rw [hdin]

section

variable {Z : Store → Prop} (hv : sb.Valid) (hZ : Keeps sb Z)

include hv hZ

theorem dirlink_holds (h : HoldsWith sb Z x s) (hk : k ∈ x) (hvalid : (s.inode k).valid = true)
    (ht : (s.inode k).din.type = T_DIR) (nm : List UInt8) {inum : ℕ} (hi : inum < sb.ninodes) :
    wp (dirlink sb k nm inum) NoDoubleFree s fun _ s' => HoldsWith sb Z x s' ∧ Persist x s s' := by
  have hJ := holds_closed hv hZ
  have hE := tolerant_noDoubleFree
  have hr := hJ.pos h hk
  have hheld := hJ.held h hk hvalid
  have hinv := h.inv
  simp only [dirlink, wp_bind]
  apply (hJ.dirlookup hE hv h hk hvalid ht nm).mono
  rintro r s1 (⟨rfl, rfl, -, hsize⟩ | ⟨ip, m, rfl, -, -, h1, hp1⟩)
  · refine (dirlinkTail_spec hv hinv.own hheld (hinv.noHole hheld ht) hE hsize nm inum).mono ?_
    rintro r s' (⟨-, n, hn, -, hw⟩ | ⟨-, hw⟩)
    · have hde : inum % 65536 < sb.ninodes := by omega
      obtain ⟨off, tot, hoff, hmax, hwrote⟩ := hw.wrote
      exact ⟨h.of_inv (hinv.entryWrite hr hheld ht hw hn hde) hwrote.frame.ref
          (hZ.wrote h.also hheld hoff hmax hwrote),
        hwrote.frame.persist hwrote.type⟩
    · obtain ⟨off, tot, hoff, hmax, hwrote⟩ := hw.wrote
      exact ⟨h.of_inv (hinv.entryKeep hr hheld ht hw) hwrote.frame.ref
          (hZ.wrote h.also hheld hoff hmax hwrote),
        hwrote.frame.persist hwrote.type⟩
  · simp only [wp_bind]
    apply (hJ.iput hE hv h1).mono
    rintro _ s' ⟨h', hp'⟩
    rw [wp_pure]
    exact ⟨h', hp1.trans hp'⟩

theorem update_holds (h : HoldsWith sb Z x s) (hk : k ∈ x) (hvalid : (s.inode k).valid = true) {d : Dinode}
    (htype : d.type = (s.inode k).din.type) (hsize : d.size = (s.inode k).din.size)
    (haddrs : d.addrs = (s.inode k).din.addrs) :
    wp (iupdate sb k) E (s.setDinode k d) fun _ s' => HoldsWith sb Z x s' ∧ Persist x s s' := by
  have hJ := holds_closed hv hZ
  have hr := hJ.pos h hk
  apply (iupdate_setDinode hv h.inv.table hr d).mono
  intro _ s' hu
  have hheld := hJ.held h hk hvalid
  refine ⟨h.of_inv (h.inv.updated hr hheld hu htype hsize haddrs) hu.frame.ref
    (hZ.updated h.also hheld hu htype hsize haddrs), ?_⟩
  apply hu.frame.persist
  rw [hu.self, ← htype]

omit hv hZ in
theorem Marked.inv {type : UInt16} {i : ℕ} (h : Marked sb type i s s') (hinv : Inv sb s) : Inv sb s' := by
  have hval := val_setDin_empty (d := { Dinode.zero with type := type }) (fun _ => rfl)
    (val_of_free h.free)
  refine ⟨h.table hinv.table, h.own hinv.own, fun j hj => ?_⟩
  rw [h.abs] at hj ⊢
  by_cases hji : j = i
  · subst hji
    have h0 : (((sb.abs s.disk).setDin j { Dinode.zero with type := type }).din j).size.toNat = 0 := by
      rw [setDin_din_self]
      rfl
    refine ⟨fun bn hbn => ?_, fun n hn => ?_⟩
    · rw [h0] at hbn
      omega
    · rw [nents, h0, Nat.zero_div] at hn
      omega
  · rw [setDin_din_ne hji] at hj
    apply (hinv.dirs j hj).congr
    · rw [setDin_din_ne hji]
    · intro p
      rw [hval]
    · intro o
      simp only [content, hval]
      rfl

variable {dp ip : Slot}

theorem createFail_holds (h : HoldsWith sb Z (ip ::ₘ dp ::ₘ x) s) (hip : (s.inode ip).valid = true) :
    wp (createFail sb dp ip) NoDoubleFree s fun r s' => r = none ∧ HoldsWith sb Z x s' := by
  have hJ := holds_closed hv hZ
  have hE := tolerant_noDoubleFree
  simp only [createFail, wp_bind, wp_setDin]
  apply (update_holds hv hZ h (mem_cons_self _ _) hip (by rfl) (by rfl) (by rfl)).mono
  rintro _ s1 ⟨h1, -⟩
  apply (hJ.iunlockput hE hv h1).mono
  rintro _ s2 ⟨h2, -⟩
  apply (hJ.iunlockput hE hv h2).mono
  rintro _ s' ⟨h', -⟩
  rw [wp_pure]
  exact ⟨rfl, h'⟩

/-- What `create` leaves: the reference it returns, if any, and those held before. -/
def ReturnedWith (sb : Superblock) (Z : Store → Prop) (x : Multiset Slot) (r : Option Slot)
    (s : State) : Prop := HoldsWith sb Z (r.elim x (· ::ₘ x)) s

theorem createLink_holds (h : HoldsWith sb Z (ip ::ₘ dp ::ₘ x) s) (hdp : (s.inode dp).valid = true)
    (hip : (s.inode ip).valid = true) (ht : (s.inode dp).din.type = T_DIR) (nm : List UInt8)
    (type : UInt16) : wp (createLink sb dp ip nm type) NoDoubleFree s (ReturnedWith sb Z x) := by
  have hJ := holds_closed hv hZ
  have hE := tolerant_noDoubleFree
  have hdm : dp ∈ ip ::ₘ dp ::ₘ x := mem_cons_of_mem (mem_cons_self _ _)
  have him : ip ∈ ip ::ₘ dp ::ₘ x := mem_cons_self _ _
  have hlt := h.inv.table.inum_lt ip (hJ.pos h him)
  simp only [createLink, wp_bind, wp_get]
  apply (dirlink_holds hv hZ h hdm hdp ht nm hlt).mono
  rintro r s1 ⟨h1, hp1⟩
  obtain ⟨hdp1, -, -⟩ := hp1 dp hdm hdp
  rw [wp_ite]
  refine ⟨fun _ => ?_, fun _ => ?_⟩
  · apply (createFail_holds hv hZ h1 (hp1 ip him hip).1).mono
    rintro r s' ⟨rfl, h'⟩
    exact h'
  -- the parent gets a link for "..", and is then put
  have hput : ∀ {s2 : State}, HoldsWith sb Z (ip ::ₘ dp ::ₘ x) s2 →
      wp (iunlockput sb dp) NoDoubleFree s2 fun _ s' => HoldsWith sb Z (ip ::ₘ x) s' := by
    intro s2 h2
    rw [cons_swap] at h2
    exact (hJ.iunlockput hE hv h2).mono fun _ _ hs => hs.1
  rw [wp_ite]
  refine ⟨fun _ => ?_, fun _ => ?_⟩
  · simp only [wp_bind, wp_setDin]
    apply (update_holds hv hZ h1 hdm hdp1 (by rfl) (by rfl) (by rfl)).mono
    rintro _ s2 ⟨h2, -⟩
    apply (hput h2).mono
    intro _ s' h'
    rw [wp_pure]
    exact h'
  · simp only [wp_bind, wp_pure]
    exact hput h1

theorem createNew_holds (h : HoldsWith sb Z (ip ::ₘ dp ::ₘ x) s) (hdp : (s.inode dp).valid = true)
    (ht : (s.inode dp).din.type = T_DIR) (nm : List UInt8) (type major minor : UInt16)
    (htype : ((sb.abs s.disk).din (s.inode ip).inum).type = type) :
    wp (createNew sb dp ip nm type major minor) NoDoubleFree s (ReturnedWith sb Z x) := by
  have hJ := holds_closed hv hZ
  have hE := tolerant_noDoubleFree
  have hdm : dp ∈ ip ::ₘ dp ::ₘ x := mem_cons_of_mem (mem_cons_self _ _)
  have him : ip ∈ ip ::ₘ dp ::ₘ x := mem_cons_self _ _
  simp only [createNew, wp_bind]
  apply (hJ.ilock hE h).mono
  rintro _ s1 ⟨h1, -, hip1, hp1, hs1⟩
  rw [wp_setDin]
  apply (update_holds hv hZ h1 him hip1 (by rfl) (by rfl) (by rfl)).mono
  rintro _ s2 ⟨h2, hp2⟩
  obtain ⟨hdp2, -, hdt2⟩ := (hp1.trans hp2) dp hdm hdp
  rw [ht] at hdt2
  obtain ⟨hip2, -, hit2⟩ := hp2 ip him hip1
  rw [wp_ite]
  refine ⟨fun hdir => ?_, fun _ => ?_⟩
  · have hit : (s2.inode ip).din.type = T_DIR := by
      rw [hit2, hs1, withInode_self, ← hdir]
      exact htype
    have hlt := h2.inv.table.inum_lt ip (hJ.pos h2 him)
    simp only [createDots, wp_bind, wp_get]
    apply (dirlink_holds hv hZ h2 him hip2 hit _ hlt).mono
    rintro r s3 ⟨h3, hp3⟩
    rw [wp_ite]
    obtain ⟨hip3, -, hit3⟩ := hp3 ip him hip2
    refine ⟨fun hr => ?_, fun _ => ?_⟩
    · rw [wp_pure, if_pos hr]
      apply (createFail_holds hv hZ h3 hip3).mono
      rintro r s' ⟨rfl, h'⟩
      exact h'
    · simp only [wp_bind, wp_get]
      have hlt := h3.inv.table.inum_lt dp (hJ.pos h3 hdm)
      apply (dirlink_holds hv hZ h3 him hip3 (hit3.trans hit) _ hlt).mono
      rintro r s4 ⟨h4, hp4⟩
      have hip4 := (hp4 ip him hip3).1
      obtain ⟨hdp4, -, hdt4⟩ := (hp3.trans hp4) dp hdm hdp2
      rw [wp_ite]
      refine ⟨fun _ => ?_, fun _ => createLink_holds hv hZ h4 hdp4 hip4 (hdt4.trans hdt2) nm type⟩
      apply (createFail_holds hv hZ h4 hip4).mono
      rintro r s' ⟨rfl, h'⟩
      exact h'
  · exact createLink_holds hv hZ h2 hdp2 hip2 hdt2 nm type

variable {cwd : Slot}

theorem create_holds (h : HoldsWith sb Z x s) (hcwd : 0 < (s.inode cwd).ref) (path : List UInt8)
    (type major minor : UInt16) :
    wp (create sb cwd path type major minor) NoDoubleFree s (ReturnedWith sb Z x) := by
  have hJ := holds_closed hv hZ
  have hE := tolerant_noDoubleFree
  simp only [create, nameiparent, wp_bind]
  apply (hJ.namex hE hv h hcwd path true).mono
  intro r s1 hr
  rcases r with _ | ⟨dp, nm⟩
  · exact hr.none rfl
  obtain ⟨h1, hdir⟩ := hr.some dp nm rfl
  simp only [wp_bind]
  apply (hJ.ilock hE h1).mono
  rintro _ s2 ⟨h2, hheld, hvalid, -, hs2⟩
  have ht : (s2.inode dp).din.type = T_DIR := by
    rw [hs2, withInode_self]
    exact hdir rfl
  apply (hJ.dirlookup hE hv h2 (mem_cons_self _ _) hvalid ht nm).mono
  rintro r s3 (⟨rfl, rfl, -, -⟩ | ⟨ip, m, rfl, -, -, h3, -⟩)
  · -- a new inode
    simp only [wp_bind]
    apply (ialloc_spec hE hv type).mono
    rintro r s4 (⟨rfl, rfl⟩ | ⟨ip, i, s4', rfl, hmark, hgot⟩)
    · simp only [wp_bind, wp_pure]
      exact (hJ.iunlockput hE hv h2).mono fun _ _ hs => hs.1
    have hm : HoldsWith sb Z (dp ::ₘ x) s4' := h2.of_inv (hmark.inv h2.inv)
      (fun j => by rw [hmark.inode]) (hZ.marked h2.also hmark)
    have h4 : HoldsWith sb Z (ip ::ₘ dp ::ₘ x) s4 := by
      refine ⟨⟨hm.inv.ofTable (hgot.table hm.inv.table hmark.lt) hgot.disk, fun j => ?_⟩,
        by rw [hgot.disk]; exact hm.also⟩
      refine (count_cons_le hm.count j).trans ?_
      split
      · next hj => rw [hj, hgot.ref]
      · next hj => rw [hgot.ne hj]
    have hp4 : Persist (dp ::ₘ x) s3 s4 := by
      refine Persist.trans ?_ (hgot.persist fun j hj => hJ.pos hm hj)
      intro j _ hv'
      rw [hmark.inode]
      exact ⟨hv', rfl, rfl⟩
    obtain ⟨hdp, -, hdt⟩ := hp4 dp (mem_cons_self _ _) hvalid
    apply createNew_holds hv hZ h4 hdp (hdt.trans ht)
    rw [hgot.inum, hgot.disk, hmark.abs, setDin_din_self]
  · -- the name exists
    simp only [wp_bind]
    rw [cons_swap] at h3
    apply (hJ.iunlockput hE hv h3).mono
    rintro _ s4 ⟨h4, -⟩
    apply (hJ.ilock hE h4).mono
    rintro _ s5 ⟨h5, -, -, -, -⟩
    simp only [wp_get]
    rw [wp_ite]
    refine ⟨fun _ => h5, fun _ => ?_⟩
    simp only [wp_bind, wp_pure]
    exact (hJ.iunlockput hE hv h5).mono fun _ _ hs => hs.1

theorem linkBad_holds (h : HoldsWith sb Z (ip ::ₘ x) s) :
    wp (linkBad sb ip) NoDoubleFree s fun _ s' => HoldsWith sb Z x s' := by
  have hJ := holds_closed hv hZ
  have hE := tolerant_noDoubleFree
  simp only [linkBad, wp_bind, wp_pure]
  apply (hJ.ilock hE h).mono
  rintro _ s1 ⟨h1, -, hip1, -, -⟩
  rw [wp_setDin]
  apply (update_holds hv hZ h1 (mem_cons_self _ _) hip1 (by rfl) (by rfl) (by rfl)).mono
  rintro _ s2 ⟨h2, -⟩
  exact (hJ.iunlockput hE hv h2).mono fun _ _ hs => hs.1

theorem linkNew_holds (h : HoldsWith sb Z (ip ::ₘ x) s) (hcwd : 0 < (s.inode cwd).ref)
    (new : List UInt8) : wp (linkNew sb cwd ip new) NoDoubleFree s fun _ s' => HoldsWith sb Z x s' := by
  have hJ := holds_closed hv hZ
  have hE := tolerant_noDoubleFree
  simp only [linkNew, nameiparent, wp_bind]
  apply (hJ.namex hE hv h hcwd new true).mono
  intro r s1 hr
  rcases r with _ | ⟨dp, nm⟩
  · exact linkBad_holds hv hZ (hr.none rfl)
  obtain ⟨h1, hdir⟩ := hr.some dp nm rfl
  simp only [wp_bind]
  apply (hJ.ilock hE h1).mono
  rintro _ s2 ⟨h2, -, hdp2, -, hs2⟩
  have ht : (s2.inode dp).din.type = T_DIR := by
    rw [hs2, withInode_self]
    exact hdir rfl
  have hlt := h2.inv.table.inum_lt ip (hJ.pos h2 (mem_cons_of_mem (mem_cons_self _ _)))
  rw [wp_get]
  apply (dirlink_holds hv hZ h2 (mem_cons_self _ _) hdp2 ht nm hlt).mono
  rintro r s3 ⟨h3, -⟩
  rw [wp_ite]
  refine ⟨fun _ => ?_, fun _ => ?_⟩
  · rw [wp_bind]
    apply (hJ.iunlockput hE hv h3).mono
    rintro _ s4 ⟨h4, -⟩
    exact linkBad_holds hv hZ h4
  · simp only [wp_bind, wp_pure]
    apply (hJ.iunlockput hE hv h3).mono
    rintro _ s4 ⟨h4, -⟩
    exact (hJ.iput hE hv h4).mono fun _ _ hs => hs.1

theorem sysLink_holds (h : HoldsWith sb Z x s) (hcwd : cwd ∈ x) (old new : List UInt8) :
    wp (sysLink sb cwd old new) NoDoubleFree s fun _ s' => HoldsWith sb Z x s' := by
  have hJ := holds_closed hv hZ
  have hE := tolerant_noDoubleFree
  simp only [sysLink, wp_bind]
  apply (hJ.namei hE hv h (hJ.pos h hcwd) old).mono
  rintro r s1 ⟨-, hnone, hsome⟩
  rcases r with _ | ip
  · exact hnone rfl
  simp only [wp_bind]
  apply (hJ.ilock hE (hsome ip rfl)).mono
  rintro _ s2 ⟨h2, -, hip2, -, -⟩
  rw [wp_get, wp_ite]
  refine ⟨fun _ => ?_, fun _ => ?_⟩
  · simp only [wp_bind, wp_pure]
    exact (hJ.iunlockput hE hv h2).mono fun _ _ hs => hs.1
  · simp only [wp_bind, wp_setDin]
    apply (update_holds hv hZ h2 (mem_cons_self _ _) hip2 (by rfl) (by rfl) (by rfl)).mono
    rintro _ s3 ⟨h3, -⟩
    apply (hJ.iunlock hE h3).mono
    rintro _ s4 ⟨h4, -, -⟩
    exact linkNew_holds hv hZ h4 (hJ.pos h4 (mem_cons_of_mem hcwd)) new

section

variable {E : Err → Prop} (hE : Tolerant E) (hno : E .noType)

include hE hno

variable {dp : Slot}

theorem unlinkBad_holds (h : HoldsWith sb Z (dp ::ₘ x) s) :
    wp (unlinkBad sb dp) E s fun _ s' => HoldsWith sb Z x s' := by
  simp only [unlinkBad, wp_bind, wp_pure]
  exact ((closed_holdsWith hv hZ hno).iunlockput hE hv h).mono fun _ _ hs => hs.1

variable {ip : Slot} {m : ℕ}

theorem unlinkEntry_holds (h : HoldsWith sb Z (ip ::ₘ dp ::ₘ x) s) (hdp : (s.inode dp).valid = true)
    (hip : (s.inode ip).valid = true) (ht : (s.inode dp).din.type = T_DIR)
    (hm : m ≤ (sb.abs s.disk).nents (s.inode dp).inum) :
    wp (unlinkEntry sb dp ip (DIRENT * m)) E s fun _ s' => HoldsWith sb Z x s' := by
  have hJ : Closed sb E (HoldsWith sb Z) := closed_holdsWith hv hZ hno
  have hdm : dp ∈ ip ::ₘ dp ::ₘ x := mem_cons_of_mem (mem_cons_self _ _)
  have him : ip ∈ ip ::ₘ dp ::ₘ x := mem_cons_self _ _
  have hr := hJ.pos h hdm
  have hheld := hJ.held h hdm hdp
  simp only [unlinkEntry, wp_bind]
  apply (writeDirent_spec hv h.inv.own hheld (h.inv.noHole hheld ht) List.length_replicate hm).mono
  rintro r s1 (⟨rfl, hw⟩ | ⟨hne, -⟩)
  · obtain ⟨off, tot, hoff, hmax, hwrote⟩ := hw.wrote
    have hzero : (Dirent.decode (List.replicate DIRENT 0)).inum < sb.ninodes := by
      have := hv.root
      change 0 < sb.ninodes
      omega
    have h1 := h.of_inv (h.inv.entryWrite hr hheld ht hw hm hzero) hwrote.frame.ref
      (hZ.wrote h.also hheld hoff hmax hwrote)
    have hp1 : Persist (ip ::ₘ dp ::ₘ x) s s1 := hwrote.frame.persist hwrote.type
    -- both branches put the parent, drop the link and put the inode
    have hput : ∀ {s2 : State}, HoldsWith sb Z (ip ::ₘ dp ::ₘ x) s2 → (s2.inode ip).valid = true →
        wp (iunlockput sb dp) E s2 fun _ s' =>
          HoldsWith sb Z (ip ::ₘ x) s' ∧ (s'.inode ip).valid = true := by
      intro s2 h2 hip2
      rw [cons_swap] at h2
      apply (hJ.iunlockput hE hv h2).mono
      rintro _ s' ⟨h', hp'⟩
      exact ⟨h', (hp' ip (mem_cons_self _ _) hip2).1⟩
    have hdrop : ∀ {s2 : State}, HoldsWith sb Z (ip ::ₘ x) s2 → (s2.inode ip).valid = true →
        wp (iupdate sb ip) E
          (s2.setDinode ip { (s2.inode ip).din with nlink := (s2.inode ip).din.nlink - 1 })
          fun _ s3 => wp (iunlockput sb ip) E s3 fun _ s' => HoldsWith sb Z x s' := by
      intro s2 h2 hip2
      apply (update_holds hv hZ h2 (mem_cons_self _ _) hip2 (by rfl) (by rfl) (by rfl)).mono
      rintro _ s3 ⟨h3, -⟩
      exact (hJ.iunlockput hE hv h3).mono fun _ _ hs => hs.1
    rw [if_neg (by simp), wp_bind, wp_get, wp_ite]
    refine ⟨fun _ => ?_, fun _ => ?_⟩
    · simp only [wp_bind, wp_setDin, wp_pure]
      apply (update_holds hv hZ h1 hdm (hp1 dp hdm hdp).1 (by rfl) (by rfl) (by rfl)).mono
      rintro _ s2 ⟨h2, hp2⟩
      apply (hput h2 ((hp1.trans hp2) ip him hip).1).mono
      rintro _ s3 ⟨h3, hip3⟩
      exact hdrop h3 hip3
    · simp only [wp_bind, wp_setDin, wp_pure]
      apply (hput h1 (hp1 ip him hip).1).mono
      rintro _ s3 ⟨h3, hip3⟩
      exact hdrop h3 hip3
  · rw [if_pos hne, wp_throw]
    exact hE _ (by decide) (by decide) (by decide)

theorem unlinkFound_holds (h : HoldsWith sb Z (ip ::ₘ dp ::ₘ x) s) (hdp : (s.inode dp).valid = true)
    (ht : (s.inode dp).din.type = T_DIR) (hm : m ≤ (sb.abs s.disk).nents (s.inode dp).inum)
    (hlink : ((sb.abs s.disk).din (s.inode ip).inum).nlinkLtOne = true → E .unlinkNlink) :
    wp (unlinkFound sb dp ip (DIRENT * m)) E s fun _ s' => HoldsWith sb Z x s' := by
  have hJ : Closed sb E (HoldsWith sb Z) := closed_holdsWith hv hZ hno
  have hdm : dp ∈ ip ::ₘ dp ::ₘ x := mem_cons_of_mem (mem_cons_self _ _)
  simp only [unlinkFound, wp_bind]
  apply (hJ.ilock hE h).mono
  rintro _ s1 ⟨h1, hheld, hip1, hp1, hs1⟩
  obtain ⟨hdp1, hdi1, hdt1⟩ := hp1 dp hdm hdp
  have hm1 : m ≤ (sb.abs s1.disk).nents (s1.inode dp).inum := by
    rw [hdi1, hs1]
    exact hm
  have hentry := unlinkEntry_holds hv hZ hE hno h1 hdp1 hip1 (hdt1.trans ht) hm1
  have hdin : (s1.inode ip).din = (sb.abs s.disk).din (s.inode ip).inum := by
    rw [hs1, withInode_self]
    rfl
  rw [wp_get, wp_ite]
  refine ⟨fun hlt => ?_, fun _ => ?_⟩
  · rw [wp_throw]
    exact hlink (by rwa [← hdin])
  rw [wp_ite]
  refine ⟨fun hdir => ?_, fun _ => hentry⟩
  rw [wp_bind]
  apply (isdirempty_spec hE hv h1.inv.own hheld (h1.inv.noHole hheld hdir)).mono
  rintro empty s2 ⟨rfl, -⟩
  rw [wp_ite]
  refine ⟨fun _ => hentry, fun _ => ?_⟩
  rw [wp_bind]
  apply (hJ.iunlockput hE hv h1).mono
  rintro _ s3 ⟨h3, -⟩
  exact unlinkBad_holds hv hZ hE hno h3

end

theorem sysUnlink_holds (h : HoldsWith sb Z x s) (hcwd : 0 < (s.inode cwd).ref) (path : List UInt8) :
    wp (sysUnlink sb cwd path) NoDoubleFree s fun _ s' => HoldsWith sb Z x s' := by
  have hJ := holds_closed hv hZ
  have hE := tolerant_noDoubleFree
  have hno : NoDoubleFree .noType := by decide
  simp only [sysUnlink, nameiparent, wp_bind]
  apply (hJ.namex hE hv h hcwd path true).mono
  intro r s1 hr
  rcases r with _ | ⟨dp, nm⟩
  · exact hr.none rfl
  obtain ⟨h1, hdir⟩ := hr.some dp nm rfl
  simp only [wp_bind]
  apply (hJ.ilock hE h1).mono
  rintro _ s2 ⟨h2, -, hdp2, -, hs2⟩
  have ht : (s2.inode dp).din.type = T_DIR := by
    rw [hs2, withInode_self]
    exact hdir rfl
  rw [wp_ite]
  refine ⟨fun _ => unlinkBad_holds hv hZ hE hno h2, fun _ => ?_⟩
  rw [wp_bind]
  apply (hJ.dirlookup hE hv h2 (mem_cons_self _ _) hdp2 ht nm).mono
  rintro r s3 (⟨rfl, rfl, -, -⟩ | ⟨ip, m, rfl, hfound, hgot, h3, hp3⟩)
  · exact unlinkBad_holds hv hZ hE hno h2
  · obtain ⟨hdp3, hdi3, hdt3⟩ := hp3 dp (mem_cons_self _ _) hdp2
    refine unlinkFound_holds hv hZ hE hno h3 hdp3 (hdt3.trans ht) ?_ fun _ => by decide
    rw [hdi3, hgot.disk]
    exact hfound.1.le

theorem write_holds (h : HoldsWith sb Z (k ::ₘ x) s) (src : Source) (off n : ℕ)
    (hdir : ((sb.abs s.disk).din (s.inode k).inum).type ≠ T_DIR) :
    wp (do ilock sb k; let _ ← writei sb k src off n; iunlock k) NoDoubleFree s
      fun _ s' => HoldsWith sb Z (k ::ₘ x) s' := by
  have hJ := holds_closed hv hZ
  have hE := tolerant_noDoubleFree
  have hunlock : ∀ {t : State}, HoldsWith sb Z (k ::ₘ x) t →
      wp (iunlock k) NoDoubleFree t fun _ s' => HoldsWith sb Z (k ::ₘ x) s' :=
    fun ht => (hJ.iunlock hE ht).mono fun _ _ hs => hs.1
  simp only [wp_bind]
  apply (hJ.ilock hE h).mono
  rintro _ s1 ⟨h1, hheld, -, -, hs1⟩
  by_cases hrange : off ≤ (s1.inode k).din.size.toNat ∧ off + n ≤ MAXFILE * BSIZE
  · have hr := hJ.pos h1 (mem_cons_self _ _)
    apply (writei_spec hv (by rw [hheld.view]; exact h1.inv.own) hheld.type hheld.inum_lt src
      hrange.1 hrange.2).mono
    rintro r s2 ⟨tot, -, hle, -, hw, -⟩
    refine hunlock (h1.of_inv (h1.inv.wrote hr hheld hw fun ht => absurd ht ?_) hw.frame.ref
      (hZ.wrote h1.also hheld hrange.1 (by omega) hw))
    rw [hs1, withInode_self]
    exact hdir
  · simp only [writei, wp_bind, wp_get]
    -- an offset past the end or a range past the largest file: nothing is written
    by_cases hsize : (s1.inode k).din.size.toNat < off ∨ (off + n) % 2 ^ 32 < off
    · rw [if_pos hsize]
      exact hunlock h1
    · rw [if_neg hsize, if_pos (by omega)]
      exact hunlock h1

omit hv hZ in
theorem Truncated.inv (h : Truncated sb k s s') (hinv : Inv sb s) (hr : 0 < (s.inode k).ref)
    (hk : Held sb s k) : Inv sb s' := by
  refine ⟨h.frame.table hinv.table hr h.sync ?_, h.own, fun i hi => ?_⟩
  · rw [h.din]
    exact hk.type
  by_cases hik : i = (s.inode k).inum
  · have h0 : ((sb.abs s'.disk).din i).size.toNat = 0 := by
      rw [hik, h.sync, h.din]
      rfl
    refine ⟨fun bn hbn => ?_, fun n hn => ?_⟩
    · rw [h0] at hbn
      omega
    · rw [nents, h0, Nat.zero_div] at hn
      omega
  · have hdin := h.frame.din i hik
    have hval : ∀ p, (sb.abs s'.disk).val (i, p) = (sb.abs s.disk).val (i, p) := fun p =>
      val_congr _ _ hdin (fun _ _ => by rw [h.data]) p
    rw [hdin] at hi
    apply (hinv.dirs i hi).congr (by rw [hdin]) hval
    intro o
    simp only [content, hval, h.data]

theorem trunc_holds (h : HoldsWith sb Z (k ::ₘ x) s) :
    wp (do ilock sb k; itrunc sb k; iunlock k) NoDoubleFree s fun _ s' => HoldsWith sb Z (k ::ₘ x) s' := by
  have hJ := holds_closed hv hZ
  have hE := tolerant_noDoubleFree
  simp only [wp_bind]
  apply (hJ.ilock hE h).mono
  rintro _ s1 ⟨h1, hheld, -, -, -⟩
  have hr := hJ.pos h1 (mem_cons_self _ _)
  apply (itrunc_spec hv (by rw [hheld.view]; exact h1.inv.own) hheld.type hheld.inum_lt).mono
  intro _ s2 htr
  have h2 := h1.of_inv (htr.inv h1.inv hr hheld) htr.frame.ref (hZ.truncated h1.also hheld htr)
  exact (hJ.iunlock hE h2).mono fun _ _ hs => hs.1

end

/-! ## Runs -/

/-- An operation on the file system; `k` and `cwd` are entries of the inode table. -/
inductive Op where
  /-- a reference to inode `i` -/
  | get (i : ℕ)
  | write (k : Slot) (src : Source) (off n : ℕ)
  | trunc (k : Slot)
  | put (k : Slot)
  | create (cwd : Slot) (path : List UInt8) (type major minor : UInt16)
  | link (cwd : Slot) (old new : List UInt8)
  | unlink (cwd : Slot) (path : List UInt8)

namespace Op

/-- The code of an operation. What `create` returns is unlocked, as `sys_open` does. -/
def exec (sb : Superblock) : Op → M Unit
  | get i => do let _ ← iget i
  | write k src off n => do
      ilock sb k
      let _ ← writei sb k src off n
      iunlock k
  | trunc k => do
      ilock sb k
      itrunc sb k
      iunlock k
  | put k => iput sb k
  | create cwd path type major minor => do
      match ← Fs.create sb cwd path type major minor with
      | none => pure ()
      | some ip => iunlock ip
  | link cwd old new => do let _ ← sysLink sb cwd old new
  | unlink cwd path => do let _ ← sysUnlink sb cwd path

/-- Operations are on inodes that exist and on entries that are in use, and `sys_write` does not write
to directories. -/
def Enabled (sb : Superblock) (s : State) : Op → Prop
  | get i => i < sb.ninodes
  | write k _ _ _ => 0 < (s.inode k).ref ∧ ((sb.abs s.disk).din (s.inode k).inum).type ≠ T_DIR
  | trunc k => 0 < (s.inode k).ref
  | put k => 0 < (s.inode k).ref
  | create cwd _ _ _ _ => 0 < (s.inode cwd).ref
  | link cwd _ _ => 0 < (s.inode cwd).ref
  | unlink cwd _ => 0 < (s.inode cwd).ref

instance (sb : Superblock) (s : State) (o : Op) : Decidable (o.Enabled sb s) := by
  cases o <;> unfold Enabled <;> infer_instance

end Op

/-- Operations one after the other, until one panics. -/
def opMachine (sb : Superblock) : Machine State Op where
  init := Inv sb
  step s o := if o.Enabled sb s then ((o.exec sb).run s).toOption.map Prod.snd else none

section

variable {Z : Store → Prop}

theorem Inv.holds (h : Inv sb s) (hz : Z (sb.abs s.disk)) : HoldsWith sb Z 0 s :=
  ⟨⟨h, fun _ => Nat.zero_le _⟩, hz⟩

theorem Inv.holds_one (h : Inv sb s) (hz : Z (sb.abs s.disk)) (hr : 0 < (s.inode k).ref) :
    HoldsWith sb Z (k ::ₘ 0) s := by
  refine ⟨⟨h, fun j => ?_⟩, hz⟩
  rw [count_cons, count_zero]
  split
  · next hj => rwa [hj]
  · exact Nat.zero_le _

theorem HoldsWith.inv_also (h : HoldsWith sb Z x s) : Inv sb s ∧ Z (sb.abs s.disk) := ⟨h.inv, h.also⟩

theorem Op.exec_inv (hv : sb.Valid) (hZ : Keeps sb Z) (h : Inv sb s) (hz : Z (sb.abs s.disk)) (o : Op)
    (ho : o.Enabled sb s) :
    wp (o.exec sb) NoDoubleFree s fun _ s' => Inv sb s' ∧ Z (sb.abs s'.disk) := by
  have hJ := holds_closed hv hZ
  have hE := tolerant_noDoubleFree
  cases o with
  | get i =>
    simp only [exec, wp_bind, wp_pure]
    apply (iget_spec hE i).mono
    intro k s' hgot
    refine ⟨h.ofTable (hgot.table h.table ho) hgot.disk, ?_⟩
    rwa [hgot.disk]
  | write k src off n =>
    exact (write_holds hv hZ (h.holds_one hz ho.1) src off n ho.2).mono fun _ _ hs => hs.inv_also
  | trunc k => exact (trunc_holds hv hZ (h.holds_one hz ho)).mono fun _ _ hs => hs.inv_also
  | put k => exact (hJ.iput hE hv (h.holds_one hz ho)).mono fun _ _ hs => hs.1.inv_also
  | create cwd path type major minor =>
    simp only [exec, wp_bind]
    apply (create_holds hv hZ (h.holds hz) ho path type major minor).mono
    intro r s1 h1
    cases r with
    | none => exact h1.inv_also
    | some ip =>
      have h1 : HoldsWith sb Z (ip ::ₘ 0) s1 := h1
      exact (hJ.iunlock hE h1).mono fun _ _ hs => hs.1.inv_also
  | link cwd old new =>
    simp only [exec, wp_bind, wp_pure]
    exact (sysLink_holds hv hZ (h.holds_one hz ho) (mem_cons_self _ _) old new).mono
      fun _ _ hs => hs.inv_also
  | unlink cwd path =>
    simp only [exec, wp_bind, wp_pure]
    exact (sysUnlink_holds hv hZ (h.holds hz) ho path).mono fun _ _ hs => hs.inv_also

theorem opMachine_inv (hv : sb.Valid) (hZ : Keeps sb Z) (h : Inv sb s) (hz : Z (sb.abs s.disk))
    (ops : List Op) (hrun : (opMachine sb).run s ops = some s') : Inv sb s' ∧ Z (sb.abs s'.disk) := by
  induction ops generalizing s with
  | nil =>
    obtain rfl : s = s' := Option.some.inj hrun
    exact ⟨h, hz⟩
  | cons o ops ih =>
    rw [Machine.run_cons, Option.bind_eq_some_iff] at hrun
    obtain ⟨t, ht, hrun⟩ := hrun
    simp only [opMachine] at ht
    split at ht
    · next ho =>
      obtain ⟨h', hz'⟩ := (o.exec_inv hv hZ h hz ho).of_toOption ht
      exact ih h' hz' hrun
    · cases ht

end

/-- **Block ownership.** From any state with the invariant, every sequence of operations ends in a state
in which each block of the data region is marked in the bit map if and only if one place of one inode
holds its number, no block number is in two places, and the next operation, whatever it is, does not
free a free block. -/
theorem block_ownership (hv : sb.Valid) (h : Inv sb s) (ops : List Op)
    (hrun : (opMachine sb).run s ops = some s') :
    Inv sb s' ∧ ∀ o : Op, o.Enabled sb s' → (o.exec sb).run s' ≠ .error .freeingFreeBlock := by
  obtain ⟨hinv, -⟩ := opMachine_inv hv keeps_true h trivial ops hrun
  refine ⟨hinv, fun o ho herr => ?_⟩
  exact (o.exec_inv hv keeps_true hinv trivial ho).of_run_eq_error herr rfl

/-! On the file system of eight blocks. -/

/-- Inode 1 is `d` and in use, `bits` is the bit map and `data` the first data block. -/
def smallState (d : Dinode) (bits data : Block) : State where
  disk := assign (assign (assign (fun _ => zeroBlock) 2 (zeroBlock.putDinode 1 d)) 3 bits) 4 data
  inode k := if k = 0 then ⟨1, 1, false, true, d⟩ else ⟨0, 0, false, false, .zero⟩
  logged := []

/-- A bit map with the bits of `n`, for the eight blocks. -/
def smallBits (n : UInt8) : Block := fun k => if k = 0 then n else 0

/-- A directory of one entry in block `b`. -/
def smallDir (b : UInt32) : Dinode :=
  { Dinode.zero with type := T_DIR, nlink := 1, size := 16, addrs := fun j => if j = 0 then b else 0 }

/-- Where the only block of a file may be. -/
def smallPlace (_ : ℕ) : ℕ × Place := (1, .inl 0)

theorem smallFile_inv : Inv tiny (smallState tinyFile (smallBits 15) zeroBlock) :=
  .of_check (by decide +kernel) (by decide +kernel)
    ⟨tiny_valid.owns smallPlace (by decide +kernel), by decide +kernel⟩

/-- A write and the last close of a file. -/
theorem block_ownership_small :
    ∃ s', (opMachine tiny).run (smallState tinyFile (smallBits 15) zeroBlock)
        [.write 0 (.kernel [7]) 0 1, .put 0] = some s' ∧ Inv tiny s' := by
  have hsome : ((opMachine tiny).run (smallState tinyFile (smallBits 15) zeroBlock)
      [.write 0 (.kernel [7]) 0 1, .put 0]).isSome = true := by decide +kernel
  obtain ⟨s', hs'⟩ := Option.isSome_iff_exists.mp hsome
  exact ⟨s', hs', (block_ownership tiny_valid smallFile_inv _ hs').1⟩

/-- The block of a directory with one entry, "e", for inode 16. -/
def smallEntry : Block := fun k => if k = 0 then 16 else if k = 2 then 101 else 0

/-- A file of 16 bytes in block 4, in two entries of the inode table. -/
def twiceHeld : State :=
  let d := { smallDir 4 with type := 2 }
  { smallState d (smallBits 31) zeroBlock with
    inode := fun k => if k < 2 then ⟨1, 1, false, true, d⟩ else ⟨0, 0, false, false, .zero⟩ }

/-- What the ownership of data blocks alone does not keep. If the super block is unmarked, a write takes
it for a file. If a directory has a hole, looking up a name in it allocates a block, which is lost when
the directory is put. If an entry names an inode that does not exist, putting that inode clears bits of
the bit map. If two entries of the inode table are of one inode, a write through the second brings back
the block that a truncation through the first has freed. -/
theorem block_ownership_lost :
    (∃ s s', (opMachine tiny).run s [.write 0 (.kernel [7]) 0 1] = some s' ∧ Table tiny s ∧
      Owns (tiny.abs s.disk).val tiny.IsData (tiny.abs s.disk).used ∧
      (tiny.abs s'.disk).val (1, .inl 0) = 1 ∧ ¬ tiny.IsData 1) ∧
    (∃ s s', (opMachine tiny).run s [.unlink 0 [120], .put 0] = some s' ∧ Table tiny s ∧
      Own tiny (tiny.abs s.disk) ∧
      tiny.IsData 4 ∧ (tiny.abs s'.disk).used 4 = true ∧ ∀ x, (tiny.abs s'.disk).val x = 0) ∧
    (∃ s s', (opMachine tiny).run s [.unlink 0 [101, 47, 120]] = some s' ∧ Table tiny s ∧
      Own tiny (tiny.abs s.disk) ∧
      (tiny.abs s'.disk).val (1, .inl 0) = 4 ∧ (tiny.abs s'.disk).used 4 = false) ∧
    ∃ s s', (opMachine tiny).run s [.trunc 0, .write 1 (.kernel [7]) 0 1] = some s' ∧
      Own tiny (tiny.abs s.disk) ∧
      (tiny.abs s'.disk).val (1, .inl 0) = 4 ∧ (tiny.abs s'.disk).used 4 = false := by
  refine ⟨?_, ?_, ?_, ?_⟩
  · have hrun : ∃ s' ∈ (opMachine tiny).run (smallState tinyFile (smallBits 13) zeroBlock)
        [.write 0 (.kernel [7]) 0 1], (tiny.abs s'.disk).val (1, .inl 0) = 1 := by decide +kernel
    obtain ⟨s', hs', hval⟩ := hrun
    exact ⟨_, s', hs', by decide +kernel, tiny_valid.owns smallPlace (by decide +kernel), hval,
      by decide⟩
  · have hrun : ∃ s' ∈ (opMachine tiny).run (smallState (smallDir 0) (smallBits 15) zeroBlock)
        [.unlink 0 [120], .put 0], (tiny.abs s'.disk).used 4 = true ∧
          ((tiny.abs s'.disk).din 0).type = 0 ∧ ∀ j, ((tiny.abs s'.disk).din 1).addrs j = 0 := by
      decide +kernel
    obtain ⟨s', hs', hused, h0, h1⟩ := hrun
    refine ⟨_, s', hs', by decide +kernel,
      ⟨tiny_valid.owns smallPlace (by decide +kernel), by decide +kernel⟩,
      by decide, hused, ?_⟩
    rintro ⟨i, p⟩
    match i with
    | 0 => exact val_of_free h0 p
    | 1 => exact val_of_addrs_zero h1 p
    | i + 2 =>
      apply val_of_free
      rw [Superblock.abs_din_of_not_lt _ (show ¬ i + 2 < 2 by omega)]
      rfl
  · have hrun : ∃ s' ∈ (opMachine tiny).run (smallState (smallDir 4) (smallBits 31) smallEntry)
        [.unlink 0 [101, 47, 120]], (tiny.abs s'.disk).val (1, .inl 0) = 4 ∧
          (tiny.abs s'.disk).used 4 = false := by decide +kernel
    obtain ⟨s', hs', hval, hused⟩ := hrun
    exact ⟨_, s', hs', by decide +kernel,
      ⟨tiny_valid.owns smallPlace (by decide +kernel), by decide +kernel⟩,
      hval, hused⟩
  · have hrun : ∃ s' ∈ (opMachine tiny).run twiceHeld [.trunc 0, .write 1 (.kernel [7]) 0 1],
        (tiny.abs s'.disk).val (1, .inl 0) = 4 ∧ (tiny.abs s'.disk).used 4 = false := by
      decide +kernel
    obtain ⟨s', hs', hval, hused⟩ := hrun
    exact ⟨_, s', hs', ⟨tiny_valid.owns smallPlace (by decide +kernel), by decide +kernel⟩, hval, hused⟩

end Xv6.Fs
