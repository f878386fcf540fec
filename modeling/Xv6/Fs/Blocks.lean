import Xv6.Fs.Inode
import Xv6.Lib.Hoare
import Xv6.Lib.Ownership

/-!
# Who owns which block

A store names blocks in two kinds of place: the `addrs` of a disk inode and the entries of its indirect
block. `Own` is the invariant of the block layer: the data blocks marked in the bit map and the places
that hold a block number correspond one to one, and the bits of the blocks before the data region are
set. `content` is what a file holds, read through its places. The results here are about stores alone:
how giving a block to a place changes `val`, and that it changes no `content`.
-/

namespace Xv6.Fs

open Function

open Lib (Owns)

/-- Where an inode names a block: in `addrs`, or in an entry of the indirect block. -/
abbrev Place := Fin (NDIRECT + 1) ⊕ Fin NINDIRECT

/-- The place of block `bn` of a file. -/
def filePlace (bn : ℕ) : Place :=
  if bn < NDIRECT then .inl (Fin.ofNat _ bn) else .inr (Fin.ofNat _ (bn - NDIRECT))

theorem filePlace_ne_indirect (bn : ℕ) : filePlace bn ≠ .inl indirect := by
  unfold filePlace
  split
  · next h =>
    intro heq
    have : bn % (NDIRECT + 1) = NDIRECT % (NDIRECT + 1) := congrArg Fin.val (Sum.inl.inj heq)
    simp only [NDIRECT] at h this
    omega
  · simp

theorem div_lt_maxfile {o : ℕ} (h : o < MAXFILE * BSIZE) : o / BSIZE < MAXFILE :=
  Nat.div_lt_of_lt_mul (by rwa [Nat.mul_comm])

theorem filePlace_inj {bn bm : ℕ} (hn : bn < MAXFILE) (hm : bm < MAXFILE)
    (h : filePlace bn = filePlace bm) : bn = bm := by
  simp only [MAXFILE, NDIRECT, NINDIRECT] at hn hm
  unfold filePlace at h
  split at h <;> split at h
  · have : bn % (NDIRECT + 1) = bm % (NDIRECT + 1) := congrArg Fin.val (Sum.inl.inj h)
    simp only [NDIRECT] at *
    omega
  · simp at h
  · simp at h
  · have : (bn - NDIRECT) % NINDIRECT = (bm - NDIRECT) % NINDIRECT :=
      congrArg Fin.val (Sum.inr.inj h)
    simp only [NDIRECT, NINDIRECT] at *
    omega

namespace Store

variable (st : Store)

/-- The number of the indirect block of inode `i`; 0 if there is none. -/
def ind (i : ℕ) : ℕ := ((st.din i).addrs indirect).toNat

/-- The block number at a place of an allocated inode. -/
def val (x : ℕ × Place) : ℕ :=
  if (st.din x.1).type = 0 then 0
  else
    match x.2 with
    | .inl j => ((st.din x.1).addrs j).toNat
    | .inr j => if st.ind x.1 = 0 then 0 else (st.data (st.ind x.1)).word j

/-- Byte `off` of inode `i`; zero where there is no block. -/
def content (i off : ℕ) : UInt8 :=
  let b := st.val (i, filePlace (off / BSIZE))
  if b = 0 then 0 else st.data b (off % BSIZE)

variable {st} {i : ℕ}

theorem val_of_free (h : (st.din i).type = 0) (p : Place) : st.val (i, p) = 0 := if_pos h

theorem val_inl (h : (st.din i).type ≠ 0) (j : Fin (NDIRECT + 1)) :
    st.val (i, .inl j) = ((st.din i).addrs j).toNat := if_neg h

theorem val_inr (h : (st.din i).type ≠ 0) (j : Fin NINDIRECT) :
    st.val (i, .inr j) = if st.ind i = 0 then 0 else (st.data (st.ind i)).word j := if_neg h

theorem val_indirect (h : (st.din i).type ≠ 0) : st.val (i, .inl indirect) = st.ind i := val_inl h _

theorem val_congr (st st' : Store) (hdin : st'.din i = st.din i)
    (hdata : (st.din i).type ≠ 0 → st.ind i ≠ 0 → st'.data (st.ind i) = st.data (st.ind i))
    (p : Place) : st'.val (i, p) = st.val (i, p) := by
  have hind : st'.ind i = st.ind i := by rw [ind, ind, hdin]
  by_cases ht : (st.din i).type = 0
  · rw [val_of_free ht, val_of_free (by rw [hdin]; exact ht)]
  · have ht' : (st'.din i).type ≠ 0 := by rwa [hdin]
    cases p with
    | inl j => rw [val_inl ht, val_inl ht', hdin]
    | inr j =>
      rw [val_inr ht, val_inr ht', hind]
      split
      · rfl
      · next h0 => rw [hdata ht h0]

theorem content_congr {st' : Store} (h : ∀ bn, (st'.val (i, filePlace bn) = st.val (i, filePlace bn) ∧
        (st.val (i, filePlace bn) ≠ 0 →
          st'.data (st.val (i, filePlace bn)) = st.data (st.val (i, filePlace bn)))) ∨
      (st.val (i, filePlace bn) = 0 ∧ st'.data (st'.val (i, filePlace bn)) = zeroBlock))
    (off : ℕ) : st'.content i off = st.content i off := by
  simp only [content]
  rcases h (off / BSIZE) with ⟨hval, hdata⟩ | ⟨hval, hdata⟩
  · rw [hval]
    split
    · rfl
    · next h0 => rw [hdata h0]
  · rw [if_pos hval, hdata]
    simp [zeroBlock]

end Store

/-! ## The invariant -/

/-- One owner for each data block in use, and no clear bit before the data region. -/
structure Own (sb : Superblock) (st : Store) : Prop where
  owns : Owns st.val sb.IsData st.used
  low : ∀ b < sb.dataStart, st.used b = true

namespace Own

variable {sb : Superblock} {st : Store}

theorem isData (h : Own sb st) {b : ℕ} (hb : b < sb.size) (hu : st.used b = false) : sb.IsData b := by
  refine ⟨?_, hb⟩
  by_contra hlow
  have := h.low b (by omega)
  rw [hu] at this
  cases this

variable {j : ℕ}

theorem ind_ne (h : Own sb st) {i : ℕ} (hij : j ≠ i) (hi : (st.din i).type ≠ 0)
    (hj : (st.din j).type ≠ 0) (h0 : st.ind j ≠ 0) : st.ind j ≠ st.ind i := by
  rw [← Store.val_indirect hi, ← Store.val_indirect hj] at *
  intro heq
  exact hij (congrArg Prod.fst (h.owns.inj _ _ h0 heq))

theorem ind_ne_file (h : Own sb st) {i bn : ℕ} (hi : (st.din i).type ≠ 0)
    (h0 : st.val (j, filePlace bn) ≠ 0) : st.val (j, filePlace bn) ≠ st.ind i := by
  rw [← Store.val_indirect hi]
  intro heq
  exact filePlace_ne_indirect bn (congrArg Prod.snd (h.owns.inj _ _ h0 heq))

theorem ind_ne_unused (h : Own sb st) {i b : ℕ} (hi : (st.din i).type ≠ 0) (hb : sb.IsData b)
    (hu : st.used b = false) : st.ind i ≠ b := by
  rw [← Store.val_indirect hi]
  exact h.owns.val_ne hb hu _

end Own

/-! ## Giving a block to an inode -/

namespace Store

/-- Mark block `b` and fill it with zeros. -/
def take (st : Store) (b : ℕ) : Store :=
  { st with used := Function.update st.used b true, data := Function.update st.data b zeroBlock }

/-- Store `b` in `addrs[j]` of inode `i`. -/
def setAddr (st : Store) (i : ℕ) (j : Fin (NDIRECT + 1)) (b : ℕ) : Store :=
  let din := { st.din i with addrs := Function.update (st.din i).addrs j (UInt32.ofNat b) }
  { st with din := Function.update st.din i din }

/-- Store `b` in entry `j` of the indirect block of inode `i`. -/
def setEntry (st : Store) (i : ℕ) (j : ℕ) (b : ℕ) : Store :=
  { st with data := Function.update st.data (st.ind i) ((st.data (st.ind i)).setWord j b) }

variable {st : Store} {sb : Superblock} {i b : ℕ}

theorem val_take (h : Own sb st) (hb : sb.IsData b) (hu : st.used b = false) :
    (st.take b).val = st.val := by
  funext ⟨j, p⟩
  apply val_congr st (st.take b) rfl
  intro ht _
  exact update_of_ne (h.ind_ne_unused ht hb hu) ..

theorem val_setAddr (ht : (st.din i).type ≠ 0) (hb : b < 2 ^ 32) (j : Fin (NDIRECT + 1))
    (hj : j = indirect → st.ind i = 0 ∧ st.data b = zeroBlock) :
    (st.setAddr i j b).val = update st.val (i, .inl j) b := by
  have htoNat : (UInt32.ofNat b).toNat = b := by
    rw [UInt32.toNat_ofNat', Nat.mod_eq_of_lt hb]
  funext ⟨i', p⟩
  by_cases hi : i' = i
  · subst hi
    have hdin : (st.setAddr i' j b).din i' =
        { st.din i' with addrs := update (st.din i').addrs j (UInt32.ofNat b) } :=
      update_self ..
    have ht' : ((st.setAddr i' j b).din i').type ≠ 0 := by rwa [hdin]
    cases p with
    | inl j' =>
      rw [val_inl ht', hdin]
      by_cases hjj : j' = j
      · subst hjj
        simp only [update_self, htoNat]
      · have hne : (i', (Sum.inl j' : Place)) ≠ (i', .inl j) := by simpa using hjj
        rw [update_of_ne hne, val_inl ht]
        simp only [update_of_ne hjj]
    | inr e =>
      have hne : (i', (Sum.inr e : Place)) ≠ (i', .inl j) := by simp
      rw [update_of_ne hne, val_inr ht', val_inr ht]
      have hind : (st.setAddr i' j b).ind i' =
          (update (st.din i').addrs j (UInt32.ofNat b) indirect).toNat := by
        rw [ind, hdin]
      by_cases hjj : j = indirect
      · -- a new indirect block has no entries
        obtain ⟨h0, hz⟩ := hj hjj
        rw [hind, hjj, update_self, htoNat, if_pos h0]
        split
        · rfl
        · rw [show (st.setAddr i' indirect b).data = st.data from rfl, hz, Block.word_zeroBlock]
      · rw [hind, update_of_ne (Ne.symm hjj)]
        rfl
  · have hne : (i', p) ≠ (i, (Sum.inl j : Place)) := by
      intro heq
      exact hi (congrArg Prod.fst heq)
    rw [update_of_ne hne]
    exact val_congr st (st.setAddr i j b) (update_of_ne hi ..) (fun _ _ => rfl) p

theorem val_setEntry (h : Own sb st) (ht : (st.din i).type ≠ 0) (h0 : st.ind i ≠ 0)
    (j : Fin NINDIRECT) (hb : b < 2 ^ 32) : (st.setEntry i j b).val = update st.val (i, .inr j) b := by
  funext ⟨i', p⟩
  by_cases hi : i' = i
  · subst hi
    have ht' : ((st.setEntry i' j b).din i').type ≠ 0 := ht
    cases p with
    | inl j' =>
      have hne : (i', (Sum.inl j' : Place)) ≠ (i', .inr j) := by simp
      rw [update_of_ne hne, val_inl ht, val_inl ht']
      rfl
    | inr e =>
      have hind : (st.setEntry i' j b).ind i' = st.ind i' := rfl
      have hdata : (st.setEntry i' j b).data (st.ind i') = (st.data (st.ind i')).setWord j b :=
        update_self ..
      rw [val_inr ht', hind, if_neg h0, hdata]
      by_cases hej : e = j
      · subst hej
        rw [update_self, Block.word_setWord_of_lt _ _ hb]
      · have hne : (i', (Sum.inr e : Place)) ≠ (i', .inr j) := by simpa using hej
        have hval : e.val ≠ j.val := fun heq => hej (Fin.ext heq)
        rw [update_of_ne hne, val_inr ht, if_neg h0, Block.word_setWord_ne _ _ hval]
  · have hne : (i', p) ≠ (i, (Sum.inr j : Place)) := by
      intro heq
      exact hi (congrArg Prod.fst heq)
    rw [update_of_ne hne]
    apply val_congr st (st.setEntry i j b) rfl
    intro ht' h0'
    exact update_of_ne (h.ind_ne hi ht ht' h0') ..

/-- Replace disk inode `i`. -/
def setDin (st : Store) (i : ℕ) (d : Dinode) : Store := { st with din := Function.update st.din i d }

@[simp] theorem setDin_din_self (d : Dinode) : (st.setDin i d).din i = d := update_self ..

theorem setDin_din_ne {j : ℕ} (h : j ≠ i) (d : Dinode) : (st.setDin i d).din j = st.din j :=
  update_of_ne h ..

variable {d : Dinode}

theorem val_setDin (ht : d.type = (st.din i).type) (ha : d.addrs = (st.din i).addrs) :
    (st.setDin i d).val = st.val := by
  funext ⟨j, p⟩
  by_cases hj : j = i
  · subst hj
    simp only [val, ind, setDin_din_self, ht, ha]
    rfl
  · exact val_congr st (st.setDin i d) (setDin_din_ne hj d) (fun _ _ => rfl) p

theorem content_setDin (ht : d.type = (st.din i).type) (ha : d.addrs = (st.din i).addrs) :
    (st.setDin i d).content = st.content := by
  funext j off
  simp only [content, val_setDin ht ha]
  rfl

/-! ## Stores that differ in the blocks of one inode -/

/-- Between `st` and `st'` inode `i` got blocks and its content may have changed, and nothing else. -/
structure Edit (st st' : Store) (i : ℕ) : Prop where
  din_ne : ∀ j ≠ i, st'.din j = st.din j
  din : ∃ a, st'.din i = { st.din i with addrs := a }
  val : ∀ x, st.val x ≠ 0 → st'.val x = st.val x
  val_ne : ∀ j ≠ i, ∀ p, st'.val (j, p) = st.val (j, p)
  content_ne : ∀ j ≠ i, ∀ off, st'.content j off = st.content j off
  used : ∀ c, st.used c = true → st'.used c = true

/-- `st'` is `st` with blocks of zeros given to inode `i`. -/
structure Ext (st st' : Store) (i : ℕ) : Prop extends Edit st st' i where
  content : ∀ off, st'.content i off = st.content i off

variable {st₁ st₂ st₃ : Store}

theorem Edit.trans (h : Edit st₁ st₂ i) (h' : Edit st₂ st₃ i) : Edit st₁ st₃ i where
  din_ne j hj := (h'.din_ne j hj).trans (h.din_ne j hj)
  din := by
    obtain ⟨a, ha⟩ := h.din
    obtain ⟨a', ha'⟩ := h'.din
    exact ⟨a', by rw [ha', ha]⟩
  val x hx := by rw [h'.val x (by rwa [h.val x hx]), h.val x hx]
  val_ne j hj p := (h'.val_ne j hj p).trans (h.val_ne j hj p)
  content_ne j hj off := (h'.content_ne j hj off).trans (h.content_ne j hj off)
  used c hc := h'.used c (h.used c hc)

theorem Ext.refl (st : Store) (i : ℕ) : Ext st st i where
  din_ne _ _ := rfl
  din := ⟨_, rfl⟩
  val _ _ := rfl
  val_ne _ _ _ := rfl
  content_ne _ _ _ := rfl
  used _ h := h
  content _ := rfl

theorem Ext.trans (h : Ext st₁ st₂ i) (h' : Ext st₂ st₃ i) : Ext st₁ st₃ i where
  toEdit := h.toEdit.trans h'.toEdit
  content off := (h'.content off).trans (h.content off)

variable {st' : Store}

theorem Edit.type (h : Edit st st' i) : (st'.din i).type = (st.din i).type := by
  obtain ⟨a, ha⟩ := h.din
  rw [ha]

end Store

namespace Own

variable {sb : Superblock} {st : Store} {i b : ℕ}

section

variable (h : Own sb st) (hb : sb.IsData b) (hu : st.used b = false)

include h hb hu

theorem fill {st' : Store} {p : Place}
    (h0 : st.val (i, p) = 0) (hval : st'.val = update st.val (i, p) b)
    (hused : st'.used = update st.used b true)
    (hne : ∀ j ≠ i, st'.din j = st.din j) (hdin : ∃ a, st'.din i = { st.din i with addrs := a })
    (hzero : st'.data b = zeroBlock)
    (hdata : ∀ j bn, st.val (j, filePlace bn) ≠ 0 →
      st'.data (st.val (j, filePlace bn)) = st.data (st.val (j, filePlace bn))) :
    Own sb st' ∧ Store.Ext st st' i ∧ st'.val (i, p) = b := by
  have hval_ne : ∀ x, x ≠ (i, p) → st'.val x = st.val x := fun x hx => by
    rw [hval, update_of_ne hx]
  have hcontent : ∀ j off, st'.content j off = st.content j off := by
    intro j off
    apply Store.content_congr
    intro bn
    by_cases hx : (j, filePlace bn) = (i, p)
    · right
      rw [hx, hval, update_self]
      exact ⟨h0, hzero⟩
    · left
      exact ⟨hval_ne _ hx, hdata j bn⟩
  refine ⟨⟨?_, ?_⟩, ⟨⟨hne, hdin, ?_, ?_, fun j _ => hcontent j, ?_⟩, hcontent i⟩, ?_⟩
  · rw [hval, hused]
    exact h.owns.alloc h0 hb hu
  · intro c hc
    rw [hused, update_of_ne (by have := hb.1; omega)]
    exact h.low c hc
  · intro x hx
    apply hval_ne
    rintro rfl
    exact hx h0
  · intro j hj q
    apply hval_ne
    intro heq
    exact hj (congrArg Prod.fst heq)
  · intro c hc
    rw [hused]
    by_cases hcb : c = b
    · rw [hcb, update_self]
    · rw [update_of_ne hcb, hc]
  · rw [hval, update_self]

variable {j : Fin (NDIRECT + 1)}

theorem val_setAddr_take (hlt : b < 2 ^ 32) (ht : (st.din i).type ≠ 0) (h0 : (st.din i).addrs j = 0) :
    ((st.take b).setAddr i j b).val = update st.val (i, .inl j) b := by
  rw [Store.val_setAddr (by exact ht) hlt, Store.val_take h hb hu]
  intro hj
  refine ⟨?_, update_self ..⟩
  subst hj
  change ((st.din i).addrs indirect).toNat = 0
  rw [h0]
  rfl

theorem setAddr_take (hlt : b < 2 ^ 32) (ht : (st.din i).type ≠ 0) (h0 : (st.din i).addrs j = 0) :
    Own sb ((st.take b).setAddr i j b) ∧ Store.Ext st ((st.take b).setAddr i j b) i ∧
      ((st.take b).setAddr i j b).val (i, .inl j) = b := by
  apply h.fill hb hu
  · rw [Store.val_inl ht, h0]
    rfl
  · exact h.val_setAddr_take hb hu hlt ht h0
  · rfl
  · intro k hk
    exact update_of_ne hk ..
  · exact ⟨_, update_self ..⟩
  · exact update_self ..
  · intro k bn hk
    exact update_of_ne (h.owns.val_ne hb hu _) ..

theorem setEntry_take_eq (ht : (st.din i).type ≠ 0) (j : ℕ) : { st.take b with
      data := update (st.take b).data (st.ind i) ((st.data (st.ind i)).setWord j b) } =
      (st.setEntry i j b).take b := by
  have hne : st.ind i ≠ b := h.ind_ne_unused ht hb hu
  simp only [Store.setEntry, Store.take, Store.mk.injEq, true_and]
  exact update_comm hne.symm ..

theorem val_setEntry_take (hlt : b < 2 ^ 32)
    (ht : (st.din i).type ≠ 0) (hind : st.ind i ≠ 0) (j : Fin NINDIRECT) :
    ((st.setEntry i j b).take b).val = update st.val (i, .inr j) b := by
  funext ⟨i', p⟩
  rw [← Store.val_setEntry h ht hind j hlt]
  apply Store.val_congr (st.setEntry i j b) ((st.setEntry i j b).take b) rfl
  intro ht' _
  exact update_of_ne (h.ind_ne_unused (i := i') ht' hb hu) ..

theorem setEntry_take (hlt : b < 2 ^ 32)
    (ht : (st.din i).type ≠ 0) (hind : st.ind i ≠ 0) {j : Fin NINDIRECT}
    (h0 : (st.data (st.ind i)).word j = 0) : let st' := { st.take b with
      data := update (st.take b).data (st.ind i) ((st.data (st.ind i)).setWord j b) }
    Own sb st' ∧ Store.Ext st st' i ∧ st'.val (i, .inr j) = b := by
  intro st'
  have heq : st' = (st.setEntry i j b).take b := h.setEntry_take_eq hb hu ht j
  have hval : st'.val = update st.val (i, .inr j) b := by
    rw [heq]
    exact h.val_setEntry_take hb hu hlt ht hind j
  apply h.fill hb hu _ hval
  · rfl
  · intro k _
    rfl
  · exact ⟨_, rfl⟩
  · rw [heq]
    exact update_self ..
  · intro k bn hk
    rw [heq]
    have h1 : st.val (k, filePlace bn) ≠ b := h.owns.val_ne hb hu _
    have h2 : st.val (k, filePlace bn) ≠ st.ind i := h.ind_ne_file ht hk
    calc ((st.setEntry i j b).take b).data (st.val (k, filePlace bn))
        = (st.setEntry i j b).data (st.val (k, filePlace bn)) := update_of_ne h1 ..
      _ = st.data (st.val (k, filePlace bn)) := update_of_ne h2 ..
  · rw [Store.val_inr ht, if_neg hind, h0]

end

theorem setDin (h : Own sb st) {d : Dinode} (ht : d.type = (st.din i).type)
    (ha : d.addrs = (st.din i).addrs) : Own sb (st.setDin i d) :=
  ⟨by rw [Store.val_setDin ht ha]; exact h.owns, h.low⟩

theorem write (h : Own sb st) {bn : ℕ} (hbn : bn < MAXFILE) (h0 : st.val (i, filePlace bn) ≠ 0)
    (blk : Block) : let st' := { st with data := update st.data (st.val (i, filePlace bn)) blk }
    Own sb st' ∧ Store.Edit st st' i ∧ st'.val = st.val ∧ ∀ off < MAXFILE * BSIZE, st'.content i off =
        if off / BSIZE = bn then blk (off % BSIZE) else st.content i off := by
  intro st'
  have hval : st'.val = st.val := by
    funext ⟨j, p⟩
    apply Store.val_congr st st' rfl
    intro htj _
    exact update_of_ne (h.ind_ne_file htj h0).symm ..
  -- another block of a file is another data block
  have hdata : ∀ j bm, (j, filePlace bm) ≠ (i, filePlace bn) → st.val (j, filePlace bm) ≠ 0 →
      st'.data (st.val (j, filePlace bm)) = st.data (st.val (j, filePlace bm)) := by
    intro j bm hne hm
    apply update_of_ne
    intro heq
    exact hne (h.owns.inj _ _ hm heq)
  refine ⟨⟨by rw [hval]; exact h.owns, h.low⟩,
    ⟨fun _ _ => rfl, ⟨_, rfl⟩, fun x _ => by rw [hval], fun j _ p => by rw [hval], ?_, fun _ hc => hc⟩,
    hval, ?_⟩
  · intro j hj off
    apply Store.content_congr
    intro bm
    left
    refine ⟨by rw [hval], hdata j bm fun heq => hj (congrArg Prod.fst heq)⟩
  · intro off hoff
    have hlt := div_lt_maxfile hoff
    by_cases heq : off / BSIZE = bn
    · have hself : st'.data (st.val (i, filePlace bn)) = blk := update_self ..
      simp only [Store.content, hval, heq, if_neg h0, hself, if_true]
    · rw [if_neg heq]
      simp only [Store.content, hval]
      split
      · rfl
      · next hne =>
        rw [hdata i _ _ hne]
        intro hp
        exact heq (filePlace_inj hlt hbn (congrArg Prod.snd hp))

end Own

end Xv6.Fs
