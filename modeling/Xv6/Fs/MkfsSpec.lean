import Xv6.Fs.Mkfs
import Xv6.Fs.DirSpec

/-!
# What mkfs writes

`mkfs` gives blocks to files in order and marks them in the bit map only at the end. Seen as a `Store`
whose blocks in use are those below `freeblock`, the image satisfies the kernel's ownership invariant after
every step. `Rep` says which file contents an image holds; `ialloc` and `iappend` change the list of
contents, and use as many blocks as `blocks` says.
-/

namespace Xv6.Fs.Mkfs

open Lib List Function Store
open UInt32

variable {E : Unit → Prop} {s s' : Image} {i : ℕ} {d d' : Dinode}

theorem sb_valid : sb.Valid where
  root := by decide
  inodes i hi := by
    change i < 200 at hi
    change i / 16 + 32 < 45
    omega
  bitmap b hb := by
    change b < 2000 at hb
    change b / 8192 + 45 < 46
    omega
  size_lt := by decide

theorem isData_iff {b : ℕ} : sb.IsData b ↔ nmeta ≤ b ∧ b < FSSIZE := Iff.rfl

/-- The meaning of an image whose blocks below `freeblock` are in use. -/
def store (s : Image) : Store := { sb.abs s.disk with used := fun b => decide (b < s.freeblock) }

/-- The same with a disk inode that has not been written back. -/
def view (s : Image) (i : ℕ) (d : Dinode) : Store := (store s).setDin i d

theorem view_din_self (s : Image) (i : ℕ) (d : Dinode) : (view s i d).din i = d := setDin_din_self d

/-- Blocks that are not in use are within the data blocks and hold zeros. -/
structure Fresh (s : Image) : Prop where
  clean : ∀ b, s.freeblock ≤ b → s.disk b = zeroBlock
  low : nmeta ≤ s.freeblock

theorem Fresh.view_next (h : Fresh s) (hlt : s.freeblock < FSSIZE) (i : ℕ) (d : Dinode) :
    view { s with freeblock := s.freeblock + 1 } i d = (view s i d).take s.freeblock := by
  have hused : (fun b => decide (b < s.freeblock + 1)) =
      update (fun b => decide (b < s.freeblock)) s.freeblock true := by
    funext b
    by_cases hb : b = s.freeblock
    · rw [hb, update_self]
      exact decide_eq_true (Nat.lt_succ_self _)
    · rw [update_of_ne hb, decide_eq_decide]
      omega
  have hdata : (sb.abs s.disk).data = update (sb.abs s.disk).data s.freeblock zeroBlock := by
    rw [eq_update_self_iff]
    change (if sb.IsData s.freeblock then s.disk s.freeblock else zeroBlock) = zeroBlock
    rw [if_pos (isData_iff.mpr ⟨h.low, hlt⟩), h.clean _ (Nat.le_refl _)]
  apply Store.ext
  · exact hused
  · rfl
  · exact hdata

theorem Fresh.next (h : Fresh s) : Fresh { s with freeblock := s.freeblock + 1 } :=
  ⟨fun b hb => h.clean b (Nat.le_of_succ_le hb), Nat.le_succ_of_le h.low⟩

theorem used_freeblock (s : Image) (i : ℕ) (d : Dinode) : (view s i d).used s.freeblock = false :=
  decide_eq_false (Nat.lt_irrefl _)

/-- Inode `i` got new blocks of zeros, and nothing else changed. -/
structure Grown (i : ℕ) (s : Image) (d : Dinode) (s' : Image) (d' : Dinode) : Prop where
  own : Own sb (view s' i d')
  ext : Store.Ext (view s i d) (view s' i d') i
  fresh : Fresh s'
  freeinode : s'.freeinode = s.freeinode
  kept : ∀ b < nmeta, s'.disk b = s.disk b

theorem Grown.refl (hown : Own sb (view s i d)) (h : Fresh s) : Grown i s d s d :=
  ⟨hown, Store.Ext.refl _ _, h, rfl, fun _ _ => rfl⟩

variable {d'' : Dinode} {s'' : Image}

theorem Grown.trans (h : Grown i s d s' d') (h' : Grown i s' d' s'' d'') : Grown i s d s'' d'' :=
  ⟨h'.own, h.ext.trans h'.ext, h'.fresh, h'.freeinode.trans h.freeinode,
    fun b hb => (h'.kept b hb).trans (h.kept b hb)⟩

theorem Grown.type (h : Grown i s d s' d') : d'.type = d.type := by
  have htype := h.ext.type
  rwa [view_din_self, view_din_self] at htype

/-- One more, if the condition holds. -/
abbrev cost (cs : Prop) [Decidable cs] : ℕ := if cs then 1 else 0

theorem addrOrNext_spec (hown : Own sb (view s i d)) (h : Fresh s) (ht : d.type ≠ 0)
    (j : Fin (NDIRECT + 1)) (hroom : s.freeblock + cost (d.addrs j = 0) ≤ FSSIZE) :
    wp (addrOrNext d j) E s fun d' s' =>
      Grown i s d s' d' ∧ d'.addrs j ≠ 0 ∧ s'.freeblock = s.freeblock + cost (d.addrs j = 0) ∧
      s'.disk = s.disk ∧ ∀ p, p ≠ .inl j → (view s' i d').val (i, p) = (view s i d).val (i, p) := by
  have hview : ((view s i d).din i).type ≠ 0 := by rwa [view_din_self]
  unfold addrOrNext
  by_cases h0 : d.addrs j = 0
  · rw [cost, if_pos h0] at hroom ⊢
    have hlt : s.freeblock < FSSIZE := hroom
    have hdata : sb.IsData s.freeblock := isData_iff.mpr ⟨h.low, hlt⟩
    have h32 : s.freeblock < 2 ^ 32 := Nat.lt_trans hlt (by decide)
    rw [if_pos h0]
    simp only [nextBlock, wp_bind, wp_get, wp_modify, wp_pure, assign_eq_update]
    have haddr : ((view s i d).din i).addrs j = 0 := by rwa [view_din_self]
    obtain ⟨hown', hext, -⟩ := hown.setAddr_take hdata (used_freeblock s i d) h32 hview haddr
    have hval := hown.val_setAddr_take hdata (used_freeblock s i d) h32 hview haddr
    have heq : view { s with freeblock := s.freeblock + 1 } i
        { d with addrs := update d.addrs j (ofNat s.freeblock) } =
        ((view s i d).take s.freeblock).setAddr i j s.freeblock := by
      have hd : ((view s i d).take s.freeblock).din i = d := view_din_self s i d
      rw [h.view_next hlt, setAddr, hd]
      apply Store.ext
      · rfl
      · exact (update_idem ..).symm
      · rfl
    rw [← heq] at hown' hext hval
    refine ⟨⟨hown', hext, h.next, rfl, fun _ _ => rfl⟩, ?_, trivial, trivial, fun p hp => ?_⟩
    · rw [update_self]
      intro hz
      have hnat := congrArg UInt32.toNat hz
      rw [toNat_ofNat_of_lt' h32] at hnat
      exact sb_valid.pos_of_isData hdata hnat
    · rw [hval, update_of_ne]
      intro hpair
      exact hp (congrArg Prod.snd hpair)
  · rw [if_neg h0, wp_pure, cost, if_neg h0]
    exact ⟨Grown.refl hown h, h0, rfl, rfl, fun _ _ => rfl⟩

theorem lt_freeblock {s : Image} {i : ℕ} {d : Dinode} (hown : Own sb (view s i d)) {x : ℕ × Place}
    (hx : (view s i d).val x ≠ 0) : (view s i d).val x < s.freeblock ∧ (view s i d).val x < FSSIZE := by
  obtain ⟨hdata, hused⟩ := hown.owns.owned x hx
  exact ⟨of_decide_eq_true hused, hdata.2⟩

theorem entryOrNext_spec (hown : Own sb (view s i d)) (h : Fresh s) (ht : d.type ≠ 0)
    (h0 : d.addrs indirect ≠ 0) (j : Fin NINDIRECT)
    (hroom : s.freeblock + cost ((view s i d).val (i, .inr j) = 0) ≤ FSSIZE) : wp (do
      let ind ← rsect (d.addrs indirect).toNat
      if ind.word j = 0 then do
        let b ← nextBlock
        wsect (d.addrs indirect).toNat (ind.setWord j b)
        return (d, b)
      else return (d, ind.word j)) E s fun r s' =>
      r.1 = d ∧ Grown i s d s' d ∧ r.2 ≠ 0 ∧ (view s' i d).val (i, .inr j) = r.2 ∧
      s'.freeblock = s.freeblock + cost ((view s i d).val (i, .inr j) = 0) ∧
      ∀ p, p ≠ .inr j → (view s' i d).val (i, p) = (view s i d).val (i, p) := by
  have hview : ((view s i d).din i).type ≠ 0 := by rwa [view_din_self]
  have hind : (view s i d).ind i = (d.addrs indirect).toNat := by rw [Store.ind, view_din_self]
  have hne : (d.addrs indirect).toNat ≠ 0 := fun hz => h0 (UInt32.toNat_inj.mp hz)
  have hplace : (view s i d).val (i, .inl indirect) = (d.addrs indirect).toNat := by
    rw [val_indirect hview, hind]
  generalize haddr : (d.addrs indirect).toNat = addr at *
  have hne' : (view s i d).val (i, .inl indirect) ≠ 0 := by rwa [hplace]
  have hisData : sb.IsData addr := hplace ▸ hown.isData_val hne'
  obtain ⟨hlow, hsize⟩ := lt_freeblock hown hne'
  rw [hplace] at hlow hsize
  have hdata : (view s i d).data addr = s.disk addr := if_pos hisData
  have hval : (view s i d).val (i, .inr j) = (s.disk addr).word j := by
    rw [val_inr hview, hind, if_neg hne, hdata]
  rw [hval] at hroom ⊢
  simp only [rsect, wp_bind, wp_get, if_pos hsize, wp_pure]
  by_cases hw : (s.disk addr).word j = 0
  · rw [cost, if_pos hw] at hroom ⊢
    have hlt : s.freeblock < FSSIZE := hroom
    have hfree : sb.IsData s.freeblock := isData_iff.mpr ⟨h.low, hlt⟩
    have h32 : s.freeblock < 2 ^ 32 := Nat.lt_trans hlt (by decide)
    rw [if_pos hw]
    simp only [nextBlock, wsect, wp_bind, wp_get, wp_modify, wp_pure, assign_eq_update]
    obtain ⟨hown', hext, -⟩ := hown.setEntry_take hfree (used_freeblock s i d) h32 hview
      (by rwa [hind]) (j := j) (by rwa [hind, hdata])
    have hval' := hown.val_setEntry_take hfree (used_freeblock s i d) h32 hview (by rwa [hind]) j
    rw [← hown.setEntry_take_eq hfree (used_freeblock s i d) hview] at hval'
    have heq : view ⟨update s.disk addr ((s.disk addr).setWord j s.freeblock), s.freeinode,
        s.freeblock + 1⟩ i d = { (view s i d).take s.freeblock with
          data := update ((view s i d).take s.freeblock).data ((view s i d).ind i)
            (((view s i d).data ((view s i d).ind i)).setWord j s.freeblock) } := by
      rw [hind, hdata, ← h.view_next hlt]
      unfold view store
      rw [sb_valid.abs_update _ hisData]
      rfl
    rw [← heq] at hown' hext hval'
    refine ⟨trivial, ⟨hown', hext, ⟨fun b hb => ?_, Nat.le_succ_of_le h.low⟩, rfl, fun b hb => ?_⟩,
      sb_valid.pos_of_isData hfree, ?_, trivial, fun p hp => ?_⟩
    · change update s.disk addr _ b = zeroBlock
      rw [update_of_ne]
      · exact h.clean b (Nat.le_of_succ_le hb)
      · change s.freeblock + 1 ≤ b at hb
        omega
    · change update s.disk addr _ b = s.disk b
      rw [update_of_ne]
      rintro rfl
      exact absurd (isData_iff.mp hisData).1 (Nat.not_le_of_lt hb)
    · rw [hval', update_self]
    · rw [hval', update_of_ne]
      intro hpair
      exact hp (congrArg Prod.snd hpair)
  · rw [if_neg hw, wp_pure, cost, if_neg hw]
    exact ⟨rfl, Grown.refl hown h, hw, hval, rfl, fun _ _ => rfl⟩

theorem appendBlock_spec (hown : Own sb (view s i d)) (h : Fresh s) (ht : d.type ≠ 0) {fbn : ℕ}
    (hfbn : fbn < MAXFILE) (hroom : s.freeblock + cost (¬ fbn < NDIRECT ∧ d.addrs indirect = 0) +
      cost ((view s i d).val (i, filePlace fbn) = 0) ≤ FSSIZE) : wp (appendBlock d fbn) E s fun r s' =>
      Grown i s d s' r.1 ∧ r.2 ≠ 0 ∧ (view s' i r.1).val (i, filePlace fbn) = r.2 ∧
      s'.freeblock = s.freeblock + cost (¬ fbn < NDIRECT ∧ d.addrs indirect = 0) +
        cost ((view s i d).val (i, filePlace fbn) = 0) ∧
      (∀ p, p ≠ filePlace fbn → p ≠ .inl indirect →
        (view s' i r.1).val (i, p) = (view s i d).val (i, p)) ∧
      (r.1.addrs indirect = 0 ↔ fbn < NDIRECT ∧ d.addrs indirect = 0) := by
  have hview : ((view s i d).din i).type ≠ 0 := by rwa [view_din_self]
  unfold appendBlock
  by_cases hd : fbn < NDIRECT
  · have hplace : filePlace fbn = .inl (Fin.ofNat _ fbn) := if_pos hd
    have hiff : (view s i d).val (i, filePlace fbn) = 0 ↔ d.addrs (Fin.ofNat _ fbn) = 0 := by
      rw [hplace, val_inl hview, view_din_self]
      exact ⟨fun hz => UInt32.toNat_inj.mp hz, fun hz => by rw [hz]; rfl⟩
    have hcost : cost (¬ fbn < NDIRECT ∧ d.addrs indirect = 0) = 0 := if_neg fun hc => hc.1 hd
    simp only [hcost, hiff, Nat.add_zero] at hroom ⊢
    rw [if_pos hd, wp_bind]
    apply (addrOrNext_spec hown h ht _ hroom).mono
    rintro d' s' ⟨hgrown, hne, hblk, -, hother⟩
    have hview' : ((view s' i d').din i).type ≠ 0 := by rwa [view_din_self, hgrown.type]
    rw [wp_pure]
    refine ⟨hgrown, fun hz => hne (UInt32.toNat_inj.mp hz), ?_, hblk, fun p hp _ => ?_, ?_⟩
    · rw [hplace, val_inl hview', view_din_self]
    · exact hother p (hplace ▸ hp)
    · have hind := hother (.inl indirect) fun heq => filePlace_ne_indirect fbn (hplace.trans heq.symm)
      rw [val_inl hview, val_inl hview', view_din_self, view_din_self, UInt32.toNat_inj] at hind
      rw [hind]
      exact ⟨fun hz => ⟨hd, hz⟩, fun hz => hz.2⟩
  · have hin : fbn - NDIRECT < NINDIRECT := by
      simp only [MAXFILE, NDIRECT, NINDIRECT] at *
      omega
    have hj : ((Fin.ofNat NINDIRECT (fbn - NDIRECT) : Fin NINDIRECT) : ℕ) = fbn - NDIRECT :=
      Nat.mod_eq_of_lt hin
    have hplace : filePlace fbn = .inr (Fin.ofNat _ (fbn - NDIRECT)) := if_neg hd
    have hcost : cost (¬ fbn < NDIRECT ∧ d.addrs indirect = 0) = cost (d.addrs indirect = 0) := by
      simp only [hd, not_false_eq_true, true_and]
    rw [hcost] at hroom ⊢
    rw [hplace] at hroom ⊢
    rw [if_neg hd, wp_bind]
    apply (addrOrNext_spec hown h ht indirect (Nat.le_trans (Nat.le_add_right ..) hroom)).mono
    rintro d1 s1 ⟨hgrown, hne, hblk, -, hother⟩
    have hsame := hother (.inr (Fin.ofNat _ (fbn - NDIRECT))) nofun
    rw [← hblk, ← hsame] at hroom
    have hentry := entryOrNext_spec (E := E) hgrown.own hgrown.fresh (by rwa [hgrown.type]) hne
      (Fin.ofNat NINDIRECT (fbn - NDIRECT)) hroom
    simp only [hj] at hentry
    apply hentry.mono
    rintro ⟨d', x⟩ s' ⟨rfl, hgrown', hx, hval, hblk', hother'⟩
    dsimp only at hx hval ⊢
    refine ⟨hgrown.trans hgrown', hx, hval, ?_, fun p hp hpi => ?_, ?_⟩
    · rw [hblk', hblk, hsame]
    · rw [hother' p hp, hother p hpi]
    · exact ⟨fun hz => absurd hz hne, fun hz => absurd hz.1 hd⟩

/-! ## Appending -/

/-- The blocks that `n` bytes take, with the indirect block. -/
def blocks (n : ℕ) : ℕ := (n + BSIZE - 1) / BSIZE + cost (NDIRECT * BSIZE < n)

/-- Inode `i` holds the bytes `bs`, zeros behind them, and no more blocks than it needs. -/
structure Written (st : Store) (i : ℕ) (bs : List UInt8) : Prop where
  type : (st.din i).type ≠ 0
  place : ∀ bn < MAXFILE, st.val (i, filePlace bn) ≠ 0 ↔ bn * BSIZE < bs.length
  ind : (st.din i).addrs indirect ≠ 0 ↔ NDIRECT * BSIZE < bs.length
  content : ∀ o < MAXFILE * BSIZE, st.content i o = bs.getD o 0

variable {n : ℕ}

theorem blocks_add {off : ℕ} (hn : 0 < n) (hle : n ≤ BSIZE - off % BSIZE) :
    blocks (off + n) = blocks off + cost (¬ off / BSIZE < NDIRECT ∧ off = NDIRECT * BSIZE) +
      cost (off % BSIZE = 0) := by
  simp only [blocks, cost, BSIZE, NDIRECT] at *
  split <;> split <;> split <;> split <;> omega

theorem getD_append (bs q : List UInt8) (o : ℕ) : (bs ++ q).getD o 0 =
    if bs.length ≤ o ∧ o < bs.length + q.length then q.getD (o - bs.length) 0 else bs.getD o 0 := by
  by_cases hlt : o < bs.length
  · rw [if_neg (by omega), List.getD_append _ _ _ _ hlt]
  · rw [getD_append_right _ _ _ _ (Nat.le_of_not_lt hlt)]
    split
    · rfl
    · rw [getD_eq_default _ _ (by omega), getD_eq_default _ _ (by omega)]

/-- Inode `i` got blocks and content, and nothing else changed. -/
structure Appended (i : ℕ) (s : Image) (d : Dinode) (s' : Image) (d' : Dinode) : Prop where
  own : Own sb (view s' i d')
  edit : Store.Edit (view s i d) (view s' i d') i
  fresh : Fresh s'
  freeinode : s'.freeinode = s.freeinode
  kept : ∀ b < nmeta, s'.disk b = s.disk b

theorem Appended.trans (h : Appended i s d s' d') (h' : Appended i s' d' s'' d'') :
    Appended i s d s'' d'' :=
  ⟨h'.own, h.edit.trans h'.edit, h'.fresh, h'.freeinode.trans h.freeinode,
    fun b hb => (h'.kept b hb).trans (h.kept b hb)⟩

variable {bs : List UInt8}

theorem Grown.write (h : Grown i s d s' d') {q : List UInt8} {x : ℕ} (hw : Written (view s i d) i bs)
    (hq : q ≠ []) (hle : q.length ≤ BSIZE - bs.length % BSIZE)
    (hmax : bs.length + q.length ≤ MAXFILE * BSIZE) (hx : x ≠ 0)
    (hval : (view s' i d').val (i, filePlace (bs.length / BSIZE)) = x)
    (hother : ∀ p, p ≠ filePlace (bs.length / BSIZE) → p ≠ .inl indirect →
      (view s' i d').val (i, p) = (view s i d).val (i, p))
    (hind : d'.addrs indirect = 0 ↔ bs.length / BSIZE < NDIRECT ∧ d.addrs indirect = 0) :
    let s'' := { s' with
      disk := update s'.disk x ((s'.disk x).store (bs.length % BSIZE) q) }
    Appended i s d s'' d' ∧ Written (view s'' i d') i (bs ++ q) := by
  intro s''
  have hqpos : 0 < q.length := length_pos_iff.mpr hq
  have hbn : bs.length / BSIZE < MAXFILE := div_lt_maxfile (by omega)
  have hx' : (view s' i d').val (i, filePlace (bs.length / BSIZE)) ≠ 0 := by rwa [hval]
  have hisData : sb.IsData x := hval ▸ h.own.isData_val hx'
  have hdata : (view s' i d').data x = s'.disk x := if_pos hisData
  obtain ⟨hlow, -⟩ := lt_freeblock h.own hx'
  rw [hval] at hlow
  obtain ⟨hown, hedit, hval'', hcontent⟩ := h.own.write hbn hx'
    ((s'.disk x).store (bs.length % BSIZE) q)
  have heq : view s'' i d' = { view s' i d' with
      data := update (view s' i d').data ((view s' i d').val (i, filePlace (bs.length / BSIZE)))
        ((s'.disk x).store (bs.length % BSIZE) q) } := by
    rw [hval]
    unfold view store
    rw [sb_valid.abs_update _ hisData]
    rfl
  rw [← heq] at hown hedit hval'' hcontent
  refine ⟨⟨hown, h.ext.toEdit.trans hedit, ⟨fun b hb => ?_, h.fresh.low⟩, h.freeinode, fun b hb => ?_⟩,
    ⟨?_, fun bn hlt => ?_, ?_, fun o ho => ?_⟩⟩
  · change update s'.disk x _ b = zeroBlock
    rw [update_of_ne]
    · exact h.fresh.clean b hb
    · change s'.freeblock ≤ b at hb
      omega
  · change update s'.disk x _ b = s.disk b
    rw [update_of_ne, h.kept b hb]
    rintro rfl
    exact absurd (isData_iff.mp hisData).1 (Nat.not_le_of_lt hb)
  · rw [view_din_self, h.type]
    have htype := hw.type
    rwa [view_din_self] at htype
  · rw [hval'', length_append]
    by_cases heqb : bn = bs.length / BSIZE
    · rw [heqb]
      refine iff_of_true hx' ?_
      have hdiv := Nat.div_mul_le_self bs.length BSIZE
      omega
    · rw [hother _ (fun hp => heqb (filePlace_inj hlt hbn hp)) (filePlace_ne_indirect bn), hw.place bn hlt]
      simp only [BSIZE] at *
      omega
  · rw [view_din_self, Ne, hind, length_append]
    have hold := hw.ind
    rw [view_din_self] at hold
    simp only [BSIZE, NDIRECT] at *
    by_cases h12 : bs.length / 1024 < 12
    · have hzero : d.addrs indirect = 0 := by
        by_contra hne
        have hbig := hold.mp hne
        omega
      exact iff_of_false (fun hc => hc ⟨h12, hzero⟩) (by omega)
    · exact iff_of_true (fun hc => h12 hc.1) (by omega)
  · rw [hcontent o ho, ← hdata, Store.content_store hval hx rfl hle, h.ext.content, hw.content o ho,
      getD_append]

theorem iappendLoop_spec (f : ℕ) {p : List UInt8} (hown : Own sb (view s i d)) (h : Fresh s)
    (hw : Written (view s i d) i bs) (hf : p.length ≤ f) (hmax : bs.length + p.length ≤ MAXFILE * BSIZE)
    (hroom : s.freeblock + blocks (bs.length + p.length) ≤ FSSIZE + blocks bs.length) :
    wp (iappendLoop f d bs.length p) E s fun r s' =>
      Appended i s d s' r.1 ∧ Written (view s' i r.1) i (bs ++ p) ∧ r.2 = bs.length + p.length ∧
      s'.freeblock + blocks bs.length = s.freeblock + blocks (bs.length + p.length) := by
  induction f generalizing s d bs p with
  | zero =>
    obtain rfl : p = [] := eq_nil_of_length_eq_zero (Nat.le_zero.mp hf)
    rw [iappendLoop, wp_pure, append_nil]
    exact ⟨⟨hown, (Store.Ext.refl _ _).toEdit, h, rfl, fun _ _ => rfl⟩, hw, rfl, rfl⟩
  | succ f ih =>
    rw [iappendLoop]
    by_cases hp : p = []
    · subst hp
      rw [if_pos rfl, wp_pure, append_nil]
      exact ⟨⟨hown, (Store.Ext.refl _ _).toEdit, h, rfl, fun _ _ => rfl⟩, hw, rfl, rfl⟩
    have hpos : 0 < p.length := length_pos_iff.mpr hp
    have hbn : bs.length / BSIZE < MAXFILE := div_lt_maxfile (by omega)
    rw [if_neg hp, if_pos hbn, wp_bind]
    have hmod : bs.length % BSIZE < BSIZE := Nat.mod_lt _ (by decide)
    obtain ⟨n, hn⟩ : ∃ n, n = min p.length (BSIZE - bs.length % BSIZE) := ⟨_, rfl⟩
    have htake : (p.take n).length = n := by
      rw [length_take]
      omega
    -- which blocks are missing
    have hblk : (view s i d).val (i, filePlace (bs.length / BSIZE)) = 0 ↔ bs.length % BSIZE = 0 := by
      have hplace := hw.place _ hbn
      have hdiv := Nat.div_add_mod' bs.length BSIZE
      by_cases hz : bs.length % BSIZE = 0
      · exact iff_of_true (by by_contra hne; have hlt := hplace.mp hne; omega) hz
      · exact iff_of_false (hplace.mpr (by omega)) hz
    have hind : (¬ bs.length / BSIZE < NDIRECT ∧ d.addrs indirect = 0) ↔
        (¬ bs.length / BSIZE < NDIRECT ∧ bs.length = NDIRECT * BSIZE) := by
      have hold := hw.ind
      rw [view_din_self] at hold
      refine and_congr_right fun h12 => ?_
      simp only [BSIZE, NDIRECT] at *
      by_cases heq : bs.length = 12 * 1024
      · exact iff_of_true (by by_contra hne; have hlt := hold.mp hne; omega) heq
      · exact iff_of_false (hold.mpr (by omega)) heq
    have hstep : blocks (bs.length + n) =
        blocks bs.length + cost (¬ bs.length / BSIZE < NDIRECT ∧ bs.length = NDIRECT * BSIZE) +
          cost (bs.length % BSIZE = 0) := blocks_add (by omega) (by omega)
    have hcost : cost (¬ bs.length / BSIZE < NDIRECT ∧ d.addrs indirect = 0) +
        cost ((view s i d).val (i, filePlace (bs.length / BSIZE)) = 0) + blocks bs.length =
        blocks (bs.length + n) := by
      simp only [hblk, hind]
      omega
    have hmono : blocks (bs.length + n) ≤ blocks (bs.length + p.length) := by
      simp only [blocks, cost, BSIZE, NDIRECT]
      split <;> split <;> omega
    have htype := hw.type
    rw [view_din_self] at htype
    apply (appendBlock_spec hown h htype hbn (by omega)).mono
    rintro ⟨d1, x⟩ s1 ⟨hgrown, hx, hval, hfree, hother, hind1⟩
    dsimp only at hgrown hx hval hother hind1 ⊢
    obtain ⟨-, hsize⟩ := lt_freeblock hgrown.own (by rwa [hval])
    rw [hval] at hsize
    simp only [rsect, wsect, wp_bind, wp_get, if_pos hsize, wp_pure, wp_modify, assign_eq_update, ← hn]
    have hne : p.take n ≠ [] := by
      intro hnil
      rw [hnil, length_nil] at htake
      omega
    obtain ⟨happ, hw2⟩ := hgrown.write hw hne (by omega) (by omega) hx hval hother hind1
    have hlen2 : (bs ++ p.take n).length = bs.length + n := by rw [length_append, htake]
    have hdrop : (p.drop n).length = p.length - n := length_drop ..
    have hsum : bs.length + n + (p.length - n) = bs.length + p.length := by omega
    have hfree2 : s1.freeblock + blocks bs.length = s.freeblock + blocks (bs.length + n) := by omega
    have hrec := ih (p := p.drop n) happ.own happ.fresh hw2 (by omega)
      (by rw [hlen2, hdrop, hsum]; exact hmax)
      (by
        rw [hlen2, hdrop, hsum]
        change s1.freeblock + _ ≤ _
        omega)
    rw [hlen2, hdrop, hsum, append_assoc, take_append_drop] at hrec
    apply hrec.mono
    rintro ⟨d', off'⟩ s' ⟨happ', hw', hoff, hfree'⟩
    refine ⟨happ.trans happ', hw', hoff, ?_⟩
    change s'.freeblock + _ = s1.freeblock + _ at hfree'
    omega

/-! ## Whole images -/

theorem iblock_lt {i : ℕ} (hi : i < NINODES) : 2 + nlog ≤ sb.iblock i ∧ sb.iblock i < nmeta := by
  change i < 200 at hi
  change 32 ≤ i / 16 + 32 ∧ i / 16 + 32 < 46
  omega

theorem winode_spec (h : Fresh s) (hi : i < NINODES) (d : Dinode) :
    wp (winode i d) E s fun _ s' => store s' = view s i d ∧ Fresh s' ∧ s'.freeinode = s.freeinode ∧
      s'.freeblock = s.freeblock ∧ ∀ b < 2 + nlog, s'.disk b = s.disk b := by
  obtain ⟨hlow, hlt⟩ := iblock_lt hi
  have hsize : sb.iblock i < FSSIZE := Nat.lt_trans hlt (by decide)
  simp only [winode, rsect, wsect, wp_bind, wp_get, if_pos hsize, wp_pure, wp_modify, assign_eq_update]
  refine ⟨?_, ⟨fun b hb => ?_, h.low⟩, trivial, trivial, fun b hb => ?_⟩
  · unfold store
    rw [sb_valid.abs_putDinode _ hi]
    rfl
  · change update s.disk (sb.iblock i) _ b = zeroBlock
    rw [update_of_ne]
    · exact h.clean b hb
    · have hge : nmeta ≤ b := Nat.le_trans h.low hb
      omega
  · rw [update_of_ne]
    omega

theorem rinode_spec (hi : i < NINODES) :
    wp (rinode i) E s fun d s' => d = (store s).din i ∧ s' = s := by
  have hsize : sb.iblock i < FSSIZE := Nat.lt_trans (iblock_lt hi).2 (by decide)
  simp only [rinode, rsect, wp_bind, wp_get, if_pos hsize, wp_pure]
  refine ⟨?_, trivial⟩
  change _ = if i < NINODES then (s.disk (sb.iblock i)).getDinode (i % IPB) else .zero
  rw [if_pos hi]

/-- Inode `i` is the file of type `t` with the bytes `bs`. -/
structure File (st : Store) (i : ℕ) (t : UInt16) (bs : List UInt8) : Prop extends Written st i bs where
  type_eq : (st.din i).type = t
  size : (st.din i).size.toNat = bs.length

theorem File.congr {st st' : Store} {i : ℕ} {t : UInt16} (h : File st i t bs)
    (hdin : st'.din i = st.din i) (hval : ∀ p, st'.val (i, p) = st.val (i, p))
    (hcontent : ∀ o, st'.content i o = st.content i o) : File st' i t bs where
  type := by rw [hdin]; exact h.type
  place bn hbn := by rw [hval]; exact h.place bn hbn
  ind := by rw [hdin]; exact h.ind
  content o ho := by rw [hcontent]; exact h.content o ho
  type_eq := by rw [hdin]; exact h.type_eq
  size := by rw [hdin]; exact h.size

/-- The blocks of all files. -/
def total (cs : List (UInt16 × List UInt8)) : ℕ := (cs.map fun x => blocks x.2.length).sum

/-- The image holds the files `cs`, from inode 1 on. -/
structure Rep (s : Image) (cs : List (UInt16 × List UInt8)) : Prop where
  own : Own sb (store s)
  fresh : Fresh s
  freeinode : s.freeinode = cs.length + 1
  file : ∀ n t bs, cs[n]? = some (t, bs) → File (store s) (n + 1) t bs
  free : ∀ i, i = 0 ∨ cs.length < i → (store s).din i = .zero
  freeblock : s.freeblock = nmeta + total cs
  sblock : s.disk 1 = sbBlock

theorem view_self (s : Image) (i : ℕ) : view s i ((store s).din i) = store s := by
  apply Store.ext
  · rfl
  · exact update_eq_self ..
  · rfl

theorem total_set {cs : List (UInt16 × List UInt8)} {x y : UInt16 × List UInt8} (hn : cs[n]? = some x) :
    total (cs.set n y) + blocks x.2.length = total cs + blocks y.2.length := by
  induction cs generalizing n with
  | nil => cases hn
  | cons z cs ih =>
    cases n with
    | zero =>
      obtain rfl : z = x := by simpa using hn
      simp only [set_cons_zero, total, map_cons, sum_cons]
      omega
    | succ n =>
      have hrec := ih (n := n) (by simpa using hn)
      simp only [set_cons_succ, total, map_cons, sum_cons] at *
      omega

theorem total_cons (x : UInt16 × List UInt8) (cs : List (UInt16 × List UInt8)) :
    total (x :: cs) = blocks x.2.length + total cs := by
  simp only [total, map_cons, sum_cons]

@[simp] theorem total_nil : total [] = 0 := rfl

theorem total_append (cs c' : List (UInt16 × List UInt8)) : total (cs ++ c') = total cs + total c' := by
  simp only [total, map_append, sum_append]

theorem sblock_kept {s' : Image} (h : ∀ b < 2 + nlog, s'.disk b = s.disk b) (hs : s.disk 1 = sbBlock) :
    s'.disk 1 = sbBlock := (h 1 (by decide)).trans hs

section Alloc

variable {cs : List (UInt16 × List UInt8)} {t : UInt16} {st : Store}

theorem val_eq_zero (hd : ∀ j, (st.din i).addrs j = 0) (p : Place) : st.val (i, p) = 0 := by
  by_cases ht : (st.din i).type = 0
  · exact val_of_free ht p
  cases p with
  | inl j =>
    rw [val_inl ht, hd]
    rfl
  | inr j =>
    rw [val_inr ht, if_pos]
    rw [Store.ind, hd]
    rfl

theorem File.empty (hd : ∀ j, (st.din i).addrs j = 0) (ht : (st.din i).type = t) (h0 : t ≠ 0)
    (hsize : (st.din i).size = 0) : File st i t [] where
  type := by rwa [ht]
  place bn _ := iff_of_false (fun h => h (val_eq_zero hd _)) (Nat.not_lt_zero _)
  ind := iff_of_false (fun h => h (hd _)) (Nat.not_lt_zero _)
  content o _ := if_pos (val_eq_zero hd _)
  type_eq := ht
  size := by rw [hsize]; rfl

theorem ialloc_spec (h : Rep s cs) (hroom : cs.length + 1 < NINODES) (ht : t ≠ 0) :
    wp (ialloc t) E s fun inum s' => inum = cs.length + 1 ∧ Rep s' (cs ++ [(t, [])]) := by
  obtain ⟨i, hi⟩ : ∃ i, i = cs.length + 1 := ⟨_, rfl⟩
  obtain ⟨d, hd⟩ : ∃ d : Dinode, d = { Dinode.zero with type := t, nlink := 1 } := ⟨_, rfl⟩
  have hz : (store s).din i = .zero := h.free i (Or.inr (by omega))
  have hval : (view s i d).val = (store s).val := by
    funext ⟨j, p⟩
    by_cases hj : j = i
    · rw [hj, val_eq_zero (fun k => ?_), val_eq_zero (fun k => ?_)]
      · rw [hz]; rfl
      · rw [view_din_self, hd]; rfl
    · exact val_congr (store s) (view s i d) (update_of_ne hj ..) (fun _ _ => rfl) p
  simp only [ialloc, wp_bind, wp_get, wp_modify, h.freeinode, ← hi, ← hd]
  have hfresh : Fresh { s with freeinode := i + 1 } := ⟨h.fresh.clean, h.fresh.low⟩
  apply (winode_spec hfresh (by omega) d).mono
  rintro - s' ⟨hstore, hf, hfi, hfb, hkept⟩
  change store s' = view s i d at hstore
  simp only [wp_pure, true_and]
  have hne : ∀ j, j ≠ i → (store s').din j = (store s).din j := by
    intro j hj
    rw [hstore]
    exact update_of_ne hj ..
  have hcontent : ∀ j o, (store s').content j o = (store s).content j o := by
    intro j o
    refine content_congr (fun bn => Or.inl ⟨?_, fun _ => ?_⟩) o
    · rw [hstore, hval]
    · rw [hstore]
      rfl
  refine ⟨?_, hf, ?_, fun n t' bs hn => ?_, fun j hj => ?_, ?_, sblock_kept hkept h.sblock⟩
  · rw [hstore]
    exact ⟨by rw [hval]; exact h.own.owns, h.own.low⟩
  · rw [hfi, length_append, length_singleton, hi]
  · rcases Nat.lt_or_ge n cs.length with hlt | hge
    · rw [getElem?_append_left hlt] at hn
      have hni : n + 1 ≠ i := by omega
      exact (h.file n t' bs hn).congr (hne _ hni) (fun p => by rw [hstore, hval]) (hcontent _)
    · rw [getElem?_append_right hge] at hn
      obtain rfl : n = cs.length := by
        by_contra hne
        rw [getElem?_eq_none (by rw [length_singleton]; omega)] at hn
        cases hn
      rw [Nat.sub_self, getElem?_cons_zero, Option.some.injEq, Prod.mk.injEq] at hn
      obtain ⟨rfl, rfl⟩ := hn
      rw [← hi, hstore]
      refine File.empty (fun _ => ?_) ?_ ht ?_
      · rw [view_din_self, hd]
        rfl
      · rw [view_din_self, hd]
      · rw [view_din_self, hd]
        rfl
  · have hji : j ≠ i := by
      rw [length_append, length_singleton] at hj
      omega
    rw [hne j hji]
    refine h.free j (hj.imp_right fun hlt => ?_)
    rw [length_append] at hlt
    omega
  · have hnil : total [(t, [])] = 0 := by simp [total, blocks, cost]
    rw [hfb, total_append, hnil]
    exact h.freeblock

variable {n : ℕ}

theorem blocks_mono {m : ℕ} (h : m ≤ n) : blocks m ≤ blocks n := by
  simp only [blocks, cost, BSIZE, NDIRECT]
  split <;> split <;> omega

variable {bs : List UInt8}

theorem iappend_spec {p : List UInt8} (h : Rep s cs) (hc : cs.length < NINODES)
    (hn : cs[n]? = some (t, bs)) (hmax : bs.length + p.length ≤ MAXFILE * BSIZE)
    (hroom : nmeta + total (cs.set n (t, bs ++ p)) ≤ FSSIZE) :
    wp (iappend (n + 1) p) E s fun _ s' => Rep s' (cs.set n (t, bs ++ p)) := by
  have hlt : n < cs.length := (List.getElem?_eq_some_iff.mp hn).1
  have hfile := h.file n t bs hn
  have htotal := total_set (y := (t, bs ++ p)) hn
  dsimp only at htotal
  rw [length_append] at htotal
  have hfb := h.freeblock
  rw [iappend, wp_bind]
  apply (rinode_spec (by omega)).mono
  rintro d s0 ⟨hd, hs⟩
  rw [hs, hd, hfile.size, wp_bind]
  apply (iappendLoop_spec p.length (by rw [view_self]; exact h.own) h.fresh
    (by rw [view_self]; exact hfile.toWritten) le_rfl hmax (by omega)).mono
  rintro ⟨d', off⟩ s1 ⟨happ, hw, rfl, hfree⟩
  have hedit := happ.edit
  rw [view_self] at hedit
  dsimp only at hw ⊢
  apply (winode_spec happ.fresh (by omega) _).mono
  rintro - s' ⟨hstore, hf, hfi, hfb', hkept⟩
  obtain ⟨d'', hd''⟩ : ∃ d'' : Dinode, d'' = { d' with size := ofNat (bs.length + p.length) } :=
    ⟨_, rfl⟩
  have hst : store s' = (view s1 (n + 1) d').setDin (n + 1) d'' := by
    rw [hstore, ← hd'']
    apply Store.ext
    · rfl
    · exact (update_idem ..).symm
    · rfl
  have ht'' : d''.type = ((view s1 (n + 1) d').din (n + 1)).type := by rw [view_din_self, hd'']
  have ha'' : d''.addrs = ((view s1 (n + 1) d').din (n + 1)).addrs := by rw [view_din_self, hd'']
  have hne : ∀ j ≠ n + 1, (store s').din j = (store s).din j := by
    intro j hj
    rw [hst, setDin_din_ne hj, hedit.din_ne j hj]
  refine ⟨?_, hf, ?_, fun m t' bs' hm => ?_, fun j hj => ?_, ?_, ?_⟩
  · rw [hst]
    exact happ.own.setDin ht'' ha''
  · rw [hfi, happ.freeinode, length_set]
    exact h.freeinode
  · by_cases hmn : m = n
    · subst hmn
      rw [getElem?_set_self hlt, Option.some.injEq, Prod.mk.injEq] at hm
      obtain ⟨rfl, rfl⟩ := hm
      have hself : (store s').din (m + 1) = d'' := by rw [hst, setDin_din_self]
      have htype : d''.type = t := by rw [ht'', hedit.type]; exact hfile.type_eq
      refine ⟨⟨?_, fun bn hbn => ?_, ?_, fun o ho => ?_⟩, ?_, ?_⟩
      · rw [hself, ht'']
        exact hw.type
      · rw [hst, val_setDin ht'' ha'']
        exact hw.place bn hbn
      · rw [hself, ha'']
        exact hw.ind
      · rw [hst, content_setDin ht'' ha'']
        exact hw.content o ho
      · rw [hself, htype]
      · rw [hself, hd'', length_append]
        exact toNat_ofNat_of_lt' (Nat.lt_of_le_of_lt hmax (by decide))
    · rw [getElem?_set_ne (Ne.symm hmn)] at hm
      have hj : m + 1 ≠ n + 1 := by omega
      refine (h.file m t' bs' hm).congr (hne _ hj) (fun q => ?_) (fun o => ?_)
      · rw [hst, val_setDin ht'' ha'', hedit.val_ne _ hj]
      · rw [hst, content_setDin ht'' ha'', hedit.content_ne _ hj]
  · rw [length_set] at hj
    rw [hne j (by omega)]
    exact h.free j hj
  · omega
  · refine sblock_kept (fun b hb => ?_) h.sblock
    rw [hkept b hb, happ.kept b (Nat.lt_trans hb (by decide))]

theorem total_set_le {bs' : List UInt8} {t' : UInt16} (hn : n < cs.length)
    (h : bs.length ≤ bs'.length) : total (cs.set n (t, bs)) ≤ total (cs.set n (t', bs')) := by
  have hget := getElem?_eq_getElem hn
  have h1 := total_set (y := (t, bs)) hget
  have h2 := total_set (y := (t', bs')) hget
  have hle := blocks_mono h
  dsimp only at h1 h2
  omega

theorem appendContent_spec (f : ℕ) {bytes : List UInt8} (h : Rep s cs) (hc : cs.length < NINODES)
    (hn : cs[n]? = some (t, bs)) (hf : bytes.length ≤ f)
    (hmax : bs.length + bytes.length ≤ MAXFILE * BSIZE)
    (hroom : nmeta + total (cs.set n (t, bs ++ bytes)) ≤ FSSIZE) :
    wp (appendContent (n + 1) f bytes) E s fun _ s' => Rep s' (cs.set n (t, bs ++ bytes)) := by
  obtain ⟨hlt, hget⟩ := List.getElem?_eq_some_iff.mp hn
  -- nothing to append
  have hnil : Rep s (cs.set n (t, bs ++ [])) := by
    rw [append_nil, ← hget, set_getElem_self]
    exact h
  induction f generalizing s cs bs bytes with
  | zero =>
    obtain rfl : bytes = [] := eq_nil_of_length_eq_zero (Nat.le_zero.mp hf)
    rw [appendContent, wp_pure]
    exact hnil
  | succ f ih =>
    rw [appendContent]
    by_cases hb : bytes = []
    · rw [if_pos hb, wp_pure, hb]
      exact hnil
    have hpos : 0 < bytes.length := length_pos_iff.mpr hb
    rw [if_neg hb, wp_bind]
    have htake : (bytes.take BSIZE).length = min BSIZE bytes.length := length_take ..
    have hle : total (cs.set n (t, bs ++ bytes.take BSIZE)) ≤ total (cs.set n (t, bs ++ bytes)) :=
      total_set_le hlt (by rw [length_append, length_append]; omega)
    apply (iappend_spec h hc hn (by omega) (by omega)).mono
    intro _ s1 h1
    have hself : (cs.set n (t, bs ++ bytes.take BSIZE))[n]? = some (t, bs ++ bytes.take BSIZE) :=
      getElem?_set_self hlt
    have hdrop : (bytes.drop BSIZE).length = bytes.length - BSIZE := length_drop ..
    have hsize : (0 : ℕ) < BSIZE := by decide
    have hset : (cs.set n (t, bs ++ bytes.take BSIZE)).set n
        (t, (bs ++ bytes.take BSIZE) ++ bytes.drop BSIZE) = cs.set n (t, bs ++ bytes) := by
      rw [set_set, append_assoc, take_append_drop]
    rw [← hset]
    apply ih h1 (by rw [length_set]; exact hc) hself (by omega)
      (by rw [length_append]; omega) (by rw [hset]; exact hroom)
      (by rw [length_set]; exact hlt)
    · rw [getElem_set_self]
    · rw [append_nil, set_set]
      exact h1

end Alloc

/-! ## The contents of an image -/

/-- The bytes of an entry of the root directory. -/
def entry (inum : ℕ) (name : List UInt8) : List UInt8 := Dirent.encode ⟨inum, strncpy DIRSIZ name⟩

theorem length_entry (inum : ℕ) (name : List UInt8) : (entry inum name).length = DIRENT := by
  simp only [entry, Dirent.encode, length_cons, length_strncpy, DIRSIZ, DIRENT]

/-- The entries of the given files, whose inodes are numbered from `k` on. -/
def entries (k : ℕ) : List (List UInt8 × List UInt8) → List UInt8
  | [] => []
  | f :: files => entry k (shortname f.1 ++ [0]) ++ entries (k + 1) files

theorem length_entries (k : ℕ) (files : List (List UInt8 × List UInt8)) :
    (entries k files).length = DIRENT * files.length := by
  induction files generalizing k with
  | nil => rfl
  | cons f files ih =>
    rw [entries, length_append, length_entry, ih, length_cons, Nat.mul_succ, Nat.add_comm]

/-- The files of an image, without the root directory. -/
def contents (files : List (List UInt8 × List UInt8)) : List (UInt16 × List UInt8) :=
  files.map fun f => (T_FILE, f.2)

variable {files : List (List UInt8 × List UInt8)}

theorem addFiles_spec {r : List UInt8} {l : List (UInt16 × List UInt8)}
    (hE : (∃ f ∈ files, slash ∈ shortname f.1) → E ()) (h : Rep s ((T_DIR, r) :: l))
    (hc : l.length + 1 + files.length < NINODES) (hmax : ∀ f ∈ files, f.2.length ≤ MAXFILE * BSIZE)
    (hdir : r.length + DIRENT * files.length ≤ MAXFILE * BSIZE)
    (hroom : nmeta + total ((T_DIR, r ++ entries (l.length + 2) files) :: (l ++ contents files)) ≤ FSSIZE) :
    wp (addFiles files) E s fun _ s' =>
      Rep s' ((T_DIR, r ++ entries (l.length + 2) files) :: (l ++ contents files)) := by
  induction files generalizing s r l with
  | nil =>
    rw [addFiles, wp_pure, entries, append_nil]
    simpa only [contents, map_nil, append_nil] using h
  | cons f files ih =>
    obtain ⟨arg, bytes⟩ := f
    rw [addFiles]
    by_cases hslash : slash ∈ shortname arg
    · rw [if_pos hslash, wp_throw]
      exact hE ⟨_, mem_cons_self, hslash⟩
    rw [length_cons] at hc hdir
    rw [if_neg hslash, wp_bind]
    apply (ialloc_spec h (by rw [length_cons]; omega) (by decide)).mono
    rintro inum s1 ⟨rfl, h1⟩
    rw [length_cons]
    obtain ⟨e, he⟩ : ∃ e, e = entry (l.length + 2) (shortname arg ++ [0]) := ⟨_, rfl⟩
    have helen : e.length = DIRENT := by rw [he, length_entry]
    -- the image after each of the three steps
    have hlist : ((T_DIR, r) :: l ++ [(T_FILE, [])]).set 0 (T_DIR, r ++ e) =
        (T_DIR, r ++ e) :: (l ++ [(T_FILE, [])]) := rfl
    have hlast : ((T_DIR, r ++ e) :: (l ++ [(T_FILE, [])])).set (l.length + 1) (T_FILE, [] ++ bytes) =
        (T_DIR, r ++ e) :: (l ++ [(T_FILE, bytes)]) := by
      rw [set_cons_succ, set_append_right _ _ le_rfl, Nat.sub_self]
      rfl
    have hfinal : r ++ entries (l.length + 2) ((arg, bytes) :: files) =
        (r ++ e) ++ entries ((l ++ [(T_FILE, bytes)]).length + 2) files := by
      rw [entries, ← he, append_assoc, length_append]
      rfl
    have hcontents : l ++ contents ((arg, bytes) :: files) =
        (l ++ [(T_FILE, bytes)]) ++ contents files := by
      rw [append_assoc]
      rfl
    rw [hfinal, hcontents] at hroom ⊢
    have hle3 : nmeta + total ((T_DIR, r ++ e) :: (l ++ [(T_FILE, bytes)])) ≤ FSSIZE := by
      have hmono : blocks (r ++ e).length ≤
          blocks ((r ++ e) ++ entries ((l ++ [(T_FILE, bytes)]).length + 2) files).length :=
        blocks_mono (sublist_append_left ..).length_le
      simp only [total_cons, total_append, total_nil] at hroom ⊢
      omega
    have hle2 : nmeta + total ((T_DIR, r ++ e) :: (l ++ [(T_FILE, [])])) ≤ FSSIZE := by
      have hmono : blocks ([] : List UInt8).length ≤ blocks bytes.length := blocks_mono (Nat.zero_le _)
      simp only [total_cons, total_append, total_nil] at hle3 ⊢
      omega
    rw [Nat.mul_succ] at hdir
    rw [wp_bind, appendDirent, ← entry, ← he]
    apply (iappend_spec h1 (by simp only [length_append, length_cons, length_nil]; omega)
      (n := 0) rfl (by omega) (by rw [hlist]; exact hle2)).mono
    intro _ s2 h2
    rw [hlist] at h2
    have hlen2 : ((T_DIR, r ++ e) :: (l ++ [(T_FILE, ([] : List UInt8))])).length = l.length + 2 := by
      rw [length_cons, length_append, length_singleton]
    have hget2 : ((T_DIR, r ++ e) :: (l ++ [(T_FILE, ([] : List UInt8))]))[l.length + 1]? =
        some (T_FILE, []) := by
      rw [getElem?_cons_succ, getElem?_append_right le_rfl, Nat.sub_self]
      rfl
    have hbytes := hmax _ mem_cons_self
    rw [wp_bind]
    apply (appendContent_spec bytes.length h2 (by omega) hget2 le_rfl
      (by rw [length_nil, Nat.zero_add]; exact hbytes) (by rw [hlast]; exact hle3)).mono
    intro _ s3 h3
    rw [hlast] at h3
    exact ih (fun ⟨f, hf, hs⟩ => hE ⟨f, mem_cons_of_mem _ hf, hs⟩) h3
      (by rw [length_append, length_singleton]; omega)
      (fun f hf => hmax f (mem_cons_of_mem _ hf))
      (by rw [length_append, helen]; omega) hroom

/-- The bytes of the root directory. -/
def rootBytes (files : List (List UInt8 × List UInt8)) : List UInt8 :=
  entry ROOTINO (dirName ".") ++ entry ROOTINO (dirName "..") ++ entries 2 files

theorem length_rootBytes (files : List (List UInt8 × List UInt8)) :
    (rootBytes files).length = DIRENT * (files.length + 2) := by
  rw [rootBytes, length_append, length_append, length_entry, length_entry, length_entries]
  simp only [DIRENT]
  omega

/-- The size that `main` gives to the root directory in the end. -/
def rootSize (files : List (List UInt8 × List UInt8)) : ℕ :=
  ((rootBytes files).length / BSIZE + 1) * BSIZE

/-- The files fit into an image. -/
structure Fits (files : List (List UInt8 × List UInt8)) : Prop where
  inodes : files.length ≤ NINODES - 2
  size : ∀ f ∈ files, f.2.length ≤ MAXFILE * BSIZE
  room : nmeta + total ((T_DIR, rootBytes files) :: contents files) ≤ FSSIZE

/-- What is on the image of the given files. -/
structure Made (files : List (List UInt8 × List UInt8)) (img : Image) : Prop where
  sblock : img.disk 1 = sbBlock
  own : Own sb (sb.abs img.disk)
  used : ∀ b, (sb.abs img.disk).used b = decide (b < img.freeblock)
  freeblock : img.freeblock ≤ FSSIZE
  root : Written (sb.abs img.disk) ROOTINO (rootBytes files)
  rootType : ((sb.abs img.disk).din ROOTINO).type = T_DIR
  rootSize : ((sb.abs img.disk).din ROOTINO).size.toNat = rootSize files
  file : ∀ j f, files[j]? = some f → File (sb.abs img.disk) (j + 2) T_FILE f.2
  free : ∀ i, i = 0 ∨ files.length + 1 < i → (sb.abs img.disk).din i = .zero

theorem bit_bitmapBlock (n b : ℕ) : (bitmapBlock n).bit b = decide (b < n) := by
  induction n with
  | zero => simp [bitmapBlock, Block.bit, zeroBlock]
  | succ n ih =>
    rw [bitmapBlock, Block.bit_orBit, ih, ← Bool.decide_or]
    exact decide_eq_decide.mpr (by omega)

theorem getDinode_zeroBlock (k : ℕ) : zeroBlock.getDinode k = .zero := by
  have hword : ∀ w, zeroBlock.word w = 0 := fun w => rfl
  apply Dinode.ext
  · exact congrArg UInt16.ofNat (hword _)
  · exact congrArg (fun n => UInt16.ofNat (n / 65536)) (hword _)
  · exact congrArg UInt16.ofNat (hword _)
  · exact congrArg (fun n => UInt16.ofNat (n / 65536)) (hword _)
  · exact congrArg ofNat (hword _)
  · funext j
    exact congrArg ofNat (hword _)

theorem rep_blank : Rep .blank [] := by
  have hdisk : ∀ b, b ≠ 1 → Image.blank.disk b = zeroBlock := fun b hb => if_neg hb
  have hdin : ∀ i, (store .blank).din i = .zero := by
    intro i
    change (if i < NINODES then _ else _) = _
    split
    · next hi =>
      rw [hdisk _ (by have hlow := (iblock_lt hi).1; change 32 ≤ _ at hlow; omega), getDinode_zeroBlock]
    · rfl
  have hval : ∀ x, (store .blank).val x = 0 := fun x => val_of_free (by rw [hdin]; rfl) x.2
  refine ⟨⟨⟨fun b hb => ?_, fun x y hx => absurd (hval x) hx, fun x hx => absurd (hval x) hx,
    fun b hb hu => ?_⟩, fun b hb => decide_eq_true hb⟩, ⟨fun b hb => ?_, le_rfl⟩, rfl, nofun,
    fun i _ => hdin i, rfl, rfl⟩
  · exact sb_valid.pos_of_isData hb
  · exact absurd (of_decide_eq_true hu) (Nat.not_lt_of_le (isData_iff.mp hb).1)
  · refine hdisk b fun h1 => ?_
    rw [h1] at hb
    exact absurd hb (by decide)

theorem abs_balloc (s : Image) (h : s.freeblock ≤ FSSIZE) :
    sb.abs (update s.disk sb.bmapstart (bitmapBlock s.freeblock)) = store s := by
  obtain ⟨hdin, hdata⟩ := sb_valid.abs_bblock s.disk (b := 0) (by decide) (bitmapBlock s.freeblock)
  apply Store.ext
  · funext b
    change (decide (b < FSSIZE) && _) = decide (b < s.freeblock)
    by_cases hb : b < FSSIZE
    · have hblock : sb.bblock b = sb.bmapstart := by
        change b < 2000 at hb
        change b / 8192 + 45 = 45
        omega
      have hmod : b % BPB = b := Nat.mod_eq_of_lt (Nat.lt_trans hb (by decide))
      rw [decide_eq_true hb, Bool.true_and, hblock, update_self, bit_bitmapBlock, hmod]
    · rw [decide_eq_false hb, Bool.false_and, decide_eq_false (by omega)]
  · exact hdin
  · exact hdata

theorem finish_spec (hfit : Fits files) (h : Rep s ((T_DIR, rootBytes files) :: contents files)) :
    wp (do
      let din ← rinode ROOTINO
      winode ROOTINO { din with size := ofNat ((din.size.toNat / BSIZE + 1) * BSIZE) }
      balloc (← get).freeblock) E s fun _ img => Made files img := by
  have hfile := h.file 0 _ _ rfl
  have hfb : s.freeblock ≤ FSSIZE := by
    rw [h.freeblock]
    exact hfit.room
  have hsize : rootSize files < 2 ^ 32 := by
    have hlen := length_rootBytes files
    have hinodes := hfit.inodes
    simp only [rootSize, hlen, NINODES, DIRENT, BSIZE] at *
    omega
  rw [wp_bind]
  apply (rinode_spec (by decide)).mono
  rintro din s0 ⟨hdin, hs⟩
  rw [hs, hdin, hfile.size, ← rootSize, wp_bind]
  obtain ⟨d, hd⟩ : ∃ d : Dinode,
      d = { (store s).din ROOTINO with size := ofNat (rootSize files) } := ⟨_, rfl⟩
  rw [← hd]
  apply (winode_spec h.fresh (by decide) d).mono
  rintro - s' ⟨hstore, -, -, hfb', hkept⟩
  rw [← hfb'] at hfb
  have hlt : s'.freeblock < BSIZE * 8 := Nat.lt_of_le_of_lt hfb (by decide)
  simp only [wp_bind, wp_get, balloc, if_pos hlt, wsect, wp_modify, assign_eq_update]
  have habs := abs_balloc s' hfb
  have ht : d.type = ((store s).din ROOTINO).type := by rw [hd]
  have ha : d.addrs = ((store s).din ROOTINO).addrs := by rw [hd]
  change store s' = (store s).setDin ROOTINO d at hstore
  have hval : (store s').val = (store s).val := by rw [hstore, val_setDin ht ha]
  have hcontent : (store s').content = (store s).content := by rw [hstore, content_setDin ht ha]
  have hself : (store s').din ROOTINO = d := by rw [hstore, setDin_din_self]
  have hne : ∀ i ≠ ROOTINO, (store s').din i = (store s).din i := by
    intro i hi
    rw [hstore, setDin_din_ne hi]
  refine ⟨?_, ?_, fun b => ?_, hfb, ?_, ?_, ?_, fun j f hj => ?_, fun i hi => ?_⟩
  · dsimp only
    rw [update_of_ne (by decide)]
    exact sblock_kept hkept h.sblock
  · rw [habs, hstore]
    exact h.own.setDin ht ha
  · rw [habs]
    rfl
  · rw [habs]
    refine ⟨?_, fun bn hbn => ?_, ?_, fun o ho => ?_⟩
    · rw [hself, ht]
      exact hfile.type
    · rw [hval]
      exact hfile.place bn hbn
    · rw [hself, ha]
      exact hfile.ind
    · rw [hcontent]
      exact hfile.content o ho
  · rw [habs, hself, ht]
    exact hfile.type_eq
  · rw [habs, hself, hd]
    exact toNat_ofNat_of_lt' hsize
  · rw [habs]
    have hget : ((T_DIR, rootBytes files) :: contents files)[j + 1]? = some (T_FILE, f.2) := by
      rw [getElem?_cons_succ, contents, getElem?_map, hj]
      rfl
    exact (h.file (j + 1) T_FILE f.2 hget).congr (hne _ (by simp only [ROOTINO]; omega))
      (fun p => by rw [hval]) (fun o => by rw [hcontent])
  · rw [habs, hne i (by rintro rfl; simp only [ROOTINO] at hi; omega)]
    refine h.free i (hi.imp_right fun hlt => ?_)
    rw [length_cons, contents, length_map]
    exact hlt


theorem main_spec (hE : (∃ f ∈ files, slash ∈ shortname f.1) → E ()) (hfit : Fits files) :
    wp (main files) E .blank fun _ img => Made files img := by
  have hroom := hfit.room
  have hinodes : files.length + 2 ≤ NINODES := by
    have := hfit.inodes
    simp only [NINODES] at *
    omega
  obtain ⟨dot, hdot⟩ : ∃ dot, dot = entry ROOTINO (dirName ".") := ⟨_, rfl⟩
  obtain ⟨dots, hdots⟩ : ∃ dots, dots = dot ++ entry ROOTINO (dirName "..") := ⟨_, rfl⟩
  have hdotlen : dot.length = DIRENT := by rw [hdot, length_entry]
  have hdotslen : dots.length = DIRENT + DIRENT := by rw [hdots, length_append, hdotlen, length_entry]
  have hroot : rootBytes files = dots ++ entries 2 files := by rw [hdots, hdot, rootBytes]
  -- the parts of the root directory need no more room than the whole
  have hpart : ∀ bs : List UInt8, bs.length ≤ dots.length → nmeta + total [(T_DIR, bs)] ≤ FSSIZE := by
    intro bs hle
    have hmono : blocks bs.length ≤ blocks (rootBytes files).length := by
      refine blocks_mono (Nat.le_trans hle ?_)
      rw [hroot]
      exact (sublist_append_left ..).length_le
    simp only [total_cons, total_nil] at hroom ⊢
    omega
  rw [main, wp_bind]
  apply (ialloc_spec rep_blank (by decide) (by decide)).mono
  rintro inum s1 ⟨hinum, h1⟩
  obtain rfl : inum = ROOTINO := hinum
  rw [if_neg (by decide), wp_bind, appendDirent, ← entry, ← hdot]
  apply (iappend_spec (n := 0) h1 (by decide) rfl (by rw [hdotlen]; decide)
    (hpart _ (by rw [nil_append]; omega))).mono
  intro _ s2 h2
  rw [wp_bind, appendDirent, ← entry]
  apply (iappend_spec (n := 0) h2 (by rw [length_set]; decide) rfl
    (by rw [length_entry, nil_append, hdotlen]; decide)
    (hpart _ (by rw [nil_append, hdots]))).mono
  intro _ s3 h3
  change Rep s3 [(T_DIR, dot ++ entry ROOTINO (dirName ".."))] at h3
  rw [← hdots] at h3
  rw [wp_bind]
  apply (addFiles_spec hE h3 (by rw [length_nil]; omega) hfit.size
    (by simp only [NINODES, DIRENT, MAXFILE, NDIRECT, NINDIRECT, BSIZE] at *; omega)
    (by rw [length_nil, ← hroot]; exact hroom)).mono
  intro _ s4 h4
  change Rep s4 ((T_DIR, dots ++ entries 2 files) :: contents files) at h4
  rw [← hroot] at h4
  exact finish_spec hfit h4

end Xv6.Fs.Mkfs
