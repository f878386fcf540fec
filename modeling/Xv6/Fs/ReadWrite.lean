import Xv6.Fs.BlockSpec

/-!
# Reading and writing files

Specifications of `readi` and `writei`: reading returns the content of the file where it has
blocks, writing replaces a piece of the content. The loops go block by block; their invariants are about
the part of the file that is still to be done.
-/

namespace Xv6.Fs

open Lib List Nat Store Function

variable {sb : Superblock} {E : Err → Prop} {s : State} {k : Slot}

/-! ## Sources and destinations -/

/-- There is room for `n` more bytes. -/
def Dest.Takes : Dest → ℕ → Prop
  | .kernel _, _ => True
  | .user m dst, n => m.Mapped dst n

/-- The destination after `bs` was copied to it. -/
def Dest.put : Dest → List UInt8 → Dest
  | .kernel t, bs => .kernel (t ++ bs)
  | .user m dst, bs => .user (m.write dst bs) (dst + bs.length)

theorem Dest.put_nil (d : Dest) : d.put [] = d := by
  cases d <;> simp [Dest.put]

theorem Dest.put_append (d : Dest) (bs cs : List UInt8) : (d.put bs).put cs = d.put (bs ++ cs) := by
  cases d with
  | kernel t => simp only [Dest.put, append_assoc]
  | user m dst =>
    simp only [Dest.put, UserMem.write_append, length_append, Nat.add_assoc]

variable {bs : List UInt8} {d : Dest} {n : ℕ}

theorem Dest.copyout_of_takes (h : d.Takes n) (hn : bs.length ≤ n) :
    d.copyout bs = (true, d.put bs) := by
  cases d with
  | kernel t => rfl
  | user m dst =>
    have hm : m.Mapped dst bs.length := fun j hj => h j (by omega)
    simp only [Dest.copyout, UserMem.copyout_of_mapped hm, Dest.put]
    rfl

theorem Dest.Takes.takes_put (h : d.Takes n) (bs : List UInt8) : (d.put bs).Takes (n - bs.length) := by
  cases d with
  | kernel t => trivial
  | user m dst =>
    intro j hj
    rw [UserMem.walkaddr_write, Nat.add_assoc]
    exact h _ (by omega)

/-- The source holds the bytes `bs`, and copying them in succeeds. -/
def Source.Gives : Source → List UInt8 → Prop
  | .kernel t, bs => bs <+: t
  | .user m src, bs => m.Mapped src bs.length ∧ m.read src bs.length = bs

variable {src : Source}

theorem Source.copyin_of_gives (h : src.Gives bs) (hn : n ≤ bs.length) :
    (src.copyin n).1 = true ∧ (src.copyin n).2.1 = bs.take n ∧
      (src.copyin n).2.2.Gives (bs.drop n) := by
  cases src with
  | kernel t =>
    obtain ⟨rest, rfl⟩ := h
    refine ⟨rfl, ?_, rest, ?_⟩
    · exact take_append_of_le_length hn
    · exact (drop_append_of_le_length hn).symm
  | user m a =>
    obtain ⟨hm, hr⟩ := h
    have hlen : (bs.drop n).length = bs.length - n := length_drop
    have hmn : m.Mapped a n := fun j hj => hm j (by omega)
    have hsplit : m.read a n ++ m.read (a + n) (bs.length - n) = bs := by
      rw [UserMem.read_append, Nat.add_sub_cancel' hn, hr]
    have hl : (m.read a n).length = n := UserMem.length_read ..
    simp only [Source.copyin, UserMem.copyin_of_mapped hmn]
    refine ⟨trivial, ?_, ?_, ?_⟩
    · rw [← hsplit, take_append_of_le_length (by omega), take_of_length_le (by omega)]
    · intro j hj
      rw [Nat.add_assoc]
      exact hm _ (by omega)
    · rw [hlen]
      conv_rhs => rw [← hsplit]
      rw [drop_append_of_le_length (by omega), drop_of_length_le (by omega)]
      rfl

/-! ## Reading -/

/-- Bytes of a file. -/
def Store.bytes (st : Store) (i off n : ℕ) : List UInt8 :=
  (List.range n).map fun j => st.content i (off + j)

@[simp] theorem Store.length_bytes (st : Store) (i off n : ℕ) : (st.bytes i off n).length = n := by
  simp [Store.bytes]

theorem Store.bytes_append (st : Store) (i off n m : ℕ) :
    st.bytes i off n ++ st.bytes i (off + n) m = st.bytes i off (n + m) := by
  simp only [Store.bytes, range_add, map_append, map_map]
  congr 1
  apply map_congr_left
  intro j _
  simp only [comp_apply, Nat.add_assoc]

variable {i off : ℕ} {st st' : Store}

theorem Store.bytes_congr (h : ∀ j < n, st'.content i (off + j) = st.content i (off + j)) :
    st'.bytes i off n = st.bytes i off n :=
  map_congr_left fun j hj => h j (List.mem_range.mp hj)

theorem Store.take_bytes (st : Store) (i off n m : ℕ) :
    (st.bytes i off n).take m = st.bytes i off (min m n) := by
  rw [Store.bytes, ← map_take, take_range]
  rfl

theorem Store.drop_bytes (st : Store) (i off n m : ℕ) :
    (st.bytes i off n).drop m = st.bytes i (off + m) (n - m) := by
  by_cases hm : m ≤ n
  · have happ := st.bytes_append i off m (n - m)
    rw [Nat.add_sub_cancel' hm] at happ
    rw [← happ, drop_append_of_le_length (by simp), drop_of_length_le (by simp), nil_append]
  · rw [drop_of_length_le (by rw [length_bytes]; omega), Nat.sub_eq_zero_of_le (by omega)]
    rfl

variable {addr m : ℕ}

theorem bytes_block (h : Own sb (view sb s k))
    (haddr : (view sb s k).val (i, filePlace (off / BSIZE)) = addr) (h0 : addr ≠ 0)
    (hm : m ≤ BSIZE - off % BSIZE) :
    (s.disk addr).bytes (off % BSIZE) m = (view sb s k).bytes i off m := by
  have hdata : (view sb s k).data addr = s.disk addr := if_pos (haddr ▸ h.isData_val (haddr ▸ h0))
  apply map_congr_left
  intro j hj
  rw [mem_range] at hj
  have hdiv : (off + j) / BSIZE = off / BSIZE := by
    simp only [BSIZE] at *
    omega
  have hmod : (off + j) % BSIZE = off % BSIZE + j := by
    simp only [BSIZE] at *
    omega
  simp only [content, hdiv, haddr, if_neg h0, hdata, hmod]

theorem readiLoop_spec (hv : sb.Valid) (h : Own sb (view sb s k)) (ht : (s.inode k).din.type ≠ 0)
    (f tot off n : ℕ) (dst : Dest) (htot : tot ≤ n) (hf : n - tot ≤ f)
    (hblk : ∀ o, off ≤ o → o < off + (n - tot) →
      o / BSIZE < MAXFILE ∧ (view sb s k).val ((s.inode k).inum, filePlace (o / BSIZE)) ≠ 0)
    (hdst : dst.Takes (n - tot)) : wp (readiLoop sb k f tot off n dst) E s fun r s' =>
      s' = s ∧ r = ((n : ℤ), dst.put ((view sb s k).bytes (s.inode k).inum off (n - tot))) := by
  induction f generalizing tot off dst with
  | zero =>
    obtain rfl : tot = n := by omega
    rw [readiLoop, wp_pure, Nat.sub_self]
    exact ⟨rfl, by rw [Store.bytes, range_zero, map_nil, Dest.put_nil]⟩
  | succ f ih =>
    rw [readiLoop]
    by_cases hlt : tot < n
    · obtain ⟨hbn, hne⟩ := hblk off (Nat.le_refl _) (by omega)
      rw [if_pos hlt, wp_bind]
      apply (bmap_spec hv h ht hbn).mono
      rintro addr s' ⟨-, -, hval, hsame, -⟩
      obtain ⟨h0, rfl⟩ := hsame hne
      obtain ⟨m, hm⟩ : ∃ m, m = min (n - tot) (BSIZE - off % BSIZE) := ⟨_, rfl⟩
      have hmod : off % BSIZE < BSIZE := mod_lt _ (by decide)
      have hbytes := bytes_block h (hval h0) h0 (m := m) (by omega)
      have hcopy : dst.copyout ((view sb s' k).bytes (s'.inode k).inum off m) =
          (true, dst.put ((view sb s' k).bytes (s'.inode k).inum off m)) :=
        dst.copyout_of_takes hdst (by rw [length_bytes]; omega)
      simp only [if_neg h0, bread, wp_bind, wp_get, wp_pure, ← hm, hbytes, hcopy, if_true]
      have hdst' := hdst.takes_put ((view sb s' k).bytes (s'.inode k).inum off m)
      rw [length_bytes, Nat.sub_sub] at hdst'
      apply (ih _ _ _ (by omega) (by omega) (fun o ho hlt => hblk o (by omega) (by omega)) hdst').mono
      rintro r s'' ⟨rfl, rfl⟩
      refine ⟨rfl, ?_⟩
      rw [Dest.put_append, bytes_append, show m + (n - (tot + m)) = n - tot by omega]
    · obtain rfl : tot = n := by omega
      rw [if_neg hlt, wp_pure, Nat.sub_self]
      exact ⟨rfl, by rw [Store.bytes, range_zero, map_nil, Dest.put_nil]⟩

/-- Every block of inode `i` up to its size is there. -/
def Store.NoHole (st : Store) (i : ℕ) : Prop :=
  ∀ bn, bn * BSIZE < (st.din i).size.toNat → bn < MAXFILE ∧ st.val (i, filePlace bn) ≠ 0

instance (st : Store) (i : ℕ) : Decidable (st.NoHole i) :=
  decidable_of_iff (∀ bn < (st.din i).size.toNat / BSIZE + 1, bn * BSIZE < (st.din i).size.toNat →
      bn < MAXFILE ∧ st.val (i, filePlace bn) ≠ 0)
    ⟨fun h bn hbn => h bn (by simp only [BSIZE] at *; omega) hbn, fun h bn _ => h bn⟩

section

variable (hv : sb.Valid) (h : Own sb (view sb s k)) (ht : (s.inode k).din.type ≠ 0) (dst : Dest)
  (hoff : off ≤ (s.inode k).din.size.toNat) (hn : off + n < 2 ^ 32)
  (hdst : dst.Takes (min n ((s.inode k).din.size.toNat - off)))

include hv h ht hoff hn hdst

theorem readi_blocks_spec (hblk : ∀ o, off ≤ o → o < off + n → o < (s.inode k).din.size.toNat →
      o / BSIZE < MAXFILE ∧ (view sb s k).val ((s.inode k).inum, filePlace (o / BSIZE)) ≠ 0) :
    wp (readi sb k dst off n) E s fun r s' =>
      s' = s ∧ r = (((min n ((s.inode k).din.size.toNat - off) : ℕ) : ℤ),
        dst.put ((view sb s k).bytes (s.inode k).inum off
          (min n ((s.inode k).din.size.toNat - off)))) := by
  simp only [readi, wp_bind, wp_get]
  rw [mod_eq_of_lt hn, if_neg (by omega)]
  have hmin : (if (s.inode k).din.size.toNat < off + n then (s.inode k).din.size.toNat - off else n) =
      min n ((s.inode k).din.size.toNat - off) := by
    split <;> omega
  rw [hmin]
  generalize hm : min n ((s.inode k).din.size.toNat - off) = m at *
  apply readiLoop_spec hv h ht m 0 off m dst (Nat.zero_le _) (sub_le _ _) _ hdst
  intro o ho hlt
  exact hblk o ho (by omega) (by omega)

theorem readi_spec (hole : (view sb s k).NoHole (s.inode k).inum) :
    wp (readi sb k dst off n) E s fun r s' =>
      s' = s ∧ r = (((min n ((s.inode k).din.size.toNat - off) : ℕ) : ℤ),
        dst.put ((view sb s k).bytes (s.inode k).inum off
          (min n ((s.inode k).din.size.toNat - off)))) := by
  refine readi_blocks_spec hv h ht dst hoff hn hdst fun o _ _ hlt => ?_
  apply hole (o / BSIZE)
  rw [view_din_self]
  have := div_mul_le_self o BSIZE
  omega

end

/-! ## Writing -/

/-- Inode `k` has got new blocks or other contents. -/
structure Change (sb : Superblock) (k : Slot) (s s' : State) : Prop where
  frame : Frame sb k s s'
  own : Own sb (view sb s' k)
  edit : Store.Edit (view sb s k) (view sb s' k) (s.inode k).inum

variable {s' : State}

theorem Grow.change (h : Grow sb k s s') : Change sb k s s' := ⟨h.frame, h.own, h.ext.toEdit⟩

theorem Change.trans {s'' : State} (h : Change sb k s s') (h' : Change sb k s' s'') :
    Change sb k s s'' := by
  refine ⟨h.frame.trans h'.frame, h'.own, h.edit.trans ?_⟩
  rw [← h.frame.inum]
  exact h'.edit

theorem Change.type (h : Change sb k s s') : (s'.inode k).din.type = (s.inode k).din.type := by
  have := h.edit.type
  rwa [← h.frame.inum, view_din_self, h.frame.inum, view_din_self] at this

variable {bn : ℕ}

theorem Change.store (hv : sb.Valid) (h : Own sb (view sb s k)) (hbn : bn < MAXFILE)
    (haddr : (view sb s k).val ((s.inode k).inum, filePlace bn) = addr) (h0 : addr ≠ 0)
    (blk : Block) (s' : State) (hdisk : s'.disk = update s.disk addr blk)
    (hinode : s'.inode = s.inode) : Change sb k s s' ∧ (view sb s' k).val = (view sb s k).val ∧
      ∀ o < MAXFILE * BSIZE, (view sb s' k).content (s.inode k).inum o =
        if o / BSIZE = bn then blk (o % BSIZE) else (view sb s k).content (s.inode k).inum o := by
  subst haddr
  have hdata := h.isData_val h0
  obtain ⟨hown, hedit, hval, hcontent⟩ := h.write hbn h0 blk
  have hview : view sb s' k = { view sb s k with
        data := update (view sb s k).data
          ((view sb s k).val ((s.inode k).inum, filePlace bn)) blk } := by
    rw [view, hdisk, hinode, hv.abs_update _ hdata]
    rfl
  rw [hview]
  refine ⟨⟨⟨?_, ?_, ?_⟩, ?_, ?_⟩, hval, hcontent⟩
  · intro j _
    rw [hinode]
  · rw [hinode]
  · intro i _
    rw [hdisk, hv.abs_update _ hdata]
  · rwa [hview]
  · rwa [hview]

theorem store_apply (blk : Block) (off : ℕ) (bs : List UInt8) (o : ℕ) :
    blk.store off bs o = if off ≤ o ∧ o < off + bs.length then bs.getD (o - off) 0 else blk o := by
  unfold Block.store
  by_cases hle : off ≤ o
  · by_cases hlt : o < off + bs.length
    · have hidx : o - off < bs.length := by omega
      rw [if_pos hle, if_pos ⟨hle, hlt⟩, getD_eq_getElem _ _ hidx, getD_eq_getElem _ _ hidx]
    · rw [if_pos hle, if_neg (fun h => hlt h.2), getD_eq_default _ _ (by omega)]
  · rw [if_neg hle, if_neg (fun h => hle h.1)]

variable {o : ℕ}

theorem Store.content_store (haddr : st.val (i, filePlace (off / BSIZE)) = addr) (h0 : addr ≠ 0)
    (hlen : bs.length = m) (hm : m ≤ BSIZE - off % BSIZE) :
    (if o / BSIZE = off / BSIZE then (st.data addr).store (off % BSIZE) bs (o % BSIZE)
      else st.content i o) =
      if off ≤ o ∧ o < off + m then bs.getD (o - off) 0 else st.content i o := by
  have hmod : off % BSIZE < BSIZE := mod_lt _ (by decide)
  by_cases hdiv : o / BSIZE = off / BSIZE
  · have hcontent : st.content i o = st.data addr (o % BSIZE) := by
      simp only [content, hdiv, haddr, if_neg h0]
    have ho := div_add_mod o BSIZE
    have hoff := div_add_mod off BSIZE
    rw [hdiv] at ho
    have hiff : (off % BSIZE ≤ o % BSIZE ∧ o % BSIZE < off % BSIZE + bs.length) ↔
        (off ≤ o ∧ o < off + m) := by omega
    rw [if_pos hdiv, store_apply, hcontent, if_congr hiff rfl rfl]
    by_cases hc : off ≤ o ∧ o < off + m
    · rw [if_pos hc, if_pos hc, show o % BSIZE - off % BSIZE = o - off by omega]
    · rw [if_neg hc, if_neg hc]
  · rw [if_neg hdiv, if_neg]
    rintro ⟨hle, hlt⟩
    apply hdiv
    have ho : off / BSIZE * BSIZE + off % BSIZE = off := div_add_mod' off BSIZE
    apply Nat.div_eq_of_lt_le
    · omega
    · rw [succ_mul]
      omega

theorem content_store (h : Own sb (view sb s k))
    (haddr : (view sb s k).val (i, filePlace (off / BSIZE)) = addr) (h0 : addr ≠ 0)
    (hlen : bs.length = m) (hm : m ≤ BSIZE - off % BSIZE) :
    (if o / BSIZE = off / BSIZE then (s.disk addr).store (off % BSIZE) bs (o % BSIZE)
      else (view sb s k).content i o) =
      if off ≤ o ∧ o < off + m then bs.getD (o - off) 0 else (view sb s k).content i o := by
  have hdata : (view sb s k).data addr = s.disk addr := if_pos (haddr ▸ h.isData_val (haddr ▸ h0))
  rw [← hdata]
  exact Store.content_store haddr h0 hlen hm

/-- The places of the blocks of the first `m` bytes of a file, with that of the indirect block. -/
def Below (m : ℕ) : Place → Prop
  | .inl j => j * BSIZE < m
  | .inr j => (NDIRECT + j) * BSIZE < m

instance (m : ℕ) : DecidablePred (Below m)
  | .inl j => inferInstanceAs (Decidable (j * BSIZE < m))
  | .inr j => inferInstanceAs (Decidable ((NDIRECT + j) * BSIZE < m))

variable {p : Place}

theorem Below.mono (h : m ≤ n) (hp : Below m p) : Below n p := by
  cases p with
  | inl j => exact Nat.lt_of_lt_of_le hp h
  | inr j => exact Nat.lt_of_lt_of_le hp h

theorem below_filePlace (hbn : bn < MAXFILE) (h : bn * BSIZE < m) : Below m (filePlace bn) := by
  rw [filePlace]
  split
  · next hd =>
    have hval : ((Fin.ofNat (NDIRECT + 1) bn : Fin (NDIRECT + 1)) : ℕ) = bn :=
      mod_eq_of_lt (lt_succ_of_lt hd)
    rw [Below, hval]
    exact h
  · have hval : ((Fin.ofNat NINDIRECT (bn - NDIRECT) : Fin NINDIRECT) : ℕ) = bn - NDIRECT :=
      mod_eq_of_lt (by simp only [MAXFILE] at hbn; omega)
    rw [Below, hval, Nat.add_sub_cancel' (by omega)]
    exact h

theorem below_of_lt (hbn : o / BSIZE < MAXFILE) (h : o < m)
    (hp : p = filePlace (o / BSIZE) ∨ p = .inl indirect ∧ NDIRECT ≤ o / BSIZE) : Below m p := by
  have hdiv := div_mul_le_self o BSIZE
  rcases hp with rfl | ⟨rfl, hle⟩
  · exact below_filePlace hbn (by omega)
  · have hmul := Nat.mul_le_mul_right BSIZE hle
    change NDIRECT * BSIZE < m
    omega

theorem Store.filled (h : ∀ bn, bn * BSIZE < m → bn < MAXFILE ∧ st.val (i, filePlace bn) ≠ 0)
    (hp : Below m p) : st.val (i, p) ≠ 0 := by
  have hplace : ∀ bn, bn * BSIZE < m → st.val (i, filePlace bn) ≠ 0 := fun bn hbn => (h bn hbn).2
  cases p with
  | inl j =>
    by_cases hj : (j : ℕ) < NDIRECT
    · have := hplace j hp
      rw [filePlace, if_pos hj] at this
      rwa [show (Fin.ofNat (NDIRECT + 1) j : Fin (NDIRECT + 1)) = j from Fin.ext
        (mod_eq_of_lt j.isLt)] at this
    · -- the indirect block, which has an entry
      have hj' : (j : ℕ) = NDIRECT := by
        have := j.isLt
        simp only [NDIRECT] at *
        omega
      have hlt : NDIRECT * BSIZE < m := by
        rw [← hj']
        exact hp
      have hentry := hplace NDIRECT hlt
      have htype : (st.din i).type ≠ 0 := fun h0 => hentry (val_of_free h0 _)
      rw [filePlace, if_neg (lt_irrefl _), val_inr htype] at hentry
      rw [val_inl htype, show j = indirect from Fin.ext hj']
      intro h0
      exact hentry (if_pos h0)
  | inr j =>
    have hlt : (NDIRECT + j) * BSIZE < m := hp
    have := hplace (NDIRECT + j) hlt
    rw [filePlace, if_neg (by omega), Nat.add_sub_cancel_left] at this
    rwa [show (Fin.ofNat NINDIRECT j : Fin NINDIRECT) = j from Fin.ext (mod_eq_of_lt j.isLt)] at this

theorem writeiLoop_spec (hv : sb.Valid) (h : Own sb (view sb s k)) (ht : (s.inode k).din.type ≠ 0)
    (f tot off n : ℕ) (src : Source) (htot : tot ≤ n) (hf : n - tot ≤ f)
    (hoff : off + (n - tot) ≤ MAXFILE * BSIZE) : wp (writeiLoop sb k f tot off n src) E s fun r s' =>
      Change sb k s s' ∧ tot ≤ r.1 ∧ r.1 ≤ n ∧ r.2 + tot = off + r.1 ∧
      (r.1 < n → r.2 = off ∨ r.2 % BSIZE = 0) ∧
      (∀ o, off ≤ o → o < r.2 →
        (view sb s' k).val ((s.inode k).inum, filePlace (o / BSIZE)) ≠ 0) ∧
      OnlyAt sb k (Below (off + (n - tot))) s s' ∧
      ∀ bs, src.Gives bs → bs.length = n - tot →
        (r.1 < n → Full sb (view sb s' k) ∧
          (view sb s' k).val ((s.inode k).inum, filePlace (r.2 / BSIZE)) = 0) ∧
        ∀ o < MAXFILE * BSIZE, (view sb s' k).content (s.inode k).inum o =
          if off ≤ o ∧ o < r.2 then bs.getD (o - off) 0
          else (view sb s k).content (s.inode k).inum o := by
  induction f generalizing s tot off src with
  | zero =>
    rw [writeiLoop, wp_pure]
    refine ⟨(Grow.refl h).change, Nat.le_refl _, htot, by omega, fun _ => .inl rfl,
      fun o ho hlt => by omega, .refl _ _, fun bs _ _ => ⟨fun hlt => by omega, fun o _ => ?_⟩⟩
    rw [if_neg (by omega)]
  | succ f ih =>
    rw [writeiLoop]
    by_cases hlt : tot < n
    · have hbn : off / BSIZE < MAXFILE := div_lt_maxfile (by omega)
      rw [if_pos hlt, wp_bind]
      apply (bmap_spec hv h ht hbn).mono
      rintro addr s1 ⟨hgrow, hfull, hval, -, honly, hfail⟩
      have hinum := hgrow.frame.inum
      have honly1 : OnlyAt sb k (Below (off + (n - tot))) s s1 :=
        honly.mono fun _ hp => below_of_lt hbn (by omega) hp
      by_cases h0 : addr = 0
      · rw [if_pos h0, wp_pure]
        refine ⟨hgrow.change, Nat.le_refl _, htot, rfl, fun _ => .inl rfl,
          fun o ho hlt => by omega, honly1, fun bs _ _ => ⟨fun _ => ⟨hfull h0, hfail h0⟩, fun o _ => ?_⟩⟩
        rw [if_neg (by omega), hgrow.ext.content]
      · obtain ⟨m, hm⟩ : ∃ m, m = min (n - tot) (BSIZE - off % BSIZE) := ⟨_, rfl⟩
        have hmod : off % BSIZE < BSIZE := mod_lt _ (by decide)
        have hval1 := hval h0
        rw [← hinum] at hval1
        simp only [if_neg h0, bread, wp_bind, wp_get, wp_pure, ← hm]
        by_cases hc : (src.copyin m).1 = true
        · -- the block is stored and logged; the rest of the bytes follows
          rw [if_pos hc]
          simp only [logWrite, wp_bind, wp_modify, assign_eq_update]
          obtain ⟨s2, hs2⟩ : ∃ s2 : State, s2 = ⟨update s1.disk addr
            ((s1.disk addr).store (off % BSIZE) (src.copyin m).2.1), s1.inode,
            addr :: s1.logged⟩ := ⟨_, rfl⟩
          obtain ⟨hchange, hval2, hcontent⟩ := Change.store hv hgrow.own hbn hval1 h0
            ((s1.disk addr).store (off % BSIZE) (src.copyin m).2.1) s2 (by rw [hs2]) (by rw [hs2])
          rw [← hs2]
          have hch := hgrow.change.trans hchange
          have ht2 : (s2.inode k).din.type ≠ 0 := by rwa [hch.type]
          have honly2 : OnlyAt sb k (Below (off + (n - tot))) s s2 := by
            intro p hp
            rw [hval2]
            exact honly1 p hp
          apply (ih hch.own ht2 (tot + m) (off + m) (src.copyin m).2.2 (by omega) (by omega)
            (by omega)).mono
          rintro ⟨tot', off'⟩ s' ⟨hchange', hle, hle', hsum, hstop, hblk, honly', hgood⟩
          simp only at hle hle' hsum hstop hblk hgood ⊢
          have hend : off + m + (n - (tot + m)) = off + (n - tot) := by omega
          rw [hend] at honly'
          rw [hch.frame.inum] at hblk hgood
          refine ⟨hch.trans hchange', by omega, hle', by omega, ?_, ?_,
            (honly2.trans honly' hch.frame.inum).mono fun _ => Or.rec id id, ?_⟩
          · intro hlt'
            rcases hstop hlt' with rfl | hend
            · -- the block was filled to its end
              right
              simp only [BSIZE] at *
              omega
            · exact .inr hend
          · intro o ho hlt'
            by_cases hom : off + m ≤ o
            · exact hblk o hom hlt'
            · -- still in the block just stored
              have hdiv : o / BSIZE = off / BSIZE := by
                simp only [BSIZE] at *
                omega
              have hv2 : (view sb s2 k).val ((s2.inode k).inum, filePlace (off / BSIZE)) = addr := by
                rw [hval2, hch.frame.inum, ← hinum, hval1]
              rw [hch.frame.inum] at hv2
              have := hchange'.edit.val ((s.inode k).inum, filePlace (off / BSIZE)) (by
                rwa [hv2])
              rw [hdiv, this, hv2]
              exact h0
          · intro bs hbs hlen
            obtain ⟨-, htake, hdrop⟩ := src.copyin_of_gives hbs (n := m) (by omega)
            obtain ⟨hfull', hcontent'⟩ := hgood (bs.drop m) hdrop (by
              rw [length_drop]
              omega)
            refine ⟨hfull', fun o ho => ?_⟩
            rw [hcontent' o ho, ← hinum, hcontent o ho, htake,
              content_store hgrow.own hval1 h0 (m := m) (by rw [length_take]; omega) (by omega),
              hinum, hgrow.ext.content]
            by_cases h1 : off + m ≤ o ∧ o < off'
            · rw [if_pos h1, if_pos (by omega), getD_eq_getElem?_getD,
                getD_eq_getElem?_getD, getElem?_drop]
              congr 2
              omega
            · rw [if_neg h1]
              by_cases h2 : off ≤ o ∧ o < off + m
              · rw [if_pos h2, if_pos (by omega), getD_eq_getElem?_getD,
                  getD_eq_getElem?_getD, getElem?_take, if_pos (by omega)]
              · rw [if_neg h2, if_neg (by omega)]
        · -- the copy failed: the buffer may have changed, no good source does that
          rw [if_neg hc]
          simp only [setBuf, wp_bind, wp_modify, wp_pure, assign_eq_update]
          obtain ⟨hchange, hval2, -⟩ := Change.store hv hgrow.own hbn hval1 h0
            ((s1.disk addr).store (off % BSIZE) (src.copyin m).2.1)
            { s1 with disk := update s1.disk addr
                        ((s1.disk addr).store (off % BSIZE) (src.copyin m).2.1) } rfl rfl
          refine ⟨hgrow.change.trans hchange, Nat.le_refl _, htot, trivial, fun _ => .inl trivial,
            fun o ho hlt => by omega, fun p hp => ?_, fun bs hbs hlen => ?_⟩
          · rw [hval2]
            exact honly1 p hp
          · exact absurd (src.copyin_of_gives hbs (n := m) (by omega)).1 hc
    · rw [if_neg hlt, wp_pure]
      refine ⟨(Grow.refl h).change, Nat.le_refl _, htot, rfl, fun hlt' => absurd hlt' hlt,
        fun o ho hlt => by omega, .refl _ _, fun bs _ _ => ⟨fun hlt' => absurd hlt' hlt, fun o _ => ?_⟩⟩
      rw [if_neg (by omega)]

/-- `tot` bytes were written to inode `k` at offset `off`, and its disk inode is up to date. -/
structure Wrote (sb : Superblock) (k : Slot) (s s' : State) (off tot : ℕ) : Prop where
  frame : Frame sb k s s'
  sync : (sb.abs s'.disk).din (s.inode k).inum = (s'.inode k).din
  own : Own sb (sb.abs s'.disk)
  din : ∃ a z, (s'.inode k).din = { (s.inode k).din with addrs := a, size := z }
  size : (s'.inode k).din.size.toNat = max (s.inode k).din.size.toNat (off + tot)
  val : ∀ x, (view sb s k).val x ≠ 0 → (sb.abs s'.disk).val x = (view sb s k).val x
  val_ne : ∀ j ≠ (s.inode k).inum, ∀ p, (sb.abs s'.disk).val (j, p) = (view sb s k).val (j, p)
  content_ne : ∀ j ≠ (s.inode k).inum, ∀ o,
    (sb.abs s'.disk).content j o = (view sb s k).content j o
  used : ∀ c, (sb.abs s.disk).used c = true → (sb.abs s'.disk).used c = true
  block : ∀ o, off ≤ o → o < off + tot →
    (sb.abs s'.disk).val ((s.inode k).inum, filePlace (o / BSIZE)) ≠ 0

variable {tot : ℕ}

theorem Change.finish (hv : sb.Valid) {s1 : State} (h : Change sb k s s1)
    (hi : (s.inode k).inum < sb.ninodes) (hblk : ∀ o, off ≤ o → o < off + tot →
      (view sb s1 k).val ((s.inode k).inum, filePlace (o / BSIZE)) ≠ 0)
    {z : UInt32} (hz : z.toNat = max (s.inode k).din.size.toNat (off + tot)) :
    wp (iupdate sb k) E (s1.setDinode k { (s1.inode k).din with size := z }) fun _ s' =>
      Wrote sb k s s' off tot ∧ (sb.abs s'.disk).used = (view sb s1 k).used ∧
        (sb.abs s'.disk).content = (view sb s1 k).content ∧ (sb.abs s'.disk).val = (view sb s1 k).val := by
  have hinum := h.frame.inum
  obtain ⟨a, ha⟩ := h.edit.din
  rw [view_din_self, ← hinum, view_din_self] at ha
  apply (iupdate_spec hv (by rw [setDinode_inode_self, hinum]; exact hi)).mono
  rintro _ s' ⟨hinode, habs⟩
  have habs' : sb.abs s'.disk =
      (view sb s1 k).setDin (s.inode k).inum { (s1.inode k).din with size := z } := by
    rw [habs, view_setDinode, hinum]
    rfl
  have haddrs : ({ (s1.inode k).din with size := z } : Dinode).addrs =
      ((view sb s1 k).din (s.inode k).inum).addrs := by rw [← hinum, view_din_self]
  have htype : ({ (s1.inode k).din with size := z } : Dinode).type =
      ((view sb s1 k).din (s.inode k).inum).type := by rw [← hinum, view_din_self]
  have hval : (sb.abs s'.disk).val = (view sb s1 k).val := by
    rw [habs', val_setDin htype haddrs]
  have hcontent : (sb.abs s'.disk).content = (view sb s1 k).content := by
    rw [habs', content_setDin htype haddrs]
  have hdin' : (s'.inode k).din = { (s1.inode k).din with size := z } := by
    rw [hinode, setDinode_inode_self]
  refine ⟨⟨?_, ?_, ?_, ⟨a, z, ?_⟩, ?_, ?_, ?_, ?_, ?_, ?_⟩, ?_, hcontent, hval⟩
  · apply (h.frame.trans (Frame.setDinode _)).trans
    refine ⟨fun j _ => by rw [hinode], by rw [hinode], fun i hne => ?_⟩
    rw [habs, view_din_ne hne]
  · rw [habs', hdin', setDin_din_self]
  · rw [habs']
    exact h.own.setDin htype haddrs
  · rw [hdin', ha]
  · rw [hdin', hz]
  · intro x hx
    rw [hval, h.edit.val x hx]
  · intro j hj p
    rw [hval, h.edit.val_ne j hj p]
  · intro j hj o
    rw [hcontent, h.edit.content_ne j hj o]
  · intro c hc
    rw [habs']
    exact h.edit.used c hc
  · intro o ho hlt
    rw [hval]
    exact hblk o ho hlt
  · rw [habs']
    rfl

/-- What `writei` of `n` bytes does when it writes `tot` of them. -/
structure Written (sb : Superblock) (k : Slot) (src : Source) (off n tot : ℕ) (s s' : State) : Prop where
  le : tot ≤ n
  stop : tot < n → tot = 0 ∨ (off + tot) % BSIZE = 0
  wrote : Wrote sb k s s' off tot
  only : ∀ p, ¬ Below (off + n) p →
    (sb.abs s'.disk).val ((s.inode k).inum, p) = (view sb s k).val ((s.inode k).inum, p)
  full : ∀ bs, src.Gives bs → bs.length = n → tot < n → Full sb (sb.abs s'.disk) ∧
    (sb.abs s'.disk).val ((s.inode k).inum, filePlace ((off + tot) / BSIZE)) = 0
  bytes : ∀ bs, src.Gives bs → bs.length = n → ∀ o < MAXFILE * BSIZE,
    (sb.abs s'.disk).content (s.inode k).inum o =
      if off ≤ o ∧ o < off + tot then bs.getD (o - off) 0
      else (view sb s k).content (s.inode k).inum o

theorem iupdate_logged : wp (iupdate sb k) E s fun _ s' =>
    (∃ blk, s'.disk = update s.disk (sb.iblock (s.inode k).inum) blk) ∧
      s'.logged = sb.iblock (s.inode k).inum :: s.logged := by
  simp only [iupdate, bread, logWrite, wp_bind, wp_get, wp_pure, wp_modify, assign_eq_update]
  exact ⟨⟨_, rfl⟩, trivial⟩

theorem writei_of_loop (hv : sb.Valid) (hi : (s.inode k).inum < sb.ninodes)
    (hoff : off ≤ (s.inode k).din.size.toNat) (hn : off + n ≤ MAXFILE * BSIZE) {Q : ℤ → State → Prop}
    (hloop : wp (writeiLoop sb k n 0 off n src) E s fun r s1 => ∃ tot, r = (tot, off + tot) ∧
      tot ≤ n ∧ Change sb k s s1 ∧
      (∀ o, off ≤ o → o < off + tot →
        (view sb s1 k).val ((s.inode k).inum, filePlace (o / BSIZE)) ≠ 0) ∧
      ∀ s' blk, Wrote sb k s s' off tot → (sb.abs s'.disk).used = (view sb s1 k).used →
        (sb.abs s'.disk).content = (view sb s1 k).content →
        (sb.abs s'.disk).val = (view sb s1 k).val →
        s'.disk = update s1.disk (sb.iblock (s.inode k).inum) blk →
        s'.logged = sb.iblock (s.inode k).inum :: s1.logged → Q tot s') :
    wp (writei sb k src off n) E s Q := by
  have hwrap : ¬ ((s.inode k).din.size.toNat < off ∨ (off + n) % 2 ^ 32 < off) := by
    rw [mod_eq_of_lt (by simp only [MAXFILE, NDIRECT, NINDIRECT, BSIZE] at hn; omega)]
    omega
  simp only [writei, wp_bind, wp_get]
  rw [if_neg hwrap, if_neg (by omega)]
  simp only [wp_bind]
  refine hloop.mono ?_
  rintro r s1 ⟨tot, rfl, hle, hchange, hblk, hQ⟩
  -- both branches end in `iupdate` with the size the file has reached
  have hfin : ∀ z : UInt32, z.toNat = max (s.inode k).din.size.toNat (off + tot) →
      wp (do iupdate sb k; return (tot : ℤ)) E
        (s1.setDinode k { (s1.inode k).din with size := z }) Q := by
    intro z hz
    rw [wp_bind]
    refine ((hchange.finish hv hi hblk hz).and iupdate_logged).mono ?_
    rintro _ s' ⟨⟨hwrote, hused, hcontent, hval⟩, ⟨blk, hdisk⟩, hlog⟩
    rw [setDinode_inode_self, hchange.frame.inum] at hdisk hlog
    exact hQ s' blk hwrote hused hcontent hval hdisk hlog
  dsimp only
  by_cases hlt : (s.inode k).din.size.toNat < off + tot
  · rw [if_pos hlt, wp_bind, wp_setDin]
    apply hfin
    rw [UInt32.toNat_ofNat', mod_eq_of_lt (by
      simp only [MAXFILE, NDIRECT, NINDIRECT, BSIZE] at hn
      omega)]
    omega
  · rw [if_neg hlt]
    have hsz : (s1.inode k).din.size = (s.inode k).din.size := by
      obtain ⟨a, ha⟩ := hchange.edit.din
      rw [view_din_self, ← hchange.frame.inum, view_din_self] at ha
      rw [ha]
    have hsame := hfin (s1.inode k).din.size (by rw [hsz]; omega)
    rwa [show s1.setDinode k { (s1.inode k).din with size := (s1.inode k).din.size } = s1 from by
      simp only [State.setDinode, update_eq_self]] at hsame

theorem writei_written (hv : sb.Valid) (h : Own sb (view sb s k)) (ht : (s.inode k).din.type ≠ 0)
    (hi : (s.inode k).inum < sb.ninodes) (src : Source) (hoff : off ≤ (s.inode k).din.size.toNat)
    (hn : off + n ≤ MAXFILE * BSIZE) :
    wp (writei sb k src off n) E s fun r s' => ∃ tot : ℕ, r = tot ∧ Written sb k src off n tot s s' := by
  refine writei_of_loop hv hi hoff hn ?_
  apply (writeiLoop_spec hv h ht n 0 off n src (Nat.zero_le _) (sub_le _ _) (by omega)).mono
  rintro ⟨tot, off'⟩ s1 ⟨hchange, -, hle, hsum, hstop, hblk, honly, hgood⟩
  simp only at hle hsum hstop hblk hgood ⊢
  obtain rfl : off' = off + tot := by omega
  refine ⟨tot, rfl, hle, hchange, hblk, fun s' _ hwrote hused hcontent hval _ _ => ?_⟩
  refine ⟨tot, rfl, hle, fun hlt => (hstop hlt).imp_left fun h => by omega, hwrote, fun p hp => ?_,
    fun bs hbs hlen hlt => ?_, fun bs hbs hlen o ho => ?_⟩
  · rw [hval]
    exact honly p hp
  · obtain ⟨hfull, hzero⟩ := (hgood bs hbs hlen).1 hlt
    refine ⟨fun b hb => ?_, by rw [hval]; exact hzero⟩
    rw [hused]
    exact hfull b hb
  · rw [hcontent, (hgood bs hbs hlen).2 o ho]

theorem writei_spec (hv : sb.Valid) (h : Own sb (view sb s k)) (ht : (s.inode k).din.type ≠ 0)
    (hi : (s.inode k).inum < sb.ninodes) (src : Source) (hoff : off ≤ (s.inode k).din.size.toNat)
    (hn : off + n ≤ MAXFILE * BSIZE) :
    wp (writei sb k src off n) E s fun r s' => ∃ tot : ℕ, r = tot ∧ tot ≤ n ∧
      (tot < n → tot = 0 ∨ (off + tot) % BSIZE = 0) ∧ Wrote sb k s s' off tot ∧
      ∀ bs, src.Gives bs → bs.length = n → (tot < n → Full sb (sb.abs s'.disk)) ∧
        ∀ o < MAXFILE * BSIZE, (sb.abs s'.disk).content (s.inode k).inum o =
          if off ≤ o ∧ o < off + tot then bs.getD (o - off) 0
          else (view sb s k).content (s.inode k).inum o := by
  apply (writei_written hv h ht hi src hoff hn).mono
  rintro r s' ⟨tot, rfl, hw⟩
  exact ⟨tot, rfl, hw.le, hw.stop, hw.wrote, fun bs hbs hlen =>
    ⟨fun hlt => (hw.full bs hbs hlen hlt).1, hw.bytes bs hbs hlen⟩⟩

/-! ## Reading what was written -/

/-- The contents of inode `i`, up to its size. -/
def Store.contents (st : Store) (i : ℕ) : List UInt8 := st.bytes i 0 (st.din i).size.toNat

/-- An inode in use, as between `ilock` and `iunlock`: the in-memory copy is that of an allocated disk
inode. -/
structure Held (sb : Superblock) (s : State) (k : Slot) : Prop where
  inum_lt : (s.inode k).inum < sb.ninodes
  sync : (s.inode k).din = (sb.abs s.disk).din (s.inode k).inum
  type : (s.inode k).din.type ≠ 0

/-- `readi` of inode `k` returns exactly the bytes of its contents that were asked for. -/
def ReadsContents (sb : Superblock) (s : State) (k : Slot) : Prop :=
  ∀ (dst : Dest) (off n : ℕ), off ≤ (s.inode k).din.size.toNat → off + n < 2 ^ 32 →
    dst.Takes (min n ((s.inode k).din.size.toNat - off)) →
    (readi sb k dst off n).run s = .ok ((((min n ((s.inode k).din.size.toNat - off) : ℕ) : ℤ),
      dst.put ((((sb.abs s.disk).contents (s.inode k).inum).drop off).take n)), s)

theorem Held.view (h : Held sb s k) : view sb s k = sb.abs s.disk := view_eq h.sync

theorem Held.readsContents (hv : sb.Valid) (hown : Own sb (sb.abs s.disk)) (h : Held sb s k)
    (hole : (sb.abs s.disk).NoHole (s.inode k).inum) : ReadsContents sb s k := by
  intro dst off n hoff hn hdst
  have hspec := readi_spec (E := fun _ => False) hv (by rwa [h.view]) h.type dst hoff hn hdst
    (by rwa [h.view])
  obtain ⟨r, s', hrun, rfl, hr⟩ := hspec.exists_ok
  rw [hrun, hr, h.view, Store.contents, ← h.sync, drop_bytes, take_bytes, Nat.zero_add]

theorem Wrote.held (hw : Wrote sb k s s' off tot) (h : Held sb s k) : Held sb s' k where
  inum_lt := by
    rw [hw.frame.inum]
    exact h.inum_lt
  sync := by rw [hw.frame.inum, hw.sync]
  type := by
    obtain ⟨a, z, hdin⟩ := hw.din
    rw [hdin]
    exact h.type

theorem Wrote.noHole (hw : Wrote sb k s s' off tot)
    (hole : (Fs.view sb s k).NoHole (s.inode k).inum) (hoff : off ≤ (s.inode k).din.size.toNat)
    (hmax : off + tot ≤ MAXFILE * BSIZE) : (sb.abs s'.disk).NoHole (s.inode k).inum := by
  intro bn hbn
  rw [hw.sync, hw.size] at hbn
  by_cases hold : bn * BSIZE < (s.inode k).din.size.toNat
  · obtain ⟨hlt, hne⟩ := hole bn (by rwa [view_din_self])
    exact ⟨hlt, by rwa [hw.val _ hne]⟩
  · refine ⟨?_, ?_⟩
    · simp only [MAXFILE, NDIRECT, NINDIRECT, BSIZE] at *
      omega
    · have := hw.block (bn * BSIZE) (by omega) (by omega)
      rwa [Nat.mul_div_cancel bn (by decide)] at this

theorem contents_replace (hoff : off ≤ (st.din i).size.toNat) (hle : tot ≤ bs.length)
    (hmax : max (st.din i).size.toNat (off + tot) ≤ MAXFILE * BSIZE)
    (hsize : (st'.din i).size.toNat = max (st.din i).size.toNat (off + tot))
    (hcontent : ∀ o < MAXFILE * BSIZE, st'.content i o =
      if off ≤ o ∧ o < off + tot then bs.getD (o - off) 0 else st.content i o) : st'.contents i =
      (st.contents i).take off ++ bs.take tot ++ (st.contents i).drop (off + tot) := by
  have hsplit : st'.contents i = st'.bytes i 0 off ++ st'.bytes i off tot ++
      st'.bytes i (off + tot) ((st'.din i).size.toNat - (off + tot)) := by
    have h1 := st'.bytes_append i 0 off tot
    have h2 := st'.bytes_append i 0 (off + tot) ((st'.din i).size.toNat - (off + tot))
    rw [Nat.zero_add] at h1 h2
    rw [h1, h2, Store.contents]
    congr 1
    omega
  rw [hsplit, Store.contents, take_bytes, drop_bytes, Nat.zero_add]
  congr 1
  · congr 1
    · rw [Nat.min_eq_left hoff]
      apply bytes_congr
      intro j hj
      rw [hcontent _ (by omega), if_neg (by omega)]
    · apply ext_getElem
      · rw [length_bytes, length_take]
        omega
      · intro j hj hj'
        rw [length_bytes] at hj
        simp only [Store.bytes, getElem_map, getElem_range, getElem_take]
        rw [hcontent _ (by omega), if_pos (by omega), Nat.add_sub_cancel_left,
          getD_eq_getElem _ _ (by omega)]
  · rw [show (st'.din i).size.toNat - (off + tot) = (st.din i).size.toNat - (off + tot) by omega]
    apply bytes_congr
    intro j hj
    rw [hcontent _ (by omega), if_neg (by omega)]

theorem Written.contents_eq (hw : Written sb k src off n tot s s') (hk : Held sb s k)
    (hoff : off ≤ (s.inode k).din.size.toNat) (hsize : (s.inode k).din.size.toNat ≤ MAXFILE * BSIZE)
    (hmax : off + n ≤ MAXFILE * BSIZE) (hbs : src.Gives bs) (hlen : bs.length = n) :
    (sb.abs s'.disk).contents (s.inode k).inum =
      ((sb.abs s.disk).contents (s.inode k).inum).take off ++ bs.take tot ++
        ((sb.abs s.disk).contents (s.inode k).inum).drop (off + tot) := by
  have hle := hw.le
  have hbytes := hw.bytes bs hbs hlen
  rw [hk.view] at hbytes
  rw [hk.sync] at hoff hsize
  refine contents_replace hoff (by omega) (by omega) ?_ hbytes
  rw [hw.wrote.sync, hw.wrote.size, hk.sync]

/-- **Files are read-after-write consistent and isolated.** `writei` of `n` bytes at an offset within
the file returns the number `tot` of bytes written, fewer than `n` only on a full disk. It replaces these
bytes of the contents, extends the size if need be, and leaves the other inodes alone: size, contents and
block map. Before and after, `readi` returns the contents. -/
theorem writei_readi (hv : sb.Valid) (hown : Own sb (sb.abs s.disk))
    (hole : ∀ i, ((sb.abs s.disk).din i).type ≠ 0 → (sb.abs s.disk).NoHole i) (hk : Held sb s k)
    (src : Source) (bs : List UInt8) (off : ℕ) (hoff : off ≤ (s.inode k).din.size.toNat)
    (hmax : off + bs.length ≤ MAXFILE * BSIZE) (hsrc : src.Gives bs) :
    ∃ (tot : ℕ) (s' : State), (writei sb k src off bs.length).run s = .ok ((tot : ℤ), s') ∧
      tot ≤ bs.length ∧ (tot < bs.length → Full sb (sb.abs s'.disk)) ∧
      (s'.inode k).inum = (s.inode k).inum ∧
      (sb.abs s'.disk).contents (s.inode k).inum =
        ((sb.abs s.disk).contents (s.inode k).inum).take off ++ bs.take tot ++
          ((sb.abs s.disk).contents (s.inode k).inum).drop (off + tot) ∧
      ((sb.abs s'.disk).din (s.inode k).inum).size.toNat =
        max ((sb.abs s.disk).din (s.inode k).inum).size.toNat (off + tot) ∧
      (∀ i ≠ (s.inode k).inum,
        (sb.abs s'.disk).contents i = (sb.abs s.disk).contents i ∧
        ((sb.abs s'.disk).din i).size = ((sb.abs s.disk).din i).size ∧
        ∀ p, (sb.abs s'.disk).val (i, p) = (sb.abs s.disk).val (i, p)) ∧
      ReadsContents sb s k ∧ ReadsContents sb s' k := by
  have hview := hk.view
  have hole' := hole _ (by rw [← hk.sync]; exact hk.type)
  have hspec := writei_written (E := fun _ => False) hv (by rwa [hview]) hk.type hk.inum_lt src hoff hmax
  obtain ⟨r, s', hrun, tot, rfl, hwritten⟩ := hspec.exists_ok
  have hw := hwritten.wrote
  have hle := hwritten.le
  have hsize : ((sb.abs s'.disk).din (s.inode k).inum).size.toNat =
      max ((sb.abs s.disk).din (s.inode k).inum).size.toNat (off + tot) := by
    rw [hw.sync, hw.size, hk.sync]
  -- the last block of the old contents lies below the largest file
  have hold : (s.inode k).din.size.toNat ≤ MAXFILE * BSIZE := by
    by_contra hbig
    have := (hole' MAXFILE (by rw [← hk.sync]; omega)).1
    omega
  refine ⟨tot, s', hrun, hle, fun hlt => (hwritten.full bs hsrc rfl hlt).1, hw.frame.inum,
    hwritten.contents_eq hk hoff hold hmax hsrc rfl, hsize, ?_, ?_, ?_⟩
  · intro i hi
    have hdin : (sb.abs s'.disk).din i = (sb.abs s.disk).din i := hw.frame.din i hi
    refine ⟨?_, by rw [hdin], fun p => ?_⟩
    · rw [Store.contents, hdin]
      apply bytes_congr
      intro j _
      rw [hw.content_ne i hi, hview]
    · rw [hw.val_ne i hi, hview]
  · exact hk.readsContents hv hown hole'
  · apply (hw.held hk).readsContents hv hw.own
    rw [hw.frame.inum]
    exact hw.noHole (by rwa [hview]) hoff (by omega)

/-! A file system of eight blocks: inode 1 is an empty file, block 3 is the bit map, and the last four
blocks are data blocks. -/

/-- Its super block. -/
def tiny : Superblock where
  size := 8
  nblocks := 4
  ninodes := 2
  nlog := 0
  logstart := 2
  inodestart := 2
  bmapstart := 3

/-- An empty file. -/
def tinyFile : Dinode := { Dinode.zero with type := 2, nlink := 1 }

/-- The file is locked in the first slot of the inode table; `bits` is the bit map. -/
def tinyState (bits : Block) : State where
  disk := assign (assign (fun _ => zeroBlock) 2 (zeroBlock.putDinode 1 tinyFile)) 3 bits
  inode k := if k = 0 then ⟨1, 1, true, true, tinyFile⟩ else ⟨0, 0, false, false, .zero⟩
  logged := []

/-- The bit map with the four blocks before the data region marked. -/
def tinyBits : Block := fun k => if k = 0 then 15 else 0

theorem tiny_valid : tiny.Valid where
  root := by decide
  inodes i hi := by
    simp only [tiny, Superblock.iblock, IPB] at *
    omega
  bitmap b hb := by
    simp only [tiny, Superblock.bblock, Superblock.dataStart, BPB, BSIZE] at *
    omega
  size_lt := by decide

theorem tiny_noHole {d : Disk} (h : ∀ i < 2, (tiny.abs d).NoHole i) : ∀ i, (tiny.abs d).NoHole i :=
  @Superblock.forall_din tiny d (fun i e => ∀ bn, bn * BSIZE < e.size.toNat →
    bn < MAXFILE ∧ (tiny.abs d).val (i, filePlace bn) ≠ 0) h fun _ _ hbn => absurd hbn (Nat.not_lt_zero _)

theorem writei_readi_tiny : ∃ (tot : ℕ) (s' : State),
    (writei tiny 0 (.kernel [7]) 0 1).run (tinyState tinyBits) = .ok ((tot : ℤ), s') ∧
      (tiny.abs s'.disk).contents 1 = ([7] : List UInt8).take tot := by
  have hown : Own tiny (tiny.abs (tinyState tinyBits).disk) :=
    ⟨tiny_valid.owns (fun _ => (1, .inl 0)) (by decide +kernel), by decide +kernel⟩
  have hk : Held tiny (tinyState tinyBits) 0 := ⟨by decide, by decide +kernel, by decide⟩
  obtain ⟨tot, s', hrun, -, -, -, hcontents, -⟩ := writei_readi tiny_valid hown
    (fun i _ => tiny_noHole (by decide +kernel) i) hk (.kernel [7]) [7] 0 (Nat.zero_le _) (by decide) (prefix_refl _)
  refine ⟨tot, s', hrun, hcontents.trans ?_⟩
  have hempty : (tiny.abs (tinyState tinyBits).disk).contents 1 = [] := by decide +kernel
  rw [show ((tinyState tinyBits).inode 0).inum = 1 from rfl, hempty]
  simp

/-- If the blocks before the data region are not marked, `balloc` finds block 0 and `bmap` takes that for
a full disk: nothing is written although four data blocks are free. -/
theorem writei_short_unmarked :
    tiny.Valid ∧
      Owns (tiny.abs (tinyState zeroBlock).disk).val tiny.IsData
        (tiny.abs (tinyState zeroBlock).disk).used ∧
      (∀ i, (tiny.abs (tinyState zeroBlock).disk).NoHole i) ∧ Held tiny (tinyState zeroBlock) 0 ∧
      (Source.kernel [7]).Gives [7] ∧
      ∃ r s', (writei tiny 0 (.kernel [7]) 0 1).run (tinyState zeroBlock) = .ok (r, s') ∧
        r = 0 ∧ (tiny.abs s'.disk).used 4 = false := by
  refine ⟨tiny_valid, tiny_valid.owns (fun _ => (1, .inl 0)) (by decide +kernel),
    tiny_noHole (by decide +kernel), ⟨by decide, by decide +kernel, by decide⟩, prefix_refl _, ?_⟩
  have hrun : wp (writei tiny 0 (.kernel [7]) 0 1) (fun _ => False) (tinyState zeroBlock) fun r s' =>
      r = 0 ∧ (tiny.abs s'.disk).used 4 = false := by decide +kernel
  exact hrun.exists_ok

end Xv6.Fs
