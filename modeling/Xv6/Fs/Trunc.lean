import Xv6.Fs.BlockSpec

/-!
# Freeing the blocks of an inode

Specifications of `bfree` and `itrunc`. While the entries of an indirect block are freed one by one, the
indirect block still names them; the loop invariant is `Owns` for the places without the entries that
are done.
-/

namespace Xv6.Fs

open Lib Function Store

variable {sb : Superblock} {E : Err → Prop} {s : State} {k : Slot}

theorem bfree_spec (hv : sb.Valid) {b : ℕ} (hb : b < sb.size) (hu : (sb.abs s.disk).used b = true) :
    wp (bfree sb b) E s fun _ s' => s'.inode = s.inode ∧
      sb.abs s'.disk =
        { sb.abs s.disk with used := update (sb.abs s.disk).used b false } := by
  have hbit : (s.disk (sb.bblock b)).bit (b % BPB) = true := by
    simp only [Superblock.abs, Bool.and_eq_true] at hu
    exact hu.2
  simp only [bfree, bread, logWrite, wp_bind, wp_get, wp_pure, assign_eq_update]
  rw [if_pos hbit, wp_modify]
  exact ⟨rfl, hv.abs_clearBit _ hb⟩

theorem truncDirect_spec (hv : sb.Valid) (h : Own sb (view sb s k)) (ht : (s.inode k).din.type ≠ 0)
    (n i : ℕ) (hn : i + n ≤ NDIRECT) : wp (truncDirect sb k n i) E s fun _ s' =>
      Frame sb k s s' ∧ Own sb (view sb s' k) ∧ (sb.abs s'.disk).data = (sb.abs s.disk).data ∧
      (s'.inode k).din = { (s.inode k).din with
        addrs := fun j => if i ≤ j.val ∧ j.val < i + n then 0 else (s.inode k).din.addrs j } := by
  induction n generalizing s i with
  | zero =>
    rw [truncDirect, wp_pure]
    refine ⟨Frame.refl s, h, rfl, Dinode.ext rfl rfl rfl rfl rfl (funext fun e => ?_)⟩
    exact (if_neg (by omega)).symm
  | succ n ih =>
    have hj : ((Fin.ofNat (NDIRECT + 1) i : Fin (NDIRECT + 1)) : ℕ) = i :=
      Nat.mod_eq_of_lt (by omega)
    obtain ⟨j, hj⟩ : ∃ j : Fin (NDIRECT + 1), j = Fin.ofNat _ i ∧ j.val = i := ⟨_, rfl, hj⟩
    have hview : ((view sb s k).din (s.inode k).inum).type ≠ 0 := by rwa [view_din_self]
    have hval : (view sb s k).val ((s.inode k).inum, .inl j) = ((s.inode k).din.addrs j).toNat := by
      rw [val_inl hview, view_din_self]
    simp only [truncDirect, wp_bind, wp_get, ← hj.1]
    by_cases h0 : ((s.inode k).din.addrs j).toNat = 0
    · rw [if_neg (by simpa using h0)]
      apply (ih h ht (i + 1) (by omega)).mono
      rintro _ s' ⟨hframe, hown, hdata, hdin⟩
      refine ⟨hframe, hown, hdata, hdin.trans (Dinode.ext rfl rfl rfl rfl rfl (funext fun e => ?_))⟩
      change (if _ then _ else _) = if _ then _ else _
      by_cases he : e.val = i
      · rw [if_neg (by omega), if_pos (by omega), show e = j from Fin.ext (he.trans hj.2.symm)]
        exact UInt32.toNat_inj.mp h0
      · exact if_congr (by omega) rfl rfl
    · rw [if_pos h0]
      have howned := h.owns.owned _ (by rwa [hval])
      rw [hval] at howned
      simp only [wp_bind, wp_setDin, assign_eq_update]
      apply (bfree_spec hv howned.1.2 howned.2).mono
      rintro _ s1 ⟨hinode, habs⟩
      obtain ⟨s2, hs2⟩ : ∃ s2, s2 = s1.setDinode k { (s1.inode k).din with
        addrs := update (s1.inode k).din.addrs j 0 } := ⟨_, rfl⟩
      rw [← hs2]
      have hframe2 : Frame sb k s s2 := by
        rw [hs2]
        refine Frame.trans ⟨fun _ _ => by rw [hinode], by rw [hinode], fun _ _ => ?_⟩
          (Frame.setDinode _)
        rw [habs]
      have hdin2 : (s2.inode k).din = { (s.inode k).din with
          addrs := update (s.inode k).din.addrs j 0 } := by
        rw [hs2, setDinode_inode_self, hinode]
      -- the place is emptied and its block is no longer marked
      have hview2 : view sb s2 k = { (view sb s k).setAddr (s.inode k).inum j 0 with
            used := update (view sb s k).used ((s.inode k).din.addrs j).toNat false } := by
        rw [hs2, view_setDinode, view, habs, hinode, setAddr, view_din_self]
        rfl
      have hval2 : (view sb s2 k).val = update (view sb s k).val ((s.inode k).inum, .inl j) 0 := by
        rw [hview2, ← val_setAddr hview (by decide) j]
        · rfl
        · intro hind
          have : i = NDIRECT := by rw [← hj.2, hind]; rfl
          omega
      have hown2 : Own sb (view sb s2 k) := by
        refine ⟨?_, fun b hb => ?_⟩
        · rw [hval2, hview2, ← hval]
          exact h.owns.release (by rwa [hval])
        · rw [hview2]
          exact (update_of_ne (by have := howned.1.1; omega) ..).trans (h.low b hb)
      apply (ih hown2 (by rw [hdin2]; exact ht) (i + 1) (by omega)).mono
      rintro _ s' ⟨hframe, hown, hdata, hdin⟩
      refine ⟨hframe2.trans hframe, hown, ?_, ?_⟩
      · rw [hdata, hs2, setDinode_disk, habs]
      · rw [hdin, hdin2]
        refine Dinode.ext rfl rfl rfl rfl rfl (funext fun e => ?_)
        change (if _ then _ else update _ _ _ _) = if _ then _ else _
        by_cases he : e = j
        · rw [if_neg (by rw [he, hj.2]; omega), if_pos (by rw [he, hj.2]; omega), he, update_self]
        · have hne : e.val ≠ i := fun heq => he (Fin.ext (heq.trans hj.2.symm))
          rw [update_of_ne he]
          exact if_congr (by omega) rfl rfl

theorem truncIndirect_spec (hv : sb.Valid) {i : ℕ} {bp : Block} (n j : ℕ) (hn : j + n = NINDIRECT)
    {val : ℕ × Place → ℕ} (h : Owns val sb.IsData (sb.abs s.disk).used)
    (hval : ∀ e : Fin NINDIRECT, j ≤ e.val → val (i, .inr e) = bp.word e) :
    wp (truncIndirect sb bp n j) E s fun _ s' =>
      s'.inode = s.inode ∧ (sb.abs s'.disk).din = (sb.abs s.disk).din ∧
      (sb.abs s'.disk).data = (sb.abs s.disk).data ∧
      (∀ b, ¬ sb.IsData b → (sb.abs s'.disk).used b = (sb.abs s.disk).used b) ∧
      Owns (fun x => if ∃ e : Fin NINDIRECT, j ≤ e.val ∧ x = (i, .inr e) then 0 else val x)
        sb.IsData (sb.abs s'.disk).used := by
  induction n generalizing s j val with
  | zero =>
    rw [truncIndirect, wp_pure]
    refine ⟨rfl, rfl, rfl, fun _ _ => rfl, ?_⟩
    convert h using 1
    funext x
    rw [if_neg]
    rintro ⟨e, he, -⟩
    have := e.isLt
    omega
  | succ n ih =>
    obtain ⟨e0, he0⟩ : ∃ e : Fin NINDIRECT, e.val = j := ⟨⟨j, by omega⟩, rfl⟩
    have hv0 := hval e0 (by omega)
    rw [he0] at hv0
    -- the places that remain after entry `j`
    have hrest : ∀ v : ℕ × Place → ℕ, (∀ x, x ≠ (i, .inr e0) → v x = val x) → v (i, .inr e0) = 0 →
        (fun x => if ∃ e : Fin NINDIRECT, j + 1 ≤ e.val ∧ x = (i, .inr e) then 0 else v x) =
        fun x => if ∃ e : Fin NINDIRECT, j ≤ e.val ∧ x = (i, .inr e) then 0 else val x := by
      intro v hne h0
      funext x
      by_cases hx : x = (i, .inr e0)
      · refine Eq.trans ?_ (if_pos ⟨e0, by omega, hx⟩).symm
        split
        · rfl
        · rw [hx, h0]
      · rw [hne x hx]
        apply if_congr _ rfl rfl
        constructor
        · rintro ⟨e, he, rfl⟩
          exact ⟨e, by omega, rfl⟩
        · rintro ⟨e, he, rfl⟩
          refine ⟨e, ?_, rfl⟩
          have : e.val ≠ j := fun heq => hx (by rw [Fin.ext (heq.trans he0.symm)])
          omega
    rw [truncIndirect]
    by_cases h0 : bp.word j = 0
    · rw [if_neg (by simpa using h0)]
      rw [h0] at hv0
      have hrec := ih (s := s) (j + 1) (by omega) h fun e he => hval e (by omega)
      rwa [hrest val (fun _ _ => rfl) hv0] at hrec
    · rw [if_pos h0, wp_bind]
      have howned := h.owned (i, .inr e0) (by rwa [hv0])
      rw [hv0] at howned
      apply (bfree_spec hv howned.1.2 howned.2).mono
      rintro _ s1 ⟨hinode, habs⟩
      have hrel := h.release (x := (i, .inr e0)) (by rwa [hv0])
      rw [hv0] at hrel
      have hused : (sb.abs s1.disk).used = update (sb.abs s.disk).used (bp.word j) false := by rw [habs]
      rw [← hused] at hrel
      apply (ih (j + 1) (by omega) hrel ?_).mono
      · rintro _ s' ⟨hinode', hdin, hdata, hlow, howns⟩
        refine ⟨hinode'.trans hinode, by rw [hdin, habs], by rw [hdata, habs], ?_, ?_⟩
        · intro b hb
          rw [hlow b hb, hused, update_of_ne]
          rintro rfl
          exact hb howned.1
        · rwa [hrest _ (fun x hx => update_of_ne hx ..) (update_self ..)] at howns
      · intro e he
        rw [update_of_ne, hval e (by omega)]
        intro heq
        have : e = e0 := Sum.inr.inj (congrArg Prod.snd heq)
        rw [this] at he
        omega

/-- Inode `k` lost its blocks, and its disk inode is up to date. -/
structure Truncated (sb : Superblock) (k : Slot) (s s' : State) : Prop where
  frame : Frame sb k s s'
  sync : (sb.abs s'.disk).din (s.inode k).inum = (s'.inode k).din
  own : Own sb (sb.abs s'.disk)
  din : (s'.inode k).din = { (s.inode k).din with addrs := fun _ => 0, size := 0 }
  data : (sb.abs s'.disk).data = (sb.abs s.disk).data

theorem Store.val_of_addrs_zero {st : Store} {i : ℕ} (h : ∀ j, (st.din i).addrs j = 0) (p : Place) :
    st.val (i, p) = 0 := by
  by_cases ht : (st.din i).type = 0
  · exact val_of_free ht p
  · cases p with
    | inl j =>
      rw [val_inl ht, h]
      rfl
    | inr j =>
      rw [val_inr ht, Store.ind, h]
      rfl

theorem itruncIndirect_own (hv : sb.Valid) (h : Own sb (view sb s k))
    (ht : (s.inode k).din.type ≠ 0) (hdirect : ∀ j ≠ indirect, (s.inode k).din.addrs j = 0)
    (h0 : (s.inode k).din.addrs indirect ≠ 0) : wp (do
      truncIndirect sb (s.disk ((s.inode k).din.addrs indirect).toNat) NINDIRECT 0
      bfree sb ((s.inode k).din.addrs indirect).toNat) E s fun _ s' =>
      s'.inode = s.inode ∧ (sb.abs s'.disk).din = (sb.abs s.disk).din ∧
      (sb.abs s'.disk).data = (sb.abs s.disk).data ∧
      (∀ b < sb.dataStart, (sb.abs s'.disk).used b = true) ∧
      Owns (fun x => if x.1 = (s.inode k).inum then 0 else (view sb s k).val x) sb.IsData
        (sb.abs s'.disk).used := by
  have hview : ((view sb s k).din (s.inode k).inum).type ≠ 0 := by rwa [view_din_self]
  have hind : (view sb s k).ind (s.inode k).inum = ((s.inode k).din.addrs indirect).toNat := by
    rw [Store.ind, view_din_self]
  have hne : ((s.inode k).din.addrs indirect).toNat ≠ 0 := fun hz => h0 (UInt32.toNat_inj.mp hz)
  have hval := val_indirect hview
  rw [hind] at hval
  have hdata : (view sb s k).data ((s.inode k).din.addrs indirect).toNat =
      s.disk ((s.inode k).din.addrs indirect).toNat := by
    refine if_pos ?_
    rw [← hval] at hne ⊢
    exact h.isData_val hne
  rw [wp_bind]
  apply (truncIndirect_spec hv NINDIRECT 0 (Nat.zero_add _) h.owns (i := (s.inode k).inum) ?_).mono
  · rintro _ s1 ⟨hinode, hdin, hdata1, hlow, howns⟩
    -- what is left of this inode is the indirect block itself
    obtain ⟨v, hleft_eq⟩ : ∃ v : ℕ × Place → ℕ, v = fun x =>
        if ∃ e : Fin NINDIRECT, 0 ≤ e.val ∧ x = ((s.inode k).inum, .inr e) then 0
        else (view sb s k).val x := ⟨_, rfl⟩
    rw [← hleft_eq] at howns
    have hleft : v ((s.inode k).inum, .inl indirect) = ((s.inode k).din.addrs indirect).toNat := by
      simp only [hleft_eq, hval, Prod.mk.injEq, reduceCtorEq, and_false, exists_false, if_false]
    have howned := howns.owned ((s.inode k).inum, .inl indirect) (by rwa [hleft])
    rw [hleft] at howned
    apply (bfree_spec hv howned.1.2 howned.2).mono
    rintro _ s' ⟨hinode', habs⟩
    have hrel := howns.release (x := ((s.inode k).inum, .inl indirect)) (by rwa [hleft])
    rw [hleft] at hrel
    refine ⟨hinode'.trans hinode, by rw [habs, hdin], by rw [habs, hdata1], ?_, ?_⟩
    · intro b hb
      have hnot : ¬ sb.IsData b := fun hb' => by
        have := hb'.1
        omega
      rw [habs]
      refine (update_of_ne ?_ ..).trans ((hlow b hnot).trans (h.low b hb))
      rintro rfl
      exact hnot howned.1
    · rw [habs]
      convert hrel using 1
      rw [hleft_eq]
      funext x
      obtain ⟨i, p⟩ := x
      by_cases hi : i = (s.inode k).inum
      · subst hi
        rw [if_pos rfl]
        cases p with
        | inl j =>
          by_cases hj : j = indirect
          · rw [hj, update_self]
          · have hpne : ((s.inode k).inum, (Sum.inl j : Place)) ≠
                ((s.inode k).inum, .inl indirect) := by simpa using hj
            rw [update_of_ne hpne]
            simp only [Prod.mk.injEq, reduceCtorEq, and_false, exists_false, if_false]
            rw [val_inl hview, view_din_self, hdirect j hj]
            rfl
        | inr e =>
          have hpne : ((s.inode k).inum, (Sum.inr e : Place)) ≠
              ((s.inode k).inum, .inl indirect) := by simp
          rw [update_of_ne hpne, if_pos ⟨e, Nat.zero_le _, rfl⟩]
      · have hpne : (i, p) ≠ ((s.inode k).inum, (Sum.inl indirect : Place)) := fun heq =>
          hi (congrArg Prod.fst heq)
        rw [if_neg hi, update_of_ne hpne, if_neg]
        rintro ⟨e, -, heq⟩
        exact hi (congrArg Prod.fst heq)
  · intro e _
    rw [val_inr hview, hind, if_neg hne, hdata]

theorem itrunc_spec (hv : sb.Valid) (h : Own sb (view sb s k)) (ht : (s.inode k).din.type ≠ 0)
    (hi : (s.inode k).inum < sb.ninodes) : wp (itrunc sb k) E s fun _ s' => Truncated sb k s s' := by
  -- the end, from a state in which the inode owns nothing
  have hend : ∀ s1 : State, Frame sb k s s1 →
      (s1.inode k).din = { (s.inode k).din with addrs := fun _ => 0 } →
      (sb.abs s1.disk).data = (sb.abs s.disk).data →
      (∀ b < sb.dataStart, (sb.abs s1.disk).used b = true) →
      Owns (fun x => if x.1 = (s.inode k).inum then 0 else (view sb s k).val x) sb.IsData
        (sb.abs s1.disk).used →
      wp (do
        setDin k fun d => { d with size := 0 }
        iupdate sb k) E s1 fun _ s' => Truncated sb k s s' := by
    intro s1 hframe hdin hdata hlow howns
    rw [wp_bind, wp_setDin]
    apply (iupdate_spec hv (by rw [setDinode_inode_self, hframe.inum]; exact hi)).mono
    rintro _ s' ⟨hinode, habs⟩
    rw [view_setDinode, hframe.inum] at habs
    have hdin' : (s'.inode k).din = { (s.inode k).din with addrs := fun _ => 0, size := 0 } := by
      rw [hinode, setDinode_inode_self, hdin]
    have hself : (sb.abs s'.disk).din (s.inode k).inum = (s'.inode k).din := by
      rw [habs, hinode, setDinode_inode_self]
      exact update_self ..
    have hne : ∀ i ≠ (s.inode k).inum, (sb.abs s'.disk).din i = (sb.abs s.disk).din i := by
      intro i hi'
      rw [habs]
      refine (update_of_ne hi' ..).trans ?_
      rw [view_din_ne (by rwa [hframe.inum]), hframe.din i hi']
    have hdata' : (sb.abs s'.disk).data = (sb.abs s.disk).data := by
      rw [habs]
      exact hdata
    have hval : (sb.abs s'.disk).val =
        fun x => if x.1 = (s.inode k).inum then 0 else (view sb s k).val x := by
      funext ⟨i, p⟩
      by_cases hi' : i = (s.inode k).inum
      · rw [if_pos hi', hi']
        apply val_of_addrs_zero
        intro j
        rw [hself, hdin']
      · rw [if_neg hi']
        apply val_congr
        · rw [hne i hi', view_din_ne hi']
        · intro _ _
          rw [hdata']
          rfl
    refine ⟨(hframe.trans (Frame.setDinode _)).trans ⟨fun j _ => by rw [hinode], by rw [hinode], ?_⟩,
      hself, ⟨?_, ?_⟩, hdin', hdata'⟩
    · intro i hi'
      rw [setDinode_inode_self, hframe.inum] at hi'
      rw [hne i hi', setDinode_disk, hframe.din i hi']
    · rw [hval, habs]
      exact howns
    · intro b hb
      rw [habs]
      exact hlow b hb
  unfold itrunc
  rw [wp_bind]
  apply (truncDirect_spec hv h ht NDIRECT 0 (Nat.zero_add _).le).mono
  rintro _ s1 ⟨hframe, hown, hdata, hdin⟩
  have ht1 : (s1.inode k).din.type ≠ 0 := by rwa [hdin]
  have hinum := hframe.inum
  have hdirect : ∀ j ≠ indirect, (s1.inode k).din.addrs j = 0 := by
    intro j hj
    rw [hdin]
    have hlt : j.val < NDIRECT := by
      have h1 := j.isLt
      have h2 : j.val ≠ NDIRECT := fun heq => hj (Fin.ext heq)
      omega
    exact if_pos ⟨Nat.zero_le _, by omega⟩
  have hval : ∀ x : ℕ × Place, x.1 ≠ (s.inode k).inum → (view sb s1 k).val x = (view sb s k).val x := by
    rintro ⟨i, p⟩ hx
    apply val_congr
    · rw [view_din_ne (by rwa [hinum]), view_din_ne hx, hframe.din i hx]
    · intro _ _
      exact congrFun hdata _
  have hghost : (fun x : ℕ × Place => if x.1 = (s.inode k).inum then 0 else (view sb s1 k).val x) =
      fun x => if x.1 = (s.inode k).inum then 0 else (view sb s k).val x := by
    funext x
    by_cases hx : x.1 = (s.inode k).inum
    · rw [if_pos hx, if_pos hx]
    · rw [if_neg hx, if_neg hx, hval x hx]
  simp only [wp_bind, wp_get]
  by_cases h0 : (s1.inode k).din.addrs indirect = 0
  · have hz : ¬ ((s1.inode k).din.addrs indirect).toNat ≠ 0 := by
      rw [h0]
      exact fun hne => hne rfl
    rw [if_neg hz]
    have hall : ∀ j, (s1.inode k).din.addrs j = 0 := fun j => by
      by_cases hj : j = indirect
      · rw [hj, h0]
      · exact hdirect j hj
    apply hend s1 hframe _ hdata hown.low
    · have howns : (fun x : ℕ × Place => if x.1 = (s.inode k).inum then 0
          else (view sb s1 k).val x) = (view sb s1 k).val := by
        funext ⟨i, p⟩
        by_cases hx : i = (s.inode k).inum
        · rw [if_pos hx, hx, ← hinum]
          refine (val_of_addrs_zero (fun j => ?_) p).symm
          rw [view_din_self, hall j]
        · rw [if_neg hx]
      rw [← hghost, howns]
      exact hown.owns
    · rw [hdin]
      refine Dinode.ext rfl rfl rfl rfl rfl (funext fun j => ?_)
      have := hall j
      rwa [hdin] at this
  · have hz : ((s1.inode k).din.addrs indirect).toNat ≠ 0 := fun hz => h0 (UInt32.toNat_inj.mp hz)
    rw [if_pos hz]
    simp only [bread, wp_bind, wp_get, wp_pure]
    have hmid := itruncIndirect_own (E := E) hv hown ht1 hdirect h0
    rw [wp_bind] at hmid
    apply hmid.mono
    intro _ s2 hs2
    apply hs2.mono
    rintro _ s3 ⟨hinode, hdin3, hdata3, hlow, howns⟩
    rw [wp_setDin, assign_eq_update]
    have hfin := hend (s3.setDinode k { (s3.inode k).din with
      addrs := update (s3.inode k).din.addrs indirect 0 }) ?_ ?_ (hdata3.trans hdata) hlow ?_
    · rwa [wp_bind] at hfin
    · refine (hframe.trans ⟨fun j _ => by rw [hinode], by rw [hinode], fun i _ => ?_⟩).trans
        (Frame.setDinode _)
      rw [hdin3]
    · rw [setDinode_inode_self, hinode]
      refine Dinode.ext ?_ ?_ ?_ ?_ ?_ (funext fun j => ?_)
      · exact (congrArg Dinode.type hdin :)
      · exact (congrArg Dinode.major hdin :)
      · exact (congrArg Dinode.minor hdin :)
      · exact (congrArg Dinode.nlink hdin :)
      · exact (congrArg Dinode.size hdin :)
      · change update (s1.inode k).din.addrs indirect 0 j = 0
        by_cases hj : j = indirect
        · rw [hj, update_self]
        · rw [update_of_ne hj, hdirect j hj]
    · rw [hinum, hghost] at howns
      exact howns

end Xv6.Fs
