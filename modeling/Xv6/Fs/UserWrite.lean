import Xv6.Fs.Reserve

/-!
# Writing from user memory

What `writei` does with a source in a process's memory, some of which may not be mapped. It stores whole
pieces of blocks until it comes to the end, until there is no block, or until a copy fails. A copy that
fails may have stored bytes already, up to the first address that is not mapped: these are in the buffer
of the block, but neither counted nor logged.
-/

namespace Xv6.Fs

open Lib Function

variable {sb : Superblock} {E : Err → Prop} {s s' s'' : State} {k : Slot}

/-! ## Changes that are logged -/

/-- Every block that changes between `s` and `s'` is passed to `log_write`. -/
structure Tracks (s s' : State) : Prop where
  logged : ∀ b ∈ s.logged, b ∈ s'.logged
  dirty : ∀ b, s'.disk b ≠ s.disk b → b ∈ s'.logged

namespace Tracks

theorem refl (s : State) : Tracks s s := ⟨fun _ h => h, fun _ h => absurd rfl h⟩

theorem trans (h : Tracks s s') (h' : Tracks s' s'') : Tracks s s'' := by
  refine ⟨fun b hb => h'.logged b (h.logged b hb), fun b hb => ?_⟩
  by_cases heq : s''.disk b = s'.disk b
  · exact h'.logged b (h.dirty b (by rwa [← heq]))
  · exact h'.dirty b heq

theorem logWrite (h : Tracks s s') {b : ℕ} {blk : Block}
    (hdisk : s''.disk = update s'.disk b blk) (hlog : s''.logged = b :: s'.logged) : Tracks s s'' := by
  refine h.trans ⟨fun c hc => ?_, fun c hc => ?_⟩
  · rw [hlog]
    exact List.mem_cons_of_mem _ hc
  · rw [hlog]
    by_cases hcb : c = b
    · exact hcb ▸ List.mem_cons_self
    · rw [hdisk, update_of_ne hcb] at hc
      exact absurd rfl hc

theorem same (h : Tracks s s') (hdisk : s''.disk = s'.disk) (hlog : s''.logged = s'.logged) :
    Tracks s s'' := by
  refine h.trans ⟨fun c hc => by rwa [hlog], fun c hc => ?_⟩
  rw [hdisk] at hc
  exact absurd rfl hc

theorem taken (s : State) (bb bi b : ℕ) : Tracks s (takenAt bb bi s b) := by
  have h1 : Tracks s ⟨update s.disk bb ((s.disk bb).orBit bi), s.inode, bb :: s.logged⟩ :=
    (refl s).logWrite rfl rfl
  exact h1.logWrite rfl rfl

end Tracks

theorem addrOrAlloc_own (hv : sb.Valid) (h : Own sb (view sb s k)) (j : Fin (NDIRECT + 1)) :
    wp (addrOrAlloc sb k j) E s fun b s' =>
      (b ≠ 0 ∧ b = ((s.inode k).din.addrs j).toNat ∧ s' = s) ∨ (b = 0 ∧ s' = s) ∨
      (b ≠ 0 ∧ sb.IsData b ∧ (view sb s k).used b = false ∧ s' = (taken sb s b).setDinode k
        { (s.inode k).din with addrs := assign (s.inode k).din.addrs j (UInt32.ofNat b) }) := by
  simp only [addrOrAlloc, wp_bind, wp_get]
  by_cases h0 : ((s.inode k).din.addrs j).toNat = 0
  · rw [if_pos h0, wp_bind]
    refine (balloc_own hv h).mono ?_
    rintro b s' (⟨rfl, rfl, -⟩ | ⟨hb, hfree, rfl⟩)
    · exact .inr (.inl ⟨rfl, rfl⟩)
    · rw [if_neg (hv.pos_of_isData hb), wp_bind, wp_setDin, wp_pure]
      exact .inr (.inr ⟨hv.pos_of_isData hb, hb, hfree, rfl⟩)
  · rw [if_neg h0, wp_pure]
    exact .inl ⟨h0, rfl, rfl⟩

/-- Neither a new block nor a bit map block is a data block that is in use. -/
theorem mem_logged_taken (hv : sb.Valid) {b c : ℕ} (hb : sb.IsData b ∧ (view sb s k).used b = false)
    (hc : sb.IsData c ∧ (view sb s k).used c = true) (hlog : c ∈ (taken sb s b).logged) :
    c ∈ s.logged := by
  rcases List.mem_cons.mp hlog with rfl | hlog
  · exact absurd (hb.2.symm.trans hc.2) Bool.false_ne_true
  rcases List.mem_cons.mp hlog with rfl | hlog
  · have := hv.bitmap b hb.1.2
    have := hc.1.1
    omega
  · exact hlog

/-- Blocks that `bmap` changes or allocates are logged, and no other data block is but the indirect one. -/
theorem bmap_logged (hv : sb.Valid) (h : Own sb (view sb s k)) (ht : (s.inode k).din.type ≠ 0) {bn : ℕ}
    (hbn : bn < MAXFILE) : wp (bmap sb k bn) E s fun addr s' =>
      Tracks s s' ∧ (s' = s ∨ addr = 0 ∨ addr ∈ s'.logged) ∧ ∀ c, sb.IsData c ∧ (view sb s k).used c = true →
        (view sb s k).val ((s.inode k).inum, .inl indirect) ≠ c → c ∈ s'.logged → c ∈ s.logged := by
  unfold bmap
  by_cases hd : bn < NDIRECT
  · rw [if_pos hd]
    refine (addrOrAlloc_own hv h _).mono ?_
    rintro b s' (⟨-, -, rfl⟩ | ⟨-, rfl⟩ | ⟨-, hb, hfree, rfl⟩)
    · exact ⟨.refl s', .inl rfl, fun _ _ _ hc => hc⟩
    · exact ⟨.refl s', .inl rfl, fun _ _ _ hc => hc⟩
    · exact ⟨(Tracks.taken s _ _ b).same rfl rfl, .inr (.inr List.mem_cons_self),
        fun c hc _ => mem_logged_taken hv ⟨hb, hfree⟩ hc⟩
  have hin : bn - NDIRECT < NINDIRECT := by
    simp only [MAXFILE, NDIRECT, NINDIRECT] at *
    omega
  have hview : ((view sb s k).din (s.inode k).inum).type ≠ 0 := by rwa [view_din_self]
  rw [if_neg hd, if_pos hin, wp_bind]
  refine ((addrOrAlloc_own hv h _).and (addrOrAlloc_spec hv h ht _)).mono ?_
  rintro a s₁ ⟨hcases, hgrow, -⟩
  by_cases h0 : a = 0
  · rw [if_pos h0, wp_pure]
    rcases hcases with ⟨hne, -⟩ | ⟨-, rfl⟩ | ⟨hne, -⟩
    · exact absurd h0 hne
    · exact ⟨.refl s₁, .inl rfl, fun _ _ _ hc => hc⟩
    · exact absurd h0 hne
  -- what is logged up to here, and that the indirect block is none of the others
  have hfirst : ∀ c, sb.IsData c ∧ (view sb s k).used c = true →
      (view sb s k).val ((s.inode k).inum, .inl indirect) ≠ c → a ≠ c ∧ (c ∈ s₁.logged → c ∈ s.logged) := by
    intro c hc hne
    rcases hcases with ⟨-, rfl, rfl⟩ | ⟨h0', -⟩ | ⟨-, hb, hfree, rfl⟩
    · rw [Store.val_inl hview, view_din_self] at hne
      exact ⟨hne, id⟩
    · exact absurd h0' h0
    · refine ⟨?_, mem_logged_taken hv ⟨hb, hfree⟩ hc⟩
      rintro rfl
      exact absurd (hfree.symm.trans hc.2) Bool.false_ne_true
  have htracks : Tracks s s₁ := by
    rcases hcases with ⟨-, -, rfl⟩ | ⟨-, rfl⟩ | ⟨-, -, -, rfl⟩
    · exact .refl s₁
    · exact .refl s₁
    · exact (Tracks.taken s _ _ a).same rfl rfl
  rw [if_neg h0]
  simp only [bread, wp_bind, wp_get, wp_pure]
  by_cases hw : (s₁.disk a).word (bn - NDIRECT) = 0
  · rw [if_pos hw, wp_bind]
    refine (balloc_own hv hgrow.own).mono ?_
    rintro b s₂ (⟨rfl, rfl, -⟩ | ⟨hb, hfree, rfl⟩)
    · rw [if_pos rfl, wp_pure]
      exact ⟨htracks, .inr (.inl rfl), fun c hc hne => (hfirst c hc hne).2⟩
    · rw [if_neg (hv.pos_of_isData hb)]
      simp only [logWrite, wp_bind, wp_modify, wp_pure, assign_eq_update]
      refine ⟨(htracks.trans (.taken s₁ _ _ b)).logWrite rfl rfl,
        .inr (.inr (List.mem_cons_of_mem _ List.mem_cons_self)), fun c hc hne hlog => ?_⟩
      obtain ⟨hac, hback⟩ := hfirst c hc hne
      rcases List.mem_cons.mp hlog with rfl | hlog
      · exact absurd rfl hac
      · exact hback (mem_logged_taken hv ⟨hb, hfree⟩ ⟨hc.1, hgrow.ext.used c hc.2⟩ hlog)
  · rw [if_neg hw, wp_pure]
    refine ⟨htracks, .inl ?_, fun c hc hne => (hfirst c hc hne).2⟩
    rcases hcases with ⟨-, -, rfl⟩ | ⟨h0', -⟩ | ⟨-, -, -, rfl⟩
    · rfl
    · exact absurd h0' h0
    · -- a new indirect block has no entries
      have hzero : (taken sb s a).disk a = zeroBlock := update_self ..
      refine absurd ?_ hw
      change ((taken sb s a).disk a).word _ = 0
      rw [hzero]
      rfl

/-- Between `s` and `s'` every block that changes is logged, but if `torn` bytes were left in the buffer
of block `a`, that is not. -/
structure TornAt (a torn : ℕ) (s s' : State) : Prop where
  logged : ∀ b ∈ s.logged, b ∈ s'.logged
  dirty : ∀ b, s'.disk b ≠ s.disk b → b ∈ s'.logged ∨
    0 < torn ∧ a ≠ 0 ∧ b = a ∧ ∃ x < BSIZE, s'.disk a x ≠ s.disk a x
  spared : 0 < torn → a ≠ 0 → a ∈ s'.logged → a ∈ s.logged

namespace TornAt

variable {a torn : ℕ}

theorem of_tracks (h : Tracks s s') : TornAt a 0 s s' :=
  ⟨h.logged, fun b hb => .inl (h.dirty b hb), nofun⟩

theorem tracks (h : TornAt a 0 s s') : Tracks s s' :=
  ⟨h.logged, fun b hb => (h.dirty b hb).resolve_right fun hx => Nat.lt_irrefl 0 hx.1⟩

theorem cons (h : Tracks s s') (hspared : a ≠ 0 → a ∈ s'.logged → a ∈ s.logged)
    (h' : TornAt a torn s' s'') : TornAt a torn s s'' := by
  refine ⟨fun b hb => h'.logged b (h.logged b hb), fun b hb => ?_,
    fun h0 ha hlog => hspared ha (h'.spared h0 ha hlog)⟩
  by_cases heq : s'.disk b = s.disk b
  · rw [← heq] at hb
    refine (h'.dirty b hb).imp_right fun ⟨h0, ha, hba, hx⟩ => ⟨h0, ha, hba, ?_⟩
    rwa [← hba, ← heq, hba]
  · exact .inl (h'.logged b (h.dirty b heq))

theorem logWrite {b : ℕ} {blk : Block} (h : TornAt a torn s s') (hne : a ≠ 0 → a ≠ b)
    (hdisk : s''.disk = update s'.disk b blk) (hlog : s''.logged = b :: s'.logged) :
    TornAt a torn s s'' := by
  refine ⟨fun c hc => ?_, fun c hc => ?_, fun h0 ha hmem => ?_⟩
  · rw [hlog]
    exact List.mem_cons_of_mem _ (h.logged c hc)
  · rw [hlog]
    by_cases hcb : c = b
    · exact .inl (hcb ▸ List.mem_cons_self)
    · rw [hdisk, update_of_ne hcb] at hc
      refine (h.dirty c hc).imp (List.mem_cons_of_mem _) fun ⟨h0, ha, hca, hx⟩ => ⟨h0, ha, hca, ?_⟩
      rwa [hdisk, update_of_ne (hne ha)]
  · rw [hlog] at hmem
    exact h.spared h0 ha ((List.mem_cons.mp hmem).resolve_left (hne ha))

/-- The bytes `bs` were left in the buffer of block `addr`, which was `a` unless it is new. -/
theorem of_store {addr off : ℕ} {bs : List UInt8} (hold : a ≠ 0 → s' = s ∧ a = addr)
    (hnew : a = 0 → addr ∈ s'.logged) (htracks : Tracks s s') (hoff : off + torn ≤ BSIZE)
    (hlen : bs.length = torn) :
    TornAt a torn s { s' with disk := update s'.disk addr ((s'.disk addr).store off bs) } := by
  refine ⟨htracks.logged, fun b hb => ?_, fun _ ha hmem => (hold ha).1 ▸ hmem⟩
  by_cases hba : b = addr
  · subst hba
    by_cases ha : a = 0
    · exact .inl (hnew ha)
    obtain ⟨rfl, rfl⟩ := hold ha
    simp only [update_self] at hb
    obtain ⟨x, hx⟩ := ne_iff.mp hb
    have hin : off ≤ x ∧ x < off + bs.length := by
      by_contra hout
      refine hx ?_
      rw [Block.store]
      split
      · exact List.getD_eq_default _ _ (by omega)
      · rfl
    refine .inr ⟨by omega, ha, rfl, x, by omega, ?_⟩
    simp only [update_self]
    exact hx
  · simp only [update_of_ne hba] at hb
    exact .inl (htracks.dirty b hb)

end TornAt

/-! ## The loop -/

/-- Of `len` bytes at `src`, `done` were stored at offset `off` of inode `k`, and `torn` more were left in
the buffer of the block where a copy failed. -/
structure UserStored (sb : Superblock) (k : Slot) (m : UserMem) (src off len done torn : ℕ)
    (s s' : State) : Prop where
  le : done ≤ len
  stop : done < len → done = 0 ∨ (off + done) % BSIZE = 0
  only : OnlyAt sb k (Below (off + min len (done + 1))) s s'
  torn_lt : 0 < torn → done + torn < len ∧ (off + done) % BSIZE + torn < BSIZE ∧
    (view sb s' k).val ((s.inode k).inum, filePlace ((off + done) / BSIZE)) ≠ 0
  mapped : m.Mapped src (done + torn)
  cause : done < len → (torn = 0 ∧ Full sb (view sb s' k) ∧
      (view sb s' k).val ((s.inode k).inum, filePlace ((off + done) / BSIZE)) = 0) ∨
    m.walkaddr (src + (done + torn)) = false
  content : ∀ o < MAXFILE * BSIZE, (view sb s' k).content (s.inode k).inum o =
    if off ≤ o ∧ o < off + (done + torn) then m.byte (src + (o - off))
    else (view sb s k).content (s.inode k).inum o
  torn : TornAt ((view sb s k).val ((s.inode k).inum, filePlace ((off + done) / BSIZE))) torn s s'

theorem getD_read (m : UserMem) (src : ℕ) {n j : ℕ} (hj : j < n) :
    (m.read src n).getD j 0 = m.byte (src + j) := by
  rw [List.getD_eq_getElem?_getD, UserMem.read, List.getElem?_map, List.getElem?_range hj]
  rfl

theorem not_below_filePlace {off bn : ℕ} (hbn : bn < MAXFILE) (h : off / BSIZE < bn) :
    ¬ Below (off + 1) (filePlace bn) := by
  simp only [MAXFILE, NDIRECT, NINDIRECT, BSIZE] at *
  unfold filePlace
  split
  · simp only [Below, Fin.ofNat, NDIRECT, BSIZE] at *
    omega
  · simp only [Below, Fin.ofNat, NDIRECT, NINDIRECT, BSIZE] at *
    omega

theorem UserStored.cons {m : UserMem} {src off len n done torn : ℕ} (hpos : 0 < n) (hn : n ≤ len)
    (hend : n < len → (off + n) % BSIZE = 0) (hmapped : m.Mapped src n)
    (hinum : (s'.inode k).inum = (s.inode k).inum) (honly : OnlyAt sb k (Below (off + 1)) s s')
    (hcontent : ∀ o < MAXFILE * BSIZE, (view sb s' k).content (s.inode k).inum o =
      if off ≤ o ∧ o < off + n then m.byte (src + (o - off))
      else (view sb s k).content (s.inode k).inum o) (htracks : Tracks s s')
    (hmax : off + len ≤ MAXFILE * BSIZE)
    (hspared : ∀ bn < MAXFILE, off / BSIZE < bn →
      (view sb s k).val ((s.inode k).inum, filePlace bn) ≠ 0 →
      (view sb s k).val ((s.inode k).inum, filePlace bn) ∈ s'.logged →
        (view sb s k).val ((s.inode k).inum, filePlace bn) ∈ s.logged)
    (h : UserStored sb k m (src + n) (off + n) (len - n) done torn s' s'') :
    UserStored sb k m src off len (n + done) torn s s'' := by
  have hle := h.le
  obtain ⟨-, hstop, honly', htorn, hmap, hcause, hrest, htr⟩ := h
  simp only [hinum, Nat.add_assoc] at hstop htorn hcause hrest htr
  refine ⟨by omega, fun hlt => ?_, (honly.trans honly' hinum).mono fun p hp => ?_, fun h0 => ?_, ?_,
    fun hlt => ?_, fun o ho => ?_, ?_⟩
  · right
    rcases hstop (by omega) with rfl | h
    · exact hend (by omega)
    · exact h
  · exact hp.elim (Below.mono (by omega)) (Below.mono (by omega))
  · obtain ⟨h1, h2, h3⟩ := htorn h0
    exact ⟨by omega, h2, h3⟩
  · rw [Nat.add_assoc]
    exact hmapped.append hmap
  · rw [Nat.add_assoc n]
    exact hcause (by omega)
  · rw [hrest o ho, hcontent o ho]
    by_cases h1 : off + n ≤ o ∧ o < off + (n + (done + torn))
    · rw [if_pos h1, if_pos (by omega)]
      congr 1
      omega
    · rw [if_neg h1]
      by_cases h2 : off ≤ o ∧ o < off + n
      · rw [if_pos h2, if_pos (by omega)]
      · rw [if_neg h2, if_neg (by omega)]
  · rcases Nat.eq_zero_or_pos torn with rfl | h0
    · exact .of_tracks (htracks.trans htr.tracks)
    -- the bytes are left in a block behind this one, which is the same before and after
    have hlt := (htorn h0).1
    have hend' := hend (by omega)
    have hbn : off / BSIZE < (off + (n + done)) / BSIZE := by
      simp only [BSIZE] at *
      omega
    have hbn' : (off + (n + done)) / BSIZE < MAXFILE := div_lt_maxfile (by omega)
    rw [honly _ (not_below_filePlace hbn' hbn)] at htr
    exact .cons htracks (hspared _ hbn' hbn) htr

theorem UserStored.zero {m : UserMem} {src off tot n : ℕ}
    (honly : OnlyAt sb k (Below (off + min (n - tot) 1)) s s')
    (hcause : tot < n → Full sb (view sb s' k) ∧
      (view sb s' k).val ((s.inode k).inum, filePlace (off / BSIZE)) = 0)
    (hcontent : ∀ o, (view sb s' k).content (s.inode k).inum o =
      (view sb s k).content (s.inode k).inum o)
    (htracks : Tracks s s') : ∃ done torn, (tot, off) = (tot + done, off + done) ∧
      UserStored sb k m src off (n - tot) done torn s s' := by
  refine ⟨0, 0, rfl, Nat.zero_le _, fun _ => .inl rfl, honly, nofun, fun j hj => absurd hj (by omega),
    fun hlt => .inl ⟨rfl, hcause (by omega)⟩, fun o _ => ?_, .of_tracks htracks⟩
  rw [if_neg (by omega), hcontent]

theorem writeiLoop_user (hv : sb.Valid) (h : Own sb (view sb s k)) (ht : (s.inode k).din.type ≠ 0)
    (m : UserMem) (f tot off n src : ℕ) (htot : tot ≤ n) (hf : n - tot ≤ f)
    (hoff : off + (n - tot) ≤ MAXFILE * BSIZE) :
    wp (writeiLoop sb k f tot off n (.user m src)) E s fun r s' => ∃ done torn,
      r = (tot + done, off + done) ∧ UserStored sb k m src off (n - tot) done torn s s' := by
  induction f generalizing s tot off src with
  | zero =>
    rw [writeiLoop, wp_pure]
    exact UserStored.zero (.refl _ _) (fun hlt => by omega) (fun _ => rfl) (.refl s)
  | succ f ih =>
    rw [writeiLoop]
    by_cases hlt : tot < n
    · have hbn : off / BSIZE < MAXFILE := div_lt_maxfile (by omega)
      rw [if_pos hlt, wp_bind]
      refine ((bmap_spec hv h ht hbn).and (bmap_logged hv h ht hbn)).mono ?_
      rintro addr s1 ⟨⟨hgrow, hfull, hval, hsame, honly, hfail⟩, htracks, hnew, hspare⟩
      have hinum := hgrow.frame.inum
      have honly1 : OnlyAt sb k (Below (off + 1)) s s1 :=
        honly.mono fun _ hp => below_of_lt hbn (by omega) hp
      have hone : min (n - tot) 1 = 1 := by omega
      by_cases h0 : addr = 0
      · rw [if_pos h0, wp_pure]
        exact UserStored.zero (by rwa [hone]) (fun _ => ⟨hfull h0, hfail h0⟩)
          (fun o => by rw [hgrow.ext.content]) htracks
      obtain ⟨len, hlen⟩ : ∃ len, len = min (n - tot) (BSIZE - off % BSIZE) := ⟨_, rfl⟩
      have hmod : off % BSIZE < BSIZE := Nat.mod_lt _ (by decide)
      have hval1 := hval h0
      rw [← hinum] at hval1
      simp only [if_neg h0, bread, wp_bind, wp_get, wp_pure, ← hlen]
      -- what the file is after `j` mapped bytes were stored in the buffer
      have hstored : ∀ j ≤ len, ∀ s2 : State, s2.disk = update s1.disk addr
            ((s1.disk addr).store (off % BSIZE) (m.read src j)) → s2.inode = s1.inode →
          Change sb k s s2 ∧ OnlyAt sb k (Below (off + 1)) s s2 ∧
          (view sb s2 k).val ((s.inode k).inum, filePlace (off / BSIZE)) ≠ 0 ∧
          ∀ o < MAXFILE * BSIZE, (view sb s2 k).content (s.inode k).inum o =
            if off ≤ o ∧ o < off + j then m.byte (src + (o - off))
            else (view sb s k).content (s.inode k).inum o := by
        intro j hj s2 hdisk hinode
        obtain ⟨hchange, hval2, hcontent⟩ := Change.store hv hgrow.own hbn hval1 h0 _ s2 hdisk hinode
        refine ⟨hgrow.change.trans hchange, fun p hp => ?_, ?_, fun o ho => ?_⟩
        · rw [hval2]
          exact honly1 p hp
        · rw [hval2, ← hinum, hval1]
          exact h0
        · rw [← hinum, hcontent o ho, content_store hgrow.own hval1 h0
            (UserMem.length_read m src j) (by omega), hinum, hgrow.ext.content]
          by_cases ho' : off ≤ o ∧ o < off + j
          · rw [if_pos ho', if_pos ho', getD_read m src (by omega)]
          · rw [if_neg ho', if_neg ho']
      simp only [Source.copyin]
      rcases m.copyin_cases src len with ⟨hmapped, hcopy⟩ | ⟨u, hu, hmapped, hbad, hcopy⟩
      · -- the piece is stored and logged
        simp only [hcopy, if_true, logWrite, wp_bind, wp_modify, assign_eq_update]
        obtain ⟨s2, hs2⟩ : ∃ s2 : State, s2 = ⟨update s1.disk addr
          ((s1.disk addr).store (off % BSIZE) (m.read src len)), s1.inode,
          addr :: s1.logged⟩ := ⟨_, rfl⟩
        obtain ⟨hch, honly2, -, hcontent⟩ := hstored len le_rfl s2 (by rw [hs2]) (by rw [hs2])
        have htracks2 : Tracks s s2 := htracks.logWrite (by rw [hs2]) (by rw [hs2])
        rw [← hs2]
        refine (ih hch.own (by rwa [hch.type]) (tot + len) (off + len) (src + len) (by omega)
          (by omega) (by omega)).mono ?_
        rintro r s' ⟨done, torn, rfl, hrest⟩
        refine ⟨len + done, torn, by rw [Nat.add_assoc, Nat.add_assoc], ?_⟩
        rw [← Nat.sub_sub] at hrest
        refine .cons (by omega) (by omega) (fun hlt' => ?_) hmapped hch.frame.inum honly2 hcontent
          htracks2 (by omega) (fun bn hbn' hlt' hne hlog => ?_) hrest
        · simp only [BSIZE] at *
          omega
        · -- the block is neither the one written here nor the indirect one
          have hval1' := hgrow.ext.val _ hne
          rw [hs2] at hlog
          rcases List.mem_cons.mp hlog with heq | hlog
          · have hplace := hgrow.own.owns.inj _ _ (by rwa [hval1']) (hval1'.trans (heq.trans
              (hinum ▸ hval1).symm))
            have := filePlace_inj hbn' hbn (Prod.mk.inj hplace).2
            omega
          · refine hspare _ (h.owns.owned _ hne) (fun heq => ?_) hlog
            exact filePlace_ne_indirect bn (Prod.mk.inj (h.owns.inj _ _ hne heq.symm)).2
      · -- the copy failed at byte `u`
        simp only [hcopy, Bool.false_eq_true, if_false, setBuf, wp_bind, wp_modify, wp_pure, assign_eq_update]
        obtain ⟨-, honly2, hval2, hcontent⟩ := hstored u (by omega)
          { s1 with disk := update s1.disk addr
                      ((s1.disk addr).store (off % BSIZE) (m.read src u)) } rfl rfl
        refine ⟨0, u, rfl, Nat.zero_le _, fun _ => .inl rfl, by rwa [Nat.zero_add, hone],
          fun _ => ⟨by omega, ?_, hval2⟩, ?_,
          fun _ => .inr ?_, fun o ho => ?_, ?_⟩
        · rw [Nat.add_zero]
          omega
        · rwa [Nat.zero_add]
        · rwa [Nat.zero_add]
        · rw [Nat.zero_add]
          exact hcontent o ho
        · rw [Nat.add_zero]
          exact .of_store (fun hne => ⟨(hsame hne).2, (hsame hne).2 ▸ hval h0⟩)
            (fun hzero => hnew.elim (fun heq => absurd (heq ▸ hval h0) (by rw [hzero]; exact Ne.symm h0))
              fun hx => hx.resolve_left h0)
            htracks (by omega) (UserMem.length_read m src u)
    · rw [if_neg hlt, wp_pure]
      exact UserStored.zero (.refl _ _) (fun hlt' => absurd hlt' hlt) (fun _ => rfl) (.refl s)

/-! ## The whole write -/

/-- `writei` of `n` bytes at `src` wrote `tot` of them, and left `torn` more in the buffer of the block
where a copy failed. -/
structure UserWritten (sb : Superblock) (k : Slot) (m : UserMem) (src off n tot torn : ℕ)
    (s s' : State) : Prop where
  le : tot ≤ n
  stop : tot < n → tot = 0 ∨ (off + tot) % BSIZE = 0
  wrote : Wrote sb k s s' off tot
  only : ∀ p, ¬ Below (off + min n (tot + 1)) p →
    (sb.abs s'.disk).val ((s.inode k).inum, p) = (view sb s k).val ((s.inode k).inum, p)
  torn_lt : 0 < torn → tot + torn < n ∧ (off + tot) % BSIZE + torn < BSIZE ∧
    (sb.abs s'.disk).val ((s.inode k).inum, filePlace ((off + tot) / BSIZE)) ≠ 0
  mapped : m.Mapped src (tot + torn)
  cause : tot < n → (torn = 0 ∧ Full sb (sb.abs s'.disk) ∧
      (sb.abs s'.disk).val ((s.inode k).inum, filePlace ((off + tot) / BSIZE)) = 0) ∨
    m.walkaddr (src + (tot + torn)) = false
  content : ∀ o < MAXFILE * BSIZE, (sb.abs s'.disk).content (s.inode k).inum o =
    if off ≤ o ∧ o < off + (tot + torn) then m.byte (src + (o - off))
    else (view sb s k).content (s.inode k).inum o
  torn : TornAt ((view sb s k).val ((s.inode k).inum, filePlace ((off + tot) / BSIZE))) torn s s'

theorem writei_refused {src : Source} {off n : ℕ}
    (h : (s.inode k).din.size.toNat < off ∨ MAXFILE * BSIZE < off + n) :
    (writei sb k src off n).run s = .ok (-1, s) := by
  change ((if (s.inode k).din.size.toNat < off ∨ (off + n) % 2 ^ 32 < off then pure (-1)
    else if MAXFILE * BSIZE < off + n then pure (-1) else _ : M ℤ).run s) = _
  split
  · rfl
  · rw [if_pos (by omega)]
    rfl

theorem writei_user (hv : sb.Valid) (h : Own sb (view sb s k)) (ht : (s.inode k).din.type ≠ 0)
    (hi : (s.inode k).inum < sb.ninodes) (m : UserMem) (src : ℕ) {off n : ℕ}
    (hoff : off ≤ (s.inode k).din.size.toNat) (hn : off + n ≤ MAXFILE * BSIZE) :
    wp (writei sb k (.user m src) off n) E s fun r s' => ∃ tot torn : ℕ, r = tot ∧
      UserWritten sb k m src off n tot torn s s' := by
  refine writei_of_loop hv hi hoff hn ?_
  refine ((writeiLoop_spec hv h ht n 0 off n (.user m src) (Nat.zero_le _) (Nat.sub_le _ _)
    (by omega)).and (writeiLoop_user hv h ht m n 0 off n src (Nat.zero_le _) (Nat.sub_le _ _)
    (by omega))).mono ?_
  rintro r s1 ⟨⟨hchange, -, hle, -, -, hblk, -⟩, tot, torn, rfl, hstored⟩
  simp only [Nat.zero_add] at hle hblk ⊢
  refine ⟨tot, rfl, hle, hchange, hblk, fun s' blk hwrote hused hcontent hval hdisk hlog => ?_⟩
  refine ⟨tot, torn, rfl, hstored.le, hstored.stop, hwrote, fun p hp => ?_, fun h0 => ?_,
    hstored.mapped, fun hlt => ?_, fun o ho => ?_, hstored.torn.logWrite (fun ha heq => ?_) hdisk hlog⟩
  · rw [hval]
    exact hstored.only p hp
  · rw [hval]
    exact hstored.torn_lt h0
  · rw [hval]
    refine (hstored.cause hlt).imp_left fun ⟨h0, hfull, hzero⟩ => ⟨h0, fun b hb => ?_, hzero⟩
    rw [hused]
    exact hfull b hb
  · rw [hcontent]
    exact hstored.content o ho
  · -- a data block is not the one of the inode
    have hdata := (h.owns.owned _ ha).1
    have hinode := hv.inodes _ hi
    have hbit := (Nat.le_add_left sb.bmapstart _).trans_lt (hv.bitmap _ hdata.2)
    have := hdata.1
    omega

end Xv6.Fs
