import Mathlib.Data.Finset.Card
import Xv6.Fs.FileWrite
import Xv6.Fs.ReadWrite

/-!
# The log blocks of a write

How many distinct blocks a call of `writei` passes to `log_write`: data blocks, bit map blocks, the indirect
block and the block of the inode. `filewrite` reserves `MAXOPBLOCKS` of them for each chunk, which is enough:
a chunk that begins inside a block finds that block allocated, since the file has no holes.

`Logs k s s' c` is a budget: between `s` and `s'` at most `c` distinct blocks were logged, apart from the
indirect block and, if that was allocated, its bit map block. Budgets add up over the turns of the loop.
-/

namespace Xv6.Fs

open Lib Finset
open List hiding mem_singleton

variable {sb : Superblock} {E : Err → Prop} {s s' s'' : State} {k : Slot}

/-- The address of the indirect block. -/
def ind (s : State) (k : Slot) : ℕ := ((s.inode k).din.addrs indirect).toNat

/-- Block `bn` of inode `k` is allocated. -/
def Allocated (s : State) (k : Slot) (bn : ℕ) : Prop :=
  if bn < NDIRECT then (s.inode k).din.addrs (Fin.ofNat _ bn) ≠ 0
  else ind s k ≠ 0 ∧ (s.disk (ind s k)).word (bn - NDIRECT) ≠ 0

/-- Every block of inode `k` below its size is allocated. -/
def NoHoles (s : State) (k : Slot) : Prop :=
  ∀ bn, bn * BSIZE < (s.inode k).din.size.toNat → bn < MAXFILE ∧ Allocated s k bn

/-- One, if the indirect block was allocated between `s` and `s'`. -/
def newInd (s s' : State) (k : Slot) : ℕ := if ind s k = 0 ∧ ind s' k ≠ 0 then 1 else 0

/-- Between `s` and `s'` the blocks `L` were logged. -/
def Logged (s s' : State) (L : List ℕ) : Prop := s'.logged = L ++ s.logged

/-- Between `s` and `s'` at most `c` distinct blocks were logged, apart from the indirect block and the bit
map block of a new one. -/
structure Logs (k : Slot) (s s' : State) (c : ℕ) : Prop where
  keep : ind s k ≠ 0 → ind s' k = ind s k
  blocks : ∃ (L : List ℕ) (X : Finset ℕ), Logged s s' L ∧
    (∀ b ∈ L, b ∈ X ∨ b ≠ 0 ∧ b = ind s' k) ∧ X.card ≤ c + newInd s s' k

namespace Logs

variable {c c' : ℕ}

theorem refl (s : State) (c : ℕ) : Logs k s s c :=
  ⟨fun _ => rfl, [], ∅, rfl, nofun, Nat.zero_le _⟩

theorem mono (h : Logs k s s' c) (hc : c ≤ c') : Logs k s s' c' := by
  obtain ⟨hkeep, L, X, hlog, hmem, hcard⟩ := h
  exact ⟨hkeep, L, X, hlog, hmem, by omega⟩

theorem newInd_add (hkeep : ind s k ≠ 0 → ind s' k = ind s k)
    (hkeep' : ind s' k ≠ 0 → ind s'' k = ind s' k) :
    newInd s s' k + newInd s' s'' k = newInd s s'' k := by
  unfold newInd
  by_cases h : ind s k = 0
  · by_cases h' : ind s' k = 0
    · rw [if_neg (by simp [h']), Nat.zero_add, h, h']
    · rw [if_pos ⟨h, h'⟩, if_neg fun hx => h' hx.1, hkeep' h', if_pos ⟨h, h'⟩]
  · have h' : ind s' k ≠ 0 := by rwa [hkeep h]
    rw [if_neg fun hx => h hx.1, if_neg fun hx => h' hx.1, if_neg fun hx => h hx.1]

theorem trans (h : Logs k s s' c) (h' : Logs k s' s'' c') : Logs k s s'' (c + c') := by
  obtain ⟨hkeep, L, X, hlog, hmem, hcard⟩ := h
  obtain ⟨hkeep', L', X', hlog', hmem', hcard'⟩ := h'
  refine ⟨fun hne => ?_, L' ++ L, X' ∪ X, ?_, fun b hb => ?_, ?_⟩
  · rw [hkeep' (by rwa [hkeep hne]), hkeep hne]
  · rw [Logged, hlog', hlog, append_assoc]
  · rcases mem_append.mp hb with hb | hb
    · exact (hmem' b hb).imp_left fun h => mem_union_left _ h
    · refine (hmem b hb).imp (fun h => mem_union_right _ h) fun ⟨h0, heq⟩ => ⟨h0, ?_⟩
      rw [hkeep' (by rwa [← heq]), heq]
  · have hunion := card_union_le X' X
    have hnew := newInd_add hkeep hkeep'
    omega

theorem cons (h : Logs k s s' c) {b : ℕ} (hlog : s''.logged = b :: s'.logged)
    (hind : ind s'' k = ind s' k) : Logs k s s'' (c + 1) := by
  obtain ⟨hkeep, L, X, hL, hmem, hcard⟩ := h
  have hnew : newInd s s'' k = newInd s s' k := by rw [newInd, newInd, hind]
  refine ⟨by rwa [hind], b :: L, insert b X, ?_, fun a ha => ?_, ?_⟩
  · rw [Logged, hlog, hL]
    rfl
  · rw [hind]
    rcases mem_cons.mp ha with rfl | ha
    · exact .inl (mem_insert_self _ _)
    · exact (hmem a ha).imp_left mem_insert_of_mem
  · have := card_insert_le b X
    omega

theorem card_le (h : Logs k s s' c) : ∃ L : List ℕ, Logged s s' L ∧ L.toFinset.card ≤ c + 2 := by
  obtain ⟨-, L, X, hL, hmem, hcard⟩ := h
  refine ⟨L, hL, ?_⟩
  have hsub : L.toFinset ⊆ insert (ind s' k) X := fun b hb => by
    rcases hmem b (mem_toFinset.mp hb) with hb | ⟨-, rfl⟩
    · exact mem_insert_of_mem hb
    · exact mem_insert_self _ _
  have hle := card_le_card hsub
  have hins := card_insert_le (ind s' k) X
  have hnew : newInd s s' k ≤ 1 := by
    unfold newInd
    split <;> omega
  omega

end Logs

/-! ## Allocation -/

theorem addrOrAlloc_cases (j : Fin (NDIRECT + 1)) : wp (addrOrAlloc sb k j) E s fun b s' =>
      (b = ((s.inode k).din.addrs j).toNat ∧ b ≠ 0 ∧ s' = s) ∨
      ((s.inode k).din.addrs j = 0 ∧ b = 0 ∧ (s' = s ∨ ∃ bb bi, s' = takenAt bb bi s 0)) ∨
      ((s.inode k).din.addrs j = 0 ∧ b ≠ 0 ∧ b < sb.size ∧
        ∃ bb bi, s' = (takenAt bb bi s b).setDinode k
          { (s.inode k).din with addrs := assign (s.inode k).din.addrs j (UInt32.ofNat b) }) := by
  simp only [addrOrAlloc, wp_bind, wp_get]
  by_cases h0 : ((s.inode k).din.addrs j).toNat = 0
  · have hz : (s.inode k).din.addrs j = 0 := UInt32.toNat_inj.mp h0
    rw [if_pos h0, wp_bind]
    refine balloc_cases.mono ?_
    rintro b s' (⟨rfl, rfl⟩ | ⟨hlt, bb, bi, rfl⟩)
    · exact .inr (.inl ⟨hz, rfl, .inl rfl⟩)
    · by_cases hb : b = 0
      · rw [if_pos hb, wp_pure, hb]
        exact .inr (.inl ⟨hz, rfl, .inr ⟨bb, bi, rfl⟩⟩)
      · rw [if_neg hb, wp_bind, wp_setDin, wp_pure]
        exact .inr (.inr ⟨hz, hb, hlt, bb, bi, rfl⟩)
  · rw [if_neg h0, wp_pure]
    exact .inl ⟨rfl, h0, rfl⟩

/-- What a block costs when it is looked up: at most one block is logged apart from the block itself, and
none if it is allocated. -/
structure Looked (sb : Superblock) (k : Slot) (bn : ℕ) (s : State) (addr : ℕ) (s' : State) : Prop where
  same : Allocated s k bn → s' = s
  keep : ind s k ≠ 0 → ind s' k = ind s k
  blocks : ∃ (L : List ℕ) (X : Finset ℕ), Logged s s' L ∧
    (∀ b ∈ L, b ∈ X ∨ b = addr ∨ b ≠ 0 ∧ b = ind s' k) ∧ X.card ≤ 1 + newInd s s' k

theorem Looked.refl {bn addr : ℕ} (s : State) : Looked sb k bn s addr s :=
  ⟨fun _ => rfl, fun _ => rfl, [], ∅, rfl, nofun, Nat.zero_le _⟩

theorem Looked.logs {bn addr : ℕ} (h : Looked sb k bn s addr s') {extra : List ℕ}
    (hlog : Logged s' s'' extra) (hextra : ∀ b ∈ extra, b = addr) (hind : ind s'' k = ind s' k) :
    Logs k s s'' 2 := by
  obtain ⟨-, hkeep, L, X, hL, hmem, hcard⟩ := h
  have hnew : newInd s s'' k = newInd s s' k := by rw [newInd, newInd, hind]
  refine ⟨by rwa [hind], extra ++ L, insert addr X, ?_, fun a ha => ?_, ?_⟩
  · rw [Logged, hlog, hL, append_assoc]
  · rw [hind]
    rcases mem_append.mp ha with ha | ha
    · exact .inl (hextra a ha ▸ mem_insert_self _ _)
    · rcases hmem a ha with h | rfl | h
      · exact .inl (mem_insert_of_mem h)
      · exact .inl (mem_insert_self _ _)
      · exact .inr h
  · have := card_insert_le addr X
    omega

theorem ind_setDinode_direct {bn : ℕ} (hd : bn < NDIRECT) (s : State) (d : Dinode) (a : UInt32) :
    ind (s.setDinode k { d with addrs := assign d.addrs (Fin.ofNat _ bn) a }) k =
      (d.addrs indirect).toNat := by
  have hne : indirect ≠ (Fin.ofNat (NDIRECT + 1) bn) := fun h => filePlace_ne_indirect bn (by
    rw [filePlace, if_pos hd, h])
  rw [ind, setDinode_inode_self]
  exact congrArg UInt32.toNat (if_neg hne)

theorem ind_setDinode_indirect {b : ℕ} (hb : b < 2 ^ 32) (s : State) (d : Dinode) :
    ind (s.setDinode k { d with addrs := assign d.addrs indirect (UInt32.ofNat b) }) k = b := by
  rw [ind, setDinode_inode_self]
  have h : (assign d.addrs indirect (UInt32.ofNat b)) indirect = UInt32.ofNat b := if_pos rfl
  change (assign d.addrs indirect (UInt32.ofNat b) indirect).toNat = b
  rw [h, UInt32.toNat_ofNat', Nat.mod_eq_of_lt hb]

theorem newInd_self (h : ind s' k = ind s k) : newInd s s' k = 0 := by
  rw [newInd, h]
  exact if_neg fun hx => hx.2 hx.1

theorem Looked.of_taken {bn addr bb : ℕ} (hno : ¬ Allocated s k bn)
    (hlog : s'.logged = addr :: bb :: s.logged) (hind : ind s' k = ind s k) :
    Looked sb k bn s addr s' := by
  refine ⟨fun h => absurd h hno, fun _ => hind, [addr, bb], {bb}, hlog,
    fun b hb => ?_, by rw [newInd_self hind, card_singleton]⟩
  rcases mem_cons.mp hb with rfl | hb
  · exact .inr (.inl rfl)
  · exact .inl (mem_singleton.mpr (List.mem_singleton.mp hb))

theorem bmapEntry_looked (j : ℕ) (hne : ind s k ≠ 0) : wp (do
      let bp ← bread (ind s k)
      if bp.word j = 0 then do
        let a ← balloc sb
        if a = 0 then pure 0
        else do
          logWrite (ind s k) (bp.setWord j a)
          return a
      else return bp.word j) E s fun addr s' =>
      ((s.disk (ind s k)).word j ≠ 0 → s' = s) ∧ ind s' k = ind s k ∧
      ∃ (L : List ℕ) (X : Finset ℕ), Logged s s' L ∧
        (∀ b ∈ L, b ∈ X ∨ b = addr ∨ b ≠ 0 ∧ b = ind s' k) ∧ X.card ≤ 1 := by
  simp only [bread, wp_bind, wp_get, wp_pure]
  by_cases hw : (s.disk (ind s k)).word j = 0
  · rw [if_pos hw, wp_bind]
    refine balloc_cases.mono ?_
    rintro a s' (⟨rfl, rfl⟩ | ⟨-, bb, bi, rfl⟩)
    · exact ⟨fun h => absurd hw h, rfl, [], ∅, rfl, by simp, Nat.zero_le _⟩
    · by_cases ha : a = 0
      · rw [if_pos ha, wp_pure, ha]
        refine ⟨fun h => absurd hw h, rfl, [0, bb], {bb}, rfl, fun b hb => ?_,
          (card_singleton _).le⟩
        rcases mem_cons.mp hb with rfl | hb
        · exact .inr (.inl rfl)
        · exact .inl (mem_singleton.mpr (List.mem_singleton.mp hb))
      · rw [if_neg ha]
        simp only [logWrite, wp_bind, wp_modify, wp_pure]
        refine ⟨fun h => absurd hw h, rfl, [ind s k, a, bb], {bb}, rfl,
          fun b hb => ?_, (card_singleton _).le⟩
        rcases mem_cons.mp hb with rfl | hb
        · exact .inr (.inr ⟨hne, rfl⟩)
        rcases mem_cons.mp hb with rfl | hb
        · exact .inr (.inl rfl)
        · exact .inl (mem_singleton.mpr (List.mem_singleton.mp hb))
  · rw [if_neg hw, wp_pure]
    exact ⟨fun _ => rfl, rfl, [], ∅, rfl, by simp, Nat.zero_le _⟩

theorem bmap_looked (hsize : sb.size < 2 ^ 32) {bn : ℕ} (hbn : bn < MAXFILE) :
    wp (bmap sb k bn) E s fun addr s' => Looked sb k bn s addr s' := by
  unfold bmap
  by_cases hd : bn < NDIRECT
  · rw [if_pos hd]
    refine addrOrAlloc_cases _ |>.mono ?_
    have hno : (s.inode k).din.addrs (Fin.ofNat _ bn) = 0 → ¬ Allocated s k bn := by
      intro hz h
      rw [Allocated, if_pos hd] at h
      exact h hz
    rintro b s' (⟨-, -, rfl⟩ | ⟨hz, rfl, rfl | ⟨_, _, rfl⟩⟩ | ⟨hz, -, hlt, _, _, rfl⟩)
    · exact .refl s'
    · exact .refl s'
    · exact .of_taken (hno hz) rfl rfl
    · exact .of_taken (hno hz) rfl (ind_setDinode_direct hd _ _ _)
  · have hin : bn - NDIRECT < NINDIRECT := by
      simp only [MAXFILE, NDIRECT, NINDIRECT] at *
      omega
    have halloc : Allocated s k bn ↔ ind s k ≠ 0 ∧ (s.disk (ind s k)).word (bn - NDIRECT) ≠ 0 := by
      rw [Allocated, if_neg hd]
    rw [if_neg hd, if_pos hin, wp_bind]
    refine (addrOrAlloc_cases indirect).mono ?_
    rintro addr s1 (⟨haddr, hne, rfl⟩ | ⟨hz, rfl, hs1⟩ | ⟨hz, hne, hlt, bb, bi, rfl⟩)
    · -- the indirect block is there
      rw [if_neg hne, haddr]
      have hne' : ind s1 k ≠ 0 := by rwa [ind, ← haddr]
      refine (bmapEntry_looked (bn - NDIRECT) hne').mono ?_
      rintro r s' ⟨hsame, hind, L, X, hL, hmem, hcard⟩
      refine ⟨fun h => hsame (halloc.mp h).2, fun _ => hind, L, X, hL, hmem, ?_⟩
      rwa [newInd_self hind]
    · -- there is no block for it
      have hno : ¬ Allocated s k bn := fun h => (halloc.mp h).1 (by rw [ind, hz]; rfl)
      rw [if_pos rfl, wp_pure]
      rcases hs1 with rfl | ⟨_, _, rfl⟩
      · exact .refl s1
      · exact .of_taken hno rfl rfl
    · -- it is allocated, and its entries are zero
      have hz' : ind s k = 0 := by rw [ind, hz]; rfl
      have hno : ¬ Allocated s k bn := fun h => (halloc.mp h).1 hz'
      obtain ⟨s1, hs1⟩ : ∃ s1, s1 = (takenAt bb bi s addr).setDinode k { (s.inode k).din with
        addrs := assign (s.inode k).din.addrs indirect (UInt32.ofNat addr) } := ⟨_, rfl⟩
      have hind1 : ind s1 k = addr := hs1 ▸ ind_setDinode_indirect (by omega) _ _
      have hlog1 : Logged s s1 [addr, bb] := by
        rw [hs1]
        rfl
      rw [if_neg hne, ← hs1, ← hind1]
      refine (bmapEntry_looked (bn - NDIRECT) (by rwa [hind1])).mono ?_
      rintro r s' ⟨-, hind, L, X, hL, hmem, hcard⟩
      refine ⟨fun h => absurd h hno, fun h => absurd hz' h, L ++ [addr, bb],
        insert bb X, ?_, fun b hb => ?_, ?_⟩
      · rw [Logged, hL, hlog1, append_assoc]
      · rcases mem_append.mp hb with hb | hb
        · exact (hmem b hb).imp_left mem_insert_of_mem
        rcases mem_cons.mp hb with rfl | hb
        · exact .inr (.inr ⟨hne, by rw [hind, hind1]⟩)
        · exact .inl (mem_insert.mpr (.inl (List.mem_singleton.mp hb)))
      · have hnew : newInd s s' k = 1 := if_pos ⟨hz', by rwa [hind, hind1]⟩
        have := card_insert_le bb X
        omega

/-! ## The loop of `writei` -/

/-- How many blocks of a file the `len` bytes from `off` on are in. -/
def span (off len : ℕ) : ℕ :=
  if len = 0 then 0 else (off % BSIZE + len + (BSIZE - 1)) / BSIZE

theorem writeiLoop_logs (hsize : sb.size < 2 ^ 32) (f tot off n : ℕ) (src : Source) (htot : tot ≤ n)
    (hoff : off + (n - tot) ≤ MAXFILE * BSIZE) {c : ℕ} (hc : 2 * span off (n - tot) ≤ c ∨
      Allocated s k (off / BSIZE) ∧ 2 * span off (n - tot) ≤ c + 1) :
    wp (writeiLoop sb k f tot off n src) E s fun _ s' => Logs k s s' c := by
  induction f generalizing s tot off src c with
  | zero =>
    rw [writeiLoop, wp_pure]
    exact .refl s c
  | succ f ih =>
    rw [writeiLoop]
    by_cases hlt : tot < n
    · have hbn : off / BSIZE < MAXFILE := div_lt_maxfile (by omega)
      have hspan : 1 ≤ span off (n - tot) := by
        rw [span, if_neg (by omega)]
        simp only [BSIZE]
        omega
      -- an allocated block costs one, another one two
      obtain ⟨c1, c2, hcc, hc1, hc2⟩ : ∃ c1 c2, c1 + c2 = c ∧
          (c1 = 2 ∨ Allocated s k (off / BSIZE) ∧ c1 = 1) ∧ 2 * (span off (n - tot) - 1) ≤ c2 := by
        rcases hc with hc | ⟨halloc, hc⟩
        · exact ⟨2, c - 2, by omega, .inl rfl, by omega⟩
        · exact ⟨1, c - 1, by omega, .inr ⟨halloc, rfl⟩, by omega⟩
      rw [if_pos hlt, wp_bind]
      refine (bmap_looked hsize hbn).mono fun addr s1 hlook => ?_
      have hturn : ∀ s2 extra, Logged s1 s2 extra → (extra = [] ∨ extra = [addr]) →
          ind s2 k = ind s1 k → Logs k s s2 c1 := by
        intro s2 extra hlog hextra hind
        rcases hc1 with rfl | ⟨halloc, rfl⟩
        · refine hlook.logs hlog (fun b hb => ?_) hind
          rcases hextra with rfl | rfl
          · cases hb
          · exact List.mem_singleton.mp hb
        · obtain rfl := hlook.same halloc
          have hkeep : Logs k s1 s1 0 := .refl s1 0
          rcases hextra with rfl | rfl
          · exact ⟨fun _ => hind, [], ∅, hlog, by simp, Nat.zero_le _⟩
          · exact hkeep.cons hlog hind
      by_cases h0 : addr = 0
      · rw [if_pos h0, wp_pure]
        exact (hturn s1 [] rfl (.inl rfl) rfl).mono (by omega)
      rw [if_neg h0]
      obtain ⟨m, hm⟩ : ∃ m, m = min (n - tot) (BSIZE - off % BSIZE) := ⟨_, rfl⟩
      simp only [bread, wp_bind, wp_get, wp_pure, ← hm]
      by_cases hcopy : (src.copyin m).1 = true
      · rw [if_pos hcopy]
        simp only [logWrite, wp_bind, wp_modify]
        have hnext : span (off + m) (n - (tot + m)) ≤ span off (n - tot) - 1 := by
          rw [span, span, if_neg (by omega : ¬ n - tot = 0)]
          split
          · exact Nat.zero_le _
          · simp only [BSIZE] at *
            omega
        refine (ih (tot + m) (off + m) (src.copyin m).2.2 (by omega) (by omega)
          (.inl (by omega) : 2 * span (off + m) (n - (tot + m)) ≤ c2 ∨ _)).mono fun _ s' hrest => ?_
        rw [← hcc]
        exact Logs.trans (hturn _ [addr] (by rfl) (.inr rfl) (by rfl)) hrest
      · rw [if_neg hcopy]
        simp only [setBuf, wp_bind, wp_modify, wp_pure]
        refine Logs.mono (hturn _ [] (by rfl) (.inl rfl) (by rfl)) ?_
        omega
    · rw [if_neg hlt, wp_pure]
      exact .refl s c

/-- A chunk of `filewrite` logs at most `MAXOPBLOCKS` distinct blocks, whatever the geometry of the disk
is, and whether or not the disk is full or the copy fails. -/
theorem writei_fits_reservation (sb : Superblock) (hsize : sb.size < 2 ^ 32) (s : State) (k : Slot)
    (hole : NoHoles s k) (src : Source) (off n : ℕ) (hoff : off ≤ (s.inode k).din.size.toNat)
    (hn : n ≤ FileWrite.maxWrite) :
    ∃ r s' L, (writei sb k src off n).run s = .ok (r, s') ∧ Logged s s' L ∧
      L.toFinset.card ≤ MAXOPBLOCKS := by
  suffices h : wp (writei sb k src off n) (fun _ => False) s fun _ s' =>
      ∃ L, Logged s s' L ∧ L.toFinset.card ≤ MAXOPBLOCKS by
    obtain ⟨r, s', hrun, L, hL, hcard⟩ := h.exists_ok
    exact ⟨r, s', L, hrun, hL, hcard⟩
  simp only [writei, wp_bind, wp_get]
  have hnone : ∃ L, Logged s s L ∧ L.toFinset.card ≤ MAXOPBLOCKS := ⟨[], rfl, Nat.zero_le _⟩
  rw [wp_ite]
  refine ⟨fun _ => hnone, fun _ => ?_⟩
  rw [wp_ite]
  refine ⟨fun _ => hnone, fun hmax => ?_⟩
  have hspan : 2 * span off (n - 0) ≤ 7 ∨
      Allocated s k (off / BSIZE) ∧ 2 * span off (n - 0) ≤ 7 + 1 := by
    by_cases hmod : off % BSIZE = 0
    · left
      rw [span]
      split
      · omega
      simp only [FileWrite.maxWrite, MAXOPBLOCKS, BSIZE] at *
      omega
    · refine .inr ⟨(hole (off / BSIZE) ?_).2, ?_⟩
      · simp only [BSIZE] at *
        omega
      · rw [span]
        split
        · omega
        simp only [FileWrite.maxWrite, MAXOPBLOCKS, BSIZE] at *
        omega
  rw [wp_bind]
  refine (writeiLoop_logs hsize n 0 off n src (Nat.zero_le _) (by omega) hspan).mono fun r s₁ h => ?_
  have hfin : ∀ s₂ : State, s₂.logged = s₁.logged → wp (do iupdate sb k; return (r.1 : ℤ))
      (fun _ => False) s₂ fun _ s' => ∃ L, Logged s s' L ∧ L.toFinset.card ≤ MAXOPBLOCKS := by
    intro s₂ hlog
    simp only [iupdate, bread, logWrite, wp_bind, wp_get, wp_pure, wp_modify]
    obtain ⟨L, hL, hcard⟩ := h.card_le
    refine ⟨sb.iblock (s₂.inode k).inum :: L, ?_, ?_⟩
    · rw [Logged, hlog, hL]
      rfl
    · rw [List.toFinset_cons]
      have := card_insert_le (sb.iblock (s₂.inode k).inum) L.toFinset
      simp only [MAXOPBLOCKS]
      omega
  by_cases hlt : (s.inode k).din.size.toNat < r.2
  · rw [if_pos hlt, wp_bind, wp_setDin]
    exact hfin _ rfl
  · rw [if_neg hlt]
    exact hfin _ rfl

theorem writei_fits_reservation_tiny :
    ∃ r s' L, (writei tiny 0 (.kernel [7]) 0 1).run (tinyState tinyBits) = .ok (r, s') ∧
      Logged (tinyState tinyBits) s' L ∧ L.toFinset.card ≤ MAXOPBLOCKS :=
  writei_fits_reservation tiny (by decide) (tinyState tinyBits) 0
    (fun _ hbn => absurd hbn (Nat.not_lt_zero _)) (.kernel [7]) 0 1 (Nat.zero_le _) (by decide)

end Xv6.Fs
