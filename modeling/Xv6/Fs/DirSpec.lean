import Xv6.Fs.Dir
import Xv6.Fs.Table

/-!
# Specifications of the directory layer

`Inv` is the invariant of the file system between calls: the table, the blocks, and directories without
holes whose entries name disk inodes. Reading a directory leaves the state alone; writing an entry changes
that entry of the directory and nothing else.
-/

namespace Xv6.Fs

open Lib List Store
open Dirent (encode decode)

variable {sb : Superblock} {E : Err → Prop} {s s' : State} {k : Slot}

/-! ## Names -/

theorem headD_strncpy (n : ℕ) (p : List UInt8) : (strncpy (n + 1) p).headD 0 = p.headD 0 := by
  rw [strncpy]
  split
  · next h0 => rw [h0, replicate_succ, headD_cons]
  · rfl

theorem strncmp_eq_zero_iff (n : ℕ) (p q : List UInt8) :
    strncmp n p q = 0 ↔ strncpy n p = strncpy n q := by
  induction n generalizing p q with
  | zero => exact iff_of_true rfl rfl
  | succ n ih =>
    rw [strncmp]
    by_cases heq : p.headD 0 = q.headD 0
    · rw [strncpy, strncpy, ← heq]
      by_cases h0 : p.headD 0 = 0
      · rw [if_neg (fun h => h.1 h0), if_pos h0, if_pos h0]
        exact iff_of_true (Int.sub_self _) rfl
      · rw [if_pos ⟨h0, rfl⟩, if_neg h0, if_neg h0, ih, List.cons.injEq]
        exact (and_iff_right rfl).symm
    · rw [if_neg (fun h => heq h.2)]
      refine iff_of_false (fun h => heq ?_) (fun h => heq ?_)
      · apply UInt8.toNat_inj.mp
        omega
      · rw [← headD_strncpy n p, h, headD_strncpy]

theorem strncpy_strncpy (n : ℕ) (p : List UInt8) : strncpy n (strncpy n p) = strncpy n p := by
  induction n generalizing p with
  | zero => rfl
  | succ n ih =>
    rw [strncpy, headD_strncpy]
    by_cases h0 : p.headD 0 = 0
    · rw [if_pos h0, strncpy, if_pos h0]
    · rw [if_neg h0, strncpy, if_neg h0, tail_cons, ih]

theorem namecmp_strncpy (p q : List UInt8) :
    namecmp p (strncpy DIRSIZ q) = 0 ↔ strncpy DIRSIZ p = strncpy DIRSIZ q := by
  rw [namecmp, strncmp_eq_zero_iff, strncpy_strncpy]

/-! ## Directory entries -/

/-- Entry `n` of directory `i`. -/
def Store.dirent (st : Store) (i n : ℕ) : Dirent := Dirent.decode (st.bytes i (DIRENT * n) DIRENT)

/-- The number of entries. -/
def Store.nents (st : Store) (i : ℕ) : ℕ := (st.din i).size.toNat / DIRENT

theorem Store.dirent_congr {st st' : Store} {i n : ℕ}
    (h : ∀ j < DIRENT, st'.content i (DIRENT * n + j) = st.content i (DIRENT * n + j)) :
    st'.dirent i n = st.dirent i n := by
  rw [dirent, dirent, bytes_congr h]

/-- A directory without holes whose entries name disk inodes. -/
structure DirOk (sb : Superblock) (st : Store) (i : ℕ) : Prop where
  hole : st.NoHole i
  ents : ∀ n < st.nents i, (st.dirent i n).inum < sb.ninodes

theorem DirOk.congr {st st' : Store} {i : ℕ} (h : DirOk sb st i)
    (hsize : (st'.din i).size = (st.din i).size) (hval : ∀ p, st'.val (i, p) = st.val (i, p))
    (hcontent : ∀ o, st'.content i o = st.content i o) : DirOk sb st' i where
  hole bn hbn := by
    rw [hsize] at hbn
    rw [hval]
    exact h.hole bn hbn
  ents n hn := by
    rw [Store.nents, hsize] at hn
    rw [dirent_congr fun _ _ => hcontent _]
    exact h.ents n hn

instance (sb : Superblock) (st : Store) (i : ℕ) : Decidable (DirOk sb st i) :=
  decidable_of_iff (st.NoHole i ∧ ∀ n < st.nents i, (st.dirent i n).inum < sb.ninodes)
    ⟨fun h => ⟨h.1, h.2⟩, fun h => ⟨h.hole, h.ents⟩⟩

/-- The invariant of the file system. -/
structure Inv (sb : Superblock) (s : State) : Prop where
  table : Table sb s
  own : Own sb (sb.abs s.disk)
  dirs : ∀ i, ((sb.abs s.disk).din i).type = T_DIR → DirOk sb (sb.abs s.disk) i

theorem Inv.of_check {sb : Superblock} {s : State} (ht : Table sb s)
    (hdirs : ∀ i < sb.ninodes, ((sb.abs s.disk).din i).type = T_DIR → DirOk sb (sb.abs s.disk) i)
    (hown : Own sb (sb.abs s.disk)) : Inv sb s :=
  ⟨ht, hown, Superblock.forall_din (φ := fun i e => e.type = T_DIR → DirOk sb (sb.abs s.disk) i) hdirs
    fun _ h => absurd h (by decide)⟩

/-- Name `nm` is that of entry `n` of directory `i`. -/
def Store.Found (st : Store) (i : ℕ) (nm : List UInt8) (n : ℕ) : Prop :=
  n < st.nents i ∧ (st.dirent i n).inum ≠ 0 ∧ namecmp nm (st.dirent i n).name = 0

theorem Store.NoHole.size_le {st : Store} {i : ℕ} (h : st.NoHole i) :
    (st.din i).size.toNat ≤ MAXFILE * BSIZE := by
  by_contra hbig
  have := (h MAXFILE (by omega)).1
  omega

section

variable (hv : sb.Valid) (hown : Own sb (sb.abs s.disk)) (hk : Held sb s k)
  (hole : (sb.abs s.disk).NoHole (s.inode k).inum)

include hv hown hk hole

theorem readDirent_whole {n off : ℕ} (hoff : off = DIRENT * n) (hlt : off < (s.inode k).din.size.toNat)
    {err : Err} (herr : (s.inode k).din.size.toNat % DIRENT ≠ 0 → E err) :
    wp (readDirent sb k off err) E s fun de s' =>
      s' = s ∧ n < (sb.abs s.disk).nents (s.inode k).inum ∧
        de = (sb.abs s.disk).dirent (s.inode k).inum n := by
  have hsize := hole.size_le
  rw [← hk.sync] at hsize
  simp only [readDirent, wp_bind]
  apply (readi_spec hv (by rwa [hk.view]) hk.type (.kernel []) (by omega)
    (by simp only [MAXFILE, NDIRECT, NINDIRECT, BSIZE, DIRENT] at *; omega) trivial (by rwa [hk.view])).mono
  rintro _ s' ⟨rfl, rfl⟩
  rw [hk.view]
  simp only [Dest.put, nil_append]
  rw [wp_ite]
  refine ⟨fun heq => ?_, fun _ => ?_⟩
  · rw [wp_pure]
    have hmin : min DIRENT ((s'.inode k).din.size.toNat - off) = DIRENT := by exact_mod_cast heq
    refine ⟨rfl, ?_, ?_⟩
    · rw [Store.nents, ← hk.sync]
      simp only [DIRENT] at *
      omega
    · rw [hmin, hoff]
      rfl
  · next hne =>
    rw [wp_throw]
    refine herr fun hmul => hne ?_
    have hmin : min DIRENT ((s'.inode k).din.size.toNat - off) = DIRENT := by
      simp only [DIRENT] at *
      omega
    exact_mod_cast hmin

variable {nm : List UInt8} (hread : (s.inode k).din.size.toNat % DIRENT ≠ 0 → E .dirlookupRead)
  (higet : ∀ m, (sb.abs s.disk).Found (s.inode k).inum nm m → (∀ j, (s.inode j).ref ≠ 0) →
    E .noInodes)

include hread higet in
theorem dirlookupLoop_entry (f n : ℕ)
    (hf : (s.inode k).din.size.toNat < DIRENT * (n + f)) :
    wp (dirlookupLoop sb k nm f (DIRENT * n)) E s fun r s' =>
      (r = none ∧ s' = s ∧ (∀ m, n ≤ m → ¬ (sb.abs s.disk).Found (s.inode k).inum nm m) ∧
        ∀ m, n ≤ m → DIRENT * m < (s.inode k).din.size.toNat →
          m < (sb.abs s.disk).nents (s.inode k).inum) ∨
      ∃ ip m, r = some (ip, DIRENT * m) ∧ (sb.abs s.disk).Found (s.inode k).inum nm m ∧
        Got ((sb.abs s.disk).dirent (s.inode k).inum m).inum s ip s' := by
  have hnents : (sb.abs s.disk).nents (s.inode k).inum = (s.inode k).din.size.toNat / DIRENT := by
    rw [Store.nents, ← hk.sync]
  -- the end of the directory
  have hend : ∀ n, ¬ DIRENT * n < (s.inode k).din.size.toNat →
      (∀ m, n ≤ m → ¬ (sb.abs s.disk).Found (s.inode k).inum nm m) ∧
        ∀ m, n ≤ m → DIRENT * m < (s.inode k).din.size.toNat →
          m < (sb.abs s.disk).nents (s.inode k).inum := by
    intro n hge
    refine ⟨fun m hm hfound => ?_, fun m hm hlt => ?_⟩
    · have := hfound.1
      rw [hnents] at this
      simp only [DIRENT] at *
      omega
    · simp only [DIRENT] at *
      omega
  induction f generalizing n with
  | zero =>
    rw [dirlookupLoop, wp_pure]
    exact .inl ⟨rfl, rfl, hend n (by simp only [DIRENT] at *; omega)⟩
  | succ f ih =>
    simp only [dirlookupLoop, wp_bind, wp_get]
    by_cases hlt : DIRENT * n < (s.inode k).din.size.toNat
    · rw [if_pos hlt, wp_bind]
      apply (readDirent_whole hv hown hk hole rfl hlt hread).mono
      rintro de s' ⟨rfl, hn, rfl⟩
      -- no match here: the rest of the directory decides
      have hnext : ¬ (sb.abs s'.disk).Found (s'.inode k).inum nm n →
          wp (dirlookupLoop sb k nm f (DIRENT * n + DIRENT)) E s' fun r s'' =>
          (r = none ∧ s'' = s' ∧ (∀ m, n ≤ m → ¬ (sb.abs s'.disk).Found (s'.inode k).inum nm m) ∧
            ∀ m, n ≤ m → DIRENT * m < (s'.inode k).din.size.toNat →
              m < (sb.abs s'.disk).nents (s'.inode k).inum) ∨
          ∃ ip m, r = some (ip, DIRENT * m) ∧ (sb.abs s'.disk).Found (s'.inode k).inum nm m ∧
            Got ((sb.abs s'.disk).dirent (s'.inode k).inum m).inum s' ip s'' := by
        intro hno
        rw [← Nat.mul_succ]
        apply (ih (n + 1) (by simp only [DIRENT] at *; omega)).mono
        rintro r s'' (⟨hr, hs'', hnone, hall⟩ | hsome)
        · refine .inl ⟨hr, hs'', fun m hm => ?_, fun m hm hlt' => ?_⟩
          · rcases Nat.eq_or_lt_of_le hm with rfl | hm
            · exact hno
            · exact hnone m hm
          · rcases Nat.eq_or_lt_of_le hm with rfl | hm
            · exact hn
            · exact hall m hm hlt'
        · exact .inr hsome
      rw [wp_ite]
      refine ⟨fun h0 => hnext fun hfound => hfound.2.1 h0, fun h0 => ?_⟩
      rw [wp_ite]
      refine ⟨fun hcmp => ?_, fun hcmp => hnext fun hfound => hcmp hfound.2.2⟩
      rw [wp_bind]
      apply (iget_got (higet n ⟨hn, h0, hcmp⟩) _).mono
      rintro ip s'' ⟨hgot, -⟩
      rw [wp_pure]
      exact .inr ⟨ip, n, rfl, ⟨hn, h0, hcmp⟩, hgot⟩
    · rw [if_neg hlt, wp_pure]
      exact .inl ⟨rfl, rfl, hend n hlt⟩

include hread higet in
theorem dirlookup_entry (ht : (s.inode k).din.type = T_DIR) :
    wp (dirlookup sb k nm) E s fun r s' =>
      (r = none ∧ s' = s ∧ (∀ m, ¬ (sb.abs s.disk).Found (s.inode k).inum nm m) ∧
        (s.inode k).din.size.toNat = DIRENT * (sb.abs s.disk).nents (s.inode k).inum) ∨
      ∃ ip m, r = some (ip, DIRENT * m) ∧ (sb.abs s.disk).Found (s.inode k).inum nm m ∧
        Got ((sb.abs s.disk).dirent (s.inode k).inum m).inum s ip s' := by
  simp only [dirlookup, wp_bind, wp_get]
  rw [if_pos ht]
  have hf : (s.inode k).din.size.toNat < DIRENT * (0 + ((s.inode k).din.size.toNat / DIRENT + 1)) := by
    simp only [DIRENT]
    omega
  apply (dirlookupLoop_entry hv hown hk hole hread higet _ 0 hf).mono
  rintro r s' (⟨hr, hs', hnone, hall⟩ | hsome)
  · refine .inl ⟨hr, hs', fun m => hnone m (Nat.zero_le _), ?_⟩
    have hlast := hall ((sb.abs s.disk).nents (s.inode k).inum) (Nat.zero_le _)
    rw [Store.nents, ← hk.sync] at hlast ⊢
    simp only [DIRENT] at *
    omega
  · exact .inr hsome

theorem dirlinkLoop_first (hread : (s.inode k).din.size.toNat % DIRENT ≠ 0 → E .dirlinkRead) (f n : ℕ)
    (hsize : (s.inode k).din.size.toNat = DIRENT * (sb.abs s.disk).nents (s.inode k).inum)
    (hn : n ≤ (sb.abs s.disk).nents (s.inode k).inum)
    (hf : (sb.abs s.disk).nents (s.inode k).inum < n + f) :
    wp (dirlinkLoop sb k f (DIRENT * n)) E s fun off s' =>
      s' = s ∧ ∃ m, off = DIRENT * m ∧
        (m < (sb.abs s.disk).nents (s.inode k).inum ∧
          ((sb.abs s.disk).dirent (s.inode k).inum m).inum = 0 ∨
        m = (sb.abs s.disk).nents (s.inode k).inum) ∧
        ∀ j, n ≤ j → j < m → ((sb.abs s.disk).dirent (s.inode k).inum j).inum ≠ 0 := by
  induction f generalizing n with
  | zero => omega
  | succ f ih =>
    simp only [dirlinkLoop, wp_bind, wp_get]
    by_cases hlt : DIRENT * n < (s.inode k).din.size.toNat
    · rw [if_pos hlt, wp_bind]
      apply (readDirent_whole hv hown hk hole rfl hlt hread).mono
      rintro de s' ⟨rfl, hn', rfl⟩
      rw [wp_ite]
      refine ⟨fun h0 => ?_, fun h0 => ?_⟩
      · rw [wp_pure]
        exact ⟨rfl, n, rfl, .inl ⟨hn', h0⟩, fun j hj hlt => absurd hj (Nat.not_le.mpr hlt)⟩
      · rw [← Nat.mul_succ]
        apply (ih (n + 1) (by omega) (by omega)).mono
        rintro off s'' ⟨hs'', m, hoff, hm, hused⟩
        refine ⟨hs'', m, hoff, hm, fun j hj hlt => ?_⟩
        rcases Nat.eq_or_lt_of_le hj with rfl | hj
        · exact h0
        · exact hused j hj hlt
    · rw [if_neg hlt, wp_pure]
      refine ⟨rfl, n, rfl, .inr ?_, fun j hj hlt => absurd hj (Nat.not_le.mpr hlt)⟩
      rw [hsize] at hlt
      simp only [DIRENT] at *
      omega

end

section

variable (hE : Tolerant E) (hv : sb.Valid) (hown : Own sb (sb.abs s.disk)) (hk : Held sb s k)
  (hole : (sb.abs s.disk).NoHole (s.inode k).inum)

include hE hv hown hk hole

theorem isdiremptyLoop_spec (f n : ℕ) (hf : (s.inode k).din.size.toNat < DIRENT * (n + f)) :
    wp (isdiremptyLoop sb k f (DIRENT * n)) E s fun r s' =>
      s' = s ∧ (r = true → ∀ m, n ≤ m → m < (sb.abs s.disk).nents (s.inode k).inum →
        ((sb.abs s.disk).dirent (s.inode k).inum m).inum = 0) := by
  have hnents : (sb.abs s.disk).nents (s.inode k).inum = (s.inode k).din.size.toNat / DIRENT := by
    rw [Store.nents, ← hk.sync]
  induction f generalizing n with
  | zero =>
    rw [isdiremptyLoop, wp_pure]
    refine ⟨rfl, fun _ m hm hlt => ?_⟩
    rw [hnents] at hlt
    simp only [DIRENT] at *
    omega
  | succ f ih =>
    simp only [isdiremptyLoop, wp_bind, wp_get]
    by_cases hlt : DIRENT * n < (s.inode k).din.size.toNat
    · rw [if_pos hlt, wp_bind]
      apply (readDirent_whole hv hown hk hole rfl hlt fun _ => hE _ (by decide) (by decide) (by decide)).mono
      rintro de s' ⟨rfl, -, rfl⟩
      rw [wp_ite]
      refine ⟨fun h0 => ?_, fun _ => ?_⟩
      · rw [← Nat.mul_succ]
        apply (ih (n + 1) (by simp only [DIRENT] at *; omega)).mono
        rintro r s'' ⟨hs'', hr⟩
        refine ⟨hs'', fun htrue m hm hlt' => ?_⟩
        rcases Nat.eq_or_lt_of_le hm with rfl | hm
        · exact h0
        · exact hr htrue m hm hlt'
      · rw [wp_pure]
        exact ⟨rfl, fun h => absurd h (by decide)⟩
    · rw [if_neg hlt, wp_pure]
      refine ⟨rfl, fun _ m hm hlt' => ?_⟩
      rw [hnents] at hlt'
      simp only [DIRENT] at *
      omega

theorem isdirempty_spec : wp (isdirempty sb k) E s fun r s' =>
      s' = s ∧ (r = true → ∀ m, 2 ≤ m → m < (sb.abs s.disk).nents (s.inode k).inum →
        ((sb.abs s.disk).dirent (s.inode k).inum m).inum = 0) := by
  simp only [isdirempty, wp_bind, wp_get]
  rw [Nat.mul_comm 2 DIRENT]
  apply isdiremptyLoop_spec hE hv hown hk hole
  simp only [DIRENT]
  omega

end

/-! ## Writing an entry -/

theorem Dirent.decode_encode (de : Dirent) : decode (encode de) = ⟨de.inum % 65536, de.name⟩ := by
  simp only [decode, encode, getD_cons_zero, getD_cons_succ, drop_succ_cons,
    drop_zero, UInt8.toNat_ofNat', Dirent.mk.injEq, and_true]
  omega

theorem length_strncpy (n : ℕ) (t : List UInt8) : (strncpy n t).length = n := by
  induction n generalizing t with
  | zero => rfl
  | succ n ih =>
    rw [strncpy]
    split
    · exact length_replicate
    · rw [length_cons, ih]

theorem Wrote.refl (hown : Own sb (sb.abs s.disk)) (hk : Held sb s k) {off : ℕ}
    (hoff : off ≤ (s.inode k).din.size.toNat) : Wrote sb k s s off 0 where
  frame := Frame.refl s
  sync := hk.sync.symm
  own := hown
  din := ⟨_, _, rfl⟩
  size := by omega
  val _ _ := by rw [hk.view]
  val_ne _ _ _ := by rw [hk.view]
  content_ne _ _ _ := by rw [hk.view]
  used _ h := h
  block _ _ _ := by omega

/-- Entry `n` of directory `k` is now `de`. -/
structure EntryWrite (sb : Superblock) (k : Slot) (n : ℕ) (de : Dirent) (s s' : State) : Prop where
  wrote : ∃ off tot, off ≤ (s.inode k).din.size.toNat ∧ off + tot ≤ MAXFILE * BSIZE ∧
    Wrote sb k s s' off tot
  nents : (sb.abs s'.disk).nents (s.inode k).inum = max ((sb.abs s.disk).nents (s.inode k).inum) (n + 1)
  self : (sb.abs s'.disk).dirent (s.inode k).inum n = de
  ne : ∀ m < (sb.abs s.disk).nents (s.inode k).inum, m ≠ n →
    (sb.abs s'.disk).dirent (s.inode k).inum m = (sb.abs s.disk).dirent (s.inode k).inum m

/-- The contents of directory `k` are as before. -/
structure EntryKeep (sb : Superblock) (k : Slot) (s s' : State) : Prop where
  wrote : ∃ off tot, off ≤ (s.inode k).din.size.toNat ∧ off + tot ≤ MAXFILE * BSIZE ∧
    Wrote sb k s s' off tot
  nents : (sb.abs s'.disk).nents (s.inode k).inum = (sb.abs s.disk).nents (s.inode k).inum
  ents : ∀ m < (sb.abs s.disk).nents (s.inode k).inum,
    (sb.abs s'.disk).dirent (s.inode k).inum m = (sb.abs s.disk).dirent (s.inode k).inum m
  size : ((sb.abs s'.disk).din (s.inode k).inum).size = ((sb.abs s.disk).din (s.inode k).inum).size
  content : ∀ o < MAXFILE * BSIZE,
    (sb.abs s'.disk).content (s.inode k).inum o = (sb.abs s.disk).content (s.inode k).inum o

section

variable (hv : sb.Valid) (hown : Own sb (sb.abs s.disk)) (hk : Held sb s k)
  (hole : (sb.abs s.disk).NoHole (s.inode k).inum)

include hv hown hk hole

theorem writeDirent_spec {n : ℕ} {bs : List UInt8} (hbs : bs.length = DIRENT)
    (hn : n ≤ (sb.abs s.disk).nents (s.inode k).inum) :
    wp (writei sb k (.kernel bs) (DIRENT * n) DIRENT) E s fun r s' =>
      (r = DIRENT ∧ EntryWrite sb k n (decode bs) s s') ∨ (r ≠ DIRENT ∧ EntryKeep sb k s s') := by
  have hnents : (sb.abs s.disk).nents (s.inode k).inum = (s.inode k).din.size.toNat / DIRENT := by
    rw [Store.nents, ← hk.sync]
  have hsize := hole.size_le
  rw [← hk.sync] at hsize
  have hoff : DIRENT * n ≤ (s.inode k).din.size.toNat := by
    rw [hnents] at hn
    simp only [DIRENT] at *
    omega
  by_cases hmax : DIRENT * n + DIRENT ≤ MAXFILE * BSIZE
  · apply (writei_spec hv (by rwa [hk.view]) hk.type hk.inum_lt (.kernel bs) hoff hmax).mono
    rintro r s' ⟨tot, rfl, hle, hstop, hw, hgood⟩
    obtain ⟨-, hcontent⟩ := hgood bs (prefix_refl bs) hbs
    rw [hk.view] at hcontent
    have hnents' : (sb.abs s'.disk).nents (s.inode k).inum =
        max (s.inode k).din.size.toNat (DIRENT * n + tot) / DIRENT := by
      rw [Store.nents, hw.sync, hw.size]
    -- an entry does not cross the end of a block: it is written as a whole or not at all
    have htot : tot = DIRENT ∨ tot = 0 := by
      rcases Nat.lt_or_ge tot DIRENT with hlt | hge
      · rcases hstop hlt with h0 | hend
        · exact .inr h0
        · simp only [DIRENT, BSIZE] at *
          omega
      · exact .inl (by omega)
    rcases htot with rfl | rfl
    · refine .inl ⟨rfl, ⟨_, _, hoff, hmax, hw⟩, ?_, ?_, fun m hm hne => ?_⟩
      · rw [hnents', hnents]
        simp only [DIRENT] at *
        omega
      · rw [dirent]
        congr 1
        apply ext_getElem
        · rw [length_bytes, hbs]
        · intro j hj hj'
          rw [length_bytes] at hj
          simp only [bytes, getElem_map, getElem_range]
          rw [hcontent _ (by omega), if_pos (by omega), Nat.add_sub_cancel_left,
            getD_eq_getElem _ _ hj']
      · apply dirent_congr
        intro j hj
        rw [hnents] at hm
        rw [hcontent _ (by simp only [DIRENT] at *; omega), if_neg (by simp only [DIRENT] at *; omega)]
    · refine .inr ⟨by decide, ⟨_, _, hoff, by omega, hw⟩, ?_, fun m hm => ?_, ?_, fun o ho => ?_⟩
      · rw [hnents', hnents]
        congr 1
        omega
      · apply dirent_congr
        intro j hj
        rw [hnents] at hm
        rw [hcontent _ (by simp only [DIRENT] at *; omega), if_neg (by omega)]
      · rw [hw.sync, ← hk.sync, ← UInt32.toNat_inj, hw.size]
        omega
      · rw [hcontent o ho, if_neg (by omega)]
  · have hwrap : ¬ ((s.inode k).din.size.toNat < DIRENT * n ∨
        (DIRENT * n + DIRENT) % 2 ^ 32 < DIRENT * n) := by
      simp only [MAXFILE, NDIRECT, NINDIRECT, BSIZE, DIRENT] at *
      omega
    simp only [writei, wp_bind, wp_get]
    rw [if_neg hwrap, if_pos (by omega), wp_pure]
    exact .inr ⟨by decide, ⟨_, 0, hoff, by omega, Wrote.refl hown hk hoff⟩, rfl, fun _ _ => rfl, rfl,
      fun _ _ => rfl⟩

theorem dirlinkTail_spec (hE : Tolerant E)
    (hsize : (s.inode k).din.size.toNat = DIRENT * (sb.abs s.disk).nents (s.inode k).inum)
    (nm : List UInt8) (inum : ℕ) : wp (do
      let off ← dirlinkLoop sb k (((← get).inode k).din.size.toNat / DIRENT + 1) 0
      let r ← writei sb k (.kernel (encode ⟨inum, strncpy DIRSIZ nm⟩)) off DIRENT
      return if r = DIRENT then (0 : ℤ) else -1) E s fun r s' =>
      (r = 0 ∧ ∃ n ≤ (sb.abs s.disk).nents (s.inode k).inum,
        (n < (sb.abs s.disk).nents (s.inode k).inum →
          ((sb.abs s.disk).dirent (s.inode k).inum n).inum = 0) ∧
        EntryWrite sb k n ⟨inum % 65536, strncpy DIRSIZ nm⟩ s s') ∨
      (r = -1 ∧ EntryKeep sb k s s') := by
  have hlen : (encode ⟨inum, strncpy DIRSIZ nm⟩).length = DIRENT := by
    simp only [encode, length_cons, length_strncpy, DIRSIZ, DIRENT]
  simp only [wp_bind, wp_get]
  have hloop := dirlinkLoop_first (E := E) hv hown hk hole (fun _ => hE _ (by decide) (by decide) (by decide))
    ((s.inode k).din.size.toNat / DIRENT + 1) 0 hsize (Nat.zero_le _)
    (by rw [hsize]; simp only [DIRENT]; omega)
  rw [Nat.mul_zero] at hloop
  apply hloop.mono
  rintro off s' ⟨rfl, n, rfl, hn, -⟩
  have hle : n ≤ (sb.abs s'.disk).nents (s'.inode k).inum := by omega
  apply (writeDirent_spec hv hown hk hole hlen hle).mono
  rintro r s'' (⟨rfl, hwrite⟩ | ⟨hr, hkeep⟩)
  · rw [wp_pure, if_pos rfl]
    rw [Dirent.decode_encode] at hwrite
    refine .inl ⟨rfl, n, hle, fun hlt => ?_, hwrite⟩
    rcases hn with ⟨-, h0⟩ | h0
    · exact h0
    · omega
  · rw [wp_pure, if_neg hr]
    exact .inr ⟨rfl, hkeep⟩

end

/-! ## The invariant -/

namespace Inv

section

variable (h : Inv sb s)

include h

theorem held (hr : 0 < (s.inode k).ref) (hvalid : (s.inode k).valid = true) :
    Held sb s k := h.table.held hr hvalid

theorem noHole (hk : Held sb s k) (ht : (s.inode k).din.type = T_DIR) :
    (sb.abs s.disk).NoHole (s.inode k).inum :=
  (h.dirs _ (by rw [← hk.sync]; exact ht)).hole

section

variable (hr : 0 < (s.inode k).ref) (hk : Held sb s k)

include hr hk

theorem wrote {off tot : ℕ} (hw : Wrote sb k s s' off tot)
    (hdir : (s.inode k).din.type = T_DIR → DirOk sb (sb.abs s'.disk) (s.inode k).inum) : Inv sb s' := by
  have hheld := hw.held hk
  refine ⟨hw.frame.table h.table hr hw.sync hheld.type, hw.own, fun i hi => ?_⟩
  by_cases hik : i = (s.inode k).inum
  · subst hik
    rw [hw.sync] at hi
    obtain ⟨a, z, hdin⟩ := hw.din
    rw [hdin] at hi
    exact hdir hi
  · have hdin := hw.frame.din i hik
    rw [hdin] at hi
    apply (h.dirs i hi).congr
    · rw [hdin]
    · intro p
      rw [hw.val_ne i hik, hk.view]
    · intro o
      rw [hw.content_ne i hik, hk.view]

theorem entryWrite
    (ht : (s.inode k).din.type = T_DIR) {n : ℕ} {de : Dirent} (hw : EntryWrite sb k n de s s')
    (hn : n ≤ (sb.abs s.disk).nents (s.inode k).inum) (hde : de.inum < sb.ninodes) : Inv sb s' := by
  obtain ⟨off, tot, hoff, hmax, hwrote⟩ := hw.wrote
  apply h.wrote hr hk hwrote
  intro _
  have hole := h.noHole hk ht
  refine ⟨hwrote.noHole (by rwa [hk.view]) hoff hmax, fun m hm => ?_⟩
  rw [hw.nents] at hm
  by_cases hmn : m = n
  · rw [hmn, hw.self]
    exact hde
  · have hm' : m < (sb.abs s.disk).nents (s.inode k).inum := by omega
    rw [hw.ne m hm' hmn]
    exact (h.dirs _ (by rw [← hk.sync]; exact ht)).ents m hm'

theorem entryKeep (ht : (s.inode k).din.type = T_DIR) (hw : EntryKeep sb k s s') : Inv sb s' := by
  obtain ⟨off, tot, hoff, hmax, hwrote⟩ := hw.wrote
  apply h.wrote hr hk hwrote
  intro _
  refine ⟨hwrote.noHole (by rw [hk.view]; exact h.noHole hk ht) hoff hmax, fun m hm => ?_⟩
  rw [hw.nents] at hm
  rw [hw.ents m hm]
  exact (h.dirs _ (by rw [← hk.sync]; exact ht)).ents m hm

end

theorem ofTable (ht : Table sb s') (hdisk : s'.disk = s.disk) : Inv sb s' :=
  ⟨ht, by rw [hdisk]; exact h.own, by rw [hdisk]; exact h.dirs⟩

theorem updated (hr : 0 < (s.inode k).ref) (hk : Held sb s k) {d : Dinode}
    (hu : Updated sb k d s s') (htype : d.type = (s.inode k).din.type)
    (hsize : d.size = (s.inode k).din.size) (haddrs : d.addrs = (s.inode k).din.addrs) : Inv sb s' := by
  rw [hk.sync] at hsize haddrs
  have htype' : d.type = ((sb.abs s.disk).din (s.inode k).inum).type := by rw [htype, hk.sync]
  have hval := val_setDin htype' haddrs
  have hcontent := content_setDin htype' haddrs
  refine ⟨hu.frame.table h.table hr hu.sync ?_, ?_, fun i hi => ?_⟩
  · rw [hu.self, htype]
    exact hk.type
  · rw [hu.abs]
    exact h.own.setDin htype' haddrs
  · rw [hu.abs] at hi ⊢
    have hdin : ((sb.abs s.disk).din i).type = T_DIR ∧
        (((sb.abs s.disk).setDin (s.inode k).inum d).din i).size = ((sb.abs s.disk).din i).size := by
      by_cases hik : i = (s.inode k).inum
      · subst hik
        rw [setDin_din_self] at hi ⊢
        exact ⟨htype' ▸ hi, hsize⟩
      · rw [setDin_din_ne hik] at hi ⊢
        exact ⟨hi, rfl⟩
    apply (h.dirs i hdin.1).congr hdin.2
    · intro p
      rw [hval]
    · intro o
      rw [hcontent]

end

end Inv

end Xv6.Fs
