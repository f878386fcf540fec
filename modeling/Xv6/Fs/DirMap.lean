import Xv6.Fs.WriteResult
import Xv6.Lib.Slots

/-!
# A directory is a finite map

The entries of a directory are the slots of a finite map from names to inode numbers
(`Xv6.Lib.Slots`). Names are compared on their first `DIRSIZ` bytes, so the key of an entry is what
`strncpy` makes of its name. `dirlookup` is the lookup of the map, `dirlink` adds a key in the first empty
slot or behind the last one, and the write of zeros with which `sys_unlink` clears an entry removes the
key. `dirlink` of a new name fails only if the directory has to grow and cannot.
-/

namespace Xv6.Fs

open Lib Store List

variable {sb : Superblock} {E : Err → Prop} {s s' : State} {k : Slot} {nm nm' : List UInt8}

/-- The entries of directory `i` in use, by name. -/
def Store.slots (st : Store) (i : ℕ) (n : ℕ) : Option (List UInt8 × ℕ) :=
  if n < st.nents i ∧ (st.dirent i n).inum ≠ 0 then
    some (strncpy DIRSIZ (st.dirent i n).name, (st.dirent i n).inum)
  else none

/-- The number and the inode number of the entry with a name. -/
def Store.entry (st : Store) (i : ℕ) (nm : List UInt8) : Option (ℕ × ℕ) :=
  Slots.find (st.slots i) (st.nents i) (strncpy DIRSIZ nm)

/-- Entry `k` of the inode table, in use and up to date, is a directory. It has blocks for its size, which
is that of a number of entries, and no name twice. -/
structure IsDir (sb : Superblock) (s : State) (k : Slot) : Prop where
  own : Own sb (sb.abs s.disk)
  ref : 0 < (s.inode k).ref
  held : Held sb s k
  hole : (sb.abs s.disk).NoHole (s.inode k).inum
  type : (s.inode k).din.type = T_DIR
  size : (s.inode k).din.size.toNat % DIRENT = 0
  distinct : Slots.Distinct ((sb.abs s.disk).slots (s.inode k).inum)

/-- The entry of directory `k` with a name. -/
def entry (sb : Superblock) (s : State) (k : Slot) (nm : List UInt8) : Option (ℕ × ℕ) :=
  (sb.abs s.disk).entry (s.inode k).inum nm

/-- All entries of directory `k` are in use, and it is as large as a file can be, or the disk has not the
blocks that one more entry needs. -/
def CannotGrow (sb : Superblock) (s : State) (k : Slot) : Prop :=
  (∀ n < (sb.abs s.disk).nents (s.inode k).inum,
    ((sb.abs s.disk).dirent (s.inode k).inum n).inum ≠ 0) ∧
  ((s.inode k).din.size.toNat = MAXFILE * BSIZE ∨
    ¬ Room sb (sb.abs s.disk) (s.inode k).inum ((s.inode k).din.size.toNat + DIRENT))

/-! ## Entries and slots -/

section

variable {st st' : Store} {i n : ℕ}

theorem Store.slots_eq_some_iff {x : List UInt8 × ℕ} : st.slots i n = some x ↔
    n < st.nents i ∧ (st.dirent i n).inum ≠ 0 ∧ strncpy DIRSIZ (st.dirent i n).name = x.1 ∧
      (st.dirent i n).inum = x.2 := by
  unfold slots
  by_cases h : n < st.nents i ∧ (st.dirent i n).inum ≠ 0
  · rw [if_pos h, Option.some.injEq, Prod.ext_iff]
    exact ⟨fun hx => ⟨h.1, h.2, hx⟩, fun hx => hx.2.2⟩
  · rw [if_neg h]
    exact iff_of_false (Option.some_ne_none x).symm fun hx => h ⟨hx.1, hx.2.1⟩

theorem Store.found_iff : st.Found i nm n ↔
    st.slots i n = some (strncpy DIRSIZ nm, (st.dirent i n).inum) := by
  rw [slots_eq_some_iff, Store.Found, namecmp, strncmp_eq_zero_iff]
  exact ⟨fun h => ⟨h.1, h.2.1, h.2.2.symm, rfl⟩, fun h => ⟨h.1, h.2.1, h.2.2.1.symm⟩⟩

theorem Store.slots_of_le {m : ℕ} (h : st.nents i ≤ m) : st.slots i m = none :=
  if_neg fun hc => Nat.not_lt.mpr h hc.1

theorem Store.slots_of_inum (h : (st.dirent i n).inum = 0) : st.slots i n = none :=
  if_neg fun hc => hc.2 h

theorem slots_update {de : Dirent} (hnents : st'.nents i = max (st.nents i) (n + 1))
    (hle : n ≤ st.nents i) (hself : st'.dirent i n = de)
    (hne : ∀ m < st.nents i, m ≠ n → st'.dirent i m = st.dirent i m) :
    st'.slots i = Function.update (st.slots i) n
      (if de.inum ≠ 0 then some (strncpy DIRSIZ de.name, de.inum) else none) := by
  funext m
  by_cases hm : m = n
  · have hlt : n < st'.nents i := by omega
    rw [hm, Function.update_self, slots, hself]
    simp only [hlt, true_and]
  · rw [Function.update_of_ne hm]
    by_cases hlt : m < st.nents i
    · have hlt' : m < st'.nents i := by omega
      unfold slots
      simp only [hlt, hlt', hne m hlt hm, true_and]
    · rw [slots_of_le (Nat.not_lt.mp hlt), slots_of_le (by omega)]

theorem Store.NoHole.room {m : ℕ} (h : st.NoHole i) (hm : m ≤ (st.din i).size.toNat) :
    Room sb st i m := by
  have hnone : st.missing i m = ∅ := by
    rw [missing, Finset.filter_eq_empty_iff]
    intro p _ hp
    exact filled (fun bn hbn => h bn (hbn.trans_le hm)) hp.1 hp.2
  rw [Room, hnone]
  exact Nat.zero_le _

end

/-! ## Looking a name up -/

/-- A name is there, and the inode table is full: "iget: no inodes". -/
def NoSlot (sb : Superblock) (s : State) (k : Slot) (nm : List UInt8) (e : Err) : Prop :=
  e = .noInodes ∧ entry sb s k nm ≠ none ∧ ∀ j, (s.inode j).ref ≠ 0

namespace IsDir

theorem size_eq (h : IsDir sb s k) :
    (s.inode k).din.size.toNat = DIRENT * (sb.abs s.disk).nents (s.inode k).inum := by
  have hsize := h.size
  rw [nents, ← h.held.sync]
  simp only [DIRENT] at *
  omega

theorem congr (h : IsDir sb s k) (hdisk : s'.disk = s.disk) (hk : s'.inode k = s.inode k) :
    IsDir sb s' k where
  own := by rw [hdisk]; exact h.own
  ref := by rw [hk]; exact h.ref
  held := ⟨by rw [hk]; exact h.held.inum_lt, by rw [hk, hdisk]; exact h.held.sync,
    by rw [hk]; exact h.held.type⟩
  hole := by rw [hk, hdisk]; exact h.hole
  type := by rw [hk]; exact h.type
  size := by rw [hk]; exact h.size
  distinct := by rw [hk, hdisk]; exact h.distinct

theorem dirlookup (hv : sb.Valid) (h : IsDir sb s k) (nm : List UInt8) :
    wp (Fs.dirlookup sb k nm) (NoSlot sb s k nm) s fun r s' =>
      (r = none ∧ s' = s ∧ entry sb s k nm = none) ∨
      ∃ ip n inum, r = some (ip, DIRENT * n) ∧ entry sb s k nm = some (n, inum) ∧
        Got inum s ip s' := by
  have hfind : ∀ m, (sb.abs s.disk).Found (s.inode k).inum nm m →
      entry sb s k nm = some (m, ((sb.abs s.disk).dirent (s.inode k).inum m).inum) := by
    intro m hfound
    exact (Slots.find_eq_some_iff h.distinct).mpr ⟨hfound.1, Store.found_iff.mp hfound⟩
  refine (dirlookup_entry hv h.own h.held h.hole (fun hne => absurd h.size hne)
    (fun m hm hall => ⟨rfl, by rw [hfind m hm]; exact Option.some_ne_none _, hall⟩) h.type).mono ?_
  rintro r s' (⟨hr, hs, hnone, -⟩ | ⟨ip, n, hr, hfound, hgot⟩)
  · refine .inl ⟨hr, hs, Slots.find_eq_none_iff.mpr fun m _ v hm => hnone m ?_⟩
    obtain ⟨hlt, hne, hname, -⟩ := Store.slots_eq_some_iff.mp hm
    rw [found_iff, slots_eq_some_iff]
    exact ⟨hlt, hne, hname, rfl⟩
  · exact .inr ⟨ip, n, _, hr, hfind n hfound, hgot⟩

end IsDir

theorem Got.iput {i : ℕ} {ip : Slot} (h : Got i s ip s') (hk : 0 < (s.inode k).ref) :
    wp (Fs.iput sb ip) E s' fun _ s'' => s''.disk = s.disk ∧ s''.inode k = s.inode k := by
  have hkeep : ¬ ((s'.inode ip).ref = 1 ∧ (s'.inode ip).valid = true ∧
      (s'.inode ip).din.nlink = 0) := by
    rintro ⟨hone, hvalid, -⟩
    have href := h.ref
    rw [(h.new (by omega)).1] at hvalid
    exact Bool.false_ne_true hvalid
  simp only [Fs.iput, wp_bind, wp_get]
  rw [if_neg hkeep, wp_setInode]
  refine ⟨h.disk, ?_⟩
  by_cases hip : k = ip
  · subst hip
    rw [withInode_self, (h.old hk).1]
    rfl
  · rw [withInode_ne hip, h.ne hip]

/-! ## Writing an entry -/

/-- There is room for entry `n`. -/
def Fits (sb : Superblock) (s : State) (k : Slot) (n : ℕ) : Prop :=
  DIRENT * n + DIRENT ≤ MAXFILE * BSIZE ∧
    Room sb (sb.abs s.disk) (s.inode k).inum (DIRENT * n + DIRENT)

namespace IsDir

theorem wrote (h : IsDir sb s k) {off tot : ℕ} (hw : Wrote sb k s s' off tot)
    (hoff : off ≤ (s.inode k).din.size.toNat) (hmax : off + tot ≤ MAXFILE * BSIZE)
    (hsize : (s'.inode k).din.size.toNat % DIRENT = 0)
    (hdistinct : Slots.Distinct ((sb.abs s'.disk).slots (s.inode k).inum)) : IsDir sb s' k where
  own := hw.own
  ref := by rw [hw.frame.ref]; exact h.ref
  held := hw.held h.held
  hole := by rw [hw.frame.inum]; exact hw.noHole (by rw [h.held.view]; exact h.hole) hoff hmax
  type := by
    obtain ⟨a, z, hdin⟩ := hw.din
    rw [hdin]
    exact h.type
  size := hsize
  distinct := by rw [hw.frame.inum]; exact hdistinct

theorem writei (hv : sb.Valid) (h : IsDir sb s k) {n : ℕ} {bs : List UInt8} (hbs : bs.length = DIRENT)
    (hn : n ≤ (sb.abs s.disk).nents (s.inode k).inum) :
    wp (Fs.writei sb k (.kernel bs) (DIRENT * n) DIRENT) E s fun r s' =>
      (r = DIRENT ∧ EntryWrite sb k n (Dirent.decode bs) s s' ∧
        (s'.inode k).din.size.toNat = max (s.inode k).din.size.toNat (DIRENT * n + DIRENT) ∧
        Fits sb s k n) ∨
      (r ≠ DIRENT ∧ EntryKeep sb k s s' ∧ ¬ Fits sb s k n) := by
  have hspec := writeDirent_spec (E := E) hv h.own h.held h.hole hbs hn
  have hoff : DIRENT * n ≤ (s.inode k).din.size.toNat := by
    rw [h.size_eq]
    exact Nat.mul_le_mul_left _ hn
  by_cases hmax : DIRENT * n + DIRENT ≤ MAXFILE * BSIZE
  · refine (hspec.and (writei_written hv (by rw [h.held.view]; exact h.own) h.held.type
      h.held.inum_lt (.kernel bs) hoff hmax)).mono ?_
    rintro r s' ⟨hcase, tot, rfl, hw⟩
    rcases hcase with ⟨hr, hwrite⟩ | ⟨hr, hkeep⟩
    · obtain rfl : tot = DIRENT := by exact_mod_cast hr
      refine .inl ⟨hr, hwrite, hw.wrote.size, hmax, ?_⟩
      have hole' := hw.wrote.noHole (by rw [h.held.view]; exact h.hole) hoff hmax
      have hsize : ((sb.abs s'.disk).din (s.inode k).inum).size.toNat =
          max (s.inode k).din.size.toNat (DIRENT * n + DIRENT) := by rw [hw.wrote.sync, hw.wrote.size]
      have hext : Extends sb (sb.abs s.disk) (sb.abs s'.disk) (s.inode k).inum
          (DIRENT * n + DIRENT) := by
        refine ⟨hw.wrote.own, fun x hx => ?_, fun j hj p => ?_, fun p hp => ?_, hw.wrote.used⟩
        · rw [← h.held.view] at hx ⊢
          exact hw.wrote.val x hx
        · rw [hw.wrote.val_ne j hj p, h.held.view]
        · rw [hw.only p hp, h.held.view]
      refine hext.room_of_filled h.own fun p hp => ?_
      exact filled (fun bn hbn => hole' bn (by omega)) hp
    · refine .inr ⟨hr, hkeep, fun hfits => hr ?_⟩
      rw [(hw.complete h.held h.own hfits.2 le_rfl hmax (List.prefix_refl bs) hbs).1]
  · refine hspec.mono ?_
    rintro r s' (⟨hr, hwrite⟩ | ⟨hr, hkeep⟩)
    · -- an entry that has been written lies inside the largest file
      obtain ⟨off, tot, hoff', hmax', hw⟩ := hwrite.wrote
      have hle := (hw.noHole (by rw [h.held.view]; exact h.hole) hoff' hmax').size_le
      have hnents := hwrite.nents
      rw [nents] at hnents
      simp only [DIRENT, MAXFILE, NDIRECT, NINDIRECT, BSIZE] at *
      omega
    · exact .inr ⟨hr, hkeep, fun hfits => hmax hfits.1⟩

section

variable (h : IsDir sb s k) {n : ℕ} {de : Dirent} (hw : EntryWrite sb k n de s s')
  (hsize : (s'.inode k).din.size.toNat = max (s.inode k).din.size.toNat (DIRENT * n + DIRENT))
  (hn : n ≤ (sb.abs s.disk).nents (s.inode k).inum)

include h hw hsize

theorem entryWrite (hdistinct : Slots.Distinct ((sb.abs s'.disk).slots (s.inode k).inum)) :
    IsDir sb s' k := by
  obtain ⟨off, tot, hoff, hmax, hwrote⟩ := hw.wrote
  refine h.wrote hwrote hoff hmax ?_ hdistinct
  have hmul := h.size
  rw [hsize]
  simp only [DIRENT] at *
  omega

include hn

theorem insert {inum : ℕ} (hde : de = ⟨inum, strncpy DIRSIZ nm⟩) (hinum : inum ≠ 0)
    (hfree : (sb.abs s.disk).slots (s.inode k).inum n = none) (hnew : entry sb s k nm = none) :
    IsDir sb s' k ∧ entry sb s' k nm = some (n, inum) ∧
      ∀ nm', namecmp nm' nm ≠ 0 → entry sb s' k nm' = entry sb s k nm' := by
  obtain ⟨off, tot, -, -, hwrote⟩ := hw.wrote
  have hslots := slots_update hw.nents hn hw.self hw.ne
  rw [hde, if_pos hinum, strncpy_strncpy] at hslots
  have hend : ∀ m, (sb.abs s.disk).nents (s.inode k).inum ≤ m →
      (sb.abs s.disk).slots (s.inode k).inum m = none := fun m => slots_of_le
  have hdistinct := Slots.distinct_insert (m := n) h.distinct hend hnew inum
  refine ⟨h.entryWrite hw hsize (by rw [hslots]; exact hdistinct), ?_, fun nm' hne => ?_⟩
  · rw [entry, Store.entry, hwrote.frame.inum, hslots]
    refine Slots.find_insert_self h.distinct hend hnew inum ?_
    rw [hw.nents]
    omega
  · rw [entry, Store.entry, hwrote.frame.inum, hslots]
    refine Slots.find_insert_ne h.distinct hend hfree hnew inum ?_ fun heq => hne ?_
    · rw [hw.nents]
      exact le_max_left ..
    · rw [namecmp, strncmp_eq_zero_iff]
      exact heq

theorem clear {inum : ℕ} (hde : de.inum = 0) (hold : entry sb s k nm = some (n, inum)) :
    IsDir sb s' k ∧ entry sb s' k nm = none ∧
      ∀ nm', namecmp nm' nm ≠ 0 → entry sb s' k nm' = entry sb s k nm' := by
  obtain ⟨off, tot, -, -, hwrote⟩ := hw.wrote
  have hslots := slots_update hw.nents hn hw.self hw.ne
  rw [if_neg (not_not_intro hde)] at hslots
  obtain ⟨hlt, hslot⟩ := Slots.of_find_eq_some hold
  have hnents : (sb.abs s'.disk).nents (s.inode k).inum = (sb.abs s.disk).nents (s.inode k).inum := by
    rw [hw.nents]
    exact max_eq_left hlt
  refine ⟨h.entryWrite hw hsize ?_, ?_, fun nm' hne => ?_⟩
  · rw [hslots]
    exact Slots.distinct_clear h.distinct n
  · rw [entry, Store.entry, hwrote.frame.inum, hslots]
    exact Slots.find_clear_self h.distinct hslot
  · rw [entry, Store.entry, hwrote.frame.inum, hslots, hnents]
    refine Slots.find_clear_ne h.distinct hslot fun heq => hne ?_
    rw [namecmp, strncmp_eq_zero_iff]
    exact heq

end

theorem entryKeep (h : IsDir sb s k) (hw : EntryKeep sb k s s') :
    IsDir sb s' k ∧ ∀ nm, entry sb s' k nm = entry sb s k nm := by
  obtain ⟨off, tot, hoff, hmax, hwrote⟩ := hw.wrote
  have hslots : (sb.abs s'.disk).slots (s.inode k).inum = (sb.abs s.disk).slots (s.inode k).inum := by
    funext m
    by_cases hm : m < (sb.abs s.disk).nents (s.inode k).inum
    · rw [slots, slots, hw.nents, hw.ents m hm]
    · rw [slots_of_le (Nat.not_lt.mp hm), slots_of_le (by rw [hw.nents]; omega)]
  refine ⟨h.wrote hwrote hoff hmax ?_ (by rw [hslots]; exact h.distinct), fun nm => ?_⟩
  · have hsize := hw.size
    rw [hwrote.sync, ← h.held.sync] at hsize
    rw [hsize]
    exact h.size
  · rw [entry, entry, Store.entry, Store.entry, hwrote.frame.inum, hslots, hw.nents]

theorem fits_iff (h : IsDir sb s k) {n : ℕ} (hn : n < (sb.abs s.disk).nents (s.inode k).inum ∧
        ((sb.abs s.disk).dirent (s.inode k).inum n).inum = 0 ∨
      n = (sb.abs s.disk).nents (s.inode k).inum)
    (hused : ∀ j < n, ((sb.abs s.disk).dirent (s.inode k).inum j).inum ≠ 0) :
    ¬ Fits sb s k n ↔ CannotGrow sb s k := by
  have hsize := h.size_eq
  have hle := h.hole.size_le
  rw [← h.held.sync] at hle
  rcases hn with ⟨hlt, h0⟩ | rfl
  · refine iff_of_false (not_not_intro ⟨?_, ?_⟩) fun hgrow => hgrow.1 n hlt h0
    · simp only [DIRENT] at *
      omega
    · refine h.hole.room ?_
      rw [← h.held.sync]
      simp only [DIRENT] at *
      omega
  · unfold Fits CannotGrow
    rw [← hsize, not_and_or, and_iff_right hused]
    refine or_congr_left ?_
    simp only [DIRENT, MAXFILE, NDIRECT, NINDIRECT, BSIZE] at *
    omega

theorem dirlink (hv : sb.Valid) (h : IsDir sb s k) (nm : List UInt8) {inum : ℕ} (hpos : inum ≠ 0)
    (hlt : inum < 65536) : wp (Fs.dirlink sb k nm inum) (NoSlot sb s k nm) s fun r s' =>
      IsDir sb s' k ∧
      ((r = -1 ∧ (entry sb s k nm ≠ none ∨ CannotGrow sb s k) ∧
          ∀ nm', entry sb s' k nm' = entry sb s k nm') ∨
        r = 0 ∧ ¬ (entry sb s k nm ≠ none ∨ CannotGrow sb s k) ∧
          (∃ n, entry sb s' k nm = some (n, inum)) ∧
          ∀ nm', namecmp nm' nm ≠ 0 → entry sb s' k nm' = entry sb s k nm') := by
  have hlen : (Dirent.encode ⟨inum, strncpy DIRSIZ nm⟩).length = DIRENT := by
    simp only [Dirent.encode, length_cons, length_strncpy, DIRSIZ, DIRENT]
  simp only [Fs.dirlink, wp_bind]
  refine (h.dirlookup hv nm).mono ?_
  rintro r s1 (⟨rfl, rfl, hnone⟩ | ⟨ip, n, i, rfl, hsome, hgot⟩)
  · have hloop := dirlinkLoop_first (E := NoSlot sb s1 k nm) hv h.own h.held h.hole
      (fun hne => absurd h.size hne) ((s1.inode k).din.size.toNat / DIRENT + 1) 0 h.size_eq
      (Nat.zero_le _) (by rw [h.size_eq]; simp only [DIRENT]; omega)
    rw [Nat.mul_zero] at hloop
    simp only [wp_bind, wp_get]
    refine hloop.mono ?_
    rintro off s2 ⟨rfl, n, rfl, hn, hused⟩
    have hle : n ≤ (sb.abs s2.disk).nents (s2.inode k).inum := by omega
    have hfits := h.fits_iff hn fun j hj => hused j (Nat.zero_le _) hj
    have hpresent : ¬ entry sb s2 k nm ≠ none := not_not_intro hnone
    refine (h.writei hv hlen hle).mono ?_
    rintro r s' (⟨hr, hwrite, hsize, hfit⟩ | ⟨hr, hkeep, hfit⟩)
    · rw [wp_pure, if_pos hr]
      have hfree : (sb.abs s2.disk).slots (s2.inode k).inum n = none := by
        rcases hn with ⟨-, h0⟩ | rfl
        · exact slots_of_inum h0
        · exact slots_of_le le_rfl
      rw [Dirent.decode_encode, Nat.mod_eq_of_lt hlt] at hwrite
      obtain ⟨hdir, hself, hne⟩ := h.insert hwrite hsize hle rfl hpos hfree hnone
      refine ⟨hdir, .inr ⟨rfl, not_or.mpr ⟨hpresent, fun hgrow => ?_⟩, ⟨n, hself⟩, hne⟩⟩
      exact hfits.mpr hgrow hfit
    · rw [wp_pure, if_neg hr]
      obtain ⟨hdir, hsame⟩ := h.entryKeep hkeep
      exact ⟨hdir, .inl ⟨rfl, .inr (hfits.mp hfit), hsame⟩⟩
  · dsimp only
    rw [wp_bind]
    refine (hgot.iput h.ref).mono ?_
    rintro _ s' ⟨hdisk, hk⟩
    rw [wp_pure]
    refine ⟨h.congr hdisk hk, .inl ⟨rfl, .inl ?_, fun nm' => ?_⟩⟩
    · rw [hsome]
      exact Option.some_ne_none _
    · rw [entry, entry, hdisk, hk]

theorem clearEntry (hv : sb.Valid) (h : IsDir sb s k) {n inum : ℕ}
    (hold : entry sb s k nm = some (n, inum)) :
    wp (Fs.writei sb k (.kernel (replicate DIRENT 0)) (DIRENT * n) DIRENT) E s fun r s' =>
      r = DIRENT ∧ IsDir sb s' k ∧ entry sb s' k nm = none ∧
        ∀ nm', namecmp nm' nm ≠ 0 → entry sb s' k nm' = entry sb s k nm' := by
  obtain ⟨hlt, hslot⟩ := Slots.of_find_eq_some hold
  refine (h.writei hv length_replicate hlt.le).mono ?_
  rintro r s' (⟨hr, hwrite, hsize, -⟩ | ⟨-, -, hfit⟩)
  · exact ⟨hr, h.clear hwrite hsize hlt.le rfl hold⟩
  · -- the entry has its block
    refine absurd ⟨?_, h.hole.room ?_⟩ hfit
    · have hle := h.hole.size_le
      rw [← h.held.sync, h.size_eq] at hle
      simp only [DIRENT] at *
      omega
    · rw [← h.held.sync, h.size_eq]
      simp only [DIRENT] at *
      omega

end IsDir

/-- **A directory is a finite map** from names, compared on their first `DIRSIZ` bytes, to inode numbers.
`dirlookup` yields the inode number of the name and the offset of its entry. `dirlink` fails exactly if the
name is there or the directory has no empty entry and cannot grow; otherwise it adds the name. Clearing the
entry that `dirlookup` reports removes the name. Neither touches the other names, and both leave a
directory. The only panic on the way is that of `iget`, for a name that is there. -/
theorem directory_map (hv : sb.Valid) (h : IsDir sb s k) (nm : List UInt8) :
    wp (dirlookup sb k nm) (NoSlot sb s k nm) s (fun r s' => s'.disk = s.disk ∧
      r.map (fun x => ((s'.inode x.1).inum, x.2)) =
        (entry sb s k nm).map fun x => (x.2, DIRENT * x.1)) ∧
    (∀ inum, 1 ≤ inum → inum ≤ 65535 →
      wp (dirlink sb k nm inum) (NoSlot sb s k nm) s fun r s' => IsDir sb s' k ∧ (r = 0 ∨ r = -1) ∧
        (r = -1 ↔ entry sb s k nm ≠ none ∨ CannotGrow sb s k) ∧
        (r = 0 → (entry sb s' k nm).map Prod.snd = some inum ∧
          ∀ nm', namecmp nm' nm ≠ 0 → entry sb s' k nm' = entry sb s k nm')) ∧
    ∀ n inum, entry sb s k nm = some (n, inum) →
      wp (writei sb k (.kernel (List.replicate DIRENT 0)) (DIRENT * n) DIRENT) (fun _ => False) s
        fun r s' => r = DIRENT ∧ IsDir sb s' k ∧ entry sb s' k nm = none ∧
          ∀ nm', namecmp nm' nm ≠ 0 → entry sb s' k nm' = entry sb s k nm' := by
  refine ⟨(h.dirlookup hv nm).mono ?_, fun inum hpos hlt => ?_, fun n inum hold => ?_⟩
  · rintro r s' (⟨rfl, rfl, hnone⟩ | ⟨ip, n, i, rfl, hsome, hgot⟩)
    · rw [hnone]
      exact ⟨rfl, rfl⟩
    · rw [hsome, Option.map_some, Option.map_some, hgot.inum]
      exact ⟨hgot.disk, rfl⟩
  · refine (h.dirlink hv nm (Nat.one_le_iff_ne_zero.mp hpos) (Nat.lt_succ_of_le hlt)).mono ?_
    rintro r s' ⟨hdir, ⟨rfl, hfail, -⟩ | ⟨rfl, hroom, ⟨n, hself⟩, hne⟩⟩
    · exact ⟨hdir, .inr rfl, iff_of_true rfl hfail, nofun⟩
    · refine ⟨hdir, .inl rfl, iff_of_false (by decide) hroom, fun _ => ⟨?_, hne⟩⟩
      rw [hself]
      rfl
  · exact h.clearEntry hv hold

/-! In the file system of eight blocks. -/

/-- Entries "e", for inode 16, and "f", for inode 17, with an empty one between them. -/
def threeEntries : State :=
  smallState { smallDir 4 with size := 48 } (smallBits 31) fun k =>
    if k = 0 then 16 else if k = 2 then 101 else if k = 32 then 17 else if k = 34 then 102 else 0

example : (threeEntries.inode 0).ref = 1 := by decide +kernel

theorem threeEntries_isDir : IsDir tiny threeEntries 0 := by
  refine ⟨⟨tiny_valid.owns smallPlace (by decide +kernel), by decide +kernel⟩, Nat.one_pos,
    ⟨by decide, by decide +kernel, by decide⟩, by decide +kernel, rfl, rfl, ?_⟩
  have hnents : (tiny.abs threeEntries.disk).nents 1 = 3 := by decide +kernel
  have hdistinct : ∀ m < 3, ∀ m' < 3, (tiny.abs threeEntries.disk).slots 1 m ≠ none →
      ((tiny.abs threeEntries.disk).slots 1 m).map Prod.fst =
        ((tiny.abs threeEntries.disk).slots 1 m').map Prod.fst → m = m' := by decide +kernel
  intro m m' q v v' hm hm'
  have hlt := (Store.slots_eq_some_iff.mp hm).1
  have hlt' := (Store.slots_eq_some_iff.mp hm').1
  change m < nents _ 1 at hlt
  change m' < nents _ 1 at hlt'
  change slots _ 1 m = _ at hm
  change slots _ 1 m' = _ at hm'
  rw [hnents] at hlt hlt'
  exact hdistinct m hlt m' hlt' (by simp [hm]) (by simp [hm, hm'])

/-- "f" is found in the third entry, and "g" is entered for inode 1. -/
theorem directory_map_small :
    wp (dirlookup tiny 0 [102]) (NoSlot tiny threeEntries 0 [102]) threeEntries (fun r s' =>
        r.map (fun x => ((s'.inode x.1).inum, x.2)) = some (17, 32)) ∧
      wp (dirlink tiny 0 [103] 1) (NoSlot tiny threeEntries 0 [103]) threeEntries fun r s' =>
        r = 0 ∧ (entry tiny s' 0 [103]).map Prod.snd = some 1 ∧ entry tiny s' 0 [102] = some (2, 17) := by
  have hf : entry tiny threeEntries 0 [102] = some (2, 17) := by decide +kernel
  have hg : entry tiny threeEntries 0 [103] = none := by decide +kernel
  -- the second entry is empty
  have hgrow : ¬ CannotGrow tiny threeEntries 0 :=
    fun h => h.1 1 (by decide +kernel) (by decide +kernel)
  constructor
  · refine (directory_map tiny_valid threeEntries_isDir [102]).1.mono fun r s' hr => ?_
    rw [hr.2, hf]
    rfl
  · refine ((directory_map tiny_valid threeEntries_isDir [103]).2.1 1 le_rfl (by decide)).mono ?_
    rintro r s' ⟨-, hr, hfail, hok⟩
    have h0 : r = 0 := hr.resolve_right fun h => (hfail.mp h).elim (· hg) hgrow
    refine ⟨h0, (hok h0).1, ?_⟩
    rw [(hok h0).2 [102] (by decide), hf]

/-- The file system ends after `n` blocks; the first data block is 4. -/
def cutOff (n : ℕ) : Superblock := { tiny with size := n }

/-- The directory of one entry, "e", with its inodes in the inode table as `f` has them. -/
def oneEntry (f : Inode → Inode) : State :=
  let s := smallState (smallDir 4) (smallBits 31) smallEntry
  { s with inode := fun k => f (s.inode k) }

/-- A directory in the block of the inodes, with entries up to its own inode. -/
def overInodes : State :=
  let d := { smallDir 2 with size := 64 }
  let bp : Block := fun k => if k % 16 = 0 then 1 else if k % 16 = 2 then UInt8.ofNat k else 0
  { smallState d (smallBits 15) zeroBlock with
    disk := assign (smallState d (smallBits 15) zeroBlock).disk 2 (bp.putDinode 1 d) }

/-- On a full disk, without an empty entry, `dirlink` still succeeds as long as the last block of the
directory has room for an entry. A directory without a block for its entries, on a full disk, makes
`dirlookup` panic. If the block of a directory is also that of its inode, writing the inode overwrites
the entry that `dirlink` has made. If the inode table has another inode than the disk, a name is entered
twice. If the entry of the directory in the table is not in use, `dirlookup` takes it for the inode it
has found, and a new name is not in the directory. If the table is full, `dirlink` of a name that is
there panics. -/
theorem directory_full_disk :
    (Full (cutOff 5) ((cutOff 5).abs (oneEntry id).disk) ∧
      (∀ n < ((cutOff 5).abs (oneEntry id).disk).nents 1,
        (((cutOff 5).abs (oneEntry id).disk).dirent 1 n).inum ≠ 0) ∧
      wp (dirlink (cutOff 5) 0 [102] 1) (fun _ => False) (oneEntry id) fun r _ => r = 0) ∧
    wp (dirlookup (cutOff 4) 0 [102]) (fun e => e = .dirlookupRead)
      (smallState (smallDir 0) (smallBits 15) zeroBlock) (fun _ _ => False) ∧
    wp (dirlink tiny 0 [102] 1) (fun _ => False) overInodes
      (fun r s' => r = 0 ∧ entry tiny s' 0 [102] = none) ∧
    (Own tiny (tiny.abs (oneEntry id).disk) ∧ entry tiny (oneEntry id) 0 [101] = some (0, 16) ∧
      wp (dirlink tiny 0 [101] 1) (fun _ => False)
        (oneEntry fun x => { x with din := { smallDir 0 with size := 0 } }) fun r _ => r = 0) ∧
    wp (do let _ ← dirlookup tiny 0 [101]; dirlink tiny 0 [102] 1) (fun _ => False)
      (oneEntry fun x => { x with ref := 0 })
      (fun r s' => r = 0 ∧ (tiny.abs s'.disk).nents 1 = 1) ∧
    wp (dirlink tiny 0 [101] 1) (fun e => e = .noInodes) (oneEntry fun x => { x with ref := 1 })
      fun _ _ => False := by
  refine ⟨⟨?_, ?_, ?_⟩, ?_, ?_, ⟨⟨tiny_valid.owns smallPlace (by decide +kernel), by decide +kernel⟩,
    ?_, ?_⟩, ?_, ?_⟩
  · change ∀ b < 5, _ = true
    decide +kernel
  all_goals decide +kernel

end Xv6.Fs
