import Xv6.Fs.MkfsSpec

/-!
# The kernel reads what mkfs writes

`mkfs` and the kernel are two implementations of one format. On the image of files that fit, `dirlookup`
finds every file by its name, and `readi` returns its bytes. Holes are the exception: `main` rounds the
size of the root directory up to the next block even if its entries fill their blocks exactly.
-/

namespace Xv6.Fs

open Lib List

/-! ## Looking up a name whose entry is before any hole -/

section

variable {sb : Superblock} {E : Err → Prop} {s : State} {k : Slot}

/-- The blocks of the first `m` bytes of inode `i` are there. -/
def Store.Solid (st : Store) (i m : ℕ) : Prop :=
  ∀ o < m, o / BSIZE < MAXFILE ∧ st.val (i, filePlace (o / BSIZE)) ≠ 0

variable (hv : sb.Valid) (hown : Own sb (sb.abs s.disk)) (hk : Held sb s k)

include hv hown hk

theorem readDirent_solid {n : ℕ} (hsize : DIRENT * (n + 1) ≤ (s.inode k).din.size.toNat)
    (hsolid : (sb.abs s.disk).Solid (s.inode k).inum (DIRENT * (n + 1))) (err : Err) :
    wp (readDirent sb k (DIRENT * n) err) E s fun de s' =>
      s' = s ∧ de = (sb.abs s.disk).dirent (s.inode k).inum n := by
  have hlt := (s.inode k).din.size.toNat_lt
  have hend : DIRENT * n + DIRENT ≤ (s.inode k).din.size.toNat := hsize
  have hmin : min DIRENT ((s.inode k).din.size.toNat - DIRENT * n) = DIRENT := by omega
  simp only [readDirent, wp_bind]
  apply (readi_blocks_spec hv (by rwa [hk.view]) hk.type (.kernel []) (by omega) (by omega)
    trivial fun o _ ho _ => ?_).mono
  · rintro _ s' ⟨rfl, rfl⟩
    rw [hk.view, hmin]
    simp only [Dest.put, nil_append, if_true, wp_pure]
    exact ⟨trivial, rfl⟩
  · rw [hk.view]
    exact hsolid o (by rwa [Nat.mul_succ])

variable {Q : Option (Slot × ℕ) → State → Prop} {m : ℕ} {nm : List UInt8}

variable (hsize : DIRENT * (m + 1) ≤ (s.inode k).din.size.toNat)
  (hsolid : (sb.abs s.disk).Solid (s.inode k).inum (DIRENT * (m + 1)))
  (hbefore : ∀ n < m, ¬ (sb.abs s.disk).Found (s.inode k).inum nm n)
  (hfound : (sb.abs s.disk).Found (s.inode k).inum nm m)
  (hQ : wp (iget ((sb.abs s.disk).dirent (s.inode k).inum m).inum) E s fun ip s' =>
    Q (some (ip, DIRENT * m)) s')

include hsize hsolid hbefore hfound hQ

theorem dirlookupLoop_solid (f n : ℕ) (hn : n ≤ m) (hf : m < n + f) :
    wp (dirlookupLoop sb k nm f (DIRENT * n)) E s Q := by
  induction f generalizing n with
  | zero => omega
  | succ f ih =>
    have hle : DIRENT * (n + 1) ≤ DIRENT * (m + 1) := Nat.mul_le_mul_left _ (by omega)
    have hlt : DIRENT * n < (s.inode k).din.size.toNat := by
      rw [Nat.mul_succ] at hle
      have hpos : (0 : ℕ) < DIRENT := by decide
      omega
    simp only [dirlookupLoop, wp_bind, wp_get]
    rw [if_pos hlt, wp_bind]
    apply (readDirent_solid hv hown hk (by omega) (fun o ho => hsolid o (by omega)) _).mono
    rintro de s' ⟨rfl, rfl⟩
    rw [wp_ite]
    have hnents : n < (sb.abs s'.disk).nents (s'.inode k).inum := by
      rw [Store.nents, ← hk.sync]
      simp only [DIRENT] at *
      omega
    by_cases hnm : n = m
    · subst hnm
      refine ⟨fun h0 => absurd h0 hfound.2.1, fun _ => ?_⟩
      rw [if_pos hfound.2.2, wp_bind]
      apply hQ.mono
      intro ip s'' h
      rwa [wp_pure]
    · have hno := hbefore n (by omega)
      have hnext := ih (n + 1) (by omega) (by omega)
      refine ⟨fun _ => hnext, fun h0 => ?_⟩
      rw [if_neg fun hcmp => hno ⟨hnents, h0, hcmp⟩]
      exact hnext

theorem dirlookup_solid (ht : (s.inode k).din.type = T_DIR) : wp (dirlookup sb k nm) E s Q := by
  simp only [dirlookup, wp_bind, wp_get]
  rw [if_pos ht]
  refine dirlookupLoop_solid hv hown hk hsize hsolid hbefore hfound hQ _ 0 (Nat.zero_le _) ?_
  simp only [DIRENT] at *
  omega

end

namespace Mkfs

variable {files : List (List UInt8 × List UInt8)} {img : Image}

/-! ## The files of an image -/

variable {bs : List UInt8} {i : ℕ} {st : Store}

theorem Written.solid (h : Written st i bs) (hmax : bs.length ≤ MAXFILE * BSIZE) :
    st.Solid i bs.length := by
  intro o ho
  have hbn : o / BSIZE < MAXFILE := div_lt_maxfile (by omega)
  have := Nat.div_mul_le_self o BSIZE
  exact ⟨hbn, (h.place _ hbn).mpr (by omega)⟩

variable {n : ℕ}

theorem Written.bytes_eq (h : Written st i bs) (hmax : bs.length ≤ MAXFILE * BSIZE) {off : ℕ}
    (hn : off + n ≤ bs.length) : st.bytes i off n = (bs.drop off).take n := by
  apply ext_getElem
  · rw [Store.length_bytes, length_take, length_drop]
    omega
  · intro j hj _
    rw [Store.length_bytes] at hj
    simp only [Store.bytes, getElem_map, getElem_range, getElem_take, getElem_drop]
    rw [h.content _ (by omega), getD_eq_getElem _ _ (by omega)]

variable {E : Err → Prop} {k : Slot} {s : State}

theorem File.readi_spec {t : UInt16} (hown : Own sb (sb.abs s.disk)) (hk : Held sb s k)
    (h : File (sb.abs s.disk) (s.inode k).inum t bs) (hmax : bs.length ≤ MAXFILE * BSIZE) :
    wp (readi sb k (.kernel []) 0 bs.length) E s fun r s' =>
      s' = s ∧ r = ((bs.length : ℤ), .kernel bs) := by
  have hsize : (s.inode k).din.size.toNat = bs.length := by rw [hk.sync, h.size]
  have hbytes : (sb.abs s.disk).bytes (s.inode k).inum 0 bs.length = (bs.drop 0).take bs.length :=
    h.bytes_eq hmax (by omega)
  have hlt : MAXFILE * BSIZE < 2 ^ 32 := by decide
  apply (readi_blocks_spec sb_valid (by rwa [hk.view]) hk.type (.kernel []) (Nat.zero_le _) (by omega)
    trivial fun o _ ho _ => ?_).mono
  · rintro r s' ⟨hs', rfl⟩
    refine ⟨hs', ?_⟩
    rw [hk.view, hsize, Nat.sub_zero, Nat.min_self, hbytes, drop_zero, take_length]
    rfl
  · rw [hk.view]
    exact h.solid hmax o (by omega)

variable {f : List UInt8 × List UInt8} {j : ℕ}

theorem take_drop_entries {k : ℕ} (hj : files[j]? = some f) :
    ((entries k files).drop (DIRENT * j)).take DIRENT = entry (k + j) (shortname f.1 ++ [0]) := by
  induction files generalizing j k with
  | nil => cases hj
  | cons g files ih =>
    rw [entries]
    cases j with
    | zero =>
      obtain rfl : g = f := by simpa using hj
      rw [Nat.mul_zero, drop_zero, take_left' (length_entry ..)]
      rfl
    | succ j =>
      rw [Nat.mul_succ, Nat.add_comm, ← drop_drop, drop_left' (length_entry ..), ih (by simpa using hj)]
      congr 1
      omega

/-- The name in the directory entry of an argument. -/
def storedName (arg : List UInt8) : List UInt8 := strncpy DIRSIZ (shortname arg ++ [0])

theorem Fits.rootBytes_le (hfit : Fits files) : (rootBytes files).length ≤ MAXFILE * BSIZE := by
  have hinodes := hfit.inodes
  rw [length_rootBytes]
  simp only [NINODES, DIRENT, MAXFILE, NDIRECT, NINDIRECT, BSIZE] at *
  omega

namespace Made

variable (h : Made files img) (hfit : Fits files)

include h hfit

theorem dirent_eq {n inum : ℕ} {name : List UInt8} (hn : n < files.length + 2) (hinum : inum < 65536)
    (hentry : ((rootBytes files).drop (DIRENT * n)).take DIRENT = entry inum name) :
    (sb.abs img.disk).dirent ROOTINO n = ⟨inum, strncpy DIRSIZ name⟩ := by
  have hlen := length_rootBytes files
  rw [Store.dirent, h.root.bytes_eq hfit.rootBytes_le (by simp only [DIRENT] at *; omega), hentry,
    entry, Dirent.decode_encode, Nat.mod_eq_of_lt hinum]

theorem dirent_file {j : ℕ} {f : List UInt8 × List UInt8} (hj : files[j]? = some f) :
    (sb.abs img.disk).dirent ROOTINO (j + 2) = ⟨j + 2, storedName f.1⟩ := by
  obtain ⟨hlt, -⟩ := List.getElem?_eq_some_iff.mp hj
  have hinodes := hfit.inodes
  refine h.dirent_eq hfit (by omega) (by simp only [NINODES] at *; omega) ?_
  have hoff : DIRENT * (j + 2) = DIRENT + (DIRENT + DIRENT * j) := by
    simp only [DIRENT]
    omega
  rw [rootBytes, append_assoc, hoff, ← drop_drop, drop_left' (length_entry ..),
    ← drop_drop, drop_left' (length_entry ..), take_drop_entries hj, Nat.add_comm]

theorem dirent_dot : (sb.abs img.disk).dirent ROOTINO 0 = ⟨ROOTINO, strncpy DIRSIZ (dirName ".")⟩ := by
  refine h.dirent_eq hfit (by omega) (by decide) ?_
  rw [rootBytes, Nat.mul_zero, drop_zero, append_assoc, take_left' (length_entry ..)]

theorem dirent_dots : (sb.abs img.disk).dirent ROOTINO 1 = ⟨ROOTINO, strncpy DIRSIZ (dirName "..")⟩ := by
  refine h.dirent_eq hfit (by omega) (by decide) ?_
  rw [rootBytes, append_assoc, Nat.mul_one, drop_left' (length_entry ..), take_left' (length_entry ..)]

end Made

/-- The stored names are distinct, and none is "." or "..". -/
structure Names (files : List (List UInt8 × List UInt8)) : Prop where
  distinct : (files.map fun f => storedName f.1).Nodup
  dot : ∀ f ∈ files, storedName f.1 ≠ strncpy DIRSIZ (dirName ".")
  dots : ∀ f ∈ files, storedName f.1 ≠ strncpy DIRSIZ (dirName "..")

variable {nm : List UInt8}

theorem Made.not_found (h : Made files img) (hfit : Fits files) (hnames : Names files)
    (hj : files[j]? = some f) (hnm : strncpy DIRSIZ nm = storedName f.1) (hn : n < j + 2) :
    ¬ (sb.abs img.disk).Found ROOTINO nm n := by
  rintro ⟨-, -, hcmp⟩
  have hmem : f ∈ files := mem_of_getElem? hj
  match n, hn with
  | 0, _ =>
    rw [h.dirent_dot hfit, namecmp_strncpy, hnm] at hcmp
    exact hnames.dot f hmem hcmp
  | 1, _ =>
    rw [h.dirent_dots hfit, namecmp_strncpy, hnm] at hcmp
    exact hnames.dots f hmem hcmp
  | n + 2, hn =>
    obtain ⟨hjlt, rfl⟩ := List.getElem?_eq_some_iff.mp hj
    have hnlt : n < files.length := by omega
    rw [h.dirent_file hfit (getElem?_eq_getElem hnlt), storedName, namecmp_strncpy, hnm,
      ← storedName] at hcmp
    have hnodup := nodup_iff_injective_getElem.mp hnames.distinct
    have heq := @hnodup ⟨j, by rwa [length_map]⟩ ⟨n, by rwa [length_map]⟩
      (by simpa only [getElem_map] using hcmp)
    have := congrArg Fin.val heq
    dsimp only at this
    omega

/-- Find a file by its name in directory `k`, and read all of it. -/
def fetch (sb : Superblock) (k : Slot) (name : List UInt8) : M (Option (UInt16 × ℤ × Dest)) := do
  match ← dirlookup sb k name with
  | none => return none
  | some (ip, _) => do
      ilock sb ip
      let din := ((← get).inode ip).din
      let r ← readi sb ip (.kernel []) 0 din.size.toNat
      return some (din.type, r)

theorem fetch_spec (h : Made files img) (hfit : Fits files) (hnames : Names files)
    (hj : files[j]? = some f) (hnm : namecmp nm (storedName f.1) = 0)
    (hs : s.disk = img.disk) (ht : Table sb s) (hk : 0 < (s.inode k).ref)
    (hvalid : (s.inode k).valid = true) (hroot : (s.inode k).inum = ROOTINO)
    (hfree : ∃ m, (s.inode m).ref = 0) (hlock : ∀ m ≠ k, (s.inode m).locked = false) :
    wp (fetch sb k nm) E s fun r s' =>
      r = some (T_FILE, (f.2.length : ℤ), .kernel f.2) ∧ s'.disk = s.disk ∧ s'.logged = s.logged := by
  rw [storedName, namecmp_strncpy, ← storedName] at hnm
  have hheld := ht.held hk hvalid
  obtain ⟨hjlt, -⟩ := List.getElem?_eq_some_iff.mp hj
  have hfile := h.file j f hj
  have hmax := hfit.size f (mem_of_getElem? hj)
  have hlen := length_rootBytes files
  have hdin : (s.inode k).din = (sb.abs img.disk).din ROOTINO := by rw [hheld.sync, hroot, hs]
  have hsolid := h.root.solid hfit.rootBytes_le
  have hent := h.dirent_file hfit hj
  have hle : DIRENT * (j + 2 + 1) ≤ (rootBytes files).length := by
    rw [hlen]
    exact Nat.mul_le_mul_left _ (by omega)
  have hsize : (rootBytes files).length ≤ ((sb.abs img.disk).din ROOTINO).size.toNat := by
    rw [h.rootSize, rootSize]
    simp only [BSIZE]
    omega
  have hnents : j + 2 < (sb.abs img.disk).nents ROOTINO := by
    rw [Store.nents]
    simp only [DIRENT] at *
    omega
  simp only [fetch, wp_bind]
  refine dirlookup_solid sb_valid (by rw [hs]; exact h.own) hheld (m := j + 2)
    (by rw [hdin]; omega) (by rw [hs, hroot]; exact fun o ho => hsolid o (by omega))
    (by rw [hs, hroot]; exact fun n hn => h.not_found hfit hnames hj hnm hn)
    (by
      rw [hs, hroot]
      refine ⟨hnents, by rw [hent]; exact Nat.succ_ne_zero _, ?_⟩
      rw [hent, storedName, namecmp_strncpy]
      exact hnm) ?_ (by rw [hdin]; exact h.rootType)
  rw [hs, hroot, hent]
  apply (iget_got (fun hall => absurd hfree.choose_spec (hall _)) (j + 2)).mono
  rintro ip s1 ⟨hgot, hlocked⟩
  have hip : ip ≠ k := by
    rintro rfl
    have hinum := (hgot.old hk).2
    rw [hroot] at hinum
    simp only [ROOTINO] at hinum
    omega
  have hdisk1 : s1.disk = img.disk := hgot.disk.trans hs
  have hlt : j + 2 < sb.ninodes := by
    have hinodes := hfit.inodes
    change j + 2 < 200
    simp only [NINODES] at hinodes
    omega
  have hfile1 : File (sb.abs s1.disk) (s1.inode ip).inum T_FILE f.2 := by
    rw [hdisk1, hgot.inum]
    exact hfile
  simp only [wp_bind]
  have htable := hgot.table ht hlt
  apply (ilock_free_spec (htable.inum_lt ip hgot.ref_pos) (htable.held hgot.ref_pos) hgot.ref_pos
    (by rw [hlocked]; exact hlock ip hip) (fun h0 => absurd h0 hfile1.type)).mono
  rintro - s2 ⟨htype, rfl⟩
  simp only [wp_get]
  have hheld2 : Held sb (s1.withInode ip (lockedInode sb s1 ip)) ip := by
    refine ⟨?_, ?_, ?_⟩
    · rw [withInode_self]
      exact hgot.inum ▸ hlt
    · rw [withInode_self]
      rfl
    · rw [withInode_self]
      exact htype
  have hdin2 : ((s1.withInode ip (lockedInode sb s1 ip)).inode ip).din =
      (sb.abs s1.disk).din (s1.inode ip).inum := by
    rw [withInode_self]
    rfl
  rw [hdin2, hfile1.size, hfile1.type_eq]
  have hfile2 : File (sb.abs (s1.withInode ip (lockedInode sb s1 ip)).disk)
      ((s1.withInode ip (lockedInode sb s1 ip)).inode ip).inum T_FILE f.2 := by
    rw [withInode_self]
    exact hfile1
  have hown2 : Own sb (sb.abs (s1.withInode ip (lockedInode sb s1 ip)).disk) := by
    rw [withInode_disk, hdisk1]
    exact h.own
  apply (hfile2.readi_spec hown2 hheld2 hmax).mono
  rintro r s3 ⟨rfl, rfl⟩
  simp only [wp_pure]
  refine ⟨trivial, hdisk1, ?_⟩
  rw [hgot.eq]
  rfl

/-! ## The whole image -/

theorem readsb_eq (h : Made files img) : readsb img.disk = (FSMAGIC, sb) := by
  rw [readsb, h.sblock]
  decide +kernel

theorem mkfs_ok (hfit : Fits files) (hslash : ∀ f ∈ files, slash ∉ shortname f.1) :
    ∃ img, mkfs files = .ok img := by
  have hspec := main_spec (E := fun _ => False) (fun ⟨f, hf, hs⟩ => hslash f hf hs) hfit
  obtain ⟨_, img, hrun, -⟩ := hspec.exists_ok
  exact ⟨img, by rw [mkfs, hrun]; rfl⟩

theorem made_of_mkfs (hfit : Fits files) (h : mkfs files = .ok img) : Made files img := by
  have hspec := main_spec (E := fun _ => True) (fun _ => trivial) hfit
  cases hrun : (main files).run .blank with
  | error e =>
    rw [mkfs, hrun] at h
    cases h
  | ok r =>
    rw [mkfs, hrun] at h
    cases h
    exact hspec.of_run_eq_ok hrun

/-- The kernel reads back the image that `mkfs` writes. -/
theorem mkfs_read_back (hfit : Fits files) (hnames : Names files) :
    ((∀ f ∈ files, slash ∉ shortname f.1) → ∃ img, mkfs files = .ok img) ∧
    ∀ img, mkfs files = .ok img →
      readsb img.disk = (FSMAGIC, sb) ∧
      (∀ (j : ℕ) (f : List UInt8 × List UInt8), files[j]? = some f →
        ∀ (nm : List UInt8), namecmp nm (storedName f.1) = 0 →
        ∀ (s : State) (k : Slot), s.disk = img.disk → Table sb s → 0 < (s.inode k).ref →
          (s.inode k).valid = true → (s.inode k).inum = ROOTINO → (∃ m, (s.inode m).ref = 0) →
          (∀ m ≠ k, (s.inode m).locked = false) →
          ∃ s', (fetch sb k nm).run s = .ok (some (T_FILE, (f.2.length : ℤ), .kernel f.2), s') ∧
            s'.disk = s.disk ∧ s'.logged = s.logged) ∧
      (∀ i i' p p', i ≠ i' → (sb.abs img.disk).val (i, p) ≠ 0 →
        (sb.abs img.disk).val (i, p) ≠ (sb.abs img.disk).val (i', p')) ∧
      img.freeblock ≤ FSSIZE ∧ ∀ b, (sb.abs img.disk).used b = decide (b < img.freeblock) := by
  refine ⟨mkfs_ok hfit, fun img himg => ?_⟩
  have h := made_of_mkfs hfit himg
  refine ⟨readsb_eq h, ?_, ?_, h.freeblock, h.used⟩
  · intro j f hj nm hnm s k hs ht hk hvalid hroot hfree hlock
    have hspec := fetch_spec (E := fun _ => False) h hfit hnames hj hnm hs ht hk hvalid hroot hfree hlock
    obtain ⟨r, s', hrun, rfl, hdisk, hlogged⟩ := hspec.exists_ok
    exact ⟨s', hrun, hdisk, hlogged⟩
  · intro i i' p p' hii hne heq
    exact hii (congrArg Prod.fst (h.own.owns.inj _ _ hne heq))

/-- Two small files. -/
def twoFiles : List (List UInt8 × List UInt8) :=
  [((dirName "user/_sh").dropLast, [1, 2, 3]), ((dirName "README").dropLast, [])]

/-- A kernel that has only the root directory in its inode table. -/
def rootState (d : Disk) : State where
  disk := d
  inode k := if k = 0 then ⟨ROOTINO, 1, true, true, (sb.abs d).din ROOTINO⟩ else ⟨0, 0, false, false, .zero⟩
  logged := []

theorem rootState_ne (d : Disk) (hk : k ≠ 0) :
    (rootState d).inode k = ⟨0, 0, false, false, .zero⟩ := if_neg hk

theorem rootState_table (h : Made files img) : Table sb (rootState img.disk) := by
  have hpos : ∀ k, 0 < ((rootState img.disk).inode k).ref → k = 0 := by
    intro k hk
    by_contra hne
    rw [rootState_ne _ hne] at hk
    exact Nat.lt_irrefl 0 hk
  refine ⟨fun j k hj hk _ => (hpos j hj).trans (hpos k hk).symm, fun k hk => ?_, fun k hk _ => ?_,
    fun k hk _ => ?_⟩
  · rw [hpos k hk]
    exact (by decide : (1 : ℕ) < 200)
  · rw [hpos k hk]
    rfl
  · rw [hpos k hk]
    change ((sb.abs img.disk).din ROOTINO).type ≠ 0
    rw [h.rootType]
    decide

theorem twoFiles_fits : Fits twoFiles := ⟨by decide, by decide, by decide +kernel⟩

/-- The shell is found under its short name. -/
theorem mkfs_read_back_sh : Fits twoFiles ∧ Names twoFiles ∧ ∃ img s', mkfs twoFiles = .ok img ∧
    (fetch sb 0 (dirName "sh")).run (rootState img.disk) =
      .ok (some (T_FILE, 3, .kernel [1, 2, 3]), s') := by
  have hnames : Names twoFiles := ⟨by decide, by decide, by decide⟩
  obtain ⟨hok, hread⟩ := mkfs_read_back twoFiles_fits hnames
  obtain ⟨img, himg⟩ := hok (by decide)
  obtain ⟨-, hfetch, -⟩ := hread img himg
  obtain ⟨s', hrun, -⟩ := hfetch 0 _ rfl (dirName "sh") (by decide) (rootState img.disk) 0 rfl
    (rootState_table (made_of_mkfs twoFiles_fits himg)) Nat.one_pos rfl rfl ⟨1, rfl⟩
    (fun m hm => by rw [rootState_ne _ hm])
  exact ⟨twoFiles_fits, hnames, img, s', himg, hrun⟩

/-! ## Holes -/

theorem Made.noHole_file (h : Made files img) (hfit : Fits files) (hi : i ≠ ROOTINO) :
    (sb.abs img.disk).NoHole i := by
  intro bn hbn
  by_cases hfree : i = 0 ∨ files.length + 1 < i
  · rw [h.free i hfree] at hbn
    exact absurd hbn (Nat.not_lt_zero _)
  obtain ⟨j, rfl⟩ : ∃ j, i = j + 2 := ⟨i - 2, by simp only [ROOTINO] at hi; omega⟩
  have hj : j < files.length := by omega
  have hget := getElem?_eq_getElem hj
  have hfile := h.file j _ hget
  have hmax := hfit.size _ (mem_of_getElem? hget)
  rw [hfile.size] at hbn
  have hlt : bn < MAXFILE := by
    simp only [MAXFILE, NDIRECT, NINDIRECT, BSIZE] at *
    omega
  exact ⟨hlt, (hfile.place bn hlt).mpr hbn⟩

theorem Made.noHole_root_iff (h : Made files img) (hfit : Fits files) :
    (sb.abs img.disk).NoHole ROOTINO ↔ (files.length + 2) % (BSIZE / DIRENT) ≠ 0 := by
  have hinodes := hfit.inodes
  have hlen := length_rootBytes files
  have hsize := h.rootSize
  rw [Mkfs.rootSize, hlen] at hsize
  constructor
  · intro hole heq
    obtain ⟨hlt, hne⟩ := hole (DIRENT * (files.length + 2) / BSIZE) (by
      rw [hsize]
      simp only [DIRENT, BSIZE]
      omega)
    have hplace := (h.root.place _ hlt).mp hne
    rw [hlen] at hplace
    simp only [DIRENT, BSIZE] at *
    omega
  · intro hne bn hbn
    rw [hsize] at hbn
    have hlt : bn < MAXFILE := by
      simp only [NINODES, DIRENT, MAXFILE, NDIRECT, NINDIRECT, BSIZE] at *
      omega
    refine ⟨hlt, (h.root.place bn hlt).mpr ?_⟩
    rw [hlen]
    simp only [DIRENT, BSIZE] at *
    omega

/-- There are no holes exactly if the number of directory entries is no multiple of those in a block; then
`readi` leaves the state alone. -/
theorem mkfs_noHole_iff (hfit : Fits files) (h : mkfs files = .ok img) :
    ((∀ i < NINODES, (sb.abs img.disk).NoHole i) ↔ (files.length + 2) % (BSIZE / DIRENT) ≠ 0) ∧
    ((files.length + 2) % (BSIZE / DIRENT) ≠ 0 → ∀ (s : State) (k : Slot), s.disk = img.disk →
      Held sb s k → ReadsContents sb s k) := by
  have hmade := made_of_mkfs hfit h
  have hall : (files.length + 2) % (BSIZE / DIRENT) ≠ 0 → ∀ i, (sb.abs img.disk).NoHole i := by
    intro hne i
    by_cases hi : i = ROOTINO
    · rw [hi]
      exact (hmade.noHole_root_iff hfit).mpr hne
    · exact hmade.noHole_file hfit hi
  refine ⟨⟨fun hole => (hmade.noHole_root_iff hfit).mp (hole ROOTINO (by decide)),
    fun hne i _ => hall hne i⟩, fun hne s k hs hk => ?_⟩
  refine hk.readsContents sb_valid ?_ ?_
  · rw [hs]
    exact hmade.own
  · rw [hs]
    exact hall hne _

theorem mkfs_noHole_twoFiles : Fits twoFiles ∧ ∃ img, mkfs twoFiles = .ok img ∧
    ∀ i < NINODES, (sb.abs img.disk).NoHole i := by
  obtain ⟨img, himg⟩ := mkfs_ok twoFiles_fits (by decide)
  exact ⟨twoFiles_fits, img, himg, (mkfs_noHole_iff twoFiles_fits himg).1.mpr (by decide)⟩

/-- Empty files, which with "." and ".." have a block full of entries. -/
def fullBlock : List (List UInt8 × List UInt8) :=
  (List.range 62).map fun n => ([102, UInt8.ofNat (48 + n)], [])

/-- The root directory of these files has two blocks, of which the second is missing. -/
theorem mkfs_hole_in_root : Fits fullBlock ∧ ∃ img, mkfs fullBlock = .ok img ∧
    ROOTINO < NINODES ∧ 1 * BSIZE < ((sb.abs img.disk).din ROOTINO).size.toNat ∧
    (sb.abs img.disk).val (ROOTINO, filePlace 1) = 0 := by
  have hfit : Fits fullBlock := ⟨by decide, by decide +kernel, by decide +kernel⟩
  obtain ⟨img, himg⟩ := mkfs_ok hfit (by decide +kernel)
  have hmade := made_of_mkfs hfit himg
  have hlen : (rootBytes fullBlock).length = 1024 := length_rootBytes fullBlock
  refine ⟨hfit, img, himg, by decide, ?_, ?_⟩
  · rw [hmade.rootSize, rootSize, hlen]
    decide
  · by_contra hne
    have hplace := (hmade.root.place 1 (by decide)).mp hne
    rw [hlen] at hplace
    exact absurd hplace (by decide)

end Mkfs

end Xv6.Fs
