import Xv6.Fs.Rollback
import Mathlib.Algebra.BigOperators.Group.Finset.Piecewise
import Mathlib.Algebra.Order.BigOperators.Group.Finset
import Mathlib.Order.Interval.Finset.Nat

/-!
# Link counts

`nlink` is a `short`. In a file system whose link counts are the numbers of directory entries, a link adds
an entry and one to the count, and `sys_link` has no test for the largest `short`: at 32767 the count wraps
to -32768, and `sys_unlink` of the file panics. From any other count every inode with an entry has a link
after the call, and no `sys_unlink` panics for its count.
-/

namespace Xv6.Fs

open Lib Finset Store

variable {sb : Superblock} {st st' : Store} {s s' : State}

/-! ## Counts and entries -/

/-- `nlink`, as the `short` that it is. -/
def Dinode.links (d : Dinode) : ℤ := d.nlink.toBitVec.toInt

/-- The entries of directory `d` for inode `j`, without the entry "." of a directory itself. -/
def Store.naming (st : Store) (j d : ℕ) : Finset ℕ :=
  {n ∈ Finset.range (st.nents d) | (st.dirent d n).inum ≠ 0 ∧ (st.dirent d n).inum = j ∧
    ¬ (d = j ∧ namecmp (st.dirent d n).name (dirName ".") = 0)}

/-- The number of entries for inode `j`, in all directories. -/
def Store.entries (sb : Superblock) (st : Store) (j : ℕ) : ℕ :=
  ∑ d ∈ Finset.range sb.ninodes with (st.din d).type = T_DIR, (st.naming j d).card

/-- The link count of every inode is the number of its entries. -/
def Consistent (sb : Superblock) (st : Store) : Prop :=
  ∀ j < sb.ninodes, (st.din j).links = st.entries sb j

theorem Dinode.links_eq (d : Dinode) : d.links =
    if d.nlink.toNat < 2 ^ 15 then (d.nlink.toNat : ℤ) else d.nlink.toNat - 2 ^ 16 := by
  rw [Dinode.links, BitVec.toInt_eq_toNat_cond, UInt16.toNat_toBitVec]
  split <;> split <;> omega

theorem Dinode.nlinkLtOne_iff (d : Dinode) : d.nlinkLtOne = true ↔ d.links < 1 := by
  have hlt := d.nlink.toNat_lt
  have hzero : d.nlink = 0 ↔ d.nlink.toNat = 0 := by
    rw [← UInt16.toNat_inj]
    rfl
  rw [Dinode.nlinkLtOne, decide_eq_true_iff, d.links_eq, hzero]
  split <;> omega

theorem Dinode.links_succ (d : Dinode) :
    ({ d with nlink := d.nlink + 1 } : Dinode).links = d.links + 1 ↔ d.links ≠ 32767 := by
  have hlt := d.nlink.toNat_lt
  rw [Dinode.links_eq, Dinode.links_eq, UInt16.toNat_add]
  change (if (d.nlink.toNat + 1) % 2 ^ 16 < 2 ^ 15 then (((d.nlink.toNat + 1) % 2 ^ 16 : ℕ) : ℤ)
    else ((d.nlink.toNat + 1) % 2 ^ 16 : ℕ) - 2 ^ 16) = _ ↔ _
  split <;> split <;> omega

variable {j d n : ℕ}

theorem Store.mem_naming : n ∈ st.naming j d ↔ n < st.nents d ∧
    (st.dirent d n).inum ≠ 0 ∧ (st.dirent d n).inum = j ∧
    ¬ (d = j ∧ namecmp (st.dirent d n).name (dirName ".") = 0) := by
  rw [naming, mem_filter, mem_range]

/-- Every inode with an entry has at least one link. -/
def Counted (sb : Superblock) (st : Store) : Prop :=
  ∀ j < sb.ninodes, 0 < st.entries sb j → 1 ≤ (st.din j).links

theorem Store.entries_pos (hd : d < sb.ninodes) (ht : (st.din d).type = T_DIR)
    (hn : n ∈ st.naming j d) : 0 < st.entries sb j :=
  (card_pos.mpr ⟨n, hn⟩).trans_le <|
    single_le_sum (f := fun d => (st.naming j d).card) (fun _ _ => Nat.zero_le _)
      (mem_filter.mpr ⟨mem_range.mpr hd, ht⟩)

theorem Store.entries_congr {j : ℕ} (ht : ∀ d, (st'.din d).type = (st.din d).type)
    (hn : ∀ d, st'.naming j d = st.naming j d) : st'.entries sb j = st.entries sb j := by
  simp only [entries, ht, hn]

/-! ## A new entry -/

variable {nm : List UInt8}

theorem Entered.naming {d n i j : ℕ} (h : Entered st st' d n ⟨i, nm⟩) (hj : j ≠ i)
    (c : ℕ) : st'.naming j c = st.naming j c := by
  ext m
  rw [mem_naming, mem_naming]
  by_cases hc : c = d
  · have hnents := h.nents
    have hle := h.le
    subst hc
    by_cases hm : m = n
    · subst hm
      rw [h.self]
      exact iff_of_false (fun hmem => hj hmem.2.2.1.symm) fun hmem => hmem.2.1 (h.free hmem.1)
    · by_cases hlt : m < st.nents c
      · rw [h.ne m hlt hm]
        exact and_congr_left fun _ => iff_of_true (by omega) hlt
      · exact iff_of_false (fun hmem => by omega) fun hmem => hlt hmem.1
  · rw [h.nents_ne c hc, h.dirent_ne c hc]

theorem Store.naming_linking (i j d : ℕ) : (st.linking i).naming j d = st.naming j d := by
  have hdirent : ∀ n, (st.linking i).dirent d n = st.dirent d n := fun n =>
    dirent_congr fun o _ => by rw [linking_content]
  ext n
  rw [mem_naming, mem_naming, nents, linking_size, hdirent, nents]

theorem Consistent.link {d n i : ℕ} (h : Consistent sb st)
    (hent : Entered (st.linking i) st' d n ⟨i, nm⟩) (hlinks : 1 ≤ (st'.din i).links) :
    Counted sb st' := by
  intro j hj hpos
  by_cases hji : j = i
  · rwa [hji]
  · have hentries : st'.entries sb j = st.entries sb j := entries_congr
      (fun c => (hent.fields c).1.trans (linking_type st i c))
      fun c => (hent.naming hji c).trans (naming_linking i j c)
    have hdin : (st'.din j).nlink = (st.din j).nlink := by
      rw [(hent.fields j).2, linking, setDin_din_ne hji]
    rw [Dinode.links, hdin]
    change 1 ≤ (st.din j).links
    rw [h j hj, ← hentries]
    omega

/-! ## Unlink -/

theorem Store.Found.mem_naming {d n : ℕ} (h : st.Found d nm n)
    (hdot : namecmp nm (dirName ".") ≠ 0) : n ∈ st.naming (st.dirent d n).inum d := by
  refine Store.mem_naming.mpr ⟨h.1, h.2.1, rfl, fun hself => hdot ?_⟩
  rw [namecmp, strncmp_eq_zero_iff]
  exact ((strncmp_eq_zero_iff _ _ _).mp h.2.2).trans ((strncmp_eq_zero_iff _ _ _).mp hself.2)

theorem Counted.sysUnlink (hv : sb.Valid) (h : Same sb st s 0 s) (hl : Linked st s)
    (hc : Counted sb st) {cwd : Slot} (hcwd : 0 < (s.inode cwd).ref) (path : List UInt8) :
    wp (sysUnlink sb cwd path) (· ≠ .unlinkNlink) s fun _ _ => True := by
  have hno : Err.noType ≠ .unlinkNlink := by decide
  have hE : Tolerant (· ≠ .unlinkNlink) := fun _ _ _ h => h
  have hJ : Closed sb (· ≠ .unlinkNlink) (Same sb st s) := Same.closed_of hv hl hno
  have hholds : ∀ {x : Multiset Slot} {t : State}, Same sb st s x t →
      HoldsWith sb (fun _ => True) x t := fun h' =>
    ⟨⟨h'.inv, fun k => by rw [h'.ref]; omega⟩, trivial⟩
  have hbad : ∀ {dp : Slot} {t : State}, Same sb st s (dp ::ₘ 0) t →
      wp (unlinkBad sb dp) (· ≠ .unlinkNlink) t fun _ _ => True := fun h' =>
    (unlinkBad_holds hv keeps_true hE hno (hholds h')).mono fun _ _ _ => trivial
  simp only [Fs.sysUnlink, nameiparent, wp_bind]
  refine (hJ.namex hE hv h hcwd path true).mono fun r s1 hr => ?_
  rcases r with _ | ⟨dp, nm⟩
  · trivial
  obtain ⟨h1, hdir⟩ := hr.some dp nm rfl
  simp only [wp_bind]
  refine (hJ.ilock hE h1).mono ?_
  rintro _ s2 ⟨h2, hheld, hvalid, -, hs2⟩
  have ht : (s2.inode dp).din.type = T_DIR := by
    rw [hs2, withInode_self]
    exact hdir rfl
  rw [wp_ite]
  refine ⟨fun _ => hbad h2, fun hname => ?_⟩
  rw [wp_bind]
  refine (hJ.dirlookup hE hv h2 (Multiset.mem_cons_self _ _) hvalid ht nm).mono ?_
  rintro r s3 (⟨rfl, rfl, -, -⟩ | ⟨ip, m, rfl, hfound, hgot, h3, hp3⟩)
  · exact hbad h2
  obtain ⟨hdp3, hdi3, hdt3⟩ := hp3 dp (Multiset.mem_cons_self _ _) hvalid
  refine (unlinkFound_holds hv keeps_true hE hno (hholds h3) hdp3 (hdt3.trans ht) ?_ ?_).mono
    fun _ _ _ => trivial
  · rw [hdi3, hgot.disk]
    exact hfound.1.le
  · intro hlt
    have hdt : ((sb.abs s2.disk).din (s2.inode dp).inum).type = T_DIR := by rwa [← hheld.sync]
    have hmem := hfound.mem_naming fun hdot => hname (.inl hdot)
    have hone := hc _ ((h2.inv.dirs _ hdt).ents m hfound.1)
      (by rw [← h2.abs]; exact entries_pos hheld.inum_lt hdt hmem)
    rw [Dinode.nlinkLtOne_iff, hgot.inum, h3.abs, ← h2.abs] at hlt
    rw [← h2.abs] at hone
    omega

/-! ## Link -/

section

variable {cwd : Slot} (hv : sb.Valid) (hino : sb.ninodes ≤ 2 ^ 16) (h : Settled sb s)
  (hl : Linked (sb.abs s.disk) s) (hcwd : 0 < (s.inode cwd).ref) (hc : Consistent sb (sb.abs s.disk))

include hv hino h hl hcwd hc

/-- **Link counts wrap at the largest `short` only.** In a file system with consistent link counts, let
`sys_link` return 0. The new link count of the file that `old` names is the old one plus 1, every inode with
an entry has at least one link, and no `sys_unlink` that follows panics for a link count, if and only if the
old count is not 32767. -/
theorem sysLink_counts_iff {old new : List UInt8} (hrun : (sysLink sb cwd old new).run s = .ok (0, s')) :
    ∃ ip s₁, (namei sb cwd old).run s = .ok (some ip, s₁) ∧
      (((sb.abs s'.disk).din (s₁.inode ip).inum).links =
          ((sb.abs s.disk).din (s₁.inode ip).inum).links + 1 ∧
        (∀ j < sb.ninodes, 0 < (sb.abs s'.disk).entries sb j → 1 ≤ ((sb.abs s'.disk).din j).links) ∧
        (∀ (k : Slot) path, 0 < (s'.inode k).ref →
          (sysUnlink sb k path).run s' ≠ .error .unlinkNlink) ↔
      ((sb.abs s.disk).din (s₁.inode ip).inum).links ≠ 32767) := by
  obtain ⟨ip, s₁, hnamei, hmade⟩ := ((sysLink_outcome hv h hl hcwd old new).of_run_eq_ok hrun).2 rfl
  refine ⟨ip, s₁, hnamei, ?_⟩
  obtain ⟨i, hi⟩ : ∃ i, i = (s₁.inode ip).inum := ⟨_, rfl⟩
  rw [← hi] at hmade ⊢
  have hnonneg : 0 ≤ ((sb.abs s.disk).din i).links := by
    by_cases hlt : i < sb.ninodes
    · rw [hc i hlt]
      omega
    · rw [Superblock.abs_din_of_not_lt _ hlt]
      decide
  have hwrap : ((sb.abs s.disk).din i).nlink + 1 ≠ 0 := by
    intro hwrap
    have hlinks := Dinode.links_eq ((sb.abs s.disk).din i)
    have hlt := ((sb.abs s.disk).din i).nlink.toNat_lt
    have hnat : (((sb.abs s.disk).din i).nlink.toNat + 1) % 2 ^ 16 = 0 := by
      rw [← UInt16.toNat_inj, UInt16.toNat_add] at hwrap
      exact hwrap
    rw [hlinks] at hnonneg
    split at hnonneg <;> omega
  obtain ⟨hlt, -, st', d, n, nm, hent, -, hl', hsame⟩ := hmade hwrap
  have hmod : i % 65536 = i := Nat.mod_eq_of_lt (by omega)
  rw [hmod] at hent
  have hdin : ((sb.abs s'.disk).din i).links =
      ({ (sb.abs s.disk).din i with nlink := ((sb.abs s.disk).din i).nlink + 1 } : Dinode).links := by
    rw [hsame.abs, Dinode.links, (hent.fields i).2, linking, setDin_din_self]
    rfl
  rw [hdin, Dinode.links_succ]
  refine ⟨fun hP => hP.1, fun hne => ⟨hne, ?_⟩⟩
  have hone : 1 ≤ ((sb.abs s'.disk).din i).links := by
    rw [hdin, (Dinode.links_succ _).mpr hne]
    omega
  have hcount : Counted sb (sb.abs s'.disk) := by
    rw [hsame.abs] at hone ⊢
    exact hc.link hent hone
  refine ⟨hcount, fun k path hk herr => ?_⟩
  have hl'' : Linked (sb.abs s'.disk) s' := fun j ht hn => by
    rw [hsame.abs] at ht hn
    obtain ⟨k, hk, hinum⟩ := hl' j ht hn
    exact ⟨k, by rw [hsame.ref]; omega, (hsame.inum k hk).trans hinum⟩
  exact (hcount.sysUnlink hv (.refl hsame.inv) hl'' hk path).of_run_eq_error herr rfl

end

/-! ## A file with 32767 links

Six inodes in 600 blocks: the root directory, the directories "a" and "b" with 17150 and 15616 names for
inode 3, which the root directory names "f", and an empty file "h". -/

/-- A block of directory entries. -/
def entryBlock (f : ℕ → Dirent) : Block := fun k => (f (k / DIRENT)).encode.getD (k % DIRENT) 0

theorem Store.dirent_entryBlock {i n : ℕ} {f : ℕ → Dirent} (hne : st.val (i, filePlace (n / 64)) ≠ 0)
    (hdata : st.data (st.val (i, filePlace (n / 64))) = entryBlock f)
    (hlen : (f (n % 64)).name.length = DIRSIZ) :
    st.dirent i n = ⟨(f (n % 64)).inum % 65536, (f (n % 64)).name⟩ := by
  have hencode : (f (n % 64)).encode.length = DIRENT := by
    simp only [Dirent.encode, List.length_cons, hlen, DIRSIZ, DIRENT]
  have hbytes : st.bytes i (DIRENT * n) DIRENT = (f (n % 64)).encode := by
    refine List.ext_getElem (by rw [length_bytes, hencode]) fun t ht ht' => ?_
    have hlt : t < 16 := by rwa [hencode] at ht'
    have hblk : (DIRENT * n + t) / BSIZE = n / 64 := by
      simp only [DIRENT, BSIZE]
      omega
    have hent : (DIRENT * n + t) % BSIZE / DIRENT = n % 64 := by
      simp only [DIRENT, BSIZE]
      omega
    have hoff : (DIRENT * n + t) % BSIZE % DIRENT = t := by
      simp only [DIRENT, BSIZE]
      omega
    simp only [bytes, List.getElem_map, List.getElem_range, content, hblk]
    rw [if_neg hne, hdata, entryBlock, hent, hoff, List.getD_eq_getElem _ _ ht']
  rw [dirent, hbytes, Dirent.decode_encode]

/-- The words `base`, `base + 1`, … in a block, `n` of them. -/
def wordBlock (base n : ℕ) : Block := fun k =>
  if k / 4 < n then UInt8.ofNat ((base + k / 4) / 256 ^ (k % 4)) else 0

def crowded : Superblock := { tiny with size := 600, nblocks := 596, ninodes := 6 }

/-- Four letters for a number. -/
def crowdName (n : ℕ) : List UInt8 :=
  strncpy DIRSIZ ([n / 4096, n / 256 % 16, n / 16 % 16, n % 16].map fun d => UInt8.ofNat (97 + d))

/-- The entries of the directories "a" and "b". -/
def crowdEntry (i n : ℕ) : Dirent :=
  if n = 0 then ⟨i, strncpy DIRSIZ (dirName ".")⟩
  else if n = 1 then ⟨1, strncpy DIRSIZ (dirName "..")⟩
  else ⟨3, crowdName n⟩

/-- The entries of the root directory. -/
def crowdRoot (n : ℕ) : Dirent :=
  ([(1, "."), (1, ".."), (3, "f"), (2, "a"), (4, "b"), (5, "h")].map fun e : ℕ × String =>
    (⟨e.1, strncpy DIRSIZ (dirName e.2)⟩ : Dirent)).getD n ⟨0, strncpy DIRSIZ []⟩

def crowdRootDir : Dinode :=
  { Dinode.zero with type := T_DIR, nlink := 3, size := 96, addrs := fun j => if j = 0 then 4 else 0 }

/-- A directory with its blocks from `base` on. -/
def crowdDir (ind base size : UInt32) : Dinode :=
  { Dinode.zero with
    type := T_DIR, nlink := 1, size := size
    addrs := fun j => if j = indirect then ind else base + UInt32.ofNat j }

def crowdInodes : Block :=
  ((((zeroBlock.putDinode 1 crowdRootDir).putDinode 2 (crowdDir 5 7 274432)).putDinode 3
    { tinyFile with nlink := 32767 }).putDinode 4 (crowdDir 6 275 249888)).putDinode 5 tinyFile

/-- The blocks of "a" are 7 to 274, those of "b" 275 to 519. -/
def crowdDisk : Disk := fun b =>
  if b = 2 then crowdInodes
  else if b = 3 then fun k => if k < 65 then 255 else 0
  else if b = 4 then entryBlock crowdRoot
  else if b = 5 then wordBlock 19 256
  else if b = 6 then wordBlock 287 233
  else if b < 275 then entryBlock fun m => crowdEntry 2 (64 * (b - 7) + m)
  else if b < 520 then entryBlock fun m => crowdEntry 4 (64 * (b - 275) + m)
  else zeroBlock

/-- The root directory is in use. -/
def crowdState : State where
  disk := crowdDisk
  inode k := if k = 0 then ⟨1, 1, false, true, crowdRootDir⟩ else ⟨0, 0, false, false, .zero⟩
  logged := []

/-- The store of the disk. -/
def crowd : Store := crowded.abs crowdDisk

/-- The place of a block. -/
def crowdPlace (b : ℕ) : ℕ × Place :=
  if b = 4 then (1, .inl 0) else if b = 5 then (2, .inl indirect) else if b = 6 then (4, .inl indirect)
  else if b < 275 then (2, filePlace (b - 7)) else (4, filePlace (b - 275))

theorem crowded_valid : crowded.Valid where
  root := by decide
  inodes i hi := by
    simp only [crowded, tiny, Superblock.iblock, IPB] at *
    omega
  bitmap b hb := by
    simp only [crowded, tiny, Superblock.bblock, Superblock.dataStart, BPB, BSIZE] at *
    omega
  size_lt := by decide

-- "h" has one name
example : (crowd.din 5).links = 1 := by decide +kernel

/-- What is evaluated on this disk. The facts stand in one proof, since the evaluation of each waits for
all that the kernel has still to check. -/
theorem crowd_checked :
    (Places crowded crowdDisk crowdPlace ∧ ∀ b < crowded.dataStart, crowd.used b = true) ∧
    ((∀ bn < 268, crowd.val (2, filePlace bn) = 7 + bn) ∧
      ∀ bn < 245, crowd.val (4, filePlace bn) = 275 + bn) ∧
    ((crowded.abs crowdDisk).Whole ∧ Table crowded crowdState ∧ Linked (crowded.abs crowdDisk) crowdState ∧
      ∀ k, 0 < (crowdState.inode k).ref → (crowd.din (crowdState.inode k).inum).type ≠ 0) ∧
    (crowd.nents 1 = 6 ∧ crowd.nents 2 = 17152 ∧ crowd.nents 4 = 15618) ∧
    ({d ∈ Finset.range crowded.ninodes | (crowd.din d).type = T_DIR} = {1, 2, 4} ∧
      (∀ j < 6, (crowd.naming j 1).card = if j = 0 then 0 else 1) ∧
      ∀ j < 6, (crowd.din j).links =
        ((if j = 0 then 0 else 1) + ((if j = 3 then 17152 - 2 else if j = 1 then 1 else 0) +
          if j = 3 then 15618 - 2 else if j = 1 then 1 else 0) : ℕ)) ∧
    ∀ n < crowd.nents 1, (crowd.dirent 1 n).inum < 6 := by
  refine ⟨⟨?_, ?_⟩, ⟨?_, ?_⟩, ⟨?_, ?_, ?_, ?_⟩, ?_, ⟨?_, ?_, ?_⟩, ?_⟩ <;> decide +kernel

theorem crowd_own : Own crowded crowd :=
  ⟨crowded_valid.owns crowdPlace crowd_checked.1.1, crowd_checked.1.2⟩

theorem length_crowdEntry (i n : ℕ) : (crowdEntry i n).name.length = DIRSIZ := by
  unfold crowdEntry
  split
  · exact length_strncpy ..
  · split
    · exact length_strncpy ..
    · exact length_strncpy ..

theorem crowdEntry_inum {i : ℕ} (hi : i < 6) (n : ℕ) : (crowdEntry i n).inum < 6 := by
  unfold crowdEntry
  split
  · exact hi
  · split
    · exact show 1 < 6 by decide
    · exact show 3 < 6 by decide

theorem crowd_dirent {i n base : ℕ} (hi : i < 6) (hval : crowd.val (i, filePlace (n / 64)) = base + n / 64)
    (hbase : base ≠ 0)
    (hdata : crowd.data (base + n / 64) = entryBlock fun m => crowdEntry i (64 * (n / 64) + m)) :
    crowd.dirent i n = crowdEntry i n := by
  have hn : 64 * (n / 64) + n % 64 = n := by omega
  have hinum := crowdEntry_inum hi n
  have hdirent := dirent_entryBlock (by rw [hval]; omega) ((congrArg _ hval).trans hdata)
    (length_crowdEntry _ _)
  simp only [hn] at hdirent
  rw [hdirent, Nat.mod_eq_of_lt (by omega)]

theorem crowd_data {b : ℕ} (h4 : 4 ≤ b) (h600 : b < 600) : crowd.data b = crowdDisk b := by
  rw [crowd, Superblock.abs]
  exact if_pos (show crowded.IsData b from ⟨h4, h600⟩)

theorem crowd_dirent_two {n : ℕ} (hn : n < 17152) : crowd.dirent 2 n = crowdEntry 2 n := by
  refine crowd_dirent (by decide) (crowd_checked.2.1.1 _ (by omega)) (by decide) ?_
  rw [crowd_data (by omega) (by omega), crowdDisk, if_neg (by omega), if_neg (by omega), if_neg (by omega),
    if_neg (by omega), if_neg (by omega), if_pos (by omega), Nat.add_sub_cancel_left]

theorem crowd_dirent_four {n : ℕ} (hn : n < 15618) : crowd.dirent 4 n = crowdEntry 4 n := by
  refine crowd_dirent (by decide) (crowd_checked.2.1.2 _ (by omega)) (by decide) ?_
  rw [crowd_data (by omega) (by omega), crowdDisk, if_neg (by omega), if_neg (by omega), if_neg (by omega),
    if_neg (by omega), if_neg (by omega), if_neg (by omega), if_pos (by omega), Nat.add_sub_cancel_left]

theorem crowd_nents : crowd.nents 1 = 6 ∧ crowd.nents 2 = 17152 ∧ crowd.nents 4 = 15618 :=
  crowd_checked.2.2.2.1

theorem card_naming {d N : ℕ} (hnents : crowd.nents d = N) (hN : 2 ≤ N)
    (hent : ∀ n < N, crowd.dirent d n = crowdEntry d n) (hd : d ≠ 1) (h3 : d ≠ 3) (j : ℕ) :
    (crowd.naming j d).card = if j = 3 then N - 2 else if j = 1 then 1 else 0 := by
  have hset : crowd.naming j d = if j = 3 then Finset.Ico 2 N else if j = 1 then {1} else ∅ := by
    ext n
    rw [mem_naming, hnents]
    by_cases hn : n < N
    · rw [hent n hn]
      match n with
      | 0 =>
        have hdot : namecmp (strncpy DIRSIZ (dirName ".")) (dirName ".") = 0 := by decide
        refine iff_of_false (fun hmem => hmem.2.2.2 ⟨hmem.2.2.1, hdot⟩) ?_
        split_ifs <;> simp
      | 1 =>
        have hinum : (crowdEntry d 1).inum = 1 := rfl
        rw [hinum]
        split_ifs with hj3 hj1
        · exact iff_of_false (fun hmem => by omega) (by simp)
        · exact iff_of_true ⟨hn, by decide, hj1.symm, fun hself => hd (hself.1.trans hj1)⟩ (by simp)
        · exact iff_of_false (fun hmem => hj1 hmem.2.2.1.symm) (by simp)
      | n + 2 =>
        have hinum : (crowdEntry d (n + 2)).inum = 3 := rfl
        rw [hinum]
        split_ifs with hj3 hj1
        · rw [mem_Ico]
          exact iff_of_true ⟨hn, by decide, hj3.symm, fun hself => h3 (hself.1.trans hj3)⟩ ⟨by omega, hn⟩
        · exact iff_of_false (fun hmem => hj3 hmem.2.2.1.symm) (by simp)
        · exact iff_of_false (fun hmem => hj3 hmem.2.2.1.symm) (by simp)
    · refine iff_of_false (fun hmem => hn hmem.1) ?_
      split_ifs
      · rw [mem_Ico]
        omega
      · rw [mem_singleton]
        omega
      · exact notMem_empty n
  rw [hset]
  split_ifs
  · exact Nat.card_Ico 2 N
  · rfl
  · rfl

theorem crowd_consistent : Consistent crowded crowd := by
  obtain ⟨hdirs, hroot, hlinks⟩ := crowd_checked.2.2.2.2.1
  intro j hj
  rw [entries, hdirs, sum_insert (by decide), sum_insert (by decide), sum_singleton, hroot j hj,
    card_naming crowd_nents.2.1 (by decide) (fun _ => crowd_dirent_two) (by decide) (by decide),
    card_naming crowd_nents.2.2 (by decide) (fun _ => crowd_dirent_four) (by decide) (by decide),
    hlinks j hj]

theorem crowd_inum {d N : ℕ} (hd : d < 6) (hnents : crowd.nents d = N)
    (hent : ∀ n < N, crowd.dirent d n = crowdEntry d n) (n : ℕ) (hn : n < crowd.nents d) :
    (crowd.dirent d n).inum < 6 := by
  rw [hnents] at hn
  rw [hent n hn]
  exact crowdEntry_inum hd n

theorem crowd_settled : Settled crowded crowdState := by
  obtain ⟨hwhole, htable, -, halive⟩ := crowd_checked.2.2.1
  refine ⟨.of_check htable (fun i hi ht => ⟨hwhole i ?_, fun n hn => ?_⟩) crowd_own, hwhole, halive⟩
  · change ((crowded.abs crowdDisk).din i).type = T_DIR at ht
    rw [ht]
    decide
  · have hmem : i ∈ ({1, 2, 4} : Finset ℕ) := by
      rw [← crowd_checked.2.2.2.2.1.1, mem_filter, mem_range]
      exact ⟨hi, ht⟩
    rw [mem_insert, mem_insert, mem_singleton] at hmem
    rcases hmem with rfl | rfl | rfl
    · exact crowd_checked.2.2.2.2.2 n hn
    · exact crowd_inum hi crowd_nents.2.1 (fun _ => crowd_dirent_two) n hn
    · exact crowd_inum hi crowd_nents.2.2 (fun _ => crowd_dirent_four) n hn

theorem crowd_linked : Linked crowd crowdState := crowd_checked.2.2.1.2.2.1

theorem crowd_links : wp (sysLink crowded 0 [104] [103]) (fun _ => False) crowdState
    fun r _ => r = 0 := by
  decide +kernel

/-- A link to "h". -/
theorem sysLink_counts_small : ∃ s', (sysLink crowded 0 [104] [103]).run crowdState = .ok (0, s') ∧
    ∃ ip s₁, (namei crowded 0 [104]).run crowdState = .ok (some ip, s₁) ∧
      (((crowded.abs s'.disk).din (s₁.inode ip).inum).links =
          (crowd.din (s₁.inode ip).inum).links + 1 ∧
        (∀ j < 6, 0 < (crowded.abs s'.disk).entries crowded j →
          1 ≤ ((crowded.abs s'.disk).din j).links) ∧
        (∀ (k : Slot) path, 0 < (s'.inode k).ref →
          (sysUnlink crowded k path).run s' ≠ .error .unlinkNlink) ↔
      (crowd.din (s₁.inode ip).inum).links ≠ 32767) := by
  obtain ⟨r, s', hrun, rfl⟩ := crowd_links.exists_ok
  exact ⟨s', hrun, sysLink_counts_iff crowded_valid (by decide) crowd_settled crowd_linked (by decide)
    crowd_consistent hrun⟩

/-- The link counts are consistent. A link to "f" gives it -32768 links, and the `sys_unlink` of "f" that
follows panics. -/
theorem sysLink_wraps :
    Consistent crowded (crowded.abs crowdState.disk) ∧
    ((crowded.abs crowdState.disk).din 3).links = 32767 ∧
    wp (sysLink crowded 0 [102] [103]) (fun _ => False) crowdState fun r s' => r = 0 ∧
      ((crowded.abs s'.disk).din 3).links = -32768 ∧
      wp (sysUnlink crowded 0 [102]) (· = .unlinkNlink) s' fun _ _ => False := by
  refine ⟨crowd_consistent, ?_, ?_⟩
  · decide +kernel
  · decide +kernel

example : (crowd.din 3).links = 32767 := by decide +kernel

end Xv6.Fs
