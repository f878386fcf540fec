import Xv6.Fs.MkfsRead
import Xv6.Fs.WriteResult

/-!
# Files without holes

Every operation keeps the blocks of every file below its size, so `readi`, which runs outside of any
transaction, finds all blocks that it asks `bmap` for: it allocates none and logs none.
-/

namespace Xv6.Fs

open Lib

variable {sb : Superblock} {s s' : State} {k : Slot}

/-- No allocated inode has a hole. -/
def Store.Whole (st : Store) : Prop := ∀ i, (st.din i).type ≠ 0 → st.NoHole i

instance (d : Disk) : Decidable (sb.abs d).Whole :=
  decidable_of_iff (∀ i < sb.ninodes, ((sb.abs d).din i).type ≠ 0 → (sb.abs d).NoHole i)
    ⟨fun h => Superblock.forall_din (φ := fun i e => e.type ≠ 0 → (sb.abs d).NoHole i) h
      fun _ h0 => absurd rfl h0, fun h i _ => h i⟩

theorem Store.NoHole.congr {st st' : Store} {i : ℕ} (h : st.NoHole i)
    (hsize : (st'.din i).size = (st.din i).size)
    (hval : ∀ p, st.val (i, p) ≠ 0 → st'.val (i, p) ≠ 0) : st'.NoHole i := by
  intro bn hbn
  rw [hsize] at hbn
  exact (h bn hbn).imp_right (hval _)

theorem Store.noHole_of_size {st : Store} {i : ℕ} (h : (st.din i).size = 0) : st.NoHole i := by
  intro bn hbn
  rw [h] at hbn
  exact absurd hbn (Nat.not_lt_zero _)

theorem keeps_whole : Keeps sb Store.Whole where
  freed {s s' k} h hf i hi := by
    have hne : i ≠ (s.inode k).inum := by
      rintro rfl
      exact hi hf.type
    have hdin := hf.din_ne i hne
    rw [hdin] at hi
    exact (h i hi).congr (by rw [hdin]) fun p hp => by rwa [hf.val_ne hne]
  wrote {s s' k off tot} h hk hoff hmax hw i hi := by
    by_cases hik : i = (s.inode k).inum
    · subst hik
      refine hw.noHole ?_ hoff hmax
      rw [hk.view]
      exact h _ (by rw [← hk.sync]; exact hk.type)
    · have hdin := hw.frame.din i hik
      rw [hdin] at hi
      refine (h i hi).congr (by rw [hdin]) fun p hp => ?_
      rwa [hw.val_ne i hik, hk.view]
  updated {s s' k d} h hk hu htype hsize haddrs i hi := by
    rw [hk.sync] at htype hsize haddrs
    have hdin : ∀ j, (((sb.abs s.disk).setDin (s.inode k).inum d).din j).type =
          ((sb.abs s.disk).din j).type ∧
        (((sb.abs s.disk).setDin (s.inode k).inum d).din j).size = ((sb.abs s.disk).din j).size := by
      intro j
      by_cases hj : j = (s.inode k).inum
      · subst hj
        rw [Store.setDin_din_self]
        exact ⟨htype, hsize⟩
      · rw [Store.setDin_din_ne hj]
        exact ⟨rfl, rfl⟩
    rw [hu.abs] at hi ⊢
    rw [(hdin i).1] at hi
    exact (h i hi).congr (hdin i).2 fun p hp => by rwa [Store.val_setDin htype haddrs]
  marked {type j s s'} h hm i hi := by
    have hval := Store.val_setDin_empty (d := { Dinode.zero with type := type }) (fun _ => rfl)
      (Store.val_of_free hm.free)
    rw [hm.abs] at hi ⊢
    by_cases hij : i = j
    · subst hij
      refine Store.noHole_of_size ?_
      rw [Store.setDin_din_self]
      rfl
    · rw [Store.setDin_din_ne hij] at hi
      exact (h i hi).congr (by rw [Store.setDin_din_ne hij]) fun p hp => by rwa [hval]
  truncated {s s' k} h hk ht i hi := by
    by_cases hik : i = (s.inode k).inum
    · refine Store.noHole_of_size ?_
      rw [hik, ht.sync, ht.din]
    · have hdin := ht.frame.din i hik
      rw [hdin] at hi
      refine (h i hi).congr (by rw [hdin]) fun p hp => ?_
      rwa [Store.val_congr _ _ hdin (fun _ _ => by rw [ht.data]) p]

/-! ## Reading -/

theorem readiLoop_same {E : Err → Prop} (hv : sb.Valid) (h : Own sb (view sb s k))
    (ht : (s.inode k).din.type ≠ 0) (f tot off n : ℕ) (dst : Dest)
    (hblk : ∀ o, off ≤ o → o < off + (n - tot) →
      o / BSIZE < MAXFILE ∧ (view sb s k).val ((s.inode k).inum, filePlace (o / BSIZE)) ≠ 0) :
    wp (readiLoop sb k f tot off n dst) E s fun _ s' => s' = s := by
  induction f generalizing tot off dst with
  | zero => exact rfl
  | succ f ih =>
    rw [readiLoop]
    by_cases hlt : tot < n
    · obtain ⟨hbn, hne⟩ := hblk off le_rfl (by omega)
      rw [if_pos hlt, wp_bind]
      refine (bmap_spec hv h ht hbn).mono ?_
      rintro addr s' ⟨-, -, -, hsame, -⟩
      obtain ⟨h0, rfl⟩ := hsame hne
      rw [if_neg h0]
      simp only [bread, wp_bind, wp_get, wp_pure]
      rw [wp_ite]
      refine ⟨fun _ => ?_, fun _ => rfl⟩
      exact ih _ _ _ fun o ho hlt => hblk o (by omega) (by omega)
    · rw [if_neg hlt]
      exact rfl

theorem readi_same (hv : sb.Valid) (hown : Own sb (sb.abs s.disk)) (hk : Held sb s k)
    (hole : (sb.abs s.disk).NoHole (s.inode k).inum) (dst : Dest) (off n : ℕ) :
    ∃ r, (readi sb k dst off n).run s = .ok (r, s) := by
  suffices h : wp (readi sb k dst off n) (fun _ => False) s fun _ s' => s' = s by
    obtain ⟨r, s', hrun, rfl⟩ := h.exists_ok
    exact ⟨r, hrun⟩
  simp only [readi, wp_bind, wp_get]
  rw [wp_ite]
  refine ⟨fun _ => rfl, fun hstart => ?_⟩
  refine readiLoop_same hv (by rwa [hk.view]) hk.type _ 0 off _ dst fun o ho hlt => ?_
  rw [hk.view]
  refine hole (o / BSIZE) ?_
  have hdiv := Nat.div_mul_le_self o BSIZE
  rw [← hk.sync]
  split at hlt <;> omega

/-- From a file system with the invariant in which no allocated inode has a hole, every sequence of
operations ends in one in which none has; and there `readi`, on any inode that is in use and with any
arguments, neither allocates nor logs a block. -/
theorem reads_never_allocate (hv : sb.Valid) (h : Inv sb s) (hwhole : (sb.abs s.disk).Whole)
    (ops : List Op) (hrun : (opMachine sb).run s ops = some s') :
    (sb.abs s'.disk).Whole ∧
      ∀ k, Held sb s' k → ∀ dst off n, ∃ r, (readi sb k dst off n).run s' = .ok (r, s') := by
  obtain ⟨hinv, hwhole'⟩ := opMachine_inv hv keeps_whole h hwhole ops hrun
  refine ⟨hwhole', fun k hk dst off n => readi_same hv hinv.own hk ?_ dst off n⟩
  exact hwhole' _ (by rw [← hk.sync]; exact hk.type)

theorem reads_never_allocate_small :
    ∃ s', (opMachine tiny).run (smallState tinyFile (smallBits 15) zeroBlock)
        [.write 0 (.kernel [7]) 0 1, .trunc 0] = some s' ∧ (tiny.abs s'.disk).Whole := by
  have hsome : ((opMachine tiny).run (smallState tinyFile (smallBits 15) zeroBlock)
      [.write 0 (.kernel [7]) 0 1, .trunc 0]).isSome = true := by decide +kernel
  obtain ⟨s', hs'⟩ := Option.isSome_iff_exists.mp hsome
  have hwhole : (tiny.abs (smallState tinyFile (smallBits 15) zeroBlock).disk).Whole := by
    decide +kernel
  exact ⟨s', hs', (reads_never_allocate tiny_valid smallFile_inv hwhole _ hs').1⟩

/-! ## Without ownership -/

/-- Three inodes in eight blocks. -/
def crossed : Superblock := { tiny with ninodes := 3 }

theorem crossed_valid : crossed.Valid where
  root := by decide
  inodes i hi := by
    simp only [crossed, tiny, Superblock.iblock, IPB] at *
    omega
  bitmap := tiny_valid.bitmap
  size_lt := tiny_valid.size_lt

/-- A file of thirteen blocks with its indirect block at 4. -/
def crossedFile : Dinode :=
  { tinyFile with size := 13312, addrs := fun j => if j = indirect then 4 else 5 }

/-- Inodes 1 and 2 are `d` and `e`, the first of which is in use; `bits` is the bit map and `data` the first
data block. -/
def twoInodes (d e : Dinode) (bits data : Block) : State where
  disk := assign (assign (assign (fun _ => zeroBlock) 2 ((zeroBlock.putDinode 1 d).putDinode 2 e)) 3 bits)
    4 data
  inode k := if k = 0 then ⟨1, 1, false, true, d⟩ else ⟨0, 0, false, false, .zero⟩
  logged := []

/-- Inode 1 is empty, and the indirect block of inode 2 is not marked in the bit map. -/
def crossedState : State := twoInodes tinyFile crossedFile (smallBits 47) (smallBits 5)

/-- A directory in block 4 and an empty file, both in use. -/
def besideState : State :=
  let s := twoInodes (smallDir 4) tinyFile (smallBits 31) zeroBlock
  { s with inode := assign s.inode 1 ⟨2, 1, false, true, tinyFile⟩ }

/-- An entry for inode 16 is written to the directory as to a file. Putting that inode, which does not
exist, clears the bit map, and the file then takes the blocks of the super block and of the inodes. -/
def throughEntry : List Op :=
  [.write 0 (.kernel (.ofFn fun j : Fin 16 => smallEntry j)) 0 16, .unlink 0 [101, 47, 120],
    .write 1 (.kernel [7]) 0 1,
    .write 1 (.kernel (List.replicate BSIZE 0 ++ [2, 0, 0, 0, 0, 0, 0, 0, 1])) 0 (BSIZE + 9)]

/-- If blocks are not owned, files do not stay whole: a write to one file takes the indirect block of
another one and clears it. They do not either if directories are written as files are. -/
theorem holes_without_ownership :
    ((crossed.abs crossedState.disk).Whole ∧
      ∃ s' ∈ (opMachine crossed).run crossedState [.write 0 (.kernel [0]) 0 1],
        ((crossed.abs s'.disk).din 2).type ≠ 0 ∧
          12 * BSIZE < ((crossed.abs s'.disk).din 2).size.toNat ∧
          (crossed.abs s'.disk).val (2, filePlace 12) = 0) ∧
    Inv crossed besideState ∧ (crossed.abs besideState.disk).Whole ∧
      ∃ x ∈ ((show M PUnit from throughEntry.forM (·.exec crossed)).run besideState).toOption,
        ((crossed.abs x.2.disk).din 0).type ≠ 0 ∧ ¬ (crossed.abs x.2.disk).NoHole 0 :=
  ⟨⟨by decide +kernel, by decide +kernel⟩,
    .of_check (by decide +kernel) (by decide +kernel)
      ⟨crossed_valid.owns smallPlace (by decide +kernel), by decide +kernel⟩,
    by decide +kernel, by decide +kernel⟩

end Xv6.Fs

/-! ## On an image of mkfs -/

namespace Xv6.Fs.Mkfs

open List

variable {files : List (List UInt8 × List UInt8)} {img : Image} {s s' : State}

theorem Made.eq_root {i : ℕ} (h : Made files img)
    (hi : ((sb.abs img.disk).din i).type = T_DIR) : i = ROOTINO := by
  by_contra hne
  by_cases hfree : i = 0 ∨ files.length + 1 < i
  · rw [h.free i hfree] at hi
    cases hi
  · obtain ⟨j, rfl⟩ : ∃ j, i = j + 2 := ⟨i - 2, by simp only [ROOTINO] at hne; omega⟩
    have hfile := h.file j _ (getElem?_eq_getElem (by omega))
    rw [hfile.type_eq] at hi
    cases hi

section

variable (h : Made files img) (hfit : Fits files)

include h hfit

theorem Made.noHole (hroot : (files.length + 2) % (BSIZE / DIRENT) ≠ 0) (i : ℕ) :
    (sb.abs img.disk).NoHole i := by
  by_cases hi : i = ROOTINO
  · rw [hi]
    exact (h.noHole_root_iff hfit).mpr hroot
  · exact h.noHole_file hfit hi

theorem Made.inum_lt {n : ℕ} (hn : n < (sb.abs img.disk).nents ROOTINO) :
    ((sb.abs img.disk).dirent ROOTINO n).inum < NINODES := by
  have hinodes := hfit.inodes
  by_cases hlt : n < files.length + 2
  · rcases n with _ | _ | n
    · rw [h.dirent_dot hfit]
      decide
    · rw [h.dirent_dots hfit]
      decide
    · rw [h.dirent_file hfit (getElem?_eq_getElem (by omega))]
      change n + 2 < NINODES
      omega
  · -- behind the entries the last block is zero
    have hlen := length_rootBytes files
    rw [Store.nents, h.rootSize, Mkfs.rootSize, hlen] at hn
    simp only [NINODES, DIRENT, BSIZE] at *
    have hzero : ∀ j < 2, (sb.abs img.disk).content ROOTINO (16 * n + j) = 0 := by
      intro j hj
      rw [h.root.content _ (by simp only [MAXFILE, NDIRECT, NINDIRECT, BSIZE]; omega),
        getD_eq_default _ _ (by omega)]
    have h0 := hzero 0 (by omega)
    have h1 := hzero 1 (by omega)
    simp [Store.dirent, Dirent.decode, Store.bytes, DIRENT] at h0 h1 ⊢
    rw [h0, h1]
    decide

end

/-- **What mkfs makes stays sound.** A kernel that starts on an image of `mkfs` whose root directory has
no hole, with any inode table that agrees with the image, and makes any number of operations on files
has one owner for each block in use, no hole in an allocated inode, and no directory entry for an inode
that does not exist. No operation then frees a free block. -/
theorem mkfs_stays_sound (hfit : Fits files) (himg : mkfs files = .ok img)
    (hroot : (files.length + 2) % (BSIZE / DIRENT) ≠ 0) (hs : s.disk = img.disk) (ht : Table sb s)
    (ops : List Op) (hrun : (opMachine sb).run s ops = some s') : Inv sb s' ∧ (sb.abs s'.disk).Whole ∧
      ∀ o : Op, o.Enabled sb s' → (o.exec sb).run s' ≠ .error .freeingFreeBlock := by
  have hmade := made_of_mkfs hfit himg
  have hinv : Inv sb s := by
    refine ⟨ht, hs ▸ hmade.own, fun i hi => ?_⟩
    rw [hs] at hi ⊢
    obtain rfl := hmade.eq_root hi
    exact ⟨hmade.noHole hfit hroot _, fun n hn => hmade.inum_lt hfit hn⟩
  have hwhole : (sb.abs s.disk).Whole := fun i _ => hs ▸ hmade.noHole hfit hroot i
  obtain ⟨hinv, hwhole⟩ := opMachine_inv sb_valid keeps_whole hinv hwhole ops hrun
  refine ⟨hinv, hwhole, fun o ho herr => ?_⟩
  exact (o.exec_inv sb_valid keeps_true hinv trivial ho).of_run_eq_error herr rfl

/-- Inode `i` is in use, and neither locked nor read yet. -/
def unreadState (d : Disk) (i : ℕ) : State where
  disk := d
  inode k := if k = 0 then ⟨i, 1, false, false, .zero⟩ else ⟨0, 0, false, false, .zero⟩
  logged := []

theorem unreadState_table {d : Disk} {i : ℕ} (hi : i < NINODES) : Table sb (unreadState d i) := by
  have hpos : ∀ k, 0 < ((unreadState d i).inode k).ref → k = 0 := by
    intro k hk
    by_contra hne
    simp [unreadState, hne] at hk
  have hnot : ∀ k, ¬ ((unreadState d i).inode k).valid = true := by
    intro k
    rw [unreadState]
    dsimp only
    split <;> exact Bool.false_ne_true
  refine ⟨fun j k hj hk _ => (hpos j hj).trans (hpos k hk).symm, fun k hk => ?_,
    fun k _ hvalid => absurd hvalid (hnot k), fun k _ hvalid => absurd hvalid (hnot k)⟩
  rw [hpos k hk]
  exact hi

/-- A byte is written to the first file of an image with two. -/
theorem mkfs_stays_sound_twoFiles : Fits twoFiles ∧ ∃ img s', mkfs twoFiles = .ok img ∧
    (opMachine sb).run (unreadState img.disk 2) [.write 0 (.user onePage 0) 0 1] = some s' ∧
      Inv sb s' ∧ (sb.abs s'.disk).Whole := by
  obtain ⟨img, himg⟩ := mkfs_ok twoFiles_fits (by decide)
  have hmade := made_of_mkfs twoFiles_fits himg
  have htype : ((sb.abs img.disk).din 2).type = T_FILE := (hmade.file 0 _ rfl).type_eq
  have hne : ∀ t : UInt16, t ≠ T_FILE →
      ((sb.abs (unreadState img.disk 2).disk).din ((unreadState img.disk 2).inode 0).inum).type ≠ t :=
    fun t ht heq => ht (heq.symm.trans htype)
  have husable : Usable sb (unreadState img.disk 2) 0 :=
    ⟨show 2 < 200 by decide, Nat.one_pos, rfl, hne 0 (by decide), nofun, hmade.own,
      hmade.noHole_file twoFiles_fits (show 2 ≠ 1 by decide)⟩
  have hwp : Lib.wp ((Op.write 0 (.user onePage 0) 0 1).exec sb) (fun _ => False)
      (unreadState img.disk 2) fun _ _ => True := by
    have hchunk := husable.writeChunk_spec (E := fun _ => False) (m := onePage) sb_valid 0 0
      (Nat.zero_le _) (show 1 ≤ FileWrite.maxWrite by decide)
    simp only [writeChunk, Op.exec, Lib.wp_bind, Lib.wp_pure] at hchunk ⊢
    exact hchunk.mono fun _ _ h1 => h1.mono fun _ _ h2 => h2.mono fun _ _ _ => trivial
  obtain ⟨_, s', hexec, -⟩ := hwp.exists_ok
  have hrun : (opMachine sb).run (unreadState img.disk 2) [.write 0 (.user onePage 0) 0 1] = some s' := by
    have henabled : (Op.write 0 (.user onePage 0) 0 1).Enabled sb (unreadState img.disk 2) :=
      ⟨Nat.one_pos, hne T_DIR (by decide)⟩
    rw [Lib.Machine.run_cons]
    simp only [opMachine, if_pos henabled, hexec]
    rfl
  obtain ⟨hinv, hwhole, -⟩ := mkfs_stays_sound twoFiles_fits himg (by decide) rfl
    (unreadState_table (by decide)) _ hrun
  exact ⟨twoFiles_fits, img, s', himg, hrun, hinv, hwhole⟩

end Xv6.Fs.Mkfs
