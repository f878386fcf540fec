import Xv6.Fs.Append
import Xv6.Fs.Ownership
import Xv6.Fs.UserWrite

/-!
# The result of `filewrite`

Model of `filewrite` of `kernel/file.c` for a `struct file` of type `FD_INODE`, as one call that runs alone.
It writes its bytes in chunks. If a chunk comes short, the result is -1 although the chunks before it, and
a part of this one, are in the file and the offset has moved. `filewrite_accounts_iff` says for which calls
the result accounts for the effect.
-/

namespace Xv6.Fs

open Lib FileWrite Store Finset

/-! ## The code -/

section

variable (sb : Superblock) (k : Slot) (m : UserMem) (addr n : ℕ)

/-- `begin_op(); ilock(f->ip); r = writei(f->ip, 1, addr + i, f->off, n1); iunlock(f->ip); end_op();` -/
def writeChunk (i off n1 : ℕ) : M ℤ := do
  ilock sb k
  let r ← writei sb k (.user m (addr + i)) off n1
  iunlock k
  return r

/-- The loop of `filewrite` from byte `i` on, with `off` for `f->off`: the bytes written and `f->off`. Every
turn but the last writes at least one byte. -/
def filewriteLoop : ℕ → ℕ → ℕ → M (ℕ × ℕ)
  | 0, i, off => return (i, off)
  | fuel + 1, i, off =>
    if i < n then do
      let n1 := min (n - i) maxWrite
      let r ← writeChunk sb k m addr i off n1
      let off := if (0 : ℤ) < r then (off + r.toNat) % 2 ^ 32 else off
      if r ≠ n1 then return (i, off) else filewriteLoop fuel (i + r.toNat) off
    else return (i, off)

/-- `filewrite(f, addr, n)` for `FD_INODE` and `n >= 0`: the result and `f->off`. -/
def filewrite (f : File) : M (ℤ × ℕ) :=
  if f.writable = false then return (-1, f.off)
  else do
    let r ← filewriteLoop sb f.ip m addr n n 0 f.off
    return (if r.1 = n then (n : ℤ) else -1, r.2)

end

/-! ## Blocks that are added -/

/-- Inode `i` has got blocks for its first `m` bytes, and nobody has lost any. -/
structure Extends (sb : Superblock) (st st' : Store) (i m : ℕ) : Prop where
  own : Own sb st'
  val : ∀ x, st.val x ≠ 0 → st'.val x = st.val x
  val_ne : ∀ j ≠ i, ∀ p, st'.val (j, p) = st.val (j, p)
  only : ∀ p, ¬ Below m p → st'.val (i, p) = st.val (i, p)
  used : ∀ c, st.used c = true → st'.used c = true

namespace Extends

variable {sb : Superblock} {st st' st'' : Store} {i m m' : ℕ}

theorem refl (h : Own sb st) : Extends sb st st i m :=
  ⟨h, fun _ _ => rfl, fun _ _ _ => rfl, fun _ _ => rfl, fun _ h => h⟩

section

variable (h : Extends sb st st' i m)

include h

theorem mono (hm : m ≤ m') : Extends sb st st' i m' :=
  ⟨h.own, h.val, h.val_ne, fun p hp => h.only p fun hb => hp (hb.mono hm), h.used⟩

theorem trans (h' : Extends sb st' st'' i m) : Extends sb st st'' i m where
  own := h'.own
  val x hx := by rw [h'.val x (by rwa [h.val x hx]), h.val x hx]
  val_ne j hj p := by rw [h'.val_ne j hj, h.val_ne j hj]
  only p hp := by rw [h'.only p hp, h.only p hp]
  used c hc := h'.used c (h.used c hc)

theorem room (hown : Own sb st) (hroom : Room sb st i m) : Room sb st' i m :=
  hroom.step hown h.own h.val h.val_ne h.only h.used

theorem room_of_filled (hown : Own sb st)
    (hfilled : ∀ p, Below m' p → st'.val (i, p) ≠ 0) : Room sb st i m' := by
  -- the blocks of the places that were missing are different free blocks
  refine card_le_card_of_injOn (fun p => st'.val (i, p)) (fun p hp => ?_) ?_
  · simp only [missing, coe_filter, mem_univ, true_and, Set.mem_ofPred_eq] at hp
    have hdata := (h.own.owns.owned (i, p) (hfilled p hp.1)).1
    refine mem_coe.mpr (mem_filter.mpr ⟨mem_range.mpr hdata.2, hdata, ?_⟩)
    rw [Bool.eq_false_iff]
    intro hu
    obtain ⟨y, hy⟩ := hown.owns.cover _ hdata hu
    have hy0 : st.val y ≠ 0 := by
      rw [hy]
      exact hfilled p hp.1
    have heq : st'.val y = st'.val (i, p) := (h.val y hy0).trans hy
    obtain rfl : y = (i, p) := h.own.owns.inj y (i, p) (by rw [h.val y hy0]; exact hy0) heq
    exact hy0 hp.2
  · intro p hp q _ heq
    simp only [missing, coe_filter, mem_univ, true_and, Set.mem_ofPred_eq] at hp
    exact (Prod.mk.inj (h.own.owns.inj (i, p) (i, q) (hfilled p hp.1) heq)).2

end

end Extends

/-! ## A chunk -/

/-- Of `len` bytes at `src`, `cnt` were written at offset `off` of inode `i`, and `torn` more are in the
block where a copy failed. -/
structure FileStored (sb : Superblock) (st st' : Store) (i : ℕ) (m : UserMem)
    (src off len cnt torn : ℕ) : Prop where
  le : cnt ≤ len
  first : cnt = 0 ∨ min len (BSIZE - off % BSIZE) ≤ cnt
  fits : 0 < cnt + torn → off + min len maxWrite ≤ MAXFILE * BSIZE
  grow : Extends sb st st' i (off + min len (cnt + 1))
  hole : st'.NoHole i
  size : (st'.din i).size.toNat = max (st.din i).size.toNat (off + cnt)
  torn_lt : 0 < torn → cnt + torn < len ∧ (off + cnt) % BSIZE + torn < BSIZE ∧
    st'.val (i, filePlace ((off + cnt) / BSIZE)) ≠ 0
  mapped : m.Mapped src (cnt + torn)
  cause : cnt < len →
    (torn = 0 ∧ MAXFILE * BSIZE < off + cnt + min (len - cnt) maxWrite) ∨
    (torn = 0 ∧ Full sb st' ∧ st'.val (i, filePlace ((off + cnt) / BSIZE)) = 0) ∨
    m.walkaddr (src + (cnt + torn)) = false
  content : ∀ o < MAXFILE * BSIZE, st'.content i o =
    if off ≤ o ∧ o < off + (cnt + torn) then m.byte (src + (o - off)) else st.content i o

namespace FileStored

variable {sb : Superblock} {st st' st'' : Store} {i : ℕ} {m : UserMem} {src off len cnt torn : ℕ}

theorem zero (hown : Own sb st) (hole : st.NoHole i) (hoff : off ≤ (st.din i).size.toNat)
    (hcause : 0 < len → MAXFILE * BSIZE < off + min len maxWrite) :
    FileStored sb st st i m src off len 0 0 where
  le := Nat.zero_le _
  first := .inl rfl
  fits := nofun
  grow := .refl hown
  hole := hole
  size := by omega
  torn_lt := nofun
  mapped j hj := absurd hj (by omega)
  cause hlt := .inl ⟨rfl, hcause hlt⟩
  content o _ := by rw [if_neg (by omega)]

theorem short {n : ℕ} (hn : n = min len maxWrite) (hlt : cnt < n)
    (h : FileStored sb st st' i m src off n cnt torn) :
    FileStored sb st st' i m src off len cnt torn where
  le := by omega
  first := h.first.imp_right fun hle => by
    have hblock : BSIZE ≤ maxWrite := by decide
    omega
  fits h0 := by
    have := h.fits h0
    omega
  grow := h.grow.mono (by omega)
  hole := h.hole
  size := h.size
  torn_lt h0 := by
    obtain ⟨h1, h2, h3⟩ := h.torn_lt h0
    exact ⟨by omega, h2, h3⟩
  mapped := h.mapped
  cause _ := (h.cause hlt).imp_left fun ⟨h0, hmax⟩ => ⟨h0, by omega⟩
  content := h.content

theorem cons {n : ℕ} (hpos : 0 < n) (hn : n = min len maxWrite)
    (h : FileStored sb st st' i m src off n n 0)
    (h' : FileStored sb st' st'' i m (src + n) (off + n) (len - n) cnt torn) :
    FileStored sb st st'' i m src off len (n + cnt) torn := by
  have hle := h'.le
  have hmax := h.fits (by omega)
  have hblock : BSIZE ≤ maxWrite := by decide
  obtain ⟨-, -, -, hgrow, hole, hsize, htorn, hmap, hcause, hcontent⟩ := h'
  simp only [Nat.add_assoc] at htorn hcause hcontent
  refine ⟨by omega, .inr (by omega), fun _ => by omega, ?_, hole, ?_, fun h0 => ?_, ?_, fun hlt => ?_,
    fun o ho => ?_⟩
  · exact (h.grow.mono (by omega)).trans (hgrow.mono (by omega))
  · rw [hsize, h.size]
    omega
  · obtain ⟨h1, h2, h3⟩ := htorn h0
    exact ⟨by omega, h2, h3⟩
  · rw [Nat.add_assoc]
    exact h.mapped.append hmap
  · rw [Nat.add_assoc n, ← Nat.sub_sub]
    simpa only [Nat.add_assoc] using hcause (by omega)
  · rw [hcontent o ho, h.content o ho]
    by_cases h1 : off + n ≤ o ∧ o < off + (n + (cnt + torn))
    · rw [if_pos h1, if_pos (by omega)]
      congr 1
      omega
    · rw [if_neg h1]
      by_cases h2 : off ≤ o ∧ o < off + n
      · rw [if_pos (by omega), if_pos (by omega)]
      · rw [if_neg (by omega), if_neg (by omega)]

end FileStored

/-- An inode that a file refers to, between two calls. -/
structure Usable (sb : Superblock) (s : State) (k : Slot) : Prop where
  inum_lt : (s.inode k).inum < sb.ninodes
  ref_pos : 0 < (s.inode k).ref
  unlocked : (s.inode k).locked = false
  type : ((sb.abs s.disk).din (s.inode k).inum).type ≠ 0
  held : (s.inode k).valid = true → Held sb s k
  own : Own sb (sb.abs s.disk)
  hole : (sb.abs s.disk).NoHole (s.inode k).inum

section

variable {sb : Superblock} {s : State} {k : Slot} {E : Err → Prop} {m : UserMem}

theorem Usable.wp_writeChunk (h : Usable sb s k) {addr i off n1 : ℕ} {Q : ℤ → State → Prop}
    (hwrite : ∀ s1, s1.disk = s.disk → (s1.inode k).inum = (s.inode k).inum → Held sb s1 k →
      wp (writei sb k (.user m (addr + i)) off n1) E s1 fun r s2 =>
        Held sb s2 k ∧ Own sb (sb.abs s2.disk) ∧ (sb.abs s2.disk).NoHole (s.inode k).inum ∧
        Frame sb k s1 s2 ∧
        ∀ s', s'.disk = s2.disk → (s'.inode k).inum = (s.inode k).inum → Usable sb s' k → Q r s') :
    wp (writeChunk sb k m addr i off n1) E s Q := by
  rw [writeChunk, wp_bind]
  refine (ilock_free_spec h.inum_lt h.held h.ref_pos h.unlocked fun h0 => absurd h0 h.type).mono ?_
  rintro _ _ ⟨-, rfl⟩
  rw [wp_bind]
  refine (hwrite (s.withInode k (lockedInode sb s k)) rfl (by rw [withInode_self]; rfl)
    ⟨?_, ?_, ?_⟩).mono ?_
  · rw [withInode_self]
    exact h.inum_lt
  · rw [withInode_self]
    rfl
  · rw [withInode_self]
    exact h.type
  intro r s2 ⟨hk, hown, hole, hframe, hQ⟩
  have hself := hframe.self
  rw [withInode_self] at hself
  have hinum : (s2.inode k).inum = (s.inode k).inum := by
    rw [hself]
    rfl
  have hlocked : ¬ ((s2.inode k).locked = false ∨ (s2.inode k).ref < 1) := by
    rw [hself]
    exact not_or.mpr ⟨Bool.true_eq_false.mp, Nat.not_lt.mpr h.ref_pos⟩
  simp only [iunlock, wp_bind, wp_get]
  rw [if_neg hlocked]
  simp only [wp_setInode, wp_pure]
  refine hQ _ rfl (by rw [withInode_self, hinum]) ?_
  refine ⟨?_, ?_, ?_, ?_, fun _ => ⟨?_, ?_, ?_⟩, hown, ?_⟩
  · rw [withInode_self]
    exact hk.inum_lt
  · rw [withInode_self, hself]
    exact h.ref_pos
  · rw [withInode_self]
  · rw [withInode_self, withInode_disk]
    change ((sb.abs s2.disk).din (s2.inode k).inum).type ≠ 0
    rw [← hk.sync]
    exact hk.type
  · rw [withInode_self]
    exact hk.inum_lt
  · rw [withInode_self, withInode_disk]
    exact hk.sync
  · rw [withInode_self]
    exact hk.type
  · rw [withInode_self, withInode_disk]
    change (sb.abs s2.disk).NoHole (s2.inode k).inum
    rwa [hinum]

theorem Usable.writeChunk_refused (h : Usable sb s k) {addr i off n1 : ℕ}
    (hno : ((sb.abs s.disk).din (s.inode k).inum).size.toNat < off ∨ MAXFILE * BSIZE < off + n1) :
    wp (writeChunk sb k m addr i off n1) E s fun r s' => r = -1 ∧ s'.disk = s.disk ∧
      (s'.inode k).inum = (s.inode k).inum ∧ Usable sb s' k := by
  refine h.wp_writeChunk fun s1 hdisk hinum hk => ?_
  have hsync := hk.sync
  rw [hdisk, hinum] at hsync
  unfold wp
  rw [writei_refused (by rwa [hsync])]
  refine ⟨hk, by rw [hdisk]; exact h.own, by rw [hdisk]; exact h.hole, .refl _,
    fun s' hdisk' hinum' hu => ⟨rfl, by rw [hdisk', hdisk], hinum', hu⟩⟩

theorem Usable.writeChunk_spec (hv : sb.Valid) (h : Usable sb s k) (addr i : ℕ) {off n1 : ℕ}
    (hoff : off ≤ ((sb.abs s.disk).din (s.inode k).inum).size.toNat) (hn : n1 ≤ maxWrite) :
    wp (writeChunk sb k m addr i off n1) E s fun r s' => Usable sb s' k ∧
      (s'.inode k).inum = (s.inode k).inum ∧ ∃ cnt torn : ℕ, (r = cnt ∨ r = -1 ∧ cnt = 0) ∧
      FileStored sb (sb.abs s.disk) (sb.abs s'.disk) (s.inode k).inum m (addr + i) off n1 cnt torn := by
  by_cases hmax : off + n1 ≤ MAXFILE * BSIZE
  · refine h.wp_writeChunk fun s1 hdisk hinum hk => ?_
    have hview := hk.view
    have hsync := hk.sync
    rw [hdisk] at hview
    rw [hdisk, hinum] at hsync
    refine (writei_user hv (by rw [hview]; exact h.own) hk.type hk.inum_lt m (addr + i)
      (by rwa [hsync]) hmax).mono ?_
    rintro r s2 ⟨tot, torn, rfl, hle, hstop, hwrote, honly, htorn, hmap, hcause, hcontent, -⟩
    rw [hinum] at honly htorn hcause hcontent
    rw [hview] at honly hcontent
    have hole : (sb.abs s2.disk).NoHole (s.inode k).inum := by
      rw [← hinum]
      exact hwrote.noHole (by rw [hview, hinum]; exact h.hole) (by rwa [hsync]) (by omega)
    refine ⟨hwrote.held hk, hwrote.own, hole, hwrote.frame, fun s' hdisk' hinum' hu =>
      ⟨hu, hinum', tot, torn, .inl rfl, ?_⟩⟩
    rw [hdisk']
    have hval := hwrote.val
    have hne := hwrote.val_ne
    have hused := hwrote.used
    rw [hview] at hval hne
    rw [hinum] at hne
    rw [hdisk] at hused
    refine ⟨hle, ?_, fun _ => by omega, ⟨hwrote.own, hval, hne, honly, hused⟩, hole, ?_, htorn, hmap,
      fun hlt => .inr (hcause hlt), hcontent⟩
    · by_cases hlt : tot < n1
      · rcases Nat.eq_zero_or_pos tot with h0 | hpos
        · exact .inl h0
        · have hmod := (hstop hlt).resolve_left (by omega)
          simp only [BSIZE] at *
          omega
      · omega
    · rw [← hinum, hwrote.sync, hwrote.size, hsync, hinum]
  · refine (h.writeChunk_refused (.inr (by omega))).mono ?_
    rintro r s' ⟨rfl, hdisk, hinum, hu⟩
    refine ⟨hu, hinum, 0, 0, .inr ⟨rfl, rfl⟩, ?_⟩
    rw [hdisk]
    refine .zero h.own h.hole hoff fun _ => ?_
    rw [Nat.min_eq_left hn]
    omega

/-! ## The loop -/

theorem filewriteLoop_spec (hv : sb.Valid) (h : Usable sb s k) (addr n fuel i : ℕ) {off : ℕ}
    (hi : i ≤ n) (hfuel : n - i ≤ fuel)
    (hoff : off ≤ ((sb.abs s.disk).din (s.inode k).inum).size.toNat) :
    wp (filewriteLoop sb k m addr n fuel i off) E s fun r s' => ∃ cnt torn,
      FileStored sb (sb.abs s.disk) (sb.abs s'.disk) (s.inode k).inum m (addr + i) off (n - i) cnt torn ∧
      (r.1 = n ↔ cnt = n - i) ∧ r.2 = off + cnt := by
  induction fuel generalizing s i off with
  | zero =>
    rw [filewriteLoop, wp_pure]
    exact ⟨0, 0, .zero h.own h.hole hoff fun hlt => absurd hlt (by omega), by omega, rfl⟩
  | succ fuel ih =>
    rw [filewriteLoop]
    by_cases hlt : i < n
    · have hpos : 0 < maxWrite := by decide
      obtain ⟨n1, hn1⟩ : ∃ n1, n1 = min (n - i) maxWrite := ⟨_, rfl⟩
      simp only [if_pos hlt, wp_bind, ← hn1]
      refine (h.writeChunk_spec hv addr i hoff (by omega)).mono ?_
      rintro r s1 ⟨hu, hinum, cnt, torn, hr, hstored⟩
      have hle := hstored.le
      have hsize := hstored.size
      have hmax : off + cnt ≤ MAXFILE * BSIZE := by
        have := hstored.hole.size_le
        omega
      have hoff' : (if (0 : ℤ) < r then (off + r.toNat) % 2 ^ 32 else off) = off + cnt := by
        rcases hr with rfl | ⟨rfl, rfl⟩
        · rw [Int.toNat_natCast, Nat.mod_eq_of_lt (by
            simp only [MAXFILE, NDIRECT, NINDIRECT, BSIZE] at hmax
            omega)]
          split <;> omega
        · rfl
      rw [hoff']
      by_cases hfull : cnt = n1
      · -- the chunk was written, and the rest follows
        obtain rfl : r = n1 := by omega
        subst hfull
        obtain rfl : torn = 0 := by
          by_contra h0
          have := (hstored.torn_lt (by omega)).1
          omega
        rw [if_neg (by simp), Int.toNat_natCast]
        refine (ih hu (i + cnt) (by omega) (by omega) (by rw [hinum]; omega)).mono ?_
        rintro r' s' ⟨cnt', torn', hrest, hall, hoff''⟩
        rw [hinum, ← Nat.add_assoc, ← Nat.sub_sub] at hrest
        exact ⟨cnt + cnt', torn', hstored.cons (by omega) hn1 hrest, by omega, by omega⟩
      · rw [if_pos (by omega), wp_pure]
        exact ⟨cnt, torn, hstored.short hn1 (by omega), by omega, rfl⟩
    · rw [if_neg hlt, wp_pure]
      exact ⟨0, 0, .zero h.own h.hole hoff fun hlt => absurd hlt (by omega), by omega, rfl⟩

end

/-! ## Results and effects -/

section

variable {sb : Superblock} {st st' : Store} {i : ℕ} {m : UserMem} {src off n cnt torn : ℕ}

/-- What the contents are after a write of `n` bytes is what the result says. -/
def Store.Accounted (st st' : Store) (i : ℕ) (m : UserMem) (src off n : ℕ) (r : ℤ) (off' : ℕ) : Prop :=
  (r = n ∧ off' = off + n ∧ ((st'.contents i).drop off).take n = m.read src n) ∨
    (r = -1 ∧ off' = off ∧ st'.contents i = st.contents i)

/-- Everything is written: the bytes are mapped, and there are blocks for them. -/
def AllWritten (sb : Superblock) (st : Store) (i : ℕ) (m : UserMem) (src off n : ℕ) : Prop :=
  m.Mapped src n ∧ off + n ≤ MAXFILE * BSIZE ∧ Room sb st i (off + n)

/-- Nothing is written: the first chunk is refused, there is no block for its first byte, or a byte for
the first block is not mapped and those before it are in the file already. -/
def NoneWritten (sb : Superblock) (st : Store) (i : ℕ) (m : UserMem) (src off n : ℕ) : Prop :=
  (st.din i).size.toNat < off ∨ MAXFILE * BSIZE < off + min n maxWrite ∨ ¬ Room sb st i (off + 1) ∨
    ∃ u < min n (BSIZE - off % BSIZE), m.Mapped src u ∧ m.walkaddr (src + u) = false ∧
      ∀ j < u, off + j < (st.din i).size.toNat → st.content i (off + j) = m.byte (src + j)

theorem Store.contents_eq_iff : st'.contents i = st.contents i ↔
    (st'.din i).size.toNat = (st.din i).size.toNat ∧
      ∀ o < (st.din i).size.toNat, st'.content i o = st.content i o := by
  refine ⟨fun heq => ?_, fun ⟨hsize, hcontent⟩ => ?_⟩
  · have hsize : (st'.din i).size.toNat = (st.din i).size.toNat := by
      have hlen := congrArg List.length heq
      rwa [contents, contents, length_bytes, length_bytes] at hlen
    refine ⟨hsize, fun o ho => ?_⟩
    rw [contents, contents, hsize, bytes, bytes, List.map_inj_left] at heq
    simpa only [Nat.zero_add] using heq o (List.mem_range.mpr ho)
  · rw [contents, contents, hsize]
    refine bytes_congr fun j hj => ?_
    rw [Nat.zero_add]
    exact hcontent j hj

namespace FileStored

variable (h : FileStored sb st st' i m src off n cnt torn)

include h

theorem filled_first (hpos : 0 < cnt + torn) {p : Place} (hp : Below (off + 1) p) : st'.val (i, p) ≠ 0 := by
  have hsize := h.size
  refine filled (m := off + 1) (fun bn hbn => ?_) hp
  by_cases hlt : bn * BSIZE < (st'.din i).size.toNat
  · exact h.hole bn hlt
  · -- the block of the first byte, behind the end of the file
    obtain rfl : cnt = 0 := by omega
    obtain ⟨hlen, -, hval⟩ := h.torn_lt (by omega)
    have hbn' : bn = (off + 0) / BSIZE := by
      simp only [BSIZE] at *
      omega
    have hmax := h.fits hpos
    have hchunk : 0 < maxWrite := by decide
    rw [hbn']
    exact ⟨div_lt_maxfile (by omega), hval⟩

theorem cnt_eq_of_allWritten (hown : Own sb st) (hall : AllWritten sb st i m src off n) : cnt = n := by
  obtain ⟨hmap, hmax, hroom⟩ := hall
  have hle := h.le
  by_contra hne
  rcases h.cause (by omega) with ⟨-, hbig⟩ | ⟨-, hfull, hzero⟩ | hbad
  · omega
  · have hroom' := (h.grow.mono (by omega)).room hown hroom
    exact hroom'.block_ne_zero hfull (by omega) (by omega) hzero
  · have hlt : cnt + torn < n := by
      rcases Nat.eq_zero_or_pos torn with h0 | hpos
      · omega
      · exact (h.torn_lt hpos).1
    rw [hmap _ hlt] at hbad
    cases hbad

theorem allWritten (hown : Own sb st) (hcnt : cnt = n) : AllWritten sb st i m src off n := by
  have hsize := h.size
  have hmax := h.hole.size_le
  refine ⟨fun j hj => h.mapped j (by omega), by omega, h.grow.room_of_filled hown fun p hp => ?_⟩
  exact filled (fun bn hbn => h.hole bn (by omega)) hp

theorem contents_eq_iff (hole : st.NoHole i) (hoff : off ≤ (st.din i).size.toNat) (hcnt : cnt = 0) :
    st'.contents i = st.contents i ↔
      ∀ j < torn, off + j < (st.din i).size.toNat → st.content i (off + j) = m.byte (src + j) := by
  subst hcnt
  have hmax := hole.size_le
  have hsize : (st'.din i).size.toNat = (st.din i).size.toNat := by
    rw [h.size]
    omega
  rw [Store.contents_eq_iff, and_iff_right hsize]
  refine ⟨fun heq j hj hlt => ?_, fun heq o ho => ?_⟩
  · rw [← heq _ hlt, h.content _ (by omega), if_pos (by omega), Nat.add_sub_cancel_left]
  · rw [h.content o (by omega)]
    by_cases hin : off ≤ o ∧ o < off + (0 + torn)
    · rw [if_pos hin, ← heq (o - off) (by omega) (by omega), Nat.add_sub_cancel' hin.1]
    · rw [if_neg hin]

theorem cnt_eq_zero_of_noneWritten (hown : Own sb st) (hoff : off ≤ (st.din i).size.toNat)
    (hnone : NoneWritten sb st i m src off n) : cnt = 0 ∧ ∀ j < torn, off + j < (st.din i).size.toNat →
      st.content i (off + j) = m.byte (src + j) := by
  have hmod : off % BSIZE < BSIZE := Nat.mod_lt _ (by decide)
  have hle : ∃ u, cnt = 0 ∧ torn ≤ u ∧ ∀ j < u, off + j < (st.din i).size.toNat →
      st.content i (off + j) = m.byte (src + j) := by
    rcases hnone with hbig | hbig | hroom | ⟨u, hu, -, hbad, hsame⟩
    · omega
    · have hfits := h.fits
      exact ⟨0, by omega, by omega, nofun⟩
    · by_cases hpos : 0 < cnt + torn
      · exact absurd (h.grow.room_of_filled hown fun p => h.filled_first hpos) hroom
      · exact ⟨0, by omega, by omega, nofun⟩
    · -- the bytes that were copied are mapped
      have hlt : cnt + torn ≤ u := by
        by_contra hgt
        rw [h.mapped u (by omega)] at hbad
        cases hbad
      exact ⟨u, h.first.resolve_right (by omega), by omega, hsame⟩
  obtain ⟨u, hcnt, htorn, hsame⟩ := hle
  exact ⟨hcnt, fun j hj => hsame j (by omega)⟩

theorem noneWritten (hown : Own sb st) (hpos : 0 < n) (hcnt : cnt = 0)
    (hsame : ∀ j < torn, off + j < (st.din i).size.toNat →
      st.content i (off + j) = m.byte (src + j)) : NoneWritten sb st i m src off n := by
  subst hcnt
  have hmod : off % BSIZE < BSIZE := Nat.mod_lt _ (by decide)
  rcases h.cause hpos with ⟨-, hbig⟩ | ⟨-, hfull, hzero⟩ | hbad
  · exact .inr (.inl (by simpa only [Nat.add_zero, Nat.sub_zero] using hbig))
  · by_cases hmax : MAXFILE * BSIZE < off + min n maxWrite
    · exact .inr (.inl hmax)
    refine .inr (.inr (.inl fun hroom => ?_))
    have hroom' := (h.grow.mono (by omega)).room hown hroom
    have hlt : 0 < maxWrite := by decide
    exact hroom'.block_ne_zero hfull (by omega) (by omega) hzero
  · refine .inr (.inr (.inr ⟨torn, ?_, ?_, ?_, hsame⟩))
    · rcases Nat.eq_zero_or_pos torn with h0 | h0
      · omega
      · obtain ⟨h1, h2, -⟩ := h.torn_lt h0
        rw [Nat.add_zero] at h2
        omega
    · simpa only [Nat.zero_add] using h.mapped
    · simpa only [Nat.zero_add] using hbad

theorem accounted_iff (hown : Own sb st) (hole : st.NoHole i) (hoff : off ≤ (st.din i).size.toNat)
    (hpos : 0 < n) {all : ℕ} (hall : all = n ↔ cnt = n) :
    st.Accounted st' i m src off n (if all = n then (n : ℤ) else -1) (off + cnt) ↔
      AllWritten sb st i m src off n ∨ NoneWritten sb st i m src off n := by
  have hsize := h.size
  by_cases hcnt : cnt = n
  · have hbytes : ((st'.contents i).drop off).take n = m.read src n := by
      have hmax := h.hole.size_le
      rw [contents, drop_bytes, take_bytes, Nat.min_eq_left (by omega), Nat.zero_add]
      refine List.map_congr_left fun j hj => ?_
      have hj' := List.mem_range.mp hj
      rw [h.content _ (by omega), if_pos (by omega), Nat.add_sub_cancel_left]
    rw [if_pos (hall.mpr hcnt)]
    exact iff_of_true (.inl ⟨rfl, by rw [hcnt], hbytes⟩) (.inl (h.allWritten hown hcnt))
  · rw [if_neg fun h' => hcnt (hall.mp h')]
    refine ⟨?_, ?_⟩
    · rintro (⟨hr, -⟩ | ⟨-, hoff', hsame⟩)
      · omega
      · have h0 : cnt = 0 := by omega
        exact .inr (h.noneWritten hown hpos h0 ((h.contents_eq_iff hole hoff h0).mp hsame))
    · rintro (hw | hnone)
      · exact absurd (h.cnt_eq_of_allWritten hown hw) hcnt
      · obtain ⟨h0, hsame⟩ := h.cnt_eq_zero_of_noneWritten hown hoff hnone
        exact .inr ⟨rfl, by rw [h0, Nat.add_zero], (h.contents_eq_iff hole hoff h0).mpr hsame⟩

end FileStored

variable {s : State} {f : File}

/-- **Results of `filewrite`.** The result of a write to an inode accounts for its effect, if and only if
everything is written or nothing. -/
theorem filewrite_accounts_iff (hv : sb.Valid) (h : Usable sb s f.ip) :
    wp (filewrite sb m src n f) (fun _ => False) s (fun r s' =>
        (sb.abs s.disk).Accounted (sb.abs s'.disk) (s.inode f.ip).inum m src f.off n r.1 r.2) ↔
      f.writable = false ∨ n = 0 ∨ AllWritten sb (sb.abs s.disk) (s.inode f.ip).inum m src f.off n ∨
        NoneWritten sb (sb.abs s.disk) (s.inode f.ip).inum m src f.off n := by
  rw [filewrite]
  by_cases hw : f.writable = false
  · rw [if_pos hw, wp_pure]
    exact iff_of_true (.inr ⟨rfl, rfl, rfl⟩) (.inl hw)
  rw [if_neg hw, wp_bind, or_iff_right hw]
  rcases Nat.eq_zero_or_pos n with rfl | hpos
  · rw [filewriteLoop, wp_pure, wp_pure]
    exact iff_of_true (.inl ⟨rfl, rfl, rfl⟩) (.inl rfl)
  rw [or_iff_right (by omega)]
  by_cases hoff : f.off ≤ ((sb.abs s.disk).din (s.inode f.ip).inum).size.toNat
  · have hspec := filewriteLoop_spec (E := fun _ => False) (m := m) hv h src n n 0 (Nat.zero_le _)
      (Nat.sub_le _ _) hoff
    obtain ⟨r, s', hrun, cnt, torn, hstored, hall, hoff'⟩ := hspec.exists_ok
    simp only [Nat.add_zero, Nat.sub_zero] at hstored hall
    rw [← hstored.accounted_iff h.own h.hole hoff hpos hall, ← hoff']
    unfold wp
    rw [hrun]
    rfl
  · -- the first chunk is refused
    obtain ⟨n', rfl⟩ : ∃ n', n = n' + 1 := ⟨n - 1, by omega⟩
    refine iff_of_true ?_ (.inr (.inl (by omega)))
    rw [filewriteLoop, if_pos hpos]
    simp only [wp_bind]
    refine (h.writeChunk_refused (.inl (by omega))).mono ?_
    rintro r s' ⟨rfl, hdisk, -, -⟩
    have hshort : (-1 : ℤ) ≠ (min (n' + 1 - 0) maxWrite : ℕ) := by omega
    rw [if_pos hshort, wp_pure, wp_pure]
    exact .inr ⟨rfl, rfl, by rw [hdisk]⟩

end

/-! A file of one block, the first inode of the file system of eight blocks. -/

/-- A file of `z` bytes in block 4. -/
def oneBlock (z : UInt32) : Dinode :=
  { tinyFile with size := z, addrs := fun j => if j = 0 then 4 else 0 }

/-- A process with one page, of ones. -/
def onePage : UserMem where
  user p := p = 0
  byte _ := 1

theorem oneBlock_usable {z : UInt32}
    (hsync : (tiny.abs (smallState (oneBlock z) (smallBits 31) zeroBlock).disk).din 1 = oneBlock z)
    (hown : Own tiny (tiny.abs (smallState (oneBlock z) (smallBits 31) zeroBlock).disk))
    (hole : (tiny.abs (smallState (oneBlock z) (smallBits 31) zeroBlock).disk).NoHole 1) :
    Usable tiny (smallState (oneBlock z) (smallBits 31) zeroBlock) 0 where
  inum_lt := show 1 < 2 by decide
  ref_pos := Nat.one_pos
  unlocked := rfl
  type := ne_of_eq_of_ne (congrArg Dinode.type hsync) (show tinyFile.type ≠ 0 by decide)
  held _ := ⟨show 1 < 2 by decide, hsync.symm, show tinyFile.type ≠ 0 by decide⟩
  own := hown
  hole := hole

/-- It is open for writing. -/
def oneBlockFile (off : ℕ) : File := ⟨.inode, 1, true, true, 0, 0, off, 0⟩

/-- One byte from the process's page is written over the first byte. -/
theorem filewrite_accounts_small :
    Usable tiny (smallState (oneBlock 2) (smallBits 31) zeroBlock) 0 ∧
    wp (filewrite tiny onePage 0 1 (oneBlockFile 0)) (fun _ => False)
      (smallState (oneBlock 2) (smallBits 31) zeroBlock) fun r s' =>
        (tiny.abs (smallState (oneBlock 2) (smallBits 31) zeroBlock).disk).Accounted
          (tiny.abs s'.disk) 1 onePage 0 0 1 r.1 r.2 := by
  have husable := oneBlock_usable (z := 2) (by decide +kernel)
    ⟨tiny_valid.owns smallPlace (by decide +kernel), by decide +kernel⟩ (by decide +kernel)
  refine ⟨husable, (filewrite_accounts_iff tiny_valid husable).mpr (.inr (.inr (.inl ⟨?_, ?_, ?_⟩)))⟩
  · decide
  · decide
  · decide +kernel

/-- At the end of a file of 1023 bytes, two bytes are to be written, the second of which is not mapped. The
result is -1, but the first byte is in the file, and the offset is behind it. -/
theorem filewrite_loses_count :
    Usable tiny (smallState (oneBlock 1023) (smallBits 31) zeroBlock) 0 ∧
    wp (filewrite tiny onePage 4095 2 (oneBlockFile 1023)) (fun _ => False)
      (smallState (oneBlock 1023) (smallBits 31) zeroBlock) fun r s' => r = (-1, 1024) ∧
        ((tiny.abs (smallState (oneBlock 1023) (smallBits 31) zeroBlock).disk).din 1).size = 1023 ∧
        ((tiny.abs s'.disk).din 1).size = 1024 ∧ (tiny.abs s'.disk).content 1 1023 = 1 :=
  ⟨oneBlock_usable (by decide +kernel) ⟨tiny_valid.owns smallPlace (by decide +kernel), by decide +kernel⟩
    (by decide +kernel), by decide +kernel⟩

end Xv6.Fs
