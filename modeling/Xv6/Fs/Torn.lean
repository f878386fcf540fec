import Xv6.Fs.WriteResult

/-!
# Writes that are cut short

A write that ends because a page of the source is missing must leave the file behind its end alone, and the
buffers that it changed must be logged. `writei` copies straight into the buffer of the block, and `copyin`
copies page by page; if a copy fails after a page, the bytes of that page are in the buffer, but they are
neither counted nor logged. `writei_leaves_rest_iff` says for which writes this does no harm.
-/

namespace Xv6.Fs

open Lib

variable {sb : Superblock} {s : State} {k : Slot}

theorem Held.size_le (hk : Held sb s k) (hole : (sb.abs s.disk).NoHole (s.inode k).inum) :
    (s.inode k).din.size.toNat ≤ MAXFILE * BSIZE := by
  rw [hk.sync]
  exact hole.size_le

theorem readi_byte_iff (hv : sb.Valid) (hown : Own sb (sb.abs s.disk)) (hk : Held sb s k)
    (hole : (sb.abs s.disk).NoHole (s.inode k).inum) (o : ℕ) (c : UInt8) :
    (readi sb k (.kernel []) o 1).run s = .ok ((1, .kernel [c]), s) ↔
      o < (s.inode k).din.size.toNat ∧ (sb.abs s.disk).content (s.inode k).inum o = c := by
  have hsize := hk.size_le hole
  by_cases ho : o ≤ (s.inode k).din.size.toNat
  · have hread := hk.readsContents hv hown hole (.kernel []) o 1 ho
      (by simp only [MAXFILE, NDIRECT, NINDIRECT, BSIZE] at hsize; omega) trivial
    rw [hread, Store.contents, Store.drop_bytes, Store.take_bytes, ← hk.sync, Nat.zero_add]
    by_cases hlt : o < (s.inode k).din.size.toNat
    · have hmin : min 1 ((s.inode k).din.size.toNat - o) = 1 := by omega
      rw [hmin]
      have hbytes : (sb.abs s.disk).bytes (s.inode k).inum o 1 =
          [(sb.abs s.disk).content (s.inode k).inum o] := rfl
      rw [hbytes]
      constructor
      · intro h
        obtain ⟨hr, -⟩ := Prod.mk.inj (Except.ok.inj h)
        exact ⟨hlt, (List.cons.inj (Dest.kernel.inj (Prod.mk.inj hr).2)).1⟩
      · rintro ⟨-, rfl⟩
        rfl
    · have hmin : min 1 ((s.inode k).din.size.toNat - o) = 0 := by omega
      rw [hmin]
      refine iff_of_false (fun h => ?_) fun h => hlt h.1
      exact absurd (Prod.mk.inj (Prod.mk.inj (Except.ok.inj h)).1).1 (by decide)
  · have hrun : (readi sb k (.kernel []) o 1).run s = .ok ((0, .kernel []), s) := by
      have hlt : (s.inode k).din.size.toNat < o ∨ (o + 1) % 2 ^ 32 < o := .inl (by omega)
      change ((if (s.inode k).din.size.toNat < o ∨ (o + 1) % 2 ^ 32 < o then pure (0, .kernel [])
        else _ : M (ℤ × Dest)).run s) = _
      rw [if_pos hlt]
      rfl
    rw [hrun]
    refine iff_of_false (fun h => ?_) fun h => ho h.1.le
    exact absurd (Prod.mk.inj (Prod.mk.inj (Except.ok.inj h)).1).1 (by decide)

/-- Between `s` and `s'` the bytes of the file from `e` on stay, and every buffer that differs from the
disk `d` is logged. -/
structure RestKept (sb : Superblock) (k : Slot) (e : ℕ) (s s' : State) : Prop where
  reads : ∀ o c, e ≤ o → (readi sb k (.kernel []) o 1).run s = .ok ((1, .kernel [c]), s) →
    (readi sb k (.kernel []) o 1).run s' = .ok ((1, .kernel [c]), s')
  logs : ∀ d : Disk, (∀ b, s.disk b ≠ d b → b ∈ s.logged) → ∀ b, s'.disk b ≠ d b → b ∈ s'.logged

/-- A write of `n` bytes at `src` to offset `off` that is cut short leaves the file behind its end alone,
and the buffers that it changed are logged. -/
def LeavesRest (sb : Superblock) (s : State) (k : Slot) (m : UserMem) (src off n : ℕ) : Prop :=
  wp (writei sb k (.user m src) off n) (fun _ => False) s fun r s' => r < n →
    RestKept sb k (off + r.toNat) s s'

/-- If the disk has blocks up to the first byte `u` that is not mapped, the bytes before it in its block are
in the file already; or else they are behind its end, in a block that is new or logged already. -/
def NotTorn (sb : Superblock) (s : State) (k : Slot) (m : UserMem) (src off n : ℕ) : Prop :=
  ∀ u < n, m.Mapped src u → m.walkaddr (src + u) = false →
    Room sb (sb.abs s.disk) (s.inode k).inum (off + u) → ∀ j < u, (off + j) / BSIZE = (off + u) / BSIZE →
    (sb.abs s.disk).content (s.inode k).inum (off + j) ≠ m.byte (src + j) →
      (s.inode k).din.size.toNat ≤ off + j ∧
      ((sb.abs s.disk).val ((s.inode k).inum, filePlace ((off + u) / BSIZE)) = 0 ∨
        (sb.abs s.disk).val ((s.inode k).inum, filePlace ((off + u) / BSIZE)) ∈ s.logged)

theorem content_eq_disk {i o bn : ℕ} (h : Own sb (sb.abs s.disk)) (ho : o / BSIZE = bn)
    (hne : (sb.abs s.disk).val (i, filePlace bn) ≠ 0) :
    (sb.abs s.disk).content i o = s.disk ((sb.abs s.disk).val (i, filePlace bn)) (o % BSIZE) := by
  subst ho
  rw [Store.content, if_neg hne]
  exact congrFun (if_pos (h.isData_val hne)) _

namespace UserWritten

variable {m : UserMem} {src off n tot torn u j : ℕ} {s' : State}

section

variable (h : UserWritten sb k m src off n tot torn s s') (hk : Held sb s k)

include h hk

theorem grow : Extends sb (sb.abs s.disk) (sb.abs s'.disk) (s.inode k).inum (off + min n (tot + 1)) := by
  have hval := h.wrote.val
  have hne := h.wrote.val_ne
  have honly := h.only
  rw [hk.view] at hval hne honly
  exact ⟨h.wrote.own, hval, hne, honly, h.wrote.used⟩

/-- Where the write is cut short inside a block. -/
theorem cut (hown : Own sb (sb.abs s.disk)) (hmax : off + n ≤ MAXFILE * BSIZE) (hu : u < n)
    (hmap : m.Mapped src u) (hbad : m.walkaddr (src + u) = false)
    (hroom : Room sb (sb.abs s.disk) (s.inode k).inum (off + u)) (hj : j < u)
    (hblock : (off + j) / BSIZE = (off + u) / BSIZE) :
    tot + torn = u ∧ 0 < torn ∧ (off + tot) / BSIZE = (off + u) / BSIZE ∧ tot ≤ j := by
  have hle : tot + torn ≤ u := by
    by_contra hgt
    rw [h.mapped u (by omega)] at hbad
    cases hbad
  have hstop := h.stop (by omega)
  have hlt : tot < u := by
    simp only [BSIZE] at *
    omega
  have hstop' : m.walkaddr (src + (tot + torn)) = false := by
    refine (h.cause (by omega)).resolve_left fun ⟨_, hfull, hzero⟩ => ?_
    have hroom' := ((h.grow hk).mono (by omega)).room hown hroom
    exact hroom'.block_ne_zero hfull (by omega) (by omega) hzero
  have heq : tot + torn = u := by
    by_contra hne
    rw [hmap (tot + torn) (by omega)] at hstop'
    cases hstop'
  obtain ⟨-, hin, -⟩ := h.torn_lt (by omega)
  simp only [BSIZE] at *
  omega

variable (hole : (sb.abs s.disk).NoHole (s.inode k).inum) (hoff : off ≤ (s.inode k).din.size.toNat)
  (hmax : off + n ≤ MAXFILE * BSIZE)

include hole hoff hmax

theorem noHole : (sb.abs s'.disk).NoHole (s.inode k).inum :=
  h.wrote.noHole (by rwa [hk.view]) hoff (by have := h.le; omega)

/-- Bytes that are left in a buffer are behind blocks that were there or are new. -/
theorem room (hown : Own sb (sb.abs s.disk)) (h0 : 0 < torn) :
    Room sb (sb.abs s.disk) (s.inode k).inum (off + (tot + torn)) := by
  obtain ⟨hlt, hin, hval⟩ := h.torn_lt h0
  refine (h.grow hk).room_of_filled hown fun p hp => Store.filled (fun bn hbn => ?_) hp
  have hole' := h.noHole hk hole hoff hmax
  by_cases hb : bn * BSIZE < ((sb.abs s'.disk).din (s.inode k).inum).size.toNat
  · exact hole' bn hb
  · -- the block of the bytes, behind the end of the file
    rw [h.wrote.sync, h.wrote.size] at hb
    have hbn' : bn = (off + tot) / BSIZE := by
      simp only [BSIZE] at *
      omega
    rw [hbn']
    exact ⟨div_lt_maxfile (by omega), hval⟩

end

end UserWritten

section

variable {m : UserMem} {src off n : ℕ} (hv : sb.Valid) (hown : Own sb (sb.abs s.disk))
  (hole : (sb.abs s.disk).NoHole (s.inode k).inum) (hk : Held sb s k)
  (hoff : off ≤ (s.inode k).din.size.toNat)

include hv hown hole hk hoff

namespace UserWritten

variable {tot torn : ℕ} {s' : State} (hmax : off + n ≤ MAXFILE * BSIZE)
  (hw : UserWritten sb k m src off n tot torn s s')

include hmax hw

omit hown in
/-- What `readi` returns after the write. -/
theorem readi_iff (o : ℕ) (c : UInt8) :
    (readi sb k (.kernel []) o 1).run s' = .ok ((1, .kernel [c]), s') ↔
      o < (s'.inode k).din.size.toNat ∧ (sb.abs s'.disk).content (s.inode k).inum o = c := by
  have hole' := hw.noHole hk hole hoff hmax
  rw [← hw.wrote.frame.inum] at hole' ⊢
  exact readi_byte_iff hv hw.wrote.own (hw.wrote.held hk) hole' o c

omit hv in
/-- A byte that differs behind the end of the write is one of those that were left in the buffer. -/
theorem differs (h : NotTorn sb s k m src off n) {o : ℕ} (ho : o < MAXFILE * BSIZE)
    (hle : off + tot ≤ o)
    (hne : (sb.abs s'.disk).content (s.inode k).inum o ≠ (sb.abs s.disk).content (s.inode k).inum o) :
    (s.inode k).din.size.toNat ≤ o ∧
      ((sb.abs s.disk).val ((s.inode k).inum, filePlace ((off + tot) / BSIZE)) = 0 ∨
        (sb.abs s.disk).val ((s.inode k).inum, filePlace ((off + tot) / BSIZE)) ∈ s.logged) := by
  rw [hw.content o ho, hk.view] at hne
  have hin : off ≤ o ∧ o < off + (tot + torn) := by
    by_contra hout
    exact hne (if_neg hout)
  rw [if_pos hin] at hne
  have h0 : 0 < torn := by omega
  obtain ⟨hlt, hmod, -⟩ := hw.torn_lt h0
  have hbad := (hw.cause (by omega)).resolve_left fun hx => by omega
  have hblock : (off + (tot + torn)) / BSIZE = (off + tot) / BSIZE := by
    simp only [BSIZE] at *
    omega
  have hback : off + (o - off) = o := by omega
  have := h (tot + torn) hlt hw.mapped hbad (hw.room hk hole hoff hmax hown h0) (o - off) (by omega)
    (by simp only [BSIZE] at *; omega) (by rw [hback]; exact hne.symm)
  rwa [hback, hblock] at this

omit hv hole hoff in
/-- A byte that differs in the buffer differs in the file, behind the end of the write. -/
theorem exists_differs {a x : ℕ} (h0 : 0 < torn)
    (hval : (sb.abs s.disk).val ((s.inode k).inum, filePlace ((off + tot) / BSIZE)) = a) (ha : a ≠ 0)
    (hx : x < BSIZE) (hne : s'.disk a x ≠ s.disk a x) :
    ∃ o < MAXFILE * BSIZE, off + tot ≤ o ∧
      (sb.abs s'.disk).content (s.inode k).inum o ≠ (sb.abs s.disk).content (s.inode k).inum o := by
  obtain ⟨hlt, hmod, -⟩ := hw.torn_lt h0
  have hstop := hw.stop (by omega)
  obtain ⟨o, ho⟩ : ∃ o, o = (off + tot) / BSIZE * BSIZE + x := ⟨_, rfl⟩
  have hdiv : o / BSIZE = (off + tot) / BSIZE := by
    simp only [BSIZE] at *
    omega
  have hmodx : o % BSIZE = x := by
    simp only [BSIZE] at *
    omega
  subst hval
  have hval := hw.wrote.val _ (by rw [hk.view]; exact ha)
  rw [hk.view] at hval
  have hdiff : (sb.abs s'.disk).content (s.inode k).inum o ≠ (sb.abs s.disk).content (s.inode k).inum o := by
    rw [content_eq_disk hown hdiv ha, content_eq_disk hw.wrote.own hdiv (by rwa [hval]), hval, hmodx]
    exact hne
  have hmaxo : o < MAXFILE * BSIZE := by
    simp only [MAXFILE, NDIRECT, NINDIRECT, BSIZE] at *
    omega
  refine ⟨o, hmaxo, ?_, hdiff⟩
  by_contra hgt
  rw [hw.content o hmaxo, hk.view] at hdiff
  by_cases hin : off ≤ o ∧ o < off + (tot + torn)
  · simp only [BSIZE] at *
    omega
  · exact hdiff (if_neg hin)

theorem leaves (h : NotTorn sb s k m src off n) : RestKept sb k (off + tot) s s' := by
  have hsize := hk.size_le hole
  refine ⟨fun o c ho hread => ?_, fun d hd b hb => ?_⟩
  · obtain ⟨hos, rfl⟩ := (readi_byte_iff hv hown hk hole o c).mp hread
    refine (hw.readi_iff hv hole hk hoff hmax o _).mpr ⟨?_, ?_⟩
    · rw [hw.wrote.size]
      omega
    · by_contra hne
      have := (hw.differs hown hole hk hoff hmax h (by omega) ho hne).1
      omega
  · by_cases hb' : s'.disk b = s.disk b
    · exact hw.torn.logged b (hd b (by rwa [← hb']))
    have hdirty := hw.torn.dirty b hb'
    rw [hk.view] at hdirty
    rcases hdirty with hlog | ⟨h0, ha, rfl, x, hx, hne⟩
    · exact hlog
    obtain ⟨o, ho, hle, hdiff⟩ := hw.exists_differs hown hk hmax h0 rfl ha hx hne
    have hor := (hw.differs hown hole hk hoff hmax h ho hle hdiff).2
    exact hw.torn.logged _ (hor.resolve_left ha)

theorem notTorn (h : RestKept sb k (off + tot) s s') : NotTorn sb s k m src off n := by
  intro u hu hmap hbad hroom j hj hblock hne
  obtain ⟨heq, h0, hdiv, hle⟩ := hw.cut hk hown hmax hu hmap hbad hroom hj hblock
  have hcontent := hw.content (off + j) (by omega)
  rw [hk.view, if_pos (by omega), Nat.add_sub_cancel_left] at hcontent
  constructor
  · by_contra hlt
    have hsame := h.reads (off + j) _ (by omega)
      ((readi_byte_iff hv hown hk hole _ _).mpr ⟨by omega, rfl⟩)
    have := ((hw.readi_iff hv hole hk hoff hmax _ _).mp hsame).2
    rw [hcontent] at this
    exact hne this.symm
  · rw [or_iff_not_imp_left]
    intro ha
    have hval := hw.wrote.val _ (by rw [hk.view]; exact ha)
    have hspared := hw.torn.spared h0
    rw [hk.view] at hval hspared
    rw [hdiv] at hspared
    refine hspared ha (h.logs s.disk (fun _ hb => absurd rfl hb) _ fun hsame => hne ?_)
    rw [← hcontent, content_eq_disk hown hblock ha,
      content_eq_disk hw.wrote.own hblock (by rwa [hval]), hval, hsame]

end UserWritten

/-- **Writes that are cut short.** A write leaves the file behind its end alone and logs the buffers that it
changes, if and only if it goes past the largest file, or its copy does not end inside a block with bytes
that differ from those of the file. -/
theorem writei_leaves_rest_iff :
    LeavesRest sb s k m src off n ↔ (off + n ≤ MAXFILE * BSIZE → NotTorn sb s k m src off n) := by
  by_cases hmax : off + n ≤ MAXFILE * BSIZE
  · have hspec := writei_user (E := fun _ => False) hv (by rwa [hk.view]) hk.type hk.inum_lt m src hoff
      hmax
    constructor
    · intro h _ u hu hmap hbad hroom j hj hblock
      obtain ⟨r, s', hrun, tot, torn, rfl, hw⟩ := hspec.exists_ok
      have hcut := hw.cut hk hown hmax hu hmap hbad hroom hj hblock
      have hkept := wp.of_run_eq_ok h hrun (by omega)
      rw [Int.toNat_natCast] at hkept
      exact hw.notTorn hv hown hole hk hoff hmax hkept u hu hmap hbad hroom j hj hblock
    · intro h
      refine hspec.mono ?_
      rintro _ s' ⟨tot, torn, rfl, hw⟩ -
      rw [Int.toNat_natCast]
      exact hw.leaves hv hown hole hk hoff hmax (h hmax)
  · -- nothing is written
    refine iff_of_true ?_ fun h => absurd h hmax
    rw [LeavesRest, wp, writei_refused (.inr (by omega))]
    exact fun _ => ⟨fun _ _ _ hread => hread, fun _ hd => hd⟩

end

/-- A file of two zero bytes. -/
def twoZeros : State := smallState (oneBlock 2) (smallBits 31) zeroBlock

theorem twoZeros_held : Own tiny (tiny.abs twoZeros.disk) ∧ Held tiny twoZeros 0 ∧
    (tiny.abs twoZeros.disk).NoHole 1 :=
  ⟨⟨tiny_valid.owns smallPlace (by decide +kernel), by decide +kernel⟩,
    ⟨by decide, by decide +kernel, by decide⟩, by decide +kernel⟩

/-- One byte of the process's page is written, and of two bytes the second is not mapped. -/
theorem writei_leaves_rest_two :
    LeavesRest tiny twoZeros 0 onePage 4095 0 1 ∧
      ¬ LeavesRest tiny twoZeros 0 onePage 4095 0 2 := by
  obtain ⟨hown, hk, hole⟩ := twoZeros_held
  constructor
  · refine (writei_leaves_rest_iff (k := 0) tiny_valid hown hole hk (Nat.zero_le _)).mpr fun _ u hu => ?_
    obtain rfl : u = 0 := by omega
    exact fun _ _ _ j hj => absurd hj (Nat.not_lt_zero j)
  · intro h
    have hnot := (writei_leaves_rest_iff (k := 0) tiny_valid hown hole hk (Nat.zero_le _)).mp h (by decide)
    have hmap : onePage.Mapped 4095 1 := by
      intro j hj
      obtain rfl : j = 0 := by omega
      rfl
    have := (hnot 1 (by decide) hmap rfl (by decide +kernel) 0 (by decide) rfl (by decide +kernel)).1
    exact absurd this (by decide)

/-- Two bytes are to be written, the second of which is not mapped. The first one gets into the file, the
result is 0, and block 4 is not logged. -/
theorem writei_tears_block :
    (Own tiny (tiny.abs twoZeros.disk) ∧ Held tiny twoZeros 0 ∧ (tiny.abs twoZeros.disk).NoHole 1) ∧
    (tiny.abs twoZeros.disk).content 1 0 = 0 ∧
    wp (writei tiny 0 (.user onePage 4095) 0 2) (fun _ => False) twoZeros fun r s' => r = 0 ∧
      (tiny.abs s'.disk).content 1 0 = 1 ∧ s'.disk 4 0 ≠ twoZeros.disk 4 0 ∧ 4 ∉ s'.logged :=
  ⟨twoZeros_held, by decide +kernel, by decide +kernel⟩

end Xv6.Fs
