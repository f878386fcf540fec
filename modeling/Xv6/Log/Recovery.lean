import Xv6.Log.Commit

/-!
# Crash atomicity of the redo log

The disks that a crash of `commit` can leave, and those that crashes of `recover_from_log` lead to
from there, fall in two classes. `Clean` disks have an empty header and agree with a given disk
outside the log region. `Logged` disks have a committed header whose log blocks hold the new
contents; the home blocks of the header may hold anything, because recovery installs them again.
Every single write of `commit` and of `recover_from_log` keeps a disk in its class or moves it from
`Clean` (old contents) to `Logged` and from `Logged` to `Clean` (new contents); there is no third
class, and so no mixture.
-/

namespace Xv6.Log

open Xv6.Lib Function List
open Dev (boot)

variable {L : Region}

/-! ## Programs as traces of writes -/

/-- Running from `s` to `s'` issued exactly the writes `ws`. The cache sees them as the disk does. -/
structure Dev.Trace (s s' : Dev) (ws : List (ℕ × Block)) : Prop where
  writes : s'.writes = s.writes ++ ws
  disk : s'.disk = applyWrites ws s.disk
  bread : s'.bread = applyWrites ws s.bread

theorem Dev.Trace.refl (s : Dev) : Dev.Trace s s [] :=
  ⟨by simp, rfl, rfl⟩

theorem Dev.Trace.trans {s t u : Dev} {ws vs : List (ℕ × Block)} (h : Dev.Trace s t ws)
    (h' : Dev.Trace t u vs) : Dev.Trace s u (ws ++ vs) where
  writes := by rw [h'.writes, h.writes, append_assoc]
  disk := by rw [h'.disk, h.disk, applyWrites_append]
  bread := by rw [h'.bread, h.bread, applyWrites_append]

theorem Dev.bread_bwrite (s : Dev) (b : ℕ) (v : Block) : (s.bwrite b v).bread = update s.bread b v := by
  funext c
  by_cases hc : c = b
  · subst hc
    simp [Dev.bread, Dev.bwrite]
  · simp [Dev.bread, Dev.bwrite, update_of_ne hc]

theorem Dev.trace_bwrite (s : Dev) (b : ℕ) (v : Block) : Dev.Trace s (s.bwrite b v) [(b, v)] :=
  ⟨rfl, rfl, s.bread_bwrite b v⟩

@[simp] theorem Dev.bread_boot (d : Disk) : (boot d).bread = d := rfl

/-! ## The header block -/

/-- The block numbers that a header block lists. -/
def headBlocks (hb : Block) : List ℕ :=
  (List.range (headN hb).toNat).map fun i => hb.word (i + 1)

theorem readHead_eq (s : Dev) : readHead L s = headBlocks (s.bread L.start) := rfl

variable {hb : Block}

theorem headBlocks_of_headN_eq_zero (h : headN hb = 0) : headBlocks hb = [] := by
  rw [headBlocks, h]
  rfl

theorem headN_of_word_zero {n : ℕ} (h : hb.word 0 = n) (hn : n < 2 ^ 31) : headN hb = n := by
  rw [headN, h, if_pos hn]

variable {j : ℕ}

theorem word_storeBlocks_of_le (hb : Block) (i : ℕ) (bs : List ℕ) (hj : j ≤ i) :
    (storeBlocks hb i bs).word j = hb.word j := by
  induction bs generalizing hb i with
  | nil => rfl
  | cons b bs ih =>
    rw [storeBlocks, ih _ _ (by omega), Block.word_setWord_ne _ _ (by omega)]

theorem word_storeBlocks_map (hb : Block) (i : ℕ) (bs : List ℕ) (hbs : ∀ b ∈ bs, b < 2 ^ 32) :
    (List.range bs.length).map (fun k => (storeBlocks hb i bs).word (i + k + 1)) = bs := by
  induction bs generalizing hb i with
  | nil => rfl
  | cons b bs ih =>
    rw [length_cons, range_succ_eq_map, map_cons, map_map, storeBlocks]
    congr 1
    · rw [word_storeBlocks_of_le _ _ _ (by omega), Nat.add_zero,
        Block.word_setWord_of_lt _ _ (hbs b (by simp))]
    · have htail := ih (hb.setWord (i + 1) b) (i + 1) (fun c hc => hbs c (by simp [hc]))
      refine Eq.trans (map_congr_left fun k _ => ?_) htail
      simp only [comp_apply, Nat.succ_eq_add_one]
      rw [show i + (k + 1) + 1 = i + 1 + k + 1 from by omega]

theorem headN_writeHead (hb : Block) (bs : List ℕ) (hlen : bs.length ≤ LOGSIZE) :
    headN (storeBlocks (hb.setWord 0 bs.length) 0 bs) = bs.length := by
  have hlt : bs.length < 2 ^ 31 := lt_of_le_of_lt hlen (by decide)
  refine headN_of_word_zero ?_ hlt
  rw [word_storeBlocks_of_le _ _ _ (le_refl 0), Block.word_setWord_of_lt _ _ (by omega)]

theorem headBlocks_writeHead (hb : Block) (lh : Header) :
    headBlocks (storeBlocks (hb.setWord 0 lh.block.length) 0 lh.block) = lh.block := by
  rw [headBlocks, headN_writeHead _ _ lh.length_le, Int.toNat_natCast]
  simpa using word_storeBlocks_map (hb.setWord 0 lh.block.length) 0 lh.block lh.word

theorem headN_erase (hb : Block) : headN (storeBlocks (hb.setWord 0 0) 0 []) = 0 :=
  headN_writeHead hb [] (by decide)

/-! ## The log blocks -/

/-- The writes of `write_log` when the cached contents are `c`. -/
def logWrites (L : Region) (c : Disk) : ℕ → List ℕ → List (ℕ × Block)
  | _, [] => []
  | tail, b :: bs => (L.start + tail + 1, c b) :: logWrites L c (tail + 1) bs

/-- The log slots from `tail` on hold the contents `c` of the blocks `bs`. -/
def LogHolds (L : Region) (c : Disk) (x : Disk) : ℕ → List ℕ → Prop
  | _, [] => True
  | tail, b :: bs => x (L.start + tail + 1) = c b ∧ LogHolds L c x (tail + 1) bs

@[simp] theorem length_logWrites (c : Disk) (tail : ℕ) (bs : List ℕ) :
    (logWrites L c tail bs).length = bs.length := by
  induction bs generalizing tail with
  | nil => rfl
  | cons b bs ih => rw [logWrites, length_cons, ih, length_cons]

variable {bs : List ℕ}

theorem logWrites_congr {c c' : Disk} (tail : ℕ) (h : ∀ b ∈ bs, c b = c' b) :
    logWrites L c tail bs = logWrites L c' tail bs := by
  induction bs generalizing tail with
  | nil => rfl
  | cons b bs ih =>
    rw [logWrites, logWrites, h b (by simp), ih (tail + 1) fun b' hb' => h b' (by simp [hb'])]

variable {tail : ℕ}

theorem mem_logWrites {c : Disk} {w : ℕ × Block} (h : w ∈ logWrites L c tail bs) :
    L.start + tail < w.1 ∧ w.1 ≤ L.start + tail + bs.length := by
  induction bs generalizing tail with
  | nil => simp [logWrites] at h
  | cons b bs ih =>
    rw [logWrites, mem_cons] at h
    rw [length_cons]
    rcases h with rfl | h
    · exact ⟨by simp, by simp⟩
    · have := ih h
      omega

theorem start_notMem_logWrites (c : Disk) (tail : ℕ) (bs : List ℕ) :
    L.start ∉ (logWrites L c tail bs).map Prod.fst := by
  intro h
  obtain ⟨w, hw, heq⟩ := List.mem_map.mp h
  have := (mem_logWrites hw).1
  omega

theorem LogHolds.update {c x : Disk} (h : LogHolds L c x tail bs) (v : Block)
    (hj : j ≤ L.start + tail ∨ L.start + tail + bs.length < j) :
    LogHolds L c (update x j v) tail bs := by
  induction bs generalizing tail with
  | nil => trivial
  | cons b bs ih =>
    obtain ⟨h1, h2⟩ := h
    rw [length_cons] at hj
    refine ⟨?_, ih h2 (by omega)⟩
    rw [update_of_ne (by omega)]
    exact h1

theorem logHolds_applyWrites (c x : Disk) (tail : ℕ) (bs : List ℕ) :
    LogHolds L c (applyWrites (logWrites L c tail bs) x) tail bs := by
  induction bs generalizing x tail with
  | nil => trivial
  | cons b bs ih =>
    rw [logWrites, applyWrites_cons]
    refine ⟨?_, ih _ _⟩
    rw [applyWrites_of_notMem, update_self]
    intro hmem
    obtain ⟨w, hw, heq⟩ := List.mem_map.mp hmem
    have := (mem_logWrites hw).1
    omega

theorem writeLog_trace (s : Dev) (tail : ℕ) (bs : List ℕ) (hfit : tail + bs.length < L.size)
    (hhome : ∀ b ∈ bs, ¬ L.Contains b) :
    Dev.Trace s (writeLog L s tail bs) (logWrites L s.bread tail bs) := by
  induction bs generalizing s tail with
  | nil => exact Dev.Trace.refl s
  | cons b bs ih =>
    rw [length_cons] at hfit
    have hcongr : logWrites L (s.bwrite (L.start + tail + 1) (s.bread b)).bread (tail + 1) bs =
        logWrites L s.bread (tail + 1) bs := by
      refine logWrites_congr (tail + 1) fun b' hb' => ?_
      rw [Dev.bread_bwrite, update_of_ne]
      -- a home block is not a log slot
      intro heq
      exact hhome b' (by simp [hb']) ⟨by omega, by omega⟩
    have hrest := ih (s.bwrite (L.start + tail + 1) (s.bread b)) (tail + 1) (by omega)
      (fun b' hb' => hhome b' (by simp [hb']))
    rw [hcongr] at hrest
    exact (s.trace_bwrite (L.start + tail + 1) (s.bread b)).trans hrest

theorem installTrans_trace (c : Disk) (s : Dev) (tail : ℕ) (bs : List ℕ)
    (hfit : tail + bs.length < L.size) (hhome : ∀ b ∈ bs, ¬ L.Contains b)
    (hlog : LogHolds L c s.bread tail bs) :
    Dev.Trace s (installTrans L s tail bs) (bs.map fun b => (b, c b)) := by
  induction bs generalizing s tail with
  | nil => exact Dev.Trace.refl s
  | cons b bs ih =>
    obtain ⟨hb, htail⟩ := hlog
    rw [length_cons] at hfit
    have hout : b ≤ L.start + (tail + 1) ∨ L.start + (tail + 1) + bs.length < b := by
      have := hhome b (by simp)
      unfold Region.Contains at this
      omega
    rw [installTrans, hb]
    refine (s.trace_bwrite b (c b)).trans (ih _ (tail + 1) (by omega)
      (fun b' hb' => hhome b' (by simp [hb'])) ?_)
    rw [Dev.bread_bwrite]
    exact htail.update _ hout

theorem writeHead_trace (s : Dev) (bs : List ℕ) : Dev.Trace s (writeHead L s bs)
      [(L.start, storeBlocks ((s.bread L.start).setWord 0 bs.length) 0 bs)] :=
  s.trace_bwrite _ _

/-! ## The two classes of disks -/

/-- The header is empty and the disk agrees with `v` outside the log region. -/
structure Clean (L : Region) (v x : Disk) : Prop where
  head : headN (x L.start) = 0
  home : ∀ b, ¬ L.Contains b → x b = v b

/-- The header lists `bs`, the log blocks hold their contents `c`, and the disk agrees with `v` at
the blocks outside the log region that are not listed. -/
structure Logged (L : Region) (v c : Disk) (bs : List ℕ) (x : Disk) : Prop where
  head : headBlocks (x L.start) = bs
  log : LogHolds L c x 0 bs
  home : ∀ b, ¬ L.Contains b → b ∉ bs → x b = v b

/-- `v` with the blocks `bs` replaced by their contents in `c`. -/
def installed (v c : Disk) (bs : List ℕ) : Disk := fun b => if b ∈ bs then c b else v b

theorem Clean.erase {v x : Disk} (h : Clean L v x) (hsize : 0 < L.size) (hb : Block)
    (hn : headN hb = 0) : Clean L v (update x L.start hb) where
  head := by rw [update_self]; exact hn
  home b hout := by
    rw [update_of_ne, h.home b hout]
    rintro rfl
    exact hout ⟨le_refl _, by omega⟩

theorem Clean.logWrite {v x : Disk} (h : Clean L v x) (hj : L.start < j)
    (hj' : j < L.start + L.size) (b : Block) : Clean L v (update x j b) where
  head := by rw [update_of_ne (by omega)]; exact h.head
  home c hout := by
    rw [update_of_ne, h.home c hout]
    rintro rfl
    exact hout ⟨by omega, by omega⟩

variable {v c x : Disk}

theorem Logged.install (h : Logged L v c bs x)
    (hfit : bs.length < L.size) {b : ℕ} (hb : b ∈ bs) (hout : ¬ L.Contains b) :
    Logged L v c bs (update x b (c b)) := by
  have hne : L.start ≠ b := by
    rintro rfl
    exact hout ⟨le_refl _, by omega⟩
  refine ⟨?_, h.log.update _ ?_, ?_⟩
  · rw [update_of_ne hne]
    exact h.head
  · unfold Region.Contains at hout
    omega
  · intro b' hout' hnot
    rw [update_of_ne, h.home b' hout' hnot]
    rintro rfl
    exact hnot hb

theorem Logged.finish (h : Logged L v c bs x) (hsize : 0 < L.size)
    (hb : Block) (hn : headN hb = 0) : Clean L (installed v c bs)
      (update (applyWrites (bs.map fun b => (b, c b)) x) L.start hb) where
  head := by rw [update_self]; exact hn
  home b hout := by
    rw [update_of_ne, applyWrites_map_graph, installed]
    · by_cases hmem : b ∈ bs
      · rw [if_pos hmem, if_pos hmem]
      · rw [if_neg hmem, if_neg hmem]
        exact h.home b hout hmem
    · rintro rfl
      exact hout ⟨le_refl _, by omega⟩

theorem Clean.commitPoint (h : Clean L v x) (lh : Header)
    (hlog : LogHolds L c x 0 lh.block) (hsize : 0 < L.size) (hb : Block) : Logged L v c lh.block
      (update x L.start (storeBlocks (hb.setWord 0 lh.block.length) 0 lh.block)) where
  head := by rw [update_self]; exact headBlocks_writeHead hb lh
  log := hlog.update _ (by omega)
  home b hout _ := by
    rw [update_of_ne, h.home b hout]
    rintro rfl
    exact hout ⟨le_refl _, by omega⟩

/-! ## Recovery from each class -/

section Recover

variable {v c x : Disk} {bs : List ℕ}

theorem recover_trace_clean (h : Clean L v x) : ∃ hb, headN hb = 0 ∧
    Dev.Trace (boot x) (recoverFromLog L (boot x)) [(L.start, hb)] := by
  refine ⟨_, headN_erase (x L.start), ?_⟩
  have hread : readHead L (boot x) = [] := by
    rw [readHead_eq, Dev.bread_boot]
    exact headBlocks_of_headN_eq_zero h.head
  rw [recoverFromLog, hread]
  exact writeHead_trace (boot x) []

theorem crashRecover_clean (h : Clean L v x) (hsize : 0 < L.size) (k : ℕ) :
    Clean L v (crashRecover L x k) := by
  obtain ⟨hb, hn, htr⟩ := recover_trace_clean h
  rw [crashRecover, htr.writes]
  refine applyWrites_take_invariant h (fun w hw y hy => ?_) k
  obtain rfl : w = (L.start, hb) := by simpa [boot] using hw
  exact hy.erase hsize hb hn

theorem recover_clean (h : Clean L v x) (hsize : 0 < L.size) :
    Clean L v (recoverFromLog L (boot x)).disk := by
  obtain ⟨hb, hn, htr⟩ := recover_trace_clean h
  rw [htr.disk]
  exact h.erase hsize hb hn

theorem recoverThrough_clean (h : Clean L v x) (hsize : 0 < L.size) (ks : List ℕ) :
    Clean L v (recoverThrough L x ks) := by
  induction ks generalizing x with
  | nil => exact recover_clean h hsize
  | cons k ks ih => exact ih (crashRecover_clean h hsize k)

variable (h : Logged L v c bs x) (hfit : bs.length < L.size) (hhome : ∀ b ∈ bs, ¬ L.Contains b)

include h hfit hhome

theorem recover_trace_logged : ∃ hb, headN hb = 0 ∧ Dev.Trace (boot x) (recoverFromLog L (boot x))
      ((bs.map fun b => (b, c b)) ++ [(L.start, hb)]) := by
  have hread : readHead L (boot x) = bs := by
    rw [readHead_eq, Dev.bread_boot]
    exact h.head
  have hinst := installTrans_trace c (boot x) 0 bs (by omega) hhome (by simpa using h.log)
  refine ⟨_, headN_erase ((installTrans L (boot x) 0 bs).bread L.start), ?_⟩
  rw [recoverFromLog, hread]
  exact hinst.trans (writeHead_trace _ [])

theorem Logged.applyWrites_take (k : ℕ) :
    Logged L v c bs (applyWrites ((bs.map fun b => (b, c b)).take k) x) := by
  refine applyWrites_take_invariant h (fun w hw y hy => ?_) k
  obtain ⟨b, hb, rfl⟩ := List.mem_map.mp hw
  exact hy.install hfit hb (hhome b hb)

theorem Logged.crash (hb : Block) (hn : headN hb = 0) (k : ℕ) :
    Logged L v c bs (applyWrites (((bs.map fun b => (b, c b)) ++ [(L.start, hb)]).take k) x) ∨
      Clean L (installed v c bs)
        (applyWrites (((bs.map fun b => (b, c b)) ++ [(L.start, hb)]).take k) x) := by
  rw [applyWrites_take_append]
  split
  · exact Or.inl (h.applyWrites_take hfit hhome k)
  · right
    rw [take_of_length_le (by simp only [length_singleton]; omega)]
    exact h.finish (by omega) hb hn

theorem crashRecover_logged (k : ℕ) :
    Logged L v c bs (crashRecover L x k) ∨ Clean L (installed v c bs) (crashRecover L x k) := by
  obtain ⟨hb, hn, htr⟩ := recover_trace_logged h hfit hhome
  rw [crashRecover, htr.writes]
  exact h.crash hfit hhome hb hn k

theorem recover_logged : Clean L (installed v c bs) (recoverFromLog L (boot x)).disk := by
  obtain ⟨hb, hn, htr⟩ := recover_trace_logged h hfit hhome
  rw [htr.disk, applyWrites_append]
  exact h.finish (by omega) hb hn

theorem recoverThrough_logged (ks : List ℕ) : Clean L (installed v c bs) (recoverThrough L x ks) := by
  induction ks generalizing x with
  | nil => exact recover_logged h hfit hhome
  | cons k ks ih =>
    rcases crashRecover_logged h hfit hhome k with h' | h'
    · exact ih h'
    · exact recoverThrough_clean h' (by omega) ks

end Recover

/-! ## Crashes of commit -/

section Commit

variable {lh : Header}

theorem commitWrites_eq (cache : ℕ → Option Block) (d : Disk) (hpos : 0 < lh.n) (hn : lh.n + 1 ≤ L.size)
    (hhome : ∀ b ∈ lh.block, ¬ L.Contains b) : ∃ hb hb' : Block, headN hb' = 0 ∧
    commitWrites L cache d lh.block =
      logWrites L (Dev.mk cache d []).bread 0 lh.block ++
        ((L.start, storeBlocks (hb.setWord 0 lh.block.length) 0 lh.block) ::
          ((lh.block.map fun b => (b, (Dev.mk cache d []).bread b)) ++ [(L.start, hb')])) := by
  unfold Header.n at hpos hn
  set s : Dev := ⟨cache, d, []⟩ with hs
  have h1 := writeLog_trace s 0 lh.block (by omega) hhome
  have h2 := writeHead_trace (L := L) (writeLog L s 0 lh.block) lh.block
  have hlog : LogHolds L s.bread (writeHead L (writeLog L s 0 lh.block) lh.block).bread 0 lh.block := by
    rw [h2.bread, h1.bread]
    exact (logHolds_applyWrites s.bread s.bread 0 lh.block).update _ (by omega)
  have h3 := installTrans_trace s.bread _ 0 lh.block (by omega) hhome hlog
  set t := installTrans L (writeHead L (writeLog L s 0 lh.block) lh.block) 0 lh.block with ht
  have h4 := writeHead_trace (L := L) t []
  refine ⟨(writeLog L s 0 lh.block).bread L.start, _, headN_erase (t.bread L.start), ?_⟩
  rw [commitWrites, ← hs, commit, if_pos hpos, ← ht, (((h1.trans h2).trans h3).trans h4).writes]
  simp [hs]

theorem Clean.logWrites_take {v x : Disk} (h : Clean L v x) (c : Disk)
    (hfit : bs.length < L.size) (k : ℕ) : Clean L v (applyWrites ((logWrites L c 0 bs).take k) x) := by
  refine applyWrites_take_invariant h (fun w hw y hy => ?_) k
  have := mem_logWrites hw
  exact hy.logWrite (by omega) (by omega) w.2

/-- **Crash atomicity.** Crash `commit` after any number `k` of its block writes, reboot any number
of times with the recovery crashing after `ks` writes, and let a last recovery finish. The header is
then empty, and outside the log region the disk is the old one if the first header write was not
among the `k` writes, and the old one with all logged blocks replaced otherwise. -/
theorem commit_crash_atomic (L : Region) (d : Disk) (cache : ℕ → Option Block) (lh : Header)
    (hclean : headN (d L.start) = 0) (hn : lh.n + 1 ≤ L.size)
    (hhome : ∀ b ∈ lh.block, ¬ L.Contains b) (k : ℕ) (ks : List ℕ) :
    headN (recoverThrough L (crashCommit L cache d lh.block k) ks L.start) = 0 ∧
      ∀ b, ¬ L.Contains b →
        recoverThrough L (crashCommit L cache d lh.block k) ks b =
          if L.start ∈ ((commitWrites L cache d lh.block).take k).map Prod.fst ∧ b ∈ lh.block then
            (Dev.mk cache d []).bread b
          else d b := by
  have hd : Clean L d d := ⟨hclean, fun _ _ => rfl⟩
  have hsize : 0 < L.size := by omega
  rcases Nat.eq_zero_or_pos lh.n with hzero | hpos
  · -- an empty transaction writes nothing
    have hnil : lh.block = [] := List.length_eq_zero_iff.mp hzero
    have hcrash : crashCommit L cache d lh.block k = d := by
      simp [crashCommit, commitWrites, commit, hnil]
    have hfin := recoverThrough_clean hd hsize ks
    rw [hcrash]
    exact ⟨hfin.head, fun b hout => by rw [hfin.home b hout, hnil]; simp⟩
  obtain ⟨hb, hb', hn', hws⟩ := commitWrites_eq cache d hpos hn hhome
  set c : Disk := (Dev.mk cache d []).bread
  have hlen : (logWrites L c 0 lh.block).length = lh.n := length_logWrites c 0 lh.block
  rw [crashCommit, hws, applyWrites_take_append, hlen]
  by_cases hk : k ≤ lh.n
  · -- the header has not been written
    have hfin := recoverThrough_clean (hd.logWrites_take c hn k) hsize ks
    rw [if_pos hk]
    refine ⟨hfin.head, fun b hout => ?_⟩
    rw [hfin.home b hout, take_append_of_le_length (by omega), if_neg]
    rintro ⟨hmem, -⟩
    rw [map_take] at hmem
    exact start_notMem_logWrites _ _ _ (mem_of_mem_take hmem)
  · -- the header write is among the first `k`: the disk is logged, or finished
    rw [if_neg hk]
    obtain ⟨j, hj⟩ : ∃ j, k - lh.n = j + 1 := ⟨k - lh.n - 1, by omega⟩
    have hbefore : Clean L d (applyWrites (logWrites L c 0 lh.block) d) := by
      have h := hd.logWrites_take c hn lh.n
      rwa [take_of_length_le (le_of_eq hlen)] at h
    have hlogged := hbefore.commitPoint lh (logHolds_applyWrites c d 0 lh.block) hsize hb
    have hfin : Clean L (installed d c lh.block) (recoverThrough L (applyWrites
        (((lh.block.map fun b => (b, c b)) ++ [(L.start, hb')]).take j)
        (Function.update (applyWrites (logWrites L c 0 lh.block) d) L.start
          (storeBlocks (hb.setWord 0 lh.block.length) 0 lh.block))) ks) := by
      rcases hlogged.crash hn hhome hb' hn' j with h | h
      · exact recoverThrough_logged h hn hhome ks
      · exact recoverThrough_clean h hsize ks
    rw [hj, take_append, hlen, hj, take_succ_cons, applyWrites_cons]
    refine ⟨hfin.head, fun b hout => ?_⟩
    rw [hfin.home b hout, installed]
    simp

/-- A two-block transaction crashed after its fourth write (one home block installed), then through
two crashed recoveries: both blocks end up with their new contents. -/
theorem commit_crash_atomic_two_blocks :
    headN (recoverThrough ⟨2, 30⟩ (crashCommit ⟨2, 30⟩ (fun b => some fun _ => UInt8.ofNat b)
      (fun _ => zeroBlock) [40, 41] 4) [1, 0] 2) = 0 ∧
    recoverThrough ⟨2, 30⟩ (crashCommit ⟨2, 30⟩ (fun b => some fun _ => UInt8.ofNat b)
      (fun _ => zeroBlock) [40, 41] 4) [1, 0] 41 = fun _ => 41 := by
  have h := commit_crash_atomic ⟨2, 30⟩ (fun _ => zeroBlock) (fun b => some fun _ => UInt8.ofNat b)
    ⟨[40, 41], by decide, by decide⟩ (by decide) (by decide) (by decide) 4 [1, 0]
  refine ⟨h.1, (h.2 41 (by decide)).trans ?_⟩
  rw [if_pos (by decide)]
  rfl

end Commit

/-! ## Runs of transactions -/

/-- A `commit` with the contents of the pinned buffers, and the crash that ends it: the number of its
block writes that reach the disk, and those of the recoveries that crash before one ends. -/
structure Txn where
  cache : Disk
  head : Header
  crash : Option (ℕ × List ℕ)

/-- The disk after the transaction, and after the recovery if it crashes. -/
def Txn.run (L : Region) (d : Disk) (t : Txn) : Disk :=
  match t.crash with
  | none => applyWrites (commitWrites L (some ∘ t.cache) d t.head.block) d
  | some (k, ks) => recoverThrough L (crashCommit L (some ∘ t.cache) d t.head.block k) ks

/-- The store that the log implements: a transaction happens as a whole, or not at all if it crashes
before the header is written. -/
def Txn.apply (v : Disk) (t : Txn) : Disk :=
  if t.crash.all (t.head.n < ·.1) then installed v t.cache t.head.block else v

theorem Clean.run {v d : Disk} {t : Txn} (h : Clean L v d) (hn : t.head.n + 1 ≤ L.size)
    (hhome : ∀ b ∈ t.head.block, ¬ L.Contains b) : Clean L (t.apply v) (t.run L d) := by
  rw [Txn.apply, Txn.run]
  rcases Nat.eq_zero_or_pos t.head.n with hzero | hpos
  · -- an empty transaction writes nothing
    have hnil : t.head.block = [] := length_eq_zero_iff.mp hzero
    have hv : installed v t.cache [] = v := rfl
    have hws : commitWrites L (some ∘ t.cache) d [] = [] := rfl
    rw [hnil, hv, ite_self]
    cases t.crash with
    | none => exact hws ▸ h
    | some r =>
      have hd : crashCommit L (some ∘ t.cache) d [] r.1 = d := by rw [crashCommit, hws, take_nil]; rfl
      exact recoverThrough_clean (by rwa [hd]) (by omega) _
  obtain ⟨hb, hb', hn', hws⟩ := commitWrites_eq (some ∘ t.cache) d hpos hn hhome
  set c : Disk := (Dev.mk (some ∘ t.cache) d []).bread
  have hlen : (logWrites L c 0 t.head.block).length = t.head.n := length_logWrites ..
  -- the disk once the header is written
  have hlog := h.logWrites_take c hn t.head.n
  rw [take_of_length_le hlen.le] at hlog
  have hx := hlog.commitPoint t.head (logHolds_applyWrites c d 0 _) (by omega) hb
  cases t.crash with
  | none =>
    rw [hws, applyWrites_append, applyWrites_cons, applyWrites_append]
    exact hx.finish (by omega) hb' hn'
  | some r =>
    obtain ⟨k, ks⟩ := r
    simp only [Option.all_some, decide_eq_true_eq]
    rw [crashCommit, hws, applyWrites_take_append]
    by_cases hk : t.head.n < k
    · obtain ⟨j, hj⟩ : ∃ j, k - t.head.n = j + 1 := ⟨k - t.head.n - 1, by omega⟩
      rw [if_pos hk, if_neg (by omega), hlen, hj, take_succ_cons, applyWrites_cons]
      rcases hx.crash hn hhome hb' hn' j with hx | hx
      · exact recoverThrough_logged hx hn hhome ks
      · exact recoverThrough_clean hx (by omega) ks
    · rw [if_neg hk, if_pos (by omega)]
      exact recoverThrough_clean (h.logWrites_take _ hn k) (by omega) ks

/-- **The log is an atomic store.** Transactions one after the other, each of which may crash at any of
its block writes and be recovered through further crashes, leave outside the log region what the same
transactions leave when each happens at once or not at all; one that ends, or whose header has reached
the disk, is not lost. -/
theorem log_atomic_store {d : Disk} (hd : headN (d L.start) = 0) (ts : List Txn)
    (hts : ∀ t ∈ ts, t.head.n + 1 ≤ L.size ∧ ∀ b ∈ t.head.block, ¬ L.Contains b) :
    headN (ts.foldl (Txn.run L) d L.start) = 0 ∧
      ∀ b, ¬ L.Contains b → ts.foldl (Txn.run L) d b = ts.foldl Txn.apply d b := by
  have hclean : ∀ v d, Clean L v d → Clean L (ts.foldl Txn.apply v) (ts.foldl (Txn.run L) d) := by
    clear hd
    induction ts with
    | nil => exact fun _ _ h => h
    | cons t ts ih =>
      intro v d h
      obtain ⟨hn, hhome⟩ := hts t mem_cons_self
      exact ih (fun t ht => hts t (mem_cons_of_mem _ ht)) _ _ (h.run hn hhome)
  obtain ⟨hhead, hhome⟩ := hclean d d ⟨hd, fun _ _ => rfl⟩
  exact ⟨hhead, hhome⟩

/-- Two transactions write block 41. The first one crashes after its header is written, and two of its
recoveries crash as well; the second one crashes before its header is written. -/
theorem log_atomic_store_two : ∃ a b : Header, a.block = [40, 41] ∧ b.block = [41] ∧
    [Txn.mk (fun _ _ => 7) a (some (4, [1, 0])), ⟨fun _ _ => 8, b, some (1, [])⟩].foldl
      (Txn.run ⟨2, 30⟩) (fun _ => zeroBlock) 41 = fun _ => 7 := by
  refine ⟨⟨[40, 41], by decide, by decide⟩, ⟨[41], by decide, by decide⟩, rfl, rfl, ?_⟩
  rw [(log_atomic_store (by decide) _ (by decide)).2 41 (by decide)]
  rfl

end Xv6.Log
