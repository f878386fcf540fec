import Xv6.Bio.Cache
import Xv6.Lib.Counting

/-!
# Buffer cache coherence

The invariant `Inv` of the cache and the proof that every step keeps it, one lemma for each step of
`Cache.lean`. Its core is the pair of facts about data: a valid buffer holds the contents last stored
for its block, and a block whose contents on disk are older is cached in a dirty buffer, which is
pinned or locked and therefore cannot be recycled.
-/

namespace Xv6.Bio

open Xv6.Lib List
open State (setBuf bread)

/-! ## What a process refers to -/

/-- The buffer and block a process is reading in `bread`. -/
def Pc.target : Pc → Option (BufId × ℕ × ℕ)
  | .wait i d b | .fill i d b | .filled i d b => some (i, d, b)
  | .run | .release _ => none

/-- The buffer whose sleep-lock a process holds inside `bread`. -/
def Pc.locked : Pc → Option BufId
  | .fill i _ _ | .filled i _ _ => some i
  | .run | .wait _ _ _ | .release _ => none

/-- The buffer whose `refcnt` counts the call of `bread` or `brelse` that a process is in. -/
def Pc.counted : Pc → Option BufId
  | .wait i _ _ | .fill i _ _ | .filled i _ _ | .release i => some i
  | .run => none

/-- The buffer that a call of `bread` still has to return, or a call of `brelse` to give up. -/
def Pc.pending : Pc → Option BufId
  | .fill i _ _ | .filled i _ _ | .release i => some i
  | .run | .wait _ _ _ => none

@[simp] theorem Pc.pending_run : Pc.pending .run = none := rfl

@[simp] theorem Pc.locked_run : Pc.locked .run = none := rfl

@[simp] theorem Pc.counted_run : Pc.counted .run = none := rfl

variable {i : BufId}

theorem Pc.counted_of_locked {c : Pc} (h : c.locked = some i) : c.counted = some i := by
  cases c <;> simp_all [Pc.locked, Pc.counted]

theorem Pc.pending_of_locked {c : Pc} (h : c.locked = some i) : c.pending = some i := by
  cases c <;> simp_all [Pc.locked, Pc.pending]

/-- The number of times process `p` is between a `bget` increment and the `brelse` decrement of
buffer `i`. -/
def State.refs {P : Type*} (s : State P) (p : P) (i : BufId) : ℕ :=
  (s.held p).count i + if (s.pc p).counted = some i then 1 else 0

/-- The pins of buffer `i`. -/
def State.pins {P : Type*} (s : State P) (i : BufId) : ℕ := s.fresh i + s.settled i

/-- Buffer `i` caches block `(d, b)`. -/
def State.caches {P : Type*} (s : State P) (i : BufId) (d b : ℕ) : Prop :=
  (s.buf i).dev = d ∧ (s.buf i).blockno = b

/-- Who refers to the buffers: the reference counts and the sleep-locks. -/
structure Refs {P : Type*} [Fintype P] (s : State P) : Prop where
  refcnt : ∀ i, (s.buf i).refcnt = ∑ p, s.refs p i + s.pins i
  nodup : ∀ p, (s.held p).Nodup
  /-- a sleep-lock is held by the process that `bread` returned the buffer to, or by one inside it -/
  lock : ∀ i p, s.lock i = some p ↔ i ∈ s.held p ∨ (s.pc p).locked = some i
  notHeld : ∀ i p, (s.pc p).pending = some i → i ∉ s.held p

/-- What the buffers and the disk contain. -/
structure Data {P : Type*} (s : State P) : Prop where
  /-- a block has at most one buffer -/
  unique : ∀ i j d b, d ≠ 0 → s.caches i d b → s.caches j d b → i = j
  target : ∀ p i d b, (s.pc p).target = some (i, d, b) → d ≠ 0 ∧ s.caches i d b
  held : ∀ p i, i ∈ s.held p → (s.buf i).valid = true
  valid : ∀ i, (s.buf i).valid = true →
    (s.buf i).dev ≠ 0 ∧ (s.buf i).data = s.latest (s.buf i).dev (s.buf i).blockno
  filled : ∀ p i d b, s.pc p = .filled i d b → (s.buf i).data = s.latest d b
  /-- a modified buffer is pinned, or its modifier still has it -/
  dirty : ∀ i, s.dirty i = true → (s.buf i).valid = true ∧ (0 < s.fresh i ∨ s.lock i ≠ none)
  /-- stale blocks on disk are in a modified buffer -/
  disk : ∀ d b, d ≠ 0 → s.disk d b = s.latest d b ∨ ∃ i, s.caches i d b ∧ s.dirty i = true

/-- The invariant of the cache. -/
structure Inv {P : Type*} [Fintype P] (s : State P) : Prop extends Refs s, Data s where
  /-- every buffer is on the list -/
  mem : ∀ i, i ∈ s.lru

variable {P : Type*} [DecidableEq P] [Fintype P] {s s' : State P} {d b : ℕ}

omit [DecidableEq P] [Fintype P] in
theorem mem_of_lookup (h : s.lookup d b = some i) : s.caches i d b := by
  have := find?_some h
  simpa [State.caches] using this

omit [DecidableEq P] [Fintype P] in
theorem not_caches_of_lookup (h : s.lookup d b = none) : ∀ i ∈ s.lru, ¬ s.caches i d b := by
  have := find?_eq_none.mp h
  simpa [State.caches] using this

omit [DecidableEq P] [Fintype P] in
theorem refcnt_of_victim (h : s.victim = some i) : (s.buf i).refcnt = 0 := by
  have := find?_some h
  simpa using this

/-- What a step can do, with the conditions under which it does it. -/
inductive Step (s : State P) : Act P → State P → Prop where
  | hit {p d b i} : s.pc p = .run → d ≠ 0 → s.caches i d b → Step s (.bget p d b)
      ((s.setBuf i { s.buf i with refcnt := (s.buf i).refcnt + 1 }).goto p (.wait i d b))
  | recycle {p d b i} : s.pc p = .run → d ≠ 0 → (∀ j ∈ s.lru, ¬ s.caches j d b) →
      (s.buf i).refcnt = 0 → Step s (.bget p d b)
      ((s.setBuf i { s.buf i with dev := d, blockno := b, valid := false, refcnt := 1 }).goto p
        (.wait i d b))
  | noBuffers {p d b} : Step s (.bget p d b) { s with panic := some .noBuffers }
  | acquiresleep {p i d b} : s.pc p = .wait i d b → s.lock i = none →
      Step s (.acquiresleep p) (s.acquiresleep p i d b)
  | bread {p i d b} : s.pc p = .fill i d b → Step s (.bread p) (s.bread p i d b)
  | breadValid {p i d b} : s.pc p = .filled i d b → Step s (.bread p) (s.breadValid p i)
  | modify {p i v} : s.pc p = .run → i ∈ s.held p → Step s (.modify p i v) (s.modify i v)
  | bwrite {p i} : s.pc p = .run → Step s (.bwrite p i) (s.bwrite p i)
  | bpin {p i} : s.pc p = .run → i ∈ s.held p → Step s (.bpin p i) (s.bpin i)
  | bunpin {p i} : s.pc p = .run → 0 < s.settled i → Step s (.bunpin p i) (s.bunpin i)
  | brelse {p i} : s.pc p = .run → (s.dirty i = true → 0 < s.fresh i) →
      Step s (.brelse p i) (s.brelse p i)
  | brelseDrop {p i} : s.pc p = .release i → Step s (.brelseDrop p) (s.brelseDrop p i)

variable {a : Act P}

omit [Fintype P] in
theorem Step.of_step (h : step s a = some s') : Step s a s' := by
  unfold step at h
  split at h
  · cases h
  cases a with
  | bget p d b =>
    obtain ⟨⟨hp, hd⟩, rfl⟩ : (s.pc p = .run ∧ d ≠ 0) ∧ s.bget p d b = s' := by simpa using h
    unfold State.bget
    split
    · next i hi => exact .hit hp hd (mem_of_lookup hi)
    · next hmiss =>
      split
      · next i hi => exact .recycle hp hd (not_caches_of_lookup hmiss) (refcnt_of_victim hi)
      · exact .noBuffers
  | acquiresleep p =>
    simp only at h
    split at h
    · next i d b hp =>
      obtain ⟨hl, rfl⟩ : s.lock i = none ∧ s.acquiresleep p i d b = s' := by simpa using h
      exact .acquiresleep hp hl
    · cases h
  | bread p =>
    simp only at h
    split at h
    · next i d b hp =>
      cases h
      exact .bread hp
    · next i d b hp =>
      cases h
      exact .breadValid hp
    · cases h
  | modify p i v =>
    obtain ⟨⟨hp, hi⟩, rfl⟩ : (s.pc p = .run ∧ i ∈ s.held p) ∧ s.modify i v = s' := by
      simpa using h
    exact .modify hp hi
  | bwrite p i =>
    obtain ⟨hp, rfl⟩ : s.pc p = .run ∧ s.bwrite p i = s' := by simpa using h
    exact .bwrite hp
  | bpin p i =>
    obtain ⟨⟨hp, hi⟩, rfl⟩ : (s.pc p = .run ∧ i ∈ s.held p) ∧ s.bpin i = s' := by simpa using h
    exact .bpin hp hi
  | bunpin p i =>
    obtain ⟨⟨hp, hi⟩, rfl⟩ : (s.pc p = .run ∧ 0 < s.settled i) ∧ s.bunpin i = s' := by
      simpa using h
    exact .bunpin hp hi
  | brelse p i =>
    obtain ⟨⟨hp, hi⟩, rfl⟩ : (s.pc p = .run ∧ (s.dirty i = true → 0 < s.fresh i)) ∧
        s.brelse p i = s' := by simpa using h
    exact .brelse hp hi
  | brelseDrop p =>
    simp only at h
    split at h
    · next i hp =>
      cases h
      exact .brelseDrop hp
    · cases h

omit [DecidableEq P] in
theorem Inv.initial (disk : ℕ → ℕ → Block) : Inv (State.initial P disk) where
  mem i := by simp [State.initial]
  refcnt i := by simp [State.initial, State.refs, State.pins, Pc.counted]
  nodup p := by simp [State.initial]
  lock i p := by simp [State.initial, Pc.locked]
  notHeld i p := by simp [State.initial]
  unique i j d b hd hi := by simp [State.caches, State.initial] at hi; omega
  target p i d b h := by simp [State.initial, Pc.target] at h
  held p i h := by simp [State.initial] at h
  valid i h := by simp [State.initial] at h
  filled p i d b h := by simp [State.initial] at h
  dirty i h := by simp [State.initial] at h
  disk d b _ := Or.inl rfl

/-! ## Consequences of the reference counts -/

namespace Refs

omit [DecidableEq P] in
theorem refs_le_refcnt (h : Refs s) (p : P) (i : BufId) : s.refs p i + s.pins i ≤ (s.buf i).refcnt := by
  rw [h.refcnt]
  have := Finset.single_le_sum (f := fun q => s.refs q i) (fun q _ => Nat.zero_le _) (Finset.mem_univ p)
  omega

omit [DecidableEq P] in
theorem refs_pos_of_lock (h : Refs s) {p : P} (hl : s.lock i = some p) : 0 < s.refs p i := by
  unfold State.refs
  rcases (h.lock i p).mp hl with hm | hm
  · have := count_pos_iff.mpr hm
    omega
  · simp [Pc.counted_of_locked hm]

omit [DecidableEq P] in
theorem unused (h : Refs s) (hr : (s.buf i).refcnt = 0) :
    (∀ p, (s.pc p).counted ≠ some i ∧ i ∉ s.held p) ∧ s.lock i = none ∧ s.fresh i = 0 := by
  have hz : ∀ p, s.refs p i = 0 ∧ s.pins i = 0 := fun p => by
    have := h.refs_le_refcnt p i
    omega
  refine ⟨fun p => ⟨fun hc => ?_, fun hm => ?_⟩, ?_, ?_⟩
  · have := (hz p).1
    simp [State.refs, hc] at this
  · have := (hz p).1
    have := count_pos_iff.mpr hm
    unfold State.refs at *
    omega
  · by_contra hl
    obtain ⟨p, hp⟩ := Option.ne_none_iff_exists'.mp hl
    have := h.refs_pos_of_lock hp
    have := (hz p).1
    omega
  · have := h.refcnt i
    unfold State.pins at this
    omega

theorem move (h : Refs s) (p : P) (hoff : ∀ q, q ≠ p → s'.pc q = s.pc q ∧ s'.held q = s.held q ∧
      ∀ i, s'.lock i = some q ↔ s.lock i = some q)
    (hcount : ∀ i, (s'.buf i).refcnt + (s.refs p i + s.pins i) =
      (s.buf i).refcnt + (s'.refs p i + s'.pins i)) (hnodup : (s'.held p).Nodup)
    (hlock : ∀ i, s'.lock i = some p ↔ i ∈ s'.held p ∨ (s'.pc p).locked = some i)
    (hnot : ∀ i, (s'.pc p).pending = some i → i ∉ s'.held p) : Refs s' where
  refcnt i := by
    have hsum := sum_add_eq_of_eq_off (f := fun q => s.refs q i) (g := fun q => s'.refs q i) p
      fun q hq => by simp only [State.refs, (hoff q hq).1, (hoff q hq).2.1]
    have := h.refcnt i
    have := hcount i
    omega
  nodup q := by
    by_cases hq : q = p
    · rw [hq]; exact hnodup
    · rw [(hoff q hq).2.1]; exact h.nodup q
  lock i q := by
    by_cases hq : q = p
    · rw [hq]; exact hlock i
    · rw [(hoff q hq).1, (hoff q hq).2.1, (hoff q hq).2.2 i]; exact h.lock i q
  notHeld i q := by
    by_cases hq : q = p
    · rw [hq]; exact hnot i
    · rw [(hoff q hq).1, (hoff q hq).2.1]; exact h.notHeld i q

end Refs

omit [DecidableEq P] [Fintype P] in
theorem Data.frame (h : Data s) (p : P) (hoff : ∀ q, q ≠ p → s'.pc q = s.pc q ∧ s'.held q = s.held q)
    (hbuf : ∀ i, (s'.buf i).dev = (s.buf i).dev ∧ (s'.buf i).blockno = (s.buf i).blockno ∧
      (s'.buf i).valid = (s.buf i).valid ∧ (s'.buf i).data = (s.buf i).data)
    (hstore : s'.latest = s.latest ∧ s'.disk = s.disk ∧ s'.dirty = s.dirty)
    (htarget : ∀ i d b, (s'.pc p).target = some (i, d, b) → d ≠ 0 ∧ s.caches i d b)
    (hheld : ∀ i, i ∈ s'.held p → (s.buf i).valid = true) (hfilled : ∀ i d b, s'.pc p ≠ .filled i d b)
    (hpin : ∀ i, s.dirty i = true → 0 < s'.fresh i ∨ s'.lock i ≠ none) : Data s' := by
  obtain ⟨hlatest, hdisk, hdirty⟩ := hstore
  have hcaches : ∀ i d b, s'.caches i d b ↔ s.caches i d b := fun i d b => by
    rw [State.caches, State.caches, (hbuf i).1, (hbuf i).2.1]
  constructor
  case unique => simpa only [hcaches] using h.unique
  case target =>
    intro q i d b ht
    rw [hcaches]
    by_cases hq : q = p
    · exact htarget i d b (hq ▸ ht)
    · exact h.target q i d b ((hoff q hq).1 ▸ ht)
  case held =>
    intro q i hi
    rw [(hbuf i).2.2.1]
    by_cases hq : q = p
    · exact hheld i (hq ▸ hi)
    · exact h.held q i ((hoff q hq).2 ▸ hi)
  case valid =>
    intro i hi
    rw [(hbuf i).2.2.1] at hi
    rw [(hbuf i).1, (hbuf i).2.1, (hbuf i).2.2.2, hlatest]
    exact h.valid i hi
  case filled =>
    intro q i d b hf
    rw [(hbuf i).2.2.2, hlatest]
    by_cases hq : q = p
    · exact absurd (hq ▸ hf) (hfilled i d b)
    · exact h.filled q i d b ((hoff q hq).1 ▸ hf)
  case dirty =>
    intro i hi
    rw [hdirty] at hi
    exact ⟨(hbuf i).2.2.1 ▸ (h.dirty i hi).1, hpin i hi⟩
  case disk => simpa only [hcaches, hlatest, hdisk, hdirty] using h.disk

variable {p : P}

omit [DecidableEq P] in
theorem Data.hold (h : Data s) (hr : Refs s) (hl : s.lock i = some p) (hlock : s'.lock = s.lock)
    (hoff : ∀ q, q ≠ p → s'.pc q = s.pc q ∧ s'.held q = s.held q)
    (hbuf : ∀ j, j ≠ i → s'.buf j = s.buf j ∧ s'.dirty j = s.dirty j ∧ s'.fresh j = s.fresh j)
    (hid : ∀ d b, s'.caches i d b ↔ s.caches i d b)
    (hstore : ∀ d b, ¬ s.caches i d b → s'.latest d b = s.latest d b ∧ s'.disk d b = s.disk d b)
    (htarget : ∀ j d b, (s'.pc p).target = some (j, d, b) → (s.pc p).target = some (j, d, b))
    (hheld : ∀ j, j ∈ s'.held p → (s'.buf j).valid = true) (hvalid : (s'.buf i).valid = true →
      (s.buf i).dev ≠ 0 ∧ (s'.buf i).data = s'.latest (s.buf i).dev (s.buf i).blockno)
    (hfilled : ∀ j d b, s'.pc p = .filled j d b → (s'.buf j).data = s'.latest d b)
    (hdirty : s'.dirty i = true → (s'.buf i).valid = true)
    (hdisk : ∀ d b, d ≠ 0 → s.caches i d b → s'.disk d b = s'.latest d b ∨ s'.dirty i = true) :
    Data s' := by
  have hcaches : ∀ j d b, s'.caches j d b ↔ s.caches j d b := fun j d b => by
    rcases eq_or_ne j i with rfl | hj
    · exact hid d b
    · rw [State.caches, State.caches, (hbuf j hj).1]
  -- the lock keeps other processes off the buffer
  have hother : ∀ q j, q ≠ p → j ∈ s.held q ∨ (s.pc q).locked = some j → j ≠ i := by
    rintro q j hq hj rfl
    rw [(hr.lock j q).mpr hj] at hl
    exact hq (Option.some.inj hl)
  have hstore' : ∀ j d b, j ≠ i → d ≠ 0 → s.caches j d b → s'.latest d b = s.latest d b :=
    fun j d b hj hd hc => (hstore d b fun hi => hj (h.unique j i d b hd hc hi)).1
  constructor
  case unique => simpa only [hcaches] using h.unique
  case target =>
    intro q j d b ht
    rw [hcaches]
    by_cases hq : q = p
    · subst hq
      exact h.target q j d b (htarget j d b ht)
    · exact h.target q j d b ((hoff q hq).1 ▸ ht)
  case held =>
    intro q j hj
    by_cases hq : q = p
    · exact hheld j (hq ▸ hj)
    · rw [(hoff q hq).2] at hj
      rw [(hbuf j (hother q j hq (Or.inl hj))).1]
      exact h.held q j hj
  case valid =>
    intro j hj
    rcases eq_or_ne j i with rfl | hji
    · obtain ⟨hd, hb⟩ := (hid _ _).mpr ⟨rfl, rfl⟩
      rw [hd, hb]
      exact hvalid hj
    · rw [(hbuf j hji).1] at hj ⊢
      obtain ⟨hd, hdata⟩ := h.valid j hj
      exact ⟨hd, by rw [hdata, hstore' j _ _ hji hd ⟨rfl, rfl⟩]⟩
  case filled =>
    intro q j d b hf
    by_cases hq : q = p
    · exact hfilled j d b (hq ▸ hf)
    · rw [(hoff q hq).1] at hf
      have hji := hother q j hq (Or.inr (by simp [hf, Pc.locked]))
      obtain ⟨hd, hc⟩ := h.target q j d b (by simp [hf, Pc.target])
      rw [(hbuf j hji).1, hstore' j d b hji hd hc]
      exact h.filled q j d b hf
  case dirty =>
    intro j hj
    rcases eq_or_ne j i with rfl | hji
    · exact ⟨hdirty hj, Or.inr (by simp [hlock, hl])⟩
    · rw [(hbuf j hji).2.1] at hj
      rw [(hbuf j hji).1, (hbuf j hji).2.2, hlock]
      exact h.dirty j hj
  case disk =>
    intro d b hd
    simp only [hcaches]
    by_cases hi : s.caches i d b
    · rcases hdisk d b hd hi with heq | hdi
      · exact Or.inl heq
      · exact Or.inr ⟨i, hi, hdi⟩
    · rw [(hstore d b hi).1, (hstore d b hi).2]
      rcases h.disk d b hd with heq | ⟨j, hj, hdj⟩
      · exact Or.inl heq
      · have hji : j ≠ i := by
          rintro rfl
          exact hi hj
        exact Or.inr ⟨j, hj, by rw [(hbuf j hji).2.1]; exact hdj⟩

/-! ## The steps -/

section

attribute [local simp] State.goto State.setBuf State.acquiresleep State.breadValid State.breadReturn
  State.modify State.bpin State.bunpin State.brelseDrop State.refs State.pins Pc.counted Pc.locked
  Pc.pending Pc.target

theorem Refs.bget (h : Refs s) (hp : s.pc p = .run) {c : Buf}
    (hc : c.refcnt = (s.buf i).refcnt + 1) (d b : ℕ) : Refs ((s.setBuf i c).goto p (.wait i d b)) := by
  refine h.move p ?_ ?_ (h.nodup p) ?_ ?_
  · intro q hq
    simp [hq]
  · intro j
    rcases eq_or_ne j i with rfl | hj
    · simp [hp, hc]
      omega
    · simp [hp, hj, hj.symm]
  · intro j
    simpa [hp] using h.lock j p
  · intro j
    simp

namespace Inv

section

variable (h : Inv s)

include h

theorem bget_hit (hp : s.pc p = .run) (hd : d ≠ 0) (hi : s.caches i d b) :
    Inv ((s.setBuf i { s.buf i with refcnt := (s.buf i).refcnt + 1 }).goto p (.wait i d b)) := by
  refine ⟨h.toRefs.bget hp rfl d b,
    h.toData.frame p ?_ ?_ ⟨rfl, rfl, rfl⟩ ?_ (h.held p) ?_ fun j hj => (h.dirty j hj).2, h.mem⟩
  · intro q hq
    simp [hq]
  · intro j
    rcases eq_or_ne j i with rfl | hj <;> simp [*]
  · intro j d' b' ht
    obtain ⟨rfl, rfl, rfl⟩ : i = j ∧ d = d' ∧ b = b' := by
      simpa using ht
    exact ⟨hd, hi⟩
  · simp

theorem bget_recycle (hp : s.pc p = .run) (hd : d ≠ 0)
    (hmiss : ∀ i, ¬ s.caches i d b) (hi : (s.buf i).refcnt = 0) {t : State P}
    (ht : t = (s.setBuf i { s.buf i with dev := d, blockno := b, valid := false, refcnt := 1 }).goto p
      (.wait i d b)) : Inv t := by
  obtain ⟨hun, hfree, hfresh⟩ := h.toRefs.unused hi
  -- nothing that the invariant speaks about is lost: the buffer is not dirty and nobody refers to it
  have hclean : ∀ j, s.dirty j = true → j ≠ i := by
    rintro j hdirty rfl
    rcases (h.dirty j hdirty).2 with hf | hl
    · omega
    · exact hl hfree
  have hbuf : ∀ j, j ≠ i → t.buf j = s.buf j := fun j hj => by
    simp [ht, hj]
  have hself : t.caches i d b ∧ (t.buf i).valid = false := by
    simp [ht, State.caches]
  have hcaches : ∀ j d' b', j ≠ i → (t.caches j d' b' ↔ s.caches j d' b') := fun j d' b' hj => by
    rw [State.caches, State.caches, hbuf j hj]
  have hpc : ∀ q, q ≠ p → t.pc q = s.pc q := fun q hq => by
    simp [ht, hq]
  have hpcp : t.pc p = .wait i d b := by simp [ht]
  refine ⟨ht ▸ h.toRefs.bget hp (by simp [hi]) d b, ?_, ht ▸ h.mem⟩
  constructor
  case unique =>
    intro j k d' b' hd' hj hk
    rcases eq_or_ne j i with rfl | hji <;> rcases eq_or_ne k j with rfl | hkj
    · rfl
    · obtain ⟨rfl, rfl⟩ : d = d' ∧ b = b' := ⟨hself.1.1 ▸ hj.1, hself.1.2 ▸ hj.2⟩
      exact absurd ((hcaches k d b hkj).mp hk) (hmiss k)
    · rfl
    · rcases eq_or_ne k i with rfl | hki
      · obtain ⟨rfl, rfl⟩ : d = d' ∧ b = b' := ⟨hself.1.1 ▸ hk.1, hself.1.2 ▸ hk.2⟩
        exact absurd ((hcaches j d b hji).mp hj) (hmiss j)
      · exact h.unique j k d' b' hd' ((hcaches j d' b' hji).mp hj) ((hcaches k d' b' hki).mp hk)
  case target =>
    intro q j d' b' htgt
    by_cases hq : q = p
    · obtain ⟨rfl, rfl, rfl⟩ : i = j ∧ d = d' ∧ b = b' := by
        simpa [hq, hpcp] using htgt
      exact ⟨hd, hself.1⟩
    · rw [hpc q hq] at htgt
      have hji : j ≠ i := by
        rintro rfl
        apply (hun q).1
        cases hc : s.pc q <;> simp_all [Pc.target, Pc.counted]
      rw [hcaches j d' b' hji]
      exact h.target q j d' b' htgt
  case held =>
    intro q j hj
    have hj' : j ∈ s.held q := by simpa [ht] using hj
    have hji : j ≠ i := by
      rintro rfl
      exact (hun q).2 hj'
    rw [hbuf j hji]
    exact h.held q j hj'
  case valid =>
    intro j hj
    have hji : j ≠ i := by
      rintro rfl
      rw [hself.2] at hj
      cases hj
    rw [hbuf j hji] at hj ⊢
    rw [show t.latest = s.latest by simp [ht]]
    exact h.valid j hj
  case filled =>
    intro q j d' b' hf
    have hq : q ≠ p := by
      rintro rfl
      rw [hpcp] at hf
      cases hf
    rw [hpc q hq] at hf
    have hji : j ≠ i := by
      rintro rfl
      exact (hun q).1 (by simp [hf])
    rw [hbuf j hji, show t.latest = s.latest by simp [ht]]
    exact h.filled q j d' b' hf
  case dirty =>
    intro j hj
    have hj' : s.dirty j = true := by simpa [ht] using hj
    rw [hbuf j (hclean j hj')]
    simpa [ht] using h.dirty j hj'
  case disk =>
    intro d' b' hd'
    rcases h.disk d' b' hd' with heq | ⟨j, hj, hdj⟩
    · left
      simpa [ht] using heq
    · right
      refine ⟨j, (hcaches j d' b' (hclean j hdj)).mpr hj, ?_⟩
      simpa [ht] using hdj

theorem acquiresleep (hp : s.pc p = .wait i d b)
    (hfree : s.lock i = none) : Inv (s.acquiresleep p i d b) := by
  have hnot : i ∉ s.held p := fun hm => by
    have := (h.lock i p).mpr (Or.inl hm)
    rw [hfree] at this
    cases this
  refine ⟨h.toRefs.move p ?_ ?_ (h.nodup p) ?_ ?_,
    h.toData.frame p ?_ (fun _ => ⟨rfl, rfl, rfl, rfl⟩) ⟨rfl, rfl, rfl⟩ ?_ (h.held p) ?_ ?_, h.mem⟩
  · intro q hq
    refine ⟨by simp [hq], rfl, fun j => ?_⟩
    rcases eq_or_ne j i with rfl | hj <;>
      simp [Ne.symm hq, *]
  · intro j
    simp [hp]
  · intro j
    have := h.lock j p
    rcases eq_or_ne j i with rfl | hj
    · simp
    · simpa [hp, hj, hj.symm] using this
  · intro j hj
    obtain rfl : i = j := by simpa using hj
    exact hnot
  · intro q hq
    simp [hq]
  · intro j d' b' ht
    apply h.target p j d' b'
    simpa [hp] using ht
  · simp
  · intro j hj
    rcases (h.dirty j hj).2 with hf | hl
    · exact Or.inl hf
    · right
      rcases eq_or_ne j i with rfl | hji <;> simp [*]

theorem breadValid (hp : (s.pc p).locked = some i)
    (hdev : (s.buf i).dev ≠ 0) (hdata : (s.buf i).data = s.latest (s.buf i).dev (s.buf i).blockno) :
    Inv (s.breadValid p i) := by
  have hnot := h.notHeld i p (Pc.pending_of_locked hp)
  have hcounted := Pc.counted_of_locked hp
  refine ⟨h.toRefs.move p ?_ ?_ ?_ ?_ ?_,
    h.toData.hold h.toRefs ((h.lock i p).mpr (Or.inr hp)) rfl ?_ ?_ ?_ (fun _ _ _ => ⟨rfl, rfl⟩) ?_ ?_
      (fun _ => ⟨hdev, ?_⟩) ?_ (fun _ => ?_) ?_, h.mem⟩
  · intro q hq
    simp [hq]
  · intro j
    rcases eq_or_ne j i with rfl | hj
    · simp [-Pc.counted, hcounted]
    · simp [-Pc.counted, hcounted, hj, hj.symm]
  · simpa using ⟨hnot, h.nodup p⟩
  · intro j
    have := h.lock j p
    simpa [-Pc.locked, hp, or_comm, eq_comm] using this
  · simp
  · intro q hq
    simp [hq]
  · intro j hj
    simp [hj]
  · intro d b
    simp [State.caches]
  · simp
  · intro j hj
    rcases eq_or_ne j i with rfl | hji
    · simp
    · have hj' : j ∈ s.held p := by
        simpa [hji] using hj
      simpa [hji] using h.held p j hj'
  · simpa using hdata
  · simp
  · simp
  · intro d b _ hc
    obtain ⟨rfl, rfl⟩ := hc
    rcases h.disk _ _ hdev with heq | ⟨j, hj, hdj⟩
    · exact Or.inl heq
    · obtain rfl := h.unique j i _ _ hdev hj ⟨rfl, rfl⟩
      exact Or.inr hdj

theorem bread (hp : s.pc p = .fill i d b) : Inv (s.bread p i d b) := by
  obtain ⟨hd, rfl, rfl⟩ := h.target p i d b (by simp [hp])
  have hlocked : (s.pc p).locked = some i := by simp [hp]
  unfold bread
  split
  · next hv =>
    have hself : { s.buf i with valid := true } = s.buf i := by rw [← hv]
    have heq : s.breadReturn p i = s.breadValid p i := by
      rw [State.breadValid, setBuf, hself, Function.update_eq_self]
    rw [heq]
    exact h.breadValid hlocked hd (h.valid i hv).2
  · next hv =>
    have hclean : s.dirty i ≠ true := fun hdi => hv (h.dirty i hdi).1
    have hdisk : s.disk (s.buf i).dev (s.buf i).blockno = s.latest (s.buf i).dev (s.buf i).blockno := by
      rcases h.disk _ _ hd with heq | ⟨j, hj, hdj⟩
      · exact heq
      · obtain rfl := h.unique j i _ _ hd hj ⟨rfl, rfl⟩
        exact absurd hdj hclean
    refine ⟨h.toRefs.move p ?_ ?_ (h.nodup p) ?_ ?_,
      h.toData.hold h.toRefs ((h.lock i p).mpr (Or.inr hlocked)) rfl ?_ ?_ ?_
        (fun _ _ _ => ⟨rfl, rfl⟩) ?_ ?_ ?_ ?_ (fun hdi => absurd hdi hclean) ?_, h.mem⟩
    · intro q hq
      simp [hq]
    · intro j
      rcases eq_or_ne j i with rfl | hj <;>
        simp [*]
    · intro j
      simpa [hp] using h.lock j p
    · intro j hj
      apply h.notHeld j p
      simpa [hp] using hj
    · intro q hq
      simp [hq]
    · intro j hj
      simp [hj]
    · intro d b
      simp [State.caches]
    · simp [hp]
    · intro j hj
      have := h.held p j hj
      rcases eq_or_ne j i with rfl | hji
      · exact absurd this hv
      · simpa [hji] using this
    · simp [hv]
    · intro j d b hf
      obtain ⟨rfl, rfl, rfl⟩ : i = j ∧ (s.buf i).dev = d ∧ (s.buf i).blockno = b := by
        simpa using hf
      simpa using hdisk
    · rintro d b - ⟨rfl, rfl⟩
      exact Or.inl hdisk

theorem modify (hp : s.pc p = .run) (hi : i ∈ s.held p) (v : Block) : Inv (s.modify i v) := by
  have hl : s.lock i = some p := (h.lock i p).mpr (Or.inl hi)
  have hv := h.held p i hi
  refine ⟨h.toRefs.move p ?_ ?_ (h.nodup p) (fun j => h.lock j p) (fun j => h.notHeld j p),
    h.toData.hold h.toRefs hl rfl ?_ ?_ ?_ ?_ ?_ ?_ ?_ ?_ (fun _ => ?_) ?_, h.mem⟩
  · exact fun q _ => ⟨rfl, rfl, fun _ => Iff.rfl⟩
  · intro j
    rcases eq_or_ne j i with rfl | hj <;>
      simp [*]
  · exact fun q _ => ⟨rfl, rfl⟩
  · intro j hj
    simp [hj]
  · intro d b
    simp [State.caches]
  · intro d b hne
    simp only [State.caches, not_and] at hne
    simp only [State.modify, setBuf, store, and_true]
    rw [if_neg]
    rintro ⟨rfl, rfl⟩
    exact hne rfl rfl
  · exact fun _ _ _ ht => ht
  · intro j hj
    have := h.held p j hj
    rcases eq_or_ne j i with rfl | hji <;> simp [*]
  · exact fun _ => ⟨(h.valid i hv).1, by simp [store]⟩
  · simp [hp]
  · simpa using hv
  · intro d b _ _
    simp

omit [DecidableEq P] in
theorem panic (c : Panic) : Inv { s with panic := some c } :=
  ⟨⟨h.refcnt, h.nodup, h.lock, h.notHeld⟩,
    ⟨h.unique, h.target, h.held, h.valid, h.filled, h.dirty, h.disk⟩, h.mem⟩

theorem bwrite (hp : s.pc p = .run) (i : BufId) : Inv (s.bwrite p i) := by
  unfold State.bwrite
  split
  · next hl =>
    have hi : i ∈ s.held p := by simpa [hp] using (h.lock i p).mp hl
    have hv := h.held p i hi
    refine ⟨h.toRefs.move p ?_ ?_ (h.nodup p) (fun j => h.lock j p) (fun j => h.notHeld j p),
      h.toData.hold h.toRefs hl rfl ?_ ?_ (fun _ _ => Iff.rfl) ?_ (fun _ _ _ ht => ht) (h.held p)
        (fun _ => h.valid i hv) ?_ (fun _ => hv) ?_, h.mem⟩
    · exact fun q _ => ⟨rfl, rfl, fun _ => Iff.rfl⟩
    · intro j
      rcases eq_or_ne j i with rfl | hj
      · simp only [State.refs, State.pins, Function.update_self]
        omega
      · simp [hj]
    · exact fun q _ => ⟨rfl, rfl⟩
    · intro j hj
      simp [hj]
    · intro d b hne
      simp only [store, true_and]
      rw [if_neg]
      rintro ⟨rfl, rfl⟩
      exact hne ⟨rfl, rfl⟩
    · simp [hp]
    · rintro d b - ⟨rfl, rfl⟩
      exact Or.inl (by simpa [store] using (h.valid i hv).2)
  · exact h.panic .bwrite

theorem bpin (p : P) (hp : s.pc p = .run) (i : BufId) : Inv (s.bpin i) := by
  refine ⟨h.toRefs.move p ?_ ?_ (h.nodup p) (fun j => h.lock j p) (fun j => h.notHeld j p),
    h.toData.frame p ?_ ?_ ⟨rfl, rfl, rfl⟩ (h.target p) (h.held p) ?_ ?_, h.mem⟩
  · exact fun q _ => ⟨rfl, rfl, fun _ => Iff.rfl⟩
  · intro j
    rcases eq_or_ne j i with rfl | hj
    · simp [hp]
      omega
    · simp [hp, hj]
  · exact fun q _ => ⟨rfl, rfl⟩
  · intro j
    rcases eq_or_ne j i with rfl | hj <;> simp [*]
  · simp [hp]
  · intro j hj
    rcases eq_or_ne j i with rfl | hji
    · simp
    · simpa [hji] using (h.dirty j hj).2

theorem bunpin (p : P) (hp : s.pc p = .run) (hi : 0 < s.settled i) : Inv (s.bunpin i) := by
  refine ⟨h.toRefs.move p ?_ ?_ (h.nodup p) (fun j => h.lock j p) (fun j => h.notHeld j p),
    h.toData.frame p ?_ ?_ ⟨rfl, rfl, rfl⟩ (h.target p) (h.held p) ?_
      fun j hj => (h.dirty j hj).2, h.mem⟩
  · exact fun q _ => ⟨rfl, rfl, fun _ => Iff.rfl⟩
  · intro j
    rcases eq_or_ne j i with rfl | hj
    · have := h.refs_le_refcnt p j
      simp [hp] at this ⊢
      omega
    · simp [hp, hj]
  · exact fun q _ => ⟨rfl, rfl⟩
  · intro j
    rcases eq_or_ne j i with rfl | hj <;> simp [*]
  · simp [hp]

theorem brelse (hp : s.pc p = .run) (hpin : s.dirty i = true → 0 < s.fresh i) : Inv (s.brelse p i) := by
  unfold State.brelse
  split
  · next hl =>
    have hi : i ∈ s.held p := by simpa [hp] using (h.lock i p).mp hl
    have hnodup := h.nodup p
    have hmem : ∀ j, j ∈ (s.held p).erase i ↔ j ≠ i ∧ j ∈ s.held p := fun j =>
      hnodup.mem_erase_iff
    refine ⟨h.toRefs.move p ?_ ?_ ?_ ?_ ?_,
      h.toData.frame p ?_ (fun _ => ⟨rfl, rfl, rfl, rfl⟩) ⟨rfl, rfl, rfl⟩ ?_ ?_ ?_ ?_, h.mem⟩
    · intro q hq
      refine ⟨by simp [hq], by simp [hq], fun j => ?_⟩
      rcases eq_or_ne j i with rfl | hj <;> simp [Ne.symm hq, *]
    · intro j
      rcases eq_or_ne j i with rfl | hj
      · have hone : (s.held p).count j = 1 := count_eq_one_of_mem hnodup hi
        simp [hp, count_erase_self, hone]
      · simp [hp, count_erase_of_ne hj, hj.symm]
    · simpa using hnodup.erase i
    · intro j
      have := h.lock j p
      rcases eq_or_ne j i with rfl | hj
      · simp [hmem]
      · simpa [hp, hmem, hj] using this
    · intro j hj
      obtain rfl : i = j := by simpa using hj
      simp [hmem]
    · intro q hq
      simp [hq]
    · simp
    · intro j hj
      have hj' : j ≠ i ∧ j ∈ s.held p := by simpa [hmem] using hj
      exact h.held p j hj'.2
    · simp
    · intro j hj
      rcases eq_or_ne j i with rfl | hji
      · exact Or.inl (hpin hj)
      · simpa [hji] using (h.dirty j hj).2
  · exact h.panic .brelse

theorem brelseDrop (hp : s.pc p = .release i) : Inv (s.brelseDrop p i) := by
  refine ⟨h.toRefs.move p ?_ ?_ (h.nodup p) ?_ ?_,
    h.toData.frame p ?_ ?_ ⟨rfl, rfl, rfl⟩ ?_ (h.held p) ?_ fun j hj => (h.dirty j hj).2, ?_⟩
  · intro q hq
    simp [hq]
  · intro j
    rcases eq_or_ne j i with rfl | hj
    · have hle := h.refs_le_refcnt p j
      simp [hp] at hle ⊢
      omega
    · simp [hp, hj, hj.symm]
  · intro j
    simpa [hp] using h.lock j p
  · simp
  · intro q hq
    simp [hq]
  · intro j
    rcases eq_or_ne j i with rfl | hj <;> simp [*]
  · simp
  · simp
  · intro j
    simp only [State.brelseDrop]
    split
    · by_cases hj : j = i
      · simp [hj]
      · exact mem_cons_of_mem _ ((mem_erase_of_ne hj).mpr (h.mem j))
    · exact h.mem j

theorem step (hs : step s a = some s') : Inv s' := by
  cases Step.of_step hs with
  | hit hp hd hi => exact h.bget_hit hp hd hi
  | recycle hp hd hmiss hi => exact h.bget_recycle hp hd (fun j => hmiss j (h.mem j)) hi rfl
  | noBuffers => exact h.panic .noBuffers
  | acquiresleep hp hl => exact h.acquiresleep hp hl
  | bread hp => exact h.bread hp
  | @breadValid p i d b hp =>
    obtain ⟨hd, hc⟩ := h.target p i d b (by simp [hp])
    obtain ⟨rfl, rfl⟩ := hc
    exact h.breadValid (by simp [hp]) hd (h.filled p i _ _ hp)
  | modify hp hi => exact h.modify hp hi _
  | bwrite hp => exact h.bwrite hp _
  | @bpin p _ hp _ => exact h.bpin p hp _
  | @bunpin p _ hp hi => exact h.bunpin p hp hi
  | brelse hp hpin => exact h.brelse hp hpin
  | brelseDrop hp => exact h.brelseDrop hp

end

end Inv

end

theorem inv_of_reachable (h : (machine P).Reachable s) : Inv s :=
  h.invariant Inv (by rintro _ ⟨disk, rfl⟩; exact .initial disk) fun _ _ _ hi hs => hi.step hs

/-! ## The cache is coherent -/

omit [DecidableEq P] in
theorem Refs.refs_le_one (h : Refs s) (p : P) (i : BufId) :
    s.refs p i ≤ 1 ∨ i ∈ s.held p ∧ ∃ d b, s.pc p = .wait i d b := by
  have hle : (s.held p).count i ≤ 1 := nodup_iff_count_le_one.mp (h.nodup p) i
  by_cases hm : i ∈ s.held p
  · have hne : (s.pc p).pending ≠ some i := fun hp => h.notHeld i p hp hm
    unfold State.refs
    cases hc : s.pc p with
    | run => simpa using hle
    | wait j d b =>
      by_cases hj : j = i
      · exact Or.inr ⟨hm, d, b, by rw [hj]⟩
      · simpa [Pc.counted, hj] using hle
    | fill j d b | filled j d b | release j => left; simp_all [Pc.pending, Pc.counted]
  · left
    rw [State.refs, count_eq_zero_of_not_mem hm]
    split <;> omega

omit [DecidableEq P] in
theorem Inv.refcnt_pos_of_dirty (h : Inv s) (hi : s.dirty i = true) : 0 < (s.buf i).refcnt := by
  by_contra hz
  obtain ⟨-, hfree, hfresh⟩ := h.toRefs.unused (i := i) (by omega)
  rcases (h.dirty i hi).2 with hf | hl
  · omega
  · exact hl hfree

omit [Fintype P] in
theorem caches_of_step (hs : step s a = some s') (hi : 0 < (s.buf i).refcnt)
    (hc : s.caches i d b) : s'.caches i d b := by
  have keep : ∀ (j : BufId) (c : Buf), c.dev = (s.buf j).dev → c.blockno = (s.buf j).blockno →
      (s.setBuf j c).caches i d b := fun j c hd hb => by
    rcases eq_or_ne i j with rfl | hij
    · simpa [State.caches, setBuf, hd, hb] using hc
    · simpa [State.caches, setBuf, hij] using hc
  cases Step.of_step hs with
  | hit | breadValid | modify | bpin | bunpin | brelseDrop => exact keep _ _ rfl rfl
  | @recycle p d' b' j _ _ _ hj =>
    have hij : i ≠ j := by
      rintro rfl
      omega
    simpa [State.caches, setBuf, State.goto, hij] using hc
  | noBuffers => exact hc
  | acquiresleep => exact hc
  | bread =>
    unfold bread
    split
    · exact hc
    · exact keep _ _ rfl rfl
  | bwrite => unfold State.bwrite; split <;> exact hc
  | brelse => unfold State.brelse; split <;> exact hc

omit [Fintype P] in
theorem target_of_held (hs : step s a = some s') (hi : i ∈ s'.held p) (hnot : i ∉ s.held p) :
    ∃ d b, (s.pc p).target = some (i, d, b) ∧ s'.latest = s.latest := by
  have grow : ∀ (t : State P) (q : P) (j : BufId), t.held = s.held → i ∈ (t.breadReturn q j).held p →
      q = p ∧ j = i := fun t q j ht hm => by
    rcases eq_or_ne p q with rfl | hpq
    · have : i = j ∨ i ∈ s.held p := by simpa [State.breadReturn, ht] using hm
      rcases this with rfl | hm
      · exact ⟨rfl, rfl⟩
      · exact absurd hm hnot
    · have : i ∈ s.held p := by simpa [State.breadReturn, ht, hpq] using hm
      exact absurd this hnot
  cases Step.of_step hs with
  | @bread q j d b hq =>
    unfold bread at hi ⊢
    split at hi
    · obtain ⟨rfl, rfl⟩ := grow s q j rfl hi
      exact ⟨d, b, by simp [hq, Pc.target], by split <;> rfl⟩
    · exact absurd hi hnot
  | @breadValid q j d b hq =>
    obtain ⟨rfl, rfl⟩ := grow _ q j rfl hi
    exact ⟨d, b, by simp [hq, Pc.target], rfl⟩
  | bwrite => unfold State.bwrite at hi; split at hi <;> exact absurd hi hnot
  | @brelse q j =>
    unfold State.brelse at hi
    split at hi
    · rcases eq_or_ne p q with rfl | hpq
      · have : i ∈ (s.held p).erase j := by simpa using hi
        exact absurd (mem_of_mem_erase this) hnot
      · have : i ∈ s.held p := by simpa [hpq] using hi
        exact absurd this hnot
    · exact absurd hi hnot
  | hit | recycle | noBuffers | acquiresleep | modify | bpin | bunpin | brelseDrop =>
    exact absurd hi hnot

/-- **Buffer cache coherence.** In every reachable state of every interleaving of the processes'
calls: a block has at most one buffer; `refcnt` counts the calls between the increment in `bget` and
the decrement in `brelse`, and the pins; it is positive before each decrement; a buffer in use keeps
its block; `bread` returns the buffer of the block asked for, with the contents last stored for it;
and those contents are on disk or in a buffer in use. -/
theorem cache_coherent (h : (machine P).Reachable s) :
    (∀ i j d b, d ≠ 0 → s.caches i d b → s.caches j d b → i = j) ∧
    (∀ i, (s.buf i).refcnt = ∑ p, s.refs p i + s.pins i) ∧
    (∀ p i, s.refs p i ≤ 1 ∨ i ∈ s.held p ∧ ∃ d b, s.pc p = .wait i d b) ∧
    (∀ p i, s.pc p = .release i → 0 < (s.buf i).refcnt) ∧
    (∀ i, 0 < s.settled i → 0 < (s.buf i).refcnt) ∧
    (∀ a s', step s a = some s' → ∀ i d b, 0 < (s.buf i).refcnt → s.caches i d b →
      s'.caches i d b) ∧
    (∀ a s', step s a = some s' → ∀ p i, i ∈ s'.held p → i ∉ s.held p →
      ∃ d b, (s.pc p).target = some (i, d, b) ∧ s'.caches i d b ∧
        (s'.buf i).valid = true ∧ (s'.buf i).data = s.latest d b) ∧
    (∀ d b, d ≠ 0 → s.disk d b = s.latest d b ∨
      ∃ i, s.caches i d b ∧ (s.buf i).valid = true ∧ (s.buf i).data = s.latest d b ∧
        0 < (s.buf i).refcnt) := by
  have hinv := inv_of_reachable h
  refine ⟨hinv.unique, hinv.refcnt, hinv.refs_le_one, ?_, ?_, ?_, ?_, ?_⟩
  · intro p i hp
    have := hinv.refs_le_refcnt p i
    have : 0 < s.refs p i := by simp [State.refs, hp, Pc.counted]
    omega
  · intro i hi
    have := hinv.refcnt i
    unfold State.pins at this
    omega
  · exact fun a s' hs i d b hi hc => caches_of_step hs hi hc
  · intro a s' hs p i hi hnot
    obtain ⟨d, b, ht, hlatest⟩ := target_of_held hs hi hnot
    have hinv' := hinv.step hs
    have hpos : 0 < (s.buf i).refcnt := by
      have := hinv.refs_le_refcnt p i
      have : (s.pc p).counted = some i := by
        cases hc : s.pc p <;> simp_all [Pc.target, Pc.counted]
      have : 0 < s.refs p i := by simp [State.refs, this]
      omega
    have hc := caches_of_step hs hpos (hinv.target p i d b ht).2
    have hv := hinv'.held p i hi
    obtain ⟨hdev, hblk⟩ := id hc
    exact ⟨d, b, ht, hc, hv, by rw [(hinv'.valid i hv).2, hdev, hblk, hlatest]⟩
  · intro d b hd
    rcases hinv.disk d b hd with heq | ⟨i, hc, hi⟩
    · exact Or.inl heq
    · right
      have hv := (hinv.dirty i hi).1
      obtain ⟨hdev, hblk⟩ := id hc
      exact ⟨i, hc, hv, by rw [(hinv.valid i hv).2, hdev, hblk], hinv.refcnt_pos_of_dirty hi⟩

/-- One process modifies and pins a block, another reads it. -/
def pinnedRead : List (Act (Fin 2)) :=
  [.bget 0 1 5, .acquiresleep 0, .bread 0, .bread 0, .modify 0 0 (fun _ => 7), .bpin 0 0, .bget 1 1 5,
    .brelse 0 0, .brelseDrop 0, .acquiresleep 1]

theorem cache_coherent_pinnedRead :
    ∃ s, (machine (Fin 2)).run (State.initial _ fun _ _ => zeroBlock) pinnedRead = some s ∧
      s.pc 1 = .fill 0 1 5 ∧ (s.buf 0).refcnt = 2 ∧ s.disk 1 5 0 = 0 ∧ s.latest 1 5 0 = 7 ∧
      ∀ a s', step s a = some s' → ∀ i, i ∈ s'.held 1 → i ∉ s.held 1 →
        ∃ d b, (s.pc 1).target = some (i, d, b) ∧ s'.caches i d b ∧
          (s'.buf i).valid = true ∧ (s'.buf i).data = s.latest d b := by
  have hrun : ((machine (Fin 2)).run (State.initial _ fun _ _ => zeroBlock) pinnedRead).any (fun s =>
      s.pc 1 = .fill 0 1 5 ∧ (s.buf 0).refcnt = 2 ∧ s.disk 1 5 0 = 0 ∧ s.latest 1 5 0 = 7) = true := by
    decide +kernel
  obtain ⟨s, hs, hend⟩ := (Option.any_eq_true _ _).mp hrun
  obtain ⟨hpc, href, hdisk, hlatest⟩ := of_decide_eq_true hend
  exact ⟨s, hs, hpc, href, hdisk, hlatest, fun a s' hstep =>
    (cache_coherent (.of_run (.init ⟨_, rfl⟩) pinnedRead hs)).2.2.2.2.2.2.1 a s' hstep 1⟩

end Xv6.Bio
