import Mathlib.Data.Finset.Card
import Xv6.Fs.Inode
import Xv6.Lib.Transition

/-!
# Freeing an inode

The inode table of `kernel/fs.c` under any interleaving of `iget`, `idup`, `ilock`, `iunlock` and `iput`
by any processes, with the steps of `iput` that free an inode one by one. A critical section of
`itable.lock` is one step. There is one device.

A counted reference is an entry and a name for it among the references to that entry. A process may hold
references together with others, as processes do that share an open file. The processes keep to what the
callers of these functions do: a process locks an inode by a reference that it holds, keeps it while it
waits for the lock or has it, and drops a reference that nobody else holds and by which it has no lock.
Apart from that `Act` is any sequence of calls. `ialloc` may write an inode that is free on disk at any
time, whoever has an entry for it.
-/

namespace Xv6.Freeing

open Fs Lib Option Finset

/-- A counted reference: the entry, and a number that tells it from the entry's other references. -/
abbrev Ref := Slot × ℕ

/-- `struct inode`, for processes `P`: `lock` is the process that holds the sleep-lock, and the number of
the reference by which it has locked. -/
structure Entry (P : Type) where
  inum : ℕ
  ref : ℕ
  valid : Bool
  /-- the copy of the disk inode -/
  din : Dinode
  lock : Option (P × ℕ)

/-- Where `iput` is that frees an inode: before `itrunc`, before `ip->type = 0; iupdate(ip);`, before
`ip->valid = 0`, before `releasesleep`, and before it drops the reference. -/
inductive Stage where
  | trunc
  | clear
  | inval
  | release
  | last
deriving DecidableEq

/-- Where a process is: outside of these functions, in the `acquiresleep` of `ilock`, after it, or in
`iput`. -/
inductive Pc where
  | run
  | wait (r : Ref)
  | load (r : Ref)
  | free (stage : Stage) (r : Ref)
deriving DecidableEq

/-- The panics, by their messages. -/
inductive Panic where
  /-- "iget: no inodes" -/
  | noInodes
  /-- "ilock" -/
  | ilock
  /-- "ilock: no type" -/
  | noType
  /-- "iunlock" -/
  | iunlock
  /-- "sched locks": `acquiresleep` sleeps while the process holds `itable.lock` -/
  | schedLocks
deriving DecidableEq

/-- The inode table, the inodes on disk, the references to each entry and the processes that hold them,
and where the processes are. -/
structure State (P : Type) where
  entry : Slot → Entry P
  disk : ℕ → Dinode
  refs : Slot → Finset ℕ
  holders : Ref → Finset P
  pc : P → Pc
  panic : Option Panic

/-- What a process does next. -/
inductive Act (P : Type) where
  /-- `iget`; `t` names the new reference, here and below -/
  | iget (inum t : ℕ)
  /-- `idup` -/
  | idup (r : Ref) (t : ℕ)
  /-- let another process use the reference -/
  | share (r : Ref) (q : P)
  /-- leave the reference to the others that use it -/
  | forget (r : Ref)
  /-- call `ilock` -/
  | ilock (r : Ref)
  /-- `acquiresleep` of `ilock` returns -/
  | take
  /-- the rest of `ilock` -/
  | load
  /-- `iunlock` -/
  | iunlock (r : Ref)
  /-- change a locked inode, but not its type, and `iupdate` it -/
  | update (r : Ref) (d : Dinode)
  /-- call `iput` -/
  | iput (r : Ref)
  /-- the next step of an `iput` that frees the inode -/
  | free
  /-- `ialloc` takes the inode on disk, before its `iget` -/
  | ialloc (inum : ℕ) (type : UInt16)

variable {P : Type} [DecidableEq P]

namespace State

variable (s : State P)

/-- Replace entry `k`. -/
def setEntry (k : Slot) (e : Entry P) : State P := { s with entry := assign s.entry k e }

/-- Process `p` goes on at `x`. -/
def setPc (p : P) (x : Pc) : State P := { s with pc := assign s.pc p x }

/-- Replace the disk inode. -/
def setDisk (inum : ℕ) (d : Dinode) : State P := { s with disk := assign s.disk inum d }

/-- Process `p` gets a new reference `t` to entry `k`, which is `e` now. -/
def addRef (p : P) (k : Slot) (t : ℕ) (e : Entry P) : State P :=
  { s with
    entry := assign s.entry k e
    refs := assign s.refs k (insert t (s.refs k))
    holders := assign s.holders (k, t) {p} }

/-- `ip->ref--`, for the reference `r`. -/
def dropRef (r : Ref) : State P :=
  { s with
    entry := assign s.entry r.1 { s.entry r.1 with ref := (s.entry r.1).ref - 1 }
    refs := assign s.refs r.1 ((s.refs r.1).erase r.2)
    holders := assign s.holders r ∅ }

/-- The entry that `iget` finds for the inode, with one reference more. -/
def iget (inum : ℕ) : Option (Slot × Entry P) :=
  match (List.finRange NINODE).find? fun k => 0 < (s.entry k).ref ∧ (s.entry k).inum = inum with
  | some k => some (k, { s.entry k with ref := (s.entry k).ref + 1 })
  | none =>
    ((List.finRange NINODE).find? fun k => (s.entry k).ref = 0).map fun k =>
      (k, { s.entry k with inum := inum, ref := 1, valid := false })

/-- The condition of `iput` for freeing the inode. -/
def LastUnlinked (k : Slot) : Prop :=
  (s.entry k).ref = 1 ∧ (s.entry k).valid = true ∧ (s.entry k).din.nlink = 0

instance (k : Slot) : Decidable (s.LastUnlinked k) := inferInstanceAs (Decidable (_ ∧ _ ∧ _))

/-- Process `p` may call `iput` for reference `r`: it alone holds it, and has no lock by it. -/
def MayPut (p : P) (r : Ref) : Prop :=
  s.pc p = .run ∧ s.holders r = {p} ∧ (s.entry r.1).lock ≠ some (p, r.2)

instance (p : P) (r : Ref) : Decidable (s.MayPut p r) := inferInstanceAs (Decidable (_ ∧ _ ∧ _))

/-- A step of a process that is outside of these functions. -/
def call (p : P) : Act P → Option (State P)
  | .iget inum t =>
    match s.iget inum with
    | none => some { s with panic := some .noInodes }
    | some (k, e) => if t ∈ s.refs k then none else some (s.addRef p k t e)
  | .idup r t =>
    if p ∈ s.holders r ∧ t ∉ s.refs r.1 then
      some (s.addRef p r.1 t { s.entry r.1 with ref := (s.entry r.1).ref + 1 })
    else none
  | .share r q =>
    if p ∈ s.holders r then
      some { s with holders := assign s.holders r (insert q (s.holders r)) }
    else none
  | .forget r =>
    if p ∈ s.holders r ∧ s.holders r ≠ {p} ∧ (s.entry r.1).lock ≠ some (p, r.2) then
      some { s with holders := assign s.holders r ((s.holders r).erase p) }
    else none
  | .ilock r =>
    if p ∈ s.holders r then
      if (s.entry r.1).ref < 1 then some { s with panic := some .ilock }
      else some (s.setPc p (.wait r))
    else none
  | .iunlock r =>
    if (s.entry r.1).lock = some (p, r.2) then
      if (s.entry r.1).ref < 1 then some { s with panic := some .iunlock }
      else some (s.setEntry r.1 { s.entry r.1 with lock := none })
    else none
  | .update r d =>
    if (s.entry r.1).lock = some (p, r.2) ∧ d.type = (s.entry r.1).din.type then
      some ((s.setEntry r.1 { s.entry r.1 with din := d }).setDisk (s.entry r.1).inum d)
    else none
  | .iput r =>
    if s.MayPut p r then
      if s.LastUnlinked r.1 then
        -- `acquiresleep`, with `itable.lock` held
        if (s.entry r.1).lock = none then
          some ((s.setEntry r.1 { s.entry r.1 with lock := some (p, r.2) }).setPc p
            (.free .trunc r))
        else some { s with panic := some .schedLocks }
      else some (s.dropRef r)
    else none
  | .ialloc inum type =>
    if (s.disk inum).type = 0 ∧ type ≠ 0 then
      some (s.setDisk inum { Dinode.zero with type := type })
    else none
  | .take | .load | .free => none

/-- The next step of process `p` in an `iput` that frees the inode of `r`. -/
def freeStep (p : P) (r : Ref) : Stage → State P
  | .trunc =>
    let d := { (s.entry r.1).din with size := 0, addrs := fun _ => 0 }
    ((s.setEntry r.1 { s.entry r.1 with din := d }).setDisk (s.entry r.1).inum d).setPc p
      (.free .clear r)
  | .clear =>
    let d := { (s.entry r.1).din with type := 0 }
    ((s.setEntry r.1 { s.entry r.1 with din := d }).setDisk (s.entry r.1).inum d).setPc p
      (.free .inval r)
  | .inval =>
    (s.setEntry r.1 { s.entry r.1 with valid := false }).setPc p (.free .release r)
  | .release => (s.setEntry r.1 { s.entry r.1 with lock := none }).setPc p (.free .last r)
  | .last => (s.dropRef r).setPc p .run

/-- One step of process `p`. -/
def step (p : P) (a : Act P) : Option (State P) :=
  match s.pc p, a with
  | .run, a => s.call p a
  | .wait r, .take =>
    if (s.entry r.1).lock = none then
      some ((s.setEntry r.1 { s.entry r.1 with lock := some (p, r.2) }).setPc p (.load r))
    else none
  | .load r, .load =>
    if (s.entry r.1).valid then some (s.setPc p .run)
    else if (s.disk (s.entry r.1).inum).type = 0 then some { s with panic := some .noType }
    else some ((s.setEntry r.1
      { s.entry r.1 with din := s.disk (s.entry r.1).inum, valid := true }).setPc p .run)
  | .free stage r, .free => some (s.freeStep p r stage)
  | _, _ => none

variable {s}

theorem setPc_eq_self {p : P} {x : Pc} (h : s.pc p = x) : s.setPc p x = s := by
  rw [setPc, ← h]
  congr
  funext q
  rw [assign]
  by_cases hq : q = p
  · rw [if_pos hq, hq]
  · rw [if_neg hq]

omit [DecidableEq P] in
theorem setEntry_eq_self {k : Slot} : s.setEntry k (s.entry k) = s := by
  rw [setEntry]
  congr
  funext j
  rw [assign]
  by_cases hj : j = k
  · rw [if_pos hj, hj]
  · rw [if_neg hj]

end State

/-- Any processes, from an empty table and any disk. A panic stops the kernel. -/
def machine (P : Type) [DecidableEq P] : Machine (State P) (P × Act P) where
  init s := (∀ k, (s.entry k).ref = 0 ∧ (s.entry k).lock = none ∧ s.refs k = ∅) ∧
    (∀ r, s.holders r = ∅) ∧ (∀ p, s.pc p = .run) ∧ s.panic = none
  step s a := if s.panic = none then s.step a.1 a.2 else none

/-! ## The invariant -/

variable {s s' : State P} {p : P} {r : Ref} {k : Slot}

/-- The copy in a valid entry is what the disk has, and of an inode that is not free. -/
def Current (s : State P) (k : Slot) : Prop :=
  (s.entry k).valid = true →
    (s.entry k).din = s.disk (s.entry k).inum ∧ (s.entry k).din.type ≠ 0

/-- The references are counted, and no inode has two entries. -/
structure Counted (s : State P) : Prop where
  ref : ∀ k, (s.entry k).ref = (s.refs k).card
  held : ∀ r p, p ∈ s.holders r → r.2 ∈ s.refs r.1
  unique : ∀ j k, 0 < (s.entry j).ref → 0 < (s.entry k).ref →
    (s.entry j).inum = (s.entry k).inum → j = k

/-- Who has a lock or waits for one holds a reference; who frees an inode holds it alone, and has the lock
until `releasesleep`. -/
structure Locking (s : State P) : Prop where
  lock : ∀ k p t, (s.entry k).lock = some (p, t) → p ∈ s.holders (k, t)
  wait : ∀ p r, s.pc p = .wait r → p ∈ s.holders r
  load : ∀ p r, s.pc p = .load r → (s.entry r.1).lock = some (p, r.2)
  free : ∀ p stage r, s.pc p = .free stage r → s.holders r = {p} ∧
    ((s.entry r.1).lock = some (p, r.2) ↔ stage ≠ .last)

/-- The entries are current, but for one that an `iput` has freed on disk and not yet marked invalid. Who
has the lock has a valid entry, outside of these functions. -/
structure Contents (s : State P) : Prop where
  current : ∀ k, 0 < (s.entry k).ref → Current s k ∨ ∃ p t, s.pc p = .free .inval (k, t)
  loaded : ∀ k p t, (s.entry k).lock = some (p, t) → (s.entry k).valid = true ∨
    s.pc p = .load (k, t) ∨ ∃ stage, s.pc p = .free stage (k, t)

structure Inv (s : State P) : Prop extends Counted s, Locking s, Contents s

/-- What `p` may do to an entry that keeps its inode and its count: the contents `e` it leaves there, and
where it goes. -/
inductive Change {P : Type} (s : State P) (p : P) (r : Ref) : Entry P → Pc → Prop where
  | lock {x : Pc} (hp : p ∈ s.holders r) (hl : (s.entry r.1).lock = none)
      (hpc : s.pc p = .wait r ∧ x = .load r ∨
        s.pc p = .run ∧ s.holders r = {p} ∧ x = .free .trunc r) :
      Change s p r { s.entry r.1 with lock := some (p, r.2) } x
  | unlock {x : Pc} (hl : (s.entry r.1).lock = some (p, r.2))
      (hpc : s.pc p = .run ∧ x = .run ∨ s.pc p = .free .release r ∧ x = .free .last r) :
      Change s p r { s.entry r.1 with lock := none } x
  | load {e : Entry P} (hpc : s.pc p = .load r)
      (he : e = s.entry r.1 ∧ e.valid = true ∨
        e = { s.entry r.1 with din := s.disk (s.entry r.1).inum, valid := true } ∧
          (s.disk (s.entry r.1).inum).type ≠ 0) : Change s p r e .run
  | invalidate (hpc : s.pc p = .free .inval r) (hl : (s.entry r.1).lock = some (p, r.2)) :
      Change s p r { s.entry r.1 with valid := false } (.free .release r)

namespace Inv

variable (h : Inv s)
include h

omit [DecidableEq P] in
theorem ref_pos {p : P} (hp : p ∈ s.holders r) : 0 < (s.entry r.1).ref := by
  rw [h.ref]
  exact card_pos.mpr ⟨r.2, h.held r p hp⟩

omit [DecidableEq P] in
theorem eq_of_ref_eq_one {t t' : ℕ} (h1 : (s.entry k).ref = 1) (ht : t ∈ s.refs k)
    (ht' : t' ∈ s.refs k) : t = t' := by
  rw [h.ref, card_eq_one] at h1
  obtain ⟨a, ha⟩ := h1
  rw [ha, mem_singleton] at ht ht'
  rw [ht, ht']

omit [DecidableEq P] in
theorem lock_eq_none (h0 : (s.entry k).ref = 0) : (s.entry k).lock = none := by
  rw [eq_none_iff_forall_ne_some]
  rintro ⟨q, t⟩ hqt
  exact (h.ref_pos (h.lock k q t hqt)).ne' h0

omit [DecidableEq P] in
theorem lock_of_mayPut (hput : s.MayPut p r) (h1 : (s.entry r.1).ref = 1) :
    (s.entry r.1).lock = none ∧ ∀ q r', s.pc q = .wait r' → r'.1 ≠ r.1 := by
  obtain ⟨hpc, hholders, hlock⟩ := hput
  have hmem : p ∈ s.holders r := by
    rw [hholders]
    exact mem_singleton_self p
  -- who uses the entry does so by the reference that `p` alone holds
  have hsole : ∀ q t, q ∈ s.holders (r.1, t) → t = r.2 ∧ q = p := by
    intro q t hq
    have ht : t = r.2 := h.eq_of_ref_eq_one h1 (h.held (r.1, t) q hq) (h.held r p hmem)
    refine ⟨ht, ?_⟩
    rw [ht] at hq
    rwa [Prod.mk.eta, hholders, mem_singleton] at hq
  refine ⟨?_, fun q r' hq hr' => ?_⟩
  · rw [eq_none_iff_forall_ne_some]
    rintro ⟨q, t⟩ hqt
    obtain ⟨rfl, rfl⟩ := hsole q t (h.lock _ _ _ hqt)
    exact hlock hqt
  · have hwait := h.wait q r' hq
    obtain ⟨k', t'⟩ := r'
    obtain rfl : k' = r.1 := hr'
    obtain ⟨-, rfl⟩ := hsole q t' hwait
    rw [hpc] at hq
    cases hq

variable {e : Entry P} {inum : ℕ}

omit h [DecidableEq P] in
theorem iget_eq_some (hget : s.iget inum = some (k, e)) :
    (0 < (s.entry k).ref ∧ e = { s.entry k with ref := (s.entry k).ref + 1 }) ∨
    ((s.entry k).ref = 0 ∧ (∀ j, 0 < (s.entry j).ref → (s.entry j).inum ≠ inum) ∧
      e = { s.entry k with inum := inum, ref := 1, valid := false }) := by
  unfold State.iget at hget
  split at hget
  · next j hj =>
    obtain ⟨rfl, rfl⟩ := Prod.mk.inj (Option.some.inj hget)
    have hpos := List.find?_some hj
    rw [decide_eq_true_eq] at hpos
    exact .inl ⟨hpos.1, rfl⟩
  · next hnone =>
    obtain ⟨j, hj, heq⟩ := map_eq_some_iff.mp hget
    obtain ⟨rfl, rfl⟩ := Prod.mk.inj heq
    have hzero := List.find?_some hj
    rw [decide_eq_true_eq] at hzero
    refine .inr ⟨hzero, fun i hi hinum => ?_, rfl⟩
    exact List.find?_eq_none.mp hnone i (List.mem_finRange i) (decide_eq_true ⟨hi, hinum⟩)

omit [DecidableEq P] in
theorem addRef {t : ℕ} (ht : t ∉ s.refs k) (hl : e.lock = (s.entry k).lock)
    (hr : e.ref = (s.entry k).ref + 1)
    (he : (0 < (s.entry k).ref ∧ e = { s.entry k with ref := e.ref }) ∨
      ((s.entry k).ref = 0 ∧ e.valid = false ∧ ∀ j, 0 < (s.entry j).ref → (s.entry j).inum ≠ e.inum)) :
    Inv (s.addRef p k t e) := by
  -- nobody holds the reference yet, and nobody has a lock on a free entry
  have hnew : ∀ q, q ∉ s.holders (k, t) := fun q hq => ht (h.held _ _ hq)
  have hnone : (s.entry k).ref = 0 → (s.entry k).lock = none := fun h0 => h.lock_eq_none h0
  refine ⟨?_, ?_, ?_⟩
  · obtain ⟨href, hheld, hunique⟩ := h.toCounted
    constructor <;> simp only [State.addRef, assign] <;> grind -linarith
  · obtain ⟨hlock, hwait, hload, hfree⟩ := h.toLocking
    constructor <;> simp only [State.addRef, assign] <;> grind -linarith
  · obtain ⟨hcurrent, hloaded⟩ := h.toContents
    constructor <;> simp only [State.addRef, assign, Current] at hcurrent ⊢ <;> grind -linarith

theorem dropRef (hp : s.holders r = {p}) (hl : (s.entry r.1).lock ≠ some (p, r.2))
    (hpc : s.pc p = .run ∨ s.pc p = .free .last r) : Inv ((s.dropRef r).setPc p .run) := by
  have hmem : r.2 ∈ s.refs r.1 := h.held r p (hp ▸ mem_singleton_self p)
  refine ⟨?_, ?_, ?_⟩
  · obtain ⟨href, hheld, hunique⟩ := h.toCounted
    constructor <;> simp only [State.dropRef, State.setPc, assign] <;> grind -linarith
  · obtain ⟨hlock, hwait, hload, hfree⟩ := h.toLocking
    constructor <;> simp only [State.dropRef, State.setPc, assign] <;> grind -linarith
  · obtain ⟨hcurrent, hloaded⟩ := h.toContents
    constructor <;> simp only [State.dropRef, State.setPc, assign, Current] at hcurrent ⊢ <;>
      grind -linarith

omit [DecidableEq P] in
theorem setHolders {x : Finset P} (hr : r.2 ∈ s.refs r.1)
    (hx : ∀ q ∈ s.holders r, q ∈ x ∨ (s.pc q = .run ∧ (s.entry r.1).lock ≠ some (q, r.2)))
    (hnot : ∀ q stage, s.pc q ≠ .free stage r) : Inv { s with holders := assign s.holders r x } := by
  refine ⟨?_, ?_, { h.toContents with }⟩
  · obtain ⟨href, hheld, hunique⟩ := h.toCounted
    constructor <;> simp only [assign] <;> grind -linarith
  · obtain ⟨hlock, hwait, hload, hfree⟩ := h.toLocking
    constructor <;> simp only [assign] <;> grind -linarith

theorem setWait (hpc : s.pc p = .run) (hp : p ∈ s.holders r) : Inv (s.setPc p (.wait r)) := by
  refine ⟨{ h.toCounted with }, ?_, ?_⟩
  · obtain ⟨hlock, hwait, hload, hfree⟩ := h.toLocking
    constructor <;> simp only [State.setPc, assign] <;> grind -linarith
  · obtain ⟨hcurrent, hloaded⟩ := h.toContents
    constructor <;> simp only [State.setPc, assign, Current] at hcurrent ⊢ <;> grind -linarith

variable {x : Pc}

theorem change (hc : Change s p r e x) : Inv ((s.setEntry r.1 e).setPc p x) := by
  refine ⟨?_, ?_, ?_⟩
  · obtain ⟨href, hheld, hunique⟩ := h.toCounted
    cases hc <;> constructor <;> simp only [State.setEntry, State.setPc, assign] <;> grind -linarith
  · obtain ⟨hlock, hwait, hload, hfree⟩ := h.toLocking
    cases hc <;> constructor <;> simp only [State.setEntry, State.setPc, assign] <;> grind -linarith
  · obtain ⟨hcurrent, hloaded⟩ := h.toContents
    cases hc <;> constructor <;>
      simp only [State.setEntry, State.setPc, assign, Current] at hcurrent ⊢ <;> grind -linarith

variable {d : Dinode}

theorem write (hl : (s.entry r.1).lock = some (p, r.2)) (hpc : d.type = (s.entry r.1).din.type ∧
        (s.pc p = .run ∧ x = .run ∨ s.pc p = .free .trunc r ∧ x = .free .clear r) ∨
      s.pc p = .free .clear r ∧ x = .free .inval r) :
    Inv (((s.setEntry r.1 { s.entry r.1 with din := d }).setDisk (s.entry r.1).inum d).setPc p
      x) := by
  -- no other entry is for this inode
  have hpos := h.ref_pos (h.lock _ _ _ hl)
  have hother : ∀ j, 0 < (s.entry j).ref → (s.entry j).inum = (s.entry r.1).inum → j = r.1 :=
    fun j hj => h.unique j r.1 hj hpos
  refine ⟨?_, ?_, ?_⟩
  · obtain ⟨href, hheld, hunique⟩ := h.toCounted
    constructor <;> simp only [State.setEntry, State.setDisk, State.setPc, assign] <;>
      grind -linarith
  · obtain ⟨hlock, hwait, hload, hfree⟩ := h.toLocking
    constructor <;> simp only [State.setEntry, State.setDisk, State.setPc, assign] <;>
      grind -linarith
  · obtain ⟨hcurrent, hloaded⟩ := h.toContents
    have hfree := h.free
    constructor <;>
      simp only [State.setEntry, State.setDisk, State.setPc, assign, Current] at hcurrent ⊢ <;>
      grind -linarith

omit [DecidableEq P] in
theorem setDisk (h0 : (s.disk inum).type = 0) : Inv (s.setDisk inum d) := by
  refine ⟨{ h.toCounted with }, { h.toLocking with }, ?_⟩
  · obtain ⟨hcurrent, hloaded⟩ := h.toContents
    constructor <;> simp only [State.setDisk, assign, Current] at hcurrent ⊢ <;> grind -linarith

variable {a : Act P}

theorem call (hpc : s.pc p = .run) (hstep : s.call p a = some s') :
    Inv s' ∧ (s'.panic = s.panic ∨ s'.panic = some .noInodes) := by
  have hself : ∀ s1 : State P, s1.pc = s.pc → s1.setPc p .run = s1 := fun s1 heq =>
    State.setPc_eq_self (by rw [heq, hpc])
  cases a with
  | iget inum t =>
    simp only [State.call] at hstep
    split at hstep
    · cases hstep
      exact ⟨{ h with }, .inr rfl⟩
    · next k e hget =>
      rw [ite_none_left_eq_some] at hstep
      obtain ⟨ht, hstep⟩ := hstep
      cases hstep
      rcases iget_eq_some hget with ⟨hpos, rfl⟩ | ⟨hzero, hnone, rfl⟩
      · exact ⟨h.addRef ht rfl rfl (.inl ⟨hpos, rfl⟩), .inl rfl⟩
      · exact ⟨h.addRef ht rfl (by rw [hzero]) (.inr ⟨hzero, rfl, hnone⟩), .inl rfl⟩
  | idup r t =>
    simp only [State.call, ite_none_right_eq_some, Option.some.injEq] at hstep
    obtain ⟨⟨hp, ht⟩, rfl⟩ := hstep
    exact ⟨h.addRef ht rfl rfl (.inl ⟨h.ref_pos hp, rfl⟩), .inl rfl⟩
  | share r q =>
    simp only [State.call, ite_none_right_eq_some, Option.some.injEq] at hstep
    obtain ⟨hp, rfl⟩ := hstep
    refine ⟨h.setHolders (h.held r p hp)
      (fun q' hq' => .inl (mem_insert_of_mem hq')) fun q' stage hq' => ?_, .inl rfl⟩
    rw [(h.free _ _ _ hq').1, mem_singleton] at hp
    rw [← hp, hpc] at hq'
    cases hq'
  | forget r =>
    simp only [State.call, ite_none_right_eq_some, Option.some.injEq] at hstep
    obtain ⟨⟨hp, hne, hl⟩, rfl⟩ := hstep
    refine ⟨h.setHolders (h.held r p hp) (fun q' hq' => ?_) fun q' stage hq' => ?_, .inl rfl⟩
    · by_cases hq : q' = p
      · exact .inr (hq ▸ ⟨hpc, hl⟩)
      · exact .inl (mem_erase.mpr ⟨hq, hq'⟩)
    · rw [(h.free _ _ _ hq').1, mem_singleton] at hp
      rw [← hp, hpc] at hq'
      cases hq'
  | ilock r =>
    simp only [State.call, ite_none_right_eq_some] at hstep
    obtain ⟨hp, hstep⟩ := hstep
    rw [if_neg (Nat.not_lt.mpr (h.ref_pos hp))] at hstep
    cases hstep
    exact ⟨h.setWait hpc hp, .inl rfl⟩
  | iunlock r =>
    simp only [State.call, ite_none_right_eq_some] at hstep
    obtain ⟨hl, hstep⟩ := hstep
    rw [if_neg (Nat.not_lt.mpr (h.ref_pos (h.lock _ _ _ hl)))] at hstep
    cases hstep
    rw [← hself _ rfl]
    exact ⟨h.change (.unlock hl (.inl ⟨hpc, rfl⟩)), .inl rfl⟩
  | update r d =>
    simp only [State.call, ite_none_right_eq_some, Option.some.injEq] at hstep
    obtain ⟨⟨hl, ht⟩, rfl⟩ := hstep
    rw [← hself _ rfl]
    exact ⟨h.write hl (.inl ⟨ht, .inl ⟨hpc, rfl⟩⟩), .inl rfl⟩
  | iput r =>
    simp only [State.call, ite_none_right_eq_some] at hstep
    obtain ⟨hput, hstep⟩ := hstep
    split at hstep
    · next hlast =>
      have hnone := (h.lock_of_mayPut hput hlast.1).1
      rw [if_pos hnone] at hstep
      cases hstep
      exact ⟨h.change (.lock (hput.2.1 ▸ mem_singleton_self p) hnone
        (.inr ⟨hpc, hput.2.1, rfl⟩)), .inl rfl⟩
    · cases hstep
      rw [← hself _ rfl]
      exact ⟨h.dropRef hput.2.1 hput.2.2 (.inl hpc), .inl rfl⟩
  | ialloc inum type =>
    simp only [State.call, ite_none_right_eq_some, Option.some.injEq] at hstep
    obtain ⟨⟨h0, _⟩, rfl⟩ := hstep
    exact ⟨h.setDisk h0, .inl rfl⟩
  | take | load | free => cases hstep

theorem freeStep {stage : Stage} (hpc : s.pc p = .free stage r) : Inv (s.freeStep p r stage) := by
  obtain ⟨hp, hl⟩ := h.free p stage r hpc
  cases stage with
  | trunc => exact h.write (hl.mpr (by decide)) (.inl ⟨rfl, .inr ⟨hpc, rfl⟩⟩)
  | clear => exact h.write (hl.mpr (by decide)) (.inr ⟨hpc, rfl⟩)
  | inval => exact h.change (.invalidate hpc (hl.mpr (by decide)))
  | release => exact h.change (.unlock (hl.mpr (by decide)) (.inr ⟨hpc, rfl⟩))
  | last => exact h.dropRef hp (fun hl' => hl.mp hl' rfl) (.inr hpc)

/-- A step keeps the invariant, and the kernel panics only in `iget` and `ilock`. -/
theorem step (hstep : s.step p a = some s') :
    Inv s' ∧ (s'.panic = s.panic ∨ s'.panic = some .noInodes ∨ s'.panic = some .noType) := by
  unfold State.step at hstep
  split at hstep
  · next a hpc =>
    obtain ⟨hinv, hpanic⟩ := h.call hpc hstep
    exact ⟨hinv, hpanic.imp_right .inl⟩
  · next r hpc =>
    rw [ite_none_right_eq_some] at hstep
    obtain ⟨hnone, hstep⟩ := hstep
    cases hstep
    exact ⟨h.change (.lock (h.wait p r hpc) hnone (.inl ⟨hpc, rfl⟩)), .inl rfl⟩
  · next r hpc =>
    split at hstep
    · next hvalid =>
      cases hstep
      have hsame : s.setEntry r.1 (s.entry r.1) = s := State.setEntry_eq_self
      have hrun := h.change (.load hpc (.inl ⟨rfl, hvalid⟩))
      rw [hsame] at hrun
      exact ⟨hrun, .inl rfl⟩
    split at hstep
    · cases hstep
      exact ⟨{ h with }, .inr (.inr rfl)⟩
    · next htype =>
      cases hstep
      exact ⟨h.change (.load hpc (.inr ⟨rfl, htype⟩)), .inl rfl⟩
  · next stage r hpc =>
    cases hstep
    exact ⟨h.freeStep hpc, .inl (by cases stage <;> rfl)⟩
  · cases hstep

end Inv

/-! ## What holds in every state -/

theorem Inv.of_init (h : (machine P).init s) : Inv s := by
  obtain ⟨hentry, hholders, hpc, -⟩ := h
  refine ⟨⟨fun k => ?_, fun r p hp => ?_, fun j k hj => ?_⟩, ⟨fun k p t hl => ?_,
    fun p r hr => ?_, fun p r hr => ?_, fun p stage r hr => ?_⟩, fun k hk => ?_,
    fun k p t hl => ?_⟩
  · rw [(hentry k).1, (hentry k).2.2, card_empty]
  · rw [hholders] at hp
    exact absurd hp (notMem_empty p)
  · rw [(hentry j).1] at hj
    exact absurd hj (Nat.lt_irrefl 0)
  · rw [(hentry k).2.1] at hl
    cases hl
  · rw [hpc] at hr
    cases hr
  · rw [hpc] at hr
    cases hr
  · rw [hpc] at hr
    cases hr
  · rw [(hentry k).1] at hk
    exact absurd hk (Nat.lt_irrefl 0)
  · rw [(hentry k).2.1] at hl
    cases hl

theorem inv_of_reachable (h : (machine P).Reachable s) :
    Inv s ∧ (s.panic = none ∨ s.panic = some .noInodes ∨ s.panic = some .noType) := by
  refine h.invariant
    (fun s => Inv s ∧ (s.panic = none ∨ s.panic = some .noInodes ∨ s.panic = some .noType))
    (fun s hs => ⟨.of_init hs, .inl hs.2.2.2⟩) fun s a s' hs hstep => ?_
  change (if s.panic = none then s.step a.1 a.2 else none) = some s' at hstep
  rw [ite_none_right_eq_some] at hstep
  obtain ⟨hinv, hpanic⟩ := hs.1.step hstep.2
  exact ⟨hinv, hpanic.imp_left fun heq => heq.trans hstep.1⟩

/-- **Freeing an inode does not block, and is not seen by others.** In every interleaving: `iput` never
sleeps with `itable.lock` held, since when it finds the last reference to an inode without links nobody
has the lock or waits for it; until it has marked the entry invalid and released the lock, nobody else has
the lock; and who has the lock and has read the inode sees what is on disk, of an inode that is not
free. -/
theorem iput_frees_alone (h : (machine P).Reachable s) :
    s.panic ≠ some .schedLocks ∧
    (∀ p r, s.MayPut p r → s.LastUnlinked r.1 →
      (s.entry r.1).lock = none ∧ ∀ q r', s.pc q = .wait r' → r'.1 ≠ r.1) ∧
    (∀ p stage r, s.pc p = .free stage r → stage ≠ .last →
      ∀ q t, (s.entry r.1).lock = some (q, t) → q = p) ∧
    ∀ k q t, (s.entry k).lock = some (q, t) → s.pc q = .load (k, t) ∨
      (∃ stage, s.pc q = .free stage (k, t)) ∨ ((s.entry k).valid = true ∧
        (s.entry k).din = s.disk (s.entry k).inum ∧ (s.entry k).din.type ≠ 0) := by
  obtain ⟨hinv, hpanic⟩ := inv_of_reachable h
  refine ⟨?_, fun p r hput hlast => hinv.lock_of_mayPut hput hlast.1, fun p stage r hpc hlast q t hq => ?_,
    fun k q t hq => ?_⟩
  · rcases hpanic with hp | hp | hp <;> rw [hp] <;> decide
  · rw [(hinv.free p stage r hpc).2.mpr hlast] at hq
    exact (congrArg Prod.fst (Option.some.inj hq)).symm
  · rcases hinv.loaded k q t hq with hvalid | hload | hfree
    · rcases hinv.current k (hinv.ref_pos (hinv.lock k q t hq)) with hcur | ⟨p', t', hpc⟩
      · exact .inr (.inr ⟨hvalid, hcur hvalid⟩)
      · -- the process that frees the inode has the lock
        have hl := (hinv.free p' .inval (k, t') hpc).2.mpr (by decide)
        obtain ⟨rfl, rfl⟩ := Prod.mk.inj (Option.some.inj (hl.symm.trans hq))
        exact .inr (.inl ⟨_, hpc⟩)
    · exact .inl hload
    · exact .inr (.inl hfree)

/-- An empty table, and a disk on which every inode is a file without links. -/
def unlinkedDisk : State (Fin 2) where
  entry _ := ⟨0, 0, false, .zero, none⟩
  disk _ := { Dinode.zero with type := 2 }
  refs _ := ∅
  holders _ := ∅
  pc _ := .run
  panic := none

local instance neZero2 : NeZero 2 := ⟨by decide⟩

/-- Process 0 has locked an inode while process 1 had a reference to it, and has the last one now. -/
def lastPut : List (Fin 2 × Act (Fin 2)) :=
  [(0, .iget 5 0), (1, .iget 5 1), (0, .ilock (0, 0)), (0, .take), (0, .load), (0, .iunlock (0, 0)),
    (1, .iput (0, 1))]

theorem iput_frees_alone_last : ∃ s, (machine (Fin 2)).run unlinkedDisk lastPut = some s ∧
    s.MayPut 0 (0, 0) ∧ s.LastUnlinked 0 ∧ (s.entry 0).lock = none := by
  obtain ⟨s, hrun, hput, hlast⟩ : ∃ s, (machine (Fin 2)).run unlinkedDisk lastPut = some s ∧
      s.MayPut 0 (0, 0) ∧ s.LastUnlinked 0 := ⟨_, rfl, by decide, by decide⟩
  have hinit : (machine (Fin 2)).init unlinkedDisk :=
    ⟨fun _ => ⟨rfl, rfl, rfl⟩, fun _ => rfl, fun _ => rfl, rfl⟩
  have hall := iput_frees_alone ((Machine.Reachable.init hinit).of_run lastPut hrun)
  exact ⟨s, hrun, hput, hlast, (hall.2.1 0 (0, 0) hput hlast).1⟩

end Xv6.Freeing
