import Xv6.Itable.Calls
import Xv6.Lib.Counting

/-!
# Who holds the references

What a process owns (`Own`): references to inodes and files, counted, among them those of its descriptors
and its current directory; the inode locks it holds; the file slots it has allocated and not yet filled
in; and the ends of pipes that it is to close or to give to a file. `Rule` says what an operation takes
from its process and gives to it. `Inv` ties that to the tables: a reference count is the number of the
references that somebody owns, where an open file owns one to its inode, and an end of a pipe is open if
a file or a process owns it. Every operation keeps it, in any interleaving (`sound_exec`).
-/

namespace Xv6.Itable

open Fs Lib Function Multiset Option

/-- An end of the pipe in a page, the one for writing if `some true`; `none` is the page itself once both
ends are closed. -/
abbrev PipeEnd := ℕ × Option Bool

/-- What a process owns. -/
structure Own where
  /-- its record, which only it changes while it is alive -/
  proc : Proc
  inodes : Multiset Slot
  locks : Multiset Slot
  files : Multiset FileSlot
  /-- slots from `filealloc` that have not been filled in -/
  fresh : Multiset FileSlot
  ends : Multiset PipeEnd
  /-- it is in `piperead` or `pipewrite`: the file and the page of the pipe -/
  inPipe : Option (FileSlot × ℕ)
  inOp : Bool
  /-- the child that `fork` is setting up -/
  child : Option (ProcSlot × Proc)

/-- The record of a process slot that has no files. -/
def Proc.blank (state : ProcState) : Proc := { state := state, ofile := fun _ => none, cwd := none }

/-- Outside system calls a process owns the references of its descriptors and its current directory. -/
structure Idle (g : Own) : Prop where
  inodes : ∀ k, g.inodes.count k = if g.proc.cwd = some k then 1 else 0
  locks : g.locks = 0
  files : ∀ f, g.files.count f = countAt g.proc.ofile (some f)
  fresh : g.fresh = 0
  ends : g.ends = 0
  inPipe : g.inPipe = none
  inOp : g.inOp = false
  child : g.child = none

/-- The panics that the rules exclude. -/
def Excluded : Panic → Prop
  | .file _ | .nestedOp | .ilock | .freedPipe => True
  | _ => False

/-- The reference that an open file has. -/
def fileInodes (x : File) : Multiset Slot := x.inode?.elim 0 fun k => {k}

section

variable {α : Type} [DecidableEq α]

theorem ite_some_eq (a b : α) : (if some b = some a then 1 else 0) = if a = b then 1 else 0 :=
  if_congr ⟨fun he => (some.inj he).symm, fun he => by rw [he]⟩ rfl rfl

theorem count_singleton_some (b a : α) :
    ({b} : Multiset α).count a = if some b = some a then 1 else 0 := by
  rw [ite_some_eq, count_singleton]

theorem count_elim (o : Option α) (a : α) :
    (o.elim 0 fun b => ({b} : Multiset α)).count a = if o = some a then 1 else 0 := by
  cases o with
  | none => rfl
  | some b => exact count_singleton_some b a

end

theorem count_fileInodes (x : File) (k : Slot) :
    (fileInodes x).count k = if x.inode? = some k then 1 else 0 := count_elim x.inode? k

/-- The end of a pipe that an open file has. -/
def pipeEnd (x : File) : Option PipeEnd :=
  if x.type = .pipe then some (x.pipe, some x.writable) else none

/-- The ends of pipes that an open file has. -/
def fileEnds (x : File) : Multiset PipeEnd := (pipeEnd x).elim 0 fun e => {e}

theorem count_fileEnds (x : File) (e : PipeEnd) :
    (fileEnds x).count e = if pipeEnd x = some e then 1 else 0 := count_elim (pipeEnd x) e

/-- The page of the pipe whose ends the operation takes. -/
def Op.page : Op → Option ℕ
  | .setPipe _ pi _ | .pipeclose pi _ | .kfree pi => some pi
  | _ => none

/-- The process is alive. It has no ends in hand but those of the pipe that its next operation takes. -/
def Own.Runs (g : Own) (page : Option ℕ) : Prop :=
  g.proc.state = .live ∧ ∀ e ∈ g.ends, page = some e.1

/-- A process that owns `g` may perform the operation if what follows needs `R`. -/
def Rule (o : Op) (R : o.Res → Own → Prop) (g : Own) : Prop :=
  g.Runs o.page ∧
  match o with
  | .beginOp => g.inOp = false ∧ R () { g with inOp := true }
  | .endOp => R () { g with inOp := false }
  | .panic e => ¬ Excluded e
  | .iget _ _ => ∀ k, R k { g with inodes := k ::ₘ g.inodes }
  | .idup k => k ∈ g.inodes ∧ R () { g with inodes := k ::ₘ g.inodes }
  | .ilock k => k ∈ g.inodes ∧ R () { g with locks := k ::ₘ g.locks }
  | .iunlock k => ∃ l, g.locks = k ::ₘ l ∧ R () { g with locks := l }
  | .iputFirst k => ∃ i, g.inodes = k ::ₘ i ∧ R false { g with inodes := i } ∧
      R true { g with locks := k ::ₘ g.locks }
  | .iputFree k => ∃ l, g.locks = k ::ₘ l ∧ R () { g with locks := l }
  | .iputLast k => ∃ i, g.inodes = k ::ₘ i ∧ R () { g with inodes := i }
  | .inode _ => ∀ x, R x g
  | .setNlink k _ => k ∈ g.locks ∧ R () g
  | .setNew k _ => k ∈ g.locks ∧ R () g
  | .lookup _ _ => ∀ r, R r g
  | .ifind _ _ => ∀ r, R r g
  | .succeeds => ∀ r, R r g
  | .filealloc => R none g ∧
      ∀ f, R (some f) { g with files := f ::ₘ g.files, fresh := f ::ₘ g.fresh }
  | .filedup f => f ∈ g.files ∧ f ∉ g.fresh ∧ R () { g with files := f ::ₘ g.files }
  | .unref .fail f => ∃ x y, g.files = f ::ₘ x ∧ g.fresh = f ::ₘ y ∧ g.inPipe = none ∧
      ∀ ff, ff.type = .none → R (some ff) { g with files := x, fresh := y }
  | .unref .close f => ∃ x, g.files = f ::ₘ x ∧ f ∉ g.fresh ∧ g.inPipe = none ∧
      R none { g with files := x } ∧ ∀ ff, R (some ff) { g with
        files := x, inodes := fileInodes ff + g.inodes, ends := fileEnds ff + g.ends }
  | .setInode f k _ _ _ _ => ∃ i y, g.inodes = k ::ₘ i ∧ g.fresh = f ::ₘ y ∧
      R () { g with inodes := i, fresh := y }
  | .setPipe f pi writable => ∃ y e, g.fresh = f ::ₘ y ∧ g.ends = (pi, some writable) ::ₘ e ∧
      R () { g with fresh := y, ends := e }
  | .pipe => R none g ∧
      ∀ pi, R (some pi) { g with ends := (pi, some false) ::ₘ (pi, some true) ::ₘ g.ends }
  | .pipeclose pi writable => g.ends = {(pi, some writable)} ∧
      R false { g with ends := 0 } ∧ R true { g with ends := {(pi, none)} }
  | .kfree pi => ∃ e, g.ends = (pi, none) ::ₘ e ∧ R () { g with ends := e }
  | .file f => f ∈ g.files ∧ f ∉ g.fresh ∧ ∀ x, R x g ∨
      x.type = .pipe ∧ g.inPipe = none ∧ R x { g with inPipe := some (f, x.pipe) }
  | .pipeTurn pi _ => ∃ f, g.inPipe = some (f, pi) ∧ ∀ b, R b { g with inPipe := none } ∨ R b g
  | .setOfile fd f => R () { g with proc.ofile := assign g.proc.ofile fd f }
  | .setCwd ip => R () { g with proc.cwd := ip }
  | .allocproc => g.child = none ∧ R none g ∧
      ∀ np, R (some np) { g with child := some (np, .blank .used) }
  | .freeproc np => g.child = some (np, .blank .used) ∧ R () { g with child := none }
  | .childOfile np fd f => ∃ c x, g.child = some (np, c) ∧ c.ofile fd = none ∧
      g.files = f ::ₘ x ∧ f ∉ g.fresh ∧ g.inPipe = none ∧ R () { g with
        files := x, child := some (np, { c with ofile := assign c.ofile fd (some f) }) }
  | .childCwd np k => ∃ c i, g.child = some (np, c) ∧ c.cwd = none ∧ g.inodes = k ::ₘ i ∧
      R () { g with inodes := i, child := some (np, { c with cwd := some k }) }
  | .runnable np => ∃ c, g.child = some (np, c) ∧ R () { g with child := none }
  | .zombie => g.proc.ofile = (fun _ => none) ∧ g.proc.cwd = none ∧ Idle g ∧
      R () { g with proc.state := .zombie }
  | .reap => R () g

theorem Rule.mono {o : Op} {R R' : o.Res → Own → Prop} {g : Own}
    (hR : ∀ r g', R r g' → R' r g') (h : Rule o R g) : Rule o R' g := by
  obtain ⟨hlive, h⟩ := h
  refine ⟨hlive, ?_⟩
  cases o with
  | unref site f =>
    cases site with
    | close =>
      obtain ⟨x, hx, hf, hin, hnone, hsome⟩ := h
      exact ⟨x, hx, hf, hin, hR _ _ hnone, fun ff => hR _ _ (hsome ff)⟩
    | fail =>
      obtain ⟨x, y, hx, hy, hin, h⟩ := h
      exact ⟨x, y, hx, hy, hin, fun ff hff => hR _ _ (h ff hff)⟩
  | _ => grind

/-- The rules of every process. -/
def rules : Rules Op.Res Own where
  op := Rule
  mono := Rule.mono

variable {fd : Fin NOFILE} {ofile : Ofile}

theorem countAt_assign_some (h : ofile fd = none) (f f' : FileSlot) :
    countAt (assign ofile fd (some f)) (some f') =
      countAt ofile (some f') + if f' = f then 1 else 0 := by
  have hcount := countAt_update ofile fd (some f) (some f')
  rw [h, if_neg (some_ne_none f').symm, ← assign_eq_update, ite_some_eq] at hcount
  exact hcount

theorem countAt_assign_none {f : FileSlot} (h : ofile fd = some f) (f' : FileSlot) :
    countAt (assign ofile fd none) (some f') + (if f' = f then 1 else 0) =
      countAt ofile (some f') := by
  have hcount := countAt_update ofile fd none (some f')
  rw [h, if_neg (some_ne_none f').symm, ← assign_eq_update, ite_some_eq] at hcount
  exact hcount

/-! ## The invariant -/

/-- The number of open files that refer to inode `k`. -/
def fileRefs (t : Ftable) (k : Slot) : ℕ := countAt (fun f => (t f).inode?) (some k)

/-- At most one entry in use for each inode. -/
def Unique (t : Slot → Inode) : Prop :=
  ∀ j k, 0 < (t j).ref → 0 < (t k).ref → (t j).dev = (t k).dev → (t j).inum = (t k).inum → j = k

/-- The number of open files that have an end of a pipe. -/
def endRefs (t : Ftable) (e : PipeEnd) : ℕ := countAt (fun f => pipeEnd (t f)) (some e)

/-- An end of a pipe is open, or its page is still to be freed. -/
def openEnd : Option Pipe → Option Bool → Bool
  | some x, some true => x.writeopen
  | some x, some false => x.readopen
  | some x, none => x = ⟨false, false⟩
  | none, _ => false

def Shared.isOpen (s : Shared) (e : PipeEnd) : Bool := openEnd (s.pipe e.1) e.2

/-- A slot that a process has allocated and not filled in has one reference and no type. While a process
is in `piperead` or `pipewrite` it has a reference to a file for that pipe. -/
structure Fresh (g : Own) (t : Ftable) : Prop where
  le : g.fresh ≤ g.files
  file : ∀ f ∈ g.fresh, (t f).ref = 1 ∧ (t f).type = .none
  inPipe : ∀ f pi, g.inPipe = some (f, pi) → f ∈ g.files ∧ f ∉ g.fresh ∧
    (t f).type = .pipe ∧ (t f).pipe = pi

/-- The records of the processes are what they own, a process that is not alive owns what its record
says, and nobody else sets up the child of a `fork`. -/
structure Procs (γ : ProcSlot → Own) (s : Shared) : Prop where
  proc : ∀ p, s.proc p = (γ p).proc
  inOp : ∀ p, s.inOp p = (γ p).inOp
  child : ∀ p q c, (γ p).child = some (q, c) → (γ q).proc = c ∧ c.state = .used
  parent : ∀ p p' q c c', (γ p).child = some (q, c) → (γ p').child = some (q, c') → p = p'
  dormant : ∀ p, (γ p).proc.state ≠ .live → Idle (γ p)
  blank : ∀ p, (γ p).proc.state = .unused ∨ (γ p).proc.state = .zombie →
    (γ p).proc = .blank (γ p).proc.state

/-- The tables and what the processes own. -/
structure Inv (γ : ProcSlot → Own) (s : Shared) : Prop extends Procs γ s where
  inode : ∀ k, (s.inode k).ref = ∑ p, (γ p).inodes.count k + fileRefs s.file k
  lock : ∀ k, (s.inode k).locked.toNat = ∑ p, (γ p).locks.count k
  unique : Unique s.inode
  file : ∀ f, (s.file f).ref = ∑ p, (γ p).files.count f
  idle : ∀ f, (s.file f).ref = 0 → (s.file f).type = .none
  fresh : ∀ p, Fresh (γ p) s.file
  ends : ∀ e, (s.isOpen e).toNat = ∑ p, (γ p).ends.count e + endRefs s.file e

section

variable {γ : ProcSlot → Own} {s s' : Shared} {p q : ProcSlot} {g : Own} {k : Slot} {f : FileSlot}
  (h : Inv γ s) (hlive : (γ p).proc.state = .live)

theorem sum_update (γ : ProcSlot → Own) (p : ProcSlot) (g : Own) (φ : Own → ℕ) :
    ∑ q, φ (update γ p g q) + φ (γ p) = ∑ q, φ (γ q) + φ g := by
  have h := sum_add_eq_of_eq_off (f := fun q => φ (γ q)) (g := fun q => φ (update γ p g q)) p
    fun q hq => by rw [update_of_ne hq]
  simpa only [update_self] using h

theorem le_sum (γ : ProcSlot → Own) (p : ProcSlot) (φ : Own → ℕ) : φ (γ p) ≤ ∑ q, φ (γ q) :=
  Finset.single_le_sum (f := fun q => φ (γ q)) (fun _ _ => Nat.zero_le _) (Finset.mem_univ p)

theorem Inv.inode_pos (h : Inv γ s) (hk : k ∈ (γ p).inodes) : 0 < (s.inode k).ref := by
  have h1 := h.inode k
  have h2 := le_sum γ p fun g => g.inodes.count k
  have h3 := count_pos.mpr hk
  omega

theorem Inv.file_pos (h : Inv γ s) (hf : f ∈ (γ p).files) : 0 < (s.file f).ref := by
  have h1 := h.file f
  have h2 := le_sum γ p fun g => g.files.count f
  have h3 := count_pos.mpr hf
  omega

theorem Inv.not_fresh (h : Inv γ s) (hf : f ∈ (γ p).files) (hq : q ≠ p) : f ∉ (γ q).fresh := by
  intro hfresh
  have h1 := h.file f
  have h2 := add_le_sum_of_ne (fun q => (γ q).files.count f) hq
  have h3 := count_pos.mpr hf
  have h4 := count_pos.mpr (mem_of_le (h.fresh q).le hfresh)
  have h5 := ((h.fresh q).file f hfresh).1
  omega

theorem Inv.update (h : Inv γ s) (hlive : (γ p).proc.state = .live) (hproc : s'.proc = s.proc)
    (hg : g.proc = (γ p).proc) (hchild : g.child = (γ p).child)
    (hop : s'.inOp = Function.update s.inOp p g.inOp)
    (hinode : ∀ k, (s'.inode k).ref + ((γ p).inodes.count k + fileRefs s.file k) =
      (s.inode k).ref + (g.inodes.count k + fileRefs s'.file k))
    (hlock : ∀ k, (s'.inode k).locked.toNat + (γ p).locks.count k =
      (s.inode k).locked.toNat + g.locks.count k) (hunique : Unique s'.inode)
    (hfile : ∀ f, (s'.file f).ref + (γ p).files.count f = (s.file f).ref + g.files.count f)
    (hidle : ∀ f, (s'.file f).ref = 0 → (s'.file f).type = .none)
    (hself : Fresh g s'.file) (hother : ∀ q, q ≠ p → Fresh (γ q) s'.file)
    (hends : ∀ e, (s'.isOpen e).toNat + ((γ p).ends.count e + endRefs s.file e) =
      (s.isOpen e).toNat + (g.ends.count e + endRefs s'.file e)) : Inv (Function.update γ p g) s' := by
  have hrec : ∀ q, (Function.update γ p g q).proc = (γ q).proc := by
    intro q
    by_cases hq : q = p
    · rw [hq, update_self, hg]
    · rw [update_of_ne hq]
  have hchd : ∀ q, (Function.update γ p g q).child = (γ q).child := by
    intro q
    by_cases hq : q = p
    · rw [hq, update_self, hchild]
    · rw [update_of_ne hq]
  refine ⟨⟨fun q => ?_, fun q => ?_, fun q r c hc => ?_, fun q q' r c c' hc hc' => ?_,
    fun q hq => ?_, fun q hq => ?_⟩, fun k => ?_, fun k => ?_, hunique, fun f => ?_, hidle,
    fun q => ?_, fun e => ?_⟩
  · rw [hrec, hproc, h.proc]
  · rw [hop]
    by_cases hq : q = p
    · rw [hq, update_self, update_self]
    · rw [update_of_ne hq, update_of_ne hq, h.inOp]
  · rw [hchd] at hc
    rw [hrec]
    exact h.child q r c hc
  · rw [hchd] at hc hc'
    exact h.parent q q' r c c' hc hc'
  · rw [hrec] at hq
    have hne : q ≠ p := by
      rintro rfl
      exact hq hlive
    rw [update_of_ne hne]
    exact h.dormant q hq
  · rw [hrec] at hq ⊢
    exact h.blank q hq
  · have h1 := h.inode k
    have h2 := hinode k
    have h3 := sum_update γ p g fun g => g.inodes.count k
    omega
  · have h1 := h.lock k
    have h2 := hlock k
    have h3 := sum_update γ p g fun g => g.locks.count k
    omega
  · have h1 := h.file f
    have h2 := hfile f
    have h3 := sum_update γ p g fun g => g.files.count f
    omega
  · by_cases hq : q = p
    · rw [hq, update_self]
      exact hself
    · rw [update_of_ne hq]
      exact hother q hq
  · have h1 := h.ends e
    have h2 := hends e
    have h3 := sum_update γ p g fun g => g.ends.count e
    omega

/-! ## Operations on the inode table -/

variable {t : Slot → Inode} {x : Inode}

theorem Unique.keep (h : Unique t) (hdev : x.dev = (t k).dev) (hinum : x.inum = (t k).inum)
    (href : 0 < x.ref → 0 < (t k).ref) : Unique (assign t k x) := by
  have hent : ∀ j, (assign t k x j).dev = (t j).dev ∧ (assign t k x j).inum = (t j).inum ∧
      (0 < (assign t k x j).ref → 0 < (t j).ref) := by
    intro j
    rw [assign_eq_update]
    by_cases hj : j = k
    · subst hj
      rw [update_self]
      exact ⟨hdev, hinum, href⟩
    · rw [update_of_ne hj]
      exact ⟨rfl, rfl, id⟩
  intro i j hi hj hd hn
  rw [(hent i).1, (hent j).1] at hd
  rw [(hent i).2.1, (hent j).2.1] at hn
  exact h i j ((hent i).2.2 hi) ((hent j).2.2 hj) hd hn

theorem Unique.enter (h : Unique t)
    (hnew : ∀ j, 0 < (t j).ref → (t j).dev = x.dev → (t j).inum ≠ x.inum) : Unique (assign t k x) := by
  intro i j hi hj hd hn
  rw [assign_eq_update] at hi hj hd hn
  by_cases hik : i = k <;> by_cases hjk : j = k
  · rw [hik, hjk]
  · subst hik
    rw [update_self, update_of_ne hjk] at hd hn
    rw [update_of_ne hjk] at hj
    exact absurd hn.symm (hnew j hj hd.symm)
  · subst hjk
    rw [update_self, update_of_ne hik] at hd hn
    rw [update_of_ne hik] at hi
    exact absurd hn (hnew i hi hd)
  · rw [update_of_ne hik, update_of_ne hjk] at hd hn
    rw [update_of_ne hik] at hi
    rw [update_of_ne hjk] at hj
    exact h i j hi hj hd hn

variable {i l : Multiset Slot}

theorem Inv.locked (h : Inv γ s) (hl : (γ p).locks = k ::ₘ l) : (s.inode k).locked = true := by
  have h1 := h.lock k
  have h2 := le_sum γ p fun g => g.locks.count k
  rw [hl, count_cons_self] at h2
  cases hb : (s.inode k).locked with
  | true => rfl
  | false =>
    rw [hb] at h1
    change 0 = _ at h1
    omega

include h hlive

theorem Inv.withInode (href : x.ref + (γ p).inodes.count k = (s.inode k).ref + i.count k)
    (hi : ∀ j, j ≠ k → i.count j = (γ p).inodes.count j)
    (hlock : x.locked.toNat + (γ p).locks.count k = (s.inode k).locked.toNat + l.count k)
    (hl : ∀ j, j ≠ k → l.count j = (γ p).locks.count j) (hunique : Unique (assign s.inode k x)) :
    Inv (Function.update γ p { γ p with inodes := i, locks := l }) (s.withInode k x) := by
  refine h.update hlive rfl rfl rfl ?_ (fun j => ?_) (fun j => ?_) hunique (fun f => rfl) h.idle
    { h.fresh p with } (fun q _ => h.fresh q) fun _ => rfl
  · rw [← h.inOp p, update_eq_self]
    rfl
  · change (assign s.inode k x j).ref + _ = _ + (i.count j + fileRefs s.file j)
    rw [assign_eq_update]
    by_cases hj : j = k
    · subst hj
      rw [update_self]
      omega
    · rw [update_of_ne hj, hi j hj]
  · change (assign s.inode k x j).locked.toNat + _ = _ + l.count j
    rw [assign_eq_update]
    by_cases hj : j = k
    · subst hj
      rw [update_self]
      exact hlock
    · rw [update_of_ne hj, hl j hj]

theorem Inv.addRef (href : x.ref = (s.inode k).ref + 1) (hlock : x.locked = (s.inode k).locked)
    (hunique : Unique (assign s.inode k x)) :
    Inv (Function.update γ p { γ p with inodes := k ::ₘ (γ p).inodes }) (s.withInode k x) := by
  refine h.withInode hlive ?_ (fun j hj => count_cons_of_ne hj _) (by rw [hlock])
    (fun j _ => rfl) hunique
  rw [href, count_cons_self]
  omega

theorem Inv.dropRef (hi : (γ p).inodes = k ::ₘ i)
    (href : x.ref = (s.inode k).ref - 1) (hlock : x.locked = (s.inode k).locked)
    (hdev : x.dev = (s.inode k).dev) (hinum : x.inum = (s.inode k).inum) :
    Inv (Function.update γ p { γ p with inodes := i }) (s.withInode k x) := by
  have hpos : 0 < (s.inode k).ref := h.inode_pos (hi ▸ mem_cons_self k i)
  refine h.withInode hlive ?_ (fun j hj => ?_) (by rw [hlock]) (fun j _ => rfl)
    (h.unique.keep hdev hinum fun _ => hpos)
  · rw [hi, href, count_cons_self]
    omega
  · rw [hi, count_cons_of_ne hj]

theorem Inv.takeLock (hk : k ∈ (γ p).inodes)
    (href : x.ref = (s.inode k).ref) (hfree : (s.inode k).locked = false) (hlock : x.locked = true)
    (hdev : x.dev = (s.inode k).dev) (hinum : x.inum = (s.inode k).inum) :
    Inv (Function.update γ p { γ p with locks := k ::ₘ (γ p).locks }) (s.withInode k x) := by
  refine h.withInode hlive (by rw [href]) (fun j _ => rfl) ?_ (fun j hj => count_cons_of_ne hj _)
    (h.unique.keep hdev hinum fun _ => h.inode_pos hk)
  rw [hlock, hfree, count_cons_self]
  change 1 + _ = 0 + _
  omega

theorem Inv.giveLock (hl : (γ p).locks = k ::ₘ l)
    (href : x.ref = (s.inode k).ref) (hlock : x.locked = false) (hdev : x.dev = (s.inode k).dev)
    (hinum : x.inum = (s.inode k).inum) :
    Inv (Function.update γ p { γ p with locks := l }) (s.withInode k x) := by
  refine h.withInode hlive (by rw [href]) (fun j _ => rfl) ?_ (fun j hj => ?_)
    (h.unique.keep hdev hinum fun hx => href ▸ hx)
  · rw [hlock, h.locked hl, hl, count_cons_self]
    change 0 + _ = 1 + _
    omega
  · rw [hl, count_cons_of_ne hj]

theorem Inv.editInode (href : x.ref = (s.inode k).ref) (hlock : x.locked = (s.inode k).locked)
    (hdev : x.dev = (s.inode k).dev) (hinum : x.inum = (s.inode k).inum) :
    Inv (Function.update γ p (γ p)) (s.withInode k x) :=
  h.withInode hlive (by rw [href]) (fun j _ => rfl) (by rw [hlock]) (fun j _ => rfl)
    (h.unique.keep hdev hinum fun hx => href ▸ hx)

omit h hlive

/-! ## Operations on the file table -/

/-- The file has the same end of a pipe as before, if it has one. -/
def SamePipe (x y : File) : Prop := x.type = y.type ∧ x.pipe = y.pipe

variable {x : File}

theorem Fresh.assign {t : Ftable} (h : Fresh g t) (hf : f ∉ g.fresh)
    (hx : f ∈ g.files → SamePipe x (t f)) : Fresh g (assign t f x) := by
  refine ⟨h.le, fun f' hf' => ?_, fun f' pi hin => ?_⟩
  · have hne : f' ≠ f := by
      rintro rfl
      exact hf hf'
    rw [assign_eq_update, update_of_ne hne]
    exact h.file f' hf'
  · obtain ⟨hfiles, hfresh, hpipe⟩ := h.inPipe f' pi hin
    refine ⟨hfiles, hfresh, ?_⟩
    rw [Lib.assign]
    by_cases hff : f' = f
    · subst hff
      rw [if_pos rfl, (hx hfiles).1, (hx hfiles).2]
      exact hpipe
    · rw [if_neg hff]
      exact hpipe

theorem countAt_file {β : Type} [DecidableEq β] (φ : File → β) (t : Ftable) (f : FileSlot) (x : File)
    (b : β) : countAt (fun f' => φ (assign t f x f')) b + (if φ (t f) = b then 1 else 0) =
      countAt (fun f' => φ (t f')) b + if φ x = b then 1 else 0 := by
  have hfun : (fun f' => φ (assign t f x f')) = update (fun f' => φ (t f')) f (φ x) := by
    funext f'
    rw [assign_eq_update]
    by_cases hf : f' = f
    · rw [hf, update_self, update_self]
    · rw [update_of_ne hf, update_of_ne hf]
  rw [hfun]
  exact countAt_update (fun f' => φ (t f')) f (φ x) b

variable {e : Multiset PipeEnd} {y z : Multiset FileSlot}

/-- `p`, which owns `g`, puts the file `x` in place of `old`: what `x` refers to and what `p` owns after that
is what there was. -/
structure Exchange (g : Own) (f : FileSlot) (old x : File) (i : Multiset Slot) (e : Multiset PipeEnd)
    (y : Multiset FileSlot) : Prop where
  inode : ∀ k, i.count k + (if x.inode? = some k then 1 else 0) =
    g.inodes.count k + if old.inode? = some k then 1 else 0
  pipe : ∀ a, e.count a + (if pipeEnd x = some a then 1 else 0) =
    g.ends.count a + if pipeEnd old = some a then 1 else 0
  ref : x.ref + g.files.count f = old.ref + y.count f
  others : ∀ f', f' ≠ f → y.count f' = g.files.count f'
  idle : x.ref = 0 → x.type = .none

theorem inode?_of_none (h : x.type = .none) : x.inode? = none := by
  rw [File.inode?, h]

theorem pipeEnd_of_none (h : x.type = .none) : pipeEnd x = none := by
  rw [pipeEnd, h, if_neg nofun]

theorem Inv.not_shared (h : Inv γ s) (hf : f ∈ (γ p).files) (href : (s.file f).ref = 1) (hq : q ≠ p) :
    f ∉ (γ q).files := by
  intro hfq
  have h1 := h.file f
  have h2 := add_le_sum_of_ne (fun q => (γ q).files.count f) hq
  have h3 := count_pos.mpr hf
  have h4 := count_pos.mpr hfq
  omega

theorem Inv.fresh_once (h : Inv γ s) (hz : (γ p).fresh = f ::ₘ z) :
    f ∉ z ∧ (s.file f).ref = 1 ∧ (s.file f).type = .none ∧ f ∈ (γ p).files := by
  have hmem : f ∈ (γ p).fresh := hz ▸ mem_cons_self f z
  obtain ⟨href, htype⟩ := (h.fresh p).file f hmem
  refine ⟨fun hf => ?_, href, htype, mem_of_le (h.fresh p).le hmem⟩
  have h1 := h.file f
  have h2 := le_sum γ p fun g => g.files.count f
  have h3 := count_le_of_le f (h.fresh p).le
  have h4 := count_pos.mpr hf
  rw [hz, count_cons_self] at h3
  omega

include h hlive

theorem Inv.withFile (hx : Exchange (γ p) f (s.file f) x i e y)
    (hself : Fresh { γ p with inodes := i, files := y, fresh := z, ends := e } (assign s.file f x))
    (hother : ∀ q, q ≠ p → f ∉ (γ q).fresh)
    (hsame : ∀ q, q ≠ p → f ∈ (γ q).files → SamePipe x (s.file f)) :
    Inv (Function.update γ p { γ p with inodes := i, files := y, fresh := z, ends := e })
      (s.withFile f x) := by
  refine h.update hlive rfl rfl rfl ?_ (fun k => ?_) (fun k => rfl) h.unique (fun f' => ?_)
    (fun f' => ?_) hself (fun q hq => (h.fresh q).assign (hother q hq) (hsame q hq)) fun a => ?_
  · rw [← h.inOp p, update_eq_self]
    rfl
  · have hcount := countAt_file File.inode? s.file f x (some k)
    have hk := hx.inode k
    change (s.inode k).ref + ((γ p).inodes.count k + fileRefs s.file k) =
      (s.inode k).ref + (i.count k + fileRefs (assign s.file f x) k)
    unfold fileRefs
    omega
  · change (assign s.file f x f').ref + _ = _ + y.count f'
    rw [assign_eq_update]
    by_cases hf : f' = f
    · subst hf
      rw [update_self]
      exact hx.ref
    · rw [update_of_ne hf, hx.others f' hf]
  · change (assign s.file f x f').ref = 0 → (assign s.file f x f').type = .none
    rw [assign_eq_update]
    by_cases hf : f' = f
    · subst hf
      rw [update_self]
      exact hx.idle
    · rw [update_of_ne hf]
      exact h.idle f'
  · have hcount := countAt_file pipeEnd s.file f x (some a)
    have ha := hx.pipe a
    change (s.isOpen a).toNat + ((γ p).ends.count a + endRefs s.file a) =
      (s.isOpen a).toNat + (e.count a + endRefs (assign s.file f x) a)
    unfold endRefs
    omega

theorem Inv.alloc (h0 : (s.file f).ref = 0) : Inv (Function.update γ p
      { γ p with files := f ::ₘ (γ p).files, fresh := f ::ₘ (γ p).fresh })
      (s.withFile f { s.file f with ref := 1 }) := by
  have hfree : ∀ q, f ∉ (γ q).fresh := by
    intro q hq
    have h1 := ((h.fresh q).file f hq).1
    omega
  have hunused : ∀ q, f ∉ (γ q).files := by
    intro q hq
    have hpos := h.file_pos hq
    omega
  have hold := (h.fresh p).assign (x := { s.file f with ref := 1 }) (hfree p) fun _ => ⟨rfl, rfl⟩
  refine h.withFile hlive ⟨fun k => rfl, fun a => rfl, ?_, fun f' hf => count_cons_of_ne hf _, nofun⟩
    ⟨cons_le_cons f (h.fresh p).le, fun f' hf' => ?_, fun f' pi hin => ?_⟩
    (fun q _ => hfree q) fun q _ hq => absurd hq (hunused q)
  · rw [count_cons_self, h0]
    change 1 + (γ p).files.count f = _
    omega
  · rcases mem_cons.mp hf' with rfl | hf'
    · rw [assign_eq_update, update_self]
      exact ⟨rfl, h.idle f' h0⟩
    · exact hold.file f' hf'
  · obtain ⟨hfiles, hfresh, hpipe⟩ := hold.inPipe f' pi hin
    refine ⟨mem_cons_of_mem hfiles, fun hf' => ?_, hpipe⟩
    rcases mem_cons.mp hf' with rfl | hf'
    · exact hunused p hfiles
    · exact hfresh hf'

theorem Inv.count (hf : f ∈ (γ p).files)
    (hx : Exchange (γ p) f (s.file f) x i e y) (hz : z ≤ (γ p).fresh) (hfz : f ∉ z)
    (hin : ∀ f' pi, (γ p).inPipe = some (f', pi) → f' ∈ y ∧ (f' = f → SamePipe x (s.file f)))
    (hsame : SamePipe x (s.file f) ∨ (s.file f).ref = 1) :
    Inv (Function.update γ p { γ p with inodes := i, files := y, fresh := z, ends := e })
      (s.withFile f x) := by
  refine h.withFile hlive hx ⟨le_iff_count.mpr fun f' => ?_, fun f' hf' => ?_, fun f' pi hp => ?_⟩
    (fun q hq => h.not_fresh hf hq) fun q hq hfq => hsame.resolve_right fun h1 =>
      h.not_shared hf h1 hq hfq
  · change z.count f' ≤ y.count f'
    by_cases hff : f' = f
    · rw [hff, count_eq_zero_of_notMem hfz]
      exact Nat.zero_le _
    · rw [hx.others f' hff]
      exact (count_le_of_le f' hz).trans (count_le_of_le f' (h.fresh p).le)
  · change f' ∈ z at hf'
    have hne : f' ≠ f := by
      rintro rfl
      exact hfz hf'
    rw [assign_eq_update, update_of_ne hne]
    exact (h.fresh p).file f' (mem_of_le hz hf')
  · obtain ⟨_, hfresh, hpipe⟩ := (h.fresh p).inPipe f' pi hp
    obtain ⟨hfy, hx⟩ := hin f' pi hp
    refine ⟨hfy, fun hf' => hfresh (mem_of_le hz hf'), ?_⟩
    rw [assign]
    by_cases hff : f' = f
    · rw [if_pos hff, (hx hff).1, (hx hff).2, ← hff]
      exact hpipe
    · rw [if_neg hff]
      exact hpipe

/-! ## Operations on processes -/

theorem Inv.withProc {x : Proc}
    (hx : x.state = .live ∨ x = .blank .zombie ∧ Idle { γ p with proc := x }) :
    Inv (Function.update γ p { γ p with proc := x }) (s.withProc p x) := by
  have hsame : ∀ {β : Type} (φ : Own → β), φ { γ p with proc := x } = φ (γ p) →
      ∀ q, φ (Function.update γ p { γ p with proc := x } q) = φ (γ q) := by
    intro β φ hφ q
    by_cases hq : q = p
    · rw [hq, update_self, hφ]
    · rw [update_of_ne hq]
  have hsum : ∀ φ : Own → ℕ, φ { γ p with proc := x } = φ (γ p) →
      ∑ q, φ (Function.update γ p { γ p with proc := x } q) = ∑ q, φ (γ q) := fun φ hφ =>
    Finset.sum_congr rfl fun q _ => hsame φ hφ q
  refine ⟨⟨fun q => ?_, fun q => ?_, fun q r c hc => ?_, fun q q' r c c' hc hc' => ?_,
    fun q hq => ?_, fun q hq => ?_⟩, fun k => ?_, fun k => ?_, h.unique, fun f => ?_, h.idle,
    fun q => ?_, fun e => ?_⟩
  · change assign s.proc p x q = _
    rw [assign_eq_update]
    by_cases hq : q = p
    · rw [hq, update_self, update_self]
    · rw [update_of_ne hq, update_of_ne hq, h.proc]
  · exact (h.inOp q).trans (hsame Own.inOp rfl q).symm
  · rw [hsame Own.child rfl] at hc
    obtain ⟨hproc, hused⟩ := h.child q r c hc
    have hne : r ≠ p := by
      rintro rfl
      rw [← hproc, hlive] at hused
      cases hused
    rw [update_of_ne hne]
    exact ⟨hproc, hused⟩
  · rw [hsame Own.child rfl] at hc hc'
    exact h.parent q q' r c c' hc hc'
  · by_cases hqp : q = p
    · rw [hqp, update_self] at hq ⊢
      rcases hx with hx | ⟨_, hx⟩
      · exact absurd hx hq
      · exact hx
    · rw [update_of_ne hqp] at hq ⊢
      exact h.dormant q hq
  · by_cases hqp : q = p
    · rw [hqp, update_self] at hq ⊢
      rcases hx with hx | ⟨hx, _⟩
      · rw [hx] at hq
        rcases hq with hq | hq <;> cases hq
      · change x = .blank x.state
        rw [hx]
        rfl
    · rw [update_of_ne hqp] at hq ⊢
      exact h.blank q hq
  · rw [hsum (fun g => g.inodes.count k) rfl]
    exact h.inode k
  · rw [hsum (fun g => g.locks.count k) rfl]
    exact h.lock k
  · rw [hsum (fun g => g.files.count f) rfl]
    exact h.file f
  · have hfr := h.fresh q
    refine ⟨?_, fun f hf => ?_, fun f pi hin => ?_⟩
    · rw [hsame Own.fresh rfl, hsame Own.files rfl]
      exact hfr.le
    · rw [hsame Own.fresh rfl] at hf
      exact hfr.file f hf
    · rw [hsame Own.inPipe rfl] at hin
      rw [hsame Own.fresh rfl, hsame Own.files rfl]
      exact hfr.inPipe f pi hin
  · rw [hsum (fun g => g.ends.count e) rfl]
    exact h.ends e

omit h hlive

variable {g' : Own} {np : ProcSlot}

theorem Procs.pair (h : Procs γ s) (hlive : (γ p).proc.state = .live)
    (hnp : (γ np).proc.state ≠ .live) (hg : g.proc = (γ p).proc) (hop : g.inOp = (γ p).inOp)
    (hown : ∀ r c, r ≠ p → (γ r).child ≠ some (np, c))
    (hchild : ∀ r c, g.child = some (r, c) → (r = np ∧ c = g'.proc ∧ c.state = .used) ∨
      (r ≠ np ∧ (γ p).child = some (r, c)))
    (hidle : Idle g') (hblank : g'.proc.state = .unused ∨ g'.proc.state = .zombie →
      g'.proc = .blank g'.proc.state) :
    Procs (update (update γ np g') p g) (s.withProc np g'.proc) := by
  have hne : np ≠ p := by
    rintro rfl
    exact hnp hlive
  have hp : update (update γ np g') p g p = g := update_self ..
  have hn : update (update γ np g') p g np = g' := by
    rw [update_of_ne hne, update_self]
  have hq : ∀ q, q ≠ p → q ≠ np → update (update γ np g') p g q = γ q := by
    intro q hqp hqn
    rw [update_of_ne hqp, update_of_ne hqn]
  -- the children of the processes in the new state
  have hkid : ∀ r q c, (update (update γ np g') p g r).child = some (q, c) →
      (r = p ∧ q = np ∧ c = g'.proc ∧ c.state = .used) ∨ (q ≠ np ∧ (γ r).child = some (q, c)) := by
    intro r q c hc
    by_cases hrp : r = p
    · subst hrp
      rw [hp] at hc
      rcases hchild q c hc with hnew | hold
      · exact .inl ⟨rfl, hnew⟩
      · exact .inr hold
    · by_cases hrn : r = np
      · subst hrn
        rw [hn, hidle.child] at hc
        cases hc
      · rw [hq r hrp hrn] at hc
        refine .inr ⟨?_, hc⟩
        rintro rfl
        exact hown r c hrp hc
  refine ⟨fun q => ?_, fun q => ?_, fun r q c hc => ?_, fun r r' q c c' hc hc' => ?_,
    fun q hlv => ?_, fun q hst => ?_⟩
  · change assign s.proc np g'.proc q = _
    rw [assign_eq_update]
    by_cases hqp : q = p
    · rw [hqp, hp, update_of_ne hne.symm, h.proc, hg]
    · by_cases hqn : q = np
      · rw [hqn, hn, update_self]
      · rw [hq q hqp hqn, update_of_ne hqn, h.proc]
  · change s.inOp q = _
    by_cases hqp : q = p
    · rw [hqp, hp, hop, h.inOp]
    · by_cases hqn : q = np
      · rw [hqn, hn, hidle.inOp, h.inOp, (h.dormant np hnp).inOp]
      · rw [hq q hqp hqn, h.inOp]
  · rcases hkid r q c hc with ⟨_, rfl, rfl, hused⟩ | ⟨hqn, hc⟩
    · rw [hn]
      exact ⟨rfl, hused⟩
    · obtain ⟨hproc, hused⟩ := h.child r q c hc
      have hqp : q ≠ p := by
        rintro rfl
        rw [← hproc, hlive] at hused
        cases hused
      rw [hq q hqp hqn]
      exact ⟨hproc, hused⟩
  · rcases hkid r q c hc with ⟨rfl, rfl, _⟩ | ⟨hqn, hc⟩
    · rcases hkid r' _ c' hc' with ⟨hr, _⟩ | ⟨hqn, _⟩
      · exact hr.symm
      · exact absurd rfl hqn
    · rcases hkid r' q c' hc' with ⟨_, hqn', _⟩ | ⟨_, hc'⟩
      · exact absurd hqn' hqn
      · exact h.parent r r' q c c' hc hc'
  · by_cases hqp : q = p
    · rw [hqp, hp, hg] at hlv
      exact absurd hlive hlv
    · by_cases hqn : q = np
      · rw [hqn, hn]
        exact hidle
      · rw [hq q hqp hqn] at hlv ⊢
        exact h.dormant q hlv
  · by_cases hqp : q = p
    · rw [hqp, hp, hg, hlive] at hst
      rcases hst with hst | hst <;> cases hst
    · by_cases hqn : q = np
      · rw [hqn, hn] at hst ⊢
        exact hblank hst
      · rw [hq q hqp hqn] at hst ⊢
        exact h.blank q hst

theorem Inv.pair {x : Proc} (h : Inv γ s) (hne : np ≠ p)
    (hprocs : Procs (Function.update (Function.update γ np g') p g) (s.withProc np x))
    (hi : ∀ k, g.inodes.count k + g'.inodes.count k =
      (γ p).inodes.count k + (γ np).inodes.count k)
    (hl : ∀ k, g.locks.count k + g'.locks.count k = (γ p).locks.count k + (γ np).locks.count k)
    (hf : ∀ f, g.files.count f + g'.files.count f = (γ p).files.count f + (γ np).files.count f)
    (he : ∀ e, g.ends.count e + g'.ends.count e = (γ p).ends.count e + (γ np).ends.count e)
    (hself : Fresh g s.file) (hother : Fresh g' s.file) :
    Inv (Function.update (Function.update γ np g') p g) (s.withProc np x) := by
  have hsum : ∀ φ : Own → ℕ, φ g + φ g' = φ (γ p) + φ (γ np) →
      ∑ q, φ (Function.update (Function.update γ np g') p g q) = ∑ q, φ (γ q) := by
    intro φ hφ
    have h1 := sum_update (Function.update γ np g') p g φ
    have h2 := sum_update γ np g' φ
    rw [update_of_ne hne.symm] at h1
    omega
  refine ⟨hprocs, fun k => ?_, fun k => ?_, h.unique, fun f => ?_, h.idle, fun q => ?_, fun e => ?_⟩
  · rw [hsum (fun g => g.inodes.count k) (hi k)]
    exact h.inode k
  · rw [hsum (fun g => g.locks.count k) (hl k)]
    exact h.lock k
  · rw [hsum (fun g => g.files.count f) (hf f)]
    exact h.file f
  · by_cases hqp : q = p
    · rw [hqp, update_self]
      exact hself
    · rw [update_of_ne hqp]
      by_cases hqn : q = np
      · rw [hqn, update_self]
        exact hother
      · rw [update_of_ne hqn]
        exact h.fresh q
  · rw [hsum (fun g => g.ends.count e) (he e)]
    exact h.ends e

/-! ## Every operation keeps the invariant -/

/-- What an operation of process `p` with a rule does. -/
def Keeps (γ : ProcSlot → Own) (p : ProcSlot) (o : Op) (R : o.Res → Own → Prop)
    (r : Option (Except Panic (o.Res × Shared))) : Prop :=
  (∀ e, r = some (.error e) → ¬ Excluded e) ∧
  ∀ a s', r = some (.ok (a, s')) → ∃ γ', Inv γ' s' ∧ R a (γ' p) ∧
    ∀ q, q ≠ p → γ' q = γ q ∨ ¬ (γ q).proc.state = .live ∧ Idle (γ' q)

variable {o : Op} {R : o.Res → Own → Prop} {a : o.Res} {c : Proc} {pi : ℕ}

theorem Keeps.own (hinv : Inv (update γ p g) s') (hR : R a g) : Keeps γ p o R (some (.ok (a, s'))) := by
  refine ⟨nofun, fun b t heq => ?_⟩
  obtain ⟨rfl, rfl⟩ := Prod.mk.inj (Except.ok.inj (some.inj heq))
  refine ⟨_, hinv, ?_, fun q hq => .inl (update_of_ne hq ..)⟩
  rw [update_self]
  exact hR

theorem Keeps.same (hinv : Inv γ s) (hR : R a (γ p)) : Keeps γ p o R (some (.ok (a, s))) :=
  .own (g := γ p) (by rwa [update_eq_self]) hR

theorem Keeps.wait : Keeps γ p o R none := ⟨nofun, nofun⟩

theorem Keeps.panic {e : Panic} (he : ¬ Excluded e) : Keeps γ p o R (some (.error e)) :=
  ⟨fun e' heq => by rwa [← Except.error.inj (some.inj heq)], nofun⟩

theorem liftFile_eq_some {α : Type} {x : FM α} {Q : α → Ftable → Prop}
    (hx : wp x (fun _ => False) s.file Q) :
    ∃ a t, s.liftFile x = some (.ok (a, { s with file := t })) ∧ Q a t := by
  obtain ⟨a, t, hrun, hQ⟩ := hx.exists_ok
  refine ⟨a, t, ?_, hQ⟩
  rw [Shared.liftFile, hrun]

theorem Keeps.pair (hinv : Inv (update (update γ np g') p g) s')
    (hnp : (γ np).proc.state ≠ .live) (hidle : Idle g') (hR : R a g) :
    Keeps γ p o R (some (.ok (a, s'))) := by
  refine ⟨nofun, fun b t heq => ?_⟩
  obtain ⟨rfl, rfl⟩ := Prod.mk.inj (Except.ok.inj (some.inj heq))
  refine ⟨_, hinv, ?_, fun q hq => ?_⟩
  · rw [update_self]
    exact hR
  · by_cases hqn : q = np
    · right
      rw [update_of_ne hq, hqn, update_self]
      exact ⟨hnp, hidle⟩
    · left
      rw [update_of_ne hq, update_of_ne hqn]

theorem Inv.child_embryo (h : Inv γ s) (hchild : (γ p).child = some (np, c)) :
    (γ np).proc = c ∧ c.state = .used ∧ (γ np).proc.state ≠ .live := by
  obtain ⟨hproc, hused⟩ := h.child p np c hchild
  refine ⟨hproc, hused, ?_⟩
  rw [hproc, hused]
  exact nofun

theorem Shared.exists_pipe {w : Option Bool} (hopen : s.isOpen (pi, w) = true) :
    ∃ x, s.pipe pi = some x ∧ openEnd (some x) w = true := by
  unfold Shared.isOpen at hopen
  cases hx : s.pipe pi with
  | none =>
    rw [hx] at hopen
    exact absurd hopen Bool.false_ne_true
  | some x =>
    rw [hx] at hopen
    exact ⟨x, rfl, hopen⟩

theorem Inv.isOpen_of_mem {a : PipeEnd} (h : Inv γ s) (ha : a ∈ (γ p).ends) : s.isOpen a = true := by
  have h1 := h.ends a
  have h2 := le_sum γ p fun g => g.ends.count a
  have h3 := count_pos.mpr ha
  cases hb : s.isOpen a with
  | true => rfl
  | false =>
    rw [hb] at h1
    change 0 = _ at h1
    omega

theorem Inv.isOpen_of_file {a : PipeEnd} (h : Inv γ s) (ha : pipeEnd (s.file f) = some a) :
    s.isOpen a = true := by
  have h1 := h.ends a
  have h2 : 0 < endRefs s.file a := countAt_pos ha
  cases hb : s.isOpen a with
  | true => rfl
  | false =>
    rw [hb] at h1
    change 0 = _ at h1
    omega

theorem openEnd_close (x : Pipe) (w : Bool) (hw : openEnd (some x) (some w) = true)
    (w' : Option Bool) : (openEnd (some (x.close w)) w').toNat + (if w' = some w then 1 else 0) =
      (openEnd (some x) w').toNat + if w' = none ∧ x.close w = ⟨false, false⟩ then 1 else 0 := by
  obtain ⟨r, v⟩ := x
  revert hw
  match w' with
  | none => revert r v w; decide
  | some b => revert r v w b; decide

theorem Inv.no_parent (np : ProcSlot) (h : Inv γ s) (hnp : (s.proc np).state ≠ .used)
    (r : ProcSlot) (c : Proc) : (γ r).child ≠ some (np, c) := by
  intro hc
  obtain ⟨hproc, hused⟩ := h.child r np c hc
  rw [h.proc, hproc] at hnp
  exact hnp hused

include h hlive

theorem keeps_iget {dev inum : ℕ} {R : Slot → Own → Prop}
    (hR : ∀ k, R k { γ p with inodes := k ::ₘ (γ p).inodes }) :
    Keeps γ p (.iget dev inum) R (s.iget dev inum) := by
  unfold Shared.iget
  split
  · next k hk =>
    have hpos : 0 < (s.inode k).ref ∧ (s.inode k).dev = dev ∧ (s.inode k).inum = inum := by
      simpa using List.find?_some hk
    exact .own (h.addRef hlive rfl rfl (h.unique.keep rfl rfl fun _ => hpos.1)) (hR k)
  · next hnone =>
    split
    · exact .panic id
    · next k hk =>
      have h0 : (s.inode k).ref = 0 := by simpa using List.find?_some hk
      have hnew : ∀ j, 0 < (s.inode j).ref → (s.inode j).dev = dev → (s.inode j).inum ≠ inum := by
        intro j hpos hdev hinum
        have := List.find?_eq_none.mp hnone j (List.mem_finRange j)
        simp [hpos, hdev, hinum] at this
      exact .own (h.addRef hlive (by rw [h0]) rfl (h.unique.enter hnew)) (hR k)

section

variable {R : Unit → Own → Prop}

theorem keeps_ilock {din : UInt16 × UInt16 × UInt16} (hk : k ∈ (γ p).inodes)
    (hR : R () { γ p with locks := k ::ₘ (γ p).locks }) :
    Keeps γ p (.ilock k) R (s.ilock k din) := by
  have hpos := h.inode_pos hk
  unfold Shared.ilock
  dsimp only
  rw [if_neg (by omega)]
  split
  · exact .wait
  · next hfree =>
    rw [Bool.not_eq_true] at hfree
    split
    · exact .own (h.takeLock hlive hk rfl hfree rfl rfl rfl) hR
    · split
      · exact .panic id
      · exact .own (h.takeLock hlive hk rfl hfree rfl rfl rfl) hR

theorem keeps_iunlock (hl : (γ p).locks = k ::ₘ l) (hR : R () { γ p with locks := l }) :
    Keeps γ p (.iunlock k) R (s.iunlock k) := by
  unfold Shared.iunlock
  dsimp only
  split
  · exact .panic id
  · exact .own (h.giveLock hlive hl rfl rfl rfl rfl) hR

theorem keeps_iputFirst {R : Bool → Own → Prop}
    (hi : (γ p).inodes = k ::ₘ i) (hdrop : R false { γ p with inodes := i })
    (hfree : R true { γ p with locks := k ::ₘ (γ p).locks }) :
    Keeps γ p (.iputFirst k) R (s.iputFirst k) := by
  have hk : k ∈ (γ p).inodes := hi ▸ mem_cons_self k i
  unfold Shared.iputFirst
  dsimp only
  split
  · split
    · exact .wait
    · next hunlocked =>
      rw [Bool.not_eq_true] at hunlocked
      exact .own (h.takeLock hlive hk rfl hunlocked rfl rfl rfl) hfree
  · exact .own (h.dropRef hlive hi rfl rfl rfl rfl) hdrop

theorem keeps_filealloc {R : Option FileSlot → Own → Prop} (hnone : R none (γ p))
    (hsome : ∀ f, R (some f) { γ p with files := f ::ₘ (γ p).files, fresh := f ::ₘ (γ p).fresh }) :
    Keeps γ p .filealloc R (s.liftFile filealloc) := by
  obtain ⟨a, t, heq, ha⟩ := liftFile_eq_some (s := s) filealloc_spec
  rw [heq]
  rcases ha with ⟨rfl, rfl⟩ | ⟨f, rfl, h0, rfl⟩
  · exact .same h hnone
  · exact .own (h.alloc hlive h0) (hsome f)

theorem keeps_filedup (hf : f ∈ (γ p).files) (hfresh : f ∉ (γ p).fresh)
    (hR : R () { γ p with files := f ::ₘ (γ p).files }) :
    Keeps γ p (.filedup f) R (s.liftFile (filedup f)) := by
  obtain ⟨a, t, heq, rfl⟩ := liftFile_eq_some (s := s) (filedup_spec (h.file_pos hf))
  rw [heq]
  refine .own (h.count hlive hf ⟨fun k => rfl, fun a => rfl, ?_,
    fun f' hf' => count_cons_of_ne hf' _, fun h0 => absurd h0 (Nat.succ_ne_zero _)⟩ le_rfl
    hfresh (fun f' pi hin => ⟨mem_cons_of_mem ((h.fresh p).inPipe f' pi hin).1,
      fun _ => ⟨rfl, rfl⟩⟩) (.inl ⟨rfl, rfl⟩)) hR
  rw [count_cons_self]
  change (s.file f).ref + 1 + _ = _
  omega

theorem keeps_close {R : Option File → Own → Prop} (hy : (γ p).files = f ::ₘ y) (hfresh : f ∉ (γ p).fresh)
    (hin : (γ p).inPipe = none) (hnone : R none { γ p with files := y })
    (hsome : ∀ ff, R (some ff) { γ p with
      files := y, inodes := fileInodes ff + (γ p).inodes, ends := fileEnds ff + (γ p).ends }) :
    Keeps γ p (.unref .close f) R (s.liftFile (unref f)) := by
  have hf : f ∈ (γ p).files := hy ▸ mem_cons_self f y
  have hcount : ∀ f', f' ≠ f → y.count f' = (γ p).files.count f' := by
    intro f' hf'
    rw [hy, count_cons_of_ne hf']
  have hone : (γ p).files.count f = y.count f + 1 := by rw [hy, count_cons_self]
  obtain ⟨a, t, heq, ha⟩ := liftFile_eq_some (s := s) (unref_spec (h.file_pos hf))
  rw [heq]
  rcases ha with ⟨hlt, rfl, rfl⟩ | ⟨hone', rfl, rfl⟩
  · refine .own (h.count hlive hf ⟨fun k => rfl, fun a => rfl, ?_, hcount, fun h0 => ?_⟩ le_rfl hfresh
      (fun f' pi hp => absurd hp (hin ▸ nofun)) (.inl ⟨rfl, rfl⟩)) hnone
    · change (s.file f).ref - 1 + _ = _
      omega
    · change (s.file f).ref - 1 = 0 at h0
      omega
  · refine .own (h.count hlive hf ⟨fun k => ?_, fun a => ?_, ?_, hcount, fun _ => rfl⟩ le_rfl hfresh
      (fun f' pi hp => absurd hp (hin ▸ nofun)) (.inr hone')) (hsome (s.file f))
    · rw [if_neg (show ({ s.file f with ref := 0, type := .none } : File).inode? ≠ some k from
        nofun), count_add, count_fileInodes]
      omega
    · rw [pipeEnd_of_none rfl, if_neg (some_ne_none a).symm, count_add, count_fileEnds]
      omega
    · change 0 + _ = _
      omega

theorem keeps_fail {R : Option File → Own → Prop}
    (hy : (γ p).files = f ::ₘ y) (hz : (γ p).fresh = f ::ₘ z) (hin : (γ p).inPipe = none)
    (hR : ∀ ff, ff.type = .none → R (some ff) { γ p with files := y, fresh := z }) :
    Keeps γ p (.unref .fail f) R (s.liftFile (unref f)) := by
  obtain ⟨hfz, href, htype, hf⟩ := h.fresh_once hz
  obtain ⟨a, t, heq, ha⟩ := liftFile_eq_some (s := s) (unref_spec (h.file_pos hf))
  rw [heq]
  rcases ha with ⟨hlt, _⟩ | ⟨_, rfl, rfl⟩
  · omega
  · refine .own (h.count hlive hf ⟨fun k => ?_, fun a => ?_, ?_, fun f' hf' => ?_, fun _ => rfl⟩
      (hz ▸ le_cons_self z f) hfz (fun f' pi hp => absurd hp (hin ▸ nofun)) (.inr href))
      (hR _ htype)
    · rw [inode?_of_none htype, inode?_of_none rfl]
    · rw [pipeEnd_of_none htype, pipeEnd_of_none rfl]
    · rw [hy, count_cons_self, href]
      change 0 + _ = _
      omega
    · rw [hy, count_cons_of_ne hf']

theorem Inv.fill (hz : (γ p).fresh = f ::ₘ z) (hi : (γ p).inodes = fileInodes x + i)
    (he : (γ p).ends = fileEnds x + e) (href : x.ref = (s.file f).ref) :
    Inv (Function.update γ p { γ p with inodes := i, fresh := z, ends := e }) (s.withFile f x) := by
  obtain ⟨hfz, hone, htype, hf⟩ := h.fresh_once hz
  refine h.count hlive hf ⟨fun k => ?_, fun a => ?_, by rw [href], fun f' _ => rfl, fun h0 => ?_⟩
    (hz ▸ le_cons_self z f) hfz (fun f' pi hin => ?_) (.inr hone)
  · rw [inode?_of_none htype, if_neg (some_ne_none k).symm, hi, count_add, count_fileInodes]
    omega
  · rw [pipeEnd_of_none htype, if_neg (some_ne_none a).symm, he, count_add, count_fileEnds]
    omega
  · omega
  · obtain ⟨hfiles, hfresh, _⟩ := (h.fresh p).inPipe f' pi hin
    refine ⟨hfiles, fun hff => absurd ?_ hfresh⟩
    rw [hff, hz]
    exact mem_cons_self f z

theorem Inv.setState {x : Proc}
    (hnp : (γ np).proc.state ≠ .live) (hg : g = { γ p with child := g.child })
    (hown : ∀ r c, r ≠ p → (γ r).child ≠ some (np, c))
    (hchild : ∀ r c, g.child = some (r, c) → (r = np ∧ c = x ∧ c.state = .used) ∨
      (r ≠ np ∧ (γ p).child = some (r, c)))
    (hofile : x.ofile = (γ np).proc.ofile) (hcwd : x.cwd = (γ np).proc.cwd)
    (hblank : x.state = .unused ∨ x.state = .zombie → x = .blank x.state) :
    Inv (Function.update (Function.update γ np { γ np with proc := x }) p g) (s.withProc np x) ∧
      Idle { γ np with proc := x } := by
  have hne : np ≠ p := by
    rintro rfl
    exact hnp hlive
  have hold := h.dormant np hnp
  have hidle : Idle { γ np with proc := x } :=
    { hold with
      inodes := fun k => by rw [hold.inodes k, hcwd]
      files := fun f => by rw [hold.files f, hofile] }
  refine ⟨h.pair hne (h.toProcs.pair hlive hnp ?_ ?_ hown hchild hidle hblank) (fun k => ?_)
    (fun k => ?_) (fun f => ?_) (fun e => ?_) ?_ { h.fresh np with }, hidle⟩
  all_goals rw [hg]
  exact { h.fresh p with }

theorem Inv.give {x : Proc} (i i' : Multiset Slot) (y y' : Multiset FileSlot)
    (hchild : (γ p).child = some (np, c)) (hx : x.state = .used)
    (hi : ∀ k, i.count k + i'.count k = (γ p).inodes.count k + (γ np).inodes.count k)
    (hy : ∀ f, y.count f + y'.count f = (γ p).files.count f + (γ np).files.count f)
    (hcwd : ∀ k, i'.count k = if x.cwd = some k then 1 else 0)
    (hofile : ∀ f, y'.count f = countAt x.ofile (some f)) (hfresh : (γ p).fresh ≤ y)
    (hin : ∀ f pi, (γ p).inPipe = some (f, pi) → f ∈ y) :
    Inv (Function.update (Function.update γ np { γ np with proc := x, inodes := i', files := y' }) p
      { γ p with inodes := i, files := y, child := some (np, x) }) (s.withProc np x) ∧
      Idle { γ np with proc := x, inodes := i', files := y' } := by
  obtain ⟨hproc, hused, hnp⟩ := h.child_embryo hchild
  have hne : np ≠ p := by
    rintro rfl
    exact hnp hlive
  have hold := h.dormant np hnp
  have hidle : Idle { γ np with proc := x, inodes := i', files := y' } :=
    { hold with inodes := hcwd, files := hofile }
  refine ⟨h.pair hne (h.toProcs.pair hlive hnp rfl rfl (fun r c' hr hc' => ?_)
    (fun r c' hc' => ?_) hidle fun hst => ?_) hi (fun k => rfl) hy (fun e => rfl)
    ⟨hfresh, (h.fresh p).file, fun f pi hp => ⟨hin f pi hp, ((h.fresh p).inPipe f pi hp).2⟩⟩
    ⟨?_, (h.fresh np).file, fun f pi hp => absurd hp (hold.inPipe ▸ nofun)⟩, hidle⟩
  · exact hr (h.parent r p np c' c hc' hchild)
  · obtain ⟨rfl, rfl⟩ := Prod.mk.inj (some.inj hc')
    exact .inl ⟨rfl, rfl, hx⟩
  · change x.state = .unused ∨ x.state = .zombie at hst
    rw [hx] at hst
    rcases hst with hst | hst <;> cases hst
  · change (γ np).fresh ≤ y'
    rw [hold.fresh]
    exact Multiset.zero_le y'

theorem Inv.withOp (b : Bool) :
    Inv (Function.update γ p { γ p with inOp := b }) { s with inOp := assign s.inOp p b } :=
  h.update hlive rfl rfl rfl (assign_eq_update ..) (fun _ => rfl) (fun _ => rfl) h.unique
    (fun _ => rfl) h.idle { h.fresh p with } (fun q _ => h.fresh q) fun _ => rfl

theorem Inv.withPipe {x : Option Pipe} (hpi : ∀ w, (openEnd x w).toNat + (γ p).ends.count (pi, w) =
      (openEnd (s.pipe pi) w).toNat + e.count (pi, w))
    (hother : ∀ a, a.1 ≠ pi → e.count a = (γ p).ends.count a) :
    Inv (Function.update γ p { γ p with ends := e }) { s with pipe := assign s.pipe pi x } := by
  refine h.update hlive rfl rfl rfl ?_ (fun _ => rfl) (fun _ => rfl) h.unique (fun _ => rfl) h.idle
    { h.fresh p with } (fun q _ => h.fresh q) fun a => ?_
  · rw [← h.inOp p, update_eq_self]
  · change (openEnd (assign s.pipe pi x a.1) a.2).toNat + (_ + endRefs s.file a) =
      (openEnd (s.pipe a.1) a.2).toNat + (e.count a + endRefs s.file a)
    rw [assign]
    by_cases hj : a.1 = pi
    · have hw := hpi a.2
      rw [← hj, Prod.mk.eta] at hw
      rw [if_pos hj]
      omega
    · rw [if_neg hj, hother a hj]

theorem keeps_pipe {R : Option ℕ → Own → Prop} (x : Choice) (hnone : R none (γ p))
    (hsome : ∀ pi, R (some pi)
      { γ p with ends := (pi, some false) ::ₘ (pi, some true) ::ₘ (γ p).ends }) :
    Keeps γ p .pipe R (exec p .pipe x s) := by
  unfold exec
  dsimp only
  split
  · exact .same h hnone
  · next pi _ =>
    split
    · next hfree =>
      refine .own (h.withPipe hlive (fun w => ?_) fun a ha => ?_) (hsome pi)
      · rw [hfree]
        rcases w with _ | _ | _
        · simp [openEnd]
        · simp [openEnd, Nat.add_comm]
        · simp [openEnd, Nat.add_comm]
      · have hne : ∀ w, a ≠ (pi, w) := fun w hw => ha (congrArg Prod.fst hw)
        rw [count_cons_of_ne (hne _), count_cons_of_ne (hne _)]
    · exact .wait

variable {w : Bool}

theorem keeps_pipeclose {R : Bool → Own → Prop}
    (he : (γ p).ends = (pi, some w) ::ₘ e) (hfalse : R false { γ p with ends := e })
    (htrue : R true { γ p with ends := (pi, none) ::ₘ e }) :
    Keeps γ p (.pipeclose pi w) R (s.pipeclose pi w) := by
  obtain ⟨x, hx, hw⟩ := Shared.exists_pipe (h.isOpen_of_mem (he ▸ mem_cons_self _ e))
  unfold Shared.pipeclose Shared.onPipe
  rw [hx]
  have hclose := openEnd_close x w hw
  have hne : ∀ a : PipeEnd, a.1 ≠ pi → ∀ v, a ≠ (pi, v) := fun a ha v hv =>
    ha (congrArg Prod.fst hv)
  by_cases hend : x.close w = ⟨false, false⟩
  · dsimp only
    rw [decide_eq_true hend]
    refine .own (h.withPipe hlive (fun v => ?_) fun a ha => ?_) htrue
    · have hv := hclose v
      rw [hx, he, count_cons, count_cons]
      simp only [Prod.mk.injEq, true_and]
      simp only [hend, and_true] at hv ⊢
      omega
    · rw [he, count_cons_of_ne (hne a ha _), count_cons_of_ne (hne a ha _)]
  · dsimp only
    rw [decide_eq_false hend]
    refine .own (h.withPipe hlive (fun v => ?_) fun a ha => ?_) hfalse
    · have hv := hclose v
      simp only [hend, and_false, if_false] at hv
      rw [hx, he, count_cons]
      simp only [Prod.mk.injEq, true_and]
      omega
    · rw [he, count_cons_of_ne (hne a ha _)]

theorem keeps_kfree (x : Choice) (he : (γ p).ends = (pi, none) ::ₘ e)
    (hR : R () { γ p with ends := e }) : Keeps γ p (.kfree pi) R (exec p (.kfree pi) x s) := by
  obtain ⟨y, hy, hend⟩ := Shared.exists_pipe (h.isOpen_of_mem (he ▸ mem_cons_self _ e))
  unfold exec
  dsimp only
  rw [Shared.onPipe, hy]
  refine .own (h.withPipe hlive (fun v => ?_) fun a ha => ?_) hR
  · have hboth : y = ⟨false, false⟩ := of_decide_eq_true hend
    rw [hy, he, hboth, count_cons]
    match v with
    | none => simp [openEnd, Nat.add_comm]
    | some true => simp [openEnd]
    | some false => simp [openEnd]
  · rw [he, count_cons_of_ne fun ha' => ha (congrArg Prod.fst ha')]

theorem Inv.withInPipe {y : Option (FileSlot × ℕ)}
    (hy : ∀ f pi, y = some (f, pi) → f ∈ (γ p).files ∧ f ∉ (γ p).fresh ∧
      (s.file f).type = .pipe ∧ (s.file f).pipe = pi) :
    Inv (Function.update γ p { γ p with inPipe := y }) s := by
  refine h.update hlive rfl rfl rfl ?_ (fun _ => rfl) (fun _ => rfl) h.unique (fun _ => rfl) h.idle
    ⟨(h.fresh p).le, (h.fresh p).file, hy⟩ (fun q _ => h.fresh q) fun _ => rfl
  rw [← h.inOp p, update_eq_self]

theorem keeps_pipeTurn {R : Bool → Own → Prop} (x : Choice) (hin : (γ p).inPipe = some (f, pi))
    (hR : ∀ b, R b { γ p with inPipe := none } ∨ R b (γ p)) :
    Keeps γ p (.pipeTurn pi w) R (exec p (.pipeTurn pi w) x s) := by
  obtain ⟨-, -, htype, hpipe⟩ := (h.fresh p).inPipe f pi hin
  have hfile : pipeEnd (s.file f) = some (pi, some (s.file f).writable) := by
    rw [pipeEnd, if_pos htype, hpipe]
  obtain ⟨y, hy, -⟩ := Shared.exists_pipe (h.isOpen_of_file hfile)
  unfold exec
  dsimp only
  rw [Shared.onPipe, hy]
  dsimp only
  rw [assign_eq_update, ← hy, update_eq_self]
  rcases hR x.ok with hR | hR
  · exact .own (h.withInPipe hlive fun _ _ hp => absurd hp.symm (some_ne_none _)) hR
  · exact .same h hR

theorem keeps_allocproc {R : Option ProcSlot → Own → Prop} (x : Choice) (hnone : R none (γ p))
    (hsome : ∀ np, R (some np) { γ p with child := some (np, .blank .used) }) :
    Keeps γ p .allocproc R (exec p .allocproc x s) := by
  unfold exec
  dsimp only
  split
  · exact .same h hnone
  · next np _ =>
    split
    · next hst =>
      have hproc : s.proc np = .blank .unused := by
        have hb := h.blank np (.inl (by rw [← h.proc]; exact hst))
        rwa [← h.proc, hst] at hb
      have hnp : (γ np).proc.state ≠ .live := by
        rw [← h.proc, hst]
        exact nofun
      rw [hproc]
      obtain ⟨hinv, hidle⟩ := h.setState (x := .blank .used) hlive hnp
        (g := { γ p with child := some (np, .blank .used) }) rfl
        (fun r c _ => h.no_parent np (by rw [hst]; exact nofun) r c)
        (fun r c hc => by
          obtain ⟨rfl, rfl⟩ := Prod.mk.inj (some.inj hc)
          exact .inl ⟨rfl, rfl, rfl⟩)
        (by rw [← h.proc, hproc]; rfl) (by rw [← h.proc, hproc]; rfl)
        (fun hst => by rcases hst with hst | hst <;> cases hst)
      exact .pair hinv hnp hidle (hsome np)
    · exact .wait

theorem keeps_reap (x : Choice) (hR : R () (γ p)) : Keeps γ p .reap R (exec p .reap x s) := by
  unfold exec
  dsimp only
  split
  · exact .wait
  · next q _ =>
    split
    · next hst =>
      have hproc : s.proc q = .blank .zombie := by
        have hb := h.blank q (.inr (by rw [← h.proc]; exact hst))
        rwa [← h.proc, hst] at hb
      have hq : (γ q).proc.state ≠ .live := by
        rw [← h.proc, hst]
        exact nofun
      have hkid := h.no_parent q (by rw [hst]; exact nofun)
      rw [hproc]
      obtain ⟨hinv, hidle⟩ := h.setState (x := .blank .unused) (g := γ p) hlive hq rfl
        (fun r c _ => hkid r c)
        (fun r c hc => .inr ⟨fun heq => hkid p c (heq ▸ hc), hc⟩)
        (by rw [← h.proc, hproc]; rfl) (by rw [← h.proc, hproc]; rfl) (fun _ => rfl)
      exact .pair hinv hq hidle hR
    · exact .wait

theorem Inv.endChild {x : Proc}
    (hchild : (γ p).child = some (np, c)) (hofile : x.ofile = c.ofile) (hcwd : x.cwd = c.cwd)
    (hblank : x.state = .unused ∨ x.state = .zombie → x = .blank x.state) : (γ np).proc.state ≠ .live ∧
    Inv (Function.update (Function.update γ np { γ np with proc := x }) p
      { γ p with child := none }) (s.withProc np x) ∧ Idle { γ np with proc := x } := by
  obtain ⟨hproc, hused, hnp⟩ := h.child_embryo hchild
  exact ⟨hnp, h.setState hlive hnp rfl (fun r c' hr hc' => hr (h.parent r p np c' c hc' hchild))
    nofun (by rw [hproc, hofile]) (by rw [hproc, hcwd]) hblank⟩

theorem keeps_freeproc
    (hchild : (γ p).child = some (np, .blank .used)) (hR : R () { γ p with child := none }) :
    Keeps γ p (.freeproc np) R
      (some (.ok ((), s.withProc np { s.proc np with state := .unused }))) := by
  obtain ⟨hnp, hinv, hidle⟩ := h.endChild (x := .blank .unused) hlive hchild rfl rfl fun _ => rfl
  rw [h.proc np, (h.child p np _ hchild).1]
  exact .pair hinv hnp hidle hR

section

variable (hchild : (γ p).child = some (np, c))

include hchild

theorem keeps_runnable (hR : R () { γ p with child := none }) :
    Keeps γ p (.runnable np) R (some (.ok ((), s.withProc np { s.proc np with state := .live }))) := by
  obtain ⟨hnp, hinv, hidle⟩ := h.endChild (x := { c with state := .live }) hlive hchild rfl rfl
    fun hst => by rcases hst with hst | hst <;> cases hst
  rw [h.proc np, (h.child p np _ hchild).1]
  exact .pair hinv hnp hidle hR

theorem keeps_childOfile {fd : Fin NOFILE} (hfd : c.ofile fd = none)
    (hy : (γ p).files = f ::ₘ y) (hfresh : f ∉ (γ p).fresh) (hin : (γ p).inPipe = none)
    (hR : R () { γ p with
      files := y, child := some (np, { c with ofile := assign c.ofile fd (some f) }) }) :
    Keeps γ p (.childOfile np fd f) R (some (.ok ((), s.withProc np
      { s.proc np with ofile := assign (s.proc np).ofile fd (some f) }))) := by
  obtain ⟨hproc, hused, hnp⟩ := h.child_embryo hchild
  have hold := h.dormant np hnp
  have hfiles : ∀ f', y.count f' + (f ::ₘ (γ np).files).count f' =
      (γ p).files.count f' + (γ np).files.count f' := by
    intro f'
    rw [hy, count_cons, count_cons]
    omega
  have hofile : ∀ f', (f ::ₘ (γ np).files).count f' =
      countAt (assign c.ofile fd (some f)) (some f') := by
    intro f'
    rw [count_cons, hold.files, hproc, countAt_assign_some hfd]
  have hle : (γ p).fresh ≤ y := by
    refine le_iff_count.mpr fun f' => ?_
    have hle := count_le_of_le f' (h.fresh p).le
    by_cases hff : f' = f
    · rw [hff, count_eq_zero_of_notMem hfresh]
      exact Nat.zero_le _
    · rwa [hy, count_cons_of_ne hff] at hle
  obtain ⟨hinv, hidle⟩ := h.give (x := { c with ofile := assign c.ofile fd (some f) }) hlive
    (γ p).inodes (γ np).inodes y (f ::ₘ (γ np).files) hchild hused (fun k => rfl) hfiles
    (fun k => by rw [hold.inodes, hproc]) hofile hle fun f' pi hp => absurd hp (hin ▸ nofun)
  rw [h.proc np, hproc]
  exact .pair hinv hnp hidle hR

theorem keeps_childCwd (hcwd : c.cwd = none) (hi : (γ p).inodes = k ::ₘ i)
    (hR : R () { γ p with inodes := i, child := some (np, { c with cwd := some k }) }) :
    Keeps γ p (.childCwd np k) R (some (.ok ((), s.withProc np { s.proc np with cwd := some k }))) := by
  obtain ⟨hproc, hused, hnp⟩ := h.child_embryo hchild
  have hold := h.dormant np hnp
  have hnone : ∀ j, (γ np).inodes.count j = 0 := by
    intro j
    rw [hold.inodes, hproc, hcwd, if_neg (some_ne_none j).symm]
  have hinodes : ∀ j, i.count j + ({k} : Multiset Slot).count j =
      (γ p).inodes.count j + (γ np).inodes.count j := by
    intro j
    rw [hi, hnone, count_cons, count_singleton]
    omega
  obtain ⟨hinv, hidle⟩ := h.give (x := { c with cwd := some k }) hlive i {k} (γ p).files
    (γ np).files hchild hused hinodes (fun f => rfl) (count_singleton_some k)
    (fun f => by rw [hold.files, hproc]) (h.fresh p).le fun f pi hp => ((h.fresh p).inPipe f pi hp).1
  rw [h.proc np, hproc]
  exact .pair hinv hnp hidle hR

end

end

omit h hlive

theorem sound_exec (h : Inv γ s) (x : Choice) (hrule : Rule o R (γ p)) :
    Keeps γ p o R (exec p o x s) := by
  obtain ⟨⟨hlive, _⟩, hrule⟩ := hrule
  cases o with
  | beginOp =>
    obtain ⟨hop, hR⟩ := hrule
    change Keeps γ p .beginOp R (if s.inOp p then _ else _)
    rw [h.inOp p, hop, if_neg Bool.false_ne_true]
    exact .own (h.withOp hlive true) hR
  | endOp => exact .own (h.withOp hlive false) hrule
  | panic e => exact .panic hrule
  | iget dev inum => exact keeps_iget h hlive hrule
  | idup k =>
    obtain ⟨hk, hR⟩ := hrule
    exact .own (h.addRef hlive rfl rfl (h.unique.keep rfl rfl fun _ => h.inode_pos hk)) hR
  | ilock k => exact keeps_ilock h hlive hrule.1 hrule.2
  | iunlock k =>
    obtain ⟨l, hl, hR⟩ := hrule
    exact keeps_iunlock h hlive hl hR
  | iputFirst k =>
    obtain ⟨i, hi, hdrop, hfree⟩ := hrule
    exact keeps_iputFirst h hlive hi hdrop hfree
  | iputFree k =>
    obtain ⟨l, hl, hR⟩ := hrule
    exact .own (h.giveLock hlive hl rfl rfl rfl rfl) hR
  | iputLast k =>
    obtain ⟨i, hi, hR⟩ := hrule
    exact .own (h.dropRef hlive hi rfl rfl rfl rfl) hR
  | inode k | lookup k name | ifind dev type | succeeds => exact .same h (hrule _)
  | setNlink k n | setNew k major => exact .own (h.editInode hlive rfl rfl rfl rfl) hrule.2
  | filealloc => exact keeps_filealloc h hlive hrule.1 hrule.2
  | filedup f => exact keeps_filedup h hlive hrule.1 hrule.2.1 hrule.2.2
  | unref site f =>
    cases site with
    | close =>
      obtain ⟨y, hy, hfresh, hin, hnone, hsome⟩ := hrule
      exact keeps_close h hlive hy hfresh hin hnone hsome
    | fail =>
      obtain ⟨y, z, hy, hz, hin, hR⟩ := hrule
      exact keeps_fail h hlive hy hz hin hR
  | setInode f k device major readable writable =>
    obtain ⟨i, z, hi, hz, hR⟩ := hrule
    refine .own (h.fill hlive hz ?_ ?_ rfl) hR
    · rw [hi]
      cases device <;> rfl
    · cases device <;> exact (zero_add _).symm
  | setPipe f pi writable =>
    obtain ⟨z, e, hz, he, hR⟩ := hrule
    exact .own (h.fill hlive hz (zero_add _).symm he rfl) hR
  | pipe => exact keeps_pipe h hlive x hrule.1 hrule.2
  | pipeclose pi writable =>
    obtain ⟨he, hfalse, htrue⟩ := hrule
    exact keeps_pipeclose h hlive he hfalse htrue
  | kfree pi =>
    obtain ⟨e, he, hR⟩ := hrule
    exact keeps_kfree h hlive x he hR
  | file f =>
    obtain ⟨hf, hfresh, hR⟩ := hrule
    rcases hR (s.file f) with hR | ⟨htype, _, hR⟩
    · exact .same h hR
    · refine .own (h.withInPipe hlive fun f' pi hp => ?_) hR
      obtain ⟨rfl, rfl⟩ := Prod.mk.inj (some.inj hp)
      exact ⟨hf, hfresh, htype, rfl⟩
  | pipeTurn pi writable =>
    obtain ⟨f, hin, hR⟩ := hrule
    exact keeps_pipeTurn h hlive x hin hR
  | setOfile fd f =>
    change Keeps γ p _ R
      (some (.ok ((), s.withProc p { s.proc p with ofile := assign (s.proc p).ofile fd f })))
    rw [h.proc p]
    exact .own (h.withProc hlive (.inl hlive)) hrule
  | setCwd ip =>
    change Keeps γ p _ R (some (.ok ((), s.withProc p { s.proc p with cwd := ip })))
    rw [h.proc p]
    exact .own (h.withProc hlive (.inl hlive)) hrule
  | allocproc => exact keeps_allocproc h hlive x hrule.2.1 hrule.2.2
  | freeproc np => exact keeps_freeproc h hlive hrule.1 hrule.2
  | childOfile np fd f =>
    obtain ⟨c, y, hchild, hfd, hy, hfresh, hin, hR⟩ := hrule
    exact keeps_childOfile h hlive hchild hfd hy hfresh hin hR
  | childCwd np k =>
    obtain ⟨c, i, hchild, hcwd, hi, hR⟩ := hrule
    exact keeps_childCwd h hlive hchild hcwd hi hR
  | runnable np =>
    obtain ⟨c, hchild, hR⟩ := hrule
    exact keeps_runnable h hlive hchild hR
  | zombie =>
    obtain ⟨hofile, hcwd, hidle, hR⟩ := hrule
    change Keeps γ p _ R (some (.ok ((), s.withProc p { s.proc p with state := .zombie })))
    rw [h.proc p]
    refine .own (h.withProc hlive (.inr ⟨?_, ?_⟩)) hR
    · change Proc.mk .zombie (γ p).proc.ofile (γ p).proc.cwd = _
      rw [hofile, hcwd]
      rfl
    · exact { hidle with }
  | reap => exact keeps_reap h hlive x hrule

end

end Xv6.Itable
