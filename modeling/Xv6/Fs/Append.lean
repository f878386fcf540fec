import Mathlib.Algebra.Order.BigOperators.Group.Finset
import Mathlib.Data.Fintype.Sum
import Xv6.Fs.FileWrite
import Xv6.Fs.Table

/-!
# Appending through a shared file

The chunks that processes write through one open file follow each other in the file, in the order in which
their inode locks were acquired: `filewrite` reads and advances `f->off` under the lock. `Room` says that
there are blocks for a file of the given size; writing keeps it, so that with enough room in the beginning
no write comes short.
-/

namespace Xv6.Fs

open Lib List
open Finset (add_sum_erase mem_univ card_le_card)

/-! ## Room on the disk -/

section

variable (sb : Superblock) (st : Store) (i m : ℕ)

/-- The places of the first `m` bytes of inode `i` that have no block. -/
def Store.missing : Finset Place := Finset.univ.filter fun p => Below m p ∧ st.val (i, p) = 0

/-- The free data blocks. -/
def Store.free : Finset ℕ := (Finset.range sb.size).filter fun b => sb.IsData b ∧ st.used b = false

/-- There are blocks for the first `m` bytes of inode `i`. -/
def Room : Prop := (st.missing i m).card ≤ (st.free sb).card

instance : Decidable (Room sb st i m) := inferInstanceAs (Decidable (_ ≤ _))

end

variable {sb : Superblock} {st st' : Store} {i m : ℕ}

theorem Room.step (hroom : Room sb st i m) (hown : Own sb st) (hown' : Own sb st')
    (hval : ∀ x, st.val x ≠ 0 → st'.val x = st.val x)
    (hne : ∀ j ≠ i, ∀ p, st'.val (j, p) = st.val (j, p))
    (honly : ∀ p, ¬ Below m p → st'.val (i, p) = st.val (i, p))
    (hused : ∀ c, st.used c = true → st'.used c = true) : Room sb st' i m := by
  have hmissing : st'.missing i m ⊆ st.missing i m := by
    intro p hp
    simp only [Store.missing, Finset.mem_filter, mem_univ, true_and] at hp ⊢
    refine ⟨hp.1, ?_⟩
    by_contra h0
    rw [hval _ h0] at hp
    exact h0 hp.2
  have hfree : st'.free sb ⊆ st.free sb := by
    intro b hb
    simp only [Store.free, Finset.mem_filter, Finset.mem_range] at hb ⊢
    refine ⟨hb.1, hb.2.1, ?_⟩
    by_contra hu
    rw [hused b (by simpa using hu)] at hb
    cases hb.2.2
  -- a block taken is now at a place that was missing
  have htaken : st.free sb \ st'.free sb ⊆
      (st.missing i m \ st'.missing i m).image fun p => st'.val (i, p) := by
    intro b hb
    simp only [Store.free, Finset.mem_sdiff, Finset.mem_filter, Finset.mem_range, not_and] at hb
    obtain ⟨⟨hlt, hdata, hu⟩, hu'⟩ := hb
    obtain ⟨⟨j, p⟩, hx⟩ := hown'.owns.cover b hdata (by simpa using hu' hlt hdata)
    have hb0 : b ≠ 0 := hown.owns.pos b hdata
    have h0 : st.val (j, p) = 0 := by
      by_contra h0
      rw [hval _ h0] at hx
      exact hown.owns.val_ne hdata hu _ hx
    have hne0 : st'.val (j, p) ≠ st.val (j, p) := by
      rw [hx, h0]
      exact hb0
    obtain rfl : j = i := by
      by_contra hj
      exact hne0 (hne j hj p)
    have hbelow : Below m p := by
      by_contra hp
      exact hne0 (honly p hp)
    refine Finset.mem_image.mpr ⟨p, ?_, hx⟩
    simp only [Store.missing, Finset.mem_sdiff, Finset.mem_filter, mem_univ, true_and, not_and]
    refine ⟨⟨hbelow, h0⟩, fun _ => ?_⟩
    rw [hx]
    exact hb0
  have hcard := (card_le_card htaken).trans Finset.card_image_le
  rw [Finset.card_sdiff_of_subset hfree, Finset.card_sdiff_of_subset hmissing] at hcard
  have h1 := card_le_card hfree
  have h2 := card_le_card hmissing
  unfold Room at *
  omega

theorem Room.val_ne_zero (hroom : Room sb st i m) (hfull : Full sb st) {p : Place} (hp : Below m p) :
    st.val (i, p) ≠ 0 := by
  have hfree : st.free sb = ∅ := by
    rw [Store.free, Finset.filter_eq_empty_iff]
    intro b hb ⟨_, hu⟩
    rw [hfull b (Finset.mem_range.mp hb)] at hu
    cases hu
  unfold Room at hroom
  rw [hfree, Finset.card_empty, Nat.le_zero, Finset.card_eq_zero, Store.missing,
    Finset.filter_eq_empty_iff] at hroom
  exact fun h0 => hroom (mem_univ p) ⟨hp, h0⟩

theorem Room.block_ne_zero {o : ℕ} (hroom : Room sb st i m) (hfull : Full sb st) (ho : o < m)
    (hmax : o < MAXFILE * BSIZE) : st.val (i, filePlace (o / BSIZE)) ≠ 0 :=
  hroom.val_ne_zero hfull
    (below_filePlace (div_lt_maxfile hmax) ((Nat.div_mul_le_self o BSIZE).trans_lt ho))

theorem Written.complete {s s' : Fs.State} {k : Slot} {src : Source} {off n tot : ℕ}
    (hw : Written sb k src off n tot s s') (hk : Held sb s k) (hown : Own sb (sb.abs s.disk))
    (hroom : Room sb (sb.abs s.disk) (s.inode k).inum m) (hm : off + n ≤ m)
    (hmax : off + n ≤ MAXFILE * BSIZE) {bs : List UInt8} (hbs : src.Gives bs) (hlen : bs.length = n) :
    tot = n ∧ Room sb (sb.abs s'.disk) (s.inode k).inum m := by
  have hroom' : Room sb (sb.abs s'.disk) (s.inode k).inum m := by
    refine hroom.step hown hw.wrote.own (fun x hx => ?_) (fun j hj p => ?_) (fun p hp => ?_) hw.wrote.used
    · rw [← hk.view] at hx ⊢
      exact hw.wrote.val x hx
    · rw [hw.wrote.val_ne j hj p, hk.view]
    · rw [hw.only p fun h => hp (h.mono hm), hk.view]
  refine ⟨?_, hroom'⟩
  by_contra hne
  have hlt : tot < n := Nat.lt_of_le_of_ne hw.le hne
  obtain ⟨hfull, hzero⟩ := hw.full bs hbs hlen hlt
  exact hroom'.block_ne_zero hfull (by omega) (by omega) hzero

namespace FileWrite

/-! ## Chunks -/

/-- The bytes of a chunk. -/
def chunkBytes (calls : List Call) (x : Chunk) : List UInt8 :=
  (calls[x.id]?).elim [] fun c => (c.bytes.drop x.i).take x.n1

/-- The bytes of a list of chunks. -/
def flat (calls : List Call) (w : List Chunk) : List UInt8 := w.flatMap (chunkBytes calls)

/-- The bytes of the chunks of call `id`. -/
def sent (calls : List Call) (w : List Chunk) (id : ℕ) : List UInt8 :=
  flat calls (w.filter fun x => x.id = id)

/-- The number of bytes of all calls. -/
def total (calls : List Call) : ℕ :=
  ∑ id ∈ Finset.range calls.length, (calls[id]?).elim 0 fun c => c.n.toNat

variable {calls : List Call} {w : List Chunk} {x : Chunk} {c : Call} {id j : ℕ}

theorem length_bytes (c : Call) : c.bytes.length = c.n.toNat := UserMem.length_read ..

theorem chunkBytes_append (h : x.id < calls.length) (c : Call) :
    chunkBytes (calls ++ [c]) x = chunkBytes calls x := by
  rw [chunkBytes, chunkBytes, getElem?_append_left h]

theorem flat_append_call (h : ∀ x ∈ w, x.id < calls.length) (c : Call) :
    flat (calls ++ [c]) w = flat calls w := by
  unfold flat
  induction w with
  | nil => rfl
  | cons x w ih =>
    rw [flatMap_cons, flatMap_cons, chunkBytes_append (h x mem_cons_self),
      ih fun y hy => h y (mem_cons_of_mem _ hy)]

theorem sent_append_call (h : ∀ x ∈ w, x.id < calls.length) (c : Call) (id : ℕ) :
    sent (calls ++ [c]) w id = sent calls w id :=
  flat_append_call (fun x hx => h x (mem_of_mem_filter hx)) c

theorem flat_concat (calls : List Call) (w : List Chunk) (x : Chunk) :
    flat calls (w ++ [x]) = flat calls w ++ chunkBytes calls x := by
  rw [flat, flatMap_append, flatMap_singleton, flat]

theorem sent_concat_self (calls : List Call) (w : List Chunk) (x : Chunk) :
    sent calls (w ++ [x]) x.id = sent calls w x.id ++ chunkBytes calls x := by
  rw [sent, filter_append, filter_singleton, decide_eq_true rfl]
  exact flat_concat ..

theorem sent_concat_ne (calls : List Call) (w : List Chunk) (h : x.id ≠ id) :
    sent calls (w ++ [x]) id = sent calls w id := by
  rw [sent, filter_append, filter_singleton, decide_eq_false h]
  exact congrArg (flat calls) (append_nil _)

theorem total_concat (calls : List Call) (c : Call) : total (calls ++ [c]) = total calls + c.n.toNat := by
  unfold total
  rw [length_append, length_singleton, Finset.sum_range_succ, getElem?_append_right le_rfl,
    Nat.sub_self]
  congr 1
  apply Finset.sum_congr rfl
  intro id hid
  rw [getElem?_append_left (Finset.mem_range.mp hid)]

theorem length_flat (h : ∀ x ∈ w, x.id < calls.length) :
    (flat calls w).length = ∑ id ∈ Finset.range calls.length, (sent calls w id).length := by
  induction w using reverseRecOn with
  | nil => exact (Finset.sum_eq_zero fun _ _ => rfl).symm
  | append_singleton w x ih =>
    have hx : x.id ∈ Finset.range calls.length := Finset.mem_range.mpr (h x (by simp))
    rw [flat_concat, length_append, ih fun y hy => h y (mem_append_left _ hy),
      ← add_sum_erase _ _ hx, ← add_sum_erase _ _ hx, sent_concat_self, length_append]
    have hrest : ∑ id ∈ (Finset.range calls.length).erase x.id, (sent calls (w ++ [x]) id).length =
        ∑ id ∈ (Finset.range calls.length).erase x.id, (sent calls w id).length :=
      Finset.sum_congr rfl fun id hid => by rw [sent_concat_ne _ _ (Finset.ne_of_mem_erase hid).symm]
    omega

theorem length_flat_add_le (h : ∀ x ∈ w, x.id < calls.length)
    (hsent : ∀ id c, calls[id]? = some c → (sent calls w id).length ≤ c.n.toNat)
    {n : ℕ} (hc : calls[id]? = some c) (hn : (sent calls w id).length + n ≤ c.n.toNat) :
    (flat calls w).length + n ≤ total calls := by
  have hid : id ∈ Finset.range calls.length :=
    Finset.mem_range.mpr (List.getElem?_eq_some_iff.mp hc).1
  rw [length_flat h, total, ← add_sum_erase _ _ hid, ← add_sum_erase _ _ hid, hc]
  have hrest : ∑ j ∈ (Finset.range calls.length).erase id, (sent calls w j).length ≤
      ∑ j ∈ (Finset.range calls.length).erase id, (calls[j]?).elim 0 fun c => c.n.toNat := by
    refine Finset.sum_le_sum fun j hj => ?_
    have hlt := Finset.mem_range.mp (Finset.mem_of_mem_erase hj)
    rw [getElem?_eq_getElem hlt]
    exact hsent j _ (getElem?_eq_getElem hlt)
  change _ ≤ c.n.toNat + _
  omega

/-! ## The invariant -/

/-- Call `id` has the arguments `c`, and has sent `j` bytes. -/
structure At (calls : List Call) (w : List Chunk) (id : ℕ) (c : Call) (j : ℕ) : Prop where
  call : calls[id]? = some c
  mapped : c.Mapped
  le : j ≤ c.n.toNat
  sent : sent calls w id = c.bytes.take j

/-- The chunk is a piece of the call's bytes. -/
def Piece (c : Call) (x : Chunk) : Prop := 0 < x.n1 ∧ x.i + x.n1 ≤ c.n.toNat

/-- What holds for a process. -/
def Ok (calls : List Call) (w : List Chunk) : Pc → Prop
  | .idle => True
  | .loop id c i => At calls w id c i
  | .ilock c x => At calls w x.id c x.i ∧ Piece c x
  | .write c x => At calls w x.id c x.i ∧ Piece c x
  | .iunlock c x r => At calls w x.id c (x.i + x.n1) ∧ Piece c x ∧ r = x.n1
  | .ret id c v => At calls w id c c.n.toNat ∧ v = if 0 ≤ c.n then c.n else -1

/-- The number of the call of a process. -/
def Pc.id? : Pc → Option ℕ
  | .idle => none
  | .loop id _ _ => some id
  | .ilock _ x => some x.id
  | .write _ x => some x.id
  | .iunlock _ x _ => some x.id
  | .ret id _ _ => some id

/-- The process holds the lock of the inode. -/
def Pc.holds : Pc → Bool
  | .write _ _ => true
  | .iunlock _ _ _ => true
  | _ => false

theorem At.append_call (h : At calls w id c j) (hw : ∀ x ∈ w, x.id < calls.length) (c' : Call) :
    At (calls ++ [c']) w id c j where
  call := by rw [getElem?_append_left (List.getElem?_eq_some_iff.mp h.call).1, h.call]
  mapped := h.mapped
  le := h.le
  sent := by rw [sent_append_call hw, h.sent]

theorem At.append_ne (h : At calls w id c j) (hx : x.id ≠ id) : At calls (w ++ [x]) id c j where
  call := h.call
  mapped := h.mapped
  le := h.le
  sent := by rw [sent_concat_ne _ _ hx, h.sent]

variable {k : Pc}

theorem Ok.append_call (h : Ok calls w k) (hw : ∀ x ∈ w, x.id < calls.length) (c' : Call) :
    Ok (calls ++ [c']) w k := by
  cases k with
  | idle => trivial
  | loop id c i => exact At.append_call h hw c'
  | ilock c x | write c x | iunlock c x r | ret id c v => exact ⟨h.1.append_call hw c', h.2⟩

theorem Ok.append_ne (h : Ok calls w k) (hx : k.id? ≠ some x.id) : Ok calls (w ++ [x]) k := by
  have hne : ∀ id, k.id? = some id → x.id ≠ id := fun id hid heq => hx (by rw [hid, heq])
  cases k with
  | idle => trivial
  | loop id c i => exact At.append_ne h (hne id rfl)
  | ilock c y | write c y | iunlock c y r | ret id c v => exact ⟨h.1.append_ne (hne _ rfl), h.2⟩

theorem At.chunkBytes_eq (h : At calls w x.id c j) :
    chunkBytes calls x = (c.bytes.drop x.i).take x.n1 := by
  rw [chunkBytes, h.call]
  rfl

theorem At.advance (h : At calls w x.id c x.i) (hp : Piece c x) :
    At calls (w ++ [x]) x.id c (x.i + x.n1) where
  call := h.call
  mapped := h.mapped
  le := hp.2
  sent := by rw [sent_concat_self, h.sent, h.chunkBytes_eq, take_add]

section

variable {P : Type} [DecidableEq P] {s₀ s : State P} {p : P} {M : ℕ}

/-- The chunks were written in the order of their locks; the last one may not be written yet. -/
def Ordered (pc : P → Pc) (order written : List Chunk) : Prop :=
  (order = written ∧ ∀ p c x, pc p ≠ .write c x) ∨ ∃ p c x, pc p = .write c x ∧ order = written ++ [x]

/-- What holds for the processes. -/
structure Procs (s : State P) : Prop where
  ok : ∀ p, Ok s.calls s.written (s.pc p)
  ids : ∀ p q id, (s.pc p).id? = some id → (s.pc q).id? = some id → p = q
  lock : ∀ p, (s.pc p).holds = true →
    (s.fs.inode s.file.ip).locked = true ∧ (s.fs.inode s.file.ip).valid = true
  alone : ∀ p q, (s.pc p).holds = true → (s.pc q).holds = true → p = q
  order : Ordered s.pc s.order s.written
  written : ∀ x ∈ s.written, x.id < s.calls.length
  pre : ∀ id c, s.calls[id]? = some c → sent s.calls s.written id <+: c.bytes

/-- The contents of the file before all calls. -/
def old (sb : Superblock) (s₀ : State P) : List UInt8 :=
  (sb.abs s₀.fs.disk).contents (s₀.fs.inode s₀.file.ip).inum

/-- The contents of the file when the bytes `bs` have been written. -/
def replaced (sb : Superblock) (s₀ : State P) (bs : List UInt8) : List UInt8 :=
  (old sb s₀).take s₀.file.off ++ bs ++ (old sb s₀).drop (s₀.file.off + bs.length)

/-- What holds for the file: its contents and the offset say what has been written. -/
structure OnDisk (sb : Superblock) (s₀ : State P) (M : ℕ) (fs : Fs.State) (file : Fs.File)
    (calls : List Call) (w : List Chunk) : Prop where
  file : file = { s₀.file with off := s₀.file.off + (flat calls w).length }
  inum : (fs.inode s₀.file.ip).inum = (s₀.fs.inode s₀.file.ip).inum
  inum_lt : (fs.inode s₀.file.ip).inum < sb.ninodes
  ref : 0 < (fs.inode s₀.file.ip).ref
  held : (fs.inode s₀.file.ip).valid = true → Held sb fs s₀.file.ip
  alloc : ((sb.abs fs.disk).din (fs.inode s₀.file.ip).inum).type ≠ 0
  own : Own sb (sb.abs fs.disk)
  room : Room sb (sb.abs fs.disk) (fs.inode s₀.file.ip).inum M
  size : ((sb.abs fs.disk).din (fs.inode s₀.file.ip).inum).size.toNat ≤ MAXFILE * BSIZE
  contents : (sb.abs fs.disk).contents (fs.inode s₀.file.ip).inum = replaced sb s₀ (flat calls w)
  budget : s₀.file.off + total calls ≤ M

/-! ## Steps of the processes -/

variable {k : Pc} {fs : Fs.State}

theorem Procs.goto (h : Procs s) {order : List Chunk}
    (hok : Ok s.calls s.written k) (hid : ∀ id, k.id? = some id → (s.pc p).id? = some id)
    (hholds : k.holds = true → ∀ q ≠ p, (s.pc q).holds = false)
    (hlock : ∀ q, (assign s.pc p k q).holds = true →
      (fs.inode s.file.ip).locked = true ∧ (fs.inode s.file.ip).valid = true)
    (horder : Ordered (assign s.pc p k) order s.written) :
    Procs { s with fs := fs, pc := assign s.pc p k, order := order } := by
  have hids : ∀ q id, (assign s.pc p k q).id? = some id → (s.pc q).id? = some id := by
    intro q id hq
    rcases assign_cases (φ := fun k : Pc => k.id? = some id) hq with ⟨rfl, hk⟩ | ⟨-, hq⟩
    · exact hid id hk
    · exact hq
  refine ⟨assign_forall (φ := fun _ => Ok s.calls s.written) hok fun q _ => h.ok q,
    fun q r id hq hr => h.ids q r id (hids q id hq) (hids r id hr), hlock, fun q r hq hr => ?_, horder,
    h.written, h.pre⟩
  · rcases assign_cases (φ := fun k : Pc => k.holds = true) hq with ⟨rfl, hk⟩ | ⟨hqp, hq'⟩ <;>
      rcases assign_cases (φ := fun k : Pc => k.holds = true) hr with ⟨rfl, hk'⟩ | ⟨hrp, hr'⟩
    · rfl
    · rw [hholds hk r hrp] at hr'
      cases hr'
    · rw [hholds hk' q hqp] at hq'
      cases hq'
    · exact h.alone q r hq' hr'

theorem Procs.order_assign (h : Procs s) (hp : ∀ c x, s.pc p ≠ .write c x)
    (hk : ∀ c x, k ≠ .write c x) : Ordered (assign s.pc p k) s.order s.written := by
  rcases h.order with ⟨heq, hnone⟩ | ⟨q, c, x, hq, heq⟩
  · exact .inl ⟨heq, assign_forall (φ := fun _ (y : Pc) => ∀ c x, y ≠ .write c x) hk fun q _ => hnone q⟩
  · refine .inr ⟨q, c, x, ?_, heq⟩
    have hqp : q ≠ p := by
      rintro rfl
      exact hp c x hq
    exact (if_neg hqp).trans hq

theorem Pc.ne_write (h : k.holds = false) (c : Call) (x : Chunk) : k ≠ .write c x := by
  rintro rfl
  cases h

theorem Procs.goto_free (h : Procs s) (hok : Ok s.calls s.written k)
    (hid : ∀ id, k.id? = some id → (s.pc p).id? = some id) (hp : (s.pc p).holds = false)
    (hk : k.holds = false) : Procs { s with pc := assign s.pc p k } := by
  refine h.goto hok hid (fun h => by rw [hk] at h; cases h)
    (fun q hq => ?_) (h.order_assign (Pc.ne_write hp) (Pc.ne_write hk))
  rcases assign_cases (φ := fun k : Pc => k.holds = true) hq with ⟨-, hq⟩ | ⟨-, hq⟩
  · rw [hk] at hq
    cases hq
  · exact h.lock q hq

theorem Procs.call (h : Procs s) (hp : s.pc p = .idle) (hc : c.Mapped) :
    Procs { s with pc := assign s.pc p (.loop s.calls.length c 0), calls := s.calls ++ [c] } := by
  have hnew : sent s.calls s.written s.calls.length = [] := by
    rw [sent, filter_eq_nil_iff.mpr]
    · rfl
    · intro x hx
      have hlt := h.written x hx
      simp only [decide_eq_true_eq]
      omega
  have hlt : ∀ q id, (s.pc q).id? = some id → id < s.calls.length := by
    intro q id hq
    have hok := h.ok q
    cases hpc : s.pc q <;> rw [hpc] at hq hok <;> simp only [Pc.id?, Option.some.injEq, reduceCtorEq] at hq
    all_goals
      subst hq
    · exact (List.getElem?_eq_some_iff.mp (At.call hok)).1
    · exact (List.getElem?_eq_some_iff.mp hok.1.call).1
    · exact (List.getElem?_eq_some_iff.mp hok.1.call).1
    · exact (List.getElem?_eq_some_iff.mp hok.1.call).1
    · exact (List.getElem?_eq_some_iff.mp hok.1.call).1
  have hat : At (s.calls ++ [c]) s.written s.calls.length c 0 := by
    refine ⟨?_, hc, Nat.zero_le _, ?_⟩
    · rw [getElem?_append_right le_rfl, Nat.sub_self]
      rfl
    · rw [sent_append_call h.written, hnew]
      rfl
  have hholds : ∀ q, (assign s.pc p (.loop s.calls.length c 0) q).holds = true → (s.pc q).holds = true := by
    intro q hq
    rcases assign_cases (φ := fun k : Pc => k.holds = true) hq with ⟨-, hq⟩ | ⟨-, hq⟩
    · cases hq
    · exact hq
  refine ⟨assign_forall (φ := fun _ => Ok (s.calls ++ [c]) s.written) hat fun q _ =>
    (h.ok q).append_call h.written c, fun q r id hq hr => ?_, fun q hq => h.lock q (hholds q hq),
    fun q r hq hr => h.alone q r (hholds q hq) (hholds r hr),
    h.order_assign (by rw [hp]; exact Pc.ne_write rfl) (Pc.ne_write rfl), fun x hx => ?_, fun id c' hid => ?_⟩
  · rcases assign_cases (φ := fun k : Pc => k.id? = some id) hq with ⟨rfl, hq'⟩ | ⟨-, hq'⟩ <;>
      rcases assign_cases (φ := fun k : Pc => k.id? = some id) hr with ⟨rfl, hr'⟩ | ⟨-, hr'⟩
    · rfl
    · cases hq'
      exact absurd (hlt r _ hr') (Nat.lt_irrefl _)
    · cases hr'
      exact absurd (hlt q _ hq') (Nat.lt_irrefl _)
    · exact h.ids q r id hq' hr'
  · rw [length_append]
    exact Nat.lt_add_right _ (h.written x hx)
  · dsimp only at hid ⊢
    rw [sent_append_call h.written]
    rcases Nat.lt_or_ge id s.calls.length with hlt' | hge
    · rw [getElem?_append_left hlt'] at hid
      exact h.pre id c' hid
    · obtain rfl : id = s.calls.length := by
        have hlen := (List.getElem?_eq_some_iff.mp hid).1
        rw [length_append, length_singleton] at hlen
        omega
      rw [hnew]
      exact nil_prefix

theorem Procs.lockInode (h : Procs s) (hp : s.pc p = .ilock c x)
    (hfree : (s.fs.inode s.file.ip).locked = false) (hfs : (fs.inode s.file.ip).locked = true ∧
      (fs.inode s.file.ip).valid = true) :
    Procs { s with fs := fs, pc := assign s.pc p (.write c x), order := s.order ++ [x] } := by
  have hnone : ∀ q, (s.pc q).holds = false := by
    intro q
    by_contra hq
    rw [(h.lock q (by simpa using hq)).1] at hfree
    cases hfree
  have hok := h.ok p
  rw [hp] at hok
  refine h.goto hok (fun id hid => by rw [hp]; exact hid) (fun _ q _ => hnone q) (fun _ _ => hfs) ?_
  rcases h.order with ⟨heq, -⟩ | ⟨q, c', y, hq, -⟩
  · exact .inr ⟨p, c, x, if_pos rfl, by rw [heq]⟩
  · exact absurd hq (Pc.ne_write (hnone q) c' y)

variable {r : ℤ}

theorem Procs.unlockInode (h : Procs s) (hp : s.pc p = .iunlock c x r)
    (hok : Ok s.calls s.written k) (hid : k.id? = some x.id) (hk : k.holds = false) :
    Procs { s with fs := fs, pc := assign s.pc p k } := by
  have hholds : (s.pc p).holds = true := by rw [hp]; rfl
  refine h.goto hok (fun id hid' => by rw [hp, ← hid', hid]; rfl) (fun h => by rw [hk] at h; cases h)
    (fun q hq => ?_) (h.order_assign (by rw [hp]; exact nofun) (Pc.ne_write hk))
  rcases assign_cases (φ := fun k : Pc => k.holds = true) hq with ⟨-, hq⟩ | ⟨hqp, hq⟩
  · rw [hk] at hq
    cases hq
  · exact absurd (h.alone q p hq hholds) hqp

theorem Procs.write (h : Procs s) {off : ℕ} (hp : s.pc p = .write c x)
    (hfs : (fs.inode s.file.ip).locked = (s.fs.inode s.file.ip).locked ∧
      (fs.inode s.file.ip).valid = (s.fs.inode s.file.ip).valid) : Procs { s with
      fs := fs
      file := { s.file with off := off }
      pc := assign s.pc p (.iunlock c x x.n1)
      written := s.written ++ [x] } := by
  have hholds : (s.pc p).holds = true := by rw [hp]; rfl
  have hself : (s.pc p).id? = some x.id := by rw [hp]; rfl
  have hok := h.ok p
  rw [hp] at hok
  obtain ⟨hat, hpiece⟩ := hok
  have hsame : ∀ q, (assign s.pc p (.iunlock c x x.n1) q).holds = (s.pc q).holds :=
    assign_forall (φ := fun q (k : Pc) => k.holds = (s.pc q).holds) hholds.symm fun _ _ => rfl
  have hids : ∀ q, (assign s.pc p (.iunlock c x x.n1) q).id? = (s.pc q).id? :=
    assign_forall (φ := fun q (k : Pc) => k.id? = (s.pc q).id?) hself.symm fun _ _ => rfl
  refine ⟨?_, fun q r id hq hr => ?_, fun q hq => ?_, fun q r hq hr => ?_, ?_, fun y hy => ?_,
    fun id c' hid => ?_⟩
  · refine assign_forall (φ := fun _ => Ok s.calls (s.written ++ [x])) ⟨hat.advance hpiece, hpiece, rfl⟩
      fun q hq => (h.ok q).append_ne fun hid => hq (h.ids q p x.id hid hself)
  · exact h.ids q r id ((hids q).symm.trans hq) ((hids r).symm.trans hr)
  · rw [hfs.1, hfs.2]
    exact h.lock q ((hsame q).symm.trans hq)
  · exact h.alone q r ((hsame q).symm.trans hq) ((hsame r).symm.trans hr)
  · refine .inl ⟨?_, assign_forall (φ := fun _ (y : Pc) => ∀ c x, y ≠ .write c x) nofun fun q hq c' y heq => ?_⟩
    · rcases h.order with ⟨-, hnone⟩ | ⟨q, c', y, hq, heq⟩
      · exact absurd hp (hnone p c x)
      · obtain rfl := h.alone q p (by rw [hq]; rfl) hholds
        rw [hp] at hq
        cases hq
        exact heq
    · exact hq (h.alone q p (by rw [heq]; rfl) hholds)
  · rcases mem_append.mp hy with hy | hy
    · exact h.written y hy
    · rw [mem_singleton.mp hy]
      exact (List.getElem?_eq_some_iff.mp hat.call).1
  · dsimp only at hid ⊢
    by_cases hne : x.id = id
    · subst hne
      rw [hat.call] at hid
      cases hid
      rw [(hat.advance hpiece).sent]
      exact take_prefix ..
    · rw [sent_concat_ne _ _ hne]
      exact h.pre id c' hid

/-! ## Steps on the file -/

omit [DecidableEq P] in
theorem replaced_append (h : s₀.file.off ≤ (old sb s₀).length) (bs q : List UInt8) :
    (replaced sb s₀ bs).take (s₀.file.off + bs.length) ++ q ++
      (replaced sb s₀ bs).drop (s₀.file.off + bs.length + q.length) = replaced sb s₀ (bs ++ q) := by
  have hlen : ((old sb s₀).take s₀.file.off ++ bs).length = s₀.file.off + bs.length := by
    rw [length_append, length_take, Nat.min_eq_left h]
  rw [replaced, ← hlen, take_left, ← drop_drop, drop_left, drop_drop, hlen, replaced,
    length_append, Nat.add_assoc, append_assoc _ bs q]

omit [DecidableEq P] in
theorem replaced_nil (sb : Superblock) (s₀ : State P) : replaced sb s₀ [] = old sb s₀ := by
  rw [replaced, append_nil, length_nil, Nat.add_zero, take_append_drop]

omit [DecidableEq P] in
theorem le_length_replaced (h : s₀.file.off ≤ (old sb s₀).length) (bs : List UInt8) :
    s₀.file.off + bs.length ≤ (replaced sb s₀ bs).length := by
  rw [replaced, length_append, length_append, length_take, Nat.min_eq_left h]
  exact Nat.le_add_right ..

theorem Call.gives_piece (hc : c.Mapped) (hx : Piece c x) :
    (Source.user c.mem (c.addr + x.i)).Gives ((c.bytes.drop x.i).take x.n1) := by
  have hlen : ((c.bytes.drop x.i).take x.n1).length = x.n1 := by
    rw [length_take, length_drop, length_bytes]
    have := hx.2
    omega
  refine ⟨fun j hj => ?_, ?_⟩
  · rw [hlen] at hj
    rw [Nat.add_assoc]
    exact hc _ (by have := hx.2; omega)
  · rw [hlen]
    apply ext_getElem
    · rw [UserMem.length_read, hlen]
    · intro j h1 h2
      simp only [Call.bytes, UserMem.read, getElem_map, getElem_range, getElem_take,
        getElem_drop, Nat.add_assoc]

section

variable {fs fs' : Fs.State} {file : Fs.File}

omit [DecidableEq P] in
theorem OnDisk.call (h : OnDisk sb s₀ M fs file calls w) (hw : ∀ x ∈ w, x.id < calls.length)
    (hM : s₀.file.off + total (calls ++ [c]) ≤ M) : OnDisk sb s₀ M fs file (calls ++ [c]) w := by
  refine ⟨?_, h.inum, h.inum_lt, h.ref, h.held, h.alloc, h.own, h.room, h.size, ?_, hM⟩
  · rw [flat_append_call hw]
    exact h.file
  · rw [flat_append_call hw]
    exact h.contents

omit [DecidableEq P] in
theorem OnDisk.withInode (h : OnDisk sb s₀ M fs file calls w) {y : Inode}
    (hinum : y.inum = (fs.inode s₀.file.ip).inum) (href : y.ref = (fs.inode s₀.file.ip).ref)
    (hdin : y.valid = true → y.din = (sb.abs fs.disk).din y.inum) :
    OnDisk sb s₀ M (fs.withInode s₀.file.ip y) file calls w := by
  have hy : ((fs.withInode s₀.file.ip y).inode s₀.file.ip).inum = (fs.inode s₀.file.ip).inum := by
    rw [withInode_self, hinum]
  refine ⟨h.file, hy.trans h.inum, hy ▸ h.inum_lt, ?_, fun hv => ⟨hy ▸ h.inum_lt, ?_, ?_⟩, ?_, h.own, ?_, ?_,
    ?_, h.budget⟩
  · rw [withInode_self, href]
    exact h.ref
  · rw [withInode_self] at hv ⊢
    exact hdin hv
  · rw [withInode_self] at hv ⊢
    rw [hdin hv, hinum]
    exact h.alloc
  · rw [hy]
    exact h.alloc
  · rw [hy]
    exact h.room
  · rw [hy]
    exact h.size
  · rw [hy]
    exact h.contents

omit [DecidableEq P] in
theorem OnDisk.writei (hv : sb.Valid) (hmax : M ≤ MAXFILE * BSIZE)
    (hoff : s₀.file.off ≤ (old sb s₀).length) (h : OnDisk sb s₀ M fs file calls w)
    (hvalid : (fs.inode s₀.file.ip).valid = true) (hw : ∀ x ∈ w, x.id < calls.length)
    (hsent : ∀ id c, calls[id]? = some c → (sent calls w id).length ≤ c.n.toNat)
    (hat : At calls w x.id c x.i) (hx : Piece c x) :
    ∃ fs', (Fs.writei sb file.ip (.user c.mem (c.addr + x.i)) file.off x.n1).run fs =
        .ok ((x.n1 : ℤ), fs') ∧
      (fs'.inode file.ip).locked = (fs.inode file.ip).locked ∧
      (fs'.inode file.ip).valid = (fs.inode file.ip).valid ∧
      OnDisk sb s₀ M fs' { file with off := (file.off + x.n1) % 2 ^ 32 } calls (w ++ [x]) := by
  have hip : file.ip = s₀.file.ip := by rw [h.file]
  have hfoff : file.off = s₀.file.off + (flat calls w).length := by rw [h.file]
  have hk := h.held hvalid
  have hchunk := hat.chunkBytes_eq
  have hlen : (chunkBytes calls x).length = x.n1 := by
    rw [hchunk, length_take, length_drop, length_bytes]
    have := hx.2
    omega
  have hgives : (Source.user c.mem (c.addr + x.i)).Gives (chunkBytes calls x) := by
    rw [hchunk]
    exact Call.gives_piece hat.mapped hx
  -- the chunk ends within the bytes of all calls
  have hend : file.off + x.n1 ≤ M := by
    have hsentlen : (sent calls w x.id).length = x.i := by
      rw [hat.sent, length_take, length_bytes, Nat.min_eq_left hat.le]
    have hle := length_flat_add_le hw hsent hat.call (n := x.n1) (by rw [hsentlen]; exact hx.2)
    have hbudget := h.budget
    omega
  have hsize : (fs.inode s₀.file.ip).din.size.toNat =
      ((sb.abs fs.disk).contents (fs.inode s₀.file.ip).inum).length := by
    rw [Store.contents, Store.length_bytes, hk.sync]
  have hle : file.off ≤ (fs.inode s₀.file.ip).din.size.toNat := by
    rw [hsize, h.contents, hfoff]
    exact le_length_replaced hoff _
  have hsize' : (fs.inode s₀.file.ip).din.size.toNat ≤ MAXFILE * BSIZE := by
    rw [hk.sync]
    exact h.size
  have hspec := writei_written (E := fun _ => False) hv (by rw [hk.view]; exact h.own) hk.type hk.inum_lt
    (.user c.mem (c.addr + x.i)) hle (hend.trans hmax)
  obtain ⟨r, fs', hrun, tot, rfl, hwritten⟩ := hspec.exists_ok
  obtain ⟨rfl, hroom⟩ := hwritten.complete hk h.own h.room hend (hend.trans hmax) hgives hlen
  have hcontents := hwritten.contents_eq hk hle hsize' (hend.trans hmax) hgives hlen
  have hself := hwritten.wrote.frame.self
  have hinum := hwritten.wrote.frame.inum
  have hheld := hwritten.wrote.held hk
  refine ⟨fs', by rw [hip]; exact hrun, by rw [hip, hself], by rw [hip, hself], ?_⟩
  have hflat : (flat calls (w ++ [x])).length = (flat calls w).length + x.n1 := by
    rw [flat_concat, length_append, hlen]
  have hlt : file.off + x.n1 < 2 ^ 32 :=
    Nat.lt_of_le_of_lt (hend.trans hmax) (by decide)
  refine ⟨?_, hinum.trans h.inum, hheld.inum_lt, ?_, fun _ => hheld, ?_, hwritten.wrote.own, ?_, ?_, ?_,
    h.budget⟩
  · rw [Nat.mod_eq_of_lt hlt, hflat, hfoff, h.file, Nat.add_assoc]
  · rw [hself]
    exact h.ref
  · rw [← hheld.sync]
    exact hheld.type
  · rw [hinum]
    exact hroom
  · rw [← hheld.sync, hwritten.wrote.size]
    omega
  · rw [hinum, hcontents, h.contents, hfoff, ← hlen, take_length, replaced_append hoff, flat_concat]

end

/-! ## Runs -/

/-- The invariant of runs from `s₀`, when all calls end before byte `M`. -/
structure Inv (sb : Superblock) (s₀ : State P) (M : ℕ) (s : State P) : Prop where
  procs : Procs s
  disk : OnDisk sb s₀ M s.fs s.file s.calls s.written

/-- The action is not possible, or it keeps the invariant; in no case does it panic. -/
def Kept (sb : Superblock) (s₀ : State P) (M : ℕ) (r : Option (Except Err (State P))) : Prop :=
  r = none ∨ ∃ s', r = some (.ok s') ∧ Inv sb s₀ M s'

omit [DecidableEq P] in
theorem Kept.ok (h : Inv sb s₀ M s) : Kept sb s₀ M (some (.ok s)) := .inr ⟨s, rfl, h⟩

theorem At.finished (h : At calls w id c j) (hj : ¬ (j : ℤ) < c.n) :
    j = c.n.toNat ∧ result c j = if 0 ≤ c.n then c.n else -1 := by
  have hle := h.le
  have heq : j = c.n.toNat := by omega
  refine ⟨heq, ?_⟩
  rw [result]
  by_cases hn : 0 ≤ c.n
  · rw [if_pos hn, if_pos (by omega)]
  · rw [if_neg hn, if_neg (by omega)]

section

variable (hv : sb.Valid) (hmax : M ≤ MAXFILE * BSIZE) (hoff : s₀.file.off ≤ (old sb s₀).length)
  (hinv : Inv sb s₀ M s)

include hinv

omit [DecidableEq P] in
theorem Inv.ip : s.file.ip = s₀.file.ip := by rw [hinv.disk.file]

theorem Inv.kept_ilock (hp : s.pc p = .ilock c x) : Kept sb s₀ M (go sb s p) := by
  have hip := hinv.ip
  have hd := hinv.disk
  rw [go, hp]
  dsimp only
  by_cases hlocked : (s.fs.inode s.file.ip).locked = true
  · rw [if_pos hlocked]
    exact .inl rfl
  · rw [if_neg hlocked]
    have hfree := Bool.eq_false_iff.mpr hlocked
    have hspec := ilock_free_spec (E := fun _ => False) (k := s₀.file.ip) hd.inum_lt hd.held hd.ref
      (by rw [← hip]; exact hfree) (fun h0 => hd.alloc h0)
    obtain ⟨_, fs', hrun, -, rfl⟩ := hspec.exists_ok
    rw [← hip] at hrun
    rw [hrun]
    have hd' : OnDisk sb s₀ M (s.fs.withInode s.file.ip (lockedInode sb s.fs s.file.ip)) s.file s.calls
        s.written := by
      rw [hip]
      exact hd.withInode (y := lockedInode sb s.fs s₀.file.ip) rfl rfl fun _ => rfl
    refine .ok ⟨hinv.procs.lockInode hp hfree ?_, hd'⟩
    rw [withInode_self]
    exact ⟨rfl, rfl⟩

theorem Inv.kept_iunlock (hp : s.pc p = .iunlock c x r) : Kept sb s₀ M (go sb s p) := by
  have hip := hinv.ip
  have hd := hinv.disk
  have hok := hinv.procs.ok p
  rw [hp] at hok
  obtain ⟨hat, -, rfl⟩ := hok
  obtain ⟨hlocked, hvalid⟩ := hinv.procs.lock p (by rw [hp]; rfl)
  have href := hd.ref
  rw [← hip] at href
  have hrun : (iunlock s.file.ip).run s.fs = .ok ((),
      s.fs.withInode s.file.ip { s.fs.inode s.file.ip with locked := false }) := by
    have hspec : wp (iunlock s.file.ip) (fun _ => False) s.fs fun _ fs' =>
        fs' = s.fs.withInode s.file.ip { s.fs.inode s.file.ip with locked := false } := by
      simp only [iunlock, wp_bind, wp_get]
      rw [if_neg (by rw [hlocked]; simp only [reduceCtorEq, false_or]; omega), wp_setInode]
    obtain ⟨_, _, hrun, rfl⟩ := hspec.exists_ok
    exact hrun
  rw [go, hp]
  dsimp only
  rw [hrun, Int.toNat_natCast]
  refine .ok ⟨hinv.procs.unlockInode (k := if (x.n1 : ℤ) ≠ x.n1 then _ else _) hp ?_ ?_ ?_, ?_⟩
  · rw [if_neg (not_not.mpr rfl)]
    exact hat
  · rw [if_neg (not_not.mpr rfl)]
    rfl
  · rw [if_neg (not_not.mpr rfl)]
    rfl
  · dsimp only
    rw [hip]
    refine hd.withInode rfl rfl fun hval => ?_
    exact (hd.held hval).sync

theorem Inv.kept_call (hw : s₀.file.writable = true) (hc : c.Mapped)
    (hM : s₀.file.off + total s.calls + c.n.toNat ≤ M) (p : P) : Kept sb s₀ M (next sb s (.call p c)) := by
  have hwritable : s.file.writable = true := by rw [hinv.disk.file]; exact hw
  dsimp only [next]
  cases hp : s.pc p with
  | idle =>
    dsimp only
    rw [if_pos hwritable]
    refine .ok ⟨hinv.procs.call hp hc, hinv.disk.call hinv.procs.written ?_⟩
    rw [total_concat]
    omega
  | _ => exact .inl rfl

include hv hmax hoff

theorem Inv.kept_write (hp : s.pc p = .write c x) : Kept sb s₀ M (go sb s p) := by
  have hip := hinv.ip
  have hok := hinv.procs.ok p
  rw [hp] at hok
  obtain ⟨hat, hpiece⟩ := hok
  obtain ⟨-, hvalid⟩ := hinv.procs.lock p (by rw [hp]; rfl)
  rw [hip] at hvalid
  have hsent : ∀ id c, s.calls[id]? = some c → (sent s.calls s.written id).length ≤ c.n.toNat := by
    intro id c hc
    rw [← length_bytes]
    exact (hinv.procs.pre id c hc).length_le
  obtain ⟨fs', hrun, hlocked', hvalid', hd'⟩ :=
    hinv.disk.writei hv hmax hoff hvalid hinv.procs.written hsent hat hpiece
  have hpos : (0 : ℤ) < (x.n1 : ℤ) := Int.natCast_pos.mpr hpiece.1
  rw [go, hp]
  dsimp only
  rw [hrun]
  refine .ok ⟨hinv.procs.write hp ⟨hlocked', hvalid'⟩, ?_⟩
  dsimp only
  rw [if_pos hpos, Int.toNat_natCast]
  exact hd'

theorem Inv.kept_go (p : P) : Kept sb s₀ M (go sb s p) := by
  cases hp : s.pc p with
  | idle =>
    rw [go, hp]
    exact .inl rfl
  | loop id c i =>
    have hat : At s.calls s.written id c i := by
      have hok := hinv.procs.ok p
      rwa [hp] at hok
    have hfree : (s.pc p).holds = false := by rw [hp]; rfl
    rw [go, hp]
    dsimp only
    by_cases hi : (i : ℤ) < c.n
    · rw [if_pos hi]
      have hpos : 0 < maxWrite := by decide
      refine .ok ⟨hinv.procs.goto_free ⟨hat, ?_, ?_⟩ (fun _ h => by rw [hp]; exact h) hfree rfl, hinv.disk⟩
      · change 0 < min (c.n.toNat - i) maxWrite
        omega
      · change i + min (c.n.toNat - i) maxWrite ≤ c.n.toNat
        omega
    · rw [if_neg hi]
      obtain ⟨heq, hres⟩ := hat.finished hi
      exact .ok ⟨hinv.procs.goto_free ⟨heq ▸ hat, hres⟩ (fun _ h => by rw [hp]; exact h) hfree rfl, hinv.disk⟩
  | ilock c x => exact hinv.kept_ilock hp
  | write c x => exact hinv.kept_write hv hmax hoff hp
  | iunlock c x r => exact hinv.kept_iunlock hp
  | ret id c v =>
    rw [go, hp]
    exact .ok ⟨hinv.procs.goto_free trivial (fun _ h => nomatch h) (by rw [hp]; rfl) rfl, hinv.disk⟩

end

/-- The number of bytes that an action wants to write. -/
def Act.size : Act P → ℕ
  | .call _ c => c.n.toNat
  | .go _ => 0

omit [DecidableEq P] in
theorem Start.inv (h : Start sb s) (hroom : Room sb (sb.abs s.fs.disk) (s.fs.inode s.file.ip).inum M)
    (hM : s.file.off ≤ M) : Inv sb s M s := by
  have hidle := h.pc
  refine ⟨⟨fun p => ?_, fun p q id hp => ?_, fun p hp => ?_, fun p q hp => ?_,
    .inl ⟨by rw [h.order, h.written], fun p c x => ?_⟩, ?_, ?_⟩,
    ⟨?_, rfl, h.inum_lt, h.ref, fun hval => ⟨h.inum_lt, h.sync hval, ?_⟩, h.alloc, h.own, hroom, h.size, ?_, ?_⟩⟩
  · rw [hidle]
    trivial
  · rw [hidle] at hp
    cases hp
  · rw [hidle] at hp
    cases hp
  · rw [hidle] at hp
    cases hp
  · rw [hidle]
    exact nofun
  · rw [h.written]
    exact nofun
  · rw [h.calls]
    exact nofun
  · rw [h.written]
    rfl
  · rw [h.sync hval]
    exact h.alloc
  · rw [h.written]
    exact (replaced_nil sb s).symm
  · rw [h.calls]
    exact hM

variable {s' : State P}

omit [DecidableEq P] in
theorem calls_of_map {α : Type} {r : Except Err α} {f : α → State P} (h : r.map f = .ok s')
    (hf : ∀ a, (f a).calls = s.calls) : s'.calls = s.calls := by
  cases r with
  | error e => cases h
  | ok a =>
    cases h
    exact hf a

theorem total_next {a : Act P} (h : next sb s a = some (.ok s')) :
    total s'.calls = total s.calls + a.size := by
  cases a with
  | call p c =>
    dsimp only [next] at h
    cases hp : s.pc p <;> rw [hp] at h <;> cases h
    exact total_concat ..
  | go p =>
    suffices hcalls : s'.calls = s.calls by
      rw [hcalls]
      rfl
    change go sb s p = _ at h
    unfold go at h
    cases hp : s.pc p <;> rw [hp] at h <;> dsimp only at h
    · cases h
    · split at h <;> cases h <;> rfl
    · split at h
      · cases h
      · exact calls_of_map (Option.some.inj h) fun _ => rfl
    · exact calls_of_map (Option.some.inj h) fun _ => rfl
    · exact calls_of_map (Option.some.inj h) fun _ => rfl
    · cases h
      rfl

theorem Inv.run (hv : sb.Valid) (hmax : M ≤ MAXFILE * BSIZE)
    (hoff : s₀.file.off ≤ (old sb s₀).length) (hw : s₀.file.writable = true) (hinv : Inv sb s₀ M s)
    (acts : List (Act P)) (hrun : (machine sb P).run s acts = some s')
    (hmapped : ∀ p c, Act.call p c ∈ acts → c.Mapped)
    (hM : s₀.file.off + total s.calls + (acts.map Act.size).sum ≤ M) : Inv sb s₀ M s' := by
  induction acts generalizing s with
  | nil =>
    obtain rfl : s = s' := by simpa using hrun
    exact hinv
  | cons a acts ih =>
    rw [Machine.run_cons, Option.bind_eq_some_iff] at hrun
    obtain ⟨s1, hstep, hrun⟩ := hrun
    rw [map_cons, sum_cons] at hM
    have hnext : next sb s a = some (.ok s1) := by
      change step sb s a = _ at hstep
      unfold step at hstep
      split at hstep
      · next s2 heq => rw [heq, Option.some.inj hstep]
      · cases hstep
    have hkept : Kept sb s₀ M (next sb s a) := by
      cases a with
      | call p c =>
        have hsize : s₀.file.off + total s.calls + c.n.toNat ≤ M := by
          change _ + (c.n.toNat + _) ≤ M at hM
          omega
        exact hinv.kept_call hw (hmapped p c mem_cons_self) hsize p
      | go p => exact hinv.kept_go hv hmax hoff p
    rw [hnext] at hkept
    rcases hkept with hnone | ⟨s2, heq, hinv1⟩
    · cases hnone
    · cases heq
      refine ih hinv1 hrun (fun p c hc => hmapped p c (mem_cons_of_mem _ hc)) ?_
      rw [total_next hnext]
      omega

/-- **Appends through a shared file are not lost.** After any interleaving of calls with mapped buffers, if
there is room for all their bytes behind the first offset: the file holds the chunks one after the other, in
the order of their locks, behind that offset and otherwise what it held before; the offset has advanced by
all their bytes; each call has written its bytes in order, and all of them when it returns. No call panics. -/
theorem filewrite_appends (hv : sb.Valid) (hstart : Start sb s₀) (acts : List (Act P))
    (hrun : (machine sb P).run s₀ acts = some s) (hmapped : ∀ p c, Act.call p c ∈ acts → c.Mapped)
    (hmax : s₀.file.off + (acts.map Act.size).sum ≤ MAXFILE * BSIZE)
    (hroom : Room sb (sb.abs s₀.fs.disk) (s₀.fs.inode s₀.file.ip).inum
      (s₀.file.off + (acts.map Act.size).sum)) :
    (∀ p e, go sb s p ≠ some (.error e)) ∧ Ordered s.pc s.order s.written ∧
    (sb.abs s.fs.disk).contents (s₀.fs.inode s₀.file.ip).inum =
      replaced sb s₀ (flat s.calls s.written) ∧
    s.file.off = s₀.file.off + (flat s.calls s.written).length ∧
    (∀ w₁ x w₂, s.written = w₁ ++ x :: w₂ →
      (((sb.abs s.fs.disk).contents (s₀.fs.inode s₀.file.ip).inum).drop
        (s₀.file.off + (flat s.calls w₁).length)).take (chunkBytes s.calls x).length =
        chunkBytes s.calls x) ∧
    (∀ id c, s.calls[id]? = some c → sent s.calls s.written id <+: c.bytes) ∧
    ∀ p id c v, s.pc p = .ret id c v →
      sent s.calls s.written id = c.bytes ∧ v = if 0 ≤ c.n then c.n else -1 := by
  have hoff : s₀.file.off ≤ (old sb s₀).length := by
    rw [old, Store.contents, Store.length_bytes]
    exact hstart.off
  have hinv : Inv sb s₀ (s₀.file.off + (acts.map Act.size).sum) s := by
    refine (hstart.inv hroom (Nat.le_add_right ..)).run hv hmax hoff hstart.writable acts hrun hmapped ?_
    rw [hstart.calls]
    exact Nat.le_refl _
  have hcontents := hinv.disk.contents
  rw [hinv.disk.inum] at hcontents
  refine ⟨fun p e herr => ?_, hinv.procs.order, hcontents, by rw [hinv.disk.file], ?_, hinv.procs.pre, ?_⟩
  · rcases hinv.kept_go hv hmax hoff p with hnone | ⟨s', hok, -⟩
    · rw [hnone] at herr
      cases herr
    · rw [hok] at herr
      cases herr
  · intro w₁ x w₂ hw
    have hlen : ((old sb s₀).take s₀.file.off ++ flat s.calls w₁).length =
        s₀.file.off + (flat s.calls w₁).length := by
      rw [length_append, length_take, Nat.min_eq_left hoff]
    have hsplit : flat s.calls s.written =
        flat s.calls w₁ ++ (chunkBytes s.calls x ++ flat s.calls w₂) := by
      rw [hw, flat, flatMap_append, flatMap_cons]
      rfl
    rw [hcontents, replaced, hsplit, ← hlen, ← append_assoc ((old sb s₀).take _), append_assoc,
      drop_left, append_assoc, take_left]
  · intro p id c v hp
    have hok := hinv.procs.ok p
    rw [hp] at hok
    refine ⟨?_, hok.2⟩
    rw [hok.1.sent, ← length_bytes, take_length]

/-- A call that writes one byte. -/
def oneByte (b : UInt8) : Call := ⟨⟨fun _ => true, fun _ => b⟩, 0, 1⟩

/-- Two processes that share an empty file. -/
def twoWriters : State Bool where
  fs := (tinyState tinyBits).withInode 0 ⟨1, 1, false, false, .zero⟩
  file := ⟨.inode, 2, true, true, 0, 0, 0, 0⟩
  pc := fun _ => .idle
  calls := []
  order := []
  written := []

theorem twoWriters_start : Start tiny twoWriters where
  writable := rfl
  type := rfl
  inum_lt := by decide
  ref := Nat.one_pos
  unlocked := rfl
  alloc := by decide +kernel
  sync := nofun
  off := Nat.zero_le _
  size := by decide +kernel
  own := ⟨tiny_valid.owns (fun _ => (1, .inl 0)) (by decide +kernel), by decide +kernel⟩
  pc _ := rfl
  calls := rfl
  order := rfl
  written := rfl

/-- Both want to write a byte; the second caller gets the lock first. -/
def twoBytes : List (Act Bool) :=
  [.call true (oneByte 7), .call false (oneByte 8), .go true, .go false, .go false, .go false, .go false,
    .go true, .go true, .go true]

theorem filewrite_appends_twoWriters : ∃ s, (machine tiny Bool).run twoWriters twoBytes = some s ∧
    (tiny.abs s.fs.disk).contents 1 = [8, 7] ∧ s.file.off = 2 := by
  have hbytes : ((machine tiny Bool).run twoWriters twoBytes).map (fun s => flat s.calls s.written) =
      some [8, 7] := by decide +kernel
  obtain ⟨s, hs, hflat⟩ := Option.map_eq_some_iff.mp hbytes
  have hmapped : ∀ p c, Act.call p c ∈ twoBytes → c.Mapped := by
    intro p c hc k hk
    simp only [twoBytes, mem_cons, Act.call.injEq, reduceCtorEq, not_mem_nil,
      or_false] at hc
    rcases hc with ⟨-, rfl⟩ | ⟨-, rfl⟩ <;> obtain rfl : k = 0 := Nat.lt_one_iff.mp hk <;> rfl
  obtain ⟨-, -, hcontents, hoff, -⟩ := filewrite_appends tiny_valid twoWriters_start twoBytes hs
    hmapped (by decide) (by decide +kernel)
  refine ⟨s, hs, ?_, ?_⟩
  · have hempty : (tiny.abs (tinyState tinyBits).disk).contents 1 = [] := by decide +kernel
    refine hcontents.trans ?_
    rw [hflat]
    change (old tiny twoWriters).take 0 ++ [8, 7] ++ (old tiny twoWriters).drop 2 = _
    rw [show old tiny twoWriters = [] from hempty]
    rfl
  · rw [hoff, hflat]
    rfl

end

end FileWrite

end Xv6.Fs
