import Mathlib.Order.Interval.Finset.Nat
import Xv6.Lib.Ring
import Xv6.Virtio.Driver

/-!
# The virtio disk protocol

Which request is where. A request that a process has posted is in the avail ring, with the device, in the
used ring or done, and `Inv` says so with the lists of the requests in the two rings. The chains of different
processes are disjoint, hence so are the heads of the requests under way; there are at most `NUM` of them,
which is why no ring entry is overwritten too early.
-/

namespace Xv6.Virtio

open Lib List Chain Disk
open Taken (tag)
open Option

variable {B P : Type}

/-- The descriptors of a chain. -/
def Chain.list (c : Chain) : List ℕ := [c.i0, c.i1, c.i2]

namespace Pc

/-- The buffer of the call. -/
def buf : Pc B → Option B
  | idle => none
  | start b _ | alloc b _ | sleepFree b _ | format b _ _ | ring b _ _ | bump b _ _ | test b _ _
  | sleepBuf b _ _ => some b

/-- The descriptors that the process has. -/
def chain : Pc B → Option Chain
  | format _ _ c | ring _ c _ | bump _ c _ | test _ c _ | sleepBuf _ c _ => some c
  | _ => none

/-- Does the process hold `vdisk_lock`? -/
def holds : Pc B → Bool
  | alloc _ _ | format _ _ _ | ring _ _ _ | bump _ _ _ | test _ _ _ => true
  | _ => false

/-- The request of the process, and whether the device can see it. -/
def request? : Pc B → Option (B × Chain × ℕ × Bool)
  | ring b c t | bump b c t => some (b, c, t, false)
  | test b c t | sleepBuf b c t => some (b, c, t, true)
  | _ => none

theorem chain_of_request? {k : Pc B} {b : B} {c : Chain} {t : ℕ} {posted : Bool}
    (h : k.request? = some (b, c, t, posted)) : k.chain = some c ∧ k.buf = some b := by
  cases k <;> simp_all [request?, chain, buf]

end Pc

/-- The descriptors are as `virtio_disk_rw` has formatted them for buffer `b`. -/
structure Formatted (d : Disk B) (b : B) (c : Chain) : Prop where
  first : (d.desc c.i0).flagNext = true ∧ (d.desc c.i0).next = c.i1
  second : (d.desc c.i1).flagNext = true ∧ (d.desc c.i1).next = c.i2
  third : (d.desc c.i2).flagNext = false ∧ (d.desc c.i2).addr = .status c.i0
  info : (d.info c.i0).b = some b

/-- How far a request is: not posted; with the device, in `q`; completed, in `u`; or done. `n` and `l` say
how often it was completed and which buffers were released for it. -/
def Progress (q u : List ℕ) (posted : Bool) (t n : ℕ) (l : List B) (b : B) (busy : Bool) : Prop :=
  (posted = false ∧ t ∉ q ∧ t ∉ u ∧ n = 0 ∧ l = [] ∧ busy = true) ∨
  (posted = true ∧ t ∈ q ∧ t ∉ u ∧ n = 0 ∧ l = [] ∧ busy = true) ∨
  (posted = true ∧ t ∉ q ∧ t ∈ u ∧ n = 1 ∧ l = [] ∧ busy = true) ∨
  (posted = true ∧ t ∉ q ∧ t ∉ u ∧ n = 1 ∧ l = [b] ∧ busy = false)

/-- The head of the chain of request `t`. -/
def State.head (s : State B P) (t : ℕ) : ℕ := (s.request t).elim 0 fun x => x.chain.i0

/-- The requests that the device has taken. -/
def State.tags (s : State B P) : List ℕ := s.flight.map Taken.tag

/-- Who has the descriptors. -/
structure Chains (free : ℕ → Bool) (pc : P → Pc B) : Prop where
  chain : ∀ p c, (pc p).chain = some c → c.list.Nodup ∧ ∀ i ∈ c.list, i < NUM ∧ free i = false
  disjoint : ∀ p q c c', (pc p).chain = some c → (pc q).chain = some c' →
    ∀ i ∈ c.list, i ∈ c'.list → p = q
  free : ∀ i < NUM, free i = false → ∃ p c, (pc p).chain = some c ∧ i ∈ c.list

/-- A ring with `l` between the reader's position and the writer's. -/
structure Holds (r : Ring) (pos : ℕ) (l : List ℕ) : Prop where
  lt : pos < 2 ^ 16
  idx : r.idx = (pos + l.length) % 2 ^ 16
  ring : window r.ring NUM pos l.length = l

section

variable {r : Ring} {pos x : ℕ} {l : List ℕ}

section

variable (h : Holds r pos l)

include h

theorem Holds.slot : r.idx % NUM = (pos + l.length) % NUM := by
  rw [h.idx, Nat.mod_mod_of_dvd _ (by decide)]

theorem Holds.store (hl : l.length < NUM) (x : ℕ) :
    Holds { r with ring := assign r.ring (r.idx % NUM) x } pos l := by
  refine ⟨h.lt, h.idx, ?_⟩
  rw [h.slot, window_assign hl]
  exact h.ring

theorem Holds.commit (hx : r.ring (r.idx % NUM) = x) :
    Holds { r with idx := bump r.idx } pos (l ++ [x]) := by
  refine ⟨h.lt, ?_, ?_⟩
  · change (r.idx + 1) % 2 ^ 16 = _
    rw [h.idx, length_append, length_singleton, Nat.mod_add_mod, Nat.add_assoc]
  · rw [length_append, length_singleton, window_succ, h.ring, ← h.slot, hx]

theorem Holds.push (hl : l.length < NUM) (x : ℕ) : Holds (r.push x) pos (l ++ [x]) :=
  (h.store hl x).commit (if_pos rfl)

end

theorem Holds.pop (h : Holds r pos (x :: l)) : r.ring (pos % NUM) = x ∧ Holds r (bump pos) l := by
  have hring := h.ring
  rw [length_cons, window_cons] at hring
  obtain ⟨hx, hl⟩ := List.cons.inj hring
  have hidx := h.idx
  rw [length_cons] at hidx
  refine ⟨hx, Nat.mod_lt _ (by decide), ?_, ?_⟩
  · rw [hidx, bump, Nat.mod_add_mod]
    congr 1
    omega
  · have hmod : bump pos % NUM = (pos + 1) % NUM := Nat.mod_mod_of_dvd _ (by decide)
    exact (window_congr hmod).trans hl

theorem Holds.eq_nil (h : Holds r pos l) (hl : l.length ≤ NUM) : r.idx = pos ↔ l = [] := by
  have h1 := h.lt
  have h2 := h.idx
  change l.length ≤ 8 at hl
  rw [← length_eq_zero_iff]
  omega

end

variable {l : List ℕ}

theorem Holds.congr {r : Ring} {pos : ℕ} {f g : ℕ → ℕ} (h : Holds r pos (l.map f))
    (heq : ∀ t ∈ l, g t = f t) : Holds r pos (l.map g) := by
  rw [map_congr_left heq]
  exact h

/-- The invariant, where the requests `queue` are in the avail ring and `done` in the used ring. -/
structure Inv (s : State B P) (queue done : List ℕ) : Prop where
  lock : ∀ p, (s.pc p).holds = true → s.lock = some (.proc p)
  owner : ∀ p b, (s.pc p).buf = some b → s.owner b = some p
  chains : Chains s.disk.free s.pc
  request : ∀ p b c t posted, (s.pc p).request? = some (b, c, t, posted) →
    Formatted s.disk b c ∧ ∃ n l, s.request t = some ⟨p, b, c, n, l, false⟩ ∧
      Progress (queue ++ s.tags) done posted t n l b (s.disk.busy b)
  record : ∀ t x, s.request t = some x → t < s.requests ∧
    (x.returned = false → ∃ b posted, (s.pc x.proc).request? = some (b, x.chain, t, posted)) ∧
    (x.returned = true → x.completions = 1 ∧ x.cleared = [x.buf])
  posting : ∀ p b c t, s.pc p = .bump b c t →
    s.disk.avail.ring (s.disk.avail.idx % NUM) = c.i0 ∧ s.availTag (s.disk.avail.idx % NUM) = t
  nodup : (queue ++ s.tags ++ done).Nodup
  waits : ∀ t ∈ queue ++ s.tags ++ done, ∃ p b c, (s.pc p).request? = some (b, c, t, true)
  flight : ∀ x ∈ s.flight, x.head = s.head x.tag ∧ x.status = .status x.head
  avail : Holds s.disk.avail s.taken (queue.map s.head)
  availTag : Holds ⟨s.disk.avail.idx, s.availTag⟩ s.taken queue
  used : Holds s.disk.used s.disk.usedIdx (done.map s.head)
  usedTag : Holds ⟨s.disk.used.idx, s.usedTag⟩ s.disk.usedIdx done
  status : ∀ t ∈ done, (s.disk.info (s.head t)).status = 0

section

variable {s : State B P} {queue done : List ℕ} {p q : P} {b b' : B} {c c' : Chain} {t t' : ℕ}
  {posted posted' : Bool} (h : Inv s queue done)

include h

section

variable (hp : (s.pc p).request? = some (b, c, t, posted))

include hp

theorem Inv.head : s.head t = c.i0 := by
  obtain ⟨-, n, l, hreq, -⟩ := h.request p b c t posted hp
  rw [State.head, hreq]
  rfl

theorem Inv.proc_eq (hq : (s.pc q).request? = some (b', c', t, posted')) : p = q := by
  obtain ⟨-, n, l, hreq, -⟩ := h.request p b c t posted hp
  obtain ⟨-, n', l', hreq', -⟩ := h.request q b' c' t posted' hq
  rw [hreq] at hreq'
  exact congrArg Request.proc (some.inj hreq')

theorem Inv.head_inj
    (hq : (s.pc q).request? = some (b', c', t', posted')) (heq : s.head t = s.head t') : t = t' := by
  rw [h.head hp, h.head hq] at heq
  have hc := (Pc.chain_of_request? hp).1
  have hc' := (Pc.chain_of_request? hq).1
  have hmem : c.i0 ∈ c'.list := by
    rw [heq]
    exact mem_cons_self ..
  obtain rfl := h.chains.disjoint p q c c' hc hc' c.i0 (mem_cons_self ..) hmem
  rw [hp] at hq
  exact congrArg (fun x => x.2.2.1) (some.inj hq)

end

theorem Inv.length_le (hl : l.Nodup)
    (hreq : ∀ t ∈ l, ∃ p b c posted, (s.pc p).request? = some (b, c, t, posted)) : l.length ≤ NUM := by
  have hnodup : (l.map s.head).Nodup := by
    refine List.Nodup.map_on (fun t ht t' ht' heq => ?_) hl
    obtain ⟨p, b, c, posted, hp⟩ := hreq t ht
    obtain ⟨q, b', c', posted', hq⟩ := hreq t' ht'
    exact h.head_inj hp hq heq
  have hsub : (l.map s.head).toFinset ⊆ Finset.range NUM := by
    intro i hi
    obtain ⟨t, ht, rfl⟩ := mem_map.mp (mem_toFinset.mp hi)
    obtain ⟨p, b, c, posted, hp⟩ := hreq t ht
    rw [h.head hp, Finset.mem_range]
    exact ((h.chains.chain p c (Pc.chain_of_request? hp).1).2 c.i0 (mem_cons_self ..)).1
  have hcard := Finset.card_le_card hsub
  rw [toFinset_card_of_nodup hnodup, length_map, Finset.card_range] at hcard
  exact hcard

end

/-! ## Descriptors -/

section

variable {d d' : Disk B} {i : ℕ}

theorem Disk.allocDesc_eq (h : d.allocDesc = some (i, d')) :
    i < NUM ∧ d.free i = true ∧ d' = { d with free := assign d.free i false } := by
  obtain ⟨j, hj, heq⟩ := map_eq_some_iff.mp h
  obtain ⟨rfl, rfl⟩ := Prod.mk.inj heq
  exact ⟨mem_range.mp (mem_of_find?_eq_some hj), find?_some hj, rfl⟩

theorem Disk.freeDesc_eq (hi : i < NUM) (hfree : d.free i = false) : d.freeDesc i = .ok { d with
      desc := assign d.desc i ⟨.null, 0, false, false, 0⟩
      free := assign d.free i true } := by
  rw [freeDesc, if_neg (Nat.not_le_of_lt hi), if_neg (by rw [hfree]; exact Bool.false_ne_true)]

theorem assign_assign_free {free : ℕ → Bool} (h : free i = true) :
    assign (assign free i false) i true = free := by
  rw [assign_eq_update, assign_eq_update, Function.update_idem, ← h, Function.update_eq_self]

theorem Disk.alloc3Desc_spec (d : Disk B) :
    (∃ c, d.alloc3Desc = .ok (some c, { d with free := fun i => if i ∈ c.list then false else d.free i })
      ∧ c.list.Nodup ∧ ∀ i ∈ c.list, i < NUM ∧ d.free i = true) ∨
    ∃ desc, d.alloc3Desc = .ok (none, { d with desc := desc }) ∧
      ∀ i, d.free i = false → desc i = d.desc i := by
  unfold alloc3Desc
  cases h0 : d.allocDesc with
  | none => exact .inr ⟨d.desc, rfl, fun _ _ => rfl⟩
  | some r0 =>
    obtain ⟨i0, d0⟩ := r0
    obtain ⟨hi0, hf0, rfl⟩ := allocDesc_eq h0
    dsimp only
    cases h1 : allocDesc { d with free := assign d.free i0 false } with
    | none =>
      refine .inr ⟨assign d.desc i0 ⟨.null, 0, false, false, 0⟩, ?_, fun i hi => if_neg ?_⟩
      · rw [freeDesc_eq hi0 (if_pos rfl)]
        change Except.ok (none, { d with desc := _, free := assign (assign d.free i0 false) i0 true }) = _
        rw [assign_assign_free hf0]
      · rintro rfl
        rw [hi] at hf0
        cases hf0
    | some r1 =>
      obtain ⟨i1, d1⟩ := r1
      obtain ⟨hi1, hf1, rfl⟩ := allocDesc_eq h1
      dsimp only at hf1 ⊢
      have h10 : i1 ≠ i0 := by
        rintro rfl
        rw [assign, if_pos rfl] at hf1
        cases hf1
      rw [assign, if_neg h10] at hf1
      cases h2 : allocDesc { d with free := assign (assign d.free i0 false) i1 false } with
      | none =>
        refine .inr ⟨assign (assign d.desc i0 ⟨.null, 0, false, false, 0⟩)
          i1 ⟨.null, 0, false, false, 0⟩, ?_, fun i hi => ?_⟩
        · have hback : assign (assign (assign (assign d.free i0 false) i1 false) i0 true) i1 true =
              d.free := by
            funext i
            simp only [assign]
            split
            · next h => rw [h, hf1]
            · split
              · next h => rw [h, hf0]
              · rfl
          have hf0' : assign (assign d.free i0 false) i1 false i0 = false := by
            rw [assign, if_neg h10.symm, assign, if_pos rfl]
          have hf1' : assign (assign (assign d.free i0 false) i1 false) i0 true i1 = false := by
            rw [assign, if_neg h10, assign, if_pos rfl]
          rw [freeDesc_eq hi0 hf0']
          change (do let d ← freeDesc _ i1; _) = _
          rw [freeDesc_eq hi1 hf1']
          change Except.ok (none, { d with desc := _, free := _ }) = _
          rw [hback]
        · have hne : ∀ j, d.free j = true → i ≠ j := by
            rintro j hj rfl
            rw [hi] at hj
            cases hj
          rw [assign, if_neg (hne i1 hf1), assign, if_neg (hne i0 hf0)]
      | some r2 =>
        obtain ⟨i2, d2⟩ := r2
        obtain ⟨hi2, hf2, rfl⟩ := allocDesc_eq h2
        dsimp only at hf2 ⊢
        have h21 : i2 ≠ i1 := by
          rintro rfl
          rw [assign, if_pos rfl] at hf2
          cases hf2
        rw [assign, if_neg h21] at hf2
        have h20 : i2 ≠ i0 := by
          rintro rfl
          rw [assign, if_pos rfl] at hf2
          cases hf2
        rw [assign, if_neg h20] at hf2
        refine .inl ⟨⟨i0, i1, i2⟩, ?_, ?_, ?_⟩
        · have hfree : assign (assign (assign d.free i0 false) i1 false) i2 false =
              fun i => if i ∈ list ⟨i0, i1, i2⟩ then false else d.free i := by
            funext i
            simp only [assign, list, mem_cons, not_mem_nil, or_false]
            grind
          rw [hfree]
          rfl
        · simp only [list, nodup_cons, mem_cons, not_mem_nil, or_false,
            not_or, not_false_eq_true, nodup_nil, and_true]
          exact ⟨⟨h10.symm, h20.symm⟩, h21.symm⟩
        · intro i hi
          simp only [list, mem_cons, not_mem_nil, or_false] at hi
          rcases hi with rfl | rfl | rfl
          · exact ⟨hi0, hf0⟩
          · exact ⟨hi1, hf1⟩
          · exact ⟨hi2, hf2⟩

theorem Disk.freeChain_next {n i j : ℕ} (hi : i < NUM) (hfree : d.free i = false)
    (hflag : (d.desc i).flagNext = true) (hnext : (d.desc i).next = j) :
    Disk.freeChain (n + 1) i d = Disk.freeChain n j { d with
      desc := assign d.desc i ⟨.null, 0, false, false, 0⟩
      free := assign d.free i true } := by
  rw [freeChain, freeDesc_eq hi hfree, hflag, hnext]
  rfl

theorem Disk.freeChain_last {n i : ℕ} (hi : i < NUM) (hfree : d.free i = false)
    (hflag : (d.desc i).flagNext = false) : Disk.freeChain (n + 1) i d = .ok { d with
      desc := assign d.desc i ⟨.null, 0, false, false, 0⟩
      free := assign d.free i true } := by
  rw [freeChain, freeDesc_eq hi hfree, hflag]
  rfl

theorem Disk.freeChain_eq {n i0 i1 i2 : ℕ} (hd0 : (d.desc i0).flagNext = true ∧ (d.desc i0).next = i1)
    (hd1 : (d.desc i1).flagNext = true ∧ (d.desc i1).next = i2) (hd2 : (d.desc i2).flagNext = false)
    (hnodup : (Chain.list ⟨i0, i1, i2⟩).Nodup)
    (hc : ∀ i ∈ Chain.list ⟨i0, i1, i2⟩, i < NUM ∧ d.free i = false) :
    Disk.freeChain (n + 3) i0 d = .ok { d with
      desc := assign (assign (assign d.desc i0 ⟨.null, 0, false, false, 0⟩)
        i1 ⟨.null, 0, false, false, 0⟩) i2 ⟨.null, 0, false, false, 0⟩
      free := fun i => if i ∈ Chain.list ⟨i0, i1, i2⟩ then true else d.free i } := by
  simp only [list, nodup_cons, mem_cons, not_mem_nil, or_false, not_or,
    not_false_eq_true, nodup_nil, and_true] at hnodup
  obtain ⟨⟨h01, h02⟩, h12⟩ := hnodup
  obtain ⟨hi0, hf0⟩ := hc i0 (by simp [list])
  obtain ⟨hi1, hf1⟩ := hc i1 (by simp [list])
  obtain ⟨hi2, hf2⟩ := hc i2 (by simp [list])
  -- each turn of the loop sees the descriptor as it was
  have hdesc1 : assign d.desc i0 ⟨.null, 0, false, false, 0⟩ i1 = d.desc i1 := if_neg (Ne.symm h01)
  have hdesc2 : assign (assign d.desc i0 ⟨.null, 0, false, false, 0⟩) i1
      ⟨.null, 0, false, false, 0⟩ i2 = d.desc i2 := by
    rw [assign, if_neg (Ne.symm h12), assign, if_neg (Ne.symm h02)]
  have hfree1 : assign d.free i0 true i1 = false := by
    rw [assign, if_neg (Ne.symm h01), hf1]
  have hfree2 : assign (assign d.free i0 true) i1 true i2 = false := by
    rw [assign, if_neg (Ne.symm h12), assign, if_neg (Ne.symm h02), hf2]
  have hfree : assign (assign (assign d.free i0 true) i1 true) i2 true =
      fun i => if i ∈ list ⟨i0, i1, i2⟩ then true else d.free i := by
    funext i
    simp only [assign, list, mem_cons, not_mem_nil, or_false]
    grind
  rw [freeChain_next hi0 hf0 hd0.1 hd0.2,
    freeChain_next hi1 hfree1 ((congrArg Desc.flagNext hdesc1).trans hd1.1)
      ((congrArg Desc.next hdesc1).trans hd1.2),
    freeChain_last hi2 hfree2 ((congrArg Desc.flagNext hdesc2).trans hd2), hfree]

theorem Disk.finish_eq {b : B} {c : Chain} (hd : Formatted d b c) (hnodup : c.list.Nodup)
    (hc : ∀ i ∈ c.list, i < NUM ∧ d.free i = false) : ∃ desc, d.finish c = .ok { d with
      info := assign d.info c.i0 { d.info c.i0 with b := none }
      desc := desc
      free := fun i => if i ∈ c.list then true else d.free i } ∧
    ∀ i, i ∉ c.list → desc i = d.desc i := by
  obtain ⟨i0, i1, i2⟩ := c
  obtain ⟨hd0, hd1, hd2, -⟩ := hd
  refine ⟨_, freeChain_eq (n := 6)
    (d := { d with info := assign d.info i0 { d.info i0 with b := none } }) hd0 hd1 hd2.1 hnodup hc,
    fun i hi => ?_⟩
  simp only [list, mem_cons, not_mem_nil, or_false, not_or] at hi
  rw [assign, if_neg hi.2.2, assign, if_neg hi.2.1, assign, if_neg hi.1]

end

section

variable [DecidableEq P] {free : ℕ → Bool} {pc : P → Pc B} {p : P} {k : Pc B} {c : Chain}

theorem assign_cases {q : P} {φ : Pc B → Prop} (h : φ (assign pc p k q)) :
    (q = p ∧ φ k) ∨ (q ≠ p ∧ φ (pc q)) := Lib.assign_cases h

theorem assign_same {α : Type} (φ : Pc B → α) (hk : φ k = φ (pc p)) (q : P) :
    φ (assign pc p k q) = φ (pc q) := by
  rw [assign]
  split
  · next hq => rw [hk, hq]
  · rfl

theorem Chains.same (h : Chains free pc) (hk : k.chain = (pc p).chain) :
    Chains free (assign pc p k) := by
  have heq := assign_same Pc.chain hk
  refine ⟨fun q c hc => ?_, fun q r c c' hc hc' => ?_, fun i hi hf => ?_⟩
  · rw [heq] at hc
    exact h.chain q c hc
  · rw [heq] at hc hc'
    exact h.disjoint q r c c' hc hc'
  · obtain ⟨q, c, hc, hmem⟩ := h.free i hi hf
    exact ⟨q, c, by rw [heq]; exact hc, hmem⟩

theorem Chains.take (h : Chains free pc) (hp : (pc p).chain = none) (hk : k.chain = some c)
    (hnodup : c.list.Nodup) (hc : ∀ i ∈ c.list, i < NUM ∧ free i = true) :
    Chains (fun i => if i ∈ c.list then false else free i) (assign pc p k) := by
  -- descriptors that somebody has are not free
  have hnot : ∀ q c', (pc q).chain = some c' → ∀ i ∈ c'.list, i ∉ c.list := by
    intro q c' hq i hi hmem
    have h1 := ((h.chain q c' hq).2 i hi).2
    rw [(hc i hmem).2] at h1
    cases h1
  refine ⟨fun q c' hq => ?_, fun q r c1 c2 hq hr i hi hi' => ?_, fun i hi hf => ?_⟩
  · rcases assign_cases (φ := fun k => k.chain = some c') hq with ⟨-, hq⟩ | ⟨-, hq⟩
    · rw [hk] at hq
      cases hq
      exact ⟨hnodup, fun i hi => ⟨(hc i hi).1, if_pos hi⟩⟩
    · obtain ⟨h1, h2⟩ := h.chain q c' hq
      refine ⟨h1, fun i hi => ⟨(h2 i hi).1, ?_⟩⟩
      rw [if_neg (hnot q c' hq i hi)]
      exact (h2 i hi).2
  · rcases assign_cases (φ := fun k => k.chain = some c1) hq with ⟨hqp, hq⟩ | ⟨hqp, hq⟩ <;>
      rcases assign_cases (φ := fun k => k.chain = some c2) hr with ⟨hrp, hr⟩ | ⟨hrp, hr⟩
    · rw [hqp, hrp]
    · rw [hk] at hq
      cases hq
      exact absurd hi (hnot r c2 hr i hi')
    · rw [hk] at hr
      cases hr
      exact absurd hi' (hnot q c1 hq i hi)
    · exact h.disjoint q r c1 c2 hq hr i hi hi'
  · by_cases hmem : i ∈ c.list
    · exact ⟨p, c, by rw [assign, if_pos rfl]; exact hk, hmem⟩
    · rw [if_neg hmem] at hf
      obtain ⟨q, c', hq, hmem'⟩ := h.free i hi hf
      have hqp : q ≠ p := by
        rintro rfl
        rw [hp] at hq
        cases hq
      exact ⟨q, c', by rw [assign, if_neg hqp]; exact hq, hmem'⟩

theorem Chains.give (h : Chains free pc) (hp : (pc p).chain = some c) (hk : k.chain = none) :
    Chains (fun i => if i ∈ c.list then true else free i) (assign pc p k) := by
  have hother : ∀ q c', (assign pc p k q).chain = some c' → q ≠ p ∧ (pc q).chain = some c' := by
    intro q c' hq
    rcases assign_cases (φ := fun k => k.chain = some c') hq with ⟨-, hq⟩ | hq
    · rw [hk] at hq
      cases hq
    · exact hq
  refine ⟨fun q c' hq => ?_, fun q r c1 c2 hq hr => ?_, fun i hi hf => ?_⟩
  · obtain ⟨hqp, hq⟩ := hother q c' hq
    obtain ⟨h1, h2⟩ := h.chain q c' hq
    refine ⟨h1, fun i hi => ⟨(h2 i hi).1, ?_⟩⟩
    rw [if_neg fun hmem => hqp (h.disjoint q p c' c hq hp i hi hmem)]
    exact (h2 i hi).2
  · exact h.disjoint q r c1 c2 (hother q c1 hq).2 (hother r c2 hr).2
  · by_cases hmem : i ∈ c.list
    · rw [if_pos hmem] at hf
      cases hf
    · rw [if_neg hmem] at hf
      obtain ⟨q, c', hq, hmem'⟩ := h.free i hi hf
      have hqp : q ≠ p := by
        rintro rfl
        rw [hp] at hq
        cases hq
        exact hmem hmem'
      exact ⟨q, c', by rw [assign, if_neg hqp]; exact hq, hmem'⟩

end

/-! ## Steps of the processes -/

section

variable [DecidableEq P] {s : State B P} {queue done : List ℕ} {p q : P} {k : Pc B} {b b' : B}
  {c c' : Chain} {t : ℕ} {write posted : Bool} (h : Inv s queue done)

theorem Formatted.congr {d d' : Disk B} (h : Formatted d b c)
    (hdesc : ∀ i ∈ c.list, d'.desc i = d.desc i) (hinfo : (d'.info c.i0).b = (d.info c.i0).b) :
    Formatted d' b c := by
  have h0 := hdesc c.i0 (by simp [list])
  have h1 := hdesc c.i1 (by simp [list])
  have h2 := hdesc c.i2 (by simp [list])
  refine ⟨?_, ?_, ?_, ?_⟩
  · rw [h0]
    exact h.first
  · rw [h1]
    exact h.second
  · rw [h2]
    exact h.third
  · rw [hinfo]
    exact h.info

theorem Formatted.other [DecidableEq B] {d : Disk B}
    (h : Formatted d b' c') (hdisj : ∀ i ∈ c'.list, i ∉ c.list) :
    Formatted (d.format b write c) b' c' := by
  have hne : ∀ i ∈ c'.list, i ≠ c.i0 ∧ i ≠ c.i1 ∧ i ≠ c.i2 := by
    intro i hi
    have hnot := hdisj i hi
    simp only [list, mem_cons, not_mem_nil, or_false, not_or] at hnot
    exact hnot
  refine h.congr (fun i hi => ?_) ?_
  · obtain ⟨h0, h1, h2⟩ := hne i hi
    change assign (assign (assign d.desc c.i0 _) c.i1 _) c.i2 _ i = _
    rw [assign, if_neg h2, assign, if_neg h1, assign, if_neg h0]
  · change (assign d.info c.i0 _ c'.i0).b = _
    rw [assign, if_neg (hne c'.i0 (mem_cons_self ..)).1]

theorem formatted_format [DecidableEq B] {d : Disk B}
    (hc : c.list.Nodup) : Formatted (d.format b write c) b c := by
  simp only [list, nodup_cons, mem_cons, not_mem_nil, or_false, not_or,
    not_false_eq_true, nodup_nil, and_true] at hc
  obtain ⟨⟨h01, h02⟩, h12⟩ := hc
  have h0 : (d.format b write c).desc c.i0 = ⟨.ops c.i0, 16, true, false, c.i1⟩ := by
    change assign (assign (assign d.desc c.i0 _) c.i1 _) c.i2 _ c.i0 = _
    rw [assign, if_neg h02, assign, if_neg h01, assign, if_pos rfl]
  have h1 : (d.format b write c).desc c.i1 = ⟨.data b, 1024, true, !write, c.i2⟩ := by
    change assign (assign (assign d.desc c.i0 _) c.i1 _) c.i2 _ c.i1 = _
    rw [assign, if_neg h12, assign, if_pos rfl]
  have h2 : (d.format b write c).desc c.i2 = ⟨.status c.i0, 1, false, true, 0⟩ := by
    change assign (assign (assign d.desc c.i0 _) c.i1 _) c.i2 _ c.i2 = _
    rw [assign, if_pos rfl]
  refine ⟨?_, ?_, ?_, ?_⟩
  · rw [h0]
    exact ⟨rfl, rfl⟩
  · rw [h1]
    exact ⟨rfl, rfl⟩
  · rw [h2]
    exact ⟨rfl, rfl⟩
  · change (assign d.info c.i0 _ c.i0).b = _
    rw [assign, if_pos rfl]

variable {f : Request B P → Request B P}

omit [DecidableEq P] in
theorem State.head_note (s : State B P) (t t' : ℕ) (hf : ∀ x, (f x).chain = x.chain) :
    ((assign s.request t ((s.request t).map f)) t').elim 0 (fun x => x.chain.i0) = s.head t' := by
  rw [assign]
  split
  · next h =>
    rw [h, State.head]
    cases s.request t with
    | none => rfl
    | some x => exact congrArg Chain.i0 (hf x)
  · rfl

include h

omit [DecidableEq P] in
theorem Inv.alone (hp : (s.pc p).holds = true) (hq : q ≠ p) : (s.pc q).holds = false := by
  by_contra hholds
  have h1 := h.lock q (Bool.eq_true_of_not_eq_false hholds)
  rw [h.lock p hp] at h1
  exact hq (Holder.proc.inj (some.inj h1)).symm

theorem Inv.lock_goto (hp : (s.pc p).holds = true) (q : P)
    (hq : (assign s.pc p k q).holds = true) : s.lock = some (.proc q) := by
  rcases assign_cases (φ := fun k => k.holds = true) hq with ⟨rfl, -⟩ | ⟨-, hq⟩
  · exact h.lock q hp
  · exact h.lock q hq

theorem Inv.owner_goto (hbuf : ∀ b, k.buf = some b → s.owner b = some p) (q : P)
    (b : B) (hq : (assign s.pc p k q).buf = some b) : s.owner b = some q := by
  rcases assign_cases (φ := fun k => k.buf = some b) hq with ⟨rfl, hb⟩ | ⟨-, hb⟩
  · exact hbuf b hb
  · exact h.owner q b hb

theorem Inv.posting_goto (hpost : ∀ b c t, k ≠ .bump b c t) (q : P) (b : B)
    (c : Chain) (t : ℕ) (hq : assign s.pc p k q = .bump b c t) :
    s.disk.avail.ring (s.disk.avail.idx % NUM) = c.i0 ∧ s.availTag (s.disk.avail.idx % NUM) = t := by
  rcases assign_cases (φ := fun k => k = .bump b c t) hq with ⟨-, hq⟩ | ⟨-, hq⟩
  · exact absurd hq (hpost b c t)
  · exact h.posting q b c t hq

theorem Inv.record_goto (hreq : k.request? = (s.pc p).request?) (t : ℕ)
    (x : Request B P) (hx : s.request t = some x) : t < s.requests ∧
      (x.returned = false →
        ∃ b posted, (assign s.pc p k x.proc).request? = some (b, x.chain, t, posted)) ∧
      (x.returned = true → x.completions = 1 ∧ x.cleared = [x.buf]) := by
  rw [assign_same Pc.request? hreq]
  exact h.record t x hx

theorem Inv.waits_goto (hreq : k.request? = (s.pc p).request?) (t : ℕ)
    (ht : t ∈ queue ++ s.tags ++ done) :
    ∃ q b c, (assign s.pc p k q).request? = some (b, c, t, true) := by
  simp only [assign_same Pc.request? hreq]
  exact h.waits t ht

variable {d : ℕ → Desc B}

theorem Inv.move {l : Option (Holder P)}
    (hlock : ∀ q, (assign s.pc p k q).holds = true → l = some (.proc q))
    (hbuf : ∀ b, k.buf = some b → s.owner b = some p) (hchain : k.chain = (s.pc p).chain)
    (hreq : k.request? = (s.pc p).request?) (hpost : ∀ b c t, k ≠ .bump b c t)
    (hdesc : ∀ i, s.disk.free i = false → d i = s.disk.desc i) :
    Inv { s.goto p k with disk := { s.disk with desc := d }, lock := l } queue done := by
  have heq := assign_same Pc.request? hreq
  refine ⟨hlock, h.owner_goto hbuf, h.chains.same hchain, fun q b c t posted hq => ?_,
    h.record_goto hreq, h.posting_goto hpost, h.nodup, h.waits_goto hreq, h.flight, h.avail, h.availTag,
    h.used, h.usedTag, h.status⟩
  change (assign s.pc p k q).request? = _ at hq
  rw [heq] at hq
  obtain ⟨hf, hprog⟩ := h.request q b c t posted hq
  refine ⟨hf.congr (fun i hi => hdesc i ?_) rfl, hprog⟩
  exact ((h.chains.chain q c (Pc.chain_of_request? hq).1).2 i hi).2

theorem Inv.acquire (hfree : s.lock = none) (hbuf : k.buf = (s.pc p).buf)
    (hchain : k.chain = (s.pc p).chain) (hreq : k.request? = (s.pc p).request?)
    (hpost : ∀ b c t, k ≠ .bump b c t) : Inv { s.goto p k with lock := some (.proc p) } queue done := by
  refine h.move (fun q hq => ?_) (fun b hb => ?_) hchain hreq hpost fun _ _ => rfl
  · rcases assign_cases (φ := fun k => k.holds = true) hq with ⟨rfl, -⟩ | ⟨-, hq⟩
    · rfl
    · have hlock := h.lock q hq
      rw [hfree] at hlock
      cases hlock
  · rw [hbuf] at hb
    exact h.owner p b hb

theorem Inv.sleep (hp : (s.pc p).holds = true)
    (hk : k.holds = false) (hbuf : k.buf = (s.pc p).buf) (hchain : k.chain = (s.pc p).chain)
    (hreq : k.request? = (s.pc p).request?) (hdesc : ∀ i, s.disk.free i = false → d i = s.disk.desc i) :
    Inv { s.goto p k with disk := { s.disk with desc := d }, lock := none } queue done := by
  refine h.move (fun q hq => ?_) (fun b hb => ?_) hchain hreq (fun b c t heq => ?_) hdesc
  · rcases assign_cases (φ := fun k => k.holds = true) hq with ⟨-, hq⟩ | ⟨hne, hq⟩
    · rw [hk] at hq
      cases hq
    · rw [h.alone hp hne] at hq
      cases hq
  · rw [hbuf] at hb
    exact h.owner p b hb
  · rw [heq] at hk
    cases hk

theorem Inv.alloc (hp : s.pc p = .alloc b write) (hnodup : c.list.Nodup)
    (hc : ∀ i ∈ c.list, i < NUM ∧ s.disk.free i = true) : Inv { s.goto p (.format b write c) with
      disk := { s.disk with free := fun i => if i ∈ c.list then false else s.disk.free i } }
      queue done := by
  have hreq : (Pc.format b write c).request? = (s.pc p).request? := by rw [hp]; rfl
  have heq := assign_same Pc.request? hreq
  refine ⟨h.lock_goto (by rw [hp]; rfl), h.owner_goto fun b' hb => h.owner p b' (by rw [hp]; exact hb),
    h.chains.take (by rw [hp]; rfl) rfl hnodup hc, fun q b' c' t posted hq => ?_, h.record_goto hreq,
    h.posting_goto nofun, h.nodup, h.waits_goto hreq, h.flight, h.avail, h.availTag, h.used, h.usedTag,
    h.status⟩
  change (assign s.pc p _ q).request? = _ at hq
  rw [heq] at hq
  obtain ⟨hf, hprog⟩ := h.request q b' c' t posted hq
  exact ⟨hf.congr (fun _ _ => rfl) rfl, hprog⟩

omit [DecidableEq P] in
theorem Inv.lt_requests (hq : (s.pc q).request? = some (b, c, t, posted)) : t < s.requests := by
  obtain ⟨-, n, l, hreq, -⟩ := h.request q b c t posted hq
  exact (h.record t _ hreq).1

omit [DecidableEq P] in
theorem Inv.mem_lt (ht : t ∈ queue ++ s.tags ++ done) : t < s.requests := by
  obtain ⟨q, b, c, hq⟩ := h.waits t ht
  exact h.lt_requests hq

omit [DecidableEq P] in
theorem Inv.head_not_mem
    (hq : (s.pc q).request? = some (b, c', t, posted)) (hne : q ≠ p) (hp : (s.pc p).chain = some c) :
    s.head t ∉ c.list := by
  rw [h.head hq]
  intro hmem
  exact hne (h.chains.disjoint q p c' c (Pc.chain_of_request? hq).1 hp c'.i0 (mem_cons_self ..) hmem)

omit [DecidableEq P] in
theorem Inv.buf_ne (hp : (s.pc p).buf = some b)
    (hq : (s.pc q).buf = some b') (hne : q ≠ p) : b' ≠ b := by
  rintro rfl
  have h1 := h.owner p b' hp
  rw [h.owner q b' hq] at h1
  exact hne (some.inj h1)

theorem Inv.format [DecidableEq B] (hp : s.pc p = .format b write c) :
    Inv { s.goto p (.ring b c s.requests) with
      disk := s.disk.format b write c
      requests := s.requests + 1
      request := assign s.request s.requests (some ⟨p, b, c, 0, [], false⟩) } queue done := by
  have hchain : (s.pc p).chain = some c := by rw [hp]; rfl
  have hbuf : (s.pc p).buf = some b := by rw [hp]; rfl
  have hnone : (s.pc p).request? = none := by rw [hp]; rfl
  have hold : ∀ q b' c' t posted, (s.pc q).request? = some (b', c', t, posted) → q ≠ p := by
    rintro q b' c' t posted hq rfl
    rw [hnone] at hq
    cases hq
  have hnew : ∀ t ∈ queue ++ s.tags ++ done, t ≠ s.requests := fun t ht =>
    Nat.ne_of_lt (h.mem_lt ht)
  -- heads of older requests are as they were
  have hhead : ∀ t, t ≠ s.requests →
      ((assign s.request s.requests (some ⟨p, b, c, 0, [], false⟩)) t).elim 0
        (fun x => x.chain.i0) = s.head t := by
    intro t ht
    rw [assign, if_neg ht]
    rfl
  refine ⟨h.lock_goto (by rw [hp]; rfl), h.owner_goto fun b' hb => h.owner p b' (by rw [hp]; exact hb),
    h.chains.same (by rw [hchain]; rfl), fun q b' c' t posted hq => ?_, fun t x hx => ?_,
    h.posting_goto (by simp), h.nodup, fun t ht => ?_,
    fun x hx => ?_, h.avail.congr fun t ht => hhead t (hnew t ?_), h.availTag,
    h.used.congr fun t ht => hhead t (hnew t ?_), h.usedTag, fun t ht => ?_⟩
  · rcases assign_cases (φ := fun k => k.request? = some (b', c', t, posted)) hq with
      ⟨rfl, hr⟩ | ⟨hne, hr⟩
    · obtain ⟨rfl, rfl, rfl, rfl⟩ : b = b' ∧ c = c' ∧ s.requests = t ∧ false = posted := by
        simpa [Pc.request?] using hr
      refine ⟨formatted_format (h.chains.chain q c hchain).1, 0, [], if_pos rfl, .inl ⟨rfl, ?_, ?_, rfl,
        rfl, if_pos rfl⟩⟩
      · exact fun hmem => hnew _ (mem_append_left _ hmem) rfl
      · exact fun hmem => hnew _ (mem_append_right _ hmem) rfl
    · obtain ⟨hf, n, l, hreq, hprog⟩ := h.request q b' c' t posted hr
      obtain ⟨hc', hb'⟩ := Pc.chain_of_request? hr
      refine ⟨hf.other fun i hi hmem => hne (h.chains.disjoint q p c' c hc' hchain i hi hmem), n, l,
        ?_, ?_⟩
      · rw [← hreq]
        exact if_neg (Nat.ne_of_lt (h.lt_requests hr))
      · change Progress _ _ _ _ _ _ _ (assign s.disk.busy b true b')
        rw [assign, if_neg (h.buf_ne hbuf hb' hne)]
        exact hprog
  · by_cases ht : t = s.requests
    · subst ht
      change assign s.request s.requests _ s.requests = _ at hx
      rw [assign, if_pos rfl] at hx
      cases hx
      refine ⟨Nat.lt_succ_self _, fun _ => ⟨b, false, ?_⟩, fun hr => by cases hr⟩
      change (assign s.pc p _ p).request? = _
      rw [assign, if_pos rfl]
      rfl
    · change assign s.request s.requests _ t = _ at hx
      rw [assign, if_neg ht] at hx
      obtain ⟨h1, h2, h3⟩ := h.record t x hx
      refine ⟨Nat.lt_succ_of_lt h1, fun hr => ?_, h3⟩
      obtain ⟨b', posted, hb⟩ := h2 hr
      refine ⟨b', posted, ?_⟩
      change (assign s.pc p _ x.proc).request? = _
      rw [assign, if_neg (hold _ _ _ _ _ hb)]
      exact hb
  · obtain ⟨q, b', c', hq⟩ := h.waits t ht
    refine ⟨q, b', c', ?_⟩
    change (assign s.pc p _ q).request? = _
    rw [assign, if_neg (hold _ _ _ _ _ hq)]
    exact hq
  · obtain ⟨h1, h2⟩ := h.flight x hx
    refine ⟨?_, h2⟩
    rw [h1]
    refine (hhead x.tag (hnew _ ?_)).symm
    exact mem_append_left _ (mem_append_right _ (mem_map_of_mem hx))
  · exact mem_append_left _ (mem_append_left _ ht)
  · exact mem_append_right _ ht
  · have hmem : t ∈ queue ++ s.tags ++ done := mem_append_right _ ht
    obtain ⟨q, b', c', hq⟩ := h.waits t hmem
    have hnot := h.head_not_mem hq (hold _ _ _ _ _ hq) hchain
    change (assign s.disk.info c.i0 _ (Option.elim (assign s.request s.requests _ t) 0 _)).status = 0
    rw [hhead t (hnew t hmem), assign, if_neg]
    · exact h.status t ht
    · intro heq
      exact hnot (by rw [heq]; exact mem_cons_self ..)

omit [DecidableEq P] in
theorem Inv.room
    (hp : (s.pc p).request? = some (b, c, t, posted)) (hl : l.Sublist (queue ++ s.tags ++ done))
    (ht : t ∉ l) : l.length < NUM := by
  have hnodup : (t :: l).Nodup := nodup_cons.mpr ⟨ht, h.nodup.sublist hl⟩
  refine h.length_le hnodup fun t' ht' => ?_
  rcases mem_cons.mp ht' with rfl | ht'
  · exact ⟨p, b, c, posted, hp⟩
  · obtain ⟨q, b', c', hq⟩ := h.waits t' (hl.subset ht')
    exact ⟨q, b', c', true, hq⟩

theorem Inv.ring (hp : s.pc p = .ring b c t) : queue.length < NUM ∧ Inv { s.goto p (.bump b c t) with
      disk := { s.disk with avail :=
        { s.disk.avail with ring := assign s.disk.avail.ring (s.disk.avail.idx % NUM) c.i0 } }
      availTag := assign s.availTag (s.disk.avail.idx % NUM) t } queue done := by
  have hreq : (s.pc p).request? = some (b, c, t, false) := by rw [hp]; rfl
  have hholds : (s.pc p).holds = true := by rw [hp]; rfl
  obtain ⟨-, n, l, -, hprog⟩ := h.request p b c t false hreq
  have hnot : t ∉ queue := by
    rcases hprog with ⟨-, hq, -⟩ | ⟨hf, -⟩ | ⟨hf, -⟩ | ⟨hf, -⟩
    · exact fun hmem => hq (mem_append_left _ hmem)
    · cases hf
    · cases hf
    · cases hf
  have hroom : queue.length < NUM := by
    refine h.room hreq ?_ hnot
    rw [append_assoc]
    exact sublist_append_left ..
  have hsame : (Pc.bump b c t).request? = (s.pc p).request? := by rw [hp]; rfl
  have heq := assign_same Pc.request? hsame
  refine ⟨hroom, h.lock_goto hholds, h.owner_goto fun b' hb => h.owner p b' (by rw [hp]; exact hb),
    h.chains.same (by rw [hp]; rfl), fun q b' c' t' posted hq => ?_, h.record_goto hsame,
    fun q b' c' t' hq => ?_, h.nodup, h.waits_goto hsame, h.flight, ?_, h.availTag.store hroom t, h.used,
    h.usedTag, h.status⟩
  · change (assign s.pc p _ q).request? = _ at hq
    rw [heq] at hq
    obtain ⟨hf, hprog⟩ := h.request q b' c' t' posted hq
    exact ⟨hf.congr (fun _ _ => rfl) rfl, hprog⟩
  · rcases assign_cases (φ := fun k => k = .bump b' c' t') hq with ⟨-, hk⟩ | ⟨hne, hk⟩
    · obtain ⟨-, rfl, rfl⟩ : b = b' ∧ c = c' ∧ t = t' := by simpa using hk
      exact ⟨if_pos rfl, if_pos rfl⟩
    · have hother := h.alone hholds hne
      rw [hk] at hother
      cases hother
  · refine h.avail.store ?_ c.i0
    rw [length_map]
    exact hroom

theorem Inv.bump (hp : s.pc p = .bump b c t) : Inv { s.goto p (.test b c t) with
      disk := { s.disk with avail := { s.disk.avail with idx := Virtio.bump s.disk.avail.idx } } }
      (queue ++ [t]) done := by
  have hreq : (s.pc p).request? = some (b, c, t, false) := by rw [hp]; rfl
  have hholds : (s.pc p).holds = true := by rw [hp]; rfl
  obtain ⟨hring, htag⟩ := h.posting p b c t hp
  obtain ⟨hformat, n, l, hrec, hprog⟩ := h.request p b c t false hreq
  obtain ⟨hq, hu, rfl, rfl, hbusy⟩ : t ∉ queue ++ s.tags ∧ t ∉ done ∧ n = 0 ∧ l = [] ∧
      s.disk.busy b = true := by
    rcases hprog with ⟨-, h1⟩ | ⟨hf, -⟩ | ⟨hf, -⟩ | ⟨hf, -⟩
    · exact h1
    · cases hf
    · cases hf
    · cases hf
  have hperm : (queue ++ [t] ++ s.tags ++ done).Perm (t :: (queue ++ s.tags ++ done)) := by
    rw [append_assoc, append_assoc, append_assoc, singleton_append]
    exact perm_middle
  have hmem : ∀ t', t' ≠ t → (t' ∈ queue ++ [t] ++ s.tags ↔ t' ∈ queue ++ s.tags) := by
    intro t' hne
    simp only [mem_append, mem_singleton]
    exact ⟨fun hm => by rcases hm with (hm | hm) | hm <;> simp_all, fun hm => by
      rcases hm with hm | hm <;> simp_all⟩
  refine ⟨h.lock_goto hholds, h.owner_goto fun b' hb => h.owner p b' (by rw [hp]; exact hb),
    h.chains.same (by rw [hp]; rfl),
    fun q b' c' t' posted hq' => ?_, fun t' x hx => ?_, fun q b' c' t' hq' => ?_, ?_,
    fun t' ht => ?_, h.flight, ?_, h.availTag.commit htag, h.used, h.usedTag, h.status⟩
  · rcases assign_cases (φ := fun k => k.request? = some (b', c', t', posted)) hq' with
      ⟨rfl, hr⟩ | ⟨hne, hr⟩
    · obtain ⟨rfl, rfl, rfl, rfl⟩ : b = b' ∧ c = c' ∧ t = t' ∧ true = posted := by
        simpa [Pc.request?] using hr
      refine ⟨hformat.congr (fun _ _ => rfl) rfl, 0, [], hrec, .inr (.inl ⟨rfl, ?_, hu, rfl, rfl,
        hbusy⟩)⟩
      exact mem_append_left _ (mem_append_right _ (mem_singleton_self t))
    · obtain ⟨hf, n, l, hreq', hprog'⟩ := h.request q b' c' t' posted hr
      have htne : t' ≠ t := by
        rintro rfl
        exact hne (h.proc_eq hr hreq)
      refine ⟨hf.congr (fun _ _ => rfl) rfl, n, l, hreq', ?_⟩
      change Progress (queue ++ [t] ++ s.tags) done _ _ _ _ _ _
      simp only [Progress, hmem t' htne] at hprog' ⊢
      exact hprog'
  · obtain ⟨h1, h2, h3⟩ := h.record t' x hx
    refine ⟨h1, fun hr => ?_, h3⟩
    obtain ⟨b', posted, hb⟩ := h2 hr
    by_cases hxp : x.proc = p
    · rw [hxp, hreq] at hb
      obtain ⟨rfl, hc, rfl, rfl⟩ : b = b' ∧ c = x.chain ∧ t = t' ∧ false = posted := by
        simpa using hb
      refine ⟨b, true, ?_⟩
      change (assign s.pc p _ x.proc).request? = _
      rw [assign, if_pos hxp, ← hc]
      rfl
    · refine ⟨b', posted, ?_⟩
      change (assign s.pc p _ x.proc).request? = _
      rw [assign, if_neg hxp]
      exact hb
  · rcases assign_cases (φ := fun k => k = .bump b' c' t') hq' with ⟨-, hk⟩ | ⟨hne, hk⟩
    · cases hk
    · have hother := h.alone hholds hne
      rw [hk] at hother
      cases hother
  · refine hperm.nodup_iff.mpr (nodup_cons.mpr ⟨?_, h.nodup⟩)
    exact fun hmem' => (mem_append.mp hmem').elim hq hu
  · rcases mem_cons.mp (hperm.mem_iff.mp ht) with rfl | ht
    · refine ⟨p, b, c, ?_⟩
      change (assign s.pc p _ p).request? = _
      rw [assign, if_pos rfl]
      rfl
    · obtain ⟨q, b', c', hq'⟩ := h.waits t' ht
      have hne : q ≠ p := by
        rintro rfl
        rw [hreq] at hq'
        simp at hq'
      refine ⟨q, b', c', ?_⟩
      change (assign s.pc p _ q).request? = _
      rw [assign, if_neg hne]
      exact hq'
  · change Holds _ _ ((queue ++ [t]).map s.head)
    rw [map_append, map_singleton, h.head hreq]
    exact h.avail.commit hring

theorem Inv.finish {desc : ℕ → Desc B} (hp : s.pc p = .test b c t) (hbusy : s.disk.busy b = false)
    (hdesc : ∀ i, i ∉ c.list → desc i = s.disk.desc i) :
    Inv { (s.goto p .idle).note t fun x => { x with returned := true } with
      disk := { s.disk with
        info := assign s.disk.info c.i0 { s.disk.info c.i0 with b := none }
        desc := desc
        free := fun i => if i ∈ c.list then true else s.disk.free i }
      lock := none } queue done := by
  have hreq : (s.pc p).request? = some (b, c, t, true) := by rw [hp]; rfl
  have hchain : (s.pc p).chain = some c := by rw [hp]; rfl
  have hholds : (s.pc p).holds = true := by rw [hp]; rfl
  obtain ⟨-, n, l, hrec, hprog⟩ := h.request p b c t true hreq
  obtain ⟨hq, hu, rfl, rfl⟩ : t ∉ queue ++ s.tags ∧ t ∉ done ∧ n = 1 ∧ l = [b] := by
    rw [hbusy] at hprog
    rcases hprog with ⟨hf, -⟩ | ⟨-, -, -, -, -, hf⟩ | ⟨-, -, -, -, -, hf⟩ | ⟨-, h1, h2, h3, h4, -⟩
    · cases hf
    · cases hf
    · cases hf
    · exact ⟨h1, h2, h3, h4⟩
  have hhead := fun t' => s.head_note t t' (f := fun x => { x with returned := true }) fun _ => rfl
  have hother : ∀ q b' c' t' posted, (s.pc q).request? = some (b', c', t', posted) → q ≠ p →
      t' ≠ t := by
    rintro q b' c' t' posted hq' hne rfl
    exact hne (h.proc_eq hq' hreq)
  refine ⟨fun q hq' => ?_, h.owner_goto nofun, h.chains.give hchain rfl,
    fun q b' c' t' posted hq' => ?_, fun t' x hx => ?_, h.posting_goto nofun, h.nodup,
    fun t' ht => ?_, fun x hx => ?_, h.avail.congr fun t' _ => hhead t', h.availTag,
    h.used.congr fun t' _ => hhead t', h.usedTag, fun t' ht => ?_⟩
  · rcases assign_cases (φ := fun k => k.holds = true) hq' with ⟨-, hh⟩ | ⟨hne, hh⟩
    · cases hh
    · rw [h.alone hholds hne] at hh
      cases hh
  · rcases assign_cases (φ := fun k => k.request? = some (b', c', t', posted)) hq' with
      ⟨-, hr⟩ | ⟨hne, hr⟩
    · cases hr
    · obtain ⟨hf, n, l, hreq', hprog'⟩ := h.request q b' c' t' posted hr
      have hnot : ∀ i ∈ c'.list, i ∉ c.list := fun i hi hmem => hne
        (h.chains.disjoint q p c' c (Pc.chain_of_request? hr).1 hchain i hi hmem)
      refine ⟨hf.congr (fun i hi => hdesc i (hnot i hi)) ?_, n, l, ?_, hprog'⟩
      · change (assign s.disk.info c.i0 _ c'.i0).b = _
        rw [assign, if_neg]
        intro heq
        exact hnot c'.i0 (mem_cons_self ..) (by rw [heq]; exact mem_cons_self ..)
      · rw [← hreq']
        exact if_neg (hother q b' c' t' posted hr hne)
  · change assign s.request t ((s.request t).map _) t' = _ at hx
    by_cases ht : t' = t
    · subst ht
      rw [assign, if_pos rfl, hrec] at hx
      cases hx
      refine ⟨(h.record t' _ hrec).1, ?_, ?_⟩
      · intro hfalse
        cases hfalse
      · intro _
        exact ⟨rfl, rfl⟩
    · rw [assign, if_neg ht] at hx
      obtain ⟨h1, h2, h3⟩ := h.record t' x hx
      refine ⟨h1, fun hr => ?_, h3⟩
      obtain ⟨b', posted, hb⟩ := h2 hr
      refine ⟨b', posted, ?_⟩
      change (assign s.pc p _ x.proc).request? = _
      rw [assign, if_neg]
      · exact hb
      · intro hxp
        rw [hxp, hreq] at hb
        exact ht (congrArg (fun y => y.2.2.1) (some.inj hb)).symm
  · obtain ⟨q, b', c', hq'⟩ := h.waits t' ht
    refine ⟨q, b', c', ?_⟩
    change (assign s.pc p _ q).request? = _
    rw [assign, if_neg]
    · exact hq'
    · rintro rfl
      rw [hreq] at hq'
      obtain rfl : t = t' := congrArg (fun y => y.2.2.1) (some.inj hq')
      exact (mem_append.mp ht).elim hq hu
  · obtain ⟨h1, h2⟩ := h.flight x hx
    exact ⟨h1.trans (hhead x.tag).symm, h2⟩
  · obtain ⟨q, b', c', hq'⟩ := h.waits t' (mem_append_right _ ht)
    have hne : q ≠ p := by
      rintro rfl
      rw [hreq] at hq'
      obtain rfl : t = t' := congrArg (fun y => y.2.2.1) (some.inj hq')
      exact hu ht
    have hnot := h.head_not_mem hq' hne hchain
    change (assign s.disk.info c.i0 _ (Option.elim (assign s.request t ((s.request t).map _) t') 0
      _)).status = 0
    rw [hhead t', assign, if_neg]
    · exact h.status t' ht
    · intro heq
      exact hnot (by rw [heq]; exact mem_cons_self ..)

/-! ## Steps of the interrupt handler and the device -/

omit [DecidableEq P] in
theorem Inv.waiter (ht : t ∈ queue ++ s.tags ++ done) :
    ∃ q b c n, (s.pc q).request? = some (b, c, t, true) ∧ Formatted s.disk b c ∧ s.head t = c.i0 ∧
      s.request t = some ⟨q, b, c, n, [], false⟩ ∧ s.disk.busy b = true ∧
      ((t ∈ queue ++ s.tags ∧ t ∉ done ∧ n = 0) ∨ (t ∉ queue ++ s.tags ∧ t ∈ done ∧ n = 1)) := by
  obtain ⟨q, b, c, hq⟩ := h.waits t ht
  obtain ⟨hf, n, l, hrec, hprog⟩ := h.request q b c t true hq
  rcases hprog with ⟨hx, -⟩ | ⟨-, h1, h2, h3, rfl, h5⟩ | ⟨-, h1, h2, h3, rfl, h5⟩ | ⟨-, h1, h2, -⟩
  · cases hx
  · exact ⟨q, b, c, n, hq, hf, h.head hq, hrec, h5, .inl ⟨h1, h2, h3⟩⟩
  · exact ⟨q, b, c, n, hq, hf, h.head hq, hrec, h5, .inr ⟨h1, h2, h3⟩⟩
  · exact ((mem_append.mp ht).elim h1 h2).elim

omit [DecidableEq P] in
theorem Inv.record_note {x : Request B P}
    (hx : s.request t = some x) (hf : (f x).proc = x.proc ∧ (f x).chain = x.chain ∧
      (f x).returned = x.returned) (hret : x.returned = false) {t' : ℕ} {y : Request B P}
    (hy : assign s.request t ((s.request t).map f) t' = some y) : t' < s.requests ∧
      (y.returned = false → ∃ b posted, (s.pc y.proc).request? = some (b, y.chain, t', posted)) ∧
      (y.returned = true → y.completions = 1 ∧ y.cleared = [y.buf]) := by
  by_cases ht : t' = t
  · subst ht
    rw [assign, if_pos rfl, hx] at hy
    cases hy
    obtain ⟨h1, h2, -⟩ := h.record t' x hx
    rw [hf.1, hf.2.1, hf.2.2, hret]
    exact ⟨h1, fun _ => h2 hret, fun hfalse => by cases hfalse⟩
  · rw [assign, if_neg ht] at hy
    exact h.record t' y hy

omit [DecidableEq P] in
theorem Inv.complete {k : ℕ} {x : Taken B} (hk : s.flight[k]? = some x) :
    Inv { s.note x.tag fun y => { y with completions := y.completions + 1 } with
      flight := s.flight.eraseIdx k
      usedTag := assign s.usedTag (s.disk.used.idx % NUM) x.tag
      disk := { s.disk with
        used := s.disk.used.push x.head
        info := assign s.disk.info x.head { s.disk.info x.head with status := 0 } } }
      queue (done ++ [x.tag]) := by
  obtain ⟨i, status, t⟩ := x
  have hx : ⟨i, status, t⟩ ∈ s.flight := mem_of_getElem? hk
  have hmemt : t ∈ s.tags := mem_map_of_mem (f := tag) hx
  have hmem : t ∈ queue ++ s.tags := mem_append_right _ hmemt
  obtain ⟨q, b, c, n, hq, hf, hhead, hrec, hbusy, hdone⟩ :=
    h.waiter (mem_append_left _ hmem)
  obtain ⟨hnd, rfl⟩ : t ∉ done ∧ n = 0 := by
    rcases hdone with ⟨-, h1⟩ | ⟨h1, -⟩
    · exact h1
    · exact absurd hmem h1
  obtain rfl : i = s.head t := (h.flight _ hx).1
  have hroom : done.length < NUM := h.room hq (sublist_append_right ..) hnd
  have htags : (s.flight.eraseIdx k).map tag = s.tags.eraseIdx k := (eraseIdx_map ..).symm
  have hperm : s.tags.Perm (t :: s.tags.eraseIdx k) := by
    have hget : s.tags[k]? = some t := by
      rw [State.tags, getElem?_map, hk]
      rfl
    obtain ⟨hlt, rfl⟩ := List.getElem?_eq_some_iff.mp hget
    exact (getElem_cons_eraseIdx_perm hlt).symm
  have hall : (queue ++ s.tags.eraseIdx k ++ (done ++ [t])).Perm (queue ++ s.tags ++ done) := by
    refine List.Perm.trans ?_ ((hperm.append_left queue).append_right done).symm
    rw [← append_assoc]
    refine (perm_append_singleton t _).trans ?_
    rw [append_assoc, append_assoc]
    exact perm_middle.symm
  have hnodup := hall.nodup_iff.mpr h.nodup
  have hmem' : ∀ t', t' ≠ t → (t' ∈ queue ++ s.tags.eraseIdx k ↔ t' ∈ queue ++ s.tags) := by
    intro t' hne
    simp only [mem_append, hperm.mem_iff, mem_cons, hne, false_or]
  have hnq : t ∉ queue ++ s.tags.eraseIdx k := fun hm =>
    disjoint_of_nodup_append hnodup hm (mem_append_right _ (mem_singleton_self t))
  have hnote := fun t' => s.head_note t t'
    (f := fun y => { y with completions := y.completions + 1 }) fun _ => rfl
  refine ⟨h.lock, h.owner, h.chains, fun q' b' c' t' posted hq' => ?_,
    fun t' y hy => h.record_note hrec ⟨rfl, rfl, rfl⟩ rfl hy, h.posting, ?_, fun t' ht => ?_,
    fun y hy => ?_, h.avail.congr fun t' _ => hnote t', h.availTag, ?_, h.usedTag.push hroom t,
    fun t' ht => ?_⟩
  · obtain ⟨hf', n, l, hrec', hprog⟩ := h.request q' b' c' t' posted hq'
    refine ⟨hf'.congr (fun _ _ => rfl) ?_, ?_⟩
    · change (assign s.disk.info (s.head t) _ c'.i0).b = _
      rw [assign]
      split
      · next heq => rw [heq]
      · rfl
    change ∃ n l, _ ∧ Progress (queue ++ (s.flight.eraseIdx k).map tag) _ _ _ _ _ _ _
    rw [htags]
    by_cases hne : q' = q
    · subst hne
      have heq := hq.symm.trans hq'
      obtain ⟨rfl, rfl, rfl, rfl⟩ : b = b' ∧ c = c' ∧ t = t' ∧ true = posted := by
        simpa using heq
      refine ⟨1, [], ?_, .inr (.inr (.inl ⟨rfl, hnq, ?_, rfl, rfl, hbusy⟩))⟩
      · change assign s.request t ((s.request t).map _) t = _
        rw [assign, if_pos rfl, hrec]
        rfl
      · exact mem_append_right _ (mem_singleton_self t)
    · have htne : t' ≠ t := by
        rintro rfl
        exact hne (h.proc_eq hq' hq)
      refine ⟨n, l, ?_, ?_⟩
      · rw [← hrec']
        exact if_neg htne
      · have hd : t' ∈ done ++ [t] ↔ t' ∈ done := by
          simp only [mem_append, mem_singleton, htne, or_false]
        simp only [Progress, hmem' t' htne, hd]
        exact hprog
  · change (queue ++ (s.flight.eraseIdx k).map tag ++ (done ++ [t])).Nodup
    rw [htags]
    exact hnodup
  · change t' ∈ queue ++ (s.flight.eraseIdx k).map tag ++ (done ++ [t]) at ht
    rw [htags] at ht
    exact h.waits t' (hall.mem_iff.mp ht)
  · obtain ⟨h1, h2⟩ := h.flight y (mem_of_mem_eraseIdx hy)
    exact ⟨h1.trans (hnote y.tag).symm, h2⟩
  · have hpush := h.used.push (by rw [length_map]; exact hroom) (s.head t)
    have hmap : done.map s.head ++ [s.head t] = (done ++ [t]).map s.head := by
      rw [map_append]
      rfl
    rw [hmap] at hpush
    exact hpush.congr fun t' _ => hnote t'
  · change (assign s.disk.info (s.head t) _ (Option.elim (assign s.request t ((s.request t).map _) t') 0
      _)).status = 0
    rw [hnote t', assign]
    split
    · rfl
    · next hne =>
      rcases mem_append.mp ht with ht | ht
      · exact h.status t' ht
      · exact absurd (congrArg s.head (mem_singleton.mp ht)) hne

omit h

variable {t : ℕ}

omit [DecidableEq P] in
theorem Inv.take (h : Inv s (t :: queue) done) : Inv { s with
      taken := Virtio.bump s.taken
      flight := s.flight ++ [⟨s.disk.avail.ring (s.taken % NUM),
        (s.disk.desc (s.disk.desc (s.disk.desc (s.disk.avail.ring
          (s.taken % NUM))).next).next).addr, s.availTag (s.taken % NUM)⟩] } queue done := by
  obtain ⟨q, b, c, n, hq, hf, hhead, hrec, hbusy, -⟩ := h.waiter (t := t) (by simp)
  have havail := h.avail
  rw [map_cons] at havail
  obtain ⟨hring, havail'⟩ := havail.pop
  obtain ⟨htag, htag'⟩ := h.availTag.pop
  change s.availTag (s.taken % NUM) = t at htag
  have haddr : (s.disk.desc (s.disk.desc (s.disk.desc (s.disk.avail.ring
      (s.taken % NUM))).next).next).addr = .status (s.head t) := by
    rw [hring, hhead, hf.first.2, hf.second.2]
    exact hf.third.2
  rw [haddr, htag, hring]
  have hmem : ∀ t', t' ∈ queue ++ (s.tags ++ [t]) ↔ t' ∈ t :: queue ++ s.tags := by
    intro t'
    simp only [mem_append, mem_cons, not_mem_nil, or_false]
    tauto
  have hperm : (queue ++ (s.tags ++ [t]) ++ done).Perm (t :: queue ++ s.tags ++ done) := by
    refine List.Perm.append_right done ?_
    rw [← append_assoc]
    exact perm_append_singleton t (queue ++ s.tags)
  have htags : (s.flight ++ [Taken.mk (s.head t) (.status (s.head t)) t]).map tag = s.tags ++ [t] := by
    rw [map_append]
    rfl
  refine ⟨h.lock, h.owner, h.chains, fun q b c t' posted hq => ?_, h.record, h.posting, ?_,
    fun t' ht => ?_, fun x hx => ?_, havail', htag', h.used, h.usedTag, h.status⟩
  · obtain ⟨hf, n, l, hrec, hprog⟩ := h.request q b c t' posted hq
    refine ⟨hf, n, l, hrec, ?_⟩
    change Progress (queue ++ map tag _) done _ _ _ _ _ _
    rw [htags]
    simp only [Progress, hmem t']
    exact hprog
  · change (queue ++ map tag _ ++ done).Nodup
    rw [htags]
    exact hperm.nodup_iff.mpr h.nodup
  · change t' ∈ queue ++ map tag _ ++ done at ht
    rw [htags] at ht
    exact h.waits t' (hperm.mem_iff.mp ht)
  · rcases mem_append.mp hx with hx | hx
    · exact h.flight x hx
    · obtain rfl := mem_singleton.mp hx
      exact ⟨rfl, rfl⟩

omit [DecidableEq P] in
theorem Inv.clear [DecidableEq B] (h : Inv s queue (t :: done)) : ∃ b,
    (s.disk.info (s.disk.used.ring (s.disk.usedIdx % NUM))).status = 0 ∧
    (s.disk.info (s.disk.used.ring (s.disk.usedIdx % NUM))).b = some b ∧
    Inv { s.note (s.usedTag (s.disk.usedIdx % NUM)) fun x => { x with cleared := x.cleared ++ [b] }
      with disk := { s.disk with
        busy := assign s.disk.busy b false
        usedIdx := Virtio.bump s.disk.usedIdx } } queue done := by
  obtain ⟨q, b, c, n, hq, hf, hhead, hrec, hbusy, hdone⟩ := h.waiter (t := t) (by simp)
  obtain ⟨hnq, rfl⟩ : t ∉ queue ++ s.tags ∧ n = 1 := by
    rcases hdone with ⟨-, h1, -⟩ | ⟨h1, -, h2⟩
    · exact absurd (mem_cons_self ..) h1
    · exact ⟨h1, h2⟩
  have hused := h.used
  rw [map_cons] at hused
  obtain ⟨hring, hused'⟩ := hused.pop
  obtain ⟨htag, htag'⟩ := h.usedTag.pop
  change s.usedTag (s.disk.usedIdx % NUM) = t at htag
  have hsub : (queue ++ s.tags ++ done).Sublist (queue ++ s.tags ++ t :: done) :=
    List.Sublist.append_left (sublist_cons_self t done) _
  have hnd : t ∉ done := (nodup_cons.mp (nodup_append'.mp h.nodup).2.1).1
  have hnote := fun t' => s.head_note t t' (f := fun x => { x with cleared := x.cleared ++ [b] })
    fun _ => rfl
  rw [hring, htag]
  refine ⟨b, h.status t (mem_cons_self ..), ?_, h.lock, h.owner, h.chains,
    fun q' b' c' t' posted hq' => ?_, fun t' y hy => h.record_note hrec ⟨rfl, rfl, rfl⟩ rfl hy,
    h.posting, h.nodup.sublist hsub, fun t' ht => h.waits t' (hsub.subset ht), fun x hx => ?_,
    h.avail.congr fun t' _ => hnote t', h.availTag, hused'.congr fun t' _ => hnote t', htag',
    fun t' ht => ?_⟩
  · rw [hhead]
    exact hf.info
  · obtain ⟨hf', n, l, hrec', hprog⟩ := h.request q' b' c' t' posted hq'
    refine ⟨hf'.congr (fun _ _ => rfl) rfl, ?_⟩
    by_cases hne : q' = q
    · subst hne
      have heq := hq.symm.trans hq'
      obtain ⟨rfl, rfl, rfl, rfl⟩ : b = b' ∧ c = c' ∧ t = t' ∧ true = posted := by
        simpa using heq
      refine ⟨1, [b], ?_, .inr (.inr (.inr ⟨rfl, hnq, hnd, rfl, rfl, if_pos rfl⟩))⟩
      change assign s.request t ((s.request t).map _) t = _
      rw [assign, if_pos rfl, hrec]
      rfl
    · have htne : t' ≠ t := by
        rintro rfl
        exact hne (h.proc_eq hq' hq)
      refine ⟨n, l, ?_, ?_⟩
      · rw [← hrec']
        exact if_neg htne
      · change Progress _ _ _ _ _ _ _ (assign s.disk.busy b false b')
        rw [assign, if_neg (h.buf_ne (Pc.chain_of_request? hq).2 (Pc.chain_of_request? hq').2 hne)]
        simp only [Progress, mem_cons, htne, false_or] at hprog
        exact hprog
  · obtain ⟨h1, h2⟩ := h.flight x hx
    exact ⟨h1.trans (hnote x.tag).symm, h2⟩
  · change (s.disk.info (Option.elim (assign s.request t ((s.request t).map _) t') 0 _)).status = 0
    rw [hnote t']
    exact h.status t' (mem_cons_of_mem _ ht)

end

end Xv6.Virtio
