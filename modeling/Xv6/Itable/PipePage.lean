import Xv6.Itable.Exits

/-!
# The page of a pipe

The two files of a pipe share one page. Whoever drops the last reference to one of them takes over its
end and runs `pipeclose`, which finds out under the lock of the pipe whether the other end is closed as
well and then frees the page. In every interleaving an end is in one place, a file or the hands of one
process, so that the page is freed once, by the last to leave, and nobody is inside the pipe then
(`pipe_freed_once`).
-/

namespace Xv6.Itable

open Fs Multiset
open Lib (Threads)

/-- The operation that process `p` runs next. Inside `piperead` or `pipewrite` it is always
`pipeTurn`, also while the process sleeps. -/
def nextOp (s : Threads.State Op.Res ProcSlot Shared) (p : ProcSlot) : Option Op :=
  match s.prog p with
  | some (.op o _) => some o
  | _ => none

/-- An open file in use is the write end, or the read end, of the pipe in page `pi`. -/
def HasEnd (x : File) (pi : ℕ) (w : Bool) : Prop :=
  0 < x.ref ∧ x.type = .pipe ∧ x.pipe = pi ∧ x.writable = w

section

variable {γ : ProcSlot → Own} {t : Shared} {p q : ProcSlot} {f : FileSlot} {pi : ℕ}
  {a : PipeEnd}

section

variable (h : Inv γ t)

include h

theorem Inv.hasEnd_iff (f : FileSlot) (pi : ℕ) (w : Bool) :
    HasEnd (t.file f) pi w ↔ pipeEnd (t.file f) = some (pi, some w) := by
  constructor
  · intro hend
    obtain ⟨_, htype, hpipe, hw⟩ := hend
    rw [pipeEnd, if_pos htype, hpipe, hw]
  · intro hend
    unfold pipeEnd at hend
    split at hend
    · next htype =>
      obtain ⟨hpipe, hw⟩ := Prod.mk.inj (Option.some.inj hend)
      refine ⟨Nat.pos_of_ne_zero fun h0 => ?_, htype, hpipe, Option.some.inj hw⟩
      have hnone := h.idle f h0
      rw [htype] at hnone
      exact absurd hnone (by simp)
    · exact absurd hend.symm (Option.some_ne_none _)

theorem Inv.no_file (ha : a ∈ (γ p).ends) (f : FileSlot) : pipeEnd (t.file f) ≠ some a := by
  intro hf
  have h1 := h.ends a
  have h2 := le_sum γ p fun g => g.ends.count a
  have h3 := count_pos.mpr ha
  have h4 : 0 < endRefs t.file a := Lib.countAt_pos hf
  have h5 := Bool.toNat_le (t.isOpen a)
  omega

theorem Inv.end_unique (hp : a ∈ (γ p).ends) (hq : a ∈ (γ q).ends) : q = p := by
  by_contra hne
  have h1 := h.ends a
  have h2 := Lib.add_le_sum_of_ne (fun q => (γ q).ends.count a) hne
  have h3 := count_pos.mpr hp
  have h4 := count_pos.mpr hq
  have h5 := Bool.toNat_le (t.isOpen a)
  omega

theorem Inv.exists_owner (ha : t.isOpen a = true) :
    (∃ f, pipeEnd (t.file f) = some a) ∨ ∃ p, a ∈ (γ p).ends := by
  by_contra hnone
  obtain ⟨hfile, hproc⟩ := not_or.mp hnone
  have h1 := h.ends a
  have h2 : endRefs t.file a = 0 := Lib.countAt_eq_zero.mpr fun f hf => hfile ⟨f, hf⟩
  have h3 : ∑ p, (γ p).ends.count a = 0 := Finset.sum_eq_zero fun p _ =>
    count_eq_zero.mpr fun hp => hproc ⟨p, hp⟩
  rw [ha, h2, h3] at h1
  exact absurd h1 Nat.one_ne_zero

theorem Inv.closed_of_mem (ha : (pi, none) ∈ (γ p).ends) : t.pipe pi = some ⟨false, false⟩ := by
  obtain ⟨x, hx, hend⟩ := Shared.exists_pipe (h.isOpen_of_mem ha)
  rw [hx, show x = ⟨false, false⟩ from of_decide_eq_true hend]

end

theorem close_eq_iff {x : Pipe} {w : Bool} (hw : openEnd (some x) (some w) = true) :
    x.close w = ⟨false, false⟩ ↔ openEnd (some x) (some !w) = false := by
  obtain ⟨r, v⟩ := x
  revert r v w
  decide

theorem exists_openEnd (x : Pipe) : ∃ w, openEnd (some x) w = true := by
  obtain ⟨r, v⟩ := x
  cases v with
  | true => exact ⟨some true, rfl⟩
  | false =>
    cases r with
    | true => exact ⟨some false, rfl⟩
    | false => exact ⟨none, rfl⟩

theorem not_isOpen_of_closed (hpi : t.pipe pi = some ⟨false, false⟩) (w : Bool) :
    t.isOpen (pi, some w) = false := by
  rw [Shared.isOpen, hpi]
  cases w <;> rfl

end

section

variable {s : Threads.State Op.Res ProcSlot Shared} {γ : ProcSlot → Own} {p q : ProcSlot}
  {o : Op} {pi : ℕ} {w : Bool} {a : PipeEnd}
  (howned : ∀ p, Threads.Owned (fun _ => rules) Idle p (s.prog p) (γ p))

include howned

theorem exists_rule (hp : nextOp s p = some o) : ∃ R, Rule o R (γ p) := by
  have h := howned p
  unfold nextOp at hp
  split at hp
  · next o' k heq =>
    cases hp
    rw [heq] at h
    exact ⟨_, h.op⟩
  · exact absurd hp.symm (Option.some_ne_none o)

theorem exists_nextOp (ha : a ∈ (γ p).ends) : ∃ o, nextOp s p = some o ∧ o.page = some a.1 := by
  have h := howned p
  unfold nextOp
  cases hprog : s.prog p with
  | none =>
    rw [hprog] at h
    have hidle : Idle (γ p) := h
    exact absurd (hidle.ends ▸ ha) (notMem_zero a)
  | some t =>
    rw [hprog] at h
    cases t with
    | ret r => exact h.elim
    | op o k => exact ⟨o, rfl, (show Rule o _ (γ p) from h.op).1.2 a ha⟩

theorem exists_hasEnd_of_pipeTurn (hinv : Inv γ s.shared)
    (hp : nextOp s p = some (.pipeTurn pi w)) : ∃ f v, HasEnd (s.shared.file f) pi v := by
  obtain ⟨R, _, f, hin, _⟩ := exists_rule howned hp
  obtain ⟨_, _, htype, hpipe⟩ := (hinv.fresh p).inPipe f pi hin
  refine ⟨f, (s.shared.file f).writable, (hinv.hasEnd_iff ..).mpr ?_⟩
  rw [pipeEnd, if_pos htype, hpipe]

theorem exists_mem_of_page (hp : nextOp s p = some o) (ho : o.page = some pi) :
    (o = .kfree pi ∧ (pi, none) ∈ (γ p).ends) ∨
      ∃ w, (o = .pipeclose pi w ∨ ∃ f, o = .setPipe f pi w) ∧ (pi, some w) ∈ (γ p).ends := by
  unfold Op.page at ho
  split at ho
  · next f pi' w =>
    cases ho
    obtain ⟨R, _, _, e, _, he, _⟩ := exists_rule howned hp
    exact .inr ⟨w, .inr ⟨f, rfl⟩, he ▸ mem_cons_self ..⟩
  · next pi' w =>
    cases ho
    obtain ⟨R, _, he, _⟩ := exists_rule howned hp
    exact .inr ⟨w, .inl rfl, he ▸ mem_singleton_self _⟩
  · cases ho
    obtain ⟨R, _, e, he, _⟩ := exists_rule howned hp
    exact .inl ⟨rfl, he ▸ mem_cons_self ..⟩
  · exact absurd ho.symm (Option.some_ne_none pi)

theorem kfree_alone (hinv : Inv γ s.shared) (hp : nextOp s p = some (.kfree pi)) :
    s.shared.pipe pi = some ⟨false, false⟩ ∧ (∀ f w, ¬ HasEnd (s.shared.file f) pi w) ∧
      (∀ q w, nextOp s q ≠ some (.pipeTurn pi w)) ∧
      ∀ q o, nextOp s q = some o → o.page = some pi → q = p ∧ o = .kfree pi := by
  obtain ⟨R, _, e, he, _⟩ := exists_rule howned hp
  have hmem : (pi, none) ∈ (γ p).ends := he ▸ mem_cons_self ..
  have hclosed := hinv.closed_of_mem hmem
  have hfile : ∀ f w, ¬ HasEnd (s.shared.file f) pi w := by
    intro f w hend
    have hopen := hinv.isOpen_of_file ((hinv.hasEnd_iff f pi w).mp hend)
    rw [not_isOpen_of_closed hclosed] at hopen
    exact Bool.false_ne_true hopen
  refine ⟨hclosed, hfile, fun q w hq => ?_, fun q o hq ho => ?_⟩
  · obtain ⟨f, v, hend⟩ := exists_hasEnd_of_pipeTurn howned hinv hq
    exact hfile f v hend
  · rcases exists_mem_of_page howned hq ho with ⟨hkfree, hmem'⟩ | ⟨w, _, hmem'⟩
    · exact ⟨hinv.end_unique hmem hmem', hkfree⟩
    · have hopen := hinv.isOpen_of_mem hmem'
      rw [not_isOpen_of_closed hclosed] at hopen
      exact absurd hopen Bool.false_ne_true

theorem pipeclose_last (hinv : Inv γ s.shared) (hp : nextOp s p = some (.pipeclose pi w)) :
    (∀ f, ¬ HasEnd (s.shared.file f) pi w) ∧ ∃ last shared,
      s.shared.pipeclose pi w = some (.ok (last, shared)) ∧
      (last = true ↔ (∀ f, ¬ HasEnd (s.shared.file f) pi (!w)) ∧
        ∀ q o, nextOp s q = some o → o.page = some pi → q = p) := by
  obtain ⟨R, _, he, _⟩ := exists_rule howned hp
  have hmem : (pi, some w) ∈ (γ p).ends := he ▸ mem_singleton_self _
  obtain ⟨x, hx, hw⟩ := Shared.exists_pipe (hinv.isOpen_of_mem hmem)
  have hother : x.close w = ⟨false, false⟩ ↔ s.shared.isOpen (pi, some !w) = false := by
    rw [Shared.isOpen, hx]
    exact close_eq_iff hw
  refine ⟨fun f hend => hinv.no_file hmem f ((hinv.hasEnd_iff ..).mp hend), _, _,
    by rw [Shared.pipeclose, Shared.onPipe, hx], ?_⟩
  rw [decide_eq_true_iff, hother]
  constructor
  · intro hclosed
    have hnot : ∀ b, s.shared.isOpen b = true → b ≠ (pi, some !w) := by
      intro b hb heq
      rw [heq, hclosed] at hb
      exact Bool.false_ne_true hb
    refine ⟨fun f hend => ?_, fun q o hq ho => ?_⟩
    · exact hnot _ (hinv.isOpen_of_file ((hinv.hasEnd_iff ..).mp hend)) rfl
    · rcases exists_mem_of_page howned hq ho with ⟨_, hq⟩ | ⟨v, _, hq⟩
      · have hopen := hinv.isOpen_of_mem hmem
        rw [not_isOpen_of_closed (hinv.closed_of_mem hq)] at hopen
        exact absurd hopen Bool.false_ne_true
      · by_cases hv : v = w
        · exact hinv.end_unique hmem (hv ▸ hq)
        · rw [Bool.eq_not_of_ne hv] at hq
          exact absurd rfl (hnot _ (hinv.isOpen_of_mem hq))
  · intro hnone
    obtain ⟨hfile, hproc⟩ := hnone
    by_contra hopen
    rcases hinv.exists_owner (Bool.eq_true_of_not_eq_false hopen) with ⟨f, hf⟩ | ⟨q, hq⟩
    · exact hfile f ((hinv.hasEnd_iff ..).mpr hf)
    · obtain ⟨o, hnext, ho⟩ := exists_nextOp howned hq
      obtain rfl := hproc q o hnext ho
      rw [he, mem_singleton] at hq
      have hne := Option.some.inj (Prod.mk.inj hq).2
      exact Bool.not_ne_self w hne

theorem exists_user (hinv : Inv γ s.shared)
    (hpi : s.shared.pipe pi ≠ none) : (∃ f w, HasEnd (s.shared.file f) pi w) ∨
      ∃ p o, nextOp s p = some o ∧ o.page = some pi := by
  obtain ⟨x, hx⟩ := Option.ne_none_iff_exists'.mp hpi
  obtain ⟨w, hw⟩ := exists_openEnd x
  rw [← hx] at hw
  rcases hinv.exists_owner (a := (pi, w)) hw with ⟨f, hf⟩ | ⟨p, hp⟩
  · unfold pipeEnd at hf
    split at hf
    · next htype =>
      obtain ⟨hpipe, _⟩ := Prod.mk.inj (Option.some.inj hf)
      refine .inl ⟨f, (s.shared.file f).writable, (hinv.hasEnd_iff ..).mpr ?_⟩
      rw [pipeEnd, if_pos htype, hpipe]
    · exact absurd hf.symm (Option.some_ne_none _)
  · obtain ⟨o, ho⟩ := exists_nextOp howned hp
    exact .inr ⟨p, o, ho⟩

omit howned

/-- **The page of a pipe is freed once, by the last to leave it**, in every interleaving of the system
calls of all processes. Nobody uses or frees a page that has been freed. A process that is about to free
a page is alone with it: no file refers to it, no process is inside `piperead` or `pipewrite` on it,
and none is about to open, close or free it. `pipeclose` runs only when its file has no reference left,
and goes on to free the page exactly if no other file and no other process has the other end. As long
as a page has not been freed, a file or a process that is about to open, close or free it has it. -/
theorem pipe_freed_once (hs : machine.Reachable s) :
    (∀ p x, threads.next s p x ≠ some (.error .freedPipe)) ∧
    (∀ p pi, nextOp s p = some (.kfree pi) →
      s.shared.pipe pi = some ⟨false, false⟩ ∧ (∀ f w, ¬ HasEnd (s.shared.file f) pi w) ∧
      (∀ q w, nextOp s q ≠ some (.pipeTurn pi w)) ∧
      ∀ q o, nextOp s q = some o → o.page = some pi → q = p ∧ o = .kfree pi) ∧
    (∀ p pi w, nextOp s p = some (.pipeclose pi w) →
      (∀ f, ¬ HasEnd (s.shared.file f) pi w) ∧ ∃ last shared,
        s.shared.pipeclose pi w = some (.ok (last, shared)) ∧
        (last = true ↔ (∀ f, ¬ HasEnd (s.shared.file f) pi (!w)) ∧
          ∀ q o, nextOp s q = some o → o.page = some pi → q = p)) ∧
    ∀ pi, s.shared.pipe pi ≠ none → (∃ f w, HasEnd (s.shared.file f) pi w) ∨
      ∃ p o, nextOp s p = some o ∧ o.page = some pi := by
  obtain ⟨γ, hinv, howned⟩ := Threads.reachable_owned sound hs
  refine ⟨fun p x he => ?_, fun p pi hp => ?_, fun p pi w hp => ?_, fun pi hpi => ?_⟩
  · exact Threads.next_not_bad sound hs he trivial
  · exact kfree_alone howned hinv hp
  · exact pipeclose_last howned hinv hp
  · exact exists_user howned hinv hpi

/-- A process makes a pipe in page 7 and closes both ends, up to the `kfree`. -/
def pipeCloseClose : List (Threads.Act ProcSlot Call Choice) :=
  let x : Choice := { page := some 7 }
  .call 0 .pipe :: List.replicate 8 (.go 0 x) ++ .call 0 (.close 1) :: List.replicate 3 (.go 0 x) ++
    .call 0 (.close 0) :: List.replicate 3 (.go 0 x)

/-- Then nothing refers to page 7 any more. -/
theorem pipe_freed_once_close :
    ∃ s, machine.Reachable s ∧ nextOp s 0 = some (.kfree 7) ∧
      ∀ f w, ¬ HasEnd (s.shared.file f) 7 w := by
  have hrun : ∃ s ∈ machine.run start pipeCloseClose, nextOp s 0 = some (.kfree 7) := by
    decide +kernel
  obtain ⟨s, hs, hnext⟩ := hrun
  have hreach := reachable_of_run hs
  exact ⟨s, hreach, hnext, ((pipe_freed_once hreach).2.1 0 7 hnext).2.1⟩

end

end Xv6.Itable
