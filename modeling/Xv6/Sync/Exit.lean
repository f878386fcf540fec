import Xv6.Sync.Wait

/-!
# Every exit is delivered once

The history of a run lists the processes that exited and the processes that `wait` returned. Every
process that exited stays a ZOMBIE until one call of `wait` returns it: a call of its parent, with its
own pid and status. The parent is the process that forked it or, if that one has exited, `init`.
-/

namespace Xv6.Sync

open Lib List
open Table (apply)
open State (proc)

variable {s s' : State} {a : Act}

/-- The process an event is about. -/
def Event.id : Event → ℕ
  | .exited id _ _ => id
  | .reaped _ _ id _ _ => id

/-- In `exit`, under `wait_lock`. -/
def Pc.leaving : Pc → Bool
  | .wakeup _ _ k => k.leaving
  | .exitReparent _ _ | .exitZombie _ => true
  | _ => false

theorem Pc.leaving_holds {k : Pc} (h : k.leaving = true) : k.holdsWait = true := by
  induction k with
  | wakeup c j k ih => exact ih h
  | exitReparent status j => rfl
  | exitZombie status => rfl
  | _ => cases h

/-- What the history says when `wait` has returned a process. -/
def ReapedWell (before : List Event) (p f id : ℕ) (pid st : ℤ) : Prop :=
  .exited id pid st ∈ before ∧ (∀ p' f' pid' st', .reaped p' f' id pid' st' ∉ before) ∧
    (p = f ∨ p = 0 ∧ ∃ pid' st', .exited f pid' st' ∈ before)

/-- The history agrees with the process table. -/
structure History (s : State) : Prop where
  id_lt : ∀ i, s.table.id i < s.table.births
  id_inj : ∀ i j, (s.proc i).state ≠ .unused → (s.proc j).state ≠ .unused →
    s.table.id i = s.table.id j → i = j
  old : ∀ e ∈ s.table.history, e.id < s.table.births
  init_id : s.table.id s.table.initproc = 0
  zombie : ∀ i, (s.proc i).state = .zombie →
    .exited (s.table.id i) (s.proc i).pid (s.proc i).xstate ∈ s.table.history
  exited : ∀ id pid st, .exited id pid st ∈ s.table.history →
    (∃ p f, .reaped p f id pid st ∈ s.table.history) ∨
      ∃ i, (s.proc i).state = .zombie ∧ s.table.id i = id ∧ (s.proc i).pid = pid ∧
        (s.proc i).xstate = st
  gone : ∀ p f id pid st, .reaped p f id pid st ∈ s.table.history →
    ∀ i, (s.proc i).state ≠ .unused → s.table.id i ≠ id
  reaped : ∀ h₁ h₂ p f id pid st, s.table.history = h₁ ++ .reaped p f id pid st :: h₂ →
    ReapedWell h₁ p f id pid st
  orphan : ∀ i, (s.proc i).state = .unused → (s.proc i).parent = none
  parent : ∀ i q, (s.proc i).parent = some q → s.table.id q = s.table.forker i ∨
    q = s.table.initproc ∧ ((∃ pid st, .exited (s.table.forker i) pid st ∈ s.table.history) ∨
      ∃ p, s.table.id p = s.table.forker i ∧ (s.pc p).leaving = true)
  child : ∀ p np, (s.pc p).child = some np → s.table.forker np = s.table.id p

/-- The names of processes and their history do not change. -/
structure SameNames (t t' : Table) : Prop where
  initproc : t'.initproc = t.initproc
  id : t'.id = t.id
  forker : t'.forker = t.forker
  births : t'.births = t.births
  history : t'.history = t.history

/-- What a step may change about a process that the history does not mention. -/
structure SameFate (x x' : Proc) : Prop where
  unused : x'.state = .unused ↔ x.state = .unused
  zombie : x'.state = .zombie ↔ x.state = .zombie
  pid : x.state = .zombie → x'.pid = x.pid
  xstate : x.state = .zombie → x'.xstate = x.xstate
  parent : x'.parent = x.parent

theorem SameFate.refl (x : Proc) : SameFate x x := ⟨.rfl, .rfl, fun _ => rfl, fun _ => rfl, rfl⟩

theorem History.keep (h : History s) (ht : SameNames s.table s'.table)
    (hunused : ∀ i, (s'.proc i).state = .unused ↔ (s.proc i).state = .unused)
    (hzombie : ∀ i, (s'.proc i).state = .zombie ↔ (s.proc i).state = .zombie)
    (hsame : ∀ i, (s.proc i).state = .zombie →
      (s'.proc i).pid = (s.proc i).pid ∧ (s'.proc i).xstate = (s.proc i).xstate)
    (horphan : ∀ i, (s.proc i).state = .unused → (s'.proc i).parent = (s.proc i).parent)
    (hparent : ∀ i q, (s'.proc i).parent = some q → (s.proc i).parent = some q ∨
      s.table.id q = s.table.forker i ∨ q = s.table.initproc ∧
        ∃ p, s.table.id p = s.table.forker i ∧ (s'.pc p).leaving = true)
    (hchild : ∀ p np, (s'.pc p).child = some np → (s.pc p).child = some np)
    (hleaving : ∀ p, (s.pc p).leaving = true → (s'.pc p).leaving = true) : History s' := by
  have hused : ∀ i, (s'.proc i).state ≠ .unused → (s.proc i).state ≠ .unused :=
    fun i hi hu => hi ((hunused i).mpr hu)
  refine ⟨fun i => ?_, fun i j hi hj hij => ?_, ?_, ?_, fun i hi => ?_, fun id pid st he => ?_,
    fun p f id pid st he i hi => ?_, ?_, fun i hi => ?_, fun i q hq => ?_, fun p np hp => ?_⟩
  · rw [ht.id, ht.births]
    exact h.id_lt i
  · rw [ht.id] at hij
    exact h.id_inj i j (hused i hi) (hused j hj) hij
  · rw [ht.history, ht.births]
    exact h.old
  · rw [ht.id, ht.initproc]
    exact h.init_id
  · have hz := (hzombie i).mp hi
    rw [ht.history, ht.id, (hsame i hz).1, (hsame i hz).2]
    exact h.zombie i hz
  · rw [ht.history] at he ⊢
    refine (h.exited id pid st he).imp_right ?_
    rintro ⟨i, hz, hid, hpid, hst⟩
    exact ⟨i, (hzombie i).mpr hz, by rw [ht.id, hid], by rw [(hsame i hz).1, hpid],
      by rw [(hsame i hz).2, hst]⟩
  · rw [ht.history] at he
    rw [ht.id]
    exact h.gone p f id pid st he i (hused i hi)
  · rw [ht.history]
    exact h.reaped
  · have hu := (hunused i).mp hi
    rw [horphan i hu]
    exact h.orphan i hu
  · rw [ht.id, ht.forker, ht.initproc, ht.history]
    rcases hparent i q hq with hq | hq
    · refine (h.parent i q hq).imp_right fun hi => ⟨hi.1, hi.2.imp_right ?_⟩
      rintro ⟨p, hp, hl⟩
      exact ⟨p, hp, hleaving p hl⟩
    · exact hq.imp_right fun hq => ⟨hq.1, .inr hq.2⟩
  · rw [ht.forker, ht.id]
    exact h.child p np (hchild p np hp)

theorem History.same (h : History s) (ht : SameNames s.table s'.table)
    (hfate : ∀ i, SameFate (s.proc i) (s'.proc i))
    (hchild : ∀ p np, (s'.pc p).child = some np → (s.pc p).child = some np)
    (hleaving : ∀ p, (s.pc p).leaving = true → (s'.pc p).leaving = true) : History s' :=
  h.keep ht (fun i => (hfate i).unused) (fun i => (hfate i).zombie)
    (fun i hz => ⟨(hfate i).pid hz, (hfate i).xstate hz⟩) (fun i _ => (hfate i).parent)
    (fun i q hq => .inl (by rwa [← (hfate i).parent])) hchild hleaving

section

variable {t : Table} {sh : Shared} {p : Slot} {fault : Bool} {k : Pc} {n : Next}

theorem next_leaving (hk : k.leaving = true) (hn : next t sh p fault k = some n)
    (hz : ∀ status, n.2.2 ≠ .zombie status) : n.1.leaving = true := by
  cases k with
  | wakeup c j k =>
    simp only [next] at hn
    split at hn
    · cases hn
      exact hk
    · cases hn
      exact hk
  | exitReparent status j =>
    simp only [next] at hn
    repeat' split at hn
    all_goals cases hn
    all_goals rfl
  | exitZombie status =>
    cases hn
    exact absurd rfl (hz status)
  | _ => cases hk

end

namespace History

variable (h : History s)

include h

variable {p : Slot} {fault : Bool} {k' : Pc} {sh' : Shared} {e : Effect}

omit h in
theorem child_of_advance (hk' : k'.child = none) {q np : Slot}
    (hq : ((s.advance p (k', sh', e)).pc q).child = some np) : (s.pc q).child = some np := by
  by_cases hqp : q = p
  · rw [hqp, advance_pc_self, hk'] at hq
    cases hq
  · by_cases hrun : e = .runnable q
    · rw [advance_pc_runnable hqp hrun] at hq
      cases hq
    · rwa [advance_pc_ne hqp hrun] at hq

theorem quiet (ht : Threads s) (hdoes : Does s.table p (s.pc p) k' e)
    (hchild : k'.child = none) (hleaving : (s.pc p).leaving = true → k'.leaving = true)
    (hnames : SameNames s.table (s.table.apply p e))
    (hfate : ∀ i, e.touches p i → SameFate (s.table.proc i) ((s.table.apply p e).proc i)) :
    History (s.advance p (k', sh', e)) := by
  refine h.same hnames (fun i => ?_) (fun q np => child_of_advance hchild) fun q hq => ?_
  · by_cases hi : e.touches p i
    · exact hfate i hi
    · rw [advance_proc_of_not_touches hi]
      exact .refl _
  · by_cases hqp : q = p
    · rw [hqp, advance_pc_self]
      rw [hqp] at hq
      exact hleaving hq
    · by_cases hrun : e = .runnable q
      · subst hrun
        rw [ht.dead_of_runnable hdoes] at hq
        cases hq
      · rwa [advance_pc_ne hqp hrun]

theorem alloc (ht : Threads s) (hw : WaitInv s) (hr : (s.proc p).state = .running)
    {i : Slot} (hchildless : (s.pc p).child = none) (hnl : (s.pc p).leaving = false)
    (hi : (s.proc i).state = .unused) {pid : ℤ} :
    History (s.advance p (.forkParent i pid, sh', .alloc i)) := by
  obtain ⟨n, hn⟩ : ∃ n : Next, n = (.forkParent i pid, sh', .alloc i) := ⟨_, rfl⟩
  have hproc : ∀ q, q ≠ i → (s.advance p n).proc q = s.proc q := by
    intro q hq
    rw [hn]
    exact advance_proc_of_not_touches hq
  have hself : ((s.advance p n).proc i).state = .used ∧
      ((s.advance p n).proc i).parent = (s.proc i).parent := by
    rw [hn, advance_proc]
    simp only [apply, bumpPid_proc, setProc_proc, if_true]
    exact ⟨trivial, rfl⟩
  have hid : ∀ q, (s.advance p n).table.id q = if q = i then s.table.births else s.table.id q := by
    intro q
    rw [hn]
    rfl
  have hforker : ∀ q, (s.advance p n).table.forker q =
      if q = i then s.table.id p else s.table.forker q := by
    intro q
    rw [hn]
    rfl
  have hbirths : (s.advance p n).table.births = s.table.births + 1 := by rw [hn]; rfl
  have hhist : (s.advance p n).table.history = s.table.history := by rw [hn]; rfl
  have hinit : (s.advance p n).table.initproc = s.table.initproc := by rw [hn]; rfl
  have hpcq : ∀ q, q ≠ p → (s.advance p n).pc q = s.pc q := by
    intro q hq
    rw [hn]
    exact advance_pc_ne hq (by simp)
  -- a process that has a thread is not the new one
  have hlive : ∀ q, live (s.proc q).state = true → q ≠ i := by
    rintro q hq rfl
    rw [hi] at hq
    cases hq
  have hthread : ∀ q, s.pc q ≠ .dead → q ≠ i := by
    rintro q hq rfl
    refine hq ((ht.dead q).mpr ?_)
    rw [hi]
    rfl
  have hip : p ≠ i := hlive p (by rw [hr]; rfl)
  have hzombie : ∀ q, ((s.advance p n).proc q).state = .zombie → q ≠ i := by
    rintro q hz rfl
    rw [hself.1] at hz
    cases hz
  rw [← hn]
  refine ⟨fun q => ?_, fun q r hq hr' hqr => ?_, fun e he => ?_, ?_, fun q hq => ?_,
    fun id pid st he => ?_, fun r f id pid st he q hq => ?_, ?_, fun q hq => ?_, fun q r hq => ?_,
    fun q np hq => ?_⟩
  · rw [hid, hbirths]
    split
    · omega
    · have := h.id_lt q
      omega
  · rw [hid, hid] at hqr
    have hltq := h.id_lt q
    have hltr := h.id_lt r
    by_cases hqi : q = i
    · by_cases hri : r = i
      · rw [hqi, hri]
      · rw [if_pos hqi, if_neg hri] at hqr
        omega
    · by_cases hri : r = i
      · rw [if_neg hqi, if_pos hri] at hqr
        omega
      · rw [if_neg hqi, if_neg hri] at hqr
        rw [hproc q hqi] at hq
        rw [hproc r hri] at hr'
        exact h.id_inj q r hq hr' hqr
  · rw [hhist] at he
    rw [hbirths]
    have := h.old e he
    omega
  · rw [hinit, hid, if_neg (hlive _ hw.init_live)]
    exact h.init_id
  · have hqi := hzombie q hq
    rw [hproc q hqi] at hq ⊢
    rw [hhist, hid, if_neg hqi]
    exact h.zombie q hq
  · rw [hhist] at he ⊢
    refine (h.exited id pid st he).imp_right ?_
    rintro ⟨q, hz, hqid, hq⟩
    have hqi : q ≠ i := by
      rintro rfl
      rw [hi] at hz
      cases hz
    exact ⟨q, by rw [hproc q hqi]; exact hz, by rw [hid, if_neg hqi]; exact hqid,
      by rw [hproc q hqi]; exact hq⟩
  · rw [hhist] at he
    rw [hid]
    split
    · have := h.old _ he
      change id < s.table.births at this
      omega
    · next hqi =>
      rw [hproc q hqi] at hq
      exact h.gone r f id pid st he q hq
  · rw [hhist]
    exact h.reaped
  · have hqi : q ≠ i := by
      rintro rfl
      rw [hself.1] at hq
      cases hq
    rw [hproc q hqi] at hq ⊢
    exact h.orphan q hq
  · by_cases hqi : q = i
    · rw [hqi, hself.2, h.orphan i hi] at hq
      cases hq
    · rw [hproc q hqi] at hq
      rw [hinit, hhist, hid, hforker, if_neg hqi, if_neg (hlive r (hw.parent q r hq))]
      refine (h.parent q r hq).imp_right fun hr => ⟨hr.1, hr.2.imp_right ?_⟩
      rintro ⟨o, ho, hl⟩
      have hop : o ≠ p := by
        rintro rfl
        rw [hnl] at hl
        cases hl
      have hod : s.pc o ≠ .dead := by
        intro hd
        rw [hd] at hl
        cases hl
      exact ⟨o, by rw [hid, if_neg (hthread o hod)]; exact ho, by rw [hpcq o hop]; exact hl⟩
  · by_cases hqp : q = p
    · rw [hqp, advance_pc_self, hn] at hq
      obtain rfl : i = np := Option.some.inj hq
      rw [hforker, if_pos rfl, hqp, hid, if_neg hip]
    · rw [hpcq q hqp] at hq
      have hnp : np ≠ i := by
        rintro rfl
        have := ht.child q np hq
        rw [hi] at this
        cases this
      have hqd : s.pc q ≠ .dead := by
        intro hd
        rw [hd] at hq
        cases hq
      rw [hforker, if_neg hnp, hid, if_neg (hthread q hqd)]
      exact h.child q np hq

theorem adopt {i r : Slot} (hstate : ∀ q, (s'.proc q).state = (s.proc q).state ∧
      (s'.proc q).pid = (s.proc q).pid ∧ (s'.proc q).xstate = (s.proc q).xstate)
    (hnames : SameNames s.table s'.table)
    (hparent : ∀ q, (s'.proc q).parent = if q = i then some r else (s.proc q).parent)
    (hi : (s.proc i).state ≠ .unused)
    (hchild : ∀ p np, (s'.pc p).child = some np → (s.pc p).child = some np)
    (hleaving : ∀ p, (s.pc p).leaving = true → (s'.pc p).leaving = true)
    (hr : s.table.id r = s.table.forker i ∨ r = s.table.initproc ∧
      ∃ p, s.table.id p = s.table.forker i ∧ (s'.pc p).leaving = true) : History s' := by
  refine h.keep hnames (fun q => by rw [(hstate q).1]) (fun q => by rw [(hstate q).1])
    (fun q _ => (hstate q).2) (fun q hq => ?_) (fun q q' hq => ?_) hchild hleaving
  · rw [hparent, if_neg]
    rintro rfl
    exact hi hq
  · rw [hparent] at hq
    split at hq
    · next hqi =>
      cases hq
      rw [hqi]
      exact .inr hr
    · exact .inl hq

omit h in
theorem reapedWell_concat {l : List Event} {e : Event}
    (hl : ∀ h₁ h₂ p f id pid st, l = h₁ ++ .reaped p f id pid st :: h₂ → ReapedWell h₁ p f id pid st)
    (he : ∀ p f id pid st, e = .reaped p f id pid st → ReapedWell l p f id pid st)
    (h₁ h₂ : List Event) (p f id : ℕ) (pid st : ℤ)
    (h : l ++ [e] = h₁ ++ .reaped p f id pid st :: h₂) : ReapedWell h₁ p f id pid st := by
  rcases eq_nil_or_concat h₂ with rfl | ⟨h₂, e', rfl⟩
  · obtain ⟨rfl, he'⟩ := append_inj' h rfl
    exact he p f id pid st (singleton_inj.mp he')
  · rw [concat_eq_append, ← cons_append, ← append_assoc] at h
    exact hl h₁ h₂ p f id pid st (append_inj' h rfl).1

theorem note {e : Event} {i : Slot} (hinit : s'.table.initproc = s.table.initproc)
    (hid : s'.table.id = s.table.id) (hforker : s'.table.forker = s.table.forker)
    (hbirths : s'.table.births = s.table.births) (hhist : s'.table.history = s.table.history ++ [e])
    (hproc : ∀ q, q ≠ i → s'.proc q = s.proc q) (hi : (s.proc i).state ≠ .unused)
    (hlt : e.id < s.table.births) (hzombie : (s'.proc i).state = .zombie →
      e = .exited (s.table.id i) (s'.proc i).pid (s'.proc i).xstate)
    (hexited : (s.proc i).state = .zombie →
      ∃ p f, e = .reaped p f (s.table.id i) (s.proc i).pid (s.proc i).xstate)
    (hnew : ∀ id pid st, e = .exited id pid st → (s'.proc i).state = .zombie ∧ s.table.id i = id ∧
      (s'.proc i).pid = pid ∧ (s'.proc i).xstate = st)
    (hreaped : ∀ p f id pid st, e = .reaped p f id pid st → ReapedWell s.table.history p f id pid st ∧
      s.table.id i = id ∧ (s'.proc i).state = .unused)
    (horphan : (s'.proc i).state = .unused → (s'.proc i).parent = none)
    (hparent : ∀ r, (s'.proc i).parent = some r → (s.proc i).parent = some r)
    (hleaving : ∀ o, (s.pc o).leaving = true → ∃ pid st, e = .exited (s.table.id o) pid st)
    (hchild : ∀ q np, (s'.pc q).child = some np → (s.pc q).child = some np) : History s' := by
  have hused : ∀ q, (s'.proc q).state ≠ .unused → (s.proc q).state ≠ .unused := by
    intro q hq
    by_cases hqi : q = i
    · rwa [hqi]
    · rwa [hproc q hqi] at hq
  have hmem : ∀ x, x ∈ s'.table.history ↔ x ∈ s.table.history ∨ x = e := by
    intro x
    rw [hhist, mem_append, mem_singleton]
  refine ⟨fun q => ?_, fun q r hq hr hqr => ?_, fun x hx => ?_, ?_, fun q hq => ?_,
    fun id pid st he => ?_, fun r f id pid st he q hq => ?_, ?_, fun q hq => ?_, fun q r hq => ?_,
    fun q np hq => ?_⟩
  · rw [hid, hbirths]
    exact h.id_lt q
  · rw [hid] at hqr
    exact h.id_inj q r (hused q hq) (hused r hr) hqr
  · rw [hbirths]
    rcases (hmem x).mp hx with hx | rfl
    · exact h.old x hx
    · exact hlt
  · rw [hid, hinit]
    exact h.init_id
  · rw [hmem, hid]
    by_cases hqi : q = i
    · rw [hqi] at hq ⊢
      exact .inr (hzombie hq).symm
    · rw [hproc q hqi] at hq ⊢
      exact .inl (h.zombie q hq)
  · simp only [hid, hmem]
    rcases (hmem _).mp he with he | he
    · rcases h.exited id pid st he with ⟨r, f, hreap⟩ | ⟨q, hz, rfl, rfl, rfl⟩
      · exact .inl ⟨r, f, .inl hreap⟩
      · by_cases hqi : q = i
        · subst hqi
          obtain ⟨r, f, hreap⟩ := hexited hz
          exact .inl ⟨r, f, .inr hreap.symm⟩
        · exact .inr ⟨q, by rw [hproc q hqi]; exact ⟨hz, rfl, rfl, rfl⟩⟩
    · exact .inr ⟨i, hnew id pid st he.symm⟩
  · rw [hid]
    rcases (hmem _).mp he with he | he
    · exact h.gone r f id pid st he q (hused q hq)
    · obtain ⟨-, rfl, hu⟩ := hreaped r f id pid st he.symm
      intro hqid
      obtain rfl := h.id_inj q i (hused q hq) hi hqid
      exact hq hu
  · rw [hhist]
    exact reapedWell_concat h.reaped fun r f id pid st he => (hreaped r f id pid st he).1
  · by_cases hqi : q = i
    · rw [hqi] at hq ⊢
      exact horphan hq
    · rw [hproc q hqi] at hq ⊢
      exact h.orphan q hq
  · have hq : (s.proc q).parent = some r := by
      by_cases hqi : q = i
      · rw [hqi] at hq ⊢
        exact hparent r hq
      · rwa [hproc q hqi] at hq
    simp only [hid, hforker, hinit, hmem]
    refine (h.parent q r hq).imp_right fun hr => ⟨hr.1, .inl ?_⟩
    rcases hr.2 with ⟨pid, st, he⟩ | ⟨o, ho, hl⟩
    · exact ⟨pid, st, .inl he⟩
    · obtain ⟨pid, st, rfl⟩ := hleaving o hl
      exact ⟨pid, st, .inr (by rw [ho])⟩
  · rw [hforker, hid]
    exact h.child q np (hchild q np hq)

theorem leave (hw : WaitInv s) {status : ℤ} (hpc : s.pc p = .exitZombie status)
    (hr : (s.proc p).state = .running) : History (s.advance p (.dead, sh', .zombie status)) := by
  have hself : (s.advance p (.dead, sh', .zombie status)).proc p =
      { s.proc p with xstate := status, state := .zombie } := by
    rw [advance_proc]
    simp only [apply, setProc_proc, if_true]
    rfl
  refine h.note (i := p) rfl rfl rfl rfl rfl (fun q hq => advance_proc_of_not_touches hq)
    (by rw [hr]; simp) (h.id_lt p) (fun _ => by rw [hself]; rfl) (fun hz => ?_)
    (fun id pid st he => ?_) (by simp) (fun hu => ?_) (fun r hq => ?_) (fun o hl => ?_)
    fun q np => child_of_advance rfl
  · rw [hr] at hz
    cases hz
  · obtain ⟨rfl, rfl, rfl⟩ := Event.exited.inj he
    rw [hself]
    exact ⟨rfl, rfl, rfl, rfl⟩
  · rw [hself] at hu
    cases hu
  · rw [hself] at hq
    exact hq
  · -- only one process is in `exit` under `wait_lock`
    obtain rfl : o = p := by
      by_contra hop
      have := hw.alone (p := p) (by rw [hpc]; rfl) hop
      rw [Pc.leaving_holds hl] at this
      cases this
    exact ⟨_, _, rfl⟩

theorem reap (hw : WaitInv s) {addr havekids : Bool} {j : ℕ}
    (hpc : s.pc p = .waitScan addr j havekids) {c : Slot} (hp : (s.proc c).parent = some p)
    (hz : (s.proc c).state = .zombie) {r : ℤ} : History (s.advance p (.user r, sh', .reap c)) := by
  have hself : (s.advance p (.user r, sh', .reap c)).proc c = .free := by
    rw [advance_proc]
    simp only [apply, setProc_proc, if_true]
  have hcz : (s.proc c).state ≠ .unused := by
    rw [hz]
    simp
  -- the holder of `wait_lock` is not in `exit`
  have hnone : ∀ o, (s.pc o).leaving = false := by
    intro o
    by_contra hl
    have hl : (s.pc o).leaving = true := by simpa using hl
    by_cases hop : o = p
    · rw [hop, hpc] at hl
      cases hl
    · have := hw.alone (p := p) (by rw [hpc]; rfl) hop
      rw [Pc.leaving_holds hl] at this
      cases this
  refine h.note (i := c) rfl rfl rfl rfl rfl (fun q hq => advance_proc_of_not_touches hq) hcz (h.id_lt c)
    (fun hz' => ?_) (fun _ => ⟨_, _, rfl⟩) (by simp) (fun r f id pid st he => ?_) (fun _ => ?_)
    (fun r hq => ?_) (fun o hl => ?_) fun q np => child_of_advance rfl
  · rw [hself] at hz'
    cases hz'
  · obtain ⟨rfl, rfl, rfl, rfl, rfl⟩ := Event.reaped.inj he
    refine ⟨⟨h.zombie c hz, fun p' f' pid' st' he' => h.gone _ _ _ _ _ he' c hcz rfl, ?_⟩, rfl,
      by rw [hself]; rfl⟩
    rcases h.parent c p hp with hp | ⟨rfl, ⟨pid, st, he⟩ | ⟨o, -, hl⟩⟩
    · exact .inl hp
    · exact .inr ⟨h.init_id, pid, st, he⟩
    · rw [hnone o] at hl
      cases hl
  · rw [hself]
    rfl
  · rw [hself] at hq
    cases hq
  · rw [hnone o] at hl
    cases hl

theorem adopts {i r : Slot} (he : e = .parent i ∧ r = p ∨ e = .reparent i ∧ r = s.table.initproc)
    (hi : (s.proc i).state ≠ .unused) (hchild : ∀ np, k'.child = some np → (s.pc p).child = some np)
    (hleaving : (s.pc p).leaving = true → k'.leaving = true) (hr : s.table.id r = s.table.forker i ∨
      r = s.table.initproc ∧ s.table.id p = s.table.forker i ∧ k'.leaving = true) :
    History (s.advance p (k', sh', e)) := by
  have hne : ∀ q, e ≠ .runnable q := by
    rintro q rfl
    rcases he with ⟨he, -⟩ | ⟨he, -⟩ <;> cases he
  have hpcq : ∀ q, q ≠ p → (s.advance p (k', sh', e)).pc q = s.pc q :=
    fun q hq => advance_pc_ne hq (hne q)
  have hnames : SameNames s.table (s.table.apply p e) := by
    rcases he with ⟨rfl, -⟩ | ⟨rfl, -⟩ <;> exact ⟨rfl, rfl, rfl, rfl, rfl⟩
  have hproc : ∀ q, (s.advance p (k', sh', e)).proc q =
      if q = i then { s.proc q with parent := some r } else s.proc q := by
    intro q
    rw [advance_proc]
    rcases he with ⟨rfl, rfl⟩ | ⟨rfl, rfl⟩
    all_goals
      simp only [apply, setProc_proc]
      split
      · next hq =>
        rw [hq]
        rfl
      · rfl
  refine h.adopt (fun q => ?_) hnames (fun q => ?_) hi (fun q c hq => ?_) (fun q hq => ?_)
    (hr.imp_right fun hr => ⟨hr.1, p, hr.2.1, by rw [advance_pc_self]; exact hr.2.2⟩)
  · rw [hproc]
    split <;> exact ⟨rfl, rfl, rfl⟩
  · rw [hproc]
    split <;> rfl
  · by_cases hqp : q = p
    · rw [hqp, advance_pc_self] at hq
      rw [hqp]
      exact hchild c hq
    · rwa [hpcq q hqp] at hq
  · by_cases hqp : q = p
    · rw [hqp, advance_pc_self]
      rw [hqp] at hq
      exact hleaving hq
    · rwa [hpcq q hqp]

theorem fate (ht : Threads s) (hr : (s.proc p).state = .running)
    (hdoes : Does s.table p (s.pc p) k' e) (ha : ∀ i, e ≠ .alloc i) (hp : ∀ i, e ≠ .parent i)
    (hp' : ∀ i, e ≠ .reparent i) (hz : ∀ st, e ≠ .zombie st) (hr' : ∀ i, e ≠ .reap i) (i : Slot)
    (hi : e.touches p i) : SameFate (s.proc i) ((s.table.apply p e).proc i) := by
  have hrun : (s.table.proc p).state = .running := hr
  generalize hk : s.pc p = k at hdoes
  cases hdoes with
  | none => exact hi.elim
  | alloc i => exact absurd rfl (ha i)
  | parent => exact absurd rfl (hp _)
  | reparent i => exact absurd rfl (hp' i)
  | zombie => exact absurd rfl (hz _)
  | reap i => exact absurd rfl (hr' i)
  | sleep hk hc =>
    obtain rfl : i = p := hi
    simp only [apply, setProc_proc, if_true, proc]
    constructor <;> simp [hrun]
  | tidy hk' =>
    obtain rfl : i = p := hi
    simp only [apply, setProc_proc, if_true, proc]
    constructor <;> simp
  | @wake k c j q hq hk =>
    obtain rfl : i = q := hi
    simp only [apply]
    split
    · next hw =>
      simp only [setProc_proc, if_true, proc]
      constructor <;> simp [hw.2.1]
    · exact .refl _
  | @kill pid j q hq hpid =>
    obtain rfl : i = q := hi
    simp only [apply, setProc_proc, if_true, proc]
    by_cases hs : (s.table.proc i).state = .sleeping
    · rw [if_pos hs]
      constructor <;> simp [hs]
    · rw [if_neg hs]
      constructor <;> simp
  | @allocFail j q hq =>
    obtain rfl : i = q := hi
    have horphan : (s.table.proc i).parent = none := h.orphan i hq
    simp only [apply, bumpPid_proc, setProc_proc, if_true, proc]
    constructor <;> simp [hq, horphan, Proc.free]
  | @runnable np pid =>
    obtain rfl : i = np := hi
    have hused : (s.table.proc i).state = .used := ht.child p i (by rw [hk]; rfl)
    simp only [apply, setProc_proc, if_true, proc]
    constructor <;> simp [hused]

theorem go (ht : Threads s) (hw : WaitInv s) (hr : (s.proc p).state = .running)
    {n : Next} (hn : next s.table s.shared p fault (s.pc p) = some n) : History (s.advance p n) := by
  have hdoes := next_does (ht.ok p) hn
  have hleaving : (∀ status, n.2.2 ≠ .zombie status) → (s.pc p).leaving = true →
      n.1.leaving = true := fun hz hl => next_leaving hl hn hz
  obtain ⟨k', sh', e⟩ := n
  have hdoes : Does s.table p (s.pc p) k' e := hdoes
  have hfate := h.fate ht hr hdoes
  have hq : k'.child = none → SameNames s.table (s.table.apply p e) → (∀ i, e ≠ .alloc i) →
      (∀ i, e ≠ .parent i) → (∀ i, e ≠ .reparent i) → (∀ st, e ≠ .zombie st) →
      (∀ i, e ≠ .reap i) → History (s.advance p (k', sh', e)) :=
    fun hchild hnames h₁ h₂ h3 h4 h5 =>
      h.quiet ht hdoes hchild (hleaving h4) hnames (hfate h₁ h₂ h3 h4 h5)
  generalize hk : s.pc p = k at hdoes
  cases hdoes with
  | none hk hk' | tidy hk' =>
    exact hq (Pc.child_of_plain hk') ⟨rfl, rfl, rfl, rfl, rfl⟩ (by simp) (by simp) (by simp) (by simp) (by simp)
  | sleep hk hc | kill i hi hpid | allocFail i hi | runnable =>
    exact hq rfl ⟨rfl, rfl, rfl, rfl, rfl⟩ (by simp) (by simp) (by simp) (by simp) (by simp)
  | wake i hi hf =>
    refine hq rfl ?_ (by simp) (by simp) (by simp) (by simp) (by simp)
    simp only [apply]
    split <;> exact ⟨rfl, rfl, rfl, rfl, rfl⟩
  | alloc i hi => exact h.alloc ht hw hr (by rw [hk]; rfl) (by rw [hk]; rfl) hi
  | zombie => exact h.leave hw hk hr
  | reap i hi hp hz => exact h.reap hw hk hp hz
  | @parent np pid =>
    have hused : (s.proc np).state = .used := ht.child p np (by rw [hk]; rfl)
    refine h.adopts (.inl ⟨rfl, rfl⟩) (by rw [hused]; simp) (fun c hc => ?_) (fun hl => ?_)
      (.inl (h.child p np (by rw [hk]; rfl)).symm)
    · rw [hk]
      exact hc
    · rw [hk] at hl
      cases hl
  | @reparent status j i hi hp =>
    have hp : (s.proc i).parent = some p := hp
    have hne : p ≠ s.table.initproc := hw.ne_init (by rw [hk]; rfl)
    have hforker : s.table.id p = s.table.forker i :=
      (h.parent i p hp).resolve_right fun hp' => hne hp'.1
    have hused : (s.proc i).state ≠ .unused := by
      intro hu
      rw [h.orphan i hu] at hp
      cases hp
    refine h.adopts (.inr ⟨rfl, rfl⟩) hused (fun c hc => ?_) (fun _ => rfl) (.inr ⟨rfl, hforker, rfl⟩)
    cases hc

theorem of_quiet (hq : Quiet s s') : History s' := by
  refine h.same ?_ (fun q => ?_) (fun q np => ?_) fun q => ?_
  · rw [hq.table]
    exact ⟨rfl, rfl, rfl, rfl, rfl⟩
  · rcases hq.proc q with hp | ⟨hl, x, hp, hx⟩
    · rw [hp]
      exact .refl _
    · have hu : (s.proc q).state ≠ .unused := by
        intro hu
        rw [hu] at hl
        cases hl
      have hz : (s.proc q).state ≠ .zombie := by
        intro hz
        rw [hz] at hl
        cases hl
      rw [hp]
      rcases hx with rfl | rfl <;> constructor <;> simp [hu, hz]
  · rw [hq.pc]
    exact id
  · rw [hq.pc]
    exact id

theorem step (ht : Threads s) (hw : WaitInv s) (hs : Step s a s') : History s' := by
  cases hs.kind with
  | go hr hn => exact h.go ht hw hr hn
  | @call p r k hpc hr hk hinit =>
    have hchild : k.child = none := by
      cases k <;> first | rfl | cases hk
    refine h.same ⟨rfl, rfl, rfl, rfl, rfl⟩ (fun _ => .refl _) (fun q np hq => ?_) fun q hq => ?_
    · rw [goto_pc] at hq
      split at hq
      · rw [hchild] at hq
        cases hq
      · exact hq
    · rw [goto_pc]
      split
      · next hqp =>
        rw [hqp, hpc] at hq
        cases hq
      · exact hq
  | quiet hq => exact h.of_quiet hq

omit h in
theorem initial : History .initial := by
  have hstate : ∀ q, q ≠ State.initial.table.initproc → (State.initial.proc q).state = .unused := by
    intro q hq
    simp only [State.initial, proc]
    exact congrArg Proc.state (if_neg hq)
  have hparent : ∀ q, (State.initial.proc q).parent = none := by
    intro q
    simp only [State.initial, proc]
    split <;> rfl
  have hzombie : ∀ q, (State.initial.proc q).state ≠ .zombie := by
    intro q hq
    simp only [State.initial, proc] at hq
    split at hq <;> cases hq
  have hchild : ∀ q, (State.initial.pc q).child = none := by
    intro q
    simp only [State.initial]
    split <;> rfl
  have hempty : State.initial.table.history = [] := rfl
  refine ⟨fun q => Nat.one_pos, fun q r hq hr _ => ?_, by simp [hempty], rfl,
    fun q hq => absurd hq (hzombie q), by simp [hempty], by simp [hempty],
    fun h₁ h₂ p f id pid st hh => ?_, fun q _ => hparent q, fun q r hq => ?_, fun q np hq => ?_⟩
  · have hq := not_imp_not.mpr (hstate q) hq
    have hr := not_imp_not.mpr (hstate r) hr
    rw [not_not.mp hq, not_not.mp hr]
  · exact absurd hh.symm (append_ne_nil_of_right_ne_nil h₁ (cons_ne_nil _ _))
  · rw [hparent] at hq
    cases hq
  · rw [hchild] at hq
    cases hq

end History

theorem history_of_reachable (h : machine.Reachable s) : History s := by
  have hall : Threads s ∧ WaitInv s ∧ History s := by
    refine h.invariant (fun s => Threads s ∧ WaitInv s ∧ History s) (fun _ hs => ?_) ?_
    · rw [hs]
      exact ⟨Threads.initial, WaitInv.initial, History.initial⟩
    · rintro s a s' ⟨ht, hw, hh⟩ hstep
      have hstep := step_cases hstep
      exact ⟨ht.step hstep, hw.step ht hstep, hh.step ht hw hstep⟩
  exact hall.2.2

/-! ## One call of `wait` -/

/-- In state `s`, process `q` returns from `wait` with its ZOMBIE child `c`, which `allocproc` may then
use again. -/
structure Reaps (s s' : State) (q c : Slot) : Prop where
  parent : (s.proc c).parent = some q
  zombie : (s.proc c).state = .zombie
  ret : s'.pc q = .user (s.proc c).pid
  free : s'.proc c = .free

theorem reaps_of_step (ht : Threads s) (hs : Step s a s') {p f id : ℕ} {pid st : ℤ}
    (hh : s'.table.history = s.table.history ++ [.reaped p f id pid st]) :
    ∃ q c, Reaps s s' q c ∧ s.table.id q = p ∧ s.table.forker c = f ∧ s.table.id c = id ∧
      (s.proc c).pid = pid ∧ (s.proc c).xstate = st := by
  have hgrows : ∀ {l : List Event}, l ≠ l ++ [.reaped p f id pid st] := by
    intro l hl
    have := congrArg length hl
    simp at this
  cases hs.kind with
  | @go q fault n hr hn =>
    have hdoes := next_does (ht.ok q) hn
    clear hn
    obtain ⟨k', sh', e⟩ := n
    generalize s.pc q = k at hdoes
    cases hdoes with
    | reap c hc hp hz =>
      have he := singleton_inj.mp (append_cancel_left hh)
      obtain ⟨rfl, rfl, rfl, rfl, rfl⟩ := Event.reaped.inj he
      refine ⟨q, c, ⟨hp, hz, advance_pc_self, ?_⟩, rfl, rfl, rfl, rfl, rfl⟩
      rw [advance_proc]
      simp only [apply, setProc_proc, if_true]
    | zombie =>
      have he := singleton_inj.mp (append_cancel_left hh)
      cases he
    | wake i hi hf =>
      rw [State.advance] at hh
      simp only [apply] at hh
      split at hh <;> exact absurd hh hgrows
    | _ => exact absurd hh hgrows
  | call => exact absurd hh hgrows
  | quiet hq =>
    rw [hq.table] at hh
    exact absurd hh hgrows

theorem step_copyout_fails {p c : Slot} {havekids : Bool} (hr : (s.proc p).state = .running)
    (hpc : s.pc p = .waitScan true c.val havekids) (hp : (s.proc c).parent = some p)
    (hz : (s.proc c).state = .zombie) : machine.step s (.go p true) = some { s with
      pc := assign s.pc p (.user (-1))
      shared := { s.shared with waitLock := none } } := by
  have hslot : slot? c.val = some c := dif_pos c.isLt
  have hp : (s.table.proc c).parent = some p := hp
  have hz : (s.table.proc c).state = .zombie := hz
  simp only [machine, step, if_pos hr, hpc, next, scanLoop, hslot, hp, hz]
  rfl

/-- **Each exit is delivered exactly once.** In every reachable state: a call of `wait` returned a
process that had exited, with the pid and the status of its exit, and no other call returned it; the
caller was the process that forked it or, after that one had exited, `init`. A process that exited and
was not returned is still a ZOMBIE. The next call of `wait` to return a process is one of its current
parent, and a call that cannot copy the status out returns `-1` and leaves the process table alone. -/
theorem exit_wait_once (h : machine.Reachable s) :
    (∀ h₁ h₂ p f id pid st, s.table.history = h₁ ++ .reaped p f id pid st :: h₂ →
      .exited id pid st ∈ h₁ ∧ (∀ p' f' pid' st', .reaped p' f' id pid' st' ∉ h₁ ++ h₂) ∧
        (p = f ∨ p = 0 ∧ ∃ pid' st', .exited f pid' st' ∈ h₁)) ∧
    (∀ id pid st, .exited id pid st ∈ s.table.history →
      (∃ p f, .reaped p f id pid st ∈ s.table.history) ∨
        ∃ i, (s.proc i).state = .zombie ∧ s.table.id i = id ∧ (s.proc i).pid = pid ∧
          (s.proc i).xstate = st) ∧
    (∀ a s' p f id pid st, machine.step s a = some s' →
      s'.table.history = s.table.history ++ [.reaped p f id pid st] →
      ∃ q c, Reaps s s' q c ∧ s.table.id q = p ∧ s.table.forker c = f ∧ s.table.id c = id ∧
        (s.proc c).pid = pid ∧ (s.proc c).xstate = st) ∧
    ∀ p c havekids, (s.proc p).state = .running → s.pc p = .waitScan true c.val havekids →
      (s.proc c).parent = some p → (s.proc c).state = .zombie →
      machine.step s (.go p true) = some { s with
        pc := assign s.pc p (.user (-1))
        shared := { s.shared with waitLock := none } } := by
  have hh := history_of_reachable h
  refine ⟨fun h₁ h₂ p f id pid st hs => ?_, hh.exited, fun a s' p f id pid st hstep => ?_,
    fun p c havekids => step_copyout_fails⟩
  · obtain ⟨hexited, honce, hparent⟩ := hh.reaped h₁ h₂ p f id pid st hs
    refine ⟨hexited, fun p' f' pid' st' he => ?_, hparent⟩
    rcases mem_append.mp he with he | he
    · exact honce p' f' pid' st' he
    · -- the later of two events would not be the first
      obtain ⟨h₃, h₄, rfl⟩ := append_of_mem he
      rw [← cons_append, ← append_assoc] at hs
      have hlater := (hh.reaped _ _ _ _ _ _ _ hs).2.1
      exact hlater p f pid st (mem_append_right _ (mem_cons_self ..))
  · exact reaps_of_step (threads_of_reachable h) (step_cases hstep)

/-- Process 1 exits and `init` returns it. -/
def reapRun : List Act := List.flatten [waitRun, [.schedule 0], steps 0 4]

theorem exit_wait_once_small :
    ∃ s, machine.run .initial reapRun = some s ∧
      s.table.history = [.exited 1 2 7, .reaped 0 0 1 2 7] ∧
      ∀ p f pid st, .reaped p f 1 pid st ∉ [Event.exited 1 2 7] := by
  have hrun : ∃ s ∈ machine.run .initial reapRun,
      s.table.history = [.exited 1 2 7, .reaped 0 0 1 2 7] := by decide +kernel
  obtain ⟨s, hs, hh⟩ := hrun
  have hs := Option.mem_def.mp hs
  have hreach : machine.Reachable s := (Machine.Reachable.init rfl).of_run _ hs
  exact ⟨s, hs, hh, ((exit_wait_once hreach).1 [.exited 1 2 7] [] 0 0 1 2 7 hh).2.1⟩

end Xv6.Sync
