import Xv6.Virtio.Protocol

/-!
# Requests of the virtio disk driver

The invariant of `Xv6.Virtio.Protocol` holds in every run, and no step of a run panics. What follows for
descriptors, ring entries and requests is collected in `virtio_disk_protocol`.
-/

namespace Xv6.Virtio

open Lib List

variable {B P : Type} [DecidableEq B] [DecidableEq P] {s : State B P} {queue done : List ℕ} {p : P}

/-- The action is not possible, or it keeps the invariant; in no case does it panic. -/
def Kept (r : Option (Except Panic (State B P))) : Prop :=
  r = none ∨ ∃ s' queue done, r = some (.ok s') ∧ Inv s' queue done

omit [DecidableEq B] [DecidableEq P] in
theorem Kept.ok {s' : State B P} (h : Inv s' queue done) : Kept (some (.ok s')) :=
  .inr ⟨s', queue, done, rfl, h⟩

variable (h : Inv s queue done)

include h

omit [DecidableEq B] in
theorem Inv.kept_acquire {k : Pc B} (hbuf : k.buf = (s.pc p).buf)
    (hchain : k.chain = (s.pc p).chain) (hreq : k.request? = (s.pc p).request?)
    (hpost : ∀ b c t, k ≠ .bump b c t) : Kept (s.acquire p k) := by
  rw [State.acquire]
  by_cases hlock : s.lock = none
  · rw [if_pos hlock]
    exact .ok (h.acquire hlock hbuf hchain hreq hpost)
  · rw [if_neg hlock]
    exact .inl rfl

theorem Inv.kept_go (p : P) : Kept (s.go p) := by
  unfold State.go
  cases hp : s.pc p with
  | idle => exact .inl rfl
  | start b write | sleepFree b write | sleepBuf b c t =>
    refine h.kept_acquire ?_ ?_ ?_ fun _ _ _ => nofun <;> rw [hp] <;> rfl
  | alloc b write =>
    rcases s.disk.alloc3Desc_spec with ⟨c, heq, hnodup, hc⟩ | ⟨desc, heq, hdesc⟩ <;> rw [heq]
    · exact .ok (h.alloc hp hnodup hc)
    · refine .ok (h.sleep ?_ rfl ?_ ?_ ?_ hdesc) <;> rw [hp] <;> rfl
  | format b write c => exact .ok (h.format hp)
  | ring b c t => exact .ok (h.ring hp).2
  | bump b c t => exact .ok (h.bump hp)
  | test b c t =>
    dsimp only
    by_cases hbusy : s.disk.busy b = true
    · rw [if_pos hbusy]
      refine .ok (h.sleep (d := s.disk.desc) ?_ rfl ?_ ?_ ?_ fun _ _ => rfl) <;> rw [hp] <;> rfl
    · rw [if_neg hbusy]
      have hreq : (s.pc p).request? = some (b, c, t, true) := by rw [hp]; rfl
      obtain ⟨hnodup, hc⟩ := h.chains.chain p c (Pc.chain_of_request? hreq).1
      obtain ⟨desc, heq, hdesc⟩ := Disk.finish_eq (h.request p b c t true hreq).1 hnodup hc
      rw [heq]
      exact .ok (h.finish hp (Bool.eq_false_of_not_eq_true hbusy) hdesc)

omit [DecidableEq B] [DecidableEq P] in
theorem Inv.sublist_length_le {l : List ℕ}
    (hl : l.Sublist (queue ++ s.tags ++ done)) : l.length ≤ NUM := by
  refine h.length_le (h.nodup.sublist hl) fun t ht => ?_
  obtain ⟨q, b, c, hq⟩ := h.waits t (hl.subset ht)
  exact ⟨q, b, c, true, hq⟩

omit [DecidableEq B] [DecidableEq P] in
theorem Inv.setLock {l : Option (Holder P)} (hlock : ∀ p, s.lock ≠ some (.proc p)) :
    Inv { s with lock := l } queue done :=
  ⟨fun q hq => absurd (h.lock q hq) (hlock q), h.owner, h.chains, h.request, h.record, h.posting,
    h.nodup, h.waits, h.flight, h.avail, h.availTag, h.used, h.usedTag, h.status⟩

omit [DecidableEq P] in
theorem Inv.kept_intr : Kept s.intr := by
  unfold State.intr
  rcases hlock : s.lock with _ | q | _
  · exact .ok (h.setLock fun q hq => by rw [hlock] at hq; cases hq)
  · exact .inl rfl
  · dsimp only
    have hle : (done.map s.head).length ≤ NUM := by
      rw [length_map]
      exact h.sublist_length_le (sublist_append_right ..)
    by_cases hidx : s.disk.usedIdx = s.disk.used.idx
    · rw [if_neg (not_not.mpr hidx)]
      exact .ok (h.setLock fun q hq => by rw [hlock] at hq; cases hq)
    · rw [if_pos hidx]
      cases done with
      | nil => exact absurd ((h.used.eq_nil hle).mpr rfl).symm hidx
      | cons t done =>
        obtain ⟨b, hstatus, hb, hinv⟩ := h.clear
        have heq : s.disk.intr = .ok (b, { s.disk with
            busy := assign s.disk.busy b false
            usedIdx := Virtio.bump s.disk.usedIdx }) := by
          unfold Disk.intr
          rw [if_neg (not_not.mpr hstatus), hb]
        rw [heq]
        exact .ok hinv

omit [DecidableEq B] [DecidableEq P] in
theorem Inv.kept_take : Kept (s.take.map .ok) := by
  unfold State.take
  by_cases hidx : s.taken = s.disk.avail.idx
  · rw [if_neg (not_not.mpr hidx)]
    exact .inl rfl
  · rw [if_pos hidx]
    have hle : (queue.map s.head).length ≤ NUM := by
      rw [length_map]
      refine h.sublist_length_le ?_
      rw [append_assoc]
      exact sublist_append_left ..
    cases queue with
    | nil => exact absurd ((h.avail.eq_nil hle).mpr rfl).symm hidx
    | cons t queue => exact .ok h.take

omit [DecidableEq B] [DecidableEq P] in
theorem Inv.kept_complete (k : ℕ) : Kept ((s.complete k).map .ok) := by
  unfold State.complete
  cases hk : s.flight[k]? with
  | none => exact .inl rfl
  | some x =>
    have hinv := h.complete hk
    obtain ⟨i, status, t⟩ := x
    obtain rfl : status = .status i := (h.flight _ (mem_of_getElem? hk)).2
    exact .ok hinv

omit [DecidableEq P] in
theorem Inv.setOwner {b : B} {o : Option P}
    (hb : ∀ p, (s.pc p).buf ≠ some b) : Inv { s with owner := assign s.owner b o } queue done := by
  refine ⟨h.lock, fun q b' hq => ?_, h.chains, h.request, h.record, h.posting, h.nodup, h.waits,
    h.flight, h.avail, h.availTag, h.used, h.usedTag, h.status⟩
  have hne : b' ≠ b := by
    rintro rfl
    exact hb q hq
  change assign s.owner b o b' = some q
  rw [assign, if_neg hne]
  exact h.owner q b' hq

theorem Inv.kept (a : Act B P) : Kept (next s a) := by
  cases a with
  | lockBuf p b =>
    dsimp only [next]
    cases hp : s.pc p <;> dsimp only <;> try exact .inl rfl
    by_cases hb : s.owner b = none
    · rw [if_pos hb]
      refine .ok (h.setOwner fun q hq => ?_)
      have howner := h.owner q b hq
      rw [hb] at howner
      cases howner
    · rw [if_neg hb]
      exact .inl rfl
  | unlockBuf p b =>
    dsimp only [next]
    cases hp : s.pc p <;> dsimp only <;> try exact .inl rfl
    by_cases hb : s.owner b = some p
    · rw [if_pos hb]
      refine .ok (h.setOwner fun q hq => ?_)
      have howner := h.owner q b hq
      rw [hb] at howner
      cases howner
      rw [hp] at hq
      cases hq
    · rw [if_neg hb]
      exact .inl rfl
  | call p b write =>
    dsimp only [next]
    cases hp : s.pc p <;> dsimp only <;> try exact .inl rfl
    by_cases hb : s.owner b = some p
    · rw [if_pos hb]
      refine .ok (h.move (l := s.lock) (d := s.disk.desc) (fun q hq => ?_) (fun b' hb' => ?_) ?_ ?_
        (fun _ _ _ => nofun) fun _ _ => rfl)
      · rcases assign_cases (φ := fun k => k.holds = true) hq with ⟨-, hh⟩ | ⟨-, hh⟩
        · cases hh
        · exact h.lock q hh
      · cases hb'
        exact hb
      · rw [hp]
        rfl
      · rw [hp]
        rfl
    · rw [if_neg hb]
      exact .inl rfl
  | go p => exact h.kept_go p
  | intr => exact h.kept_intr
  | take => exact h.kept_take
  | complete k => exact h.kept_complete k

omit h

omit [DecidableEq B] [DecidableEq P] in
theorem Ready.inv (h : Ready s) : Inv s [] [] := by
  have hidle : ∀ {α : Type} {f : Pc B → Option α} {p : P} {x : α}, f .idle = none →
      f (s.pc p) ≠ some x := by
    intro α f p x hf heq
    rw [h.pc p, hf] at heq
    cases heq
  have htags : s.tags = [] := by
    rw [State.tags, h.flight]
    rfl
  refine ⟨fun p hp => ?_, fun p b hp => absurd hp (hidle rfl), ⟨fun p c hp => absurd hp (hidle rfl),
    fun p q c c' hp => absurd hp (hidle rfl), fun i hi hfree => ?_⟩,
    fun p b c t posted hp => absurd hp (hidle rfl), fun t x hx => ?_, fun p b c t hp => ?_, ?_,
    fun t ht => ?_, fun x hx => ?_, ⟨h.avail.2, ?_, rfl⟩, ⟨h.avail.2, ?_, rfl⟩, ⟨h.used.2, ?_, rfl⟩,
    ⟨h.used.2, ?_, rfl⟩, fun t ht => ?_⟩
  · rw [h.pc p] at hp
    cases hp
  · rw [h.free i hi] at hfree
    cases hfree
  · rw [h.request t] at hx
    cases hx
  · rw [h.pc p] at hp
    cases hp
  · rw [htags]
    exact nodup_nil
  · rw [htags] at ht
    cases ht
  · rw [h.flight] at hx
    cases hx
  · rw [h.avail.1]
    exact (Nat.mod_eq_of_lt h.avail.2).symm
  · exact h.avail.1.trans (Nat.mod_eq_of_lt h.avail.2).symm
  · rw [h.used.1]
    exact (Nat.mod_eq_of_lt h.used.2).symm
  · exact h.used.1.trans (Nat.mod_eq_of_lt h.used.2).symm
  · cases ht

theorem inv_of_reachable (h : (machine B P).Reachable s) : ∃ queue done, Inv s queue done := by
  refine Machine.Reachable.invariant (fun s => ∃ queue done, Inv s queue done)
    (fun s hs => ⟨[], [], Ready.inv hs⟩) ?_ h
  rintro s a s' ⟨queue, done, hinv⟩ hstep
  change step s a = some s' at hstep
  rcases hinv.kept a with heq | ⟨s'', queue', done', heq, hinv'⟩
  · rw [step, heq] at hstep
    cases hstep
  · rw [step, heq] at hstep
    cases hstep
    exact ⟨queue', done', hinv'⟩

/-! ## The protocol -/

/-- How many entries of the avail ring the device has not taken. -/
def State.pending (s : State B P) : ℕ := (s.disk.avail.idx + 2 ^ 16 - s.taken) % 2 ^ 16

omit [DecidableEq B] [DecidableEq P] in
theorem Inv.pending_eq (h : Inv s queue done) : s.pending = queue.length := by
  have hle : queue.length ≤ 8 := by
    refine h.sublist_length_le ?_
    rw [append_assoc]
    exact sublist_append_left ..
  have hlt := h.availTag.lt
  have hidx : s.disk.avail.idx = (s.taken + queue.length) % 2 ^ 16 := h.availTag.idx
  rw [State.pending, hidx]
  omega

omit [DecidableEq B] [DecidableEq P] in
theorem Inv.request_cases (h : Inv s queue done) {t : ℕ} {x : Request B P} (hx : s.request t = some x) :
    (x.completions = 0 ∧ x.cleared = [] ∧ x.returned = false) ∨
    (x.completions = 1 ∧ x.cleared = [] ∧ x.returned = false) ∨
    (x.completions = 1 ∧ x.cleared = [x.buf]) := by
  obtain ⟨-, hpc, hret⟩ := h.record t x hx
  obtain ⟨q, b, c, n, l, returned⟩ := x
  cases returned with
  | true => exact .inr (.inr (hret rfl))
  | false =>
    obtain ⟨b', posted, hq⟩ := hpc rfl
    obtain ⟨-, n', l', hrec, hprog⟩ := h.request _ _ _ _ _ hq
    rw [hx] at hrec
    obtain ⟨rfl, rfl, rfl⟩ : b = b' ∧ n = n' ∧ l = l' := by simpa using hrec
    rcases hprog with ⟨-, -, -, rfl, rfl, -⟩ | ⟨-, -, -, rfl, rfl, -⟩ | ⟨-, -, -, rfl, rfl, -⟩ |
      ⟨-, -, -, rfl, rfl, -⟩
    · exact .inl ⟨rfl, rfl, rfl⟩
    · exact .inl ⟨rfl, rfl, rfl⟩
    · exact .inr (.inl ⟨rfl, rfl, rfl⟩)
    · exact .inr (.inr ⟨rfl, rfl⟩)

/-- **The protocol.** In every state that processes, interrupts and device can reach:
a descriptor is free or in the chain of exactly one process; the slot of the avail ring that a process
writes is none of those the device has still to take; nothing panics; and a request is completed at most
once, only its own buffer is released for it, once and after its completion, and its `virtio_disk_rw`
returns only then. -/
theorem virtio_disk_protocol (h : (machine B P).Reachable s) :
    (∀ i < NUM, (s.disk.free i = true ∧ ∀ p c, (s.pc p).chain = some c → i ∉ c.list) ∨
      (s.disk.free i = false ∧ ∃! p, ∃ c, (s.pc p).chain = some c ∧ i ∈ c.list)) ∧
    (∀ p c, (s.pc p).chain = some c → c.list.Nodup ∧ ∀ i ∈ c.list, i < NUM) ∧
    (∀ p b c t, s.pc p = .ring b c t →
      ∀ k < s.pending, (s.taken + k) % NUM ≠ s.disk.avail.idx % NUM) ∧
    (∀ a e, next s a ≠ some (.error e)) ∧
    ∀ t x, s.request t = some x → x.completions ≤ 1 ∧
      (x.cleared ≠ [] → x.completions = 1 ∧ x.cleared = [x.buf]) ∧
      (x.returned = true → x.completions = 1 ∧ x.cleared = [x.buf]) := by
  obtain ⟨queue, done, hinv⟩ := inv_of_reachable h
  refine ⟨fun i hi => ?_, fun p c hp => ?_, fun p b c t hp k hk heq => ?_, fun a e herr => ?_,
    fun t x hx => ?_⟩
  · cases hfree : s.disk.free i with
    | true =>
      refine .inl ⟨rfl, fun p c hp hmem => ?_⟩
      rw [((hinv.chains.chain p c hp).2 i hmem).2] at hfree
      cases hfree
    | false =>
      obtain ⟨p, c, hp, hmem⟩ := hinv.chains.free i hi hfree
      refine .inr ⟨rfl, p, ⟨c, hp, hmem⟩, ?_⟩
      rintro q ⟨c', hq, hmem'⟩
      exact hinv.chains.disjoint q p c' c hq hp i hmem' hmem
  · obtain ⟨h1, h2⟩ := hinv.chains.chain p c hp
    exact ⟨h1, fun i hi => (h2 i hi).1⟩
  · have hroom : queue.length < 8 := (hinv.ring hp).1
    rw [hinv.pending_eq] at hk
    have hslot : s.disk.avail.idx % 8 = (s.taken + queue.length) % 8 := hinv.availTag.slot
    change (s.taken + k) % 8 = s.disk.avail.idx % 8 at heq
    omega
  · rcases hinv.kept a with hnone | ⟨s', queue', done', hok, -⟩
    · rw [hnone] at herr
      cases herr
    · rw [hok] at herr
      cases herr
  · rcases hinv.request_cases hx with ⟨h1, h2, h3⟩ | ⟨h1, h2, h3⟩ | ⟨h1, h2⟩
    · rw [h1, h2, h3]
      exact ⟨Nat.zero_le 1, fun hne => absurd rfl hne, nofun⟩
    · rw [h1, h2, h3]
      exact ⟨Nat.le_refl 1, fun hne => absurd rfl hne, nofun⟩
    · exact ⟨Nat.le_of_eq h1, fun _ => ⟨h1, h2⟩, fun _ => ⟨h1, h2⟩⟩

/-- A disk without requests, whose ring indices are about to wrap around. -/
def quiet : State Bool Bool :=
  { disk := {
      desc := fun _ => ⟨.null, 0, false, false, 0⟩
      avail := ⟨65535, fun _ => 0⟩
      used := ⟨65535, fun _ => 0⟩
      free := fun _ => true
      usedIdx := 65535
      info := fun _ => ⟨none, 0⟩
      ops := fun _ => ⟨false, 0⟩
      blockno := fun _ => 0
      busy := fun _ => false }
    lock := none
    pc := fun _ => .idle
    owner := fun _ => none
    taken := 65535
    flight := []
    requests := 0
    request := fun _ => none
    availTag := fun _ => 0
    usedTag := fun _ => 0 }

theorem quiet_ready : Ready quiet :=
  ⟨fun _ _ => rfl, ⟨rfl, by decide⟩, ⟨rfl, by decide⟩, rfl, fun _ => rfl, fun _ => rfl, rfl, rfl,
    fun _ => rfl⟩

/-- Two processes post a request each; the device completes the second, whose call returns. -/
def overtaken : List (Act Bool Bool) :=
  [false, true].flatMap (fun p => [Act.lockBuf p p, .call p p p] ++ List.replicate 6 (Act.go p)) ++
    [Act.take, .take, .complete 1, .intr, .intr, .intr, .go true, .go true]

/-- Two requests that the device completes in the other order. -/
theorem virtio_disk_protocol_overtaken : ∃ s ∈ (machine Bool Bool).run quiet overtaken,
    ((s.request 0).any fun x => !x.returned) = true ∧
    ((s.request 1).any fun x => x.returned) = true ∧
    ∀ t x, s.request t = some x → x.returned = true → x.completions = 1 ∧ x.cleared = [x.buf] := by
  have hsome : ((machine Bool Bool).run quiet overtaken).isSome = true := by decide +kernel
  obtain ⟨s, hs⟩ := Option.isSome_iff_exists.mp hsome
  have hrun : ((machine Bool Bool).run quiet overtaken).any (fun s =>
      ((s.request 0).any fun x => !x.returned) && (s.request 1).any fun x => x.returned) = true := by
    decide +kernel
  rw [hs, Option.any_some, Bool.and_eq_true] at hrun
  have hreach := (Machine.Reachable.init quiet_ready).of_run _ hs
  refine ⟨s, hs, hrun.1, hrun.2, fun t x hx => ?_⟩
  exact ((virtio_disk_protocol hreach).2.2.2.2 t x hx).2.2

/-- **No request is stranded.** In every reachable state, a process asleep until its buffer is released
finds it released, or the device has its request, or the avail ring has requests for the device, or the
used ring has entries for the handler; and descriptors are missing only while a process has a chain. -/
theorem requests_not_stranded (h : (machine B P).Reachable s) :
    (∀ p b c t, s.pc p = .sleepBuf b c t → s.disk.busy b = false ∨ 0 < s.pending ∨
      (∃ x ∈ s.flight, x.tag = t) ∨ s.disk.usedIdx ≠ s.disk.used.idx) ∧
    ((∀ i < NUM, s.disk.free i = true) ∨ ∃ p c, (s.pc p).chain = some c) := by
  obtain ⟨queue, done, hinv⟩ := inv_of_reachable h
  refine ⟨fun p b c t hp => ?_, ?_⟩
  · obtain ⟨-, n, l, -, hprog⟩ := hinv.request p b c t true (by rw [hp]; rfl)
    rcases hprog with ⟨hposted, -⟩ | ⟨-, hmem, -⟩ | ⟨-, -, hmem, -⟩ | ⟨-, -, -, -, -, hbusy⟩
    · cases hposted
    · rcases mem_append.mp hmem with hqueue | hflight
      · rw [hinv.pending_eq]
        exact .inr (.inl (length_pos_of_mem hqueue))
      · exact .inr (.inr (.inl (mem_map.mp hflight)))
    · refine .inr (.inr (.inr fun hidx => ?_))
      have hle := hinv.sublist_length_le (sublist_append_right (queue ++ s.tags) done)
      rw [(hinv.usedTag.eq_nil hle).mp hidx.symm] at hmem
      cases hmem
    · exact .inl hbusy
  · refine or_iff_not_imp_right.mpr fun hno i hi => ?_
    by_contra hfree
    obtain ⟨p, c, hp, -⟩ := hinv.chains.free i hi (Bool.eq_false_of_not_eq_true hfree)
    exact hno ⟨p, c, hp⟩

/-- The first of two requests has its descriptors. -/
theorem requests_not_stranded_overtaken : ∃ s ∈ (machine Bool Bool).run quiet overtaken,
    s.disk.free 0 = false ∧ ∃ p c, (s.pc p).chain = some c := by
  have hrun : ∃ s ∈ (machine Bool Bool).run quiet overtaken, s.disk.free 0 = false := by
    decide +kernel
  obtain ⟨s, hs, hfree⟩ := hrun
  have hreach := (Machine.Reachable.init quiet_ready).of_run _ hs
  refine ⟨s, hs, hfree, (requests_not_stranded hreach).2.resolve_left fun hall => ?_⟩
  rw [hall 0 (by decide)] at hfree
  cases hfree

end Xv6.Virtio
