import Xv6.Sync.Steps

/-!
# Pipes

Two properties of `kernel/pipe.c` in every interleaving of the kernel's steps. The bytes that were
written come out in order, without loss or duplication, however often the counters wrap. And a process
that sleeps in `piperead` or `pipewrite` has a reason to: the pipe is empty, or full, and its other end is
open. The second fails if a process is killed between two bytes of a `pipewrite`, which then returns
without `wakeup`.
-/

namespace Xv6.Sync

open Lib List
open UInt32 (toNat_sub toNat_add toNat_one)

variable {s s' : State} {a : Act}

/-! ## First in, first out -/

namespace Pipe

variable {pi : Pipe}

/-- `data[nread..nwrite)`: the bytes in the ring. -/
def ring (pi : Pipe) : List UInt8 :=
  (List.range (pi.nwrite - pi.nread).toNat).map fun k =>
    pi.data ((pi.nread + UInt32.ofNat k).toNat % PIPESIZE)

/-- What was stored is what was delivered and what is in the ring. -/
structure Fifo (pi : Pipe) : Prop where
  size : (pi.nwrite - pi.nread).toNat ≤ PIPESIZE
  bytes : pi.stored = pi.delivered ++ pi.ring

theorem nwrite_toNat (pi : Pipe) :
    pi.nwrite.toNat = (pi.nread.toNat + (pi.nwrite - pi.nread).toNat) % 2 ^ 32 := by
  rw [toNat_sub]
  have := pi.nwrite.toNat_lt
  have := pi.nread.toNat_lt
  omega

theorem sub_eq_iff (pi : Pipe) {d : UInt32} : pi.nwrite - pi.nread = d ↔ pi.nwrite = pi.nread + d := by
  constructor
  · rintro rfl
    rw [UInt32.add_comm, UInt32.sub_add_cancel]
  · intro h
    rw [h, UInt32.add_comm, UInt32.add_sub_cancel]

theorem full_iff (pi : Pipe) : pi.full = true ↔ (pi.nwrite - pi.nread).toNat = PIPESIZE := by
  rw [full, decide_eq_true_eq, ← sub_eq_iff, ← UInt32.toNat_inj]
  rfl

theorem empty_iff (pi : Pipe) : pi.empty = true ↔ (pi.nwrite - pi.nread).toNat = 0 := by
  rw [empty, decide_eq_true_eq, ← UInt32.toNat_inj, toNat_sub]
  have := pi.nwrite.toNat_lt
  have := pi.nread.toNat_lt
  omega

theorem index_toNat (pi : Pipe) {k : ℕ} (hk : k < 2 ^ 32) :
    (pi.nread + UInt32.ofNat k).toNat % PIPESIZE = (pi.nread.toNat + k) % PIPESIZE := by
  rw [toNat_add, UInt32.toNat_ofNat_of_lt' hk]
  simp only [PIPESIZE]
  omega

theorem ring_eq (pi : Pipe) : pi.ring = (List.range (pi.nwrite - pi.nread).toNat).map fun k =>
      pi.data ((pi.nread.toNat + k) % PIPESIZE) := by
  apply map_congr_left
  intro k hk
  have := (pi.nwrite - pi.nread).toNat_lt
  rw [pi.index_toNat (by rw [mem_range] at hk; omega)]

theorem Fifo.store (h : pi.Fifo) (hfull : pi.full = false) (ch : UInt8) : (pi.store ch).Fifo := by
  have hd : (pi.nwrite - pi.nread).toNat < PIPESIZE := by
    refine Nat.lt_of_le_of_ne h.size fun hd => ?_
    rw [← full_iff, hfull] at hd
    cases hd
  have hd' : ((pi.store ch).nwrite - (pi.store ch).nread).toNat = (pi.nwrite - pi.nread).toNat + 1 := by
    change (pi.nwrite + 1 - pi.nread).toNat = _
    rw [toNat_sub] at hd ⊢
    rw [toNat_add, toNat_sub]
    have := pi.nwrite.toNat_lt
    have := pi.nread.toNat_lt
    simp only [PIPESIZE, toNat_one] at *
    omega
  refine ⟨by omega, ?_⟩
  have hring : (pi.store ch).ring = pi.ring ++ [ch] := by
    rw [ring_eq, ring_eq, hd', range_succ, map_append]
    congr 1
    · apply map_congr_left
      intro k hk
      rw [mem_range] at hk
      have hne : (pi.nread.toNat + k) % PIPESIZE ≠ pi.nwrite.toNat % PIPESIZE := by
        rw [nwrite_toNat]
        simp only [PIPESIZE] at *
        omega
      simp only [Pipe.store, assign, if_neg hne]
    · have heq : (pi.nread.toNat + (pi.nwrite - pi.nread).toNat) % PIPESIZE =
          pi.nwrite.toNat % PIPESIZE := by
        rw [nwrite_toNat]
        simp only [PIPESIZE]
        omega
      simp only [map_cons, map_nil, Pipe.store, assign, heq, if_true]
  rw [hring, ← append_assoc]
  exact congrArg (· ++ [ch]) h.bytes

theorem size_take (hempty : pi.empty = false) (copied : Bool) : (pi.nwrite - pi.nread).toNat =
      ((pi.take copied).nwrite - (pi.take copied).nread).toNat + 1 := by
  have hd : (pi.nwrite - pi.nread).toNat ≠ 0 := by
    intro hd
    rw [← empty_iff, hempty] at hd
    cases hd
  change _ = (pi.nwrite - (pi.nread + 1)).toNat + 1
  rw [toNat_sub] at hd
  rw [toNat_sub, toNat_sub, toNat_add]
  have := pi.nwrite.toNat_lt
  have := pi.nread.toNat_lt
  simp only [toNat_one] at *
  omega

theorem ring_take (hempty : pi.empty = false) (copied : Bool) :
    pi.ring = pi.next :: (pi.take copied).ring := by
  rw [ring_eq, ring_eq, size_take hempty copied, range_succ_eq_map, map_cons, map_map]
  congr 1
  apply map_congr_left
  intro k hk
  have hidx : ((pi.take copied).nread.toNat + k) % PIPESIZE = (pi.nread.toNat + (k + 1)) % PIPESIZE := by
    change ((pi.nread + 1).toNat + k) % PIPESIZE = _
    rw [toNat_add]
    simp only [PIPESIZE, toNat_one]
    omega
  rw [hidx]
  rfl

theorem Fifo.take (h : pi.Fifo) (hempty : pi.empty = false) : (pi.take true).Fifo := by
  refine ⟨by have := h.size; have := size_take hempty true; omega, ?_⟩
  rw [show (pi.take true).stored = pi.stored from rfl, h.bytes, ring_take hempty true]
  simp only [Pipe.take, if_true, append_assoc, singleton_append]

/-- The ring and the history are the same. -/
structure Same (pi pi' : Pipe) : Prop where
  data : pi'.data = pi.data
  nread : pi'.nread = pi.nread
  nwrite : pi'.nwrite = pi.nwrite
  stored : pi'.stored = pi.stored
  delivered : pi'.delivered = pi.delivered

theorem Same.close (pi : Pipe) (writable : Bool) (l : Option Slot) :
    pi.Same { pi.close writable with lock := l } := by
  cases writable <;> exact ⟨rfl, rfl, rfl, rfl, rfl⟩

theorem Fifo.same {pi' : Pipe} (h : pi.Fifo) (hs : pi.Same pi') : pi'.Fifo := by
  have hring : pi'.ring = pi.ring := by rw [ring, ring, hs.data, hs.nread, hs.nwrite]
  exact ⟨by rw [hs.nread, hs.nwrite]; exact h.size, by rw [hring, hs.stored, hs.delivered, h.bytes]⟩

end Pipe

/-! ## The lock -/

/-- The program points at which `pi->lock` is held. -/
def Pc.holdsPipe : Pc → Bool
  | .wakeup _ _ k => k.holdsPipe
  | .writeTest _ _ | .writeNext _ _ | .writeStore _ _ | .writeSleep _ _ | .writeEnd _ => true
  | .readTest _ | .readSleep _ | .readCopy _ _ | .readEnd _ => true
  | .closeEnd => true
  | _ => false

/-- The program points from which `pi->lock` is acquired. -/
def Pc.acquiresPipe : Pc → Bool
  | .writeAcquire _ _ | .readAcquire _ | .closeAcquire _ => true
  | _ => false

section

variable {p : Slot} {fault : Bool} {n : Next} {t : Table} {sh : Shared} {k : Pc}

/-- A step elsewhere does not touch the pipe and does not get there. -/
theorem next_outside (hok : k.Ok p) (hk : k.holdsPipe = false)
    (ha : k.acquiresPipe = false) (hn : next t sh p fault k = some n) :
    n.1.holdsPipe = false ∧ n.2.1.pipe = sh.pipe ∧
      ∀ k', n.1 = .asleep k' → k'.acquiresPipe = false := by
  cases k with
  | user r => cases hn
  | dead => cases hn
  | asleep k =>
    cases hn
    obtain ⟨c, hc⟩ := hok
    refine ⟨?_, rfl, ?_⟩
    · cases k <;> first | rfl | cases hc
    · rintro k' rfl
      cases hc
  | wakeup c j k =>
    simp only [next] at hn
    split at hn
    · cases hn
      refine ⟨hk, rfl, ?_⟩
      rintro k' rfl
      cases hok
    · cases hn
      exact ⟨hk, rfl, by simp⟩
  | waitScan _ _ _ | consTest _ _ | tickTest _ _ =>
    cases hn
    simp only [scanLoop, consLoop, tickLoop]
    repeat' split
    all_goals exact ⟨rfl, rfl, by simp⟩
  | _ =>
    first
    | exact Bool.noConfusion hk
    | exact Bool.noConfusion ha
    | simp only [next] at hn
      repeat' split at hn
      all_goals cases hn
      all_goals exact ⟨rfl, rfl, by rintro _ ⟨⟩ <;> rfl⟩

/-- Where the lock is held it stays as it is or is released, and a byte is stored only where there is room. -/
theorem next_inside (hok : k.Ok p) (hk : k.holdsPipe = true) (hn : next t sh p fault k = some n) :
    (n.1.holdsPipe = true → n.2.1.pipe.lock = sh.pipe.lock) ∧
      ∀ bs i, n.1 = .writeStore bs i → n.2.1.pipe.full = false := by
  cases k with
  | wakeup c j k =>
    simp only [next] at hn
    split at hn
    · cases hn
      refine ⟨fun _ => rfl, ?_⟩
      rintro bs i rfl
      cases hok
    · cases hn
      exact ⟨fun _ => rfl, by simp⟩
  | writeTest bs i | writeNext bs i =>
    cases hn
    simp only [writeLoop]
    split
    · split
      · exact ⟨by rintro ⟨⟩, by simp⟩
      · split
        · exact ⟨fun _ => rfl, by simp⟩
        · next hfull => exact ⟨fun _ => rfl, fun _ _ _ => Bool.eq_false_of_not_eq_true hfull⟩
    · exact ⟨fun _ => rfl, by simp⟩
  | writeStore bs i =>
    cases hn
    simp only [writeByte]
    split
    all_goals exact ⟨fun _ => rfl, by simp⟩
  | readTest n =>
    cases hn
    simp only [readLoop]
    split
    · split
      · exact ⟨by rintro ⟨⟩, by simp⟩
      · exact ⟨fun _ => rfl, by simp⟩
    · exact ⟨fun _ => rfl, by simp⟩
  | readCopy n i =>
    cases hn
    simp only [copyLoop]
    repeat' split
    all_goals exact ⟨fun _ => rfl, by simp⟩
  | writeSleep bs i | readSleep n | writeEnd i | readEnd i | closeEnd =>
    cases hn
    exact ⟨by rintro ⟨⟩, by simp⟩
  | _ => cases hk

/-- The lock is acquired when it is free. -/
theorem next_acquire (hk : k.acquiresPipe = true) (hn : next t sh p fault k = some n) :
    sh.pipe.lock = none ∧ n.2.1.pipe.lock = some p ∧ ∀ bs i, n.1 ≠ .writeStore bs i := by
  cases k with
  | writeAcquire _ _ | readAcquire _ | closeAcquire _ =>
    simp only [next] at hn
    split at hn
    · next hfree =>
      cases hn
      exact ⟨hfree, rfl, by simp⟩
    · cases hn
  | _ => cases hk

end

theorem not_holdsPipe_of_isEntry {k : Pc} (h : k.isEntry = true) : k.holdsPipe = false := by
  cases k with
  | wakeup c j k =>
    cases c with
    | other a => cases k <;> first | rfl | (cases j <;> cases h)
    | _ => cases h
  | _ => first | rfl | cases h

/-- Who holds `pi->lock` is its owner, and is about to store a byte only where there is room for it. -/
structure Locked (s : State) : Prop where
  lock : ∀ p, (s.pc p).holdsPipe = true → s.shared.pipe.lock = some p
  room : ∀ p bs i, s.pc p = .writeStore bs i → s.shared.pipe.full = false

theorem Locked.initial : Locked .initial where
  lock p hp := by
    simp only [State.initial] at hp
    split at hp <;> cases hp
  room p bs i hp := by
    simp only [State.initial] at hp
    split at hp <;> cases hp

theorem Locked.go (h : Locked s) (ht : Threads s) {p : Slot} {fault : Bool} {n : Next}
    (hn : next s.table s.shared p fault (s.pc p) = some n) : Locked (s.advance p n) := by
  -- while another process holds the lock, the pipe stays as it is
  have hpipe : ∀ q, q ≠ p → (s.pc q).holdsPipe = true → n.2.1.pipe = s.shared.pipe := by
    intro q hq hh
    have hlock := h.lock q hh
    have hout : (s.pc p).holdsPipe = false := by
      by_contra hp
      rw [h.lock p (by simpa using hp)] at hlock
      exact hq (Option.some.inj hlock).symm
    have hacq : (s.pc p).acquiresPipe = false := by
      by_contra hp
      rw [(next_acquire (by simpa using hp) hn).1] at hlock
      cases hlock
    exact (next_outside (ht.ok p) hout hacq hn).2.1
  have hkeep : ∀ q, q ≠ p → ((s.advance p n).pc q).holdsPipe = true →
      (s.advance p n).pc q = s.pc q ∧ n.2.1.pipe = s.shared.pipe := by
    intro q hq hh
    have hpc : (s.advance p n).pc q = s.pc q := by
      by_cases hrun : n.2.2 = .runnable q
      · rw [advance_pc_runnable hq hrun] at hh
        cases hh
      · exact advance_pc_ne hq hrun
    rw [hpc] at hh
    exact ⟨hpc, hpipe q hq hh⟩
  have hself : (n.1.holdsPipe = true → n.2.1.pipe.lock = some p) ∧
      ∀ bs i, n.1 = .writeStore bs i → n.2.1.pipe.full = false := by
    by_cases hk : (s.pc p).holdsPipe = true
    · obtain ⟨hlock, hroom⟩ := next_inside (ht.ok p) hk hn
      exact ⟨fun hh => (hlock hh).trans (h.lock p hk), hroom⟩
    · by_cases ha : (s.pc p).acquiresPipe = true
      · obtain ⟨-, hlock, hne⟩ := next_acquire ha hn
        exact ⟨fun _ => hlock, fun bs i hpc => absurd hpc (hne bs i)⟩
      · have hout := (next_outside (ht.ok p) (by simpa using hk) (by simpa using ha) hn).1
        refine ⟨fun hh => ?_, fun bs i hpc => ?_⟩
        · rw [hout] at hh
          cases hh
        · rw [hpc] at hout
          cases hout
  refine ⟨fun q hq => ?_, fun q bs i hq => ?_⟩
  · by_cases hqp : q = p
    · rw [hqp, advance_pc_self] at hq
      rw [hqp]
      exact hself.1 hq
    · obtain ⟨hpc, hsame⟩ := hkeep q hqp hq
      exact (congrArg Pipe.lock hsame).trans (h.lock q (hpc ▸ hq))
  · by_cases hqp : q = p
    · rw [hqp, advance_pc_self] at hq
      exact hself.2 bs i hq
    · obtain ⟨hpc, hsame⟩ := hkeep q hqp (by rw [hq]; rfl)
      exact (congrArg Pipe.full hsame).trans (h.room q bs i (hpc ▸ hq))

theorem Locked.step (h : Locked s) (ht : Threads s) (hs : Step s a s') : Locked s' := by
  cases hs.kind with
  | go hr hn => exact h.go ht hn
  | @call p r k hpc hr hk hinit =>
    have hout := not_holdsPipe_of_isEntry hk
    refine ⟨fun q hq => ?_, fun q bs i hq => ?_⟩
    · rw [goto_pc] at hq
      split at hq
      · rw [hout] at hq
        cases hq
      · exact h.lock q hq
    · rw [goto_pc] at hq
      split at hq
      · rw [hq] at hout
        cases hout
      · exact h.room q bs i hq
  | quiet hq =>
    refine ⟨fun p hp => ?_, fun p bs i hp => ?_⟩
    · rw [hq.pc] at hp
      rw [hq.pipe]
      exact h.lock p hp
    · rw [hq.pc] at hp
      rw [hq.pipe]
      exact h.room p bs i hp

/-! ## The bytes -/

/-- The program points at which a pipe call copies a byte from or to user memory. -/
def Pc.copies : Pc → Bool
  | .writeStore _ _ | .readCopy _ _ => true
  | _ => false

/-- The user buffers of the pipe calls are mapped: `copyin` and `copyout` do not fail there. -/
def Mapped (s : State) : Act → Prop
  | .go p fault => fault = true → (s.pc p).copies = false
  | _ => True

instance (s : State) (a : Act) : Decidable (Mapped s a) := by
  cases a <;> unfold Mapped <;> infer_instance

section

variable {t : Table} {sh : Shared} {p : Slot} {fault : Bool}

theorem writeLoop_fifo (h : sh.pipe.Fifo) (bs : List UInt8) (i : ℕ) :
    (writeLoop t sh p bs i).2.1.pipe.Fifo := by
  simp only [writeLoop]
  repeat' split
  all_goals first | exact h | exact h.same ⟨rfl, rfl, rfl, rfl, rfl⟩

theorem writeByte_fifo (h : sh.pipe.Fifo) (hroom : sh.pipe.full = false) (bs : List UInt8) (i : ℕ) :
    (writeByte sh bs i fault).2.1.pipe.Fifo := by
  simp only [writeByte]
  split
  · exact h
  · exact h.store hroom _

theorem readLoop_fifo (h : sh.pipe.Fifo) (n : ℕ) : (readLoop t sh p n).2.1.pipe.Fifo := by
  simp only [readLoop]
  split
  · split
    · exact h.same ⟨rfl, rfl, rfl, rfl, rfl⟩
    · exact h
  · exact h

theorem copyLoop_fifo (h : sh.pipe.Fifo) (n i : ℕ) : (copyLoop sh n i false).2.1.pipe.Fifo := by
  simp only [copyLoop]
  split
  · next hlt =>
    exact h.take (by simpa using hlt.2)
  · exact h

theorem scanLoop_pipe (addr : Bool) (j : ℕ) (havekids : Bool) :
    (scanLoop t sh p addr j havekids fault).2.1.pipe = sh.pipe := by
  simp only [scanLoop]
  repeat' split
  all_goals rfl

theorem consLoop_pipe (target n : ℕ) : (consLoop t sh p target n fault).2.1.pipe = sh.pipe := by
  simp only [consLoop]
  repeat' split
  all_goals rfl

theorem tickLoop_pipe (n ticks0 : UInt32) : (tickLoop t sh p n ticks0).2.1.pipe = sh.pipe := by
  simp only [tickLoop]
  repeat' split
  all_goals rfl

theorem next_fifo {k : Pc} {n : Next} (h : sh.pipe.Fifo) (hm : fault = true → k.copies = false)
    (hroom : ∀ bs i, k = .writeStore bs i → sh.pipe.full = false) (hn : next t sh p fault k = some n) : n.2.1.pipe.Fifo := by
  have hcopy : k.copies = true → fault = false := by
    intro hk
    cases fault with
    | false => rfl
    | true => rw [hm rfl] at hk; cases hk
  cases k with
  | user r => cases hn
  | dead => cases hn
  | writeTest bs i | writeNext bs i =>
    cases hn
    exact writeLoop_fifo h bs i
  | writeStore bs i =>
    cases hn
    exact writeByte_fifo h (hroom bs i rfl) bs i
  | readTest n =>
    cases hn
    exact readLoop_fifo h n
  | readCopy n i =>
    cases hn
    rw [hcopy rfl]
    exact copyLoop_fifo h n i
  | waitScan addr j havekids =>
    cases hn
    rwa [scanLoop_pipe]
  | consTest target n =>
    cases hn
    rwa [consLoop_pipe]
  | tickTest n ticks0 =>
    cases hn
    rwa [tickLoop_pipe]
  | closeAcquire writable =>
    simp only [next] at hn
    split at hn
    · cases hn
      exact h.same (.close _ _ _)
    · cases hn
  | _ =>
    simp only [next] at hn
    repeat' split at hn
    all_goals cases hn
    all_goals first | exact h | exact h.same ⟨rfl, rfl, rfl, rfl, rfl⟩

end

theorem step_fifo (h : s.shared.pipe.Fifo) (hl : Locked s) (hm : Mapped s a) (hs : Step s a s') :
    s'.shared.pipe.Fifo := by
  cases hs with
  | go hr hn => exact next_fifo h hm (hl.room _) hn
  | _ => exact h

variable {as : List Act}

/-- **Pipes are first in, first out.** In every run in which the user buffers of the pipe calls are
mapped, at most `PIPESIZE` bytes are in the ring, and the bytes stored so far are the bytes delivered so
far followed by those in the ring. -/
theorem pipe_fifo (hmapped : machine.AllSteps Mapped .initial as)
    (hrun : machine.run .initial as = some s) :
    (s.shared.pipe.nwrite - s.shared.pipe.nread).toNat ≤ PIPESIZE ∧
      s.shared.pipe.stored = s.shared.pipe.delivered ++ s.shared.pipe.ring := by
  have hstep : ∀ s a s', Threads s ∧ Locked s ∧ s.shared.pipe.Fifo → Mapped s a →
      machine.step s a = some s' → Threads s' ∧ Locked s' ∧ s'.shared.pipe.Fifo := by
    rintro s a s' ⟨ht, hl, hf⟩ hm hstep
    have hstep := step_cases hstep
    exact ⟨ht.step hstep, hl.step ht hstep, step_fifo hf hl hm hstep⟩
  have hinit : State.initial.shared.pipe.Fifo := ⟨by decide, rfl⟩
  have h := (Machine.run_invariant hstep ⟨Threads.initial, Locked.initial, hinit⟩ hmapped hrun).2.2
  exact ⟨h.size, h.bytes⟩

/-- `init` writes two bytes to the pipe and reads one of them. -/
def twoBytesRun : List Act := List.flatten
  [[.schedule 0, .call 0 (.writeAcquire [7, 8] 0)], steps 0 72, [.call 0 (.readAcquire 1)], steps 0 69]

theorem pipe_fifo_small :
    ∃ s, machine.run .initial twoBytesRun = some s ∧
      s.shared.pipe.stored = s.shared.pipe.delivered ++ s.shared.pipe.ring := by
  have hrun : (machine.run .initial twoBytesRun).isSome = true := by decide +kernel
  obtain ⟨s, hs⟩ := Option.isSome_iff_exists.mp hrun
  exact ⟨s, hs, (pipe_fifo (by decide +kernel) hs).2⟩

/-! ## Sleeping readers and writers -/

/-- Between the test of `killed` in a turn of `pipewrite` that stores a byte and the next such test. -/
def Pc.midWrite : Pc → Bool
  | .writeStore bs i => i + 1 < bs.length
  | .writeNext bs i => i < bs.length
  | _ => false

/-- No `kill` hits a process there. -/
def SparesWriters (s : State) (a : Act) : Prop := ∀ v ∈ victim s a, (s.pc v).midWrite = false

instance (s : State) (a : Act) : Decidable (SparesWriters s a) :=
  inferInstanceAs (Decidable (∀ v ∈ victim s a, (s.pc v).midWrite = false))

/-- A reader may sleep. -/
def Pipe.Dry (pi : Pipe) : Prop := pi.empty = true ∧ pi.writeopen = true

/-- A writer may sleep. -/
def Pipe.Jammed (pi : Pipe) : Prop := pi.full = true ∧ pi.readopen = true

/-- What the holder of `pi->lock` knows from its last test. -/
def Pc.Knows (pi : Pipe) (killed : Bool) : Pc → Prop
  | .wakeup _ _ k => k.Knows pi killed
  | .readSleep _ => pi.Dry
  | .writeSleep _ _ => pi.Jammed
  | .writeNext bs i => pi.readopen = true ∧ (i < bs.length → killed = false)
  | .writeStore bs i => pi.readopen = true ∧ pi.full = false ∧ (i + 1 < bs.length → killed = false)
  | _ => True

/-- The holder of `pi->lock` will still wake `q`, if it sleeps on `&pi->nread`. -/
def Pc.WakesReader (q : Slot) : Pc → Prop
  | .writeNext _ _ | .writeStore _ _ => True
  | .wakeup c j k => c = .nread ∧ j ≤ q.val ∧ k.holdsPipe = true
  | _ => False

/-- The holder of `pi->lock` will still wake `q`, if it sleeps on `&pi->nwrite`. -/
def Pc.WakesWriter (q : Slot) : Pc → Prop
  | .readCopy _ _ => True
  | .wakeup c j k => c = .nwrite ∧ j ≤ q.val ∧ k.holdsPipe = true
  | _ => False

/-- `q` sleeps in `piperead`. -/
def ReaderSleeps (s : State) (q : Slot) : Prop :=
  (s.proc q).state = .sleeping ∧ ∃ n, s.pc q = .asleep (.readAcquire n)

/-- `q` sleeps in `pipewrite`. -/
def WriterSleeps (s : State) (q : Slot) : Prop :=
  (s.proc q).state = .sleeping ∧ ∃ bs i, s.pc q = .asleep (.writeAcquire bs i)

structure PipeInv (s : State) : Prop where
  lock : ∀ p, (s.pc p).holdsPipe = true → s.shared.pipe.lock = some p
  knows : ∀ p, (s.pc p).Knows s.shared.pipe (s.proc p).killed
  reader : ∀ q, ReaderSleeps s q → s.shared.pipe.Dry ∨ ∃ o, (s.pc o).WakesReader q
  writer : ∀ q, WriterSleeps s q → s.shared.pipe.Jammed ∨ ∃ o, (s.pc o).WakesWriter q

section

variable {k : Pc} {q : Slot} {pi : Pipe} {killed : Bool}

theorem Pc.WakesReader.holds (h : k.WakesReader q) : k.holdsPipe = true := by
  cases k with
  | writeNext bs i | writeStore bs i => rfl
  | wakeup c j k => exact h.2.2
  | _ => exact h.elim

theorem Pc.WakesWriter.holds (h : k.WakesWriter q) : k.holdsPipe = true := by
  cases k with
  | readCopy n i => rfl
  | wakeup c j k => exact h.2.2
  | _ => exact h.elim

theorem Pc.knows_of_not_holds (h : k.holdsPipe = false) : k.Knows pi killed := by
  induction k with
  | wakeup c j k ih => exact ih h
  | readSleep n => cases h
  | writeSleep bs i => cases h
  | writeNext bs i | writeStore bs i => cases h
  | _ => trivial

theorem Pc.Knows.of_killed {p : Slot} {killed' : Bool} (hok : k.Ok p) (h : k.Knows pi killed)
    (hk : k.midWrite = true → killed = false → killed' = false) : k.Knows pi killed' := by
  cases k with
  | wakeup c j k =>
    -- nothing that follows a `wakeup` is between two bytes
    cases k with
    | writeSleep bs i => exact h
    | writeNext bs i | writeStore bs i => cases hok
    | wakeup c j k => cases hok
    | readSleep n => cases hok
    | _ => trivial
  | writeNext bs i => exact ⟨h.1, fun hi => hk (decide_eq_true hi) (h.2 hi)⟩
  | writeStore bs i => exact ⟨h.1, h.2.1, fun hi => hk (decide_eq_true hi) (h.2.2 hi)⟩
  | readSleep n => exact h
  | writeSleep bs i => exact h
  | _ => trivial

end

theorem PipeInv.free (h : PipeInv s) (hl : s.shared.pipe.lock = none) (q : Slot) :
    (s.pc q).holdsPipe = false := by
  by_contra hq
  rw [h.lock q (by simpa using hq)] at hl
  cases hl

theorem PipeInv.alone (h : PipeInv s) {p q : Slot} (hp : (s.pc p).holdsPipe = true) (hq : q ≠ p) :
    (s.pc q).holdsPipe = false := by
  by_contra hh
  have h1 := h.lock q (by simpa using hh)
  rw [h.lock p hp] at h1
  exact hq (Option.some.inj h1).symm

theorem PipeInv.sleepers (h : PipeInv s) (hl : s.shared.pipe.lock = none) (q : Slot) :
    (ReaderSleeps s q → s.shared.pipe.Dry) ∧ (WriterSleeps s q → s.shared.pipe.Jammed) := by
  refine ⟨fun hq => ?_, fun hq => ?_⟩
  · rcases h.reader q hq with hd | ⟨o, ho⟩
    · exact hd
    · have := ho.holds
      rw [h.free hl o] at this
      cases this
  · rcases h.writer q hq with hd | ⟨o, ho⟩
    · exact hd
    · have := ho.holds
      rw [h.free hl o] at this
      cases this

theorem PipeInv.frame (h : PipeInv s) (hpipe : s'.shared.pipe = s.shared.pipe)
    (hpc : ∀ q, s'.pc q = s.pc q ∨ (s.pc q).holdsPipe = false ∧ (s'.pc q).holdsPipe = false ∧
      ¬ ReaderSleeps s' q ∧ ¬ WriterSleeps s' q)
    (hsleep : ∀ q, s'.pc q = s.pc q → (s'.proc q).state = .sleeping → (s.proc q).state = .sleeping)
    (hkilled : ∀ q, s'.pc q = s.pc q → (s.pc q).Knows s.shared.pipe (s.proc q).killed →
      (s.pc q).Knows s.shared.pipe (s'.proc q).killed) : PipeInv s' := by
  have hkeep : ∀ o, (s.pc o).holdsPipe = true → s'.pc o = s.pc o := by
    intro o ho
    rcases hpc o with heq | ⟨hno, -⟩
    · exact heq
    · rw [ho] at hno
      cases hno
  refine ⟨fun q hq => ?_, fun q => ?_, fun q hq => ?_, fun q hq => ?_⟩
  · rw [hpipe]
    rcases hpc q with heq | ⟨-, hno, -⟩
    · exact h.lock q (heq ▸ hq)
    · rw [hq] at hno
      cases hno
  · rw [hpipe]
    rcases hpc q with heq | ⟨-, hno, -⟩
    · rw [heq]
      exact hkilled q heq (h.knows q)
    · exact Pc.knows_of_not_holds hno
  · rw [hpipe]
    rcases hpc q with heq | ⟨-, -, hno, -⟩
    · have hq' : ReaderSleeps s q := ⟨hsleep q heq hq.1, heq ▸ hq.2⟩
      refine (h.reader q hq').imp_right ?_
      rintro ⟨o, ho⟩
      exact ⟨o, by rwa [hkeep o ho.holds]⟩
    · exact absurd hq hno
  · rw [hpipe]
    rcases hpc q with heq | ⟨-, -, -, hno⟩
    · have hq' : WriterSleeps s q := ⟨hsleep q heq hq.1, heq ▸ hq.2⟩
      refine (h.writer q hq').imp_right ?_
      rintro ⟨o, ho⟩
      exact ⟨o, by rwa [hkeep o ho.holds]⟩
    · exact absurd hq hno

theorem PipeInv.own (h : PipeInv s) {p : Slot}
    (hother : ∀ q, q ≠ p → (s.pc q).holdsPipe = false ∧ s'.pc q = s.pc q)
    (hsleep : ∀ q, q ≠ p → (s'.proc q).state = .sleeping → (s.proc q).state = .sleeping)
    (hlock : (s'.pc p).holdsPipe = true → s'.shared.pipe.lock = some p)
    (hknows : (s'.pc p).Knows s'.shared.pipe (s'.proc p).killed)
    (hreader : ∀ q, q ≠ p → ReaderSleeps s q → ReaderSleeps s' q →
      s.shared.pipe.Dry ∨ (s.pc p).WakesReader q → s'.shared.pipe.Dry ∨ (s'.pc p).WakesReader q)
    (hwriter : ∀ q, q ≠ p → WriterSleeps s q → WriterSleeps s' q →
      s.shared.pipe.Jammed ∨ (s.pc p).WakesWriter q → s'.shared.pipe.Jammed ∨ (s'.pc p).WakesWriter q)
    (hself : (ReaderSleeps s' p → s'.shared.pipe.Dry) ∧ (WriterSleeps s' p → s'.shared.pipe.Jammed)) :
    PipeInv s' := by
  -- whoever promises to wake somebody holds the lock
  have hwho : ∀ o, (s.pc o).holdsPipe = true → o = p := by
    intro o ho
    by_contra hne
    rw [(hother o hne).1] at ho
    cases ho
  refine ⟨fun q hq => ?_, fun q => ?_, fun q hq => ?_, fun q hq => ?_⟩
  · by_cases hqp : q = p
    · rw [hqp] at hq ⊢
      exact hlock hq
    · rw [(hother q hqp).2, (hother q hqp).1] at hq
      cases hq
  · by_cases hqp : q = p
    · rw [hqp]
      exact hknows
    · rw [(hother q hqp).2]
      exact Pc.knows_of_not_holds (hother q hqp).1
  · by_cases hqp : q = p
    · rw [hqp] at hq
      exact .inl (hself.1 hq)
    · have hq0 : ReaderSleeps s q := ⟨hsleep q hqp hq.1, (hother q hqp).2 ▸ hq.2⟩
      refine (hreader q hqp hq0 hq ?_).imp_right fun ho => ⟨p, ho⟩
      refine (h.reader q hq0).imp_right ?_
      rintro ⟨o, ho⟩
      rwa [← hwho o ho.holds]
  · by_cases hqp : q = p
    · rw [hqp] at hq
      exact .inl (hself.2 hq)
    · have hq0 : WriterSleeps s q := ⟨hsleep q hqp hq.1, (hother q hqp).2 ▸ hq.2⟩
      refine (hwriter q hqp hq0 hq ?_).imp_right fun ho => ⟨p, ho⟩
      refine (h.writer q hq0).imp_right ?_
      rintro ⟨o, ho⟩
      rwa [← hwho o ho.holds]

section

variable {p : Slot} {fault : Bool}

variable {n : Next}

variable {k' : Pc} {sh' : Shared} (h : PipeInv s)

include h

section

variable (hr : (s.proc p).state = .running)

include hr

theorem PipeInv.own_none
    (hother : ∀ q, q ≠ p → (s.pc q).holdsPipe = false) (hlock : k'.holdsPipe = true → sh'.pipe.lock = some p)
    (hknows : k'.Knows sh'.pipe (s.proc p).killed)
    (hreader : ∀ q, s.shared.pipe.Dry ∨ (s.pc p).WakesReader q → sh'.pipe.Dry ∨ k'.WakesReader q)
    (hwriter : ∀ q, s.shared.pipe.Jammed ∨ (s.pc p).WakesWriter q →
      sh'.pipe.Jammed ∨ k'.WakesWriter q) : PipeInv (s.advance p (k', sh', .none)) := by
  have hrun : ((s.advance p (k', sh', .none)).proc p).state ≠ .sleeping := by
    rw [advance_proc_of_not_touches id, hr]
    nofun
  refine h.own (p := p) (fun q hq => ⟨hother q hq, advance_pc_ne hq nofun⟩) (fun q _ hq => hq) ?_ ?_
    (fun q _ _ _ => ?_) (fun q _ _ _ => ?_) ⟨fun hq => absurd hq.1 hrun, fun hq => absurd hq.1 hrun⟩
  · rw [advance_pc_self]
    exact hlock
  · rw [advance_pc_self]
    exact hknows
  · rw [advance_pc_self]
    exact hreader q
  · rw [advance_pc_self]
    exact hwriter q

variable {i : ℕ}

omit h hr in
theorem dry_of_pc {k : Pc} (hpc : s.pc p = k) (hk : ∀ q, ¬ k.WakesReader q) (q : Slot)
    (hq : s.shared.pipe.Dry ∨ (s.pc p).WakesReader q) : s.shared.pipe.Dry := by
  refine hq.resolve_right ?_
  rw [hpc]
  exact hk q

omit h hr in
theorem jammed_of_pc {k : Pc} (hpc : s.pc p = k) (hk : ∀ q, ¬ k.WakesWriter q) (q : Slot)
    (hq : s.shared.pipe.Jammed ∨ (s.pc p).WakesWriter q) : s.shared.pipe.Jammed := by
  refine hq.resolve_right ?_
  rw [hpc]
  exact hk q

theorem PipeInv.writeLoop {bs : List UInt8}
    (hpc : s.pc p = .writeTest bs i ∨ s.pc p = .writeNext bs i) :
    PipeInv (s.advance p (writeLoop s.table s.shared p bs i)) := by
  have hholds : (s.pc p).holdsPipe = true := by
    rcases hpc with hpc | hpc <;> rw [hpc] <;> rfl
  have hother := fun q => h.alone hholds (q := q)
  have hlock := h.lock p hholds
  have hwriter : ∀ q, s.shared.pipe.Jammed ∨ (s.pc p).WakesWriter q → s.shared.pipe.Jammed := by
    intro q hq
    refine hq.resolve_right ?_
    rcases hpc with hpc | hpc <;> rw [hpc] <;> exact id
  simp only [Sync.writeLoop]
  split
  · next hi =>
    split
    · -- the early return: a byte has been stored only if the process was killed since
      next hstop =>
      refine h.own_none hr hother (fun h => by cases h) trivial (fun q hq => ?_) fun q hq =>
        .inl (hwriter q hq)
      refine .inl (hq.resolve_right fun hw => ?_)
      rcases hpc with hpc | hpc
      · rw [hpc] at hw
        exact hw
      · have hknows := h.knows p
        rw [hpc] at hknows
        rcases hstop with hclosed | hkilled
        · rw [hknows.1] at hclosed
          cases hclosed
        · have := hknows.2 hi
          rw [show (s.proc p).killed = true from hkilled] at this
          cases this
    · next hgo =>
      have hopen : s.shared.pipe.readopen = true := by
        by_contra hc
        exact hgo (.inl (by simpa using hc))
      split
      · next hfull =>
        exact h.own_none hr hother (fun _ => hlock) ⟨hfull, hopen⟩
          (fun q _ => .inr ⟨rfl, Nat.zero_le _, rfl⟩) fun q hq => .inl (hwriter q hq)
      · next hfull =>
        refine h.own_none hr hother (fun _ => hlock) ⟨hopen, Bool.eq_false_of_not_eq_true hfull, fun _ => ?_⟩
          (fun q _ => .inr trivial) fun q hq => .inl (hwriter q hq)
        by_contra hk
        exact hgo (.inr (Bool.of_not_eq_false hk))
  · exact h.own_none hr hother (fun _ => hlock) trivial
      (fun q _ => .inr ⟨rfl, Nat.zero_le _, rfl⟩) fun q hq => .inl (hwriter q hq)

/-- Whichever way the turn goes, the readers will be woken. -/
theorem PipeInv.writeByte {bs : List UInt8} (hpc : s.pc p = .writeStore bs i) :
    PipeInv (s.advance p (writeByte s.shared bs i fault)) := by
  have hholds : (s.pc p).holdsPipe = true := by rw [hpc]; rfl
  have hother := fun q => h.alone hholds (q := q)
  have hlock := h.lock p hholds
  have hknows := h.knows p
  rw [hpc] at hknows
  have hwriter := jammed_of_pc hpc fun _ => id
  simp only [Sync.writeByte]
  split
  · exact h.own_none hr hother (fun _ => hlock) trivial
      (fun q _ => .inr ⟨rfl, Nat.zero_le _, rfl⟩) fun q hq => .inl (hwriter q hq)
  · refine h.own_none hr hother (fun _ => hlock) ⟨hknows.1, hknows.2.2⟩ (fun q _ => .inr trivial)
      fun q hq => ?_
    have hfull := (hwriter q hq).1
    rw [hknows.2.1] at hfull
    cases hfull

theorem PipeInv.readLoop {n : ℕ}
    (hpc : s.pc p = .readTest n) : PipeInv (s.advance p (readLoop s.table s.shared p n)) := by
  have hholds : (s.pc p).holdsPipe = true := by rw [hpc]; rfl
  have hother := fun q => h.alone hholds (q := q)
  have hlock := h.lock p hholds
  have hreader := dry_of_pc hpc fun _ => id
  have hwriter := jammed_of_pc hpc fun _ => id
  simp only [Sync.readLoop]
  split
  · next hdry =>
    split
    · exact h.own_none hr hother (fun h => by cases h) trivial (fun q hq => .inl (hreader q hq))
        fun q hq => .inl (hwriter q hq)
    · exact h.own_none hr hother (fun _ => hlock) hdry (fun q hq => .inl (hreader q hq))
        fun q hq => .inl (hwriter q hq)
  · exact h.own_none hr hother (fun _ => hlock) trivial (fun q hq => .inl (hreader q hq))
      fun q hq => .inl (hwriter q hq)

theorem PipeInv.copyLoop {n : ℕ}
    (hpc : s.pc p = .readCopy n i) : PipeInv (s.advance p (copyLoop s.shared n i fault)) := by
  have hholds : (s.pc p).holdsPipe = true := by rw [hpc]; rfl
  have hother := fun q => h.alone hholds (q := q)
  have hlock := h.lock p hholds
  have hreader := dry_of_pc hpc fun _ => id
  simp only [Sync.copyLoop]
  split
  · next hlt =>
    split
    · exact h.own_none hr hother (fun _ => hlock) trivial
        (fun q hq => absurd (hreader q hq).1 hlt.2) fun q _ => .inr ⟨rfl, Nat.zero_le _, rfl⟩
    · exact h.own_none hr hother (fun _ => hlock) trivial
        (fun q hq => absurd (hreader q hq).1 hlt.2) fun q _ => .inr trivial
  · exact h.own_none hr hother (fun _ => hlock) trivial (fun q hq => .inl (hreader q hq))
      fun q _ => .inr ⟨rfl, Nat.zero_le _, rfl⟩

theorem PipeInv.release (hholds : (s.pc p).holdsPipe = true) (hnr : ∀ q, ¬ (s.pc p).WakesReader q)
    (hnw : ∀ q, ¬ (s.pc p).WakesWriter q) (hk' : k'.holdsPipe = false)
    (hdry : s.shared.pipe.Dry → sh'.pipe.Dry) (hjam : s.shared.pipe.Jammed → sh'.pipe.Jammed) :
    PipeInv (s.advance p (k', sh', .none)) := by
  refine h.own_none hr (fun q => h.alone hholds) (fun hk => ?_) (Pc.knows_of_not_holds hk')
    (fun q hq => ?_) fun q hq => ?_
  · rw [hk'] at hk
    cases hk
  · exact .inl (hdry (hq.resolve_right (hnr q)))
  · exact .inl (hjam (hq.resolve_right (hnw q)))

end

variable {c : Chan}

theorem PipeInv.sleep (hholds : (s.pc p).holdsPipe = true)
    (hnr : ∀ q, ¬ (s.pc p).WakesReader q) (hnw : ∀ q, ¬ (s.pc p).WakesWriter q) {k : Pc}
    (hdry : ∀ n, k = .readAcquire n → s.shared.pipe.Dry)
    (hjam : ∀ bs i, k = .writeAcquire bs i → s.shared.pipe.Jammed) : PipeInv (s.advance p (.asleep k,
      { s.shared with pipe := { s.shared.pipe with lock := none } }, .sleep c)) := by
  refine h.own (p := p) (fun q hq => ⟨h.alone hholds hq, advance_pc_ne hq nofun⟩) (fun q hq hs => ?_)
    ?_ ?_ (fun q _ _ _ hq => .inl (hq.resolve_right (hnr q)))
    (fun q _ _ _ hq => .inl (hq.resolve_right (hnw q))) ⟨fun hs => ?_, fun hs => ?_⟩
  · rcases advance_sleeping hs with hs | ⟨hq', -⟩
    · exact hs
    · exact absurd hq' hq
  · rw [advance_pc_self]
    nofun
  · rw [advance_pc_self]
    trivial
  · obtain ⟨-, n, hn⟩ := hs
    rw [advance_pc_self] at hn
    exact hdry n (Pc.asleep.inj hn)
  · obtain ⟨-, bs, i, hn⟩ := hs
    rw [advance_pc_self] at hn
    exact hjam bs i (Pc.asleep.inj hn)

theorem PipeInv.wakeup (ht : Threads s) (hr : (s.proc p).state = .running) {j : ℕ}
    {k : Pc} (hpc : s.pc p = .wakeup c j k) (hk : k.holdsPipe = true) {i : Slot} (hi : i.val = j) :
    PipeInv (s.advance p (.wakeup c (j + 1) k, s.shared, .wake c i)) := by
  have hholds : (s.pc p).holdsPipe = true := by rw [hpc]; exact hk
  have hself : (s.advance p (.wakeup c (j + 1) k, s.shared, .wake c i)).proc p = s.proc p := by
    rw [advance_proc]
    simp only [Table.apply]
    split
    · next hw =>
      rw [setProc_proc, if_neg hw.1.symm]
      rfl
    · rfl
  have hrun : ((s.advance p (.wakeup c (j + 1) k, s.shared, .wake c i)).proc p).state ≠ .sleeping := by
    rw [hself, hr]
    simp
  -- process `i` does not sleep on `c` any more
  have hpast : ∀ q, q ≠ p → (s.proc q).state = .sleeping →
      ((s.advance p (.wakeup c (j + 1) k, s.shared, .wake c i)).proc q).state = .sleeping →
      (s.proc q).chan = some c → j ≤ q.val → j + 1 ≤ q.val := by
    intro q hqp hs hs' hc hq
    refine Nat.lt_of_le_of_ne hq fun hqj => ?_
    obtain rfl : q = i := Fin.ext (hqj.symm.trans hi.symm)
    rw [advance_proc] at hs'
    simp only [Table.apply] at hs'
    rw [if_pos ⟨hqp, hs, hc⟩, setProc_proc, if_pos rfl] at hs'
    cases hs'
  have hchan : ∀ q k', (s.proc q).state = .sleeping → s.pc q = .asleep k' →
      ∃ c, (s.proc q).chan = some c ∧ sleepsOn q c k' = true := by
    intro q k' hs hq
    obtain ⟨k1, c1, hk1, hc1, hon⟩ := ht.asleep q hs
    rw [hq] at hk1
    obtain rfl := Pc.asleep.inj hk1
    exact ⟨c1, hc1, hon⟩
  refine h.own (p := p) (fun q hq => ⟨h.alone hholds hq, advance_pc_ne hq (by simp)⟩) (fun q hq hs => ?_)
    ?_ ?_ (fun q hqp hs hs' hq => ?_) (fun q hqp hs hs' hq => ?_)
    ⟨fun hq => absurd hq.1 hrun, fun hq => absurd hq.1 hrun⟩
  · rcases advance_sleeping hs with hs | ⟨hq', -⟩
    · exact hs
    · exact absurd hq' hq
  · intro _
    exact h.lock p hholds
  · rw [advance_pc_self, hself]
    have := h.knows p
    rwa [hpc] at this
  · refine hq.imp_right fun hw => ?_
    rw [hpc] at hw
    rw [advance_pc_self]
    obtain ⟨n, hn⟩ := hs.2
    obtain ⟨c', hc', hon⟩ := hchan q _ hs.1 hn
    refine ⟨hw.1, hpast q hqp hs.1 hs'.1 ?_ hw.2.1, hk⟩
    rw [hc', hw.1]
    simpa [sleepsOn] using hon
  · refine hq.imp_right fun hw => ?_
    rw [hpc] at hw
    rw [advance_pc_self]
    obtain ⟨bs, m, hn⟩ := hs.2
    obtain ⟨c', hc', hon⟩ := hchan q _ hs.1 hn
    refine ⟨hw.1, hpast q hqp hs.1 hs'.1 ?_ hw.2.1, hk⟩
    rw [hc', hw.1]
    simpa [sleepsOn] using hon

theorem PipeInv.acquire (hr : (s.proc p).state = .running)
    (hfree : s.shared.pipe.lock = none) (hlock : sh'.pipe.lock = some p)
    (hknows : k'.Knows sh'.pipe (s.proc p).killed)
    (hreader : ∀ q, s.shared.pipe.Dry → sh'.pipe.Dry ∨ k'.WakesReader q)
    (hwriter : ∀ q, s.shared.pipe.Jammed → sh'.pipe.Jammed ∨ k'.WakesWriter q) :
    PipeInv (s.advance p (k', sh', .none)) := by
  have hno : (s.pc p).holdsPipe = false := h.free hfree p
  refine h.own_none hr (fun q _ => h.free hfree q) (fun _ => hlock) hknows (fun q hq => ?_) fun q hq => ?_
  · refine hreader q (hq.resolve_right fun hw => ?_)
    rw [hw.holds] at hno
    cases hno
  · refine hwriter q (hq.resolve_right fun hw => ?_)
    rw [hw.holds] at hno
    cases hno

theorem PipeInv.outside (ht : Threads s)
    (hn : next s.table s.shared p fault (s.pc p) = some n) (hk : (s.pc p).holdsPipe = false)
    (ha : (s.pc p).acquiresPipe = false) (hspare : SparesWriters s (.go p fault)) :
    PipeInv (s.advance p n) := by
  obtain ⟨hk', hpipe, hsleeps⟩ := next_outside (ht.ok p) hk ha hn
  have hdoes := next_does (ht.ok p) hn
  refine h.frame hpipe (fun q => ?_) (fun q => hdoes.sleeping) fun q hq hknows => ?_
  · by_cases hqp : q = p
    · right
      rw [hqp, advance_pc_self]
      refine ⟨hk, hk', ?_, ?_⟩
      · rintro ⟨-, m, hm⟩
        rw [advance_pc_self] at hm
        cases hsleeps _ hm
      · rintro ⟨-, bs, i, hm⟩
        rw [advance_pc_self] at hm
        cases hsleeps _ hm
    · by_cases hrun : n.2.2 = .runnable q
      · -- the child of `fork` had no thread
        right
        have hpc := advance_pc_runnable (s := s) hqp hrun
        rw [hrun] at hdoes
        refine ⟨by rw [ht.dead_of_runnable hdoes]; rfl, by rw [hpc]; rfl, ?_, ?_⟩
        · rintro ⟨-, m, hm⟩
          rw [hpc] at hm
          cases hm
        · rintro ⟨-, bs, i, hm⟩
          rw [hpc] at hm
          cases hm
      · exact .inl (advance_pc_ne hqp hrun)
  · refine hknows.of_killed (ht.ok q) fun hmid hkilled => ?_
    by_contra hk1
    rcases advance_killed (Bool.of_not_eq_false hk1) with hk2 | he
    · rw [hk2] at hkilled
      cases hkilled
    · rw [he] at hdoes
      have hvictim := hdoes.victim fault
      rw [hspare q hvictim] at hmid
      cases hmid

theorem PipeInv.go (ht : Threads s) (hr : (s.proc p).state = .running)
    (hn : next s.table s.shared p fault (s.pc p) = some n) (hspare : SparesWriters s (.go p fault)) :
    PipeInv (s.advance p n) := by
  by_cases hk : (s.pc p).holdsPipe = true
  · obtain ⟨k, hpc⟩ : ∃ k, s.pc p = k := ⟨_, rfl⟩
    have hknows := h.knows p
    rw [hpc] at hn hk hknows
    have hholds : (s.pc p).holdsPipe = true := by rwa [hpc]
    cases k with
    | wakeup c j k =>
      simp only [next] at hn
      split at hn
      · next hj =>
        cases hn
        refine h.own_none hr (fun q => h.alone hholds) (fun _ => h.lock p hholds) hknows
          (fun q hq => .inl (hq.resolve_right fun hw => ?_))
          fun q hq => .inl (hq.resolve_right fun hw => ?_)
        · rw [hpc] at hw
          have := slot?_eq_none hj q
          have := hw.2.1
          omega
        · rw [hpc] at hw
          have := slot?_eq_none hj q
          have := hw.2.1
          omega
      · next i hi =>
        cases hn
        exact h.wakeup ht hr hpc hk (slot?_eq_some hi)
    | writeTest bs i =>
      cases hn
      exact h.writeLoop hr (.inl hpc)
    | writeNext bs i =>
      cases hn
      exact h.writeLoop hr (.inr hpc)
    | writeStore bs i =>
      cases hn
      exact h.writeByte hr hpc
    | readTest n =>
      cases hn
      exact h.readLoop hr hpc
    | readCopy n i =>
      cases hn
      exact h.copyLoop hr hpc
    | writeSleep bs i =>
      cases hn
      exact h.sleep hholds (by rw [hpc]; exact fun _ => id) (by rw [hpc]; exact fun _ => id) (by simp)
        fun _ _ _ => hknows
    | readSleep n =>
      cases hn
      exact h.sleep hholds (by rw [hpc]; exact fun _ => id) (by rw [hpc]; exact fun _ => id)
        (fun _ _ => hknows) (by simp)
    | writeEnd i | readEnd i | closeEnd =>
      cases hn
      exact h.release hr hholds (by rw [hpc]; exact fun _ => id) (by rw [hpc]; exact fun _ => id) rfl
        id id
    | _ => cases hk
  · have hk : (s.pc p).holdsPipe = false := by simpa using hk
    by_cases ha : (s.pc p).acquiresPipe = true
    · obtain ⟨k, hpc⟩ : ∃ k, s.pc p = k := ⟨_, rfl⟩
      rw [hpc] at hn ha
      cases k with
      | writeAcquire bs i | readAcquire n =>
        simp only [next] at hn
        split at hn
        · next hfree =>
          cases hn
          exact h.acquire hr hfree rfl trivial (fun _ => .inl) fun _ => .inl
        · cases hn
      | closeAcquire writable =>
        simp only [next] at hn
        split at hn
        · next hfree =>
          cases hn
          cases writable with
          | true =>
            exact h.acquire hr hfree rfl trivial (fun _ _ => .inr ⟨rfl, Nat.zero_le _, rfl⟩)
              fun _ => .inl
          | false =>
            exact h.acquire hr hfree rfl trivial (fun _ => .inl)
              fun _ _ => .inr ⟨rfl, Nat.zero_le _, rfl⟩
        · cases hn
      | _ => cases ha
    · exact h.outside ht hn hk (by simpa using ha) hspare

end

theorem PipeInv.of_awake (h : PipeInv s) (hpipe : s'.shared.pipe = s.shared.pipe) (hpc : s'.pc = s.pc)
    (hproc : ∀ q, s'.proc q = s.proc q ∨
      (s'.proc q).state ≠ .sleeping ∧ (s'.proc q).killed = (s.proc q).killed) : PipeInv s' := by
  refine h.frame hpipe (fun q => .inl (by rw [hpc])) (fun q _ hs => ?_) fun q _ hk => ?_
  · rcases hproc q with hq | ⟨hq, -⟩
    · rwa [hq] at hs
    · exact absurd hs hq
  · rcases hproc q with hq | ⟨-, hq⟩
    · rwa [hq]
    · rwa [hq]

theorem PipeInv.step (h : PipeInv s) (ht : Threads s) (hs : Step s a s') (hspare : SparesWriters s a) :
    PipeInv s' := by
  cases hs.kind with
  | go hr hn => exact h.go ht hr hn hspare
  | @call p r k hpc hr hk hinit =>
    refine h.frame rfl (fun q => ?_) (fun _ _ hs => hs) fun _ _ hk => hk
    rw [goto_pc]
    split
    · next hq =>
      subst hq
      have hrun : ((s.goto q k).proc q).state ≠ .sleeping := by
        rw [show (s.goto q k).proc q = s.proc q from rfl, hr]
        nofun
      exact .inr ⟨by rw [hpc]; rfl, not_holdsPipe_of_isEntry hk, fun hq => hrun hq.1,
        fun hq => hrun hq.1⟩
    · exact .inl rfl
  | quiet hq => exact h.of_awake hq.pipe hq.pc hq.awake

theorem PipeInv.initial : PipeInv .initial where
  lock p hp := by
    simp only [State.initial] at hp
    split at hp <;> cases hp
  knows p := by
    simp only [State.initial]
    split <;> trivial
  reader q hq := by
    obtain ⟨-, n, hn⟩ := hq
    simp only [State.initial] at hn
    split at hn <;> cases hn
  writer q hq := by
    obtain ⟨-, bs, i, hn⟩ := hq
    simp only [State.initial] at hn
    split at hn <;> cases hn

/-- **No reader or writer is stranded.** In every run in which no `kill` hits a process in `pipewrite` between
the test of `killed` in a turn that stores a byte and the next such test, whenever `pi->lock` is free, a process
that sleeps in `piperead` finds the pipe empty and open for writing, and one that sleeps in `pipewrite` finds
it full and open for reading. -/
theorem pipe_sleepers (hspare : machine.AllSteps SparesWriters .initial as)
    (hrun : machine.run .initial as = some s) (hfree : s.shared.pipe.lock = none) (q : Slot) :
    (ReaderSleeps s q → s.shared.pipe.empty = true ∧ s.shared.pipe.writeopen = true) ∧
      (WriterSleeps s q → s.shared.pipe.full = true ∧ s.shared.pipe.readopen = true) := by
  have hstep : ∀ s a s', Threads s ∧ PipeInv s → SparesWriters s a → machine.step s a = some s' →
      Threads s' ∧ PipeInv s' := by
    rintro s a s' ⟨ht, hp⟩ ha hstep
    have hstep := step_cases hstep
    exact ⟨ht.step hstep, hp.step ht hstep ha⟩
  have h := Machine.run_invariant hstep ⟨Threads.initial, PipeInv.initial⟩ hspare hrun
  exact h.2.sleepers hfree q

theorem pipe_sleepers_small :
    ∃ s, machine.run .initial [.schedule 0, .call 0 (.readAcquire 1), .go 0 false, .go 0 false,
        .go 0 false] = some s ∧ s.shared.pipe.lock = none ∧ ReaderSleeps s 0 ∧
      s.shared.pipe.empty = true := by
  have hrun : ∃ s ∈ machine.run .initial [.schedule 0, .call 0 (.readAcquire 1), .go 0 false,
      .go 0 false, .go 0 false], s.shared.pipe.lock = none ∧ (s.proc 0).state = .sleeping ∧
        s.pc 0 = .asleep (.readAcquire 1) := by decide +kernel
  obtain ⟨s, hs, hfree, hst, hpc⟩ := hrun
  have hsleeps : ReaderSleeps s 0 := ⟨hst, 1, hpc⟩
  exact ⟨s, hs, hfree, hsleeps, ((pipe_sleepers (by decide +kernel) hs hfree 0).1 hsleeps).1⟩

/-- `init` forks processes 1 and 2 and sleeps in `piperead`; process 1 takes `n` steps in `pipewrite`, is killed
by process 2 and takes `k` more. -/
def strandedRun (n k : ℕ) : List Act := List.flatten
  [[.schedule 0, .call 0 (.forkScan 0)], steps 0 4, [.call 0 (.forkScan 0)], steps 0 5,
    [.call 0 (.readAcquire 1)], steps 0 3, [.schedule 1, .call 1 (.writeAcquire [7, 8] 0)], steps 1 n,
    [.schedule 2, .call 2 (.kill 2 0)], steps 2 2, steps 1 k]

/-- A byte is in the pipe, `pi->lock` is free, and the reader sleeps. -/
def Strands (as : List Act) : Prop := ∃ s, machine.run .initial as = some s ∧
  s.shared.pipe.lock = none ∧ ReaderSleeps s 0 ∧ s.shared.pipe.empty = false

theorem Strands.of_run (h : ∃ s ∈ machine.run .initial as, s.shared.pipe.lock = none ∧
    (s.proc 0).state = .sleeping ∧ s.pc 0 = .asleep (.readAcquire 1) ∧
    s.shared.pipe.empty = false) : Strands as := by
  obtain ⟨s, hs, hfree, hst, hpc, hempty⟩ := h
  exact ⟨s, hs, hfree, ⟨hst, 1, hpc⟩, hempty⟩

/-- Process 1 is killed after storing a byte, or just before that. -/
theorem pipe_reader_stranded : Strands (strandedRun 3 1) ∧ Strands (strandedRun 2 2) :=
  ⟨.of_run (by decide +kernel), .of_run (by decide +kernel)⟩

end Xv6.Sync
