import Xv6.Lib.Ring
import Xv6.Sync.Pipe
import Xv6.Vm.UserMem

/-!
# What `piperead` takes from the pipe

`piperead` with the reader's memory. While it sleeps others may change the pipe, and once it has left its
first loop it holds `pi->lock` until it returns: so a call is given by the states of the pipe in which it
gets the lock. It takes a byte from the ring before it copies it out. If `copyout` fails, the byte is
gone: one byte more has left the ring than the caller is told, and a result of 0 does not mean the end of
the data.
-/

namespace Xv6.Sync

open Lib List

/-- The loop of `piperead` that copies bytes to `addr`: the bytes copied, the pipe and the memory. The
destinations of the bytes copied so far are below `MAXVA`, so `addr + i` does not wrap around. -/
def pipereadLoop (addr : ℕ) : ℕ → Pipe → UserMem → ℕ → ℕ × Pipe × UserMem
  | 0, pi, m, i => (i, pi, m)
  | n + 1, pi, m, i =>
    if pi.empty then (i, pi, m)
    else
      let r := m.copyout (addr + i) [pi.next]
      if r.1 = -1 then (i, pi.take false, r.2)
      else pipereadLoop addr n (pi.take true) r.2 (i + 1)

/-- The return of a `piperead`: the value, the pipe as it was when the call left its first loop, and the
pipe and the memory at the end. -/
structure ReadReturn where
  ret : ℤ
  found : Pipe
  pipe : Pipe
  mem : UserMem

/-- `piperead(pi, addr, n)` of a process with memory `m`. Each time it gets `pi->lock` it finds whether it
has been killed, and the pipe. There is no return while it sleeps. -/
def piperead (addr n : ℕ) (m : UserMem) : List (Bool × Pipe) → Option ReadReturn
  | [] => none
  | (killed, pi) :: later =>
    if pi.empty ∧ pi.writeopen then
      if killed then some ⟨-1, pi, pi, m⟩ else piperead addr n m later
    else
      let r := pipereadLoop addr n pi m 0
      some ⟨r.1, pi, r.2.1, r.2.2⟩

/-- What a read of a pipe should do: the bytes returned are the oldest, they have left the ring, the others
have not, and 0 is the end of the data. -/
structure ReadReturn.Exact (x : ReadReturn) (addr : ℕ) : Prop where
  nread : x.pipe.nread = x.found.nread + UInt32.ofNat x.ret.toNat
  stored : x.mem.read addr x.ret.toNat = x.found.ring.take x.ret.toNat
  eof : x.ret = 0 → x.found.empty = true ∧ x.found.writeopen = false
  rest : x.pipe.ring = x.found.ring.drop x.ret.toNat

variable {addr n : ℕ} {pi : Pipe} {m : UserMem}

theorem length_ring (pi : Pipe) : pi.ring.length = (pi.nwrite - pi.nread).toNat := by
  rw [Pipe.ring, length_map, length_range]

theorem ring_eq_nil (h : pi.empty = true) : pi.ring = [] := by
  rw [← length_eq_zero_iff, length_ring]
  exact pi.empty_iff.mp h

theorem copyout_byte (m : UserMem) (a : ℕ) (ch : UInt8) :
    (m.walkaddr a = true ∧ m.copyout a [ch] = (0, m.write a [ch])) ∨
      (m.walkaddr a = false ∧ m.copyout a [ch] = (-1, m)) := by
  have hpage : m.walkaddr (a / PGSIZE * PGSIZE) = m.walkaddr a :=
    UserMem.walkaddr_congr (Nat.mul_div_cancel _ (Nat.succ_pos _))
  cases h : m.walkaddr a with
  | true =>
    refine .inl ⟨rfl, UserMem.copyout_of_mapped fun k hk => ?_⟩
    obtain rfl : k = 0 := by
      rw [length_singleton] at hk
      omega
    exact h
  | false =>
    refine .inr ⟨rfl, ?_⟩
    rw [UserMem.copyout, length_singleton, UserMem.copyoutLoop, if_neg (cons_ne_nil ch [])]
    dsimp only
    rw [hpage, h, if_neg Bool.false_ne_true]

/-- The bytes that leave the ring for `u` bytes copied, of `k` that could have been. -/
def removed (u k : ℕ) : ℕ := if u < k then u + 1 else u

/-- The loop has copied `u` bytes, up to the first that cannot be stored. That one is lost. -/
structure Copied (addr n : ℕ) (pi : Pipe) (m : UserMem) (i u : ℕ) (r : ℕ × Pipe × UserMem) :
    Prop where
  le : u ≤ min n pi.ring.length
  mapped : m.Mapped (addr + i) u
  stop : u < min n pi.ring.length → m.walkaddr (addr + i + u) = false
  ret : r.1 = i + u
  mem : r.2.2 = m.write (addr + i) (pi.ring.take u)
  nread : r.2.1.nread = pi.nread + UInt32.ofNat (removed u (min n pi.ring.length))
  rest : r.2.1.ring = pi.ring.drop (removed u (min n pi.ring.length))

theorem Copied.done {i : ℕ} (h : min n pi.ring.length = 0) : Copied addr n pi m i 0 (i, pi, m) where
  le := Nat.zero_le _
  mapped k hk := absurd hk (Nat.not_lt_zero k)
  stop hlt := by omega
  ret := rfl
  mem := by rw [take_zero, UserMem.write_nil]
  nread := by
    rw [h]
    exact (UInt32.add_zero _).symm
  rest := by
    rw [h]
    rfl

theorem Copied.lost {i : ℕ} (hempty : pi.empty = false) (hmap : m.walkaddr (addr + i) = false) :
    Copied addr (n + 1) pi m i 0 (i, pi.take false, m) := by
  have hring := Pipe.ring_take hempty false
  have hlen : min (n + 1) pi.ring.length = min n (pi.take false).ring.length + 1 := by
    rw [hring, length_cons]
    omega
  refine ⟨Nat.zero_le _, fun k hk => absurd hk (Nat.not_lt_zero k), fun _ => hmap, rfl, ?_, ?_, ?_⟩
  · rw [take_zero, UserMem.write_nil]
  · rw [hlen]
    rfl
  · rw [hlen, hring]
    rfl

theorem Copied.cons {i u : ℕ} {r : ℕ × Pipe × UserMem} (hempty : pi.empty = false)
    (hmap : m.walkaddr (addr + i) = true)
    (h : Copied addr n (pi.take true) (m.write (addr + i) [pi.next]) (i + 1) u r) :
    Copied addr (n + 1) pi m i (u + 1) r := by
  have hring := Pipe.ring_take hempty true
  have hlen : min (n + 1) pi.ring.length = min n (pi.take true).ring.length + 1 := by
    rw [hring, length_cons]
    omega
  have hremoved : ∀ k, removed (u + 1) (k + 1) = removed u k + 1 := by
    intro k
    unfold removed
    by_cases hu : u < k
    · rw [if_pos hu, if_pos (by omega)]
    · rw [if_neg hu, if_neg (by omega)]
  have hsum : addr + (i + 1) = addr + i + 1 := by omega
  obtain ⟨hle, hmapped, hstop, hret, hmem, hnread, hrest⟩ := h
  rw [hsum] at hmapped hstop hmem
  refine ⟨by omega, fun k hk => ?_, fun hlt => ?_, by omega, ?_, ?_, ?_⟩
  · cases k with
    | zero => exact hmap
    | succ k =>
      have hk' := hmapped k (by omega)
      rwa [UserMem.walkaddr_write, Nat.add_assoc, Nat.add_comm 1] at hk'
  · have hstop' := hstop (by omega)
    rwa [UserMem.walkaddr_write, Nat.add_assoc, Nat.add_comm 1] at hstop'
  · rw [hmem, hring, take_succ_cons]
    exact UserMem.write_append (addr + i) [pi.next] _
  · rw [hnread, hlen, hremoved, ← counter_succ, Pipe.take]
    dsimp only
    rw [UInt32.add_assoc, UInt32.add_comm 1, ← UInt32.add_assoc]
  · rw [hrest, hlen, hremoved, hring]
    rfl

theorem pipereadLoop_spec (addr n : ℕ) (pi : Pipe) (m : UserMem) (i : ℕ) :
    ∃ u, Copied addr n pi m i u (pipereadLoop addr n pi m i) := by
  induction n generalizing pi m i with
  | zero => exact ⟨0, .done (Nat.zero_min _)⟩
  | succ n ih =>
    rw [pipereadLoop]
    cases hempty : pi.empty with
    | true =>
      rw [if_pos rfl]
      exact ⟨0, .done (by rw [ring_eq_nil hempty]; rfl)⟩
    | false =>
      rw [if_neg Bool.false_ne_true]
      dsimp only
      rcases copyout_byte m (addr + i) pi.next with ⟨hmap, hcopy⟩ | ⟨hmap, hcopy⟩
      · rw [hcopy, if_neg (show ¬ (0 : ℤ) = -1 by decide)]
        obtain ⟨u, hu⟩ := ih (pi.take true) (m.write (addr + i) [pi.next]) (i + 1)
        exact ⟨u + 1, .cons hempty hmap hu⟩
      · rw [hcopy, if_pos rfl]
        exact ⟨0, .lost hempty hmap⟩

theorem piperead_eq_some {visits : List (Bool × Pipe)} {x : ReadReturn}
    (h : piperead addr n m visits = some x) : x.ret = -1 ∨ (¬ (x.found.empty ∧ x.found.writeopen) ∧ ∃ u,
      Copied addr n x.found m 0 u (x.ret.toNat, x.pipe, x.mem) ∧ x.ret = (u : ℤ)) := by
  induction visits with
  | nil => cases h
  | cons visit later ih =>
    obtain ⟨killed, pi⟩ := visit
    rw [piperead] at h
    by_cases hwait : pi.empty ∧ pi.writeopen
    · rw [if_pos hwait] at h
      cases killed with
      | true =>
        cases h
        exact .inl rfl
      | false => exact ih h
    · rw [if_neg hwait] at h
      cases h
      obtain ⟨u, hu⟩ := pipereadLoop_spec addr n pi m 0
      refine .inr ⟨hwait, u, hu, ?_⟩
      dsimp only
      rw [hu.ret, Nat.zero_add]

theorem read_write_self (m : UserMem) (a : ℕ) (bs : List UInt8) :
    (m.write a bs).read a bs.length = bs := by
  obtain ⟨rest, h⟩ := UserMem.read_write m a (Nat.le_refl bs.length)
  have hlen := congrArg length h
  rw [UserMem.length_read, length_append] at hlen
  obtain rfl : rest = [] := eq_nil_of_length_eq_zero (by omega)
  rw [h, append_nil]

/-- **A read takes from the pipe exactly what it returns**, if and only if each byte that it takes from the
ring can be stored: the memory at the first `min n (bytes in the ring)` addresses is mapped. -/
theorem piperead_exact_iff (hn : 0 < n) {visits : List (Bool × Pipe)} {x : ReadReturn}
    (h : piperead addr n m visits = some x) (hret : 0 ≤ x.ret) :
    x.Exact addr ↔ m.Mapped addr (min n x.found.ring.length) := by
  rcases piperead_eq_some h with hkill | ⟨hwait, u, hu, hx⟩
  · omega
  obtain ⟨hle, hmapped, hstop, -, hmem, hnread, hrest⟩ := hu
  dsimp only at hmem hnread hrest
  rw [Nat.add_zero] at hmapped hstop hmem
  have hu : x.ret.toNat = u := by omega
  constructor
  · intro hexact
    have hall : ¬ u < min n x.found.ring.length := by
      intro hlt
      have hcount := hexact.nread
      have hlen := length_ring x.found
      have hbound := (x.found.nwrite - x.found.nread).toNat_lt
      rw [hnread, hu, removed, if_pos hlt, counter_inj _ (by omega) (by omega)] at hcount
      omega
    obtain rfl : u = min n x.found.ring.length := by omega
    exact hmapped
  · intro hall
    obtain rfl : u = min n x.found.ring.length := by
      by_contra hne
      have hlt : u < min n x.found.ring.length := by omega
      have hbad := hstop hlt
      rw [hall u hlt] at hbad
      cases hbad
    rw [removed, if_neg (Nat.lt_irrefl _)] at hnread hrest
    refine ⟨by rw [hu]; exact hnread, ?_, fun hzero => ?_, by rw [hu]; exact hrest⟩
    · have hlen : (x.found.ring.take (min n x.found.ring.length)).length =
          min n x.found.ring.length := by
        rw [length_take]
        omega
      have hself := read_write_self m addr (x.found.ring.take (min n x.found.ring.length))
      rw [hlen] at hself
      rw [hu, hmem, hself]
    · have hempty : x.found.empty = true := by
        rw [Pipe.empty_iff, ← length_ring]
        omega
      refine ⟨hempty, ?_⟩
      cases hopen : x.found.writeopen with
      | false => rfl
      | true => exact absurd ⟨hempty, hopen⟩ hwait

/-- A pipe with one byte in it and both ends open. -/
def oneByte : Pipe where
  lock := none
  data _ := 7
  nread := 0
  nwrite := 1
  readopen := true
  writeopen := true
  freed := false
  stored := [7]
  delivered := []

/-- With the memory mapped the byte is read. -/
theorem piperead_exact_mapped :
    ∃ x, piperead 0 1 ⟨fun _ => true, fun _ => 0⟩ [(false, oneByte)] = some x ∧ x.Exact 0 := by
  obtain ⟨x, hx⟩ : ∃ x, x = (⟨(pipereadLoop 0 1 oneByte ⟨fun _ => true, fun _ => 0⟩ 0).1, oneByte,
      (pipereadLoop 0 1 oneByte ⟨fun _ => true, fun _ => 0⟩ 0).2.1,
      (pipereadLoop 0 1 oneByte ⟨fun _ => true, fun _ => 0⟩ 0).2.2⟩ : ReadReturn) := ⟨_, rfl⟩
  have hrun : piperead 0 1 ⟨fun _ => true, fun _ => 0⟩ [(false, oneByte)] = some x := by
    rw [hx]
    rfl
  have hret : 0 ≤ x.ret := by
    rw [hx]
    exact Int.natCast_nonneg _
  refine ⟨x, hrun, (piperead_exact_iff Nat.one_pos hrun hret).mpr fun k hk => ?_⟩
  obtain rfl : k = 0 := by omega
  rfl

/-- A read into memory that is not mapped returns 0 while the writer is there, and the byte is gone. -/
theorem piperead_loses_byte : ∃ x, piperead 0 1 ⟨fun _ => false, fun _ => 0⟩ [(false, oneByte)] = some x ∧
    x.ret = 0 ∧ x.found = oneByte ∧ x.found.writeopen = true ∧ x.found.ring = [7] ∧
    x.pipe.nread = x.found.nread + 1 ∧ x.pipe.ring = [] ∧ ¬ x.Exact 0 := by
  refine ⟨⟨0, oneByte, oneByte.take false, ⟨fun _ => false, fun _ => 0⟩⟩, rfl, rfl, rfl, rfl, rfl, rfl,
    rfl, fun hexact => ?_⟩
  have h := (hexact.eof rfl).2
  cases h

end Xv6.Sync
