import Xv6.Proc.Pids
import Xv6.Vm.UserMem

/-!
# The process-query system calls

`name` and `state` look a pid up in the process table, `sys_procname` and `sys_state` copy what they
find to the caller, `sys_year` copies the pids in use. The two lookups scan all slots, free ones too,
and return a null pointer when they find nothing; their callers pass it to `strlen`.

The lookups release `wait_lock` before they return, so the table may change before the slot that they have
found is read: `sys_procname` looks the pid up in one table, `strlen` reads the name in another and `copyout`
in a third, and `sys_state` reads the state in a second table. A lookup is one step. `query_safe_iff` says for
which pids the calls do what a query should while the slot stays as it was found. `sys_year` is evaluated on
a table that does not change.
-/

namespace Xv6.ProcTable

open Xv6.Lib List

/-! ## The system calls -/

/-- `name(pid)`: the first slot with this pid, whose name the result points to, or the null pointer. -/
def State.name (s : State) (pid : ℤ) : Option Slot := s.find fun p => p.pid == pid

/-- `procstate2str`. -/
def procstate2str : ProcState → List UInt8
  | .unused => literal "UNUSED"
  | .used => literal "USED"
  | .sleeping => literal "SLEEPING"
  | .runnable => literal "RUNNABLE"
  | .running => literal "RUNNING"
  | .zombie => literal "ZOMBIE"

/-- `state(pid)`: the state of the first slot with this pid as a string, or the null pointer. The lock is
released before the state is read, in the table `s2`. -/
def State.state (s s2 : State) (pid : ℤ) : Option (List UInt8) :=
  (s.find fun p => p.pid == pid).map fun i => procstate2str (s2.proc i).state

/-- What a kernel string access can do wrong. -/
inductive Fault where
  /-- the null pointer is dereferenced -/
  | null
  /-- a string is read past the end of its object -/
  | overrun
deriving DecidableEq

/-- `copyout(myproc()->pagetable, user_ptr, str, strlen(str) + 1)` and the result of the call, for the string
as `strlen` reads it, `str`, and as `copyout` does, `src`. -/
def copyString (m : UserMem) (addr : ℕ) (str src : List UInt8) : Except Fault (ℤ × UserMem) :=
  match strlen str with
  | none => .error .overrun
  | some n =>
    let r := m.copyout addr (src.take (n + 1))
    .ok (if r.1 < 0 then -1 else 1, r.2)

/-- `sys_procname(pid, addr)` of a process with memory `m`: `name` looks in the table `s`, `strlen` reads in
`s2` and `copyout` in `s3`. -/
def sysProcname (s s2 s3 : State) (m : UserMem) (pid : ℤ) (addr : ℕ) : Except Fault (ℤ × UserMem) :=
  if pid < 0 then .ok (-1, m)
  else
    match s.name pid with
    | none => .error .null
    | some i => copyString m addr (s2.proc i).name (s3.proc i).name

/-- `sys_state(pid, addr)`. The string is a constant. -/
def sysState (s s2 : State) (m : UserMem) (pid : ℤ) (addr : ℕ) : Except Fault (ℤ × UserMem) :=
  if pid < 0 then .ok (-1, m)
  else
    match s.state s2 pid with
    | none => .error .null
    | some str => copyString m addr str str

/-- The bytes of an `int`, least significant first. -/
def intBytes (v : ℤ) : List UInt8 :=
  (List.range 4).map fun k => UInt8.ofNat ((v % 2 ^ 32).toNat / 256 ^ k)

/-- The loop of `sys_year` over the slots `is`, with `count` pids written. -/
def yearLoop (s : State) (userBuf : ℕ) (size : ℤ) : List Slot → ℤ → UserMem → ℤ × UserMem
  | [], count, m => (count, m)
  | i :: is, count, m =>
    if count < size then
      if (s.proc i).InUse then
        let r := m.copyout (userBuf + 4 * count.toNat) (intBytes (s.proc i).pid)
        if r.1 < 0 then (-1, r.2) else yearLoop s userBuf size is (count + 1) r.2
      else yearLoop s userBuf size is count m
    else (count, m)

/-- `sys_year(user_buf, user_buf_size)`. -/
def sysYear (s : State) (m : UserMem) (userBuf : ℕ) (size : ℤ) : ℤ × UserMem :=
  if size ≤ 0 then (-1, m) else yearLoop s userBuf size (List.finRange NPROC) 0 m

/-! ## What the lookups find -/

variable {s s2 s3 : State} {m : UserMem} {pid : ℤ} {addr : ℕ}

/-- `r` is the result of delivering the string `str` to the caller: its text and NUL are stored and
the call returns 1, or it returns -1 because the destination is not mapped. -/
def Delivers (m : UserMem) (addr : ℕ) (str : List UInt8) (r : Except Fault (ℤ × UserMem)) : Prop :=
  if m.Mapped addr ((text str).length + 1) then r = .ok (1, m.write addr (text str ++ [0]))
  else ∃ m', r = .ok (-1, m')

theorem delivers_copyString {str : List UInt8} (h : 0 ∈ str) :
    Delivers m addr str (copyString m addr str str) := by
  have hlen : (text str ++ [0]).length = (text str).length + 1 := by simp
  unfold Delivers copyString
  simp only [strlen_eq_of_mem h, take_strlen h]
  split
  · next hm =>
    rw [UserMem.copyout_of_mapped (by rw [hlen]; exact hm)]
    simp
  · have hnot : ¬ m.Mapped addr (text str ++ [0]).length := by rwa [hlen]
    obtain ⟨m', hm'⟩ := UserMem.copyout_of_not_mapped hnot
    exact ⟨m', by rw [hm']; simp⟩

theorem zero_mem_procstate2str (c : ProcState) : 0 ∈ procstate2str c := by
  cases c <;> decide

theorem Inv.find_pid (h : Inv s) {i : Slot} (hi : (s.proc i).InUse) :
    (s.find fun p => p.pid == (s.proc i).pid) = some i := by
  cases hf : s.find fun p => p.pid == (s.proc i).pid with
  | none =>
    have := find?_eq_none.mp hf i (mem_finRange i)
    simp at this
  | some j =>
    have hj : (s.proc j).pid = (s.proc i).pid := by simpa using mem_of_find hf
    have huse : (s.proc j).InUse := by
      by_contra hfree
      have := (h.unused j hfree).1
      have := (h.pid i hi).1
      omega
    rw [h.inj j i huse hi hj]

theorem find_pid_none (h : ∀ i, (s.proc i).pid ≠ pid) : (s.find fun p => p.pid == pid) = none := by
  refine find?_eq_none.mpr fun i _ => ?_
  simpa using h i

theorem find_pid_free (hfree : ∀ i, (s.proc i).pid = pid → ¬ (s.proc i).InUse) {j : Slot}
    (hj : (s.proc j).pid = pid) :
    ∃ i, (s.find fun p => p.pid == pid) = some i ∧ ¬ (s.proc i).InUse := by
  cases hf : s.find fun p => p.pid == pid with
  | none =>
    have := find?_eq_none.mp hf j (mem_finRange j)
    simp [hj] at this
  | some i => exact ⟨i, rfl, hfree i (by simpa using mem_of_find hf)⟩

/-! ## `sys_year` -/

/-- The processes in use among the slots `is`, in their order. -/
def inUse (s : State) (is : List Slot) : List Proc := (is.map s.proc).filter fun p => p.InUse

/-- The bytes that `sys_year` stores for `ps`. -/
def pidBytes (ps : List Proc) : List UInt8 := ps.flatMap fun p => intBytes p.pid

/-- The loop stores the pids of `k` processes, or stops at the first whose place is not mapped. -/
theorem yearLoop_cases (userBuf size : ℕ) (is : List Slot) {c k : ℕ} (hc : c ≤ size)
    (hk : k = min (size - c) (inUse s is).length) :
    (m.Mapped (userBuf + 4 * c) (4 * k) ∧ yearLoop s userBuf size is c m =
        (((c + k : ℕ) : ℤ), m.write (userBuf + 4 * c) (pidBytes ((inUse s is).take k)))) ∨
      ∃ j < k, ∃ m', m.Mapped (userBuf + 4 * c) (4 * j) ∧ ¬ m.Mapped (userBuf + 4 * (c + j)) 4 ∧
        yearLoop s userBuf size is c m = (-1, m') ∧
        ∀ a, ¬ (userBuf + 4 * (c + j) ≤ a ∧ a < userBuf + 4 * (c + j) + 4) →
          m'.byte a = (m.write (userBuf + 4 * c) (pidBytes ((inUse s is).take j))).byte a := by
  induction is generalizing c k m with
  | nil =>
    obtain rfl : k = 0 := by simpa [inUse] using hk
    exact .inl ⟨fun a ha => by omega, by simp [yearLoop, inUse, pidBytes]⟩
  | cons i is ih =>
    rw [yearLoop]
    by_cases hlt : c < size
    · rw [if_pos (by exact_mod_cast hlt)]
      by_cases hi : (s.proc i).InUse
      · have hcons : inUse s (i :: is) = s.proc i :: inUse s is := by simp [inUse, hi]
        have hlen : (intBytes (s.proc i).pid).length = 4 := by simp [intBytes]
        have hnext : userBuf + 4 * (c + 1) = userBuf + 4 * c + (intBytes (s.proc i).pid).length := by
          rw [hlen]; omega
        have hwrite : ∀ ps, (m.write (userBuf + 4 * c) (intBytes (s.proc i).pid)).write
            (userBuf + 4 * (c + 1)) (pidBytes ps) =
              m.write (userBuf + 4 * c) (pidBytes (s.proc i :: ps)) := fun ps => by
          rw [hnext, UserMem.write_append]
          rfl
        rw [hcons, length_cons] at hk
        obtain ⟨j, rfl⟩ : ∃ j, k = j + 1 := ⟨k - 1, by omega⟩
        rw [if_pos hi, Int.toNat_natCast, hcons]
        by_cases hfirst : m.Mapped (userBuf + 4 * c) 4
        · have happ : ∀ n, m.Mapped (userBuf + 4 * (c + 1)) (4 * n) →
              m.Mapped (userBuf + 4 * c) (4 * (n + 1)) := fun n hn => by
            have := hfirst.append (j := 4 * n) (by rwa [hnext, hlen] at hn)
            rwa [show 4 + 4 * n = 4 * (n + 1) by omega] at this
          rw [UserMem.copyout_of_mapped (by rwa [hlen])]
          simp only [Int.lt_irrefl, if_false]
          rw [show ((c : ℤ) + 1) = ((c + 1 : ℕ) : ℤ) by push_cast; rfl]
          rcases ih (m := m.write (userBuf + 4 * c) (intBytes (s.proc i).pid)) (c := c + 1) (k := j)
            (by omega) (by omega) with ⟨hm, hrun⟩ | ⟨n, hn, m', hm, hbad, hrun, hframe⟩
          · rw [hrun, hwrite, take_succ_cons, show c + 1 + j = c + (j + 1) by omega]
            exact .inl ⟨happ j hm, rfl⟩
          · rw [show c + 1 + n = c + (n + 1) by omega] at hbad hframe
            rw [hwrite] at hframe
            exact .inr ⟨n + 1, by omega, m', happ n hm, hbad, hrun, hframe⟩
        · have hnot : ¬ m.Mapped (userBuf + 4 * c) (intBytes (s.proc i).pid).length := by rwa [hlen]
          obtain ⟨m', hm'⟩ := UserMem.copyout_of_not_mapped hnot
          refine .inr ⟨0, by omega, m', fun a ha => by omega, hfirst, by rw [hm']; rfl, fun a ha => ?_⟩
          rw [Nat.add_zero, ← hlen] at ha
          have := UserMem.byte_copyoutLoop_of_notMem (m := m) (intBytes (s.proc i).pid).length ha
          rw [take_zero, pidBytes, flatMap_nil, UserMem.write_nil, ← this]
          exact congrArg (fun r => r.2.byte a) hm'.symm
      · have hskip : inUse s (i :: is) = inUse s is := by simp [inUse, hi]
        rw [if_neg hi, hskip]
        exact ih hc (by rw [hk, hskip])
    · obtain rfl : k = 0 := by omega
      rw [if_neg (by exact_mod_cast hlt)]
      exact .inl ⟨fun a ha => by omega, by simp [pidBytes]⟩

theorem yearLoop_of_mapped (userBuf size : ℕ) (is : List Slot) {c k : ℕ} (hc : c ≤ size)
    (hk : k = min (size - c) (inUse s is).length) (hm : m.Mapped (userBuf + 4 * c) (4 * k)) :
    yearLoop s userBuf size is c m = (((c + k : ℕ) : ℤ),
      m.write (userBuf + 4 * c) (((inUse s is).take k).flatMap fun p => intBytes p.pid)) := by
  rcases yearLoop_cases userBuf size is hc hk with ⟨-, hrun⟩ | ⟨j, hj, -, -, hbad, -⟩
  · exact hrun
  · refine absurd (fun a ha => ?_) hbad
    have := hm (4 * j + a) (by omega)
    rwa [show userBuf + 4 * (c + j) + a = userBuf + 4 * c + (4 * j + a) by omega]

/-- **`sys_year`.** For a size that is not positive the call fails and writes nothing. Otherwise, with `k`
the smaller of the size and the number of slots in use: if the first `k` entries of the buffer are mapped the
call returns `k`, these entries are the pids of the first slots in use in table order, and no other byte
changes. If not, it returns -1 at the first entry `j` that is not mapped: the entries before it are written
and no byte outside them and this entry changes. -/
theorem sysYear_exact (s : State) (m : UserMem) (userBuf : ℕ) (size : ℤ) :
    (size ≤ 0 → sysYear s m userBuf size = (-1, m)) ∧
    (0 < size → ∃ k : ℕ, (k : ℤ) = min size (inUse s (List.finRange NPROC)).length ∧
      (m.Mapped userBuf (4 * k) → sysYear s m userBuf size =
        ((k : ℤ), m.write userBuf (pidBytes ((inUse s (List.finRange NPROC)).take k)))) ∧
      (¬ m.Mapped userBuf (4 * k) → ∃ j < k, ∃ m',
        m.Mapped userBuf (4 * j) ∧ ¬ m.Mapped (userBuf + 4 * j) 4 ∧ sysYear s m userBuf size = (-1, m') ∧
        ∀ a, ¬ (userBuf + 4 * j ≤ a ∧ a < userBuf + 4 * j + 4) → m'.byte a =
          (m.write userBuf (pidBytes ((inUse s (List.finRange NPROC)).take j))).byte a)) := by
  constructor
  · intro hsize
    rw [sysYear, if_pos hsize]
  · intro hsize
    obtain ⟨n, rfl⟩ := Int.eq_ofNat_of_zero_le hsize.le
    rw [sysYear, if_neg (by omega)]
    refine ⟨min n (inUse s (finRange NPROC)).length, by omega, ?_⟩
    have hcases := yearLoop_cases (s := s) (m := m) userBuf n (finRange NPROC) (Nat.zero_le n) rfl
    simp only [Nat.mul_zero, Nat.add_zero, Nat.zero_add, Nat.sub_zero] at hcases
    rcases hcases with ⟨hm, hrun⟩ | ⟨j, hj, m', hm, hbad, hrun, hframe⟩
    · exact ⟨fun _ => hrun, fun hno => absurd hm hno⟩
    · refine ⟨fun hall => absurd (fun a ha => ?_) hbad, fun _ => ⟨j, hj, m', hm, hbad, hrun, hframe⟩⟩
      rw [Nat.add_assoc]
      exact hall (4 * j + a) (by omega)

/-! ## When the queries are safe -/

/-- The queries for `pid` do what they should, by the table `s` in which they look it up: without a process in
use that has this pid both return -1, with one they deliver its name and its state. -/
def Safe (s s2 s3 : State) (m : UserMem) (pid : ℤ) (addr : ℕ) : Prop :=
  ((¬ ∃ i, (s.proc i).InUse ∧ (s.proc i).pid = pid) →
    (∃ m', sysProcname s s2 s3 m pid addr = .ok (-1, m')) ∧
      ∃ m', sysState s s2 m pid addr = .ok (-1, m')) ∧
  ∀ i, (s.proc i).InUse → (s.proc i).pid = pid →
    Delivers m addr (s.proc i).name (sysProcname s s2 s3 m pid addr) ∧
      Delivers m addr (procstate2str (s.proc i).state) (sysState s s2 m pid addr)

/-- The slot that the lookup finds has the same name and state when it is read. -/
structure Stays (s s2 s3 : State) (pid : ℤ) : Prop where
  strlen : ∀ i, s.name pid = some i → (s2.proc i).name = (s.proc i).name
  copyout : ∀ i, s.name pid = some i → (s3.proc i).name = (s.proc i).name
  state : ∀ i, s.name pid = some i → (s2.proc i).state = (s.proc i).state

theorem Stays.refl (s : State) (pid : ℤ) : Stays s s s pid :=
  ⟨fun _ _ => rfl, fun _ _ => rfl, fun _ _ => rfl⟩

/-- While the slot stays as it is, the calls copy strings of the table that the lookup saw. -/
theorem Stays.run (h : Stays s s2 s3 pid) (hpid : 0 ≤ pid) {i : Slot} (hi : s.name pid = some i) :
    sysProcname s s2 s3 m pid addr = copyString m addr (s.proc i).name (s.proc i).name ∧
      sysState s s2 m pid addr =
        copyString m addr (procstate2str (s.proc i).state) (procstate2str (s.proc i).state) := by
  have hfind : (s.find fun p => p.pid == pid) = some i := hi
  rw [sysProcname, sysState, if_neg (by omega), if_neg (by omega), hi, State.state, hfind]
  dsimp only [Option.map_some]
  rw [h.strlen i hi, h.copyout i hi, h.state i hi]
  exact ⟨rfl, rfl⟩

theorem Inv.delivers (h : Inv s) {i : Slot} (hi : (s.proc i).InUse)
    (hstays : Stays s s2 s3 (s.proc i).pid) :
    Delivers m addr (s.proc i).name (sysProcname s s2 s3 m (s.proc i).pid addr) ∧
      Delivers m addr (procstate2str (s.proc i).state) (sysState s s2 m (s.proc i).pid addr) := by
  have hpos := (h.pid i hi).1
  obtain ⟨hname, hstate⟩ := hstays.run (m := m) (by omega) (h.find_pid hi)
  rw [hname, hstate]
  exact ⟨delivers_copyString (h.name i).2, delivers_copyString (zero_mem_procstate2str _)⟩

/-- A process's memory with every page mapped. -/
def allMapped : UserMem := ⟨fun _ => true, fun _ => 0⟩

/-- The process table after `userinit`. -/
def booted : State := (State.initial.userinit).getD .initial

/-- The table after the first process has replaced its program by `sh`. -/
def replaced : State := (machine.run booted [.schedule 0, .exec 0 (literal "sh")]).getD booted

/-- After boot, a query for a pid that was never given out dereferences the null pointer, and the
query for pid 0 reports a free slot. A name that changes after `strlen` has read it is not delivered. -/
theorem query_unsafe_after_boot :
    machine.Reachable booted ∧ machine.Reachable replaced ∧
      sysProcname booted booted booted allMapped 5 0 = .error .null ∧
      sysState booted booted allMapped 5 0 = .error .null ∧
      (sysState booted booted allMapped 0 0).map Prod.fst = .ok 1 ∧
      ¬ Safe booted booted booted allMapped 5 0 ∧ ¬ Safe booted booted booted allMapped 0 0 ∧
      ¬ Safe booted booted replaced allMapped 1 0 := by
  have hstate : (sysState booted booted allMapped 0 0).map Prod.fst = .ok 1 := rfl
  have hbooted : machine.Reachable booted := Machine.Reachable.of_run (.init rfl) [.userinit] rfl
  refine ⟨hbooted, hbooted.of_run [.schedule 0, .exec 0 (literal "sh")] rfl, rfl, rfl, hstate, ?_, ?_, ?_⟩
  · intro hs
    obtain ⟨⟨m', hm'⟩, -⟩ := hs.1 (by decide +kernel)
    cases hm'
  · intro hs
    obtain ⟨-, m', hm'⟩ := hs.1 (by decide +kernel)
    rw [hm'] at hstate
    cases hstate
  · intro hs
    have hfirst : (sysProcname booted booted replaced allMapped 1 0).map (fun r => r.2.byte 0) = .ok 115 := rfl
    have hd := (hs.2 0 (by decide +kernel) rfl).1
    rw [Delivers, if_pos (by decide +kernel)] at hd
    rw [hd] at hfirst
    revert hfirst
    decide +kernel

/-- **The process queries.** In every reachable process table the queries for a pid whose slot stays as it is
until it is read are safe exactly if a process in use has it, or a free slot has it (the pid is 0) and the
destination is not mapped. For a pid that no slot has they hand the null pointer to `strlen`. -/
theorem query_safe_iff (h : machine.Reachable s) (hpid : 0 ≤ pid) (hstays : Stays s s2 s3 pid) :
    Safe s s2 s3 m pid addr ↔
      (∃ i, (s.proc i).InUse ∧ (s.proc i).pid = pid) ∨
        (∃ i, (s.proc i).pid = pid) ∧ m.walkaddr addr = false := by
  have hinv := inv_of_reachable h
  by_cases huse : ∃ i, (s.proc i).InUse ∧ (s.proc i).pid = pid
  · refine iff_of_true ⟨fun hno => absurd huse hno, ?_⟩ (Or.inl huse)
    rintro i hi rfl
    exact hinv.delivers hi hstays
  have hfree : ∀ i, (s.proc i).pid = pid → ¬ (s.proc i).InUse := fun i hi hu => huse ⟨i, hu, hi⟩
  have hsafe : Safe s s2 s3 m pid addr ↔ (∃ m', sysProcname s s2 s3 m pid addr = .ok (-1, m')) ∧
      ∃ m', sysState s s2 m pid addr = .ok (-1, m') :=
    ⟨fun hs => hs.1 huse, fun hs => ⟨fun _ => hs, fun i hi hp => absurd hi (hfree i hp)⟩⟩
  rw [hsafe, or_iff_right huse]
  by_cases hslot : ∃ i, (s.proc i).pid = pid
  · obtain ⟨j, hj⟩ := hslot
    obtain ⟨i, hf, hi⟩ := find_pid_free hfree hj
    obtain ⟨hrunName, hrunState⟩ := hstays.run (m := m) hpid hf
    rw [hrunName, hrunState]
    -- the free slot's name is empty: one byte is copied, and seven for its state
    have hstate : (s.proc i).state = .unused := by simpa [Proc.InUse] using hi
    have hname : text (s.proc i).name = [] := by
      obtain ⟨c, cs, hc⟩ := exists_cons_of_ne_nil (l := (s.proc i).name) (fun h0 => by
        have := (hinv.name i).1
        simp [h0] at this)
      have := (hinv.unused i hi).2
      simp only [hc, head?_cons, Option.some.injEq] at this
      simp [hc, this, text]
    have hd : Delivers m addr (s.proc i).name _ := delivers_copyString (hinv.name i).2
    have hd' : Delivers m addr (procstate2str .unused) _ :=
      delivers_copyString (zero_mem_procstate2str .unused)
    rw [hstate]
    constructor
    · rintro ⟨⟨m', hm'⟩, -⟩
      refine ⟨⟨j, hj⟩, ?_⟩
      by_contra hmap
      have hone : m.Mapped addr 1 := fun k hk => by
        obtain rfl : k = 0 := by omega
        simpa using hmap
      rw [Delivers, hname, if_pos (by simpa using hone), hm'] at hd
      simp at hd
    · rintro ⟨-, hmap⟩
      have hnot : ∀ n, ¬ m.Mapped addr (n + 1) := fun n hm => by
        have := hm 0 (by omega)
        simp [hmap] at this
      rw [Delivers, if_neg (hnot _)] at hd hd'
      exact ⟨hd, hd'⟩
  · have hnone : s.name pid = none := find_pid_none fun i hi => hslot ⟨i, hi⟩
    have hneg : ¬ pid < 0 := by omega
    simp [sysProcname, hneg, hnone, hslot]

theorem query_safe_iff_init : machine.Reachable booted ∧ Safe booted booted booted allMapped 1 0 :=
  have h : machine.Reachable booted := Machine.Reachable.of_run (.init rfl) [.userinit] rfl
  ⟨h, (query_safe_iff h (by decide) (.refl booted 1)).mpr (Or.inl ⟨0, by decide +kernel⟩)⟩

/-! ## Names -/

/-- At most the 16 bytes of a name are stored, whatever the tables are in which it is read. -/
theorem Inv.sysProcname_frame (h : Inv s2) {r : ℤ} {m' : UserMem}
    (hrun : sysProcname s s2 s3 m pid addr = .ok (r, m')) {a : ℕ}
    (ha : ¬ (addr ≤ a ∧ a < addr + NAMESIZE)) : m'.byte a = m.byte a := by
  rw [sysProcname] at hrun
  split at hrun
  · cases hrun
    rfl
  cases hf : s.name pid with
  | none => simp [hf] at hrun
  | some i =>
    obtain ⟨hlen, hnul⟩ := h.name i
    have hshort := length_text_lt hnul
    simp only [hf, copyString, strlen_eq_of_mem hnul, Except.ok.injEq, Prod.mk.injEq] at hrun
    rw [← hrun.2]
    refine UserMem.byte_copyoutLoop_of_notMem _ fun hin => ha ⟨hin.1, ?_⟩
    have := length_take_le ((text (s2.proc i).name).length + 1) (s3.proc i).name
    omega

/-- **Process names.** In every reachable process table each 16-byte name has a NUL. `safestrcpy(dst, t, n)`
stores the longest prefix of the text of `t` that has at most `n - 1` bytes, then a NUL, and leaves the bytes
from `n` on as they are. So `sys_procname`, if `strlen` reads in such a table, writes no byte beyond the 16 at
the user's address. -/
theorem names_terminated (h : machine.Reachable s) :
    (∀ i, (s.proc i).name.length = 16 ∧ 0 ∈ (s.proc i).name) ∧
    (∀ (dst t : List UInt8) (n : ℕ), 0 < n → n ≤ dst.length → 0 ∈ t →
      (∃ rest, safestrcpy dst t n = (text t).take (n - 1) ++ 0 :: rest) ∧
      (safestrcpy dst t n).length = dst.length ∧ (safestrcpy dst t n).drop n = dst.drop n) ∧
    ∀ s1 s3 m pid addr r m', sysProcname s1 s s3 m pid addr = .ok (r, m') →
      ∀ a, ¬ (addr ≤ a ∧ a < addr + 16) → m'.byte a = m.byte a := by
  have hinv := inv_of_reachable h
  refine ⟨hinv.name, fun dst t n hn hdst ht => ?_, fun s1 s3 m pid addr r m' hrun a ha =>
    hinv.sysProcname_frame hrun ha⟩
  obtain ⟨hstore, hdrop⟩ := safestrcpyLoop_eq (n := n - 1) (s := dst) (by omega) ht
  rw [Nat.sub_add_cancel hn] at hdrop
  refine ⟨?_, length_safestrcpy .., ?_⟩
  · rwa [safestrcpy, if_neg (by omega)]
  · rwa [safestrcpy, if_neg (by omega)]

/-- The name of the first process fills its first nine bytes. -/
theorem names_terminated_init : machine.Reachable booted ∧ (booted.proc 0).name.length = 16 ∧
    sysProcname booted booted booted allMapped 1 4096 =
      .ok (1, allMapped.write 4096 (literal "initcode")) := by
  have h : machine.Reachable booted := Machine.Reachable.of_run (.init rfl) [.userinit] rfl
  exact ⟨h, ((names_terminated h).1 0).1, rfl⟩

end Xv6.ProcTable
