import Xv6.Proc.Query
import Xv6.User.Printf

/-!
# `ps`

Model of `user/ps.c`: `ps` fetches the pids in use with `year`, looks the state and the name of each
up by pid, and prints a line. `ps_listing` says that over a process table that stays as it is the
lines are those of the processes in use, in table order. The heap is a parameter: `Malloc` says what
`ps` needs of it.
-/

namespace Xv6.User

open Xv6.ProcTable List

/-- The 32-bit `int` at address `a`. -/
def loadInt (m : UserMem) (a : ℕ) : ℤ :=
  (BitVec.ofNat 32 ((List.range 4).foldr (fun k acc => acc * 256 + (m.byte (a + k)).toNat) 0)).toInt

/-- `string_state_to_int`. -/
def stringStateToInt (stateStr : List UInt8) : Option ℤ := do
  if (← strcmp stateStr (literal "UNUSED")) = 0 then return 0
  if (← strcmp stateStr (literal "USED")) = 0 then return 1
  if (← strcmp stateStr (literal "SLEEPING")) = 0 then return 2
  if (← strcmp stateStr (literal "RUNNABLE")) = 0 then return 3
  if (← strcmp stateStr (literal "RUNNING")) = 0 then return 4
  if (← strcmp stateStr (literal "ZOMBIE")) = 0 then return 5
  return -1

/-- The blocks of 16 bytes that successive calls of `malloc(16)` return, two for each entry of the
array at `arr`, with what each call does to the memory: the block is mapped, and neither the array nor
an earlier block is touched. -/
structure Malloc (arr : ℕ) where
  block : ℕ → ℕ
  effect : ℕ → UserMem → UserMem
  mapped : ∀ k < 200, ∀ m, (effect k m).Mapped (block k) 16
  keeps : ∀ k m a, m.walkaddr a = true → (effect k m).walkaddr a = true
  frame : ∀ k m a, (arr ≤ a ∧ a < arr + 400 ∨ ∃ j < k, block j ≤ a ∧ a < block j + 16) →
    (effect k m).byte a = m.byte a
  disjoint : ∀ k < 200, ∀ a, block k ≤ a → a < block k + 16 →
    ¬ (arr ≤ a ∧ a < arr + 400) ∧ ∀ j < k, ¬ (block j ≤ a ∧ a < block j + 16)

variable {arr : ℕ}

/-- The three `printf` calls in the loop of `main`, with `&pid_array[i] = pidAddr`. -/
def psPrint (m : UserMem) (nameStr stateStr pidAddr : ℕ) : Option (List UInt8) := do
  let name ← printf "%s " [.str (some (m.read nameStr 16))]
  let number ← printf "(%d):" [.int (loadInt m pidAddr)]
  let k ← stringStateToInt (m.read stateStr 16)
  let state ← printf " %d\n" [.int k]
  return name ++ number ++ state

/-- The body of the loop in `main` for `pid_array[i]`: the bytes printed and the memory after it. -/
def psBody (s : State) (heap : Malloc arr) (i : ℕ) (m : UserMem) :
    Except Fault (List UInt8 × UserMem) := do
  let stateStr := heap.block (2 * i)
  let m := heap.effect (2 * i) m
  let nameStr := heap.block (2 * i + 1)
  let m := heap.effect (2 * i + 1) m
  let pid := loadInt m (arr + 4 * i)
  let (_, m) ← sysState s s m pid stateStr
  let (_, m) ← sysProcname s s s m pid nameStr
  match psPrint m nameStr stateStr (arr + 4 * i) with
  | none => .error .overrun
  | some out => return (out, m)

/-- The loop in `main`, with `k` pids left from index `i` on. -/
def psLoop (s : State) (heap : Malloc arr) : ℕ → ℕ → UserMem → Except Fault (List UInt8)
  | 0, _, _ => .ok []
  | k + 1, i, m => do
      let (out, m) ← psBody s heap i m
      let rest ← psLoop s heap k (i + 1) m
      return out ++ rest

/-- `main` of `ps`, with `pid_array` at address `arr`: the bytes printed until it exits. -/
def psMain (s : State) (heap : Malloc arr) (m : UserMem) : Except Fault (List UInt8) :=
  let (numPids, m) := sysYear s m arr 100
  if numPids < 0 then
    match printf "Error in sys_year\n" [] with
    | none => .error .overrun
    | some out => .ok out
  else psLoop s heap numPids.toNat 0 m

/-- The line of process `p`: `name (pid): k`. -/
def psLine (p : Proc) : List UInt8 :=
  text p.name ++ [ch ' ', ch '('] ++ decimal p.pid.toNat ++ [ch ')', ch ':', ch ' '] ++
    decimal p.state.toNat ++ [ch '\n']

/-! ## Loading the pids -/

theorem loadInt_congr {m m' : UserMem} {a : ℕ} (h : ∀ k < 4, m'.byte (a + k) = m.byte (a + k)) :
    loadInt m' a = loadInt m a := by
  unfold loadInt
  rw [show range 4 = [0, 1, 2, 3] from rfl]
  simp only [foldr_cons, foldr_nil, h 0 (by omega), h 1 (by omega), h 2 (by omega), h 3 (by omega)]

theorem loadInt_write (m : UserMem) (a : ℕ) {v : ℤ} (h0 : 0 ≤ v) (h1 : v < 2 ^ 31) :
    loadInt (m.write a (intBytes v)) a = v := by
  obtain ⟨n, rfl⟩ := Int.eq_ofNat_of_zero_le h0
  have hn : n < 2 ^ 31 := by exact_mod_cast h1
  have hmod : ((n : ℤ) % 2 ^ 32).toNat = n := by omega
  have hbyte : ∀ k, (h : k < 4) → (m.write a (intBytes n)).byte (a + k) = UInt8.ofNat (n / 256 ^ k) :=
    fun k hk => by
      rw [UserMem.byte_write_of_lt (by simpa [intBytes] using hk)]
      simp only [intBytes, getElem_map, getElem_range, hmod]
  unfold loadInt
  rw [show range 4 = [0, 1, 2, 3] from rfl]
  simp only [foldr_cons, foldr_nil, hbyte 0 (by omega), hbyte 1 (by omega),
    hbyte 2 (by omega), hbyte 3 (by omega), UInt8.toNat_ofNat']
  rw [← toInt_ofNat_of_lt hn]
  congr 2
  omega

theorem loadInt_array (m : UserMem) (a : ℕ) {ps : List Proc}
    (hps : ∀ p ∈ ps, 0 ≤ p.pid ∧ p.pid < 2 ^ 31) {i : ℕ} (hi : i < ps.length) :
    loadInt (m.write a (ps.flatMap fun p => intBytes p.pid)) (a + 4 * i) = ps[i].pid := by
  have hlen : ∀ qs : List Proc, (qs.flatMap fun p => intBytes p.pid).length = 4 * qs.length :=
    fun qs => by
      induction qs with
      | nil => rfl
      | cons q qs ih => rw [flatMap_cons, length_append, ih]; simp [intBytes]; omega
  -- split the array into what is before, the entry, and what is after
  have hsplit : ps = ps.take i ++ ps[i] :: ps.drop (i + 1) := by
    rw [cons_getElem_drop_succ, take_append_drop]
  have hbefore : ((ps.take i).flatMap fun p => intBytes p.pid).length = 4 * i := by
    rw [hlen, length_take_of_le (by omega)]
  have hentry : (intBytes ps[i].pid).length = 4 := by simp [intBytes]
  conv_lhs => rw [hsplit]
  rw [flatMap_append, flatMap_cons, ← UserMem.write_append, hbefore, ← UserMem.write_append, hentry]
  obtain ⟨h0, h1⟩ := hps ps[i] (getElem_mem hi)
  refine Eq.trans (loadInt_congr fun k hk => UserMem.byte_write_of_notMem ?_)
    (loadInt_write _ (a + 4 * i) h0 h1)
  omega

/-! ## One line -/

theorem printf_name {s : List UInt8} (h : 0 ∈ s) :
    printf "%s " [.str (some s)] = some (text s ++ [ch ' ']) := by
  have hfmt : text (literal "%s ") = [ch '%', ch 's', ch ' '] := by decide
  have htake : s.take (text s).length = text s := by
    have := congrArg (List.take (text s).length) (take_strlen h)
    simpa [take_take] using this
  rw [printf, hfmt]
  simp [vprintf, printstr, strlen_eq_of_mem h, htake, ch]

theorem printf_number {n : ℕ} (hn : n < 2 ^ 31) :
    printf "(%d):" [.int n] = some ([ch '('] ++ decimal n ++ [ch ')', ch ':']) := by
  have hfmt : text (literal "(%d):") = [ch '(', ch '%', ch 'd', ch ')', ch ':'] := by decide
  rw [printf, hfmt]
  simp [vprintf, Arg.int, printint_decimal hn, ch]

theorem printf_state {n : ℕ} (hn : n < 2 ^ 31) :
    printf " %d\n" [.int n] = some ([ch ' '] ++ decimal n ++ [ch '\n']) := by
  have hfmt : text (literal " %d\n") = [ch ' ', ch '%', ch 'd', ch '\n'] := by decide
  rw [printf, hfmt]
  simp [vprintf, Arg.int, printint_decimal hn, ch]

theorem stringStateToInt_procstate2str (c : ProcState) (rest : List UInt8) :
    stringStateToInt (procstate2str c ++ rest) = some (c.toNat : ℤ) := by
  cases c <;> rfl

theorem text_procstate2str (c : ProcState) :
    text (procstate2str c) ++ [0] = procstate2str c ∧ (procstate2str c).length ≤ 16 := by
  cases c <;> decide

variable {s : State} {m : UserMem}

theorem ok_of_delivers {addr : ℕ} {str : List UInt8} {r : Except Fault (ℤ × UserMem)}
    (h : Delivers m addr str r) (hlen : (text str).length + 1 ≤ 16) (hm : m.Mapped addr 16) :
    r = .ok (1, m.write addr (text str ++ [0])) := by
  have hm' : m.Mapped addr ((text str).length + 1) := fun k hk => hm k (by omega)
  rwa [Delivers, if_pos hm'] at h

theorem psPrint_eq {p : Proc} {nameStr stateStr pidAddr n : ℕ} {rest rest' : List UInt8}
    (hname : m.read nameStr 16 = text p.name ++ [0] ++ rest)
    (hstate : m.read stateStr 16 = procstate2str p.state ++ rest')
    (hpid : loadInt m pidAddr = n) (hn : p.pid = n) (hlt : n < 2 ^ 31) :
    psPrint m nameStr stateStr pidAddr = some (psLine p) := by
  have htext : text (text p.name ++ [0] ++ rest) = text p.name := by
    rw [append_assoc]
    exact text_append_zero (zero_notMem_text _) rest
  have hnum : p.state.toNat < 2 ^ 31 := by
    cases p.state <;> decide
  have hmem : (0 : UInt8) ∈ text p.name ++ [0] ++ rest := by simp
  simp only [psPrint, hname, hstate, hpid, printf_name hmem, htext, printf_number hlt,
    stringStateToInt_procstate2str, printf_state hnum, bind, Option.bind, pure]
  simp [psLine, hn]

theorem psBody_eq (hinv : Inv s) (heap : Malloc arr) {i : ℕ} (hi : i < 100) {j : Slot}
    (hj : (s.proc j).InUse) (hload : loadInt m (arr + 4 * i) = (s.proc j).pid) :
    ∃ m', psBody s heap i m = .ok (psLine (s.proc j), m') ∧
      ∀ a, arr ≤ a → a < arr + 400 → m'.byte a = m.byte a := by
  obtain ⟨hname, hterm⟩ := hinv.name j
  obtain ⟨hpos, hlt⟩ := hinv.pid j hj
  have hbound := hinv.nextpid.2
  obtain ⟨n, hn⟩ := Int.eq_ofNat_of_zero_le (show 0 ≤ (s.proc j).pid by omega)
  obtain ⟨hstate, hstate16⟩ := text_procstate2str (s.proc j).state
  have hlen : (text (s.proc j).name ++ [0]).length ≤ 16 := by
    have := length_text_lt hterm
    rw [hname, NAMESIZE] at this
    rw [length_append, length_singleton]
    omega
  have hlenS : (text (procstate2str (s.proc j).state) ++ [0]).length ≤ 16 := by
    rw [hstate]
    exact hstate16
  set stateStr := heap.block (2 * i) with hstateStr
  set nameStr := heap.block (2 * i + 1) with hnameStr
  set m2 := heap.effect (2 * i + 1) (heap.effect (2 * i) m) with hm2
  set m3 := m2.write stateStr (text (procstate2str (s.proc j).state) ++ [0]) with hm3
  set m4 := m3.write nameStr (text (s.proc j).name ++ [0]) with hm4
  -- the two blocks are mapped, and apart from each other and from the array
  have hmapS : m2.Mapped stateStr 16 := fun k hk =>
    heap.keeps _ _ _ (heap.mapped _ (by omega) _ k hk)
  have hmapN : m3.Mapped nameStr 16 := heap.mapped _ (by omega) _
  have harr : ∀ a, arr ≤ a → a < arr + 400 → m2.byte a = m.byte a := fun a h0 h1 => by
    rw [hm2, heap.frame _ _ a (Or.inl ⟨h0, h1⟩), heap.frame _ _ a (Or.inl ⟨h0, h1⟩)]
  have harr4 : ∀ a, arr ≤ a → a < arr + 400 → m4.byte a = m.byte a := fun a h0 h1 => by
    have hout : ∀ b < 200, ¬ (heap.block b ≤ a ∧ a < heap.block b + 16) := fun b hb h =>
      (heap.disjoint b hb a h.1 h.2).1 ⟨h0, h1⟩
    have hN := hout (2 * i + 1) (by omega)
    have hS := hout (2 * i) (by omega)
    rw [hm4, UserMem.byte_write_of_notMem (by omega), hm3, UserMem.byte_write_of_notMem (by omega),
      harr a h0 h1]
  have hload2 : loadInt m2 (arr + 4 * i) = (s.proc j).pid := by
    rw [loadInt_congr fun k hk => harr _ (by omega) (by omega), hload]
  have hload4 : loadInt m4 (arr + 4 * i) = n := by
    rw [loadInt_congr fun k hk => harr4 _ (by omega) (by omega), hload, hn]
  have hstays := Stays.refl s (s.proc j).pid
  have hqS : sysState s s m2 (s.proc j).pid stateStr = .ok (1, m3) :=
    ok_of_delivers (hinv.delivers hj hstays).2 (by simpa using hlenS) hmapS
  have hqN : sysProcname s s s m3 (s.proc j).pid nameStr = .ok (1, m4) :=
    ok_of_delivers (hinv.delivers hj hstays).1 (by simpa using hlen) hmapN
  -- so each block holds its string
  obtain ⟨rest, hreadN⟩ := UserMem.read_write m3 nameStr hlen
  obtain ⟨rest', hreadS⟩ := UserMem.read_write m2 stateStr hlenS
  have hreadS4 : m4.read stateStr 16 = procstate2str (s.proc j).state ++ rest' := by
    rw [hm4, UserMem.read_write_of_disjoint fun k hk h => ?_, hm3, hreadS, hstate]
    exact (heap.disjoint (2 * i + 1) (by omega) (stateStr + k) h.1 (by omega)).2 (2 * i) (by omega)
      ⟨by omega, by omega⟩
  have hprint : psPrint m4 nameStr stateStr (arr + 4 * i) = some (psLine (s.proc j)) :=
    psPrint_eq hreadN hreadS4 hload4 hn (by omega)
  refine ⟨m4, ?_, harr4⟩
  simp only [psBody, ← hstateStr, ← hnameStr, ← hm2, hload2, hqS, hqN, bind, Except.bind, hprint, pure,
    Except.pure]

theorem psLoop_eq (hinv : Inv s) (heap : Malloc arr) {js : List Slot} {i : ℕ}
    (hi : i + js.length ≤ 100) (hjs : ∀ j ∈ js, (s.proc j).InUse)
    (hload : ∀ k, (h : k < js.length) → loadInt m (arr + 4 * (i + k)) = (s.proc js[k]).pid) :
    psLoop s heap js.length i m = .ok (js.flatMap fun j => psLine (s.proc j)) := by
  induction js generalizing i m with
  | nil => rfl
  | cons j js ih =>
    rw [length_cons] at hi
    obtain ⟨m', hbody, harr⟩ := psBody_eq hinv heap (show i < 100 by omega)
      (hjs j mem_cons_self) (hload 0 (by simp))
    have hrest := ih (m := m') (i := i + 1) (by omega)
      (fun j' hj' => hjs j' (mem_cons_of_mem _ hj')) fun k hk => by
        rw [loadInt_congr fun l hl => harr _ (by omega) (by omega)]
        have := hload (k + 1) (by simpa using hk)
        rwa [show i + (k + 1) = i + 1 + k by omega] at this
    simp only [length_cons, psLoop, hbody, hrest, bind, Except.bind, pure, Except.pure, flatMap_cons]

/-- **The listing of `ps`.** Over every reachable process table, with its array mapped and a working
`malloc`, `ps` prints one line `name (pid): k` for each process in use, in table order. -/
theorem ps_listing (h : machine.Reachable s) (heap : Malloc arr) (hm : m.Mapped arr 400) :
    psMain s heap m = .ok (((List.finRange NPROC).filter fun i => (s.proc i).InUse).flatMap
      fun i => psLine (s.proc i)) := by
  have hinv := inv_of_reachable h
  set js := (finRange NPROC).filter fun i => (s.proc i).InUse with hjs
  have hmem : ∀ j ∈ js, (s.proc j).InUse := fun j hj => by simpa [hjs] using hj
  have hlen : js.length ≤ NPROC := by
    calc js.length ≤ (finRange NPROC).length := length_filter_le _ _
      _ = NPROC := length_finRange
  have huse : inUse s (finRange NPROC) = js.map s.proc := by
    rw [inUse, filter_map, hjs]
    rfl
  have hyear := yearLoop_of_mapped (s := s) (m := m) arr 100 (finRange NPROC) (c := 0)
    (k := js.length) (by omega)
    (by rw [huse, length_map]; simp only [NPROC] at hlen; omega)
    (fun k hk => hm k (by simp only [NPROC] at hlen; omega))
  have hpids : ∀ p ∈ js.map s.proc, 0 ≤ p.pid ∧ p.pid < 2 ^ 31 := fun p hp => by
    obtain ⟨j, hj, rfl⟩ := mem_map.mp hp
    have := hinv.pid j (hmem j hj)
    have := hinv.nextpid
    omega
  rw [huse, show js.length = (js.map s.proc).length from (length_map _).symm,
    take_length] at hyear
  rw [psMain, sysYear, if_neg (by norm_num)]
  simp only [Nat.cast_ofNat, Nat.cast_zero] at hyear
  rw [hyear]
  simp only [length_map, Nat.zero_add, Nat.mul_zero, Nat.add_zero, Int.toNat_natCast]
  rw [if_neg (by omega)]
  refine psLoop_eq hinv heap (by simp only [NPROC] at hlen; omega) hmem fun k hk => ?_
  rw [Nat.zero_add, loadInt_array m arr hpids (by simpa using hk), getElem_map]

theorem freshHeap_mapped : ∀ k < 200, ∀ m : UserMem,
    ({ m with user := fun _ => true } : UserMem).Mapped (400 + 16 * k) 16 := by
  intro k hk m j hj
  simp only [UserMem.walkaddr, Bool.and_true, decide_eq_true_eq, MAXVA]
  omega

theorem freshHeap_keeps (_ : ℕ) (m : UserMem) (a : ℕ) (ha : m.walkaddr a = true) :
    ({ m with user := fun _ => true } : UserMem).walkaddr a = true := by
  simp only [UserMem.walkaddr, Bool.and_eq_true, decide_eq_true_eq] at ha ⊢
  exact ⟨ha.1, trivial⟩

theorem freshHeap_disjoint : ∀ k < 200, ∀ a, 400 + 16 * k ≤ a → a < 400 + 16 * k + 16 →
    ¬ (0 ≤ a ∧ a < 0 + 400) ∧ ∀ j < k, ¬ (400 + 16 * j ≤ a ∧ a < 400 + 16 * j + 16) := by
  intro k _ a _ _
  exact ⟨by omega, fun j _ => by omega⟩

/-- A heap above an array at address 0. -/
def freshHeap : Malloc 0 where
  block k := 400 + 16 * k
  effect _ m := { m with user := fun _ => true }
  mapped := freshHeap_mapped
  keeps := freshHeap_keeps
  frame _ _ _ _ := rfl
  disjoint := freshHeap_disjoint

/-- The steps by which the first process forks a second one. -/
def firstFork : List Act := [.schedule 0, .forkAlloc 0, .forkCopy 0, .forkParent 0, .forkRunnable 0]

/-- `ps` lists the first process, which runs it, and its child. -/
theorem ps_listing_boot : ∃ s, machine.run booted firstFork = some s ∧
    psMain s freshHeap allMapped = .ok (text (literal "initcode (1): 4\ninitcode (2): 3\n")) := by
  have hbooted : machine.Reachable booted := Lib.Machine.Reachable.of_run (.init rfl) [.userinit] rfl
  have hrun : ∃ s, machine.run booted firstFork = some s ∧
      ((finRange NPROC).filter fun i => (s.proc i).InUse).flatMap (fun i => psLine (s.proc i)) =
        text (literal "initcode (1): 4\ninitcode (2): 3\n") := ⟨_, rfl, by decide +kernel⟩
  obtain ⟨s, hs, hlines⟩ := hrun
  refine ⟨s, hs, ?_⟩
  rw [ps_listing (hbooted.of_run _ hs) freshHeap fun k hk => ?_, hlines]
  rw [UserMem.walkaddr]
  exact Bool.and_true _ ▸ decide_eq_true (by simp only [MAXVA]; omega)

end Xv6.User
