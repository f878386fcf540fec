import Xv6.Proc.Table
import Xv6.Vm.Grow

/-!
# A failing `fork`

Model of `fork` of `kernel/proc.c` on all that it changes: memory, the process table, and the reference
counts of files and inodes. Whatever allocation fails, for the trapframe, for a node of the child's page
table or for a page of the copy, `freeproc` gives back every page, and nothing else is left behind than
a process id that will not be used.
-/

namespace Xv6.Vm

open Lib

/-- `struct proc` but for its memory; files and inodes are indices of `ftable` and `itable`. -/
structure Task extends ProcTable.Proc where
  ofile : Fin NOFILE → Option ℕ
  cwd : ℕ

/-- Memory, `proc`, `nextpid`, and the counts `ref` of `ftable` and `itable`. -/
structure System where
  mem : Kernel
  task : Fin NPROC → Task
  nextpid : ℤ
  fileRef : ℕ → ℤ
  inodeRef : ℕ → ℤ

/-- The panics of `fork`. -/
inductive ForkPanic where
  | memory (e : Panic)
  /-- "filedup" -/
  | filedup

/-- Computations on the system. -/
abbrev SM (α : Type) := StateT System (Except ForkPanic) α

namespace System

/-- Change the process table at `i`. -/
def update (i : Fin NPROC) (f : Task → Task) : SM Unit :=
  modify fun s => { s with task := assign s.task i (f (s.task i)) }

/-- `np->ofile[fd] = filedup(p->ofile[fd])`, if the file is open. -/
def dupFile (p np : Fin NPROC) (fd : Fin NOFILE) : SM Unit := do
  let s ← get
  match (s.task p).ofile fd with
  | none => return ()
  | some f => do
      if s.fileRef f < 1 then throw .filedup
      set { s with fileRef := assign s.fileRef f (s.fileRef f + 1) }
      update np fun t => { t with ofile := assign t.ofile fd (some f) }

/-- `np->cwd = idup(p->cwd)` -/
def dupCwd (p np : Fin NPROC) : SM Unit := do
  let s ← get
  let i := (s.task p).cwd
  set { s with inodeRef := assign s.inodeRef i (s.inodeRef i + 1) }
  update np fun t => { t with cwd := i }

/-- `fork` by `p`: the process id of the child, or -1. Its `allocproc` and `freeproc` are here with what
they do to the process table; what they and `fork` do to memory is `Vm.fork`. -/
def fork (K : Image) (p : Fin NPROC) : SM ℤ := do
  let s ← get
  match (List.finRange NPROC).find? fun i => (s.task i).state = .unused with
  | none => return -1
  | some np => do
      modify fun s => { s with nextpid := s.nextpid + 1 }
      update np fun t => { t with pid := s.nextpid, state := .used }
      match ← onPart mem (fun s k => { s with mem := k }) .memory (Vm.fork K p) with
      | none => do
          update np fun t => { t with toProc := t.toProc.freeproc }
          return -1
      | some _ => do
          (List.finRange NOFILE).forM (dupFile p np)
          dupCwd p np
          update np fun t => { t with name := safestrcpy t.name (s.task p).name ProcTable.NAMESIZE }
          update np fun t => { t with parent := some p }
          update np fun t => { t with state := .runnable }
          return s.nextpid

/-- The memory of the processes is as it should be and the table agrees with it; a free slot has no
process id. -/
structure Ok (K : Image) (s : System) : Prop where
  spaces : Spaces K s.mem
  state : ∀ i, (s.mem.proc i).inUse = true ↔ (s.task i).state ≠ .unused
  pid : ∀ i, (s.task i).state = .unused → (s.task i).pid = 0
  nextpid : 0 < s.nextpid

end System

/-- The memory after a `fork` by `p` that failed. -/
structure MemoryKept (K : Image) (k k' : Kernel) (p : Fin NPROC) : Prop where
  proc : k'.proc = k.proc
  free : (k'.ram.free : Multiset ℕ) = k.ram.free
  contents : ∀ q ∈ K.pages, q ∉ k.ram.free → k'.ram.word q = k.ram.word q
  mapping : ∀ va, mapping k'.ram.word (k.proc p).pagetable va =
    mapping k.ram.word (k.proc p).pagetable va

/-- The system after a `fork` by `p` that failed. -/
structure SystemKept (K : Image) (s s' : System) (p : Fin NPROC) : Prop where
  memory : MemoryKept K s.mem s'.mem p
  inUse : ∀ i, (s.task i).state ≠ .unused → s'.task i = s.task i
  unused : ∀ i, (s.task i).state = .unused → (s'.task i).state = .unused ∧ (s'.task i).pid = 0
  files : s'.fileRef = s.fileRef
  inodes : s'.inodeRef = s.inodeRef
  nextpid : s'.nextpid = s.nextpid ∨ s'.nextpid = s.nextpid + 1

variable {K : Image} {k : Kernel} {p : Fin NPROC} {s s' : System} {E : Panic → Prop}

theorem fork_memory (hk : Spaces K k) (hp : (k.proc p).inUse = true) :
    wp (fork K p) E k fun r k' => r = none → MemoryKept K k k' p := by
  obtain ⟨R, u, c, hfits, hown⟩ := hk.split hp
  obtain ⟨x, y, hacc, hsat, -⟩ := own_mul.mp hown
  -- every page that is not free is owned with its contents
  have hexact : Own K k.ram (exactly k.ram.word x * exactly k.ram.word y) :=
    own_mul.mpr ⟨x, y, hacc, ⟨rfl, fun _ _ => rfl⟩, rfl, fun _ _ => rfl⟩
  have himage : ∀ mem z, (exactly k.ram.word x).Sat mem z → (image K (k.proc p) u c).Sat mem z := by
    rintro mem _ ⟨rfl, hmem⟩
    exact (image K (k.proc p) u c).frame hsat hmem
  refine (fork_spec hexact himage hp hfits hk.unused).mono fun r k' hr hnone => ?_
  subst hnone
  obtain ⟨hproc, hown'⟩ := hr
  have hown'' := hown'.imp (himage k'.ram.word)
  obtain ⟨_, _, hacc', ⟨rfl, hx⟩, rfl, hy⟩ := own_mul.mp hown'
  refine ⟨hproc, add_right_cancel (hacc'.trans hacc.symm), fun q hq hfree => ?_, fun va => ?_⟩
  · rw [← Finset.mem_val, ← hacc, Multiset.mem_add, Multiset.mem_add] at hq
    rcases hq with h | h | h
    · exact absurd h hfree
    · exact hx q h
    · exact hy q h
  · by_cases hva : va < MAXVA
    · rw [image, mul_assoc] at hown hown''
      rw [hown.mapping hva, hown''.mapping hva]
    · rw [mapping_of_le (by omega), mapping_of_le (by omega)]

/-- **A failing `fork` leaves the system as it was**, but for `nextpid`. -/
theorem fork_failure_undone (hs : s.Ok K) (hp : (s.task p).state ≠ .unused)
    (hrun : (System.fork K p).run s = .ok (-1, s')) : SystemKept K s s' p := by
  have hwp : wp (System.fork K p) (fun _ => True) s fun r t => r = -1 → SystemKept K s t p := by
    rw [System.fork, wp_bind, wp_get]
    split
    · rw [wp_pure]
      intro _
      exact ⟨⟨rfl, rfl, fun _ _ _ => rfl, fun _ => rfl⟩, fun _ _ => rfl, fun i hi => ⟨hi, hs.pid i hi⟩,
        rfl, rfl, .inl rfl⟩
    · next np hfind =>
      have hfree : (s.task np).state = .unused := by simpa using List.find?_some hfind
      rw [wp_bind, wp_modify, wp_bind, System.update, wp_modify, wp_bind, wp_onPart]
      refine (fork_memory hs.spaces ((hs.state p).mpr hp)).mono fun r k' hk' => ?_
      cases r with
      | none =>
        dsimp only
        rw [wp_bind, System.update, wp_modify, wp_pure]
        intro _
        refine ⟨hk' rfl, fun i hi => ?_, fun i hi => ?_, rfl, rfl, .inr rfl⟩
        · have hne : i ≠ np := fun h => hi (h ▸ hfree)
          simp only [assign, if_neg hne]
        · by_cases h : i = np
          · simp only [assign, if_pos h]
            exact ⟨rfl, rfl⟩
          · simp only [assign, if_neg h]
            exact ⟨hi, hs.pid i hi⟩
      | some j =>
        -- the child's process id is not -1
        have hpid : s.nextpid ≠ -1 := by
          have := hs.nextpid
          omega
        dsimp only
        rw [wp_bind]
        refine wp_of_forall (fun _ => trivial) fun _ t => ?_
        rw [wp_bind]
        refine wp_of_forall (fun _ => trivial) fun _ t => ?_
        exact fun h => absurd h hpid
  exact hwp.of_run_eq_ok hrun rfl

/-! ## Out of memory -/

theorem System.fork_of_none {k' : Kernel} (h : (Vm.fork K p).run s.mem = .ok (none, k')) :
    ∃ t, (System.fork K p).run s = .ok (-1, t) := by
  have hwp : wp (System.fork K p) (fun _ => False) s fun r _ => r = -1 := by
    rw [System.fork, wp_bind, wp_get]
    split
    · rfl
    · rw [wp_bind, wp_modify, wp_bind, System.update, wp_modify, wp_bind, wp_onPart, wp, h]
      rfl
  obtain ⟨_, t, hrun, rfl⟩ := hwp.exists_ok
  exact ⟨t, hrun⟩

/-- A machine with five pages for the allocator: enough for one process. -/
def cramped : Image := ⟨0x87000, 0x87ffb, tiny.base_le, by decide⟩

/-- All of them are free. -/
def crampedStart : Kernel := ⟨⟨fun _ _ => .ofWord 0, List.range' 0x87ffb 5, []⟩, fun _ => .unused⟩

theorem crampedStart_spaces : Spaces cramped crampedStart := by
  refine ⟨⟨1, 0, rfl, 0, 0, rfl, ?_, rfl⟩, fun _ _ => rfl⟩
  have hone : ∏ i, ofSlot cramped (crampedStart.proc i) = 1 := Finset.prod_eq_one fun _ _ => rfl
  rw [hone]
  rfl

/-- A process is made, and forks. -/
def crampedFork : KM (Option (Fin NPROC) × Option (Fin NPROC)) := do
  let p ← allocproc cramped
  return (p, ← fork cramped 0)

theorem crampedFork_eq : (crampedFork.run crampedStart).toOption.map Prod.fst =
    some (some 0, none) := by
  decide +kernel

/-- There is no memory for the child's page table. -/
theorem fork_failure_undone_cramped : ∃ s s', s.Ok cramped ∧
    (System.fork cramped 0).run s = .ok (-1, s') ∧ SystemKept cramped s s' 0 := by
  have hall := crampedFork_eq
  obtain ⟨r, k, hrun, hk, hin⟩ := (crampedStart_spaces.allocproc (E := fun _ => False)).exists_ok
  have hrun' : crampedFork.run crampedStart = (fork cramped 0).run k >>= fun q => pure ((r, q.1), q.2) := by
    rw [crampedFork, StateT.run_bind, hrun]
    rfl
  rw [hrun'] at hall
  have hr : r = some 0 := by
    cases h : (fork cramped 0).run k with
    | error e =>
      rw [h] at hall
      cases hall
    | ok q =>
      rw [h] at hall
      exact congrArg Prod.fst (Option.some.inj hall)
  have hin : (k.proc 0).inUse = true := hin 0 hr
  obtain ⟨r', k', hfork, -⟩ := (fork_memory (E := fun _ => False) hk hin).exists_ok
  rw [hfork] at hall
  obtain rfl : r' = none := congrArg Prod.snd (Option.some.inj hall)
  let s : System := ⟨k, fun i => ⟨⟨if (k.proc i).inUse then .running else .unused, none, false, 0, 0,
    none, []⟩, fun _ => none, 0⟩, 1, fun _ => 0, fun _ => 0⟩
  have hstate : ∀ i, (s.mem.proc i).inUse = true ↔ (s.task i).state ≠ .unused := by
    intro i
    cases h : (k.proc i).inUse <;> simp [s, h]
  have hs : s.Ok cramped := ⟨hk, hstate, fun _ _ => rfl, one_pos⟩
  obtain ⟨s', hrun⟩ := System.fork_of_none (s := s) hfork
  exact ⟨s, s', hs, hrun, fork_failure_undone hs ((hstate 0).mp hin) hrun⟩

end Xv6.Vm
