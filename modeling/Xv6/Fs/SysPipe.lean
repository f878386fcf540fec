import Xv6.Fs.File
import Xv6.Proc.Query
import Xv6.Vm.Kalloc

/-!
# `pipe()`

Model of `pipealloc` and `pipeclose` of `kernel/pipe.c`, of `fileclose` of `kernel/file.c` and of
`sys_pipe` of `kernel/sysfile.c`, on the file table, the descriptors of the calling process, the physical
pages and the memory of the process. No page is free and mapped by the process at the same time, so the
process's memory is apart from the pages.

A `sys_pipe` that fails gives back what it took. It takes slots of the file table as they are, and gives
them back by `fileclose`, which closes what the slot's `type` says; so this needs the free slots to have
type `FD_NONE`, which they have in every file table that the kernel can come to (`ftable`).
-/

namespace Xv6.Fs

open Lib

/-- The ends of a `struct pipe`. -/
structure PipeEnds where
  readopen : Bool
  writeopen : Bool
deriving DecidableEq

/-- The file system, `ftable`, the calling process's `ofile` and memory, physical memory, and the pipes
by the page they are in. -/
structure PipeSys where
  fs : State
  file : Ftable
  ofile : Ofile
  mem : UserMem
  ram : Vm.Ram
  pipe : ℕ → PipeEnds

/-- The panics of `sys_pipe`. -/
inductive PipePanic where
  | fs (e : Err)
  | file (e : FilePanic)
  | vm (e : Vm.Panic)
deriving DecidableEq

/-- Computations of `sys_pipe`. -/
abbrev PM (α : Type) := StateT PipeSys (Except PipePanic) α

namespace PM

variable {α : Type}

/-- A computation on the file system. -/
def onFs (x : M α) : PM α := onPart PipeSys.fs (fun s fs => { s with fs := fs }) .fs x

/-- A computation on the file table. -/
def onFile (x : FM α) : PM α := onPart PipeSys.file (fun s t => { s with file := t }) .file x

/-- A computation on physical memory. -/
def onRam (x : Vm.VM α) : PM α := onPart PipeSys.ram (fun s r => { s with ram := r }) .vm x

/-- Set the ends of the pipe in page `pi`. -/
def setEnds (pi : ℕ) (x : PipeEnds) : PM Unit := modify fun s => { s with pipe := assign s.pipe pi x }

/-- `p->ofile[fd] = f` -/
def setOfile (fd : Fin NOFILE) (f : Option FileSlot) : PM Unit :=
  modify fun s => { s with ofile := assign s.ofile fd f }

section

variable (sb : Superblock) (K : Vm.Image)

/-- `pipeclose`. -/
def pipeclose (pi : ℕ) (writable : Bool) : PM Unit := do
  let x := (← get).pipe pi
  let x := if writable then { x with writeopen := false } else { x with readopen := false }
  setEnds pi x
  if x.readopen = false ∧ x.writeopen = false then onRam (Vm.kfree K pi) else pure ()

/-- `fileclose`. -/
def fileclose (f : FileSlot) : PM Unit := do
  match ← onFile (unref f) with
  | none => pure ()
  | some ff =>
    match ff.type with
    | .pipe => pipeclose K ff.pipe ff.writable
    | .inode | .device => onFs (iput sb ff.ip)
    | .none => pure ()

/-- The assignments of `pipealloc` to one of its files. -/
def setPipeFile (f : FileSlot) (pi : ℕ) (writable : Bool) : FM Unit := do
  let x := (← get) f
  setFile f { x with type := .pipe, readable := !writable, writable := writable, pipe := pi }

/-- `pipealloc`: the read end and the write end. -/
def pipealloc : PM (Option (FileSlot × FileSlot)) := do
  match ← onFile filealloc with
  | none => return none
  | some f0 => do
      match ← onFile filealloc with
      | none => do
          fileclose sb K f0
          return none
      | some f1 => do
          match ← onRam Vm.kalloc with
          | none => do
              fileclose sb K f0
              fileclose sb K f1
              return none
          | some pi => do
              setEnds pi ⟨true, true⟩
              onFile (setPipeFile f0 pi false)
              onFile (setPipeFile f1 pi true)
              return some (f0, f1)

/-- `fdalloc`. -/
def takeFd (f : FileSlot) : PM (Option (Fin NOFILE)) := do
  match fdalloc (← get).ofile with
  | some fd => do
      setOfile fd (some f)
      return some fd
  | none => return none

/-- `copyout(p->pagetable, va, (char*)&fd, sizeof(fd))`: whether it succeeds. -/
def copyoutFd (va : ℕ) (fd : Fin NOFILE) : PM Bool := do
  let r := (← get).mem.copyout va (ProcTable.intBytes (fd : ℕ))
  modify fun s => { s with mem := r.2 }
  return decide (0 ≤ r.1)

/-- The exit of `sys_pipe` with both descriptors. -/
def copyFail (rf wf : FileSlot) (fd0 fd1 : Fin NOFILE) : PM ℤ := do
  setOfile fd0 none
  setOfile fd1 none
  fileclose sb K rf
  fileclose sb K wf
  return -1

/-- `sys_pipe`. -/
def sysPipe (fdarray : ℕ) : PM ℤ := do
  match ← pipealloc sb K with
  | none => return -1
  | some (rf, wf) => do
      match ← takeFd rf with
      | none => do
          fileclose sb K rf
          fileclose sb K wf
          return -1
      | some fd0 => do
          match ← takeFd wf with
          | none => do
              setOfile fd0 none
              fileclose sb K rf
              fileclose sb K wf
              return -1
          | some fd1 => do
              if ← copyoutFd fdarray fd0 then do
                if ← copyoutFd ((fdarray + 4) % 2 ^ 64) fd1 then return 0
                else copyFail sb K rf wf fd0 fd1
              else copyFail sb K rf wf fd0 fd1

end

/-! ## What a failing `sys_pipe` gives back -/

variable {sb : Superblock} {K : Vm.Image} {s s₀ : PipeSys} {E : PipePanic → Prop} {f rf wf : FileSlot}
  {pi : ℕ}

variable {Q : α → PipeSys → Prop}

@[simp] theorem wp_onFile {x : FM α} : wp (onFile x) E s Q ↔
    wp x (fun e => E (.file e)) s.file fun a t => Q a { s with file := t } :=
  wp_onPart

@[simp] theorem wp_onRam {x : Vm.VM α} : wp (onRam x) E s Q ↔
    wp x (fun e => E (.vm e)) s.ram fun a r => Q a { s with ram := r } :=
  wp_onPart

/-- The free slots have no type, as `fileclose` leaves them. -/
def FreeUntyped (t : Ftable) : Prop := ∀ f, (t f).ref = 0 → (t f).type = .none

variable {t : Ftable}

theorem FreeUntyped.assign {x : File} (h : FreeUntyped t) (hx : x.ref = 0 → x.type = .none) :
    FreeUntyped (assign t f x) := fun f' h0 => by
  simp only [Lib.assign] at h0 ⊢
  by_cases hf : f' = f
  · rw [if_pos hf] at h0 ⊢
    exact hx h0
  · rw [if_neg hf] at h0 ⊢
    exact h f' h0

/-- What the kernel does with the file table: `filealloc`, `filedup`, `fileclose`, and the assignments of
`sys_open`, `pipealloc`, `fileread` and `filewrite` to files in use, which leave `ref` alone. -/
inductive FileOp where
  | alloc
  | dup (f : FileSlot)
  | close (f : FileSlot)
  | set (f : FileSlot) (x : File)

/-- The file table of a kernel: zero at boot. -/
def ftable : Machine Ftable FileOp where
  init t := t = fun _ => ⟨.none, 0, false, false, 0, 0, 0, 0⟩
  step t o := match o with
    | .alloc => (Fs.filealloc.run t).toOption.map Prod.snd
    | .dup f => ((Fs.filedup f).run t).toOption.map Prod.snd
    | .close f => ((Fs.unref f).run t).toOption.map Prod.snd
    | .set f x => if 0 < (t f).ref then some (assign t f { x with ref := (t f).ref }) else none

theorem FreeUntyped.filealloc (h : FreeUntyped t) :
    wp Fs.filealloc (fun _ => True) t fun _ t' => FreeUntyped t' := by
  refine filealloc_spec.mono fun r t' hr => ?_
  rcases hr with ⟨-, rfl⟩ | ⟨f, -, -, rfl⟩
  · exact h
  · exact h.assign fun h1 => absurd h1 Nat.one_ne_zero

theorem FreeUntyped.filedup (h : FreeUntyped t) :
    wp (Fs.filedup f) (fun _ => True) t fun _ t' => FreeUntyped t' := by
  simp only [Fs.filedup, wp_bind, wp_get]
  rw [wp_ite]
  refine ⟨fun _ => trivial, fun _ => ?_⟩
  rw [setFile, wp_modify]
  exact h.assign fun h0 => absurd h0 (Nat.succ_ne_zero _)

theorem FreeUntyped.unref (h : FreeUntyped t) :
    wp (Fs.unref f) (fun _ => True) t fun _ t' => FreeUntyped t' := by
  by_cases href : 0 < (t f).ref
  · refine (unref_spec href).mono fun r t' hr => ?_
    rcases hr with ⟨hlt, -, rfl⟩ | ⟨-, -, rfl⟩
    · exact h.assign fun h0 => absurd h0 (Nat.sub_ne_zero_of_lt hlt)
    · exact h.assign fun _ => rfl
  · simp only [Fs.unref, wp_bind, wp_get]
    rw [if_pos (by omega)]
    trivial

theorem FreeUntyped.step {t' : Ftable} {o : FileOp} (h : FreeUntyped t)
    (hstep : ftable.step t o = some t') : FreeUntyped t' := by
  cases o with
  | alloc => exact h.filealloc.of_toOption hstep
  | dup f => exact h.filedup.of_toOption hstep
  | close f => exact h.unref.of_toOption hstep
  | set f x =>
    simp only [ftable] at hstep
    split at hstep
    · next hpos =>
      rw [← Option.some.inj hstep]
      exact h.assign fun h0 => absurd h0 hpos.ne'
    · cases hstep

/-- Whatever the kernel did with its files, the free slots of the file table have no type. -/
theorem FreeUntyped.of_reachable (h : ftable.Reachable t) : FreeUntyped t := by
  refine h.invariant FreeUntyped (fun t ht f _ => ?_) fun _ _ _ => FreeUntyped.step
  rw [show t = _ from ht]

/-- The descriptors, the references and types of the files, and the free pages are as they were. -/
structure Untouched (s s' : PipeSys) : Prop where
  ofile : s'.ofile = s.ofile
  file : ∀ f, (s'.file f).ref = (s.file f).ref ∧ (s'.file f).type = (s.file f).type
  free : s'.ram.free = s.ram.free

variable {s' : PipeSys}

theorem Untouched.of_freed (hclean : FreeUntyped s.file) (hofile : s'.ofile = s.ofile)
    (hfree : s'.ram.free = s.ram.free) (hfile : ∀ f, s'.file f = s.file f ∨
      (s.file f).ref = 0 ∧ (s'.file f).ref = 0 ∧ (s'.file f).type = .none) : Untouched s s' := by
  refine ⟨hofile, fun f => ?_, hfree⟩
  rcases hfile f with heq | ⟨h0, href, htype⟩
  · rw [heq]
    exact ⟨rfl, rfl⟩
  · rw [h0, href, htype, hclean f h0]
    exact ⟨rfl, rfl⟩

theorem wp_fileclose_last {Q : Unit → PipeSys → Prop} (href : (s.file f).ref = 1)
    (h : wp (match (s.file f).type with
      | .pipe => pipeclose K (s.file f).pipe (s.file f).writable
      | .inode | .device => onFs (iput sb (s.file f).ip)
      | .none => pure ()) E
      { s with file := assign s.file f { s.file f with ref := 0, type := .none } } Q) :
    wp (fileclose sb K f) E s Q := by
  rw [fileclose, wp_bind, wp_onFile]
  refine (unref_spec (by omega)).mono fun r t hr => ?_
  rcases hr with ⟨hlt, -, -⟩ | ⟨-, rfl, rfl⟩
  · omega
  · exact h

theorem fileclose_untyped (href : (s.file f).ref = 1) (htype : (s.file f).type = .none) :
    wp (fileclose sb K f) E s fun _ s' =>
      s' = { s with file := assign s.file f { s.file f with ref := 0, type := .none } } := by
  refine wp_fileclose_last href ?_
  rw [htype]
  rfl

/-- `pipealloc` has made a pipe in page `pi`, with the files `rf` and `wf`. -/
structure NewPipe (s₀ s : PipeSys) (rf wf : FileSlot) (pi : ℕ) : Prop where
  ne : rf ≠ wf
  unused : (s₀.file rf).ref = 0 ∧ (s₀.file wf).ref = 0
  reader : s.file rf =
    { s₀.file rf with ref := 1, type := .pipe, readable := true, writable := false, pipe := pi }
  writer : s.file wf =
    { s₀.file wf with ref := 1, type := .pipe, readable := false, writable := true, pipe := pi }
  others : ∀ f, f ≠ rf → f ≠ wf → s.file f = s₀.file f
  ends : s.pipe pi = ⟨true, true⟩
  free : s₀.ram.free = pi :: s.ram.free

theorem NewPipe.close (h : NewPipe s₀ s rf wf pi) (hclean : FreeUntyped s₀.file)
    (hofile : s.ofile = s₀.ofile) :
    wp (do fileclose sb K rf; fileclose sb K wf; return (-1 : ℤ)) (fun _ => True) s fun _ s' =>
      Untouched s₀ s' := by
  have hne := h.ne.symm
  rw [wp_bind]
  refine wp_fileclose_last (by rw [h.reader]) ?_
  simp only [h.reader, pipeclose, setEnds, wp_bind, wp_get, wp_modify, h.ends]
  rw [if_neg (by simp), if_neg (by simp), wp_pure]
  refine wp_fileclose_last ?_ ?_
  · simp only [assign, if_neg hne]
    rw [h.writer]
  simp only [assign, if_neg hne, h.writer, pipeclose, setEnds, wp_bind, wp_get, wp_modify, if_true]
  rw [if_pos (by simp), wp_onRam, Vm.kfree, wp_ite]
  refine ⟨fun _ => trivial, fun _ => ?_⟩
  rw [wp_modify, wp_pure]
  refine .of_freed hclean hofile h.free.symm fun f => ?_
  by_cases hw : f = wf
  · subst hw
    exact .inr ⟨h.unused.2, by simp only [assign, if_true], by simp only [assign, if_true]⟩
  · by_cases hr : f = rf
    · subst hr
      refine .inr ⟨h.unused.1, ?_, ?_⟩
      · simp only [assign, if_neg hw, if_true]
      · simp only [assign, if_neg hw, if_true]
    · refine .inl ?_
      simp only [assign, if_neg hw, if_neg hr]
      exact h.others f hr hw

theorem kalloc_free {E : Vm.Panic → Prop} {r : Vm.Ram} : wp Vm.kalloc E r fun q r' => match q with
    | none => r'.free = r.free | some q => r.free = q :: r'.free := by
  simp only [Vm.kalloc, wp_bind, wp_get]
  split
  · rw [wp_bind, wp_set, wp_pure]
  · rw [wp_bind, wp_set, wp_pure]
  · next hfree _ =>
    rw [wp_bind, wp_set, wp_pure]
    exact hfree

theorem pipealloc_spec (hclean : FreeUntyped s.file) :
    wp (pipealloc sb K) (fun _ => True) s fun r s' => s'.ofile = s.ofile ∧
      match r with
      | none => Untouched s s'
      | some (rf, wf) => ∃ pi, NewPipe s s' rf wf pi := by
  rw [pipealloc, wp_bind, wp_onFile]
  refine filealloc_spec.mono fun r t hr => ?_
  rcases hr with ⟨rfl, rfl⟩ | ⟨f0, rfl, h0, rfl⟩
  · exact ⟨rfl, rfl, fun _ => ⟨rfl, rfl⟩, rfl⟩
  rw [wp_bind, wp_onFile]
  refine filealloc_spec.mono fun r t hr => ?_
  rcases hr with ⟨rfl, rfl⟩ | ⟨f1, rfl, h1, rfl⟩
  · rw [wp_bind]
    refine (fileclose_untyped ?_ ?_).mono fun _ s' hs' => ?_
    · simp only [assign, if_true]
    · simp only [assign, if_true]
      exact hclean f0 h0
    · subst hs'
      refine ⟨rfl, .of_freed hclean rfl rfl fun f => ?_⟩
      by_cases hf : f = f0
      · subst hf
        exact .inr ⟨h0, by simp only [assign, if_true], by simp only [assign, if_true]⟩
      · exact .inl (by simp only [assign, if_neg hf])
  have hne : f1 ≠ f0 := by
    rintro rfl
    simp only [assign, if_true] at h1
    cases h1
  simp only [assign, if_neg hne] at h1
  rw [wp_bind, wp_onRam]
  refine kalloc_free.mono fun r ram hr => ?_
  cases r with
  | none =>
    rw [wp_bind]
    refine (fileclose_untyped ?_ ?_).mono fun _ s1 hs1 => ?_
    · simp only [assign, if_neg hne.symm, if_true]
    · simp only [assign, if_neg hne.symm, if_true]
      exact hclean f0 h0
    subst hs1
    rw [wp_bind]
    refine (fileclose_untyped ?_ ?_).mono fun _ s2 hs2 => ?_
    · simp only [assign, if_neg hne, if_true]
    · simp only [assign, if_neg hne, if_true]
      exact hclean f1 h1
    subst hs2
    refine ⟨rfl, .of_freed hclean rfl hr fun f => ?_⟩
    by_cases hf0 : f = f0
    · subst hf0
      refine .inr ⟨h0, ?_, ?_⟩
      · simp only [assign, if_neg hne.symm, if_true]
      · simp only [assign, if_neg hne.symm, if_true]
    · by_cases hf1 : f = f1
      · subst hf1
        refine .inr ⟨h1, ?_, ?_⟩
        · simp only [assign, if_true]
        · simp only [assign, if_true]
      · exact .inl (by simp only [assign, if_neg hf0, if_neg hf1])
  | some pi =>
    simp only [wp_bind, wp_onFile, setEnds, wp_modify, setPipeFile, wp_get, setFile, wp_pure]
    refine ⟨trivial, pi, hne.symm, ⟨h0, h1⟩, ?_, ?_, fun f hf0 hf1 => ?_, ?_, hr⟩
    · simp only [assign, if_neg hne.symm, if_true, Bool.not_false]
    · simp only [assign, if_neg hne, if_true, Bool.not_true]
    · simp only [assign, if_neg hf0, if_neg hf1]
    · simp only [assign, if_true]

theorem takeFd_spec : wp (takeFd f) E s fun r s' =>
    (r = none ∧ s' = s) ∨ ∃ fd, r = some fd ∧ s.ofile fd = none ∧
      s' = { s with ofile := assign s.ofile fd (some f) } := by
  simp only [takeFd, wp_bind, wp_get]
  split
  · next fd hfd =>
    rw [wp_bind, setOfile, wp_modify, wp_pure]
    exact .inr ⟨fd, rfl, fdalloc_eq_some hfd, rfl⟩
  · rw [wp_pure]
    exact .inl ⟨rfl, rfl⟩

theorem copyoutFd_spec {va : ℕ} {fd : Fin NOFILE} : wp (copyoutFd va fd) E s fun _ s' =>
    ∃ m, s' = { s with mem := m } := by
  simp only [copyoutFd, wp_bind, wp_get, wp_modify, wp_pure]
  exact ⟨_, rfl⟩

theorem NewPipe.onUser (h : NewPipe s₀ s rf wf pi) (ofile : Ofile) (mem : UserMem) :
    NewPipe s₀ { s with ofile := ofile, mem := mem } rf wf pi :=
  ⟨h.ne, h.unused, h.reader, h.writer, h.others, h.ends, h.free⟩

theorem NewPipe.copyFail {fd0 fd1 : Fin NOFILE} (h : NewPipe s₀ s rf wf pi)
    (hclean : FreeUntyped s₀.file) (hofile : assign (assign s.ofile fd0 none) fd1 none = s₀.ofile) :
    wp (copyFail sb K rf wf fd0 fd1) (fun _ => True) s fun _ s' => Untouched s₀ s' := by
  rw [PM.copyFail, wp_bind, setOfile, wp_modify, wp_bind, setOfile, wp_modify]
  exact (h.onUser _ s.mem).close hclean hofile

theorem sysPipe_of_freeUntyped {fdarray : ℕ} (hclean : FreeUntyped s.file)
    (hrun : (sysPipe sb K fdarray).run s = .ok (-1, s')) : Untouched s s' := by
  have hwp : wp (sysPipe sb K fdarray) (fun _ => True) s fun r s' => r = -1 → Untouched s s' := by
    rw [sysPipe, wp_bind]
    refine (pipealloc_spec hclean).mono ?_
    rintro r s₁ ⟨hofile, hr⟩
    cases r with
    | none => exact fun _ => hr
    | some ends =>
      obtain ⟨rf, wf⟩ := ends
      obtain ⟨pi, hnew⟩ := hr
      rw [wp_bind]
      refine takeFd_spec.mono fun r s₂ hr => ?_
      rcases hr with ⟨rfl, rfl⟩ | ⟨fd0, rfl, hfd0, rfl⟩
      · exact (hnew.close hclean hofile).mono fun _ _ h _ => h
      have hback : assign (assign s₁.ofile fd0 (some rf)) fd0 none = s.ofile := by
        rw [← hofile]
        exact assign_back hfd0
      rw [wp_bind]
      refine takeFd_spec.mono fun r s₃ hr => ?_
      rcases hr with ⟨rfl, rfl⟩ | ⟨fd1, rfl, hfd1, rfl⟩
      · rw [wp_bind, setOfile, wp_modify]
        exact ((hnew.onUser _ s₁.mem).close hclean hback).mono fun _ _ h _ => h
      have hne : fd1 ≠ fd0 := by
        rintro rfl
        simp only [assign, if_true] at hfd1
        cases hfd1
      have hfd1' : s.ofile fd1 = none := by
        rw [← hofile]
        simpa only [assign, if_neg hne] using hfd1
      -- whichever `copyout` fails, both descriptors are taken back
      have hfail : ∀ m, wp (PM.copyFail sb K rf wf fd0 fd1) (fun _ => True)
          { s₁ with
            ofile := assign (assign s₁.ofile fd0 (some rf)) fd1 (some wf), mem := m }
          fun r s' => r = -1 → Untouched s s' := by
        intro m
        refine ((hnew.onUser _ m).copyFail hclean ?_).mono fun _ _ h _ => h
        rw [assign_comm hne, hback]
        exact assign_back hfd1'
      rw [wp_bind]
      refine copyoutFd_spec.mono ?_
      rintro b s₄ ⟨m, hm⟩
      subst hm
      rw [wp_ite]
      refine ⟨fun _ => ?_, fun _ => hfail m⟩
      rw [wp_bind]
      refine copyoutFd_spec.mono ?_
      rintro b s₅ ⟨m', hm'⟩
      subst hm'
      rw [wp_ite]
      exact ⟨fun _ h0 => absurd h0 (by decide), fun _ => hfail m'⟩
  exact hwp.of_run_eq_ok hrun rfl

/-- **A failing `pipe()` leaves no trace.** Whatever the kernel did with its files before, after a
`sys_pipe` that returns -1 the descriptors, the references and types of all files and the free pages are
as they were. -/
theorem sysPipe_untouched {fdarray : ℕ} (h : ftable.Reachable s.file)
    (hrun : (sysPipe sb K fdarray).run s = .ok (-1, s')) : Untouched s s' :=
  sysPipe_of_freeUntyped (.of_reachable h) hrun

/-- A system in which a file is open, with the free pages `free`. The process has page 0 of its address
space only. -/
def oneOpen (free : List ℕ) : PipeSys where
  fs := ⟨fun _ _ => 0, fun _ => ⟨0, 0, false, false, .zero⟩, []⟩
  file f := if f = 0 then ⟨.inode, 1, true, false, 0, 0, 0, 0⟩ else ⟨.none, 0, false, false, 0, 0, 0, 0⟩
  ofile fd := if fd = 0 then some 0 else none
  mem := ⟨fun v => v == 0, fun _ => 0⟩
  ram := ⟨fun _ _ => .ofWord 0, free, []⟩
  pipe _ := ⟨true, true⟩

/-- A kernel of two pages. -/
def smallImage : Vm.Image := ⟨Vm.KERNBASE, Vm.KERNBASE + 2, le_rfl, by decide⟩

theorem oneOpen_reachable (free : List ℕ) : ftable.Reachable (oneOpen free).file := by
  have hrun : ftable.run (fun _ => ⟨.none, 0, false, false, 0, 0, 0, 0⟩)
      [.alloc, .set 0 ⟨.inode, 0, true, false, 0, 0, 0, 0⟩] = some (oneOpen free).file := by
    refine congrArg some (funext fun f => ?_)
    by_cases hf : f = 0
    · rw [hf]
      rfl
    · simp only [assign, oneOpen, if_neg hf]
      exact if_neg hf
  exact (Machine.Reachable.init rfl).of_run _ hrun

/-- The second `int` of `fdarray` is in a page that is not mapped. -/
theorem sysPipe_untouched_half : ∃ s',
    (sysPipe ⟨0, 0, 0, 0, 0, 0, 0⟩ smallImage 4092).run (oneOpen [0x80005, 0x80007]) =
      .ok (-1, s') ∧ Untouched (oneOpen [0x80005, 0x80007]) s' := by
  obtain ⟨s', hrun⟩ : ∃ s', (sysPipe ⟨0, 0, 0, 0, 0, 0, 0⟩ smallImage 4092).run
      (oneOpen [0x80005, 0x80007]) = .ok (-1, s') := ⟨_, rfl⟩
  exact ⟨s', hrun, sysPipe_untouched (oneOpen_reachable _) hrun⟩

end PM

end Xv6.Fs
