import Xv6.Fs.Inode
import Xv6.Lib.Hoare

/-!
# The open file table

Model of `ftable` of `kernel/file.c` with `filealloc`, `filedup` and the part of `fileclose` that runs
under `ftable.lock`, and of the descriptor table `ofile` of a process with `argfd` and `fdalloc` of
`kernel/sysfile.c`.
-/

namespace Xv6.Fs

open Lib

/-- `type` of a `struct file`. -/
inductive FileType where
  | none
  | pipe
  | inode
  | device
deriving DecidableEq

/-- `struct file`; `pipe` is the page of the pipe. -/
structure File where
  type : FileType
  ref : ℕ
  readable : Bool
  writable : Bool
  pipe : ℕ
  ip : Slot
  off : ℕ
  major : UInt16

/-- The inode that an open file refers to. -/
def File.inode? (x : File) : Option Slot :=
  match x.type with
  | .inode | .device => some x.ip
  | .none | .pipe => none

/-- Index of an open file, the `struct file *` of the code. -/
abbrev FileSlot := Fin NFILE

/-- `ftable` -/
abbrev Ftable := FileSlot → File

/-- The panics of `kernel/file.c`. -/
inductive FilePanic where
  /-- "filedup" -/
  | filedup
  /-- "fileclose" -/
  | fileclose
deriving DecidableEq

/-- Computations on the open file table. -/
abbrev FM (α : Type) := StateT Ftable (Except FilePanic) α

/-- Replace file `f`. -/
def setFile (f : FileSlot) (x : File) : FM Unit := modify fun t => assign t f x

/-- `filealloc`. -/
def filealloc : FM (Option FileSlot) := do
  let t ← get
  match (List.finRange NFILE).find? fun f => (t f).ref = 0 with
  | some f => do
      setFile f { t f with ref := 1 }
      return some f
  | none => return none

/-- `filedup`. -/
def filedup (f : FileSlot) : FM Unit := do
  let x := (← get) f
  if x.ref < 1 then throw .filedup else setFile f { x with ref := x.ref + 1 }

/-- The part of `fileclose` under `ftable.lock`: the file to close, if this was the last reference. -/
def unref (f : FileSlot) : FM (Option File) := do
  let x := (← get) f
  if x.ref < 1 then throw .fileclose
  else if 0 < x.ref - 1 then do
    setFile f { x with ref := x.ref - 1 }
    return none
  else do
    setFile f { x with ref := 0, type := .none }
    return some x

/-- `ofile` of a process. -/
abbrev Ofile := Fin NOFILE → Option FileSlot

/-- `argfd`: the descriptor and its file. -/
def argfd (ofile : Ofile) (n : ℤ) : Option (Fin NOFILE × FileSlot) :=
  if h : 0 ≤ n ∧ n < NOFILE then
    let fd : Fin NOFILE := ⟨n.toNat, by omega⟩
    (ofile fd).map fun f => (fd, f)
  else none

/-- The descriptor that `fdalloc` takes: the first free one. -/
def fdalloc (ofile : Ofile) : Option (Fin NOFILE) :=
  (List.finRange NOFILE).find? fun fd => ofile fd = none

/-- `argstr`: the user's string, unless it is too long for a buffer of `MAXPATH` bytes. -/
def argstr (bytes : List UInt8) : Option (List UInt8) :=
  let str := bytes.takeWhile (· ≠ 0)
  if str.length < MAXPATH then some str else none

/-- `O_WRONLY`, `O_RDWR` and `O_CREATE`: the bits of the mode. -/
abbrev O_WRONLY : ℕ := 0
@[inherit_doc O_WRONLY] abbrev O_RDWR : ℕ := 1
@[inherit_doc O_WRONLY] abbrev O_CREATE : ℕ := 9

/-! ## What they do -/

variable {t : Ftable} {f : FileSlot} {ofile : Ofile} {E : FilePanic → Prop}

theorem filealloc_full : wp filealloc E t fun r t' => (r = none ∧ t' = t ∧ ∀ f, (t f).ref ≠ 0) ∨
      ∃ f, r = some f ∧ (t f).ref = 0 ∧ t' = assign t f { t f with ref := 1 } := by
  simp only [filealloc, wp_bind, wp_get]
  split
  · next f hf =>
    have h0 : (t f).ref = 0 := by simpa using List.find?_some hf
    rw [wp_bind, setFile, wp_modify, wp_pure]
    exact .inr ⟨f, rfl, h0, rfl⟩
  · next hnone =>
    rw [List.find?_eq_none] at hnone
    rw [wp_pure]
    exact .inl ⟨rfl, rfl, fun f h0 => hnone f (List.mem_finRange f) (decide_eq_true h0)⟩

theorem filealloc_spec : wp filealloc E t fun r t' => (r = none ∧ t' = t) ∨
    ∃ f, r = some f ∧ (t f).ref = 0 ∧ t' = assign t f { t f with ref := 1 } :=
  filealloc_full.mono fun _ _ h => h.imp_left fun h => ⟨h.1, h.2.1⟩

theorem filedup_spec (h : 0 < (t f).ref) : wp (filedup f) E t fun _ t' =>
    t' = assign t f { t f with ref := (t f).ref + 1 } := by
  simp only [filedup, wp_bind, wp_get]
  rw [if_neg (by omega), setFile, wp_modify]

theorem unref_spec (h : 0 < (t f).ref) : wp (unref f) E t fun r t' =>
    (1 < (t f).ref ∧ r = none ∧ t' = assign t f { t f with ref := (t f).ref - 1 }) ∨
      ((t f).ref = 1 ∧ r = some (t f) ∧ t' = assign t f { t f with ref := 0, type := .none }) := by
  simp only [unref, wp_bind, wp_get]
  rw [if_neg (by omega), wp_ite]
  refine ⟨fun hlt => ?_, fun hge => ?_⟩
  · rw [wp_bind, setFile, wp_modify, wp_pure]
    exact .inl ⟨by omega, rfl, rfl⟩
  · rw [wp_bind, setFile, wp_modify, wp_pure]
    exact .inr ⟨by omega, rfl, rfl⟩

theorem argfd_eq_some {n : ℤ} {fd : Fin NOFILE} (h : argfd ofile n = some (fd, f)) :
    ofile fd = some f := by
  unfold argfd at h
  split at h
  · obtain ⟨g, hg, heq⟩ := Option.map_eq_some_iff.mp h
    obtain ⟨rfl, rfl⟩ := Prod.mk.inj heq
    exact hg
  · cases h

theorem fdalloc_eq_some {fd : Fin NOFILE} (h : fdalloc ofile = some fd) : ofile fd = none := by
  simpa using List.find?_some h

end Xv6.Fs
