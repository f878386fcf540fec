import Xv6.Itable.Refs

/-!
# Every exit of a system call

Each function, on each of its exits, gives back the references and locks it took: a `wp` statement about
its program. A system call ends with what the process owned before, less or more what its descriptors
and its current directory say (`idle_syscall`).
-/

namespace Xv6.Itable

open Fs Option
open Lib (assign countAt)
open Lib.Prog (wp_bind wp_ite)
open Multiset (cons_swap mem_cons_self notMem_zero count_zero mem_cons_of_mem count_cons)

variable {g : Own} {k dp ip cwd : Slot} {i l : Multiset Slot}

theorem Own.Runs.ends_eq (h : g.Runs none) : g.ends = 0 :=
  Multiset.eq_zero_of_forall_notMem fun e he => absurd (h.2 e he).symm (some_ne_none e.1)

theorem Idle.runs (h : Idle g) (hlive : g.proc.state = .live) : g.Runs none :=
  ⟨hlive, fun e he => absurd (h.ends ▸ he) (notMem_zero e)⟩

/-! ## One operation and the rest of the program -/

section

variable {β : Type} {Q : β → Own → Prop} {t : Unit → Program β}

section

variable {dev inum : ℕ} {u : Slot → Program β} {w : Inode → Program β} {n : UInt16}
  {b : Bool → Program β} {fd : Fin NOFILE} {v : Option FileSlot} {f : FileSlot} {np : ProcSlot}
  {c : Proc} {y : Multiset FileSlot} (hlive : g.Runs none)

include hlive

theorem wp_beginOp (hop : g.inOp = false)
    (h : (t ()).wp rules Q { g with inOp := true }) : (perform .beginOp >>= t).wp rules Q g :=
  (wp_bind ..).mpr ⟨hlive, hop, h⟩

theorem wp_endOp (h : (t ()).wp rules Q { g with inOp := false }) :
    (perform .endOp >>= t).wp rules Q g :=
  (wp_bind ..).mpr ⟨hlive, h⟩

theorem wp_iget (h : ∀ k, (u k).wp rules Q { g with inodes := k ::ₘ g.inodes }) :
    (perform (.iget dev inum) >>= u).wp rules Q g :=
  (wp_bind ..).mpr ⟨hlive, h⟩

theorem wp_idup (hk : k ∈ g.inodes) (h : (t ()).wp rules Q { g with inodes := k ::ₘ g.inodes }) :
    (perform (.idup k) >>= t).wp rules Q g :=
  (wp_bind ..).mpr ⟨hlive, hk, h⟩

theorem wp_ilock (hi : g.inodes = k ::ₘ i) (h : (t ()).wp rules Q { g with locks := k ::ₘ g.locks }) :
    (perform (.ilock k) >>= t).wp rules Q g :=
  (wp_bind ..).mpr ⟨hlive, hi ▸ mem_cons_self k i, h⟩

theorem wp_iunlock (hl : g.locks = k ::ₘ l)
    (h : (t ()).wp rules Q { g with locks := l }) : (perform (.iunlock k) >>= t).wp rules Q g :=
  (wp_bind ..).mpr ⟨hlive, l, hl, h⟩

theorem wp_inode (h : ∀ x, (w x).wp rules Q g) : (perform (.inode k) >>= w).wp rules Q g :=
  (wp_bind ..).mpr ⟨hlive, h⟩

theorem wp_setNlink (hk : k ∈ g.locks) (h : (t ()).wp rules Q g) :
    (perform (.setNlink k n) >>= t).wp rules Q g :=
  (wp_bind ..).mpr ⟨hlive, hk, h⟩

theorem wp_succeeds (h : ∀ r, (b r).wp rules Q g) : (perform .succeeds >>= b).wp rules Q g :=
  (wp_bind ..).mpr ⟨hlive, h⟩

theorem wp_setOfile (h : (t ()).wp rules Q { g with proc.ofile := assign g.proc.ofile fd v }) :
    (perform (.setOfile fd v) >>= t).wp rules Q g :=
  (wp_bind ..).mpr ⟨hlive, h⟩

theorem wp_filedup (hf : f ∈ g.files) (hfresh : f ∉ g.fresh)
    (h : (t ()).wp rules Q { g with files := f ::ₘ g.files }) :
    (perform (.filedup f) >>= t).wp rules Q g :=
  (wp_bind ..).mpr ⟨hlive, hf, hfresh, h⟩

theorem wp_childOfile
    (hchild : g.child = some (np, c)) (hfd : c.ofile fd = none) (hy : g.files = f ::ₘ y)
    (hfresh : f ∉ g.fresh) (hin : g.inPipe = none) (h : (t ()).wp rules Q { g with
      files := y, child := some (np, { c with ofile := assign c.ofile fd (some f) }) }) :
    (perform (.childOfile np fd f) >>= t).wp rules Q g :=
  (wp_bind ..).mpr ⟨hlive, c, y, hchild, hfd, hy, hfresh, hin, h⟩

end

end

/-! ## Inodes -/

variable {β : Type} {t : Unit → Program β} {parent : Bool} {path : List UInt8}

section

variable {S : β → Own → Prop} {α : Type} {P : α → Own → Prop} {e : Panic} {dev : ℕ} {type : UInt16}
  {R : Option Slot → Own → Prop} {name : List UInt8} {B : Bool → Own → Prop} {n : ℕ}
  {N : Option (Slot × List UInt8) → Own → Prop} (hlive : g.Runs none)

include hlive

theorem wp_iput (hi : g.inodes = k ::ₘ i)
    (h : (t ()).wp rules S { g with inodes := i }) : (iput k >>= t).wp rules S g := by
  rw [wp_bind, iput, wp_bind]
  refine ⟨hlive, i, hi, ?_, ?_⟩
  · exact h
  · change (do perform (.iputFree k); perform (.iputLast k) : Program Unit).wp rules _ _
    rw [wp_bind]
    exact ⟨hlive, g.locks, rfl, hlive, i, hi, h⟩

theorem wp_iunlockput (hi : g.inodes = k ::ₘ i) (hl : g.locks = k ::ₘ l)
    (h : (t ()).wp rules S { g with inodes := i, locks := l }) :
    (iunlockput k >>= t).wp rules S g := by
  rw [wp_bind, iunlockput]
  refine wp_iunlock hlive hl ?_
  rw [← wp_bind]
  exact wp_iput hlive hi h

theorem wp_panic (he : ¬ Excluded e) : (panic e).wp rules P g := by
  rw [panic, wp_bind]
  exact ⟨hlive, he⟩

theorem wp_ialloc (hnone : R none g) (hsome : ∀ k, R (some k) { g with inodes := k ::ₘ g.inodes }) :
    (ialloc dev type).wp rules R g := by
  rw [ialloc, wp_bind]
  refine ⟨hlive, fun r => ?_⟩
  cases r with
  | none => exact hnone
  | some inum => exact wp_iget hlive hsome

theorem wp_dirlookup (hnone : R none g) (hsome : ∀ k, R (some k) { g with inodes := k ::ₘ g.inodes }) :
    (dirlookup dp name).wp rules R g := by
  rw [dirlookup]
  refine wp_inode hlive fun d => wp_ite (fun _ => wp_panic hlive id) fun _ => ?_
  rw [wp_bind]
  refine ⟨hlive, fun r => ?_⟩
  cases r with
  | none => exact hnone
  | some inum => exact wp_iget hlive hsome

theorem wp_dirlink (hQ : ∀ r, B r g) : (dirlink dp name).wp rules B g := by
  rw [dirlink, wp_bind]
  refine wp_dirlookup hlive ?_ fun k => ?_
  · exact ⟨hlive, hQ⟩
  · exact wp_iput hlive rfl (hQ false)

theorem wp_namexLoop (hi : g.inodes = ip ::ₘ i) (hnone : N none { g with inodes := i })
    (hsome : ∀ k name, N (some (k, name)) { g with inodes := k ::ₘ i }) :
    (namexLoop parent n ip path).wp rules N g := by
  induction n generalizing g ip path with
  | zero =>
    have h := hsome ip []
    rwa [← hi] at h
  | succ n ih =>
    have hret : ∀ name, N (some (ip, name)) g := by
      intro name
      have h := hsome ip name
      rwa [← hi] at h
    rw [namexLoop]
    split
    · next name rest _ =>
      refine wp_ilock hlive hi (wp_inode hlive fun d => ?_)
      refine wp_ite (fun _ => ?_) fun _ => wp_ite (fun _ => ?_) fun _ => ?_
      · exact wp_iunlockput hlive hi rfl hnone
      · exact wp_iunlock hlive rfl (hret name)
      · rw [wp_bind]
        refine wp_dirlookup hlive ?_ fun next => ?_
        · exact wp_iunlockput hlive hi rfl hnone
        · -- ip is put, the next element is kept
          refine wp_iunlockput hlive (i := next ::ₘ i) ?_ rfl (ih hlive rfl hnone hsome)
          change next ::ₘ g.inodes = _
          rw [hi, cons_swap]
    · refine wp_ite (fun _ => ?_) fun _ => hret []
      exact wp_iput hlive hi hnone

theorem wp_namex (hcwd : cwd ∈ g.inodes) (hnone : N none g)
    (hsome : ∀ k name, N (some (k, name)) { g with inodes := k ::ₘ g.inodes }) :
    (namex cwd path parent).wp rules N g := by
  rw [namex]
  refine wp_ite (fun _ => ?_) fun _ => ?_
  · exact wp_iget hlive fun k => wp_namexLoop hlive rfl hnone hsome
  · exact wp_idup hlive hcwd (wp_namexLoop hlive rfl hnone hsome)

theorem wp_namei (hcwd : cwd ∈ g.inodes) (hnone : R none g)
    (hsome : ∀ k, R (some k) { g with inodes := k ::ₘ g.inodes }) :
    (namei cwd path).wp rules R g := by
  rw [namei, wp_bind]
  exact wp_namex hlive hcwd hnone fun k _ => hsome k

end

/-! ## Files -/

variable {Q : Unit → Own → Prop}

theorem wp_pipeclose {pi : ℕ} {w : Bool} (hlive : g.proc.state = .live) (he : g.ends = {(pi, some w)})
    (hQ : Q () { g with ends := 0 }) : (pipeclose pi w).wp rules Q g := by
  rw [pipeclose, wp_bind]
  refine ⟨⟨hlive, fun e' he' => ?_⟩, he, hQ, ?_⟩
  · rw [he, Multiset.mem_singleton] at he'
    rw [he']
    rfl
  · change (perform (.kfree pi)).wp rules Q _
    refine ⟨⟨hlive, fun e' he' => ?_⟩, 0, rfl, hQ⟩
    rw [Multiset.mem_singleton.mp he']
    rfl

theorem wp_closeCopy {ff : File} (hlive : g.proc.state = .live)
    (hop : g.inOp = false) (hi : g.inodes = fileInodes ff + i) (he : g.ends = fileEnds ff)
    (hQ : Q () { g with inodes := i, ends := 0 }) : (closeCopy ff).wp rules Q g := by
  have hQ' : Q () { g with inodes := i, inOp := false, ends := 0 } := by rwa [← hop]
  have hends : ff.type ≠ .pipe → g.ends = 0 := by
    intro hne
    rw [he, fileEnds, pipeEnd, if_neg hne]
    rfl
  have hiput : (ff.type = .inode ∨ ff.type = .device) →
      (do perform .beginOp; iput ff.ip; perform .endOp : Program Unit).wp rules Q g := by
    intro htype
    have hne : ff.type ≠ .pipe := by
      rcases htype with htype | htype
      · rw [htype]
        simp
      · rw [htype]
        simp
    have hruns : g.Runs none :=
      ⟨hlive, fun e he => absurd (hends hne ▸ he) (notMem_zero e)⟩
    rw [← hends hne] at hQ'
    refine wp_beginOp hruns hop (wp_iput hruns (i := i) ?_ ⟨hruns, hQ'⟩)
    rw [hi, fileInodes, File.inode?]
    rcases htype with htype | htype
    · rw [htype]
      rfl
    · rw [htype]
      rfl
  unfold closeCopy
  cases htype : ff.type with
  | none =>
    have hi' : g.inodes = i := by rw [hi, fileInodes, File.inode?, htype]; exact zero_add i
    rw [htype] at hends
    rwa [← hi', ← hends (by simp)] at hQ
  | pipe =>
    have hi' : g.inodes = i := by rw [hi, fileInodes, File.inode?, htype]; exact zero_add i
    rw [← hi'] at hQ
    refine wp_pipeclose hlive ?_ hQ
    rw [he, fileEnds, pipeEnd, if_pos htype]
    rfl
  | inode => exact hiput (.inl htype)
  | device => exact hiput (.inr htype)

variable {y : Multiset FileSlot} {f : FileSlot}

theorem wp_fileclose (hlive : g.Runs none)
    (hop : g.inOp = false) (hy : g.files = f ::ₘ y) (hfresh : f ∉ g.fresh) (hin : g.inPipe = none)
    (hQ : Q () { g with files := y }) :
    (fileclose .close f).wp rules Q g := by
  rw [fileclose, wp_bind]
  refine ⟨hlive, y, hy, hfresh, hin, hQ, fun ff => ?_⟩
  have hends := hlive.ends_eq
  refine wp_closeCopy hlive.1 hop rfl ?_ ?_
  · change fileEnds ff + g.ends = _
    rw [hends, add_zero]
  · rw [hends] at hQ
    exact hQ

theorem wp_fileclose_fail {z : Multiset FileSlot}
    (hlive : g.Runs none) (hy : g.files = f ::ₘ y) (hz : g.fresh = f ::ₘ z) (hin : g.inPipe = none)
    (hQ : Q () { g with files := y, fresh := z }) :
    (fileclose .fail f).wp rules Q g := by
  rw [fileclose, wp_bind]
  refine ⟨hlive, y, z, hy, hz, hin, fun ff htype => ?_⟩
  change (closeCopy ff).wp rules _ _
  rw [closeCopy, htype]
  exact hQ

theorem wp_filealloc {t : Option FileSlot → Program β} {Q : β → Own → Prop}
    (hlive : g.Runs none) (hnone : (t none).wp rules Q g) (hsome : ∀ f, (t (some f)).wp rules Q
      { g with files := f ::ₘ g.files, fresh := f ::ₘ g.fresh }) :
    (perform .filealloc >>= t).wp rules Q g :=
  (wp_bind ..).mpr ⟨hlive, hnone, hsome⟩

theorem wp_sysFdalloc {ofile : Ofile}
    {t : Option (Fin NOFILE) → Program β} {Q : β → Own → Prop} (hlive : g.Runs none)
    (hnone : (t none).wp rules Q g) (hsome : ∀ fd, ofile fd = none → (t (some fd)).wp rules Q
      { g with proc.ofile := assign g.proc.ofile fd (some f) }) :
    (sysFdalloc ofile f >>= t).wp rules Q g := by
  rw [wp_bind, sysFdalloc]
  cases hfd : fdalloc ofile with
  | none => exact hnone
  | some fd => exact wp_setOfile hlive (hsome fd (fdalloc_eq_some hfd))

theorem wp_pipealloc {Q : Option (FileSlot × FileSlot) → Own → Prop}
    (hlive : g.Runs none) (hin : g.inPipe = none) (hnone : Q none g)
    (hsome : ∀ f0 f1, Q (some (f0, f1)) { g with files := f1 ::ₘ f0 ::ₘ g.files }) :
    pipealloc.wp rules Q g := by
  rw [pipealloc]
  refine wp_filealloc hlive hnone fun f0 => wp_filealloc hlive ?_ fun f1 => ?_
  · rw [wp_bind]
    exact wp_fileclose_fail hlive rfl rfl hin hnone
  · rw [wp_bind]
    refine ⟨hlive, ?_, fun pi => ?_⟩
    · change (do fileclose .fail f0; fileclose .fail f1; return none : Program _).wp rules Q _
      rw [wp_bind]
      refine wp_fileclose_fail hlive (cons_swap ..) (cons_swap ..) hin ?_
      rw [wp_bind]
      exact wp_fileclose_fail hlive rfl rfl hin hnone
    · change (do perform (.setPipe f0 pi false); perform (.setPipe f1 pi true)
                 return some (f0, f1) : Program _).wp rules Q _
      have hboth : ∀ e ∈ ((pi, some true) ::ₘ g.ends : Multiset PipeEnd), some pi = some e.1 := by
        intro e he
        rcases Multiset.mem_cons.mp he with rfl | he
        · rfl
        · exact absurd (hlive.ends_eq ▸ he) (notMem_zero e)
      rw [wp_bind]
      refine ⟨⟨hlive.1, fun e he => ?_⟩, f1 ::ₘ g.fresh, _, cons_swap .., rfl, ?_⟩
      · rcases Multiset.mem_cons.mp he with rfl | he
        · rfl
        · exact hboth e he
      change (do perform (.setPipe f1 pi true); return some (f0, f1) : Program _).wp rules Q _
      rw [wp_bind]
      exact ⟨⟨hlive.1, hboth⟩, g.fresh, g.ends, rfl, rfl, hsome f0 f1⟩

/-! ## Operations on names

Each starts inside a transaction with only the references of the process, and ends that way. -/

section

variable {Q : Unit → Own → Prop} {path name : List UInt8}

section

variable {old new : List UInt8} {type : UInt16} (hlive : g.Runs none)

include hlive

theorem wp_linkBad (hi : g.inodes = ip ::ₘ i)
    (hQ : Q () { g with inodes := i, inOp := false }) : (linkBad ip).wp rules Q g :=
  wp_ilock hlive hi <| wp_inode hlive fun _ => wp_setNlink hlive (mem_cons_self ..) <|
    wp_iunlockput hlive hi rfl ⟨hlive, hQ⟩

theorem wp_linkNew (hcwd : cwd ∈ g.inodes)
    (hi : g.inodes = ip ::ₘ i) (hQ : Q () { g with inodes := i, inOp := false }) :
    (linkNew cwd ip path).wp rules Q g := by
  rw [linkNew, wp_bind]
  refine wp_namex hlive hcwd (wp_linkBad hlive hi hQ) fun dp name => ?_
  refine wp_ilock hlive rfl <| wp_inode hlive fun d => wp_inode hlive fun e => ?_
  have hrest : ∀ linked : Bool, (if linked then (do iunlockput dp; iput ip; perform .endOp)
      else (do iunlockput dp; linkBad ip) : Program Unit).wp rules Q
        { g with inodes := dp ::ₘ g.inodes, locks := dp ::ₘ g.locks } := by
    intro linked
    refine wp_ite (fun _ => ?_) fun _ => ?_
    · exact wp_iunlockput hlive rfl rfl (wp_iput hlive hi ⟨hlive, hQ⟩)
    · exact wp_iunlockput hlive rfl rfl (wp_linkBad hlive hi hQ)
  refine wp_ite (fun _ => hrest false) fun _ => ?_
  exact (wp_bind ..).mpr (wp_dirlink hlive hrest)

theorem wp_sysLink (hop : g.inOp = false) (hcwd : cwd ∈ g.inodes) (hQ : Q () { g with inOp := false }) :
    (sysLink cwd old new).wp rules Q g := by
  refine wp_beginOp hlive hop ((wp_bind ..).mpr ?_)
  refine wp_namei hlive hcwd ⟨hlive, hQ⟩ fun ip => ?_
  refine wp_ilock hlive rfl <| wp_inode hlive fun d => wp_ite (fun _ => ?_) fun _ => ?_
  · exact wp_iunlockput hlive rfl rfl ⟨hlive, hQ⟩
  · exact wp_setNlink hlive (mem_cons_self ..) <| wp_iunlock hlive rfl <|
      wp_linkNew hlive (mem_cons_of_mem hcwd) rfl hQ

theorem wp_unlinkBad (hi : g.inodes = dp ::ₘ i)
    (hl : g.locks = dp ::ₘ l) (hQ : Q () { g with inodes := i, locks := l, inOp := false }) :
    (unlinkBad dp).wp rules Q g :=
  wp_iunlockput hlive hi hl ⟨hlive, hQ⟩

theorem wp_unlinkEntry (hi : g.inodes = ip ::ₘ dp ::ₘ i) (hl : g.locks = ip ::ₘ dp ::ₘ l)
    (hQ : Q () { g with inodes := i, locks := l, inOp := false }) :
    (unlinkEntry dp ip type).wp rules Q g := by
  have hdp : dp ∈ g.locks := by
    rw [hl]
    exact mem_cons_of_mem (mem_cons_self ..)
  have hrest : (do
      iunlockput dp
      let d ← perform (.inode ip)
      perform (.setNlink ip (d.nlink - 1))
      iunlockput ip
      perform .endOp : Program Unit).wp rules Q g := by
    refine wp_iunlockput hlive (i := ip ::ₘ i) (l := ip ::ₘ l) ?_ ?_ ?_
    · rw [hi, cons_swap]
    · rw [hl, cons_swap]
    · exact wp_inode hlive fun _ => wp_setNlink hlive (mem_cons_self ..) <|
        wp_iunlockput hlive rfl rfl ⟨hlive, hQ⟩
  refine wp_succeeds hlive fun r => wp_ite (fun _ => ?_) fun _ => wp_panic hlive id
  refine wp_ite (fun _ => ?_) fun _ => hrest
  exact wp_inode hlive fun _ => wp_setNlink hlive hdp hrest

theorem wp_unlinkFound (hi : g.inodes = ip ::ₘ dp ::ₘ i)
    (hl : g.locks = dp ::ₘ l) (hQ : Q () { g with inodes := i, locks := l, inOp := false }) :
    (unlinkFound dp ip).wp rules Q g := by
  have hl' : ip ::ₘ g.locks = ip ::ₘ dp ::ₘ l := by rw [hl]
  refine wp_ilock hlive hi <| wp_inode hlive fun d => wp_ite (fun _ => wp_panic hlive id) fun _ => ?_
  refine wp_ite (fun _ => ?_) fun _ => wp_unlinkEntry hlive hi hl' hQ
  refine wp_succeeds hlive fun r => wp_ite (fun _ => wp_unlinkEntry hlive hi hl' hQ) fun _ => ?_
  exact wp_iunlockput hlive hi hl' (wp_unlinkBad hlive rfl rfl hQ)

theorem wp_sysUnlink (hop : g.inOp = false) (hcwd : cwd ∈ g.inodes)
    (hQ : Q () { g with inOp := false }) : (sysUnlink cwd path).wp rules Q g := by
  refine wp_beginOp hlive hop ((wp_bind ..).mpr ?_)
  refine wp_namex hlive hcwd ⟨hlive, hQ⟩ fun dp name => ?_
  refine wp_ilock hlive rfl <| wp_ite (fun _ => wp_unlinkBad hlive rfl rfl hQ) fun _ => ?_
  refine (wp_bind ..).mpr (wp_dirlookup hlive (wp_unlinkBad hlive rfl rfl hQ) fun ip => ?_)
  exact wp_unlinkFound hlive rfl rfl hQ

end

end

section

variable {Q : Option Slot → Own → Prop} {path name : List UInt8} {type major : UInt16}

section

variable (hlive : g.Runs none) (hi : g.inodes = ip ::ₘ dp ::ₘ i)

include hlive hi

theorem wp_createFail
    (hl : g.locks = ip ::ₘ dp ::ₘ l) (hQ : Q none { g with inodes := i, locks := l }) :
    (createFail dp ip).wp rules Q g :=
  wp_setNlink hlive (hl ▸ mem_cons_self ..) <| wp_iunlockput hlive hi hl <|
    wp_iunlockput hlive rfl rfl hQ

theorem wp_createLink
    (hl : g.locks = ip ::ₘ dp ::ₘ l) (hnone : Q none { g with inodes := i, locks := l })
    (hsome : Q (some ip) { g with inodes := ip ::ₘ i, locks := ip ::ₘ l }) :
    (createLink dp ip name type).wp rules Q g := by
  have hdp : dp ∈ g.locks := by
    rw [hl]
    exact mem_cons_of_mem (mem_cons_self ..)
  have hrest : (do iunlockput dp; return some ip : Program (Option Slot)).wp rules Q g := by
    refine wp_iunlockput hlive (i := ip ::ₘ i) (l := ip ::ₘ l) ?_ ?_ hsome
    · rw [hi, cons_swap]
    · rw [hl, cons_swap]
  refine (wp_bind ..).mpr (wp_dirlink hlive fun r => wp_ite (fun _ => ?_) fun _ => ?_)
  · refine wp_ite (fun _ => ?_) fun _ => hrest
    exact wp_inode hlive fun _ => wp_setNlink hlive hdp hrest
  · exact wp_createFail hlive hi hl hnone

theorem wp_createNew (hl : g.locks = dp ::ₘ l) (hnone : Q none { g with inodes := i, locks := l })
    (hsome : Q (some ip) { g with inodes := ip ::ₘ i, locks := ip ::ₘ l }) :
    (createNew dp ip name type major).wp rules Q g := by
  have hl' : ip ::ₘ g.locks = ip ::ₘ dp ::ₘ l := by rw [hl]
  have hlink : (createLink dp ip name type).wp rules Q { g with locks := ip ::ₘ g.locks } :=
    wp_createLink hlive hi hl' hnone hsome
  have hfail : (createFail dp ip).wp rules Q { g with locks := ip ::ₘ g.locks } :=
    wp_createFail hlive hi hl' hnone
  refine wp_ilock hlive hi ((wp_bind ..).mpr ⟨hlive, mem_cons_self .., ?_⟩)
  refine wp_ite (fun _ => ?_) fun _ => hlink
  refine (wp_bind ..).mpr (wp_dirlink hlive fun r => wp_ite (fun _ => ?_) fun _ => hfail)
  exact (wp_bind ..).mpr (wp_dirlink hlive fun r => wp_ite (fun _ => hlink) fun _ => hfail)

end

theorem wp_create (hlive : g.Runs none) (hcwd : cwd ∈ g.inodes) (hnone : Q none g)
    (hsome : ∀ ip, Q (some ip) { g with inodes := ip ::ₘ g.inodes, locks := ip ::ₘ g.locks }) :
    (create cwd path type major).wp rules Q g := by
  refine (wp_bind ..).mpr (wp_namex hlive hcwd hnone fun dp name => ?_)
  refine wp_ilock hlive rfl ((wp_bind ..).mpr (wp_dirlookup hlive ?_ fun ip => ?_))
  · refine wp_inode hlive fun d => (wp_bind ..).mpr (wp_ialloc hlive ?_ fun ip => ?_)
    · exact wp_iunlockput hlive rfl rfl hnone
    · exact wp_createNew hlive rfl rfl hnone (hsome ip)
  · refine wp_iunlockput hlive (i := ip ::ₘ g.inodes) ?_ rfl ?_
    · exact cons_swap ..
    · refine wp_ilock hlive rfl <| wp_inode hlive fun d => wp_ite (fun _ => hsome ip) fun _ => ?_
      exact wp_iunlockput hlive rfl rfl hnone

end

/-! ## System calls -/

section

variable {fd : Fin NOFILE} {f : FileSlot} {x : Proc} {path : List UInt8}

theorem Idle.inodes_eq (h : Idle g) (hcwd : g.proc.cwd = some cwd) : g.inodes = {cwd} := by
  ext k
  rw [h.inodes, hcwd, count_singleton_some]

theorem Idle.cwd_mem (h : Idle g) (hcwd : g.proc.cwd = some cwd) : cwd ∈ g.inodes := by
  rw [h.inodes_eq hcwd]
  exact Multiset.mem_singleton_self cwd

theorem Idle.file_mem (h : Idle g) (hfd : g.proc.ofile fd = some f) : f ∈ g.files := by
  rw [← Multiset.count_pos, h.files]
  exact Lib.countAt_pos hfd

theorem Idle.not_fresh (h : Idle g) : f ∉ g.fresh := by
  rw [h.fresh]
  exact notMem_zero f

theorem Idle.ended (h : Idle g) : Idle { g with inOp := false } := { h with inOp := rfl }

theorem Idle.install (h : Idle g) (hfd : g.proc.ofile fd = none) (f : FileSlot) :
    Idle { g with files := f ::ₘ g.files, proc.ofile := assign g.proc.ofile fd (some f) } := by
  refine { h with files := fun f' => ?_ }
  change (f ::ₘ g.files).count f' = countAt (assign g.proc.ofile fd (some f)) (some f')
  rw [count_cons, h.files, countAt_assign_some hfd]

variable {y : Multiset FileSlot}

theorem Idle.clear (h : Idle g) (hfd : g.proc.ofile fd = some f) (hy : g.files = f ::ₘ y) :
    Idle { g with files := y, proc.ofile := assign g.proc.ofile fd none } := by
  refine { h with files := fun f' => ?_ }
  change y.count f' = countAt (assign g.proc.ofile fd none) (some f')
  have h1 := h.files f'
  have h2 := countAt_assign_none hfd f'
  rw [hy, count_cons] at h1
  omega

variable {omode : ℕ}

section

variable {R : Option Slot → Own → Prop} {rf wf : FileSlot} (hlive : g.Runs none)

include hlive

theorem idle_sysDup (h : Idle g) (n : ℤ) : (sysDup g.proc n).wp rules (fun _ => Idle) g := by
  unfold sysDup
  split
  · exact h
  · next fd f hfd =>
    refine wp_sysFdalloc hlive h fun fd' hfd' => ?_
    exact ⟨hlive, h.file_mem (argfd_eq_some hfd), h.not_fresh, h.install hfd' f⟩

theorem idle_sysClose (h : Idle g) (n : ℤ) : (sysClose g.proc n).wp rules (fun _ => Idle) g := by
  unfold sysClose
  split
  · exact h
  · next fd f hfd =>
    have hofile := argfd_eq_some hfd
    obtain ⟨y, hy⟩ := Multiset.exists_cons_of_mem (h.file_mem hofile)
    exact wp_setOfile hlive (wp_fileclose hlive h.inOp hy h.not_fresh h.inPipe (h.clear hofile hy))

theorem wp_openFail (hi : g.inodes = ip ::ₘ i) (hl : g.locks = ip ::ₘ l)
    (hQ : Q () { g with inodes := i, locks := l, inOp := false }) : (openFail ip).wp rules Q g :=
  wp_iunlockput hlive hi hl ⟨hlive, hQ⟩

theorem wp_openInode (hcwd : cwd ∈ g.inodes) (hnone : R none g)
    (hsome : ∀ ip, R (some ip) { g with inodes := ip ::ₘ g.inodes, locks := ip ::ₘ g.locks }) :
    (openInode cwd path omode).wp rules R g := by
  refine wp_ite (fun _ => wp_create hlive hcwd hnone hsome) fun _ => ?_
  refine (wp_bind ..).mpr (wp_namei hlive hcwd hnone fun ip => ?_)
  refine wp_ilock hlive rfl <| wp_inode hlive fun d => wp_ite (fun _ => ?_) fun _ => hsome ip
  exact wp_iunlockput hlive rfl rfl hnone

theorem wp_openFile (hi : g.inodes = ip ::ₘ i) (hl : g.locks = ip ::ₘ l) (hin : g.inPipe = none)
    (hfail : Q () { g with inodes := i, locks := l, inOp := false })
    (hopen : ∀ f fd, x.ofile fd = none → Q () { g with
      inodes := i, locks := l, inOp := false, files := f ::ₘ g.files,
      proc.ofile := assign g.proc.ofile fd (some f) }) :
    (openFile x ip omode).wp rules Q g := by
  refine wp_inode hlive fun d => wp_ite (fun _ => wp_openFail hlive hi hl hfail) fun _ => ?_
  refine wp_filealloc hlive (wp_openFail hlive hi hl hfail) fun f => ?_
  refine wp_sysFdalloc hlive ?_ fun fd hfd => ?_
  · rw [wp_bind]
    exact wp_fileclose_fail hlive rfl rfl hin (wp_openFail hlive hi hl hfail)
  · rw [wp_bind]
    exact ⟨hlive, i, g.fresh, hi, rfl, wp_iunlock hlive hl ⟨hlive, hopen f fd hfd⟩⟩

theorem idle_sysOpen (h : Idle g) (hcwd : g.proc.cwd = some cwd)
    (omode : ℕ) : (sysOpen g.proc cwd path omode).wp rules (fun _ => Idle) g := by
  unfold sysOpen
  split
  · exact h
  · refine wp_beginOp hlive h.inOp ((wp_bind ..).mpr ?_)
    refine wp_openInode hlive (h.cwd_mem hcwd) ⟨hlive, h.ended⟩ fun ip => ?_
    exact wp_openFile hlive rfl rfl h.inPipe h.ended fun f fd hfd => (h.install hfd f).ended

theorem idle_sysCreate (h : Idle g) (hcwd : g.proc.cwd = some cwd) (type major : UInt16) :
    (sysCreate cwd path type major).wp rules (fun _ => Idle) g := by
  refine wp_beginOp hlive h.inOp ?_
  split
  · exact ⟨hlive, h.ended⟩
  · refine (wp_bind ..).mpr (wp_create hlive (h.cwd_mem hcwd) ⟨hlive, h.ended⟩ fun ip => ?_)
    exact wp_iunlockput hlive rfl rfl ⟨hlive, h.ended⟩

theorem idle_sysChdir (h : Idle g) (hcwd : g.proc.cwd = some cwd) :
    (sysChdir cwd path).wp rules (fun _ => Idle) g := by
  refine wp_beginOp hlive h.inOp ?_
  split
  · exact ⟨hlive, h.ended⟩
  · refine (wp_bind ..).mpr (wp_namei hlive (h.cwd_mem hcwd) ⟨hlive, h.ended⟩ fun ip => ?_)
    refine wp_ilock hlive rfl <| wp_inode hlive fun d => wp_ite (fun _ => ?_) fun _ => ?_
    · exact wp_iunlockput hlive rfl rfl ⟨hlive, h.ended⟩
    · refine wp_iunlock hlive rfl (wp_iput hlive (i := {ip}) ?_ (wp_endOp hlive ⟨hlive, ?_⟩))
      · change ip ::ₘ g.inodes = _
        rw [h.inodes_eq hcwd]
        exact cons_swap ..
      · refine { h with inodes := fun k => ?_, inOp := rfl }
        exact count_singleton_some ip k

theorem wp_closeBoth (hop : g.inOp = false) (hfresh : g.fresh = 0) (hin : g.inPipe = none)
    (hy : g.files = wf ::ₘ rf ::ₘ y) (hQ : Q () { g with files := y }) :
    (do fileclose .close rf; fileclose .close wf : Program Unit).wp rules Q g := by
  have hnot : ∀ f, f ∉ g.fresh := by
    intro f
    rw [hfresh]
    exact notMem_zero f
  rw [wp_bind]
  refine wp_fileclose hlive hop (y := wf ::ₘ y) ?_ (hnot rf) hin ?_
  · rw [hy, cons_swap]
  · exact wp_fileclose hlive hop rfl (hnot wf) hin hQ

end

theorem assign_none_self {ofile : Ofile} (h : ofile fd = none) (v : Option FileSlot) :
    assign (assign ofile fd v) fd none = ofile := by
  rw [Lib.assign_eq_update, Lib.assign_eq_update, Function.update_idem, ← h, Function.update_eq_self]

variable {fds : List (Fin NOFILE)}

section

variable {pi : ℕ} {w : Bool} {turns : ℕ} {n : ℕ} {R : Bool → Own → Prop} {np : ProcSlot} {c : Proc}
  {S : β → Own → Prop} (hlive : g.Runs none)

include hlive

theorem idle_sysPipe (h : Idle g) : (sysPipe g.proc).wp rules (fun _ => Idle) g := by
  refine (wp_bind ..).mpr (wp_pipealloc hlive h.inPipe h fun rf wf => ?_)
  refine wp_sysFdalloc hlive ?_ fun fd0 hfd0 => ?_
  · exact wp_closeBoth hlive h.inOp h.fresh h.inPipe rfl h
  have hundo : assign (assign g.proc.ofile fd0 (some rf)) fd0 none = g.proc.ofile :=
    assign_none_self hfd0 _
  refine wp_sysFdalloc hlive ?_ fun fd1 hfd1 => ?_
  · refine wp_setOfile hlive (wp_closeBoth hlive h.inOp h.fresh h.inPipe rfl ?_)
    change Idle { g with proc.ofile := assign (assign g.proc.ofile fd0 (some rf)) fd0 none }
    rw [hundo]
    exact h
  · refine wp_succeeds hlive fun r => wp_ite (fun _ => ?_) fun _ => ?_
    · exact (h.install hfd0 rf).install hfd1 wf
    · refine wp_setOfile hlive (wp_setOfile hlive (wp_closeBoth hlive h.inOp h.fresh h.inPipe rfl ?_))
      have hne : fd0 ≠ fd1 := by
        rintro rfl
        rw [Lib.assign_eq_update, Function.update_self] at hfd1
        cases hfd1
      have hfree : g.proc.ofile fd1 = none := by rwa [assign, if_neg hne.symm] at hfd1
      have hundo' : assign (assign (assign (assign g.proc.ofile fd0 (some rf)) fd1 (some wf)) fd0
          none) fd1 none = g.proc.ofile := by
        funext fd
        simp only [assign]
        by_cases h1 : fd = fd1
        · rw [if_pos h1, h1, hfree]
        · by_cases h0 : fd = fd0
          · rw [if_neg h1, if_pos h0, h0, hfd0]
          · rw [if_neg h1, if_neg h0, if_neg h1, if_neg h0]
      change Idle { g with proc.ofile := assign (assign (assign (assign g.proc.ofile fd0 (some rf))
        fd1 (some wf)) fd0 none) fd1 none }
      rw [hundo']
      exact h

theorem wp_pipeTurns (hin : g.inPipe = some (f, pi))
    (hQ : Q () { g with inPipe := none }) : (pipeTurns pi w turns).wp rules Q g := by
  induction turns with
  | zero =>
    rw [pipeTurns, wp_bind]
    exact ⟨hlive, f, hin, fun _ => .inl hQ⟩
  | succ turns ih =>
    rw [pipeTurns, wp_bind]
    refine ⟨hlive, f, hin, fun b => ?_⟩
    cases b with
    | true => exact .inl hQ
    | false => exact .inr ih

theorem idle_sysTransfer (h : Idle g) (n : ℤ) (w : Bool)
    (turns : ℕ) : (sysTransfer g.proc n w turns).wp rules (fun _ => Idle) g := by
  unfold sysTransfer
  split
  · exact h
  · next fd f hfd =>
    rw [fileTransfer, wp_bind]
    refine ⟨hlive, h.file_mem (argfd_eq_some hfd), h.not_fresh, fun x => ?_⟩
    by_cases hx : (if w then x.writable else x.readable) = true ∧ x.type = .pipe
    · refine .inr ⟨hx.2, h.inPipe, wp_ite (fun _ => ?_) fun hn => absurd hx hn⟩
      exact wp_pipeTurns hlive rfl { h with inPipe := rfl }
    · exact .inl (wp_ite (fun hp => absurd hp hx) fun _ => h)

theorem wp_execLoad (hQ : ∀ r, R r g) : (execLoad n).wp rules R g := by
  induction n with
  | zero => exact hQ true
  | succ n ih => exact wp_succeeds hlive fun r => wp_ite (fun _ => ih) fun _ => hQ false

theorem idle_sysExec (h : Idle g) (hcwd : g.proc.cwd = some cwd)
    (phnum : ℕ) : (sysExec cwd path phnum).wp rules (fun _ => Idle) g := by
  unfold sysExec
  split
  · exact h
  · refine wp_succeeds hlive fun r => wp_ite (fun _ => ?_) fun _ => h
    refine wp_beginOp hlive h.inOp ((wp_bind ..).mpr ?_)
    refine wp_namei hlive (h.cwd_mem hcwd) ⟨hlive, h.ended⟩ fun ip => ?_
    refine wp_ilock hlive rfl <| wp_succeeds hlive fun r => wp_ite (fun _ => ?_) fun _ => ?_
    · refine (wp_bind ..).mpr (wp_execLoad hlive fun _ => ?_)
      exact wp_iunlockput hlive rfl rfl ⟨hlive, h.ended⟩
    · exact wp_iunlockput hlive rfl rfl ⟨hlive, h.ended⟩

theorem wp_forkFiles (hchild : g.child = some (np, c)) (hfds : fds.Nodup)
    (hfree : ∀ fd ∈ fds, c.ofile fd = none) (hfiles : ∀ fd f, x.ofile fd = some f → f ∈ g.files)
    (hfresh : g.fresh = 0) (hin : g.inPipe = none)
    (hQ : ∀ ofile, (t ()).wp rules S { g with child := some (np, { c with ofile := ofile }) }) :
    (forkFiles x np fds >>= t).wp rules S g := by
  induction fds generalizing g c with
  | nil =>
    have h := hQ c.ofile
    rw [← hchild] at h
    exact h
  | cons fd fds ih =>
    obtain ⟨hnotMem, hfds⟩ := List.nodup_cons.mp hfds
    rw [wp_bind, forkFiles]
    split
    · next f hf =>
      have hnew : ∀ fd' ∈ fds, assign c.ofile fd (some f) fd' = none := by
        intro fd' hfd'
        have hne : fd' ≠ fd := by
          rintro rfl
          exact hnotMem hfd'
        rw [assign, if_neg hne]
        exact hfree fd' (List.mem_cons_of_mem fd hfd')
      have hf' : f ∉ g.fresh := by
        rw [hfresh]
        exact notMem_zero f
      refine wp_filedup hlive (hfiles fd f hf) hf' ?_
      refine wp_childOfile hlive hchild (hfree fd (List.mem_cons_self ..)) rfl hf' hin ?_
      rw [← wp_bind]
      exact ih hlive rfl hfds hnew hfiles hfresh hin hQ
    · rw [← wp_bind]
      exact ih hlive hchild hfds (fun fd' hfd' => hfree fd' (List.mem_cons_of_mem fd hfd')) hfiles
        hfresh hin hQ

theorem idle_fork (h : Idle g) (hcwd : g.proc.cwd = some cwd) :
    (fork g.proc cwd).wp rules (fun _ => Idle) g := by
  have hend : Idle { g with child := none } := { h with child := rfl }
  refine (wp_bind ..).mpr ⟨hlive, h.child, h, fun np => ?_⟩
  refine wp_succeeds hlive fun r => wp_ite (fun _ => ?_) fun _ => ?_
  · refine wp_forkFiles hlive rfl (List.nodup_finRange NOFILE) (fun _ _ => rfl)
      (fun fd f hf => h.file_mem hf) h.fresh h.inPipe fun ofile => ?_
    refine wp_idup hlive (h.cwd_mem hcwd) ((wp_bind ..).mpr ?_)
    exact ⟨hlive, _, g.inodes, rfl, rfl, rfl, hlive, _, rfl, hend⟩
  · exact ⟨hlive, rfl, hend⟩

theorem wp_exitFiles (h : Idle g) (hfds : fds.Nodup) (hopen : ∀ fd ∈ fds, g.proc.ofile fd = x.ofile fd)
    (hdone : ∀ fd, fd ∉ fds → g.proc.ofile fd = none)
    (hQ : (t ()).wp rules S { g with files := 0, proc.ofile := fun _ => none }) :
    (exitFiles x fds >>= t).wp rules S g := by
  induction fds generalizing g with
  | nil =>
    have hofile : g.proc.ofile = fun _ => none := funext fun fd => hdone fd List.not_mem_nil
    have hfiles : g.files = 0 := by
      ext f
      rw [h.files, count_zero, hofile, Lib.countAt_eq_zero]
      exact fun _ => (some_ne_none f).symm
    rw [← hofile, ← hfiles] at hQ
    exact hQ
  | cons fd fds ih =>
    obtain ⟨hnotMem, hfds⟩ := List.nodup_cons.mp hfds
    have hfd := hopen fd (List.mem_cons_self ..)
    rw [wp_bind, exitFiles]
    split
    · next f hf =>
      rw [hf] at hfd
      obtain ⟨y, hy⟩ := Multiset.exists_cons_of_mem (h.file_mem hfd)
      refine (wp_bind ..).mpr (wp_fileclose hlive h.inOp hy h.not_fresh h.inPipe ?_)
      refine wp_setOfile hlive ?_
      rw [← wp_bind]
      refine ih hlive (h.clear hfd hy) hfds (fun fd' hfd' => ?_) (fun fd' hfd' => ?_) hQ
      · change assign g.proc.ofile fd none fd' = _
        have hne : fd' ≠ fd := by
          rintro rfl
          exact hnotMem hfd'
        rw [assign, if_neg hne]
        exact hopen fd' (List.mem_cons_of_mem fd hfd')
      · change assign g.proc.ofile fd none fd' = _
        rw [assign]
        by_cases he : fd' = fd
        · rw [if_pos he]
        · rw [if_neg he]
          exact hdone fd' fun hm => (List.mem_cons.mp hm).elim he hfd'
    · next hf =>
      rw [hf] at hfd
      rw [← wp_bind]
      refine ih hlive h hfds (fun fd' hfd' => hopen fd' (List.mem_cons_of_mem fd hfd'))
        (fun fd' hfd' => ?_) hQ
      by_cases he : fd' = fd
      · rw [he, hfd]
      · exact hdone fd' fun hm => (List.mem_cons.mp hm).elim he hfd'

end

theorem idle_exit (p : ProcSlot) (hlive : g.Runs none) (h : Idle g)
    (hcwd : g.proc.cwd = some cwd) : (exit p g.proc cwd).wp rules (fun _ => Idle) g := by
  refine wp_ite (fun _ => wp_panic hlive id) fun _ => ?_
  refine wp_exitFiles hlive h (List.nodup_finRange NOFILE) (fun _ _ => rfl)
    (fun fd hfd => absurd (List.mem_finRange fd) hfd) ?_
  refine wp_beginOp hlive h.inOp (wp_iput hlive (i := 0) (h.inodes_eq hcwd) (wp_endOp hlive ?_))
  have hend : ∀ state, Idle { g with
      proc := { state := state, ofile := fun _ => none, cwd := none }, files := 0, inodes := 0,
      inOp := false } := by
    intro state
    refine { h with inodes := fun k => ?_, files := fun f => ?_, inOp := rfl }
    · exact (if_neg (some_ne_none k).symm).symm
    · exact (Lib.countAt_eq_zero.mpr fun _ => (some_ne_none f).symm).symm
  exact (wp_bind ..).mpr ⟨hlive, hlive, rfl, rfl, hend _, hend _⟩

theorem idle_syscall (p : ProcSlot) (hlive : g.Runs none) (h : Idle g)
    (hcwd : g.proc.cwd = some cwd) (c : Call) :
    (syscall p g.proc cwd c).wp rules (fun _ => Idle) g := by
  cases c with
  | «open» path omode => exact idle_sysOpen hlive h hcwd omode
  | dup fd => exact idle_sysDup hlive h fd
  | close fd => exact idle_sysClose hlive h fd
  | read fd turns => exact idle_sysTransfer hlive h fd false turns
  | write fd turns => exact idle_sysTransfer hlive h fd true turns
  | pipe => exact idle_sysPipe hlive h
  | mkdir path => exact idle_sysCreate hlive h hcwd T_DIR 0
  | mknod path major => exact idle_sysCreate hlive h hcwd T_DEVICE major
  | link old new =>
    unfold syscall
    dsimp only
    split
    · exact wp_sysLink hlive h.inOp (h.cwd_mem hcwd) h.ended
    · exact h
  | unlink path =>
    unfold syscall
    dsimp only
    split
    · exact wp_sysUnlink hlive h.inOp (h.cwd_mem hcwd) h.ended
    · exact h
  | chdir path => exact idle_sysChdir hlive h hcwd
  | exec path phnum => exact idle_sysExec hlive h hcwd phnum
  | fork => exact idle_fork hlive h hcwd
  | exit => exact idle_exit p hlive h hcwd
  | wait => exact wp_succeeds hlive fun r => wp_ite (fun _ => ⟨hlive, h⟩) fun _ => h

end

/-! ## All interleavings -/

/-- What the processes own in the beginning. -/
def initialOwn (p : ProcSlot) : Own where
  proc := Shared.initial.proc p
  inodes := if p = initproc then {0} else 0
  locks := 0
  files := 0
  fresh := 0
  inOp := false
  child := none
  ends := 0
  inPipe := none

theorem idle_initialOwn (p : ProcSlot) : Idle (initialOwn p) := by
  refine ⟨fun k => ?_, rfl, fun f => ?_, rfl, rfl, rfl, rfl, rfl⟩
  · change (if p = initproc then ({0} : Multiset Slot) else 0).count k =
      if (if p = initproc then _ else _ : Proc).cwd = some k then 1 else 0
    by_cases hp : p = initproc
    · rw [if_pos hp, if_pos hp]
      exact count_singleton_some 0 k
    · rw [if_neg hp, if_neg hp]
      exact (if_neg (some_ne_none k).symm).symm
  · refine (Lib.countAt_eq_zero.mpr fun fd => ?_).symm
    change (if p = initproc then _ else _ : Proc).ofile fd ≠ some f
    by_cases hp : p = initproc
    · rw [if_pos hp]
      exact (some_ne_none f).symm
    · rw [if_neg hp]
      exact (some_ne_none f).symm

theorem inv_initial : Inv initialOwn Shared.initial := by
  have hsum : ∀ k, ∑ p, (initialOwn p).inodes.count k = if k = 0 then 1 else 0 := by
    intro k
    rw [Finset.sum_eq_single initproc]
    · exact Multiset.count_singleton ..
    · intro p _ hp
      rw [initialOwn, if_neg hp]
      exact count_zero k
    · exact fun h => absurd (Finset.mem_univ _) h
  refine ⟨⟨fun p => rfl, fun p => rfl, nofun, nofun, fun p _ => idle_initialOwn p, fun p hp => ?_⟩,
    fun k => ?_, fun k => ?_, ?_, fun f => ?_, fun f _ => rfl,
    fun p => ⟨le_rfl, ?_, fun _ _ hp => absurd hp.symm (some_ne_none _)⟩, fun e => ?_⟩
  · change (if p = initproc then _ else _ : Proc).state = _ ∨
      (if p = initproc then _ else _ : Proc).state = _ at hp
    change (if p = initproc then _ else _ : Proc) = .blank (if p = initproc then _ else _ : Proc).state
    by_cases h0 : p = initproc
    · rw [if_pos h0] at hp
      rcases hp with hp | hp <;> cases hp
    · rw [if_neg h0]
      rfl
  · rw [hsum]
    change (if k = 0 then _ else _ : Inode).ref = _ + Lib.countAt (fun _ => none) (some k)
    rw [Lib.countAt_eq_zero.mpr fun _ => (some_ne_none k).symm]
    by_cases hk : k = 0
    · rw [if_pos hk, if_pos hk]
    · rw [if_neg hk, if_neg hk]
  · have hzero : ∑ p, (initialOwn p).locks.count k = 0 :=
      Finset.sum_eq_zero fun p _ => count_zero k
    rw [hzero]
    change (if k = 0 then _ else _ : Inode).locked.toNat = 0
    by_cases hk : k = 0
    · rw [if_pos hk]
      rfl
    · rw [if_neg hk]
      rfl
  · have hused : ∀ k, 0 < (Shared.initial.inode k).ref → k = 0 := by
      intro k hk
      by_contra hne
      change 0 < (if k = 0 then _ else _ : Inode).ref at hk
      rw [if_neg hne] at hk
      exact Nat.lt_irrefl 0 hk
    exact fun j k hj hk _ _ => (hused j hj).trans (hused k hk).symm
  · exact (Finset.sum_eq_zero fun p _ => count_zero f).symm
  · exact fun f hf => absurd hf (notMem_zero f)
  · have hends : ∑ p, (initialOwn p).ends.count e = 0 :=
      Finset.sum_eq_zero fun p _ => count_zero e
    have hfiles : endRefs Shared.initial.file e = 0 :=
      Lib.countAt_eq_zero.mpr fun _ => (some_ne_none e).symm
    rw [hends, hfiles]
    rfl

theorem sound : threads.Sound (fun _ => rules) Inv Idle (fun g => g.proc.state = .live) Excluded where
  init s hs := ⟨initialOwn, by rw [hs]; exact inv_initial, idle_initialOwn⟩
  entry γ s p c t hinv hidle ht := by
    change entry s p c = some t at ht
    unfold entry at ht
    split at ht
    · next hlive =>
      obtain ⟨cwd, hcwd, rfl⟩ := map_eq_some_iff.mp ht
      rw [hinv.proc] at hlive hcwd ⊢
      exact idle_syscall p (hidle.runs hlive) hidle hcwd c
    · cases ht
  runs _ _ _ _ h := h.1.1
  exec γ s p o x R hinv hrule := sound_exec hinv x hrule

variable {s : Lib.Threads.State Op.Res ProcSlot Shared}

theorem exists_idle (hs : machine.Reachable s) (hidle : ∀ p, s.prog p = none) :
    ∃ γ, Inv γ s.shared ∧ ∀ p, Idle (γ p) := by
  obtain ⟨γ, hinv, howned⟩ := Lib.Threads.reachable_owned sound hs
  refine ⟨γ, hinv, fun p => ?_⟩
  have h := howned p
  rwa [hidle p] at h

variable {γ : ProcSlot → Own}

theorem sum_cwd (hidle : ∀ p, Idle (γ p)) (k : Slot) :
    ∑ p, (γ p).inodes.count k = countAt (fun p => (γ p).proc.cwd) (some k) := by
  rw [Lib.countAt_eq_sum]
  exact Finset.sum_congr rfl fun p _ => (hidle p).inodes k

theorem sum_ofile (hidle : ∀ p, Idle (γ p)) (f : FileSlot) : ∑ p, (γ p).files.count f =
      countAt (fun i : ProcSlot × Fin NOFILE => (γ i.1).proc.ofile i.2) (some f) := by
  rw [Lib.countAt_eq_sum, Fintype.sum_prod_type]
  refine Finset.sum_congr rfl fun p _ => ?_
  rw [(hidle p).files f, Lib.countAt_eq_sum]

/-- Whether an open file in use refers to inode `k`. -/
def RefersTo (x : File) (k : Slot) : Prop :=
  0 < x.ref ∧ (x.type = .inode ∨ x.type = .device) ∧ x.ip = k

instance (x : File) (k : Slot) : Decidable (RefersTo x k) :=
  inferInstanceAs (Decidable (_ ∧ _))

theorem refersTo_iff {t : Ftable} (hidle : ∀ f, (t f).ref = 0 → (t f).type = .none) (f : FileSlot)
    (k : Slot) : RefersTo (t f) k ↔ (t f).inode? = some k := by
  unfold RefersTo File.inode?
  constructor
  · rintro ⟨_, htype | htype, hip⟩
    · rw [htype, ← hip]
    · rw [htype, ← hip]
  · intro h
    have hpos : (t f).type ≠ .none → 0 < (t f).ref := fun hne =>
      Nat.pos_of_ne_zero fun h0 => hne (hidle f h0)
    cases htype : (t f).type with
    | none => rw [htype] at h; cases h
    | pipe => rw [htype] at h; cases h
    | inode =>
      rw [htype] at h hpos
      exact ⟨hpos nofun, .inl rfl, Option.some.inj h⟩
    | device =>
      rw [htype] at h hpos
      exact ⟨hpos nofun, .inr rfl, Option.some.inj h⟩

/-- **The inode table is consistent** in every interleaving of the system calls of all processes: an inode
has at most one entry in use, and while no system call is in progress an entry has one reference for each
open file and each current directory that refers to it, and is not locked. -/
theorem itable_consistent (hs : machine.Reachable s) :
    (∀ j k, 0 < (s.shared.inode j).ref → 0 < (s.shared.inode k).ref →
      (s.shared.inode j).dev = (s.shared.inode k).dev →
      (s.shared.inode j).inum = (s.shared.inode k).inum → j = k) ∧
    ((∀ p, s.prog p = none) → ∀ k,
      (s.shared.inode k).ref =
        (Finset.univ.filter fun f => RefersTo (s.shared.file f) k).card +
          (Finset.univ.filter fun p => (s.shared.proc p).cwd = some k).card ∧
      (s.shared.inode k).locked = false) := by
  refine ⟨?_, fun hquiet k => ?_⟩
  · obtain ⟨γ, hinv, _⟩ := Lib.Threads.reachable_owned sound hs
    exact hinv.unique
  · obtain ⟨γ, hinv, hidle⟩ := exists_idle hs hquiet
    have href := hinv.inode k
    rw [sum_cwd hidle] at href
    have hfiles : fileRefs s.shared.file k =
        (Finset.univ.filter fun f => RefersTo (s.shared.file f) k).card := by
      unfold fileRefs countAt
      congr 1
      ext f
      rw [Finset.mem_filter, Finset.mem_filter, refersTo_iff hinv.idle]
    have hcwd : countAt (fun p => (γ p).proc.cwd) (some k) =
        (Finset.univ.filter fun p => (s.shared.proc p).cwd = some k).card := by
      rw [show (fun p => (γ p).proc.cwd) = fun p => (s.shared.proc p).cwd from
        funext fun p => by rw [hinv.proc]]
      rfl
    refine ⟨by omega, ?_⟩
    have hlock := hinv.lock k
    rw [Finset.sum_eq_zero fun p _ => by rw [(hidle p).locks, Multiset.count_zero]] at hlock
    cases hb : (s.shared.inode k).locked with
    | false => rfl
    | true => rw [hb] at hlock; cases hlock

/-- The state after `userinit`. -/
def start : Lib.Threads.State Op.Res ProcSlot Shared := ⟨.initial, fun _ => none⟩

theorem reachable_of_run {acts : List (Lib.Threads.Act ProcSlot Call Choice)}
    (hs : s ∈ machine.run start acts) : machine.Reachable s := by
  have hinit : machine.init start := ⟨rfl, fun _ => rfl⟩
  exact (Lib.Machine.Reachable.init hinit).of_run acts (mem_def.mp hs)

/-- The first process opens `/x` and forks. -/
def openFork : List (Lib.Threads.Act ProcSlot Call Choice) :=
  let x : Choice := { din := (T_DIR, 1, 0), inum := some 5, proc := some 1 }
  .call 0 (.open [slash, 120] 0) :: List.replicate 17 (.go 0 x) ++
    .call 0 .fork :: List.replicate 7 (.go 0 x)

/-- Then the root directory is the current directory of two processes, and `/x` is open once. -/
theorem itable_consistent_openFork :
    ∃ s, machine.Reachable s ∧ (∀ p, s.prog p = none) ∧
      (s.shared.inode 0).ref = 2 ∧ (s.shared.inode 1).ref = 1 ∧
      (Finset.univ.filter fun f => RefersTo (s.shared.file f) 1).card +
        (Finset.univ.filter fun p => (s.shared.proc p).cwd = some 1).card = 1 := by
  have hrun : ∃ s ∈ machine.run start openFork,
      (∀ p, (s.prog p).isNone = true) ∧ (s.shared.inode 0).ref = 2 ∧ (s.shared.inode 1).ref = 1 := by
    decide +kernel
  obtain ⟨s, hs, hquiet, h0, h1⟩ := hrun
  have hreach := reachable_of_run hs
  have hidle : ∀ p, s.prog p = none := fun p => isNone_iff_eq_none.mp (hquiet p)
  exact ⟨s, hreach, hidle, h0, h1, by rw [← h1, ((itable_consistent hreach).2 hidle 1).1]⟩

/-- **The file table is consistent** in every interleaving of the system calls of all processes. While no
system call is in progress a file has one reference for each descriptor that points to it. A file
without references has no type, always. The panics of `filedup` and `fileclose` and a transaction inside
a transaction do not happen. Where `fileclose` gives a slot back on an error exit, the slot has no other
reference, and there is nothing left to do once its reference is dropped. -/
theorem ftable_consistent (hs : machine.Reachable s) :
    ((∀ p, s.prog p = none) → ∀ f, (s.shared.file f).ref =
      (Finset.univ.filter fun i : ProcSlot × Fin NOFILE =>
        (s.shared.proc i.1).ofile i.2 = some f).card) ∧
    (∀ f, (s.shared.file f).ref = 0 → (s.shared.file f).type = .none) ∧
    (∀ p x e, threads.next s p x ≠ some (.error (.file e))) ∧
    (∀ p x, threads.next s p x ≠ some (.error .nestedOp)) ∧
    (∀ p f k, s.prog p = some (.op (.unref .fail f) k) →
      (s.shared.file f).ref = 1 ∧ closeCopy (s.shared.file f) = pure ()) := by
  refine ⟨fun hquiet f => ?_, fun f => ?_, fun p x e he => ?_, fun p x he => ?_,
    fun p f k hp => ?_⟩
  · obtain ⟨γ, hinv, hidle⟩ := exists_idle hs hquiet
    have hrow : (fun i : ProcSlot × Fin NOFILE => (γ i.1).proc.ofile i.2) =
        fun i => (s.shared.proc i.1).ofile i.2 := funext fun i => by rw [hinv.proc]
    rw [hinv.file f, sum_ofile hidle, hrow]
    rfl
  · obtain ⟨γ, hinv, _⟩ := Lib.Threads.reachable_owned sound hs
    exact hinv.idle f
  · exact Lib.Threads.next_not_bad sound hs he trivial
  · exact Lib.Threads.next_not_bad sound hs he trivial
  · obtain ⟨γ, hinv, howned⟩ := Lib.Threads.reachable_owned sound hs
    have hop := howned p
    rw [hp] at hop
    have hrule : Rule (.unref .fail f) (fun r => (k r).wp rules fun _ => Idle) (γ p) := hop.op
    obtain ⟨_, y, z, _, hz, _⟩ := hrule
    obtain ⟨_, href, htype, _⟩ := hinv.fresh_once hz
    refine ⟨href, ?_⟩
    rw [closeCopy, htype]

/-- After the run the file is referred to by a descriptor of each process. -/
theorem ftable_consistent_openFork :
    ∃ s, machine.Reachable s ∧ (∀ p, s.prog p = none) ∧ (s.shared.file 0).ref = 2 ∧
      (Finset.univ.filter fun i : ProcSlot × Fin NOFILE =>
        (s.shared.proc i.1).ofile i.2 = some 0).card = 2 := by
  have hrun : ∃ s ∈ machine.run start openFork,
      (∀ p, (s.prog p).isNone = true) ∧ (s.shared.file 0).ref = 2 := by
    decide +kernel
  obtain ⟨s, hs, hquiet, h0⟩ := hrun
  have hreach := reachable_of_run hs
  have hidle : ∀ p, s.prog p = none := fun p => isNone_iff_eq_none.mp (hquiet p)
  exact ⟨s, hreach, hidle, h0, by rw [← h0, (ftable_consistent hreach).1 hidle 0]⟩

end Xv6.Itable
