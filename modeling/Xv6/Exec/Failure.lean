import Xv6.Exec.Exec
import Xv6.Fs.Counts

/-!
# What a failed `exec` leaves

While `exec` builds the new image, the pages of the image are its own and every other page stays as it is:
`Building` says so, and every step on memory keeps it. While `exec` holds the inode of the program, the
references and locks are those at the call and the one it holds: `Holding` says so, and every step on the
file system keeps it. At a `goto bad` both are given back.
-/

namespace Xv6.Exec

open Lib Vm List

variable {K : Image} {sb : Fs.Superblock} {E : Stop → Prop} {w : World}

/-! ## Rules for the two halves of the state -/

variable {α : Type} {Q : α → World → Prop}

@[simp] theorem wp_onFs {x : Fs.M α} :
    wp (onFs x) E w Q ↔ wp x (fun e => E (.fs e)) w.fs fun a s => Q a { w with fs := s } := by
  have honPart : onFs x = onPart World.fs (fun w s => { w with fs := s }) .fs x := by
    funext w
    unfold onFs onPart
    cases x.run w.fs <;> rfl
  rw [honPart, wp_onPart]

variable {x : VM α}

@[simp] theorem wp_onRam :
    wp (onRam x) E w Q ↔ wp x (fun e => E (.vm e)) w.ram fun a s => Q a { w with ram := s } := by
  have honPart : onRam x = onPart World.ram (fun w s => { w with ram := s }) .vm x := by
    funext w
    unfold onRam onPart
    cases x.run w.ram <;> rfl
  rw [honPart, wp_onPart]

/-! ## Memory -/

/-- The image that `exec` builds for `p`, beside the pages `F` of others. -/
def Building (K : Image) (F : Pages) (p : Vm.Proc) (s : Ram) : Prop :=
  ∃ u, p.Fits u ∧ Own K s (pt p.pagetable (leaves K p.trapframe (u.map UserPage.pte)) * (umem u * F))

/-- `*pte &= ~PTE_U` -/
def clearU (c : Pte) : Pte := { c with perm := { c.perm with u := false } }

theorem ppn_clearU (c : Pte) : (clearU c).ppn = c.ppn := rfl

variable {c : Pte} {v : ℕ}

theorem assign_leaves_set {tf : ℕ} {l : List Pte} (hv : v < l.length) :
    assign (leaves K tf l) v (some c) = leaves K tf (l.set v c) := by
  funext i
  rw [assign, leaves, leaves, length_set]
  by_cases hi : i = v
  · rw [if_pos hi, hi, if_pos hv, getElem?_set_self hv]
  · rw [if_neg hi, getElem?_set_ne (Ne.symm hi)]

theorem umem_set {u : List UserPage} (hv : v < u.length) (hc : c.ppn = u[v].pte.ppn) :
    umem (u.set v ⟨c, u[v].data⟩) = umem u := by
  have hlt : v < (u.map fun p => page p.pte.ppn p.data).length := by
    rw [length_map]
    exact hv
  have hsame : page c.ppn u[v].data = (u.map fun p => page p.pte.ppn p.data)[v] := by
    rw [getElem_map, hc]
  rw [umem, umem, map_set, hsame, set_getElem_self]

namespace Building

variable {F : Pages} {p : Vm.Proc} {s : Ram} {E : Panic → Prop}

theorem start {tf root : ℕ} (h : Own K s (pt root (leaves K tf []) * F)) :
    Building K F ⟨true, tf, root, 0⟩ s := by
  refine ⟨[], ⟨Nat.zero_le _, ?_, fun q hq => absurd hq not_mem_nil⟩, ?_⟩
  · rw [length_nil, Nat.zero_mul, PGROUNDUP_zero]
  · rw [umem_nil, one_mul]
    exact h

section

variable (h : Building K F p s)

include h

theorem free : wp (procFreepagetable K p.pagetable p.sz) E s fun _ s' => Own K s' F := by
  obtain ⟨u, hfits, hown⟩ := h
  exact hown.procFreepagetable hfits.leaf hfits.length.symm hfits.length_le

theorem roundup : Building K F { p with sz := PGROUNDUP p.sz } s := by
  obtain ⟨u, hfits, hown⟩ := h
  have hlen := hfits.length_le
  refine ⟨u, ⟨?_, ?_, hfits.leaf⟩, hown⟩
  · have htop : u.length * PGSIZE ≤ (2 ^ 26 - 2) * PGSIZE := Nat.mul_le_mul_right _ hlen
    rw [hfits.length] at htop
    exact htop
  · change u.length * PGSIZE = PGROUNDUP (PGROUNDUP p.sz)
    rw [← hfits.length, PGROUNDUP_mul (by omega)]

theorem uvmalloc {newsz : ℕ} {xperm : Perm} :
    wp (uvmalloc K p.pagetable p.sz newsz xperm) E s fun r s' =>
      if r = 0 then Building K F p s' else Building K F { p with sz := r } s' := by
  obtain ⟨u, hfits, hown⟩ := h
  by_cases hlt : newsz < p.sz
  · rw [Vm.uvmalloc, if_pos hlt, wp_pure, if_neg (by omega)]
    exact ⟨u, hfits, hown⟩
  · refine (hown.uvmalloc hfits.length.symm (by omega)).mono fun r s' hr => ?_
    rcases hr with ⟨rfl, new, hlen, hperm, hs'⟩ | ⟨rfl, hs'⟩
    · have hgrow : Proc.Fits { p with sz := r } (u ++ new) := by
        refine hfits.grow (by omega) hlen ?_ fun q hq => ?_
        · rw [mul_left_comm] at hs'
          exact hs'.length_le
        · rw [Pte.IsLeaf, (hperm q hq).1]
          rfl
      have hbuilt : Building K F { p with sz := r } s' := ⟨u ++ new, hgrow, hs'⟩
      by_cases hr : r = 0
      · -- nothing was asked for
        rw [if_pos hr]
        have hsz : r = p.sz := by omega
        have hp : { p with sz := r } = p := by rw [hsz]
        rw [hp] at hbuilt
        exact hbuilt
      · rw [if_neg hr]
        exact hbuilt
    · rw [if_pos rfl]
      exact ⟨u, hfits, hs'⟩

variable {va : ℕ}

theorem fill {q : ℕ} {c : Idx → Pte} (hq : physical s.word p.pagetable va = some q) :
    wp (Vm.fill q c) E s fun _ s' => Building K F p s' := by
  obtain ⟨u, hfits, hown⟩ := h
  obtain ⟨pte, hmap, huser, rfl⟩ := mapping_of_physical hq
  have hva : va < MAXVA := by
    by_contra hle
    rw [mapping_of_le (by omega)] at hmap
    cases hmap
  rw [hown.mapping hva] at hmap
  rcases leaves_cases hmap with ⟨x, hx, rfl⟩ | ⟨-, rfl | rfl⟩
  · obtain ⟨u1, u2, rfl⟩ := append_of_mem hx
    have hpage := hown
    rw [umem_append, umem_cons, mul_assoc, mul_assoc, mul_left_comm (umem u1), mul_left_comm] at hpage
    refine hpage.held_of_page.fill_page.mono fun _ s' h' => ?_
    refine ⟨u1 ++ ⟨x.pte, c⟩ :: u2, ⟨hfits.below, ?_, fun y hy => ?_⟩, ?_⟩
    · rw [← hfits.length]
      simp only [length_append, length_cons]
    · rw [mem_append, mem_cons] at hy
      rcases hy with hy | rfl | hy
      · exact hfits.leaf y (mem_append_left _ hy)
      · exact hfits.leaf x hx
      · exact hfits.leaf y (mem_append_right _ (mem_cons_of_mem _ hy))
    · rw [mul_left_comm, mul_left_comm (page _ _)] at h'
      rw [umem_append, umem_cons, mul_assoc, mul_assoc]
      rw [map_append, map_cons] at h' ⊢
      exact h'
  · cases huser
  · cases huser

theorem uvmclear (hva : va < p.sz) :
    wp (uvmclear p.pagetable va) E s fun _ s' => Building K F p s' := by
  obtain ⟨u, hfits, hown⟩ := h
  have hlt : va / PGSIZE < u.length := by
    rw [← hfits.turns]
    simp only [PGSIZE]
    omega
  have hlen := hfits.length_le
  have hmax : va < MAXVA := by
    change va / 4096 < u.length at hlt
    change va < 2 ^ 38
    omega
  have hleaf : leaves K p.trapframe (u.map UserPage.pte) (va / PGSIZE) = some u[va / PGSIZE].pte := by
    rw [leaves_of_lt (by rw [length_map]; exact hlt), getElem_map]
  rw [Vm.uvmclear, wp_bind]
  refine (hown.walk hmax).mono fun r s1 ⟨hs, hr⟩ => ?_
  subst hs
  match r, hr with
  | none, hr =>
    rw [hleaf] at hr
    cases hr
  | some (q, k), hr =>
    obtain ⟨hword, hval⟩ := hr.slot_eq (by omega) hleaf
    rw [wp_bind, wp_get, hword]
    refine (hr.store (by omega)).mono fun _ s' h' => ?_
    rw [Pte.leaf, if_pos hval, assign_leaves_set (by rw [length_map]; exact hlt)] at h'
    refine ⟨u.set (va / PGSIZE) ⟨clearU u[va / PGSIZE].pte, u[va / PGSIZE].data⟩,
      ⟨hfits.below, ?_, fun y hy => ?_⟩, ?_⟩
    · rw [length_set]
      exact hfits.length
    · rcases mem_or_eq_of_mem_set hy with hy | rfl
      · exact hfits.leaf y hy
      · exact hfits.leaf u[va / PGSIZE] (getElem_mem hlt)
    · rw [umem_set hlt (ppn_clearU _), map_set]
      exact h'

theorem copyout {dstva : ℕ} {src : List UInt8} :
    wp (copyout p.pagetable dstva src) E s fun _ s' => Building K F p s' := by
  have hloop : ∀ f dstva src s, Building K F p s →
      wp (copyoutLoop p.pagetable f dstva src) E s fun _ s' => Building K F p s' := by
    intro f
    induction f with
    | zero => exact fun _ _ _ h => h
    | succ f ih =>
      intro dstva src s h
      rw [copyoutLoop, wp_ite]
      refine ⟨fun _ => h, fun _ => ?_⟩
      rw [wp_bind, wp_walkaddr]
      split
      · exact h
      · next q hq =>
        rw [wp_bind, wp_get, wp_bind]
        exact (h.fill hq).mono fun _ s1 h1 => ih _ _ s1 h1
  exact hloop _ _ _ s h

end

end Building

/-! ## The file system -/

/-- `exec` has called `begin_op` once and `end_op` not yet, and holds the inode `ip`, locked; the process is
as it was. -/
structure Holding (w₀ : World) (ip : Fs.Slot) (w : World) : Prop where
  proc : w.proc = w₀.proc
  name : w.name = w₀.name
  begins : w.begins = w₀.begins + 1
  ends : w.ends = w₀.ends
  unlocked : (w₀.fs.counts ip).2 = false
  counts : w.fs.counts = (w₀.fs.counts.take ip).lock ip

/-- What every `exec` leaves: the references and locks as they were, `begin_op` and `end_op` called once
each. -/
structure Ended (w₀ w : World) : Prop where
  begins : w.begins = w₀.begins + 1
  ends : w.ends = w₀.ends + 1
  counts : w.fs.counts = w₀.fs.counts

/-- What a failed `exec` leaves: the process as it was, too. -/
structure Released (w₀ w : World) : Prop extends Ended w₀ w where
  proc : w.proc = w₀.proc
  name : w.name = w₀.name

section

variable {w₀ : World} {ip : Fs.Slot} {F : Pages}

theorem Holding.onRam (h : Holding w₀ ip w) (s : Ram) : Holding w₀ ip { w with ram := s } :=
  ⟨h.proc, h.name, h.begins, h.ends, h.unlocked, h.counts⟩

theorem Holding.onFs {s : Fs.State} (h : Holding w₀ ip w) (hs : s.counts = w.fs.counts) :
    Holding w₀ ip { w with fs := s } :=
  ⟨h.proc, h.name, h.begins, h.ends, h.unlocked, hs.trans h.counts⟩

theorem quiet_readKernel (off n : ℕ) : Fs.Quiet (readKernel sb ip off n) := by
  rw [readKernel]
  refine (Fs.Quiet.readi sb _ _ _ _).bind fun r => ?_
  split
  · exact Fs.Quiet.ret _
  · exact Fs.Quiet.ret _

theorem Holding.release (h : Holding w₀ ip w) (sb : Fs.Superblock) : wp (do
    Exec.onFs (Fs.iunlockput sb ip)
    endOp) (fun _ => True) w fun _ w' => Released w₀ w' ∧ w'.ram = w.ram := by
  rw [wp_bind, wp_onFs]
  refine (Fs.iunlockput_counts sb).mono fun _ s hs => ?_
  rw [endOp, wp_modify]
  refine ⟨⟨⟨h.begins, congrArg (· + 1) h.ends, ?_⟩, h.proc, h.name⟩, rfl⟩
  change s.counts = w₀.fs.counts
  have hfree : (w₀.fs.counts.take ip ip).2 = false := by
    rw [Fs.Counts.take, assign, if_pos rfl]
    exact h.unlocked
  rw [hs, h.counts, Fs.Counts.unlock_lock hfree, Fs.Counts.put_take]

/-! ## The stages of `exec` -/

variable {sz : ℕ} {p : Vm.Proc}

theorem loadseg_spec {va offset : ℕ} (hb : Building K F p w.ram) (hh : Holding w₀ ip w) :
    wp (loadseg sb p.pagetable va ip offset sz) (fun _ => True) w fun _ w' =>
      Building K F p w'.ram ∧ Holding w₀ ip w' := by
  have hloop : ∀ f i w, Building K F p w.ram → Holding w₀ ip w →
      wp (loadsegLoop sb p.pagetable va ip offset sz f i) (fun _ => True) w fun _ w' =>
        Building K F p w'.ram ∧ Holding w₀ ip w' := by
    intro f
    induction f with
    | zero => exact fun _ _ hb hh => ⟨hb, hh⟩
    | succ f ih =>
      intro i w hb hh
      rw [loadsegLoop, wp_ite]
      refine ⟨fun _ => ?_, fun _ => ⟨hb, hh⟩⟩
      rw [wp_bind, wp_onRam, wp_walkaddr]
      split
      · trivial
      · next q hq =>
        rw [wp_bind, wp_onFs]
        refine (quiet_readKernel _ _ w.fs).mono fun r s hs => ?_
        rw [wp_bind, wp_onRam, wp_bind, wp_get]
        refine (hb.fill hq).mono fun _ s' hb' => ?_
        have hh' := (hh.onFs hs).onRam s'
        rw [wp_ite]
        exact ⟨fun _ => ih _ _ hb' hh', fun _ => ⟨hb', hh'⟩⟩
  exact hloop _ _ w hb hh

theorem segments_spec {n off : ℕ} (hb : Building K F p w.ram) (hh : Holding w₀ ip w) :
    wp (segments K sb p.pagetable ip n off p.sz) (fun _ => True) w fun r w' =>
      Building K F { p with sz := r.2 } w'.ram ∧ Holding w₀ ip w' := by
  induction n generalizing p off w with
  | zero => exact ⟨hb, hh⟩
  | succ n ih =>
    rw [segments, wp_bind, wp_onFs]
    refine (quiet_readKernel _ _ w.fs).mono fun ph s hs => ?_
    have hh1 := hh.onFs hs
    have hstop : Building K F { p with sz := p.sz } w.ram ∧ Holding w₀ ip { w with fs := s } :=
      ⟨hb, hh1⟩
    rw [wp_ite]
    refine ⟨fun _ => hstop, fun _ => ?_⟩
    rw [wp_ite]
    refine ⟨fun _ => ih hb hh1, fun _ => ?_⟩
    dsimp only
    rw [wp_ite]
    refine ⟨fun _ => hstop, fun _ => ?_⟩
    rw [wp_ite]
    refine ⟨fun _ => hstop, fun _ => ?_⟩
    rw [wp_ite]
    refine ⟨fun _ => hstop, fun _ => ?_⟩
    rw [wp_bind, wp_onRam]
    refine hb.uvmalloc.mono fun sz1 s2 h2 => ?_
    have hh2 := hh1.onRam s2
    by_cases hz : sz1 = 0
    · rw [if_pos hz] at h2
      rw [if_pos hz]
      exact ⟨h2, hh2⟩
    · rw [if_neg hz] at h2
      rw [if_neg hz, wp_bind]
      refine (loadseg_spec (p := { p with sz := sz1 }) h2 hh2).mono fun ok w3 ⟨hb3, hh3⟩ => ?_
      rw [wp_ite]
      exact ⟨fun _ => ih (p := { p with sz := sz1 }) hb3 hh3, fun _ => ⟨hb3, hh3⟩⟩

/-- Only memory changes, and the image is still there. -/
def Stays (K : Image) (F : Pages) (p : Vm.Proc) (w w' : World) : Prop :=
  ∃ s, w' = { w with ram := s } ∧ Building K F p s

variable {argv : List (List UInt8)} {sp : ℕ}

theorem pushArgs_spec {stackbase : ℕ} {ustack : List ℕ} (hb : Building K F p w.ram) :
    wp (pushArgs p.pagetable stackbase argv sp ustack) (fun _ => True) w fun _ w' =>
      Stays K F p w w' := by
  induction argv generalizing w sp ustack with
  | nil => exact ⟨w.ram, rfl, hb⟩
  | cons arg argv ih =>
    rw [pushArgs, wp_ite]
    refine ⟨fun _ => ⟨w.ram, rfl, hb⟩, fun _ => ?_⟩
    dsimp only
    rw [wp_ite]
    refine ⟨fun _ => ⟨w.ram, rfl, hb⟩, fun _ => ?_⟩
    rw [wp_bind, wp_onRam]
    refine hb.copyout.mono fun ok s hs => ?_
    rw [wp_ite]
    refine ⟨fun _ => ?_, fun _ => ⟨s, rfl, hs⟩⟩
    refine (ih (w := { w with ram := s }) hs).mono fun _ w' ⟨s', hw', hs'⟩ => ⟨s', hw', hs'⟩

/-- The end of `exec`; a failed one has given everything back. -/
def Done (K : Image) (F : Pages) (w₀ : World) (r : ℤ) (w : World) : Prop :=
  Ended w₀ w ∧ (r = -1 → Own K w.ram F ∧ Released w₀ w)

theorem Released.onRam {s : Ram} (h : Released w₀ w) : Released w₀ { w with ram := s } :=
  ⟨⟨h.begins, h.ends, h.counts⟩, h.proc, h.name⟩

theorem Released.done {r : ℤ} (h : Released w₀ w) (hown : Own K w.ram F) : Done K F w₀ r w :=
  ⟨h.toEnded, fun _ => ⟨hown, h⟩⟩

theorem Ended.any_onRam (h : Ended w₀ w) :
    wp (Exec.onRam x) (fun _ => True) w fun _ w' => Ended w₀ w' := by
  rw [wp_onRam]
  exact wp_of_forall (fun _ => trivial) fun _ s => ⟨h.begins, h.ends, h.counts⟩

variable {entry : ℕ} {path : List UInt8}

theorem commit_spec {pagetable : ℕ} (h : Ended w₀ w) :
    wp (commit K path pagetable sz sp entry) (fun _ => True) w fun _ w' => Ended w₀ w' := by
  rw [commit, wp_bind, wp_get, wp_bind]
  refine h.any_onRam.mono fun _ w1 h1 => ?_
  rw [wp_bind, wp_modify, wp_bind]
  have h1' : Ended w₀ { w1 with
      name := safestrcpy w1.name (lastElem path ++ [0]) 16
      proc := { w.proc with pagetable := pagetable, sz := sz } } := ⟨h1.begins, h1.ends, h1.counts⟩
  refine h1'.any_onRam.mono fun _ w2 h2 => ?_
  rw [wp_bind]
  exact h2.any_onRam.mono fun _ w3 h3 => h3.any_onRam

theorem Building.bad (hb : Building K F p w.ram) (hr : Released w₀ w) : wp (do
    Exec.onRam (procFreepagetable K p.pagetable p.sz)
    return -1) (fun _ => True) w (Done K F w₀) := by
  rw [wp_bind, wp_onRam]
  exact hb.free.mono fun _ s hs => Released.done hr.onRam hs

theorem Holding.bad (hh : Holding w₀ ip w) (h : Own K w.ram F) : wp (do
    Exec.onFs (Fs.iunlockput sb ip)
    endOp
    return -1) (fun _ => True) w (Done K F w₀) := by
  have hrel := hh.release sb
  rw [wp_bind] at hrel ⊢
  refine hrel.mono fun _ w1 h1 => ?_
  rw [wp_bind]
  refine h1.mono fun _ w2 ⟨hr2, hram⟩ => ?_
  refine hr2.done ?_
  rw [hram]
  exact h

theorem execArgs_spec (hb : Building K F p w.ram) (hz : p.sz ≠ 0) (hr : Released w₀ w) :
    wp (execArgs K path argv p.pagetable p.sz entry) (fun _ => True) w (Done K F w₀) := by
  have hguard : guardPage p.sz < p.sz := by
    unfold guardPage
    exact Nat.sub_lt (Nat.pos_of_ne_zero hz) (by decide)
  rw [execArgs, wp_bind, wp_onRam]
  refine (hb.uvmclear hguard).mono fun _ s2 h2 => ?_
  rw [wp_bind]
  refine (pushArgs_spec (w := { w with ram := s2 }) h2).mono fun r w3 ⟨s3, hw3, h3⟩ => ?_
  subst hw3
  have hr3 : Released w₀ { w with ram := s3 } := hr.onRam
  match r with
  | none => exact Building.bad h3 hr3
  | some (sp, ustack) =>
    dsimp only
    rw [wp_ite]
    refine ⟨fun _ => trivial, fun _ => ?_⟩
    rw [wp_ite]
    refine ⟨fun _ => Building.bad h3 hr3, fun _ => ?_⟩
    rw [wp_bind, wp_onRam]
    refine h3.copyout.mono fun ok s4 h4 => ?_
    have hr4 : Released w₀ { w with ram := s4 } := hr.onRam
    rw [wp_ite]
    refine ⟨fun _ => ?_, fun _ => Building.bad h4 hr4⟩
    -- a successful `exec` does not return -1
    rw [wp_bind]
    refine (commit_spec hr4.toEnded).mono fun _ w' hw' => ?_
    rw [wp_pure]
    exact ⟨hw', fun hr => by omega⟩

theorem execStack_spec (hb : Building K F p w.ram) (hr : Released w₀ w) :
    wp (execStack K path argv p.pagetable p.sz entry) (fun _ => True) w (Done K F w₀) := by
  rw [execStack, wp_bind, wp_onRam]
  refine hb.roundup.uvmalloc.mono fun sz1 s1 h1 => ?_
  have hr1 : Released w₀ { w with ram := s1 } := hr.onRam
  by_cases hz : sz1 = 0
  · rw [if_pos hz] at h1
    rw [if_pos hz]
    exact Building.bad (p := { p with sz := PGROUNDUP p.sz }) h1 hr1
  · rw [if_neg hz] at h1
    rw [if_neg hz]
    exact execArgs_spec (p := { p with sz := sz1 }) h1 hz hr1

theorem exec_spec (h : Own K w.ram F) : wp (exec K sb path argv) (fun _ => True) w (Done K F w) := by
  rw [exec, wp_bind, beginOp, wp_modify, wp_bind, wp_get, wp_bind, wp_onFs]
  refine (Fs.namei_counts sb w.cwd path).mono fun r s1 h1 => ?_
  cases r with
  | none =>
    rw [wp_bind, endOp, wp_modify, wp_pure]
    exact Released.done ⟨⟨rfl, rfl, h1⟩, rfl, rfl⟩ h
  | some ip =>
    rw [wp_bind, wp_onFs]
    refine (Fs.ilock_counts sb).mono ?_
    rintro _ s2 ⟨hfree, h2⟩
    change s1.counts = w.fs.counts.take ip at h1
    rw [h1] at hfree h2
    have hfree' : (w.fs.counts ip).2 = false := by
      rw [Fs.Counts.take, assign, if_pos rfl] at hfree
      exact hfree
    have hh2 : Holding w ip { w with begins := w.begins + 1, fs := s2 } :=
      ⟨rfl, rfl, rfl, rfl, hfree', h2⟩
    rw [wp_bind, wp_onFs]
    refine (quiet_readKernel _ _ s2).mono fun elf s3 h3 => ?_
    have hh3 := hh2.onFs h3
    rw [wp_ite]
    refine ⟨fun _ => hh3.bad h, fun _ => ?_⟩
    rw [wp_bind, wp_get, wp_bind, wp_onRam]
    refine h.procPagetable.mono fun r s4 h4 => ?_
    have hh4 := hh3.onRam s4
    cases r with
    | none => exact hh4.bad h4
    | some root =>
      have hb4 := Building.start h4
      rw [wp_bind]
      refine (segments_spec hb4 hh4).mono ?_
      rintro r w5 ⟨hb5, hh5⟩
      rw [wp_ite]
      refine ⟨fun _ => ?_, fun _ => ?_⟩
      · have hrel := hh5.release sb
        rw [wp_bind] at hrel ⊢
        refine hrel.mono fun _ w6 h6 => ?_
        rw [wp_bind]
        refine h6.mono ?_
        rintro _ w7 ⟨hr7, hram⟩
        rw [← hram] at hb5
        exact execStack_spec (p := ⟨true, w.proc.trapframe, root, r.2⟩) hb5 hr7
      · rw [wp_bind, wp_onRam]
        refine hb5.free.mono fun _ s6 h6 => ?_
        exact (hh5.onRam s6).bad h6

end

/-! ## The result -/

/-- The world after an `exec` that changed nothing. -/
structure Unchanged (K : Image) (w w' : World) : Prop where
  /-- The process has its page table, size, trapframe and name. -/
  proc : w'.proc = w.proc
  name : w'.name = w.name
  /-- Every page in use has its contents, and the page table of the process maps what it mapped. -/
  memory : ∀ q ∈ K.pages, q ∉ w.ram.free → w'.ram.word q = w.ram.word q
  table : ∀ va, mapping w'.ram.word w.proc.pagetable va = mapping w.ram.word w.proc.pagetable va
  /-- The pages that were free are free again, each once. -/
  free : w'.ram.free.Perm w.ram.free

/-- **`exec` replaces the image or changes nothing.** Whatever it returns, the inode reference and the lock
that it took are released, and `begin_op` and `end_op` have been called once each; if it returns -1, the
process, its memory and the free pages are what they were. -/
theorem exec_fails_unchanged {w' : World} {F : Pages} {path : List UInt8}
    {argv : List (List UInt8)} (h : Own K w.ram (space K w.proc * F))
    {r : ℤ} (hrun : (exec K sb path argv).run w = .ok (r, w')) :
    Ended w w' ∧ (r = -1 → Unchanged K w w') := by
  obtain ⟨x, y, hacc, ⟨u, c, hfits, hsat⟩, hF⟩ := own_mul.mp h
  have hexact : Own K w.ram (exactly w.ram.word (x + y)) := ⟨x + y, hacc, rfl, fun _ _ => rfl⟩
  obtain ⟨hended, hfailed⟩ := (exec_spec hexact).of_run_eq_ok hrun
  refine ⟨hended, fun hr => ?_⟩
  obtain ⟨⟨_, hacc', rfl, hsame⟩, hrel⟩ := hfailed hr
  have hwas : Own K w.ram (image K w.proc u c * F) := own_mul.mpr ⟨x, y, hacc, hsat, hF⟩
  have his : Own K w'.ram (image K w.proc u c * F) := by
    refine own_mul.mpr ⟨x, y, hacc', Assn.frame _ hsat fun q hq => ?_, F.frame hF fun q hq => ?_⟩
    · exact hsame q (Multiset.mem_add.mpr (.inl hq))
    · exact hsame q (Multiset.mem_add.mpr (.inr hq))
  refine ⟨hrel.proc, hrel.name, fun q hq hfree => hsame q ?_, fun va => ?_, ?_⟩
  · rw [← Finset.mem_val, ← show (w.ram.free : Multiset ℕ) + (x + y) = K.pages.val from hacc] at hq
    exact (Multiset.mem_add.mp hq).resolve_left hfree
  · by_cases hva : va < MAXVA
    · rw [image, mul_assoc] at hwas his
      rw [his.mapping hva, hwas.mapping hva]
    · rw [mapping_of_le (by omega), mapping_of_le (by omega)]
  · have hpages : (w'.ram.free : Multiset ℕ) + (x + y) = (w.ram.free : Multiset ℕ) + (x + y) :=
      Eq.trans hacc' (Eq.symm hacc)
    exact Multiset.coe_eq_coe.mp (add_right_cancel hpages)

/-! ## A program with a bad header -/

/-- A program with two headers: the first is for a page of zeros, the second for a segment whose part in
the file is larger than it is in memory. -/
def badElf : Block := fun j =>
  if j = 0 then 0x7F else if j = 1 then 0x45 else if j = 2 then 0x4C else if j = 3 then 0x46
  else if j = 32 then 64 else if j = 56 then 2
  else if j = 64 then 1 else if j = 105 then 16
  else if j = 120 then 1 else if j = 152 then 1 else 0

/-- The inode of the program. -/
def badFile : Fs.Dinode :=
  { Fs.Dinode.zero with type := 2, nlink := 1, size := 1024, addrs := fun j => if j = 0 then 5 else 0 }

/-- A disk of eight blocks, the inodes in block 2. -/
def badDisk : Fs.Superblock where
  size := 8
  nblocks := 4
  ninodes := 2
  nlog := 0
  logstart := 2
  inodestart := 2
  bmapstart := 3

/-- The root inode of the disk is this program, and the process is in slot 0. -/
def badWorld (k : Kernel) : World where
  fs := {
    disk := assign (assign (fun _ => zeroBlock) 2 (zeroBlock.putDinode 1 badFile)) 5 badElf
    inode := fun _ => ⟨0, 0, false, false, .zero⟩
    logged := [] }
  ram := k.ram
  proc := k.proc 0
  name := []
  cwd := 0
  begins := 0
  ends := 0

/-- A process with 5000 bytes. -/
def firstProc : KM Bool := do
  let _ ← allocproc Vm.tiny
  growproc Vm.tiny 0 5000

theorem badWorld_fails : (((firstProc.run noProcs).toOption.bind fun r =>
    ((exec Vm.tiny badDisk [47] []).run (badWorld r.2)).toOption.map Prod.fst) = some (-1)) ∧
    ((allocproc Vm.tiny).run noProcs).toOption.map Prod.fst = some (some 0) := by
  decide +kernel

/-- `exec` of the program fails when a page has been loaded. -/
theorem exec_fails_unchanged_badElf : ∃ w w', (∃ F, Own Vm.tiny w.ram (space Vm.tiny w.proc * F)) ∧
    (exec Vm.tiny badDisk [47] []).run w = .ok (-1, w') ∧ Ended w w' ∧ Unchanged Vm.tiny w w' := by
  obtain ⟨hall, hfirst⟩ := badWorld_fails
  obtain ⟨r, k₁, hrun₁, hk₁, hin⟩ := (noProcs_spaces.allocproc (E := fun _ => False)).exists_ok
  rw [hrun₁] at hfirst
  obtain rfl : r = some 0 := by simpa [Except.toOption] using hfirst
  have hin₁ : (k₁.proc 0).inUse = true := hin 0 rfl
  obtain ⟨ok, k₂, hrun₂, hk₂, hsame⟩ :=
    (hk₁.growproc (E := fun _ => False) (n := 5000) hin₁ (by omega)).exists_ok
  have hin₂ : (k₂.proc 0).inUse = true := by rw [hsame, hin₁]
  have hrun : firstProc.run noProcs = .ok (ok, k₂) := by
    rw [firstProc, StateT.run_bind, hrun₁]
    exact hrun₂
  obtain ⟨R, u, c, hfits, hown⟩ := hk₂.split hin₂
  have hspace := hown.space hfits
  rw [hrun] at hall
  simp only [Except.toOption, Option.bind_some] at hall
  cases hexec : (exec Vm.tiny badDisk [47] []).run (badWorld k₂) with
  | error e =>
    rw [hexec] at hall
    cases hall
  | ok a =>
    rw [hexec] at hall
    obtain ⟨r, w'⟩ := a
    obtain rfl : r = -1 := Option.some.inj hall
    obtain ⟨hended, hsame⟩ := exec_fails_unchanged hspace hexec
    exact ⟨badWorld k₂, w', ⟨_, hspace⟩, hexec, hended, hsame rfl⟩

end Xv6.Exec
