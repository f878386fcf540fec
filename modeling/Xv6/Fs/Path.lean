import Xv6.Fs.DirSpec

/-!
# Path lookup

A path lookup gets, locks and puts inodes on its way, and putting one may free it. What a lookup keeps is
stated once, for a family `J` of properties indexed by the references that the caller holds: `Closed` says
that each operation on the table keeps `J`, and `namex` then does.
-/

namespace Xv6.Fs

open Lib Multiset

variable {sb : Superblock} {E : Err → Prop} {s s' : State} {k : Slot}

/-- A directory or the kernel itself names inode `i`. -/
def Named (sb : Superblock) (s : State) (i : ℕ) : Prop :=
  i = ROOTINO ∨ ∃ d n, ((sb.abs s.disk).din d).type = T_DIR ∧ n < (sb.abs s.disk).nents d ∧
    ((sb.abs s.disk).dirent d n).inum = i ∧ i ≠ 0

/-- What the operations on the inode table keep: `J x` for a caller that holds the references `x`. -/
structure Closed (sb : Superblock) (E : Err → Prop) (J : Multiset Slot → State → Prop) : Prop where
  inv : ∀ {x s}, J x s → Inv sb s
  count_le : ∀ {x s}, J x s → ∀ k, x.count k ≤ (s.inode k).ref
  got : ∀ {x s s' k i}, J x s → Named sb s i → Got i s k s' → J (k ::ₘ x) s'
  dup : ∀ {x s k}, J x s → 0 < (s.inode k).ref →
    J (k ::ₘ x) (s.withInode k { s.inode k with ref := (s.inode k).ref + 1 })
  lock : ∀ {x s k}, J x s → 0 < (s.inode k).ref → ((sb.abs s.disk).din (s.inode k).inum).type ≠ 0 →
    J x (s.withInode k (lockedInode sb s k))
  unlock : ∀ {x s k}, J x s → 0 < (s.inode k).ref →
    J x (s.withInode k { s.inode k with locked := false })
  put : ∀ {x s k}, J (k ::ₘ x) s → ¬ Drops sb s k →
    J x (s.withInode k { s.inode k with ref := (s.inode k).ref - 1 })
  free : ∀ {x s s' k}, J (k ::ₘ x) s → Drops sb s k → Freed sb k s s' → J x s'
  noType : ∀ {x s k}, J (k ::ₘ x) s → ((sb.abs s.disk).din (s.inode k).inum).type = 0 → E .noType

/-- The entries `x` that are loaded stay so, for the same inodes of the same types. -/
def Persist (x : Multiset Slot) (s s' : State) : Prop :=
  ∀ j ∈ x, (s.inode j).valid = true → (s'.inode j).valid = true ∧
    (s'.inode j).inum = (s.inode j).inum ∧ (s'.inode j).din.type = (s.inode j).din.type

namespace Persist

variable {x : Multiset Slot}

theorem refl (x : Multiset Slot) (s : State) : Persist x s s := fun _ _ hvalid => ⟨hvalid, rfl, rfl⟩

theorem trans {s'' : State} (h : Persist x s s') (h' : Persist x s' s'') : Persist x s s'' := by
  intro j hj hvalid
  obtain ⟨hv1, hi1, ht1⟩ := h j hj hvalid
  obtain ⟨hv2, hi2, ht2⟩ := h' j hj hv1
  exact ⟨hv2, hi2.trans hi1, ht2.trans ht1⟩

theorem mono {y : Multiset Slot} (h : Persist x s s') (hy : ∀ j ∈ y, j ∈ x) : Persist y s s' :=
  fun j hj => h j (hy j hj)

theorem withInode {z : Inode} (hz : k ∈ x → (s.inode k).valid = true → z.valid = true ∧
    z.inum = (s.inode k).inum ∧ z.din.type = (s.inode k).din.type) : Persist x s (s.withInode k z) := by
  intro j hj hvalid
  by_cases hjk : j = k
  · subst hjk
    rw [withInode_self]
    exact hz hj hvalid
  · rw [withInode_ne hjk]
    exact ⟨hvalid, rfl, rfl⟩

end Persist

theorem Got.persist {i : ℕ} {x : Multiset Slot} (h : Got i s k s')
    (hx : ∀ j ∈ x, 0 < (s.inode j).ref) : Persist x s s' := by
  rw [h.eq]
  apply Persist.withInode
  intro hk hvalid
  rw [(h.old (hx k hk)).1]
  exact ⟨hvalid, rfl, rfl⟩

theorem Held.locked (h : Inv sb s) (hr : 0 < (s.inode k).ref)
    (ht : ((sb.abs s.disk).din (s.inode k).inum).type ≠ 0) :
    Held sb (s.withInode k (lockedInode sb s k)) k where
  inum_lt := by
    rw [withInode_self]
    exact h.table.inum_lt k hr
  sync := by
    rw [withInode_self]
    rfl
  type := by
    rw [withInode_self]
    exact ht

theorem length_skipelem {path nm rest : List UInt8} (h : skipelem path = some (nm, rest)) :
    rest.length < path.length := by
  simp only [skipelem] at h
  split at h
  · cases h
  · next hne =>
    simp only [Option.some.injEq, Prod.mk.injEq] at h
    obtain ⟨-, rfl⟩ := h
    have h1 : (path.dropWhile (· = slash)).length ≤ path.length :=
      (List.dropWhile_sublist _).length_le
    -- the first byte left is not a slash, so it is part of the element
    obtain ⟨c, cs, hcs⟩ := List.exists_cons_of_ne_nil hne
    have hc : c ≠ slash := by
      have := List.head_dropWhile_not (fun b => decide (b = slash)) (by simpa using hne)
      simpa [hcs] using this
    have h2 : ((path.dropWhile (· = slash)).dropWhile (· ≠ slash)).length ≤ cs.length := by
      rw [hcs, List.dropWhile_cons_of_pos (by simpa using hc)]
      exact (List.dropWhile_sublist _).length_le
    have h3 := (List.dropWhile_sublist (fun b => decide (b = slash))
      (l := (path.dropWhile (· = slash)).dropWhile (· ≠ slash))).length_le
    have h4 : (path.dropWhile (· = slash)).length = cs.length + 1 := by rw [hcs, List.length_cons]
    omega

/-- What a lookup from `s` that ends in `s'` with result `r` keeps. -/
structure Lookup (sb : Superblock) (J : Multiset Slot → State → Prop) (x : Multiset Slot)
    (parent : Bool) (s : State) (r : Option (Slot × List UInt8)) (s' : State) : Prop where
  persist : Persist x s s'
  none : r = none → J x s'
  some : ∀ k nm, r = some (k, nm) → J (k ::ₘ x) s' ∧
    (parent = true → ((sb.abs s'.disk).din (s'.inode k).inum).type = T_DIR)

theorem Lookup.of_persist {J : Multiset Slot → State → Prop} {x : Multiset Slot} {parent : Bool}
    {s1 : State} {r : Option (Slot × List UInt8)} (hp : Persist x s s1)
    (h : Lookup sb J x parent s1 r s') : Lookup sb J x parent s r s' :=
  ⟨hp.trans h.persist, h.none, h.some⟩

namespace Closed

variable {J : Multiset Slot → State → Prop} {x : Multiset Slot} (hJ : Closed sb E J) (hE : Tolerant E)
  (hv : sb.Valid)

include hJ

theorem pos (h : J x s) {j : Slot} (hj : j ∈ x) : 0 < (s.inode j).ref := by
  have h1 := count_pos.mpr hj
  have h2 := hJ.count_le h j
  omega

theorem held (h : J x s) {j : Slot} (hj : j ∈ x) (hvalid : (s.inode j).valid = true) : Held sb s j :=
  (hJ.inv h).held (hJ.pos h hj) hvalid

include hE

theorem ilock (h : J (k ::ₘ x) s) :
    wp (ilock sb k) E s fun _ s' => J (k ::ₘ x) s' ∧ Held sb s' k ∧ (s'.inode k).valid = true ∧
      Persist (k ::ₘ x) s s' ∧ s' = s.withInode k (lockedInode sb s k) := by
  have hinv := hJ.inv h
  apply (ilock_spec hE hinv.table fun _ h0 => hJ.noType h h0).mono
  rintro _ s' ⟨hr, ht, rfl⟩
  refine ⟨hJ.lock h hr ht, Held.locked hinv hr ht, by rw [withInode_self]; rfl, ?_, rfl⟩
  apply Persist.withInode
  intro _ hvalid
  refine ⟨rfl, rfl, ?_⟩
  rw [hinv.table.sync k hr hvalid]
  rfl

theorem iunlock (h : J (k ::ₘ x) s) :
    wp (iunlock k) E s fun _ s' => J (k ::ₘ x) s' ∧ Persist (k ::ₘ x) s s' ∧
      s' = s.withInode k { s.inode k with locked := false } := by
  apply (iunlock_spec hE).mono
  rintro _ s' ⟨hr, rfl⟩
  exact ⟨hJ.unlock h hr, Persist.withInode fun _ hvalid => ⟨hvalid, rfl, rfl⟩, rfl⟩

include hv

theorem iput (h : J (k ::ₘ x) s) : wp (iput sb k) E s fun _ s' => J x s' ∧ Persist x s s' := by
  have hinv := hJ.inv h
  apply (iput_spec hE hv hinv.table hinv.own (hJ.pos h (mem_cons_self k x))).mono
  rintro _ s' (⟨hkeep, rfl⟩ | ⟨hdrop, hfreed⟩)
  · exact ⟨hJ.put h hkeep, Persist.withInode fun _ hvalid => ⟨hvalid, rfl, rfl⟩⟩
  · refine ⟨hJ.free h hdrop hfreed, fun j hj hvalid => ?_⟩
    -- a second reference to the entry would have kept it
    have hjk : j ≠ k := by
      rintro rfl
      have h1 := hJ.count_le h j
      have h2 := count_pos.mpr hj
      rw [count_cons_self, hdrop.1] at h1
      omega
    rw [hfreed.ne j hjk]
    exact ⟨hvalid, rfl, rfl⟩

theorem iunlockput (h : J (k ::ₘ x) s) :
    wp (iunlockput sb k) E s fun _ s' => J x s' ∧ Persist x s s' := by
  simp only [Fs.iunlockput, wp_bind]
  apply (hJ.iunlock hE h).mono
  rintro _ s1 ⟨h1, hp1, -⟩
  apply (hJ.iput hE hv h1).mono
  rintro _ s' ⟨h', hp'⟩
  exact ⟨h', (hp1.mono fun j hj => mem_cons_of_mem hj).trans hp'⟩

theorem dirlookup (h : J x s) (hk : k ∈ x) (hvalid : (s.inode k).valid = true)
    (ht : (s.inode k).din.type = T_DIR) (nm : List UInt8) : wp (dirlookup sb k nm) E s fun r s' =>
      (r = none ∧ s' = s ∧ (∀ m, ¬ (sb.abs s.disk).Found (s.inode k).inum nm m) ∧
        (s.inode k).din.size.toNat = DIRENT * (sb.abs s.disk).nents (s.inode k).inum) ∨
      ∃ ip m, r = some (ip, DIRENT * m) ∧ (sb.abs s.disk).Found (s.inode k).inum nm m ∧
        Got ((sb.abs s.disk).dirent (s.inode k).inum m).inum s ip s' ∧ J (ip ::ₘ x) s' ∧
        Persist x s s' := by
  have hinv := hJ.inv h
  have hheld := hJ.held h hk hvalid
  apply (dirlookup_entry hv hinv.own hheld (hinv.noHole hheld ht)
    (fun _ => hE _ (by decide) (by decide) (by decide))
    (fun _ _ _ => hE _ (by decide) (by decide) (by decide)) ht).mono
  rintro r s' (hnone | ⟨ip, m, hr, hfound, hgot⟩)
  · exact .inl hnone
  · refine .inr ⟨ip, m, hr, hfound, hgot,
      hJ.got h (.inr ⟨_, m, ?_, hfound.1, rfl, hfound.2.1⟩) hgot, hgot.persist fun j hj => hJ.pos h hj⟩
    rw [← hheld.sync]
    exact ht

theorem namexLoop (parent : Bool) (f : ℕ) {ip : Slot} {path : List UInt8} (hf : path.length < f)
    (h : J (ip ::ₘ x) s) : wp (namexLoop sb parent f ip path) E s (Lookup sb J x parent s) := by
  induction f generalizing s ip path with
  | zero => omega
  | succ f ih =>
    have hsub : ∀ {t t' : State}, Persist (ip ::ₘ x) t t' → Persist x t t' := fun hp =>
      hp.mono fun j hj => mem_cons_of_mem hj
    rw [Fs.namexLoop]
    split
    · next nm rest hskip =>
      have hlen := length_skipelem hskip
      rw [wp_bind]
      apply (hJ.ilock hE h).mono
      rintro _ s1 ⟨h1, hheld, hvalid, hp1, -⟩
      simp only [wp_bind, wp_get]
      -- the lookup ends here without a result
      have hnone : wp (Fs.iunlockput sb ip) E s1 fun _ s' =>
          wp (pure none) E s' (Lookup sb J x parent s) := by
        apply (hJ.iunlockput hE hv h1).mono
        rintro _ s' ⟨h', hp'⟩
        rw [wp_pure]
        exact ⟨(hsub hp1).trans hp', fun _ => h', fun k nm hnone => by cases hnone⟩
      rw [wp_ite]
      refine ⟨fun _ => ?_, fun hdir => ?_⟩
      · rw [wp_bind]
        exact hnone
      · have htype : (s1.inode ip).din.type = T_DIR := by simpa using hdir
        rw [wp_ite]
        refine ⟨fun hparent => ?_, fun _ => ?_⟩
        · rw [wp_bind]
          apply (hJ.iunlock hE h1).mono
          rintro _ s' ⟨h', hp', hs'⟩
          rw [wp_pure]
          refine ⟨(hsub hp1).trans (hsub hp'), fun hnone => (by cases hnone), fun k nm' heq => ?_⟩
          obtain ⟨rfl, rfl⟩ : ip = k ∧ nm = nm' := by simpa using heq
          refine ⟨h', fun _ => ?_⟩
          rw [hs', withInode_self, withInode_disk]
          change ((sb.abs s1.disk).din (s1.inode ip).inum).type = T_DIR
          rw [← hheld.sync]
          exact htype
        · rw [wp_bind]
          apply (hJ.dirlookup hE hv h1 (mem_cons_self ip x) hvalid htype nm).mono
          rintro r s2 (⟨rfl, rfl, -, -⟩ | ⟨next, m, rfl, -, -, h2, hp2⟩)
          · simp only [wp_bind]
            exact hnone
          · simp only [wp_bind]
            rw [cons_swap] at h2
            apply (hJ.iunlockput hE hv h2).mono
            rintro _ s3 ⟨h3, hp3⟩
            apply (ih (by omega) h3).mono
            intro r s' hr
            refine hr.of_persist (((hsub hp1).trans (hsub hp2)).trans ?_)
            exact hp3.mono fun j hj => mem_cons_of_mem hj
    · rw [wp_ite]
      refine ⟨fun _ => ?_, fun hparent => ?_⟩
      · rw [wp_bind]
        apply (hJ.iput hE hv h).mono
        rintro _ s' ⟨h', hp'⟩
        rw [wp_pure]
        exact ⟨hp', fun _ => h', fun k nm hnone => by cases hnone⟩
      · rw [wp_pure]
        refine ⟨Persist.refl x s, fun hnone => (by cases hnone), fun k nm' heq => ?_⟩
        obtain ⟨rfl, -⟩ : ip = k ∧ [] = nm' := by simpa using heq
        exact ⟨h, fun hp => absurd hp hparent⟩

theorem namex {cwd : Slot} (h : J x s) (hcwd : 0 < (s.inode cwd).ref) (path : List UInt8)
    (parent : Bool) : wp (namex sb cwd path parent) E s (Lookup sb J x parent s) := by
  rw [Fs.namex, wp_ite]
  refine ⟨fun _ => ?_, fun _ => ?_⟩
  · rw [wp_bind]
    apply (iget_spec hE ROOTINO).mono
    intro k s1 hgot
    apply (hJ.namexLoop hE hv parent _ (Nat.lt_succ_self _) (hJ.got h (.inl rfl) hgot)).mono
    intro r s' hr
    exact hr.of_persist (hgot.persist fun j hj => hJ.pos h hj)
  · rw [wp_bind, wp_idup]
    apply (hJ.namexLoop hE hv parent _ (Nat.lt_succ_self _) (hJ.dup h hcwd)).mono
    intro r s' hr
    refine hr.of_persist (Persist.withInode ?_)
    exact fun _ hvalid => ⟨hvalid, rfl, rfl⟩

theorem namei {cwd : Slot} (h : J x s) (hcwd : 0 < (s.inode cwd).ref) (path : List UInt8) :
    wp (namei sb cwd path) E s fun r s' =>
      Persist x s s' ∧ (r = none → J x s') ∧ ∀ k, r = some k → J (k ::ₘ x) s' := by
  simp only [Fs.namei, wp_bind]
  apply (hJ.namex hE hv h hcwd path false).mono
  rintro r s' ⟨hp, hnone, hsome⟩
  rw [wp_pure]
  cases r with
  | none => exact ⟨hp, fun _ => hnone rfl, fun k hk => by cases hk⟩
  | some r =>
    refine ⟨hp, fun hr => (by cases hr), fun k hk => ?_⟩
    obtain rfl : r.1 = k := by simpa using hk
    exact (hsome r.1 r.2 rfl).1

end Closed

end Xv6.Fs
