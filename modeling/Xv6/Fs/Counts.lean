import Xv6.Fs.Dir
import Xv6.Lib.Hoare

/-!
# References and locks of a path lookup

What the operations on inodes do to the reference counts and the locks of the inode table, for any disk and
any table. Reading and freeing a file leaves them alone; `namei` that finds nothing has given back all that
it took, and `namei` that finds an inode holds one reference to it.
-/

namespace Xv6.Fs

open Lib Function

/-- For each entry of the inode table its reference count, and whether it is locked. -/
abbrev Counts := Slot → ℕ × Bool

/-- The references and the locks of a state. -/
def State.counts (s : State) : Counts := fun k => ((s.inode k).ref, (s.inode k).locked)

namespace Counts

/-- One more reference to `k`. -/
def take (c : Counts) (k : Slot) : Counts := assign c k ((c k).1 + 1, (c k).2)

/-- Entry `k`, locked. -/
def lock (c : Counts) (k : Slot) : Counts := assign c k ((c k).1, true)

/-- Entry `k`, not locked. -/
def unlock (c : Counts) (k : Slot) : Counts := assign c k ((c k).1, false)

/-- One reference to `k` less. -/
def put (c : Counts) (k : Slot) : Counts := assign c k ((c k).1 - 1, (c k).2)

variable {c : Counts} {j k : Slot}

theorem unlock_lock (h : (c k).2 = false) : (c.lock k).unlock k = c := by
  rw [unlock, lock, assign_eq_update, assign_eq_update, update_idem, update_self, ← h, update_eq_self]

theorem put_take : (c.take k).put k = c := by
  rw [put, take, assign_eq_update, assign_eq_update, update_idem, update_self]
  exact update_eq_self k c

theorem put_unlock_take (h : (c k).2 = false) :
    ((((c.take k).lock k).take j).unlock k).put k = c.take j := by
  funext i
  simp only [put, unlock, take, lock, assign]
  by_cases hik : i = k
  · subst hik
    by_cases hij : i = j
    · subst hij
      simp [h]
    · simp [hij, ← h]
  · by_cases hij : i = j
    · subst hij
      simp [hik]
    · simp [hik, hij]

end Counts

variable {α β : Type} {s : State} {k : Slot}

theorem counts_setInode {ip : Inode} : State.counts { s with inode := assign s.inode k ip } =
    assign s.counts k (ip.ref, ip.locked) := by
  funext j
  simp only [State.counts, assign]
  by_cases hj : j = k
  · rw [if_pos hj, if_pos hj]
  · rw [if_neg hj, if_neg hj]

/-! ## Computations that leave them alone -/

/-- The computation leaves references and locks alone. -/
def Quiet (x : M α) : Prop := ∀ s, wp x (fun _ => True) s fun _ s' => s'.counts = s.counts

namespace Quiet

variable {x y : M α}

theorem ret (a : α) : Quiet (pure a) := fun _ => rfl

theorem throw (e : Err) : Quiet (throw e : M α) := fun _ => trivial

theorem get : Quiet get := fun _ => rfl

theorem bind {f : α → M β} (hx : Quiet x) (hf : ∀ a, Quiet (f a)) : Quiet (x >>= f) := by
  intro s
  rw [wp_bind]
  refine (hx s).mono fun a s1 h1 => ?_
  exact (hf a s1).mono fun b s2 h2 => h2.trans h1

theorem ite {p : Prop} [Decidable p] (hx : Quiet x) (hy : Quiet y) : Quiet (if p then x else y) := by
  by_cases hp : p
  · rw [if_pos hp]
    exact hx
  · rw [if_neg hp]
    exact hy

theorem bread (b : ℕ) : Quiet (bread b) := fun _ => rfl

theorem logWrite (b : ℕ) (blk : Block) : Quiet (logWrite b blk) := fun _ => rfl

theorem setDin (k : Slot) (f : Dinode → Dinode) : Quiet (setDin k f) := by
  intro s
  rw [Fs.setDin, wp_bind, wp_get, Fs.setInode, wp_modify, counts_setInode]
  exact (assign_eq_update ..).trans (update_eq_self k s.counts)

variable (sb : Superblock)

theorem balloc : Quiet (balloc sb) := by
  have hloop : ∀ n b, Quiet (ballocLoop sb n b) := by
    intro n
    induction n with
    | zero => exact fun b => ret 0
    | succ n ih =>
      intro b
      rw [ballocLoop]
      refine ite (bind (bread _) fun bp => ?_) (ret 0)
      split
      · exact bind (logWrite _ _) fun _ => bind (logWrite _ _) fun _ => ret _
      · exact ih _
  exact hloop _ 0

theorem addrOrAlloc (k : Slot) (j : Fin (NDIRECT + 1)) : Quiet (addrOrAlloc sb k j) := by
  rw [Fs.addrOrAlloc]
  refine bind get fun s => ite (bind (balloc sb) fun a => ?_) (ret _)
  exact ite (ret 0) (bind (setDin _ _) fun _ => ret a)

theorem bmap (k : Slot) (bn : ℕ) : Quiet (bmap sb k bn) := by
  rw [Fs.bmap]
  refine ite (addrOrAlloc sb _ _) (ite (bind (addrOrAlloc sb _ _) fun a => ?_) (throw _))
  refine ite (ret 0) (bind (bread a) fun bp => ite (bind (balloc sb) fun b => ?_) (ret _))
  exact ite (ret 0) (bind (logWrite _ _) fun _ => ret b)

theorem readi (k : Slot) (dst : Dest) (off n : ℕ) : Quiet (readi sb k dst off n) := by
  have hloop : ∀ f tot off n dst, Quiet (readiLoop sb k f tot off n dst) := by
    intro f
    induction f with
    | zero => exact fun _ _ _ _ => ret _
    | succ f ih =>
      intro tot off n dst
      rw [readiLoop]
      refine ite (bind (bmap sb _ _) fun a => ite (ret _) (bind (bread a) fun bp => ?_)) (ret _)
      exact ite (ih _ _ _ _) (ret _)
  rw [Fs.readi]
  exact bind get fun s => ite (ret _) (hloop _ _ _ _ _)

theorem readDirent (k : Slot) (off : ℕ) (err : Err) : Quiet (readDirent sb k off err) := by
  rw [Fs.readDirent]
  refine bind (readi sb _ _ _ _) fun r => ?_
  split
  · exact ite (ret _) (throw _)
  · exact throw _

theorem bfree (b : ℕ) : Quiet (bfree sb b) := by
  rw [Fs.bfree]
  exact bind (bread _) fun bp => ite (logWrite _ _) (throw _)

theorem iupdate (k : Slot) : Quiet (iupdate sb k) := by
  rw [Fs.iupdate]
  exact bind get fun s => bind (bread _) fun bp => logWrite _ _

theorem itrunc (k : Slot) : Quiet (itrunc sb k) := by
  have hdirect : ∀ n i, Quiet (truncDirect sb k n i) := by
    intro n
    induction n with
    | zero => exact fun i => ret ()
    | succ n ih =>
      intro i
      rw [truncDirect]
      refine bind get fun s => ite ?_ (ih _)
      exact bind (bfree sb _) fun _ => bind (setDin _ _) fun _ => ih _
  have hindirect : ∀ bp n j, Quiet (truncIndirect sb bp n j) := by
    intro bp n
    induction n with
    | zero => exact fun j => ret ()
    | succ n ih =>
      intro j
      rw [truncIndirect]
      exact ite (bind (bfree sb _) fun _ => ih _) (ih _)
  have hend : Quiet (do
      Fs.setDin k fun d => { d with size := 0 }
      Fs.iupdate sb k) := bind (setDin _ _) fun _ => iupdate sb k
  rw [Fs.itrunc]
  refine bind (hdirect _ _) fun _ => bind get fun s => ite ?_ hend
  exact bind (bread _) fun bp => bind (hindirect _ _ _) fun _ => bind (bfree sb _) fun _ =>
    bind (setDin _ _) fun _ => hend

end Quiet

/-! ## Taking and giving back -/

variable (sb : Superblock)

theorem iget_counts (inum : ℕ) : wp (iget inum) (fun _ => True) s fun k s' =>
    s'.counts = s.counts.take k := by
  rw [iget, wp_bind, wp_get]
  split
  · rw [wp_bind, setInode, wp_modify, wp_pure, counts_setInode]
    rfl
  · split
    · trivial
    · next k hk =>
      have hzero : (s.inode k).ref = 0 := by simpa using List.find?_some hk
      rw [wp_bind, setInode, wp_modify, wp_pure, counts_setInode, Counts.take, State.counts, hzero]

theorem idup_counts : wp (idup k) (fun _ => True) s fun r s' => s'.counts = s.counts.take r := by
  rw [idup, wp_bind, wp_get, wp_bind, setInode, wp_modify, wp_pure, counts_setInode]
  rfl

theorem ilock_counts : wp (ilock sb k) (fun _ => True) s fun _ s' =>
    (s.counts k).2 = false ∧ s'.counts = s.counts.lock k := by
  rw [ilock, wp_bind, wp_get]
  by_cases href : (s.inode k).ref < 1
  · rw [if_pos href]
    trivial
  · rw [if_neg href]
    cases hlocked : (s.inode k).locked with
    | true =>
      rw [if_pos rfl]
      trivial
    | false =>
      rw [if_neg Bool.false_ne_true]
      by_cases hvalid : (s.inode k).valid = true
      · rw [if_pos hvalid, setInode, wp_modify, counts_setInode]
        exact ⟨hlocked, rfl⟩
      · rw [if_neg hvalid, wp_bind, bread, wp_bind, wp_get, wp_pure, wp_bind, setInode, wp_modify,
          wp_ite]
        refine ⟨fun _ => trivial, fun _ => ?_⟩
        rw [wp_pure, counts_setInode]
        exact ⟨hlocked, rfl⟩

theorem iunlock_counts : wp (iunlock k) (fun _ => True) s fun _ s' =>
    s'.counts = s.counts.unlock k := by
  rw [iunlock, wp_bind, wp_get, wp_ite]
  refine ⟨fun _ => trivial, fun _ => ?_⟩
  rw [setInode, wp_modify, counts_setInode]
  rfl

theorem iput_counts : wp (iput sb k) (fun _ => True) s fun _ s' => s'.counts = s.counts.put k := by
  rw [iput, wp_bind, wp_get, wp_ite]
  refine ⟨fun _ => ?_, fun _ => ?_⟩
  · cases hlocked : (s.inode k).locked with
    | true =>
      rw [if_pos rfl]
      trivial
    | false =>
      rw [if_neg Bool.false_ne_true, wp_bind, setInode, wp_modify]
      -- freeing the inode leaves the entry locked
      have hfree : Quiet (do
          itrunc sb k
          setDin k fun d => { d with type := 0 }
          iupdate sb k) :=
        (Quiet.itrunc sb k).bind fun _ => (Quiet.setDin _ _).bind fun _ => Quiet.iupdate sb k
      have hrun := hfree { s with inode := assign s.inode k { s.inode k with locked := true } }
      simp only [wp_bind] at hrun ⊢
      refine hrun.mono fun _ s1 h1 => h1.mono fun _ s2 h2 => h2.mono fun _ s3 h3 => ?_
      rw [counts_setInode] at h3
      have hk : (s3.inode k).ref = (s.inode k).ref := by
        have hk3 := congrFun h3 k
        rw [assign, if_pos rfl] at hk3
        exact congrArg Prod.fst hk3
      rw [wp_get, setInode, wp_modify, counts_setInode, h3, hk, Counts.put, assign_eq_update,
        assign_eq_update, assign_eq_update, update_idem]
      simp only [State.counts, hlocked]
  · rw [setInode, wp_modify, counts_setInode]
    rfl

theorem iunlockput_counts : wp (iunlockput sb k) (fun _ => True) s fun _ s' =>
    s'.counts = (s.counts.unlock k).put k := by
  rw [iunlockput, wp_bind]
  refine iunlock_counts.mono fun _ s1 h1 => ?_
  rw [← h1]
  exact iput_counts sb

theorem dirlookup_counts (name : List UInt8) : wp (dirlookup sb k name) (fun _ => True) s fun r s' =>
    match r with | none => s'.counts = s.counts | some (ip, _) => s'.counts = s.counts.take ip := by
  have hloop : ∀ n off s, wp (dirlookupLoop sb k name n off) (fun _ => True) s fun r s' =>
      match r with
      | none => s'.counts = s.counts
      | some (ip, _) => s'.counts = s.counts.take ip := by
    intro n
    induction n with
    | zero =>
      intro off s
      rw [dirlookupLoop, wp_pure]
    | succ n ih =>
      intro off s
      rw [dirlookupLoop, wp_bind, wp_get, wp_ite]
      refine ⟨fun _ => ?_, fun _ => rfl⟩
      rw [wp_bind]
      refine (Quiet.readDirent sb k off _ s).mono fun de s1 h1 => ?_
      rw [← h1, wp_ite]
      refine ⟨fun _ => ih _ _, fun _ => ?_⟩
      rw [wp_ite]
      refine ⟨fun _ => ?_, fun _ => ih _ _⟩
      rw [wp_bind]
      exact (iget_counts de.inum).mono fun ip s2 h2 => h2
  rw [dirlookup, wp_bind, wp_get, wp_ite]
  exact ⟨fun _ => hloop _ _ _, fun _ => trivial⟩

/-- What a lookup leaves, when the references and locks were `c` before it took any: with the inode that
it found, a reference to it. -/
def Balanced (c : Counts) (r : Option Slot) (s' : State) : Prop :=
  match r with
  | none => s'.counts = c
  | some k => s'.counts = c.take k

theorem namexLoop_counts (parent : Bool) (n : ℕ) {c : Counts} {path : List UInt8}
    (h : s.counts = c.take k) : wp (namexLoop sb parent n k path) (fun _ => True) s fun r s' =>
      Balanced c (r.map Prod.fst) s' := by
  induction n generalizing s k path with
  | zero =>
    rw [namexLoop, wp_pure]
    exact h
  | succ n ih =>
    rw [namexLoop]
    split
    · next name rest _ =>
      rw [wp_bind]
      refine (ilock_counts sb).mono ?_
      rintro _ s1 ⟨hfree, h1⟩
      rw [h] at hfree h1
      have hc : (c k).2 = false := by
        rw [Counts.take, assign, if_pos rfl] at hfree
        exact hfree
      have hnone : ∀ s2, s2.counts = (c.take k).lock k →
          wp (iunlockput sb k) (fun _ => True) s2 fun _ s' => s'.counts = c := by
        intro s2 h2
        refine (iunlockput_counts sb).mono fun _ s' h' => ?_
        rw [h', h2, Counts.unlock_lock hfree, Counts.put_take]
      rw [wp_bind, wp_get, wp_ite]
      refine ⟨fun _ => ?_, fun _ => ?_⟩
      · rw [wp_bind]
        exact (hnone s1 h1).mono fun _ s' h' => h'
      · rw [wp_ite]
        refine ⟨fun _ => ?_, fun _ => ?_⟩
        · rw [wp_bind]
          refine iunlock_counts.mono fun _ s' h' => ?_
          rw [h1, Counts.unlock_lock hfree] at h'
          exact h'
        · rw [wp_bind]
          refine (dirlookup_counts sb name).mono fun r s2 h2 => ?_
          cases r with
          | none =>
            rw [wp_bind]
            exact (hnone s2 (h2.trans h1)).mono fun _ s' h' => h'
          | some found =>
            obtain ⟨next, off⟩ := found
            change s2.counts = s1.counts.take next at h2
            rw [wp_bind]
            refine (iunlockput_counts sb).mono fun _ s3 h3 => ih ?_
            rw [h3, h2, h1, Counts.put_unlock_take hc]
    · rw [wp_ite]
      refine ⟨fun _ => ?_, fun _ => h⟩
      rw [wp_bind]
      refine (iput_counts sb).mono fun _ s' h' => ?_
      rw [h, Counts.put_take] at h'
      exact h'

theorem namei_counts (cwd : Slot) (path : List UInt8) :
    wp (namei sb cwd path) (fun _ => True) s (Balanced s.counts) := by
  rw [namei, wp_bind, namex, wp_ite]
  refine ⟨fun _ => ?_, fun _ => ?_⟩
  · rw [wp_bind]
    exact (iget_counts ROOTINO).mono fun k s1 h1 => namexLoop_counts sb false _ h1
  · rw [wp_bind]
    exact idup_counts.mono fun k s1 h1 => namexLoop_counts sb false _ h1

end Xv6.Fs
