import Xv6.Fs.Path

/-!
# Path splitting

The elements of a path are its maximal runs of bytes other than `/`. `skipelem` yields them one by one,
each cut to `DIRSIZ` bytes, into a name buffer that `namex` uses again for every element.
`skipelemInto` is `skipelem` with that buffer. What an earlier element left behind in it is never looked
at: `strncmp` and `strncpy` stop at the NUL, or after `DIRSIZ` bytes. So `namex` is a walk along the
elements, with one `dirlookup` for each.
-/

namespace Xv6.Fs

open List Lib

/-- The maximal runs of bytes other than `/`. -/
def elements (path : List UInt8) : List (List UInt8) := (path.splitOn slash).filter (· ≠ [])

/-- The bytes that `skipelem` stores for an element. -/
def elementName (elem : List UInt8) : List UInt8 :=
  if DIRSIZ ≤ elem.length then elem.take DIRSIZ else elem ++ [0]

/-! ## One element -/

theorem elements_cons_slash (path : List UInt8) : elements (slash :: path) = elements path := by
  have h := splitOn_append_cons_self_of_not_mem (not_mem_nil (a := slash)) path
  rw [nil_append] at h
  rw [elements, h, filter_cons_of_neg (by simp), elements]

theorem elements_dropWhile (path : List UInt8) :
    elements (path.dropWhile (· = slash)) = elements path := by
  induction path with
  | nil => rfl
  | cons c path ih =>
    by_cases hc : c = slash
    · rw [dropWhile_cons_of_pos (by simpa using hc), ih, hc, elements_cons_slash]
    · rw [dropWhile_cons_of_neg (by simpa using hc)]

variable {rest : List UInt8}

theorem elements_append {elem : List UInt8} (hne : elem ≠ []) (helem : slash ∉ elem)
    (hrest : rest = [] ∨ ∃ r, rest = slash :: r) : elements (elem ++ rest) = elem :: elements rest := by
  rcases hrest with rfl | ⟨r, rfl⟩
  · rw [append_nil, elements, splitOn_eq_singleton helem, filter_cons_of_pos (by simpa using hne)]
    rfl
  · rw [elements_cons_slash, elements, splitOn_append_cons_self_of_not_mem helem,
      filter_cons_of_pos (by simpa using hne), elements]

variable {path : List UInt8}

theorem elements_of_head (hne : path ≠ []) (hhead : path.head? ≠ some slash) :
    path.takeWhile (· ≠ slash) ≠ [] ∧
      elements path = path.takeWhile (· ≠ slash) :: elements (path.dropWhile (· ≠ slash)) := by
  have hfirst : path.takeWhile (· ≠ slash) ≠ [] := by
    obtain ⟨c, cs, rfl⟩ := exists_cons_of_ne_nil hne
    have hc : c ≠ slash := fun hc => hhead (by rw [hc]; rfl)
    rw [takeWhile_cons_of_pos (by simpa using hc)]
    exact cons_ne_nil _ _
  refine ⟨hfirst, ?_⟩
  have hnot : slash ∉ path.takeWhile (· ≠ slash) := by
    intro hmem
    simpa using List.all_eq_true.mp all_takeWhile slash hmem
  have hrest : path.dropWhile (· ≠ slash) = [] ∨ ∃ r, path.dropWhile (· ≠ slash) = slash :: r := by
    cases hd : path.dropWhile (· ≠ slash) with
    | nil => exact .inl rfl
    | cons c r =>
      have hstop := head_dropWhile_not (fun b => decide (b ≠ slash)) (l := path)
        (by rw [hd]; exact cons_ne_nil c r)
      simp only [hd, head_cons, decide_eq_false_iff_not, not_not] at hstop
      exact .inr ⟨r, by rw [hstop]⟩
  have h := elements_append hfirst hnot hrest
  rwa [takeWhile_append_dropWhile] at h

theorem head?_dropWhile_slash (path : List UInt8) :
    (path.dropWhile (· = slash)).head? ≠ some slash := by
  intro h
  have hne : path.dropWhile (· = slash) ≠ [] := by
    intro hnil
    rw [hnil] at h
    cases h
  have hstop := head_dropWhile_not (fun b => decide (b = slash)) (by simpa using hne)
  rw [head?_eq_some_head hne, Option.some.injEq] at h
  simp only [h, decide_true, Bool.true_eq_false] at hstop

theorem skipelem_eq_none : skipelem path = none ↔ elements path = [] := by
  rw [← elements_dropWhile]
  unfold skipelem
  by_cases hnil : path.dropWhile (· = slash) = []
  · simp only [hnil, if_true, true_iff]
    rfl
  · have h := (elements_of_head hnil (head?_dropWhile_slash path)).2
    simp only [hnil, if_false, reduceCtorEq, h]

variable {nm : List UInt8}

theorem skipelem_eq_some (h : skipelem path = some (nm, rest)) :
    ∃ elem, elements path = elem :: elements rest ∧ nm = elementName elem ∧
      (rest = [] ↔ elements rest = []) := by
  unfold skipelem at h
  by_cases hnil : path.dropWhile (· = slash) = []
  · rw [if_pos hnil] at h
    cases h
  · rw [if_neg hnil] at h
    obtain ⟨hnm, hrest⟩ := Prod.mk.inj (Option.some.inj h)
    refine ⟨(path.dropWhile (· = slash)).takeWhile (· ≠ slash), ?_, hnm.symm, ?_⟩
    · rw [← elements_dropWhile path, (elements_of_head hnil (head?_dropWhile_slash path)).2, ← hrest,
        elements_dropWhile]
    · refine ⟨fun hr => by rw [hr]; rfl, fun hr => ?_⟩
      by_contra hne
      have hhead : rest.head? ≠ some slash := by
        rw [← hrest]
        exact head?_dropWhile_slash _
      have := (elements_of_head hne hhead).2
      rw [hr] at this
      cases this

/-! ## The name buffer -/

/-- The first bytes of a buffer are overwritten. -/
def overwrite (buf bs : List UInt8) : List UInt8 := bs ++ buf.drop bs.length

/-- `skipelem(path, name)`: the contents of the buffer `name` afterwards, and the rest of the path. -/
def skipelemInto (path name : List UInt8) : Option (List UInt8 × List UInt8) :=
  let s := path.dropWhile (· = slash)
  if s = [] then none
  else
    let path := s.dropWhile (· ≠ slash)
    let len := s.length - path.length
    let name :=
      if DIRSIZ ≤ len then overwrite name (s.take DIRSIZ)
      else (overwrite name (s.take len)).set len 0
    some (name, path.dropWhile (· = slash))

variable {name : List UInt8}

theorem skipelemInto_eq (hname : name.length = DIRSIZ) :
    skipelemInto path name = (skipelem path).map fun x => (overwrite name x.1, x.2) := by
  unfold skipelemInto skipelem
  generalize path.dropWhile (· = slash) = s
  by_cases hs : s = []
  · simp only [hs, if_true, Option.map_none]
  · have hsplit := takeWhile_append_dropWhile (p := fun b => decide (b ≠ slash)) (l := s)
    have hlen := congrArg List.length hsplit
    rw [length_append] at hlen
    have hsub : s.length - (s.dropWhile (· ≠ slash)).length = (s.takeWhile (· ≠ slash)).length := by
      omega
    have htake : s.take (s.takeWhile (· ≠ slash)).length = s.takeWhile (· ≠ slash) := by
      have h : (s.takeWhile (· ≠ slash) ++ s.dropWhile (· ≠ slash)).take _ = _ := take_left
      rwa [hsplit] at h
    simp only [if_neg hs, hsub, Option.map_some]
    by_cases hd : DIRSIZ ≤ (s.takeWhile (· ≠ slash)).length
    · have hpre : s.take DIRSIZ = (s.takeWhile (· ≠ slash)).take DIRSIZ := by
        have h : (_ ++ s.dropWhile (· ≠ slash)).take DIRSIZ = _ :=
          take_append_of_le_length hd
        rwa [hsplit] at h
      rw [if_pos hd, if_pos hd, hpre]
    · rw [if_neg hd, if_neg hd, htake]
      -- the NUL overwrites one byte more
      have hdrop : name.drop (s.takeWhile (· ≠ slash)).length ≠ [] := by
        rw [ne_eq, drop_eq_nil_iff]
        omega
      obtain ⟨c, cs, hcs⟩ := exists_cons_of_ne_nil hdrop
      have hcs' : cs = name.drop ((s.takeWhile (· ≠ slash)).length + 1) := by
        rw [← tail_drop, hcs, tail_cons]
      rw [overwrite, overwrite, hcs, set_append_right _ _ (le_refl _), Nat.sub_self,
        set_cons_zero, length_append, length_singleton, hcs', append_assoc,
        singleton_append]

theorem length_elementName (elem : List UInt8) : (elementName elem).length ≤ DIRSIZ := by
  unfold elementName
  by_cases h : DIRSIZ ≤ elem.length
  · rw [if_pos h, length_take]
    omega
  · rw [if_neg h, length_append, length_singleton]
    omega

theorem length_overwrite {buf bs : List UInt8} (h : bs.length ≤ buf.length) :
    (overwrite buf bs).length = buf.length := by
  rw [overwrite, length_append, length_drop]
  omega

variable {n : ℕ} {p : List UInt8}

theorem strncmp_append (h : n ≤ p.length ∨ 0 ∈ p) (t q : List UInt8) :
    strncmp n (p ++ t) q = strncmp n p q := by
  induction n generalizing p q with
  | zero => rfl
  | succ n ih =>
    cases p with
    | nil =>
      rcases h with h | h
      · exact absurd h (by simp)
      · cases h
    | cons c p =>
      rw [cons_append, strncmp, strncmp, headD_cons, headD_cons, tail_cons, tail_cons]
      by_cases hc : c ≠ 0 ∧ c = q.headD 0
      · rw [if_pos hc, if_pos hc]
        refine ih ?_ _
        rcases h with h | h
        · exact .inl (Nat.le_of_succ_le_succ h)
        · exact .inr ((List.mem_cons.mp h).resolve_left fun h0 => hc.1 h0.symm)
      · rw [if_neg hc, if_neg hc]

theorem strncpy_append (h : n ≤ p.length ∨ 0 ∈ p) (t : List UInt8) :
    strncpy n (p ++ t) = strncpy n p := by
  induction n generalizing p with
  | zero => rfl
  | succ n ih =>
    cases p with
    | nil =>
      rcases h with h | h
      · exact absurd h (by simp)
      · cases h
    | cons c p =>
      rw [cons_append, strncpy, strncpy, headD_cons, headD_cons, tail_cons, tail_cons]
      by_cases hc : c = 0
      · rw [if_pos hc, if_pos hc]
      · rw [if_neg hc, if_neg hc, ih]
        rcases h with h | h
        · exact .inl (Nat.le_of_succ_le_succ h)
        · exact .inr ((List.mem_cons.mp h).resolve_left fun h0 => hc h0.symm)

theorem elementName_ends (elem : List UInt8) :
    DIRSIZ ≤ (elementName elem).length ∨ 0 ∈ elementName elem := by
  unfold elementName
  by_cases h : DIRSIZ ≤ elem.length
  · rw [if_pos h, length_take]
    exact .inl (by omega)
  · rw [if_neg h]
    exact .inr (List.mem_append.mpr (.inr (mem_singleton_self 0)))

theorem namecmp_overwrite (buf elem nm : List UInt8) :
    namecmp (overwrite buf (elementName elem)) nm = namecmp (elementName elem) nm :=
  strncmp_append (elementName_ends elem) _ nm

theorem strncpy_overwrite (buf elem : List UInt8) :
    strncpy DIRSIZ (overwrite buf (elementName elem)) = strncpy DIRSIZ (elementName elem) :=
  strncpy_append (elementName_ends elem) _

/-! ## All elements -/

theorem length_skipelemInto (h : skipelemInto path name = some (nm, rest)) :
    rest.length < path.length := by
  have hrest : (skipelemInto path name).map Prod.snd = (skipelem path).map Prod.snd := by
    unfold skipelemInto skipelem
    by_cases hs : path.dropWhile (· = slash) = []
    · simp only [hs, if_true, Option.map_none]
    · simp only [hs, if_false, Option.map_some]
  rw [h, Option.map_some] at hrest
  obtain ⟨⟨nm', rest'⟩, hskip, hsnd⟩ := Option.map_eq_some_iff.mp hrest.symm
  obtain rfl : rest' = rest := hsnd
  exact length_skipelem hskip

/-- What repeated calls of `skipelem` yield, until it returns 0: the buffer and the rest of the path
after each. -/
def skipelems (path name : List UInt8) : List (List UInt8 × List UInt8) :=
  match _h : skipelemInto path name with
  | none => []
  | some (name', rest) => (name', rest) :: skipelems rest name'
termination_by path.length
decreasing_by exact length_skipelemInto _h

/-- A name that is stored for an element, in a buffer of `DIRSIZ` bytes. -/
structure Stores (name elem : List UInt8) : Prop where
  length : name.length = DIRSIZ
  starts : elementName elem <+: name

theorem Stores.overwrite (hname : name.length = DIRSIZ) (elem : List UInt8) :
    Stores (overwrite name (elementName elem)) elem :=
  ⟨by rw [length_overwrite (by rw [hname]; exact length_elementName elem), hname], prefix_append ..⟩

theorem skipelems_spec (path : List UInt8) (hname : name.length = DIRSIZ) :
    List.Forall₂ (fun x elem => Stores x.1 elem) (skipelems path name) (elements path) ∧
      ∀ j (hj : j < (skipelems path name).length),
        (skipelems path name)[j].2 = [] ↔ j + 1 = (elements path).length := by
  induction hn : path.length using Nat.strong_induction_on generalizing path name with
  | h n ih =>
    rw [skipelems]
    split
    · next h =>
      rw [skipelemInto_eq hname, Option.map_eq_none_iff, skipelem_eq_none] at h
      rw [h]
      exact ⟨.nil, fun j hj => absurd hj (Nat.not_lt_zero j)⟩
    · next nm rest h =>
      have hlen := length_skipelemInto h
      rw [skipelemInto_eq hname] at h
      obtain ⟨⟨nm', rest'⟩, hskip, hpair⟩ := Option.map_eq_some_iff.mp h
      obtain ⟨rfl, rfl⟩ := Prod.mk.inj hpair
      change rest'.length < path.length at hlen
      obtain ⟨elem, helems, rfl, hend⟩ := skipelem_eq_some hskip
      have hstores := Stores.overwrite hname elem
      obtain ⟨hall, hlast⟩ := ih _ (by omega) rest' hstores.length rfl
      rw [helems]
      refine ⟨.cons hstores hall, fun j hj => ?_⟩
      cases j with
      | zero =>
        rw [getElem_cons_zero, hend, length_cons, ← length_eq_zero_iff]
        omega
      | succ j =>
        rw [getElem_cons_succ, hlast j (Nat.lt_of_succ_lt_succ hj), length_cons]
        omega

/-! ## `namex` -/

section

variable (sb : Superblock)

/-- The loop of `namex` with its name buffer. -/
def namexLoopInto (parent : Bool) : ℕ → Slot → List UInt8 → List UInt8 →
    M (Option (Slot × List UInt8))
  | n + 1, ip, path, name =>
    match skipelemInto path name with
    | some (name, path) => do
        ilock sb ip
        if ((← get).inode ip).din.type ≠ T_DIR then do
          iunlockput sb ip
          return none
        else if parent ∧ path = [] then do
          iunlock ip
          return some (ip, name)
        else do
          match ← dirlookup sb ip name with
          | none => do
              iunlockput sb ip
              return none
          | some (next, _) => do
              iunlockput sb ip
              namexLoopInto parent n next path name
    | none =>
      if parent then do
        iput sb ip
        return none
      else pure (some (ip, []))
  | 0, ip, _, _ => pure (some (ip, []))

/-- A directory is looked up for each of the names, one after the other. -/
def walkNames (parent : Bool) : Slot → List (List UInt8) → M (Option (Slot × List UInt8))
  | ip, name :: names => do
      ilock sb ip
      if ((← get).inode ip).din.type ≠ T_DIR then do
        iunlockput sb ip
        return none
      else if parent ∧ names = [] then do
        iunlock ip
        return some (ip, name)
      else do
        match ← dirlookup sb ip name with
        | none => do
            iunlockput sb ip
            return none
        | some (next, _) => do
            iunlockput sb ip
            walkNames parent next names
  | ip, [] =>
    if parent then do
      iput sb ip
      return none
    else pure (some (ip, []))

variable {sb}

theorem dirlookup_congr {nm nm' : List UInt8} (h : ∀ t, namecmp nm t = namecmp nm' t) (k : Slot) :
    dirlookup sb k nm = dirlookup sb k nm' := by
  have hloop : ∀ n off, dirlookupLoop sb k nm n off = dirlookupLoop sb k nm' n off := by
    intro n
    induction n with
    | zero => exact fun _ => rfl
    | succ n ih =>
      intro off
      simp only [dirlookupLoop, h, ih]
  simp only [dirlookup, hloop]

/-- The name as a directory entry stores it. -/
def padName (r : Option (Slot × List UInt8)) : Option (Slot × List UInt8) :=
  r.map (Prod.map id (strncpy DIRSIZ))

variable {ip : Slot} {n : ℕ} {parent : Bool} {path : List UInt8}

theorem namexLoop_eq (hn : path.length < n) :
    namexLoop sb parent n ip path = walkNames sb parent ip ((elements path).map elementName) := by
  induction n generalizing ip path with
  | zero => exact absurd hn (Nat.not_lt_zero _)
  | succ n ih =>
    rw [namexLoop]
    cases hskip : skipelem path with
    | none =>
      rw [skipelem_eq_none.mp hskip]
      rfl
    | some x =>
      obtain ⟨nm, rest⟩ := x
      obtain ⟨elem, helems, rfl, hend⟩ := skipelem_eq_some hskip
      have hlen := length_skipelem hskip
      have hlast : rest = [] ↔ (elements rest).map elementName = [] := by
        rw [hend, map_eq_nil_iff]
      have hrec : ∀ next, namexLoop sb parent n next rest = _ := fun next =>
        @ih next rest (by omega)
      simp only [helems, map_cons, hlast, hrec]
      rfl

variable {name : List UInt8}

theorem namexLoopInto_eq (hname : name.length = DIRSIZ) :
    padName <$> namexLoopInto sb parent n ip path name =
      padName <$> namexLoop sb parent n ip path := by
  induction n generalizing ip path name with
  | zero => rfl
  | succ n ih =>
    rw [namexLoopInto, namexLoop, skipelemInto_eq hname]
    cases hskip : skipelem path with
    | none => rfl
    | some x =>
      obtain ⟨nm, rest⟩ := x
      obtain ⟨elem, -, rfl, -⟩ := skipelem_eq_some hskip
      have hstores := Stores.overwrite hname elem
      simp only [Option.map_some, dirlookup_congr (namecmp_overwrite name elem), map_bind]
      refine bind_congr fun _ => bind_congr fun s => ?_
      split
      · rfl
      · split
        · simp only [map_bind, map_pure, padName, Option.map_some, Prod.map_apply, strncpy_overwrite]
        · simp only [map_bind]
          refine bind_congr fun r => ?_
          cases r with
          | none => rfl
          | some r =>
            simp only [map_bind]
            exact bind_congr fun _ => ih hstores.length

theorem namexLoopInto_parent {s : State} (hn : path.length < n) (hname : name.length = DIRSIZ) :
    Lib.wp (namexLoopInto sb true n ip path name) (fun _ => True) s fun r _ =>
      ∀ dp nm, r = some (dp, nm) → ∃ elem, (elements path).getLast? = some elem ∧ Stores nm elem := by
  induction n generalizing ip path name s with
  | zero => exact absurd hn (Nat.not_lt_zero _)
  | succ n ih =>
    have hE : ∀ e : Err, True := fun _ => trivial
    have hnone : ∀ (x : M Unit) s', wp (do x; return none) (fun _ => True) s'
        fun (r : Option (Slot × List UInt8)) _ => ∀ dp nm, r = some (dp, nm) →
          ∃ elem, (elements path).getLast? = some elem ∧ Stores nm elem := by
      intro x s'
      rw [wp_bind]
      refine wp_of_forall hE fun _ _ => ?_
      rw [wp_pure]
      exact nofun
    rw [namexLoopInto, skipelemInto_eq hname]
    cases hskip : skipelem path with
    | none => exact hnone _ s
    | some x =>
      obtain ⟨nm, rest⟩ := x
      obtain ⟨elem, helems, rfl, hend⟩ := skipelem_eq_some hskip
      have hlen := length_skipelem hskip
      have hstores := Stores.overwrite hname elem
      simp only [Option.map_some]
      rw [wp_bind]
      refine wp_of_forall hE fun _ s1 => ?_
      rw [wp_bind, wp_get, wp_ite]
      refine ⟨fun _ => hnone _ s1, fun _ => ?_⟩
      rw [wp_ite]
      refine ⟨fun hlast => ?_, fun hlast => ?_⟩
      · rw [wp_bind]
        refine wp_of_forall hE fun _ s2 => ?_
        rw [wp_pure]
        intro dp nm h
        obtain ⟨-, rfl⟩ := Prod.mk.inj (Option.some.inj h)
        rw [helems, hend.mp hlast.2]
        exact ⟨elem, rfl, hstores⟩
      · have hne : elements rest ≠ [] := fun hnil => hlast ⟨trivial, hend.mpr hnil⟩
        rw [wp_bind]
        refine wp_of_forall hE fun r s2 => ?_
        cases r with
        | none => exact hnone _ s2
        | some r =>
          change wp (do iunlockput sb ip; namexLoopInto sb true n r.1 rest _) _ s2 _
          rw [wp_bind]
          refine wp_of_forall hE fun _ s3 => ?_
          refine (ih (by omega) hstores.length).mono fun r s' hr dp nm h => ?_
          rw [helems, getLast?_cons_of_ne_nil hne]
          exact hr dp nm h

end

/-- Where a path lookup starts. -/
def pathStart (cwd : Slot) (path : List UInt8) : M Slot :=
  if path.head? = some slash then iget ROOTINO else idup cwd

theorem namex_eq (sb : Superblock) (cwd : Slot) (path : List UInt8) (parent : Bool) :
    namex sb cwd path parent =
      pathStart cwd path >>= fun ip => namexLoop sb parent (path.length + 1) ip path := by
  unfold namex pathStart
  by_cases h : path.head? = some slash
  · simp only [if_pos h]
  · simp only [if_neg h]

/-- `namex(path, nameiparent, name)`, with the name buffer. -/
def namexInto (sb : Superblock) (cwd : Slot) (path : List UInt8) (parent : Bool) (name : List UInt8) :
    M (Option (Slot × List UInt8)) := do
  let ip ← pathStart cwd path
  namexLoopInto sb parent (path.length + 1) ip path name

/-- **Path splitting.** The calls of `skipelem` end, and store the elements of the path in order in the
name buffer; the rest is empty exactly at the last. `namex` is a walk along these names with one
`dirlookup` each, and what the buffer held before does not matter to it. `nameiparent` returns with the
last element in the buffer, so for a path without elements it returns 0. -/
theorem path_splitting (sb : Superblock) (path : List UInt8) (hname : name.length = DIRSIZ) :
    List.Forall₂ (fun x elem => Stores x.1 elem) (skipelems path name) (elements path) ∧
    (∀ j (hj : j < (skipelems path name).length),
      (skipelems path name)[j].2 = [] ↔ j + 1 = (elements path).length) ∧
    (∀ cwd parent, namex sb cwd path parent = do
      let ip ← pathStart cwd path
      walkNames sb parent ip ((elements path).map elementName)) ∧
    (∀ cwd parent, padName <$> namexInto sb cwd path parent name =
      padName <$> namex sb cwd path parent) ∧
    (∀ cwd s dp nm s', (namexInto sb cwd path true name).run s = .ok (some (dp, nm), s') →
      ∃ elem, (elements path).getLast? = some elem ∧ Stores nm elem) ∧
    (elements path = [] → ∀ cwd s r s', (namexInto sb cwd path true name).run s = .ok (r, s') →
      r = none) := by
  have hlt : path.length < path.length + 1 := Nat.lt_succ_self _
  have hparent : ∀ cwd s dp nm s',
      (namexInto sb cwd path true name).run s = .ok (some (dp, nm), s') →
      ∃ elem, (elements path).getLast? = some elem ∧ Stores nm elem := by
    intro cwd s dp nm s' hrun
    have hwp : wp (namexInto sb cwd path true name) (fun _ => True) s fun r _ =>
        ∀ dp nm, r = some (dp, nm) →
          ∃ elem, (elements path).getLast? = some elem ∧ Stores nm elem := by
      rw [namexInto, wp_bind]
      exact wp_of_forall (fun _ => trivial) fun ip s₁ => namexLoopInto_parent hlt hname
    exact hwp.of_run_eq_ok hrun dp nm rfl
  obtain ⟨hall, hlast⟩ := skipelems_spec path hname
  refine ⟨hall, hlast, fun cwd parent => ?_, fun cwd parent => ?_, hparent,
    fun hnil cwd s r s' hrun => ?_⟩
  · rw [namex_eq]
    exact bind_congr fun ip => namexLoop_eq hlt
  · rw [namexInto, namex_eq, map_bind, map_bind]
    exact bind_congr fun ip => namexLoopInto_eq hname
  · cases r with
    | none => rfl
    | some r =>
      obtain ⟨elem, helem, -⟩ := hparent cwd s r.1 r.2 s' hrun
      rw [hnil] at helem
      cases helem

/-- The elements of `//a/bb/` are stored one after the other in a buffer that held other bytes. -/
theorem path_splitting_small : ∃ name : List UInt8, name.length = DIRSIZ ∧
    List.Forall₂ (fun x elem => Stores x.1 elem) (skipelems [47, 47, 97, 47, 98, 98, 47] name)
      (elements [47, 47, 97, 47, 98, 98, 47]) ∧
    elements [47, 47, 97, 47, 98, 98, 47] = [[97], [98, 98]] := by
  have hname : (replicate DIRSIZ (120 : UInt8)).length = DIRSIZ := length_replicate
  exact ⟨_, hname, (path_splitting ⟨0, 0, 0, 0, 0, 0, 0⟩ _ hname).1, by decide⟩

end Xv6.Fs
