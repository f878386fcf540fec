import Mathlib.Data.UInt
import Xv6.Console.Input
import Xv6.Lib.Ring

/-!
# Console input as a line editor

What the console is for: `Editor` holds the committed bytes, which readers may take, and the pending line,
which may still be edited. `console_refines_editor` says that the ring buffer with its three wrapping
counters behaves as this editor in every interleaving of input and readers.
-/

namespace Xv6.Console

open Lib Sync List UInt32

/-- The committed bytes and the line that is being typed. -/
structure Editor where
  committed : List UInt8
  pending : List UInt8

/-- Newline. -/
abbrev LF : UInt8 := 10

/-- Carriage return. -/
abbrev CR : UInt8 := 13

namespace Editor

variable (ed : Editor)

/-- The number of bytes held. -/
def size : ℕ := ed.committed.length + ed.pending.length

/-- A character goes to the end of the line; a newline, an end of file or the last free byte commits it. -/
def append (c : UInt8) : Editor :=
  let line := ed.pending ++ [c]
  if c = LF ∨ c = ctrlD ∨ ed.committed.length + line.length = INPUT_BUF_SIZE then
    ⟨ed.committed ++ line, []⟩
  else ⟨ed.committed, line⟩

/-- A key is typed. -/
def key (c : UInt8) : Editor :=
  -- backspace and delete
  if c = 8 ∨ c = 127 then { ed with pending := ed.pending.dropLast }
  -- control-u
  else if c = 21 then { ed with pending := [] }
  -- control-p and NUL
  else if c = 16 ∨ c = 0 then ed
  else if ed.size = INPUT_BUF_SIZE then ed
  else ed.append (if c = CR then LF else c)

end Editor

/-- What a read gets of the committed bytes: all up to the first newline, and nothing from an end of file
on. -/
def line : List UInt8 → List UInt8
  | [] => []
  | c :: q => if c = ctrlD then [] else if c = LF then [c] else c :: line q

/-- A reader that has `out` takes up to `n` bytes. It is done when it has them, or a newline, or comes to
an end of file, which it consumes if it has nothing; otherwise it sleeps. -/
def Editor.read (killed : Bool) (n : ℕ) (ed : Editor) (out : List UInt8) :
    Editor × List UInt8 × Status :=
  let bytes := (line ed.committed).take n
  let out := out ++ bytes
  let rest := ed.committed.drop bytes.length
  let left := n - bytes.length
  if bytes.length = n ∨ bytes.getLast? = some LF then ({ ed with committed := rest }, out, .done left)
  else
    match rest with
    | [] => ({ ed with committed := [] }, out, if killed then .killed else .sleep left)
    | _ :: rest' => ({ ed with committed := if out = [] then rest' else rest }, out, .done left)

/-- The line editor as a console. -/
def lineEditor : Device Editor where
  intr := Editor.key
  read killed _ _ n ed out := ed.read killed n out

/-- The line editor and its readers. -/
def editor (P : Type) [DecidableEq P] : Machine (State Editor P) (Act P) :=
  machine lineEditor fun ed => ed.committed = [] ∧ ed.pending = []

/-! ## The ring as an editor -/

/-- The ring holds the bytes of the editor: the committed ones from `r` to `w`, the pending ones from `w`
to `e`. The line has neither a newline nor an end of file, and a full ring is committed. -/
structure Represents (cs : Cons) (ed : Editor) : Prop where
  size : ed.size ≤ INPUT_BUF_SIZE
  w : cs.w = cs.r + UInt32.ofNat ed.committed.length
  e : cs.e = cs.r + UInt32.ofNat ed.size
  bytes : window cs.buf INPUT_BUF_SIZE cs.r.toNat ed.size = ed.committed ++ ed.pending
  pending : LF ∉ ed.pending ∧ ctrlD ∉ ed.pending
  full : ed.size = INPUT_BUF_SIZE → ed.pending = []

section

variable {cs : Cons} {ed : Editor}

theorem Represents.size_lt (h : Represents cs ed) : ed.size < 2 ^ 32 := by
  have h1 := h.size
  change ed.size ≤ 128 at h1
  omega

theorem Represents.e_eq_w (h : Represents cs ed) : cs.e = cs.w ↔ ed.pending = [] := by
  have h1 := h.size_lt
  have h2 : ed.size = ed.committed.length + ed.pending.length := rfl
  rw [h.e, h.w, counter_inj _ h1 (by omega), ← length_eq_zero_iff]
  omega

theorem Represents.r_eq_w (h : Represents cs ed) : cs.r = cs.w ↔ ed.committed = [] := by
  have h1 := h.size_lt
  have h2 : ed.size = ed.committed.length + ed.pending.length := rfl
  have h3 : cs.r = cs.r + ofNat 0 := by rw [show ofNat 0 = 0 from rfl, UInt32.add_zero]
  rw [h.w, ← length_eq_zero_iff, eq_comm]
  nth_rewrite 2 [h3]
  exact counter_inj _ (by omega) (by omega)

variable {c : UInt8} {line : List UInt8}

theorem Represents.last (h : Represents cs ed) (hp : ed.pending = line ++ [c]) :
    cs.buf ((cs.e - 1).toNat % INPUT_BUF_SIZE) = c ∧
      Represents { cs with e := cs.e - 1 } { ed with pending := line } := by
  have hsize : ed.size = (ed.committed.length + line.length) + 1 := by
    rw [Editor.size, hp, length_append, length_singleton, Nat.add_assoc]
  have hbytes := h.bytes
  rw [hsize, window_succ, hp, ← append_assoc] at hbytes
  obtain ⟨hwin, hc⟩ := append_inj' hbytes rfl
  have he : cs.e - 1 = cs.r + ofNat (ed.committed.length + line.length) := by
    rw [h.e, hsize, counter_pred]
  have hle := h.size
  refine ⟨?_, ⟨?_, h.w, he, hwin, ?_, ?_⟩⟩
  · rw [he, toNat_add_mod (by decide)]
    exact (List.cons.inj hc).1
  · change ed.committed.length + line.length ≤ _
    omega
  · have hpend := h.pending
    rw [hp, mem_append, mem_append, not_or, not_or] at hpend
    exact ⟨hpend.1.1, hpend.2.1⟩
  · intro hfull
    change ed.committed.length + line.length = _ at hfull
    omega

variable {n : ℕ}

theorem Represents.killLine (h : Represents cs ed) (hn : ed.pending.length ≤ n) :
    Represents (cs.killLine n) { ed with pending := [] } := by
  induction n generalizing cs ed with
  | zero =>
    obtain hnil := length_eq_zero_iff.mp (Nat.le_zero.mp hn)
    rw [← hnil]
    exact h
  | succ n ih =>
    rw [Cons.killLine]
    rcases eq_nil_or_concat ed.pending with hnil | ⟨line, c, hc⟩
    · rw [if_neg fun hne => hne.1 (h.e_eq_w.mpr hnil), ← hnil]
      exact h
    · rw [concat_eq_append] at hc
      obtain ⟨hlast, h'⟩ := h.last hc
      have hne : cs.e ≠ cs.w := by
        rw [ne_eq, h.e_eq_w, hc]
        exact append_ne_nil_of_right_ne_nil _ (cons_ne_nil _ _)
      have hlf : c ≠ 10 := by
        rintro rfl
        apply h.pending.1
        rw [hc]
        exact mem_append_right _ (mem_singleton_self _)
      rw [if_pos ⟨hne, by rw [hlast]; exact hlf⟩]
      rw [hc, length_append, length_singleton] at hn
      have hkill := ih h' (Nat.le_of_succ_le_succ hn)
      exact hkill

theorem Represents.append (h : Represents cs ed) (hroom : ed.size < INPUT_BUF_SIZE) (c : UInt8) :
    Represents
      (let cs' := { cs with buf := assign cs.buf (cs.e.toNat % INPUT_BUF_SIZE) c, e := cs.e + 1 }
       if c = 10 ∨ c = ctrlD ∨ cs'.e - cs'.r = 128 then { cs' with w := cs'.e } else cs')
      (ed.append c) := by
  have hsize : ed.committed.length + (ed.pending ++ [c]).length = ed.size + 1 := by
    rw [length_append, length_singleton, ← Nat.add_assoc]
    rfl
  have he : cs.e + 1 = cs.r + ofNat (ed.size + 1) := by rw [h.e, counter_succ]
  have hbuf : window (assign cs.buf (cs.e.toNat % INPUT_BUF_SIZE) c) INPUT_BUF_SIZE cs.r.toNat
      (ed.size + 1) = ed.committed ++ (ed.pending ++ [c]) := by
    rw [h.e, toNat_add_mod (by decide), window_push hroom, h.bytes, append_assoc]
  have hlen : cs.e + 1 - cs.r = 128 ↔ ed.size + 1 = INPUT_BUF_SIZE := by
    rw [he, counter_sub]
    change ofNat (ed.size + 1) = ofNat 128 ↔ ed.size + 1 = 128
    change ed.size < 128 at hroom
    refine ⟨fun heq => ?_, fun heq => by rw [heq]⟩
    have hnat := congrArg UInt32.toNat heq
    have hlt : ed.size + 1 < 2 ^ 32 := by omega
    rwa [toNat_ofNat_of_lt' hlt, toNat_ofNat_of_lt' (by decide)] at hnat
  simp only [hlen]
  unfold Editor.append
  simp only [hsize]
  by_cases hcommit : c = 10 ∨ c = ctrlD ∨ ed.size + 1 = INPUT_BUF_SIZE
  · rw [if_pos hcommit, if_pos hcommit]
    have hlen' : (ed.committed ++ (ed.pending ++ [c])).length = ed.size + 1 := by
      rw [length_append, hsize]
    refine ⟨?_, ?_, ?_, ?_, ⟨not_mem_nil, not_mem_nil⟩, fun _ => rfl⟩
    · rw [Editor.size, hlen']
      exact hroom
    · rw [hlen']
      exact he
    · rw [Editor.size, hlen']
      exact he
    · rw [Editor.size, hlen', length_nil, Nat.add_zero, append_nil]
      exact hbuf
  · rw [if_neg hcommit, if_neg hcommit]
    rw [not_or, not_or] at hcommit
    refine ⟨?_, h.w, ?_, ?_, ⟨?_, ?_⟩, fun hfull => ?_⟩
    · rw [Editor.size, hsize]
      exact hroom
    · rw [Editor.size, hsize]
      exact he
    · rw [Editor.size, hsize]
      exact hbuf
    · rw [mem_append, mem_singleton, not_or]
      exact ⟨h.pending.1, fun heq => hcommit.1 heq.symm⟩
    · rw [mem_append, mem_singleton, not_or]
      exact ⟨h.pending.2, fun heq => hcommit.2.1 heq.symm⟩
    · rw [Editor.size, hsize] at hfull
      exact absurd hfull hcommit.2.2

theorem Represents.key (h : Represents cs ed) (c : UInt8) : Represents (cs.intr c).1 (ed.key c) := by
  have hsize := h.size_lt
  unfold Cons.intr Editor.key
  by_cases hp : c = 16
  · subst hp
    exact h
  rw [if_neg hp]
  by_cases hu : c = 21
  · subst hu
    refine h.killLine (Nat.le_of_eq ?_)
    rw [h.e, Editor.size, ofNat_add, ← UInt32.add_assoc, ← h.w, counter_sub,
      toNat_ofNat_of_lt' (Nat.lt_of_le_of_lt (Nat.le_add_left _ _) hsize)]
  rw [if_neg hu]
  by_cases hbs : c = 8 ∨ c = 127
  · rw [if_pos hbs, if_pos hbs]
    rcases eq_nil_or_concat ed.pending with hnil | ⟨line, x, hx⟩
    · rw [if_neg fun hne => hne (h.e_eq_w.mpr hnil), hnil, dropLast_nil, ← hnil]
      exact h
    · rw [concat_eq_append] at hx
      have hne : cs.e ≠ cs.w := by
        rw [ne_eq, h.e_eq_w, hx]
        exact append_ne_nil_of_right_ne_nil _ (cons_ne_nil _ _)
      rw [if_pos hne, hx, dropLast_concat]
      exact (h.last hx).2
  rw [if_neg hbs, if_neg hbs, if_neg hu]
  by_cases hz : c = 0
  · subst hz
    exact h
  rw [if_neg (not_or.mpr ⟨hp, hz⟩)]
  have hroom : cs.e - cs.r < 128 ↔ ed.size < INPUT_BUF_SIZE := by
    rw [h.e, counter_sub, lt_iff_toNat_lt, toNat_ofNat_of_lt' hsize]
    rfl
  have hle := h.size
  by_cases hlt : ed.size < INPUT_BUF_SIZE
  · rw [if_pos ⟨hz, hroom.mpr hlt⟩, if_neg (Nat.ne_of_lt hlt)]
    have happ := h.append hlt (if c = CR then LF else c)
    simp only [apply_ite Prod.fst]
    exact happ
  · rw [if_neg fun hc => hlt (hroom.mp hc.2), if_pos (Nat.le_antisymm hle (Nat.le_of_not_lt hlt))]
    exact h

/-! ## Readers -/

variable {q : List UInt8}

theorem Represents.first (h : Represents cs ⟨c :: q, line⟩) :
    cs.buf (cs.r.toNat % INPUT_BUF_SIZE) = c ∧ Represents { cs with r := cs.r + 1 } ⟨q, line⟩ := by
  have hsize : Editor.size ⟨c :: q, line⟩ = Editor.size ⟨q, line⟩ + 1 := by
    change (c :: q).length + line.length = q.length + line.length + 1
    rw [length_cons, Nat.add_right_comm]
  have hnext : ∀ k, cs.r + ofNat (k + 1) = cs.r + 1 + ofNat k := by
    intro k
    rw [← counter_succ, UInt32.add_assoc, UInt32.add_comm (ofNat k), UInt32.add_assoc]
  have hbytes := h.bytes
  rw [hsize, window_cons, cons_append] at hbytes
  obtain ⟨hc, hwin⟩ := List.cons.inj hbytes
  have hle := h.size
  refine ⟨hc, ⟨?_, ?_, ?_, ?_, h.pending, fun hfull => ?_⟩⟩
  · omega
  · rw [← hnext]
    exact h.w
  · rw [← hnext, ← hsize]
    exact h.e
  · rw [← hwin]
    exact window_congr (toNat_add_mod (by decide) cs.r 1)
  · rw [hsize, hfull] at hle
    omega

variable {killed : Bool}

theorem Editor.read_cons (out : List UInt8) (hd : c ≠ ctrlD) (hlf : c ≠ LF) :
    Editor.read killed (n + 1) ⟨c :: q, line⟩ out =
      Editor.read killed n ⟨q, line⟩ (out ++ [c]) := by
  have hline : Console.line (c :: q) = c :: Console.line q := by
    rw [Console.line, if_neg hd, if_neg hlf]
  have hlast : ∀ l : List UInt8, (c :: l).getLast? = some LF ↔ l.getLast? = some LF := by
    intro l
    cases l with
    | nil => simp [hlf]
    | cons d l => rw [getLast?_cons_cons]
  simp only [Editor.read, hline, take_succ_cons, length_cons, drop_succ_cons,
    Nat.add_right_cancel_iff, Nat.add_sub_add_right, hlast, append_assoc,
    singleton_append]

theorem Represents.read {mapped : ℕ → Bool} {target : ℕ} {out : List UInt8} (h : Represents cs ed)
    (hmapped : ∀ i, mapped i = true) (hn : out.length + n = target) :
    Represents (readLoop killed mapped target n cs out).1 (ed.read killed n out).1 ∧
      (readLoop killed mapped target n cs out).2 = (ed.read killed n out).2 ∧
      ∀ m, (ed.read killed n out).2.2 = .sleep m → (ed.read killed n out).2.1.length + m = target := by
  induction n generalizing cs ed out with
  | zero =>
    have hread : ed.read killed 0 out = (ed, out, .done 0) := by
      simp [Editor.read]
    rw [hread]
    refine ⟨h, rfl, fun m hm => ?_⟩
    cases hm
  | succ n ih =>
    obtain ⟨committed, line⟩ := ed
    cases committed with
    | nil =>
      have hread : Editor.read killed (n + 1) ⟨[], line⟩ out =
          (⟨[], line⟩, out, if killed then .killed else .sleep (n + 1)) := by
        simp [Editor.read, Console.line]
      rw [hread, readLoop, if_pos (h.r_eq_w.mpr rfl)]
      refine ⟨h, rfl, fun m hm => ?_⟩
      cases killed with
      | true => cases hm
      | false =>
        obtain rfl := Status.sleep.inj hm
        exact hn
    | cons c q =>
      obtain ⟨hc, hrest⟩ := h.first
      have hne : ¬ cs.r = cs.w := fun heq => cons_ne_nil c q (h.r_eq_w.mp heq)
      rw [readLoop, if_neg hne]
      simp only [hc, hmapped, Bool.true_eq_false, if_false]
      by_cases hd : c = ctrlD
      · -- an end of file is put back if something was delivered before it
        subst hd
        have hread : Editor.read killed (n + 1) ⟨ctrlD :: q, line⟩ out =
            (⟨if out = [] then q else ctrlD :: q, line⟩, out, .done (n + 1)) := by
          simp [Editor.read, Console.line]
        rw [hread, if_pos rfl]
        refine ⟨?_, rfl, fun m hm => ?_⟩
        · by_cases hout : out = []
          · rw [if_pos hout, if_neg]
            · exact hrest
            · rw [hout, length_nil] at hn
              omega
          · rw [if_neg hout, if_pos]
            · rw [UInt32.add_sub_cancel]
              exact h
            · have hpos := length_pos_iff.mpr hout
              omega
        · cases hm
      rw [if_neg hd]
      by_cases hlf : c = 10
      · subst hlf
        have hline : Console.line (LF :: q) = [LF] := by
          rw [Console.line, if_neg hd, if_pos rfl]
        have hread : Editor.read killed (n + 1) ⟨LF :: q, line⟩ out =
            (⟨q, line⟩, out ++ [LF], .done n) := by
          simp [Editor.read, hline]
        rw [hread, if_pos rfl]
        refine ⟨hrest, rfl, fun m hm => ?_⟩
        cases hm
      · rw [if_neg hlf, Editor.read_cons out hd hlf]
        refine ih hrest ?_
        rw [length_append, length_singleton]
        omega

end

/-! ## Every run -/

/-- The buffers of all reads are mapped. -/
def Act.Mapped {P : Type} : Act P → Prop
  | .read _ _ mapped => ∀ i, mapped i = true
  | _ => True

section

variable {P : Type} [DecidableEq P] {s : State Cons P} {t : State Editor P}

/-- The console and the editor with the same readers. -/
structure Simulates (s : State Cons P) (t : State Editor P) : Prop where
  input : Represents s.input t.input
  killed : s.killed = t.killed
  reader : s.reader = t.reader
  returned : s.returned = t.returned
  waiting : ∀ p x, t.reader p = some x → (∀ i, x.mapped i = true) ∧ x.out.length + x.n = x.target

theorem Simulates.readOn (h : Simulates s t) (p : P) {x : Reader} (hmapped : ∀ i, x.mapped i = true)
    (hn : x.out.length + x.n = x.target) : Simulates (s.readOn ring p x) (t.readOn lineEditor p x) := by
  have key : Represents (ring.read (s.killed p) x.mapped x.target x.n s.input x.out).1
        (lineEditor.read (t.killed p) x.mapped x.target x.n t.input x.out).1 ∧
      (ring.read (s.killed p) x.mapped x.target x.n s.input x.out).2 =
        (lineEditor.read (t.killed p) x.mapped x.target x.n t.input x.out).2 ∧
      ∀ m, (lineEditor.read (t.killed p) x.mapped x.target x.n t.input x.out).2.2 = .sleep m →
        (lineEditor.read (t.killed p) x.mapped x.target x.n t.input x.out).2.1.length + m =
          x.target := by
    rw [h.killed]
    exact h.input.read hmapped hn
  unfold State.readOn
  rcases hs : ring.read (s.killed p) x.mapped x.target x.n s.input x.out with ⟨b, out, status⟩
  rcases ht : lineEditor.read (t.killed p) x.mapped x.target x.n t.input x.out with ⟨b', out', status'⟩
  rw [hs, ht] at key
  obtain ⟨hrep, heq, hsleep⟩ := key
  obtain ⟨rfl, rfl⟩ := Prod.mk.inj heq
  -- a reader that is done, or killed, waits no longer
  have hnone : ∀ q y, assign t.reader p none q = some y →
      (∀ i, y.mapped i = true) ∧ y.out.length + y.n = y.target := by
    intro q y hy
    rw [assign] at hy
    split at hy
    · cases hy
    · exact h.waiting q y hy
  cases status with
  | sleep m =>
    refine ⟨hrep, h.killed, ?_, h.returned, fun q y hy => ?_⟩
    · dsimp only
      rw [h.reader]
    · dsimp only at hy
      rw [assign] at hy
      split at hy
      · cases hy
        exact ⟨hmapped, hsleep m rfl⟩
      · exact h.waiting q y hy
  | done m | killed =>
    refine ⟨hrep, h.killed, ?_, ?_, hnone⟩
    · dsimp only
      rw [h.reader]
    · dsimp only
      rw [h.returned]

theorem Simulates.step (h : Simulates s t) {a : Act P} {s' : State Cons P} (hmapped : a.Mapped)
    (hstep : step ring s a = some s') : ∃ t', Console.step lineEditor t a = some t' ∧ Simulates s' t' := by
  cases a with
  | intr c =>
    cases hstep
    exact ⟨_, rfl, h.input.key c, h.killed, h.reader, h.returned, h.waiting⟩
  | read p n mapped =>
    simp only [Console.step, h.reader] at hstep ⊢
    cases hp : t.reader p with
    | some x =>
      rw [hp] at hstep
      cases hstep
    | none =>
      rw [hp] at hstep
      cases hstep
      exact ⟨_, rfl, h.readOn p hmapped (Nat.zero_add _)⟩
  | wake p =>
    simp only [Console.step, h.reader] at hstep ⊢
    obtain ⟨x, hx, rfl⟩ := Option.map_eq_some_iff.mp hstep
    obtain ⟨hmap, hn⟩ := h.waiting p x hx
    exact ⟨_, by rw [hx]; rfl, h.readOn p hmap hn⟩
  | kill p =>
    cases hstep
    refine ⟨_, rfl, h.input, ?_, h.reader, h.returned, h.waiting⟩
    dsimp only
    rw [h.killed]

theorem Simulates.init (h : (console P).init s) :
    Simulates s ⟨⟨[], []⟩, fun _ => false, fun _ => none, []⟩ := by
  obtain ⟨⟨hr, hw⟩, hkilled, hreader, hreturned⟩ := h
  have hzero : s.input.r + ofNat 0 = s.input.r := UInt32.add_zero _
  refine ⟨⟨Nat.zero_le _, ?_, ?_, rfl, ⟨not_mem_nil, not_mem_nil⟩, fun _ => rfl⟩,
    funext hkilled, funext hreader, hreturned, fun p x hx => ?_⟩
  · rw [← hr]
    exact hzero.symm
  · rw [← hw, ← hr]
    exact hzero.symm
  · cases hx

/-- **Console input refines a line editor.** In every run of input characters and readers, from any value
of the three counters, the ring represents an editor that the same run leads to, with the same readers
waiting and the same calls returned. -/
theorem console_refines_editor {as : List (Act P)} {s₀ s : State Cons P} (hinit : (console P).init s₀)
    (hmapped : ∀ a ∈ as, a.Mapped) (hrun : (console P).run s₀ as = some s) :
    ∃ t₀ t, (editor P).init t₀ ∧ (editor P).run t₀ as = some t ∧ Represents s.input t.input ∧
      s.reader = t.reader ∧ s.returned = t.returned := by
  have hstep : ∀ s t a s', Simulates s t → Act.Mapped a → (console P).step s a = some s' →
      ∃ t', (editor P).step t a = some t' ∧ Simulates s' t' :=
    fun _ _ _ _ h hm hs => h.step hm hs
  obtain ⟨t, ht, hsim⟩ := Machine.run_simulation hstep (Simulates.init hinit) hmapped hrun
  exact ⟨_, t, ⟨⟨rfl, rfl⟩, fun _ => rfl, fun _ => rfl, rfl⟩, ht, hsim.input, hsim.reader,
    hsim.returned⟩

end

/-- A console just before its counters wrap around. -/
def wrapping : State Cons Unit where
  input := ⟨none, fun _ => 0, 2 ^ 32 - 1, 2 ^ 32 - 1, 2 ^ 32 - 1⟩
  killed _ := false
  reader _ := none
  returned := []

/-- A reader waits for a line that is typed with a mistake. -/
def typedLine : List (Act Unit) :=
  [.read () 5 fun _ => true, .intr 104, .intr 104, .intr 8, .intr 105, .intr 13, .wake ()]

theorem console_refines_editor_typedLine : ∃ s t₀ t, (console Unit).run wrapping typedLine = some s ∧
    (editor Unit).init t₀ ∧ (editor Unit).run t₀ typedLine = some t ∧ Represents s.input t.input ∧
    s.reader = t.reader ∧ s.returned = t.returned := by
  have hsome : ((console Unit).run wrapping typedLine).isSome = true := rfl
  obtain ⟨s, hs⟩ := Option.isSome_iff_exists.mp hsome
  have hmapped : ∀ a ∈ typedLine, a.Mapped := by
    simp [typedLine, Act.Mapped]
  obtain ⟨t₀, t, h⟩ := console_refines_editor
    ⟨⟨rfl, rfl⟩, fun _ => rfl, fun _ => rfl, rfl⟩ hmapped hs
  exact ⟨s, t₀, t, hs, h⟩

end Xv6.Console
