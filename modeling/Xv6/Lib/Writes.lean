import Mathlib.Tactic.Ring
import Mathlib.Logic.Function.Basic

/-!
# Sequences of atomic writes and their crash points

A store maps keys to values; a program is observed through the list of writes it issues, oldest
first. `applyWrites` replays such a list, and the store left by a crash after `k` writes is the
replay of its first `k` elements. `applyWrites_take_invariant` is the rule for a property that every
single write keeps, hence that no crash point can break.
-/

namespace Xv6.Lib

variable {ι β : Type*} [DecidableEq ι]

/-- One write, as a program executes it: `Function.update` without its cast, so that long chains of
writes evaluate. -/
def assign (d : ι → β) (i : ι) (x : β) : ι → β := fun j => if j = i then x else d j

@[simp] theorem assign_eq_update (d : ι → β) (i : ι) (x : β) : assign d i x = Function.update d i x := by
  funext j
  rw [assign, Function.update_apply]

variable {d : ι → β} {i j : ι} {x : β}

/-- What is said of an index after a write at `i`. -/
theorem assign_cases {φ : β → Prop} (h : φ (assign d i x j)) : (j = i ∧ φ x) ∨ (j ≠ i ∧ φ (d j)) := by
  rw [assign] at h
  split at h
  · next hj => exact .inl ⟨hj, h⟩
  · next hj => exact .inr ⟨hj, h⟩

/-- What holds of every index after a write at `i`. -/
theorem assign_forall {φ : ι → β → Prop} (hx : φ i x) (hd : ∀ j ≠ i, φ j (d j)) (j : ι) :
    φ j (assign d i x j) := by
  rw [assign]
  split
  · next hj =>
    rw [hj]
    exact hx
  · next hj => exact hd j hj

variable {y : β}

/-- A write is undone. -/
theorem assign_back (h : d i = y) : assign (assign d i x) i y = d := by
  funext j
  simp only [assign]
  by_cases hj : j = i
  · rw [if_pos hj, hj, h]
  · rw [if_neg hj, if_neg hj]

theorem assign_comm (h : i ≠ j) : assign (assign d i x) j y = assign (assign d j y) i x := by
  funext k
  simp only [assign]
  by_cases hi : k = i
  · rw [if_pos hi, if_pos hi, if_neg (hi ▸ h)]
  · rw [if_neg hi, if_neg hi]

/-- Replay a list of writes, oldest first. -/
def applyWrites (ws : List (ι × β)) (d : ι → β) : ι → β :=
  ws.foldl (fun d w => Function.update d w.1 w.2) d

@[simp] theorem applyWrites_nil (d : ι → β) : applyWrites [] d = d := rfl

@[simp] theorem applyWrites_cons (w : ι × β) (ws : List (ι × β)) (d : ι → β) :
    applyWrites (w :: ws) d = applyWrites ws (Function.update d w.1 w.2) := rfl

theorem applyWrites_append (ws vs : List (ι × β)) (d : ι → β) :
    applyWrites (ws ++ vs) d = applyWrites vs (applyWrites ws d) :=
  List.foldl_append

variable {ws : List (ι × β)}

/-- A key that no write names keeps its value. -/
theorem applyWrites_of_notMem (h : i ∉ ws.map Prod.fst) : applyWrites ws d i = d i := by
  induction ws generalizing d with
  | nil => rfl
  | cons w ws ih =>
    rw [List.map_cons, List.mem_cons, not_or] at h
    rw [applyWrites_cons, ih h.2, Function.update_of_ne h.1]

/-- Writing the values of one function `v` at a list of keys makes the store agree with `v` there
and leaves it alone elsewhere, whatever the order and the repetitions. -/
theorem applyWrites_map_graph (v : ι → β) (is : List ι) (d : ι → β) (i : ι) :
    applyWrites (is.map fun j => (j, v j)) d i = if i ∈ is then v i else d i := by
  induction is generalizing d with
  | nil => simp
  | cons j is ih =>
    rw [List.map_cons, applyWrites_cons, ih]
    by_cases hij : i = j
    · subst hij
      simp
    · simp [hij]

/-- **Crash rule.** A property kept by every write of a list holds after any number of its
writes. -/
theorem applyWrites_take_invariant {Inv : (ι → β) → Prop} (hd : Inv d)
    (hw : ∀ w ∈ ws, ∀ x, Inv x → Inv (Function.update x w.1 w.2)) (k : ℕ) :
    Inv (applyWrites (ws.take k) d) := by
  induction ws generalizing d k with
  | nil => simpa using hd
  | cons w ws ih =>
    cases k with
    | zero => exact hd
    | succ k =>
      rw [List.take_succ_cons, applyWrites_cons]
      exact ih (hw w (by simp) d hd) (fun w' hw' => hw w' (by simp [hw'])) k

/-- A crash inside `ws ++ vs` is a crash inside `ws`, or one inside `vs` after all of `ws`. -/
theorem applyWrites_take_append (ws vs : List (ι × β)) (d : ι → β) (k : ℕ) :
    applyWrites ((ws ++ vs).take k) d =
      if k ≤ ws.length then applyWrites (ws.take k) d
      else applyWrites (vs.take (k - ws.length)) (applyWrites ws d) := by
  by_cases hk : k ≤ ws.length
  · rw [if_pos hk, List.take_append_of_le_length hk]
  · rw [if_neg hk, List.take_append, List.take_of_length_le (by omega), applyWrites_append]

end Xv6.Lib
