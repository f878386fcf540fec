import Mathlib.Data.Nat.Notation

/-!
# Weakest preconditions for stateful computations that can fail

`wp x E s Q`: the computation `x`, started in state `s`, ends in a result that satisfies `Q` or in an
error that satisfies `E`. A specification of a function is a `wp` statement about it; `wp.mono` uses it
at a call, and the rules below take a `do` block apart.
-/

namespace Xv6.Lib

variable {σ ε α β : Type}

/-- From `s`, `x` ends with a value and a state in `Q`, or with an error in `E`. -/
def wp (x : StateT σ (Except ε) α) (E : ε → Prop) (s : σ) (Q : α → σ → Prop) : Prop :=
  match x.run s with
  | .ok (a, s') => Q a s'
  | .error e => E e

variable {x : StateT σ (Except ε) α} {E : ε → Prop} {s : σ} {Q : α → σ → Prop}

instance wp.decidable [DecidablePred E] [∀ a s', Decidable (Q a s')] : Decidable (wp x E s Q) :=
  match h : x.run s with
  | .ok (a, s') => decidable_of_iff (Q a s') (by rw [wp, h])
  | .error e => decidable_of_iff (E e) (by rw [wp, h])

/-- A weaker postcondition. -/
theorem wp.mono {Q' : α → σ → Prop} (h : wp x E s Q) (hQ : ∀ a s', Q a s' → Q' a s') : wp x E s Q' := by
  unfold wp at h ⊢
  split at h
  · exact hQ _ _ h
  · exact h

/-- Two postconditions together. -/
theorem wp.and {Q' : α → σ → Prop} (h : wp x E s Q) (h' : wp x E s Q') :
    wp x E s fun a s' => Q a s' ∧ Q' a s' := by
  unfold wp at h h' ⊢
  split at h
  · next hx =>
    rw [hx] at h'
    exact ⟨h, h'⟩
  · exact h

/-- A postcondition that every result satisfies. -/
theorem wp_of_forall (hE : ∀ e, E e) (hQ : ∀ a s', Q a s') : wp x E s Q := by
  unfold wp
  split
  · exact hQ _ _
  · exact hE _

/-- The postcondition may use that the computation has run. -/
theorem wp.with_run (h : wp x E s Q) : wp x E s fun a s' => x.run s = .ok (a, s') ∧ Q a s' := by
  unfold wp at h ⊢
  cases hx : x.run s with
  | error e =>
    rw [hx] at h
    exact h
  | ok r =>
    rw [hx] at h
    exact ⟨rfl, h⟩

/-- What a successful run satisfies. -/
theorem wp.of_run_eq_ok {a : α} {s' : σ} (h : wp x E s Q) (hx : x.run s = .ok (a, s')) : Q a s' := by
  rwa [wp, hx] at h

/-- What an error satisfies. -/
theorem wp.of_run_eq_error {e : ε} (h : wp x E s Q) (hx : x.run s = .error e) : E e := by
  rwa [wp, hx] at h

/-- What the state after a successful run satisfies. -/
theorem wp.of_toOption {P : σ → Prop} {s' : σ} (h : wp x E s fun _ => P)
    (hx : (x.run s).toOption.map Prod.snd = some s') : P s' := by
  unfold wp at h
  split at h
  · next a t hrun =>
    rw [hrun] at hx
    obtain rfl : t = s' := by simpa [Except.toOption] using hx
    exact h
  · next e hrun =>
    rw [hrun] at hx
    cases hx

/-- Without admissible errors the computation succeeds. -/
theorem wp.exists_ok (h : wp x (fun _ => False) s Q) : ∃ a s', x.run s = .ok (a, s') ∧ Q a s' := by
  unfold wp at h
  split at h
  · next a s' hx => exact ⟨a, s', hx, h⟩
  · exact h.elim

@[simp] theorem wp_pure (a : α) : wp (pure a) E s Q ↔ Q a s := Iff.rfl

@[simp] theorem wp_bind (f : α → StateT σ (Except ε) β) {Q : β → σ → Prop} :
    wp (x >>= f) E s Q ↔ wp x E s fun a s' => wp (f a) E s' Q := by
  unfold wp
  rw [StateT.run_bind]
  cases x.run s with
  | error e => exact Iff.rfl
  | ok r => exact Iff.rfl

@[simp] theorem wp_get {Q : σ → σ → Prop} : wp get E s Q ↔ Q s s := Iff.rfl

@[simp] theorem wp_set (s' : σ) {Q : PUnit → σ → Prop} : wp (set s') E s Q ↔ Q ⟨⟩ s' := Iff.rfl

@[simp] theorem wp_modify (f : σ → σ) {Q : PUnit → σ → Prop} : wp (modify f) E s Q ↔ Q ⟨⟩ (f s) := Iff.rfl

@[simp] theorem wp_throw (e : ε) : wp (throw e) E s Q ↔ E e := Iff.rfl

theorem wp_ite {c : Prop} [Decidable c] {y : StateT σ (Except ε) α} :
    wp (if c then x else y) E s Q ↔ (c → wp x E s Q) ∧ (¬ c → wp y E s Q) := by
  by_cases hc : c <;> simp [hc]

/-! ## A part of the state -/

section

variable {τ ε' : Type}

/-- A computation on a part of the state. -/
def onPart (part : σ → τ) (put : σ → τ → σ) (err : ε' → ε) (x : StateT τ (Except ε') α) :
    StateT σ (Except ε) α := fun s =>
  match x.run (part s) with
  | .ok (a, t) => .ok (a, put s t)
  | .error e => .error (err e)

theorem wp_onPart {part : σ → τ} {put : σ → τ → σ} {err : ε' → ε} {x : StateT τ (Except ε') α} :
    wp (onPart part put err x) E s Q ↔
      wp x (fun e => E (err e)) (part s) fun a t => Q a (put s t) := by
  have hrun : (onPart part put err x).run s = match x.run (part s) with
    | .ok (a, t) => .ok (a, put s t)
    | .error e => .error (err e) := rfl
  rw [wp, wp, hrun]
  cases x.run (part s) with
  | error e => exact Iff.rfl
  | ok r => exact Iff.rfl

end

end Xv6.Lib
