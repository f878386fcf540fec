import Mathlib.Data.Nat.Notation

/-!
# Transition systems with an executable step

A `Machine` is a set of initial states and a partial step function on labelled actions; `none` means
that the action is not enabled. `Reachable` is the usual closure, `run` executes a list of actions, and
runs from reachable states end in reachable states (`Reachable.of_run`). Every safety argument over runs
goes through `Reachable.invariant` or `run_invariant`, which package the induction once.
-/

namespace Xv6.Lib

/-- A labelled transition system: initial states and a partial, executable step. -/
structure Machine (σ α : Type*) where
  init : σ → Prop
  step : σ → α → Option σ

namespace Machine

variable {σ α : Type*} (m : Machine σ α)

/-- The states some sequence of enabled actions leads to. -/
inductive Reachable : σ → Prop where
  | init {s : σ} : m.init s → Reachable s
  | step {s s' : σ} {a : α} : Reachable s → m.step s a = some s' → Reachable s'

/-- Execute a list of actions, oldest first. -/
def run : σ → List α → Option σ
  | s, [] => some s
  | s, a :: as => (m.step s a).bind fun s' => run s' as

@[simp] theorem run_nil (s : σ) : m.run s [] = some s := rfl

theorem run_cons (s : σ) (a : α) (as : List α) :
    m.run s (a :: as) = (m.step s a).bind fun s' => m.run s' as := rfl

variable {m}

/-- Runs from reachable states end in reachable states. -/
theorem Reachable.of_run {s s' : σ} (hs : m.Reachable s) (as : List α)
    (h : m.run s as = some s') : m.Reachable s' := by
  induction as generalizing s with
  | nil =>
    obtain rfl : s = s' := by simpa using h
    exact hs
  | cons a as ih =>
    rw [run_cons, Option.bind_eq_some_iff] at h
    obtain ⟨t, ht, h⟩ := h
    exact ih (hs.step ht) h

/-- Every step of the run of `as` from `s` meets the condition `C` on its pre-state and action. -/
def AllSteps (m : Machine σ α) (C : σ → α → Prop) : σ → List α → Prop
  | _, [] => True
  | s, a :: as => C s a ∧ ∀ s' ∈ m.step s a, AllSteps m C s' as

instance AllSteps.decidable {C : σ → α → Prop} [∀ s a, Decidable (C s a)] :
    ∀ (s : σ) (as : List α), Decidable (m.AllSteps C s as)
  | _, [] => inferInstanceAs (Decidable True)
  | s, a :: as =>
    have : ∀ s', Decidable (m.AllSteps C s' as) := fun s' => AllSteps.decidable s' as
    inferInstanceAs (Decidable (C s a ∧ ∀ s' ∈ m.step s a, m.AllSteps C s' as))

/-- **The invariant rule.** A property that holds initially and that every step preserves holds in
every reachable state. -/
theorem Reachable.invariant (Inv : σ → Prop) (h0 : ∀ s, m.init s → Inv s)
    (hstep : ∀ s a s', Inv s → m.step s a = some s' → Inv s') {s : σ} (h : m.Reachable s) : Inv s := by
  induction h with
  | init h => exact h0 _ h
  | step _ hs ih => exact hstep _ _ _ ih hs

/-- The invariant rule for runs whose steps all meet a condition. -/
theorem run_invariant {C : σ → α → Prop} {Inv : σ → Prop}
    (hstep : ∀ s a s', Inv s → C s a → m.step s a = some s' → Inv s') {s s' : σ} {as : List α}
    (hs : Inv s) (hC : m.AllSteps C s as) (hrun : m.run s as = some s') : Inv s' := by
  induction as generalizing s with
  | nil =>
    obtain rfl : s = s' := by simpa using hrun
    exact hs
  | cons a as ih =>
    rw [run_cons, Option.bind_eq_some_iff] at hrun
    obtain ⟨t, ht, hrun⟩ := hrun
    exact ih (hstep s a t hs hC.1 ht) (hC.2 t ht) hrun

/-- **The simulation rule.** If each step of one machine, on an action that meets a condition, is matched
by a step of the other on the same action, so is every run. -/
theorem run_simulation {τ : Type*} {m' : Machine τ α} {R : σ → τ → Prop} {C : α → Prop}
    (hstep : ∀ s t a s', R s t → C a → m.step s a = some s' → ∃ t', m'.step t a = some t' ∧ R s' t')
    {s s' : σ} {t : τ} {as : List α} (hR : R s t) (hC : ∀ a ∈ as, C a)
    (hrun : m.run s as = some s') : ∃ t', m'.run t as = some t' ∧ R s' t' := by
  induction as generalizing s t with
  | nil =>
    obtain rfl : s = s' := by simpa using hrun
    exact ⟨t, rfl, hR⟩
  | cons a as ih =>
    rw [run_cons, Option.bind_eq_some_iff] at hrun
    obtain ⟨u, hu, hrun⟩ := hrun
    obtain ⟨v, hv, hR'⟩ := hstep s t a u hR (hC a (List.mem_cons_self ..)) hu
    obtain ⟨t', ht', h'⟩ := ih hR' (fun b hb => hC b (List.mem_cons_of_mem _ hb)) hrun
    exact ⟨t', by rw [run_cons, hv]; exact ht', h'⟩

end Machine

end Xv6.Lib
