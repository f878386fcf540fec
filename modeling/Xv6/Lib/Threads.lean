import Xv6.Lib.Transition
import Xv6.Lib.Writes

/-!
# Interleaved programs and what their threads own

A `Prog` is a program as the tree of its atomic operations. `Threads.machine` interleaves the programs
of any number of threads on a shared state, one operation at a time: between any two operations of a
thread the others may do anything.

The proof rule is that of separate ownership. A ghost value `γ p` says what thread `p` owns, `Rules` says
for each operation what its thread must own to run it and owns afterwards, and `Prog.wp` extends that to
programs. If a global invariant ties the shared state to what the threads own, and each operation keeps
it while it changes what its own thread owns (`Sound`), then in every reachable state the invariant
holds, every idle thread owns what an idle thread should, and no operation fails
(`Threads.reachable_owned`).
-/

namespace Xv6.Lib

variable {Op : Type} {Res : Op → Type} {α β P S G Call Choice ε : Type}

/-- Programs over the atomic operations `Op`, where `o` returns a value of type `Res o`. -/
inductive Prog {Op : Type} (Res : Op → Type) (α : Type) where
  | ret (a : α)
  | op (o : Op) (k : Res o → Prog Res α)

namespace Prog

/-- One program after the other. -/
def bind : Prog Res α → (α → Prog Res β) → Prog Res β
  | ret a, f => f a
  | op o k, f => op o fun r => (k r).bind f

instance : Monad (Prog Res) where
  pure := ret
  bind := bind

/-- A single operation. -/
def perform (o : Op) : Prog Res (Res o) := op o ret

/-- What is left to run: nothing once the program has returned. -/
def rest : Prog Res Unit → Option (Prog Res Unit)
  | ret _ => none
  | op o k => some (op o k)

end Prog

/-- For each operation the condition, on what the thread owns, under which it may be run if what follows
needs `R`. -/
structure Rules {Op : Type} (Res : Op → Type) (G : Type) where
  op : (o : Op) → (Res o → G → Prop) → G → Prop
  mono : ∀ {o R R' g}, (∀ r g', R r g' → R' r g') → op o R g → op o R' g

namespace Prog

variable {rules : Rules Res G}

/-- The program may be run by a thread that owns `g`, and ends in `Q`. -/
def wp (rules : Rules Res G) : Prog Res α → (α → G → Prop) → G → Prop
  | ret a, Q, g => Q a g
  | op o k, Q, g => rules.op o (fun r => (k r).wp rules Q) g

variable {t : Prog Res α} {Q : α → G → Prop} {g : G}

@[simp] theorem wp_bind (t : Prog Res α) (f : α → Prog Res β) {Q : β → G → Prop} :
    (t >>= f).wp rules Q g ↔ t.wp rules (fun a g' => (f a).wp rules Q g') g := by
  change (t.bind f).wp rules Q g ↔ _
  induction t generalizing g with
  | ret a => exact Iff.rfl
  | op o k ih =>
    exact ⟨rules.mono fun r g' hr => (ih r).mp hr, rules.mono fun r g' hr => (ih r).mpr hr⟩

theorem wp_ite {c : Prop} [Decidable c] {u : Prog Res α} (ht : c → t.wp rules Q g)
    (hu : ¬ c → u.wp rules Q g) : (if c then t else u).wp rules Q g := by
  by_cases hc : c
  · rw [if_pos hc]
    exact ht hc
  · rw [if_neg hc]
    exact hu hc

end Prog

/-! ## The machine -/

/-- The programs of the threads and what their operations do. An operation whose outcome is not
determined by the state takes it from a choice; it returns nothing while it has to wait. -/
structure Threads {Op : Type} (Res : Op → Type) (P S Call Choice ε : Type) where
  init : S → Prop
  /-- the program of a call, if the thread can make one -/
  entry : S → P → Call → Option (Prog Res Unit)
  exec : P → (o : Op) → Choice → S → Option (Except ε (Res o × S))

namespace Threads

/-- The shared state and the programs that are running. -/
structure State {Op : Type} (Res : Op → Type) (P S : Type) where
  shared : S
  prog : P → Option (Prog Res Unit)

/-- A thread makes a call, or runs its next operation. -/
inductive Act (P Call Choice : Type) where
  | call (p : P) (c : Call)
  | go (p : P) (x : Choice)

variable [DecidableEq P] (T : Threads Res P S Call Choice ε)

/-- The next operation of thread `p`: its error, or the new state. -/
def next (s : State Res P S) (p : P) (x : Choice) : Option (Except ε (State Res P S)) :=
  match s.prog p with
  | some (.op o k) =>
    (T.exec p o x s.shared).map fun r =>
      r.map fun (r, shared) => { shared := shared, prog := assign s.prog p (k r).rest }
  | _ => none

/-- One action. An error ends the run. -/
def step (s : State Res P S) : Act P Call Choice → Option (State Res P S)
  | .call p c =>
    match s.prog p with
    | some _ => none
    | none => (T.entry s.shared p c).map fun t => { s with prog := assign s.prog p t.rest }
  | .go p x =>
    match T.next s p x with
    | some (.ok s') => some s'
    | _ => none

/-- The interleavings of the calls of all threads; in the beginning none is running. -/
def machine : Machine (State Res P S) (Act P Call Choice) where
  init s := T.init s.shared ∧ ∀ p, s.prog p = none
  step := T.step

/-! ## Ownership -/

/-- What a proof has to provide: the threads' initial ownership, and one case per call and operation. -/
structure Sound (rules : P → Rules Res G) (Inv : (P → G) → S → Prop) (Idle Runs : G → Prop)
    (Bad : ε → Prop) : Prop where
  init : ∀ s, T.init s → ∃ γ, Inv γ s ∧ ∀ p, Idle (γ p)
  /-- a call starts from what an idle thread owns and ends there -/
  entry : ∀ γ s p c t, Inv γ s → Idle (γ p) → T.entry s p c = some t →
    t.wp (rules p) (fun _ => Idle) (γ p)
  /-- only a thread that runs has rules for its operations -/
  runs : ∀ p o R g, (rules p).op o R g → Runs g
  /-- an operation does not fail, and changes what its thread owns, and what idle threads own that
  cannot run -/
  exec : ∀ γ s p o x R, Inv γ s → (rules p).op o R (γ p) →
    (∀ e, T.exec p o x s = some (.error e) → ¬ Bad e) ∧
    ∀ r s', T.exec p o x s = some (.ok (r, s')) →
      ∃ γ', Inv γ' s' ∧ R r (γ' p) ∧ ∀ q, q ≠ p → γ' q = γ q ∨ ¬ Runs (γ q) ∧ Idle (γ' q)

/-- What thread `p`, which owns `g`, may still run. -/
def Owned (rules : P → Rules Res G) (Idle : G → Prop) (p : P) (t : Option (Prog Res Unit)) (g : G) :
    Prop :=
  match t with
  | none => Idle g
  | some (.ret _) => False
  | some (.op o k) => (Prog.op o k).wp (rules p) (fun _ => Idle) g

variable {T} {rules : P → Rules Res G} {Inv : (P → G) → S → Prop} {Idle Runs : G → Prop}
  {Bad : ε → Prop}

variable {p : P}

omit [DecidableEq P] in
/-- A program that may be run is what its thread may still run. -/
theorem owned_rest {t : Prog Res Unit} {g : G} (h : t.wp (rules p) (fun _ => Idle) g) :
    Owned rules Idle p t.rest g := by
  cases t with
  | ret a => exact h
  | op o k => exact h

omit [DecidableEq P] in
/-- The operation a thread has next is one of its rules. -/
theorem Owned.op {o : Op} {k : Res o → Prog Res Unit} {g : G}
    (h : Owned rules Idle p (some (.op o k)) g) :
    (rules p).op o (fun r => (k r).wp (rules p) fun _ => Idle) g := h

omit [DecidableEq P] in
/-- A change to what a thread owns that does not run. -/
theorem Owned.change (hT : T.Sound rules Inv Idle Runs Bad) {t : Option (Prog Res Unit)} {g g' : G}
    (h : Owned rules Idle p t g) (hruns : ¬ Runs g) (hidle : Idle g') :
    Owned rules Idle p t g' := by
  cases t with
  | none => exact hidle
  | some t =>
    cases t with
    | ret a => exact h
    | op o k => exact absurd (hT.runs p o _ g h.op) hruns

/-- One thread's program moves on. -/
theorem owned_assign {prog : P → Option (Prog Res Unit)} {t : Prog Res Unit} {γ : P → G}
    (ht : t.wp (rules p) (fun _ => Idle) (γ p))
    (hother : ∀ q, q ≠ p → Owned rules Idle q (prog q) (γ q)) (q : P) :
    Owned rules Idle q (assign prog p t.rest q) (γ q) := by
  by_cases hq : q = p
  · subst hq
    rw [assign, if_pos rfl]
    exact owned_rest ht
  · rw [assign, if_neg hq]
    exact hother q hq

variable {s : State Res P S} {x : Choice}

/-- What the next operation of a thread is, and does. -/
theorem next_eq_some {r : Except ε (State Res P S)} (h : T.next s p x = some r) :
    ∃ o k, s.prog p = some (.op o k) ∧
      ((∃ e, T.exec p o x s.shared = some (.error e) ∧ r = .error e) ∨
        ∃ a shared, T.exec p o x s.shared = some (.ok (a, shared)) ∧
          r = .ok { shared := shared, prog := assign s.prog p (k a).rest }) := by
  unfold next at h
  split at h
  next o k hp =>
    refine ⟨o, k, hp, ?_⟩
    obtain ⟨y, hy, rfl⟩ := Option.map_eq_some_iff.mp h
    cases y with
    | error e => exact .inl ⟨e, hy, rfl⟩
    | ok y => exact .inr ⟨y.1, y.2, hy, rfl⟩
  · cases h

/-- The invariant of the machine. -/
def Held (rules : P → Rules Res G) (Inv : (P → G) → S → Prop) (Idle : G → Prop)
    (s : State Res P S) : Prop :=
  ∃ γ, Inv γ s.shared ∧ ∀ p, Owned rules Idle p (s.prog p) (γ p)

variable {s' : State Res P S}

section

variable (hT : T.Sound rules Inv Idle Runs Bad)

include hT

theorem Held.call {c : Call} (h : Held rules Inv Idle s) (hstep : T.step s (.call p c) = some s') :
    Held rules Inv Idle s' := by
  obtain ⟨γ, hinv, howned⟩ := h
  unfold step at hstep
  dsimp only at hstep
  split at hstep
  · cases hstep
  next hp =>
    obtain ⟨t, ht, rfl⟩ := Option.map_eq_some_iff.mp hstep
    have hidle := howned p
    rw [hp] at hidle
    exact ⟨γ, hinv, owned_assign (hT.entry γ _ p c t hinv hidle ht) fun q _ => howned q⟩

theorem Held.go (h : Held rules Inv Idle s)
    (hnext : T.next s p x = some (.ok s')) : Held rules Inv Idle s' := by
  obtain ⟨γ, hinv, howned⟩ := h
  obtain ⟨o, k, hp, hr⟩ := next_eq_some hnext
  have hop := howned p
  rw [hp] at hop
  rcases hr with ⟨e, _, he⟩ | ⟨a, shared, hexec, heq⟩
  · cases he
  · obtain rfl := Except.ok.inj heq
    obtain ⟨γ', hinv', hR, hother⟩ := (hT.exec γ _ p o x _ hinv hop.op).2 a shared hexec
    refine ⟨γ', hinv', owned_assign hR fun q hq => ?_⟩
    rcases hother q hq with heq | ⟨hruns, hidle⟩
    · rw [heq]
      exact howned q
    · exact (howned q).change hT hruns hidle

/-- **Ownership in every interleaving.** -/
theorem reachable_owned (hs : T.machine.Reachable s) : Held rules Inv Idle s := by
  refine hs.invariant (Held rules Inv Idle) ?_ ?_
  · rintro s ⟨hinit, hprog⟩
    obtain ⟨γ, hinv, hidle⟩ := hT.init _ hinit
    refine ⟨γ, hinv, fun p => ?_⟩
    rw [hprog p]
    exact hidle p
  · intro s a s' h hstep
    cases a with
    | call p c => exact h.call hT hstep
    | go p x =>
      change T.step s (.go p x) = some s' at hstep
      unfold step at hstep
      dsimp only at hstep
      split at hstep
      next s'' hnext =>
        cases hstep
        exact h.go hT hnext
      · cases hstep

/-- No thread fails in a way that the rules exclude. -/
theorem next_not_bad (hs : T.machine.Reachable s) {e : ε}
    (hnext : T.next s p x = some (.error e)) : ¬ Bad e := by
  obtain ⟨γ, hinv, howned⟩ := reachable_owned hT hs
  obtain ⟨o, k, hp, hr⟩ := next_eq_some hnext
  have hop := howned p
  rw [hp] at hop
  rcases hr with ⟨e', hexec, he⟩ | ⟨a, shared, _, heq⟩
  · obtain rfl := Except.error.inj he
    exact (hT.exec γ _ p o x _ hinv hop.op).1 e hexec
  · cases heq

end

end Threads

end Xv6.Lib
