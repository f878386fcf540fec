import Mathlib.Data.List.Basic
import Mathlib.Data.List.TakeWhile

/-!
# C strings

The string functions of `kernel/string.c` and `user/ulib.c` that the process queries use. An object
in memory is the list of its bytes; a function that would read past the end of its object returns
`none`.
-/

namespace Xv6

/-- The bytes of a string literal, with its NUL. -/
def literal (s : String) : List UInt8 := s.toList.map (fun c => UInt8.ofNat c.toNat) ++ [0]

/-- `strlen`: the number of bytes before the first NUL. -/
def strlen : List UInt8 → Option ℕ
  | [] => none
  | c :: s => if c = 0 then some 0 else (strlen s).map (· + 1)

/-- The text of a string: its bytes before the first NUL. -/
def text (s : List UInt8) : List UInt8 := s.takeWhile (· ≠ 0)

variable {s : List UInt8}

theorem strlen_eq_of_mem (h : 0 ∈ s) : strlen s = some (text s).length := by
  induction s with
  | nil => cases h
  | cons c s ih =>
    by_cases hc : c = 0
    · simp [strlen, text, hc]
    · have hs : 0 ∈ s := by simpa [Ne.symm hc] using h
      simp [strlen, text, hc, ih hs]

theorem take_strlen (h : 0 ∈ s) : s.take ((text s).length + 1) = text s ++ [0] := by
  induction s with
  | nil => cases h
  | cons c s ih =>
    by_cases hc : c = 0
    · simp [text, hc]
    · have hs : 0 ∈ s := by simpa [Ne.symm hc] using h
      simpa [text, hc] using ih hs

theorem zero_notMem_text (s : List UInt8) : 0 ∉ text s := by
  intro h
  simpa using List.mem_takeWhile_imp h

theorem text_append_zero {t : List UInt8} (h : 0 ∉ t) (s : List UInt8) : text (t ++ 0 :: s) = t := by
  induction t with
  | nil => simp [text]
  | cons c t ih =>
    obtain ⟨hc, ht⟩ : 0 ≠ c ∧ 0 ∉ t := by simpa using h
    simpa [text, Ne.symm hc] using ih ht

theorem length_text_lt (h : 0 ∈ s) : (text s).length < s.length := by
  have := congrArg List.length (take_strlen h)
  simp only [List.length_take, List.length_append, List.length_singleton] at this
  omega

/-! ## `safestrcpy` -/

/-- `*s = 0`. -/
def terminate : List UInt8 → List UInt8
  | [] => []
  | _ :: s => 0 :: s

/-- The loop of `safestrcpy`, with `n - 1` left of the size, and the final `*s = 0`. The pointer `s`
has passed the NUL when the loop ends on it. Callers pass a terminated `t` and `n` bytes at `s`. -/
def safestrcpyLoop : ℕ → List UInt8 → List UInt8 → List UInt8
  | n + 1, _ :: s, c :: t => c :: if c = 0 then terminate s else safestrcpyLoop n s t
  | _, s, _ => terminate s

/-- `safestrcpy(s, t, n)`: the object at `s` after the call. -/
def safestrcpy (s t : List UInt8) (n : ℕ) : List UInt8 :=
  if n = 0 then s else safestrcpyLoop (n - 1) s t

theorem length_terminate (s : List UInt8) : (terminate s).length = s.length := by
  cases s <;> rfl

theorem length_safestrcpyLoop (n : ℕ) (s t : List UInt8) :
    (safestrcpyLoop n s t).length = s.length := by
  induction n generalizing s t with
  | zero => simp [safestrcpyLoop, length_terminate]
  | succ n ih =>
    cases s with
    | nil => simp [safestrcpyLoop, terminate]
    | cons _ s =>
      cases t with
      | nil => simp [safestrcpyLoop, terminate]
      | cons c t =>
        simp only [safestrcpyLoop, List.length_cons]
        split
        · rw [length_terminate]
        · rw [ih]

theorem length_safestrcpy (s t : List UInt8) (n : ℕ) : (safestrcpy s t n).length = s.length := by
  unfold safestrcpy
  split
  · rfl
  · exact length_safestrcpyLoop _ s t

variable {n : ℕ}

theorem zero_mem_safestrcpyLoop (hs : n < s.length) (t : List UInt8) : 0 ∈ safestrcpyLoop n s t := by
  induction n generalizing s t with
  | zero =>
    cases s with
    | nil => simp at hs
    | cons _ s => simp [safestrcpyLoop, terminate]
  | succ n ih =>
    cases s with
    | nil => simp at hs
    | cons _ s =>
      cases t with
      | nil => simp [safestrcpyLoop, terminate]
      | cons c t =>
        simp only [safestrcpyLoop]
        split
        · next hc => simp [hc]
        · exact List.mem_cons_of_mem _ (ih (by simpa using hs) t)

theorem zero_mem_safestrcpy (hn : 0 < n) (hs : n ≤ s.length)
    (t : List UInt8) : 0 ∈ safestrcpy s t n := by
  unfold safestrcpy
  rw [if_neg (by omega)]
  exact zero_mem_safestrcpyLoop (by omega) t

theorem drop_terminate (n : ℕ) (s : List UInt8) : (terminate s).drop (n + 1) = s.drop (n + 1) := by
  cases s <;> rfl

theorem safestrcpyLoop_eq {s t : List UInt8} (hs : n < s.length) (ht : 0 ∈ t) :
    (∃ rest, safestrcpyLoop n s t = (text t).take n ++ 0 :: rest) ∧
      (safestrcpyLoop n s t).drop (n + 1) = s.drop (n + 1) := by
  induction n generalizing s t with
  | zero =>
    obtain ⟨_, s, rfl⟩ := List.exists_cons_of_length_pos hs
    exact ⟨⟨s, by simp [safestrcpyLoop, terminate]⟩, by simp [safestrcpyLoop, terminate]⟩
  | succ n ih =>
    obtain ⟨_, s, rfl⟩ := List.exists_cons_of_length_pos (Nat.zero_lt_of_lt hs)
    obtain ⟨c, t, rfl⟩ := List.exists_cons_of_ne_nil (List.ne_nil_of_mem ht)
    rw [safestrcpyLoop]
    by_cases hc : c = 0
    · exact ⟨⟨terminate s, by simp [hc, text]⟩, by simp [hc, drop_terminate]⟩
    · obtain ⟨⟨rest, heq⟩, hdrop⟩ := ih (s := s) (t := t) (by simpa using hs) (by simpa [Ne.symm hc] using ht)
      rw [if_neg hc]
      refine ⟨⟨rest, ?_⟩, hdrop⟩
      rw [heq]
      simp [text, hc]

/-! ## `strcmp` -/

/-- `strcmp` of `user/ulib.c`. -/
def strcmp : List UInt8 → List UInt8 → Option ℤ
  | p :: ps, q :: qs =>
    if p ≠ 0 ∧ p = q then strcmp ps qs else some ((p.toNat : ℤ) - (q.toNat : ℤ))
  | _, _ => none

end Xv6
