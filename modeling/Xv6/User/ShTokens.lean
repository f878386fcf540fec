import Mathlib.Data.List.GetD
import Mathlib.Data.List.TakeWhile
import Xv6.User.Sh

/-!
# The tokens of a line

The tokens of a line are those that `gettoken` delivers when it is called until the end of the line. Since
it does not depend on who calls it, the parser at offset `i` works on the list `toks s i` of the tokens
from there on: `peek` leaves it as it is and `gettoken` takes its head.
-/

namespace Xv6.Sh

open Lib List

/-- A token: the value of `gettoken` and its ends. -/
structure Tok where
  kind : UInt8
  span : Span
deriving DecidableEq

/-- The tokens from offset `i` on, at most `n`. -/
def tokensFrom (s : List UInt8) : ℕ → ℕ → List Tok
  | 0, _ => []
  | n + 1, i =>
    let j := skip s i
    if (tokenAt s j).1 = 0 then []
    else ⟨(tokenAt s j).1, j, (tokenAt s j).2⟩ :: tokensFrom s n (skip s (tokenAt s j).2)

/-- The tokens from offset `i` on. -/
def toks (s : List UInt8) (i : ℕ) : List Tok := tokensFrom s (s.length + 1 - i) i

/-- The tokens of a line. -/
def tokens (s : List UInt8) : List Tok := toks s 0

/-! ## Tokens -/

section

variable {s : List UInt8} {i j n : ℕ}

theorem le_skip (s : List UInt8) (i : ℕ) : i ≤ skip s i := Nat.le_add_right ..

theorem skip_le (hi : i ≤ s.length) : skip s i ≤ s.length := by
  have h := (takeWhile_sublist (l := s.drop i) fun c => decide (c ∈ whitespace)).length_le
  rw [length_drop] at h
  rw [skip]
  omega

theorem wordEnd_le (hi : i ≤ s.length) : wordEnd s i ≤ s.length := by
  have h := (takeWhile_sublist (l := s.drop i) fun c => decide (c ∉ whitespace ∧ c ∉ symbols)).length_le
  rw [length_drop] at h
  rw [wordEnd]
  omega

variable {c : UInt8} {q : UInt8 → Bool}

theorem getElem?_takeWhile_end (h : s[i + ((s.drop i).takeWhile q).length]? = some c) :
    q c = false := by
  rw [← getElem?_drop] at h
  generalize s.drop i = l at h
  induction l with
  | nil => cases h
  | cons a l ih =>
    by_cases ha : q a = true
    · rw [takeWhile_cons_of_pos ha, length_cons, getElem?_cons_succ] at h
      exact ih h
    · rw [takeWhile_cons_of_neg ha] at h
      obtain rfl : a = c := Option.some.inj h
      exact Bool.eq_false_iff.mpr ha

theorem getElem?_takeWhile (hi : i ≤ j) (hj : j < i + ((s.drop i).takeWhile q).length)
    (h : s[j]? = some c) : q c = true := by
  obtain ⟨k, rfl⟩ := Nat.exists_eq_add_of_le hi
  rw [← getElem?_drop] at h
  have hk : k < ((s.drop i).takeWhile q).length := by omega
  have hget : ((s.drop i).takeWhile q)[k]? = some c := by
    rw [getElem?_eq_getElem hk, ( takeWhile_prefix q).getElem hk, ← getElem?_eq_getElem]
    exact h
  exact mem_takeWhile_imp (mem_of_getElem? hget)

theorem not_whitespace_skip (h : s[skip s i]? = some c) : c ∉ whitespace := by
  simpa using getElem?_takeWhile_end h

theorem skip_skip (s : List UInt8) (i : ℕ) : skip s (skip s i) = skip s i := by
  have hnil : (s.drop (skip s i)).takeWhile (fun c => decide (c ∈ whitespace)) = [] := by
    cases hd : s.drop (skip s i) with
    | nil => rfl
    | cons c l =>
      have hc : s[skip s i]? = some c := by
        rw [← Nat.add_zero (skip s i), ← getElem?_drop, hd]
        rfl
      exact takeWhile_cons_of_neg (by simpa using not_whitespace_skip hc)
  rw [skip, hnil, length_nil, Nat.add_zero]

/-- The value of a token as its first byte. -/
def first (kind : UInt8) : UInt8 := if kind = plus then gt else kind

section

variable (hc : s[j]? = some c) (hc0 : c ≠ 0)

include hc hc0

theorem first_tokenAt :
    (c ∈ symbols ∧ first (tokenAt s j).1 = c) ∨ (c ∉ symbols ∧ (tokenAt s j).1 = word) := by
  have hget : s.getD j 0 = c := by rw [getD_eq_getElem?_getD, hc, Option.getD_some]
  rw [tokenAt, hget, if_neg hc0]
  by_cases hsym : c ∈ [bar, lparen, rparen, semi, amp, lt]
  · rw [if_pos hsym]
    simp only [mem_cons, not_mem_nil, or_false] at hsym
    left
    rcases hsym with rfl | rfl | rfl | rfl | rfl | rfl <;> exact ⟨by decide, rfl⟩
  · rw [if_neg hsym]
    by_cases hgt : c = gt
    · subst hgt
      rw [if_pos rfl]
      left
      split
      · exact ⟨by decide, rfl⟩
      · exact ⟨by decide, rfl⟩
    · rw [if_neg hgt]
      refine .inr ⟨fun hmem => ?_, rfl⟩
      simp only [symbols, mem_cons, not_mem_nil, or_false] at hmem hsym
      rcases hmem with h | h | h | h | h | h | h
      · exact hsym (.inr (.inr (.inr (.inr (.inr h)))))
      · exact hsym (.inl h)
      · exact hgt h
      · exact hsym (.inr (.inr (.inr (.inr (.inl h)))))
      · exact hsym (.inr (.inr (.inr (.inl h))))
      · exact hsym (.inr (.inl h))
      · exact hsym (.inr (.inr (.inl h)))

theorem tokenAt_ne_zero : (tokenAt s j).1 ≠ 0 := by
  intro h
  rcases first_tokenAt hc hc0 with ⟨_, hf⟩ | ⟨_, hw⟩
  · rw [h] at hf
    exact hc0 hf.symm
  · rw [h] at hw
    cases hw

theorem tokenAt_stop (hw : c ∉ whitespace) : j < (tokenAt s j).2 ∧ (tokenAt s j).2 ≤ s.length := by
  have hget : s.getD j 0 = c := by rw [getD_eq_getElem?_getD, hc, Option.getD_some]
  obtain ⟨hlt, -⟩ := List.getElem?_eq_some_iff.mp hc
  have hkind := first_tokenAt hc hc0
  rw [tokenAt, hget, if_neg hc0] at hkind ⊢
  by_cases hsym : c ∈ [bar, lparen, rparen, semi, amp, lt]
  · rw [if_pos hsym]
    exact ⟨Nat.lt_succ_self j, hlt⟩
  · rw [if_neg hsym] at hkind ⊢
    by_cases hgt : c = gt
    · rw [if_pos hgt]
      split
      · next hnext =>
        have hlt' : j + 1 < s.length := by
          by_contra hge
          rw [getD_eq_default _ _ (Nat.le_of_not_lt hge)] at hnext
          cases hnext
        exact ⟨by omega, hlt'⟩
      · exact ⟨Nat.lt_succ_self j, hlt⟩
    · rw [if_neg hgt] at hkind ⊢
      have hns : c ∉ symbols := by
        rcases hkind with ⟨hmem, hf⟩ | ⟨hns, -⟩
        · rw [← hf]
          change first word ∉ symbols
          decide
        · exact hns
      refine ⟨?_, wordEnd_le (Nat.le_of_lt hlt)⟩
      have hd : s.drop j = c :: s.drop (j + 1) := by
        obtain ⟨_, rfl⟩ := List.getElem?_eq_some_iff.mp hc
        exact drop_eq_getElem_cons hlt
      change j < wordEnd s j
      rw [wordEnd, hd, takeWhile_cons_of_pos (by simpa using ⟨hw, hns⟩), length_cons]
      omega

end

theorem tokenAt_length (s : List UInt8) : tokenAt s s.length = (0, s.length) := by
  rw [tokenAt, getD_eq_default _ _ le_rfl, if_pos rfl]

variable (h0 : 0 ∉ s)

include h0

section

variable (hi : i ≤ s.length)

include hi

theorem token_cases : (skip s i = s.length ∧ tokenAt s (skip s i) = (0, s.length)) ∨
      ∃ c, s[skip s i]? = some c ∧ c ≠ 0 ∧ c ∉ whitespace ∧ (tokenAt s (skip s i)).1 ≠ 0 ∧
        i < skip s (tokenAt s (skip s i)).2 ∧ skip s (tokenAt s (skip s i)).2 ≤ s.length := by
  have hle := skip_le hi
  by_cases heq : skip s i = s.length
  · exact .inl ⟨heq, by rw [heq, tokenAt_length]⟩
  · have hlt : skip s i < s.length := by omega
    have hc := getElem?_eq_getElem hlt
    have hc0 : s[skip s i] ≠ 0 := fun h => h0 (h ▸ getElem_mem hlt)
    have hw := not_whitespace_skip hc
    obtain ⟨hstop, hstop'⟩ := tokenAt_stop hc hc0 hw
    have h1 := le_skip s i
    have h2 := le_skip s (tokenAt s (skip s i)).2
    exact .inr ⟨_, hc, hc0, hw, tokenAt_ne_zero hc hc0, by omega, skip_le hstop'⟩

theorem tokensFrom_eq (hn : s.length < i + n) : tokensFrom s n i = toks s i := by
  have key : ∀ m n i, i ≤ s.length → s.length < i + n → s.length < i + m →
      tokensFrom s n i = tokensFrom s m i := by
    intro m
    induction m with
    | zero => omega
    | succ m ih =>
      intro n i hi hn _
      obtain ⟨n, rfl⟩ : ∃ n', n = n' + 1 := ⟨n - 1, by omega⟩
      rw [tokensFrom, tokensFrom]
      rcases token_cases h0 hi with ⟨_, htok⟩ | ⟨_, _, _, _, hne, hlt, hle⟩
      · rw [htok, if_pos rfl, if_pos rfl]
      · rw [if_neg hne, if_neg hne, ih n _ hle (by omega) (by omega)]
  exact key _ n i hi hn (by omega)

theorem toks_eq : toks s i = if (tokenAt s (skip s i)).1 = 0 then []
      else ⟨(tokenAt s (skip s i)).1, skip s i, (tokenAt s (skip s i)).2⟩ ::
        toks s (skip s (tokenAt s (skip s i)).2) := by
  have hfuel : s.length + 1 - i = (s.length - i) + 1 := by omega
  rw [toks, hfuel, tokensFrom]
  rcases token_cases h0 hi with ⟨_, htok⟩ | ⟨_, _, _, _, hne, hlt, hle⟩
  · rw [htok, if_pos rfl, if_pos rfl]
  · rw [if_neg hne, if_neg hne, tokensFrom_eq h0 hle (by omega)]

theorem toks_skip : toks s (skip s i) = toks s i := by
  rw [toks_eq h0 hi, toks_eq h0 (skip_le hi), skip_skip]

theorem toks_eq_nil_iff : toks s i = [] ↔ skip s i = s.length := by
  rw [toks_eq h0 hi]
  rcases token_cases h0 hi with ⟨hend, htok⟩ | ⟨c, hc, _, _, hne, _⟩
  · rw [htok, if_pos rfl]
    exact iff_of_true rfl hend
  · rw [if_neg hne]
    refine iff_of_false (cons_ne_nil _ _) fun hend => ?_
    rw [hend, getElem?_eq_none le_rfl] at hc
    cases hc

end

/-! ## The scanner on the list of tokens -/

/-- The next token begins with one of the given bytes. -/
def Starts (cs : List UInt8) : List Tok → Bool
  | [] => false
  | t :: _ => first t.kind ∈ cs

variable {E : Fault → Prop}

theorem wp_peek {cs : List UInt8} {Q : Bool → ℕ → Prop} (hi : i ≤ s.length) (hcs : cs ⊆ symbols)
    (hQ : ∀ j, i ≤ j → j ≤ s.length → toks s j = toks s i → Q (Starts cs (toks s i)) j) :
    wp (peek s cs) E i Q := by
  have h := hQ (skip s i) (le_skip s i) (skip_le hi) (toks_skip h0 hi)
  suffices hb : Starts cs (toks s i) = decide (s.getD (skip s i) 0 ≠ 0 ∧ s.getD (skip s i) 0 ∈ cs) by
    rwa [hb] at h
  rw [toks_eq h0 hi]
  rcases token_cases h0 hi with ⟨hend, htok⟩ | ⟨c, hc, hc0, _, hne, _⟩
  · rw [htok, if_pos rfl, hend, getD_eq_default _ _ le_rfl]
    rfl
  · rw [if_neg hne, getD_eq_getElem?_getD, hc, Option.getD_some]
    change decide (first _ ∈ cs) = _
    refine decide_eq_decide.mpr ?_
    rcases first_tokenAt hc hc0 with ⟨_, hf⟩ | ⟨hns, hw⟩
    · rw [hf]
      exact (and_iff_right hc0).symm
    · rw [hw]
      refine iff_of_false (fun hmem => ?_) fun hmem => hns (hcs hmem.2)
      have hsym : word ∈ symbols := hcs hmem
      exact absurd hsym (by decide)

theorem wp_gettoken {Q : UInt8 × Span → ℕ → Prop} (hi : i ≤ s.length)
    (hnil : toks s i = [] → ∀ sp, Q (0, sp) s.length)
    (hcons : ∀ t ts j, toks s i = t :: ts → t.kind ≠ 0 → i < j → j ≤ s.length → toks s j = ts →
      Q (t.kind, t.span) j) : wp (gettoken s) E i Q := by
  change Q ((tokenAt s (skip s i)).1, ⟨skip s i, (tokenAt s (skip s i)).2⟩)
    (skip s (tokenAt s (skip s i)).2)
  have heq := toks_eq h0 hi
  rcases token_cases h0 hi with ⟨hend, htok⟩ | ⟨_, _, _, _, hne, hlt, hle⟩
  · rw [htok, if_pos rfl] at heq
    rw [htok]
    have hskip : skip s s.length = s.length :=
      Nat.le_antisymm (skip_le le_rfl) (le_skip s s.length)
    rw [hskip]
    exact hnil heq _
  · rw [if_neg hne] at heq
    exact hcons _ _ _ heq hne hlt hle rfl

end

end Xv6.Sh
