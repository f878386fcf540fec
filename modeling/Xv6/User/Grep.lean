import Mathlib.Computability.Language

/-!
# The pattern matcher of `grep`

Model of `match`, `matchhere` and `matchstar` of `user/grep.c`, and what they decide. A C string is the
list of its bytes; the byte after the last one is the terminating NUL, so that `*text != '\0'` is a test
of `peek`. The two `do` loops walk to the end of the text.

What a pattern means is said apart from the matcher: `items` reads it as a sequence of items and a flag
for a final `$`, every item has a `Language`, and the language of the sequence is the product of these.
`match` then decides whether the text has a part in that language (`match_iff_language`). The heart of
the proof is one equivalence for each of the loops: `matchstar` finds a prefix in the star of one byte
that is followed by a match of the rest (`matchstar_iff`), and the loop of `match` finds a suffix.
-/

namespace Xv6.Grep

open List

/-- A C string from some byte on. -/
abbrev Str := List UInt8

/-- `*s` -/
def peek (s : Str) : UInt8 := s.headD 0

abbrev STAR : UInt8 := 42
abbrev DOT : UInt8 := 46
abbrev DOLLAR : UInt8 := 36
abbrev CARET : UInt8 := 94

/-- `matchstar(c, re, text)`, where `here` is `matchhere(re, _)`. -/
def matchstar (here : Str → Bool) (c : UInt8) : Str → Bool
  | [] => here []
  | t :: text =>
    if here (t :: text) then true
    else if t ≠ 0 ∧ (t = c ∨ c = DOT) then matchstar here c text
    else false

/-- `matchhere(re, text)`: search for `re` at the beginning of `text`. -/
def matchhere : Str → Str → Bool
  | [], _ => true
  | [c], text =>
    if c = 0 then true
    else if c = DOLLAR then peek text = 0
    else decide (peek text ≠ 0 ∧ (c = DOT ∨ c = peek text))
  | c :: d :: re, text =>
    if c = 0 then true
    else if d = STAR then matchstar (fun t => matchhere re t) c text
    else if c = DOLLAR ∧ d = 0 then peek text = 0
    else if peek text ≠ 0 ∧ (c = DOT ∨ c = peek text) then matchhere (d :: re) text.tail
    else false

/-- The loop of `match(re, text)`. -/
def matchLoop (re : Str) : Str → Bool
  | [] => matchhere re []
  | t :: text =>
    if matchhere re (t :: text) then true
    else if t ≠ 0 then matchLoop re text
    else false

/-- `match(re, text)` -/
def matchText (re text : Str) : Bool :=
  if peek re = CARET then matchhere re.tail text else matchLoop re text

/-! ## What a pattern means -/

/-- An item of a pattern: a byte, where `.` is any byte, or a byte with a star. -/
inductive Item where
  | byte (c : UInt8)
  | star (c : UInt8)
deriving DecidableEq, Repr

/-- The items of a pattern, and whether it ends with a `$` that is not starred. -/
def items : Str → List Item × Bool
  | [] => ([], false)
  | [c] => if c = DOLLAR then ([], true) else ([.byte c], false)
  | c :: d :: re =>
    if d = STAR then ((items re).map (.star c :: ·) id) else ((items (d :: re)).map (.byte c :: ·) id)

/-- The strings of one byte that `c` stands for. -/
def byteLang (c : UInt8) : Language UInt8 := {w | ∃ b, w = [b] ∧ (c = DOT ∨ b = c)}

open Computability in
/-- The language of an item. -/
def Item.lang : Item → Language UInt8
  | .byte c => byteLang c
  | .star c => (byteLang c)∗

/-- The language of a sequence of items. -/
def lang (l : List Item) : Language UInt8 := (l.map Item.lang).prod

/-- A prefix of the text is in the language of the pattern; it is the whole text where the pattern ends
with `$`. -/
def MatchesHere (re text : Str) : Prop :=
  ∃ b c, text = b ++ c ∧ b ∈ lang (items re).1 ∧ ((items re).2 = true → c = [])

/-- A part of the text is in the language of the pattern: a prefix after `^`. -/
def Matches (re text : Str) : Prop :=
  match re with
  | [] => ∃ a t, text = a ++ t ∧ MatchesHere [] t
  | c :: re => if c = CARET then MatchesHere re text else ∃ a t, text = a ++ t ∧ MatchesHere (c :: re) t

/-! ## The matcher decides it -/

variable {c : UInt8} {w : Str}

theorem lang_cons (i : Item) (l : List Item) : lang (i :: l) = i.lang * lang l := prod_cons

theorem mem_lang_nil : w ∈ lang [] ↔ w = [] := Language.mem_one w

open Computability in
/-- A string is in the star of a byte iff the byte stands for each of its bytes. -/
theorem mem_star_iff : w ∈ (byteLang c)∗ ↔ ∀ b ∈ w, c = DOT ∨ b = c := by
  constructor
  · rintro ⟨l, rfl, hl⟩ b hb
    obtain ⟨y, hy, hby⟩ := mem_flatten.mp hb
    obtain ⟨b', rfl, hb'⟩ := hl y hy
    rwa [mem_singleton.mp hby]
  · intro h
    refine ⟨w.map fun b => [b], ?_, fun y hy => ?_⟩
    · rw [← flatMap_def, flatMap_singleton']
    · obtain ⟨b, hb, rfl⟩ := mem_map.mp hy
      exact ⟨b, rfl, h b hb⟩

variable {text : Str}

/-- `matchstar` skips bytes that `c` stands for. -/
theorem matchstar_iff {here : Str → Bool} (h0 : 0 ∉ text) : matchstar here c text = true ↔
      ∃ a t, text = a ++ t ∧ (∀ b ∈ a, c = DOT ∨ b = c) ∧ here t = true := by
  induction text with
  | nil =>
    constructor
    · exact fun h => ⟨[], [], rfl, fun b hb => absurd hb not_mem_nil, h⟩
    · rintro ⟨a, t, heq, -, ht⟩
      obtain ⟨rfl, rfl⟩ := append_eq_nil_iff.mp heq.symm
      exact ht
  | cons x text ih =>
    have hx : x ≠ 0 := fun hx => h0 (hx ▸ mem_cons_self)
    have ih := ih fun hmem => h0 (mem_cons_of_mem x hmem)
    rw [matchstar]
    by_cases hhere : here (x :: text) = true
    · rw [if_pos hhere]
      exact ⟨fun _ => ⟨[], x :: text, rfl, fun b hb => absurd hb not_mem_nil, hhere⟩, fun _ => rfl⟩
    rw [if_neg hhere]
    by_cases hc : c = DOT ∨ x = c
    · rw [if_pos ⟨hx, hc.symm⟩, ih]
      constructor
      · rintro ⟨a, t, rfl, ha, ht⟩
        exact ⟨x :: a, t, rfl, forall_mem_cons.mpr ⟨hc, ha⟩, ht⟩
      · rintro ⟨a, t, heq, ha, ht⟩
        -- the empty prefix would be a match at `x`
        cases a with
        | nil => exact absurd (heq ▸ ht) hhere
        | cons y a =>
          obtain ⟨-, rfl⟩ := List.cons.inj heq
          exact ⟨a, t, rfl, (forall_mem_cons.mp ha).2, ht⟩
    · rw [if_neg fun hand => hc hand.2.symm]
      refine ⟨fun h => absurd h Bool.false_ne_true, ?_⟩
      rintro ⟨a, t, heq, ha, ht⟩
      cases a with
      | nil => exact absurd (heq ▸ ht) hhere
      | cons y a =>
        obtain ⟨rfl, -⟩ := List.cons.inj heq
        exact absurd ((forall_mem_cons.mp ha).1) hc

variable {re : Str}

/-- A byte at the front of a pattern takes one byte of the text. -/
theorem matchesHere_byte {l : List Item} {e : Bool} (hl : items re = (.byte c :: l, e)) :
    MatchesHere re text ↔
      ∃ x t, text = x :: t ∧ (c = DOT ∨ x = c) ∧
        ∃ b r, t = b ++ r ∧ b ∈ lang l ∧ (e = true → r = []) := by
  rw [MatchesHere, hl]
  constructor
  · rintro ⟨b, r, rfl, hb, hr⟩
    rw [lang_cons, Language.mem_mul] at hb
    obtain ⟨w, ⟨x, rfl, hx⟩, b, hb, rfl⟩ := hb
    exact ⟨x, b ++ r, rfl, hx, b, r, rfl, hb, hr⟩
  · rintro ⟨x, t, rfl, hx, b, r, rfl, hb, hr⟩
    refine ⟨x :: b, r, rfl, ?_, hr⟩
    rw [lang_cons, Language.mem_mul]
    exact ⟨[x], ⟨x, rfl, hx⟩, b, hb, rfl⟩

/-- A starred byte takes any number of bytes of the text. -/
theorem matchesHere_star : MatchesHere (c :: STAR :: re) text ↔
    ∃ a t, text = a ++ t ∧ (∀ b ∈ a, c = DOT ∨ b = c) ∧ MatchesHere re t := by
  have hl : items (c :: STAR :: re) = (.star c :: (items re).1, (items re).2) := by
    rw [items, if_pos rfl]
    rfl
  rw [MatchesHere, hl]
  constructor
  · rintro ⟨b, r, rfl, hb, hr⟩
    rw [lang_cons, Language.mem_mul] at hb
    obtain ⟨a, ha, b, hb, rfl⟩ := hb
    exact ⟨a, b ++ r, append_assoc a b r, mem_star_iff.mp ha, b, r, rfl, hb, hr⟩
  · rintro ⟨a, t, rfl, ha, b, r, rfl, hb, hr⟩
    refine ⟨a ++ b, r, (append_assoc a b r).symm, ?_, hr⟩
    rw [lang_cons, Language.mem_mul]
    exact ⟨a, mem_star_iff.mpr ha, b, hb, rfl⟩

/-- The test of one byte, on a text without NUL. -/
theorem peek_iff (h0 : 0 ∉ text) :
    peek text ≠ 0 ∧ (c = DOT ∨ c = peek text) ↔ ∃ x t, text = x :: t ∧ (c = DOT ∨ x = c) := by
  cases text with
  | nil => simp [peek]
  | cons x t =>
    have hx : x ≠ 0 := fun hx => h0 (hx ▸ mem_cons_self)
    simp only [peek, headD_cons, List.cons.injEq]
    constructor
    · rintro ⟨-, hc⟩
      exact ⟨x, t, ⟨rfl, rfl⟩, hc.imp_right Eq.symm⟩
    · rintro ⟨x', t', ⟨rfl, rfl⟩, hc⟩
      exact ⟨hx, hc.imp_right Eq.symm⟩

theorem peek_eq_zero (h0 : 0 ∉ text) : peek text = 0 ↔ text = [] := by
  cases text with
  | nil => exact ⟨fun _ => rfl, fun _ => rfl⟩
  | cons x t =>
    exact ⟨fun hx => absurd (hx ▸ mem_cons_self) h0, fun h => absurd h (cons_ne_nil _ _)⟩

/-- `matchhere` decides whether the pattern matches at the beginning of the text. The induction follows
the pattern, two bytes at a time where the second one is a star. -/
theorem matchhere_iff (hre : 0 ∉ re) (h0 : 0 ∉ text) :
    matchhere re text = true ↔ MatchesHere re text := by
  fun_induction matchhere re text with
  | case1 text =>
    exact ⟨fun _ => ⟨[], text, rfl, mem_lang_nil.mpr rfl, fun h => absurd h Bool.false_ne_true⟩,
      fun _ => rfl⟩
  | case2 text => exact absurd mem_cons_self hre
  | case3 text hc =>
    rw [decide_eq_true_iff, peek_eq_zero h0, MatchesHere, show items [DOLLAR] = ([], true) from rfl]
    constructor
    · rintro rfl
      exact ⟨[], [], rfl, mem_lang_nil.mpr rfl, fun _ => rfl⟩
    · rintro ⟨b, r, rfl, hb, hr⟩
      rw [mem_lang_nil.mp hb, hr rfl]
      rfl
  | case4 c text hc hd =>
    have hl : items [c] = ([.byte c], false) := by rw [items, if_neg hd]
    rw [decide_eq_true_iff, peek_iff h0, matchesHere_byte hl]
    constructor
    · rintro ⟨x, t, rfl, hx⟩
      exact ⟨x, t, rfl, hx, [], t, rfl, mem_lang_nil.mpr rfl, fun h => absurd h Bool.false_ne_true⟩
    · rintro ⟨x, t, rfl, hx, -⟩
      exact ⟨x, t, rfl, hx⟩
  | case5 d re text => exact absurd mem_cons_self hre
  | case6 c re text hc ih =>
    have hre' : 0 ∉ re := fun h => hre (mem_cons_of_mem _ (mem_cons_of_mem _ h))
    rw [matchstar_iff h0, matchesHere_star]
    refine exists_congr fun a => exists_congr fun t => and_congr_right fun ht => and_congr_right fun _ => ?_
    subst ht
    exact ih t hre' fun h => h0 (mem_append_right a h)
  | case7 c d re text hc hd hdollar =>
    exact absurd (mem_cons_of_mem c (hdollar.2 ▸ mem_cons_self)) hre
  | case8 c d re text hc hd hdollar hpeek ih =>
    have hl : items (c :: d :: re) = (.byte c :: (items (d :: re)).1, (items (d :: re)).2) := by
      rw [items, if_neg hd]
      rfl
    obtain ⟨x, t, rfl, hx⟩ := (peek_iff h0).mp hpeek
    rw [ih (fun h => hre (mem_cons_of_mem c h)) fun h => h0 (mem_cons_of_mem x h), matchesHere_byte hl]
    constructor
    · exact fun h => ⟨x, t, rfl, hx, h⟩
    · rintro ⟨x', t', heq, -, h⟩
      obtain ⟨rfl, rfl⟩ := List.cons.inj heq
      exact h
  | case9 c d re text hc hd hdollar hpeek =>
    have hl : items (c :: d :: re) = (.byte c :: (items (d :: re)).1, (items (d :: re)).2) := by
      rw [items, if_neg hd]
      rfl
    rw [matchesHere_byte hl]
    refine ⟨fun h => absurd h Bool.false_ne_true, ?_⟩
    rintro ⟨x, t, rfl, hx, -⟩
    exact absurd ((peek_iff h0).mpr ⟨x, t, rfl, hx⟩) hpeek

/-- The loop of `match` looks at every suffix of the text, the empty one included. -/
theorem matchLoop_iff (h0 : 0 ∉ text) :
    matchLoop re text = true ↔ ∃ a t, text = a ++ t ∧ matchhere re t = true := by
  induction text with
  | nil =>
    constructor
    · exact fun h => ⟨[], [], rfl, h⟩
    · rintro ⟨a, t, heq, ht⟩
      obtain ⟨rfl, rfl⟩ := append_eq_nil_iff.mp heq.symm
      exact ht
  | cons x text ih =>
    have hx : x ≠ 0 := fun hx => h0 (hx ▸ mem_cons_self)
    rw [matchLoop]
    by_cases hhere : matchhere re (x :: text) = true
    · rw [if_pos hhere]
      exact ⟨fun _ => ⟨[], x :: text, rfl, hhere⟩, fun _ => rfl⟩
    · rw [if_neg hhere, if_pos hx, ih fun hmem => h0 (mem_cons_of_mem x hmem)]
      constructor
      · rintro ⟨a, t, rfl, ht⟩
        exact ⟨x :: a, t, rfl, ht⟩
      · rintro ⟨a, t, heq, ht⟩
        cases a with
        | nil => exact absurd (heq ▸ ht) hhere
        | cons y a =>
          obtain ⟨-, rfl⟩ := List.cons.inj heq
          exact ⟨a, t, rfl, ht⟩

/-- **`match` decides the language of its pattern**, for every pattern and every text. -/
theorem match_iff_language (re text : Str) (hre : 0 ∉ re) (h0 : 0 ∉ text) :
    matchText re text = true ↔ Matches re text := by
  have hloop : ∀ re', 0 ∉ re' → (matchLoop re' text = true ↔
      ∃ a t, text = a ++ t ∧ MatchesHere re' t) := by
    intro re' hre'
    rw [matchLoop_iff h0]
    refine exists_congr fun a => exists_congr fun t => and_congr_right fun ht => ?_
    subst ht
    exact matchhere_iff hre' fun h => h0 (mem_append_right a h)
  cases re with
  | nil => exact hloop [] hre
  | cons c re =>
    change (if c = CARET then matchhere re text else matchLoop (c :: re) text) = true ↔
      if c = CARET then MatchesHere re text else ∃ a t, text = a ++ t ∧ MatchesHere (c :: re) t
    by_cases hc : c = CARET
    · rw [if_pos hc, if_pos hc]
      exact matchhere_iff (fun h => hre (mem_cons_of_mem c h)) h0
    · rw [if_neg hc, if_neg hc]
      exact hloop (c :: re) hre

/-- The pattern `a*$` and the text `ba`. -/
theorem match_iff_language_suffix : matchText [97, 42, 36] [98, 97] = true ∧ Matches [97, 42, 36] [98, 97] := by
  have hrun : matchText [97, 42, 36] [98, 97] = true := by decide
  exact ⟨hrun, (match_iff_language _ _ (by decide) (by decide)).mp hrun⟩

end Xv6.Grep
