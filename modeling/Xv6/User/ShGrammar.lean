import Xv6.User.ShTokens

/-!
# The grammar of the shell

`parsecmd` accepts a line if and only if its tokens derive from the grammar of the shell, and builds the
tree of that derivation; all other lines end in a panic.

Each loop of the parser has a rule for its last turn and one for every other turn. Soundness goes by
induction on the fuel, completeness by induction on the derivation, where the rest of the line begins with
a token that may follow.
-/

namespace Xv6.Sh

open Lib List

/-! ## The grammar -/

/-- The file, mode and descriptor of a redirection. -/
structure Redir where
  file : Span
  mode : ℕ
  fd : ℕ

/-- The redirection of an operator to a file. -/
def redirOf (op : UInt8) (file : Span) : Option Redir :=
  if op = lt then some ⟨file, rdonly, 0⟩
  else if op = gt then some ⟨file, createTrunc, 1⟩
  else if op = plus then some ⟨file, create, 1⟩
  else none

/-- `redir*`, where `redir -> ('<' | '>' | '>>') word`. -/
inductive Redirs : List Tok → List Redir → Prop where
  | nil : Redirs [] []
  | cons {op w : Tok} {r : Redir} {ts : List Tok} {rs : List Redir}
      (hop : redirOf op.kind w.span = some r) (hw : w.kind = word) (h : Redirs ts rs) :
      Redirs (op :: w :: ts) (r :: rs)

/-- `(word redir*)^k`, with the words and the redirections. -/
inductive Words : List Tok → List Span → List Redir → Prop where
  | nil : Words [] [] []
  | cons {w : Tok} {ts us : List Tok} {rs rs' : List Redir} {ws : List Span} (hw : w.kind = word)
      (hts : Redirs ts rs) (h : Words us ws rs') : Words (w :: ts ++ us) (w.span :: ws) (rs ++ rs')

/-- The first redirection is the innermost. -/
def wrap (rs : List Redir) (cmd : Cmd) : Cmd :=
  rs.foldl (fun cmd r => .redir cmd r.file r.mode r.fd) cmd

/-- One `BACK` for each `&`. -/
def backs : ℕ → Cmd → Cmd
  | 0, cmd => cmd
  | n + 1, cmd => backs n (.back cmd)

/-- The nonterminals. -/
inductive Nonterm where
  | line
  | pipe
  | exec

/-- The tokens derive from the nonterminal, and the command is the tree of the derivation. -/
inductive Derives : Nonterm → List Tok → Cmd → Prop where
  /-- `line -> pipe '&'*` -/
  | line {ts as : List Tok} {cmd : Cmd} (h : Derives .pipe ts cmd) (has : ∀ a ∈ as, a.kind = amp) :
      Derives .line (ts ++ as) (backs as.length cmd)
  /-- `line -> pipe '&'* ';' line` -/
  | list {ts as us : List Tok} {sep : Tok} {cmd right : Cmd} (h : Derives .pipe ts cmd)
      (has : ∀ a ∈ as, a.kind = amp) (hsep : sep.kind = semi) (h' : Derives .line us right) :
      Derives .line (ts ++ (as ++ sep :: us)) (.list (backs as.length cmd) right)
  /-- `pipe -> exec` -/
  | exec {ts : List Tok} {cmd : Cmd} (h : Derives .exec ts cmd) : Derives .pipe ts cmd
  /-- `pipe -> exec '|' pipe` -/
  | pipe {ts us : List Tok} {sep : Tok} {cmd right : Cmd} (h : Derives .exec ts cmd)
      (hsep : sep.kind = bar) (h' : Derives .pipe us right) :
      Derives .pipe (ts ++ sep :: us) (.pipe cmd right)
  /-- `exec -> '(' line ')' redir*` -/
  | block {l r : Tok} {ts us : List Tok} {cmd : Cmd} {rs : List Redir} (hl : l.kind = lparen)
      (h : Derives .line ts cmd) (hr : r.kind = rparen) (hus : Redirs us rs) :
      Derives .exec (l :: (ts ++ r :: us)) (wrap rs cmd)
  /-- `exec -> redir* (word redir*)^k` -/
  | simple {ts us : List Tok} {rs rs' : List Redir} {ws : List Span} (hts : Redirs ts rs)
      (hus : Words us ws rs') (hk : ws.length ≤ MAXARGS - 1) :
      Derives .exec (ts ++ us) (wrap (rs ++ rs') (.exec ws))

/-! ## What the loops build -/

theorem wrap_append (rs rs' : List Redir) (cmd : Cmd) : wrap rs' (wrap rs cmd) = wrap (rs ++ rs') cmd :=
  foldl_append.symm

theorem addArg_wrap (rs : List Redir) (ws : List Span) (w : Span) :
    (wrap rs (.exec ws)).addArg w = wrap rs (.exec (ws ++ [w])) := by
  have key : ∀ cmd : Cmd, (wrap rs cmd).addArg w = wrap rs (cmd.addArg w) := by
    induction rs with
    | nil => exact fun _ => rfl
    | cons r rs ih => exact fun cmd => ih _
  exact key _

theorem redirOf_of_first {kind : UInt8} (h : first kind ∈ [lt, gt]) :
    kind = lt ∨ kind = gt ∨ kind = plus := by
  unfold first at h
  split at h
  · next hp => exact .inr (.inr hp)
  · simp only [mem_cons, not_mem_nil, or_false] at h
    exact h.elim .inl fun h => .inr (.inl h)

/-- Between `i` and `j` there are the tokens `ts`. -/
structure Reads (s : List UInt8) (i j : ℕ) (ts : List Tok) : Prop where
  le : i ≤ j
  le_length : j ≤ s.length
  eq : toks s i = ts ++ toks s j

namespace Reads

variable {s : List UInt8} {i j k : ℕ} {ts us : List Tok}

theorem trans (h : Reads s i j ts) (h' : Reads s j k us) : Reads s i k (ts ++ us) :=
  ⟨h.le.trans h'.le, h'.le_length, by rw [h.eq, h'.eq, append_assoc]⟩

theorem blank (hij : i ≤ j) (hj : j ≤ s.length) (h : toks s j = toks s i) : Reads s i j [] :=
  ⟨hij, hj, h.symm⟩

theorem single {t : Tok} (hij : i < j) (hj : j ≤ s.length) (h : toks s i = t :: ts)
    (h' : toks s j = ts) : Reads s i j [t] := ⟨hij.le, hj, by rw [h, h', singleton_append]⟩

end Reads

/-- The list is empty or begins with a token that has one of the first bytes `ks`. -/
def Heads (ks : List UInt8) (ts : List Tok) : Prop := ∀ t ∈ ts.head?, first t.kind ∈ ks

variable {ts : List Tok}

theorem Heads.not_starts {ks cs : List UInt8} (h : Heads ks ts)
    (hne : ks.all (· ∉ cs) = true) : Starts cs ts = false := by
  cases ts with
  | nil => rfl
  | cons t ts => exact decide_eq_false (of_decide_eq_true (all_eq_true.mp hne _ (h t rfl)))

theorem Heads.mono {ks ks' : List UInt8} (h : Heads ks ts) (hks : ks ⊆ ks') :
    Heads ks' ts := fun t ht => hks (h t ht)

/-! ## One turn of each loop -/

section

variable {s : List UInt8} {i j n argc : ℕ} {cmd : Cmd} {E : Fault → Prop} {Q : Cmd → ℕ → Prop}
  (h0 : 0 ∉ s)

include h0

section

variable (hi : i ≤ s.length)

include hi

theorem wp_ifPeek {α : Type} {cs : List UInt8} {x y : P α} {Q : α → ℕ → Prop} (hcs : cs ⊆ symbols)
    (hx : ∀ j, Starts cs (toks s i) = true → Reads s i j [] → wp x E j Q)
    (hy : ∀ j, Starts cs (toks s i) = false → Reads s i j [] → wp y E j Q) :
    wp (do if ← peek s cs then x else y) E i Q := by
  rw [wp_bind]
  refine wp_peek h0 hi hcs fun j hij hj hsame => ?_
  have hblank := Reads.blank hij hj hsame
  cases hb : Starts cs (toks s i) with
  | true => exact hx j hb hblank
  | false => exact hy j hb hblank

theorem wp_parseredirs_stop (hstop : Starts [lt, gt] (toks s i) = false)
    (hQ : ∀ j, Reads s i j [] → Q cmd j) : wp (parseredirsLoop s (n + 1) cmd) E i Q := by
  refine wp_ifPeek h0 hi (by decide) (fun j hb _ => ?_) fun j _ => hQ j
  rw [hstop] at hb
  cases hb

theorem wp_parseredirs_turn {op : Tok} {us : List Tok}
    (htoks : toks s i = op :: us) (hop : first op.kind ∈ [lt, gt])
    (hmiss : (∀ w ts, us = w :: ts → w.kind ≠ word) → E .missingFile)
    (hnext : ∀ w ts r j, us = w :: ts → w.kind = word → redirOf op.kind w.span = some r → i < j →
      Reads s i j [op, w] → wp (parseredirsLoop s n (.redir cmd r.file r.mode r.fd)) E j Q) :
    wp (parseredirsLoop s (n + 1) cmd) E i Q := by
  refine wp_ifPeek h0 hi (by decide) (fun j _ hblank => ?_) fun j hb _ => ?_
  · have hsame : op :: us = toks s j := htoks.symm.trans hblank.eq
    rw [wp_bind]
    refine wp_gettoken h0 hblank.le_length (fun hnil => ?_) fun t ts j1 ht _ hlt1 hj1 hts => ?_
    · rw [hnil] at hsame
      cases hsame
    obtain ⟨rfl, rfl⟩ := List.cons.inj (hsame.trans ht)
    change wp (gettoken s >>= _) _ _ _
    rw [wp_bind]
    refine wp_gettoken h0 hj1 (fun hnil sp => ?_) fun w us' j2 hw _ hlt2 hj2 hus => ?_
    · refine hmiss fun w ts hus => ?_
      rw [← hts, hnil] at hus
      cases hus
    have hus' : us = w :: us' := hts.symm.trans hw
    have hle := hblank.le
    have hread : Reads s i j2 [op, w] :=
      (hblank.trans (.single hlt1 hj1 ht hts)).trans (.single hlt2 hj2 hw hus)
    dsimp only
    rw [wp_ite]
    refine ⟨fun hword => hmiss fun w' ts h => ?_, fun hword => ?_⟩
    · obtain ⟨rfl, -⟩ := List.cons.inj (hus'.symm.trans h)
      exact hword
    rw [not_not] at hword
    have hrest := fun r hr => hnext w us' r j2 hus' hword hr (by omega) hread
    rcases redirOf_of_first hop with hk | hk | hk
    · rw [hk] at hrest ⊢
      rw [if_pos rfl]
      exact hrest ⟨w.span, rdonly, 0⟩ rfl
    · rw [hk] at hrest ⊢
      rw [if_neg (by decide), if_pos rfl]
      exact hrest ⟨w.span, createTrunc, 1⟩ rfl
    · rw [hk] at hrest ⊢
      rw [if_neg (by decide), if_neg (by decide), if_pos rfl]
      exact hrest ⟨w.span, create, 1⟩ rfl
  · rw [htoks] at hb
    exact absurd hop (by simpa [Starts] using hb)

variable {t : Tok}

section

variable {α : Type} {Q : α → ℕ → Prop} {x y : P α}

theorem wp_gettoken_then {x : P α} (htoks : toks s i = t :: ts)
    (hx : ∀ j, i < j → Reads s i j [t] → wp x E j Q) : wp (do let _ ← gettoken s; x) E i Q := by
  rw [wp_bind]
  refine wp_gettoken h0 hi (fun hnil => ?_) fun t' ts' j ht _ hlt hj hts => ?_
  · rw [hnil] at htoks
    cases htoks
  · obtain ⟨rfl, rfl⟩ := List.cons.inj (htoks.symm.trans ht)
    exact hx j hlt (.single hlt hj ht hts)

omit h0 hi in
theorem exists_of_starts {cs : List UInt8} (h : Starts cs (toks s i) = true) (hread : Reads s i j []) :
    ∃ t ts, toks s i = t :: ts ∧ toks s j = t :: ts ∧ first t.kind ∈ cs := by
  have hsame : toks s i = toks s j := hread.eq
  cases htoks : toks s i with
  | nil => rw [htoks] at h; cases h
  | cons t ts =>
    rw [htoks] at h
    exact ⟨t, ts, rfl, hsame.symm.trans htoks, of_decide_eq_true h⟩

theorem wp_ifToken {c : UInt8} (hc : c ∈ symbols) (hgt : c ≠ gt)
    (hx : ∀ t ts j, toks s i = t :: ts → t.kind = c → i < j → Reads s i j [t] → wp x E j Q)
    (hy : ∀ j, Starts [c] (toks s i) = false → Reads s i j [] → wp y E j Q) :
    wp (do if ← peek s [c] then (do let _ ← gettoken s; x) else y) E i Q := by
  refine wp_ifPeek h0 hi (fun c' hc' => mem_singleton.mp hc' ▸ hc) (fun j hb hblank => ?_) hy
  obtain ⟨t, ts, hti, htj, hfirst⟩ := exists_of_starts hb hblank
  have hkind : t.kind = c := by
    have h := mem_singleton.mp hfirst
    unfold first at h
    split at h
    · exact absurd h.symm hgt
    · exact h
  have hle := hblank.le
  exact wp_gettoken_then h0 hblank.le_length htj fun k hlt hread =>
    hx t ts k hti hkind (by omega) (hblank.trans hread)

theorem wp_token_pos (hc : t.kind ∈ symbols) (hgt : t.kind ≠ gt) (htoks : toks s i = t :: ts)
    (hx : ∀ j, i < j → Reads s i j [t] → wp x E j Q) :
    wp (do if ← peek s [t.kind] then (do let _ ← gettoken s; x) else y) E i Q := by
  refine wp_ifToken h0 hi hc hgt (fun t' ts' j ht _ hlt hread => ?_) fun j hb _ => ?_
  · obtain ⟨rfl, -⟩ := List.cons.inj (htoks.symm.trans ht)
    exact hx j hlt hread
  · rw [htoks] at hb
    refine absurd ?_ (of_decide_eq_false hb)
    rw [first]
    split
    · next hplus => exact absurd hc (by rw [hplus]; decide)
    · exact mem_singleton_self _

theorem wp_token_neg {c : UInt8} (hc : c ∈ symbols) (hno : Starts [c] (toks s i) = false)
    (hy : ∀ j, Reads s i j [] → wp y E j Q) : wp (do if ← peek s [c] then x else y) E i Q := by
  refine wp_ifPeek h0 hi (fun c' hc' => mem_singleton.mp hc' ▸ hc) (fun j hb _ => ?_) fun j _ => hy j
  rw [hno] at hb
  cases hb

end

theorem wp_parseargs_stop (hargc : argc < MAXARGS) (hstop : Heads [bar, rparen, amp, semi] (toks s i))
    (hQ : ∀ j, Reads s i j [] → Q cmd j) : wp (parseargs s (n + 1) cmd argc) E i Q := by
  have hend : ∀ j, Reads s i j [] → wp (endargs cmd argc) E j Q := by
    intro j hread
    rw [endargs, if_neg (by omega)]
    exact hQ j hread
  refine wp_ifPeek h0 hi (by decide) (fun j _ => hend j) fun j hb hblank => ?_
  have hsame : toks s i = toks s j := hblank.eq
  cases htoks : toks s i with
  | cons t ts =>
    rw [htoks] at hb hstop
    have hmem := hstop t rfl
    exact absurd hmem (by simpa [Starts] using hb)
  | nil =>
    rw [wp_bind]
    refine wp_gettoken h0 hblank.le_length (fun hnil sp => ?_) fun t ts k ht => ?_
    · have hlen := hblank.le_length
      refine hend _ (hblank.trans ⟨hlen, le_rfl, ?_⟩)
      rw [hnil]
      symm
      refine (toks_eq_nil_iff h0 le_rfl).mpr ?_
      exact Nat.le_antisymm (skip_le le_rfl) (le_skip s s.length)
    · rw [hsame, ht] at htoks
      cases htoks

theorem wp_parseargs_turn (htoks : toks s i = t :: ts)
    (hfirst : first t.kind ∉ [bar, rparen, amp, semi]) (hargc : argc < MAXARGS)
    (hbad : t.kind ≠ word → E .badToken) (hmany : t.kind = word → MAXARGS ≤ argc + 1 → E .tooManyArgs)
    (hnext : ∀ j, t.kind = word → argc + 1 < MAXARGS → i < j → Reads s i j [t] →
      wp (parseredirs s (cmd.addArg t.span)) E j fun ret j' => wp (parseargs s n ret (argc + 1)) E j' Q) :
    wp (parseargs s (n + 1) cmd argc) E i Q := by
  refine wp_ifPeek h0 hi (by decide) (fun j hb _ => ?_) fun j _ hblank => ?_
  · rw [htoks] at hb
    exact absurd (of_decide_eq_true hb) hfirst
  · have hsame : t :: ts = toks s j := htoks.symm.trans hblank.eq
    rw [wp_bind]
    refine wp_gettoken h0 hblank.le_length (fun hnil => ?_) fun t' ts' k ht hne hlt hk hts => ?_
    · rw [hnil] at hsame
      cases hsame
    obtain ⟨rfl, rfl⟩ := List.cons.inj (hsame.trans ht)
    have hle := hblank.le
    dsimp only
    rw [if_neg hne, wp_ite]
    refine ⟨hbad, fun hword => ?_⟩
    rw [not_not] at hword
    rw [if_neg (by omega), wp_ite]
    refine ⟨hmany hword, fun hroom => ?_⟩
    rw [wp_bind]
    exact hnext k hword (by omega) (by omega) (hblank.trans (.single hlt hk ht hts))

/-! ## Soundness -/

theorem parseredirsLoop_sound (hn : s.length < i + n) :
    wp (parseredirsLoop s n cmd) Fault.IsPanic i fun cmd' j =>
      ∃ ts rs, Reads s i j ts ∧ Redirs ts rs ∧ cmd' = wrap rs cmd := by
  induction n generalizing i cmd with
  | zero => omega
  | succ n ih =>
    cases hb : Starts [lt, gt] (toks s i) with
    | false => exact wp_parseredirs_stop h0 hi hb fun j hread => ⟨[], [], hread, .nil, rfl⟩
    | true =>
      obtain ⟨op, us, htoks, -, hop⟩ := exists_of_starts hb ⟨le_rfl, hi, rfl⟩
      refine wp_parseredirs_turn h0 hi htoks hop (fun _ => ⟨nofun, nofun⟩)
        fun w ts r j _ hw hr hlt hread => ?_
      refine (ih hread.le_length (by omega)).mono ?_
      rintro cmd' j' ⟨ts, rs, hreads, hredirs, rfl⟩
      exact ⟨_, _, hread.trans hreads, .cons hr hw hredirs, rfl⟩

theorem parseredirs_sound : wp (parseredirs s cmd) Fault.IsPanic i fun cmd' j =>
      ∃ ts rs, Reads s i j ts ∧ Redirs ts rs ∧ cmd' = wrap rs cmd :=
  parseredirsLoop_sound h0 hi (by omega)

theorem parsebacks_sound (hn : s.length < i + n) : wp (parsebacks s n cmd) Fault.IsPanic i fun cmd' j =>
      ∃ as, Reads s i j as ∧ (∀ a ∈ as, a.kind = amp) ∧ cmd' = backs as.length cmd := by
  induction n generalizing i cmd with
  | zero => omega
  | succ n ih =>
    refine wp_ifToken h0 hi (by decide) (by decide) (fun t ts j _ ht hlt hread => ?_)
      fun j _ hread => ⟨[], hread, nofun, rfl⟩
    refine (ih hread.le_length (by omega)).mono ?_
    rintro cmd' j' ⟨as, hreads, has, rfl⟩
    exact ⟨t :: as, hread.trans hreads, forall_mem_cons.mpr ⟨ht, has⟩, rfl⟩

theorem parseargs_sound {rs : List Redir} {ws : List Span}
    (hn : s.length < i + n) (hargc : ws.length < MAXARGS) :
    wp (parseargs s n (wrap rs (.exec ws)) ws.length) Fault.IsPanic i fun cmd' j =>
      ∃ us ws' rs', Reads s i j us ∧ Words us ws' rs' ∧ (ws ++ ws').length < MAXARGS ∧
        cmd' = wrap (rs ++ rs') (.exec (ws ++ ws')) := by
  induction n generalizing i rs ws with
  | zero => omega
  | succ n ih =>
    by_cases hstop : Heads [bar, rparen, amp, semi] (toks s i)
    · refine wp_parseargs_stop h0 hi hargc hstop fun j hread => ⟨[], [], [], hread, .nil, ?_, ?_⟩
      · rwa [append_nil]
      · rw [append_nil, append_nil]
    · rw [Heads, not_forall] at hstop
      obtain ⟨t, hstop⟩ := hstop
      rw [Classical.not_imp] at hstop
      obtain ⟨ts, htoks⟩ : ∃ ts, toks s i = t :: ts := head?_eq_some_iff.mp hstop.1
      refine wp_parseargs_turn h0 hi htoks hstop.2 hargc (fun _ => ⟨nofun, nofun⟩)
        (fun _ _ => ⟨nofun, nofun⟩) fun j hword hroom hlt hread => ?_
      refine (parseredirs_sound h0 hread.le_length).mono ?_
      rintro ret j' ⟨us, rs', hreads, hredirs, rfl⟩
      rw [addArg_wrap, wrap_append]
      have hlen : (ws ++ [t.span]).length = ws.length + 1 := by
        rw [length_append, length_singleton]
      have hle := hreads.le
      have hih := @ih j' hreads.le_length (rs ++ rs') (ws ++ [t.span]) (by omega) (by omega)
      rw [hlen] at hih
      refine hih.mono ?_
      rintro cmd' j'' ⟨vs, ws', rs'', hreads', hwords, hmax, rfl⟩
      refine ⟨_, _, _, (hread.trans hreads).trans hreads', .cons hword hredirs hwords, ?_, ?_⟩
      · rwa [append_cons]
      · rw [append_assoc rs, ← append_cons ws]

end

/-- The computation reads tokens that derive from the nonterminal, and builds the tree of the derivation. -/
def Parses (s : List UInt8) (A : Nonterm) (x : P Cmd) (i : ℕ) : Prop :=
  wp x Fault.IsPanic i fun cmd j => ∃ ts, Reads s i j ts ∧ Derives A ts cmd

theorem parse_sound : (∀ i ≤ s.length, 4 * (s.length - i) + 4 ≤ n → Parses s .line (parseline s n) i) ∧
    (∀ i ≤ s.length, 4 * (s.length - i) + 3 ≤ n → Parses s .pipe (parsepipe s n) i) ∧
    (∀ i ≤ s.length, 4 * (s.length - i) + 2 ≤ n → Parses s .exec (parseexec s n) i) ∧
    (∀ i ≤ s.length, 4 * (s.length - i) + 1 ≤ n → Parses s .exec (parseblock s n) i) := by
  induction n with
  | zero => refine ⟨?_, ?_, ?_, ?_⟩ <;> intros <;> omega
  | succ n ih =>
    obtain ⟨ihline, ihpipe, ihexec, ihblock⟩ := ih
    refine ⟨fun i hi hn => ?_, fun i hi hn => ?_, fun i hi hn => ?_, fun i hi hn => ?_⟩
    · rw [Parses, parseline, wp_bind]
      refine (ihpipe i hi (by omega)).mono ?_
      rintro cmd j ⟨ts, hts, hpipe⟩
      rw [wp_bind]
      refine (parsebacks_sound h0 hts.le_length (by omega)).mono ?_
      rintro cmd' k ⟨as, has, hamp, rfl⟩
      refine wp_ifToken h0 has.le_length (by decide) (by decide) (fun t us l _ ht hlt hread => ?_)
        fun l _ hread => ?_
      · have hij := hts.le
        have hjk := has.le
        have hl := hread.le_length
        rw [wp_bind]
        refine (ihline l hl (by omega)).mono ?_
        rintro right m ⟨vs, hvs, hline⟩
        refine ⟨_, hts.trans (has.trans (hread.trans hvs)), ?_⟩
        exact .list hpipe hamp ht hline
      · refine ⟨_, hts.trans (has.trans hread), ?_⟩
        rw [append_nil]
        exact .line hpipe hamp
    · rw [Parses, parsepipe, wp_bind]
      refine (ihexec i hi (by omega)).mono ?_
      rintro cmd j ⟨ts, hts, hexec⟩
      refine wp_ifToken h0 hts.le_length (by decide) (by decide) (fun t us k _ ht hlt hread => ?_)
        fun k _ hread => ?_
      · have hij := hts.le
        have hk := hread.le_length
        rw [wp_bind]
        refine (ihpipe k hk (by omega)).mono ?_
        rintro right l ⟨us, hus, hpipe⟩
        exact ⟨_, hts.trans (hread.trans hus), .pipe hexec ht hpipe⟩
      · refine ⟨_, hts.trans hread, ?_⟩
        rw [append_nil]
        exact .exec hexec
    · rw [Parses, parseexec]
      refine wp_ifPeek h0 hi (by decide) (fun j _ hread => ?_) fun j _ hread => ?_
      · have hij := hread.le
        refine (ihblock j hread.le_length (by omega)).mono ?_
        rintro cmd k ⟨ts, hts, hexec⟩
        exact ⟨_, hread.trans hts, hexec⟩
      · rw [wp_bind]
        refine (parseredirs_sound h0 hread.le_length).mono ?_
        rintro ret k ⟨ts, rs, hts, hredirs, rfl⟩
        refine (parseargs_sound h0 hts.le_length (by omega)
          (show ([] : List Span).length < MAXARGS by decide)).mono ?_
        rintro cmd l ⟨us, ws, rs', hus, hwords, hmax, rfl⟩
        exact ⟨ts ++ us, hread.trans (hts.trans hus), .simple hredirs hwords (Nat.le_pred_of_lt hmax)⟩
    · rw [Parses, parseblock]
      refine wp_ifToken h0 hi (by decide) (by decide) (fun l ts j _ hl hlt hread => ?_)
        fun j _ _ => ⟨nofun, nofun⟩
      have hj := hread.le_length
      rw [wp_bind]
      refine (ihline j hj (by omega)).mono ?_
      rintro cmd k ⟨us, hus, hline⟩
      refine wp_ifToken h0 hus.le_length (by decide) (by decide) (fun r vs m _ hr _ hread' => ?_)
        fun m _ _ => ⟨nofun, nofun⟩
      refine (parseredirs_sound h0 hread'.le_length).mono ?_
      rintro cmd' m' ⟨vs, rs, hvs, hredirs, rfl⟩
      exact ⟨_, hread.trans (hus.trans (hread'.trans hvs)), .block hl hline hr hredirs⟩

/-! ## Completeness -/

omit h0 in
theorem redirOf_first {op : UInt8} {w : Span} {r : Redir} (h : redirOf op w = some r) :
    first op ∈ [lt, gt] := by
  unfold redirOf at h
  split at h
  case isTrue hop => subst hop; decide
  split at h
  case isTrue hop => subst hop; decide
  split at h
  case isTrue hop => subst hop; decide
  cases h

variable {rs : List Redir} {ks : List UInt8}

omit h0 in
theorem Redirs.heads {ts rest : List Tok} (h : Redirs ts rs)
    (hrest : Heads ks rest) : Heads ([lt, gt] ++ ks) (ts ++ rest) := by
  cases h with
  | nil => exact hrest.mono (subset_append_right _ _)
  | cons hop hw h =>
    intro t ht
    cases ht
    exact mem_append_left _ (redirOf_first hop)

omit h0 in
theorem Words.heads {ts rest : List Tok} {ws : List Span}
    (h : Words ts ws rs) (hrest : Heads ks rest) : Heads (word :: ks) (ts ++ rest) := by
  cases h with
  | nil => exact hrest.mono (subset_cons_self _ _)
  | cons hw hts h =>
    intro t ht
    cases ht
    rw [hw]
    exact mem_cons_self

/-- The computation succeeds, reads the tokens `ts` and returns the command. -/
def Builds (s : List UInt8) (x : P Cmd) (i : ℕ) (ts : List Tok) (cmd : Cmd) : Prop :=
  wp x (fun _ => False) i fun cmd' j => Reads s i j ts ∧ cmd' = cmd

omit h0 in
theorem Reads.rest {ts rest : List Tok} (h : Reads s i j ts) (htoks : toks s i = ts ++ rest) :
    toks s j = rest := append_cancel_left (h.eq.symm.trans htoks)

theorem parseredirsLoop_complete {ts rest : List Tok} (h : Redirs ts rs)
    (hi : i ≤ s.length) (hn : s.length < i + n) (htoks : toks s i = ts ++ rest)
    (hrest : Starts [lt, gt] rest = false) : Builds s (parseredirsLoop s n cmd) i ts (wrap rs cmd) := by
  induction h generalizing i n cmd with
  | nil =>
    obtain ⟨n, rfl⟩ : ∃ m, n = m + 1 := ⟨n - 1, by omega⟩
    rw [← nil_append rest, ← htoks] at hrest
    exact wp_parseredirs_stop h0 hi hrest fun j hread => ⟨hread, rfl⟩
  | @cons op w r ts rs hop hw h ih =>
    obtain ⟨n, rfl⟩ : ∃ m, n = m + 1 := ⟨n - 1, by omega⟩
    refine wp_parseredirs_turn h0 hi htoks (redirOf_first hop) (fun hno => ?_)
      fun w' us r' j hus _ hr hlt hread => ?_
    · exact hno w _ rfl hw
    obtain ⟨rfl, rfl⟩ := List.cons.inj hus
    obtain rfl := Option.some.inj (hop.symm.trans hr)
    refine (ih hread.le_length (by omega) (hread.rest htoks)).mono ?_
    rintro cmd' j' ⟨hreads, rfl⟩
    exact ⟨hread.trans hreads, rfl⟩

theorem parseredirs_complete {ts rest : List Tok} (h : Redirs ts rs)
    (hi : i ≤ s.length) (htoks : toks s i = ts ++ rest) (hrest : Starts [lt, gt] rest = false) :
    Builds s (parseredirs s cmd) i ts (wrap rs cmd) :=
  parseredirsLoop_complete h0 h hi (by omega) htoks hrest

theorem parsebacks_complete {as rest : List Tok} (has : ∀ a ∈ as, a.kind = amp) (hi : i ≤ s.length)
    (hn : s.length < i + n) (htoks : toks s i = as ++ rest) (hrest : Starts [amp] rest = false) :
    Builds s (parsebacks s n cmd) i as (backs as.length cmd) := by
  induction as generalizing i n cmd with
  | nil =>
    obtain ⟨n, rfl⟩ : ∃ m, n = m + 1 := ⟨n - 1, by omega⟩
    rw [← nil_append rest, ← htoks] at hrest
    exact wp_token_neg h0 hi (by decide) hrest fun j hread => ⟨hread, rfl⟩
  | cons a as ih =>
    obtain ⟨n, rfl⟩ : ∃ m, n = m + 1 := ⟨n - 1, by omega⟩
    have ha : a.kind = amp := has a mem_cons_self
    rw [Builds, parsebacks, ← ha]
    refine wp_token_pos h0 hi (by rw [ha]; decide) (by rw [ha]; decide) htoks fun j hlt hread => ?_
    refine (ih (fun b hb => has b (mem_cons_of_mem _ hb)) hread.le_length (by omega)
      (hread.rest htoks)).mono ?_
    rintro cmd' j' ⟨hreads, rfl⟩
    exact ⟨hread.trans hreads, rfl⟩

theorem parseargs_complete {us rest : List Tok} {rs rs' : List Redir} {ws ws' : List Span}
    (h : Words us ws' rs') (hi : i ≤ s.length) (hn : s.length < i + n) (htoks : toks s i = us ++ rest)
    (hrest : Heads [bar, rparen, amp, semi] rest) (hmax : (ws ++ ws').length < MAXARGS) :
    Builds s (parseargs s n (wrap rs (.exec ws)) ws.length) i us
      (wrap (rs ++ rs') (.exec (ws ++ ws'))) := by
  obtain ⟨n, rfl⟩ : ∃ m, n = m + 1 := ⟨n - 1, by omega⟩
  induction h generalizing i n rs ws with
  | nil =>
    rw [← nil_append rest, ← htoks] at hrest
    rw [append_nil] at hmax
    refine wp_parseargs_stop h0 hi hmax hrest fun j hread => ⟨hread, ?_⟩
    rw [append_nil, append_nil]
  | @cons w ts us rs1 rs2 ws' hw hts h ih =>
    have hlen : (ws ++ w.span :: ws').length = ws.length + (ws'.length + 1) := by
      rw [length_append, length_cons]
    refine wp_parseargs_turn h0 hi htoks (by rw [hw]; decide) (by omega) (fun hne => hne hw)
      (fun _ hmany => by omega) fun j _ _ hlt hread => ?_
    have htoks1 : toks s j = ts ++ (us ++ rest) := by
      refine hread.rest ?_
      rw [htoks, append_assoc]
      rfl
    refine (parseredirs_complete h0 hts hread.le_length htoks1
      ((h.heads hrest).not_starts (by decide))).mono ?_
    rintro ret k ⟨hreads, rfl⟩
    have hle := hreads.le
    have hlen' : (ws ++ [w.span]).length = ws.length + 1 := by
      rw [length_append, length_singleton]
    obtain ⟨n, rfl⟩ : ∃ m, n = m + 1 := ⟨n - 1, by have := hreads.le_length; omega⟩
    have hih := @ih k (rs ++ rs1) (ws ++ [w.span]) hreads.le_length (hreads.rest htoks1)
      (by rwa [← append_cons]) n (by omega)
    rw [hlen', ← wrap_append, ← addArg_wrap] at hih
    refine hih.mono ?_
    rintro cmd' l ⟨hreads', rfl⟩
    refine ⟨(hread.trans hreads).trans hreads', ?_⟩
    rw [append_assoc rs, ← append_cons ws]

/-- The tokens that may follow what derives from a nonterminal. -/
def follow : Nonterm → List UInt8
  | .line => [rparen]
  | .pipe => [rparen, amp, semi]
  | .exec => [bar, rparen, amp, semi]

/-- The function that parses a nonterminal, and the fuel that it takes beyond four units for each byte. -/
def parse (s : List UInt8) : Nonterm → ℕ → P Cmd
  | .line => parseline s
  | .pipe => parsepipe s
  | .exec => parseexec s

@[inherit_doc parse]
def spare : Nonterm → ℕ
  | .line => 4
  | .pipe => 3
  | .exec => 2

omit h0 in
theorem heads_amps {as rest : List Tok} (has : ∀ a ∈ as, a.kind = amp)
    (hrest : Heads ks rest) : Heads (amp :: ks) (as ++ rest) := by
  cases as with
  | nil => exact hrest.mono (subset_cons_self _ _)
  | cons a as =>
    intro t ht
    cases ht
    rw [has a mem_cons_self]
    exact mem_cons_self

omit h0 in
theorem heads_cons {t : Tok} {c : UInt8} (ht : t.kind = c)
    (hc : first c ∈ ks) : Heads ks (t :: ts) := by
  intro t' ht'
  cases ht'
  rwa [ht]

theorem parse_complete {A : Nonterm} {ts rest : List Tok} (h : Derives A ts cmd) (hi : i ≤ s.length)
    (hn : 4 * (s.length - i) + spare A ≤ n) (htoks : toks s i = ts ++ rest)
    (hrest : Heads (follow A) rest) : Builds s (parse s A n) i ts cmd := by
  induction h generalizing i n rest with
  | @line ts as cmd hpipe has ih =>
    obtain ⟨n, rfl⟩ : ∃ m, n = m + 1 := ⟨n - 1, by simp only [spare] at hn; omega⟩
    simp only [spare] at hn ih
    rw [append_assoc] at htoks
    rw [Builds, parse, parseline, wp_bind]
    refine (ih hi (by omega) htoks ((heads_amps has hrest).mono (by decide))).mono ?_
    rintro cmd j ⟨hts, rfl⟩
    have hj := hts.le_length
    rw [wp_bind]
    refine (parsebacks_complete h0 has hj (by omega) (hts.rest htoks)
      (hrest.not_starts (by decide))).mono ?_
    rintro cmd' k ⟨has', rfl⟩
    have htoks' := has'.rest (hts.rest htoks)
    refine wp_token_neg h0 has'.le_length (by decide) ?_ fun l hread => ⟨?_, rfl⟩
    · rw [htoks']
      exact hrest.not_starts (by decide)
    · have hall := hts.trans (has'.trans hread)
      rwa [append_nil] at hall
  | @list ts as us sep cmd right hpipe has hsep hline ih ihline =>
    obtain ⟨n, rfl⟩ : ∃ m, n = m + 1 := ⟨n - 1, by simp only [spare] at hn; omega⟩
    simp only [spare] at hn ih ihline
    rw [append_assoc, append_assoc] at htoks
    have hsemi : Heads [semi] (sep :: us ++ rest) := heads_cons hsep (by decide)
    rw [Builds, parse, parseline, wp_bind]
    refine (ih hi (by omega) htoks ((heads_amps has hsemi).mono (by decide))).mono ?_
    rintro cmd j ⟨hts, rfl⟩
    have hij := hts.le
    have hj := hts.le_length
    rw [wp_bind]
    refine (parsebacks_complete h0 has hj (by omega) (hts.rest htoks)
      (hsemi.not_starts (by decide))).mono ?_
    rintro cmd' k ⟨has', rfl⟩
    have htoks' := has'.rest (hts.rest htoks)
    have hjk := has'.le
    rw [← hsep]
    refine wp_token_pos h0 has'.le_length (by rw [hsep]; decide) (by rw [hsep]; decide) htoks'
      fun l hlt hread => ?_
    have hl := hread.le_length
    rw [wp_bind]
    refine (ihline hl (by omega) (hread.rest htoks') hrest).mono ?_
    rintro right' m ⟨hus, rfl⟩
    exact ⟨hts.trans (has'.trans (hread.trans hus)), rfl⟩
  | @exec ts cmd hexec ih =>
    obtain ⟨n, rfl⟩ : ∃ m, n = m + 1 := ⟨n - 1, by simp only [spare] at hn; omega⟩
    simp only [spare] at hn ih
    rw [Builds, parse, parsepipe, wp_bind]
    refine (ih hi (by omega) htoks (hrest.mono (by decide))).mono ?_
    rintro cmd' j ⟨hts, rfl⟩
    refine wp_token_neg h0 hts.le_length (by decide) ?_ fun l hread => ⟨?_, rfl⟩
    · rw [hts.rest htoks]
      exact hrest.not_starts (by decide)
    · have hall := hts.trans hread
      rwa [append_nil] at hall
  | @pipe ts us sep cmd right hexec hsep hpipe ih ihpipe =>
    obtain ⟨n, rfl⟩ : ∃ m, n = m + 1 := ⟨n - 1, by simp only [spare] at hn; omega⟩
    simp only [spare] at hn ih ihpipe
    rw [append_assoc] at htoks
    have hbar : Heads [bar] (sep :: us ++ rest) := heads_cons hsep (by decide)
    rw [Builds, parse, parsepipe, wp_bind]
    refine (ih hi (by omega) htoks (hbar.mono (by decide))).mono ?_
    rintro cmd' j ⟨hts, rfl⟩
    have hij := hts.le
    have htoks' := hts.rest htoks
    rw [← hsep]
    refine wp_token_pos h0 hts.le_length (by rw [hsep]; decide) (by rw [hsep]; decide) htoks'
      fun l hlt hread => ?_
    have hl := hread.le_length
    rw [wp_bind]
    refine (ihpipe hl (by omega) (hread.rest htoks') hrest).mono ?_
    rintro right' m ⟨hus, rfl⟩
    exact ⟨hts.trans (hread.trans hus), rfl⟩
  | @block l r ts us cmd rs hl hline hr hus ih =>
    obtain ⟨n, rfl⟩ : ∃ m, n = m + 2 := ⟨n - 2, by simp only [spare] at hn; omega⟩
    simp only [spare] at hn ih
    rw [cons_append, append_assoc] at htoks
    rw [Builds, parse, parseexec]
    refine wp_ifPeek h0 hi (by decide) (fun j _ hblank => ?_) fun j hb _ => ?_
    · have hij := hblank.le
      have htoks1 : toks s j = l :: (ts ++ (r :: us ++ rest)) := hblank.rest htoks
      rw [parseblock, ← hl]
      refine wp_token_pos h0 hblank.le_length (by rw [hl]; decide) (by rw [hl]; decide) htoks1
        fun k hlt hread => ?_
      have hk := hread.le_length
      have htoks2 := hread.rest htoks1
      rw [wp_bind]
      refine (ih hk (by omega) htoks2 (heads_cons hr (by decide))).mono ?_
      rintro cmd' m ⟨hts, rfl⟩
      have htoks3 := hts.rest htoks2
      rw [← hr]
      refine wp_token_pos h0 hts.le_length (by rw [hr]; decide) (by rw [hr]; decide) htoks3
        fun m' hlt' hread' => ?_
      refine (parseredirs_complete h0 hus hread'.le_length (hread'.rest htoks3)
        (hrest.not_starts (by decide))).mono ?_
      rintro cmd'' m'' ⟨hus', rfl⟩
      exact ⟨hblank.trans (hread.trans (hts.trans (hread'.trans hus'))), rfl⟩
    · rw [htoks] at hb
      refine absurd ?_ (of_decide_eq_false hb)
      rw [hl]
      decide
  | @simple ts us rs rs' ws hts hus hk =>
    obtain ⟨n, rfl⟩ : ∃ m, n = m + 1 := ⟨n - 1, by simp only [spare] at hn; omega⟩
    rw [append_assoc] at htoks
    have hheads := hts.heads (hus.heads hrest)
    rw [Builds, parse, parseexec]
    refine wp_token_neg h0 hi (by decide) ?_ fun j hblank => ?_
    · rw [htoks]
      exact hheads.not_starts (by decide)
    have htoks1 := hblank.rest (show toks s i = [] ++ _ from htoks)
    rw [wp_bind]
    refine (parseredirs_complete h0 hts hblank.le_length htoks1
      ((hus.heads hrest).not_starts (by decide))).mono ?_
    rintro ret k ⟨hread, rfl⟩
    have hmax : ([] ++ ws).length < MAXARGS := Nat.lt_of_le_pred (by decide) hk
    refine (parseargs_complete h0 hus hread.le_length (by omega) (hread.rest htoks1) hrest hmax).mono ?_
    rintro cmd l ⟨hread', rfl⟩
    exact ⟨hblank.trans (hread.trans hread'), rfl⟩

/-! ## The whole line -/

theorem wp_parsetop_end (hi : i ≤ s.length) (hQ : toks s i = [] → Q cmd (skip s i))
    (hE : toks s i ≠ [] → E .leftovers) :
    wp (do let _ ← peek s []; if (← get) ≠ s.length then throw .leftovers else return cmd) E i Q := by
  change wp (if skip s i ≠ s.length then throw .leftovers else pure cmd) E (skip s i) Q
  rw [wp_ite, Ne, ← toks_eq_nil_iff h0 hi, not_not]
  exact ⟨hE, hQ⟩

theorem parsetop_sound : wp (parsetop s) Fault.IsPanic 0 fun cmd _ => Derives .line (tokens s) cmd := by
  rw [parsetop, wp_bind]
  refine ((parse_sound h0).1 0 (Nat.zero_le _) (by rw [enough]; omega)).mono ?_
  rintro cmd j ⟨ts, hts, hline⟩
  refine wp_parsetop_end h0 hts.le_length (fun hnil => ?_) fun _ => ⟨nofun, nofun⟩
  have heq := hts.eq
  rw [hnil, append_nil] at heq
  rwa [tokens, heq]

theorem parsetop_complete (h : Derives .line (tokens s) cmd) :
    wp (parsetop s) (fun _ => False) 0 fun cmd' _ => cmd' = cmd := by
  have htoks : toks s 0 = tokens s ++ [] := (append_nil _).symm
  rw [parsetop, wp_bind]
  have hline : Builds s (parse s .line (enough s)) 0 (tokens s) cmd :=
    parse_complete h0 h (Nat.zero_le _) (by rw [enough, spare]; omega) htoks nofun
  refine hline.mono ?_
  rintro cmd' j ⟨hts, rfl⟩
  exact wp_parsetop_end h0 hts.le_length (fun _ => rfl) fun hne => hne (hts.rest htoks)

end

theorem zero_notMem_line (buf : List UInt8) : 0 ∉ line buf := fun h => by
  simpa using mem_takeWhile_imp h

theorem derives_of_parsecmd {buf buf' : List UInt8} {cmd : Cmd} (h : parsecmd buf = .ok (cmd, buf')) :
    Derives .line (tokens (line buf)) cmd ∧ buf' = nulterminate cmd buf := by
  cases hrun : (parsetop (line buf)).run 0 with
  | error e => rw [parsecmd, hrun] at h; cases h
  | ok r =>
    rw [parsecmd, hrun] at h
    obtain ⟨rfl, rfl⟩ := Prod.mk.inj (Except.ok.inj h)
    exact ⟨(parsetop_sound (zero_notMem_line buf)).of_run_eq_ok hrun, rfl⟩

/-- `parsecmd` accepts exactly the lines whose tokens derive from `line`, and returns the tree of the
derivation. For all others it panics; it never indexes `argv` or `eargv` at or beyond `MAXARGS`, and it
terminates: the fuel does not run out. -/
theorem parsecmd_accepts_exactly_grammar (buf : List UInt8) :
    (∀ cmd, (∃ buf', parsecmd buf = .ok (cmd, buf')) ↔ Derives .line (tokens (line buf)) cmd) ∧
    ∀ e, parsecmd buf = .error e → e.IsPanic := by
  have h0 := zero_notMem_line buf
  refine ⟨fun cmd => ⟨?_, fun h => ?_⟩, fun e he => ?_⟩
  · rintro ⟨buf', h⟩
    exact (derives_of_parsecmd h).1
  · obtain ⟨cmd', j, hrun, rfl⟩ := (parsetop_complete h0 h).exists_ok
    exact ⟨nulterminate cmd' buf, by rw [parsecmd, hrun]; rfl⟩
  · cases hrun : (parsetop (line buf)).run 0 with
    | ok r => rw [parsecmd, hrun] at he; cases he
    | error e' =>
      rw [parsecmd, hrun] at he
      obtain rfl := Except.error.inj he
      exact (parsetop_sound h0).of_run_eq_error hrun

end Xv6.Sh
