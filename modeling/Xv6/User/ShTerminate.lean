import Xv6.User.ShGrammar

/-!
# The words after `nulterminate`

`nulterminate` writes a NUL at the end of each word of the tree, into the buffer that holds the line. Since
the bytes of a word are neither white space nor symbols, and the byte at the end of a word is white space,
a symbol or the NUL of the line, no such write changes a byte of a word: each word becomes a string of its
own.
-/

namespace Xv6.Sh

open Lib List

/-- The arguments and file names of a command, in the order of `nulterminate`. -/
def Cmd.words : Cmd → List Span
  | exec argv => argv
  | redir cmd file _ _ => cmd.words ++ [file]
  | pipe left right => left.words ++ right.words
  | list left right => left.words ++ right.words
  | back cmd => cmd.words

/-- The text between the ends of a token. -/
def text (s : List UInt8) (w : Span) : List UInt8 := (s.drop w.start).take (w.stop - w.start)

theorem nulterminate_eq (cmd : Cmd) (buf : List UInt8) :
    nulterminate cmd buf = cmd.words.foldl (fun buf w => put buf w.stop) buf := by
  induction cmd generalizing buf with
  | exec argv => rfl
  | redir cmd file mode fd ih => rw [nulterminate, ih, Cmd.words, foldl_append]; rfl
  | pipe left right ihl ihr | list left right ihl ihr =>
    rw [nulterminate, ihl, ihr, Cmd.words, foldl_append]
  | back cmd ih => exact ih buf

/-! ## The words of the tree are tokens -/

/-- The token is the word between these ends. -/
abbrev wordTok (w : Span) : Tok := ⟨word, w⟩

theorem words_wrap (rs : List Redir) (cmd : Cmd) :
    (wrap rs cmd).words = cmd.words ++ rs.map Redir.file := by
  induction rs generalizing cmd with
  | nil => exact (append_nil _).symm
  | cons r rs ih =>
    change (wrap rs (.redir cmd r.file r.mode r.fd)).words = _
    rw [ih, Cmd.words, append_assoc]
    rfl

theorem words_backs (n : ℕ) (cmd : Cmd) : (backs n cmd).words = cmd.words := by
  induction n generalizing cmd with
  | zero => rfl
  | succ n ih => exact ih (.back cmd)

theorem redirOf_file {op : UInt8} {w : Span} {r : Redir} (h : redirOf op w = some r) : r.file = w := by
  unfold redirOf at h
  split at h
  · exact (Option.some.inj h) ▸ rfl
  split at h
  · exact (Option.some.inj h) ▸ rfl
  split at h
  · exact (Option.some.inj h) ▸ rfl
  · cases h

variable {ts : List Tok}

theorem Redirs.mem {rs : List Redir} (h : Redirs ts rs) : ∀ w ∈ rs.map Redir.file, wordTok w ∈ ts := by
  induction h with
  | nil => nofun
  | @cons op w r ts rs hop hw h ih =>
    rw [map_cons, forall_mem_cons, redirOf_file hop]
    refine ⟨?_, fun v hv => mem_cons_of_mem _ (mem_cons_of_mem _ (ih v hv))⟩
    rw [wordTok, ← hw]
    exact mem_cons_of_mem _ mem_cons_self

variable {ws : List Span}

theorem Words.mem {rs : List Redir} (h : Words ts ws rs) :
    ∀ w ∈ ws ++ rs.map Redir.file, wordTok w ∈ ts := by
  induction h with
  | nil => nofun
  | @cons w ts us rs rs' ws hw hts h ih =>
    intro v hv
    rw [map_append, cons_append, mem_cons, mem_append, mem_append] at hv
    rw [cons_append, mem_cons, mem_append]
    rcases hv with rfl | hv | hv | hv
    · rw [wordTok, ← hw]
      exact .inl rfl
    · exact .inr (.inr (ih v (mem_append_left _ hv)))
    · exact .inr (.inl (hts.mem v hv))
    · exact .inr (.inr (ih v (mem_append_right _ hv)))

theorem Derives.mem {A : Nonterm} {cmd : Cmd} (h : Derives A ts cmd) :
    ∀ w ∈ cmd.words, wordTok w ∈ ts := by
  induction h with
  | line h has ih =>
    intro w hw
    rw [words_backs] at hw
    exact mem_append_left _ (ih w hw)
  | list h has hsep h' ih ih' =>
    intro w hw
    rw [Cmd.words, words_backs, mem_append] at hw
    rcases hw with hw | hw
    · exact mem_append_left _ (ih w hw)
    · exact mem_append_right _ (mem_append_right _ (mem_cons_of_mem _ (ih' w hw)))
  | exec h ih => exact ih
  | pipe h hsep h' ih ih' =>
    intro w hw
    rw [Cmd.words, mem_append] at hw
    rcases hw with hw | hw
    · exact mem_append_left _ (ih w hw)
    · exact mem_append_right _ (mem_cons_of_mem _ (ih' w hw))
  | block hl h hr hus ih =>
    intro w hw
    rw [words_wrap, mem_append] at hw
    refine mem_cons_of_mem _ ?_
    rcases hw with hw | hw
    · exact mem_append_left _ (ih w hw)
    · exact mem_append_right _ (mem_cons_of_mem _ (hus.mem w hw))
  | @simple ts us rs rs' ws hts hus hk =>
    intro w hw
    rw [words_wrap, Cmd.words, map_append, mem_append, mem_append] at hw
    rcases hw with hw | hw | hw
    · exact mem_append_right _ (hus.mem w (mem_append_left _ hw))
    · exact mem_append_left _ (hts.mem w hw)
    · exact mem_append_right _ (hus.mem w (mem_append_right _ hw))

/-! ## The bytes of a word -/

/-- Between the ends there is a word, as `gettoken` delimits it. -/
structure WordAt (s : List UInt8) (w : Span) : Prop where
  le : w.start ≤ w.stop
  le_length : w.stop ≤ s.length
  inside : ∀ k c, w.start ≤ k → k < w.stop → s[k]? = some c → c ∉ whitespace ∧ c ∉ symbols
  outside : ∀ c, s[w.stop]? = some c → c ∈ whitespace ∨ c ∈ symbols

section

variable {s : List UInt8} {i j k n : ℕ} {w w' : Span}

theorem wordAt_tokenAt (hj : j ≤ s.length) (h : (tokenAt s j).1 = word) :
    WordAt s ⟨j, (tokenAt s j).2⟩ := by
  have hstop : (tokenAt s j).2 = wordEnd s j := by
    unfold tokenAt at h ⊢
    dsimp only at h ⊢
    split at h
    · cases h
    split at h
    next hsym =>
      change s.getD j 0 = word at h
      rw [h] at hsym
      exact absurd hsym (by decide)
    split at h
    · split at h <;> cases h
    next h1 h2 h3 => rw [if_neg h1, if_neg h2, if_neg h3]
  rw [hstop]
  refine ⟨Nat.le_add_right _ _, wordEnd_le hj, fun k c hle hlt hc => ?_, fun c hc => ?_⟩
  · exact of_decide_eq_true (getElem?_takeWhile hle hlt hc)
  · have hend := of_decide_eq_false (getElem?_takeWhile_end hc)
    by_contra hno
    exact hend (not_or.mp hno)

theorem wordAt_of_mem_tokensFrom (h0 : 0 ∉ s) (hi : i ≤ s.length)
    (h : wordTok w ∈ tokensFrom s n i) : WordAt s w := by
  induction n generalizing i with
  | zero => cases h
  | succ n ih =>
    rw [tokensFrom] at h
    split at h
    · cases h
    next hne =>
      rcases token_cases h0 hi with ⟨_, htok⟩ | ⟨_, _, _, _, _, _, hle⟩
      · rw [htok] at hne
        exact absurd rfl hne
      rcases mem_cons.mp h with h | h
      · obtain ⟨hkind, rfl⟩ := Tok.mk.inj h
        exact wordAt_tokenAt (skip_le hi) hkind.symm
      · exact ih hle h

theorem wordAt_of_mem_tokens (h0 : 0 ∉ s) (h : wordTok w ∈ tokens s) : WordAt s w :=
  wordAt_of_mem_tokensFrom h0 (Nat.zero_le _) h

theorem WordAt.stop_notMem (h : WordAt s w) (h' : WordAt s w') :
    ¬ (w.start ≤ w'.stop ∧ w'.stop < w.stop) := by
  rintro ⟨hle, hlt⟩
  have hlen : w'.stop < s.length := lt_of_lt_of_le hlt h.le_length
  have hc := getElem?_eq_getElem hlen
  have hin := h.inside _ _ hle hlt hc
  exact (h'.outside _ hc).elim hin.1 hin.2

end

/-! ## The buffer -/

section

variable {buf : List UInt8} {k : ℕ}

theorem foldl_put_ne (h : ∀ w ∈ ws, w.stop ≠ k) :
    (ws.foldl (fun buf w => put buf w.stop) buf)[k]? = buf[k]? := by
  induction ws generalizing buf with
  | nil => rfl
  | cons w ws ih =>
    rw [forall_mem_cons] at h
    rw [foldl_cons, ih h.2, put, getElem?_set_ne h.1]

theorem foldl_put_eq (hk : k < buf.length) (h : ∃ w ∈ ws, w.stop = k) :
    (ws.foldl (fun buf w => put buf w.stop) buf)[k]? = some 0 := by
  induction ws generalizing buf with
  | nil => obtain ⟨_, hmem, _⟩ := h; cases hmem
  | cons w ws ih =>
    rw [foldl_cons]
    by_cases hws : ∃ v ∈ ws, v.stop = k
    · exact ih (by rwa [put, length_set]) hws
    · rw [foldl_put_ne fun v hv hvk => hws ⟨v, hv, hvk⟩]
      obtain ⟨v, hv, hvk⟩ := h
      rcases mem_cons.mp hv with rfl | hv
      · rw [put, hvk, getElem?_set_self hk]
      · exact absurd ⟨v, hv, hvk⟩ hws

theorem line_cons {c : UInt8} (hc : c ≠ 0) : line (c :: buf) = c :: line buf := by
  simp [line, Xv6.text, hc]

theorem line_eq {t : List UInt8} (ht : ∀ k < t.length, buf[k]? = t[k]?) (h0 : 0 ∉ t)
    (hnul : buf[t.length]? = some 0) : line buf = t := by
  induction t generalizing buf with
  | nil =>
    obtain ⟨rest, rfl⟩ := head?_eq_some_iff.mp (head?_eq_getElem? ▸ hnul)
    rfl
  | cons c t ih =>
    have hhead := ht 0 (Nat.zero_lt_succ _)
    rw [getElem?_cons_zero] at hhead
    obtain ⟨rest, rfl⟩ := head?_eq_some_iff.mp (head?_eq_getElem? ▸ hhead)
    rw [mem_cons, not_or] at h0
    rw [line_cons fun h => h0.1 h.symm]
    refine congrArg (c :: ·) (ih (fun k hk => ?_) h0.2 hnul)
    exact ht (k + 1) (Nat.succ_lt_succ hk)

theorem exists_of_nul (hnul : 0 ∈ buf) : ∃ rest, buf = line buf ++ 0 :: rest := by
  induction buf with
  | nil => cases hnul
  | cons c buf ih =>
    by_cases hc : c = 0
    · exact ⟨buf, by rw [hc]; rfl⟩
    · have hmem := (mem_cons.mp hnul).resolve_left fun h => hc h.symm
      obtain ⟨rest, hrest⟩ := ih hmem
      refine ⟨rest, ?_⟩
      rw [line_cons hc, cons_append]
      exact congrArg (c :: ·) hrest

end

theorem line_foldl_put {buf : List UInt8} {w : Span} (hnul : 0 ∈ buf)
    (hws : ∀ v ∈ ws, WordAt (line buf) v) (hw : w ∈ ws) :
    line ((ws.foldl (fun buf w => put buf w.stop) buf).drop w.start) = text (line buf) w := by
  obtain ⟨rest, hbuf⟩ := exists_of_nul hnul
  have h0 := zero_notMem_line buf
  have hwat := hws w hw
  have hle := hwat.le
  have hlength := hwat.le_length
  have hlen : (text (line buf) w).length = w.stop - w.start := by
    rw [text, length_take, length_drop]
    omega
  refine line_eq (fun k hk => ?_) (fun h => ?_) ?_
  · -- a byte of the word: no end of a word is here
    rw [hlen] at hk
    rw [getElem?_drop, foldl_put_ne fun v hv heq => ?_]
    · rw [text, getElem?_take, if_pos hk, getElem?_drop]
      have hget := congrArg (·[w.start + k]?) hbuf
      exact hget.trans (getElem?_append_left (by omega))
    · exact hwat.stop_notMem (hws v hv) ⟨by omega, by omega⟩
  · exact h0 (mem_of_mem_drop (mem_of_mem_take h))
  · have hstop : w.start + (w.stop - w.start) = w.stop := by omega
    rw [hlen, getElem?_drop, hstop]
    refine foldl_put_eq ?_ ⟨w, hw, rfl⟩
    have hlen' := congrArg length hbuf
    rw [length_append, length_cons] at hlen'
    omega

/-- After `nulterminate` the string at the start of each argument and of each file name is the text of a
word as `gettoken` delimits it. The NULs are written at the ends of the words, within the line and its
NUL, and none of them inside a word. -/
theorem nulterminate_words_intact (buf : List UInt8) (hnul : 0 ∈ buf) (cmd : Cmd) (buf' : List UInt8)
    (h : parsecmd buf = .ok (cmd, buf')) :
    buf' = cmd.words.foldl (fun buf w => put buf w.stop) buf ∧
    ∀ w ∈ cmd.words, ⟨word, w⟩ ∈ tokens (line buf) ∧
      line (buf'.drop w.start) = text (line buf) w ∧
      w.stop < (line buf).length + 1 ∧
      ∀ w' ∈ cmd.words, ¬ (w'.start ≤ w.stop ∧ w.stop < w'.stop) := by
  obtain ⟨hline, hbuf'⟩ := derives_of_parsecmd h
  rw [nulterminate_eq] at hbuf'
  have hmem := hline.mem
  have hat : ∀ w ∈ cmd.words, WordAt (line buf) w := fun w hw =>
    wordAt_of_mem_tokens (zero_notMem_line buf) (hmem w hw)
  refine ⟨hbuf', fun w hw => ⟨hmem w hw, ?_, ?_, fun w' hw' => ?_⟩⟩
  · rw [hbuf']
    exact line_foldl_put hnul hat hw
  · exact Nat.lt_succ_of_le (hat w hw).le_length
  · exact (hat w' hw').stop_notMem (hat w hw)

/-- The line `a>b|c`. -/
theorem nulterminate_words_intact_adjacent :
    parsecmd [97, 62, 98, 124, 99, 0] =
      .ok (.pipe (.redir (.exec [⟨0, 1⟩]) ⟨2, 3⟩ createTrunc 1) (.exec [⟨4, 5⟩]),
        [97, 0, 98, 0, 99, 0]) ∧
    ∀ w ∈ [(⟨0, 1⟩ : Span), ⟨2, 3⟩, ⟨4, 5⟩],
      line (([97, 0, 98, 0, 99, 0] : List UInt8).drop w.start) =
        text (line [97, 62, 98, 124, 99, 0]) w := by
  have h : parsecmd [97, 62, 98, 124, 99, 0] =
      .ok (.pipe (.redir (.exec [⟨0, 1⟩]) ⟨2, 3⟩ createTrunc 1) (.exec [⟨4, 5⟩]),
        [97, 0, 98, 0, 99, 0]) := by decide +kernel
  exact ⟨h, fun w hw => ((nulterminate_words_intact _ (by decide) _ _ h).2 w hw).2.1⟩

end Xv6.Sh
