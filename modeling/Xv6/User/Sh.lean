import Xv6.CString
import Xv6.Lib.Hoare
import Xv6.Lib.Writes

/-!
# The parser of the shell

Model of the parser of `user/sh.c`: `gettoken`, `peek`, the six parsing functions and `nulterminate`. A
`char *` into the command line is an offset into its bytes. `es` is the end of the string, at its NUL: all
functions get the bytes before it.

The parsing functions call each other without a bound that the code states, so their models take fuel, and
running out of it is a fault of its own.
-/

namespace Xv6.Sh

/-- `MAXARGS` -/
abbrev MAXARGS : ℕ := 10

/-- `char whitespace[] = " \t\r\n\v";` -/
def whitespace : List UInt8 := [32, 9, 13, 10, 11]

/-- `char symbols[] = "<|>&;()";` -/
def symbols : List UInt8 := [60, 124, 62, 38, 59, 40, 41]

/-- The values of `gettoken`: a symbol stands for itself, `'+'` for `>>`, `'a'` for a word, and 0 is the end
of the line. -/
abbrev bar : UInt8 := 124
@[inherit_doc bar] abbrev lparen : UInt8 := 40
@[inherit_doc bar] abbrev rparen : UInt8 := 41
@[inherit_doc bar] abbrev semi : UInt8 := 59
@[inherit_doc bar] abbrev amp : UInt8 := 38
@[inherit_doc bar] abbrev lt : UInt8 := 60
@[inherit_doc bar] abbrev gt : UInt8 := 62
@[inherit_doc bar] abbrev plus : UInt8 := 43
@[inherit_doc bar] abbrev word : UInt8 := 97

/-- The pointers `q` and `eq` to the two ends of a token. -/
structure Span where
  start : ℕ
  stop : ℕ
deriving DecidableEq

/-- `struct cmd` with its variants. `argv` and `eargv` of an `EXEC` are the ends of its arguments. -/
inductive Cmd where
  | exec (argv : List Span)
  | redir (cmd : Cmd) (file : Span) (mode fd : ℕ)
  | pipe (left right : Cmd)
  | list (left right : Cmd)
  | back (cmd : Cmd)
deriving DecidableEq

/-- The panics, and what must not happen. -/
inductive Fault where
  /-- "syntax", after the leftovers are printed -/
  | leftovers
  /-- "syntax" -/
  | badToken
  /-- "missing file for redirection" -/
  | missingFile
  /-- "parseblock" -/
  | parseblock
  /-- "syntax - missing )" -/
  | missingParen
  /-- "too many args" -/
  | tooManyArgs
  /-- `argv` or `eargv` is indexed at or beyond `MAXARGS` -/
  | bounds
  /-- the model ran out of fuel -/
  | fuel
deriving DecidableEq

/-- The fault is a call of `panic`. -/
def Fault.IsPanic (e : Fault) : Prop := e ≠ .bounds ∧ e ≠ .fuel

instance : DecidablePred Fault.IsPanic := fun _ => inferInstanceAs (Decidable (_ ∧ _))

/-- Computations on `*ps`. -/
abbrev P (α : Type) := StateT ℕ (Except Fault) α

/-- `O_RDONLY`, `O_WRONLY|O_CREATE|O_TRUNC` and `O_WRONLY|O_CREATE`. -/
abbrev rdonly : ℕ := 0
@[inherit_doc rdonly] abbrev create : ℕ := 0x001 ||| 0x200
@[inherit_doc rdonly] abbrev createTrunc : ℕ := 0x001 ||| 0x200 ||| 0x400

section

variable (s : List UInt8)

/-! ## Tokens -/

/-- `while(s < es && strchr(whitespace, *s)) s++;` -/
def skip (i : ℕ) : ℕ := i + ((s.drop i).takeWhile fun c => c ∈ whitespace).length

/-- `while(s < es && !strchr(whitespace, *s) && !strchr(symbols, *s)) s++;` -/
def wordEnd (i : ℕ) : ℕ :=
  i + ((s.drop i).takeWhile fun c => c ∉ whitespace ∧ c ∉ symbols).length

/-- The token at offset `i`, which is not white space: its value and its end. -/
def tokenAt (i : ℕ) : UInt8 × ℕ :=
  let c := s.getD i 0
  if c = 0 then (0, i)
  else if c ∈ [bar, lparen, rparen, semi, amp, lt] then (c, i + 1)
  else if c = gt then if s.getD (i + 1) 0 = gt then (plus, i + 2) else (gt, i + 1)
  else (word, wordEnd s i)

/-- `gettoken`: its value and the ends of the token. -/
def gettoken : P (UInt8 × Span) := do
  let i := skip s (← get)
  let (ret, e) := tokenAt s i
  set (skip s e)
  return (ret, ⟨i, e⟩)

/-- `peek`. -/
def peek (toks : List UInt8) : P Bool := do
  let i := skip s (← get)
  set i
  return s.getD i 0 ≠ 0 ∧ s.getD i 0 ∈ toks

/-! ## Commands -/

/-- The loop of `parseredirs`. -/
def parseredirsLoop : ℕ → Cmd → P Cmd
  | 0, _ => throw .fuel
  | n + 1, cmd => do
      if ← peek s [lt, gt] then do
        let (tok, _) ← gettoken s
        let (t, file) ← gettoken s
        if t ≠ word then throw .missingFile
        else if tok = lt then parseredirsLoop n (.redir cmd file rdonly 0)
        else if tok = gt then parseredirsLoop n (.redir cmd file createTrunc 1)
        else if tok = plus then parseredirsLoop n (.redir cmd file create 1)
        else parseredirsLoop n cmd
      else return cmd

/-- `parseredirs`. -/
def parseredirs (cmd : Cmd) : P Cmd := parseredirsLoop s (s.length + 1) cmd

/-- `cmd->argv[argc] = q; cmd->eargv[argc] = eq;`, for the `EXEC` inside the redirections. -/
def Cmd.addArg (w : Span) : Cmd → Cmd
  | exec argv => exec (argv ++ [w])
  | redir cmd file mode fd => redir (cmd.addArg w) file mode fd
  | cmd => cmd

/-- `cmd->argv[argc] = 0; cmd->eargv[argc] = 0; return ret;` -/
def endargs (ret : Cmd) (argc : ℕ) : P Cmd := if MAXARGS ≤ argc then throw .bounds else return ret

/-- The loop of `parseexec`, and the statements after it. -/
def parseargs : ℕ → Cmd → ℕ → P Cmd
  | 0, _, _ => throw .fuel
  | n + 1, ret, argc => do
      if ← peek s [bar, rparen, amp, semi] then endargs ret argc
      else do
        let (tok, w) ← gettoken s
        if tok = 0 then endargs ret argc
        else if tok ≠ word then throw .badToken
        else if MAXARGS ≤ argc then throw .bounds
        else if MAXARGS ≤ argc + 1 then throw .tooManyArgs
        else do
          let ret ← parseredirs s (ret.addArg w)
          parseargs n ret (argc + 1)

/-- The loop of `parseline` over `&`. -/
def parsebacks : ℕ → Cmd → P Cmd
  | 0, _ => throw .fuel
  | n + 1, cmd => do
      if ← peek s [amp] then do
        let _ ← gettoken s
        parsebacks n (.back cmd)
      else return cmd

mutual

/-- `parseline`. -/
def parseline : ℕ → P Cmd
  | 0 => throw .fuel
  | n + 1 => do
      let cmd ← parsepipe n
      let cmd ← parsebacks s (s.length + 1) cmd
      if ← peek s [semi] then do
        let _ ← gettoken s
        let right ← parseline n
        return .list cmd right
      else return cmd

/-- `parsepipe`. -/
def parsepipe : ℕ → P Cmd
  | 0 => throw .fuel
  | n + 1 => do
      let cmd ← parseexec n
      if ← peek s [bar] then do
        let _ ← gettoken s
        let right ← parsepipe n
        return .pipe cmd right
      else return cmd

/-- `parseexec`. -/
def parseexec : ℕ → P Cmd
  | 0 => throw .fuel
  | n + 1 => do
      if ← peek s [lparen] then parseblock n
      else do
        let ret ← parseredirs s (.exec [])
        parseargs s (s.length + 1) ret 0

/-- `parseblock`. -/
def parseblock : ℕ → P Cmd
  | 0 => throw .fuel
  | n + 1 => do
      if ← peek s [lparen] then do
        let _ ← gettoken s
        let cmd ← parseline n
        if ← peek s [rparen] then do
          let _ ← gettoken s
          parseredirs s cmd
        else throw .missingParen
      else throw .parseblock

end

end

/-! ## Termination of the words -/

/-- `*e = 0;` -/
def put (buf : List UInt8) (e : ℕ) : List UInt8 := buf.set e 0

/-- `nulterminate`. -/
def nulterminate : Cmd → List UInt8 → List UInt8
  | .exec argv, buf => argv.foldl (fun buf w => put buf w.stop) buf
  | .redir cmd file _ _, buf => put (nulterminate cmd buf) file.stop
  | .pipe left right, buf => nulterminate right (nulterminate left buf)
  | .list left right, buf => nulterminate right (nulterminate left buf)
  | .back cmd, buf => nulterminate cmd buf

/-- The bytes of the string at `buf`, before its NUL. -/
def line (buf : List UInt8) : List UInt8 := Xv6.text buf

/-- Fuel that is enough for a line: four calls for each byte, and four for the end. -/
def enough (s : List UInt8) : ℕ := 4 * s.length + 4

/-- `parsecmd` up to `nulterminate`. -/
def parsetop (s : List UInt8) : P Cmd := do
  let cmd ← parseline s (enough s)
  let _ ← peek s []
  if (← get) ≠ s.length then throw .leftovers else return cmd

/-- `parsecmd(s)` on the buffer `buf`: the command and the buffer. -/
def parsecmd (buf : List UInt8) : Except Fault (Cmd × List UInt8) :=
  ((parsetop (line buf)).run 0).map fun (cmd, _) => (cmd, nulterminate cmd buf)

end Xv6.Sh
