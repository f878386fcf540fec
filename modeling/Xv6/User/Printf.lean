import Mathlib.Data.Nat.Digits.Lemmas
import Xv6.CString

/-!
# `printf` of the user library

`printint`, `printptr` and `vprintf` of `user/printf.c`, as the bytes they write. An argument is the
64-bit word in the argument list, or for a string the object its pointer points to. `printint_decimal`
says that `%d` prints the decimal representation.
-/

namespace Xv6.User

open List

/-- The byte of a character. -/
def ch (c : Char) : UInt8 := UInt8.ofNat c.toNat

/-- `digits[d]` -/
def digit (d : ℕ) : UInt8 := UInt8.ofNat (if d < 10 then 48 + d else 55 + d)

/-- The `do` loop of `printint`: the digits of `x`, least significant first. An unsigned 32-bit
number has at most 32 digits. -/
def digitsLoop (base : ℕ) : ℕ → ℕ → List UInt8
  | 0, _ => []
  | k + 1, x => digit (x % base) :: if x / base = 0 then [] else digitsLoop base k (x / base)

/-- `printint(fd, xx, base, sgn)`. -/
def printint (xx : BitVec 32) (base : ℕ) (sgn : Bool) : List UInt8 :=
  let neg := sgn && decide (xx.toInt < 0)
  let x := if neg then -xx else xx
  ((digitsLoop base 32 x.toNat) ++ if neg then [ch '-'] else []).reverse

/-- `printptr(fd, x)`. -/
def printptr (x : BitVec 64) : List UInt8 :=
  ch '0' :: ch 'x' :: (List.range 16).map fun i => digit ((x <<< (4 * i)) >>> 60).toNat

/-- An argument of `printf`. -/
inductive Arg where
  | word (w : BitVec 64)
  | str (s : Option (List UInt8))

/-- The argument list holds an `int`, sign-extended. -/
def Arg.int (v : ℤ) : Arg := .word (BitVec.ofInt 64 v)

/-- `%s`: the text of the string. -/
def printstr : Option (List UInt8) → Option (List UInt8)
  | none => some (text (literal "(null)"))
  | some s => (strlen s).map s.take

/-- `vprintf`, from a format position on; `percent` is the `state` variable. `none` is a missing
argument or a string that is read past the end of its object. -/
def vprintf : List UInt8 → Bool → List Arg → Option (List UInt8)
  | [], _, _ => some []
  | c :: fmt, false, ap =>
    if c = ch '%' then vprintf fmt true ap else (vprintf fmt false ap).map (c :: ·)
  | c :: fmt, true, ap =>
    if c = ch 'd' then
      match ap with
      | .word w :: ap => (vprintf fmt false ap).map (printint (w.setWidth 32) 10 true ++ ·)
      | _ => none
    else if c = ch 'l' then
      match ap with
      | .word w :: ap => (vprintf fmt false ap).map (printint (w.setWidth 32) 10 false ++ ·)
      | _ => none
    else if c = ch 'x' then
      match ap with
      | .word w :: ap => (vprintf fmt false ap).map (printint (w.setWidth 32) 16 false ++ ·)
      | _ => none
    else if c = ch 'p' then
      match ap with
      | .word w :: ap => (vprintf fmt false ap).map (printptr w ++ ·)
      | _ => none
    else if c = ch 's' then
      match ap with
      | .str s :: ap => (printstr s).bind fun out => (vprintf fmt false ap).map (out ++ ·)
      | _ => none
    else if c = ch 'c' then
      match ap with
      | .word w :: ap => (vprintf fmt false ap).map (UInt8.ofNat w.toNat :: ·)
      | _ => none
    else if c = ch '%' then (vprintf fmt false ap).map (c :: ·)
    else (vprintf fmt false ap).map (ch '%' :: c :: ·)

/-- `printf(fmt, ...)`: the bytes written to standard output. -/
def printf (fmt : String) (ap : List Arg) : Option (List UInt8) := vprintf (text (literal fmt)) false ap

/-! ## Decimal output -/

/-- The decimal representation of a number. -/
def decimal (n : ℕ) : List UInt8 :=
  if n = 0 then [ch '0'] else ((Nat.digits 10 n).map digit).reverse

theorem digitsLoop_eq {base : ℕ} (hb : 1 < base) {k x : ℕ} (hx : x < base ^ (k + 1)) :
    digitsLoop base (k + 1) x = if x = 0 then [digit 0] else (Nat.digits base x).map digit := by
  induction k generalizing x with
  | zero =>
    have hlt : x < base := by simpa using hx
    have hdiv : x / base = 0 := Nat.div_eq_of_lt hlt
    by_cases h0 : x = 0
    · simp [digitsLoop, h0]
    · simp [digitsLoop, h0, hdiv, Nat.mod_eq_of_lt hlt, Nat.digits_of_lt base x h0 hlt]
  | succ k ih =>
    rw [digitsLoop]
    have hlt : x / base < base ^ (k + 1) := by
      rw [pow_succ] at hx
      exact Nat.div_lt_of_lt_mul (by rwa [Nat.mul_comm])
    by_cases h0 : x = 0
    · simp [h0]
    · rw [if_neg h0, Nat.digits_def' hb (Nat.pos_of_ne_zero h0), map_cons]
      congr 1
      by_cases hdiv : x / base = 0
      · simp [hdiv]
      · rw [if_neg hdiv, ih hlt, if_neg hdiv]

theorem digitsLoop_word {base : ℕ} (hb : 10 ≤ base) (x : BitVec 32) : digitsLoop base 32 x.toNat =
      if x.toNat = 0 then [digit 0] else (Nat.digits base x.toNat).map digit := by
  refine digitsLoop_eq (by omega) ?_
  calc x.toNat < 2 ^ 32 := x.isLt
    _ ≤ base ^ (31 + 1) := Nat.pow_le_pow_left (by omega) _

theorem reverse_digitsLoop (x : BitVec 32) : (digitsLoop 10 32 x.toNat).reverse = decimal x.toNat := by
  rw [digitsLoop_word (Nat.le_refl 10), decimal]
  split
  · rfl
  · rfl

/-- The signed decimal representation. -/
def signedDecimal (v : ℤ) : List UInt8 :=
  if v < 0 then ch '-' :: decimal v.natAbs else decimal v.natAbs

theorem printint_signed (x : BitVec 32) : printint x 10 true = signedDecimal x.toInt := by
  have hlt := x.isLt
  have hval := BitVec.toInt_eq_toNat_cond x
  by_cases hneg : x.toInt < 0
  · have habs : (-x).toNat = x.toInt.natAbs := by
      rw [BitVec.toNat_neg]
      split at hval <;> omega
    rw [signedDecimal, if_pos hneg, ← habs, ← reverse_digitsLoop]
    simp only [printint, hneg, decide_true, Bool.and_self, if_true, reverse_append,
      reverse_singleton, singleton_append]
  · have habs : x.toNat = x.toInt.natAbs := by
      split at hval <;> omega
    rw [signedDecimal, if_neg hneg, ← habs, ← reverse_digitsLoop]
    simp only [printint, hneg, decide_false, Bool.and_false, Bool.false_eq_true, if_false, append_nil]

theorem toInt_ofNat_of_lt {n : ℕ} (hn : n < 2 ^ 31) : (BitVec.ofNat 32 n).toInt = n := by
  have hnat : (BitVec.ofNat 32 n).toNat = n := by
    rw [BitVec.toNat_ofNat]
    exact Nat.mod_eq_of_lt (by omega)
  rw [BitVec.toInt_eq_toNat_of_lt (by rw [hnat]; omega), hnat]

theorem printint_decimal {n : ℕ} (hn : n < 2 ^ 31) :
    printint (BitVec.ofNat 32 n) 10 true = decimal n := by
  rw [printint_signed, toInt_ofNat_of_lt hn, signedDecimal, if_neg (by omega), Int.natAbs_natCast]

/-! ## The conversions -/

/-- The hexadecimal representation of a number. -/
def hexadecimal (n : ℕ) : List UInt8 :=
  if n = 0 then [ch '0'] else ((Nat.digits 16 n).map digit).reverse

/-- "0x" and the 16 hexadecimal digits of a 64-bit word. -/
def hexDigits (n : ℕ) : List UInt8 :=
  ch '0' :: ch 'x' :: (List.range 16).map fun i => digit (n / 16 ^ (15 - i) % 16)

theorem printint_unsigned (x : BitVec 32) :
    printint x 10 false = decimal x.toNat ∧ printint x 16 false = hexadecimal x.toNat := by
  simp only [printint, Bool.false_and, Bool.false_eq_true, if_false, append_nil]
  refine ⟨reverse_digitsLoop x, ?_⟩
  rw [digitsLoop_word (by decide), hexadecimal]
  split
  · rfl
  · rfl

theorem printptr_eq (x : BitVec 64) : printptr x = hexDigits x.toNat := by
  unfold printptr hexDigits
  congr 2
  refine map_congr_left fun i hi => congrArg digit ?_
  have hlt : i < 16 := by simpa using hi
  have hword : 2 ^ 64 = 2 ^ (64 - 4 * i) * 2 ^ (4 * i) := by rw [← pow_add]; congr 1; omega
  have htop : 2 ^ 60 = 2 ^ (60 - 4 * i) * 2 ^ (4 * i) := by rw [← pow_add]; congr 1; omega
  have hrest : 2 ^ (64 - 4 * i) = 2 ^ (60 - 4 * i) * 16 := by
    rw [show 16 = 2 ^ 4 from rfl, ← pow_add]; congr 1; omega
  have hpow : 16 ^ (15 - i) = 2 ^ (60 - 4 * i) := by
    rw [show 16 = 2 ^ 4 from rfl, ← pow_mul]; congr 1; omega
  rw [BitVec.toNat_ushiftRight, BitVec.toNat_shiftLeft, Nat.shiftLeft_eq, Nat.shiftRight_eq_div_pow,
    hpow, hword, Nat.mul_mod_mul_right, htop, Nat.mul_div_mul_right _ _ (by positivity), hrest,
    Nat.mod_mul_right_div_self]

theorem length_printint_le {base : ℕ} (hb : 10 ≤ base) (x : BitVec 32) (sgn : Bool) :
    (printint x base sgn).length ≤ 11 := by
  have hdigits : ∀ y : BitVec 32, (digitsLoop base 32 y.toNat).length ≤ 10 := fun y => by
    rw [digitsLoop_word hb]
    split
    · decide
    · rw [length_map, Nat.digits_length_le_iff (by omega)]
      calc y.toNat < 2 ^ 32 := y.isLt
        _ ≤ 10 ^ 10 := by norm_num
        _ ≤ base ^ 10 := Nat.pow_le_pow_left hb _
  simp only [printint, length_reverse, length_append]
  split
  · exact Nat.add_le_add (hdigits (-x)) (Nat.le_refl 1)
  · exact (hdigits x).trans (by decide)

/-- The number that decimal digits stand for. -/
def decimalValue (bs : List UInt8) : ℕ := Nat.ofDigits 10 (bs.reverse.map fun c => c.toNat - 48)

theorem decimalValue_decimal (n : ℕ) : decimalValue (decimal n) = n := by
  unfold decimalValue decimal
  split
  · next h => rw [h]; rfl
  · rw [reverse_reverse, map_map]
    conv_rhs => rw [← Nat.ofDigits_digits 10 n]
    congr 1
    refine (map_congr_left fun d hd => ?_).trans (map_id _)
    have hlt : d < 10 := Nat.digits_lt_base (by decide) hd
    have hbyte : (48 + d) % 2 ^ 8 = 48 + d := Nat.mod_eq_of_lt (by omega)
    simp only [Function.comp_apply, digit, if_pos hlt, UInt8.toNat_ofNat', hbyte, id]
    omega

/-- `%d`, `%x` and `%p` of the argument word `w` print its value, and `printint` stays within `buf`. -/
structure Formats (w : BitVec 64) : Prop where
  decimal : ∀ fmt ap, vprintf (ch 'd' :: fmt) true (.word w :: ap) =
    (vprintf fmt false ap).map (signedDecimal (w.setWidth 32).toInt ++ ·)
  hexadecimal : ∀ fmt ap, vprintf (ch 'x' :: fmt) true (.word w :: ap) =
    (vprintf fmt false ap).map (hexadecimal (w.setWidth 32).toNat ++ ·)
  pointer : ∀ fmt ap, vprintf (ch 'p' :: fmt) true (.word w :: ap) =
    (vprintf fmt false ap).map (hexDigits w.toNat ++ ·)
  buffer : ∀ sgn, (printint (w.setWidth 32) 10 sgn).length ≤ 16 ∧
    (printint (w.setWidth 32) 16 sgn).length ≤ 16

/-- `%l` of the argument word `w` prints its value. -/
def FormatsLong (w : BitVec 64) : Prop := ∀ fmt ap,
  vprintf (ch 'l' :: fmt) true (.word w :: ap) = (vprintf fmt false ap).map (decimal w.toNat ++ ·)

/-- `%l` of 2³² prints 0: the value passes through the `int` parameter of `printint`. -/
theorem long_truncated :
    printf "%l" [.word 0x100000000] = some [ch '0'] ∧ decimal 0x100000000 ≠ [ch '0'] ∧
      ¬ FormatsLong 0x100000000 := by
  have hne : decimal 0x100000000 ≠ [ch '0'] := fun h => by
    have := decimalValue_decimal 0x100000000
    rw [h] at this
    cases this
  refine ⟨by decide, hne, fun h => hne ?_⟩
  have hl : some [ch '0'] = some (decimal 0x100000000 ++ []) := h [] []
  simpa using hl.symm

/-- What `%l` prints is the value of the low 32 bits. -/
theorem vprintf_long (w : BitVec 64) (fmt : List UInt8) (ap : List Arg) :
    vprintf (ch 'l' :: fmt) true (.word w :: ap) =
      (vprintf fmt false ap).map (decimal (w.toNat % 2 ^ 32) ++ ·) := by
  have hlow : (w.setWidth 32).toNat = w.toNat % 2 ^ 32 := BitVec.toNat_setWidth ..
  rw [← hlow, ← (printint_unsigned (w.setWidth 32)).1]
  rfl

/-- **Formatted integers.** `%d`, `%x` and `%p` print the value of every argument and never overrun the
buffer; `%l` prints it exactly if it is below 2³². -/
theorem formats_iff (w : BitVec 64) : Formats w ∧ (FormatsLong w ↔ w.toNat < 2 ^ 32) := by
  refine ⟨⟨fun fmt ap => ?_, fun fmt ap => ?_, fun fmt ap => ?_, fun sgn => ⟨?_, ?_⟩⟩, fun h => ?_,
    fun hw fmt ap => ?_⟩
  · rw [← printint_signed]
    rfl
  · rw [← (printint_unsigned (w.setWidth 32)).2]
    rfl
  · rw [← printptr_eq]
    rfl
  · exact (length_printint_le (by decide) _ sgn).trans (by decide)
  · exact (length_printint_le (by decide) _ sgn).trans (by decide)
  · have hl := h [] []
    rw [vprintf_long] at hl
    have heq : decimal (w.toNat % 2 ^ 32) = decimal w.toNat := by simpa [vprintf] using hl
    have hval := congrArg decimalValue heq
    rw [decimalValue_decimal, decimalValue_decimal] at hval
    omega
  · rw [vprintf_long, Nat.mod_eq_of_lt hw]

end Xv6.User
