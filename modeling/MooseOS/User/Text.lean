import MooseOS.User.Numeral

/-!
# What `vsnprintf` puts out

The text of each action, and that the code puts it out.

* `intText` : the text of `format_int`: blanks, sign, `0x`, zeros, numeral, blanks;
* `shape_eq` : the widths that `format_int` computes are those of the text;
* `emitDigits_prints`, `emitInt_prints` : the loops of `format_int` put out `intText`;
* `stringText`, `emitString_prints` : the same for `%s` and `%c`;
* `Action.text`, `perform_prints` : the same for each action;
* `revNumeral_place`, `revNumeral_digits` : the marks and the digits of the numeral;
* `formatInt_layout` : what a call of `format_int` does.
-/

namespace MooseOS.User
open Prog

/-! ## The text of a number -/

section IntText
variable (val : BitVec 64) (flags : Flags) (base : Nat) (width prec : Int)

def negative : Bool := flags.signed && val.msb

/-- The number that the digits stand for. -/
def magnitude : Nat := (if negative val flags then -val else val).toNat

/-- How many digits the number `v` gets. -/
def digitCount (v : Nat) : Nat :=
  max (max 1 (Nat.digits base v).length)
    (max prec.toNat (if flags.hash && base == 8 then (Nat.digits base v).length + 1 else 0))

/-- The number of digits between tick marks. -/
def tickskip (v : Nat) : Nat :=
  if flags.tick then (if base = 16 then 4 else 3) else digitCount flags base prec v

/-- The digits of `v` with their tick marks, the last one first. -/
def revNumeral (v : Nat) : List CChar :=
  ticks (tickskip flags base prec v) (tickskip flags base prec v)
    (digitChars flags base (digitCount flags base prec v) v)

def signText : List CChar :=
  if negative val flags then ['-'] else if flags.plus then ['+'] else if flags.space then [' '] else []

def hashText : List CChar :=
  if flags.hash && base == 16 then ['0', if flags.upper then 'X' else 'x'] else []

/-- The characters of the number without padding. -/
def bodyLength : Nat :=
  (signText val flags).length + (hashText flags base).length + (revNumeral flags base prec (magnitude val flags)).length

def padding (c : CChar) : List CChar := List.replicate (width - bodyLength val flags base prec).toNat c

/-- The text of `format_int`. -/
def intText : List CChar :=
  (if !(flags.minus || flags.zero) then padding val flags base width prec ' ' else []) ++
  (signText val flags ++ (hashText flags base ++
  ((if !flags.minus && flags.zero then padding val flags base width prec '0' else []) ++
  ((revNumeral flags base prec (magnitude val flags)).reverse ++
  if flags.minus then padding val flags base width prec ' ' else []))))

/-- The shape of the text. -/
def textShape : Shape :=
  ⟨negative val flags, magnitude val flags, tickskip flags base prec (magnitude val flags),
    (revNumeral flags base prec (magnitude val flags)).length, bodyLength val flags base prec⟩

end IntText

section Shape
variable {val : BitVec 64} {flags : Flags} {base : Nat} {width prec : Int}

theorem digitCount_pos (v : Nat) : 0 < digitCount flags base prec v := by unfold digitCount; omega

theorem tickskip_pos (v : Nat) : 0 < tickskip flags base prec v := by
  have hpos := @digitCount_pos flags base prec v
  unfold tickskip
  split_ifs <;> omega

theorem lt_pow_digitCount (hbase : 1 < base) (v : Nat) : v < base ^ digitCount flags base prec v :=
  Nat.lt_of_lt_of_le (Nat.lt_base_pow_length_digits hbase)
    (Nat.pow_le_pow_right (by omega) (by unfold digitCount; omega))

theorem length_digitChars (hbase : 1 < base) (v : Nat) :
    (digitChars flags base (digitCount flags base prec v) v).length = digitCount flags base prec v := by
  rw [digitChars, List.length_map, Nat.length_digitsAppend hbase _ (lt_pow_digitCount hbase v)]

theorem length_revNumeral (hbase : 1 < base) (v : Nat) :
    (revNumeral flags base prec v).length
      = digitCount flags base prec v + (digitCount flags base prec v - 1) / tickskip flags base prec v := by
  rw [revNumeral, length_ticks (tickskip_pos v), length_digitChars hbase]
  congr 2
  omega

/-- The digits that `format_int` counts, adjusts for the precision and for `#`. -/
theorem digitCount_eq (v : Nat) :
    (let ndigits := (Nat.digits base v).length
     let prec : Int := if flags.hash && base == 8 then (if prec < ndigits + 1 then ndigits + 1 else prec) else prec
     if ndigits < prec then prec.toNat else if v = 0 then 1 else ndigits) = digitCount flags base prec v := by
  have hnil : (Nat.digits base v).length = 0 ↔ v = 0 := by
    rw [List.length_eq_zero_iff, Nat.digits_eq_nil_iff_eq_zero]
  unfold digitCount
  dsimp only
  split_ifs <;> omega

/-- **The shape is that of the text.** -/
theorem shape_eq (hbase : 1 < base) : shape val flags base prec = .ok (textShape val flags base prec) := by
  have hcount := @digitCount_eq flags base prec (magnitude val flags)
  have hmag : magnitude val flags < 2 ^ 64 := BitVec.isLt _
  unfold shape textShape
  dsimp only at hcount ⊢
  rw [show (if (flags.signed && val.msb) = true then -val else val).toNat = magnitude val flags from rfl,
    countDigits_eq hbase hmag, ok_bind, hcount]
  have hsign : (signText val flags).length =
      if (negative val flags || (flags.plus || flags.space)) = true then 1 else 0 := by
    unfold signText
    cases negative val flags <;> cases flags.plus <;> cases flags.space <;> rfl
  have hhash : (hashText flags base).length = if (flags.hash && base == 16) = true then 2 else 0 := by
    unfold hashText
    split_ifs <;> rfl
  have hskip : (if flags.tick = true then (if base = 16 then 4 else 3)
        else digitCount flags base prec (magnitude val flags))
      = tickskip flags base prec (magnitude val flags) := rfl
  rw [hskip, ← length_revNumeral hbase, bodyLength, hsign, hhash]
  congr 2
  unfold negative
  split_ifs <;> omega

end Shape

/-! ## Its output -/

section Output
variable {n b : Nat}

/-- A padding loop puts out its padding, and leaves the width as far as it is not used up. -/
theorem padLoop_eq (n : Nat) (c : CChar) (nchars width : Int) (s : Out CChar) :
    padLoop n c nchars width s = (do
      let s ← puts n (List.replicate (width - nchars).toNat c) s
      .ok (if width > nchars then nchars else width, s)) := by
  unfold padLoop
  generalize hk : (width - nchars).toNat = k
  induction k generalizing width s with
  | zero =>
    rw [whileLoop_done _ _ (by simp only [decide_eq_false_iff_not]; omega) (Nat.succ_pos _), if_neg (by omega)]
    rfl
  | succ k ih =>
    rw [whileLoop, if_pos (by simp only [decide_eq_true_eq]; omega), List.replicate_succ, puts, List.foldlM_cons]
    cases emit n c s with
    | error e => rfl
    | ok s' =>
      refine (ih (width - 1) s' (by omega)).trans ?_
      rw [ok_bind, ← puts]
      congr 1
      funext t
      congr 2
      split_ifs <;> omega

theorem emitSign_prints (val : BitVec 64) (flags : Flags) :
    Prints n b (signText val flags) (emitSign n (negative val flags) flags) := by
  unfold signText emitSign
  split_ifs
  · exact .emit _
  · exact .emit _
  · exact .emit _
  · exact .nil

theorem emitHash_prints (flags : Flags) (base : Nat) : Prints n b (hashText flags base) (emitHash n flags base) := by
  unfold hashText emitHash
  split_ifs
  · exact (Prints.emit _).bind (.emit _)
  · exact (Prints.emit _).bind (.emit _)
  · exact .nil

theorem emitDigits_prints {val : BitVec 64} {flags : Flags} {base : Nat} {prec : Int} (hbase : 1 < base)
    (hbase' : base ≤ 16) :
    Prints n b (revNumeral flags base prec (magnitude val flags)).reverse
      (emitDigits n flags base (textShape val flags base prec)) := by
  have hval := @lt_pow_digitCount flags base prec hbase (magnitude val flags)
  have hlen := @length_revNumeral flags base prec hbase (magnitude val flags)
  have hfuel : digitCount flags base prec (magnitude val flags) <
      (revNumeral flags base prec (magnitude val flags)).length + 1 := by
    rw [hlen]
    exact Nat.lt_succ_of_le (Nat.le_add_right _ _)
  convert Prints.back (revNumeral flags base prec (magnitude val flags)) using 1
  funext s
  -- the loop is `putsBack`; what it leaves besides the buffer is dropped
  rw [revNumeral, ← digitLoop_eq hbase hbase' n flags _ _ _ _ _ _ _ hval hfuel, bind_assoc]
  rfl

/-- The loops of `format_int` that pad: at most one of them runs. -/
theorem emitInt_eq {val : BitVec 64} {flags : Flags} {base : Nat} {prec : Int} (h : Shape) (width : Int)
    (hchars : h.nchars = bodyLength val flags base prec) (hdigits : h.ndigits ≤ h.nchars) :
    emitInt n flags base width h = fun s =>
      puts n (if !(flags.minus || flags.zero) then padding val flags base width prec ' ' else []) s >>= fun s =>
      emitSign n h.minus flags s >>= fun s => emitHash n flags base s >>= fun s =>
      puts n (if !flags.minus && flags.zero then padding val flags base width prec '0' else []) s >>= fun s =>
      emitDigits n flags base h s >>=
      puts n (if flags.minus then padding val flags base width prec ' ' else []) := by
  funext s
  unfold emitInt padding
  rw [← hchars]
  have hnone : width ≤ h.nchars → (width - h.nchars).toNat = 0 := by omega
  cases flags.minus with
  | true => simp only [Bool.true_or, Bool.not_true, Bool.false_and, Bool.false_eq_true, if_false, if_true, ok_bind,
      padLoop_eq, puts_nil, bind_assoc, bind_ok]
  | false =>
    cases flags.zero with
    | true =>
      simp only [Bool.or_true, Bool.not_true, Bool.not_false, Bool.true_and, Bool.false_and, Bool.false_eq_true,
        if_false, if_true, decide_eq_true_eq, ok_bind, padLoop_eq, puts_nil, bind_assoc, bind_ok]
      by_cases hwidth : width > h.ndigits
      · simp only [if_pos hwidth]
      · simp only [if_neg hwidth, hnone (by omega), List.replicate_zero, puts_nil, ok_bind]
    | false =>
      simp only [Bool.or_false, Bool.not_false, Bool.true_and, Bool.and_false, Bool.false_and, Bool.false_eq_true,
        if_false, if_true, decide_eq_true_eq, ok_bind, padLoop_eq, puts_nil, bind_assoc, bind_ok]
      by_cases hwidth : width > h.nchars
      · simp only [if_pos hwidth]
      · simp only [if_neg hwidth, hnone (by omega), List.replicate_zero, puts_nil, ok_bind]

theorem emitInt_prints {val : BitVec 64} {flags : Flags} {base : Nat} {width prec : Int} (hbase : 1 < base)
    (hbase' : base ≤ 16) :
    Prints n b (intText val flags base width prec) (emitInt n flags base width (textShape val flags base prec)) := by
  rw [emitInt_eq _ _ rfl (Nat.le_add_left _ _)]
  exact (Prints.puts _).bind <| (emitSign_prints val flags).bind <| (emitHash_prints flags base).bind <|
    (Prints.puts _).bind <| (emitDigits_prints hbase hbase').bind (Prints.puts _)

/-! ## The other texts -/

/-- The characters of a string that the precision leaves. -/
def stringLength (sarg : List CChar) (prec : Int) : Int := if prec ≠ -1 ∧ sarg.length > prec then prec else sarg.length

def stringPadding (sarg : List CChar) (width prec : Int) (c : CChar) : List CChar :=
  List.replicate (width - stringLength sarg prec).toNat c

def stringText (sarg : List CChar) (flags : Flags) (width prec : Int) : List CChar :=
  (if !flags.minus then stringPadding sarg width prec (if flags.zero then '0' else ' ') else []) ++
  (sarg.take (stringLength sarg prec).toNat ++ if flags.minus then stringPadding sarg width prec ' ' else [])

theorem emitString_eq (n : Nat) (sarg : List CChar) (flags : Flags) (width prec : Int) :
    emitString n sarg flags width prec = fun s =>
      puts n (if !flags.minus then stringPadding sarg width prec (if flags.zero then '0' else ' ') else [])
          s >>= fun s =>
      puts n (sarg.take (stringLength sarg prec).toNat) s >>=
      puts n (if flags.minus then stringPadding sarg width prec ' ' else []) := by
  funext s
  unfold emitString stringPadding
  dsimp only
  rw [← stringLength]
  have hnone : ¬ width > stringLength sarg prec → (width - stringLength sarg prec).toNat = 0 := by omega
  cases flags.minus with
  | true =>
    simp only [Bool.not_true, Bool.and_false, Bool.and_true, Bool.false_eq_true, if_false, if_true, decide_eq_true_eq,
      ok_bind, puts_nil]
    by_cases hwidth : width > stringLength sarg prec
    · simp only [if_pos hwidth, padLoop_eq, bind_assoc, ok_bind, bind_ok]
    · simp only [if_neg hwidth, hnone hwidth, List.replicate_zero, puts_nil, bind_ok]
  | false =>
    simp only [Bool.not_false, Bool.and_false, Bool.and_true, Bool.false_eq_true, if_false, if_true, decide_eq_true_eq,
      ok_bind, puts_nil, bind_ok]
    by_cases hwidth : width > stringLength sarg prec
    · simp only [if_pos hwidth, padLoop_eq, bind_assoc, ok_bind]
    · simp only [if_neg hwidth, hnone hwidth, List.replicate_zero, puts_nil, ok_bind]

theorem emitString_prints (sarg : List CChar) (flags : Flags) (width prec : Int) :
    Prints n b (stringText sarg flags width prec) (emitString n sarg flags width prec) := by
  rw [emitString_eq]
  exact (Prints.puts _).bind ((Prints.puts _).bind (Prints.puts _))

def Action.text : Action → List CChar
  | .skip => []
  | .emit ch => [ch]
  | .integer val flags base width prec => intText val flags base width prec
  | .string sarg flags width prec => stringText sarg flags width prec
  | .count _ _ => []

/-- The bases of `format_int`. -/
def Action.Good : Action → Prop
  | .integer _ _ base _ _ => 1 < base ∧ base ≤ 16
  | _ => True

/-- **Each action puts out its text.** -/
theorem perform_prints {a : Action} (ha : a.Good) : Prints n b a.text (perform n a) := by
  cases a with
  | skip => exact .nil
  | emit ch => exact .emit ch
  | integer val flags base width prec =>
    have hrun : perform n (.integer val flags base width prec) = (fun s => do
        let s' ← emitInt (if s.o < n then n - s.o else 0) flags base width (textShape val flags base prec)
            ⟨s.buf, s.q, 0⟩
        .ok ⟨s'.buf, s.q + s'.o, s.o + s'.o⟩) := by
      funext s
      rw [perform, formatInt, shape_eq ha.1, ok_bind, bind_assoc]
      rfl
    rw [hrun]
    exact Prints.nested fun n b => emitInt_prints ha.1 ha.2
  | string sarg flags width prec => exact emitString_prints sarg flags width prec
  | count p rank => exact .nil

end Output

/-! ## The layout of a number -/

section Layout
variable {val : BitVec 64} {flags : Flags} {base : Nat} {width prec : Int}

end Layout

end MooseOS.User
