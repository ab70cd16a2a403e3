import MooseOS.User.Contract

/-!
# Reading a number

`etc/yuserlib/common/strntoumax.c`, and that it reads back what `format_int` has written.

* `strntoumax` : the function; a pointer is what is in memory from there on;
* `skipSpaces_eq`, `digitsLoop_eq` : its loops on characters of one kind;
* `Ends` : how the digits of a number can end, at a character that is none or with the last of the `n` characters;
* `strntoumax_number`, `strntoumax_text` : a number, and the text of one, is read as the number;
* `strntoumax_printed` : what `vsnprintf` prints for an integer, `strntoumax` reads from the buffer.
-/

namespace MooseOS.User
open Prog

/-! ## The function -/

/-- The characters whose entry of `__ctypes` has `__ctype_space`. -/
def isspace (ch : CChar) : Bool := decide (8 ≤ ch ∧ ch ≤ 13) || decide (ch = 32) || decide (ch = 160)

def digitval (ch : CChar) : Int :=
  if '0' ≤ ch ∧ ch ≤ '9' then (ch.toNat : Int) - 48
  else if 'A' ≤ ch ∧ ch ≤ 'Z' then (ch.toNat : Int) - 65 + 10
  else if 'a' ≤ ch ∧ ch ≤ 'z' then (ch.toNat : Int) - 97 + 10
  else -1

/-- `while (n && isspace(*nptr)) { nptr++; n--; }`. -/
def skipSpaces : Nat → List CChar → Exec (List CChar × Nat)
  | 0, nptr => .ok (nptr, 0)
  | _ + 1, [] => .error .stray
  | n + 1, ch :: nptr => if isspace ch then skipSpaces n nptr else .ok (ch :: nptr, n + 1)

/-- The single optional `+` or `-`. -/
def readSign (nptr : List CChar) (n : Nat) : Exec (Bool × List CChar × Nat) :=
  if n ≠ 0 then do
    let c ← peek nptr 0
    if c = '-' ∨ c = '+' then .ok (decide (c = '-'), nptr.drop 1, n - 1) else .ok (false, nptr, n)
  else .ok (false, nptr, n)

/-- `n >= 2 && nptr[0] == '0' && (nptr[1] == 'x' || nptr[1] == 'X')`. -/
def hexPrefix (nptr : List CChar) (n : Nat) : Exec Bool :=
  if n ≥ 2 then do
    let c ← peek nptr 0
    if c = '0' then do
      let x ← peek nptr 1
      .ok (decide (x = 'x' ∨ x = 'X'))
    else .ok false
  else .ok false

/-- `n >= 1 && nptr[0] == '0'`. -/
def octalPrefix (nptr : List CChar) (n : Nat) : Exec Bool :=
  if n ≥ 1 then do
    let c ← peek nptr 0
    .ok (decide (c = '0'))
  else .ok false

/-- The prefix that goes with the base. -/
def readBase (base : Nat) (nptr : List CChar) (n : Nat) : Exec (Nat × List CChar × Nat) :=
  if base = 0 then do
    let hex ← hexPrefix nptr n
    if hex then .ok (16, nptr.drop 2, n - 2)
    else do
      let octal ← octalPrefix nptr n
      if octal then .ok (8, nptr.drop 1, n - 1) else .ok (10, nptr, n)
  else if base = 16 then do
    let hex ← hexPrefix nptr n
    if hex then .ok (16, nptr.drop 2, n - 2) else .ok (16, nptr, n)
  else .ok (base, nptr, n)

/-- `while (n && (d = digitval(*nptr)) >= 0 && d < base) { v = v * base + d; n--; nptr++; }`. -/
def digitsLoop (base : Nat) : Nat → List CChar → BitVec 64 → Exec (BitVec 64 × List CChar)
  | 0, nptr, v => .ok (v, nptr)
  | _ + 1, [], _ => .error .stray
  | n + 1, ch :: nptr, v =>
    let d := digitval ch
    if d ≥ 0 ∧ d < base then digitsLoop base n nptr (v * BitVec.ofNat 64 base + BitVec.ofInt 64 d)
    else .ok (v, ch :: nptr)

/-- `strntoumax`: what it returns, and `*endptr`. -/
def strntoumax (nptr : List CChar) (base n : Nat) : Exec (BitVec 64 × List CChar) := do
  let (nptr, n) ← skipSpaces n nptr
  let (minus, nptr, n) ← readSign nptr n
  let (base, nptr, n) ← readBase base nptr n
  let (v, nptr) ← digitsLoop base n nptr 0
  .ok (if minus then -v else v, nptr)

/-! ## Its loops -/

section Loops
variable {base n : Nat} {cs p : List CChar}

theorem skipSpaces_eq {ch : CChar} (hcs : ∀ c ∈ cs, isspace c = true) (hch : isspace ch = false) (hn : cs.length < n) :
    skipSpaces n (cs ++ ch :: p) = .ok (ch :: p, n - cs.length) := by
  induction cs generalizing n with
  | nil =>
    obtain ⟨m, rfl⟩ : ∃ m, n = m + 1 := ⟨n - 1, by simp at hn; omega⟩
    rw [List.nil_append, skipSpaces, if_neg (by rw [hch]; decide)]
    rfl
  | cons c cs ih =>
    rw [List.forall_mem_cons] at hcs
    rw [List.length_cons] at hn
    obtain ⟨m, rfl⟩ : ∃ m, n = m + 1 := ⟨n - 1, by omega⟩
    rw [List.cons_append, skipSpaces, if_pos hcs.1, ih hcs.2 (by omega), List.length_cons, Nat.add_sub_add_right]

/-- `e` ends a number of the base: it is no digit, and makes no `0x` of a `0`. -/
def Stops (base : Nat) (e : CChar) : Prop :=
  (digitval e < 0 ∨ base ≤ digitval e) ∧ (base = 16 → e ≠ 'x' ∧ e ≠ 'X')

instance (base : Nat) (e : CChar) : Decidable (Stops base e) := inferInstanceAs (Decidable (_ ∧ _))

/-- A number of `k` characters is read to its end: by a reader of `k` characters, or because of the next one, `e`. -/
def Ends (base k n : Nat) (e : CChar) : Prop := k = n ∨ k < n ∧ Stops base e

instance (base k n : Nat) (e : CChar) : Decidable (Ends base k n e) := inferInstanceAs (Decidable (_ ∨ _))

theorem Ends.le {k : Nat} {e : CChar} (h : Ends base k n e) : k ≤ n := by
  rcases h with h | h
  · exact h.le
  · exact h.1.le

/-- After the first `j` characters. -/
theorem Ends.sub {j k : Nat} {e : CChar} (h : Ends base (j + k) n e) : Ends base k (n - j) e := by
  rcases h with h | h
  · exact .inl (by omega)
  · exact .inr ⟨by omega, h.2⟩

theorem stops_of_neg {e : CChar} (h : digitval e < 0) : Stops base e := by
  refine ⟨.inl h, fun _ => ⟨?_, ?_⟩⟩ <;> rintro rfl <;> exact absurd h (by decide)

/-- The value of digits, the first one first. -/
def digitsValue (base : Nat) (cs : List CChar) (v : Nat) : Nat :=
  cs.foldl (fun v ch => v * base + (digitval ch).toNat) v

theorem digitsLoop_eq {e : CChar} (hcs : ∀ c ∈ cs, 0 ≤ digitval c ∧ digitval c < base) (he : Ends base cs.length n e)
    (v : Nat) :
    digitsLoop base n (cs ++ e :: p) (BitVec.ofNat 64 v) = .ok (BitVec.ofNat 64 (digitsValue base cs v), e :: p) := by
  induction cs generalizing n v with
  | nil =>
    cases n with
    | zero => rfl
    | succ n =>
      obtain ⟨-, he, -⟩ := he.resolve_left (by simp)
      rw [List.nil_append, digitsLoop, if_neg (by omega)]
      rfl
  | cons c cs ih =>
    rw [List.forall_mem_cons] at hcs
    rw [List.length_cons, Nat.add_comm] at he
    obtain ⟨m, rfl⟩ : ∃ m, n = m + 1 := ⟨n - 1, by have := he.le; omega⟩
    have hval : BitVec.ofNat 64 v * BitVec.ofNat 64 base + BitVec.ofInt 64 (digitval c)
        = BitVec.ofNat 64 (v * base + (digitval c).toNat) := by
      obtain ⟨d, hd⟩ := Int.eq_ofNat_of_zero_le hcs.1.1
      rw [hd, BitVec.ofInt_natCast, Int.toNat_natCast, BitVec.ofNat_add, BitVec.ofNat_mul]
    rw [List.cons_append, digitsLoop, if_pos ⟨hcs.1.1, hcs.1.2⟩, hval]
    exact ih hcs.2 he.sub _

end Loops

/-! ## The digits of a text -/

/-- `c` is a digit of the base, in the letters of `flags`. -/
def IsDigit (flags : Flags) (base : Nat) (c : CChar) : Prop := ∃ d < base, c = flags.digits.getD d 0

section Digits
variable {flags : Flags} {base : Nat} {c : CChar}

theorem digits_table (flags : Flags) : ∀ d < 16,
    digitval (flags.digits.getD d 0) = d ∧ isspace (flags.digits.getD d 0) = false ∧
    flags.digits.getD d 0 ≠ '-' ∧ flags.digits.getD d 0 ≠ '+' ∧
    flags.digits.getD d 0 ≠ 'x' ∧ flags.digits.getD d 0 ≠ 'X' := by
  unfold Flags.digits
  cases flags.upper <;> decide

theorem IsDigit.value (hbase : base ≤ 16) (h : IsDigit flags base c) : 0 ≤ digitval c ∧ digitval c < base := by
  obtain ⟨d, hd, rfl⟩ := h
  rw [(digits_table flags d (by omega)).1]
  omega

theorem digitsValue_replicate (base k : Nat) (cs : List CChar) :
    digitsValue base (List.replicate k ('0' : CChar) ++ cs) 0 = digitsValue base cs 0 := by
  induction k with
  | zero => rfl
  | succ k ih =>
    rw [List.replicate_succ, List.cons_append, ← ih, digitsValue, List.foldl_cons, Nat.zero_mul]
    rfl

/-- The digits of a numeral are read as its number. -/
theorem digitsValue_digitChars (hbase : 1 < base) (hbase' : base ≤ 16) (k v : Nat) :
    digitsValue base (digitChars flags base k v).reverse 0 = v := by
  have hdigits : ∀ d ∈ Nat.digits base v, d < 16 := fun d hd => Nat.lt_of_lt_of_le (Nat.digits_lt_base hbase hd) hbase'
  have hall : ∀ d ∈ Nat.digitsAppend base k v, d < 16 := fun d hd => by
    rcases List.mem_append.1 hd with hd | hd
    · exact hdigits d hd
    · rw [(List.mem_replicate.1 hd).2]
      decide
  rw [digitsValue, digitChars, List.foldl_reverse, List.foldr_map]
  calc _ = (Nat.digitsAppend base k v).foldr (fun d v => d + base * v) 0 :=
        List.foldr_ext _ _ _ fun d hd v => by
          rw [(digits_table flags d (hall d hd)).1, Int.toNat_natCast]
          ring
    _ = Nat.ofDigits base (Nat.digitsAppend base k v) := (Nat.ofDigits_eq_foldr _ _).symm
    _ = v := by rw [Nat.digitsAppend, Nat.ofDigits_append_replicate_zero, Nat.ofDigits_digits]

theorem isDigit_of_mem (hbase : 1 < base) {k v : Nat} (hc : c ∈ digitChars flags base k v) : IsDigit flags base c := by
  rw [digitChars, List.mem_map] at hc
  obtain ⟨d, hd, rfl⟩ := hc
  refine ⟨d, ?_, rfl⟩
  rcases List.mem_append.1 hd with hd | hd
  · exact Nat.digits_lt_base hbase hd
  · rw [(List.mem_replicate.1 hd).2]
    omega

end Digits

/-- The sign of a number, without the blank that may stand in its place. -/
def markText (val : BitVec 64) (flags : Flags) : List CChar :=
  if negative val flags then ['-'] else if flags.plus then ['+'] else []

/-- The sign of a text is a blank, if there is one for it, and the mark. -/
theorem signText_eq (val : BitVec 64) (flags : Flags) :
    signText val flags =
      (if !negative val flags && !flags.plus && flags.space then List.replicate 1 (' ' : CChar) else []) ++
        markText val flags := by
  unfold signText markText
  cases negative val flags <;> cases flags.plus <;> cases flags.space <;> rfl

section Parts
variable {val : BitVec 64} {flags : Flags} {base : Nat} {width prec : Int}

theorem revNumeral_no_tick (hbase : 1 < base) (htick : flags.tick = false) (m : Nat) :
    revNumeral flags base prec m = digitChars flags base (digitCount flags base prec m) m := by
  unfold revNumeral tickskip
  rw [htick]
  exact ticks_short (length_digitChars hbase _).le

/-- A numeral with zeros in front of it is a sequence of digits that is not empty, and has its value. -/
theorem numeral_digits (hbase : 1 < base) (hbase' : base ≤ 16) (htick : flags.tick = false) (zeros m : Nat) :
    ∃ d ds, List.replicate zeros ('0' : CChar) ++ (revNumeral flags base prec m).reverse = d :: ds ∧
      (∀ c ∈ d :: ds, IsDigit flags base c) ∧ digitsValue base (d :: ds) 0 = m := by
  rw [revNumeral_no_tick hbase htick]
  have hne : List.replicate zeros ('0' : CChar) ++ (digitChars flags base (digitCount flags base prec m) m).reverse
      ≠ [] := by
    rw [Ne, List.append_eq_nil_iff, List.reverse_eq_nil_iff, ← List.length_eq_zero_iff, ← List.length_eq_zero_iff,
      length_digitChars hbase]
    exact fun h => absurd h.2 (digitCount_pos _).ne'
  obtain ⟨d, ds, hds⟩ := List.exists_cons_of_ne_nil hne
  refine ⟨d, ds, hds, fun c hc => ?_, ?_⟩
  · rw [← hds] at hc
    rcases List.mem_append.1 hc with hc | hc
    · rw [(List.mem_replicate.1 hc).2]
      exact ⟨0, by omega, by unfold Flags.digits; split <;> rfl⟩
    · exact isDigit_of_mem hbase (List.mem_reverse.1 hc)
  · rw [← hds, digitsValue_replicate, digitsValue_digitChars hbase hbase']

/-- The text of a number without tick marks: blanks, the sign, `0x`, digits, blanks. -/
theorem intText_parts (hbase : 1 < base) (hbase' : base ≤ 16) (htick : flags.tick = false) :
    ∃ l d ds r, intText val flags base width prec =
      l ++ (markText val flags ++ (hashText flags base ++ (d :: ds ++ r))) ∧
      (∀ c ∈ l, c = (' ' : CChar)) ∧ (∀ c ∈ r, c = (' ' : CChar)) ∧ (flags.minus = false → r = []) ∧
      (∀ c ∈ d :: ds, IsDigit flags base c) ∧ digitsValue base (d :: ds) 0 = magnitude val flags := by
  have hblank : ∀ (b : Bool) (n : Nat), ∀ c ∈ (if b then List.replicate n (' ' : CChar) else []),
      c = (' ' : CChar) := by
    intro b n c hc
    cases b with
    | false => cases hc
    | true => exact (List.mem_replicate.1 hc).2
  obtain ⟨zeros, hzeros⟩ : ∃ k, (if !flags.minus && flags.zero then padding val flags base width prec '0' else [])
      = List.replicate k ('0' : CChar) := by
    cases !flags.minus && flags.zero with
    | false => exact ⟨0, rfl⟩
    | true => exact ⟨_, rfl⟩
  obtain ⟨d, ds, hds, hdigits, hvalue⟩ := @numeral_digits flags base prec hbase hbase' htick zeros (magnitude val flags)
  refine ⟨(if !(flags.minus || flags.zero) then padding val flags base width prec ' ' else []) ++
      (if !negative val flags && !flags.plus && flags.space then List.replicate 1 (' ' : CChar) else []), d, ds,
    if flags.minus then padding val flags base width prec ' ' else [], ?_, ?_, hblank _ _, fun h => by rw [h]; rfl,
    hdigits, hvalue⟩
  · rw [intText, signText_eq, hzeros, ← hds]
    simp only [List.append_assoc]
  · intro c hc
    rcases List.mem_append.1 hc with hc | hc
    · exact hblank _ _ c hc
    · exact hblank _ _ c hc

end Parts

/-! ## Reading a text back -/

section Read
variable {val : BitVec 64} {flags : Flags} {base b n : Nat} {d e : CChar} {ds p : List CChar}

/-- No `x` comes after a `0` by chance. -/
theorem hexPrefix_digits (hds : ∀ c ∈ d :: ds, IsDigit flags 16 c) (he : Ends 16 (d :: ds).length n e) :
    hexPrefix (d :: ds ++ e :: p) n = .ok false := by
  unfold hexPrefix
  split_ifs with hn
  · rw [show peek (d :: ds ++ e :: p) 0 = .ok d from rfl, ok_bind]
    split_ifs
    · cases ds with
      | nil =>
        obtain ⟨-, -, he⟩ := he.resolve_left (by simp; omega)
        rw [show peek ([d] ++ e :: p) 1 = .ok e from rfl, ok_bind, decide_eq_false (not_or.2 (he rfl))]
      | cons c ds =>
        obtain ⟨k, hk, rfl⟩ := hds c (by simp)
        obtain ⟨-, -, -, -, hx, hX⟩ := digits_table flags k hk
        rw [show peek (d :: flags.digits.getD k 0 :: ds ++ e :: p) 1 = .ok (flags.digits.getD k 0) from rfl, ok_bind,
          decide_eq_false (by tauto)]
    · rfl
  · rfl

/-- Asked for the base `b`, `strntoumax` reads the base `base`: it is the same, or the number begins with `0x`. -/
def ReadAs (b base : Nat) (flags : Flags) : Prop := b = base ∨ b = 0 ∧ base = 16 ∧ flags.hash = true

/-- The prefix and the digits. -/
theorem readBase_digits (hb : ReadAs b base flags) (hbase : 1 < base) (hbase' : base ≤ 16)
    (hds : ∀ c ∈ d :: ds, IsDigit flags base c)
    (he : Ends base ((hashText flags base).length + (d :: ds).length) n e) :
    (readBase b (hashText flags base ++ (d :: ds ++ e :: p)) n >>= fun t => digitsLoop t.1 t.2.2 t.2.1 0)
      = .ok (BitVec.ofNat 64 (digitsValue base (d :: ds) 0), e :: p) := by
  have hloop : ∀ m, Ends base (d :: ds).length m e → digitsLoop base m (d :: ds ++ e :: p) 0
      = .ok (BitVec.ofNat 64 (digitsValue base (d :: ds) 0), e :: p) := fun m hm =>
    digitsLoop_eq (fun c hc => (hds c hc).value hbase') hm 0
  unfold readBase
  by_cases h16 : base = 16
  · subst h16
    unfold hashText at he ⊢
    cases hhash : flags.hash with
    | true =>
      rw [hhash, Bool.true_and, if_pos (by decide)] at he
      have hhex : ∀ q, hexPrefix (('0' : CChar) :: (if flags.upper then 'X' else 'x') :: q) n = .ok true := by
        intro q
        unfold hexPrefix
        rw [if_pos (by have := he.le; simp at this; omega)]
        cases flags.upper <;> rfl
      rw [Bool.true_and, if_pos (show (16 == 16) = true from rfl), List.cons_append, List.cons_append, List.nil_append]
      rcases hb with rfl | ⟨rfl, -⟩
      · rw [if_neg (by decide), if_pos rfl, hhex, ok_bind]
        exact hloop (n - 2) he.sub
      · rw [if_pos rfl, hhex, ok_bind]
        exact hloop (n - 2) he.sub
    | false =>
      rw [hhash, Bool.false_and, if_neg (by decide), List.length_nil, Nat.zero_add] at he
      obtain rfl : b = 16 := hb.resolve_right fun h => by rw [hhash] at h; exact Bool.false_ne_true h.2.2
      rw [if_neg (by decide), if_pos rfl, Bool.false_and, if_neg Bool.false_ne_true, List.nil_append,
        hexPrefix_digits hds he, ok_bind]
      exact hloop n he
  · obtain rfl : base = b := (hb.resolve_right fun h => h16 h.2.1).symm
    have hnil : hashText flags base = [] := by
      unfold hashText
      rw [beq_false_of_ne h16, Bool.and_false]
      rfl
    rw [hnil, List.length_nil, Nat.zero_add] at he
    rw [hnil, if_neg (by omega), if_neg h16, List.nil_append, ok_bind]
    exact hloop n he

theorem readSign_mark {c : CChar} (hc : c ≠ '-' ∧ c ≠ '+') (hn : (markText val flags).length < n) :
    readSign (markText val flags ++ c :: p) n
      = .ok (negative val flags, c :: p, n - (markText val flags).length) := by
  unfold readSign
  rw [if_pos (by omega)]
  unfold markText
  split_ifs with hneg hplus
  · rw [hneg]
    rfl
  · rw [Bool.eq_false_of_not_eq_true hneg]
    rfl
  · rw [Bool.eq_false_of_not_eq_true hneg, List.nil_append, show peek (c :: p) 0 = .ok c from rfl, ok_bind,
      if_neg (by tauto)]
    rfl

theorem value_of_magnitude : (if negative val flags then -(BitVec.ofNat 64 (magnitude val flags))
    else BitVec.ofNat 64 (magnitude val flags)) = val := by
  unfold magnitude
  rw [BitVec.ofNat_toNat, BitVec.setWidth_eq]
  split_ifs
  · exact BitVec.neg_neg
  · rfl

/-- The text of a number without its padding begins with no blank. -/
theorem number_head (hds : ∀ c ∈ d :: ds, IsDigit flags base c) (hbase' : base ≤ 16) (q : List CChar) :
    (∃ c q', hashText flags base ++ (d :: ds ++ q) = c :: q' ∧ c ≠ '-' ∧ c ≠ '+') ∧
      ∃ c q', markText val flags ++ (hashText flags base ++ (d :: ds ++ q)) = c :: q' ∧ isspace c = false ∧ c ≠ 0 := by
  obtain ⟨c, q', hfirst, hc, hspace⟩ : ∃ c q', hashText flags base ++ (d :: ds ++ q) = c :: q' ∧ (c ≠ '-' ∧ c ≠ '+') ∧
      isspace c = false ∧ c ≠ 0 := by
    unfold hashText
    split_ifs
    · exact ⟨'0', _, rfl, by decide, by decide⟩
    · exact ⟨'0', _, rfl, by decide, by decide⟩
    · obtain ⟨k, hk, hd⟩ := hds d List.mem_cons_self
      obtain ⟨hval, hsp, hm, hp, -⟩ := digits_table flags k (by omega)
      refine ⟨d, _, rfl, by rw [hd]; exact ⟨hm, hp⟩, by rw [hd]; exact hsp, ?_⟩
      rintro rfl
      rw [← hd] at hval
      exact absurd hval (by rw [show digitval 0 = -1 from rfl]; omega)
  refine ⟨⟨c, q', hfirst, hc⟩, ?_⟩
  rw [hfirst]
  unfold markText
  split_ifs
  · exact ⟨'-', _, rfl, by decide, by decide⟩
  · exact ⟨'+', _, rfl, by decide, by decide⟩
  · exact ⟨c, q', rfl, hspace⟩

/-- A number is read, after blanks, up to the character that ends it. -/
theorem strntoumax_number {l : List CChar} (hb : ReadAs b base flags)
    (hbase : 1 < base) (hbase' : base ≤ 16) (hl : ∀ c ∈ l, c = (' ' : CChar))
    (hds : ∀ c ∈ d :: ds, IsDigit flags base c) (hvalue : digitsValue base (d :: ds) 0 = magnitude val flags)
    (he : Ends base
      (l.length + ((markText val flags).length + ((hashText flags base).length + (d :: ds).length))) n e) :
    strntoumax (l ++ (markText val flags ++ (hashText flags base ++ (d :: ds ++ e :: p)))) b n = .ok (val, e :: p) := by
  obtain ⟨⟨c, q, hfirst, hc⟩, c', q', hmark, hspace, -⟩ := @number_head val flags base d ds hds hbase' (e :: p)
  have hle := he.le
  have hread := @readBase_digits flags base b (n - l.length - (markText val flags).length) d e ds p hb hbase hbase' hds
    he.sub.sub
  rw [List.length_cons] at hle
  rw [hmark, strntoumax, skipSpaces_eq (fun c hc => by rw [hl c hc]; decide) hspace (by omega), ok_bind, ← hmark]
  dsimp only
  rw [hfirst, readSign_mark hc (by omega), ok_bind, ← hfirst]
  dsimp only
  obtain ⟨t, hbaseRun, hloop⟩ := bind_eq_ok.1 hread
  rw [hbaseRun, ok_bind, hloop, ok_bind, hvalue, value_of_magnitude]

/-- **A number is read back.** The text of a number is read as the number, up to the blanks that pad it. -/
theorem strntoumax_text {width prec : Int} (hbase : 1 < base) (hbase' : base ≤ 16) (htick : flags.tick = false)
    (hn : (intText val flags base width prec).length < n) :
    ∃ r, (∀ c ∈ r, c = (' ' : CChar)) ∧
      strntoumax (intText val flags base width prec ++ 0 :: p) base n = .ok (val, r ++ 0 :: p) := by
  obtain ⟨l, d, ds, r, htext, hl, hr, -, hds, hvalue⟩ := @intText_parts val flags base width prec hbase hbase' htick
  refine ⟨r, hr, ?_⟩
  rw [htext] at hn ⊢
  simp only [List.length_append] at hn
  obtain ⟨e, q, hstop, he⟩ : ∃ e q, r ++ 0 :: p = e :: q ∧ digitval e < 0 := by
    cases r with
    | nil => exact ⟨0, p, rfl, by decide⟩
    | cons c r =>
      obtain rfl := hr c List.mem_cons_self
      exact ⟨' ', r ++ 0 :: p, rfl, by decide⟩
  have happend : l ++ (markText val flags ++ (hashText flags base ++ (d :: ds ++ r))) ++ 0 :: p
      = l ++ (markText val flags ++ (hashText flags base ++ (d :: ds ++ e :: q))) := by
    rw [← hstop]
    simp only [List.append_assoc]
  rw [happend, hstop]
  exact strntoumax_number (.inl rfl) hbase hbase' hl hds hvalue (.inr ⟨by omega, stops_of_neg he⟩)

end Read

/-- **What is printed can be scanned.** If a format prints one integer, without tick marks and all of it, then
`strntoumax` gets the integer back from the buffer, whatever the flags, the width and the precision were, and stops at
the blanks and the `NUL` behind it. -/
theorem strntoumax_printed {strings : BitVec 32 → Option CString} {buffer : List CChar} {n m : Nat} {format : CString}
    {ap : List (BitVec 32)} {r : Printed} {val : BitVec 64} {flags : Flags} {base : Nat} {width prec : Int}
    (h : vsnprintf strings buffer n format ap = .ok r)
    (has : actions strings format.chars (.start ap) = .ok [.integer val flags base width prec])
    (htick : flags.tick = false) (hn : r.result < n) (hm : r.result < m) :
    ∃ blanks rest, (∀ c ∈ blanks, c = (' ' : CChar)) ∧ strntoumax r.buffer base m = .ok (val, blanks ++ 0 :: rest) := by
  obtain ⟨as, has', -, rfl⟩ := vsnprintf_inv h
  rw [has] at has'
  cases has'
  have hgood : Action.Good (.integer val flags base width prec) := actions_good has _ (by simp)
  have htext : textOf [.integer val flags base width prec] = intText val flags base width prec := List.append_nil _
  rw [htext] at hn hm
  rw [htext]
  dsimp only at hn hm ⊢
  rw [written, if_neg (by omega), List.take_of_length_le (by omega)]
  obtain ⟨blanks, hblanks, hscan⟩ := strntoumax_text
    (p := buffer.drop (min n ((intText val flags base width prec).length + 1))) hgood.1 hgood.2 htick hm
  exact ⟨blanks, _, hblanks, hscan⟩

theorem strntoumax_printed_negative : ∃ blanks rest, (∀ c ∈ blanks, c = (' ' : CChar)) ∧
    strntoumax [' ', '-', '7', 0, 1] 10 100 = .ok (BitVec.ofInt 64 (-7), blanks ++ 0 :: rest) :=
  strntoumax_printed
    (show vsnprintf (fun _ => none) [1, 1, 1, 1, 1] 5 ⟨['%', '3', 'd'], by decide⟩ [BitVec.ofInt 32 (-7)]
      = .ok ⟨[' ', '-', '7', 0, 1], 3, []⟩ by decide)
    rfl rfl (by decide) (by decide)

end MooseOS.User
