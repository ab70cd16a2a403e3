import Mathlib.Data.Nat.Digits.Lemmas
import MooseOS.User.Vsnprintf

/-!
# The digits of `format_int`

* `countDigits_eq` : the digits that are counted are those of the number;
* `ticks` : a numeral with its tick marks, the last digit first; `filter_ticks` and `ticks_place` say which characters
  it has and where the marks are;
* `digitChars` : the digits of a numeral, the last one first;
* `digitLoop_eq` : the loop from right to left puts out the numeral.
-/

namespace MooseOS.User
open Prog

/-! ## Counting -/

theorem countDigits_loop {base : Nat} (hbase : 1 < base) (fuel val k : Nat)
    (hfuel : (Nat.digits base val).length < fuel) :
    whileLoop (fun t : Nat × Nat => t.1 ≠ 0) (fun t => .ok (t.1 / base, t.2 + 1)) fuel (val, k)
      = .ok (0, k + (Nat.digits base val).length) := by
  induction fuel generalizing val k with
  | zero => omega
  | succ fuel ih =>
    by_cases hval : val = 0
    · subst hval
      rw [whileLoop_done _ _ (by simp) (Nat.succ_pos _), Nat.digits_zero]
      rfl
    · rw [Nat.digits_eq_cons_digits_div hbase hval, List.length_cons] at hfuel ⊢
      rw [whileLoop_turn (fun t : Nat × Nat => t.1 ≠ 0) (fun t => .ok (t.1 / base, t.2 + 1)) (by simpa using hval) rfl,
        ih (val / base) (k + 1) (by omega), Nat.add_assoc, Nat.add_comm 1]

/-- **The count is the number of digits**: 64 turns are enough for 64 bits. -/
theorem countDigits_eq {base val : Nat} (hbase : 1 < base) (hval : val < 2 ^ 64) :
    countDigits base val = .ok (Nat.digits base val).length := by
  have hlen : (Nat.digits base val).length ≤ 64 :=
    (Nat.digits_length_le_iff hbase val).2 (Nat.lt_of_lt_of_le hval (Nat.pow_le_pow_left hbase 64))
  unfold countDigits
  rw [countDigits_loop hbase _ _ _ (by omega), ok_bind, Nat.zero_add]

/-! ## Tick marks -/

/-- The characters of a numeral from the last one on, with a mark after each `skip` of them; the first mark comes
after `b4` characters. No mark is the first character of the numeral. -/
def ticks (skip : Nat) : Nat → List CChar → List CChar
  | _, [] => []
  | 0, c :: cs => '_' :: c :: ticks skip (skip - 1) cs
  | b4 + 1, c :: cs => c :: ticks skip b4 cs

theorem ticks_short {skip b4 : Nat} {cs : List CChar} (h : cs.length ≤ b4) : ticks skip b4 cs = cs := by
  induction cs generalizing b4 with
  | nil => cases b4 <;> rfl
  | cons c cs ih =>
    rw [List.length_cons] at h
    obtain ⟨b, rfl⟩ : ∃ b, b4 = b + 1 := ⟨b4 - 1, by omega⟩
    rw [ticks, ih (by omega)]

theorem length_ticks {skip b4 : Nat} (hskip : 0 < skip) (cs : List CChar) :
    (ticks skip b4 cs).length = cs.length + (cs.length + skip - 1 - b4) / skip := by
  induction cs generalizing b4 with
  | nil =>
    rw [List.length_nil, Nat.div_eq_of_lt (by omega)]
    cases b4 <;> rfl
  | cons c cs ih =>
    cases b4 with
    | zero =>
      have hdiv : (cs.length + 1 + skip - 1) / skip = (cs.length + skip - 1 - (skip - 1)) / skip + 1 := by
        rw [← Nat.add_div_right _ hskip]
        congr 1
        omega
      rw [ticks, List.length_cons, List.length_cons, ih, List.length_cons, Nat.sub_zero, hdiv]
      omega
    | succ b4 =>
      rw [ticks, List.length_cons, ih, List.length_cons,
        show cs.length + 1 + skip - 1 - (b4 + 1) = cs.length + skip - 1 - b4 by omega]
      omega

/-- The digits of `val`, the last one first, filled up with zeros to `ndigits` of them. -/
def digitChars (flags : Flags) (base ndigits val : Nat) : List CChar :=
  (Nat.digitsAppend base ndigits val).map fun d => flags.digits.getD d 0

theorem digitsAppend_succ {base : Nat} (hbase : 1 < base) (k val : Nat) :
    Nat.digitsAppend base (k + 1) val = val % base :: Nat.digitsAppend base k (val / base) := by
  unfold Nat.digitsAppend
  by_cases hval : val = 0
  · subst hval
    rw [Nat.zero_div, Nat.zero_mod, Nat.digits_zero, List.length_nil, Nat.sub_zero, Nat.sub_zero, List.nil_append,
      List.nil_append, List.replicate_succ]
  · rw [Nat.digits_eq_cons_digits_div hbase hval, List.length_cons, Nat.add_sub_add_right, List.cons_append]

theorem digitChars_succ {base : Nat} (hbase : 1 < base) (flags : Flags) (k val : Nat) :
    digitChars flags base (k + 1) val
      = flags.digits.getD (val % base) 0 :: digitChars flags base k (val / base) := by
  rw [digitChars, digitsAppend_succ hbase, List.map_cons, digitChars]

theorem length_flags_digits (flags : Flags) : flags.digits.length = 16 := by
  unfold Flags.digits
  split <;> rfl

theorem peek_digits (flags : Flags) {d : Nat} (hd : d < 16) : peek flags.digits d = .ok (flags.digits.getD d 0) := by
  have hlen : d < flags.digits.length := by rw [length_flags_digits]; exact hd
  rw [peek, List.getD_eq_getElem?_getD, List.getElem?_eq_getElem hlen, Option.getD_some]

/-! ## The loop from right to left -/

/-- The code behind a `put` goes on with the rest of the numeral. -/
theorem Digits.put_bind {n : Nat} {c : CChar} {rev : List CChar} {t : Digits} {f : Digits → Exec (List CChar)}
    (h : ∀ buf, f ⟨t.b4tick, t.ndigits - 1, t.qq - 1, t.oo - 1, t.val, buf⟩
      = putsBack n rev (t.qq - 1) (t.oo - 1) buf) :
    (t.put n c >>= f) = putsBack n (c :: rev) t.qq t.oo t.buf := by
  unfold Digits.put
  rw [putsBack]
  split
  · cases poke t.buf (t.qq - 1) c with
    | error e => rfl
    | ok buf => exact h buf
  · exact h t.buf

/-- **The loop stores the numeral**, its last digit first. -/
theorem digitLoop_eq {base skip : Nat} (hbase : 1 < base) (hbase' : base ≤ 16) (n : Nat) (flags : Flags) (k : Nat)
    (fuel b4 val qq oo : Nat) (buf : List CChar) (hval : val < base ^ k) (hfuel : k < fuel) :
    (do
      let t ← whileLoop (fun t => decide (t.ndigits > 0)) (digitTurn n flags.digits base skip) fuel
        ⟨b4, (ticks skip b4 (digitChars flags base k val)).length, qq, oo, val, buf⟩
      .ok t.buf)
      = putsBack n (ticks skip b4 (digitChars flags base k val)) qq oo buf := by
  induction k generalizing fuel b4 val qq oo buf with
  | zero =>
    obtain rfl : val = 0 := by rwa [pow_zero, Nat.lt_one_iff] at hval
    have hnil : ticks skip b4 (digitChars flags base 0 0) = [] := by
      simp [digitChars, Nat.digitsAppend, ticks_short]
    rw [hnil, whileLoop_done _ _ rfl (by omega)]
    rfl
  | succ k ih =>
    obtain ⟨f, rfl⟩ : ∃ f, fuel = f + 1 := ⟨fuel - 1, by omega⟩
    have hpeek := peek_digits flags (show val % base < 16 from Nat.lt_of_lt_of_le (Nat.mod_lt _ (by omega)) hbase')
    have hdiv : val / base < base ^ k := Nat.div_lt_of_lt_mul (by rwa [Nat.pow_succ'] at hval)
    rw [digitChars_succ hbase]
    -- the turn stores a mark and a digit, or a digit; the rest is the induction hypothesis
    cases b4 with
    | zero =>
      rw [ticks, whileLoop, if_pos (by simp)]
      simp only [digitTurn, bind_assoc, ok_bind, if_pos, hpeek]
      refine Digits.put_bind fun buf => ?_
      dsimp only
      rw [hpeek, ok_bind]
      refine Digits.put_bind fun buf => ?_
      exact ih f (skip - 1) (val / base) (qq - 1 - 1) (oo - 1 - 1) buf hdiv (by omega)
    | succ b4 =>
      rw [ticks, whileLoop, if_pos (by simp)]
      simp only [digitTurn, Nat.add_one_ne_zero, if_false, bind_assoc, ok_bind, hpeek]
      refine Digits.put_bind fun buf => ?_
      exact ih f b4 (val / base) (qq - 1) (oo - 1) buf hdiv (by omega)

end MooseOS.User
