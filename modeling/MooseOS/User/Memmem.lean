import MooseOS.User.Vsnprintf

/-!
# Searching a byte string

`memmem` of `etc/yuserlib/common/memmem.c`, with the `memcmp` it calls. A pointer is an index into the block it points
to, and reading behind the block strays.

* `memcmp_total` : the blocks compare equal exactly when they are equal;
* `Occurs` : the needle is at a place of the haystack;
* `skip_differ`, `skip_equal` : the places that the two jumps of the algorithm leave out;
* `memmemLoop_total` : the loop finds the first occurrence from its place on;
* `memmem_first` : so does `memmem`, and it reads nothing outside of the two strings.
-/

namespace MooseOS.User
open Prog

/-! ## The functions -/

def memcmp (s1 s2 : List CChar) (c1 c2 : Nat) : Nat → Exec Int
  | 0 => .ok 0
  | n + 1 => do
    let a ← peek s1 c1
    let b ← peek s2 c2
    let d : Int := (a.toNat : Int) - b.toNat
    if d ≠ 0 then .ok d else memcmp s1 s2 (c1 + 1) (c2 + 1) n

/-- `while (j <= n - m) { … }`, for a needle of two or more characters. -/
def memmemLoop (y x : List CChar) (n m k l : Nat) : Nat → Nat → Exec (Option Nat)
  | 0, _ => .error .endless
  | fuel + 1, j =>
    if j ≤ n - m then do
      let x1 ← peek x 1
      let y1 ← peek y (j + 1)
      if x1 ≠ y1 then memmemLoop y x n m k l fuel (j + k)
      else do
        let d ← memcmp x y 2 (j + 2) (m - 2)
        let found ← if d = 0 then do
            let x0 ← peek x 0
            let y0 ← peek y j
            .ok (decide (x0 = y0))
          else .ok false
        if found then .ok (some j) else memmemLoop y x n m k l fuel (j + l)
    else .ok none

/-- `do { if (*y == *x) return y; y++; } while (--n);`, for a needle of one character. -/
def memmemChar (y x : List CChar) : Nat → Nat → Exec (Option Nat)
  | 0, _ => .ok none
  | n + 1, j => do
    let y0 ← peek y j
    let x0 ← peek x 0
    if y0 = x0 then .ok (some j) else memmemChar y x n (j + 1)

/-- `memmem`: the place of the needle `x` in the haystack `y`. -/
def memmem (y : List CChar) (n : Nat) (x : List CChar) (m : Nat) : Exec (Option Nat) :=
  if m > n ∨ m = 0 ∨ n = 0 then .ok none
  else if m ≠ 1 then do
    let x0 ← peek x 0
    let x1 ← peek x 1
    if x0 = x1 then memmemLoop y x n m 2 1 (n + 1) 0 else memmemLoop y x n m 1 2 (n + 1) 0
  else memmemChar y x n 0

/-! ## Comparing -/

theorem peek_ok {α : Type} {buf : List α} {i : Nat} (hi : i < buf.length) :
    ∃ a, peek buf i = .ok a ∧ buf[i]? = some a :=
  ⟨buf.get ⟨i, hi⟩, by rw [peek, List.getElem?_eq_getElem hi]; rfl, List.getElem?_eq_getElem hi⟩

/-- The blocks of `n` characters at `c1` and `c2` are equal. -/
def Equal (s1 s2 : List CChar) (c1 c2 n : Nat) : Prop := ∀ i < n, s1[c1 + i]? = s2[c2 + i]?

theorem Equal.succ {s1 s2 : List CChar} {c1 c2 n : Nat} :
    Equal s1 s2 c1 c2 (n + 1) ↔ s1[c1]? = s2[c2]? ∧ Equal s1 s2 (c1 + 1) (c2 + 1) n := by
  constructor
  · intro h
    refine ⟨h 0 (Nat.succ_pos n), fun i hi => ?_⟩
    have := h (i + 1) (Nat.succ_lt_succ hi)
    rwa [← Nat.add_assoc, ← Nat.add_assoc, Nat.add_right_comm, Nat.add_right_comm c2] at this
  · rintro ⟨h0, h⟩ i hi
    cases i with
    | zero => exact h0
    | succ i =>
      have := h i (Nat.lt_of_succ_lt_succ hi)
      rwa [Nat.add_right_comm, Nat.add_right_comm c2] at this

theorem memcmp_total {s1 s2 : List CChar} {c1 c2 n : Nat} (h1 : c1 + n ≤ s1.length) (h2 : c2 + n ≤ s2.length) :
    ∃ d, memcmp s1 s2 c1 c2 n = .ok d ∧ (d = 0 ↔ Equal s1 s2 c1 c2 n) := by
  induction n generalizing c1 c2 with
  | zero => exact ⟨0, rfl, fun _ i hi => absurd hi (Nat.not_lt_zero i), fun _ => rfl⟩
  | succ n ih =>
    obtain ⟨a, ha, ha'⟩ := peek_ok (show c1 < s1.length by omega)
    obtain ⟨b, hb, hb'⟩ := peek_ok (show c2 < s2.length by omega)
    rw [memcmp, ha, ok_bind, hb, ok_bind, Equal.succ, ha', hb', Option.some.injEq]
    dsimp only
    split_ifs with hd
    · refine ⟨_, rfl, fun h => absurd h hd, fun h => ?_⟩
      rw [h.1, sub_self]
    · obtain rfl : a = b := UInt8.toNat_inj.1 (by omega)
      obtain ⟨d, hrun, hiff⟩ := @ih (c1 + 1) (c2 + 1) (by omega) (by omega)
      exact ⟨d, hrun, hiff.trans ⟨fun h => ⟨rfl, h⟩, fun h => h.2⟩⟩

/-! ## Occurrences -/

/-- The needle, the first `m` characters of `x`, is at place `j` of the haystack, the first `n` characters of `y`. -/
def Occurs (y x : List CChar) (n m j : Nat) : Prop := j + m ≤ n ∧ Equal x y 0 j m

/-- `r` is the first place of the needle, or there is none. -/
def First (y x : List CChar) (n m : Nat) : Option Nat → Prop
  | some j => Occurs y x n m j ∧ ∀ i < j, ¬ Occurs y x n m i
  | none => ∀ i, ¬ Occurs y x n m i

section Search
variable {y x : List CChar} {n m j k : Nat}

theorem Occurs.head (h : Occurs y x n m j) (hm : 0 < m) : x[0]? = y[j]? := h.2 0 hm

theorem Occurs.second (h : Occurs y x n m j) (hm : 2 ≤ m) : x[1]? = y[j + 1]? := h.2 1 hm

theorem occurs_iff (hm : 2 ≤ m) (hj : j + m ≤ n) :
    Occurs y x n m j ↔ x[0]? = y[j]? ∧ x[1]? = y[j + 1]? ∧ Equal x y 2 (j + 2) (m - 2) := by
  obtain ⟨k, rfl⟩ : ∃ k, m = k + 2 := ⟨m - 2, by omega⟩
  unfold Occurs
  rw [Equal.succ, Equal.succ, Nat.add_sub_cancel]
  exact and_iff_right hj

/-- Where the second characters differ there is no needle, and if the needle starts with two equal characters there is
none at the next place either. -/
theorem skip_differ (hm : 2 ≤ m) (hne : x[1]? ≠ y[j + 1]?) {i : Nat} (hi : j ≤ i)
    (hik : i < j + if x[0]? = x[1]? then 2 else 1) : ¬ Occurs y x n m i := by
  intro h
  split_ifs at hik with heq
  · obtain rfl | rfl : i = j ∨ i = j + 1 := by omega
    · exact hne (h.second hm)
    · exact hne (heq ▸ h.head (by omega))
  · obtain rfl : i = j := by omega
    exact hne (h.second hm)

/-- Where they are equal, but there is no needle, there is none at the next place either, unless it starts with two
equal characters. -/
theorem skip_equal (hm : 2 ≤ m) (heq : x[1]? = y[j + 1]?) (hno : ¬ Occurs y x n m j) {i : Nat} (hi : j ≤ i)
    (hil : i < j + if x[0]? = x[1]? then 1 else 2) : ¬ Occurs y x n m i := by
  intro h
  split_ifs at hil with hne
  · obtain rfl : i = j := by omega
    exact hno h
  · obtain rfl | rfl : i = j ∨ i = j + 1 := by omega
    · exact hno h
    · exact hne ((h.head (by omega)).trans heq.symm)

/-! ## The loops -/

/-- **The loop finds the first occurrence**: no jump leaves one out. -/
theorem memmemLoop_total (hm : 2 ≤ m) (hmn : m ≤ n) (hy : n ≤ y.length) (hx : m ≤ x.length) (fuel : Nat)
    (hbefore : ∀ i < j, ¬ Occurs y x n m i) (hfuel : n - m + 1 - j < fuel) :
    ∃ r, memmemLoop y x n m (if x[0]? = x[1]? then 2 else 1) (if x[0]? = x[1]? then 1 else 2) fuel j = .ok r ∧
      First y x n m r := by
  induction fuel generalizing j with
  | zero => omega
  | succ fuel ih =>
    rw [memmemLoop]
    by_cases hj : j ≤ n - m
    · obtain ⟨x0, hx0, hx0'⟩ := peek_ok (show 0 < x.length by omega)
      obtain ⟨x1, hx1, hx1'⟩ := peek_ok (show 1 < x.length by omega)
      obtain ⟨y0, hy0, hy0'⟩ := peek_ok (show j < y.length by omega)
      obtain ⟨y1, hy1, hy1'⟩ := peek_ok (show j + 1 < y.length by omega)
      have hjump : ∀ k, 0 < k → (∀ i, j ≤ i → i < j + k → ¬ Occurs y x n m i) →
          ∃ r, memmemLoop y x n m (if x[0]? = x[1]? then 2 else 1) (if x[0]? = x[1]? then 1 else 2)
              fuel (j + k) = .ok r ∧
            First y x n m r := by
        intro k hk hskip
        refine @ih (j + k) (fun i hi => ?_) (by omega)
        rcases Nat.lt_or_ge i j with h | h
        · exact hbefore i h
        · exact hskip i h hi
      rw [if_pos hj, hx1, ok_bind, hy1, ok_bind]
      by_cases hne : x1 ≠ y1
      · rw [if_pos hne]
        refine hjump _ (by split <;> decide) fun i hi hik => skip_differ hm ?_ hi hik
        rw [hx1', hy1']
        exact fun h => hne (Option.some.inj h)
      · obtain ⟨d, hcmp, hd⟩ := memcmp_total (show 2 + (m - 2) ≤ x.length by omega)
          (show j + 2 + (m - 2) ≤ y.length by omega)
        have hsecond : x[1]? = y[j + 1]? := by rw [hx1', hy1', not_not.1 hne]
        have hocc : Occurs y x n m j ↔ x0 = y0 ∧ d = 0 := by
          rw [occurs_iff hm (by omega), hx0', hy0', Option.some.injEq, hd]
          exact and_congr_right fun _ => and_iff_right hsecond
        have hno : ¬ (x0 = y0 ∧ d = 0) → ∃ r, memmemLoop y x n m (if x[0]? = x[1]? then 2 else 1)
            (if x[0]? = x[1]? then 1 else 2) fuel (j + if x[0]? = x[1]? then 1 else 2) = .ok r ∧
              First y x n m r := fun h =>
          hjump _ (by split <;> decide) fun i hi hil => skip_equal hm hsecond (fun h' => h (hocc.1 h')) hi hil
        rw [if_neg hne, hcmp, ok_bind]
        by_cases hd0 : d = 0
        · rw [if_pos hd0, hx0, ok_bind, hy0, ok_bind, ok_bind]
          by_cases h0 : x0 = y0
          · exact ⟨some j, by rw [decide_eq_true h0]; rfl, hocc.2 ⟨h0, hd0⟩, hbefore⟩
          · rw [decide_eq_false h0]
            exact hno fun h => h0 h.1
        · rw [if_neg hd0, ok_bind]
          exact hno fun h => hd0 h.2
    · rw [if_neg hj]
      refine ⟨none, rfl, fun i h => ?_⟩
      rcases Nat.lt_or_ge i j with hi | hi
      · exact hbefore i hi h
      · have := h.1
        omega

theorem memmemChar_total (hn : j + k = n) (hy : n ≤ y.length) (hx : 1 ≤ x.length)
    (hbefore : ∀ i < j, ¬ Occurs y x n 1 i) :
    ∃ r, memmemChar y x k j = .ok r ∧ First y x n 1 r := by
  have hocc : ∀ i, i < n → (Occurs y x n 1 i ↔ x[0]? = y[i]?) := by
    refine fun i hi => ⟨fun h => h.head (by decide), fun h => ⟨hi, fun t ht => ?_⟩⟩
    obtain rfl : t = 0 := Nat.lt_one_iff.1 ht
    exact h
  induction k generalizing j with
  | zero =>
    refine ⟨none, rfl, fun i h => ?_⟩
    have := h.1
    exact hbefore i (by omega) h
  | succ k ih =>
    obtain ⟨x0, hx0, hx0'⟩ := peek_ok (show 0 < x.length by omega)
    obtain ⟨y0, hy0, hy0'⟩ := peek_ok (show j < y.length by omega)
    have hj := hocc j (by omega)
    rw [hx0', hy0', Option.some.injEq] at hj
    rw [memmemChar, hy0, ok_bind, hx0, ok_bind]
    by_cases h : y0 = x0
    · rw [if_pos h]
      exact ⟨some j, rfl, hj.2 h.symm, hbefore⟩
    · rw [if_neg h]
      refine @ih (j + 1) (by omega) fun i hi => ?_
      rcases Nat.lt_succ_iff_lt_or_eq.1 hi with hi | rfl
      · exact hbefore i hi
      · exact fun h' => h (hj.1 h').symm

/-- **`memmem` finds the first occurrence.** For two strings inside their blocks it ends, without a read outside of
them, with the first place of the needle; an empty needle is not found at all. -/
theorem memmem_first (y x : List CChar) (n m : Nat) (hy : n ≤ y.length) (hx : m ≤ x.length) :
    ∃ r, memmem y n x m = .ok r ∧ if m = 0 then r = none else First y x n m r := by
  unfold memmem
  by_cases hempty : m > n ∨ m = 0 ∨ n = 0
  · rw [if_pos hempty]
    refine ⟨none, rfl, ?_⟩
    split_ifs with hm
    · rfl
    · exact fun i h => by
        have := h.1
        omega
  · have hpos : m ≠ 0 := fun h => hempty (.inr (.inl h))
    simp only [if_neg hempty, if_neg hpos]
    by_cases hm : m ≠ 1
    · obtain ⟨x0, hx0, hx0'⟩ := peek_ok (show 0 < x.length by omega)
      obtain ⟨x1, hx1, hx1'⟩ := peek_ok (show 1 < x.length by omega)
      obtain ⟨r, hrun, hfirst⟩ := @memmemLoop_total y x n m 0 (by omega) (by omega) hy hx (n + 1)
        (fun i hi => absurd hi (Nat.not_lt_zero i)) (by omega)
      have heq : x[0]? = x[1]? ↔ x0 = x1 := by rw [hx0', hx1', Option.some.injEq]
      refine ⟨r, ?_, hfirst⟩
      rw [if_pos hm, hx0, ok_bind, hx1, ok_bind, ← hrun]
      by_cases h : x0 = x1
      · rw [if_pos h, if_pos (heq.2 h), if_pos (heq.2 h)]
      · rw [if_neg h, if_neg (mt heq.1 h), if_neg (mt heq.1 h)]
    · obtain rfl : m = 1 := not_not.1 hm
      rw [if_neg hm]
      exact memmemChar_total (Nat.zero_add n) hy hx fun i hi => absurd hi (Nat.not_lt_zero i)

/-- In `aab` the needle `ab` is found behind the place where only its first character is. -/
theorem memmem_first_second :
    ∃ r, memmem ['a', 'a', 'b'] 3 ['a', 'b'] 2 = .ok r ∧
      if 2 = 0 then r = none else First ['a', 'a', 'b'] ['a', 'b'] 3 2 r :=
  memmem_first ['a', 'a', 'b'] ['a', 'b'] 3 2 (by decide) (by decide)

end Search

end MooseOS.User
