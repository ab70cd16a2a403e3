import Mathlib.Algebra.BigOperators.Intervals
import Mathlib.Tactic

/-!
# Linear congruential generators

`lcg a c m x = (a * x + c) % m`, for a modulus that is a power of two.

* `lcg_iterate` : the state after `n` steps, by a geometric sum;
* `two_pow_dvd_geomSum` : how often two divides that sum;
* `lcg_period` : with `a % 4 = 1` and an odd `c` every state comes back after `2 ^ k` steps, and not before;
* `lcg_reaches` : so every state is reached from every other.
-/

namespace Prog

def lcg (a c m x : Nat) : Nat := (a * x + c) % m

/-- `1 + a + … + a ^ (n - 1)`. -/
def geomSum (a n : Nat) : Nat := ∑ i ∈ Finset.range n, a ^ i

theorem geomSum_succ (a n : Nat) : geomSum a (n + 1) = a * geomSum a n + 1 := by
  rw [geomSum, Finset.sum_range_succ', geomSum, Finset.mul_sum, pow_zero]
  congr 1
  exact Finset.sum_congr rfl fun i _ => pow_succ' a i

section Lcg
variable {a c m k : Nat}

theorem lcg_iterate {x : Nat} (hx : x < m) (n : Nat) : (lcg a c m)^[n] x = (a ^ n * x + c * geomSum a n) % m := by
  induction n with
  | zero => rw [Function.iterate_zero_apply, pow_zero, Nat.one_mul, geomSum, Finset.sum_range_zero, Nat.mul_zero,
      Nat.add_zero, Nat.mod_eq_of_lt hx]
  | succ n ih =>
    rw [Function.iterate_succ_apply', ih, lcg, Nat.add_mod, Nat.mul_mod, Nat.mod_mod, ← Nat.mul_mod, ← Nat.add_mod,
      geomSum_succ]
    congr 1
    ring

theorem geomSum_mod_two (ha : a % 4 = 1) (n : Nat) : geomSum a n % 2 = n % 2 := by
  induction n with
  | zero => rfl
  | succ n ih =>
    have ha2 : a % 2 = 1 := by omega
    rw [geomSum_succ, Nat.add_mod, Nat.mul_mod, ha2, Nat.one_mul, Nat.mod_mod, ih, ← Nat.add_mod]

theorem geomSum_double (a n : Nat) : geomSum a (2 * n) = geomSum a n * (1 + a ^ n) := by
  rw [geomSum, Nat.two_mul, Finset.sum_range_add, Nat.mul_add, Nat.mul_one, geomSum, Finset.sum_mul]
  congr 1
  exact Finset.sum_congr rfl fun i _ => by rw [pow_add, Nat.mul_comm]

/-- Two divides the sum of `n` powers as often as it divides `n`. -/
theorem two_pow_dvd_geomSum (ha : a % 4 = 1) (n : Nat) : 2 ^ k ∣ geomSum a n ↔ 2 ^ k ∣ n := by
  induction k generalizing n with
  | zero => simp
  | succ k ih =>
    have hpar := geomSum_mod_two ha n
    rcases Nat.even_or_odd' n with ⟨t, rfl | rfl⟩
    · have hpow : a ^ t % 4 = 1 := by rw [Nat.pow_mod, ha, one_pow]; rfl
      obtain ⟨u, hu⟩ : ∃ u, 1 + a ^ t = 2 * (2 * u + 1) := ⟨(a ^ t - 1) / 4, by omega⟩
      have hodd : Nat.Coprime (2 ^ k) (2 * u + 1) := Nat.Coprime.pow_left _ (by simp)
      rw [geomSum_double, hu, pow_succ', ← Nat.mul_assoc, Nat.mul_comm (geomSum a t), Nat.mul_assoc,
        Nat.mul_dvd_mul_iff_left (by decide), Nat.mul_dvd_mul_iff_left (by decide), hodd.dvd_mul_right, ih]
    · refine iff_of_false (fun h => ?_) (fun h => ?_)
      · have := Nat.dvd_trans (Dvd.intro_left (2 ^ k) (pow_succ 2 k).symm) h
        omega
      · have := Nat.dvd_trans (Dvd.intro_left (2 ^ k) (pow_succ 2 k).symm) h
        omega

theorem pow_eq_geomSum (b n : Nat) : (b + 1) ^ n = b * geomSum (b + 1) n + 1 := by
  induction n with
  | zero => rfl
  | succ n ih =>
    rw [geomSum_succ, pow_succ', ih]
    ring

theorem lcg_lt {x : Nat} (hx : x < 2 ^ k) (n : Nat) : (lcg a c (2 ^ k))^[n] x < 2 ^ k := by
  rw [lcg_iterate hx]
  exact Nat.mod_lt _ (by positivity)

/-- **The period** of every state is the whole modulus. -/
theorem lcg_period (ha : a % 4 = 1) (hc : c % 2 = 1) {x : Nat} (hx : x < 2 ^ k) (n : Nat) :
    (lcg a c (2 ^ k))^[n] x = x ↔ 2 ^ k ∣ n := by
  obtain ⟨b, rfl⟩ : ∃ b, a = 4 * b + 1 := ⟨a / 4, by omega⟩
  have hodd : Nat.Coprime (2 ^ k) (4 * b * x + c) := Nat.Coprime.pow_left _ (by
    rw [Nat.coprime_two_left, Nat.odd_iff, Nat.mul_assoc]
    omega)
  have hsum : (4 * b + 1) ^ n * x + c * geomSum (4 * b + 1) n = x + geomSum (4 * b + 1) n * (4 * b * x + c) := by
    rw [pow_eq_geomSum]
    ring
  rw [lcg_iterate hx, hsum, ← two_pow_dvd_geomSum ha, ← hodd.dvd_mul_right]
  constructor
  · intro h
    have hmod := Nat.sub_mod_eq_zero_of_mod_eq (h.trans (Nat.mod_eq_of_lt hx).symm)
    rwa [Nat.add_sub_cancel_left, ← Nat.dvd_iff_mod_eq_zero] at hmod
  · rintro ⟨t, ht⟩
    rw [ht, Nat.add_mul_mod_self_left, Nat.mod_eq_of_lt hx]

/-- **Every state is reached** from every other. -/
theorem lcg_reaches (ha : a % 4 = 1) (hc : c % 2 = 1) {x y : Nat} (hx : x < 2 ^ k) (hy : y < 2 ^ k) :
    ∃ n < 2 ^ k, (lcg a c (2 ^ k))^[n] x = y := by
  have hle : ∀ i j, i ≤ j → j < 2 ^ k → (lcg a c (2 ^ k))^[i] x = (lcg a c (2 ^ k))^[j] x → i = j := by
    intro i j hij hj h
    have hback : (lcg a c (2 ^ k))^[j - i] ((lcg a c (2 ^ k))^[i] x) = (lcg a c (2 ^ k))^[i] x := by
      rw [← Function.iterate_add_apply, Nat.sub_add_cancel hij, h]
    have := Nat.eq_zero_of_dvd_of_lt ((lcg_period ha hc (lcg_lt hx i) _).1 hback) (by omega)
    omega
  have hinj : Set.InjOn (fun n => (lcg a c (2 ^ k))^[n] x) (Finset.range (2 ^ k)) := by
    intro i hi j hj h
    rw [Finset.coe_range, Set.mem_Iio] at hi hj
    rcases Nat.le_total i j with hij | hij
    · exact hle i j hij hj h
    · exact (hle j i hij hi h.symm).symm
  have hmaps : Set.MapsTo (fun n => (lcg a c (2 ^ k))^[n] x) (Finset.range (2 ^ k)) (Finset.range (2 ^ k)) :=
    fun n _ => by rw [Finset.coe_range, Set.mem_Iio]; exact lcg_lt hx n
  obtain ⟨n, hn, hny⟩ := Finset.surjOn_of_injOn_of_card_le _ hmaps hinj
    (Nat.le_refl _) (Finset.mem_coe.2 (Finset.mem_range.2 hy))
  exact ⟨n, Finset.mem_range.1 hn, hny⟩

end Lcg

end Prog
