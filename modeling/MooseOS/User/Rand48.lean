import MooseOS.Lib.Lcg

/-!
# Pseudo-random numbers

`jrand48.c`, `srand48.c` and `mrand48.c` of `etc/yuserlib/common`. The seed is kept in three words of 16 bits; the
state is the number of 48 bits that they stand for.

* `jrand48_state` : one call is one step of a linear congruential generator;
* `jrand48_period` : the seed comes back after `2 ^ 48` calls, and not before;
* `rand_negative` : from every seed `rand` comes to a negative number.
-/

namespace MooseOS.User
open Prog

/-- `unsigned short xsubi[3]`. -/
structure Seed where
  x0 : BitVec 16
  x1 : BitVec 16
  x2 : BitVec 16
deriving DecidableEq, Repr

/-- `jrand48`: the `long` that it returns, and the seed after it. -/
def jrand48 (xsubi : Seed) : BitVec 32 × Seed :=
  let x : BitVec 64 := xsubi.x0.setWidth 64 + (xsubi.x1.setWidth 64 <<< 16) + (xsubi.x2.setWidth 64 <<< 32)
  let x := 0x5deece66d#64 * x + 0xb#64
  ((x >>> 16).setWidth 32, ⟨x.setWidth 16, (x >>> 16).setWidth 16, (x >>> 32).setWidth 16⟩)

/-- `srand48`, and `srand`. -/
def srand48 (seedval : BitVec 32) : Seed := ⟨0x330e#16, seedval.setWidth 16, (seedval >>> 16).setWidth 16⟩

/-- `rand`: `-rc` is what the negation of the machine makes of it. -/
def rand (seed : Seed) : BitVec 32 × Seed :=
  let (rc, seed) := jrand48 seed
  (if rc.toInt < 0 then -rc else rc, seed)

/-- The number in a seed. -/
def Seed.state (s : Seed) : Nat := s.x0.toNat + 2 ^ 16 * s.x1.toNat + 2 ^ 32 * s.x2.toNat

theorem Seed.state_lt (s : Seed) : s.state < 2 ^ 48 := by
  have h0 := s.x0.isLt
  have h1 := s.x1.isLt
  have h2 := s.x2.isLt
  unfold Seed.state
  omega

theorem Seed.state_inj {s t : Seed} (h : s.state = t.state) : s = t := by
  obtain ⟨s0, s1, s2⟩ := s
  obtain ⟨t0, t1, t2⟩ := t
  have h0 := s0.isLt
  have h1 := s1.isLt
  have h2 := t0.isLt
  have h3 := t1.isLt
  unfold Seed.state at h
  dsimp only at h
  obtain rfl : s0 = t0 := BitVec.eq_of_toNat_eq (by omega)
  obtain rfl : s1 = t1 := BitVec.eq_of_toNat_eq (by omega)
  obtain rfl : s2 = t2 := BitVec.eq_of_toNat_eq (by omega)
  rfl

theorem state_split (y : BitVec 64) :
    (Seed.mk (y.setWidth 16) ((y >>> 16).setWidth 16) ((y >>> 32).setWidth 16)).state = y.toNat % 2 ^ 48 := by
  simp only [Seed.state, BitVec.toNat_setWidth, BitVec.toNat_ushiftRight, Nat.shiftRight_eq_div_pow]
  omega

theorem value_split (y : BitVec 64) : ((y >>> 16).setWidth 32).toNat = y.toNat % 2 ^ 48 / 2 ^ 16 := by
  rw [BitVec.toNat_setWidth, BitVec.toNat_ushiftRight, Nat.shiftRight_eq_div_pow]
  generalize y.toNat = k
  omega

/-- **One call** is one step of the generator, and returns the upper 32 bits of the new state. -/
theorem jrand48_state (s : Seed) :
    (jrand48 s).2.state = lcg 0x5deece66d 0xb (2 ^ 48) s.state ∧
      (jrand48 s).1.toNat = (jrand48 s).2.state / 2 ^ 16 := by
  have h0 := s.x0.isLt
  have h1 := s.x1.isLt
  have h2 := s.x2.isLt
  have hload : (s.x0.setWidth 64 + (s.x1.setWidth 64 <<< 16) + (s.x2.setWidth 64 <<< 32) : BitVec 64).toNat =
      s.state := by
    simp only [BitVec.toNat_add, BitVec.toNat_shiftLeft, BitVec.toNat_setWidth, Nat.shiftLeft_eq, Seed.state]
    omega
  have hnext : (0x5deece66d#64 * (s.x0.setWidth 64 + (s.x1.setWidth 64 <<< 16) + (s.x2.setWidth 64 <<< 32)) +
      0xb#64).toNat
      = (0x5deece66d * s.state + 0xb) % 2 ^ 64 := by
    rw [BitVec.toNat_add, BitVec.toNat_mul, hload]
    simp only [BitVec.toNat_ofNat]
    omega
  constructor
  · rw [jrand48]
    dsimp only
    rw [state_split, hnext, lcg, Nat.mod_mod_of_dvd _ (by decide)]
  · rw [jrand48]
    dsimp only
    rw [state_split, value_split]

/-- The seed after `n` calls. -/
def after (n : Nat) (s : Seed) : Seed := (fun s => (jrand48 s).2)^[n] s

theorem after_state (n : Nat) (s : Seed) : (after n s).state = (lcg 0x5deece66d 0xb (2 ^ 48))^[n] s.state := by
  induction n with
  | zero => rfl
  | succ n ih =>
    rw [after, Function.iterate_succ_apply', (jrand48_state _).1, Function.iterate_succ_apply', ← ih]
    rfl

/-- **The period** of `jrand48`: from every seed the same seed comes back after `2 ^ 48` calls and not before, and each
other seed comes up in between. -/
theorem jrand48_period (s : Seed) :
    (∀ n, after n s = s ↔ 2 ^ 48 ∣ n) ∧ ∀ t, ∃ n < 2 ^ 48, after n s = t := by
  have hperiod : ∀ n, (lcg 0x5deece66d 0xb (2 ^ 48))^[n] s.state = s.state ↔ 2 ^ 48 ∣ n :=
    fun n => lcg_period (by decide) (by decide) s.state_lt n
  constructor
  · intro n
    rw [← hperiod, ← after_state]
    exact ⟨fun h => by rw [h], Seed.state_inj⟩
  · intro t
    obtain ⟨n, hn, hreach⟩ := @lcg_reaches 0x5deece66d 0xb 48 (by decide) (by decide) _ _ s.state_lt t.state_lt
    exact ⟨n, hn, Seed.state_inj (by rw [after_state, hreach])⟩

/-- The result of `rand` is negative for one value of the generator, which is its own negative. -/
theorem rand_neg_iff (s : Seed) : (rand s).1.toInt < 0 ↔ (jrand48 s).1 = 0x80000000#32 := by
  have hlt := (jrand48 s).1.isLt
  rw [rand]
  dsimp only
  rw [← BitVec.toNat_inj, BitVec.toNat_ofNat]
  split_ifs with h
  · rw [BitVec.toInt_eq_toNat_cond] at h ⊢
    rw [BitVec.toNat_neg]
    omega
  · rw [BitVec.toInt_eq_toNat_cond] at h ⊢
    omega

/-- **`rand` comes to a negative number**, from every seed and in every period. -/
theorem rand_negative (s : Seed) : ∃ n < 2 ^ 48, (rand (after n s)).1.toInt < 0 := by
  -- the seed whose state is one step before the one with only its top bit set
  obtain ⟨n, hn, hreach⟩ := @lcg_reaches 0x5deece66d 0xb 48 (by decide) (by decide)
    (lcg 0x5deece66d 0xb (2 ^ 48) s.state)
    (2 ^ 47) (Nat.mod_lt _ (by decide)) (by decide)
  refine ⟨n, hn, (rand_neg_iff _).2 (BitVec.eq_of_toNat_eq ?_)⟩
  rw [(jrand48_state _).2, (jrand48_state _).1, after_state,
    ← Function.iterate_succ_apply' (lcg 0x5deece66d 0xb (2 ^ 48)), Function.iterate_succ_apply, hreach]
  rfl

end MooseOS.User
