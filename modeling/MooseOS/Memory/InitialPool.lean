import MooseOS.Memory.Paging

/-!
# The initial pool of free frames

With a break that stays where it is, `initPaging` starts at the frame that the break is in, and frame 0 is `NULL` to
the list of free frames.

* `PoolExact` : the free frames are the unused ones;
* `poolExact_iff` : they are if and only if the break is the start of a frame other than 0, or inside frame 0, or no
  frame after it is left.
-/

namespace MooseOS
open Prog

/-- The free frames are, in ascending order, those with no byte below the break that are within the memory. -/
structure PoolExact (pmemSize brk : Word) (free : List Nat) : Prop where
  ascending : free.Pairwise (· < ·)
  mem : ∀ f, f ∈ free ↔ brk.toNat ≤ f * pageSize ∧ (f + 1) * pageSize ≤ pmemSize.toNat

section Pool
variable {e : PagingEnv} {k : Kernel}

theorem firstFrame_of_lt {brk : Word} (h : brk.toNat < 2 ^ 31) : firstFrame brk = brk.toNat / pageSize := by
  have hint : brk.toInt = brk.toNat := by
    rw [BitVec.toInt_eq_toNat_cond, if_pos (by omega)]
  unfold firstFrame
  rw [hint, ← Int.ofNat_tdiv, toNat_ofInt_natCast]
  exact Nat.lt_of_le_of_lt (Nat.div_le_self _ _) (by omega)

theorem initPaging_pool (pmemSize : Word) (hsteady : e.Steady) (hserved : e.Served) :
    ∃ k', initPaging e pmemSize k = .ok (some k') ∧ k'.freeMemory = (List.range' (firstFrame k.kernelBreak)
      (pmemSize.toNat / pageSize - firstFrame k.kernelBreak)).filter (· ≠ 0) := by
  obtain ⟨o, ho, hsome, hspec⟩ := initPaging_spec e pmemSize (k := k) (.inr hsteady)
  cases o with
  | none => exact absurd rfl (hsome hserved)
  | some k' =>
    obtain ⟨hfree, -⟩ := hspec k' rfl
    have hbrk : e.startBreak k = k.kernelBreak := by simp [PagingEnv.startBreak, raised, hsteady.queue]
    refine ⟨k', ho, ?_⟩
    rw [hfree, PagingEnv.pushed, PagingEnv.offered, hbrk]
    exact List.filter_eq_self.mpr fun f _ => hserved.node f

theorem range_exact_iff (pmemSize brk : Word) :
    PoolExact pmemSize brk ((List.range' (brk.toNat / pageSize)
      (pmemSize.toNat / pageSize - brk.toNat / pageSize)).filter (· ≠ 0)) ↔
      pmemSize.toNat / pageSize ≤ brk.toNat / pageSize ∨
        (0 < brk.toNat ∧ (brk.toNat < pageSize ∨ brk.toNat % pageSize = 0)) := by
  have hmem : ∀ f, f ∈ (List.range' (brk.toNat / pageSize)
      (pmemSize.toNat / pageSize - brk.toNat / pageSize)).filter (· ≠ 0) ↔
      (brk.toNat / pageSize ≤ f ∧ f < pmemSize.toNat / pageSize) ∧ f ≠ 0 := by
    intro f
    simp only [List.mem_filter, List.mem_range'_1, decide_eq_true_eq]
    omega
  constructor
  · intro h
    -- the frame of the break itself
    have hfirst := (hmem (brk.toNat / pageSize)).symm.trans (h.mem (brk.toNat / pageSize))
    simp only [pageSize] at hfirst ⊢
    omega
  · intro h
    refine ⟨List.Pairwise.filter _ List.pairwise_lt_range', fun f => (hmem f).trans ?_⟩
    simp only [pageSize] at h ⊢
    omega

/-- **The pool is exact for some breaks.** With a `malloc` that never fails and leaves a break below `2 ^ 31` alone,
`initPaging` frees exactly the unused frames if and only if no frame is left after that of the break, or the break is
not 0, and in frame 0 or at the start of a frame. -/
theorem poolExact_iff (pmemSize : Word) (hsteady : e.Steady) (hserved : e.Served)
    (hbrk : k.kernelBreak.toNat < 2 ^ 31) :
    ∃ k', initPaging e pmemSize k = .ok (some k') ∧ (PoolExact pmemSize k.kernelBreak k'.freeMemory ↔
      pmemSize.toNat / pageSize ≤ k.kernelBreak.toNat / pageSize ∨
        (0 < k.kernelBreak.toNat ∧ (k.kernelBreak.toNat < pageSize ∨ k.kernelBreak.toNat % pageSize = 0))) := by
  obtain ⟨k', hrun, hfree⟩ := initPaging_pool (k := k) pmemSize hsteady hserved
  refine ⟨k', hrun, ?_⟩
  rw [hfree, firstFrame_of_lt hbrk]
  exact range_exact_iff pmemSize k.kernelBreak

/-- An outside where every allocation succeeds and leaves the break alone. -/
def steadyEnv : PagingEnv where
  env := calmEnv
  queue := ⟨none, true⟩
  node _ := ⟨none, true⟩
  region0 := ⟨⟨none, true⟩, ⟨none, true⟩, 0x5000⟩
  region1 := ⟨⟨none, true⟩, ⟨none, true⟩, 0x5010⟩

theorem steady_steadyEnv : steadyEnv.Steady := ⟨rfl, fun _ => rfl, ⟨rfl, rfl⟩, rfl, rfl⟩

theorem served_steadyEnv : steadyEnv.Served := ⟨rfl, fun _ => rfl, ⟨rfl, rfl⟩, rfl, rfl⟩

theorem poolExact_iff_aligned : ∃ k', initPaging steadyEnv 0x10000 coldKernel = .ok (some k') ∧
    (PoolExact 0x10000 coldKernel.kernelBreak k'.freeMemory ↔
      (0x10000 : Word).toNat / pageSize ≤ coldKernel.kernelBreak.toNat / pageSize ∨
        (0 < coldKernel.kernelBreak.toNat ∧
          (coldKernel.kernelBreak.toNat < pageSize ∨ coldKernel.kernelBreak.toNat % pageSize = 0))) :=
  poolExact_iff 0x10000 steady_steadyEnv served_steadyEnv (by decide)

/-- With the break in the middle of page 2, the frame of that page is free. -/
theorem poolExact_fails_unaligned : ∃ k',
    initPaging steadyEnv 0x10000 { coldKernel with kernelBreak := 0x5000 } = .ok (some k') ∧
      k'.freeMemory = [2, 3, 4, 5, 6, 7] ∧ ¬ PoolExact 0x10000 0x5000 k'.freeMemory := by
  obtain ⟨k', hrun, hfree⟩ := initPaging_pool (k := { coldKernel with kernelBreak := 0x5000 }) 0x10000
    steady_steadyEnv served_steadyEnv
  have hpool : k'.freeMemory = [2, 3, 4, 5, 6, 7] := by
    rw [hfree]
    decide
  refine ⟨k', hrun, hpool, fun h => ?_⟩
  rw [hpool] at h
  exact absurd ((h.mem 2).mp (by decide)) (by decide)

end Pool

end MooseOS
