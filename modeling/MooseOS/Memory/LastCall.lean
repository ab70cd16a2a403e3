import MooseOS.Memory.Frames
import MooseOS.Memory.Limits

/-!
# The last call decides the break

A call within the page of the break stores the address, a call that moves to another page rounds it down.

* `brkAfter` : the break after a call, on either path;
* `Called` : what a call does to the break, the frames and the pool, on either path;
* `MappedUpTo` : what holds between calls;
* `lastDecides_iff` : when a call before the last one leaves no trace.
-/

namespace MooseOS
open Prog

/-! ## The break after a call -/

/-- `((int)addr >> PAGESHIFT) << PAGESHIFT`. -/
def roundDown (addr : Word) : Word := (addr.sshiftRight pageShift) <<< pageShift

/-- The break that a call with `addr` leaves, where it was `brk`. -/
def brkAfter (brk addr : Word) : Word := if pageOf addr = pageOf brk then addr else roundDown addr

section Break
variable {addr : Word}

theorem pageOf_brkAfter (brk addr : Word) : pageOf (brkAfter brk addr) = pageOf addr := by
  unfold brkAfter
  split
  · rfl
  · exact pageOf_roundDown addr

theorem roundDown_eq_iff (addr : Word) : roundDown addr = addr ↔ addr.toNat % pageSize = 0 := by
  have hdiv := Nat.div_add_mod addr.toNat pageSize
  rw [← BitVec.toNat_inj, roundDown, toNat_roundDown, pageOf_eq, Nat.mul_comm]
  omega

theorem le_roundDown_iff (addr : Word) : addr.toNat ≤ (roundDown addr).toNat ↔ addr.toNat % pageSize = 0 := by
  have hdiv := Nat.div_add_mod addr.toNat pageSize
  rw [roundDown, toNat_roundDown, pageOf_eq, Nat.mul_comm]
  omega

theorem brkAfter_aligned (h : addr.toNat % pageSize = 0) (brk : Word) : brkAfter brk addr = addr := by
  unfold brkAfter
  split
  · rfl
  · exact (roundDown_eq_iff addr).mpr h

/-- Whether the break after calls with `A` and `B` is the one after `B` alone, and reaches `B`. -/
theorem brkAfter_twice_iff (brk A B : Word) :
    (brkAfter (brkAfter brk A) B = brkAfter brk B ∧ B.toNat ≤ (brkAfter (brkAfter brk A) B).toNat) ↔
      B.toNat % pageSize = 0 ∨ pageOf A = pageOf brk ∧ pageOf B = pageOf brk := by
  by_cases hB : B.toNat % pageSize = 0
  · simp [brkAfter_aligned hB, hB]
  · have hne : roundDown B ≠ B := mt (roundDown_eq_iff B).mp hB
    have hnle : ¬ B.toNat ≤ (roundDown B).toNat := mt (le_roundDown_iff B).mp hB
    have hAB : brkAfter (brkAfter brk A) B = if pageOf B = pageOf A then B else roundDown B := by
      rw [brkAfter, pageOf_brkAfter]
    have hb : brkAfter brk B = if pageOf B = pageOf brk then B else roundDown B := rfl
    rw [hAB, hb, or_iff_right hB]
    -- the last call must not round, neither after the first one nor alone
    by_cases hpA : pageOf B = pageOf A
    · by_cases hpb : pageOf B = pageOf brk
      · rw [if_pos hpA, if_pos hpb]
        exact iff_of_true ⟨rfl, Nat.le_refl _⟩ ⟨hpA.symm.trans hpb, hpb⟩
      · rw [if_pos hpA, if_neg hpb]
        exact iff_of_false (fun h => hne h.1.symm) (fun h => hpb h.2)
    · rw [if_neg hpA]
      exact iff_of_false (fun h => hnle h.2) (fun h => hpA (h.2.trans h.1.symm))

end Break

/-! ## One call -/

/-- What a call with `addr` does, whether it moves the break to another page or not. -/
structure Called (env : Env) (addr : Word) (k k' : Kernel) : Prop where
  brk : k'.kernelBreak = brkAfter k.kernelBreak addr
  grown : ∀ v, pageOf k.kernelBreak < v → v ≤ pageOf addr →
    k'.pagetableRegion0.entry v = .mapped (k.freeMemory.getD (v - (pageOf k.kernelBreak + 1)) 0) protHeap
  free : k'.freeMemory = if pageOf k.kernelBreak < pageOf addr
    then k.freeMemory.drop (pageOf addr - pageOf k.kernelBreak)
    else k.freeMemory ++ released env k.pagetableRegion0 (pageOf k.kernelBreak) (pageOf k.kernelBreak - pageOf addr)

/-- The break is on page `c`, and of the pages after `b₀` exactly those up to `c` are valid. -/
structure MappedUpTo (b₀ c : Nat) (k : Kernel) : Prop where
  enabled : k.virtualMemoryEnabled = true
  numPages : k.pagetableRegion0.numPages = maxPtLen
  brk : pageOf k.kernelBreak = c
  lt : c < kernelStackPage
  valid : ∀ v, b₀ < v → v < maxPtLen → ((k.pagetableRegion0.entry v).valid = true ↔ v ≤ c)

section Calls
variable {env : Env} {addr : Word} {b₀ c : Nat} {k k' : Kernel}

theorem brk_of_moved (hv : k.virtualMemoryEnabled = true) (hne : pageOf addr ≠ pageOf k.kernelBreak)
    (hrun : setKernelBrk env addr k = .ok ⟨0, k', true⟩) : k'.kernelBreak = roundDown addr := by
  unfold setKernelBrk at hrun
  simp only [hv, Bool.true_eq_false, if_false, if_neg hne] at hrun
  obtain ⟨moved, -, hrun⟩ := bind_eq_ok.mp hrun
  obtain ⟨valid, -, hrun⟩ := bind_eq_ok.mp hrun
  split at hrun
  · cases hrun
  · obtain ⟨below, -, hrun⟩ := bind_eq_ok.mp hrun
    simp only [Except.ok.injEq, Ran.mk.injEq] at hrun
    rw [← hrun.2.1]
    rfl

/-- **One call**, on the path within the page or on the one that moves the break. -/
theorem setKernelBrk_called (env : Env) (addr : Word) (h : MappedUpTo b₀ c k) (hq : pageOf addr < kernelStackPage) :
    ∃ k', setKernelBrk env addr k = .ok ⟨0, k', true⟩ ∧ MappedUpTo b₀ (pageOf addr) k' ∧ Called env addr k k' := by
  have hmax := kernelStackPage_lt
  have hpage := h.brk
  have hlt := h.lt
  by_cases hsame : pageOf addr = pageOf k.kernelBreak
  · refine ⟨_, setKernelBrk_same env hsame, ⟨h.enabled, h.numPages, rfl, hq, ?_⟩, ⟨?_, fun v h1 h2 => by omega, ?_⟩⟩
    · rw [hsame, hpage]
      exact h.valid
    · rw [brkAfter, if_pos hsame]
    · simp [hsame, released]
  · obtain ⟨k', hrun, hM⟩ := setKernelBrk_moved env addr h.enabled h.numPages hsame (by omega) (by omega)
    refine ⟨k', hrun, ⟨hM.enabled, hM.numPages, hM.brk, hq, fun v _ hv => hM.valid_iff hv⟩, ?_, hM.grown, hM.free⟩
    rw [brk_of_moved h.enabled hsame hrun, brkAfter, if_neg hsame]

theorem Called.free_of_le (h : Called env addr k k') (hle : pageOf k.kernelBreak ≤ pageOf addr) :
    k'.freeMemory = k.freeMemory.drop (pageOf addr - pageOf k.kernelBreak) := by
  rw [h.free]
  split_ifs with hlt
  · rfl
  · simp [show pageOf addr = pageOf k.kernelBreak by omega, released]

end Calls

/-! ## Two calls -/

/-- The list has `n` frames to give, and none of them is 0 in the 24 bits of a table entry. -/
structure Supplies (free : List Nat) (n : Nat) : Prop where
  le : n ≤ free.length
  nonZero : ∀ i < n, BitVec.ofNat 24 (free.getD i 0) ≠ 0

/-- After `k₁` and after `k₂` the break, the valid pages after `b₀` and the number of free frames are the same, and
the break of `k₁` is not below `addr`. -/
structure LastDecides (b₀ : Nat) (addr : Word) (k₁ k₂ : Kernel) : Prop where
  brk : k₁.kernelBreak = k₂.kernelBreak
  reaches : addr.toNat ≤ k₁.kernelBreak.toNat
  valid : ∀ v, b₀ < v → v < maxPtLen →
    (k₁.pagetableRegion0.entry v).valid = (k₂.pagetableRegion0.entry v).valid
  free : k₁.freeMemory.length = k₂.freeMemory.length

section Last
variable {env envA envB : Env} {A B : Word} {b₀ : Nat} {k k₁ k₂ k₃ : Kernel}

theorem length_released_eq_iff (env : Env) (table : Pagetable) (p n : Nat) :
    (released env table p n).length = n ↔ ∀ i < n, (table.entry (p - i)).pfn ≠ 0 ∧ env.malloc (p - i) = true := by
  have hlen : ((List.range n).map (p - ·)).length = n := by simp
  have hfilter := List.length_filter_eq_length_iff (l := (List.range n).map (p - ·))
    (p := fun v => decide ((table.entry v).pfn.toNat ≠ 0 ∧ env.malloc v = true))
  rw [hlen] at hfilter
  unfold released
  rw [List.length_map, hfilter]
  simp [BitVec.toNat_eq]

theorem length_released_le (env : Env) (table : Pagetable) (p n : Nat) : (released env table p n).length ≤ n := by
  unfold released
  rw [List.length_map]
  exact (List.length_filter_le _ _).trans_eq (by simp)

theorem free_twice_iff (hA : pageOf k.kernelBreak ≤ pageOf A) (hB : pageOf k.kernelBreak ≤ pageOf B)
    (hfree : Supplies k.freeMemory (max (pageOf A) (pageOf B) - pageOf k.kernelBreak))
    (h₁ : Called envA A k k₁) (h₂ : Called envB B k₁ k₂) (h₃ : Called env B k k₃) :
    k₂.freeMemory.length = k₃.freeMemory.length ↔ ∀ v, pageOf B < v → v ≤ pageOf A → envB.malloc v = true := by
  have hle := hfree.le
  have hpage : pageOf k₁.kernelBreak = pageOf A := by rw [h₁.brk, pageOf_brkAfter]
  rw [h₃.free_of_le hB, List.length_drop]
  rcases Nat.lt_or_ge (pageOf B) (pageOf A) with hlt | hge
  · -- the first call took more frames than the second one leaves in use
    have hback := length_released_le envB k₁.pagetableRegion0 (pageOf A) (pageOf A - pageOf B)
    have hpfn : ∀ i < pageOf A - pageOf B, (k₁.pagetableRegion0.entry (pageOf A - i)).pfn ≠ 0 := by
      intro i hi
      rw [h₁.grown _ (by omega) (by omega)]
      exact hfree.nonZero _ (by omega)
    rw [h₂.free, hpage, if_neg (by omega), List.length_append, h₁.free_of_le hA, List.length_drop]
    have hall := length_released_eq_iff envB k₁.pagetableRegion0 (pageOf A) (pageOf A - pageOf B)
    constructor
    · intro h v hBv hvA
      have hi := (hall.mp (by omega) (pageOf A - v) (by omega)).2
      rwa [show pageOf A - (pageOf A - v) = v by omega] at hi
    · intro h
      have hlen := hall.mpr fun i hi => ⟨hpfn i hi, h _ (by omega) (by omega)⟩
      omega
  · refine iff_of_true ?_ (fun v hBv hvA => by omega)
    rw [h₂.free_of_le (by omega), hpage, h₁.free_of_le hA, List.length_drop, List.length_drop]
    omega

/-- **The last call decides the break** for an address that is the first of its page, or where both calls stay on the
page `b₀` of the break; the frames that the last call gives back are all free again where each list node for one is
allocated. The pool is a FIFO here. -/
theorem lastDecides_iff (envA envB env : Env) (hk : MappedUpTo b₀ b₀ k)
    (hA : b₀ ≤ pageOf A) (hA' : pageOf A < kernelStackPage) (hB : b₀ ≤ pageOf B) (hB' : pageOf B < kernelStackPage)
    (hfree : Supplies k.freeMemory (max (pageOf A) (pageOf B) - b₀)) :
    ∃ k₁ k₂ k₃, setKernelBrk envA A k = .ok ⟨0, k₁, true⟩ ∧ setKernelBrk envB B k₁ = .ok ⟨0, k₂, true⟩ ∧
      setKernelBrk env B k = .ok ⟨0, k₃, true⟩ ∧ (LastDecides b₀ B k₂ k₃ ↔
        (B.toNat % pageSize = 0 ∨ pageOf A = b₀ ∧ pageOf B = b₀) ∧
          ∀ v, pageOf B < v → v ≤ pageOf A → envB.malloc v = true) := by
  obtain ⟨k₁, hrun₁, hk₁, h₁⟩ := setKernelBrk_called envA A hk hA'
  obtain ⟨k₂, hrun₂, hk₂, h₂⟩ := setKernelBrk_called envB B hk₁ hB'
  obtain ⟨k₃, hrun₃, hk₃, h₃⟩ := setKernelBrk_called env B hk hB'
  obtain rfl := hk.brk
  have hbrk := brkAfter_twice_iff k.kernelBreak A B
  rw [← h₁.brk, ← h₂.brk, ← h₃.brk] at hbrk
  have hcount := free_twice_iff hA hB hfree h₁ h₂ h₃
  refine ⟨k₁, k₂, k₃, hrun₁, hrun₂, hrun₃, fun h => ⟨hbrk.mp ⟨h.brk, h.reaches⟩, hcount.mp h.free⟩, ?_⟩
  rintro ⟨haddr, hmalloc⟩
  obtain ⟨hsame, hreach⟩ := hbrk.mpr haddr
  refine ⟨hsame, hreach, fun v hbv hv => ?_, hcount.mpr hmalloc⟩
  rw [Bool.eq_iff_iff, hk₂.valid v hbv hv, hk₃.valid v hbv hv]

theorem mappedUpTo_bootKernel (brk : Word) (free : List Nat) (hlt : pageOf brk < kernelStackPage) :
    MappedUpTo (pageOf brk) (pageOf brk) (bootKernel brk free) := by
  refine ⟨rfl, numPages_bootKernel _ _, rfl, hlt, fun v hbv hv => iff_of_false ?_ (by omega)⟩
  rw [entry_bootKernel_above brk free hbv hv]
  exact Bool.false_ne_true

theorem lastDecides_iff_back : ∃ k₁ k₂ k₃,
    setKernelBrk calmEnv 0x8000 (bootKernel 0x4000 [5, 6]) = .ok ⟨0, k₁, true⟩ ∧
      setKernelBrk calmEnv 0x6000 k₁ = .ok ⟨0, k₂, true⟩ ∧
      setKernelBrk calmEnv 0x6000 (bootKernel 0x4000 [5, 6]) = .ok ⟨0, k₃, true⟩ ∧ (LastDecides 2 0x6000 k₂ k₃ ↔
        ((0x6000 : Word).toNat % pageSize = 0 ∨ pageOf 0x8000 = 2 ∧ pageOf 0x6000 = 2) ∧
          ∀ v, pageOf 0x6000 < v → v ≤ pageOf 0x8000 → calmEnv.malloc v = true) :=
  lastDecides_iff calmEnv calmEnv calmEnv (mappedUpTo_bootKernel 0x4000 [5, 6] (by decide)) (by decide) (by decide)
    (by decide) (by decide) ⟨by decide, by decide⟩

/-- Alone, the call with 0x6010 leaves the break at 0x6000; after one with 0x6000 it leaves it at 0x6010. -/
theorem lastDecides_fails_unaligned : ∃ k₁ k₂ k₃,
    setKernelBrk calmEnv 0x6000 (bootKernel 0x4000 [5]) = .ok ⟨0, k₁, true⟩ ∧
      setKernelBrk calmEnv 0x6010 k₁ = .ok ⟨0, k₂, true⟩ ∧
      setKernelBrk calmEnv 0x6010 (bootKernel 0x4000 [5]) = .ok ⟨0, k₃, true⟩ ∧
      k₂.kernelBreak = 0x6010 ∧ k₃.kernelBreak = 0x6000 ∧ ¬ LastDecides 2 0x6010 k₂ k₃ := by
  have hk := mappedUpTo_bootKernel 0x4000 [5] (by decide)
  obtain ⟨k₁, hrun₁, hk₁, h₁⟩ := setKernelBrk_called calmEnv 0x6000 hk (by decide)
  obtain ⟨k₂, hrun₂, hk₂, h₂⟩ := setKernelBrk_called calmEnv 0x6010 hk₁ (by decide)
  obtain ⟨k₃, hrun₃, hk₃, h₃⟩ := setKernelBrk_called calmEnv 0x6010 hk (by decide)
  have hbrk₂ : k₂.kernelBreak = 0x6010 := by
    rw [h₂.brk, h₁.brk]
    decide
  have hbrk₃ : k₃.kernelBreak = 0x6000 := by
    rw [h₃.brk]
    decide
  refine ⟨k₁, k₂, k₃, hrun₁, hrun₂, hrun₃, hbrk₂, hbrk₃, fun h => ?_⟩
  have hsame := h.brk
  rw [hbrk₂, hbrk₃] at hsame
  exact absurd hsame (by decide)

end Last

end MooseOS
