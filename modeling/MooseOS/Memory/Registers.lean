import MooseOS.Memory.Stores

/-!
# The registers and the table of region 0

* `Matches k` : the registers of region 0 describe its table;
* `initPaging_matches` : `initPaging` sets them so;
* `StillMatches` : they still do, and no store of the call was past the first index after the table;
* `registers_match_iff` : this is so if and only if the table was not expanded, nor shrunk over from outside.
-/

namespace MooseOS
open Prog

/-- `REG_PTBR0` holds the base of the table of region 0, and `REG_PTLR0` the address just past it. -/
def Matches (k : Kernel) : Prop :=
  k.registers .ptbr0 = (getPagetableMemoryRange k.pagetableRegion0).1 ∧
    k.registers .ptlr0 = (getPagetableMemoryRange k.pagetableRegion0).2

section Match
variable {k k' : Kernel}

theorem matches_of_same (h : Matches k) (hb : k'.registers .ptbr0 = k.registers .ptbr0)
    (hl : k'.registers .ptlr0 = k.registers .ptlr0) (hn : k'.pagetableRegion0.numPages = k.pagetableRegion0.numPages)
    (hbase : k'.pagetableRegion0.base = k.pagetableRegion0.base) : Matches k' := by
  simp only [Matches, getPagetableMemoryRange, hb, hl, hn, hbase] at h ⊢
  exact h

theorem not_matches_of_lt (h : Matches k) (hb : k'.registers .ptbr0 = k.registers .ptbr0)
    (hl : k'.registers .ptlr0 = k.registers .ptlr0)
    (hlt : k.pagetableRegion0.numPages < k'.pagetableRegion0.numPages)
    (hmax : k'.pagetableRegion0.numPages ≤ maxPtLen) : ¬ Matches k' := by
  intro ⟨hb', hl'⟩
  simp only [Matches, getPagetableMemoryRange] at h hb' hl'
  have hbase : k.pagetableRegion0.base = k'.pagetableRegion0.base := by rw [← h.1, ← hb, hb']
  have hlimit := (h.2.symm.trans hl.symm).trans hl'
  rw [hbase] at hlimit
  have hlen := congrArg BitVec.toNat ((BitVec.add_right_inj _).mp hlimit)
  rw [BitVec.toNat_ofNat, BitVec.toNat_ofNat] at hlen
  have := maxPtLen_eq
  omega

end Match

/-! ## The registers -/

def GrowthExpands (env : Env) (k : Kernel) (addr : Word) : Prop :=
  ∃ v, pageOf k.kernelBreak < v ∧ v ≤ pageOf addr ∧ Expands k.pagetableRegion0 v (env.realloc v)

/-- The data range of `initVirtualMemory` starts at page 0 and is not empty, and its first page past the table expands
the table. -/
def DataExpands (env : Env) (k : Kernel) : Prop :=
  k.kernelDataStart.toNat < pageSize ∧ pageSize ≤ k.kernelBreak.toNat ∧
    Expands k.pagetableRegion0 (k.pagetableRegion0.numPages + 1) (env.realloc (k.pagetableRegion0.numPages + 1))

theorem setKernelBrk_matches_iff (env : Env) {k : Kernel} (hm : Matches k) (h0 : 0 < k.pagetableRegion0.numPages)
    (hv : k.virtualMemoryEnabled = true) (addr : Word) :
    ∃ r, setKernelBrk env addr k = .ok r ∧ (Matches r.after ↔ ¬ GrowthExpands env k addr) := by
  by_cases hsame : pageOf addr = pageOf k.kernelBreak
  · exact ⟨_, setKernelBrk_same env hsame, iff_of_true (matches_of_same hm rfl rfl rfl rfl)
      fun ⟨v, h1, h2, _⟩ => by omega⟩
  · obtain ⟨s, hs, hT⟩ := moveLoop_table env h0 k.freeMemory (pageOf k.kernelBreak) (pageOf addr)
    obtain ⟨r, hr, hn, hb, hregs, -⟩ := setKernelBrk_after hv hsame hs
    refine ⟨r, hr, ?_⟩
    rcases hT with ⟨block, hno⟩ | ⟨block, v, hpv, hvq, hexp⟩
    · exact iff_of_true (matches_of_same hm (by rw [hregs]) (by rw [hregs]) (hn.trans block.1) (hb.trans block.2))
        fun ⟨v, h1, h2, h3⟩ => hno v h1 h2 h3
    · exact iff_of_false (not_matches_of_lt hm (by rw [hregs]) (by rw [hregs]) (by rw [hn]; exact block.1)
        (by rw [hn]; exact block.2)) (not_not.mpr ⟨v, hpv, hvq, hexp⟩)

/-- A page number rounded up to a multiple of the page size is 0, or larger than any table that can be expanded. -/
theorem roundup_cases (n : Nat) :
    (n < pageSize ∧ roundup (n / pageSize) pageSize = 0) ∨
    (pageSize ≤ n ∧ pageSize ≤ roundup (n / pageSize) pageSize) := by
  unfold roundup
  simp only [pageSize]
  omega

theorem roundup_ne {n c : Nat} (h0 : 0 < c) (h : c < pageSize) : roundup n pageSize ≠ c := by
  simp only [roundup, pageSize] at h ⊢
  omega

theorem roundup_past (n : Nat) (h : 0 < roundup (n / pageSize) pageSize) :
    maxPtLen + 1 < roundup (n / pageSize) pageSize := by
  have hmax := maxPtLen_eq
  have hsize := pageSize_eq
  rcases roundup_cases n with ⟨-, hr⟩ | ⟨-, hr⟩
  · omega
  · omega

theorem dataExpands_iff (env : Env) (k : Kernel) {t : Pagetable} (hL : t.numPages = k.pagetableRegion0.numPages) :
    RangeExpands env t (roundup (k.kernelDataStart.toNat / pageSize) pageSize)
      (roundup (k.kernelBreak.toNat / pageSize) pageSize) ↔ DataExpands env k := by
  have hmax := maxPtLen_eq
  have hsize := pageSize_eq
  unfold RangeExpands DataExpands Expands
  rw [firstPast, hL]
  rcases roundup_cases k.kernelDataStart.toNat with ⟨hstart, h0⟩ | ⟨hstart, h0⟩
  · rw [h0, Nat.zero_max]
    rcases roundup_cases k.kernelBreak.toNat with ⟨hbrk, h1⟩ | ⟨hbrk, h1⟩
    · exact iff_of_false (by omega) (by omega)
    · exact ⟨fun h => ⟨hstart, hbrk, h.2⟩, fun h => ⟨by omega, h.2.2⟩⟩
  · exact iff_of_false (fun h => by omega) (fun h => by omega)

/-- `initVirtualMemory` leaves matching registers exactly if the initialization of the data range does not expand the
table. A text range that is not empty reaches past every table that can be expanded, and fails. -/
theorem initVirtualMemory_matches_iff (env : Env) {k : Kernel} (hm : Matches k)
    (h0 : 0 < k.pagetableRegion0.numPages) :
    ∃ o, initVirtualMemory env k = .ok o ∧ ∀ r, o = .returned r → (Matches r.after ↔ ¬ DataExpands env k) := by
  obtain ⟨text, ht, -, hkept⟩ := rangeFailed_iff env h0 pmemBase
    (roundup (k.kernelDataStart.toNat / pageSize) pageSize) (protExec ||| protRead)
    fun hlt => roundup_past _ (Nat.zero_lt_of_lt hlt)
  unfold initVirtualMemory
  simp only [ht, ok_bind]
  by_cases hfail : text.val = .failed
  · exact ⟨_, if_pos hfail, fun r hr => by cases hr⟩
  -- the text range left the table in its block
  obtain ⟨hB, hne⟩ := hkept hfail
  have hL := hB.1
  obtain ⟨data, hd, hdata, -⟩ := rangeTable_spec env (show 0 < text.after.numPages by omega)
    (roundup (k.kernelDataStart.toNat / pageSize) pageSize) (roundup (k.kernelBreak.toNat / pageSize) pageSize)
    (protRead ||| protWrite)
  rw [dataExpands_iff env k hL] at hdata
  simp only [hd, ok_bind]
  rw [if_neg hfail, if_neg (roundup_ne (by decide) (by decide)), if_neg (by
    rintro (h | h)
    · exact hne h
    · exact roundup_ne (by decide) (by decide) h)]
  refine ⟨_, rfl, fun r hr => ?_⟩
  cases hr
  rcases hdata with ⟨hB', -, hno⟩ | ⟨hB', hexp⟩
  · exact iff_of_true (matches_of_same hm rfl rfl (hB'.1.trans hB.1) (hB'.2.trans hB.2)) hno
  · exact iff_of_false (not_matches_of_lt hm rfl rfl (by rw [← hL]; exact hB'.1) hB'.2) (not_not.mpr hexp)

/-- `initPaging` assigns the table of region 0 to the registers, and then region 1 to others. -/
theorem initPaging_matches {e : PagingEnv} {pmemSize : Word} {k k' : Kernel}
    (h : initPaging e pmemSize k = .ok (some k')) : Matches k' := by
  obtain ⟨k₁, -, h⟩ := bind_eq_ok.mp h
  split at h
  · cases h
  obtain ⟨s, -, h⟩ := bind_eq_ok.mp h
  obtain ⟨⟨pt0, k₂⟩, -, h⟩ := bind_eq_ok.mp h
  obtain ⟨⟨pt1, k₃⟩, -, h⟩ := bind_eq_ok.mp h
  cases pt0 with
  | none => cases h
  | some pt0 =>
    cases pt1 with
    | none => cases h
    | some pt1 =>
      cases h
      exact ⟨rfl, rfl⟩

/-- After a call with these stores the registers match, and each store was inside the table or at the first index past
it. -/
def StillMatches (k : Kernel) (stores : List TableStore) : Prop := Matches k ∧ ∀ w ∈ stores, w.Near

def ShrinksInside (k : Kernel) (addr : Word) : Prop :=
  pageOf addr < pageOf k.kernelBreak → pageOf k.kernelBreak ≤ k.pagetableRegion0.numPages

/-- **The registers match exactly while the table stays in its block.** They match when `initPaging` returns. From
there on `initVirtualMemory` leaves them matching if and only if it does not expand the table for the first page past
it of a data range that starts at page 0, and `setKernelBrk` if and only if it does not expand the table for a page
that it grows over, nor shrink from a page that is past the table. -/
theorem registers_match_iff (env : Env) {k : Kernel} (hm : Matches k) (h0 : 0 < k.pagetableRegion0.numPages) :
    (∀ e pmemSize cold paged, initPaging e pmemSize cold = .ok (some paged) → Matches paged) ∧
      (∃ o stores, initVirtualMemory env k = .ok o ∧ bootStores env k = .ok stores ∧
        ∀ r, o = .returned r → (StillMatches r.after stores ↔ ¬ DataExpands env k)) ∧
      (k.virtualMemoryEnabled = true → ∀ addr, ∃ r stores, setKernelBrk env addr k = .ok r ∧
        brkStores env addr k = .ok stores ∧
        (StillMatches r.after stores ↔ ¬ GrowthExpands env k addr ∧ ShrinksInside k addr)) := by
  refine ⟨fun e pmemSize cold paged => initPaging_matches, ?_, fun hv addr => ?_⟩
  · obtain ⟨o, ho, hiff⟩ := initVirtualMemory_matches_iff env hm h0
    obtain ⟨stores, hs, hnear⟩ := near_bootStores env h0
    exact ⟨o, stores, ho, hs, fun r hr => (and_iff_left hnear).trans (hiff r hr)⟩
  · obtain ⟨r, hr, hiff⟩ := setKernelBrk_matches_iff env hm h0 hv addr
    obtain ⟨stores, hs, hnear⟩ := near_brkStores_iff env addr hv h0
    exact ⟨r, stores, hr, hs, and_congr hiff hnear⟩

/-- A kernel with a table of four pages at `0x100`. -/
def smallKernel : Kernel := { bootKernel 0x2000 [5, 6, 7, 8, 9] with
  pagetableRegion0 := ⟨0x100, List.replicate 4 .empty⟩
  registers := pagetableAssignToRegisters ⟨0x100, List.replicate 4 .empty⟩ .ptbr0 .ptlr0 fun _ => 0 }

/-- An outside where `realloc` succeeds for page 5 only, with a block at `0x200`. -/
def movingEnv : Env := { calmEnv with realloc := fun v => if v = 5 then some ⟨0x200, fun _ => .empty⟩ else none }

theorem registers_match_iff_small :
    (∀ e pmemSize cold paged, initPaging e pmemSize cold = .ok (some paged) → Matches paged) ∧
      (∃ o stores, initVirtualMemory movingEnv smallKernel = .ok o ∧ bootStores movingEnv smallKernel = .ok stores ∧
        ∀ r, o = .returned r → (StillMatches r.after stores ↔ ¬ DataExpands movingEnv smallKernel)) ∧
      (smallKernel.virtualMemoryEnabled = true → ∀ addr, ∃ r stores, setKernelBrk movingEnv addr smallKernel = .ok r ∧
        brkStores movingEnv addr smallKernel = .ok stores ∧
        (StillMatches r.after stores ↔
          ¬ GrowthExpands movingEnv smallKernel addr ∧ ShrinksInside smallKernel addr)) :=
  registers_match_iff movingEnv ⟨rfl, rfl⟩ (by decide)

/-- Both ways to expand the table of four pages leave the registers behind, and shrinking from page 20 begins with a
store at index 20. -/
theorem registers_fail_five : Matches smallKernel ∧
    (∃ r, initVirtualMemory movingEnv smallKernel = .ok (.returned r) ∧ ¬ Matches r.after) ∧
    (∃ r, setKernelBrk movingEnv 0xA000 smallKernel = .ok r ∧ ¬ Matches r.after) ∧
      ∃ stores, brkStores calmEnv 0 { smallKernel with kernelBreak := 0x28000 } = .ok stores ∧
        ¬ ∀ w ∈ stores, w.Near := by
  have hm : Matches smallKernel := ⟨rfl, rfl⟩
  have hexp : Expands smallKernel.pagetableRegion0 5 (movingEnv.realloc 5) :=
    ⟨by decide, by decide, by simp [movingEnv]⟩
  refine ⟨hm, ?_, ?_, ?_⟩
  · obtain ⟨o, ho, hiff⟩ := initVirtualMemory_matches_iff movingEnv hm (by decide)
    have hsome : (initVirtualMemory movingEnv smallKernel).map (·.value.isSome) = .ok true := by decide
    rw [ho] at hsome
    cases o with
    | halted k => cases hsome
    | returned r => exact ⟨r, ho, fun h => (hiff r rfl).mp h ⟨by decide, by decide, hexp⟩⟩
  · obtain ⟨r, hr, hiff⟩ := setKernelBrk_matches_iff movingEnv hm (by decide) rfl 0xA000
    exact ⟨r, hr, fun h => hiff.mp h ⟨5, by decide, by decide, hexp⟩⟩
  · obtain ⟨stores, hs, hnear⟩ := near_brkStores_iff calmEnv (k := { smallKernel with kernelBreak := 0x28000 }) 0 rfl
      (by decide)
    exact ⟨stores, hs, fun h => absurd (hnear.mp h (by decide)) (by decide)⟩

end MooseOS
