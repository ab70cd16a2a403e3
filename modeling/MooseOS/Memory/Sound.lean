import MooseOS.Memory.Life

/-!
# What holds while every access is inside the table

* `Sound` : what holds between two calls of a kernel that has booted;
* `setKernelBrk_sound` : a call inside the table keeps it;
* `sound_inside` : so does every run of such calls, and a life inside the table has it from the boot on.
-/

namespace MooseOS
open Prog

/-- Virtual memory is on; the registers name both tables, of which that of region 1 is empty, and that of region 0 has
been expanded some number of times and has the page of the break; and the free frames are not 0 and fit an entry. -/
structure Sound (k : Kernel) : Prop where
  enabled : k.virtualMemoryEnabled = true
  vmEnable : k.registers .vmEnable = 1
  named0 : Matches k
  region1 : Created 4 k.pagetableRegion1
  ptbr1 : k.registers .ptbr1 = (getPagetableMemoryRange k.pagetableRegion1).1
  ptlr1 : k.registers .ptlr1 = (getPagetableMemoryRange k.pagetableRegion1).2
  numPages : ∃ n ≤ 5, k.pagetableRegion0.numPages = tableLen n
  brk : pageOf k.kernelBreak < k.pagetableRegion0.numPages
  nonZero : 0 ∉ k.freeMemory
  small : ∀ f ∈ k.freeMemory, f < 2 ^ 24

section Sound
variable {env : Env} {addr : Word} {b : BootEnv} {ops : List (Env × Word)} {k k' k₁ : Kernel} {l : Life}

theorem Sound.le (h : Sound k) : k.pagetableRegion0.numPages ≤ maxPtLen := by
  obtain ⟨n, hn, hlen⟩ := h.numPages
  exact hlen.trans_le (tableLen_le hn)

/-- The frames that come back are those of entries, without 0. -/
theorem Moved.mem_free (h : Moved env addr k k') {f : Nat} (hf : f ∈ k'.freeMemory) :
    f ∈ k.freeMemory ∨ f ≠ 0 ∧ f < 2 ^ 24 := by
  rw [h.free] at hf
  split at hf
  · exact .inl (List.mem_of_mem_drop hf)
  · rcases List.mem_append.mp hf with hf | hf
    · exact .inl hf
    · obtain ⟨v, hv, rfl⟩ := List.mem_map.mp hf
      have hkept := of_decide_eq_true (List.mem_filter.mp hv).2
      exact .inr ⟨hkept.1, BitVec.isLt _⟩

/-- **One call** inside the table keeps it: the call stays on its page, or within a full table, which is never
expanded. -/
theorem setKernelBrk_sound {r : Ran Kernel Int} (h : Sound k) (hr : setKernelBrk env addr k = .ok r)
    (hin : r.inside = true) : Sound r.after := by
  obtain ⟨r', hr', hsafe⟩ := setKernelBrk_inside env addr h.enabled h.brk h.le
  cases hr.symm.trans hr'
  by_cases hsame : pageOf addr = pageOf k.kernelBreak
  · cases hr.symm.trans (setKernelBrk_same env hsame)
    exact ⟨h.enabled, h.vmEnable, matches_of_same h.named0 rfl rfl rfl rfl, h.region1, h.ptbr1, h.ptlr1, h.numPages,
      hsame ▸ h.brk, h.nonZero, h.small⟩
  · obtain ⟨hfull, hq⟩ := (hsafe.mp hin).resolve_left hsame
    have hbrk := h.brk
    obtain ⟨k', hr', hM⟩ := setKernelBrk_moved env addr h.enabled hfull hsame (by omega) hq
    obtain ⟨r'', hr'', hmatches⟩ := setKernelBrk_matches_iff env h.named0 (Nat.zero_lt_of_lt h.brk) h.enabled addr
    have hrest := setKernelBrk_rest hr
    cases hr.symm.trans hr'
    cases hr.symm.trans hr''
    refine ⟨hM.enabled, by rw [hrest.registers, h.vmEnable], hmatches.mpr ?_, by rw [hrest.region1]; exact h.region1,
      by rw [hrest.registers, hrest.region1, h.ptbr1], by rw [hrest.registers, hrest.region1, h.ptlr1],
      ⟨5, Nat.le_refl 5, hM.numPages⟩, by rw [hM.brk, hM.numPages]; exact hq, fun h0 => ?_, fun f hf => ?_⟩
    · rintro ⟨v, -, hvq, hpast, -⟩
      omega
    · rcases hM.mem_free h0 with h0 | h0
      · exact h.nonZero h0
      · exact h0.1 rfl
    · rcases hM.mem_free hf with hf | hf
      · exact h.small f hf
      · exact hf.2

theorem Lived.sound (h : Lived b ops k k₁ l) (hin : l.Inside) : Sound l.booted.after := by
  have hregs := h.booted.registers
  have hregion : l.booted.after.pagetableRegion1 = k₁.pagetableRegion1 := by rw [h.booted.rest]
  have hfree : l.booted.after.freeMemory = b.paging.pushed b.pmemSize (k.loaded b) := by
    rw [h.booted.rest]
    exact h.pushed
  have hlt := ((h.inside_iff).mp hin).1
  have htable := (h.small (by rwa [← h.kernelBreak])).2
  have hlen : l.booted.after.pagetableRegion0.numPages = 4 := by rw [htable, h.paged.region0.numPages]
  refine ⟨h.enabled, by rw [hregs, writeRegister_self], ?_, by rw [hregion]; exact h.paged.region1, ?_, ?_,
    ⟨0, by decide, hlen⟩, ?_, ?_, ?_⟩
  · exact matches_of_same h.paged.named0 (by rw [hregs]; rfl) (by rw [hregs]; rfl) (by rw [htable]) (by rw [htable])
  · rw [hregs, hregion]
    exact h.paged.ptbr1
  · rw [hregs, hregion]
    exact h.paged.ptlr1
  · rw [hlen, (pageOf_eq_zero_iff _).mpr hlt]
    decide
  · rw [hfree]
    simp [PagingEnv.pushed, PagingEnv.offered]
  · rw [hfree]
    intro f hf
    have hmem := List.mem_range'_1.mp (List.mem_of_mem_filter (List.mem_of_mem_filter hf))
    have hsize := b.pmemSize.isLt
    rw [pageSize_eq] at hmem
    omega

theorem sound_run (hk : Sound k) (ops : List (Env × Word)) {rs : List (Int × Bool)}
    (hrun : brkMachine.run k ops = .ok (rs, k')) (hin : ∀ r ∈ rs, r.2 = true) : Sound k' := by
  induction ops generalizing k rs with
  | nil =>
    cases hrun
    exact hk
  | cons op ops ih =>
    obtain ⟨r, t, rs', hs, hrest, rfl⟩ := (brkMachine.run_cons_ok).mp hrun
    obtain ⟨hr, hrs⟩ := List.forall_mem_cons.mp hin
    obtain ⟨r', hr', hs⟩ := bind_eq_ok.mp hs
    cases hs
    exact ih (setKernelBrk_sound hk hr' hr) hrest hrs

/-- **Inside the table all is sound.** Every run of calls from a sound kernel leaves it sound if it stays inside the
table; and a life that does is sound when it has booted, and at its end. -/
theorem sound_inside (b : BootEnv) (ops ops₀ : List (Env × Word)) {k k₀ : Kernel}
    (hv : k.virtualMemoryEnabled = false) (hk : Sound k₀) :
    (∃ rs k', brkMachine.run k₀ ops₀ = .ok (rs, k') ∧ ((∀ r ∈ rs, r.2 = true) → Sound k')) ∧
      ∃ o, life b ops k = .ok o ∧ ∀ l, o = some l → l.Inside → Sound l.booted.after ∧ Sound l.last := by
  obtain ⟨rs, k', hrun⟩ := brkMachine_total ops₀ hk.enabled (Nat.zero_lt_of_lt hk.brk)
  obtain ⟨o, ho, -, hspec⟩ := life_spec b ops hv
  refine ⟨⟨rs, k', hrun, sound_run hk ops₀ hrun⟩, o, ho, fun l hl hin => ?_⟩
  obtain ⟨k₁, h⟩ := hspec l hl
  exact ⟨h.sound hin, sound_run (h.sound hin) ops h.run hin.2⟩

def soundKernel : Kernel := { bootKernel 0x4000 [5, 6, 7] with
  pagetableRegion1 := ⟨0x900, List.replicate 4 .empty⟩
  registers := fun
    | .vmEnable => 1
    | .ptbr0 => 0
    | .ptlr0 => 0x200
    | .ptbr1 => 0x900
    | .ptlr1 => 0x910 }

theorem sound_soundKernel : Sound soundKernel := by
  have hlen : soundKernel.pagetableRegion0.numPages = maxPtLen := numPages_bootKernel 0x4000 [5, 6, 7]
  refine ⟨rfl, rfl, ⟨rfl, ?_⟩, (created_iff 4 _).mpr ⟨0x900, rfl⟩, rfl, rfl, ⟨5, Nat.le_refl 5, hlen⟩, ?_, by decide,
    by decide⟩
  · rw [getPagetableMemoryRange, hlen]
    rfl
  · rw [hlen]
    decide

theorem sound_inside_steady :
    (∃ rs k', brkMachine.run soundKernel [(calmEnv, 0xA000), (calmEnv, 0x6000)] = .ok (rs, k') ∧
      ((∀ r ∈ rs, r.2 = true) → Sound k')) ∧
      ∃ o, life steadyBoot [(calmEnv, 0x1800)] coldKernel = .ok o ∧
        ∀ l, o = some l → l.Inside → Sound l.booted.after ∧ Sound l.last :=
  sound_inside steadyBoot _ _ rfl sound_soundKernel

end Sound

end MooseOS
