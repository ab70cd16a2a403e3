import MooseOS.Memory.BootMap
import MooseOS.Memory.InitialPool
import MooseOS.Memory.Safety

/-!
# From the start of the kernel on

The loader calls `SetKernelData`, the kernel boots with `KernalStart`, and its allocator calls `SetKernelBrk` from then
on.

* `kernalStart`, `life` : these calls, one after the other;
* `life_inside_iff` : the lives that never leave the table of region 0;
* `life_inside_empty` : they map no page at all.
-/

namespace MooseOS
open Prog

/-! ## The calls -/

/-- `KernalStart` of `yalnix.c`, as far as memory is concerned. It calls `initPaging` without its argument, so
`pmemSize` is whatever happens to be there. -/
def kernalStart (e : PagingEnv) (env : Env) (pmemSize : Word) (k : Kernel) : Exec (Option (Ran Kernel Unit)) := do
  match ← initPaging e pmemSize k with
  | none => .ok none
  | some paged => do
    let o ← initVirtualMemory env paged
    .ok o.value

/-- What the outside does until the kernel has booted. -/
structure BootEnv where
  paging : PagingEnv
  env : Env
  pmemSize : Word
  kernelDataStart : Word
  kernelDataEnd : Word

/-- A life: the kernel that has booted, what the calls after that report, and the kernel at the end. -/
structure Life where
  booted : Ran Kernel Unit
  reports : List (Int × Bool)
  last : Kernel

/-- Load, boot, and move the break; `none` if the boot halts. -/
def life (b : BootEnv) (ops : List (Env × Word)) (k : Kernel) : Exec (Option Life) := do
  let loaded ← setKernelData b.env b.kernelDataStart b.kernelDataEnd k
  match ← kernalStart b.paging b.env b.pmemSize loaded.after with
  | none => .ok none
  | some booted => do
    let r ← brkMachine.run booted.after ops
    .ok (some ⟨⟨(), booted.after, loaded.inside && booted.inside⟩, r.1, r.2⟩)

def Life.Inside (l : Life) : Prop := l.booted.inside = true ∧ ∀ r ∈ l.reports, r.2 = true

/-! ## The boot -/

section Paging
variable {env : Env} {e : PagingEnv} {k k' : Kernel}

theorem Rest.refl (k : Kernel) : Rest k k := ⟨rfl, rfl, rfl, rfl⟩

theorem Rest.trans {a b c : Kernel} (h : Rest a b) (h' : Rest b c) : Rest a c :=
  ⟨h'.dataStart.trans h.dataStart, h'.enabled.trans h.enabled, h'.region1.trans h.region1,
    h'.registers.trans h.registers⟩

theorem allocate_rest {a : Alloc} (h : allocate env a k = .ok k') : Rest k k' := by
  unfold allocate at h
  split at h
  · cases h
    exact .refl k
  · obtain ⟨r, hr, h⟩ := bind_eq_ok.mp h
    cases h
    exact setKernelBrk_rest hr

theorem pagingTurn_rest {s t : Int × Kernel} (h : pagingTurn e s = .ok t) : Rest s.2 t.2 := by
  unfold pagingTurn at h
  dsimp only at h
  split at h
  · cases h
    exact ⟨rfl, rfl, rfl, rfl⟩
  · obtain ⟨k, hk, h⟩ := bind_eq_ok.mp h
    cases h
    have hrest := allocate_rest hk
    exact ⟨hrest.dataStart, hrest.enabled, hrest.region1, hrest.registers⟩

theorem pagingLoop_rest {pmemSize : Word} {s t : Int × Kernel} (h : pagingLoop e pmemSize s = .ok t) :
    Rest s.2 t.2 :=
  (whileLoop_inv _ _ (fun u : Int × Kernel => Rest s.2 u.2) (fun _ _ hI _ hu => hI.trans (pagingTurn_rest hu)) _ _ _
    (.refl _) h).1

theorem createTable_rest {a : TableAlloc} {pt : Option Pagetable} (h : createTable env a k = .ok (pt, k')) :
    Rest k k' ∧ ∀ t, pt = some t → Created 4 t := by
  obtain ⟨k₁, h₁, h⟩ := bind_eq_ok.mp h
  dsimp only at h
  split at h
  · obtain ⟨k₂, h₂, h⟩ := bind_eq_ok.mp h
    obtain ⟨pt', hpt, h⟩ := bind_eq_ok.mp h
    cases h
    refine ⟨(allocate_rest h₁).trans (allocate_rest h₂), fun t ht => ?_⟩
    subst ht
    rw [pagetableCreate_spec] at hpt
    cases hm : a.malloc.ok with
    | false => simp [hm] at hpt
    | true =>
      rw [hm] at hpt
      exact ⟨a.base, by rw [pagetableCreate_spec]; exact hpt⟩
  · obtain ⟨pt', hpt, h⟩ := bind_eq_ok.mp h
    cases h
    cases hpt
    exact ⟨allocate_rest h₁, fun t ht => by cases ht⟩

/-- The kernel after `initPaging`: two empty tables, and the registers that name them. -/
structure Paged (k k' : Kernel) : Prop where
  dataStart : k'.kernelDataStart = k.kernelDataStart
  region0 : Created 4 k'.pagetableRegion0
  named0 : Matches k'
  region1 : Created 4 k'.pagetableRegion1
  ptbr1 : k'.registers .ptbr1 = (getPagetableMemoryRange k'.pagetableRegion1).1
  ptlr1 : k'.registers .ptlr1 = (getPagetableMemoryRange k'.pagetableRegion1).2

theorem initPaging_paged {pmemSize : Word} (h : initPaging e pmemSize k = .ok (some k')) : Paged k k' := by
  obtain ⟨k₁, h₁, h⟩ := bind_eq_ok.mp h
  split at h
  · cases h
  obtain ⟨s, hs, h⟩ := bind_eq_ok.mp h
  obtain ⟨⟨pt0, k₂⟩, h0, h⟩ := bind_eq_ok.mp h
  obtain ⟨⟨pt1, k₃⟩, h1, h⟩ := bind_eq_ok.mp h
  have hempty : Rest k₁ { k₁ with freeMemory := [] } := ⟨rfl, rfl, rfl, rfl⟩
  have hloop := ((allocate_rest h₁).trans hempty).trans (pagingLoop_rest hs)
  have hrest := (hloop.trans (createTable_rest h0).1).trans (createTable_rest h1).1
  cases pt0 with
  | none => cases h
  | some pt0 =>
    cases pt1 with
    | none => cases h
    | some pt1 =>
      cases h
      exact ⟨hrest.dataStart, (createTable_rest h0).2 _ rfl, ⟨rfl, rfl⟩, (createTable_rest h1).2 _ rfl, rfl, rfl⟩

end Paging

section Life
variable {b : BootEnv} {ops : List (Env × Word)} {k k₁ : Kernel} {l : Life}

def Kernel.loaded (k : Kernel) (b : BootEnv) : Kernel :=
  { k with
    kernelDataStart := b.kernelDataStart, kernelDataEnd := b.kernelDataEnd, kernelBreak := b.kernelDataEnd }

/-- The life was that of the kernel `k₁` which `initPaging` has left. -/
structure Lived (b : BootEnv) (ops : List (Env × Word)) (k k₁ : Kernel) (l : Life) : Prop where
  paged : Paged (k.loaded b) k₁
  start : b.kernelDataStart.toNat < pageSize
  pushed : k₁.freeMemory = b.paging.pushed b.pmemSize (k.loaded b)
  booted : Enabled k₁ l.booted.after
  small : k₁.kernelBreak.toNat < pageSize →
    l.booted.inside = true ∧ l.booted.after.pagetableRegion0 = k₁.pagetableRegion0
  large : pageSize ≤ k₁.kernelBreak.toNat →
    l.booted.inside = false ∧ ∃ n, BootTable b.env protHeap n l.booted.after.pagetableRegion0
  run : brkMachine.run l.booted.after ops = .ok (l.reports, l.last)

theorem Lived.enabled (h : Lived b ops k k₁ l) : l.booted.after.virtualMemoryEnabled = true := by rw [h.booted.rest]

theorem Lived.kernelBreak (h : Lived b ops k k₁ l) : l.booted.after.kernelBreak = k₁.kernelBreak := by
  rw [h.booted.rest]

theorem brkMachine_total (ops : List (Env × Word)) (hv : k.virtualMemoryEnabled = true)
    (h0 : 0 < k.pagetableRegion0.numPages) : ∃ rs k', brkMachine.run k ops = .ok (rs, k') := by
  obtain ⟨rs, k', hrun, -⟩ := brkMachine.run_total (fun _ => True)
    (fun k => k.virtualMemoryEnabled = true ∧ 0 < k.pagetableRegion0.numPages)
    (fun k op hk _ => by
      obtain ⟨r, hr, hJ⟩ := setKernelBrk_total op.1 op.2 hk.1 hk.2
      exact ⟨(r.val, r.inside), r.after, by simp only [brkMachine, hr, ok_bind], hJ⟩)
    ops k (by simp) ⟨hv, h0⟩
  exact ⟨rs, k', hrun⟩

theorem life_spec (b : BootEnv) (ops : List (Env × Word)) (hv : k.virtualMemoryEnabled = false) :
    ∃ o, life b ops k = .ok o ∧ (pageSize ≤ b.kernelDataStart.toNat → o = none) ∧
      ∀ l, o = some l → ∃ k₁, Lived b ops k k₁ l := by
  have hload : setKernelData b.env b.kernelDataStart b.kernelDataEnd k = .ok ⟨(), k.loaded b, true⟩ := by
    simp [setKernelData, setKernelBrk, hv, Kernel.loaded]
  obtain ⟨o, ho, -, hspec⟩ := initPaging_spec b.paging b.pmemSize (k := k.loaded b) (.inl hv)
  unfold life kernalStart
  simp only [hload, ok_bind, ho]
  cases o with
  | none => exact ⟨none, rfl, fun _ => rfl, fun l hl => by cases hl⟩
  | some k₁ =>
    obtain ⟨hfree, -⟩ := hspec k₁ rfl
    have hpaged := initPaging_paged ho
    have hdata : k₁.kernelDataStart = b.kernelDataStart := hpaged.dataStart
    obtain ⟨hhalt, hboot⟩ := boot_outcome b.env hpaged.region0
    rw [hdata] at hhalt hboot
    rcases Nat.lt_or_ge b.kernelDataStart.toNat pageSize with hlt | hge
    · obtain ⟨r, hr, hen, hsmall, hlarge⟩ := hboot hlt
      have hpos : 0 < r.after.pagetableRegion0.numPages := by
        rcases Nat.lt_or_ge k₁.kernelBreak.toNat pageSize with hbrk | hbrk
        · rw [(hsmall hbrk).2, hpaged.region0.numPages]
          decide
        · obtain ⟨-, n, htable⟩ := hlarge hbrk
          rw [htable.numPages]
          exact Nat.lt_of_lt_of_le (by decide) (four_le_tableLen n)
      obtain ⟨rs, k', hrun⟩ := brkMachine_total ops (by rw [hen.rest]) hpos
      simp only [hr, Ended.value, ok_bind, hrun, Bool.true_and]
      refine ⟨_, rfl, fun hge => by omega, fun l hl => ?_⟩
      cases hl
      exact ⟨k₁, hpaged, hlt, hfree, hen, hsmall, hlarge, hrun⟩
    · obtain ⟨k', hk', -⟩ := hhalt hge
      simp only [hk', Ended.value, ok_bind]
      exact ⟨none, rfl, fun _ => rfl, fun l hl => by cases hl⟩

theorem pageOf_eq_zero_iff (addr : Word) : pageOf addr = 0 ↔ addr.toNat < pageSize := by
  rw [pageOf_eq, Nat.div_eq_zero_iff]
  exact or_iff_right (by decide)

theorem Lived.inside_iff (h : Lived b ops k k₁ l) :
    l.Inside ↔ l.booted.after.kernelBreak.toNat < pageSize ∧ ∀ op ∈ ops, op.2.toNat < pageSize := by
  have hmax := maxPtLen_eq
  rw [h.kernelBreak]
  rcases Nat.lt_or_ge k₁.kernelBreak.toNat pageSize with hlt | hge
  · obtain ⟨hin, htable⟩ := h.small hlt
    have hn : l.booted.after.pagetableRegion0.numPages = 4 := by rw [htable, h.paged.region0.numPages]
    have hpage : pageOf l.booted.after.kernelBreak = 0 := by
      rw [h.kernelBreak]
      exact (pageOf_eq_zero_iff _).mpr hlt
    obtain ⟨rs, k', hrun, hiff⟩ := run_inside h.enabled (by omega) (by omega) ops
    rw [h.run] at hrun
    cases hrun
    have hsafe : ∀ addr, Safe l.booted.after addr ↔ addr.toNat < pageSize := by
      intro addr
      rw [← pageOf_eq_zero_iff, Safe, hpage, hn]
      exact or_iff_left (by omega)
    simp only [Life.Inside, hin, hiff, hsafe, hlt, true_and]
  · exact iff_of_false (fun hi => Bool.false_ne_true ((h.large hge).1.symm.trans hi.1)) (by omega)

/-- **Memory safety from power-on, exactly.** A life that boots stays inside the table of region 0 if and only if the
break is on page 0 when the kernel has booted, and no call moves it to another one. With data that starts after page 0
no kernel boots. -/
theorem life_inside_iff (b : BootEnv) (ops : List (Env × Word)) (hv : k.virtualMemoryEnabled = false) :
    ∃ o, life b ops k = .ok o ∧ (pageSize ≤ b.kernelDataStart.toNat → o = none) ∧ ∀ l, o = some l →
      (l.Inside ↔ l.booted.after.kernelBreak.toNat < pageSize ∧ ∀ op ∈ ops, op.2.toNat < pageSize) := by
  obtain ⟨o, ho, hnone, hspec⟩ := life_spec b ops hv
  refine ⟨o, ho, hnone, fun l hl => ?_⟩
  obtain ⟨k₁, h⟩ := hspec l hl
  exact h.inside_iff

def steadyBoot : BootEnv where
  paging := steadyEnv
  env := calmEnv
  pmemSize := 0x10000
  kernelDataStart := 0x100
  kernelDataEnd := 0x1000

theorem life_inside_iff_steady : ∃ o, life steadyBoot [(calmEnv, 0x1800), (calmEnv, 0x5000)] coldKernel = .ok o ∧
    (pageSize ≤ steadyBoot.kernelDataStart.toNat → o = none) ∧ ∀ l, o = some l →
      (l.Inside ↔ l.booted.after.kernelBreak.toNat < pageSize ∧
        ∀ op ∈ [(calmEnv, (0x1800 : Word)), (calmEnv, 0x5000)], op.2.toNat < pageSize) :=
  life_inside_iff steadyBoot _ rfl

theorem run_samePage {p : Nat} (ops : List (Env × Word)) (hops : ∀ op ∈ ops, pageOf op.2 = p) :
    ∀ k : Kernel, pageOf k.kernelBreak = p → ∃ rs k', brkMachine.run k ops = .ok (rs, k') ∧
      k' = { k with kernelBreak := k'.kernelBreak } := by
  induction ops with
  | nil => exact fun k _ => ⟨[], k, rfl, rfl⟩
  | cons op ops ih =>
    intro k hk
    have hsame : pageOf op.2 = pageOf k.kernelBreak := (hops op (by simp)).trans hk.symm
    obtain ⟨rs, k', hrun, hrest⟩ := ih (fun o ho => hops o (by simp [ho])) { k with kernelBreak := op.2 }
      (hops op (by simp))
    refine ⟨_, k', (brkMachine.run_cons_ok).mpr ⟨(0, true), _, rs, ?_, hrun, rfl⟩, hrest⟩
    simp only [brkMachine, setKernelBrk_same op.1 hsame, ok_bind]

/-- **A life inside the table maps nothing.** It runs with virtual memory enabled, and at its end, as at its
beginning, no page of region 0 is valid, and the frames that were pushed are free. -/
theorem life_inside_empty (b : BootEnv) (ops : List (Env × Word)) (hv : k.virtualMemoryEnabled = false) :
    ∃ o, life b ops k = .ok o ∧ ∀ l, o = some l → l.Inside → l.last.virtualMemoryEnabled = true ∧
      l.last.registers .vmEnable = 1 ∧ (∀ v, (l.last.pagetableRegion0.entry v).valid = false) ∧
      l.last.freeMemory = b.paging.pushed b.pmemSize (k.loaded b) := by
  obtain ⟨o, ho, -, hspec⟩ := life_spec b ops hv
  refine ⟨o, ho, fun l hl hin => ?_⟩
  obtain ⟨k₁, h⟩ := hspec l hl
  obtain ⟨hbrk, hops⟩ := (h.inside_iff).mp hin
  obtain ⟨rs, k', hrun, hrest⟩ := run_samePage (p := 0) ops (fun op hop => (pageOf_eq_zero_iff _).mpr (hops op hop))
    l.booted.after ((pageOf_eq_zero_iff _).mpr hbrk)
  rw [h.run] at hrun
  cases hrun
  have htable := (h.small (by rwa [← h.kernelBreak])).2
  have hempty : Created 4 l.booted.after.pagetableRegion0 := by
    rw [htable]
    exact h.paged.region0
  rw [hrest]
  refine ⟨h.enabled, ?_, fun v => ?_, ?_⟩
  · rw [show Kernel.registers _ = l.booted.after.registers from rfl, h.booted.registers, writeRegister_self]
  · rw [show Kernel.pagetableRegion0 _ = l.booted.after.pagetableRegion0 from rfl, hempty.entry]
    rfl
  · rw [show Kernel.freeMemory _ = l.booted.after.freeMemory from rfl, h.booted.rest]
    exact h.pushed

theorem life_inside_empty_steady : ∃ o, life steadyBoot [(calmEnv, 0x1800)] coldKernel = .ok o ∧
    ∀ l, o = some l → l.Inside → l.last.virtualMemoryEnabled = true ∧ l.last.registers .vmEnable = 1 ∧
      (∀ v, (l.last.pagetableRegion0.entry v).valid = false) ∧
      l.last.freeMemory = steadyEnv.pushed 0x10000 (coldKernel.loaded steadyBoot) :=
  life_inside_empty steadyBoot _ rfl

end Life

end MooseOS
