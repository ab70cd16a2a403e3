import MooseOS.Memory.Frames

/-!
# Booting and growing

Booting maps the pages below the break, growing maps the pages after the break's own up to that of the new break.

* `Booted K k` : the state that booting aims at for the break `K`;
* `Grew k₀ k` : the states that growing calls reach from `k₀`;
* `coversRun_iff` : every page below the break is usable if and only if the break of the boot is within a page, or
  never exceeded (and the boot left its own pages readable).
-/

namespace MooseOS
open Prog

def Readable (e : Pte) : Prop := e.prot &&& BitVec.ofNat 3 protRead ≠ 0

theorem readable_heap (pfn : Nat) : Readable (.mapped pfn protHeap) :=
  show BitVec.ofNat 3 protHeap &&& BitVec.ofNat 3 protRead ≠ 0 by decide

/-- The pages below the break `K` are mapped to the frames of their numbers, the others are empty, and the free frames
are distinct and none of those. -/
structure Booted (K : Word) (k : Kernel) : Prop where
  brk : k.kernelBreak = K
  below : K.toNat < kernelStackBase.toNat
  enabled : k.virtualMemoryEnabled = true
  numPages : k.pagetableRegion0.numPages = maxPtLen
  mapped : ∀ v, v * pageSize < K.toNat → (k.pagetableRegion0.entry v).valid = true ∧ k.pfn v = v ∧
    (k.pagetableRegion0.entry v).prot ≠ 0
  empty : ∀ v < maxPtLen, K.toNat ≤ v * pageSize → k.pagetableRegion0.entry v = .empty
  distinct : k.freeMemory.Nodup
  fresh : ∀ f ∈ k.freeMemory, K.toNat ≤ f * pageSize
  small : ∀ f ∈ k.freeMemory, f < 2 ^ 24

/-- Every page below `addr` is valid and readable, and no two of them have the same frame. -/
def Covered (k : Kernel) (addr : Word) : Prop :=
  ∀ v, v * pageSize < addr.toNat → (k.pagetableRegion0.entry v).valid = true ∧
    Readable (k.pagetableRegion0.entry v) ∧ ∀ w, w * pageSize < addr.toNat → k.pfn v = k.pfn w → v = w

/-- The calls never go back to a page before that of the call before. -/
def Growing : Nat → List (Env × Word) → Prop
  | _, [] => True
  | p, op :: ops => p ≤ pageOf op.2 ∧ Growing (pageOf op.2) ops

/-- After every call of the run the pages below its address are covered. -/
def CoversRun (k₀ : Kernel) (ops : List (Env × Word)) : Prop :=
  ∀ pre op post, ops = pre ++ op :: post → ∃ rs k, brkMachine.run k₀ (pre ++ [op]) = .ok (rs, k) ∧ Covered k op.2

/-- The pages up to the first break are as they were in `k₀`, but for bits `valid` that were set, and those after it
hold the first of the free frames. -/
structure Grew (k₀ k : Kernel) : Prop where
  enabled : k.virtualMemoryEnabled = true
  numPages : k.pagetableRegion0.numPages = maxPtLen
  le : pageOf k₀.kernelBreak ≤ pageOf k.kernelBreak
  lt : pageOf k.kernelBreak < maxPtLen
  kept : ∀ v ≤ pageOf k₀.kernelBreak, (k.pagetableRegion0.entry v).prot = (k₀.pagetableRegion0.entry v).prot ∧
    k.pfn v = k₀.pfn v ∧ ((k₀.pagetableRegion0.entry v).valid = true → (k.pagetableRegion0.entry v).valid = true)
  grown : ∀ v, pageOf k₀.kernelBreak < v → v ≤ pageOf k.kernelBreak → k.pagetableRegion0.entry v =
    .mapped (k₀.freeMemory.getD (v - (pageOf k₀.kernelBreak + 1)) 0) protHeap
  free : k.freeMemory = k₀.freeMemory.drop (pageOf k.kernelBreak - pageOf k₀.kernelBreak)

section Grow
variable {k₀ k : Kernel}

theorem grew_step (env : Env) {addr : Word} (h : Grew k₀ k) (hle : pageOf k.kernelBreak ≤ pageOf addr)
    (hlt : pageOf addr < maxPtLen) :
    ∃ k', setKernelBrk env addr k = .ok ⟨0, k', true⟩ ∧ Grew k₀ k' ∧ pageOf k'.kernelBreak = pageOf addr := by
  have hge := h.le
  by_cases hsame : pageOf addr = pageOf k.kernelBreak
  · refine ⟨_, setKernelBrk_same env hsame, ⟨h.enabled, h.numPages, ?_, hlt, h.kept, ?_, ?_⟩, rfl⟩
    · simp only [hsame]
      exact h.le
    · simp only [hsame]
      exact h.grown
    · simp only [hsame]
      exact h.free
  · obtain ⟨k', hrun, hM⟩ := setKernelBrk_moved env addr h.enabled h.numPages hsame h.lt hlt
    have hbrk := hM.brk
    refine ⟨k', hrun, ⟨hM.enabled, hM.numPages, by omega, by omega, fun v hv => ?_, fun v h1 h2 => ?_, ?_⟩, hbrk⟩
    · simp only [Kernel.pfn, hM.kept v (by omega) (by omega)]
      exact ⟨(h.kept v hv).1, (h.kept v hv).2.1, fun _ => trivial⟩
    · rcases Nat.lt_or_ge (pageOf k.kernelBreak) v with hv | hv
      · rw [hM.grown v hv (by omega), h.free]
        simp only [List.getD_eq_getElem?_getD, List.getElem?_drop]
        rw [show pageOf k.kernelBreak - pageOf k₀.kernelBreak + (v - (pageOf k.kernelBreak + 1)) =
          v - (pageOf k₀.kernelBreak + 1) by omega]
      · rw [hM.kept v hv (by omega), h.grown v h1 hv]
        rfl
    · rw [hM.free, if_pos (by omega), h.free, List.drop_drop, hbrk]
      congr 1
      omega

theorem grew_run (pre : List (Env × Word)) (op : Env × Word) (post : List (Env × Word)) :
    ∀ k, Grew k₀ k → Growing (pageOf k.kernelBreak) (pre ++ op :: post) →
      (∀ o ∈ pre ++ op :: post, pageOf o.2 < maxPtLen) →
      ∃ rs k', brkMachine.run k (pre ++ [op]) = .ok (rs, k') ∧ Grew k₀ k' ∧ pageOf k'.kernelBreak = pageOf op.2 := by
  induction pre with
  | nil =>
    intro k h hgrow hlt
    obtain ⟨k', hrun, h', hbrk⟩ := grew_step op.1 h hgrow.1 (hlt op (by simp))
    exact ⟨[(0, true)], k', by simp [Machine.run, brkMachine, hrun], h', hbrk⟩
  | cons o pre ih =>
    intro k h hgrow hlt
    obtain ⟨k₁, hrun, h₁, hbrk₁⟩ := grew_step o.1 h hgrow.1 (hlt o (by simp))
    obtain ⟨rs, k', hrest, h', hbrk⟩ := ih k₁ h₁ (by rw [hbrk₁]; exact hgrow.2) fun x hx => hlt x (by simp [hx])
    have hs : brkMachine.step k o = .ok ((0, true), k₁) := by simp only [brkMachine, hrun, ok_bind]
    exact ⟨_, k', (brkMachine.run_cons_ok).mpr ⟨_, k₁, rs, hs, hrest, rfl⟩, h', hbrk⟩

end Grow

section Cover
variable {K addr : Word} {k₀ k : Kernel}

theorem pageOf_lt {addr : Word} (h : addr.toNat < kernelStackBase.toNat) : pageOf addr < maxPtLen := by
  rw [kernelStackBase_toNat] at h
  rw [pageOf_eq]
  exact Nat.lt_trans ((Nat.div_lt_iff_lt_mul (by decide)).mpr h) (by decide)

theorem le_pageOf {v : Nat} (h : v * pageSize < addr.toNat) : v ≤ pageOf addr := by
  rw [pageOf_eq]
  exact (Nat.le_div_iff_mul_le (by decide)).mpr (Nat.le_of_lt h)

theorem grew_booted (h : Booted K k₀) : Grew k₀ k₀ := by
  refine ⟨h.enabled, h.numPages, Nat.le_refl _, ?_, fun v _ => ⟨rfl, rfl, id⟩, fun v h1 h2 => by omega, by simp⟩
  rw [h.brk]
  exact pageOf_lt h.below

/-- A page that the boot has mapped, or that a call has. -/
theorem page_cases (hB : Booted K k₀) (hG : Grew k₀ k) (hen : pageOf k.kernelBreak - pageOf K ≤ k₀.freeMemory.length)
    {v : Nat} (hv : v ≤ pageOf k.kernelBreak) (hboot : v ≤ pageOf K → v * pageSize < K.toNat) :
    (v * pageSize < K.toNat ∧ (k.pagetableRegion0.entry v).valid = true ∧ k.pfn v = v ∧
        (k.pagetableRegion0.entry v).prot = (k₀.pagetableRegion0.entry v).prot) ∨
      ∃ h : v - (pageOf K + 1) < k₀.freeMemory.length, pageOf K < v ∧ (k.pagetableRegion0.entry v).valid = true ∧
        k.pfn v = k₀.freeMemory[v - (pageOf K + 1)] ∧ Readable (k.pagetableRegion0.entry v) := by
  have hbrk : pageOf k₀.kernelBreak = pageOf K := by rw [hB.brk]
  rcases Nat.lt_or_ge (pageOf K) v with hgt | hle
  · have hidx : v - (pageOf K + 1) < k₀.freeMemory.length := by omega
    have hentry := hG.grown v (by omega) hv
    rw [hbrk, List.getD_eq_getElem _ _ hidx] at hentry
    refine .inr ⟨hidx, hgt, by rw [hentry]; rfl, ?_, by rw [hentry]; exact readable_heap _⟩
    rw [Kernel.pfn, hentry, Pte.mapped_pfn (hB.small _ (List.getElem_mem hidx))]
  · have hlt := hboot hle
    obtain ⟨hprot, hpfn, hval⟩ := hG.kept v (by omega)
    obtain ⟨hvalid, hpfn₀, -⟩ := hB.mapped v hlt
    exact .inl ⟨hlt, hval hvalid, hpfn.trans hpfn₀, hprot⟩

/-- Where the boot has mapped the page of its break, or the break is not exceeded, all pages below an address are
covered that were left readable. -/
theorem covered_of_grew (hB : Booted K k₀) (hG : Grew k₀ k) (hbrk : pageOf k.kernelBreak = pageOf addr)
    (hen : pageOf addr - pageOf K ≤ k₀.freeMemory.length) (hK : K.toNat % pageSize ≠ 0 ∨ addr.toNat ≤ K.toNat)
    (hread : ∀ v, v * pageSize < K.toNat → v * pageSize < addr.toNat → Readable (k₀.pagetableRegion0.entry v)) :
    Covered k addr := by
  have hboot : ∀ v, v * pageSize < addr.toNat → v ≤ pageOf K → v * pageSize < K.toNat := by
    intro v hv hle
    rcases hK with hK | hK
    · rw [pageOf_eq] at hle
      have := Nat.mul_le_mul_right pageSize hle
      have := Nat.div_add_mod K.toNat pageSize
      rw [Nat.mul_comm] at this
      omega
    · omega
  have hcase : ∀ v, v * pageSize < addr.toNat → _ := fun v hv =>
    page_cases hB hG (by rw [hbrk]; exact hen) (by rw [hbrk]; exact le_pageOf hv) (hboot v hv)
  intro v hv
  refine ⟨?_, ?_, fun w hw he => ?_⟩
  · rcases hcase v hv with ⟨-, h, -⟩ | ⟨-, -, h, -⟩
    · exact h
    · exact h
  · rcases hcase v hv with ⟨hlt, -, -, hprot⟩ | ⟨-, -, -, -, h⟩
    · simpa only [Readable, hprot] using hread v hlt hv
    · exact h
  · -- the frames of the boot are below the break, the free ones are not
    rcases hcase v hv with ⟨hltv, -, hpv, -⟩ | ⟨hiv, hgv, -, hpv, -⟩ <;>
      rcases hcase w hw with ⟨hltw, -, hpw, -⟩ | ⟨hiw, hgw, -, hpw, -⟩
    · omega
    · have := hB.fresh _ (List.getElem_mem hiw)
      rw [← hpw, ← he, hpv] at this
      omega
    · have := hB.fresh _ (List.getElem_mem hiv)
      rw [← hpv, he, hpw] at this
      omega
    · have := (hB.distinct.getElem_inj_iff).mp ((hpv.symm.trans he).trans hpw)
      omega

theorem booted_bootKernel {free : List Nat} (hK : K.toNat < kernelStackBase.toNat) (hdistinct : free.Nodup)
    (hfresh : ∀ f ∈ free, K.toNat ≤ f * pageSize) (hsmall : ∀ f ∈ free, f < 2 ^ 24) :
    Booted K (bootKernel K free) := by
  refine ⟨rfl, hK, rfl, numPages_bootKernel _ _, fun v hv => ?_, fun v hv hge => ?_, hdistinct, hfresh, hsmall⟩
  · have hlt : v < maxPtLen := Nat.lt_of_le_of_lt (le_pageOf hv) (pageOf_lt hK)
    have hmax := maxPtLen_eq
    rw [Kernel.pfn, entry_bootKernel _ _ hlt, if_pos hv, Pte.mapped_pfn (by omega)]
    exact ⟨rfl, rfl, show BitVec.ofNat 3 protHeap ≠ 0 by decide⟩
  · rw [entry_bootKernel _ _ hv, if_neg (Nat.not_lt.mpr hge)]

/-- **Growing covers exactly what booting has begun.** From the boot state of a break `K`, every run of growing calls
with enough free frames leaves the pages below each address covered if and only if `K` is inside a page or no address
exceeds it, and the boot left readable those of its pages that are below an address. -/
theorem coversRun_iff (hB : Booted K k₀) {ops : List (Env × Word)} (hgrow : Growing (pageOf K) ops)
    (hops : ∀ op ∈ ops, op.2.toNat < kernelStackBase.toNat ∧ pageOf op.2 - pageOf K ≤ k₀.freeMemory.length) :
    CoversRun k₀ ops ↔ (K.toNat % pageSize ≠ 0 ∨ ∀ op ∈ ops, op.2.toNat ≤ K.toNat) ∧
      ∀ op ∈ ops, ∀ v, v * pageSize < K.toNat → v * pageSize < op.2.toNat →
        Readable (k₀.pagetableRegion0.entry v) := by
  have hbrk₀ : pageOf k₀.kernelBreak = pageOf K := by rw [hB.brk]
  have hreach : ∀ pre op post, ops = pre ++ op :: post → ∃ rs k, brkMachine.run k₀ (pre ++ [op]) = .ok (rs, k) ∧
      Grew k₀ k ∧ pageOf k.kernelBreak = pageOf op.2 := by
    rintro pre op post rfl
    exact grew_run pre op post k₀ (grew_booted hB) (by rw [hbrk₀]; exact hgrow) fun o ho => pageOf_lt (hops o ho).1
  constructor
  · intro h
    have hkept : ∀ op ∈ ops, ∀ v, v * pageSize < op.2.toNat → v ≤ pageOf K →
        Readable (k₀.pagetableRegion0.entry v) := by
      intro op hop v hv hle
      obtain ⟨pre, post, rfl⟩ := List.append_of_mem hop
      obtain ⟨rs, k, hrun, hcov⟩ := h pre op post rfl
      obtain ⟨rs', k', hrun', hG, -⟩ := hreach pre op post rfl
      rw [hrun] at hrun'
      cases hrun'
      have := (hcov v hv).2.1
      rwa [Readable, (hG.kept v (by omega)).1] at this
    refine ⟨?_, fun op hop v hvK hv => hkept op hop v hv (le_pageOf hvK)⟩
    by_contra hcon
    simp only [not_or, not_forall, not_not, Nat.not_le] at hcon
    obtain ⟨halign, op, hop, hgt⟩ := hcon
    -- the page of the break itself: not below it, so not mapped by the boot, and no call maps it
    have hpage : pageOf K * pageSize = K.toNat := by
      rw [pageOf_eq]
      exact Nat.div_mul_cancel (Nat.dvd_of_mod_eq_zero halign)
    have hempty := hB.empty (pageOf K) (pageOf_lt hB.below) (by omega)
    have := hkept op hop (pageOf K) (by omega) (Nat.le_refl _)
    rw [hempty] at this
    exact this (by decide)
  · rintro ⟨hK, hread⟩ pre op post rfl
    have hop : op ∈ pre ++ op :: post := by simp
    obtain ⟨rs, k, hrun, hG, hbrk⟩ := hreach pre op post rfl
    exact ⟨rs, k, hrun, covered_of_grew hB hG hbrk (hops op hop).2 (hK.imp id fun h => h op hop) (hread op hop)⟩

theorem coversRun_iff_inside :
    CoversRun (bootKernel 0x5000 [5, 6, 7]) [(calmEnv, 0x5800), (calmEnv, 0x6000), (calmEnv, 0x9010)] ↔
      ((0x5000 : Word).toNat % pageSize ≠ 0 ∨
        ∀ op ∈ [(calmEnv, (0x5800 : Word)), (calmEnv, 0x6000), (calmEnv, 0x9010)],
          op.2.toNat ≤ (0x5000 : Word).toNat) ∧
      ∀ op ∈ [(calmEnv, (0x5800 : Word)), (calmEnv, 0x6000), (calmEnv, 0x9010)], ∀ v,
        v * pageSize < (0x5000 : Word).toNat → v * pageSize < op.2.toNat →
          Readable ((bootKernel 0x5000 [5, 6, 7]).pagetableRegion0.entry v) := by
  refine coversRun_iff (booted_bootKernel (by decide) (by decide) (by decide) (by decide)) ?_ ?_
  · exact ⟨by decide, by decide, by decide, trivial⟩
  · simp only [List.mem_cons, List.not_mem_nil, or_false, forall_eq_or_imp, forall_eq]
    decide

/-- A break at the start of page 2 leaves that page unmapped, and growing to page 3 makes it valid as it is: without
protection, and on the frame of page 0. -/
theorem coversRun_fails_aligned : Booted 0x4000 (bootKernel 0x4000 [5, 6]) ∧
    (∃ k, setKernelBrk calmEnv 0x6000 (bootKernel 0x4000 [5, 6]) = .ok ⟨0, k, true⟩ ∧
      k.pagetableRegion0.entry 2 = ⟨true, 0, 0⟩) ∧
    ¬ CoversRun (bootKernel 0x4000 [5, 6]) [(calmEnv, 0x6000)] := by
  obtain ⟨k, hrun, hM⟩ := setKernelBrk_moved calmEnv (k := bootKernel 0x4000 [5, 6]) 0x6000 rfl
    (numPages_bootKernel _ _) (by decide) (by decide) (by decide)
  have hentry : k.pagetableRegion0.entry 2 = ⟨true, 0, 0⟩ := by
    rw [hM.kept 2 (by decide) (by decide), entry_bootKernel _ _ (by decide), if_neg (by decide)]
    rfl
  refine ⟨booted_bootKernel (by decide) (by decide) (by decide) (by decide), ⟨k, hrun, hentry⟩, fun h => ?_⟩
  obtain ⟨rs, k', hrun', hcov⟩ := h [] (calmEnv, 0x6000) [] rfl
  simp only [List.nil_append, Machine.run, brkMachine, hrun, ok_bind, Except.ok.injEq, Prod.mk.injEq] at hrun'
  obtain ⟨-, rfl⟩ := hrun'
  have := (hcov 2 (by decide)).2.1
  rw [hentry] at this
  exact this (by decide)

end Cover

end MooseOS
