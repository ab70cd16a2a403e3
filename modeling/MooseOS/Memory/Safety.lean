import MooseOS.Memory.Frames
import MooseOS.Memory.Registers

/-!
# Which calls stay inside the table

The last loop of `setKernelBrk` visits every page up to the end of the region, and `pagetableGetEntry` hands out the
entry just past the end of the table.

* `moveLoop_outside` : growing onto the first page past the table leaves it;
* `invalidLoop_outside` : so does the last loop, unless the table is full;
* `Safe`, `setKernelBrk_inside` : the calls that stay inside;
* `run_inside_iff` : the runs that do;
* `refused_run` : runs of calls past the region, which are refused, and drain the pool.
-/

namespace MooseOS
open Prog

section Loops
variable {env : Env} {table : Pagetable} {p q : Nat}

theorem growTurn_fit (env : Env) {s : Moving} (h : s.page + 1 ≤ s.table.numPages) :
    growTurn env s = .ok ⟨s.page + 1, s.table.store (s.page + 1) (.mapped (Fifo.pop s.free).1 protHeap),
      (Fifo.pop s.free).2, s.inside && decide (s.page + 1 < s.table.numPages)⟩ := by
  simp only [growTurn, pagetableWrite, if_neg (Nat.not_lt.mpr h), ok_bind]

theorem growTurn_past (env : Env) {s : Moving} (h0 : 0 < s.table.numPages) (hs : s.inside = false) :
    ∃ t, growTurn env s = .ok t ∧ t.page = s.page + 1 ∧ 0 < t.table.numPages ∧ t.inside = false := by
  obtain ⟨w, hw, hcase⟩ := pagetableWrite_table h0 (s.page + 1) (Fifo.pop s.free).1 (protRead ||| protWrite)
    (env.realloc (s.page + 1))
  refine ⟨⟨s.page + 1, w.after, (Fifo.pop s.free).2, false⟩, by simp [growTurn, hw, hs], rfl, ?_, rfl⟩
  rcases hcase with ⟨-, hn, -⟩ | ⟨-, -, hn, -⟩
  · rw [hn]
    exact h0
  · exact Nat.zero_lt_of_lt hn

/-- Growing writes the page with the number of the table's length, and does not expand the table before. -/
theorem moveLoop_outside (env : Env) (free : List Nat) (hp : p < table.numPages) (hq : table.numPages ≤ q) :
    ∃ s, moveLoop env p q table free = .ok s ∧ s.inside = false := by
  obtain ⟨s, hs, ⟨-, hge, hI⟩, hc⟩ := whileLoop_total (fun s : Moving => decide (s.page ≠ q)) (growTurn env)
    (fun s => p ≤ s.page ∧ s.page ≤ q ∧ (s.page < table.numPages ∧ s.table.numPages = table.numPages ∨
      table.numPages ≤ s.page ∧ 0 < s.table.numPages ∧ s.inside = false)) (fun s => q - s.page)
    (by
      rintro s ⟨hle, hge, hI⟩ hc
      have hne : s.page ≠ q := of_decide_eq_true hc
      rcases hI with ⟨hlt, hn⟩ | ⟨hpast, hpos, hout⟩
      · refine ⟨_, growTurn_fit env (by omega), ⟨by simp only; omega, by simp only; omega, ?_⟩, by simp only; omega⟩
        simp only [Pagetable.numPages_store, hn]
        rcases Nat.lt_or_ge (s.page + 1) table.numPages with hlt' | hge'
        · exact .inl ⟨hlt', trivial⟩
        · exact .inr ⟨hge', by omega, by rw [decide_eq_false (by omega), Bool.and_false]⟩
      · obtain ⟨t, ht, hpage, hpos', hout'⟩ := growTurn_past env hpos hout
        exact ⟨t, ht, ⟨by omega, by omega, .inr ⟨by omega, hpos', hout'⟩⟩, by omega⟩)
    (p + q + 1) ⟨p, table, free, true⟩ ⟨Nat.le_refl _, by simp only; omega, .inl ⟨hp, rfl⟩⟩ (by simp only; omega)
  have hpage : s.page = q := by simpa using hc
  refine ⟨s, by rw [moveLoop, if_pos (by omega), hs], ?_⟩
  rcases hI with ⟨hlt, -⟩ | ⟨-, -, hout⟩
  · omega
  · exact hout

theorem invalidLoop_outside {b : Nat} (s₀ : Marking) (hle : s₀.page ≤ s₀.table.numPages)
    (hb : s₀.table.numPages < b) : ∃ s, invalidLoop b s₀ = .ok s ∧ s.inside = false := by
  obtain ⟨s, hs, ⟨-, hout⟩, hc⟩ := whileLoop_total (fun s : Marking => decide (s.page < b)) invalidTurn
    (fun s => s.table.numPages = s₀.table.numPages ∧ (s₀.table.numPages < s.page → s.inside = false))
    (fun s => b - s.page)
    (by
      rintro s ⟨hn, hout⟩ hc
      have hpage : s.page < b := of_decide_eq_true hc
      unfold invalidTurn pagetableGetEntry
      by_cases hgt : s.page > s.table.numPages
      · rw [if_pos hgt]
        exact ⟨_, rfl, ⟨hn, fun _ => hout (by omega)⟩, by simp only; omega⟩
      · rw [if_neg hgt]
        refine ⟨_, rfl, ⟨by simpa using hn, fun h => ?_⟩, by simp only; omega⟩
        simp only at h ⊢
        rw [decide_eq_false (by omega), Bool.and_false])
    (b + 1) s₀ ⟨rfl, fun h => by omega⟩ (by omega)
  have hend : ¬ s.page < b := of_decide_eq_false hc
  exact ⟨s, hs, hout (by omega)⟩

end Loops

section Call
variable {k : Kernel}

theorem setKernelBrk_outside (env : Env) {addr : Word} (hv : k.virtualMemoryEnabled = true)
    (hp : pageOf k.kernelBreak < k.pagetableRegion0.numPages) (hL : k.pagetableRegion0.numPages < maxPtLen)
    (hne : pageOf addr ≠ pageOf k.kernelBreak) :
    ∃ r, setKernelBrk env addr k = .ok r ∧ r.inside = false := by
  obtain ⟨s, hs, hT⟩ := moveLoop_table env (Nat.zero_lt_of_lt hp) k.freeMemory (pageOf k.kernelBreak) (pageOf addr)
  cases hin : s.inside with
  | false =>
    obtain ⟨r, hr, -, -, -, hout⟩ := setKernelBrk_after hv hne hs
    exact ⟨r, hr, hout hin⟩
  | true =>
    have hq : pageOf addr < k.pagetableRegion0.numPages := by
      by_contra hge
      obtain ⟨s', hs', hout⟩ := moveLoop_outside env k.freeMemory hp (Nat.le_of_not_lt hge)
      rw [hs] at hs'
      cases hs'
      exact Bool.false_ne_true (hout.symm.trans hin)
    have hn : s.table.numPages = k.pagetableRegion0.numPages := by
      rcases hT with ⟨block, -⟩ | ⟨-, v, -, hvq, hexp⟩
      · exact block.1
      · have := hexp.1
        omega
    obtain ⟨t, ht, hM⟩ := validLoop_spec s.table (q := pageOf addr) (by omega)
    have hlimit : kernelStackLimit >>> pageShift = maxPtLen := rfl
    obtain ⟨u, hu, hout⟩ := invalidLoop_outside ⟨pageOf addr + 1, t, true, false⟩ (b := maxPtLen)
      (by simp only [hM.numPages, hn]; omega) (by simp only [hM.numPages, hn]; exact hL)
    have hbase : vmem0Base >>> pageShift = 0 := rfl
    refine ⟨⟨0, { k with
      pagetableRegion0 := u.table, freeMemory := s.free
      kernelBreak := (addr.sshiftRight pageShift) <<< pageShift }, u.inside⟩, ?_, hout⟩
    unfold setKernelBrk
    simp only [hv, Bool.true_eq_false, if_false, if_neg hne, hs, ok_bind, hin, hbase, ht, hlimit, hu,
      Bool.false_eq_true]

/-- A call is safe: it stays on the page of the break, or within a full table. -/
def Safe (k : Kernel) (addr : Word) : Prop :=
  pageOf addr = pageOf k.kernelBreak ∨ k.pagetableRegion0.numPages = maxPtLen ∧ pageOf addr < maxPtLen

/-- **One call** stays inside the table exactly if it is safe. -/
theorem setKernelBrk_inside (env : Env) (addr : Word) (hv : k.virtualMemoryEnabled = true)
    (hp : pageOf k.kernelBreak < k.pagetableRegion0.numPages) (hL : k.pagetableRegion0.numPages ≤ maxPtLen) :
    ∃ r, setKernelBrk env addr k = .ok r ∧ (r.inside = true ↔ Safe k addr) := by
  by_cases hsame : pageOf addr = pageOf k.kernelBreak
  · exact ⟨_, setKernelBrk_same env hsame, iff_of_true rfl (.inl hsame)⟩
  rcases Nat.lt_or_eq_of_le hL with hlt | hfull
  · obtain ⟨r, hr, hout⟩ := setKernelBrk_outside env hv hp hlt hsame
    exact ⟨r, hr, iff_of_false (by simp [hout]) (by rintro (h | h); exacts [hsame h, by omega])⟩
  rcases Nat.lt_or_ge (pageOf addr) maxPtLen with hq | hq
  · obtain ⟨k', hr, -⟩ := setKernelBrk_moved env addr hv hfull hsame (by omega) hq
    exact ⟨_, hr, iff_of_true rfl (.inr ⟨hfull, hq⟩)⟩
  · obtain ⟨s, hs, hout⟩ := moveLoop_outside env k.freeMemory hp (q := pageOf addr) (by omega)
    obtain ⟨r, hr, -, -, -, hkeep⟩ := setKernelBrk_after hv hsame hs
    exact ⟨r, hr, iff_of_false (by simp [hkeep hout]) (by rintro (h | h); exacts [hsame h, by omega])⟩

/-- What no call changes. -/
structure Rest (k k' : Kernel) : Prop where
  dataStart : k'.kernelDataStart = k.kernelDataStart
  enabled : k'.virtualMemoryEnabled = k.virtualMemoryEnabled
  region1 : k'.pagetableRegion1 = k.pagetableRegion1
  registers : k'.registers = k.registers

/-- A call stores its address, or runs the first loop and keeps the length of the table that this leaves. -/
theorem setKernelBrk_cases {env : Env} {addr : Word} {r : Ran Kernel Int} (h : setKernelBrk env addr k = .ok r) :
    (∃ brk, r.after = { k with kernelBreak := brk }) ∨
      ∃ s t brk, moveLoop env (pageOf k.kernelBreak) (pageOf addr) k.pagetableRegion0 k.freeMemory = .ok s ∧
        t.numPages = s.table.numPages ∧
        r.after = { k with pagetableRegion0 := t, freeMemory := s.free, kernelBreak := brk } := by
  unfold setKernelBrk at h
  split at h
  · cases h
    exact .inl ⟨addr, rfl⟩
  dsimp only at h
  split at h
  · cases h
    exact .inl ⟨addr, rfl⟩
  obtain ⟨s, hs, h⟩ := bind_eq_ok.mp h
  obtain ⟨m, hm, h⟩ := bind_eq_ok.mp h
  obtain ⟨m', hm', hn, -⟩ := validLoop_total (pageOf addr) s.table s.inside
  rw [show vmem0Base >>> pageShift = 0 from rfl, hm'] at hm
  cases hm
  split at h
  · cases h
    exact .inr ⟨s, m.table, k.kernelBreak, hs, hn, rfl⟩
  · obtain ⟨u, hu, h⟩ := bind_eq_ok.mp h
    obtain ⟨u', hu', hn', -⟩ := invalidLoop_total (kernelStackLimit >>> pageShift) m
    rw [hu'] at hu
    cases hu
    cases h
    exact .inr ⟨s, u.table, _, hs, hn'.trans hn, rfl⟩

theorem setKernelBrk_rest {env : Env} {addr : Word} {r : Ran Kernel Int} (h : setKernelBrk env addr k = .ok r) :
    Rest k r.after := by
  rcases setKernelBrk_cases h with ⟨brk, he⟩ | ⟨s, t, brk, -, -, he⟩
  · rw [he]
    exact ⟨rfl, rfl, rfl, rfl⟩
  · rw [he]
    exact ⟨rfl, rfl, rfl, rfl⟩

theorem setKernelBrk_total (env : Env) (addr : Word) (hv : k.virtualMemoryEnabled = true)
    (h0 : 0 < k.pagetableRegion0.numPages) :
    ∃ r, setKernelBrk env addr k = .ok r ∧ r.after.virtualMemoryEnabled = true ∧
      0 < r.after.pagetableRegion0.numPages := by
  by_cases hsame : pageOf addr = pageOf k.kernelBreak
  · exact ⟨_, setKernelBrk_same env hsame, hv, h0⟩
  · obtain ⟨s, hs, hT⟩ := moveLoop_table env h0 k.freeMemory (pageOf k.kernelBreak) (pageOf addr)
    obtain ⟨r, hr, hn, -⟩ := setKernelBrk_after hv hsame hs
    refine ⟨r, hr, (setKernelBrk_rest hr).enabled.trans hv, ?_⟩
    rw [hn]
    rcases hT with ⟨block, -⟩ | ⟨block, -⟩
    · rw [block.1]
      exact h0
    · exact Nat.zero_lt_of_lt block.1

end Call

/-! ## Runs -/

section Runs
variable {k₀ k : Kernel}

structure Kept (k₀ k : Kernel) : Prop where
  enabled : k.virtualMemoryEnabled = true
  numPages : k.pagetableRegion0.numPages = k₀.pagetableRegion0.numPages
  safe : Safe k₀ k.kernelBreak

theorem Kept.safe_iff (h : Kept k₀ k) (hp : pageOf k₀.kernelBreak < k₀.pagetableRegion0.numPages) (addr : Word) :
    Safe k addr ↔ Safe k₀ addr := by
  have hn := h.numPages
  have hs := h.safe
  unfold Safe at hs ⊢
  omega

theorem kept_step (env : Env) {addr : Word} (h : Kept k₀ k)
    (hp : pageOf k₀.kernelBreak < k₀.pagetableRegion0.numPages) (hsafe : Safe k₀ addr) :
    ∃ k', setKernelBrk env addr k = .ok ⟨0, k', true⟩ ∧ Kept k₀ k' := by
  by_cases hsame : pageOf addr = pageOf k.kernelBreak
  · exact ⟨_, setKernelBrk_same env hsame, h.enabled, h.numPages, hsafe⟩
  · have hn := h.numPages
    have hs := h.safe
    have hk := (h.safe_iff hp addr).mpr hsafe
    unfold Safe at hs hk
    obtain ⟨k', hr, hM⟩ := setKernelBrk_moved env addr h.enabled (by omega) hsame (by omega) (by omega)
    refine ⟨k', hr, hM.enabled, hM.numPages.trans (by omega), ?_⟩
    unfold Safe
    have hbrk := hM.brk
    omega

theorem run_inside (hv : k₀.virtualMemoryEnabled = true)
    (hp : pageOf k₀.kernelBreak < k₀.pagetableRegion0.numPages) (hL : k₀.pagetableRegion0.numPages ≤ maxPtLen)
    (ops : List (Env × Word)) :
    ∃ rs k, brkMachine.run k₀ ops = .ok (rs, k) ∧ ((∀ r ∈ rs, r.2 = true) ↔ ∀ op ∈ ops, Safe k₀ op.2) := by
  refine brkMachine.run_results_iff (fun op => Safe k₀ op.2) (Kept k₀)
    (fun k => k.virtualMemoryEnabled = true ∧ 0 < k.pagetableRegion0.numPages) (fun r => r.2 = true)
    (fun k op hk hop => ?_) (fun k op hk hop => ?_) (fun k op hk => ?_) ops k₀ ⟨hv, rfl, .inl rfl⟩
  · obtain ⟨k', hr, hk'⟩ := kept_step op.1 hk hp hop
    exact ⟨(0, true), k', by simp only [brkMachine, hr, ok_bind], rfl, hk'⟩
  · have hn := hk.numPages
    have hpk : pageOf k.kernelBreak < k.pagetableRegion0.numPages := by
      have hs := hk.safe
      unfold Safe at hs
      omega
    obtain ⟨r, hr, hiff⟩ := setKernelBrk_inside op.1 op.2 hk.enabled hpk (by omega)
    obtain ⟨r', hr', hJ⟩ := setKernelBrk_total op.1 op.2 hk.enabled (Nat.zero_lt_of_lt hpk)
    rw [hr] at hr'
    cases hr'
    rw [hk.safe_iff hp] at hiff
    exact ⟨(r.val, r.inside), r.after, by simp only [brkMachine, hr, ok_bind], fun h => hop (hiff.mp h), hJ⟩
  · obtain ⟨r, hr, hJ⟩ := setKernelBrk_total op.1 op.2 hk.1 hk.2
    exact ⟨(r.val, r.inside), r.after, by simp only [brkMachine, hr, ok_bind], hJ⟩

end Runs

/-! ## Calls past the region -/

section Refused
variable {env : Env} {addr : Word} {k : Kernel}

theorem validLoop_returned {q : Nat} (s₀ : Marking) (hret : s₀.returned = false)
    (hpage : s₀.page ≤ s₀.table.numPages + 1) (hq : s₀.table.numPages < q) :
    ∃ s, validLoop q s₀ = .ok s ∧ s.returned = true ∧ s.table.numPages = s₀.table.numPages ∧
      (s₀.inside = false → s.inside = false) := by
  obtain ⟨s, hs, ⟨hn, hle, hin⟩, hc⟩ := whileLoop_total (fun s : Marking => !s.returned && decide (s.page ≤ q))
      validTurn
    (fun s => s.table.numPages = s₀.table.numPages ∧ s.page ≤ s₀.table.numPages + 1 ∧
      (s₀.inside = false → s.inside = false))
    (fun s => if s.returned then 0 else q + 2 - s.page)
    (by
      rintro s ⟨hn, hle, hin⟩ hc
      simp only [Bool.and_eq_true, Bool.not_eq_true', decide_eq_true_eq] at hc
      unfold validTurn pagetableGetEntry
      by_cases hgt : s.page > s.table.numPages
      · rw [if_pos hgt]
        refine ⟨_, rfl, ⟨hn, hle, hin⟩, ?_⟩
        simp only [hc.1, Bool.false_eq_true, if_false, if_true]
        omega
      · rw [if_neg hgt]
        refine ⟨_, rfl, ⟨by simpa using hn, by simp only; omega, fun h => by simp [hin h]⟩, ?_⟩
        simp only [hc.1, Bool.false_eq_true, if_false]
        omega)
    (q + 3) s₀ ⟨rfl, hpage, id⟩ (by rw [hret, if_neg Bool.false_ne_true]; omega)
  refine ⟨s, hs, ?_, hn, hin⟩
  by_contra hf
  rw [Bool.not_eq_true] at hf
  simp only [hf, Bool.not_false, Bool.true_and, decide_eq_false_iff_not] at hc
  omega

theorem moveLoop_free {table : Pagetable} {free : List Nat} {p q : Nat} {s : Moving} (hpq : p < q)
    (h : moveLoop env p q table free = .ok s) : s.free = free.drop (q - p) := by
  rw [moveLoop, if_pos hpq] at h
  obtain ⟨⟨-, hfree⟩, hc⟩ := whileLoop_inv _ _ (fun s : Moving => p ≤ s.page ∧ s.free = free.drop (s.page - p))
    (by
      rintro s t ⟨hle, hfree⟩ - ht
      obtain ⟨w, -, ht⟩ := bind_eq_ok.mp ht
      cases ht
      refine ⟨Nat.le_succ_of_le hle, ?_⟩
      simp only [hfree, pop_drop]
      rw [Nat.succ_sub hle])
    _ _ _ ⟨Nat.le_refl p, by simp⟩ h
  have hpage : s.page = q := by simpa using hc
  rw [hfree, hpage]

/-- **One call** past the region is refused, moves nothing, and takes a frame for each page up to its address. -/
theorem setKernelBrk_past (env : Env) (hv : k.virtualMemoryEnabled = true)
    (hp : pageOf k.kernelBreak < k.pagetableRegion0.numPages) (hL : k.pagetableRegion0.numPages ≤ maxPtLen)
    (hq : maxPtLen < pageOf addr) :
    ∃ k', setKernelBrk env addr k = .ok ⟨-1, k', false⟩ ∧ k'.virtualMemoryEnabled = true ∧
      k'.kernelBreak = k.kernelBreak ∧ pageOf k.kernelBreak < k'.pagetableRegion0.numPages ∧
      k'.pagetableRegion0.numPages ≤ maxPtLen ∧
      k'.freeMemory = k.freeMemory.drop (pageOf addr - pageOf k.kernelBreak) := by
  obtain ⟨s, hs, hout⟩ := moveLoop_outside env k.freeMemory hp (q := pageOf addr) (by omega)
  obtain ⟨s', hs', hT⟩ := moveLoop_table env (Nat.zero_lt_of_lt hp) k.freeMemory (pageOf k.kernelBreak) (pageOf addr)
  rw [hs] at hs'
  cases hs'
  have hn : k.pagetableRegion0.numPages ≤ s.table.numPages ∧ s.table.numPages ≤ maxPtLen := by
    rcases hT with ⟨block, -⟩ | ⟨block, -⟩
    · exact ⟨Nat.le_of_eq block.1.symm, by rw [block.1]; exact hL⟩
    · exact ⟨Nat.le_of_lt block.1, block.2⟩
  obtain ⟨m, hm, hret, hnum, hin⟩ := validLoop_returned ⟨0, s.table, s.inside, false⟩ (q := pageOf addr) rfl
    (Nat.zero_le _) (by simp only; omega)
  have hbase : vmem0Base >>> pageShift = 0 := rfl
  refine ⟨{ k with pagetableRegion0 := m.table, freeMemory := s.free }, ?_, hv, rfl, ?_, ?_,
    moveLoop_free (by omega) hs⟩
  · unfold setKernelBrk
    simp only [hv, Bool.true_eq_false, if_false, if_neg (show ¬ pageOf addr = pageOf k.kernelBreak by omega), hs,
      ok_bind, hbase, hm, hret, if_true, hin hout]
  · simp only [hnum]
    omega
  · simp only [hnum]
    omega

/-- **Refused calls drain the pool.** Calls past the region, one after the other, all return -1 and leave the break
where it is; each takes as many frames as there are pages from the break to its address, and none gives one back. -/
theorem refused_run (hv : k.virtualMemoryEnabled = true) (hp : pageOf k.kernelBreak < k.pagetableRegion0.numPages)
    (hL : k.pagetableRegion0.numPages ≤ maxPtLen) (ops : List (Env × Word))
    (hops : ∀ op ∈ ops, maxPtLen < pageOf op.2) :
    ∃ rs k', brkMachine.run k ops = .ok (rs, k') ∧ (∀ r ∈ rs, r = (-1, false)) ∧ k'.kernelBreak = k.kernelBreak ∧
      k'.freeMemory = k.freeMemory.drop (ops.map fun op => pageOf op.2 - pageOf k.kernelBreak).sum := by
  induction ops generalizing k with
  | nil => exact ⟨[], k, rfl, by simp, rfl, rfl⟩
  | cons op ops ih =>
    obtain ⟨k₁, hrun, hv₁, hbrk, hp₁, hL₁, hfree⟩ := setKernelBrk_past op.1 hv hp hL (hops op (by simp))
    obtain ⟨rs, k', hrest, hrs, hbrk', hfree'⟩ := ih hv₁ (by rw [hbrk]; exact hp₁) hL₁
      fun o ho => hops o (by simp [ho])
    refine ⟨(-1, false) :: rs, k', (brkMachine.run_cons_ok).mpr ⟨_, k₁, rs, ?_, hrest, rfl⟩, ?_, hbrk'.trans hbrk, ?_⟩
    · simp only [brkMachine, hrun, ok_bind]
    · simpa using hrs
    · rw [hfree', hfree, hbrk, List.drop_drop, List.map_cons, List.sum_cons]

theorem refused_run_two : ∃ rs k',
    brkMachine.run (bootKernel 0x2000 (List.range' 2 300)) [(calmEnv, 0x120000), (calmEnv, 0x110000)] = .ok (rs, k') ∧
      (∀ r ∈ rs, r = (-1, false)) ∧ k'.kernelBreak = 0x2000 ∧
      k'.freeMemory = (List.range' 2 300).drop ([(calmEnv, (0x120000 : Word)), (calmEnv, 0x110000)].map
        fun op => pageOf op.2 - pageOf (bootKernel 0x2000 (List.range' 2 300)).kernelBreak).sum :=
  refused_run rfl (by rw [numPages_bootKernel]; decide) (by rw [numPages_bootKernel]) _ (by decide)

end Refused

end MooseOS
