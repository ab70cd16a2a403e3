import MooseOS.Memory.Brk

/-!
# The limits of the heap

`setKernelBrk` looks neither at the status of `pagetableWrite` nor at the value of `linkedListQueuePop`, so it refuses
nothing, and its last loop goes up to `KERNEL_STACK_LIMIT`, the end of the kernel stack, and not to its base.

* `setKernelBrk_not_refused` : no address without room or without frames is answered as a refusal;
* `stackKept_iff` : a call leaves the entries of the stack as they are if and only if it stays on the page of the
  break, or none of them is valid.
-/

namespace MooseOS
open Prog

/-! ## Addresses that cannot be honoured -/

/-- The page of the address is not in region 0, or there are too few free frames to grow to it. -/
def Unhonourable (k : Kernel) (addr : Word) : Prop :=
  maxPtLen ≤ pageOf addr ∨ k.freeMemory.length < pageOf addr - pageOf k.kernelBreak

/-- The call says no, stays inside the table and changes nothing. -/
structure Refused (k : Kernel) (r : Ran Kernel Int) : Prop where
  code : r.val ≠ 0
  inside : r.inside = true
  brk : r.after.kernelBreak = k.kernelBreak
  numPages : r.after.pagetableRegion0.numPages = k.pagetableRegion0.numPages
  entry : ∀ v, r.after.pagetableRegion0.entry v = k.pagetableRegion0.entry v
  free : r.after.freeMemory = k.freeMemory

/-- **Nothing is refused.** On a table of maximal length, a call for an address that cannot be honoured either says
yes or accesses the table past its end. -/
theorem setKernelBrk_not_refused (env : Env) {k : Kernel} {addr : Word} (hv : k.virtualMemoryEnabled = true)
    (hn : k.pagetableRegion0.numPages = maxPtLen) (hp : pageOf k.kernelBreak < maxPtLen)
    (hbad : Unhonourable k addr) : ∃ r, setKernelBrk env addr k = .ok r ∧ ¬ Refused k r := by
  rcases Nat.lt_or_ge (pageOf addr) maxPtLen with hq | hq
  · have hlen : k.freeMemory.length < pageOf addr - pageOf k.kernelBreak := by
      rcases hbad with h | h
      · omega
      · exact h
    obtain ⟨k', hrun, -⟩ := setKernelBrk_moved env addr hv hn (by omega) hp hq
    exact ⟨_, hrun, fun h => h.code rfl⟩
  · obtain ⟨s, hs, hG, hpage⟩ := moveLoop_grow (q := pageOf addr) env k.freeMemory (by omega) hp hn
    have hout : s.inside = false := by rw [hG.inside, hpage]; exact decide_eq_false (by omega)
    obtain ⟨r, hrun, -, -, -, hi⟩ := setKernelBrk_after hv (by omega) hs
    exact ⟨r, hrun, fun h => by simpa [hi hout] using h.inside⟩

theorem setKernelBrk_not_refused_end :
    ∃ r, setKernelBrk calmEnv 0x100000 (bootKernel 0x4000 [5]) = .ok r ∧ ¬ Refused (bootKernel 0x4000 [5]) r :=
  setKernelBrk_not_refused calmEnv rfl (numPages_bootKernel _ _) (by decide) (.inl (by decide))

/-- With no free frame, growing by a page says yes, and maps the page to frame 0. -/
theorem setKernelBrk_exhausted : Unhonourable (bootKernel 0x4000 []) 0x6000 ∧
    ∃ r, setKernelBrk calmEnv 0x6000 (bootKernel 0x4000 []) = .ok r ∧ r.val = 0 ∧
      r.after.pagetableRegion0.entry 3 = .mapped 0 protHeap ∧ ¬ Refused (bootKernel 0x4000 []) r := by
  obtain ⟨k', hrun, hM⟩ := setKernelBrk_moved calmEnv (k := bootKernel 0x4000 []) 0x6000 rfl
    (numPages_bootKernel _ _) (by decide) (by decide) (by decide)
  exact ⟨.inr (by decide), _, hrun, rfl, hM.grown 3 (by decide) (by decide), fun h => h.code rfl⟩

/-! ## The kernel stack -/

/-- `KERNEL_STACK_BASE >> PAGESHIFT`. -/
def kernelStackPage : Nat := pageOf kernelStackBase

theorem kernelStackPage_lt : kernelStackPage < maxPtLen := by decide

def OnStack (v : Nat) : Prop := kernelStackPage ≤ v ∧ v < maxPtLen

def StackKept (k k' : Kernel) : Prop := ∀ v, OnStack v → k'.pagetableRegion0.entry v = k.pagetableRegion0.entry v

section Stack
variable {k k' : Kernel} {env : Env} {addr : Word}

theorem Moved.stack (hM : Moved env addr k k') (hp : pageOf k.kernelBreak < kernelStackPage)
    (hq : pageOf addr < kernelStackPage) {v : Nat} (hv : OnStack v) :
    k'.pagetableRegion0.entry v = { k.pagetableRegion0.entry v with valid := false } :=
  hM.above v hv.2 (Nat.lt_of_lt_of_le hq hv.1) (Nat.lt_of_lt_of_le hp hv.1)

theorem Moved.keepsStack_iff (hM : Moved env addr k k') (hp : pageOf k.kernelBreak < kernelStackPage)
    (hq : pageOf addr < kernelStackPage) :
    StackKept k k' ↔ ∀ v, OnStack v → (k.pagetableRegion0.entry v).valid = false := by
  constructor
  · intro h v hv
    have hentry := hM.stack hp hq hv
    rw [h v hv] at hentry
    rw [hentry]
  · intro h v hv
    rw [hM.stack hp hq hv, ← h v hv]

/-- **The stack is kept only while nothing moves.** With the break and the address below the stack, on a table of
maximal length, a call keeps all entries of the stack if and only if the address is on the page of the break, or no
page of the stack is valid. -/
theorem stackKept_iff (env : Env) (hv : k.virtualMemoryEnabled = true) (hn : k.pagetableRegion0.numPages = maxPtLen)
    (hp : pageOf k.kernelBreak < kernelStackPage) (hq : pageOf addr < kernelStackPage) :
    ∃ r, setKernelBrk env addr k = .ok r ∧ (StackKept k r.after ↔
      pageOf addr = pageOf k.kernelBreak ∨ ∀ v, OnStack v → (k.pagetableRegion0.entry v).valid = false) := by
  by_cases hsame : pageOf addr = pageOf k.kernelBreak
  · exact ⟨_, setKernelBrk_same env hsame, iff_of_true (fun v _ => rfl) (.inl hsame)⟩
  · obtain ⟨k', hrun, hM⟩ := setKernelBrk_moved env addr hv hn hsame (Nat.lt_trans hp kernelStackPage_lt)
      (Nat.lt_trans hq kernelStackPage_lt)
    exact ⟨_, hrun, (hM.keepsStack_iff hp hq).trans (or_iff_right hsame).symm⟩

/-- A kernel that has booted with the break `brk`, and runs on a mapped stack. -/
def stackKernel (brk : Word) (free : List Nat) : Kernel :=
  { bootKernel brk free with
    pagetableRegion0 := ((bootKernel brk free).pagetableRegion0.store 126 (.mapped 126 protHeap)).store 127
      (.mapped 127 protHeap) }

theorem numPages_stackKernel (brk : Word) (free : List Nat) :
    (stackKernel brk free).pagetableRegion0.numPages = maxPtLen := by
  simp [stackKernel, numPages_bootKernel]

theorem stackKept_iff_inside : ∃ r, setKernelBrk calmEnv 0x5010 (stackKernel 0x5000 [5]) = .ok r ∧
    (StackKept (stackKernel 0x5000 [5]) r.after ↔ pageOf 0x5010 = pageOf (stackKernel 0x5000 [5]).kernelBreak ∨
      ∀ v, OnStack v → ((stackKernel 0x5000 [5]).pagetableRegion0.entry v).valid = false) :=
  stackKept_iff calmEnv rfl (numPages_stackKernel _ _) (by decide) (by decide)

theorem stackKept_fails_grow : ∃ r, setKernelBrk calmEnv 0x6000 (stackKernel 0x4000 [5]) = .ok r ∧
    (r.after.pagetableRegion0.entry 126).valid = false ∧ ¬ StackKept (stackKernel 0x4000 [5]) r.after := by
  have hvalid : ((stackKernel 0x4000 [5]).pagetableRegion0.entry 126).valid = true := by decide
  obtain ⟨k', hrun, hM⟩ := setKernelBrk_moved calmEnv (k := stackKernel 0x4000 [5]) 0x6000 rfl
    (numPages_stackKernel _ _) (by decide) (by decide) (by decide)
  have hp : pageOf (stackKernel 0x4000 [5]).kernelBreak < kernelStackPage := by decide
  refine ⟨_, hrun, by rw [hM.stack hp (by decide) ⟨by decide, by decide⟩], fun h => ?_⟩
  have hinvalid := (hM.keepsStack_iff hp (by decide)).mp h 126 ⟨by decide, by decide⟩
  exact Bool.false_ne_true (hinvalid.symm.trans hvalid)

end Stack

end MooseOS
