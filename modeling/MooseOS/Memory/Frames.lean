import MooseOS.Lib.Pool
import MooseOS.Memory.Brk

/-!
# No frame is lost

* `poolOf b₀ k` : the pages between page `b₀` and the break as a stack over the pool of free frames;
* `poolOf_moved` : a call of `setKernelBrk` resizes that stack;
* `frames_conserved` : over every run of `setKernelBrk` the frames above `b₀` and the free ones are those there were.
-/

namespace MooseOS
open Prog

/-- `setKernelBrk`, call after call, each with what the outside does; the result says also whether the call stayed
inside the table. -/
def brkMachine : Machine Kernel (Env × Word) (Int × Bool) :=
  ⟨fun k op => do
    let r ← setKernelBrk op.1 op.2 k
    .ok ((r.val, r.inside), r.after)⟩

abbrev Kernel.pfn (k : Kernel) (v : Nat) : Nat := (k.pagetableRegion0.entry v).pfn.toNat

/-- The frames of the pages after `b₀` up to `c`. -/
def Kernel.frames (k : Kernel) (b₀ c : Nat) : List Nat := (List.range' (b₀ + 1) (c - b₀)).map k.pfn

/-- The pages after `b₀` up to the break, over the free frames. -/
def poolOf (b₀ : Nat) (k : Kernel) : Pool Nat := ⟨k.frames b₀ (pageOf k.kernelBreak), k.freeMemory⟩

section Resize
variable {env : Env} {addr : Word} {b₀ : Nat} {k k' : Kernel}

theorem length_frames (k : Kernel) (b₀ c : Nat) : (k.frames b₀ c).length = c - b₀ := by
  simp [Kernel.frames]

theorem frames_split (k : Kernel) {m c : Nat} (hm : b₀ ≤ m) (hc : m ≤ c) :
    k.frames b₀ c = k.frames b₀ m ++ k.frames m c := by
  simp only [Kernel.frames, ← List.map_append]
  rw [show m + 1 = b₀ + 1 + (m - b₀) by omega, List.range'_append_1, show m - b₀ + (c - m) = c - b₀ by omega]

theorem frames_congr {c : Nat} (h : ∀ v, b₀ < v → v ≤ c → k'.pfn v = k.pfn v) :
    k'.frames b₀ c = k.frames b₀ c := by
  apply List.map_congr_left
  intro v hv
  obtain ⟨h1, h2⟩ := List.mem_range'_1.mp hv
  exact h v (by omega) (by omega)

theorem range_sub_eq {p q : Nat} (hqp : q ≤ p) :
    (List.range (p - q)).map (p - ·) = (List.range' (q + 1) (p - q)).reverse := by
  rw [List.reverse_range']
  apply List.map_congr_left
  intro i hi
  have := List.mem_range.mp hi
  omega

/-- With a `malloc` that never fails, shrinking gives back the frames of the pages it empties, highest page first. -/
theorem released_eq (hm : ∀ v, env.malloc v = true) {p q : Nat} (hqp : q ≤ p) :
    released env k.pagetableRegion0 p (p - q) = (k.frames q p).reverse.filter (· ≠ 0) := by
  unfold released
  simp only [range_sub_eq hqp, hm, and_true, Kernel.frames, ← List.map_reverse, List.filter_map]
  rfl

/-- **A call resizes the stack of pages.** -/
theorem poolOf_moved (hm : ∀ v, env.malloc v = true) (hb : b₀ ≤ pageOf k.kernelBreak) (ha : b₀ ≤ pageOf addr)
    (hfree : ∀ f ∈ k.freeMemory, f < 2 ^ 24) (h : Moved env addr k k') :
    poolOf b₀ k' = (poolOf b₀ k).resize (pageOf addr - b₀) := by
  have hlen : (poolOf b₀ k).held.length = pageOf k.kernelBreak - b₀ := length_frames ..
  have hkeep : ∀ v, v ≤ pageOf k.kernelBreak → v ≤ pageOf addr → k'.pfn v = k.pfn v := fun v h1 h2 => by
    simp only [Kernel.pfn, h.kept v h1 h2]
  unfold Pool.resize
  rw [hlen]
  rcases Nat.lt_or_ge (pageOf k.kernelBreak) (pageOf addr) with hpq | hqp
  · rw [if_pos (by omega)]
    have hnew : k'.frames (pageOf k.kernelBreak) (pageOf addr) =
        (List.range (pageOf addr - pageOf k.kernelBreak)).map (k.freeMemory.getD · 0) := by
      simp only [Kernel.frames, List.range'_eq_map_range, List.map_map]
      apply List.map_congr_left
      intro i hi
      have hi' := List.mem_range.mp hi
      have hf : k.freeMemory.getD i 0 < 2 ^ 24 := by
        rcases Nat.lt_or_ge i k.freeMemory.length with hlt | hge
        · rw [List.getD_eq_getElem _ _ hlt]
          exact hfree _ (List.getElem_mem hlt)
        · rw [List.getD_eq_default _ _ hge]
          decide
      simp only [Function.comp, Kernel.pfn]
      rw [h.grown _ (by omega) (by omega), Nat.add_sub_cancel_left, Pte.mapped_pfn hf]
    have hold : k'.frames b₀ (pageOf k.kernelBreak) = k.frames b₀ (pageOf k.kernelBreak) :=
      frames_congr fun v _ hv => hkeep v hv (by omega)
    simp only [poolOf, Pool.grow, h.brk, h.free, if_pos hpq, frames_split k' hb (Nat.le_of_lt hpq), hold, hnew,
      show pageOf addr - b₀ - (pageOf k.kernelBreak - b₀) = pageOf addr - pageOf k.kernelBreak by omega]
  · rw [if_neg (by omega)]
    have hold : k'.frames b₀ (pageOf addr) = k.frames b₀ (pageOf addr) :=
      frames_congr fun v _ hv => hkeep v (by omega) hv
    have hl : (k.frames b₀ (pageOf addr)).length = pageOf addr - b₀ := length_frames ..
    simp only [poolOf, Pool.shrink, h.brk, h.free, if_neg (show ¬ pageOf k.kernelBreak < pageOf addr by omega), hold,
      released_eq hm hqp, frames_split k ha hqp, List.take_left' hl, List.drop_left' hl]

end Resize

/-! ## Runs -/

/-- The state a run starts from: the break is on page `b₀`, no page above it is valid, and `L₀` is free. -/
structure HeapStart (b₀ : Nat) (L₀ : List Nat) (k : Kernel) : Prop where
  enabled : k.virtualMemoryEnabled = true
  numPages : k.pagetableRegion0.numPages = maxPtLen
  brk : pageOf k.kernelBreak = b₀
  above : ∀ v, b₀ < v → v < maxPtLen → (k.pagetableRegion0.entry v).valid = false
  free : k.freeMemory = L₀
  nonZero : 0 ∉ L₀
  small : ∀ f ∈ L₀, f < 2 ^ 24

/-- With the break on page `c`, the frames of `L₀` are those of the pages after `b₀` up to `c`, which are the valid
ones, and the free ones; the pages up to `b₀` are as in `k₀`. -/
structure Conserved (b₀ c : Nat) (L₀ : List Nat) (k₀ k : Kernel) : Prop where
  valid : ∀ v, b₀ < v → v < maxPtLen → ((k.pagetableRegion0.entry v).valid = true ↔ v ≤ c)
  stock : ((k.frames b₀ c).filter (· ≠ 0) ++ k.freeMemory).Perm L₀
  kept : ∀ v ≤ b₀, (k.pagetableRegion0.entry v).pfn = (k₀.pagetableRegion0.entry v).pfn ∧
    (k.pagetableRegion0.entry v).prot = (k₀.pagetableRegion0.entry v).prot

structure Reached (b₀ : Nat) (L₀ : List Nat) (k₀ k : Kernel) : Prop where
  enabled : k.virtualMemoryEnabled = true
  numPages : k.pagetableRegion0.numPages = maxPtLen
  le : b₀ ≤ pageOf k.kernelBreak
  lt : pageOf k.kernelBreak < maxPtLen
  conserved : Conserved b₀ (pageOf k.kernelBreak) L₀ k₀ k

section Runs
variable {b₀ : Nat} {L₀ : List Nat} {k₀ k : Kernel} {env : Env} {addr : Word}

theorem reached_start (h : HeapStart b₀ L₀ k₀) (hb : b₀ < maxPtLen) : Reached b₀ L₀ k₀ k₀ := by
  obtain rfl := h.brk
  refine ⟨h.enabled, h.numPages, Nat.le_refl _, hb, ⟨fun v h1 h2 => ?_, ?_, fun v _ => ⟨rfl, rfl⟩⟩⟩
  · rw [h.above v h1 h2]
    exact iff_of_false (by simp) (by omega)
  · simp [Kernel.frames, h.free]

/-- **One call** keeps the frames. -/
theorem reached_step (hL : 0 ∉ L₀) (hsmall : ∀ f ∈ L₀, f < 2 ^ 24) (hm : ∀ v, env.malloc v = true)
    (hlo : b₀ ≤ pageOf addr) (hhi : pageOf addr < maxPtLen) (h : Reached b₀ L₀ k₀ k) :
    ∃ k', setKernelBrk env addr k = .ok ⟨0, k', true⟩ ∧ Reached b₀ L₀ k₀ k' ∧
      pageOf k'.kernelBreak = pageOf addr := by
  obtain ⟨hvalid, hstock, hkept⟩ := h.conserved
  by_cases hsame : pageOf addr = pageOf k.kernelBreak
  · refine ⟨_, setKernelBrk_same env hsame, ⟨h.enabled, h.numPages, hlo, hhi, ?_⟩, rfl⟩
    simp only [hsame]
    exact ⟨hvalid, hstock, hkept⟩
  · obtain ⟨k', hrun, hM⟩ := setKernelBrk_moved env addr h.enabled h.numPages hsame h.lt hhi
    refine ⟨k', hrun, ⟨hM.enabled, hM.numPages, by rw [hM.brk]; exact hlo, by rw [hM.brk]; exact hhi, ?_⟩, hM.brk⟩
    have hfree : ∀ f ∈ k.freeMemory, f < 2 ^ 24 := fun f hf =>
      hsmall f (hstock.subset (List.mem_append_right _ hf))
    have hpool := poolOf_moved hm h.le hlo hfree hM
    have hcons : (poolOf b₀ k').stock.Perm L₀ := by
      rw [hpool]
      exact (Pool.resize_stock (Pool.zero_notMem_free (s := poolOf b₀ k) hstock hL) _).trans hstock
    refine ⟨fun v h1 h2 => ?_, hcons, fun v hv => ?_⟩
    · rw [hM.brk, hM.valid_iff h2]
    · simp only [hM.kept v (by have := h.le; omega) (by omega)]
      exact hkept v hv

/-- **Frame conservation.** After any run of `setKernelBrk` calls, growing and shrinking between page `b₀` and the end
of the table with a `malloc` that never fails, the valid pages above `b₀` are those up to the page of the last
address, their frames and the free ones are a permutation of the frames free at the start, and the pages up to `b₀`
keep their frames and protections. -/
theorem frames_conserved (h₀ : HeapStart b₀ L₀ k₀) (ops : List (Env × Word)) (env : Env) (addr : Word)
    (hops : ∀ op ∈ ops ++ [(env, addr)],
      (∀ v, op.1.malloc v = true) ∧ b₀ ≤ pageOf op.2 ∧ pageOf op.2 < maxPtLen) :
    ∃ rs k, brkMachine.run k₀ (ops ++ [(env, addr)]) = .ok (rs, k) ∧ Conserved b₀ (pageOf addr) L₀ k₀ k := by
  have hstep : ∀ op ∈ ops ++ [(env, addr)], ∀ k, Reached b₀ L₀ k₀ k →
      ∃ r k', brkMachine.step k op = .ok (r, k') ∧ Reached b₀ L₀ k₀ k' ∧ pageOf k'.kernelBreak = pageOf op.2 := by
    intro op hop k hk
    obtain ⟨hm, hlo, hhi⟩ := hops op hop
    obtain ⟨k', hrun, hk', hbrk⟩ := reached_step h₀.nonZero h₀.small hm hlo hhi hk
    exact ⟨(0, true), k', by simp only [brkMachine, hrun, ok_bind], hk', hbrk⟩
  have hlast := hops (env, addr) (by simp)
  obtain ⟨rs, k, hrun, hk⟩ := brkMachine.run_total (· ∈ ops ++ [(env, addr)]) (Reached b₀ L₀ k₀)
    (fun k op hk hop => (hstep op hop k hk).imp fun r h => h.imp fun k' h => ⟨h.1, h.2.1⟩)
    ops k₀ (by simp +contextual) (reached_start h₀ (by omega))
  obtain ⟨r, k', hs, hk', hbrk⟩ := hstep (env, addr) (by simp) k hk
  exact ⟨_, k', brkMachine.run_append_ok hrun ((brkMachine.run_cons_ok).mpr ⟨r, k', [], hs, rfl, rfl⟩),
    hbrk ▸ hk'.conserved⟩

theorem frames_conserved_three : ∃ rs k,
    brkMachine.run (bootKernel 0x2000 [5, 6]) ([(calmEnv, 0xA000), (calmEnv, 0xA010)] ++ [(calmEnv, 0x5000)]) =
      .ok (rs, k) ∧ Conserved 1 2 [5, 6] (bootKernel 0x2000 [5, 6]) k := by
  refine frames_conserved ⟨rfl, numPages_bootKernel _ _, rfl, fun v h1 h2 => ?_, rfl, by decide, by decide⟩ _ _ _ ?_
  · rw [entry_bootKernel_above 0x2000 _ h1 h2]
    rfl
  · simp only [List.cons_append, List.nil_append, List.mem_cons, List.not_mem_nil, or_false, forall_eq_or_imp,
      forall_eq]
    exact ⟨⟨fun _ => rfl, by decide, by decide⟩, ⟨fun _ => rfl, by decide, by decide⟩,
      fun _ => rfl, by decide, by decide⟩

end Runs

end MooseOS
