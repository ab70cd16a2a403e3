import MooseOS.Memory.Frames

/-!
# The kernel heap as a stack over a pool

What `setKernelBrk` does between page `b₀` and the end of a full table, whatever the allocator does: a list node that
cannot be allocated loses the frame that it is for.

* `heapMachine` : `setKernelBrk`, call after call, with the frames that a call loses;
* `poolOp` : the call as a step of `Pool.machine`;
* `heap_refines_pool` : every run is one of the pool;
* `frames_accounted` : over every run each frame is mapped, free or lost, and in one of these places only;
* `one_way`, `up_and_back` : runs one way, and back.
-/

namespace MooseOS
open Prog

/-! ## The two levels -/

/-- What a call reports: its return code, whether it stayed inside the table, and the frames that it loses. -/
structure BrkReport where
  rc : Int
  inside : Bool
  lost : List Nat
deriving DecidableEq

/-- The frames of the pages after the address whose list node cannot be allocated, the highest page first. -/
def lostFrames (env : Env) (addr : Word) (k : Kernel) : List Nat :=
  ((List.range' (pageOf addr + 1) (pageOf k.kernelBreak - pageOf addr)).reverse.filter fun v =>
    decide (k.pfn v ≠ 0) && !env.malloc v).map k.pfn

def heapMachine : Machine Kernel (Env × Word) BrkReport :=
  ⟨fun k op => do
    let r ← setKernelBrk op.1 op.2 k
    .ok (⟨r.val, r.inside, lostFrames op.1 op.2 k⟩, r.after)⟩

/-- The call as a step of the pool: slot `i` is the page `b₀ + 1 + i`. -/
def poolOp (b₀ : Nat) (op : Env × Word) : (Nat → Bool) × Nat := (fun i => op.1.malloc (b₀ + 1 + i), pageOf op.2 - b₀)

/-- Between two calls the break is on a page from `b₀` on, and the free frames fit an entry. -/
structure HeapState (b₀ : Nat) (k : Kernel) : Prop where
  enabled : k.virtualMemoryEnabled = true
  numPages : k.pagetableRegion0.numPages = maxPtLen
  le : b₀ ≤ pageOf k.kernelBreak
  lt : pageOf k.kernelBreak < maxPtLen
  valid : ∀ v, b₀ < v → v < maxPtLen → ((k.pagetableRegion0.entry v).valid = true ↔ v ≤ pageOf k.kernelBreak)
  small : ∀ f ∈ k.freeMemory, f < 2 ^ 24

theorem HeapStart.heapState {b₀ : Nat} {L₀ : List Nat} {k : Kernel} (h : HeapStart b₀ L₀ k) (hb : b₀ < maxPtLen) :
    HeapState b₀ k := by
  obtain rfl := h.brk
  refine ⟨h.enabled, h.numPages, Nat.le_refl _, hb, fun v h1 h2 => ?_, ?_⟩
  · rw [h.above v h1 h2]
    exact iff_of_false (by simp) (by omega)
  · rw [h.free]
    exact h.small

section Slots
variable {b₀ : Nat} {k : Kernel}

theorem poolOf_length (b₀ : Nat) (k : Kernel) : (poolOf b₀ k).held.length = pageOf k.kernelBreak - b₀ :=
  length_frames ..

theorem poolOf_held_getD {i : Nat} (hi : b₀ + 1 + i ≤ pageOf k.kernelBreak) :
    (poolOf b₀ k).held.getD i 0 = k.pfn (b₀ + 1 + i) := by
  have hlt : i < (poolOf b₀ k).held.length := by
    rw [poolOf_length]
    omega
  rw [List.getD_eq_getElem _ _ hlt]
  simp [poolOf, Kernel.frames]

/-- The frames in the slots from height `m` on, of which `keep` selects some, are those of the pages after `b₀ + m`. -/
theorem poolOf_slots (k : Kernel) (b₀ m : Nat) (keep : Nat → Bool) :
    (((poolOf b₀ k).slots m).filter fun i => keep (b₀ + 1 + i)).map ((poolOf b₀ k).held.getD · 0) =
      ((List.range' (b₀ + m + 1) (pageOf k.kernelBreak - (b₀ + m))).reverse.filter fun v =>
        decide (k.pfn v ≠ 0) && keep v).map k.pfn := by
  have hrange : List.range' (b₀ + m + 1) (pageOf k.kernelBreak - (b₀ + m)) =
      (List.range' m (pageOf k.kernelBreak - b₀ - m)).map (b₀ + 1 + ·) := by
    rw [List.map_add_range', show b₀ + 1 + m = b₀ + m + 1 by omega, Nat.sub_sub]
  have hpfn : ∀ i ∈ (List.range' m (pageOf k.kernelBreak - b₀ - m)).reverse,
      (poolOf b₀ k).held.getD i 0 = k.pfn (b₀ + 1 + i) := fun i hi =>
    poolOf_held_getD (by have := List.mem_range'_1.mp (List.mem_reverse.mp hi); omega)
  unfold Pool.slots
  rw [hrange, ← List.map_reverse, List.filter_map, List.map_map, List.filter_filter, poolOf_length]
  have hfilter := List.filter_congr (l := (List.range' m (pageOf k.kernelBreak - b₀ - m)).reverse)
    (p := fun i => keep (b₀ + 1 + i) && decide ((poolOf b₀ k).held.getD i 0 ≠ 0))
    (q := (fun v => decide (k.pfn v ≠ 0) && keep v) ∘ (b₀ + 1 + ·)) fun i hi => by
      rw [hpfn i hi, Bool.and_comm]
      rfl
  rw [hfilter]
  exact List.map_congr_left fun i hi => hpfn i (List.mem_of_mem_filter hi)

end Slots

section Step
variable {env : Env} {addr : Word} {b₀ : Nat} {k k' : Kernel}

/-- **A call resizes the stack of pages**, and loses the frames whose nodes cannot be allocated. -/
theorem poolOf_resizeBy (hb : b₀ ≤ pageOf k.kernelBreak) (ha : b₀ ≤ pageOf addr)
    (hfree : ∀ f ∈ k.freeMemory, f < 2 ^ 24) (h : Moved env addr k k') :
    poolOf b₀ k' = (poolOf b₀ k).resizeBy (fun i => env.malloc (b₀ + 1 + i)) (pageOf addr - b₀) := by
  have hlen := poolOf_length b₀ k
  rcases Nat.lt_or_ge (pageOf k.kernelBreak) (pageOf addr) with hpq | hqp
  · -- growing allocates no node
    have hfull : Moved { env with malloc := fun _ => true } addr k k' :=
      ⟨h.enabled, h.numPages, h.brk, h.kept, h.grown, h.shrunk, h.above, by rw [h.free, if_pos hpq, if_pos hpq]⟩
    rw [poolOf_moved (fun _ => rfl) hb ha hfree hfull, Pool.resize, Pool.resizeBy_of_lt _ (by omega),
      if_pos (by omega)]
  · have hold : k'.frames b₀ (pageOf addr) = k.frames b₀ (pageOf addr) := frames_congr fun v _ hv => by
      simp only [Kernel.pfn, h.kept v (by omega) hv]
    have hback : released env k.pagetableRegion0 (pageOf k.kernelBreak) (pageOf k.kernelBreak - pageOf addr) =
        ((List.range' (pageOf addr + 1) (pageOf k.kernelBreak - pageOf addr)).reverse.filter fun v =>
          decide (k.pfn v ≠ 0) && env.malloc v).map k.pfn := by
      rw [released, range_sub_eq hqp]
      simp only [Bool.decide_and, Bool.decide_eq_true]
    have hslots := poolOf_slots k b₀ (pageOf addr - b₀) env.malloc
    rw [Nat.add_sub_cancel' ha] at hslots
    have hl : (k.frames b₀ (pageOf addr)).length = pageOf addr - b₀ := length_frames ..
    have htake : (poolOf b₀ k).held.take (pageOf addr - b₀) = k.frames b₀ (pageOf addr) := by
      simp only [poolOf, frames_split k ha hqp, List.take_left' hl]
    rw [Pool.resizeBy_of_le _ (by omega), Pool.shrinkBy, htake, hslots, ← hback]
    simp only [poolOf, h.brk, h.free, hold, if_neg (show ¬ pageOf k.kernelBreak < pageOf addr by omega)]

theorem lostFrames_eq (env : Env) (addr : Word) (k : Kernel) (ha : b₀ ≤ pageOf addr) :
    lostFrames env addr k = (poolOf b₀ k).lostBy (fun i => env.malloc (b₀ + 1 + i)) (pageOf addr - b₀) := by
  have hslots := poolOf_slots k b₀ (pageOf addr - b₀) (fun v => !env.malloc v)
  rw [Nat.add_sub_cancel' ha] at hslots
  rw [Pool.lostBy, poolOf_length, hslots]
  split
  · rw [lostFrames, Nat.sub_eq_zero_of_le (by omega)]
    rfl
  · rfl

/-- **One call** is a step of the pool. -/
theorem heap_step (op : Env × Word) (h : HeapState b₀ k) (hop : b₀ ≤ pageOf op.2 ∧ pageOf op.2 < maxPtLen) :
    ∃ r k', heapMachine.step k op = .ok (r, k') ∧ HeapState b₀ k' ∧ (r.rc = 0 ∧ r.inside = true) ∧
      Pool.machine.step (poolOf b₀ k) (poolOp b₀ op) = .ok (r.lost, poolOf b₀ k') := by
  obtain ⟨env, addr⟩ := op
  obtain ⟨hlo, hhi⟩ := hop
  have hlost := lostFrames_eq env addr k hlo
  by_cases hsame : pageOf addr = pageOf k.kernelBreak
  · refine ⟨⟨0, true, lostFrames env addr k⟩, { k with kernelBreak := addr }, ?_, ?_, ⟨rfl, rfl⟩, ?_⟩
    · simp only [heapMachine, setKernelBrk_same env hsame, ok_bind]
    · exact ⟨h.enabled, h.numPages, hlo, hhi, by simpa only [hsame] using h.valid, h.small⟩
    · have hpool : poolOf b₀ { k with kernelBreak := addr } = poolOf b₀ k := by
        simp only [poolOf, hsame]
        rfl
      have hself := (poolOf b₀ k).resizeBy_self fun i => env.malloc (b₀ + 1 + i)
      rw [poolOf_length, ← hsame] at hself
      simp only [Pool.machine, poolOp, hlost, hself, hpool]
  · obtain ⟨k', hrun, hM⟩ := setKernelBrk_moved env addr h.enabled h.numPages hsame h.lt hhi
    have hpool := poolOf_resizeBy h.le hlo h.small hM
    refine ⟨⟨0, true, lostFrames env addr k⟩, k', ?_, ?_, ⟨rfl, rfl⟩, ?_⟩
    · simp only [heapMachine, hrun, ok_bind]
    · refine ⟨hM.enabled, hM.numPages, by rw [hM.brk]; exact hlo, by rw [hM.brk]; exact hhi,
        fun v h1 h2 => by rw [hM.brk, hM.valid_iff h2], fun f hf => ?_⟩
      rw [hM.free] at hf
      split at hf
      · exact h.small f (List.mem_of_mem_drop hf)
      · rcases List.mem_append.mp hf with hold | hnew
        · exact h.small f hold
        · obtain ⟨v, -, rfl⟩ := List.mem_map.mp hnew
          exact BitVec.isLt _
    · rw [hpool]
      simp only [Pool.machine, poolOp, hlost]

end Step

/-! ## Runs -/

section Runs
variable {b₀ : Nat} {k₀ : Kernel}

/-- An outside where the list node for the frame of page 4 cannot be allocated. -/
def lossyEnv : Env := { calmEnv with malloc := fun v => decide (v ≠ 4) }

theorem heapState_bootKernel : HeapState 1 (bootKernel 0x2000 [5, 6, 7]) :=
  have hstart : HeapStart 1 [5, 6, 7] (bootKernel 0x2000 [5, 6, 7]) :=
    ⟨rfl, numPages_bootKernel _ _, rfl, fun v h1 h2 => by rw [entry_bootKernel_above 0x2000 _ h1 h2]; rfl, rfl,
      by decide, by decide⟩
  hstart.heapState (by decide)

theorem heap_run (h₀ : HeapState b₀ k₀) (ops : List (Env × Word))
    (hops : ∀ op ∈ ops, b₀ ≤ pageOf op.2 ∧ pageOf op.2 < maxPtLen) :
    ∃ rs k, heapMachine.run k₀ ops = .ok (rs, k) ∧ HeapState b₀ k ∧ (∀ r ∈ rs, r.rc = 0 ∧ r.inside = true) ∧
      Pool.machine.run (poolOf b₀ k₀) (ops.map (poolOp b₀)) = .ok (rs.map BrkReport.lost, poolOf b₀ k) :=
  heapMachine.run_simulates Pool.machine _ (HeapState b₀) _ (poolOf b₀) (poolOp b₀) BrkReport.lost
    (fun _ op hk hop => heap_step op hk hop) ops k₀ hops h₀

/-- **The heap refines the pool.** Over every run of calls from page `b₀` on and before the end of a full table, with
any outcomes of `malloc` and `realloc`, every call returns 0 and stays inside the table; the frames of the pages, the
free list and the losses are those of the run of the pool; and after it exactly the pages up to the break are valid. -/
theorem heap_refines_pool (h₀ : HeapState b₀ k₀) (ops : List (Env × Word))
    (hops : ∀ op ∈ ops, b₀ ≤ pageOf op.2 ∧ pageOf op.2 < maxPtLen) :
    ∃ rs k, heapMachine.run k₀ ops = .ok (rs, k) ∧ (∀ r ∈ rs, r.rc = 0 ∧ r.inside = true) ∧
      Pool.machine.run (poolOf b₀ k₀) (ops.map (poolOp b₀)) = .ok (rs.map BrkReport.lost, poolOf b₀ k) ∧
      ∀ v, b₀ < v → v < maxPtLen → ((k.pagetableRegion0.entry v).valid = true ↔ v ≤ pageOf k.kernelBreak) := by
  obtain ⟨rs, k, hrun, hk, hrs, hpool⟩ := heap_run h₀ ops hops
  exact ⟨rs, k, hrun, hrs, hpool, hk.valid⟩

theorem heap_refines_pool_lossy : ∃ rs k,
    heapMachine.run (bootKernel 0x2000 [5, 6, 7]) [(calmEnv, 0x8000), (lossyEnv, 0x5000)] = .ok (rs, k) ∧
      (∀ r ∈ rs, r.rc = 0 ∧ r.inside = true) ∧
      Pool.machine.run (poolOf 1 (bootKernel 0x2000 [5, 6, 7]))
        ([(calmEnv, 0x8000), (lossyEnv, 0x5000)].map (poolOp 1)) = .ok (rs.map BrkReport.lost, poolOf 1 k) ∧
      ∀ v, 1 < v → v < maxPtLen → ((k.pagetableRegion0.entry v).valid = true ↔ v ≤ pageOf k.kernelBreak) :=
  heap_refines_pool heapState_bootKernel _ (by decide)

/-- **The ledger of the heap.** After every such run the frames of the pages, the free ones and all that were lost are
a permutation of the frames of the pages and the free ones at the start. -/
theorem frames_accounted (h₀ : HeapState b₀ k₀) (h0 : 0 ∉ k₀.freeMemory) (ops : List (Env × Word))
    (hops : ∀ op ∈ ops, b₀ ≤ pageOf op.2 ∧ pageOf op.2 < maxPtLen) :
    ∃ rs k, heapMachine.run k₀ ops = .ok (rs, k) ∧
      ((k.frames b₀ (pageOf k.kernelBreak)).filter (· ≠ 0) ++ k.freeMemory ++ (rs.map BrkReport.lost).flatten).Perm
        ((k₀.frames b₀ (pageOf k₀.kernelBreak)).filter (· ≠ 0) ++ k₀.freeMemory) := by
  obtain ⟨rs, k, hrun, -, -, hpool⟩ := heap_run h₀ ops hops
  exact ⟨rs, k, hrun, Pool.ledger h0 hpool⟩

theorem frames_accounted_lossy : ∃ rs k,
    heapMachine.run (bootKernel 0x2000 [5, 6, 7]) [(calmEnv, 0x8000), (lossyEnv, 0x5000)] = .ok (rs, k) ∧
      ((k.frames 1 (pageOf k.kernelBreak)).filter (· ≠ 0) ++ k.freeMemory ++ (rs.map BrkReport.lost).flatten).Perm
        (((bootKernel 0x2000 [5, 6, 7]).frames 1 (pageOf (bootKernel 0x2000 [5, 6, 7]).kernelBreak)).filter (· ≠ 0) ++
          (bootKernel 0x2000 [5, 6, 7]).freeMemory) :=
  frames_accounted heapState_bootKernel (by decide) _ (by decide)

theorem isChain_poolOp (b₀ : Nat) {R : Nat → Nat → Prop} (hR : ∀ m n, R m n → R (m - b₀) (n - b₀)) {p : Nat}
    {ops : List (Env × Word)} (h : List.IsChain R (p :: ops.map (pageOf ·.2))) :
    List.IsChain R ((p - b₀) :: (ops.map (poolOp b₀)).map Prod.snd) := by
  have hmap := (List.isChain_map (R := R) (· - b₀)).mpr (h.imp hR)
  rw [List.map_cons, List.map_map] at hmap
  rwa [List.map_map]

/-- **One way.** A run of calls that never go back, or that never go forward and lose the frames of the same pages,
leaves the frames of the pages and the free list as its last call alone does. -/
theorem one_way (h₀ : HeapState b₀ k₀) {ops : List (Env × Word)} {op : Env × Word}
    (hops : ∀ o ∈ ops ++ [op], b₀ ≤ pageOf o.2 ∧ pageOf o.2 < maxPtLen)
    (hway : List.IsChain (· ≤ ·) (pageOf k₀.kernelBreak :: (ops ++ [op]).map (pageOf ·.2)) ∨
      List.IsChain (· ≥ ·) (pageOf k₀.kernelBreak :: (ops ++ [op]).map (pageOf ·.2)) ∧
        ∀ o ∈ ops ++ [op], o.1.malloc = op.1.malloc) :
    ∃ rs k k₁, heapMachine.run k₀ (ops ++ [op]) = .ok (rs, k) ∧ setKernelBrk op.1 op.2 k₀ = .ok ⟨0, k₁, true⟩ ∧
      poolOf b₀ k = poolOf b₀ k₁ := by
  obtain ⟨rs, k, hrun, -, -, hpool⟩ := heap_run h₀ _ hops
  obtain ⟨r, k₁, hone, -, ⟨hrc, hin⟩, hstep⟩ := heap_step op h₀ (hops op (by simp))
  have hbrk : setKernelBrk op.1 op.2 k₀ = .ok ⟨0, k₁, true⟩ := by
    obtain ⟨r', hr', hr⟩ := bind_eq_ok.mp hone
    cases hr
    rw [hr']
    cases r'
    simp only at hrc hin
    rw [hrc, hin]
  refine ⟨rs, k, k₁, hrun, hbrk, ?_⟩
  rw [List.map_append, List.map_singleton] at hpool
  have hlast : ∃ lost, Pool.machine.run (poolOf b₀ k₀) (ops.map (poolOp b₀) ++ [poolOp b₀ op]) =
      .ok (lost, (poolOf b₀ k₀).resizeBy (poolOp b₀ op).1 (poolOp b₀ op).2) := by
    rcases hway with hup | ⟨hdown, hkeep⟩
    · have hchain := isChain_poolOp b₀ (fun m n h => Nat.sub_le_sub_right h b₀) hup
      rw [← poolOf_length, List.map_append, List.map_singleton] at hchain
      exact Pool.run_up hchain
    · have hchain := isChain_poolOp b₀ (fun m n h => Nat.sub_le_sub_right h b₀) hdown
      rw [← poolOf_length, List.map_append, List.map_singleton] at hchain
      refine Pool.run_down (fun o ho => ?_) hchain
      rw [← List.map_singleton, ← List.map_append] at ho
      obtain ⟨o', ho', rfl⟩ := List.mem_map.mp ho
      simp only [poolOp, hkeep o' ho']
  obtain ⟨lost, hlost⟩ := hlast
  rw [hlost] at hpool
  exact (Prod.mk.inj (Except.ok.inj hpool)).2.symm.trans (Prod.mk.inj (Except.ok.inj hstep)).2

theorem one_way_up : ∃ rs k k₁,
    heapMachine.run (bootKernel 0x2000 [5, 6, 7]) ([(lossyEnv, 0x5000)] ++ [(calmEnv, 0x8000)]) = .ok (rs, k) ∧
      setKernelBrk calmEnv 0x8000 (bootKernel 0x2000 [5, 6, 7]) = .ok ⟨0, k₁, true⟩ ∧ poolOf 1 k = poolOf 1 k₁ :=
  one_way heapState_bootKernel (by decide)
    (.inl (by decide))

/-- **Up and back.** Calls that never go back, and then calls that never go forward until the break is on its first
page again, none of them losing a frame, leave the pages above `b₀` their frames, and the frames that were taken behind
the other free ones, the last one first. -/
theorem up_and_back (h₀ : HeapState b₀ k₀) (h0 : 0 ∉ k₀.freeMemory) {ups downs : List (Env × Word)}
    {top bottom : Env × Word}
    (hops : ∀ o ∈ ups ++ [top] ++ (downs ++ [bottom]), b₀ ≤ pageOf o.2 ∧ pageOf o.2 < maxPtLen)
    (hup : List.IsChain (· ≤ ·) (pageOf k₀.kernelBreak :: (ups ++ [top]).map (pageOf ·.2)))
    (hdown : List.IsChain (· ≥ ·) (pageOf top.2 :: (downs ++ [bottom]).map (pageOf ·.2)))
    (hback : pageOf bottom.2 = pageOf k₀.kernelBreak) (hkeep : ∀ o ∈ downs ++ [bottom], ∀ v, o.1.malloc v = true) :
    ∃ rs k, heapMachine.run k₀ (ups ++ [top] ++ (downs ++ [bottom])) = .ok (rs, k) ∧
      k.frames b₀ (pageOf k.kernelBreak) = k₀.frames b₀ (pageOf k₀.kernelBreak) ∧
      k.freeMemory = k₀.freeMemory.drop (pageOf top.2 - pageOf k₀.kernelBreak) ++
        (k₀.freeMemory.take (pageOf top.2 - pageOf k₀.kernelBreak)).reverse := by
  obtain ⟨rs, k, hrun, -, -, hpool⟩ := heap_run h₀ _ hops
  have hle := h₀.le
  have hlen := poolOf_length b₀ k₀
  have hheight : (poolOp b₀ top).2 - (poolOf b₀ k₀).held.length = pageOf top.2 - pageOf k₀.kernelBreak := by
    simp only [poolOp, hlen]
    omega
  have hmono : ∀ m n : Nat, m ≤ n → m - b₀ ≤ n - b₀ := fun m n h => Nat.sub_le_sub_right h b₀
  have hups := isChain_poolOp b₀ hmono hup
  have hdowns := isChain_poolOp b₀ (R := (· ≥ ·)) (fun m n h => hmono n m h) hdown
  rw [← hlen, List.map_append, List.map_singleton] at hups
  rw [List.map_append, List.map_singleton] at hdowns
  obtain ⟨lost, hlost⟩ := Pool.run_back (s := poolOf b₀ k₀) h0 hups hdowns (fun o ho => by
      rw [← List.map_singleton, ← List.map_append] at ho
      obtain ⟨o', ho', rfl⟩ := List.mem_map.mp ho
      exact funext fun i => hkeep o' ho' _) (by simp only [poolOp, hback, hlen])
  rw [hheight] at hlost
  simp only [List.map_append, List.map_singleton] at hpool
  rw [hlost] at hpool
  have hend := (Prod.mk.inj (Except.ok.inj hpool)).2
  exact ⟨rs, k, hrun, (congrArg Pool.held hend).symm, (congrArg Pool.free hend).symm⟩

/-- Five pages up with three frames, and back. -/
theorem up_and_back_two : ∃ rs k,
    heapMachine.run (bootKernel 0x2000 [5, 6, 7])
      ([(lossyEnv, 0x6000)] ++ [(lossyEnv, 0xC000)] ++ ([] ++ [(calmEnv, 0x3000)])) = .ok (rs, k) ∧
      k.frames 1 (pageOf k.kernelBreak) = (bootKernel 0x2000 [5, 6, 7]).frames 1 (pageOf 0x2000) ∧
      k.freeMemory = [5, 6, 7].drop (pageOf 0xC000 - pageOf 0x2000) ++
        ([5, 6, 7].take (pageOf 0xC000 - pageOf 0x2000)).reverse :=
  up_and_back heapState_bootKernel (by decide) (by decide) (by decide) (by decide) rfl (by simp [calmEnv])

end Runs

end MooseOS
