import MooseOS.Memory.HeapPool
import MooseOS.Memory.Safety
import MooseOS.Queue.DoublyLinked

/-!
# The free frames in their nodes

`Kernel.freeMemory` is a list. Here are the calls of `setKernelBrk` over the nodes of the linked-list queue itself, with
the blocks that `malloc` hands out.

* `LinkedKernel`, `linkedKernelBrk` : the kernel with its queue, and the call;
* `OwnBlocks` : what the calls rely on;
* `Pooled` : the nodes hold the list of frames;
* `linkedKernelBrk_pooled` : a call does over the nodes what it does over the list;
* `linked_pool_run` : so does every run;
* `linked_frames_accounted` : and each frame is on a page, in a node or lost.
-/

namespace MooseOS
open Prog

/-! ## The calls -/

/-- The outside of a call, with the block in which `malloc` puts the node for the frame of a page. It is filled with
zeros. -/
structure LinkedEnv where
  realloc : Nat → Option Block
  node : Nat → Option Word
  beyond : Pte

/-- What the list sees of it. -/
def LinkedEnv.env (env : LinkedEnv) : Env := ⟨env.realloc, fun v => (env.node v).isSome, env.beyond⟩

/-- A kernel whose free frames are in a queue; the list of `base` is not looked at. -/
structure LinkedKernel where
  base : Kernel
  freeMemory : LinkedListQueue Nat

structure LinkedMoving where
  page : Nat
  table : Pagetable
  free : LinkedListQueue Nat
  inside : Bool

/-- `growTurn` over the nodes. -/
def linkedGrowTurn (env : LinkedEnv) (s : LinkedMoving) : Exec LinkedMoving := do
  let popped ← linkedListQueuePop s.free
  let page := s.page + 1
  let w ← pagetableWrite s.table page popped.1 (protRead ||| protWrite) (env.realloc page)
  .ok ⟨page, w.after, popped.2, s.inside && w.inside⟩

/-- `shrinkTurn` over the nodes. -/
def linkedShrinkTurn (env : LinkedEnv) (s : LinkedMoving) : Exec LinkedMoving := do
  let frame := pfnForPage s.table s.page env.beyond
  let removed := pagetableRemove frame.after s.page
  let pushed ← linkedListQueuePush s.free frame.val ((env.node s.page).map fun a => (a, ⟨0, 0, 0⟩))
  .ok ⟨s.page - 1, removed.after, pushed.2, s.inside && frame.inside && removed.inside⟩

def linkedMoveLoop (env : LinkedEnv) (numPagesBefore numPagesAfter : Nat) (table : Pagetable)
    (free : LinkedListQueue Nat) : Exec LinkedMoving :=
  whileLoop (fun s => decide (s.page ≠ numPagesAfter))
    (if numPagesBefore < numPagesAfter then linkedGrowTurn env else linkedShrinkTurn env)
    (numPagesBefore + numPagesAfter + 1) ⟨numPagesBefore, table, free, true⟩

/-- `setKernelBrk` over the nodes. -/
def linkedKernelBrk (env : LinkedEnv) (addr : Word) (k : LinkedKernel) : Exec (Ran LinkedKernel Int) :=
  if k.base.virtualMemoryEnabled = false then .ok ⟨0, { k with base := { k.base with kernelBreak := addr } }, true⟩
  else
    let numPagesBefore := pageOf k.base.kernelBreak
    let numPagesAfter := pageOf addr
    if numPagesAfter = numPagesBefore then .ok ⟨0, { k with base := { k.base with kernelBreak := addr } }, true⟩
    else do
      let moved ← linkedMoveLoop env numPagesBefore numPagesAfter k.base.pagetableRegion0 k.freeMemory
      let valid ← validLoop numPagesAfter ⟨vmem0Base >>> pageShift, moved.table, moved.inside, false⟩
      if valid.returned then
        .ok ⟨-1, ⟨{ k.base with pagetableRegion0 := valid.table }, moved.free⟩, valid.inside⟩
      else do
        let below ← invalidLoop (kernelStackLimit >>> pageShift) valid
        .ok ⟨0, ⟨{ k.base with
          pagetableRegion0 := below.table
          kernelBreak := (addr.sshiftRight pageShift) <<< pageShift }, moved.free⟩, below.inside⟩

def linkedBrkMachine : Machine LinkedKernel (LinkedEnv × Word) (Int × Bool) :=
  ⟨fun k op => do
    let r ← linkedKernelBrk op.1 op.2 k
    .ok ((r.val, r.inside), r.after)⟩

/-- The same calls over the list. -/
def listBrkMachine : Machine Kernel (LinkedEnv × Word) (Int × Bool) := ⟨fun k op => brkMachine.step k (op.1.env, op.2)⟩

/-! ## What a call does -/

/-- The nodes for the pages after `q` up to `p` get blocks of their own. -/
structure OwnBlocks (node : Nat → Option Word) (q p : Nat) (free : LinkedListQueue Nat) : Prop where
  fresh : ∀ v a, q < v → v ≤ p → node v = some a → a ≠ 0 ∧ free.heap a = none
  apart : ∀ v w a, q < v → v < w → w ≤ p → node v = some a → node w ≠ some a

/-- The nodes are linked both ways, and hold the frames in their order. -/
def Holding (free : LinkedListQueue Nat) (xs : List Nat) : Prop :=
  ∃ ns, DoublyLinked free ns ∧ ns.map (·.2.value) = xs

/-- The two loops side by side: only the queue and the list differ. -/
structure MovingAlike (s : LinkedMoving) (t : Moving) : Prop where
  page : s.page = t.page
  table : s.table = t.table
  inside : s.inside = t.inside
  free : Holding s.free t.free

section Turns
variable {env : LinkedEnv} {free : LinkedListQueue Nat} {xs : List Nat} {s : LinkedMoving} {t t' : Moving} {p q : Nat}

theorem pop_holding (h : Holding free xs) :
    ∃ free', linkedListQueuePop free = .ok ((Fifo.pop xs).1, free') ∧ Holding free' (Fifo.pop xs).2 := by
  obtain ⟨ns, hns, rfl⟩ := h
  cases ns with
  | nil => exact ⟨free, by rw [linkedListQueuePop, if_pos (hns.front_eq_null.mpr rfl)]; rfl, [], hns, rfl⟩
  | cons x ns =>
    obtain ⟨-, free', ns', hpop, hns', hvals, -⟩ := linkedListQueuePop_doublyLinked hns
    exact ⟨free', hpop, ns', hns', hvals⟩

/-- The blocks that were not allocated are not allocated after a push either, but for its own. -/
theorem push_holding (h : Holding free xs) (value : Nat) {node : Option Word}
    (hnode : ∀ a, node = some a → a ≠ 0 ∧ free.heap a = none) :
    ∃ rc free', linkedListQueuePush free value (node.map fun a => (a, ⟨0, 0, 0⟩)) = .ok (rc, free') ∧
      Holding free' (Fifo.push xs value node.isSome).2 ∧
      ∀ a, free.heap a = none → node ≠ some a → free'.heap a = none := by
  by_cases hv : value = 0
  · refine ⟨-1, free, by simp only [linkedListQueuePush, if_pos hv], ?_, fun a ha _ => ha⟩
    rwa [Fifo.push, if_pos (.inl hv)]
  cases node with
  | none =>
    refine ⟨-1, free, by simp only [linkedListQueuePush, if_neg hv, Option.map_none], ?_, fun a ha _ => ha⟩
    rwa [Fifo.push, if_pos (.inr rfl)]
  | some a =>
    obtain ⟨ns, hns, rfl⟩ := h
    obtain ⟨ha, hfree⟩ := hnode a rfl
    obtain ⟨free', ns', hpush, hns', hvals, haddrs⟩ := linkedListQueuePush_doublyLinked hns hv ha hfree
    refine ⟨0, free', hpush, ⟨ns', hns', ?_⟩, fun a' ha' hne => ?_⟩
    · rw [hvals, Fifo.push, if_neg (by simp [hv])]
    · by_contra hlive
      have hmem := (hns'.live a').mp hlive
      rw [haddrs, List.mem_append, List.mem_singleton] at hmem
      rcases hmem with hold | rfl
      · exact (hns.live a').mpr hold ha'
      · exact hne rfl

theorem linkedGrowTurn_alike (h : MovingAlike s t) (ht : growTurn env.env t = .ok t') :
    ∃ s', linkedGrowTurn env s = .ok s' ∧ MovingAlike s' t' := by
  obtain ⟨hpage, htable, hinside, hfree⟩ := h
  obtain ⟨free', hpop, hfree'⟩ := pop_holding hfree
  obtain ⟨w, hw, ht⟩ := bind_eq_ok.mp ht
  cases ht
  refine ⟨⟨t.page + 1, w.after, free', t.inside && w.inside⟩, ?_, ⟨rfl, rfl, rfl, hfree'⟩⟩
  rw [linkedGrowTurn, hpop, ok_bind, hpage, htable, hinside]
  simp only
  rw [show env.realloc (t.page + 1) = env.env.realloc (t.page + 1) from rfl, hw, ok_bind]

/-- **A turn that shrinks**, which allocates the node of its page. -/
theorem linkedShrinkTurn_alike (h : MovingAlike s t) (hown : OwnBlocks env.node q s.page s.free) (hq : q < s.page)
    (ht : shrinkTurn env.env t = .ok t') :
    ∃ s', linkedShrinkTurn env s = .ok s' ∧ MovingAlike s' t' ∧ OwnBlocks env.node q s'.page s'.free := by
  obtain ⟨hpage, htable, hinside, hfree⟩ := h
  cases ht
  obtain ⟨rc, free', hpush, hfree', hkept⟩ := push_holding hfree (pfnForPage t.table t.page env.beyond).val
    (fun a ha => hown.fresh s.page a hq (Nat.le_refl _) ha)
  refine ⟨⟨s.page - 1, _, free', _⟩, ?_, ⟨congrArg (· - 1) hpage, rfl, rfl, ?_⟩, fun v a hv hle ha => ?_,
    fun v w a hv hvw hle => hown.apart v w a hv hvw (by simp only at hle; omega)⟩
  · simp only [linkedShrinkTurn, htable, hinside, ← hpage] at hpush ⊢
    simp only [hpush, ok_bind]
    rfl
  · rw [hpage] at hfree'
    exact hfree'
  · -- the block of a page further down was not handed out for this one
    simp only at hle
    obtain ⟨ha0, hfresh⟩ := hown.fresh v a hv (by omega) ha
    exact ⟨ha0, hkept a hfresh (hown.apart v s.page a hv (by omega) (Nat.le_refl _) ha)⟩

end Turns

section Calls
variable {env : LinkedEnv} {addr : Word} {l : LinkedKernel} {k : Kernel}

theorem linkedMoveLoop_alike {table : Pagetable} {free : LinkedListQueue Nat} {xs : List Nat} {p q : Nat} {t : Moving}
    (hfree : Holding free xs) (hown : OwnBlocks env.node q p free) (ht : moveLoop env.env p q table xs = .ok t) :
    ∃ s, linkedMoveLoop env p q table free = .ok s ∧ MovingAlike s t := by
  have hcond : ∀ s t, MovingAlike s t → decide (s.page ≠ q) = decide (t.page ≠ q) := fun s t h => by rw [h.page]
  have hstart : MovingAlike ⟨p, table, free, true⟩ ⟨p, table, xs, true⟩ := ⟨rfl, rfl, rfl, hfree⟩
  unfold moveLoop at ht
  unfold linkedMoveLoop
  split at ht
  · next hpq =>
    rw [if_pos hpq]
    exact whileLoop_simulates _ _ _ _ MovingAlike hcond (fun s t t' h _ ht => linkedGrowTurn_alike h ht) _ _ _ _
      hstart ht
  · next hpq =>
    rw [if_neg hpq]
    obtain ⟨s, hs, h, -⟩ := whileLoop_simulates _ _ _ _
      (fun s t => MovingAlike s t ∧ OwnBlocks env.node q s.page s.free ∧ q ≤ s.page) (fun s t h => hcond s t h.1)
      (fun s t t' ⟨h, hown, hle⟩ hc ht => by
        have hne : t.page ≠ q := of_decide_eq_true hc
        have hpage := h.page
        obtain ⟨s', hs', h', hown'⟩ := linkedShrinkTurn_alike h hown (by omega) ht
        have hpage' := h'.page
        cases ht
        exact ⟨s', hs', h', hown', by simp only at hpage'; omega⟩)
      _ _ _ _ ⟨hstart, hown, Nat.le_of_not_lt hpq⟩ ht
    exact ⟨s, hs, h⟩

/-- A kernel over its nodes and one over the list of their frames, alike but for these, and ready for calls. -/
structure Pooled (l : LinkedKernel) (k : Kernel) : Prop where
  alike : ∃ xs, Holding l.freeMemory xs ∧ k = { l.base with freeMemory := xs }
  enabled : k.virtualMemoryEnabled = true
  pos : 0 < k.pagetableRegion0.numPages

/-- **One call** returns the same over the nodes as over the list, and leaves both alike. -/
theorem linkedKernelBrk_pooled (h : Pooled l k)
    (hown : OwnBlocks env.node (pageOf addr) (pageOf k.kernelBreak) l.freeMemory) :
    ∃ r r', linkedKernelBrk env addr l = .ok r ∧ setKernelBrk env.env addr k = .ok r' ∧ r.val = r'.val ∧
      r.inside = r'.inside ∧ Pooled r.after r'.after := by
  obtain ⟨r', hr', henabled, hpos⟩ := setKernelBrk_total env.env addr h.enabled h.pos
  obtain ⟨⟨xs, hfree, rfl⟩, hv, h0⟩ := h
  suffices hrun : ∃ r, linkedKernelBrk env addr l = .ok r ∧ r.val = r'.val ∧ r.inside = r'.inside ∧
      ∃ xs, Holding r.after.freeMemory xs ∧ r'.after = { r.after.base with freeMemory := xs } by
    obtain ⟨r, hr, hval, hin, halike⟩ := hrun
    exact ⟨r, r', hr, hr', hval, hin, halike, henabled, hpos⟩
  unfold linkedKernelBrk
  unfold setKernelBrk at hr'
  simp only at hv hown hr'
  have hon : ¬ l.base.virtualMemoryEnabled = false := by simp [hv]
  rw [if_neg hon] at hr' ⊢
  split at hr'
  · next hsame =>
    cases hr'
    rw [if_pos hsame]
    exact ⟨_, rfl, rfl, rfl, xs, hfree, rfl⟩
  · next hsame =>
    obtain ⟨moved, hmoved, hr'⟩ := bind_eq_ok.mp hr'
    obtain ⟨valid, hvalid, hr'⟩ := bind_eq_ok.mp hr'
    obtain ⟨s, hs, halike⟩ := linkedMoveLoop_alike hfree hown hmoved
    simp only [if_neg hsame, hs, ok_bind, halike.table, halike.inside, hvalid]
    split at hr'
    · next hret =>
      cases hr'
      rw [if_pos hret]
      exact ⟨_, rfl, rfl, rfl, moved.free, halike.free, rfl⟩
    · next hret =>
      obtain ⟨below, hbelow, hr'⟩ := bind_eq_ok.mp hr'
      cases hr'
      rw [if_neg hret, hbelow, ok_bind]
      exact ⟨_, rfl, rfl, rfl, moved.free, halike.free, rfl⟩

/-- **The pool in its nodes.** Over every run of calls in which `malloc` hands out blocks of their own, the calls over
the nodes return what the calls over the list do, with the same accesses; after it the two kernels differ only in how
they keep their frames, and the nodes are linked both ways and hold those of the list, in order. -/
theorem linked_pool_run (h : Pooled l k) (ops : List (LinkedEnv × Word))
    (hown : Machine.Guarded linkedBrkMachine listBrkMachine
      (fun l k op => OwnBlocks op.1.node (pageOf op.2) (pageOf k.kernelBreak) l.freeMemory) l k ops) :
    ∃ rs l' k', linkedBrkMachine.run l ops = .ok (rs, l') ∧ listBrkMachine.run k ops = .ok (rs, k') ∧ Pooled l' k' := by
  refine Machine.Guarded.run _ _ Pooled (fun l k op h hown => ?_) hown h
  obtain ⟨r, r', hr, hr', hval, hin, hpooled⟩ := linkedKernelBrk_pooled h hown
  refine ⟨(r.val, r.inside), r.after, r'.after, ?_, ?_, hpooled⟩
  · simp only [linkedBrkMachine, hr, ok_bind]
  · simp only [listBrkMachine, brkMachine, hr', ok_bind, hval, hin]

theorem brkMachine_run_of_heap {ops : List (Env × Word)} {k k' : Kernel} {rs : List BrkReport}
    (h : heapMachine.run k ops = .ok (rs, k')) :
    brkMachine.run k ops = .ok (rs.map fun r => (r.rc, r.inside), k') := by
  induction ops generalizing k rs with
  | nil =>
    cases h
    rfl
  | cons op ops ih =>
    obtain ⟨r, t, rs', hs, hrest, rfl⟩ := (heapMachine.run_cons_ok).mp h
    obtain ⟨r', hr', hs⟩ := bind_eq_ok.mp hs
    cases hs
    exact (brkMachine.run_cons_ok).mpr ⟨_, _, _, by simp only [brkMachine, hr', ok_bind], ih hrest, rfl⟩

theorem listBrkMachine_run (ops : List (LinkedEnv × Word)) (k : Kernel) :
    listBrkMachine.run k ops = brkMachine.run k (ops.map fun op => (op.1.env, op.2)) := by
  induction ops generalizing k with
  | nil => rfl
  | cons op ops ih =>
    rw [List.map_cons, Machine.run, Machine.run, listBrkMachine]
    exact congrArg (brkMachine.step k (op.1.env, op.2) >>= ·) (funext fun r => by rw [← ih]; rfl)

/-- **The ledger over the nodes.** In the runs of `frames_accounted`, over nodes with blocks of their own, every call
returns 0 and stays inside the table; after it the frames of the pages, those in the nodes and those whose nodes could
not be allocated are a permutation of the frames of the pages and in the nodes at the start. -/
theorem linked_frames_accounted {b₀ : Nat} (h : Pooled l k) (h₀ : HeapState b₀ k) (h0 : 0 ∉ k.freeMemory)
    (ops : List (LinkedEnv × Word)) (hops : ∀ op ∈ ops, b₀ ≤ pageOf op.2 ∧ pageOf op.2 < maxPtLen)
    (hown : Machine.Guarded linkedBrkMachine listBrkMachine
      (fun l k op => OwnBlocks op.1.node (pageOf op.2) (pageOf k.kernelBreak) l.freeMemory) l k ops) :
    ∃ rs l' reports k' xs, linkedBrkMachine.run l ops = .ok (rs, l') ∧ (∀ r ∈ rs, r = (0, true)) ∧
      heapMachine.run k (ops.map fun op => (op.1.env, op.2)) = .ok (reports, k') ∧ Holding l'.freeMemory xs ∧
      ((l'.base.frames b₀ (pageOf l'.base.kernelBreak)).filter (· ≠ 0) ++ xs ++
          (reports.map BrkReport.lost).flatten).Perm
        ((l.base.frames b₀ (pageOf l.base.kernelBreak)).filter (· ≠ 0) ++ k.freeMemory) := by
  obtain ⟨reports, k₁, hheap, -, hreports, hpool⟩ := heap_run h₀ (ops.map fun op => (op.1.env, op.2))
    (fun op hop => by
      obtain ⟨o, ho, rfl⟩ := List.mem_map.mp hop
      exact hops o ho)
  obtain ⟨rs, l', k', hrun, hlist, hpooled⟩ := linked_pool_run h ops hown
  rw [listBrkMachine_run, brkMachine_run_of_heap hheap] at hlist
  cases hlist
  have hperm := Pool.ledger h0 hpool
  obtain ⟨⟨xs, hfree, hk⟩, -, -⟩ := hpooled
  obtain ⟨⟨xs₀, -, rfl⟩, -, -⟩ := h
  subst hk
  refine ⟨_, l', reports, _, xs, hrun, fun r hr => ?_, hheap, hfree, hperm⟩
  obtain ⟨r', hr', rfl⟩ := List.mem_map.mp hr
  rw [(hreports r' hr').1, (hreports r' hr').2]

/-- A kernel with the frames 2, 3 and 4 on its pages above the first two, and the frame 5 in a node at 16. -/
def pooledKernel : LinkedKernel :=
  ⟨bootKernel 0x8010 [], ⟨16, 16, Function.update (fun _ => none) 16 (some ⟨0, 0, 5⟩)⟩⟩

/-- An outside with blocks at 32 and 48 for the nodes of the pages 3 and 2. -/
def nodesEnv : LinkedEnv := ⟨fun _ => none, fun v => if v = 3 then some 32 else if v = 2 then some 48 else none, .empty⟩

def bareEnv : LinkedEnv := ⟨fun _ => none, fun _ => none, .empty⟩

theorem pooled_pooledKernel : Pooled pooledKernel (bootKernel 0x8010 [5]) :=
  ⟨⟨[5], ⟨[(16, ⟨0, 0, 5⟩)], (TwoWay.empty _ _ _).single _ (by decide) rfl rfl, rfl⟩, rfl⟩, rfl, by
    rw [numPages_bootKernel]
    decide⟩

theorem heapState_pooledKernel : HeapState 1 (bootKernel 0x8010 [5]) := by
  refine ⟨rfl, numPages_bootKernel _ _, by decide, by decide, fun v h1 h2 => ?_, by decide⟩
  have hpage : pageOf (bootKernel 0x8010 [5]).kernelBreak = 4 := rfl
  rw [entry_bootKernel _ _ h2, hpage]
  split
  · next hv =>
    have hlt : v * 8192 < 0x8010 := hv
    exact iff_of_true rfl (by omega)
  · next hv =>
    have hge : ¬ v * 8192 < 0x8010 := hv
    exact iff_of_false (by simp [Pte.empty]) (by omega)

/-- Back to page 1, where the frame 4 is lost, and on to page 6. -/
theorem linked_frames_accounted_back : ∃ rs l' reports k' xs,
    linkedBrkMachine.run pooledKernel [(nodesEnv, 0x2000), (bareEnv, 0xC000)] = .ok (rs, l') ∧
      (∀ r ∈ rs, r = (0, true)) ∧
      heapMachine.run (bootKernel 0x8010 [5])
          ([(nodesEnv, 0x2000), (bareEnv, 0xC000)].map fun op => (op.1.env, op.2)) =
        .ok (reports, k') ∧
      Holding l'.freeMemory xs ∧
      ((l'.base.frames 1 (pageOf l'.base.kernelBreak)).filter (· ≠ 0) ++ xs ++
          (reports.map BrkReport.lost).flatten).Perm
        ((pooledKernel.base.frames 1 (pageOf pooledKernel.base.kernelBreak)).filter (· ≠ 0) ++
          (bootKernel 0x8010 [5]).freeMemory) := by
  have hbare : ∀ q p free, OwnBlocks bareEnv.node q p free := fun q p free =>
    ⟨fun v a _ _ ha => (by cases ha), fun v w a _ _ _ ha => (by cases ha)⟩
  refine linked_frames_accounted pooled_pooledKernel heapState_pooledKernel (by decide) _ (by decide)
    ⟨⟨fun v a _ _ ha => ?_, fun v w a _ hvw _ ha hw => ?_⟩,
      fun _ _ _ _ _ _ => ⟨hbare _ _ _, fun _ _ _ _ _ _ => trivial⟩⟩
  · simp only [nodesEnv] at ha
    split_ifs at ha <;> cases ha <;> exact ⟨by decide, rfl⟩
  · simp only [nodesEnv] at ha hw
    split_ifs at ha <;> cases ha <;> split_ifs at hw <;> first | omega | cases hw

end Calls

end MooseOS
