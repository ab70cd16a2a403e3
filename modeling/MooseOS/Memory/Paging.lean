import MooseOS.Memory.Registers

/-!
# The frames that `initPaging` frees

The first frame is read once, and every allocation after that may raise the break.

* `PagingEnv.pushed` : the frames that go into the list of free frames;
* `PagingEnv.later` : the allocations made after the first frame was read;
* `initPaging_spec` : the free frames and the break when `initPaging` returns;
* `freePool_iff` : no free frame is below the break if and only if no later allocation raises it past a pushed frame.
-/

namespace MooseOS
open Prog

/-! ## Raising the break -/

def raised (brk : Word) (as : List Alloc) : Word := as.foldl (fun b a => a.raise.getD b) brk

/-- Every allocation that raises the break raises it to a higher address, or keeps it. -/
def Rising : Word → List Alloc → Prop
  | _, [] => True
  | brk, a :: as => brk.toNat ≤ (a.raise.getD brk).toNat ∧ Rising (a.raise.getD brk) as

instance decidableRising : ∀ brk as, Decidable (Rising brk as)
  | _, [] => inferInstanceAs (Decidable True)
  | brk, a :: as =>
    have := decidableRising (a.raise.getD brk) as
    inferInstanceAs (Decidable (brk.toNat ≤ (a.raise.getD brk).toNat ∧ Rising (a.raise.getD brk) as))

@[simp] theorem raised_cons (brk : Word) (a : Alloc) (as : List Alloc) :
    raised brk (a :: as) = raised (a.raise.getD brk) as := rfl

theorem raised_append (brk : Word) (as bs : List Alloc) : raised brk (as ++ bs) = raised (raised brk as) bs :=
  List.foldl_append

theorem le_raised {as : List Alloc} : ∀ {brk : Word}, Rising brk as → brk.toNat ≤ (raised brk as).toNat := by
  induction as with
  | nil => exact fun _ => Nat.le_refl _
  | cons a as ih => exact fun h => Nat.le_trans h.1 (ih h.2)

/-- Where the break only rises, no allocation raised it further than it is in the end. -/
theorem raise_le_raised {as : List Alloc} : ∀ {brk : Word}, Rising brk as → ∀ a ∈ as, ∀ b, a.raise = some b →
    b.toNat ≤ (raised brk as).toNat := by
  induction as with
  | nil => exact fun _ a ha => by cases ha
  | cons c as ih =>
    intro brk h a ha b hb
    rcases List.mem_cons.mp ha with rfl | ha
    · have hle := le_raised h.2
      rw [raised_cons]
      rw [hb] at hle ⊢
      exact hle
    · exact ih h.2 a ha b hb

theorem raised_mem (as : List Alloc) : ∀ brk, raised brk as = brk ∨ ∃ a ∈ as, a.raise = some (raised brk as) := by
  induction as with
  | nil => exact fun _ => .inl rfl
  | cons a as ih =>
    intro brk
    rcases ih (a.raise.getD brk) with h | ⟨c, hc, hb⟩
    · rw [raised_cons, h]
      cases ha : a.raise with
      | none => exact .inl rfl
      | some b => exact .inr ⟨a, by simp, ha⟩
    · exact .inr ⟨c, by simp [hc], hb⟩

theorem allocate_eq (env : Env) (a : Alloc) {k : Kernel} (hv : k.virtualMemoryEnabled = false ∨ a.raise = none) :
    allocate env a k = .ok { k with kernelBreak := raised k.kernelBreak [a] } := by
  cases ha : a.raise with
  | none => simp [allocate, raised, ha]
  | some addr =>
    have hoff : k.virtualMemoryEnabled = false := hv.resolve_right (by simp [ha])
    simp [allocate, raised, ha, setKernelBrk, hoff]

/-! ## The frames -/

/-- `(unsigned int)((int)brk / PAGESIZE)`. -/
def firstFrame (brk : Word) : Nat := (BitVec.ofInt 32 (brk.toInt.tdiv pageSize)).toNat

namespace PagingEnv
variable (e : PagingEnv) (pmemSize : Word) (k : Kernel)

def startBreak : Word := raised k.kernelBreak [e.queue]

/-- The frames that the loop goes over, from the one of the break on, without `NULL`. -/
def offered : List Nat :=
  (List.range' (firstFrame (e.startBreak k)) (pmemSize.toNat / pageSize - firstFrame (e.startBreak k))).filter (· ≠ 0)

/-- Those whose node could be allocated. -/
def pushed : List Nat := (e.offered pmemSize k).filter fun f => (e.node f).ok

structure Steady : Prop where
  queue : e.queue.raise = none
  node : ∀ f, (e.node f).raise = none
  region0 : e.region0.calloc.raise = none ∧ e.region0.malloc.raise = none
  region1 : e.region1.calloc.raise = none ∧ e.region1.malloc.raise = none

structure Served : Prop where
  queue : e.queue.ok = true
  node : ∀ f, (e.node f).ok = true
  region0 : e.region0.calloc.ok = true ∧ e.region0.malloc.ok = true
  region1 : e.region1.calloc.ok = true ∧ e.region1.malloc.ok = true

def later : List Alloc := (e.offered pmemSize k).map e.node ++
  [e.region0.calloc, e.region0.malloc, e.region1.calloc, e.region1.malloc]

end PagingEnv

def Kernel.paged (k : Kernel) (e : PagingEnv) (fs : List Nat) : Kernel :=
  { k with
    kernelBreak := raised k.kernelBreak ((fs.filter (· ≠ 0)).map e.node)
    freeMemory := k.freeMemory ++ (fs.filter (· ≠ 0)).filter fun f => (e.node f).ok }

section Loop
variable {e : PagingEnv} {k : Kernel}

theorem paged_cons (f : Nat) (fs : List Nat) : k.paged e (f :: fs) = (k.paged e [f]).paged e fs := by
  unfold Kernel.paged
  simp only [List.append_assoc, ← raised_append, ← List.map_append, ← List.filter_append,
    List.singleton_append]

theorem toNat_ofInt_natCast {f : Nat} (hf : f < 2 ^ 32) : (BitVec.ofInt 32 (f : Int)).toNat = f := by
  simp [BitVec.toNat_ofNat]
  omega

theorem pagingTurn_spec {f : Nat} (hv : k.virtualMemoryEnabled = false ∨ (e.node f).raise = none) (hf : f < 2 ^ 32) :
    pagingTurn e ((f : Int), k) = .ok ((f + 1 : Nat), k.paged e [f]) := by
  unfold pagingTurn
  simp only [toNat_ofInt_natCast hf]
  by_cases h0 : f = 0
  · simp [h0, Kernel.paged, Fifo.push, raised]
  · simp only [if_neg h0, allocate_eq e.env (e.node f) hv, ok_bind]
    cases hok : (e.node f).ok <;> simp [h0, Kernel.paged, Fifo.push, hok]

theorem pagingLoop_spec (e : PagingEnv) (pmemSize : Word) : ∀ (n f fuel : Nat) (k : Kernel),
    f + n = pmemSize.toNat / pageSize → n < fuel →
    (k.virtualMemoryEnabled = false ∨ ∀ f, (e.node f).raise = none) →
    whileLoop (fun s : Int × Kernel => decide ((BitVec.ofInt 32 s.1).toNat < pmemSize.toNat / pageSize))
      (pagingTurn e) fuel ((f : Int), k) = .ok (((f + n : Nat) : Int), k.paged e (List.range' f n)) := by
  have hmem : pmemSize.toNat / pageSize < 2 ^ 32 := Nat.lt_of_le_of_lt (Nat.div_le_self _ _) pmemSize.isLt
  intro n
  induction n with
  | zero =>
    intro f fuel k hfn hfuel hv
    rw [whileLoop_done _ _ (by rw [toNat_ofInt_natCast (by omega)]; exact decide_eq_false (by omega)) (by omega)]
    simp [Kernel.paged, raised]
  | succ n ih =>
    intro f fuel k hfn hfuel hv
    obtain ⟨fuel, rfl⟩ : ∃ m, fuel = m + 1 := ⟨fuel - 1, by omega⟩
    rw [whileLoop_turn _ _ (by rw [toNat_ofInt_natCast (by omega)]; exact decide_eq_true (by omega))
      (pagingTurn_spec (hv.imp id fun h => h f) (by omega)), ih (f + 1) fuel (k.paged e [f]) (by omega) (by omega) hv,
      ← paged_cons, ← List.range'_succ, show f + 1 + n = f + (n + 1) by omega]

/-- `(int)brk / PAGESIZE` rounds towards 0. -/
theorem tdiv_cases (brk : Word) :
    (0 ≤ brk.toInt ∧ brk.toInt.tdiv (8192 : Nat) = brk.toInt / 8192) ∨
    (brk.toInt < 0 ∧ brk.toInt.tdiv (8192 : Nat) = -((-brk.toInt) / 8192)) := by
  rcases lt_or_ge brk.toInt 0 with hneg | hpos
  · refine .inr ⟨hneg, ?_⟩
    rw [← neg_neg brk.toInt, Int.neg_tdiv, Int.tdiv_eq_ediv_of_nonneg (by omega), neg_neg]
    rfl
  · exact .inl ⟨hpos, Int.tdiv_eq_ediv_of_nonneg hpos⟩

theorem firstFrame_eq {brk : Word} (h : firstFrame brk < 2 ^ 31) :
    brk.toInt.tdiv pageSize = (firstFrame brk : Int) := by
  have hlo := BitVec.le_toInt brk
  have hhi := BitVec.toInt_lt (x := brk)
  simp only [firstFrame, pageSize, BitVec.toNat_ofInt] at h ⊢
  have := tdiv_cases brk
  omega

theorem pagingLoop_first (e : PagingEnv) (pmemSize brk : Word)
    (hv : k.virtualMemoryEnabled = false ∨ ∀ f, (e.node f).raise = none) :
    ∃ z, pagingLoop e pmemSize (brk.toInt.tdiv pageSize, k) = .ok (z, k.paged e
      (List.range' (firstFrame brk) (pmemSize.toNat / pageSize - firstFrame brk))) := by
  have hmem : pmemSize.toNat / pageSize < 2 ^ 19 := by
    have := pmemSize.isLt
    simp only [pageSize]
    omega
  rcases Nat.lt_or_ge (firstFrame brk) (pmemSize.toNat / pageSize) with hlt | hge
  · have hrun := pagingLoop_spec e pmemSize (pmemSize.toNat / pageSize - firstFrame brk) _
      (pmemSize.toNat / pageSize + 1) k (Nat.add_sub_cancel' (Nat.le_of_lt hlt))
      (Nat.lt_succ_of_le (Nat.sub_le _ _)) hv
    rw [← firstFrame_eq (by omega)] at hrun
    exact ⟨_, hrun⟩
  · refine ⟨brk.toInt.tdiv pageSize, ?_⟩
    rw [pagingLoop, whileLoop_done _ _ (by exact decide_eq_false (Nat.not_lt.mpr hge)) (Nat.succ_pos _),
      Nat.sub_eq_zero_of_le hge]
    simp [Kernel.paged, raised]

end Loop

/-! ## `initPaging` -/

theorem createTable_spec (env : Env) (a : TableAlloc) {k : Kernel}
    (hv : k.virtualMemoryEnabled = false ∨ a.calloc.raise = none ∧ a.malloc.raise = none) :
    ∃ pt brk, createTable env a k = .ok (pt, { k with kernelBreak := brk }) ∧
      (pt ≠ none → brk = raised k.kernelBreak [a.calloc, a.malloc]) ∧
      (a.calloc.ok = true → a.malloc.ok = true → pt ≠ none) := by
  unfold createTable
  simp only [allocate_eq env a.calloc (hv.imp id And.left), ok_bind]
  cases a.calloc.ok with
  | false => exact ⟨none, _, rfl, fun h => absurd rfl h, fun h => absurd h (by decide)⟩
  | true =>
    simp only [if_true, allocate_eq env a.malloc (k := { k with kernelBreak := raised k.kernelBreak [a.calloc] })
      (hv.imp id And.right), ok_bind]
    cases a.malloc.ok with
    | false => exact ⟨none, _, rfl, fun h => absurd rfl h, fun _ h => absurd h (by decide)⟩
    | true => exact ⟨_, _, rfl, fun _ => rfl, fun _ _ => Option.some_ne_none _⟩

/-- **What `initPaging` leaves**: the pushed frames are free, the break is where the allocations have put it, and the
registers match. -/
theorem initPaging_spec (e : PagingEnv) (pmemSize : Word) {k : Kernel}
    (hv : k.virtualMemoryEnabled = false ∨ e.Steady) :
    ∃ o, initPaging e pmemSize k = .ok o ∧ (e.Served → o ≠ none) ∧ ∀ k', o = some k' →
      k'.freeMemory = e.pushed pmemSize k ∧ k'.kernelBreak = raised (e.startBreak k) (e.later pmemSize k) ∧
      Matches k' := by
  unfold initPaging
  simp only [allocate_eq e.env e.queue (hv.imp id PagingEnv.Steady.queue), ok_bind]
  cases hq : e.queue.ok with
  | false => exact ⟨none, rfl, fun h => by simp [h.queue] at hq, fun k' h => by cases h⟩
  | true =>
    obtain ⟨z, hloop⟩ := pagingLoop_first e pmemSize (e.startBreak k)
      (k := { k with kernelBreak := e.startBreak k, freeMemory := [] }) (hv.imp id PagingEnv.Steady.node)
    have hstart : raised k.kernelBreak [e.queue] = e.startBreak k := rfl
    simp only [Bool.true_eq_false, if_false, hstart, hloop, ok_bind]
    generalize hk₁ : Kernel.paged _ e _ = k₁
    have hv₁ : k₁.virtualMemoryEnabled = false ∨ e.Steady := by rw [← hk₁]; exact hv
    have hfree : k₁.freeMemory = e.pushed pmemSize k := by rw [← hk₁]; rfl
    have hbrk : k₁.kernelBreak = raised (e.startBreak k) ((e.offered pmemSize k).map e.node) := by rw [← hk₁]; rfl
    obtain ⟨pt0, brk0, hc0, hb0, hs0⟩ := createTable_spec e.env e.region0 (hv₁.imp id PagingEnv.Steady.region0)
    obtain ⟨pt1, brk1, hc1, hb1, hs1⟩ := createTable_spec e.env e.region1 (k := { k₁ with kernelBreak := brk0 })
      (hv₁.imp id PagingEnv.Steady.region1)
    simp only [hc0, hc1, ok_bind]
    cases pt0 with
    | none => exact ⟨none, rfl, fun h => absurd rfl (hs0 h.region0.1 h.region0.2), fun k' h => by cases h⟩
    | some pt0 =>
      cases pt1 with
      | none => exact ⟨none, rfl, fun h => absurd rfl (hs1 h.region1.1 h.region1.2), fun k' h => by cases h⟩
      | some pt1 =>
        refine ⟨_, rfl, fun _ => Option.some_ne_none _, ?_⟩
        intro k' h
        cases h
        refine ⟨hfree, ?_, rfl, rfl⟩
        simp only [hb1 (by simp), hb0 (by simp), hbrk, PagingEnv.later, ← raised_append]
        simp

/-- With an aligned break, the pushed frames start at the page of the break. -/
theorem le_pushed {e : PagingEnv} {pmemSize : Word} {k : Kernel} (halign : (e.startBreak k).toNat % pageSize = 0)
    {f : Nat} (hf : f ∈ e.pushed pmemSize k) : (e.startBreak k).toNat / pageSize ≤ f := by
  simp only [PagingEnv.pushed, PagingEnv.offered, List.mem_filter, List.mem_range'_1] at hf
  obtain ⟨⟨⟨hge, hlt⟩, -⟩, -⟩ := hf
  have hmem := pmemSize.isLt
  simp only [pageSize] at halign hlt ⊢
  have hfirst : ((e.startBreak k).toInt.tdiv (8192 : Nat)) = (firstFrame (e.startBreak k) : Int) :=
    firstFrame_eq (by omega)
  have hint := BitVec.toInt_eq_toNat_cond (e.startBreak k)
  have := tdiv_cases (e.startBreak k)
  have := (e.startBreak k).isLt
  split at hint <;> omega

/-- **The free frames stay clear of the kernel exactly while the break stays below them.** When `initPaging` returns,
no free frame is below the break if and only if no allocation made after the first frame was read raises the break
past a frame that is pushed. -/
theorem freePool_iff (e : PagingEnv) (pmemSize : Word) {k : Kernel} (hv : k.virtualMemoryEnabled = false)
    (halign : (e.startBreak k).toNat % pageSize = 0) (hrise : Rising (e.startBreak k) (e.later pmemSize k)) :
    ∃ o, initPaging e pmemSize k = .ok o ∧ ∀ k', o = some k' →
      ((∀ f ∈ k'.freeMemory, k'.kernelBreak.toNat / pageSize ≤ f) ↔
        ∀ f ∈ e.pushed pmemSize k, ∀ a ∈ e.later pmemSize k, ∀ b, a.raise = some b → b.toNat / pageSize ≤ f) := by
  obtain ⟨o, ho, -, hspec⟩ := initPaging_spec e pmemSize (.inl hv)
  refine ⟨o, ho, fun k' hk' => ?_⟩
  obtain ⟨hfree, hbrk, -⟩ := hspec k' hk'
  rw [hfree, hbrk]
  constructor
  · intro h f hf a ha b hb
    exact Nat.le_trans (Nat.div_le_div_right (raise_le_raised hrise a ha b hb)) (h f hf)
  · intro h f hf
    rcases raised_mem (e.later pmemSize k) (e.startBreak k) with he | ⟨a, ha, hb⟩
    · rw [he]
      exact le_pushed halign hf
    · exact h f hf a ha _ hb

/-- A kernel before virtual memory, with the break on page 2. -/
def coldKernel : Kernel := { bootKernel 0x4000 [] with virtualMemoryEnabled := false }

/-- An outside where every allocation succeeds, and the node of frame 3 takes the kernel heap to the next page. -/
def heapEnv : PagingEnv where
  env := calmEnv
  queue := ⟨none, true⟩
  node f := ⟨if f = 3 then some 0x6000 else none, true⟩
  region0 := ⟨⟨none, true⟩, ⟨none, true⟩, 0x5000⟩
  region1 := ⟨⟨none, true⟩, ⟨none, true⟩, 0x5010⟩

theorem freePool_iff_heap : ∃ o, initPaging heapEnv 0x10000 coldKernel = .ok o ∧ ∀ k', o = some k' →
    ((∀ f ∈ k'.freeMemory, k'.kernelBreak.toNat / pageSize ≤ f) ↔
      ∀ f ∈ heapEnv.pushed 0x10000 coldKernel, ∀ a ∈ heapEnv.later 0x10000 coldKernel, ∀ b, a.raise = some b →
        b.toNat / pageSize ≤ f) :=
  freePool_iff heapEnv 0x10000 rfl (by decide) (by decide)

/-- Frame 2 is pushed first, and then belongs to the page that the kernel heap has grown over. -/
theorem freePool_fails_heap : (heapEnv.startBreak coldKernel).toNat % pageSize = 0 ∧
    Rising (heapEnv.startBreak coldKernel) (heapEnv.later 0x10000 coldKernel) ∧
      ∃ k', initPaging heapEnv 0x10000 coldKernel = .ok (some k') ∧ k'.freeMemory = [2, 3, 4, 5, 6, 7] ∧
        k'.kernelBreak = 0x6000 ∧ ¬ ∀ f ∈ k'.freeMemory, k'.kernelBreak.toNat / pageSize ≤ f := by
  refine ⟨by decide, by decide, ?_⟩
  have hrun : (initPaging heapEnv 0x10000 coldKernel).map (·.map fun k => (k.freeMemory, k.kernelBreak)) =
      .ok (some ([2, 3, 4, 5, 6, 7], 0x6000)) := by decide
  obtain ⟨o, ho, -⟩ := initPaging_spec heapEnv 0x10000 (k := coldKernel) (.inl rfl)
  rw [ho] at hrun
  cases o with
  | none => cases hrun
  | some k' =>
    simp only [Except.map, Option.map_some, Except.ok.injEq, Option.some.injEq, Prod.mk.injEq] at hrun
    refine ⟨k', ho, hrun.1, hrun.2, ?_⟩
    rw [hrun.1, hrun.2]
    decide

end MooseOS
