import MooseOS.Memory.Expand

/-!
# Where the calls store

A store past the table changes memory of something else. `pagetableWrite` and `pagetableGetEntry` let the first index
past the table through, and `pagetableRemove` every one.

* `brkStores`, `bootStores` : the stores of `setKernelBrk` and of `initVirtualMemory` into the table of region 0;
* `near_brkStores_iff` : those of `setKernelBrk` stop at the first index past the table if and only if it does not
  shrink from a page after that;
* `near_bootStores` : those of `initVirtualMemory` always do.
-/

namespace MooseOS
open Prog

/-- A store into a table: its index, and the number of cells of the table then. -/
structure TableStore where
  index : Nat
  numPages : Nat
deriving DecidableEq

/-- It goes no further than the first index past the table. -/
def TableStore.Near (w : TableStore) : Prop := w.index ≤ w.numPages

/-! ## The stores of a turn -/

def writeStores (vpn : Nat) (w : Exec (Ran Pagetable Status)) : List TableStore :=
  match w with
  | .ok w => if w.val = .failed then [] else [⟨vpn, w.after.numPages⟩]
  | .error _ => []

def growStores (env : Env) (s : Moving) : List TableStore :=
  writeStores (s.page + 1) (pagetableWrite s.table (s.page + 1) (Fifo.pop s.free).1 (protRead ||| protWrite)
    (env.realloc (s.page + 1)))

/-- `pagetableRemove` stores without a test. -/
def shrinkStores (s : Moving) : List TableStore := [⟨s.page, s.table.numPages⟩]

/-- The valid bit of an entry that `pagetableGetEntry` has handed out. -/
def markStores (s : Marking) : List TableStore :=
  match pagetableGetEntry s.table s.page with
  | none => []
  | some i => [⟨i, s.table.numPages⟩]

def rangeStores (env : Env) (prot : Nat) (s : Ranging) : List TableStore :=
  writeStores s.frame (pagetableWrite s.table s.frame s.frame prot (env.realloc s.frame))

/-! ## The stores of a call -/

def moveStores (env : Env) (p q : Nat) (table : Pagetable) (free : List Nat) : List TableStore :=
  (loopTurns (fun s : Moving => decide (s.page ≠ q)) (if p < q then growTurn env else shrinkTurn env) (p + q + 1)
    ⟨p, table, free, true⟩).flatMap (if p < q then growStores env else shrinkStores)

def validStores (q : Nat) (s : Marking) : List TableStore :=
  (loopTurns (fun s : Marking => !s.returned && decide (s.page ≤ q)) validTurn (q + 3) s).flatMap markStores

def invalidStores (b : Nat) (s : Marking) : List TableStore :=
  (loopTurns (fun s : Marking => decide (s.page < b)) invalidTurn (b + 1) s).flatMap markStores

/-- The stores of `setKernelBrk`, loop after loop. -/
def brkStores (env : Env) (addr : Word) (k : Kernel) : Exec (List TableStore) :=
  if k.virtualMemoryEnabled = false ∨ pageOf addr = pageOf k.kernelBreak then .ok []
  else do
    let moved ← moveLoop env (pageOf k.kernelBreak) (pageOf addr) k.pagetableRegion0 k.freeMemory
    let marking : Marking := ⟨vmem0Base >>> pageShift, moved.table, moved.inside, false⟩
    let valid ← validLoop (pageOf addr) marking
    .ok (moveStores env (pageOf k.kernelBreak) (pageOf addr) k.pagetableRegion0 k.freeMemory ++
      (validStores (pageOf addr) marking ++
        if valid.returned then [] else invalidStores (kernelStackLimit >>> pageShift) valid))

def initStores (env : Env) (pt : Pagetable) (start stop prot : Nat) : List TableStore :=
  (loopTurns (fun s : Ranging => !s.failed && decide (s.frame < stop)) (rangeTurn env prot) (stop + 1)
    ⟨start, pt, true, false, false⟩).flatMap (rangeStores env prot)

def bootStores (env : Env) (k : Kernel) : Exec (List TableStore) := do
  let textEnd := roundup (k.kernelDataStart.toNat / pageSize) pageSize
  let text ← initializePagetableRange env k.pagetableRegion0 pmemBase textEnd (protExec ||| protRead)
  let stores := initStores env k.pagetableRegion0 pmemBase textEnd (protExec ||| protRead)
  if text.val = .failed then .ok stores
  else
    let dataEnd := roundup (k.kernelBreak.toNat / pageSize) pageSize
    .ok (stores ++ initStores env text.after textEnd dataEnd (protRead ||| protWrite))

section Near
variable {env : Env} {table : Pagetable} {w : TableStore} {p q : Nat}

/-- `pagetableWrite` tests its page, and expands the table for it. -/
theorem near_writeStores (h0 : 0 < table.numPages) {vpn pfn prot : Nat} {realloc : Option Block}
    (hw : w ∈ writeStores vpn (pagetableWrite table vpn pfn prot realloc)) : w.Near := by
  obtain ⟨r, hr, hc⟩ := pagetableWrite_table h0 vpn pfn prot realloc
  rw [hr, writeStores] at hw
  split at hw
  · exact absurd hw List.not_mem_nil
  · next hval =>
    obtain rfl := List.mem_singleton.mp hw
    rcases hc with ⟨-, hn, -, hr⟩ | ⟨-, -, -, hle, -⟩
    · by_contra hgt
      rw [TableStore.Near, hn] at hgt
      exact hval (hr.trans (if_neg hgt))
    · exact hle

theorem near_markStores {s : Marking} (hw : w ∈ markStores s) : w.Near := by
  unfold markStores pagetableGetEntry at hw
  by_cases hgt : s.page > s.table.numPages
  · rw [if_pos hgt] at hw
    exact absurd hw List.not_mem_nil
  · rw [if_neg hgt] at hw
    obtain rfl := List.mem_singleton.mp hw
    exact Nat.le_of_not_lt hgt

theorem near_validStores {s : Marking} (hw : w ∈ validStores q s) : w.Near :=
  let ⟨_, _, hw⟩ := List.mem_flatMap.mp hw
  near_markStores hw

theorem near_invalidStores {s : Marking} (hw : w ∈ invalidStores q s) : w.Near :=
  let ⟨_, _, hw⟩ := List.mem_flatMap.mp hw
  near_markStores hw

theorem growTurn_pos {s t : Moving} (h0 : 0 < s.table.numPages) (ht : growTurn env s = .ok t) :
    0 < t.table.numPages := by
  obtain ⟨w, hw, hc⟩ := pagetableWrite_table h0 (s.page + 1) (Fifo.pop s.free).1 (protRead ||| protWrite)
    (env.realloc (s.page + 1))
  rw [growTurn, hw] at ht
  cases ht
  rcases hc with ⟨-, hn, -, -⟩ | ⟨-, -, hgt, -, -⟩
  · exact hn ▸ h0
  · exact Nat.zero_lt_of_lt hgt

theorem near_moveStores_grow (h0 : 0 < table.numPages) (hpq : p < q) {free : List Nat}
    (hw : w ∈ moveStores env p q table free) : w.Near := by
  rw [moveStores, if_pos hpq, if_pos hpq] at hw
  obtain ⟨s, hs, hw⟩ := List.mem_flatMap.mp hw
  have hpos := (mem_loopTurns (fun s : Moving => 0 < s.table.numPages) (fun s t hs _ ht => growTurn_pos hs ht) h0 hs).1
  exact near_writeStores hpos hw

/-- Shrinking stores at every page from the one of the break on. -/
theorem near_moveStores_shrink_iff (hqp : q < p) {free : List Nat} :
    (∀ w ∈ moveStores env p q table free, w.Near) ↔ p ≤ table.numPages := by
  rw [moveStores, if_neg (by omega), if_neg (by omega)]
  constructor
  · intro h
    have hfirst := mem_loopTurns_start (fun s : Moving => decide (s.page ≠ q)) (shrinkTurn env) (p + q)
      (s := ⟨p, table, free, true⟩) (decide_eq_true (Nat.ne_of_gt hqp))
    exact h ⟨p, table.numPages⟩ (List.mem_flatMap.mpr ⟨_, hfirst, List.mem_cons_self⟩)
  · intro hp w hw
    obtain ⟨s, hs, hw⟩ := List.mem_flatMap.mp hw
    obtain rfl := List.mem_singleton.mp hw
    obtain ⟨⟨hblock, hle⟩, -⟩ := mem_loopTurns (fun s : Moving => SameBlock table s.table ∧ s.page ≤ p)
      (by
        rintro s t ⟨hblock, hle⟩ - ht
        obtain ⟨t', ht', hpage, hblock'⟩ := shrinkTurn_table env s hblock
        rw [ht'] at ht
        cases ht
        exact ⟨hblock', by omega⟩)
      ⟨⟨rfl, rfl⟩, Nat.le_refl p⟩ hs
    exact Nat.le_trans hle (hp.trans_eq hblock.1.symm)

/-- **The stores of `setKernelBrk`** go no further than the first index past the table if and only if the call does not
shrink from a page after that. -/
theorem near_brkStores_iff (env : Env) {k : Kernel} (addr : Word) (hv : k.virtualMemoryEnabled = true)
    (h0 : 0 < k.pagetableRegion0.numPages) :
    ∃ l, brkStores env addr k = .ok l ∧ ((∀ w ∈ l, w.Near) ↔
      (pageOf addr < pageOf k.kernelBreak → pageOf k.kernelBreak ≤ k.pagetableRegion0.numPages)) := by
  unfold brkStores
  by_cases hsame : pageOf addr = pageOf k.kernelBreak
  · rw [if_pos (.inr hsame)]
    exact ⟨[], rfl, iff_of_true (fun w hw => absurd hw List.not_mem_nil) fun hlt => by omega⟩
  · rw [if_neg (by simp [hv, hsame])]
    obtain ⟨moved, hmoved, -⟩ := moveLoop_table env h0 k.freeMemory (pageOf k.kernelBreak) (pageOf addr)
    obtain ⟨valid, hvalid, -⟩ := validLoop_total (pageOf addr) moved.table moved.inside
    have hbase : vmem0Base >>> pageShift = 0 := rfl
    simp only [hmoved, ok_bind, hbase, hvalid]
    refine ⟨_, rfl, ?_⟩
    have hmarks : ∀ w ∈ validStores (pageOf addr) ⟨0, moved.table, moved.inside, false⟩ ++
        (if valid.returned then [] else invalidStores (kernelStackLimit >>> pageShift) valid), w.Near := by
      intro w hw
      rcases List.mem_append.mp hw with hw | hw
      · exact near_validStores hw
      · split at hw
        · exact absurd hw List.not_mem_nil
        · exact near_invalidStores hw
    rw [List.forall_mem_append, and_iff_left hmarks]
    rcases Nat.lt_or_ge (pageOf addr) (pageOf k.kernelBreak) with hqp | hpq
    · rw [near_moveStores_shrink_iff hqp]
      exact ⟨fun h _ => h, fun h => h hqp⟩
    · exact iff_of_true (fun w hw => near_moveStores_grow h0 (by omega) hw) fun hlt => by omega

theorem rangeTurn_pos {prot : Nat} {s t : Ranging} (h0 : 0 < s.table.numPages) (ht : rangeTurn env prot s = .ok t) :
    0 < t.table.numPages := by
  obtain ⟨t', ht', hturn⟩ := rangeTurn_turned env prot h0
  rw [ht'] at ht
  cases ht
  cases hturn with
  | stored block => exact block.1 ▸ h0
  | refused block => exact block.1 ▸ h0
  | expanded block => exact Nat.zero_lt_of_lt block.1

theorem near_initStores (h0 : 0 < table.numPages) {start stop prot : Nat}
    (hw : w ∈ initStores env table start stop prot) : w.Near := by
  obtain ⟨s, hs, hw⟩ := List.mem_flatMap.mp hw
  have hpos := (mem_loopTurns (fun s : Ranging => 0 < s.table.numPages) (fun s t hs _ ht => rangeTurn_pos hs ht)
    h0 hs).1
  exact near_writeStores hpos hw

/-- **The stores of `initVirtualMemory`** go no further than the first index past the table. -/
theorem near_bootStores (env : Env) {k : Kernel} (h0 : 0 < k.pagetableRegion0.numPages) :
    ∃ l, bootStores env k = .ok l ∧ ∀ w ∈ l, w.Near := by
  obtain ⟨text, ht, htable, -⟩ := rangeTable_spec env h0 pmemBase
    (roundup (k.kernelDataStart.toNat / pageSize) pageSize) (protExec ||| protRead)
  have hpos : 0 < text.after.numPages := by
    rcases htable with ⟨block, -⟩ | ⟨block, -⟩
    · exact block.1 ▸ h0
    · exact Nat.zero_lt_of_lt block.1
  unfold bootStores
  simp only [ht, ok_bind]
  split
  · exact ⟨_, rfl, fun w hw => near_initStores h0 hw⟩
  · refine ⟨_, rfl, fun w hw => ?_⟩
    rcases List.mem_append.mp hw with hw | hw
    · exact near_initStores h0 hw
    · exact near_initStores hpos hw

end Near

end MooseOS
