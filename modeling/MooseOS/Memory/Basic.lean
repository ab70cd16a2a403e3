import MooseOS.Lib.Fifo
import MooseOS.Pagetable.Basic

/-!
# Memory management

`memoryManagement/memoryManagement.c`. A `Kernel` holds its global variables and the privileged registers; the list of
free frames is the linked-list queue, oldest frame first, which refuses the frame 0 (`NULL`) and yields 0 when it is
empty; `LinkedPool` has the calls over its nodes. What the allocator does during a call is an argument of it.
-/

namespace MooseOS
open Prog

/-- The global variables, and the registers. -/
structure Kernel where
  kernelDataStart : Word
  kernelDataEnd : Word
  kernelBreak : Word
  virtualMemoryEnabled : Bool
  pagetableRegion0 : Pagetable
  pagetableRegion1 : Pagetable
  freeMemory : List Nat
  registers : Registers

/-- What the outside does during a call: the outcome of `realloc` in the `pagetableWrite` of a page, whether `malloc`
succeeds in the `linkedListQueuePush` of the frame of a page, and what a read past the table yields. -/
structure Env where
  realloc : Nat → Option Block
  malloc : Nat → Bool
  beyond : Pte

/-! ## `SetKernelBrk` -/

/-- The variables of the first loop of `setKernelBrk`, and whether every access so far was inside the table. -/
structure Moving where
  page : Nat
  table : Pagetable
  free : List Nat
  inside : Bool

/-- A turn that grows: the next page gets the next free frame. -/
def growTurn (env : Env) (s : Moving) : Exec Moving := do
  let popped := Fifo.pop s.free
  let page := s.page + 1
  let w ← pagetableWrite s.table page popped.1 (protRead ||| protWrite) (env.realloc page)
  .ok ⟨page, w.after, popped.2, s.inside && w.inside⟩

/-- A turn that shrinks: the frame of the page is free again. -/
def shrinkTurn (env : Env) (s : Moving) : Exec Moving :=
  let frame := pfnForPage s.table s.page env.beyond
  let removed := pagetableRemove frame.after s.page
  let pushed := Fifo.push s.free frame.val (env.malloc s.page)
  .ok ⟨s.page - 1, removed.after, pushed.2, s.inside && frame.inside && removed.inside⟩

/-- `while (page != numPagesAfter)`. -/
def moveLoop (env : Env) (numPagesBefore numPagesAfter : Nat) (table : Pagetable) (free : List Nat) : Exec Moving :=
  whileLoop (fun s => decide (s.page ≠ numPagesAfter))
    (if numPagesBefore < numPagesAfter then growTurn env else shrinkTurn env)
    (numPagesBefore + numPagesAfter + 1) ⟨numPagesBefore, table, free, true⟩

/-- The variables of the loops over the valid bits. -/
structure Marking where
  page : Nat
  table : Pagetable
  inside : Bool
  returned : Bool

/-- `entry = pagetableGetEntry(page); if (entry == NULL) return -1; entry->valid = 1; page++;`. -/
def validTurn (s : Marking) : Exec Marking :=
  match pagetableGetEntry s.table s.page with
  | none => .ok { s with returned := true }
  | some i => .ok ⟨s.page + 1, s.table.setValid i true, s.inside && decide (i < s.table.numPages), false⟩

/-- `entry = pagetableGetEntry(page); if (entry != NULL) entry->valid = 0; page++;`. -/
def invalidTurn (s : Marking) : Exec Marking :=
  match pagetableGetEntry s.table s.page with
  | none => .ok { s with page := s.page + 1 }
  | some i => .ok ⟨s.page + 1, s.table.setValid i false, s.inside && decide (i < s.table.numPages), false⟩

/-- `while (page <= numPagesAfter)`, which a `return` leaves as well. -/
def validLoop (numPagesAfter : Nat) (s : Marking) : Exec Marking :=
  whileLoop (fun s => !s.returned && decide (s.page ≤ numPagesAfter)) validTurn (numPagesAfter + 3) s

/-- `while (page < numPagesBelowStack)`. -/
def invalidLoop (numPagesBelowStack : Nat) (s : Marking) : Exec Marking :=
  whileLoop (fun s => decide (s.page < numPagesBelowStack)) invalidTurn (numPagesBelowStack + 1) s

/-- `setKernelBrk`: the return code, the state, and whether every access was inside the table of region 0. -/
def setKernelBrk (env : Env) (addr : Word) (k : Kernel) : Exec (Ran Kernel Int) :=
  if k.virtualMemoryEnabled = false then .ok ⟨0, { k with kernelBreak := addr }, true⟩
  else
    let numPagesBefore := pageOf k.kernelBreak
    let numPagesAfter := pageOf addr
    if numPagesAfter = numPagesBefore then .ok ⟨0, { k with kernelBreak := addr }, true⟩
    else do
      let moved ← moveLoop env numPagesBefore numPagesAfter k.pagetableRegion0 k.freeMemory
      let valid ← validLoop numPagesAfter ⟨vmem0Base >>> pageShift, moved.table, moved.inside, false⟩
      if valid.returned then
        .ok ⟨-1, { k with pagetableRegion0 := valid.table, freeMemory := moved.free }, valid.inside⟩
      else do
        let below ← invalidLoop (kernelStackLimit >>> pageShift) valid
        .ok ⟨0, { k with
          pagetableRegion0 := below.table
          freeMemory := moved.free
          kernelBreak := (addr.sshiftRight pageShift) <<< pageShift }, below.inside⟩

def setKernelData (env : Env) (kernelDataStart kernelDataEnd : Word) (k : Kernel) : Exec (Ran Kernel Unit) := do
  let r ← setKernelBrk env kernelDataEnd { k with kernelDataStart := kernelDataStart, kernelDataEnd := kernelDataEnd }
  .ok ⟨(), r.after, r.inside⟩

end MooseOS
