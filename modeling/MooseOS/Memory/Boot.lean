import MooseOS.Memory.Basic

/-!
# Booting

`initPaging`, `initializePagetableRange` and `initVirtualMemory` of `memoryManagement/memoryManagement.c`. `Halt` does
not return: an `initPaging` that halts has the outcome `none`, and an `initVirtualMemory` that does has the kernel at
that moment as its outcome. An allocation of the kernel may call `SetKernelBrk` before it returns.
-/

namespace MooseOS
open Prog

/-! ## `initPaging` -/

/-- A `malloc` or `calloc`: the address it raises the kernel break to, if it does, and whether it succeeds. -/
structure Alloc where
  raise : Option Word
  ok : Bool

/-- The allocations of a `pagetableCreate`, and the address of the table's block. -/
structure TableAlloc where
  calloc : Alloc
  malloc : Alloc
  base : Word

/-- What the outside does during `initPaging`: in `linkedListQueueCreate`, in the `linkedListQueuePush` of a frame,
and in the two calls of `pagetableCreate`. -/
structure PagingEnv where
  env : Env
  queue : Alloc
  node : Nat → Alloc
  region0 : TableAlloc
  region1 : TableAlloc

def allocate (env : Env) (a : Alloc) (k : Kernel) : Exec Kernel :=
  match a.raise with
  | none => .ok k
  | some addr => do
    let r ← setKernelBrk env addr k
    .ok r.after

/-- A turn of the loop of `initPaging`: `linkedListQueuePush(freeMemory, (void *)frame); frame += 1;`. The frame 0 is
`NULL`, which is refused before anything is allocated. -/
def pagingTurn (e : PagingEnv) (s : Int × Kernel) : Exec (Int × Kernel) := do
  let value := (BitVec.ofInt 32 s.1).toNat
  let k ← if value = 0 then .ok s.2 else allocate e.env (e.node value) s.2
  .ok (s.1 + 1, { k with freeMemory := (Fifo.push k.freeMemory value (e.node value).ok).2 })

/-- `while (frame < pmem_size / PAGESIZE)`, a comparison of unsigned numbers. -/
def pagingLoop (e : PagingEnv) (pmemSize : Word) (s : Int × Kernel) : Exec (Int × Kernel) :=
  whileLoop (fun s => decide ((BitVec.ofInt 32 s.1).toNat < pmemSize.toNat / pageSize)) (pagingTurn e)
    (pmemSize.toNat / pageSize + 1) s

/-- `pagetableCreate(4)`, with the allocations it makes. -/
def createTable (env : Env) (a : TableAlloc) (k : Kernel) : Exec (Option Pagetable × Kernel) := do
  let k ← allocate env a.calloc k
  let k ← if a.calloc.ok then allocate env a.malloc k else .ok k
  let pt ← pagetableCreate 4 (if a.calloc.ok then some a.base else none) a.malloc.ok
  .ok (pt, k)

def initPaging (e : PagingEnv) (pmemSize : Word) (k : Kernel) : Exec (Option Kernel) := do
  let k ← allocate e.env e.queue k
  if e.queue.ok = false then .ok none
  else do
    let frame := k.kernelBreak.toInt.tdiv pageSize
    let s ← pagingLoop e pmemSize (frame, { k with freeMemory := [] })
    let r0 ← createTable e.env e.region0 s.2
    let r1 ← createTable e.env e.region1 r0.2
    match r0.1, r1.1 with
    | some pt0, some pt1 =>
      let regs := pagetableAssignToRegisters pt0 .ptbr0 .ptlr0 r1.2.registers
      .ok (some { r1.2 with
        pagetableRegion0 := pt0
        pagetableRegion1 := pt1
        registers := pagetableAssignToRegisters pt1 .ptbr1 .ptlr1 regs })
    | _, _ => .ok none

/-! ## `initVirtualMemory` -/

/-- The variables of `initializePagetableRange`. -/
structure Ranging where
  frame : Nat
  table : Pagetable
  inside : Bool
  didExpand : Bool
  failed : Bool

/-- One turn of its loop: the page `frame` is mapped to the frame of that number. -/
def rangeTurn (env : Env) (prot : Nat) (s : Ranging) : Exec Ranging := do
  let w ← pagetableWrite s.table s.frame s.frame prot (env.realloc s.frame)
  if w.val = .failed then .ok { s with table := w.after, inside := s.inside && w.inside, failed := true }
  else .ok ⟨s.frame + 1, w.after, s.inside && w.inside, s.didExpand || decide (w.val = .expanded), false⟩

/-- `initializePagetableRange`: the pages from `start` on and before `stop`. -/
def initializePagetableRange (env : Env) (pt : Pagetable) (start stop prot : Nat) : Exec (Ran Pagetable Status) := do
  let s ← whileLoop (fun s => !s.failed && decide (s.frame < stop)) (rangeTurn env prot) (stop + 1)
    ⟨start, pt, true, false, false⟩
  .ok ⟨if s.failed then .failed else if s.didExpand then .expanded else .nominal, s.table, s.inside⟩

def roundup (x y : Nat) : Nat := (x + (y - 1)) / y * y

/-- How a call ends that may `Halt`. -/
inductive Ended (α : Type) where
  | halted (k : Kernel)
  | returned (r : α)

def Ended.value {α : Type} : Ended α → Option α
  | .halted _ => none
  | .returned r => some r

/-- `initVirtualMemory`. The second test compares the end of the data range, not its status, with `FAILED`, and the
third one with `EXPANDED`. -/
def initVirtualMemory (env : Env) (k : Kernel) : Exec (Ended (Ran Kernel Unit)) := do
  let textEnd := roundup (k.kernelDataStart.toNat / pageSize) pageSize
  let text ← initializePagetableRange env k.pagetableRegion0 pmemBase textEnd (protExec ||| protRead)
  if text.val = .failed then .ok (.halted { k with pagetableRegion0 := text.after })
  else do
    let dataEnd := roundup (k.kernelBreak.toNat / pageSize) pageSize
    let data ← initializePagetableRange env text.after textEnd dataEnd (protRead ||| protWrite)
    if dataEnd = Status.failed.toNat then .ok (.halted { k with pagetableRegion0 := data.after })
    else
      let regs := if text.val = .expanded ∨ dataEnd = Status.expanded.toNat
        then pagetableAssignToRegisters data.after .ptbr0 .ptlr0 k.registers else k.registers
      .ok (.returned ⟨(), { k with
        pagetableRegion0 := data.after
        registers := writeRegister regs .vmEnable 1
        virtualMemoryEnabled := true }, text.inside && data.inside⟩)

end MooseOS
