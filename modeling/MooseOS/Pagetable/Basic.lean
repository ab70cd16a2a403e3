import MooseOS.Hardware

/-!
# The page table

`common/pagetable/pagetable.c`. A `Pagetable` is the base address of the block `table` with the cells
of that block, so `numPages` is the length of the list. A store past the last cell changes nothing that
is modelled, a read there yields a value `beyond`, and every call reports in `Ran.inside` whether all
cells that it touched lie in the table.

`realloc` succeeds with a `Block` or fails; a call of `pagetableWrite` or `pagetableInsert` asks for at
most one block, so its outcome is an argument of the call.
-/

namespace MooseOS
open Prog

/-- What a call leaves: its result, the state after it, and whether it stayed inside the table. -/
structure Ran (σ α : Type) where
  val : α
  after : σ
  inside : Bool

inductive Status where
  | nominal
  | expanded
  | failed
deriving DecidableEq, Repr

def Status.toNat : Status → Nat
  | .nominal => 0
  | .expanded => 1
  | .failed => 2

/-- `struct pagetable`, with the block that its field `table` points to. -/
structure Pagetable where
  base : Word
  table : List Pte
deriving DecidableEq, Repr

/-- A block from `realloc`: its address, and what the cells after the copied ones happen to hold. -/
structure Block where
  base : Word
  junk : Nat → Pte

namespace Pagetable
variable (pt : Pagetable)

def numPages : Nat := pt.table.length

/-- The cell `i`, and outside the table an empty entry. -/
def entry (i : Nat) : Pte := pt.table.getD i .empty

/-- `table[i]`, where a read outside the table yields `beyond`. -/
def read (beyond : Pte) (i : Nat) : Pte := pt.table.getD i beyond

/-- `table[i] = e`. -/
def store (i : Nat) (e : Pte) : Pagetable := { pt with table := pt.table.set i e }

def setValid (i : Nat) (valid : Bool) : Pagetable :=
  { pt with table := pt.table.modify i fun e => { e with valid := valid } }

end Pagetable

/-- The cells of a block of `numPages` entries after the old cells were copied into it. -/
def Block.cells (blk : Block) (old : List Pte) (numPages : Nat) : List Pte :=
  (List.range numPages).map fun i => old.getD i (blk.junk i)

/-- `while (i < numPages) { table[i] = <empty entry>; i++; }`. -/
def clearLoop (i numPages : Nat) (cells : List Pte) : Exec (List Pte) := do
  let s ← whileLoop (fun s : Nat × List Pte => decide (s.1 < numPages))
    (fun s => .ok (s.1 + 1, s.2.set s.1 .empty)) (numPages + 1) (i, cells)
  .ok s.2

/-- `pagetableCreate`: `calloc` may fail or return a zeroed block, `malloc` may fail. -/
def pagetableCreate (numPages : Nat) (calloc : Option Word) (malloc : Bool) : Exec (Option Pagetable) :=
  match calloc with
  | none => .ok none
  | some base => do
    let cells ← clearLoop 0 numPages (List.replicate numPages ⟨false, 0, 0⟩)
    if malloc then .ok (some ⟨base, cells⟩) else .ok none

/-- `while (until > numPages) numPages = numPages * 2;`. Every turn that changes `numPages` raises it, so
a loop that ends does so within `until + 1` tests. -/
def doubleLoop (target numPages : Nat) : Exec Nat :=
  whileLoop (fun n => decide (target > n)) (fun n => .ok (n * 2)) (target + 1) numPages

/-- `pagetableExpand`: the return code, and the table after the call. -/
def pagetableExpand (pt : Pagetable) (target : Nat) (realloc : Option Block) : Exec (Int × Pagetable) :=
  if pt.numPages ≥ maxPtLen ∨ target > maxPtLen then .ok (-1, pt)
  else do
    let doubled ← doubleLoop target (pt.numPages * 2)
    let numPages := min doubled maxPtLen
    match realloc with
    | none => .ok (-2, pt)
    | some blk => do
      let cells ← clearLoop pt.numPages numPages (blk.cells pt.table numPages)
      .ok (0, ⟨blk.base, cells⟩)

/-- `getPagetableMemoryRange`: the base of the table and the address just past it. -/
def getPagetableMemoryRange (pt : Pagetable) : Word × Word :=
  (pt.base, pt.base + BitVec.ofNat 32 (pt.numPages * 4))

/-- `while (!table[page].valid && page < numPages) page++;`. -/
def scanLoop (pt : Pagetable) (beyond : Pte) (page : Nat) : Exec Nat :=
  whileLoop (fun p => !(pt.read beyond p).valid && decide (p < pt.numPages)) (fun p => .ok (p + 1))
    (pt.numPages + 1) page

/-- `pagetableInsert`: the page it returns and the status. The scan has read the cells up to the page
where it stopped. -/
def pagetableInsert (pt : Pagetable) (pfn prot : Nat) (realloc : Option Block) (beyond : Pte) :
    Exec (Ran Pagetable (Nat × Status)) := do
  let page ← scanLoop pt beyond 0
  let scanned := decide (page < pt.numPages)
  if (pt.read beyond page).valid then do
    let rc ← pagetableExpand pt 0 realloc
    if rc.1 ≠ 0 then .ok ⟨(0, .failed), rc.2, scanned⟩
    else
      .ok ⟨(pt.numPages, .expanded), rc.2.store pt.numPages (.mapped pfn prot),
        scanned && decide (pt.numPages < rc.2.numPages)⟩
  else .ok ⟨(page, .nominal), pt.store page (.mapped pfn prot), scanned⟩

def pagetableWrite (pt : Pagetable) (vpn pfn prot : Nat) (realloc : Option Block) :
    Exec (Ran Pagetable Status) :=
  if vpn > pt.numPages then do
    let rc ← pagetableExpand pt vpn realloc
    if rc.1 ≠ 0 then .ok ⟨.failed, rc.2, true⟩
    else .ok ⟨.expanded, rc.2.store vpn (.mapped pfn prot), decide (vpn < rc.2.numPages)⟩
  else .ok ⟨.nominal, pt.store vpn (.mapped pfn prot), decide (vpn < pt.numPages)⟩

/-- `pagetableGetEntry`: the index of the entry that the returned pointer names, or `NULL`. -/
def pagetableGetEntry (pt : Pagetable) (vpn : Nat) : Option Nat :=
  if vpn > pt.numPages then none else some vpn

def pagetableRemove (pt : Pagetable) (page : Nat) : Ran Pagetable Unit :=
  ⟨(), pt.store page .empty, decide (page < pt.numPages)⟩

def pfnForPage (pt : Pagetable) (page : Nat) (beyond : Pte) : Ran Pagetable Nat :=
  if page > pt.numPages then ⟨0, pt, true⟩
  else ⟨(pt.read beyond page).pfn.toNat, pt, decide (page < pt.numPages)⟩

def pageNumberForVirtualAddr (addr : Word) : Word := addr >>> pageShift

/-- `offsetForVirtualAddr`: `(u_long)addr - pageNumberForVirtualAddr(addr) << PAGESHIFT`, which subtracts first. -/
def offsetForVirtualAddr (addr : Word) : Word := (addr - pageNumberForVirtualAddr addr) <<< pageShift

/-- `pfnForVirtualAddr`. The frame that it reads does not go into its result. -/
def pfnForVirtualAddr (pt : Pagetable) (addr : Word) (beyond : Pte) : Ran Pagetable Word :=
  let page := pageNumberForVirtualAddr addr
  let offset := offsetForVirtualAddr addr
  let _pfn := (pt.read beyond page.toNat).pfn
  ⟨(page <<< pageShift) + offset, pt, decide (page.toNat < pt.numPages)⟩

def pagetableAssignToRegisters (pt : Pagetable) (regb regl : Register) (regs : Registers) : Registers :=
  let range := getPagetableMemoryRange pt
  writeRegister (writeRegister regs regb range.1) regl range.2

end MooseOS
