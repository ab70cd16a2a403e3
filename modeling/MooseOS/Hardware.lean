import MooseOS.Lib.While

/-!
# The machine

The layout constants, the page table entry and the registers of `include/hardware.h`, as far as the
memory management uses them. An address or a register holds a 32-bit `Word`; page numbers and frame
numbers (`u_long` in the source) are `Nat`.
-/

namespace MooseOS

/-- A 32-bit machine word: an address, or the contents of a register. -/
abbrev Word := BitVec 32

/-! ## Layout -/

def pageSize : Nat := 0x2000
def pageShift : Nat := 13
def pageOffset : Nat := pageSize - 1
def vmemRegionSize : Nat := 0x100000
def vmem0Base : Nat := 0
def vmem0Limit : Nat := vmem0Base + vmemRegionSize
/-- The number of entries of a page table that maps a whole region. -/
def maxPtLen : Nat := vmemRegionSize >>> pageShift
def pmemBase : Nat := 0

/-- `DOWN_TO_PAGE(n)`: `n & PAGEMASK`, where `PAGEMASK` is `~PAGEOFFSET`. -/
def downToPage (n : Word) : Word := n &&& ~~~(BitVec.ofNat 32 pageOffset)

def kernelStackLimit : Nat := vmem0Limit
def kernelStackMaxSize : Nat := 2 * pageSize
def kernelStackBase : Word := downToPage (BitVec.ofNat 32 (kernelStackLimit - kernelStackMaxSize))

theorem pageSize_eq : pageSize = 8192 := rfl
theorem maxPtLen_eq : maxPtLen = 128 := rfl
theorem kernelStackBase_toNat : kernelStackBase.toNat = 126 * pageSize := by decide

/-- `(u_long)addr >> PAGESHIFT`. -/
def pageOf (addr : Word) : Nat := (addr >>> pageShift).toNat

theorem pageOf_eq (addr : Word) : pageOf addr = addr.toNat / pageSize := by
  simp [pageOf, pageShift, pageSize, Nat.shiftRight_eq_div_pow]

/-! ## Page table entries -/

/-- `struct pte`: the reserved bits are left out. -/
structure Pte where
  valid : Bool
  prot : BitVec 3
  pfn : BitVec 24
deriving DecidableEq, Repr

def protNone : Nat := 0
def protRead : Nat := 1
def protWrite : Nat := 2
def protExec : Nat := 4

/-- An entry with nothing valid, no protection, nothing. -/
def Pte.empty : Pte := ⟨false, BitVec.ofNat 3 protNone, 0⟩

/-- The entry a write or an insert stores; the bit-fields keep the low bits of the arguments. -/
def Pte.mapped (pfn prot : Nat) : Pte := ⟨true, BitVec.ofNat 3 prot, BitVec.ofNat 24 pfn⟩

@[simp] theorem Pte.empty_valid : Pte.empty.valid = false := rfl
@[simp] theorem Pte.empty_pfn : Pte.empty.pfn = 0 := rfl
@[simp] theorem Pte.empty_prot : Pte.empty.prot = 0 := rfl
@[simp] theorem Pte.mapped_valid (pfn prot : Nat) : (Pte.mapped pfn prot).valid = true := rfl

theorem Pte.mapped_pfn {pfn : Nat} (h : pfn < 2 ^ 24) (prot : Nat) : (Pte.mapped pfn prot).pfn.toNat = pfn := by
  rw [Pte.mapped, BitVec.toNat_ofNat, Nat.mod_eq_of_lt h]

theorem Pte.mapped_prot {prot : Nat} (h : prot < 8) (pfn : Nat) : (Pte.mapped pfn prot).prot.toNat = prot := by
  rw [Pte.mapped, BitVec.toNat_ofNat, Nat.mod_eq_of_lt h]

/-! ## Registers -/

/-- The privileged registers the memory management writes. -/
inductive Register where
  | vmEnable
  | ptbr0
  | ptlr0
  | ptbr1
  | ptlr1
deriving DecidableEq, Repr

/-- The contents of the registers. -/
abbrev Registers := Register → Word

/-- `WriteRegister(reg, value)`. -/
def writeRegister (regs : Registers) (reg : Register) (value : Word) : Registers :=
  Function.update regs reg value

@[simp] theorem writeRegister_self (regs : Registers) (reg : Register) (value : Word) :
    writeRegister regs reg value reg = value := Function.update_self ..

end MooseOS
