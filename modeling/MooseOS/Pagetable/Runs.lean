import MooseOS.Lib.Machine
import MooseOS.Pagetable.Spec

/-!
# Runs of the page table

`tableMachine` is the page table as a component: its operations are the calls of the routines with the
outcome of the `realloc` they may make, its answers say what the call returned and whether it stayed inside
the table. `tableStep_ok` : on a table with a page, every call returns.
-/

namespace MooseOS
open Prog

/-! ## Creation -/

/-- `pt` is a table that `pagetableCreate(n)` returns. -/
def Created (n : Nat) (pt : Pagetable) : Prop := ∃ base, pagetableCreate n (some base) true = .ok (some pt)

theorem pagetableCreate_spec (n : Nat) (base : Word) (malloc : Bool) :
    pagetableCreate n (some base) malloc =
      .ok (if malloc then some ⟨base, List.replicate n .empty⟩ else none) := by
  unfold pagetableCreate
  simp only [clearLoop_spec (Nat.zero_le n) (List.length_replicate), ok_bind, List.take_zero,
    List.nil_append, Nat.sub_zero]
  cases malloc <;> rfl

theorem created_iff (n : Nat) (pt : Pagetable) :
    Created n pt ↔ ∃ base, pt = ⟨base, List.replicate n .empty⟩ := by
  simp [Created, pagetableCreate_spec, eq_comm]

theorem Created.numPages {n : Nat} {pt : Pagetable} (h : Created n pt) : pt.numPages = n := by
  obtain ⟨base, rfl⟩ := (created_iff n pt).mp h
  simp [Pagetable.numPages]

theorem Created.entry {n : Nat} {pt : Pagetable} (h : Created n pt) (v : Nat) : pt.entry v = .empty := by
  obtain ⟨base, rfl⟩ := (created_iff n pt).mp h
  simp only [Pagetable.entry, List.getD_eq_getElem?_getD, List.getElem?_replicate]
  split <;> rfl

/-! ## The component -/

/-- A call of a routine of the page table, with the environment it meets. -/
inductive TableOp where
  | write (vpn pfn prot : Nat) (realloc : Option Block)
  | insert (pfn prot : Nat) (realloc : Option Block) (beyond : Pte)
  | expand (target : Nat) (realloc : Option Block)
  | remove (page : Nat)
  | getEntry (vpn : Nat)
  | frame (page : Nat) (beyond : Pte)

inductive TableRes where
  | status (s : Status)
  | page (p : Nat) (s : Status)
  | code (rc : Int)
  | done
  | entry (index : Option Nat)
  | pfn (f : Nat)
deriving DecidableEq, Repr

/-- The answer to a call: what it returned, and whether it touched only cells of the table. -/
structure Answer where
  res : TableRes
  inside : Bool
deriving DecidableEq, Repr

/-- One call. A pointer to an entry is no access yet. -/
def tableStep (pt : Pagetable) : TableOp → Exec (Answer × Pagetable)
  | .write vpn pfn prot realloc => do
    let w ← pagetableWrite pt vpn pfn prot realloc
    .ok (⟨.status w.val, w.inside⟩, w.after)
  | .insert pfn prot realloc beyond => do
    let w ← pagetableInsert pt pfn prot realloc beyond
    .ok (⟨.page w.val.1 w.val.2, w.inside⟩, w.after)
  | .expand target realloc => do
    let rc ← pagetableExpand pt target realloc
    .ok (⟨.code rc.1, true⟩, rc.2)
  | .remove page =>
    let w := pagetableRemove pt page
    .ok (⟨.done, w.inside⟩, w.after)
  | .getEntry vpn => .ok (⟨.entry (pagetableGetEntry pt vpn), true⟩, pt)
  | .frame page beyond =>
    let w := pfnForPage pt page beyond
    .ok (⟨.pfn w.val, w.inside⟩, w.after)

def tableMachine : Machine Pagetable TableOp Answer := ⟨tableStep⟩

theorem tableStep_ok {pt : Pagetable} (h0 : 0 < pt.numPages) (op : TableOp) :
    ∃ a pt', tableStep pt op = .ok (a, pt') ∧ pt.numPages ≤ pt'.numPages := by
  cases op with
  | write vpn pfn prot realloc =>
    obtain ⟨w, hw, hc⟩ := pagetableWrite_table h0 vpn pfn prot realloc
    exact ⟨_, _, by simp only [tableStep, hw, ok_bind]; rfl, by omega⟩
  | insert pfn prot realloc beyond =>
    obtain ⟨p, -, -, -, h⟩ := pagetableInsert_cases h0 pfn prot realloc beyond
    rcases h with ⟨he, -⟩ | ⟨he, -⟩ | ⟨blk, n, -, he, h1, hd⟩
    · exact ⟨_, _, by simp only [tableStep, he, ok_bind]; rfl, by simp⟩
    · exact ⟨_, _, by simp only [tableStep, he, ok_bind]; rfl, by simp⟩
    · have hlt := hd.lt h0 h1
      exact ⟨_, _, by simp only [tableStep, he, ok_bind]; rfl, by
        rw [Pagetable.numPages_store, hd.numPages_grown h0 h1]; omega⟩
  | expand target realloc =>
    rcases pagetableExpand_cases h0 target realloc with ⟨he, -⟩ | ⟨he, -⟩ | ⟨blk, n, -, he, h1, -, hd⟩
    · exact ⟨_, _, by simp only [tableStep, he, ok_bind]; rfl, by simp⟩
    · exact ⟨_, _, by simp only [tableStep, he, ok_bind]; rfl, by simp⟩
    · have hlt := hd.lt h0 h1
      exact ⟨_, _, by simp only [tableStep, he, ok_bind]; rfl, by
        rw [hd.numPages_grown h0 h1]; omega⟩
  | remove page => exact ⟨_, _, rfl, by simp [pagetableRemove]⟩
  | getEntry vpn => exact ⟨_, _, rfl, Nat.le_refl _⟩
  | frame page beyond =>
    refine ⟨_, _, rfl, ?_⟩
    simp only [pfnForPage]
    split <;> exact Nat.le_refl _

end MooseOS
