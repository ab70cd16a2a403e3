import MooseOS.Pagetable.Runs

/-!
# The page table as a partial map

The abstract page table is a partial map from pages to a frame and a protection. `PageMap.apply` says what an
answered call does to it, `mapOf` is the map after a history: the last write, insert or removal of a page
decides. `pagetable_refines_map` : in every run that stays inside the table, the lookups read that map.
-/

namespace MooseOS
open Prog

/-- A partial map from pages to `(pfn, prot)`. -/
abbrev PageMap := Nat → Option (Nat × Nat)

/-- The effect of an answered call. The page of an insert is the one it returned. -/
def PageMap.apply (m : PageMap) : TableOp → TableRes → PageMap
  | .write vpn pfn prot _, .status s => if s = .failed then m else Function.update m vpn (some (pfn, prot))
  | .insert pfn prot _ _, .page p s => if s = .failed then m else Function.update m p (some (pfn, prot))
  | .remove page, _ => Function.update m page none
  | _, _ => m

/-- The map after a history of answered calls, from the empty table. -/
def mapOf (history : List (TableOp × Answer)) : PageMap :=
  history.foldl (fun m x => m.apply x.1 x.2.res) fun _ => none

theorem mapOf_concat (history : List (TableOp × Answer)) (op : TableOp) (a : Answer) :
    mapOf (history ++ [(op, a)]) = (mapOf history).apply op a.res := by
  simp [mapOf]

/-- The lookups of the table read the map: `pagetableGetEntry` and `pfnForPage` below `numPages`, and nothing
above it. -/
structure LooksUp (pt : Pagetable) (m : PageMap) : Prop where
  getEntry : ∀ v < pt.numPages, pagetableGetEntry pt v = some v
  valid : ∀ v < pt.numPages, ((pt.entry v).valid = true ↔ (m v).isSome)
  fields : ∀ v < pt.numPages, ∀ f p, m v = some (f, p) →
    (pt.entry v).pfn.toNat = f ∧ (pt.entry v).prot.toNat = p
  frame : ∀ v < pt.numPages, ∀ beyond, (pfnForPage pt v beyond).val = (m v).elim 0 Prod.fst
  past : ∀ v, pt.numPages < v → pagetableGetEntry pt v = none ∧ ∀ beyond, (pfnForPage pt v beyond).val = 0

/-- The frame and the protection that a call passes fit the bit-fields of an entry. -/
def TableOp.Fits : TableOp → Prop
  | .write _ pfn prot _ => pfn < 2 ^ 24 ∧ prot < 8
  | .insert pfn prot _ _ => pfn < 2 ^ 24 ∧ prot < 8
  | _ => True

/-! ## The invariant -/

def entryOf : Option (Nat × Nat) → Pte
  | none => .empty
  | some (f, p) => .mapped f p

/-- The cells of the table are the entries of the map, which has no page outside the table. -/
structure Represents (pt : Pagetable) (m : PageMap) : Prop where
  pos : 0 < pt.numPages
  cells : ∀ v, pt.entry v = entryOf (m v)
  dom : ∀ v, pt.numPages ≤ v → m v = none
  fits : ∀ v f p, m v = some (f, p) → f < 2 ^ 24 ∧ p < 8

theorem Represents.looksUp {pt : Pagetable} {m : PageMap} (h : Represents pt m) : LooksUp pt m where
  getEntry v hv := by simp [pagetableGetEntry, Nat.le_of_lt hv]
  valid v _ := by
    rw [h.cells v]
    cases m v with
    | none => simp [entryOf]
    | some x => simp [entryOf]
  fields v _ f p hm := by
    obtain ⟨hf, hp⟩ := h.fits v f p hm
    rw [h.cells v, hm]
    exact ⟨Pte.mapped_pfn hf p, Pte.mapped_prot hp f⟩
  frame v hv beyond := by
    rw [pfnForPage, if_neg (by omega)]
    simp only [Pagetable.read_of_lt beyond hv, h.cells v]
    cases hm : m v with
    | none => simp [entryOf]
    | some x => exact Pte.mapped_pfn (h.fits v x.1 x.2 hm).1 x.2
  past v hv := ⟨by simp [pagetableGetEntry, hv], fun beyond => by simp [pfnForPage, hv]⟩

theorem Created.represents {n : Nat} {pt : Pagetable} (h : Created n pt) (hn : 1 ≤ n) :
    Represents pt (mapOf []) where
  pos := by rw [h.numPages]; exact hn
  cells v := h.entry v
  dom _ _ := rfl
  fits _ _ _ hm := by simp [mapOf] at hm

theorem Represents.update {pt : Pagetable} {m : PageMap} (h : Represents pt m) {i : Nat} (hi : i < pt.numPages)
    (x : Option (Nat × Nat)) (hx : ∀ f p, x = some (f, p) → f < 2 ^ 24 ∧ p < 8) :
    Represents (pt.store i (entryOf x)) (Function.update m i x) where
  pos := by simpa using h.pos
  cells v := by
    rw [Pagetable.entry_store _ _ hi, Function.update_apply, h.cells v]
    split <;> rfl
  dom v hv := by
    rw [Pagetable.numPages_store] at hv
    rw [Function.update_of_ne (by omega), h.dom v hv]
  fits v f p hm := by
    rw [Function.update_apply] at hm
    split at hm
    · exact hx f p hm
    · exact h.fits v f p hm

theorem Represents.mapped {pt : Pagetable} {m : PageMap} (h : Represents pt m) {i pfn prot : Nat}
    (hi : i < pt.numPages) (hfit : pfn < 2 ^ 24 ∧ prot < 8) :
    Represents (pt.store i (.mapped pfn prot)) (Function.update m i (some (pfn, prot))) := by
  refine h.update hi (some (pfn, prot)) ?_
  rintro f p ⟨⟩
  exact hfit

theorem Represents.grown {pt : Pagetable} {m : PageMap} (h : Represents pt m) (base : Word) {n : Nat}
    (hn : pt.numPages ≤ n) : Represents (pt.grown base n) m where
  pos := by rw [Pagetable.numPages_grown base hn]; have := h.pos; omega
  cells v := by rw [Pagetable.entry_grown, h.cells v]
  dom v hv := h.dom v (by rw [Pagetable.numPages_grown base hn] at hv; omega)
  fits := h.fits

/-! ## The routines that write -/

section Routines
variable {pt : Pagetable} {m : PageMap} {pfn prot : Nat} {realloc : Option Block}

theorem represents_write {vpn : Nat} {w : Ran Pagetable Status} (h : Represents pt m) (hfit : pfn < 2 ^ 24 ∧ prot < 8)
    (hw : pagetableWrite pt vpn pfn prot realloc = .ok w) (hin : w.inside = true) :
    (w.val = .failed ∧ w.after = pt) ∨
    (w.val ≠ .failed ∧ Represents w.after (Function.update m vpn (some (pfn, prot)))) := by
  rcases pagetableWrite_cases h.pos vpn pfn prot realloc with ⟨he, -⟩ | ⟨he, -⟩ | ⟨blk, n, -, he, -, h1, -, hd⟩
  · cases he.symm.trans hw
    exact .inr ⟨by simp, h.mapped (of_decide_eq_true hin) hfit⟩
  · cases he.symm.trans hw
    exact .inl ⟨rfl, rfl⟩
  · have hle := Nat.le_of_lt (hd.lt h.pos h1)
    cases he.symm.trans hw
    refine .inr ⟨by simp, (h.grown blk.base hle).mapped ?_ hfit⟩
    rw [hd.numPages_grown h.pos h1]
    exact of_decide_eq_true hin

theorem represents_insert {beyond : Pte} {w : Ran Pagetable (Nat × Status)} (h : Represents pt m)
    (hfit : pfn < 2 ^ 24 ∧ prot < 8) (hw : pagetableInsert pt pfn prot realloc beyond = .ok w)
    (hin : w.inside = true) :
    (w.val.2 = .failed ∧ w.after = pt) ∨
    (w.val.2 ≠ .failed ∧ m w.val.1 = none ∧ w.val.1 < w.after.numPages ∧
      Represents w.after (Function.update m w.val.1 (some (pfn, prot)))) := by
  obtain ⟨p, -, -, -, hcases⟩ := pagetableInsert_cases h.pos pfn prot realloc beyond
  rcases hcases with ⟨he, hp, -⟩ | ⟨he, -⟩ | ⟨blk, n, -, he, h1, hd⟩
  · cases he.symm.trans hw
    simp [hp] at hin
  · cases he.symm.trans hw
    exact .inl ⟨rfl, rfl⟩
  · have hlt := hd.lt h.pos h1
    have hnew : pt.numPages < (pt.grown blk.base n).numPages := by
      rw [hd.numPages_grown h.pos h1]
      exact hlt
    cases he.symm.trans hw
    exact .inr ⟨by simp, h.dom _ (Nat.le_refl _), by simpa using hnew,
      (h.grown blk.base (Nat.le_of_lt hlt)).mapped hnew hfit⟩

theorem represents_expand {target : Nat} {r : Int × Pagetable} (h : Represents pt m)
    (hr : pagetableExpand pt target realloc = .ok r) : Represents r.2 m := by
  rcases pagetableExpand_cases h.pos target realloc with ⟨he, -⟩ | ⟨he, -⟩ | ⟨blk, n, -, he, h1, -, hd⟩
  · cases he.symm.trans hr
    exact h
  · cases he.symm.trans hr
    exact h
  · cases he.symm.trans hr
    exact h.grown blk.base (Nat.le_of_lt (hd.lt h.pos h1))

end Routines

/-! ## One step -/

/-- What an answered call says about the table before and after it: a failed call changes nothing, and an
insert takes a page that was not mapped. -/
structure StepLaw (pt : Pagetable) (m : PageMap) (op : TableOp) (a : Answer) (pt' : Pagetable) : Prop where
  failed_write : ∀ vpn pfn prot r, op = .write vpn pfn prot r → a.res = .status .failed → pt' = pt
  failed_insert : ∀ pfn prot r b p, op = .insert pfn prot r b → a.res = .page p .failed → pt' = pt
  inserted : ∀ pfn prot r b p s, op = .insert pfn prot r b → a.res = .page p s → s ≠ .failed →
    m p = none ∧ p < pt'.numPages

theorem tableStep_represents {pt pt' : Pagetable} {m : PageMap} (h : Represents pt m) {op : TableOp} {a : Answer}
    (hfit : op.Fits) (hs : tableStep pt op = .ok (a, pt')) (hin : a.inside = true) :
    Represents pt' (m.apply op a.res) ∧ StepLaw pt m op a pt' := by
  cases op with
  | write vpn pfn prot realloc =>
    obtain ⟨w, hw, hs⟩ := bind_eq_ok.mp hs
    cases hs
    rcases represents_write h hfit hw hin with ⟨hval, hafter⟩ | ⟨hval, hrep⟩
    · refine ⟨?_, fun _ _ _ _ _ _ => hafter, by simp, by simp⟩
      rw [PageMap.apply, if_pos hval, hafter]
      exact h
    · refine ⟨?_, fun _ _ _ _ _ hres => absurd (TableRes.status.inj hres) hval, by simp, by simp⟩
      rw [PageMap.apply, if_neg hval]
      exact hrep
  | insert pfn prot realloc beyond =>
    obtain ⟨w, hw, hs⟩ := bind_eq_ok.mp hs
    cases hs
    rcases represents_insert h hfit hw hin with ⟨hval, hafter⟩ | ⟨hval, hnone, hlt, hrep⟩
    · refine ⟨?_, by simp, fun _ _ _ _ _ _ _ => hafter, ?_⟩
      · rw [PageMap.apply, if_pos hval, hafter]
        exact h
      · rintro _ _ _ _ _ _ - ⟨⟩ hne
        exact absurd hval hne
    · refine ⟨?_, by simp, ?_, ?_⟩
      · rw [PageMap.apply, if_neg hval]
        exact hrep
      · intro _ _ _ _ _ _ hres
        exact absurd (TableRes.page.inj hres).2 hval
      · rintro _ _ _ _ _ _ - ⟨⟩ -
        exact ⟨hnone, hlt⟩
  | expand target realloc =>
    obtain ⟨r, hr, hs⟩ := bind_eq_ok.mp hs
    cases hs
    exact ⟨represents_expand h hr, by simp, by simp, by simp⟩
  | remove page =>
    cases hs
    exact ⟨h.update (of_decide_eq_true hin) none (by simp), by simp, by simp, by simp⟩
  | getEntry vpn =>
    cases hs
    exact ⟨h, by simp, by simp, by simp⟩
  | frame page beyond =>
    have hafter : (pfnForPage pt page beyond).after = pt := by
      unfold pfnForPage
      split <;> rfl
    cases hs
    rw [hafter]
    exact ⟨h, by simp, by simp, by simp⟩

/-! ## Runs -/

/-- A run on a created table returns; when it stays inside the table, its state represents the map of its
history. -/
theorem run_represents {n : Nat} (hn : 1 ≤ n) {pt₀ : Pagetable} (hc : Created n pt₀) (ops : List TableOp)
    (hfit : ∀ op ∈ ops, op.Fits) :
    ∃ rs pt, tableMachine.run pt₀ ops = .ok (rs, pt) ∧ 0 < pt.numPages ∧
      ((∀ r ∈ rs, r.inside = true) → Represents pt (mapOf (ops.zip rs))) := by
  have h0 : 0 < pt₀.numPages := by rw [hc.numPages]; exact hn
  obtain ⟨rs, pt, hrun, hpos⟩ := tableMachine.run_total (fun _ => True) (fun pt => 0 < pt.numPages)
    (by
      intro pt op h _
      obtain ⟨a, pt', hs, hle⟩ := tableStep_ok h op
      exact ⟨a, pt', hs, by omega⟩)
    ops pt₀ (by simp) h0
  refine ⟨rs, pt, hrun, hpos, fun hin => ?_⟩
  refine tableMachine.run_trace (fun op a => op.Fits ∧ a.inside = true) (fun tr pt => Represents pt (mapOf tr))
    (fun tr s op a t h hP hs => ?_) ops [] pt₀ rs pt hrun (fun x hx => ?_) (hc.represents hn)
  · rw [mapOf_concat]
    exact (tableStep_represents h hP.1 hs hP.2).1
  · exact ⟨hfit x.1 (List.of_mem_zip hx).1, hin x.2 (List.of_mem_zip hx).2⟩

/-- **The page table refines a partial map.** Every run of calls from `pagetableCreate(n)` returns. While no
access falls outside the table, the lookups read the map of the history before and after each call, a failed
write or insert changes nothing, and a successful insert maps one page that was not mapped. -/
theorem pagetable_refines_map {n : Nat} (hn : 1 ≤ n) {pt₀ : Pagetable} (hc : Created n pt₀) (ops : List TableOp)
    (op : TableOp) (hfit : ∀ o ∈ ops ++ [op], o.Fits) :
    ∃ rs pt a pt', tableMachine.run pt₀ ops = .ok (rs, pt) ∧ tableMachine.step pt op = .ok (a, pt') ∧
      ((∀ r ∈ rs, r.inside = true) → LooksUp pt (mapOf (ops.zip rs)) ∧
        (a.inside = true → LooksUp pt' (mapOf (ops.zip rs ++ [(op, a)])) ∧
          StepLaw pt (mapOf (ops.zip rs)) op a pt')) := by
  obtain ⟨rs, pt, hrun, hpos, hrep⟩ := run_represents hn hc ops (fun o ho => hfit o (by simp [ho]))
  obtain ⟨a, pt', hs, -⟩ := tableStep_ok hpos op
  refine ⟨rs, pt, a, pt', hrun, hs, fun hin => ⟨(hrep hin).looksUp, fun ha => ?_⟩⟩
  have hstep := tableStep_represents (hrep hin) (hfit op (by simp)) hs ha
  rw [mapOf_concat]
  exact ⟨hstep.1.looksUp, hstep.2⟩

theorem pagetable_refines_map_four : ∃ rs pt a pt',
    tableMachine.run ⟨0x1000, List.replicate 4 .empty⟩
      [.write 0 9 3 none, .write 6 10 1 (some ⟨0x2000, fun _ => .mapped 77 7⟩)] = .ok (rs, pt) ∧
    tableMachine.step pt (.insert 11 3 (some ⟨0x3000, fun _ => .mapped 77 7⟩) .empty) = .ok (a, pt') ∧
    ((∀ r ∈ rs, r.inside = true) →
      LooksUp pt (mapOf ([.write 0 9 3 none, .write 6 10 1 (some ⟨0x2000, fun _ => .mapped 77 7⟩)].zip rs)) ∧
      (a.inside = true →
        LooksUp pt' (mapOf ([.write 0 9 3 none, .write 6 10 1 (some ⟨0x2000, fun _ => .mapped 77 7⟩)].zip rs ++
          [(.insert 11 3 (some ⟨0x3000, fun _ => .mapped 77 7⟩) .empty, a)])) ∧
        StepLaw pt (mapOf ([.write 0 9 3 none, .write 6 10 1 (some ⟨0x2000, fun _ => .mapped 77 7⟩)].zip rs))
          (.insert 11 3 (some ⟨0x3000, fun _ => .mapped 77 7⟩) .empty) a pt')) :=
  pagetable_refines_map (n := 4) (by decide) ((created_iff _ _).mpr ⟨0x1000, rfl⟩) _ _ (by simp [TableOp.Fits])

end MooseOS
