import MooseOS.Pagetable.Runs

/-!
# Which calls of the page table end

The loop of `pagetableExpand` doubles the length of the table until it reaches the target, and 0 doubled is 0:
`pagetableCreate` makes an empty table like any other, and no function checks for it.

* `WithinReach target` : a table can have that many pages, but not an empty one;
* `tableStep_ends_iff`, `tableStep_pos_iff` : exactly when a call ends, and that it leaves an empty table empty;
* `growthEnds_iff` : exactly when a run of calls ends, and an expansion and a write after it.
-/

namespace MooseOS
open Prog

/-- The target is past the end of an empty table, and not too long. -/
def WithinReach (target : Nat) : Prop := 0 < target ∧ target ≤ maxPtLen

/-- The call asks for such a length. -/
def Asks : TableOp → Prop
  | .write vpn _ _ _ => WithinReach vpn
  | .expand target _ => WithinReach target
  | _ => False

/-- The run of calls ends, and on the table that it leaves, so does the doubling of an expansion, and the write of a
page. -/
def GrowthEnds (pt₀ : Pagetable) (ops : List TableOp) (target vpn pfn prot : Nat) (realloc realloc' : Option Block) :
    Prop :=
  ∃ rs pt, tableMachine.run pt₀ ops = .ok (rs, pt) ∧ (∃ r, pagetableExpand pt target realloc = .ok r) ∧
    ∃ w, pagetableWrite pt vpn pfn prot realloc' = .ok w

/-! ## An empty table -/

section Empty
variable {pt : Pagetable}

theorem doubling_zero_endless {target : Nat} (h : 0 < target) (fuel : Nat) :
    whileLoop (fun n => decide (target > n)) (fun n => .ok (n * 2)) fuel 0 = .error .endless := by
  apply whileLoop_endless _ _ (· = 0)
  · rintro n rfl
    exact ⟨decide_eq_true h, 0, rfl, rfl⟩
  · rfl

/-- An expansion of an empty table gets into the loop, or leaves the table empty. -/
theorem pagetableExpand_empty (h : pt.numPages = 0) (target : Nat) (realloc : Option Block) :
    (WithinReach target ∧ pagetableExpand pt target realloc = .error .endless) ∨
    (¬ WithinReach target ∧ ∃ rc pt', pagetableExpand pt target realloc = .ok (rc, pt') ∧ pt'.numPages = 0) := by
  have hmax := maxPtLen_eq
  unfold pagetableExpand WithinReach
  rw [h]
  rcases Nat.lt_or_ge maxPtLen target with hlt | hle
  · rw [if_pos (.inr hlt)]
    exact .inr ⟨by omega, -1, pt, rfl, h⟩
  · rw [if_neg (by omega)]
    unfold doubleLoop
    rw [Nat.zero_mul]
    rcases Nat.eq_zero_or_pos target with rfl | hpos
    · rw [whileLoop_done _ _ (by decide) (by omega), ok_bind]
      refine .inr ⟨by omega, ?_⟩
      cases realloc with
      | none => exact ⟨-2, pt, rfl, h⟩
      | some blk => exact ⟨0, ⟨blk.base, []⟩, rfl, rfl⟩
    · rw [doubling_zero_endless hpos]
      exact .inl ⟨⟨hpos, hle⟩, rfl⟩

theorem pagetableWrite_empty (h : pt.numPages = 0) (vpn pfn prot : Nat) (realloc : Option Block) :
    (WithinReach vpn ∧ pagetableWrite pt vpn pfn prot realloc = .error .endless) ∨
    (¬ WithinReach vpn ∧ ∃ w, pagetableWrite pt vpn pfn prot realloc = .ok w ∧ w.after.numPages = 0) := by
  unfold pagetableWrite
  rw [h]
  by_cases hv : vpn > 0
  · rw [if_pos hv]
    rcases pagetableExpand_empty h vpn realloc with ⟨hr, he⟩ | ⟨hr, rc, pt', he, hn⟩
    · rw [he]
      exact .inl ⟨hr, rfl⟩
    · rw [he, ok_bind]
      refine .inr ⟨hr, ?_⟩
      split_ifs
      · exact ⟨_, rfl, hn⟩
      · exact ⟨_, rfl, by rw [Pagetable.numPages_store, hn]⟩
  · rw [if_neg hv]
    exact .inr ⟨fun hr => hv hr.1, _, rfl, by rw [Pagetable.numPages_store, h]⟩

theorem pagetableInsert_empty (h : pt.numPages = 0) (pfn prot : Nat) (realloc : Option Block) (beyond : Pte) :
    ∃ w, pagetableInsert pt pfn prot realloc beyond = .ok w ∧ w.after.numPages = 0 := by
  obtain ⟨p, hp, -⟩ := scanLoop_spec pt beyond
  unfold pagetableInsert
  rw [hp, ok_bind]
  split_ifs
  · rcases pagetableExpand_empty h 0 realloc with ⟨hr, -⟩ | ⟨-, rc, pt', he, hn⟩
    · exact absurd hr.1 (Nat.lt_irrefl 0)
    · rw [he, ok_bind]
      split_ifs
      · exact ⟨_, rfl, hn⟩
      · exact ⟨_, rfl, by rw [Pagetable.numPages_store, hn]⟩
  · exact ⟨_, rfl, by rw [Pagetable.numPages_store, h]⟩

/-- **A call on an empty table** does not end, or leaves it empty. -/
theorem tableStep_empty (h : pt.numPages = 0) (op : TableOp) :
    (Asks op ∧ tableStep pt op = .error .endless) ∨
    (¬ Asks op ∧ ∃ a pt', tableStep pt op = .ok (a, pt') ∧ pt'.numPages = 0) := by
  cases op with
  | write vpn pfn prot realloc =>
    rcases pagetableWrite_empty h vpn pfn prot realloc with ⟨hr, he⟩ | ⟨hr, w, he, hn⟩
    · exact .inl ⟨hr, by simp only [tableStep, he, error_bind]⟩
    · exact .inr ⟨hr, _, _, by simp only [tableStep, he, ok_bind]; rfl, hn⟩
  | expand target realloc =>
    rcases pagetableExpand_empty h target realloc with ⟨hr, he⟩ | ⟨hr, rc, pt', he, hn⟩
    · exact .inl ⟨hr, by simp only [tableStep, he, error_bind]⟩
    · exact .inr ⟨hr, _, _, by simp only [tableStep, he, ok_bind]; rfl, hn⟩
  | insert pfn prot realloc beyond =>
    obtain ⟨w, he, hn⟩ := pagetableInsert_empty h pfn prot realloc beyond
    exact .inr ⟨id, _, _, by simp only [tableStep, he, ok_bind]; rfl, hn⟩
  | remove page => exact .inr ⟨id, _, _, rfl, by simp only [pagetableRemove, Pagetable.numPages_store, h]⟩
  | getEntry vpn => exact .inr ⟨id, _, _, rfl, h⟩
  | frame page beyond =>
    refine .inr ⟨id, _, _, rfl, ?_⟩
    unfold pfnForPage
    split_ifs <;> exact h

end Empty

/-! ## Any table -/

section Table
variable {pt pt' : Pagetable}

theorem pagetableExpand_ends_iff (pt : Pagetable) (target : Nat) (realloc : Option Block) :
    (∃ r, pagetableExpand pt target realloc = .ok r) ↔ 0 < pt.numPages ∨ ¬ WithinReach target := by
  rcases Nat.eq_zero_or_pos pt.numPages with h | h0
  · rcases pagetableExpand_empty h target realloc with ⟨hr, he⟩ | ⟨hr, rc, pt', he, -⟩
    · exact iff_of_false (by simp [he]) (by simp [h, hr])
    · exact iff_of_true ⟨_, he⟩ (.inr hr)
  · refine iff_of_true ?_ (.inl h0)
    rcases pagetableExpand_cases h0 target realloc with ⟨he, -⟩ | ⟨he, -⟩ | ⟨blk, n, -, he, -⟩ <;> exact ⟨_, he⟩

theorem pagetableWrite_ends_iff (pt : Pagetable) (vpn pfn prot : Nat) (realloc : Option Block) :
    (∃ w, pagetableWrite pt vpn pfn prot realloc = .ok w) ↔ 0 < pt.numPages ∨ ¬ WithinReach vpn := by
  rcases Nat.eq_zero_or_pos pt.numPages with h | h0
  · rcases pagetableWrite_empty h vpn pfn prot realloc with ⟨hr, he⟩ | ⟨hr, w, he, -⟩
    · exact iff_of_false (by simp [he]) (by simp [h, hr])
    · exact iff_of_true ⟨_, he⟩ (.inr hr)
  · obtain ⟨w, hw, -⟩ := pagetableWrite_table h0 vpn pfn prot realloc
    exact iff_of_true ⟨w, hw⟩ (.inl h0)

theorem tableStep_ends_iff (pt : Pagetable) (op : TableOp) :
    (∃ a pt', tableStep pt op = .ok (a, pt')) ↔ 0 < pt.numPages ∨ ¬ Asks op := by
  rcases Nat.eq_zero_or_pos pt.numPages with h | h0
  · rcases tableStep_empty h op with ⟨hr, he⟩ | ⟨hr, a, pt', he, -⟩
    · exact iff_of_false (by simp [he]) (by simp [h, hr])
    · exact iff_of_true ⟨a, pt', he⟩ (.inr hr)
  · obtain ⟨a, pt', he, -⟩ := tableStep_ok h0 op
    exact iff_of_true ⟨a, pt', he⟩ (.inl h0)

/-- No call makes a first page, or takes the last one. -/
theorem tableStep_pos_iff {op : TableOp} {a : Answer} (hstep : tableStep pt op = .ok (a, pt')) :
    0 < pt'.numPages ↔ 0 < pt.numPages := by
  rcases Nat.eq_zero_or_pos pt.numPages with h | h0
  · rcases tableStep_empty h op with ⟨-, he⟩ | ⟨-, b, t, he, hn⟩
    · cases he.symm.trans hstep
    · cases he.symm.trans hstep
      rw [hn, h]
  · obtain ⟨b, t, he, hle⟩ := tableStep_ok h0 op
    cases he.symm.trans hstep
    exact iff_of_true (by omega) h0

end Table

/-! ## Runs -/

section Runs
variable {n : Nat} {pt₀ pt : Pagetable}

theorem run_ends_iff (h : Created n pt₀) (ops : List TableOp) :
    (∃ rs pt, tableMachine.run pt₀ ops = .ok (rs, pt)) ↔ ∀ op ∈ ops, 0 < n ∨ ¬ Asks op := by
  refine tableMachine.run_ok_iff (fun op => 0 < n ∨ ¬ Asks op) (fun pt => 0 < pt.numPages ↔ 0 < n)
    (fun pt op hI => ?_) (fun pt op a pt' hI hstep => (tableStep_pos_iff hstep).trans hI) ops pt₀ (by rw [h.numPages])
  rw [← hI]
  exact tableStep_ends_iff pt op

theorem run_pos_iff (h : Created n pt₀) {ops : List TableOp} {rs : List Answer}
    (hrun : tableMachine.run pt₀ ops = .ok (rs, pt)) : 0 < pt.numPages ↔ 0 < n :=
  tableMachine.run_inv (fun pt => 0 < pt.numPages ↔ 0 < n)
    (fun _ _ _ _ hI hstep => (tableStep_pos_iff hstep).trans hI) ops pt₀ rs pt hrun (by rw [h.numPages])

/-- **Growth ends for tables with a page.** For a table of `n` pages, any run of calls on it, any target and any page
number, the run, the expansion and the write end if and only if `n` is not 0, or none of them asks for a length that
a table can have. -/
theorem growthEnds_iff (h : Created n pt₀) (ops : List TableOp) (target vpn pfn prot : Nat)
    (realloc realloc' : Option Block) :
    GrowthEnds pt₀ ops target vpn pfn prot realloc realloc' ↔
      0 < n ∨ ((∀ op ∈ ops, ¬ Asks op) ∧ ¬ WithinReach target ∧ ¬ WithinReach vpn) := by
  constructor
  · rintro ⟨rs, pt, hrun, hexpand, hwrite⟩
    have hpos := run_pos_iff h hrun
    rw [pagetableExpand_ends_iff, hpos] at hexpand
    rw [pagetableWrite_ends_iff, hpos] at hwrite
    rcases Nat.eq_zero_or_pos n with h0 | h0
    · have hnot := not_lt.mpr (Nat.le_of_eq h0)
      exact .inr ⟨fun op hop => ((run_ends_iff h ops).mp ⟨rs, pt, hrun⟩ op hop).resolve_left hnot,
        hexpand.resolve_left hnot, hwrite.resolve_left hnot⟩
    · exact .inl h0
  · intro hc
    obtain ⟨rs, pt, hrun⟩ := (run_ends_iff h ops).mpr fun op hop => hc.imp id fun hc => hc.1 op hop
    have hpos := run_pos_iff h hrun
    refine ⟨rs, pt, hrun, (pagetableExpand_ends_iff ..).mpr ?_, (pagetableWrite_ends_iff ..).mpr ?_⟩
    · rw [hpos]
      exact hc.imp id fun hc => hc.2.1
    · rw [hpos]
      exact hc.imp id fun hc => hc.2.2

theorem growthEnds_iff_one :
    GrowthEnds ⟨0x100, [.empty]⟩ [.write 3 5 protRead none, .expand 100 none] 128 7 5 protRead none none ↔
      0 < 1 ∨ ((∀ op ∈ [TableOp.write 3 5 protRead none, .expand 100 none], ¬ Asks op) ∧ ¬ WithinReach 128 ∧
        ¬ WithinReach 7) :=
  growthEnds_iff ⟨0x100, by decide⟩ _ _ _ _ _ _ _

/-- On the table that `pagetableCreate(0)` returns, asking for a page never ends. -/
theorem growthEnds_fails_empty : Created 0 ⟨0x100, []⟩ ∧
    (∀ fuel, whileLoop (fun n => decide (1 > n)) (fun n => .ok (n * 2)) fuel (0 * 2) = .error .endless) ∧
    pagetableExpand ⟨0x100, []⟩ 1 none = .error .endless ∧
    pagetableWrite ⟨0x100, []⟩ 1 5 protRead none = .error .endless ∧
    ¬ GrowthEnds ⟨0x100, []⟩ [] 1 1 5 protRead none none := by
  have hreach : WithinReach 1 := ⟨by decide, by decide⟩
  refine ⟨⟨0x100, by decide⟩, doubling_zero_endless (by decide), by decide,
    ((pagetableWrite_empty rfl 1 5 protRead none).resolve_right fun h => h.1 hreach).2, ?_⟩
  rintro ⟨rs, pt, hrun, ⟨r, he⟩, -⟩
  cases hrun
  cases (show pagetableExpand ⟨0x100, []⟩ 1 none = .error .endless by decide).symm.trans he

end Runs

end MooseOS
