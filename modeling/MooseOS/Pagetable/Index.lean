import MooseOS.Pagetable.Runs

/-!
# Index safety of the page table

`pagetableWrite`, `pagetableGetEntry` and `pfnForPage` all test a page with `>` where `numPages` is the first
index outside, and an expansion may end exactly at the page that asked for it. `ReachesEnd` says when a call
reaches the cell past the end; `indexSafe_iff` : it is the only way to leave the table.
-/

namespace MooseOS
open Prog

/-- The calls for the page `v` access cells of the table only, and a write refuses exactly the pages that no
table can hold. -/
structure IndexSafe (pt : Pagetable) (v pfn prot : Nat) (realloc : Option Block) (beyond : Pte) : Prop where
  write : ∃ w, pagetableWrite pt v pfn prot realloc = .ok w ∧ w.inside = true ∧
    (v < maxPtLen → realloc.isSome = true → v < w.after.numPages) ∧
    (maxPtLen ≤ v → w.val = .failed ∧ w.after = pt)
  getEntry : ∀ i, pagetableGetEntry pt v = some i → i < pt.numPages
  frame : (pfnForPage pt v beyond).inside = true

/-- The page `v` is the first one past the end of a table of `L` pages, or past the end of the table that an
expansion up to `v` leaves. -/
def ReachesEnd (L v : Nat) (realloc : Option Block) : Prop :=
  v = L ∨ (L < v ∧ v ≤ maxPtLen ∧ realloc.isSome = true ∧ (v = maxPtLen ∨ ∃ k, v = L * 2 ^ k))

/-- An expansion ends at the page that asked for it when that page is the cap or a doubling of the length. -/
theorem Doubled.eq_target_iff {L v n : Nat} (h : Doubled L v n) (hL : L < v) (hv : v ≤ maxPtLen) :
    n = v ↔ v = maxPtLen ∨ ∃ k, v = L * 2 ^ k := by
  obtain ⟨k, hk, rfl, hle, hlt⟩ := h
  constructor
  · intro he
    by_cases hc : L * 2 ^ k ≤ maxPtLen
    · exact .inr ⟨k, by omega⟩
    · exact .inl (by omega)
  · rintro (hm | ⟨j, hj⟩)
    · omega
    · have hj1 : 1 ≤ j := by
        rcases Nat.eq_zero_or_pos j with rfl | h
        · simp at hj
          omega
        · exact h
      have hkj : k ≤ j := by
        by_contra hne
        have := hlt j hj1 (by omega)
        omega
      have hmono : L * 2 ^ k ≤ L * 2 ^ j := Nat.mul_le_mul_left L (Nat.pow_le_pow_right (by omega) hkj)
      omega

theorem not_indexSafe_end (pt : Pagetable) (pfn prot : Nat) (realloc : Option Block) (beyond : Pte) :
    ¬ IndexSafe pt pt.numPages pfn prot realloc beyond := fun h => by
  have := h.getEntry pt.numPages (by simp [pagetableGetEntry])
  omega

theorem lookups_inside {pt : Pagetable} {v : Nat} (hv : v ≠ pt.numPages) (beyond : Pte) :
    (∀ i, pagetableGetEntry pt v = some i → i < pt.numPages) ∧ (pfnForPage pt v beyond).inside = true := by
  constructor
  · intro i hi
    unfold pagetableGetEntry at hi
    split at hi
    · cases hi
    · cases hi
      omega
  · unfold pfnForPage
    split
    · rfl
    · exact decide_eq_true (by omega)

/-- **One table.** The calls for a page are safe unless they reach the end. -/
theorem indexSafe_iff_of_numPages {pt : Pagetable} (h0 : 0 < pt.numPages) (hmax : pt.numPages ≤ maxPtLen)
    (v pfn prot : Nat) (realloc : Option Block) (beyond : Pte) :
    IndexSafe pt v pfn prot realloc beyond ↔ ¬ ReachesEnd pt.numPages v realloc := by
  by_cases hv : v = pt.numPages
  · subst hv
    exact iff_of_false (not_indexSafe_end pt pfn prot realloc beyond) (not_not_intro (.inl rfl))
  obtain ⟨hget, hframe⟩ := lookups_inside hv beyond
  rcases pagetableWrite_cases h0 v pfn prot realloc with ⟨he, hle⟩ | ⟨he, hlt, hr⟩ |
    ⟨blk, n, rfl, he, hlt, hL, hvm, hd⟩
  · have hlt : v < pt.numPages := by omega
    refine iff_of_true ⟨⟨_, he, decide_eq_true hlt, fun _ _ => by simpa using hlt, by omega⟩, hget, hframe⟩ ?_
    rintro (h | ⟨h, -⟩) <;> omega
  · refine iff_of_true ⟨⟨_, he, rfl, fun hv' hs => ?_, fun _ => ⟨rfl, rfl⟩⟩, hget, hframe⟩ ?_
    · rcases hr with h | h | rfl
      · omega
      · omega
      · cases hs
    · rintro (h | ⟨-, h, hs, -⟩)
      · omega
      · rcases hr with h' | h' | rfl
        · omega
        · omega
        · cases hs
  · have hn := hd.numPages_grown h0 hL blk.base
    have heq := hd.eq_target_iff hlt hvm
    constructor
    · rintro ⟨⟨w, hw, hin, -⟩, -, -⟩
      rw [he] at hw
      cases hw
      have hvn : v < n := of_decide_eq_true hin
      rintro (h | ⟨-, -, -, h⟩)
      · exact hv h
      · have := heq.mpr h
        omega
    · intro hne
      have hvn : v < n := by
        have hle := hd.target_le hvm
        rcases Nat.lt_or_ge v n with h | h
        · exact h
        · exact absurd (.inr ⟨hlt, hvm, rfl, heq.mp (by omega)⟩) hne
      refine ⟨⟨_, he, decide_eq_true hvn, fun _ _ => by simpa [hn] using hvn, fun hge => ?_⟩, hget, hframe⟩
      have := hd.le_max
      omega

/-! ## Reachable tables -/

def TableOp.IsWrite : TableOp → Prop
  | .write .. => True
  | _ => False

theorem run_writes {n : Nat} (hn : 1 ≤ n) (hmax : n ≤ maxPtLen) {pt₀ : Pagetable} (hc : Created n pt₀)
    (ops : List TableOp) (hw : ∀ op ∈ ops, op.IsWrite) :
    ∃ rs pt, tableMachine.run pt₀ ops = .ok (rs, pt) ∧ 0 < pt.numPages ∧ pt.numPages ≤ maxPtLen := by
  refine tableMachine.run_total TableOp.IsWrite (fun pt => 0 < pt.numPages ∧ pt.numPages ≤ maxPtLen)
    (fun pt op h hop => ?_) ops pt₀ hw (by rw [hc.numPages]; exact ⟨hn, hmax⟩)
  cases op with
  | write vpn pfn prot realloc =>
    obtain ⟨w, hw, hc⟩ := pagetableWrite_table h.1 vpn pfn prot realloc
    exact ⟨_, _, by simp only [tableMachine, tableStep, hw, ok_bind]; rfl, by omega⟩
  | _ => exact hop.elim

/-- **Index safety.** After every run of writes on a created table, the calls for a page stay inside the table
if and only if they do not reach its end. -/
theorem indexSafe_iff {n : Nat} (hn : 1 ≤ n) (hmax : n ≤ maxPtLen) {pt₀ : Pagetable} (hc : Created n pt₀)
    (ops : List TableOp) (hw : ∀ op ∈ ops, op.IsWrite) :
    ∃ rs pt, tableMachine.run pt₀ ops = .ok (rs, pt) ∧ ∀ v pfn prot realloc beyond,
      IndexSafe pt v pfn prot realloc beyond ↔ ¬ ReachesEnd pt.numPages v realloc := by
  obtain ⟨rs, pt, hrun, h0, hle⟩ := run_writes hn hmax hc ops hw
  exact ⟨rs, pt, hrun, fun v pfn prot realloc beyond => indexSafe_iff_of_numPages h0 hle v pfn prot realloc beyond⟩

theorem indexSafe_iff_four : ∃ rs pt,
    tableMachine.run ⟨0x1000, List.replicate 4 .empty⟩ [.write 6 9 3 (some ⟨0x2000, fun _ => .empty⟩)] =
      .ok (rs, pt) ∧
    ∀ v pfn prot realloc beyond, IndexSafe pt v pfn prot realloc beyond ↔ ¬ ReachesEnd pt.numPages v realloc :=
  indexSafe_iff (n := 4) (by decide) (by decide) ((created_iff _ _).mpr ⟨0x1000, rfl⟩) _ (by simp [TableOp.IsWrite])

theorem indexSafe_fails_at_end : Created 4 ⟨0x1000, List.replicate 4 .empty⟩ ∧
    (∃ w, pagetableWrite ⟨0x1000, List.replicate 4 .empty⟩ 4 9 3 none = .ok w ∧ w.inside = false) ∧
    ¬ IndexSafe ⟨0x1000, List.replicate 4 .empty⟩ 4 9 3 none .empty :=
  ⟨(created_iff _ _).mpr ⟨0x1000, rfl⟩, ⟨_, rfl, rfl⟩,
    not_indexSafe_end ⟨0x1000, List.replicate 4 .empty⟩ 9 3 none .empty⟩

end MooseOS
