import MooseOS.Pagetable.Basic

/-!
# What each routine of the page table does

* `clearLoop_spec`, `doubleLoop_spec` : the two loops of an expansion;
* `Doubled L target n` : `n` is the length that an expansion of `L` pages up to `target` gives;
* `pagetableExpand_cases` : the three ways a call of `pagetableExpand` can end;
* `pagetableWrite_cases` : the three ways a call of `pagetableWrite` can end;
* `pagetableWrite_table` : a call of `pagetableWrite` expands the table, or keeps its block;
* `scanLoop_spec`, `pagetableInsert_cases` : the same for `pagetableInsert`.
-/

namespace MooseOS
open Prog

/-! ## Cells -/

namespace Pagetable
variable (pt : Pagetable) (i j : Nat) (e : Pte) (valid : Bool)

@[simp] theorem numPages_store : (pt.store i e).numPages = pt.numPages := by simp [store, numPages]

@[simp] theorem base_store : (pt.store i e).base = pt.base := rfl

@[simp] theorem numPages_setValid : (pt.setValid i valid).numPages = pt.numPages := by
  simp [setValid, numPages]

theorem read_of_lt {pt : Pagetable} {i : Nat} (beyond : Pte) (h : i < pt.numPages) :
    pt.read beyond i = pt.entry i := by
  simp [read, entry, List.getElem?_eq_getElem (show i < pt.table.length from h)]

theorem entry_store {pt : Pagetable} {i : Nat} (h : i < pt.numPages) :
    (pt.store i e).entry j = if j = i then e else pt.entry j := by
  have h' : i < pt.table.length := h
  simp only [entry, store, List.getD_eq_getElem?_getD, List.getElem?_set, h', if_true]
  by_cases hij : i = j
  · simp [hij]
  · simp [hij, Ne.symm hij]

/-- A store outside the table changes nothing that is modelled. -/
theorem store_of_le {pt : Pagetable} {i : Nat} (h : pt.numPages ≤ i) : pt.store i e = pt := by
  simp [store, List.set_eq_of_length_le (show pt.table.length ≤ i from h)]

theorem entry_setValid : (pt.setValid i valid).entry j =
    if j = i ∧ i < pt.numPages then { pt.entry j with valid := valid } else pt.entry j := by
  simp only [entry, setValid, numPages, List.getD_eq_getElem?_getD, List.getElem?_modify]
  by_cases hij : i = j
  · subst hij
    by_cases hi : i < pt.table.length
    · simp [hi]
    · simp [hi]
  · simp [hij, Ne.symm hij]

end Pagetable

/-! ## The loops of an expansion -/

theorem set_clear {α : Type} (l : List α) (e : α) {i j : Nat} (hij : i ≤ j) (hj : j < l.length) :
    (l.take i ++ List.replicate (j - i) e ++ l.drop j).set j e =
      l.take i ++ List.replicate (j + 1 - i) e ++ l.drop (j + 1) := by
  have hlen : (l.take i ++ List.replicate (j - i) e).length = j := by simp; omega
  rw [List.set_append_right _ _ (by omega), hlen, Nat.sub_self, List.drop_eq_getElem_cons hj,
    List.set_cons_zero, show j + 1 - i = (j - i) + 1 by omega, List.replicate_succ']
  simp

theorem clearLoop_spec {i n : Nat} {cells : List Pte} (hi : i ≤ n) (hlen : cells.length = n) :
    clearLoop i n cells = .ok (cells.take i ++ List.replicate (n - i) .empty) := by
  obtain ⟨s, hs, ⟨h1, h2, h3⟩, hc⟩ := whileLoop_total
    (fun s : Nat × List Pte => decide (s.1 < n)) (fun s => .ok (s.1 + 1, s.2.set s.1 .empty))
    (fun s => i ≤ s.1 ∧ s.1 ≤ n ∧ s.2 = cells.take i ++ List.replicate (s.1 - i) .empty ++ cells.drop s.1)
    (fun s => n - s.1)
    (by
      intro s ⟨h1, h2, h3⟩ hc
      have hj : s.1 < n := of_decide_eq_true hc
      refine ⟨_, rfl, ⟨?_, ?_, ?_⟩, ?_⟩
      · simp only; omega
      · simp only; omega
      · simp only [h3]
        exact set_clear _ _ h1 (by omega)
      · simp only; omega)
    (n + 1) (i, cells) ⟨by simp, hi, by simp⟩ (by simp only; omega)
  have hn : s.1 = n := by
    have := of_decide_eq_false hc
    omega
  unfold clearLoop
  simp only [hs, ok_bind, h3, hn, List.drop_eq_nil_of_le (Nat.le_of_eq hlen), List.append_nil]

/-- The doubling loop ends at the first doubling that reaches the target. -/
theorem doubleLoop_spec (target : Nat) {n : Nat} (hn : 0 < n) :
    ∃ k, doubleLoop target n = .ok (n * 2 ^ k) ∧ target ≤ n * 2 ^ k ∧ ∀ j < k, n * 2 ^ j < target := by
  obtain ⟨m, hm, ⟨k, rfl, hk⟩, hc⟩ := whileLoop_total
    (fun n => decide (target > n)) (fun n => .ok (n * 2))
    (fun m => ∃ k, m = n * 2 ^ k ∧ ∀ j < k, n * 2 ^ j < target) (fun m => target - m)
    (by
      rintro m ⟨k, rfl, hk⟩ hc
      have hlt : n * 2 ^ k < target := of_decide_eq_true hc
      have hpos : 0 < n * 2 ^ k := Nat.mul_pos hn (Nat.two_pow_pos k)
      refine ⟨_, rfl, ⟨k + 1, by rw [pow_succ, Nat.mul_assoc], fun j hj => ?_⟩, by omega⟩
      rcases Nat.lt_succ_iff_lt_or_eq.mp hj with h | rfl
      · exact hk j h
      · exact hlt)
    (target + 1) n ⟨0, by simp, by omega⟩ (by omega)
  exact ⟨k, hm, Nat.le_of_not_lt (of_decide_eq_false hc), hk⟩

/-- `n` is the length that an expansion gives a table of `L` pages: the first of the doublings of `L` that
reaches the target, capped at the maximal length. -/
def Doubled (L target n : Nat) : Prop :=
  ∃ k, 1 ≤ k ∧ n = min (L * 2 ^ k) maxPtLen ∧ target ≤ L * 2 ^ k ∧ ∀ j, 1 ≤ j → j < k → L * 2 ^ j < target

theorem Doubled.lt {L target n : Nat} (h : Doubled L target n) (h0 : 0 < L) (hL : L < maxPtLen) : L < n := by
  obtain ⟨k, hk, rfl, -, -⟩ := h
  have h2 : 2 ≤ 2 ^ k := by simpa using Nat.pow_le_pow_right (show 0 < 2 by omega) hk
  have := Nat.mul_le_mul_left L h2
  omega

theorem Doubled.target_le {L target n : Nat} (h : Doubled L target n) (ht : target ≤ maxPtLen) : target ≤ n := by
  obtain ⟨k, -, rfl, hk, -⟩ := h
  omega

theorem Doubled.le_max {L target n : Nat} (h : Doubled L target n) : n ≤ maxPtLen := by
  obtain ⟨k, -, rfl, -, -⟩ := h
  omega

/-! ## `pagetableExpand` -/

/-- The table after a successful expansion: the old cells, and empty ones up to the new length. -/
def Pagetable.grown (pt : Pagetable) (base : Word) (n : Nat) : Pagetable :=
  ⟨base, pt.table ++ List.replicate (n - pt.numPages) .empty⟩

theorem Pagetable.numPages_grown {pt : Pagetable} (base : Word) {n : Nat} (h : pt.numPages ≤ n) :
    (pt.grown base n).numPages = n := by
  have h' : pt.table.length ≤ n := h
  simp [grown, numPages]
  omega

theorem Doubled.numPages_grown {pt : Pagetable} {target n : Nat} (h : Doubled pt.numPages target n)
    (h0 : 0 < pt.numPages) (hL : pt.numPages < maxPtLen) (base : Word) : (pt.grown base n).numPages = n :=
  Pagetable.numPages_grown base (Nat.le_of_lt (h.lt h0 hL))

@[simp] theorem Pagetable.entry_grown (pt : Pagetable) (base : Word) (n i : Nat) :
    (pt.grown base n).entry i = pt.entry i := by
  simp only [grown, entry, List.getD_eq_getElem?_getD]
  by_cases hi : i < pt.table.length
  · rw [List.getElem?_append_left hi]
  · rw [List.getElem?_append_right (Nat.le_of_not_lt hi), List.getElem?_eq_none (Nat.le_of_not_lt hi),
      List.getElem?_replicate]
    split <;> rfl

@[simp] theorem Block.length_cells (blk : Block) (old : List Pte) (n : Nat) : (blk.cells old n).length = n := by
  simp [cells]

theorem Block.take_cells (blk : Block) (old : List Pte) {n : Nat} (h : old.length ≤ n) :
    (blk.cells old n).take old.length = old := by
  refine List.ext_getElem (by simp [cells]; omega) fun i h₁ h₂ => ?_
  simp [cells, List.getElem?_eq_getElem h₂]

/-- **Expansion.** The call refuses, runs out of memory, or lengthens the table and keeps its cells. -/
theorem pagetableExpand_cases {pt : Pagetable} (h0 : 0 < pt.numPages) (target : Nat) (realloc : Option Block) :
    (pagetableExpand pt target realloc = .ok (-1, pt) ∧ (maxPtLen ≤ pt.numPages ∨ maxPtLen < target)) ∨
    (pagetableExpand pt target realloc = .ok (-2, pt) ∧ pt.numPages < maxPtLen ∧ target ≤ maxPtLen ∧
      realloc = none) ∨
    (∃ blk n, realloc = some blk ∧ pagetableExpand pt target realloc = .ok (0, pt.grown blk.base n) ∧
      pt.numPages < maxPtLen ∧ target ≤ maxPtLen ∧ Doubled pt.numPages target n) := by
  unfold pagetableExpand
  by_cases hr : pt.numPages ≥ maxPtLen ∨ target > maxPtLen
  · exact .inl ⟨if_pos hr, hr⟩
  · rw [if_neg hr]
    obtain ⟨k, hk, hle, hlt⟩ := doubleLoop_spec target (n := pt.numPages * 2) (by omega)
    have hd : Doubled pt.numPages target (min (pt.numPages * 2 * 2 ^ k) maxPtLen) := by
      refine ⟨k + 1, by omega, by rw [pow_succ', Nat.mul_assoc], by rw [pow_succ', ← Nat.mul_assoc]; exact hle,
        fun j hj hjk => ?_⟩
      obtain ⟨j, rfl⟩ : ∃ i, j = i + 1 := ⟨j - 1, by omega⟩
      rw [pow_succ', ← Nat.mul_assoc]
      exact hlt j (by omega)
    simp only [hk, ok_bind]
    cases realloc with
    | none => exact .inr (.inl ⟨rfl, by omega, by omega, rfl⟩)
    | some blk =>
      refine .inr (.inr ⟨blk, _, rfl, ?_, by omega, by omega, hd⟩)
      have hle' : pt.numPages ≤ min (pt.numPages * 2 * 2 ^ k) maxPtLen :=
        Nat.le_of_lt (hd.lt h0 (by omega))
      have htake : (blk.cells pt.table (min (pt.numPages * 2 * 2 ^ k) maxPtLen)).take pt.numPages = pt.table :=
        Block.take_cells blk pt.table hle'
      simp only [clearLoop_spec hle' (blk.length_cells pt.table _), ok_bind, htake]
      rfl

/-! ## `pagetableWrite` -/

/-- **Writing.** A page up to `numPages` is stored in place, and a later one after an expansion; where that
is refused the table stays. -/
theorem pagetableWrite_cases {pt : Pagetable} (h0 : 0 < pt.numPages) (vpn pfn prot : Nat)
    (realloc : Option Block) :
    (pagetableWrite pt vpn pfn prot realloc =
        .ok ⟨.nominal, pt.store vpn (.mapped pfn prot), decide (vpn < pt.numPages)⟩ ∧ vpn ≤ pt.numPages) ∨
    (pagetableWrite pt vpn pfn prot realloc = .ok ⟨.failed, pt, true⟩ ∧ pt.numPages < vpn ∧
      (maxPtLen ≤ pt.numPages ∨ maxPtLen < vpn ∨ realloc = none)) ∨
    (∃ blk n, realloc = some blk ∧ pagetableWrite pt vpn pfn prot realloc =
        .ok ⟨.expanded, (pt.grown blk.base n).store vpn (.mapped pfn prot), decide (vpn < n)⟩ ∧
      pt.numPages < vpn ∧ pt.numPages < maxPtLen ∧ vpn ≤ maxPtLen ∧ Doubled pt.numPages vpn n) := by
  unfold pagetableWrite
  by_cases hv : vpn > pt.numPages
  · simp only [if_pos hv]
    rcases pagetableExpand_cases h0 vpn realloc with ⟨he, hc⟩ | ⟨he, h1, h2, hr⟩ | ⟨blk, n, rfl, he, h1, h2, hd⟩
    · exact .inr (.inl ⟨by simp [he], hv, by omega⟩)
    · exact .inr (.inl ⟨by simp [he], hv, .inr (.inr hr)⟩)
    · refine .inr (.inr ⟨blk, n, rfl, ?_, hv, h1, h2, hd⟩)
      simp [he, hd.numPages_grown h0 h1]
  · exact .inl ⟨if_neg hv, by omega⟩

theorem pagetableWrite_of_lt {pt : Pagetable} {vpn : Nat} (h : vpn < pt.numPages) (pfn prot : Nat)
    (realloc : Option Block) :
    pagetableWrite pt vpn pfn prot realloc = .ok ⟨.nominal, pt.store vpn (.mapped pfn prot), true⟩ := by
  simp [pagetableWrite, h, Nat.le_of_lt h]

/-- Writing page `vpn` expands the table. -/
def Expands (pt : Pagetable) (vpn : Nat) (realloc : Option Block) : Prop :=
  pt.numPages < vpn ∧ vpn ≤ maxPtLen ∧ realloc ≠ none

/-- A write expands the table, or keeps its block and tells so. -/
theorem pagetableWrite_table {pt : Pagetable} (h0 : 0 < pt.numPages) (vpn pfn prot : Nat) (realloc : Option Block) :
    ∃ w, pagetableWrite pt vpn pfn prot realloc = .ok w ∧
      ((¬ Expands pt vpn realloc ∧ w.after.numPages = pt.numPages ∧ w.after.base = pt.base ∧
          w.val = if vpn ≤ pt.numPages then .nominal else .failed) ∨
        (Expands pt vpn realloc ∧ w.val = .expanded ∧ pt.numPages < w.after.numPages ∧ vpn ≤ w.after.numPages ∧
          w.after.numPages ≤ maxPtLen)) := by
  rcases pagetableWrite_cases h0 vpn pfn prot realloc with ⟨hw, hc⟩ | ⟨hw, hlt, hc⟩ |
    ⟨blk, n, rfl, hw, hlt, hmax, hv, hd⟩
  · exact ⟨_, hw, .inl ⟨fun h => by have := h.1; omega, by simp, rfl, (if_pos hc).symm⟩⟩
  · refine ⟨_, hw, .inl ⟨fun h => ?_, rfl, rfl, (if_neg (by omega)).symm⟩⟩
    rcases hc with hc | hc | hc
    · have := h.2.1; omega
    · have := h.2.1; omega
    · exact h.2.2 hc
  · have hn : ((pt.grown blk.base n).store vpn (.mapped pfn prot)).numPages = n := by
      rw [Pagetable.numPages_store, hd.numPages_grown h0 hmax]
    exact ⟨_, hw, .inr ⟨⟨hlt, hv, by simp⟩, rfl, by simp only [hn]; exact hd.lt h0 hmax,
      by simp only [hn]; exact hd.target_le hv, by simp only [hn]; exact hd.le_max⟩⟩

/-! ## `pagetableInsert` -/

/-- The scan stops at the first valid page, and at `numPages` where there is none. -/
theorem scanLoop_spec (pt : Pagetable) (beyond : Pte) :
    ∃ p, scanLoop pt beyond 0 = .ok p ∧ p ≤ pt.numPages ∧ (∀ i < p, (pt.entry i).valid = false) ∧
      (p < pt.numPages → (pt.entry p).valid = true) := by
  obtain ⟨p, hp, ⟨h1, h2⟩, hc⟩ := whileLoop_total
    (fun p => !(pt.read beyond p).valid && decide (p < pt.numPages)) (fun p => .ok (p + 1))
    (fun p => p ≤ pt.numPages ∧ ∀ i < p, (pt.entry i).valid = false) (fun p => pt.numPages - p)
    (by
      intro p ⟨h1, h2⟩ hc
      simp only [Bool.and_eq_true, Bool.not_eq_true', decide_eq_true_eq] at hc
      refine ⟨_, rfl, ⟨hc.2, fun i hi => ?_⟩, by omega⟩
      rcases Nat.lt_succ_iff_lt_or_eq.mp hi with h | rfl
      · exact h2 i h
      · rw [← Pagetable.read_of_lt beyond hc.2]
        exact hc.1)
    (pt.numPages + 1) 0 ⟨by omega, by omega⟩ (by omega)
  refine ⟨p, hp, h1, h2, fun hlt => ?_⟩
  simpa [hlt, Pagetable.read_of_lt beyond hlt] using hc

/-- **Inserting.** The call looks at the page `p` where the scan stopped. An invalid one is the page past the
end; otherwise the entry goes to the old end of an expanded table. -/
theorem pagetableInsert_cases {pt : Pagetable} (h0 : 0 < pt.numPages) (pfn prot : Nat) (realloc : Option Block)
    (beyond : Pte) :
    ∃ p, p ≤ pt.numPages ∧ (∀ i < p, (pt.entry i).valid = false) ∧
      (p < pt.numPages → (pt.entry p).valid = true) ∧
      ((pagetableInsert pt pfn prot realloc beyond =
          .ok ⟨(p, .nominal), pt.store p (.mapped pfn prot), decide (p < pt.numPages)⟩ ∧ p = pt.numPages ∧
          beyond.valid = false) ∨
        (pagetableInsert pt pfn prot realloc beyond = .ok ⟨(0, .failed), pt, decide (p < pt.numPages)⟩ ∧
          (maxPtLen ≤ pt.numPages ∨ realloc = none)) ∨
        (∃ blk n, realloc = some blk ∧ pagetableInsert pt pfn prot realloc beyond =
            .ok ⟨(pt.numPages, .expanded), (pt.grown blk.base n).store pt.numPages (.mapped pfn prot),
              decide (p < pt.numPages)⟩ ∧
          pt.numPages < maxPtLen ∧ Doubled pt.numPages 0 n)) := by
  obtain ⟨p, hp, h1, h2, h3⟩ := scanLoop_spec pt beyond
  refine ⟨p, h1, h2, h3, ?_⟩
  unfold pagetableInsert
  simp only [hp, ok_bind]
  cases hv : (pt.read beyond p).valid with
  | false =>
    have hpe : p = pt.numPages := by
      by_contra hne
      have hlt : p < pt.numPages := by omega
      rw [Pagetable.read_of_lt beyond hlt, h3 hlt] at hv
      cases hv
    refine .inl ⟨by simp, hpe, ?_⟩
    rw [hpe] at hv
    simpa [Pagetable.read, Pagetable.numPages] using hv
  | true =>
    rcases pagetableExpand_cases h0 0 realloc with ⟨he, hc⟩ | ⟨he, -, -, hr⟩ | ⟨blk, n, rfl, he, h4, -, hd⟩
    · exact .inr (.inl ⟨by simp [he], .inl (by omega)⟩)
    · exact .inr (.inl ⟨by simp [he], .inr hr⟩)
    · refine .inr (.inr ⟨blk, n, rfl, ?_, h4, hd⟩)
      simp [he, hd.numPages_grown h0 h4, hd.lt h0 h4]

end MooseOS
