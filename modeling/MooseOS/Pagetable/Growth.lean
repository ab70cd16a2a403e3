import MooseOS.Pagetable.Spec

/-!
# The capped doubling

* `DoublingValue L target n` : `n` is a value of the variable that `pagetableExpand` doubles;
* `Expanded pt target pt'` : `pt'` is `pt` in a block of the capped doubling, with its cells and empty ones;
* `pagetableExpand_capped` : the return code says which of the three outcomes an expansion had.
-/

namespace MooseOS
open Prog

/-- On the way to a length of at least `target`, the variable `numPages` of an expansion of `L` pages takes the
value `n`. -/
def DoublingValue (L target n : Nat) : Prop :=
  Visits (fun n => decide (target > n)) (fun n => .ok (n * 2)) (L * 2) n

theorem DoublingValue.lt {L target n : Nat} (h : DoublingValue L target n) (hL : L < maxPtLen)
    (ht : target ≤ maxPtLen) : n < 2 * maxPtLen := by
  refine Visits.inv (· < 2 * maxPtLen) (fun s t _ hc hb => ?_) h (by omega)
  have hlt : target > s := of_decide_eq_true hc
  cases hb
  omega

/-- The table `pt'` has the first doubling of the length of `pt` that reaches the target, capped, and the cells of `pt`
before empty ones. -/
structure Expanded (pt : Pagetable) (target : Nat) (pt' : Pagetable) : Prop where
  length : ∃ k, IsLeast {k | 1 ≤ k ∧ target ≤ pt.numPages * 2 ^ k} k ∧
    pt'.numPages = min (pt.numPages * 2 ^ k) maxPtLen
  longer : pt.numPages < pt'.numPages
  enough : target ≤ pt'.numPages
  capped : pt'.numPages ≤ maxPtLen
  kept : ∀ i < pt.numPages, pt'.entry i = pt.entry i
  cleared : ∀ i, pt.numPages ≤ i → pt'.entry i = .empty

section Growth
variable {pt : Pagetable} {target n : Nat}

theorem Doubled.isLeast {L : Nat} (h : Doubled L target n) :
    ∃ k, IsLeast {k | 1 ≤ k ∧ target ≤ L * 2 ^ k} k ∧ n = min (L * 2 ^ k) maxPtLen := by
  obtain ⟨k, hk, hn, hle, hlt⟩ := h
  refine ⟨k, ⟨⟨hk, hle⟩, ?_⟩, hn⟩
  intro j hj
  by_contra hjk
  exact Nat.not_lt.mpr hj.2 (hlt j hj.1 (Nat.not_le.mp hjk))

theorem entry_of_le {i : Nat} (h : pt.numPages ≤ i) : pt.entry i = .empty := by
  simp [Pagetable.entry, List.getElem?_eq_none (show pt.table.length ≤ i from h)]

theorem Doubled.expanded (h : Doubled pt.numPages target n) (h0 : 0 < pt.numPages) (hL : pt.numPages < maxPtLen)
    (ht : target ≤ maxPtLen) (base : Word) : Expanded pt target (pt.grown base n) := by
  have hnum := h.numPages_grown h0 hL base
  refine ⟨?_, ?_, ?_, ?_, fun i _ => Pagetable.entry_grown .., fun i hi => ?_⟩
  · rw [hnum]
    exact h.isLeast
  · rw [hnum]
    exact h.lt h0 hL
  · rw [hnum]
    exact h.target_le ht
  · rw [hnum]
    exact h.le_max
  · rw [Pagetable.entry_grown, entry_of_le hi]

/-- **Expansion.** On a table with a page the call returns. It returns -1 exactly if the table or the target is too
long, and -2 exactly if there is no memory, and then the table is as it was; no doubling overflows an `int`; and where
it returns 0 the table is expanded. -/
theorem pagetableExpand_capped (h0 : 0 < pt.numPages) (target : Nat) (realloc : Option Block) :
    ∃ rc pt', pagetableExpand pt target realloc = .ok (rc, pt') ∧
      (rc = -1 ↔ maxPtLen ≤ pt.numPages ∨ maxPtLen < target) ∧
      (rc = -2 ↔ ¬ (maxPtLen ≤ pt.numPages ∨ maxPtLen < target) ∧ realloc = none) ∧
      (rc = -1 ∨ rc = -2 → pt' = pt) ∧
      (rc ≠ -1 → ∀ n, DoublingValue pt.numPages target n → n < 2 ^ 31) ∧
      (rc ≠ -1 → rc ≠ -2 → rc = 0 ∧ Expanded pt target pt') := by
  have hmax := maxPtLen_eq
  rcases pagetableExpand_cases h0 target realloc with ⟨he, hc⟩ | ⟨he, hL, ht, hr⟩ | ⟨blk, n, rfl, he, hL, ht, hd⟩
  · refine ⟨-1, pt, he, iff_of_true rfl hc, iff_of_false (by decide) fun h => h.1 hc, fun _ => rfl,
      fun h => absurd rfl h, fun h => absurd rfl h⟩
  · refine ⟨-2, pt, he, iff_of_false (by decide) (by omega), iff_of_true rfl ⟨by omega, hr⟩, fun _ => rfl,
      fun _ n hn => ?_, fun _ h => absurd rfl h⟩
    have := hn.lt hL ht
    omega
  · refine ⟨0, _, he, iff_of_false (by decide) (by omega), iff_of_false (by decide) (by simp), ?_, fun _ n hn => ?_,
      fun _ _ => ⟨rfl, hd.expanded h0 hL ht blk.base⟩⟩
    · rintro (h | h) <;> cases h
    · have := hn.lt hL ht
      omega

def threePages : Pagetable := ⟨0x100, List.replicate 3 .empty⟩

theorem pagetableExpand_capped_three :
    ∃ rc pt', pagetableExpand threePages 100 (some ⟨0x200, fun _ => .empty⟩) = .ok (rc, pt') ∧
      (rc = -1 ↔ maxPtLen ≤ threePages.numPages ∨ maxPtLen < 100) ∧
      (rc = -2 ↔ ¬ (maxPtLen ≤ threePages.numPages ∨ maxPtLen < 100) ∧
        some (⟨0x200, fun _ => .empty⟩ : Block) = none) ∧
      (rc = -1 ∨ rc = -2 → pt' = threePages) ∧
      (rc ≠ -1 → ∀ n, DoublingValue threePages.numPages 100 n → n < 2 ^ 31) ∧
      (rc ≠ -1 → rc ≠ -2 → rc = 0 ∧ Expanded threePages 100 pt') :=
  pagetableExpand_capped (by decide) 100 (some ⟨0x200, fun _ => .empty⟩)

end Growth

end MooseOS
