import MooseOS.Pagetable.Spec

/-!
# Which page `pagetableInsert` takes

The scan of `pagetableInsert` runs while the entries are invalid, so it stops at the first page that is taken.
`insertsFirstFree_iff` : an insert takes the first free page if and only if there is none, and it has to expand the
table.
-/

namespace MooseOS

def AllValid (pt : Pagetable) : Prop := ∀ i < pt.numPages, (pt.entry i).valid = true

/-- What an insert leaves: the entry on the lowest page that was invalid, on a new page where there was none, or
nowhere in a full table of maximal length. -/
structure InsertsFirstFree (pt : Pagetable) (pfn prot : Nat) (w : Ran Pagetable (Nat × Status)) : Prop where
  inside : w.inside = true
  nominal : ∀ p < pt.numPages, (pt.entry p).valid = false → (∀ i < p, (pt.entry i).valid = true) →
    w.val = (p, .nominal) ∧ w.after.numPages = pt.numPages
  expanded : AllValid pt → pt.numPages < maxPtLen → w.val = (pt.numPages, .expanded)
  failed : w.val.2 = .failed ↔ AllValid pt ∧ pt.numPages = maxPtLen
  unchanged : w.val.2 = .failed → w.after = pt
  stored : w.val.2 ≠ .failed → w.val.1 < w.after.numPages ∧ (w.after.entry w.val.1).valid = true ∧
    (w.after.entry w.val.1).pfn.toNat = pfn ∧ (w.after.entry w.val.1).prot.toNat = prot
  others : w.val.2 ≠ .failed → ∀ v, v ≠ w.val.1 → w.after.entry v = pt.entry v

section Insert
variable {pt : Pagetable} {pfn prot : Nat}

theorem exists_first_free (h : ¬ AllValid pt) :
    ∃ p < pt.numPages, (pt.entry p).valid = false ∧ ∀ i < p, (pt.entry i).valid = true := by
  have hex : ∃ p, p < pt.numPages ∧ (pt.entry p).valid = false := by
    simpa only [AllValid, not_forall, Bool.not_eq_true, exists_prop] using h
  obtain ⟨hlt, hfree⟩ := Nat.find_spec hex
  refine ⟨Nat.find hex, hlt, hfree, fun i hi => ?_⟩
  by_contra hne
  exact Nat.find_min hex hi ⟨Nat.lt_trans hi hlt, by simpa using hne⟩

theorem insertsFirstFree_of_allValid (h0 : 0 < pt.numPages) (hmax : pt.numPages ≤ maxPtLen) (hpfn : pfn < 2 ^ 24)
    (hprot : prot < 8) (blk : Block) (beyond : Pte) (h : AllValid pt) :
    ∃ w, pagetableInsert pt pfn prot (some blk) beyond = .ok w ∧ InsertsFirstFree pt pfn prot w := by
  have hno : ∀ p < pt.numPages, (pt.entry p).valid ≠ false := fun p hp hf => by simp [h p hp] at hf
  obtain ⟨p, -, hbelow, -, hcases⟩ := pagetableInsert_cases h0 pfn prot (some blk) beyond
  -- the scan stops at once
  obtain rfl : p = 0 := by
    by_contra hne
    exact hno 0 h0 (hbelow 0 (by omega))
  rcases hcases with ⟨-, hc, -⟩ | ⟨he, hc⟩ | ⟨blk', n, hblk, he, hlt, hd⟩
  · omega
  · have hfull : pt.numPages = maxPtLen := by
      rcases hc with hc | hc
      · omega
      · cases hc
    exact ⟨_, he, decide_eq_true h0, fun p hp hf => absurd hf (hno p hp), fun _ hlt => by omega,
      iff_of_true rfl ⟨h, hfull⟩, fun _ => rfl, fun hne => absurd rfl hne, fun hne => absurd rfl hne⟩
  · have hnum : (pt.grown blk'.base n).numPages = n := hd.numPages_grown h0 hlt blk'.base
    have hgt : pt.numPages < n := hd.lt h0 hlt
    have hentry : ∀ v, ((pt.grown blk'.base n).store pt.numPages (.mapped pfn prot)).entry v =
        if v = pt.numPages then .mapped pfn prot else pt.entry v := fun v => by
      rw [Pagetable.entry_store _ _ (by omega), Pagetable.entry_grown]
    refine ⟨_, he, decide_eq_true h0, fun p hp hf => absurd hf (hno p hp), fun _ _ => rfl,
      iff_of_false (by simp) fun hc => by omega, fun hf => by simp at hf, fun _ => ?_, fun _ v hv => ?_⟩
    · simp only [hentry, if_true, Pagetable.numPages_store, hnum]
      exact ⟨hgt, rfl, Pte.mapped_pfn hpfn prot, Pte.mapped_prot hprot pfn⟩
    · simp only [hentry, if_neg hv]

theorem allValid_of_insertsFirstFree (h0 : 0 < pt.numPages) (realloc : Option Block) (beyond : Pte)
    {w : Ran Pagetable (Nat × Status)} (hw : pagetableInsert pt pfn prot realloc beyond = .ok w)
    (h : InsertsFirstFree pt pfn prot w) : AllValid pt := by
  by_contra hne
  obtain ⟨q, hq, hfree, hbelow⟩ := exists_first_free hne
  obtain ⟨hval, -⟩ := h.nominal q hq hfree hbelow
  obtain ⟨p, -, -, -, hcases⟩ := pagetableInsert_cases h0 pfn prot realloc beyond
  rcases hcases with ⟨he, hp, -⟩ | ⟨he, -⟩ | ⟨blk, n, -, he, -, -⟩
  · -- the scan has left the table
    cases he.symm.trans hw
    have := of_decide_eq_true h.inside
    omega
  · cases he.symm.trans hw
    cases hval
  · cases he.symm.trans hw
    cases hval

/-- **An insert finds no free page.** With a `realloc` that succeeds, it does what it should if and only if every page
of the table is valid. -/
theorem insertsFirstFree_iff (h0 : 0 < pt.numPages) (hmax : pt.numPages ≤ maxPtLen) (hpfn : pfn < 2 ^ 24)
    (hprot : prot < 8) (blk : Block) (beyond : Pte) :
    (∃ w, pagetableInsert pt pfn prot (some blk) beyond = .ok w ∧ InsertsFirstFree pt pfn prot w) ↔ AllValid pt := by
  constructor
  · intro ⟨w, hw, h⟩
    exact allValid_of_insertsFirstFree h0 (some blk) beyond hw h
  · exact insertsFirstFree_of_allValid h0 hmax hpfn hprot blk beyond

theorem insertsFirstFree_iff_two :
    (∃ w, pagetableInsert ⟨0x100, [.mapped 3 protRead, .mapped 4 protRead]⟩ 5 protRead
        (some ⟨0x200, fun _ => .empty⟩) .empty = .ok w ∧
      InsertsFirstFree ⟨0x100, [.mapped 3 protRead, .mapped 4 protRead]⟩ 5 protRead w) ↔
      AllValid ⟨0x100, [.mapped 3 protRead, .mapped 4 protRead]⟩ :=
  insertsFirstFree_iff (by decide) (by decide) (by decide) (by decide) _ _

/-- In a table whose page 1 is free, an insert takes page 2, on a new page. -/
theorem insertsFirstFree_fails_hole :
    (∃ w, pagetableInsert ⟨0x100, [.mapped 3 protRead, .empty]⟩ 5 protRead (some ⟨0x200, fun _ => .empty⟩) .empty =
        .ok w ∧ w.val = (2, .expanded)) ∧
      ¬ ∃ w, pagetableInsert ⟨0x100, [.mapped 3 protRead, .empty]⟩ 5 protRead (some ⟨0x200, fun _ => .empty⟩) .empty =
        .ok w ∧ InsertsFirstFree ⟨0x100, [.mapped 3 protRead, .empty]⟩ 5 protRead w := by
  refine ⟨⟨_, rfl, by decide⟩, fun ⟨w, hw, h⟩ => ?_⟩
  have hall := allValid_of_insertsFirstFree (by decide) _ _ hw h 1 (by decide)
  exact absurd hall (by decide)

end Insert

end MooseOS
