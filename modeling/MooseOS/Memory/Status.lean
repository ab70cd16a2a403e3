import MooseOS.Memory.Registers

/-!
# What the status tells

* `Tells` : a status is `EXPANDED`, `FAILED` or `NOMINAL` exactly if the table has grown, was refused more pages, or
  was not asked for any;
* `pagetableWrite_tells`, `pagetableInsert_tells` : the status of the two calls is such;
* `rangeTold_spec` : `initializePagetableRange` adds up the statuses of its writes;
* `status_protocol` : the three together.
-/

namespace MooseOS
open Prog

/-! ## One call -/

def WriteGrows (pt : Pagetable) (vpn : Nat) : Prop := vpn > pt.numPages

/-- `pagetableInsert` asks for more pages: the entry where its scan stopped is valid. -/
def InsertGrows (pt : Pagetable) (beyond : Pte) : Prop :=
  ∃ p, scanLoop pt beyond 0 = .ok p ∧ (pt.read beyond p).valid = true

def Refuses (pt : Pagetable) (target : Nat) (realloc : Option Block) : Prop :=
  ∃ rc pt', pagetableExpand pt target realloc = .ok (rc, pt') ∧ rc ≠ 0

/-- What the status of a call tells about the table after it; `grows` says that the call asked for more pages. -/
structure Tells (pt : Pagetable) (target : Nat) (realloc : Option Block) (grows : Prop) (status : Status)
    (after : Pagetable) : Prop where
  expanded : status = .expanded ↔ realloc ≠ none ∧ pt.numPages < after.numPages
  failed : status = .failed ↔ grows ∧ Refuses pt target realloc
  unchanged : status = .failed → after = pt
  nominal : status = .nominal ↔ SameBlock pt after ∧ ¬ grows

section Tells
variable {pt after : Pagetable} {target : Nat} {realloc : Option Block} {grows : Prop}

theorem tells_nominal (h : SameBlock pt after) (hg : ¬ grows) : Tells pt target realloc grows .nominal after :=
  ⟨iff_of_false (by decide) fun hc => Nat.lt_irrefl _ (h.1 ▸ hc.2), iff_of_false (by decide) fun hc => hg hc.1,
    (fun hc => by cases hc), iff_of_true rfl ⟨h, hg⟩⟩

theorem tells_failed (hg : grows) (h : Refuses pt target realloc) : Tells pt target realloc grows .failed pt :=
  ⟨iff_of_false (by decide) fun hc => Nat.lt_irrefl _ hc.2, iff_of_true rfl ⟨hg, h⟩, fun _ => rfl,
    iff_of_false (by decide) fun hc => hc.2 hg⟩

theorem tells_expanded (hg : grows) (hr : realloc ≠ none) (h : ¬ Refuses pt target realloc)
    (hlt : pt.numPages < after.numPages) : Tells pt target realloc grows .expanded after :=
  ⟨iff_of_true rfl ⟨hr, hlt⟩, iff_of_false (by decide) fun hc => h hc.2, (fun hc => by cases hc),
    iff_of_false (by decide) fun hc => hc.2 hg⟩

theorem refuses_or_grown (h0 : 0 < pt.numPages) (target : Nat) (realloc : Option Block) :
    (∃ rc, pagetableExpand pt target realloc = .ok (rc, pt) ∧ rc ≠ 0 ∧ Refuses pt target realloc) ∨
    (∃ pt', pagetableExpand pt target realloc = .ok (0, pt') ∧ realloc ≠ none ∧ ¬ Refuses pt target realloc ∧
      pt.numPages < pt'.numPages) := by
  rcases pagetableExpand_cases h0 target realloc with ⟨he, -⟩ | ⟨he, -⟩ | ⟨blk, n, rfl, he, hL, -, hd⟩
  · exact .inl ⟨_, he, by decide, _, _, he, by decide⟩
  · exact .inl ⟨_, he, by decide, _, _, he, by decide⟩
  · refine .inr ⟨_, he, by simp, ?_, ?_⟩
    · rintro ⟨rc, pt', he', hrc⟩
      cases he.symm.trans he'
      exact hrc rfl
    · rw [hd.numPages_grown h0 hL]
      exact hd.lt h0 hL

theorem pagetableWrite_tells (h0 : 0 < pt.numPages) (vpn pfn prot : Nat) (realloc : Option Block) :
    ∃ w, pagetableWrite pt vpn pfn prot realloc = .ok w ∧
      Tells pt vpn realloc (WriteGrows pt vpn) w.val w.after := by
  unfold pagetableWrite
  by_cases hv : vpn > pt.numPages
  · simp only [if_pos hv]
    rcases refuses_or_grown h0 vpn realloc with ⟨rc, he, hrc, href⟩ | ⟨pt', he, hr, href, hlt⟩
    · simp only [he, ok_bind, if_pos hrc]
      exact ⟨_, rfl, tells_failed hv href⟩
    · simp only [he, ok_bind, ne_eq, not_true_eq_false, if_false]
      exact ⟨_, rfl, tells_expanded hv hr href (by simpa using hlt)⟩
  · rw [if_neg hv]
    exact ⟨_, rfl, tells_nominal ⟨by simp, rfl⟩ hv⟩

theorem pagetableInsert_tells (h0 : 0 < pt.numPages) (pfn prot : Nat) (realloc : Option Block) (beyond : Pte) :
    ∃ w, pagetableInsert pt pfn prot realloc beyond = .ok w ∧
      Tells pt 0 realloc (InsertGrows pt beyond) w.val.2 w.after := by
  obtain ⟨p, hp, -⟩ := scanLoop_spec pt beyond
  have hgrows : InsertGrows pt beyond ↔ (pt.read beyond p).valid = true := by
    constructor
    · rintro ⟨p', hp', hv⟩
      cases hp.symm.trans hp'
      exact hv
    · exact fun hv => ⟨p, hp, hv⟩
  unfold pagetableInsert
  simp only [hp, ok_bind]
  by_cases hv : (pt.read beyond p).valid = true
  · simp only [if_pos hv]
    rcases refuses_or_grown h0 0 realloc with ⟨rc, he, hrc, href⟩ | ⟨pt', he, hr, href, hlt⟩
    · simp only [he, ok_bind, if_pos hrc]
      exact ⟨_, rfl, tells_failed (hgrows.mpr hv) href⟩
    · simp only [he, ok_bind, ne_eq, not_true_eq_false, if_false]
      exact ⟨_, rfl, tells_expanded (hgrows.mpr hv) hr href (by simpa using hlt)⟩
  · rw [if_neg hv]
    exact ⟨_, rfl, tells_nominal ⟨by simp, rfl⟩ fun hg => hv (hgrows.mp hg)⟩

end Tells

/-! ## A range -/

def RangeVisits (env : Env) (pt : Pagetable) (start stop prot : Nat) (s : Ranging) : Prop :=
  Visits (fun s : Ranging => !s.failed && decide (s.frame < stop)) (rangeTurn env prot)
    ⟨start, pt, true, false, false⟩ s

/-- The loop has noted exactly whether the table has grown so far. -/
structure RangeTold (pt : Pagetable) (s : Ranging) : Prop where
  pos : 0 < s.table.numPages
  told : (s.didExpand = false ∧ SameBlock pt s.table) ∨ (s.didExpand = true ∧ pt.numPages < s.table.numPages)

section Range
variable {env : Env} {pt : Pagetable} {start stop prot : Nat} {s t : Ranging}

theorem rangeTurn_told (h : RangeTold pt s) (ht : rangeTurn env prot s = .ok t) :
    RangeTold pt t ∧ (s.didExpand = true → t.didExpand = true) := by
  obtain ⟨hpos, htold⟩ := h
  obtain ⟨u, hu, hturn⟩ := rangeTurn_turned env prot hpos
  cases hu.symm.trans ht
  -- a write that is stored in the table, or refused, keeps the block and the note
  have hkeep : SameBlock s.table t.table → t.didExpand = s.didExpand →
      RangeTold pt t ∧ (s.didExpand = true → t.didExpand = true) := by
    intro hsame hnote
    refine ⟨⟨by rw [hsame.1]; exact hpos, ?_⟩, fun hd => hnote.trans hd⟩
    rcases htold with ⟨hd, hB⟩ | ⟨hd, hlt⟩
    · exact .inl ⟨hnote.trans hd, hB.trans hsame⟩
    · exact .inr ⟨hnote.trans hd, by rw [hsame.1]; exact hlt⟩
  cases hturn with
  | stored hsame _ _ hnote => exact hkeep hsame hnote
  | refused hsame _ _ _ hnote => exact hkeep hsame hnote
  | expanded hlonger _ _ _ hnote =>
    refine ⟨⟨Nat.zero_lt_of_lt hlonger.1, .inr ⟨hnote, ?_⟩⟩, fun _ => hnote⟩
    rcases htold with ⟨-, hB⟩ | ⟨-, hlt⟩
    · rw [← hB.1]
      exact hlonger.1
    · exact Nat.lt_trans hlt hlonger.1

/-- **Initializing a range.** When no write has failed, the status is `EXPANDED` exactly if the table is longer than
before, and `NOMINAL` exactly if it was in its block all the time. -/
theorem rangeTold_spec (env : Env) (h0 : 0 < pt.numPages) (start stop prot : Nat) :
    ∃ r, initializePagetableRange env pt start stop prot = .ok r ∧ (r.val ≠ .failed →
      (r.val = .expanded ↔ pt.numPages < r.after.numPages) ∧
      (r.val = .nominal ↔ ∀ s, RangeVisits env pt start stop prot s → SameBlock pt s.table)) := by
  obtain ⟨r, hr, -⟩ := rangeTable_spec env h0 start stop prot
  obtain ⟨s, hs, hret⟩ := bind_eq_ok.mp hr
  cases hret
  have h₀ : RangeTold pt ⟨start, pt, true, false, false⟩ := ⟨h0, .inl ⟨rfl, rfl, rfl⟩⟩
  have htold : ∀ t, RangeVisits env pt start stop prot t → RangeTold pt t := fun t ht =>
    Visits.inv (RangeTold pt) (fun _ _ h _ hb => (rangeTurn_told h hb).1) ht h₀
  have hlast : RangeVisits env pt start stop prot s := visits_of_whileLoop hs
  -- what was noted on the way is noted in the end
  have hkept : ∀ t, RangeVisits env pt start stop prot t → t.didExpand = true → s.didExpand = true := by
    intro t ht hd
    obtain ⟨n, hn⟩ := Visits.ends ht hs
    exact (whileLoop_inv _ _ (fun u => RangeTold pt u ∧ u.didExpand = true)
      (fun _ _ h _ hb => ⟨(rangeTurn_told h.1 hb).1, (rangeTurn_told h.1 hb).2 h.2⟩) n t s ⟨htold t ht, hd⟩ hn).1.2
  refine ⟨_, hr, fun hval => ?_⟩
  cases hf : s.failed with
  | true => simp [hf] at hval
  | false =>
    simp only [Bool.false_eq_true, if_false]
    rcases (htold s hlast).told with ⟨hd, hB⟩ | ⟨hd, hlt⟩
    · simp only [hd, Bool.false_eq_true, if_false, reduceCtorEq, false_iff, true_iff]
      refine ⟨by rw [hB.1]; exact Nat.lt_irrefl _, fun t ht => ?_⟩
      rcases (htold t ht).told with ⟨-, hBt⟩ | ⟨hdt, -⟩
      · exact hBt
      · rw [hkept t ht hdt] at hd
        cases hd
    · simp only [hd, if_true, reduceCtorEq, true_iff, false_iff]
      refine ⟨hlt, fun h => ?_⟩
      have := (h s hlast).1
      omega

/-- **The status protocol.** On a table with a page, whatever `realloc` does, the statuses of `pagetableWrite` and
`pagetableInsert` tell whether the table has grown, was refused pages or was not asked for any, and that of
`initializePagetableRange` tells it for all its writes. -/
theorem status_protocol (h0 : 0 < pt.numPages) :
    (∀ vpn pfn prot realloc, ∃ w, pagetableWrite pt vpn pfn prot realloc = .ok w ∧
      Tells pt vpn realloc (WriteGrows pt vpn) w.val w.after) ∧
    (∀ pfn prot realloc beyond, ∃ w, pagetableInsert pt pfn prot realloc beyond = .ok w ∧
      Tells pt 0 realloc (InsertGrows pt beyond) w.val.2 w.after) ∧
    ∀ env start stop prot, ∃ r, initializePagetableRange env pt start stop prot = .ok r ∧ (r.val ≠ .failed →
      (r.val = .expanded ↔ pt.numPages < r.after.numPages) ∧
      (r.val = .nominal ↔ ∀ s, RangeVisits env pt start stop prot s → SameBlock pt s.table)) :=
  ⟨pagetableWrite_tells h0, pagetableInsert_tells h0, fun env => rangeTold_spec env h0⟩

theorem status_protocol_one :
    (∀ vpn pfn prot realloc, ∃ w, pagetableWrite ⟨0x100, [.empty]⟩ vpn pfn prot realloc = .ok w ∧
      Tells ⟨0x100, [.empty]⟩ vpn realloc (WriteGrows ⟨0x100, [.empty]⟩ vpn) w.val w.after) ∧
    (∀ pfn prot realloc beyond, ∃ w, pagetableInsert ⟨0x100, [.empty]⟩ pfn prot realloc beyond = .ok w ∧
      Tells ⟨0x100, [.empty]⟩ 0 realloc (InsertGrows ⟨0x100, [.empty]⟩ beyond) w.val.2 w.after) ∧
    ∀ env start stop prot, ∃ r, initializePagetableRange env ⟨0x100, [.empty]⟩ start stop prot = .ok r ∧
      (r.val ≠ .failed → (r.val = .expanded ↔ (⟨0x100, [.empty]⟩ : Pagetable).numPages < r.after.numPages) ∧
        (r.val = .nominal ↔ ∀ s, RangeVisits env ⟨0x100, [.empty]⟩ start stop prot s →
          SameBlock ⟨0x100, [.empty]⟩ s.table)) :=
  status_protocol (by decide)

end Range

end MooseOS
