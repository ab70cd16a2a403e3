import MooseOS.Memory.Boot
import MooseOS.Memory.Brk

/-!
# When a table is expanded

* `RangeTurned`, `Ranged` : what a turn of the loop of `initializePagetableRange` does, and some of its turns;
* `rangeTable_spec`, `rangeFailed_iff` : exactly when `initializePagetableRange` expands the table, and when it fails;
* `moveLoop_table` : exactly when the loop of `setKernelBrk` does.
-/

namespace MooseOS
open Prog

/-- The table `t` is in the block of `table`, or it is longer. -/
def SameBlock (table t : Pagetable) : Prop := t.numPages = table.numPages ∧ t.base = table.base

def Longer (table t : Pagetable) : Prop := table.numPages < t.numPages ∧ t.numPages ≤ maxPtLen

theorem SameBlock.trans {a b c : Pagetable} (h : SameBlock a b) (h' : SameBlock b c) : SameBlock a c :=
  ⟨h'.1.trans h.1, h'.2.trans h.2⟩

theorem Longer.keep {a b c : Pagetable} (h : Longer a b) (h' : SameBlock b c) : Longer a c :=
  ⟨h'.1 ▸ h.1, h'.1 ▸ h.2⟩

/-- What a turn of the loop of `initializePagetableRange` does: the page is stored in the table as it is, or the
expansion that it needs is refused, or made. -/
inductive RangeTurned (env : Env) (s t : Ranging) : Prop where
  | stored (block : SameBlock s.table t.table) (inside : s.frame ≤ s.table.numPages) (frame : t.frame = s.frame + 1)
      (note : t.didExpand = s.didExpand) (failed : t.failed = false)
  | refused (block : SameBlock s.table t.table) (past : s.table.numPages < s.frame)
      (not_expands : ¬ Expands s.table s.frame (env.realloc s.frame)) (frame : t.frame = s.frame)
      (note : t.didExpand = s.didExpand) (failed : t.failed = true)
  | expanded (block : Longer s.table t.table) (inside : s.frame ≤ t.table.numPages)
      (expands : Expands s.table s.frame (env.realloc s.frame)) (frame : t.frame = s.frame + 1)
      (note : t.didExpand = true) (failed : t.failed = false)

section Range
variable {env : Env} {table : Pagetable} {start stop prot : Nat}

theorem rangeTurn_turned (env : Env) (prot : Nat) {s : Ranging} (h0 : 0 < s.table.numPages) :
    ∃ t, rangeTurn env prot s = .ok t ∧ RangeTurned env s t := by
  obtain ⟨w, hw, hc⟩ := pagetableWrite_table h0 s.frame s.frame prot (env.realloc s.frame)
  unfold rangeTurn
  simp only [hw, ok_bind]
  rcases hc with ⟨hne, hn, hb, hval⟩ | ⟨hexp, hval, hgt, hle, hmax⟩
  · by_cases hin : s.frame ≤ s.table.numPages
    · rw [if_pos hin] at hval
      simp only [hval, reduceCtorEq, if_false, decide_false, Bool.or_false]
      exact ⟨_, rfl, .stored ⟨hn, hb⟩ hin rfl rfl rfl⟩
    · rw [if_neg hin] at hval
      simp only [hval, if_true]
      exact ⟨_, rfl, .refused ⟨hn, hb⟩ (Nat.lt_of_not_le hin) hne rfl rfl rfl⟩
  · simp only [hval, reduceCtorEq, if_false, decide_true, Bool.or_true]
    exact ⟨_, rfl, .expanded ⟨hgt, hmax⟩ hle hexp rfl rfl rfl⟩

/-- The first page of a range that is past the end of the table. -/
abbrev firstPast (table : Pagetable) (start : Nat) : Nat := max start (table.numPages + 1)

/-- The range gets to the first page past the end of the table, and writing that page expands the table. -/
def RangeExpands (env : Env) (table : Pagetable) (start stop : Nat) : Prop :=
  firstPast table start < stop ∧ Expands table (firstPast table start) (env.realloc (firstPast table start))

/-- The loop of `initializePagetableRange` after some of its turns: the table is as it was, and the loop has not
passed the first page past its end unless the write of it failed; or that write has expanded the table. -/
inductive Ranged (env : Env) (table : Pagetable) (start stop : Nat) (s : Ranging) : Prop where
  | same (block : SameBlock table s.table) (fresh : s.didExpand = false) (ge : start ≤ s.frame)
      (le : s.frame ≤ firstPast table start)
      (failed : s.failed = true → s.frame = firstPast table start ∧ s.frame < stop ∧
        ¬ Expands table s.frame (env.realloc s.frame))
  | longer (block : Longer table s.table) (le : s.frame ≤ s.table.numPages + 1)
      (expands : RangeExpands env table start stop)

theorem rangeTurn_ranged (h0 : 0 < table.numPages) {s : Ranging} (hlt : s.frame < stop)
    (h : Ranged env table start stop s) :
    ∃ t, rangeTurn env prot s = .ok t ∧ Ranged env table start stop t ∧
      (t.failed = false → t.frame = s.frame + 1) := by
  have hfirst : firstPast table start = max start (table.numPages + 1) := rfl
  have hpos : 0 < s.table.numPages := by
    cases h with
    | same block => rw [block.1]; exact h0
    | longer block => exact Nat.zero_lt_of_lt block.1
  obtain ⟨t, ht, hturn⟩ := rangeTurn_turned env prot hpos
  refine ⟨t, ht, ?_, ?_⟩
  · cases hturn with
    | stored hsame hin hframe hnote hfailed =>
      have hn := hsame.1
      cases h with
      | same block fresh ge le failed =>
        have hL := block.1
        exact .same (block.trans hsame) (hnote.trans fresh) (by omega) (by omega) (by simp [hfailed])
      | longer block le expands => exact .longer (block.keep hsame) (by omega) expands
    | refused hsame hpast hne hframe hnote hfailed =>
      have hn := hsame.1
      cases h with
      | same block fresh ge le failed =>
        have hL := block.1
        refine .same (block.trans hsame) (hnote.trans fresh) (by omega) (by omega) fun _ => ⟨by omega, by omega, ?_⟩
        rw [hframe]
        simpa only [Expands, hL] using hne
      | longer block le expands => exact .longer (block.keep hsame) (by omega) expands
    | expanded hlonger hle hexp hframe hnote hfailed =>
      cases h with
      | same block fresh ge le failed =>
        have hL := block.1
        have hfirst : s.frame = firstPast table start := by
          have := hexp.1
          omega
        refine .longer ⟨hL ▸ hlonger.1, hlonger.2⟩ (by omega) ?_
        unfold RangeExpands
        rw [← hfirst]
        exact ⟨hlt, by rw [← hL]; exact hexp.1, hexp.2⟩
      | longer block le expands =>
        exact .longer ⟨Nat.lt_trans block.1 hlonger.1, hlonger.2⟩ (by omega) expands
  · intro hf
    cases hturn with
    | stored _ _ hframe => exact hframe
    | refused _ _ _ _ _ hfailed => exact absurd (hf.symm.trans hfailed) Bool.false_ne_true
    | expanded _ _ _ hframe => exact hframe

theorem rangeLoop_ranged (env : Env) (h0 : 0 < table.numPages) (start stop prot : Nat) :
    ∃ s, whileLoop (fun s : Ranging => !s.failed && decide (s.frame < stop)) (rangeTurn env prot) (stop + 1)
        ⟨start, table, true, false, false⟩ = .ok s ∧
      Ranged env table start stop s ∧ (s.failed = false → stop ≤ s.frame) := by
  obtain ⟨s, hs, hR, hc⟩ := whileLoop_total (fun s : Ranging => !s.failed && decide (s.frame < stop))
    (rangeTurn env prot) (Ranged env table start stop) (fun s => if s.failed then 0 else stop - s.frame)
    (by
      intro s hR hc
      simp only [Bool.and_eq_true, Bool.not_eq_true', decide_eq_true_eq] at hc
      obtain ⟨t, ht, hRt, hframe⟩ := rangeTurn_ranged h0 hc.2 hR
      refine ⟨t, ht, hRt, ?_⟩
      simp only [hc.1, Bool.false_eq_true, if_false]
      cases hf : t.failed with
      | true => simp; omega
      | false =>
        have := hframe hf
        simp only [Bool.false_eq_true, if_false]
        omega)
    (stop + 1) ⟨start, table, true, false, false⟩
    (.same ⟨rfl, rfl⟩ rfl (Nat.le_refl _) (Nat.le_max_left _ _) (fun h => by cases h))
    (by simp only [Bool.false_eq_true, if_false]; omega)
  refine ⟨s, hs, hR, fun hf => ?_⟩
  simpa [hf] using hc

namespace Ranged
variable {s : Ranging}

theorem table_or_longer (h : Ranged env table start stop s) (hend : s.failed = false → stop ≤ s.frame) :
    (SameBlock table s.table ∧ s.didExpand = false ∧ ¬ RangeExpands env table start stop) ∨
      (Longer table s.table ∧ RangeExpands env table start stop) := by
  cases h with
  | same block fresh ge le failed =>
    refine .inl ⟨block, fresh, ?_⟩
    rintro ⟨hlt, hexp⟩
    cases hf : s.failed with
    | true =>
      obtain ⟨he, -, hne⟩ := failed hf
      exact hne (he ▸ hexp)
    | false =>
      have := hend hf
      omega
  | longer block le expands => exact .inr ⟨block, expands⟩

theorem past_of_failed (h : Ranged env table start stop s) (hf : s.failed = true) : firstPast table start < stop := by
  cases h with
  | same block fresh ge le failed =>
    obtain ⟨he, hlt, -⟩ := failed hf
    rwa [← he]
  | longer block le expands => exact expands.1

theorem stop_le (h : Ranged env table start stop s) (hss : start < stop) (hend : stop ≤ s.frame) :
    stop ≤ s.table.numPages + 1 := by
  have hfirst : firstPast table start = max start (table.numPages + 1) := rfl
  cases h with
  | same block fresh ge le failed =>
    have hL := block.1
    omega
  | longer block le expands => exact Nat.le_trans hend le

end Ranged

/-- **Initializing a range** expands the table exactly if it gets to the first page past its end, and that page can be
added. It fails only if it gets there, and ends inside the table otherwise. -/
theorem rangeTable_spec (env : Env) (h0 : 0 < table.numPages) (start stop prot : Nat) :
    ∃ r, initializePagetableRange env table start stop prot = .ok r ∧
      ((SameBlock table r.after ∧ r.val ≠ .expanded ∧ ¬ RangeExpands env table start stop) ∨
        (Longer table r.after ∧ RangeExpands env table start stop)) ∧
      (r.val = .failed → firstPast table start < stop) ∧
      (r.val ≠ .failed → start < stop → stop ≤ r.after.numPages + 1) := by
  obtain ⟨s, hs, hR, hend⟩ := rangeLoop_ranged env h0 start stop prot
  have hval : (if s.failed then Status.failed else if s.didExpand then .expanded else .nominal) = .failed ↔
      s.failed = true := by
    cases s.failed <;> cases s.didExpand <;> decide
  unfold initializePagetableRange
  simp only [hs, ok_bind]
  refine ⟨_, rfl, ?_, fun h => hR.past_of_failed (hval.mp h), fun h hss => ?_⟩
  · rcases hR.table_or_longer hend with ⟨hB, hd, hno⟩ | hlonger
    · exact .inl ⟨hB, by cases s.failed <;> simp [hd], hno⟩
    · exact .inr hlonger
  · exact hR.stop_le hss (hend (by simpa using mt hval.mpr h))

/-- A range that reaches past all tables that can be expanded fails if and only if it goes past the first page after
this one; where it does not fail, the table keeps its block. -/
theorem rangeFailed_iff (env : Env) (h0 : 0 < table.numPages) (start stop prot : Nat)
    (hstop : start < stop → maxPtLen + 1 < stop) :
    ∃ r, initializePagetableRange env table start stop prot = .ok r ∧
      (r.val = .failed ↔ firstPast table start < stop) ∧
      (r.val ≠ .failed → SameBlock table r.after ∧ r.val ≠ .expanded) := by
  have hfirst : firstPast table start = max start (table.numPages + 1) := rfl
  obtain ⟨r, hr, htable, hfail, hend⟩ := rangeTable_spec env h0 start stop prot
  have hiff : r.val = .failed ↔ firstPast table start < stop := by
    refine ⟨hfail, fun hlt => ?_⟩
    by_contra hne
    have hle := hend hne (by omega)
    rcases htable with ⟨block, -⟩ | ⟨block, -⟩
    · rw [block.1] at hle
      omega
    · have := block.2
      omega
  refine ⟨r, hr, hiff, fun hne => ?_⟩
  rcases htable with ⟨block, hval, -⟩ | ⟨-, hexp⟩
  · exact ⟨block, hval⟩
  · exact absurd (hiff.mpr hexp.1) hne

end Range

section Move
variable {env : Env} {table : Pagetable} {free : List Nat} {p q : Nat}

/-- The loop of `setKernelBrk` has grown from page `p` up to page `m`: no write has expanded the table, or one
has. -/
def MovedTable (env : Env) (table : Pagetable) (p m : Nat) (t : Pagetable) : Prop :=
  (SameBlock table t ∧ ∀ v, p < v → v ≤ m → ¬ Expands table v (env.realloc v)) ∨
    (Longer table t ∧ ∃ v, p < v ∧ v ≤ m ∧ Expands table v (env.realloc v))

theorem growTurn_table (h0 : 0 < table.numPages) {s : Moving} (hp : p ≤ s.page)
    (h : MovedTable env table p s.page s.table) :
    ∃ t, growTurn env s = .ok t ∧ t.page = s.page + 1 ∧ MovedTable env table p t.page t.table := by
  have hpos : 0 < s.table.numPages := by
    rcases h with ⟨block, -⟩ | ⟨block, -⟩
    · rw [block.1]; exact h0
    · exact Nat.zero_lt_of_lt block.1
  obtain ⟨w, hw, hc⟩ := pagetableWrite_table hpos (s.page + 1) (Fifo.pop s.free).1 (protRead ||| protWrite)
    (env.realloc (s.page + 1))
  unfold growTurn
  simp only [hw, ok_bind]
  refine ⟨_, rfl, rfl, ?_⟩
  rcases h with ⟨block, hno⟩ | ⟨block, v, hpv, hvm, hexp⟩
  · have hL := block.1
    rcases hc with ⟨hne, hn, hb, -⟩ | ⟨hexp, -, hgt, -, hmax⟩
    · refine .inl ⟨⟨hn.trans block.1, hb.trans block.2⟩, fun v hpv hvm => ?_⟩
      rcases Nat.lt_or_ge s.page v with hv | hv
      · obtain rfl : v = s.page + 1 := by simp only at hvm; omega
        simpa only [Expands, hL] using hne
      · exact hno v hpv hv
    · exact .inr ⟨⟨by simp only; omega, hmax⟩, s.page + 1, by omega, Nat.le_refl _,
        by rw [← hL]; exact hexp.1, hexp.2⟩
  · refine .inr ⟨?_, v, hpv, by simp only; omega, hexp⟩
    rcases hc with ⟨-, hn, -, -⟩ | ⟨-, -, hgt, -, hmax⟩
    · exact ⟨by simp only [hn]; exact block.1, by simp only [hn]; exact block.2⟩
    · exact ⟨by have := block.1; simp only; omega, hmax⟩

theorem shrinkTurn_table (env : Env) (s : Moving) (h : SameBlock table s.table) :
    ∃ t, shrinkTurn env s = .ok t ∧ t.page = s.page - 1 ∧ SameBlock table t.table := by
  refine ⟨_, rfl, rfl, ?_⟩
  have hpfn : (pfnForPage s.table s.page env.beyond).after = s.table := by
    unfold pfnForPage
    split <;> rfl
  simpa only [SameBlock, pagetableRemove, hpfn, Pagetable.numPages_store, Pagetable.base_store] using h

/-- **Moving the break** expands the table exactly if it grows over a page past its end that can be added. -/
theorem moveLoop_table (env : Env) (h0 : 0 < table.numPages) (free : List Nat) (p q : Nat) :
    ∃ s, moveLoop env p q table free = .ok s ∧ MovedTable env table p q s.table := by
  rcases Nat.lt_or_ge p q with hpq | hqp
  · obtain ⟨s, hs, ⟨hT, hle, -⟩, hc⟩ := whileLoop_total (fun s : Moving => decide (s.page ≠ q)) (growTurn env)
      (fun s => MovedTable env table p s.page s.table ∧ s.page ≤ q ∧ p ≤ s.page) (fun s => q - s.page)
      (by
        rintro s ⟨hT, hle, hge⟩ hc
        have hne : s.page ≠ q := of_decide_eq_true hc
        obtain ⟨t, ht, hpage, hTt⟩ := growTurn_table h0 hge hT
        exact ⟨t, ht, ⟨hTt, by omega, by omega⟩, by omega⟩)
      (p + q + 1) ⟨p, table, free, true⟩
      ⟨.inl ⟨⟨rfl, rfl⟩, fun v h1 h2 => by simp only at h2; omega⟩, by simp only; omega, Nat.le_refl _⟩
      (by simp only; omega)
    have hpage : s.page = q := by simpa using hc
    exact ⟨s, by rw [moveLoop, if_pos hpq, hs], hpage ▸ hT⟩
  · obtain ⟨s, hs, ⟨hB, -⟩, -⟩ := whileLoop_total (fun s : Moving => decide (s.page ≠ q)) (shrinkTurn env)
      (fun s => SameBlock table s.table ∧ q ≤ s.page) (fun s => s.page - q)
      (by
        rintro s ⟨hB, hge⟩ hc
        have hne : s.page ≠ q := of_decide_eq_true hc
        obtain ⟨t, ht, hpage, hBt⟩ := shrinkTurn_table env s hB
        exact ⟨t, ht, ⟨hBt, by omega⟩, by omega⟩)
      (p + q + 1) ⟨p, table, free, true⟩ ⟨⟨rfl, rfl⟩, hqp⟩ (by simp only; omega)
    exact ⟨s, by rw [moveLoop, if_neg (by omega), hs], .inl ⟨hB, fun v h1 h2 => by omega⟩⟩

end Move

end MooseOS
