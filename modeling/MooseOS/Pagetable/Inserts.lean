import MooseOS.Pagetable.Growth
import MooseOS.Pagetable.Runs

/-!
# Runs of `pagetableInsert`

An insert takes the page with the number of the table's length, and doubles the table for it. With no valid page the
first one goes to the cell past the table; the next one finds it valid there, and doubles the table.

* `Bordered`, `insertMachine` : a table with the cell past it, insert after insert;
* `insertResult L i` : what the insert after `i` others returns in a table of `L` pages;
* `InsertsGrow` : what a run of inserts does to a table;
* `insert_runs` : it does, from the first insert or from the second one on.
-/

namespace MooseOS
open Prog

/-- A table, and the cell just past it, which is of no table. -/
structure Bordered where
  table : Pagetable
  past : Pte

/-- An insert, with the block that `realloc` returns if it is called, and what lies past the table in that block. -/
structure Inserting where
  pfn : Nat
  prot : Nat
  block : Block
  past : Pte

/-- One insert. A store at index `numPages` is to the cell past the table. -/
def insertStep (s : Bordered) (a : Inserting) : Exec (Answer × Bordered) := do
  let r ← pagetableInsert s.table a.pfn a.prot (some a.block) s.past
  let past :=
    if r.val.2 = .expanded then a.past
    else if r.val = (s.table.numPages, .nominal) then .mapped a.pfn a.prot
    else s.past
  .ok (⟨.page r.val.1 r.val.2, r.inside⟩, ⟨r.after, past⟩)

def insertMachine : Machine Bordered Inserting Answer := ⟨insertStep⟩

/-- The table has `L * 2 ^ i` pages then, or it is full. -/
def insertResult (L i : Nat) : TableRes :=
  if L * 2 ^ i < maxPtLen then .page (L * 2 ^ i) .expanded else .page 0 .failed

/-- The `i`-th insert goes to page `L * 2 ^ i` while there is one, the other new pages stay empty, and the old ones
as they are. -/
structure InsertsGrow (pt : Pagetable) (as : List Inserting) (answers : List Answer) (pt' : Pagetable) : Prop where
  results : answers.map Answer.res = (List.range as.length).map (insertResult pt.numPages)
  numPages : pt'.numPages = min (pt.numPages * 2 ^ as.length) maxPtLen
  old : ∀ v < pt.numPages, pt'.entry v = pt.entry v
  stored : ∀ (i : Nat) (h : i < as.length), pt.numPages * 2 ^ i < maxPtLen →
    pt'.entry (pt.numPages * 2 ^ i) = .mapped as[i].pfn as[i].prot
  empty : ∀ v, pt.numPages ≤ v → (∀ i < as.length, v ≠ pt.numPages * 2 ^ i) → pt'.entry v = .empty

/-- An insert finds a valid page, be it the cell past the table. -/
def Bordered.Taken (s : Bordered) : Prop :=
  (∃ p < s.table.numPages, (s.table.entry p).valid = true) ∨ s.past.valid = true

section Runs
variable {pt : Pagetable} {s : Bordered}

abbrev doubledFor (pt : Pagetable) (a : Inserting) : Pagetable :=
  (pt.grown a.block.base (min (pt.numPages * 2) maxPtLen)).store pt.numPages (.mapped a.pfn a.prot)

/-- **One insert** that finds a valid page doubles the table, unless it is full. -/
theorem insert_taken (h0 : 0 < s.table.numPages) (htaken : s.Taken) (a : Inserting) :
    ∃ inside, ((∃ p < s.table.numPages, (s.table.entry p).valid = true) → inside = true) ∧
      ((s.table.numPages < maxPtLen ∧
          insertMachine.step s a = .ok (⟨.page s.table.numPages .expanded, inside⟩, ⟨doubledFor s.table a, a.past⟩)) ∨
        (maxPtLen ≤ s.table.numPages ∧ insertMachine.step s a = .ok (⟨.page 0 .failed, inside⟩, s))) := by
  obtain ⟨p, hp, hbelow, -, hcases⟩ := pagetableInsert_cases h0 a.pfn a.prot (some a.block) s.past
  have hin : (∃ p < s.table.numPages, (s.table.entry p).valid = true) → p < s.table.numPages := by
    rintro ⟨q, hq, hv⟩
    by_contra hge
    exact Bool.false_ne_true ((hbelow q (by omega)).symm.trans hv)
  refine ⟨decide (p < s.table.numPages), fun h => decide_eq_true (hin h), ?_⟩
  rcases hcases with ⟨-, hend, hpast⟩ | ⟨he, hc⟩ | ⟨blk, n, hblk, he, hlt, hd⟩
  · rcases htaken with htaken | htaken
    · have := hin htaken
      omega
    · exact absurd (hpast.symm.trans htaken) Bool.false_ne_true
  · refine .inr ⟨?_, ?_⟩
    · rcases hc with hc | hc
      · exact hc
      · cases hc
    · simp only [insertMachine, insertStep, he, ok_bind, reduceCtorEq, if_false, Prod.mk.injEq, and_false]
  · cases hblk
    obtain ⟨k, hk, rfl, -, hbefore⟩ := hd
    obtain rfl : k = 1 := by
      by_contra hne
      exact absurd (hbefore 1 (Nat.le_refl 1) (by omega)) (Nat.not_lt_zero _)
    exact .inl ⟨hlt, by simp only [insertMachine, insertStep, he, ok_bind, if_true, Nat.pow_one]⟩

/-- **One insert** that finds none stores past the table. -/
theorem insert_lost (hfree : ∀ p < s.table.numPages, (s.table.entry p).valid = false) (hpast : s.past.valid = false)
    (a : Inserting) : insertMachine.step s a =
      .ok (⟨.page s.table.numPages .nominal, false⟩, ⟨s.table, .mapped a.pfn a.prot⟩) := by
  obtain ⟨p, hscan, hp, -, htaken⟩ := scanLoop_spec s.table s.past
  have hend : p = s.table.numPages := by
    by_contra hne
    have hlt : p < s.table.numPages := by omega
    exact Bool.false_ne_true ((hfree p hlt).symm.trans (htaken hlt))
  subst hend
  have hread : s.table.read s.past s.table.numPages = s.past := by simp [Pagetable.read, Pagetable.numPages]
  simp only [insertMachine, insertStep, pagetableInsert, hscan, ok_bind, hread, hpast, Bool.false_eq_true, if_false,
    Nat.lt_irrefl, decide_false, Pagetable.store_of_le _ (Nat.le_refl _), reduceCtorEq, if_true]

/-- The page of the insert after `i + 1` others is that of the insert after `i` others in the doubled table. -/
theorem double_pow (L i : Nat) : min (L * 2) maxPtLen * 2 ^ i = L * 2 ^ (i + 1) ∨
    maxPtLen ≤ min (L * 2) maxPtLen * 2 ^ i ∧ maxPtLen ≤ L * 2 ^ (i + 1) := by
  have hpow : L * 2 ^ (i + 1) = L * 2 * 2 ^ i := by rw [Nat.pow_succ, Nat.mul_comm (2 ^ i), Nat.mul_assoc]
  have hpos := Nat.two_pow_pos i
  rcases Nat.le_total (L * 2) maxPtLen with hle | hge
  · rw [Nat.min_eq_left hle]
    exact .inl hpow.symm
  · rw [Nat.min_eq_right hge, hpow]
    exact .inr ⟨Nat.le_mul_of_pos_right _ hpos, Nat.le_trans hge (Nat.le_mul_of_pos_right _ hpos)⟩

theorem insertResult_succ (L i : Nat) : insertResult (min (L * 2) maxPtLen) i = insertResult L (i + 1) := by
  unfold insertResult
  rcases double_pow L i with he | ⟨h1, h2⟩
  · rw [he]
  · rw [if_neg (by omega), if_neg (by omega)]

theorem insertsGrow_cons {pt' : Pagetable} {a : Inserting} {as : List Inserting} {answers : List Answer}
    (inside : Bool) (h0 : 0 < pt.numPages) (hlt : pt.numPages < maxPtLen)
    (h : InsertsGrow (doubledFor pt a) as answers pt') :
    InsertsGrow pt (a :: as) (⟨.page pt.numPages .expanded, inside⟩ :: answers) pt' := by
  have hgrown : (pt.grown a.block.base (min (pt.numPages * 2) maxPtLen)).numPages = min (pt.numPages * 2) maxPtLen :=
    Pagetable.numPages_grown _ (by omega)
  obtain ⟨hres, hnum, hold, hstored, hempty⟩ := h
  simp only [doubledFor, Pagetable.numPages_store, hgrown] at hres hnum hold hstored hempty
  have hentry : ∀ v, (doubledFor pt a).entry v = if v = pt.numPages then .mapped a.pfn a.prot else pt.entry v :=
      fun v => by
    rw [Pagetable.entry_store _ _ (by omega), Pagetable.entry_grown]
  have hmax : pt'.numPages ≤ maxPtLen := by omega
  refine ⟨?_, ?_, fun v hv => ?_, fun i hi hfit => ?_, fun v hv hne => ?_⟩
  · rw [List.length_cons, List.range_succ_eq_map, List.map_cons, List.map_cons, List.map_map, hres]
    congr 1
    · rw [insertResult, Nat.pow_zero, Nat.mul_one, if_pos hlt]
    · exact List.map_congr_left fun i _ => insertResult_succ pt.numPages i
  · rw [hnum, List.length_cons]
    rcases double_pow pt.numPages as.length with he | ⟨h1, h2⟩
    · rw [he]
    · omega
  · rw [hold v (by omega), hentry, if_neg (by omega)]
  · cases i with
    | zero =>
      rw [Nat.pow_zero, Nat.mul_one, hold _ (by omega), hentry, if_pos rfl]
      rfl
    | succ i =>
      have hpage : min (pt.numPages * 2) maxPtLen * 2 ^ i = pt.numPages * 2 ^ (i + 1) := by
        rcases double_pow pt.numPages i with he | ⟨-, h2⟩
        · exact he
        · omega
      have hsucc := hstored i (Nat.lt_of_succ_lt_succ hi) (by rw [hpage]; exact hfit)
      rw [hpage] at hsucc
      exact hsucc
  · rcases Nat.lt_or_ge v maxPtLen with hv' | hv'
    · have hfirst : v ≠ pt.numPages := by simpa using hne 0 (by simp)
      rcases Nat.lt_or_ge v (min (pt.numPages * 2) maxPtLen) with hin | hout
      · rw [hold v hin, hentry, if_neg hfirst]
        exact entry_of_le hv
      · refine hempty v hout fun i hi he => ?_
        rcases double_pow pt.numPages i with hd | ⟨h1, -⟩
        · exact hne (i + 1) (by simpa using hi) (he.trans hd)
        · omega
    · exact entry_of_le (Nat.le_trans hmax hv')

theorem insertsGrow_full (as : List Inserting) (hfull : s.table.numPages = maxPtLen) (htaken : s.Taken) :
    ∃ answers, insertMachine.run s as = .ok (answers, s) ∧ InsertsGrow s.table as answers s.table ∧
      ((∃ p < s.table.numPages, (s.table.entry p).valid = true) → ∀ r ∈ answers, r.inside = true) := by
  have hrefused : ∀ i, insertResult s.table.numPages i = .page 0 .failed := fun i => by
    have := Nat.le_mul_of_pos_right maxPtLen (Nat.two_pow_pos i)
    rw [insertResult, hfull, if_neg (by omega)]
  have hpages : ∀ i, maxPtLen ≤ s.table.numPages * 2 ^ i := fun i => by
    rw [hfull]
    exact Nat.le_mul_of_pos_right _ (Nat.two_pow_pos i)
  obtain ⟨answers, hrun, hres, hin⟩ : ∃ answers, insertMachine.run s as = .ok (answers, s) ∧
      answers.map Answer.res = List.replicate as.length (.page 0 .failed) ∧
      ((∃ p < s.table.numPages, (s.table.entry p).valid = true) → ∀ r ∈ answers, r.inside = true) := by
    induction as with
    | nil => exact ⟨[], rfl, rfl, fun _ r hr => absurd hr List.not_mem_nil⟩
    | cons a as ih =>
      obtain ⟨answers, hrun, hres, hin⟩ := ih
      obtain ⟨inside, hinside, ⟨hlt, -⟩ | ⟨-, hstep⟩⟩ := insert_taken (by rw [hfull]; decide) htaken a
      · omega
      · exact ⟨_, (insertMachine.run_cons_ok).mpr ⟨_, s, answers, hstep, hrun, rfl⟩, congrArg (_ :: ·) hres,
          fun h => List.forall_mem_cons.mpr ⟨hinside h, hin h⟩⟩
  refine ⟨answers, hrun, ⟨?_, ?_, fun v _ => rfl, fun i _ hfit => ?_, fun v hv _ => entry_of_le hv⟩, hin⟩
  · rw [hres, List.map_congr_left fun i _ => hrefused i, List.map_const', List.length_range]
  · have := hpages as.length
    omega
  · have := hpages i
    omega

theorem insertsGrow_run (as : List Inserting) (h0 : 0 < s.table.numPages) (hmax : s.table.numPages ≤ maxPtLen)
    (htaken : s.Taken) :
    ∃ answers s', insertMachine.run s as = .ok (answers, s') ∧ InsertsGrow s.table as answers s'.table ∧
      ((∃ p < s.table.numPages, (s.table.entry p).valid = true) → ∀ r ∈ answers, r.inside = true) := by
  induction as generalizing s with
  | nil =>
    exact ⟨[], s, rfl, ⟨rfl, by simp only [List.length_nil, Nat.pow_zero, Nat.mul_one]; omega, fun v _ => rfl,
      fun i hi => by simp at hi, fun v hv _ => entry_of_le hv⟩, fun _ r hr => absurd hr List.not_mem_nil⟩
  | cons a as ih =>
    obtain ⟨inside, hinside, ⟨hlt, hstep⟩ | ⟨hge, -⟩⟩ := insert_taken h0 htaken a
    · have hgrown : (s.table.grown a.block.base (min (s.table.numPages * 2) maxPtLen)).numPages =
          min (s.table.numPages * 2) maxPtLen := Pagetable.numPages_grown _ (by omega)
      have hnum : (doubledFor s.table a).numPages = min (s.table.numPages * 2) maxPtLen := by
        rw [doubledFor, Pagetable.numPages_store, hgrown]
      -- the page that the insert has stored is valid for the next one
      have hvalid : ∃ p < (doubledFor s.table a).numPages, ((doubledFor s.table a).entry p).valid = true :=
        ⟨s.table.numPages, by omega, by
          rw [doubledFor, Pagetable.entry_store _ _ (by rw [hgrown]; omega), if_pos rfl]
          rfl⟩
      obtain ⟨answers, s', hrun, hI, hin⟩ := @ih ⟨doubledFor s.table a, a.past⟩ (by simp only; omega)
        (by simp only; omega) (.inl hvalid)
      exact ⟨_, s', (insertMachine.run_cons_ok).mpr ⟨_, _, answers, hstep, hrun, rfl⟩,
        insertsGrow_cons inside h0 hlt hI, fun h => List.forall_mem_cons.mpr ⟨hinside h, hin hvalid⟩⟩
    · obtain ⟨answers, hrun, hI⟩ := insertsGrow_full (a :: as) (Nat.le_antisymm hmax hge) htaken
      exact ⟨answers, s, hrun, hI⟩

/-- **Runs of inserts.** With a `realloc` that succeeds, the inserts into a table with a valid page go to its pages
`L`, `2 * L`, `4 * L` and so on, each on a new page, until the table has its maximal length and refuses them all. With
no valid page, and none past its end, the first insert goes past the end and is lost, and the other ones are those of
a run into a table with a valid page. -/
theorem insert_runs (as : List Inserting) (past : Pte) (h0 : 0 < pt.numPages) (hmax : pt.numPages ≤ maxPtLen) :
    ((∃ p < pt.numPages, (pt.entry p).valid = true) →
        ∃ answers s', insertMachine.run ⟨pt, past⟩ as = .ok (answers, s') ∧
          InsertsGrow pt as answers s'.table ∧ ∀ r ∈ answers, r.inside = true) ∧
      ((∀ p < pt.numPages, (pt.entry p).valid = false) → past.valid = false → ∀ a, ∃ answers s',
        insertMachine.run ⟨pt, past⟩ (a :: as) = .ok (⟨.page pt.numPages .nominal, false⟩ :: answers, s') ∧
        InsertsGrow pt as answers s'.table) := by
  refine ⟨fun hvalid => ?_, fun hfree hpast a => ?_⟩
  · obtain ⟨answers, s', hrun, hI, hin⟩ := insertsGrow_run (s := ⟨pt, past⟩) as h0 hmax (.inl hvalid)
    exact ⟨answers, s', hrun, hI, hin hvalid⟩
  · obtain ⟨answers, s', hrun, hI, -⟩ := insertsGrow_run (s := ⟨pt, .mapped a.pfn a.prot⟩) as h0 hmax (.inr rfl)
    exact ⟨answers, s', (insertMachine.run_cons_ok).mpr
      ⟨_, _, answers, insert_lost (s := ⟨pt, past⟩) hfree hpast a, hrun, rfl⟩, hI⟩

def takenTable : Pagetable := ⟨0x100, [.empty, .mapped 3 protRead]⟩
def twoInserts : List Inserting :=
  [⟨5, protRead, ⟨0x200, fun _ => .empty⟩, .empty⟩, ⟨6, protRead, ⟨0x300, fun _ => .empty⟩, .empty⟩]

theorem insert_runs_taken :
    ((∃ p < takenTable.numPages, (takenTable.entry p).valid = true) → ∃ answers s',
        insertMachine.run ⟨takenTable, .empty⟩ twoInserts = .ok (answers, s') ∧
        InsertsGrow takenTable twoInserts answers s'.table ∧ ∀ r ∈ answers, r.inside = true) ∧
      ((∀ p < takenTable.numPages, (takenTable.entry p).valid = false) → Pte.empty.valid = false → ∀ a, ∃ answers s',
        insertMachine.run ⟨takenTable, .empty⟩ (a :: twoInserts) =
          .ok (⟨.page takenTable.numPages .nominal, false⟩ :: answers, s') ∧
        InsertsGrow takenTable twoInserts answers s'.table) :=
  insert_runs _ _ (by decide) (by decide)

end Runs

end MooseOS
