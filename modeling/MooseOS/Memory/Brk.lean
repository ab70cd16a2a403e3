import Mathlib.Data.List.GetD
import MooseOS.Memory.Basic
import MooseOS.Pagetable.Spec

/-!
# What `setKernelBrk` does to a full table

The table of region 0 has its maximal length here, so no write expands it.

* `Grown`, `Shrunk` : the loop over the pages after some of its turns, in either direction;
* `validLoop_spec`, `invalidLoop_spec` : the loops over the valid bits;
* `Moved` : the state after a call that moves the break to another page;
* `setKernelBrk_same`, `setKernelBrk_moved` : a call stays on its page, or moves the break.
-/

namespace MooseOS
open Prog

abbrev protHeap : Nat := protRead ||| protWrite

/-! ## The loop over the pages -/

/-- The loop has given the pages after `p` the next free frames, and 0 once there is none. -/
structure Grown (p : Nat) (table : Pagetable) (free : List Nat) (s : Moving) : Prop where
  le : p ≤ s.page
  numPages : s.table.numPages = maxPtLen
  entry : ∀ v < maxPtLen, s.table.entry v =
    if p < v ∧ v ≤ s.page then .mapped (free.getD (v - (p + 1)) 0) protHeap else table.entry v
  free : s.free = free.drop (s.page - p)
  inside : s.inside = decide (s.page < maxPtLen)

/-- The frames that shrinking from page `p` by `n` pages gives back, in order. -/
def released (env : Env) (table : Pagetable) (p n : Nat) : List Nat :=
  (((List.range n).map (p - ·)).filter fun v => decide ((table.entry v).pfn.toNat ≠ 0 ∧ env.malloc v = true)).map
    fun v => (table.entry v).pfn.toNat

/-- The loop has emptied the pages down from `p`, and put their frames into the list. -/
structure Shrunk (env : Env) (p : Nat) (table : Pagetable) (free : List Nat) (s : Moving) : Prop where
  le : s.page ≤ p
  numPages : s.table.numPages = maxPtLen
  entry : ∀ v < maxPtLen, s.table.entry v = if s.page < v ∧ v ≤ p then .empty else table.entry v
  free : s.free = free ++ released env table p (p - s.page)
  inside : s.inside = true

section Turns
variable {env : Env} {p : Nat} {table : Pagetable} {free : List Nat} {s : Moving}

theorem pop_drop (n : Nat) : Fifo.pop (free.drop n) = (free.getD n 0, free.drop (n + 1)) := by
  rcases Nat.lt_or_ge n free.length with h | h
  · rw [List.drop_eq_getElem_cons h, List.getD_eq_getElem _ _ h]
    rfl
  · rw [List.drop_eq_nil_of_le h, List.drop_eq_nil_of_le (by omega), List.getD_eq_default _ _ h]
    rfl

theorem growTurn_grown (env : Env) (h : Grown p table free s) :
    ∃ t, growTurn env s = .ok t ∧ Grown p table free t ∧ t.page = s.page + 1 := by
  have hle := h.le
  have hnum := h.numPages
  have hpop : Fifo.pop s.free = (free.getD (s.page - p) 0, free.drop (s.page + 1 - p)) := by
    rw [h.free, pop_drop, show s.page - p + 1 = s.page + 1 - p by omega]
  unfold growTurn
  simp only [hpop]
  rcases Nat.lt_or_ge (s.page + 1) maxPtLen with hlt | hge
  · rw [pagetableWrite_of_lt (by omega), ok_bind]
    refine ⟨_, rfl, ⟨by simp only; omega, by simpa using hnum, fun v hv => ?_, rfl, ?_⟩, rfl⟩
    · simp only [Pagetable.entry_store _ _ (show s.page + 1 < s.table.numPages by omega), h.entry v hv]
      by_cases hvp : v = s.page + 1
      · rw [if_pos hvp, if_pos (by omega), show v - (p + 1) = s.page - p by omega]
      · rw [if_neg hvp]
        exact if_congr (by omega) rfl rfl
    · simp only [h.inside, Bool.and_true]
      exact decide_eq_decide.mpr (by omega)
  · have hout : ∀ v < maxPtLen, (p < v ∧ v ≤ s.page + 1 ↔ p < v ∧ v ≤ s.page) := by omega
    rcases pagetableWrite_cases (by rw [hnum]; decide) (s.page + 1) (free.getD (s.page - p) 0)
      (protRead ||| protWrite) (env.realloc (s.page + 1)) with ⟨hw, hc⟩ | ⟨hw, hc⟩ | ⟨blk, n, -, -, -, hc, -⟩
    · rw [hw, ok_bind, Pagetable.store_of_le _ (by omega)]
      refine ⟨_, rfl, ⟨by simp only; omega, hnum, fun v hv => ?_, rfl, ?_⟩, rfl⟩
      · simp only [h.entry v hv, hout v hv]
      · simp only [hnum, decide_eq_false (show ¬ s.page + 1 < maxPtLen by omega), Bool.and_false]
    · rw [hw, ok_bind]
      refine ⟨_, rfl, ⟨by simp only; omega, hnum, fun v hv => ?_, rfl, ?_⟩, rfl⟩
      · simp only [h.entry v hv, hout v hv]
      · simp only [h.inside, Bool.and_true]
        exact decide_eq_decide.mpr (by omega)
    · omega

theorem released_succ (env : Env) (table : Pagetable) (p n : Nat) :
    released env table p (n + 1) = (Fifo.push (released env table p n) (table.entry (p - n)).pfn.toNat
      (env.malloc (p - n))).2 := by
  unfold released
  simp only [List.range_succ, List.map_append, List.map_cons, List.map_nil, List.filter_append,
    List.filter_cons, List.filter_nil, Fifo.push]
  by_cases h0 : (table.entry (p - n)).pfn.toNat = 0
  · simp [h0]
  · cases env.malloc (p - n) <;> simp [h0]

theorem push_append (xs : List Nat) (x : Nat) (memory : Bool) :
    (Fifo.push (free ++ xs) x memory).2 = free ++ (Fifo.push xs x memory).2 := by
  unfold Fifo.push
  split <;> simp

theorem shrinkTurn_shrunk (hp : p < maxPtLen) (h : Shrunk env p table free s) (hpos : 0 < s.page) :
    ∃ t, shrinkTurn env s = .ok t ∧ Shrunk env p table free t ∧ t.page = s.page - 1 := by
  have hle := h.le
  have hnum := h.numPages
  have hlt : s.page < s.table.numPages := by omega
  have hread : s.table.read env.beyond s.page = table.entry s.page := by
    rw [Pagetable.read_of_lt _ hlt, h.entry _ (by omega), if_neg (by omega)]
  have hpfn : pfnForPage s.table s.page env.beyond = ⟨(table.entry s.page).pfn.toNat, s.table, true⟩ := by
    simp [pfnForPage, hread, hlt, Nat.le_of_lt hlt]
  unfold shrinkTurn
  simp only [hpfn, pagetableRemove]
  refine ⟨_, rfl, ⟨by simp only; omega, by simpa using hnum, fun v hv => ?_, ?_, ?_⟩, rfl⟩
  · simp only [Pagetable.entry_store _ _ hlt, h.entry v hv]
    by_cases hvp : v = s.page
    · rw [if_pos hvp, if_pos (by omega)]
    · rw [if_neg hvp]
      exact if_congr (by omega) rfl rfl
  · simp only [h.free]
    rw [push_append, show p - (s.page - 1) = p - s.page + 1 by omega, released_succ,
      show p - (p - s.page) = s.page by omega]
  · simp [h.inside, hlt]

end Turns

section Loop
variable {env : Env} {p q : Nat} {table : Pagetable} {free : List Nat}

/-- **Growing.** The loop over the pages ends at the target, even where that is past the table. -/
theorem moveLoop_grow (env : Env) (free : List Nat) (hpq : p < q) (hp : p < maxPtLen)
    (hn : table.numPages = maxPtLen) :
    ∃ s, moveLoop env p q table free = .ok s ∧ Grown p table free s ∧ s.page = q := by
  have h0 : Grown p table free ⟨p, table, free, true⟩ :=
    ⟨by simp, hn, fun v hv => (if_neg (by simp only; omega)).symm, by simp, by simp [hp]⟩
  obtain ⟨s, hs, ⟨hG, hle⟩, hc⟩ := whileLoop_total (fun s : Moving => decide (s.page ≠ q)) (growTurn env)
    (fun s => Grown p table free s ∧ s.page ≤ q) (fun s => q - s.page)
    (by
      intro s ⟨hG, hle⟩ hc
      have hne : s.page ≠ q := of_decide_eq_true hc
      obtain ⟨t, ht, hGt, hpage⟩ := growTurn_grown env hG
      exact ⟨t, ht, ⟨hGt, by omega⟩, by omega⟩)
    (p + q + 1) ⟨p, table, free, true⟩ ⟨h0, by simp only; omega⟩ (by simp only; omega)
  refine ⟨s, ?_, hG, by simpa using hc⟩
  rw [moveLoop, if_pos hpq, hs]

theorem moveLoop_shrink (env : Env) (free : List Nat) (hqp : q < p) (hp : p < maxPtLen)
    (hn : table.numPages = maxPtLen) :
    ∃ s, moveLoop env p q table free = .ok s ∧ Shrunk env p table free s ∧ s.page = q := by
  have h0 : Shrunk env p table free ⟨p, table, free, true⟩ :=
    ⟨by simp, hn, fun v hv => (if_neg (by simp only; omega)).symm, by simp [released], rfl⟩
  obtain ⟨s, hs, ⟨hS, hle⟩, hc⟩ := whileLoop_total (fun s : Moving => decide (s.page ≠ q)) (shrinkTurn env)
    (fun s => Shrunk env p table free s ∧ q ≤ s.page) (fun s => s.page - q)
    (by
      intro s ⟨hS, hle⟩ hc
      have hne : s.page ≠ q := of_decide_eq_true hc
      obtain ⟨t, ht, hSt, hpage⟩ := shrinkTurn_shrunk hp hS (by omega)
      exact ⟨t, ht, ⟨hSt, by omega⟩, by omega⟩)
    (p + q + 1) ⟨p, table, free, true⟩ ⟨h0, by simp only; omega⟩ (by simp only; omega)
  refine ⟨s, ?_, hS, by simpa using hc⟩
  rw [moveLoop, if_neg (by omega), hs]

end Loop

/-! ## The loops over the valid bits -/

/-- The cells from `a` on and before `b` have the valid bit `valid`, all else is as in `table`. -/
structure Marked (a b : Nat) (valid : Bool) (table t : Pagetable) : Prop where
  numPages : t.numPages = table.numPages
  entry : ∀ v < table.numPages, t.entry v =
    if a ≤ v ∧ v < b then { table.entry v with valid := valid } else table.entry v

section Marks
variable {a b : Nat} {valid : Bool} {table t : Pagetable}

theorem marked_refl (a : Nat) (valid : Bool) (table : Pagetable) : Marked a a valid table table :=
  ⟨rfl, fun v _ => (if_neg (by omega)).symm⟩

theorem marked_succ (h : Marked a b valid table t) (hb : b < table.numPages) (hab : a ≤ b) :
    Marked a (b + 1) valid table (t.setValid b valid) := by
  have hnum := h.numPages
  refine ⟨by rw [Pagetable.numPages_setValid, hnum], fun v hv => ?_⟩
  simp only [Pagetable.entry_setValid, h.entry v hv, hnum]
  by_cases hvb : v = b
  · rw [if_pos ⟨hvb, hb⟩, if_neg (by omega), if_pos (by omega)]
  · rw [if_neg (by omega)]
    exact if_congr (by omega) rfl rfl

theorem pagetableGetEntry_of_lt {i : Nat} (h : i < table.numPages) : pagetableGetEntry table i = some i := by
  rw [pagetableGetEntry, if_neg (by omega)]

/-- A loop that goes up to `e`, and sets the valid bit of each cell that it passes, ends within the table. -/
theorem markLoop_spec {c : Marking → Bool} {turn : Marking → Exec Marking} {e fuel : Nat}
    (hc : ∀ b t, c ⟨b, t, true, false⟩ = decide (b < e))
    (hturn : ∀ b t, b < t.numPages → turn ⟨b, t, true, false⟩ = .ok ⟨b + 1, t.setValid b valid, true, false⟩)
    (hae : a ≤ e) (he : e ≤ table.numPages) (hfuel : e - a < fuel) :
    ∃ t, whileLoop c turn fuel ⟨a, table, true, false⟩ = .ok ⟨e, t, true, false⟩ ∧ Marked a e valid table t := by
  obtain ⟨_, hs, ⟨b, t, rfl, hM, hab, hbe⟩, hend⟩ := whileLoop_total c turn
    (fun s => ∃ b t, s = ⟨b, t, true, false⟩ ∧ Marked a b valid table t ∧ a ≤ b ∧ b ≤ e) (fun s => e - s.page)
    (by
      rintro _ ⟨b, t, rfl, hM, hab, hbe⟩ hb
      have hlt : b < e := of_decide_eq_true (hc b t ▸ hb)
      exact ⟨_, hturn b t (by rw [hM.numPages]; omega),
        ⟨b + 1, _, rfl, marked_succ hM (by omega) hab, by omega, hlt⟩, by simp only; omega⟩)
    fuel ⟨a, table, true, false⟩ ⟨a, table, rfl, marked_refl _ _ _, by omega, hae⟩ hfuel
  have hbe' : b = e := by
    have := of_decide_eq_false (hc b t ▸ hend)
    omega
  subst hbe'
  exact ⟨t, hs, hM⟩

theorem validLoop_spec (table : Pagetable) {q : Nat} (hq : q < table.numPages) :
    ∃ t, validLoop q ⟨0, table, true, false⟩ = .ok ⟨q + 1, t, true, false⟩ ∧ Marked 0 (q + 1) true table t := by
  refine markLoop_spec (fun b t => ?_) (fun b t hb => ?_) (by omega) (by omega) (by omega)
  · simp
  · simp [validTurn, pagetableGetEntry_of_lt hb, hb]

theorem invalidLoop_spec (table : Pagetable) (hab : a ≤ b) (hb : b ≤ table.numPages) :
    ∃ t, invalidLoop b ⟨a, table, true, false⟩ = .ok ⟨b, t, true, false⟩ ∧ Marked a b false table t := by
  refine markLoop_spec (fun b t => rfl) (fun b t hb => ?_) hab hb (by omega)
  simp [invalidTurn, pagetableGetEntry_of_lt hb, hb]

theorem validLoop_total (q : Nat) (table : Pagetable) (inside : Bool) :
    ∃ s, validLoop q ⟨0, table, inside, false⟩ = .ok s ∧ s.table.numPages = table.numPages ∧
      s.table.base = table.base ∧ (inside = false → s.inside = false) := by
  obtain ⟨s, hs, hI, -⟩ := whileLoop_total (fun s : Marking => !s.returned && decide (s.page ≤ q)) validTurn
    (fun s => s.table.numPages = table.numPages ∧ s.table.base = table.base ∧ (inside = false → s.inside = false))
    (fun s => if s.returned then 0 else q + 2 - s.page)
    (by
      intro s ⟨hn, hb, hi⟩ hc
      simp only [Bool.and_eq_true, Bool.not_eq_true', decide_eq_true_eq] at hc
      unfold validTurn
      cases pagetableGetEntry s.table s.page with
      | none => exact ⟨_, rfl, ⟨hn, hb, hi⟩, by simp only [hc.1, if_true, Bool.false_eq_true, if_false]; omega⟩
      | some i =>
        refine ⟨_, rfl, ⟨by simpa using hn, hb, fun h => by simp [hi h]⟩, ?_⟩
        simp only [hc.1, Bool.false_eq_true, if_false]
        omega)
    (q + 3) ⟨0, table, inside, false⟩ ⟨rfl, rfl, id⟩ (by simp)
  exact ⟨s, hs, hI⟩

theorem invalidLoop_total (b : Nat) (s₀ : Marking) :
    ∃ s, invalidLoop b s₀ = .ok s ∧ s.table.numPages = s₀.table.numPages ∧ s.table.base = s₀.table.base ∧
      (s₀.inside = false → s.inside = false) := by
  obtain ⟨s, hs, hI, -⟩ := whileLoop_total (fun s : Marking => decide (s.page < b)) invalidTurn
    (fun s => s.table.numPages = s₀.table.numPages ∧ s.table.base = s₀.table.base ∧
      (s₀.inside = false → s.inside = false)) (fun s => b - s.page)
    (by
      intro s ⟨hn, hb, hi⟩ hc
      have hpage : s.page < b := of_decide_eq_true hc
      unfold invalidTurn
      cases pagetableGetEntry s.table s.page with
      | none => exact ⟨_, rfl, ⟨hn, hb, hi⟩, by simp only; omega⟩
      | some i =>
        exact ⟨_, rfl, ⟨by simpa using hn, hb, fun h => by simp [hi h]⟩, by simp only; omega⟩)
    (b + 1) s₀ ⟨rfl, rfl, id⟩ (by omega)
  exact ⟨s, hs, hI⟩

end Marks

/-! ## The call -/

/-- The copies of the sign bit that `>>` brings in are shifted out again. -/
theorem toNat_roundDown (addr : Word) :
    ((addr.sshiftRight pageShift) <<< pageShift).toNat = pageOf addr * pageSize := by
  have hbits : addr.sshiftRight pageShift <<< pageShift = (addr >>> pageShift) <<< pageShift := by
    ext i hi
    simp only [pageShift, BitVec.getElem_shiftLeft, BitVec.getElem_sshiftRight, BitVec.getElem_ushiftRight]
    by_cases hlow : i < 13
    · simp [hlow]
    · simp [show 13 + (i - 13) < 32 by omega]
  have hlt := addr.isLt
  rw [hbits, BitVec.toNat_shiftLeft, BitVec.toNat_ushiftRight, pageOf_eq, Nat.shiftLeft_eq,
    Nat.shiftRight_eq_div_pow]
  simp only [pageShift, pageSize]
  omega

theorem pageOf_roundDown (addr : Word) : pageOf ((addr.sshiftRight pageShift) <<< pageShift) = pageOf addr := by
  rw [pageOf_eq, toNat_roundDown, Nat.mul_div_cancel _ (by decide)]

/-- The state after a call that moves the break from page `p` to page `q`. -/
structure Moved (env : Env) (addr : Word) (k k' : Kernel) : Prop where
  enabled : k'.virtualMemoryEnabled = true
  numPages : k'.pagetableRegion0.numPages = maxPtLen
  brk : pageOf k'.kernelBreak = pageOf addr
  kept : ∀ v, v ≤ pageOf k.kernelBreak → v ≤ pageOf addr →
    k'.pagetableRegion0.entry v = { k.pagetableRegion0.entry v with valid := true }
  grown : ∀ v, pageOf k.kernelBreak < v → v ≤ pageOf addr →
    k'.pagetableRegion0.entry v = .mapped (k.freeMemory.getD (v - (pageOf k.kernelBreak + 1)) 0) protHeap
  shrunk : ∀ v, pageOf addr < v → v ≤ pageOf k.kernelBreak → k'.pagetableRegion0.entry v = .empty
  above : ∀ v < maxPtLen, pageOf addr < v → pageOf k.kernelBreak < v →
    k'.pagetableRegion0.entry v = { k.pagetableRegion0.entry v with valid := false }
  free : k'.freeMemory = if pageOf k.kernelBreak < pageOf addr
    then k.freeMemory.drop (pageOf addr - pageOf k.kernelBreak)
    else k.freeMemory ++ released env k.pagetableRegion0 (pageOf k.kernelBreak) (pageOf k.kernelBreak - pageOf addr)

theorem Moved.valid_iff {env : Env} {addr : Word} {k k' : Kernel} (h : Moved env addr k k') {v : Nat}
    (hv : v < maxPtLen) : (k'.pagetableRegion0.entry v).valid = true ↔ v ≤ pageOf addr := by
  rcases Nat.lt_or_ge (pageOf addr) v with hq | hq
  · refine iff_of_false ?_ (by omega)
    rcases Nat.lt_or_ge (pageOf k.kernelBreak) v with hp | hp
    · simp [h.above v hv hq hp]
    · simp [h.shrunk v hq hp]
  · refine iff_of_true ?_ hq
    rcases Nat.lt_or_ge (pageOf k.kernelBreak) v with hp | hp
    · simp [h.grown v hp hq]
    · simp [h.kept v hp hq]

section Call
variable {k : Kernel} {addr : Word}

theorem setKernelBrk_same (env : Env) (hp : pageOf addr = pageOf k.kernelBreak) :
    setKernelBrk env addr k = .ok ⟨0, { k with kernelBreak := addr }, true⟩ := by
  unfold setKernelBrk
  split
  · rfl
  · rw [if_pos hp]

/-- Past the first loop, on any table, the call returns and keeps the block of the table and the registers. -/
theorem setKernelBrk_after {env : Env} {s : Moving} (hv : k.virtualMemoryEnabled = true)
    (hne : pageOf addr ≠ pageOf k.kernelBreak)
    (hs : moveLoop env (pageOf k.kernelBreak) (pageOf addr) k.pagetableRegion0 k.freeMemory = .ok s) :
    ∃ r, setKernelBrk env addr k = .ok r ∧ r.after.pagetableRegion0.numPages = s.table.numPages ∧
      r.after.pagetableRegion0.base = s.table.base ∧ r.after.registers = k.registers ∧
      (s.inside = false → r.inside = false) := by
  obtain ⟨m, hm, hn, hb, hi⟩ := validLoop_total (pageOf addr) s.table s.inside
  obtain ⟨u, hu, hn', hb', hi'⟩ := invalidLoop_total (kernelStackLimit >>> pageShift) m
  have hbase : vmem0Base >>> pageShift = 0 := rfl
  unfold setKernelBrk
  simp only [hv, Bool.true_eq_false, if_false, if_neg hne, hs, ok_bind, hbase, hm]
  cases m.returned with
  | true => exact ⟨_, rfl, hn, hb, rfl, hi⟩
  | false =>
    simp only [Bool.false_eq_true, if_false, hu, ok_bind]
    exact ⟨_, rfl, hn'.trans hn, hb'.trans hb, rfl, fun h => hi' (hi h)⟩

theorem setKernelBrk_of_moved {env : Env} {s : Moving} (hv : k.virtualMemoryEnabled = true)
    (hne : pageOf addr ≠ pageOf k.kernelBreak) (hq : pageOf addr < maxPtLen)
    (hs : moveLoop env (pageOf k.kernelBreak) (pageOf addr) k.pagetableRegion0 k.freeMemory = .ok s)
    (hn : s.table.numPages = maxPtLen) (hin : s.inside = true) :
    ∃ table, setKernelBrk env addr k = .ok ⟨0, { k with
        pagetableRegion0 := table, freeMemory := s.free
        kernelBreak := (addr.sshiftRight pageShift) <<< pageShift }, true⟩ ∧
      table.numPages = maxPtLen ∧ ∀ v < maxPtLen, table.entry v =
        if v ≤ pageOf addr then { s.table.entry v with valid := true }
        else { s.table.entry v with valid := false } := by
  obtain ⟨t, ht, hM⟩ := validLoop_spec s.table (q := pageOf addr) (by omega)
  obtain ⟨u, hu, hM'⟩ := invalidLoop_spec t (a := pageOf addr + 1) (b := maxPtLen) (by omega)
    (by rw [hM.numPages]; omega)
  have hbase : vmem0Base >>> pageShift = 0 := rfl
  have hlimit : kernelStackLimit >>> pageShift = maxPtLen := rfl
  refine ⟨u, ?_, by rw [hM'.numPages, hM.numPages, hn], fun v hv => ?_⟩
  · unfold setKernelBrk
    simp only [hv, Bool.true_eq_false, if_false, if_neg hne, hs, ok_bind, hin, hbase, ht, hlimit, hu,
      Bool.false_eq_true]
  · rw [hM'.entry v (by rw [hM.numPages]; omega), hM.entry v (by omega)]
    by_cases hvq : v ≤ pageOf addr
    · rw [if_neg (by omega), if_pos (by omega), if_pos hvq]
    · rw [if_pos (by omega), if_neg (by omega), if_neg hvq]

/-- **A call that moves the break**, on a table of maximal length, within it. -/
theorem setKernelBrk_moved (env : Env) {k : Kernel} (addr : Word) (hv : k.virtualMemoryEnabled = true)
    (hn : k.pagetableRegion0.numPages = maxPtLen) (hne : pageOf addr ≠ pageOf k.kernelBreak)
    (hp : pageOf k.kernelBreak < maxPtLen) (hq : pageOf addr < maxPtLen) :
    ∃ k', setKernelBrk env addr k = .ok ⟨0, k', true⟩ ∧ Moved env addr k k' := by
  rcases Nat.lt_or_ge (pageOf k.kernelBreak) (pageOf addr) with hpq | hqp
  · obtain ⟨s, hs, hG, hpage⟩ := moveLoop_grow env k.freeMemory hpq hp hn
    obtain ⟨table, hrun, hnum, hentry⟩ :=
      setKernelBrk_of_moved hv hne hq hs hG.numPages (by rw [hG.inside, hpage]; exact decide_eq_true hq)
    refine ⟨_, hrun, hv, hnum, pageOf_roundDown addr, fun v h1 h2 => ?_, fun v h1 h2 => ?_, fun v h1 h2 => by omega,
      fun v hv h1 h2 => ?_, ?_⟩
    · simp only [hentry v (by omega), if_pos h2, hG.entry v (by omega),
        if_neg (show ¬ (pageOf k.kernelBreak < v ∧ v ≤ s.page) by omega)]
    · simp only [hentry v (by omega), if_pos h2, hG.entry v (by omega), hpage, if_pos (And.intro h1 h2)]
      rfl
    · simp only [hentry v hv, if_neg (show ¬ v ≤ pageOf addr by omega), hG.entry v hv, hpage,
        if_neg (show ¬ (pageOf k.kernelBreak < v ∧ v ≤ pageOf addr) by omega)]
    · simp only [hG.free, hpage, if_pos hpq]
  · have hqp' : pageOf addr < pageOf k.kernelBreak := by omega
    obtain ⟨s, hs, hS, hpage⟩ := moveLoop_shrink env k.freeMemory hqp' hp hn
    obtain ⟨table, hrun, hnum, hentry⟩ := setKernelBrk_of_moved hv hne hq hs hS.numPages hS.inside
    refine ⟨_, hrun, hv, hnum, pageOf_roundDown addr, fun v h1 h2 => ?_, fun v h1 h2 => by omega, fun v h1 h2 => ?_,
      fun v hv h1 h2 => ?_, ?_⟩
    · simp only [hentry v (by omega), if_pos h2, hS.entry v (by omega),
        if_neg (show ¬ (s.page < v ∧ v ≤ pageOf k.kernelBreak) by omega)]
    · simp only [hentry v (by omega), if_neg (show ¬ v ≤ pageOf addr by omega), hS.entry v (by omega), hpage,
        if_pos (And.intro h1 h2)]
      rfl
    · simp only [hentry v hv, if_neg (show ¬ v ≤ pageOf addr by omega), hS.entry v hv, hpage,
        if_neg (show ¬ (pageOf addr < v ∧ v ≤ pageOf k.kernelBreak) by omega)]
    · simp only [hS.free, hpage, if_neg (show ¬ pageOf k.kernelBreak < pageOf addr by omega)]

end Call

/-! ## A kernel after booting -/

/-- A kernel that has booted with the break `brk`: the pages below it are mapped to the frames of their numbers. -/
def bootKernel (brk : Word) (free : List Nat) : Kernel where
  kernelDataStart := 0
  kernelDataEnd := brk
  kernelBreak := brk
  virtualMemoryEnabled := true
  pagetableRegion0 := ⟨0, (List.range maxPtLen).map fun v =>
    if v * pageSize < brk.toNat then .mapped v protHeap else .empty⟩
  pagetableRegion1 := ⟨0, List.replicate maxPtLen .empty⟩
  freeMemory := free
  registers := fun _ => 0

/-- An outside where every `malloc` succeeds and no `realloc` does. -/
def calmEnv : Env := ⟨fun _ => none, fun _ => true, .empty⟩

theorem numPages_bootKernel (brk : Word) (free : List Nat) :
    (bootKernel brk free).pagetableRegion0.numPages = maxPtLen := by
  simp [bootKernel, Pagetable.numPages]

theorem entry_bootKernel (brk : Word) (free : List Nat) {v : Nat} (hv : v < maxPtLen) :
    (bootKernel brk free).pagetableRegion0.entry v =
      if v * pageSize < brk.toNat then .mapped v protHeap else .empty := by
  simp only [bootKernel, Pagetable.entry, List.getD_eq_getElem?_getD, List.getElem?_map, List.getElem?_range hv]
  rfl

theorem entry_bootKernel_above (brk : Word) (free : List Nat) {v : Nat} (hp : pageOf brk < v) (hv : v < maxPtLen) :
    (bootKernel brk free).pagetableRegion0.entry v = .empty := by
  rw [entry_bootKernel _ _ hv, if_neg]
  rw [pageOf_eq] at hp
  simp only [pageSize] at hp ⊢
  omega

end MooseOS
