import MooseOS.Memory.Enable

/-!
# What booting maps

The range of the data writes page after page from page 0 on. A table of `L` pages takes page `L` for one of its own,
is expanded for page `L + 1`, and so has no entry for page `L` afterwards.

* `tableLen n` : the length of the table after `n` expansions;
* `Hole n v` : page `v` is one where the table ended before one of them;
* `BootTable` : the table that the range of the data leaves;
* `boot_outcome` : what `initVirtualMemory` does, for all addresses and outcomes of `realloc`;
* `boot_then_move` : what the first call of `setKernelBrk` that moves the break makes of it.
-/

namespace MooseOS
open Prog

/-- The length of a table of four pages after `n` expansions. -/
def tableLen (n : Nat) : Nat := 4 * 2 ^ n

/-- The table had `v` pages before one of its first `n` expansions. -/
def Hole (n v : Nat) : Prop := ∃ i, i < n ∧ v = tableLen i

instance (n v : Nat) : Decidable (Hole n v) := inferInstanceAs (Decidable (∃ i, i < n ∧ v = tableLen i))

theorem tableLen_succ (n : Nat) : tableLen (n + 1) = tableLen n * 2 := by
  rw [tableLen, tableLen, Nat.pow_succ, Nat.mul_assoc]

theorem four_le_tableLen (n : Nat) : 4 ≤ tableLen n := Nat.le_mul_of_pos_right 4 (Nat.two_pow_pos n)

theorem tableLen_lt_iff {n : Nat} (hn : n ≤ 5) : tableLen n < maxPtLen ↔ n < 5 := by
  have : ∀ m ≤ 5, (tableLen m < maxPtLen ↔ m < 5) := by decide
  exact this n hn

theorem tableLen_le {n : Nat} (hn : n ≤ 5) : tableLen n ≤ maxPtLen := by
  have : ∀ m ≤ 5, tableLen m ≤ maxPtLen := by decide
  exact this n hn

theorem hole_succ (n v : Nat) : Hole (n + 1) v ↔ Hole n v ∨ v = tableLen n := by
  unfold Hole
  constructor
  · rintro ⟨i, hi, rfl⟩
    rcases Nat.lt_or_eq_of_le (Nat.le_of_lt_succ hi) with hlt | rfl
    · exact .inl ⟨i, hlt, rfl⟩
    · exact .inr rfl
  · rintro (⟨i, hi, rfl⟩ | rfl)
    · exact ⟨i, Nat.lt_succ_of_lt hi, rfl⟩
    · exact ⟨n, Nat.lt_succ_self n, rfl⟩

/-- An expansion for the page after the first one past the table doubles it. -/
theorem Doubled.double {L m : Nat} (hL : 0 < L) (h : Doubled L (L + 1) m) : m = min (L * 2) maxPtLen := by
  obtain ⟨k, hk, rfl, -, hlt⟩ := h
  rcases Nat.lt_or_eq_of_le hk with hk' | rfl
  · have := hlt 1 (Nat.le_refl 1) hk'
    omega
  · rfl

section Fill
variable {env : Env} {prot n : Nat} {s : Ranging}

/-- The loop after `n` expansions: the pages before `frame` are mapped to the frames of their numbers, but for those
where the table ended. -/
structure Filled (env : Env) (prot n : Nat) (s : Ranging) : Prop where
  le : n ≤ 5
  numPages : s.table.numPages = tableLen n
  passed : ∀ v, Hole n v → v < s.frame
  frame : s.frame ≤ tableLen n + 1
  entry : ∀ v < tableLen n, s.table.entry v = if v < s.frame ∧ ¬ Hole n v then .mapped v prot else .empty
  grew : ∀ i < n, env.realloc (tableLen i + 1) ≠ none
  inside : s.inside = decide (s.frame ≤ 4)
  stopped : s.failed = true → s.frame = tableLen n + 1 ∧ (n = 5 ∨ env.realloc (tableLen n + 1) = none)

theorem filled_store (h : Filled env prot n s) (hle : s.frame ≤ tableLen n) (didExpand : Bool) :
    Filled env prot n ⟨s.frame + 1, s.table.store s.frame (.mapped s.frame prot),
      s.inside && decide (s.frame < s.table.numPages), didExpand, false⟩ := by
  have hnum := h.numPages
  have hfour := four_le_tableLen n
  refine ⟨h.le, by simpa using hnum, fun v hv => Nat.lt_succ_of_lt (h.passed v hv), by simp only; omega,
    fun v hv => ?_, h.grew, ?_, fun hf => by cases hf⟩
  · rcases Nat.lt_or_eq_of_le hle with hlt | heq
    · simp only [Pagetable.entry_store _ _ (show s.frame < s.table.numPages by omega), h.entry v hv]
      by_cases hvf : v = s.frame
      · have hnot : ¬ Hole n v := fun hole => by
          have := h.passed v hole
          omega
        rw [if_pos hvf, if_pos ⟨by omega, hnot⟩, hvf]
      · rw [if_neg hvf]
        exact if_congr (and_congr_left' (by omega)) rfl rfl
    · simp only [Pagetable.store_of_le _ (show s.table.numPages ≤ s.frame by omega), h.entry v hv]
      exact if_congr (and_congr_left' (by omega)) rfl rfl
  · simp only [h.inside, ← Bool.decide_and]
    refine decide_eq_decide.mpr ⟨fun ⟨h1, h2⟩ => ?_, fun h1 => ⟨by omega, by omega⟩⟩
    -- the table has four pages as long as the loop is inside
    by_contra hgt
    have hn : n = 0 := by
      by_contra hpos
      have := h.passed (tableLen 0) ⟨0, by omega, rfl⟩
      have : tableLen 0 = 4 := rfl
      omega
    subst hn
    have : tableLen 0 = 4 := rfl
    omega

theorem filled_expand (h : Filled env prot n s) (hf : s.frame = tableLen n + 1) (hn : n < 5)
    (hr : env.realloc (tableLen n + 1) ≠ none) (base : Word) :
    Filled env prot (n + 1) ⟨s.frame + 1, (s.table.grown base (tableLen (n + 1))).store s.frame (.mapped s.frame prot),
      s.inside && decide (s.frame < tableLen (n + 1)), true, false⟩ := by
  have hnum := h.numPages
  have hfour := four_le_tableLen n
  have hsucc := tableLen_succ n
  have hgrown : (s.table.grown base (tableLen (n + 1))).numPages = tableLen (n + 1) :=
    Pagetable.numPages_grown base (by omega)
  refine ⟨hn, by simpa using hgrown, fun v hv => ?_, by simp only; omega, fun v hv => ?_, fun i hi => ?_, ?_,
    fun hf => by cases hf⟩
  · rcases (hole_succ n v).mp hv with hole | rfl
    · exact Nat.lt_succ_of_lt (h.passed v hole)
    · simp only
      omega
  · simp only [Pagetable.entry_store _ _ (show s.frame < _ by rw [hgrown]; omega), Pagetable.entry_grown, hole_succ]
    rcases Nat.lt_trichotomy v (tableLen n) with hlt | rfl | hgt
    · rw [if_neg (by omega), h.entry v hlt]
      exact if_congr (and_congr (by omega) (by simp only [not_or]; exact (and_iff_left (by omega)).symm)) rfl rfl
    · rw [if_neg (by omega), if_neg (by simp)]
      exact List.getD_eq_default _ _ (Nat.le_of_eq hnum)
    · by_cases hvf : v = s.frame
      · have hnot : ¬ (Hole n v ∨ v = tableLen n) := by
          rintro (hole | he)
          · have := h.passed v hole
            omega
          · omega
        rw [if_pos hvf, if_pos ⟨by omega, hnot⟩, hvf]
      · rw [if_neg hvf, if_neg (by omega)]
        exact List.getD_eq_default _ _ (show s.table.numPages ≤ v by omega)
  · rcases Nat.lt_or_eq_of_le (Nat.le_of_lt_succ hi) with hlt | rfl
    · exact h.grew i hlt
    · exact hr
  · rw [h.inside, decide_eq_false (by omega), Bool.false_and, eq_comm, decide_eq_false_iff_not]
    simp only
    omega

theorem rangeTurn_filled (h : Filled env prot n s) :
    ∃ t m, rangeTurn env prot s = .ok t ∧ Filled env prot m t ∧ (t.failed = false → t.frame = s.frame + 1) := by
  have hnum := h.numPages
  have hfour := four_le_tableLen n
  have hframe := h.frame
  have hlen := tableLen_lt_iff h.le
  unfold rangeTurn
  rcases pagetableWrite_cases (show 0 < s.table.numPages by omega) s.frame s.frame prot (env.realloc s.frame) with
    ⟨hw, hle⟩ | ⟨hw, hlt, hc⟩ | ⟨blk, m, hr, hw, hlt, hmax, hv, hd⟩
  · simp only [hw, ok_bind, reduceCtorEq, if_false]
    exact ⟨_, n, rfl, filled_store h (by omega) _, fun _ => rfl⟩
  · simp only [hw, ok_bind, if_true, Bool.and_true]
    have hf : s.frame = tableLen n + 1 := by omega
    refine ⟨_, n, rfl, ⟨h.le, hnum, h.passed, hframe, h.entry, h.grew, h.inside, fun _ => ⟨hf, ?_⟩⟩,
      fun he => by cases he⟩
    have hle := h.le
    rw [hf] at hc
    rcases hc with hc | hc | hc
    · exact .inl (by omega)
    · exact .inl (by omega)
    · exact .inr hc
  · have hf : s.frame = tableLen n + 1 := by omega
    have hn : n < 5 := by omega
    have hsucc := tableLen_succ n
    have hm : m = tableLen (n + 1) := by
      have hcap := tableLen_le (n := n + 1) hn
      rw [hnum, hf] at hd
      have hdouble := hd.double (by omega)
      omega
    subst hm
    simp only [hw, ok_bind, reduceCtorEq, if_false, decide_true, Bool.or_true]
    exact ⟨_, n + 1, rfl, filled_expand h hf hn (by rw [← hf, hr]; simp) _, fun _ => rfl⟩

/-- The table that a range leaves which starts at page 0 and does not end before the table: it has been expanded as
often as `realloc` allows, up to the maximal length, and each of its pages is mapped to the frame of its number, but
for those where the table ended before an expansion. -/
structure BootTable (env : Env) (prot n : Nat) (table : Pagetable) : Prop where
  le : n ≤ 5
  numPages : table.numPages = tableLen n
  entry : ∀ v < tableLen n, table.entry v = if Hole n v then .empty else .mapped v prot
  grew : ∀ i < n, env.realloc (tableLen i + 1) ≠ none
  stopped : n = 5 ∨ env.realloc (tableLen n + 1) = none

/-- **A range from page 0** that goes past every table fails, after it has filled the longest one that there is. -/
theorem initializePagetableRange_bootTable (env : Env) {table : Pagetable} (h : Created 4 table) {stop : Nat}
    (hstop : maxPtLen + 1 < stop) (prot : Nat) :
    ∃ r n, initializePagetableRange env table 0 stop prot = .ok r ∧ r.val = .failed ∧ r.inside = false ∧
      BootTable env prot n r.after := by
  have hstart : Filled env prot 0 ⟨0, table, true, false, false⟩ :=
    ⟨by omega, h.numPages, fun v hv => absurd hv (by rintro ⟨i, hi, -⟩; omega), by simp only; omega,
      fun v _ => by rw [h.entry, if_neg (by simp)], fun i hi => by omega, rfl, fun hf => by cases hf⟩
  obtain ⟨s, hs, ⟨n, hF⟩, hc⟩ := whileLoop_total (fun s : Ranging => !s.failed && decide (s.frame < stop))
    (rangeTurn env prot) (fun s => ∃ n, Filled env prot n s) (fun s => if s.failed then 0 else stop - s.frame)
    (by
      rintro s ⟨n, hF⟩ hc
      simp only [Bool.and_eq_true, Bool.not_eq_true', decide_eq_true_eq] at hc
      obtain ⟨t, m, ht, hFt, hframe⟩ := rangeTurn_filled hF
      refine ⟨t, ht, ⟨m, hFt⟩, ?_⟩
      simp only [hc.1, Bool.false_eq_true, if_false]
      cases hf : t.failed with
      | true => simp; omega
      | false =>
        have := hframe hf
        simp only [Bool.false_eq_true, if_false]
        omega)
    (stop + 1) ⟨0, table, true, false, false⟩ ⟨0, hstart⟩ (by simp only [Bool.false_eq_true, if_false]; omega)
  have hcap := tableLen_le hF.le
  have hfour := four_le_tableLen n
  have hframe := hF.frame
  have hfailed : s.failed = true := by
    by_contra hf
    rw [Bool.not_eq_true] at hf
    simp only [hf, Bool.not_false, Bool.true_and, decide_eq_false_iff_not] at hc
    omega
  obtain ⟨hend, hstopped⟩ := hF.stopped hfailed
  unfold initializePagetableRange
  simp only [hs, ok_bind, hfailed, if_true]
  refine ⟨_, n, rfl, rfl, ?_, ⟨hF.le, hF.numPages, fun v hv => ?_, hF.grew, hstopped⟩⟩
  · simp only [hF.inside, decide_eq_false_iff_not]
    omega
  · rw [hF.entry v hv]
    by_cases hole : Hole n v
    · rw [if_neg (by simp [hole]), if_pos hole]
    · rw [if_pos ⟨by omega, hole⟩, if_neg hole]

end Fill

/-! ## The boot -/

section Boot
variable {env : Env} {k : Kernel}

theorem initializePagetableRange_empty (env : Env) (table : Pagetable) (start prot : Nat) :
    initializePagetableRange env table start 0 prot = .ok ⟨.nominal, table, true⟩ := by
  simp only [initializePagetableRange, whileLoop, Nat.not_lt_zero, decide_false, Bool.and_false, Bool.false_eq_true,
    if_false, ok_bind]

/-- `initVirtualMemory` has turned virtual memory on, and changed nothing else but the table of region 0. -/
structure Enabled (k k' : Kernel) : Prop where
  rest : k' = { k with
    pagetableRegion0 := k'.pagetableRegion0, registers := k'.registers, virtualMemoryEnabled := true }
  registers : k'.registers = writeRegister k.registers .vmEnable 1

theorem initVirtualMemory_of_textEnd (hstart : k.kernelDataStart.toNat < pageSize) {data : Ran Pagetable Status}
    (hd : initializePagetableRange env k.pagetableRegion0 0 (dataEnd k) protHeap = .ok data) :
    ∃ r, initVirtualMemory env k = .ok (.returned r) ∧ Enabled k r.after ∧ r.inside = data.inside ∧
      r.after.pagetableRegion0 = data.after := by
  have htext : roundup (k.kernelDataStart.toNat / pageSize) pageSize = 0 := by
    rcases roundup_cases k.kernelDataStart.toNat with ⟨-, h⟩ | ⟨h, -⟩
    · exact h
    · omega
  unfold dataEnd at hd
  unfold initVirtualMemory
  simp only [htext, initializePagetableRange_empty, ok_bind, reduceCtorEq, if_false, hd]
  rw [if_neg (roundup_ne (by decide) (by decide)), if_neg (by
    rintro (h | h)
    · exact h
    · exact roundup_ne (by decide) (by decide) h)]
  exact ⟨_, rfl, ⟨rfl, rfl⟩, by simp, rfl⟩

/-- **The boot.** On the table that `initPaging` creates, `initVirtualMemory` halts if the data starts after page 0.
Otherwise it turns virtual memory on: with a break on page 0 it leaves the table empty, and with a break after it, it
fills and expands the table as far as `realloc` allows, but for the pages where the table ended, and leaves it. -/
theorem boot_outcome (env : Env) (h : Created 4 k.pagetableRegion0) :
    (pageSize ≤ k.kernelDataStart.toNat → HaltsOff env k) ∧
      (k.kernelDataStart.toNat < pageSize → ∃ r, initVirtualMemory env k = .ok (.returned r) ∧ Enabled k r.after ∧
        (k.kernelBreak.toNat < pageSize → r.inside = true ∧ r.after.pagetableRegion0 = k.pagetableRegion0) ∧
        (pageSize ≤ k.kernelBreak.toNat → r.inside = false ∧
          ∃ n, BootTable env protHeap n r.after.pagetableRegion0)) := by
  have hnum := h.numPages
  refine ⟨initVirtualMemory_halts env (by omega) (by rw [hnum]; decide), fun hstart => ?_⟩
  rcases roundup_cases k.kernelBreak.toNat with ⟨hbrk, hend⟩ | ⟨hbrk, hend⟩
  · obtain ⟨r, hr, hen, hin, htable⟩ := initVirtualMemory_of_textEnd hstart (by
      unfold dataEnd
      rw [hend]
      exact initializePagetableRange_empty env ..)
    exact ⟨r, hr, hen, fun _ => ⟨hin, htable⟩, fun hge => by omega⟩
  · have hmax := maxPtLen_eq
    have hsize := pageSize_eq
    obtain ⟨data, n, hd, -, hout, htable⟩ := initializePagetableRange_bootTable env h
      (show maxPtLen + 1 < dataEnd k by unfold dataEnd; omega) protHeap
    obtain ⟨r, hr, hen, hin, hafter⟩ := initVirtualMemory_of_textEnd hstart hd
    exact ⟨r, hr, hen, fun hlt => by omega, fun _ => ⟨hin.trans hout, n, hafter ▸ htable⟩⟩

theorem boot_outcome_data :
    (pageSize ≤ dataKernel.kernelDataStart.toNat → HaltsOff roomyEnv dataKernel) ∧
    (dataKernel.kernelDataStart.toNat < pageSize → ∃ r, initVirtualMemory roomyEnv dataKernel = .ok (.returned r) ∧
      Enabled dataKernel r.after ∧
      (dataKernel.kernelBreak.toNat < pageSize →
        r.inside = true ∧ r.after.pagetableRegion0 = dataKernel.pagetableRegion0) ∧
      (pageSize ≤ dataKernel.kernelBreak.toNat → r.inside = false ∧
        ∃ n, BootTable roomyEnv protHeap n r.after.pagetableRegion0)) :=
  boot_outcome roomyEnv ((created_iff 4 _).mpr ⟨0x100, rfl⟩)

/-! ## The first move -/

/-- The entry of page `v` when the break has moved from page `p`, as booted, to page `q`. The pages after `p` up to `q`
have the frames that were taken, and 0 when there were none left; a hole up to both pages is valid, with frame 0 and no
protection. -/
def movedEntry (p q : Nat) (free : List Nat) (v : Nat) : Pte :=
  if v ≤ q then
    if p < v then .mapped (free.getD (v - (p + 1)) 0) protHeap
    else if Hole 5 v then ⟨true, 0, 0⟩ else .mapped v protHeap
  else if v ≤ p ∨ Hole 5 v then .empty
  else ⟨false, BitVec.ofNat 3 protHeap, BitVec.ofNat 24 v⟩

/-- **Booting and moving.** After a boot that has filled the longest table, the first call that moves the break within
the region returns 0, and makes the holes up to the old and the new page valid, though no frame was ever assigned to
them. -/
theorem boot_then_move {env : Env} (env' : Env) {addr : Word} (h : BootTable env protHeap 5 k.pagetableRegion0)
    (hv : k.virtualMemoryEnabled = true) (hp : pageOf k.kernelBreak < maxPtLen) (hq : pageOf addr < maxPtLen)
    (hne : pageOf addr ≠ pageOf k.kernelBreak) :
    ∃ k', setKernelBrk env' addr k = .ok ⟨0, k', true⟩ ∧
      (∀ v < maxPtLen,
        k'.pagetableRegion0.entry v = movedEntry (pageOf k.kernelBreak) (pageOf addr) k.freeMemory v) ∧
      ∀ v, Hole 5 v → v ≤ pageOf k.kernelBreak → v ≤ pageOf addr → k'.pagetableRegion0.entry v = ⟨true, 0, 0⟩ := by
  have hfull : tableLen 5 = maxPtLen := by decide
  obtain ⟨k', hrun, hM⟩ := setKernelBrk_moved env' addr hv (h.numPages.trans hfull) hne hp hq
  suffices hall : ∀ v < maxPtLen,
      k'.pagetableRegion0.entry v = movedEntry (pageOf k.kernelBreak) (pageOf addr) k.freeMemory v by
    refine ⟨k', hrun, hall, fun v hole h1 h2 => ?_⟩
    rw [hall v (by omega), movedEntry, if_pos h2, if_neg (Nat.not_lt.mpr h1), if_pos hole]
  intro v hlt
  have hentry := h.entry v (by omega)
  unfold movedEntry
  by_cases hvq : v ≤ pageOf addr
  · rw [if_pos hvq]
    by_cases hpv : pageOf k.kernelBreak < v
    · rw [if_pos hpv, hM.grown v hpv hvq]
    · rw [if_neg hpv, hM.kept v (by omega) hvq, hentry]
      by_cases hole : Hole 5 v
      · rw [if_pos hole, if_pos hole]
        rfl
      · rw [if_neg hole, if_neg hole]
        rfl
  · rw [if_neg hvq]
    by_cases hvp : v ≤ pageOf k.kernelBreak
    · rw [if_pos (.inl hvp), hM.shrunk v (by omega) hvp]
    · rw [hM.above v hlt (by omega) (by omega), hentry]
      by_cases hole : Hole 5 v
      · rw [if_pos hole, if_pos (.inr hole)]
        rfl
      · rw [if_neg hole, if_neg (by simp [hvp, hole])]
        rfl

/-- A kernel whose boot has filled the longest table, with the break after the first hole. -/
def filledKernel : Kernel := { bootKernel 0xA000 [200, 201] with
  pagetableRegion0 := ⟨0, (List.range maxPtLen).map fun v => if Hole 5 v then .empty else .mapped v protHeap⟩ }

theorem bootTable_filledKernel : BootTable roomyEnv protHeap 5 filledKernel.pagetableRegion0 := by
  have hfull : tableLen 5 = maxPtLen := by decide
  refine ⟨Nat.le_refl 5, by simp [filledKernel, Pagetable.numPages, hfull], fun v hv => ?_, fun i _ => by
    simp [roomyEnv], .inl rfl⟩
  rw [hfull] at hv
  simp only [filledKernel, Pagetable.entry, List.getD_eq_getElem?_getD, List.getElem?_map, List.getElem?_range hv]
  rfl

theorem boot_then_move_filled : ∃ k', setKernelBrk calmEnv 0x12000 filledKernel = .ok ⟨0, k', true⟩ ∧
    (∀ v < maxPtLen, k'.pagetableRegion0.entry v =
      movedEntry (pageOf filledKernel.kernelBreak) (pageOf 0x12000) filledKernel.freeMemory v) ∧
    ∀ v, Hole 5 v → v ≤ pageOf filledKernel.kernelBreak → v ≤ pageOf 0x12000 →
      k'.pagetableRegion0.entry v = ⟨true, 0, 0⟩ :=
  boot_then_move calmEnv bootTable_filledKernel rfl (by decide) (by decide) (by decide)

end Boot

end MooseOS
