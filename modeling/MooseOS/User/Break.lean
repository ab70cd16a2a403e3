import MooseOS.Hardware

/-!
# The break of a user program

`brk_unlocked`, `sbrk`, `brk` and `Brk` of `etc/yuserlib/yuser/libc.c`. What the kernel answers to a call of `SysBrk`
may depend on all calls before it, so a kernel is a function from them to a status.

* `brkUnlocked_cases` : what `brk_unlocked` does;
* `Agrees`, `break_agrees` : after every run the break of the program lies on the page of the last break that the
  kernel has granted;
* `sbrk_grows` : a call of `sbrk`;
* `sbrk_blocks` : the blocks that a run of `sbrk` hands out do not overlap.
-/

namespace MooseOS.User

/-- The answers of `SysBrk`: `0` grants the break `addr` after the earlier calls. -/
abbrev Kernel := List (Word × Int) → Word → Int

/-- `current_break`, and the calls of `SysBrk` with their answers, the last one first. -/
structure Heap where
  currentBreak : Word
  calls : List (Word × Int)
deriving DecidableEq

/-- `UP_TO_PAGE(n)`. -/
def upToPage (n : Word) : Word := (n + BitVec.ofNat 32 pageOffset) &&& ~~~(BitVec.ofNat 32 pageOffset)

/-- `(addr + 7) & ~7`. -/
def upToDouble (addr : Word) : Word := (addr + 7) &&& ~~~7

def sysBrk (kernel : Kernel) (addr : Word) (h : Heap) : Int × Heap :=
  let status := kernel h.calls addr
  (status, { h with calls := (addr, status) :: h.calls })

def brkUnlocked (kernel : Kernel) (addr : Word) (h : Heap) : Int × Heap :=
  let addr := upToDouble addr
  let pageaddr := upToPage addr
  if pageaddr ≠ upToPage h.currentBreak then
    let (status, h) := sysBrk kernel pageaddr h
    if status ≠ 0 then (-1, h) else (0, { h with currentBreak := addr })
  else (0, { h with currentBreak := addr })

def sbrk (kernel : Kernel) (incr : Word) (h : Heap) : Word × Heap :=
  if incr = 0 then (h.currentBreak, h)
  else
    let newBreak := h.currentBreak + incr
    let oldBreak := h.currentBreak
    let (ret, h) := brkUnlocked kernel newBreak h
    if ret ≠ 0 then (-1, h) else (oldBreak, h)

def brk (kernel : Kernel) (addr : Word) (h : Heap) : Int × Heap := brkUnlocked kernel addr h

/-- `Brk`. -/
def bigBrk (kernel : Kernel) (addr : Word) (h : Heap) : Int × Heap :=
  let (status, h) := sysBrk kernel addr h
  if status = 0 then (status, { h with currentBreak := addr }) else (status, h)

/-! ## The break and the kernel -/

/-- A call of the program. -/
inductive Call where
  | sbrk (incr : Word)
  | brk (addr : Word)
  | bigBrk (addr : Word)

def Call.run (kernel : Kernel) (h : Heap) : Call → Heap
  | .sbrk incr => (User.sbrk kernel incr h).2
  | .brk addr => (User.brk kernel addr h).2
  | .bigBrk addr => (User.bigBrk kernel addr h).2

/-- The last break that the kernel has granted; `start` before there was one. -/
def granted (start : Word) : List (Word × Int) → Word
  | [] => start
  | (addr, status) :: calls => if status = 0 then addr else granted start calls

/-- The break lies on the page of the granted one. -/
def Agrees (start : Word) (h : Heap) : Prop := upToPage (granted start h.calls) = upToPage h.currentBreak

/-! ## Rounding -/

theorem and_not_low (x : Word) (k : Nat) : x &&& ~~~(BitVec.ofNat 32 (2 ^ k - 1)) = x >>> k <<< k := by
  apply BitVec.eq_of_getLsbD_eq
  intro i hi
  rw [BitVec.getLsbD_and, BitVec.getLsbD_not, BitVec.getLsbD_ofNat, Nat.testBit_two_pow_sub_one,
    BitVec.getLsbD_shiftLeft,
    BitVec.getLsbD_ushiftRight]
  by_cases h : i < k
  · simp [h, hi]
  · simp [h, hi, Nat.add_sub_cancel' (Nat.le_of_not_lt h)]

theorem toNat_low (x : Word) (k : Nat) :
    (x &&& ~~~(BitVec.ofNat 32 (2 ^ k - 1))).toNat = x.toNat / 2 ^ k * 2 ^ k := by
  have hlt : x.toNat / 2 ^ k * 2 ^ k < 2 ^ 32 := Nat.lt_of_le_of_lt (Nat.div_mul_le_self _ _) x.isLt
  rw [and_not_low x k, BitVec.toNat_shiftLeft, BitVec.toNat_ushiftRight, Nat.shiftLeft_eq, Nat.shiftRight_eq_div_pow,
    Nat.mod_eq_of_lt hlt]

theorem upToPage_toNat (n : Word) : (upToPage n).toNat = (n.toNat + 8191) % 2 ^ 32 / 8192 * 8192 := by
  rw [upToPage, show pageOffset = 2 ^ 13 - 1 from rfl, toNat_low, BitVec.toNat_add]
  rfl

theorem upToDouble_toNat (n : Word) : (upToDouble n).toNat = (n.toNat + 7) % 2 ^ 32 / 8 * 8 := by
  rw [upToDouble, show (7 : Word) = BitVec.ofNat 32 (2 ^ 3 - 1) from rfl, toNat_low, BitVec.toNat_add]
  rfl

/-- A page address is its own page, also after a sum that has wrapped. -/
theorem upToPage_idem (n : Word) : upToPage (upToPage n) = upToPage n := by
  apply BitVec.eq_of_toNat_eq
  rw [upToPage_toNat, upToPage_toNat]
  omega

/-! ## What a call does -/

section Calls
variable {kernel : Kernel} {start addr incr : Word} {h : Heap}

/-- `brk_unlocked` stays on the page, or asks the kernel for another one and gets it, or is refused and changes
nothing. -/
theorem brkUnlocked_cases (kernel : Kernel) (addr : Word) (h : Heap) :
    (upToPage (upToDouble addr) = upToPage h.currentBreak ∧
        brkUnlocked kernel addr h = (0, { h with currentBreak := upToDouble addr })) ∨
      brkUnlocked kernel addr h = (0, ⟨upToDouble addr, (upToPage (upToDouble addr), 0) :: h.calls⟩) ∨
      ∃ status, status ≠ 0 ∧
        brkUnlocked kernel addr h = (-1, { h with calls := (upToPage (upToDouble addr), status) :: h.calls }) := by
  unfold brkUnlocked sysBrk
  dsimp only
  by_cases hpage : upToPage (upToDouble addr) ≠ upToPage h.currentBreak
  · rw [if_pos hpage]
    by_cases hstatus : kernel h.calls (upToPage (upToDouble addr)) ≠ 0
    · exact .inr (.inr ⟨_, hstatus, by rw [if_pos hstatus]⟩)
    · exact .inr (.inl (by rw [if_neg hstatus, not_not.1 hstatus]))
  · exact .inl ⟨not_not.1 hpage, by rw [if_neg hpage]⟩

theorem brkUnlocked_agrees (hagrees : Agrees start h) : Agrees start (brkUnlocked kernel addr h).2 := by
  rcases brkUnlocked_cases kernel addr h with ⟨hpage, hrun⟩ | hrun | ⟨status, hstatus, hrun⟩
  · rw [hrun]
    exact hagrees.trans hpage.symm
  · rw [hrun]
    exact upToPage_idem _
  · rw [hrun, Agrees, granted, if_neg hstatus]
    exact hagrees

theorem bigBrk_agrees (hagrees : Agrees start h) : Agrees start (bigBrk kernel addr h).2 := by
  unfold bigBrk sysBrk
  dsimp only
  by_cases hstatus : kernel h.calls addr = 0
  · rw [if_pos hstatus, Agrees, granted, if_pos hstatus]
  · rw [if_neg hstatus, Agrees, granted, if_neg hstatus]
    exact hagrees

theorem sbrk_snd : (sbrk kernel incr h).2 =
    if incr = 0 then h else (brkUnlocked kernel (h.currentBreak + incr) h).2 := by
  unfold sbrk
  by_cases hincr : incr = 0
  · rw [if_pos hincr, if_pos hincr]
  · rw [if_neg hincr, if_neg hincr]
    dsimp only
    split_ifs <;> rfl

theorem step_agrees (call : Call) (hagrees : Agrees start h) : Agrees start (call.run kernel h) := by
  cases call with
  | sbrk incr =>
    rw [Call.run, sbrk_snd]
    split_ifs
    · exact hagrees
    · exact brkUnlocked_agrees hagrees
  | brk addr => exact brkUnlocked_agrees hagrees
  | bigBrk addr => exact bigBrk_agrees hagrees

/-- **The break and the kernel agree** after every run of calls, whatever the kernel grants and refuses: the break of
the program lies on the page of the last break that was granted. -/
theorem break_agrees (kernel : Kernel) (start : Word) (calls : List Call) :
    Agrees start (calls.foldl (Call.run kernel) ⟨start, []⟩) := by
  suffices hrun : ∀ (calls : List Call) (h : Heap), Agrees start h → Agrees start (calls.foldl (Call.run kernel) h) from
    hrun calls _ rfl
  intro calls
  induction calls with
  | nil => exact fun h hagrees => hagrees
  | cons call calls ih => exact fun h hagrees => ih _ (step_agrees call hagrees)

end Calls

/-! ## The blocks of `sbrk` -/

/-- A run of `sbrk`, with the blocks that it hands out: their places and their sizes. -/
def sbrkRun (kernel : Kernel) : List Word → Heap → List (Nat × Nat) × Heap
  | [], h => ([], h)
  | incr :: incrs, h =>
    let (p, h) := sbrk kernel incr h
    let (blocks, h) := sbrkRun kernel incrs h
    (if p = -1 then blocks else (p.toNat, incr.toNat) :: blocks, h)

/-- The address space that a run takes at most: each break is rounded up to a double word. -/
def demand (incrs : List Word) : Nat := (incrs.map fun incr => incr.toNat + 7).sum

section Blocks
variable {kernel : Kernel} {incr : Word} {h : Heap}

/-- A call of `sbrk` hands out the cells from the old break on, all below the new one; or it fails and leaves the
break. -/
theorem sbrk_grows (kernel : Kernel) (hroom : h.currentBreak.toNat + (incr.toNat + 7) < 2 ^ 32 - 1) :
    ((sbrk kernel incr h).1 = h.currentBreak ∧
        h.currentBreak.toNat + incr.toNat ≤ (sbrk kernel incr h).2.currentBreak.toNat ∧
        (sbrk kernel incr h).2.currentBreak.toNat ≤ h.currentBreak.toNat + (incr.toNat + 7)) ∨
      ((sbrk kernel incr h).1 = -1 ∧ (sbrk kernel incr h).2.currentBreak = h.currentBreak) := by
  have hround : (upToDouble (h.currentBreak + incr)).toNat = (h.currentBreak.toNat + incr.toNat + 7) / 8 * 8 := by
    rw [upToDouble_toNat, BitVec.toNat_add]
    omega
  have hlow : h.currentBreak.toNat + incr.toNat ≤ (upToDouble (h.currentBreak + incr)).toNat := by omega
  have hhigh : (upToDouble (h.currentBreak + incr)).toNat ≤ h.currentBreak.toNat + (incr.toNat + 7) := by omega
  unfold sbrk
  by_cases hincr : incr = 0
  · subst hincr
    rw [if_pos rfl]
    exact .inl ⟨rfl, by simp, Nat.le_add_right _ _⟩
  · rw [if_neg hincr]
    dsimp only
    rcases brkUnlocked_cases kernel (h.currentBreak + incr) h with ⟨-, hrun⟩ | hrun | ⟨status, -, hrun⟩
    · rw [hrun]
      exact .inl ⟨rfl, hlow, hhigh⟩
    · rw [hrun]
      exact .inl ⟨rfl, hlow, hhigh⟩
    · rw [hrun]
      exact .inr ⟨rfl, rfl⟩

/-- What a run of `sbrk` from `h` to `h'` hands out. -/
structure Blocks (h h' : Heap) (blocks : List (Nat × Nat)) : Prop where
  grows : h.currentBreak.toNat ≤ h'.currentBreak.toNat
  inside : ∀ b ∈ blocks, h.currentBreak.toNat ≤ b.1 ∧ b.1 + b.2 ≤ h'.currentBreak.toNat
  disjoint : blocks.Pairwise (fun a b => a.1 + a.2 ≤ b.1)

theorem sbrkRun_spec (kernel : Kernel) (incrs : List Word) (h : Heap)
    (hroom : h.currentBreak.toNat + demand incrs < 2 ^ 32 - 1) :
    Blocks h (sbrkRun kernel incrs h).2 (sbrkRun kernel incrs h).1 ∧
      (sbrkRun kernel incrs h).2.currentBreak.toNat ≤ h.currentBreak.toNat + demand incrs := by
  induction incrs generalizing h with
  | nil => exact ⟨⟨Nat.le_refl _, fun b hb => absurd hb List.not_mem_nil, .nil⟩, Nat.le_refl _⟩
  | cons incr incrs ih =>
    have hdemand : demand (incr :: incrs) = incr.toNat + 7 + demand incrs := rfl
    rw [hdemand] at hroom ⊢
    rw [sbrkRun]
    dsimp only
    rcases @sbrk_grows incr h kernel (by omega) with ⟨hp, hlow, hhigh⟩ | ⟨hp, hsame⟩
    · obtain ⟨⟨hgrows, hinside, hdisjoint⟩, hbound⟩ := ih (sbrk kernel incr h).2 (by omega)
      have hne : (sbrk kernel incr h).1 ≠ -1 := fun hneg => by
        have : h.currentBreak.toNat = (-1 : Word).toNat := by rw [← hp, hneg]
        rw [show (-1 : Word).toNat = 2 ^ 32 - 1 from rfl] at this
        omega
      rw [if_neg hne, hp]
      refine ⟨⟨by omega, ?_, List.pairwise_cons.2 ⟨fun b hb => ?_, hdisjoint⟩⟩, by omega⟩
      · rw [List.forall_mem_cons]
        refine ⟨⟨Nat.le_refl _, by dsimp only; omega⟩, fun b hb => ?_⟩
        have := hinside b hb
        omega
      · have := hinside b hb
        dsimp only
        omega
    · obtain ⟨⟨hgrows, hinside, hdisjoint⟩, hbound⟩ := ih (sbrk kernel incr h).2 (by rw [hsame]; omega)
      rw [if_pos hp]
      rw [hsame] at hgrows hinside hbound
      exact ⟨⟨hgrows, hinside, hdisjoint⟩, by omega⟩

theorem sbrkRun_agrees {start : Word} (incrs : List Word) (hagrees : Agrees start h) :
    Agrees start (sbrkRun kernel incrs h).2 := by
  induction incrs generalizing h with
  | nil => exact hagrees
  | cons incr incrs ih => exact ih (step_agrees (.sbrk incr) hagrees)

/-- **The blocks of `sbrk`** do not overlap, and lie between the break before the run and the break after it, whatever
the kernel refuses on the way; so they are on pages that it has granted. -/
theorem sbrk_blocks (kernel : Kernel) (start : Word) (incrs : List Word) (h : Heap) (hagrees : Agrees start h)
    (hroom : h.currentBreak.toNat + demand incrs < 2 ^ 32 - pageSize) :
    Blocks h (sbrkRun kernel incrs h).2 (sbrkRun kernel incrs h).1 ∧
      ∀ b ∈ (sbrkRun kernel incrs h).1,
        b.1 + b.2 ≤ (upToPage (granted start (sbrkRun kernel incrs h).2.calls)).toNat := by
  rw [pageSize_eq] at hroom
  obtain ⟨hblocks, hbound⟩ := sbrkRun_spec kernel incrs h (by omega)
  refine ⟨hblocks, fun b hb => ?_⟩
  have hinside := (hblocks.inside b hb).2
  rw [sbrkRun_agrees incrs hagrees, upToPage_toNat]
  omega

theorem sbrk_blocks_two :
    Blocks ⟨100, []⟩ (sbrkRun (fun _ _ => 0) [10, 20] ⟨100, []⟩).2 (sbrkRun (fun _ _ => 0) [10, 20] ⟨100, []⟩).1 ∧
      ∀ b ∈ (sbrkRun (fun _ _ => 0) [10, 20] ⟨100, []⟩).1,
        b.1 + b.2 ≤ (upToPage (granted 100 (sbrkRun (fun _ _ => 0) [10, 20] ⟨100, []⟩).2.calls)).toNat :=
  sbrk_blocks (fun _ _ => 0) 100 [10, 20] ⟨100, []⟩ rfl (by decide)

end Blocks

end MooseOS.User
