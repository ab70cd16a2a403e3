import MooseOS.Memory.Registers
import MooseOS.Pagetable.Runs

/-!
# Enabling virtual memory

`initVirtualMemory` rounds the page numbers of its ranges up to multiples of the page size, and tests the end of the
data range where its status was meant.

* `textRange_spec`, `dataRange_spec` : such a range fails if and only if it goes past the first page after the table;
* `HaltsOff` : the call halts before it has turned virtual memory on;
* `initVirtualMemory_not_bootMaps` : a kernel with a text page never boots;
* `haltsOnFailure_iff` : a range that fails stops the boot if and only if it is that of the text.
-/

namespace MooseOS
open Prog

/-- The end of the range of the text, and of that of the data. -/
def textEnd (k : Kernel) : Nat := roundup (k.kernelDataStart.toNat / pageSize) pageSize
def dataEnd (k : Kernel) : Nat := roundup (k.kernelBreak.toNat / pageSize) pageSize

def textRange (env : Env) (k : Kernel) : Exec (Ran Pagetable Status) :=
  initializePagetableRange env k.pagetableRegion0 pmemBase (textEnd k) (protExec ||| protRead)

/-- The call for the range of the data, on the table that the call for the text has left. -/
def dataRange (env : Env) (k : Kernel) (table : Pagetable) : Exec (Ran Pagetable Status) :=
  initializePagetableRange env table (textEnd k) (dataEnd k) (protRead ||| protWrite)

/-- `initVirtualMemory` halts, and has written neither a register nor `virtualMemoryEnabled`. -/
def HaltsOff (env : Env) (k : Kernel) : Prop :=
  ∃ k', initVirtualMemory env k = .ok (.halted k') ∧ k'.registers = k.registers ∧
    k'.virtualMemoryEnabled = k.virtualMemoryEnabled

section Ranges
variable {env : Env} {k : Kernel} {table : Pagetable}

theorem HaltsOff.not_returned (h : HaltsOff env k) (r : Ran Kernel Unit) :
    initVirtualMemory env k ≠ .ok (.returned r) := by
  obtain ⟨k', hk', -⟩ := h
  rw [hk']
  exact fun he => by cases he

theorem textRange_spec (env : Env) (h0 : 0 < k.pagetableRegion0.numPages) :
    ∃ text, textRange env k = .ok text ∧ (text.val = .failed ↔ k.pagetableRegion0.numPages + 1 < textEnd k) ∧
      (text.val ≠ .failed → text.after.numPages = k.pagetableRegion0.numPages) := by
  have hfirst : firstPast k.pagetableRegion0 pmemBase = k.pagetableRegion0.numPages + 1 := Nat.zero_max _
  obtain ⟨text, ht, hiff, hkept⟩ := rangeFailed_iff env h0 pmemBase (textEnd k) (protExec ||| protRead)
    fun hlt => roundup_past _ (Nat.zero_lt_of_lt hlt)
  exact ⟨text, ht, by rw [hiff, hfirst], fun hne => (hkept hne).1.1⟩

theorem dataRange_spec (env : Env) (h0 : 0 < table.numPages) (htext : textEnd k ≤ table.numPages + 1) :
    ∃ data, dataRange env k table = .ok data ∧ (data.val = .failed ↔ table.numPages + 1 < dataEnd k) := by
  have hfirst : firstPast table (textEnd k) = table.numPages + 1 := Nat.max_eq_right htext
  obtain ⟨data, hd, hiff, -⟩ := rangeFailed_iff env h0 (textEnd k) (dataEnd k) (protRead ||| protWrite)
    fun hlt => roundup_past _ (Nat.zero_lt_of_lt hlt)
  exact ⟨data, hd, by rw [hiff, hfirst]⟩

theorem initVirtualMemory_of_text {text : Ran Pagetable Status} (ht : textRange env k = .ok text)
    (hfail : text.val = .failed) : HaltsOff env k := by
  unfold textRange textEnd at ht
  unfold HaltsOff initVirtualMemory
  simp only [ht, ok_bind, if_pos hfail]
  exact ⟨_, rfl, rfl, rfl⟩

theorem initVirtualMemory_of_data {text data : Ran Pagetable Status} (ht : textRange env k = .ok text)
    (hfail : text.val ≠ .failed) (hd : dataRange env k text.after = .ok data) :
    ∃ r, initVirtualMemory env k = .ok (.returned r) ∧ r.after.virtualMemoryEnabled = true ∧
      r.after.registers .vmEnable = 1 ∧ r.after.pagetableRegion0 = data.after := by
  unfold textRange textEnd at ht
  unfold dataRange textEnd dataEnd at hd
  unfold initVirtualMemory
  simp only [ht, ok_bind, if_neg hfail, hd, if_neg (roundup_ne (n := k.kernelBreak.toNat / pageSize)
    (show 0 < Status.failed.toNat by decide) (show Status.failed.toNat < pageSize by decide))]
  refine ⟨_, rfl, rfl, ?_, rfl⟩
  simp only [writeRegister_self]

end Ranges

/-! ## Booting -/

/-- The kernel that `initPaging` leaves, with aligned and non-empty text, and a `realloc` that succeeds. -/
structure BootInput (env : Env) (k : Kernel) : Prop where
  table : Created 4 k.pagetableRegion0
  aligned : k.kernelDataStart.toNat % pageSize = 0
  pos : 0 < k.kernelDataStart.toNat
  le : k.kernelDataStart.toNat ≤ k.kernelBreak.toNat
  below : k.kernelBreak.toNat ≤ kernelStackBase.toNat
  realloc : ∀ v, env.realloc v ≠ none

/-- The kernel boots, and exactly its pages are mapped, to the frames of their numbers. -/
def BootMaps (env : Env) (k : Kernel) : Prop :=
  ∃ r, initVirtualMemory env k = .ok (.returned r) ∧ r.after.virtualMemoryEnabled = true ∧
    (∀ v, v * pageSize < k.kernelDataStart.toNat →
      r.after.pagetableRegion0.entry v = .mapped v (protRead ||| protExec)) ∧
    (∀ v, k.kernelDataStart.toNat ≤ v * pageSize → v * pageSize < k.kernelBreak.toNat →
      r.after.pagetableRegion0.entry v = .mapped v (protRead ||| protWrite)) ∧
    ∀ v < r.after.pagetableRegion0.numPages, k.kernelBreak.toNat ≤ v * pageSize →
      (r.after.pagetableRegion0.entry v).valid = false

/-- With a page of text the range of the text has at least `PAGESIZE` pages, more than a table can have. -/
theorem initVirtualMemory_halts (env : Env) {k : Kernel} (h0 : 0 < k.pagetableRegion0.numPages)
    (hmax : k.pagetableRegion0.numPages ≤ maxPtLen) (hstart : pageSize ≤ k.kernelDataStart.toNat) :
    HaltsOff env k := by
  have hlen := maxPtLen_eq
  have hsize := pageSize_eq
  obtain ⟨text, ht, hiff, -⟩ := textRange_spec env h0
  refine initVirtualMemory_of_text ht (hiff.mpr ?_)
  have hend := roundup_cases k.kernelDataStart.toNat
  unfold textEnd
  omega

/-- **The kernel never boots.** For every kernel with text that `initPaging` can leave, `initVirtualMemory` halts, and
so does not map it. -/
theorem initVirtualMemory_not_bootMaps {env : Env} {k : Kernel} (h : BootInput env k) :
    HaltsOff env k ∧ ¬ BootMaps env k := by
  have hnum := h.table.numPages
  have hstart : pageSize ≤ k.kernelDataStart.toNat :=
    Nat.le_of_dvd h.pos (Nat.dvd_of_mod_eq_zero h.aligned)
  have hhalt := initVirtualMemory_halts env (by omega) (by rw [hnum]; decide) hstart
  exact ⟨hhalt, fun ⟨r, hr, _⟩ => hhalt.not_returned r hr⟩

def textKernel : Kernel := { bootKernel 0x4000 [] with
  kernelDataStart := 0x2000
  virtualMemoryEnabled := false
  pagetableRegion0 := ⟨0x100, List.replicate 4 .empty⟩ }

/-- An outside where every `realloc` succeeds. -/
def roomyEnv : Env := { calmEnv with realloc := fun _ => some ⟨0x200, fun _ => .empty⟩ }

theorem bootInput_textKernel : BootInput roomyEnv textKernel :=
  ⟨(created_iff 4 _).mpr ⟨0x100, rfl⟩, by decide, by decide, by decide, by decide, fun _ => by simp [roomyEnv]⟩

theorem initVirtualMemory_not_bootMaps_two :
    HaltsOff roomyEnv textKernel ∧ ¬ BootMaps roomyEnv textKernel :=
  initVirtualMemory_not_bootMaps bootInput_textKernel

/-- The text of one page is taken for 8192 pages. -/
theorem bootMaps_fails_two : BootInput roomyEnv textKernel ∧ textEnd textKernel = 8192 ∧
    ¬ BootMaps roomyEnv textKernel := by
  exact ⟨bootInput_textKernel, by decide, fun ⟨r, hr, _⟩ =>
    (initVirtualMemory_halts roomyEnv (by decide) (by decide) (by decide)).not_returned r hr⟩

/-! ## Failures -/

/-- A range that fails stops the boot before virtual memory is enabled. -/
def HaltsOnFailure (env : Env) (k : Kernel) : Prop :=
  ∃ text, textRange env k = .ok text ∧ (text.val = .failed → HaltsOff env k) ∧
    (text.val ≠ .failed → ∃ data, dataRange env k text.after = .ok data ∧ (data.val = .failed → HaltsOff env k))

/-- Where the text ends inside the table, or with the first page after it, and the data goes past that page, the range
of the data fails and virtual memory is enabled. -/
theorem data_failure_missed (env : Env) {k : Kernel} (h0 : 0 < k.pagetableRegion0.numPages)
    (htext : textEnd k ≤ k.pagetableRegion0.numPages + 1) (hdata : k.pagetableRegion0.numPages + 1 < dataEnd k) :
    (∃ text data, textRange env k = .ok text ∧ dataRange env k text.after = .ok data ∧ data.val = .failed) ∧
    (∃ r, initVirtualMemory env k = .ok (.returned r) ∧ r.after.virtualMemoryEnabled = true ∧
      r.after.registers .vmEnable = 1) ∧ ¬ HaltsOnFailure env k := by
  obtain ⟨text, ht, hiff, hkept⟩ := textRange_spec env h0
  have hfail : text.val ≠ .failed := fun h => Nat.not_lt.mpr htext (hiff.mp h)
  have hnum := hkept hfail
  obtain ⟨data, hd, hdiff⟩ := dataRange_spec (k := k) env (show 0 < text.after.numPages by omega) (by omega)
  have hdfail : data.val = .failed := hdiff.mpr (by omega)
  obtain ⟨r, hr, hen, hreg, -⟩ := initVirtualMemory_of_data ht hfail hd
  refine ⟨⟨text, data, ht, hd, hdfail⟩, ⟨r, hr, hen, hreg⟩, ?_⟩
  rintro ⟨text', ht', -, hhalt⟩
  cases ht.symm.trans ht'
  obtain ⟨data', hd', hhalt'⟩ := hhalt hfail
  cases hd.symm.trans hd'
  exact (hhalt' hdfail).not_returned r hr

/-- **The guard misses the data.** A range that fails stops the boot if and only if it is not the case that the text
ends inside the table, or with the first page after it, and the data goes past that page. -/
theorem haltsOnFailure_iff (env : Env) {k : Kernel} (h0 : 0 < k.pagetableRegion0.numPages) :
    HaltsOnFailure env k ↔
      ¬ (textEnd k ≤ k.pagetableRegion0.numPages + 1 ∧ k.pagetableRegion0.numPages + 1 < dataEnd k) := by
  constructor
  · intro h hmissed
    exact (data_failure_missed env h0 hmissed.1 hmissed.2).2.2 h
  · intro h
    obtain ⟨text, ht, hiff, hkept⟩ := textRange_spec env h0
    refine ⟨text, ht, initVirtualMemory_of_text ht, fun hfail => ?_⟩
    have hle : textEnd k ≤ k.pagetableRegion0.numPages + 1 := Nat.le_of_not_lt (mt hiff.mpr hfail)
    have hnum := hkept hfail
    obtain ⟨data, hd, hdiff⟩ := dataRange_spec (k := k) env (show 0 < text.after.numPages by omega) (by omega)
    refine ⟨data, hd, fun hdfail => absurd ⟨hle, ?_⟩ h⟩
    rw [← hnum]
    exact hdiff.mp hdfail

theorem haltsOnFailure_iff_text : HaltsOnFailure roomyEnv textKernel ↔
    ¬ (textEnd textKernel ≤ textKernel.pagetableRegion0.numPages + 1 ∧
      textKernel.pagetableRegion0.numPages + 1 < dataEnd textKernel) :=
  haltsOnFailure_iff roomyEnv (by decide)

def dataKernel : Kernel := { textKernel with kernelDataStart := 0, kernelBreak := 0x2000 }

theorem haltsOnFailure_fails_data : (∃ text data, textRange roomyEnv dataKernel = .ok text ∧
      dataRange roomyEnv dataKernel text.after = .ok data ∧ data.val = .failed) ∧
    (∃ r, initVirtualMemory roomyEnv dataKernel = .ok (.returned r) ∧ r.after.virtualMemoryEnabled = true ∧
      r.after.registers .vmEnable = 1) ∧ ¬ HaltsOnFailure roomyEnv dataKernel :=
  data_failure_missed roomyEnv (by decide) (by decide) (by decide)

end MooseOS
