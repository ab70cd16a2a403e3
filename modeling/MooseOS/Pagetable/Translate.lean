import MooseOS.Pagetable.Spec

/-!
# The parts of an address, and its translation

In `offsetForVirtualAddr` the shift applies to the difference, so the offset is a multiple of the page size.
`pfnForVirtualAddr` computes its result from the page number and this offset; the entry of the page has no part in it.

* `toNat_offsetForVirtualAddr`, `recombine_eq` : the offset, and what the two parts add up to;
* `split_unique` : the two parts still tell the address;
* `splitsLossless_iff` : they are a page number and an offset for the address 0 only;
* `pfnForVirtualAddr_eq` : the result is the address, shifted;
* `translates_iff` : it is the translated address for the start of a page only, and for one frame only.
-/

namespace MooseOS

/-! ## The two parts -/

/-- The offset is one within a page, the two parts make up the address, and no other address has these parts. -/
structure SplitsLossless (addr : Word) : Prop where
  small : (offsetForVirtualAddr addr).toNat < pageSize
  recombined : (pageNumberForVirtualAddr addr <<< pageShift) + offsetForVirtualAddr addr = addr
  unique : ∀ other, pageNumberForVirtualAddr other = pageNumberForVirtualAddr addr →
    offsetForVirtualAddr other = offsetForVirtualAddr addr → other = addr

section Split
variable {a b : Word}

theorem toNat_pageNumberForVirtualAddr (addr : Word) :
    (pageNumberForVirtualAddr addr).toNat = addr.toNat / pageSize := by
  simp [pageNumberForVirtualAddr, pageShift, pageSize, Nat.shiftRight_eq_div_pow]

theorem toNat_offsetForVirtualAddr (addr : Word) :
    (offsetForVirtualAddr addr).toNat = (addr.toNat - addr.toNat / pageSize) * pageSize % 2 ^ 32 := by
  have hle := Nat.div_le_self addr.toNat pageSize
  have hlt := addr.isLt
  unfold offsetForVirtualAddr
  rw [BitVec.toNat_shiftLeft, Nat.shiftLeft_eq, BitVec.toNat_sub, toNat_pageNumberForVirtualAddr]
  simp only [pageShift, pageSize] at hle ⊢
  omega

theorem recombine_eq (addr : Word) :
    (pageNumberForVirtualAddr addr <<< pageShift) + offsetForVirtualAddr addr = addr <<< pageShift := by
  apply BitVec.eq_of_toNat_eq
  rw [BitVec.toNat_add, toNat_offsetForVirtualAddr]
  simp only [BitVec.toNat_shiftLeft, toNat_pageNumberForVirtualAddr, Nat.shiftLeft_eq, pageSize, pageShift]
  omega

/-- The offset tells the address up to `2 ^ 19`. -/
theorem split_unique (hpage : pageNumberForVirtualAddr a = pageNumberForVirtualAddr b)
    (hoffset : offsetForVirtualAddr a = offsetForVirtualAddr b) : a = b := by
  apply BitVec.eq_of_toNat_eq
  have hp := congrArg BitVec.toNat hpage
  have ho := congrArg BitVec.toNat hoffset
  rw [toNat_pageNumberForVirtualAddr, toNat_pageNumberForVirtualAddr] at hp
  rw [toNat_offsetForVirtualAddr, toNat_offsetForVirtualAddr] at ho
  simp only [pageSize] at hp ho
  omega

theorem shiftLeft_eq_self_iff (addr : Word) : addr <<< pageShift = addr ↔ addr = 0 := by
  constructor
  · intro h
    apply BitVec.eq_of_toNat_eq
    have hlt := addr.isLt
    have h' := congrArg BitVec.toNat h
    rw [BitVec.toNat_shiftLeft, Nat.shiftLeft_eq] at h'
    simp only [pageShift] at h'
    show addr.toNat = 0
    omega
  · rintro rfl
    rfl

/-- **Splitting loses the address**, unless it is 0. -/
theorem splitsLossless_iff (addr : Word) : SplitsLossless addr ↔ addr = 0 := by
  constructor
  · intro h
    rw [← shiftLeft_eq_self_iff, ← recombine_eq]
    exact h.recombined
  · rintro rfl
    exact ⟨by decide, by decide, fun _ => split_unique⟩

/-- The byte 1 of page 0 is split into the page number 0 and the offset 8192. -/
theorem splitsLossless_fails_one :
    pageNumberForVirtualAddr 1 = 0 ∧ offsetForVirtualAddr 1 = 8192 ∧ ¬ SplitsLossless 1 :=
  ⟨by decide, by decide, fun h => absurd h.small (by decide)⟩

end Split

/-! ## Translation -/

/-- The physical address in the frame of the page, at the offset of the address. -/
def physicalAddr (pt : Pagetable) (addr : Word) (beyond : Pte) : Nat :=
  (pfnForPage pt (pageNumberForVirtualAddr addr).toNat beyond).val * pageSize + addr.toNat % pageSize

/-- The page of the address is in the table and mapped to a frame of the 32-bit address space. -/
structure Mapped (pt : Pagetable) (addr : Word) : Prop where
  inside : (pageNumberForVirtualAddr addr).toNat < pt.numPages
  valid : (pt.entry (pageNumberForVirtualAddr addr).toNat).valid = true
  small : (pt.entry (pageNumberForVirtualAddr addr).toNat).pfn.toNat < 2 ^ 19

/-- Translation agrees with the page map: both addresses go to the frames of their pages, at the same distance on one
page, and to different addresses where the frames are different. -/
structure Translates (pt : Pagetable) (beyond : Pte) (a b : Word) : Prop where
  left : (pfnForVirtualAddr pt a beyond).val.toNat = physicalAddr pt a beyond
  right : (pfnForVirtualAddr pt b beyond).val.toNat = physicalAddr pt b beyond
  near : pageNumberForVirtualAddr a = pageNumberForVirtualAddr b →
    (pfnForVirtualAddr pt a beyond).val.toNat / pageSize = (pfnForVirtualAddr pt b beyond).val.toNat / pageSize ∧
      ((pfnForVirtualAddr pt b beyond).val.toNat : Int) - (pfnForVirtualAddr pt a beyond).val.toNat =
        b.toNat - a.toNat
  apart : (pfnForPage pt (pageNumberForVirtualAddr a).toNat beyond).val ≠
      (pfnForPage pt (pageNumberForVirtualAddr b).toNat beyond).val →
    (pfnForVirtualAddr pt a beyond).val ≠ (pfnForVirtualAddr pt b beyond).val

/-- The address is the start of a page `v`, and the frame of that page is `v * PAGESIZE`, modulo the number of frames
of the 32-bit address space. -/
def StartsFrame (pt : Pagetable) (addr : Word) : Prop :=
  addr.toNat % pageSize = 0 ∧ (pt.entry (pageNumberForVirtualAddr addr).toNat).pfn.toNat =
    (pageNumberForVirtualAddr addr).toNat * pageSize % 2 ^ 19

section Translate
variable {pt : Pagetable} {a b addr : Word}

theorem pfnForVirtualAddr_eq (pt : Pagetable) (addr : Word) (beyond : Pte) :
    (pfnForVirtualAddr pt addr beyond).val = addr <<< pageShift :=
  recombine_eq addr

theorem pfnForPage_of_mapped (h : Mapped pt addr) (beyond : Pte) :
    (pfnForPage pt (pageNumberForVirtualAddr addr).toNat beyond).val =
      (pt.entry (pageNumberForVirtualAddr addr).toNat).pfn.toNat := by
  have hin := h.inside
  simp only [pfnForPage, if_neg (Nat.not_lt.mpr (Nat.le_of_lt hin)), Pagetable.read_of_lt beyond hin]

theorem translated_iff (h : Mapped pt addr) (beyond : Pte) :
    (pfnForVirtualAddr pt addr beyond).val.toNat = physicalAddr pt addr beyond ↔ StartsFrame pt addr := by
  have hsmall := h.small
  have hlt := addr.isLt
  simp only [physicalAddr, StartsFrame, pfnForVirtualAddr_eq, pfnForPage_of_mapped h, BitVec.toNat_shiftLeft,
    Nat.shiftLeft_eq, pageShift]
  rw [toNat_pageNumberForVirtualAddr] at hsmall ⊢
  simp only [pageSize] at hsmall ⊢
  generalize (pt.entry (addr.toNat / 8192)).pfn.toNat = pfn at hsmall ⊢
  constructor
  · intro he
    have haligned : addr.toNat % 8192 = 0 := by omega
    exact ⟨haligned, by omega⟩
  · rintro ⟨haligned, hpfn⟩
    omega

/-- Where both addresses go to the frames of their pages, the pages are kept together and apart. -/
theorem translates_of_translated {beyond : Pte}
    (ha : (pfnForVirtualAddr pt a beyond).val.toNat = physicalAddr pt a beyond)
    (hb : (pfnForVirtualAddr pt b beyond).val.toNat = physicalAddr pt b beyond) : Translates pt beyond a b := by
  have hsize := pageSize_eq
  have hamod := Nat.mod_lt a.toNat (show 0 < pageSize by decide)
  have hbmod := Nat.mod_lt b.toNat (show 0 < pageSize by decide)
  refine ⟨ha, hb, fun hpage => ?_, fun hpfn he => ?_⟩
  · have hdiv : a.toNat / pageSize = b.toNat / pageSize := by
      rw [← toNat_pageNumberForVirtualAddr, hpage, toNat_pageNumberForVirtualAddr]
    rw [ha, hb]
    simp only [physicalAddr, hpage, hsize] at *
    omega
  · rw [he, hb] at ha
    simp only [physicalAddr, hsize] at *
    omega

/-- **Translation is right for the start of one frame only.** Two addresses on mapped pages are translated as the page
map says if and only if each is the start of a page `v` whose frame is `v * PAGESIZE`, modulo `2 ^ 19`. -/
theorem translates_iff (beyond : Pte) (ha : Mapped pt a) (hb : Mapped pt b) :
    Translates pt beyond a b ↔ StartsFrame pt a ∧ StartsFrame pt b := by
  rw [← translated_iff ha beyond, ← translated_iff hb beyond]
  exact ⟨fun h => ⟨h.left, h.right⟩, fun ⟨h₁, h₂⟩ => translates_of_translated h₁ h₂⟩

def swappedTable : Pagetable := ⟨0x100, [.mapped 0 protRead, .mapped 9 protRead]⟩

theorem translates_iff_start : Translates swappedTable .empty 0 0x2010 ↔
    StartsFrame swappedTable 0 ∧ StartsFrame swappedTable 0x2010 :=
  translates_iff .empty ⟨by decide, by decide, by decide⟩ ⟨by decide, by decide, by decide⟩

/-- The byte at offset `0x10` of page 1, which is in frame 9, goes to the start of frame `0x2010`. -/
theorem translates_fails_offset : Mapped swappedTable 0x2010 ∧
    (pfnForVirtualAddr swappedTable 0x2010 .empty).val = 0x4020000 ∧ physicalAddr swappedTable 0x2010 .empty = 0x12010 ∧
      ¬ Translates swappedTable .empty 0x2010 0x2010 :=
  ⟨⟨by decide, by decide, by decide⟩, by decide, by decide, fun h => absurd h.left (by decide)⟩

end Translate

end MooseOS
