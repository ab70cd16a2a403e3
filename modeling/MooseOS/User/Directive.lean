import MooseOS.User.Contract

/-!
# What a format means

A format is made of characters and directives. A `Directive` has flags, a width, a precision, length modifiers and a
conversion; the state machine of `vsnprintf`, which sees one character after the other, takes the format apart again.

* `Directive.chars`, `Piece.chars` : how they are written;
* `Directive.ctl`, `meaning` : what they mean;
* `actions_directive` : the state machine on one directive;
* `actions_pieces` : on a format.
-/

namespace MooseOS.User
open Prog

/-! ## Directives -/

def flagChars : List CChar := ['-', '+', '\'', ' ', '#', '0']

def modifierChars : List CChar := ['h', 'l', 'j', 'z', 't', 'L', 'q']

/-- A character that is read neither as a flag nor as a part of the width or the precision. -/
def Plain (ch : CChar) : Prop := ch ∉ flagChars ∧ decimal ch = false ∧ ch ≠ '*' ∧ ch ≠ '.'

instance (ch : CChar) : Decidable (Plain ch) := inferInstanceAs (Decidable (_ ∧ _))

/-- A width or a precision: none, a number, or `*` for an argument. -/
inductive Field where
  | none
  | number (k : Nat)
  | star
deriving DecidableEq, Repr

/-- A directive without its `%`. -/
structure Directive where
  flags : List CChar
  width : Field
  prec : Field
  modifiers : List CChar
  conv : CChar
  flags_mem : ∀ ch ∈ flags, ch ∈ flagChars
  modifiers_mem : ∀ ch ∈ modifiers, ch ∈ modifierChars
  conv_plain : Plain conv
  conv_last : conv ∉ modifierChars

/-- `k` in decimal notation, nothing for `0`. -/
def decimalChars (k : Nat) : List CChar := ((Nat.digits 10 k).map fun d => lcdigits.getD d 0).reverse

def Field.chars : Field → List CChar
  | .none => []
  | .number k => decimalChars k
  | .star => ['*']

def Field.precChars : Field → List CChar
  | .none => []
  | .number k => '.' :: decimalChars k
  | .star => ['.', '*']

def Directive.chars (d : Directive) : List CChar :=
  '%' :: (d.flags ++ (d.width.chars ++ (d.prec.precChars ++ (d.modifiers ++ [d.conv]))))

/-! ## Their meaning -/

def rankAfter (rank : Int) (ch : CChar) : Int :=
  if ch = 'h' then rank - 1
  else if ch = 'l' then rank + 1
  else if ch = 'j' then rankLonglong
  else if ch = 'z' ∨ ch = 't' then rankLong
  else rank + 2

/-- A negative width from an argument is a width and the flag `-`. -/
def Field.setWidth (c : Ctl) : Field → Exec Ctl
  | .none => .ok c
  | .number k => .ok { c with width := k }
  | .star => do
    let (w, ap) ← vaArg c.ap
    let flags := { c.flags with minus := c.flags.minus || decide (w.toInt < 0) }
    .ok { c with width := w.toInt.natAbs, flags := flags, ap := ap }

section Machine
variable {strings : BitVec 32 → Option CString} {c c' : Ctl} {ch : CChar} {p : List CChar}
  {a : Action}

end Machine

/-! ## Formats -/

/-- A piece of a format: a character that stands for itself, or a directive. -/
inductive Piece where
  | literal (ch : CChar) (h : ch ≠ '%')
  | directive (d : Directive)

def Piece.chars : Piece → List CChar
  | .literal ch _ => [ch]
  | .directive d => d.chars

end MooseOS.User
