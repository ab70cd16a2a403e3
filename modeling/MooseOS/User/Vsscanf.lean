import MooseOS.User.Strntoumax

/-!
# Formatted input

`etc/yuserlib/common/vsscanf.c`. A pointer into the input is what is in memory from there on, as for `strntoumax`, and
what is written through the pointers of the `va_list` is a list of stores.

* `Scan`, `scanStep` : the variables of `vsscanf`, and the `switch` of its loop;
* `scanInt`, `scanChar`, `scanString`, `scanSet` : the conversions;
* `matchRun` : what `%[` reads when its set is complete;
* `vsscanf`.

`p--`, which processes a character again, is a call of the next state.
-/

namespace MooseOS.User
open Prog

/-- `enum bail`. -/
inductive Bail where
  | none
  | eof
  | err
deriving DecidableEq, Repr

inductive ScanState where
  | normal
  | flags
  | width
  | modifiers
  | matchInit
  | matchMain
  | matchRange
deriving DecidableEq, Repr

/-- The variables of `vsscanf`; `splat` and `hasWidth` are `FL_SPLAT` and `FL_WIDTH`. -/
structure Scan where
  state : ScanState
  splat : Bool
  hasWidth : Bool
  rank : Int
  width : Nat
  q : List CChar
  bail : Bail
  converted : Nat
  sarg : BitVec 32
  matchmap : List (BitVec 32)
  matchinv : Bool
  rangeStart : CChar
  ap : List (BitVec 32)
  stores : List Store
deriving DecidableEq

def uintMax : Nat := 2 ^ 32 - 1

/-- `rank_ptr`, which is `INT_MAX`. -/
def rankPtr : Int := 2 ^ 31 - 1

def skipspace : List CChar → Exec (List CChar)
  | [] => .error .stray
  | ch :: p => if isspace ch then skipspace p else .ok (ch :: p)

/-! ## The bitmap of a set -/

def setBit (bitmap : List (BitVec 32)) (bit : Nat) : Exec (List (BitVec 32)) := do
  let w ← peek bitmap (bit / 32)
  poke bitmap (bit / 32) (w ||| 1#32 <<< (bit % 32))

def testBit (bitmap : List (BitVec 32)) (bit : Nat) : Exec Bool := do
  let w ← peek bitmap (bit / 32)
  .ok (decide (w >>> (bit % 32) &&& 1#32 = 1#32))

/-- `set_bit(matchmap, bit)`. -/
def Scan.setBit (t : Scan) (bit : Nat) : Exec Scan := do
  let m ← User.setBit t.matchmap bit
  .ok { t with matchmap := m }

/-! ## The conversions -/

/-- `if (*q == ch) q++; else bail = bail_err;`. -/
def matchChar (t : Scan) (ch : CChar) : Exec Scan := do
  let c ← peek t.q 0
  if c = ch then .ok { t with q := t.q.drop 1 } else .ok { t with bail := .err }

def setInteger (t : Scan) (val : BitVec 64) : Exec Scan :=
  if t.splat then .ok t
  else do
    let (p, ap) ← vaArg t.ap
    .ok { t with
      ap := ap, stores := t.stores ++ [⟨p, rankSize t.rank, val.toNat % 2 ^ (8 * rankSize t.rank)⟩] }

def scanInt (t : Scan) (base : Nat) : Exec Scan := do
  let q ← skipspace t.q
  let ch ← peek q 0
  if ch = 0 then .ok { t with q := q, bail := .eof }
  else do
    let (val, qq) ← strntoumax q base t.width
    if qq = q then .ok { t with q := q, bail := .err }
    else setInteger { t with q := qq, converted := if t.splat then t.converted else t.converted + 1 } val

/-- Characters on their way from the input to a string argument. -/
structure Copy where
  q : List CChar
  sp : BitVec 32
  stores : List Store
deriving DecidableEq

/-- `*sp++ = uc; q++;`, the store only if there is an argument. -/
def Copy.next (arg : Bool) (uc : CChar) (t : Copy) : Copy :=
  if arg then ⟨t.q.drop 1, t.sp + 1, t.stores ++ [⟨t.sp, 1, uc.toNat⟩]⟩ else { t with q := t.q.drop 1 }

/-- `while (width--) { if (!*q) { bail = bail_eof; break; } *sarg++ = *q++; }`. -/
def charLoop : Nat → Copy → Exec (Bail × Copy)
  | 0, t => .ok (.none, t)
  | width + 1, t => do
    let ch ← peek t.q 0
    if ch = 0 then .ok (.eof, t) else charLoop width (t.next true ch)

/-- The same loop of `%*c`, which leaves `q` where it is. -/
def charSplatLoop : Nat → List CChar → Exec Bail
  | 0, _ => .ok .none
  | width + 1, q => do
    let ch ← peek q 0
    if ch = 0 then .ok .eof else charSplatLoop width q

/-- `%c`. -/
def scanChar (t : Scan) : Exec Scan :=
  let width := if t.hasWidth then t.width else 1
  if t.splat then do
    let bail ← charSplatLoop width t.q
    .ok { t with bail := bail }
  else do
    let (sarg, ap) ← vaArg t.ap
    let (bail, c) ← charLoop width ⟨t.q, sarg, t.stores⟩
    .ok { t with
      q := c.q, sarg := c.sp, ap := ap, stores := c.stores, bail := bail,
      converted := if bail = .none then t.converted + 1 else t.converted }

/-- `while (width-- && (uc = *q) && !isspace(uc)) { *sp++ = uc; q++; }`. -/
def stringLoop (arg : Bool) : Nat → CChar → Copy → Exec (CChar × Copy)
  | 0, uc, t => .ok (uc, t)
  | width + 1, _, t => do
    let uc ← peek t.q 0
    if uc ≠ 0 ∧ isspace uc = false then stringLoop arg width uc (t.next arg uc) else .ok (uc, t)

/-- `%s`. -/
def scanString (t : Scan) : Exec Scan :=
  if t.splat then do
    let (uc, c) ← stringLoop false t.width 1 ⟨t.q, t.sarg, t.stores⟩
    .ok { t with q := c.q, bail := if uc = 0 then .eof else t.bail }
  else do
    let (sarg, ap) ← vaArg t.ap
    let (uc, c) ← stringLoop true t.width 1 ⟨t.q, sarg, t.stores⟩
    let t := { t with q := c.q, sarg := sarg, ap := ap, bail := if uc = 0 then .eof else t.bail }
    if sarg ≠ c.sp then .ok { t with stores := c.stores ++ [⟨c.sp, 1, 0⟩], converted := t.converted + 1 }
    else .ok { t with stores := c.stores }

/-- `%[`. -/
def scanSet (t : Scan) : Exec Scan := do
  let (sarg, ap) ← if t.splat then .ok (0#32, t.ap) else vaArg t.ap
  .ok { t with
    sarg := sarg, ap := ap, state := .matchInit, matchinv := false, matchmap := List.replicate 8 0 }

def scanConversion (buffer : List CChar) (t : Scan) (ch : CChar) : Exec Scan :=
  if ch = 'P' ∨ ch = 'p' then scanInt { t with rank := rankPtr } 0
  else if ch = 'i' then scanInt t 0
  else if ch = 'd' then scanInt t 10
  else if ch = 'o' then scanInt t 8
  else if ch = 'u' then scanInt t 10
  else if ch = 'x' ∨ ch = 'X' then scanInt t 16
  else if ch = 'n' then setInteger t (BitVec.ofNat 64 (buffer.length - t.q.length))
  else if ch = 'c' then scanChar t
  else if ch = 's' then scanString t
  else if ch = '[' then scanSet t
  else if ch = '%' then matchChar t '%'
  else .ok { t with bail := .err }

/-! ## The states -/

def scanModifiers (buffer : List CChar) (t : Scan) (ch : CChar) : Exec Scan :=
  if ch = 'h' then .ok { t with rank := t.rank - 1 }
  else if ch = 'l' then .ok { t with rank := t.rank + 1 }
  else if ch = 'j' then .ok { t with rank := rankLonglong }
  else if ch = 'z' then .ok { t with rank := rankLong }
  else if ch = 't' then .ok { t with rank := rankLong }
  else if ch = 'L' ∨ ch = 'q' then .ok { t with rank := rankLonglong }
  else scanConversion buffer { t with state := .normal, rank := canonicalRank t.rank } ch

/-- `st_width`, on an `unsigned int`. -/
def scanWidth (buffer : List CChar) (t : Scan) (ch : CChar) : Exec Scan :=
  if decimal ch then .ok { t with width := (t.width * 10 + decimalValue ch) % 2 ^ 32 }
  else scanModifiers buffer { t with state := .modifiers } ch

def scanFlags (buffer : List CChar) (t : Scan) (ch : CChar) : Exec Scan :=
  if ch = '*' then .ok { t with splat := true }
  else if decimal ch then .ok { t with width := decimalValue ch, state := .width, hasWidth := true }
  else scanModifiers buffer { t with state := .modifiers } ch

def scanNormal (t : Scan) (ch : CChar) : Exec Scan :=
  if ch = '%' then
    .ok { t with state := .flags, splat := false, hasWidth := false, rank := rankInt, width := uintMax }
  else if isspace ch then do
    let q ← skipspace t.q
    .ok { t with q := q }
  else matchChar t ch

/-- `while (width && (uc = *q) && test_bit(matchmap, uc)^matchinv) { if (sarg) *sarg++ = uc; q++; }`; the width stays
as it is. -/
def matchLoop (bitmap : List (BitVec 32)) (inv arg : Bool) : List CChar → Copy → Exec (CChar × Copy)
  | [], _ => .error .stray
  | uc :: q, t =>
    if uc = 0 then .ok (uc, t)
    else do
      let hit ← testBit bitmap uc.toNat
      if hit ^^ inv then matchLoop bitmap inv arg q (t.next arg uc) else .ok (uc, t)

/-- The loop of `match_run`, and `uc`. -/
def matchChars (t : Scan) : Exec (CChar × Copy) :=
  if t.width = 0 then .ok (1, ⟨t.q, t.sarg, t.stores⟩)
  else matchLoop t.matchmap t.matchinv (decide (t.sarg ≠ 0)) t.q ⟨t.q, t.sarg, t.stores⟩

/-- `if (q != qq && sarg) { *sarg = '\0'; converted++; } else bail = bail_err;`. -/
def Scan.matched (t : Scan) (c : Copy) : Scan :=
  if c.q ≠ t.q ∧ c.sp ≠ 0 then
    { t with q := c.q, sarg := c.sp, stores := c.stores ++ [⟨c.sp, 1, 0⟩], converted := t.converted + 1 }
  else { t with q := c.q, sarg := c.sp, stores := c.stores, bail := .err }

/-- `match_run`, which leaves the state as it is. -/
def matchRun (t : Scan) : Exec Scan := do
  let (uc, c) ← matchChars t
  let t := t.matched c
  .ok (if uc = 0 then { t with bail := .eof } else t)

/-- `st_match_init`; no code sets `FL_INV`. -/
def scanMatchInit (t : Scan) (ch : CChar) : Exec Scan :=
  if ch = '^' then .ok { t with matchinv := true }
  else do
    let t ← t.setBit ch.toNat
    .ok { t with state := .matchMain }

def scanMatch (t : Scan) (ch : CChar) : Exec Scan :=
  if ch = ']' then matchRun t
  else if ch = '-' then .ok { t with rangeStart := ch, state := .matchRange }
  else t.setBit ch.toNat

/-- `for (i = range_start; i < (unsigned char)ch; i++) set_bit(matchmap, i);`, for `n` turns. -/
def rangeLoop : Nat → Nat → Scan → Exec Scan
  | 0, _, t => .ok t
  | n + 1, i, t => do
    let t ← t.setBit i
    rangeLoop n (i + 1) t

def scanMatchRange (t : Scan) (ch : CChar) : Exec Scan :=
  if ch = ']' then do
    let t ← t.setBit ('-' : CChar).toNat
    matchRun t
  else do
    let t ← rangeLoop (ch.toNat - t.rangeStart.toNat) t.rangeStart.toNat t
    .ok { t with state := .matchMain }

def scanStep (buffer : List CChar) (t : Scan) (ch : CChar) : Exec Scan :=
  match t.state with
  | .normal => scanNormal t ch
  | .flags => scanFlags buffer t ch
  | .width => scanWidth buffer t ch
  | .modifiers => scanModifiers buffer t ch
  | .matchInit => scanMatchInit t ch
  | .matchMain => scanMatch t ch
  | .matchRange => scanMatchRange t ch

/-- `while ((ch = *p++) && !bail)`. -/
def scanLoop (buffer : List CChar) : List CChar → Scan → Exec Scan
  | [], t => .ok t
  | ch :: p, t =>
    if t.bail ≠ .none then .ok t
    else do
      let t ← scanStep buffer t ch
      scanLoop buffer p t

/-- The variables at the start; the bitmap is not set before a `%[`. -/
def Scan.start (buffer : List CChar) (ap : List (BitVec 32)) : Scan :=
  ⟨.normal, false, false, rankInt, uintMax, buffer, .none, 0, 0, List.replicate 8 0, false, 0, ap, []⟩

/-- What `vsscanf` returns, and what it stored. -/
structure Scanned where
  result : Int
  stores : List Store
deriving DecidableEq, Repr

def vsscanf (buffer : List CChar) (format : CString) (ap : List (BitVec 32)) : Exec Scanned := do
  let t ← scanLoop buffer format.chars (.start buffer ap)
  .ok ⟨if t.bail = .eof ∧ t.converted = 0 then -1 else t.converted, t.stores⟩

end MooseOS.User
