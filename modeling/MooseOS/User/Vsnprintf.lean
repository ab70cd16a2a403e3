import MooseOS.Lib.Output

/-!
# Formatted output

`etc/yuserlib/common/vsnprintf.c`, for the user programs of the 32-bit machine: `int`, `long`, `size_t` and pointers
have 32 bits, `long long` and `uintmax_t` have 64.

* `CChar`, `CString` : a character, and the characters of a string before its `NUL`;
* `formatInt` : `format_int`, in the two halves `shape` (how wide the number gets) and `emitInt`;
* `Ctl`, `step` : what the loop of `vsnprintf` keeps besides the buffer, and what it does with one character of the
  format, up to the output, which is an `Action`;
* `perform` : the output;
* `vsnprintf`, `vsprintf`.

`p--`, which processes a character again, is a call of the next state. A `va_list` is the list of the words that are
left on the stack, and the strings in memory are given by their addresses.
-/

namespace MooseOS.User
open Prog

/-- A character, as `unsigned char`. -/
abbrev CChar := UInt8

instance : Coe Char CChar := ⟨Char.toUInt8⟩

/-- The characters of a string in memory, which ends with its first `NUL`. -/
structure CString where
  chars : List CChar
  nul : 0 ∉ chars
deriving DecidableEq

/-- `enum flags`, one field a bit. -/
structure Flags where
  zero : Bool := false
  minus : Bool := false
  plus : Bool := false
  tick : Bool := false
  space : Bool := false
  hash : Bool := false
  signed : Bool := false
  upper : Bool := false
deriving DecidableEq, Repr

/-! ## `format_int` -/

def lcdigits : List CChar := ['0', '1', '2', '3', '4', '5', '6', '7', '8', '9', 'a', 'b', 'c', 'd', 'e', 'f']
def ucdigits : List CChar := ['0', '1', '2', '3', '4', '5', '6', '7', '8', '9', 'A', 'B', 'C', 'D', 'E', 'F']

def Flags.digits (f : Flags) : List CChar := if f.upper then ucdigits else lcdigits

/-- The digits that `val` needs, none for `0`: `uintmax_t` has at most 64 of them. -/
def countDigits (base val : Nat) : Exec Nat := do
  let (_, ndigits) ← whileLoop (fun t => t.1 ≠ 0) (fun t => .ok (t.1 / base, t.2 + 1)) 65 (val, 0)
  .ok ndigits

/-- What `format_int` knows of the number before it puts out a character. -/
structure Shape where
  minus : Bool
  val : Nat
  tickskip : Nat
  ndigits : Nat
  nchars : Nat
deriving DecidableEq, Repr

/-- The first half of `format_int`. -/
def shape (val : BitVec 64) (flags : Flags) (base : Nat) (prec : Int) : Exec Shape := do
  let minus := flags.signed && val.msb
  let val := (if minus then -val else val).toNat
  let ndigits ← countDigits base val
  let prec : Int := if flags.hash && base == 8 then (if prec < ndigits + 1 then ndigits + 1 else prec) else prec
  let ndigits := if ndigits < prec then prec.toNat else if val = 0 then 1 else ndigits
  let tickskip := if flags.tick then (if base = 16 then 4 else 3) else ndigits
  let ndigits := ndigits + (ndigits - 1) / tickskip
  let nchars := ndigits
  let nchars := if minus || (flags.plus || flags.space) then nchars + 1 else nchars
  let nchars := if flags.hash && base == 16 then nchars + 2 else nchars
  .ok ⟨minus, val, tickskip, ndigits, nchars⟩

/-- `EMIT`. -/
abbrev emitChar (n : Nat) (ch : CChar) (s : Out CChar) : Exec (Out CChar) := emit n ch s

/-- `while (width > nchars) { EMIT(c); width--; }`. -/
def padLoop (n : Nat) (c : CChar) (nchars : Int) (width : Int) (s : Out CChar) : Exec (Int × Out CChar) :=
  whileLoop (fun t => decide (t.1 > nchars)) (fun t => do
    let s ← emit n c t.2
    .ok (t.1 - 1, s)) ((width - nchars).toNat + 1) (width, s)

/-- The sign, or what stands in its place. -/
def emitSign (n : Nat) (minus : Bool) (flags : Flags) (s : Out CChar) : Exec (Out CChar) :=
  if minus then emitChar n '-' s else if flags.plus then emitChar n '+' s
  else if flags.space then emitChar n ' ' s else .ok s

/-- `0x` or `0X`. -/
def emitHash (n : Nat) (flags : Flags) (base : Nat) (s : Out CChar) : Exec (Out CChar) :=
  if flags.hash && base == 16 then do
    let s ← emitChar n '0' s
    emitChar n (if flags.upper then 'X' else 'x') s
  else .ok s

/-- The variables of the loop that generates the number from right to left. -/
structure Digits where
  b4tick : Nat
  ndigits : Nat
  qq : Nat
  oo : Nat
  val : Nat
  buf : List CChar

/-- `qq--; oo--; ndigits--; if (oo < n) *qq = c;`. -/
def Digits.put (n : Nat) (c : CChar) (t : Digits) : Exec Digits := do
  let buf ← if t.oo - 1 < n then poke t.buf (t.qq - 1) c else .ok t.buf
  .ok { t with ndigits := t.ndigits - 1, qq := t.qq - 1, oo := t.oo - 1, buf := buf }

/-- One turn of the loop. -/
def digitTurn (n : Nat) (digits : List CChar) (base tickskip : Nat) (t : Digits) : Exec Digits := do
  let t ← if t.b4tick = 0 then do
      let t ← t.put n '_'
      .ok { t with b4tick := tickskip - 1 }
    else .ok { t with b4tick := t.b4tick - 1 }
  let c ← peek digits (t.val % base)
  let t ← t.put n c
  .ok { t with val := t.val / base }

def digitLoop (n : Nat) (digits : List CChar) (base tickskip : Nat) (t : Digits) : Exec Digits :=
  whileLoop (fun t => decide (t.ndigits > 0)) (digitTurn n digits base tickskip) (t.ndigits + 1) t

/-- The number itself; the cursor is moved behind it first. -/
def emitDigits (n : Nat) (flags : Flags) (base : Nat) (h : Shape) (s : Out CChar) : Exec (Out CChar) := do
  let q := s.q + h.ndigits
  let o := s.o + h.ndigits
  let t ← digitLoop n flags.digits base h.tickskip ⟨h.tickskip, h.ndigits, q, o, h.val, s.buf⟩
  .ok ⟨t.buf, q, o⟩

/-- The second half of `format_int`. -/
def emitInt (n : Nat) (flags : Flags) (base : Nat) (width : Int) (h : Shape) (s : Out CChar) : Exec (Out CChar) := do
  let (width, s) ← if !(flags.minus || flags.zero) && decide (width > h.nchars) then padLoop n ' ' h.nchars width s
    else .ok (width, s)
  let s ← emitSign n h.minus flags s
  let s ← emitHash n flags base s
  let (width, s) ← if (!flags.minus && flags.zero) && decide (width > h.ndigits) then padLoop n '0' h.nchars width s
    else .ok (width, s)
  let s ← emitDigits n flags base h s
  let (_, s) ← if flags.minus then padLoop n ' ' h.nchars width s else .ok (width, s)
  .ok s

/-- `format_int`: the buffer after it, and what it returns. -/
def formatInt (buf : List CChar) (q n : Nat) (val : BitVec 64) (flags : Flags) (base : Nat) (width prec : Int) :
    Exec (List CChar × Nat) := do
  let h ← shape val flags base prec
  let s ← emitInt n flags base width h ⟨buf, q, 0⟩
  .ok (s.buf, s.o)

/-! ## The states of `vsnprintf` -/

inductive St where
  | normal
  | flags
  | width
  | prec
  | modifiers
deriving DecidableEq, Repr

/-- `enum ranks`. -/
def rankChar : Int := -2
def rankShort : Int := -1
def rankInt : Int := 0
def rankLong : Int := 1
def rankLonglong : Int := 2

/-- The variables of `vsnprintf` that no output changes. -/
structure Ctl where
  state : St
  flags : Flags
  rank : Int
  width : Int
  prec : Int
  ap : List (BitVec 32)
deriving DecidableEq

/-- What `vsnprintf` is to put out after a character of the format. -/
inductive Action where
  | skip
  /-- `EMIT(ch)` -/
  | emit (ch : CChar)
  /-- `goto is_integer` -/
  | integer (val : BitVec 64) (flags : Flags) (base : Nat) (width prec : Int)
  /-- `goto is_string`; `slen` characters are at `sarg` -/
  | string (sarg : List CChar) (flags : Flags) (width prec : Int)
  /-- `%n`: the number of characters written goes to `p` -/
  | count (p : BitVec 32) (rank : Int)
deriving DecidableEq

/-- `va_arg` of a type of 32 bits. -/
def vaArg (ap : List (BitVec 32)) : Exec (BitVec 32 × List (BitVec 32)) :=
  match ap with
  | w :: ap => .ok (w, ap)
  | [] => .error .stray

/-- `va_arg` of a type of 64 bits: its low half is the first word. -/
def vaArg64 (ap : List (BitVec 32)) : Exec (BitVec 64 × List (BitVec 32)) :=
  match ap with
  | lo :: hi :: ap => .ok (hi ++ lo, ap)
  | _ => .error .stray

/-- The argument of `%d` and `%i`. -/
def vaSigned (rank : Int) (ap : List (BitVec 32)) : Exec (BitVec 64 × List (BitVec 32)) :=
  if rank = rankLonglong then vaArg64 ap
  else do
    let (w, ap) ← vaArg ap
    .ok (if rank = rankChar then (w.setWidth 8).signExtend 64
      else if rank = rankShort then (w.setWidth 16).signExtend 64
      else w.signExtend 64, ap)

/-- The argument of `%o`, `%u`, `%x` and `%X`. -/
def vaUnsigned (rank : Int) (ap : List (BitVec 32)) : Exec (BitVec 64 × List (BitVec 32)) :=
  if rank = rankLonglong then vaArg64 ap
  else do
    let (w, ap) ← vaArg ap
    .ok (if rank = rankChar then (w.setWidth 8).setWidth 64
      else if rank = rankShort then (w.setWidth 16).setWidth 64
      else w.setWidth 64, ap)

def isUnsigned (base : Nat) (c : Ctl) : Exec (Ctl × Action) := do
  let (val, ap) ← vaUnsigned c.rank c.ap
  .ok ({ c with ap := ap }, .integer val c.flags base c.width c.prec)

/-- The string that `%s` gets; `NULL` is printed too. -/
def stringAt (strings : BitVec 32 → Option CString) (p : BitVec 32) : Exec (List CChar) :=
  if p = 0 then .ok ['(', 'n', 'u', 'l', 'l', ')']
  else match strings p with
    | some s => .ok s.chars
    | none => .error .stray

/-- The output modifiers, which end a directive. -/
def conversion (strings : BitVec 32 → Option CString) (c : Ctl) (ch : CChar) : Exec (Ctl × Action) :=
  if ch = 'P' ∨ ch = 'p' then do
    let flags := { c.flags with upper := c.flags.upper || decide (ch = 'P'), hash := true }
    let (p, ap) ← vaArg c.ap
    -- (CHAR_BIT*sizeof(void *)+3)/4
    .ok ({ c with flags := flags, prec := 8, ap := ap }, .integer (p.setWidth 64) flags 16 c.width 8)
  else if ch = 'd' ∨ ch = 'i' then do
    let flags := { c.flags with signed := true }
    let (val, ap) ← vaSigned c.rank c.ap
    .ok ({ c with flags := flags, ap := ap }, .integer val flags 10 c.width c.prec)
  else if ch = 'o' then isUnsigned 8 c
  else if ch = 'u' then isUnsigned 10 c
  else if ch = 'X' ∨ ch = 'x' then
    isUnsigned 16 { c with flags := { c.flags with upper := c.flags.upper || decide (ch = 'X') } }
  else if ch = 'c' then do
    let (w, ap) ← vaArg c.ap
    .ok ({ c with ap := ap }, .string [UInt8.ofBitVec (w.setWidth 8)] c.flags c.width c.prec)
  else if ch = 's' then do
    let (p, ap) ← vaArg c.ap
    let sarg ← stringAt strings p
    .ok ({ c with ap := ap }, .string sarg c.flags c.width c.prec)
  else if ch = 'n' then do
    let (p, ap) ← vaArg c.ap
    .ok ({ c with ap := ap }, .count p c.rank)
  else .ok (c, .emit ch)

/-- `if (rank < MIN_RANK) rank = MIN_RANK; else if (rank > MAX_RANK) rank = MAX_RANK;`. -/
def canonicalRank (rank : Int) : Int :=
  if rank < rankChar then rankChar else if rank > rankLonglong then rankLonglong else rank

def stModifiers (strings : BitVec 32 → Option CString) (c : Ctl) (ch : CChar) : Exec (Ctl × Action) :=
  if ch = 'h' then .ok ({ c with rank := c.rank - 1 }, .skip)
  else if ch = 'l' then .ok ({ c with rank := c.rank + 1 }, .skip)
  else if ch = 'j' then .ok ({ c with rank := rankLonglong }, .skip)
  else if ch = 'z' then .ok ({ c with rank := rankLong }, .skip)
  else if ch = 't' then .ok ({ c with rank := rankLong }, .skip)
  else if ch = 'L' ∨ ch = 'q' then .ok ({ c with rank := c.rank + 2 }, .skip)
  else conversion strings { c with state := .normal, rank := canonicalRank c.rank } ch

/-- `ch >= '0' && ch <= '9'`. -/
def decimal (ch : CChar) : Bool := decide ('0' ≤ ch) && decide (ch ≤ '9')

/-- `ch - '0'`. -/
def decimalValue (ch : CChar) : Nat := ch.toNat - 48

def stPrec (strings : BitVec 32 → Option CString) (c : Ctl) (ch : CChar) : Exec (Ctl × Action) :=
  if decimal ch then .ok ({ c with prec := c.prec * 10 + decimalValue ch }, .skip)
  else if ch = '*' then do
    let (w, ap) ← vaArg c.ap
    .ok ({ c with prec := if w.toInt < 0 then -1 else w.toInt, ap := ap }, .skip)
  else stModifiers strings { c with state := .modifiers } ch

def stWidth (strings : BitVec 32 → Option CString) (c : Ctl) (ch : CChar) : Exec (Ctl × Action) :=
  if decimal ch then .ok ({ c with width := c.width * 10 + decimalValue ch }, .skip)
  else if ch = '*' then do
    let (w, ap) ← vaArg c.ap
    if w.toInt < 0 then .ok ({ c with width := -w.toInt, flags := { c.flags with minus := true }, ap := ap }, .skip)
    else .ok ({ c with width := w.toInt, ap := ap }, .skip)
  else if ch = '.' then .ok ({ c with prec := 0, state := .prec }, .skip)
  else stModifiers strings { c with state := .modifiers } ch

def stFlags (strings : BitVec 32 → Option CString) (c : Ctl) (ch : CChar) : Exec (Ctl × Action) :=
  if ch = '-' then .ok ({ c with flags := { c.flags with minus := true } }, .skip)
  else if ch = '+' then .ok ({ c with flags := { c.flags with plus := true } }, .skip)
  else if ch = '\'' then .ok ({ c with flags := { c.flags with tick := true } }, .skip)
  else if ch = ' ' then .ok ({ c with flags := { c.flags with space := true } }, .skip)
  else if ch = '#' then .ok ({ c with flags := { c.flags with hash := true } }, .skip)
  else if ch = '0' then .ok ({ c with flags := { c.flags with zero := true } }, .skip)
  else stWidth strings { c with state := .width } ch

def stNormal (c : Ctl) (ch : CChar) : Exec (Ctl × Action) :=
  if ch = '%' then .ok ({ c with state := .flags, flags := {}, rank := rankInt, width := 0, prec := -1 }, .skip)
  else .ok (c, .emit ch)

def step (strings : BitVec 32 → Option CString) (c : Ctl) (ch : CChar) : Exec (Ctl × Action) :=
  match c.state with
  | .normal => stNormal c ch
  | .flags => stFlags strings c ch
  | .width => stWidth strings c ch
  | .prec => stPrec strings c ch
  | .modifiers => stModifiers strings c ch

/-! ## Output -/

/-- `is_string`. -/
def emitString (n : Nat) (sarg : List CChar) (flags : Flags) (width prec : Int) (s : Out CChar) :
    Exec (Out CChar) := do
  let slen : Int := sarg.length
  let slen := if prec ≠ -1 ∧ slen > prec then prec else slen
  let (width, s) ← if decide (width > slen) && !flags.minus then
      padLoop n (if flags.zero then '0' else ' ') slen width s
    else .ok (width, s)
  let s ← puts n (sarg.take slen.toNat) s
  let (_, s) ← if decide (width > slen) && flags.minus then padLoop n ' ' slen width s else .ok (width, s)
  .ok s

/-- The output of `vsnprintf` after a character of the format. -/
def perform (n : Nat) (a : Action) (s : Out CChar) : Exec (Out CChar) :=
  match a with
  | .skip => .ok s
  | .emit ch => emitChar n ch s
  | .integer val flags base width prec => do
    let (buf, sz) ← formatInt s.buf s.q (if s.o < n then n - s.o else 0) val flags base width prec
    .ok ⟨buf, s.q + sz, s.o + sz⟩
  | .string sarg flags width prec => emitString n sarg flags width prec s
  | .count _ _ => .ok s

/-- A store of `%n`: `size` bytes at `p`. -/
structure Store where
  p : BitVec 32
  size : Nat
  val : Nat
deriving DecidableEq, Repr

/-- `sizeof` the integer of a rank. -/
def rankSize (rank : Int) : Nat :=
  if rank = rankChar then 1 else if rank = rankShort then 2 else if rank = rankLonglong then 8 else 4

/-- What `%n` stores when `o` characters were put out. -/
def Action.stores (o : Nat) : Action → List Store
  | .count p rank => [⟨p, rankSize rank, o % 2 ^ (8 * rankSize rank)⟩]
  | _ => []

/-- The loop of `vsnprintf`. -/
def formatLoop (strings : BitVec 32 → Option CString) (n : Nat) :
    List CChar → Ctl → Out CChar → List Store → Exec (Out CChar × List Store)
  | [], _, s, w => .ok (s, w)
  | ch :: p, c, s, w => do
    let (c, a) ← step strings c ch
    let s' ← perform n a s
    formatLoop strings n p c s' (w ++ a.stores s.o)

/-- The variables at the start; `state`, `flags`, … are set again by each `%`. -/
def Ctl.start (ap : List (BitVec 32)) : Ctl := ⟨.normal, {}, rankInt, 0, -1, ap⟩

/-- Null-terminate the string. -/
def terminate (n : Nat) (s : Out CChar) : Exec (List CChar) :=
  if s.o < n then poke s.buf s.q 0
  else if n > 0 then poke s.buf (n - 1) 0
  else .ok s.buf

/-- The buffer, what `vsnprintf` returns, and what `%n` stored. -/
structure Printed where
  buffer : List CChar
  result : Nat
  stores : List Store
deriving DecidableEq

def vsnprintf (strings : BitVec 32 → Option CString) (buffer : List CChar) (n : Nat) (format : CString)
    (ap : List (BitVec 32)) : Exec Printed := do
  let (s, w) ← formatLoop strings n format.chars (.start ap) ⟨buffer, 0, 0⟩ []
  let buf ← terminate n s
  .ok ⟨buf, s.o, w⟩

end MooseOS.User
