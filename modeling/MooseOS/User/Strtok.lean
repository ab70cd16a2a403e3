import MooseOS.User.Vsnprintf

/-!
# Tokens

`strtok` of `etc/yuserlib/common`, with `strsep`, `strpbrk` and `__strxspn`. The string that is taken apart lies in a
block of memory, and a pointer is an index into it; `NULL` is `none`.

* `spanLoop_eq` : the span that `__strxspn` counts, up to the end or the first delimiter;
* `strsep_last`, `strsep_more` : what `strsep` cuts off;
* `Cut` : what of a string is left unchanged when it is cut into tokens;
* `strsep_rest`, `strtokLoop_spec` : a turn and a call of `strtok`;
* `strtok_tokens` : the calls of `strtok` on a string yield its tokens.
-/

namespace MooseOS.User
open Prog

/-! ## The functions -/

/-- The bitmap: `memset` and the loop over `map`, and the entry of the `NUL`. -/
def matchmapOf (map : CString) (parity : CChar) : List CChar :=
  (map.chars.foldl (fun t ch => t.set ch.toNat 1) (List.replicate 256 0)).set 0 parity

/-- `while (matchmap[(unsigned char)*s++] ^ parity) n++;`. -/
def spanLoop (matchmap : List CChar) (parity : CChar) : List CChar → Nat → Exec Nat
  | [], _ => .error .stray
  | ch :: s, n => do
    let e ← peek matchmap ch.toNat
    if e ^^^ parity ≠ 0 then spanLoop matchmap parity s (n + 1) else .ok n

/-- `__strxspn`: `s` is what is in memory from the pointer on. -/
def strxspn (s : List CChar) (map : CString) (parity : CChar) : Exec Nat := spanLoop (matchmapOf map parity) parity s 0

def strpbrk (buf : List CChar) (s : Nat) (accept : CString) : Exec (Option Nat) := do
  let n ← strxspn (buf.drop s) accept 1
  let ch ← peek buf (s + n)
  .ok (if ch ≠ 0 then some (s + n) else none)

/-- The memory that `strtok` works on, and its `holder`. -/
structure Tok where
  buf : List CChar
  holder : Option Nat
deriving DecidableEq

/-- `strsep`, on `holder`. -/
def strsep (t : Tok) (delim : CString) : Exec (Option Nat × Tok) :=
  match t.holder with
  | none => .ok (none, t)
  | some s => do
    let e ← strpbrk t.buf s delim
    match e with
    | some e => do
      let buf ← poke t.buf e 0
      .ok (some s, ⟨buf, some (e + 1)⟩)
    | none => .ok (some s, ⟨t.buf, none⟩)

/-- `do { s = strsep(&holder, delim); } while (s && !*s);`. -/
def strtokLoop (delim : CString) : Nat → Tok → Exec (Option Nat × Tok)
  | 0, _ => .error .endless
  | fuel + 1, t => do
    let (s, t) ← strsep t delim
    match s with
    | none => .ok (none, t)
    | some p => do
      let ch ← peek t.buf p
      if ch = 0 then strtokLoop delim fuel t else .ok (some p, t)

/-- `strtok`: a block of `k` cells has at most `k` separators. -/
def strtok (s : Option Nat) (delim : CString) (t : Tok) : Exec (Option Nat × Tok) :=
  let t := match s with
    | some p => { t with holder := some p }
    | none => t
  strtokLoop delim (t.buf.length + 2) t

/-- The string at `p`. -/
def stringIn (buf : List CChar) (p : Nat) : List CChar := (buf.drop p).takeWhile (fun ch => ch ≠ 0)

/-- `for (t = strtok(s, delim); t; t = strtok(NULL, delim))`, with the strings that it sees. -/
def tokenLoop (delim : CString) : Nat → Option Nat → Tok → Exec (List (List CChar) × Tok)
  | 0, _, _ => .error .endless
  | fuel + 1, s, t => do
    let (r, t) ← strtok s delim t
    match r with
    | none => .ok ([], t)
    | some p => do
      let (tokens, t') ← tokenLoop delim fuel none t
      .ok (stringIn t.buf p :: tokens, t')

/-! ## The span -/

def isDelim (delim : CString) (ch : CChar) : Bool := decide (ch ∈ delim.chars)

theorem length_matchmap (cs : List CChar) (t : List CChar) :
    (cs.foldl (fun t ch => t.set ch.toNat 1) t).length = t.length := by
  induction cs generalizing t with
  | nil => rfl
  | cons ch cs ih => rw [List.foldl_cons, ih, List.length_set]

theorem matchmap_loop (cs : List CChar) (t : List CChar) (ht : t.length = 256) (ch : CChar) :
    (cs.foldl (fun t ch => t.set ch.toNat 1) t)[ch.toNat]? = if ch ∈ cs then some 1 else t[ch.toNat]? := by
  have hch : ch.toNat < 256 := ch.toNat_lt
  induction cs generalizing t with
  | nil => rfl
  | cons c cs ih =>
    rw [List.foldl_cons, ih _ (by rw [List.length_set]; exact ht)]
    by_cases hmem : ch ∈ cs
    · rw [if_pos hmem, if_pos (List.mem_cons_of_mem _ hmem)]
    · rw [if_neg hmem, List.getElem?_set]
      by_cases heq : c = ch
      · subst heq
        rw [if_pos rfl, if_pos (by omega), if_pos List.mem_cons_self]
      · rw [if_neg fun h => heq (UInt8.toNat_inj.1 h), if_neg]
        rw [List.mem_cons, not_or]
        exact ⟨fun h => heq h.symm, hmem⟩

/-- With parity `1` the span stops at the characters of the map and at the `NUL`. -/
theorem peek_matchmap (map : CString) (ch : CChar) :
    peek (matchmapOf map 1) ch.toNat = .ok (if ch = 0 ∨ ch ∈ map.chars then 1 else 0) := by
  have hch : ch.toNat < 256 := ch.toNat_lt
  have hloop := matchmap_loop map.chars (List.replicate 256 0) List.length_replicate ch
  unfold peek matchmapOf
  rw [List.getElem?_set, length_matchmap, hloop, List.length_replicate, List.getElem?_replicate, if_pos hch]
  by_cases h0 : ch = 0
  · subst h0
    rfl
  · rw [if_neg fun h => h0 (UInt8.toNat_inj.1 h.symm)]
    by_cases hmem : ch ∈ map.chars
    · rw [if_pos hmem, if_pos (.inr hmem)]
    · rw [if_neg hmem, if_neg (not_or.2 ⟨h0, hmem⟩)]

theorem spanLoop_eq {map : CString} {a s : List CChar} {e : CChar} (ha : ∀ ch ∈ a, ch ≠ 0 ∧ ch ∉ map.chars)
    (he : e = 0 ∨ e ∈ map.chars) (n : Nat) : spanLoop (matchmapOf map 1) 1 (a ++ e :: s) n = .ok (n + a.length) := by
  induction a generalizing n with
  | nil =>
    rw [List.nil_append, spanLoop, peek_matchmap, ok_bind, if_pos he, if_neg (by decide)]
    rfl
  | cons ch a ih =>
    rw [List.forall_mem_cons] at ha
    rw [List.cons_append, spanLoop, peek_matchmap, ok_bind, if_neg (not_or.2 ha.1), if_pos (by decide), ih ha.2,
      List.length_cons]
    congr 1
    omega

/-! ## Cutting off -/

section Cut
variable {delim : CString} {pre a b post : List CChar} {c : CChar}

theorem strpbrk_eq {e : CChar} {s : List CChar} (ha : ∀ ch ∈ a, ch ≠ 0 ∧ ch ∉ delim.chars)
    (he : e = 0 ∨ e ∈ delim.chars) :
    strpbrk (pre ++ (a ++ e :: s)) pre.length delim = .ok (if e ≠ 0 then some (pre.length + a.length) else none) := by
  have hpeek : peek (pre ++ (a ++ e :: s)) (pre.length + a.length) = .ok e := by
    rw [peek, ← List.append_assoc, List.getElem?_append_right (by rw [List.length_append]),
      List.length_append, Nat.sub_self]
    rfl
  rw [strpbrk, strxspn, List.drop_left, spanLoop_eq ha he, ok_bind, Nat.zero_add, hpeek, ok_bind]

/-- `strsep` on a string without a delimiter. -/
theorem strsep_last (ha : ∀ ch ∈ a, ch ≠ 0 ∧ ch ∉ delim.chars) :
    strsep ⟨pre ++ (a ++ 0 :: post), some pre.length⟩ delim =
      .ok (some pre.length, ⟨pre ++ (a ++ 0 :: post), none⟩) := by
  rw [strsep]
  dsimp only
  rw [strpbrk_eq ha (.inl rfl), ok_bind, if_neg (fun h => h rfl)]

/-- `strsep` on a string with a delimiter. -/
theorem strsep_more (ha : ∀ ch ∈ a, ch ≠ 0 ∧ ch ∉ delim.chars) (hc : c ∈ delim.chars) :
    strsep ⟨pre ++ (a ++ c :: b), some pre.length⟩ delim
      = .ok (some pre.length, ⟨pre ++ (a ++ 0 :: b), some (pre.length + a.length + 1)⟩) := by
  have hc0 : c ≠ 0 := fun h => delim.nul (h ▸ hc)
  have hpoke : poke (pre ++ (a ++ c :: b)) (pre.length + a.length) 0 = .ok (pre ++ (a ++ 0 :: b)) := by
    rw [poke, if_pos (by simp only [List.length_append, List.length_cons]; omega), List.set_append_right _ _ (by omega),
      List.set_append_right _ _ (by omega), Nat.add_sub_cancel_left, Nat.sub_self, List.set_cons_zero]
  rw [strsep]
  dsimp only
  rw [strpbrk_eq ha (.inr hc), ok_bind, if_pos hc0]
  dsimp only
  rw [hpoke, ok_bind]

end Cut

/-! ## Tokens -/

/-- The tokens of a string: its runs of characters that are no delimiters. -/
def tokensOf (delim : CString) (t : List CChar) : List (List CChar) :=
  (t.splitOnP (isDelim delim)).filter fun a => decide (a ≠ [])

/-- `x` is the string `s`, with `NUL`s instead of some of its delimiters. -/
def Cut (delim : CString) (s x : List CChar) : Prop :=
  List.Forall₂ (fun c c' => c' = c ∨ (c ∈ delim.chars ∧ c' = 0)) s x

theorem Cut.refl (delim : CString) (s : List CChar) : Cut delim s s := List.forall₂_same.2 fun _ _ => .inl rfl

/-- What is left of `strtok` when it is to return the tokens `rest` of the string `s`, which follows `pre`. -/
inductive Rest (delim : CString) (pre s post : List CChar) : Tok → List (List CChar) → Prop where
  | done {x : List CChar} (hcut : Cut delim s x) : Rest delim pre s post ⟨pre ++ (x ++ 0 :: post), none⟩ []
  | more {s₁ x₁ t : List CChar} (hs : s = s₁ ++ t) (hcut : Cut delim s₁ x₁) (hnul : 0 ∉ t) :
    Rest delim pre s post ⟨(pre ++ x₁) ++ (t ++ 0 :: post), some (pre ++ x₁).length⟩ (tokensOf delim t)

section Tokens
variable {delim : CString} {pre s post : List CChar}

theorem tokensOf_last {a : List CChar} (ha : ∀ ch ∈ a, ch ∉ delim.chars) :
    tokensOf delim a = if a = [] then [] else [a] := by
  have hfalse : ∀ x ∈ a, isDelim delim x = false := fun x hx => decide_eq_false (ha x hx)
  rw [tokensOf, List.splitOnP_eq_singleton hfalse]
  by_cases h : a = [] <;> simp [h]

theorem tokensOf_more {a b : List CChar} {c : CChar} (ha : ∀ ch ∈ a, ch ∉ delim.chars) (hc : c ∈ delim.chars) :
    tokensOf delim (a ++ c :: b) = (if a = [] then [] else [a]) ++ tokensOf delim b := by
  have hfalse : ∀ x ∈ a, isDelim delim x = false := fun x hx => decide_eq_false (ha x hx)
  have htrue : isDelim delim c = true := decide_eq_true hc
  rw [tokensOf, List.splitOnP_append_cons_of_forall_mem hfalse c htrue, List.filter_cons, tokensOf]
  by_cases h : a = [] <;> simp [h]

/-- A string has no delimiter, or a first one. -/
theorem delim_cases (delim : CString) (t : List CChar) :
    (∀ ch ∈ t, ch ∉ delim.chars) ∨ ∃ a c b, t = a ++ c :: b ∧ (∀ ch ∈ a, ch ∉ delim.chars) ∧ c ∈ delim.chars := by
  induction t with
  | nil => exact .inl fun ch hch => absurd hch List.not_mem_nil
  | cons x t ih =>
    by_cases hx : x ∈ delim.chars
    · exact .inr ⟨[], x, t, rfl, fun ch hch => absurd hch List.not_mem_nil, hx⟩
    · rcases ih with h | ⟨a, c, b, rfl, ha, hc⟩
      · exact .inl (List.forall_mem_cons.2 ⟨hx, h⟩)
      · exact .inr ⟨x :: a, c, b, rfl, List.forall_mem_cons.2 ⟨hx, ha⟩, hc⟩

theorem stringIn_eq {p a q : List CChar} (ha : 0 ∉ a) : stringIn (p ++ (a ++ 0 :: q)) p.length = a := by
  rw [stringIn, List.drop_left]
  induction a with
  | nil => rfl
  | cons c a ih =>
    rw [List.mem_cons, not_or] at ha
    rw [List.cons_append, List.takeWhile_cons_of_pos (by simpa using fun h => ha.1 h.symm), ih ha.2]

theorem peek_cons {p q : List CChar} {c : CChar} : peek (p ++ c :: q) p.length = .ok c := by
  rw [peek, List.getElem?_append_right (Nat.le_refl _), Nat.sub_self]
  rfl

/-- How much of the block is left where `strsep` goes on. -/
def Tok.room (t : Tok) : Nat :=
  match t.holder with
  | none => 0
  | some p => t.buf.length - p

theorem Tok.room_lt (t : Tok) : t.room < t.buf.length + 2 := by
  unfold Tok.room
  split <;> omega

/-- **A turn** cuts off what stands before the next delimiter, or all that is left: a token, unless it is empty. -/
theorem strsep_rest {tok : Tok} {rest : List (List CChar)} {p : Nat} (h : Rest delim pre s post tok rest)
    (hp : tok.holder = some p) :
    ∃ a rest' t', strsep tok delim = .ok (some p, t') ∧ rest = (if a = [] then [] else [a]) ++ rest' ∧
      (∃ l q, t'.buf = l ++ (a ++ 0 :: q) ∧ l.length = p) ∧ (∀ ch ∈ a, ch ≠ 0) ∧ Rest delim pre s post t' rest' ∧
      t'.room < tok.room := by
  cases h with
  | done hcut => cases hp
  | @more s₁ x₁ t hs hcut hnul =>
    cases hp
    have hchar : ∀ ch ∈ t, ch ≠ 0 := fun ch hch h => hnul (h ▸ hch)
    rcases delim_cases delim t with hlast | ⟨a, c, b, rfl, ha, hc⟩
    · -- no delimiter is left
      refine ⟨t, [], _, strsep_last fun ch hch => ⟨hchar ch hch, hlast ch hch⟩, ?_, ⟨_, _, rfl, rfl⟩, hchar, ?_, ?_⟩
      · rw [tokensOf_last hlast, List.append_nil]
      · rw [hs, List.append_assoc pre, ← List.append_assoc x₁]
        exact .done (List.rel_append hcut (Cut.refl delim t))
      · simp only [Tok.room, List.length_append, List.length_cons]
        omega
    · have hcharA : ∀ ch ∈ a, ch ≠ 0 := fun ch hch => hchar ch (List.mem_append_left _ hch)
      have hnulB : 0 ∉ b := fun h => hnul (List.mem_append_right a (List.mem_cons_of_mem c h))
      have hrun := @strsep_more delim (pre ++ x₁) a (b ++ 0 :: post) c (fun ch hch => ⟨hcharA ch hch, ha ch hch⟩) hc
      have hs' : s = (s₁ ++ (a ++ [c])) ++ b := by rw [hs]; simp
      have hcut' : Cut delim (s₁ ++ (a ++ [c])) (x₁ ++ (a ++ [0])) :=
        List.rel_append hcut (List.rel_append (Cut.refl delim a) (.cons (.inr ⟨hc, rfl⟩) .nil))
      have hbuf : (pre ++ x₁) ++ (a ++ 0 :: (b ++ 0 :: post)) = (pre ++ (x₁ ++ (a ++ [0]))) ++ (b ++ 0 :: post) := by
        simp
      have hholder : (pre ++ x₁).length + a.length + 1 = (pre ++ (x₁ ++ (a ++ [0]))).length := by
        simp only [List.length_append, List.length_singleton]
        omega
      rw [List.append_assoc a, List.cons_append]
      refine ⟨a, tokensOf delim b, _, hrun, tokensOf_more ha hc, ⟨_, _, rfl, rfl⟩, hcharA, ?_, ?_⟩
      · rw [hbuf, hholder]
        exact .more hs' hcut' hnulB
      · simp only [Tok.room, List.length_append, List.length_cons]
        omega

/-- **A call of `strtok`** yields the next token and leaves the others, or `NULL` when there is none. -/
theorem strtokLoop_spec {tok : Tok} {rest : List (List CChar)} (h : Rest delim pre s post tok rest) {fuel : Nat}
    (hfuel : tok.room < fuel) :
    (rest = [] ∧ ∃ t', strtokLoop delim fuel tok = .ok (none, t') ∧ Rest delim pre s post t' [] ∧ t'.holder = none) ∨
      ∃ a rest' p t', rest = a :: rest' ∧ strtokLoop delim fuel tok = .ok (some p, t') ∧ stringIn t'.buf p = a ∧
        Rest delim pre s post t' rest' := by
  induction fuel generalizing tok rest with
  | zero => omega
  | succ fuel ih =>
    rcases hholder : tok.holder with _ | p
    · cases h with
      | done hcut => exact .inl ⟨rfl, _, rfl, .done hcut, rfl⟩
      | more => cases hholder
    · obtain ⟨a, rest', t', hrun, rfl, ⟨l, q, hbuf, rfl⟩, hchar, hrest, hroom⟩ := strsep_rest h hholder
      cases a with
      | nil =>
        have hturn : strtokLoop delim (fuel + 1) tok = strtokLoop delim fuel t' := by
          rw [strtokLoop, hrun, ok_bind]
          dsimp only
          rw [hbuf, List.nil_append, peek_cons, ok_bind, if_pos rfl]
        rw [hturn, if_pos rfl, List.nil_append]
        exact ih hrest (by omega)
      | cons ch a =>
        refine .inr ⟨ch :: a, rest', l.length, t', rfl, ?_, ?_, hrest⟩
        · rw [strtokLoop, hrun, ok_bind]
          dsimp only
          rw [hbuf, List.cons_append, peek_cons, ok_bind, if_neg (hchar ch List.mem_cons_self)]
        · rw [hbuf]
          exact stringIn_eq fun h => hchar 0 h rfl

/-- The calls with `NULL` yield the tokens that are left. -/
theorem tokenLoop_none {tok : Tok} {rest : List (List CChar)} (h : Rest delim pre s post tok rest) :
    ∃ t', tokenLoop delim (rest.length + 1) none tok = .ok (rest, t') ∧ Rest delim pre s post t' [] ∧
      t'.holder = none := by
  induction rest generalizing tok with
  | nil =>
    rcases strtokLoop_spec h tok.room_lt with
      ⟨-, t', hrun, hrest, hnull⟩ | ⟨_, _, _, _, hne, -⟩
    · refine ⟨t', ?_, hrest, hnull⟩
      rw [tokenLoop, strtok, hrun, ok_bind]
    · cases hne
  | cons a rest ih =>
    rcases strtokLoop_spec h tok.room_lt with
      ⟨hne, -⟩ | ⟨a', rest', p, t₁, heq, hrun, ha, hrest⟩
    · cases hne
    · cases heq
      obtain ⟨t', hloop, hdone, hnull⟩ := ih hrest
      refine ⟨t', ?_, hdone, hnull⟩
      rw [List.length_cons, tokenLoop, strtok, hrun, ok_bind]
      dsimp only
      rw [hloop, ok_bind, ha]

end Tokens

/-- **The tokens of a string.** The calls of `strtok` on a string, wherever it lies in memory, yield its runs of
characters that are no delimiters, each of them once and in their order, and then `NULL`. Only delimiters of the string
are overwritten, and nothing outside of it is read or changed. -/
theorem strtok_tokens (delim s : CString) (pre post : List CChar) (holder : Option Nat) :
    ∃ x, Cut delim s.chars x ∧
      tokenLoop delim ((tokensOf delim s.chars).length + 1) (some pre.length) ⟨pre ++ (s.chars ++ 0 :: post), holder⟩
        = .ok (tokensOf delim s.chars, ⟨pre ++ (x ++ 0 :: post), none⟩) := by
  have hstart : Rest delim pre s.chars post ⟨pre ++ (s.chars ++ 0 :: post), some pre.length⟩
      (tokensOf delim s.chars) := by
    have hmore := @Rest.more delim pre s.chars post [] [] s.chars rfl .nil s.nul
    rwa [List.append_nil] at hmore
  have hfirst : tokenLoop delim ((tokensOf delim s.chars).length + 1) (some pre.length)
        ⟨pre ++ (s.chars ++ 0 :: post), holder⟩
      = tokenLoop delim ((tokensOf delim s.chars).length + 1) none
        ⟨pre ++ (s.chars ++ 0 :: post), some pre.length⟩ := rfl
  obtain ⟨t', hrun, hrest, hnull⟩ := tokenLoop_none hstart
  rw [hfirst, hrun]
  generalize hnil : ([] : List (List CChar)) = rest at hrest
  cases hrest with
  | done hcut => exact ⟨_, hcut, rfl⟩
  | more hs hcut hnul => cases hnull

end MooseOS.User
