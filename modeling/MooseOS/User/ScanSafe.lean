import MooseOS.User.Vsscanf

/-!
# What `vsscanf` does not touch

`vsscanf` reads its input up to the `NUL`, and takes no more pointers than its format has `%`s. So whatever the format
is, a call with a string and enough pointers ends, and what lies behind the `NUL` and behind the pointers has no
influence on it.

* `strntoumax_reads` and the lemmas before it : the readers leave a pointer into the string, and look at no character
  behind it;
* `Scan.over` : the variables of `vsscanf` with more memory behind the string, and more pointers;
* `Sound` : a part of `vsscanf` does not see the difference;
* `scanStep_sound`, `scanLoop_sound` : a turn of the loop, and the loop;
* `vsscanf_ends` : the result.
-/

namespace MooseOS.User
open Prog

/-! ## Readers -/

section Readers
variable {q : List CChar}

theorem string_cons (hq : 0 ∈ q) : ∃ c p, q = c :: p ∧ (c ≠ 0 → 0 ∈ p) := by
  obtain ⟨c, p, rfl⟩ := List.exists_cons_of_ne_nil (List.ne_nil_of_mem hq)
  exact ⟨c, p, rfl, fun hc => (List.mem_cons.1 hq).resolve_left fun h => hc h.symm⟩

theorem skipspace_reads (hq : 0 ∈ q) : ∃ q', 0 ∈ q' ∧ ∀ rest, skipspace (q ++ rest) = .ok (q' ++ rest) := by
  induction q with
  | nil => cases hq
  | cons c q ih =>
    cases hc : isspace c with
    | false => exact ⟨c :: q, hq, fun rest => by rw [List.cons_append, skipspace, hc, if_neg Bool.false_ne_true]⟩
    | true =>
      have hq' : 0 ∈ q := (List.mem_cons.1 hq).resolve_left fun h => absurd hc (by rw [← h]; decide)
      obtain ⟨q', hnul, hrun⟩ := ih hq'
      exact ⟨q', hnul, fun rest => by rw [List.cons_append, skipspace, hc, if_pos rfl, hrun]⟩

theorem skipSpaces_reads (hq : 0 ∈ q) (n : Nat) :
    ∃ q' m, 0 ∈ q' ∧ ∀ rest, skipSpaces n (q ++ rest) = .ok (q' ++ rest, m) := by
  induction q generalizing n with
  | nil => cases hq
  | cons c q ih =>
    cases n with
    | zero => exact ⟨c :: q, 0, hq, fun rest => rfl⟩
    | succ n =>
      cases hc : isspace c with
      | false =>
        exact ⟨c :: q, n + 1, hq, fun rest => by rw [List.cons_append, skipSpaces, hc, if_neg Bool.false_ne_true]⟩
      | true =>
        have hq' : 0 ∈ q := (List.mem_cons.1 hq).resolve_left fun h => absurd hc (by rw [← h]; decide)
        obtain ⟨q', m, hnul, hrun⟩ := ih hq' n
        exact ⟨q', m, hnul, fun rest => by rw [List.cons_append, skipSpaces, hc, if_pos rfl, hrun]⟩

theorem readSign_reads (hq : 0 ∈ q) (n : Nat) :
    ∃ minus q' m, 0 ∈ q' ∧ ∀ rest, readSign (q ++ rest) n = .ok (minus, q' ++ rest, m) := by
  obtain ⟨c, p, rfl, hp⟩ := string_cons hq
  unfold readSign
  by_cases hn : n ≠ 0
  · by_cases hc : c = '-' ∨ c = '+'
    · refine ⟨decide (c = '-'), p, n - 1, hp fun h => ?_, fun rest => ?_⟩
      · rw [h] at hc
        exact absurd hc (by decide)
      · rw [if_pos hn, show peek (c :: p ++ rest) 0 = .ok c from rfl, ok_bind, if_pos hc]
        rfl
    · exact ⟨false, c :: p, n, hq, fun rest => by
        rw [if_pos hn, show peek (c :: p ++ rest) 0 = .ok c from rfl, ok_bind, if_neg hc]⟩
  · exact ⟨false, c :: p, n, hq, fun rest => by rw [if_neg hn]⟩

theorem hexPrefix_reads (hq : 0 ∈ q) (n : Nat) :
    ∃ b, (b = true → 0 ∈ q.drop 2 ∧ 2 ≤ q.length) ∧ ∀ rest, hexPrefix (q ++ rest) n = .ok b := by
  obtain ⟨c, p, rfl, hp⟩ := string_cons hq
  unfold hexPrefix
  by_cases hn : n ≥ 2
  · by_cases hc : c = '0'
    · obtain ⟨x, p, rfl, hp'⟩ := string_cons (hp (by rw [hc]; decide))
      refine ⟨decide (x = 'x' ∨ x = 'X'), fun h => ⟨hp' fun h0 => ?_, by simp⟩, fun rest => ?_⟩
      · rw [h0] at h
        exact absurd h (by decide)
      · rw [if_pos hn, show peek (c :: x :: p ++ rest) 0 = .ok c from rfl, ok_bind, if_pos hc,
          show peek (c :: x :: p ++ rest) 1 = .ok x from rfl, ok_bind]
    · exact ⟨false, nofun, fun rest => by
        rw [if_pos hn, show peek (c :: p ++ rest) 0 = .ok c from rfl, ok_bind, if_neg hc]⟩
  · exact ⟨false, nofun, fun rest => by rw [if_neg hn]⟩

theorem octalPrefix_reads (hq : 0 ∈ q) (n : Nat) :
    ∃ b, (b = true → 0 ∈ q.drop 1) ∧ ∀ rest, octalPrefix (q ++ rest) n = .ok b := by
  obtain ⟨c, p, rfl, hp⟩ := string_cons hq
  unfold octalPrefix
  by_cases hn : n ≥ 1
  · refine ⟨decide (c = '0'), fun h => hp fun h0 => ?_, fun rest => ?_⟩
    · rw [h0] at h
      exact absurd h (by decide)
    · rw [if_pos hn, show peek (c :: p ++ rest) 0 = .ok c from rfl, ok_bind]
  · exact ⟨false, nofun, fun rest => by rw [if_neg hn]⟩

theorem readBase_reads (hq : 0 ∈ q) (base n : Nat) :
    ∃ b q' m, 0 ∈ q' ∧ ∀ rest, readBase base (q ++ rest) n = .ok (b, q' ++ rest, m) := by
  obtain ⟨hex, hhex, hrun⟩ := hexPrefix_reads hq n
  obtain ⟨octal, hoctal, hrun'⟩ := octalPrefix_reads hq n
  have hlen : 1 ≤ q.length := List.length_pos_of_mem hq
  unfold readBase
  by_cases h0 : base = 0
  · cases hex with
    | true =>
      exact ⟨16, q.drop 2, n - 2, (hhex rfl).1, fun rest => by
        rw [if_pos h0, hrun, ok_bind, if_pos rfl, List.drop_append_of_le_length (hhex rfl).2]⟩
    | false =>
      cases octal with
      | true =>
        exact ⟨8, q.drop 1, n - 1, hoctal rfl, fun rest => by
          rw [if_pos h0, hrun, ok_bind, if_neg Bool.false_ne_true, hrun', ok_bind, if_pos rfl,
            List.drop_append_of_le_length hlen]⟩
      | false =>
        exact ⟨10, q, n, hq, fun rest => by
          rw [if_pos h0, hrun, ok_bind, if_neg Bool.false_ne_true, hrun', ok_bind, if_neg Bool.false_ne_true]⟩
  · by_cases h16 : base = 16
    · cases hex with
      | true =>
        exact ⟨16, q.drop 2, n - 2, (hhex rfl).1, fun rest => by
          rw [if_neg h0, if_pos h16, hrun, ok_bind, if_pos rfl, List.drop_append_of_le_length (hhex rfl).2]⟩
      | false =>
        exact ⟨16, q, n, hq, fun rest => by
          rw [if_neg h0, if_pos h16, hrun, ok_bind, if_neg Bool.false_ne_true]⟩
    · exact ⟨base, q, n, hq, fun rest => by rw [if_neg h0, if_neg h16]⟩

theorem digitsLoop_reads (hq : 0 ∈ q) (base n : Nat) (v : BitVec 64) :
    ∃ v' q', 0 ∈ q' ∧ ∀ rest, digitsLoop base n (q ++ rest) v = .ok (v', q' ++ rest) := by
  induction q generalizing n v with
  | nil => cases hq
  | cons c q ih =>
    cases n with
    | zero => exact ⟨v, c :: q, hq, fun rest => rfl⟩
    | succ n =>
      by_cases hd : digitval c ≥ 0 ∧ digitval c < base
      · have hq' : 0 ∈ q := (List.mem_cons.1 hq).resolve_left fun h => absurd hd.1 (by rw [← h]; decide)
        obtain ⟨v', q', hnul, hrun⟩ := ih hq' n (v * BitVec.ofNat 64 base + BitVec.ofInt 64 (digitval c))
        exact ⟨v', q', hnul, fun rest => by rw [List.cons_append, digitsLoop, if_pos hd, hrun]⟩
      · exact ⟨v, c :: q, hq, fun rest => by rw [List.cons_append, digitsLoop, if_neg hd]⟩

/-- `strntoumax` reads only the string. -/
theorem strntoumax_reads (hq : 0 ∈ q) (base n : Nat) :
    ∃ v q', 0 ∈ q' ∧ ∀ rest, strntoumax (q ++ rest) base n = .ok (v, q' ++ rest) := by
  obtain ⟨q₁, n₁, hq₁, hskip⟩ := skipSpaces_reads hq n
  obtain ⟨minus, q₂, n₂, hq₂, hsign⟩ := readSign_reads hq₁ n₁
  obtain ⟨b, q₃, n₃, hq₃, hbase⟩ := readBase_reads hq₂ base n₂
  obtain ⟨v, q₄, hq₄, hdigits⟩ := digitsLoop_reads hq₃ b n₃ 0
  refine ⟨if minus then -v else v, q₄, hq₄, fun rest => ?_⟩
  rw [strntoumax, hskip, ok_bind]
  dsimp only
  rw [hsign, ok_bind]
  dsimp only
  rw [hbase, ok_bind]
  dsimp only
  rw [hdigits, ok_bind]

end Readers

/-! ## The parts of `vsscanf` -/

/-- The same variables with more memory behind the string, and more pointers. -/
def Scan.over (t : Scan) (rest : List CChar) (more : List (BitVec 32)) : Scan :=
  { t with q := t.q ++ rest, ap := t.ap ++ more }

/-- The input has its `NUL`, and the bitmap its size. -/
structure Scan.Ready (t : Scan) : Prop where
  nul : 0 ∈ t.q
  map : t.matchmap.length = 8

/-- The pointer that a directive still may take. -/
def Scan.owes (t : Scan) : Nat :=
  match t.state with
  | .flags => 1
  | .width => 1
  | .modifiers => 1
  | _ => 0

/-- From `t` on, `f` ends. It reads nothing behind the string, takes at most `k` pointers, those that it still owes
counted, and does not see that there are more. -/
def Sound (k : Nat) (f : List CChar → Scan → Exec Scan) (t : Scan) : Prop :=
  ∃ t' : Scan, t'.Ready ∧ t'.owes + t.ap.length ≤ t'.ap.length + k ∧
    ∀ rest more, f rest (t.over rest more) = .ok (t'.over rest more)

section Parts
variable {t : Scan} {ch : CChar} {k : Nat}

theorem owes_le {t' : Scan} (howes : t.owes = 0) (hstate : t'.state = t.state) (hlen : t.ap.length ≤ t'.ap.length + k) :
    t'.owes + t.ap.length ≤ t'.ap.length + k := by
  have heq : t'.owes = t.owes := by rw [Scan.owes, Scan.owes, hstate]
  omega

theorem vaArg_over {ap : List (BitVec 32)} (h : 1 ≤ ap.length) :
    ∃ p ap', ap = p :: ap' ∧ ∀ more, vaArg (ap ++ more) = .ok (p, ap' ++ more) := by
  obtain ⟨p, ap', rfl⟩ := List.exists_cons_of_ne_nil (List.ne_nil_of_length_pos h)
  exact ⟨p, ap', rfl, fun more => rfl⟩

theorem matchChar_sound (ht : t.Ready) (hch : ch ≠ 0) (howes : t.owes = 0) : Sound k (fun _ t => matchChar t ch) t := by
  obtain ⟨c, p, hq, hp⟩ := string_cons ht.nul
  by_cases hc : c = ch
  · refine ⟨{ t with q := p }, ⟨hp (by rw [hc]; exact hch), ht.map⟩, owes_le howes rfl (Nat.le_add_right _ _),
      fun rest more => ?_⟩
    unfold matchChar Scan.over
    dsimp only
    rw [hq, show peek (c :: p ++ rest) 0 = .ok c from rfl, ok_bind, if_pos hc]
    rfl
  · refine ⟨{ t with bail := .err }, ⟨ht.nul, ht.map⟩, owes_le howes rfl (Nat.le_add_right _ _), fun rest more => ?_⟩
    unfold matchChar Scan.over
    dsimp only
    rw [hq, show peek (c :: p ++ rest) 0 = .ok c from rfl, ok_bind, if_neg hc]

theorem setInteger_sound (ht : t.Ready) (howes : t.owes = 0) (hap : 1 ≤ t.ap.length) (val : BitVec 64) :
    Sound 1 (fun _ t => setInteger t val) t := by
  cases hsplat : t.splat with
  | true =>
    refine ⟨t, ht, by omega, fun rest more => ?_⟩
    show setInteger _ val = _
    rw [setInteger, show (t.over rest more).splat = t.splat from rfl, hsplat, if_pos rfl]
  | false =>
    obtain ⟨p, ap, hcons, hva⟩ := vaArg_over hap
    refine ⟨{ t with ap := ap, stores := t.stores ++ [⟨p, rankSize t.rank, val.toNat % 2 ^ (8 * rankSize t.rank)⟩] },
      ⟨ht.nul, ht.map⟩, owes_le howes rfl (by rw [hcons]; rfl), fun rest more => ?_⟩
    show setInteger _ val = _
    rw [setInteger, show (t.over rest more).splat = t.splat from rfl, hsplat, if_neg Bool.false_ne_true,
      show (t.over rest more).ap = t.ap ++ more from rfl, hva, ok_bind]
    rfl

theorem scanInt_sound (ht : t.Ready) (howes : t.owes = 0) (hap : 1 ≤ t.ap.length) (base : Nat) :
    Sound 1 (fun _ t => scanInt t base) t := by
  obtain ⟨q, hq, hskip⟩ := skipspace_reads ht.nul
  obtain ⟨c, p, rfl, -⟩ := string_cons hq
  by_cases hc : c = 0
  · refine ⟨{ t with q := c :: p, bail := .eof }, ⟨hq, ht.map⟩, owes_le howes rfl (Nat.le_add_right _ _),
      fun rest more => ?_⟩
    show scanInt _ base = _
    rw [scanInt, show (t.over rest more).q = t.q ++ rest from rfl, hskip, ok_bind,
      show peek (c :: p ++ rest) 0 = .ok c from rfl, ok_bind, if_pos hc]
    rfl
  · obtain ⟨val, qq, hqq, hread⟩ := strntoumax_reads hq base t.width
    by_cases hmoved : qq = c :: p
    · refine ⟨{ t with q := c :: p, bail := .err }, ⟨hq, ht.map⟩, owes_le howes rfl (Nat.le_add_right _ _),
        fun rest more => ?_⟩
      show scanInt _ base = _
      rw [scanInt, show (t.over rest more).q = t.q ++ rest from rfl, hskip, ok_bind,
        show peek (c :: p ++ rest) 0 = .ok c from rfl, ok_bind, if_neg hc,
        show (t.over rest more).width = t.width from rfl, hread, ok_bind]
      dsimp only
      rw [if_pos (by rw [hmoved])]
      rfl
    · obtain ⟨t', ht', hle, hset⟩ := setInteger_sound
        (t := { t with q := qq, converted := if t.splat then t.converted else t.converted + 1 })
        ⟨hqq, ht.map⟩ howes hap val
      refine ⟨t', ht', hle, fun rest more => ?_⟩
      show scanInt _ base = _
      rw [scanInt, show (t.over rest more).q = t.q ++ rest from rfl, hskip, ok_bind,
        show peek (c :: p ++ rest) 0 = .ok c from rfl, ok_bind, if_neg hc,
        show (t.over rest more).width = t.width from rfl, hread, ok_bind]
      dsimp only
      rw [if_neg fun h => hmoved (List.append_cancel_right h)]
      exact hset rest more

/-! ### Characters and strings -/

theorem charLoop_reads (w : Nat) {q : List CChar} (hq : 0 ∈ q) (sp : BitVec 32) (st : List Store) :
    ∃ bail q' sp' st', 0 ∈ q' ∧ ∀ rest, charLoop w ⟨q ++ rest, sp, st⟩ = .ok (bail, ⟨q' ++ rest, sp', st'⟩) := by
  induction w generalizing q sp st with
  | zero => exact ⟨.none, q, sp, st, hq, fun rest => rfl⟩
  | succ w ih =>
    obtain ⟨c, p, rfl, hp⟩ := string_cons hq
    by_cases hc : c = 0
    · exact ⟨.eof, c :: p, sp, st, hq, fun rest => by
        rw [charLoop, show peek (c :: p ++ rest) 0 = .ok c from rfl, ok_bind, if_pos hc]⟩
    · obtain ⟨bail, q', sp', st', hq', hrun⟩ := ih (hp hc) (sp + 1) (st ++ [⟨sp, 1, c.toNat⟩])
      refine ⟨bail, q', sp', st', hq', fun rest => ?_⟩
      rw [charLoop, show peek (c :: p ++ rest) 0 = .ok c from rfl, ok_bind, if_neg hc, ← hrun]
      rfl

theorem charSplatLoop_reads (w : Nat) {q : List CChar} (hq : 0 ∈ q) :
    ∃ bail, ∀ rest, charSplatLoop w (q ++ rest) = .ok bail := by
  induction w with
  | zero => exact ⟨.none, fun rest => rfl⟩
  | succ w ih =>
    obtain ⟨bail, hrun⟩ := ih
    obtain ⟨c, p, rfl, -⟩ := string_cons hq
    by_cases hc : c = 0
    · exact ⟨.eof, fun rest => by
        rw [charSplatLoop, show peek (c :: p ++ rest) 0 = .ok c from rfl, ok_bind, if_pos hc]⟩
    · exact ⟨bail, fun rest => by
        rw [charSplatLoop, show peek (c :: p ++ rest) 0 = .ok c from rfl, ok_bind, if_neg hc, hrun]⟩

theorem stringLoop_reads (arg : Bool) (w : Nat) (uc : CChar) {q : List CChar} (hq : 0 ∈ q)
    (sp : BitVec 32) (st : List Store) :
    ∃ uc' q' sp' st', 0 ∈ q' ∧
      ∀ rest, stringLoop arg w uc ⟨q ++ rest, sp, st⟩ = .ok (uc', ⟨q' ++ rest, sp', st'⟩) := by
  induction w generalizing q uc sp st with
  | zero => exact ⟨uc, q, sp, st, hq, fun rest => rfl⟩
  | succ w ih =>
    obtain ⟨c, p, rfl, hp⟩ := string_cons hq
    by_cases hc : c ≠ 0 ∧ isspace c = false
    · obtain ⟨sp₁, st₁, hnext⟩ : ∃ sp₁ st₁, ∀ rest,
          Copy.next arg c ⟨c :: p ++ rest, sp, st⟩ = ⟨p ++ rest, sp₁, st₁⟩ := by
        cases arg with
        | true => exact ⟨sp + 1, st ++ [⟨sp, 1, c.toNat⟩], fun rest => rfl⟩
        | false => exact ⟨sp, st, fun rest => rfl⟩
      obtain ⟨uc', q', sp', st', hq', hrun⟩ := ih c (hp hc.1) sp₁ st₁
      exact ⟨uc', q', sp', st', hq', fun rest => by
        rw [stringLoop, show peek (c :: p ++ rest) 0 = .ok c from rfl, ok_bind, if_pos hc, hnext, hrun]⟩
    · exact ⟨c, c :: p, sp, st, hq, fun rest => by
        rw [stringLoop, show peek (c :: p ++ rest) 0 = .ok c from rfl, ok_bind, if_neg hc]⟩

theorem scanChar_sound (ht : t.Ready) (howes : t.owes = 0) (hap : 1 ≤ t.ap.length) :
    Sound 1 (fun _ t => scanChar t) t := by
  cases hsplat : t.splat with
  | true =>
    obtain ⟨bail, hrun⟩ := charSplatLoop_reads (if t.hasWidth then t.width else 1) ht.nul
    refine ⟨{ t with bail := bail }, ⟨ht.nul, ht.map⟩, owes_le howes rfl (Nat.le_add_right _ _), fun rest more => ?_⟩
    unfold scanChar Scan.over
    dsimp only
    rw [hsplat, if_pos rfl, hrun, ok_bind]
  | false =>
    obtain ⟨p, ap, hcons, hva⟩ := vaArg_over hap
    obtain ⟨bail, q, sp, st, hq, hrun⟩ := charLoop_reads (if t.hasWidth then t.width else 1) ht.nul p t.stores
    refine ⟨{ t with
      q := q, sarg := sp, ap := ap, stores := st, bail := bail,
      converted := if bail = .none then t.converted + 1 else t.converted },
      ⟨hq, ht.map⟩, owes_le howes rfl (by rw [hcons]; rfl),
      fun rest more => ?_⟩
    unfold scanChar Scan.over
    dsimp only
    rw [hsplat, if_neg Bool.false_ne_true, hva, ok_bind]
    dsimp only
    rw [hrun, ok_bind]

theorem scanString_sound (ht : t.Ready) (howes : t.owes = 0) (hap : 1 ≤ t.ap.length) :
    Sound 1 (fun _ t => scanString t) t := by
  cases hsplat : t.splat with
  | true =>
    obtain ⟨uc, q, sp, st, hq, hrun⟩ := stringLoop_reads false t.width 1 ht.nul t.sarg t.stores
    refine ⟨{ t with q := q, bail := if uc = 0 then .eof else t.bail },
      ⟨hq, ht.map⟩, owes_le howes rfl (Nat.le_add_right _ _),
      fun rest more => ?_⟩
    unfold scanString Scan.over
    dsimp only
    rw [hsplat, if_pos rfl, hrun, ok_bind]
  | false =>
    obtain ⟨p, ap, hcons, hva⟩ := vaArg_over hap
    obtain ⟨uc, q, sp, st, hq, hrun⟩ := stringLoop_reads true t.width 1 ht.nul p t.stores
    have hlen : t.ap.length ≤ ap.length + 1 := by rw [hcons]; rfl
    by_cases hmoved : p = sp
    · refine ⟨{ t with q := q, sarg := p, ap := ap, bail := if uc = 0 then .eof else t.bail, stores := st },
        ⟨hq, ht.map⟩,
        owes_le howes rfl hlen, fun rest more => ?_⟩
      unfold scanString Scan.over
      dsimp only
      rw [hsplat, if_neg Bool.false_ne_true, hva, ok_bind]
      dsimp only
      rw [hrun, ok_bind]
      dsimp only
      rw [if_neg (not_not.2 hmoved)]
    · refine ⟨{ t with
          q := q, sarg := p, ap := ap, bail := if uc = 0 then .eof else t.bail, stores := st ++ [⟨sp, 1, 0⟩],
          converted := t.converted + 1 }, ⟨hq, ht.map⟩, owes_le howes rfl hlen, fun rest more => ?_⟩
      unfold scanString Scan.over
      dsimp only
      rw [hsplat, if_neg Bool.false_ne_true, hva, ok_bind]
      dsimp only
      rw [hrun, ok_bind]
      dsimp only
      rw [if_pos hmoved]

/-! ### Sets -/

theorem peek_lt {α : Type} {buf : List α} {i : Nat} (h : i < buf.length) : ∃ x, peek buf i = .ok x :=
  ⟨buf.get ⟨i, h⟩, by rw [peek, List.getElem?_eq_getElem h]; rfl⟩

theorem setBit_ok {m : List (BitVec 32)} {bit : Nat} (hm : m.length = 8) (hbit : bit < 256) :
    ∃ m', m'.length = 8 ∧ User.setBit m bit = .ok m' := by
  have hlt : bit / 32 < m.length := by omega
  obtain ⟨w, hw⟩ := peek_lt hlt
  refine ⟨m.set (bit / 32) (w ||| 1#32 <<< (bit % 32)), by rw [List.length_set, hm], ?_⟩
  rw [User.setBit, hw, ok_bind, poke, if_pos hlt]

theorem scanSetBit_ok {m : List (BitVec 32)} {bit : Nat} (hm : m.length = 8) (hbit : bit < 256) :
    ∃ m', m'.length = 8 ∧ ∀ t : Scan, t.matchmap = m → t.setBit bit = .ok { t with matchmap := m' } := by
  obtain ⟨m', hm', hset⟩ := setBit_ok hm hbit
  exact ⟨m', hm', fun t ht => by rw [Scan.setBit, ht, hset, ok_bind]⟩

theorem rangeLoop_ok {n i : Nat} {m : List (BitVec 32)} (hm : m.length = 8) (hi : i + n ≤ 256) :
    ∃ m', m'.length = 8 ∧ ∀ t : Scan, t.matchmap = m → rangeLoop n i t = .ok { t with matchmap := m' } := by
  induction n generalizing i m with
  | zero => exact ⟨m, hm, fun t ht => by rw [rangeLoop, ← ht]⟩
  | succ n ih =>
    obtain ⟨m₁, hm₁, hset⟩ := scanSetBit_ok hm (show i < 256 by omega)
    obtain ⟨m', hm', hloop⟩ := @ih (i + 1) m₁ hm₁ (by omega)
    exact ⟨m', hm', fun t ht => by rw [rangeLoop, hset t ht, ok_bind, hloop _ rfl]⟩

theorem matchLoop_reads {m : List (BitVec 32)} (hm : m.length = 8) (inv arg : Bool) {q : List CChar} (hq : 0 ∈ q)
    (sp : BitVec 32) (st : List Store) :
    ∃ uc q' sp' st', 0 ∈ q' ∧
      ∀ rest, matchLoop m inv arg (q ++ rest) ⟨q ++ rest, sp, st⟩ = .ok (uc, ⟨q' ++ rest, sp', st'⟩) := by
  induction q generalizing sp st with
  | nil => cases hq
  | cons c q ih =>
    by_cases hc : c = 0
    · exact ⟨c, c :: q, sp, st, hq, fun rest => by rw [List.cons_append, matchLoop, if_pos hc]⟩
    · have hq' : 0 ∈ q := (List.mem_cons.1 hq).resolve_left fun h => hc h.symm
      have hbit : c.toNat / 32 < m.length := by
        have := c.toNat_lt
        omega
      obtain ⟨w, hw⟩ := peek_lt hbit
      have htest : testBit m c.toNat = .ok (decide (w >>> (c.toNat % 32) &&& 1#32 = 1#32)) := by
        rw [testBit, hw, ok_bind]
      cases hhit : decide (w >>> (c.toNat % 32) &&& 1#32 = 1#32) ^^ inv with
      | false =>
        exact ⟨c, c :: q, sp, st, hq, fun rest => by
          rw [List.cons_append, matchLoop, if_neg hc, htest, ok_bind, hhit, if_neg Bool.false_ne_true]⟩
      | true =>
        obtain ⟨sp₁, st₁, hnext⟩ : ∃ sp₁ st₁, ∀ rest,
            Copy.next arg c ⟨c :: (q ++ rest), sp, st⟩ = ⟨q ++ rest, sp₁, st₁⟩ := by
          cases arg with
          | true => exact ⟨sp + 1, st ++ [⟨sp, 1, c.toNat⟩], fun rest => rfl⟩
          | false => exact ⟨sp, st, fun rest => rfl⟩
        obtain ⟨uc, q', sp', st', hnul, hrun⟩ := ih hq' sp₁ st₁
        exact ⟨uc, q', sp', st', hnul, fun rest => by
          rw [List.cons_append, matchLoop, if_neg hc, htest, ok_bind, hhit, if_pos rfl, hnext, hrun]⟩

theorem matchRun_sound (ht : t.Ready) (howes : t.owes = 0) : Sound k (fun _ t => matchRun t) t := by
  obtain ⟨uc, q, sp, st, hq, hrun⟩ : ∃ uc q sp st, 0 ∈ q ∧
      ∀ rest more, matchChars (t.over rest more) = .ok (uc, ⟨q ++ rest, sp, st⟩) := by
    by_cases hw : t.width = 0
    · exact ⟨1, t.q, t.sarg, t.stores, ht.nul, fun rest more => if_pos hw⟩
    · obtain ⟨uc, q, sp, st, hq, hrun⟩ := matchLoop_reads ht.map t.matchinv (decide (t.sarg ≠ 0)) ht.nul t.sarg t.stores
      exact ⟨uc, q, sp, st, hq, fun rest more => (if_neg hw).trans (hrun rest)⟩
  by_cases hcond : q ≠ t.q ∧ sp ≠ 0
  · refine ⟨{ t with
        q := q, sarg := sp, stores := st ++ [⟨sp, 1, 0⟩], converted := t.converted + 1,
        bail := if uc = 0 then .eof else t.bail }, ⟨hq, ht.map⟩, owes_le howes rfl (Nat.le_add_right _ _),
      fun rest more => ?_⟩
    have hmatched : (t.over rest more).matched ⟨q ++ rest, sp, st⟩ = { t.over rest more with
        q := q ++ rest, sarg := sp, stores := st ++ [⟨sp, 1, 0⟩], converted := t.converted + 1 } :=
      if_pos ⟨fun h => hcond.1 (List.append_cancel_right h), hcond.2⟩
    show matchRun _ = _
    rw [matchRun, hrun, ok_bind]
    dsimp only
    rw [hmatched]
    by_cases huc : uc = 0
    · simp only [if_pos huc]
      rfl
    · simp only [if_neg huc]
      rfl
  · refine ⟨{ t with q := q, sarg := sp, stores := st, bail := if uc = 0 then .eof else .err }, ⟨hq, ht.map⟩,
      owes_le howes rfl (Nat.le_add_right _ _), fun rest more => ?_⟩
    have hmatched : (t.over rest more).matched ⟨q ++ rest, sp, st⟩ = { t.over rest more with
        q := q ++ rest, sarg := sp, stores := st, bail := .err } :=
      if_neg fun h => hcond ⟨fun heq => h.1 (by rw [heq]; rfl), h.2⟩
    show matchRun _ = _
    rw [matchRun, hrun, ok_bind]
    dsimp only
    rw [hmatched]
    by_cases huc : uc = 0
    · simp only [if_pos huc]
      rfl
    · simp only [if_neg huc]
      rfl

theorem scanMatchInit_sound (ht : t.Ready) (hstate : t.state = .matchInit) :
    Sound k (fun _ t => scanMatchInit t ch) t := by
  have howes : t.owes = 0 := by rw [Scan.owes, hstate]
  by_cases hch : ch = '^'
  · exact ⟨{ t with matchinv := true }, ⟨ht.nul, ht.map⟩, owes_le howes rfl (Nat.le_add_right _ _),
      fun rest more => if_pos hch⟩
  · obtain ⟨m, hm, hset⟩ := scanSetBit_ok ht.map ch.toNat_lt
    refine ⟨{ t with matchmap := m, state := .matchMain }, ⟨ht.nul, hm⟩, ?_, fun rest more => ?_⟩
    · show 0 + t.ap.length ≤ t.ap.length + k
      omega
    · show scanMatchInit _ ch = _
      rw [scanMatchInit, if_neg hch, hset (t.over rest more) rfl]
      rfl

theorem scanMatch_sound (ht : t.Ready) (hstate : t.state = .matchMain) : Sound k (fun _ t => scanMatch t ch) t := by
  have howes : t.owes = 0 := by rw [Scan.owes, hstate]
  by_cases hend : ch = ']'
  · obtain ⟨t', ht', hle, hrun⟩ := matchRun_sound (k := k) ht howes
    exact ⟨t', ht', hle, fun rest more => (if_pos hend).trans (hrun rest more)⟩
  by_cases hrange : ch = '-'
  · refine ⟨{ t with rangeStart := ch, state := .matchRange }, ⟨ht.nul, ht.map⟩, ?_, fun rest more => ?_⟩
    · show 0 + t.ap.length ≤ t.ap.length + k
      omega
    · exact (if_neg hend).trans (if_pos hrange)
  · obtain ⟨m, hm, hset⟩ := scanSetBit_ok ht.map ch.toNat_lt
    refine ⟨{ t with matchmap := m }, ⟨ht.nul, hm⟩, owes_le howes rfl (Nat.le_add_right _ _), fun rest more => ?_⟩
    show scanMatch _ ch = _
    rw [scanMatch, if_neg hend, if_neg hrange, hset (t.over rest more) rfl]
    rfl

theorem scanMatchRange_sound (ht : t.Ready) (hstate : t.state = .matchRange) :
    Sound k (fun _ t => scanMatchRange t ch) t := by
  have howes : t.owes = 0 := by rw [Scan.owes, hstate]
  by_cases hend : ch = ']'
  · obtain ⟨m, hm, hset⟩ := scanSetBit_ok ht.map ('-' : CChar).toNat_lt
    obtain ⟨t', ht', hle, hrun⟩ := matchRun_sound (k := k) (t := { t with matchmap := m }) ⟨ht.nul, hm⟩ howes
    refine ⟨t', ht', hle, fun rest more => ?_⟩
    show scanMatchRange _ ch = _
    rw [scanMatchRange, if_pos hend, hset (t.over rest more) rfl]
    exact hrun rest more
  · have hbits : t.rangeStart.toNat + (ch.toNat - t.rangeStart.toNat) ≤ 256 := by
      have h1 := ch.toNat_lt
      have h2 := t.rangeStart.toNat_lt
      omega
    obtain ⟨m, hm, hset⟩ := rangeLoop_ok ht.map hbits
    refine ⟨{ t with matchmap := m, state := .matchMain }, ⟨ht.nul, hm⟩, ?_, fun rest more => ?_⟩
    · show 0 + t.ap.length ≤ t.ap.length + k
      omega
    · show scanMatchRange _ ch = _
      rw [scanMatchRange, if_neg hend, show (t.over rest more).rangeStart = t.rangeStart from rfl,
        hset (t.over rest more) rfl]
      rfl

/-! ### The states -/

theorem Sound.mono {j : Nat} {f : List CChar → Scan → Exec Scan} (h : Sound j f t) (hjk : j ≤ k) : Sound k f t := by
  obtain ⟨t', ht', hle, hrun⟩ := h
  exact ⟨t', ht', by omega, hrun⟩

theorem Sound.ite {P : Prop} [Decidable P] {f g : List CChar → Scan → Exec Scan} (hf : P → Sound k f t)
    (hg : ¬ P → Sound k g t) : Sound k (fun rest t => if P then f rest t else g rest t) t := by
  by_cases h : P
  · simpa only [if_pos h] using hf h
  · simpa only [if_neg h] using hg h

theorem owes_le_one (t : Scan) : t.owes ≤ 1 := by
  unfold Scan.owes
  split <;> decide

theorem scanSet_sound (ht : t.Ready) (hap : 1 ≤ t.ap.length) : Sound 1 (fun _ t => scanSet t) t := by
  cases hsplat : t.splat with
  | true =>
    refine ⟨{ t with sarg := 0, state := .matchInit, matchinv := false, matchmap := List.replicate 8 0 },
      ⟨ht.nul, rfl⟩, ?_, fun rest more => ?_⟩
    · show 0 + t.ap.length ≤ t.ap.length + 1
      omega
    · unfold scanSet Scan.over
      dsimp only
      rw [hsplat]
      rfl
  | false =>
    obtain ⟨p, ap, hcons, hva⟩ := vaArg_over hap
    refine ⟨{ t with
        sarg := p, ap := ap, state := .matchInit, matchinv := false, matchmap := List.replicate 8 0 },
      ⟨ht.nul, rfl⟩, ?_, fun rest more => ?_⟩
    · show 0 + t.ap.length ≤ ap.length + 1
      rw [hcons, Nat.zero_add]
      rfl
    · unfold scanSet Scan.over
      dsimp only
      rw [hsplat, if_neg Bool.false_ne_true, hva]
      rfl

theorem scanConversion_sound (ht : t.Ready) (howes : t.owes = 0) (hap : 1 ≤ t.ap.length) (buffer : List CChar) :
    Sound 1 (fun rest t => scanConversion (buffer ++ rest) t ch) t := by
  have hcount : Sound 1 (fun rest t => setInteger t (BitVec.ofNat 64 ((buffer ++ rest).length - t.q.length))) t := by
    obtain ⟨t', ht', hle, hrun⟩ := setInteger_sound ht howes hap (BitVec.ofNat 64 (buffer.length - t.q.length))
    refine ⟨t', ht', hle, fun rest more => ?_⟩
    have hlen : (buffer ++ rest).length - (t.over rest more).q.length = buffer.length - t.q.length := by
      rw [show (t.over rest more).q = t.q ++ rest from rfl, List.length_append, List.length_append]
      omega
    dsimp only
    rw [hlen]
    exact hrun rest more
  unfold scanConversion
  refine .ite (fun _ => ?_) fun _ => ?_
  · exact scanInt_sound (t := { t with rank := rankPtr }) ⟨ht.nul, ht.map⟩ howes hap 0
  refine .ite (fun _ => scanInt_sound ht howes hap 0) fun _ => ?_
  refine .ite (fun _ => scanInt_sound ht howes hap 10) fun _ => ?_
  refine .ite (fun _ => scanInt_sound ht howes hap 8) fun _ => ?_
  refine .ite (fun _ => scanInt_sound ht howes hap 10) fun _ => ?_
  refine .ite (fun _ => scanInt_sound ht howes hap 16) fun _ => ?_
  refine .ite (fun _ => hcount) fun _ => ?_
  refine .ite (fun _ => scanChar_sound ht howes hap) fun _ => ?_
  refine .ite (fun _ => scanString_sound ht howes hap) fun _ => ?_
  refine .ite (fun _ => scanSet_sound ht hap) fun _ => ?_
  refine .ite (fun _ => matchChar_sound ht (by decide) howes) fun _ => ?_
  exact ⟨{ t with bail := .err }, ⟨ht.nul, ht.map⟩, owes_le howes rfl (Nat.le_add_right _ _), fun rest more => rfl⟩

theorem scanModifiers_sound (ht : t.Ready) (hap : 1 ≤ t.ap.length) (buffer : List CChar) :
    Sound 1 (fun rest t => scanModifiers (buffer ++ rest) t ch) t := by
  have hskip : ∀ rank : Int, Sound 1 (fun _ t => .ok { t with rank := rank }) t := fun rank =>
    ⟨{ t with rank := rank }, ⟨ht.nul, ht.map⟩, by have := owes_le_one { t with rank := rank }; dsimp only; omega,
      fun rest more => rfl⟩
  unfold scanModifiers
  refine .ite (fun _ => hskip (t.rank - 1)) fun _ => ?_
  refine .ite (fun _ => hskip (t.rank + 1)) fun _ => ?_
  refine .ite (fun _ => hskip rankLonglong) fun _ => ?_
  refine .ite (fun _ => hskip rankLong) fun _ => ?_
  refine .ite (fun _ => hskip rankLong) fun _ => ?_
  refine .ite (fun _ => hskip rankLonglong) fun _ => ?_
  exact scanConversion_sound (t := { t with state := .normal, rank := canonicalRank t.rank })
    ⟨ht.nul, ht.map⟩ rfl hap buffer

theorem scanWidth_sound (ht : t.Ready) (hap : 1 ≤ t.ap.length) (buffer : List CChar) :
    Sound 1 (fun rest t => scanWidth (buffer ++ rest) t ch) t := by
  unfold scanWidth
  split_ifs
  · refine ⟨{ t with width := (t.width * 10 + decimalValue ch) % 2 ^ 32 }, ⟨ht.nul, ht.map⟩, ?_, fun rest more => rfl⟩
    have := owes_le_one { t with width := (t.width * 10 + decimalValue ch) % 2 ^ 32 }
    dsimp only
    omega
  · exact scanModifiers_sound (t := { t with state := .modifiers }) ⟨ht.nul, ht.map⟩ hap buffer

theorem scanFlags_sound (ht : t.Ready) (hap : 1 ≤ t.ap.length) (buffer : List CChar) :
    Sound 1 (fun rest t => scanFlags (buffer ++ rest) t ch) t := by
  unfold scanFlags
  split_ifs
  · refine ⟨{ t with splat := true }, ⟨ht.nul, ht.map⟩, ?_, fun rest more => rfl⟩
    have := owes_le_one { t with splat := true }
    dsimp only
    omega
  · refine ⟨{ t with width := decimalValue ch, state := .width, hasWidth := true }, ⟨ht.nul, ht.map⟩, ?_,
      fun rest more => rfl⟩
    show 1 + t.ap.length ≤ t.ap.length + 1
    omega
  · exact scanModifiers_sound (t := { t with state := .modifiers }) ⟨ht.nul, ht.map⟩ hap buffer

theorem scanNormal_sound (ht : t.Ready) (hstate : t.state = .normal) (hch : ch ≠ 0) :
    Sound (if ch = '%' then 1 else 0) (fun _ t => scanNormal t ch) t := by
  have howes : t.owes = 0 := by rw [Scan.owes, hstate]
  unfold scanNormal
  split_ifs with hpercent hspace
  · refine ⟨{ t with state := .flags, splat := false, hasWidth := false, rank := rankInt, width := uintMax },
      ⟨ht.nul, ht.map⟩, ?_, fun rest more => rfl⟩
    show 1 + t.ap.length ≤ t.ap.length + 1
    omega
  · obtain ⟨q, hq, hskip⟩ := skipspace_reads ht.nul
    refine ⟨{ t with q := q }, ⟨hq, ht.map⟩, owes_le howes rfl (Nat.le_add_right _ _), fun rest more => ?_⟩
    show (skipspace (t.q ++ rest) >>= _) = _
    rw [hskip]
    rfl
  · exact matchChar_sound ht hch howes

/-- **A turn of the loop.** -/
theorem scanStep_sound (ht : t.Ready) (hch : ch ≠ 0) (hap : t.owes ≤ t.ap.length) (buffer : List CChar) :
    Sound (t.owes + if ch = '%' then 1 else 0) (fun rest t => scanStep (buffer ++ rest) t ch) t := by
  have hpart : ∀ {j : Nat} {f : List CChar → Scan → Exec Scan}, Sound j f t → j ≤ t.owes + (if ch = '%' then 1 else 0) →
      (∀ rest more, scanStep (buffer ++ rest) (t.over rest more) ch = f rest (t.over rest more)) →
      Sound (t.owes + if ch = '%' then 1 else 0) (fun rest t => scanStep (buffer ++ rest) t ch) t := by
    intro j f hsound hle hf
    obtain ⟨t', ht', hle', hrun⟩ := hsound.mono hle
    exact ⟨t', ht', hle', fun rest more => (hf rest more).trans (hrun rest more)⟩
  cases hstate : t.state with
  | normal =>
    refine hpart (scanNormal_sound ht hstate hch) (Nat.le_add_left _ _) fun rest more => ?_
    rw [scanStep, show (t.over rest more).state = t.state from rfl, hstate]
  | flags =>
    have howes : t.owes = 1 := by rw [Scan.owes, hstate]
    have hsound : Sound 1 (fun rest t => scanFlags (buffer ++ rest) t ch) t := scanFlags_sound ht (by omega) buffer
    refine hpart hsound (by omega) fun rest more => ?_
    rw [scanStep, show (t.over rest more).state = t.state from rfl, hstate]
  | width =>
    have howes : t.owes = 1 := by rw [Scan.owes, hstate]
    have hsound : Sound 1 (fun rest t => scanWidth (buffer ++ rest) t ch) t := scanWidth_sound ht (by omega) buffer
    refine hpart hsound (by omega) fun rest more => ?_
    rw [scanStep, show (t.over rest more).state = t.state from rfl, hstate]
  | modifiers =>
    have howes : t.owes = 1 := by rw [Scan.owes, hstate]
    have hsound : Sound 1 (fun rest t => scanModifiers (buffer ++ rest) t ch) t :=
      scanModifiers_sound ht (by omega) buffer
    refine hpart hsound (by omega) fun rest more => ?_
    rw [scanStep, show (t.over rest more).state = t.state from rfl, hstate]
  | matchInit =>
    have hsound : Sound 0 (fun _ t => scanMatchInit t ch) t := scanMatchInit_sound ht hstate
    refine hpart hsound (Nat.zero_le _) fun rest more => ?_
    rw [scanStep, show (t.over rest more).state = t.state from rfl, hstate]
  | matchMain =>
    have hsound : Sound 0 (fun _ t => scanMatch t ch) t := scanMatch_sound ht hstate
    refine hpart hsound (Nat.zero_le _) fun rest more => ?_
    rw [scanStep, show (t.over rest more).state = t.state from rfl, hstate]
  | matchRange =>
    have hsound : Sound 0 (fun _ t => scanMatchRange t ch) t := scanMatchRange_sound ht hstate
    refine hpart hsound (Nat.zero_le _) fun rest more => ?_
    rw [scanStep, show (t.over rest more).state = t.state from rfl, hstate]

end Parts

/-- **The loop.** -/
theorem scanLoop_sound {t : Scan} {p : List CChar} (ht : t.Ready) (hp : 0 ∉ p)
    (hap : t.owes + p.count ('%' : CChar) ≤ t.ap.length)
    (buffer : List CChar) :
    ∃ t' : Scan, ∀ rest more, scanLoop (buffer ++ rest) p (t.over rest more) = .ok (t'.over rest more) := by
  induction p generalizing t with
  | nil => exact ⟨t, fun rest more => rfl⟩
  | cons ch p ih =>
    rw [List.mem_cons, not_or] at hp
    rw [List.count_cons] at hap
    by_cases hb : t.bail = .none
    · obtain ⟨t₁, ht₁, hle, hrun⟩ := scanStep_sound ht (fun h => hp.1 h.symm) (by omega) buffer
      obtain ⟨t', hrun'⟩ := ih ht₁ hp.2 (by
        simp only [beq_iff_eq] at hap
        omega)
      refine ⟨t', fun rest more => ?_⟩
      have hb' : ¬ (t.over rest more).bail ≠ .none := not_not.2 hb
      have hturn : scanStep (buffer ++ rest) (t.over rest more) ch = .ok (t₁.over rest more) := hrun rest more
      rw [scanLoop, if_neg hb', hturn, ok_bind, hrun']
    · exact ⟨t, fun rest more => if_pos hb⟩

/-- **A call of `vsscanf` ends**, whatever its input and its format are, if there is a pointer for each `%`. Nothing
behind the `NUL` is read, and no pointer more is taken. -/
theorem vsscanf_ends (s format : CString) (ap : List (BitVec 32)) (hap : format.chars.count ('%' : CChar) ≤ ap.length) :
    ∃ r, ∀ rest more, vsscanf (s.chars ++ 0 :: rest) format (ap ++ more) = .ok r := by
  obtain ⟨t, hrun⟩ := scanLoop_sound (t := .start (s.chars ++ [0]) ap) (p := format.chars)
    ⟨by simp [Scan.start], rfl⟩ format.nul (by
      rw [show (Scan.start (s.chars ++ [0]) ap).owes = 0 from rfl, Nat.zero_add]
      exact hap) (s.chars ++ [0])
  refine ⟨⟨if t.bail = .eof ∧ t.converted = 0 then -1 else t.converted, t.stores⟩, fun rest more => ?_⟩
  have hbuffer : s.chars ++ 0 :: rest = s.chars ++ [0] ++ rest := by simp
  have hstart : Scan.start (s.chars ++ [0] ++ rest) (ap ++ more) =
      (Scan.start (s.chars ++ [0]) ap).over rest more := rfl
  rw [vsscanf, hbuffer, hstart, hrun]
  rfl

theorem vsscanf_ends_number : ∃ r, ∀ rest more,
    vsscanf ('4' :: '2' :: 0 :: rest) ⟨['%', 'd', '%', '['], by decide⟩ (100 :: 200 :: more) = .ok r :=
  vsscanf_ends ⟨['4', '2'], by decide⟩ ⟨['%', 'd', '%', '['], by decide⟩ [100, 200] (by decide)

end MooseOS.User
