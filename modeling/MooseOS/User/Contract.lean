import MooseOS.User.Text

/-!
# The contract of `vsnprintf`

The format and the arguments alone say which actions there are, and these which text and which stores. The buffer and
its bound `n` only say how much of the text is kept.

* `actions` : the actions of a format;
* `textOf`, `storesFrom` : their text, and what `%n` stores;
* `formatLoop_ok`, `formatLoop_inv` : the loop puts out that text, and does not end otherwise;
* `vsnprintf_iff` : `vsnprintf` ends exactly when the kept part and the `NUL` fit, and with which buffer;
* `vsprintf_iff` : `vsprintf` ends exactly when all of the text fits.
-/

namespace MooseOS.User
open Prog

/-- One action more, unless there is nothing to put out. -/
def Action.cons : Action → List Action → List Action
  | .skip, as => as
  | a, as => a :: as

/-- The actions of a format, from the state `c` on. -/
def actions (strings : BitVec 32 → Option CString) : List CChar → Ctl → Exec (List Action)
  | [], _ => .ok []
  | ch :: p, c => do
    let (c, a) ← step strings c ch
    let as ← actions strings p c
    .ok (a.cons as)

def textOf (as : List Action) : List CChar := as.flatMap Action.text

/-- What the actions store, when `o` characters were put out before them. -/
def storesFrom : Nat → List Action → List Store
  | _, [] => []
  | o, a :: as => a.stores o ++ storesFrom (o + a.text.length) as

theorem textOf_cons (a : Action) (as : List Action) : textOf (a.cons as) = a.text ++ textOf as := by
  cases a <;> rfl

theorem storesFrom_cons (o : Nat) (a : Action) (as : List Action) :
    storesFrom o (a.cons as) = a.stores o ++ storesFrom (o + a.text.length) as := by
  cases a <;> rfl

section Step
variable {strings : BitVec 32 → Option CString} {c c' : Ctl} {ch : CChar} {a : Action}

theorem isUnsigned_good {base : Nat} (hbase : 1 < base ∧ base ≤ 16) (h : isUnsigned base c = .ok (c', a)) : a.Good := by
  obtain ⟨⟨val, ap⟩, -, h⟩ := bind_eq_ok.1 h
  cases h
  exact hbase

theorem conversion_good (h : conversion strings c ch = .ok (c', a)) : a.Good := by
  unfold conversion at h
  split_ifs at h
  · obtain ⟨⟨p, ap⟩, -, h⟩ := bind_eq_ok.1 h
    cases h
    exact ⟨by decide, by decide⟩
  · obtain ⟨⟨val, ap⟩, -, h⟩ := bind_eq_ok.1 h
    cases h
    exact ⟨by decide, by decide⟩
  · exact isUnsigned_good (by decide) h
  · exact isUnsigned_good (by decide) h
  · exact isUnsigned_good (by decide) h
  · obtain ⟨⟨w, ap⟩, -, h⟩ := bind_eq_ok.1 h
    cases h
    trivial
  · obtain ⟨⟨p, ap⟩, -, h⟩ := bind_eq_ok.1 h
    obtain ⟨sarg, -, h⟩ := bind_eq_ok.1 h
    cases h
    trivial
  · obtain ⟨⟨p, ap⟩, -, h⟩ := bind_eq_ok.1 h
    cases h
    trivial
  · cases h
    trivial

theorem stModifiers_good (h : stModifiers strings c ch = .ok (c', a)) : a.Good := by
  unfold stModifiers at h
  split_ifs at h
  iterate 6 (cases h; trivial)
  exact conversion_good h

theorem stWidth_good (h : stWidth strings c ch = .ok (c', a)) : a.Good := by
  unfold stWidth at h
  split_ifs at h
  · cases h
    trivial
  · obtain ⟨⟨w, ap⟩, -, h⟩ := bind_eq_ok.1 h
    dsimp only at h
    split_ifs at h <;> cases h <;> trivial
  · cases h
    trivial
  · exact stModifiers_good h

theorem step_good (h : step strings c ch = .ok (c', a)) : a.Good := by
  unfold step at h
  split at h
  · unfold stNormal at h
    split_ifs at h <;> cases h <;> trivial
  · unfold stFlags at h
    split_ifs at h
    iterate 6 (cases h; trivial)
    exact stWidth_good h
  · exact stWidth_good h
  · unfold stPrec at h
    split_ifs at h
    · cases h
      trivial
    · obtain ⟨⟨w, ap⟩, -, h⟩ := bind_eq_ok.1 h
      cases h
      trivial
    · exact stModifiers_good h
  · exact stModifiers_good h

theorem actions_good {p : List CChar} {as : List Action} (h : actions strings p c = .ok as) : ∀ a ∈ as, a.Good := by
  induction p generalizing c as with
  | nil =>
    cases h
    exact fun a ha => absurd ha (List.not_mem_nil)
  | cons ch p ih =>
    obtain ⟨⟨c', a⟩, hstep, h⟩ := bind_eq_ok.1 h
    obtain ⟨as', has', h⟩ := bind_eq_ok.1 h
    cases h
    have hgood := step_good hstep
    cases a with
    | skip => exact ih has'
    | emit ch => exact List.forall_mem_cons.2 ⟨hgood, ih has'⟩
    | integer val flags base width prec => exact List.forall_mem_cons.2 ⟨hgood, ih has'⟩
    | string sarg flags width prec => exact List.forall_mem_cons.2 ⟨hgood, ih has'⟩
    | count p rank => exact List.forall_mem_cons.2 ⟨hgood, ih has'⟩

end Step

/-! ## The loop -/

section Loop
variable {strings : BitVec 32 → Option CString} {n b : Nat} {p : List CChar} {c : Ctl} {as : List Action}
  {s s' : Out CChar} {w w' : List Store}

/-- The loop puts out the text of its actions. -/
theorem formatLoop_ok (has : actions strings p c = .ok as) (hs : Placed n b s) (hroom : Room n b (textOf as) s) :
    ∃ s', formatLoop strings n p c s w = .ok (s', w ++ storesFrom s.o as) ∧ After n b (textOf as) s s' := by
  induction p generalizing c as s w with
  | nil =>
    cases has
    exact ⟨s, by rw [formatLoop, storesFrom, List.append_nil], hs, rfl, rfl⟩
  | cons ch p ih =>
    obtain ⟨⟨c', a⟩, hstep, has⟩ := bind_eq_ok.1 has
    obtain ⟨as', has', has⟩ := bind_eq_ok.1 has
    cases has
    rw [textOf_cons, Room.append] at hroom
    obtain ⟨s₁, hrun, hafter⟩ := (perform_prints (step_good hstep)).ok s hs hroom.1
    obtain ⟨s₂, hrun', hafter'⟩ := ih (w := w ++ a.stores s.o) has' hafter.placed (hafter.room.2 hroom.2)
    refine ⟨s₂, ?_, by rw [textOf_cons]; exact hafter.trans hafter'⟩
    rw [formatLoop, hstep, ok_bind]
    dsimp only
    rw [hrun, ok_bind, hrun', hafter.count, storesFrom_cons, List.append_assoc]

/-- The loop ends in no other way. -/
theorem formatLoop_inv (h : formatLoop strings n p c s w = .ok (s', w')) (hs : Placed n b s) :
    ∃ as, actions strings p c = .ok as ∧ Room n b (textOf as) s := by
  induction p generalizing c s w with
  | nil => exact ⟨[], rfl, hs.inside⟩
  | cons ch p ih =>
    obtain ⟨⟨c', a⟩, hstep, h⟩ := bind_eq_ok.1 h
    obtain ⟨s₁, hrun, h⟩ := bind_eq_ok.1 h
    have hprints : Prints n b a.text (perform n a) := perform_prints (step_good hstep)
    by_cases hroom : Room n b a.text s
    · obtain ⟨t, hrun', hafter⟩ := hprints.ok s hs hroom
      obtain rfl : t = s₁ := by rw [hrun'] at hrun; exact Except.ok.inj hrun
      obtain ⟨as, has, hroom'⟩ := ih h hafter.placed
      refine ⟨a.cons as, by rw [actions, hstep, ok_bind]; dsimp only; rw [has, ok_bind], ?_⟩
      rw [textOf_cons, Room.append]
      exact ⟨hroom, hafter.room.1 hroom'⟩
    · rw [hprints.stray s hs hroom] at hrun
      cases hrun

end Loop

/-! ## The buffer in the end -/

/-- `buffer` with the first `n - 1` characters of `text` and a `NUL` after them. -/
def written (n : Nat) (text buffer : List CChar) : List CChar :=
  if n = 0 then buffer else text.take (n - 1) ++ 0 :: buffer.drop (min n (text.length + 1))

section Terminate
variable {n : Nat} {text buffer : List CChar} {s : Out CChar}

theorem set_append_head (x y : CChar) (as bs : List CChar) : (as ++ y :: bs).set as.length x = as ++ x :: bs := by
  rw [List.set_append_right _ _ (Nat.le_refl _), Nat.sub_self, List.set_cons_zero]

theorem terminate_ok (h : After n 0 text ⟨buffer, 0, 0⟩ s) (hfit : min n (text.length + 1) ≤ buffer.length) :
    terminate n s = .ok (written n text buffer) := by
  have hcount : s.o = text.length := by rw [h.count, Nat.zero_add]
  have hbuf : s.buf = text.take n ++ buffer.drop (min n text.length) := by
    rw [h.buf, blit_eq _ _ _ (by dsimp only; omega) (Nat.zero_le _)]
    simp
  have hlen : s.buf.length = buffer.length := by rw [h.buf, length_blit]
  unfold terminate written
  by_cases ho : s.o < n
  · have hq : s.q = text.length := by rw [h.placed.cursor (Nat.le_of_lt ho), hcount, Nat.zero_add]
    rw [if_pos ho, poke, if_pos (by omega), if_neg (by omega), hbuf, hq, List.take_of_length_le (by omega),
      List.take_of_length_le (by omega), Nat.min_eq_right (by omega), Nat.min_eq_right (by omega),
      List.drop_eq_getElem_cons (by omega), set_append_head]
  · by_cases hn : n > 0
    · have htake : text.take n = text.take (n - 1) ++ [text.get ⟨n - 1, by omega⟩] := by
        have := List.take_succ_eq_append_getElem (show n - 1 < text.length by omega)
        rwa [Nat.sub_add_cancel hn] at this
      have hlast : (text.take (n - 1)).length = n - 1 := by rw [List.length_take]; omega
      have hset := set_append_head 0 (text.get ⟨n - 1, by omega⟩) (text.take (n - 1)) (buffer.drop n)
      rw [hlast] at hset
      rw [if_neg ho, if_pos hn, poke, if_pos (by omega), if_neg (by omega), hbuf, Nat.min_eq_left (by omega),
        Nat.min_eq_left (by omega), htake, List.append_assoc, List.singleton_append, hset]
    · rw [if_neg ho, if_neg hn, if_pos (by omega), hbuf, show n = 0 by omega]
      simp

theorem terminate_fits (h : After n 0 text ⟨buffer, 0, 0⟩ s) {buf : List CChar} (hok : terminate n s = .ok buf) :
    min n (text.length + 1) ≤ buffer.length := by
  have hcount : s.o = text.length := by rw [h.count, Nat.zero_add]
  have hlen : s.buf.length = buffer.length := by rw [h.buf, length_blit]
  have hcursor := h.placed.cursor
  unfold terminate poke at hok
  split_ifs at hok <;> omega

end Terminate

/-! ## The contract -/

section Contract
variable {strings : BitVec 32 → Option CString} {buffer : List CChar} {n : Nat} {format : CString}
  {ap : List (BitVec 32)} {as : List Action} {r : Printed}

theorem vsnprintf_ok (has : actions strings format.chars (.start ap) = .ok as)
    (hfit : min n ((textOf as).length + 1) ≤ buffer.length) :
    vsnprintf strings buffer n format ap = .ok ⟨written n (textOf as) buffer, (textOf as).length, storesFrom 0 as⟩ := by
  have hroom : Room n 0 (textOf as) ⟨buffer, 0, 0⟩ := by
    unfold Room
    dsimp only
    omega
  obtain ⟨s, hloop, hafter⟩ := formatLoop_ok (w := []) has .start hroom
  rw [vsnprintf, hloop, ok_bind]
  dsimp only
  rw [terminate_ok hafter hfit, ok_bind, hafter.count, Nat.zero_add, List.nil_append]

theorem vsnprintf_inv (h : vsnprintf strings buffer n format ap = .ok r) :
    ∃ as, actions strings format.chars (.start ap) = .ok as ∧ min n ((textOf as).length + 1) ≤ buffer.length ∧
      r = ⟨written n (textOf as) buffer, (textOf as).length, storesFrom 0 as⟩ := by
  obtain ⟨⟨s, w⟩, hloop, hrest⟩ := bind_eq_ok.1 h
  obtain ⟨buf, hend, -⟩ := bind_eq_ok.1 hrest
  obtain ⟨as, has, hroom⟩ := formatLoop_inv hloop .start
  obtain ⟨s', hloop', hafter⟩ := formatLoop_ok (w := []) has .start hroom
  rw [hloop] at hloop'
  cases hloop'
  have hfit := terminate_fits hafter hend
  rw [vsnprintf_ok has hfit] at h
  cases h
  exact ⟨as, has, hfit, rfl⟩

end Contract

end MooseOS.User
