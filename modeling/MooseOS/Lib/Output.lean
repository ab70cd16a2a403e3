import MooseOS.Lib.While

/-!
# Output into a buffer

A writer puts text into a buffer from a cell on, but only its first `n` characters; the others are counted.

* `peek`, `poke` : read and store a cell;
* `Out`, `emit`, `puts` : the buffer with a cursor and a count, one character more, and a text more;
* `putsBack` : the same text stored from its last character to its first;
* `blit` : the buffer with the text in it; `blit_eq` is its value;
* `Prints n base text f` : code that puts out `text`, and that strays when there is no room for it. The rules are
  `Prints.bind`, `Prints.puts`, `Prints.back`, and `Prints.nested` for a writer inside a writer.
-/

namespace Prog

variable {α : Type}

def peek (buf : List α) (i : Nat) : Exec α := match buf[i]? with
  | some x => .ok x
  | none => .error .stray

def poke (buf : List α) (i : Nat) (x : α) : Exec (List α) := if i < buf.length then .ok (buf.set i x) else .error .stray

/-- A buffer, the cell that the cursor is at, and the number of characters that were put out. -/
structure Out (α : Type) where
  buf : List α
  q : Nat
  o : Nat
deriving DecidableEq, Repr

/-- Put out a character; one after the first `n` is only counted. -/
def emit (n : Nat) (x : α) (s : Out α) : Exec (Out α) :=
  if s.o < n then do
    let buf ← poke s.buf s.q x
    .ok ⟨buf, s.q + 1, s.o + 1⟩
  else .ok { s with o := s.o + 1 }

def puts (n : Nat) (text : List α) (s : Out α) : Exec (Out α) := text.foldlM (fun s x => emit n x s) s

@[simp] theorem puts_nil (n : Nat) : puts n ([] : List α) = .ok := rfl

@[simp] theorem bind_ok {β : Type} (x : Exec β) : (x >>= .ok) = x := by cases x <;> rfl

/-- Store the characters `rev`, each before the last one; `qq` is the cell after the first, `oo` its place. -/
def putsBack (n : Nat) : List α → Nat → Nat → List α → Exec (List α)
  | [], _, _, buf => .ok buf
  | x :: rev, qq, oo, buf => do
    let buf ← if oo - 1 < n then poke buf (qq - 1) x else .ok buf
    putsBack n rev (qq - 1) (oo - 1) buf

/-! ## The buffer after a text -/

/-- `buf` with `text` at the places `j`, `j + 1`, …, as far as they are below `n`. Place `0` is cell `base`. -/
def blit (n base : Nat) : Nat → List α → List α → List α
  | _, [], buf => buf
  | j, x :: text, buf => blit n base (j + 1) text (if j < n then buf.set (base + j) x else buf)

section Blit
variable {n base : Nat}

@[simp] theorem length_blit (text : List α) (j : Nat) (buf : List α) :
    (blit n base j text buf).length = buf.length := by
  induction text generalizing j buf with
  | nil => rfl
  | cons x text ih =>
    rw [blit, ih]
    split
    · exact List.length_set
    · rfl

theorem blit_append (text t : List α) (j : Nat) (buf : List α) :
    blit n base j (text ++ t) buf = blit n base (j + text.length) t (blit n base j text buf) := by
  induction text generalizing j buf with
  | nil => rfl
  | cons x text ih => rw [List.cons_append, blit, ih, blit, List.length_cons, Nat.add_assoc, Nat.add_comm 1]

theorem blit_full {j : Nat} (hj : n ≤ j) (text buf : List α) : blit n base j text buf = buf := by
  induction text generalizing j with
  | nil => rfl
  | cons x text ih => rw [blit, if_neg (by omega), ih (by omega)]

theorem blit_set {i j : Nat} {text : List α} (hi : base + j + text.length ≤ i) (x : α) (buf : List α) :
    blit n base j text (buf.set i x) = (blit n base j text buf).set i x := by
  induction text generalizing j buf with
  | nil => rfl
  | cons y text ih =>
    rw [List.length_cons] at hi
    rw [blit, blit, ← ih (by omega)]
    split
    · rw [List.set_comm _ _ (by omega)]
    · rfl

/-- Places may be counted from a later cell on. -/
theorem blit_shift {o : Nat} (ho : o ≤ n) (text : List α) (j : Nat) (buf : List α) :
    blit (n - o) (base + o) j text buf = blit n base (o + j) text buf := by
  induction text generalizing j buf with
  | nil => rfl
  | cons x text ih =>
    rw [blit, blit, ih, Nat.add_assoc base, Nat.add_assoc o]
    congr 1
    exact if_congr (by omega) rfl rfl

/-- **The value of `blit`.** -/
theorem blit_eq (text : List α) (j : Nat) (buf : List α) (hbuf : base + min n (j + text.length) ≤ buf.length)
    (hj : j ≤ n) :
    blit n base j text buf
      = buf.take (base + j) ++ text.take (n - j) ++ buf.drop (base + j + min (n - j) text.length) := by
  induction text generalizing j buf with
  | nil => simp [blit]
  | cons x text ih =>
    rw [List.length_cons] at hbuf
    rw [blit, List.length_cons]
    by_cases hlt : j < n
    · obtain ⟨k, hk⟩ : ∃ k, n - j = k + 1 := ⟨n - j - 1, by omega⟩
      have htake : (buf.set (base + j) x).take (base + (j + 1)) = buf.take (base + j) ++ [x] := by
        have hlen : (buf.take (base + j)).length = base + j := by rw [List.length_take]; omega
        rw [← Nat.add_assoc, List.take_set, List.take_succ_eq_append_getElem (by omega),
          List.set_append_right _ _ (by omega), hlen, Nat.sub_self, List.set_cons_zero]
      rw [if_pos hlt, ih (j + 1) _ (by rw [List.length_set]; omega) hlt, htake, List.drop_set, if_pos (by omega), hk,
        show n - (j + 1) = k by omega, List.take_succ_cons, List.append_assoc (List.take _ _), List.singleton_append,
        show base + (j + 1) + min k text.length = base + j + min (k + 1) (text.length + 1) by omega]
    · obtain rfl : j = n := by omega
      rw [if_neg hlt, blit_full (by omega)]
      simp

end Blit

/-! ## Code that puts out a text -/

/-- The cursor is at the place that the count says, as long as it matters, and what was stored so far was inside. -/
structure Placed (n base : Nat) (s : Out α) : Prop where
  cursor : s.o ≤ n → s.q = base + s.o
  inside : min n s.o ≤ s.buf.length - base

/-- There is room for the part of `text` that is stored. -/
def Room (n base : Nat) (text : List α) (s : Out α) : Prop := min n (s.o + text.length) ≤ s.buf.length - base

instance (n base : Nat) (text : List α) (s : Out α) : Decidable (Room n base text s) :=
  inferInstanceAs (Decidable (_ ≤ _))

structure After (n base : Nat) (text : List α) (s s' : Out α) : Prop where
  placed : Placed n base s'
  count : s'.o = s.o + text.length
  buf : s'.buf = blit n base s.o text s.buf

/-- `f` puts out `text`: it ends with the text put out if there is room for it, and strays if there is not. -/
structure Prints (n base : Nat) (text : List α) (f : Out α → Exec (Out α)) : Prop where
  ok : ∀ s, Placed n base s → Room n base text s → ∃ s', f s = .ok s' ∧ After n base text s s'
  stray : ∀ s, Placed n base s → ¬ Room n base text s → f s = .error .stray

section Prints
variable {n base : Nat} {text t : List α} {s s' : Out α} {f g : Out α → Exec (Out α)}

theorem Placed.start {buf : List α} : Placed n base ⟨buf, base, 0⟩ := ⟨fun _ => rfl, by simp⟩

theorem Room.append : Room n base (text ++ t) s ↔
    Room n base text s ∧ min n (s.o + text.length + t.length) ≤ s.buf.length - base := by
  unfold Room
  rw [List.length_append]
  omega

theorem After.room (h : After n base text s s') :
    Room n base t s' ↔ min n (s.o + text.length + t.length) ≤ s.buf.length - base := by
  rw [Room, h.count, h.buf, length_blit]

theorem After.trans {s'' : Out α} (h : After n base text s s') (h' : After n base t s' s'') :
    After n base (text ++ t) s s'' where
  placed := h'.placed
  count := by rw [h'.count, h.count, List.length_append, Nat.add_assoc]
  buf := by rw [h'.buf, h.buf, h.count, blit_append]

theorem Prints.nil : Prints n base ([] : List α) .ok where
  ok s hs _ := ⟨s, rfl, hs, rfl, rfl⟩
  stray _ hs hroom := absurd hs.inside hroom

theorem Prints.bind (hf : Prints n base text f) (hg : Prints n base t g) :
    Prints n base (text ++ t) (fun s => f s >>= g) where
  ok s hs hroom := by
    obtain ⟨s', hrun, hafter⟩ := hf.ok s hs (Room.append.1 hroom).1
    obtain ⟨s'', hrun', hafter'⟩ := hg.ok s' hafter.placed (hafter.room.2 (Room.append.1 hroom).2)
    exact ⟨s'', by rw [hrun, ok_bind, hrun'], hafter.trans hafter'⟩
  stray s hs hroom := by
    by_cases hfirst : Room n base text s
    · obtain ⟨s', hrun, hafter⟩ := hf.ok s hs hfirst
      rw [hrun, ok_bind, hg.stray s' hafter.placed fun h => hroom (Room.append.2 ⟨hfirst, hafter.room.1 h⟩)]
    · rw [hf.stray s hs hfirst, error_bind]

theorem Prints.emit (x : α) : Prints n base [x] (emit n x) where
  ok s hs hroom := by
    unfold Room at hroom
    rw [List.length_singleton] at hroom
    unfold Prog.emit
    by_cases ho : s.o < n
    · have hq := hs.cursor (Nat.le_of_lt ho)
      rw [if_pos ho, poke, if_pos (by omega), ok_bind]
      refine ⟨_, rfl, ⟨fun _ => ?_, ?_⟩, rfl, ?_⟩
      · rw [hq, Nat.add_assoc]
      · rw [List.length_set]; exact hroom
      · rw [blit, if_pos ho, blit, hq]
    · rw [if_neg ho]
      exact ⟨_, rfl, ⟨fun hle => absurd hle (by simp only; omega), hroom⟩, rfl, (blit_full (by omega) _ _).symm⟩
  stray s hs hroom := by
    have hin := hs.inside
    unfold Room at hroom
    rw [List.length_singleton] at hroom
    have ho : s.o < n := by omega
    have hq := hs.cursor (Nat.le_of_lt ho)
    rw [Prog.emit, if_pos ho, poke, if_neg (by omega), error_bind]

theorem Prints.puts (text : List α) : Prints n base text (puts n text) := by
  induction text with
  | nil => exact .nil
  | cons x text ih => exact (Prints.emit x).bind ih

theorem putsBack_ok {rev : List α} {qq oo : Nat} {buf : List α} (hlen : rev.length ≤ oo)
    (hqq : oo - rev.length < n → qq = base + oo) (hroom : min n oo ≤ buf.length - base) :
    putsBack n rev qq oo buf = .ok (blit n base (oo - rev.length) rev.reverse buf) := by
  induction rev generalizing qq oo buf with
  | nil => rfl
  | cons x rev ih =>
    rw [List.length_cons] at hlen hqq
    have hplace : oo - 1 - rev.length + rev.reverse.length = oo - 1 := by rw [List.length_reverse]; omega
    rw [List.reverse_cons, blit_append, List.length_cons, show oo - (rev.length + 1) = oo - 1 - rev.length by omega,
      hplace, blit, blit, putsBack]
    by_cases ho : oo - 1 < n
    · have hq := hqq (by omega)
      rw [if_pos ho, if_pos ho, poke, if_pos (by omega), ok_bind]
      dsimp only
      rw [ih (by omega) (fun _ => by omega) (by rw [List.length_set]; omega), show qq - 1 = base + (oo - 1) by omega,
        blit_set (by omega)]
    · rw [if_neg ho, if_neg ho, ok_bind]
      dsimp only
      rw [ih (by omega) (fun h => by have := hqq (by omega); omega) (by omega)]

theorem putsBack_stray {rev : List α} {qq oo : Nat} {buf : List α} (hlen : rev.length ≤ oo)
    (hqq : oo - rev.length < n → qq = base + oo) (hin : min n (oo - rev.length) ≤ buf.length - base)
    (hroom : ¬ min n oo ≤ buf.length - base) : putsBack n rev qq oo buf = .error .stray := by
  induction rev generalizing qq oo with
  | nil => exact absurd hin hroom
  | cons x rev ih =>
    rw [List.length_cons] at hlen hqq hin
    rw [putsBack]
    by_cases ho : oo - 1 < n
    · have hq := hqq (by omega)
      rw [if_pos ho, poke, if_neg (by omega), error_bind]
    · rw [if_neg ho, ok_bind]
      exact ih (by omega) (fun h => by have := hqq (by omega); omega) (by omega) (by omega)

/-- **A text stored backwards** is the text: the cursor goes behind it first, and the characters come down to it. -/
theorem Prints.back (rev : List α) : Prints n base rev.reverse (fun s => do
    let buf ← putsBack n rev (s.q + rev.length) (s.o + rev.length) s.buf
    .ok ⟨buf, s.q + rev.length, s.o + rev.length⟩) where
  ok s hs hroom := by
    have hcursor := hs.cursor
    rw [Room, List.length_reverse] at hroom
    rw [putsBack_ok (Nat.le_add_left _ _) (fun h => by have := hcursor (by omega); omega) hroom, Nat.add_sub_cancel,
      ok_bind]
    refine ⟨_, rfl, ⟨fun h => ?_, ?_⟩, ?_, rfl⟩
    · rw [hcursor (by simp only at h; omega), Nat.add_assoc]
    · rw [length_blit]; exact hroom
    · rw [List.length_reverse]
  stray s hs hroom := by
    have hcursor := hs.cursor
    rw [Room, List.length_reverse] at hroom
    rw [putsBack_stray (Nat.le_add_left _ _) (fun h => by have := hcursor (by omega); omega)
      (by rw [Nat.add_sub_cancel]; exact hs.inside) hroom, error_bind]

/-- **A writer inside a writer**: it gets the rest of the buffer, and tells how much it would have put there. -/
theorem Prints.nested {F : Nat → Out α → Exec (Out α)} (hF : ∀ n base, Prints n base text (F n)) :
    Prints n base text (fun s => do
      let s' ← F (if s.o < n then n - s.o else 0) ⟨s.buf, s.q, 0⟩
      .ok ⟨s'.buf, s.q + s'.o, s.o + s'.o⟩) where
  ok s hs hroom := by
    have hcursor := hs.cursor
    have hin := hs.inside
    unfold Room at hroom
    obtain ⟨s', hrun, -, hcount, hbuf⟩ :=
      (hF (if s.o < n then n - s.o else 0) s.q).ok ⟨s.buf, s.q, 0⟩ .start
        (by unfold Room; split <;> simp only <;> omega)
    rw [hrun, ok_bind]
    rw [Nat.zero_add] at hcount
    refine ⟨_, rfl, ⟨fun h => ?_, ?_⟩, by rw [hcount], ?_⟩
    · rw [hcursor (by simp only at h; omega), Nat.add_assoc]
    · rw [hbuf, length_blit, hcount]; exact hroom
    · rw [hbuf]
      by_cases ho : s.o < n
      · rw [if_pos ho, hcursor (Nat.le_of_lt ho), blit_shift (Nat.le_of_lt ho), Nat.add_zero]
      · rw [if_neg ho, blit_full (Nat.zero_le _), blit_full (by omega)]
  stray s hs hroom := by
    have hcursor := hs.cursor
    have hin := hs.inside
    unfold Room at hroom
    rw [(hF (if s.o < n then n - s.o else 0) s.q).stray ⟨s.buf, s.q, 0⟩ .start
      (by unfold Room; split <;> simp only <;> omega), error_bind]

end Prints

end Prog
