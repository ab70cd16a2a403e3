import MooseOS.Lib.Machine

/-!
# First-in first-out queues

The abstract queues, as lists with the oldest item first. An item type has a `0` that stands for no item: a
push refuses it, and looking into an empty queue yields it.

* `Fifo.bounded cap` : a queue for at most `cap` items, which refuses to pop when it is empty;
* `Fifo.push`, `Fifo.pop`, `Fifo.peek` : the operations of an unbounded queue whose push may run out of
  memory;
* `Arc n a k i` : of a ring of `n` cells, the cell `i` is one of the `k` cells from `a` on.
-/

namespace Prog.Fifo
variable {α : Type} [Zero α] [DecidableEq α]

/-! ## The bounded queue -/

inductive Op (α : Type) where
  | push (x : α)
  | pop
  | peek
  | length
  | isEmpty
  | isFull
  | iterate

/-- The results: an answer yes or no, an item, a number, or the items visited in order. -/
inductive Res (α : Type) where
  | flag (b : Bool)
  | item (x : α)
  | len (n : Int)
  | visited (xs : List α)
deriving DecidableEq

def boundedStep (cap : Nat) (xs : List α) : Op α → Exec (Res α × List α)
  | .push x => if x ≠ 0 ∧ xs.length < cap then .ok (.flag true, xs ++ [x]) else .ok (.flag false, xs)
  | .pop => match xs with
    | [] => .error .stray
    | x :: xs => .ok (.item x, xs)
  | .peek => .ok (.item (xs.headD 0), xs)
  | .length => .ok (.len xs.length, xs)
  | .isEmpty => .ok (.flag xs.isEmpty, xs)
  | .isFull => .ok (.flag (decide (xs.length = cap)), xs)
  | .iterate => .ok (.visited xs, xs)

def bounded (cap : Nat) : Machine (List α) (Op α) (Res α) := ⟨boundedStep cap⟩

/-! ## The unbounded queue -/

/-- Append `x`, unless it is no item or there is no memory for it. -/
def push (xs : List α) (x : α) (memory : Bool) : Int × List α :=
  if x = 0 ∨ memory = false then (-1, xs) else (0, xs ++ [x])

def pop : List α → α × List α
  | [] => (0, [])
  | x :: xs => (x, xs)

def peek (xs : List α) : α := xs.headD 0

end Prog.Fifo

/-! ## Intervals of a ring of cells -/

namespace Prog

/-- The cell `i` is one of the `k` cells from `a` on, where cell 0 follows cell `n - 1`. -/
def Arc (n a k i : Nat) : Prop := ∃ j < k, (a + j) % n = i

instance (n a k i : Nat) : Decidable (Arc n a k i) := inferInstanceAs (Decidable (∃ j < k, (a + j) % n = i))

section Arc
variable {n a b k i : Nat}

theorem arc_start_iff (ha : a < n) : Arc n a k a ↔ 0 < k := by
  constructor
  · rintro ⟨j, hj, -⟩
    exact Nat.zero_lt_of_lt hj
  · exact fun hk => ⟨0, hk, Nat.mod_eq_of_lt ha⟩

theorem arc_iff_of_le (h : a + k ≤ n) : Arc n a k i ↔ a ≤ i ∧ i < a + k := by
  constructor
  · rintro ⟨j, hj, rfl⟩
    rw [Nat.mod_eq_of_lt (by omega)]
    omega
  · intro ⟨hai, hik⟩
    refine ⟨i - a, by omega, ?_⟩
    rw [Nat.mod_eq_of_lt (by omega)]
    omega

/-- The end `b` is after the start, or the arc has passed the end of the ring. -/
theorem arc_length (ha : a < n) (hk : k ≤ n) (h0 : 0 < k) (hb : (a + k) % n = b) :
    k = if a < b then b - a else b + n - a := by
  rcases Nat.lt_or_ge (a + k) n with hlt | hge
  · rw [Nat.mod_eq_of_lt hlt] at hb
    rw [if_pos (by omega)]
    omega
  · rw [Nat.mod_eq_sub_mod hge, Nat.mod_eq_of_lt (by omega)] at hb
    rw [if_neg (by omega)]
    omega

end Arc

end Prog
