import MooseOS.Lib.Fifo
import MooseOS.Queue.Refine

/-!
# The bounded queue as a ring

`queueLength` also has branches for a queue whose items go round the end of the block, and for one whose two indices
are equal.

* `RingState q k` : the items of `q` are the `k` cells of the ring from `front` on;
* `ring_decoded` : the three tests of such a queue tell `k`;
* `Holds.ring` : the queues that its own calls build are rings that have not gone round.
-/

namespace MooseOS
open Prog

/-- The cells that hold an item are the `k` cells of the ring from `front` on, and `nextEmpty` is the one after
them. -/
structure RingState {α : Type} [Zero α] (q : Queue α) (k : Nat) : Prop where
  front : q.front < q.size
  nextEmpty : q.nextEmpty < q.size
  le : k ≤ q.size
  next : (q.front + k) % q.size = q.nextEmpty
  cells : ∀ i < q.size, q.items[i]? ≠ some 0 ↔ Arc q.size q.front k i

section Ring
variable {α : Type} [Zero α] {q : Queue α} {k : Nat}

/-- The cell at `front` tells an empty ring from a full one. -/
theorem RingState.first (h : RingState q k) : ∃ first, q.cell q.front = .ok first ∧ (first = 0 ↔ k = 0) := by
  have hlt : q.front < q.items.length := h.front
  have hget := List.getElem?_eq_getElem hlt
  have hcell := (h.cells _ h.front).trans (arc_start_iff h.front)
  refine ⟨q.items[q.front], ?_, ?_⟩
  · unfold Queue.cell
    rw [hget]
  · rw [hget, ne_eq, Option.some.injEq, Nat.pos_iff_ne_zero] at hcell
    exact not_iff_not.mp hcell

/-- A queue whose cells are not used up is a ring, in which the items lie in one piece. -/
theorem Holds.ring {cap : Nat} {xs : List α} (h : Holds q cap xs) (hroom : q.nextEmpty < cap) :
    RingState q xs.length := by
  obtain rfl := h.size
  have hn := h.next
  refine ⟨by omega, hroom, by omega, by rw [← hn]; exact Nat.mod_eq_of_lt hroom, fun i hi => ?_⟩
  rw [arc_iff_of_le (by omega), h.cells i hi, ne_eq, Option.some.injEq]
  split_ifs with hfi
  · rcases Nat.lt_or_ge (i - q.front) xs.length with hlt | hge
    · rw [List.getD_eq_getElem _ _ hlt]
      exact iff_of_true (fun h0 => h.items (h0 ▸ List.getElem_mem hlt)) ⟨hfi, by omega⟩
    · rw [List.getD_eq_default _ _ hge]
      exact iff_of_false (fun hne => hne rfl) (by omega)
  · exact iff_of_false (fun hne => hne rfl) (fun h => hfi h.1)

variable [DecidableEq α]

theorem queueLength_ring (h : RingState q k) : queueLength q = .ok (k : Int) := by
  obtain ⟨first, hcell, hfirst⟩ := h.first
  unfold queueLength
  rw [hcell, ok_bind]
  by_cases h0 : k = 0
  · rw [if_pos (hfirst.mpr h0), h0]
    rfl
  · have hne : first ≠ 0 := mt hfirst.mp h0
    have hk := arc_length h.front h.le (Nat.pos_of_ne_zero h0) h.next
    have hf := h.front
    rw [if_neg hne]
    -- not wrapped, full, wrapped
    rcases Nat.lt_trichotomy q.front q.nextEmpty with hlt | heq | hgt
    · rw [if_pos hlt] at hk ⊢
      congr 1
      omega
    · rw [if_neg (by omega)] at hk ⊢
      rw [if_pos ⟨heq.symm, hne⟩]
      congr 1
      omega
    · rw [if_neg (by omega)] at hk ⊢
      rw [if_neg (by omega)]
      congr 1
      omega

/-- **Every state of the ring is decoded**, wrapped or not, empty or full: `queueLength` returns the number of items,
and `queueIsEmpty` and `queueIsFull` tell whether it is 0 or `size`. -/
theorem ring_decoded (h : RingState q k) :
    queueLength q = .ok (k : Int) ∧ queueIsEmpty q = .ok (decide (k = 0)) ∧
      queueIsFull q = .ok (decide (k = q.size)) := by
  refine ⟨queueLength_ring h, ?_, ?_⟩
  · unfold queueIsEmpty
    rw [queueLength_ring h, ok_bind]
    simp
  · unfold queueIsFull
    rw [queueLength_ring h, ok_bind]
    simp

/-- Two items in the last cells of a block of five, one in the first. -/
def wrappedQueue : Queue Nat := ⟨[9, 0, 0, 7, 8], 3, 1⟩

theorem ring_decoded_wrapped : queueLength wrappedQueue = .ok 3 ∧ queueIsEmpty wrappedQueue = .ok false ∧
    queueIsFull wrappedQueue = .ok false :=
  ring_decoded (k := 3) ⟨by decide, by decide, by decide, by decide, by decide⟩

end Ring

end MooseOS
