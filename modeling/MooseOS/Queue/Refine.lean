import Mathlib.Data.List.GetD
import MooseOS.Queue.Basic

/-!
# The bounded queue as a list

* `Holds q cap xs` : the cells between the two indices of `q` are the items `xs`, all others are `NULL`;
* `queueLength_spec`, `queuePush_spec`, `queueIterate_spec` : the calls on such a queue;
* `queueStep_holds` : one call answers like the abstract queue, or leaves `items`, which takes both indices to
  the end of the block first;
* `queue_refines_fifo` : every run that stays inside `items` returns the results of the abstract queue.
-/

namespace MooseOS
open Prog

section Representation
variable {α : Type} [Zero α]

/-- The queue holds the items `xs`, oldest first, between `front` and `nextEmpty`. -/
structure Holds (q : Queue α) (cap : Nat) (xs : List α) : Prop where
  size : q.size = cap
  next : q.nextEmpty = q.front + xs.length
  fits : q.nextEmpty ≤ cap
  cells : ∀ i < cap, q.items[i]? = some (if q.front ≤ i then xs.getD (i - q.front) 0 else 0)
  items : (0 : α) ∉ xs

theorem holds_create {size : Nat} {q : Queue α} (h : queueCreate size true true = some q) : Holds q size [] := by
  cases h
  exact ⟨by simp [Queue.size], rfl, Nat.zero_le _, fun i hi => by simp [hi], by simp⟩

namespace Holds
variable {q : Queue α} {cap : Nat} {xs : List α}

theorem cell_of_lt (h : Holds q cap xs) {i : Nat} (hi : i < cap) :
    q.cell i = .ok (if q.front ≤ i then xs.getD (i - q.front) 0 else 0) := by
  simp [Queue.cell, h.cells i hi]

theorem cell_of_le (h : Holds q cap xs) {i : Nat} (hi : cap ≤ i) : q.cell i = .error .stray := by
  have hlen : q.items.length ≤ i := by
    have := h.size
    simp only [Queue.size] at this
    omega
  simp [Queue.cell, List.getElem?_eq_none hlen]

theorem cell_front (h : Holds q cap xs) (hf : q.front < cap) : q.cell q.front = .ok (xs.headD 0) := by
  rw [h.cell_of_lt hf, if_pos (Nat.le_refl _), Nat.sub_self]
  cases xs <;> rfl

theorem full_of_front (h : Holds q cap xs) (hf : cap ≤ q.front) : q.nextEmpty = cap := by
  have h1 := h.next
  have h2 := h.fits
  omega

theorem headD_ne_zero (h : Holds q cap xs) (hxs : xs ≠ []) : xs.headD 0 ≠ 0 := by
  cases xs with
  | nil => exact absurd rfl hxs
  | cons x xs => exact fun h0 => h.items (by simp only [List.headD_cons] at h0; simp [h0])

end Holds

variable {q : Queue α} {cap : Nat} {xs : List α}

theorem holds_push (h : Holds q cap xs) {x : α} (hx : x ≠ 0) (hn : q.nextEmpty < cap) :
    Holds ⟨q.items.set q.nextEmpty x, q.front, q.nextEmpty + 1⟩ cap (xs ++ [x]) where
  size := by simpa [Queue.size] using h.size
  next := by simp [h.next, Nat.add_assoc]
  fits := hn
  cells i hi := by
    have hlen : q.items.length = cap := h.size
    have hnext := h.next
    simp only [List.getElem?_set]
    by_cases hi' : q.nextEmpty = i
    · rw [if_pos hi', if_pos (by omega), if_pos (by omega)]
      simp [show i - q.front = xs.length by omega]
    · rw [if_neg hi', h.cells i hi]
      by_cases hfi : q.front ≤ i
      · simp only [if_pos hfi, List.getD_eq_getElem?_getD]
        rcases Nat.lt_or_ge (i - q.front) xs.length with hlt | hge
        · rw [List.getElem?_append_left hlt]
        · rw [List.getElem?_eq_none hge, List.getElem?_eq_none (by simp; omega)]
      · simp only [if_neg hfi]
  items := by
    simp only [List.mem_append, List.mem_singleton, not_or]
    exact ⟨h.items, fun h0 => hx h0.symm⟩

theorem holds_pop {x : α} (h : Holds q cap (x :: xs)) :
    Holds ⟨q.items.set q.front 0, q.front + 1, q.nextEmpty⟩ cap xs where
  size := by simpa [Queue.size] using h.size
  next := by
    have := h.next
    simp only [List.length_cons] at this ⊢
    omega
  fits := h.fits
  cells i hi := by
    have hlen : q.items.length = cap := h.size
    simp only [List.getElem?_set]
    by_cases hi' : q.front = i
    · rw [if_pos hi', if_pos (by omega), if_neg (by omega)]
    · rw [if_neg hi', h.cells i hi]
      by_cases hfi : q.front ≤ i
      · rw [if_pos hfi, if_pos (by omega), show i - q.front = i - (q.front + 1) + 1 by omega]
        simp
      · rw [if_neg hfi, if_neg (by omega)]
  items h0 := h.items (List.mem_cons_of_mem x h0)

theorem queuePop_spec {x : α} (h : Holds q cap (x :: xs)) :
    queuePop q = .ok (x, ⟨q.items.set q.front 0, q.front + 1, q.nextEmpty⟩) := by
  have hf : q.front < cap := by
    have h1 := h.next
    have h2 := h.fits
    simp only [List.length_cons] at h1
    omega
  unfold queuePop
  simp only [h.cell_front hf, ok_bind, Queue.setCell, h.size, if_pos hf]
  rfl

theorem queueIterate_spec (h : Holds q cap xs) : queueIterate q = .ok xs := by
  have hn := h.next
  have hfit := h.fits
  obtain ⟨s, hs, ⟨h1, h2, h3⟩, hc⟩ := whileLoop_total
    (fun s : Nat × List α => decide (s.1 ≠ q.nextEmpty))
    (fun s => do
      let item ← q.cell s.1
      .ok (s.1 + 1, s.2 ++ [item]))
    (fun s => q.front ≤ s.1 ∧ s.1 ≤ q.nextEmpty ∧ s.2 = xs.take (s.1 - q.front)) (fun s => q.nextEmpty - s.1)
    (by
      intro s ⟨h1, h2, h3⟩ hc
      have hlt : s.1 < q.nextEmpty := Nat.lt_of_le_of_ne h2 (of_decide_eq_true hc)
      have hidx : s.1 - q.front < xs.length := by omega
      have hcell : q.cell s.1 = .ok xs[s.1 - q.front] := by
        rw [h.cell_of_lt (by omega), if_pos h1, List.getD_eq_getElem _ _ hidx]
      refine ⟨(s.1 + 1, s.2 ++ [xs[s.1 - q.front]]), by simp only [hcell, ok_bind], ⟨?_, ?_, ?_⟩, ?_⟩
      · simp only; omega
      · simp only; omega
      · simp only [h3]
        rw [show s.1 + 1 - q.front = s.1 - q.front + 1 by omega, List.take_succ_eq_append_getElem hidx]
      · simp only; omega)
    (q.size + 1) (q.front, []) ⟨by simp, by simp only; omega, by simp⟩ (by rw [h.size]; simp only; omega)
  have hend : s.1 = q.nextEmpty := by simpa using hc
  unfold queueIterate
  rw [hs, ok_bind, h3, hend, hn, Nat.add_sub_cancel_left, List.take_length]

end Representation

/-! ## The calls -/

variable {α : Type} [Zero α] [DecidableEq α]

section Calls
variable {q : Queue α} {cap : Nat} {xs : List α}

theorem queueLength_spec (h : Holds q cap xs) (hf : q.front < cap) : queueLength q = .ok (xs.length : Int) := by
  unfold queueLength
  simp only [h.cell_front hf, ok_bind]
  have hn := h.next
  by_cases hxs : xs = []
  · simp [hxs]
  · have hpos : 0 < xs.length := List.length_pos_iff.mpr hxs
    rw [if_neg (h.headD_ne_zero hxs), if_pos (by omega)]
    congr 1
    omega

theorem queueLength_stray (h : Holds q cap xs) (hf : cap ≤ q.front) : queueLength q = .error .stray := by
  simp [queueLength, h.cell_of_le hf]

/-- A push is refused by a full queue, accepted into the cell at `nextEmpty`, or stray past the block. -/
theorem queuePush_spec (h : Holds q cap xs) {x : α} (hx : x ≠ 0) :
    (queuePush q x = .error .stray ∧ q.nextEmpty = cap) ∨
    (queuePush q x = .ok (false, q) ∧ xs.length = cap) ∨
    (queuePush q x = .ok (true, ⟨q.items.set q.nextEmpty x, q.front, q.nextEmpty + 1⟩) ∧ q.nextEmpty < cap ∧
      xs.length < cap) := by
  have hn := h.next
  have hfit := h.fits
  have hsz : q.items.length = cap := h.size
  rcases Nat.lt_or_ge q.front cap with hf | hf
  · unfold queuePush
    simp only [if_neg hx, queueIsFull, queueLength_spec h hf, ok_bind, h.size]
    by_cases hfull : xs.length = cap
    · exact .inr (.inl ⟨by simp [hfull], hfull⟩)
    · have hne : decide ((xs.length : Int) = cap) = false := decide_eq_false (by omega)
      simp only [hne, Bool.false_eq_true, if_false, Queue.setCell, h.size]
      rcases Nat.lt_or_ge q.nextEmpty cap with hlt | hge
      · exact .inr (.inr ⟨by rw [if_pos hlt]; rfl, hlt, by omega⟩)
      · exact .inl ⟨by rw [if_neg (by omega)]; rfl, by omega⟩
  · exact .inl ⟨by simp [queuePush, hx, queueIsFull, queueLength_stray h hf], h.full_of_front hf⟩

end Calls

/-! ## Runs -/

def offers : Fifo.Op α → Nat
  | .push x => if x ≠ 0 then 1 else 0
  | _ => 0

/-- A call that looks at the cell at `front`, and changes nothing. -/
theorem queueStep_look {q : Queue α} {cap : Nat} {xs : List α} {op : Fifo.Op α} {r : Fifo.Res α} (h : Holds q cap xs)
    (hop : offers op = 0) (hin : q.front < cap → queueStep q op = .ok (r, q))
    (hout : cap ≤ q.front → queueStep q op = .error .stray) :
    (queueStep q op = .error .stray ∧ q.nextEmpty = cap) ∨
    ∃ q', queueStep q op = .ok (r, q') ∧ Holds q' cap xs ∧ q'.nextEmpty = min (q.nextEmpty + offers op) cap := by
  have hfit := h.fits
  rcases Nat.lt_or_ge q.front cap with hf | hf
  · exact .inr ⟨q, hin hf, h, by omega⟩
  · exact .inl ⟨hout hf, h.full_of_front hf⟩

/-- **One call.** It answers like the abstract queue and keeps the representation, or it is stray, and then
`nextEmpty` is at the end of the block. `nextEmpty` only advances, by one for an item that is accepted. -/
theorem queueStep_holds {q : Queue α} {cap : Nat} {xs xs' : List α} {op : Fifo.Op α} {r : Fifo.Res α}
    (h : Holds q cap xs) (hstep : (Fifo.bounded cap).step xs op = .ok (r, xs')) :
    (queueStep q op = .error .stray ∧ q.nextEmpty = cap) ∨
    ∃ q', queueStep q op = .ok (r, q') ∧ Holds q' cap xs' ∧ q'.nextEmpty = min (q.nextEmpty + offers op) cap := by
  have hfit := h.fits
  have hn := h.next
  cases op with
  | push x =>
    simp only [Fifo.bounded, Fifo.boundedStep] at hstep
    by_cases hx : x = 0
    · rw [if_neg (by simp [hx])] at hstep
      cases hstep
      exact .inr ⟨q, by simp [queueStep, queuePush, hx], h, by
        simp only [offers, hx, ne_eq, not_true, if_false]; omega⟩
    · have hone : offers (Fifo.Op.push x) = 1 := by simp [offers, hx]
      rcases queuePush_spec h hx with ⟨he, hc⟩ | ⟨he, hc⟩ | ⟨he, hc, hl⟩
      · exact .inl ⟨by simp [queueStep, he], hc⟩
      · rw [if_neg (by omega)] at hstep
        cases hstep
        exact .inr ⟨q, by simp [queueStep, he], h, by omega⟩
      · rw [if_pos ⟨hx, hl⟩] at hstep
        cases hstep
        exact .inr ⟨_, by simp only [queueStep, he, ok_bind], holds_push h hx hc, by simp only [hone]; omega⟩
  | pop =>
    cases xs with
    | nil => cases hstep
    | cons x xs =>
      cases hstep
      exact .inr ⟨_, by simp only [queueStep, queuePop_spec h, ok_bind], holds_pop h, by simp only [offers]; omega⟩
  | peek =>
    cases hstep
    exact queueStep_look h rfl (fun hf => by simp [queueStep, queuePeek, h.cell_front hf])
      (fun hf => by simp [queueStep, queuePeek, h.cell_of_le hf])
  | length =>
    cases hstep
    exact queueStep_look h rfl (fun hf => by simp [queueStep, queueLength_spec h hf])
      (fun hf => by simp [queueStep, queueLength_stray h hf])
  | isEmpty =>
    cases hstep
    refine queueStep_look h rfl (fun hf => ?_) (fun hf => by simp [queueStep, queueIsEmpty, queueLength_stray h hf])
    cases xs <;> simp [queueStep, queueIsEmpty, queueLength_spec h hf]
    omega
  | isFull =>
    cases hstep
    exact queueStep_look h rfl (fun hf => by simp [queueStep, queueIsFull, queueLength_spec h hf, h.size])
      (fun hf => by simp [queueStep, queueIsFull, queueLength_stray h hf])
  | iterate =>
    cases hstep
    exact .inr ⟨q, by simp [queueStep, queueIterate_spec h], h, by simp only [offers]; omega⟩

/-- **A run.** It returns the results of the abstract queue, or it is stray, and then at least as many items
were offered as the block has cells left. -/
theorem run_holds {cap : Nat} : ∀ (ops : List (Fifo.Op α)) (q : Queue α) (xs xs' : List α) (rs : List (Fifo.Res α)),
    Holds q cap xs → (Fifo.bounded cap).run xs ops = .ok (rs, xs') →
    (queueMachine.run q ops = .error .stray ∧ cap ≤ q.nextEmpty + (ops.map offers).sum) ∨
    ∃ q', queueMachine.run q ops = .ok (rs, q') ∧ Holds q' cap xs' ∧
      q'.nextEmpty = min (q.nextEmpty + (ops.map offers).sum) cap := by
  intro ops
  induction ops with
  | nil =>
    intro q xs xs' rs h hrun
    cases hrun
    have := h.fits
    exact .inr ⟨q, rfl, h, by simp only [List.map_nil, List.sum_nil]; omega⟩
  | cons op ops ih =>
    intro q xs xs' rs h hrun
    obtain ⟨r, ys, rs', hs, hr, rfl⟩ := (Machine.run_cons_ok _).mp hrun
    simp only [List.map_cons, List.sum_cons]
    rcases queueStep_holds h hs with ⟨he, hc⟩ | ⟨q₁, he, h₁, hnext⟩
    · exact .inl ⟨by simp [Machine.run, queueMachine, he], by omega⟩
    · rw [Machine.run_cons_of_step (M := queueMachine) he]
      rcases ih q₁ ys xs' rs' h₁ hr with ⟨he', hc'⟩ | ⟨q₂, he', h₂, hnext'⟩
      · exact .inl ⟨by simp [he'], by omega⟩
      · exact .inr ⟨q₂, by simp [he'], h₂, by omega⟩

/-- **The bounded queue refines a FIFO list of capacity `size`.** Whenever the abstract queue can follow a run
(it never pops an empty list) and no access of the run leaves `items`, the run returns exactly the results of
the abstract queue. -/
theorem queue_refines_fifo {size : Nat} {q₀ : Queue α}
    (hcreate : queueCreate size true true = some q₀) (ops : List (Fifo.Op α)) {rs : List (Fifo.Res α)} {xs : List α}
    (hfifo : (Fifo.bounded size).run [] ops = .ok (rs, xs)) (hinside : queueMachine.run q₀ ops ≠ .error .stray) :
    ∃ q, queueMachine.run q₀ ops = .ok (rs, q) ∧ Holds q size xs := by
  rcases run_holds ops q₀ [] xs rs (holds_create hcreate) hfifo with ⟨he, -⟩ | ⟨q, he, h, -⟩
  · exact absurd he hinside
  · exact ⟨q, he, h⟩

theorem queue_refines_fifo_three : ∃ q,
    queueMachine.run (⟨[0, 0, 0], 0, 0⟩ : Queue Nat)
        [.push 7, .push 0, .push 8, .length, .pop, .peek, .isFull, .iterate] =
      .ok ([.flag true, .flag false, .flag true, .len 2, .item 7, .item 8, .flag false, .visited [8]], q) ∧
    Holds q 3 [8] :=
  queue_refines_fifo (show queueCreate 3 true true = some (⟨[0, 0, 0], 0, 0⟩ : Queue Nat) from rfl) _ rfl (by decide)

end MooseOS
