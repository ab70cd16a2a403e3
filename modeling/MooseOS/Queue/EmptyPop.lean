import MooseOS.Queue.Basic

/-!
# Popping the empty bounded queue

`queuePop` does not look whether the queue holds an item, as `linkedListQueuePop` does: where it returns `NULL`, it
has advanced `front` all the same.

* `queueStep_cases` : what one call can do to the queue;
* `Indexed` : from `front` on, the free cells are those from `nextEmpty` on; so the queue is empty when `front` has
  reached `nextEmpty`, or passed it;
* `run_pushes`, `queueIterate_passed`, `run_pops_iff` : pushes, an iteration and pops on such a queue;
* `EmptyPop` : what the pop of the empty queue does, and how later calls tell;
* `popUnobservable_never` : no pop of an empty queue goes unnoticed.
-/

namespace MooseOS
open Prog

/-! ## One call -/

section Cells
variable {α : Type} {q q' : Queue α}

theorem cell_eq_ok {i : Nat} {x : α} : q.cell i = .ok x ↔ q.items[i]? = some x := by
  unfold Queue.cell
  cases q.items[i]? <;> simp

theorem setCell_eq_ok {i : Nat} {x : α} :
    q.setCell i x = .ok q' ↔ i < q.size ∧ q' = ⟨q.items.set i x, q.front, q.nextEmpty⟩ := by
  unfold Queue.setCell
  split_ifs with hi <;> simp [hi, eq_comm]

theorem queuePop_eq_ok [Zero α] {x : α} :
    queuePop q = .ok (x, q') ↔
      q.items[q.front]? = some x ∧ q' = ⟨q.items.set q.front 0, q.front + 1, q.nextEmpty⟩ := by
  simp only [queuePop, bind_eq_ok, cell_eq_ok, setCell_eq_ok, Except.ok.injEq, Prod.mk.injEq]
  constructor
  · rintro ⟨y, hy, p, ⟨-, rfl⟩, rfl, rfl⟩
    exact ⟨hy, rfl⟩
  · rintro ⟨hx, rfl⟩
    exact ⟨x, hx, _, ⟨(List.getElem?_eq_some_iff.mp hx).1, rfl⟩, rfl, rfl⟩

theorem queueIterate_passed (h : q.nextEmpty < q.front) : queueIterate q = .error .stray := by
  unfold queueIterate
  rw [whileLoop_fault _ _ (fun s : Nat × List α => q.nextEmpty < s.1) (fun s => q.size - s.1) .stray ?_ (q.size + 1)
    (q.front, []) h (by simp only; omega), error_bind]
  intro s hs
  refine ⟨decide_eq_true (by omega), ?_⟩
  rcases Nat.lt_or_ge s.1 q.size with hlt | hge
  · refine .inr ⟨(s.1 + 1, s.2 ++ [q.items[s.1]]), ?_, ?_, ?_⟩
    · rw [cell_eq_ok.mpr (List.getElem?_eq_getElem hlt), ok_bind]
    · exact Nat.lt_succ_of_lt hs
    · simp only
      omega
  · refine .inl ?_
    unfold Queue.cell
    rw [List.getElem?_eq_none hge, error_bind]

end Cells

variable {α : Type} [Zero α] [DecidableEq α]

section Calls
variable {q q' : Queue α}

theorem queuePush_ok {x : α} {b : Bool} (h : queuePush q x = .ok (b, q')) :
    q' = q ∨ (x ≠ 0 ∧ q.nextEmpty < q.size ∧ q' = ⟨q.items.set q.nextEmpty x, q.front, q.nextEmpty + 1⟩) := by
  unfold queuePush at h
  split_ifs at h with hx
  · cases h
    exact .inl rfl
  · simp only [bind_eq_ok] at h
    obtain ⟨full, -, h⟩ := h
    split_ifs at h
    · cases h
      exact .inl rfl
    · simp only [bind_eq_ok, setCell_eq_ok, Except.ok.injEq, Prod.mk.injEq] at h
      obtain ⟨p, ⟨hn, rfl⟩, -, rfl⟩ := h
      exact .inr ⟨hx, hn, rfl⟩

theorem queueStep_pop_eq_ok {r : Fifo.Res α} :
    queueStep q .pop = .ok (r, q') ↔
      ∃ x, q.items[q.front]? = some x ∧ r = .item x ∧ q' = ⟨q.items.set q.front 0, q.front + 1, q.nextEmpty⟩ := by
  simp only [queueStep, bind_eq_ok, Except.ok.injEq, Prod.mk.injEq]
  constructor
  · rintro ⟨⟨x, p⟩, hpop, rfl, rfl⟩
    obtain ⟨hx, rfl⟩ := queuePop_eq_ok.mp hpop
    exact ⟨x, hx, rfl, rfl⟩
  · rintro ⟨x, hx, rfl, rfl⟩
    exact ⟨_, queuePop_eq_ok.mpr ⟨hx, rfl⟩, rfl, rfl⟩

/-- **One call** leaves the queue as it is, fills the cell at `nextEmpty`, or clears the cell at `front`. -/
theorem queueStep_cases {op : Fifo.Op α} {r : Fifo.Res α} (h : queueStep q op = .ok (r, q')) :
    q' = q ∨
    (∃ x ≠ 0, q.nextEmpty < q.size ∧ q' = ⟨q.items.set q.nextEmpty x, q.front, q.nextEmpty + 1⟩) ∨
    (q.front < q.size ∧ q' = ⟨q.items.set q.front 0, q.front + 1, q.nextEmpty⟩) := by
  cases op with
  | push x =>
    simp only [queueStep, bind_eq_ok, Except.ok.injEq, Prod.mk.injEq] at h
    obtain ⟨⟨b, p⟩, hpush, -, rfl⟩ := h
    rcases queuePush_ok hpush with rfl | ⟨hx, hn, rfl⟩
    · exact .inl rfl
    · exact .inr (.inl ⟨x, hx, hn, rfl⟩)
  | pop =>
    obtain ⟨x, hx, -, rfl⟩ := queueStep_pop_eq_ok.mp h
    exact .inr (.inr ⟨(List.getElem?_eq_some_iff.mp hx).1, rfl⟩)
  | peek | length | isEmpty | isFull | iterate =>
    simp only [queueStep, bind_eq_ok, Except.ok.injEq, Prod.mk.injEq] at h
    obtain ⟨-, -, -, rfl⟩ := h
    exact .inl rfl

end Calls

/-! ## The indices -/

/-- From `front` on, the free cells are those from `nextEmpty` on. -/
structure Indexed (cap : Nat) (q : Queue α) : Prop where
  size : q.size = cap
  free : ∀ i < cap, q.front ≤ i → (q.items[i]? = some 0 ↔ q.nextEmpty ≤ i)

omit [DecidableEq α] in
theorem indexed_create {size : Nat} {q : Queue α} (h : queueCreate size true true = some q) : Indexed size q := by
  cases h
  exact ⟨by simp [Queue.size], fun i hi _ => by simp [hi]⟩

theorem queueStep_indexed {cap : Nat} {q q' : Queue α} {op : Fifo.Op α} {r : Fifo.Res α} (h : Indexed cap q)
    (hstep : queueStep q op = .ok (r, q')) : Indexed cap q' := by
  have hlen : q.items.length = cap := h.size
  rcases queueStep_cases hstep with rfl | ⟨x, hx, hn, rfl⟩ | ⟨hf, rfl⟩
  · exact h
  · refine ⟨by simpa [Queue.size] using h.size, fun i hi hfi => ?_⟩
    simp only [List.getElem?_set]
    by_cases hni : q.nextEmpty = i
    · -- the item itself: its cell is no longer free, and lies before the new index
      rw [if_pos hni, if_pos (by omega), Option.some.injEq]
      exact iff_of_false hx (by omega)
    · rw [if_neg hni, h.free i hi hfi]
      omega
  · refine ⟨by simpa [Queue.size] using h.size, fun i hi hfi => ?_⟩
    simp only at hfi
    rw [List.getElem?_set_ne (by omega)]
    exact h.free i hi (by omega)

/-- **The invariant**, in every state that a run reaches. -/
theorem run_indexed {size : Nat} {q₀ q : Queue α} (hcreate : queueCreate size true true = some q₀)
    {ops : List (Fifo.Op α)} {rs : List (Fifo.Res α)} (hrun : queueMachine.run q₀ ops = .ok (rs, q)) :
    Indexed size q :=
  queueMachine.run_inv (Indexed size) (fun _ _ _ _ h hs => queueStep_indexed h hs) ops q₀ rs q hrun
    (indexed_create hcreate)

theorem front_of_isEmpty {q : Queue α} (h : queueIsEmpty q = .ok true) (hf : q.front < q.size) :
    q.items[q.front]? = some 0 := by
  simp only [queueIsEmpty, bind_eq_ok, Except.ok.injEq, decide_eq_true_eq] at h
  obtain ⟨n, hn, rfl⟩ := h
  simp only [queueLength, bind_eq_ok, cell_eq_ok] at hn
  obtain ⟨x, hx, hn⟩ := hn
  split_ifs at hn with h0 hgt heq
  · rw [hx, h0]
  all_goals
    rw [Except.ok.injEq] at hn
    omega

/-! ## Runs on an empty queue -/

def queueResults (q : Queue α) (ops : List (Fifo.Op α)) : Exec (List (Fifo.Res α)) := do
  let r ← queueMachine.run q ops
  .ok r.1

theorem queueResults_of_run {q q' : Queue α} {ops : List (Fifo.Op α)} {rs : List (Fifo.Res α)}
    (h : queueMachine.run q ops = .ok (rs, q')) : queueResults q ops = .ok rs := by
  unfold queueResults
  rw [h, ok_bind]

theorem push_step {q : Queue α} (h : q.items[q.front]? = some 0) (hn : q.nextEmpty ≤ q.front) {x : α} (hx : x ≠ 0) :
    queueStep q (.push x) = .ok (.flag true, ⟨q.items.set q.nextEmpty x, q.front, q.nextEmpty + 1⟩) := by
  have hf : q.front < q.size := (List.getElem?_eq_some_iff.mp h).1
  have hlen : queueLength q = .ok 0 := by
    unfold queueLength
    rw [cell_eq_ok.mpr h, ok_bind, if_pos rfl]
  have hfull : queueIsFull q = .ok false := by
    unfold queueIsFull
    rw [hlen, ok_bind, decide_eq_false (by omega)]
  have hset : q.setCell q.nextEmpty x = .ok ⟨q.items.set q.nextEmpty x, q.front, q.nextEmpty⟩ :=
    setCell_eq_ok.mpr ⟨by omega, rfl⟩
  simp only [queueStep, queuePush, if_neg hx, hfull, hset, ok_bind, Bool.false_eq_true, if_false]

theorem push_stray {q : Queue α} (h : q.size ≤ q.front) {x : α} (hx : x ≠ 0) :
    queueStep q (.push x) = .error .stray := by
  have hcell : q.cell q.front = .error .stray := by
    unfold Queue.cell
    rw [List.getElem?_eq_none h]
  simp only [queueStep, queuePush, if_neg hx, queueIsFull, queueLength, hcell, error_bind]

/-- Pushes that stay behind `front` are all accepted, and the queue goes on saying that it is empty. -/
theorem run_pushes {x : α} (hx : x ≠ 0) : ∀ (m : Nat) (q : Queue α), q.items[q.front]? = some 0 →
    q.nextEmpty + m ≤ q.front → ∃ p, queueMachine.run q (List.replicate m (.push x)) =
      .ok (List.replicate m (.flag true), p) ∧ p.items[p.front]? = some 0 ∧ p.front = q.front ∧
      p.nextEmpty = q.nextEmpty + m := by
  intro m
  induction m with
  | zero => exact fun q h _ => ⟨q, rfl, h, rfl, rfl⟩
  | succ m ih =>
    intro q h hm
    obtain ⟨p, hp, hfree, hf, hn⟩ := ih ⟨q.items.set q.nextEmpty x, q.front, q.nextEmpty + 1⟩
      (by simpa only [List.getElem?_set_ne (show q.nextEmpty ≠ q.front by omega)] using h) (by simp only; omega)
    exact ⟨p, (queueMachine.run_cons_ok).mpr ⟨_, _, _, push_step h (by omega) hx, hp, rfl⟩, hfree, hf, by
      simp only at hn; omega⟩

/-- One more item, and a pop: it returns the item only if that went to the cell at `front`. -/
theorem run_push_pop {q : Queue α} (h : q.items[q.front]? = some 0) (hn : q.nextEmpty ≤ q.front) {x : α}
    (hx : x ≠ 0) : ∃ p, queueMachine.run q [.push x, .pop] =
      .ok ([.flag true, .item (if q.nextEmpty = q.front then x else 0)], p) := by
  have hf : q.front < q.items.length := (List.getElem?_eq_some_iff.mp h).1
  have hcell : (q.items.set q.nextEmpty x)[q.front]? = some (if q.nextEmpty = q.front then x else 0) := by
    rw [List.getElem?_set]
    split_ifs with heq hlt
    · rfl
    · omega
    · exact h
  exact ⟨_, (queueMachine.run_cons_ok).mpr ⟨_, _, _, push_step h hn hx, (queueMachine.run_cons_ok).mpr
    ⟨_, _, [], queueStep_pop_eq_ok.mpr ⟨_, hcell, rfl, rfl⟩, rfl, rfl⟩, rfl⟩⟩

theorem run_pushes_pop {q : Queue α} (h : q.items[q.front]? = some 0) {m : Nat} (hm : q.nextEmpty + m ≤ q.front)
    {x : α} (hx : x ≠ 0) : ∃ p, queueMachine.run q (List.replicate m (.push x) ++ [.push x, .pop]) =
      .ok (List.replicate m (.flag true) ++ [.flag true, .item (if q.nextEmpty + m = q.front then x else 0)], p) := by
  obtain ⟨p, hpushes, hfree, hf, hn⟩ := run_pushes hx m q h hm
  obtain ⟨p', hlast⟩ := run_push_pop hfree (by omega) hx
  rw [hn, hf] at hlast
  exact ⟨p', queueMachine.run_append_ok hpushes hlast⟩

/-- Pops stay inside `items` for as many cells as there are from `front` on. -/
theorem run_pops_iff : ∀ (n : Nat) (q : Queue α), q.front ≤ q.size →
    ((∃ rs p, queueMachine.run q (List.replicate n .pop) = .ok (rs, p)) ↔ q.front + n ≤ q.size) := by
  intro n
  induction n with
  | zero => exact fun q hf => iff_of_true ⟨[], q, rfl⟩ hf
  | succ n ih =>
    intro q hf
    have hsize : (⟨q.items.set q.front 0, q.front + 1, q.nextEmpty⟩ : Queue α).size = q.size := List.length_set
    rw [List.replicate_succ]
    constructor
    · rintro ⟨rs, p, hrun⟩
      obtain ⟨r, u, rs', hs, hr, -⟩ := (queueMachine.run_cons_ok).mp hrun
      obtain ⟨x, hx, -, rfl⟩ := queueStep_pop_eq_ok.mp hs
      have hlt : q.front < q.size := (List.getElem?_eq_some_iff.mp hx).1
      have := (ih _ (by rw [hsize]; exact hlt)).mp ⟨rs', p, hr⟩
      simp only [hsize] at this
      omega
    · intro hn
      have hlt : q.front < q.size := by omega
      obtain ⟨rs, p, hr⟩ := (ih _ (by rw [hsize]; exact hlt)).mpr (by simp only [hsize]; omega)
      exact ⟨_, p, (queueMachine.run_cons_ok).mpr
        ⟨_, _, rs, queueStep_pop_eq_ok.mpr ⟨_, List.getElem?_eq_getElem hlt, rfl, rfl⟩, hr, rfl⟩⟩

/-! ## The pop of an empty queue -/

/-- The pop of `q` returns `NULL`, and every further run of calls gives the same results with that pop made and
without it. -/
def PopUnobservable (q : Queue α) : Prop :=
  ∃ q', queuePop q = .ok (0, q') ∧ ∀ more, queueResults q' more = queueResults q more

/-- The pop of the empty queue `q` leaves `q'`: `front` is past `nextEmpty`, in a free cell if any is left. -/
structure EmptyPop (cap : Nat) (q q' : Queue α) : Prop where
  pop : queuePop q = .ok (0, q')
  size : q.size = cap
  size' : q'.size = cap
  front : q'.front = q.front + 1
  inside : q.front < cap
  next : q'.nextEmpty = q.nextEmpty
  reached : q.nextEmpty ≤ q.front
  free : q.items[q.front]? = some 0
  free' : q'.front < cap → q'.items[q'.front]? = some 0

theorem Indexed.emptyPop {cap : Nat} {q : Queue α} (h : Indexed cap q) (hempty : queueIsEmpty q = .ok true)
    (hf : q.front < cap) : ∃ q', EmptyPop cap q q' := by
  have hfree : q.items[q.front]? = some 0 := front_of_isEmpty hempty (by rw [h.size]; exact hf)
  have hreached : q.nextEmpty ≤ q.front := (h.free _ hf (Nat.le_refl _)).mp hfree
  have h' := queueStep_indexed h (queueStep_pop_eq_ok.mpr ⟨0, hfree, rfl, rfl⟩)
  exact ⟨_, queuePop_eq_ok.mpr ⟨hfree, rfl⟩, h.size, h'.size, rfl, hf, rfl, hreached, hfree, fun hlt =>
    (h'.free _ hlt (Nat.le_refl _)).mpr (Nat.le_succ_of_le hreached)⟩

namespace EmptyPop
variable {cap : Nat} {q q' : Queue α} {x : α}

/-- With the pop made, one pop for each cell that was left goes outside `items`. -/
theorem not_unobservable (h : EmptyPop cap q q') : ¬ PopUnobservable q := by
  rintro ⟨q₁, hpop, hsame⟩
  obtain rfl : q' = q₁ := by
    rw [h.pop] at hpop
    cases hpop
    rfl
  have hsize := h.size
  have hsize' := h.size'
  have hfront := h.front
  have hinside := h.inside
  obtain ⟨rs, p, hin⟩ := (run_pops_iff (cap - q.front) q (by omega)).mpr (by omega)
  have hres := hsame (List.replicate (cap - q.front) .pop)
  rw [queueResults_of_run hin] at hres
  obtain ⟨⟨rs', p'⟩, hout, -⟩ := bind_eq_ok.mp hres
  have := (run_pops_iff (cap - q.front) q' (by omega)).mp ⟨rs', p', hout⟩
  omega

omit [DecidableEq α] in
theorem iterate_stray (h : EmptyPop cap q q') : queueIterate q' = .error .stray := by
  apply queueIterate_passed
  rw [h.next, h.front]
  exact Nat.lt_succ_of_le h.reached

theorem push_lost (h : EmptyPop cap q q') (hx : x ≠ 0) :
    queueResults q' [.push x, .pop] ≠ .ok [.flag true, .item x] := by
  have hlt : q'.nextEmpty < q'.front := by
    rw [h.next, h.front]
    exact Nat.lt_succ_of_le h.reached
  rcases Nat.lt_or_ge q'.front cap with hroom | hend
  · obtain ⟨p, hrun⟩ := run_push_pop (h.free' hroom) hlt.le hx
    rw [queueResults_of_run hrun, if_neg hlt.ne]
    simp [Ne.symm hx]
  · have hstray : queueStep q' (.push x) = .error .stray := push_stray (by rw [h.size']; exact hend) hx
    simp [queueResults, Machine.run, queueMachine, hstray]

/-- Where a cell is left, pushes up to `front` and a pop tell the two queues apart: without the extra pop, the last
item is the one that is returned. -/
theorem differs (h : EmptyPop cap q q') (hroom : q.front + 1 < cap) (hx : x ≠ 0) :
    ∃ more rs₁ rs₂, queueResults q more = .ok rs₁ ∧ queueResults q' more = .ok rs₂ ∧ rs₁ ≠ rs₂ := by
  have hreached := h.reached
  have hnext := h.next
  have hfront := h.front
  obtain ⟨p₁, hrun₁⟩ := run_pushes_pop h.free (m := q.front - q.nextEmpty) (by omega) hx
  obtain ⟨p₂, hrun₂⟩ := run_pushes_pop (h.free' (by omega)) (m := q.front - q.nextEmpty) (by omega) hx
  refine ⟨_, _, _, queueResults_of_run hrun₁, queueResults_of_run hrun₂, ?_⟩
  rw [if_pos (by omega), if_neg (by omega)]
  simp [hx]

end EmptyPop

/-- **A pop of the empty queue never goes unnoticed**, in no state that a run reaches. It returns `NULL`, but then the
iteration does not end inside `items`, an item pushed next is not popped next, and, unless `front` was at the last
cell, a run inside `items` returns other results than it would have without the pop. -/
theorem popUnobservable_never {size : Nat} {q₀ q : Queue α} (hcreate : queueCreate size true true = some q₀)
    {ops : List (Fifo.Op α)} {rs : List (Fifo.Res α)} (hrun : queueMachine.run q₀ ops = .ok (rs, q))
    (hempty : queueIsEmpty q = .ok true) (hfront : q.front < size) :
    ¬ PopUnobservable q ∧ ∃ q', queuePop q = .ok (0, q') ∧ queueIterate q' = .error .stray ∧ ∀ x ≠ 0,
      queueResults q' [.push x, .pop] ≠ .ok [.flag true, .item x] ∧
      (q.front + 1 < size → ∃ more rs₁ rs₂, queueResults q more = .ok rs₁ ∧ queueResults q' more = .ok rs₂ ∧
        rs₁ ≠ rs₂) := by
  obtain ⟨q', h⟩ := (run_indexed hcreate hrun).emptyPop hempty hfront
  exact ⟨h.not_unobservable, q', h.pop, h.iterate_stray, fun x hx => ⟨h.push_lost hx, fun hroom => h.differs hroom hx⟩⟩

theorem popUnobservable_never_three :
    ¬ PopUnobservable (⟨[0, 0, 0], 1, 1⟩ : Queue Nat) ∧ ∃ q', queuePop (⟨[0, 0, 0], 1, 1⟩ : Queue Nat) = .ok (0, q') ∧
      queueIterate q' = .error .stray ∧ ∀ x ≠ 0, queueResults q' [.push x, .pop] ≠ .ok [.flag true, .item x] ∧
      (1 + 1 < 3 → ∃ more rs₁ rs₂, queueResults (⟨[0, 0, 0], 1, 1⟩ : Queue Nat) more = .ok rs₁ ∧
        queueResults q' more = .ok rs₂ ∧ rs₁ ≠ rs₂) :=
  popUnobservable_never (show queueCreate 3 true true = some (⟨[0, 0, 0], 0, 0⟩ : Queue Nat) from rfl)
    (show queueMachine.run ⟨[0, 0, 0], 0, 0⟩ [.push 7, .pop] = .ok (_, _) from rfl) (by decide) (by decide)

/-- A pop of a new queue of 3 loses the item that is pushed next. -/
theorem popUnobservable_fails_new :
    queueCreate 3 true true = some (⟨[0, 0, 0], 0, 0⟩ : Queue Nat) ∧
    queueIsEmpty (⟨[0, 0, 0], 0, 0⟩ : Queue Nat) = .ok true ∧
    queueResults (⟨[0, 0, 0], 0, 0⟩ : Queue Nat) [.pop, .push 7, .length, .pop] =
      .ok [.item 0, .flag true, .len 0, .item 0] ∧
    queueResults (⟨[0, 0, 0], 0, 0⟩ : Queue Nat) [.push 7, .length, .pop] = .ok [.flag true, .len 1, .item 7] ∧
    ¬ PopUnobservable (⟨[0, 0, 0], 0, 0⟩ : Queue Nat) := by
  refine ⟨rfl, by decide, by decide, by decide, ?_⟩
  rintro ⟨q', hpop, hsame⟩
  cases hpop
  exact absurd (hsame [.push 7, .pop]) (by decide)

end MooseOS
