import MooseOS.Queue.Refine

/-!
# The capacity of the bounded queue

Neither index ever wraps, so `nextEmpty` counts the items accepted over the life of the queue.
`ringSafe_iff` : a run that ends in `queueDelete` stays inside `items`, and accepts what it has room for, if and
only if it pushes fewer than `size` items in total.
-/

namespace MooseOS
open Prog

variable {α : Type} [Zero α] [DecidableEq α]

/-- A run of calls, and then `queueDelete`: the results and the items deleted. -/
def runThenDelete (q : Queue α) (ops : List (Fifo.Op α)) : Exec (List (Fifo.Res α) × List α) := do
  let r ← queueMachine.run q ops
  let deleted ← queueDelete r.2
  .ok (r.1, deleted)

/-- The queue is a ring of `size` cells on this run: no access leaves `items`, and a push made while the abstract
queue holds fewer than `size` items is accepted and stored in a free cell. -/
structure RingSafe (size : Nat) (q₀ : Queue α) (ops : List (Fifo.Op α)) : Prop where
  inside : runThenDelete q₀ ops ≠ .error .stray
  accepted : ∀ pre x post, ops = pre ++ .push x :: post → ∀ rs xs, (Fifo.bounded size).run [] pre = .ok (rs, xs) →
    xs.length < size → ∃ rs' q q', queueMachine.run q₀ pre = .ok (rs', q) ∧ queuePush q x = .ok (true, q') ∧
      q.items[q.nextEmpty]? = some 0 ∧ q'.items = q.items.set q.nextEmpty x

/-! ## Deleting -/

theorem queueIsEmpty_spec {q : Queue α} {cap : Nat} {xs : List α} (h : Holds q cap xs) (hf : q.front < cap) :
    queueIsEmpty q = .ok xs.isEmpty := by
  cases xs <;> simp [queueIsEmpty, queueLength_spec h hf]
  omega

/-- The loop of `queueDelete` takes all items out; its last test then looks at the cell after them. -/
theorem deleteLoop_spec {cap : Nat} : ∀ (xs : List α) (q : Queue α) (deleted : List α) (fuel : Nat),
    Holds q cap xs → xs.length < fuel →
    (q.nextEmpty < cap → ∃ q', whileLoop (fun s : Deleting α => !s.empty) deleteTurn fuel ⟨q, deleted, xs.isEmpty⟩ =
      .ok ⟨q', deleted ++ xs, true⟩) ∧
    (q.nextEmpty = cap → xs ≠ [] →
      whileLoop (fun s : Deleting α => !s.empty) deleteTurn fuel ⟨q, deleted, xs.isEmpty⟩ = .error .stray) := by
  intro xs
  induction xs with
  | nil =>
    intro q deleted fuel _ hfuel
    refine ⟨fun _ => ⟨q, ?_⟩, fun _ hne => absurd rfl hne⟩
    rw [whileLoop_done _ _ (by simp) (by omega)]
    simp
  | cons x xs ih =>
    intro q deleted fuel h hfuel
    obtain ⟨n, rfl⟩ : ∃ n, fuel = n + 1 := ⟨fuel - 1, by omega⟩
    have hlen : xs.length < n := by
      simp only [List.length_cons] at hfuel
      omega
    have hpop := holds_pop h
    have hnext : q.nextEmpty = q.front + 1 + xs.length := hpop.next
    rcases Nat.lt_or_ge (q.front + 1) cap with hf | hf
    · have hturn : deleteTurn ⟨q, deleted, (x :: xs).isEmpty⟩ =
          .ok ⟨⟨q.items.set q.front 0, q.front + 1, q.nextEmpty⟩, deleted ++ [x], xs.isEmpty⟩ := by
        unfold deleteTurn
        simp only [queuePop_spec h, ok_bind, queueIsEmpty_spec hpop hf]
      obtain ⟨ih₁, ih₂⟩ := ih ⟨q.items.set q.front 0, q.front + 1, q.nextEmpty⟩ (deleted ++ [x]) n hpop hlen
      refine ⟨fun hc => ?_, fun hc _ => ?_⟩
      · rw [whileLoop_turn _ _ (by simp) hturn]
        simpa using ih₁ hc
      · rw [whileLoop_turn _ _ (by simp) hturn]
        refine ih₂ hc fun hnil => ?_
        rw [hnil] at hnext
        simp only [List.length_nil] at hnext
        omega
    · refine ⟨fun hc => by omega, fun _ _ => ?_⟩
      have hturn : deleteTurn ⟨q, deleted, (x :: xs).isEmpty⟩ = .error .stray := by
        simp [deleteTurn, queuePop_spec h, queueIsEmpty, queueLength_stray hpop hf]
      rw [whileLoop, if_pos (by simp), hturn]
      rfl

/-- `queueDelete` deletes the items in order, unless the last of them is in the last cell of the block. -/
theorem queueDelete_spec {q : Queue α} {cap : Nat} {xs : List α} (h : Holds q cap xs) :
    (q.nextEmpty < cap → queueDelete q = .ok xs) ∧ (q.nextEmpty = cap → queueDelete q = .error .stray) := by
  have hn := h.next
  have hfit := h.fits
  have hfuel : xs.length < q.size + 1 := by rw [h.size]; omega
  obtain ⟨h₁, h₂⟩ := deleteLoop_spec xs q [] (q.size + 1) h hfuel
  constructor
  · intro hc
    obtain ⟨q', hq'⟩ := h₁ hc
    simp [queueDelete, queueIsEmpty_spec h (show q.front < cap by omega), hq']
  · intro hc
    rcases Nat.lt_or_ge q.front cap with hf | hf
    · have hne : xs ≠ [] := by
        rintro rfl
        simp only [List.length_nil] at hn
        omega
      simp [queueDelete, queueIsEmpty_spec h hf, h₂ hc hne]
    · simp [queueDelete, queueIsEmpty, queueLength_stray h hf]

/-! ## Runs -/

theorem runThenDelete_spec {size : Nat} {q₀ : Queue α} (hcreate : queueCreate size true true = some q₀)
    {ops : List (Fifo.Op α)} {rs : List (Fifo.Res α)} {xs : List α}
    (hfifo : (Fifo.bounded size).run [] ops = .ok (rs, xs)) :
    ((ops.map offers).sum < size → runThenDelete q₀ ops = .ok (rs, xs)) ∧
    (size ≤ (ops.map offers).sum → runThenDelete q₀ ops = .error .stray) := by
  have hnext : q₀.nextEmpty = 0 := by cases hcreate; rfl
  rcases run_holds ops q₀ [] xs rs (holds_create hcreate) hfifo with ⟨he, hc⟩ | ⟨q, he, h, hq⟩
  · exact ⟨fun hlt => by omega, fun _ => by simp [runThenDelete, he]⟩
  · obtain ⟨hok, hstray⟩ := queueDelete_spec h
    exact ⟨fun hlt => by simp [runThenDelete, he, hok (by omega)],
      fun hge => by simp [runThenDelete, he, hstray (by omega)]⟩

/-- **The queue is a ring exactly while it is never used up.** A run of calls that pushes no `NULL` and never pops
an empty queue, followed by `queueDelete`, is safe if and only if it pushes fewer than `size` items. -/
theorem ringSafe_iff {size : Nat} {q₀ : Queue α} (hcreate : queueCreate size true true = some q₀)
    {ops : List (Fifo.Op α)} (hnull : .push 0 ∉ ops) {rs : List (Fifo.Res α)} {xs : List α}
    (hfifo : (Fifo.bounded size).run [] ops = .ok (rs, xs)) :
    RingSafe size q₀ ops ↔ (ops.map offers).sum < size := by
  obtain ⟨hok, hstray⟩ := runThenDelete_spec hcreate hfifo
  constructor
  · intro h
    by_contra hge
    exact h.inside (hstray (by omega))
  · intro hlt
    refine ⟨by rw [hok hlt]; simp, ?_⟩
    rintro pre x post rfl rs' ys hpre hroom
    have hx : x ≠ 0 := by
      rintro rfl
      exact hnull (by simp)
    have hsum : (pre.map offers).sum + 1 ≤ size := by
      simp only [List.map_append, List.map_cons, List.sum_append, List.sum_cons] at hlt
      have : offers (Fifo.Op.push x) = 1 := by simp [offers, hx]
      omega
    have hnext : q₀.nextEmpty = 0 := by cases hcreate; rfl
    rcases run_holds pre q₀ [] ys rs' (holds_create hcreate) hpre with ⟨-, hc⟩ | ⟨q, he, h, hq⟩
    · omega
    · rcases queuePush_spec h hx with ⟨-, hc⟩ | ⟨-, hc⟩ | ⟨hpush, hc, -⟩
      · omega
      · omega
      · refine ⟨rs', q, _, he, hpush, ?_, rfl⟩
        have hn := h.next
        rw [h.cells _ hc, if_pos (by omega), List.getD_eq_default _ _ (by omega)]

theorem ringSafe_iff_three :
    RingSafe 3 (⟨[0, 0, 0], 0, 0⟩ : Queue Nat) [.push 7, .peek, .pop, .push 8, .length, .isFull] ↔
      ([.push 7, .peek, .pop, .push 8, .length, .isFull].map (offers (α := Nat))).sum < 3 :=
  ringSafe_iff rfl (by simp) rfl

/-- The calls of the repository's own test (without its iteration) fill the last cell of a queue of 5, and
`queueDelete` then reads the cell after it. -/
theorem ringSafe_fails_five :
    runThenDelete (⟨[0, 0, 0, 0, 0], 0, 0⟩ : Queue Nat) [.isEmpty, .push 1, .push 2, .isEmpty, .isFull, .length, .peek,
      .pop, .push 3, .push 4, .push 5] = .error .stray ∧
    ¬ RingSafe 5 (⟨[0, 0, 0, 0, 0], 0, 0⟩ : Queue Nat) [.isEmpty, .push 1, .push 2, .isEmpty, .isFull, .length, .peek,
      .pop, .push 3, .push 4, .push 5] :=
  ⟨by decide, fun h => h.inside (by decide)⟩

end MooseOS
