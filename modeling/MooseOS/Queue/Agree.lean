import MooseOS.Queue.LinkedListRefine
import MooseOS.Queue.Refine

/-!
# Either queue

The two queues have the same calls, but for `queueLength` and `queueIsFull`. A client that never pops an empty queue
and offers fewer items than the bounded one has cells cannot tell them apart, where `malloc` never fails and the links
that are followed were written.

* `LinkedOp.bounded`, `LinkedRes.bounded` : the call and its result as those of the bounded queue;
* `bounded_eq_fifo` : with room for all items, a bounded FIFO answers like an unbounded one;
* `queues_agree` : so do the two queues.
-/

namespace MooseOS
open Prog

variable {α : Type} [Zero α] [DecidableEq α]

/-- The call of the bounded queue. -/
def LinkedOp.bounded : LinkedOp α → Fifo.Op α
  | .push value _ => .push value
  | .pop => .pop
  | .peek => .peek
  | .isEmpty => .isEmpty
  | .iterate => .iterate

/-- Its result: 0 is `true`. -/
def LinkedRes.bounded : LinkedRes α → Fifo.Res α
  | .code rc => .flag (decide (rc = 0))
  | .value x => .item x
  | .flag b => .flag b
  | .visited xs => .visited xs

/-- A push has memory, and a pop an item. -/
def Answerable (xs : List α) : LinkedOp α → Prop
  | .push _ malloc => malloc.isSome = true
  | .pop => xs ≠ []
  | _ => True

section Agree
variable {cap : Nat} {xs : List α}

/-- **One call** of a bounded FIFO with room for what is offered. -/
theorem boundedStep_eq {op : LinkedOp α} (hop : Answerable xs op) (hroom : xs.length + offers op.bounded ≤ cap) :
    ∃ r ys, fifoStep xs op = .ok (r, ys) ∧ (Fifo.bounded cap).step xs op.bounded = .ok (r.bounded, ys) ∧
      ys.length ≤ xs.length + offers op.bounded := by
  cases op with
  | push value malloc =>
    simp only [Answerable] at hop
    simp only [LinkedOp.bounded, offers] at hroom ⊢
    by_cases hv : value = 0
    · refine ⟨_, _, rfl, ?_, ?_⟩
      · simp [Fifo.bounded, Fifo.boundedStep, Fifo.push, hv, LinkedRes.bounded]
      · simp [Fifo.push, hv]
    · rw [if_pos hv] at hroom ⊢
      refine ⟨_, _, rfl, ?_, ?_⟩
      · simp only [Fifo.bounded, Fifo.boundedStep, Fifo.push, hop, LinkedRes.bounded]
        rw [if_pos ⟨hv, by omega⟩, if_neg (by simp [hv])]
        rfl
      · simp [Fifo.push, hv, hop]
  | pop =>
    cases xs with
    | nil => exact absurd rfl hop
    | cons x xs => exact ⟨_, _, rfl, rfl, by simp [Fifo.pop]; omega⟩
  | peek => exact ⟨_, _, rfl, rfl, Nat.le_add_right _ _⟩
  | isEmpty => exact ⟨_, _, rfl, rfl, Nat.le_add_right _ _⟩
  | iterate => exact ⟨_, _, rfl, rfl, Nat.le_add_right _ _⟩

/-- What a client keeps to, and its allocator: a push gets a block of its own, a pop finds an item, and a link that is
followed is `NULL` or was written. -/
def ClientSafe (l : LinkedListQueue α) (xs : List α) (op : LinkedOp α) : Prop :=
  MallocFresh l xs op ∧ EndChecked l xs op ∧ Answerable xs op

theorem bounded_eq_fifo (cap : Nat) (ops : List (LinkedOp α)) : ∀ (l : LinkedListQueue α) (xs : List α), Lists l xs →
    Machine.Guarded linkedMachine fifoMachine ClientSafe l xs ops →
    xs.length + ((ops.map LinkedOp.bounded).map offers).sum ≤ cap →
    ∃ rs l' ys, linkedMachine.run l ops = .ok (rs, l') ∧
      (Fifo.bounded cap).run xs (ops.map LinkedOp.bounded) = .ok (rs.map LinkedRes.bounded, ys) := by
  induction ops with
  | nil => exact fun l xs _ _ _ => ⟨[], l, xs, rfl, rfl⟩
  | cons op ops ih =>
    intro l xs hl hE hroom
    obtain ⟨hm, hend, hop⟩ := hE.1
    simp only [List.map_cons, List.sum_cons] at hroom
    obtain ⟨r, l₁, xs₁, hs, ht, hl₁⟩ := linkedStep_lists hl hm hend
    obtain ⟨r', ys, ht', hb, hlen⟩ := boundedStep_eq hop (show xs.length + offers op.bounded ≤ cap by omega)
    cases ht.symm.trans ht'
    have hrest := (Machine.guarded_cons linkedMachine fifoMachine hs ht).mp hE
    obtain ⟨rs, l', zs, hrun, hbrun⟩ := ih l₁ xs₁ hl₁ hrest.2 (by omega)
    exact ⟨r :: rs, l', zs, (linkedMachine.run_cons_ok).mpr ⟨r, l₁, rs, hs, hrun, rfl⟩,
      ((Fifo.bounded cap).run_cons_ok).mpr ⟨_, xs₁, _, hb, hbrun, rfl⟩⟩

end Agree

/-- **Either queue will do.** For every run of a safe client that offers fewer items than the bounded queue has cells,
the calls of the linked-list queue and those of the bounded queue return the same results. -/
theorem queues_agree {size : Nat} {q₀ : Queue α} {l₀ : LinkedListQueue α}
    (hq : queueCreate size true true = some q₀) (hl : linkedListQueueCreate true = some l₀) (ops : List (LinkedOp α))
    (hsafe : Machine.Guarded linkedMachine fifoMachine ClientSafe l₀ [] ops)
    (hroom : ((ops.map LinkedOp.bounded).map offers).sum < size) :
    ∃ rs l q, linkedMachine.run l₀ ops = .ok (rs, l) ∧
      queueMachine.run q₀ (ops.map LinkedOp.bounded) = .ok (rs.map LinkedRes.bounded, q) := by
  obtain ⟨rs, l, ys, hrun, hbounded⟩ := bounded_eq_fifo size ops l₀ [] (lists_create hl) hsafe
    (by simp only [List.length_nil]; omega)
  have hnext : q₀.nextEmpty = 0 := by
    cases hq
    rfl
  rcases run_holds _ q₀ [] ys _ (holds_create hq) hbounded with ⟨-, hfull⟩ | ⟨q, hq', -⟩
  · omega
  · exact ⟨rs, l, q, hrun, hq'⟩

theorem queues_agree_three : ∃ rs l q,
    linkedMachine.run (⟨0, 0, fun _ => none⟩ : LinkedListQueue Nat)
        [.push 7 (some (16, ⟨0, 0, 0⟩)), .push 8 (some (32, ⟨0, 0, 0⟩)), .pop, .peek, .iterate] = .ok (rs, l) ∧
      queueMachine.run (⟨[0, 0, 0], 0, 0⟩ : Queue Nat)
        ([.push 7 (some (16, ⟨0, 0, 0⟩)), .push 8 (some (32, ⟨0, 0, 0⟩)), .pop, .peek, .iterate].map LinkedOp.bounded) =
          .ok (rs.map LinkedRes.bounded, q) := by
  refine queues_agree (show queueCreate 3 true true = some (⟨[0, 0, 0], 0, 0⟩ : Queue Nat) from rfl)
    (show linkedListQueueCreate true = some (⟨0, 0, fun _ => none⟩ : LinkedListQueue Nat) from rfl) _ ?_ (by decide)
  refine (Machine.guarded_cons _ _ rfl rfl).mpr ⟨⟨fun _ => ⟨by decide, rfl⟩, trivial, rfl⟩, ?_⟩
  refine (Machine.guarded_cons _ _ rfl rfl).mpr ⟨⟨fun _ => ⟨by decide, rfl⟩, trivial, rfl⟩, ?_⟩
  refine (Machine.guarded_cons _ _ rfl rfl).mpr ⟨⟨trivial, fun _ h => absurd h (by decide), List.cons_ne_nil _ _⟩, ?_⟩
  refine (Machine.guarded_cons _ _ rfl rfl).mpr ⟨⟨trivial, trivial, trivial⟩, ?_⟩
  refine (Machine.guarded_cons _ _ rfl rfl).mpr ⟨⟨trivial, fun _ node h => ?_, trivial⟩, trivial⟩
  cases h
  rfl

end MooseOS
