import MooseOS.Queue.LinkedListRefine

/-!
# The nodes of the linked-list queue

With a `malloc` that fills its blocks with zeros, the nodes of the queue are linked both ways, and they are the live
ones.

* `DoublyLinked q ns` : the nodes of `q` are `ns`;
* `Ledger` : the queue with the nodes that were allocated and freed so far;
* `linkedListQueueDelete_spec` : deleting passes on all values and frees all nodes;
* `linked_nodes_accounted` : over every run, each node that was allocated is in the queue or was freed, once.
-/

namespace MooseOS
open Prog

variable {α : Type}

/-- The nodes of the queue, linked both ways. -/
abbrev DoublyLinked (q : LinkedListQueue α) (ns : List (Word × LinkedListQueueItem α)) : Prop :=
  TwoWay q.heap LinkedListQueueItem.next LinkedListQueueItem.prev 0 q.front q.back ns

namespace DoublyLinked
variable {q : LinkedListQueue α} {ns : List (Word × LinkedListQueueItem α)}

theorem create (h : linkedListQueueCreate true = some q) : DoublyLinked q [] := by
  cases h
  exact TwoWay.empty _ _ _

theorem linked {x : Word × LinkedListQueueItem α} (h : DoublyLinked q (ns ++ [x])) :
    x.1 = q.back ∧ x.2.next = 0 ∧ Linked q ns x.2 := by
  have hback : x.1 = q.back := by simpa using h.back_eq.symm
  obtain ⟨hseg, hx, hnext⟩ := Seg.concat_iff.mp h.next
  have hnd := h.nodup
  have hnn := h.nonNull
  simp only [List.map_append, List.map_cons, List.map_nil, hback] at hnd hnn
  refine ⟨hback, hnext, by rw [← hback]; exact hseg, by rw [← hback]; exact hx, ?_, ?_⟩
  · exact (List.perm_append_singleton _ _).nodup_iff.mp hnd
  · simpa [or_comm] using hnn

theorem lists (h : DoublyLinked q ns) : Lists q (ns.map (·.2.value)) := by
  rcases List.eq_nil_or_concat ns with rfl | ⟨ms, x, rfl⟩
  · exact .inl ⟨rfl, h.front_eq_null.mpr rfl, h.back_eq_null.mpr rfl⟩
  · rw [List.concat_eq_append] at h ⊢
    exact .inr ⟨ms, x.2, h.linked.2.2, by simp⟩

theorem endsInNull (h : DoublyLinked q ns) (hne : q.front ≠ 0) : EndsInNull q := by
  rcases List.eq_nil_or_concat ns with rfl | ⟨ms, x, rfl⟩
  · exact absurd (h.front_eq_null.mpr rfl) hne
  · rw [List.concat_eq_append] at h
    exact h.linked.2.2.endsInNull_iff.mpr h.linked.2.1

theorem length_le (h : DoublyLinked q ns) : ns.length ≤ 2 ^ 32 := by
  rcases List.eq_nil_or_concat ns with rfl | ⟨ms, x, rfl⟩
  · exact Nat.zero_le _
  · rw [List.concat_eq_append] at h ⊢
    have := h.linked.2.2.length_lt
    simp only [List.length_append, List.length_singleton]
    omega

end DoublyLinked

variable [Zero α]

section Pop
variable {q : LinkedListQueue α} {ns : List (Word × LinkedListQueueItem α)}

/-- A pop takes the first node, frees it, and keeps the addresses and the values of the others. -/
theorem linkedListQueuePop_doublyLinked {x : Word × LinkedListQueueItem α} (h : DoublyLinked q (x :: ns)) :
    poppedNode q = [x.1] ∧ ∃ q' ns', linkedListQueuePop q = .ok (x.2.value, q') ∧ DoublyLinked q' ns' ∧
      ns'.map (·.2.value) = ns.map (·.2.value) ∧ ns'.map Prod.fst = ns.map Prod.fst := by
  obtain ⟨p, n⟩ := x
  obtain ⟨hfront, hx, hrest⟩ := h.next
  simp only at hfront hx hrest
  subst hfront
  have hf : q.front ≠ 0 := fun h0 => absurd (h.front_eq_null.mp h0) (by simp)
  refine ⟨if_neg hf, ?_⟩
  cases ns with
  | nil =>
    have hback : q.back = q.front := h.back_eq
    have hnext : n.next = 0 := hrest
    refine ⟨⟨0, 0, Function.update q.heap q.front none⟩, [], ?_, h.pop_only, rfl, rfl⟩
    unfold linkedListQueuePop
    simp only [if_neg hf, deref_some hx, ok_bind, hnext, if_true, hback]
  | cons y ns =>
    obtain ⟨hnext, hy, -⟩ := hrest
    have hnn := h.nonNull
    simp only [List.map_cons, List.mem_cons, not_or] at hnn
    have hfb : q.front ≠ q.back := by
      intro he
      have hnd := h.nodup
      rw [List.map_cons, List.nodup_cons] at hnd
      have hback := h.back_eq
      simp only [List.map_cons, List.getLastD_cons] at hback
      exact hnd.1 (he ▸ hback ▸ List.getLastD_mem_cons)
    have hpop := linkedListQueuePop_next hf hfb hx (by rw [hnext]; exact Ne.symm hnn.2.1) (by rw [hnext]; exact hy)
    refine ⟨_, (y.1, { y.2 with prev := 0 }) :: ns, hpop, ?_, rfl, rfl⟩
    rw [hnext]
    exact h.pop rfl rfl

end Pop

/-! ## Deleting -/

section Delete

theorem linkedDeleteLoop_spec : ∀ (n : Nat) (q : LinkedListQueue α) (ns : List (Word × LinkedListQueueItem α))
    (deleted : List α) (freed : List Word) (fuel : Nat), ns.length = n → n < fuel → DoublyLinked q ns →
    ∃ q', whileLoop (fun s : LinkedDeleting α => !linkedListQueueIsEmpty s.queue) linkedDeleteTurn fuel
        ⟨q, deleted, freed⟩ = .ok ⟨q', deleted ++ ns.map (·.2.value), freed ++ ns.map Prod.fst⟩ ∧
      DoublyLinked q' [] := by
  intro n
  induction n with
  | zero =>
    intro q ns deleted freed fuel hlen hfuel h
    obtain rfl := List.length_eq_zero_iff.mp hlen
    refine ⟨q, ?_, h⟩
    rw [whileLoop_done _ _ (by simp [h.lists.isEmpty]) hfuel]
    simp
  | succ n ih =>
    intro q ns deleted freed fuel hlen hfuel h
    obtain ⟨fuel, rfl⟩ : ∃ m, fuel = m + 1 := ⟨fuel - 1, by omega⟩
    obtain ⟨x, ns, rfl⟩ := List.exists_cons_of_length_eq_add_one hlen
    obtain ⟨hnode, q₁, ns₁, hpop, h₁, hvals, haddrs⟩ := linkedListQueuePop_doublyLinked h
    have hturn : linkedDeleteTurn ⟨q, deleted, freed⟩ = .ok ⟨q₁, deleted ++ [x.2.value], freed ++ [x.1]⟩ := by
      unfold linkedDeleteTurn
      simp only [hpop, ok_bind, hnode]
    have hlen₁ : ns₁.length = n := by
      have := congrArg List.length haddrs
      simp only [List.length_map, List.length_cons] at this hlen
      omega
    obtain ⟨q', hrun, h'⟩ := ih q₁ ns₁ (deleted ++ [x.2.value]) (freed ++ [x.1]) fuel hlen₁ (by omega) h₁
    refine ⟨q', ?_, h'⟩
    rw [whileLoop_turn _ _ (by simp [h.lists.isEmpty]) hturn, hrun, hvals, haddrs]
    simp

/-- `linkedListQueueDelete` ends, passes the values on in order, and frees the nodes, each once; none is left. -/
theorem linkedListQueueDelete_spec {q : LinkedListQueue α} {ns : List (Word × LinkedListQueueItem α)}
    (h : DoublyLinked q ns) : ∃ d, linkedListQueueDelete q = .ok d ∧ d.deleted = ns.map (·.2.value) ∧
      d.freed = ns.map Prod.fst ∧ ∀ a, d.queue.heap a = none := by
  obtain ⟨q', hrun, h'⟩ := linkedDeleteLoop_spec _ q ns [] [] (2 ^ 32 + 1) rfl (Nat.lt_succ_of_le h.length_le) h
  exact ⟨_, hrun, rfl, rfl, fun a => by simpa using (h'.live a).not⟩

end Delete

/-! ## Runs -/

variable [DecidableEq α]

theorem linkedListQueuePush_doublyLinked {q : LinkedListQueue α} {ns : List (Word × LinkedListQueueItem α)}
    (h : DoublyLinked q ns) {value : α} (hv : value ≠ 0) {a : Word} (ha : a ≠ 0) (hfree : q.heap a = none) :
    ∃ q' ns', linkedListQueuePush q value (some (a, ⟨0, 0, 0⟩)) = .ok (0, q') ∧ DoublyLinked q' ns' ∧
      ns'.map (·.2.value) = ns.map (·.2.value) ++ [value] ∧ ns'.map Prod.fst = ns.map Prod.fst ++ [a] := by
  rcases List.eq_nil_or_concat ns with rfl | ⟨ms, ⟨b, n⟩, rfl⟩
  · have hf : q.front = 0 := h.front_eq_null.mpr rfl
    refine ⟨⟨a, a, Function.update q.heap a (some ⟨0, 0, value⟩)⟩, [(a, ⟨0, 0, value⟩)], ?_,
      h.single ⟨0, 0, value⟩ ha rfl rfl, rfl, rfl⟩
    simp only [linkedListQueuePush, if_neg hv, if_pos hf]
  · rw [List.concat_eq_append] at h ⊢
    obtain ⟨rfl, -, hlinked⟩ := h.linked
    refine ⟨_, ms ++ [(q.back, { n with next := a })] ++ [(a, ⟨0, q.back, value⟩)],
      linkedListQueuePush_linked hlinked hv hfree ⟨0, 0, 0⟩, ?_, by simp, by simp⟩
    have hab := (hlinked.notMem_of_free hfree).1
    have hpush := h.push { n with next := a } ⟨0, q.back, value⟩ hfree ha rfl rfl rfl rfl
    unfold LinkedListQueue.pushed
    simp only [DoublyLinked]
    rwa [Function.update_comm hab, Function.update_idem]

/-- The queue with the nodes that its calls have allocated and freed so far, in order. -/
structure Ledger (α : Type) where
  queue : LinkedListQueue α
  allocated : List Word
  freed : List Word

def allocates : LinkedOp α → List Word
  | .push value (some blk) => if value = 0 then [] else [blk.1]
  | _ => []

def frees (q : LinkedListQueue α) : LinkedOp α → List Word
  | .pop => poppedNode q
  | _ => []

def ledgerStep (s : Ledger α) (op : LinkedOp α) : Exec (LinkedRes α × Ledger α) := do
  let r ← linkedStep s.queue op
  .ok (r.1, ⟨r.2, s.allocated ++ allocates op, s.freed ++ frees s.queue op⟩)

def ledgerMachine : Machine (Ledger α) (LinkedOp α) (LinkedRes α) := ⟨ledgerStep⟩

/-- `malloc` returns `NULL`, or a block disjoint from all live ones that is filled with zeros. -/
def MallocZeroed (s : Ledger α) (xs : List α) : LinkedOp α → Prop
  | .push value (some blk) => MallocFresh s.queue xs (.push value (some blk)) ∧ blk.2 = ⟨0, 0, 0⟩
  | _ => True

/-- The nodes `ns` are linked both ways and hold the values `xs`, and a node that was allocated is one of them or was
freed. -/
structure Accounted (s : Ledger α) (xs : List α) (ns : List (Word × LinkedListQueueItem α)) : Prop where
  linked : DoublyLinked s.queue ns
  values : ns.map (·.2.value) = xs
  nodes : s.allocated.Perm (s.freed ++ ns.map Prod.fst)

section Step
variable {s : Ledger α} {xs : List α} {ns : List (Word × LinkedListQueueItem α)}

theorem accounted_look (h : Accounted s xs ns) {op : LinkedOp α} {r : LinkedRes α}
    (hq : linkedStep s.queue op = .ok (r, s.queue)) (hf : fifoStep xs op = .ok (r, xs)) (ha : allocates op = [])
    (hfr : frees s.queue op = []) :
    ∃ r s' xs', ledgerStep s op = .ok (r, s') ∧ fifoStep xs op = .ok (r, xs') ∧ ∃ ns', Accounted s' xs' ns' := by
  refine ⟨r, s, xs, ?_, hf, ns, h⟩
  unfold ledgerStep
  simp only [hq, ok_bind, ha, hfr, List.append_nil]

theorem accounted_push (h : Accounted s xs ns) {value : α} {malloc : NodeBlock α}
    (hm : MallocZeroed s xs (.push value malloc)) :
    ∃ r s' xs', ledgerStep s (.push value malloc) = .ok (r, s') ∧ fifoStep xs (.push value malloc) = .ok (r, xs') ∧
      ∃ ns', Accounted s' xs' ns' := by
  obtain ⟨hlinked, hvals, hnodes⟩ := h
  by_cases hv : value = 0
  · refine accounted_look ⟨hlinked, hvals, hnodes⟩ (r := .code (-1)) ?_ ?_ ?_ rfl
    · simp only [linkedStep, linkedListQueuePush, if_pos hv, ok_bind]
    · simp [fifoStep, Fifo.push, hv]
    · cases malloc <;> simp [allocates, hv]
  cases malloc with
  | none =>
    refine accounted_look ⟨hlinked, hvals, hnodes⟩ (r := .code (-1)) ?_ ?_ rfl rfl
    · simp only [linkedStep, linkedListQueuePush, if_neg hv, ok_bind]
    · simp [fifoStep, Fifo.push]
  | some blk =>
    obtain ⟨a, bytes⟩ := blk
    obtain ⟨hfresh, rfl⟩ := hm
    obtain ⟨ha, hfree⟩ := hfresh hv
    obtain ⟨q', ns', hpush, hlinked', hvals', haddrs⟩ := linkedListQueuePush_doublyLinked hlinked hv ha hfree
    refine ⟨.code 0, ⟨q', s.allocated ++ [a], s.freed⟩, xs ++ [value], ?_, ?_, ns', hlinked', ?_, ?_⟩
    · unfold ledgerStep
      simp only [linkedStep, hpush, ok_bind, allocates, if_neg hv, frees, List.append_nil]
    · simp [fifoStep, Fifo.push, hv]
    · rw [hvals', hvals]
    · rw [haddrs, ← List.append_assoc]
      exact hnodes.append_right [a]

theorem accounted_pop (h : Accounted s xs ns) :
    ∃ r s' xs', ledgerStep s .pop = .ok (r, s') ∧ fifoStep xs .pop = .ok (r, xs') ∧ ∃ ns', Accounted s' xs' ns' := by
  obtain ⟨hlinked, rfl, hnodes⟩ := h
  cases ns with
  | nil =>
    have hf : s.queue.front = 0 := hlinked.front_eq_null.mpr rfl
    refine accounted_look ⟨hlinked, rfl, hnodes⟩ (r := .value 0) ?_ rfl rfl (if_pos hf)
    simp only [linkedStep, linkedListQueuePop, if_pos hf, ok_bind]
  | cons x ns =>
    obtain ⟨hnode, q', ns', hpop, hlinked', hvals', haddrs⟩ := linkedListQueuePop_doublyLinked hlinked
    refine ⟨.value x.2.value, ⟨q', s.allocated, s.freed ++ [x.1]⟩, ns.map (·.2.value), ?_, rfl, ns', hlinked', hvals',
      ?_⟩
    · unfold ledgerStep
      simp only [linkedStep, hpop, ok_bind, allocates, frees, hnode, List.append_nil]
    · simpa [haddrs] using hnodes

/-- **One call** keeps the account. -/
theorem ledgerStep_accounted (h : Accounted s xs ns) {op : LinkedOp α} (hm : MallocZeroed s xs op) :
    ∃ r s' xs', ledgerStep s op = .ok (r, s') ∧ fifoStep xs op = .ok (r, xs') ∧ ∃ ns', Accounted s' xs' ns' := by
  have hl : Lists s.queue xs := h.values ▸ h.linked.lists
  cases op with
  | push value malloc => exact accounted_push h hm
  | pop => exact accounted_pop h
  | peek => exact accounted_look h (by simp only [linkedStep, peek_lists hl, ok_bind]) rfl rfl rfl
  | isEmpty => exact accounted_look h (by simp only [linkedStep, hl.isEmpty]) rfl rfl rfl
  | iterate =>
    exact accounted_look h (by simp only [linkedStep, (iterate_lists hl).mpr h.linked.endsInNull, ok_bind])
      rfl rfl rfl

end Step

/-- **The nodes of the queue.** After any run with a `malloc` that returns `NULL` or zeros, `front` and `back` are
`NULL` together; the live nodes are linked both ways between them and hold the values of the list; every node that was
allocated is one of them or was freed, each once; and `linkedListQueueDelete` passes on these values in order and
frees these nodes, each once, which leaves none. -/
theorem linked_nodes_accounted {q₀ : LinkedListQueue α} (hcreate : linkedListQueueCreate true = some q₀)
    (ops : List (LinkedOp α))
    (hmalloc : Machine.Guarded ledgerMachine fifoMachine MallocZeroed ⟨q₀, [], []⟩ [] ops) :
    ∃ rs s xs ns, ledgerMachine.run ⟨q₀, [], []⟩ ops = .ok (rs, s) ∧ fifoMachine.run [] ops = .ok (rs, xs) ∧
      Accounted s xs ns ∧ (s.queue.front = 0 ↔ s.queue.back = 0) ∧
      ∃ d, linkedListQueueDelete s.queue = .ok d ∧ d.deleted = xs ∧ d.freed = ns.map Prod.fst ∧
        ∀ a, d.queue.heap a = none := by
  obtain ⟨rs, s, xs, hrun, hfifo, ns, h⟩ := Machine.Guarded.run _ _ (fun s xs => ∃ ns, Accounted s xs ns)
    (fun s xs op ⟨_, h⟩ hm => ledgerStep_accounted h hm) hmalloc
    ⟨[], DoublyLinked.create hcreate, rfl, List.Perm.refl _⟩
  obtain ⟨d, hd, hvals, haddrs, hnone⟩ := linkedListQueueDelete_spec h.linked
  exact ⟨rs, s, xs, ns, hrun, hfifo, h, h.linked.front_eq_null.trans h.linked.back_eq_null.symm,
    d, hd, hvals.trans h.values, haddrs, hnone⟩

theorem linked_nodes_accounted_recycled : ∃ rs s xs ns,
    ledgerMachine.run ⟨(⟨0, 0, fun _ => none⟩ : LinkedListQueue Nat), [], []⟩
        [.push 7 (some (16, ⟨0, 0, 0⟩)), .push 8 none, .pop, .push 9 (some (16, ⟨0, 0, 0⟩))] = .ok (rs, s) ∧
      fifoMachine.run [] [.push 7 (some (16, ⟨0, 0, 0⟩)), .push 8 none, .pop, .push 9 (some (16, ⟨0, 0, 0⟩))] =
        .ok (rs, xs) ∧
      Accounted s xs ns ∧ (s.queue.front = 0 ↔ s.queue.back = 0) ∧
      ∃ d, linkedListQueueDelete s.queue = .ok d ∧ d.deleted = xs ∧ d.freed = ns.map Prod.fst ∧
        ∀ a, d.queue.heap a = none := by
  refine linked_nodes_accounted rfl _ ((Machine.guarded_cons _ _ rfl rfl).mpr ⟨⟨fun _ => ⟨by decide, rfl⟩, rfl⟩, ?_⟩)
  refine (Machine.guarded_cons _ _ rfl rfl).mpr ⟨trivial, (Machine.guarded_cons _ _ rfl rfl).mpr ⟨trivial, ?_⟩⟩
  refine (Machine.guarded_cons _ _ rfl rfl).mpr ⟨⟨fun _ => ⟨by decide, ?_⟩, rfl⟩, ?_⟩
  · simp
  · trivial

end MooseOS
