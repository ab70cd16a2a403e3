import MooseOS.Queue.LinkedList

/-!
# The linked-list queue as a list

* `Linked q ms last` : from `front` the links lead through `ms` to the node `last` at `back`. Nothing is said about
  the link of `last`: a push never writes it;
* `Lists q xs` : the queue is empty, or so linked with the values `xs`;
* `linkedStep_lists` : one call answers like a list, provided it does not follow a link of `last` that leads on;
* `linked_refines_fifo_iff` : a run is that of a FIFO list if and only if it never follows such a link.
-/

namespace MooseOS
open Prog

variable {α : Type}

/-- From `front`, the links lead through `ms` to the node `last` at `back`. -/
structure Linked (q : LinkedListQueue α) (ms : List (Word × LinkedListQueueItem α)) (last : LinkedListQueueItem α) :
    Prop where
  seg : Seg q.heap LinkedListQueueItem.next q.front ms q.back
  back : q.heap q.back = some last
  nodup : (q.back :: ms.map Prod.fst).Nodup
  nonNull : 0 ∉ q.back :: ms.map Prod.fst

/-- The queue lists the values `xs`, oldest first. -/
def Lists (q : LinkedListQueue α) (xs : List α) : Prop :=
  (xs = [] ∧ q.front = 0 ∧ q.back = 0) ∨ ∃ ms last, Linked q ms last ∧ xs = ms.map (·.2.value) ++ [last.value]

/-- The node at `back` links to no further node. -/
def EndsInNull (q : LinkedListQueue α) : Prop := ∀ node, q.heap q.back = some node → node.next = 0

theorem lists_create {q : LinkedListQueue α} (h : linkedListQueueCreate true = some q) : Lists q [] := by
  cases h
  exact .inl ⟨rfl, rfl, rfl⟩

namespace Linked
variable {q : LinkedListQueue α} {ms : List (Word × LinkedListQueueItem α)} {last : LinkedListQueueItem α}

theorem back_ne (h : Linked q ms last) : q.back ≠ 0 := fun h0 => h.nonNull (by simp [h0])

theorem front_ne (h : Linked q ms last) : q.front ≠ 0 := by
  cases ms with
  | nil =>
    rw [show q.front = q.back from h.seg]
    exact h.back_ne
  | cons x ms =>
    rw [h.seg.1]
    exact fun h0 => h.nonNull (by simp [h0])

/-- The whole chain, with the link that its last node happens to hold. -/
theorem chain (h : Linked q ms last) :
    Seg q.heap LinkedListQueueItem.next q.front (ms ++ [(q.back, last)]) last.next :=
  Seg.concat_iff.mpr ⟨h.seg, h.back, rfl⟩

theorem endsInNull_iff (h : Linked q ms last) : EndsInNull q ↔ last.next = 0 := by
  simp [EndsInNull, h.back]

theorem front_eq_back (h : Linked q ms last) : q.front = q.back ↔ ms = [] := by
  cases ms with
  | nil => exact iff_of_true h.seg rfl
  | cons x ms =>
    refine iff_of_false ?_ (by simp)
    rw [h.seg.1]
    exact fun he => (List.nodup_cons.mp h.nodup).1 (by simp [he])

theorem notMem_of_free (h : Linked q ms last) {a : Word} (ha : q.heap a = none) :
    a ≠ q.back ∧ a ∉ ms.map Prod.fst := by
  constructor
  · rintro rfl
    exact absurd (ha.symm.trans h.back) (by simp)
  · intro hmem
    obtain ⟨x, hx, rfl⟩ := List.mem_map.mp hmem
    exact absurd (ha.symm.trans (h.seg.mem hx)) (by simp)

theorem length_lt (h : Linked q ms last) : ms.length < 2 ^ 32 := by
  have hnodup := h.nodup.map fun (a b : Word) (hab : a.toNat = b.toNat) => BitVec.eq_of_toNat_eq hab
  have hsub : (q.back :: ms.map Prod.fst).map BitVec.toNat ⊆ List.range (2 ^ 32) := by
    intro n hn
    obtain ⟨a, -, rfl⟩ := List.mem_map.mp hn
    exact List.mem_range.mpr a.isLt
  have hlen := (hnodup.subperm hsub).length_le
  simp only [List.length_map, List.length_cons, List.length_range] at hlen
  omega

end Linked

/-! ## The calls -/

section Calls
variable {q : LinkedListQueue α} {ms : List (Word × LinkedListQueueItem α)} {last : LinkedListQueueItem α}

/-- The queue after a push of `value` in the block at `a`, behind the node `last`. -/
def LinkedListQueue.pushed (q : LinkedListQueue α) (last : LinkedListQueueItem α) (value : α) (a : Word)
    (bytes : LinkedListQueueItem α) : LinkedListQueue α :=
  ⟨q.front, a, Function.update (Function.update (Function.update q.heap a (some { bytes with value := value }))
    q.back (some { last with next := a })) a (some { bytes with value := value, prev := q.back })⟩

theorem linked_pushed (h : Linked q ms last) {a : Word} (ha : a ≠ 0) (hfree : q.heap a = none) (value : α)
    (bytes : LinkedListQueueItem α) :
    Linked (q.pushed last value a bytes) (ms ++ [(q.back, { last with next := a })])
      { bytes with value := value, prev := q.back } := by
  obtain ⟨hab, ham⟩ := h.notMem_of_free hfree
  obtain ⟨hbm, hnd⟩ := List.nodup_cons.mp h.nodup
  have hnn := h.nonNull
  simp only [List.mem_cons, not_or] at hnn
  have hall : a ∉ (ms ++ [(q.back, last)]).map Prod.fst := by simp [ham, hab]
  refine ⟨?_, Function.update_self .., ?_, ?_⟩
  · refine ((h.chain.update_of_notMem hall _).update_last { last with next := a } hbm).update_of_notMem ?_ _
    simp [ham, hab]
  · simp only [LinkedListQueue.pushed, List.map_append, List.map_cons, List.map_nil]
    refine List.nodup_cons.mpr ⟨by simp [ham, hab], ?_⟩
    exact List.nodup_append.mpr ⟨hnd, by simp, fun x hx y hy he => hbm (by rwa [← List.mem_singleton.mp hy, ← he])⟩
  · simp only [LinkedListQueue.pushed, List.map_append, List.map_cons, List.map_nil, List.mem_cons, List.mem_append,
      List.not_mem_nil, or_false, not_or]
    exact ⟨ha.symm, hnn.2, hnn.1⟩

theorem iterate_seg {heap : Heap Word (LinkedListQueueItem α)} {ns : List (Word × LinkedListQueueItem α)} {p e : Word}
    (hs : Seg heap LinkedListQueueItem.next p ns e) (hnn : 0 ∉ ns.map Prod.fst) (fuel : Nat) (acc : List α) :
    whileLoop (fun s => decide (s.1 ≠ 0)) (iterateTurn heap) (ns.length + fuel) (p, acc) =
      whileLoop (fun s => decide (s.1 ≠ 0)) (iterateTurn heap) fuel (e, acc ++ ns.map (·.2.value)) := by
  induction ns generalizing p acc with
  | nil => simp [show p = e from hs]
  | cons x ns ih =>
    obtain ⟨rfl, hx, hrest⟩ := hs
    simp only [List.map_cons, List.mem_cons, not_or] at hnn
    have hturn : iterateTurn heap (x.1, acc) = .ok (x.2.next, acc ++ [x.2.value]) := by
      unfold iterateTurn
      simp only [deref_some hx, ok_bind]
    rw [List.length_cons, Nat.add_right_comm, whileLoop_turn _ _ (by simpa using Ne.symm hnn.1) hturn, ih hrest hnn.2]
    simp

/-- The iteration visits the values in order exactly if the last node ends the list. -/
theorem linkedListQueueIterate_linked (h : Linked q ms last) :
    linkedListQueueIterate q = .ok (ms.map (·.2.value) ++ [last.value]) ↔ last.next = 0 := by
  have hnn : 0 ∉ (ms ++ [(q.back, last)]).map Prod.fst := by
    have := h.nonNull
    simp only [List.mem_cons, not_or] at this
    simp only [List.map_append, List.map_cons, List.map_nil, List.mem_append, List.mem_singleton, not_or]
    exact ⟨this.2, this.1⟩
  obtain ⟨fuel, hfuel⟩ : ∃ k, 2 ^ 32 + 1 = (ms ++ [(q.back, last)]).length + (k + 1) :=
    ⟨2 ^ 32 - (ms.length + 1), by have := h.length_lt; simp only [List.length_append, List.length_singleton]; omega⟩
  unfold linkedListQueueIterate
  simp only [hfuel, iterate_seg h.chain hnn, List.nil_append, List.map_append, List.map_cons,
    List.map_nil]
  constructor
  · intro hrun
    by_contra hne
    obtain ⟨s, hs, hvis⟩ := bind_eq_ok.mp hrun
    simp only [Except.ok.injEq] at hvis
    -- the walk goes on, and visits at least one value more
    obtain ⟨⟨hmore, hlen⟩, hc⟩ := whileLoop_inv _ _
      (fun t : Word × List α => (t.1 ≠ 0 ∨ ms.length + 1 < t.2.length) ∧ ms.length + 1 ≤ t.2.length)
      (fun t u ht _ hu => by
        obtain ⟨n, -, hn⟩ := bind_eq_ok.mp hu
        cases hn
        have := ht.2
        simp only [List.length_append, List.length_singleton]
        omega)
      _ _ _ ⟨.inl hne, by simp⟩ hs
    have hend : s.1 = 0 := by simpa using hc
    have hlen' := congrArg List.length hvis
    simp only [List.length_append, List.length_map, List.length_singleton] at hlen'
    rcases hmore with h1 | h1
    · exact h1 hend
    · omega
  · intro h0
    rw [h0, whileLoop_done _ _ (by simp) (by omega), ok_bind]

variable [Zero α]

theorem linkedListQueuePop_next {x n : LinkedListQueueItem α} (hf : q.front ≠ 0) (hfb : q.front ≠ q.back)
    (hx : q.heap q.front = some x) (hne : x.next ≠ 0) (hn : q.heap x.next = some n) :
    linkedListQueuePop q = .ok (x.value, ⟨x.next, q.back,
      Function.update (Function.update q.heap x.next (some { n with prev := 0 })) q.front none⟩) := by
  unfold linkedListQueuePop
  simp only [if_neg hf, deref_some hx, ok_bind, if_neg hne, deref_some hn, if_neg hfb]

theorem linkedListQueuePop_linked {x : Word × LinkedListQueueItem α} (h : Linked q (x :: ms) last) :
    ∃ q' ms' last', linkedListQueuePop q = .ok (x.2.value, q') ∧ Linked q' ms' last' ∧
      ms'.map (·.2.value) ++ [last'.value] = ms.map (·.2.value) ++ [last.value] := by
  obtain ⟨hfront, hx, hrest⟩ := h.seg
  have hx' : q.heap q.front = some x.2 := by rw [hfront, hx]
  have hfb : q.front ≠ q.back := fun he => absurd (h.front_eq_back.mp he) (by simp)
  have hnd := h.nodup
  have hnn := h.nonNull
  cases ms with
  | nil =>
    have hnext : x.2.next = q.back := hrest
    have hne : x.2.next ≠ 0 := by rw [hnext]; exact h.back_ne
    refine ⟨_, [], { last with prev := 0 },
      linkedListQueuePop_next h.front_ne hfb hx' hne (by rw [hnext, h.back]), ⟨?_, ?_, ?_, ?_⟩, rfl⟩
    · exact hnext
    · simp only [hnext, Function.update_of_ne hfb.symm, Function.update_self]
    · simp
    · simpa using h.back_ne.symm
  | cons y ms =>
    obtain ⟨hnext, hy, htail⟩ := hrest
    simp only [List.map_cons, List.nodup_cons, List.mem_cons, not_or] at hnd hnn
    obtain ⟨⟨hbx, hby, hbm⟩, ⟨hxy, hxm⟩, hym, hms⟩ := hnd
    have hne : x.2.next ≠ 0 := by rw [hnext]; exact Ne.symm hnn.2.2.1
    refine ⟨_, (y.1, { y.2 with prev := 0 }) :: ms, last,
      linkedListQueuePop_next h.front_ne hfb hx' hne (by rw [hnext, hy]), ⟨?_, ?_, ?_, ?_⟩, rfl⟩
    · simp only [hnext, hfront]
      have hseg : Seg q.heap LinkedListQueueItem.next y.1 ((y.1, y.2) :: ms) q.back := ⟨rfl, hy, htail⟩
      refine (hseg.update_head { y.2 with prev := 0 } hym rfl).update_of_notMem ?_ _
      simp [hxy, hxm]
    · simp only [hnext, hfront, Function.update_of_ne hbx, Function.update_of_ne hby, h.back]
    · simp only [List.map_cons, List.nodup_cons, List.mem_cons, not_or]
      exact ⟨⟨hby, hbm⟩, hym, hms⟩
    · simp only [List.map_cons, List.mem_cons, not_or]
      exact ⟨hnn.1, hnn.2.2⟩

/-- A pop of the only node follows its link: to `NULL` and an empty queue, or astray. -/
theorem linkedListQueuePop_only (h : Linked q [] last) :
    (last.next = 0 → ∃ heap, linkedListQueuePop q = .ok (last.value, ⟨0, 0, heap⟩)) ∧
    (last.next ≠ 0 → ∀ x q', linkedListQueuePop q = .ok (x, q') → linkedListQueueIsEmpty q' = false) := by
  have hfb : q.front = q.back := h.seg
  have hx : q.heap q.front = some last := by rw [hfb, h.back]
  constructor
  · intro h0
    refine ⟨Function.update q.heap q.front none, ?_⟩
    unfold linkedListQueuePop
    simp only [if_neg h.front_ne, deref_some hx, ok_bind, h0, if_true, if_pos hfb]
  · intro hne x q' hpop
    unfold linkedListQueuePop at hpop
    simp only [if_neg h.front_ne, deref_some hx, ok_bind, if_neg hne, bind_eq_ok, Except.ok.injEq,
      Prod.mk.injEq] at hpop
    obtain ⟨n, -, -, rfl⟩ := hpop
    exact decide_eq_false fun h0 => hne h0.1

variable [DecidableEq α]

theorem linkedListQueuePush_linked (h : Linked q ms last) {value : α} (hv : value ≠ 0) {a : Word}
    (hfree : q.heap a = none) (bytes : LinkedListQueueItem α) :
    linkedListQueuePush q value (some (a, bytes)) = .ok (0, q.pushed last value a bytes) := by
  obtain ⟨hab, -⟩ := h.notMem_of_free hfree
  have hback : Function.update q.heap a (some { bytes with value := value }) q.back = some last := by
    rw [Function.update_of_ne hab.symm, h.back]
  have hitem : Function.update (Function.update q.heap a (some { bytes with value := value })) q.back
      (some { last with next := a }) a = some { bytes with value := value } := by
    rw [Function.update_of_ne hab, Function.update_self]
  unfold linkedListQueuePush
  simp only [if_neg hv, if_neg h.front_ne, deref_some hback, ok_bind, deref_some hitem]
  rfl

end Calls

/-! ## Runs -/

section Runs
variable {q q' : LinkedListQueue α} {xs xs' : List α}

/-- A call that follows the link of the node at `back` (a pop of the only node, an iteration over any) finds it
`NULL`. -/
def EndChecked (q : LinkedListQueue α) (_ : List α) : LinkedOp α → Prop
  | .pop => q.front ≠ 0 → q.front = q.back → EndsInNull q
  | .iterate => q.front ≠ 0 → EndsInNull q
  | _ => True

theorem Lists.isEmpty (h : Lists q xs) : linkedListQueueIsEmpty q = xs.isEmpty := by
  rcases h with ⟨rfl, hf, hb⟩ | ⟨ms, last, h, rfl⟩
  · simp [linkedListQueueIsEmpty, hf, hb]
  · rw [linkedListQueueIsEmpty, decide_eq_false fun h0 => h.front_ne h0.1]
    simp

theorem iterate_lists (h : Lists q xs) : linkedListQueueIterate q = .ok xs ↔ EndChecked q xs .iterate := by
  rcases h with ⟨rfl, hf, hb⟩ | ⟨ms, last, h, rfl⟩
  · refine iff_of_true ?_ fun hne => absurd hf hne
    rw [linkedListQueueIterate, whileLoop_done _ _ (by simp [hf]) (by omega)]
    rfl
  · rw [linkedListQueueIterate_linked h, ← h.endsInNull_iff]
    exact ⟨fun he _ => he, fun he => he h.front_ne⟩

variable [Zero α]

/-- `malloc` returns `NULL`, or a block disjoint from all live ones. -/
def MallocFresh (q : LinkedListQueue α) (_ : List α) : LinkedOp α → Prop
  | .push value (some blk) => value ≠ 0 → blk.1 ≠ 0 ∧ q.heap blk.1 = none
  | _ => True

theorem pop_lists (h : Lists q xs) (hend : EndChecked q xs .pop) :
    ∃ q', linkedListQueuePop q = .ok ((Fifo.pop xs).1, q') ∧ Lists q' (Fifo.pop xs).2 := by
  rcases h with ⟨rfl, hf, hb⟩ | ⟨ms, last, h, rfl⟩
  · exact ⟨q, by simp [linkedListQueuePop, hf, Fifo.pop], .inl ⟨rfl, hf, hb⟩⟩
  · cases ms with
    | nil =>
      have h0 := h.endsInNull_iff.mp (hend h.front_ne (h.front_eq_back.mpr rfl))
      obtain ⟨heap, hpop⟩ := (linkedListQueuePop_only h).1 h0
      exact ⟨_, hpop, .inl ⟨rfl, rfl, rfl⟩⟩
    | cons x ms =>
      obtain ⟨q', ms', last', hpop, h', hvals⟩ := linkedListQueuePop_linked h
      exact ⟨q', hpop, .inr ⟨ms', last', h', hvals.symm⟩⟩

theorem peek_lists (h : Lists q xs) : linkedListQueuePeek q = .ok (Fifo.peek xs) := by
  rcases h with ⟨rfl, hf, hb⟩ | ⟨ms, last, h, rfl⟩
  · simp [linkedListQueuePeek, hf, Fifo.peek]
  · unfold linkedListQueuePeek
    simp only [if_neg h.front_ne]
    cases ms with
    | nil =>
      have hfb : q.front = q.back := h.seg
      simp [hfb, deref_some h.back, Fifo.peek]
    | cons x ms =>
      obtain ⟨hfront, hx, -⟩ := h.seg
      simp [hfront, deref_some hx, Fifo.peek]

variable [DecidableEq α]

/-- A push answers like a list that may run out of memory, whatever the block holds. -/
theorem push_lists (h : Lists q xs) {value : α} {malloc : NodeBlock α} (hm : MallocFresh q xs (.push value malloc)) :
    ∃ q', linkedListQueuePush q value malloc = .ok ((Fifo.push xs value malloc.isSome).1, q') ∧
      Lists q' (Fifo.push xs value malloc.isSome).2 := by
  by_cases hv : value = 0
  · exact ⟨q, by simp [linkedListQueuePush, Fifo.push, hv], by simpa [Fifo.push, hv] using h⟩
  cases malloc with
  | none => exact ⟨q, by simp [linkedListQueuePush, Fifo.push, hv], by simpa [Fifo.push] using h⟩
  | some blk =>
    obtain ⟨ha, hfree⟩ := hm hv
    have hpush : Fifo.push xs value (some blk).isSome = (0, xs ++ [value]) := by simp [Fifo.push, hv]
    rw [hpush]
    rcases h with ⟨rfl, hf, hb⟩ | ⟨ms, last, h, rfl⟩
    · refine ⟨⟨blk.1, blk.1, Function.update q.heap blk.1 (some { blk.2 with value := value })⟩,
        by simp only [linkedListQueuePush, if_neg hv, if_pos hf],
        .inr ⟨[], { blk.2 with value := value },
          ⟨rfl, Function.update_self .., by simp, by simpa using ha.symm⟩, rfl⟩⟩
    · exact ⟨_, linkedListQueuePush_linked h hv hfree blk.2,
        .inr ⟨_, _, linked_pushed h ha hfree value blk.2, by simp⟩⟩

/-- **One call.** It answers like a list and leaves a list, provided the end is checked. -/
theorem linkedStep_lists {op : LinkedOp α} (h : Lists q xs) (hm : MallocFresh q xs op) (hend : EndChecked q xs op) :
    ∃ r q' xs', linkedStep q op = .ok (r, q') ∧ fifoStep xs op = .ok (r, xs') ∧ Lists q' xs' := by
  cases op with
  | push value malloc =>
    obtain ⟨q', hpush, hq'⟩ := push_lists h hm
    exact ⟨_, q', _, by simp only [linkedStep, hpush, ok_bind], rfl, hq'⟩
  | pop =>
    obtain ⟨q', hpop, hq'⟩ := pop_lists h hend
    exact ⟨_, q', _, by simp only [linkedStep, hpop, ok_bind], rfl, hq'⟩
  | peek => exact ⟨_, q, xs, by simp only [linkedStep, peek_lists h, ok_bind], rfl, h⟩
  | isEmpty => exact ⟨_, q, xs, by simp only [linkedStep, h.isEmpty], rfl, h⟩
  | iterate => exact ⟨_, q, xs, by simp only [linkedStep, (iterate_lists h).mpr hend, ok_bind], rfl, h⟩

/-- Conversely, a call that answers like a list, and leaves a queue that is empty when the list is, has checked the
end. -/
theorem endChecked_of_step {op : LinkedOp α} {r : LinkedRes α} (h : Lists q xs)
    (hstep : linkedStep q op = .ok (r, q')) (hfifo : fifoStep xs op = .ok (r, xs'))
    (hempty : linkedListQueueIsEmpty q' = xs'.isEmpty) : EndChecked q xs op := by
  cases op with
  | push value malloc => trivial
  | peek => trivial
  | isEmpty => trivial
  | pop =>
    rcases h with ⟨rfl, hf, hb⟩ | ⟨ms, last, h, rfl⟩
    · exact fun hne => absurd hf hne
    · intro _ hfb
      obtain rfl := h.front_eq_back.mp hfb
      rw [h.endsInNull_iff]
      by_contra hne
      obtain ⟨⟨x, q₁⟩, hpop, hp⟩ := bind_eq_ok.mp hstep
      simp only [Except.ok.injEq, Prod.mk.injEq] at hp
      obtain ⟨-, rfl⟩ := hp
      simp only [fifoStep, Except.ok.injEq, Prod.mk.injEq] at hfifo
      obtain ⟨-, rfl⟩ := hfifo
      rw [(linkedListQueuePop_only h).2 hne _ _ hpop] at hempty
      cases hempty
  | iterate =>
    obtain ⟨vs, hit, hvs⟩ := bind_eq_ok.mp hstep
    cases hvs
    cases hfifo
    exact (iterate_lists h).mp hit

/-- **The linked-list queue is an unbounded FIFO exactly while it never follows a link that no push wrote.** With any
outcomes and any contents of the blocks of `malloc`, the calls of a run return the results of a list, with
`linkedListQueueIsEmpty` true exactly when the list is empty, if and only if the link of the node at `back` is `NULL`
whenever a call follows it. -/
theorem linked_refines_fifo_iff {q₀ : LinkedListQueue α} (hcreate : linkedListQueueCreate true = some q₀)
    (ops : List (LinkedOp α)) (hmalloc : Machine.Guarded linkedMachine fifoMachine MallocFresh q₀ [] ops) :
    Machine.Lockstep linkedMachine fifoMachine (fun q xs => linkedListQueueIsEmpty q = xs.isEmpty) q₀ [] ops ↔
      Machine.Guarded linkedMachine fifoMachine EndChecked q₀ [] ops := by
  refine Machine.lockstep_iff_guarded _ _ Lists _ MallocFresh EndChecked (fun q xs h => h.isEmpty) ?_ ?_ ops q₀ []
    (lists_create hcreate) hmalloc
  · intro q xs op h hm
    constructor
    · intro ⟨r, q', xs', hs, ht, hempty⟩
      exact endChecked_of_step h hs ht hempty
    · intro hend
      obtain ⟨r, q', xs', hs, ht, h'⟩ := linkedStep_lists h hm hend
      exact ⟨r, q', xs', hs, ht, h'.isEmpty⟩
  · intro q xs op r q' xs' h hm hend hs ht
    obtain ⟨r₁, q₁, xs₁, hs₁, ht₁, h₁⟩ := linkedStep_lists h hm hend
    cases hs.symm.trans hs₁
    cases ht.symm.trans ht₁
    exact h₁

theorem linked_refines_fifo_zeroed :
    Machine.Lockstep linkedMachine fifoMachine (fun q xs => linkedListQueueIsEmpty q = xs.isEmpty)
        (⟨0, 0, fun _ => none⟩ : LinkedListQueue Nat) []
        [.push 7 (some (16, ⟨0, 0, 0⟩)), .push 8 none, .iterate, .pop, .isEmpty] ↔
      Machine.Guarded linkedMachine fifoMachine EndChecked ⟨0, 0, fun _ => none⟩ []
        [.push 7 (some (16, ⟨0, 0, 0⟩)), .push 8 none, .iterate, .pop, .isEmpty] := by
  refine linked_refines_fifo_iff rfl _ ((Machine.guarded_cons _ _ rfl rfl).mpr ⟨fun _ => ⟨by decide, rfl⟩, ?_⟩)
  refine (Machine.guarded_cons _ _ rfl rfl).mpr ⟨trivial, ?_⟩
  simp only [Machine.Guarded, MallocFresh, implies_true, and_self]

/-- A queue of two nodes is popped once, and `malloc` hands the freed block out again as it was left: its old link
names the node in front of it. The second of two more pops then writes to a block that is not live. -/
theorem linked_fails_recycled :
    Machine.Guarded linkedMachine fifoMachine MallocFresh (⟨0, 0, fun _ => none⟩ : LinkedListQueue Nat) []
        [.push 1 (some (16, ⟨0, 0, 0⟩)), .push 2 (some (32, ⟨0, 0, 0⟩)), .pop, .push 3 (some (16, ⟨32, 0, 1⟩)), .pop,
          .pop] ∧
      linkedMachine.run (⟨0, 0, fun _ => none⟩ : LinkedListQueue Nat)
        [.push 1 (some (16, ⟨0, 0, 0⟩)), .push 2 (some (32, ⟨0, 0, 0⟩)), .pop, .push 3 (some (16, ⟨32, 0, 1⟩)), .pop,
          .pop] = .error .stray ∧
      ¬ Machine.Lockstep linkedMachine fifoMachine (fun q xs => linkedListQueueIsEmpty q = xs.isEmpty)
        (⟨0, 0, fun _ => none⟩ : LinkedListQueue Nat) []
        [.push 1 (some (16, ⟨0, 0, 0⟩)), .push 2 (some (32, ⟨0, 0, 0⟩)), .pop, .push 3 (some (16, ⟨32, 0, 1⟩)), .pop,
          .pop] := by
  refine ⟨?_, rfl, fun h => ?_⟩
  · refine (Machine.guarded_cons _ _ rfl rfl).mpr ⟨fun _ => ⟨by decide, rfl⟩, ?_⟩
    refine (Machine.guarded_cons _ _ rfl rfl).mpr ⟨fun _ => ⟨by decide, rfl⟩, ?_⟩
    refine (Machine.guarded_cons _ _ rfl rfl).mpr ⟨trivial, ?_⟩
    refine (Machine.guarded_cons _ _ rfl rfl).mpr ⟨fun _ => ⟨by decide, rfl⟩, ?_⟩
    simp only [Machine.Guarded, MallocFresh, implies_true, and_self]
  · obtain ⟨rs, q, t, hrun, -, -⟩ := h.run
    cases hrun

end Runs

end MooseOS
