import MooseOS.Lib.Fifo

/-!
# The bounded queue

`common/queue/queue.c`. A `Queue` is the block `items` with its cells, so `size` is the length of the list, and
the two indices; a cell that holds `NULL` is `0`. An access outside `items` is the fault `stray`. The functions
passed to `queueIterate` and `queueDelete` are given the items that the calls return as lists.
-/

namespace MooseOS
open Prog

variable {α : Type} [Zero α] [DecidableEq α]

/-- `struct queue`, with the block that its field `items` points to. -/
structure Queue (α : Type) where
  items : List α
  front : Nat
  nextEmpty : Nat
deriving DecidableEq

namespace Queue

def size (q : Queue α) : Nat := q.items.length

def cell (q : Queue α) (i : Nat) : Exec α :=
  match q.items[i]? with
  | none => .error .stray
  | some x => .ok x

def setCell (q : Queue α) (i : Nat) (x : α) : Exec (Queue α) :=
  if i < q.size then .ok { q with items := q.items.set i x } else .error .stray

end Queue

/-- `queueCreate`: `malloc` and `calloc` may fail. -/
def queueCreate (size : Nat) (malloc calloc : Bool) : Option (Queue α) :=
  if malloc = true ∧ calloc = true then some ⟨List.replicate size 0, 0, 0⟩ else none

def queueLength (q : Queue α) : Exec Int := do
  let first ← q.cell q.front
  if first = 0 then .ok 0
  else if q.nextEmpty > q.front then .ok (q.nextEmpty - q.front)
  else if q.nextEmpty = q.front ∧ first ≠ 0 then .ok q.size
  else .ok (q.nextEmpty - q.front + q.size)

def queueIsEmpty (q : Queue α) : Exec Bool := do
  let n ← queueLength q
  .ok (decide (n = 0))

def queueIsFull (q : Queue α) : Exec Bool := do
  let n ← queueLength q
  .ok (decide (n = q.size))

def queuePush (q : Queue α) (item : α) : Exec (Bool × Queue α) :=
  if item = 0 then .ok (false, q)
  else do
    let full ← queueIsFull q
    if full then .ok (false, q)
    else do
      let q' ← q.setCell q.nextEmpty item
      .ok (true, { q' with nextEmpty := q'.nextEmpty + 1 })

def queuePop (q : Queue α) : Exec (α × Queue α) := do
  let item ← q.cell q.front
  let q' ← q.setCell q.front 0
  .ok (item, { q' with front := q'.front + 1 })

def queuePeek (q : Queue α) : Exec α := q.cell q.front

/-- `queueIterate`: the items passed to the function, in order. A loop that stays inside `items` ends within
`size + 1` tests. -/
def queueIterate (q : Queue α) : Exec (List α) := do
  let s ← whileLoop (fun s : Nat × List α => decide (s.1 ≠ q.nextEmpty))
    (fun s => do
      let item ← q.cell s.1
      .ok (s.1 + 1, s.2 ++ [item]))
    (q.size + 1) (q.front, [])
  .ok s.2

/-- The state of the loop of `queueDelete`: the queue, the items deleted so far, and the value of
`queueIsEmpty` in the loop's condition. -/
structure Deleting (α : Type) where
  q : Queue α
  deleted : List α
  empty : Bool

/-- One turn of the loop of `queueDelete`, and the test that follows it. -/
def deleteTurn (s : Deleting α) : Exec (Deleting α) := do
  let p ← queuePop s.q
  let empty ← queueIsEmpty p.2
  .ok ⟨p.2, s.deleted ++ [p.1], empty⟩

/-- `queueDelete`: the items passed to `deleteFunc`, in order. -/
def queueDelete (q : Queue α) : Exec (List α) := do
  let empty ← queueIsEmpty q
  let s ← whileLoop (fun s : Deleting α => !s.empty) deleteTurn (q.size + 1) ⟨q, [], empty⟩
  .ok s.deleted

def queueStep (q : Queue α) : Fifo.Op α → Exec (Fifo.Res α × Queue α)
  | .push x => do
    let r ← queuePush q x
    .ok (.flag r.1, r.2)
  | .pop => do
    let r ← queuePop q
    .ok (.item r.1, r.2)
  | .peek => do
    let x ← queuePeek q
    .ok (.item x, q)
  | .length => do
    let n ← queueLength q
    .ok (.len n, q)
  | .isEmpty => do
    let b ← queueIsEmpty q
    .ok (.flag b, q)
  | .isFull => do
    let b ← queueIsFull q
    .ok (.flag b, q)
  | .iterate => do
    let xs ← queueIterate q
    .ok (.visited xs, q)

def queueMachine : Machine (Queue α) (Fifo.Op α) (Fifo.Res α) := ⟨queueStep⟩

end MooseOS
