import MooseOS.Lib.Chain
import MooseOS.Lib.Fifo
import MooseOS.Hardware

/-!
# The linked-list queue

`common/queue/linkedListQueue.c`. The queue's two pointers come with the heap of live nodes. `malloc` fails or
returns the address of a block and the bytes that it holds, read as a node; a push writes its `value` only, and its
`prev` where there is a node before it.
-/

namespace MooseOS
open Prog

variable {α : Type} [Zero α] [DecidableEq α]

structure LinkedListQueueItem (α : Type) where
  next : Word
  prev : Word
  value : α

/-- `struct LinkedListQueue`, with the live nodes of the heap. -/
structure LinkedListQueue (α : Type) where
  front : Word
  back : Word
  heap : Heap Word (LinkedListQueueItem α)

/-- What a `malloc` of a node gives. -/
abbrev NodeBlock (α : Type) := Option (Word × LinkedListQueueItem α)

/-- `linkedListQueueCreate`: `malloc` may fail. -/
def linkedListQueueCreate (malloc : Bool) : Option (LinkedListQueue α) :=
  if malloc then some ⟨0, 0, fun _ => none⟩ else none

def linkedListQueuePush (q : LinkedListQueue α) (value : α) (malloc : NodeBlock α) :
    Exec (Int × LinkedListQueue α) :=
  if value = 0 then .ok (-1, q)
  else match malloc with
  | none => .ok (-1, q)
  | some (item, bytes) =>
    let heap := Function.update q.heap item (some { bytes with value := value })
    if q.front = 0 then .ok (0, ⟨item, item, heap⟩)
    else do
      let back ← deref heap q.back
      let heap := Function.update heap q.back (some { back with next := item })
      let node ← deref heap item
      .ok (0, ⟨q.front, item, Function.update heap item (some { node with prev := q.back })⟩)

def linkedListQueuePop (q : LinkedListQueue α) : Exec (α × LinkedListQueue α) :=
  if q.front = 0 then .ok (0, q)
  else do
    let item ← deref q.heap q.front
    let back := if q.front = q.back then 0 else q.back
    if item.next = 0 then .ok (item.value, ⟨item.next, back, Function.update q.heap q.front none⟩)
    else do
      let next ← deref q.heap item.next
      let heap := Function.update q.heap item.next (some { next with prev := 0 })
      .ok (item.value, ⟨item.next, back, Function.update heap q.front none⟩)

def linkedListQueuePeek (q : LinkedListQueue α) : Exec α :=
  if q.front = 0 then .ok 0
  else do
    let item ← deref q.heap q.front
    .ok item.value

def linkedListQueueIsEmpty (q : LinkedListQueue α) : Bool := decide (q.front = 0 ∧ q.back = 0)

/-- One turn of the loop of `linkedListQueueIterate`: `func(next->value); next = next->next;`. -/
def iterateTurn (heap : Heap Word (LinkedListQueueItem α)) (s : Word × List α) : Exec (Word × List α) := do
  let item ← deref heap s.1
  .ok (item.next, s.2 ++ [item.value])

/-- `linkedListQueueIterate`: the values passed to the function, in order. A walk that meets more nodes than there
are addresses never ends. -/
def linkedListQueueIterate (q : LinkedListQueue α) : Exec (List α) := do
  let s ← whileLoop (fun s => decide (s.1 ≠ 0)) (iterateTurn q.heap) (2 ^ 32 + 1) (q.front, [])
  .ok s.2

def poppedNode (q : LinkedListQueue α) : List Word := if q.front = 0 then [] else [q.front]

/-- The variables of the loop of `linkedListQueueDelete`: the queue, and what was passed to `deleteFunc` and to
`free` so far. -/
structure LinkedDeleting (α : Type) where
  queue : LinkedListQueue α
  deleted : List α
  freed : List Word

/-- `value = linkedListQueuePop(queue); deleteFunc(value);`. -/
def linkedDeleteTurn (s : LinkedDeleting α) : Exec (LinkedDeleting α) := do
  let p ← linkedListQueuePop s.queue
  .ok ⟨p.2, s.deleted ++ [p.1], s.freed ++ poppedNode s.queue⟩

/-- `linkedListQueueDelete`: the values deleted and the nodes freed, in order, and what is left. A turn that frees
no node changes nothing, so a loop with more turns than there are addresses never ends. -/
def linkedListQueueDelete (q : LinkedListQueue α) : Exec (LinkedDeleting α) :=
  whileLoop (fun s => !linkedListQueueIsEmpty s.queue) linkedDeleteTurn (2 ^ 32 + 1) ⟨q, [], []⟩

/-! ## Runs -/

/-- The calls; a push comes with the outcome of its `malloc`. -/
inductive LinkedOp (α : Type) where
  | push (value : α) (malloc : NodeBlock α)
  | pop
  | peek
  | isEmpty
  | iterate

/-- What a call returns: a code, a value, an answer yes or no, or the values visited in order. -/
inductive LinkedRes (α : Type) where
  | code (rc : Int)
  | value (x : α)
  | flag (b : Bool)
  | visited (xs : List α)
deriving DecidableEq

def linkedStep (q : LinkedListQueue α) : LinkedOp α → Exec (LinkedRes α × LinkedListQueue α)
  | .push value malloc => do
    let r ← linkedListQueuePush q value malloc
    .ok (.code r.1, r.2)
  | .pop => do
    let r ← linkedListQueuePop q
    .ok (.value r.1, r.2)
  | .peek => do
    let x ← linkedListQueuePeek q
    .ok (.value x, q)
  | .isEmpty => .ok (.flag (linkedListQueueIsEmpty q), q)
  | .iterate => do
    let xs ← linkedListQueueIterate q
    .ok (.visited xs, q)

def linkedMachine : Machine (LinkedListQueue α) (LinkedOp α) (LinkedRes α) := ⟨linkedStep⟩

/-- The same calls on a list, oldest value first. -/
def fifoStep (xs : List α) : LinkedOp α → Exec (LinkedRes α × List α)
  | .push value malloc => .ok (.code (Fifo.push xs value malloc.isSome).1, (Fifo.push xs value malloc.isSome).2)
  | .pop => .ok (.value (Fifo.pop xs).1, (Fifo.pop xs).2)
  | .peek => .ok (.value (Fifo.peek xs), xs)
  | .isEmpty => .ok (.flag xs.isEmpty, xs)
  | .iterate => .ok (.visited xs, xs)

/-- The unbounded FIFO queue. -/
def fifoMachine : Machine (List α) (LinkedOp α) (LinkedRes α) := ⟨fifoStep⟩

end MooseOS
