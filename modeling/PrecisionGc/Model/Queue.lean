import PrecisionGc.Model.Memory

/-!
# The heap-object queue

The two-pointer queue of `gc.c` in the private heap of liballocs. `used` lists the private nodes
that are allocated; touching any other address is a fault, so a node that is freed twice or read
after it was freed shows.
-/

namespace PrecisionGc

/-- `struct q_node` -/
structure QNode where
  heapObject : Nat
  next : Nat

/-- `q_head`, `q_tail` and the private heap that holds the nodes. -/
structure Queue where
  head : Nat
  tail : Nat
  nodes : Nat → Option QNode
  used : List Nat

namespace Queue

/-- Before the first node. -/
def empty : Queue := ⟨0, 0, fun _ => none, []⟩

def node (q : Queue) (a : Nat) : Except Fault QNode :=
  match q.nodes a with
  | some n => .ok n
  | none => .error .wild

def setNode (q : Queue) (a : Nat) (n : QNode) : Queue :=
  { q with nodes := Function.update q.nodes a (some n) }

/-- `node->heap_object = heap_pointer; node->next = NULL` in a fresh node. -/
def alloc (q : Queue) (a : Nat) (heapPointer : Nat) : Queue :=
  { q.setNode a ⟨heapPointer, 0⟩ with used := a :: q.used }

/-- `__private_free` -/
def privateFree (q : Queue) (a : Nat) : Except Fault Queue := do
  let _ ← q.node a
  return { q with nodes := Function.update q.nodes a none, used := q.used.erase a }

/-- `enqueue_heap_queue_node` -/
def enqueueHeapQueueNode (env : Env) (heapPointer : Nat) (q : Queue) : Except Fault Queue := do
  let node := env.privateMalloc q.used
  let q := q.alloc node heapPointer
  if q.tail = 0 then
    if q.head = 0 then return { q with tail := node, head := node }
    else throw .assertion
  else
    let last ← q.node q.tail
    return { q.setNode q.tail { last with next := node } with tail := node }

/-- `dequeue_heap_queue_node` -/
def dequeueHeapQueueNode (q : Queue) : Except Fault Queue := do
  let oldHead := q.head
  if oldHead = 0 then return q
  else
    let old ← q.node oldHead
    let q := { q with head := old.next }
    let q := if q.head = 0 then { q with tail := 0 } else q
    q.privateFree oldHead

end Queue
end PrecisionGc
