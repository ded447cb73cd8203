import PrecisionGc.Library.While
import PrecisionGc.Model.Trace

/-!
# One collection

`mark_reachable_heap_objects`, `sweep` and `gc_collect`. The loops run on fuel. `State.collections`
records, for each finished collection, the memory it started from and the blocks it passed to
`myfree`, in order; nothing in the code reads it.
-/

namespace PrecisionGc
open WhileLoop

/-- A finished collection: the memory it started from and what it freed. -/
structure Collection where
  start : Memory
  freed : List Nat

/-- The whole state behind `gc.c` and the allocator. -/
structure State extends Memory where
  queue : Queue
  allocatorMutex : Nat
  gcInitialised : Bool
  gcRunning : Bool
  numCollections : Nat
  collections : List Collection

variable (env : Env)

/-- One round of the loop of `mark_reachable_heap_objects`. -/
def markRound (p : Memory × Queue) : Except Fault (Memory × Queue) := do
  let (m, q) := p
  let first ← q.node q.head
  let heapObject := first.heapObject
  let marked ← m.marked env heapObject
  let previous ← m.previousPointer env heapObject
  if !marked && previous != sentinel then
    let q ← processHeapObjectRecursive env m ⟨heapObject, 0⟩ none q
    let m ← m.markBlock env heapObject
    let q ← q.dequeueHeapQueueNode
    return (m, q)
  else
    let q ← q.dequeueHeapQueueNode
    return (m, q)

/-- `mark_reachable_heap_objects` -/
def markReachableHeapObjects (fuel : Nat) (m : Memory) (q : Queue) :
    Except Fault (Memory × Queue) :=
  whileM .fuel (fun p => p.2.head != 0) (markRound env) fuel (m, q)

/-- The locals of `sweep`, and the blocks freed so far. -/
structure Sweep where
  mem : Memory
  previous : Nat
  current : Nat
  freed : List Nat

/-- One round of the loop of `sweep`. -/
def sweepRound (v : Sweep) : Except Fault Sweep := do
  let { mem := m, previous, current, freed } := v
  if ← m.marked env current then
    let m ← m.unmarkBlock env current
    let next ← m.nextPointer env current
    return { mem := m, previous := current, current := next, freed }
  else
    let next ← m.nextPointer env current
    let m ← (if m.head env = current then pure (m.setHead env next)
      else m.setNextPointer env previous next)
    let m ← (if next ≠ 0 then do
        let markPresent ← m.marked env next
        let m ← m.setPreviousPointer env next previous
        if markPresent then m.markBlock env next else pure m
      else pure m)
    let m ← m.myfree current
    return { mem := m, previous, current := next, freed := freed ++ [current] }

/-- `sweep`, with the blocks it freed. -/
def sweep (fuel : Nat) (m : Memory) : Except Fault (Memory × List Nat) := do
  let v ← whileM .fuel (fun v => v.current != 0) (sweepRound env) fuel
    { mem := m, previous := env.heapListHead, current := m.head env, freed := [] }
  return (v.mem, v.freed)

/-- The four root scans of `gc_collect`. -/
def scanRoots (m : Memory) (q : Queue) : Except Fault Queue := do
  let q ← scanRegisters env m q
  let q ← scanStack env m q
  let q ← scanDataSegment env m q
  scanBssSegment env m q

/-- `gc_collect` -/
def gcCollect (fuel : Nat) (s : State) : Except Fault State := do
  let s := { s with gcRunning := true, numCollections := s.numCollections + 1 }
  if s.queue.head ≠ 0 then throw .assertion
  if s.queue.tail ≠ 0 then throw .assertion
  let start := s.toMemory
  let q ← scanRoots env start s.queue
  let (m, q) ← markReachableHeapObjects env fuel start q
  let (m, freed) ← sweep env fuel m
  return { s with
    toMemory := m
    queue := q
    gcRunning := false
    collections := s.collections ++ [⟨start, freed⟩] }

end PrecisionGc
