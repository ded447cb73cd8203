import PrecisionGc.Model.SysAlloc

/-!
# `dlmalloc` and `dlrealloc`

The request paths in front of the system layer, and the bookkeeping of the collector: a request that
neither the bins nor `dv` nor `top` serve starts a collection and is tried again, or extends the
heap. The bins are the list of their chunks, the newest first, so that the first chunk of a small
bin is the first of its index in the list, and a tree search is a search for the least chunk that
fits; that the links between the chunks are sound, which the code checks as it goes, is not part of
the state. Neither are the bytes of the program in the chunks.
-/

namespace PrecisionGc.Dlmalloc

/-! ## Requests -/

/-- `MAX_SMALL_REQUEST` -/
def maxSmallRequest : Nat := 232

/-- `MIN_REQUEST` -/
def minRequest : Nat := 23

/-- `MAX_REQUEST` -/
def maxRequest : Nat := 2 ^ 64 - 128

/-- `request2size` -/
def request2size (req : Nat) : Nat := if req < minRequest then minChunkSize else padRequest req

/-- The size of the chunk that `dlmalloc` looks for. -/
def requestSize (bytes : Nat) : Nat :=
  if bytes ≤ maxSmallRequest then request2size bytes
  else if maxRequest ≤ bytes then maxSizeT
  else padRequest bytes

/-- `small_index` -/
def smallIndex (s : Nat) : Nat := s / 8

/-- `small_index2size` -/
def smallIndex2size (i : Nat) : Nat := i * 8

/-- `NSMALLBINS` -/
def nsmallbins : Nat := 32

/-- `is_small` -/
def isSmall (s : Nat) : Bool := smallIndex s < nsmallbins

/-! ## The bins -/

namespace MState

variable (m : MState)

/-- The first chunk of a small bin. -/
def smallbin (i : Nat) : Option (Nat × Nat) := m.bins.find? fun c => smallIndex c.2 == i

/-- `set_inuse_and_pinuse` -/
def setInuseAndPinuse (p s : Nat) : MState :=
  let m := m.setHead p (s ||| 3)
  m.setHead (addSize p s) (m.head (addSize p s) ||| 1)

/-- `replace_dv` -/
def replaceDv (p s : Nat) : MState :=
  let m := if m.dvsize != 0 then m.insertChunk m.dv m.dvsize else m
  { m with dvsize := s, dv := p }

end MState

/-- The tree chunk of the least size that holds `nb` bytes, of several the oldest. -/
def leastFit (nb : Nat) : List (Nat × Nat) → Option (Nat × Nat)
  | [] => none
  | c :: bins =>
    match leastFit nb bins with
    | none => if !isSmall c.2 && nb ≤ c.2 then some c else none
    | some b => if !isSmall c.2 && nb ≤ c.2 && c.2 < b.2 then some c else some b

/-- `tmalloc_large`; `dv` is preferred if it fits as well. -/
def tmallocLarge (m : MState) (nb : Nat) : Option (Nat × MState) := do
  let v ← leastFit nb m.bins
  let rsize := subSize v.2 nb
  if rsize < subSize m.dvsize nb then
    let m := m.unlinkChunk v.1 v.2
    if rsize < minChunkSize then some (chunk2mem v.1, m.setInuseAndPinuse v.1 (addSize rsize nb))
    else
      let r := addSize v.1 nb
      some (chunk2mem v.1, ((m.setInuseChunk v.1 nb).setFreeChunk r rsize).insertChunk r rsize)
  else none

/-- `tmalloc_small` -/
def tmallocSmall (m : MState) (nb : Nat) : Option (Nat × MState) := do
  let v ← leastFit nb m.bins
  let rsize := subSize v.2 nb
  let m := m.unlinkChunk v.1 v.2
  if rsize < minChunkSize then some (chunk2mem v.1, m.setInuseAndPinuse v.1 (addSize rsize nb))
  else
    let r := addSize v.1 nb
    some (chunk2mem v.1, ((m.setInuseChunk v.1 nb).setFreeChunk r rsize).replaceDv r rsize)

/-- A remainderless fit: the small bin for `nb`, or the next one. -/
def smallFit (m : MState) (nb : Nat) : Option (Nat × MState) := do
  let idx := smallIndex nb
  let idx := if (m.smallbin idx).isSome then idx else idx + 1
  let p ← m.smallbin idx
  some (chunk2mem p.1, (m.unlinkChunk p.1 p.2).setInuseAndPinuse p.1 (smallIndex2size idx))

/-- The next nonempty small bin, whose chunk is split. -/
def smallSplit (m : MState) (nb : Nat) : Option (Nat × MState) := do
  let i ← (List.range nsmallbins).find? fun i => smallIndex nb < i && (m.smallbin i).isSome
  let p ← m.smallbin i
  let m := m.unlinkChunk p.1 p.2
  let rsize := subSize (smallIndex2size i) nb
  if rsize < minChunkSize then
    some (chunk2mem p.1, m.setInuseAndPinuse p.1 (smallIndex2size i))
  else
    let r := addSize p.1 nb
    some (chunk2mem p.1, ((m.setInuseChunk p.1 nb).setFreeChunk r rsize).replaceDv r rsize)

/-- The chunk of a bin that serves a request. -/
def fromBins (m : MState) (bytes nb : Nat) : Option (Nat × MState) :=
  if bytes ≤ maxSmallRequest then
    smallFit m nb <|> if m.dvsize < nb then smallSplit m nb <|> tmallocSmall m nb else none
  else if maxRequest ≤ bytes then none
  else tmallocLarge m nb

/-- Split `dv`, or use it up. -/
def fromDv (m : MState) (nb : Nat) : Nat × MState :=
  let rsize := subSize m.dvsize nb
  let p := m.dv
  if minChunkSize ≤ rsize then
    let r := addSize p nb
    (chunk2mem p, ({ m with dv := r, dvsize := rsize }.setFreeChunk r rsize).setInuseChunk p nb)
  else (chunk2mem p, { m with dvsize := 0, dv := 0 }.setInuseAndPinuse p m.dvsize)

/-- What the heap serves as it is. -/
def fromHeap (m : MState) (bytes nb : Nat) : Option (Nat × MState) :=
  fromBins m bytes nb <|>
    if nb ≤ m.dvsize then some (fromDv m nb)
    else if nb < m.topsize then some (splitTop m nb)
    else none

/-! ## Accounting -/

/-- `overhead_for` -/
def overheadFor (m : MState) (p : Nat) : Nat := if m.head p &&& 3 = 0 then 16 else 8

/-- `dlmalloc_usable_size` -/
def usableSize (m : MState) (mem : Nat) : Nat :=
  let p := subSize mem 16
  if mem != 0 && m.isInuse p then subSize (m.chunksize p) (overheadFor m p) else 0

/-- An integer cut to a `long`. -/
def wrapLong (i : Int) : Int := Int.bmod i (2 ^ 64)

/-- The allocator with the statics around it. -/
structure Allocator where
  gm : MState
  heapSize : Int
  allocatedSinceLastGC : Int
  gcInitialised : Bool

/-- The calls out of `dlmalloc` that decide what becomes of a request. -/
inductive Call
  | gcCollect
  /-- a call of `sys_alloc`, and its result -/
  | sysAlloc (nb mem : Nat)
  deriving DecidableEq

/-- What `dlmalloc` and `dlrealloc` call and the model leaves open. -/
structure Callees where
  gcCollect : MState → MState
  mmap : Nat → Option Nat
  dlfree : MState → Nat → MState
  tryReallocChunk : MState → Nat → Nat → Nat × MState

namespace Allocator

variable (a : Allocator)

/-- `allocated_since_last_GC += n` -/
def count (n : Int) : Allocator :=
  { a with allocatedSinceLastGC := wrapLong (a.allocatedSinceLastGC + n) }

/-- From `postaction` on. -/
def postaction (mem : Nat) : Allocator := a.count (usableSize a.gm mem + 16 : Nat)

/-- The end of `dlrealloc`, for a block of `oldSize` bytes that is now at `mem`. -/
def resized (oldSize : Int) (mem : Nat) : Allocator :=
  let newSize := toLong (usableSize a.gm mem)
  if 0 < newSize then a.count (newSize - oldSize) else a

/-- The heap grew by more than its share since the last collection. -/
def collects : Bool :=
  (getHeapSize a.gm).tdiv fsd < a.allocatedSinceLastGC && a.gcInitialised

end Allocator

variable (c : Callees)

/-- `dlmalloc`, with the calls that it makes; one unit of fuel is one pass from
`attempt_allocation`. -/
def dlmalloc : Nat → Nat → Allocator → Except Fault (Nat × Allocator × List Call)
  | 0, _, _ => throw .fuel
  | fuel + 1, bytes, a =>
    let nb := requestSize bytes
    match fromHeap a.gm bytes nb with
    | some (mem, gm) => return (mem, { a with gm }.postaction mem, [])
    | none =>
      let a' := { a with heapSize := getHeapSize a.gm }
      if a.collects then do
        let (mem, a', calls) ← dlmalloc fuel bytes
          { a' with gm := c.gcCollect a.gm, allocatedSinceLastGC := 0 }
        return (mem, a', .gcCollect :: calls)
      else do
        let (mem, gm) ← sysAlloc c.mmap a.gm (getHeapSize a.gm) nb
        return (mem, { a' with gm }.postaction mem, [.sysAlloc nb mem])

/-- `dlrealloc` -/
def dlrealloc (fuel oldmem bytes : Nat) (a : Allocator) :
    Except Fault (Nat × Allocator × List Call) :=
  if oldmem = 0 then dlmalloc c fuel bytes a
  else if maxRequest ≤ bytes then return (0, a, [])
  else
    let oldSize := toLong (usableSize a.gm oldmem)
    match c.tryReallocChunk a.gm (subSize oldmem 16) (request2size bytes) with
    | (0, gm) => do
      let (mem, a, calls) ← dlmalloc c fuel bytes { a with gm }
      if mem = 0 then return (0, a, calls)
      else return (mem, { a with gm := c.dlfree a.gm oldmem }.resized oldSize mem, calls)
    | (newp, gm) => return (chunk2mem newp, { a with gm }.resized oldSize (chunk2mem newp), [])

end PrecisionGc.Dlmalloc
