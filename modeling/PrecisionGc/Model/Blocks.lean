import PrecisionGc.Model.Dlmalloc

/-!
# Giving blocks back, moving them, and placing them

`dlfree`, `dispose_chunk`, `try_realloc_chunk` and the entry points that are built on them, with
the tags of the chunks read and written as the source does. Where a runtime check (`RTCHECK`) fails
the process is aborted: that is the failure `assertion`. `dlmalloc` and `dlrealloc` are here with a
collection that frees blocks by `dlfree`, and with the words that `memcpy` and `memset` write.
-/

namespace PrecisionGc.Dlmalloc

/-- What the operating system and the collector do during a call. -/
structure World where
  mmap : Nat → Option Nat
  /-- `munmap` succeeds -/
  munmap : Nat → Nat → Bool
  /-- the blocks that a collection finds to be garbage, in the order of the sweep -/
  garbage : List Nat

/-- The allocator with the count-down to the next scan for unused segments. -/
structure Heap extends Allocator where
  releaseChecks : Nat

/-- `MAX_RELEASE_CHECK_RATE` -/
def maxReleaseCheckRate : Nat := 4095

/-- `mem2chunk` -/
def mem2chunk (mem : Nat) : Nat := subSize mem 16

/-- `CORRUPTION_ERROR_ACTION` and `USAGE_ERROR_ACTION`: `ABORT`. -/
def abort {α : Type} : Except Fault α := throw .assertion

namespace MState

variable (m : MState)

/-- `p->prev_foot` -/
def prevFoot (p : Nat) : Nat := m.mem p

/-- `pinuse` -/
def pinuse (p : Nat) : Bool := m.head p &&& 1 != 0

/-- `cinuse` -/
def cinuse (p : Nat) : Bool := m.head p &&& 2 != 0

/-- `is_mmapped` -/
def isMmapped (p : Nat) : Bool := m.head p &&& 3 == 0

/-- `ok_address` -/
def okAddress (a : Nat) : Bool := m.leastAddr ≤ a

/-- `clear_pinuse` -/
def clearPinuse (p : Nat) : MState := m.setHead p (m.head p - m.head p % 2)

/-- `set_inuse` -/
def setInuse (p s : Nat) : MState :=
  let m := m.setHead p (m.head p &&& 1 ||| s ||| 2)
  m.setHead (addSize p s) (m.head (addSize p s) ||| 1)

end MState

/-! ## Freeing -/

/-- The chunk was mapped directly: it is unmapped. -/
def unmapChunk (munmap : Nat → Nat → Bool) (m : MState) (p psize : Nat) : MState :=
  let prevsize := m.prevFoot p
  let psize := addSize psize (addSize prevsize 32)
  if munmap (subSize p prevsize) psize then { m with footprint := subSize m.footprint psize } else m

/-- Consolidate backward; `none` if there is nothing left to do. -/
def consolidateBackward (munmap : Nat → Nat → Bool) (m : MState) (p psize next : Nat) :
    Except Fault (MState × Option (Nat × Nat)) :=
  if m.pinuse p then return (m, some (p, psize))
  else if m.isMmapped p then return (unmapChunk munmap m p psize, none)
  else
    let prevsize := m.prevFoot p
    let prev := subSize p prevsize
    let psize := addSize psize prevsize
    if m.okAddress prev then
      if prev != m.dv then return (m.unlinkChunk prev prevsize, some (prev, psize))
      else if m.head next &&& 3 = 3 then
        return ({ m with dvsize := psize }.setFreeWithPinuse prev psize next, none)
      else return (m, some (prev, psize))
    else abort

/-- Consolidate forward; `none` if the chunk is not to be put into a bin. -/
def consolidateForward (m : MState) (p psize next : Nat) : MState × Option Nat :=
  if m.cinuse next then (m.setFreeWithPinuse p psize next, some psize)
  else if next = m.top then
    let tsize := addSize m.topsize psize
    let m := { m with topsize := tsize, top := p }.setHead p (tsize ||| 1)
    (if p = m.dv then { m with dv := 0, dvsize := 0 } else m, none)
  else if next = m.dv then
    let dsize := addSize m.dvsize psize
    ({ m with dvsize := dsize, dv := p }.setFreeChunk p dsize, none)
  else
    let nsize := m.chunksize next
    let psize := addSize psize nsize
    let m := (m.unlinkChunk next nsize).setFreeChunk p psize
    if p = m.dv then ({ m with dvsize := psize }, none) else (m, some psize)

/-- `dispose_chunk` -/
def disposeChunk (munmap : Nat → Nat → Bool) (m : MState) (p psize : Nat) : Except Fault MState :=
  let next := addSize p psize
  do
    match ← consolidateBackward munmap m p psize next with
    | (m, none) => return m
    | (m, some (p, psize)) =>
      if m.okAddress next then
        match consolidateForward m p psize next with
        | (m, none) => return m
        | (m, some psize) => return m.insertChunk p psize
      else abort

/-- `if (--m->release_checks == 0) release_unused_segments(m)` -/
def Heap.releaseCheck (munmap : Nat → Nat → Bool) (h : Heap) : Heap :=
  let checks := subSize h.releaseChecks 1
  if checks = 0 then
    { h with
      gm := (releaseUnusedSegments munmap h.gm).1
      releaseChecks := max (h.gm.segs.length - 1) maxReleaseCheckRate }
  else { h with releaseChecks := checks }

/-- `dlfree` -/
def Heap.dlfree (munmap : Nat → Nat → Bool) (h : Heap) (mem : Nat) : Except Fault Heap :=
  if mem = 0 then return h
  else
    let p := mem2chunk mem
    if h.gm.okAddress p && h.gm.isInuse p then
      let psize := h.gm.chunksize p
      let next := addSize p psize
      do
        match ← consolidateBackward munmap h.gm p psize next with
        | (gm, none) => return { h with gm }
        | (gm, some (p, psize)) =>
          if p < next && gm.pinuse next then
            match consolidateForward gm p psize next with
            | (gm, none) => return { h with gm }
            | (gm, some psize) =>
              let h := { h with gm := gm.insertChunk p psize }
              return if isSmall psize then h else h.releaseCheck munmap
          else abort
    else abort

/-! ## Reallocation -/

/-- `mmap_resize`, without `mremap` -/
def mmapResize (m : MState) (oldp nb : Nat) : Nat :=
  let oldsize := m.chunksize oldp
  if isSmall nb then 0
  else if addSize nb 8 ≤ oldsize && subSize oldsize nb ≤ 2 * granularity then oldp
  else 0

/-- The chunk is cut to `nb` bytes, and the remainder disposed of. -/
def splitOff (munmap : Nat → Nat → Bool) (m : MState) (p nb rsize : Nat) : Except Fault MState :=
  let r := addSize p nb
  disposeChunk munmap ((m.setInuse p nb).setInuse r rsize) r rsize

/-- `try_realloc_chunk` -/
def tryReallocChunk (munmap : Nat → Nat → Bool) (m : MState) (p nb : Nat) :
    Except Fault (Nat × MState) :=
  let oldsize := m.chunksize p
  let next := addSize p oldsize
  if m.okAddress p && m.isInuse p && p < next && m.pinuse next then
    if m.isMmapped p then return (mmapResize m p nb, m)
    else if nb ≤ oldsize then -- already big enough
      let rsize := subSize oldsize nb
      if minChunkSize ≤ rsize then return (p, ← splitOff munmap m p nb rsize)
      else return (p, m)
    else if next = m.top then -- extend into top
      let newsize := addSize oldsize m.topsize
      if nb < newsize then
        let newtopsize := subSize newsize nb
        let newtop := addSize p nb
        let m := (m.setInuse p nb).setHead newtop (newtopsize ||| 1)
        return (p, { m with top := newtop, topsize := newtopsize })
      else return (0, m)
    else if next = m.dv then -- extend into dv
      let newsize := addSize oldsize m.dvsize
      if nb ≤ newsize then
        let dsize := subSize newsize nb
        if minChunkSize ≤ dsize then
          let r := addSize p nb
          let n := addSize r dsize
          let m := (((m.setInuse p nb).setFreeChunk r dsize).clearPinuse n)
          return (p, { m with dvsize := dsize, dv := r })
        else return (p, { m.setInuse p newsize with dvsize := 0, dv := 0 })
      else return (0, m)
    else if !m.cinuse next then -- extend into next free chunk
      let nextsize := m.chunksize next
      let newsize := addSize oldsize nextsize
      if nb ≤ newsize then
        let rsize := subSize newsize nb
        let m := m.unlinkChunk next nextsize
        if rsize < minChunkSize then return (p, m.setInuse p newsize)
        else return (p, ← splitOff munmap m p nb rsize)
      else return (0, m)
    else return (0, m)
  else abort

/-! ## Bytes -/

/-- The byte at `a`, of the word that it is part of. -/
def MState.byte (m : MState) (a : Nat) : Nat := m.mem (a / 8 * 8) / 256 ^ (a % 8) % 256

/-- `*(unsigned char *)a = v` -/
def MState.setByte (m : MState) (a v : Nat) : MState :=
  let w := m.mem (a / 8 * 8)
  let w := w / 256 ^ (a % 8 + 1) * 256 ^ (a % 8 + 1) + v % 256 * 256 ^ (a % 8) + w % 256 ^ (a % 8)
  { m with mem := Function.update m.mem (a / 8 * 8) w }

/-- `memset(a, 0, n)` -/
def MState.clear (m : MState) (a : Nat) : Nat → MState
  | 0 => m
  | n + 1 => (m.clear a n).setByte (a + n) 0

/-- `memcpy(dst, src, n)` -/
def MState.copy (m : MState) (dst src : Nat) : Nat → MState
  | 0 => m
  | n + 1 =>
    let m := m.copy dst src n
    m.setByte (dst + n) (m.byte (src + n))

/-! ## Requests -/

namespace Heap

/-- `gc_collect`, as far as the allocator sees it: the garbage is freed. -/
def gcCollect (w : World) (h : Heap) : Except Fault Heap := w.garbage.foldlM (dlfree w.munmap) h

/-- The state behind a call of `sys_alloc`, which starts the count-down when it maps the first
segment. -/
def withSysAlloc (h : Heap) (gm : MState) : Heap :=
  { h with
    gm
    releaseChecks :=
      if !h.gm.isInitialized && gm.isInitialized then maxReleaseCheckRate else h.releaseChecks }

/-- The allocator's counter is advanced from `postaction` on. -/
def postaction (h : Heap) (mem : Nat) : Heap :=
  { h with toAllocator := h.toAllocator.postaction mem }

/-- `dlmalloc`; one unit of fuel is one pass from `attempt_allocation`. -/
def dlmalloc (w : World) : Nat → Nat → Heap → Except Fault (Nat × Heap)
  | 0, _, _ => throw .fuel
  | fuel + 1, bytes, h =>
    let nb := requestSize bytes
    match fromHeap h.gm bytes nb with
    | some (mem, gm) => return (mem, { h with gm }.postaction mem)
    | none =>
      let h' := { h with heapSize := getHeapSize h.gm }
      if h.collects then do
        let h' ← gcCollect w h'
        dlmalloc w fuel bytes { h' with allocatedSinceLastGC := 0 }
      else do
        let (mem, gm) ← sysAlloc w.mmap h.gm (getHeapSize h.gm) nb
        return (mem, (h'.withSysAlloc gm).postaction mem)

/-- The request that `dlcalloc` makes; on overflow it is one that fails. -/
def callocRequest (nElements elemSize : Nat) : Nat :=
  if nElements = 0 then 0
  else
    let req := nElements * elemSize % 2 ^ 64
    if (nElements ||| elemSize) / 2 ^ 16 != 0 && req / nElements != elemSize then maxSizeT
    else req

/-- `dlcalloc` -/
def dlcalloc (w : World) (fuel nElements elemSize : Nat) (h : Heap) : Except Fault (Nat × Heap) :=
  let req := callocRequest nElements elemSize
  do
    let (mem, h) ← dlmalloc w fuel req h
    if mem != 0 && !h.gm.isMmapped (mem2chunk mem) then
      return (mem, { h with gm := h.gm.clear mem req })
    else return (mem, h)

/-- What is in the block at `oldmem` is copied to `mem`, and the block is freed. -/
def moveTo (w : World) (h : Heap) (oldmem bytes mem : Nat) : Except Fault Heap :=
  let oldp := mem2chunk oldmem
  let oc := subSize (h.gm.chunksize oldp) (overheadFor h.gm oldp)
  dlfree w.munmap { h with gm := h.gm.copy mem oldmem (min oc bytes) } oldmem

/-- `dlrealloc` -/
def dlrealloc (w : World) (fuel oldmem bytes : Nat) (h : Heap) : Except Fault (Nat × Heap) :=
  if oldmem = 0 then dlmalloc w fuel bytes h
  else if maxRequest ≤ bytes then return (0, h)
  else
    let oldSize := toLong (usableSize h.gm oldmem)
    let oldp := mem2chunk oldmem
    do
      let (newp, gm) ← Dlmalloc.tryReallocChunk w.munmap h.gm oldp (request2size bytes)
      let h := { h with gm }
      if newp != 0 then
        let mem := chunk2mem newp
        return (mem, { h with toAllocator := h.toAllocator.resized oldSize mem })
      else
        let (mem, h) ← dlmalloc w fuel bytes h
        if mem = 0 then return (0, h)
        else
          let h ← moveTo w h oldmem bytes mem
          return (mem, { h with toAllocator := h.toAllocator.resized oldSize mem })

/-- `dlrealloc_in_place` -/
def dlreallocInPlace (w : World) (oldmem bytes : Nat) (h : Heap) : Except Fault (Nat × Heap) :=
  if oldmem = 0 then return (0, h)
  else if maxRequest ≤ bytes then return (0, h)
  else
    let oldp := mem2chunk oldmem
    do
      let (newp, gm) ← Dlmalloc.tryReallocChunk w.munmap h.gm oldp (request2size bytes)
      return (if newp = oldp then oldmem else 0, { h with gm })

/-! ## Aligned blocks -/

/-- `while (a < alignment) a <<= 1` -/
def roundUpAlignment (alignment : Nat) : Nat → Nat → Except Fault Nat
  | 0, _ => throw .fuel
  | fuel + 1, a =>
    if a < alignment then roundUpAlignment alignment fuel (a * 2 % 2 ^ 64) else return a

/-- The alignment, as a power of 2 that is at least `MIN_CHUNK_SIZE`. -/
def memAlignment (alignment : Nat) : Except Fault Nat :=
  let alignment := max alignment minChunkSize
  if alignment &&& subSize alignment 1 != 0 then roundUpAlignment alignment 64 32
  else return alignment

/-- The request that `internal_memalign` makes. -/
def memalignRequest (alignment bytes : Nat) : Nat :=
  subSize (addSize (addSize (request2size bytes) alignment) minChunkSize) 8

/-- Find an aligned spot inside the chunk, and give back the leading space. -/
def giveBackLeader (w : World) (m : MState) (p mem alignment : Nat) :
    Except Fault (Nat × MState) :=
  if mem &&& subSize alignment 1 = 0 then return (p, m)
  else
    let br := mem2chunk (subSize (addSize mem alignment) 1 &&& subSize 0 alignment)
    let pos := if minChunkSize ≤ subSize br p then br else addSize br alignment
    let leadsize := subSize pos p
    let newsize := subSize (m.chunksize p) leadsize
    if m.isMmapped p then
      let m := { m with mem := Function.update m.mem pos (addSize (m.prevFoot p) leadsize) }
      return (pos, m.setHead pos newsize)
    else do
      let m ← disposeChunk w.munmap ((m.setInuse pos newsize).setInuse p leadsize) p leadsize
      return (pos, m)

/-- Give back spare room at the end. -/
def giveBackTrailer (w : World) (m : MState) (p nb : Nat) : Except Fault MState :=
  if !m.isMmapped p && addSize nb minChunkSize < m.chunksize p then
    splitOff w.munmap m p nb (subSize (m.chunksize p) nb)
  else return m

/-- `internal_memalign` -/
def internalMemalign (w : World) (fuel alignment bytes : Nat) (h : Heap) :
    Except Fault (Nat × Heap) := do
  let alignment ← memAlignment alignment
  if subSize maxRequest alignment ≤ bytes then return (0, h)
  else
    let (mem, h) ← dlmalloc w fuel (memalignRequest alignment bytes) h
    if mem = 0 then return (0, h)
    else
      let (p, gm) ← giveBackLeader w h.gm (mem2chunk mem) mem alignment
      let gm ← giveBackTrailer w gm p (request2size bytes)
      return (chunk2mem p, { h with gm })

/-- `dlmemalign` -/
def dlmemalign (w : World) (fuel alignment bytes : Nat) (h : Heap) : Except Fault (Nat × Heap) :=
  if alignment ≤ 16 then dlmalloc w fuel bytes h else internalMemalign w fuel alignment bytes h

/-- `EINVAL` -/
def einval : Nat := 22

/-- `ENOMEM` -/
def enomem : Nat := 12

/-- The alignment is not a power of 2 that is a multiple of `sizeof(void*)`. -/
def refusesAlignment (alignment : Nat) : Bool :=
  let d := alignment / 8
  let r := alignment % 8
  r != 0 || d == 0 || d &&& subSize d 1 != 0

/-- `dlposix_memalign`: the result, and what `*pp` becomes. -/
def dlposixMemalign (w : World) (fuel alignment bytes : Nat) (h : Heap) :
    Except Fault (Nat × Option Nat × Heap) :=
  let done := fun (mem, h) => if mem = 0 then (enomem, none, h) else (0, some mem, h)
  if alignment = 16 then return done (← dlmalloc w fuel bytes h)
  else if refusesAlignment alignment then return (einval, none, h)
  else if bytes ≤ subSize maxRequest alignment then
    return done (← internalMemalign w fuel (max alignment minChunkSize) bytes h)
  else return (enomem, none, h)

/-! ## Many blocks at once -/

/-- The loop of `internal_bulk_free`, over what is left of the array. -/
def bulkFree (w : World) (m : MState) : List Nat → Except Fault MState
  | [] => return m
  | mem :: array =>
    if mem = 0 then bulkFree w m array
    else
      let p := mem2chunk mem
      let psize := m.chunksize p
      if m.okAddress p && m.isInuse p then
        let next := addSize p psize
        match array with
        | b :: array =>
          if b = chunk2mem next then -- merge with the next chunk
            bulkFree w (m.setInuse p (addSize (m.chunksize next) psize)) (chunk2mem p :: array)
          else do
            let m ← disposeChunk w.munmap m p psize
            bulkFree w m (b :: array)
        | [] => disposeChunk w.munmap m p psize
      else abort
  termination_by array => array.length

/-- `internal_bulk_free` -/
def internalBulkFree (w : World) (h : Heap) (array : List Nat) : Except Fault Heap := do
  let gm ← bulkFree w h.gm array
  return { h with gm }

end Heap

end PrecisionGc.Dlmalloc
