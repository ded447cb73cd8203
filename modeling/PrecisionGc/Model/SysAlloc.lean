import PrecisionGc.Model.Memory
import PrecisionGc.Library.Regions

/-!
# The allocator's system layer

`sys_alloc`, `sys_trim` and what they call in `dlmalloc.c`, in the configuration that the `Makefile`
builds: no `MORECORE`, no footers, no locks, thresholds at `MAX_SIZE_T`, a 64-bit `size_t` that
wraps around. The segment records are a list, `m->seg` first; the bins are the chunks in them. Chunk
words (`head` and `prev_foot`) are kept by address, and a write is not checked to lie in a mapping.
What the operating system answers is an argument.
-/

namespace PrecisionGc.Dlmalloc
open Regions

/-! ## Sizes -/

def maxSizeT : Nat := 2 ^ 64 - 1

/-- `a + b` in `size_t` -/
def addSize (a b : Nat) : Nat := (a + b) % 2 ^ 64

/-- `a - b` in `size_t` -/
def subSize (a b : Nat) : Nat := (a + (2 ^ 64 - b)) % 2 ^ 64

/-- `align_offset` -/
def alignOffset (a : Nat) : Nat := if a % 16 = 0 then 0 else 16 - a % 16

/-- `chunk2mem` -/
def chunk2mem (p : Nat) : Nat := addSize p 16

/-- `align_as_chunk` -/
def alignAsChunk (a : Nat) : Nat := addSize a (alignOffset (chunk2mem a))

/-- `pad_request` -/
def padRequest (req : Nat) : Nat := addSize (addSize req 8) 15 / 16 * 16

/-- `sizeof(struct malloc_segment)` -/
def segmentRecordSize : Nat := 32

/-- `MIN_CHUNK_SIZE` -/
def minChunkSize : Nat := 32

/-- `TOP_FOOT_SIZE` -/
def topFootSize : Nat := 80

example : topFootSize =
    alignOffset (chunk2mem 0) + padRequest segmentRecordSize + minChunkSize := rfl

/-- `SYS_ALLOC_PADDING` -/
def sysAllocPadding : Nat := topFootSize + 16

/-- `mparams.granularity` -/
def granularity : Nat := 2 ^ 16

/-- `granularity_align` -/
def granularityAlign (s : Nat) : Nat := addSize s (granularity - 1) / granularity * granularity

/-- `mmap_align`, for pages of 4096 bytes -/
def mmapAlign (s : Nat) : Nat := addSize s 4095 / 4096 * 4096

/-- `mparams.mmap_threshold` and `mparams.trim_threshold` -/
def threshold : Nat := maxSizeT

/-- The heap share of an extension, one part in `FSD`. -/
def fsd : Nat := 3

/-- A `size_t` read as a `long`. -/
def toLong (a : Nat) : Int := if a < 2 ^ 63 then a else a - 2 ^ 64

/-! ## The allocator's state -/

/-- `struct malloc_segment`. `record` is where the record is kept, `none` for `m->seg`. -/
structure Segment where
  base : Nat
  size : Nat
  isMmapped : Bool
  isExtern : Bool
  record : Option Nat
  deriving DecidableEq

/-- The addresses of a segment. -/
def Segment.region (sp : Segment) : Finset Nat := Regions.region sp.base sp.size

/-- `segment_holds` -/
def Segment.holds (sp : Segment) (a : Nat) : Bool :=
  sp.base ≤ a && a < addSize sp.base sp.size

/-- `struct malloc_state`. -/
structure MState where
  dvsize : Nat
  topsize : Nat
  leastAddr : Nat
  dv : Nat
  top : Nat
  trimCheck : Nat
  footprint : Nat
  maxFootprint : Nat
  footprintLimit : Nat
  segs : List Segment
  /-- the chunks in the small bins and the tree bins, with their sizes -/
  bins : List (Nat × Nat)
  /-- the words of the heap -/
  mem : Nat → Nat

namespace MState

/-- The zeroed static `_gm_`. -/
def start : MState where
  dvsize := 0
  topsize := 0
  leastAddr := 0
  dv := 0
  top := 0
  trimCheck := 0
  footprint := 0
  maxFootprint := 0
  footprintLimit := 0
  segs := []
  bins := []
  mem := fun _ => 0

variable (m : MState)

/-- `is_initialized` -/
def isInitialized : Bool := m.top != 0

/-- `p->head` -/
def head (p : Nat) : Nat := m.mem (addSize p 8)

def setHead (p v : Nat) : MState := { m with mem := Function.update m.mem (addSize p 8) v }

/-- `set_foot` -/
def setFoot (p s : Nat) : MState := { m with mem := Function.update m.mem (addSize p s) s }

/-- `is_inuse` -/
def isInuse (p : Nat) : Bool := m.head p &&& 3 != 1

/-- `chunksize` -/
def chunksize (p : Nat) : Nat := m.head p / 8 * 8

/-- `set_size_and_pinuse_of_inuse_chunk` -/
def setInuseChunk (p s : Nat) : MState := m.setHead p (s ||| 3)

/-- `set_size_and_pinuse_of_free_chunk` -/
def setFreeChunk (p s : Nat) : MState := (m.setHead p (s ||| 1)).setFoot p s

/-- `set_free_with_pinuse` -/
def setFreeWithPinuse (p s n : Nat) : MState :=
  (m.setHead n (m.head n - m.head n % 2)).setFreeChunk p s

/-- `insert_chunk` -/
def insertChunk (p s : Nat) : MState := { m with bins := (p, s) :: m.bins }

/-- `unlink_chunk` -/
def unlinkChunk (p s : Nat) : MState := { m with bins := m.bins.erase (p, s) }

/-- `segment_holding` -/
def segmentHolding (addr : Nat) : Option Segment := m.segs.find? fun sp => sp.holds addr

/-- `has_segment_link` -/
def hasSegmentLink (ss : Segment) : Bool := m.segs.any fun sp => sp.record.any ss.holds

/-- The footprint after an extension by `size` would be over the limit, or wrap around. -/
def overLimit (size : Nat) : Bool :=
  m.footprintLimit != 0 &&
    (addSize m.footprint size ≤ m.footprint || m.footprintLimit < addSize m.footprint size)

/-- `m->footprint += size`, and `m->max_footprint` with it. -/
def addFootprint (size : Nat) : MState :=
  { m with
    footprint := addSize m.footprint size
    maxFootprint := max m.maxFootprint (addSize m.footprint size) }

end MState

/-- `get_heap_size` -/
def getHeapSize (m : MState) : Int := if m.isInitialized then toLong m.footprint else 0

/-! ## Placing new memory -/

/-- `init_top` -/
def initTop (m : MState) (p psize : Nat) : MState :=
  let offset := alignOffset (chunk2mem p)
  let p := addSize p offset
  let psize := subSize psize offset
  { (m.setHead p (psize ||| 1)).setHead (addSize p psize) topFootSize with
    top := p, topsize := psize, trimCheck := threshold }

/-- `prepend_alloc` -/
def prependAlloc (m : MState) (newbase oldbase nb : Nat) : Nat × MState :=
  let p := alignAsChunk newbase
  let oldfirst := alignAsChunk oldbase
  let psize := subSize oldfirst p
  let q := addSize p nb
  let qsize := subSize psize nb
  let m := m.setInuseChunk p nb
  if oldfirst = m.top then
    let tsize := addSize m.topsize qsize
    (chunk2mem p, { m.setHead q (tsize ||| 1) with top := q, topsize := tsize })
  else if oldfirst = m.dv then
    let dsize := addSize m.dvsize qsize
    (chunk2mem p, { m.setFreeChunk q dsize with dv := q, dvsize := dsize })
  else if m.isInuse oldfirst then
    (chunk2mem p, (m.setFreeWithPinuse q qsize oldfirst).insertChunk q qsize)
  else
    -- the first chunk of the old base is free: it joins the remainder
    let nsize := m.chunksize oldfirst
    let m := m.unlinkChunk oldfirst nsize
    let oldfirst := addSize oldfirst nsize
    let qsize := addSize qsize nsize
    (chunk2mem p, (m.setFreeWithPinuse q qsize oldfirst).insertChunk q qsize)

/-- The loop over trailing fenceposts of `add_segment`, from `p` to the old end. -/
def fenceposts (oldEnd : Nat) : Nat → Nat → MState → MState
  | 0, p, m => m.setHead p (3 ||| 8)
  | n + 1, p, m =>
    let m := m.setHead p (3 ||| 8)
    if p + 16 < oldEnd then fenceposts oldEnd n (p + 8) m else m

/-- The chunk `csp` at the end of the old top where `add_segment` keeps the old segment's
record. -/
def recordChunk (oldTop oldEnd ssize : Nat) : Nat :=
  let rawsp := subSize oldEnd (ssize + 32 + 15)
  let asp := addSize rawsp (alignOffset (chunk2mem rawsp))
  if asp < addSize oldTop minChunkSize then oldTop else asp

/-- `*ss = m->seg`, and the new record in `m->seg`. -/
def MState.pushSegment (m : MState) (ss tbase tsize : Nat) (mmapped : Bool) : MState :=
  let pushed := match m.segs with
    | [] => []
    | seg :: next => { seg with record := some ss } :: next
  { m with segs := ⟨tbase, tsize, mmapped, false, none⟩ :: pushed }

/-- The fenceposts after the record, and the rest of the old top as an ordinary free chunk. -/
def retireTop (m : MState) (oldTop csp tnext oldEnd : Nat) : MState :=
  let m := fenceposts oldEnd (oldEnd / 8) tnext m
  if csp = oldTop then m
  else
    let psize := subSize csp oldTop
    (m.setFreeWithPinuse oldTop psize (addSize oldTop psize)).insertChunk oldTop psize

/-- `add_segment`; without a segment around `top` it reads through NULL. -/
def addSegment (m : MState) (tbase tsize : Nat) (mmapped : Bool) : Except Fault MState :=
  let oldTop := m.top
  match m.segmentHolding oldTop with
  | none => throw .wild
  | some oldsp =>
    let oldEnd := addSize oldsp.base oldsp.size
    let ssize := padRequest segmentRecordSize
    let csp := recordChunk oldTop oldEnd ssize
    let m := (initTop m tbase (subSize tsize topFootSize)).setInuseChunk csp ssize
    let m := m.pushSegment (chunk2mem csp) tbase tsize mmapped
    return retireTop m oldTop csp (addSize csp ssize) oldEnd

/-- Split `nb` bytes off `top`. -/
def splitTop (m : MState) (nb : Nat) : Nat × MState :=
  let rsize := subSize m.topsize nb
  let p := m.top
  let r := addSize p nb
  (chunk2mem p, ({ m with top := r, topsize := rsize }.setHead r (rsize ||| 1)).setInuseChunk p nb)

/-- Allocate from new or extended top space. -/
def allocateTop (m : MState) (nb : Nat) : Nat × MState :=
  if nb < m.topsize then splitTop m nb else (0, m)

/-- A mapped segment that is not the program's own and ends, or begins, at the new memory. -/
def Segment.mergeable (sp : Segment) : Bool := !sp.isExtern && sp.isMmapped

/-- The first segment that ends at `tbase`, if the new memory may be appended to it. -/
def appendTarget (m : MState) (tbase : Nat) : Option Segment :=
  match m.segs.find? fun sp => tbase == addSize sp.base sp.size with
  | none => none
  | some sp => if sp.mergeable && sp.holds m.top then some sp else none

/-- The first segment that starts where the new memory ends, if it may be prepended to it. -/
def prependTarget (m : MState) (tbase tsize : Nat) : Option Segment :=
  match m.segs.find? fun sp => sp.base == addSize tbase tsize with
  | none => none
  | some sp => if sp.mergeable then some sp else none

/-- The part of `sys_alloc` that puts the `tsize` mapped bytes at `tbase` to use. -/
def place (m : MState) (tbase tsize nb : Nat) : Except Fault (Nat × MState) := do
  let m := m.addFootprint tsize
  if !m.isInitialized then
    let m := { m with
      leastAddr := if m.leastAddr = 0 || tbase < m.leastAddr then tbase else m.leastAddr
      segs := [⟨tbase, tsize, true, false, none⟩] }
    return allocateTop (initTop m tbase (subSize tsize topFootSize)) nb
  else
    match appendTarget m tbase with
    | some _ =>
      let segs := updateFirst (fun sp => tbase == addSize sp.base sp.size)
        (fun sp => { sp with size := addSize sp.size tsize }) m.segs
      return allocateTop (initTop { m with segs } m.top (addSize m.topsize tsize)) nb
    | none =>
      let m := { m with leastAddr := min tbase m.leastAddr }
      match prependTarget m tbase tsize with
      | some sp =>
        let segs := updateFirst (fun sp => sp.base == addSize tbase tsize)
          (fun sp => { sp with base := tbase, size := addSize sp.size tsize }) m.segs
        return prependAlloc { m with segs } tbase sp.base nb
      | none =>
        let m ← addSegment m tbase tsize true
        return allocateTop m nb

/-! ## `sys_alloc` -/

/-- `mmap_alloc` -/
def mmapAlloc (mmap : Nat → Option Nat) (m : MState) (nb : Nat) : Nat × MState :=
  let mmsize := mmapAlign (addSize (addSize nb 48) 15)
  if m.overLimit mmsize then (0, m)
  else if nb < mmsize then
    match mmap mmsize with
    | none => (0, m)
    | some mm =>
      let offset := alignOffset (chunk2mem mm)
      let psize := subSize (subSize mmsize offset) 32
      let p := addSize mm offset
      let m := (({ m with mem := Function.update m.mem p offset }).setHead p psize).setHead
        (addSize p psize) (3 ||| 8)
      let m := m.setHead (addSize p (addSize psize 8)) 0
      let m := { m with
        leastAddr := if m.leastAddr = 0 || mm < m.leastAddr then mm else m.leastAddr }
      (chunk2mem p, m.addFootprint mmsize)
  else (0, m)

/-- `heap_size / FSD`, converted to `size_t` -/
def heapShare (heapSize : Int) : Nat := (heapSize.tdiv fsd % 2 ^ 64).toNat

/-- The size with which an initialised heap is extended: a part of the heap beside the request,
rounded up to a further multiple of 16. -/
def extensionSize (heapSize : Int) (nb : Nat) : Nat :=
  let asize := addSize (heapShare heapSize) nb
  addSize asize (16 - asize % 16)

/-- The size that `sys_alloc` computes first: its wraparound test and its limit test are about this
size. -/
def requestedSize (nb : Nat) : Nat := granularityAlign (addSize nb sysAllocPadding)

/-- `sys_alloc` -/
def sysAlloc (mmap : Nat → Option Nat) (m : MState) (heapSize : Int) (nb : Nat) :
    Except Fault (Nat × MState) :=
  let direct := if threshold ≤ nb && m.topsize != 0 then mmapAlloc mmap m nb else (0, m)
  if direct.1 != 0 then return direct
  else
    let asize := requestedSize nb
    if asize ≤ nb then return (0, m)
    else if m.overLimit asize then return (0, m)
    else
      let asize := if m.isInitialized then extensionSize heapSize nb else asize
      match mmap asize with
      | none => return (0, m)
      | some tbase => place m tbase asize nb

/-! ## Giving memory back -/

/-- The segments after `m->seg` that no used chunk pins are unmapped, and their records unlinked. -/
def releaseLoop (munmap : Nat → Nat → Bool) :
    List Segment → MState → Nat → List Segment × MState × Nat
  | [], m, released => ([], m, released)
  | sp :: next, m, released =>
    let p := alignAsChunk sp.base
    let psize := m.chunksize p
    if sp.isMmapped && !sp.isExtern && !m.isInuse p &&
        subSize (addSize sp.base sp.size) topFootSize ≤ addSize p psize then
      let m' := if p = m.dv then { m with dv := 0, dvsize := 0 } else m.unlinkChunk p psize
      if munmap sp.base sp.size then
        releaseLoop munmap next { m' with footprint := subSize m'.footprint sp.size }
          (addSize released sp.size)
      else
        let r := releaseLoop munmap next (m'.insertChunk p psize) released
        (sp :: r.1, r.2)
    else
      let r := releaseLoop munmap next m released
      (sp :: r.1, r.2)

/-- `release_unused_segments` -/
def releaseUnusedSegments (munmap : Nat → Nat → Bool) (m : MState) : MState × Nat :=
  match m.segs with
  | [] => (m, 0)
  | seg :: next =>
    let r := releaseLoop munmap next m 0
    ({ r.2.1 with segs := seg :: r.1 }, r.2.2)

/-- How much `sys_trim` takes off `top`: whole units, keeping at least one. -/
def trimExtra (topsize pad : Nat) : Nat :=
  subSize (addSize (subSize topsize pad) (granularity - 1) / granularity) 1 * granularity % 2 ^ 64

/-- The part of `sys_trim` that shrinks the segment around `top`; `shrink` says whether the end of
the segment can be remapped or unmapped. -/
def trimTop (shrink : Nat → Nat → Bool) (m : MState) (pad : Nat) : MState × Nat :=
  let extra := trimExtra m.topsize pad
  match m.segmentHolding m.top with
  | none => (m, 0)
  | some sp =>
    if !sp.isExtern && sp.isMmapped && extra ≤ sp.size && !m.hasSegmentLink sp && extra != 0 &&
        shrink sp.base extra then
      let segs := updateFirst (fun sp => sp.holds m.top)
        (fun sp => { sp with size := subSize sp.size extra }) m.segs
      (initTop { m with segs, footprint := subSize m.footprint extra } m.top
        (subSize m.topsize extra), extra)
    else (m, 0)

/-- `sys_trim` -/
def sysTrim (shrink munmap : Nat → Nat → Bool) (m : MState) (pad : Nat) : MState × Bool :=
  if pad < 2 ^ 64 - 2 ^ 7 && m.isInitialized then
    let pad := addSize pad topFootSize
    let t := if pad < m.topsize then trimTop shrink m pad else (m, 0)
    let r := releaseUnusedSegments munmap t.1
    let released := addSize t.2 r.2
    if released = 0 && r.1.trimCheck < r.1.topsize then
      ({ r.1 with trimCheck := maxSizeT }, false)
    else (r.1, released != 0)
  else (m, false)

/-- The chunk of `psize` bytes in front of `top` is freed. -/
def mergeTop (m : MState) (psize : Nat) : MState :=
  let p := subSize m.top psize
  let tsize := addSize m.topsize psize
  let m := { m with top := p, topsize := tsize }.setHead p (tsize ||| 1)
  if p = m.dv then { m with dv := 0, dvsize := 0 } else m

/-- `dlmalloc_set_footprint_limit` -/
def setFootprintLimit (m : MState) (bytes : Nat) : MState :=
  { m with footprintLimit := if bytes = maxSizeT then 0 else granularityAlign bytes }

end PrecisionGc.Dlmalloc
