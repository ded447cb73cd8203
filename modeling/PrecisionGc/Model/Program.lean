import PrecisionGc.Model.Blocks

/-!
# What a program does with the heap

The entry points of `dlmalloc.c` that a program calls, and the bytes that it writes itself, as
events of one run.
-/

namespace PrecisionGc.Dlmalloc

inductive Event
  | malloc (w : World) (bytes : Nat)
  | calloc (w : World) (nElements elemSize : Nat)
  | realloc (w : World) (oldmem bytes : Nat)
  | reallocInPlace (w : World) (oldmem bytes : Nat)
  | memalign (w : World) (alignment bytes : Nat)
  | posixMemalign (w : World) (alignment bytes : Nat)
  | free (w : World) (mem : Nat)
  | bulkFree (w : World) (array : List Nat)
  /-- `shrink` says whether the end of the segment around `top` can be unmapped -/
  | trim (w : World) (shrink : Nat → Nat → Bool) (pad : Nat)
  | setFootprintLimit (bytes : Nat)
  /-- `*(unsigned char *)a = v` -/
  | write (a v : Nat)

namespace Heap

/-- The call, with what it returns; `dlmalloc` passes `attempt_allocation` at most twice. -/
def call (h : Heap) : Event → Except Fault (Nat × Heap)
  | .malloc w bytes => dlmalloc w 2 bytes h
  | .calloc w nElements elemSize => dlcalloc w 2 nElements elemSize h
  | .realloc w oldmem bytes => dlrealloc w 2 oldmem bytes h
  | .reallocInPlace w oldmem bytes => dlreallocInPlace w oldmem bytes h
  | .memalign w alignment bytes => dlmemalign w 2 alignment bytes h
  | .posixMemalign w alignment bytes => do
    let (_, out, h) ← dlposixMemalign w 2 alignment bytes h
    return (out.getD 0, h)
  | .free w mem => do return (0, ← dlfree w.munmap h mem)
  | .bulkFree w array => do return (0, ← internalBulkFree w h array)
  | .trim w shrink pad => return (0, { h with gm := (sysTrim shrink w.munmap h.gm pad).1 })
  | .setFootprintLimit bytes => return (0, { h with gm := Dlmalloc.setFootprintLimit h.gm bytes })
  | .write a v => return (0, { h with gm := h.gm.setByte a v })

end Heap

end PrecisionGc.Dlmalloc
