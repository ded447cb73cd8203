import PrecisionGc.Library.ByteStore
import PrecisionGc.Library.Except

/-!
# What the collector reads and writes

The state behind `gc.c`: the live chunks of the allocator with their bytes, the scanned segments,
the registers and the tables of liballocs. Memory is modelled in blocks: a chunk is its usable
bytes, so that an access outside every live chunk is a fault and not some other value. Addresses and
words are natural numbers; a word that is stored is cut to 64 bits by its 8 bytes. Code that is not
part of the repository (liballocs, the linker's placement of the statics) is the parameter `Env`.
-/

namespace PrecisionGc
open ByteStore

/-- `POINTER_SIZE` -/
abbrev pointerSize : Nat := 8

/-- Why a call does not return. -/
inductive Fault
  /-- an `assert` of `gc.c` fails -/
  | assertion
  /-- an access outside every live chunk -/
  | wild
  /-- a NULL `struct uniqtype *` is dereferenced -/
  | nullType
  /-- `sem_wait` on a semaphore at zero -/
  | blocked
  /-- an answer of the allocator, or a call of the mutator, outside its contract -/
  | contract
  /-- the fuel of a loop is used up -/
  | fuel
  deriving DecidableEq, Repr

/-- A type record of liballocs, as far as the tracer looks at it. `posMaxoff` is `none` for a type
without known length; composite members carry their offset. -/
inductive Uniqtype
  | void
  | base (posMaxoff : Option UInt32)
  | pointer
  | composite (posMaxoff : Option UInt32) (related : List (Nat × Uniqtype))
  | array (posMaxoff : Option UInt32) (length : UInt32) (elementType : Uniqtype)

namespace Uniqtype

def posMaxoff : Uniqtype → Option UInt32
  | void => some 0
  | base n => n
  | pointer => some 8
  | composite n _ => n
  | array n _ _ => n

/-- `UNIQTYPE_HAS_KNOWN_LENGTH` -/
def hasKnownLength (t : Uniqtype) : Bool := t.posMaxoff.isSome

/-- `UNIQTYPE_IS_POINTER_TYPE` -/
def isPointerType : Uniqtype → Bool
  | pointer => true
  | _ => false

/-- `UNIQTYPE_IS_COMPOSITE_TYPE` -/
def isCompositeType : Uniqtype → Bool
  | composite .. => true
  | _ => false

end Uniqtype

/-- The allocators a query can name: `__generic_malloc_allocator`, or any other. -/
inductive Allocator
  | genericMalloc
  | other
  deriving DecidableEq, Repr

/-- What `__liballocs_get_alloc_info` returns and stores through its out-parameters. An
out-parameter that is left alone keeps the caller's NULL or 0. -/
structure AllocInfo where
  err : Bool
  allocator : Option Allocator
  allocStart : Nat
  allocSizeBytes : Nat
  allocUniqtype : Option Uniqtype

/-- What liballocs has on record for a live chunk. -/
structure ChunkRecord where
  usable : Nat
  uniqtype : Uniqtype

/-- A live chunk: `mymalloc_usable_size`, the type on record, and the bytes, by offset. -/
structure Chunk extends ChunkRecord where
  bytes : Store

/-- What the model takes from outside the repository: liballocs, its private allocator, and where
the linker puts the segments and the collector's own statics. -/
structure Env where
  /-- `insert_for_chunk_and_usable_size` -/
  insertForChunk : Nat → Nat → Nat
  getAllocInfo : (Nat → Option ChunkRecord) → Nat → AllocInfo
  /-- the size it reports for a live chunk -/
  allocSize : Nat → ChunkRecord → Nat
  makePrecise : Uniqtype → Option (Nat → Nat → Nat → Option Uniqtype)
  /-- `__private_malloc`, given the private nodes in use -/
  privateMalloc : List Nat → Nat
  dataStart : Nat
  edata : Nat
  bssStart : Nat
  bssEnd : Nat
  /-- `&heap_list_head`, and so on -/
  heapListHead : Nat
  mymallocLowest : Nat
  mymallocHighest : Nat
  qHead : Nat
  qTail : Nat
  bigallocsList : Nat
  stackBase : Nat

/-- The registers that `scan_registers_for_pointers_to_heap` stores. -/
inductive Register
  | rax | rbx | rcx | rdx | rbp | rsp | rsi | rdi
  | r8 | r9 | r10 | r11 | r12 | r13 | r14 | r15
  deriving DecidableEq, Repr

/-- In the order of the tests in the source. -/
def Register.all : List Register :=
  [.rax, .rbx, .rcx, .rdx, .rbp, .rsp, .rsi, .rdi,
    .r8, .r9, .r10, .r11, .r12, .r13, .r14, .r15]

/-- The memory the collector looks at. `segs` is the stack, `.data` and `.bss`; the statics
`heap_list_head`, `__mymalloc_lowest` and `__mymalloc_highest` live there. `bigallocsList` is the
linked list of `struct bigalloc_node`, by its indices. -/
structure Memory where
  chunks : Nat → Option Chunk
  segs : Store
  regs : Register → Nat
  stackPointer : Nat
  stackBase : Nat
  bigallocsList : List Nat
  pageindex : Nat → Nat

/-- `PAGENUM` -/
def pagenum (a : Nat) : Nat := a / 4096

/-- An address inside a chunk. -/
structure Ptr where
  base : Nat
  off : Nat

def Ptr.addr (p : Ptr) : Nat := p.base + p.off

def Ptr.add (p : Ptr) (n : Nat) : Ptr := { p with off := p.off + n }

namespace Chunk
variable (env : Env) (b : Nat) (c : Chunk)

/-- `INSERT_ADDRESS(b) - b`: the length of the user data, and the offset of the previous link. -/
def userLength : Nat := env.insertForChunk b c.usable - 2 * pointerSize - b

/-- The offset of the next link. -/
def nextOffset : Nat := env.insertForChunk b c.usable - pointerSize - b

def previous : Nat := readLE c.bytes (c.userLength env b) pointerSize
def next : Nat := readLE c.bytes (c.nextOffset env b) pointerSize

def setPrevious (w : Nat) : Chunk :=
  { c with bytes := writeLE c.bytes (c.userLength env b) pointerSize w }

def setNext (w : Nat) : Chunk :=
  { c with bytes := writeLE c.bytes (c.nextOffset env b) pointerSize w }

/-- `memset(b, 0x0, INSERT_ADDRESS(b)-b)` -/
def clear : Chunk := { c with bytes := fill c.bytes 0 (c.userLength env b) 0 }

end Chunk

namespace Memory
variable (env : Env) (m : Memory)

def chunk (b : Nat) : Except Fault Chunk :=
  match m.chunks b with
  | some c => .ok c
  | none => .error .wild

def setChunk (b : Nat) (c : Option Chunk) : Memory :=
  { m with chunks := Function.update m.chunks b c }

/-- What liballocs has on record for each chunk. -/
def records (a : Nat) : Option ChunkRecord := (m.chunks a).map (·.toChunkRecord)

/-- `*(void **)p` -/
def load (p : Ptr) : Except Fault Nat := do
  let c ← m.chunk p.base
  if p.off + pointerSize ≤ c.usable then .ok (readLE c.bytes p.off pointerSize) else .error .wild

/-- `PREVIOUS_POINTER(b)` -/
def previousPointer (b : Nat) : Except Fault Nat := do
  let c ← m.chunk b
  return c.previous env b

/-- `NEXT_POINTER(b)` -/
def nextPointer (b : Nat) : Except Fault Nat := do
  let c ← m.chunk b
  return c.next env b

/-- `PREVIOUS_POINTER(b) = w` -/
def setPreviousPointer (b : Nat) (w : Nat) : Except Fault Memory := do
  let c ← m.chunk b
  return m.setChunk b (some (c.setPrevious env b w))

/-- `NEXT_POINTER(b) = w` -/
def setNextPointer (b : Nat) (w : Nat) : Except Fault Memory := do
  let c ← m.chunk b
  return m.setChunk b (some (c.setNext env b w))

/-- `myfree` -/
def myfree (b : Nat) : Except Fault Memory := do
  let _ ← m.chunk b
  return m.setChunk b none

/-- A word of the scanned segments. -/
def seg (a : Nat) : Nat := readLE m.segs a pointerSize

def setSeg (a : Nat) (w : Nat) : Memory := { m with segs := writeLE m.segs a pointerSize w }

/-- The value of `heap_list_head`. -/
def head : Nat := m.seg env.heapListHead

def setHead (w : Nat) : Memory := m.setSeg env.heapListHead w

/-- `marked` -/
def marked (b : Nat) : Except Fault Bool := do
  let w ← m.previousPointer env b
  return w &&& 1 != 0

/-- `mark_block` -/
def markBlock (b : Nat) : Except Fault Memory := do
  let w ← m.previousPointer env b
  m.setPreviousPointer env b (w ||| 1)

/-- `unmark_block` -/
def unmarkBlock (b : Nat) : Except Fault Memory := do
  let w ← m.previousPointer env b
  m.setPreviousPointer env b (clearLow w)

end Memory

/-- The link word of a chunk that was not allocated by `gc_malloc`. -/
def sentinel : Nat := 0xcccccccccccccccc

end PrecisionGc
