import PrecisionGc.Model.Queue

/-!
# Finding heap objects

The filter on candidate pointers, the walk over the typed slots of one object, and the scans of the
roots. All of them read the memory and write the queue only, so the memory is a plain argument and
the queue is threaded.
-/

namespace PrecisionGc

/-- `IS_PLAUSIBLE_POINTER` -/
def isPlausiblePointer (p : Nat) : Bool := 4194304 ≤ p && p < 0x800000000000

variable (env : Env) (m : Memory)

/-- `valid_bigalloc` -/
def validBigalloc (pointer : Nat) : Bool :=
  let index := m.pageindex (pagenum pointer)
  m.bigallocsList.any fun bigallocIndex => index == bigallocIndex

/-- `new_bigalloc` -/
def newBigalloc (pointer : Nat) : Memory :=
  if validBigalloc m pointer then m
  else { m with bigallocsList := m.pageindex (pagenum pointer) :: m.bigallocsList }

/-- `valid_heap_object` -/
def validHeapObject (pointer : Nat) : Bool :=
  isPlausiblePointer pointer && validBigalloc m pointer &&
    let info := env.getAllocInfo m.records pointer
    info.allocator == some .genericMalloc && info.allocSizeBytes != 0 && pointer == info.allocStart

/-- The body of every root scan: a word that is a heap object is enqueued. -/
def enqueueIfValid (w : Nat) (q : Queue) : Except Fault Queue :=
  if validHeapObject env m w then q.enqueueHeapQueueNode env w else return q

/-- The type with which `process_heap_object_recursive` walks an object when it is called without
one. -/
def allocUniqtype (object : Nat) : Except Fault (Option Uniqtype) := do
  let info := env.getAllocInfo m.records object
  if info.err then throw .assertion
  match info.allocUniqtype with
  | none => throw .nullType
  | some t =>
    match env.makePrecise t with
    | none => return some t
    | some f => return f object info.allocStart info.allocSizeBytes

/-- One round of the loop over the subobjects: a pointer is loaded and filtered, a composite is
walked in its turn, anything else is passed over. -/
def processSubobject (elementType : Uniqtype) (recurse : Ptr → Queue → Except Fault Queue)
    (p : Ptr) (q : Queue) : Except Fault Queue := do
  if elementType.isPointerType then
    let pointedToObject ← m.load p
    enqueueIfValid env m pointedToObject q
  else if elementType.isCompositeType then recurse p q
  else return q

mutual
/-- `process_heap_object_recursive` once the type of the object is known. The element offset of an
array is a product of two 32-bit unsigned numbers. -/
def processTyped : Uniqtype → Ptr → Queue → Except Fault Queue
  | .composite _ related, object, q => processMembers related object q
  | .array _ length elementType, object, q =>
    (List.range length.toNat).foldlM (fun q i =>
      match elementType.posMaxoff with
      | none => throw .assertion
      | some posMaxoff =>
        processSubobject env m elementType (processTyped elementType)
          (object.add (UInt32.ofNat i * posMaxoff).toNat) q) q
  | _, _, q => return q

/-- The loop over the `related` table of a composite. -/
def processMembers : List (Nat × Uniqtype) → Ptr → Queue → Except Fault Queue
  | [], _, q => return q
  | (memberOffset, elementType) :: related, object, q => do
    let q ← processSubobject env m elementType (processTyped elementType)
      (object.add memberOffset) q
    processMembers related object q
end

/-- `process_heap_object_recursive` -/
def processHeapObjectRecursive (object : Ptr) (objectType : Option Uniqtype) (q : Queue) :
    Except Fault Queue := do
  let alloc ← match objectType with
    | some t => pure (some t)
    | none => allocUniqtype env m object.addr
  match alloc with
  | none => return q
  | some t => processTyped env m t object q

/-! ## Roots -/

/-- The values of a walker that starts at `start` and advances by `POINTER_SIZE` while it is below
`stop`. -/
def walkerSlots (start stop : Nat) : List Nat :=
  (List.range ((stop - start + (pointerSize - 1)) / pointerSize)).map (start + pointerSize * ·)

/-- `scan_registers_for_pointers_to_heap` -/
def scanRegisters (q : Queue) : Except Fault Queue :=
  Register.all.foldlM (fun q r => enqueueIfValid env m (m.regs r) q) q

/-- `scan_stack_for_pointers_to_heap` -/
def scanStack (q : Queue) : Except Fault Queue := do
  if m.stackBase = 0 then throw .assertion
  if m.stackPointer = 0 then throw .assertion
  (walkerSlots m.stackPointer m.stackBase).foldlM (fun q a => enqueueIfValid env m (m.seg a) q) q

/-- `scan_data_segment_for_pointers_to_heap` -/
def scanDataSegment (q : Queue) : Except Fault Queue :=
  (walkerSlots env.dataStart env.edata).foldlM (fun q a => enqueueIfValid env m (m.seg a) q) q

/-- `scan_bss_segment_for_pointers_to_heap`; the slot of `heap_list_head` is passed over. -/
def scanBssSegment (q : Queue) : Except Fault Queue :=
  (walkerSlots env.bssStart env.bssEnd).foldlM (fun q a =>
    if validHeapObject env m (m.seg a) then
      if a = env.heapListHead ∧ m.seg a = m.head env then return q
      else q.enqueueHeapQueueNode env (m.seg a)
    else return q) q

end PrecisionGc
