import PrecisionGc.Model.Collect
import PrecisionGc.Theory.TypeLayout

/-!
# Allocation and the mutator

`gc_malloc` and `gc_realloc` over an allocator whose decisions are arguments: whether `dlmalloc`
starts a collection before it serves the request, whether the request is served, at which address
and with which usable size. An answer that the allocator cannot give (an address in use, a chunk
without room for the links, a type that does not describe the block) is refused with
`Fault.contract`. `Session` adds the mutator: a sequence of calls and of writes to its own words.
-/

namespace PrecisionGc
open ByteStore

/-- A chunk handed out by `dlmalloc`: `fill` is what its bytes hold, `remap` the entries of
`pageindex` that liballocs sets on the way. -/
structure Grant where
  addr : Nat
  usable : Nat
  uniqtype : Uniqtype
  fill : Store
  remap : List (Nat × Nat)

/-- What `dlmalloc` does with a request it cannot serve at once: `overBudget` is
`allocated_since_last_GC > (heap_size / FSD)`, `grant` the outcome of the last attempt. -/
structure AllocAnswer where
  overBudget : Bool
  grant : Option Grant

/-- A chunk resized by `try_realloc_chunk`; `fill` holds the bytes beyond the old user data. -/
structure Resize where
  usable : Nat
  uniqtype : Uniqtype
  fill : Store

/-- What `dlrealloc` does: `resize` if the chunk can be resized where it is, else `alloc`. -/
structure ReallocAnswer where
  resize : Option Resize
  alloc : AllocAnswer

/-- `MAX_REQUEST` -/
def maxRequest : Nat := 2 ^ 64 - 2 ^ 7

/-- Room for the two links and the insert: what `MIN_CHUNK_SIZE` leaves to the user. -/
def minUsable : Nat := 24

variable (env : Env)

/-- The type with which a live chunk is walked. -/
def Env.tracedType (b : Nat) (r : ChunkRecord) : Option Uniqtype :=
  match env.makePrecise r.uniqtype with
  | none => some r.uniqtype
  | some f => f b b (env.allocSize b r)

/-- The type on record describes the user data of the chunk. -/
def Env.describes (b : Nat) (c : Chunk) : Bool :=
  match env.tracedType b c.toChunkRecord with
  | none => true
  | some t => t.wellFormed && t.fits (c.userLength env b)

/-- The collector's own statics. -/
def Env.statics : List Nat :=
  [env.heapListHead, env.mymallocLowest, env.mymallocHighest, env.qHead, env.qTail,
    env.bigallocsList, env.stackBase]

namespace Grant

def chunk (g : Grant) : Chunk := ⟨⟨g.usable, g.uniqtype⟩, g.fill⟩

/-- The page of a live chunk keeps its entry. -/
def remapLegal (g : Grant) (m : Memory) : Bool :=
  g.remap.all fun (page, index) =>
    m.pageindex page == index || (List.range 4096).all fun i => (m.chunks (4096 * page + i)).isNone

/-- The contract of `mymalloc`. -/
def legal (g : Grant) (m : Memory) (size : Nat) : Bool :=
  isPlausiblePointer g.addr && g.addr % 16 == 0 && g.addr != env.heapListHead &&
    (m.chunks g.addr).isNone && size ≤ g.usable && minUsable ≤ g.usable &&
    env.describes g.addr g.chunk && g.remapLegal m

def apply (g : Grant) (m : Memory) : Memory :=
  { m.setChunk g.addr (some g.chunk) with
    pageindex := g.remap.foldl (fun f p => Function.update f p.1 p.2) m.pageindex }

end Grant

/-- `dlmalloc`, as `mymalloc` and inside `dlrealloc`. -/
def dlmalloc (fuel : Nat) (answer : AllocAnswer) (bytes : Nat) (s : State) :
    Except Fault (Nat × State) := do
  let s ← (if answer.overBudget && s.gcInitialised then gcCollect env fuel s else pure s)
  match answer.grant with
  | none => return (0, s)
  | some g =>
    if g.legal env s.toMemory bytes then return (g.addr, { s with toMemory := g.apply s.toMemory })
    else throw .contract

/-- The bytes of a chunk after `realloc`: the common prefix of the user data is kept. -/
def keepPrefix (n : Nat) (old new : Store) : Store := fun i => if i < n then old i else new i

/-- `dlrealloc`, as `myrealloc`. -/
def dlrealloc (fuel : Nat) (answer : ReallocAnswer) (oldmem : Nat) (bytes : Nat) (s : State) :
    Except Fault (Nat × State) := do
  if maxRequest ≤ bytes then return (0, s)
  else
    let old ← s.chunk oldmem
    match answer.resize with
    | some r =>
      let new : Chunk := ⟨⟨r.usable, r.uniqtype⟩, r.fill⟩
      if bytes ≤ r.usable && minUsable ≤ r.usable && env.describes oldmem new then
        let n := min (old.userLength env oldmem) (new.userLength env oldmem)
        let new := { new with bytes := keepPrefix n old.bytes new.bytes }
        return (oldmem, { s with toMemory := s.setChunk oldmem (some new) })
      else throw .contract
    | none =>
      let (mem, s) ← dlmalloc env fuel answer.alloc bytes s
      if mem = 0 then return (0, s)
      else
        let old ← s.chunk oldmem
        let new ← s.chunk mem
        let n := min (old.userLength env oldmem) (new.userLength env mem)
        let m := s.setChunk mem (some { new with bytes := keepPrefix n old.bytes new.bytes })
        let m ← m.myfree oldmem
        return (mem, { s with toMemory := m })

/-- `sem_wait(&allocator_mutex)` -/
def semWait (s : State) : Except Fault State :=
  if s.allocatorMutex = 0 then throw .blocked
  else return { s with allocatorMutex := s.allocatorMutex - 1 }

/-- `sem_post(&allocator_mutex)` -/
def semPost (s : State) : State := { s with allocatorMutex := s.allocatorMutex + 1 }

/-- `__mymalloc_lowest` and `__mymalloc_highest` take in a new block. -/
def widenRange (block : Nat) (m : Memory) : Memory :=
  let m := if block < m.seg env.mymallocLowest then m.setSeg env.mymallocLowest block else m
  if m.seg env.mymallocHighest < block then m.setSeg env.mymallocHighest block else m

/-- `memset(block, 0x0, INSERT_ADDRESS(block)-block)` -/
def clearUserData (m : Memory) (block : Nat) : Except Fault Memory := do
  let c ← m.chunk block
  return m.setChunk block (some (c.clear env block))

/-- `if (previous != &heap_list_head) NEXT_POINTER(previous) = block;`
`else heap_list_head = block;` -/
def Memory.linkForward (m : Memory) (previous block : Nat) : Except Fault Memory :=
  if previous ≠ env.heapListHead then m.setNextPointer env previous block
  else pure (m.setHead env block)

/-- `if (next != NULL) PREVIOUS_POINTER(next) = block;` -/
def Memory.linkBack (m : Memory) (next block : Nat) : Except Fault Memory :=
  if next ≠ 0 then m.setPreviousPointer env next block else pure m

/-- `gc_malloc` -/
def gcMalloc (fuel : Nat) (answer : AllocAnswer) (size : Nat) (s : State) :
    Except Fault (Nat × State) := do
  let s ← semWait s
  let (block, s) ← dlmalloc env fuel answer size s
  -- the early return of the source: the semaphore is not posted
  if block = 0 then return (0, s)
  else
    let m := widenRange env block s.toMemory
    let m ← clearUserData env m block
    let m ← m.setPreviousPointer env block env.heapListHead
    let m ← m.setNextPointer env block (m.head env)
    let m ← m.linkBack env (m.head env) block
    let m := m.setHead env block
    let m := newBigalloc m block
    return (block, semPost { s with toMemory := m })

/-- The `size == 0` branch of `gc_realloc`. -/
def unlinkAndFree (ptr previous next : Nat) (m : Memory) : Except Fault Memory := do
  let m ← m.linkForward env previous next
  let m ← m.linkBack env next previous
  m.myfree ptr

/-- `gc_realloc`. The argument is in `rdi`, where a collection finds it. -/
def gcRealloc (fuel : Nat) (answer : ReallocAnswer) (ptr : Nat) (size : Nat) (s : State) :
    Except Fault (Nat × State) := do
  if ptr = 0 then gcMalloc env fuel answer.alloc size s
  else
    let s ← semWait { s with regs := Function.update s.regs .rdi ptr }
    let previous ← s.previousPointer env ptr
    let next ← s.nextPointer env ptr
    if size = 0 then
      let m ← unlinkAndFree env ptr previous next s.toMemory
      return (0, semPost { s with toMemory := m })
    else
      let m ← s.setPreviousPointer env ptr 0
      let m ← m.setNextPointer env ptr 0
      let (new, s) ← dlrealloc env fuel answer ptr size { s with toMemory := m }
      if new = 0 then
        let m ← s.setPreviousPointer env ptr previous
        let m ← m.setNextPointer env ptr next
        return (0, semPost { s with toMemory := m })
      else
        let m ← clearUserData env s.toMemory new
        let m ← m.setPreviousPointer env new previous
        let m ← m.setNextPointer env new next
        if ptr = new then return (ptr, semPost { s with toMemory := m })
        else
          let m ← m.linkForward env previous new
          let m ← m.linkBack env next new
          let m := newBigalloc m new
          return (new, semPost { s with toMemory := m })

/-! ## Runs -/

/-- A call of the collector's interface, or a write of the mutator to its own words. -/
inductive Call
  | malloc (size : Nat) (answer : AllocAnswer)
  | realloc (ptr : Nat) (size : Nat) (answer : ReallocAnswer)
  | collect
  | setRegister (r : Register) (w : Nat)
  | moveStack (stackPointer : Nat)
  | storeSegment (a : Nat) (w : Nat)
  | storeField (b : Nat) (off : Nat) (w : Nat)

/-- Two ranges of one word each do not overlap. -/
def apart (a b : Nat) : Bool := a + pointerSize ≤ b || b + pointerSize ≤ a

/-- One call, with its return value. The mutator leaves the statics of the collector and the link
words alone. -/
def exec (fuel : Nat) (s : State) : Call → Except Fault (Nat × State)
  | .malloc size answer => gcMalloc env fuel answer size s
  | .realloc ptr size answer => gcRealloc env fuel answer ptr size s
  | .collect => do return (0, ← gcCollect env fuel s)
  | .setRegister r w => return (0, { s with regs := Function.update s.regs r (w % 2 ^ 64) })
  | .moveStack sp => if sp = 0 then throw .contract else return (0, { s with stackPointer := sp })
  | .storeSegment a w =>
    if env.statics.all (apart a) then return (0, { s with toMemory := s.setSeg a w })
    else throw .contract
  | .storeField b off w =>
    match s.chunks b with
    | none => throw .contract
    | some c =>
      if off + pointerSize ≤ c.userLength env b then
        let c := { c with bytes := writeLE c.bytes off pointerSize w }
        return (0, { s with toMemory := s.setChunk b (some c) })
      else throw .contract

/-- A state together with the blocks handed out to the mutator and not freed, replaced by a move or
swept since. -/
structure Session where
  state : State
  handed : List Nat

/-- The blocks freed by the collections between two states. -/
def sweptBetween (s s' : State) : List Nat :=
  (s'.collections.drop s.collections.length).flatMap (·.freed)

/-- What a call that returned `ret` makes of the blocks handed out. -/
def handedAfter (call : Call) (ret : Nat) (handed : List Nat) : List Nat :=
  match call with
  | .malloc .. => if ret = 0 then handed else ret :: handed
  | .realloc ptr size _ =>
    if ret = 0 then if size = 0 then handed.filter (· ≠ ptr) else handed
    else ret :: handed.filter (· ≠ ptr)
  | _ => handed

/-- The contract of the caller: `gc_realloc` is given NULL or a live block. -/
def Call.allowed (handed : List Nat) : Call → Bool
  | .realloc ptr _ _ => ptr = 0 || handed.contains ptr
  | _ => true

def Session.step (fuel : Nat) (x : Session) (call : Call) : Except Fault Session := do
  if call.allowed x.handed then
    let (ret, s) ← exec env fuel x.state call
    let kept := x.handed.filter fun b => !(sweptBetween x.state s).contains b
    return ⟨s, handedAfter call ret kept⟩
  else throw .contract

/-- A run: the calls of the mutator, one after the other. -/
def Session.run (fuel : Nat) (x : Session) (calls : List Call) : Except Fault Session :=
  calls.foldlM (Session.step env fuel) x

end PrecisionGc
