import PrecisionGc.Library.Frontier
import PrecisionGc.Verify.Links

/-!
# The heap a collection finds

The words that the four scans read (`rootWords`), the blocks that `gc_malloc` and `gc_realloc` hand
out (`GcBlock`), and the heap as `gc_collect` finds it: a list `F` from `heap_list_head` and, in the
middle of `gc_realloc`, further blocks `D` that the list does not lead to. `Reachable` is what a
collection has to keep. Filters, roots and slots depend on nothing that marking or sweeping changes.
-/

namespace PrecisionGc
open ByteStore LinkedList Worklist

variable {env : Env} {m m' : Memory} {b w : Nat} {c : Chunk}

/-! ## Roots -/

def stackWords (m : Memory) : List Nat := (walkerSlots m.stackPointer m.stackBase).map m.seg

def dataWords (env : Env) (m : Memory) : List Nat :=
  (walkerSlots env.dataStart env.edata).map m.seg

/-- The slots of `.bss` other than that of `heap_list_head`. -/
def bssSlots (env : Env) : List Nat :=
  (walkerSlots env.bssStart env.bssEnd).filter (· ≠ env.heapListHead)

def bssWords (env : Env) (m : Memory) : List Nat := (bssSlots env).map m.seg

/-- The words that the scans of a collection look at, in their order. -/
def rootWords (env : Env) (m : Memory) : List Nat :=
  Register.all.map m.regs ++ stackWords m ++ dataWords env m ++ bssWords env m

/-- A walker visits the addresses of its interval that agree with its start modulo `POINTER_SIZE`.
-/
theorem mem_walkerSlots {start stop a : Nat} :
    a ∈ walkerSlots start stop ↔ start ≤ a ∧ a < stop ∧ a % pointerSize = start % pointerSize := by
  simp only [walkerSlots, List.mem_map, List.mem_range, pointerSize]
  constructor
  · rintro ⟨i, hi, rfl⟩
    omega
  · rintro ⟨h1, h2, h3⟩
    exact ⟨(a - start) / 8, by omega, by omega⟩

theorem flatMap_validWords {ι : Type*} (is : List ι) (f : ι → Nat) :
    (is.flatMap fun i => validWords env m [f i]) = validWords env m (is.map f) := by
  rw [← validWords_flatMap, ← List.map_eq_flatMap]

theorem scanRegisters_appends (henv : env.Sound) :
    Appends (scanRegisters env m) (validWords env m (Register.all.map m.regs)) := by
  rw [← flatMap_validWords]
  exact Appends.foldlM fun r _ => enqueueIfValid_appends henv (m.regs r)

/-- A walker enqueues the valid words at its slots. -/
theorem scanSlots_appends (henv : env.Sound) (slots : List Nat) :
    Appends (fun q => slots.foldlM (fun q a => enqueueIfValid env m (m.seg a) q) q)
      (validWords env m (slots.map m.seg)) := by
  rw [← flatMap_validWords]
  exact Appends.foldlM fun a _ => enqueueIfValid_appends henv (m.seg a)

theorem scanStack_appends (henv : env.Sound) (hbase : m.stackBase ≠ 0) (hsp : m.stackPointer ≠ 0) :
    Appends (scanStack env m) (validWords env m (stackWords m)) :=
  (scanSlots_appends henv _).congr fun q => by simp [scanStack, hbase, hsp]

theorem scanDataSegment_appends (henv : env.Sound) :
    Appends (scanDataSegment env m) (validWords env m (dataWords env m)) :=
  scanSlots_appends henv _

/-- The scan of `.bss` passes over the slot of `heap_list_head` and over no other. -/
theorem scanBssSegment_appends (henv : env.Sound) :
    Appends (scanBssSegment env m) (validWords env m (bssWords env m)) := by
  have hslots : bssSlots env =
      (walkerSlots env.bssStart env.bssEnd).flatMap fun a =>
        if a = env.heapListHead then [] else [a] := by
    rw [bssSlots]
    induction walkerSlots env.bssStart env.bssEnd with
    | nil => rfl
    | cons a l ih =>
      rw [List.flatMap_cons, ← ih]
      by_cases ha : a = env.heapListHead <;> simp [ha]
  rw [bssWords, hslots, List.map_flatMap, validWords_flatMap]
  refine Appends.foldlM fun a _ => ?_
  by_cases ha : a = env.heapListHead
  · rw [if_pos ha]
    exact Appends.nothing.congr fun q => by simp [ha, Memory.head]
  · rw [if_neg ha]
    exact (enqueueIfValid_appends henv (m.seg a)).congr fun q => by simp [enqueueIfValid, ha]

/-- The four scans of a collection. -/
theorem scanRoots_appends (henv : env.Sound) (hbase : m.stackBase ≠ 0) (hsp : m.stackPointer ≠ 0) :
    Appends (scanRoots env m) (validWords env m (rootWords env m)) := by
  simp only [rootWords, validWords_append]
  have h := (((scanRegisters_appends (m := m) henv).bind (scanStack_appends henv hbase hsp)).bind
    (scanDataSegment_appends (m := m) henv)).bind (scanBssSegment_appends (m := m) henv)
  exact h.congr fun q => by simp [scanRoots, bind_assoc]

/-! ## Blocks -/

/-- A live block of the collected heap: registered, aligned, and with a type that describes it. -/
structure GcBlock (env : Env) (m : Memory) (b : Nat) : Prop where
  chunk : ∃ c, m.chunks b = some c ∧ minUsable ≤ c.usable ∧ env.describes b c = true
  inRange : isPlausiblePointer b = true
  registered : validBigalloc m b = true
  aligned : b % 16 = 0
  notHead : b ≠ env.heapListHead

/-- A live chunk whose link word does not say that it is none of the collector's. -/
def GcChunk (env : Env) (m : Memory) (b : Nat) : Prop :=
  (∃ c, m.chunks b = some c) ∧ m.prevWord env b ≠ sentinel

/-- Reached from the words that a collection scans, through the slots that it examines. -/
def Reachable (env : Env) (m : Memory) : Nat → Prop :=
  Reach (children env m) (GcChunk env m) (rootWords env m)

theorem isPlausiblePointer_iff {p : Nat} :
    isPlausiblePointer p = true ↔ 4194304 ≤ p ∧ p < 0x800000000000 := by
  simp [isPlausiblePointer]

theorem validHeapObject_congr (hrec : m'.records = m.records)
    (hbig : m'.bigallocsList = m.bigallocsList) (hpage : m'.pageindex = m.pageindex) :
    validHeapObject env m' = validHeapObject env m := by
  funext p
  simp only [validHeapObject, validBigalloc, hrec, hbig, hpage]

/-- The filter takes nothing for a heap object that is not the start of a live chunk. -/
theorem chunk_of_valid (henv : env.Sound) (h : validHeapObject env m b = true) :
    ∃ c, m.chunks b = some c := by
  simp only [validHeapObject, Bool.and_eq_true, beq_iff_eq, bne_iff_ne] at h
  obtain ⟨-, ⟨halloc, hsize⟩, hstart⟩ := h
  cases hc : m.chunks b with
  | some c => exact ⟨c, rfl⟩
  | none =>
    have hrec : m.records b = none := by simp [Memory.records, hc]
    exact absurd hstart.symm (henv.queryDead _ _ hrec halloc hsize)

namespace GcBlock

theorem live (h : GcBlock env m b) : m.Live b := by
  obtain ⟨c, hc, hu, -⟩ := h.chunk
  exact ⟨c, hc, hu⟩

theorem lt (h : GcBlock env m b) : b < 2 ^ 64 := by
  have := isPlausiblePointer_iff.mp h.inRange
  omega

theorem ne_zero (h : GcBlock env m b) : b ≠ 0 := by
  have := isPlausiblePointer_iff.mp h.inRange
  omega

theorem ne_sentinel (h : GcBlock env m b) : b ≠ sentinel := by
  have := isPlausiblePointer_iff.mp h.inRange
  simp only [sentinel]
  omega

theorem even (h : GcBlock env m b) : b % 2 = 0 := by
  have := h.aligned
  omega

/-- The filter recognises a block. -/
theorem valid (henv : env.Sound) (h : GcBlock env m b) : validHeapObject env m b = true := by
  obtain ⟨c, hc, hu, -⟩ := h.chunk
  have hsize := henv.querySize b c.toChunkRecord hu
  simp [validHeapObject, h.inRange, h.registered, henv.query _ _ _ (Memory.records_eq hc), hsize]

/-- What the collector may change does not matter to a block. -/
theorem frame {touched freed : Nat → Prop} (h : GcBlock env m b)
    (hf : Frame env touched freed m m') (hb : ¬freed b) : GcBlock env m' b where
  chunk := by
    obtain ⟨c, hc, hu, hd⟩ := h.chunk
    obtain ⟨c', hc', hs⟩ := hf.kept b c hb hc
    refine ⟨c', hc', hs.usable ▸ hu, ?_⟩
    simpa only [Env.describes, hs.record, hs.userLength] using hd
  inRange := h.inRange
  registered := by
    have := h.registered
    simpa only [validBigalloc, hf.bigallocsList, hf.pageindex] using this
  aligned := h.aligned
  notHead := h.notHead

/-- The slots of a block lie in its user data, so its children stay. -/
theorem children_frame {touched freed : Nat → Prop} (h : GcBlock env m b)
    (hf : Frame env touched freed m m') (hb : ¬freed b) :
    children env m' b = children env m b := by
  obtain ⟨c, hc, hu, hd⟩ := h.chunk
  obtain ⟨c', hc', hs⟩ := hf.kept b c hb hc
  rw [children_eq hc, children_eq hc', Env.slots, Env.slots, hs.record]
  cases ht : env.tracedType b c.toChunkRecord with
  | none => simp [Chunk.words]
  | some t =>
    refine List.map_congr_left fun o ho => readLE_congr fun i hi => ?_
    obtain ⟨o', ho', hle⟩ := t.examined_le_leaves o ho
    have hfit := (describes_iff.mp hd t ht).2 o' ho'
    simp only [pointerSize] at hfit hi
    exact hs.data _ (by omega)

theorem process_appends (henv : env.Sound) (h : GcBlock env m b) :
    Appends (processHeapObjectRecursive env m ⟨b, 0⟩ none)
      (validWords env m (children env m b)) := by
  obtain ⟨c, hc, hu, hd⟩ := h.chunk
  exact processHeapObject_appends henv hc hu hd

end GcBlock

/-- `heap_list_head` is not taken for the sentinel. -/
theorem Env.Sound.head_ne_sentinel (henv : env.Sound) : env.heapListHead ≠ sentinel := by
  intro h
  have := henv.headAligned
  rw [h] at this
  exact absurd this (by decide)

theorem Env.Sound.head_even (henv : env.Sound) : env.heapListHead % 2 = 0 := by
  have := henv.headAligned
  simp only [pointerSize] at this
  omega

/-! ## The shape of the heap -/

/-- The list `F` from `heap_list_head`, whose blocks in `loose` have any back link, and the blocks
`D` that are not on it. None of them is marked, and every other chunk carries the sentinel. -/
structure HeapShape (env : Env) (m : Memory) (F D : List Nat) (loose : Nat → Prop) : Prop where
  linked : Linked (m.nextWord env) (m.prevWord env) loose 0 env.heapListHead (m.head env) F
  block : ∀ b ∈ F ++ D, GcBlock env m b
  unmarked : ∀ b ∈ F ++ D, m.prevWord env b % 2 = 0 ∧ m.prevWord env b ≠ sentinel
  disjoint : ∀ b ∈ F, b ∉ D
  foreign : ∀ b c, m.chunks b = some c → b ∉ F ++ D → m.prevWord env b = sentinel
  sized : ∀ b c, m.chunks b = some c → minUsable ≤ c.usable

/-- A well-formed heap list: the links agree in both directions, the first back link is
`&heap_list_head`, and the blocks on the list are all the blocks there are. -/
structure HeapList (env : Env) (m : Memory) (L : List Nat) : Prop where
  linked : Linked (m.nextWord env) (m.prevWord env) (fun _ => False) 0 env.heapListHead
    (m.head env) L
  block : ∀ b ∈ L, GcBlock env m b
  foreign : ∀ b c, m.chunks b = some c → b ∉ L → m.prevWord env b = sentinel
  sized : ∀ b c, m.chunks b = some c → minUsable ≤ c.usable

namespace HeapList

variable {L : List Nat}

/-- No block of a well-formed list is marked. -/
theorem unmarked (henv : env.Sound) (h : HeapList env m L) :
    ∀ b ∈ L, m.prevWord env b % 2 = 0 ∧ m.prevWord env b ≠ sentinel :=
  h.linked.backed.all (P := fun w => w % 2 = 0 ∧ w ≠ sentinel)
    ⟨henv.head_even, henv.head_ne_sentinel⟩
    fun b hb => ⟨(h.block b hb).even, (h.block b hb).ne_sentinel⟩

theorem shape (henv : env.Sound) (h : HeapList env m L) :
    HeapShape env m L [] fun _ => False where
  linked := h.linked
  block := by simpa using h.block
  unmarked := by simpa using h.unmarked henv
  disjoint := by simp
  foreign := by simpa using h.foreign
  sized := h.sized

end HeapList

namespace HeapShape

variable {F D : List Nat} {loose : Nat → Prop}

/-- The blocks are exactly the chunks without the sentinel. -/
theorem gcChunk_iff (h : HeapShape env m F D loose) : GcChunk env m b ↔ b ∈ F ++ D := by
  constructor
  · rintro ⟨⟨c, hc⟩, hs⟩
    by_contra hb
    exact hs (h.foreign b c hc hb)
  · intro hb
    obtain ⟨c, hc, -⟩ := (h.block b hb).chunk
    exact ⟨⟨c, hc⟩, (h.unmarked b hb).2⟩

/-- For a block it does not matter whether reachability looks at all words or at those that the
filter lets pass. -/
theorem reachable_iff (henv : env.Sound) (h : HeapShape env m F D loose) (hb : b ∈ F ++ D) :
    Reachable env m b ↔ Reach (fun x => validWords env m (children env m x)) (· ∈ F ++ D)
      (validWords env m (rootWords env m)) b := by
  have hgc : GcChunk env m = (· ∈ F ++ D) := funext fun x => propext h.gcChunk_iff
  rw [Reachable, hgc]
  have hvalid : ∀ x ∈ F ++ D, validHeapObject env m x = true :=
    fun x hx => (h.block x hx).valid henv
  constructor
  · intro hr
    exact hr.restrict (fun x hx he => List.mem_filter.mpr ⟨hx, hvalid x he⟩)
      (fun x _ y hy he => List.mem_filter.mpr ⟨hy, hvalid y he⟩) hb
  · intro hr
    exact hr.restrict (fun x hx _ => (List.mem_filter.mp hx).1)
      (fun x _ y hy _ => (List.mem_filter.mp hy).1) hb

end HeapShape
/-! ## A heap with two blocks

The second block is held by a word `a` of its own, so that `heap_list_head` does not lead to it. -/

/-- A chunk of the smallest size with the given links. -/
def linkedChunk (env : Env) (b previous next : Nat) : Chunk :=
  Chunk.setNext env b (Chunk.setPrevious env b ⟨⟨minUsable, .void⟩, fun _ => 0⟩ previous) next

/-- The blocks `b₀` and `b` in this order, and the address of `b` at `a`. -/
def twoBlocks (env : Env) (stackPointer stackBase a b₀ b : Nat) : Memory where
  chunks := Function.update (Function.update (fun _ => none)
    b₀ (some (linkedChunk env b₀ env.heapListHead b))) b (some (linkedChunk env b b₀ 0))
  segs := writeLE (writeLE (fun _ => 0) env.heapListHead pointerSize b₀) a pointerSize b
  regs _ := 0
  stackPointer := stackPointer
  stackBase := stackBase
  bigallocsList := [0]
  pageindex _ := 0

variable {sp base a b₀ : Nat}

theorem linkedChunk_previous (henv : env.Sound) {p n : Nat} (hp : p < 2 ^ 64) :
    (linkedChunk env b p n).previous env b = p := by
  rw [linkedChunk, Chunk.previous_setNext henv (Nat.le_refl _), Chunk.previous_setPrevious hp]

theorem linkedChunk_next {p n : Nat} (hn : n < 2 ^ 64) :
    (linkedChunk env b p n).next env b = n := Chunk.next_setNext hn

theorem twoBlocks_heapList (sp base : Nat) (henv : env.Sound) (hvoid : env.makePrecise .void = none)
    (ha : a % 8 = 0) (hah : a ≠ env.heapListHead) (hb₀ : isPlausiblePointer b₀ = true)
    (hb : isPlausiblePointer b = true) (ha₀ : b₀ % 16 = 0) (hab : b % 16 = 0) (hne : b₀ ≠ b)
    (hh₀ : b₀ ≠ env.heapListHead) (hh : b ≠ env.heapListHead) :
    HeapList env (twoBlocks env sp base a b₀ b) [b₀, b] := by
  have hp₀ := isPlausiblePointer_iff.mp hb₀
  have hp := isPlausiblePointer_iff.mp hb
  have hc₀ : (twoBlocks env sp base a b₀ b).chunks b₀ =
      some (linkedChunk env b₀ env.heapListHead b) := by
    simp [twoBlocks, Function.update_of_ne hne]
  have hc : (twoBlocks env sp base a b₀ b).chunks b = some (linkedChunk env b b₀ 0) := by
    simp [twoBlocks]
  have hchunks : ∀ x c, (twoBlocks env sp base a b₀ b).chunks x = some c →
      (x = b₀ ∨ x = b) ∧ c.usable = minUsable := by
    intro x c hx
    by_cases h1 : x = b
    · subst h1
      exact ⟨.inr rfl, by rw [← Option.some.inj (hc.symm.trans hx)]; rfl⟩
    by_cases h0 : x = b₀
    · subst h0
      exact ⟨.inl rfl, by rw [← Option.some.inj (hc₀.symm.trans hx)]; rfl⟩
    · simp [twoBlocks, Function.update_of_ne h1, Function.update_of_ne h0] at hx
  have hdesc : ∀ x c, (twoBlocks env sp base a b₀ b).chunks x = some c → c.uniqtype = .void →
      env.describes x c = true := by
    intro x c _ hty
    simp [Env.describes, Env.tracedType, hty, hvoid, Uniqtype.wellFormed, Uniqtype.fits,
      Uniqtype.leaves]
  have hhead : (twoBlocks env sp base a b₀ b).head env = b₀ := by
    have halign := henv.headAligned
    simp only [pointerSize] at halign
    have hdisj : env.heapListHead + 8 ≤ a ∨ a + 8 ≤ env.heapListHead := by omega
    rw [Memory.head, Memory.seg, twoBlocks, readLE_writeLE_of_disjoint hdisj,
      readLE_writeLE (by simp only [pointerSize]; omega)]
  have hlt := henv.headLt
  constructor
  · refine ⟨⟨hhead, by omega, ?_, by omega, ?_⟩, ⟨.inr ?_, .inr ?_, trivial⟩, by simpa using hne⟩
    · rw [Memory.nextWord_eq hc₀, linkedChunk_next (by omega)]
    · rw [Memory.nextWord_eq hc, linkedChunk_next (by omega)]; rfl
    · rw [Memory.prevWord_eq hc₀, linkedChunk_previous henv hlt]
    · rw [Memory.prevWord_eq hc, linkedChunk_previous henv (by omega)]
  · intro x hx
    have hreg : validBigalloc (twoBlocks env sp base a b₀ b) x = true := rfl
    rcases List.mem_cons.mp hx with rfl | hx
    · exact ⟨⟨_, hc₀, Nat.le_refl _, hdesc _ _ hc₀ rfl⟩, hb₀, hreg, ha₀, hh₀⟩
    · obtain rfl := List.mem_singleton.mp hx
      exact ⟨⟨_, hc, Nat.le_refl _, hdesc _ _ hc rfl⟩, hb, hreg, hab, hh⟩
  · intro x c hx hnot
    rcases (hchunks x c hx).1 with rfl | rfl <;> simp at hnot
  · intro x c hx
    exact (hchunks x c hx).2.ge

end PrecisionGc
