import PrecisionGc.Library.Runs
import PrecisionGc.Verify.Trace
import Mathlib.Data.List.Nodup

/-!
# Where the walk over an array looks

The walk of `process_heap_object_recursive` with what it does at a pointer as a parameter
(`walkTyped`). With the load and the filter of the source it is the walk of the source
(`processTyped_eq`); with a record of addresses it gives the element that each round of the loop is
about and the words that are loaded. The element offset is a 32-bit product, and the rounds are
about the elements in turn exactly when the last of these products fits in 32 bits.
-/

namespace PrecisionGc
open ByteStore Runs

/-! ## The walk, whatever is done at a pointer -/

section
variable {σ : Type}

/-- One round of the loop over the subobjects. -/
def walkSubobject (visit : Ptr → σ → Except Fault σ) (elementType : Uniqtype)
    (recurse : Ptr → σ → Except Fault σ) (p : Ptr) (x : σ) : Except Fault σ :=
  if elementType.isPointerType then visit p x
  else if elementType.isCompositeType then recurse p x
  else return x

/-- The loop over the elements of an array, with `round` for what is done at an element. -/
def elementLoop (length : UInt32) (elementType : Uniqtype) (round : Ptr → σ → Except Fault σ)
    (object : Ptr) (x : σ) : Except Fault σ :=
  (List.range length.toNat).foldlM (fun x i =>
    match elementType.posMaxoff with
    | none => throw .assertion
    | some posMaxoff => round (object.add (UInt32.ofNat i * posMaxoff).toNat) x) x

mutual
/-- The walk over an object of a known type. -/
def walkTyped (visit : Ptr → σ → Except Fault σ) : Uniqtype → Ptr → σ → Except Fault σ
  | .composite _ related, object, x => walkMembers visit related object x
  | .array _ length elementType, object, x =>
    elementLoop length elementType
      (walkSubobject visit elementType (walkTyped visit elementType)) object x
  | _, _, x => return x

/-- The loop over the members of a composite. -/
def walkMembers (visit : Ptr → σ → Except Fault σ) :
    List (Nat × Uniqtype) → Ptr → σ → Except Fault σ
  | [], _, x => return x
  | (memberOffset, elementType) :: related, object, x => do
    let x ← walkSubobject visit elementType (walkTyped visit elementType)
      (object.add memberOffset) x
    walkMembers visit related object x
end

section
variable {P : σ → Prop} {visit : Ptr → σ → Except Fault σ} {x y : σ}

theorem walkSubobject_invariant {recurse : Ptr → σ → Except Fault σ} {t : Uniqtype} {p : Ptr}
    (hvisit : ∀ p x y, P x → visit p x = .ok y → P y)
    (hrecurse : ∀ p x y, P x → recurse p x = .ok y → P y) (hx : P x)
    (h : walkSubobject visit t recurse p x = .ok y) : P y := by
  unfold walkSubobject at h
  split at h
  · exact hvisit p x y hx h
  · split at h
    · exact hrecurse p x y hx h
    · exact Except.ok.inj h ▸ hx

variable (hvisit : ∀ p x y, P x → visit p x = .ok y → P y)
include hvisit

mutual
/-- What is kept at every pointer is kept by the walk. -/
theorem walkTyped_invariant : (t : Uniqtype) → (p : Ptr) → (x y : σ) → P x →
    walkTyped visit t p x = .ok y → P y
  | .void, _, _, _, hx, h | .base _, _, _, _, hx, h | .pointer, _, _, _, hx, h => by
    simp only [walkTyped] at h
    exact Except.ok.inj h ▸ hx
  | .composite _ related, p, x, y, hx, h => by
    simp only [walkTyped] at h
    exact walkMembers_invariant related p x y hx h
  | .array _ length elementType, p, x, y, hx, h => by
    simp only [walkTyped, elementLoop] at h
    refine foldlM_invariant (fun x i y hx h => ?_) hx h
    split at h
    · cases h
    · exact walkSubobject_invariant hvisit (walkTyped_invariant elementType) hx h

theorem walkMembers_invariant : (related : List (Nat × Uniqtype)) → (p : Ptr) → (x y : σ) → P x →
    walkMembers visit related p x = .ok y → P y
  | [], _, _, _, hx, h => by
    simp only [walkMembers] at h
    exact Except.ok.inj h ▸ hx
  | (memberOffset, t) :: related, p, x, y, hx, h => by
    simp only [walkMembers] at h
    obtain ⟨z, hz, h⟩ := Except.bind_eq_ok.mp h
    have hPz := walkSubobject_invariant hvisit (walkTyped_invariant t) hx hz
    exact walkMembers_invariant related p z y hPz h
end

end

end

/-- What the source does at a pointer. -/
def visitSlot (env : Env) (m : Memory) (p : Ptr) (q : Queue) : Except Fault Queue := do
  let pointedToObject ← m.load p
  enqueueIfValid env m pointedToObject q

/-- The address is recorded. -/
def record (p : Ptr) (ps : List Ptr) : Except Fault (List Ptr) := .ok (ps ++ [p])

/-- The addresses that the rounds of the loop over an array load from or recurse into. -/
def rounds (length : UInt32) (elementType : Uniqtype) (object : Ptr) : Except Fault (List Ptr) :=
  elementLoop length elementType (walkSubobject record elementType record) object []

/-- The addresses from which the walk loads a word. -/
def loads (t : Uniqtype) (object : Ptr) : Except Fault (List Ptr) := walkTyped record t object []

variable {env : Env} {m : Memory}

mutual
theorem processTyped_eq : (t : Uniqtype) → (object : Ptr) → (q : Queue) →
    processTyped env m t object q = walkTyped (visitSlot env m) t object q
  | .void, _, _ | .base _, _, _ | .pointer, _, _ => by
    simp only [processTyped, walkTyped]
  | .composite _ related, object, q => by
    simp only [processTyped, walkTyped]
    exact processMembers_eq related object q
  | .array _ length elementType, object, q => by
    have hrec : processTyped env m elementType = walkTyped (visitSlot env m) elementType :=
      funext fun object => funext fun q => processTyped_eq elementType object q
    simp only [processTyped, walkTyped, elementLoop, hrec]
    rfl

theorem processMembers_eq : (related : List (Nat × Uniqtype)) → (object : Ptr) → (q : Queue) →
    processMembers env m related object q = walkMembers (visitSlot env m) related object q
  | [], _, _ => by simp only [processMembers, walkMembers]
  | (memberOffset, elementType) :: related, object, q => by
    have hrec : processTyped env m elementType = walkTyped (visitSlot env m) elementType :=
      funext fun object => funext fun q => processTyped_eq elementType object q
    have hmembers : processMembers env m related object =
        walkMembers (visitSlot env m) related object :=
      funext fun q => processMembers_eq related object q
    simp only [processMembers, walkMembers, hrec, hmembers]
    rfl
end

/-! ## What is recorded -/

theorem Ptr.add_add (p : Ptr) (n k : Nat) : (p.add n).add k = p.add (n + k) := by
  simp only [Ptr.add, Nat.add_assoc]

mutual
/-- The words that a round of the loop loads. -/
theorem walkSubobject_record : (t : Uniqtype) → (p : Ptr) → (l : List Ptr) →
    walkSubobject record t (walkTyped record t) p l = .ok (l ++ t.visited.map p.add)
  | .pointer, p, l => by
    simp [walkSubobject, Uniqtype.isPointerType, Uniqtype.visited, record, Ptr.add]
  | .composite _ related, p, l => by
    simp only [walkSubobject, Uniqtype.isPointerType, Uniqtype.isCompositeType, walkTyped,
      Uniqtype.visited, if_true, if_false, Bool.false_eq_true]
    exact walkMembers_record related p l
  | .void, _, _ | .base _, _, _ | .array _ _ _, _, _ => by
    simp [walkSubobject, Uniqtype.isPointerType, Uniqtype.isCompositeType, Uniqtype.visited]

theorem walkMembers_record : (related : List (Nat × Uniqtype)) → (p : Ptr) → (l : List Ptr) →
    walkMembers record related p l = .ok (l ++ (Uniqtype.memberVisited related).map p.add)
  | [], _, _ => by simp [walkMembers, Uniqtype.memberVisited]
  | (memberOffset, t) :: related, p, l => by
    have hmember : t.visited.map (p.add memberOffset).add =
        (t.visited.map (memberOffset + ·)).map p.add := by
      rw [List.map_map]
      exact List.map_congr_left fun o _ => p.add_add memberOffset o
    simp only [walkMembers, walkSubobject_record t, Except.ok_bind]
    rw [walkMembers_record related, Uniqtype.memberVisited, List.map_append, hmember,
      List.append_assoc]
end

variable {length size : UInt32} {elementType : Uniqtype} {object : Ptr} {b : Nat}

/-- The loop, with its offsets computed. -/
theorem elementLoop_eq {σ : Type} (hsize : elementType.posMaxoff = some size)
    (round : Ptr → σ → Except Fault σ) (x : σ) :
    elementLoop length elementType round object x =
      (List.range length.toNat).foldlM
        (fun x i => round (object.add (elementType.elementOffset i)) x) x := by
  simp only [elementLoop, hsize, Uniqtype.elementOffset, Option.getD_some]

/-- The walk over an array loads the words at `examined`. -/
theorem loads_array {n : Option UInt32} (hsize : elementType.posMaxoff = some size) :
    loads (.array n length elementType) object =
      .ok ((Uniqtype.array n length elementType).examined.map object.add) := by
  have hround : ∀ i ∈ List.range length.toNat, ∀ l,
      walkSubobject record elementType (walkTyped record elementType)
          (object.add (elementType.elementOffset i)) l =
        .ok (l ++ (elementType.visited.map (elementType.elementOffset i + ·)).map object.add) := by
    intro i _ l
    rw [walkSubobject_record, List.map_map]
    exact congrArg (fun ps => Except.ok (l ++ ps))
      (List.map_congr_left fun o _ => object.add_add (elementType.elementOffset i) o)
  rw [loads, walkTyped, elementLoop_eq hsize, Except.foldlM_append hround, List.nil_append,
    Uniqtype.examined, List.map_flatMap]

/-- A pointer or a composite of `size` bytes, with its own pointers among these. -/
structure Uniqtype.IsElement (t : Uniqtype) (size : UInt32) : Prop where
  kind : t.isPointerType = true ∨ t.isCompositeType = true
  posMaxoff : t.posMaxoff = some size
  pos : 1 ≤ size.toNat
  fits : t.fits size.toNat = true

namespace Uniqtype.IsElement

theorem stride (h : elementType.IsElement size) : elementType.stride = size.toNat := by
  rw [Uniqtype.stride, h.posMaxoff, Option.getD_some]

/-- A round is about the address that it is given. -/
theorem round (h : elementType.IsElement size) (p : Ptr) (l : List Ptr) :
    walkSubobject record elementType record p l = .ok (l ++ [p]) := by
  rw [walkSubobject]
  split
  · rfl
  · rw [if_pos (h.kind.resolve_left (by assumption))]
    rfl

/-- The `i`-th round is about the address at the 32-bit product. -/
theorem rounds_eq (h : elementType.IsElement size) :
    rounds length elementType object = .ok ((List.range length.toNat).map fun i =>
      object.add (elementType.elementOffset i)) := by
  have hround : ∀ i ∈ List.range length.toNat, ∀ l,
      walkSubobject record elementType record (object.add (elementType.elementOffset i)) l =
        .ok (l ++ [object.add (elementType.elementOffset i)]) := fun i _ l => h.round _ l
  rw [rounds, elementLoop_eq h.posMaxoff, Except.foldlM_append hround, List.nil_append,
    ← List.map_eq_flatMap]

/-- Wherever the offsets of the elements have wrapped to, no load lies behind the last element. -/
theorem examined_lt (h : elementType.IsElement size) {n : Option UInt32} {o : Nat}
    (ho : o ∈ (Uniqtype.array n length elementType).examined) :
    o + pointerSize ≤ length.toNat * size.toNat := by
  obtain ⟨i, hi, ho⟩ := List.mem_flatMap.mp ho
  obtain ⟨e, he, rfl⟩ := List.mem_map.mp ho
  have hin : e + pointerSize ≤ size.toNat := by
    have hfits := List.all_eq_true.mp h.fits e (elementType.visited_subset_leaves e he)
    exact of_decide_eq_true hfits
  have hoff : elementType.elementOffset i ≤ i * size.toNat :=
    h.stride ▸ elementType.elementOffset_le i
  have hnext : (i + 1) * size.toNat ≤ length.toNat * size.toNat :=
    Nat.mul_le_mul_right _ (List.mem_range.mp hi)
  rw [Nat.add_mul, Nat.one_mul] at hnext
  omega

/-- If the offset of the last element fits in 32 bits, so do the offsets of all. -/
theorem elementOffset_eq (h : elementType.IsElement size)
    (hlast : (length.toNat - 1) * size.toNat < 2 ^ 32) {i : Nat} (hi : i < length.toNat) :
    elementType.elementOffset i = i * size.toNat := by
  have hle : i * size.toNat ≤ (length.toNat - 1) * size.toNat :=
    Nat.mul_le_mul_right _ (Nat.le_sub_one_of_lt hi)
  rw [Uniqtype.elementOffset_eq, h.stride, Nat.mod_eq_of_lt (hle.trans_lt hlast)]

end Uniqtype.IsElement

/-! ## The walk over an array -/

/-- The walk over the array of `length` elements of `size` bytes at the start of the block `b`. -/
structure ElementsExact (env : Env) (m : Memory) (b : Nat) (n : Option UInt32)
    (length size : UInt32) (elementType : Uniqtype) : Prop where
  /-- the source walks it in the way that is recorded -/
  walk : ∀ q, processHeapObjectRecursive env m ⟨b, 0⟩ none q =
    walkTyped (visitSlot env m) (.array n length elementType) ⟨b, 0⟩ q
  returns : ∀ q l, q.Represents l → ∃ q', processHeapObjectRecursive env m ⟨b, 0⟩ none q = .ok q'
  /-- there is a round for each element, none is visited twice -/
  elements : ∃ ps, rounds length elementType ⟨b, 0⟩ = .ok ps ∧ ps.length = length.toNat ∧
    (∀ i < length.toNat, ps[i]? = some ⟨b, i * size.toNat⟩) ∧ ps.Nodup
  /-- no word is loaded that is not in the array -/
  inside : ∃ ps, loads (.array n length elementType) ⟨b, 0⟩ = .ok ps ∧
    ∀ p ∈ ps, p.base = b ∧ p.off + pointerSize ≤ length.toNat * size.toNat

variable {c : Chunk} {n : Option UInt32}

/-- The rounds over an array are about its elements in turn exactly if the offset of the last
element fits in 32 bits. -/
theorem processArray_exact_iff (henv : env.Sound) (hc : m.chunks b = some c)
    (hu : minUsable ≤ c.usable)
    (ht : env.tracedType b c.toChunkRecord = some (.array n length elementType))
    (he : elementType.IsElement size)
    (hfit : length.toNat * size.toNat ≤ c.userLength env b) :
    ElementsExact env m b n length size elementType ↔
      (length.toNat - 1) * size.toNat < 2 ^ 32 := by
  have hquery : allocUniqtype env m (Ptr.addr ⟨b, 0⟩) = .ok (some (.array n length elementType)) :=
    ht ▸ allocUniqtype_eq henv hc
  have hprocess : ∀ q, processHeapObjectRecursive env m ⟨b, 0⟩ none q =
      processTyped env m (.array n length elementType) ⟨b, 0⟩ q := fun q => by
    simp [processHeapObjectRecursive, hquery]
  constructor
  · intro H
    obtain ⟨ps, hps, -, helem, -⟩ := H.elements
    obtain rfl := Except.ok.inj (he.rounds_eq.symm.trans hps)
    by_cases hlen : length.toNat = 0
    · simp [hlen]
    have hlast := helem (length.toNat - 1) (by omega)
    rw [List.getElem?_map, List.getElem?_range (by omega), Option.map_some] at hlast
    have hoff : elementType.elementOffset (length.toNat - 1) =
        (length.toNat - 1) * size.toNat := by
      simpa [Ptr.add] using hlast
    rw [← hoff, Uniqtype.elementOffset_eq]
    exact Nat.mod_lt _ (by decide)
  · intro hlast
    refine ⟨fun q => (hprocess q).trans (processTyped_eq _ _ q), fun q l hq => ?_, ?_, ?_⟩
    · have happ : Appends (processTyped env m (.array n length elementType) ⟨b, 0⟩) _ :=
        processArray_appends henv hc he.posMaxoff fun o ho => by
          have := he.examined_lt ho
          have := Chunk.userLength_le henv b hu
          omega
      obtain ⟨q', hq', -⟩ := happ q l hq
      exact ⟨q', (hprocess q).trans hq'⟩
    · refine ⟨_, he.rounds_eq, by simp, fun i hi => ?_, ?_⟩
      · rw [List.getElem?_map, List.getElem?_range hi, Option.map_some,
          he.elementOffset_eq hlast hi, Ptr.add, Nat.zero_add]
      · refine List.Nodup.map_on (fun i hi j hj hij => ?_) List.nodup_range
        have hoff : elementType.elementOffset i = elementType.elementOffset j := by
          simpa [Ptr.add] using hij
        rw [he.elementOffset_eq hlast (List.mem_range.mp hi),
          he.elementOffset_eq hlast (List.mem_range.mp hj)] at hoff
        exact Nat.eq_of_mul_eq_mul_right he.pos hoff
    · refine ⟨_, loads_array he.posMaxoff, fun p hp => ?_⟩
      obtain ⟨o, ho, rfl⟩ := List.mem_map.mp hp
      refine ⟨rfl, ?_⟩
      rw [Ptr.add, Nat.zero_add]
      exact he.examined_lt ho

/-- A block that is just large enough for an array. -/
def arrayChunk (length size : UInt32) (elementType : Uniqtype) : Chunk :=
  ⟨⟨length.toNat * size.toNat + minUsable, .array none length elementType⟩, fun _ => 0⟩

def arrayBlock (length size : UInt32) (elementType : Uniqtype) : Memory :=
  { oneBlock .void with
    chunks := Function.update (fun _ => none) 4194304 (some (arrayChunk length size elementType)) }

theorem pointer_isElement : Uniqtype.pointer.IsElement 8 := ⟨.inl rfl, rfl, by decide, by decide⟩

/-- A pointer behind one word of data. -/
def pairType : Uniqtype := .composite (some 16) [(8, .pointer)]

theorem pairType_isElement : pairType.IsElement 16 := ⟨.inr rfl, rfl, by decide, by decide⟩

theorem processArray_exact_iff_pairs :
    ElementsExact Env.flat (arrayBlock 3 16 pairType) 4194304 none 3 16 pairType ↔
      ((3 : UInt32).toNat - 1) * (16 : UInt32).toNat < 2 ^ 32 :=
  processArray_exact_iff Env.flat_sound (c := arrayChunk 3 16 pairType) rfl (by decide) rfl
    pairType_isElement (by decide)

/-- Of 2 ^ 29 + 1 pointers the last one is not examined, but the first one twice. -/
theorem not_elementsExact_hugeArray :
    (arrayBlock 0x20000001 8 .pointer).chunks 4194304 = some (arrayChunk 0x20000001 8 .pointer) ∧
      Env.flat.tracedType 4194304 (arrayChunk 0x20000001 8 .pointer).toChunkRecord =
        some (.array none 0x20000001 .pointer) ∧
      Uniqtype.pointer.IsElement 8 ∧
      (0x20000001 : UInt32).toNat * (8 : UInt32).toNat ≤
        (arrayChunk 0x20000001 8 .pointer).userLength Env.flat 4194304 ∧
      ¬ElementsExact Env.flat (arrayBlock 0x20000001 8 .pointer) 4194304 none 0x20000001 8
        .pointer := by
  refine ⟨rfl, rfl, pointer_isElement, by decide, fun H => ?_⟩
  obtain ⟨ps, hps, -, helem, -⟩ := H.elements
  obtain rfl := Except.ok.inj (pointer_isElement.rounds_eq.symm.trans hps)
  have hlast := helem 0x20000000 (by decide)
  rw [List.getElem?_map, List.getElem?_range (by decide), Option.map_some] at hlast
  have hoff : Uniqtype.pointer.elementOffset 0x20000000 = 0x20000000 * (8 : UInt32).toNat := by
    simpa [Ptr.add] using hlast
  exact absurd hoff (by decide)

end PrecisionGc
