import PrecisionGc.Verify.Queue
import Mathlib.Data.List.Perm.Basic

/-!
# What the tracer enqueues

`Uniqtype.examined` lists the byte offsets at which `process_heap_object_recursive` loads a word, in
the order of its loops, and `processHeapObject_appends` says that it enqueues the valid words found
there. The pointers of a type are compared with these offsets: `missed` are the leaves that are
passed over (an object that is itself a pointer, the elements of an array that is not the object
itself, elements whose offset does not fit in 32 bits), `misread` the offsets that are loaded in
place of the latter. `traced_iff` is the exact condition for the tracer to be complete.
-/

namespace PrecisionGc
open ByteStore

namespace Uniqtype

mutual
/-- The offsets loaded for a subobject of this type. -/
def visited : Uniqtype → List Nat
  | pointer => [0]
  | composite _ related => memberVisited related
  | _ => []

def memberVisited : List (Nat × Uniqtype) → List Nat
  | [] => []
  | (memberOffset, t) :: related => (visited t).map (memberOffset + ·) ++ memberVisited related
end

mutual
/-- The leaves that are not loaded for a subobject of this type. -/
def skipped : Uniqtype → List Nat
  | pointer => []
  | composite _ related => memberSkipped related
  | t => t.leaves

def memberSkipped : List (Nat × Uniqtype) → List Nat
  | [] => []
  | (memberOffset, t) :: related => (skipped t).map (memberOffset + ·) ++ memberSkipped related
end

/-- `i * pos_maxoff`, in the 32 bits of the source. -/
def elementOffset (t : Uniqtype) (i : Nat) : Nat := (UInt32.ofNat i * t.posMaxoff.getD 0).toNat

/-- The offsets loaded for an object of this type. -/
def examined : Uniqtype → List Nat
  | composite _ related => memberVisited related
  | array _ length elementType => (List.range length.toNat).flatMap fun i =>
      elementType.visited.map (elementType.elementOffset i + ·)
  | _ => []

/-- The element offset does not fit in 32 bits. -/
def wraps (t : Uniqtype) (i : Nat) : Bool := 2 ^ 32 ≤ i * t.stride

/-- The leaves of an object of this type that are loaded. -/
def found : Uniqtype → List Nat
  | composite _ related => memberVisited related
  | array _ length elementType => (List.range length.toNat).flatMap fun i =>
      if elementType.wraps i then [] else elementType.visited.map (i * elementType.stride + ·)
  | _ => []

/-- The leaves of an object of this type that are not loaded. -/
def missed : Uniqtype → List Nat
  | pointer => [0]
  | composite _ related => memberSkipped related
  | array _ length elementType => (List.range length.toNat).flatMap fun i =>
      elementType.skipped.map (i * elementType.stride + ·) ++
        if elementType.wraps i then elementType.visited.map (i * elementType.stride + ·) else []
  | _ => []

/-- The offsets loaded in place of an element further on. -/
def misread : Uniqtype → List Nat
  | array _ length elementType => (List.range length.toNat).flatMap fun i =>
      if elementType.wraps i then elementType.visited.map (elementType.elementOffset i + ·) else []
  | _ => []

theorem elementOffset_eq (t : Uniqtype) (i : Nat) :
    t.elementOffset i = i * t.stride % 2 ^ 32 := by
  simp [elementOffset, stride, UInt32.toNat_mul, UInt32.toNat_ofNat']

theorem elementOffset_le (t : Uniqtype) (i : Nat) : t.elementOffset i ≤ i * t.stride := by
  rw [elementOffset_eq]; exact Nat.mod_le _ _

theorem elementOffset_of_not_wraps {t : Uniqtype} {i : Nat} (h : t.wraps i = false) :
    t.elementOffset i = i * t.stride := by
  rw [elementOffset_eq, Nat.mod_eq_of_lt (by simpa [wraps] using h)]

mutual
theorem leaves_perm : (t : Uniqtype) → t.leaves.Perm (t.visited ++ t.skipped)
  | pointer | void | base _ | array _ _ _ => by simp [leaves, visited, skipped]
  | composite _ related => memberLeaves_perm related

theorem memberLeaves_perm : (related : List (Nat × Uniqtype)) →
    (memberLeaves related).Perm (memberVisited related ++ memberSkipped related)
  | [] => .nil
  | (memberOffset, t) :: related => by
    have ht := (leaves_perm t).map (memberOffset + ·)
    rw [List.map_append] at ht
    refine (ht.append (memberLeaves_perm related)).trans ?_
    simp only [memberVisited, memberSkipped, List.append_assoc]
    exact (List.perm_append_comm_assoc _ _ _).append_left _
end

/-- The leaves are those that are loaded and those that are missed. -/
theorem leaves_perm_found (t : Uniqtype) : t.leaves.Perm (t.found ++ t.missed) := by
  cases t with
  | void | base | pointer => simp [leaves, found, missed]
  | composite _ related => exact memberLeaves_perm related
  | array _ length elementType =>
    refine .trans ?_ (List.flatMap_append_perm _ _ _).symm
    refine List.Perm.flatMap_left _ fun i _ => ?_
    have h := (elementType.leaves_perm).map (i * elementType.stride + ·)
    rw [List.map_append] at h
    cases elementType.wraps i with
    | false => simpa using h
    | true => simpa using h.trans List.perm_append_comm

/-- What is loaded are the leaves found and the offsets misread. -/
theorem examined_perm_found (t : Uniqtype) : t.examined.Perm (t.found ++ t.misread) := by
  cases t with
  | void | base | pointer | composite => simp [examined, found, misread]
  | array _ length elementType =>
    refine .trans ?_ (List.flatMap_append_perm _ _ _).symm
    refine List.Perm.flatMap_left _ fun i _ => ?_
    cases hw : elementType.wraps i with
    | false => simp [elementOffset_of_not_wraps hw]
    | true => simp

theorem visited_subset_leaves (t : Uniqtype) : ∀ o ∈ t.visited, o ∈ t.leaves := fun _ ho =>
  t.leaves_perm.mem_iff.mpr (List.mem_append_left _ ho)

/-- No load lies beyond the last pointer of the type. -/
theorem examined_le_leaves (t : Uniqtype) : ∀ o ∈ t.examined, ∃ o' ∈ t.leaves, o ≤ o' := by
  intro o ho
  rcases List.mem_append.mp ((t.examined_perm_found).mem_iff.mp ho) with h | h
  · exact ⟨o, (t.leaves_perm_found).mem_iff.mpr (List.mem_append_left _ h), le_rfl⟩
  cases t with
  | array n length elementType =>
    obtain ⟨i, hi, h⟩ := List.mem_flatMap.mp h
    split at h
    · obtain ⟨e, he, rfl⟩ := List.mem_map.mp h
      refine ⟨i * elementType.stride + e, ?_, Nat.add_le_add_right (elementOffset_le _ i) e⟩
      exact List.mem_flatMap.mpr
        ⟨i, hi, List.mem_map.mpr ⟨e, elementType.visited_subset_leaves e he, rfl⟩⟩
    · cases h
  | _ => cases h

end Uniqtype

/-! ## The words of one object -/

/-- The words at the given offsets behind `off`. -/
def Chunk.words (c : Chunk) (off : Nat) (offsets : List Nat) : List Nat :=
  offsets.map fun o => readLE c.bytes (off + o) pointerSize

/-- The words that are taken for heap objects. -/
def validWords (env : Env) (m : Memory) (ws : List Nat) : List Nat :=
  ws.filter (validHeapObject env m)

variable {env : Env} {m : Memory} {b : Nat} {c : Chunk} {off : Nat}

theorem Chunk.words_append (os os' : List Nat) :
    c.words off (os ++ os') = c.words off os ++ c.words off os' := List.map_append

theorem Chunk.words_flatMap {ι : Type*} (is : List ι) (os : ι → List Nat) :
    c.words off (is.flatMap os) = is.flatMap fun i => c.words off (os i) := List.map_flatMap

theorem Chunk.words_shift (o : Nat) (os : List Nat) :
    c.words off (os.map (o + ·)) = c.words (off + o) os := by
  simp only [Chunk.words, List.map_map]
  exact List.map_congr_left fun x _ => by simp [Nat.add_assoc]

theorem validWords_append (ws ws' : List Nat) :
    validWords env m (ws ++ ws') = validWords env m ws ++ validWords env m ws' :=
  List.filter_append _ _

theorem validWords_flatMap {ι : Type*} (is : List ι) (ws : ι → List Nat) :
    validWords env m (is.flatMap ws) = is.flatMap fun i => validWords env m (ws i) :=
  List.filter_flatMap

theorem Memory.load_eq (hc : m.chunks b = some c) (h : off + pointerSize ≤ c.usable) :
    m.load ⟨b, off⟩ = .ok (readLE c.bytes off pointerSize) := by
  simp [Memory.load, Memory.chunk, hc, bind, Except.bind, h]

theorem enqueueIfValid_appends (henv : env.Sound) (w : Nat) :
    Appends (enqueueIfValid env m w) (validWords env m [w]) := by
  cases hw : validHeapObject env m w with
  | false =>
    have hws : validWords env m [w] = [] := by simp [validWords, hw]
    rw [hws]
    exact Appends.nothing.congr fun q => by simp [enqueueIfValid, hw]
  | true =>
    have hws : validWords env m [w] = [w] := by simp [validWords, hw]
    rw [hws]
    exact (Appends.enqueue henv w).congr fun q => by simp [enqueueIfValid, hw]

mutual
/-- A subobject is walked through the offsets of its type. -/
theorem processSubobject_appends (henv : env.Sound) (hc : m.chunks b = some c) :
    (t : Uniqtype) → (off : Nat) → (∀ o ∈ t.visited, off + o + pointerSize ≤ c.usable) →
    Appends (processSubobject env m t (processTyped env m t) ⟨b, off⟩)
      (validWords env m (c.words off t.visited))
  | .pointer, off, h => by
    have hload : m.load ⟨b, off⟩ = .ok (readLE c.bytes off pointerSize) :=
      Memory.load_eq hc (h 0 (by simp [Uniqtype.visited]))
    rw [Uniqtype.visited]
    refine (enqueueIfValid_appends henv (readLE c.bytes off pointerSize)).congr fun q => ?_
    simp only [processSubobject, Uniqtype.isPointerType, if_true, hload, Except.ok_bind]
  | .composite n related, off, h => by
    rw [Uniqtype.visited] at h ⊢
    refine (processMembers_appends henv hc related off h).congr fun q => ?_
    simp only [processSubobject, Uniqtype.isPointerType, Uniqtype.isCompositeType, processTyped,
      if_true, if_false, Bool.false_eq_true]
  | .void, _, _ | .base _, _, _ | .array _ _ _, _, _ => by
    simp only [Uniqtype.visited]
    refine Appends.nothing.congr fun q => ?_
    simp only [processSubobject, Uniqtype.isPointerType, Uniqtype.isCompositeType, if_false,
      Bool.false_eq_true]

theorem processMembers_appends (henv : env.Sound) (hc : m.chunks b = some c) :
    (related : List (Nat × Uniqtype)) → (off : Nat) →
    (∀ o ∈ Uniqtype.memberVisited related, off + o + pointerSize ≤ c.usable) →
    Appends (processMembers env m related ⟨b, off⟩)
      (validWords env m (c.words off (Uniqtype.memberVisited related)))
  | [], off, _ => by
    rw [Uniqtype.memberVisited]
    exact Appends.nothing.congr fun q => by simp [processMembers]
  | (memberOffset, t) :: related, off, h => by
    rw [Uniqtype.memberVisited] at h
    have hfst : ∀ o ∈ t.visited, off + memberOffset + o + pointerSize ≤ c.usable := fun o ho => by
      rw [Nat.add_assoc off]
      exact h _ (List.mem_append_left _ (List.mem_map_of_mem ho))
    have hsnd : ∀ o ∈ Uniqtype.memberVisited related, off + o + pointerSize ≤ c.usable :=
      fun o ho => h o (List.mem_append_right _ ho)
    rw [Uniqtype.memberVisited, Chunk.words_append, Chunk.words_shift, validWords_append]
    exact ((processSubobject_appends henv hc t (off + memberOffset) hfst).bind
      (processMembers_appends henv hc related off hsnd)).congr fun q => by
        rw [processMembers]; rfl
end

/-- The walk over an array whose elements have known length. -/
theorem processArray_appends (henv : env.Sound) (hc : m.chunks b = some c) {n : Option UInt32}
    {length posMaxoff : UInt32} {elementType : Uniqtype}
    (hlen : elementType.posMaxoff = some posMaxoff)
    (h : ∀ o ∈ (Uniqtype.array n length elementType).examined,
      off + o + pointerSize ≤ c.usable) :
    Appends (processTyped env m (.array n length elementType) ⟨b, off⟩)
      (validWords env m (c.words off (Uniqtype.array n length elementType).examined)) := by
  have helem : ∀ i ∈ List.range length.toNat, Appends
      (fun q => processSubobject env m elementType (processTyped env m elementType)
        ⟨b, off + elementType.elementOffset i⟩ q)
      (validWords env m (c.words (off + elementType.elementOffset i) elementType.visited)) :=
    fun i hi => processSubobject_appends henv hc elementType _ fun o ho => by
      rw [Nat.add_assoc off]
      exact h _ (List.mem_flatMap.mpr ⟨i, hi, List.mem_map_of_mem ho⟩)
  simp only [Uniqtype.examined, Chunk.words_flatMap, Chunk.words_shift, validWords_flatMap]
  refine (Appends.foldlM helem).congr fun q => ?_
  simp [processTyped, hlen, Ptr.add, Uniqtype.elementOffset]

/-- The walk over an object of a known type. -/
theorem processTyped_appends (henv : env.Sound) (hc : m.chunks b = some c) {t : Uniqtype}
    (hwf : t.wellFormed = true) (h : ∀ o ∈ t.examined, off + o + pointerSize ≤ c.usable) :
    Appends (processTyped env m t ⟨b, off⟩) (validWords env m (c.words off t.examined)) := by
  cases t with
  | void | base | pointer => exact Appends.nothing.congr fun q => by simp [processTyped]
  | composite n related =>
    exact (processMembers_appends henv hc related off h).congr fun q => by simp [processTyped]
  | array n length elementType =>
    obtain ⟨posMaxoff, hlen⟩ : ∃ p, elementType.posMaxoff = some p := by
      simp only [Uniqtype.wellFormed, Bool.and_eq_true, Uniqtype.hasKnownLength] at hwf
      exact Option.isSome_iff_exists.mp hwf.1
    exact processArray_appends henv hc hlen h

/-! ## One object -/

/-- The offsets at which the tracer loads a word of a live chunk. -/
def Env.slots (env : Env) (b : Nat) (c : Chunk) : List Nat :=
  match env.tracedType b c.toChunkRecord with
  | none => []
  | some t => t.examined

/-- The words at the pointer slots of an object that the tracer examines. -/
def children (env : Env) (m : Memory) (b : Nat) : List Nat :=
  match m.chunks b with
  | none => []
  | some c => c.words 0 (env.slots b c)

theorem Memory.records_eq (hc : m.chunks b = some c) : m.records b = some c.toChunkRecord := by
  simp [Memory.records, hc]

theorem children_eq (hc : m.chunks b = some c) : children env m b = c.words 0 (env.slots b c) := by
  simp [children, hc]

/-- The user data ends before the links and the insert. -/
theorem Chunk.userLength_le (henv : env.Sound) (b : Nat) (hu : minUsable ≤ c.usable) :
    c.userLength env b + 3 * pointerSize ≤ c.usable := by
  obtain ⟨h1, h2⟩ := henv.insert b c.usable hu
  simp only [Chunk.userLength]
  omega

theorem describes_iff : env.describes b c = true ↔ ∀ t, env.tracedType b c.toChunkRecord = some t →
    t.wellFormed = true ∧ ∀ o ∈ t.leaves, o + pointerSize ≤ c.userLength env b := by
  unfold Env.describes
  cases env.tracedType b c.toChunkRecord <;> simp [Uniqtype.fits]

/-- The query and `make_precise` give the type of the object. -/
theorem allocUniqtype_eq (henv : env.Sound) (hc : m.chunks b = some c) :
    allocUniqtype env m b = .ok (env.tracedType b c.toChunkRecord) := by
  simp only [allocUniqtype, Env.tracedType, henv.query _ _ _ (Memory.records_eq hc)]
  cases env.makePrecise c.uniqtype <;> simp

/-- Tracing an object enqueues the valid words at its slots, in the order of the walk. -/
theorem processHeapObject_appends (henv : env.Sound) (hc : m.chunks b = some c)
    (hu : minUsable ≤ c.usable) (hd : env.describes b c = true) :
    Appends (processHeapObjectRecursive env m ⟨b, 0⟩ none)
      (validWords env m (children env m b)) := by
  rw [children_eq hc, Env.slots]
  have hty : allocUniqtype env m (Ptr.addr ⟨b, 0⟩) = .ok (env.tracedType b c.toChunkRecord) :=
    allocUniqtype_eq henv hc
  cases ht : env.tracedType b c.toChunkRecord with
  | none =>
    refine Appends.nothing.congr fun q => ?_
    simp [processHeapObjectRecursive, hty, ht]
  | some t =>
    obtain ⟨hwf, hfit⟩ := describes_iff.mp hd t ht
    refine (processTyped_appends henv hc hwf fun o ho => ?_).congr fun q => ?_
    · obtain ⟨o', ho', hle⟩ := t.examined_le_leaves o ho
      have := hfit o' ho'
      have := Chunk.userLength_le henv b hu
      omega
    · simp [processHeapObjectRecursive, hty, ht]

/-- The words at the pointer-typed leaves of an object. -/
def leafWords (t : Uniqtype) (c : Chunk) : List Nat := c.words 0 t.leaves

/-- Tracing is complete, each valid leaf enqueued once, exactly when the valid words at the leaves
that are passed over are the valid words that are loaded in their place. -/
theorem processHeapObject_complete_iff {t : Uniqtype} {q : Queue} {l : List Nat}
    (henv : env.Sound) (hc : m.chunks b = some c) (hu : minUsable ≤ c.usable)
    (ht : env.tracedType b c.toChunkRecord = some t) (hd : env.describes b c = true)
    (hq : q.Represents l) :
    ∃ q' ws, processHeapObjectRecursive env m ⟨b, 0⟩ none q = .ok q' ∧ q'.Represents (l ++ ws) ∧
      (ws.Perm (validWords env m (leafWords t c)) ↔
        (validWords env m (c.words 0 t.missed)).Perm (validWords env m (c.words 0 t.misread))) := by
  obtain ⟨q', h, hq'⟩ := processHeapObject_appends henv hc hu hd q l hq
  refine ⟨q', _, h, hq', ?_⟩
  have hwords : ∀ {os os' : List Nat}, os.Perm os' →
      (validWords env m (c.words 0 os)).Perm (validWords env m (c.words 0 os')) :=
    fun h => (h.map _).filter _
  have hexamined := hwords t.examined_perm_found
  have hleaves := hwords t.leaves_perm_found
  rw [Chunk.words_append, validWords_append] at hexamined hleaves
  rw [children_eq hc, Env.slots, ht, leafWords, hexamined.congr_left, hleaves.congr_right,
    List.perm_append_left_iff, List.perm_comm]

/-- A memory with one chunk, at the lowest plausible address, whose first word is that address. -/
def selfReference (t : Uniqtype) : Chunk := ⟨⟨32, t⟩, writeLE (fun _ => 0) 0 pointerSize 4194304⟩

def oneBlock (t : Uniqtype) : Memory where
  chunks := Function.update (fun _ => none) 4194304 (some (selfReference t))
  segs _ := 0
  regs _ := 0
  stackPointer := 1
  stackBase := 1
  bigallocsList := [0]
  pageindex _ := 0

/-- An array of one array of one pointer. -/
def nestedArray : Uniqtype := .array (some 8) 1 (.array (some 8) 1 .pointer)

theorem processHeapObject_complete_iff_nestedArray :
    ∃ q' ws, processHeapObjectRecursive Env.flat (oneBlock nestedArray) ⟨4194304, 0⟩ none
        Queue.empty = .ok q' ∧ q'.Represents ([] ++ ws) ∧
      (ws.Perm (validWords Env.flat (oneBlock nestedArray)
          (leafWords nestedArray (selfReference nestedArray))) ↔
        (validWords Env.flat (oneBlock nestedArray)
          ((selfReference nestedArray).words 0 nestedArray.missed)).Perm
        (validWords Env.flat (oneBlock nestedArray)
          ((selfReference nestedArray).words 0 nestedArray.misread))) :=
  processHeapObject_complete_iff Env.flat_sound rfl (by decide) rfl (by decide)
    Queue.empty_represents

/-- The pointer in an array in an array is not enqueued, although it is valid. -/
theorem nestedArray_not_traced :
    ¬∃ q' ws, processHeapObjectRecursive Env.flat (oneBlock nestedArray) ⟨4194304, 0⟩ none
        Queue.empty = .ok q' ∧ q'.Represents ([] ++ ws) ∧
      ws.Perm (validWords Env.flat (oneBlock nestedArray)
        (leafWords nestedArray (selfReference nestedArray))) := by
  rintro ⟨q', ws, hrun, hq', hperm⟩
  have hempty : processHeapObjectRecursive Env.flat (oneBlock nestedArray) ⟨4194304, 0⟩ none
      Queue.empty = .ok Queue.empty := rfl
  obtain rfl : Queue.empty = q' := Except.ok.inj (hempty.symm.trans hrun)
  have hleaf : validWords Env.flat (oneBlock nestedArray)
      (leafWords nestedArray (selfReference nestedArray)) = [4194304] := by decide
  obtain rfl : ws = [] := hq'.head_eq_zero.mp rfl
  rw [hleaf] at hperm
  exact absurd hperm.length_eq (by decide)

end PrecisionGc
