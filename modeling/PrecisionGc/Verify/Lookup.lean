import PrecisionGc.Verify.Mark

/-!
# The type of an admitted object

The filter takes an object for what the query says of its allocator, its start and its size; the
tracer asks the query again and relies on the error code and on the type. Whether the second answer
is usable does not follow from the first: over an environment of which nothing is assumed, the
lookup goes through exactly if the query reports no error and a type.
-/

namespace PrecisionGc
open Except

variable {env : Env} {m : Memory} {q : Queue} {b w : Nat}

/-! ## Where no NULL type is dereferenced -/

theorem chunk_avoids : Avoids .nullType (m.chunk b) := by
  unfold Memory.chunk
  split
  · exact .ok _
  · exact .error (by decide)

theorem previousPointer_avoids : Avoids .nullType (m.previousPointer env b) :=
  chunk_avoids.bind fun _ => .ok _

theorem markBlock_avoids : Avoids .nullType (m.markBlock env b) :=
  previousPointer_avoids.bind fun _ => chunk_avoids.bind fun _ => .ok _

theorem load_avoids (p : Ptr) : Avoids .nullType (m.load p) := by
  refine chunk_avoids.bind fun c => ?_
  split
  · exact .ok _
  · exact .error (by decide)

theorem node_avoids {a : Nat} : Avoids .nullType (q.node a) := by
  unfold Queue.node
  split
  · exact .ok _
  · exact .error (by decide)

theorem enqueue_avoids : Avoids .nullType (q.enqueueHeapQueueNode env w) := by
  unfold Queue.enqueueHeapQueueNode
  dsimp only
  split
  · split
    · exact .ok _
    · exact .error (by decide)
  · exact node_avoids.bind fun _ => .ok _

theorem dequeue_avoids : Avoids .nullType q.dequeueHeapQueueNode := by
  unfold Queue.dequeueHeapQueueNode
  dsimp only
  split
  · exact .ok _
  · exact node_avoids.bind fun _ => node_avoids.bind fun _ => .ok _

theorem enqueueIfValid_avoids : Avoids .nullType (enqueueIfValid env m w q) := by
  unfold enqueueIfValid
  split
  · exact enqueue_avoids
  · exact .ok _

theorem processSubobject_avoids {elementType : Uniqtype}
    {recurse : Ptr → Queue → Except Fault Queue} (h : ∀ p q, Avoids .nullType (recurse p q))
    (p : Ptr) (q : Queue) :
    Avoids .nullType (processSubobject env m elementType recurse p q) := by
  unfold processSubobject
  split
  · exact (load_avoids p).bind fun _ => enqueueIfValid_avoids
  · split
    · exact h p q
    · exact .ok _

mutual
/-- The walk looks up no type. -/
theorem processTyped_avoids : (t : Uniqtype) → (p : Ptr) → (q : Queue) →
    Avoids .nullType (processTyped env m t p q)
  | .void, p, q | .base _, p, q | .pointer, p, q => by
    simp only [processTyped]
    exact .ok _
  | .composite _ related, p, q => by
    simp only [processTyped]
    exact processMembers_avoids related p q
  | .array _ length elementType, p, q => by
    simp only [processTyped]
    refine Avoids.foldlM (fun q i => ?_) _ q
    split
    · exact .error (by decide)
    · exact processSubobject_avoids (processTyped_avoids elementType) _ q

theorem processMembers_avoids : (related : List (Nat × Uniqtype)) → (p : Ptr) → (q : Queue) →
    Avoids .nullType (processMembers env m related p q)
  | [], p, q => by
    simp only [processMembers]
    exact .ok _
  | (memberOffset, t) :: related, p, q => by
    simp only [processMembers]
    exact (processSubobject_avoids (processTyped_avoids t) _ q).bind
      (processMembers_avoids related p)
end

/-! ## The lookup -/

/-- The object of the first node of the queue is accepted by the filter, unmarked and without the
sentinel, so `mark_reachable_heap_objects` traces it. -/
structure Admitted (env : Env) (m : Memory) (q : Queue) (b : Nat) : Prop where
  valid : validHeapObject env m b = true
  first : ∃ next, q.node q.head = .ok ⟨b, next⟩
  unmarked : m.marked env b = .ok false
  previous : ∃ w, m.previousPointer env b = .ok w ∧ w ≠ sentinel

/-- The round that traces the object neither fails the assertion on `err`, which is the only one in
`allocUniqtype`, nor dereferences a NULL type. -/
structure LookupSafe (env : Env) (m : Memory) (q : Queue) (b : Nat) : Prop where
  err : allocUniqtype env m b ≠ .error .assertion
  nullType : markRound env (m, q) ≠ .error .nullType

/-- The round for an admitted object. -/
theorem Admitted.markRound_eq (h : Admitted env m q b) : markRound env (m, q) = do
    let q ← processHeapObjectRecursive env m ⟨b, 0⟩ none q
    let m ← m.markBlock env b
    let q ← q.dequeueHeapQueueNode
    return (m, q) := by
  obtain ⟨next, hfirst⟩ := h.first
  obtain ⟨w, hw, hne⟩ := h.previous
  simp [markRound, hfirst, h.unmarked, hw, hne]

/-- An error of the query or a NULL type ends the collection. -/
theorem Admitted.lookup_fails {e : Fault} (h : Admitted env m q b)
    (he : allocUniqtype env m b = .error e) : markRound env (m, q) = .error e := by
  have hprocess : processHeapObjectRecursive env m ⟨b, 0⟩ none q = .error e := by
    simp [processHeapObjectRecursive, Ptr.addr, he]
  rw [h.markRound_eq, hprocess]
  rfl

/-- Tracing an admitted object is safe exactly if the query reports no error and a type for it. -/
theorem lookupSafe_iff (h : Admitted env m q b) : LookupSafe env m q b ↔
    (env.getAllocInfo m.records b).err = false ∧
      (env.getAllocInfo m.records b).allocUniqtype ≠ none := by
  constructor
  · rintro ⟨herr, hnull⟩
    have hnoerr : (env.getAllocInfo m.records b).err = false := by
      by_contra hne
      exact herr (by simp [allocUniqtype, hne])
    refine ⟨hnoerr, fun hnone => hnull (h.lookup_fails ?_)⟩
    simp [allocUniqtype, hnoerr, hnone]
  · rintro ⟨hnoerr, htype⟩
    obtain ⟨t, ht⟩ := Option.ne_none_iff_exists'.mp htype
    have hok : ∃ alloc, allocUniqtype env m b = .ok alloc := by
      cases hp : env.makePrecise t with
      | none => exact ⟨some t, by simp [allocUniqtype, hnoerr, ht, hp]⟩
      | some f => exact ⟨_, by simp [allocUniqtype, hnoerr, ht, hp]; rfl⟩
    obtain ⟨alloc, hok⟩ := hok
    refine ⟨by rw [hok]; exact Avoids.ok _, ?_⟩
    rw [h.markRound_eq]
    refine Avoids.bind ?_ fun _ => markBlock_avoids.bind fun _ => dequeue_avoids.bind fun _ => .ok _
    simp only [processHeapObjectRecursive, Ptr.addr, Nat.add_zero, hok, Except.ok_bind]
    cases alloc with
    | none => exact .ok _
    | some t => exact processTyped_avoids t _ q

/-! ## Two answers of the query -/

/-- liballocs finds the chunk but does not recognise its allocation site: it reports an error and no
type. -/
def unrecognisedSite : Env :=
  { Env.flat with
    getAllocInfo := fun records p => match records p with
      | some r => ⟨true, some .genericMalloc, p, r.usable, none⟩
      | none => ⟨true, none, 0, 0, none⟩ }

/-- liballocs finds the chunk and reports no error, but a NULL type. -/
def untypedSite : Env :=
  { Env.flat with
    getAllocInfo := fun records p => match records p with
      | some r => ⟨false, some .genericMalloc, p, r.usable, none⟩
      | none => ⟨true, none, 0, 0, none⟩ }

/-- Two blocks, of which the second is queued. -/
def queuedHeap : Memory := twoBlocks Env.flat 8 16 0x6040 0x400000 0x410000

def oneQueued : Queue := Queue.alloc ⟨1, 1, fun _ => none, []⟩ 1 0x410000

/-- The queued block is admitted under each of the two answers, and the collection ends there: with
the assertion in the one case, with the access to the NULL type in the other. -/
theorem not_lookupSafe_queuedHeap :
    (Admitted unrecognisedSite queuedHeap oneQueued 0x410000 ∧
      ¬LookupSafe unrecognisedSite queuedHeap oneQueued 0x410000) ∧
    Admitted untypedSite queuedHeap oneQueued 0x410000 ∧
      ¬LookupSafe untypedSite queuedHeap oneQueued 0x410000 := by
  have hadmitted : Admitted untypedSite queuedHeap oneQueued 0x410000 :=
    ⟨by decide +kernel, ⟨0, rfl⟩, by decide +kernel, 0x400000, by decide +kernel, by decide⟩
  refine ⟨⟨?_, fun h => h.err rfl⟩, hadmitted,
    fun h => h.nullType (hadmitted.lookup_fails rfl)⟩
  exact ⟨by decide +kernel, ⟨0, rfl⟩, by decide +kernel, 0x400000, by decide +kernel, by decide⟩

theorem lookupSafe_iff_queuedHeap : LookupSafe Env.flat queuedHeap oneQueued 0x410000 ↔
    (Env.flat.getAllocInfo queuedHeap.records 0x410000).err = false ∧
      (Env.flat.getAllocInfo queuedHeap.records 0x410000).allocUniqtype ≠ none :=
  lookupSafe_iff
    ⟨by decide +kernel, ⟨0, rfl⟩, by decide +kernel, 0x400000, by decide +kernel, by decide⟩

end PrecisionGc
