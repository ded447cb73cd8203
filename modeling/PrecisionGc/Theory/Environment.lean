import PrecisionGc.Model.Mutator

/-!
# What is relied on from outside the repository

The contracts of liballocs, of its private allocator and of the linker that the proofs use. Each
field is about one of the parameters of `Env` alone.
-/

namespace PrecisionGc

/-- The environment keeps its contracts. -/
structure Env.Sound (env : Env) : Prop where
  /-- the insert lies at the end of the chunk, behind room for two links -/
  insert : ∀ b u, minUsable ≤ u →
    b + 2 * pointerSize ≤ env.insertForChunk b u ∧ env.insertForChunk b u + pointerSize ≤ b + u
  /-- the query is accurate for the start of a live chunk -/
  query : ∀ records b r, records b = some r → env.getAllocInfo records b =
    ⟨false, some .genericMalloc, b, env.allocSize b r, some r.uniqtype⟩
  querySize : ∀ b r, minUsable ≤ r.usable → env.allocSize b r ≠ 0
  /-- and it takes no other address for one -/
  queryDead : ∀ records p, records p = none →
    (env.getAllocInfo records p).allocator = some .genericMalloc →
    (env.getAllocInfo records p).allocSizeBytes ≠ 0 → (env.getAllocInfo records p).allocStart ≠ p
  /-- a private node is not NULL and not in use -/
  privateMalloc : ∀ used, env.privateMalloc used ≠ 0 ∧ env.privateMalloc used ∉ used
  /-- `heap_list_head` is an aligned variable -/
  headAligned : env.heapListHead % pointerSize = 0
  headPos : env.heapListHead ≠ 0
  headLt : env.heapListHead < 2 ^ 64
  /-- the collector's statics do not overlap -/
  staticsApart : env.statics.Pairwise fun a b => apart a b = true

/-- An environment with the insert in the last word of each chunk, a query that answers from the
records and from nothing else, and the segments on one page; the last word of `.bss` belongs to the
program. -/
def Env.flat : Env where
  insertForChunk b u := b + u - pointerSize
  getAllocInfo records p := match records p with
    | some r => ⟨false, some .genericMalloc, p, r.usable, some r.uniqtype⟩
    | none => ⟨true, none, 0, 0, none⟩
  allocSize _ r := r.usable
  makePrecise _ := none
  privateMalloc used := used.foldr max 0 + 1
  dataStart := 0x6000
  edata := 0x6008
  bssStart := 0x6008
  bssEnd := 0x6048
  heapListHead := 0x6008
  mymallocLowest := 0x6010
  mymallocHighest := 0x6018
  qHead := 0x6020
  qTail := 0x6028
  bigallocsList := 0x6030
  stackBase := 0x6038

theorem le_foldr_max {a : Nat} {l : List Nat} (h : a ∈ l) : a ≤ l.foldr max 0 := by
  induction l with
  | nil => cases h
  | cons b l ih =>
    rcases List.mem_cons.mp h with rfl | h
    · exact Nat.le_max_left _ _
    · exact (ih h).trans (Nat.le_max_right _ _)

theorem Env.flat_sound : Env.flat.Sound where
  insert b u hu := by
    simp only [flat, minUsable, pointerSize] at hu ⊢
    omega
  query records b r h := by simp [flat, h]
  querySize b r h := by
    simp only [flat, minUsable] at h ⊢
    omega
  queryDead records p h := by simp [flat, h]
  privateMalloc used := by
    refine ⟨Nat.succ_ne_zero _, fun h => ?_⟩
    exact absurd (le_foldr_max h) (Nat.not_succ_le_self _)
  headAligned := by decide
  headPos := by decide
  headLt := by decide
  staticsApart := by decide

end PrecisionGc
