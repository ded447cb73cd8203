import PrecisionGc.Library.Runs
import PrecisionGc.Verify.Realloc

/-!
# What a call is made of

The one case split over the calls of a run: a call that has returned is one of the entry points of
the collector, or a write of the mutator that changes neither a record nor a static (`exec_cases`).
Nothing is assumed of the heap or of the call.
-/

namespace PrecisionGc
open ByteStore Runs

variable {env : Env} {m m' : Memory} {s s' : State} {b w fuel ret : Nat} {call : Call}
  {x x' : Session}

/-! ## Memories that differ in what the mutator writes -/

/-- The filter answers in the same way in both memories. -/
structure Alike (m m' : Memory) : Prop where
  records : m'.records = m.records
  bigallocsList : m'.bigallocsList = m.bigallocsList
  pageindex : m'.pageindex = m.pageindex

namespace Alike

theorem refl (m : Memory) : Alike m m := ⟨rfl, rfl, rfl⟩

theorem trans {m'' : Memory} (h : Alike m m') (h' : Alike m' m'') : Alike m m'' :=
  ⟨h'.records.trans h.records, h'.bigallocsList.trans h.bigallocsList,
    h'.pageindex.trans h.pageindex⟩

end Alike

theorem records_setChunk {o : Option Chunk} :
    (m.setChunk b o).records = Function.update m.records b (o.map (·.toChunkRecord)) := by
  funext x
  by_cases hx : x = b
  · subst hx; simp [Memory.records, Memory.setChunk]
  · simp [Memory.records, Memory.setChunk, Function.update_of_ne hx]

/-- A chunk is replaced by one with the same record. -/
theorem alike_setChunk {c c' : Chunk} (hc : m.chunks b = some c)
    (hr : c'.toChunkRecord = c.toChunkRecord) : Alike m (m.setChunk b (some c')) := by
  refine ⟨?_, rfl, rfl⟩
  rw [records_setChunk, Option.map_some, hr, ← Option.map_some, ← hc]
  exact Function.update_eq_self b m.records

theorem apart_comm {a a' : Nat} : apart a a' = apart a' a := by
  simp only [apart, Bool.or_comm]

/-- Neither the records nor the statics of the collector have changed. -/
structure Mutated (env : Env) (m m' : Memory) : Prop where
  alike : Alike m m'
  statics : ∀ a ∈ env.statics, m'.seg a = m.seg a

/-! ## One call -/

/-- The call is a write of the mutator. -/
def Call.mutates : Call → Bool
  | .malloc .. | .realloc .. | .collect => false
  | _ => true

/-- What has been done by a call that returned. -/
inductive Executed (env : Env) (fuel : Nat) (s : State) : Call → Nat → State → Prop
  | malloc {size answer r t} (h : gcMalloc env fuel answer size s = .ok (r, t)) :
      Executed env fuel s (.malloc size answer) r t
  | reallocNull {size answer r t} (h : gcMalloc env fuel answer.alloc size s = .ok (r, t)) :
      Executed env fuel s (.realloc 0 size answer) r t
  | realloc {p size answer r t} (hp : p ≠ 0)
      (h : gcRealloc env fuel answer p size s = .ok (r, t)) :
      Executed env fuel s (.realloc p size answer) r t
  | collect {t} (h : gcCollect env fuel s = .ok t) : Executed env fuel s .collect 0 t
  | mutate {c n} (hc : c.mutates = true) (h : Mutated env s.toMemory n) :
      Executed env fuel s c 0 { s with toMemory := n }

theorem exec_cases (h : exec env fuel s call = .ok (ret, s')) :
    Executed env fuel s call ret s' := by
  cases call with
  | malloc size answer => exact .malloc h
  | realloc p size answer =>
    by_cases hp : p = 0
    · subst hp
      exact .reallocNull (by simpa only [exec, gcRealloc, if_true] using h)
    · exact .realloc hp h
  | collect =>
    obtain ⟨s₁, h₁, h⟩ := Except.bind_eq_ok.mp h
    obtain ⟨rfl, rfl⟩ := Prod.mk.inj (Except.ok.inj h)
    exact .collect h₁
  | setRegister r w =>
    obtain ⟨rfl, rfl⟩ := Prod.mk.inj (Except.ok.inj h)
    exact .mutate (n := { s.toMemory with regs := _ }) rfl ⟨⟨rfl, rfl, rfl⟩, fun _ _ => rfl⟩
  | moveStack sp =>
    simp only [exec] at h
    split at h
    · cases h
    · obtain ⟨rfl, rfl⟩ := Prod.mk.inj (Except.ok.inj h)
      exact .mutate (n := { s.toMemory with stackPointer := sp }) rfl
        ⟨⟨rfl, rfl, rfl⟩, fun _ _ => rfl⟩
  | storeSegment a w =>
    simp only [exec] at h
    split at h
    next ha =>
      obtain ⟨rfl, rfl⟩ := Prod.mk.inj (Except.ok.inj h)
      refine .mutate rfl ⟨⟨rfl, rfl, rfl⟩, fun a' ha' => seg_setSeg_of_apart ?_⟩
      rw [apart_comm]
      exact List.all_eq_true.mp ha a' ha'
    next => cases h
  | storeField b off w =>
    simp only [exec] at h
    split at h
    · cases h
    next c hc =>
    split at h
    · obtain ⟨rfl, rfl⟩ := Prod.mk.inj (Except.ok.inj h)
      exact .mutate rfl ⟨alike_setChunk hc rfl, fun _ _ => rfl⟩
    · cases h

/-- A write of the mutator leaves the blocks handed out alone. -/
theorem Call.mutates_handedAfter (h : call.mutates = true) (l : List Nat) :
    handedAfter call ret l = l := by
  cases call with
  | malloc | realloc | collect => cases h
  | _ => rfl

/-- What is handed out after a call was handed out before it, or it is what the call returned. -/
theorem mem_handedAfter {l : List Nat} (h : b ∈ handedAfter call ret l) :
    call.mutates = false ∧ ret ≠ 0 ∧ b = ret ∨ b ∈ l := by
  cases call with
  | malloc size answer =>
    simp only [handedAfter] at h
    split at h
    next => exact .inr h
    next hret => exact (List.mem_cons.mp h).imp_left fun e => ⟨rfl, hret, e⟩
  | realloc p size answer =>
    simp only [handedAfter] at h
    split at h
    next =>
      split at h
      · exact .inr (List.mem_filter.mp h).1
      · exact .inr h
    next hret =>
      exact (List.mem_cons.mp h).imp (fun e => ⟨rfl, hret, e⟩) fun h => (List.mem_filter.mp h).1
  | _ => exact .inr h

/-- A step of a run is an allowed call that returned. -/
theorem Session.step_cases (h : x.step env fuel call = .ok x') :
    call.allowed x.handed = true ∧ ∃ ret s', exec env fuel x.state call = .ok (ret, s') ∧
      x' = ⟨s', handedAfter call ret
        (x.handed.filter fun b => !(sweptBetween x.state s').contains b)⟩ := by
  unfold Session.step at h
  split at h
  next hallowed =>
    obtain ⟨⟨ret, s'⟩, hexec, h⟩ := Except.bind_eq_ok.mp h
    exact ⟨hallowed, ret, s', hexec, (Except.ok.inj h).symm⟩
  next => cases h

end PrecisionGc
