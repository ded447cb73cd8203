import PrecisionGc.Verify.Links
import PrecisionGc.Verify.Steps

/-!
# What a collection writes

Whatever the heap looks like, a collection that returns has written to the links of chunks and to
`heap_list_head`, and has freed the chunks that it lists in its log. Nothing is assumed of the links
here: a collection that follows a wrong one ends in a fault, or it frees what is not on the list.
-/

namespace PrecisionGc
open ByteStore WhileLoop

variable {env : Env} {m m' m'' : Memory} {b w fuel : Nat} {c c' : Chunk} {freed freed' : List Nat}

/-! ## Bytes outside the links -/

namespace Chunk

/-- The same record, and the same bytes outside the two links. -/
structure SameButLinks (env : Env) (b : Nat) (c c' : Chunk) : Prop where
  record : c'.toChunkRecord = c.toChunkRecord
  bytes : ∀ i, (i < c.userLength env b ∨ c.userLength env b + pointerSize ≤ i) →
    (i < c.nextOffset env b ∨ c.nextOffset env b + pointerSize ≤ i) → c'.bytes i = c.bytes i

namespace SameButLinks

theorem refl (c : Chunk) : SameButLinks env b c c := ⟨rfl, fun _ _ _ => rfl⟩

theorem trans {c'' : Chunk} (h : SameButLinks env b c c') (h' : SameButLinks env b c' c'') :
    SameButLinks env b c c'' where
  record := h'.record.trans h.record
  bytes i hp hn := by
    have hu := congrArg ChunkRecord.usable h.record
    have hlen : c'.userLength env b = c.userLength env b := by simp only [userLength, hu]
    have hoff : c'.nextOffset env b = c.nextOffset env b := by simp only [nextOffset, hu]
    rw [h'.bytes i (by rwa [hlen]) (by rwa [hoff]), h.bytes i hp hn]

theorem setPrevious : SameButLinks env b c (c.setPrevious env b w) :=
  ⟨rfl, fun _ hp _ => writeLE_of_outside hp⟩

theorem setNext : SameButLinks env b c (c.setNext env b w) :=
  ⟨rfl, fun _ _ hn => writeLE_of_outside hn⟩

end SameButLinks
end Chunk

/-! ## Writes -/

/-- The chunks in `freed` are gone; the others are there, with the same bytes outside their links.
-/
structure Spares (env : Env) (freed : List Nat) (m m' : Memory) : Prop where
  kept : ∀ b c, b ∉ freed → m.chunks b = some c →
    ∃ c', m'.chunks b = some c' ∧ c.SameButLinks env b c'
  gone : ∀ b ∈ freed, m'.chunks b = none
  absent : ∀ b, m.chunks b = none → m'.chunks b = none
  bigallocsList : m'.bigallocsList = m.bigallocsList
  pageindex : m'.pageindex = m.pageindex

namespace Spares

theorem refl (m : Memory) : Spares env [] m m where
  kept _ c _ hc := ⟨c, hc, .refl c⟩
  gone _ hb := nomatch hb
  absent _ hb := hb
  bigallocsList := rfl
  pageindex := rfl

theorem trans (h : Spares env freed m m') (h' : Spares env freed' m' m'') :
    Spares env (freed ++ freed') m m'' where
  kept b c hb hc := by
    rw [List.mem_append, not_or] at hb
    obtain ⟨c', hc', hs⟩ := h.kept b c hb.1 hc
    obtain ⟨c'', hc'', hs'⟩ := h'.kept b c' hb.2 hc'
    exact ⟨c'', hc'', hs.trans hs'⟩
  gone b hb := (List.mem_append.mp hb).elim (fun hb => h'.absent b (h.gone b hb)) (h'.gone b)
  absent b hb := h'.absent b (h.absent b hb)
  bigallocsList := h'.bigallocsList.trans h.bigallocsList
  pageindex := h'.pageindex.trans h.pageindex

/-- A write frees nothing. -/
theorem write (h : Spares env freed m m') (h' : Spares env [] m' m'') : Spares env freed m m'' :=
  List.append_nil freed ▸ h.trans h'

theorem setChunk (hc : m.chunks b = some c) (hs : c.SameButLinks env b c') :
    Spares env [] m (m.setChunk b (some c')) where
  kept x cx _ hcx := by
    by_cases hx : x = b
    · subst hx
      obtain rfl := Option.some.inj (hc.symm.trans hcx)
      exact ⟨c', Function.update_self _ _ _, hs⟩
    · exact ⟨cx, (Function.update_of_ne hx _ _).trans hcx, .refl cx⟩
  gone _ hb := nomatch hb
  absent x hx := by
    have hxb : x ≠ b := fun e => by rw [e, hc] at hx; cases hx
    exact (Function.update_of_ne hxb _ _).trans hx
  bigallocsList := rfl
  pageindex := rfl

theorem records (h : Spares env freed m m') :
    m'.records = fun b => if b ∈ freed then none else m.records b := by
  funext b
  by_cases hb : b ∈ freed
  · simp [Memory.records, h.gone b hb, hb]
  · cases hc : m.chunks b with
    | none => simp [Memory.records, hc, h.absent b hc]
    | some c =>
      obtain ⟨c', hc', hs⟩ := h.kept b c hb hc
      simp [Memory.records, hc, hc', hb, hs.record]

end Spares

namespace Memory

theorem spares_setPreviousPointer (h : m.setPreviousPointer env b w = .ok m') :
    Spares env [] m m' := by
  obtain ⟨c, hc, h⟩ := Except.bind_eq_ok.mp h
  obtain rfl := Except.ok.inj h
  exact .setChunk (chunks_of_chunk hc) .setPrevious

theorem spares_setNextPointer (h : m.setNextPointer env b w = .ok m') : Spares env [] m m' := by
  obtain ⟨c, hc, h⟩ := Except.bind_eq_ok.mp h
  obtain rfl := Except.ok.inj h
  exact .setChunk (chunks_of_chunk hc) .setNext

theorem spares_setHead : Spares env [] m (m.setHead env w) :=
  { Spares.refl m with }

theorem spares_markBlock (h : m.markBlock env b = .ok m') : Spares env [] m m' := by
  obtain ⟨w, -, h⟩ := Except.bind_eq_ok.mp h
  exact spares_setPreviousPointer h

theorem spares_unmarkBlock (h : m.unmarkBlock env b = .ok m') : Spares env [] m m' := by
  obtain ⟨w, -, h⟩ := Except.bind_eq_ok.mp h
  exact spares_setPreviousPointer h

theorem spares_linkForward {previous : Nat} (h : m.linkForward env previous b = .ok m') :
    Spares env [] m m' := by
  unfold linkForward at h
  split at h
  · exact spares_setNextPointer h
  · exact Except.ok.inj h ▸ spares_setHead

theorem spares_linkBack {next : Nat} (h : m.linkBack env next b = .ok m') :
    Spares env [] m m' := by
  unfold linkBack at h
  split at h
  · exact spares_setPreviousPointer h
  · exact Except.ok.inj h ▸ .refl m

theorem spares_myfree (h : m.myfree b = .ok m') : Spares env [b] m m' := by
  obtain ⟨c, hc, h⟩ := Except.bind_eq_ok.mp h
  obtain rfl := Except.ok.inj h
  refine ⟨fun x cx hx hcx => ⟨cx, ?_, .refl cx⟩, fun x hx => ?_, fun x hx => ?_, rfl, rfl⟩
  · exact (Function.update_of_ne (List.ne_of_not_mem_cons hx) _ _).trans hcx
  · rw [List.mem_singleton.mp hx]
    exact Function.update_self _ _ _
  · by_cases hxb : x = b
    · exact hxb ▸ Function.update_self _ _ _
    · exact (Function.update_of_ne hxb _ _).trans hx

end Memory

/-! ## The two phases -/

theorem MarkStep.spares {q : Queue} {r : Memory × Queue} (h : MarkStep env m q r) :
    Spares env [] m r.1 := by
  cases h with
  | traced _ _ _ _ _ hmark _ => exact Memory.spares_markBlock hmark
  | passed => exact .refl m

theorem mark_spares {q q' : Queue} (h : markReachableHeapObjects env fuel m q = .ok (m', q')) :
    Spares env [] m m' :=
  (mark_invariant (P := fun r => Spares env [] m r.1)
    (fun _ _ hr hstep => hr.write hstep.spares) (.refl m) h).1

theorem ForwardStep.spares {v : Sweep} {next : Nat} (h : ForwardStep env v next m') :
    Spares env [] v.mem m' := by
  cases h with
  | head => exact Memory.spares_setHead
  | block _ hset => exact Memory.spares_setNextPointer hset

theorem BackStep.spares {previous next : Nat} (h : BackStep env previous next m m') :
    Spares env [] m m' := by
  cases h with
  | last => exact .refl m
  | unmarked _ _ hset => exact Memory.spares_setPreviousPointer hset
  | marked _ _ hset hmark =>
    exact (Memory.spares_setPreviousPointer hset).write (Memory.spares_markBlock hmark)

/-- A round of the sweep frees the block that it adds to its list, or none. -/
theorem SweepStep.spares {v v' : Sweep} (h : SweepStep env v v') :
    ∃ freed, v'.freed = v.freed ++ freed ∧ Spares env freed v.mem v'.mem := by
  cases h with
  | kept _ hunmark _ =>
    exact ⟨[], (List.append_nil _).symm, Memory.spares_unmarkBlock hunmark⟩
  | freed _ _ hforward hback hfree =>
    have S := hforward.spares.write hback.spares
    exact ⟨[v.current], rfl, S.trans (Memory.spares_myfree hfree)⟩

theorem sweep_spares (h : sweep env fuel m = .ok (m', freed)) : Spares env freed m m' := by
  obtain ⟨v, H, rfl, rfl⟩ := sweep_invariant (P := fun v => Spares env v.freed m v.mem)
    (fun v v' hs hstep => by
      obtain ⟨freed, hfreed, hs'⟩ := hstep.spares
      exact hfreed ▸ hs.trans hs') (.refl m) h
  exact H

/-- A collection that has returned is in the log with what it has freed, and has spared all else. -/
theorem gcCollect_spares {s s' : State} (h : gcCollect env fuel s = .ok s') :
    ∃ freed, s'.collections = s.collections ++ [⟨s.toMemory, freed⟩] ∧
      Spares env freed s.toMemory s'.toMemory := by
  obtain ⟨-, -, q, m₁, q', m', freed, -, hmark, hsweep, rfl⟩ := gcCollect_steps h
  have S := (mark_spares hmark).trans (sweep_spares hsweep)
  exact ⟨freed, rfl, S⟩

end PrecisionGc
