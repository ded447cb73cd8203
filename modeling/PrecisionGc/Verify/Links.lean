import PrecisionGc.Verify.Trace

/-!
# The link words of a chunk

`prevWord` and `nextWord` are the values of `PREVIOUS_POINTER` and `NEXT_POINTER` as functions on
addresses. Each write of the collector changes these functions at one place
(`setPreviousPointer_ok`, `setNextPointer_ok`, `setHead_ok`, `myfree_ok`) and leaves the rest of the
memory alone, which `Frame` makes precise: chunks outside `touched` are as they were, the others
keep their record and their user data, and those in `freed` are gone.
-/

namespace PrecisionGc
open ByteStore

variable {env : Env} {m m' m'' : Memory} {b w : Nat} {c c' : Chunk}

/-! ## Chunks -/

namespace Chunk

theorem nextOffset_eq (henv : env.Sound) (b : Nat) (hu : minUsable ≤ c.usable) :
    c.nextOffset env b = c.userLength env b + pointerSize := by
  obtain ⟨h, -⟩ := henv.insert b c.usable hu
  simp only [nextOffset, userLength, pointerSize] at h ⊢
  omega

theorem previous_lt : c.previous env b < 2 ^ 64 := readLE_lt

theorem next_lt : c.next env b < 2 ^ 64 := readLE_lt

theorem previous_setPrevious (hw : w < 2 ^ 64) : (c.setPrevious env b w).previous env b = w :=
  readLE_writeLE hw

theorem next_setNext (hw : w < 2 ^ 64) : (c.setNext env b w).next env b = w := readLE_writeLE hw

theorem next_setPrevious (henv : env.Sound) (hu : minUsable ≤ c.usable) :
    (c.setPrevious env b w).next env b = c.next env b :=
  readLE_writeLE_of_disjoint <| .inr <| by
    rw [show (c.setPrevious env b w).nextOffset env b = c.nextOffset env b from rfl,
      nextOffset_eq henv b hu]

theorem previous_setNext (henv : env.Sound) (hu : minUsable ≤ c.usable) :
    (c.setNext env b w).previous env b = c.previous env b :=
  readLE_writeLE_of_disjoint <| .inl <| by
    rw [show (c.setNext env b w).userLength env b = c.userLength env b from rfl,
      nextOffset_eq henv b hu]

/-- The same record and the same user data. -/
structure SameData (env : Env) (b : Nat) (c c' : Chunk) : Prop where
  record : c'.toChunkRecord = c.toChunkRecord
  data : ∀ i < c.userLength env b, c'.bytes i = c.bytes i

theorem SameData.refl (c : Chunk) : SameData env b c c := ⟨rfl, fun _ _ => rfl⟩

theorem SameData.usable (h : SameData env b c c') : c'.usable = c.usable :=
  congrArg ChunkRecord.usable h.record

theorem SameData.userLength (h : SameData env b c c') :
    c'.userLength env b = c.userLength env b := by
  simp only [Chunk.userLength, h.usable]

theorem SameData.trans {c'' : Chunk} (h : SameData env b c c') (h' : SameData env b c' c'') :
    SameData env b c c'' :=
  ⟨h'.record.trans h.record, fun i hi =>
    (h'.data i (h.userLength ▸ hi)).trans (h.data i hi)⟩

theorem sameData_setPrevious : SameData env b c (c.setPrevious env b w) :=
  ⟨rfl, fun _ hi => writeLE_of_outside (.inl hi)⟩

theorem sameData_setNext (henv : env.Sound) (hu : minUsable ≤ c.usable) :
    SameData env b c (c.setNext env b w) :=
  ⟨rfl, fun i hi => writeLE_of_outside (.inl (by rw [nextOffset_eq henv b hu]; omega))⟩

end Chunk

/-! ## Frames -/

/-- What a part of the collector may change: the link words of the chunks in `touched` and the word
`heap_list_head`, and it frees the chunks in `freed`. -/
structure Frame (env : Env) (touched freed : Nat → Prop) (m m' : Memory) : Prop where
  others : ∀ b, ¬touched b → ¬freed b → m'.chunks b = m.chunks b
  kept : ∀ b c, ¬freed b → m.chunks b = some c → ∃ c', m'.chunks b = some c' ∧ c.SameData env b c'
  gone : ∀ b, freed b → m'.chunks b = none
  absent : ∀ b, m.chunks b = none → m'.chunks b = none
  segs : ∀ a, a < env.heapListHead ∨ env.heapListHead + pointerSize ≤ a → m'.segs a = m.segs a
  regs : m'.regs = m.regs
  stackPointer : m'.stackPointer = m.stackPointer
  stackBase : m'.stackBase = m.stackBase
  bigallocsList : m'.bigallocsList = m.bigallocsList
  pageindex : m'.pageindex = m.pageindex

namespace Frame

variable {touched touched' freed freed' : Nat → Prop}

theorem refl (m : Memory) : Frame env touched (fun _ => False) m m where
  others _ _ _ := rfl
  kept _ c _ h := ⟨c, h, .refl c⟩
  gone _ h := h.elim
  absent _ h := h
  segs _ _ := rfl
  regs := rfl
  stackPointer := rfl
  stackBase := rfl
  bigallocsList := rfl
  pageindex := rfl

/-- Only the chunks have changed. -/
theorem of_chunks {f : Nat → Option Chunk}
    (others : ∀ b, ¬touched b → ¬freed b → f b = m.chunks b)
    (kept : ∀ b c, ¬freed b → m.chunks b = some c → ∃ c', f b = some c' ∧ c.SameData env b c')
    (gone : ∀ b, freed b → f b = none) (absent : ∀ b, m.chunks b = none → f b = none) :
    Frame env touched freed m { m with chunks := f } :=
  ⟨others, kept, gone, absent, fun _ _ => rfl, rfl, rfl, rfl, rfl, rfl⟩

theorem mono (h : Frame env touched freed m m') (ht : ∀ b, touched b → touched' b) :
    Frame env touched' freed m m' :=
  { h with others := fun b hb => h.others b fun hb' => hb (ht b hb') }

theorem congr (h : Frame env touched freed m m') (hf : ∀ b, freed b ↔ freed' b) :
    Frame env touched freed' m m' := by
  obtain rfl : freed = freed' := funext fun b => propext (hf b)
  exact h

theorem trans (h : Frame env touched freed m m') (h' : Frame env touched freed' m' m'') :
    Frame env touched (fun b => freed b ∨ freed' b) m m'' where
  others b ht hf := by
    rw [h'.others b ht fun hb => hf (.inr hb), h.others b ht fun hb => hf (.inl hb)]
  kept b c hf hc := by
    obtain ⟨c', hc', hs⟩ := h.kept b c (fun hb => hf (.inl hb)) hc
    obtain ⟨c'', hc'', hs'⟩ := h'.kept b c' (fun hb => hf (.inr hb)) hc'
    exact ⟨c'', hc'', hs.trans hs'⟩
  gone b hf := hf.elim (fun hb => h'.absent b (h.gone b hb)) (h'.gone b)
  absent b hb := h'.absent b (h.absent b hb)
  segs a ha := (h'.segs a ha).trans (h.segs a ha)
  regs := h'.regs.trans h.regs
  stackPointer := h'.stackPointer.trans h.stackPointer
  stackBase := h'.stackBase.trans h.stackBase
  bigallocsList := h'.bigallocsList.trans h.bigallocsList
  pageindex := h'.pageindex.trans h.pageindex

/-- Nothing is freed on either side. -/
theorem trans_none (h : Frame env touched (fun _ => False) m m')
    (h' : Frame env touched freed m' m'') : Frame env touched freed m m'' :=
  (h.trans h').congr fun b => by simp

/-- A chunk that is there afterwards was there before. -/
theorem of_some (h : Frame env touched freed m m') (hc : m'.chunks b = some c') :
    ∃ c, m.chunks b = some c ∧ ¬freed b ∧ c.SameData env b c' := by
  have hf : ¬freed b := fun hf => by simp [h.gone b hf] at hc
  cases hc₀ : m.chunks b with
  | none => simp [h.absent b hc₀] at hc
  | some c =>
    obtain ⟨c'', hc'', hs⟩ := h.kept b c hf hc₀
    exact ⟨c, rfl, hf, Option.some.inj (hc''.symm.trans hc) ▸ hs⟩

theorem records (h : Frame env touched (fun _ => False) m m') : m'.records = m.records := by
  funext b
  cases hc : m.chunks b with
  | none => simp [Memory.records, hc, h.absent b hc]
  | some c =>
    obtain ⟨c', hc', hs⟩ := h.kept b c id hc
    simp [Memory.records, hc, hc', hs.record]

end Frame

/-! ## Memory -/

namespace Memory

/-- The value of `PREVIOUS_POINTER`; 0 where there is no chunk. -/
def prevWord (env : Env) (m : Memory) (b : Nat) : Nat := (m.chunks b).elim 0 (·.previous env b)

/-- The value of `NEXT_POINTER`; 0 where there is no chunk. -/
def nextWord (env : Env) (m : Memory) (b : Nat) : Nat := (m.chunks b).elim 0 (·.next env b)

/-- A live chunk with room for the links. -/
def Live (m : Memory) (b : Nat) : Prop := ∃ c, m.chunks b = some c ∧ minUsable ≤ c.usable

theorem prevWord_eq (hc : m.chunks b = some c) : m.prevWord env b = c.previous env b := by
  simp [prevWord, hc]

theorem nextWord_eq (hc : m.chunks b = some c) : m.nextWord env b = c.next env b := by
  simp [nextWord, hc]

theorem prevWord_lt : m.prevWord env b < 2 ^ 64 := by
  cases hc : m.chunks b with
  | none => simp [prevWord, hc]
  | some c => rw [prevWord_eq hc]; exact Chunk.previous_lt

theorem nextWord_lt : m.nextWord env b < 2 ^ 64 := by
  cases hc : m.chunks b with
  | none => simp [nextWord, hc]
  | some c => rw [nextWord_eq hc]; exact Chunk.next_lt

theorem chunk_eq (hc : m.chunks b = some c) : m.chunk b = .ok c := by simp [chunk, hc]

theorem chunks_of_chunk (h : m.chunk b = .ok c) : m.chunks b = some c := by
  unfold chunk at h
  split at h
  · exact Except.ok.inj h ▸ by assumption
  · cases h

theorem previousPointer_eq (hc : m.chunks b = some c) :
    m.previousPointer env b = .ok (c.previous env b) := by
  simp [previousPointer, chunk_eq hc]

theorem nextPointer_eq (hc : m.chunks b = some c) : m.nextPointer env b = .ok (c.next env b) := by
  simp [nextPointer, chunk_eq hc]

theorem previousPointer_ok (h : m.Live b) :
    m.previousPointer env b = .ok (m.prevWord env b) := by
  obtain ⟨c, hc, -⟩ := h
  rw [previousPointer_eq hc, prevWord_eq hc]

theorem nextPointer_ok (h : m.Live b) : m.nextPointer env b = .ok (m.nextWord env b) := by
  obtain ⟨c, hc, -⟩ := h
  rw [nextPointer_eq hc, nextWord_eq hc]

theorem prevWord_setChunk (hc' : c'.previous env b = w) :
    (m.setChunk b (some c')).prevWord env = Function.update (m.prevWord env) b w := by
  funext x
  by_cases hx : x = b
  · subst hx; simp [prevWord, setChunk, hc']
  · simp [prevWord, setChunk, Function.update_of_ne hx]

theorem nextWord_setChunk (hc' : c'.next env b = w) :
    (m.setChunk b (some c')).nextWord env = Function.update (m.nextWord env) b w := by
  funext x
  by_cases hx : x = b
  · subst hx; simp [nextWord, setChunk, hc']
  · simp [nextWord, setChunk, Function.update_of_ne hx]

/-- A chunk is replaced by one with the same data. -/
theorem frame_setChunk (hc : m.chunks b = some c) (hs : c.SameData env b c') :
    Frame env (· = b) (fun _ => False) m (m.setChunk b (some c')) := by
  refine .of_chunks (fun x hx _ => Function.update_of_ne hx _ _) (fun x cx _ hcx => ?_)
    (fun _ h => h.elim) fun x hx => ?_
  · by_cases hxb : x = b
    · subst hxb
      obtain rfl : c = cx := Option.some.inj (hc.symm.trans hcx)
      exact ⟨c', Function.update_self _ _ _, hs⟩
    · exact ⟨cx, (Function.update_of_ne hxb _ _).trans hcx, .refl cx⟩
  · have hxb : x ≠ b := fun e => by simp [e, hc] at hx
    exact (Function.update_of_ne hxb _ _).trans hx

/-- How a part of the collector that succeeds has changed the links. -/
structure Relinked (env : Env) (m m' : Memory) (prev next : Nat → Nat) (head : Nat)
    (touched freed : Nat → Prop) : Prop where
  prev : m'.prevWord env = prev
  next : m'.nextWord env = next
  head : m'.head env = head
  frame : Frame env touched freed m m'

theorem setPreviousPointer_ok (henv : env.Sound) (h : m.Live b) (hw : w < 2 ^ 64) :
    ∃ m', m.setPreviousPointer env b w = .ok m' ∧
      Relinked env m m' (Function.update (m.prevWord env) b w) (m.nextWord env) (m.head env)
        (· = b) fun _ => False := by
  obtain ⟨c, hc, hu⟩ := h
  refine ⟨m.setChunk b (some (c.setPrevious env b w)), by simp [setPreviousPointer, chunk_eq hc],
    ?_, ?_, rfl, ?_⟩
  · exact prevWord_setChunk (Chunk.previous_setPrevious hw)
  · rw [nextWord_setChunk (Chunk.next_setPrevious henv hu), ← nextWord_eq hc,
      Function.update_eq_self]
  · exact frame_setChunk hc Chunk.sameData_setPrevious

theorem setNextPointer_ok (henv : env.Sound) (h : m.Live b) (hw : w < 2 ^ 64) :
    ∃ m', m.setNextPointer env b w = .ok m' ∧
      Relinked env m m' (m.prevWord env) (Function.update (m.nextWord env) b w) (m.head env)
        (· = b) fun _ => False := by
  obtain ⟨c, hc, hu⟩ := h
  refine ⟨m.setChunk b (some (c.setNext env b w)), by simp [setNextPointer, chunk_eq hc],
    ?_, ?_, rfl, ?_⟩
  · rw [prevWord_setChunk (Chunk.previous_setNext henv hu), ← prevWord_eq hc,
      Function.update_eq_self]
  · exact nextWord_setChunk (Chunk.next_setNext hw)
  · exact frame_setChunk hc (Chunk.sameData_setNext henv hu)

theorem setHead_ok (env : Env) (m : Memory) (hw : w < 2 ^ 64) :
    Relinked env m (m.setHead env w) (m.prevWord env) (m.nextWord env) w
      (fun _ => False) fun _ => False where
  prev := rfl
  next := rfl
  head := readLE_writeLE hw
  frame := { (Frame.refl m : Frame env (fun _ => False) _ m m) with
    segs := fun _ ha => writeLE_of_outside ha }

theorem myfree_ok (env : Env) (h : m.Live b) :
    ∃ m', m.myfree b = .ok m' ∧
      Relinked env m m' (Function.update (m.prevWord env) b 0)
        (Function.update (m.nextWord env) b 0) (m.head env) (fun _ => False) (· = b) := by
  obtain ⟨c, hc, -⟩ := h
  refine ⟨m.setChunk b none, by simp [myfree, chunk_eq hc], ?_, ?_, rfl, ?_⟩
  · funext x
    by_cases hx : x = b <;> simp [prevWord, setChunk, hx]
  · funext x
    by_cases hx : x = b <;> simp [nextWord, setChunk, hx]
  · refine .of_chunks (fun x _ hx => Function.update_of_ne hx _ _) (fun x cx hx hcx => ?_)
      (fun x hx => ?_) fun x hx => ?_
    · exact ⟨cx, (Function.update_of_ne hx _ _).trans hcx, .refl cx⟩
    · exact hx ▸ Function.update_self _ _ _
    · by_cases hxb : x = b
      · exact hxb ▸ Function.update_self _ _ _
      · exact (Function.update_of_ne hxb _ _).trans hx

/-! ## The mark bit -/

theorem marked_ok (h : m.Live b) : m.marked env b = .ok (decide (m.prevWord env b % 2 = 1)) := by
  rw [marked, previousPointer_ok h]
  rcases Nat.mod_two_eq_zero_or_one (m.prevWord env b) with h0 | h1
  · simp [Nat.and_one_is_mod, h0]
  · simp [Nat.and_one_is_mod, h1]

theorem markBlock_ok (henv : env.Sound) (h : m.Live b) :
    ∃ m', m.markBlock env b = .ok m' ∧
      Relinked env m m' (Function.update (m.prevWord env) b (m.prevWord env b ||| 1))
        (m.nextWord env) (m.head env) (· = b) fun _ => False := by
  obtain ⟨m', h', hr⟩ := setPreviousPointer_ok henv h (or_one_lt prevWord_lt)
  exact ⟨m', by rw [markBlock, previousPointer_ok h]; exact h', hr⟩

theorem unmarkBlock_ok (henv : env.Sound) (h : m.Live b) :
    ∃ m', m.unmarkBlock env b = .ok m' ∧
      Relinked env m m' (Function.update (m.prevWord env) b (clearLow (m.prevWord env b)))
        (m.nextWord env) (m.head env) (· = b) fun _ => False := by
  obtain ⟨m', h', hr⟩ := setPreviousPointer_ok henv h (clearLow_lt prevWord_lt)
  exact ⟨m', by rw [unmarkBlock, previousPointer_ok h]; exact h', hr⟩

theorem Live.frame {touched freed : Nat → Prop} (h : m.Live b) (hf : Frame env touched freed m m')
    (hb : ¬freed b) : m'.Live b := by
  obtain ⟨c, hc, hu⟩ := h
  obtain ⟨c', hc', hs⟩ := hf.kept b c hb hc
  exact ⟨c', hc', hs.usable ▸ hu⟩

end Memory
end PrecisionGc
