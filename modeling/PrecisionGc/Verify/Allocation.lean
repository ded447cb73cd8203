import PrecisionGc.Verify.Collection

/-!
# Allocation

What `dlmalloc` can do (`dlmalloc_cases`), and that a chunk it grants becomes a block once the
collector has cleared it, written its links and registered its page. From this follows what
`gc_malloc` does to the list: a new block is put in front of what the collection in the middle, if
there was one, has left.
-/

namespace PrecisionGc
open ByteStore LinkedList WhileLoop AbstractHeap

variable {env : Env} {m m' : Memory} {s s' : State} {L : List Nat} {b n w w' : Nat}
  {c c' : Chunk}

/-! ## Chunks that come and go -/

namespace Memory

theorem setChunk_self {o : Option Chunk} : (m.setChunk b o).chunks b = o :=
  Function.update_self _ _ _

theorem setChunk_of_ne {o : Option Chunk} (h : n ≠ b) : (m.setChunk b o).chunks n = m.chunks n :=
  Function.update_of_ne h _ _

@[simp] theorem setChunk_setChunk {o o' : Option Chunk} :
    (m.setChunk b o).setChunk b o' = m.setChunk b o' := by
  simp [setChunk]

theorem prevWord_congr (h : m'.chunks b = m.chunks b) : m'.prevWord env b = m.prevWord env b := by
  rw [prevWord, h]; rfl

theorem nextWord_congr (h : m'.chunks b = m.chunks b) : m'.nextWord env b = m.nextWord env b := by
  rw [nextWord, h]; rfl

end Memory

/-- A block stays one when its chunk and its registration stay. -/
theorem GcBlock.carry (h : GcBlock env m b) (hc : m'.chunks b = m.chunks b)
    (hreg : validBigalloc m' b = true) : GcBlock env m' b where
  chunk := by
    obtain ⟨c, hcb, hu, hd⟩ := h.chunk
    exact ⟨c, hc.trans hcb, hu, hd⟩
  inRange := h.inRange
  registered := hreg
  aligned := h.aligned
  notHead := h.notHead

/-- A list of blocks that is linked, outside which nothing has appeared, is well formed. -/
theorem HeapList.rebuild {L' : List Nat} (hL : HeapList env m L)
    (hlinked : Linked (m'.nextWord env) (m'.prevWord env) (fun _ => False) 0 env.heapListHead
      (m'.head env) L')
    (hblock : ∀ b ∈ L', GcBlock env m' b)
    (hother : ∀ b, b ∉ L' → m'.chunks b = none ∨ b ∉ L ∧ m'.chunks b = m.chunks b) :
    HeapList env m' L' where
  linked := hlinked
  block := hblock
  foreign b c hc hb := by
    rcases hother b hb with h | ⟨hbL, h⟩
    · rw [h] at hc; cases hc
    · rw [Memory.prevWord_congr h]
      exact hL.foreign b c (h ▸ hc) hbL
  sized b c hc := by
    by_cases hb : b ∈ L'
    · obtain ⟨c', hc', hu, -⟩ := (hblock b hb).chunk
      exact Option.some.inj (hc'.symm.trans hc) ▸ hu
    · rcases hother b hb with h | ⟨-, h⟩
      · rw [h] at hc; cases hc
      · exact hL.sized b c (h ▸ hc)

/-- The list does not depend on the roots. -/
theorem HeapList.congr (hL : HeapList env m L) (hc : m'.chunks = m.chunks)
    (hh : m'.head env = m.head env) (hv : ∀ b, validBigalloc m' b = validBigalloc m b) :
    HeapList env m' L := by
  have hprev : m'.prevWord env = m.prevWord env :=
    funext fun b => Memory.prevWord_congr (congrFun hc b)
  have hnext : m'.nextWord env = m.nextWord env :=
    funext fun b => Memory.nextWord_congr (congrFun hc b)
  refine hL.rebuild ?_ (fun b hb => ?_) fun b hb => .inr ⟨hb, congrFun hc b⟩
  · rw [hprev, hnext, hh]
    exact hL.linked
  · exact (hL.block b hb).carry (congrFun hc b) (hv b ▸ (hL.block b hb).registered)

/-! ## Registration -/

@[simp] theorem newBigalloc_chunks : (newBigalloc m b).chunks = m.chunks := by
  unfold newBigalloc; split <;> rfl

@[simp] theorem newBigalloc_segs : (newBigalloc m b).segs = m.segs := by
  unfold newBigalloc; split <;> rfl

@[simp] theorem newBigalloc_stackBase : (newBigalloc m b).stackBase = m.stackBase := by
  unfold newBigalloc; split <;> rfl

@[simp] theorem newBigalloc_stackPointer : (newBigalloc m b).stackPointer = m.stackPointer := by
  unfold newBigalloc; split <;> rfl

theorem newBigalloc_self : validBigalloc (newBigalloc m b) b = true := by
  unfold newBigalloc
  split
  · assumption
  · simp [validBigalloc]

theorem newBigalloc_of_valid (h : validBigalloc m n = true) :
    validBigalloc (newBigalloc m b) n = true := by
  unfold newBigalloc
  split
  · exact h
  · simp only [validBigalloc, List.any_cons] at h ⊢
    simp [h]

theorem newBigalloc_prevWord : (newBigalloc m b).prevWord env = m.prevWord env :=
  funext fun a => Memory.prevWord_congr (congrFun newBigalloc_chunks a)

theorem newBigalloc_nextWord : (newBigalloc m b).nextWord env = m.nextWord env :=
  funext fun a => Memory.nextWord_congr (congrFun newBigalloc_chunks a)

theorem newBigalloc_head : (newBigalloc m b).head env = m.head env := by
  rw [Memory.head, Memory.seg, newBigalloc_segs]
  rfl

theorem GcBlock.newBigalloc (h : GcBlock env m n) : GcBlock env (newBigalloc m b) n :=
  h.carry (congrFun newBigalloc_chunks n) (newBigalloc_of_valid h.registered)

theorem validBigalloc_congr (hbig : m'.bigallocsList = m.bigallocsList)
    (hpage : m'.pageindex (pagenum b) = m.pageindex (pagenum b)) :
    validBigalloc m' b = validBigalloc m b := by
  simp only [validBigalloc, hbig, hpage]

/-! ## Grants -/

theorem describes_congr (h : c'.toChunkRecord = c.toChunkRecord) :
    env.describes b c' = env.describes b c := by
  simp only [Env.describes, h, Chunk.userLength]

namespace Grant

variable {g : Grant} {size : Nat}

theorem legal_iff : g.legal env m size = true ↔ isPlausiblePointer g.addr = true ∧
    g.addr % 16 = 0 ∧ g.addr ≠ env.heapListHead ∧ m.chunks g.addr = none ∧ size ≤ g.usable ∧
    minUsable ≤ g.usable ∧ env.describes g.addr g.chunk = true ∧ g.remapLegal m = true := by
  simp only [legal, Bool.and_eq_true, beq_iff_eq, bne_iff_ne, decide_eq_true_eq,
    Option.isNone_iff_eq_none, and_assoc]

theorem foldl_remap {page : Nat} (remap : List (Nat × Nat)) (f : Nat → Nat)
    (h : ∀ p ∈ remap, p.1 = page → p.2 = f page) :
    remap.foldl (fun f p => Function.update f p.1 p.2) f page = f page := by
  induction remap generalizing f with
  | nil => rfl
  | cons p remap ih =>
    have hf : Function.update f p.1 p.2 page = f page := by
      by_cases hp : p.1 = page
      · rw [hp, Function.update_self, h p List.mem_cons_self hp]
      · rw [Function.update_of_ne (Ne.symm hp)]
    rw [List.foldl_cons, ih _ fun p' hp' he => ?_, hf]
    rw [hf]
    exact h p' (.tail _ hp') he

/-- The page of a live chunk keeps its entry. -/
theorem pageindex_apply (h : g.remapLegal m = true) (hb : m.chunks b = some c) :
    (g.apply m).pageindex (pagenum b) = m.pageindex (pagenum b) := by
  refine foldl_remap g.remap m.pageindex fun p hp hpage => ?_
  have hlegal := List.all_eq_true.mp h p hp
  simp only [Bool.or_eq_true, beq_iff_eq, List.all_eq_true, List.mem_range] at hlegal
  rcases hlegal with h | h
  · rw [← hpage, h]
  · have hnone := h (b % 4096) (Nat.mod_lt _ (by decide))
    have hbp : 4096 * p.1 + b % 4096 = b := by
      rw [hpage, pagenum]; omega
    rw [hbp, hb] at hnone
    cases hnone

theorem apply_chunks_of_ne (h : b ≠ g.addr) : (g.apply m).chunks b = m.chunks b :=
  Memory.setChunk_of_ne h

theorem apply_chunks_self : (g.apply m).chunks g.addr = some g.chunk := Memory.setChunk_self

/-- A grant does not disturb a block. -/
theorem block_apply (hg : g.legal env m size = true) (h : GcBlock env m b) :
    GcBlock env (g.apply m) b := by
  obtain ⟨-, -, -, hfree, -, -, -, hremap⟩ := legal_iff.mp hg
  obtain ⟨c, hc, -⟩ := h.chunk
  have hne : b ≠ g.addr := fun e => by rw [e, hfree] at hc; cases hc
  refine h.carry (apply_chunks_of_ne hne) ?_
  have hvalid : validBigalloc (g.apply m) b = validBigalloc m b :=
    validBigalloc_congr rfl (pageindex_apply hremap hc)
  rw [hvalid]
  exact h.registered

end Grant
/-! ## The collection that an allocation may start -/

/-- A state between two calls, with the list `L`. -/
structure Ready (env : Env) (s : State) (L : List Nat) : Prop where
  list : HeapList env s.toMemory L
  queue : s.queue.Represents []
  stackBase : s.stackBase ≠ 0
  stackPointer : s.stackPointer ≠ 0

/-- `dlmalloc` starts a collection. -/
def AllocAnswer.collects (answer : AllocAnswer) (s : State) : Bool :=
  answer.overBudget && s.gcInitialised

/-- What survives an allocation from `s` that starts a collection if `collects` holds. -/
def Survives (env : Env) (s : State) (collects : Bool) (b : Nat) : Prop :=
  collects = true → Reachable env s.toMemory b

/-- The collections that such an allocation adds to the log. -/
noncomputable def logged (env : Env) (s : State) (F : List Nat) (collects : Bool) :
    List Collection :=
  if collects then [⟨s.toMemory, swept (Reachable env s.toMemory) F⟩] else []

/-- The state `s₁` after the collection, or the state as it was. -/
structure Triggered (env : Env) (s : State) (F D : List Nat) (loose : Nat → Prop)
    (collects : Bool) (s₁ : State) : Prop where
  frame : Frame env (· ∈ F ++ D) (· ∈ swept (Survives env s collects) F) s.toMemory s₁.toMemory
  linked : Linked (s₁.nextWord env) (s₁.prevWord env) loose 0 env.heapListHead (s₁.head env)
    (kept (Survives env s collects) F)
  offNext : ∀ b ∈ D, s₁.nextWord env b = s.nextWord env b
  offPrev : ∀ b ∈ D, (collects = true → ¬Reachable env s.toMemory b) →
    s₁.prevWord env b = s.prevWord env b
  offMarked : ∀ b ∈ D, collects = true → Reachable env s.toMemory b →
    s₁.prevWord env b = s.prevWord env b ||| 1
  queue : s₁.queue.Represents []
  log : s₁.collections = s.collections ++ logged env s F collects
  gcInitialised : s₁.gcInitialised = s.gcInitialised

theorem survives_true : Survives env s true = Reachable env s.toMemory := by
  funext b; simp [Survives]

theorem survives_false : Survives env s false = fun _ => True := by
  funext b; simp [Survives]

variable {F D : List Nat} {loose : Nat → Prop} {fuel size ret : Nat} {answer : AllocAnswer}

theorem trigger_ok (henv : env.Sound) (S : HeapShape env s.toMemory F D loose)
    (hq : s.queue.Represents []) (hbase : s.stackBase ≠ 0) (hsp : s.stackPointer ≠ 0)
    {collects : Bool} {s₁ : State}
    (h : (if collects then gcCollect env fuel s else pure s) = .ok s₁) :
    Triggered env s F D loose collects s₁ := by
  cases collects with
  | true =>
    obtain ⟨m', q, hrun, hC, hq'⟩ := collect_settles henv S hq hbase hsp
    obtain rfl := hrun.only fuel s₁ h
    refine ⟨?_, ?_, hC.offNext, fun b hb hr => hC.offUnmarked b hb (hr rfl),
      fun b hb _ => hC.offMarked b hb, hq', ?_, rfl⟩
    · rw [survives_true]; exact hC.frame
    · rw [survives_true]; exact hC.linked
    · simp [logged, State.collected]
  | false =>
    obtain rfl : s = s₁ := by simpa using h
    have hnone : swept (Survives env s false) F = [] := by simp [survives_false, swept]
    have hall : kept (Survives env s false) F = F := by simp [survives_false, kept]
    refine ⟨?_, ?_, fun _ _ => rfl, fun _ _ _ => rfl, fun _ _ h => absurd h Bool.false_ne_true, hq,
      by simp [logged], rfl⟩
    · rw [hnone]; exact (Frame.refl _).congr fun b => by simp
    · rw [hall]; exact S.linked

/-- What remains of a well-formed list is a well-formed list. -/
theorem Triggered.heapList {collects : Bool} {s₁ : State} (hL : HeapList env s.toMemory L)
    (T : Triggered env s L [] (fun _ => False) collects s₁) :
    HeapList env s₁.toMemory (kept (Survives env s collects) L) := by
  refine hL.rebuild T.linked (fun b hb => ?_) fun b hb => ?_
  · obtain ⟨hbL, hk⟩ := mem_kept.mp hb
    exact (hL.block b hbL).frame T.frame fun h => (mem_swept.mp h).2 hk
  · by_cases hbL : b ∈ L
    · exact .inl (T.frame.gone b (mem_swept.mpr ⟨hbL, fun hk => hb (mem_kept.mpr ⟨hbL, hk⟩)⟩))
    · refine .inr ⟨hbL, T.frame.others b (by simpa using hbL) fun h => hbL (mem_swept.mp h).1⟩

/-- As `Triggered.heapList`, where what a collection needs is needed only if there is one. -/
theorem heapList_of_ready (henv : env.Sound) (hL : HeapList env s.toMemory L) {collects : Bool}
    {s₁ : State} (hready : collects = true → Ready env s L)
    (h : (if collects then gcCollect env fuel s else pure s) = .ok s₁) :
    HeapList env s₁.toMemory (kept (Survives env s collects) L) := by
  cases collects with
  | true =>
    have R := hready rfl
    exact (trigger_ok henv (hL.shape henv) R.queue R.stackBase R.stackPointer h).heapList hL
  | false =>
    obtain rfl := Except.ok.inj h
    rw [survives_false, kept_eq_self fun _ _ => trivial]
    exact hL

/-- The outcomes of `dlmalloc`: the request is refused, or served with a legal chunk. -/
theorem dlmalloc_cases {a : Nat} (h : dlmalloc env fuel answer size s = .ok (a, s')) :
    ∃ s₁, (if answer.collects s then gcCollect env fuel s else pure s) = .ok s₁ ∧
      (answer.grant = none ∧ a = 0 ∧ s' = s₁ ∨
        ∃ g, answer.grant = some g ∧ g.legal env s₁.toMemory size = true ∧ a = g.addr ∧
          s' = { s₁ with toMemory := g.apply s₁.toMemory }) := by
  obtain ⟨s₁, h₁, h⟩ := Except.bind_eq_ok.mp h
  refine ⟨s₁, h₁, ?_⟩
  cases hg : answer.grant with
  | none =>
    rw [hg] at h
    obtain ⟨rfl, rfl⟩ := Prod.mk.inj (Except.ok.inj h)
    exact .inl ⟨rfl, rfl, rfl⟩
  | some g =>
    rw [hg] at h
    simp only at h
    split at h
    · obtain ⟨rfl, rfl⟩ := Prod.mk.inj (Except.ok.inj h)
      exact .inr ⟨g, rfl, by assumption, rfl, rfl⟩
    · cases h

/-! ## A new block -/

/-- Both links of a chunk are written. -/
theorem setLinks_ok (w w' : Nat) (henv : env.Sound) (hc : m.chunks n = some c)
    (hu : minUsable ≤ c.usable) (hw : w < 2 ^ 64) (hw' : w' < 2 ^ 64) :
    ∃ m₁ c', m.setPreviousPointer env n w = .ok m₁ ∧
      m₁.setNextPointer env n w' = .ok (m.setChunk n (some c')) ∧ m₁.segs = m.segs ∧
      c.SameData env n c' ∧ c'.previous env n = w ∧ c'.next env n = w' := by
  have hprev : c.SameData env n (c.setPrevious env n w) := Chunk.sameData_setPrevious
  refine ⟨m.setChunk n (some (c.setPrevious env n w)), (c.setPrevious env n w).setNext env n w',
    ?_, ?_, rfl, hprev.trans (Chunk.sameData_setNext henv hu), ?_, Chunk.next_setNext hw'⟩
  · simp [Memory.setPreviousPointer, Memory.chunk_eq hc]
  · rw [Memory.setNextPointer, Memory.chunk_eq Memory.setChunk_self]
    simp only [Except.ok_bind, Memory.setChunk_setChunk, Except.pure_def]
  · rw [Chunk.previous_setNext (c := c.setPrevious env n w) henv hu, Chunk.previous_setPrevious hw]

/-- A chunk is cleared and gets its links. -/
theorem place_ok (henv : env.Sound) (hc : m.chunks n = some c) (hu : minUsable ≤ c.usable)
    (hw : w < 2 ^ 64) (hw' : w' < 2 ^ 64) :
    ∃ m₁ m₂ c', clearUserData env m n = .ok m₁ ∧ m₁.setPreviousPointer env n w = .ok m₂ ∧
      m₂.setNextPointer env n w' = .ok (m.setChunk n (some c')) ∧
      m₂.segs = m.segs ∧ c'.toChunkRecord = c.toChunkRecord ∧ c'.previous env n = w ∧
      c'.next env n = w' ∧ ∀ i < c.userLength env n, c'.bytes i = 0 := by
  obtain ⟨m₂, c', h₂, h₃, hsegs, hs, hprev, hnext⟩ := setLinks_ok w w' henv
    (Memory.setChunk_self (m := m) (b := n) (o := some (c.clear env n))) hu hw hw'
  rw [Memory.setChunk_setChunk] at h₃
  refine ⟨m.setChunk n (some (c.clear env n)), m₂, c', ?_, h₂, h₃, hsegs, hs.record, hprev, hnext,
    fun i hi => ?_⟩
  · simp [clearUserData, Memory.chunk_eq hc]
  · rw [hs.data i hi]
    exact fill_of_inside ⟨Nat.zero_le i, by omega⟩

/-! ## gc_malloc -/

theorem widenRange_chunks : (widenRange env b m).chunks = m.chunks := by
  simp only [widenRange]; split <;> split <;> rfl

theorem widenRange_validBigalloc : validBigalloc (widenRange env b m) = validBigalloc m := by
  simp only [widenRange]; split <;> split <;> rfl

theorem widenRange_stack : (widenRange env b m).stackBase = m.stackBase ∧
    (widenRange env b m).stackPointer = m.stackPointer := by
  simp only [widenRange]; split <;> split <;> exact ⟨rfl, rfl⟩

/-- A word of the segments does not see a write elsewhere. -/
theorem seg_setSeg_of_apart {a a' : Nat} (h : apart a a' = true) :
    (m.setSeg a' w).seg a = m.seg a := by
  simp only [apart, Bool.or_eq_true, decide_eq_true_eq] at h
  exact readLE_writeLE_of_disjoint h

theorem head_setSeg {a : Nat} (h : apart env.heapListHead a = true) :
    (m.setSeg a w).head env = m.head env := seg_setSeg_of_apart h

theorem widenRange_head (henv : env.Sound) : (widenRange env b m).head env = m.head env := by
  have hapart := henv.staticsApart
  simp only [Env.statics, List.pairwise_cons, List.mem_cons, forall_eq_or_imp] at hapart
  simp only [widenRange]
  split <;> split <;> simp only [head_setSeg hapart.1.1, head_setSeg hapart.1.2.1]

theorem semWait_ok (h : semWait s = .ok s') :
    s.allocatorMutex ≠ 0 ∧ s' = { s with allocatorMutex := s.allocatorMutex - 1 } := by
  unfold semWait at h
  split at h
  · cases h
  · exact ⟨by assumption, (Except.ok.inj h).symm⟩

/-- The memory `m'` is `m` with a chunk at `n` that can become a block. -/
structure Granted (env : Env) (m : Memory) (n : Nat) (m' : Memory) : Prop where
  chunk : ∃ c, m'.chunks n = some c ∧ minUsable ≤ c.usable ∧ env.describes n c = true
  inRange : isPlausiblePointer n = true
  aligned : n % 16 = 0
  notHead : n ≠ env.heapListHead
  fresh : m.chunks n = none
  other : ∀ b, b ≠ n → m'.chunks b = m.chunks b
  block : ∀ b, GcBlock env m b → GcBlock env m' b
  head : m'.head env = m.head env

theorem granted_widenRange {g : Grant} (henv : env.Sound) (hg : g.legal env m size = true) :
    Granted env m g.addr (widenRange env g.addr (g.apply m)) := by
  obtain ⟨hplaus, halign, hnh, hfree, -, hu, hd, -⟩ := Grant.legal_iff.mp hg
  refine ⟨⟨g.chunk, ?_, hu, hd⟩, hplaus, halign, hnh, hfree, fun b hb => ?_, fun b hb => ?_, ?_⟩
  · rw [widenRange_chunks, Grant.apply_chunks_self]
  · rw [widenRange_chunks, Grant.apply_chunks_of_ne hb]
  · have hblock := Grant.block_apply hg hb
    refine hblock.carry (by rw [widenRange_chunks]) ?_
    rw [widenRange_validBigalloc]
    exact hblock.registered
  · rw [widenRange_head henv]
    rfl

theorem Granted.not_mem {K : List Nat} (G : Granted env m n m') (hK : HeapList env m K) :
    n ∉ K := fun h => by
  obtain ⟨c, hc, -⟩ := (hK.block n h).chunk
  rw [G.fresh] at hc
  cases hc

/-- A chunk that has been registered is a block. -/
theorem gcBlock_new {c c' : Chunk} (hself : m.chunks n = some c')
    (hrec : c'.toChunkRecord = c.toChunkRecord) (hu : minUsable ≤ c.usable)
    (hd : env.describes n c = true) (hrange : isPlausiblePointer n = true) (halign : n % 16 = 0)
    (hnh : n ≠ env.heapListHead) : GcBlock env (newBigalloc m n) n := by
  refine ⟨⟨c', (congrFun newBigalloc_chunks n).trans hself, ?_, ?_⟩, hrange, newBigalloc_self,
    halign, hnh⟩
  · rw [congrArg ChunkRecord.usable hrec]
    exact hu
  · rw [describes_congr hrec]
    exact hd

/-- What `gc_malloc` does with a chunk that it is granted: the chunk becomes the first block of the
list. -/
theorem Granted.push_ok {K : List Nat} (henv : env.Sound) (hK : HeapList env m K)
    (G : Granted env m n m') :
    ∃ m₁ m₂ m₃ m₄, clearUserData env m' n = .ok m₁ ∧
      m₁.setPreviousPointer env n env.heapListHead = .ok m₂ ∧
      m₂.setNextPointer env n (m₂.head env) = .ok m₃ ∧
      m₃.linkBack env (m₃.head env) n = .ok m₄ ∧
      HeapList env (newBigalloc (m₄.setHead env n) n) (n :: K) ∧
      m₄.stackBase = m'.stackBase ∧ m₄.stackPointer = m'.stackPointer := by
  obtain ⟨c, hc, hu, hd⟩ := G.chunk
  have hplaus := isPlausiblePointer_iff.mp G.inRange
  have hlt : n < 2 ^ 64 := by omega
  have hnK : n ∉ K := G.not_mem hK
  have hneK : ∀ b ∈ K, b ≠ n := fun b hb e => hnK (e ▸ hb)
  have hhead : m'.head env = K.headD 0 := by
    rw [G.head, hK.linked.seg.head_eq]
    cases K <;> rfl
  have hheadlt : m'.head env < 2 ^ 64 := readLE_lt
  -- the links of the new block
  obtain ⟨m₁, m₂, c', h₁, h₂, h₃, hsegs, hrec, hprev, hnext, -⟩ :=
    place_ok henv hc hu henv.headLt hheadlt
  have hhead₂ : m₂.head env = m'.head env := by rw [Memory.head, Memory.seg, hsegs]; rfl
  have hother₃ : ∀ b, b ≠ n → (m'.setChunk n (some c')).chunks b = m.chunks b := fun b hb => by
    rw [Memory.setChunk_of_ne hb, G.other b hb]
  have hblock₃ : ∀ b ∈ K, GcBlock env (m'.setChunk n (some c')) b := fun b hb =>
    (G.block b (hK.block b hb)).carry (Memory.setChunk_of_ne (hneK b hb))
      (G.block b (hK.block b hb)).registered
  -- the back link of the old first block
  obtain ⟨m₄, h₄, B⟩ := linkBack_ok (m := m'.setChunk n (some c')) (R := K) henv
    (fun b hb => ⟨(hblock₃ b hb).live, (hblock₃ b hb).ne_zero⟩) hlt
  have hself : m₄.chunks n = some c' := by
    rw [B.frame.others n hnK id, Memory.setChunk_self]
  refine ⟨m₁, m₂, _, m₄, h₁, h₂, by rw [hhead₂]; exact h₃, ?_, ?_, B.frame.stackBase,
    B.frame.stackPointer⟩
  · rw [show (m'.setChunk n (some c')).head env = m'.head env from rfl, hhead]
    exact h₄
  have hK' : Linked (m₄.nextWord env) (m₄.prevWord env) (fun _ => False) 0 env.heapListHead n
      (n :: K) := by
    refine hK.linked.push hnK (by omega) (fun b hb => ?_) ?_ (fun b hb => ?_) (fun b hb => ?_) ?_
    · rw [B.next, Memory.nextWord_congr (hother₃ b (hneK b hb))]
    · rw [Memory.nextWord_eq hself, hnext, G.head]
    · have hh : K.head? ≠ some b := fun h => by
        cases K with
        | nil => cases hb
        | cons y K => exact (List.nodup_cons.mp hK.linked.nodup).1 (Option.some.inj h ▸ hb)
      rw [B.prev b hh, Memory.prevWord_congr (hother₃ b (hneK b (List.mem_of_mem_tail hb)))]
    · exact B.first b hb
    · rw [Memory.prevWord_eq hself, hprev]
  have hhead₅ : (newBigalloc (m₄.setHead env n) n).head env = n :=
    newBigalloc_head.trans (Memory.setHead_ok env _ hlt).head
  refine hK.rebuild ?_ (fun b hb => ?_) fun b hb => ?_
  · rw [hhead₅, newBigalloc_nextWord, newBigalloc_prevWord]
    exact hK'
  · rcases List.mem_cons.mp hb with rfl | hbK
    · exact gcBlock_new hself hrec hu hd G.inRange G.aligned G.notHead
    · have hblock := (hblock₃ b hbK).frame B.frame id
      have hblock' : GcBlock env (m₄.setHead env n) b := hblock.carry rfl hblock.registered
      exact hblock'.newBigalloc
  · obtain ⟨hbn, hbK⟩ := not_or.mp fun h => hb (List.mem_cons.mpr h)
    refine .inr ⟨hbK, ?_⟩
    rw [newBigalloc_chunks, ← hother₃ b hbn]
    exact B.frame.others b hbK id

/-- The statements of `gc_malloc` behind `mymalloc`: `block` is what that returned. -/
def enlist (env : Env) (block : Nat) (m : Memory) : Except Fault Memory := do
  let m ← clearUserData env (widenRange env block m) block
  let m ← m.setPreviousPointer env block env.heapListHead
  let m ← m.setNextPointer env block (m.head env)
  let m ← m.linkBack env (m.head env) block
  return newBigalloc (m.setHead env block) block

theorem gcMalloc_eq : gcMalloc env fuel answer size s = do
    let s ← semWait s
    let r ← dlmalloc env fuel answer size s
    if r.1 = 0 then return (0, r.2)
    else
      let m ← enlist env r.1 r.2.toMemory
      return (r.1, semPost { r.2 with toMemory := m }) := by
  simp only [gcMalloc, enlist, bind_assoc, Except.pure_def, Except.ok_bind]

theorem Grant.addr_ne_zero {g : Grant} (hg : g.legal env m size = true) : g.addr ≠ 0 := by
  have := isPlausiblePointer_iff.mp (Grant.legal_iff.mp hg).1
  omega

theorem enlist_ok {K : List Nat} {g : Grant} (henv : env.Sound) (hK : HeapList env m K)
    (hg : g.legal env m size = true) :
    ∃ m', enlist env g.addr (g.apply m) = .ok m' ∧ HeapList env m' (g.addr :: K) ∧
      m'.stackBase = m.stackBase ∧ m'.stackPointer = m.stackPointer := by
  obtain ⟨m₁, m₂, m₃, m₄, h₁, h₂, h₃, h₄, hlist, hbase, hsp⟩ :=
    (granted_widenRange henv hg).push_ok henv hK
  refine ⟨newBigalloc (m₄.setHead env g.addr) g.addr, ?_, hlist, ?_, ?_⟩
  · simp only [enlist, h₁, h₂, h₃, h₄, Except.ok_bind, Except.pure_def]
  · exact newBigalloc_stackBase.trans (hbase.trans widenRange_stack.1)
  · exact newBigalloc_stackPointer.trans (hsp.trans widenRange_stack.2)

/-- What `gc_malloc` returns behind the collection, and in which state. -/
inductive Allocated (env : Env) (answer : AllocAnswer) (size : Nat) (s : State) :
    Nat → State → Prop
  | refused (hg : answer.grant = none) : Allocated env answer size s 0 s
  | served {g m} (hg : answer.grant = some g) (hlegal : g.legal env s.toMemory size = true)
      (henlist : enlist env g.addr (g.apply s.toMemory) = .ok m) :
      Allocated env answer size s g.addr (semPost { s with toMemory := m })

/-- The steps of a call that returns. -/
theorem gcMalloc_cases (h : gcMalloc env fuel answer size s = .ok (ret, s')) :
    ∃ s₀ s₁, semWait s = .ok s₀ ∧
      (if answer.collects s then gcCollect env fuel s₀ else pure s₀) = .ok s₁ ∧
      Allocated env answer size s₁ ret s' := by
  rw [gcMalloc_eq] at h
  obtain ⟨s₀, h₀, h⟩ := Except.bind_eq_ok.mp h
  obtain ⟨⟨a, s₂⟩, h₁, h⟩ := Except.bind_eq_ok.mp h
  obtain ⟨s₁, htrig, hcases⟩ := dlmalloc_cases h₁
  have hcol : answer.collects s₀ = answer.collects s := (semWait_ok h₀).2 ▸ rfl
  rw [hcol] at htrig
  refine ⟨s₀, s₁, h₀, htrig, ?_⟩
  rcases hcases with ⟨hg, rfl, rfl⟩ | ⟨g, hg, hlegal, rfl, rfl⟩
  · obtain ⟨rfl, rfl⟩ := Prod.mk.inj (Except.ok.inj h)
    exact .refused hg
  · rw [if_neg (Grant.addr_ne_zero hlegal)] at h
    obtain ⟨m, henlist, h⟩ := Except.bind_eq_ok.mp h
    obtain ⟨rfl, rfl⟩ := Prod.mk.inj (Except.ok.inj h)
    exact .served hg hlegal henlist

/-- `gc_malloc` leaves a well-formed list: what the collection in its middle has left, behind the
new block if there is one. -/
theorem gcMalloc_ready (henv : env.Sound) (R : Ready env s L)
    (h : gcMalloc env fuel answer size s = .ok (ret, s')) :
    Ready env s' (if ret = 0 then kept (Survives env s (answer.collects s)) L
        else ret :: kept (Survives env s (answer.collects s)) L) ∧
      s'.collections = s.collections ++ logged env s L (answer.collects s) ∧
      s'.gcInitialised = s.gcInitialised := by
  obtain ⟨s₀, s₁, h₀, htrig, hcases⟩ := gcMalloc_cases h
  obtain ⟨-, rfl⟩ := semWait_ok h₀
  have R₀ : Ready env { s with allocatorMutex := s.allocatorMutex - 1 } L := { R with }
  have T := trigger_ok henv (R₀.list.shape henv) R₀.queue R₀.stackBase R₀.stackPointer htrig
  have hK := T.heapList R₀.list
  have hstack : s₁.stackBase ≠ 0 ∧ s₁.stackPointer ≠ 0 :=
    ⟨T.frame.stackBase ▸ R.stackBase, T.frame.stackPointer ▸ R.stackPointer⟩
  cases hcases with
  | refused => exact ⟨⟨hK, T.queue, hstack.1, hstack.2⟩, T.log, T.gcInitialised⟩
  | @served g m _ hlegal henlist =>
    obtain ⟨m', hm', hlist, hbase, hsp⟩ := enlist_ok henv hK hlegal
    obtain rfl := Except.ok.inj (hm'.symm.trans henlist)
    rw [if_neg (Grant.addr_ne_zero hlegal)]
    exact ⟨⟨hlist, T.queue, hbase ▸ hstack.1, hsp ▸ hstack.2⟩, T.log, T.gcInitialised⟩

end PrecisionGc
