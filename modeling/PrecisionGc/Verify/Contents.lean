import PrecisionGc.Verify.RunResults

/-!
# What gc_realloc does to the contents

Whatever `myrealloc` has carried over, the `memset` behind it clears the user data of the block that
is returned (`relink_clears`). So the contents are preserved exactly if there was nothing to
preserve.
-/

namespace PrecisionGc
open ByteStore

variable {env : Env} {m m' : Memory} {s s' : State} {b n p w w' : Nat} {c c' : Chunk}
  {fuel size ret : Nat} {answer : ReallocAnswer}

/-- A chunk is there, with the same record and the same user data. -/
def Memory.Keeps (env : Env) (m m' : Memory) (n : Nat) : Prop :=
  ∀ c, m.chunks n = some c → minUsable ≤ c.usable →
    ∃ c', m'.chunks n = some c' ∧ c.SameData env n c'

namespace Memory

theorem Keeps.of_chunks (h : m'.chunks = m.chunks) : m.Keeps env m' n :=
  fun c hc _ => ⟨c, h ▸ hc, .refl c⟩

theorem Keeps.trans {m'' : Memory} (h : m.Keeps env m' n) (h' : m'.Keeps env m'' n) :
    m.Keeps env m'' n := fun c hc hu => by
  obtain ⟨c₁, hc₁, hs₁⟩ := h c hc hu
  obtain ⟨c₂, hc₂, hs₂⟩ := h' c₁ hc₁ (hs₁.usable ▸ hu)
  exact ⟨c₂, hc₂, hs₁.trans hs₂⟩

theorem Keeps.setChunk (hc : m.chunks b = some c)
    (hs : minUsable ≤ c.usable → c.SameData env b c') :
    m.Keeps env (m.setChunk b (some c')) n := fun c₀ hc₀ hu => by
  by_cases hn : n = b
  · subst hn
    obtain rfl : c = c₀ := Option.some.inj (hc.symm.trans hc₀)
    exact ⟨c', setChunk_self, hs hu⟩
  · exact ⟨c₀, (setChunk_of_ne hn).trans hc₀, .refl c₀⟩

theorem keeps_setPreviousPointer (h : m.setPreviousPointer env b w = .ok m') :
    m.Keeps env m' n := by
  obtain ⟨c, hc, h⟩ := Except.bind_eq_ok.mp h
  obtain rfl := Except.ok.inj h
  exact .setChunk (chunks_of_chunk hc) fun _ => Chunk.sameData_setPrevious

theorem keeps_setNextPointer (henv : env.Sound) (h : m.setNextPointer env b w = .ok m') :
    m.Keeps env m' n := by
  obtain ⟨c, hc, h⟩ := Except.bind_eq_ok.mp h
  obtain rfl := Except.ok.inj h
  exact .setChunk (chunks_of_chunk hc) (Chunk.sameData_setNext henv)

theorem keeps_linkForward (henv : env.Sound) (h : m.linkForward env w b = .ok m') :
    m.Keeps env m' n := by
  unfold linkForward at h
  split at h
  · exact keeps_setNextPointer henv h
  · exact .of_chunks (Except.ok.inj h ▸ rfl)

theorem keeps_linkBack (h : m.linkBack env w b = .ok m') : m.Keeps env m' n := by
  unfold linkBack at h
  split at h
  · exact keeps_setPreviousPointer h
  · exact .of_chunks (Except.ok.inj h ▸ rfl)

end Memory

/-- The user data of the block that `gc_realloc` returns is zero, whatever it was before. -/
theorem relink_clears (henv : env.Sound) (hn : n ≠ 0) (hc : m.chunks n = some c)
    (hu : minUsable ≤ c.usable) (h : relink env p n w w' m = .ok m') :
    ∃ c', m'.chunks n = some c' ∧ c'.toChunkRecord = c.toChunkRecord ∧
      ∀ i < c.userLength env n, c'.bytes i = 0 := by
  rw [relink, if_neg hn, clearUserData, Memory.chunk_eq hc] at h
  simp only [Except.ok_bind, Except.pure_def] at h
  obtain ⟨m₂, h₂, h⟩ := Except.bind_eq_ok.mp h
  obtain ⟨m₃, h₃, h⟩ := Except.bind_eq_ok.mp h
  have hclear : (m.setChunk n (some (c.clear env n))).chunks n = some (c.clear env n) :=
    Memory.setChunk_self
  have hkeeps : (m.setChunk n (some (c.clear env n))).Keeps env m' n := by
    refine (Memory.keeps_setPreviousPointer h₂).trans
      ((Memory.keeps_setNextPointer henv h₃).trans ?_)
    split at h
    · exact .of_chunks (Except.ok.inj h ▸ rfl)
    · obtain ⟨m₄, h₄, h⟩ := Except.bind_eq_ok.mp h
      obtain ⟨m₅, h₅, h⟩ := Except.bind_eq_ok.mp h
      obtain rfl := Except.ok.inj h
      exact (Memory.keeps_linkForward henv h₄).trans
        ((Memory.keeps_linkBack h₅).trans (.of_chunks newBigalloc_chunks))
  obtain ⟨c', hc', hs⟩ := hkeeps _ hclear hu
  refine ⟨c', hc', hs.record, fun i hi => ?_⟩
  rw [hs.data i hi]
  exact fill_of_inside ⟨Nat.zero_le i, by omega⟩

/-- The length of the user data in the chunk that `myrealloc` answers with. -/
def ReallocAnswer.userLength (env : Env) (answer : ReallocAnswer) (p : Nat) : Nat :=
  match answer.resize with
  | some r => Chunk.userLength env p ⟨⟨r.usable, r.uniqtype⟩, r.fill⟩
  | none => answer.alloc.grant.elim 0 fun g => g.chunk.userLength env g.addr

/-- The contents `c` of a block at `p` are preserved in the block at `n`, with zeros behind. -/
structure Preserved (env : Env) (p : Nat) (c : Chunk) (n : Nat) (c' : Chunk) : Prop where
  same : ∀ i < min (c.userLength env p) (c'.userLength env n), c'.bytes i = c.bytes i
  zero : ∀ i, c.userLength env p ≤ i → i < c'.userLength env n → c'.bytes i = 0

/-- The chunk that `dlrealloc` returns has the size of its answer. -/
theorem Reallocated.returned {s₁ s₂ : State} (hret : ret ≠ 0)
    (h : Reallocated env answer p size s₁ ret s₂) (hlive : ∃ c, s₂.chunks ret = some c) :
    ∃ c, s₂.chunks ret = some c ∧ minUsable ≤ c.usable ∧
      c.userLength env ret = answer.userLength env p := by
  cases h with
  | failed => exact absurd rfl hret
  | @resized r old hr _ hu hd =>
    refine ⟨r.chunk env p old, Memory.setChunk_self, hu, ?_⟩
    rw [ReallocAnswer.userLength, hr]
    rfl
  | @moved g old hr hg hlegal =>
    obtain ⟨-, -, -, -, -, hu, -⟩ := Grant.legal_iff.mp hlegal
    obtain ⟨c, hc⟩ := hlive
    have hne : g.addr ≠ p := fun e => by
      rw [e, show (_ : Memory).chunks p = none from Memory.setChunk_self] at hc
      cases hc
    refine ⟨g.moved env p old, ?_, hu, ?_⟩
    · exact (Memory.setChunk_of_ne hne).trans Memory.setChunk_self
    · rw [ReallocAnswer.userLength, hr, hg]
      rfl

/-- `gc_realloc` of a block returns one whose user data is zero. -/
theorem gcRealloc_clears (henv : env.Sound) (hp : GcBlock env s.toMemory p) (hsize : size ≠ 0)
    (h : gcRealloc env fuel answer p size s = .ok (ret, s')) (hret : ret ≠ 0) :
    ∃ c', s'.chunks ret = some c' ∧ c'.userLength env ret = answer.userLength env p ∧
      ∀ i < c'.userLength env ret, c'.bytes i = 0 := by
  obtain ⟨c, hc, hu, -⟩ := hp.chunk
  obtain ⟨-, c₀, s₁, s₂, m', -, -, -, -, hcases, hrelink, rfl⟩ :=
    gcRealloc_cases henv hp.ne_zero hsize hc hu h
  obtain ⟨c₂, hc₂, hu₂, hlen⟩ := hcases.returned hret (relink_live hret hrelink)
  obtain ⟨c', hc', hrec, hzero⟩ := relink_clears henv hret hc₂ hu₂ hrelink
  have hlen' : c'.userLength env ret = c₂.userLength env ret := by
    simp only [Chunk.userLength, congrArg ChunkRecord.usable hrec]
  exact ⟨c', hc', hlen'.trans hlen, fun i hi => hzero i (hlen' ▸ hi)⟩

/-- The contents of a block are preserved by `gc_realloc` exactly if the part to be preserved is
zero. -/
theorem gcRealloc_preserved_iff (henv : env.Sound) (hp : GcBlock env s.toMemory p)
    (hsize : size ≠ 0) (h : gcRealloc env fuel answer p size s = .ok (ret, s')) (hret : ret ≠ 0) :
    ∃ c c', s.chunks p = some c ∧ s'.chunks ret = some c' ∧ (Preserved env p c ret c' ↔
      ∀ i < min (c.userLength env p) (answer.userLength env p), c.bytes i = 0) := by
  obtain ⟨c, hc, -⟩ := hp.chunk
  obtain ⟨c', hc', hlen, hzero⟩ := gcRealloc_clears henv hp hsize h hret
  refine ⟨c, c', hc, hc', fun hpres i hi => ?_, fun hold =>
    ⟨fun i hi => ?_, fun i _ hi => hzero i hi⟩⟩
  · rw [← hpres.same i (hlen ▸ hi)]
    exact hzero i (by omega)
  · rw [hzero i (by omega), hold i (hlen ▸ hi)]

/-- A block with a word of the program in it. -/
def filledRun : List Call := [.malloc 16 (served 0x400000), .storeField 0x400000 0 7]

/-- `myrealloc` extends the chunk where it is. -/
def growInPlace : ReallocAnswer :=
  ⟨some ⟨56, .composite (some 8) [(0, .pointer)], fun _ => 0⟩, ⟨false, none⟩⟩

theorem filledRun_block {x : Session} (h : startSession.run Env.flat 8 filledRun = .ok x)
    (hx : 0x400000 ∈ x.handed) : GcBlock Env.flat x.state.toMemory 0x400000 := by
  have hharm : HarmlessRun Env.flat 8 startSession filledRun :=
    ⟨trivial, fun _ _ => ⟨trivial, fun _ _ => trivial⟩⟩
  obtain ⟨L, T⟩ := hharm.tracked Env.flat_sound startSession_started h
  exact T.ready.list.block _ ((T.handed _).mp hx)

/-- The program's word, what the call returns, and the byte in its place afterwards. -/
theorem filledRun_realloc : ∃ x s' c c', startSession.run Env.flat 8 filledRun = .ok x ∧
    GcBlock Env.flat x.state.toMemory 0x400000 ∧
    gcRealloc Env.flat 8 growInPlace 0x400000 32 x.state = .ok (0x400000, s') ∧
    x.state.chunks 0x400000 = some c ∧ s'.chunks 0x400000 = some c' ∧
    c.userLength Env.flat 0x400000 = 16 ∧ c'.userLength Env.flat 0x400000 = 32 ∧
    c.bytes 0 = 7 ∧ c'.bytes 0 = 0 := by
  have hrun : (startSession.run Env.flat 8 filledRun >>= fun x =>
      (fun r : Nat × State => (decide (0x400000 ∈ x.handed), r.1,
        (x.state.chunks 0x400000).map fun c => (c.userLength Env.flat 0x400000, c.bytes 0),
        (r.2.chunks 0x400000).map fun c => (c.userLength Env.flat 0x400000, c.bytes 0))) <$>
      gcRealloc Env.flat 8 growInPlace 0x400000 32 x.state) =
      .ok (true, 0x400000, some (16, 7), some (32, 0)) := by decide +kernel
  obtain ⟨x, hx, hrun⟩ := Except.bind_eq_ok.mp hrun
  obtain ⟨⟨ret, s'⟩, h, heq⟩ := Except.map_eq_ok.mp hrun
  simp only [Prod.mk.injEq, decide_eq_true_eq, Option.map_eq_some_iff] at heq
  obtain ⟨hhanded, rfl, ⟨c, hc, hlen, hbyte⟩, ⟨c', hc', hlen', hbyte'⟩⟩ := heq
  exact ⟨x, s', c, c', hx, filledRun_block hx hhanded, h, hc, hc', hlen, hlen', hbyte, hbyte'⟩

theorem not_preserved_filledRun : ∃ x s' c c', startSession.run Env.flat 8 filledRun = .ok x ∧
    GcBlock Env.flat x.state.toMemory 0x400000 ∧
    gcRealloc Env.flat 8 growInPlace 0x400000 32 x.state = .ok (0x400000, s') ∧
    x.state.chunks 0x400000 = some c ∧ s'.chunks 0x400000 = some c' ∧
    ¬Preserved Env.flat 0x400000 c 0x400000 c' := by
  obtain ⟨x, s', c, c', hx, hblock, h, hc, hc', hlen, hlen', hbyte, hbyte'⟩ := filledRun_realloc
  refine ⟨x, s', c, c', hx, hblock, h, hc, hc', fun hpres => ?_⟩
  have hsame := hpres.same 0 (by rw [hlen, hlen']; decide)
  rw [hbyte, hbyte'] at hsame
  cases hsame

theorem gcRealloc_preserved_iff_filledRun :
    ∃ (x : Session) (s' : State) (c c' : Chunk),
      gcRealloc Env.flat 8 growInPlace 0x400000 32 x.state = .ok (0x400000, s') ∧
      x.state.chunks 0x400000 = some c ∧ s'.chunks 0x400000 = some c' ∧
      (Preserved Env.flat 0x400000 c 0x400000 c' ↔
        ∀ i < min (c.userLength Env.flat 0x400000) (growInPlace.userLength Env.flat 0x400000),
          c.bytes i = 0) := by
  obtain ⟨x, s', -, -, -, hblock, h, -⟩ := filledRun_realloc
  obtain ⟨c, c', hc, hc', hiff⟩ :=
    gcRealloc_preserved_iff Env.flat_sound hblock (by decide) h (by decide)
  exact ⟨x, s', c, c', h, hc, hc', hiff⟩

end PrecisionGc
