import PrecisionGc.Verify.Detach

/-!
# gc_realloc

The outcomes of `dlrealloc` and of `gc_realloc` (`dlrealloc_cases`, `gcRealloc_cases`), and what
they make of the list. A collection that `myrealloc` starts finds the argument at the end of the
list, so the call is harmless only under a condition on the neighbours of the argument
(`ReallocAnswer.Harmless`).
-/

namespace PrecisionGc
open ByteStore LinkedList AbstractHeap

variable {env : Env} {m m' : Memory} {s s' s₁ s₂ : State} {A B L : List Nat} {b n p : Nat}
  {c c' : Chunk} {fuel size ret : Nat} {answer : ReallocAnswer}

/-! ## dlrealloc -/

/-- `dlrealloc` starts a collection. -/
def ReallocAnswer.collects (answer : ReallocAnswer) (size : Nat) (s : State) : Bool :=
  decide (size < maxRequest) && answer.resize.isNone && answer.alloc.collects s

/-- What a resized chunk becomes. -/
def Resize.chunk (env : Env) (r : Resize) (p : Nat) (old : Chunk) : Chunk :=
  let new : Chunk := ⟨⟨r.usable, r.uniqtype⟩, r.fill⟩
  { new with
    bytes := keepPrefix (min (old.userLength env p) (new.userLength env p)) old.bytes r.fill }

/-- What a chunk moved to a grant becomes. -/
def Grant.moved (env : Env) (g : Grant) (p : Nat) (old : Chunk) : Chunk :=
  { g.chunk with
    bytes := keepPrefix (min (old.userLength env p) (g.chunk.userLength env g.addr)) old.bytes
      g.fill }

/-- The outcomes of `dlrealloc`; `s₁` is the state when it has collected, if it does. -/
inductive Reallocated (env : Env) (answer : ReallocAnswer) (p size : Nat) (s₁ : State) :
    Nat → State → Prop
  | failed (hf : size < maxRequest → answer.resize = none → answer.alloc.grant = none) :
      Reallocated env answer p size s₁ 0 s₁
  | resized {r old} (hr : answer.resize = some r) (hold : s₁.chunks p = some old)
      (hu : minUsable ≤ r.usable) (hd : env.describes p (r.chunk env p old) = true) :
      Reallocated env answer p size s₁ p
        { s₁ with toMemory := s₁.setChunk p (some (r.chunk env p old)) }
  | moved {g old} (hr : answer.resize = none) (hg : answer.alloc.grant = some g)
      (hlegal : g.legal env s₁.toMemory size = true)
      (hold : (g.apply s₁.toMemory).chunks p = some old) :
      Reallocated env answer p size s₁ g.addr
        { s₁ with
          toMemory := ((g.apply s₁.toMemory).setChunk g.addr (some (g.moved env p old))).setChunk p
            none }

theorem dlrealloc_cases (h : dlrealloc env fuel answer p size s = .ok (n, s')) :
    ∃ s₁, (if answer.collects size s then gcCollect env fuel s else pure s) = .ok s₁ ∧
      Reallocated env answer p size s₁ n s' := by
  unfold dlrealloc at h
  split at h
  next hmax =>
    obtain ⟨rfl, rfl⟩ := Prod.mk.inj (Except.ok.inj h)
    exact ⟨s, by simp [ReallocAnswer.collects, hmax], .failed fun hlt => absurd hmax hlt.not_ge⟩
  next hmax =>
    obtain ⟨old, hold, h⟩ := Except.bind_eq_ok.mp h
    have hold := Memory.chunks_of_chunk hold
    split at h
    next r hr =>
      dsimp only at h
      split at h
      next hok =>
        simp only [Bool.and_eq_true, decide_eq_true_eq] at hok
        obtain ⟨rfl, rfl⟩ := Prod.mk.inj (Except.ok.inj h)
        exact ⟨s, by simp [ReallocAnswer.collects, hr], .resized hr hold hok.1.2 hok.2⟩
      next => cases h
    next hr =>
      obtain ⟨⟨a, s₂⟩, ha, h⟩ := Except.bind_eq_ok.mp h
      obtain ⟨s₁, htrig, hcases⟩ := dlmalloc_cases ha
      refine ⟨s₁, ?_, ?_⟩
      · have hmax : size < maxRequest := not_le.mp hmax
        simpa [ReallocAnswer.collects, hmax, hr] using htrig
      rcases hcases with ⟨hg, rfl, rfl⟩ | ⟨g, hg, hlegal, rfl, rfl⟩
      · obtain ⟨rfl, rfl⟩ := Prod.mk.inj (Except.ok.inj h)
        exact .failed fun _ _ => hg
      · simp only [Grant.addr_ne_zero hlegal, if_false] at h
        obtain ⟨old', hold', h⟩ := Except.bind_eq_ok.mp h
        obtain ⟨new, hnew, h⟩ := Except.bind_eq_ok.mp h
        obtain ⟨m₂, hm₂, h⟩ := Except.bind_eq_ok.mp h
        obtain ⟨-, -, hm₂⟩ := Except.bind_eq_ok.mp hm₂
        obtain rfl := Except.ok.inj hm₂
        obtain rfl : g.chunk = new :=
          Option.some.inj (Grant.apply_chunks_self.symm.trans (Memory.chunks_of_chunk hnew))
        obtain ⟨rfl, rfl⟩ := Prod.mk.inj (Except.ok.inj h)
        exact .moved hr hg hlegal (Memory.chunks_of_chunk hold')

/-! ## gc_realloc -/

/-- The statements of `gc_realloc` behind `myrealloc`: `n` is what that returned. -/
def relink (env : Env) (p n previous next : Nat) (m : Memory) : Except Fault Memory :=
  if n = 0 then do
    let m ← m.setPreviousPointer env p previous
    m.setNextPointer env p next
  else do
    let m ← clearUserData env m n
    let m ← m.setPreviousPointer env n previous
    let m ← m.setNextPointer env n next
    if p = n then return m
    else
      let m ← m.linkForward env previous n
      let m ← m.linkBack env next n
      return newBigalloc m n

theorem relink_live {w w' : Nat} (hn : n ≠ 0) (h : relink env p n w w' m = .ok m') :
    ∃ c, m.chunks n = some c := by
  rw [relink, if_neg hn] at h
  obtain ⟨m₁, h₁, -⟩ := Except.bind_eq_ok.mp h
  obtain ⟨c, hc, -⟩ := Except.bind_eq_ok.mp h₁
  exact ⟨c, Memory.chunks_of_chunk hc⟩

/-- `gc_realloc` of a block zeroes its links, calls `dlrealloc` and writes the links that it has
remembered. -/
theorem gcRealloc_eq (hp : p ≠ 0) (hsize : size ≠ 0) : gcRealloc env fuel answer p size s = do
    let s ← semWait (s.called p)
    let previous ← s.previousPointer env p
    let next ← s.nextPointer env p
    let m ← s.setPreviousPointer env p 0
    let m ← m.setNextPointer env p 0
    let r ← dlrealloc env fuel answer p size { s with toMemory := m }
    let m ← relink env p r.1 previous next r.2.toMemory
    return (r.1, semPost { r.2 with toMemory := m }) := by
  rw [gcRealloc, if_neg hp, ← State.called]
  simp only [if_neg hsize]
  refine bind_congr fun s => bind_congr fun previous => bind_congr fun next =>
    bind_congr fun m₁ => bind_congr fun m₂ => bind_congr fun r => ?_
  obtain ⟨n, s₂⟩ := r
  dsimp only [relink]
  by_cases hn : n = 0
  · simp only [hn, if_true, bind_assoc]
  · by_cases hpn : p = n
    · simp only [hn, hpn, if_true, if_false, bind_assoc, Except.pure_def, Except.ok_bind]
    · simp only [hn, hpn, if_false, bind_assoc, Except.pure_def, Except.ok_bind]

/-- The steps of a call that returns. -/
theorem gcRealloc_steps (hp : p ≠ 0) (hsize : size ≠ 0)
    (h : gcRealloc env fuel answer p size s = .ok (ret, s')) :
    ∃ s₀ m₁ m₂ s₂ m', semWait (s.called p) = .ok s₀ ∧ s₀.setPreviousPointer env p 0 = .ok m₁ ∧
      m₁.setNextPointer env p 0 = .ok m₂ ∧
      dlrealloc env fuel answer p size { s₀ with toMemory := m₂ } = .ok (ret, s₂) ∧
      (∃ w w', relink env p ret w w' s₂.toMemory = .ok m') ∧
      s' = semPost { s₂ with toMemory := m' } := by
  rw [gcRealloc_eq hp hsize] at h
  obtain ⟨s₀, h₀, h⟩ := Except.bind_eq_ok.mp h
  obtain ⟨previous, -, h⟩ := Except.bind_eq_ok.mp h
  obtain ⟨next, -, h⟩ := Except.bind_eq_ok.mp h
  obtain ⟨m₁, h₁, h⟩ := Except.bind_eq_ok.mp h
  obtain ⟨m₂, h₂, h⟩ := Except.bind_eq_ok.mp h
  obtain ⟨⟨n, s₂⟩, hrealloc, h⟩ := Except.bind_eq_ok.mp h
  obtain ⟨m', hrelink, h⟩ := Except.bind_eq_ok.mp h
  obtain ⟨rfl, rfl⟩ := Prod.mk.inj (Except.ok.inj h)
  exact ⟨s₀, m₁, m₂, s₂, m', h₀, h₁, h₂, hrealloc, ⟨previous, next, hrelink⟩, rfl⟩

/-- The steps of a call with size 0 that returns. -/
theorem gcRealloc_zero_steps (hp : p ≠ 0)
    (h : gcRealloc env fuel answer p 0 s = .ok (ret, s')) :
    ∃ s₀ previous next m', semWait (s.called p) = .ok s₀ ∧
      s₀.previousPointer env p = .ok previous ∧ s₀.nextPointer env p = .ok next ∧
      unlinkAndFree env p previous next s₀.toMemory = .ok m' ∧ ret = 0 ∧
      s' = semPost { s₀ with toMemory := m' } := by
  rw [gcRealloc, if_neg hp, ← State.called] at h
  obtain ⟨s₀, h₀, h⟩ := Except.bind_eq_ok.mp h
  obtain ⟨previous, hprev, h⟩ := Except.bind_eq_ok.mp h
  obtain ⟨next, hnext, h⟩ := Except.bind_eq_ok.mp h
  rw [if_pos rfl] at h
  obtain ⟨m', hm', h⟩ := Except.bind_eq_ok.mp h
  obtain ⟨rfl, rfl⟩ := Prod.mk.inj (Except.ok.inj h)
  exact ⟨s₀, previous, next, m', h₀, hprev, hnext, hm', rfl, rfl⟩

/-- The block whose links are zero is one with the same data. -/
theorem gcRealloc_detaches (answer : ReallocAnswer) (henv : env.Sound) (hp : p ≠ 0)
    (hsize : size ≠ 0) (hmutex : s.allocatorMutex ≠ 0) (hc : s.chunks p = some c)
    (hu : minUsable ≤ c.usable) :
    ∃ c', c.SameData env p c' ∧ c'.previous env p = 0 ∧ c'.next env p = 0 ∧
      ∀ fuel, gcRealloc env fuel answer p size s = do
        let r ← dlrealloc env fuel answer p size (s.detached p c')
        let m ← relink env p r.1 (c.previous env p) (c.next env p) r.2.toMemory
        return (r.1, semPost { r.2 with toMemory := m }) := by
  have hc₀ : (s.called p).chunks p = some c := hc
  obtain ⟨m₁, c', h₁, h₂, -, hs, hprev, hnext⟩ :=
    setLinks_ok 0 0 henv hc₀ hu (by decide) (by decide)
  refine ⟨c', hs, hprev, hnext, fun fuel => ?_⟩
  have hwait : semWait (s.called p) =
      .ok { s.called p with allocatorMutex := s.allocatorMutex - 1 } := if_neg hmutex
  rw [gcRealloc_eq hp hsize, hwait, Except.ok_bind]
  simp only [Memory.previousPointer_eq hc₀, Memory.nextPointer_eq hc₀, Except.ok_bind, h₁, h₂]
  rfl

theorem gcRealloc_cases (henv : env.Sound) (hp : p ≠ 0) (hsize : size ≠ 0)
    (hc : s.chunks p = some c) (hu : minUsable ≤ c.usable)
    (h : gcRealloc env fuel answer p size s = .ok (ret, s')) :
    s.allocatorMutex ≠ 0 ∧ ∃ c' s₁ s₂ m', c.SameData env p c' ∧ c'.previous env p = 0 ∧
      c'.next env p = 0 ∧
      (if answer.collects size s then gcCollect env fuel (s.detached p c')
        else pure (s.detached p c')) = .ok s₁ ∧
      Reallocated env answer p size s₁ ret s₂ ∧
      relink env p ret (c.previous env p) (c.next env p) s₂.toMemory = .ok m' ∧
      s' = semPost { s₂ with toMemory := m' } := by
  have hmutex : s.allocatorMutex ≠ 0 := by
    obtain ⟨s₀, m₁, m₂, s₂, m', h₀, -⟩ := gcRealloc_steps hp hsize h
    exact (semWait_ok h₀).1
  obtain ⟨c', hs, hprev, hnext, heq⟩ := gcRealloc_detaches answer henv hp hsize hmutex hc hu
  rw [heq] at h
  obtain ⟨⟨n, s₂⟩, hrealloc, h⟩ := Except.bind_eq_ok.mp h
  obtain ⟨m', hrelink, h⟩ := Except.bind_eq_ok.mp h
  obtain ⟨rfl, rfl⟩ := Prod.mk.inj (Except.ok.inj h)
  obtain ⟨s₁, htrig, hcases⟩ := dlrealloc_cases hrealloc
  exact ⟨hmutex, c', s₁, s₂, m', hs, hprev, hnext, htrig, hcases, hrelink, rfl⟩

/-! ## Harmless calls -/

/-- If the call of `gc_realloc` starts a collection, then the predecessor of the argument survives
it, and nothing behind the argument is marked by it; the first block behind the argument may be
marked if the block moves, because then its back link is written again. -/
def ReallocAnswer.Harmless (answer : ReallocAnswer) (env : Env) (s : State) (p size : Nat) : Prop :=
  size ≠ 0 → answer.collects size s = true → ∀ A B, HeapList env s.toMemory (A ++ p :: B) →
    (∀ a, A.getLast? = some a → Reachable env (s.called p).toMemory a) ∧
    ∀ b ∈ B, (answer.alloc.grant.isSome = true → B.head? ≠ some b) →
      ¬Reachable env (s.called p).toMemory b

/-- What `myrealloc` does when it moves a block off the list. -/
theorem Reallocated.moved_ok {g : Grant} (old : Chunk)
    (hlegal : g.legal env m size = true) (hc : m.chunks p = some c) :
    Detached.Moved env m p g.addr
      (((g.apply m).setChunk g.addr (some (g.moved env p old))).setChunk p none) := by
  obtain ⟨hplaus, halign, hnh, hfree, -, hu, hd, -⟩ := Grant.legal_iff.mp hlegal
  have hne : g.addr ≠ p := fun e => by rw [e, hc] at hfree; cases hfree
  have hother : ∀ b, b ≠ g.addr → b ≠ p →
      (((g.apply m).setChunk g.addr (some (g.moved env p old))).setChunk p none).chunks b =
        m.chunks b := fun b hb hbp => by
    rw [Memory.setChunk_of_ne hbp, Memory.setChunk_of_ne hb, Grant.apply_chunks_of_ne hb]
  refine ⟨⟨g.moved env p old, ?_, hu, hd⟩, hplaus, halign, hnh, hfree, Memory.setChunk_self, hother,
    fun b hbp hb => ?_, rfl⟩
  · rw [Memory.setChunk_of_ne hne, Memory.setChunk_self]
  · have hbg : b ≠ g.addr := fun e => by
      obtain ⟨cb, hcb, -⟩ := hb.chunk
      rw [e, hfree] at hcb
      cases hcb
    exact hb.carry (hother b hbg hbp) (Grant.block_apply hlegal hb).registered

/-- The state `s₁` in which `dlrealloc`, called for `p` from `s`, has collected if it does. -/
structure Opened (env : Env) (s : State) (A : List Nat) (p : Nat) (B : List Nat) (collects : Bool)
    (c c' : Chunk) (s₁ : State) : Prop where
  chunk : s.chunks p = some c
  same : c.SameData env p c'
  detached : Detached env (s.called p).toMemory A p B (Survives env (s.called p) collects)
    (Stale env (s.called p) collects) s₁.toMemory
  queue : s₁.queue.Represents []
  stackBase : s₁.stackBase ≠ 0
  stackPointer : s₁.stackPointer ≠ 0
  log : s₁.collections = s.collections ++ logged env (s.detached p c') (A ++ [p]) collects
  survives : Survives env (s.detached p c') collects = Survives env (s.called p) collects
  gcInitialised : s₁.gcInitialised = s.gcInitialised
  uncollected : collects = false → s₁ = s.detached p c'

theorem opened_of_trigger (henv : env.Sound) (R : Ready env s (A ++ p :: B))
    (hc : s.chunks p = some c) (hs : c.SameData env p c') (hprev : c'.previous env p = 0)
    (hnext : c'.next env p = 0)
    (htrig : (if answer.collects size s then gcCollect env fuel (s.detached p c')
      else pure (s.detached p c')) = .ok s₁) :
    Opened env s A p B (answer.collects size s) c c' s₁ := by
  obtain ⟨H, hq, hbase, hsp, hlog, hinit⟩ := detached_of_trigger henv R.list.called R.queue
    R.stackBase R.stackPointer hc hs hprev hnext htrig
  refine ⟨hc, hs, H, hq, hbase, hsp, hlog, ?_, hinit, fun hcol => ?_⟩
  · have hreach : Reachable env (s.detached p c').toMemory = Reachable env (s.called p).toMemory :=
      R.list.called.reachable_detach henv hc hs hprev hnext
    funext b
    rw [Survives, hreach]; rfl
  · rw [hcol] at htrig
    exact (Except.ok.inj htrig).symm

/-- The links of a block of the list lead to its neighbours. -/
theorem HeapList.links_eq (hL : HeapList env m (A ++ p :: B)) (hc : m.chunks p = some c) :
    c.previous env p = A.getLastD env.heapListHead ∧ c.next env p = B.headD 0 := by
  obtain ⟨hn, hp⟩ := hL.linked.links_of_append id
  rw [Memory.prevWord_eq hc] at hp
  rw [Memory.nextWord_eq hc] at hn
  exact ⟨hp, hn⟩

theorem gcRealloc_opened (henv : env.Sound) (R : Ready env s (A ++ p :: B)) (hsize : size ≠ 0)
    (h : gcRealloc env fuel answer p size s = .ok (ret, s')) :
    ∃ c c' s₁ s₂ m', Opened env s A p B (answer.collects size s) c c' s₁ ∧
      Reallocated env answer p size s₁ ret s₂ ∧
      relink env p ret (A.getLastD env.heapListHead) (B.headD 0) s₂.toMemory = .ok m' ∧
      s' = semPost { s₂ with toMemory := m' } := by
  have hblock := R.list.block p (by simp)
  obtain ⟨c, hc, hu, -⟩ := hblock.chunk
  obtain ⟨-, c', s₁, s₂, m', hs, hprev, hnext, htrig, hcases, hrelink, rfl⟩ :=
    gcRealloc_cases henv hblock.ne_zero hsize hc hu h
  obtain ⟨hp, hn⟩ := R.list.links_eq hc
  rw [hp, hn] at hrelink
  exact ⟨c, c', s₁, s₂, m', opened_of_trigger henv R hc hs hprev hnext htrig, hcases, hrelink, rfl⟩

/-- The links of the argument are written back when `myrealloc` has failed. -/
theorem relink_failed (henv : env.Sound) (hc : m.chunks p = some c) (hu : minUsable ≤ c.usable)
    {w w' : Nat} (hw : w < 2 ^ 64) (hw' : w' < 2 ^ 64) :
    ∃ c', relink env p 0 w w' m = .ok (m.setChunk p (some c')) ∧ c.SameData env p c' ∧
      c'.previous env p = w ∧ c'.next env p = w' := by
  obtain ⟨m₁, c', h₁, h₂, -, hs, hprev, hnext⟩ := setLinks_ok w w' henv hc hu hw hw'
  refine ⟨c', ?_, hs, hprev, hnext⟩
  rw [relink, if_pos rfl, h₁, Except.ok_bind, h₂]

/-- A resized chunk is cleared and gets the links that were remembered. -/
theorem relink_resized (henv : env.Sound) (hp : p ≠ 0) (hc : m.chunks p = some c)
    (hu : minUsable ≤ c.usable) {w w' : Nat} (hw : w < 2 ^ 64) (hw' : w' < 2 ^ 64) :
    ∃ c', relink env p p w w' m = .ok (m.setChunk p (some c')) ∧
      c'.toChunkRecord = c.toChunkRecord ∧ c'.previous env p = w ∧ c'.next env p = w' := by
  obtain ⟨m₁, m₂, c', h₁, h₂, h₃, -, hrec, hprev, hnext, -⟩ := place_ok henv hc hu hw hw'
  refine ⟨c', ?_, hrec, hprev, hnext⟩
  rw [relink, if_neg hp, h₁, Except.ok_bind, h₂, Except.ok_bind, h₃, Except.ok_bind, if_pos rfl]
  rfl

/-- What `relink` makes of the list: the block stays or the one that `myrealloc` returned takes its
place, provided that no mark is left behind it, but perhaps on the first neighbour of a block that
has moved. -/
theorem Reallocated.relinked {keep stale : Nat → Prop} (henv : env.Sound)
    (hL : HeapList env m (A ++ p :: B)) (hc : m.chunks p = some c)
    (H : Detached env m A p B keep stale s₁.toMemory) (hpred : ∀ a, A.getLast? = some a → keep a)
    (hstale : ∀ b ∈ B, (ret ≠ 0 → ret ≠ p → B.head? ≠ some b) → ¬stale b)
    (h : Reallocated env answer p size s₁ ret s₂) :
    ∃ m', relink env p ret (A.getLastD env.heapListHead) (B.headD 0) s₂.toMemory = .ok m' ∧
      HeapList env m' (kept keep A ++ (if ret = 0 then p else ret) :: B) ∧
      m'.stackBase = s₂.stackBase ∧ m'.stackPointer = s₂.stackPointer := by
  have hp0 : p ≠ 0 := (hL.block p (by simp)).ne_zero
  obtain ⟨c₁, hc₁, hs₁⟩ := H.data c hc
  have hu₁ : minUsable ≤ c₁.usable := hs₁.usable ▸ hL.sized p c hc
  cases h with
  | failed =>
    obtain ⟨c₂, hrelink, hs₂, hprev, hnext⟩ :=
      relink_failed henv hc₁ hu₁ hL.prev_lt hL.next_lt
    refine ⟨_, hrelink, ?_, rfl, rfl⟩
    exact H.restore hL hpred (fun b hb => hstale b hb fun h => absurd rfl h) hc₁ hs₂ hprev hnext
  | @resized r old hr hold hu hd =>
    -- the list with the old chunk in its place, which the resized one then takes
    obtain ⟨-, c₂, -, -, -, hs₂, hprev₂, hnext₂⟩ :=
      setLinks_ok _ _ henv hc₁ hu₁ hL.prev_lt hL.next_lt
    have hrestored := H.restore hL hpred
      (fun b hb => hstale b hb fun _ h => absurd rfl h) hc₁ hs₂ hprev₂ hnext₂
    obtain ⟨c₃, hrelink, hrec, hprev, hnext⟩ :=
      relink_resized (c := r.chunk env p old) henv hp0 Memory.setChunk_self hu hL.prev_lt hL.next_lt
    refine ⟨_, hrelink, ?_, rfl, rfl⟩
    have hlist := hrestored.resize (c := c₃) ((congrArg ChunkRecord.usable hrec).symm ▸ hu)
      (describes_congr hrec ▸ hd) (hprev.trans (getLastD_kept hpred).symm) hnext
    rw [if_neg hp0]
    simpa only [Memory.setChunk_setChunk] using hlist
  | @moved g old hr hg hlegal hold =>
    have M := Reallocated.moved_ok old hlegal hc₁
    have hne := Grant.addr_ne_zero hlegal
    have hpn : p ≠ g.addr := fun e => by
      have := M.fresh
      rw [← e, hc₁] at this
      cases this
    obtain ⟨m₃, m₄, m₅, m₆, m₇, h₃, h₄, h₅, h₆, h₇, hlist, hbase, hsp⟩ :=
      H.move_ok henv hL hpred (fun b hb hh => hstale b hb fun _ _ => hh) M
    refine ⟨newBigalloc m₇ g.addr, ?_, ?_, newBigalloc_stackBase.trans hbase,
      newBigalloc_stackPointer.trans hsp⟩
    · rw [relink, if_neg hne, h₃, Except.ok_bind, h₄, Except.ok_bind, h₅, Except.ok_bind,
        if_neg hpn, h₆, Except.ok_bind, h₇, Except.ok_bind]
      rfl
    · rw [if_neg hne]
      exact hlist

/-- In a harmless call no mark that `relink` does not overwrite is left behind the argument. -/
theorem ReallocAnswer.Harmless.not_stale (hharm : answer.Harmless env s p size) (hsize : size ≠ 0)
    (hL : HeapList env s.toMemory (A ++ p :: B)) (hlive : s₁.chunks p = some c)
    (h : Reallocated env answer p size s₁ ret s₂) (hb : b ∈ B)
    (hfirst : ret ≠ 0 → ret ≠ p → B.head? ≠ some b) :
    ¬Stale env (s.called p) (answer.collects size s) b := by
  rintro ⟨hcol, hr⟩
  refine (hharm hsize hcol A B hL).2 b hb (fun hg => ?_) hr
  simp only [ReallocAnswer.collects, Bool.and_eq_true, decide_eq_true_eq,
    Option.isNone_iff_eq_none] at hcol
  obtain ⟨⟨hmax, hres⟩, -⟩ := hcol
  cases h with
  | failed hf =>
    rw [hf hmax hres] at hg
    cases hg
  | resized hr =>
    rw [hres] at hr
    cases hr
  | @moved g old _ _ hlegal hold =>
    refine hfirst (Grant.addr_ne_zero hlegal) fun e => ?_
    have hfresh : s₁.chunks g.addr = none := (Grant.legal_iff.mp hlegal).2.2.2.1
    rw [e, hlive] at hfresh
    cases hfresh

/-- A call of `gc_realloc` that is harmless leaves a well-formed list: what the collection in its
middle has left of the predecessors, the block at its old or new address, and the successors. -/
theorem gcRealloc_ready (henv : env.Sound) (R : Ready env s (A ++ p :: B)) (hsize : size ≠ 0)
    (hharm : answer.Harmless env s p size)
    (h : gcRealloc env fuel answer p size s = .ok (ret, s')) :
    ∃ t, Ready env s' (kept (Survives env t (answer.collects size s)) A ++
        (if ret = 0 then p else ret) :: B) ∧
      Survives env t (answer.collects size s) p ∧
      s'.collections = s.collections ++ logged env t (A ++ [p]) (answer.collects size s) ∧
      s'.gcInitialised = s.gcInitialised := by
  obtain ⟨c, c', s₁, s₂, m', O, hcases, hrelink, rfl⟩ := gcRealloc_opened henv R hsize h
  obtain ⟨c₁, hc₁, -⟩ := O.detached.data c O.chunk
  obtain ⟨m, hm, hlist, hbase, hsp⟩ := hcases.relinked henv R.list.called O.chunk O.detached
    (fun a ha hcol => (hharm hsize hcol A B R.list).1 a ha)
    fun b hb hfirst => hharm.not_stale hsize R.list hc₁ hcases hb hfirst
  obtain rfl := Except.ok.inj (hm.symm.trans hrelink)
  refine ⟨s.detached p c', ?_, ?_, ?_⟩
  · rw [O.survives]
    refine ⟨hlist, ?_, ?_, ?_⟩
    · cases hcases <;> exact O.queue
    · exact hbase ▸ (by cases hcases <;> exact O.stackBase)
    · exact hsp ▸ (by cases hcases <;> exact O.stackPointer)
  · rw [O.survives]
    exact fun _ => reachable_called
  · cases hcases <;> exact ⟨O.log, O.gcInitialised⟩

/-- With size 0 the block is taken off the list. -/
theorem gcRealloc_zero (henv : env.Sound) (hL : HeapList env s.toMemory (A ++ p :: B))
    (h : gcRealloc env fuel answer p 0 s = .ok (ret, s')) :
    ret = 0 ∧ HeapList env s'.toMemory (A ++ B) ∧ s'.stackBase = s.stackBase ∧
      s'.stackPointer = s.stackPointer ∧ s'.queue = s.queue ∧ s'.collections = s.collections := by
  have hblock := hL.block p (by simp)
  obtain ⟨hnext, hprev⟩ := (hL.called (p := p)).linked.links_of_append id
  obtain ⟨m', hm', hlist, hbase, hsp⟩ := (hL.called (p := p)).unlinkAndFree_ok henv
  obtain ⟨s₀, previous, next, m, h₀, hw, hw', hm, rfl, rfl⟩ :=
    gcRealloc_zero_steps hblock.ne_zero h
  obtain ⟨-, rfl⟩ := semWait_ok h₀
  obtain rfl := Except.ok.inj ((Memory.previousPointer_ok hblock.live).symm.trans hw)
  obtain rfl := Except.ok.inj ((Memory.nextPointer_ok hblock.live).symm.trans hw')
  have hp : s.prevWord env p = A.getLastD env.heapListHead := hprev
  have hn : s.nextWord env p = B.headD 0 := hnext
  rw [hp, hn] at hm
  obtain rfl := Except.ok.inj (hm'.symm.trans hm)
  exact ⟨rfl, hlist, hbase, hsp, rfl, rfl⟩

end PrecisionGc
