import PrecisionGc.Verify.Allocation

/-!
# gc_realloc with the block off the list

`gc_realloc` takes a block off its list by zeroing its links, asks for a new one, and puts that in
the place of the old one with the neighbours it remembers. In between the heap has the shape of
`HeapList.detach`: the list ends at the block, and what follows it is off the list. A collection in
this state does not sweep that part, so marks remain there, and it may free the neighbour that is
remembered.
-/

namespace PrecisionGc
open ByteStore LinkedList WhileLoop AbstractHeap Worklist

variable {env : Env} {m m' : Memory} {s s' : State} {A B L : List Nat} {b n p : Nat}
  {c c' : Chunk}

/-- The heap while the links of a block are zero. -/
theorem HeapList.detach (henv : env.Sound) (hL : HeapList env m (A ++ p :: B))
    (hc : m.chunks p = some c) (hs : c.SameData env p c') (hprev : c'.previous env p = 0)
    (hnext : c'.next env p = 0) :
    HeapShape env (m.setChunk p (some c')) (A ++ [p]) B (· = p) := by
  have hmem : ∀ b, b ∈ (A ++ [p]) ++ B ↔ b ∈ A ++ p :: B := fun b => by simp
  obtain ⟨-, hpB, hdisj⟩ := List.nodup_append.mp hL.linked.nodup
  have hpA : ∀ b ∈ A, b ≠ p := fun b hb e => hdisj b hb p (by simp) e
  have hframe := Memory.frame_setChunk hc hs
  have hp₀ : (m.setChunk p (some c')).prevWord env p = 0 := by
    rw [Memory.prevWord_eq Memory.setChunk_self, hprev]
  have hother : ∀ b, b ≠ p → (m.setChunk p (some c')).prevWord env b = m.prevWord env b :=
    fun b hb => Memory.prevWord_congr (Memory.setChunk_of_ne hb)
  constructor
  · refine hL.linked.cut ?_ (fun b hb => ?_) (fun b hb => hother b (hpA b hb))
      (fun _ _ h => h.elim) rfl
    · rw [Memory.nextWord_eq Memory.setChunk_self, hnext]
    · exact Memory.nextWord_congr (Memory.setChunk_of_ne (hpA b hb))
  · exact fun b hb => (hL.block b ((hmem b).mp hb)).frame hframe id
  · intro b hb
    by_cases hbp : b = p
    · rw [hbp, hp₀]
      exact ⟨rfl, by decide⟩
    · rw [hother b hbp]
      exact hL.unmarked henv b ((hmem b).mp hb)
  · intro b hb hbB
    rcases List.mem_append.mp hb with hb | hb
    · exact hdisj b hb b (.tail _ hbB) rfl
    · obtain rfl := List.mem_singleton.mp hb
      exact (List.nodup_cons.mp hpB).1 hbB
  · intro b c₁ hc₁ hb
    have hb : b ∉ A ++ p :: B := fun h => hb ((hmem b).mpr h)
    have hbp : b ≠ p := fun e => hb (by simp [e])
    rw [hother b hbp]
    exact hL.foreign b c₁ (Memory.setChunk_of_ne hbp ▸ hc₁) hb
  · intro b c₁ hc₁
    obtain ⟨c₀, hc₀, -, hs₀⟩ := hframe.of_some hc₁
    exact hs₀.usable ▸ hL.sized b c₀ hc₀

theorem HeapList.prev_lt (hL : HeapList env m (A ++ p :: B)) :
    A.getLastD env.heapListHead < 2 ^ 64 :=
  (hL.linked.links_of_append id).2 ▸ Memory.prevWord_lt

theorem HeapList.next_lt (hL : HeapList env m (A ++ p :: B)) : B.headD 0 < 2 ^ 64 :=
  (hL.linked.links_of_append id).1 ▸ Memory.nextWord_lt

/-- Zeroing the links of a block does not change what is reachable. -/
theorem HeapList.reachable_detach (henv : env.Sound) (hL : HeapList env m (A ++ p :: B))
    (hc : m.chunks p = some c) (hs : c.SameData env p c') (hprev : c'.previous env p = 0)
    (hnext : c'.next env p = 0) :
    Reachable env (m.setChunk p (some c')) = Reachable env m := by
  have hgc : ∀ b, GcChunk env m b ↔ b ∈ A ++ p :: B := fun b => by
    rw [(hL.shape henv).gcChunk_iff, List.append_nil]
  funext b
  refine propext (Reach.congr (fun x hx => ?_) fun x => ?_)
  · exact (hL.block x ((hgc x).mp hx)).children_frame (Memory.frame_setChunk hc hs) id
  · rw [hgc, (hL.detach henv hc hs hprev hnext).gcChunk_iff]
    simp

/-! ## While the block is off the list -/

/-- The memory `m₁` when `myrealloc` has tried to allocate: of `A` the blocks of `keep` are left,
and the list ends at `p`. What was behind `p` is as it was, but for the marks of the blocks in
`stale`. -/
structure Detached (env : Env) (m : Memory) (A : List Nat) (p : Nat) (B : List Nat)
    (keep stale : Nat → Prop) (m₁ : Memory) : Prop where
  linked : Linked (m₁.nextWord env) (m₁.prevWord env) (· = p) 0 env.heapListHead (m₁.head env)
    (kept keep A ++ [p])
  next : ∀ b ∈ B, m₁.nextWord env b = m.nextWord env b
  prev : ∀ b ∈ B, ¬stale b → m₁.prevWord env b = m.prevWord env b
  marked : ∀ b ∈ B, stale b → m₁.prevWord env b = m.prevWord env b ||| 1
  block : ∀ b ∈ kept keep A ++ p :: B, GcBlock env m₁ b
  gone : ∀ b ∈ A, ¬keep b → m₁.chunks b = none
  other : ∀ b, b ∉ A ++ p :: B → m₁.chunks b = m.chunks b
  data : ∀ c, m.chunks p = some c → ∃ c₁, m₁.chunks p = some c₁ ∧ c.SameData env p c₁

/-- The argument of a call is in a register. -/
def State.called (s : State) (ptr : Nat) : State :=
  { s with regs := Function.update s.regs .rdi ptr }

theorem HeapList.called (hL : HeapList env s.toMemory L) : HeapList env (s.called p).toMemory L :=
  hL.congr rfl rfl fun _ => rfl

/-- The argument of a call counts as a root. -/
theorem reachable_called {ptr : Nat} : Reachable env (s.called ptr).toMemory ptr := by
  refine .seed (List.mem_append_left _ (List.mem_append_left _ (List.mem_append_left _ ?_)))
  exact List.mem_map.mpr ⟨.rdi, by decide, by simp [State.called]⟩

/-- The state in which `gc_realloc` calls `myrealloc`: `c` is the block with zero links. -/
def State.detached (s : State) (ptr : Nat) (c : Chunk) : State :=
  { s.called ptr with
    toMemory := (s.called ptr).setChunk ptr (some c)
    allocatorMutex := s.allocatorMutex - 1 }

/-- Some of the blocks behind the argument are left with a mark by a nested collection. -/
def Stale (env : Env) (s : State) (collects : Bool) (b : Nat) : Prop :=
  collects = true ∧ Reachable env s.toMemory b

variable {fuel size ret : Nat} {collects : Bool} {s₁ : State}

/-- The blocks on the two sides of `p` are apart from it and from each other. -/
theorem HeapList.ne_of_mem (hL : HeapList env m (A ++ p :: B)) (keep : Nat → Prop) :
    (∀ b ∈ kept keep A, b ≠ p) ∧ (∀ b ∈ B, b ≠ p) ∧ ∀ b ∈ kept keep A, b ∉ B := by
  obtain ⟨-, hpB, hdisj⟩ := List.nodup_append.mp hL.linked.nodup
  refine ⟨fun b hb => ?_, fun b hb e => (List.nodup_cons.mp hpB).1 (e ▸ hb), fun b hb hb' => ?_⟩
  · exact fun e => hdisj b (mem_kept.mp hb).1 p List.mem_cons_self e
  · exact hdisj b (mem_kept.mp hb).1 b (.tail _ hb') rfl

/-- The two outcomes of the allocation inside `gc_realloc`, as far as collecting is concerned. -/
theorem detached_of_trigger (henv : env.Sound)
    (hL : HeapList env (s.called p).toMemory (A ++ p :: B))
    (hq : s.queue.Represents []) (hbase : s.stackBase ≠ 0) (hsp : s.stackPointer ≠ 0)
    (hc : s.chunks p = some c) (hs : c.SameData env p c') (hprev : c'.previous env p = 0)
    (hnext : c'.next env p = 0)
    (h : (if collects then gcCollect env fuel (s.detached p c') else pure (s.detached p c')) =
      .ok s₁) :
    Detached env (s.called p).toMemory A p B (Survives env (s.called p) collects)
        (Stale env (s.called p) collects) s₁.toMemory ∧
      s₁.queue.Represents [] ∧ s₁.stackBase ≠ 0 ∧ s₁.stackPointer ≠ 0 ∧
      s₁.collections = s.collections ++ logged env (s.detached p c') (A ++ [p]) collects ∧
      s₁.gcInitialised = s.gcInitialised := by
  have S : HeapShape env (s.detached p c').toMemory (A ++ [p]) B (· = p) :=
    hL.detach henv hc hs hprev hnext
  have T := trigger_ok henv S hq hbase hsp h
  have hreach : Reachable env (s.detached p c').toMemory = Reachable env (s.called p).toMemory :=
    hL.reachable_detach henv hc hs hprev hnext
  have hkeep : Survives env (s.detached p c') collects = Survives env (s.called p) collects := by
    funext b
    rw [Survives, hreach]; rfl
  have hframe : Frame env (· = p) (fun _ => False) (s.called p).toMemory
      ((s.called p).setChunk p (some c')) := Memory.frame_setChunk hc hs
  obtain ⟨hT, hlinked, hnextB, hprevB, hmarkB, hq', hlog, hinit⟩ := T
  rw [hkeep] at hT hlinked
  have hp : Survives env (s.called p) collects p := fun _ => reachable_called
  rw [kept_append, kept_singleton hp] at hlinked
  obtain ⟨hA, hpB, hdisj⟩ := List.nodup_append.mp hL.linked.nodup
  have hne : ∀ b ∈ B, b ≠ p := fun b hb e => (List.nodup_cons.mp hpB).1 (e ▸ hb)
  have hsame : ∀ b, b ≠ p → (s.detached p c').chunks b = (s.called p).chunks b :=
    fun b hb => Memory.setChunk_of_ne hb
  have hswept : ∀ b, b ∈ swept (Survives env (s.called p) collects) (A ++ [p]) →
      b ∈ A ∧ ¬Survives env (s.called p) collects b := fun b hb => by
    obtain ⟨hb, hk⟩ := mem_swept.mp hb
    refine ⟨(List.mem_append.mp hb).resolve_right fun h => hk ?_, hk⟩
    rw [List.mem_singleton.mp h]; exact hp
  have hkept : ∀ b ∈ kept (Survives env (s.called p) collects) A ++ p :: B,
      b ∈ A ++ p :: B ∧ b ∉ swept (Survives env (s.called p) collects) (A ++ [p]) := by
    intro b hb
    rcases List.mem_append.mp hb with hb | hb
    · obtain ⟨hbA, hk⟩ := mem_kept.mp hb
      exact ⟨List.mem_append_left _ hbA, fun h => (hswept b h).2 hk⟩
    · exact ⟨List.mem_append_right _ hb, fun h => hdisj b (hswept b h).1 b hb rfl⟩
  refine ⟨⟨hlinked, fun b hb => ?_, fun b hb hst => ?_, fun b hb hst => ?_, fun b hb => ?_,
    fun b hb hk => ?_, fun b hb => ?_, fun c₀ hc₀ => ?_⟩, hq', hT.stackBase ▸ hbase,
    hT.stackPointer ▸ hsp, hlog, hinit⟩
  · rw [hnextB b hb, Memory.nextWord_congr (hsame b (hne b hb))]
  · rw [hprevB b hb fun hcol hr => hst ⟨hcol, hreach ▸ hr⟩,
      Memory.prevWord_congr (hsame b (hne b hb))]
  · rw [hmarkB b hb hst.1 (hreach ▸ hst.2), Memory.prevWord_congr (hsame b (hne b hb))]
  · obtain ⟨hbL, hns⟩ := hkept b hb
    exact ((hL.block b hbL).frame hframe id).frame hT hns
  · exact hT.gone b (mem_swept.mpr ⟨List.mem_append_left _ hb, hk⟩)
  · have hbp : b ≠ p := fun e => hb (by simp [e])
    rw [hT.others b (by simpa using hb) fun h => hb (List.mem_append_left _ (hswept b h).1),
      hsame b hbp]
  · have hmono : Frame env (· ∈ A ++ [p] ++ B) _ _ _ := hframe.mono fun b hb => by simp [hb]
    exact (hmono.trans_none hT).kept p c₀
      (fun h => hdisj p (hswept p h).1 p List.mem_cons_self rfl) hc₀

/-- If no collection runs, the heap stays as it is with the block off its list. -/
theorem HeapList.detached (henv : env.Sound) (hL : HeapList env m (A ++ p :: B))
    (hc : m.chunks p = some c) (hs : c.SameData env p c') (hprev : c'.previous env p = 0)
    (hnext : c'.next env p = 0) :
    Detached env m A p B (fun _ => True) (fun _ => False) (m.setChunk p (some c')) := by
  have S := hL.detach henv hc hs hprev hnext
  have hall : kept (fun _ => True) A = A := kept_eq_self fun _ _ => trivial
  obtain ⟨-, hne, -⟩ := hL.ne_of_mem fun _ => True
  have hsame : ∀ b, b ≠ p → (m.setChunk p (some c')).chunks b = m.chunks b :=
    fun b hb => Memory.setChunk_of_ne hb
  refine ⟨hall.symm ▸ S.linked, fun b hb => ?_, fun b hb _ => ?_, fun _ _ h => h.elim,
    fun b hb => ?_, fun _ _ h => absurd trivial h, fun b hb => ?_, fun c₀ hc₀ => ?_⟩
  · exact Memory.nextWord_congr (hsame b (hne b hb))
  · exact Memory.prevWord_congr (hsame b (hne b hb))
  · rw [hall] at hb
    exact S.block b (by simpa using hb)
  · exact hsame b fun e => hb (by simp [e])
  · exact ⟨c', Memory.setChunk_self, Option.some.inj (hc.symm.trans hc₀) ▸ hs⟩

/-- As `detached_of_trigger`, where what a collection needs is needed only if there is one. -/
theorem detached_of_ready (henv : env.Sound) (hL : HeapList env s.toMemory (A ++ p :: B))
    (hready : collects = true → Ready env s (A ++ p :: B)) (hc : s.chunks p = some c)
    (hs : c.SameData env p c') (hprev : c'.previous env p = 0) (hnext : c'.next env p = 0)
    (h : (if collects then gcCollect env fuel (s.detached p c') else pure (s.detached p c')) =
      .ok s₁) :
    Detached env (s.called p).toMemory A p B (Survives env (s.called p) collects)
      (Stale env (s.called p) collects) s₁.toMemory := by
  cases collects with
  | true =>
    have R := hready rfl
    exact (detached_of_trigger henv hL.called R.queue R.stackBase R.stackPointer hc hs hprev hnext
      h).1
  | false =>
    obtain rfl := Except.ok.inj h
    have hstale : Stale env (s.called p) false = fun _ => False := by funext b; simp [Stale]
    rw [survives_false, hstale]
    exact hL.called.detached henv hc hs hprev hnext

namespace Detached

variable {keep stale : Nat → Prop} {m₁ : Memory}

/-- A memory in which the block `n` has taken the place of `p` between its old neighbours. -/
structure Filled (env : Env) (A : List Nat) (n : Nat) (B : List Nat) (m₁ m' : Memory) : Prop where
  next : m'.nextWord env n = B.headD 0
  prev : m'.prevWord env n = A.getLastD env.heapListHead
  head : m'.head env = if A = [] then n else m₁.head env
  lastBefore : ∀ b, A.getLast? = some b → m'.nextWord env b = n
  nextBefore : ∀ b ∈ A, A.getLast? ≠ some b → m'.nextWord env b = m₁.nextWord env b
  prevBefore : ∀ b ∈ A, m'.prevWord env b = m₁.prevWord env b
  nextBehind : ∀ b ∈ B, m'.nextWord env b = m₁.nextWord env b
  firstBehind : ∀ b, B.head? = some b → m'.prevWord env b = n
  prevBehind : ∀ b ∈ B, B.head? ≠ some b → m'.prevWord env b = m₁.prevWord env b

/-- If no mark has been left behind the new block, but perhaps on its first neighbour, whose back
link has been rewritten, the list is well formed again. -/
theorem heapList (hL : HeapList env m (A ++ p :: B)) (H : Detached env m A p B keep stale m₁)
    (hstale : ∀ b ∈ B, B.head? ≠ some b → ¬stale b)
    (hn : n ∉ kept keep A ∧ n ∉ B) (hfill : Filled env (kept keep A) n B m₁ m')
    (hblock : ∀ b ∈ kept keep A ++ n :: B, GcBlock env m' b)
    (hother : ∀ b, b ∉ kept keep A ++ n :: B →
      m'.chunks b = none ∨ b ∉ A ++ p :: B ∧ m'.chunks b = m.chunks b) :
    HeapList env m' (kept keep A ++ n :: B) := by
  obtain ⟨hA, hpB, hdisj⟩ := List.nodup_append.mp hL.linked.nodup
  obtain ⟨d, -, rfl, -, hseg⟩ := seg_append.mp hL.linked.seg
  have hnext := (hL.linked.links_of_append id).1
  have hback := (backed_append.mp hL.linked.backed).2.2
  have hnd : (kept keep A ++ n :: B).Nodup := by
    refine List.nodup_append.mpr ⟨hA.sublist kept_sublist,
      List.nodup_cons.mpr ⟨hn.2, (List.nodup_cons.mp hpB).2⟩, ?_⟩
    rintro b hb _ hb' rfl
    rcases List.mem_cons.mp hb' with rfl | hb'
    · exact hn.1 hb
    · exact hdisj b (mem_kept.mp hb).1 b (.tail _ hb') rfl
  have hlinked : Linked (m'.nextWord env) (m'.prevWord env) (fun _ => False) 0 env.heapListHead
      (if kept keep A = [] then n else m₁.head env) (kept keep A ++ n :: B) :=
    H.linked.fill hseg hback hnd
    (hblock n (by simp)).ne_zero (hfill.next.trans hnext.symm) hfill.prev hfill.lastBefore
    hfill.nextBefore hfill.prevBefore
    (fun b hb => (hfill.nextBehind b hb).trans (H.next b hb)) hfill.firstBehind
    fun b hb hh => (hfill.prevBehind b hb hh).trans (H.prev b hb (hstale b hb hh))
  refine hL.rebuild ?_ hblock hother
  rw [hfill.head]
  exact hlinked

theorem head_eq (H : Detached env m A p B keep stale m₁) :
    m₁.head env = if kept keep A = [] then p else m₁.head env := by
  split
  · have := H.linked.seg
    simp only [*, List.nil_append] at this
    exact this.1
  · rfl

theorem not_mem_of_fresh (H : Detached env m A p B keep stale m₁) (hn : m₁.chunks n = none) :
    n ∉ kept keep A ++ p :: B := fun h => by
  obtain ⟨c, hc, -⟩ := (H.block n h).chunk
  rw [hn] at hc
  cases hc

/-- A chunk that is not on the list any more is gone, or it never was. -/
theorem other_of_not_mem (H : Detached env m A p B keep stale m₁)
    (hb : b ∉ kept keep A) (hbp : b ≠ p) (hbB : b ∉ B) :
    m₁.chunks b = none ∨ b ∉ A ++ p :: B ∧ m₁.chunks b = m.chunks b := by
  by_cases hA : b ∈ A
  · exact .inl (H.gone b hA fun hk => hb (mem_kept.mpr ⟨hA, hk⟩))
  · have hnot : b ∉ A ++ p :: B := by simp [hA, hbp, hbB]
    exact .inr ⟨hnot, H.other b hnot⟩

/-- The links of the argument are restored. -/
theorem restore (hL : HeapList env m (A ++ p :: B))
    (H : Detached env m A p B keep stale m₁) (hpred : ∀ a, A.getLast? = some a → keep a)
    (hstale : ∀ b ∈ B, ¬stale b) (hc : m₁.chunks p = some c) (hs : c.SameData env p c')
    (hprev : c'.previous env p = A.getLastD env.heapListHead) (hnext : c'.next env p = B.headD 0) :
    HeapList env (m₁.setChunk p (some c')) (kept keep A ++ p :: B) := by
  obtain ⟨hA, hB, hAB⟩ := hL.ne_of_mem keep
  have hsame : ∀ b, b ≠ p → (m₁.setChunk p (some c')).chunks b = m₁.chunks b :=
    fun b hb => Memory.setChunk_of_ne hb
  have hback := (backed_append.mp hL.linked.backed).2.2
  refine H.heapList hL (fun b hb _ => hstale b hb) ⟨fun h => hA p h rfl, fun h => hB p h rfl⟩
    ⟨?_, ?_, H.head_eq, fun b hb => ?_, fun b hb _ => ?_, fun b hb => ?_, fun b hb => ?_,
      fun b hb => ?_, fun b hb _ => ?_⟩
    (fun b hb => (H.block b hb).frame (Memory.frame_setChunk hc hs) id) fun b hb => ?_
  · rw [Memory.nextWord_eq Memory.setChunk_self, hnext]
  · rw [Memory.prevWord_eq Memory.setChunk_self, hprev, getLastD_kept hpred]
  · rw [Memory.nextWord_congr (hsame b (hA b (List.mem_of_getLast? hb)))]
    exact H.linked.next_of_getLast? hb
  · exact Memory.nextWord_congr (hsame b (hA b hb))
  · exact Memory.prevWord_congr (hsame b (hA b hb))
  · exact Memory.nextWord_congr (hsame b (hB b hb))
  · have hbB := List.mem_of_head? hb
    rw [Memory.prevWord_congr (hsame b (hB b hbB)), H.prev b hbB (hstale b hbB)]
    cases B with
    | nil => cases hb
    | cons y B =>
      obtain rfl := Option.some.inj hb
      exact hback.1.resolve_left id
  · exact Memory.prevWord_congr (hsame b (hB b hb))
  · simp only [List.mem_append, List.mem_cons, not_or] at hb
    rw [hsame b hb.2.1]
    exact H.other_of_not_mem hb.1 hb.2.1 hb.2.2

/-- The memory when `myrealloc` has moved the block from `p` to the fresh address `n`. -/
structure Moved (env : Env) (m₁ : Memory) (p n : Nat) (m₂ : Memory) : Prop where
  chunk : ∃ c, m₂.chunks n = some c ∧ minUsable ≤ c.usable ∧ env.describes n c = true
  inRange : isPlausiblePointer n = true
  aligned : n % 16 = 0
  notHead : n ≠ env.heapListHead
  fresh : m₁.chunks n = none
  freed : m₂.chunks p = none
  other : ∀ b, b ≠ n → b ≠ p → m₂.chunks b = m₁.chunks b
  block : ∀ b, b ≠ p → GcBlock env m₁ b → GcBlock env m₂ b
  head : m₂.head env = m₁.head env

/-- Both neighbours have been redirected to the new block. -/
theorem Moved.filled {m₂ m₆ m₇ : Memory} (hL : HeapList env m (A ++ p :: B))
    (hpred : ∀ a, A.getLast? = some a → keep a) (M : Moved env m₁ p n m₂)
    (hnA : ∀ b ∈ kept keep A, b ≠ n) (hnB : ∀ b ∈ B, b ≠ n)
    (hD : Redirected env (m₂.setChunk n (some c')) m₆ (kept keep A) n)
    (hR : Rebased env m₆ m₇ B fun _ => n) (hself : m₇.chunks n = some c')
    (hprev : c'.previous env n = A.getLastD env.heapListHead) (hnext : c'.next env n = B.headD 0) :
    Filled env (kept keep A) n B m₁ (newBigalloc m₇ n) := by
  obtain ⟨hA, hB, hAB⟩ := hL.ne_of_mem keep
  have hsame : ∀ b, b ≠ n → b ≠ p → (m₂.setChunk n (some c')).chunks b = m₁.chunks b :=
    fun b hbn hbp => (Memory.setChunk_of_ne hbn).trans (M.other b hbn hbp)
  have hprevA : ∀ b ∈ kept keep A, m₇.prevWord env b = m₁.prevWord env b := fun b hb => by
    rw [hR.prev b fun h => hAB b hb (List.mem_of_head? h), hD.prev,
      Memory.prevWord_congr (hsame b (hnA b hb) (hA b hb))]
  have hnextB : ∀ b ∈ B, m₇.nextWord env b = m₁.nextWord env b := fun b hb => by
    rw [hR.next, hD.next b fun h => hAB b (List.mem_of_getLast? h) hb,
      Memory.nextWord_congr (hsame b (hnB b hb) (hB b hb))]
  have hhead : (m₂.setChunk n (some c')).head env = m₁.head env := M.head
  constructor
  case next => rw [newBigalloc_nextWord, Memory.nextWord_eq hself, hnext]
  case prev => rw [newBigalloc_prevWord, Memory.prevWord_eq hself, hprev, getLastD_kept hpred]
  case head => rw [newBigalloc_head, hR.head, hD.head, hhead]
  case lastBefore => exact fun b hb => by rw [newBigalloc_nextWord, hR.next, hD.last b hb]
  case nextBefore =>
    intro b hb hl
    rw [newBigalloc_nextWord, hR.next, hD.next b hl,
      Memory.nextWord_congr (hsame b (hnA b hb) (hA b hb))]
  case prevBefore => exact fun b hb => by rw [newBigalloc_prevWord, hprevA b hb]
  case nextBehind => exact fun b hb => by rw [newBigalloc_nextWord, hnextB b hb]
  case firstBehind => exact fun b hb => by rw [newBigalloc_prevWord, hR.first b hb]
  case prevBehind =>
    intro b hb hh
    rw [newBigalloc_prevWord, hR.prev b hh, hD.prev,
      Memory.prevWord_congr (hsame b (hnB b hb) (hB b hb))]

/-- The new block is linked to the old neighbours. -/
theorem move_ok {m₂ : Memory} (henv : env.Sound) (hL : HeapList env m (A ++ p :: B))
    (H : Detached env m A p B keep stale m₁) (hpred : ∀ a, A.getLast? = some a → keep a)
    (hstale : ∀ b ∈ B, B.head? ≠ some b → ¬stale b) (M : Moved env m₁ p n m₂) :
    ∃ m₃ m₄ m₅ m₆ m₇, clearUserData env m₂ n = .ok m₃ ∧
      m₃.setPreviousPointer env n (A.getLastD env.heapListHead) = .ok m₄ ∧
      m₄.setNextPointer env n (B.headD 0) = .ok m₅ ∧
      m₅.linkForward env (A.getLastD env.heapListHead) n = .ok m₆ ∧
      m₆.linkBack env (B.headD 0) n = .ok m₇ ∧
      HeapList env (newBigalloc m₇ n) (kept keep A ++ n :: B) ∧
      m₇.stackBase = m₂.stackBase ∧ m₇.stackPointer = m₂.stackPointer := by
  obtain ⟨hA, hB, hAB⟩ := hL.ne_of_mem keep
  have hplaus := isPlausiblePointer_iff.mp M.inRange
  have hlt : n < 2 ^ 64 := by omega
  have hfresh := H.not_mem_of_fresh M.fresh
  simp only [List.mem_append, List.mem_cons, not_or] at hfresh
  have hnA : ∀ b ∈ kept keep A, b ≠ n := fun b hb e => hfresh.1 (e ▸ hb)
  have hnB : ∀ b ∈ B, b ≠ n := fun b hb e => hfresh.2.2 (e ▸ hb)
  obtain ⟨c, hc, hu, hd⟩ := M.chunk
  obtain ⟨m₃, m₄, c', h₃, h₄, h₅, -, hrec, hprev, hnext, -⟩ :=
    place_ok henv hc hu hL.prev_lt hL.next_lt
  -- the memory with the new block in place; nothing leads to it yet
  have hsame : ∀ b, b ≠ n → b ≠ p → (m₂.setChunk n (some c')).chunks b = m₁.chunks b :=
    fun b hbn hbp => (Memory.setChunk_of_ne hbn).trans (M.other b hbn hbp)
  have hblock : ∀ b ∈ kept keep A ++ B, GcBlock env (m₂.setChunk n (some c')) b := fun b hb => by
    have hbp : b ≠ p := (List.mem_append.mp hb).elim (hA b) (hB b)
    have hbn : b ≠ n := (List.mem_append.mp hb).elim (hnA b) (hnB b)
    have hb₂ := M.block b hbp (H.block b ((List.mem_append.mp hb).elim
      (List.mem_append_left _) fun h => List.mem_append_right _ (.tail _ h)))
    exact hb₂.carry (Memory.setChunk_of_ne hbn) hb₂.registered
  obtain ⟨m₆, h₆, hD⟩ := linkForward_ok (m := m₂.setChunk n (some c')) (K := kept keep A) henv
    (fun b hb => ⟨(hblock b (List.mem_append_left _ hb)).live,
      (hblock b (List.mem_append_left _ hb)).notHead⟩) hlt
  rw [getLastD_kept hpred] at h₆
  have hblock₆ : ∀ b ∈ kept keep A ++ B, GcBlock env m₆ b := fun b hb =>
    (hblock b hb).frame hD.frame id
  obtain ⟨m₇, h₇, hR⟩ := linkBack_ok (m := m₆) (R := B) henv (fun b hb =>
    ⟨(hblock₆ b (List.mem_append_right _ hb)).live,
      (hblock₆ b (List.mem_append_right _ hb)).ne_zero⟩) hlt
  refine ⟨m₃, m₄, _, m₆, m₇, h₃, h₄, h₅, h₆, h₇, ?_, hR.frame.stackBase.trans hD.frame.stackBase,
    hR.frame.stackPointer.trans hD.frame.stackPointer⟩
  have hothers : ∀ b, b ∉ kept keep A → b ∉ B →
      m₇.chunks b = (m₂.setChunk n (some c')).chunks b := fun b hbA hbB => by
    rw [hR.frame.others b hbB id, hD.frame.others b hbA id]
  have hself : m₇.chunks n = some c' := by
    rw [hothers n hfresh.1 hfresh.2.2, Memory.setChunk_self]
  refine H.heapList hL hstale ⟨hfresh.1, hfresh.2.2⟩
    (M.filled hL hpred hnA hnB hD hR hself hprev hnext) (fun b hb => ?_) fun b hb => ?_
  · by_cases hbn : b = n
    · subst hbn
      exact gcBlock_new hself hrec hu hd M.inRange M.aligned M.notHead
    · have hb : b ∈ kept keep A ++ B := by simpa [hbn] using hb
      exact ((hblock₆ b hb).frame hR.frame id).newBigalloc
  · simp only [List.mem_append, List.mem_cons, not_or] at hb
    rw [newBigalloc_chunks, hothers b hb.1 hb.2.2]
    by_cases hbp : b = p
    · rw [Memory.setChunk_of_ne hb.2.1, hbp]
      exact .inl M.freed
    · rw [hsame b hb.2.1 hbp]
      exact H.other_of_not_mem hb.1 hbp hb.2.2

end Detached

/-! ## Without a collection -/

/-- A block that is resized where it is keeps its place. -/
theorem HeapList.resize (hL : HeapList env m (A ++ p :: B)) (hu : minUsable ≤ c.usable)
    (hd : env.describes p c = true) (hprev : c.previous env p = A.getLastD env.heapListHead)
    (hnext : c.next env p = B.headD 0) :
    HeapList env (m.setChunk p (some c)) (A ++ p :: B) := by
  have hsame : ∀ b, b ≠ p → (m.setChunk p (some c)).chunks b = m.chunks b :=
    fun b hb => Memory.setChunk_of_ne hb
  have hlinks := hL.linked.links_of_append id
  refine hL.rebuild (hL.linked.congr (fun b _ => ?_) (fun b _ => ?_) fun _ _ h => h)
    (fun b hb => ?_) fun b hb => ?_
  · by_cases hb : b = p
    · rw [hb, Memory.nextWord_eq Memory.setChunk_self, hnext, hlinks.1]
    · exact Memory.nextWord_congr (hsame b hb)
  · by_cases hb : b = p
    · rw [hb, Memory.prevWord_eq Memory.setChunk_self, hprev, hlinks.2]
    · exact Memory.prevWord_congr (hsame b hb)
  · have hblock := hL.block b hb
    by_cases hbp : b = p
    · subst hbp
      exact { hblock with chunk := ⟨c, Memory.setChunk_self, hu, hd⟩ }
    · exact hblock.carry (hsame b hbp) hblock.registered
  · exact .inr ⟨hb, hsame b fun e => hb (by simp [e])⟩

/-- `gc_realloc` with size 0 takes the block off the list and frees it. -/
theorem HeapList.unlinkAndFree_ok (henv : env.Sound) (hL : HeapList env m (A ++ p :: B)) :
    ∃ m', unlinkAndFree env p (A.getLastD env.heapListHead) (B.headD 0) m = .ok m' ∧
      HeapList env m' (A ++ B) ∧ m'.stackBase = m.stackBase ∧
      m'.stackPointer = m.stackPointer := by
  obtain ⟨-, hpB, hdisj⟩ := List.nodup_append.mp hL.linked.nodup
  have hAp : ∀ b ∈ A, b ≠ p := fun b hb e => hdisj b hb p List.mem_cons_self e
  have hBp : ∀ b ∈ B, b ≠ p := fun b hb e => (List.nodup_cons.mp hpB).1 (e ▸ hb)
  obtain ⟨hnext, hprev⟩ := hL.linked.links_of_append id
  have hblock : ∀ b ∈ A ++ B, GcBlock env m b := fun b hb =>
    hL.block b ((List.mem_append.mp hb).elim (List.mem_append_left _)
      fun h => List.mem_append_right _ (.tail _ h))
  obtain ⟨m₁, h₁, hD⟩ := linkForward_ok (K := A) henv (fun b hb =>
    ⟨(hblock b (List.mem_append_left _ hb)).live, (hblock b (List.mem_append_left _ hb)).notHead⟩)
    hL.next_lt
  have hblock₁ : ∀ b ∈ A ++ B, GcBlock env m₁ b := fun b hb => (hblock b hb).frame hD.frame id
  obtain ⟨m₂, h₂, hR⟩ := linkBack_ok (R := B) henv (fun b hb =>
    ⟨(hblock₁ b (List.mem_append_right _ hb)).live,
      (hblock₁ b (List.mem_append_right _ hb)).ne_zero⟩) hL.prev_lt
  obtain ⟨m₃, h₃, hrem⟩ := remove_ok (hL.block p (by simp)).live hD hR
  have hne : ∀ b ∈ A ++ B, b ≠ p := fun b hb => (List.mem_append.mp hb).elim (hAp b) (hBp b)
  refine ⟨m₃, by simp only [unlinkAndFree, h₁, h₂, h₃, Except.ok_bind],
    hL.rebuild ?_ (fun b hb => (hblock b hb).frame hrem.frame (hne b hb)) (fun b hb => ?_),
    hrem.frame.stackBase, hrem.frame.stackPointer⟩
  · rw [hrem.head, ← hnext]
    refine hL.linked.remove (fun b hb => ?_) (fun b hb hl => hrem.next b (hne b hb) hl)
      (fun b hb => hrem.first b (hBp b (List.mem_of_head? hb)) hb)
      fun b hb hh => hrem.prev b (hne b hb) hh
    rw [hrem.last b (hAp b (List.mem_of_getLast? hb)) hb, hnext]
  · by_cases hbp : b = p
    · exact .inl (hrem.frame.gone b hbp)
    · simp only [List.mem_append, not_or] at hb
      exact .inr ⟨by simp [hb.1, hb.2, hbp], hrem.frame.others b (not_or.mpr hb) hbp⟩

end PrecisionGc
