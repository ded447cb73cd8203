import PrecisionGc.Verify.Mark

/-!
# What the mark phase visits

The mark phase over any heap graph, with any marks and any queue to start from. `visitRound` is the
round of `mark_reachable_heap_objects` with a record of the objects that it traces and of the nodes
that it takes off the queue; without the record it is `markRound`. The phase terminates, traces no
block twice and no chunk with the sentinel, and takes each node off once.
-/

namespace PrecisionGc
open ByteStore LinkedList Worklist WhileLoop

variable {env : Env} {m : Memory} {q : Queue} {U l l₀ : List Nat} {x : Nat}

/-- The state of the loop, the objects traced so far and the objects of the nodes dequeued so far.
-/
structure Visits where
  mem : Memory
  queue : Queue
  traced : List Nat
  dequeued : List Nat

/-- One round of the loop of `mark_reachable_heap_objects`, with the record. -/
def visitRound (env : Env) (v : Visits) : Except Fault Visits := do
  let { mem := m, queue := q, traced, dequeued } := v
  let first ← q.node q.head
  let heapObject := first.heapObject
  let marked ← m.marked env heapObject
  let previous ← m.previousPointer env heapObject
  if !marked && previous != sentinel then
    let q ← processHeapObjectRecursive env m ⟨heapObject, 0⟩ none q
    let m ← m.markBlock env heapObject
    let q ← q.dequeueHeapQueueNode
    return ⟨m, q, traced ++ [heapObject], dequeued ++ [heapObject]⟩
  else
    let q ← q.dequeueHeapQueueNode
    return ⟨m, q, traced, dequeued ++ [heapObject]⟩

/-- `mark_reachable_heap_objects`, with the record. -/
def visitReachable (env : Env) (fuel : Nat) (m : Memory) (q : Queue) : Except Fault Visits :=
  whileM .fuel (fun v => v.queue.head != 0) (visitRound env) fuel ⟨m, q, [], []⟩

/-- The state without the record. -/
def Visits.state (v : Visits) : Memory × Queue := (v.mem, v.queue)

theorem visitRound_state (v : Visits) :
    Visits.state <$> visitRound env v = markRound env v.state := by
  obtain ⟨m, q, traced, dequeued⟩ := v
  simp only [visitRound, markRound, Visits.state, map_bind]
  refine congrArg _ (funext fun first => congrArg _ (funext fun marked =>
    congrArg _ (funext fun previous => ?_)))
  split
  · simp only [map_bind]
    rfl
  · simp only [map_bind]
    rfl

/-- The record does not change the mark phase. -/
theorem visitReachable_state (fuel : Nat) :
    Visits.state <$> visitReachable env fuel m q = markReachableHeapObjects env fuel m q :=
  whileM_map Visits.state (fun _ => rfl) visitRound_state

/-- The heap as a finite graph: the blocks of `U` are the live chunks without the sentinel. -/
structure HeapGraph (env : Env) (m : Memory) (U : List Nat) : Prop where
  block : ∀ b ∈ U, GcBlock env m b
  gcChunk : ∀ b, GcChunk env m b ↔ b ∈ U
  sized : ∀ b c, m.chunks b = some c → minUsable ≤ c.usable

/-- The loop over the graph in `m` when it has started with `l₀` queued: `l` is queued, and the
blocks of `marked` have been traced. -/
structure Visiting (env : Env) (m : Memory) (U l₀ : List Nat) (marked : Nat → Prop) (l : List Nat)
    (v : Visits) : Prop where
  frame : Frame env (· ∈ U) (fun _ => False) m v.mem
  traced : ∀ b, b ∈ v.traced ↔ marked b
  prevMarked : ∀ b, marked b → v.mem.prevWord env b = m.prevWord env b ||| 1
  prevUnmarked : ∀ b, ¬marked b → v.mem.prevWord env b = m.prevWord env b
  queue : v.queue.Represents l
  live : ∀ x ∈ l, ∃ c, m.chunks x = some c
  once : v.traced.Nodup
  unmarked : ∀ b ∈ v.traced, b ∈ U ∧ m.prevWord env b % 2 = 0
  ledger : v.dequeued ++ l = l₀ ++ v.traced.flatMap (enqueued env m)

namespace Visiting

variable {marked : Nat → Prop} {v : Visits}

theorem start (hq : q.Represents l₀) (hl : ∀ x ∈ l₀, ∃ c, m.chunks x = some c) :
    Visiting env m U l₀ (fun _ => False) l₀ ⟨m, q, [], []⟩ where
  frame := .refl m
  traced _ := by simp
  prevMarked _ h := h.elim
  prevUnmarked _ _ := rfl
  queue := hq
  live := hl
  once := .nil
  unmarked _ h := nomatch h
  ledger := by simp

theorem first_live (G : HeapGraph env m U) (H : Visiting env m U l₀ marked (x :: l) v) :
    v.mem.Live x := by
  obtain ⟨c, hc⟩ := H.live x List.mem_cons_self
  exact Memory.Live.frame ⟨c, hc, G.sized x c hc⟩ H.frame id

/-- The first object is traced exactly when it is a block without the bit: one that had no mark and
has not been traced. -/
theorem traced_iff (G : HeapGraph env m U) (H : Visiting env m U l₀ marked (x :: l) v) :
    v.mem.prevWord env x % 2 ≠ 1 ∧ v.mem.prevWord env x ≠ sentinel ↔
      x ∈ U ∧ ¬marked x ∧ m.prevWord env x % 2 = 0 := by
  constructor
  · rintro ⟨heven, hs⟩
    have hx : ¬marked x := fun hx => heven (H.prevMarked x hx ▸ or_one_odd)
    rw [H.prevUnmarked x hx] at heven hs
    exact ⟨(G.gcChunk x).mp ⟨H.live x List.mem_cons_self, hs⟩, hx, by omega⟩
  · rintro ⟨hU, hx, heven⟩
    rw [H.prevUnmarked x hx]
    exact ⟨by omega, ((G.gcChunk x).mpr hU).2⟩

/-- The first object has been traced. -/
theorem visit {m₁ : Memory} {q₁ : Queue} (H : Visiting env m U l₀ marked (x :: l) v) (hU : x ∈ U)
    (hx : ¬marked x) (heven : m.prevWord env x % 2 = 0)
    (hlive : ∀ y ∈ enqueued env m x, ∃ c, m.chunks y = some c)
    (hr : Memory.Relinked env v.mem m₁
      (Function.update (v.mem.prevWord env) x (v.mem.prevWord env x ||| 1))
      (v.mem.nextWord env) (v.mem.head env) (· = x) fun _ => False)
    (hq : q₁.Represents (l ++ enqueued env m x)) :
    Visiting env m U l₀ (fun y => y = x ∨ marked y) (l ++ enqueued env m x)
      ⟨m₁, q₁, v.traced ++ [x], v.dequeued ++ [x]⟩ where
  frame := H.frame.trans_none (hr.frame.mono fun b hb => hb ▸ hU)
  traced b := by
    rw [List.mem_append, H.traced, List.mem_singleton, or_comm]
  prevMarked b hb := by
    rw [hr.prev]
    by_cases hbx : b = x
    · rw [hbx, Function.update_self, H.prevUnmarked x hx]
    · rw [Function.update_of_ne hbx]
      exact H.prevMarked b (hb.resolve_left hbx)
  prevUnmarked b hb := by
    rw [hr.prev, Function.update_of_ne fun h => hb (.inl h)]
    exact H.prevUnmarked b fun h => hb (.inr h)
  queue := hq
  live y hy := (List.mem_append.mp hy).elim (fun hy => H.live y (.tail _ hy)) (hlive y)
  once := by
    refine List.nodup_append.mpr ⟨H.once, by simp, ?_⟩
    rintro b hb _ hb' rfl
    exact hx ((H.traced x).mp (List.mem_singleton.mp hb' ▸ hb))
  unmarked b hb := by
    rcases List.mem_append.mp hb with hb | hb
    · exact H.unmarked b hb
    · exact List.mem_singleton.mp hb ▸ ⟨hU, heven⟩
  ledger := by
    have := H.ledger
    simp only [List.flatMap_append, List.flatMap_singleton, ← List.append_assoc] at this ⊢
    rw [← this]
    simp

/-- The first object has been passed over. -/
theorem skip {q₁ : Queue} (H : Visiting env m U l₀ marked (x :: l) v) (hq : q₁.Represents l) :
    Visiting env m U l₀ marked l ⟨v.mem, q₁, v.traced, v.dequeued ++ [x]⟩ :=
  { H with
    queue := hq
    live := fun y hy => H.live y (.tail _ hy)
    ledger := by simpa using H.ledger }

end Visiting

/-- A round of the loop keeps the record right and brings the end nearer. -/
theorem visitRound_ok (henv : env.Sound) (G : HeapGraph env m U) {marked : Nat → Prop} {v : Visits}
    (H : Visiting env m U l₀ marked (x :: l) v) :
    ∃ v' g', visitRound env v = .ok v' ∧ Visiting env m U l₀ g'.1 g'.2 v' ∧
      Shrinks (remaining U g') (remaining U (marked, x :: l)) := by
  have hlive := H.first_live G
  have hcond := H.traced_iff G
  obtain ⟨n, hn, hnx⟩ := H.queue.first
  by_cases hx : x ∈ U ∧ ¬marked x ∧ m.prevWord env x % 2 = 0
  · obtain ⟨heven, hs⟩ := hcond.mpr hx
    obtain ⟨hU, hnew, hm⟩ := hx
    have hblock := G.block x hU
    obtain ⟨q₁, m₁, q₂, h₁, hm₁, h₂, hr, hq₂⟩ := (hblock.frame H.frame id).trace_ok henv H.queue
    rw [hblock.enqueued_frame H.frame] at hq₂
    refine ⟨_, (_, _), ?_, H.visit hU hnew hm (fun y hy => ?_) hr hq₂,
      shrinks_of_marked (unmarked_lt hU hnew)⟩
    · simp [visitRound, hn, hnx, Memory.marked_ok hlive, Memory.previousPointer_ok hlive, heven, hs,
        h₁, hm₁, h₂]
    · exact chunk_of_valid henv (List.mem_filter.mp hy).2
  · obtain ⟨q₁, h₁, hq₁⟩ := H.queue.dequeue
    refine ⟨_, (marked, l), ?_, H.skip hq₁, shrinks_of_queue (Nat.lt_succ_self l.length)⟩
    have hskip : ¬(v.mem.prevWord env x % 2 ≠ 1 ∧ v.mem.prevWord env x ≠ sentinel) := fun h =>
      hx (hcond.mp h)
    simp only [visitRound, hn, Except.ok_bind, hnx, Memory.marked_ok hlive,
      Memory.previousPointer_ok hlive]
    rw [if_neg (by simpa using hskip), h₁]
    rfl

/-- What the record says when the loop is done: each block was traced at most once, and only if it
was not marked before; of the chunks with the sentinel none was traced or changed; and the nodes
taken off the queue are those of the start and those of the traced blocks, each once, in the order
in which they were enqueued. -/
structure VisitedOnce (env : Env) (m : Memory) (U l₀ : List Nat) (v : Visits) : Prop where
  once : v.traced.Nodup
  blocks : ∀ b ∈ v.traced, b ∈ U ∧ m.prevWord env b % 2 = 0
  sentinels : ∀ b, m.prevWord env b = sentinel →
    b ∉ v.traced ∧ v.mem.chunks b = m.chunks b
  ledger : v.dequeued = l₀ ++ v.traced.flatMap (enqueued env m)
  used : v.queue.used = []

/-- The mark phase terminates from any queue of live chunks, over any graph with any marks. Its
queue never touches a node that has been freed. -/
theorem mark_visitsOnce (henv : env.Sound) (G : HeapGraph env m U) (hq : q.Represents l₀)
    (hl : ∀ x ∈ l₀, ∃ c, m.chunks x = some c) :
    ∃ n v, (∀ fuel, n ≤ fuel → visitReachable env fuel m q = .ok v ∧
        markReachableHeapObjects env fuel m q = .ok v.state) ∧
      VisitedOnce env m U l₀ v := by
  obtain ⟨v, g, hv, H, hdone⟩ := whileM_settles Fault.fuel
    (fun v : Visits => v.queue.head != 0) (visitRound env) (s := ⟨m, q, [], []⟩)
    (fun g' g => Shrinks (remaining U g') (remaining U g)) (InvImage.wf (remaining U) shrinks_wf)
    (fun g v => Visiting env m U l₀ g.1 g.2 v)
    (fun g v H hc => by
      obtain ⟨marked, l⟩ := g
      cases l with
      | nil => simp [H.queue.head_eq_zero.mpr rfl] at hc
      | cons x l => exact visitRound_ok henv G H)
    (g := (fun _ => False, _)) (Visiting.start hq hl)
  obtain ⟨marked, l⟩ := g
  simp only at H
  obtain rfl : l = [] := H.queue.head_eq_zero.mp (by simpa using hdone)
  obtain ⟨n, hn⟩ := hv.enough
  refine ⟨n, v, fun fuel hfuel => ⟨hn fuel hfuel, ?_⟩, H.once, H.unmarked, fun b hb => ?_, ?_, ?_⟩
  · rw [← visitReachable_state, show visitReachable env fuel m q = .ok v from hn fuel hfuel]
    rfl
  · have hbU : b ∉ U := fun h => ((G.gcChunk b).mpr h).2 hb
    exact ⟨fun h => hbU (H.unmarked b h).1, H.frame.others b hbU id⟩
  · simpa using H.ledger
  · obtain ⟨ns, hns⟩ := H.queue
    obtain rfl : ns = [] := List.map_eq_nil_iff.mp hns.objects
    exact List.eq_nil_iff_forall_not_mem.mpr fun a ha => by simpa using (hns.used a).mp ha

theorem HeapList.graph (henv : env.Sound) {L : List Nat} (hL : HeapList env m L) :
    HeapGraph env m L where
  block := hL.block
  gcChunk b := by simpa using (hL.shape henv).gcChunk_iff
  sized := hL.sized

/-- Two blocks, the second of which is queued twice. -/
theorem mark_visitsOnce_twoBlocks : ∃ q n v, q.Represents [0x410000, 0x410000] ∧
    (∀ fuel, n ≤ fuel →
      visitReachable Env.flat fuel (twoBlocks Env.flat 8 16 0x6040 0x400000 0x410000) q = .ok v ∧
      markReachableHeapObjects Env.flat fuel (twoBlocks Env.flat 8 16 0x6040 0x400000 0x410000) q =
        .ok v.state) ∧
    VisitedOnce Env.flat (twoBlocks Env.flat 8 16 0x6040 0x400000 0x410000)
      [0x400000, 0x410000] [0x410000, 0x410000] v := by
  have hL : HeapList Env.flat (twoBlocks Env.flat 8 16 0x6040 0x400000 0x410000)
      [0x400000, 0x410000] :=
    twoBlocks_heapList 8 16 Env.flat_sound rfl (by decide) (by decide) (by decide) (by decide)
      (by decide) (by decide) (by decide) (by decide) (by decide)
  obtain ⟨q₁, -, hq₁⟩ := Queue.empty_represents.enqueue Env.flat_sound 0x410000
  obtain ⟨q₂, -, hq₂⟩ := hq₁.enqueue Env.flat_sound 0x410000
  obtain ⟨n, v, hrun, H⟩ := mark_visitsOnce Env.flat_sound (hL.graph Env.flat_sound) hq₂
    fun x hx => by
      obtain rfl : x = 0x410000 := by simpa using hx
      obtain ⟨c, hc, -⟩ := (hL.block 0x410000 (by simp)).chunk
      exact ⟨c, hc⟩
  exact ⟨q₂, n, v, hq₂, hrun, H⟩

end PrecisionGc
