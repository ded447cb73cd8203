import PrecisionGc.Library.While
import PrecisionGc.Verify.Heap

/-!
# The mark phase

`mark_reachable_heap_objects` is a `Frontier` search whose marked set is the bit in the back links.
`Marking` says how the memory and the queue stand in the middle of the search, `markRound_ok` that a
round keeps this, and `mark_settles` what the phase has done when the queue has run dry: exactly the
reachable blocks carry the bit, and nothing else has changed.
-/

namespace PrecisionGc
open ByteStore LinkedList Worklist WhileLoop

variable {env : Env} {m m' : Memory} {q : Queue} {F D l : List Nat} {loose : Nat → Prop} {b x : Nat}

/-- The words that tracing a block enqueues. -/
def enqueued (env : Env) (m : Memory) (b : Nat) : List Nat := validWords env m (children env m b)

theorem GcBlock.enqueued_frame {touched : Nat → Prop} (h : GcBlock env m b)
    (hf : Frame env touched (fun _ => False) m m') : enqueued env m' b = enqueued env m b := by
  rw [enqueued, h.children_frame hf id, validWords,
    validHeapObject_congr hf.records hf.bigallocsList hf.pageindex]
  rfl

/-- The first object is a block: it is traced and marked, and its node leaves the queue. -/
theorem GcBlock.trace_ok (henv : env.Sound) (h : GcBlock env m x) (hq : q.Represents (x :: l)) :
    ∃ q₁ m₁ q₂, processHeapObjectRecursive env m ⟨x, 0⟩ none q = .ok q₁ ∧
      m.markBlock env x = .ok m₁ ∧ q₁.dequeueHeapQueueNode = .ok q₂ ∧
      Memory.Relinked env m m₁ (Function.update (m.prevWord env) x (m.prevWord env x ||| 1))
        (m.nextWord env) (m.head env) (· = x) (fun _ => False) ∧
      q₂.Represents (l ++ enqueued env m x) := by
  obtain ⟨q₁, h₁, hq₁⟩ := h.process_appends henv q _ hq
  obtain ⟨m₁, hm₁, hr⟩ := Memory.markBlock_ok henv h.live
  obtain ⟨q₂, h₂, hq₂⟩ := Queue.Represents.dequeue hq₁
  exact ⟨q₁, m₁, q₂, h₁, hm₁, h₂, hr, hq₂⟩

/-- The state of the search over the memory `m`: the blocks of `marked` carry the bit, and the
queue holds `l`. -/
structure Marking (env : Env) (m : Memory) (F D : List Nat) (marked : Nat → Prop) (l : List Nat)
    (p : Memory × Queue) : Prop where
  frame : Frame env (· ∈ F ++ D) (fun _ => False) m p.1
  head : p.1.head env = m.head env
  next : p.1.nextWord env = m.nextWord env
  prevMarked : ∀ b, marked b → p.1.prevWord env b = m.prevWord env b ||| 1
  prevUnmarked : ∀ b, ¬marked b → p.1.prevWord env b = m.prevWord env b
  queue : p.2.Represents l
  valid : ∀ x ∈ l, validHeapObject env m x = true
  frontier : Frontier (enqueued env m) (· ∈ F ++ D) (validWords env m (rootWords env m)) marked l

namespace Marking

variable {marked : Nat → Prop}

theorem start (hq : q.Represents (validWords env m (rootWords env m))) :
    Marking env m F D (fun _ => False) (validWords env m (rootWords env m)) (m, q) where
  frame := .refl m
  head := rfl
  next := rfl
  prevMarked _ h := h.elim
  prevUnmarked _ _ := rfl
  queue := hq
  valid _ hx := (List.mem_filter.mp hx).2
  frontier := .start

theorem live (henv : env.Sound) (S : HeapShape env m F D loose)
    {p : Memory × Queue} (H : Marking env m F D marked (x :: l) p) : p.1.Live x := by
  obtain ⟨c, hc⟩ := chunk_of_valid henv (H.valid x List.mem_cons_self)
  exact Memory.Live.frame ⟨c, hc, S.sized x c hc⟩ H.frame id

/-- The first object is traced exactly when it is a block that is not marked yet. -/
theorem traced_iff (henv : env.Sound) (S : HeapShape env m F D loose)
    {p : Memory × Queue} (H : Marking env m F D marked (x :: l) p) :
    p.1.prevWord env x % 2 ≠ 1 ∧ p.1.prevWord env x ≠ sentinel ↔ x ∈ F ++ D ∧ ¬marked x := by
  constructor
  · rintro ⟨heven, hs⟩
    have hx : ¬marked x := fun hx => heven (H.prevMarked x hx ▸ or_one_odd)
    refine ⟨?_, hx⟩
    by_contra hU
    obtain ⟨c, hc⟩ := chunk_of_valid henv (H.valid x List.mem_cons_self)
    exact hs ((H.prevUnmarked x hx).trans (S.foreign x c hc hU))
  · rintro ⟨hU, hx⟩
    obtain ⟨heven, hs⟩ := S.unmarked x hU
    rw [H.prevUnmarked x hx]
    exact ⟨by omega, hs⟩

/-- The first object has been traced: it is marked, and its children have joined the queue. -/
theorem visit {p : Memory × Queue} {m₁ : Memory} {q₁ : Queue}
    (H : Marking env m F D marked (x :: l) p) (hU : x ∈ F ++ D) (hx : ¬marked x)
    (hr : Memory.Relinked env p.1 m₁
      (Function.update (p.1.prevWord env) x (p.1.prevWord env x ||| 1))
      (p.1.nextWord env) (p.1.head env) (· = x) fun _ => False)
    (hq : q₁.Represents (l ++ enqueued env m x)) :
    Marking env m F D (fun y => y = x ∨ marked y) (l ++ enqueued env m x) (m₁, q₁) where
  frame := H.frame.trans_none (hr.frame.mono fun b hb => hb ▸ hU)
  head := hr.head.trans H.head
  next := hr.next.trans H.next
  prevMarked := by
    rintro b hb
    rw [hr.prev]
    by_cases hbx : b = x
    · rw [hbx, Function.update_self, H.prevUnmarked x hx]
    · rw [Function.update_of_ne hbx]
      exact H.prevMarked b (hb.resolve_left hbx)
  prevUnmarked b hb := by
    rw [hr.prev, Function.update_of_ne fun h => hb (.inl h)]
    exact H.prevUnmarked b fun h => hb (.inr h)
  queue := hq
  valid y hy := by
    rcases List.mem_append.mp hy with hy | hy
    · exact H.valid y (.tail _ hy)
    · exact (List.mem_filter.mp hy).2
  frontier := H.frontier.visit hU

/-- The first object has been dropped. -/
theorem skip {p : Memory × Queue} {q₁ : Queue} (H : Marking env m F D marked (x :: l) p)
    (hx : marked x ∨ x ∉ F ++ D) (hq : q₁.Represents l) :
    Marking env m F D marked l (p.1, q₁) :=
  { H with
    queue := hq
    valid := fun y hy => H.valid y (.tail _ hy)
    frontier := H.frontier.skip hx }

end Marking

/-- The ghost data of the search: what is marked, and what is queued. -/
abbrev Progress := (Nat → Prop) × List Nat

/-- The measure of the search: blocks that are not marked, and the length of the queue. -/
noncomputable def remaining (U : List Nat) (g : Progress) : Nat × Nat :=
  (unmarked U g.1, g.2.length)

/-- A round of the loop keeps the search going and brings its end nearer. -/
theorem markRound_ok (henv : env.Sound) (S : HeapShape env m F D loose) {marked : Nat → Prop}
    {p : Memory × Queue} (H : Marking env m F D marked (x :: l) p) :
    ∃ p' g', markRound env p = .ok p' ∧ Marking env m F D g'.1 g'.2 p' ∧
      Shrinks (remaining (F ++ D) g') (remaining (F ++ D) (marked, x :: l)) := by
  obtain ⟨m₀, q₀⟩ := p
  have hlive : m₀.Live x := H.live henv S
  obtain ⟨n, hn, hnx⟩ := H.queue.first
  have hcond := H.traced_iff henv S
  by_cases hx : x ∈ F ++ D ∧ ¬marked x
  · obtain ⟨heven, hs⟩ := hcond.mpr hx
    have hblock : GcBlock env m₀ x := (S.block x hx.1).frame H.frame id
    obtain ⟨q₁, m₁, q₂, h₁, hm₁, h₂, hr, hq₂⟩ := hblock.trace_ok henv H.queue
    rw [(S.block x hx.1).enqueued_frame H.frame] at hq₂
    refine ⟨(m₁, q₂), (_, _), ?_, H.visit hx.1 hx.2 hr hq₂,
      shrinks_of_marked (unmarked_lt hx.1 hx.2)⟩
    simp [markRound, hn, hnx, Memory.marked_ok hlive, Memory.previousPointer_ok hlive, heven, hs,
      h₁, hm₁, h₂]
  · obtain ⟨q₁, h₁, hq₁⟩ := H.queue.dequeue
    refine ⟨(m₀, q₁), (marked, l), ?_, H.skip (by tauto) hq₁,
      shrinks_of_queue (Nat.lt_succ_self l.length)⟩
    have hskip : ¬(m₀.prevWord env x % 2 ≠ 1 ∧ m₀.prevWord env x ≠ sentinel) := fun h =>
      hx (hcond.mp h)
    simp only [markRound, hn, Except.ok_bind, hnx, Memory.marked_ok hlive,
      Memory.previousPointer_ok hlive]
    rw [if_neg (by simpa using hskip), h₁]
    rfl

/-- The memory after the mark phase. -/
structure Marked (env : Env) (m : Memory) (F D : List Nat) (m' : Memory) : Prop where
  frame : Frame env (· ∈ F ++ D) (fun _ => False) m m'
  head : m'.head env = m.head env
  next : m'.nextWord env = m.nextWord env
  prevMarked : ∀ b ∈ F ++ D, Reachable env m b → m'.prevWord env b = m.prevWord env b ||| 1
  prevUnmarked : ∀ b, ¬(b ∈ F ++ D ∧ Reachable env m b) → m'.prevWord env b = m.prevWord env b

/-- The mark phase terminates, and marks the blocks that are reachable. -/
theorem mark_settles (henv : env.Sound) (S : HeapShape env m F D loose)
    (hq : q.Represents (validWords env m (rootWords env m))) :
    ∃ p, Settles (fun fuel => markReachableHeapObjects env fuel m q) p ∧
      Marked env m F D p.1 ∧ p.2.Represents [] := by
  obtain ⟨p, g, hp, H, hdone⟩ := whileM_settles Fault.fuel
    (fun p : Memory × Queue => p.2.head != 0) (markRound env) (s := (m, q))
    (fun g' g => Shrinks (remaining (F ++ D) g') (remaining (F ++ D) g))
    (InvImage.wf (remaining (F ++ D)) shrinks_wf)
    (fun g p => Marking env m F D g.1 g.2 p)
    (fun g p H hc => by
      obtain ⟨marked, l⟩ := g
      cases l with
      | nil => simp [H.queue.head_eq_zero.mpr rfl] at hc
      | cons x l => exact markRound_ok henv S H)
    (g := (fun _ => False, _)) (Marking.start hq)
  obtain ⟨marked, l⟩ := g
  simp only at H
  obtain rfl : l = [] := H.queue.head_eq_zero.mp (by simpa using hdone)
  have hmarked : ∀ b, marked b ↔ b ∈ F ++ D ∧ Reachable env m b := fun b => by
    rw [H.frontier.marked_iff, and_comm]
    exact and_congr_right fun hb => (S.reachable_iff henv hb).symm
  refine ⟨p, hp, ?_, H.queue⟩
  exact ⟨H.frame, H.head, H.next, fun b hb hr => H.prevMarked b ((hmarked b).mpr ⟨hb, hr⟩),
    fun b hb => H.prevUnmarked b fun h => hb ((hmarked b).mp h)⟩

end PrecisionGc
