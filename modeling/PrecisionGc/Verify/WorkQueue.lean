import PrecisionGc.Verify.Elements
import PrecisionGc.Verify.Recognised

/-!
# The work queue as a first-in first-out list

Any sequence of calls of `enqueue_heap_queue_node` and `dequeue_heap_queue_node` from the empty
queue returns, whatever nodes the private allocator answers with, and leaves a chain with the
objects that are still to be taken, in the order in which they came. A `Ledger` notes beside the
queue which nodes the private heap has gained and lost: each node is freed once, in the order of
allocation, and an access to a node that is not in use would be a fault. A collection changes the
queue by such calls alone (`gcCollect_driven`), so both pointers are NULL whenever one starts.
-/

namespace PrecisionGc
open Runs WhileLoop

namespace Queue

/-- A call of one of the two functions; `node` is what `__private_malloc` answers. -/
inductive Op
  | enqueue (node heapPointer : Nat)
  | dequeue

namespace Op

def exec (env : Env) (q : Queue) : Op → Except Fault Queue
  | enqueue node heapPointer =>
    q.enqueueHeapQueueNode { env with privateMalloc := fun _ => node } heapPointer
  | dequeue => q.dequeueHeapQueueNode

/-- `__private_malloc` succeeds: its answer is not NULL and not in use. -/
def Allocates (q : Queue) : Op → Prop
  | enqueue node _ => node ≠ 0 ∧ node ∉ q.used
  | dequeue => True

/-- What the call does to a list of objects. -/
def apply (l : List Nat) : Op → List Nat
  | enqueue _ heapPointer => l ++ [heapPointer]
  | dequeue => l.tail

/-- The object that the call enqueues. -/
def object : Op → List Nat
  | enqueue _ heapPointer => [heapPointer]
  | dequeue => []

end Op

/-- The objects to be taken after the calls. -/
def contents (ops : List Op) : List Nat := ops.foldl Op.apply []

/-- The objects that the calls have enqueued. -/
def objects (ops : List Op) : List Nat := ops.flatMap Op.object

/-- The queue, and the nodes that the private heap has gained and lost. -/
structure Ledger where
  queue : Queue
  allocated : List Nat
  freed : List Nat

namespace Ledger

def start : Ledger := ⟨.empty, [], []⟩

/-- A call, with what has changed in the private heap. -/
def step (env : Env) (x : Ledger) (op : Op) : Except Fault Ledger := do
  let q ← op.exec env x.queue
  return {
    queue := q
    allocated := x.allocated ++ q.used.filter (· ∉ x.queue.used)
    freed := x.freed ++ x.queue.used.filter (· ∉ q.used) }

/-- The nodes `ns` are in use with the objects `l`. The nodes allocated before them have been freed,
each once and in their order, and `l` is what is left of the objects `objs` that were enqueued. -/
structure Holds (x : Ledger) (ns l objs : List Nat) : Prop where
  queue : x.queue.Holds ns l
  once : x.allocated = x.freed ++ ns
  order : l = objs.drop x.freed.length
  bound : x.freed.length ≤ objs.length

end Ledger

variable {env : Env} {q q' : Queue} {x : Ledger} {ns l objs : List Nat} {a node w : Nat}

theorem Ledger.start_holds : Ledger.start.Holds [] [] [] :=
  ⟨⟨rfl, rfl, rfl, by simp [start, empty], by simp [start, empty], .nil, .nil⟩, rfl, rfl, le_rfl⟩

/-! ## One call -/

/-- If the one queue uses one node more than the other, that is what has been gained or lost. -/
theorem Holds.used_filter_eq {ns' l' : List Nat} (h : q.Holds ns l) (h' : q'.Holds ns' l')
    (ha : ∀ b, b ∈ ns ∧ b ∉ ns' ↔ b = a) : q.used.filter (· ∉ q'.used) = [a] := by
  refine List.perm_singleton.mp ((List.perm_ext_iff_of_nodup (h.usedNodup.filter _)
    (List.nodup_singleton a)).mpr fun b => ?_)
  simp only [List.mem_filter, h.used, h'.used, decide_eq_true_eq, ha, List.mem_singleton]

theorem Holds.used_filter_nil {ns' l' : List Nat} (h : q.Holds ns l) (h' : q'.Holds ns' l')
    (hsub : ∀ b ∈ ns, b ∈ ns') : q.used.filter (· ∉ q'.used) = [] := by
  refine List.filter_eq_nil_iff.mpr fun b hb => ?_
  simpa only [h'.used, decide_eq_true_eq, not_not] using hsub b ((h.used b).mp hb)

theorem Ledger.Holds.enqueue (env : Env) (H : x.Holds ns l objs)
    (hnode : (Op.enqueue node w).Allocates x.queue) :
    ∃ y, x.step env (.enqueue node w) = .ok y ∧
      y.Holds (ns ++ [node]) (l ++ [w]) (objs ++ [w]) := by
  obtain ⟨q', hq, h'⟩ : ∃ q', (Op.enqueue node w).exec env x.queue = .ok q' ∧
      q'.Holds (ns ++ [node]) (l ++ [w]) := H.queue.enqueue hnode.1 hnode.2
  have hfresh : node ∉ ns := fun h => hnode.2 ((H.queue.used node).mpr h)
  have hgained : q'.used.filter (· ∉ x.queue.used) = [node] := by
    refine h'.used_filter_eq H.queue fun b => ?_
    simp only [List.mem_append, List.mem_singleton]
    constructor
    · rintro ⟨hb | hb, hnot⟩
      · exact absurd hb hnot
      · exact hb
    · rintro rfl
      exact ⟨.inr rfl, hfresh⟩
  have hlost : x.queue.used.filter (· ∉ q'.used) = [] :=
    H.queue.used_filter_nil h' fun b hb => List.mem_append_left _ hb
  refine ⟨⟨q', x.allocated ++ [node], x.freed⟩, ?_, h', ?_, ?_, ?_⟩
  · simp only [step, hq, Except.ok_bind, hgained, hlost, List.append_nil, Except.pure_def]
  · rw [H.once, List.append_assoc]
  · rw [List.drop_append_of_le_length H.bound, ← H.order]
  · simpa using Nat.le_succ_of_le H.bound

theorem Ledger.Holds.dequeue (env : Env) (H : x.Holds ns l objs) :
    ∃ y, x.step env .dequeue = .ok y ∧ y.Holds ns.tail l.tail objs := by
  cases ns with
  | nil =>
    obtain rfl : l = [] := H.queue.objects.symm
    have hlost : x.queue.used.filter (· ∉ x.queue.used) = [] :=
      H.queue.used_filter_nil H.queue fun _ hb => hb
    refine ⟨x, ?_, H⟩
    simp only [step, Op.exec, H.queue.dequeue_nil, Except.ok_bind, hlost, List.append_nil,
      Except.pure_def]
  | cons a ns =>
    obtain ⟨w, l, rfl⟩ : ∃ w l', l = w :: l' := ⟨_, _, H.queue.objects.symm⟩
    obtain ⟨q', hq, h'⟩ := H.queue.dequeue
    have hnot : a ∉ ns := (List.nodup_cons.mp H.queue.nodup).1
    have hgained : q'.used.filter (· ∉ x.queue.used) = [] :=
      h'.used_filter_nil H.queue fun b hb => List.mem_cons_of_mem _ hb
    have hlost : x.queue.used.filter (· ∉ q'.used) = [a] := by
      refine H.queue.used_filter_eq h' fun b => ?_
      simp only [List.mem_cons]
      constructor
      · rintro ⟨hb | hb, hb'⟩
        · exact hb
        · exact absurd hb hb'
      · rintro rfl
        exact ⟨.inl rfl, hnot⟩
    refine ⟨⟨q', x.allocated, x.freed ++ [a]⟩, ?_, h', ?_, ?_, ?_⟩
    · simp only [step, Op.exec, hq, Except.ok_bind, hgained, hlost, List.append_nil,
        Except.pure_def]
    · rw [H.once, List.append_assoc]
      rfl
    · rw [List.length_append, List.length_singleton, ← List.tail_drop, ← H.order]
    · have hlen := congrArg List.length H.order
      rw [List.length_drop] at hlen
      rw [List.length_append, List.length_singleton]
      simp only [List.length_cons] at hlen
      omega

/-! ## Sequences of calls -/

/-- The ledger does not change the calls. -/
theorem Ledger.foldlM_queue (env : Env) (ops : List Op) (x : Ledger) :
    Ledger.queue <$> ops.foldlM (step env) x = ops.foldlM (Op.exec env) x.queue := by
  induction ops generalizing x with
  | nil => rfl
  | cons op ops ih =>
    simp only [List.foldlM_cons, step]
    cases op.exec env x.queue with
    | error e => rfl
    | ok q => exact ih _

theorem Ledger.Holds.run {ops : List Op} (H : x.Holds ns l objs)
    (hallocs : Along (Op.exec env) Op.Allocates x.queue ops) :
    ∃ y ns', ops.foldlM (step env) x = .ok y ∧
      y.Holds ns' (ops.foldl Op.apply l) (objs ++ objects ops) := by
  induction ops generalizing x ns l objs with
  | nil => exact ⟨x, ns, rfl, by simpa [objects] using H⟩
  | cons op ops ih =>
    obtain ⟨hop, hops⟩ := hallocs
    have hstep : ∃ y ns', x.step env op = .ok y ∧
        y.Holds ns' (Op.apply l op) (objs ++ op.object) := by
      cases op with
      | enqueue node w =>
        obtain ⟨y, hy, H'⟩ := H.enqueue env hop
        exact ⟨y, _, hy, H'⟩
      | dequeue =>
        obtain ⟨y, hy, H'⟩ := H.dequeue env
        exact ⟨y, _, hy, by simpa [Op.object, Op.apply] using H'⟩
    obtain ⟨y, ns', hy, H'⟩ := hstep
    obtain ⟨q', hq, hy'⟩ := Except.bind_eq_ok.mp hy
    obtain rfl := Except.ok.inj hy'
    obtain ⟨z, ns'', hz, H''⟩ := ih H' (hops q' hq)
    refine ⟨z, ns'', foldlM_cons_eq_ok.mpr ⟨_, hy, hz⟩, ?_⟩
    rwa [List.append_assoc] at H''

/-- The second queue arises from the first one by calls of the two functions, with every allocation
succeeding. -/
def Driven (env : Env) (q q' : Queue) : Prop :=
  ∃ ops, Along (Op.exec env) Op.Allocates q ops ∧ ops.foldlM (Op.exec env) q = .ok q'

namespace Driven

theorem refl (q : Queue) : Driven env q q := ⟨[], trivial, rfl⟩

theorem of_op (op : Op) (ha : op.Allocates q) (h : op.exec env q = .ok q') : Driven env q q' :=
  ⟨[op], ⟨ha, fun _ _ => trivial⟩, foldlM_cons_eq_ok.mpr ⟨q', h, rfl⟩⟩

theorem trans {q'' : Queue} (h : Driven env q q') (h' : Driven env q' q'') : Driven env q q'' := by
  obtain ⟨ops, ha, hops⟩ := h
  obtain ⟨ops', ha', hops'⟩ := h'
  refine ⟨ops ++ ops', ha.append fun y hy => ?_, ?_⟩
  · obtain rfl := Except.ok.inj (hops.symm.trans hy)
    exact ha'
  · rw [List.foldlM_append, hops]
    exact hops'

theorem enqueue (henv : env.Sound) (h : q.enqueueHeapQueueNode env w = .ok q') :
    Driven env q q' := by
  refine of_op (.enqueue (env.privateMalloc q.used) w) (henv.privateMalloc q.used) ?_
  exact h

theorem dequeue (h : q.dequeueHeapQueueNode = .ok q') : Driven env q q' :=
  of_op .dequeue trivial h

/-- What the calls leave is a list again. -/
theorem represents (h : Driven env q q') (hq : q.Represents l) : ∃ l', q'.Represents l' := by
  obtain ⟨ops, ha, hops⟩ := h
  obtain ⟨ns, hns⟩ := hq
  have H : Ledger.Holds ⟨q, ns, []⟩ ns l l := ⟨hns, rfl, rfl, Nat.zero_le _⟩
  obtain ⟨y, ns', hy, H'⟩ := H.run ha
  have hqueue := Ledger.foldlM_queue env ops ⟨q, ns, []⟩
  rw [hy, hops] at hqueue
  obtain rfl : y.queue = q' := Except.ok.inj hqueue
  exact ⟨_, ns', H'.queue⟩

end Driven

end Queue

/-! ## What a collection does to the queue -/

open Queue

variable {env : Env} {m : Memory} {s s' s₁ : State} {q q₀ q' : Queue} {w p n fuel size ret : Nat}
  {call : Call} {x x' : Session} {calls : List Call}

theorem enqueueIfValid_driven (henv : env.Sound) (hq : Driven env q₀ q)
    (h : enqueueIfValid env m w q = .ok q') : Driven env q₀ q' := by
  unfold enqueueIfValid at h
  split at h
  · exact hq.trans (.enqueue henv h)
  · exact Except.ok.inj h ▸ hq

theorem processTyped_driven {t : Uniqtype} {object : Ptr} (henv : env.Sound)
    (h : processTyped env m t object q = .ok q') : Driven env q q' := by
  rw [processTyped_eq] at h
  refine walkTyped_invariant (fun p q₁ q₂ hq₁ hvisit => ?_) t object q q' (.refl q) h
  obtain ⟨w, -, hvisit⟩ := Except.bind_eq_ok.mp hvisit
  exact enqueueIfValid_driven henv hq₁ hvisit

theorem processHeapObject_driven {object : Ptr} (henv : env.Sound)
    (h : processHeapObjectRecursive env m object none q = .ok q') : Driven env q q' := by
  obtain ⟨alloc, -, h⟩ := Except.bind_eq_ok.mp h
  cases alloc with
  | none => exact Except.ok.inj h ▸ .refl q
  | some t => exact processTyped_driven henv h

theorem scanRoots_driven (henv : env.Sound) (h : scanRoots env m q = .ok q') :
    Driven env q q' := by
  obtain ⟨q₁, h₁, h⟩ := Except.bind_eq_ok.mp h
  obtain ⟨q₂, h₂, h⟩ := Except.bind_eq_ok.mp h
  obtain ⟨q₃, h₃, h⟩ := Except.bind_eq_ok.mp h
  have hscan : ∀ {ι : Type} {word : ι → Nat} {is : List ι} {q q' : Queue},
      is.foldlM (fun q i => enqueueIfValid env m (word i) q) q = .ok q' → Driven env q q' := by
    intro ι word is q q' h
    exact foldlM_invariant (P := Driven env q)
      (fun _ _ _ hq h => enqueueIfValid_driven henv hq h) (.refl q) h
  have H₂ : Driven env q₁ q₂ := by
    simp only [scanStack] at h₂
    split at h₂
    · cases h₂
    split at h₂
    · cases h₂
    exact hscan h₂
  have H₄ : Driven env q₃ q' := by
    refine foldlM_invariant (P := Driven env q₃) (fun q a q' hq h => ?_) (.refl q₃) h
    split at h
    · split at h
      · exact Except.ok.inj h ▸ hq
      · exact hq.trans (.enqueue henv h)
    · exact Except.ok.inj h ▸ hq
  exact (hscan h₁).trans (H₂.trans ((hscan h₃).trans H₄))

theorem MarkStep.driven {r : Memory × Queue} (henv : env.Sound) (h : MarkStep env m q r) :
    Driven env q r.2 := by
  cases h with
  | traced _ _ _ _ hprocess _ hdequeue =>
    exact (processHeapObject_driven henv hprocess).trans (.dequeue hdequeue)
  | passed _ _ _ _ hdequeue => exact .dequeue hdequeue

theorem mark_driven {m' : Memory} (henv : env.Sound)
    (h : markReachableHeapObjects env fuel m q = .ok (m', q')) :
    Driven env q q' ∧ q'.head = 0 :=
  mark_invariant (P := fun r => Driven env q r.2)
    (fun _ _ hr hstep => hr.trans (hstep.driven henv)) (.refl q) h

/-- Whatever the heap looks like, a collection that returns has used the queue through the two
functions alone, and leaves it empty. -/
theorem gcCollect_driven (henv : env.Sound) (h : gcCollect env fuel s = .ok s') :
    Driven env s.queue s'.queue ∧ s'.queue.head = 0 := by
  obtain ⟨-, -, q, m₁, q', m', freed, hscan, hmark, -, rfl⟩ := gcCollect_steps h
  obtain ⟨H, hhead⟩ := mark_driven henv hmark
  exact ⟨(scanRoots_driven henv hscan).trans H, hhead⟩

/-! ## Whole runs -/

/-- The calls of the two functions that lead from the one queue to the other leave no node behind
that was not there before. -/
structure Drains (env : Env) (q q' : Queue) : Prop where
  driven : Driven env q q'
  head : q.head = 0 → q'.head = 0

namespace Drains

theorem refl (q : Queue) : Drains env q q := ⟨.refl q, id⟩

theorem trans {q'' : Queue} (h : Drains env q q') (h' : Drains env q' q'') : Drains env q q'' :=
  ⟨h.driven.trans h'.driven, fun hq => h'.head (h.head hq)⟩

end Drains

theorem trigger_drains {collects : Bool} (henv : env.Sound)
    (h : (if collects then gcCollect env fuel s else pure s) = .ok s₁) :
    Drains env s.queue s₁.queue := by
  cases collects with
  | true =>
    obtain ⟨H, hhead⟩ := gcCollect_driven henv h
    exact ⟨H, fun _ => hhead⟩
  | false => exact Except.ok.inj h ▸ .refl s.queue

theorem gcMalloc_drains {answer : AllocAnswer} (henv : env.Sound)
    (h : gcMalloc env fuel answer size s = .ok (ret, s')) : Drains env s.queue s'.queue := by
  obtain ⟨s₀, s₁, h₀, htrig, hcases⟩ := gcMalloc_cases h
  obtain ⟨-, rfl⟩ := semWait_ok h₀
  have hdrains := trigger_drains henv htrig
  have H : Drains env s.queue s₁.queue := hdrains
  cases hcases <;> exact H

theorem gcRealloc_drains {answer : ReallocAnswer} (henv : env.Sound) (hp : p ≠ 0)
    (h : gcRealloc env fuel answer p size s = .ok (ret, s')) : Drains env s.queue s'.queue := by
  by_cases hsize : size = 0
  · subst hsize
    obtain ⟨s₀, previous, next, m', h₀, -, -, -, -, rfl⟩ := gcRealloc_zero_steps hp h
    obtain ⟨-, rfl⟩ := semWait_ok h₀
    exact .refl s.queue
  · obtain ⟨s₀, m₁, m₂, s₂, m', h₀, -, -, hrealloc, -, rfl⟩ := gcRealloc_steps hp hsize h
    obtain ⟨-, rfl⟩ := semWait_ok h₀
    obtain ⟨s₁, htrig, hcases⟩ := dlrealloc_cases hrealloc
    have hdrains := trigger_drains henv htrig
    have H : Drains env s.queue s₁.queue := hdrains
    cases hcases <;> exact H

theorem Session.step_drains (henv : env.Sound) (h : x.step env fuel call = .ok x') :
    Drains env x.state.queue x'.state.queue := by
  obtain ⟨-, ret, s', hexec, rfl⟩ := Session.step_cases h
  cases exec_cases hexec with
  | malloc h => exact gcMalloc_drains henv h
  | reallocNull h => exact gcMalloc_drains henv h
  | realloc hp h => exact gcRealloc_drains henv hp h
  | collect h =>
    obtain ⟨H, hhead⟩ := gcCollect_driven henv h
    exact ⟨H, fun _ => hhead⟩
  | mutate => exact .refl x.state.queue

theorem Call.Enters.queue {t : State} (h : call.Enters env s t) : t.queue = s.queue := by
  cases h with
  | malloc _ h => exact (semWait_ok h).2 ▸ rfl
  | reallocNull _ h => exact (semWait_ok h).2 ▸ rfl
  | realloc _ _ _ h => exact (semWait_ok h).2 ▸ rfl
  | collect => rfl

/-- A queue without a node is the one before the first. -/
theorem Queue.Represents.eq_empty (h : q.Represents []) : q = .empty := by
  obtain ⟨ns, h⟩ := h
  obtain rfl : ns = [] := List.map_eq_nil_iff.mp h.objects
  obtain ⟨head, tail, nodes, used⟩ := q
  have hnodes : nodes = fun _ => none := funext fun a => by simpa using h.live a
  have hused : used = [] := List.eq_nil_iff_forall_not_mem.mpr fun a ha => by
    simpa using (h.used a).mp ha
  obtain rfl : head = 0 := h.seg
  obtain rfl : tail = 0 := h.tail
  rw [hnodes, hused]
  rfl

/-- The queue is a first-in first-out list. Every sequence of calls with succeeding allocations
returns, and leaves a chain of nodes with the objects that are to be taken; each node that the
private heap has lost again was lost once. The collector uses the queue in no other way, and both
pointers are NULL in every state that a run reaches and wherever a call enters `gc_collect`. -/
theorem workQueue_fifo (env : Env) :
    (∀ ops, Along (Op.exec env) Op.Allocates .empty ops →
      ∃ y ns, ops.foldlM (Ledger.step env) .start = .ok y ∧
        ops.foldlM (Op.exec env) .empty = .ok y.queue ∧
        y.Holds ns (contents ops) (objects ops) ∧ (y.queue.head = 0 ↔ y.queue.tail = 0)) ∧
    (env.Sound → ∀ fuel x x' calls, Started env x → x.run env fuel calls = .ok x' →
      Driven env .empty x'.state.queue ∧ x'.state.queue.head = 0 ∧ x'.state.queue.tail = 0 ∧
        ∀ (call : Call) (t : State), call.Enters env x'.state t →
          t.queue.head = 0 ∧ t.queue.tail = 0) := by
  constructor
  · intro ops hallocs
    obtain ⟨y, ns, hy, H⟩ := Ledger.start_holds.run hallocs
    have hqueue := Ledger.foldlM_queue env ops .start
    rw [hy] at hqueue
    have hq : y.queue.Represents (contents ops) := ⟨ns, H.queue⟩
    exact ⟨y, ns, hy, hqueue.symm, H, hq.head_eq_zero.trans hq.tail_eq_zero.symm⟩
  · intro henv fuel x x' calls hx h
    have H : Drains env x.state.queue x'.state.queue :=
      foldlM_invariant (P := fun y : Session => Drains env x.state.queue y.state.queue)
        (fun y call z hy hz => hy.trans (Session.step_drains henv hz)) (.refl _) h
    have hhead : x'.state.queue.head = 0 := H.head (hx.queue.head_eq_zero.mpr rfl)
    obtain ⟨l, hl⟩ := H.driven.represents hx.queue
    have htail : x'.state.queue.tail = 0 := hl.tail_eq_zero.mpr (hl.head_eq_zero.mp hhead)
    refine ⟨hx.queue.eq_empty ▸ H.driven, hhead, htail, fun call t ht => ?_⟩
    rw [ht.queue]
    exact ⟨hhead, htail⟩

/-- The queue becomes empty twice, and a node is handed out again at the address of a freed one. -/
def interleaved : List Op :=
  [.enqueue 16 1, .dequeue, .dequeue, .enqueue 32 2, .enqueue 16 3, .dequeue]

theorem interleaved_allocates : Along (Op.exec Env.flat) Op.Allocates .empty interleaved := by
  refine .cons ⟨by decide, by decide⟩ rfl ?_
  refine .cons trivial rfl (.cons trivial rfl ?_)
  refine .cons ⟨by decide, by decide⟩ rfl ?_
  refine .cons ⟨by decide, by decide⟩ rfl ?_
  exact .cons trivial rfl trivial

theorem workQueue_fifo_interleaved :
    (∃ y ns, interleaved.foldlM (Ledger.step Env.flat) .start = .ok y ∧
      interleaved.foldlM (Op.exec Env.flat) .empty = .ok y.queue ∧
      y.Holds ns [3] [1, 2, 3] ∧ (y.queue.head = 0 ↔ y.queue.tail = 0)) ∧
    ∃ x', startSession.run Env.flat 8 quietRun = .ok x' ∧
      Driven Env.flat .empty x'.state.queue ∧ x'.state.queue.head = 0 ∧
      x'.state.queue.tail = 0 ∧
      ∀ (call : Call) (t : State), call.Enters Env.flat x'.state t →
        t.queue.head = 0 ∧ t.queue.tail = 0 := by
  obtain ⟨hops, hruns⟩ := workQueue_fifo Env.flat
  obtain ⟨x', h, -⟩ := quietRun_returns
  exact ⟨hops interleaved interleaved_allocates, x', h,
    hruns Env.flat_sound 8 startSession x' quietRun startSession_started h⟩

end PrecisionGc
