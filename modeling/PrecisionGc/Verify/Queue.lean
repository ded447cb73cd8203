import PrecisionGc.Library.LinkedList
import PrecisionGc.Theory.Environment

/-!
# The queue holds a list

`Queue.Holds q ns l` says that the private nodes of the queue are the chain `ns` and carry the
objects `l` in this order. Enqueueing appends and dequeueing takes the front away; neither touches
a node that is not in use. A computation that does nothing to the queue but append a list of
objects is described by `Appends`, so that scans and traces compose.
-/

namespace PrecisionGc
open LinkedList

namespace Queue

/-- The link of a node, NULL for an address that holds none. -/
def next (q : Queue) (a : Nat) : Nat := (q.nodes a).elim 0 (·.next)

def heapObject (q : Queue) (a : Nat) : Nat := (q.nodes a).elim 0 (·.heapObject)

/-- The nodes in use are the chain `ns` from `q_head` to `q_tail`, with the objects `l`. -/
structure Holds (q : Queue) (ns l : List Nat) : Prop where
  seg : Seg q.next 0 q.head ns 0
  tail : q.tail = ns.getLastD 0
  objects : ns.map q.heapObject = l
  live : ∀ a, (q.nodes a).isSome ↔ a ∈ ns
  used : ∀ a, a ∈ q.used ↔ a ∈ ns
  nodup : ns.Nodup
  usedNodup : q.used.Nodup

/-- The queue holds the objects `l`, oldest first. -/
def Represents (q : Queue) (l : List Nat) : Prop := ∃ ns, q.Holds ns l

variable {env : Env} {q : Queue} {ns l : List Nat} {w : Nat}

theorem empty_represents : empty.Represents [] :=
  ⟨[], rfl, rfl, rfl, by simp [empty], by simp [empty], .nil, .nil⟩

theorem Holds.node_eq (h : q.Holds ns l) {a : Nat} (ha : a ∈ ns) :
    q.node a = .ok ⟨q.heapObject a, q.next a⟩ := by
  obtain ⟨n, hn⟩ := Option.isSome_iff_exists.mp ((h.live a).mpr ha)
  simp [node, hn, heapObject, next]

/-- `q_head` is NULL exactly when nothing is queued. -/
theorem Represents.head_eq_zero (h : q.Represents l) : q.head = 0 ↔ l = [] := by
  obtain ⟨ns, h⟩ := h
  rw [← h.seg.eq_nil_iff, ← h.objects, List.map_eq_nil_iff]

/-- `q_tail` is NULL exactly when nothing is queued. -/
theorem Represents.tail_eq_zero (h : q.Represents l) : q.tail = 0 ↔ l = [] := by
  obtain ⟨ns, h⟩ := h
  rw [h.tail, ← h.objects, List.map_eq_nil_iff]
  rcases List.eq_nil_or_concat ns with rfl | ⟨ns', a, rfl⟩
  · simp
  · simpa using h.seg.ne_nil (b := a) (by simp)

/-- The contents of a queue are determined. -/
theorem Represents.unique {l' : List Nat} (h : q.Represents l) (h' : q.Represents l') :
    l = l' := by
  obtain ⟨ns, h⟩ := h
  obtain ⟨ns', h'⟩ := h'
  rw [← h.objects, ← h'.objects, h.seg.unique h'.seg]

theorem enqueue_empty (h : q.Holds [] l) (hw : env.privateMalloc q.used ≠ 0) :
    ∃ q', q.enqueueHeapQueueNode env w = .ok q' ∧
      q'.Holds [env.privateMalloc q.used] (l ++ [w]) := by
  have hhead : q.head = 0 := h.seg
  have htail : q.tail = 0 := h.tail
  have hl : l = [] := h.objects.symm
  have hused : q.used = [] := List.eq_nil_iff_forall_not_mem.mpr (by simpa using h.used)
  have hnone : ∀ a, q.nodes a = none := by simpa using h.live
  refine ⟨_, by simp [enqueueHeapQueueNode, alloc, setNode, hhead, htail]; rfl, ?_⟩
  constructor
  · exact ⟨rfl, hw, by simp [next]⟩
  · rfl
  · simp [heapObject, hl]
  · intro a
    by_cases ha : a = env.privateMalloc q.used <;> simp [ha, hnone]
  · intro a; simp [hused]
  · simp
  · simp [hused]

/-- The chain grows by the node `a` when its last node `t` is linked to it. -/
theorem Holds.append {q' : Queue} {ns₀ : List Nat} {t a : Nat} (h : q.Holds (ns₀ ++ [t]) l)
    (ha : a ≠ 0) (hfresh : a ∉ q.used) (hhead : q'.head = q.head) (htail : q'.tail = a)
    (hused : q'.used = a :: q.used) (hlast : q'.nodes t = some ⟨q.heapObject t, a⟩)
    (hnew : q'.nodes a = some ⟨w, 0⟩)
    (hother : ∀ b, b ≠ t → b ≠ a → q'.nodes b = q.nodes b) :
    q'.Holds (ns₀ ++ [t] ++ [a]) (l ++ [w]) := by
  have hnot : a ∉ ns₀ ++ [t] := fun hm => hfresh ((h.used a).mpr hm)
  have hnt : t ∉ ns₀ := fun ht => (List.nodup_append.mp h.nodup).2.2 t ht t (by simp) rfl
  have hsame : ∀ b ∈ ns₀, q'.nodes b = q.nodes b := fun b hb =>
    hother b (fun e => hnt (e ▸ hb)) (fun e => hnot (by simp [← e, hb]))
  constructor
  · have hseg := h.seg.relink (show Seg q'.next 0 a [a] 0 from ⟨rfl, ha, by simp [next, hnew]⟩)
      (fun b hb => by simp only [next, hsame b (by simpa using hb)])
      (fun b hb => by
        obtain rfl : t = b := by simpa using hb
        simp [next, hlast])
    simpa [hhead] using hseg
  · simp [htail]
  · have hobj : ∀ b ∈ ns₀, q'.heapObject b = q.heapObject b := fun b hb => by
      simp only [heapObject, hsame b hb]
    rw [← h.objects]
    simp only [List.map_append, List.map_cons, List.map_nil, List.map_congr_left hobj]
    simp [heapObject, hlast, hnew]
  · intro b
    by_cases hbt : b = t
    · simp [hbt, hlast]
    by_cases hba : b = a
    · simp [hba, hnew]
    rw [hother b hbt hba, h.live]
    simp [hba]
  · intro b
    rw [hused, List.mem_cons, h.used, List.mem_append (t := [a]), List.mem_singleton, or_comm]
  · refine List.nodup_append.mpr ⟨h.nodup, by simp, ?_⟩
    rintro b hb c hc rfl
    exact hnot (List.mem_singleton.mp hc ▸ hb)
  · rw [hused]
    exact List.nodup_cons.mpr ⟨hfresh, h.usedNodup⟩

theorem enqueue_cons (h : q.Holds ns l) (hns : ns ≠ [])
    (hw : env.privateMalloc q.used ≠ 0) (hfresh : env.privateMalloc q.used ∉ q.used) :
    ∃ q', q.enqueueHeapQueueNode env w = .ok q' ∧
      q'.Holds (ns ++ [env.privateMalloc q.used]) (l ++ [w]) := by
  obtain ⟨ns₀, t, rfl⟩ : ∃ ns₀ t, ns = ns₀ ++ [t] :=
    ⟨ns.dropLast, ns.getLast hns, (List.dropLast_append_getLast hns).symm⟩
  have htail : q.tail = t := by simpa using h.tail
  have htail0 : t ≠ 0 := h.seg.ne_nil (by simp)
  unfold enqueueHeapQueueNode
  generalize env.privateMalloc q.used = a at hw hfresh ⊢
  have hta : t ≠ a := fun e => hfresh ((h.used a).mpr (by simp [e]))
  have hnode : (q.alloc a w).node t = .ok ⟨q.heapObject t, q.next t⟩ := by
    simpa [node, alloc, setNode, Function.update_of_ne hta] using h.node_eq (a := t) (by simp)
  have hat : (q.alloc a w).tail = t := htail
  refine ⟨{ (q.alloc a w).setNode t ⟨q.heapObject t, a⟩ with tail := a }, ?_, ?_⟩
  · simp only [hat, htail0, if_false, hnode]
    rfl
  refine h.append hw hfresh rfl rfl rfl (by simp [setNode]) ?_ fun b hbt hba => ?_
  · simp [setNode, alloc, Function.update_of_ne hta.symm]
  · simp [setNode, alloc, Function.update_of_ne hbt, Function.update_of_ne hba]

/-- Enqueueing appends a node that the private allocator has handed out. -/
theorem Holds.enqueue (h : q.Holds ns l) (hw : env.privateMalloc q.used ≠ 0)
    (hfresh : env.privateMalloc q.used ∉ q.used) :
    ∃ q', q.enqueueHeapQueueNode env w = .ok q' ∧
      q'.Holds (ns ++ [env.privateMalloc q.used]) (l ++ [w]) := by
  by_cases hns : ns = []
  · subst hns
    exact enqueue_empty h hw
  · exact enqueue_cons h hns hw hfresh

/-- Enqueueing appends. -/
theorem Represents.enqueue (henv : env.Sound) (h : q.Represents l) (w : Nat) :
    ∃ q', q.enqueueHeapQueueNode env w = .ok q' ∧ q'.Represents (l ++ [w]) := by
  obtain ⟨ns, h⟩ := h
  obtain ⟨hw, hfresh⟩ := henv.privateMalloc q.used
  obtain ⟨q', hq, h'⟩ := h.enqueue hw hfresh
  exact ⟨q', hq, _, h'⟩

/-- The first node carries the first object. -/
theorem Represents.first (h : q.Represents (w :: l)) :
    ∃ n, q.node q.head = .ok n ∧ n.heapObject = w := by
  obtain ⟨ns, h⟩ := h
  cases ns with
  | nil => cases h.objects
  | cons a ns =>
    rw [show q.head = a from h.seg.1]
    exact ⟨_, h.node_eq List.mem_cons_self, (List.cons.inj h.objects).1⟩

/-- The chain loses its first node. -/
theorem Holds.tail_of_cons {q' : Queue} {a : Nat} (h : q.Holds (a :: ns) (w :: l))
    (hhead : q'.head = q.next a) (htail : q'.tail = if q.next a = 0 then 0 else q.tail)
    (hused : q'.used = q.used.erase a) (hnodes : q'.nodes = Function.update q.nodes a none) :
    q'.Holds ns l := by
  obtain ⟨-, ha, hseg⟩ := h.seg
  obtain ⟨hnot, hnd⟩ := List.nodup_cons.mp h.nodup
  have hsame : ∀ b ∈ ns, q'.nodes b = q.nodes b := fun b hb => by
    have hba : b ≠ a := fun e => hnot (e ▸ hb)
    rw [hnodes, Function.update_of_ne hba]
  constructor
  · rw [hhead]
    exact hseg.congr fun b hb => by simp only [next, hsame b hb]
  · rw [htail, h.tail]
    cases ns with
    | nil => simp [show q.next a = 0 from hseg]
    | cons b ns => simp [show q.next a = b from hseg.1, hseg.2.1]
  · rw [← (List.cons.inj h.objects).2]
    exact List.map_congr_left fun b hb => by simp only [heapObject, hsame b hb]
  · intro b
    by_cases hb : b = a
    · simp [hb, hnodes, hnot]
    · rw [hnodes, Function.update_of_ne hb, h.live]
      simp [hb]
  · intro b
    rw [hused, h.usedNodup.mem_erase_iff, h.used, List.mem_cons]
    constructor
    · rintro ⟨hb, rfl | hm⟩
      · exact absurd rfl hb
      · exact hm
    · exact fun hm => ⟨fun e => hnot (e ▸ hm), .inr hm⟩
  · exact hnd
  · rw [hused]
    exact h.usedNodup.erase a

/-- Dequeueing frees the first node and keeps the rest. -/
theorem Holds.dequeue {a : Nat} (h : q.Holds (a :: ns) (w :: l)) :
    ∃ q', q.dequeueHeapQueueNode = .ok q' ∧ q'.Holds ns l := by
  have hhead : q.head = a := h.seg.1
  have ha : a ≠ 0 := h.seg.2.1
  have hnode := h.node_eq (a := a) List.mem_cons_self
  refine ⟨⟨q.next a, if q.next a = 0 then 0 else q.tail, Function.update q.nodes a none,
    q.used.erase a⟩, ?_, h.tail_of_cons rfl rfl rfl rfl⟩
  simp only [dequeueHeapQueueNode, hhead, ha, if_false, hnode]
  by_cases h0 : q.next a = 0
  · simp only [bind, Except.bind, h0, if_true, privateFree]
    rw [show node ⟨0, 0, q.nodes, q.used⟩ a = _ from hnode]
    rfl
  · simp only [bind, Except.bind, h0, if_false, privateFree]
    rw [show node ⟨q.next a, q.tail, q.nodes, q.used⟩ a = _ from hnode]
    rfl

/-- On an empty queue it does nothing. -/
theorem Holds.dequeue_nil (h : q.Holds [] l) : q.dequeueHeapQueueNode = .ok q := by
  have hhead : q.head = 0 := h.seg
  simp [dequeueHeapQueueNode, hhead]

theorem Represents.dequeue (h : q.Represents (w :: l)) :
    ∃ q', q.dequeueHeapQueueNode = .ok q' ∧ q'.Represents l := by
  obtain ⟨ns, h⟩ := h
  cases ns with
  | nil => cases h.objects
  | cons a ns =>
    obtain ⟨q', hq, h'⟩ := h.dequeue
    exact ⟨q', hq, ns, h'⟩

end Queue

/-! ## Computations that append -/

/-- Whatever the queue holds, `f` succeeds and appends `ws`. -/
def Appends (f : Queue → Except Fault Queue) (ws : List Nat) : Prop :=
  ∀ q l, q.Represents l → ∃ q', f q = .ok q' ∧ q'.Represents (l ++ ws)

namespace Appends

variable {env : Env} {f g : Queue → Except Fault Queue} {ws ws' : List Nat}

theorem nothing : Appends pure [] := fun q l h => ⟨q, rfl, by simpa using h⟩

theorem congr (hf : Appends f ws) (h : ∀ q, g q = f q) : Appends g ws := by
  obtain rfl : g = f := funext h
  exact hf

theorem enqueue (henv : env.Sound) (w : Nat) : Appends (·.enqueueHeapQueueNode env w) [w] :=
  fun _ _ h => h.enqueue henv w

theorem bind (hf : Appends f ws) (hg : Appends g ws') :
    Appends (fun q => f q >>= g) (ws ++ ws') := by
  intro q l h
  obtain ⟨q₁, h₁, hq₁⟩ := hf q l h
  obtain ⟨q₂, h₂, hq₂⟩ := hg q₁ _ hq₁
  refine ⟨q₂, ?_, by simpa using hq₂⟩
  simp only [h₁]
  exact h₂

/-- A loop appends what its rounds append, one after the other. -/
theorem foldlM {ι : Type*} {f : Queue → ι → Except Fault Queue} {ws : ι → List Nat}
    {is : List ι} (h : ∀ i ∈ is, Appends (f · i) (ws i)) :
    Appends (fun q => is.foldlM f q) (is.flatMap ws) := by
  induction is with
  | nil => exact nothing
  | cons i is ih =>
    have hi := h i List.mem_cons_self
    have his := ih fun j hj => h j (List.mem_cons_of_mem _ hj)
    simpa only [List.foldlM_cons, List.flatMap_cons] using hi.bind his

/-- What a run that returned has appended. -/
theorem of_eq_ok (hf : Appends f ws) {q q' : Queue} {l : List Nat} (hq : q.Represents l)
    (h : f q = .ok q') : q'.Represents (l ++ ws) := by
  obtain ⟨q₁, h₁, hq₁⟩ := hf q l hq
  rw [h] at h₁
  exact Except.ok.inj h₁ ▸ hq₁

/-- What is appended is determined. -/
theorem unique (hf : Appends f ws) (hf' : Appends f ws') : ws = ws' := by
  obtain ⟨q, h, hq⟩ := hf _ _ Queue.empty_represents
  exact hq.unique (hf'.of_eq_ok Queue.empty_represents h)

end Appends
end PrecisionGc
