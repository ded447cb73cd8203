import Mathlib.Data.List.Basic
import Mathlib.Order.WellFounded
import Mathlib.Data.Prod.Lex

/-!
# Marking a graph with a work list

A marker keeps a set of marked nodes and a queue. It takes the first node of the queue; if the node
may be expanded and is not marked yet, it appends the node's children to the queue and marks the
node, otherwise it drops the node. `Frontier` is the invariant of that search and
`Frontier.marked_iff` what it says when the queue is empty: a node is marked exactly when it may be
expanded and is reached from the seeds through expandable nodes.
-/

namespace Worklist

/-- Reached from the seeds through expandable nodes. -/
inductive Reach {α : Type*} (children : α → List α) (expand : α → Prop) (seeds : List α) : α → Prop
  | seed {x : α} : x ∈ seeds → Reach children expand seeds x
  | step {x y : α} : Reach children expand seeds x → expand x → y ∈ children x →
    Reach children expand seeds y

variable {α : Type*} {children : α → List α} {expand : α → Prop} {seeds q : List α}
  {marked : α → Prop} {x y : α}

/-- What can be expanded is reached from other seeds as well, if those reach the seeds that can be
expanded. -/
theorem Reach.reseed {seeds' : List α}
    (hseeds : ∀ x ∈ seeds, expand x → Reach children expand seeds' x)
    (h : Reach children expand seeds x) (hx : expand x) : Reach children expand seeds' x := by
  induction h with
  | seed hs => exact hseeds _ hs hx
  | step _ he hy ih => exact .step (ih he) he hy

/-- From seeds that cannot be expanded nothing else is reached. -/
theorem Reach.mem_seeds (hseeds : ∀ x ∈ seeds, ¬expand x) (h : Reach children expand seeds x) :
    x ∈ seeds := by
  induction h with
  | seed hs => exact hs
  | step _ he _ ih => exact absurd he (hseeds _ ih)

/-- Seeds that cannot be expanded and are not the target do not matter: it is enough to keep a part
of the seeds and of the children that contains every expandable node. -/
theorem Reach.restrict {children' : α → List α} {seeds' : List α}
    (hseeds : ∀ x ∈ seeds, expand x → x ∈ seeds')
    (hchildren : ∀ x, expand x → ∀ y ∈ children x, expand y → y ∈ children' x)
    (h : Reach children expand seeds x) (hx : expand x) : Reach children' expand seeds' x := by
  induction h with
  | seed hs => exact .seed (hseeds _ hs hx)
  | step _ he hy ih => exact .step (ih he) he (hchildren _ he _ hy hx)

theorem Reach.congr {children' : α → List α} {expand' : α → Prop}
    (hc : ∀ x, expand x → children' x = children x) (he : ∀ x, expand' x ↔ expand x) :
    Reach children' expand' seeds x ↔ Reach children expand seeds x := by
  constructor
  · intro h
    induction h with
    | seed hx => exact .seed hx
    | step _ hx hy ih =>
      have hx := (he _).mp hx
      exact .step ih hx (hc _ hx ▸ hy)
  · intro h
    induction h with
    | seed hx => exact .seed hx
    | step _ hx hy ih => exact .step ih ((he _).mpr hx) ((hc _ hx).symm ▸ hy)

/-- The invariant of the search: what is marked or queued is reached, and a marked node has passed
on every expandable child. -/
structure Frontier (children : α → List α) (expand : α → Prop) (seeds : List α)
    (marked : α → Prop) (q : List α) : Prop where
  markedReach : ∀ x, marked x → Reach children expand seeds x ∧ expand x
  queuedReach : ∀ x ∈ q, Reach children expand seeds x
  seedsSeen : ∀ x ∈ seeds, expand x → marked x ∨ x ∈ q
  childrenSeen : ∀ x, marked x → ∀ y ∈ children x, expand y → marked y ∨ y ∈ q

namespace Frontier

theorem start : Frontier children expand seeds (fun _ => False) seeds where
  markedReach _ h := h.elim
  queuedReach _ h := .seed h
  seedsSeen _ h _ := .inr h
  childrenSeen _ h := h.elim

/-- The head of the queue is expanded: its children join the queue and it is marked. -/
theorem visit (H : Frontier children expand seeds marked (x :: q)) (hx : expand x) :
    Frontier children expand seeds (fun y => y = x ∨ marked y) (q ++ children x) where
  markedReach := by
    rintro y (rfl | hy)
    · exact ⟨H.queuedReach _ List.mem_cons_self, hx⟩
    · exact H.markedReach y hy
  queuedReach y hy := by
    rcases List.mem_append.mp hy with hy | hy
    · exact H.queuedReach y (List.mem_cons_of_mem _ hy)
    · exact .step (H.queuedReach x List.mem_cons_self) hx hy
  seedsSeen y hy he := by
    rcases H.seedsSeen y hy he with h | h
    · exact .inl (.inr h)
    rcases List.mem_cons.mp h with rfl | h
    · exact .inl (.inl rfl)
    · exact .inr (List.mem_append_left _ h)
  childrenSeen := by
    rintro z (rfl | hz) y hy he
    · exact .inr (List.mem_append_right _ hy)
    rcases H.childrenSeen z hz y hy he with h | h
    · exact .inl (.inr h)
    rcases List.mem_cons.mp h with rfl | h
    · exact .inl (.inl rfl)
    · exact .inr (List.mem_append_left _ h)

/-- The head of the queue is dropped: it is marked already, or cannot be expanded. -/
theorem skip (H : Frontier children expand seeds marked (x :: q)) (hx : marked x ∨ ¬expand x) :
    Frontier children expand seeds marked q where
  markedReach := H.markedReach
  queuedReach y hy := H.queuedReach y (List.mem_cons_of_mem _ hy)
  seedsSeen y hy he := by
    rcases H.seedsSeen y hy he with h | h
    · exact .inl h
    rcases List.mem_cons.mp h with rfl | h
    · exact .inl (hx.resolve_right fun h => h he)
    · exact .inr h
  childrenSeen z hz y hy he := by
    rcases H.childrenSeen z hz y hy he with h | h
    · exact .inl h
    rcases List.mem_cons.mp h with rfl | h
    · exact .inl (hx.resolve_right fun h => h he)
    · exact .inr h

/-- A search that has run dry has marked what it had to mark. -/
theorem marked_iff (H : Frontier children expand seeds marked []) :
    marked x ↔ Reach children expand seeds x ∧ expand x := by
  refine ⟨H.markedReach x, ?_⟩
  rintro ⟨hr, he⟩
  induction hr with
  | seed hx => exact (H.seedsSeen _ hx he).resolve_right List.not_mem_nil
  | step _ hp hy ih => exact (H.childrenSeen _ (ih hp) _ hy he).resolve_right List.not_mem_nil

end Frontier

/-! ## The measure of the search

With a finite list of nodes that may be expanded, every round either marks one of them or shortens
the queue. -/

/-- The pairs of unmarked nodes and queue length, in lexicographic order. -/
def Shrinks (p p' : Nat × Nat) : Prop := Prod.Lex (· < ·) (· < ·) p p'

theorem shrinks_wf : WellFounded Shrinks := (Prod.lex Nat.lt_wfRel Nat.lt_wfRel).wf

theorem shrinks_of_marked {i j k l : Nat} (h : i < j) : Shrinks (i, k) (j, l) := .left _ _ h

theorem shrinks_of_queue {i k l : Nat} (h : k < l) : Shrinks (i, k) (i, l) := .right _ h

open Classical in
/-- How many nodes of `U` are not marked. -/
noncomputable def unmarked (U : List α) (marked : α → Prop) : Nat :=
  (U.filter fun y => ¬marked y).length

open Classical in
/-- Marking a node of `U` leaves fewer unmarked nodes in `U`. -/
theorem unmarked_lt {U : List α} (hx : x ∈ U) (hn : ¬marked x) :
    unmarked U (fun y => y = x ∨ marked y) < unmarked U marked := by
  have hsub : unmarked U (fun y => y = x ∨ marked y) =
      ((U.filter fun y => ¬marked y).filter fun y => y ≠ x).length := by
    rw [unmarked, List.filter_filter]
    refine congrArg List.length (List.filter_congr fun y _ => ?_)
    by_cases h1 : y = x <;> by_cases h2 : marked y <;> simp [h1, h2]
  have hmem : x ∈ U.filter fun y => ¬marked y := List.mem_filter.mpr ⟨hx, by simpa using hn⟩
  rw [hsub]
  exact List.length_filter_lt_length_iff_exists.mpr ⟨x, hmem, by simp⟩

end Worklist
