import Mathlib.Data.List.Basic
import Mathlib.Data.List.Nodup

/-!
# The collected heap as a list of blocks

What the collected heap is to its user: the blocks handed out, newest first. A collection retains
those that satisfy a condition, in their order, and frees the others (`kept`, `swept`); a call then
adds a block, gives one up or puts one in the place of another (`Change`).
-/

namespace AbstractHeap

variable {α : Type*} {keep : α → Prop} {l l' : List α} {x : α}

open Classical in
/-- The blocks that a collection keeps, in their order. -/
noncomputable def kept (keep : α → Prop) (l : List α) : List α := l.filter fun x => keep x

open Classical in
/-- The blocks that a collection frees, in their order. -/
noncomputable def swept (keep : α → Prop) (l : List α) : List α := l.filter fun x => ¬keep x

@[simp] theorem mem_kept : x ∈ kept keep l ↔ x ∈ l ∧ keep x := by simp [kept]

@[simp] theorem mem_swept : x ∈ swept keep l ↔ x ∈ l ∧ ¬keep x := by simp [swept]

theorem kept_append : kept keep (l ++ l') = kept keep l ++ kept keep l' := List.filter_append _ _

theorem swept_append : swept keep (l ++ l') = swept keep l ++ swept keep l' :=
  List.filter_append _ _

theorem kept_singleton (h : keep x) : kept keep [x] = [x] := by simp [kept, h]

theorem kept_singleton_of_not (h : ¬keep x) : kept keep [x] = [] := by simp [kept, h]

theorem swept_singleton (h : ¬keep x) : swept keep [x] = [x] := by simp [swept, h]

theorem swept_singleton_of_not (h : keep x) : swept keep [x] = [] := by simp [swept, h]

theorem kept_sublist : (kept keep l).Sublist l := List.filter_sublist

theorem swept_sublist : (swept keep l).Sublist l := List.filter_sublist

/-- The last block stays the last one if it is kept. -/
theorem getLastD_kept {d : α} (h : ∀ x, l.getLast? = some x → keep x) :
    (kept keep l).getLastD d = l.getLastD d := by
  rcases List.eq_nil_or_concat l with rfl | ⟨l, x, rfl⟩
  · rfl
  · rw [List.concat_eq_append, kept_append, kept_singleton (h x (by simp))]
    simp

theorem kept_congr {keep' : α → Prop} (h : ∀ x ∈ l, keep x ↔ keep' x) :
    kept keep l = kept keep' l := List.filter_congr fun x hx => by simp [h x hx]

theorem kept_eq_self (h : ∀ x ∈ l, keep x) : kept keep l = l :=
  List.filter_eq_self.mpr fun x hx => by simp [h x hx]

/-! ## What a call does to the list -/

/-- The change that a call makes to the blocks that are left. -/
inductive Change (α : Type*)
  | none
  | push (n : α)
  | remove (p : α)
  | replace (p n : α)

namespace Change

variable [DecidableEq α] {A B : List α} {p n : α}

def apply : Change α → List α → List α
  | none, l => l
  | push n, l => n :: l
  | remove p, l => l.filter (· ≠ p)
  | replace p n, l => l.map fun x => if x = p then n else x

theorem remove_append (hA : p ∉ A) (hB : p ∉ B) : (remove p).apply (A ++ p :: B) = A ++ B := by
  have hself : ∀ {l : List α}, p ∉ l → l.filter (· ≠ p) = l := fun hl =>
    List.filter_eq_self.mpr fun x hx => by simp [ne_of_mem_of_not_mem hx hl]
  simp only [apply, List.filter_append, List.filter_cons, ne_eq, not_true_eq_false, decide_false,
    Bool.false_eq_true, if_false]
  exact congrArg₂ _ (hself hA) (hself hB)

theorem replace_append (hA : p ∉ A) (hB : p ∉ B) :
    (replace p n).apply (A ++ p :: B) = A ++ n :: B := by
  have hself : ∀ {l : List α}, p ∉ l → (l.map fun x => if x = p then n else x) = l := fun hl =>
    (List.map_congr_left fun x hx => if_neg (ne_of_mem_of_not_mem hx hl)).trans (List.map_id' _)
  simp only [apply, List.map_append, List.map_cons, if_true]
  rw [hself hA, hself hB]

theorem mem_replace (hp : p ∈ l) : x ∈ (replace p n).apply l ↔ x = n ∨ x ∈ l ∧ x ≠ p := by
  simp only [apply, List.mem_map]
  constructor
  · rintro ⟨y, hy, rfl⟩
    by_cases hyp : y = p
    · simp [hyp]
    · exact .inr (by simp [hyp, hy])
  · rintro (rfl | ⟨hx, hxp⟩)
    · exact ⟨p, hp, if_pos rfl⟩
    · exact ⟨x, hx, if_neg hxp⟩

end Change
end AbstractHeap
