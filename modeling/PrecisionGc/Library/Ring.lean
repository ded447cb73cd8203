import Mathlib.Data.List.Basic
import Mathlib.Data.List.Nodup

/-!
# Rings of doubly linked nodes

`Path next prev a l c` says that `next` leads from `a` along the nodes of `l` to `c`, and that
`prev` leads back. A ring is a path that ends where it starts. A node is pushed behind another one,
or removed, by writing the links of its two neighbours.
-/

namespace Ring

universe u

variable {α : Type u} {next next' prev prev' : α → α} {a b c x : α} {l l₁ l₂ : List α}

/-- The links lead from `a` along `l` to `c`, and back. -/
def Path (next prev : α → α) : α → List α → α → Prop
  | a, [], c => next a = c ∧ prev c = a
  | a, b :: l, c => next a = b ∧ prev b = a ∧ Path next prev b l c

@[simp] theorem path_nil : Path next prev a [] c ↔ next a = c ∧ prev c = a := Iff.rfl

@[simp] theorem path_cons :
    Path next prev a (b :: l) c ↔ next a = b ∧ prev b = a ∧ Path next prev b l c := Iff.rfl

theorem path_append :
    Path next prev a (l₁ ++ b :: l₂) c ↔ Path next prev a l₁ b ∧ Path next prev b l₂ c := by
  induction l₁ generalizing a with
  | nil => simp [and_assoc]
  | cons d l₁ ih => simp [ih, and_assoc]

namespace Path

theorem congr (h : Path next prev a l c) (hnext : ∀ b ∈ a :: l, next' b = next b)
    (hprev : ∀ b ∈ l ++ [c], prev' b = prev b) : Path next' prev' a l c := by
  induction l generalizing a with
  | nil =>
    obtain ⟨hn, hp⟩ := h
    exact ⟨(hnext a List.mem_cons_self).trans hn, (hprev c List.mem_cons_self).trans hp⟩
  | cons b l ih =>
    obtain ⟨hn, hp, h⟩ := h
    exact ⟨(hnext a List.mem_cons_self).trans hn, (hprev b List.mem_cons_self).trans hp,
      ih h (fun x hx => hnext x (List.mem_cons_of_mem _ hx))
        fun x hx => hprev x (List.mem_cons_of_mem _ hx)⟩

theorem next_eq (h : Path next prev a l c) : next a = l.head?.getD c := by
  cases l with
  | nil => exact h.1
  | cons => exact h.1

theorem prev_eq (h : Path next prev a l c) : prev c = l.getLast?.getD a := by
  induction l generalizing a with
  | nil => exact h.2
  | cons b l ih =>
    rw [ih h.2.2]
    cases l <;> simp [List.getLast?_cons]

theorem next_mem (h : Path next prev a l c) (hx : x ∈ a :: l) : next x ∈ l ++ [c] := by
  induction l generalizing a with
  | nil =>
    obtain rfl := List.mem_singleton.mp hx
    simp [h.1]
  | cons b l ih =>
    obtain ⟨hn, -, h⟩ := h
    rcases List.mem_cons.mp hx with rfl | hx
    · simp [hn]
    · exact List.mem_cons_of_mem _ (ih h hx)

theorem prev_mem (h : Path next prev a l c) (hx : x ∈ l ++ [c]) : prev x ∈ a :: l := by
  induction l generalizing a with
  | nil =>
    obtain rfl := List.mem_singleton.mp hx
    simp [h.2]
  | cons b l ih =>
    obtain ⟨-, hp, h⟩ := h
    rcases List.mem_cons.mp hx with rfl | hx
    · simp [hp]
    · exact List.mem_cons_of_mem _ (ih h hx)

theorem prev_next (h : Path next prev a l c) (hx : x ∈ a :: l) : prev (next x) = x := by
  induction l generalizing a with
  | nil =>
    obtain rfl := List.mem_singleton.mp hx
    rw [h.1, h.2]
  | cons b l ih =>
    obtain ⟨hn, hp, h⟩ := h
    rcases List.mem_cons.mp hx with rfl | hx
    · rw [hn, hp]
    · exact ih h hx

theorem next_prev (h : Path next prev a l c) (hx : x ∈ l ++ [c]) : next (prev x) = x := by
  induction l generalizing a with
  | nil =>
    obtain rfl := List.mem_singleton.mp hx
    rw [h.2, h.1]
  | cons b l ih =>
    obtain ⟨hn, hp, h⟩ := h
    rcases List.mem_cons.mp hx with rfl | hx
    · rw [hp, hn]
    · exact ih h hx

/-- A node is pushed behind the first one. -/
theorem push (h : Path next prev a l c) (hnodup : (l ++ [c]).Nodup) (ha : next' a = x)
    (hx : next' x = next a) (hprev : prev' x = a) (hback : prev' (next a) = x)
    (hn : ∀ b ∈ l, next' b = next b) (hp : ∀ b ∈ l ++ [c], b ≠ next a → prev' b = prev b) :
    Path next' prev' a (x :: l) c := by
  refine ⟨ha, hprev, ?_⟩
  cases l with
  | nil =>
    obtain ⟨hc, -⟩ := h
    exact ⟨hx.trans hc, hc ▸ hback⟩
  | cons b l =>
    obtain ⟨hb, -, h⟩ := h
    refine ⟨hx.trans hb, hb ▸ hback, h.congr hn fun y hy => hp y (List.mem_cons_of_mem _ hy) ?_⟩
    rintro rfl
    exact (List.nodup_cons.mp hnodup).1 (hb ▸ hy)

/-- A node is removed. -/
theorem remove (h : Path next prev a (l₁ ++ x :: l₂) c) (hnodup : (a :: (l₁ ++ l₂)).Nodup)
    (hnodup' : (l₁ ++ l₂ ++ [c]).Nodup) (hnext : next' (prev x) = next x)
    (hprev : prev' (next x) = prev x)
    (hn : ∀ b ∈ a :: (l₁ ++ l₂), b ≠ prev x → next' b = next b)
    (hp : ∀ b ∈ l₁ ++ l₂ ++ [c], b ≠ next x → prev' b = prev b) :
    Path next' prev' a (l₁ ++ l₂) c := by
  induction l₁ generalizing a with
  | nil =>
    obtain ⟨ha, hx, h⟩ := h
    rw [List.nil_append] at hnodup hnodup' hn hp ⊢
    cases l₂ with
    | nil =>
      obtain ⟨hc, -⟩ := h
      exact ⟨by rw [← hx, hnext, hc], by rw [← hc, hprev, hx]⟩
    | cons b l₂ =>
      obtain ⟨hb, hbx, h⟩ := h
      refine ⟨by rw [← hx, hnext, hb], by rw [← hb, hprev, hx],
        h.congr (fun y hy => hn y (List.mem_cons_of_mem _ hy) ?_) fun y hy =>
          hp y (List.mem_cons_of_mem _ hy) ?_⟩
      · rintro rfl
        exact (List.nodup_cons.mp hnodup).1 (hx ▸ hy)
      · rintro rfl
        exact (List.nodup_cons.mp hnodup').1 (hb ▸ hy)
  | cons b l₁ ih =>
    obtain ⟨ha, hb, h⟩ := h
    have hxp : prev x ∈ b :: l₁ := (path_append.mp h).1.prev_mem (by simp)
    have hxn : next x ∈ l₂ ++ [c] := (path_append.mp h).2.next_mem List.mem_cons_self
    have hnodup₁ := (List.nodup_cons.mp hnodup)
    have hnodup₂ := (List.nodup_cons.mp (show (b :: (l₁ ++ l₂ ++ [c])).Nodup from hnodup'))
    refine ⟨(hn a List.mem_cons_self ?_).trans ha, (hp b List.mem_cons_self ?_).trans hb,
      ih h hnodup₁.2 hnodup₂.2 (fun y hy => hn y (List.mem_cons_of_mem _ hy)) fun y hy =>
        hp y (List.mem_cons_of_mem _ hy)⟩
    · rintro rfl
      refine hnodup₁.1 ?_
      rcases List.mem_cons.mp hxp with heq | hmem
      · simp [heq]
      · simp [hmem]
    · rintro rfl
      exact hnodup₂.1 (by rw [List.append_assoc]; exact List.mem_append_right _ hxn)

/-- A ring, from its last node on. -/
theorem rotate_last (h : Path next prev a (l ++ [b]) a) : Path next prev b (a :: l) b := by
  obtain ⟨hl, hn, hp⟩ := path_append.mp h
  exact ⟨hn, hp, hl⟩

/-- Only a ring of one node is linked to itself. -/
theorem prev_ne (h : Path next prev a l a) (hnodup : (l ++ [a]).Nodup) (hl : l ≠ [])
    (hx : x ∈ l ++ [a]) : prev x ≠ x := by
  rw [List.nodup_append] at hnodup
  obtain ⟨hnd, -, hla⟩ := hnodup
  rcases List.mem_append.mp hx with hx | hx
  · obtain ⟨l₁, l₂, rfl⟩ := List.append_of_mem hx
    have hprev := (path_append.mp h).1.prev_mem (x := x) (by simp)
    rw [List.nodup_append] at hnd
    rcases List.mem_cons.mp hprev with heq | hmem
    · rw [heq]
      exact (hla x hx a List.mem_cons_self).symm
    · intro heq
      exact hnd.2.2 x (heq ▸ hmem) x List.mem_cons_self rfl
  · obtain rfl := List.mem_singleton.mp hx
    obtain ⟨l, b, rfl⟩ := List.eq_nil_or_concat' l |>.resolve_left hl
    rw [h.rotate_last.2.1]
    exact hla b (by simp) x List.mem_cons_self

end Path

end Ring
