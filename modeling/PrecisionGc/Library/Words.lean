import Mathlib.Data.List.Basic
import Mathlib.Data.List.TakeWhile

/-!
# Words of a text

The words of a text are its maximal parts without a separator. `afterWord` is what is left of a text
when its first word and the separator behind that have been passed; it has the words but the first.
-/

namespace Words

variable {α : Type*} (sep : α → Bool) {l w : List α} {c : α}

/-- The maximal parts without a separator. -/
def words (l : List α) : List (List α) := (l.splitOnP sep).filter (!·.isEmpty)

/-- What is left behind the first word and the separator that ends it. -/
def afterWord (l : List α) : List α := ((l.dropWhile sep).dropWhile (!sep ·)).tail

variable {sep}

@[simp] theorem words_nil : words sep [] = [] := by simp [words]

/-- A separator splits the text. -/
theorem words_append_cons (hc : sep c = true) (l₁ l₂ : List α) :
    words sep (l₁ ++ c :: l₂) = words sep l₁ ++ words sep l₂ := by
  rw [words, List.splitOnP_append_cons _ _ hc, List.filter_append]
  rfl

theorem words_cons (hc : sep c = true) (l : List α) : words sep (c :: l) = words sep l := by
  simpa using words_append_cons hc [] l

/-- A word is the only one of itself. -/
theorem words_word (hw : ∀ c ∈ w, sep c = false) (hne : w ≠ []) : words sep w = [w] := by
  rw [words, List.splitOnP_eq_singleton hw]
  simpa using hne

theorem words_dropWhile (l : List α) : words sep (l.dropWhile sep) = words sep l := by
  induction l with
  | nil => rfl
  | cons c l ih =>
    rw [List.dropWhile_cons]
    split
    next hc => rw [ih, words_cons hc]
    next => rfl

/-- What is dropped ends where the condition fails. -/
theorem not_of_dropWhile {p : α → Bool} {t : List α} (h : l.dropWhile p = c :: t) :
    p c = false := by
  have hc := List.head_dropWhile_not p (l := l) (by simp [h])
  simpa [h] using hc

theorem drop_length_takeWhile (p : α → Bool) (l : List α) :
    l.drop (l.takeWhile p).length = l.dropWhile p := by
  have h : (l.takeWhile p ++ l.dropWhile p).drop (l.takeWhile p).length = l.dropWhile p :=
    List.drop_left
  rwa [List.takeWhile_append_dropWhile] at h

/-- Behind the part without a separator the text ends or a separator follows. -/
theorem dropWhile_not_cases (sep : α → Bool) (l : List α) : l.dropWhile (!sep ·) = [] ∨
    ∃ c t, l.dropWhile (!sep ·) = c :: t ∧ sep c = true := by
  cases h : l.dropWhile (!sep ·) with
  | nil => exact .inl rfl
  | cons c t =>
    exact .inr ⟨c, t, rfl, by simpa using not_of_dropWhile h⟩

/-- The first word of a text that starts with one. -/
theorem words_of_head (hc : sep c = false) (l : List α) :
    words sep (c :: l) = (c :: l.takeWhile (!sep ·)) :: words sep (l.dropWhile (!sep ·)).tail := by
  have hw : ∀ x ∈ c :: l.takeWhile (!sep ·), sep x = false := by
    intro x hx
    rcases List.mem_cons.mp hx with rfl | hx
    · exact hc
    · simpa using List.mem_takeWhile_imp hx
  have hsplit : c :: l = (c :: l.takeWhile (!sep ·)) ++ l.dropWhile (!sep ·) := by
    rw [List.cons_append, List.takeWhile_append_dropWhile]
  rcases dropWhile_not_cases sep l with h | ⟨d, t, h, hd⟩
  · rw [hsplit, h, List.append_nil, words_word hw (by simp)]
    simp
  · rw [hsplit, h, words_append_cons hd, words_word hw (by simp)]
    rfl

/-- The word may be passed with its first character by itself. -/
theorem afterWord_eq (l : List α) :
    afterWord sep l = ((l.dropWhile sep).tail.dropWhile (!sep ·)).tail := by
  rw [afterWord]
  cases h : l.dropWhile sep with
  | nil => rfl
  | cons c t =>
    rw [List.dropWhile_cons_of_pos (by simp [not_of_dropWhile h]), List.tail_cons]

/-- Passing a word leaves the others. -/
theorem words_afterWord (l : List α) : words sep (afterWord sep l) = (words sep l).tail := by
  rw [← words_dropWhile l, afterWord_eq]
  cases h : l.dropWhile sep with
  | nil => simp
  | cons c t => rw [words_of_head (not_of_dropWhile h), List.tail_cons, List.tail_cons]

/-- The text behind the separators in front of it starts with its first word. -/
theorem dropWhile_eq_of_words {ws : List (List α)} (h : words sep l = w :: ws) :
    ∃ t, l.dropWhile sep = w ++ t ∧ w ≠ [] ∧ (ws ≠ [] → t ≠ []) ∧
      ∀ c u, t = c :: u → sep c = true := by
  rw [← words_dropWhile l] at h
  cases hd : l.dropWhile sep with
  | nil => rw [hd, words_nil] at h; cases h
  | cons c t =>
    have hc : sep c = false := not_of_dropWhile hd
    rw [hd, words_of_head hc] at h
    obtain ⟨rfl, rfl⟩ := List.cons.inj h
    refine ⟨t.dropWhile (!sep ·), ?_, by simp, fun hne ht => hne (by simp [ht]), fun d u hu => ?_⟩
    · rw [List.cons_append, List.takeWhile_append_dropWhile]
    · rcases dropWhile_not_cases sep t with h | ⟨d', t', h, hd'⟩
      · rw [h] at hu; cases hu
      · rw [h] at hu
        obtain ⟨rfl, -⟩ := List.cons.inj hu
        exact hd'

/-- Words with one separator between them and one behind the last. -/
theorem words_intersperse (hc : sep c = true) {ws : List (List α)}
    (hws : ∀ w ∈ ws, w ≠ [] ∧ ∀ x ∈ w, sep x = false) {d : α} (hd : sep d = true) :
    words sep ((ws.intersperse [c]).flatten ++ [d]) = ws := by
  match ws with
  | [] => exact (words_append_cons hd [] []).trans (by simp)
  | [w] =>
    obtain ⟨hne, hw⟩ := hws w (by simp)
    simpa [words_word hw hne] using words_append_cons hd w []
  | w :: w' :: ws =>
    obtain ⟨hne, hw⟩ := hws w (by simp)
    have hws' : ∀ x ∈ w' :: ws, x ≠ [] ∧ ∀ y ∈ x, sep y = false := fun x hx => hws x (.tail _ hx)
    have ih := words_intersperse hc hws' hd
    have hsplit : (List.intersperse [c] (w :: w' :: ws)).flatten ++ [d] =
        w ++ c :: ((List.intersperse [c] (w' :: ws)).flatten ++ [d]) := by simp
    rw [hsplit, words_append_cons hc, words_word hw hne, ih]
    rfl

end Words
