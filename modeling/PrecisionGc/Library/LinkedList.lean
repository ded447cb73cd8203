import Mathlib.Data.List.Basic

/-!
# Doubly linked lists over link functions

The links of a list are two functions `next` and `prev` on nodes. `Seg next nil a l c` says that
following `next` from `a` passes the nodes of `l` in this order and arrives at `c`; with `c = nil`
it is a whole list. `Backed prev free p l` says that the back link of each node of `l` is the node
before it, the first one's being `p`; the nodes of `free` are exempt. `Seg.relink` is the one rule
behind removing a node, replacing one and pushing one: only the link of the last node before the
change is rewritten.
-/

namespace LinkedList

variable {α : Type*} {next next' prev prev' : α → α} {nil a c d p : α} {l l' : List α}
  {free free' : α → Prop}

/-- Following `next` from the first address passes the nodes of the list and arrives at the last. -/
def Seg (next : α → α) (nil : α) : α → List α → α → Prop
  | a, [], c => a = c
  | a, b :: l, c => a = b ∧ b ≠ nil ∧ Seg next nil (next b) l c

/-- The back link of each node is the node before it. -/
def Backed (prev : α → α) (free : α → Prop) : α → List α → Prop
  | _, [] => True
  | p, b :: l => (free b ∨ prev b = p) ∧ Backed prev free b l

@[simp] theorem seg_nil : Seg next nil a [] c ↔ a = c := Iff.rfl

@[simp] theorem seg_cons {b : α} :
    Seg next nil a (b :: l) c ↔ a = b ∧ b ≠ nil ∧ Seg next nil (next b) l c := Iff.rfl

@[simp] theorem backed_nil : Backed prev free p [] := trivial

@[simp] theorem backed_cons {b : α} :
    Backed prev free p (b :: l) ↔ (free b ∨ prev b = p) ∧ Backed prev free b l := Iff.rfl

theorem seg_append :
    Seg next nil a (l ++ l') c ↔ ∃ d, Seg next nil a l d ∧ Seg next nil d l' c := by
  induction l generalizing a with
  | nil => simp
  | cons b l ih => simp [ih, and_assoc]

theorem Seg.congr (h : Seg next nil a l c) (hn : ∀ b ∈ l, next' b = next b) :
    Seg next' nil a l c := by
  induction l generalizing a with
  | nil => exact h
  | cons b l ih =>
    obtain ⟨rfl, hb, h⟩ := h
    refine ⟨rfl, hb, ?_⟩
    rw [hn a List.mem_cons_self]
    exact ih h fun x hx => hn x (List.mem_cons_of_mem _ hx)

theorem Seg.ne_nil (h : Seg next nil a l c) {b : α} (hb : b ∈ l) : b ≠ nil := by
  induction l generalizing a with
  | nil => cases hb
  | cons x l ih =>
    obtain ⟨-, hx, h⟩ := h
    rcases List.mem_cons.mp hb with rfl | hb
    · exact hx
    · exact ih h hb

/-- A whole list is empty exactly when it starts at `nil`. -/
theorem Seg.next_mem (h : Seg next nil a l nil) {b : α} (hb : b ∈ l) :
    next b = nil ∨ next b ∈ l := by
  induction l generalizing a with
  | nil => cases hb
  | cons x l ih =>
    obtain ⟨-, -, h⟩ := h
    rcases List.mem_cons.mp hb with rfl | hb
    · cases l with
      | nil => exact .inl h
      | cons y l => exact .inr (h.1 ▸ .tail _ List.mem_cons_self)
    · exact (ih h hb).imp id (.tail _)

theorem Seg.eq_nil_iff (h : Seg next nil a l nil) : l = [] ↔ a = nil := by
  cases l with
  | nil => simpa using h
  | cons b l => simpa using h.1 ▸ h.2.1

theorem Seg.head_eq (h : Seg next nil a l nil) : a = l.head?.getD nil := by
  cases l with
  | nil => simpa using h
  | cons b l => simpa using h.1

/-- A whole list is determined by its first address. -/
theorem Seg.unique (h : Seg next nil a l nil) (h' : Seg next nil a l' nil) : l = l' := by
  induction l generalizing a l' with
  | nil => exact (h'.eq_nil_iff.mpr h).symm
  | cons b l ih =>
    obtain ⟨rfl, hb, h⟩ := h
    cases l' with
    | nil => exact absurd h' hb
    | cons b' l' =>
      obtain ⟨rfl, -, h'⟩ := h'
      rw [ih h h']

/-- Joining a list to what remains of another one: `next'` is `next` on the nodes of `l` but the
last, whose link now leads to `c`, where `l'` starts. -/
theorem Seg.relink (h : Seg next nil a l d) (h' : Seg next' nil c l' nil)
    (hn : ∀ b ∈ l.dropLast, next' b = next b) (hlast : ∀ b, l.getLast? = some b → next' b = c) :
    Seg next' nil (if l = [] then c else a) (l ++ l') nil := by
  induction l generalizing a with
  | nil => simpa using h'
  | cons b l ih =>
    obtain ⟨rfl, hb, h⟩ := h
    refine ⟨by simp, hb, ?_⟩
    cases l with
    | nil => rw [hlast a rfl]; simpa using h'
    | cons b' l =>
      rw [hn a (by simp)]
      have := ih h (fun x hx => hn x (by simp only [List.dropLast_cons_cons]; exact .tail _ hx))
        (fun x hx => hlast x (by simpa using hx))
      simpa using this

theorem Backed.congr (h : Backed prev free p l) (hp : ∀ b ∈ l, prev' b = prev b)
    (hf : ∀ b ∈ l, free b → free' b) : Backed prev' free' p l := by
  induction l generalizing p with
  | nil => trivial
  | cons b l ih =>
    refine ⟨?_, ih h.2 (fun x hx => hp x (List.mem_cons_of_mem _ hx))
      fun x hx => hf x (List.mem_cons_of_mem _ hx)⟩
    exact h.1.imp (hf b List.mem_cons_self) fun e => (hp b List.mem_cons_self).trans e

theorem backed_append :
    Backed prev free p (l ++ l') ↔ Backed prev free p l ∧ Backed prev free (l.getLastD p) l' := by
  induction l generalizing p with
  | nil => simp
  | cons b l ih =>
    rw [List.cons_append, backed_cons, ih, backed_cons, and_assoc, List.getLastD_cons]

/-- Changing the node before a list matters to the first node only. -/
theorem Backed.rebase {q : α} (h : Backed prev free p l) (hp : ∀ b ∈ l.tail, prev' b = prev b)
    (hq : ∀ b, l.head? = some b → prev' b = q) : Backed prev' free q l := by
  cases l with
  | nil => trivial
  | cons b l => exact ⟨.inr (hq b rfl), h.2.congr hp fun _ _ hf => hf⟩

/-- What holds of the first back link and of the nodes holds of every back link. -/
theorem Backed.all {P : α → Prop} (h : Backed prev (fun _ => False) p l) (hp : P p)
    (hl : ∀ b ∈ l, P b) : ∀ b ∈ l, P (prev b) := by
  induction l generalizing p with
  | nil => simp
  | cons a l ih =>
    obtain ⟨hf | hprev, h⟩ := h
    · exact hf.elim
    rintro b (_ | ⟨_, hb⟩)
    · exact hprev ▸ hp
    · exact ih h (hl a List.mem_cons_self) (fun x hx => hl x (.tail _ hx)) b hb

theorem not_mem_dropLast_of_getLast? {b : α} (hnd : l.Nodup) (h : l.getLast? = some b) :
    b ∉ l.dropLast := by
  obtain ⟨l₀, rfl⟩ : ∃ l₀, l = l₀ ++ [b] := ⟨l.dropLast, (List.dropLast_append_getLast? b h).symm⟩
  rw [List.nodup_append] at hnd
  simp only [List.dropLast_concat]
  intro hb
  exact hnd.2.2 b hb b (by simp) rfl

/-! ## Whole lists -/

/-- A doubly linked list without repetition: `a` is its first node, `p` what the first back link
holds. -/
structure Linked (next prev : α → α) (free : α → Prop) (nil p a : α) (l : List α) : Prop where
  seg : Seg next nil a l nil
  backed : Backed prev free p l
  nodup : l.Nodup

namespace Linked

/-- A node that is not on the list is put in front of it. -/
theorem push {n : α} (h : Linked next prev free nil p a l) (hn : n ∉ l) (hnil : n ≠ nil)
    (hnext : ∀ b ∈ l, next' b = next b) (hlink : next' n = a)
    (hprev : ∀ b ∈ l.tail, prev' b = prev b) (hhead : ∀ b, l.head? = some b → prev' b = n)
    (hback : prev' n = p) : Linked next' prev' free nil p n (n :: l) where
  seg := ⟨rfl, hnil, hlink ▸ h.seg.congr hnext⟩
  backed := ⟨.inr hback, h.backed.rebase hprev hhead⟩
  nodup := List.nodup_cons.mpr ⟨hn, h.nodup⟩

/-- The list with the part after `A` exchanged: `B` is a list of its own under the new links, and
the two are joined. -/
theorem splice {A B B' : List α} (h : Linked next prev free nil p a (A ++ B'))
    (hB : Seg next' nil c B nil) (hBp : Backed prev' free' (A.getLastD p) B) (hnd : B.Nodup)
    (hdisj : ∀ b ∈ A, b ∉ B) (hnext : ∀ b ∈ A.dropLast, next' b = next b)
    (hlast : ∀ b, A.getLast? = some b → next' b = c) (hprev : ∀ b ∈ A, prev' b = prev b)
    (hfree : ∀ b ∈ A, free b → free' b) :
    Linked next' prev' free' nil p (if A = [] then c else a) (A ++ B) where
  seg := by
    obtain ⟨d, hA, -⟩ := seg_append.mp h.seg
    exact hA.relink hB hnext hlast
  backed := backed_append.mpr ⟨(backed_append.mp h.backed).1.congr hprev hfree, hBp⟩
  nodup := by
    refine List.nodup_append.mpr ⟨(List.nodup_append.mp h.nodup).1, hnd, ?_⟩
    rintro b hb _ hb' rfl
    exact hdisj b hb hb'

theorem congr (h : Linked next prev free nil p a l) (hnext : ∀ b ∈ l, next' b = next b)
    (hprev : ∀ b ∈ l, prev' b = prev b) (hfree : ∀ b ∈ l, free b → free' b) :
    Linked next' prev' free' nil p a l :=
  ⟨h.seg.congr hnext, h.backed.congr hprev hfree, h.nodup⟩

/-- A node is taken out: the node before it is linked to the one after it, and back. -/
theorem remove {A B : List α} {x : α} (h : Linked next prev free nil p a (A ++ x :: B))
    (hlast : ∀ b, A.getLast? = some b → next' b = next x)
    (hnext : ∀ b ∈ A ++ B, A.getLast? ≠ some b → next' b = next b)
    (hhead : ∀ b, B.head? = some b → prev' b = A.getLastD p)
    (hprev : ∀ b ∈ A ++ B, B.head? ≠ some b → prev' b = prev b) :
    Linked next' prev' free nil p (if A = [] then next x else a) (A ++ B) := by
  obtain ⟨hA, hxB, hdisj⟩ := List.nodup_append.mp h.nodup
  have hB : B.Nodup := (List.nodup_cons.mp hxB).2
  obtain ⟨d, -, rfl, -, hseg⟩ := seg_append.mp h.seg
  have hback : Backed prev free d B := (backed_append.mp h.backed).2.2
  have hAB : ∀ b ∈ A, b ∉ B := fun b hb hb' => hdisj b hb b (.tail _ hb') rfl
  refine h.splice (hseg.congr fun b hb => ?_) (hback.rebase (fun b hb => ?_) hhead) hB hAB
    (fun b hb => ?_) hlast (fun b hb => ?_) fun _ _ hf => hf
  · refine hnext b (List.mem_append_right _ hb) fun hl => ?_
    exact hAB b (List.mem_of_getLast? hl) hb
  · refine hprev b (List.mem_append_right _ (List.mem_of_mem_tail hb)) fun hh => ?_
    cases B with
    | nil => cases hb
    | cons y B => exact (List.nodup_cons.mp hB).1 (Option.some.inj hh ▸ hb)
  · exact hnext b (List.mem_append_left _ (List.dropLast_subset A hb))
      fun hl => not_mem_dropLast_of_getLast? hA hl hb
  · exact hprev b (List.mem_append_left _ hb) fun hh => hAB b hb (List.mem_of_head? hh)

/-- The list is cut behind the node `x`, whose back link does not matter any more. -/
theorem cut {A B : List α} {x : α} (h : Linked next prev free nil p a (A ++ x :: B))
    (hx : next' x = nil) (hnext : ∀ b ∈ A, next' b = next b) (hprev : ∀ b ∈ A, prev' b = prev b)
    (hfree : ∀ b ∈ A, free b → free' b) (hfx : free' x) :
    Linked next' prev' free' nil p a (A ++ [x]) where
  seg := by
    obtain ⟨d, hA, rfl, hd, -⟩ := seg_append.mp h.seg
    exact seg_append.mpr ⟨d, hA.congr hnext, rfl, hd, hx⟩
  backed := backed_append.mpr ⟨(backed_append.mp h.backed).1.congr hprev hfree, .inl hfx, trivial⟩
  nodup := by
    refine h.nodup.sublist ((List.append_sublist_append_left A).mpr ?_)
    exact List.cons_sublist_cons.mpr (List.nil_sublist B)

/-- A list that ends in a node `x`, and what used to follow `x` under other links, are joined by a
node `n` in the place of `x`, which may be `x` itself. -/
theorem fill {A B : List α} {x n : α} {nextB prevB : α → α}
    (h : Linked next prev (· = x) nil p a (A ++ [x]))
    (hB : Seg nextB nil c B nil) (hBp : Backed prevB (fun _ => False) x B)
    (hnd : (A ++ n :: B).Nodup) (hn : n ≠ nil)
    (hlink : next' n = c) (hback : prev' n = A.getLastD p)
    (hlast : ∀ b, A.getLast? = some b → next' b = n)
    (hnext : ∀ b ∈ A, A.getLast? ≠ some b → next' b = next b) (hprev : ∀ b ∈ A, prev' b = prev b)
    (hnextB : ∀ b ∈ B, next' b = nextB b) (hhead : ∀ b, B.head? = some b → prev' b = n)
    (hprevB : ∀ b ∈ B, B.head? ≠ some b → prev' b = prevB b) :
    Linked next' prev' (fun _ => False) nil p (if A = [] then n else a) (A ++ n :: B) := by
  obtain ⟨hA, hnB, hdisj⟩ := List.nodup_append.mp hnd
  have hBnd : B.Nodup := (List.nodup_cons.mp hnB).2
  have hxA : x ∉ A := fun hx => (List.nodup_append.mp h.nodup).2.2 x hx x (by simp) rfl
  refine h.splice (B := n :: B) ⟨rfl, hn, hlink ▸ hB.congr hnextB⟩
    ⟨.inr hback, hBp.rebase (fun b hb => ?_) hhead⟩ hnB (fun b hb hb' => hdisj b hb b hb' rfl)
    (fun b hb => ?_) hlast hprev fun b hb hbx => hxA (hbx ▸ hb)
  · refine hprevB b (List.mem_of_mem_tail hb) fun hh => ?_
    cases B with
    | nil => cases hb
    | cons y B => exact (List.nodup_cons.mp hBnd).1 (Option.some.inj hh ▸ hb)
  · exact hnext b (List.dropLast_subset A hb) fun hl => not_mem_dropLast_of_getLast? hA hl hb

/-- The last node before `x` is linked to `x`. -/
theorem next_of_getLast? {A B : List α} {x b : α} (h : Linked next prev free nil p a (A ++ x :: B))
    (hb : A.getLast? = some b) : next b = x := by
  obtain ⟨A, rfl⟩ : ∃ A', A = A' ++ [b] :=
    ⟨A.dropLast, (List.dropLast_append_getLast? b hb).symm⟩
  rw [List.append_assoc] at h
  obtain ⟨d, -, rfl, -, hx, -⟩ := seg_append.mp h.seg
  exact hx

/-- What a node of the list is linked to, and what leads to it. -/
theorem links_of_append {A B : List α} {x : α} (h : Linked next prev free nil p a (A ++ x :: B))
    (hx : ¬free x) : next x = B.headD nil ∧ prev x = A.getLastD p := by
  obtain ⟨d, -, rfl, -, hseg⟩ := seg_append.mp h.seg
  refine ⟨?_, (backed_append.mp h.backed).2.1.resolve_left hx⟩
  rw [hseg.head_eq]
  cases B <;> rfl

end Linked

end LinkedList
