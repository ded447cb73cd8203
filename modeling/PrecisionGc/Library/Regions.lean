import Mathlib.Algebra.GroupWithZero.Nat
import Mathlib.Order.Interval.Finset.Nat
import Mathlib.Data.List.Basic

/-!
# Disjoint regions of an address space

A region is a base and a size. A list of regions is disjoint if each two of them are; how a list
stays disjoint when one of its regions grows, shrinks or goes away, and how much room a disjoint
list takes.
-/

namespace Regions

/-- The addresses of a region. -/
def region (base size : Nat) : Finset Nat := Finset.Ico base (base + size)

variable {a b m n k : Nat}

@[simp] theorem mem_region {x : Nat} : x ∈ region b n ↔ b ≤ x ∧ x < b + n := by
  simp [region]

theorem card_region : (region b n).card = n := by
  simp [region]

/-- Two regions, the second where the first ends, are one region. -/
theorem region_append : region b m ∪ region (b + m) n = region b (m + n) := by
  simp only [region, ← Nat.add_assoc]
  exact Finset.Ico_union_Ico_eq_Ico (by omega) (by omega)

theorem region_subset (hb : b ≤ a) (hn : a + m ≤ b + n) : region a m ⊆ region b n :=
  Finset.Ico_subset_Ico hb hn

section List

universe u

variable {α : Type u} {f : α → Finset Nat} {s t : α} {l l' : List α}

/-- Each two regions of the list are disjoint. -/
def DisjointList (f : α → Finset Nat) (l : List α) : Prop :=
  l.Pairwise fun s t => Disjoint (f s) (f t)

theorem disjointList_cons :
    DisjointList f (s :: l) ↔ (∀ t ∈ l, Disjoint (f s) (f t)) ∧ DisjointList f l :=
  List.pairwise_cons

theorem DisjointList.sublist (h : DisjointList f l) (hl : l'.Sublist l) : DisjointList f l' :=
  List.Pairwise.sublist hl h

theorem disjointList_middle :
    DisjointList f (l ++ s :: l') ↔ DisjointList f (s :: (l ++ l')) :=
  List.pairwise_middle fun h => h.symm

/-- A member may be exchanged for one that is disjoint from the others. -/
theorem DisjointList.replace (h : DisjointList f (l ++ s :: l'))
    (ht : ∀ r ∈ l ++ l', Disjoint (f t) (f r)) : DisjointList f (l ++ t :: l') := by
  rw [disjointList_middle, disjointList_cons] at h ⊢
  exact ⟨ht, h.2⟩

/-- A member may grow by a region that is disjoint from all of them. -/
theorem DisjointList.grow {g : Finset Nat} (h : DisjointList f (l ++ s :: l'))
    (ht : f t = f s ∪ g) (hg : ∀ r ∈ l ++ l', Disjoint g (f r)) :
    DisjointList f (l ++ t :: l') := by
  refine h.replace fun r hr => ?_
  rw [disjointList_middle, disjointList_cons] at h
  exact ht ▸ Finset.disjoint_union_left.mpr ⟨h.1 r hr, hg r hr⟩

/-- A member that shares an address with the head is the head. -/
theorem DisjointList.eq_nil_of_mem {r : α} {x : Nat} (h : DisjointList f (l ++ s :: l'))
    (hr : (l ++ s :: l').head? = some r) (hxr : x ∈ f r) (hxs : x ∈ f s) : l = [] := by
  cases l with
  | nil => rfl
  | cons r' l =>
    obtain rfl : r' = r := by simpa using hr
    have hdisj := (disjointList_cons.mp h).1 s (by simp)
    exact absurd hxs (Finset.disjoint_left.mp hdisj hxr)

/-- Disjoint regions below a bound take no more room than there is. -/
theorem DisjointList.sum_card_le {bound : Nat} (h : DisjointList f l)
    (hb : ∀ s ∈ l, f s ⊆ region 0 bound) : (l.map fun s => (f s).card).sum ≤ bound := by
  suffices ∃ g : Finset Nat, g ⊆ region 0 bound ∧ (∀ x ∈ g, ∃ s ∈ l, x ∈ f s) ∧
      g.card = (l.map fun s => (f s).card).sum by
    obtain ⟨g, hg, -, hcard⟩ := this
    exact hcard ▸ (Finset.card_le_card hg).trans_eq card_region
  induction l with
  | nil => exact ⟨∅, by simp, by simp, rfl⟩
  | cons s l ih =>
    obtain ⟨hs, hl⟩ := disjointList_cons.mp h
    obtain ⟨g, hg, hmem, hcard⟩ := ih hl fun t ht => hb t (List.mem_cons_of_mem s ht)
    have hdisj : Disjoint (f s) g := by
      refine Finset.disjoint_right.mpr fun x hx => ?_
      obtain ⟨t, ht, hxt⟩ := hmem x hx
      exact Finset.disjoint_right.mp (hs t ht) hxt
    refine ⟨f s ∪ g, Finset.union_subset (hb s List.mem_cons_self) hg, fun x hx => ?_, ?_⟩
    · rcases Finset.mem_union.mp hx with hx | hx
      · exact ⟨s, List.mem_cons_self, hx⟩
      · obtain ⟨t, ht, hxt⟩ := hmem x hx
        exact ⟨t, List.mem_cons_of_mem s ht, hxt⟩
    · rw [Finset.card_union_of_disjoint hdisj, hcard, List.map_cons, List.sum_cons]

end List

/-! ## The first member that a test accepts -/

section UpdateFirst

universe u

variable {α : Type u}

/-- Apply `g` to the first member that `p` accepts. -/
def updateFirst (p : α → Bool) (g : α → α) (l : List α) : List α :=
  l.replaceF fun s => if p s then some (g s) else none

/-- The list splits at the member that `find?` finds, and that member alone is changed. -/
theorem updateFirst_of_find? {p : α → Bool} {g : α → α} {l : List α} {s : α}
    (h : l.find? p = some s) :
    p s ∧ ∃ l₁ l₂, l = l₁ ++ s :: l₂ ∧ updateFirst p g l = l₁ ++ g s :: l₂ := by
  induction l with
  | nil => simp at h
  | cons t l ih =>
    rw [List.find?_cons] at h
    split at h
    case h_1 hp =>
      obtain rfl := Option.some.inj h
      exact ⟨hp, [], l, rfl, by simp [updateFirst, hp]⟩
    case h_2 hp =>
      obtain ⟨hs, l₁, l₂, rfl, hu⟩ := ih h
      refine ⟨hs, t :: l₁, l₂, rfl, ?_⟩
      have : updateFirst p g (t :: (l₁ ++ s :: l₂)) = t :: updateFirst p g (l₁ ++ s :: l₂) := by
        simp [updateFirst, hp]
      rw [this, hu, List.cons_append]

end UpdateFirst

end Regions
