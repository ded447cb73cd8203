import Mathlib.Data.List.Nodup
import Mathlib.Data.List.Perm.Basic
import Mathlib.Order.Lattice

/-!
# Digital trees

Every node of a digital tree holds a key and a value, and one digit of a key, the `d`-th at depth
`d`, says which of the two subtrees the key is in. A node is in no order to its subtrees, so a leaf
can take the place of any node above it. Keys whose digits spell their order are searched for the
least one that is not below a bound.
-/

namespace DigitalTree

universe u v

variable {κ : Type u} {α : Type v}

inductive Tree (κ : Type u) (α : Type v)
  | nil
  | node (key : κ) (val : α) (left right : Tree κ α)

namespace Tree

def toList : Tree κ α → List (κ × α)
  | nil => []
  | node k v l r => (k, v) :: (l.toList ++ r.toList)

/-- The digit at which a subtree branches says which side a key is on. -/
def Routed (digit : κ → Nat → Bool) : Nat → Tree κ α → Prop
  | _, nil => True
  | d, node _ _ l r =>
    (∀ e ∈ l.toList, digit e.1 d = false) ∧ (∀ e ∈ r.toList, digit e.1 d = true) ∧
      l.Routed digit (d + 1) ∧ r.Routed digit (d + 1)

/-- The subtree whose root has the key `k`. -/
def subtree [DecidableEq κ] (digit : κ → Nat → Bool) (k : κ) : Nat → Tree κ α → Tree κ α
  | _, nil => nil
  | d, node k' v l r =>
    if k' = k then node k' v l r
    else if digit k d then r.subtree digit k (d + 1)
    else l.subtree digit k (d + 1)

/-- That subtree is exchanged; where there is none, one is attached. -/
def modify [DecidableEq κ] (digit : κ → Nat → Bool) (g : Tree κ α → Tree κ α) (k : κ) :
    Nat → Tree κ α → Tree κ α
  | _, nil => g nil
  | d, node k' v l r =>
    if k' = k then g (node k' v l r)
    else if digit k d then node k' v l (r.modify digit g k (d + 1))
    else node k' v (l.modify digit g k (d + 1)) r

/-- The rightmost leaf, and what is left. -/
def pop : Tree κ α → Option ((κ × α) × Tree κ α)
  | nil => none
  | node k v l r =>
    match r.pop with
    | some (e, r') => some (e, node k v l r')
    | none =>
      match l.pop with
      | some (e, l') => some (e, node k v l' r)
      | none => some ((k, v), nil)

/-- Two subtrees without their root: a leaf takes its place. -/
def merge (l r : Tree κ α) : Tree κ α :=
  match r.pop with
  | some (e, r') => node e.1 e.2 l r'
  | none =>
    match l.pop with
    | some (e, l') => node e.1 e.2 l' r
    | none => nil

variable {t t' l r : Tree κ α} {digit : κ → Nat → Bool} {k : κ} {v : α} {d : Nat} {e : κ × α}

@[simp] theorem toList_nil : (nil : Tree κ α).toList = [] := rfl

@[simp] theorem toList_node : (node k v l r).toList = (k, v) :: (l.toList ++ r.toList) := rfl

@[simp] theorem routed_nil : (nil : Tree κ α).Routed digit d := trivial

theorem toList_eq_nil : t.toList = [] ↔ t = nil := by
  cases t <;> simp

/-! ## Leaves -/

theorem pop_eq_none : t.pop = none ↔ t = nil := by
  cases t with
  | nil => simp [pop]
  | node k v l r =>
    simp only [pop]
    split
    · simp
    · split <;> simp

theorem pop_perm (h : t.pop = some (e, t')) : t.toList.Perm (e :: t'.toList) := by
  induction t generalizing t' with
  | nil => simp [pop] at h
  | node k v l r ihl ihr =>
    simp only [pop] at h
    split at h
    case h_1 e₁ r' hr =>
      obtain ⟨rfl, rfl⟩ := Prod.mk.inj (Option.some.inj h)
      have hperm : (l.toList ++ r.toList).Perm (e₁ :: (l.toList ++ r'.toList)) :=
        ((ihr hr).append_left _).trans List.perm_middle
      exact (hperm.cons _).trans (.swap ..)
    case h_2 hr =>
      obtain rfl := pop_eq_none.mp hr
      split at h
      case h_1 e₁ l' hl =>
        obtain ⟨rfl, rfl⟩ := Prod.mk.inj (Option.some.inj h)
        have hperm : (l.toList ++ (nil : Tree κ α).toList).Perm (e₁ :: (l'.toList ++ [])) :=
          (ihl hl).append_right _
        exact (hperm.cons _).trans (.swap ..)
      case h_2 hl =>
        obtain rfl := pop_eq_none.mp hl
        obtain ⟨rfl, rfl⟩ := Prod.mk.inj (Option.some.inj h)
        exact .rfl

theorem Routed.pop (h : t.Routed digit d) (hpop : t.pop = some (e, t')) : t'.Routed digit d := by
  induction t generalizing t' d with
  | nil => simp [Tree.pop] at hpop
  | node k v l r ihl ihr =>
    obtain ⟨hl, hr, hl', hr'⟩ := h
    simp only [Tree.pop] at hpop
    split at hpop
    case h_1 e₁ r₁ hpop₁ =>
      obtain ⟨rfl, rfl⟩ := Prod.mk.inj (Option.some.inj hpop)
      have hsub := (pop_perm hpop₁).subset
      have hsub' := (pop_perm hpop₁).symm.subset
      exact ⟨hl, fun e he => hr e (hsub' (List.mem_cons_of_mem _ he)), hl', ihr hr' hpop₁⟩
    case h_2 =>
      split at hpop
      case h_1 e₁ l₁ hpop₁ =>
        obtain ⟨rfl, rfl⟩ := Prod.mk.inj (Option.some.inj hpop)
        have hsub := (pop_perm hpop₁).symm.subset
        exact ⟨fun e he => hl e (hsub (List.mem_cons_of_mem _ he)), hr, ihl hl' hpop₁, hr'⟩
      case h_2 =>
        obtain ⟨rfl, rfl⟩ := Prod.mk.inj (Option.some.inj hpop)
        trivial

theorem merge_perm : (merge l r).toList.Perm (l.toList ++ r.toList) := by
  unfold merge
  split
  case h_1 e r' hr =>
    exact (((pop_perm hr).append_left _).trans List.perm_middle).symm
  case h_2 hr =>
    obtain rfl := pop_eq_none.mp hr
    split
    case h_1 e l' hl => exact ((pop_perm hl).append_right _).symm
    case h_2 hl =>
      obtain rfl := pop_eq_none.mp hl
      exact .rfl

/-- A node without its key is routed as it was. -/
theorem Routed.merge (h : (node k v l r).Routed digit d) : (merge l r).Routed digit d := by
  obtain ⟨hl, hr, hl', hr'⟩ := h
  unfold Tree.merge
  split
  case h_1 e r₁ hpop =>
    have hsub := (pop_perm hpop).symm.subset
    exact ⟨hl, fun e he => hr e (hsub (List.mem_cons_of_mem _ he)), hl', hr'.pop hpop⟩
  case h_2 =>
    split
    case h_1 e l₁ hpop =>
      have hsub := (pop_perm hpop).symm.subset
      exact ⟨fun e he => hl e (hsub (List.mem_cons_of_mem _ he)), hr, hl'.pop hpop, hr'⟩
    case h_2 => trivial

/-! ## One key -/

section

variable [DecidableEq κ]

theorem subtree_cases :
    t.subtree digit k d = nil ∨ ∃ v l r, t.subtree digit k d = node k v l r := by
  induction t generalizing d with
  | nil => exact .inl rfl
  | node k' v l r ihl ihr =>
    unfold subtree
    split
    case isTrue h => exact .inr ⟨v, l, r, by rw [h]⟩
    case isFalse =>
      split
      · exact ihr
      · exact ihl

/-- What is outside of the subtree stays. -/
theorem modify_perm (digit : κ → Nat → Bool) (k : κ) (d : Nat) (t : Tree κ α) :
    ∃ rest, t.toList.Perm ((t.subtree digit k d).toList ++ rest) ∧
      ∀ g, (t.modify digit g k d).toList.Perm ((g (t.subtree digit k d)).toList ++ rest) := by
  induction t generalizing d with
  | nil => exact ⟨[], .rfl, fun g => by simp [modify, subtree]⟩
  | node k' v l r ihl ihr =>
    unfold subtree modify
    split
    case isTrue => exact ⟨[], by simp, fun g => by simp⟩
    case isFalse =>
      split
      case isTrue =>
        obtain ⟨rest, ht, hg⟩ := ihr (d + 1)
        have hmove : ∀ s : List (κ × α), ((k', v) :: (l.toList ++ (s ++ rest))).Perm
            (s ++ ((k', v) :: (l.toList ++ rest))) := fun s => by
          refine List.Perm.trans ?_ List.perm_middle.symm
          refine List.Perm.cons _ ?_
          rw [← List.append_assoc, ← List.append_assoc]
          exact List.perm_append_comm.append_right _
        exact ⟨(k', v) :: (l.toList ++ rest), ((ht.append_left _).cons _).trans (hmove _),
          fun g => (((hg g).append_left _).cons _).trans (hmove _)⟩
      case isFalse =>
        obtain ⟨rest, ht, hg⟩ := ihl (d + 1)
        have hmove : ∀ s : List (κ × α), ((k', v) :: ((s ++ rest) ++ r.toList)).Perm
            (s ++ ((k', v) :: (rest ++ r.toList))) := fun s => by
          rw [List.append_assoc]
          exact List.perm_middle.symm
        exact ⟨(k', v) :: (rest ++ r.toList), ((ht.append_right _).cons _).trans (hmove _),
          fun g => (((hg g).append_right _).cons _).trans (hmove _)⟩

theorem mem_of_subtree {v : α} (h : t.subtree digit k d = node k v l r) : (k, v) ∈ t.toList := by
  obtain ⟨rest, hperm, -⟩ := modify_perm digit k d t
  rw [h] at hperm
  exact hperm.mem_iff.mpr (by simp)

/-- The digits of a key lead to it. -/
theorem Routed.subtree_of_mem (h : t.Routed digit d) (hnodup : (t.toList.map Prod.fst).Nodup)
    (hk : (k, v) ∈ t.toList) : ∃ l r, t.subtree digit k d = node k v l r := by
  induction t generalizing d with
  | nil => cases hk
  | node k' v' l r ihl ihr =>
    obtain ⟨hl, hr, hl', hr'⟩ := h
    simp only [toList_node, List.map_cons, List.map_append, List.nodup_cons, List.nodup_append,
      List.mem_append, List.mem_map, not_or, not_exists, not_and] at hnodup
    obtain ⟨⟨hnotl, hnotr⟩, hnl, hnr, -⟩ := hnodup
    simp only [toList_node, List.mem_cons, Prod.mk.injEq, List.mem_append] at hk
    unfold subtree
    rcases hk with ⟨rfl, rfl⟩ | hk | hk
    · exact ⟨l, r, if_pos rfl⟩
    · rw [if_neg fun heq => hnotl _ hk heq.symm, if_neg (by simp [hl _ hk])]
      exact ihl hl' hnl hk
    · rw [if_neg fun heq => hnotr _ hk heq.symm, if_pos (hr _ hk)]
      exact ihr hr' hnr hk

theorem Routed.modify (h : t.Routed digit d) : ∃ d', (t.subtree digit k d).Routed digit d' ∧
    ∀ g, (g (t.subtree digit k d)).Routed digit d' →
      (∀ e ∈ (g (t.subtree digit k d)).toList, e.1 = k ∨ e ∈ (t.subtree digit k d).toList) →
      (t.modify digit g k d).Routed digit d := by
  induction t generalizing d with
  | nil => exact ⟨d, trivial, fun g hg _ => hg⟩
  | node k' v l r ihl ihr =>
    have hnode := h
    obtain ⟨hl, hr, hl', hr'⟩ := h
    unfold subtree modify
    split
    case isTrue => exact ⟨d, hnode, fun g hg _ => hg⟩
    case isFalse =>
      split
      case isTrue hd =>
        obtain ⟨d', hat, hmod⟩ := ihr hr'
        obtain ⟨rest, hperm, hperm'⟩ := modify_perm digit k (d + 1) r
        refine ⟨d', hat, fun g hg hkeys => ⟨hl, fun e he => ?_, hl', hmod g hg hkeys⟩⟩
        rcases List.mem_append.mp ((hperm' g).subset he) with he | he
        · rcases hkeys e he with rfl | he
          · exact hd
          · exact hr e (hperm.mem_iff.mpr (List.mem_append_left _ he))
        · exact hr e (hperm.mem_iff.mpr (List.mem_append_right _ he))
      case isFalse hd =>
        obtain ⟨d', hat, hmod⟩ := ihl hl'
        obtain ⟨rest, hperm, hperm'⟩ := modify_perm digit k (d + 1) l
        refine ⟨d', hat, fun g hg hkeys => ⟨fun e he => ?_, hr, hmod g hg hkeys, hr'⟩⟩
        rcases List.mem_append.mp ((hperm' g).subset he) with he | he
        · rcases hkeys e he with rfl | he
          · simpa using hd
          · exact hl e (hperm.mem_iff.mpr (List.mem_append_left _ he))
        · exact hl e (hperm.mem_iff.mpr (List.mem_append_right _ he))

end

/-! ## The least key -/

/-- The nodes on the way to the leftmost leaf. -/
def leftWalk : Tree κ α → List (κ × α)
  | nil => []
  | node k v l r =>
    (k, v) :: match l.leftWalk with
      | [] => r.leftWalk
      | walk => walk

/-- The first of two trees that is not empty. -/
def orElse : Tree κ α → Tree κ α → Tree κ α
  | nil, t => t
  | t, _ => t

/-- Everything left of a node is below everything right of it. -/
def Sorted [LT κ] : Tree κ α → Prop
  | nil => True
  | node _ _ l r => (∀ a ∈ l.toList, ∀ b ∈ r.toList, a.1 < b.1) ∧ l.Sorted ∧ r.Sorted

/-- The nodes that the digits of `n` lead to, and the deepest right subtree that is passed by; a
node with the key `n` ends the search. -/
def descend [DecidableEq κ] (digit : κ → Nat → Bool) (n : κ) :
    Nat → Tree κ α → Tree κ α → List (κ × α) × Tree κ α
  | _, nil, rst => ([], rst)
  | d, node k v l r, rst =>
    if k = n then ([(k, v)], node k v l r)
    else
      let found := if digit n d then r.descend digit n (d + 1) rst
        else l.descend digit n (d + 1) (r.orElse rst)
      ((k, v) :: found.1, found.2)

theorem leftWalk_eq_nil : t.leftWalk = [] ↔ t = nil := by
  cases t <;> simp [leftWalk]

theorem leftWalk_of_nil : (node k v nil r).leftWalk = (k, v) :: r.leftWalk := rfl

theorem leftWalk_of_ne_nil (h : l ≠ nil) : (node k v l r).leftWalk = (k, v) :: l.leftWalk := by
  rw [leftWalk]
  cases hl : l.leftWalk with
  | nil => exact absurd (leftWalk_eq_nil.mp hl) h
  | cons => rfl

theorem leftWalk_subset : t.leftWalk ⊆ t.toList := by
  induction t with
  | nil => exact List.Subset.refl _
  | node k v l r ihl ihr =>
    intro e he
    by_cases hl : l = nil
    · subst hl
      rw [leftWalk_of_nil] at he
      rcases List.mem_cons.mp he with rfl | he
      · simp
      · simp [ihr he]
    · rw [leftWalk_of_ne_nil hl] at he
      rcases List.mem_cons.mp he with rfl | he
      · simp
      · simp [ihl he]

theorem orElse_of_ne_nil {s : Tree κ α} (h : t ≠ nil) : t.orElse s = t := by
  cases t with
  | nil => exact absurd rfl h
  | node => rfl

theorem mem_orElse {s : Tree κ α} (h : e ∈ (t.orElse s).toList) : e ∈ t.toList ∨ e ∈ s.toList := by
  cases t with
  | nil => exact .inr h
  | node => exact .inl h

section

variable [LinearOrder κ] {n : κ} {rst : Tree κ α} {P : κ → Prop}

/-- The least key is on the way to the leftmost leaf. -/
theorem Sorted.exists_leftWalk (h : t.Sorted) (he : e ∈ t.toList) :
    ∃ e' ∈ t.leftWalk, e'.1 ≤ e.1 := by
  induction t generalizing e with
  | nil => cases he
  | node k v l r ihl ihr =>
    obtain ⟨hlt, hl, hr⟩ := h
    rw [toList_node, List.mem_cons, List.mem_append] at he
    by_cases hnil : l = nil
    · subst hnil
      rw [leftWalk_of_nil, List.exists_mem_cons_iff]
      rcases he with rfl | he | he
      · exact .inl le_rfl
      · cases he
      · exact .inr (ihr hr he)
    · rw [leftWalk_of_ne_nil hnil, List.exists_mem_cons_iff]
      rcases he with rfl | he | he
      · exact .inl le_rfl
      · exact .inr (ihl hl he)
      · obtain ⟨a, ha⟩ := List.exists_mem_of_ne_nil _ (mt toList_eq_nil.mp hnil)
        obtain ⟨e', he', hle⟩ := ihl hl ha
        exact .inr ⟨e', he', hle.trans (hlt a ha e he).le⟩

/-- Keys that agree in front of a digit are in the order of that digit. -/
def Ordered (digit : κ → Nat → Bool) (P : κ → Prop) : Prop :=
  ∀ a b d, P a → P b → (∀ i < d, digit a i = digit b i) → digit a d = false → digit b d = true →
    a < b

theorem Routed.sorted (h : t.Routed digit d) (hord : Ordered digit P) (hP : ∀ e ∈ t.toList, P e.1)
    (hagree : ∀ a ∈ t.toList, ∀ b ∈ t.toList, ∀ i < d, digit a.1 i = digit b.1 i) :
    t.Sorted := by
  induction t generalizing d with
  | nil => trivial
  | node k v l r ihl ihr =>
    obtain ⟨hl, hr, hl', hr'⟩ := h
    have hsubl : ∀ e ∈ l.toList, e ∈ (node k v l r).toList := fun e he => by simp [he]
    have hsubr : ∀ e ∈ r.toList, e ∈ (node k v l r).toList := fun e he => by simp [he]
    have hnext : ∀ {s : Tree κ α} {c : Bool}, (∀ e ∈ s.toList, e ∈ (node k v l r).toList) →
        (∀ e ∈ s.toList, digit e.1 d = c) →
        ∀ a ∈ s.toList, ∀ b ∈ s.toList, ∀ i < d + 1, digit a.1 i = digit b.1 i := by
      intro s c hsub hs a ha b hb i hi
      rcases Nat.lt_succ_iff_lt_or_eq.mp hi with hi | rfl
      · exact hagree a (hsub a ha) b (hsub b hb) i hi
      · rw [hs a ha, hs b hb]
    refine ⟨fun a ha b hb => ?_, ihl hl' (fun e he => hP e (hsubl e he)) (hnext hsubl hl),
      ihr hr' (fun e he => hP e (hsubr e he)) (hnext hsubr hr)⟩
    exact hord a.1 b.1 d (hP a (hsubl a ha)) (hP b (hsubr b hb))
      (hagree a (hsubl a ha) b (hsubr b hb)) (hl a ha) (hr b hb)

/-- What a search for `n` has in view at depth `d`. -/
structure Views (digit : κ → Nat → Bool) (P : κ → Prop) (n : κ) (d : Nat) (t rst : Tree κ α) :
    Prop where
  routed : t.Routed digit d
  valid : ∀ e ∈ t.toList, P e.1
  agree : ∀ e ∈ t.toList, ∀ i < d, digit e.1 i = digit n i
  above : ∀ e ∈ rst.toList, n < e.1
  beyond : ∀ a ∈ t.toList, ∀ b ∈ rst.toList, a.1 < b.1
  sorted : rst.Sorted

theorem descend_subset : ∀ e ∈ (t.descend digit n d rst).1, e ∈ t.toList := by
  induction t generalizing d rst with
  | nil => exact fun e he => he
  | node k v l r ihl ihr =>
    intro e he
    unfold descend at he
    split at he
    case isTrue =>
      obtain rfl := List.mem_singleton.mp he
      simp
    case isFalse =>
      rcases List.mem_cons.mp he with rfl | he
      · simp
      · split at he
        · simp [ihr e he]
        · simp [ihl e he]

theorem descend_rest : ∀ e ∈ (t.descend digit n d rst).2.toList, e ∈ t.toList ∨ e ∈ rst.toList := by
  induction t generalizing d rst with
  | nil => exact fun e he => .inr he
  | node k v l r ihl ihr =>
    intro e he
    unfold descend at he
    split at he
    case isTrue => exact .inl he
    case isFalse =>
      dsimp only at he
      split at he
      · exact (ihr e he).imp_left fun he => by simp [he]
      · rcases ihl e he with he | he
        · simp [he]
        · exact (mem_orElse he).imp_left fun he => by simp [he]

namespace Views

/-- The search goes on to the right: everything on the left is below `n`. -/
theorem right (h : Views digit P n d (node k v l r) rst) (hd : digit n d = true) :
    Views digit P n (d + 1) r rst := by
  obtain ⟨-, hr, -, hr'⟩ := h.routed
  have hsub : ∀ e ∈ r.toList, e ∈ (node k v l r).toList := fun e he => by simp [he]
  refine ⟨hr', fun e he => h.valid e (hsub e he), fun e he i hi => ?_, h.above,
    fun a ha b hb => h.beyond a (hsub a ha) b hb, h.sorted⟩
  rcases Nat.lt_succ_iff_lt_or_eq.mp hi with hi | rfl
  · exact h.agree e (hsub e he) i hi
  · rw [hr e he, hd]

/-- The search goes on to the left: the right subtree is passed by, and lies below the one that was
passed by before. -/
theorem left (h : Views digit P n d (node k v l r) rst) (hord : Ordered digit P) (hn : P n)
    (hd : digit n d = false) : Views digit P n (d + 1) l (r.orElse rst) := by
  obtain ⟨hl, hr, hl', hr'⟩ := h.routed
  have hsubl : ∀ e ∈ l.toList, e ∈ (node k v l r).toList := fun e he => by simp [he]
  have hsubr : ∀ e ∈ r.toList, e ∈ (node k v l r).toList := fun e he => by simp [he]
  have hvalid : ∀ e ∈ l.toList, P e.1 := fun e he => h.valid e (hsubl e he)
  have hagree : ∀ e ∈ l.toList, ∀ i < d + 1, digit e.1 i = digit n i := fun e he i hi => by
    rcases Nat.lt_succ_iff_lt_or_eq.mp hi with hi | rfl
    · exact h.agree e (hsubl e he) i hi
    · rw [hl e he, hd]
  by_cases hnil : r = nil
  · subst hnil
    exact ⟨hl', hvalid, hagree, h.above, fun a ha b hb => h.beyond a (hsubl a ha) b hb, h.sorted⟩
  · rw [orElse_of_ne_nil hnil]
    have hsame : ∀ a ∈ (node k v l r).toList, ∀ b ∈ (node k v l r).toList, ∀ i < d,
        digit a.1 i = digit b.1 i := fun a ha b hb i hi =>
      (h.agree a ha i hi).trans (h.agree b hb i hi).symm
    refine ⟨hl', hvalid, hagree, fun b hb => ?_, fun a ha b hb => ?_, ?_⟩
    · exact hord n b.1 d hn (h.valid b (hsubr b hb))
        (fun i hi => (h.agree b (hsubr b hb) i hi).symm) hd (hr b hb)
    · exact hord a.1 b.1 d (h.valid a (hsubl a ha)) (h.valid b (hsubr b hb))
        (hsame a (hsubl a ha) b (hsubr b hb)) (hl a ha) (hr b hb)
    · refine hr'.sorted hord (fun e he => h.valid e (hsubr e he)) fun a ha b hb i hi => ?_
      rcases Nat.lt_succ_iff_lt_or_eq.mp hi with hi | rfl
      · exact hsame a (hsubr a ha) b (hsubr b hb) i hi
      · rw [hr a ha, hr b hb]

/-- The least key from `n` on is found on the way down, or on the way to the leftmost leaf of the
deepest right subtree that was passed by. -/
theorem exists_found (h : Views digit P n d t rst) (hord : Ordered digit P) (hn : P n)
    (he : e ∈ t.toList ∨ e ∈ rst.toList) (hle : n ≤ e.1) :
    ∃ e' ∈ (t.descend digit n d rst).1 ++ (t.descend digit n d rst).2.leftWalk,
      n ≤ e'.1 ∧ e'.1 ≤ e.1 := by
  induction t generalizing d rst e with
  | nil =>
    have he := he.resolve_left List.not_mem_nil
    obtain ⟨e', he', hle'⟩ := h.sorted.exists_leftWalk he
    exact ⟨e', List.mem_append_right _ he', (h.above e' (leftWalk_subset he')).le, hle'⟩
  | node k v l r ihl ihr =>
    obtain ⟨hl, hr, -, -⟩ := h.routed
    have hsubl : ∀ e ∈ l.toList, e ∈ (node k v l r).toList := fun e he => by simp [he]
    have hsubr : ∀ e ∈ r.toList, e ∈ (node k v l r).toList := fun e he => by simp [he]
    rw [toList_node, List.mem_cons, List.mem_append] at he
    unfold descend
    split
    case isTrue hk => exact ⟨(k, v), by simp, hk.ge, hk.le.trans hle⟩
    case isFalse hk =>
    dsimp only
    -- the node itself, or what is found further down
    have hcons : ∀ found : List (κ × α) × Tree κ α,
        (∃ e' ∈ found.1 ++ found.2.leftWalk, n ≤ e'.1 ∧ e'.1 ≤ e.1) →
        ∃ e' ∈ (k, v) :: found.1 ++ found.2.leftWalk, n ≤ e'.1 ∧ e'.1 ≤ e.1 :=
      fun _ ⟨e', he', hle'⟩ => ⟨e', List.mem_cons_of_mem _ he', hle'⟩
    split
    case isTrue hd =>
      rcases he with (rfl | he | he) | he
      · exact ⟨(k, v), by simp, hle, le_rfl⟩
      · have hlt := hord e.1 n d (h.valid e (hsubl e he)) hn (h.agree e (hsubl e he)) (hl e he) hd
        exact absurd hle (not_le.mpr hlt)
      · exact hcons _ (ihr (h.right hd) (.inl he) hle)
      · exact hcons _ (ihr (h.right hd) (.inr he) hle)
    case isFalse hd =>
      rw [Bool.not_eq_true] at hd
      have hviews := h.left hord hn hd
      rcases he with (rfl | he | he) | he
      · exact ⟨(k, v), by simp, hle, le_rfl⟩
      · exact hcons _ (ihl hviews (.inl he) hle)
      · have hnil : r ≠ nil := fun heq => by simp [heq] at he
        exact hcons _ (ihl hviews (.inr (by rwa [orElse_of_ne_nil hnil])) hle)
      · by_cases hnil : r = nil
        · exact hcons _ (ihl hviews (.inr (by rwa [hnil])) hle)
        · obtain ⟨b, hb⟩ := List.exists_mem_of_ne_nil _ (mt toList_eq_nil.mp hnil)
          have hb' : b ∈ (r.orElse rst).toList := by rwa [orElse_of_ne_nil hnil]
          obtain ⟨e', he', hle₁, hle₂⟩ := ihl hviews (.inr hb') (hviews.above b hb').le
          exact hcons _ ⟨e', he', hle₁, hle₂.trans (h.beyond b (hsubr b hb) e he).le⟩

/-- A subtree is passed by only where there is a key from `n` on. -/
theorem exists_fit (h : Views digit P n d t rst) (hord : Ordered digit P) (hn : P n)
    (hne : (t.descend digit n d rst).2 ≠ nil) : ∃ e, (e ∈ t.toList ∨ e ∈ rst.toList) ∧ n ≤ e.1 := by
  induction t generalizing d rst with
  | nil =>
    obtain ⟨e, he⟩ := List.exists_mem_of_ne_nil _ (mt toList_eq_nil.mp hne)
    exact ⟨e, .inr he, (h.above e he).le⟩
  | node k v l r ihl ihr =>
    unfold descend at hne
    split at hne
    case isTrue hk => exact ⟨(k, v), .inl (by simp), hk.ge⟩
    case isFalse hk =>
    dsimp only at hne
    split at hne
    case isTrue hd =>
      obtain ⟨e, he, hle⟩ := ihr (h.right hd) hne
      exact ⟨e, he.imp_left fun he => by simp [he], hle⟩
    case isFalse hd =>
      obtain ⟨e, he, hle⟩ := ihl (h.left hord hn (by simpa using hd)) hne
      rcases he with he | he
      · exact ⟨e, .inl (by simp [he]), hle⟩
      · exact ⟨e, (mem_orElse he).imp_left fun he => by simp [he], hle⟩

end Views

end

end Tree

end DigitalTree
