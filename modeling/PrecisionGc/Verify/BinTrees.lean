import PrecisionGc.Library.Ring
import PrecisionGc.Verify.BinIndex
import PrecisionGc.Verify.SysAlloc

/-!
# Tries in the heap

A tree bin is a digital tree that is linked in the heap. The chunks of one size are a ring, and the
oldest of them is the node of the tree. The lists of the chunks have the newest first.
-/

namespace PrecisionGc.Dlmalloc
open DigitalTree Ring

variable {L L' L₁ L₂ : Links} {m : MState} {i par par' a x y v s k d fuel : Nat} {b : Bool}
  {c : List Nat}

abbrev BinTree := Tree Nat (List Nat)

/-- The chunks in a tree. -/
def addrs (t : BinTree) : List Nat := t.toList.flatMap Prod.snd

/-- The links of `x` are the same. -/
structure SameLinks (L L' : Links) (x : Nat) : Prop where
  fd : L'.fd x = L.fd x
  bk : L'.bk x = L.bk x
  child : L'.child x = L.child x
  parent : L'.parent x = L.parent x
  index : L'.index x = L.index x

/-- The chunks `c` of one size, with the oldest, `a`, as a node. -/
structure NodeAt (L : Links) (i par a : Nat) (c : List Nat) : Prop where
  parent : L.parent a = par
  ring : ∃ rest, c = rest ++ [a] ∧ Path L.fd L.bk a rest a ∧
    ∀ x ∈ rest, L.parent x = 0 ∧ ∀ b, L.child x b = 0
  index : ∀ x ∈ c, L.index x = i
  ne_zero : ∀ x ∈ c, x ≠ 0

/-- The tree is linked from `a` on, whose parent field is `par`. -/
def TreeAt (L : Links) (i : Nat) : Nat → Nat → BinTree → Prop
  | _, a, .nil => a = 0
  | par, a, .node _ c l r =>
    NodeAt L i par a c ∧ TreeAt L i a (L.child a false) l ∧ TreeAt L i a (L.child a true) r

variable {t l r T : BinTree}

@[simp] theorem addrs_nil : addrs .nil = [] := rfl

@[simp] theorem addrs_node : addrs (.node k c l r) = c ++ (addrs l ++ addrs r) := by
  simp [addrs]

theorem mem_addrs : x ∈ addrs t ↔ ∃ e ∈ t.toList, x ∈ e.2 := by simp [addrs]

theorem addrs_perm {t t' : BinTree} {es : List (Nat × List Nat)}
    (h : t.toList.Perm (es ++ t'.toList)) :
    (addrs t).Perm (es.flatMap Prod.snd ++ addrs t') := by
  have := h.flatMap_right Prod.snd
  rwa [List.flatMap_append] at this

@[simp] theorem treeAt_nil : TreeAt L i par a .nil ↔ a = 0 := Iff.rfl

theorem treeAt_node : TreeAt L i par a (.node k c l r) ↔
    NodeAt L i par a c ∧ TreeAt L i a (L.child a false) l ∧ TreeAt L i a (L.child a true) r :=
  Iff.rfl

namespace SameLinks

theorem refl : SameLinks L L x := ⟨rfl, rfl, rfl, rfl, rfl⟩

theorem trans (h : SameLinks L L₁ x) (h' : SameLinks L₁ L₂ x) : SameLinks L L₂ x :=
  ⟨h'.fd.trans h.fd, h'.bk.trans h.bk, h'.child.trans h.child, h'.parent.trans h.parent,
    h'.index.trans h.index⟩

theorem setFd (h : x ≠ y) : SameLinks L (L.setFd y v) x :=
  ⟨Function.update_of_ne h .., rfl, rfl, rfl, rfl⟩

theorem setBk (h : x ≠ y) : SameLinks L (L.setBk y v) x :=
  ⟨rfl, Function.update_of_ne h .., rfl, rfl, rfl⟩

theorem setChild (h : x ≠ y) : SameLinks L (L.setChild y b v) x :=
  ⟨rfl, rfl, Function.update_of_ne h .., rfl, rfl⟩

theorem setParent (h : x ≠ y) : SameLinks L (L.setParent y v) x :=
  ⟨rfl, rfl, rfl, Function.update_of_ne h .., rfl⟩

theorem setIndex (h : x ≠ y) : SameLinks L (L.setIndex y v) x :=
  ⟨rfl, rfl, rfl, rfl, Function.update_of_ne h ..⟩

end SameLinks

namespace NodeAt

theorem mem (h : NodeAt L i par a c) : a ∈ c := by
  obtain ⟨rest, rfl, -⟩ := h.ring
  simp

theorem congr (h : NodeAt L i par a c) (hnodup : c.Nodup)
    (hlinks : ∀ x ∈ c, L'.fd x = L.fd x ∧ L'.bk x = L.bk x ∧ L'.index x = L.index x)
    (hrest : ∀ x ∈ c, x ≠ a → L'.parent x = L.parent x ∧ L'.child x = L.child x)
    (hparent : L'.parent a = par') : NodeAt L' i par' a c := by
  obtain ⟨-, ⟨rest, rfl, hring, hfree⟩, hindex, hne⟩ := h
  refine ⟨hparent, ⟨rest, rfl, hring.congr (fun b hb => ?_) fun b hb => (hlinks b hb).2.1,
    fun x hx => ?_⟩, fun x hx => (hlinks x hx).2.2.trans (hindex x hx), hne⟩
  · exact (hlinks b (by simpa [or_comm] using hb)).1
  · have hxa : x ≠ a := by
      rintro rfl
      exact List.disjoint_of_nodup_append hnodup hx List.mem_cons_self
    obtain ⟨hp, hc⟩ := hrest x (List.mem_append_left _ hx) hxa
    rw [hp, hc]
    exact hfree x hx

theorem of_same (h : NodeAt L i par a c) (hnodup : c.Nodup) (hsame : ∀ x ∈ c, SameLinks L L' x) :
    NodeAt L' i par a c :=
  h.congr hnodup (fun x hx => ⟨(hsame x hx).fd, (hsame x hx).bk, (hsame x hx).index⟩)
    (fun x hx _ => ⟨(hsame x hx).parent, (hsame x hx).child⟩)
    ((hsame a h.mem).parent.trans h.parent)

end NodeAt

namespace TreeAt

theorem eq_zero_iff (h : TreeAt L i par a t) : a = 0 ↔ t = .nil := by
  cases t with
  | nil => simpa using h
  | node k c l r => simpa using h.1.ne_zero a h.1.mem

theorem root_mem (h : TreeAt L i par a t) (ha : a ≠ 0) : a ∈ addrs t := by
  cases t with
  | nil => exact absurd h ha
  | node k c l r =>
    rw [addrs_node]
    exact List.mem_append_left _ h.1.mem

theorem ne_zero (h : TreeAt L i par a t) (hx : x ∈ addrs t) : x ≠ 0 := by
  induction t generalizing par a with
  | nil => cases hx
  | node k c l r ihl ihr =>
    obtain ⟨hn, hl, hr⟩ := h
    simp only [addrs_node, List.mem_append] at hx
    rcases hx with hx | hx | hx
    · exact hn.ne_zero x hx
    · exact ihl hl hx
    · exact ihr hr hx

theorem index (h : TreeAt L i par a t) (hx : x ∈ addrs t) : L.index x = i := by
  induction t generalizing par a with
  | nil => cases hx
  | node k c l r ihl ihr =>
    obtain ⟨hn, hl, hr⟩ := h
    simp only [addrs_node, List.mem_append] at hx
    rcases hx with hx | hx | hx
    · exact hn.index x hx
    · exact ihl hl hx
    · exact ihr hr hx

/-- A tree is linked by the links of its chunks only. -/
theorem congr (h : TreeAt L i par a t) (hnodup : (addrs t).Nodup)
    (hsame : ∀ x ∈ addrs t, SameLinks L L' x) : TreeAt L' i par a t := by
  induction t generalizing par a with
  | nil => exact h
  | node k c l r ihl ihr =>
    obtain ⟨hn, hl, hr⟩ := h
    simp only [addrs_node, List.mem_append, List.nodup_append] at hsame hnodup
    have hroot := hsame a (.inl hn.mem)
    refine ⟨hn.of_same hnodup.1 fun x hx => hsame x (.inl hx), ?_, ?_⟩
    · rw [hroot.child]
      exact ihl hl hnodup.2.1.1 fun x hx => hsame x (.inr (.inl hx))
    · rw [hroot.child]
      exact ihr hr hnodup.2.1.2.1 fun x hx => hsame x (.inr (.inr hx))

/-- Where a tree hangs is said by the parent field of its root. -/
theorem reparent (h : TreeAt L i par a t) (hnodup : (addrs t).Nodup)
    (hsame : ∀ x ∈ addrs t, x ≠ a → SameLinks L L' x)
    (hroot : SameLinks L (L'.setParent a (L.parent a)) a)
    (hparent : L'.parent a = par') : TreeAt L' i par' a t := by
  cases t with
  | nil => exact h
  | node k c l r =>
    obtain ⟨hn, hl, hr⟩ := h
    simp only [addrs_node, List.mem_append, List.nodup_append] at hsame hnodup
    obtain ⟨hfd, hbk, hchild, -, hindex⟩ := hroot
    simp only [Links.setParent] at hfd hbk hchild hindex
    have hout : ∀ x, x ∈ addrs l ∨ x ∈ addrs r → x ≠ a := by
      rintro x hx rfl
      exact hnodup.2.2 x hn.mem x hx rfl
    refine ⟨hn.congr hnodup.1 (fun x hx => ?_) (fun x hx hxa => ?_) hparent, ?_, ?_⟩
    · rcases eq_or_ne x a with rfl | hxa
      · exact ⟨hfd, hbk, hindex⟩
      · have := hsame x (.inl hx) hxa
        exact ⟨this.fd, this.bk, this.index⟩
    · have := hsame x (.inl hx) hxa
      exact ⟨this.parent, this.child⟩
    · rw [hchild]
      exact congr hl hnodup.2.1.1 fun x hx => hsame x (.inr (.inl hx)) (hout x (.inl hx))
    · rw [hchild]
      exact congr hr hnodup.2.1.2.1 fun x hx => hsame x (.inr (.inr hx)) (hout x (.inr hx))

end TreeAt

/-! ## A subtree and what is around it -/

/-- The pointer of `xp` to its child `x` has become one to `x'`. -/
structure Redirected (L L' : Links) (xp x x' : Nat) : Prop where
  fd : L'.fd xp = L.fd xp
  bk : L'.bk xp = L.bk xp
  parent : L'.parent xp = L.parent xp
  index : L'.index xp = L.index xp
  child : ∀ b, L'.child xp b = if L.child xp b = x then x' else L.child xp b

/-- The subtree `S` of `T` hangs at `x`, below its parent `xp`. -/
structure Hangs (L : Links) (i par a k d : Nat) (T : BinTree) (xp x : Nat) (S : BinTree) :
    Prop where
  ne : x ≠ a
  mem : xp ∈ addrs T
  not_mem : xp ∉ addrs S
  side : ∃ b, L.child xp b = x ∧ L.child xp (!b) ≠ x
  /-- it is exchanged by redirecting that pointer -/
  modify : ∀ {g : BinTree → BinTree} {L' : Links} {x' : Nat}, TreeAt L' i xp x' (g S) →
    (∀ y ∈ addrs T, y ∉ addrs S → y ≠ xp → SameLinks L L' y) → Redirected L L' xp x x' →
    TreeAt L' i par a (T.modify (digit i) g k d)

/-- A node with the subtree `s` on the side `b`, and `o` on the other one. -/
def sided (k : Nat) (c : List Nat) (b : Bool) (s o : BinTree) : BinTree :=
  bif b then .node k c o s else .node k c s o

theorem treeAt_sided {s o : BinTree} : TreeAt L i par a (sided k c b s o) ↔
    NodeAt L i par a c ∧ TreeAt L i a (L.child a b) s ∧ TreeAt L i a (L.child a (!b)) o := by
  cases b
  · exact treeAt_node
  · exact treeAt_node.trans (and_congr_right fun _ => and_comm)

theorem mem_addrs_sided {s o : BinTree} :
    x ∈ addrs (sided k c b s o) ↔ x ∈ c ∨ x ∈ addrs s ∨ x ∈ addrs o := by
  cases b
  · simp [sided]
  · simp [sided, or_comm]

theorem Hangs.step {S s o : BinTree} {k' xp : Nat}
    (hmod : ∀ g, (sided k' c b s o).modify (digit i) g k d =
      sided k' c b (s.modify (digit i) g k (d + 1)) o)
    (hc : c.Nodup) (ho : (addrs o).Nodup) (hcs : ∀ x ∈ c, x ∉ addrs s ∧ x ∉ addrs o)
    (hso : ∀ x ∈ addrs s, x ∉ addrs o) (hS : addrs S ⊆ addrs s) (hx : x ∈ addrs s)
    (h : TreeAt L i par a (sided k' c b s o))
    (hs : xp = a ∧ x = L.child a b ∧ s = S ∧ (∀ g, s.modify (digit i) g k (d + 1) = g S) ∨
      Hangs L i a (L.child a b) k (d + 1) s xp x S) :
    Hangs L i par a k d (sided k' c b s o) xp x S := by
  obtain ⟨hn, hb, hother⟩ := treeAt_sided.mp h
  have hxa : x ≠ a := fun heq => (hcs a hn.mem).1 (heq ▸ hx)
  have haS : a ∉ addrs S := fun hmem => (hcs a hn.mem).1 (hS hmem)
  have hout : ∀ {y}, y ∈ c ∨ y ∈ addrs o → y ∉ addrs S := fun hy hmem => by
    rcases hy with hy | hy
    · exact (hcs _ hy).1 (hS hmem)
    · exact hso _ (hS hmem) hy
  rcases hs with ⟨rfl, rfl, rfl, hroot⟩ | hs
  · -- it hangs below the root
    have hside : L.child xp (!b) ≠ L.child xp b := fun heq => by
      have hne := hb.ne_zero hx
      exact hso _ hx (heq ▸ hother.root_mem (heq ▸ hne))
    refine ⟨hxa, mem_addrs_sided.mpr (.inl hn.mem), haS, ⟨b, rfl, hside⟩,
      fun {g L' x'} hg hsame hred => ?_⟩
    rw [hmod, hroot]
    refine treeAt_sided.mpr ⟨hn.congr hc (fun y hy => ?_) (fun y hy hya => ?_)
      (hred.parent.trans hn.parent), ?_, ?_⟩
    · rcases eq_or_ne y xp with rfl | hya
      · exact ⟨hred.fd, hred.bk, hred.index⟩
      · have := hsame y (mem_addrs_sided.mpr (.inl hy)) (hout (.inl hy)) hya
        exact ⟨this.fd, this.bk, this.index⟩
    · have := hsame y (mem_addrs_sided.mpr (.inl hy)) (hout (.inl hy)) hya
      exact ⟨this.parent, this.child⟩
    · rw [hred.child, if_pos rfl]
      exact hg
    · rw [hred.child, if_neg hside]
      refine hother.congr ho fun y hy =>
        hsame y (mem_addrs_sided.mpr (.inr (.inr hy))) (hout (.inr hy)) ?_
      rintro rfl
      exact (hcs y hn.mem).2 hy
  · have hxp : xp ∉ c ∧ xp ∉ addrs o :=
      ⟨fun hmem => (hcs xp hmem).1 hs.mem, fun hmem => hso xp hs.mem hmem⟩
    refine ⟨hxa, mem_addrs_sided.mpr (.inr (.inl hs.mem)), hs.not_mem, hs.side,
      fun {g L' x'} hg hsame hred => ?_⟩
    have hsame' : ∀ {y}, y ∈ c ∨ y ∈ addrs o → SameLinks L L' y := fun {y} hy => by
      refine hsame y (mem_addrs_sided.mpr (hy.imp_right .inr)) (hout hy) ?_
      rintro rfl
      exact hy.elim hxp.1 hxp.2
    rw [hmod]
    refine treeAt_sided.mpr ⟨hn.of_same hc fun y hy => hsame' (.inl hy), ?_, ?_⟩
    · rw [(hsame' (.inl hn.mem)).child]
      exact hs.modify hg (fun y hy => hsame y (mem_addrs_sided.mpr (.inr (.inl hy)))) hred
    · rw [(hsame' (.inl hn.mem)).child]
      exact hother.congr ho fun y hy => hsame' (.inr hy)

/-- The subtree of a key is the whole tree, or hangs below a node. -/
theorem TreeAt.locate (h : TreeAt L i par a T) (hnodup : (addrs T).Nodup)
    (hsub : T.subtree (digit i) k d = .node k c l r) :
    ∃ xp x, TreeAt L i xp x (.node k c l r) ∧
      (xp = par ∧ x = a ∧ T = .node k c l r ∧ (∀ g, T.modify (digit i) g k d = g (.node k c l r)) ∨
        Hangs L i par a k d T xp x (.node k c l r)) := by
  induction T generalizing par a d with
  | nil => cases hsub
  | node k' c' l' r' ihl ihr =>
    rw [addrs_node] at hnodup
    simp only [List.nodup_append, List.mem_append] at hnodup
    obtain ⟨hc, ⟨hl, hr, hlr⟩, hclr⟩ := hnodup
    have hkeep := h
    obtain ⟨hn, hl', hr'⟩ := h
    rw [Tree.subtree] at hsub
    split at hsub
    case isTrue hk =>
      subst hk
      exact ⟨par, a, hsub ▸ hkeep,
        .inl ⟨rfl, rfl, hsub, fun g => by rw [Tree.modify, if_pos rfl, hsub]⟩⟩
    case isFalse hk =>
      have hsubset : ∀ {s : BinTree}, s.subtree (digit i) k (d + 1) = .node k c l r →
          addrs (.node k c l r) ⊆ addrs s := fun {s} hs y hy => by
        obtain ⟨rest, hperm, -⟩ := Tree.modify_perm (digit i) k (d + 1) s
        rw [hs] at hperm
        obtain ⟨e, he, hye⟩ := mem_addrs.mp hy
        exact mem_addrs.mpr ⟨e, hperm.mem_iff.mpr (List.mem_append_left _ he), hye⟩
      have hmem : ∀ {xp x : Nat} {s : BinTree}, TreeAt L i xp x (.node k c l r) →
          addrs (.node k c l r) ⊆ addrs s → x ∈ addrs s := fun {xp x s} hS hs =>
        hs (hS.root_mem (hS.ne_zero (by simp [hS.1.mem])))
      split at hsub
      case isTrue hd =>
        obtain ⟨xp, x, hS, hx⟩ := ihr hr' hr hsub
        refine ⟨xp, x, hS, .inr (Hangs.step (b := true) (o := l') (fun g => ?_) hc hl
          (fun y hy => ⟨fun h => hclr y hy y (.inr h) rfl, fun h => hclr y hy y (.inl h) rfl⟩)
          (fun y hy h => hlr y h y hy rfl) (hsubset hsub) (hmem hS (hsubset hsub)) hkeep hx)⟩
        simp only [sided, cond_true]
        rw [Tree.modify, if_neg hk, if_pos hd]
      case isFalse hd =>
        obtain ⟨xp, x, hS, hx⟩ := ihl hl' hl hsub
        refine ⟨xp, x, hS, .inr (Hangs.step (b := false) (o := r') (fun g => ?_) hc hr
          (fun y hy => ⟨fun h => hclr y hy y (.inl h) rfl, fun h => hclr y hy y (.inr h) rfl⟩)
          (fun y hy h => hlr y hy y h rfl) (hsubset hsub) (hmem hS (hsubset hsub)) hkeep hx)⟩
        simp only [sided, cond_false]
        rw [Tree.modify, if_neg hk, if_neg hd]

/-! ## Linking a chunk -/

/-- The chunks of a tree are apart, have the sizes that the tree has for them, and pass the checks
of their addresses. -/
structure Fits (m : MState) (T : BinTree) : Prop where
  nodup : (addrs T).Nodup
  size : ∀ e ∈ T.toList, ∀ x ∈ e.2, m.chunksize x = e.1
  addr : ∀ x ∈ addrs T, m.leastAddr ≤ x ∧ x + 64 ≤ 2 ^ 64

/-- Of the links only those of the chunks `xs` have changed. -/
structure Touches (L L' : Links) (xs : List Nat) : Prop where
  same : ∀ y, y ∉ xs → SameLinks L L' y
  treebins : L'.treebins = L.treebins
  smallmap : L'.smallmap = L.smallmap
  treemap : L'.treemap = L.treemap
  base : L'.base = L.base

theorem Touches.mono {xs ys : List Nat} (h : Touches L L' xs) (hsub : xs ⊆ ys) : Touches L L' ys :=
  { h with same := fun y hy => h.same y (mt (@hsub y) hy) }

theorem Touches.trans {xs : List Nat} (h : Touches L L₁ xs) (h' : Touches L₁ L₂ xs) :
    Touches L L₂ xs where
  same y hy := (h.same y hy).trans (h'.same y hy)
  treebins := h'.treebins.trans h.treebins
  smallmap := h'.smallmap.trans h.smallmap
  treemap := h'.treemap.trans h.treemap
  base := h'.base.trans h.base

namespace Fits

theorem node (h : Fits m (.node k c l r)) :
    c.Nodup ∧ (∀ x ∈ c, m.chunksize x = k ∧ m.leastAddr ≤ x ∧ x + 64 ≤ 2 ^ 64) ∧
      Fits m l ∧ Fits m r ∧ (∀ x ∈ c, x ∉ addrs l ∧ x ∉ addrs r) ∧ ∀ x ∈ addrs l, x ∉ addrs r := by
  have hnodup := h.nodup
  have hsize := h.size
  have haddr := h.addr
  rw [addrs_node] at hnodup
  simp only [List.nodup_append, List.mem_append] at hnodup
  simp only [addrs_node, List.mem_append] at haddr
  simp only [Tree.toList_node, List.forall_mem_cons, List.mem_append] at hsize
  obtain ⟨hc, ⟨hl, hr, hlr⟩, hclr⟩ := hnodup
  exact ⟨hc, fun x hx => ⟨hsize.1 x hx, haddr x (.inl hx)⟩,
    ⟨hl, fun e he => hsize.2 e (.inl he), fun x hx => haddr x (.inr (.inl hx))⟩,
    ⟨hr, fun e he => hsize.2 e (.inr he), fun x hx => haddr x (.inr (.inr hx))⟩,
    fun x hx => ⟨fun h => hclr x hx x (.inl h) rfl, fun h => hclr x hx x (.inr h) rfl⟩,
    fun x hx h => hlr x hx x h rfl⟩

theorem okAddress (h : Fits m T) (hx : x ∈ addrs T) : m.okAddress x = true :=
  decide_eq_true (h.addr x hx).1

theorem okAddress_childField (h : Fits m T) (hx : x ∈ addrs T) :
    m.okAddress (Links.childField x b) = true := by
  obtain ⟨hle, hlt⟩ := h.addr x hx
  have hfield : Links.childField x b = x + if b then 40 else 32 :=
    addSize_eq (by split <;> omega)
  rw [hfield]
  exact decide_eq_true (by omega)

end Fits

/-- A chunk of `s` bytes is added to the tree, at the key `s`. -/
def addChunk (x s : Nat) : BinTree → BinTree
  | .nil => .node s [x] .nil .nil
  | .node k c l r => .node k (x :: c) l r

/-- The chunk is linked into the ring of the chunks of its size. -/
theorem NodeAt.push {par t : Nat} (h : NodeAt L i par t c) (hnodup : c.Nodup) (hx : x ∉ c)
    (hx0 : x ≠ 0) (hindex : L.index x = i) (hchild : ∀ b, L.child x b = 0) :
    NodeAt (((((L.setBk (L.fd t) x).setFd t x).setFd x (L.fd t)).setBk x t).setParent x 0) i par t
      (x :: c) := by
  obtain ⟨hpar, ⟨rest, rfl, hring, hrest⟩, hidx, hne⟩ := h
  have hxt : t ≠ x := by
    rintro rfl
    exact hx (by simp)
  have hxr : ∀ y ∈ rest, y ≠ x := by
    rintro y hy rfl
    exact hx (by simp [hy])
  have hfd := hring.next_mem List.mem_cons_self
  have hfdx : L.fd t ≠ x := fun heq => hx (heq ▸ hfd)
  constructor
  case parent => simp [Links.setParent, Links.setBk, Links.setFd, hxt, hpar]
  case ring =>
    refine ⟨x :: rest, rfl, hring.push hnodup ?_ ?_ ?_ ?_ (fun y hy => ?_) (fun y hy hyf => ?_), ?_⟩
    · simp [Links.setParent, Links.setBk, Links.setFd, hxt]
    · simp [Links.setParent, Links.setBk, Links.setFd]
    · simp [Links.setParent, Links.setBk, Links.setFd]
    · simp [Links.setParent, Links.setBk, Links.setFd, hfdx]
    · have hyt : y ≠ t := by
        rintro rfl
        exact List.disjoint_of_nodup_append hnodup hy List.mem_cons_self
      simp [Links.setParent, Links.setBk, Links.setFd, hyt, hxr y hy]
    · have hyx : y ≠ x := by
        rintro rfl
        exact hx hy
      simp [Links.setParent, Links.setBk, Links.setFd, hyf, hyx]
    · intro y hy
      rcases List.mem_cons.mp hy with rfl | hy
      · exact ⟨by simp [Links.setParent], hchild⟩
      · obtain ⟨hp, hch⟩ := hrest y hy
        exact ⟨by simpa [Links.setParent, Links.setBk, Links.setFd, hxr y hy] using hp,
          by simpa [Links.setParent, Links.setBk, Links.setFd] using hch⟩
  case index =>
    simpa [Links.setParent, Links.setBk, Links.setFd, hindex] using hidx
  case ne_zero => simpa [hx0] using hne

/-- A node with its two subtrees. -/
theorem Fits.sided {o : BinTree} (h : Fits m (sided k c b t o)) :
    c.Nodup ∧ (∀ x ∈ c, m.chunksize x = k ∧ m.leastAddr ≤ x ∧ x + 64 ≤ 2 ^ 64) ∧
      Fits m t ∧ Fits m o ∧ (∀ x ∈ c, x ∉ addrs t ∧ x ∉ addrs o) ∧ ∀ x ∈ addrs t, x ∉ addrs o := by
  cases b
  · exact h.node
  · obtain ⟨hc, hcm, ho, ht, hcd, hd⟩ := h.node
    exact ⟨hc, hcm, ht, ho, fun x hx => (hcd x hx).symm, fun x hx h => hd x h hx⟩

theorem treeAt_leaf (hparent : L.parent x = par) (hfd : L.fd x = x) (hbk : L.bk x = x)
    (hindex : L.index x = i) (hchild : ∀ b, L.child x b = 0) (hx0 : x ≠ 0) :
    TreeAt L i par x (.node s [x] .nil .nil) :=
  ⟨⟨hparent, ⟨[], rfl, ⟨hfd, hbk⟩, by simp⟩, by simpa using hindex, by simpa using hx0⟩,
    hchild false, hchild true⟩

/-- The chunk becomes a leaf below `t`. -/
theorem TreeAt.attach {o : BinTree} {t : Nat}
    (h : TreeAt L i par t (sided k c b .nil o)) (hfits : Fits m (sided k c b .nil o))
    (hx : x ∉ addrs (sided k c b .nil o)) (hx0 : x ≠ 0) (hindex : L.index x = i)
    (hchild : ∀ b, L.child x b = 0) :
    TreeAt ((((L.setChild t b x).setParent x t).setBk x x).setFd x x) i par t
      (sided k c b (.node s [x] .nil .nil) o) := by
  obtain ⟨hn, -, ho⟩ := treeAt_sided.mp h
  obtain ⟨hc, -, -, hfo, hcd, -⟩ := hfits.sided
  rw [mem_addrs_sided, not_or, not_or] at hx
  have hxt : x ≠ t := fun h => hx.1 (h ▸ hn.mem)
  have hsame : ∀ y, y ≠ x → y ≠ t →
      SameLinks L ((((L.setChild t b x).setParent x t).setBk x x).setFd x x) y := fun y hyx hyt =>
    (((SameLinks.setChild hyt).trans (.setParent hyx)).trans (.setBk hyx)).trans (.setFd hyx)
  refine treeAt_sided.mpr ⟨hn.congr hc (fun y hy => ?_) (fun y hy hyt => ?_) ?_, ?_, ?_⟩
  · have hyx : y ≠ x := fun h => hx.1 (h ▸ hy)
    simp [Links.setFd, Links.setBk, Links.setParent, Links.setChild, hyx]
  · have := hsame y (fun h => hx.1 (h ▸ hy)) hyt
    exact ⟨this.parent, this.child⟩
  · simp [Links.setFd, Links.setBk, Links.setParent, Links.setChild, hxt.symm, hn.parent]
  · have hxc : ((((L.setChild t b x).setParent x t).setBk x x).setFd x x).child t b = x := by
      simp [Links.setFd, Links.setBk, Links.setParent, Links.setChild]
    have hxn : ∀ b', ((((L.setChild t b x).setParent x t).setBk x x).setFd x x).child x b' = 0 := by
      simpa [Links.setFd, Links.setBk, Links.setParent, Links.setChild, hxt] using hchild
    rw [hxc]
    refine treeAt_leaf ?_ ?_ ?_ ?_ hxn hx0
    · simp [Links.setFd, Links.setBk, Links.setParent]
    · simp [Links.setFd]
    · simp [Links.setFd, Links.setBk]
    · simpa [Links.setFd, Links.setBk, Links.setParent, Links.setChild] using hindex
  · have hkeep : ((((L.setChild t b x).setParent x t).setBk x x).setFd x x).child t (!b) =
        L.child t (!b) := by
      simp [Links.setFd, Links.setBk, Links.setParent, Links.setChild]
    rw [hkeep]
    exact ho.congr hfo.nodup fun y hy => hsame y (fun h => hx.2.2 (h ▸ hy)) fun h =>
      (hcd t hn.mem).2 (h ▸ hy)

/-- One step down. -/
theorem TreeAt.link_step {S S' o : BinTree} {t : Nat} {go : Except Fault Links}
    (h : TreeAt L i par t (sided k c b S o)) (hfits : Fits m (sided k c b S o))
    (hx : x ∉ addrs (sided k c b S o)) (hx0 : x ≠ 0) (hindex : L.index x = i)
    (hchild : ∀ b, L.child x b = 0) (hleaf : S = .nil → S' = .node s [x] .nil .nil)
    (hgo : S ≠ .nil → ∃ L', go = .ok L' ∧ TreeAt L' i t (L.child t b) S' ∧
      Touches L L' (x :: addrs S)) :
    ∃ L', (if L.child t b != 0 then go
        else if m.okAddress (Links.childField t b) then
          return (((L.setChild t b x).setParent x t).setBk x x).setFd x x
        else abort) = .ok L' ∧
      TreeAt L' i par t (sided k c b S' o) ∧ Touches L L' (x :: addrs (sided k c b S o)) := by
  obtain ⟨hn, hS, ho⟩ := treeAt_sided.mp h
  obtain ⟨hc, -, -, hfo, hcd, hd⟩ := hfits.sided
  have hx' := hx
  rw [mem_addrs_sided, not_or, not_or] at hx'
  have htm : t ∈ addrs (sided k c b S o) := mem_addrs_sided.mpr (.inl hn.mem)
  by_cases hnil : S = .nil
  · subst hnil
    rw [hleaf rfl, hfits.okAddress_childField htm, show L.child t b = 0 from hS]
    refine ⟨_, rfl, h.attach hfits hx hx0 hindex hchild, fun y hy => ?_, rfl, rfl, rfl, rfl⟩
    have hyx : y ≠ x := fun h => hy (h ▸ List.mem_cons_self)
    have hyt : y ≠ t := fun h => hy (List.mem_cons_of_mem _ (h ▸ htm))
    exact (((SameLinks.setChild hyt).trans (.setParent hyx)).trans (.setBk hyx)).trans (.setFd hyx)
  · obtain ⟨L', rfl, hS', htouch⟩ := hgo hnil
    have hne : L.child t b ≠ 0 := fun h0 => hnil (hS.eq_zero_iff.mp h0)
    have hsame : ∀ y, y ∈ c ∨ y ∈ addrs o → SameLinks L L' y := fun y hy => by
      refine htouch.same y fun hmem => ?_
      rcases List.mem_cons.mp hmem with rfl | hmem
      · exact hy.elim hx'.1 hx'.2.2
      · exact hy.elim (fun hy => (hcd y hy).1 hmem) (hd y hmem)
    refine ⟨L', if_pos (by simpa using hne), treeAt_sided.mpr
      ⟨hn.of_same hc fun y hy => hsame y (.inl hy), ?_, ?_⟩, htouch.mono ?_⟩
    · rw [(hsame t (.inl hn.mem)).child]
      exact hS'
    · rw [(hsame t (.inl hn.mem)).child]
      exact ho.congr hfo.nodup fun y hy => hsame y (.inr hy)
    · refine List.cons_subset_cons _ fun y hy => mem_addrs_sided.mpr (.inr (.inl hy))

theorem linkLargeChunk_spec {t : Nat} (h : TreeAt L i par t T) (hT : T ≠ .nil) (hfits : Fits m T)
    (hx : x ∉ addrs T) (hx0 : x ≠ 0) (hindex : L.index x = i) (hchild : ∀ b, L.child x b = 0)
    (hfuel : T.toList.length ≤ fuel) :
    ∃ L', Links.linkLargeChunk m x s fuel t (sizeBits i s d) L = .ok L' ∧
      TreeAt L' i par t (T.modify (digit i) (addChunk x s) s d) ∧ Touches L L' (x :: addrs T) := by
  induction T generalizing par t d fuel with
  | nil => exact absurd rfl hT
  | node k c l r ihl ihr =>
    obtain ⟨fuel, rfl⟩ : ∃ n, fuel = n + 1 := ⟨fuel - 1, by simp at hfuel; omega⟩
    have hkeep := h
    obtain ⟨hn, hl, hr⟩ := h
    have hok : m.okAddress t := hfits.okAddress (by simp [hn.mem])
    have hokc : ∀ b, m.okAddress (Links.childField t b) = true := fun b =>
      hfits.okAddress_childField (by simp [hn.mem])
    have hkeep' := hfits
    obtain ⟨hc, hcm, hfl, hfr, hclr, hlr⟩ := hfits.node
    have hx' := hx
    simp only [addrs_node, List.mem_append, not_or] at hx'
    have hxt : x ≠ t := by
      rintro rfl
      exact hx'.1 hn.mem
    unfold Links.linkLargeChunk
    rw [(hcm t hn.mem).1]
    split
    case isFalse heq =>
      -- the chunk joins the ring of its size
      have hks : k = s := by simpa using heq
      have hfd : L.fd t ∈ c := by
        obtain ⟨rest, rfl, hring, -⟩ := hn.ring
        exact hring.next_mem List.mem_cons_self
      have hokf : m.okAddress (L.fd t) = true := hkeep'.okAddress (by simp [hfd])
      dsimp only
      rw [hok, hokf, Bool.and_self, if_pos rfl]
      have hsame : ∀ y, y ≠ x → y ∉ c → SameLinks L (((((L.setBk (L.fd t) x).setFd t x).setFd x
          (L.fd t)).setBk x t).setParent x 0) y := fun y hyx hyc => by
        have hyt : y ≠ t := fun h => hyc (h ▸ hn.mem)
        have hyf : y ≠ L.fd t := fun h => hyc (h ▸ hfd)
        exact ((((SameLinks.setBk hyf).trans (.setFd hyt)).trans (.setFd hyx)).trans
          (.setBk hyx)).trans (.setParent hyx)
      refine ⟨_, rfl, ?_, fun y hy => ?_, rfl, rfl, rfl, rfl⟩
      · rw [Tree.modify, if_pos hks]
        refine ⟨hn.push hc hx'.1 hx0 hindex hchild, hl.congr hfl.nodup fun y hy => ?_,
          hr.congr hfr.nodup fun y hy => ?_⟩
        · exact hsame y (fun h => hx'.2.1 (h ▸ hy)) fun h => (hclr y h).1 hy
        · exact hsame y (fun h => hx'.2.2 (h ▸ hy)) fun h => (hclr y h).2 hy
      · simp only [List.mem_cons, addrs_node, List.mem_append, not_or] at hy
        exact hsame y hy.1 hy.2.1
    case isTrue hne =>
      have hks : k ≠ s := by simpa using hne
      dsimp only
      rw [Tree.modify, if_neg hks, ← sizeBits_succ]
      have hleaf : ∀ d, (.nil : BinTree).modify (digit i) (addChunk x s) s d =
          .node s [x] .nil .nil := fun _ => rfl
      simp only [Tree.toList_node, List.length_cons, List.length_append] at hfuel
      change ∃ L', (if L.child t (digit i s d) != 0 then Links.linkLargeChunk m x s fuel
          (L.child t (digit i s d)) (sizeBits i s (d + 1)) L
        else if m.okAddress (Links.childField t (digit i s d)) then
          return (((L.setChild t (digit i s d) x).setParent x t).setBk x x).setFd x x
        else abort) = .ok L' ∧ _
      cases digit i s d with
      | false =>
        refine TreeAt.link_step (b := false) hkeep hkeep' hx hx0 hindex hchild
          (fun h => by rw [h, hleaf]) fun hnil => ?_
        exact ihl hl hnil hfl hx'.2.1 (by omega)
      | true =>
        refine TreeAt.link_step (b := true) hkeep hkeep' hx hx0 hindex hchild
          (fun h => by rw [h, hleaf]) fun hnil => ?_
        exact ihr hr hnil hfr hx'.2.2 (by omega)

/-! ## A bin -/

/-- Of the links only those of the chunks `xs` and those of the bin `i` have changed. -/
structure TouchesBin (L L' : Links) (i : Nat) (xs : List Nat) : Prop where
  same : ∀ y, y ∉ xs → SameLinks L L' y
  treebins : ∀ j, j ≠ i → L'.treebins j = L.treebins j
  treemap : ∀ j, j ≠ i → L'.treemap.testBit j = L.treemap.testBit j
  smallmap : L'.smallmap = L.smallmap
  base : L'.base = L.base
  lt : L'.treemap < 2 ^ 32

/-- The bin `i` is the tree `T`, and is marked if there is one. -/
structure IsTree (L : Links) (i : Nat) (T : BinTree) : Prop where
  tree : TreeAt L i (L.treebinAt i) (L.treebins i) T
  marked : L.treemap.testBit i = true ↔ T ≠ .nil
  lt : L.treemap < 2 ^ 32

theorem TouchesBin.trans {xs : List Nat} (h : TouchesBin L L₁ i xs) (h' : TouchesBin L₁ L₂ i xs) :
    TouchesBin L L₂ i xs where
  same y hy := (h.same y hy).trans (h'.same y hy)
  treebins j hj := (h'.treebins j hj).trans (h.treebins j hj)
  treemap j hj := (h'.treemap j hj).trans (h.treemap j hj)
  smallmap := h'.smallmap.trans h.smallmap
  base := h'.base.trans h.base
  lt := h'.lt

theorem Touches.touchesBin {xs ys : List Nat} (h : Touches L L' xs) (hsub : xs ⊆ ys)
    (hlt : L.treemap < 2 ^ 32) : TouchesBin L L' i ys where
  same y hy := h.same y (mt (@hsub y) hy)
  treebins j _ := by rw [h.treebins]
  treemap j _ := by rw [h.treemap]
  smallmap := h.smallmap
  base := h.base
  lt := by rw [h.treemap]; exact hlt

/-- `insert_large_chunk` adds the chunk to the tree of its bin. -/
theorem insertLargeChunk_spec (h : IsTree L i T) (hfits : Fits m T) (hi : computeTreeIndex s = i)
    (hx : x ∉ addrs T) (hx0 : x ≠ 0) (hfuel : T.toList.length ≤ fuel) :
    ∃ L', L.insertLargeChunk m fuel x s = .ok L' ∧
      IsTree L' i (T.modify (digit i) (addChunk x s) s 0) ∧ TouchesBin L L' i (x :: addrs T) := by
  have hlt : i < 32 := hi ▸ computeTreeIndex_lt
  have hsame : ∀ y, y ≠ x →
      SameLinks L (((L.setIndex x i).setChild x true 0).setChild x false 0) y :=
    fun y hy => ((SameLinks.setIndex hy).trans (.setChild hy)).trans (.setChild hy)
  have hchild : ∀ b, (((L.setIndex x i).setChild x true 0).setChild x false 0).child x b = 0 := by
    intro b
    cases b <;> simp [Links.setChild]
  unfold Links.insertLargeChunk
  dsimp only
  rw [hi]
  generalize hL : ((L.setIndex x i).setChild x true 0).setChild x false 0 = L₀ at hsame hchild
  have hindex : L₀.index x = i := by simp [← hL, Links.setChild, Links.setIndex]
  have hmap : L₀.treemap = L.treemap := by rw [← hL]; rfl
  have hbins : L₀.treebins = L.treebins := by rw [← hL]; rfl
  have hsmall : L₀.smallmap = L.smallmap := by rw [← hL]; rfl
  have hbase : L₀.base = L.base := by rw [← hL]; rfl
  have hmark : L₀.treemapIsMarked i = L.treemap.testBit i := by
    rw [Links.treemapIsMarked, marked_eq hlt, hmap]
  rw [hmark]
  by_cases hT : T = .nil
  · have hfree : L.treemap.testBit i = false := by
      rw [Bool.eq_false_iff]
      exact fun hbit => h.marked.mp hbit hT
    subst hT
    rw [hfree, Bool.not_false, if_pos rfl]
    have hbit : ∀ j, (L₀.markTreemap i).treemap.testBit j =
        (L.treemap.testBit j || decide (i = j)) := fun j => by rw [← hmap]; exact testBit_mark hlt
    have hroot : ((((((L₀.markTreemap i).setTreebin i x).setParent x (L₀.treebinAt i)).setBk x
        x).setFd x x)).treebins i = x := by
      simp [Links.setFd, Links.setBk, Links.setParent, Links.setTreebin]
    refine ⟨_, rfl,
      ⟨?_, iff_of_true ((hbit i).trans (by simp)) (by simp [Tree.modify, addChunk]), ?_⟩,
      ⟨fun y hy => ?_, fun j hj => ?_, fun j hj => ?_, hsmall, hbase, ?_⟩⟩
    · rw [hroot]
      refine treeAt_leaf ?_ ?_ ?_ ?_ (fun b => ?_) hx0
      · simp [Links.setFd, Links.setBk, Links.setParent, Links.treebinAt, Links.setTreebin,
          Links.markTreemap]
      · simp [Links.setFd]
      · simp [Links.setFd, Links.setBk]
      · exact hindex
      · exact hchild b
    · exact mark_lt (hmap ▸ h.lt) hlt
    · have hyx : y ≠ x := fun heq => hy (heq ▸ List.mem_cons_self)
      obtain ⟨hfd, hbk, hch, hpar, hidx⟩ := hsame y hyx
      have hs : SameLinks L ((L₀.markTreemap i).setTreebin i x) y := ⟨hfd, hbk, hch, hpar, hidx⟩
      exact ((hs.trans (.setParent hyx)).trans (.setBk hyx)).trans (.setFd hyx)
    · simp [Links.setFd, Links.setBk, Links.setParent, Links.setTreebin, Links.markTreemap, hj,
        hbins]
    · exact (hbit j).trans (by simp [hj.symm])
    · exact mark_lt (hmap ▸ h.lt) hlt
  · have hbit := h.marked.mpr hT
    rw [hbit, Bool.not_true, if_neg Bool.false_ne_true, hbins, ← sizeBits_zero]
    have htree : TreeAt L₀ i (L.treebinAt i) (L.treebins i) T :=
      h.tree.congr hfits.nodup fun y hy => hsame y fun heq => hx (heq ▸ hy)
    obtain ⟨L', hgo, htree', ht⟩ := linkLargeChunk_spec (s := s) (d := 0) htree hT hfits hx hx0
      hindex hchild hfuel
    have htouch : TouchesBin L L' i (x :: addrs T) := by
      have ht₀ : TouchesBin L L₀ i (x :: addrs T) :=
        ⟨fun y hy => hsame y fun heq => hy (heq ▸ List.mem_cons_self), fun j _ => by rw [hbins],
          fun j _ => by rw [hmap], hsmall, hbase, hmap ▸ h.lt⟩
      exact ht₀.trans (ht.touchesBin (List.Subset.refl _) ht₀.lt)
    have hroot : L'.treebins i = L.treebins i := by rw [ht.treebins, hbins]
    have hnew : TreeAt L' i (L'.treebinAt i) (L'.treebins i)
        (T.modify (digit i) (addChunk x s) s 0) := by
      rw [Links.treebinAt, htouch.base, ← Links.treebinAt, hroot]
      exact htree'
    refine ⟨L', hgo, ⟨hnew, ?_, htouch.lt⟩, htouch⟩
    rw [ht.treemap, hmap]
    refine iff_of_true hbit (mt hnew.eq_zero_iff.mpr ?_)
    rw [hroot]
    exact mt h.tree.eq_zero_iff.mp hT

end PrecisionGc.Dlmalloc
