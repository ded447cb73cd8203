import PrecisionGc.Verify.BinTrees

/-!
# Unlinking from a trie

A node of a tree bin is replaced by another chunk of its size, or by the rightmost leaf below it.
-/

namespace PrecisionGc.Dlmalloc
open DigitalTree Ring

variable {L L' L₁ L₂ : Links} {m : MState} {i par par' a x y v s k d fuel : Nat} {b : Bool}
  {c : List Nat} {t l r T : BinTree}

/-- The chunk is dropped from the chunks of its size; a leaf takes the place of a node that has no
chunk left. -/
def dropChunk (x : Nat) : BinTree → BinTree
  | .nil => .nil
  | .node k c l r => if c.erase x = [] then Tree.merge l r else .node k (c.erase x) l r

/-- The tree of the node `z` without children, to be put in the place of `x`. -/
structure StandsIn (L : Links) (i x z : Nat) (c : List Nat) (l r : BinTree) : Prop where
  node : NodeAt L i (L.parent z) z c
  leaf : ∀ b, L.child z b = 0
  left : TreeAt L i x (L.child x false) l
  right : TreeAt L i x (L.child x true) r

theorem Fits.of_perm {t' : BinTree} {es : List (Nat × List Nat)} (h : Fits m t)
    (hperm : t.toList.Perm (es ++ t'.toList)) : Fits m t' where
  nodup := ((addrs_perm hperm).nodup_iff.mp h.nodup).of_append_right
  size e he := h.size e (hperm.mem_iff.mpr (List.mem_append_right _ he))
  addr x hx := h.addr x ((addrs_perm hperm).mem_iff.mpr (List.mem_append_right _ hx))

/-- A child is cut off below the root. -/
theorem TreeAt.cut_step {q q' : Nat} {b' e : Bool} {S S' o : BinTree}
    (h : TreeAt L i q a (sided k c e S o)) (hfits : Fits m (sided k c e S o))
    (hq : q ∉ addrs (sided k c e S o)) (hroot : L.child q b = a) (hq' : q' ∈ a :: addrs S)
    (hb : q' = a → b' = e)
    (hS : TreeAt (L.setChild q' b' 0) i a ((L.setChild q' b' 0).child a e) S') :
    TreeAt (L.setChild q' b' 0) i q ((L.setChild q' b' 0).child q b) (sided k c e S' o) := by
  obtain ⟨hn, -, ho⟩ := treeAt_sided.mp h
  obtain ⟨hc, -, -, hfo, hcd, hd⟩ := hfits.sided
  rw [mem_addrs_sided, not_or, not_or] at hq
  have hout : ∀ y, y ∈ c ∨ y ∈ addrs o → y ≠ a → y ≠ q' := by
    rintro y hy hya rfl
    rcases List.mem_cons.mp hq' with rfl | hmem
    · exact hya rfl
    · exact hy.elim (fun hy => (hcd y hy).1 hmem) (hd y hmem)
  have hqq : q ≠ q' := by
    rintro rfl
    rcases List.mem_cons.mp hq' with rfl | hmem
    · exact hq.1 hn.mem
    · exact hq.2.1 hmem
  have hchild : (L.setChild q' b' 0).child a (!e) = L.child a (!e) := by
    rcases eq_or_ne q' a with rfl | hne
    · rw [hb rfl]
      simp [Links.setChild]
    · simp [Links.setChild, Function.update_of_ne hne.symm]
  have hkeep : (L.setChild q' b' 0).child q b = a := by
    rw [← hroot]
    exact congrFun (SameLinks.setChild hqq).child b
  rw [hkeep]
  refine treeAt_sided.mpr ⟨hn.congr hc (fun y hy => ⟨rfl, rfl, rfl⟩) (fun y hy hya => ⟨rfl, ?_⟩)
    hn.parent, hS, ?_⟩
  · exact (SameLinks.setChild (hout y (.inl hy) hya)).child
  · rw [hchild]
    refine ho.congr hfo.nodup fun y hy => SameLinks.setChild (hout y (.inr hy) ?_)
    rintro rfl
    exact (hcd y hn.mem).2 hy

/-- The rightmost leaf is cut off. -/
theorem TreeAt.rightmost {q : Nat} (h : TreeAt L i q a t) (hfits : Fits m t) (ht : t ≠ .nil)
    (hq : q ∉ addrs t) (hroot : L.child q b = a) (hfuel : t.toList.length ≤ fuel) :
    ∃ z q' b' e t', t.pop = some (e, t') ∧ L.rightmost fuel a (q, b) = .ok (z, q', b') ∧
      q' ∈ q :: addrs t ∧ (q' = q → b' = b) ∧ q' ∉ e.2 ∧ (∀ b, L.child z b = 0) ∧
      NodeAt L i q' z e.2 ∧
      TreeAt (L.setChild q' b' 0) i q ((L.setChild q' b' 0).child q b) t' := by
  induction t generalizing q a b fuel with
  | nil => exact absurd rfl ht
  | node k c l r ihl ihr =>
    obtain ⟨fuel, rfl⟩ : ∃ n, fuel = n + 1 := ⟨fuel - 1, by simp at hfuel; omega⟩
    have hkeep := h
    have hfits' := hfits
    have hq' := hq
    obtain ⟨hn, hl, hr⟩ := h
    obtain ⟨hc, -, hfl, hfr, hclr, hlr⟩ := hfits.node
    simp only [Tree.toList_node, List.length_cons, List.length_append] at hfuel
    simp only [addrs_node, List.mem_append, not_or] at hq
    have hne : ∀ {y}, y ∈ a :: addrs l ∨ y ∈ a :: addrs r → y ≠ q := by
      rintro y hy rfl
      rcases hy with hy | hy <;> rcases List.mem_cons.mp hy with rfl | hy
      · exact hq.1 hn.mem
      · exact hq.2.1 hy
      · exact hq.1 hn.mem
      · exact hq.2.2 hy
    unfold Links.rightmost
    by_cases hrn : r = .nil
    · subst hrn
      rw [show L.child a true = 0 from hr, if_neg (by simp)]
      by_cases hln : l = .nil
      · subst hln
        rw [show L.child a false = 0 from hl, if_neg (by simp)]
        refine ⟨a, q, b, (k, c), .nil, rfl, rfl, List.mem_cons_self, fun _ => rfl, hq.1,
          fun b' => ?_, hn, by simp [Links.setChild]⟩
        cases b'
        · exact hl
        · exact hr
      · rw [if_pos (by simpa using mt hl.eq_zero_iff.mp hln)]
        obtain ⟨z, q', b', e, l', hpop, hgo, hmem, hb, hqe, hleaf, hz, hcut⟩ :=
          ihl (b := false) hl hfl hln (hclr a hn.mem).1 rfl (show _ ≤ fuel by omega)
        refine ⟨z, q', b', e, .node k c l' .nil, by simp [Tree.pop, hpop], hgo, ?_,
          fun heq => absurd heq (hne (.inl hmem)), hqe, hleaf, hz, ?_⟩
        · rw [addrs_node]
          rcases List.mem_cons.mp hmem with rfl | hmem
          · exact List.mem_cons_of_mem _ (List.mem_append_left _ hn.mem)
          · simp [hmem]
        · exact TreeAt.cut_step (e := false) (o := .nil) hkeep hfits' hq' hroot hmem hb hcut
    · rw [if_pos (by simpa using mt hr.eq_zero_iff.mp hrn)]
      obtain ⟨z, q', b', e, r', hpop, hgo, hmem, hb, hqe, hleaf, hz, hcut⟩ :=
        ihr (b := true) hr hfr hrn (hclr a hn.mem).2 rfl (show _ ≤ fuel by omega)
      refine ⟨z, q', b', e, .node k c l r', by simp [Tree.pop, hpop], hgo, ?_,
        fun heq => absurd heq (hne (.inr hmem)), hqe, hleaf, hz, ?_⟩
      · rw [addrs_node]
        rcases List.mem_cons.mp hmem with rfl | hmem
        · exact List.mem_cons_of_mem _ (List.mem_append_left _ hn.mem)
        · simp [hmem]
      · exact TreeAt.cut_step (e := true) (o := l) hkeep hfits' hq' hroot hmem hb hcut

theorem adopt_spec {z : Nat} (ht : TreeAt L i x (L.child x b) t) (hfits : Fits m t)
    (hz : z ∉ addrs t) (hleaf : L.child z b = 0) :
    ∃ L', L.adopt m x z b = .ok L' ∧ TreeAt L' i z (L'.child z b) t ∧
      Touches L L' (z :: addrs t) ∧ L'.child z (!b) = L.child z (!b) ∧ L'.fd z = L.fd z ∧
      L'.bk z = L.bk z ∧ L'.parent z = L.parent z ∧ L'.index z = L.index z := by
  unfold Links.adopt
  by_cases hnil : t = .nil
  · subst hnil
    rw [show L.child x b = 0 from ht]
    exact ⟨L, rfl, hleaf, ⟨fun y _ => .refl, rfl, rfl, rfl, rfl⟩, rfl, rfl, rfl, rfl, rfl⟩
  · have hne := mt ht.eq_zero_iff.mp hnil
    have hmem := ht.root_mem hne
    have hzc : z ≠ L.child x b := fun heq => hz (heq ▸ hmem)
    rw [if_pos (by simpa using hne), hfits.okAddress hmem, if_pos rfl]
    refine ⟨_, rfl, ?_, ⟨fun y hy => ?_, rfl, rfl, rfl, rfl⟩, ?_, rfl, rfl, ?_, rfl⟩
    · have hchild : ((L.setChild z b (L.child x b)).setParent (L.child x b) z).child z b =
          L.child x b := by simp [Links.setChild, Links.setParent]
      rw [hchild]
      refine ht.reparent hfits.nodup (fun y hy hyc => ?_) ?_ (by simp [Links.setParent])
      · have hyz : y ≠ z := fun heq => hz (heq ▸ hy)
        exact (SameLinks.setChild hyz).trans (.setParent hyc)
      · refine ⟨rfl, rfl, (SameLinks.setChild hzc.symm).child, ?_, rfl⟩
        simp [Links.setParent]
    · rw [List.mem_cons, not_or] at hy
      exact (SameLinks.setChild hy.1).trans (.setParent fun heq => hy.2 (heq ▸ hmem))
    · simp [Links.setChild, Links.setParent]
    · simp [Links.setChild, Links.setParent, hzc]

/-- The tree is put in the place of `x`. -/
theorem StandsIn.adopt {xp z : Nat} {kz : Nat} (h : StandsIn L i x z c l r)
    (hfits : Fits m (.node kz c l r)) (hx : x ∉ addrs (.node kz c l r)) :
    ∃ L', (do
        let L ← (L.setParent z xp).adopt m x z false
        L.adopt m x z true) = .ok L' ∧
      TreeAt L' i xp z (.node kz c l r) ∧ Touches L L' (addrs (.node kz c l r)) := by
  obtain ⟨hn, hleaf, hl, hr⟩ := h
  obtain ⟨hc, -, hfl, hfr, hclr, hlr⟩ := hfits.node
  simp only [addrs_node, List.mem_append, not_or] at hx
  have hxz : x ≠ z := fun heq => hx.1 (heq ▸ hn.mem)
  have hzl := hclr z hn.mem
  have hl' : TreeAt (L.setParent z xp) i x ((L.setParent z xp).child x false) l :=
    hl.congr hfl.nodup fun y hy => SameLinks.setParent fun heq => hzl.1 (heq ▸ hy)
  obtain ⟨L₁, h₁, hl₁, ht₁, hc₁, hfd₁, hbk₁, hp₁, hi₁⟩ := adopt_spec hl' hfl hzl.1 (hleaf false)
  have hrest : ∀ y, y ∉ addrs l → y ≠ z → SameLinks L L₁ y := fun y hy hyz =>
    (SameLinks.setParent hyz).trans (ht₁.same y (by simp [hy, hyz]))
  have hr' : TreeAt L₁ i x (L₁.child x true) r := by
    rw [(hrest x hx.2.1 hxz).child]
    refine hr.congr hfr.nodup fun y hy => hrest y (fun hyl => hlr y hyl hy) ?_
    rintro rfl
    exact hzl.2 hy
  obtain ⟨L₂, h₂, hr₂, ht₂, hc₂, hfd₂, hbk₂, hp₂, hi₂⟩ := adopt_spec hr' hfr hzl.2
    (hc₁.trans (hleaf true))
  have hrest₂ : ∀ y, y ∉ addrs l → y ∉ addrs r → y ≠ z → SameLinks L L₂ y := fun y hyl hyr hyz =>
    (hrest y hyl hyz).trans (ht₂.same y (by simp [hyr, hyz]))
  refine ⟨L₂, by rw [h₁]; exact h₂, ⟨hn.congr hc (fun y hy => ?_) (fun y hy hyz => ?_) ?_, ?_, hr₂⟩,
    ⟨fun y hy => ?_, ?_, ?_, ?_, ?_⟩⟩
  · rcases eq_or_ne y z with rfl | hyz
    · exact ⟨hfd₂.trans hfd₁, hbk₂.trans hbk₁, hi₂.trans hi₁⟩
    · have := hrest₂ y (hclr y hy).1 (hclr y hy).2 hyz
      exact ⟨this.fd, this.bk, this.index⟩
  · have := hrest₂ y (hclr y hy).1 (hclr y hy).2 hyz
    exact ⟨this.parent, this.child⟩
  · rw [hp₂, hp₁]
    simp [Links.setParent]
  · have hlz : L₂.child z false = L₁.child z false := hc₂
    rw [hlz]
    refine hl₁.congr hfl.nodup fun y hy => ht₂.same y ?_
    rw [List.mem_cons, not_or]
    exact ⟨fun heq => hzl.1 (heq ▸ hy), hlr y hy⟩
  · simp only [addrs_node, List.mem_append, not_or] at hy
    exact hrest₂ y hy.2.1 hy.2.2 fun heq => hy.1 (heq ▸ hn.mem)
  · exact ht₂.treebins.trans ht₁.treebins
  · exact ht₂.smallmap.trans ht₁.smallmap
  · exact ht₂.treemap.trans ht₁.treemap
  · exact ht₂.base.trans ht₁.base

/-- The neighbours of `x` in its ring are linked to each other. -/
def unring (L : Links) (x : Nat) : Links := (L.setBk (L.fd x) (L.bk x)).setFd (L.bk x) (L.fd x)

namespace NodeAt

theorem fd_mem (h : NodeAt L i par a c) (hx : x ∈ c) : L.fd x ∈ c := by
  obtain ⟨rest, rfl, hring, -⟩ := h.ring
  exact hring.next_mem (by simpa [or_comm] using hx)

theorem bk_mem (h : NodeAt L i par a c) (hx : x ∈ c) : L.bk x ∈ c := by
  obtain ⟨rest, rfl, hring, -⟩ := h.ring
  simpa [or_comm] using hring.prev_mem hx

theorem bk_fd (h : NodeAt L i par a c) (hx : x ∈ c) : L.bk (L.fd x) = x := by
  obtain ⟨rest, rfl, hring, -⟩ := h.ring
  exact hring.prev_next (by simpa [or_comm] using hx)

theorem fd_bk (h : NodeAt L i par a c) (hx : x ∈ c) : L.fd (L.bk x) = x := by
  obtain ⟨rest, rfl, hring, -⟩ := h.ring
  exact hring.next_prev hx

theorem bk_ne (h : NodeAt L i par a c) (hnodup : c.Nodup) (hx : x ∈ c) (hc : c.erase x ≠ []) :
    L.bk x ≠ x := by
  obtain ⟨rest, rfl, hring, -⟩ := h.ring
  refine hring.prev_ne hnodup ?_ hx
  rintro rfl
  obtain rfl := List.mem_singleton.mp hx
  simp at hc

/-- A chunk that is no node is unlinked. -/
theorem unring (h : NodeAt L i par a c) (hnodup : c.Nodup) (hx : x ∈ c) (hxa : x ≠ a) :
    NodeAt (unring L x) i par a (c.erase x) := by
  have hsub := List.erase_subset (a := x) (l := c)
  have hnd := hnodup.erase x
  obtain ⟨hpar, ⟨rest, rfl, hring, hfree⟩, hindex, hne⟩ := h
  obtain ⟨l₁, l₂, rfl⟩ := List.append_of_mem (show x ∈ rest by simpa [hxa] using hx)
  have hx₁ : x ∉ l₁ := fun hmem => by
    rw [List.append_assoc] at hnodup
    exact List.disjoint_of_nodup_append hnodup hmem (by simp)
  have herase : (l₁ ++ x :: l₂ ++ [a]).erase x = l₁ ++ l₂ ++ [a] := by
    rw [List.append_assoc, List.erase_append_right _ hx₁]
    simp
  rw [herase] at hsub hnd ⊢
  refine ⟨hpar, ⟨l₁ ++ l₂, rfl, hring.remove ?_ hnd ?_ ?_ (fun y _ hy => ?_) fun y _ hy => ?_,
    fun y hy => hfree y ?_⟩, fun y hy => hindex y (hsub hy), fun y hy => hne y (hsub hy)⟩
  · exact (List.perm_append_singleton a (l₁ ++ l₂)).nodup_iff.mp hnd
  · simp [Dlmalloc.unring, Links.setFd]
  · simp [Dlmalloc.unring, Links.setFd, Links.setBk]
  · simp [Dlmalloc.unring, Links.setFd, Links.setBk, hy]
  · simp [Dlmalloc.unring, Links.setFd, Links.setBk, hy]
  · rcases List.mem_append.mp hy with hy | hy
    · simp [hy]
    · simp [hy]

/-- The node itself is unlinked: the oldest of the other chunks is the new one. -/
theorem unring_node (h : NodeAt L i par x c) (hnodup : c.Nodup) (hc : c.erase x ≠ []) :
    NodeAt (Dlmalloc.unring L x) i (L.parent (L.bk x)) (L.bk x) (c.erase x) ∧
      ∀ b, L.child (L.bk x) b = 0 := by
  have hsub := List.erase_subset (a := x) (l := c)
  have hnd := hnodup.erase x
  obtain ⟨hpar, ⟨rest, rfl, hring, hfree⟩, hindex, hne⟩ := h
  have hxr : x ∉ rest := fun hmem => List.disjoint_of_nodup_append hnodup hmem (by simp)
  have herase : (rest ++ [x]).erase x = rest := by simp [List.erase_append_right _ hxr]
  rw [herase] at hsub hnd hc ⊢
  obtain ⟨l, b, rfl⟩ := (List.eq_nil_or_concat' rest).resolve_left hc
  have hlast := hring.rotate_last
  have hbk : L.bk x = b := hlast.2.1
  rw [hbk]
  refine ⟨⟨rfl, ⟨l, rfl, Path.remove (show Path _ _ b ([] ++ x :: l) b from hlast) ?_ hnd ?_ ?_
    (fun y _ hy => ?_) fun y _ hy => ?_, fun y hy => hfree y (by simp [hy])⟩,
    fun y hy => hindex y (hsub hy), fun y hy => hne y (hsub hy)⟩, (hfree b (by simp)).2⟩
  · exact (List.perm_append_singleton b l).nodup_iff.mp hnd
  · simp [Dlmalloc.unring, Links.setFd]
  · simp [Dlmalloc.unring, Links.setFd, Links.setBk]
  · simp [Dlmalloc.unring, Links.setFd, Links.setBk, hy]
  · simp [Dlmalloc.unring, Links.setFd, Links.setBk, hy]

/-- Its links pass the checks. -/
theorem replacement_eq (h : NodeAt L i par a c) (hnodup : c.Nodup) (hx : x ∈ c)
    (hc : c.erase x ≠ []) (haddr : ∀ y ∈ c, m.okAddress y = true) :
    L.replacement m fuel x = .ok (Dlmalloc.unring L x, L.bk x) := by
  unfold Links.replacement
  rw [if_pos (by simpa using h.bk_ne hnodup hx hc)]
  dsimp only
  rw [haddr _ (h.fd_mem hx), h.bk_fd hx, h.fd_bk hx, beq_self_eq_true, Bool.and_self, Bool.and_self,
    if_pos rfl]
  rfl

end NodeAt

theorem touches_unring (hfd : L.fd x ∈ c) (hbk : L.bk x ∈ c) : Touches L (unring L x) c :=
  ⟨fun _ hy => (SameLinks.setBk (ne_of_mem_of_not_mem hfd hy).symm).trans
    (.setFd (ne_of_mem_of_not_mem hbk hy).symm), rfl, rfl, rfl, rfl⟩

/-- The rightmost leaf on the side `b` of `x` is cut off, to take its place. -/
theorem TreeAt.cut {S o : BinTree} (hS : TreeAt L i x (L.child x b) S) (hfits : Fits m S)
    (ho : TreeAt L i x (L.child x !b) o) (hfo : (addrs o).Nodup) (hxS : x ∉ addrs S)
    (hxo : x ∉ addrs o) (hd : ∀ y ∈ addrs S, y ∉ addrs o) (hnil : S ≠ .nil)
    (hfuel : S.toList.length ≤ fuel) :
    ∃ z q b' e S', S.pop = some (e, S') ∧ L.rightmost fuel (L.child x b) (x, b) = .ok (z, q, b') ∧
      q ∈ x :: addrs S ∧ NodeAt (L.setChild q b' 0) i ((L.setChild q b' 0).parent z) z e.2 ∧
      (∀ b, (L.setChild q b' 0).child z b = 0) ∧
      TreeAt (L.setChild q b' 0) i x ((L.setChild q b' 0).child x b) S' ∧
      TreeAt (L.setChild q b' 0) i x ((L.setChild q b' 0).child x !b) o := by
  obtain ⟨z, q, b', e, S', hpop, hgo, hq, hb, hqe, hleaf, hz, hS'⟩ :=
    hS.rightmost hfits hnil hxS rfl hfuel
  have hne : ∀ y ∈ e.2, y ≠ q := fun y hy heq => hqe (heq ▸ hy)
  have hperm : S.toList.Perm ([e] ++ S'.toList) := Tree.pop_perm hpop
  have hend : e.2.Nodup := by
    have := (addrs_perm hperm).nodup_iff.mp hfits.nodup
    rw [List.flatMap_singleton] at this
    exact this.of_append_left
  refine ⟨z, q, b', e, S', hpop, hgo, hq, ?_, fun b'' => ?_, hS', ?_⟩
  · exact hz.congr hend (fun _ _ => ⟨rfl, rfl, rfl⟩)
      (fun y hy _ => ⟨rfl, (SameLinks.setChild (hne y hy)).child⟩) rfl
  · rw [(SameLinks.setChild (hne z hz.mem)).child, hleaf]
  · have hkeep : (L.setChild q b' 0).child x (!b) = L.child x (!b) := by
      rcases eq_or_ne q x with rfl | hqx
      · rw [hb rfl]
        simp [Links.setChild]
      · exact congrFun (SameLinks.setChild hqx.symm).child _
    rw [hkeep]
    refine ho.congr hfo fun y hy => SameLinks.setChild ?_
    rintro rfl
    rcases List.mem_cons.mp hq with rfl | hq
    · exact hxo hy
    · exact hd y hq hy

/-- A node without other chunks: its place is taken by a leaf below it. -/
theorem replacement_leaf (h : TreeAt L i par x (.node k [x] l r)) (hfits : Fits m (.node k [x] l r))
    (hfuel : l.toList.length + r.toList.length ≤ fuel) :
    ∃ L' z, L.replacement m fuel x = .ok (L', z) ∧ Touches L L' (addrs (.node k [x] l r)) ∧
      L'.index x = L.index x ∧
      (z = 0 ∧ Tree.merge l r = .nil ∨
        ∃ kz cz l' r', Tree.merge l r = .node kz cz l' r' ∧ StandsIn L' i x z cz l' r') := by
  obtain ⟨hn, hl, hr⟩ := h
  obtain ⟨-, hcm, hfl, hfr, hclr, hlr⟩ := hfits.node
  have hxl := hclr x List.mem_cons_self
  have hring : L.bk x = x := by
    obtain ⟨rest, hrest, hring, -⟩ := hn.ring
    obtain rfl : rest = [] := by simpa using (congrArg List.length hrest).symm
    exact hring.2
  have htouch : ∀ {q b'}, q ∈ addrs (.node k [x] l r) →
      Touches L (L.setChild q b' 0) (addrs (.node k [x] l r)) := fun hq =>
    ⟨fun y hy => SameLinks.setChild (ne_of_mem_of_not_mem hq hy).symm, rfl, rfl, rfl, rfl⟩
  unfold Links.replacement
  rw [if_neg (by simp [hring])]
  by_cases hrn : r = .nil
  · subst hrn
    have hc : (L.child x true != 0) = false := by simp [show L.child x true = 0 from hr]
    dsimp only
    rw [hc]
    by_cases hln : l = .nil
    · subst hln
      rw [show L.child x false = 0 from hl, if_neg (by simp)]
      exact ⟨L, 0, rfl, ⟨fun _ _ => .refl, rfl, rfl, rfl, rfl⟩, rfl, .inl ⟨rfl, rfl⟩⟩
    · rw [if_pos (by simpa using mt hl.eq_zero_iff.mp hln)]
      obtain ⟨z, q, b', e, l', hpop, hgo, hq, hz, hleaf, hl', hr'⟩ := TreeAt.cut (b := false) hl hfl
        hr hfr.nodup hxl.1 hxl.2 hlr hln (show _ ≤ fuel by omega)
      have hqm : q ∈ addrs (.node k [x] l .nil) := by simpa using hq
      rw [hgo]
      exact ⟨L.setChild q b' 0, z, if_pos (hfits.okAddress_childField hqm), htouch hqm, rfl,
        .inr ⟨e.1, e.2, l', .nil, by simp [Tree.merge, Tree.pop, hpop], hz, hleaf, hl', hr'⟩⟩
  · have hc : (L.child x true != 0) = true := by simpa using mt hr.eq_zero_iff.mp hrn
    dsimp only
    rw [hc, if_pos hc]
    obtain ⟨z, q, b', e, r', hpop, hgo, hq, hz, hleaf, hr', hl'⟩ := TreeAt.cut (b := true) hr hfr
      hl hfl.nodup hxl.2 hxl.1 (fun y hy hyl => hlr y hyl hy) hrn (show _ ≤ fuel by omega)
    have hqm : q ∈ addrs (.node k [x] l r) := by
      rw [addrs_node, List.singleton_append]
      exact List.cons_subset_cons x (List.subset_append_right ..) hq
    rw [hgo]
    exact ⟨L.setChild q b' 0, z, if_pos (hfits.okAddress_childField hqm), htouch hqm, rfl,
      .inr ⟨e.1, e.2, l, r', by simp [Tree.merge, hpop], hz, hleaf, hl', hr'⟩⟩

theorem dropChunk_of_ne (h : c.erase x ≠ []) :
    dropChunk x (.node k c l r) = .node k (c.erase x) l r := if_neg h

theorem dropChunk_of_nil (h : c.erase x = []) : dropChunk x (.node k c l r) = Tree.merge l r :=
  if_pos h

/-- What is dropped is the chunk. -/
theorem addrs_dropChunk (hx : x ∈ c) :
    (addrs (.node k c l r)).Perm (x :: addrs (dropChunk x (.node k c l r))) := by
  have hperm := List.perm_cons_erase hx
  rw [addrs_node]
  by_cases hc : c.erase x = []
  · rw [dropChunk_of_nil hc]
    rw [hc] at hperm
    have hmerge := (Tree.merge_perm (l := l) (r := r)).flatMap_right Prod.snd
    rw [List.flatMap_append] at hmerge
    exact (hperm.append_right _).trans (hmerge.symm.cons _)
  · rw [dropChunk_of_ne hc, addrs_node]
    exact hperm.append_right _

theorem Fits.dropChunk (h : Fits m (.node k c l r)) (hx : x ∈ c) :
    Fits m (dropChunk x (.node k c l r)) where
  nodup := ((addrs_dropChunk hx).nodup_iff.mp h.nodup).of_cons
  addr y hy := h.addr y ((addrs_dropChunk hx).mem_iff.mpr (List.mem_cons_of_mem _ hy))
  size e he y hy := by
    by_cases hc : c.erase x = []
    · rw [dropChunk_of_nil hc] at he
      exact h.size e (List.mem_cons_of_mem _ (Tree.merge_perm.mem_iff.mp he)) y hy
    · rw [dropChunk_of_ne hc] at he
      rcases List.mem_cons.mp he with rfl | he
      · exact h.size (k, c) List.mem_cons_self y (List.mem_of_mem_erase hy)
      · exact h.size e (List.mem_cons_of_mem _ he) y hy

/-- What takes the place of a node. -/
theorem replacement_spec (h : TreeAt L i par x (.node k c l r)) (hfits : Fits m (.node k c l r))
    (hfuel : l.toList.length + r.toList.length ≤ fuel) :
    ∃ L' z, L.replacement m fuel x = .ok (L', z) ∧ Touches L L' (addrs (.node k c l r)) ∧
      L'.index x = L.index x ∧
      (z = 0 ∧ dropChunk x (.node k c l r) = .nil ∨
        ∃ kz cz l' r', dropChunk x (.node k c l r) = .node kz cz l' r' ∧
          StandsIn L' i x z cz l' r') := by
  obtain ⟨hn, hl, hr⟩ := h
  obtain ⟨hc, hcm, hfl, hfr, hclr, hlr⟩ := hfits.node
  by_cases hcx : c.erase x = []
  · have hcx' : c = [x] := by
      have := List.perm_cons_erase hn.mem
      rw [hcx] at this
      exact List.perm_singleton.mp this
    subst hcx'
    rw [dropChunk_of_nil hcx]
    exact replacement_leaf ⟨hn, hl, hr⟩ hfits hfuel
  · have ht := touches_unring (L := L) (x := x) (hn.fd_mem hn.mem) (hn.bk_mem hn.mem)
    obtain ⟨hz, hleaf⟩ := hn.unring_node hc hcx
    refine ⟨unring L x, L.bk x, hn.replacement_eq hc hn.mem hcx fun y hy =>
      hfits.okAddress (by simp [hy]), ht.mono (by simp), rfl, .inr ⟨k, c.erase x, l, r,
      dropChunk_of_ne hcx, hz, hleaf, ?_, ?_⟩⟩
    · exact hl.congr hfl.nodup fun y hy => ht.same y fun hyc => (hclr y hyc).1 hy
    · exact hr.congr hfr.nodup fun y hy => ht.same y fun hyc => (hclr y hyc).2 hy

/-- The root of a bin is exchanged. -/
theorem repoint_root {z : Nat} (hi : i < 32) (hindex : L.index x = i)
    (hx : x = L.treebins i) (hmarked : L.treemap.testBit i = true) (hlt : L.treemap < 2 ^ 32) :
    ∃ L', (∀ xp, L.repoint m x xp z = .ok L') ∧ L'.treebins i = z ∧
      (L'.treemap.testBit i = true ↔ z ≠ 0) ∧ (∀ y, SameLinks L L' y) ∧
      ∀ xs, TouchesBin L L' i xs := by
  have heq : ∀ xp, L.repoint m x xp z =
      .ok (if z = 0 then (L.setTreebin i z).clearTreemap i else L.setTreebin i z) := fun xp => by
    unfold Links.repoint
    rw [hindex, if_pos hx]
    rfl
  by_cases hz : z = 0
  · rw [if_pos hz] at heq
    have hbit : ∀ j, ((L.setTreebin i z).clearTreemap i).treemap.testBit j =
        (L.treemap.testBit j && decide (i ≠ j)) := fun _ => testBit_clear hlt hi
    have hsame : ∀ y, SameLinks L ((L.setTreebin i z).clearTreemap i) y := fun _ =>
      ⟨rfl, rfl, rfl, rfl, rfl⟩
    refine ⟨(L.setTreebin i z).clearTreemap i, heq, ?_, ?_, hsame, fun _ => ⟨fun y _ => hsame y,
      fun j hj => ?_, fun j hj => ?_, rfl, rfl, clear_lt hlt⟩⟩
    · simp [Links.clearTreemap, Links.setTreebin]
    · rw [hbit]
      simp [hz]
    · simp [Links.clearTreemap, Links.setTreebin, hj]
    · simp [hbit, hj.symm]
  · rw [if_neg hz] at heq
    have hsame : ∀ y, SameLinks L (L.setTreebin i z) y := fun _ => ⟨rfl, rfl, rfl, rfl, rfl⟩
    refine ⟨_, heq, ?_, by simpa [Links.setTreebin, hz] using hmarked, hsame,
      fun _ => ⟨fun y _ => hsame y, fun j hj => ?_, fun j hj => rfl, rfl, rfl, hlt⟩⟩
    · simp [Links.setTreebin]
    · simp [Links.setTreebin, hj]

/-- The pointer of the parent is exchanged. -/
theorem repoint_child {xp z : Nat} (hx : x ≠ L.treebins i) (hindex : L.index x = i)
    (hok : m.okAddress xp = true) (hside : ∃ b, L.child xp b = x ∧ L.child xp (!b) ≠ x) :
    ∃ L', L.repoint m x xp z = .ok L' ∧ Redirected L L' xp x z ∧ Touches L L' [xp] := by
  unfold Links.repoint
  rw [hindex, if_neg hx, hok, if_pos rfl]
  refine ⟨_, rfl, ⟨rfl, rfl, rfl, rfl, fun b => ?_⟩,
    ⟨fun y hy => SameLinks.setChild (by simpa using hy), rfl, rfl, rfl, rfl⟩⟩
  obtain ⟨b', hb, hb'⟩ := hside
  have hside : (L.child xp false != x) = b' := by
    cases b' with
    | false => simp [hb]
    | true => simpa using hb'
  rw [hside]
  rcases Bool.eq_or_eq_not b b' with rfl | rfl
  · simp [Links.setChild, hb]
  · simp [Links.setChild, hb']

/-- The end of `unlink_large_chunk`. -/
theorem StandsIn.finish {z : Nat} {S' : BinTree} (xp : Nat)
    (hz : z = 0 ∧ S' = .nil ∨
      ∃ kz cz l' r', S' = .node kz cz l' r' ∧ StandsIn L i x z cz l' r')
    (hfits : Fits m S') (hx : x ∉ addrs S') (hsame : ∀ y ∈ x :: addrs S', SameLinks L L₁ y) :
    ∃ L', (if z = 0 then return L₁
        else if m.okAddress z then do
          let L ← (L₁.setParent z xp).adopt m x z false
          L.adopt m x z true
        else abort) = .ok L' ∧ TreeAt L' i xp z S' ∧ Touches L₁ L' (addrs S') := by
  rcases hz with ⟨rfl, rfl⟩ | ⟨kz, cz, l', r', rfl, hs⟩
  · exact ⟨L₁, rfl, rfl, fun _ _ => .refl, rfl, rfl, rfl, rfl⟩
  · obtain ⟨hn, hleaf, hl, hr⟩ := hs
    obtain ⟨hc, hcm, hfl, hfr, -, -⟩ := hfits.node
    have hzm : z ∈ addrs (.node kz cz l' r') := by simp [hn.mem]
    have hs₁ : StandsIn L₁ i x z cz l' r' := by
      have hxs := hsame x List.mem_cons_self
      refine ⟨?_, fun b => ?_, ?_, ?_⟩
      · rw [(hsame z (List.mem_cons_of_mem _ hzm)).parent]
        exact hn.of_same hc fun y hy => hsame y (by simp [hy])
      · rw [(hsame z (List.mem_cons_of_mem _ hzm)).child, hleaf]
      · rw [hxs.child]
        exact hl.congr hfl.nodup fun y hy => hsame y (by simp [hy])
      · rw [hxs.child]
        exact hr.congr hfr.nodup fun y hy => hsame y (by simp [hy])
    rw [if_neg (hn.ne_zero z hn.mem), hfits.okAddress hzm, if_pos rfl]
    exact hs₁.adopt hfits hx

/-- `unlink_large_chunk` drops the chunk from its tree. -/
theorem unlinkLargeChunk_spec (h : IsTree L i T) (hfits : Fits m T) (hi : i < 32)
    (hbin : L.treebinAt i ≠ 0) (hsub : T.subtree (digit i) k 0 = .node k c l r) (hx : x ∈ c)
    (hfuel : T.toList.length ≤ fuel) :
    ∃ L', L.unlinkLargeChunk m fuel x = .ok L' ∧
      IsTree L' i (T.modify (digit i) (dropChunk x) k 0) ∧ TouchesBin L L' i (addrs T) := by
  obtain ⟨xp, x₀, hS, hwhere⟩ := h.tree.locate hfits.nodup hsub
  obtain ⟨rest, hperm, -⟩ := Tree.modify_perm (digit i) k 0 T
  rw [hsub] at hperm
  have hfS : Fits m (.node k c l r) := hfits.of_perm (hperm.trans List.perm_append_comm)
  have hsubset : addrs (.node k c l r) ⊆ addrs T := fun y hy => by
    obtain ⟨e, he, hye⟩ := mem_addrs.mp hy
    exact mem_addrs.mpr ⟨e, hperm.mem_iff.mpr (List.mem_append_left _ he), hye⟩
  have hfuel' : l.toList.length + r.toList.length ≤ fuel := by
    have := hperm.length_eq
    simp only [List.length_append, Tree.toList_node, List.length_cons] at this
    omega
  have hmarked : L.treemap.testBit i = true := h.marked.mpr fun hnil => by
    rw [hnil] at hsub
    cases hsub
  have hkeep : ∀ {L' : Links} {par : Nat} {T' : BinTree}, TreeAt L' i par (L.treebins i) T' →
      T' ≠ .nil := fun hT' hnil =>
    h.marked.mp hmarked (h.tree.eq_zero_iff.mp (hT'.eq_zero_iff.mpr hnil))
  obtain ⟨hc, hcm, hfl, hfr, hclr, -⟩ := hfS.node
  have hn := hS.1
  have hxS : x ∈ addrs (.node k c l r) := by simp [hx]
  have hindex : L.index x = i := hn.index x hx
  have hdrop := addrs_dropChunk (k := k) (l := l) (r := r) hx
  have hfd := hfS.dropChunk hx
  unfold Links.unlinkLargeChunk
  dsimp only
  by_cases hxx : x = x₀
  · subst hxx
    -- the chunk is a node
    rw [hn.parent]
    obtain ⟨L₁, z, hrep, ht₁, hi₁, hz⟩ := replacement_spec hS hfS hfuel'
    rw [hrep]
    have hx' : x ∉ addrs (dropChunk x (.node k c l r)) :=
      (List.nodup_cons.mp (hdrop.nodup_iff.mp hfS.nodup)).1
    have hSsub : x :: addrs (dropChunk x (.node k c l r)) ⊆ addrs (.node k c l r) :=
      hdrop.symm.subset
    have htb := ht₁.touchesBin (i := i) hsubset h.lt
    have hxp : xp ≠ 0 := by
      rcases hwhere with ⟨rfl, -⟩ | hh
      · exact hbin
      · exact h.tree.ne_zero hh.mem
    change ∃ L', (if xp = 0 then _ else _) = _ ∧ _
    rw [if_neg hxp]
    rcases hwhere with ⟨hpar, hroot, -, hmod⟩ | hh
    · -- at the root of the bin
      obtain ⟨L₂, hre, hz₂, hm₂, hs₂, ht₂⟩ := repoint_root (L := L₁) (m := m) (x := x) (z := z) hi
        (hi₁.trans hindex) (by rw [ht₁.treebins]; exact hroot)
        (by rw [ht₁.treemap]; exact hmarked) htb.lt
      obtain ⟨L₃, hfin, htree, ht₃⟩ := StandsIn.finish xp hz hfd hx' fun y _ => hs₂ y
      have htouch := (htb.trans (ht₂ _)).trans (ht₃.touchesBin
        (fun y hy => hsubset (hSsub (List.mem_cons_of_mem _ hy))) (ht₂ []).lt)
      have hroot₃ : L₃.treebins i = z := by rw [ht₃.treebins, hz₂]
      rw [hre]
      refine ⟨L₃, hfin, ⟨?_, ?_, htouch.lt⟩, htouch⟩
      · rw [hmod, hroot₃, Links.treebinAt, htouch.base, ← Links.treebinAt, ← hpar]
        exact htree
      · rw [hmod, ht₃.treemap, hm₂]
        exact htree.eq_zero_iff.not
    · -- below a node
      have hpS : xp ∉ addrs (.node k c l r) := hh.not_mem
      have hs₁ := ht₁.same xp hpS
      obtain ⟨L₂, hre, hred, ht₂⟩ := repoint_child (L := L₁) (m := m) (x := x) (z := z)
        (by rw [ht₁.treebins]; exact hh.ne) (hi₁.trans hindex) (hfits.okAddress hh.mem)
        (by rw [hs₁.child]; exact hh.side)
      have hne : ∀ y ∈ addrs (.node k c l r), y ≠ xp := fun y hy heq => hpS (heq ▸ hy)
      obtain ⟨L₃, hfin, htree, ht₃⟩ := StandsIn.finish xp hz hfd hx' fun y hy =>
        ht₂.same y (by simpa using hne y (hSsub hy))
      have hdropS : addrs (dropChunk x (.node k c l r)) ⊆ addrs (.node k c l r) := fun y hy =>
        hSsub (List.mem_cons_of_mem _ hy)
      have hs₃ := ht₃.same xp fun hmem => hpS (hdropS hmem)
      have htouch : TouchesBin L L₃ i (addrs T) := (htb.trans (ht₂.touchesBin
        (List.cons_subset.mpr ⟨hh.mem, List.nil_subset _⟩) htb.lt)).trans (ht₃.touchesBin
        (fun y hy => hsubset (hdropS hy)) (by rw [ht₂.treemap]; exact htb.lt))
      have hroot₃ : L₃.treebins i = L.treebins i := by rw [ht₃.treebins, ht₂.treebins, ht₁.treebins]
      have hnew : TreeAt L₃ i (L.treebinAt i) (L.treebins i)
          (T.modify (digit i) (dropChunk x) k 0) := by
        refine hh.modify htree (fun y hy hyS hyxp => ?_) ⟨?_, ?_, ?_, ?_, fun b => ?_⟩
        · exact ((ht₁.same y hyS).trans (ht₂.same y (by simpa using hyxp))).trans
            (ht₃.same y fun hmem => hyS (hdropS hmem))
        · rw [hs₃.fd, hred.fd, hs₁.fd]
        · rw [hs₃.bk, hred.bk, hs₁.bk]
        · rw [hs₃.parent, hred.parent, hs₁.parent]
        · rw [hs₃.index, hred.index, hs₁.index]
        · rw [hs₃.child, hred.child, hs₁.child]
      rw [hre]
      refine ⟨L₃, hfin, ⟨?_, ?_, htouch.lt⟩, htouch⟩
      · rw [Links.treebinAt, htouch.base, ← Links.treebinAt, hroot₃]
        exact hnew
      · rw [ht₃.treemap, ht₂.treemap, ht₁.treemap]
        exact iff_of_true hmarked (hkeep hnew)
  · -- the chunk is further on in the ring
    have hcx : c.erase x ≠ [] :=
      List.ne_nil_of_mem ((List.mem_erase_of_ne (Ne.symm hxx)).mpr hn.mem)
    have hparent : L.parent x = 0 := by
      obtain ⟨rest, rfl, -, hfree⟩ := hn.ring
      exact (hfree x (by simpa [hxx] using hx)).1
    have ht := touches_unring (hn.fd_mem hx) (hn.bk_mem hx)
    have hsubc : c ⊆ addrs T := fun y hy => hsubset (by simp [hy])
    have htouch := ht.touchesBin (i := i) hsubc h.lt
    rw [hn.replacement_eq hc hx hcx fun y hy => hfits.okAddress (hsubc hy), hparent]
    have hS' : TreeAt (unring L x) i xp x₀ (dropChunk x (.node k c l r)) := by
      rw [dropChunk_of_ne hcx]
      refine ⟨hn.unring hc hx hxx, hS.2.1.congr hfl.nodup fun y hy => ht.same y fun hyc => ?_,
        hS.2.2.congr hfr.nodup fun y hy => ht.same y fun hyc => ?_⟩
      · exact (hclr y hyc).1 hy
      · exact (hclr y hyc).2 hy
    have hnew : TreeAt (unring L x) i (L.treebinAt i) (L.treebins i)
        (T.modify (digit i) (dropChunk x) k 0) := by
      rcases hwhere with ⟨hpar, hroot, -, hmod⟩ | hh
      · rw [hmod, ← hpar, ← hroot]
        exact hS'
      · have hs := ht.same xp fun hmem => hh.not_mem (by simp [hmem])
        refine hh.modify hS' (fun y hy hyS _ => ht.same y fun hyc => hyS (by simp [hyc]))
          ⟨hs.fd, hs.bk, hs.parent, hs.index, fun b => ?_⟩
        rw [hs.child]
        split <;> simp_all
    exact ⟨_, rfl, ⟨hnew, iff_of_true hmarked (hkeep hnew), h.lt⟩, htouch⟩

end PrecisionGc.Dlmalloc
