import PrecisionGc.Verify.SmallBins

/-!
# The bins as a list

The rings and tries of the bins represent the list of the binned chunks: a small bin has the chunks
of its index, and a tree bin has, for each size of its index, the chunks of that size, each in the
order of the list. To link and to unlink a chunk keeps this.
-/

namespace PrecisionGc.Dlmalloc
open DigitalTree

variable {L L' : Links} {m m' : MState} {i j p s s' fuel : Nat} {bins bins' : List (Nat × Nat)}
  {T T' : BinTree} {q : Nat → Bool}

/-- The chunks whose size is one of `q`. -/
def sizedBy (q : Nat → Bool) (bins : List (Nat × Nat)) : List Nat :=
  (bins.filter fun e => q e.2).map Prod.fst

/-- The chunks of `s` bytes. -/
def chunksOf (bins : List (Nat × Nat)) (s : Nat) : List Nat := sizedBy (· == s) bins

/-- The chunks of the small bin `i`. -/
def binOf (bins : List (Nat × Nat)) (i : Nat) : List Nat := sizedBy (smallIndex · == i) bins

/-- The tree has the chunks of the sizes of the index `i`. -/
structure TreeOf (bins : List (Nat × Nat)) (i : Nat) (T : BinTree) : Prop where
  routed : T.Routed (digit i) 0
  keys : (T.toList.map Prod.fst).Nodup
  mem : ∀ s c, (s, c) ∈ T.toList ↔
    c ≠ [] ∧ c = chunksOf bins s ∧ isSmall s = false ∧ computeTreeIndex s = i

/-- The links represent the list `m.bins`. -/
structure Represents (m : MState) (L : Links) : Prop where
  nodup : (m.bins.map Prod.fst).Nodup
  size : ∀ e ∈ m.bins, m.chunksize e.1 = e.2
  addr : ∀ e ∈ m.bins, m.leastAddr ≤ e.1 ∧ e.1 + 64 ≤ 2 ^ 64 ∧ e.1 ≠ 0
  head : ∀ e ∈ m.bins, ∀ i < 32, e.1 ≠ L.smallbinAt i
  small : ∀ i < 32, SmallBin L i (binOf m.bins i)
  tree : ∀ i < 32, ∃ T, IsTree L i T ∧ TreeOf m.bins i T

/-! ## Chunks of some sizes -/

theorem mem_sizedBy : p ∈ sizedBy q bins ↔ ∃ s, (p, s) ∈ bins ∧ q s = true := by
  simp [sizedBy]

theorem mem_chunksOf : p ∈ chunksOf bins s ↔ (p, s) ∈ bins := by
  simp [chunksOf, mem_sizedBy]

theorem mem_binOf : p ∈ binOf bins i ↔ ∃ s, (p, s) ∈ bins ∧ smallIndex s = i := by
  simp [binOf, mem_sizedBy]

theorem sizedBy_cons :
    sizedBy q ((p, s) :: bins) = if q s then p :: sizedBy q bins else sizedBy q bins := by
  unfold sizedBy
  rw [List.filter_cons]
  split <;> rfl

theorem sizedBy_sublist : (sizedBy q bins).Sublist (bins.map Prod.fst) :=
  (List.filter_sublist).map Prod.fst

theorem sizedBy_erase_of_neg (hq : q s = false) :
    sizedBy q (bins.erase (p, s)) = sizedBy q bins := by
  induction bins with
  | nil => rfl
  | cons e bins ih =>
    rcases e with ⟨p', s'⟩
    rw [List.erase_cons]
    split
    case isTrue heq =>
      obtain ⟨rfl, rfl⟩ := Prod.mk.inj (beq_iff_eq.mp heq)
      rw [sizedBy_cons, if_neg (by simp [hq])]
    case isFalse => rw [sizedBy_cons, sizedBy_cons, ih]

theorem sizedBy_erase_of_pos (hq : q s = true) (hnodup : (bins.map Prod.fst).Nodup)
    (hp : (p, s) ∈ bins) : sizedBy q (bins.erase (p, s)) = (sizedBy q bins).erase p := by
  induction bins with
  | nil => cases hp
  | cons e bins ih =>
    rcases e with ⟨p', s'⟩
    rw [List.map_cons, List.nodup_cons] at hnodup
    rw [List.erase_cons]
    split
    case isTrue heq =>
      obtain ⟨rfl, rfl⟩ := Prod.mk.inj (beq_iff_eq.mp heq)
      rw [sizedBy_cons, if_pos hq, List.erase_cons_head]
    case isFalse heq =>
      have hp' := (List.mem_cons.mp hp).resolve_left fun h => heq (beq_iff_eq.mpr h.symm)
      have hne : p' ≠ p := by
        rintro rfl
        exact hnodup.1 (List.mem_map.mpr ⟨_, hp', rfl⟩)
      rw [sizedBy_cons, sizedBy_cons, ih hnodup.2 hp']
      split
      · rw [List.erase_cons_tail (by simpa using hne)]
      · rfl

/-! ## Trees -/

namespace TreeOf

theorem chain_nodup (h : TreeOf bins i T) (hnodup : (bins.map Prod.fst).Nodup)
    {e : Nat × List Nat} (he : e ∈ T.toList) : e.2.Nodup := by
  obtain ⟨-, heq, -⟩ := (h.mem e.1 e.2).mp he
  rw [heq]
  exact sizedBy_sublist.nodup hnodup

theorem mem_addrs_iff (h : TreeOf bins i T) :
    p ∈ addrs T ↔ ∃ s, (p, s) ∈ bins ∧ isSmall s = false ∧ computeTreeIndex s = i := by
  rw [mem_addrs]
  constructor
  · rintro ⟨⟨s, c⟩, he, hp⟩
    obtain ⟨-, rfl, hs⟩ := (h.mem s c).mp he
    exact ⟨s, mem_chunksOf.mp hp, hs⟩
  · rintro ⟨s, hp, hs⟩
    have hmem : p ∈ chunksOf bins s := mem_chunksOf.mpr hp
    exact ⟨(s, chunksOf bins s), (h.mem s _).mpr ⟨List.ne_nil_of_mem hmem, rfl, hs⟩, hmem⟩

theorem key_eq (h : TreeOf bins i T) (hnodup : (bins.map Prod.fst).Nodup)
    {e e' : Nat × List Nat} (he : e ∈ T.toList) (he' : e' ∈ T.toList) (hp : p ∈ e.2)
    (hp' : p ∈ e'.2) : e = e' := by
  obtain ⟨-, hc, -⟩ := (h.mem e.1 e.2).mp he
  obtain ⟨-, hc', -⟩ := (h.mem e'.1 e'.2).mp he'
  have hs : (p, e.1) ∈ bins := mem_chunksOf.mp (hc ▸ hp)
  have hs' : (p, e'.1) ∈ bins := mem_chunksOf.mp (hc' ▸ hp')
  have hkey : e.1 = e'.1 := (Prod.mk.inj (List.inj_on_of_nodup_map hnodup hs hs' rfl)).2
  refine Prod.ext hkey ?_
  rw [hc, hc', hkey]

theorem addrs_nodup (h : TreeOf bins i T) (hnodup : (bins.map Prod.fst).Nodup) :
    (addrs T).Nodup := by
  refine List.nodup_flatMap.mpr ⟨fun e he => h.chain_nodup hnodup he, ?_⟩
  have hlist : T.toList.Nodup := List.Nodup.of_map _ h.keys
  refine hlist.pairwise_of_forall_ne fun e he e' he' hne => ?_
  intro p hp hp'
  exact hne (h.key_eq hnodup he he' hp hp')

theorem fits (h : TreeOf m.bins i T) (hr : Represents m L) : Fits m T := by
  refine ⟨h.addrs_nodup hr.nodup, fun e he p hp => ?_, fun p hp => ?_⟩
  · obtain ⟨-, hc, -⟩ := (h.mem e.1 e.2).mp he
    have hmem : (p, e.1) ∈ m.bins := mem_chunksOf.mp (by rw [← hc]; exact hp)
    exact hr.size (p, e.1) hmem
  · obtain ⟨s, hs, -⟩ := h.mem_addrs_iff.mp hp
    obtain ⟨hle, hlt, -⟩ := hr.addr (p, s) hs
    exact ⟨hle, hlt⟩

theorem length_le (h : TreeOf bins i T) (hnodup : (bins.map Prod.fst).Nodup) :
    T.toList.length ≤ bins.length := by
  have hsub : addrs T ⊆ bins.map Prod.fst := fun p hp => by
    obtain ⟨s, hs, -⟩ := h.mem_addrs_iff.mp hp
    exact List.mem_map_of_mem hs
  have hle := ((h.addrs_nodup hnodup).subperm hsub).length_le
  rw [List.length_map] at hle
  refine le_trans ?_ hle
  rw [addrs, List.length_flatMap]
  have hone : ∀ n ∈ T.toList.map (fun e => e.2.length), 1 ≤ n := fun n hn => by
    obtain ⟨e, he, rfl⟩ := List.mem_map.mp hn
    exact List.length_pos_iff.mpr ((h.mem e.1 e.2).mp he).1
  have := List.length_le_sum_of_one_le _ hone
  rwa [List.length_map] at this

/-- The chunks of one size change, those of the others do not. -/
theorem update (h : TreeOf bins i T) (old rest new : List (Nat × List Nat))
    (hperm : T.toList.Perm (old ++ rest)) (hperm' : T'.toList.Perm (new ++ rest))
    (hold : ∀ e ∈ old, e.1 = s) (hrest : ∀ e ∈ rest, e.1 ≠ s)
    (hnew : new = if chunksOf bins' s = [] then [] else [(s, chunksOf bins' s)])
    (hothers : ∀ s' ≠ s, chunksOf bins' s' = chunksOf bins s')
    (hs : isSmall s = false ∧ computeTreeIndex s = i) (hrouted : T'.Routed (digit i) 0) :
    TreeOf bins' i T' where
  routed := hrouted
  keys := by
    have hkeys := (hperm.map Prod.fst).nodup_iff.mp h.keys
    rw [List.map_append] at hkeys
    rw [(hperm'.map Prod.fst).nodup_iff, List.map_append, hnew]
    split
    · exact hkeys.of_append_right
    · refine List.nodup_cons.mpr ⟨fun hmem => ?_, hkeys.of_append_right⟩
      obtain ⟨e, he, heq⟩ := List.mem_map.mp hmem
      exact hrest e he heq
  mem s' c := by
    rw [hperm'.mem_iff, List.mem_append]
    by_cases heq : s' = s
    · subst heq
      have hno : (s', c) ∉ rest := fun hmem => hrest _ hmem rfl
      rw [or_iff_left hno, hnew]
      split
      case isTrue hnil =>
        refine iff_of_false List.not_mem_nil ?_
        rintro ⟨hc, rfl, -⟩
        exact hc hnil
      case isFalse hne =>
        rw [List.mem_singleton, Prod.mk.injEq]
        constructor
        · rintro ⟨-, rfl⟩
          exact ⟨hne, rfl, hs⟩
        · rintro ⟨-, rfl, -⟩
          exact ⟨rfl, rfl⟩
    · have hno : (s', c) ∉ new := fun hmem => by
        rw [hnew] at hmem
        split at hmem
        · cases hmem
        · exact heq (Prod.mk.inj (List.mem_singleton.mp hmem)).1
      have hno' : (s', c) ∉ old := fun hmem => heq (hold _ hmem)
      rw [or_iff_right hno, hothers s' heq, ← h.mem s' c, hperm.mem_iff, List.mem_append,
        or_iff_right hno']

theorem congr (h : TreeOf bins i T)
    (heq : ∀ s, computeTreeIndex s = i → isSmall s = false → chunksOf bins' s = chunksOf bins s) :
    TreeOf bins' i T where
  routed := h.routed
  keys := h.keys
  mem s c := by
    rw [h.mem s c]
    refine and_congr_right fun _ => ?_
    constructor
    · rintro ⟨hc, hsm, hi⟩
      exact ⟨by rw [heq s hi hsm, hc], hsm, hi⟩
    · rintro ⟨hc, hsm, hi⟩
      exact ⟨by rw [← heq s hi hsm, hc], hsm, hi⟩

/-- A size that the tree does not have leads out of it. -/
theorem subtree_eq (h : TreeOf bins i T) (hs : isSmall s = false ∧ computeTreeIndex s = i) :
    T.subtree (digit i) s 0 = .nil ∧ chunksOf bins s = [] ∨
      ∃ l r, T.subtree (digit i) s 0 = .node s (chunksOf bins s) l r := by
  by_cases hc : chunksOf bins s = []
  · refine .inl ⟨?_, hc⟩
    rcases (Tree.subtree_cases : T.subtree (digit i) s 0 = .nil ∨ _) with hnil | ⟨c, l, r, hn⟩
    · exact hnil
    · obtain ⟨hne, heq, -⟩ := (h.mem s c).mp (Tree.mem_of_subtree hn)
      exact absurd (heq.trans hc) hne
  · exact .inr (h.routed.subtree_of_mem h.keys ((h.mem s _).mpr ⟨hc, rfl, hs⟩))

/-- The entries outside of the subtree of a size have other sizes. -/
theorem rest_ne (h : TreeOf bins i T) (old rest : List (Nat × List Nat))
    (hperm : T.toList.Perm (old ++ rest)) (hs : isSmall s = false ∧ computeTreeIndex s = i)
    (hold : chunksOf bins s ≠ [] → (s, chunksOf bins s) ∈ old) : ∀ e ∈ rest, e.1 ≠ s := by
  rintro ⟨k, c⟩ he rfl
  obtain ⟨hne, rfl, -⟩ := (h.mem k c).mp (hperm.mem_iff.mpr (List.mem_append_right _ he))
  have hkeys := (hperm.map Prod.fst).nodup_iff.mp h.keys
  rw [List.map_append, List.nodup_append] at hkeys
  exact hkeys.2.2 k (List.mem_map_of_mem (hold hne)) k (List.mem_map_of_mem he) rfl

theorem addChunk (h : TreeOf bins i T) (hs : isSmall s = false ∧ computeTreeIndex s = i) :
    TreeOf ((p, s) :: bins) i (T.modify (digit i) (addChunk p s) s 0) := by
  obtain ⟨rest, hperm, hmod⟩ := Tree.modify_perm (digit i) s 0 T
  obtain ⟨d, hd, hrouted⟩ := Tree.Routed.modify (k := s) h.routed
  have hown : chunksOf ((p, s) :: bins) s = p :: chunksOf bins s := by
    rw [chunksOf, sizedBy_cons, if_pos (beq_self_eq_true s)]
    rfl
  have hothers : ∀ s' ≠ s, chunksOf ((p, s) :: bins) s' = chunksOf bins s' := fun s' hne => by
    rw [chunksOf, sizedBy_cons, if_neg (by simpa using hne.symm)]
    rfl
  rcases h.subtree_eq hs with ⟨hnil, hc⟩ | ⟨l, r, hnode⟩
  · rw [hnil] at hperm hd
    have hmod' := hmod (Dlmalloc.addChunk p s)
    rw [hnil] at hmod'
    refine h.update [] rest [(s, [p])] hperm hmod' (by simp)
      (h.rest_ne _ _ hperm hs fun hne => absurd hc hne) ?_ hothers hs (hrouted _ ?_ ?_)
    · simp [hown, hc]
    · rw [hnil]
      simp [Dlmalloc.addChunk, Tree.Routed]
    · rw [hnil]
      simp [Dlmalloc.addChunk]
  · rw [hnode] at hperm hd
    have hmod' := hmod (Dlmalloc.addChunk p s)
    rw [hnode] at hmod'
    refine h.update [(s, chunksOf bins s)] (l.toList ++ r.toList ++ rest)
      [(s, p :: chunksOf bins s)] (by simpa using hperm)
      (by simpa [Dlmalloc.addChunk] using hmod') (by simp) ?_ (by simp [hown]) hothers hs
      (hrouted _ ?_ ?_)
    · exact h.rest_ne [(s, chunksOf bins s)] _ (by simpa using hperm) hs (by simp)
    · rw [hnode]
      exact hd
    · rw [hnode]
      rintro e he
      rcases List.mem_cons.mp he with rfl | he
      · exact .inl rfl
      · exact .inr (List.mem_cons_of_mem _ he)

theorem dropChunk (h : TreeOf bins i T) (hs : isSmall s = false ∧ computeTreeIndex s = i)
    (hnodup : (bins.map Prod.fst).Nodup) (hp : (p, s) ∈ bins) :
    TreeOf (bins.erase (p, s)) i (T.modify (digit i) (dropChunk p) s 0) := by
  obtain ⟨rest, hperm, hmod⟩ := Tree.modify_perm (digit i) s 0 T
  obtain ⟨d, hd, hrouted⟩ := Tree.Routed.modify (k := s) h.routed
  have hown : chunksOf (bins.erase (p, s)) s = (chunksOf bins s).erase p :=
    sizedBy_erase_of_pos (beq_self_eq_true s) hnodup hp
  have hothers : ∀ s' ≠ s, chunksOf (bins.erase (p, s)) s' = chunksOf bins s' := fun s' hne =>
    sizedBy_erase_of_neg (by simpa using hne.symm)
  have hmem : p ∈ chunksOf bins s := mem_chunksOf.mpr hp
  obtain ⟨l, r, hnode⟩ := (h.subtree_eq hs).resolve_left fun hno =>
    List.ne_nil_of_mem hmem hno.2
  rw [hnode] at hperm hd
  have hmod' := hmod (Dlmalloc.dropChunk p)
  rw [hnode] at hmod' hrouted
  have hrest := h.rest_ne [(s, chunksOf bins s)] (l.toList ++ r.toList ++ rest)
    (by simpa using hperm) hs (by simp)
  by_cases hc : (chunksOf bins s).erase p = []
  · rw [dropChunk_of_nil hc] at hmod'
    refine h.update [(s, chunksOf bins s)] (l.toList ++ r.toList ++ rest) []
      (by simpa using hperm) ?_ (by simp) hrest (by simp [hown, hc]) hothers hs (hrouted _ ?_ ?_)
    · exact hmod'.trans (Tree.merge_perm.append_right rest)
    · rw [dropChunk_of_nil hc]
      exact hd.merge
    · rw [dropChunk_of_nil hc]
      exact fun e he => .inr (List.mem_cons_of_mem _ (Tree.merge_perm.mem_iff.mp he))
  · rw [dropChunk_of_ne hc] at hmod'
    refine h.update [(s, chunksOf bins s)] (l.toList ++ r.toList ++ rest)
      [(s, (chunksOf bins s).erase p)] (by simpa using hperm) (by simpa using hmod') (by simp) hrest
      (by simp [hown, hc]) hothers hs (hrouted _ ?_ ?_)
    · rw [dropChunk_of_ne hc]
      exact hd
    · rw [dropChunk_of_ne hc]
      rintro e he
      rcases List.mem_cons.mp he with rfl | he
      · exact .inl rfl
      · exact .inr (List.mem_cons_of_mem _ he)

end TreeOf

/-! ## Linking and unlinking -/

theorem isSmall_iff : isSmall s = true ↔ smallIndex s < 32 := by
  rw [isSmall]
  exact decide_eq_true_iff

theorem binOf_cons_of_ne (h : smallIndex s ≠ i) : binOf ((p, s) :: bins) i = binOf bins i := by
  rw [binOf, sizedBy_cons, if_neg (by simpa using h)]
  rfl

theorem chunksOf_cons_of_ne (h : s' ≠ s) : chunksOf ((p, s) :: bins) s' = chunksOf bins s' := by
  rw [chunksOf, sizedBy_cons, if_neg (by simpa using h.symm)]
  rfl

theorem binOf_erase_of_ne (h : smallIndex s ≠ i) : binOf (bins.erase (p, s)) i = binOf bins i :=
  sizedBy_erase_of_neg (by simpa using h)

theorem binOf_erase (hnodup : (bins.map Prod.fst).Nodup) (hp : (p, s) ∈ bins) :
    binOf (bins.erase (p, s)) (smallIndex s) = (binOf bins (smallIndex s)).erase p :=
  sizedBy_erase_of_pos (q := (smallIndex · == smallIndex s)) (beq_self_eq_true (smallIndex s))
    hnodup hp

theorem chunksOf_erase_of_ne (h : s' ≠ s) :
    chunksOf (bins.erase (p, s)) s' = chunksOf bins s' :=
  sizedBy_erase_of_neg (by simpa using h.symm)

namespace Represents

/-- The bins look at the sizes of their own chunks only. -/
theorem congr (h : Represents m L) (hbins : m'.bins = m.bins) (hleast : m'.leastAddr = m.leastAddr)
    (hsize : ∀ e ∈ m.bins, m'.chunksize e.1 = m.chunksize e.1) : Represents m' L where
  nodup := by rw [hbins]; exact h.nodup
  size e he := by
    rw [hbins] at he
    rw [hsize e he, h.size e he]
  addr := by rw [hbins, hleast]; exact h.addr
  head := by rw [hbins]; exact h.head
  small := by rw [hbins]; exact h.small
  tree := by rw [hbins]; exact h.tree

theorem okAddress (h : Represents m L) {e : Nat × Nat} (he : e ∈ m.bins) :
    m.okAddress e.1 = true := decide_eq_true (h.addr e he).1

/-- The links of another small bin are not touched. -/
theorem small_of_touches (h : Represents m L) {xs : List Nat} (hj : j < 32)
    (hsame : ∀ y, y ∉ xs → SameLinks L L' y) (hbase : L'.base = L.base)
    (hmap : L'.smallmap.testBit j = L.smallmap.testBit j) (hlt : L'.smallmap < 2 ^ 32)
    (hxs : L.smallbinAt j ∉ xs) (hbin : ∀ y ∈ binOf m.bins j, y ∉ xs) :
    SmallBin L' j (binOf m.bins j) := by
  refine (h.small j hj).congr (fun y hy => hsame y ?_) hbase hmap hlt
  rcases List.mem_append.mp hy with hy | hy
  · exact hbin y hy
  · rw [List.mem_singleton.mp hy]
    exact hxs

end Represents

theorem IsTree.congr {xs : List Nat} (h : IsTree L i T) (hnodup : (addrs T).Nodup)
    (hsame : ∀ y, y ∉ xs → SameLinks L L' y) (hbase : L'.base = L.base)
    (hroot : L'.treebins i = L.treebins i)
    (hmap : L'.treemap.testBit i = L.treemap.testBit i) (hlt : L'.treemap < 2 ^ 32)
    (hxs : ∀ y ∈ addrs T, y ∉ xs) : IsTree L' i T where
  tree := by
    rw [Links.treebinAt, hbase, ← Links.treebinAt, hroot]
    exact h.tree.congr hnodup fun y hy => hsame y (hxs y hy)
  marked := by rw [hmap]; exact h.marked
  lt := hlt

namespace Represents

/-- The address is none of a node of the bins. -/
def Fresh (m : MState) (L : Links) (p : Nat) : Prop :=
  p ∉ m.bins.map Prod.fst ∧ ∀ i < 32, p ≠ L.smallbinAt i

theorem unique (h : Represents m L) (hs : (p, s) ∈ m.bins) (hs' : (p, s') ∈ m.bins) : s = s' :=
  (Prod.mk.inj (List.inj_on_of_nodup_map h.nodup hs hs' rfl)).2

theorem not_fresh (h : (p, s) ∈ m.bins) : ¬Fresh m L p := fun hf =>
  hf.1 (List.mem_map.mpr ⟨_, h, rfl⟩)

/-- An edit of one small bin keeps the other bins. -/
theorem small_edit (h : Represents m L) {xs : List Nat} (ht : TouchesSmall L L' i xs)
    (hxs : ∀ y ∈ xs, Fresh m L y ∨ y ∈ binOf m.bins i ∨ y = L.smallbinAt i) (hi : i < 32) :
    (∀ j < 32, j ≠ i → SmallBin L' j (binOf m.bins j)) ∧
      ∀ j < 32, ∀ T, IsTree L j T → TreeOf m.bins j T → IsTree L' j T := by
  constructor
  · intro j hj hji
    refine h.small_of_touches hj ht.same ht.base (ht.smallmap j hji) ht.lt (fun hmem => ?_)
      fun y hy hmem => ?_
    · rcases hxs _ hmem with hf | hb | heq
      · exact hf.2 j hj rfl
      · obtain ⟨s, hs, -⟩ := mem_binOf.mp hb
        exact h.head _ hs j hj rfl
      · exact smallbinAt_ne hji heq
    · obtain ⟨s, hs, hsj⟩ := mem_binOf.mp hy
      rcases hxs y hmem with hf | hb | heq
      · exact not_fresh hs hf
      · obtain ⟨s', hs', hsi⟩ := mem_binOf.mp hb
        obtain rfl := h.unique hs hs'
        exact hji (hsj.symm.trans hsi)
      · exact h.head _ hs i hi heq
  · intro j hj T hT hof
    refine hT.congr (hof.addrs_nodup h.nodup) ht.same ht.base (by rw [ht.treebins])
      (by rw [ht.treemap]) (by rw [ht.treemap]; exact hT.lt) fun y hy hmem => ?_
    obtain ⟨s, hs, hlarge, -⟩ := hof.mem_addrs_iff.mp hy
    rcases hxs y hmem with hf | hb | heq
    · exact not_fresh hs hf
    · obtain ⟨s', hs', hsi⟩ := mem_binOf.mp hb
      obtain rfl := h.unique hs hs'
      rw [isSmall_iff.mpr (hsi ▸ hi)] at hlarge
      cases hlarge
    · exact h.head _ hs i hi heq

/-- An edit of one tree keeps the other bins. -/
theorem tree_edit (h : Represents m L) {xs : List Nat} (ht : TouchesBin L L' i xs)
    (hof : TreeOf m.bins i T) (hxs : ∀ y ∈ xs, Fresh m L y ∨ y ∈ addrs T) :
    (∀ j < 32, SmallBin L' j (binOf m.bins j)) ∧
      ∀ j < 32, j ≠ i → ∀ T', IsTree L j T' → TreeOf m.bins j T' → IsTree L' j T' := by
  constructor
  · intro j hj
    refine h.small_of_touches hj ht.same ht.base (by rw [ht.smallmap]) (by rw [ht.smallmap]; exact
      (h.small j hj).lt) (fun hmem => ?_) fun y hy hmem => ?_
    · rcases hxs _ hmem with hf | hT
      · exact hf.2 j hj rfl
      · obtain ⟨s, hs, -⟩ := hof.mem_addrs_iff.mp hT
        exact h.head _ hs j hj rfl
    · obtain ⟨s, hs, hsj⟩ := mem_binOf.mp hy
      rcases hxs y hmem with hf | hT
      · exact not_fresh hs hf
      · obtain ⟨s', hs', hlarge, -⟩ := hof.mem_addrs_iff.mp hT
        obtain rfl := h.unique hs hs'
        rw [isSmall_iff.mpr (hsj ▸ hj)] at hlarge
        cases hlarge
  · intro j hj hji T' hT' hof'
    refine hT'.congr (hof'.addrs_nodup h.nodup) ht.same ht.base (ht.treebins j hji)
      (ht.treemap j hji) ht.lt fun y hy hmem => ?_
    obtain ⟨s, hs, -, hsj⟩ := hof'.mem_addrs_iff.mp hy
    rcases hxs y hmem with hf | hT
    · exact not_fresh hs hf
    · obtain ⟨s', hs', -, hsi⟩ := hof.mem_addrs_iff.mp hT
      obtain rfl := h.unique hs hs'
      exact hji (hsj.symm.trans hsi)

theorem mem_small_okAddress (h : Represents m L) : ∀ y ∈ binOf m.bins i, m.okAddress y = true :=
  fun y hy => by
    obtain ⟨s, hs, -⟩ := mem_binOf.mp hy
    exact h.okAddress hs

/-- To link a chunk into its bin is to put it in front of the list. -/
theorem insertChunk (h : Represents m L) (hp : Fresh m L p) (hsize : m.chunksize p = s)
    (haddr : m.leastAddr ≤ p ∧ p + 64 ≤ 2 ^ 64 ∧ p ≠ 0) (hfuel : m.bins.length ≤ fuel) :
    ∃ L', L.insertChunk m fuel p s = .ok L' ∧ Represents (m.insertChunk p s) L' ∧
      L'.base = L.base := by
  have hrep : ∀ L' : Links, L'.base = L.base →
      (∀ j < 32, SmallBin L' j (binOf ((p, s) :: m.bins) j)) →
      (∀ j < 32, ∃ T, IsTree L' j T ∧ TreeOf ((p, s) :: m.bins) j T) →
      Represents (m.insertChunk p s) L' := fun L' hbase hsmall htree =>
    { nodup := List.nodup_cons.mpr ⟨hp.1, h.nodup⟩
      size := List.forall_mem_cons.mpr ⟨hsize, h.size⟩
      addr := List.forall_mem_cons.mpr ⟨haddr, h.addr⟩
      head := fun e he i hi => by
        rw [Links.smallbinAt, hbase]
        rcases List.mem_cons.mp he with rfl | he
        · exact hp.2 i hi
        · exact h.head e he i hi
      small := hsmall
      tree := htree }
  unfold Links.insertChunk
  by_cases hs : isSmall s = true
  · have hi := isSmall_iff.mp hs
    rw [if_pos hs]
    obtain ⟨L', hgo, hbin, ht⟩ := (h.small _ hi).insert (m := m) (p := p) rfl hi (fun hmem => by
      rcases List.mem_append.mp hmem with hmem | hmem
      · obtain ⟨t, ht, -⟩ := mem_binOf.mp hmem
        exact not_fresh ht hp
      · exact hp.2 _ hi (List.mem_singleton.mp hmem)) h.mem_small_okAddress
    obtain ⟨hsmall, htree⟩ := h.small_edit ht (fun y hy => by
      simp only [List.mem_cons, List.mem_append, List.not_mem_nil, or_false] at hy
      rcases hy with rfl | hy
      · exact .inl hp
      · exact .inr hy) hi
    refine ⟨L', hgo, hrep L' ht.base (fun j hj => ?_) (fun j hj => ?_), ht.base⟩
    · by_cases hji : j = smallIndex s
      · subst hji
        rw [binOf, sizedBy_cons, if_pos (beq_self_eq_true _)]
        exact hbin
      · rw [binOf_cons_of_ne (Ne.symm hji)]
        exact hsmall j hj hji
    · obtain ⟨T, hT, hof⟩ := h.tree j hj
      refine ⟨T, htree j hj T hT hof, hof.congr fun s' _ hlarge => chunksOf_cons_of_ne ?_⟩
      rintro rfl
      rw [hs] at hlarge
      cases hlarge
  · have hs' : isSmall s = false := by simpa using hs
    rw [if_neg hs]
    obtain ⟨T, hT, hof⟩ := h.tree _ (computeTreeIndex_lt (s := s))
    obtain ⟨L', hgo, hT', ht⟩ := insertLargeChunk_spec (m := m) (x := p) hT (hof.fits h) rfl
        (fun hmem => by
      obtain ⟨t, ht, -⟩ := hof.mem_addrs_iff.mp hmem
      exact not_fresh ht hp) haddr.2.2 ((hof.length_le h.nodup).trans hfuel)
    obtain ⟨hsmall, htree⟩ := h.tree_edit ht hof fun y hy => by
      rcases List.mem_cons.mp hy with rfl | hy
      · exact .inl hp
      · exact .inr hy
    refine ⟨L', hgo, hrep L' ht.base (fun j hj => ?_) (fun j hj => ?_), ht.base⟩
    · rw [binOf_cons_of_ne fun heq => hs (isSmall_iff.mpr (heq ▸ hj))]
      exact hsmall j hj
    · by_cases hji : j = computeTreeIndex s
      · subst hji
        exact ⟨_, hT', hof.addChunk ⟨hs', rfl⟩⟩
      · obtain ⟨T', hT', hof'⟩ := h.tree j hj
        refine ⟨T', htree j hj hji T' hT' hof', hof'.congr fun s' hj' _ => chunksOf_cons_of_ne ?_⟩
        rintro rfl
        exact hji hj'.symm

/-- What is behind the removal of a chunk, if its bin is one without it. -/
theorem of_erase (h : Represents m L) (hbase : L'.base = L.base)
    (hsmall : ∀ j < 32, SmallBin L' j (binOf (m.bins.erase (p, s)) j))
    (htree : ∀ j < 32, ∃ T, IsTree L' j T ∧ TreeOf (m.bins.erase (p, s)) j T) :
    Represents (m.unlinkChunk p s) L' where
  nodup := (List.erase_sublist.map Prod.fst).nodup h.nodup
  size e he := h.size e (List.mem_of_mem_erase he)
  addr e he := h.addr e (List.mem_of_mem_erase he)
  head e he i hi := by
    rw [Links.smallbinAt, hbase]
    exact h.head e (List.mem_of_mem_erase he) i hi
  small := hsmall
  tree := htree

theorem unlink_small (h : Represents m L) (hp : (p, s) ∈ m.bins) (hi : smallIndex s < 32)
    (hbin : SmallBin L' (smallIndex s) ((binOf m.bins (smallIndex s)).erase p))
    (ht : TouchesSmall L L' (smallIndex s)
      (binOf m.bins (smallIndex s) ++ [L.smallbinAt (smallIndex s)])) :
    Represents (m.unlinkChunk p s) L' := by
  obtain ⟨hsmall, htree⟩ := h.small_edit ht (fun y hy => by
    simp only [List.mem_append, List.mem_singleton] at hy
    exact .inr hy) hi
  refine h.of_erase ht.base (fun j hj => ?_) fun j hj => ?_
  · by_cases hji : j = smallIndex s
    · subst hji
      rw [binOf_erase h.nodup hp]
      exact hbin
    · rw [binOf_erase_of_ne (Ne.symm hji)]
      exact hsmall j hj hji
  · obtain ⟨T, hT, hof⟩ := h.tree j hj
    refine ⟨T, htree j hj T hT hof, hof.congr fun s' _ hlarge => chunksOf_erase_of_ne ?_⟩
    rintro rfl
    rw [isSmall_iff.mpr hi] at hlarge
    cases hlarge

/-- To unlink a tree chunk is to erase it from the list. -/
theorem unlinkLargeChunk (h : Represents m L) (hp : (p, s) ∈ m.bins) (hs : isSmall s = false)
    (hfuel : m.bins.length ≤ fuel) :
    ∃ L', L.unlinkLargeChunk m fuel p = .ok L' ∧ Represents (m.unlinkChunk p s) L' ∧
      L'.base = L.base := by
  obtain ⟨T, hT, hof⟩ := h.tree _ (computeTreeIndex_lt (s := s))
  have hmem : p ∈ chunksOf m.bins s := mem_chunksOf.mpr hp
  obtain ⟨l, r, hnode⟩ := (hof.subtree_eq ⟨hs, rfl⟩).resolve_left fun hno =>
    List.ne_nil_of_mem hmem hno.2
  obtain ⟨L', hgo, hT', ht⟩ := unlinkLargeChunk_spec hT (hof.fits h) computeTreeIndex_lt
    (by unfold Links.treebinAt; omega) hnode hmem ((hof.length_le h.nodup).trans hfuel)
  obtain ⟨hsmall, htree⟩ := h.tree_edit ht hof fun y hy => .inr hy
  refine ⟨L', hgo, h.of_erase ht.base (fun j hj => ?_) (fun j hj => ?_), ht.base⟩
  · rw [binOf_erase_of_ne fun heq => by
      rw [isSmall_iff.mpr (heq ▸ hj)] at hs
      cases hs]
    exact hsmall j hj
  · by_cases hji : j = computeTreeIndex s
    · subst hji
      exact ⟨_, hT', hof.dropChunk ⟨hs, rfl⟩ h.nodup hp⟩
    · obtain ⟨T', hT', hof'⟩ := h.tree j hj
      refine ⟨T', htree j hj hji T' hT' hof', hof'.congr fun s' hj' _ => chunksOf_erase_of_ne ?_⟩
      rintro rfl
      exact hji hj'.symm

/-- To unlink a chunk of the bins is to erase it from the list. -/
theorem unlinkChunk (h : Represents m L) (hp : (p, s) ∈ m.bins) (hfuel : m.bins.length ≤ fuel) :
    ∃ L', L.unlinkChunk m fuel p s = .ok L' ∧ Represents (m.unlinkChunk p s) L' ∧
      L'.base = L.base := by
  unfold Links.unlinkChunk
  by_cases hs : isSmall s = true
  · have hi := isSmall_iff.mp hs
    rw [if_pos hs]
    have hmem : p ∈ binOf m.bins (smallIndex s) := mem_binOf.mpr ⟨s, hp, rfl⟩
    obtain ⟨L', hgo, hbin, ht⟩ := (h.small _ hi).unlink (m := m) rfl hi hmem h.mem_small_okAddress
    exact ⟨L', hgo, h.unlink_small hp hi hbin ht, ht.base⟩
  · rw [if_neg hs]
    exact h.unlinkLargeChunk hp (by simpa using hs) hfuel

end Represents

end PrecisionGc.Dlmalloc
