import PrecisionGc.Verify.BinRuns

/-!
# Searching the tries

The two searches of the tree bins, along the bits of a size and along the leftmost children, find
what a search of the whole list finds: of the chunks that are large enough the least, and the oldest
of these.
-/

namespace PrecisionGc.Dlmalloc
open DigitalTree

variable {L : Links} {m : MState} {i par a p k v s d nb n fuel : Nat} {bins : List (Nat × Nat)}
  {c : List Nat} {l r T : BinTree} {es : List (Nat × List Nat)}

/-- A node with a smaller remainder than the best one takes its place. -/
def pick (nb : Nat) (best : Nat × Nat) (e : Nat × List Nat) : Nat × Nat :=
  if subSize e.1 nb < best.2 then (e.2.getLast?.getD 0, subSize e.1 nb) else best

/-! ## The list -/

theorem leastFit_eq_none_iff :
    leastFit nb bins = none ↔ ∀ e ∈ bins, isSmall e.2 = false → e.2 < nb := by
  induction bins with
  | nil => simp [leastFit]
  | cons c bins ih =>
    rw [List.forall_mem_cons, ← ih, leastFit]
    cases leastFit nb bins with
    | none => cases isSmall c.2 <;> simp
    | some b => 
      simp only
      split <;> simp

theorem leastFit_spec (h : leastFit nb bins = some (p, k)) :
    isSmall k = false ∧ nb ≤ k ∧ (chunksOf bins k).getLast? = some p ∧
      ∀ e ∈ bins, isSmall e.2 = false → nb ≤ e.2 → k ≤ e.2 := by
  induction bins generalizing p k with
  | nil => cases h
  | cons c bins ih =>
    rcases c with ⟨q, s⟩
    -- no chunk further on has the size of one that is better than all of them
    have hfirst : (∀ e ∈ bins, isSmall e.2 = false → nb ≤ e.2 → s < e.2) → isSmall s = false →
        nb ≤ s → (chunksOf ((q, s) :: bins) s).getLast? = some q := fun hlt hs hle => by
      have hnil : chunksOf bins s = [] := by
        refine List.eq_nil_iff_forall_not_mem.mpr fun y hy => ?_
        exact absurd (hlt _ (mem_chunksOf.mp hy) hs hle) (lt_irrefl s)
      rw [chunksOf, sizedBy_cons, if_pos (beq_self_eq_true s)]
      exact congrArg (fun l => (q :: l).getLast?) hnil
    rw [leastFit] at h
    cases hrest : leastFit nb bins with
    | none =>
      rw [hrest] at h
      have hnone := leastFit_eq_none_iff.mp hrest
      simp only [Option.ite_none_right_eq_some, Bool.and_eq_true, Bool.not_eq_true',
        decide_eq_true_eq, Option.some.injEq, Prod.mk.injEq] at h
      obtain ⟨⟨hs, hle⟩, rfl, rfl⟩ := h
      refine ⟨hs, hle, hfirst (fun e he hes hle' => ?_) hs hle, ?_⟩
      · exact absurd (hnone e he hes) (not_lt.mpr hle')
      · rintro e he hes hle'
        rcases List.mem_cons.mp he with rfl | he
        · exact le_rfl
        · exact absurd (hnone e he hes) (not_lt.mpr hle')
    | some b =>
      rcases b with ⟨q', s'⟩
      rw [hrest] at h
      obtain ⟨hs', hle', hlast, hmin⟩ := ih hrest
      dsimp only at h
      split at h
      case isTrue hbetter =>
        simp only [Bool.and_eq_true, Bool.not_eq_true', decide_eq_true_eq] at hbetter
        obtain ⟨⟨hs, hle⟩, hlt⟩ := hbetter
        obtain ⟨rfl, rfl⟩ := Prod.mk.inj (Option.some.inj h)
        refine ⟨hs, hle, hfirst (fun e he hes hle' => hlt.trans_le (hmin e he hes hle')) hs hle, ?_⟩
        rintro e he hes hle'
        rcases List.mem_cons.mp he with rfl | he
        · exact le_rfl
        · exact hlt.le.trans (hmin e he hes hle')
      case isFalse hbetter =>
        simp only [Bool.and_eq_true, Bool.not_eq_true', decide_eq_true_eq, not_and, not_lt]
          at hbetter
        obtain ⟨rfl, rfl⟩ := Prod.mk.inj (Option.some.inj h)
        refine ⟨hs', hle', ?_, ?_⟩
        · rw [chunksOf, sizedBy_cons]
          split
          · rw [List.getLast?_cons]
            change some ((chunksOf bins s').getLast?.getD q) = _
            rw [hlast]
            rfl
          · exact hlast
        · rintro e he hes hle''
          rcases List.mem_cons.mp he with rfl | he
          · exact hbetter ⟨hes, hle''⟩
          · exact hmin e he hes hle''

/-! ## The best remainder -/

theorem foldl_pick (nb : Nat) (es : List (Nat × List Nat)) (best : Nat × Nat) :
    (es.foldl (pick nb) best).2 ≤ best.2 ∧
    (∀ e ∈ es, (es.foldl (pick nb) best).2 ≤ subSize e.1 nb) ∧
    (es.foldl (pick nb) best = best ∨ ∃ e ∈ es, es.foldl (pick nb) best =
      (e.2.getLast?.getD 0, subSize e.1 nb) ∧ subSize e.1 nb < best.2) := by
  induction es generalizing best with
  | nil => exact ⟨le_rfl, by simp, .inl rfl⟩
  | cons e es ih =>
    rw [List.foldl_cons]
    obtain ⟨hle, hall, hwhich⟩ := ih (pick nb best e)
    have hpick : (pick nb best e).2 ≤ best.2 ∧ (pick nb best e).2 ≤ subSize e.1 nb := by
      unfold pick
      split
      case isTrue hlt => exact ⟨hlt.le, le_rfl⟩
      case isFalse hge => exact ⟨le_rfl, not_lt.mp hge⟩
    refine ⟨hle.trans hpick.1, List.forall_mem_cons.mpr ⟨hle.trans hpick.2, hall⟩, ?_⟩
    rcases hwhich with heq | ⟨e', he', heq, hlt⟩
    · rw [heq]
      unfold pick
      split
      case isTrue hlt => exact .inr ⟨e, List.mem_cons_self, rfl, hlt⟩
      case isFalse => exact .inl rfl
    · exact .inr ⟨e', List.mem_cons_of_mem _ he', heq, hlt.trans_le hpick.1⟩

theorem subSize_of_lt (hlt : k < nb) (hnb : nb < 2 ^ 64) : subSize k nb = k + (2 ^ 64 - nb) := by
  unfold subSize
  omega

theorem le_of_subSize_lt (hnb : nb < 2 ^ 64) (h : subSize k nb < 2 ^ 64 - nb) : nb ≤ k := by
  by_contra hge
  rw [subSize_of_lt (not_le.mp hge) hnb] at h
  omega

/-- What a search has to look at, to find the least chunk that fits. -/
structure Covers (bins : List (Nat × Nat)) (nb : Nat) (es : List (Nat × List Nat)) : Prop where
  entry : ∀ e ∈ es, e.2 ≠ [] ∧ e.2 = chunksOf bins e.1 ∧ isSmall e.1 = false
  least : ∀ e ∈ bins, isSmall e.2 = false → nb ≤ e.2 → ∃ e' ∈ es, nb ≤ e'.1 ∧ e'.1 ≤ e.2

/-- The chunk that `leastFit` finds, with its remainder. -/
def fitOf (nb : Nat) (bins : List (Nat × Nat)) : Nat × Nat :=
  match leastFit nb bins with
  | some (p, k) => (p, k - nb)
  | none => (0, 2 ^ 64 - nb)

theorem Covers.foldl_eq (h : Covers bins nb es) (hsize : ∀ e ∈ bins, e.2 < 2 ^ 64)
    (hnb : nb < 2 ^ 64) : es.foldl (pick nb) (0, 2 ^ 64 - nb) = fitOf nb bins := by
  have hbin : ∀ e ∈ es, ∃ p, (p, e.1) ∈ bins := fun e he => by
    obtain ⟨hne, heq, -⟩ := h.entry e he
    obtain ⟨p, hp⟩ := List.exists_mem_of_ne_nil _ hne
    exact ⟨p, mem_chunksOf.mp (heq ▸ hp)⟩
  obtain ⟨-, hall, hwhich⟩ := foldl_pick nb es (0, 2 ^ 64 - nb)
  unfold fitOf
  cases hleast : leastFit nb bins with
  | none =>
    have hnone := leastFit_eq_none_iff.mp hleast
    refine hwhich.resolve_right ?_
    rintro ⟨e, he, -, hlt⟩
    obtain ⟨p, hp⟩ := hbin e he
    exact absurd (hnone _ hp (h.entry e he).2.2) (not_lt.mpr (le_of_subSize_lt hnb hlt))
  | some b =>
    rcases b with ⟨p, k⟩
    obtain ⟨hs, hle, hlast, hmin⟩ := leastFit_spec hleast
    have hmem : (p, k) ∈ bins := mem_chunksOf.mp (List.mem_of_getLast? hlast)
    obtain ⟨e', he', hle', hle''⟩ := h.least _ hmem hs hle
    have hk := hsize _ hmem
    have hbest := hall e' he'
    obtain ⟨q, hq⟩ := hbin e' he'
    have hk' := hsize _ hq
    dsimp only at hk hk' hle''
    rw [subSize_eq hk' hle'] at hbest
    rcases hwhich with heq | ⟨e, he, heq, hlt⟩
    · rw [heq] at hbest
      dsimp only at hbest
      omega
    · obtain ⟨q', hq'⟩ := hbin e he
      have hke := hsize _ hq'
      dsimp only at hke
      have hfe := le_of_subSize_lt hnb hlt
      rw [heq, subSize_eq hke hfe] at hbest
      have hkm := hmin _ hq' (h.entry e he).2.2 hfe
      dsimp only at hbest hkm
      have hek : e.1 = k := by omega
      rw [heq, subSize_eq hke hfe, (h.entry e he).2.1, hek, hlast]
      rfl

/-! ## The walks -/

theorem NodeAt.getLast (h : NodeAt L i par a c) : c.getLast?.getD 0 = a := by
  obtain ⟨rest, rfl, -⟩ := h.ring
  simp

/-- `leftmost_child` leads along the walk to the leftmost leaf. -/
theorem TreeAt.leftmost (h : TreeAt L i par a (.node k c l r)) :
    ∃ S, (.node k c l r : BinTree).leftWalk = (k, c) :: S.leftWalk ∧
      TreeAt L i a (L.leftmostChild a) S ∧ (S = l ∨ S = r) := by
  obtain ⟨-, hl, hr⟩ := h
  unfold Links.leftmostChild
  by_cases hnil : l = .nil
  · subst hnil
    rw [show L.child a false = 0 from hl]
    exact ⟨r, Tree.leftWalk_of_nil, hr, .inr rfl⟩
  · rw [if_pos (by simpa using mt hl.eq_zero_iff.mp hnil)]
    exact ⟨l, Tree.leftWalk_of_ne_nil hnil, hl, .inl rfl⟩

theorem smallestOnLeft_spec (h : TreeAt L i par a T) (hfits : Fits m T)
    (hfuel : T.toList.length < fuel) :
    L.smallestOnLeft m nb fuel a v s = .ok (T.leftWalk.foldl (pick nb) (v, s)) := by
  induction fuel generalizing T par a v s with
  | zero => exact absurd hfuel (Nat.not_lt_zero _)
  | succ fuel ih =>
    unfold Links.smallestOnLeft
    cases T with
    | nil =>
      rw [if_pos (treeAt_nil.mp h)]
      rfl
    | node k c l r =>
      obtain ⟨S, hwalk, hS, hside⟩ := h.leftmost
      obtain ⟨-, hcm, hfl, hfr, -, -⟩ := hfits.node
      have hfS : Fits m S := by
        rcases hside with rfl | rfl
        · exact hfl
        · exact hfr
      have hlen : S.toList.length < fuel := by
        simp only [Tree.toList_node, List.length_cons, List.length_append] at hfuel
        rcases hside with rfl | rfl <;> omega
      rw [if_neg (h.1.ne_zero a h.1.mem), (hcm a h.1.mem).1, hwalk, List.foldl_cons]
      dsimp only
      unfold pick
      rw [h.1.getLast]
      split
      · exact ih hS hfS hlen
      · exact ih hS hfS hlen

/-- `t` is linked, and a search through it takes at most `n` steps. -/
def Stands (L : Links) (m : MState) (i n a : Nat) (t : BinTree) : Prop :=
  (∃ par, TreeAt L i par a t) ∧ Fits m t ∧ t.toList.length ≤ n

theorem Stands.eq_zero_iff (h : Stands L m i n a t) : a = 0 ↔ t = .nil := by
  obtain ⟨⟨par, h⟩, -⟩ := h
  exact h.eq_zero_iff

theorem descendTree_spec {rst : Nat} {R : BinTree} (h : TreeAt L i par a T) (hT : T ≠ .nil)
    (hfits : Fits m T) (hlen : T.toList.length ≤ n) (hfuel : T.toList.length ≤ fuel)
    (hR : Stands L m i n rst R) (hs : 0 < s) (hsize : ∀ e ∈ T.toList, e.1 < 2 ^ 64)
    (hnb : nb < 2 ^ 64) :
    ∃ t, L.descendTree m nb fuel a (sizeBits i nb d) v s rst =
        .ok (t, (T.descend (digit i) nb d R).1.foldl (pick nb) (v, s)) ∧
      Stands L m i n t (T.descend (digit i) nb d R).2 := by
  induction T generalizing par a d fuel v s rst R with
  | nil => exact absurd rfl hT
  | node k c l r ihl ihr =>
    obtain ⟨fuel, rfl⟩ : ∃ n, fuel = n + 1 := ⟨fuel - 1, by simp at hfuel; omega⟩
    have hkeep := h
    obtain ⟨hn, hl, hr⟩ := h
    obtain ⟨-, hcm, hfl, hfr, -, hlr⟩ := hfits.node
    have hk : k < 2 ^ 64 := hsize (k, c) List.mem_cons_self
    have hsl : ∀ e ∈ l.toList, e.1 < 2 ^ 64 := fun e he => hsize e (by simp [he])
    have hsr : ∀ e ∈ r.toList, e.1 < 2 ^ 64 := fun e he => hsize e (by simp [he])
    have hlen' := hlen
    simp only [Tree.toList_node, List.length_cons, List.length_append] at hfuel hlen'
    unfold Links.descendTree Tree.descend
    rw [(hcm a hn.mem).1]
    dsimp only
    by_cases hkn : k = nb
    · -- an exact fit ends the search
      have hzero : subSize k nb = 0 := by rw [hkn, subSize_eq hnb le_rfl, Nat.sub_self]
      rw [hzero, if_pos (by simp [hs]), if_pos hkn]
      refine ⟨a, ?_, ⟨par, hkeep⟩, hfits, hlen⟩
      rw [List.foldl_cons, List.foldl_nil, pick, if_pos (by rw [hzero]; exact hs), hn.getLast,
        hzero]
      rfl
    · have hzero : subSize k nb ≠ 0 := by
        rcases Nat.lt_or_ge k nb with hlt | hge
        · rw [subSize_of_lt hlt hnb]
          omega
        · rw [subSize_eq hk hge]
          omega
      have hpick : (if subSize k nb < s then (a, subSize k nb) else (v, s)) =
          pick nb (v, s) (k, c) := by
        rw [pick, hn.getLast]
      have hs₂ : 0 < (pick nb (v, s) (k, c)).2 := by
        unfold pick
        split
        · exact Nat.pos_of_ne_zero hzero
        · exact hs
      rw [if_neg (by simp [hzero]), if_neg hkn, hpick, List.foldl_cons]
      generalize pick nb (v, s) (k, c) = q at hs₂
      obtain ⟨v₂, s₂⟩ := q
      dsimp only at hs₂ ⊢
      rw [show (sizeBits i nb d / 2 ^ 63 % 2 == 1) = digit i nb d from rfl, ← sizeBits_succ]
      cases hd : digit i nb d with
      | true =>
        have hrt : (if (L.child a true != 0 && L.child a true != L.child a true) = true
            then L.child a true else rst) = rst := if_neg (by simp)
        rw [hrt, if_pos (rfl : true = true)]
        by_cases hnil : r = .nil
        · subst hnil
          rw [if_pos (treeAt_nil.mp hr)]
          exact ⟨rst, rfl, hR⟩
        · rw [if_neg (mt hr.eq_zero_iff.mp hnil)]
          exact ihr hr hnil hfr (show _ ≤ n by omega) (show _ ≤ fuel by omega) hR hs₂ hsr
      | false =>
        -- the right subtree is passed by
        have hrst : Stands L m i n
            (if (L.child a true != 0 && L.child a true != L.child a false) = true then
              L.child a true else rst) (r.orElse R) := by
          by_cases hnil : r = .nil
          · subst hnil
            rw [if_neg (by simp [treeAt_nil.mp hr])]
            exact hR
          · have hne := mt hr.eq_zero_iff.mp hnil
            have hdiff : L.child a true ≠ L.child a false := fun heq => by
              have hmem := hr.root_mem hne
              exact hlr _ (hl.root_mem (heq ▸ hne)) (heq ▸ hmem)
            rw [if_pos (by simp [hne, hdiff]), Tree.orElse_of_ne_nil hnil]
            exact ⟨⟨a, hr⟩, hfr, by omega⟩
        rw [if_neg Bool.false_ne_true]
        generalize (if (L.child a true != 0 && L.child a true != L.child a false) = true
            then L.child a true else rst) = rst' at hrst ⊢
        by_cases hnil : l = .nil
        · subst hnil
          rw [if_pos (treeAt_nil.mp hl)]
          exact ⟨rst', rfl, hrst⟩
        · rw [if_neg (mt hl.eq_zero_iff.mp hnil)]
          exact ihl hl hnil hfl (show _ ≤ n by omega) (show _ ≤ fuel by omega) hrst hs₂ hsl

/-! ## The searches -/

/-- `compute_tree_index` is right for the sizes in the bins. -/
def Indexed (m : MState) : Prop := ∀ e ∈ m.bins, e.2 < 2 ^ 64 ∧ WellIndexed e.2

theorem le_of_not_small (h : isSmall s = false) : 2 ^ 8 ≤ s := by
  have := isSmall_iff.not.mp (by simp [h] : ¬isSmall s = true)
  unfold smallIndex at this
  omega

namespace Indexed

theorem inRange (h : Indexed m) {e : Nat × Nat} (he : e ∈ m.bins) (hs : isSmall e.2 = false) :
    InRange e.2 (computeTreeIndex e.2) :=
  (inRange_iff_wellIndexed (le_of_not_small hs) (h e he).1).mpr (h e he).2

theorem belongs (h : Indexed m) (hof : TreeOf m.bins i T) : ∀ e ∈ T.toList, Belongs i e.1 := by
  intro e he
  obtain ⟨hne, hc, hs, hi⟩ := (hof.mem e.1 e.2).mp he
  obtain ⟨p, hp⟩ := List.exists_mem_of_ne_nil _ hne
  have hmem : (p, e.1) ∈ m.bins := mem_chunksOf.mp (hc ▸ hp)
  exact ⟨hi, le_of_not_small hs, (h _ hmem).1, (h _ hmem).2⟩

theorem sorted (h : Indexed m) (hof : TreeOf m.bins i T) (hi : i < 32) : T.Sorted :=
  hof.routed.sorted (ordered_digit hi) (h.belongs hof)
    fun _ _ _ _ _ hlt => absurd hlt (Nat.not_lt_zero _)

/-- The sizes of a bin with a larger index are larger. -/
theorem lt_of_index_lt (h : Indexed m) (hof : TreeOf m.bins i T) {e : Nat × List Nat}
    (he : e ∈ T.toList) {e' : Nat × Nat} (he' : e' ∈ m.bins) (hs : isSmall e'.2 = false)
    (hlt : i < computeTreeIndex e'.2) : e.1 < e'.2 := by
  obtain ⟨hi, hle, hlt', hw⟩ := h.belongs hof e he
  exact lt_of_computeTreeIndex_lt ((inRange_iff_wellIndexed hle hlt').mpr hw) (h.inRange he' hs)
    (hi ▸ hlt)

end Indexed

theorem TreeOf.entry (h : TreeOf bins i T) : ∀ e ∈ T.toList,
    e.2 ≠ [] ∧ e.2 = chunksOf bins e.1 ∧ isSmall e.1 = false := fun e he => by
  obtain ⟨hne, hc, hs, -⟩ := (h.mem e.1 e.2).mp he
  exact ⟨hne, hc, hs⟩

theorem TreeOf.mem_of_bin (h : TreeOf bins (computeTreeIndex s) T) (hs : isSmall s = false)
    (hp : (p, s) ∈ bins) : (s, chunksOf bins s) ∈ T.toList :=
  (h.mem s _).mpr ⟨List.ne_nil_of_mem (mem_chunksOf.mpr hp), rfl, hs, rfl⟩

/-- A tree of sizes that all fit is searched along the leftmost children, if no smaller index
has one that fits. -/
theorem covers_leftWalk (h : Indexed m) (hof : TreeOf m.bins i T) (hi : i < 32) (hT : T ≠ .nil)
    (hfit : ∀ e ∈ T.toList, nb ≤ e.1)
    (hothers : ∀ e ∈ m.bins, isSmall e.2 = false → nb ≤ e.2 → i ≤ computeTreeIndex e.2) :
    Covers m.bins nb T.leftWalk where
  entry e he := hof.entry e (Tree.leftWalk_subset he)
  least e he hs hle := by
    rcases (hothers e he hs hle).eq_or_lt with heq | hlt
    · subst heq
      obtain ⟨e', he', hle'⟩ := (h.sorted hof hi).exists_leftWalk (hof.mem_of_bin hs he)
      exact ⟨e', he', hfit e' (Tree.leftWalk_subset he'), hle'⟩
    · obtain ⟨e', he'⟩ := List.exists_mem_of_ne_nil _ (mt Tree.leftWalk_eq_nil.mp hT)
      have hmem := Tree.leftWalk_subset he'
      exact ⟨e', he', hfit e' hmem, (h.lt_of_index_lt hof hmem he hs hlt).le⟩

namespace Represents

theorem treemap_lt (h : Represents m L) : L.treemap < 2 ^ 32 := by
  obtain ⟨T, hT, -⟩ := h.tree 0 (by decide)
  exact hT.lt

theorem marked_of_mem (h : Represents m L) {e : Nat × Nat} (he : e ∈ m.bins)
    (hs : isSmall e.2 = false) : L.treemap.testBit (computeTreeIndex e.2) = true := by
  obtain ⟨T, hT, hof⟩ := h.tree _ (computeTreeIndex_lt (s := e.2))
  refine hT.marked.mpr fun hnil => ?_
  have := hof.mem_of_bin hs he
  rw [hnil] at this
  cases this

/-- `tmalloc_small` takes the least of all tree chunks. -/
theorem leastChunk (h : Represents m L) (hidx : Indexed m) (hmap : L.treemap ≠ 0) (hnb : nb < 2 ^ 8)
    (hfuel : m.bins.length < fuel) : L.leastChunk m fuel nb = .ok (fitOf nb m.bins) := by
  obtain ⟨hi, hbit, hleast⟩ := bit2idx_leastBit hmap h.treemap_lt
  unfold Links.leastChunk
  dsimp only
  generalize bit2idx (leastBit L.treemap) = i at hi hbit hleast
  obtain ⟨T, hT, hof⟩ := h.tree i hi
  have hne := hT.marked.mp hbit
  have hfit : ∀ e ∈ T.toList, nb ≤ e.1 := fun e he =>
    hnb.le.trans (le_of_not_small (hof.entry e he).2.2)
  have hcov := covers_leftWalk hidx hof hi hne hfit fun e he hs _ =>
    not_lt.mp fun hlt => hleast _ hlt (h.marked_of_mem he hs)
  have heq := hcov.foldl_eq (fun e he => (hidx e he).1) (show nb < 2 ^ 64 by omega)
  have hfits := hof.fits h
  have hlen := hof.length_le h.nodup
  cases T with
  | nil => exact absurd rfl hne
  | node k c l r =>
    obtain ⟨S, hwalk, hS, hside⟩ := hT.tree.leftmost
    obtain ⟨-, hcm, hfl, hfr, -, -⟩ := hfits.node
    have hroot := hT.tree.1
    obtain ⟨-, -, hk, -⟩ := hidx.belongs hof (k, c) List.mem_cons_self
    have hle := hfit (k, c) List.mem_cons_self
    dsimp only at hk hle
    have hfS : Fits m S := by
      rcases hside with rfl | rfl
      · exact hfl
      · exact hfr
    have hlenS : S.toList.length < fuel := by
      simp only [Tree.toList_node, List.length_cons, List.length_append] at hlen
      rcases hside with rfl | rfl <;> omega
    have hpick : pick nb (0, 2 ^ 64 - nb) (k, c) = (L.treebins i, subSize k nb) := by
      unfold pick
      rw [if_pos (by rw [subSize_eq hk hle]; omega), hroot.getLast]
    rw [hwalk, List.foldl_cons, hpick] at heq
    rw [(hcm _ hroot.mem).1, smallestOnLeft_spec hS hfS hlenS, heq]

/-- The first part of the search, through the bin of the size itself. -/
theorem descend_bin (h : Represents m L) (hidx : Indexed m) {T : BinTree}
    (hT : IsTree L (computeTreeIndex nb) T) (hof : TreeOf m.bins (computeTreeIndex nb) T)
    (hnb : nb < 2 ^ 64) (hpos : 0 < nb) (hfuel : m.bins.length ≤ fuel) :
    ∃ t, (if L.treebins (computeTreeIndex nb) != 0 then
        L.descendTree m nb fuel (L.treebins (computeTreeIndex nb))
          (nb <<< leftshiftForTreeIndex (computeTreeIndex nb) % 2 ^ 64) 0 (subSize 0 nb) 0
      else pure (0, 0, subSize 0 nb)) = .ok (t,
        (T.descend (digit (computeTreeIndex nb)) nb 0 .nil).1.foldl (pick nb) (0, 2 ^ 64 - nb)) ∧
      Stands L m (computeTreeIndex nb) m.bins.length t
        (T.descend (digit (computeTreeIndex nb)) nb 0 .nil).2 := by
  have hnil : Stands L m (computeTreeIndex nb) m.bins.length 0 .nil :=
    ⟨⟨0, rfl⟩, ⟨List.nodup_nil, by simp, by simp⟩, Nat.zero_le _⟩
  have hzero : subSize 0 nb = 2 ^ 64 - nb := by rw [subSize_of_lt hpos hnb, Nat.zero_add]
  rw [hzero]
  by_cases hempty : T = .nil
  · subst hempty
    rw [show L.treebins (computeTreeIndex nb) = 0 from hT.tree]
    exact ⟨0, rfl, hnil⟩
  · have hne := mt hT.tree.eq_zero_iff.mp hempty
    rw [if_pos (by simpa using hne), ← sizeBits_zero]
    exact descendTree_spec hT.tree hempty (hof.fits h) (hof.length_le h.nodup)
      ((hof.length_le h.nodup).trans hfuel) hnil (by omega)
      (fun e he => (hidx.belongs hof e he).2.2.1) hnb

theorem getLast_ne_zero (h : Represents m L) {T : BinTree} (hof : TreeOf m.bins i T)
    {e : Nat × List Nat} (he : e ∈ T.toList) : e.2.getLast?.getD 0 ≠ 0 := by
  obtain ⟨hne, hc, -⟩ := hof.entry e he
  rw [List.getLast?_eq_some_getLast hne, Option.getD_some]
  have hmem : (e.2.getLast hne, e.1) ∈ m.bins := mem_chunksOf.mp (by
    rw [← hc]
    exact List.getLast_mem hne)
  exact (h.addr _ hmem).2.2

/-- The search in the next bin that is marked; the sizes there all fit. -/
theorem nextBin (h : Represents m L) (hidx : Indexed m) (hnb : nb < 2 ^ 64) (hle : 2 ^ 8 ≤ nb)
    (hw : WellIndexed nb) (hbeyond : ∀ e ∈ m.bins, isSmall e.2 = false → nb ≤ e.2 →
      computeTreeIndex nb < computeTreeIndex e.2) (hfuel : m.bins.length < fuel) :
    L.smallestOnLeft m nb fuel
        (L.treebinOf (leftBits (idx2bit (computeTreeIndex nb)) &&& L.treemap)) 0 (2 ^ 64 - nb) =
      .ok (fitOf nb m.bins) := by
  have hsize : ∀ e ∈ m.bins, e.2 < 2 ^ 64 := fun e he => (hidx e he).1
  have hbits : ∀ j < 32, (leftBits (idx2bit (computeTreeIndex nb)) &&& L.treemap).testBit j =
      (decide (computeTreeIndex nb < j) && L.treemap.testBit j) := fun j hj => by
    rw [Nat.testBit_and, testBit_leftBits computeTreeIndex_lt hj]
  have hmarked : ∀ e ∈ m.bins, isSmall e.2 = false → nb ≤ e.2 →
      (leftBits (idx2bit (computeTreeIndex nb)) &&& L.treemap).testBit (computeTreeIndex e.2) =
        true :=
    fun e he hs hle' => by
      rw [hbits _ computeTreeIndex_lt, decide_eq_true (hbeyond e he hs hle'), Bool.true_and]
      exact h.marked_of_mem he hs
  have hlt : leftBits (idx2bit (computeTreeIndex nb)) &&& L.treemap < 2 ^ 32 :=
    lt_of_le_of_lt Nat.and_le_right h.treemap_lt
  generalize leftBits (idx2bit (computeTreeIndex nb)) &&& L.treemap = bits at hbits hmarked hlt
  unfold Links.treebinOf
  by_cases hzero : bits = 0
  · have hcov : Covers m.bins nb [] := by
      refine ⟨by simp, fun e he hs hle' => ?_⟩
      have := hmarked e he hs hle'
      rw [hzero, Nat.zero_testBit] at this
      cases this
    rw [if_neg (by simpa using hzero), ← hcov.foldl_eq hsize hnb]
    exact smallestOnLeft_spec (T := .nil) (treeAt_nil.mpr rfl : TreeAt L 0 0 0 .nil)
      ⟨List.nodup_nil, by simp, by simp⟩
      (show 0 < fuel by omega)
  · obtain ⟨hi, hbit, hleast⟩ := bit2idx_leastBit hzero hlt
    rw [if_pos (by simpa using hzero)]
    generalize bit2idx (leastBit bits) = i at hi hbit hleast
    rw [hbits i hi, Bool.and_eq_true, decide_eq_true_eq] at hbit
    obtain ⟨T, hT, hof⟩ := h.tree i hi
    have hfit : ∀ e ∈ T.toList, nb ≤ e.1 := fun e he => by
      obtain ⟨hie, hle', hlt', hw'⟩ := hidx.belongs hof e he
      exact (lt_of_computeTreeIndex_lt ((inRange_iff_wellIndexed hle hnb).mpr hw)
        ((inRange_iff_wellIndexed hle' hlt').mpr hw') (hie ▸ hbit.1)).le
    have hcov := covers_leftWalk hidx hof hi (hT.marked.mp hbit.2) hfit fun e he hs hle' =>
      not_lt.mp fun hlt => hleast _ hlt (hmarked e he hs hle')
    rw [smallestOnLeft_spec hT.tree (hof.fits h) ((hof.length_le h.nodup).trans_lt hfuel),
      hcov.foldl_eq hsize hnb]

theorem bestFit_eq : L.bestFit m fuel nb =
    (if L.treebins (computeTreeIndex nb) != 0 then
      L.descendTree m nb fuel (L.treebins (computeTreeIndex nb))
        (nb <<< leftshiftForTreeIndex (computeTreeIndex nb) % 2 ^ 64) 0 (subSize 0 nb) 0
    else pure (0, 0, subSize 0 nb)) >>= fun x =>
      L.smallestOnLeft m nb fuel (if x.1 = 0 && x.2.1 = 0 then
        L.treebinOf (leftBits (idx2bit (computeTreeIndex nb)) &&& L.treemap)
      else x.1) x.2.1 x.2.2 := by
  unfold Links.bestFit
  dsimp only
  split <;> rfl

/-- `tmalloc_large` finds the least of the tree chunks that are large enough. -/
theorem bestFit (h : Represents m L) (hidx : Indexed m) (hle : 2 ^ 8 ≤ nb) (hnb : nb < 2 ^ 64)
    (hw : WellIndexed nb) (hfuel : m.bins.length < fuel) :
    L.bestFit m fuel nb = .ok (fitOf nb m.bins) := by
  obtain ⟨T, hT, hof⟩ := h.tree _ (computeTreeIndex_lt (s := nb))
  obtain ⟨t, hgo, hstands⟩ := h.descend_bin hidx hT hof hnb (by omega) hfuel.le
  have hbelongs : Belongs (computeTreeIndex nb) nb := ⟨rfl, hle, hnb, hw⟩
  have hord := ordered_digit (computeTreeIndex_lt (s := nb))
  have hviews : Tree.Views (digit (computeTreeIndex nb)) (Belongs (computeTreeIndex nb)) nb 0 T
      .nil :=
    ⟨hof.routed, hidx.belongs hof, fun _ _ _ hlt => absurd hlt (Nat.not_lt_zero _), by simp,
      by simp, trivial⟩
  -- what fits has an index from that of the request on
  have hfrom : ∀ e ∈ m.bins, isSmall e.2 = false → nb ≤ e.2 →
      computeTreeIndex nb ≤ computeTreeIndex e.2 := fun e he hs hle' => by
    by_contra hlt
    exact absurd (lt_of_computeTreeIndex_lt (hidx.inRange he hs)
      ((inRange_iff_wellIndexed hle hnb).mpr hw) (not_le.mp hlt)) (not_lt.mpr hle')
  have hsize : ∀ e ∈ m.bins, e.2 < 2 ^ 64 := fun e he => (hidx e he).1
  rw [bestFit_eq, hgo]
  generalize hds : T.descend (digit (computeTreeIndex nb)) nb 0 .nil = found at hstands
  have hsub : ∀ e ∈ found.1 ++ found.2.leftWalk, e ∈ T.toList := fun e he => by
    rcases List.mem_append.mp he with he | he
    · exact Tree.descend_subset e (hds ▸ he)
    · have hrest := Tree.leftWalk_subset he
      rw [← hds] at hrest
      exact (Tree.descend_rest e hrest).resolve_right List.not_mem_nil
  obtain ⟨⟨par, htree⟩, hfits, hlen⟩ := hstands
  obtain ⟨-, hall, hwhich⟩ := foldl_pick nb found.1 (0, 2 ^ 64 - nb)
  change L.smallestOnLeft m nb fuel _ _ _ = _
  by_cases hnone : t = 0 ∧ (found.1.foldl (pick nb) (0, 2 ^ 64 - nb)).1 = 0
  · -- nothing was found: the search goes on in the next bin that is marked
    have hinit : found.1.foldl (pick nb) (0, 2 ^ 64 - nb) = (0, 2 ^ 64 - nb) := by
      refine hwhich.resolve_right ?_
      rintro ⟨e, he, heq, -⟩
      have hzero := hnone.2
      rw [heq] at hzero
      exact h.getLast_ne_zero hof (hsub e (List.mem_append_left _ he)) hzero
    have hsmall : ∀ e ∈ T.toList, e.1 < nb := fun e he => by
      by_contra hge
      obtain ⟨e', he', hle', -⟩ := hviews.exists_found hord hbelongs (.inl he) (not_lt.mp hge)
      rw [hds, htree.eq_zero_iff.mp hnone.1] at he'
      have hmem : e' ∈ found.1 := by simpa [Tree.leftWalk] using he'
      have hb := hall e' hmem
      have hlt := (hidx.belongs hof e' (hsub e' (List.mem_append_left _ hmem))).2.2.1
      rw [hinit, subSize_eq hlt hle'] at hb
      dsimp only at hb
      omega
    have hbeyond : ∀ e ∈ m.bins, isSmall e.2 = false → nb ≤ e.2 →
        computeTreeIndex nb < computeTreeIndex e.2 := fun e he hs hle' => by
      refine lt_of_le_of_ne (hfrom e he hs hle') fun heq => ?_
      have hmem : (e.2, chunksOf m.bins e.2) ∈ T.toList := by
        rw [hof.mem]
        exact ⟨List.ne_nil_of_mem (mem_chunksOf.mpr he), rfl, hs, heq.symm⟩
      exact absurd (hsmall _ hmem) (not_lt.mpr hle')
    rw [if_pos (by simpa using hnone), hinit]
    exact h.nextBin hidx hnb hle hw hbeyond hfuel
  · rw [if_neg (by simpa using hnone), smallestOnLeft_spec htree hfits (hlen.trans_lt hfuel),
      ← List.foldl_append]
    -- a chunk in the bin fits
    have hfit : ∃ e ∈ T.toList, nb ≤ e.1 := by
      by_cases ht : t = 0
      · rcases hwhich with heq | ⟨e, he, -, hlt⟩
        · exact absurd ⟨ht, congrArg Prod.fst heq⟩ hnone
        · exact ⟨e, hsub e (List.mem_append_left _ he), le_of_subSize_lt hnb hlt⟩
      · obtain ⟨e, he, hle'⟩ := hviews.exists_fit hord hbelongs (by
          rw [hds]
          exact mt htree.eq_zero_iff.mpr ht)
        exact ⟨e, he.resolve_right List.not_mem_nil, hle'⟩
    have hcov : Covers m.bins nb (found.1 ++ found.2.leftWalk) := by
      refine ⟨fun e he => hof.entry e (hsub e he), fun e he hs hle' => ?_⟩
      rcases (hfrom e he hs hle').eq_or_lt with heq | hlt
      · have hmem : (e.2, chunksOf m.bins e.2) ∈ T.toList := by
          rw [hof.mem]
          exact ⟨List.ne_nil_of_mem (mem_chunksOf.mpr he), rfl, hs, heq.symm⟩
        have := hviews.exists_found hord hbelongs (.inl hmem) hle'
        rwa [hds] at this
      · obtain ⟨e₀, he₀, hle₀⟩ := hfit
        obtain ⟨e', he', hle₁, hle₂⟩ := hviews.exists_found hord hbelongs (.inl he₀) hle₀
        rw [hds] at he'
        exact ⟨e', he', hle₁, hle₂.trans (hidx.lt_of_index_lt hof he₀ he hs hlt).le⟩
    rw [hcov.foldl_eq hsize hnb]

end Represents

variable {base : Nat} {events : List BinEvent}

/-- Behind every run the searches of `tmalloc_large` and `tmalloc_small` find in the tries what
`leastFit` finds in the list. -/
theorem bins_run_search (hbins : m.bins = []) (hlegal : LegalEvents base m events)
    (hidx : Indexed (events.foldl MState.binStep m)) (hfuel : events.length < fuel) :
    ∃ m' L, Links.run fuel events m (Links.initBins base) = .ok (m', L) ∧
      m' = events.foldl MState.binStep m ∧
      (∀ nb, 2 ^ 8 ≤ nb → nb < 2 ^ 64 → WellIndexed nb →
        L.bestFit m' fuel nb = .ok (fitOf nb m'.bins)) ∧
      ∀ nb < 2 ^ 8, L.treemap ≠ 0 → L.leastChunk m' fuel nb = .ok (fitOf nb m'.bins) := by
  obtain ⟨m', L, hrun, rfl, h⟩ := (initBins_represents (m := m) hbins).run hlegal
    (show m.bins.length + _ ≤ fuel by rw [hbins]; simpa using hfuel.le)
  have hlen : ∀ (events : List BinEvent) (m : MState),
      (events.foldl MState.binStep m).bins.length ≤ m.bins.length + events.length :=
    fun events => by
    induction events with
    | nil => exact fun m => le_rfl
    | cons e events ih =>
      intro m
      have hstep := binStep_length (m := m) (e := e)
      have := ih (m.binStep e)
      rw [List.foldl_cons, List.length_cons]
      omega
  have hle := hlen events m
  rw [hbins, List.length_nil, Nat.zero_add] at hle
  exact ⟨_, L, hrun, rfl, fun nb hle' hlt hw => h.bestFit hidx hle' hlt hw (hle.trans_lt hfuel),
    fun nb hlt hmap => h.leastChunk hidx hmap hlt (hle.trans_lt hfuel)⟩

theorem threeSizes_indexed : Indexed (threeSizesEvents.foldl MState.binStep threeSizes) := by
  intro e he
  have hsizes : ∀ e ∈ (threeSizesEvents.foldl MState.binStep threeSizes).bins, e.2 < 2 ^ 40 := by
    decide
  have hlt := hsizes e he
  exact ⟨hlt.trans (by decide), .inl hlt⟩

theorem bins_run_search_threeSizes :
    ∃ m' L, Links.run 9 threeSizesEvents threeSizes (Links.initBins 0x1000) = .ok (m', L) ∧
      m' = threeSizesEvents.foldl MState.binStep threeSizes ∧
      (∀ nb, 2 ^ 8 ≤ nb → nb < 2 ^ 64 → WellIndexed nb →
        L.bestFit m' 9 nb = .ok (fitOf nb m'.bins)) ∧
      ∀ nb < 2 ^ 8, L.treemap ≠ 0 → L.leastChunk m' 9 nb = .ok (fitOf nb m'.bins) :=
  bins_run_search rfl threeSizesEvents_legal threeSizes_indexed (by decide)

end PrecisionGc.Dlmalloc
