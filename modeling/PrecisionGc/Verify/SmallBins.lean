import PrecisionGc.Verify.BinUnlink

/-!
# Small bins

A small bin is a ring from its head on. When it becomes empty only its mark is cleared: the head
keeps its links until a chunk is inserted again.
-/

namespace PrecisionGc.Dlmalloc
open Ring

variable {L L' : Links} {m : MState} {i j p s : Nat} {l l₁ l₂ : List Nat}

/-- The chunks of the small bin `i`, the newest first. -/
structure SmallBin (L : Links) (i : Nat) (l : List Nat) : Prop where
  marked : L.smallmap.testBit i = true ↔ l ≠ []
  ring : l ≠ [] → Path L.fd L.bk (L.smallbinAt i) l (L.smallbinAt i)
  nodup : (l ++ [L.smallbinAt i]).Nodup
  lt : L.smallmap < 2 ^ 32

/-- Of the links only those of the nodes `xs` and the mark of the small bin `i` have changed. -/
structure TouchesSmall (L L' : Links) (i : Nat) (xs : List Nat) : Prop where
  same : ∀ y, y ∉ xs → SameLinks L L' y
  treebins : L'.treebins = L.treebins
  treemap : L'.treemap = L.treemap
  smallmap : ∀ j, j ≠ i → L'.smallmap.testBit j = L.smallmap.testBit j
  base : L'.base = L.base
  lt : L'.smallmap < 2 ^ 32

theorem smallbinAt_ne (h : j ≠ i) : L.smallbinAt j ≠ L.smallbinAt i := by
  unfold Links.smallbinAt
  omega

namespace SmallBin

theorem fd_head (h : SmallBin L i (p :: l)) : L.fd (L.smallbinAt i) = p :=
  (h.ring (List.cons_ne_nil _ _)).1

/-- A bin is kept by an edit of other nodes. -/
theorem congr (h : SmallBin L i l) (hsame : ∀ y ∈ l ++ [L.smallbinAt i], SameLinks L L' y)
    (hbase : L'.base = L.base) (hmap : L'.smallmap.testBit i = L.smallmap.testBit i)
    (hlt : L'.smallmap < 2 ^ 32) : SmallBin L' i l := by
  have hhead : L'.smallbinAt i = L.smallbinAt i := by rw [Links.smallbinAt, hbase]; rfl
  refine ⟨by rw [hmap]; exact h.marked, fun hl => ?_, by rw [hhead]; exact h.nodup, hlt⟩
  rw [hhead]
  exact (h.ring hl).congr (fun y hy => (hsame y (by simpa [or_comm] using hy)).fd)
    fun y hy => (hsame y hy).bk

/-- `insert_small_chunk` puts the chunk in front. -/
theorem insert (h : SmallBin L i l) (hi : smallIndex s = i) (hi' : i < 32)
    (hp : p ∉ l ++ [L.smallbinAt i]) (haddr : ∀ y ∈ l, m.okAddress y = true) :
    ∃ L', L.insertSmallChunk m p s = .ok L' ∧ SmallBin L' i (p :: l) ∧
      TouchesSmall L L' i (p :: (l ++ [L.smallbinAt i])) := by
  have hpb : p ≠ L.smallbinAt i := fun heq => hp (by simp [heq])
  have hpl : p ∉ l := fun hmem => hp (by simp [hmem])
  have hnodup : (p :: l ++ [L.smallbinAt i]).Nodup := List.nodup_cons.mpr ⟨hp, h.nodup⟩
  unfold Links.insertSmallChunk
  dsimp only
  rw [hi, Links.smallmapIsMarked, marked_eq hi']
  cases l with
  | nil =>
    have hfree : L.smallmap.testBit i = false := by
      rw [Bool.eq_false_iff]
      exact fun hbit => h.marked.mp hbit rfl
    rw [hfree]
    have hbit : ∀ j, (L.markSmallmap i).smallmap.testBit j =
        (L.smallmap.testBit j || decide (i = j)) := fun j => testBit_mark hi'
    refine ⟨_, rfl, ⟨iff_of_true ((hbit i).trans (by simp)) (by simp), fun _ => ?_, hnodup,
      mark_lt h.lt hi'⟩, fun y hy => ?_, rfl, rfl, fun j hj => (hbit j).trans (by simp [hj.symm]),
      rfl, mark_lt h.lt hi'⟩
    · change Path _ _ (L.smallbinAt i) [p] (L.smallbinAt i)
      simp [Links.setFd, Links.setBk, hpb.symm]
    · simp only [List.nil_append, List.mem_cons, List.not_mem_nil, or_false, not_or] at hy
      have hs : SameLinks L (L.markSmallmap i) y := ⟨rfl, rfl, rfl, rfl, rfl⟩
      exact (((hs.trans (.setFd hy.2)).trans (.setBk hy.2)).trans (.setFd hy.1)).trans (.setBk hy.1)
  | cons q l =>
    have hbit := h.marked.mpr (List.cons_ne_nil q l)
    have hring := h.ring (List.cons_ne_nil q l)
    have hq : L.fd (L.smallbinAt i) = q := hring.1
    rw [hbit, hq, haddr q List.mem_cons_self]
    have hbl : L.smallbinAt i ∉ q :: l := fun hmem =>
      List.disjoint_of_nodup_append h.nodup hmem List.mem_cons_self
    have hqp : q ≠ p := fun heq => hpl (heq ▸ List.mem_cons_self)
    refine ⟨_, rfl, ⟨iff_of_true hbit (by simp), fun _ => ?_, hnodup, h.lt⟩, fun y hy => ?_, rfl,
      rfl, fun _ _ => rfl, rfl, h.lt⟩
    · refine hring.push h.nodup ?_ ?_ ?_ ?_ (fun y hy => ?_) fun y hy hyq => ?_
      · simp [Links.setFd, Links.setBk, hpb.symm]
      · simp [Links.setFd, Links.setBk, hq]
      · simp [Links.setBk]
      · simp [Links.setBk, Links.setFd, hq, hqp]
      · have hyp : y ≠ p := fun heq => hpl (heq ▸ hy)
        have hyb : y ≠ L.smallbinAt i := fun heq => hbl (heq ▸ hy)
        simp [Links.setFd, Links.setBk, hyp, hyb]
      · have hyp : y ≠ p := fun heq => hp (heq ▸ hy)
        rw [hq] at hyq
        simp [Links.setFd, Links.setBk, hyp, hyq]
    · simp only [List.mem_cons, List.mem_append, List.not_mem_nil, or_false, not_or] at hy
      obtain ⟨hyp, ⟨hyq, -⟩, hyb⟩ := hy
      exact (((SameLinks.setFd hyb).trans (.setBk hyq)).trans (.setFd hyp)).trans (.setBk hyp)

/-- The bin without one of its chunks. -/
theorem remove (h : SmallBin L i l) (hp : p ∈ l) (hne : l.erase p ≠ []) :
    SmallBin (unring L p) i (l.erase p) := by
  obtain ⟨l₁, l₂, rfl⟩ := List.append_of_mem hp
  have hring := h.ring (List.ne_nil_of_mem hp)
  have hp₁ : p ∉ l₁ := fun hmem =>
    List.disjoint_of_nodup_append h.nodup.of_append_left hmem List.mem_cons_self
  have herase : (l₁ ++ p :: l₂).erase p = l₁ ++ l₂ := by
    rw [List.erase_append_right _ hp₁]
    simp
  have hnodup : (l₁ ++ l₂ ++ [L.smallbinAt i]).Nodup := by
    have := h.nodup
    rw [List.append_assoc, List.cons_append] at this
    rw [List.append_assoc]
    exact (List.nodup_middle.mp this).of_cons
  rw [herase] at hne ⊢
  refine ⟨iff_of_true (h.marked.mpr (List.ne_nil_of_mem hp)) hne, fun _ => ?_, hnodup, h.lt⟩
  refine hring.remove ?_ hnodup ?_ ?_ (fun y _ hy => ?_) fun y _ hy => ?_
  · exact (List.perm_append_singleton _ _).nodup_iff.mp hnodup
  · simp [unring, Links.setFd]
  · simp [unring, Links.setFd, Links.setBk]
  · simp [unring, Links.setFd, Links.setBk, hy]
  · simp [unring, Links.setFd, Links.setBk, hy]

/-- The last chunk leaves only its mark to be cleared. -/
theorem clear (h : SmallBin L i l) (hi : i < 32) : SmallBin (L.clearSmallmap i) i [] where
  marked := by
    rw [Links.clearSmallmap, testBit_clear h.lt hi]
    simp
  ring hl := absurd rfl hl
  nodup := by simp
  lt := clear_lt h.lt

theorem touches_clear (h : SmallBin L i l) (hi : i < 32) (xs : List Nat) :
    TouchesSmall L (L.clearSmallmap i) i xs where
  same _ _ := ⟨rfl, rfl, rfl, rfl, rfl⟩
  treebins := rfl
  treemap := rfl
  smallmap j hj := by
    rw [Links.clearSmallmap, testBit_clear h.lt hi]
    simp [hj.symm]
  base := rfl
  lt := clear_lt h.lt

theorem fd_mem (h : SmallBin L i l) (hp : p ∈ l) : L.fd p ∈ l ++ [L.smallbinAt i] :=
  (h.ring (List.ne_nil_of_mem hp)).next_mem (List.mem_cons_of_mem _ hp)

theorem bk_mem (h : SmallBin L i l) (hp : p ∈ l) : L.bk p ∈ L.smallbinAt i :: l :=
  (h.ring (List.ne_nil_of_mem hp)).prev_mem (List.mem_append_left _ hp)

theorem bk_fd (h : SmallBin L i l) (hp : p ∈ l) : L.bk (L.fd p) = p :=
  (h.ring (List.ne_nil_of_mem hp)).prev_next (List.mem_cons_of_mem _ hp)

theorem fd_bk (h : SmallBin L i l) (hp : p ∈ l) : L.fd (L.bk p) = p :=
  (h.ring (List.ne_nil_of_mem hp)).next_prev (List.mem_append_left _ hp)

theorem touches_unring (h : SmallBin L i l) (hp : p ∈ l) :
    TouchesSmall L (unring L p) i (l ++ [L.smallbinAt i]) := by
  have ht := Dlmalloc.touches_unring (c := l ++ [L.smallbinAt i]) (h.fd_mem hp)
    (by simpa [or_comm] using h.bk_mem hp)
  exact ⟨ht.same, ht.treebins, ht.treemap, fun _ _ => rfl, ht.base, h.lt⟩

/-- The neighbours of a chunk are the same only if it is alone. -/
theorem bk_eq_fd_iff (h : SmallBin L i l) (hp : p ∈ l) : L.bk p = L.fd p ↔ l.erase p = [] := by
  obtain ⟨l₁, l₂, rfl⟩ := List.append_of_mem hp
  have hring := path_append.mp (h.ring (List.ne_nil_of_mem hp))
  have hnd := h.nodup
  rw [List.append_assoc, List.cons_append, List.nodup_middle] at hnd
  have hp₁ : p ∉ l₁ := fun hmem => (List.nodup_cons.mp hnd).1 (by simp [hmem])
  have herase : (l₁ ++ p :: l₂).erase p = l₁ ++ l₂ := by
    rw [List.erase_append_right _ hp₁]
    simp
  have hbk := hring.1.prev_eq
  have hfd := hring.2.next_eq
  have hnd' := hnd.of_cons
  rw [List.nodup_append] at hnd'
  rw [herase, List.append_eq_nil_iff]
  constructor
  · intro heq
    rw [hbk, hfd] at heq
    -- a chunk on one side is none of the other, and not the head
    cases l₂ with
    | nil =>
      refine ⟨?_, rfl⟩
      by_contra hne
      obtain ⟨l, q, rfl⟩ := (List.eq_nil_or_concat' l₁).resolve_left hne
      simp only [List.getLast?_append, List.getLast?_singleton, Option.some_or, Option.getD_some,
        List.head?_nil, Option.getD_none] at heq
      exact hnd'.2.2 q (by simp) (L.smallbinAt i) (by simp) heq
    | cons q l₂ =>
      simp only [List.head?_cons, Option.getD_some] at heq
      rcases List.eq_nil_or_concat' l₁ with rfl | ⟨l, q', rfl⟩
      · simp only [List.getLast?_nil, Option.getD_none] at heq
        have := (List.nodup_cons.mp hnd'.2.1).1
        simp [heq] at this
      · simp only [List.getLast?_append, List.getLast?_singleton, Option.some_or,
          Option.getD_some] at heq
        exact absurd heq (hnd'.2.2 q' (by simp) q (by simp))
  · rintro ⟨rfl, rfl⟩
    rw [hbk, hfd]
    rfl

/-- `unlink_small_chunk` -/
theorem unlink (h : SmallBin L i l) (hi : smallIndex s = i) (hi' : i < 32) (hp : p ∈ l)
    (haddr : ∀ y ∈ l, m.okAddress y = true) :
    ∃ L', L.unlinkSmallChunk m p s = .ok L' ∧ SmallBin L' i (l.erase p) ∧
      TouchesSmall L L' i (l ++ [L.smallbinAt i]) := by
  unfold Links.unlinkSmallChunk
  dsimp only
  have hfd : (decide (L.fd p = L.smallbinAt (smallIndex s)) ||
      m.okAddress (L.fd p) && L.bk (L.fd p) == p) = true := by
    rw [h.bk_fd hp, hi]
    rcases List.mem_append.mp (h.fd_mem hp) with hmem | hmem
    · simp [haddr _ hmem]
    · simp [List.mem_singleton.mp hmem]
  rw [if_pos hfd]
  by_cases hl : l.erase p = []
  · rw [if_pos ((h.bk_eq_fd_iff hp).mpr hl), hl, hi]
    exact ⟨_, rfl, h.clear hi', h.touches_clear hi' _⟩
  · have hbk : (decide (L.bk p = L.smallbinAt (smallIndex s)) ||
        m.okAddress (L.bk p) && L.fd (L.bk p) == p) = true := by
      rw [h.fd_bk hp, hi]
      rcases List.mem_cons.mp (h.bk_mem hp) with heq | hmem
      · simp [heq]
      · simp [haddr _ hmem]
    rw [if_neg (mt (h.bk_eq_fd_iff hp).mp hl), if_pos hbk]
    exact ⟨_, rfl, h.remove hp hl, h.touches_unring hp⟩

/-- `unlink_first_small_chunk` -/
theorem unlinkFirst (h : SmallBin L i (p :: l)) (hi : i < 32)
    (haddr : ∀ y ∈ p :: l, m.okAddress y = true) :
    ∃ L', L.unlinkFirstSmallChunk m (L.smallbinAt i) p i = .ok L' ∧ SmallBin L' i l ∧
      TouchesSmall L L' i (p :: l ++ [L.smallbinAt i]) := by
  have hring := h.ring (List.cons_ne_nil p l)
  have hp : p ∈ p :: l := List.mem_cons_self
  have hbk : L.bk p = L.smallbinAt i := hring.2.1
  have herase : (p :: l).erase p = l := List.erase_cons_head p l
  have hiff := h.bk_eq_fd_iff hp
  rw [hbk, herase] at hiff
  unfold Links.unlinkFirstSmallChunk
  dsimp only
  by_cases hl : l = []
  · rw [if_pos (hiff.mpr hl), hl]
    exact ⟨_, rfl, h.clear hi, h.touches_clear hi _⟩
  · have hmem : L.fd p ∈ p :: l := by
      rcases List.mem_append.mp (h.fd_mem hp) with hmem | hmem
      · exact hmem
      · exact absurd (hiff.mp (List.mem_singleton.mp hmem).symm) hl
    rw [if_neg (mt hiff.mp hl), haddr _ hmem, h.bk_fd hp, beq_self_eq_true, Bool.and_self,
      if_pos rfl]
    have hun : (L.setBk (L.fd p) (L.smallbinAt i)).setFd (L.smallbinAt i) (L.fd p) =
        unring L p := by rw [unring, hbk]
    refine ⟨_, rfl, ?_, ?_⟩
    · rw [hun]
      have := h.remove hp (by rwa [herase])
      rwa [herase] at this
    · rw [hun]
      exact h.touches_unring hp

end SmallBin

end PrecisionGc.Dlmalloc
