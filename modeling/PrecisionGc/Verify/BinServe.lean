import PrecisionGc.Verify.BinSearch
import PrecisionGc.Verify.Requests

/-!
# What the bins serve

The first part of `dlmalloc` as it works on the rings and tries gives the block that the search of
the list gives, and leaves links that stand for the list behind it.
-/

namespace PrecisionGc.Dlmalloc
open BoundaryTags

variable {L L' : Links} {m m' : MState} {i p s nb bytes fuel : Nat} {U X : List (Nat × Nat)}
  {c : Nat × Nat}

/-- `_gm_` lies outside of the segments. -/
def OutsideSegs (base : Nat) (m : MState) : Prop :=
  ∀ seg ∈ m.segs, base + 1024 ≤ seg.base ∨ seg.base + seg.size ≤ base

/-! ## The chunks of a tiled heap -/

theorem Blocks.nodup_free (h : Blocks m U X) :
    ((X ++ (m.dvChunk ++ m.bins)).map Prod.fst).Nodup := by
  obtain ⟨S, hS, -⟩ := h
  refine (hS.bins.map Prod.fst).nodup_iff.mp ?_
  have hsub : ((chunks S).filter fun c => c.kind = .free).Sublist (chunks S) := List.filter_sublist
  simpa [ofKind, entry, Function.comp_def] using (hsub.map Chunk.addr).nodup hS.nodup

/-- A free chunk is tagged with its size and lies in a segment. -/
theorem Blocks.free_spec (h : Blocks m U X) (hc : c ∈ X ++ (m.dvChunk ++ m.bins)) :
    m.chunksize c.1 = c.2 ∧ m.leastAddr ≤ c.1 ∧ 0 < c.1 ∧ c.1 + c.2 + 32 < 2 ^ 56 ∧ 32 ≤ c.2 ∧
      ∃ seg ∈ m.segs, seg.base ≤ c.1 ∧ c.1 < seg.base + seg.size := by
  obtain ⟨S, hS, -⟩ := h
  obtain ⟨x, rfl⟩ := exists_hole (mem_ofKind (e := c).mp (hS.bins.mem_iff.mpr hc))
  have hmem : (⟨c.1, c.2, .free⟩ : HeapChunk) ∈ chunks (x.fill [⟨c.1, c.2, .free⟩]) :=
    mem_fill_chunk
  obtain ⟨hpos, hle, -, -, hmin, hbound⟩ := hS.chunk_spec hmem
  obtain ⟨span, hspan, hbody⟩ := List.mem_flatMap.mp hmem
  obtain ⟨hbase, hstop, hend⟩ := hS.chunk_bounds hspan hbody
  refine ⟨hS.tagged.chunksize, hle, hpos, hbound, hmin, span.seg,
    hS.segs ▸ List.mem_map_of_mem hspan, hbase, ?_⟩
  dsimp only at hstop
  omega

theorem Blocks.apart_heads (h : Blocks m U X) (hout : OutsideSegs L.base m)
    (hc : c ∈ X ++ (m.dvChunk ++ m.bins)) (hi : i < 32) : c.1 ≠ L.smallbinAt i := by
  obtain ⟨-, -, -, -, -, seg, hseg, hle, hlt⟩ := h.free_spec hc
  unfold Links.smallbinAt
  rcases hout seg hseg with hbefore | hafter <;> omega

theorem mem_free_of_binned (hc : c ∈ m.bins) : c ∈ X ++ (m.dvChunk ++ m.bins) := by simp [hc]

/-- The links stand for the same list behind other tags. -/
theorem Represents.of_blocks (h : Represents m L) (hb : Blocks m' U X) (hbins : m'.bins = m.bins)
    (hleast : m'.leastAddr = m.leastAddr) : Represents m' L :=
  h.congr hbins hleast fun e he =>
    (hb.free_spec (mem_free_of_binned (by rw [hbins]; exact he))).1.trans (h.size e he).symm

theorem Blocks.indexed (h : Blocks m U X) (hw : ∀ e ∈ m.bins, WellIndexed e.2) : Indexed m :=
  fun e he => by
    obtain ⟨-, -, -, hbound, -⟩ := h.free_spec (mem_free_of_binned he)
    exact ⟨by omega, hw e he⟩

/-! ## Small bins -/

theorem smallbin_eq_none : m.smallbin i = none ↔ binOf m.bins i = [] := by
  rw [MState.smallbin, List.find?_eq_none, List.eq_nil_iff_forall_not_mem]
  constructor
  · intro h p hp
    obtain ⟨s, hs, hi⟩ := mem_binOf.mp hp
    exact h _ hs (by simp [hi])
  · intro h e he heq
    exact h e.1 (mem_binOf.mpr ⟨e.2, he, by simpa using heq⟩)

theorem smallbin_eq_some (h : m.smallbin i = some c) :
    ∃ l, binOf m.bins i = c.1 :: l ∧ c ∈ m.bins ∧ smallIndex c.2 = i := by
  obtain ⟨hi, l₁, l₂, heq, hnot⟩ := List.find?_eq_some_iff_append.mp h
  have hnil : binOf l₁ i = [] := by
    refine List.eq_nil_iff_forall_not_mem.mpr fun p hp => ?_
    obtain ⟨s, hs, hsi⟩ := mem_binOf.mp hp
    simpa [hsi] using hnot _ hs
  refine ⟨binOf l₂ i, ?_, by simp [heq], by simpa using hi⟩
  have hsplit : binOf m.bins i = binOf l₁ i ++ binOf (c :: l₂) i := by
    rw [heq, binOf, sizedBy, List.filter_append, List.map_append]
    rfl
  rcases c with ⟨p, s⟩
  rw [hsplit, hnil, List.nil_append, binOf, sizedBy_cons, if_pos hi]
  rfl

theorem Represents.smallbin_isSome (h : Represents m L) (hi : i < 32) :
    (m.smallbin i).isSome = L.smallmap.testBit i := by
  rw [Bool.eq_iff_iff, (h.small i hi).marked, Option.isSome_iff_ne_none, ne_eq, smallbin_eq_none]

theorem Represents.smallmap_lt (h : Represents m L) : L.smallmap < 2 ^ 32 :=
  (h.small 0 (by decide)).lt

/-- The first chunk of a small bin is unlinked. -/
theorem Represents.unlinkFirst (h : Represents m L) (hi : i < 32) (hc : m.smallbin i = some c) :
    L.fd (L.smallbinAt i) = c.1 ∧ ∃ L', L.unlinkFirstSmallChunk m (L.smallbinAt i) c.1 i = .ok L' ∧
      Represents (m.unlinkChunk c.1 c.2) L' ∧ L'.base = L.base := by
  obtain ⟨l, hl, hmem, rfl⟩ := smallbin_eq_some hc
  have hbin := h.small _ hi
  rw [hl] at hbin
  have haddr : ∀ y ∈ c.1 :: l, m.okAddress y = true := fun y hy =>
    h.mem_small_okAddress y (hl ▸ hy)
  obtain ⟨L', hgo, hbin', ht⟩ := hbin.unlinkFirst hi haddr
  refine ⟨hbin.fd_head, L', hgo, h.unlink_small hmem hi ?_ (by rw [hl]; exact ht), ht.base⟩
  rw [hl, List.erase_cons_head]
  exact hbin'

/-! ## What is left of a chunk -/

/-- The links depend on the tags, not on the list. -/
theorem linkLargeChunk_congr {x t k : Nat} (hleast : m'.leastAddr = m.leastAddr)
    (hmem : m'.mem = m.mem) :
    Links.linkLargeChunk m' x s fuel t k L = Links.linkLargeChunk m x s fuel t k L := by
  have hsize : m'.chunksize = m.chunksize := by
    funext p
    rw [MState.chunksize, MState.head, hmem]
    rfl
  have hok : m'.okAddress = m.okAddress := by
    funext a
    rw [MState.okAddress, hleast]
    rfl
  induction fuel generalizing t k with
  | zero => rfl
  | succ fuel ih =>
    unfold Links.linkLargeChunk
    rw [hsize, hok]
    simp only [ih]

theorem insertSmallChunk_congr (hleast : m'.leastAddr = m.leastAddr) :
    L.insertSmallChunk m' p s = L.insertSmallChunk m p s := by
  unfold Links.insertSmallChunk MState.okAddress
  rw [hleast]

theorem insertChunk_congr (hleast : m'.leastAddr = m.leastAddr) (hmem : m'.mem = m.mem) :
    L.insertChunk m' fuel p s = L.insertChunk m fuel p s := by
  unfold Links.insertChunk Links.insertLargeChunk
  rw [insertSmallChunk_congr hleast]
  simp only [linkLargeChunk_congr hleast hmem]

/-- A free chunk that has no place yet is fresh to the bins. -/
theorem Blocks.fresh (h : Blocks m U ((p, s) :: X)) (hout : OutsideSegs L.base m) :
    Represents.Fresh m L p := by
  have hnodup := h.nodup_free
  rw [List.cons_append, List.map_cons, List.nodup_cons] at hnodup
  refine ⟨fun hmem => hnodup.1 ?_, fun i hi => h.apart_heads (c := (p, s)) hout (by simp) hi⟩
  rw [List.map_append, List.map_append]
  exact List.mem_append_right _ (List.mem_append_right _ hmem)

theorem Represents.insertLoose (h : Represents m L) (hb : Blocks m U ((p, s) :: X))
    (hout : OutsideSegs L.base m) (hfuel : m.bins.length ≤ fuel) :
    ∃ L', L.insertChunk m fuel p s = .ok L' ∧ Represents (m.insertChunk p s) L' ∧
      L'.base = L.base := by
  obtain ⟨hsize, hle, hpos, hbound, -⟩ := hb.free_spec (c := (p, s)) (by simp)
  exact h.insertChunk (hb.fresh hout) hsize ⟨hle, by omega, hpos.ne'⟩ hfuel

/-- `replace_dv`, where the old `dv` is small -/
theorem Represents.replaceDv (h : Represents m L) (hb : Blocks m U [(p, s)])
    (hout : OutsideSegs L.base m) (hdv : isSmall m.dvsize = true) :
    ∃ L', (if m.dvsize != 0 then L.insertSmallChunk m m.dv m.dvsize else pure L) = .ok L' ∧
      Represents (m.replaceDv p s) L' ∧ L'.base = L.base := by
  unfold MState.replaceDv
  by_cases hzero : m.dvsize = 0
  · rw [if_neg (by simp [hzero]), if_neg (by simp [hzero])]
    exact ⟨L, rfl, h.congr rfl rfl fun _ _ => rfl, rfl⟩
  · rw [if_pos (by simpa using hzero), if_pos (by simpa using hzero)]
    have hmem : (m.dv, m.dvsize) ∈ [(p, s)] ++ (m.dvChunk ++ m.bins) := by
      simp [MState.dvChunk, hzero]
    obtain ⟨hsize, hle, hpos, hbound, -⟩ := hb.free_spec hmem
    have hfresh : Represents.Fresh m L m.dv := by
      have hnodup := hb.nodup_free
      rw [MState.dvChunk, if_neg hzero, List.map_append, List.map_append] at hnodup
      have hrest := hnodup.of_append_right
      rw [List.map_cons, List.map_nil, List.singleton_append, List.nodup_cons] at hrest
      exact ⟨hrest.1, fun i hi => hb.apart_heads hout hmem hi⟩
    obtain ⟨L', hgo, hrep, hbase⟩ := h.insertChunk hfresh hsize
      ⟨hle, by omega, hpos.ne'⟩ (le_refl m.bins.length)
    rw [Links.insertChunk, if_pos hdv] at hgo
    exact ⟨L', hgo, hrep.congr rfl rfl fun _ _ => rfl, hbase⟩

section Cut

variable (hb : Blocks m U []) (hc : (p, s) ∈ m.bins) (h : Represents (m.unlinkChunk p s) L)
include hb hc h

/-- The chunk is used whole. -/
theorem Represents.whole (hle : nb ≤ s) (hlt : s < nb + minChunkSize) :
    Represents ((m.unlinkChunk p s).setInuseAndPinuse p s) L := by
  obtain ⟨q, t, -, -, -, hb', -⟩ := (hb.binned hc).whole hle hlt
  exact h.of_blocks hb' rfl rfl

/-- The chunk is split. -/
theorem Represents.split (hnb : ChunkSize nb) (hle : nb + minChunkSize ≤ s) :
    Blocks (((m.unlinkChunk p s).setInuseChunk p nb).setFreeChunk (addSize p nb) (subSize s nb))
        ((p, nb) :: U) [(addSize p nb, subSize s nb)] ∧
      Represents (((m.unlinkChunk p s).setInuseChunk p nb).setFreeChunk (addSize p nb)
        (subSize s nb)) L := by
  have hloose := hb.binned hc
  have hbound := hloose.bound
  rw [subSize_eq (by omega) (by simp only [minChunkSize] at hle; omega),
    addSize_eq (by simp only [minChunkSize] at hle; omega)]
  obtain ⟨hb', -⟩ := hloose.split hnb hle
  exact ⟨hb', h.of_blocks hb' rfl rfl⟩

end Cut

/-! ## The paths -/

/-- The links give what the list gives, and stand for the list behind it. -/
def BinServes (m : MState) (base : Nat) (r : Option (Nat × MState))
    (res : Except Fault (Option Links.Serving)) : Prop :=
  match r with
  | none => res = .ok none
  | some (mem, m') => ∃ L', res = .ok (some (mem, { m' with bins := m.bins }, L')) ∧
      Represents m' L' ∧ L'.base = base

/-- `replace_dv`, whatever the list is -/
theorem Represents.replaceDv_ok {B : List (Nat × Nat)} (h : Represents m L)
    (hb : Blocks m U [(p, s)]) (hout : OutsideSegs L.base m) (hdv : isSmall m.dvsize = true) :
    ∃ L', L.replaceDv { m with bins := B } p s = .ok ({ m.replaceDv p s with bins := B }, L') ∧
      Represents (m.replaceDv p s) L' ∧ L'.base = L.base := by
  obtain ⟨L', hgo, hrep⟩ := h.replaceDv hb hout hdv
  refine ⟨L', ?_, hrep⟩
  have hcongr : L.insertSmallChunk { m with bins := B } m.dv m.dvsize =
      L.insertSmallChunk m m.dv m.dvsize := insertSmallChunk_congr rfl
  unfold Links.replaceDv MState.replaceDv
  dsimp only
  rw [hcongr]
  split at hgo
  case isTrue hpos =>
    rw [if_pos hpos, if_pos hpos, hgo]
    rfl
  case isFalse hzero =>
    rw [if_neg hzero, if_neg hzero, hgo]
    rfl

section Cut

variable (hb : Blocks m U []) (hc : (p, s) ∈ m.bins) (h : Represents (m.unlinkChunk p s) L)
  (hout : OutsideSegs L.base m) (hnb : ChunkSize nb) (hle : nb ≤ s)
include hb hc h hout hnb hle

/-- A chunk is unlinked and used whole, or split with the rest as `dv`. -/
theorem serves_splitDv (hdv : isSmall m.dvsize = true) :
    BinServes m L.base
      (if subSize s nb < minChunkSize then
        some (chunk2mem p, (m.unlinkChunk p s).setInuseAndPinuse p s)
      else some (chunk2mem p, (((m.unlinkChunk p s).setInuseChunk p nb).setFreeChunk (addSize p nb)
        (subSize s nb)).replaceDv (addSize p nb) (subSize s nb)))
      (if subSize s nb < minChunkSize then .ok (some (chunk2mem p, m.setInuseAndPinuse p s, L))
      else L.replaceDv ((m.setInuseChunk p nb).setFreeChunk (addSize p nb) (subSize s nb))
        (addSize p nb) (subSize s nb) >>= fun x => .ok (some (chunk2mem p, x.1, x.2))) := by
  have hbound := (hb.binned hc).bound
  have hsub : subSize s nb = s - nb := subSize_eq (by omega) hle
  by_cases hlt : subSize s nb < minChunkSize
  · rw [if_pos hlt, if_pos hlt]
    exact ⟨L, rfl, h.whole hb hc hle (by omega), rfl⟩
  · rw [if_neg hlt, if_neg hlt]
    obtain ⟨hb', h'⟩ := h.split hb hc hnb (by omega)
    obtain ⟨L', hgo, hrep⟩ := h'.replaceDv_ok (B := m.bins) hb' hout hdv
    refine ⟨L', ?_, hrep⟩
    change (L.replaceDv { ((m.unlinkChunk p s).setInuseChunk p nb).setFreeChunk (addSize p nb)
      (subSize s nb) with bins := m.bins } _ _ >>= _) = _
    rw [hgo]
    rfl

/-- A chunk is unlinked and used whole, or split with the rest in a bin. -/
theorem serves_splitBin (hfuel : m.bins.length ≤ fuel) :
    BinServes m L.base
      (if subSize s nb < minChunkSize then
        some (chunk2mem p, (m.unlinkChunk p s).setInuseAndPinuse p s)
      else some (chunk2mem p, (((m.unlinkChunk p s).setInuseChunk p nb).setFreeChunk (addSize p nb)
        (subSize s nb)).insertChunk (addSize p nb) (subSize s nb)))
      (if subSize s nb < minChunkSize then .ok (some (chunk2mem p, m.setInuseAndPinuse p s, L))
      else L.insertChunk ((m.setInuseChunk p nb).setFreeChunk (addSize p nb) (subSize s nb)) fuel
        (addSize p nb) (subSize s nb) >>= fun L => .ok (some (chunk2mem p,
          (m.setInuseChunk p nb).setFreeChunk (addSize p nb) (subSize s nb), L))) := by
  have hbound := (hb.binned hc).bound
  have hsub : subSize s nb = s - nb := subSize_eq (by omega) hle
  by_cases hlt : subSize s nb < minChunkSize
  · rw [if_pos hlt, if_pos hlt]
    exact ⟨L, rfl, h.whole hb hc hle (by omega), rfl⟩
  · rw [if_neg hlt, if_neg hlt]
    obtain ⟨hb', h'⟩ := h.split hb hc hnb (by omega)
    have hlen : (m.bins.erase (p, s)).length ≤ fuel := List.length_erase_le.trans hfuel
    obtain ⟨L', hgo, hrep⟩ := h'.insertLoose hb' hout hlen
    refine ⟨L', ?_, hrep⟩
    have hcongr : L.insertChunk ((m.setInuseChunk p nb).setFreeChunk (addSize p nb) (subSize s nb))
        fuel (addSize p nb) (subSize s nb) =
      L.insertChunk (((m.unlinkChunk p s).setInuseChunk p nb).setFreeChunk (addSize p nb)
        (subSize s nb)) fuel (addSize p nb) (subSize s nb) := insertChunk_congr rfl rfl
    rw [hcongr, hgo]
    rfl

end Cut

/-! ## Small requests -/

theorem smallIndex_lt (hnb : ChunkSize nb) (hsmall : nb < 2 ^ 8) : smallIndex nb + 1 < 32 := by
  have hmod := hnb.mod
  unfold smallIndex
  omega

section Small

variable (hb : Blocks m U []) (h : Represents m L) (hout : OutsideSegs L.base m)
  (hnb : ChunkSize nb) (hsmall : nb < 2 ^ 8)
include h

/-- The two bits of `smallbits & 3` -/
theorem Represents.smallbits (hi : i + 1 < 32) :
    (L.smallmap / 2 ^ i % 2 = 0 ↔ (m.smallbin i).isSome = false) ∧
      (L.smallmap / 2 ^ i &&& 3 = 0 ↔
        (m.smallbin i).isSome = false ∧ (m.smallbin (i + 1)).isSome = false) := by
  have h0 := h.smallbin_isSome (i := i) (by omega)
  have h1 := h.smallbin_isSome hi
  rw [Nat.testBit_eq_decide_div_mod_eq] at h0 h1
  rw [pow_succ, ← Nat.div_div_eq_div_mul] at h1
  rw [h0, h1, show (3 : Nat) = 2 ^ 2 - 1 by rfl, Nat.and_two_pow_sub_one_eq_mod]
  generalize L.smallmap / 2 ^ i = x
  simp only [decide_eq_false_iff_not]
  omega

include hb

/-- The first chunk of a bin fits exactly. -/
theorem serves_first (hi : i < 32) (hc : m.smallbin i = some c) (hle : nb ≤ c.2)
    (hlt : c.2 < nb + minChunkSize) :
    BinServes m L.base
      (some (chunk2mem c.1, (m.unlinkChunk c.1 c.2).setInuseAndPinuse c.1 (smallIndex2size i)))
      (L.unlinkFirstSmallChunk m (L.smallbinAt i) (L.fd (L.smallbinAt i)) i >>= fun L' =>
        .ok (some (chunk2mem (L.fd (L.smallbinAt i)),
          m.setInuseAndPinuse (L.fd (L.smallbinAt i)) (smallIndex2size i), L'))) := by
  obtain ⟨hfd, L', hgo, hrep, hbase⟩ := h.unlinkFirst hi hc
  obtain ⟨-, hsize, -⟩ := hb.smallbin hc
  rw [hfd, hgo, hsize]
  exact ⟨L', rfl, hrep.whole hb (smallbin_mem hc) hle hlt, hbase⟩

include hout hnb

/-- The first chunk of a bin is split. -/
theorem serves_firstSplit (hi : i < 32) (hc : m.smallbin i = some c) (hle : nb ≤ c.2)
    (hdv : isSmall m.dvsize = true) :
    BinServes m L.base
      (if subSize (smallIndex2size i) nb < minChunkSize then
        some (chunk2mem c.1, (m.unlinkChunk c.1 c.2).setInuseAndPinuse c.1 (smallIndex2size i))
      else some (chunk2mem c.1,
        (((m.unlinkChunk c.1 c.2).setInuseChunk c.1 nb).setFreeChunk (addSize c.1 nb)
          (subSize (smallIndex2size i) nb)).replaceDv (addSize c.1 nb)
            (subSize (smallIndex2size i) nb)))
      (L.unlinkFirstSmallChunk m (L.smallbinAt i) (L.fd (L.smallbinAt i)) i >>= fun L =>
        if subSize (smallIndex2size i) nb < minChunkSize then
          .ok (some (chunk2mem c.1, m.setInuseAndPinuse c.1 (smallIndex2size i), L))
        else L.replaceDv ((m.setInuseChunk c.1 nb).setFreeChunk (addSize c.1 nb)
            (subSize (smallIndex2size i) nb)) (addSize c.1 nb) (subSize (smallIndex2size i) nb) >>=
              fun x => .ok (some (chunk2mem c.1, x.1, x.2))) := by
  obtain ⟨hfd, L', hgo, hrep, hbase⟩ := h.unlinkFirst hi hc
  obtain ⟨-, hsize, -⟩ := hb.smallbin hc
  rw [hfd, hgo, hsize, ← hbase]
  exact serves_splitDv hb (smallbin_mem hc) hrep (hbase ▸ hout) hnb hle hdv

end Small

/-! ## Tree chunks -/

theorem Represents.exists_tree (h : Represents m L) (hmap : L.treemap ≠ 0) :
    ∃ e ∈ m.bins, isSmall e.2 = false := by
  obtain ⟨hi, hbit, -⟩ := bit2idx_leastBit hmap h.treemap_lt
  obtain ⟨T, hT, hof⟩ := h.tree _ hi
  have hne : T.toList ≠ [] := mt DigitalTree.Tree.toList_eq_nil.mp (hT.marked.mp hbit)
  obtain ⟨e, he⟩ := List.exists_mem_of_ne_nil _ hne
  obtain ⟨hchunks, heq, hs⟩ := hof.entry e he
  obtain ⟨p, hp⟩ := List.exists_mem_of_ne_nil _ hchunks
  exact ⟨(p, e.1), mem_chunksOf.mp (heq ▸ hp), hs⟩

section Tree

variable (hb : Blocks m U []) (h : Represents m L) (hout : OutsideSegs L.base m)
  (hnb : ChunkSize nb) (hfuel : m.bins.length < fuel) (hw : ∀ e ∈ m.bins, WellIndexed e.2)
include hb h hfuel

/-- The chunk that a search finds is unlinked. -/
theorem found_spec (hv : leastFit nb m.bins = some (p, s)) :
    fitOf nb m.bins = (p, subSize s nb) ∧ p ≠ 0 ∧ m.okAddress p = true ∧
      addSize (subSize s nb) nb = s ∧
      ∃ L', L.unlinkLargeChunk m fuel p = .ok L' ∧ Represents (m.unlinkChunk p s) L' ∧
        L'.base = L.base := by
  obtain ⟨hs, hle, -⟩ := leastFit_spec hv
  have hmem := leastFit_mem hv
  obtain ⟨-, hleast, hpos, hbound, -⟩ := hb.free_spec (mem_free_of_binned hmem)
  dsimp only at hpos hbound hleast
  have hsub : subSize s nb = s - nb := subSize_eq (by omega) hle
  refine ⟨by rw [fitOf, hv, hsub], hpos.ne', decide_eq_true hleast, ?_,
    h.unlinkLargeChunk hmem hs hfuel.le⟩
  rw [hsub, addSize_eq (by omega)]
  omega

include hout hnb hw

theorem tmallocSmall_serves (hsmall : nb < 2 ^ 8) (hmap : L.treemap ≠ 0)
    (hdv : isSmall m.dvsize = true) :
    BinServes m L.base (tmallocSmall m nb) (L.tmallocSmall m fuel nb) := by
  obtain ⟨p, s, hv⟩ : ∃ p s, leastFit nb m.bins = some (p, s) := by
    cases hv : leastFit nb m.bins with
    | some v => exact ⟨v.1, v.2, rfl⟩
    | none =>
      obtain ⟨e, he, hs⟩ := h.exists_tree hmap
      have := leastFit_eq_none_iff.mp hv e he hs
      have := le_of_not_small hs
      omega
  obtain ⟨hfit, -, hok, hsum, L', hgo, hrep, hbase⟩ := found_spec hb h hfuel hv
  obtain ⟨-, -, -, hbound, -⟩ := hb.free_spec (mem_free_of_binned (leastFit_mem hv))
  have hmin := hnb.min
  have hlt : p < addSize p nb := by
    rw [addSize_eq (by omega)]
    simp only [minChunkSize] at hmin
    omega
  have hlinks : L.tmallocSmall m fuel nb =
      if subSize s nb < minChunkSize then .ok (some (chunk2mem p, m.setInuseAndPinuse p s, L'))
      else L'.replaceDv ((m.setInuseChunk p nb).setFreeChunk (addSize p nb) (subSize s nb))
        (addSize p nb) (subSize s nb) >>= fun x => .ok (some (chunk2mem p, x.1, x.2)) := by
    unfold Links.tmallocSmall
    rw [h.leastChunk (hb.indexed hw) hmap hsmall hfuel, hfit]
    change (if (m.okAddress p && decide (p < addSize p nb)) = true then _ else _) = _
    rw [hok, decide_eq_true hlt, Bool.and_self, if_pos rfl, hgo, hsum]
    rfl
  have hlist : tmallocSmall m nb =
      if subSize s nb < minChunkSize then
        some (chunk2mem p, (m.unlinkChunk p s).setInuseAndPinuse p s)
      else some (chunk2mem p, (((m.unlinkChunk p s).setInuseChunk p nb).setFreeChunk (addSize p nb)
        (subSize s nb)).replaceDv (addSize p nb) (subSize s nb)) := by
    rw [tmallocSmall, hv, Option.bind_eq_bind, Option.bind_some]
    dsimp only
    rw [hsum]
  rw [hlinks, hlist, ← hbase]
  exact serves_splitDv hb (leastFit_mem hv) hrep (hbase ▸ hout) hnb (leastFit_le hv) hdv

theorem tmallocLarge_serves (hlarge : 2 ^ 8 ≤ nb) (hlt64 : nb < 2 ^ 64) (hwnb : WellIndexed nb) :
    BinServes m L.base (tmallocLarge m nb) (L.tmallocLarge m fuel nb) := by
  have hsearch := h.bestFit (hb.indexed hw) hlarge hlt64 hwnb hfuel
  unfold Links.tmallocLarge tmallocLarge
  rw [hsearch]
  cases hv : leastFit nb m.bins with
  | none =>
    rw [fitOf, hv]
    rfl
  | some v =>
  obtain ⟨p, s⟩ := v
  obtain ⟨hfit, hp, hok, hsum, L', hgo, hrep, hbase⟩ := found_spec hb h hfuel hv
  obtain ⟨-, -, -, hbound, -⟩ := hb.free_spec (mem_free_of_binned (leastFit_mem hv))
  have hle := leastFit_le hv
  have hlt : p < addSize p nb := by
    dsimp only at hbound hle
    rw [addSize_eq (by omega)]
    omega
  rw [hfit, Option.bind_eq_bind, Option.bind_some]
  dsimp only
  by_cases hdv : subSize s nb < subSize m.dvsize nb
  · rw [if_pos hdv]
    have hserve := serves_splitBin hb (leastFit_mem hv) hrep (hbase ▸ hout) hnb hle hfuel.le
    have hcond : (p != 0 && decide (subSize s nb < subSize m.dvsize nb)) = true := by
      simpa [hp] using hdv
    change BinServes m L.base _
      (if (p != 0 && decide (subSize s nb < subSize m.dvsize nb)) = true then
      (if (m.okAddress p && decide (p < addSize p nb)) = true then _ else _) else _)
    rw [if_pos hcond, hok, decide_eq_true hlt, Bool.and_self, if_pos rfl, hgo, hsum,
      ← hbase]
    exact hserve
  · rw [if_neg hdv]
    have hcond : ¬(p != 0 && decide (subSize s nb < subSize m.dvsize nb)) = true := by
      simpa [hp] using hdv
    change BinServes m L.base _
      (if (p != 0 && decide (subSize s nb < subSize m.dvsize nb)) = true then
      _ else _)
    rw [if_neg hcond]
    rfl

end Tree

/-! ## `dlmalloc` -/

section

variable (hb : Blocks m U []) (h : Represents m L) (hout : OutsideSegs L.base m)
  (hnb : ChunkSize nb) (hfuel : m.bins.length < fuel) (hw : ∀ e ∈ m.bins, WellIndexed e.2)
include h

/-- Without a mark in `treemap` no tree chunk is there. -/
theorem leastFit_eq_none (hmap : L.treemap = 0) : leastFit nb m.bins = none := by
  refine leastFit_eq_none_iff.mpr fun e he hs => ?_
  have hbit := h.marked_of_mem he hs
  rw [hmap, Nat.zero_testBit] at hbit
  cases hbit

theorem tmallocSmall_eq_none (hmap : L.treemap = 0) : tmallocSmall m nb = none := by
  rw [tmallocSmall, leastFit_eq_none h hmap]
  rfl

theorem tmallocLarge_eq_none (hmap : L.treemap = 0) : tmallocLarge m nb = none := by
  rw [tmallocLarge, leastFit_eq_none h hmap]
  rfl

/-- The bits of `smallbits << idx & left_bits(idx2bit(idx))` -/
theorem Represents.testBit_behind {j : Nat} (hi : i + 1 < 32) (hj : j < 32) :
    ((L.smallmap / 2 ^ i) <<< i % 2 ^ 32 &&& leftBits (idx2bit i)).testBit j =
      (decide (i < j) && (m.smallbin j).isSome) := by
  rw [Nat.testBit_and, testBit_leftBits (by omega) hj, h.smallbin_isSome hj,
    Nat.testBit_mod_two_pow, decide_eq_true hj, Bool.true_and, Nat.testBit_shiftLeft,
    Nat.testBit_div_two_pow]
  by_cases hlt : i < j
  · rw [decide_eq_true (show j ≥ i by omega), decide_eq_true hlt, Bool.true_and, Bool.and_true,
      Bool.true_and, show j - i + i = j by omega]
  · rw [decide_eq_false hlt, Bool.and_false, Bool.false_and]

/-- The bin of a remainderless fit -/
theorem Represents.smallFit_index (hi : i + 1 < 32) (hbits : ¬L.smallmap / 2 ^ i &&& 3 = 0) :
    ∃ k, (k = i ∨ k = i + 1) ∧ ((i + if L.smallmap / 2 ^ i % 2 = 0 then 1 else 0) = k ∧
      (if (m.smallbin i).isSome then i else i + 1) = k) ∧ k < 32 ∧ ∃ c, m.smallbin k = some c := by
  obtain ⟨hodd, hand⟩ := h.smallbits hi
  cases hsome : (m.smallbin i).isSome with
  | true =>
    have hne : ¬L.smallmap / 2 ^ i % 2 = 0 := fun heq => by
      rw [hodd.mp heq] at hsome
      cases hsome
    exact ⟨i, .inl rfl, ⟨by rw [if_neg hne, Nat.add_zero], if_pos rfl⟩, by omega,
      Option.isSome_iff_exists.mp hsome⟩
  | false =>
    refine ⟨i + 1, .inr rfl, ⟨by rw [if_pos (hodd.mpr hsome)], if_neg Bool.false_ne_true⟩, hi,
      Option.isSome_iff_exists.mp ?_⟩
    rw [← Bool.not_eq_false]
    exact fun hnext => hbits (hand.mpr ⟨hsome, hnext⟩)

/-- Without a bit there is no bin to split a chunk of. -/
theorem smallSplit_eq_none (hbits : L.smallmap / 2 ^ smallIndex nb = 0) :
    smallSplit m nb = none := by
  have hfind : (List.range nsmallbins).find?
      (fun j => smallIndex nb < j && (m.smallbin j).isSome) = none := by
    refine List.find?_eq_none.mpr fun j hj hsome => ?_
    obtain ⟨hlt, hsome⟩ := Bool.and_eq_true_iff.mp hsome
    have hlt := of_decide_eq_true hlt
    have hbit : (L.smallmap / 2 ^ smallIndex nb).testBit (j - smallIndex nb) = true := by
      rw [Nat.testBit_div_two_pow, show j - smallIndex nb + smallIndex nb = j by omega,
        ← h.smallbin_isSome (List.mem_range.mp hj)]
      exact hsome
    rw [hbits, Nat.zero_testBit] at hbit
    cases hbit
  rw [smallSplit, hfind]
  rfl

/-- The bin that the bits lead to is the next one that is not empty. -/
theorem smallSplit_index (hi : i + 1 < 32) (h0 : (m.smallbin i).isSome = false)
    (hbits : L.smallmap / 2 ^ i ≠ 0) :
    ∃ c, (List.range nsmallbins).find? (fun j => i < j && (m.smallbin j).isSome) =
        some (bit2idx (leastBit ((L.smallmap / 2 ^ i) <<< i % 2 ^ 32 &&& leftBits (idx2bit i)))) ∧
      m.smallbin (bit2idx (leastBit
        ((L.smallmap / 2 ^ i) <<< i % 2 ^ 32 &&& leftBits (idx2bit i)))) = some c ∧
      bit2idx (leastBit ((L.smallmap / 2 ^ i) <<< i % 2 ^ 32 &&& leftBits (idx2bit i))) < 32 := by
  have htest := fun j hj => h.testBit_behind (j := j) hi hj
  have hlt : (L.smallmap / 2 ^ i) <<< i % 2 ^ 32 &&& leftBits (idx2bit i) < 2 ^ 32 :=
    lt_of_le_of_lt Nat.and_le_left (Nat.mod_lt _ (by decide))
  have hne : (L.smallmap / 2 ^ i) <<< i % 2 ^ 32 &&& leftBits (idx2bit i) ≠ 0 := by
    obtain ⟨j, hj⟩ := Nat.exists_testBit_of_ne_zero hbits
    rw [Nat.testBit_div_two_pow] at hj
    have hji : i + j < 32 := by
      by_contra hge
      rw [Nat.testBit_lt_two_pow (h.smallmap_lt.trans_le
        (Nat.pow_le_pow_right (by decide) (by omega)))] at hj
      cases hj
    have hsome : (m.smallbin (i + j)).isSome = true := by
      rw [h.smallbin_isSome hji, Nat.add_comm]
      exact hj
    have hpos : 0 < j := by
      rcases Nat.eq_zero_or_pos j with rfl | hpos
      · rw [Nat.add_zero, h0] at hsome
        cases hsome
      · exact hpos
    intro hzero
    have := htest _ hji
    rw [hzero, Nat.zero_testBit, hsome, decide_eq_true (by omega)] at this
    cases this
  obtain ⟨hidx, hbit, hleast⟩ := bit2idx_leastBit hne hlt
  generalize bit2idx (leastBit _) = k at hidx hbit hleast ⊢
  rw [htest _ hidx] at hbit
  obtain ⟨c, hc⟩ := Option.isSome_iff_exists.mp (Bool.and_eq_true_iff.mp hbit).2
  refine ⟨c, ?_, hc, hidx⟩
  refine List.find?_range_eq_some.mpr ⟨hbit, List.mem_range.mpr hidx, fun j hj => ?_⟩
  rw [← htest j (hj.trans hidx), Bool.not_eq_true']
  exact Bool.eq_false_iff.mpr (hleast j hj)

include hb hout hnb hfuel hw

/-- A request of at most `MAX_SMALL_REQUEST` bytes -/
theorem small_serves (hbytes : bytes ≤ maxSmallRequest) (hsmall : nb < 2 ^ 8) :
    BinServes m L.base (fromBins m bytes nb) (L.fromBins m fuel bytes nb) := by
  have hi := smallIndex_lt hnb hsmall
  have hmod := hnb.mod
  obtain ⟨hodd, hand⟩ := h.smallbits hi
  unfold fromBins Links.fromBins
  rw [if_pos hbytes, if_pos hbytes]
  dsimp only
  by_cases hbits : L.smallmap / 2 ^ smallIndex nb &&& 3 = 0
  · obtain ⟨h0, h1⟩ := hand.mp hbits
    have hfit : smallFit m nb = none := by
      have hnone : m.smallbin (smallIndex nb + 1) = none :=
        Option.not_isSome_iff_eq_none.mp (by rw [h1]; exact Bool.false_ne_true)
      rw [smallFit, h0, if_neg Bool.false_ne_true, hnone]
      rfl
    have hcond : ¬(L.smallmap / 2 ^ smallIndex nb &&& 3 != 0) = true := by simpa using hbits
    rw [if_neg hcond, hfit, Option.orElse_apply, Option.orElse_none]
    by_cases hdv : m.dvsize < nb
    · rw [if_pos hdv, if_pos hdv]
      have hdvs : isSmall m.dvsize = true := by
        rw [isSmall_iff, smallIndex]
        omega
      by_cases hsb : L.smallmap / 2 ^ smallIndex nb = 0
      · rw [smallSplit_eq_none h hsb, Option.orElse_apply, Option.orElse_none, hsb]
        by_cases hmap : L.treemap = 0
        · rw [tmallocSmall_eq_none h hmap, hmap]
          rfl
        · have hcond : (L.treemap != 0) = true := by simpa using hmap
          rw [hcond]
          exact tmallocSmall_serves hb h hout hnb hfuel hw hsmall hmap hdvs
      · obtain ⟨c, hfind, hc, hlt⟩ := smallSplit_index h hi h0 hsb
        have hcond : (L.smallmap / 2 ^ smallIndex nb != 0) = true := by simpa using hsb
        have hidx := List.find?_some hfind
        rw [smallSplit, hfind, if_pos hcond, Option.bind_eq_bind, Option.bind_some]
        generalize bit2idx (leastBit _) = k at hc hlt hidx ⊢
        rw [hc, Option.bind_eq_bind, Option.bind_some]
        obtain ⟨-, hsize, heq⟩ := hb.smallbin hc
        have hle : nb ≤ c.2 := by
          have := of_decide_eq_true (Bool.and_eq_true_iff.mp hidx).1
          rw [smallIndex] at this
          omega
        have hserve := serves_firstSplit hb h hout hnb hlt hc hle hdvs
        obtain ⟨hfd, -⟩ := h.unlinkFirst hlt hc
        rw [hfd, ← apply_ite some] at hserve
        dsimp only
        rw [hfd, ← apply_ite some, Option.orElse_apply, Option.orElse_some]
        exact hserve
    · rw [if_neg hdv, if_neg hdv]
      rfl
  · have hcond : (L.smallmap / 2 ^ smallIndex nb &&& 3 != 0) = true := by simpa using hbits
    rw [if_pos hcond]
    obtain ⟨k, hk, hidx, hlt, c, hc⟩ := h.smallFit_index hi hbits
    obtain ⟨-, -, heq⟩ := hb.smallbin hc
    have hsize : nb ≤ c.2 ∧ c.2 < nb + minChunkSize := by
      simp only [minChunkSize]
      rw [smallIndex] at hk
      omega
    have hfit : smallFit m nb = some (chunk2mem c.1,
        (m.unlinkChunk c.1 c.2).setInuseAndPinuse c.1 (smallIndex2size k)) := by
      rw [smallFit, hidx.2, hc]
      rfl
    rw [hidx.1, hfit, Option.orElse_apply, Option.orElse_some]
    exact serves_first hb h hlt hc hsize.1 hsize.2

end

/-- The bins serve what the search of the list serves. -/
theorem fromBins_serves (hb : Blocks m U []) (h : Represents m L) (hout : OutsideSegs L.base m)
    (hfuel : m.bins.length < fuel) (hw : ∀ e ∈ m.bins, WellIndexed e.2)
    (hwnb : WellIndexed (requestSize bytes)) :
    BinServes m L.base (fromBins m bytes (requestSize bytes))
      (L.fromBins m fuel bytes (requestSize bytes)) := by
  by_cases hlarge : maxRequest ≤ bytes
  · have hbytes : ¬bytes ≤ maxSmallRequest := by
      simp only [maxSmallRequest, maxRequest] at *
      omega
    rw [fromBins, if_neg hbytes, if_pos hlarge, Links.fromBins, if_neg hbytes, if_pos hlarge]
    rfl
  obtain ⟨hnb, hle, hle'⟩ := request2size_spec (not_le.mp hlarge)
  rw [← requestSize_eq (not_le.mp hlarge)] at hnb hle hle'
  have hmod := hnb.mod
  by_cases hbytes : bytes ≤ maxSmallRequest
  · refine small_serves hb h hout hnb hfuel hw hbytes ?_
    obtain ⟨-, -, hpad⟩ := padRequest_spec (not_le.mp hlarge)
    simp only [maxSmallRequest] at hbytes
    rw [requestSize_eq (not_le.mp hlarge), request2size]
    split
    · decide
    · omega
  · rw [fromBins, if_neg hbytes, if_neg hlarge, Links.fromBins, if_neg hbytes, if_neg hlarge]
    simp only [maxSmallRequest, maxRequest, minChunkSize] at *
    by_cases hmap : L.treemap = 0
    · rw [tmallocLarge_eq_none h hmap, hmap]
      rfl
    · have hcond : (L.treemap != 0) = true := by simpa using hmap
      rw [if_pos hcond]
      exact tmallocLarge_serves hb h hout hnb hfuel hw (by omega) (by omega) hwnb

def firstGranule : Segment := ⟨0x100000, 0x10000, true, false, none⟩

/-- A free chunk of 128 bytes, a block of 64 and `top`. -/
def oneChunk : MState :=
  { MState.start with
    topsize := 65264, leastAddr := 0x100000, top := 0x1000C0, footprint := 0x10000
    segs := [firstGranule]
    bins := [(0x100000, 128)]
    mem := fun a =>
      if a = 0x100008 then 129 else if a = 0x100080 then 128 else if a = 0x100088 then 66
      else if a = 0x1000C8 then 65265 else if a = 0x10FFB8 then 80 else 0 }

theorem oneChunk_blocks : Blocks oneChunk [(0x100080, 64)] [] := by
  refine ⟨[⟨firstGranule, [⟨0x100000, 128, .free⟩, ⟨0x100080, 64, .inuse⟩]⟩], ?_, .refl _⟩
  have hspan : Span.Tiled oneChunk
      ⟨firstGranule, [⟨0x100000, 128, .free⟩, ⟨0x100080, 64, .inuse⟩]⟩ := by
    refine ⟨by simp, ?_, by decide, by decide⟩
    simp only [List.cons_append, List.nil_append, tiles_cons]
    have hfree : minChunkSize ≤ 128 := by decide
    have hinuse : minChunkSize ≤ 64 := by decide
    have htop : 0 < oneChunk.topsize := by decide
    refine ⟨rfl, .inl trivial, ⟨rfl, hfree⟩, rfl, fun _ => rfl, rfl, .inr rfl, ⟨rfl, hinuse⟩, rfl,
      fun hfoot => ?_, rfl, .inl rfl, ⟨rfl, htop⟩, rfl, fun hfoot => ?_, tiles_nil⟩
    · cases hfoot
    · cases hfoot
  exact
    { ready := ⟨⟨by simp [oneChunk, Regions.DisjointList], by decide, by decide, by decide⟩, rfl,
        by decide, ⟨_, rfl, by decide, rfl⟩, rfl⟩
      segs := rfl
      spans := by simpa using hspan
      first := by simp [firstGranule]
      others := by simp
      aligned := by simp [firstGranule]
      least := by simp [firstGranule, oneChunk]
      dv := fun _ => rfl
      bins := .refl _ }

theorem oneChunk_represents : ∃ L, Represents oneChunk L ∧ L.base = 0x1000 := by
  have hempty : Represents { oneChunk with bins := [] } (Links.initBins 0x1000) :=
    initBins_represents rfl
  obtain ⟨L, -, h⟩ := hempty.insertChunk (p := 0x100000) (s := 128)
    ⟨List.not_mem_nil, by decide⟩ (by decide) (by decide) le_rfl
  exact ⟨L, h⟩

/-- A request of 40 bytes splits the chunk. -/
theorem fromBins_serves_oneChunk : ∃ L, Represents oneChunk L ∧
    BinServes oneChunk 0x1000 (fromBins oneChunk 40 (requestSize 40))
      (L.fromBins oneChunk 2 40 (requestSize 40)) := by
  obtain ⟨L, h, hbase⟩ := oneChunk_represents
  have hout : OutsideSegs 0x1000 oneChunk := by simp [OutsideSegs, oneChunk, firstGranule]
  refine ⟨L, h, ?_⟩
  rw [← hbase]
  exact fromBins_serves oneChunk_blocks h (hbase ▸ hout) (by decide) (by decide) (by decide)

end PrecisionGc.Dlmalloc
