import PrecisionGc.Verify.Extension
import PrecisionGc.Verify.Coalesce

/-!
# New memory in the tiling

The system layer keeps the tiling. New memory makes the first segment longer, or it stands in front
of a segment, or it is a segment of its own, and then the old `top` makes room for the record of its
segment.
-/

namespace PrecisionGc.Dlmalloc
open Regions BoundaryTags

variable {m m' m₀ : MState} {S S₁ S₂ : List Span} {s : Span} {X U : List (Nat × Nat)} {x : Hole}
  {p n size tbase tsize nb oldEnd : Nat}

/-- A block for a request of `nb` bytes, a chunk that may be a little larger, is in use beside the
blocks `U`. -/
def Obtains (m : MState) (U : List (Nat × Nat)) (nb : Nat) (r : Nat × MState) : Prop :=
  ∃ p s, r.1 = chunk2mem p ∧ nb ≤ s ∧ s < nb + minChunkSize ∧ Blocks r.2 ((p, s) :: U) [] ∧
    Keeps m r.2 U

theorem initTop_eq (hp : p % 16 = 0) (hs : n % 16 = 0) (hb : p + n + 16 < 2 ^ 64) :
    initTop m p n = { m with
      top := p
      topsize := n
      trimCheck := threshold
      mem := Function.update (Function.update m.mem (p + 8) (n + 1)) (p + n + 8)
        topFootSize } := by
  have hoff : alignOffset (chunk2mem p) = 0 := by
    rw [chunk2mem_eq (by omega), alignOffset, if_pos (by omega)]
  have hsize : subSize n 0 = n := subSize_eq (by omega) (Nat.zero_le _)
  simp only [initTop, hoff, addSize_eq (a := p) (b := 0) (by omega), hsize, Nat.add_zero,
    addSize_eq (a := p) (b := n) (by omega), or_of_aligned hs (by decide : 1 < 16)]
  rw [setHead_eq (by omega), setHead_eq (by omega)]

/-! ## The first segment ends somewhere else -/

/-- The chunks of the first segment end where `top` starts. -/
theorem Tiled.first_tiles (h : Tiled m (s :: S) X) : s.seg.record = none ∧
    Tiles tagging m.mem true s.seg.base s.body ∧ stop s.seg.base s.body = m.top ∧
    lastUsed tagging true s.body = true := by
  have hrecord := h.first s rfl
  have htiles := (h.spans s List.mem_cons_self).tiles
  simp only [MState.tail, hrecord, tiles_append] at htiles
  obtain ⟨hbody, htop, hpin, -⟩ := htiles
  exact ⟨hrecord, hbody, htop.symm, by simpa [Kind.used] using hpin⟩

/-- Behind the start of `top`, and in the memory that no segment had, are no blocks. -/
theorem Tiled.keeps_of_top (h : Tiled m (s :: S) X) (fresh : Finset Nat)
    (hfresh : ∀ t ∈ s :: S, Disjoint fresh t.seg.region)
    (heq : ∀ w, w ∉ fresh → (w ∈ s.seg.region → w ≤ m.top) → m'.mem w = m.mem w) :
    Keeps m m' (ofKind .inuse (chunks (s :: S))) := by
  intro b hb w hw hw'
  have hin : ∀ t ∈ s :: S, (⟨b.1, b.2, .inuse⟩ : HeapChunk) ∈ t.body → w ∈ t.seg.region := by
    intro t ht hc
    have hbounds := h.chunk_bounds ht hc
    simp only [Chunk.stop] at hbounds
    simp only [Segment.region, mem_region]
    omega
  obtain ⟨-, hbody, htop, -⟩ := h.first_tiles
  have hc := mem_ofKind.mp hb
  simp only [chunks_cons, List.mem_append] at hc
  rcases hc with hc | hc
  · have hws := hin s List.mem_cons_self hc
    have hout := Finset.disjoint_right.mp (hfresh s List.mem_cons_self) hws
    have hstop := (hbody.bounds hc).2.1
    simp only [Chunk.stop, htop] at hstop
    exact heq w hout fun _ => by omega
  · obtain ⟨t, ht, hc⟩ := List.mem_flatMap.mp hc
    have hwt := hin t (List.mem_cons_of_mem s ht) hc
    have hdisj : Disjoint s.seg.region t.seg.region := by
      have hd := h.ready.layout.disjoint
      rw [← h.segs, List.map_cons, disjointList_cons] at hd
      exact hd.1 t.seg (List.mem_map_of_mem ht)
    exact heq w (Finset.disjoint_right.mp (hfresh t (List.mem_cons_of_mem s ht)) hwt)
      fun hws => absurd hwt (Finset.disjoint_left.mp hdisj hws)

/-- `top` has another size, and its segment with it. -/
theorem Tiled.resizeTop {topsize : Nat} (h : Tiled m (s :: S) X)
    (hsegs : m₀.segs = { s.seg with size } :: S.map Span.seg)
    (hmem : m₀.mem = m.mem) (hleast : m₀.leastAddr = m.leastAddr)
    (hdv : m₀.dv = m.dv ∧ m₀.dvsize = m.dvsize ∧ m₀.bins = m.bins)
    (hready : Ready (initTop m₀ m.top topsize)) (hmod : topsize % 16 = 0)
    (hend : m.top + topsize + topFootSize = s.seg.base + size) :
    Tiled (initTop m₀ m.top topsize) (⟨{ s.seg with size }, s.body⟩ :: S) X ∧
      Keeps m (initTop m₀ m.top topsize) (ofKind .inuse (chunks (s :: S))) := by
  obtain ⟨hrecord, hbody, hstop, hlast⟩ := h.first_tiles
  have hbase := hbody.le_stop
  have haligned := h.aligned s List.mem_cons_self
  have hbound := hready.layout.bound { s.seg with size } (by simp [initTop, hsegs, MState.setHead])
  have hdisj := hready.layout.disjoint
  simp only [userEnd] at hbound
  simp only [topFootSize] at hend
  have heq := initTop_eq (m := m₀) h.ready.aligned hmod (by omega)
  have htopsize : 0 < topsize := by
    have := hready.topsize_pos
    rwa [heq] at this
  rw [heq] at hready hdisj ⊢
  simp only [hsegs, disjointList_cons] at hdisj
  have hin : ∀ w, m.top ≤ w → w < s.seg.base + size →
      w ∈ ({ s.seg with size } : Segment).region := fun w hw hw' => by
    simp only [Segment.region, mem_region]
    omega
  have hsame : ∀ w, w ≠ m.top + 8 → w ≠ m.top + topsize + 8 →
      Function.update (Function.update m₀.mem (m.top + 8) (topsize + 1)) (m.top + topsize + 8)
        topFootSize w = m.mem w := fun w hw hw' => by
    rw [Function.update_of_ne hw', Function.update_of_ne hw, hmem]
  have hother : ∀ t ∈ S, ∀ w ∈ t.seg.region, w ≠ m.top + 8 ∧ w ≠ m.top + topsize + 8 := by
    intro t ht w hw
    have hnot := Finset.disjoint_right.mp (hdisj.1 t.seg (List.mem_map_of_mem ht)) hw
    exact ⟨fun hw => hnot (hw ▸ hin _ (by omega) (by omega)),
      fun hw => hnot (hw ▸ hin _ (by omega) (by omega))⟩
  refine ⟨(show Tiled m ([] ++ s :: S) X from h).update hready ?_ ⟨?_, ?_, ?_, ?_⟩ Iff.rfl
    ⟨haligned.1, ?_⟩ ?_ (.inl rfl) ?_ ?_ ?_ ?_, ?_⟩
  · exact hsegs
  · exact (h.spans s List.mem_cons_self).body
  · simp only [MState.tail, hrecord]
    refine tiles_append.mpr ⟨hbody.congr_of_between fun w _ hw => hsame w (by omega) (by omega), ?_⟩
    rw [hstop, hlast]
    refine ⟨rfl, .inl rfl, ⟨hmod, htopsize⟩, ?_, by simp [tagging], trivial⟩
    rw [Function.update_of_ne (by omega), Function.update_self]
    rfl
  · simp only [MState.tail, hrecord, Chunk.stop, Segment.footSize, topFootSize, Option.isSome_none,
      Bool.false_eq_true, if_false]
    omega
  · simp only [MState.tail, hrecord, Chunk.stop, Segment.footWord, Option.isSome_none,
      Bool.false_eq_true, if_false, Function.update_self]
  · have := h.ready.aligned
    dsimp only
    omega
  · exact fun t ht w hw => hsame w (hother t ht w hw).1 (hother t ht w hw).2
  · exact hleast.le
  · exact hleast.le.trans (h.least s List.mem_cons_self)
  · change m₀.dvsize = 0 → m₀.dv = 0
    rw [hdv.1, hdv.2.1]
    exact h.dv
  · have hbins := h.bins
    simpa only [MState.dvChunk, hdv, chunks_cons, List.nil_append] using hbins
  · refine h.keeps_of_top (({ s.seg with size } : Segment).region \ s.seg.region)
      (fun t ht => ?_) fun w hw hw' => ?_
    · rcases List.mem_cons.mp ht with rfl | ht
      · exact Finset.sdiff_disjoint
      · exact (hdisj.1 t.seg (List.mem_map_of_mem ht)).mono_left Finset.sdiff_subset
    · obtain ⟨seg, hseg, -, htop⟩ := h.ready.head
      obtain rfl : s.seg = seg := by simpa [← h.segs] using hseg
      have hold := h.ready.topsize_pos
      simp only [topFootSize] at htop
      simp only [Finset.mem_sdiff, Segment.region, mem_region] at hw hw'
      exact hsame w (by omega) (by omega)

/-! ## Allocating from `top` -/

namespace Obtains

variable {r : Nat × MState}

theorem of_keeps (h : Obtains m' U nb r) (hkeep : Keeps m m' U) : Obtains m U nb r := by
  obtain ⟨p, s, hr, hle, hlt, hblocks, hkeep'⟩ := h
  exact ⟨p, s, hr, hle, hlt, hblocks, hkeep.trans hkeep'⟩

theorem perm {U' : List (Nat × Nat)} (h : Obtains m U nb r) (hU : U.Perm U') :
    Obtains m U' nb r := by
  obtain ⟨p, s, hr, hle, hlt, hblocks, hkeep⟩ := h
  exact ⟨p, s, hr, hle, hlt, hblocks.perm (hU.cons _), hkeep.mono hU.symm.subset⟩

end Obtains

/-- The hole is filled with a chunk that serves the request. -/
theorem Tiled.obtains {s : Nat} {r : Nat × MState} (h : Tiled r.2 (x.fill [⟨p, s, .inuse⟩]) [])
    (hr : r.1 = chunk2mem p) (hle : nb ≤ s) (hlt : s < nb + minChunkSize)
    (hkeep : Keeps m r.2 (ofKind .inuse x.others)) : Obtains m (ofKind .inuse x.others) nb r :=
  ⟨p, s, hr, hle, hlt, h.blocks, hkeep⟩

theorem Tiled.obtains_top (h : Tiled m S []) (hnb : nb % 16 = 0) (hnb' : minChunkSize ≤ nb)
    (hlt : nb < m.topsize) : Obtains m (ofKind .inuse (chunks S)) nb (splitTop m nb) := by
  obtain ⟨x, rfl, -, -, hstart, -⟩ := h.hole_at_top
  obtain ⟨hm, hkeep⟩ := h.takeTop hstart hnb hnb' hlt
  have hperm : (ofKind .inuse x.others).Perm (ofKind .inuse (chunks (x.fill []))) :=
    ofKind_perm (x.perm []).symm
  have hpos : 0 < minChunkSize := by decide
  exact (hm.obtains rfl le_rfl (by omega) hkeep).perm hperm

/-- A heap is in order if it is so after a chunk has been split off `top`. -/
theorem Ready.of_splitTop (h : Ready (splitTop m nb).2) (hlt : nb < m.topsize)
    (hbound : m.top + m.topsize < 2 ^ 64) (hmod : m.top % 16 = 0)
    (hbase : ∀ seg, m.segs.head? = some seg → seg.base ≤ m.top) : Ready m := by
  have htop : (splitTop m nb).2.top = m.top + nb := addSize_eq (by omega)
  have hsize : (splitTop m nb).2.topsize = m.topsize - nb := subSize_eq (by omega) hlt.le
  exact h.moveTop rfl rfl hmod (by omega) (by omega) hbase

/-- The segment around `top` is the first, also for a search. -/
theorem Tiled.first_of_find? {q : Segment → Bool} {g : Segment → Segment} {sp : Segment}
    (h : Tiled m (s :: S) X) (hfind : m.segs.find? q = some sp) (hholds : sp.holds m.top) :
    sp = s.seg ∧ q s.seg ∧ updateFirst q g m.segs = g s.seg :: S.map Span.seg := by
  obtain ⟨hq, l₁, l₂, hl, hl'⟩ := updateFirst_of_find? (g := g) hfind
  have hmem : sp ∈ m.segs := by simp [hl]
  obtain rfl := h.ready.eq_nil_of_top_mem hl ((h.ready.layout.holds_iff hmem).mp hholds)
  have hsegs := h.segs.trans hl
  simp only [List.map_cons, List.nil_append, List.cons.injEq] at hsegs
  obtain ⟨rfl, rfl⟩ := hsegs
  exact ⟨rfl, hq, hl'⟩

/-- The new memory makes the segment around `top` longer. -/
theorem append_obtains {sp : Segment} (h : Tiled m S []) (hg : Granted m tbase tsize)
    (hmod : tsize % 16 = 0) (hnb : nb % 16 = 0) (hnb' : minChunkSize ≤ nb)
    (hsize : nb + sysAllocPadding ≤ tsize) (ht : appendTarget m tbase = some sp) :
    Obtains m (ofKind .inuse (chunks S)) nb (allocateTop (initTop { m.addFootprint tsize with
      segs := updateFirst (fun sp => tbase == addSize sp.base sp.size)
        (fun sp => { sp with size := addSize sp.size tsize }) m.segs }
      m.top (addSize m.topsize tsize)) nb) := by
  obtain ⟨p, -, -, hready⟩ := append_served h.ready hg hnb hsize ht
  obtain ⟨hfind, hholds⟩ := appendTarget_eq_some ht
  obtain ⟨s, S, rfl⟩ := h.exists_cons
  obtain ⟨rfl, hend, hsegs⟩ := h.first_of_find?
    (g := fun sp => { sp with size := addSize sp.size tsize }) hfind hholds
  have hmem : s.seg ∈ m.segs := by simp [← h.segs]
  obtain ⟨seg, hseg, hbase, htopend⟩ := h.ready.head
  obtain rfl : s.seg = seg := by simpa [← h.segs] using hseg
  have hbound := hg.bound
  have hsp := h.ready.layout.bound s.seg hmem
  obtain ⟨-, htopmod, htsmod, -, -⟩ := h.top_bounds
  rw [beq_iff_eq, h.ready.layout.addSize_base hmem] at hend
  simp only [userEnd, topFootSize] at hbound hsp htopend
  simp only [sysAllocPadding, topFootSize] at hsize
  have hsz : addSize s.seg.size tsize = s.seg.size + tsize := addSize_eq (by omega)
  have htsz : addSize m.topsize tsize = m.topsize + tsize := addSize_eq (by omega)
  rw [hsegs, hsz, htsz] at hready ⊢
  generalize hm₀ : ({ m.addFootprint tsize with
    segs := { s.seg with size := s.seg.size + tsize } :: S.map Span.seg } : MState) = m₀ at hready ⊢
  have hsegs₀ : m₀.segs = { s.seg with size := s.seg.size + tsize } :: S.map Span.seg := hm₀ ▸ rfl
  have htop := initTop_eq (m := m₀) (p := m.top) (n := m.topsize + tsize) htopmod (by omega)
    (by omega)
  have hlt : nb < (initTop m₀ m.top (m.topsize + tsize)).topsize := by
    rw [htop]
    dsimp only
    omega
  rw [allocateTop, if_pos hlt] at hready ⊢
  have hready' : Ready (initTop m₀ m.top (m.topsize + tsize)) := by
    refine hready.of_splitTop hlt ?_ ?_ fun seg hseg => ?_
    · rw [htop]
      dsimp only
      omega
    · rw [htop]
      exact htopmod
    · rw [htop] at hseg ⊢
      obtain rfl : { s.seg with size := s.seg.size + tsize } = seg := by simpa [hsegs₀] using hseg
      exact hbase
  obtain ⟨hm, hkeep⟩ := h.resizeTop hsegs₀ (hm₀ ▸ rfl) (hm₀ ▸ rfl) (hm₀ ▸ ⟨rfl, rfl, rfl⟩) hready'
    (by omega) (by simp only [topFootSize]; omega)
  exact ((hm.obtains_top hnb hnb' hlt).perm (by simp [chunks_cons])).of_keeps hkeep

/-! ## A segment of its own -/

/-- A segment that `top` fills. -/
theorem span_of_top (hmod : tsize % 16 = 0) (hsize : 80 < tsize) (htop : m.top = tbase)
    (htopsize : m.topsize = tsize - 80) (hhead : m.mem (tbase + 8) = tsize - 80 + 1)
    (hfoot : m.mem (tbase + (tsize - 80) + 8) = topFootSize) :
    (⟨⟨tbase, tsize, true, false, none⟩, []⟩ : Span).Tiled m where
  body := by simp
  tiles := by
    simp only [MState.tail, htop, htopsize]
    exact ⟨rfl, .inl rfl, ⟨by dsimp only; omega, by simp only [Kind.fits]; omega⟩, hhead,
      by simp [tagging], trivial⟩
  room := by
    simp only [MState.tail, htop, htopsize, Chunk.stop, Segment.footSize, topFootSize,
      Option.isSome_none, Bool.false_eq_true, if_false]
    omega
  foot := by
    simp only [MState.tail, htop, htopsize, Chunk.stop]
    exact hfoot

/-- The state of the allocator before the first request. -/
structure Pristine (m : MState) : Prop extends Untouched m where
  bins : m.bins = []
  dvsize : m.dvsize = 0
  dv : m.dv = 0

/-- The first memory is the first segment, with nothing but `top` in it. -/
theorem place_first_obtains (h : Pristine m) (hg : Granted m tbase tsize) (hbase : tbase % 16 = 0)
    (hmod : tsize % 16 = 0) (hnb : nb % 16 = 0) (hnb' : minChunkSize ≤ nb)
    (hsize : nb + sysAllocPadding ≤ tsize) :
    ∃ r, place m tbase tsize nb = .ok r ∧ Obtains m [] nb r := by
  obtain ⟨r, hr, p, -, -, hready⟩ := place_first h.top h.footprint hg hnb hsize
  have hinit : (m.addFootprint tsize).isInitialized = false := by
    simp [MState.isInitialized, MState.addFootprint, h.top]
  have hbound := hg.bound
  simp only [userEnd] at hbound
  simp only [sysAllocPadding, topFootSize] at hsize
  have htsize : subSize tsize topFootSize = tsize - 80 :=
    subSize_eq (by omega) (by simp only [topFootSize]; omega)
  refine ⟨r, hr, ?_⟩
  simp only [place, hinit, Bool.not_false, if_true, htsize, Except.pure_def,
    Except.ok.injEq] at hr
  generalize hm₀ : ({ m.addFootprint tsize with
    leastAddr := _, segs := [⟨tbase, tsize, true, false, none⟩] } : MState) = m₀ at hr
  have hsegs₀ : m₀.segs = [⟨tbase, tsize, true, false, none⟩] := hm₀ ▸ rfl
  have hleast₀ : m₀.leastAddr ≤ tbase := by
    rw [← hm₀]
    simp only [Bool.or_eq_true, decide_eq_true_eq]
    split <;> omega
  have htop := initTop_eq (m := m₀) (p := tbase) (n := tsize - 80) hbase (by omega) (by omega)
  have hlt : nb < (initTop m₀ tbase (tsize - 80)).topsize := by
    rw [htop]
    dsimp only
    omega
  rw [allocateTop, if_pos hlt] at hr
  subst hr
  have hready' : Ready (initTop m₀ tbase (tsize - 80)) := by
    refine hready.of_splitTop hlt ?_ ?_ fun seg hseg => ?_
    · rw [htop]
      dsimp only
      omega
    · rw [htop]
      exact hbase
    · rw [htop] at hseg ⊢
      obtain rfl := Option.some.inj ((congrArg List.head? hsegs₀).symm.trans hseg)
      exact le_rfl
  have hspan : (⟨⟨tbase, tsize, true, false, none⟩, []⟩ : Span).Tiled
      (initTop m₀ tbase (tsize - 80)) := by
    rw [htop]
    refine span_of_top hmod (by omega) rfl rfl ?_ (Function.update_self ..)
    exact (Function.update_of_ne (by omega) ..).trans (Function.update_self ..)
  have hm : Tiled (initTop m₀ tbase (tsize - 80)) [⟨⟨tbase, tsize, true, false, none⟩, []⟩] [] := by
    constructor
    case ready => exact hready'
    case segs => exact hsegs₀.symm
    case spans => simpa using hspan
    case first => simp
    case others => simp
    case aligned => simpa using ⟨hbase, hmod⟩
    case least =>
      simp only [List.forall_mem_singleton]
      exact hleast₀
    case dv =>
      rw [htop, ← hm₀]
      exact fun _ => h.dv
    case bins =>
      rw [htop, ← hm₀]
      simp [chunks, MState.dvChunk, MState.addFootprint, h.dvsize, h.bins]
  exact (hm.obtains_top hnb hnb' hlt).of_keeps (by simp [Keeps, chunks])

theorem fenceposts_spec {e : Nat} (n : Nat) (hp : p + 8 < e) (hend : e ≤ 2 ^ 56) :
    ∃ mem, fenceposts e n p m = { m with mem } ∧ mem (p + 8) = 11 ∧
      ∀ w, w < p + 8 ∨ e ≤ w → mem w = m.mem w := by
  have hset : ∀ {m : MState} {p : Nat}, p + 8 < e →
      m.setHead p (3 ||| 8) = { m with mem := Function.update m.mem (p + 8) 11 } :=
    fun hp => setHead_eq (by omega) _
  induction n generalizing p m with
  | zero =>
    exact ⟨_, hset hp, Function.update_self .., fun w hw => Function.update_of_ne (by omega) ..⟩
  | succ n ih =>
    rw [fenceposts, hset hp]
    split
    case isTrue hlt =>
      obtain ⟨mem, heq, -, hmem⟩ := ih (p := p + 8)
        (m := { m with mem := Function.update m.mem (p + 8) 11 }) (by omega)
      refine ⟨mem, heq, (hmem _ (by omega)).trans (Function.update_self ..), fun w hw => ?_⟩
      exact (hmem _ (by omega)).trans (Function.update_of_ne (by omega) ..)
    case isFalse =>
      exact ⟨_, rfl, Function.update_self .., fun w hw => Function.update_of_ne (by omega) ..⟩

/-- The record takes the place of `top` if that is too small to be a chunk beside it. -/
theorem recordChunk_eq {oldTop topsize : Nat} (htop : oldTop % 16 = 0) (hmod : topsize % 16 = 0)
    (hpos : 0 < topsize) (hend : oldTop + topsize + topFootSize = oldEnd) (hb : oldEnd ≤ 2 ^ 56) :
    recordChunk oldTop oldEnd (padRequest segmentRecordSize) =
      if topsize = 16 then oldTop else oldTop + topsize := by
  have hpad : padRequest segmentRecordSize = 48 := by decide
  simp only [topFootSize] at hend
  have hraw : subSize oldEnd (48 + 32 + 15) = oldEnd - 95 := subSize_eq (by omega) (by omega)
  have hoff : alignOffset (chunk2mem (oldEnd - 95)) = 15 := by
    rw [chunk2mem_eq (by omega), alignOffset, if_neg (by omega)]
    omega
  have hmin : addSize oldTop minChunkSize = oldTop + 32 := addSize_eq (by
    simp only [minChunkSize]
    omega)
  simp only [recordChunk, hpad, hraw, hoff, hmin,
    addSize_eq (a := oldEnd - 95) (b := 15) (by omega)]
  split <;> split <;> omega

/-- What is left of the old `top` is a free chunk, if anything, and the record. -/
theorem retireTop_spec {oldTop topsize csp : Nat} (htop : oldTop % 16 = 0)
    (hmod : topsize % 16 = 0) (hend : oldTop + topsize + topFootSize = oldEnd)
    (hbound : oldEnd ≤ 2 ^ 56)
    (hcsp : csp = oldTop ∧ topsize = 16 ∨ csp = oldTop + topsize ∧ 32 ≤ topsize)
    (hhead : m.mem (csp + 8) = 51) :
    ∃ gap mem, retireTop m oldTop csp (csp + 48) oldEnd =
        { m with mem, bins := ofKind .free gap ++ m.bins } ∧
      Tiles tagging mem true oldTop (gap ++ [⟨csp, 48, .record⟩]) ∧
      (∀ c ∈ gap, c.kind = .free) ∧ mem (csp + 56) = 11 ∧
      ∀ w, w ≤ oldTop ∨ oldEnd ≤ w → mem w = m.mem w := by
  simp only [topFootSize] at hend
  obtain ⟨mem, hfence, hlast, hframe⟩ := fenceposts_spec (m := m) (p := csp + 48)
    (e := oldEnd) (oldEnd / 8) (by omega) hbound
  rw [retireTop, hfence]
  rcases hcsp with ⟨rfl, hsmall⟩ | ⟨rfl, hlarge⟩
  · refine ⟨[], mem, if_pos rfl, ⟨rfl, .inl rfl, ⟨by simp, rfl⟩, ?_, by simp [tagging], trivial⟩,
      by simp, hlast, fun w hw => hframe w (by omega)⟩
    rw [hframe _ (by omega), hhead]
    rfl
  · have hsub : subSize (oldTop + topsize) oldTop = topsize := by
      rw [subSize_eq (by omega) (by omega)]
      omega
    obtain ⟨mem', hmem'⟩ : ∃ mem', mem' = Function.update (Function.update
        (Function.update mem (oldTop + topsize + 8) 50) (oldTop + 8) (topsize + 1))
        (oldTop + topsize) topsize := ⟨_, rfl⟩
    have hpin : mem (oldTop + topsize + 8) = 51 := by rw [hframe _ (by omega), hhead]
    have hne : ∀ w, w ≠ oldTop + topsize + 8 → w ≠ oldTop + 8 → w ≠ oldTop + topsize →
        mem' w = mem w := fun w h₁ h₂ h₃ => by
      rw [hmem', Function.update_of_ne h₃, Function.update_of_ne h₂, Function.update_of_ne h₁]
    refine ⟨[⟨oldTop, topsize, .free⟩], mem', ?_, ⟨rfl, .inl rfl, ⟨hmod, hlarge⟩, ?_, fun _ => ?_,
      rfl, .inr rfl, ⟨by simp, rfl⟩, ?_, by simp [tagging], trivial⟩, by simp,
      (hne _ (by omega) (by omega) (by omega)).trans hlast, fun w hw => ?_⟩
    · simp only [if_neg (show ¬oldTop + topsize = oldTop by omega), hsub,
        addSize_eq (a := oldTop) (b := topsize) (by omega)]
      rw [setFreeWithPinuse_eq (by omega) hmod (by omega)]
      simp only [hpin, hmem']
      rfl
    · rw [hmem', Function.update_of_ne (by omega), Function.update_self]
      rfl
    · rw [hmem']
      exact Function.update_self ..
    · change mem' (oldTop + topsize + 8) = 50
      rw [hmem', Function.update_of_ne (by omega), Function.update_of_ne (by omega),
        Function.update_self]
    · rw [hne w (by omega) (by omega) (by omega), hframe w (by omega)]

/-- What the memory says when `top` is in a new segment and the old one ends with its record. -/
structure Retired (m : MState) (mem : Nat → Nat) (tbase tsize oldEnd csp : Nat)
    (gap : List HeapChunk) : Prop where
  tiles : Tiles tagging mem true m.top (gap ++ [⟨csp, 48, .record⟩])
  free : ∀ c ∈ gap, c.kind = .free
  room : csp + 80 ≤ oldEnd
  fence : mem (csp + 56) = 11
  head : mem (tbase + 8) = tsize - 80 + 1
  foot : mem (tbase + (tsize - 80) + 8) = topFootSize
  frame : ∀ w, w ∉ region tbase tsize → w ≤ m.top ∨ oldEnd ≤ w → mem w = m.mem w

/-- The new memory is the first segment. -/
def MState.withSegment (m : MState) (mem : Nat → Nat) (tbase tsize csp : Nat)
    (gap : List HeapChunk) (sp : Segment) (next : List Segment) : MState :=
  { m with
    top := tbase
    topsize := tsize - 80
    trimCheck := threshold
    segs := ⟨tbase, tsize, true, false, none⟩ :: { sp with record := some (csp + 16) } :: next
    bins := ofKind .free gap ++ m.bins
    mem }

theorem addSegment_eq {sp : Segment} {next : List Segment} (hsegs : m.segs = sp :: next)
    (hhold : m.segmentHolding m.top = some sp) (htop : m.top % 16 = 0) (hmod : m.topsize % 16 = 0)
    (hpos : 0 < m.topsize) (hend : m.top + m.topsize + topFootSize = sp.base + sp.size)
    (hbase : sp.base ≤ m.top) (hbound : sp.base + sp.size ≤ 2 ^ 56) (htbase : tbase % 16 = 0)
    (htsize : tsize % 16 = 0) (hsize : 80 < tsize) (htbound : tbase + tsize ≤ 2 ^ 56)
    (hdisj : Disjoint (region tbase tsize) sp.region) :
    ∃ csp gap mem, Retired m mem tbase tsize (sp.base + sp.size) csp gap ∧
      addSegment m tbase tsize true = .ok (m.withSegment mem tbase tsize csp gap sp next) := by
  have hpad : padRequest segmentRecordSize = 48 := by decide
  have hts : subSize tsize topFootSize = tsize - 80 :=
    subSize_eq (by omega) (by simp only [topFootSize]; omega)
  have hrecord := recordChunk_eq htop hmod hpos hend hbound
  have hinit := initTop_eq (m := m) (p := tbase) (n := tsize - 80) htbase (by omega) (by omega)
  have hout : ∀ w ∈ region tbase tsize, w < sp.base ∨ sp.base + sp.size ≤ w := fun w hw => by
    have := Finset.disjoint_left.mp hdisj hw
    simp only [Segment.region, mem_region] at this
    omega
  have hh := hout (tbase + 8) (by simp only [mem_region]; omega)
  have hf := hout (tbase + (tsize - 80) + 8) (by simp only [mem_region]; omega)
  rw [hpad] at hrecord
  simp only [addSegment, hhold, hpad, hts, hrecord, addSize_eq (a := sp.base) (b := sp.size)
    (by omega)]
  generalize hcsp : (if m.topsize = 16 then m.top else m.top + m.topsize) = csp
  have hcsp' : csp = m.top ∧ m.topsize = 16 ∨ csp = m.top + m.topsize ∧ 32 ≤ m.topsize := by
    rw [← hcsp]
    split <;> omega
  have hend' : m.top + m.topsize + 80 = sp.base + sp.size := hend
  rw [hinit, setInuseChunk_eq (by omega) (by decide)]
  simp only [MState.pushSegment, hsegs, chunk2mem_eq (p := csp) (by omega),
    addSize_eq (a := csp) (b := 48) (by omega)]
  generalize hm₁ : ({ m with
    top := tbase, topsize := tsize - 80, trimCheck := threshold, segs := _, mem := _ } :
    MState) = m₁
  have hmem₁ : m₁.mem = Function.update (Function.update (Function.update m.mem (tbase + 8)
      (tsize - 80 + 1)) (tbase + (tsize - 80) + 8) topFootSize) (csp + 8) 51 := hm₁ ▸ rfl
  obtain ⟨gap, mem, hretire, htiles, hfree, hfence, hframe⟩ :=
    retireTop_spec (m := m₁) htop hmod hend hbound hcsp' (by rw [hmem₁, Function.update_self])
  refine ⟨csp, gap, mem, ⟨htiles, hfree, by omega, hfence, ?_, ?_, fun w hw hw' => ?_⟩, ?_⟩
  · rw [hframe _ (by omega), hmem₁, Function.update_of_ne (by omega),
      Function.update_of_ne (by omega), Function.update_self]
  · rw [hframe _ (by omega), hmem₁, Function.update_of_ne (by omega), Function.update_self]
  · simp only [mem_region] at hw
    rw [hframe w hw', hmem₁, Function.update_of_ne (by omega), Function.update_of_ne (by omega),
      Function.update_of_ne (by omega)]
  · rw [hretire, ← hm₁]
    rfl

theorem Tiled.withSegment {mem : Nat → Nat} {csp footprint maxFootprint leastAddr : Nat}
    {gap : List HeapChunk} (h : Tiled m (s :: S) []) (hg : Granted m tbase tsize)
    (htbase : tbase % 16 = 0) (htsize : tsize % 16 = 0) (hsize : 80 < tsize)
    (hleast : leastAddr ≤ m.leastAddr ∧ leastAddr ≤ tbase)
    (hr : Retired m mem tbase tsize (s.seg.base + s.seg.size) csp gap)
    (hready : Ready ({ m with footprint, maxFootprint, leastAddr }.withSegment mem tbase tsize csp
      gap s.seg (S.map Span.seg))) :
    Tiled ({ m with footprint, maxFootprint, leastAddr }.withSegment mem tbase tsize csp gap s.seg
        (S.map Span.seg))
      (⟨⟨tbase, tsize, true, false, none⟩, []⟩ ::
        ⟨{ s.seg with record := some (csp + 16) }, s.body ++ gap⟩ :: S) [] ∧
      Keeps m ({ m with footprint, maxFootprint, leastAddr }.withSegment mem tbase tsize csp gap
        s.seg (S.map Span.seg)) (ofKind .inuse (chunks (s :: S))) := by
  obtain ⟨hrecord, hbody, hstop, hlast⟩ := h.first_tiles
  obtain ⟨seg, hseg, hbase, htopend⟩ := h.ready.head
  obtain rfl : s.seg = seg := by simpa [← h.segs] using hseg
  have hfresh : ∀ t ∈ s :: S, Disjoint (region tbase tsize) t.seg.region := fun t ht =>
    hg.fresh t.seg (h.segs ▸ List.mem_map_of_mem ht)
  have hframe : ∀ w, w ∉ region tbase tsize → (w ∈ s.seg.region → w ≤ m.top) →
      mem w = m.mem w := fun w hw hw' => by
    simp only [Segment.region, mem_region] at hw'
    exact hr.frame w hw (by omega)
  refine ⟨?_, h.keeps_of_top (region tbase tsize) hfresh hframe⟩
  generalize hm' : ({ m with footprint, maxFootprint, leastAddr } : MState).withSegment mem tbase
    tsize csp gap s.seg (S.map Span.seg) = m' at hready ⊢
  have hmem' : m'.mem = mem := hm' ▸ rfl
  have hold : (⟨{ s.seg with record := some (csp + 16) }, s.body ++ gap⟩ : Span).Tiled m' := by
    constructor
    case body =>
      have hs := (h.spans s List.mem_cons_self).body
      simp only [List.forall_mem_append]
      exact ⟨hs, fun c hc => .inr (hr.free c hc)⟩
    case tiles =>
      rw [List.append_assoc, hmem']
      refine tiles_append.mpr ⟨hbody.congr_of_between fun w hw hw' => ?_, ?_⟩
      · have hin : w ∈ s.seg.region := by
          rw [hstop] at hw'
          simp only [topFootSize] at htopend
          simp only [Segment.region, mem_region]
          omega
        exact hframe w (Finset.disjoint_right.mp (hfresh s List.mem_cons_self) hin)
          fun _ => hstop ▸ hw'
      · rw [hstop, hlast]
        exact hr.tiles
    case room => exact hr.room
    case foot =>
      rw [hmem']
      exact hr.fence
  have hnew : (⟨⟨tbase, tsize, true, false, none⟩, []⟩ : Span).Tiled m' :=
    span_of_top htsize hsize (hm' ▸ rfl) (hm' ▸ rfl) (hmem' ▸ hr.head) (hmem' ▸ hr.foot)
  have hspans : ∀ t ∈ S, t.Tiled m' := by
    intro t ht
    have hdisj : Disjoint s.seg.region t.seg.region := by
      have hd := h.ready.layout.disjoint
      rw [← h.segs, List.map_cons, disjointList_cons] at hd
      exact hd.1 t.seg (List.mem_map_of_mem ht)
    refine (h.spans t (List.mem_cons_of_mem s ht)).congr (tail_eq_of_record (h.others t ht))
      fun w hw hw' => ?_
    have hwt : w ∈ t.seg.region := by
      simp only [Segment.region, mem_region]
      omega
    rw [hmem']
    exact hframe w (Finset.disjoint_right.mp (hfresh t (List.mem_cons_of_mem s ht)) hwt)
      fun hws => absurd hwt (Finset.disjoint_left.mp hdisj hws)
  have haligned := h.aligned
  have hleast' := h.least
  have hbins := h.bins
  simp only [List.forall_mem_cons] at haligned hleast'
  constructor
  case ready => exact hready
  case segs => exact hm' ▸ rfl
  case spans => exact List.forall_mem_cons.mpr ⟨hnew, List.forall_mem_cons.mpr ⟨hold, hspans⟩⟩
  case first => simp
  case others => exact List.forall_mem_cons.mpr ⟨by simp, h.others⟩
  case aligned =>
    simp only [List.forall_mem_cons]
    exact ⟨⟨htbase, htsize⟩, haligned⟩
  case least =>
    simp only [List.forall_mem_cons, ← hm', MState.withSegment]
    exact ⟨hleast.2, hleast.1.trans hleast'.1, fun t ht => hleast.1.trans (hleast'.2 t ht)⟩
  case dv => exact hm' ▸ h.dv
  case bins =>
    subst hm'
    simp only [chunks_cons, ofKind_append, List.nil_append, MState.withSegment,
      MState.dvChunk, List.append_assoc] at hbins ⊢
    refine (List.perm_append_comm_assoc ..).trans ((hbins.append_left _).trans ?_)
    exact List.perm_append_comm_assoc ..

/-- The new memory becomes the first segment. -/
theorem addSegment_obtains (maxFootprint : Nat) {leastAddr : Nat} (h : Tiled m (s :: S) [])
    (hg : Granted m tbase tsize) (htbase : tbase % 16 = 0) (htsize : tsize % 16 = 0)
    (hnb : nb % 16 = 0) (hnb' : minChunkSize ≤ nb) (hsize : nb + sysAllocPadding ≤ tsize)
    (hleast : leastAddr ≤ m.leastAddr ∧ leastAddr ≤ tbase) :
    ∃ m', addSegment { m with footprint := addSize m.footprint tsize, maxFootprint, leastAddr }
        tbase tsize true = .ok m' ∧
      Obtains m (ofKind .inuse (chunks (s :: S))) nb (allocateTop m' nb) := by
  have hserved : ∃ m', addSegment
      { m with footprint := addSize m.footprint tsize, maxFootprint, leastAddr } tbase tsize true =
        .ok m' ∧ Served m tbase tsize nb (allocateTop m' nb) :=
    addSegment_served h.ready hg hnb hsize ⟨rfl, rfl, rfl, rfl⟩
  obtain ⟨m', hm', p, -, -, hready⟩ := hserved
  obtain ⟨seg, hseg, hbase, htopend⟩ := h.ready.head
  obtain rfl : s.seg = seg := by simpa [← h.segs] using hseg
  have hsegs : m.segs = s.seg :: S.map Span.seg := h.segs.symm
  have hmem : s.seg ∈ m.segs := by simp [hsegs]
  have hbound := hg.bound
  have hsp := h.ready.layout.bound s.seg hmem
  obtain ⟨-, htopmod, htsmod, hpos, -⟩ := h.top_bounds
  simp only [userEnd] at hbound hsp
  simp only [sysAllocPadding, topFootSize] at hsize
  have hhold : m.segmentHolding m.top = some s.seg := by
    have hholds : s.seg.holds m.top := (h.ready.layout.holds_iff hmem).mpr (by
      simp only [Segment.region, mem_region]
      omega)
    rw [MState.segmentHolding, hsegs, List.find?_cons, hholds]
  obtain ⟨csp, gap, mem, hretired, heq⟩ := addSegment_eq
    (m := { m with footprint := addSize m.footprint tsize, maxFootprint, leastAddr })
    hsegs hhold htopmod htsmod hpos htopend hbase hsp htbase htsize (by omega) hbound
    (hg.fresh s.seg hmem)
  refine ⟨m', hm', ?_⟩
  rw [hm'] at heq
  obtain rfl := Except.ok.inj heq
  have hlt : nb < tsize - 80 := by omega
  rw [allocateTop, if_pos (by exact hlt)] at hready ⊢
  have hready' := hready.of_splitTop hlt
    (show tbase + (tsize - 80) < 2 ^ 64 by omega) htbase
    (fun seg hseg => by
      obtain rfl := Option.some.inj hseg
      exact le_rfl)
  have hret : Retired m mem tbase tsize (s.seg.base + s.seg.size) csp gap :=
    ⟨hretired.tiles, hretired.free, hretired.room, hretired.fence, hretired.head, hretired.foot,
      hretired.frame⟩
  obtain ⟨hm, hkeep⟩ := h.withSegment hg htbase htsize (by omega) hleast hret hready'
  refine ((hm.obtains_top hnb hnb' hlt).perm ?_).of_keeps hkeep
  have hnil : ofKind .inuse gap = [] := by
    simp only [ofKind, List.map_eq_nil_iff, List.filter_eq_nil_iff]
    exact fun c hc => by simp [hretired.free c hc]
  simp [chunks_cons, hnil]

/-! ## In front of a segment -/

theorem Tiled.head_top (h : Tiled m S X) : m.mem (m.top + 8) = m.topsize + 1 := by
  obtain ⟨x, rfl, hbefore, hright, hstart, hpin⟩ := h.hole_at_top
  obtain ⟨-, -, hr⟩ := h.hole_tiles
  rw [hright, h.tail_of_first hbefore] at hr
  obtain ⟨haddr, -, -, htag, -⟩ := hr
  change m.mem (x.start + 8) = tagging.tag .top m.topsize x.pin at htag
  rwa [hstart, hpin] at htag

theorem Tiled.head_dv (h : Tiled m S X) (hdv : m.dvsize ≠ 0) :
    m.mem (m.dv + 8) = m.dvsize + 1 ∧ m.dvsize % 16 = 0 := by
  obtain ⟨x, rfl⟩ := h.hole_of_dv hdv
  obtain ⟨-, hpin, hmod, -, htag⟩ := h.hole_chunk
  have hpin : x.pin = true := by simpa [Kind.used] using hpin
  rw [hpin] at htag
  exact ⟨htag, hmod⟩

theorem alignAsChunk_eq {a : Nat} (ha : a % 16 = 0) (hb : a + 32 < 2 ^ 64) :
    alignAsChunk a = a := by
  obtain ⟨hle, hlt, hmod⟩ := alignAsChunk_spec hb
  omega

/-- A pin bit that is clear need not be cleared. -/
theorem setFreeWithPinuse_of_even (h : m.head n % 2 = 0) :
    m.setFreeWithPinuse p size n = m.setFreeChunk p size := by
  rw [MState.setFreeWithPinuse, h, Nat.sub_zero, MState.setHead, MState.head,
    Function.update_eq_self]

/-- The rest of the new memory is merged with the first chunk behind it, just as a freed chunk. -/
theorem prependAlloc_eq {q qs oldbase : Nat}
    (h : Tiled ((m.setInuseChunk p nb).setHead q (qs ||| 3)) (x.fill [⟨q, qs, .inuse⟩]) [])
    (hp : p % 16 = 0) (hq : p + nb = q) (hold : q + qs = oldbase) :
    prependAlloc m p oldbase nb = (chunk2mem p,
      binned q (consolidateForward (m.setInuseChunk p nb) q qs oldbase)) := by
  have hspec := h.chunk_spec mem_fill_chunk
  have hbits := h.next_bits
  have hnext := h.next_cases
  obtain ⟨-, -, htsmod, -, htopb⟩ := h.top_bounds
  obtain ⟨hstart, -⟩ := h.hole_chunk
  simp only [Chunk.stop, minChunkSize] at hspec
  simp only [stop_cons, stop_nil, Chunk.stop, ← hstart, hold, lastUsed_cons, lastUsed_nil,
    tagging_used, Kind.used, if_true] at hnext hbits
  have hne : addSize oldbase 8 ≠ addSize q 8 := by
    rw [addSize_eq (by omega), addSize_eq (by omega)]
    omega
  have hhead : (m.setInuseChunk p nb).head oldbase =
      ((m.setInuseChunk p nb).setHead q (qs ||| 3)).mem (oldbase + 8) :=
    (head_setHead hne).symm.trans (head_eq (by omega))
  have hcinuse : (m.setInuseChunk p nb).cinuse oldbase ↔
      ((m.setInuseChunk p nb).setHead q (qs ||| 3)).mem (oldbase + 8) / 2 % 2 = 1 := by
    rw [cinuse_iff, hhead]
  have hpsize : subSize oldbase p = nb + qs := by
    rw [subSize_eq (by omega) (by omega)]
    omega
  have hqsize : subSize (nb + qs) nb = qs := by
    rw [subSize_eq (by omega) (by omega)]
    omega
  have hdv : q ≠ (m.setInuseChunk p nb).dv := h.ne_dv
  simp only [prependAlloc, alignAsChunk_eq hp (by omega),
    alignAsChunk_eq (a := oldbase) (by omega) (by omega), hpsize, hqsize,
    addSize_eq (a := p) (b := nb) (by omega), hq]
  generalize m.setInuseChunk p nb = m₁ at *
  have htopw : (m₁.setHead q (qs ||| 3)).mem (m₁.top + 8) = m₁.topsize + 1 := h.head_top
  rcases hnext with hused | ⟨hunused, htop⟩ | ⟨hunused, htop, t, r, hright⟩
  · have htop : oldbase ≠ m₁.top := by
      rintro rfl
      have hmod : m₁.topsize % 16 = 0 := htsmod
      omega
    have hdv' : oldbase ≠ m₁.dv := by
      rintro rfl
      have h0 : m₁.dvsize ≠ 0 := fun h0 => by
        have : m₁.dv = 0 := h.dv h0
        omega
      obtain ⟨hw, hmod⟩ := h.head_dv h0
      change (m₁.setHead q (qs ||| 3)).mem (m₁.dv + 8) = m₁.dvsize + 1 at hw
      change m₁.dvsize % 16 = 0 at hmod
      omega
    have hinuse : m₁.isInuse oldbase = true := by
      rw [isInuse_iff, hhead]
      omega
    simp only [if_neg htop, if_neg hdv', hinuse, if_true, consolidateForward,
      if_pos (hcinuse.mpr hused), binned]
  · have htop : oldbase = m₁.top := htop
    simp only [if_pos htop, consolidateForward, if_neg (mt hcinuse.mp hunused), binned]
    exact congrArg (Prod.mk _) (if_neg hdv).symm
  · have htop : oldbase ≠ m₁.top := htop
    have hinuse : m₁.isInuse oldbase = false := by
      rw [Bool.eq_false_iff, ne_eq, isInuse_iff, hhead]
      omega
    simp only [if_neg htop, consolidateForward, if_neg (mt hcinuse.mp hunused)]
    split
    case isTrue hn => rfl
    case isFalse hn =>
      let y : Hole := { x with right := r }
      have hy : x.fill [⟨q, qs, .inuse⟩] = y.fill [⟨q, qs, .inuse⟩, ⟨oldbase, t, .free⟩] :=
        x.fill_cons_right _ _ _ hright
      rw [hy] at h
      have htspec := h.chunk_spec (c := ⟨oldbase, t, .free⟩) ((y.perm _).mem_iff.mpr (by simp))
      have hstart' : q = y.start := h.hole_pair.1
      simp only [Chunk.stop] at htspec
      have hsize : m₁.chunksize oldbase = t := by
        have := h.tagged_next.chunksize
        rwa [MState.chunksize, head_setHead hne] at this
      have heven : (m₁.unlinkChunk oldbase t).head (addSize oldbase t) % 2 = 0 := by
        have hbit := h.next_bits.1
        simp only [stop_cons, stop_nil, Chunk.stop, ← hstart', hold, lastUsed_cons, lastUsed_nil,
          tagging_used, Kind.used, Bool.false_eq_true, if_false] at hbit
        rw [addSize_eq (a := oldbase) (b := t) (by omega)]
        change m₁.head (oldbase + t) % 2 = 0
        rwa [← head_setHead (q := q) (v := qs ||| 3) (by
          rw [addSize_eq (by omega), addSize_eq (by omega)]
          omega), head_eq (by omega)]
      simp only [hinuse, Bool.false_eq_true, if_false, hsize, setFreeWithPinuse_of_even heven]
      rw [if_neg (by exact hdv), binned]

/-- New memory stands in front of a segment, as two chunks in use. -/
theorem Tiled.extendFront (maxFootprint : Nat) {leastAddr : Nat}
    (h : Tiled m (S₁ ++ s :: S₂) []) (hg : Granted m tbase tsize)
    (htbase : tbase % 16 = 0) (htsize : tsize % 16 = 0)
    (hnb : nb % 16 = 0) (hnb' : minChunkSize ≤ nb) (hsize : nb + sysAllocPadding ≤ tsize)
    (hleast : leastAddr ≤ m.leastAddr ∧ leastAddr ≤ tbase) (hstart : s.seg.base = tbase + tsize)
    (hm' : m' = ({ m with
      footprint := addSize m.footprint tsize
      maxFootprint
      leastAddr
      segs := S₁.map Span.seg ++
        { s.seg with base := tbase, size := s.seg.size + tsize } :: S₂.map Span.seg
      }.setInuseChunk tbase nb).setHead (tbase + nb) (tsize - nb ||| 3)) :
    Tiled m' (S₁ ++ ⟨{ s.seg with base := tbase, size := s.seg.size + tsize },
        ⟨tbase, nb, .inuse⟩ :: ⟨tbase + nb, tsize - nb, .inuse⟩ :: s.body⟩ :: S₂) [] ∧
      Keeps m m' (ofKind .inuse (chunks (S₁ ++ s :: S₂))) := by
  have hsegs : m.segs = S₁.map Span.seg ++ s.seg :: S₂.map Span.seg := by simp [← h.segs]
  have hready : Ready { m with
      footprint := addSize m.footprint tsize
      maxFootprint
      leastAddr
      segs := S₁.map Span.seg ++
        { s.seg with base := tbase, size := s.seg.size + tsize } :: S₂.map Span.seg } :=
    prepend_ready (show Ready m from h.ready) hg hsegs hstart
      (show Same (m.addFootprint tsize) { m with
        footprint := addSize m.footprint tsize, maxFootprint, leastAddr } from ⟨rfl, rfl, rfl, rfl⟩)
  have hbound := hg.bound
  simp only [userEnd] at hbound
  simp only [sysAllocPadding, topFootSize, minChunkSize] at hsize hnb'
  rw [setInuseChunk_eq (by omega) hnb, or_of_aligned (by omega) (by decide),
    setHead_eq (by omega)] at hm'
  have hmem' : m'.mem = Function.update (Function.update m.mem (tbase + 8) (nb + 3))
      (tbase + nb + 8) (tsize - nb + 3) := hm' ▸ rfl
  have hsame : ∀ w, w ∉ region tbase tsize → m'.mem w = m.mem w := fun w hw => by
    simp only [mem_region] at hw
    rw [hmem', Function.update_of_ne (by omega), Function.update_of_ne (by omega)]
  have hfresh : ∀ t ∈ S₁ ++ s :: S₂, ∀ w ∈ t.seg.region, m'.mem w = m.mem w :=
    fun t ht w hw => hsame w <|
      Finset.disjoint_right.mp (hg.fresh t.seg (h.segs ▸ List.mem_map_of_mem ht)) hw
  have hs := h.spans s (by simp)
  have haligned := h.aligned s (by simp)
  have htail : ∀ sp, m'.tail sp = m.tail sp := hm' ▸ fun _ => rfl
  have hmid : Tiles tagging m'.mem true tbase (⟨tbase, nb, .inuse⟩ ::
      ⟨tbase + nb, tsize - nb, .inuse⟩ :: (s.body ++ [m.tail s.seg])) := by
    refine ⟨rfl, .inl rfl, ⟨hnb, hnb'⟩, ?_, by simp [tagging], rfl, .inl rfl,
      ⟨by dsimp only; omega, by simp only [Kind.fits, minChunkSize]; omega⟩, ?_,
      by simp [tagging], ?_⟩
    · rw [hmem', Function.update_of_ne (by omega), Function.update_self]
      rfl
    · rw [hmem']
      exact Function.update_self ..
    · have hend : (⟨tbase + nb, tsize - nb, .inuse⟩ : HeapChunk).stop = s.seg.base := by
        simp only [Chunk.stop]
        omega
      rw [hend]
      refine hs.tiles.congr_of_between fun w hw hw' => hfresh s (by simp) w ?_
      have hroom := hs.room
      have hfoot := s.seg.le_footSize
      simp only [stop_append, stop_cons, stop_nil] at hw'
      simp only [Segment.region, mem_region]
      omega
  have hspan : (⟨{ s.seg with base := tbase, size := s.seg.size + tsize }, ⟨tbase, nb, .inuse⟩ ::
      ⟨tbase + nb, tsize - nb, .inuse⟩ :: s.body⟩ : Span).Tiled m' := by
    constructor
    case body =>
      simp only [List.forall_mem_cons, true_or, true_and]
      exact hs.body
    case tiles => exact (htail _).symm ▸ hmid
    case room =>
      rw [htail]
      have hroom := hs.room
      change (m.tail s.seg).stop + s.seg.footSize ≤ tbase + (s.seg.size + tsize)
      omega
    case foot =>
      rw [htail]
      refine (hfresh s (by simp) _ ?_).trans hs.foot
      have hroom := hs.room
      have hfoot := s.seg.le_footSize
      have hle := hs.tiles.le_stop
      simp only [stop_append, stop_cons, stop_nil] at hle
      simp only [Segment.region, mem_region]
      change s.seg.base ≤ (m.tail s.seg).stop + 8 ∧ (m.tail s.seg).stop + 8 < _
      omega
  have hbins := h.bins
  have hready' : Ready m' := hready.of_same (by rw [hm']; exact ⟨rfl, rfl, rfl, rfl⟩)
  refine ⟨h.update hready' (by simp [hm']) hspan Iff.rfl
    ⟨htbase, ?_⟩ (fun t ht w hw => hfresh t ?_ w hw) (hm' ▸ .inr ⟨rfl, rfl⟩) (hm' ▸ hleast.1)
    (hm' ▸ hleast.2) (hm' ▸ h.dv) ?_, fun b hb w hw hw' => ?_⟩
  · dsimp only
    omega
  · exact (List.sublist_cons_self s S₂).append_left S₁ |>.subset ht
  · rw [hm']
    simpa [MState.dvChunk] using hbins
  · obtain ⟨t, ht, hc⟩ := List.mem_flatMap.mp (mem_ofKind.mp hb)
    have hbounds := h.chunk_bounds ht hc
    simp only [Chunk.stop] at hbounds
    refine hfresh t ht w ?_
    simp only [Segment.region, mem_region]
    omega

theorem prepend_obtains {sp : Segment} {maxFootprint leastAddr : Nat} (h : Tiled m S [])
    (hg : Granted m tbase tsize) (htbase : tbase % 16 = 0) (htsize : tsize % 16 = 0)
    (hnb : nb % 16 = 0) (hnb' : minChunkSize ≤ nb) (hsize : nb + sysAllocPadding ≤ tsize)
    (hleast : leastAddr ≤ m.leastAddr ∧ leastAddr ≤ tbase)
    (ht : prependTarget m tbase tsize = some sp) :
    Obtains m (ofKind .inuse (chunks S)) nb (prependAlloc { m with
      footprint := addSize m.footprint tsize
      maxFootprint
      leastAddr
      segs := updateFirst (fun sp => sp.base == addSize tbase tsize)
        (fun sp => { sp with base := tbase, size := addSize sp.size tsize }) m.segs }
      tbase sp.base nb) := by
  obtain ⟨hstart, l₁, l₂, hl, hl'⟩ := updateFirst_of_find?
    (g := fun sp => { sp with base := tbase, size := addSize sp.size tsize })
    (prependTarget_eq_some ht)
  obtain ⟨S₁, S₂', rfl, rfl, hS₂⟩ := List.map_eq_append_iff.mp (h.segs.trans hl)
  obtain ⟨s, S₂, rfl, rfl, rfl⟩ := List.map_eq_cons_iff.mp hS₂
  have hsp := h.ready.layout.bound s.seg (by simp [hl])
  have hbound := hg.bound
  simp only [userEnd] at hbound hsp
  rw [beq_iff_eq, addSize_eq (by omega)] at hstart
  rw [hl', addSize_eq (a := s.seg.size) (by omega)]
  obtain ⟨hm, hkeep⟩ := h.extendFront maxFootprint hg htbase htsize hnb hnb' hsize
    hleast hstart rfl
  simp only [sysAllocPadding, topFootSize, minChunkSize] at hsize hnb'
  let x : Hole := ⟨S₁, { s.seg with base := tbase, size := s.seg.size + tsize },
    [⟨tbase, nb, .inuse⟩], s.body, S₂⟩
  have hend : tbase + nb + (tsize - nb) = s.seg.base := by omega
  have hne : addSize s.seg.base 8 ≠ addSize (tbase + nb) 8 := by
    rw [addSize_eq (by omega), addSize_eq (by omega)]
    omega
  obtain ⟨hblocks, hkeep'⟩ := forward_spec (x := x) hm rfl
  rw [hend, consolidateForward_setHead hne] at hblocks hkeep'
  have hprepend := prependAlloc_eq (x := x) hm htbase rfl hend
  have hU : (ofKind .inuse x.others).Perm
      ((tbase, nb) :: ofKind .inuse (chunks (S₁ ++ s :: S₂))) := by
    simp only [x, Hole.others, chunks_append, chunks_cons, ofKind_append, ofKind_cons,
      if_true, entry, List.append_assoc, List.cons_append, List.nil_append]
    exact List.perm_middle
  refine (congrArg (Obtains m _ nb) hprepend).mpr ?_
  exact ⟨tbase, nb, rfl, le_rfl, by simp only [minChunkSize]; omega, hblocks.perm hU,
    hkeep.trans (hkeep'.mono fun b hb => hU.symm.subset (List.mem_cons_of_mem _ hb))⟩

/-- Enough new memory is put to use: the request is served from it. -/
theorem place_obtains (h : Tiled m S []) (hg : Granted m tbase tsize) (htbase : tbase % 16 = 0)
    (htsize : tsize % 16 = 0) (hnb : nb % 16 = 0) (hnb' : minChunkSize ≤ nb)
    (hsize : nb + sysAllocPadding ≤ tsize) :
    ∃ r, place m tbase tsize nb = .ok r ∧ Obtains m (ofKind .inuse (chunks S)) nb r := by
  have hinit : (m.addFootprint tsize).isInitialized = true := h.ready.isInitialized
  simp only [place, hinit, Bool.not_true, Bool.false_eq_true, if_false]
  cases happend : appendTarget (m.addFootprint tsize) tbase with
  | some sp => exact ⟨_, rfl, append_obtains h hg htsize hnb hnb' hsize happend⟩
  | none =>
    have hleast : min tbase m.leastAddr ≤ m.leastAddr ∧ min tbase m.leastAddr ≤ tbase :=
      ⟨min_le_right .., min_le_left ..⟩
    dsimp only
    split
    case h_1 sp hprepend =>
      exact ⟨_, rfl, prepend_obtains h hg htbase htsize hnb hnb' hsize hleast hprepend⟩
    case h_2 =>
      obtain ⟨s, S, rfl⟩ := h.exists_cons
      obtain ⟨m', hm', hobtains⟩ := addSegment_obtains
        (m.addFootprint tsize).maxFootprint h hg htbase htsize hnb hnb' hsize
        hleast
      exact ⟨_, Except.bind_eq_ok.mpr ⟨m', hm', rfl⟩, hobtains⟩

end PrecisionGc.Dlmalloc
