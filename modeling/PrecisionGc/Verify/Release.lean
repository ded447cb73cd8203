import PrecisionGc.Verify.Placement

/-!
# Extending and giving back

Between the calls the heap is tiled, with the blocks that are in use as its chunks in use, or
nothing has been allocated yet. `sys_alloc` serves a request or leaves the heap alone; `sys_trim`
and `release_unused_segments` take only memory that no block is in.
-/

namespace PrecisionGc.Dlmalloc
open Regions BoundaryTags

variable {m m' : MState} {S S₁ S₂ : List Span} {s : Span} {X U : List (Nat × Nat)} {x : Hole}
  {p size nb : Nat} {munmap shrink : Nat → Nat → Bool}

/-- The heap between two calls, with the blocks `U` in use. -/
def Held (m : MState) (U : List (Nat × Nat)) : Prop := Blocks m U [] ∨ Pristine m ∧ U = []

theorem Held.perm {U' : List (Nat × Nat)} (h : Held m U) (hU : U.Perm U') : Held m U' := by
  rcases h with h | ⟨h, rfl⟩
  · exact .inl (h.perm hU)
  · exact .inr ⟨h, hU.nil_eq.symm⟩

/-- A heap with a block in use is tiled. -/
theorem Held.blocks {V : List (Nat × Nat)} {b : Nat × Nat} (h : Held m U) (hU : U.Perm (b :: V)) :
    Blocks m (b :: V) [] := by
  rcases h with h | ⟨-, rfl⟩
  · exact h.perm hU
  · exact absurd hU.nil_eq (List.cons_ne_nil b V).symm

/-! ## `release_unused_segments` -/

namespace Tiled

/-- The segment of a loose chunk that takes all of it goes away. -/
theorem dropSpan (h : Tiled m (S₁ ++ s :: S₂) ((p, size) :: X)) (hne : S₁ ≠ [])
    (hbody : s.body = [⟨p, size, .free⟩]) :
    Tiled { m with
      segs := (S₁ ++ S₂).map Span.seg
      footprint := subSize m.footprint s.seg.size } (S₁ ++ S₂) X := by
  have hsegs : m.segs = S₁.map Span.seg ++ s.seg :: S₂.map Span.seg := by simp [← h.segs]
  have hsub : ∀ t ∈ S₁ ++ S₂, t ∈ S₁ ++ s :: S₂ := fun t ht =>
    (List.sublist_cons_self s S₂).append_left S₁ |>.subset ht
  obtain ⟨t, S₁, rfl⟩ := List.exists_cons_of_ne_nil hne
  have hfoot := h.ready.footprint
  have hle := h.ready.footprint_le
  simp only [userEnd] at hle
  simp only [hsegs, List.map_append, List.map_cons, List.sum_append, List.sum_cons] at hfoot
  have hready : Ready { m with
      segs := (t :: S₁ ++ S₂).map Span.seg, footprint := subSize m.footprint s.seg.size } := by
    constructor
    case layout =>
      refine h.ready.layout.sublist ?_
      rw [hsegs, List.map_append]
      exact (List.sublist_cons_self ..).append_left _
    case aligned => exact h.ready.aligned
    case topsize_pos => exact h.ready.topsize_pos
    case head => simpa [hsegs] using h.ready.head
    case footprint =>
      simp only [List.cons_append, List.map_cons, List.map_append, List.sum_cons, List.sum_append]
      rw [subSize_eq (by omega) (by omega)]
      omega
  constructor
  case ready => exact hready
  case segs => rfl
  case spans => exact fun t ht => (h.spans t (hsub t ht)).congr rfl fun _ _ _ => rfl
  case first => exact h.first
  case others =>
    exact fun t ht => h.others t <| (List.sublist_cons_self s S₂).append_left S₁ |>.subset ht
  case aligned => exact fun t ht => h.aligned t (hsub t ht)
  case least => exact fun t ht => h.least t (hsub t ht)
  case dv => exact h.dv
  case bins =>
    have hbins := h.bins
    simp only [chunks_append, chunks_cons, hbody, ofKind_append, ofKind_cons, ofKind_nil, if_true,
      entry] at hbins ⊢
    exact (List.perm_middle.symm.trans hbins).cons_inv

/-- The first chunk of a segment is unused and reaches to the end: it is the only one, and free. -/
theorem single_free (h : Tiled m (S₁ ++ s :: S₂) X) (hrecord : s.seg.record ≠ none)
    (hunused : m.isInuse s.seg.base = false)
    (hend : subSize (addSize s.seg.base s.seg.size) topFootSize ≤
      addSize s.seg.base (m.chunksize s.seg.base)) :
    s.body = [⟨s.seg.base, m.chunksize s.seg.base, .free⟩] := by
  have hs := h.spans s (by simp)
  have hmem : s.seg ∈ m.segs := by simp [← h.segs]
  have hbound := h.ready.layout.bound _ hmem
  have hroom := hs.room
  have htiles := hs.tiles
  simp only [userEnd] at hbound
  have htail : (m.tail s.seg).kind = .record ∧ (m.tail s.seg).size = 48 ∧ s.seg.footSize = 32 := by
    cases hr : s.seg.record with
    | none => exact absurd hr hrecord
    | some ss => simp [MState.tail, hr, Segment.footSize]
  have htagged : ∀ c : HeapChunk, c.size % 16 = 0 →
      m.mem (s.seg.base + 8) = tagging.tag c.kind c.size true →
      Tagged m s.seg.base c.size c.kind true := fun c hmod htag => by
    have := hs.tiles.le_stop
    simp only [stop_append, stop_cons, stop_nil] at this
    exact ⟨(head_eq (by omega)).trans htag, hmod⟩
  cases hbody : s.body with
  | nil =>
    rw [hbody] at htiles
    obtain ⟨-, -, ⟨hmod, -⟩, htag, -⟩ := htiles
    have := (htagged _ hmod htag).isInuse (by rw [htail.1]; rfl)
    simp [hunused] at this
  | cons c l =>
    rw [hbody] at htiles
    obtain ⟨haddr, -, ⟨hmod, -⟩, htag, -, hl⟩ := htiles
    have htagged := htagged _ hmod htag
    have hkind : c.kind = .free := by
      rcases hs.body c (by simp [hbody]) with hk | hk
      · have := htagged.isInuse (by rw [hk]; rfl)
        simp [hunused] at this
      · exact hk
    have hstop := (tiles_append.mp hs.tiles).1.bounds (c := c) (by simp [hbody])
    have hle := (tiles_append.mp hs.tiles).2.bounds (c := m.tail s.seg) (by simp)
    simp only [Chunk.stop] at hstop hle hroom
    rw [htagged.chunksize, addSize_eq (by omega), addSize_eq (by omega), topFootSize,
      subSize_eq (by omega) (by omega)] at hend
    rw [htagged.chunksize]
    have hnil : l = [] := by
      cases l with
      | nil => rfl
      | cons d l =>
        obtain ⟨-, hdfits⟩ := hl.valid (c := d) (by simp)
        have hapart := (List.pairwise_cons.mp hl.pairwise).1 (m.tail s.seg) (by simp)
        have hfits : 32 ≤ d.size := by
          rcases hs.body d (by simp [hbody]) with hk | hk <;>
            simpa [hk, Kind.fits, minChunkSize] using hdfits
        have hdaddr : d.addr = c.stop := hl.1
        simp only [Chunk.stop, htail] at hapart hroom hdaddr
        omega
    rw [hnil, ← hkind, ← haddr]

end Tiled

/-- What the release of segments leaves of `Q`, behind the segments `P`. -/
def Released (m : MState) (P Q : List Span) (r : List Segment × MState × Nat) : Prop :=
  ∃ Q', r.1 = Q'.map Span.seg ∧
    Tiled { r.2.1 with segs := (P ++ Q').map Span.seg } (P ++ Q') [] ∧ r.2.1.mem = m.mem ∧
    ofKind .inuse (chunks Q') = ofKind .inuse (chunks Q)

theorem releaseLoop_tiled (munmap : Nat → Nat → Bool) {P Q : List Span} (hP : P ≠ [])
    (released : Nat) (h : Tiled { m with segs := (P ++ Q).map Span.seg } (P ++ Q) []) :
    Released m P Q (releaseLoop munmap (Q.map Span.seg) m released) := by
  induction Q generalizing P m released with
  | nil => exact ⟨[], rfl, h, rfl, rfl⟩
  | cons s Q ih =>
    -- the segment stays
    have hkeep : ∀ {m₁ : MState} (released : Nat), m₁.mem = m.mem →
        Tiled { m₁ with segs := (P ++ s :: Q).map Span.seg } (P ++ s :: Q) [] →
        Released m P (s :: Q) (s.seg :: (releaseLoop munmap (Q.map Span.seg) m₁ released).1,
          (releaseLoop munmap (Q.map Span.seg) m₁ released).2) := by
      intro m₁ released hmem h₁
      obtain ⟨Q', hr, hm, hmem', hinuse⟩ := ih (P := P ++ [s]) (m := m₁) (by simp) released
        (by simpa using h₁)
      refine ⟨s :: Q', by rw [hr, List.map_cons], by simpa using hm, hmem'.trans hmem, ?_⟩
      simp [chunks_cons, hinuse]
    have hrecord : s.seg.record ≠ none := by
      obtain ⟨t, P, rfl⟩ := List.exists_cons_of_ne_nil hP
      exact h.others s (by simp)
    have hmem : s.seg ∈ (P ++ s :: Q).map Span.seg := by simp
    have hbound := h.ready.layout.bound _ hmem
    have halign : alignAsChunk s.seg.base = s.seg.base :=
      alignAsChunk_eq (h.aligned s (by simp)).1 (by simp only [userEnd] at hbound; omega)
    rw [List.map_cons, releaseLoop, halign]
    dsimp only
    split
    case isFalse => exact hkeep released rfl h
    case isTrue hcond =>
    simp only [Bool.and_eq_true, Bool.not_eq_true', decide_eq_true_eq] at hcond
    have hbody := h.single_free hrecord hcond.1.2 hcond.2
    change s.body = [⟨s.seg.base, m.chunksize s.seg.base, .free⟩] at hbody
    generalize m.chunksize s.seg.base = psize at hbody ⊢
    generalize hm₁ : (if s.seg.base = m.dv then { m with dv := 0, dvsize := 0 }
      else m.unlinkChunk s.seg.base psize) = m₁
    have h₁ : m₁.mem = m.mem ∧ Tiled { m₁ with segs := (P ++ s :: Q).map Span.seg } (P ++ s :: Q)
        [(s.seg.base, psize)] := by
      rw [← hm₁]
      have hc : ⟨s.seg.base, psize, .free⟩ ∈ chunks (P ++ s :: Q) := by simp [chunks_cons, hbody]
      rcases h.free_cases hc with ⟨hdvsize, hdv, rfl⟩ | ⟨hdv, hbin⟩
      · have hclear := h.clearDv
        rw [MState.dvChunk, if_neg hdvsize, ← hdv] at hclear
        rw [if_pos (by exact hdv)]
        exact ⟨rfl, hclear⟩
      · rw [if_neg (by exact hdv)]
        exact ⟨rfl, h.unlink hbin⟩
    split
    · obtain ⟨Q', hr, hm, hmem', hinuse⟩ := ih (m := { m₁ with
        footprint := subSize m₁.footprint s.seg.size }) hP (addSize released s.seg.size)
        (h₁.2.dropSpan hP hbody)
      exact ⟨Q', hr, hm, hmem'.trans h₁.1, by simp [chunks_cons, hbody, hinuse]⟩
    · exact hkeep released h₁.1 h₁.2.insert

/-- Releasing unused segments takes no block away, and writes nothing. -/
theorem Blocks.releaseUnusedSegments (h : Blocks m U []) (munmap : Nat → Nat → Bool) :
    Blocks (releaseUnusedSegments munmap m).1 U [] ∧
      (releaseUnusedSegments munmap m).1.mem = m.mem := by
  obtain ⟨S, hS, hU⟩ := h
  obtain ⟨s, S, rfl⟩ := hS.exists_cons
  obtain ⟨Q', hr, hm, hmem, hinuse⟩ := releaseLoop_tiled munmap (P := [s]) (Q := S)
    (m := m) (by simp) 0 (by rwa [List.singleton_append, hS.segs])
  unfold Dlmalloc.releaseUnusedSegments
  rw [← hS.segs, List.map_cons]
  dsimp only
  refine ⟨⟨s :: Q', ?_, ?_⟩, hmem⟩
  · rw [hr]
    exact hm
  · simpa [chunks_cons, hinuse] using hU

/-! ## `sys_trim` -/

/-- Neither the threshold for trimming nor the limit of the footprint concerns the tiling. -/
theorem Tiled.retrim {trimCheck footprintLimit : Nat} (h : Tiled m S X) :
    Tiled { m with trimCheck, footprintLimit } S X where
  ready := h.ready.of_same ⟨rfl, rfl, rfl, rfl⟩
  segs := h.segs
  spans s hs := (h.spans s hs).congr rfl fun _ _ _ => rfl
  first := h.first
  others := h.others
  aligned := h.aligned
  least := h.least
  dv := h.dv
  bins := h.bins

/-- `top` is cut, and no block with it. -/
theorem Blocks.trimTop {pad : Nat} (h : Blocks m U []) (shrink : Nat → Nat → Bool)
    (hpad : topFootSize ≤ pad) (hlt : pad < m.topsize) :
    Blocks (trimTop shrink m pad).1 U [] ∧ Keeps m (trimTop shrink m pad).1 U := by
  obtain ⟨S, hS, hU⟩ := h
  have hready := hS.ready.trimTop shrink hpad hlt
  obtain ⟨s, S, rfl⟩ := hS.exists_cons
  obtain ⟨-, htopmod, htsmod, hpos, hbound⟩ := hS.top_bounds
  have hextra := trimExtra_spec hlt (by omega)
  have hmod : trimExtra m.topsize pad % 16 = 0 := by
    simp only [trimExtra, granularity]
    omega
  simp only [topFootSize] at hpad
  unfold Dlmalloc.trimTop at hready ⊢
  dsimp only at hready ⊢
  split at hready
  case h_1 hfind => exact ⟨⟨_, hS, hU⟩, .of_mem rfl⟩
  case h_2 sp hfind =>
  split at hready
  case isFalse hcond =>
    rw [if_neg hcond]
    exact ⟨⟨_, hS, hU⟩, .of_mem rfl⟩
  case isTrue hcond =>
  rw [if_pos hcond]
  have hholds : sp.holds m.top := List.find?_some (p := fun sp => Segment.holds sp m.top) hfind
  generalize trimExtra m.topsize pad = extra at hready hcond hextra hmod ⊢
  obtain ⟨rfl, -, hsegs⟩ := hS.first_of_find?
    (g := fun sp => { sp with size := subSize sp.size extra }) hfind hholds
  obtain ⟨seg, hseg, hbase, htopend⟩ := hS.ready.head
  obtain rfl : s.seg = seg := by simpa [← hS.segs] using hseg
  have hsp := hS.ready.layout.bound s.seg (by simp [← hS.segs])
  simp only [userEnd] at hsp
  simp only [topFootSize] at htopend
  have hsz : subSize s.seg.size extra = s.seg.size - extra := subSize_eq (by omega) (by omega)
  have hts : subSize m.topsize extra = m.topsize - extra := subSize_eq (by omega) (by omega)
  rw [hsegs, hsz, hts] at hready ⊢
  obtain ⟨hm, hkeep⟩ := hS.resizeTop (by rfl) (by rfl) (by rfl) (by exact ⟨rfl, rfl, rfl⟩) hready
    (by omega) (by simp only [topFootSize]; omega)
  exact ⟨⟨_, hm, by simpa [chunks_cons] using hU⟩, hkeep.mono hU.symm.subset⟩

/-- Trimming the heap takes no block away, and leaves what is in the blocks. -/
theorem Blocks.sysTrim (h : Blocks m U []) (shrink munmap : Nat → Nat → Bool) (pad : Nat) :
    Blocks (sysTrim shrink munmap m pad).1 U [] ∧ Keeps m (sysTrim shrink munmap m pad).1 U := by
  unfold Dlmalloc.sysTrim
  split
  case isFalse => exact ⟨h, .of_mem rfl⟩
  case isTrue hpad =>
  rw [Bool.and_eq_true, decide_eq_true_iff] at hpad
  have hadd : addSize pad topFootSize = pad + topFootSize :=
    addSize_eq (by simp only [topFootSize]; omega)
  rw [hadd]
  have htrim : ∃ t, (if pad + topFootSize < m.topsize then
      Dlmalloc.trimTop shrink m (pad + topFootSize) else (m, 0)) = t ∧
      Blocks t.1 U [] ∧ Keeps m t.1 U := by
    refine ⟨_, rfl, ?_⟩
    split
    · exact h.trimTop shrink (Nat.le_add_left ..) ‹_›
    · exact ⟨h, .of_mem rfl⟩
  obtain ⟨t, ht, hblocks, hkeep⟩ := htrim
  dsimp only
  rw [ht]
  obtain ⟨hrelease, hmem⟩ := hblocks.releaseUnusedSegments munmap
  split
  · obtain ⟨S, hS, hU⟩ := hrelease
    refine ⟨⟨S, ?_, hU⟩, hkeep.trans (.of_mem hmem)⟩
    exact hS.retrim
  · exact ⟨hrelease, hkeep.trans (.of_mem hmem)⟩

/-! ## `sys_alloc` -/

/-- The request fails and the heap is as it was, or there is a block for it. -/
def Serves (m : MState) (U : List (Nat × Nat)) (nb : Nat) (r : Nat × MState) : Prop :=
  r = (0, m) ∨ Obtains m U nb r

/-- What the operating system may answer: pages that no segment has. -/
def Maps (m : MState) (mmap : Nat → Option Nat) : Prop :=
  ∀ size a, mmap size = some a → Granted m a size ∧ a % 16 = 0

theorem Held.sysAlloc_serves {mmap : Nat → Option Nat} (h : Held m U) (hmap : Maps m mmap)
    (hnb : nb = maxSizeT ∨ Padded nb ∧ minChunkSize ≤ nb)
    (hext : Recomputes m nb → Extensible m nb) :
    ∃ r, sysAlloc mmap m (getHeapSize m) nb = .ok r ∧ Serves m U nb r := by
  rcases hnb with rfl | ⟨hnb, hnb'⟩
  · exact ⟨_, sysAlloc_maxSizeT _, .inl rfl⟩
  rw [sysAlloc_eq hnb.lt_maxSizeT]
  split
  · exact ⟨_, rfl, .inl rfl⟩
  split
  · exact ⟨_, rfl, .inl rfl⟩
  rename_i htest hlimit
  dsimp only
  split
  · exact ⟨_, rfl, .inl rfl⟩
  rename_i tbase hmmap
  obtain ⟨hg, hmod⟩ := hmap _ _ hmmap
  rcases h with ⟨S, hS, hU⟩ | ⟨h, rfl⟩
  · have hrec : Recomputes m nb := ⟨hS.ready.isInitialized, by omega, by simpa using hlimit⟩
    rw [if_pos hS.ready.isInitialized] at hg ⊢
    have hsize : extensionSize (getHeapSize m) nb % 16 = 0 := by
      have := hnb.1
      rw [hS.ready.extensionSize_eq hnb (hext hrec)]
      omega
    obtain ⟨r, hr, hobtains⟩ := place_obtains hS hg hmod hsize hnb.1 hnb'
      (hS.ready.padding_le hnb (hext hrec))
    exact ⟨r, hr, .inr (hobtains.perm hU)⟩
  · rw [h.isInitialized, if_neg Bool.false_ne_true] at hg ⊢
    have hsize : requestedSize nb % 16 = 0 := by
      simp only [requestedSize, granularityAlign, granularity]
      omega
    obtain ⟨r, hr, hobtains⟩ := place_first_obtains h hg hmod hsize hnb.1 hnb'
      (requestedSize_spec (by omega))
    exact ⟨r, hr, .inr hobtains⟩

end PrecisionGc.Dlmalloc
