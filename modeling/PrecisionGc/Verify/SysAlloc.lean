import PrecisionGc.Model.SysAlloc
import PrecisionGc.Library.Runs

/-!
# The segments and the top chunk

What holds of the segments and of `top` between the calls of the system layer, and that placing
enough new memory keeps it: the new memory is appended to the segment around `top`, prepended to a
segment, or becomes a segment of its own.
-/

namespace PrecisionGc.Dlmalloc
open Regions

/-! ## Arithmetic in `size_t` -/

theorem addSize_eq {a b : Nat} (h : a + b < 2 ^ 64) : addSize a b = a + b :=
  Nat.mod_eq_of_lt h

theorem subSize_eq {a b : Nat} (ha : a < 2 ^ 64) (hb : b ≤ a) : subSize a b = a - b := by
  unfold subSize
  omega

theorem alignOffset_spec (a : Nat) : alignOffset a < 16 ∧ (a + alignOffset a) % 16 = 0 := by
  unfold alignOffset
  split <;> omega

theorem chunk2mem_eq {p : Nat} (h : p + 16 < 2 ^ 64) : chunk2mem p = p + 16 := addSize_eq h

/-- The chunk at an address starts at the next multiple of 16. -/
theorem alignAsChunk_spec {a : Nat} (h : a + 32 < 2 ^ 64) :
    a ≤ alignAsChunk a ∧ alignAsChunk a < a + 16 ∧ alignAsChunk a % 16 = 0 := by
  obtain ⟨hlt, hmod⟩ := alignOffset_spec (chunk2mem a)
  rw [chunk2mem_eq (by omega)] at hlt hmod
  unfold alignAsChunk
  rw [chunk2mem_eq (by omega), addSize_eq (by omega)]
  omega

/-! ## Segments -/

/-- User addresses lie below this one, with five levels of page tables too. -/
def userEnd : Nat := 2 ^ 56

/-- Segments that are disjoint, below `userEnd`, and with room for the alignment of a chunk. -/
structure Layout (segs : List Segment) : Prop where
  disjoint : DisjointList Segment.region segs
  pos : ∀ sp ∈ segs, 0 < sp.base
  room : ∀ sp ∈ segs, 32 ≤ sp.size
  bound : ∀ sp ∈ segs, sp.base + sp.size ≤ userEnd

namespace Layout

variable {segs l₁ l₂ : List Segment} {sp sp' : Segment}

theorem holds_iff (h : Layout segs) (hsp : sp ∈ segs) {a : Nat} :
    sp.holds a ↔ a ∈ sp.region := by
  have := h.bound sp hsp
  simp only [userEnd] at this
  simp [Segment.holds, Segment.region, addSize_eq (a := sp.base) (b := sp.size) (by omega)]

theorem addSize_base (h : Layout segs) (hsp : sp ∈ segs) :
    addSize sp.base sp.size = sp.base + sp.size := by
  have := h.bound sp hsp
  simp only [userEnd] at this
  exact addSize_eq (by omega)

theorem sublist {l : List Segment} (h : Layout segs) (hl : l.Sublist segs) : Layout l where
  disjoint := h.disjoint.sublist hl
  pos sp hsp := h.pos sp (hl.subset hsp)
  room sp hsp := h.room sp (hl.subset hsp)
  bound sp hsp := h.bound sp (hl.subset hsp)

theorem nil : Layout [] where
  disjoint := List.Pairwise.nil
  pos := nofun
  room := nofun
  bound := nofun

/-- The segments together take no more than the user addresses. -/
theorem sum_le (h : Layout segs) : (segs.map Segment.size).sum ≤ userEnd := by
  have hsum : (segs.map fun sp => sp.region.card).sum ≤ userEnd :=
    h.disjoint.sum_card_le fun sp hsp =>
      region_subset (Nat.zero_le _) (by simpa using h.bound sp hsp)
  simpa [Segment.region, card_region] using hsum

/-- A new segment in front of the others. -/
theorem push (h : Layout segs) (hpos : 0 < sp.base) (hroom : 32 ≤ sp.size)
    (hbound : sp.base + sp.size ≤ userEnd) (hfresh : ∀ t ∈ segs, Disjoint sp.region t.region) :
    Layout (sp :: segs) where
  disjoint := disjointList_cons.mpr ⟨hfresh, h.disjoint⟩
  pos := List.forall_mem_cons.mpr ⟨hpos, h.pos⟩
  room := List.forall_mem_cons.mpr ⟨hroom, h.room⟩
  bound := List.forall_mem_cons.mpr ⟨hbound, h.bound⟩

theorem forall_mem_middle {p : Segment → Prop} (h : ∀ t ∈ l₁ ++ sp :: l₂, p t) (hp : p sp') :
    ∀ t ∈ l₁ ++ sp' :: l₂, p t := by
  simp only [List.mem_append, List.mem_cons] at h ⊢
  rintro t (ht | rfl | ht)
  · exact h t (.inl ht)
  · exact hp
  · exact h t (.inr (.inr ht))

/-- A segment is exchanged for one that is disjoint from the others. -/
theorem replace (h : Layout (l₁ ++ sp :: l₂))
    (hd : DisjointList Segment.region (l₁ ++ sp' :: l₂)) (hpos : 0 < sp'.base)
    (hroom : 32 ≤ sp'.size) (hbound : sp'.base + sp'.size ≤ userEnd) :
    Layout (l₁ ++ sp' :: l₂) where
  disjoint := hd
  pos := forall_mem_middle h.pos hpos
  room := forall_mem_middle h.room hroom
  bound := forall_mem_middle h.bound hbound

/-- A segment grows by fresh memory at one of its ends. -/
theorem grow {g : Finset Nat} (h : Layout (l₁ ++ sp :: l₂))
    (hr : sp'.region = sp.region ∪ g) (hg : ∀ t ∈ l₁ ++ l₂, Disjoint g t.region)
    (hpos : 0 < sp'.base) (hroom : sp.size ≤ sp'.size)
    (hbound : sp'.base + sp'.size ≤ userEnd) : Layout (l₁ ++ sp' :: l₂) :=
  h.replace (h.disjoint.grow hr hg) hpos ((h.room sp (by simp)).trans hroom) hbound

/-- A segment shrinks at its end. -/
theorem shrink (h : Layout (l₁ ++ sp :: l₂)) (hbase : sp'.base = sp.base)
    (hroom : 32 ≤ sp'.size) (hsize : sp'.size ≤ sp.size) : Layout (l₁ ++ sp' :: l₂) := by
  have hb := h.bound sp (by simp)
  have hd := disjointList_middle.mp h.disjoint
  refine h.replace (h.disjoint.replace fun r hr => ?_) (hbase ▸ h.pos sp (by simp)) hroom (by omega)
  exact ((disjointList_cons.mp hd).1 r hr).mono_left (region_subset hbase.ge (by omega))

end Layout

/-! ## The top chunk -/

/-- An initialised heap: the first segment holds `top`, which leaves `TOP_FOOT_SIZE` bytes at its
end, and the footprint is what the segments take. -/
structure Ready (m : MState) : Prop where
  layout : Layout m.segs
  aligned : m.top % 16 = 0
  topsize_pos : 0 < m.topsize
  head : ∃ seg, m.segs.head? = some seg ∧ seg.base ≤ m.top ∧
    m.top + m.topsize + topFootSize = seg.base + seg.size
  footprint : m.footprint = (m.segs.map Segment.size).sum

/-- What the invariant looks at is the same in two states. -/
structure Same (m m' : MState) : Prop where
  segs : m'.segs = m.segs
  top : m'.top = m.top
  topsize : m'.topsize = m.topsize
  footprint : m'.footprint = m.footprint

theorem Same.trans {m m' m'' : MState} (h : Same m m') (h' : Same m' m'') : Same m m'' :=
  ⟨h'.segs.trans h.segs, h'.top.trans h.top, h'.topsize.trans h.topsize,
    h'.footprint.trans h.footprint⟩

/-- Only `dv`, the bins and words of the heap differ. -/
def Rebins (m m' : MState) : Prop := ∃ dv dvsize bins mem, m' = { m with dv, dvsize, bins, mem }

namespace Rebins

variable {m m' m'' : MState}

theorem trans (h : Rebins m m') (h' : Rebins m' m'') : Rebins m m'' := by
  obtain ⟨dv, dvsize, bins, mem, rfl⟩ := h
  obtain ⟨dv', dvsize', bins', mem', rfl⟩ := h'
  exact ⟨dv', dvsize', bins', mem', rfl⟩

theorem same (h : Rebins m m') : Same m m' := by
  obtain ⟨dv, dvsize, bins, mem, rfl⟩ := h
  exact ⟨rfl, rfl, rfl, rfl⟩

theorem refl (m : MState) : Rebins m m := ⟨_, _, _, _, rfl⟩

theorem setDv (m : MState) (p s : Nat) : Rebins m { m with dv := p, dvsize := s } :=
  ⟨_, _, _, _, rfl⟩

theorem setHead (m : MState) (p v : Nat) : Rebins m (m.setHead p v) := ⟨_, _, _, _, rfl⟩

theorem setInuseChunk (m : MState) (p s : Nat) : Rebins m (m.setInuseChunk p s) :=
  setHead m p (s ||| 3)

theorem setFreeChunk (m : MState) (p s : Nat) : Rebins m (m.setFreeChunk p s) :=
  (setHead m p (s ||| 1)).trans ⟨_, _, _, _, rfl⟩

theorem setFreeWithPinuse (m : MState) (p s n : Nat) : Rebins m (m.setFreeWithPinuse p s n) :=
  (setHead ..).trans (setFreeChunk ..)

theorem insertChunk (m : MState) (p s : Nat) : Rebins m (m.insertChunk p s) :=
  ⟨_, _, _, _, rfl⟩

theorem unlinkChunk (m : MState) (p s : Nat) : Rebins m (m.unlinkChunk p s) :=
  ⟨_, _, _, _, rfl⟩

/-- A free chunk is marked as such and put into a bin. -/
theorem binned (m : MState) (p s n : Nat) :
    Rebins m ((m.setFreeWithPinuse p s n).insertChunk p s) :=
  (setFreeWithPinuse ..).trans (insertChunk ..)

theorem fenceposts (oldEnd n p : Nat) (m : MState) : Rebins m (fenceposts oldEnd n p m) := by
  induction n generalizing p m with
  | zero => exact setHead m p (3 ||| 8)
  | succ n ih =>
    unfold Dlmalloc.fenceposts
    have hset := setHead m p (3 ||| 8)
    dsimp only
    split
    · exact hset.trans (ih (p + 8) _)
    · exact hset

theorem retireTop (m : MState) (oldTop csp tnext oldEnd : Nat) :
    Rebins m (retireTop m oldTop csp tnext oldEnd) := by
  have hfence := fenceposts oldEnd (oldEnd / 8) tnext m
  unfold Dlmalloc.retireTop
  dsimp only
  split
  · exact hfence
  · exact hfence.trans (binned ..)

end Rebins

namespace Ready

variable {m m' : MState}

theorem of_same (h : Ready m) (hs : Same m m') : Ready m' where
  layout := hs.segs ▸ h.layout
  aligned := hs.top ▸ h.aligned
  topsize_pos := hs.topsize ▸ h.topsize_pos
  head := by
    rw [hs.segs, hs.top, hs.topsize]
    exact h.head
  footprint := by rw [hs.footprint, hs.segs, h.footprint]

theorem top_pos (h : Ready m) : 0 < m.top := by
  obtain ⟨seg, hseg, hbase, -⟩ := h.head
  exact (h.layout.pos seg (List.mem_of_head? hseg)).trans_le hbase

theorem isInitialized (h : Ready m) : m.isInitialized := by
  simpa [MState.isInitialized] using h.top_pos.ne'

/-- The top chunk with its foot ends below the user addresses' end. -/
theorem top_bound (h : Ready m) : m.top + m.topsize + topFootSize ≤ userEnd := by
  obtain ⟨seg, hseg, -, hend⟩ := h.head
  exact hend ▸ h.layout.bound seg (List.mem_of_head? hseg)

/-- The segment around `top` is the first. -/
theorem eq_nil_of_top_mem {l₁ l₂ : List Segment} {sp : Segment} (h : Ready m)
    (hl : m.segs = l₁ ++ sp :: l₂) (hsp : m.top ∈ sp.region) : l₁ = [] := by
  obtain ⟨seg, hseg, hbase, hend⟩ := h.head
  have hpos := h.topsize_pos
  refine (hl ▸ h.layout.disjoint).eq_nil_of_mem (hl ▸ hseg) ?_ hsp
  simp only [Segment.region, mem_region]
  omega

theorem segmentHolding_isSome (h : Ready m) : (m.segmentHolding m.top).isSome := by
  obtain ⟨seg, hseg, hbase, hend⟩ := h.head
  have hpos := h.topsize_pos
  have hmem := List.mem_of_head? hseg
  refine List.find?_isSome.mpr ⟨seg, hmem, (h.layout.holds_iff hmem).mpr ?_⟩
  simp only [Segment.region, mem_region]
  omega

/-- `top` starts somewhere else in its segment and still ends where it did. -/
theorem moveTop (h : Ready m) (hsegs : m'.segs = m.segs) (hfoot : m'.footprint = m.footprint)
    (haligned : m'.top % 16 = 0) (hpos : 0 < m'.topsize)
    (hend : m'.top + m'.topsize = m.top + m.topsize)
    (hbase : ∀ seg, m.segs.head? = some seg → seg.base ≤ m'.top) : Ready m' where
  layout := hsegs ▸ h.layout
  aligned := haligned
  topsize_pos := hpos
  head := by
    obtain ⟨seg, hseg, -, htop⟩ := h.head
    exact ⟨seg, hsegs ▸ hseg, hbase seg hseg, by rw [hend, htop]⟩
  footprint := by rw [hfoot, hsegs, h.footprint]

theorem footprint_le (h : Ready m) : m.footprint ≤ userEnd := h.footprint ▸ h.layout.sum_le

/-- The footprint after an extension, when the new segments take `tsize` bytes more. -/
theorem addSize_footprint {segs : List Segment} {tsize : Nat} (h : Ready m) (hl : Layout segs)
    (hsum : (segs.map Segment.size).sum = (m.segs.map Segment.size).sum + tsize) :
    addSize m.footprint tsize = (segs.map Segment.size).sum := by
  have := hl.sum_le
  simp only [userEnd] at this
  rw [h.footprint, hsum]
  exact addSize_eq (by omega)

end Ready

/-- `init_top` aligns the chunk and takes the padding off its size. -/
theorem initTop_spec (m : MState) (p psize : Nat) (hp : p + psize ≤ userEnd) (hs : 16 ≤ psize) :
    ∃ o < 16, (initTop m p psize).top = p + o ∧ (initTop m p psize).topsize = psize - o ∧
      (p + o) % 16 = 0 := by
  simp only [userEnd] at hp
  obtain ⟨hlt, hmod⟩ := alignOffset_spec (chunk2mem p)
  rw [chunk2mem_eq (by omega)] at hlt hmod
  refine ⟨alignOffset (p + 16), hlt, ?_, ?_, by omega⟩
  · simp only [initTop]
    rw [chunk2mem_eq (by omega), addSize_eq (by omega)]
  · simp only [initTop]
    rw [chunk2mem_eq (by omega), subSize_eq (by omega) (by omega)]

/-- `init_top` on the rest of the first segment puts the heap in order. -/
theorem initTop_ready {m : MState} {p psize : Nat} (hlayout : Layout m.segs)
    (hfoot : m.footprint = (m.segs.map Segment.size).sum)
    (hhead : ∃ seg, m.segs.head? = some seg ∧ seg.base ≤ p ∧
      p + psize + topFootSize = seg.base + seg.size) (hsize : 16 ≤ psize) :
    ∃ o < 16, (initTop m p psize).top = p + o ∧ (initTop m p psize).topsize = psize - o ∧
      (p + o) % 16 = 0 ∧ Ready (initTop m p psize) := by
  obtain ⟨seg, hseg, hbase, hend⟩ := hhead
  have hbound := hlayout.bound seg (List.mem_of_head? hseg)
  obtain ⟨o, ho, htop, htopsize, hmod⟩ := initTop_spec m p psize (by omega) hsize
  refine ⟨o, ho, htop, htopsize, hmod, ?_⟩
  constructor
  case layout => exact hlayout
  case aligned => exact htop ▸ hmod
  case topsize_pos => omega
  case head => exact ⟨seg, hseg, by omega, by omega⟩
  case footprint => exact hfoot

/-- Allocating from a top chunk that is large enough. -/
theorem allocateTop_spec {m : MState} {nb : Nat} (h : Ready m) (hnb : nb % 16 = 0)
    (hlt : nb < m.topsize) : ∃ m', allocateTop m nb = (chunk2mem m.top, m') ∧ Ready m' := by
  obtain ⟨seg, hseg, hbase, -⟩ := h.head
  have hbound := h.top_bound
  have haligned := h.aligned
  simp only [userEnd] at hbound
  have htop : addSize m.top nb = m.top + nb := addSize_eq (by omega)
  have hsize : subSize m.topsize nb = m.topsize - nb := subSize_eq (by omega) hlt.le
  refine ⟨(splitTop m nb).2, if_pos hlt, h.moveTop rfl rfl ?_ ?_ ?_ fun seg' hseg' => ?_⟩
  · change addSize m.top nb % 16 = 0
    omega
  · change 0 < subSize m.topsize nb
    omega
  · change addSize m.top nb + subSize m.topsize nb = m.top + m.topsize
    omega
  · obtain rfl := Option.some.inj (hseg.symm.trans hseg')
    change seg.base ≤ addSize m.top nb
    omega

/-! ## The three ways to place new memory -/

/-- A mapping that the operating system may hand out: user addresses that no segment has. -/
structure Granted (m : MState) (tbase tsize : Nat) : Prop where
  pos : 0 < tbase
  bound : tbase + tsize ≤ userEnd
  fresh : ∀ sp ∈ m.segs, Disjoint (region tbase tsize) sp.region

/-- The chunk of `nb` bytes at `p` lies inside the new memory, or inside the new memory and the top
chunk that it adjoins. -/
def Within (m : MState) (tbase tsize nb p : Nat) : Prop :=
  p + nb ≤ tbase + tsize ∧
    (tbase ≤ p ∨ m.top ≤ p ∧ tbase = m.top + m.topsize + topFootSize)

/-- `r` hands out a chunk inside the new memory, and leaves a heap that is in order. -/
def Served (m : MState) (tbase tsize nb : Nat) (r : Nat × MState) : Prop :=
  ∃ p, r.1 = chunk2mem p ∧ Within m tbase tsize nb p ∧ Ready r.2

section

variable {m : MState} {tbase tsize nb : Nat}

theorem appendTarget_eq_some {sp : Segment} (h : appendTarget m tbase = some sp) :
    m.segs.find? (fun sp => tbase == addSize sp.base sp.size) = some sp ∧ sp.holds m.top := by
  simp only [appendTarget] at h
  split at h
  · cases h
  rename_i sp' hfind
  split at h
  case isFalse => cases h
  case isTrue htarget =>
    obtain rfl := Option.some.inj h
    exact ⟨hfind, (Bool.and_eq_true_iff.mp htarget).2⟩

theorem prependTarget_eq_some {sp : Segment} (h : prependTarget m tbase tsize = some sp) :
    m.segs.find? (fun sp => sp.base == addSize tbase tsize) = some sp := by
  simp only [prependTarget] at h
  split at h
  · cases h
  rename_i sp' hfind
  split at h
  case isFalse => cases h
  case isTrue => exact Option.some.inj h ▸ hfind

/-- The new memory extends the segment around `top`. -/
theorem append_served {sp : Segment} (h : Ready m) (hg : Granted m tbase tsize)
    (hnb : nb % 16 = 0) (hsize : nb + sysAllocPadding ≤ tsize)
    (ht : appendTarget m tbase = some sp) :
    Served m tbase tsize nb (allocateTop (initTop { m.addFootprint tsize with
      segs := updateFirst (fun sp => tbase == addSize sp.base sp.size)
        (fun sp => { sp with size := addSize sp.size tsize }) m.segs }
      m.top (addSize m.topsize tsize)) nb) := by
  obtain ⟨hfind, hholds⟩ := appendTarget_eq_some ht
  obtain ⟨hend, l₁, l₂, hl, hl'⟩ := updateFirst_of_find?
    (g := fun sp => { sp with size := addSize sp.size tsize }) hfind
  have hmem : sp ∈ m.segs := by simp [hl]
  obtain rfl := h.eq_nil_of_top_mem hl ((h.layout.holds_iff hmem).mp hholds)
  obtain ⟨seg, hseg, hbase, htopend⟩ := h.head
  obtain rfl : sp = seg := by simpa [hl] using hseg
  have hbound := hg.bound
  have hsp := h.layout.bound sp hmem
  rw [beq_iff_eq, h.layout.addSize_base hmem] at hend
  simp only [userEnd, topFootSize] at hbound hsp htopend
  simp only [sysAllocPadding, topFootSize] at hsize
  have hsz : addSize sp.size tsize = sp.size + tsize := addSize_eq (by omega)
  have htsz : addSize m.topsize tsize = m.topsize + tsize := addSize_eq (by omega)
  rw [hl']
  simp only [List.nil_append, hsz, htsz]
  have hlayout : Layout ({ sp with size := sp.size + tsize } :: l₂) := by
    have hold : Layout ([] ++ sp :: l₂) := hl ▸ h.layout
    refine hold.grow (g := region tbase tsize) ?_ ?_ ?_ ?_ ?_
    · simp only [Segment.region, hend, region_append]
    · exact fun t ht => hg.fresh t (hl ▸ List.mem_cons_of_mem sp ht)
    · exact h.layout.pos sp hmem
    · exact Nat.le_add_right _ _
    · simp only [userEnd]
      omega
  have hsum : (({ sp with size := sp.size + tsize } :: l₂).map Segment.size).sum =
      (m.segs.map Segment.size).sum + tsize := by
    simp only [hl, List.nil_append, List.map_cons, List.sum_cons]
    omega
  -- `top` is aligned, so that `init_top` leaves it where it is
  obtain ⟨o, ho, htop, htopsize, hmod, hready⟩ := initTop_ready (p := m.top)
    (m := { m.addFootprint tsize with segs := { sp with size := sp.size + tsize } :: l₂ })
    hlayout (h.addSize_footprint hlayout hsum)
    ⟨_, rfl, hbase, show m.top + (m.topsize + tsize) + 80 = sp.base + (sp.size + tsize) by omega⟩
    (by omega)
  have haligned := h.aligned
  obtain rfl : o = 0 := by omega
  obtain ⟨m', hm', hready'⟩ := allocateTop_spec hready hnb (by omega)
  rw [hm']
  refine ⟨m.top, by rw [htop, Nat.add_zero], ⟨by omega, .inr ⟨le_rfl, ?_⟩⟩, hready'⟩
  simp only [topFootSize]
  omega

/-- `prepend_alloc` cuts the chunk from the start of the new memory. The rest joins the first chunk
of the old segment, which is `top` only if `top` is the first chunk there. -/
theorem prependAlloc_spec {oldbase : Nat} (hold : oldbase = tbase + tsize)
    (hbound : oldbase + 32 ≤ userEnd) (hnb : nb % 16 = 0) (hsize : nb + sysAllocPadding ≤ tsize)
    (htopend : m.top + m.topsize ≤ userEnd) :
    ∃ p m', prependAlloc m tbase oldbase nb = (chunk2mem p, m') ∧ tbase ≤ p ∧ p + nb ≤ oldbase ∧
      (Same m m' ∨ m.top = alignAsChunk oldbase ∧ m'.segs = m.segs ∧ m'.footprint = m.footprint ∧
        m'.top = p + nb ∧ m'.top % 16 = 0 ∧ m'.top + m'.topsize = m.top + m.topsize ∧
        m.topsize ≤ m'.topsize) := by
  simp only [userEnd] at hbound htopend
  simp only [sysAllocPadding, topFootSize] at hsize
  obtain ⟨hp, hp', hpmod⟩ := alignAsChunk_spec (a := tbase) (by omega)
  obtain ⟨ho, ho', -⟩ := alignAsChunk_spec (a := oldbase) (by omega)
  have hpsize : subSize (alignAsChunk oldbase) (alignAsChunk tbase) =
      alignAsChunk oldbase - alignAsChunk tbase := subSize_eq (by omega) (by omega)
  have hqsize : subSize (alignAsChunk oldbase - alignAsChunk tbase) nb =
      alignAsChunk oldbase - alignAsChunk tbase - nb := subSize_eq (by omega) (by omega)
  have hq : addSize (alignAsChunk tbase) nb = alignAsChunk tbase + nb := addSize_eq (by omega)
  refine ⟨alignAsChunk tbase, (prependAlloc m tbase oldbase nb).2, ?_, hp, by omega, ?_⟩
  · unfold prependAlloc
    dsimp only
    split_ifs <;> rfl
  · unfold prependAlloc
    dsimp only
    rw [hpsize, hqsize, hq]
    split
    case isTrue htop =>
      have htop : m.top = alignAsChunk oldbase := htop.symm
      have htsize : addSize m.topsize (alignAsChunk oldbase - alignAsChunk tbase - nb) =
          m.topsize + (alignAsChunk oldbase - alignAsChunk tbase - nb) := addSize_eq (by omega)
      refine .inr ⟨htop, rfl, rfl, rfl, by dsimp only; omega, ?_, ?_⟩
      · change alignAsChunk tbase + nb +
          addSize m.topsize (alignAsChunk oldbase - alignAsChunk tbase - nb) = m.top + m.topsize
        omega
      · change m.topsize ≤
          addSize m.topsize (alignAsChunk oldbase - alignAsChunk tbase - nb)
        omega
    case isFalse =>
      -- the other branches change `dv`, the bins and the words of the heap only
      refine .inl ?_
      split
      case isTrue => exact ⟨rfl, rfl, rfl, rfl⟩
      case isFalse =>
        split
        · exact ((Rebins.setInuseChunk ..).trans (Rebins.binned ..)).same
        · exact ((Rebins.setInuseChunk ..).trans
            ((Rebins.unlinkChunk ..).trans (Rebins.binned ..))).same

/-- The heap is in order when the new memory has been counted to the segment behind it. -/
theorem prepend_ready {sp : Segment} {l₁ l₂ : List Segment} (h : Ready m)
    (hg : Granted m tbase tsize) (hl : m.segs = l₁ ++ sp :: l₂) (hstart : sp.base = tbase + tsize)
    {m₁ : MState} (hm₁ : Same (m.addFootprint tsize) m₁) :
    Ready { m₁ with segs := l₁ ++ { sp with base := tbase, size := sp.size + tsize } :: l₂ } := by
  have hmem : sp ∈ m.segs := by simp [hl]
  have hsp := h.layout.bound sp hmem
  simp only [userEnd] at hsp
  have hlayout : Layout (l₁ ++ { sp with base := tbase, size := sp.size + tsize } :: l₂) := by
    refine Layout.grow (g := region tbase tsize) (hl ▸ h.layout) ?_ ?_ ?_ ?_ ?_
    · simp only [Segment.region, hstart, Finset.union_comm _ (region tbase tsize), region_append,
        Nat.add_comm sp.size]
    · exact fun t ht =>
        hg.fresh t (hl ▸ (List.sublist_append_right [sp] l₂).append_left l₁ |>.subset ht)
    · exact hg.pos
    · exact Nat.le_add_right _ _
    · simp only [userEnd]
      omega
  have hsum : ((l₁ ++ { sp with base := tbase, size := sp.size + tsize } :: l₂).map
      Segment.size).sum = (m.segs.map Segment.size).sum + tsize := by
    simp only [hl, List.map_append, List.map_cons, List.sum_append, List.sum_cons]
    omega
  obtain ⟨seg, hseg, hbase, hend⟩ := h.head
  have htop₁ : m₁.top = m.top := hm₁.top
  have htopsize₁ : m₁.topsize = m.topsize := hm₁.topsize
  constructor
  case layout => exact hlayout
  case aligned => exact htop₁ ▸ h.aligned
  case topsize_pos => exact htopsize₁ ▸ h.topsize_pos
  case head =>
    dsimp only
    rw [htop₁, htopsize₁]
    cases l₁ with
    | nil =>
      obtain rfl : sp = seg := by simpa [hl] using hseg
      exact ⟨_, rfl, by dsimp only; omega, by dsimp only; omega⟩
    | cons t l₁ =>
      obtain rfl : t = seg := by simpa [hl] using hseg
      exact ⟨t, rfl, hbase, hend⟩
  case footprint => exact hm₁.footprint.trans (h.addSize_footprint hlayout hsum)

/-- The new memory is put in front of a segment. -/
theorem prepend_served {sp : Segment} (h : Ready m) (hg : Granted m tbase tsize)
    (hnb : nb % 16 = 0) (hsize : nb + sysAllocPadding ≤ tsize)
    (ht : prependTarget m tbase tsize = some sp) {m₁ : MState}
    (hm₁ : Same (m.addFootprint tsize) m₁) :
    Served m tbase tsize nb (prependAlloc { m₁ with
      segs := updateFirst (fun sp => sp.base == addSize tbase tsize)
        (fun sp => { sp with base := tbase, size := addSize sp.size tsize }) m.segs }
      tbase sp.base nb) := by
  obtain ⟨hstart, l₁, l₂, hl, hl'⟩ := updateFirst_of_find?
    (g := fun sp => { sp with base := tbase, size := addSize sp.size tsize })
    (prependTarget_eq_some ht)
  have hmem : sp ∈ m.segs := by simp [hl]
  have hbound := hg.bound
  have hroom := h.layout.room sp hmem
  have hsp := h.layout.bound sp hmem
  have htopend := h.top_bound
  simp only [userEnd, topFootSize] at hbound hsp htopend
  rw [beq_iff_eq, addSize_eq (by omega)] at hstart
  have hsz : addSize sp.size tsize = sp.size + tsize := addSize_eq (by omega)
  rw [hl', hsz]
  have hready := prepend_ready h hg hl hstart hm₁
  have htop₁ : m₁.top = m.top := hm₁.top
  have htopsize₁ : m₁.topsize = m.topsize := hm₁.topsize
  obtain ⟨p, m', heq, hp, hpend, hm'⟩ := prependAlloc_spec
    (m := { m₁ with segs := l₁ ++ { sp with base := tbase, size := sp.size + tsize } :: l₂ })
    hstart (by simp only [userEnd]; omega) hnb hsize
    (by dsimp only; rw [htop₁, htopsize₁]; simp only [userEnd]; omega)
  rw [heq]
  refine ⟨p, rfl, ⟨by omega, .inl hp⟩, ?_⟩
  rcases hm' with hsame | ⟨htop, hsegs, hfoot, htop', haligned, hend', hsize'⟩
  · exact hready.of_same hsame
  · have hmem' : m.top ∈ sp.region := by
      obtain ⟨ha, ha', -⟩ := alignAsChunk_spec (a := sp.base) (by omega)
      simp only [Segment.region, mem_region, ← htop₁]
      dsimp only at htop
      omega
    obtain rfl := h.eq_nil_of_top_mem hl hmem'
    refine hready.moveTop hsegs hfoot haligned (hready.topsize_pos.trans_le hsize') hend'
      fun seg' hseg' => ?_
    obtain rfl := Option.some.inj hseg'
    dsimp only
    omega

theorem pushSegment_segs {seg : Segment} {next : List Segment} (h : m.segs = seg :: next)
    (ss tbase tsize : Nat) (mmapped : Bool) :
    (m.pushSegment ss tbase tsize mmapped).segs =
      ⟨tbase, tsize, mmapped, false, none⟩ :: { seg with record := some ss } :: next := by
  simp only [MState.pushSegment, h]

/-- The new memory becomes the first segment, with `top` in it. -/
theorem addSegment_served {m₁ : MState} (h : Ready m) (hg : Granted m tbase tsize)
    (hnb : nb % 16 = 0) (hsize : nb + sysAllocPadding ≤ tsize)
    (hm₁ : Same (m.addFootprint tsize) m₁) :
    ∃ m', addSegment m₁ tbase tsize true = .ok m' ∧
      Served m tbase tsize nb (allocateTop m' nb) := by
  obtain ⟨seg, hseg, -, -⟩ := h.head
  obtain ⟨next, hnext⟩ : ∃ next, m.segs = seg :: next := by
    cases hl : m.segs with
    | nil => simp [hl] at hseg
    | cons t next => exact ⟨next, by simpa [hl] using hseg⟩
  have hsegs₁ : m₁.segs = seg :: next := hm₁.segs.trans hnext
  obtain ⟨oldsp, holdsp⟩ := Option.isSome_iff_exists.mp h.segmentHolding_isSome
  have hhold : m₁.segmentHolding m₁.top = some oldsp := by
    rw [← holdsp, MState.segmentHolding, hm₁.segs, hm₁.top]
    rfl
  have hbound := hg.bound
  simp only [userEnd] at hbound
  simp only [sysAllocPadding, topFootSize] at hsize
  have htsize : subSize tsize topFootSize = tsize - 80 :=
    subSize_eq (by omega) (by simp only [topFootSize]; omega)
  simp only [addSegment, hhold, htsize]
  generalize recordChunk m₁.top (addSize oldsp.base oldsp.size) (padRequest segmentRecordSize) = csp
  refine ⟨_, rfl, ?_⟩
  have hlayout : Layout (⟨tbase, tsize, true, false, none⟩ ::
      { seg with record := some (chunk2mem csp) } :: next) := by
    have hold : Layout ([] ++ seg :: next) := hnext ▸ h.layout
    have hpushed : Layout ({ seg with record := some (chunk2mem csp) } :: next) :=
      hold.shrink rfl (h.layout.room seg (by simp [hnext])) le_rfl
    refine hpushed.push hg.pos (by dsimp only; omega) hg.bound fun t ht => ?_
    rcases List.mem_cons.mp ht with rfl | ht
    · exact hg.fresh seg (by simp [hnext])
    · exact hg.fresh t (by simp [hnext, ht])
  have hsum : ((⟨tbase, tsize, true, false, none⟩ ::
      { seg with record := some (chunk2mem csp) } :: next : List Segment).map Segment.size).sum =
      (m.segs.map Segment.size).sum + tsize := by
    simp only [hnext, List.map_cons, List.sum_cons]
    omega
  -- pushing the record commutes with `init_top`, which does not look at the segments
  have hsegs₂ := pushSegment_segs hsegs₁ (chunk2mem csp) tbase tsize true
  obtain ⟨o, ho, htop, htopsize, hmod, hready⟩ := initTop_ready (p := tbase)
    (m := m₁.pushSegment (chunk2mem csp) tbase tsize true) (hsegs₂ ▸ hlayout)
    (hsegs₂ ▸ hm₁.footprint.trans (h.addSize_footprint hlayout hsum))
    ⟨_, congrArg List.head? hsegs₂, le_rfl, show tbase + (tsize - 80) + 80 = tbase + tsize by omega⟩
    (by omega)
  have hpush : Same (initTop (m₁.pushSegment (chunk2mem csp) tbase tsize true) tbase (tsize - 80))
      (((initTop m₁ tbase (tsize - 80)).setInuseChunk csp
        (padRequest segmentRecordSize)).pushSegment (chunk2mem csp) tbase tsize true) :=
    ⟨rfl, rfl, rfl, rfl⟩
  have hsame := hpush.trans (Rebins.retireTop _ m₁.top csp
    (addSize csp (padRequest segmentRecordSize)) (addSize oldsp.base oldsp.size)).same
  obtain ⟨m', hm', hready'⟩ := allocateTop_spec (hready.of_same hsame) hnb (by
    rw [hsame.topsize]
    omega)
  rw [hm']
  refine ⟨tbase + o, ?_, ⟨by omega, .inl (by omega)⟩, hready'⟩
  rw [hsame.top, htop]

/-- Enough new memory is put to use: the request is served from it. -/
theorem place_served (h : Ready m) (hg : Granted m tbase tsize) (hnb : nb % 16 = 0)
    (hsize : nb + sysAllocPadding ≤ tsize) :
    ∃ r, place m tbase tsize nb = .ok r ∧ Served m tbase tsize nb r := by
  have hinit : (m.addFootprint tsize).isInitialized = true := h.isInitialized
  simp only [place, hinit, Bool.not_true, Bool.false_eq_true, if_false]
  cases happend : appendTarget (m.addFootprint tsize) tbase with
  | some sp => exact ⟨_, rfl, append_served h hg hnb hsize happend⟩
  | none =>
    have hleast : Same (m.addFootprint tsize)
        { m.addFootprint tsize with leastAddr := min tbase (m.addFootprint tsize).leastAddr } :=
      ⟨rfl, rfl, rfl, rfl⟩
    dsimp only
    split
    case h_1 sp hprepend => exact ⟨_, rfl, prepend_served h hg hnb hsize hprepend hleast⟩
    case h_2 =>
      obtain ⟨m', hm', hserved⟩ := addSegment_served h hg hnb hsize hleast
      simp only [hm']
      exact ⟨_, rfl, hserved⟩

/-- The first memory becomes the only segment. -/
theorem place_first (htop : m.top = 0) (hfoot : m.footprint = 0)
    (hg : Granted m tbase tsize) (hnb : nb % 16 = 0) (hsize : nb + sysAllocPadding ≤ tsize) :
    ∃ r, place m tbase tsize nb = .ok r ∧ Served m tbase tsize nb r := by
  have hinit : (m.addFootprint tsize).isInitialized = false := by
    simp [MState.isInitialized, MState.addFootprint, htop]
  have hbound := hg.bound
  simp only [userEnd] at hbound
  simp only [sysAllocPadding, topFootSize] at hsize
  have htsize : subSize tsize topFootSize = tsize - 80 :=
    subSize_eq (by omega) (by simp only [topFootSize]; omega)
  simp only [place, hinit, Bool.not_false, if_true, htsize]
  refine ⟨_, rfl, ?_⟩
  generalize hm₁ : ({ m.addFootprint tsize with
    leastAddr := _, segs := [⟨tbase, tsize, true, false, none⟩] } : MState) = m₁
  have hsegs₁ : m₁.segs = [⟨tbase, tsize, true, false, none⟩] := hm₁ ▸ rfl
  have hfoot₁ : m₁.footprint = addSize m.footprint tsize := hm₁ ▸ rfl
  obtain ⟨o, ho, htop, htopsize, hmod, hready⟩ := initTop_ready (m := m₁) (p := tbase)
    (hsegs₁ ▸ Layout.nil.push hg.pos (by dsimp only; omega) hg.bound nofun)
    (by rw [hfoot₁, hfoot, hsegs₁, addSize_eq (by omega)]; simp)
    ⟨_, congrArg List.head? hsegs₁, le_rfl, show tbase + (tsize - 80) + 80 = tbase + tsize by omega⟩
    (by omega)
  obtain ⟨m', hm', hready'⟩ := allocateTop_spec hready hnb (by omega)
  rw [hm']
  exact ⟨tbase + o, congrArg chunk2mem htop, ⟨by omega, .inl (by omega)⟩, hready'⟩

end

end PrecisionGc.Dlmalloc
