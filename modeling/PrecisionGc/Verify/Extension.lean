import PrecisionGc.Verify.SysAlloc

/-!
# Extensions of the heap over whole histories

A history is a list of calls of the system layer and of what the allocator does to `top` between
them. As long as every extension asked for is large enough, the segments and the top chunk stay in
order; in a state so reached the next extension is large enough exactly if the heap is not too
small, and the request not too large, for the size that `sys_alloc` recomputes.
-/

namespace PrecisionGc.Dlmalloc
open Regions Runs

/-! ## Giving memory back -/

/-- One round of the loop keeps the segment, or takes its size off the footprint. -/
theorem releaseLoop_cons (munmap : Nat → Nat → Bool) (sp : Segment) (next : List Segment)
    (m : MState) (released : Nat) : ∃ m₁, Rebins m m₁ ∧
      (releaseLoop munmap (sp :: next) m released =
          (sp :: (releaseLoop munmap next m₁ released).1, (releaseLoop munmap next m₁ released).2) ∨
        releaseLoop munmap (sp :: next) m released =
          releaseLoop munmap next { m₁ with footprint := subSize m₁.footprint sp.size }
            (addSize released sp.size)) := by
  rw [releaseLoop]
  dsimp only
  split
  case isFalse => exact ⟨m, .refl m, .inl rfl⟩
  case isTrue =>
  -- the segment's only chunk is taken off `dv` or out of its bin
  generalize hm₁ : (if alignAsChunk sp.base = m.dv then { m with dv := 0, dvsize := 0 }
    else m.unlinkChunk (alignAsChunk sp.base) (m.chunksize (alignAsChunk sp.base))) = m₁
  have hunlinked : Rebins m m₁ := by
    rw [← hm₁]
    split
    · exact .setDv m 0 0
    · exact .unlinkChunk ..
  split
  · exact ⟨m₁, hunlinked, .inr rfl⟩
  · exact ⟨m₁.insertChunk _ _, hunlinked.trans (.insertChunk ..), .inl rfl⟩

/-- The loop unlinks segments, and takes what they held off the footprint. -/
theorem releaseLoop_spec (munmap : Nat → Nat → Bool) (l : List Segment) (m : MState)
    (released : Nat) (hfoot : (l.map Segment.size).sum ≤ m.footprint) (hlt : m.footprint < 2 ^ 64) :
    ∃ kept m' n, releaseLoop munmap l m released = (kept, m', n) ∧ kept.Sublist l ∧
      m'.top = m.top ∧ m'.topsize = m.topsize ∧
      m'.footprint + (l.map Segment.size).sum = m.footprint + (kept.map Segment.size).sum := by
  induction l generalizing m released with
  | nil => exact ⟨[], m, released, rfl, List.Sublist.refl _, rfl, rfl, rfl⟩
  | cons sp next ih =>
    rw [List.map_cons, List.sum_cons] at hfoot ⊢
    obtain ⟨m₁, hm₁, heq⟩ := releaseLoop_cons munmap sp next m released
    have hm₁ := hm₁.same
    rcases heq with heq | heq
    · obtain ⟨kept, m', n, hloop, hsub, htop, hsize, hsum⟩ :=
        ih m₁ released (by rw [hm₁.footprint]; omega) (hm₁.footprint ▸ hlt)
      refine ⟨sp :: kept, m', n, by rw [heq, hloop], hsub.cons_cons sp, htop.trans hm₁.top,
        hsize.trans hm₁.topsize, ?_⟩
      rw [hm₁.footprint] at hsum
      rw [List.map_cons, List.sum_cons]
      omega
    · have hsub : subSize m₁.footprint sp.size = m.footprint - sp.size := by
        rw [hm₁.footprint]
        exact subSize_eq hlt (by omega)
      obtain ⟨kept, m', n, hloop, hkept, htop, hsize, hsum⟩ :=
        ih { m₁ with footprint := subSize m₁.footprint sp.size } (addSize released sp.size)
          (by dsimp only; omega) (by dsimp only; omega)
      refine ⟨kept, m', n, by rw [heq, hloop], hkept.cons sp, htop.trans hm₁.top,
        hsize.trans hm₁.topsize, ?_⟩
      dsimp only at hsum
      omega

/-- Releasing unused segments leaves the heap in order: `m->seg` is never released. -/
theorem Ready.releaseUnusedSegments {m : MState} (h : Ready m) (munmap : Nat → Nat → Bool) :
    Ready (releaseUnusedSegments munmap m).1 := by
  obtain ⟨seg, hseg, hbase, hend⟩ := h.head
  have hle := h.footprint_le
  have hfoot := h.footprint
  simp only [userEnd] at hle
  unfold Dlmalloc.releaseUnusedSegments
  split
  case h_1 => exact h
  case h_2 seg' next hsegs =>
  obtain rfl : seg' = seg := by simpa [hsegs] using hseg
  rw [hsegs, List.map_cons, List.sum_cons] at hfoot
  obtain ⟨kept, m', n, hloop, hsub, htop, hsize, hsum⟩ :=
    releaseLoop_spec munmap next m 0 (by omega) (by omega)
  simp only [hloop]
  constructor
  case layout => exact (hsegs ▸ h.layout).sublist (hsub.cons_cons seg')
  case aligned => exact htop ▸ h.aligned
  case topsize_pos => exact hsize ▸ h.topsize_pos
  case head => exact ⟨seg', rfl, htop ▸ hbase, by rw [htop, hsize, hend]⟩
  case footprint =>
    rw [List.map_cons, List.sum_cons]
    dsimp only
    omega

/-- What `sys_trim` takes off `top` leaves more than the pad. -/
theorem trimExtra_spec {topsize pad : Nat} (h : pad < topsize) (hlt : topsize < 2 ^ 60) :
    trimExtra topsize pad < topsize - pad := by
  have hsub : subSize topsize pad = topsize - pad := subSize_eq (by omega) h.le
  have hadd : addSize (topsize - pad) (granularity - 1) = topsize - pad + 65535 :=
    addSize_eq (by simp only [granularity]; omega)
  have hone : subSize ((topsize - pad + 65535) / granularity) 1 =
      (topsize - pad + 65535) / granularity - 1 :=
    subSize_eq (by simp only [granularity]; omega) (by simp only [granularity]; omega)
  rw [trimExtra, hsub, hadd, hone]
  simp only [granularity]
  omega

/-- Trimming the segment around `top` leaves the heap in order. -/
theorem Ready.trimTop {m : MState} (h : Ready m) (shrink : Nat → Nat → Bool) {pad : Nat}
    (hpad : topFootSize ≤ pad) (hlt : pad < m.topsize) : Ready (trimTop shrink m pad).1 := by
  obtain ⟨seg, hseg, hbase, hend⟩ := h.head
  have hbound := h.top_bound
  have hle := h.footprint_le
  have hfoot := h.footprint
  simp only [userEnd, topFootSize] at hbound hle hend hpad
  have hextra := trimExtra_spec hlt (by omega)
  unfold Dlmalloc.trimTop
  dsimp only
  split
  case h_1 => exact h
  case h_2 sp hfind =>
  split
  case isFalse => exact h
  case isTrue =>
  generalize trimExtra m.topsize pad = extra at hextra
  obtain ⟨hholds, l₁, l₂, hl, hl'⟩ := updateFirst_of_find?
    (g := fun sp => { sp with size := subSize sp.size extra }) hfind
  have hmem : sp ∈ m.segs := by simp [hl]
  obtain rfl := h.eq_nil_of_top_mem hl ((h.layout.holds_iff hmem).mp hholds)
  obtain rfl : sp = seg := by simpa [hl] using hseg
  have hsp := h.layout.bound sp hmem
  simp only [userEnd] at hsp
  rw [hl, List.nil_append, List.map_cons, List.sum_cons] at hfoot
  have hsz : subSize sp.size extra = sp.size - extra := subSize_eq (by omega) (by omega)
  have hts : subSize m.topsize extra = m.topsize - extra := subSize_eq (by omega) (by omega)
  have hfs : subSize m.footprint extra = m.footprint - extra := subSize_eq (by omega) (by omega)
  rw [hl', hsz, hts, hfs, List.nil_append]
  have hlayout : Layout ({ sp with size := sp.size - extra } :: l₂) := by
    have hold : Layout ([] ++ sp :: l₂) := hl ▸ h.layout
    exact hold.shrink rfl (by dsimp only; omega) (Nat.sub_le ..)
  obtain ⟨-, -, -, -, -, hready⟩ := initTop_ready (p := m.top)
    (m := { m with
      segs := { sp with size := sp.size - extra } :: l₂, footprint := m.footprint - extra })
    hlayout
    (show m.footprint - extra = sp.size - extra + (l₂.map Segment.size).sum by omega)
    ⟨_, rfl, hbase,
      show m.top + (m.topsize - extra) + 80 = sp.base + (sp.size - extra) by omega⟩
    (by omega)
  exact hready

/-- `sys_trim` leaves the heap in order. -/
theorem Ready.sysTrim {m : MState} (h : Ready m) (shrink munmap : Nat → Nat → Bool) (pad : Nat) :
    Ready (sysTrim shrink munmap m pad).1 := by
  unfold Dlmalloc.sysTrim
  split
  case isFalse => exact h
  case isTrue hpad =>
  rw [Bool.and_eq_true, decide_eq_true_iff] at hpad
  have hadd : addSize pad topFootSize = pad + topFootSize :=
    addSize_eq (by simp only [topFootSize]; omega)
  rw [hadd]
  have htrim : Ready (if pad + topFootSize < m.topsize then
      Dlmalloc.trimTop shrink m (pad + topFootSize) else (m, 0)).1 := by
    split
    · exact h.trimTop shrink (Nat.le_add_left ..) ‹_›
    · exact h
  dsimp only
  generalize (if pad + topFootSize < m.topsize then
    Dlmalloc.trimTop shrink m (pad + topFootSize) else (m, 0)) = t at htrim ⊢
  have hrelease := htrim.releaseUnusedSegments munmap
  split
  · exact hrelease.of_same ⟨rfl, rfl, rfl, rfl⟩
  · exact hrelease

/-- Freeing the chunk in front of `top`, in the same segment, leaves the heap in order. -/
theorem Ready.mergeTop {m : MState} (h : Ready m) {psize : Nat} (hps : psize % 16 = 0)
    (hseg : ∀ seg, m.segs.head? = some seg → seg.base + psize ≤ m.top) :
    Ready (mergeTop m psize) := by
  obtain ⟨seg, hhead, -, -⟩ := h.head
  have hbase := hseg seg hhead
  have hbound := h.top_bound
  have haligned := h.aligned
  have hpos := h.topsize_pos
  simp only [userEnd] at hbound
  have hp : subSize m.top psize = m.top - psize := subSize_eq (by omega) (by omega)
  have hts : addSize m.topsize psize = m.topsize + psize := addSize_eq (by omega)
  have hmove : Ready { m with top := m.top - psize, topsize := m.topsize + psize } := by
    refine h.moveTop rfl rfl ?_ ?_ ?_ fun seg hhead => ?_
    · dsimp only
      omega
    · dsimp only
      omega
    · dsimp only
      omega
    · have := hseg seg hhead
      dsimp only
      omega
  unfold Dlmalloc.mergeTop
  rw [hp, hts]
  dsimp only
  split <;> exact hmove.of_same ⟨rfl, rfl, rfl, rfl⟩

/-! ## Histories -/

/-- A call of the system layer with the answers of the operating system, or a change of `top` that
`dlmalloc`, `dlfree` or `dlrealloc` makes without it. -/
inductive Op
  | sysAlloc (mmap : Nat → Option Nat) (nb : Nat)
  | sysTrim (shrink munmap : Nat → Nat → Bool) (pad : Nat)
  | releaseUnusedSegments (munmap : Nat → Nat → Bool)
  | splitTop (nb : Nat)
  | mergeTop (psize : Nat)
  | setFootprintLimit (bytes : Nat)
  /-- work on chunks that are in use, in `dv` or in bins -/
  | rebin (dv dvsize : Nat) (bins : List (Nat × Nat)) (mem : Nat → Nat)

def exec (m : MState) : Op → Except Fault MState
  | .sysAlloc mmap nb => Prod.snd <$> sysAlloc mmap m (getHeapSize m) nb
  | .sysTrim shrink munmap pad => return (sysTrim shrink munmap m pad).1
  | .releaseUnusedSegments munmap => return (releaseUnusedSegments munmap m).1
  | .splitTop nb => return (splitTop m nb).2
  | .mergeTop psize => return mergeTop m psize
  | .setFootprintLimit bytes => return setFootprintLimit m bytes
  | .rebin dv dvsize bins mem => return { m with dv, dvsize, bins, mem }

/-- The size of a chunk, as `pad_request` makes it. -/
def Padded (nb : Nat) : Prop := nb % 16 = 0 ∧ nb < 2 ^ 64

/-- What the operating system and the callers in `dlmalloc.c` keep to: new mappings are fresh, a
request too large to be padded is `MAX_SIZE_T`, and a chunk that is split off `top` or merged into
it lies in the same segment. -/
def Legal (m : MState) : Op → Prop
  | .sysAlloc mmap nb => (Padded nb ∨ nb = maxSizeT) ∧
      ∀ size a, mmap size = some a → Granted m a size
  | .splitTop nb => nb % 16 = 0 ∧ nb < m.topsize
  | .mergeTop psize => psize % 16 = 0 ∧ m.isInitialized ∧
      ∀ seg, m.segs.head? = some seg → seg.base + psize ≤ m.top
  | _ => True

/-- The heap is large enough, and the request small enough, for the recomputed size. -/
def Extensible (m : MState) (nb : Nat) : Prop :=
  240 ≤ m.footprint ∧ nb + 16 * (m.footprint / 48 + 1) < 2 ^ 64

/-- `sys_alloc` gets as far as recomputing the size. -/
def Recomputes (m : MState) (nb : Nat) : Prop :=
  m.isInitialized ∧ nb < requestedSize nb ∧ m.overLimit (requestedSize nb) = false

/-- The condition on a step: an extension that is asked for is large enough. -/
def Meets (m : MState) : Op → Prop
  | .sysAlloc _ nb => Recomputes m nb → Extensible m nb
  | _ => True

/-- The state before the first request. -/
structure Untouched (m : MState) : Prop where
  top : m.top = 0
  topsize : m.topsize = 0
  footprint : m.footprint = 0
  segs : m.segs = []

/-! ## The size of an extension -/

section

variable {m : MState} {nb : Nat} {mmap : Nat → Option Nat}

theorem heapShare_eq (hinit : m.isInitialized) (hle : m.footprint ≤ userEnd) :
    heapShare (getHeapSize m) = m.footprint / 3 := by
  simp only [userEnd] at hle
  have hlong : getHeapSize m = (m.footprint : Int) := by
    rw [getHeapSize, if_pos hinit, toLong, if_pos (by omega)]
  rw [hlong, heapShare, fsd, Int.tdiv_eq_ediv_of_nonneg (by omega)]
  omega

/-- The recomputed size before it is cut to `size_t`. -/
def idealSize (heapSize : Int) (nb : Nat) : Nat :=
  heapShare heapSize + nb + (16 - (heapShare heapSize + nb) % 16)

theorem Ready.idealSize_eq (h : Ready m) (hnb : Padded nb) :
    idealSize (getHeapSize m) nb = nb + 16 * (m.footprint / 48 + 1) := by
  have := hnb.1
  rw [idealSize, heapShare_eq h.isInitialized h.footprint_le]
  omega

theorem extensionSize_eq {heapSize : Int} (h : idealSize heapSize nb < 2 ^ 64) :
    extensionSize heapSize nb = idealSize heapSize nb := by
  unfold idealSize at h ⊢
  have hadd : addSize (heapShare heapSize) nb = heapShare heapSize + nb := addSize_eq (by omega)
  rw [extensionSize, hadd]
  exact addSize_eq h

theorem Padded.lt_maxSizeT (hnb : Padded nb) : nb < maxSizeT := by
  obtain ⟨hmod, hlt⟩ := hnb
  simp only [maxSizeT]
  omega

/-- No request below `MAX_SIZE_T` reaches the threshold for a mapping of its own. -/
theorem sysAlloc_eq (hnb : nb < maxSizeT) (heapSize : Int) : sysAlloc mmap m heapSize nb =
    if requestedSize nb ≤ nb then .ok (0, m)
    else if m.overLimit (requestedSize nb) then .ok (0, m)
    else
      let asize := if m.isInitialized then extensionSize heapSize nb else requestedSize nb
      match mmap asize with
      | none => .ok (0, m)
      | some tbase => place m tbase asize nb := by
  have hthreshold : decide (threshold ≤ nb) = false := decide_eq_false (not_le.mpr hnb)
  simp only [sysAlloc, hthreshold, Bool.false_and, Bool.false_eq_true, if_false, bne_self_eq_false]
  rfl

/-- `MAX_SIZE_T` is refused. -/
theorem sysAlloc_maxSizeT (heapSize : Int) : sysAlloc mmap m heapSize maxSizeT = .ok (0, m) := by
  have hdirect : mmapAlloc mmap m maxSizeT = (0, m) := by
    unfold mmapAlloc
    dsimp only
    rw [if_neg (show ¬maxSizeT < mmapAlign (addSize (addSize maxSizeT 48) 15) by decide), ite_self]
  have hwrap : requestedSize maxSizeT ≤ maxSizeT := by decide
  simp only [sysAlloc, hdirect, ite_self, bne_self_eq_false, Bool.false_eq_true, if_pos hwrap]
  rfl

/-- The first request is given its padding. -/
theorem requestedSize_spec (h : nb < requestedSize nb) :
    nb + sysAllocPadding ≤ requestedSize nb := by
  simp only [requestedSize, granularityAlign, addSize, granularity, sysAllocPadding,
    topFootSize] at h ⊢
  omega

/-! ## Sufficiency -/

/-- The recomputed size does not wrap around and covers request and padding, so that whatever
mapping is granted, the foot of `top` fits and the chunk that `sys_alloc` returns lies inside. -/
structure Sufficient (m : MState) (nb : Nat) : Prop where
  noWrap : idealSize (getHeapSize m) nb < 2 ^ 64
  padded : nb + sysAllocPadding ≤ extensionSize (getHeapSize m) nb
  placed : Recomputes m nb → ∀ mmap tbase,
    mmap (extensionSize (getHeapSize m) nb) = some tbase →
    Granted m tbase (extensionSize (getHeapSize m) nb) →
    topFootSize ≤ extensionSize (getHeapSize m) nb ∧
      ∃ r, sysAlloc mmap m (getHeapSize m) nb = .ok r ∧
        Served m tbase (extensionSize (getHeapSize m) nb) nb r

theorem Ready.extensionSize_eq (h : Ready m) (hnb : Padded nb) (hext : Extensible m nb) :
    extensionSize (getHeapSize m) nb = nb + 16 * (m.footprint / 48 + 1) := by
  have hideal := h.idealSize_eq hnb
  rw [Dlmalloc.extensionSize_eq (hideal ▸ hext.2), hideal]

theorem Ready.padding_le (h : Ready m) (hnb : Padded nb) (hext : Extensible m nb) :
    nb + sysAllocPadding ≤ extensionSize (getHeapSize m) nb := by
  have hf := hext.1
  rw [h.extensionSize_eq hnb hext]
  simp only [sysAllocPadding, topFootSize]
  omega

/-- An extension that is large enough serves the request. -/
theorem Ready.sysAlloc_served (h : Ready m) (hnb : Padded nb) (hrec : Recomputes m nb)
    (hext : Extensible m nb) {tbase : Nat}
    (hmmap : mmap (extensionSize (getHeapSize m) nb) = some tbase)
    (hg : Granted m tbase (extensionSize (getHeapSize m) nb)) :
    ∃ r, sysAlloc mmap m (getHeapSize m) nb = .ok r ∧
      Served m tbase (extensionSize (getHeapSize m) nb) nb r := by
  obtain ⟨hinit, htest, hlimit⟩ := hrec
  rw [sysAlloc_eq hnb.lt_maxSizeT, if_neg (by omega), hlimit]
  simp only [Bool.false_eq_true, if_false, hinit, if_true, hmmap]
  exact place_served h hg hnb.1 (h.padding_le hnb hext)

/-- In a heap that is in order, the next extension is large enough exactly if the footprint is at
least 240 bytes and the request with its share of the footprint does not reach `2 ^ 64`. -/
theorem Ready.sufficient_iff (h : Ready m) (hnb : Padded nb) :
    Sufficient m nb ↔ Extensible m nb := by
  have hideal := h.idealSize_eq hnb
  constructor
  · intro hs
    have hlt := hideal ▸ hs.noWrap
    have hpadded := hs.padded
    rw [Dlmalloc.extensionSize_eq hs.noWrap, hideal] at hpadded
    simp only [sysAllocPadding, topFootSize] at hpadded
    exact ⟨by omega, hlt⟩
  · intro hext
    have hsize := h.padding_le hnb hext
    refine ⟨hideal ▸ hext.2, hsize, fun hrec mmap tbase hmmap hg => ⟨?_, ?_⟩⟩
    · simp only [sysAllocPadding] at hsize
      omega
    · exact h.sysAlloc_served hnb hrec hext hmmap hg

end

/-! ## What a history keeps -/

section

variable {m : MState} {ops : List Op}

/-- Either nothing is allocated yet, or the heap is in order. -/
def InOrder (m : MState) : Prop := Untouched m ∨ Ready m

theorem Untouched.isInitialized (h : Untouched m) : m.isInitialized = false := by
  simp [MState.isInitialized, h.top]

/-- `sys_alloc` fails and leaves the heap alone, or serves the request from the new memory. -/
theorem sysAlloc_inOrder {nb : Nat} {mmap : Nat → Option Nat} (h : InOrder m)
    (hl : Legal m (.sysAlloc mmap nb)) (hm : Meets m (.sysAlloc mmap nb)) :
    ∃ r, sysAlloc mmap m (getHeapSize m) nb = .ok r ∧ InOrder r.2 := by
  obtain ⟨hnb | rfl, hgrant⟩ := hl
  case inr => exact ⟨_, sysAlloc_maxSizeT _, h⟩
  rw [sysAlloc_eq hnb.lt_maxSizeT]
  split
  · exact ⟨_, rfl, h⟩
  split
  · exact ⟨_, rfl, h⟩
  rename_i htest hlimit
  dsimp only
  split
  · exact ⟨_, rfl, h⟩
  rename_i tbase hmmap
  have hg := hgrant _ _ hmmap
  rcases h with h | h
  · rw [h.isInitialized, if_neg Bool.false_ne_true] at hg ⊢
    obtain ⟨r, hr, p, -, -, hready⟩ := place_first h.top h.footprint hg hnb.1
      (requestedSize_spec (by omega))
    exact ⟨r, hr, .inr hready⟩
  · have hrec : Recomputes m nb := ⟨h.isInitialized, by omega, by simpa using hlimit⟩
    rw [if_pos h.isInitialized] at hmmap hg ⊢
    obtain ⟨r, hr, p, -, -, hready⟩ := place_served h hg hnb.1 (h.padding_le hnb (hm hrec))
    exact ⟨r, hr, .inr hready⟩

/-- Every step returns, and keeps the heap in order. -/
theorem exec_inOrder {op : Op} (h : InOrder m) (hl : Legal m op) (hm : Meets m op) :
    ∃ m', exec m op = .ok m' ∧ InOrder m' := by
  cases op with
  | sysAlloc mmap nb =>
    obtain ⟨r, hr, hr'⟩ := sysAlloc_inOrder h hl hm
    exact ⟨r.2, by simp only [exec, hr]; rfl, hr'⟩
  | sysTrim shrink munmap pad =>
    refine ⟨_, rfl, h.imp (fun h => ?_) fun h => h.sysTrim shrink munmap pad⟩
    rw [sysTrim, h.isInitialized, Bool.and_false, if_neg Bool.false_ne_true]
    exact h
  | releaseUnusedSegments munmap =>
    refine ⟨_, rfl, h.imp (fun h => ?_) fun h => h.releaseUnusedSegments munmap⟩
    rw [releaseUnusedSegments, h.segs]
    exact h
  | splitTop nb =>
    obtain ⟨hnb, hlt⟩ := hl
    rcases h with h | h
    · exact absurd hlt (by simp [h.topsize])
    · obtain ⟨m', hm', hready⟩ := allocateTop_spec h hnb hlt
      rw [allocateTop, if_pos hlt] at hm'
      exact ⟨m', by simp only [exec, hm']; rfl, .inr hready⟩
  | mergeTop psize =>
    obtain ⟨hps, hinit, hseg⟩ := hl
    rcases h with h | h
    · exact absurd hinit (by simp [h.isInitialized])
    · exact ⟨_, rfl, .inr (h.mergeTop hps hseg)⟩
  | setFootprintLimit bytes =>
    exact ⟨_, rfl, h.imp (fun h => ⟨h.top, h.topsize, h.footprint, h.segs⟩) fun h =>
      h.of_same ⟨rfl, rfl, rfl, rfl⟩⟩
  | rebin dv dvsize bins mem =>
    exact ⟨_, rfl, h.imp (fun h => ⟨h.top, h.topsize, h.footprint, h.segs⟩) fun h =>
      h.of_same ⟨rfl, rfl, rfl, rfl⟩⟩

/-- A legal history, each of whose extensions meets the condition, keeps the heap in order. -/
theorem run_inOrder (hrun : Along exec (fun m op => Legal m op ∧ Meets m op) .start ops)
    (h : ops.foldlM exec .start = .ok m) : InOrder m := by
  refine hrun.invariant (fun m op m' hm hok hm' => ?_) (.inl ⟨rfl, rfl, rfl, rfl⟩) h
  obtain ⟨m'', heq, hin⟩ := exec_inOrder hm hok.1 hok.2
  rw [heq] at hm'
  exact Except.ok.inj hm' ▸ hin

/-- In every state that such a history reaches, an extension suffices exactly if it meets the
condition. -/
theorem run_sufficient_iff (hrun : Along exec (fun m op => Legal m op ∧ Meets m op) .start ops)
    (h : ops.foldlM exec .start = .ok m) (hinit : m.isInitialized) {nb : Nat} (hnb : Padded nb) :
    Sufficient m nb ↔ Extensible m nb := by
  rcases run_inOrder hrun h with hm | hm
  · exact absurd hinit (by simp [hm.isInitialized])
  · exact hm.sufficient_iff hnb

/-! ### A request whose extension wraps around -/

/-- The first request, for a chunk of 256 KiB, is served from the mapping of 320 KiB that it asks
for. -/
def firstExtension : List Op :=
  [.sysAlloc (fun size => if size = 327680 then some 0x7f0000000000 else none) 262144]

/-- A padded request that is below `MAX_REQUEST` and passes the wraparound test. -/
def hugeRequest : Nat := 2 ^ 64 - 68272

/-- The 40960 bytes below the first mapping. -/
def wrappedMapping : Nat → Option Nat := fun _ => some (0x7f0000000000 - 40960)

theorem firstExtension_run : ∃ m r, firstExtension.foldlM exec .start = .ok m ∧
    m.segs = [⟨0x7f0000000000, 327680, true, false, none⟩] ∧ m.footprint = 327680 ∧
    m.isInitialized ∧ m.footprintLimit = 0 ∧
    sysAlloc wrappedMapping m (getHeapSize m) hugeRequest = .ok r ∧
    r.1 = 0x7f0000000000 - 40960 + 16 := by
  have hrun : (do
      let m ← firstExtension.foldlM exec .start
      let r ← sysAlloc wrappedMapping m (getHeapSize m) hugeRequest
      return (m.segs, m.footprint, m.isInitialized, m.footprintLimit, r.1)) =
      .ok ([⟨0x7f0000000000, 327680, true, false, none⟩], 327680, true, 0,
        0x7f0000000000 - 40960 + 16) := by
    decide +kernel
  obtain ⟨m, hm, hrun⟩ := Except.bind_eq_ok.mp hrun
  obtain ⟨r, hr, hrun⟩ := Except.bind_eq_ok.mp hrun
  simp only [Except.pure_def, Except.ok.injEq, Prod.mk.injEq] at hrun
  exact ⟨m, r, hm, hrun.1, hrun.2.1, hrun.2.2.1, hrun.2.2.2.1, hr, hrun.2.2.2.2⟩

theorem firstExtension_legal :
    Along exec (fun m op => Legal m op ∧ Meets m op) .start firstExtension := by
  refine ⟨⟨⟨.inl ⟨by decide, by decide⟩, fun size a ha => ?_⟩, fun hrec => ?_⟩, fun _ _ => trivial⟩
  · dsimp only at ha
    split at ha
    case isTrue hsize =>
      obtain rfl := Option.some.inj ha
      exact ⟨by decide, hsize ▸ by decide, nofun⟩
    case isFalse => cases ha
  · exact absurd hrec.1 (by decide)

theorem run_sufficient_iff_firstExtension : ∃ m, firstExtension.foldlM exec .start = .ok m ∧
    Sufficient m 262144 := by
  obtain ⟨m, r, hm, -, hfoot, hinit, -⟩ := firstExtension_run
  refine ⟨m, hm, (run_sufficient_iff firstExtension_legal hm hinit ⟨by decide, by decide⟩).mpr ?_⟩
  simp only [Extensible, hfoot]
  decide

/-- After the first mapping, a huge request passes the wraparound test, and is served from a mapping
of 40960 bytes with a chunk that does not end in it. -/
theorem not_sufficient_hugeRequest : ∃ m mmap tbase r,
    Along exec (fun m op => Legal m op ∧ Meets m op) .start firstExtension ∧
    firstExtension.foldlM exec .start = .ok m ∧ m.isInitialized ∧ Padded hugeRequest ∧
    hugeRequest < requestedSize hugeRequest ∧ ¬ Sufficient m hugeRequest ∧
    extensionSize (getHeapSize m) hugeRequest = 40960 ∧ mmap 40960 = some tbase ∧
    Granted m tbase 40960 ∧ sysAlloc mmap m (getHeapSize m) hugeRequest = .ok r ∧
    r.1 = chunk2mem tbase ∧ ¬ tbase + hugeRequest ≤ tbase + 40960 := by
  obtain ⟨m, r, hm, hsegs, hfoot, hinit, hlimit, hr, hmem⟩ := firstExtension_run
  have hready : Ready m := by
    rcases run_inOrder firstExtension_legal hm with h | h
    · exact absurd hinit (by simp [h.isInitialized])
    · exact h
  have hsize : extensionSize (getHeapSize m) hugeRequest = 40960 := by
    rw [getHeapSize, if_pos hinit, hfoot]
    decide
  refine ⟨m, wrappedMapping, 0x7f0000000000 - 40960, r, firstExtension_legal, hm, hinit,
    ⟨by decide, by decide⟩, by decide, ?_, hsize, rfl, ⟨by decide, by decide, ?_⟩, hr, hmem,
    by decide⟩
  · intro hs
    have := hs.padded
    rw [hsize] at this
    exact absurd this (by decide)
  · intro sp hsp
    obtain rfl := List.mem_singleton.mp (hsegs ▸ hsp)
    exact Finset.disjoint_left.mpr fun x hx hx' => by
      simp only [Segment.region, mem_region] at hx hx'
      omega

end

end PrecisionGc.Dlmalloc
