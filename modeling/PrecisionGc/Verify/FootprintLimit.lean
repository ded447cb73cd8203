import Mathlib.Algebra.Order.BigOperators.Group.List
import PrecisionGc.Verify.Extension

/-!
# The footprint limit

`sys_alloc` tests the limit against the padded request, and then maps a size that has a third of the
heap in it. Over a run that sets no limit below the footprint, the footprint stays within the limit
exactly if the extensions that are granted leave room for that third.
-/

namespace PrecisionGc.Dlmalloc
open Regions Runs

variable {m m' m'' : MState} {nb tbase tsize : Nat} {mmap : Nat → Option Nat}

/-- The segments, the footprint and its limit are the same in two states. -/
structure SameFootprint (m m' : MState) : Prop where
  segs : m'.segs = m.segs
  footprint : m'.footprint = m.footprint
  footprintLimit : m'.footprintLimit = m.footprintLimit

theorem Rebins.sameFootprint (h : Rebins m m') : SameFootprint m m' := by
  obtain ⟨dv, dvsize, bins, mem, rfl⟩ := h
  exact ⟨rfl, rfl, rfl⟩

namespace SameFootprint

theorem trans (h : SameFootprint m m') (h' : SameFootprint m' m'') : SameFootprint m m'' :=
  ⟨h'.segs.trans h.segs, h'.footprint.trans h.footprint, h'.footprintLimit.trans h.footprintLimit⟩

theorem initTop (m : MState) (p psize : Nat) : SameFootprint m (initTop m p psize) :=
  ⟨rfl, rfl, rfl⟩

theorem splitTop (m : MState) (nb : Nat) : SameFootprint m (splitTop m nb).2 :=
  ⟨rfl, rfl, rfl⟩

theorem allocateTop (m : MState) (nb : Nat) : SameFootprint m (allocateTop m nb).2 := by
  unfold Dlmalloc.allocateTop
  split
  · exact splitTop m nb
  · exact ⟨rfl, rfl, rfl⟩

theorem prependAlloc (m : MState) (newbase oldbase nb : Nat) :
    SameFootprint m (prependAlloc m newbase oldbase nb).2 := by
  unfold Dlmalloc.prependAlloc
  dsimp only
  split
  · exact ⟨rfl, rfl, rfl⟩
  split
  · exact ⟨rfl, rfl, rfl⟩
  split
  · exact ((Rebins.setInuseChunk ..).trans (Rebins.binned ..)).sameFootprint
  · exact ((Rebins.setInuseChunk ..).trans
      ((Rebins.unlinkChunk ..).trans (Rebins.binned ..))).sameFootprint

end SameFootprint

/-! ## What the segments take -/

/-- The segments take no more than the footprint, which did not wrap around. -/
structure Counted (m : MState) : Prop where
  sum_le : (m.segs.map Segment.size).sum ≤ m.footprint
  bound : m.footprint ≤ userEnd

/-- The segments took at most `tsize` bytes, and the footprint and its limit stayed. -/
structure Grown (m : MState) (tsize : Nat) (m' : MState) : Prop where
  sum_le : (m'.segs.map Segment.size).sum ≤ (m.segs.map Segment.size).sum + tsize
  footprint : m'.footprint = m.footprint
  footprintLimit : m'.footprintLimit = m.footprintLimit

theorem SameFootprint.grown (h' : SameFootprint m' m'') (h : Grown m tsize m') :
    Grown m tsize m'' :=
  ⟨h'.segs ▸ h.sum_le, h'.footprint.trans h.footprint, h'.footprintLimit.trans h.footprintLimit⟩

theorem sum_updateFirst_le {p : Segment → Bool} {g : Segment → Segment} {segs : List Segment}
    (hg : ∀ sp, (g sp).size ≤ sp.size + tsize) :
    ((updateFirst p g segs).map Segment.size).sum ≤ (segs.map Segment.size).sum + tsize := by
  induction segs with
  | nil => simp [updateFirst]
  | cons sp segs ih =>
    have := hg sp
    cases hp : p sp with
    | true =>
      simp only [updateFirst, hp, List.replaceF_cons, if_true, List.map_cons, List.sum_cons]
      omega
    | false =>
      simp only [updateFirst, hp, List.replaceF_cons, Bool.false_eq_true, if_false, List.map_cons,
        List.sum_cons] at ih ⊢
      omega

theorem addSize_le (a b : Nat) : addSize a b ≤ a + b := Nat.mod_le ..

theorem pushSegment_grown {ss : Nat} {mmapped : Bool} (h : SameFootprint m m') :
    Grown m tsize (m'.pushSegment ss tbase tsize mmapped) := by
  refine ⟨?_, h.footprint, h.footprintLimit⟩
  rw [← h.segs]
  unfold MState.pushSegment
  cases m'.segs with
  | nil => simp
  | cons seg next =>
    simp only [List.map_cons, List.sum_cons]
    omega

theorem addSegment_cases {mmapped : Bool} (h : addSegment m tbase tsize mmapped = .ok m') :
    ∃ csp ssize tnext oldEnd, m' = retireTop (((initTop m tbase
      (subSize tsize topFootSize)).setInuseChunk csp ssize).pushSegment (chunk2mem csp) tbase tsize
        mmapped) m.top csp tnext oldEnd := by
  cases hsp : m.segmentHolding m.top with
  | none =>
    simp only [addSegment, hsp] at h
    cases h
  | some sp =>
    simp only [addSegment, hsp, Except.pure_def, Except.ok.injEq] at h
    exact ⟨_, _, _, _, h.symm⟩

theorem addSegment_grown {mmapped : Bool} (h : addSegment m tbase tsize mmapped = .ok m') :
    Grown m tsize m' := by
  obtain ⟨csp, ssize, tnext, oldEnd, rfl⟩ := addSegment_cases h
  exact (Rebins.retireTop ..).sameFootprint.grown (pushSegment_grown
    ((SameFootprint.initTop ..).trans (Rebins.setInuseChunk ..).sameFootprint))

/-- The new memory is counted once. -/
theorem place_grown {r : Nat × MState} (h : place m tbase tsize nb = .ok r) :
    Grown (m.addFootprint tsize) tsize r.2 := by
  unfold place at h
  generalize m.addFootprint tsize = m₁ at h ⊢
  dsimp only at h
  split at h
  · obtain rfl := Except.ok.inj h
    refine ((SameFootprint.initTop ..).trans (SameFootprint.allocateTop ..)).grown ⟨?_, rfl, rfl⟩
    simp
  split at h
  · obtain rfl := Except.ok.inj h
    exact ((SameFootprint.initTop ..).trans (SameFootprint.allocateTop ..)).grown
      ⟨sum_updateFirst_le fun sp => addSize_le .., rfl, rfl⟩
  split at h
  · obtain rfl := Except.ok.inj h
    exact (SameFootprint.prependAlloc ..).grown
      ⟨sum_updateFirst_le fun sp => addSize_le .., rfl, rfl⟩
  · obtain ⟨m', hm', h⟩ := Except.bind_eq_ok.mp h
    obtain rfl := Except.ok.inj h
    have hgrown := addSegment_grown hm'
    exact (SameFootprint.allocateTop ..).grown
      ⟨hgrown.sum_le, hgrown.footprint, hgrown.footprintLimit⟩

/-! ## Giving memory back -/

/-- The segments take no more than the footprint, which did not grow. -/
structure Shrunk (m m' : MState) : Prop where
  sum_le : (m'.segs.map Segment.size).sum ≤ m'.footprint
  footprint_le : m'.footprint ≤ m.footprint
  footprintLimit : m'.footprintLimit = m.footprintLimit

namespace Shrunk

theorem refl (h : Counted m) : Shrunk m m := ⟨h.sum_le, le_rfl, rfl⟩

theorem same (h : Shrunk m m') (h' : SameFootprint m' m'') : Shrunk m m'' where
  sum_le := by
    rw [h'.segs, h'.footprint]
    exact h.sum_le
  footprint_le := h'.footprint ▸ h.footprint_le
  footprintLimit := h'.footprintLimit.trans h.footprintLimit

theorem counted (h : Shrunk m m') (hm : Counted m) : Counted m' :=
  ⟨h.sum_le, h.footprint_le.trans hm.bound⟩

theorem trans (h : Shrunk m m') (h' : Shrunk m' m'') : Shrunk m m'' :=
  ⟨h'.sum_le, h'.footprint_le.trans h.footprint_le, h'.footprintLimit.trans h.footprintLimit⟩

end Shrunk

theorem releaseLoop_footprintLimit (munmap : Nat → Nat → Bool) (l : List Segment) (m : MState)
    (released : Nat) :
    (releaseLoop munmap l m released).2.1.footprintLimit = m.footprintLimit := by
  induction l generalizing m released with
  | nil => rfl
  | cons sp next ih =>
    obtain ⟨m₁, hm₁, heq⟩ := releaseLoop_cons munmap sp next m released
    rcases heq with heq | heq <;> rw [heq]
    · exact (ih m₁ released).trans hm₁.sameFootprint.footprintLimit
    · exact (ih _ _).trans hm₁.sameFootprint.footprintLimit

theorem releaseUnusedSegments_shrunk (h : Counted m) (munmap : Nat → Nat → Bool) :
    Shrunk m (releaseUnusedSegments munmap m).1 := by
  obtain ⟨hsum, hbound⟩ := h
  simp only [userEnd] at hbound
  unfold releaseUnusedSegments
  split
  case h_1 => exact ⟨hsum, le_rfl, rfl⟩
  case h_2 seg next hsegs =>
  have hlimit := releaseLoop_footprintLimit munmap next m 0
  rw [hsegs, List.map_cons, List.sum_cons] at hsum
  obtain ⟨kept, m', n, hloop, hkept, -, -, hfoot⟩ :=
    releaseLoop_spec munmap next m 0 (by omega) (by omega)
  rw [hloop] at hlimit
  have hle : (kept.map Segment.size).sum ≤ (next.map Segment.size).sum :=
    (hkept.map Segment.size).sum_le_sum fun _ _ => Nat.zero_le _
  simp only [hloop]
  constructor
  case sum_le =>
    rw [List.map_cons, List.sum_cons]
    dsimp only
    omega
  case footprint_le =>
    dsimp only
    omega
  case footprintLimit => exact hlimit

theorem trimTop_shrunk (h : Counted m) (shrink : Nat → Nat → Bool) (pad : Nat) :
    Shrunk m (trimTop shrink m pad).1 := by
  unfold trimTop
  dsimp only
  generalize trimExtra m.topsize pad = extra
  split
  case h_1 => exact .refl h
  case h_2 sp hfind =>
  split
  case isFalse => exact .refl h
  case isTrue hextra =>
  simp only [Bool.and_eq_true, decide_eq_true_eq] at hextra
  obtain ⟨-, l₁, l₂, hl, hl'⟩ := updateFirst_of_find?
    (g := fun sp => { sp with size := subSize sp.size extra }) hfind
  obtain ⟨hsum, hbound⟩ := h
  simp only [userEnd] at hbound
  simp only [hl, List.map_append, List.map_cons, List.sum_append, List.sum_cons] at hsum
  have hle : extra ≤ sp.size := hextra.1.1.1.2
  have hsz : subSize sp.size extra = sp.size - extra := subSize_eq (by omega) hle
  have hfs : subSize m.footprint extra = m.footprint - extra := subSize_eq (by omega) (by omega)
  have htrim : Shrunk m { m with
      segs := updateFirst (fun sp => sp.holds m.top)
        (fun sp => { sp with size := subSize sp.size extra }) m.segs
      footprint := subSize m.footprint extra } := by
    refine ⟨?_, by dsimp only; omega, rfl⟩
    simp only [hl', hsz, hfs, List.map_append, List.map_cons, List.sum_append, List.sum_cons]
    omega
  exact htrim.same (SameFootprint.initTop ..)

theorem sysTrim_shrunk (h : Counted m) (shrink munmap : Nat → Nat → Bool) (pad : Nat) :
    Shrunk m (sysTrim shrink munmap m pad).1 := by
  unfold sysTrim
  split
  case isFalse => exact .refl h
  case isTrue =>
  generalize addSize pad topFootSize = pad
  have htrim : Shrunk m (if pad < m.topsize then trimTop shrink m pad else (m, 0)).1 := by
    split
    · exact trimTop_shrunk h shrink pad
    · exact .refl h
  dsimp only
  generalize (if pad < m.topsize then trimTop shrink m pad else (m, 0)) = t at htrim ⊢
  have hrelease := htrim.trans (releaseUnusedSegments_shrunk (htrim.counted h) munmap)
  split
  · exact hrelease.same ⟨rfl, rfl, rfl⟩
  · exact hrelease

/-! ## Runs -/

/-- The footprint is within the limit, if one is set. -/
def WithinLimit (m : MState) : Prop := m.footprintLimit ≠ 0 → m.footprint ≤ m.footprintLimit

/-- A request is a `size_t`, the mappings in use at a time are user addresses, and the limit is not
set below the footprint. -/
def Permitted (m : MState) : Op → Prop
  | .sysAlloc mmap nb =>
      nb < 2 ^ 64 ∧ ∀ size a, mmap size = some a → m.footprint + size ≤ userEnd
  | .setFootprintLimit bytes => WithinLimit (setFootprintLimit m bytes)
  | _ => True

/-- Under a limit, an extension that is granted after the tests leaves room for a third of the
footprint beside the request, rounded up to a further multiple of 16. -/
def HasRoom (m : MState) : Op → Prop
  | .sysAlloc mmap nb => m.footprintLimit ≠ 0 → Recomputes m nb →
      ∀ a, mmap (extensionSize (getHeapSize m) nb) = some a →
        m.footprint + ((m.footprint / 3 + nb) / 16 * 16 + 16) ≤ m.footprintLimit
  | _ => True

theorem overLimit_eq_false {size : Nat} (hm : m.footprint < 2 ^ 64) (hsize : size < 2 ^ 64)
    (hlimit : m.footprintLimit ≠ 0) (h : m.overLimit size = false) :
    m.footprint + size < 2 ^ 64 ∧ m.footprint + size ≤ m.footprintLimit := by
  simp only [MState.overLimit, Bool.and_eq_false_iff, bne_eq_false_iff_eq, Bool.or_eq_false_iff,
    addSize] at h
  obtain ⟨hwrap, hover⟩ := h.resolve_left hlimit
  have hwrap := of_decide_eq_false hwrap
  have hover := of_decide_eq_false hover
  omega

theorem requestedSize_lt (nb : Nat) : requestedSize nb < 2 ^ 64 := by
  simp only [requestedSize, granularityAlign, addSize, granularity]
  omega

/-- Under a limit that lets the padded request pass, the recomputed size does not wrap around. -/
theorem Recomputes.extensionSize_eq (hrec : Recomputes m nb) (hm : m.footprint ≤ userEnd)
    (hlimit : m.footprintLimit ≠ 0) :
    extensionSize (getHeapSize m) nb = (m.footprint / 3 + nb) / 16 * 16 + 16 := by
  obtain ⟨hinit, hlt, hover⟩ := hrec
  have hshare := heapShare_eq hinit hm
  simp only [userEnd] at hm
  have htest := overLimit_eq_false (by omega) (requestedSize_lt nb) hlimit hover
  have hpadding := requestedSize_spec hlt
  simp only [sysAllocPadding, topFootSize] at hpadding
  have hideal : idealSize (getHeapSize m) nb = (m.footprint / 3 + nb) / 16 * 16 + 16 := by
    rw [idealSize, hshare]
    omega
  rw [Dlmalloc.extensionSize_eq (by omega), hideal]

/-- The extension that was asked for is counted in full. -/
theorem place_footprint {r : Nat × MState} (h : place m tbase tsize nb = .ok r)
    (hsize : m.footprint + tsize ≤ userEnd) (hm : Counted m) :
    Counted r.2 ∧ r.2.footprint = m.footprint + tsize ∧ r.2.footprintLimit = m.footprintLimit := by
  obtain ⟨hsum, hfoot, hlimit⟩ := place_grown h
  have hadd : (m.addFootprint tsize).footprint = m.footprint + tsize :=
    addSize_eq (by simp only [userEnd] at hsize; omega)
  rw [hadd] at hfoot
  have := hm.sum_le
  have hsegs : (m.addFootprint tsize).segs = m.segs := rfl
  rw [hsegs] at hsum
  exact ⟨⟨by omega, by omega⟩, hfoot, hlimit⟩

/-- `sys_alloc` keeps the footprint within the limit exactly if there is room. -/
theorem sysAlloc_withinLimit_iff {r : Nat × MState} (hm : Counted m) (hw : WithinLimit m)
    (hok : Permitted m (.sysAlloc mmap nb)) (h : sysAlloc mmap m (getHeapSize m) nb = .ok r) :
    Counted r.2 ∧ (WithinLimit r.2 ↔ HasRoom m (.sysAlloc mmap nb)) := by
  obtain ⟨hnb, hgrant⟩ := hok
  by_cases hmax : nb = maxSizeT
  · rw [hmax, sysAlloc_maxSizeT] at h
    obtain rfl := Except.ok.inj h
    exact ⟨hm, iff_of_true hw fun _ hrec => absurd hrec.2.1 (hmax ▸ by decide)⟩
  rw [sysAlloc_eq (by simp only [maxSizeT] at hmax ⊢; omega)] at h
  split at h
  · obtain rfl := Except.ok.inj h
    exact ⟨hm, iff_of_true hw fun _ hrec => absurd hrec.2.1 (by omega)⟩
  split at h
  case isTrue hover =>
    obtain rfl := Except.ok.inj h
    exact ⟨hm, iff_of_true hw fun _ hrec => absurd hrec.2.2 (by simp [hover])⟩
  case isFalse hlt hover =>
  have hover : m.overLimit (requestedSize nb) = false := by simpa using hover
  dsimp only at h
  split at h
  case h_1 hmmap =>
    obtain rfl := Except.ok.inj h
    refine ⟨hm, iff_of_true hw fun _ hrec a ha => ?_⟩
    rw [if_pos hrec.1, ha] at hmmap
    cases hmmap
  case h_2 tbase hmmap =>
  obtain ⟨hcounted, hfoot, hlimit⟩ := place_footprint h (hgrant _ _ hmmap) hm
  refine ⟨hcounted, ?_⟩
  have hbound := hm.bound
  simp only [userEnd] at hbound
  rw [WithinLimit, hfoot, hlimit]
  cases hinit : m.isInitialized with
  | true =>
    rw [hinit, if_pos rfl] at hmmap
    have hrec : Recomputes m nb := ⟨hinit, by omega, hover⟩
    constructor
    · intro hle hne _ a _
      rw [← hrec.extensionSize_eq hm.bound hne]
      exact hle hne
    · intro hroom hne
      rw [if_pos rfl, hrec.extensionSize_eq hm.bound hne]
      exact hroom hne hrec tbase hmmap
  | false =>
    -- the first extension is the size that was tested
    refine iff_of_true (fun hne => ?_) fun _ hrec => absurd hrec.1 (by simp [hinit])
    exact (overLimit_eq_false (by omega) (requestedSize_lt nb) hne hover).2

theorem mergeTop_shrunk (h : Counted m) (psize : Nat) : Shrunk m (mergeTop m psize) := by
  refine (Shrunk.refl h).same ?_
  unfold mergeTop
  dsimp only
  split <;> exact ⟨rfl, rfl, rfl⟩

/-- A step from within the limit stays within it exactly if there is room. -/
theorem exec_withinLimit_iff {op : Op} (hm : Counted m) (hw : WithinLimit m)
    (hok : Permitted m op) (h : exec m op = .ok m') :
    Counted m' ∧ (WithinLimit m' ↔ HasRoom m op) := by
  have kept (hs : Shrunk m m') : Counted m' ∧ (WithinLimit m' ↔ True) := by
    refine ⟨hs.counted hm, iff_of_true (fun hne => ?_) trivial⟩
    rw [hs.footprintLimit] at hne ⊢
    exact hs.footprint_le.trans (hw hne)
  cases op with
  | sysAlloc mmap nb =>
    obtain ⟨r, hr, rfl⟩ := Except.map_eq_ok.mp h
    exact sysAlloc_withinLimit_iff hm hw hok hr
  | setFootprintLimit bytes =>
    obtain rfl := Except.ok.inj h
    exact ⟨⟨hm.sum_le, hm.bound⟩, iff_of_true hok trivial⟩
  | sysTrim shrink munmap pad => exact kept (Except.ok.inj h ▸ sysTrim_shrunk hm shrink munmap pad)
  | releaseUnusedSegments munmap =>
    exact kept (Except.ok.inj h ▸ releaseUnusedSegments_shrunk hm munmap)
  | splitTop nb => exact kept (Except.ok.inj h ▸ (Shrunk.refl hm).same (SameFootprint.splitTop ..))
  | mergeTop psize => exact kept (Except.ok.inj h ▸ mergeTop_shrunk hm psize)
  | rebin dv dvsize bins mem =>
    have hrebins : Rebins m { m with dv, dvsize, bins, mem } := ⟨_, _, _, _, rfl⟩
    exact kept (Except.ok.inj h ▸ (Shrunk.refl hm).same hrebins.sameFootprint)

/-- Only a mapping of `size` bytes is granted, at `a`. -/
def grantOnly (size a : Nat) : Nat → Option Nat := fun n => if n = size then some a else none

theorem grantOnly_eq_some {size a n b : Nat} (h : grantOnly size a n = some b) : n = size := by
  unfold grantOnly at h
  split at h
  · assumption
  · cases h

/-- The limit is set to 384 KiB, the first request leaves 16 bytes of `top`, and 64 bytes are
requested. -/
def limitedRun : List Op :=
  [.setFootprintLimit 393216, .sysAlloc (grantOnly 327680 0x7f0000000000) 262144, .splitTop 65440,
    .sysAlloc (grantOnly 109296 0x7f0010000000) 64]

theorem limitedRun_permitted : Along exec Permitted .start limitedRun := by
  refine ⟨fun _ => by decide, fun m₁ h₁ => ⟨⟨by decide, fun size a ha => ?_⟩, fun m₂ h₂ =>
    ⟨trivial, fun m₃ h₃ => ⟨⟨by decide, fun size a ha => ?_⟩, fun _ _ => trivial⟩⟩⟩⟩
  · obtain rfl := Except.ok.inj h₁
    exact grantOnly_eq_some ha ▸ by decide
  · obtain rfl := Except.ok.inj h₁
    obtain rfl := Except.ok.inj h₃
    have hfoot : MState.footprint <$> exec (setFootprintLimit .start 393216)
        (.sysAlloc (grantOnly 327680 0x7f0000000000) 262144) = .ok 327680 := by
      decide +kernel
    obtain ⟨m₂', heq, hfoot⟩ := Except.map_eq_ok.mp hfoot
    obtain rfl := Except.ok.inj (h₂.symm.trans heq)
    rw [(SameFootprint.splitTop ..).footprint, hfoot, grantOnly_eq_some ha]
    decide

end PrecisionGc.Dlmalloc
