import PrecisionGc.Verify.Release
import PrecisionGc.Verify.Trigger

/-!
# Serving requests from the heap

A free chunk that is taken from `dv` or from a bin is used whole or split. Whatever path a request
takes, the block that it obtains is a chunk of its own, large enough and not much larger, and the
other blocks are as they were.
-/

namespace PrecisionGc.Dlmalloc
open Regions BoundaryTags

variable {m m' : MState} {S : List Span} {X U : List (Nat × Nat)} {x : Hole}
  {p s q t nb bytes : Nat} {r : Nat × MState}

/-! ## Padded requests -/

/-- The size of a chunk that can be asked for. -/
structure ChunkSize (nb : Nat) : Prop where
  mod : nb % 16 = 0
  min : minChunkSize ≤ nb
  lt : nb < 2 ^ 64

theorem ChunkSize.padded (h : ChunkSize nb) : Padded nb := ⟨h.mod, h.lt⟩

theorem padRequest_spec (h : bytes < maxRequest) : padRequest bytes % 16 = 0 ∧
    bytes + 8 ≤ padRequest bytes ∧ padRequest bytes ≤ bytes + 23 := by
  simp only [maxRequest] at h
  rw [padRequest, addSize_eq (a := bytes) (by omega), addSize_eq (by omega)]
  omega

theorem request2size_spec (h : bytes < maxRequest) : ChunkSize (request2size bytes) ∧
    bytes + 8 ≤ request2size bytes ∧ request2size bytes ≤ bytes + minChunkSize := by
  obtain ⟨hmod, hle, hle'⟩ := padRequest_spec h
  simp only [maxRequest] at h
  unfold request2size
  split <;> rename_i hmin <;> simp only [minRequest, minChunkSize] at hmin ⊢
  · exact ⟨⟨rfl, le_rfl, by decide⟩, by omega, by omega⟩
  · exact ⟨⟨hmod, by simp only [minChunkSize]; omega, by omega⟩, by omega, by omega⟩

/-- The size that is looked for, of a request that is not too large. -/
theorem requestSize_eq (h : bytes < maxRequest) : requestSize bytes = request2size bytes := by
  rw [requestSize]
  split
  · rfl
  · rename_i hlarge
    simp only [maxSmallRequest] at hlarge
    rw [if_neg (by omega), request2size, if_neg (by simp only [minRequest]; omega)]

theorem requestSize_large (h : maxRequest ≤ bytes) : requestSize bytes = maxSizeT := by
  rw [requestSize, if_neg (by simp only [maxSmallRequest, maxRequest] at *; omega), if_pos h]

/-! ## Taking free chunks -/

/-- A free chunk goes into a bin. -/
theorem Tiled.replaceDv (h : Tiled m S ((p, s) :: X)) (hs : s ≠ 0) :
    Tiled (m.replaceDv p s) S X := by
  unfold MState.replaceDv
  split
  case isTrue hdv =>
    have hdv : m.dvsize ≠ 0 := by simpa using hdv
    refine h.rebin (fun h0 => absurd h0 hs) ?_
    simp only [MState.dvChunk, if_neg hdv, if_neg hs, MState.insertChunk, List.cons_append,
      List.nil_append]
    exact List.perm_middle.symm
  case isFalse hdv =>
    have hdv : m.dvsize = 0 := by simpa using hdv
    exact h.setDv hdv hs

theorem Blocks.replaceDv (h : Blocks m U ((p, s) :: X)) (hs : s ≠ 0) :
    Blocks (m.replaceDv p s) U X := by
  obtain ⟨S, hS, hU⟩ := h
  exact ⟨S, hS.replaceDv hs, hU⟩

/-- A loose free chunk has its place. -/
structure Loose (m : MState) (p s : Nat) (U : List (Nat × Nat)) : Prop where
  mod : s % 16 = 0
  min : minChunkSize ≤ s
  bound : p + s + 32 < 2 ^ 56
  hole : ∃ x : Hole, Tiled m (x.fill [⟨p, s, .free⟩]) [(p, s)] ∧ (ofKind .inuse x.others).Perm U

theorem Tiled.loose (h : Tiled m (x.fill [⟨p, s, .free⟩]) [(p, s)])
    (hU : (ofKind .inuse (chunks (x.fill [⟨p, s, .free⟩]))).Perm U) : Loose m p s U := by
  obtain ⟨-, -, -, hmod, hmin, hbound⟩ := h.chunk_spec mem_fill_chunk
  refine ⟨hmod, hmin, hbound, x, h, ?_⟩
  simpa using (x.inuse_fill _).symm.trans hU

theorem Blocks.binned (h : Blocks m U []) (hc : (p, s) ∈ m.bins) :
    Loose (m.unlinkChunk p s) p s U := by
  obtain ⟨S, hS, hU⟩ := h
  obtain ⟨x, rfl⟩ := hS.hole_of_binned hc
  exact (hS.unlink hc).loose hU

theorem Blocks.dv (h : Blocks m U []) (hdv : m.dvsize ≠ 0) :
    Loose { m with dv := 0, dvsize := 0 } m.dv m.dvsize U := by
  obtain ⟨S, hS, hU⟩ := h
  obtain ⟨x, rfl⟩ := hS.hole_of_dv hdv
  have hclear := hS.clearDv
  rw [MState.dvChunk, if_neg hdv] at hclear
  exact hclear.loose hU

namespace Loose

variable (h : Loose m p s U)
include h

/-- The chunk is used whole. -/
theorem whole (hle : nb ≤ s) (hlt : s < nb + minChunkSize) :
    Obtains m U nb (chunk2mem p, m.setInuseAndPinuse p s) := by
  obtain ⟨x, hm, hU⟩ := h.hole
  obtain ⟨hm', hkeep⟩ := hm.take
  exact (hm'.obtains rfl hle hlt hkeep).perm hU

/-- The chunk is split. -/
theorem split (hnb : ChunkSize nb) (hle : nb + minChunkSize ≤ s) :
    Blocks ((m.setInuseChunk p nb).setFreeChunk (p + nb) (s - nb)) ((p, nb) :: U)
        [(p + nb, s - nb)] ∧
      Keeps m ((m.setInuseChunk p nb).setFreeChunk (p + nb) (s - nb)) U := by
  obtain ⟨x, hm, hU⟩ := h.hole
  have hs : s = nb + (s - nb) := by omega
  rw [hs] at hm
  obtain ⟨hm', hkeep⟩ := hm.split hnb.mod hnb.min (by omega)
  refine ⟨hm'.blocks.perm ?_, hkeep.mono hU.symm.subset⟩
  simpa [entry] using hU

end Loose

/-- What a tree search finds is large enough. -/
theorem leastFit_le {l : List (Nat × Nat)} {v : Nat × Nat} (h : leastFit nb l = some v) :
    nb ≤ v.2 := by
  induction l with
  | nil => cases h
  | cons c l ih =>
    rw [leastFit] at h
    split at h
    · split at h
      case isTrue hc =>
        obtain rfl := Option.some.inj h
        simp only [Bool.and_eq_true, decide_eq_true_eq] at hc
        exact hc.2
      case isFalse => cases h
    · rename_i b hb
      split at h
      case isTrue hc =>
        obtain rfl := Option.some.inj h
        simp only [Bool.and_eq_true, decide_eq_true_eq] at hc
        exact hc.1.2
      case isFalse =>
        obtain rfl := Option.some.inj h
        exact ih hb

theorem setInuseChunk_setFreeChunk (h : addSize q 8 ≠ addSize p 8)
    (h' : addSize q t ≠ addSize p 8) :
    (m.setFreeChunk q t).setInuseChunk p s = (m.setInuseChunk p s).setFreeChunk q t := by
  simp only [MState.setInuseChunk, MState.setFreeChunk, MState.setHead, MState.setFoot,
    Function.update_comm h, Function.update_comm h']

theorem replaceDv_mem : (m.replaceDv p s).mem = m.mem := by
  unfold MState.replaceDv
  split <;> rfl

/-! ## The paths of a request -/

section Paths

variable (h : Blocks m U []) (hnb : ChunkSize nb)
include h

/-- What is in a small bin. -/
theorem Blocks.smallbin {i : Nat} {c : Nat × Nat} (hc : m.smallbin i = some c) :
    Loose (m.unlinkChunk c.1 c.2) c.1 c.2 U ∧ smallIndex2size i = c.2 ∧ c.2 = 8 * i := by
  have hloose := h.binned (smallbin_mem hc)
  have hi := List.find?_some hc
  have hmod := hloose.mod
  simp only [smallIndex, beq_iff_eq] at hi
  refine ⟨hloose, ?_, by omega⟩
  simp only [smallIndex2size]
  omega

include hnb

/-- A chunk from a bin is used whole or split; `rest` puts what is left into `dv` or a bin. -/
theorem Blocks.cut {rest : MState → Nat → Nat → MState} (hc : (p, s) ∈ m.bins) (hle : nb ≤ s)
    (hrest : ∀ {m V q t}, t ≠ 0 → Blocks m V [(q, t)] →
      Blocks (rest m q t) V [] ∧ (rest m q t).mem = m.mem)
    (hr : r = if subSize s nb < minChunkSize then
        (chunk2mem p, (m.unlinkChunk p s).setInuseAndPinuse p s)
      else (chunk2mem p, rest (((m.unlinkChunk p s).setInuseChunk p nb).setFreeChunk (addSize p nb)
        (subSize s nb)) (addSize p nb) (subSize s nb))) : Obtains m U nb r := by
  have hloose := h.binned hc
  have hbound := hloose.bound
  have hmod := hnb.mod
  have hmod' := hloose.mod
  rw [subSize_eq (by omega) hle, addSize_eq (by omega)] at hr
  split at hr
  case isTrue hlt =>
    subst hr
    exact (hloose.whole hle (by omega)).of_keeps (.of_mem rfl)
  case isFalse hlt =>
    subst hr
    obtain ⟨hm, hkeep⟩ := hloose.split hnb (by omega)
    obtain ⟨hm', hmem⟩ := hrest (by simp only [minChunkSize] at hlt; omega) hm
    exact ⟨p, nb, rfl, le_rfl, by simp only [minChunkSize]; omega, hm',
      Keeps.trans (.of_mem rfl) (hkeep.trans (.of_mem hmem))⟩

theorem smallFit_obtains (hr : smallFit m nb = some r) : Obtains m U nb r := by
  obtain ⟨c, hc, hr⟩ := Option.bind_eq_some_iff.mp hr
  obtain rfl := Option.some.inj hr
  obtain ⟨hloose, hsize, heq⟩ := h.smallbin hc
  have hmod := hnb.mod
  have hmod' := hloose.mod
  rw [hsize]
  -- sizes are multiples of 16, so that every other bin is empty
  have hidx : (if (m.smallbin (smallIndex nb)).isSome then smallIndex nb else smallIndex nb + 1) =
      nb / 8 ∨ (if (m.smallbin (smallIndex nb)).isSome then smallIndex nb else smallIndex nb + 1) =
      nb / 8 + 1 := by
    split
    · exact .inl rfl
    · exact .inr rfl
  have hnb' : c.2 = nb := by omega
  exact (hloose.whole hnb'.ge (by simp only [minChunkSize]; omega)).of_keeps (.of_mem rfl)

theorem smallSplit_obtains (hr : smallSplit m nb = some r) : Obtains m U nb r := by
  obtain ⟨i, hi, hr⟩ := Option.bind_eq_some_iff.mp hr
  obtain ⟨c, hc, hr⟩ := Option.bind_eq_some_iff.mp hr
  obtain ⟨hloose, hsize, heq⟩ := h.smallbin hc
  have hi := List.find?_some hi
  have hmod := hnb.mod
  have hmod' := hloose.mod
  rw [Bool.and_eq_true, decide_eq_true_eq, smallIndex] at hi
  dsimp only at hr
  rw [hsize, ← apply_ite some] at hr
  exact h.cut hnb (smallbin_mem hc) (by omega) (fun ht hm => ⟨hm.replaceDv ht, replaceDv_mem⟩)
    (Option.some.inj hr).symm

theorem tmallocSmall_obtains (hr : tmallocSmall m nb = some r) : Obtains m U nb r := by
  obtain ⟨v, hv, hr⟩ := Option.bind_eq_some_iff.mp hr
  have hle := leastFit_le hv
  have hbound := (h.binned (leastFit_mem hv)).bound
  have hsum : addSize (subSize v.2 nb) nb = v.2 := by
    rw [subSize_eq (by omega) hle, addSize_eq (by omega)]
    omega
  dsimp only at hr
  rw [hsum, ← apply_ite some] at hr
  exact h.cut hnb (leastFit_mem hv) hle (fun ht hm => ⟨hm.replaceDv ht, replaceDv_mem⟩)
    (Option.some.inj hr).symm

theorem tmallocLarge_obtains (hr : tmallocLarge m nb = some r) : Obtains m U nb r := by
  obtain ⟨v, hv, hr⟩ := Option.bind_eq_some_iff.mp hr
  have hle := leastFit_le hv
  have hbound := (h.binned (leastFit_mem hv)).bound
  have hsum : addSize (subSize v.2 nb) nb = v.2 := by
    rw [subSize_eq (by omega) hle, addSize_eq (by omega)]
    omega
  dsimp only at hr
  split at hr
  case isFalse => cases hr
  case isTrue =>
  rw [hsum, ← apply_ite some] at hr
  exact h.cut hnb (leastFit_mem hv) hle (fun _ hm => ⟨hm.insert, rfl⟩) (Option.some.inj hr).symm

theorem fromBins_obtains (hr : fromBins m bytes nb = some r) : Obtains m U nb r := by
  unfold fromBins at hr
  split at hr
  · rcases (Option.orElse_eq_some _ _ _).mp hr with hr | ⟨-, hr⟩
    · exact smallFit_obtains h hnb hr
    split at hr
    · rcases (Option.orElse_eq_some _ _ _).mp hr with hr | ⟨-, hr⟩
      · exact smallSplit_obtains h hnb hr
      · exact tmallocSmall_obtains h hnb hr
    · cases hr
  split at hr
  · cases hr
  · exact tmallocLarge_obtains h hnb hr

/-- `dv` is split from the front, or used up. -/
theorem fromDv_obtains (hle : nb ≤ m.dvsize) : Obtains m U nb (fromDv m nb) := by
  have hmin := hnb.min
  simp only [minChunkSize] at hmin
  have hloose := h.dv (by omega)
  have hbound := hloose.bound
  have hmod := hnb.mod
  have hmod' := hloose.mod
  have hrs : subSize m.dvsize nb = m.dvsize - nb := subSize_eq (by omega) hle
  simp only [fromDv, hrs, addSize_eq (a := m.dv) (b := nb) (by omega)]
  split
  case isTrue hlt =>
    obtain ⟨hm, hkeep⟩ := hloose.split hnb (by omega)
    simp only [minChunkSize] at hlt
    rw [setInuseChunk_setFreeChunk (by
        rw [addSize_eq (by omega), addSize_eq (by omega)]
        omega) (by
        rw [addSize_eq (by omega), addSize_eq (by omega)]
        omega)]
    exact ⟨m.dv, nb, rfl, le_rfl, by simp only [minChunkSize]; omega, hm.setDv rfl (by omega),
      Keeps.trans (.of_mem rfl) hkeep⟩
  case isFalse hlt => exact (hloose.whole hle (by omega)).of_keeps (.of_mem rfl)

/-- What the heap serves as it is. -/
theorem Blocks.fromHeap_obtains (hr : fromHeap m bytes nb = some r) : Obtains m U nb r := by
  rcases (Option.orElse_eq_some _ _ _).mp hr with hr | ⟨-, hr⟩
  · exact fromBins_obtains h hnb hr
  split at hr
  · obtain rfl := Option.some.inj hr
    exact fromDv_obtains h hnb ‹_›
  split at hr
  · obtain rfl := Option.some.inj hr
    obtain ⟨S, hS, hU⟩ := h
    exact (hS.obtains_top hnb.mod hnb.min ‹_›).perm hU
  · cases hr

end Paths

theorem requestSize_pos (bytes : Nat) : 0 < requestSize bytes := by
  rcases Nat.lt_or_ge bytes maxRequest with h | h
  · rw [requestSize_eq h]
    have := (request2size_spec h).2.1
    omega
  · rw [requestSize_large h]
    decide

theorem Pristine.fromHeap_eq_none (h : Pristine m) :
    fromHeap m bytes (requestSize bytes) = none := by
  have hpos := requestSize_pos bytes
  have hbins : fromBins m bytes (requestSize bytes) = none := by
    refine Option.eq_none_iff_forall_not_mem.mpr fun r hr => ?_
    obtain ⟨p, hp, -⟩ := fromBins_takes hr
    simp [h.bins] at hp
  rw [Dlmalloc.fromHeap, hbins, if_neg (by rw [h.dvsize]; omega), if_neg (by rw [h.topsize]; omega)]
  rfl

/-- A request that is served from the heap as it is, is not too large. -/
theorem Held.fromHeap_obtains (h : Held m U) (hr : fromHeap m bytes (requestSize bytes) = some r) :
    ChunkSize (requestSize bytes) ∧ Obtains m U (requestSize bytes) r := by
  rcases h with h | ⟨h, -⟩
  · rcases Nat.lt_or_ge bytes maxRequest with hb | hb
    · have hnb := (request2size_spec hb).1
      rw [← requestSize_eq hb] at hnb
      exact ⟨hnb, h.fromHeap_obtains hnb hr⟩
    · obtain ⟨S, hS, -⟩ := id h
      obtain ⟨-, -, -, -, htop⟩ := hS.top_bounds
      have hdv : m.dvsize < 2 ^ 56 := by
        by_cases h0 : m.dvsize = 0
        · omega
        · have := (h.dv h0).bound
          omega
      have hbins : fromBins m bytes maxSizeT = none := by
        rw [fromBins, if_neg (by simp only [maxSmallRequest, maxRequest] at *; omega), if_pos hb]
      rw [requestSize_large hb, Dlmalloc.fromHeap, hbins,
        if_neg (by simp only [maxSizeT]; omega), if_neg (by simp only [maxSizeT]; omega)] at hr
      cases hr
  · rw [h.fromHeap_eq_none] at hr
    cases hr

end PrecisionGc.Dlmalloc
