import PrecisionGc.Verify.Freeing

/-!
# Resizing a block in its place

`try_realloc_chunk` cuts a block, or lets it grow into `top`, into `dv` or into the free chunk
behind it. The block keeps its address and what is in it; if it cannot have the new size, nothing
has changed.
-/

namespace PrecisionGc.Dlmalloc
open Regions BoundaryTags

variable {m m' : MState} {S : List Span} {U : List (Nat × Nat)} {x : Hole} {c : HeapChunk}
  {mid : List HeapChunk} {p s t n nb rs : Nat} {munmap : Nat → Nat → Bool}

theorem keeps_cons {b : Nat × Nat} : Keeps m m' (b :: U) ↔
    (∀ w, b.1 + 8 < w → w ≤ b.1 + b.2 → m'.mem w = m.mem w) ∧ Keeps m m' U :=
  List.forall_mem_cons

/-- The hole behind its first chunk. -/
def Hole.behind (x : Hole) (c : HeapChunk) : Hole := { x with left := x.left ++ [c] }

theorem Hole.fill_behind (x : Hole) (c : HeapChunk) (mid : List HeapChunk) :
    x.fill (c :: mid) = (x.behind c).fill mid := by
  simp [Hole.fill, Hole.behind]

theorem Hole.inuse_behind (x : Hole) (p s : Nat) :
    (ofKind .inuse (x.behind ⟨p, s, .inuse⟩).others).Perm ((p, s) :: ofKind .inuse x.others) := by
  simp only [Hole.behind, Hole.others, ofKind_append, ofKind_cons, if_true, entry,
    List.append_assoc, List.cons_append, List.nil_append]
  rw [← List.append_assoc, ← List.append_assoc (ofKind .inuse (chunks x.before))]
  exact List.perm_middle

/-! ## Cutting a block -/

/-- The end of a block is cut off and given back. -/
theorem splitOff_spec (h : Tiled m (x.fill [⟨p, nb + rs, .inuse⟩]) []) (munmap : Nat → Nat → Bool)
    (hnb : ChunkSize nb) (hrs : minChunkSize ≤ rs) :
    ∃ m', splitOff munmap m p nb rs = .ok m' ∧
      Blocks m' ((p, nb) :: ofKind .inuse x.others) [] ∧
      Keeps m m' ((p, nb) :: ofKind .inuse x.others) := by
  obtain ⟨-, -, -, hmod, -, hbound⟩ := h.chunk_spec mem_fill_chunk
  have hmin := hnb.min
  have hmod' := hnb.mod
  simp only [Chunk.stop, minChunkSize] at hmod hbound hrs hmin
  obtain ⟨hdiv, hkeep⟩ := h.divide hnb.mod hnb.min hrs
  rw [Hole.fill_behind] at hdiv
  obtain ⟨m', hm', hblocks, hkeep'⟩ := disposeChunk_spec munmap hdiv
  have hU := x.inuse_behind p nb
  refine ⟨m', ?_, hblocks.perm hU, Keeps.trans (keeps_cons.mpr ⟨fun w hw hw' => ?_, hkeep⟩)
    (hkeep'.mono hU.symm.subset)⟩
  · rw [splitOff, addSize_eq (by omega)]
    exact hm'
  · dsimp only at hw hw'
    rw [setInuse_eq (by omega) hnb.mod (by omega), setInuse_eq (by omega) (by omega) (by omega)]
    dsimp only
    rw [Function.update_of_ne (by omega), Function.update_of_ne (by omega),
      Function.update_of_ne (by omega), Function.update_of_ne (by omega)]

/-- To make a block longer and then to divide it, the border between the parts is set once. -/
theorem setInuse_setInuse (hb : p + nb + rs + 8 < 2 ^ 64) (hnb : nb % 16 = 0) (hrs : rs % 16 = 0)
    (hpos : 0 < nb) (hpos' : 0 < rs) :
    ((m.setInuse p (nb + rs)).setInuse p nb).setInuse (p + nb) rs =
      (m.setInuse p nb).setInuse (p + nb) rs := by
  have hend : p + (nb + rs) + 8 = p + nb + rs + 8 := by omega
  rw [setInuse_eq (s := nb + rs) (by omega) (by omega) (by omega),
    setInuse_eq (s := nb) (by omega) hnb hpos, setInuse_eq (s := rs) (by omega) hrs hpos',
    setInuse_eq (s := nb) (by omega) hnb hpos, setInuse_eq (s := rs) (by omega) hrs hpos', hend]
  congr 1
  funext w
  simp only [Function.update_apply]
  split_ifs <;> omega

/-! ## `try_realloc_chunk` -/

/-- The block of `s` bytes at `p` has a new size that is large enough, in its place. What is in the
block stays, as far as it is in both sizes. -/
def Resized (m : MState) (p s nb : Nat) (U : List (Nat × Nat)) (r : Nat × MState) : Prop :=
  ∃ s', r.1 = p ∧ nb ≤ s' ∧ s' < nb + minChunkSize ∧ Blocks r.2 ((p, s') :: U) [] ∧
    Keeps m r.2 ((p, min s s') :: U)

/-- The block is resized, or it is too small and nothing has changed. -/
def Resizes (m : MState) (p s nb : Nat) (U : List (Nat × Nat)) (r : Nat × MState) : Prop :=
  r = (0, m) ∧ s < nb ∨ Resized m p s nb U r

theorem Resized.of_mem {r : Nat × MState} (h : Resized m p s nb U r) (hmem : m.mem = m'.mem) :
    Resized m' p s nb U r := by
  obtain ⟨s', hr, hle, hlt, hblocks, hkeep⟩ := h
  exact ⟨s', hr, hle, hlt, hblocks, (Keeps.of_mem hmem).trans hkeep⟩

theorem Resizes.perm {V : List (Nat × Nat)} {r : Nat × MState} (h : Resizes m p s nb U r)
    (hU : U.Perm V) : Resizes m p s nb V r := by
  rcases h with h | ⟨s', hr, hle, hlt, hblocks, hkeep⟩
  · exact .inl h
  · exact .inr ⟨s', hr, hle, hlt, hblocks.perm (hU.cons _), hkeep.mono (hU.cons _).symm.subset⟩

/-- The block is large enough. -/
theorem cut_resized (h : Tiled m (x.fill [⟨p, s, .inuse⟩]) []) (munmap : Nat → Nat → Bool)
    (hnb : ChunkSize nb) (hle : nb ≤ s) : ∃ r,
    (if minChunkSize ≤ s - nb then do return (p, ← splitOff munmap m p nb (s - nb))
      else return (p, m) : Except Fault (Nat × MState)) = .ok r ∧
    Resized m p s nb (ofKind .inuse x.others) r := by
  split
  case isTrue hrs =>
    have hs : s = nb + (s - nb) := by omega
    rw [hs] at h
    obtain ⟨m', hm', hblocks, hkeep⟩ := splitOff_spec h munmap hnb hrs
    refine ⟨(p, m'), by rw [hm']; rfl, ⟨nb, rfl, le_rfl, ?_, hblocks, ?_⟩⟩
    · simp only [minChunkSize]
      omega
    · rwa [min_eq_right hle]
  case isFalse hrs =>
    refine ⟨(p, m), rfl, ⟨s, rfl, hle, by omega, h.blocks, .of_mem rfl⟩⟩

/-- A block grows into `top`. -/
theorem top_resized (h : Tiled m (x.fill [⟨p, s, .inuse⟩]) []) (hnb : ChunkSize nb)
    (htop : p + s = m.top) (hgt : s < nb) (hlt : nb < s + m.topsize) :
    Resized m p s nb (ofKind .inuse x.others)
      (p, { (m.setInuse p nb).setHead (p + nb) (s + m.topsize - nb ||| 1) with
        top := p + nb, topsize := s + m.topsize - nb }) := by
  obtain ⟨-, -, -, hmod, -, hbound⟩ := h.chunk_spec mem_fill_chunk
  obtain ⟨-, -, htsmod, -, htopb⟩ := h.top_bounds
  have hmod' := hnb.mod
  have hmin := hnb.min
  simp only [Chunk.stop, minChunkSize] at hbound hmod hmin
  obtain ⟨hm, hkeep⟩ := h.moveTop htop hnb.mod hnb.min hlt
  refine ⟨nb, rfl, le_rfl, by simp only [minChunkSize]; omega, hm.blocks,
    keeps_cons.mpr ⟨fun w hw hw' => ?_, hkeep⟩⟩
  dsimp only at hw hw'
  rw [setInuse_eq (by omega) hnb.mod (by omega), setHead_eq (by omega)]
  dsimp only
  rw [Function.update_of_ne (by omega), Function.update_of_ne (by omega),
    Function.update_of_ne (by omega)]

/-- A block takes the free chunk behind it, and keeps what is in it. -/
theorem joinNext_keeps (h : Tiled m (x.fill [⟨p, s, .inuse⟩, ⟨n, t, .free⟩]) [(n, t)]) :
    Tiled (m.setInuse p (s + t)) (x.fill [⟨p, s + t, .inuse⟩]) [] ∧
      Keeps m (m.setInuse p (s + t)) ((p, s) :: ofKind .inuse x.others) := by
  obtain ⟨hm, hkeep⟩ := h.joinNext
  refine ⟨hm, keeps_cons.mpr ⟨fun w hw hw' => ?_, hkeep⟩⟩
  obtain ⟨-, -, -, hmod, hmin, hbound⟩ := hm.chunk_spec mem_fill_chunk
  simp only [Chunk.stop, minChunkSize] at hw hw' hmod hmin hbound
  rw [setInuse_eq (by omega) (by omega) (by omega)]
  dsimp only
  rw [Function.update_of_ne (by omega), Function.update_of_ne (by omega)]

/-- The free chunk behind a block was in a bin. -/
theorem next_resized (h : Tiled m (x.fill [⟨p, s, .inuse⟩, ⟨n, t, .free⟩]) [(n, t)])
    (munmap : Nat → Nat → Bool) (hnb : ChunkSize nb) (hgt : s < nb) (hle : nb ≤ s + t) : ∃ r,
    (if s + t - nb < minChunkSize then return (p, m.setInuse p (s + t))
      else do return (p, ← splitOff munmap m p nb (s + t - nb)) : Except Fault (Nat × MState)) =
        .ok r ∧ Resized m p s nb (ofKind .inuse x.others) r := by
  obtain ⟨hm, hkeep⟩ := joinNext_keeps h
  have hmin := hnb.min
  have hmod := hnb.mod
  obtain ⟨-, -, -, hmod', -, hbound⟩ := hm.chunk_spec mem_fill_chunk
  simp only [Chunk.stop, minChunkSize] at hmod' hbound hmin
  split
  case isTrue hlt =>
    refine ⟨_, rfl, ⟨s + t, rfl, hle, by omega, hm.blocks, ?_⟩⟩
    rwa [min_eq_left (Nat.le_add_right ..)]
  case isFalse hlt =>
    obtain ⟨rs, hrs⟩ : ∃ rs, s + t = nb + rs := ⟨s + t - nb, by omega⟩
    rw [hrs] at hm hkeep hmod' hbound hlt ⊢
    simp only [Nat.add_sub_cancel_left, minChunkSize] at hlt ⊢
    obtain ⟨m', hm', hblocks, hkeep'⟩ := splitOff_spec hm munmap hnb
      (by simp only [minChunkSize]; omega)
    have hsame : splitOff munmap (m.setInuse p (nb + rs)) p nb rs = splitOff munmap m p nb rs := by
      simp only [splitOff, addSize_eq (a := p) (b := nb) (by omega)]
      rw [setInuse_setInuse (by omega) hnb.mod (by omega) (by omega) (by omega)]
    rw [hsame] at hm'
    refine ⟨(p, m'), by rw [hm']; rfl, ⟨nb, rfl, le_rfl, ?_, hblocks, ?_⟩⟩
    · simp only [minChunkSize]
      omega
    · rw [min_eq_left hgt.le]
      obtain ⟨hown, hothers⟩ := keeps_cons.mp hkeep'
      refine hkeep.trans (keeps_cons.mpr ⟨fun w hw hw' => hown w hw ?_, hothers⟩)
      dsimp only at hw' ⊢
      omega

/-- A block moves the border to the free chunk behind it, and keeps what is in it. -/
theorem moveBorder_keeps (h : Tiled m (x.fill [⟨p, s, .inuse⟩, ⟨n, t, .free⟩]) [(n, t)])
    (hnb : ChunkSize nb) (hgt : s < nb) (hsum : nb + rs = s + t) (hrs : minChunkSize ≤ rs)
    (hm' : m' = ((m.setInuse p nb).setFreeChunk (p + nb) rs).clearPinuse (p + nb + rs)) :
    Blocks m' ((p, nb) :: ofKind .inuse x.others) [(p + nb, rs)] ∧
      Keeps m m' ((p, s) :: ofKind .inuse x.others) := by
  obtain ⟨hborder, hkeep⟩ := h.moveBorder hsum hnb.mod hnb.min hrs
  rw [← hm'] at hborder hkeep
  have hb := h.hole_bounds
  obtain ⟨hp, hn, -, -, hmod, hmod', -, hmint, -⟩ := h.hole_pair
  have hmin := hnb.min
  have hmodn := hnb.mod
  simp only [stop_cons, stop_nil, Chunk.stop, userEnd, Kind.fits, minChunkSize] at hb hmin hrs hmint
  refine ⟨hborder.blocks, keeps_cons.mpr ⟨fun w hw hw' => ?_, hkeep⟩⟩
  dsimp only at hw hw'
  rw [hm', setInuse_eq (by omega) hnb.mod (by omega), setFreeChunk_eq (by omega) (by omega),
    clearPinuse_eq (by omega)]
  dsimp only
  rw [Function.update_of_ne (by omega), Function.update_of_ne (by omega),
    Function.update_of_ne (by omega), Function.update_of_ne (by omega),
    Function.update_of_ne (by omega)]

theorem setInuse_dvsize : (m.setInuse p s).dvsize = m.dvsize := rfl

theorem setFreeChunk_dvsize : (m.setFreeChunk p s).dvsize = m.dvsize := rfl

theorem clearPinuse_dvsize : (m.clearPinuse p).dvsize = m.dvsize := rfl

/-- The free chunk behind a block was `dv`. -/
theorem dv_resized (h : Tiled m (x.fill [⟨p, s, .inuse⟩, ⟨n, t, .free⟩]) [(n, t)])
    (hdv : m.dvsize = 0) (hnb : ChunkSize nb) (hgt : s < nb) (hle : nb ≤ s + t) :
    Resized m p s nb (ofKind .inuse x.others) (p,
      if minChunkSize ≤ s + t - nb then
        { ((m.setInuse p nb).setFreeChunk (p + nb) (s + t - nb)).clearPinuse
          (p + nb + (s + t - nb)) with dv := p + nb, dvsize := s + t - nb }
      else m.setInuse p (s + t)) := by
  split
  case isTrue hrs =>
    obtain ⟨hblocks, hkeep⟩ := moveBorder_keeps h hnb hgt (by omega) hrs rfl
    simp only [minChunkSize] at hrs
    have hdv' : (((m.setInuse p nb).setFreeChunk (p + nb) (s + t - nb)).clearPinuse
        (p + nb + (s + t - nb))).dvsize = 0 := by
      rw [clearPinuse_dvsize, setFreeChunk_dvsize, setInuse_dvsize, hdv]
    generalize ((m.setInuse p nb).setFreeChunk (p + nb) (s + t - nb)).clearPinuse
      (p + nb + (s + t - nb)) = m₁ at hblocks hkeep hdv' ⊢
    refine ⟨nb, rfl, le_rfl, by simp only [minChunkSize]; omega,
      hblocks.setDv hdv' (by omega), ?_⟩
    rw [min_eq_left hgt.le]
    exact hkeep.trans (.of_mem rfl)
  case isFalse hrs =>
    obtain ⟨hm, hkeep⟩ := joinNext_keeps h
    refine ⟨s + t, rfl, hle, by omega, hm.blocks, ?_⟩
    rwa [min_eq_left (Nat.le_add_right ..)]

/-- A block in use is resized in its place, or it stays as it is. -/
theorem tryReallocChunk_spec (h : Blocks m ((p, s) :: U) []) (munmap : Nat → Nat → Bool)
    (hnb : ChunkSize nb) :
    ∃ r, tryReallocChunk munmap m p nb = .ok r ∧ Resizes m p s nb U r := by
  have hp := h.isBlock List.mem_cons_self
  obtain ⟨x, hx, hU⟩ := h.hole
  have hb := hp.bound
  have hmin := hp.min
  have hnbmin := hnb.min
  obtain ⟨hstart, -, -, -, -⟩ := hx.hole_chunk
  obtain ⟨-, -, -, -, htop⟩ := hx.top_bounds
  have hbits := hx.next_bits
  have hnext := hx.next_cases
  simp only [minChunkSize] at hmin hnbmin
  simp only [stop_cons, stop_nil, Chunk.stop, ← hstart, lastUsed_cons, lastUsed_nil, tagging_used,
    Kind.used, if_true] at hbits hnext
  have hhead : m.head (p + s) = m.mem (p + s + 8) := head_eq (by omega)
  have hpinuse : m.pinuse (p + s) = true := pinuse_iff.mpr (hhead ▸ hbits.1)
  have hcinuse : m.cinuse (p + s) ↔ m.mem (p + s + 8) / 2 % 2 = 1 := by rw [cinuse_iff, hhead]
  suffices ∃ r, tryReallocChunk munmap m p nb = .ok r ∧
      Resizes m p s nb (ofKind .inuse x.others) r by
    obtain ⟨r, hr, hres⟩ := this
    exact ⟨r, hr, hres.perm hU⟩
  have hlt : p < p + s := by omega
  simp only [tryReallocChunk, hp.okAddress, hp.inuse, hp.chunksize, hp.next_eq, hpinuse,
    decide_eq_true hlt, hp.not_isMmapped, Bool.and_self, if_true, Bool.false_eq_true, if_false]
  rcases Nat.lt_or_ge s nb with hgt | hle
  case inr =>
    rw [if_pos hle, subSize_eq (by omega) hle]
    obtain ⟨r, hr, hres⟩ := cut_resized hx munmap hnb hle
    exact ⟨r, hr, .inr hres⟩
  rw [if_neg (by omega)]
  rcases hnext with hused | ⟨hunused, htop'⟩ | ⟨hunused, htop', t, r, hright⟩
  · have htop' : p + s ≠ m.top := fun heq => by
      have hw := hx.head_top
      have hmod := hx.topsize_mod
      rw [← heq] at hw
      omega
    have hdv : p + s ≠ m.dv := fun heq => by
      have h0 : m.dvsize ≠ 0 := fun h0 => by
        have := hx.dv h0
        omega
      obtain ⟨hw, hmod⟩ := hx.head_dv h0
      rw [← heq] at hw
      omega
    rw [if_neg htop', if_neg hdv, hcinuse.mpr hused]
    exact ⟨(0, m), rfl, .inl ⟨rfl, hgt⟩⟩
  · rw [if_pos htop', addSize_eq (by omega)]
    split
    case isFalse => exact ⟨(0, m), rfl, .inl ⟨rfl, hgt⟩⟩
    case isTrue hlt' =>
      rw [addSize_eq (by omega), subSize_eq (by omega) hlt'.le]
      exact ⟨_, rfl, .inr (top_resized hx hnb htop' hgt hlt')⟩
  · let y : Hole := { x with right := r }
    have hy : x.fill [⟨p, s, .inuse⟩] = y.fill [⟨p, s, .inuse⟩, ⟨p + s, t, .free⟩] :=
      x.fill_cons_right _ _ _ hright
    have hothers : ofKind .inuse y.others = ofKind .inuse x.others := by
      simp [y, Hole.others, hright]
    rw [hy] at hx
    have hmem : (⟨p + s, t, .free⟩ : HeapChunk) ∈
        chunks (y.fill [⟨p, s, .inuse⟩, ⟨p + s, t, .free⟩]) := (y.perm _).mem_iff.mpr (by simp)
    have htspec := hx.chunk_spec hmem
    simp only [Chunk.stop] at htspec
    rw [if_neg htop', Bool.eq_false_iff.mpr (mt hcinuse.mp hunused), hx.tagged_next.chunksize]
    rw [← hothers]
    rcases hx.free_cases hmem with ⟨hsize, hn, ht⟩ | ⟨hdv, hbin⟩
    · rw [if_pos hn, ← ht, addSize_eq (by omega)]
      split
      case isFalse => exact ⟨(0, m), rfl, .inl ⟨rfl, hgt⟩⟩
      case isTrue hle =>
        have hclear := hx.clearDv
        rw [MState.dvChunk, if_neg hsize, ← hn, ← ht] at hclear
        rw [subSize_eq (by omega) hle, addSize_eq (a := p) (by omega), addSize_eq (by omega)]
        have hres := dv_resized hclear rfl hnb hgt hle
        split
        case isTrue hrs =>
          rw [if_pos hrs] at hres
          exact ⟨_, rfl, .inr (hres.of_mem rfl)⟩
        case isFalse hrs =>
          rw [if_neg hrs] at hres
          exact ⟨_, rfl, .inr (hres.of_mem rfl)⟩
    · rw [if_neg hdv, addSize_eq (by omega)]
      simp only [Bool.not_false, if_true]
      split
      case isFalse => exact ⟨(0, m), rfl, .inl ⟨rfl, hgt⟩⟩
      case isTrue hle =>
        rw [subSize_eq (by omega) hle]
        obtain ⟨r, hr, hres⟩ := next_resized (hx.unlink hbin) munmap hnb hgt hle
        exact ⟨r, hr, .inr (hres.of_mem rfl)⟩

end PrecisionGc.Dlmalloc
