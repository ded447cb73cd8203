import PrecisionGc.Verify.Neighbours

/-!
# Freeing a chunk

A freed chunk is joined with the free chunks around it, or with `top`. None of the runtime checks
fails, the other chunks in use stay where they are, and what is in them stays as it is.
-/

namespace PrecisionGc.Dlmalloc
open Regions BoundaryTags

variable {m m' : MState} {S : List Span} {X X' U : List (Nat × Nat)} {x : Hole}
  {mid : List HeapChunk} {p q s t n v : Nat} {munmap : Nat → Nat → Bool}

/-- A heap that is tiled, with the blocks `U` in use and the free chunks `X` loose. -/
def Blocks (m : MState) (U X : List (Nat × Nat)) : Prop :=
  ∃ S, Tiled m S X ∧ (ofKind .inuse (chunks S)).Perm U

/-- The blocks in use when a hole is filled. -/
theorem Hole.inuse_fill (x : Hole) (mid : List HeapChunk) :
    (ofKind .inuse (chunks (x.fill mid))).Perm (ofKind .inuse mid ++ ofKind .inuse x.others) := by
  rw [← ofKind_append]
  exact ofKind_perm (x.perm mid)

theorem Tiled.blocks (h : Tiled m (x.fill mid) X) :
    Blocks m (ofKind .inuse mid ++ ofKind .inuse x.others) X := ⟨_, h, x.inuse_fill mid⟩

namespace Blocks

theorem perm {U' : List (Nat × Nat)} (h : Blocks m U X) (hperm : U.Perm U') : Blocks m U' X := by
  obtain ⟨S, hS, hU⟩ := h
  exact ⟨S, hS, hU.trans hperm⟩

theorem insert (h : Blocks m U ((p, s) :: X)) : Blocks (m.insertChunk p s) U X := by
  obtain ⟨S, hS, hU⟩ := h
  exact ⟨S, hS.insert, hU⟩

theorem setDv (h : Blocks m U ((p, s) :: X)) (hdv : m.dvsize = 0) (hs : s ≠ 0) :
    Blocks { m with dv := p, dvsize := s } U X := by
  obtain ⟨S, hS, hU⟩ := h
  exact ⟨S, hS.setDv hdv hs, hU⟩

end Blocks

/-! ## The tag of the chunk that is freed is not looked at again -/

section Head

variable (hne : addSize n 8 ≠ addSize q 8)

theorem setHead_setHead (w : Nat) : (m.setHead q v).setHead q w = m.setHead q w := by
  simp only [MState.setHead, Function.update_idem]

theorem setFreeChunk_setHead (s : Nat) :
    (m.setHead q v).setFreeChunk q s = m.setFreeChunk q s := by
  simp only [MState.setFreeChunk, setHead_setHead]

include hne

theorem head_setHead : (m.setHead q v).head n = m.head n := Function.update_of_ne hne ..

theorem setFreeWithPinuse_setHead (s : Nat) :
    (m.setHead q v).setFreeWithPinuse q s n = m.setFreeWithPinuse q s n := by
  have hcomm : ∀ w, (m.setHead q v).setHead n w = (m.setHead n w).setHead q v := fun w => by
    simp only [MState.setHead, Function.update_comm hne.symm]
  simp only [MState.setFreeWithPinuse, head_setHead hne, hcomm, setFreeChunk_setHead]

theorem consolidateForward_setHead : consolidateForward (m.setHead q v) q s n =
    consolidateForward m q s n := by
  have hcinuse : (m.setHead q v).cinuse n = m.cinuse n := by
    simp only [MState.cinuse, head_setHead hne]
  have hsize : (m.setHead q v).chunksize n = m.chunksize n := by
    simp only [MState.chunksize, head_setHead hne]
  unfold consolidateForward
  rw [hcinuse, hsize, setFreeWithPinuse_setHead hne]
  simp only [MState.setHead, MState.setFreeChunk, MState.setFoot, MState.unlinkChunk,
    Function.update_idem]
  rfl

end Head

/-! ## Consolidating forward -/

namespace Tiled

/-- A chunk in use is not `dv`. -/
theorem ne_dv (h : Tiled m (x.fill [⟨p, s, .inuse⟩]) X) : p ≠ m.dv := by
  rintro rfl
  have hc : (⟨m.dv, s, .inuse⟩ : HeapChunk) ∈ chunks (x.fill [⟨m.dv, s, .inuse⟩]) := mem_fill_chunk
  have hpos := (h.chunk_spec hc).1
  have h0 : m.dvsize ≠ 0 := fun h0 => by
    have := h.dv h0
    dsimp only at hpos
    omega
  have hfree : (m.dv, m.dvsize) ∈ ofKind .free (chunks (x.fill [⟨m.dv, s, .inuse⟩])) :=
    h.bins.mem_iff.mpr (by simp [MState.dvChunk, h0])
  simpa using h.chunk_ext hc (mem_ofKind.mp hfree) rfl

end Tiled

/-- The chunk that is left is put into its bin. -/
def binned (p : Nat) : MState × Option Nat → MState
  | (m, none) => m
  | (m, some s) => m.insertChunk p s

theorem forward_spec (h : Tiled m (x.fill [⟨p, s, .inuse⟩]) []) (hpin : x.pin = true) :
    Blocks (binned p (consolidateForward m p s (p + s))) (ofKind .inuse x.others) [] ∧
      Keeps m (binned p (consolidateForward m p s (p + s))) (ofKind .inuse x.others) := by
  have hspec := h.chunk_spec mem_fill_chunk
  simp only [Chunk.stop] at hspec
  have hnext := h.next_cases
  obtain ⟨-, htopmod, htsmod, htspos, htopb⟩ := h.top_bounds
  obtain ⟨rfl, -, -, -, -⟩ := h.hole_chunk
  have hdv := h.ne_dv
  simp only [stop_cons, stop_nil, Chunk.stop] at hnext
  have hcinuse : m.cinuse (x.start + s) ↔ m.mem (x.start + s + 8) / 2 % 2 = 1 := by
    rw [cinuse_iff, head_eq (by omega)]
  rcases hnext with hused | ⟨hunused, htop⟩ | ⟨hunused, htop, t, r, hright⟩
  · have heq : consolidateForward m x.start s (x.start + s) =
        (m.setFreeWithPinuse x.start s (x.start + s), some s) := if_pos (hcinuse.mpr hused)
    obtain ⟨hm, hkeep⟩ := h.giveBack hpin hused
    rw [heq]
    exact ⟨hm.insert.blocks, hkeep.trans (.of_mem rfl)⟩
  · have hsize : addSize m.topsize s = m.topsize + s := addSize_eq (by omega)
    have heq : consolidateForward m x.start s (x.start + s) =
        ({ m with topsize := m.topsize + s, top := x.start }.setHead x.start
          (m.topsize + s ||| 1), none) := by
      rw [consolidateForward, if_neg (mt hcinuse.mp hunused), if_pos htop, hsize]
      exact Prod.ext (if_neg hdv) rfl
    obtain ⟨hm, hkeep⟩ := h.giveTop htop hpin
    rw [heq]
    exact ⟨hm.blocks, hkeep⟩
  · let y : Hole := { x with right := r }
    have hy : x.fill [⟨x.start, s, .inuse⟩] =
        y.fill [⟨x.start, s, .inuse⟩, ⟨x.start + s, t, .free⟩] := x.fill_cons_right _ _ _ hright
    have hothers : ofKind .inuse y.others = ofKind .inuse x.others := by
      simp [y, Hole.others, hright]
    rw [hy] at h
    have hmem : (⟨x.start + s, t, .free⟩ : HeapChunk) ∈
        chunks (y.fill [⟨x.start, s, .inuse⟩, ⟨x.start + s, t, .free⟩]) :=
      (y.perm _).mem_iff.mpr (by simp)
    have htspec := h.chunk_spec hmem
    simp only [Chunk.stop] at htspec
    have htagged := h.tagged_next
    rw [← hothers]
    rcases h.free_cases hmem with ⟨hsize, hn, ht⟩ | ⟨hn, hbin⟩
    · have hds : addSize m.dvsize s = s + t := by
        rw [← ht, addSize_eq (by omega), Nat.add_comm]
      have heq : consolidateForward m x.start s (x.start + s) =
          ({ m with dvsize := s + t, dv := x.start }.setFreeChunk x.start (s + t), none) := by
        rw [consolidateForward, if_neg (mt hcinuse.mp hunused), if_neg htop, if_pos hn, hds]
      have hclear := h.clearDv
      rw [MState.dvChunk, if_neg hsize, ← hn, ← ht] at hclear
      obtain ⟨hm, hkeep⟩ := hclear.giveBackNext hpin
      rw [heq]
      exact ⟨(hm.setDv rfl (by omega)).blocks, hkeep⟩
    · have hds : addSize s t = s + t := addSize_eq (by omega)
      have heq : consolidateForward m x.start s (x.start + s) =
          ((m.unlinkChunk (x.start + s) t).setFreeChunk x.start (s + t), some (s + t)) := by
        rw [consolidateForward, if_neg (mt hcinuse.mp hunused), if_neg htop, if_neg hn,
          htagged.chunksize]
        dsimp only
        rw [hds]
        exact if_neg hdv
      obtain ⟨hm, hkeep⟩ := (h.unlink hbin).giveBackNext hpin
      rw [heq]
      exact ⟨hm.insert.blocks, hkeep⟩

/-- The case that `dv` is the chunk in front and that there is a free chunk behind: `dv` goes into
`top`, or grows over both. -/
theorem forward_dv (h : Tiled m (x.fill [⟨m.dv, m.dvsize, .free⟩, ⟨p, s, .inuse⟩]) [])
    (hunused : ¬m.cinuse (p + s)) :
    Blocks (binned m.dv (consolidateForward m m.dv (m.dvsize + s) (p + s)))
        (ofKind .inuse x.others) [] ∧
      Keeps m (binned m.dv (consolidateForward m m.dv (m.dvsize + s) (p + s)))
        (ofKind .inuse x.others) := by
  obtain ⟨hd, hp, hpin, -, hmodd, hmods, hfits, hfits', -⟩ := h.hole_pair
  have hb := h.hole_bounds
  have hsize : m.dvsize ≠ 0 := by
    simp only [Kind.fits, minChunkSize] at hfits
    omega
  simp only [stop_cons, stop_nil, Chunk.stop, userEnd] at hb
  obtain ⟨-, htopmod, htsmod, htspos, htopb⟩ := h.top_bounds
  have hclear := h.clearDv
  rw [MState.dvChunk, if_neg hsize] at hclear
  obtain ⟨hjoin, hkeep⟩ := hclear.joinPrev
  have hpin' : x.pin = true := by simpa [Kind.used] using hpin
  have hnext := hjoin.next_cases
  have hend : m.dv + (m.dvsize + s) = p + s := by omega
  simp only [stop_cons, stop_nil, Chunk.stop, ← hd, hend] at hnext
  have hmem : ({ m with dv := 0, dvsize := 0 }.setInuseChunk m.dv (m.dvsize + s)).mem (p + s + 8) =
      m.mem (p + s + 8) := by
    rw [setInuseChunk_eq (by omega) (by omega)]
    exact Function.update_of_ne (by omega) ..
  rw [hmem] at hnext
  have hunused' := hunused
  rw [cinuse_iff, head_eq (by omega)] at hunused'
  rcases hnext with hused | ⟨-, htop⟩ | ⟨-, htop, t, r, hright⟩
  · exact absurd hused hunused'
  · have htop : p + s = m.top := htop
    have hts : addSize m.topsize (m.dvsize + s) = m.topsize + (m.dvsize + s) :=
      addSize_eq (by omega)
    have heq : consolidateForward m m.dv (m.dvsize + s) (p + s) =
        ({ m with
            dv := 0, dvsize := 0, topsize := m.topsize + (m.dvsize + s), top := m.dv }.setHead m.dv
          (m.topsize + (m.dvsize + s) ||| 1), none) := by
      rw [consolidateForward, if_neg hunused, if_pos htop, hts]
      exact Prod.ext (if_pos rfl) rfl
    obtain ⟨hm, hkeep'⟩ := hjoin.giveTop (hend.trans htop) hpin'
    rw [heq, ← setHead_setHead (v := m.dvsize + s ||| 3)]
    exact ⟨hm.blocks, hkeep.trans hkeep'⟩
  · let y : Hole := { x with right := r }
    have hy : x.fill [⟨m.dv, m.dvsize + s, .inuse⟩] =
        y.fill [⟨m.dv, m.dvsize + s, .inuse⟩, ⟨p + s, t, .free⟩] :=
      x.fill_cons_right _ _ _ hright
    have hothers : ofKind .inuse y.others = ofKind .inuse x.others := by
      simp [y, Hole.others, hright]
    have htop : p + s ≠ m.top := htop
    rw [hy] at hjoin
    have hmem' : (⟨p + s, t, .free⟩ : HeapChunk) ∈
        chunks (y.fill [⟨m.dv, m.dvsize + s, .inuse⟩, ⟨p + s, t, .free⟩]) :=
      (y.perm _).mem_iff.mpr (by simp)
    have htspec := hjoin.chunk_spec hmem'
    simp only [Chunk.stop] at htspec
    have hsize' : m.chunksize (p + s) = t := by
      have := hjoin.tagged_next.chunksize
      rwa [MState.chunksize, head_eq (by omega), hmem, ← head_eq (by omega)] at this
    rcases hjoin.free_cases hmem' with ⟨h0, -⟩ | ⟨-, hbin⟩
    · exact absurd rfl h0
    have hps : addSize (m.dvsize + s) t = m.dvsize + s + t := addSize_eq (by omega)
    have heq : consolidateForward m m.dv (m.dvsize + s) (p + s) =
        ({ (m.unlinkChunk (p + s) t).setFreeChunk m.dv (m.dvsize + s + t) with
          dvsize := m.dvsize + s + t }, none) := by
      rw [consolidateForward, if_neg hunused, if_neg htop, if_neg (by omega), hsize']
      dsimp only
      rw [hps]
      exact if_pos rfl
    obtain ⟨hm, hkeep'⟩ := (hjoin.unlink hbin).giveBackNext hpin'
    rw [heq, ← setFreeChunk_setHead (v := m.dvsize + s ||| 3), ← hothers]
    exact ⟨(hm.setDv rfl (by omega)).blocks, (hothers ▸ hkeep).trans hkeep'⟩

/-! ## Consolidating backward, and both -/

/-- The first half of freeing the chunk `p` of `s` bytes is done with it, or leaves it to the
second, whose checks succeed. -/
def Consolidates (munmap : Nat → Nat → Bool) (m : MState) (p s : Nat) (U : List (Nat × Nat)) :
    Prop :=
  (∃ m', consolidateBackward munmap m p s (p + s) = .ok (m', none) ∧ Blocks m' U [] ∧
    Keeps m m' U) ∨
  ∃ m₁ q t, consolidateBackward munmap m p s (p + s) = .ok (m₁, some (q, t)) ∧ q < p + s ∧
    m₁.pinuse (p + s) ∧ m₁.okAddress (p + s) ∧
    Blocks (binned q (consolidateForward m₁ q t (p + s))) U [] ∧
    Keeps m (binned q (consolidateForward m₁ q t (p + s))) U

/-- The chunk in front is `dv`. -/
theorem consolidates_dv (h : Tiled m (x.fill [⟨m.dv, m.dvsize, .free⟩, ⟨p, s, .inuse⟩]) [])
    (heq : consolidateBackward munmap m p s (p + s) =
      if m.head (p + s) &&& 3 = 3 then
        .ok ({ m with dvsize := m.dvsize + s }.setFreeWithPinuse m.dv (m.dvsize + s) (p + s), none)
      else .ok (m, some (m.dv, m.dvsize + s))) :
    Consolidates munmap m p s (ofKind .inuse x.others) := by
  obtain ⟨hd, hp, hpin, -, hmodd, hmods, hfits, hfits', -⟩ := h.hole_pair
  have hb := h.hole_bounds
  have hbits := h.next_bits
  have hleast := h.least _ (x.mem_fill _)
  simp only [Kind.fits, minChunkSize] at hfits hfits'
  simp only [stop_cons, stop_nil, Chunk.stop, userEnd, lastUsed_cons, lastUsed_nil, tagging_used,
    Kind.used, if_true] at hb hbits hleast
  have hhead : m.head (p + s) = m.mem (p + s + 8) := head_eq (by omega)
  have hflags : m.head (p + s) &&& 3 = 3 ↔ m.cinuse (p + s) := by
    rw [and_three, cinuse_iff, hhead]
    omega
  rcases Decidable.em (m.cinuse (p + s) = true) with hused | hunused
  · left
    rw [if_pos (hflags.mpr hused)] at heq
    have hclear := h.clearDv
    rw [MState.dvChunk, if_neg (by omega)] at hclear
    obtain ⟨hjoin, hkeep⟩ := hclear.joinPrev
    have hend : m.dv + (m.dvsize + s) = p + s := by omega
    have hpin' : x.pin = true := by simpa [Kind.used] using hpin
    have hne : addSize (p + s) 8 ≠ addSize m.dv 8 := by
      rw [addSize_eq (by omega), addSize_eq (by omega)]
      omega
    obtain ⟨hm, hkeep'⟩ := hjoin.giveBack hpin' (by
      rw [cinuse_iff, hhead] at hused
      rw [setInuseChunk_eq (by omega) (by omega), hend]
      dsimp only
      rwa [Function.update_of_ne (by omega)])
    rw [hend] at hm hkeep'
    have hsame := setFreeWithPinuse_setHead (m := { m with dvsize := m.dvsize + s })
      (v := m.dvsize + s ||| 3) hne (m.dvsize + s)
    refine ⟨_, heq, ?_⟩
    rw [← hsame]
    exact ⟨(hm.setDv rfl (by omega)).blocks, hkeep.trans hkeep'⟩
  · right
    rw [if_neg (mt hflags.mp hunused)] at heq
    refine ⟨m, m.dv, m.dvsize + s, heq, by omega, ?_, ?_, forward_dv h hunused⟩
    · rw [pinuse_iff, hhead]
      exact hbits.1
    · simp only [MState.okAddress, decide_eq_true_eq]
      omega

/-- None of the checks on the way fails. -/
theorem consolidates (munmap : Nat → Nat → Bool) (h : Tiled m (x.fill [⟨p, s, .inuse⟩]) []) :
    Consolidates munmap m p s (ofKind .inuse x.others) := by
  have hspec := h.chunk_spec mem_fill_chunk
  have htagged := h.tagged
  have hbits := h.next_bits
  simp only [Chunk.stop, minChunkSize] at hspec
  cases hpin : x.pin with
  | true =>
    right
    obtain ⟨rfl, -, -, -, -⟩ := h.hole_chunk
    refine ⟨m, x.start, s, if_pos (htagged.pinuse.trans hpin), by omega, ?_, ?_,
      forward_spec h hpin⟩
    · rw [pinuse_iff, head_eq (by omega)]
      exact hbits.1
    · simp only [MState.okAddress, decide_eq_true_eq]
      omega
  | false =>
    obtain ⟨l, d, t, hleft, hstart, hfoot⟩ := h.prev_free hpin
    obtain ⟨rfl, -, -, -, -⟩ := h.hole_chunk
    let y : Hole := { x with left := l }
    have hy : x.fill [⟨x.start, s, .inuse⟩] = y.fill [⟨d, t, .free⟩, ⟨x.start, s, .inuse⟩] :=
      x.fill_concat_left _ _ _ hleft
    have hothers : ofKind .inuse y.others = ofKind .inuse x.others := by
      simp [y, Hole.others, hleft]
    rw [hy] at h
    have hmem : (⟨d, t, .free⟩ : HeapChunk) ∈
        chunks (y.fill [⟨d, t, .free⟩, ⟨x.start, s, .inuse⟩]) := (y.perm _).mem_iff.mpr (by simp)
    have hdspec := h.chunk_spec hmem
    simp only [Chunk.stop, minChunkSize] at hdspec
    have hprev : subSize x.start t = d := by rw [subSize_eq (by omega) (by omega)]; omega
    have hps : addSize s t = t + s := by rw [addSize_eq (by omega), Nat.add_comm]
    have hback : consolidateBackward munmap m x.start s (x.start + s) =
        if d != m.dv then .ok (m.unlinkChunk d t, some (d, t + s))
        else if m.head (x.start + s) &&& 3 = 3 then
          .ok ({ m with dvsize := t + s }.setFreeWithPinuse d (t + s) (x.start + s), none)
        else .ok (m, some (d, t + s)) := by
      have hnot : ¬m.pinuse x.start := by simp [htagged.pinuse, hpin]
      have hmapped : ¬m.isMmapped x.start := by simp [htagged.not_isMmapped rfl]
      have hprevfoot : m.prevFoot x.start = t := hfoot
      have hok : m.okAddress d := by simpa [MState.okAddress] using hdspec.2.1
      simp only [consolidateBackward, if_neg hnot, if_neg hmapped, hprevfoot, hprev, hps,
        if_pos hok]
      rfl
    rw [← hothers]
    rcases h.free_cases hmem with ⟨hsize, rfl, rfl⟩ | ⟨hdv, hbin⟩
    · exact consolidates_dv h (by simpa using hback)
    · right
      obtain ⟨hjoin, hkeep⟩ := (h.unlink hbin).joinPrev
      have hend : d + (t + s) = x.start + s := by omega
      have hypin : y.pin = true := by simpa [Kind.used] using h.hole_pair.2.2.1
      have hne : addSize (x.start + s) 8 ≠ addSize d 8 := by
        rw [addSize_eq (by omega), addSize_eq (by omega)]
        omega
      obtain ⟨hm, hkeep'⟩ := forward_spec hjoin hypin
      rw [hend, MState.setInuseChunk, consolidateForward_setHead hne] at hm hkeep'
      refine ⟨m.unlinkChunk d t, d, t + s, ?_, by omega, ?_, ?_, hm, hkeep.trans hkeep'⟩
      · rw [hback]
        simp [hdv]
      · change m.pinuse (x.start + s) = true
        rw [pinuse_iff, head_eq (by omega)]
        exact hbits.1
      · change m.okAddress (x.start + s) = true
        simp only [MState.okAddress, decide_eq_true_eq]
        omega

/-! ## `dispose_chunk` and `dlfree` -/

theorem disposeChunk_spec (munmap : Nat → Nat → Bool)
    (h : Tiled m (x.fill [⟨p, s, .inuse⟩]) []) :
    ∃ m', disposeChunk munmap m p s = .ok m' ∧ Blocks m' (ofKind .inuse x.others) [] ∧
      Keeps m m' (ofKind .inuse x.others) := by
  have hspec := h.chunk_spec mem_fill_chunk
  simp only [Chunk.stop] at hspec
  have hnext : addSize p s = p + s := addSize_eq (by omega)
  simp only [disposeChunk, hnext]
  rcases consolidates munmap h with ⟨m', hback, hm⟩ | ⟨m₁, q, t, hback, -, -, hok, hm⟩
  · exact ⟨m', by rw [hback]; rfl, hm⟩
  · refine ⟨binned q (consolidateForward m₁ q t (p + s)), ?_, hm⟩
    rw [hback]
    simp only [Except.ok_bind, if_pos hok]
    cases hf : consolidateForward m₁ q t (p + s) with
    | mk m' r => cases r <;> rfl

end PrecisionGc.Dlmalloc
