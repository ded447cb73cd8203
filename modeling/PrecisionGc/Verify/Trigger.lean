import PrecisionGc.Model.Dlmalloc
import PrecisionGc.Verify.Extension

/-!
# The collection trigger

A pass of `dlmalloc` ends the call or starts a collection. The collection resets the counter that
started it, and no heap has a negative share, so that the second pass ends the call; NULL is what
`sys_alloc` returned in it.
-/

namespace PrecisionGc.Dlmalloc

variable {m : MState} {c : Callees} {a : Allocator} {bytes nb fuel : Nat} {r : Nat × MState}

/-! ## The heap as it is -/

theorem leastFit_mem {l : List (Nat × Nat)} {v : Nat × Nat} (h : leastFit nb l = some v) :
    v ∈ l := by
  induction l with
  | nil => cases h
  | cons p l ih =>
    rw [leastFit] at h
    split at h
    · split at h
      · exact Option.some.inj h ▸ List.mem_cons_self
      · cases h
    rename_i b hb
    split at h
    · exact Option.some.inj h ▸ List.mem_cons_self
    · obtain rfl := Option.some.inj h
      exact List.mem_cons_of_mem p (ih hb)

namespace Rebins

theorem setInuseAndPinuse (m : MState) (p s : Nat) : Rebins m (m.setInuseAndPinuse p s) :=
  (setHead m p (s ||| 3)).trans (setHead ..)

theorem replaceDv (m : MState) (p s : Nat) : Rebins m (m.replaceDv p s) := by
  unfold MState.replaceDv
  dsimp only
  split
  · exact (insertChunk m m.dv m.dvsize).trans (setDv ..)
  · exact setDv ..

/-- The front of a chunk is used and its rest is freed. -/
theorem split (m : MState) (p nb q s : Nat) :
    Rebins m ((m.setInuseChunk p nb).setFreeChunk q s) :=
  (setInuseChunk ..).trans (setFreeChunk ..)

end Rebins

/-- `r` hands out a chunk that was in a bin. -/
def TakesBinned (m : MState) (r : Nat × MState) : Prop :=
  ∃ p ∈ m.bins, r.1 = chunk2mem p.1 ∧ Rebins m r.2

theorem smallbin_mem {i : Nat} {p : Nat × Nat} (h : m.smallbin i = some p) : p ∈ m.bins :=
  List.mem_of_find?_eq_some h

theorem smallFit_takes (h : smallFit m nb = some r) : TakesBinned m r := by
  obtain ⟨p, hp, h⟩ := Option.bind_eq_some_iff.mp h
  obtain rfl := Option.some.inj h
  exact ⟨p, smallbin_mem hp, rfl, (Rebins.unlinkChunk ..).trans (Rebins.setInuseAndPinuse ..)⟩

theorem smallSplit_takes (h : smallSplit m nb = some r) : TakesBinned m r := by
  obtain ⟨i, -, h⟩ := Option.bind_eq_some_iff.mp h
  obtain ⟨p, hp, h⟩ := Option.bind_eq_some_iff.mp h
  refine ⟨p, smallbin_mem hp, ?_⟩
  dsimp only at h
  split at h
  · obtain rfl := Option.some.inj h
    exact ⟨rfl, (Rebins.unlinkChunk ..).trans (Rebins.setInuseAndPinuse ..)⟩
  · obtain rfl := Option.some.inj h
    exact ⟨rfl, (Rebins.unlinkChunk ..).trans ((Rebins.split ..).trans (Rebins.replaceDv ..))⟩

theorem tmallocSmall_takes (h : tmallocSmall m nb = some r) : TakesBinned m r := by
  obtain ⟨v, hv, h⟩ := Option.bind_eq_some_iff.mp h
  refine ⟨v, leastFit_mem hv, ?_⟩
  dsimp only at h
  split at h
  · obtain rfl := Option.some.inj h
    exact ⟨rfl, (Rebins.unlinkChunk ..).trans (Rebins.setInuseAndPinuse ..)⟩
  · obtain rfl := Option.some.inj h
    exact ⟨rfl, (Rebins.unlinkChunk ..).trans ((Rebins.split ..).trans (Rebins.replaceDv ..))⟩

theorem tmallocLarge_takes (h : tmallocLarge m nb = some r) : TakesBinned m r := by
  obtain ⟨v, hv, h⟩ := Option.bind_eq_some_iff.mp h
  refine ⟨v, leastFit_mem hv, ?_⟩
  dsimp only at h
  split at h
  case isFalse => cases h
  case isTrue =>
  split at h
  · obtain rfl := Option.some.inj h
    exact ⟨rfl, (Rebins.unlinkChunk ..).trans (Rebins.setInuseAndPinuse ..)⟩
  · obtain rfl := Option.some.inj h
    exact ⟨rfl, (Rebins.unlinkChunk ..).trans ((Rebins.split ..).trans (Rebins.insertChunk ..))⟩

theorem fromBins_takes (h : fromBins m bytes nb = some r) : TakesBinned m r := by
  unfold fromBins at h
  split at h
  · rcases (Option.orElse_eq_some _ _ _).mp h with h | ⟨-, h⟩
    · exact smallFit_takes h
    split at h
    · rcases (Option.orElse_eq_some _ _ _).mp h with h | ⟨-, h⟩
      · exact smallSplit_takes h
      · exact tmallocSmall_takes h
    · cases h
  split at h
  · cases h
  · exact tmallocLarge_takes h

theorem fromDv_rebins (m : MState) (nb : Nat) : Rebins m (fromDv m nb).2 := by
  unfold fromDv
  dsimp only
  split
  · exact (Rebins.setDv ..).trans ((Rebins.setFreeChunk ..).trans (Rebins.setInuseChunk ..))
  · exact (Rebins.setDv m 0 0).trans (Rebins.setInuseAndPinuse ..)

/-- The heap serves a request with a binned chunk, from `dv`, or from `top`. -/
theorem fromHeap_cases (h : fromHeap m bytes nb = some r) :
    TakesBinned m r ∨ r.1 = chunk2mem m.dv ∧ Rebins m r.2 ∨ nb < m.topsize ∧ r = splitTop m nb := by
  rcases (Option.orElse_eq_some _ _ _).mp h with h | ⟨-, h⟩
  · exact .inl (fromBins_takes h)
  split at h
  · obtain rfl := Option.some.inj h
    refine .inr (.inl ⟨?_, fromDv_rebins m nb⟩)
    unfold fromDv
    dsimp only
    split <;> rfl
  split at h
  · exact .inr (.inr ⟨‹_›, (Option.some.inj h).symm⟩)
  · cases h

/-- What the heap serves as it is, is a step of a history. -/
theorem fromHeap_exec (h : fromHeap m bytes nb = some r) : ∃ op, exec m op = .ok r.2 := by
  have rebin (h : Rebins m r.2) : ∃ op, exec m op = .ok r.2 := by
    obtain ⟨dv, dvsize, bins, mem, heq⟩ := h
    exact ⟨.rebin dv dvsize bins mem, congrArg Except.ok heq.symm⟩
  rcases fromHeap_cases h with ⟨p, -, -, hr⟩ | ⟨-, hr⟩ | ⟨-, rfl⟩
  · exact rebin hr
  · exact rebin hr
  · exact ⟨.splitTop nb, rfl⟩

/-! ## The states that a call starts in -/

/-- The chunks and `top` are at user addresses, a segment holds `top`, and the footprint is a
`long`. -/
structure Sound (m : MState) : Prop where
  footprint : m.footprint < 2 ^ 63
  binned : ∀ p ∈ m.bins, p.1 < userEnd
  dv : m.dv < userEnd
  top : m.top < userEnd
  held : m.isInitialized → (m.segmentHolding m.top).isSome

/-- A heap that is in order is sound, if its free chunks are at user addresses. -/
theorem Ready.sound (h : Ready m) (hdv : m.dv < userEnd) (hbins : ∀ p ∈ m.bins, p.1 < userEnd) :
    Sound m := by
  have hfoot := h.footprint_le
  have htop := h.top_bound
  have hpos := h.topsize_pos
  simp only [userEnd] at hfoot
  exact ⟨by omega, hbins, hdv, by omega, fun _ => h.segmentHolding_isSome⟩

theorem chunk2mem_ne_zero {p : Nat} (h : p < userEnd) : chunk2mem p ≠ 0 := by
  simp only [userEnd] at h
  rw [chunk2mem_eq (by omega)]
  omega

theorem addSegment_ok (h : (m.segmentHolding m.top).isSome) (tbase tsize : Nat) (mmapped : Bool) :
    ∃ m', addSegment m tbase tsize mmapped = .ok m' := by
  obtain ⟨sp, hsp⟩ := Option.isSome_iff_exists.mp h
  simp only [addSegment, hsp]
  exact ⟨_, rfl⟩

namespace Sound

theorem fromHeap_ne_zero (hm : Sound m) (h : fromHeap m bytes nb = some r) : r.1 ≠ 0 := by
  rcases fromHeap_cases h with ⟨p, hp, hr, -⟩ | ⟨hr, -⟩ | ⟨-, rfl⟩
  · exact hr ▸ chunk2mem_ne_zero (hm.binned p hp)
  · exact hr ▸ chunk2mem_ne_zero hm.dv
  · exact chunk2mem_ne_zero hm.top

theorem getHeapSize_nonneg (hm : Sound m) : 0 ≤ getHeapSize m := by
  have := hm.footprint
  unfold getHeapSize toLong
  split_ifs <;> omega

/-- New memory is put to use. -/
theorem place_ok (hm : Sound m) (tbase tsize nb : Nat) : ∃ r, place m tbase tsize nb = .ok r := by
  unfold place
  dsimp only
  split
  case isTrue => exact ⟨_, rfl⟩
  case isFalse hinit =>
  split
  · exact ⟨_, rfl⟩
  split
  · exact ⟨_, rfl⟩
  have hinit : (m.addFootprint tsize).isInitialized = true := by simpa using hinit
  obtain ⟨m', hm'⟩ := addSegment_ok (m := { m.addFootprint tsize with
    leastAddr := min tbase (m.addFootprint tsize).leastAddr }) (hm.held hinit) tbase tsize true
  rw [hm']
  exact ⟨_, rfl⟩

theorem sysAlloc_ok (hm : Sound m) (mmap : Nat → Option Nat) (heapSize : Int) (nb : Nat) :
    ∃ r, sysAlloc mmap m heapSize nb = .ok r := by
  unfold sysAlloc
  generalize (if threshold ≤ nb && m.topsize != 0 then mmapAlloc mmap m nb else (0, m)) = direct
  dsimp only
  split
  · exact ⟨_, rfl⟩
  split
  · exact ⟨_, rfl⟩
  split
  · exact ⟨_, rfl⟩
  split
  · exact ⟨_, rfl⟩
  · exact place_ok hm ..

end Sound

/-! ## The passes of `dlmalloc` -/

/-- The call returns `mem` after `calls`, with any fuel from `n` on. -/
def Returns (c : Callees) (bytes : Nat) (a : Allocator) (n : Nat) (calls : List Call)
    (mem : Nat) : Prop :=
  ∃ a', ∀ fuel, n ≤ fuel → dlmalloc c fuel bytes a = .ok (mem, a', calls)

/-- A request that the heap serves. -/
theorem returns_of_fromHeap (h : fromHeap a.gm bytes (requestSize bytes) = some r) :
    Returns c bytes a 1 [] r.1 := by
  refine ⟨{ a with gm := r.2 }.postaction r.1, fun fuel hfuel => ?_⟩
  obtain ⟨fuel, rfl⟩ := Nat.exists_eq_add_of_le' hfuel
  rw [dlmalloc]
  dsimp only
  rw [h]
  rfl

/-- A request that extends the heap. -/
theorem returns_of_sysAlloc (h : fromHeap a.gm bytes (requestSize bytes) = none)
    (hc : a.collects = false)
    (hr : sysAlloc c.mmap a.gm (getHeapSize a.gm) (requestSize bytes) = .ok r) :
    Returns c bytes a 1 [.sysAlloc (requestSize bytes) r.1] r.1 := by
  refine ⟨{ a with gm := r.2, heapSize := getHeapSize a.gm }.postaction r.1, fun fuel hfuel => ?_⟩
  obtain ⟨fuel, rfl⟩ := Nat.exists_eq_add_of_le' hfuel
  rw [dlmalloc]
  dsimp only
  rw [h, hc, hr]
  rfl

/-- A request that is tried again after a collection. -/
theorem Returns.of_collects {n mem : Nat} {calls : List Call}
    (h : fromHeap a.gm bytes (requestSize bytes) = none) (hc : a.collects)
    (hret : Returns c bytes
      { a with
        gm := c.gcCollect a.gm, heapSize := getHeapSize a.gm, allocatedSinceLastGC := 0 }
      n calls mem) :
    Returns c bytes a (n + 1) (.gcCollect :: calls) mem := by
  obtain ⟨a', hret⟩ := hret
  refine ⟨a', fun fuel hfuel => ?_⟩
  obtain ⟨fuel, rfl⟩ := Nat.exists_eq_add_of_le' (Nat.le_of_add_left_le hfuel)
  rw [dlmalloc]
  dsimp only
  rw [h, if_pos hc, hret fuel (by omega)]
  rfl

/-- A call that does not collect ends in its first pass. -/
theorem Sound.returns (c : Callees) (bytes : Nat) (ha : Sound a.gm) (hc : a.collects = false) :
    ∃ calls mem, Returns c bytes a 1 calls mem ∧ .gcCollect ∉ calls ∧
      (mem = 0 → .sysAlloc (requestSize bytes) 0 ∈ calls) := by
  cases h : fromHeap a.gm bytes (requestSize bytes) with
  | some r =>
    exact ⟨[], r.1, returns_of_fromHeap h, nofun, fun h0 => absurd h0 (ha.fromHeap_ne_zero h)⟩
  | none =>
    obtain ⟨r, hr⟩ := ha.sysAlloc_ok c.mmap (getHeapSize a.gm) (requestSize bytes)
    exact ⟨_, r.1, returns_of_sysAlloc h hc hr, by simp, fun h0 => by simp [h0]⟩

/-- The counter that a collection leaves does not start another. -/
theorem Sound.collects_eq_false (ha : Sound a.gm) (hcount : a.allocatedSinceLastGC ≤ 0) :
    a.collects = false := by
  have hshare : 0 ≤ (getHeapSize a.gm).tdiv fsd :=
    Int.tdiv_nonneg ha.getHeapSize_nonneg (by decide)
  rw [Allocator.collects, decide_eq_false (by omega), Bool.false_and]

/-- Callees that do nothing: the collector finds nothing to free, and the system refuses. -/
def idle : Callees where
  gcCollect m := m
  mmap _ := none
  dlfree m _ := m
  tryReallocChunk m _ _ := (0, m)

theorem sound_start : Sound .start where
  footprint := by decide
  binned := nofun
  dv := by decide
  top := by decide
  held := nofun

end PrecisionGc.Dlmalloc
