import PrecisionGc.Verify.Requests

/-!
# `dlfree` and `dlmalloc`

Freeing a block that is in use succeeds, whatever is around it, and so does a collection that frees
blocks. A call of `dlmalloc` returns after at most one collection, with a block that is large enough
or with NULL.
-/

namespace PrecisionGc.Dlmalloc
open Regions BoundaryTags

variable {m m' : MState} {S : List Span} {U V G : List (Nat × Nat)} {p s nb bytes fuel : Nat}
  {munmap : Nat → Nat → Bool} {g g' : Heap} {w : World}

/-- The address that the program has for a block. -/
def payload (b : Nat × Nat) : Nat := chunk2mem b.1

theorem Blocks.hole (h : Blocks m ((p, s) :: U) []) :
    ∃ x : Hole, Tiled m (x.fill [⟨p, s, .inuse⟩]) [] ∧ (ofKind .inuse x.others).Perm U := by
  obtain ⟨S, hS, hU⟩ := h
  obtain ⟨x, rfl⟩ := exists_hole (mem_ofKind (e := (p, s)).mp (hU.mem_iff.mpr List.mem_cons_self))
  refine ⟨x, hS, ?_⟩
  have hperm := (x.inuse_fill [⟨p, s, .inuse⟩]).symm.trans hU
  simpa [entry] using hperm

/-- What holds of a block in use. -/
structure IsBlock (m : MState) (p s : Nat) : Prop where
  pos : 0 < p
  least : m.leastAddr ≤ p
  aligned : p % 16 = 0
  mod : s % 16 = 0
  min : minChunkSize ≤ s
  bound : p + s + 32 < 2 ^ 56
  inuse : m.isInuse p = true
  not_isMmapped : m.isMmapped p = false
  chunksize : m.chunksize p = s

theorem Blocks.isBlock (h : Blocks m U []) (hb : (p, s) ∈ U) : IsBlock m p s := by
  obtain ⟨x, hx, -⟩ := (h.perm (List.perm_cons_erase hb)).hole
  obtain ⟨hpos, hleast, haligned, hmod, hmin, hbound⟩ := hx.chunk_spec mem_fill_chunk
  have htag := hx.tagged
  exact ⟨hpos, hleast, haligned, hmod, hmin, hbound, htag.isInuse rfl, htag.not_isMmapped rfl,
    htag.chunksize⟩

namespace IsBlock

variable (h : IsBlock m p s)
include h

theorem payload_eq : payload (p, s) = p + 16 := by
  have := h.bound
  exact chunk2mem_eq (by omega)

theorem payload_ne_zero : payload (p, s) ≠ 0 := by
  rw [h.payload_eq]
  omega

theorem mem2chunk : mem2chunk (payload (p, s)) = p := by
  have := h.bound
  rw [h.payload_eq, Dlmalloc.mem2chunk, subSize_eq (by omega) (by omega)]
  omega

theorem next_eq : addSize p s = p + s := by
  have := h.bound
  exact addSize_eq (by omega)

theorem okAddress : m.okAddress p = true := decide_eq_true h.least

end IsBlock

/-! ## Freeing -/

theorem Heap.releaseCheck_spec (hb : Blocks g.gm U []) (munmap : Nat → Nat → Bool) :
    Blocks (g.releaseCheck munmap).gm U [] ∧ (g.releaseCheck munmap).gm.mem = g.gm.mem := by
  rcases Decidable.em (subSize g.releaseChecks 1 = 0) with h0 | h0
  · simp only [Heap.releaseCheck, if_pos h0]
    exact hb.releaseUnusedSegments munmap
  · simp only [Heap.releaseCheck, if_neg h0]
    exact ⟨hb, trivial⟩

/-- A block in use is freed. -/
theorem Heap.dlfree_spec (hb : Blocks g.gm ((p, s) :: U) []) (munmap : Nat → Nat → Bool) :
    ∃ g', g.dlfree munmap (payload (p, s)) = .ok g' ∧ Blocks g'.gm U [] ∧ Keeps g.gm g'.gm U := by
  have hp := hb.isBlock List.mem_cons_self
  obtain ⟨x, hx, hU⟩ := hb.hole
  have hmin := hp.min
  simp only [minChunkSize] at hmin
  simp only [Heap.dlfree, if_neg hp.payload_ne_zero, hp.mem2chunk, hp.okAddress, hp.inuse,
    hp.chunksize, hp.next_eq, Bool.and_self, if_true]
  rcases consolidates munmap hx with ⟨m', hback, hm, hkeep⟩ |
    ⟨m₁, q, t, hback, hlt, hpin, -, hm, hkeep⟩
  · exact ⟨{ g with gm := m' }, by rw [hback]; rfl, hm.perm hU, hkeep.mono hU.symm.subset⟩
  · rw [hback]
    simp only [Except.ok_bind, decide_eq_true hlt, hpin, Bool.and_self, if_true]
    cases hf : consolidateForward m₁ q t (p + s) with
    | mk m' r =>
      rw [hf] at hm hkeep
      cases r with
      | none => exact ⟨{ g with gm := m' }, rfl, hm.perm hU, hkeep.mono hU.symm.subset⟩
      | some v =>
        refine ⟨_, rfl, ?_⟩
        split
        · exact ⟨hm.perm hU, hkeep.mono hU.symm.subset⟩
        · obtain ⟨hm', hmem⟩ := Heap.releaseCheck_spec
            (g := { g with gm := m'.insertChunk q v }) (hm.perm hU) munmap
          exact ⟨hm', (hkeep.mono hU.symm.subset).trans (.of_mem hmem)⟩

/-- Blocks are freed one after the other. -/
theorem Heap.dlfree_all (hb : Blocks g.gm (G ++ U) []) (munmap : Nat → Nat → Bool) :
    ∃ g', (G.map payload).foldlM (Heap.dlfree munmap) g = .ok g' ∧ Blocks g'.gm U [] ∧
      Keeps g.gm g'.gm U := by
  induction G generalizing g with
  | nil => exact ⟨g, rfl, hb, .of_mem rfl⟩
  | cons b G ih =>
    obtain ⟨g₁, hfree, hb₁, hkeep₁⟩ := Heap.dlfree_spec hb munmap
    obtain ⟨g₂, hall, hb₂, hkeep₂⟩ := ih hb₁
    refine ⟨g₂, ?_, hb₂, (hkeep₁.mono (List.subset_append_right G U)).trans hkeep₂⟩
    rw [List.map_cons, List.foldlM_cons, hfree]
    exact hall

/-! ## `dlmalloc` -/

/-- What `sys_alloc` relies on, if it is called for a chunk of `nb` bytes: the system maps fresh
pages, and an extension that is asked for is large enough. -/
structure Extends (w : World) (m : MState) (nb : Nat) : Prop where
  maps : Maps m w.mmap
  extensible : Recomputes m nb → Extensible m nb

/-- The result of a request: NULL, or a block that is large enough. -/
def Mallocs (m : MState) (U : List (Nat × Nat)) (nb : Nat) (r : Nat × Heap) : Prop :=
  r.1 = 0 ∧ Held r.2.gm U ∧ Keeps m r.2.gm U ∨
    ∃ b : Nat × Nat, r.1 = payload b ∧ nb ≤ b.2 ∧ b.2 < nb + minChunkSize ∧
      Blocks r.2.gm (b :: U) [] ∧ Keeps m r.2.gm U

theorem Mallocs.perm {r : Nat × Heap} (h : Mallocs m U nb r) (hU : U.Perm V) :
    Mallocs m V nb r := by
  rcases h with ⟨h0, hheld, hkeep⟩ | ⟨b, hb, hle, hlt, hblocks, hkeep⟩
  · exact .inl ⟨h0, hheld.perm hU, hkeep.mono hU.symm.subset⟩
  · exact .inr ⟨b, hb, hle, hlt, hblocks.perm (hU.cons b), hkeep.mono hU.symm.subset⟩

theorem Obtains.mallocs {r : Nat × MState} (h : Obtains m U nb r) (hg : g.gm = r.2) :
    Mallocs m U nb (r.1, g) := by
  obtain ⟨p, s, hr, hle, hlt, hblocks, hkeep⟩ := h
  exact .inr ⟨(p, s), hr, hle, hlt, hg ▸ hblocks, hg ▸ hkeep⟩

theorem Held.collects_eq_false (h : Held g.gm U) (h0 : g.allocatedSinceLastGC ≤ 0) :
    g.collects = false := by
  have hshare : 0 ≤ getHeapSize g.gm := by
    rcases h with ⟨S, hS, -⟩ | ⟨h, -⟩
    · have := hS.ready.footprint_le
      simp only [userEnd] at this
      rw [getHeapSize, if_pos hS.ready.isInitialized, toLong, if_pos (by omega)]
      omega
    · simp [getHeapSize, h.isInitialized]
  have := Int.tdiv_nonneg hshare (by decide : (0 : Int) ≤ fsd)
  rw [Allocator.collects, decide_eq_false (by omega), Bool.false_and]

/-- A pass that does not collect. -/
theorem Held.pass (h : Held g.gm U) (hext : Extends w g.gm (requestSize bytes))
    (hc : fromHeap g.gm bytes (requestSize bytes) = none → g.collects = false) :
    ∃ r, Heap.dlmalloc w (fuel + 1) bytes g = .ok r ∧ Mallocs g.gm U (requestSize bytes) r := by
  rw [Heap.dlmalloc]
  dsimp only
  cases hheap : fromHeap g.gm bytes (requestSize bytes) with
  | some r =>
    obtain ⟨-, hobtains⟩ := h.fromHeap_obtains hheap
    exact ⟨_, rfl, hobtains.mallocs rfl⟩
  | none =>
    have hnb : requestSize bytes = maxSizeT ∨
        Padded (requestSize bytes) ∧ minChunkSize ≤ requestSize bytes := by
      rcases Nat.lt_or_ge bytes maxRequest with hb | hb
      · have hsize := (request2size_spec hb).1
        rw [← requestSize_eq hb] at hsize
        exact .inr ⟨hsize.padded, hsize.min⟩
      · exact .inl (requestSize_large hb)
    obtain ⟨r, hr, hserves⟩ := h.sysAlloc_serves hext.maps hnb hext.extensible
    rw [hc hheap]
    simp only [Bool.false_eq_true, if_false, hr]
    refine ⟨_, rfl, ?_⟩
    rcases hserves with rfl | hobtains
    · exact .inl ⟨rfl, h, .of_mem rfl⟩
    · exact hobtains.mallocs rfl

/-- What a call of `dlmalloc` for `bytes` bytes relies on. -/
structure Admits (w : World) (g : Heap) (bytes : Nat) : Prop where
  direct : Extends w g.gm (requestSize bytes)
  /-- behind a collection -/
  collected : ∀ g', Heap.gcCollect w { g with heapSize := getHeapSize g.gm } = .ok g' →
    Extends w g'.gm (requestSize bytes)

/-- A call for `bytes` bytes collects first. -/
def Heap.collectsFor (g : Heap) (bytes : Nat) : Bool :=
  (fromHeap g.gm bytes (requestSize bytes)).isNone && g.collects

/-- The blocks that are left, if the garbage `G` has been collected or if it has not. -/
def remaining (collected : Bool) (G U : List (Nat × Nat)) : List (Nat × Nat) :=
  if collected then U else G ++ U

/-- A call of `dlmalloc` returns. If it collects, the garbage is gone, and the other blocks are not
touched. -/
theorem Held.dlmalloc_spec (fuel : Nat) (h : Held g.gm (G ++ U))
    (hgarbage : w.garbage = G.map payload) (hadmits : Admits w g bytes) :
    ∃ r, Heap.dlmalloc w (fuel + 2) bytes g = .ok r ∧
      Mallocs g.gm (remaining (g.collectsFor bytes) G U) (requestSize bytes) r := by
  by_cases hc : g.collectsFor bytes = true
  case neg =>
    rw [Bool.not_eq_true] at hc
    rw [hc]
    refine h.pass hadmits.direct fun hheap => ?_
    simpa [Heap.collectsFor, hheap] using hc
  rw [hc]
  simp only [Heap.collectsFor, Bool.and_eq_true, Option.isNone_iff_eq_none] at hc
  obtain ⟨hheap, hcollects⟩ := hc
  have hcollect : ∃ g', Heap.gcCollect w { g with heapSize := getHeapSize g.gm } = .ok g' ∧
      Held g'.gm U ∧ Keeps g.gm g'.gm U := by
    rcases h with h | ⟨h, hnil⟩
    · obtain ⟨g', hcollect, hb, hkeep⟩ := Heap.dlfree_all
        (g := { g with heapSize := getHeapSize g.gm }) h w.munmap
      rw [← hgarbage] at hcollect
      exact ⟨g', hcollect, .inl hb, hkeep⟩
    · obtain ⟨rfl, rfl⟩ := List.append_eq_nil_iff.mp hnil
      rw [Heap.gcCollect, hgarbage]
      exact ⟨_, rfl, .inr ⟨h, rfl⟩, .of_mem rfl⟩
  obtain ⟨g', hcollect, h', hkeep⟩ := hcollect
  have hcollects' := h'.collects_eq_false (g := { g' with allocatedSinceLastGC := 0 }) le_rfl
  obtain ⟨r, hr, hm⟩ := Held.pass (g := { g' with allocatedSinceLastGC := 0 }) h'
    (hadmits.collected g' hcollect) fun _ => hcollects'
  refine ⟨r, ?_, ?_⟩
  · rw [Heap.dlmalloc]
    dsimp only
    rw [hheap, if_pos hcollects, hcollect]
    exact hr
  · rcases hm with ⟨h0, hheld, hkeep'⟩ | ⟨b, hb, hle, hlt, hblocks, hkeep'⟩
    · exact .inl ⟨h0, hheld, hkeep.trans hkeep'⟩
    · exact .inr ⟨b, hb, hle, hlt, hblocks, hkeep.trans hkeep'⟩

end PrecisionGc.Dlmalloc
