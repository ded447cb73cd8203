import PrecisionGc.Verify.Exchange

/-!
# Neighbours in the heap

What the tag of a chunk says, that chunks do not overlap, and which chunks can stand in front of a
chunk and behind it.
-/

namespace PrecisionGc.Dlmalloc
open Regions BoundaryTags

/-! ## Reading tags -/

section Tag

variable {m : MState} {p s : Nat} {k : Kind} {pin : Bool}

theorem pinuse_iff : m.pinuse p ↔ m.head p % 2 = 1 := by
  rw [MState.pinuse, and_one]
  have := Nat.mod_lt (m.head p) (by decide : 0 < 2)
  simp only [bne_iff_ne, ne_eq]
  omega

theorem cinuse_iff : m.cinuse p ↔ m.head p / 2 % 2 = 1 := by
  rw [MState.cinuse, and_two]
  simp only [bne_iff_ne, ne_eq]
  omega

theorem isInuse_iff : m.isInuse p ↔ m.head p % 4 ≠ 1 := by
  rw [MState.isInuse, and_three, bne_iff_ne]

theorem isMmapped_iff : m.isMmapped p ↔ m.head p % 4 = 0 := by
  rw [MState.isMmapped, and_three, beq_iff_eq]

/-- The head of a chunk that is tagged as it should be. -/
structure Tagged (m : MState) (p s : Nat) (k : Kind) (pin : Bool) : Prop where
  head : m.head p = s + (if k.used then 2 else 0) + if pin then 1 else 0
  mod : s % 16 = 0

namespace Tagged

variable (h : Tagged m p s k pin)
include h

theorem chunksize : m.chunksize p = s := by
  obtain ⟨hhead, hmod⟩ := h
  rw [MState.chunksize, hhead]
  split <;> split <;> omega

theorem pinuse : m.pinuse p = pin := by
  obtain ⟨hhead, hmod⟩ := h
  rw [Bool.eq_iff_iff, pinuse_iff, hhead]
  cases pin <;> cases k.used <;> simp <;> omega

theorem cinuse : m.cinuse p = k.used := by
  obtain ⟨hhead, hmod⟩ := h
  rw [Bool.eq_iff_iff, cinuse_iff, hhead]
  cases pin <;> cases k.used <;> simp <;> omega

theorem isInuse (hk : k.used = true) : m.isInuse p = true := by
  obtain ⟨hhead, hmod⟩ := h
  rw [isInuse_iff, hhead, hk]
  cases pin <;> simp <;> omega

theorem not_isInuse (hk : k.used = false) (hpin : pin = true) : m.isInuse p = false := by
  obtain ⟨hhead, hmod⟩ := h
  rw [Bool.eq_false_iff, ne_eq, isInuse_iff, hhead, hk, hpin]
  simp
  omega

theorem not_isMmapped (hk : k.used = true) : m.isMmapped p = false := by
  obtain ⟨hhead, hmod⟩ := h
  rw [Bool.eq_false_iff, ne_eq, isMmapped_iff, hhead, hk]
  cases pin <;> simp <;> omega

end Tagged

end Tag

variable {m m' : MState} {S : List Span} {X X' : List (Nat × Nat)} {x : Hole}
  {mid : List HeapChunk} {c d : HeapChunk} {p s : Nat} {k : Kind}

theorem mem_fill_chunk : (⟨p, s, k⟩ : HeapChunk) ∈ chunks (x.fill [⟨p, s, k⟩]) :=
  (x.perm _).mem_iff.mpr (by simp)

namespace Tiled

theorem tagged (h : Tiled m (x.fill [⟨p, s, k⟩]) X) : Tagged m p s k x.pin := by
  have hb := h.hole_bounds
  obtain ⟨rfl, -, hmod, -, htag⟩ := h.hole_chunk
  simp only [userEnd] at hb
  exact ⟨(head_eq (by omega)).trans htag, hmod⟩

theorem tagged_next {n t : Nat} {k' : Kind} (h : Tiled m (x.fill [⟨p, s, k⟩, ⟨n, t, k'⟩]) X) :
    Tagged m n t k' k.used := by
  have hb := h.hole_bounds
  obtain ⟨-, ⟨-, -, -, -, -, hn, -, ht, htag, -, -⟩, -⟩ := h.hole_tiles
  obtain ⟨rfl, rfl, -⟩ := h.hole_pair
  simp only [stop_cons, stop_nil, Chunk.stop, userEnd] at hb
  exact ⟨(head_eq (by omega)).trans htag, ht.1⟩

/-! ## Chunks do not overlap -/

/-- Where a chunk lies in its segment. -/
theorem chunk_bounds (h : Tiled m S X) {s : Span} (hs : s ∈ S) (hc : c ∈ s.body) :
    s.seg.base ≤ c.addr ∧ c.addr + 8 < c.stop ∧ c.stop + 32 < s.seg.base + s.seg.size := by
  have hspan := h.spans s hs
  have hroom := hspan.room
  have hfoot := s.seg.le_footSize
  obtain ⟨hbody, hlast⟩ := tiles_append.mp hspan.tiles
  obtain ⟨hle, hstop, hlt⟩ := hbody.bounds hc
  obtain ⟨hle', -, hlt'⟩ := hlast.bounds (c := m.tail s.seg) (by simp)
  omega

/-- What holds of every chunk. -/
theorem chunk_spec (h : Tiled m S X) (hc : c ∈ chunks S) : 0 < c.addr ∧ m.leastAddr ≤ c.addr ∧
    c.addr % 16 = 0 ∧ c.size % 16 = 0 ∧ minChunkSize ≤ c.size ∧ c.stop + 32 < 2 ^ 56 := by
  obtain ⟨s, hs, hc⟩ := List.mem_flatMap.mp hc
  obtain ⟨hbase, -, hstop⟩ := h.chunk_bounds hs hc
  have hmem : s.seg ∈ m.segs := h.segs ▸ List.mem_map_of_mem hs
  have hpos := h.ready.layout.pos _ hmem
  have hbound := h.ready.layout.bound _ hmem
  have hleast := h.least s hs
  obtain ⟨hmod, hfits⟩ := (h.spans s hs).tiles.valid (List.mem_append_left _ hc)
  simp only [userEnd] at hbound
  have hfits : minChunkSize ≤ c.size := by
    rcases (h.spans s hs).body c hc with hk | hk <;> simpa [hk, Kind.fits] using hfits
  have haddr := (h.spans s hs).tiles.addr_mod (h.aligned s hs).1 And.left
    (List.mem_append_left _ hc)
  exact ⟨by omega, by omega, haddr, hmod, hfits, by omega⟩

/-- Two chunks, one of which ends before the other starts. -/
def Apart (c d : HeapChunk) : Prop := c.stop ≤ d.addr ∨ d.stop ≤ c.addr

theorem apart (h : Tiled m S X) : (chunks S).Pairwise Apart := by
  refine List.pairwise_flatMap.mpr ⟨fun s hs => ?_, ?_⟩
  · exact ((tiles_append.mp (h.spans s hs).tiles).1.pairwise).imp .inl
  · have hdisj : (S.map Span.seg).Pairwise fun s t => Disjoint s.region t.region :=
      h.segs ▸ h.ready.layout.disjoint
    rw [List.pairwise_map] at hdisj
    refine hdisj.imp_of_mem fun {s t} hs ht hst c hc d hd => ?_
    have hc' := h.chunk_bounds hs hc
    have hd' := h.chunk_bounds ht hd
    have hnot : max c.addr d.addr ∈ s.seg.region → max c.addr d.addr ∉ t.seg.region :=
      fun hmem => Finset.disjoint_left.mp hst hmem
    simp only [Segment.region, mem_region] at hnot
    by_contra hover
    simp only [Apart, not_or, not_le] at hover
    exact hnot ⟨by omega, by omega⟩ ⟨by omega, by omega⟩

theorem nodup (h : Tiled m S X) : ((chunks S).map Chunk.addr).Nodup := by
  refine List.pairwise_map.mpr (h.apart.imp_of_mem fun {c d} hc hd hcd heq => ?_)
  obtain ⟨-, -, -, -, hsize, -⟩ := h.chunk_spec hc
  obtain ⟨-, -, -, -, hsize', -⟩ := h.chunk_spec hd
  simp only [Apart, Chunk.stop, minChunkSize] at hcd hsize hsize'
  omega

theorem nodup_ofKind (h : Tiled m S X) (k : Kind) : (ofKind k (chunks S)).Nodup := by
  refine List.Nodup.of_map Prod.fst ?_
  have hsub : ((chunks S).filter fun c => c.kind = k).Sublist (chunks S) := List.filter_sublist
  simpa [ofKind, entry, Function.comp_def] using (hsub.map Chunk.addr).nodup h.nodup

/-- A chunk is known by its address. -/
theorem chunk_ext (h : Tiled m S X) (hc : c ∈ chunks S) (hd : d ∈ chunks S)
    (haddr : c.addr = d.addr) : c = d :=
  List.inj_on_of_nodup_map h.nodup hc hd haddr

/-! ## The neighbours of a hole -/

/-- In front of a hole that is not pinned stands a free chunk, with its size behind it. -/
theorem prev_free (h : Tiled m (x.fill mid) X) (hpin : x.pin = false) :
    ∃ l d t, x.left = l ++ [⟨d, t, .free⟩] ∧ d + t = x.start ∧ m.mem x.start = t := by
  obtain ⟨hl, -, -⟩ := h.hole_tiles
  have hbody := h.hole.body
  cases hleft : x.left.reverse with
  | nil =>
    rw [List.reverse_eq_nil_iff] at hleft
    simp [Hole.pin, hleft] at hpin
  | cons c l =>
    rw [List.reverse_eq_cons_iff] at hleft
    rw [hleft] at hl
    have hkind : c.kind = .free := by
      have hc := hbody c (by simp [hleft])
      have hused : c.kind.used = false := by simpa [Hole.pin, hleft] using hpin
      rcases hc with hk | hk
      · simp [hk, Kind.used] at hused
      · exact hk
    obtain ⟨-, hc⟩ := tiles_append.mp hl
    obtain ⟨haddr, -, -, -, hfoot, -⟩ := hc
    have hstart : x.start = c.stop := by simp [Hole.start, hleft]
    refine ⟨l.reverse, c.addr, c.size, ?_, hstart.symm, ?_⟩
    · rw [hleft, ← hkind]
    · rw [hstart]
      exact hfoot (by simp [tagging, hkind])

/-- What can stand behind a hole: a chunk that is used, or `top`, or a free chunk. -/
theorem next_cases (h : Tiled m (x.fill mid) X) :
    m.mem (stop x.start mid + 8) / 2 % 2 = 1 ∨
      m.mem (stop x.start mid + 8) / 2 % 2 ≠ 1 ∧ stop x.start mid = m.top ∨
      m.mem (stop x.start mid + 8) / 2 % 2 ≠ 1 ∧ stop x.start mid ≠ m.top ∧
        ∃ t r, x.right = ⟨stop x.start mid, t, .free⟩ :: r := by
  obtain ⟨-, -, hr⟩ := h.hole_tiles
  have hbody := h.hole.body
  rcases Decidable.em (m.mem (stop x.start mid + 8) / 2 % 2 = 1) with hused | hunused
  · exact .inl hused
  right
  cases hright : x.right with
  | nil =>
    rw [hright] at hr
    obtain ⟨-, -, -, hiff⟩ := tag_of_head hr (n := m.tail x.seg) rfl
    obtain ⟨haddr, -⟩ := hr
    simp only [MState.tail] at haddr hiff
    split at haddr
    · exact .inl ⟨hunused, haddr.symm⟩
    · simp_all [Kind.used]
  | cons c r =>
    rw [hright] at hr
    obtain ⟨-, -, -, hiff⟩ := tag_of_head hr (n := c) rfl
    have hkind : c.kind = .free := by
      rcases hbody c (by simp [hright]) with hk | hk
      · exact absurd (hiff.mp (by simp [hk, Kind.used])) hunused
      · exact hk
    have haddr : c.addr = stop x.start mid := hr.1
    refine .inr ⟨hunused, fun htop => ?_, c.size, r, by rw [← haddr, ← hkind]⟩
    obtain ⟨-, hnil, -⟩ := h.at_top htop
    simp [hright] at hnil

/-- The chunk that starts where a hole ends stands behind it. -/
theorem next_eq (h : Tiled m (x.fill mid) X) (hc : c ∈ x.others)
    (haddr : c.addr = stop x.start mid) : ∃ r, x.right = c :: r := by
  have hb := h.hole_bounds
  obtain ⟨hl, -, hr⟩ := h.hole_tiles
  have hother : ∀ t ∈ x.before ++ x.after, c ∉ t.body := fun t ht hc => by
    have hmem : t ∈ x.fill mid := by
      simp only [Hole.fill, List.mem_append, List.mem_cons] at ht ⊢
      exact ht.imp_right .inr
    have hc' := h.chunk_bounds hmem hc
    have hnot := h.region_outside ht (w := c.addr)
    simp only [Segment.region, mem_region] at hnot
    exact hnot ⟨by omega, by omega⟩ ⟨by omega, by omega⟩
  simp only [Hole.others, List.mem_append, chunks, List.mem_flatMap] at hc
  rcases hc with (⟨t, ht, hc⟩ | hc) | hc | ⟨t, ht, hc⟩
  · exact absurd hc (hother t (List.mem_append_left _ ht))
  · have := hl.bounds hc
    change _ ∧ c.stop ≤ x.start ∧ _ at this
    omega
  · obtain ⟨r₁, r, hright⟩ := List.append_of_mem hc
    cases r₁ with
    | nil => exact ⟨r, hright⟩
    | cons d r₁ =>
      rw [hright] at hr
      have hd : d.addr = stop x.start mid := hr.1
      have hlt := (hr.bounds (c := d) (by simp)).2.2
      have hle := (List.pairwise_cons.mp hr.pairwise).1 c (by simp)
      omega
  · exact absurd hc (hother t (List.mem_append_right _ ht))

/-- A free chunk is `dv`, or it is in a bin and not at `dv`. -/
theorem free_cases (h : Tiled m S []) (hc : ⟨p, s, .free⟩ ∈ chunks S) :
    m.dvsize ≠ 0 ∧ p = m.dv ∧ s = m.dvsize ∨ p ≠ m.dv ∧ (p, s) ∈ m.bins := by
  have hmem : (p, s) ∈ m.dvChunk ++ m.bins := by
    simpa using h.bins.mem_iff.mp (mem_ofKind.mpr hc)
  have hdv : m.dvsize ≠ 0 → (m.dv, m.dvsize) ∈ ofKind .free (chunks S) := fun h0 =>
    h.bins.mem_iff.mpr (by simp [MState.dvChunk, h0])
  have hpos := (h.chunk_spec hc).1
  rcases List.mem_append.mp hmem with hmem | hmem
  · simp only [MState.dvChunk] at hmem
    split at hmem
    · cases hmem
    · obtain ⟨rfl, rfl⟩ := Prod.mk.inj (List.mem_singleton.mp hmem)
      exact .inl ⟨‹_›, rfl, rfl⟩
  · refine .inr ⟨?_, hmem⟩
    rintro rfl
    have h0 : m.dvsize ≠ 0 := fun h0 => by
      have := h.dv h0
      dsimp only at hpos
      omega
    have heq := h.chunk_ext hc (mem_ofKind.mp (hdv h0)) rfl
    obtain rfl : s = m.dvsize := by simpa using heq
    -- it would be counted twice
    have hnodup := h.nodup_ofKind .free
    rw [h.bins.nodup_iff] at hnodup
    simp [MState.dvChunk, h0, hmem] at hnodup

end Tiled

end PrecisionGc.Dlmalloc
