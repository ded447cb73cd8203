import PrecisionGc.Verify.Alignment

/-!
# Many blocks at once

`internal_bulk_free` joins a block with its neighbour, if that is the next in the array, and gives
back what it has joined. Whatever the order in the array, all its blocks are free in the end, as if
`dlfree` had been called for each.
-/

namespace PrecisionGc.Dlmalloc
open Regions BoundaryTags

variable {m m' : MState} {U V G : List (Nat × Nat)} {x : Hole} {p s t : Nat} {g g' : Heap}
  {w : World} {array : List Nat}

theorem Blocks.dispose (h : Blocks m ((p, s) :: U) []) (munmap : Nat → Nat → Bool) :
    ∃ m', disposeChunk munmap m p s = .ok m' ∧ Blocks m' U [] ∧ Keeps m m' U := by
  obtain ⟨x, hx, hU⟩ := h.hole
  obtain ⟨m', hm', hblocks, hkeep⟩ := disposeChunk_spec munmap hx
  exact ⟨m', hm', hblocks.perm hU, hkeep.mono hU.symm.subset⟩

/-- Two neighbours become one block. -/
theorem Blocks.joinUsed (h : Blocks m ((p, s) :: (p + s, t) :: U) []) :
    Blocks (m.setInuse p (s + t)) ((p, s + t) :: U) [] ∧ Keeps m (m.setInuse p (s + t)) U := by
  obtain ⟨x, hx, hU⟩ := h.hole
  have hc : (⟨p + s, t, .inuse⟩ : HeapChunk) ∈ x.others :=
    mem_ofKind (e := (p + s, t)).mp (hU.mem_iff.mpr List.mem_cons_self)
  obtain ⟨rfl, -⟩ := hx.hole_chunk
  obtain ⟨r, hright⟩ := hx.next_eq hc rfl
  let y : Hole := { x with right := r }
  have hy : x.fill [⟨x.start, s, .inuse⟩] =
      y.fill [⟨x.start, s, .inuse⟩, ⟨x.start + s, t, .inuse⟩] := x.fill_cons_right _ _ _ hright
  have hothers : (ofKind .inuse x.others).Perm ((x.start + s, t) :: ofKind .inuse y.others) := by
    simp only [y, Hole.others, hright, ofKind_append, ofKind_cons, if_true, entry,
      List.cons_append]
    exact List.perm_middle
  have hU' : (ofKind .inuse y.others).Perm U := (hothers.symm.trans hU).cons_inv
  rw [hy] at hx
  obtain ⟨hm, hkeep⟩ := hx.joinUsed
  exact ⟨hm.blocks.perm (hU'.cons _), hkeep.mono hU'.symm.subset⟩

/-- An address that stands for one of the blocks. -/
theorem exists_block_of_perm {a : Nat} {l : List Nat} (h : (a :: l).Perm (G.map payload)) :
    ∃ b V, payload b = a ∧ G.Perm (b :: V) ∧ l.Perm (V.map payload) := by
  obtain ⟨b, hb, rfl⟩ := List.mem_map.mp (h.mem_iff.mp List.mem_cons_self)
  have hG := List.perm_cons_erase hb
  exact ⟨b, G.erase b, rfl, hG, (h.trans (hG.map payload)).cons_inv⟩

theorem Heap.bulkFree_spec (hb : Held m (G ++ U))
    (harray : (array.filter (· ≠ 0)).Perm (G.map payload)) (w : World) :
    ∃ m', Heap.bulkFree w m array = .ok m' ∧ Held m' U ∧ Keeps m m' U := by
  induction hn : array.length using Nat.strong_induction_on generalizing m G array with
  | _ n ih =>
  subst hn
  cases array with
  | nil =>
    obtain rfl : G = [] := by simpa using harray
    exact ⟨m, by rw [Heap.bulkFree]; rfl, hb, .of_mem rfl⟩
  | cons a array =>
    by_cases h0 : a = 0
    · rw [List.filter_cons_of_neg (by simpa using h0)] at harray
      obtain ⟨m', hm', hres⟩ := ih array.length (by simp) hb harray rfl
      exact ⟨m', by rw [Heap.bulkFree, if_pos h0, hm'], hres⟩
    rw [List.filter_cons_of_pos (by simpa using h0)] at harray
    obtain ⟨⟨p, s⟩, V, rfl, hG, hV⟩ := exists_block_of_perm harray
    have hb' : Blocks m ((p, s) :: (V ++ U)) [] := hb.blocks (hG.append_right U)
    have hp := hb'.isBlock List.mem_cons_self
    have hbound := hp.bound
    have hnext : chunk2mem (p + s) = p + s + 16 := chunk2mem_eq (by omega)
    rw [Heap.bulkFree, if_neg h0]
    simp only [hp.mem2chunk, hp.okAddress, hp.inuse, hp.chunksize, hp.next_eq, Bool.and_self,
      if_true, hnext]
    have hdispose : ∃ m', (do
        let m ← disposeChunk w.munmap m p s
        Heap.bulkFree w m array) = .ok m' ∧ Held m' U ∧ Keeps m m' U := by
      obtain ⟨m₁, hm₁, hblocks₁, hkeep₁⟩ := hb'.dispose w.munmap
      obtain ⟨m', hm', hblocks', hkeep'⟩ := ih array.length (by simp) (.inl hblocks₁) hV rfl
      exact ⟨m', by rw [hm₁]; exact hm', hblocks',
        (hkeep₁.mono (List.subset_append_right V U)).trans hkeep'⟩
    cases array with
    | nil =>
      obtain rfl : V = [] := by simpa using hV
      obtain ⟨m', hm', hblocks', hkeep'⟩ := hb'.dispose w.munmap
      exact ⟨m', hm', .inl hblocks', hkeep'⟩
    | cons b array =>
      dsimp only
      split
      case isFalse => exact hdispose
      case isTrue hbnext =>
        -- the next block in the array is the neighbour
        rw [List.filter_cons_of_pos (by simp [hbnext])] at hV
        obtain ⟨⟨q, t⟩, V', hq, hV', hrest⟩ := exists_block_of_perm hV
        have hb₂ : Blocks m ((p, s) :: (q, t) :: (V' ++ U)) [] :=
          hb'.perm ((hV'.append_right U).cons _)
        have hqb := hb₂.isBlock (p := q) (s := t) (by simp)
        obtain rfl : q = p + s := by
          have := hqb.payload_eq
          omega
        obtain ⟨hjoin, hkeep⟩ := hb₂.joinUsed
        have hsize : addSize t s = s + t := by
          have := hqb.bound
          rw [addSize_eq (by omega), Nat.add_comm]
        have hjp := hjoin.isBlock List.mem_cons_self
        have hpay : chunk2mem p = payload (p, s + t) := rfl
        have hrest' : ((payload (p, s + t) :: array).filter (· ≠ 0)).Perm
            (((p, s + t) :: V').map payload) := by
          rw [List.filter_cons_of_pos (by simpa using hjp.payload_ne_zero)]
          exact hrest.cons _
        obtain ⟨m', hm', hblocks', hkeep'⟩ :=
          ih (array.length + 1) (by simp) (.inl hjoin) hrest' rfl
        refine ⟨m', ?_, hblocks', (hkeep.mono (List.subset_append_right V' U)).trans hkeep'⟩
        rw [hqb.chunksize, hsize, hpay]
        exact hm'

/-- The array may be freed one block at a time, or at once. -/
theorem Heap.internalBulkFree_spec (hb : Held g.gm (G ++ U))
    (harray : (array.filter (· ≠ 0)).Perm (G.map payload)) (w : World) :
    ∃ g', Heap.internalBulkFree w g array = .ok g' ∧ Held g'.gm U ∧ Keeps g.gm g'.gm U := by
  obtain ⟨m', hm', hres⟩ := Heap.bulkFree_spec hb harray w
  exact ⟨{ g with gm := m' }, by rw [Heap.internalBulkFree, hm']; rfl, hres⟩

end PrecisionGc.Dlmalloc
