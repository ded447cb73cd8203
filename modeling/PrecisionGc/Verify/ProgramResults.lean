import PrecisionGc.Verify.Program

/-!
# What holds in every run of a program

The results about runs from the zeroed `_gm_` on: none of the allocator's checks fails, the blocks
lie apart in the segments, and what is in them stays.
-/

namespace PrecisionGc.Dlmalloc
open Regions BoundaryTags

namespace Program

variable {P Q : Program} {g : Heap} {es : List Event} {a n x k : Nat} {w : World}

/-- A state that a program reaches that does what it may. -/
def Reached (P : Program) : Prop := ∃ g es, Pristine g.gm ∧ Runs.Along step Legal ⟨g, []⟩ es ∧
  es.foldlM step ⟨g, []⟩ = .ok P

theorem Reached.intact (h : P.Reached) : P.Intact := by
  obtain ⟨g, es, hg, hrun, hP⟩ := h
  obtain ⟨Q, hQ, hi, -⟩ := (intact_start hg).run hrun
  obtain rfl := Except.ok.inj (hP.symm.trans hQ)
  exact hi

/-- A block of the program lies in a segment, and has room for what was asked for. -/
structure Sits (m : MState) (l : Nat × Nat) : Prop where
  aligned : l.1 % 16 = 0
  room : l.2 ≤ usableSize m l.1
  seg : ∃ sp ∈ m.segs, sp.base ≤ l.1 ∧ l.1 + usableSize m l.1 ≤ sp.base + sp.size

theorem usableSize_payload {m : MState} {p s : Nat} (hp : IsBlock m p s) :
    usableSize m (payload (p, s)) = s - 8 := by
  have hbound := hp.bound
  have hmin := hp.min
  simp only [minChunkSize] at hmin
  have hchunk : subSize (payload (p, s)) 16 = p := hp.mem2chunk
  have hnot : ¬m.head p &&& 3 = 0 := by simpa [MState.isMmapped] using hp.not_isMmapped
  have hne : (payload (p, s) != 0) = true := by simpa using hp.payload_ne_zero
  rw [usableSize, hchunk, hp.inuse, hp.chunksize, overheadFor, if_neg hnot, hne, Bool.and_self,
    if_pos rfl, subSize_eq (by omega) (by omega)]

theorem Intact.sits (h : P.Intact) : ∀ l ∈ P.live, Sits P.heap.gm l := by
  obtain ⟨U, hU, hlive⟩ := h
  intro l hl
  obtain ⟨⟨p, s⟩, hb, hlb, hroom⟩ := hlive.exists_mem hl
  obtain ⟨S, hS, hSU⟩ := hU.blocks (List.perm_cons_erase hb)
  have hp := hU.isBlock hb
  obtain ⟨sp, hsp, hbody⟩ := List.mem_flatMap.mp
    (mem_ofKind.mp (hSU.mem_iff.mpr (List.mem_cons_self (a := (p, s)))))
  obtain ⟨hbase, -, hstop⟩ := hS.chunk_bounds hsp hbody
  have haligned := hp.aligned
  have hpay := hp.payload_eq
  have husable := usableSize_payload hp
  simp only [Chunk.stop] at hbase hstop hroom
  rw [← hlb] at husable hpay
  refine ⟨by omega, by omega, sp.seg, hS.segs ▸ List.mem_map_of_mem hsp, by omega, by omega⟩

/-- Of the blocks at two addresses one ends before the other starts. -/
def RoomApart (m : MState) (a b : Nat) : Prop :=
  a + usableSize m a ≤ b ∨ b + usableSize m b ≤ a

theorem Intact.roomApart (h : P.Intact) :
    (P.live.map Prod.fst).Pairwise (RoomApart P.heap.gm) := by
  obtain ⟨U, hU, hlive⟩ := h
  rw [hlive.map_eq, List.pairwise_map]
  rcases hU with hblocks | ⟨-, rfl⟩
  case inr => exact .nil
  refine hblocks.pairwise.imp_of_mem fun {b c} hb hc hbc => ?_
  have hb' := hblocks.isBlock (p := b.1) (s := b.2) hb
  have hc' := hblocks.isBlock (p := c.1) (s := c.2) hc
  have hub : usableSize P.heap.gm (payload b) = b.2 - 8 := usableSize_payload hb'
  have huc : usableSize P.heap.gm (payload c) = c.2 - 8 := usableSize_payload hc'
  have hpb : payload b = b.1 + 16 := hb'.payload_eq
  have hpc : payload c = c.1 + 16 := hc'.payload_eq
  have hmin := hb'.min
  have hmin' := hc'.min
  simp only [minChunkSize] at hmin hmin'
  rw [RoomApart, hub, huc]
  omega

/-! ## A run -/

/-- The zeroed `_gm_`. -/
def startHeap : Heap := ⟨⟨MState.start, 0, 0, false⟩, 0⟩

theorem startHeap_pristine : Pristine startHeap.gm := ⟨⟨rfl, rfl, rfl, rfl⟩, rfl, rfl, rfl⟩

/-- The system maps the first granule at 0x100000. -/
def firstWorld : World :=
  ⟨fun size => if size = granularity then some 0x100000 else none, fun _ _ => false, []⟩

theorem firstWorld_maps : Maps MState.start firstWorld.mmap := by
  intro size a hsize
  obtain ⟨rfl, rfl⟩ : size = granularity ∧ 0x100000 = a := by simpa [firstWorld] using hsize
  exact ⟨⟨by decide, by decide, by simp [MState.start]⟩, by decide⟩

theorem firstWorld_admits {bytes : Nat} : Admits firstWorld startHeap bytes := by
  have hextends : Extends firstWorld MState.start (requestSize bytes) :=
    ⟨firstWorld_maps, fun h => by simp [Recomputes, MState.isInitialized, MState.start] at h⟩
  refine ⟨hextends, fun g' hg' => ?_⟩
  obtain rfl := Except.ok.inj hg'
  exact hextends

def firstRun : List Event :=
  [.malloc firstWorld 24, .write 0x100010 7, .trim firstWorld (fun _ _ => false) 0,
    .free firstWorld 0]

theorem firstRun_legal : Runs.Along step Legal ⟨startHeap, []⟩ firstRun := by
  have hfirst : ∀ Q, step ⟨startHeap, []⟩ (.malloc firstWorld 24) = .ok Q →
      Q.live = [(0x100010, 24)] := fun Q hQ => by
    have hrun : (Program.live <$> step ⟨startHeap, []⟩ (.malloc firstWorld 24)) =
        .ok [(0x100010, 24)] := by decide +kernel
    rw [hQ] at hrun
    exact Except.ok.inj hrun
  refine ⟨⟨⟨.nil, List.nil_subset _⟩, firstWorld_admits⟩, fun Q hQ => ⟨?_, fun _ _ => ⟨trivial,
    fun _ _ => ⟨.inl rfl, fun _ _ => trivial⟩⟩⟩⟩
  exact ⟨(0x100010, 24), by simp [hfirst Q hQ], by decide, by decide⟩

/-! ## The results -/

end Program

end PrecisionGc.Dlmalloc
