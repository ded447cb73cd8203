import PrecisionGc.Model.Program
import PrecisionGc.Theory.BlockStore
import PrecisionGc.Verify.BulkFree
import PrecisionGc.Verify.Runs

/-!
# Whole runs of a program

A program that frees and resizes only what it has, and writes only there, never makes a check of the
allocator fail, whatever the order of its calls; and the heap is to it a store of blocks.
-/

namespace PrecisionGc.Dlmalloc
open Regions BoundaryTags

variable {m m' : MState} {U V G : List (Nat × Nat)} {live : List (Nat × Nat)} {as array : List Nat}
  {p s a n v bytes : Nat} {g g' : Heap} {w : World} {r : Nat × Heap}

/-! ## The blocks that a program has -/

/-- The program has the blocks `U`: at the addresses in `live`, with room for the bytes that were
asked for. -/
def Owns (live U : List (Nat × Nat)) : Prop :=
  List.Forall₂ (fun l b => l.1 = payload b ∧ l.2 + 8 ≤ b.2) live U

/-- The blocks without those at the addresses `as`. -/
def without (as : List Nat) (live : List (Nat × Nat)) : List (Nat × Nat) :=
  live.filter fun l => l.1 ∉ as

theorem Blocks.nodup_payload (h : Blocks m U []) : (U.map payload).Nodup := by
  refine List.pairwise_map.mpr (h.pairwise.imp_of_mem fun {b c} hb hc hbc heq => ?_)
  have hb' := h.isBlock (p := b.1) (s := b.2) hb
  have hc' := h.isBlock (p := c.1) (s := c.2) hc
  have hmin := hb'.min
  have hmin' := hc'.min
  have hpb : payload b = b.1 + 16 := hb'.payload_eq
  have hpc : payload c = c.1 + 16 := hc'.payload_eq
  simp only [minChunkSize] at hmin hmin'
  omega

theorem Held.isBlock (h : Held m U) {b : Nat × Nat} (hb : b ∈ U) : IsBlock m b.1 b.2 := by
  rcases h with h | ⟨-, rfl⟩
  · exact h.isBlock hb
  · cases hb

theorem Held.nodup_payload (h : Held m U) : (U.map payload).Nodup := by
  rcases h with h | ⟨-, rfl⟩
  · exact h.nodup_payload
  · exact .nil

namespace Owns

theorem map_eq (h : Owns live U) : live.map Prod.fst = U.map payload := by
  induction h with
  | nil => rfl
  | cons hlb _ ih => exact congrArg₂ List.cons hlb.1 ih

theorem exists_mem (h : Owns live U) {l : Nat × Nat} (hl : l ∈ live) :
    ∃ b ∈ U, l.1 = payload b ∧ l.2 + 8 ≤ b.2 := by
  obtain ⟨i, hi, rfl⟩ := List.getElem_of_mem hl
  have hi' : i < U.length := h.length_eq ▸ hi
  exact ⟨U[i], List.getElem_mem hi', (List.forall₂_iff_get.mp h).2 i hi hi'⟩

theorem without_of_not_mem (has : ∀ a ∈ as, a ∉ live.map Prod.fst) : without as live = live :=
  List.filter_eq_self.mpr fun l hl => by
    simpa using fun hmem => has l.1 hmem (List.mem_map_of_mem hl)

/-- The program has no block at NULL. -/
theorem zero_not_mem (h : Owns live U) (hpos : ∀ b ∈ U, payload b ≠ 0) :
    0 ∉ live.map Prod.fst := fun hmem => by
  rw [h.map_eq] at hmem
  obtain ⟨b, hb, h0⟩ := List.mem_map.mp hmem
  exact hpos b hb h0

theorem without_zero (h : Owns live U) (hpos : ∀ b ∈ U, payload b ≠ 0) :
    without [0] live = live := without_of_not_mem fun a ha => by
  obtain rfl := List.mem_singleton.mp ha
  exact h.zero_not_mem hpos

/-- One block is taken from the program. -/
theorem take (h : Owns live U) (hnodup : (U.map payload).Nodup) (ha : a ∈ live.map Prod.fst) :
    ∃ b V, payload b = a ∧ U.Perm (b :: V) ∧ Owns (without [a] live) V := by
  induction h with
  | nil => cases ha
  | @cons l b live U hlb h ih =>
    obtain ⟨hnot, hnodup⟩ := List.nodup_cons.mp hnodup
    by_cases hl : l.1 = a
    · refine ⟨b, U, hlb.1 ▸ hl, .rfl, ?_⟩
      have hrest : without [a] (l :: live) = live := by
        have hself : without [a] live = live := without_of_not_mem fun c hc hmem => by
          obtain rfl := List.mem_singleton.mp hc
          rw [map_eq h, ← hl, hlb.1] at hmem
          exact hnot hmem
        rw [without, List.filter_cons_of_neg (by simpa using hl)]
        exact hself
      rwa [hrest]
    · have ha' : a ∈ live.map Prod.fst := by
        rcases List.mem_cons.mp ha with heq | ha
        · exact absurd heq.symm hl
        · exact ha
      obtain ⟨c, V, hc, hperm, hV⟩ := ih hnodup ha'
      refine ⟨c, b :: V, hc, (hperm.cons b).trans (.swap ..), ?_⟩
      rw [without, List.filter_cons_of_pos (by simpa using hl)]
      exact .cons hlb hV

theorem without_cons (as : List Nat) (a : Nat) (live : List (Nat × Nat)) :
    without (a :: as) live = without as (without [a] live) := by
  simp only [without, List.filter_filter, List.mem_cons, List.not_mem_nil, or_false, not_or,
    Bool.decide_and]
  exact List.filter_congr fun l _ => Bool.and_comm ..

theorem take_perm {b : Nat × Nat} (h : Owns live U) (hnodup : (U.map payload).Nodup)
    (hU : U.Perm (b :: V)) : ∃ V', Owns (without [payload b] live) V' ∧ V.Perm V' := by
  have hb : payload b ∈ live.map Prod.fst := by
    rw [h.map_eq]
    exact List.mem_map_of_mem (hU.mem_iff.mpr List.mem_cons_self)
  obtain ⟨c, V', hc, hU', hV'⟩ := h.take hnodup hb
  obtain rfl : c = b := List.inj_on_of_nodup_map hnodup (hU'.mem_iff.mpr List.mem_cons_self)
    (hU.mem_iff.mpr List.mem_cons_self) hc
  exact ⟨V', hV', (hU.symm.trans hU').cons_inv⟩

/-- Blocks are taken from the program. -/
theorem takeAll (h : Owns live U) (hnodup : (U.map payload).Nodup) (hdup : as.Nodup)
    (hsub : as ⊆ live.map Prod.fst) :
    ∃ G V, as = G.map payload ∧ U.Perm (G ++ V) ∧ Owns (without as live) V := by
  induction as generalizing live U with
  | nil => exact ⟨[], U, rfl, .rfl, by simpa [without] using h⟩
  | cons a as ih =>
    obtain ⟨hnot, hdup'⟩ := List.nodup_cons.mp hdup
    obtain ⟨b, V, rfl, hperm, hV⟩ := h.take hnodup (hsub List.mem_cons_self)
    have hnodup' : (V.map payload).Nodup :=
      (List.nodup_cons.mp ((hperm.map payload).nodup_iff.mp hnodup)).2
    have hsub' : as ⊆ (without [payload b] live).map Prod.fst := fun c hc => by
      obtain ⟨l, hl, rfl⟩ := List.mem_map.mp (hsub (List.mem_cons_of_mem _ hc))
      refine List.mem_map_of_mem (List.mem_filter.mpr ⟨hl, ?_⟩)
      have hne : l.1 ≠ payload b := fun heq => hnot (heq ▸ hc)
      simpa using hne
    obtain ⟨G, V', rfl, hperm', hV'⟩ := ih hV hnodup' hdup' hsub'
    refine ⟨b :: G, V', rfl, hperm.trans (hperm'.cons b), ?_⟩
    rwa [without_cons]

end Owns

/-! ## What the program sees -/

/-- The bytes from `a` on. -/
def bytesAt (m : MState) (a n : Nat) : List Nat := (List.range n).map fun i => m.byte (a + i)

/-- The heap, as a store of blocks. -/
def view (m : MState) (live : List (Nat × Nat)) : BlockStore.Store :=
  live.map fun l => ⟨l.1, bytesAt m l.1 l.2⟩

@[simp] theorem length_bytesAt : (bytesAt m a n).length = n := by simp [bytesAt]

theorem bytesAt_congr (h : ∀ i < n, m'.byte (a + i) = m.byte (a + i)) :
    bytesAt m' a n = bytesAt m a n :=
  List.map_congr_left fun i hi => h i (List.mem_range.mp hi)

theorem view_without : view m (without as live) = BlockStore.drop as (view m live) := by
  rw [view, view, without, BlockStore.drop, List.filter_map]
  rfl

theorem byte_setByte {x : Nat} : (m.setByte a v).byte x = if x = a then v % 256 else m.byte x := by
  split
  case isTrue h => rw [h, setByte_eq, byte_eq, WordStore.byte_setByte_self]
  case isFalse h => rw [setByte_eq, byte_eq, WordStore.byte_setByte_of_ne h, byte_eq]

/-- A byte that is written is seen in the block that it is part of. -/
theorem view_setByte : view (m.setByte a v) live =
    (view m live).map (BlockStore.Block.set a (v % 256)) := by
  simp only [view, List.map_map]
  refine List.map_congr_left fun l _ => ?_
  simp only [Function.comp_apply, BlockStore.Block.set, BlockStore.Block.Has, length_bytesAt]
  split
  case isTrue hhas =>
    congr 1
    refine List.ext_getElem (by simp) fun i hi _ => ?_
    simp only [bytesAt, List.getElem_map, List.getElem_range, List.getElem_set, byte_setByte]
    exact if_congr (by omega) rfl rfl
  case isFalse hhas =>
    rw [bytesAt_congr fun i hi => byte_setByte.trans (if_neg (by omega))]

/-- What is kept is seen as it was. -/
theorem Owns.view_eq (h : Owns live U) (hblock : ∀ b ∈ U, IsBlock m' b.1 b.2)
    (hkeep : Keeps m m' U) : view m' live = view m live := by
  refine List.map_congr_left fun l hl => ?_
  obtain ⟨b, hb, hlb, hroom⟩ := h.exists_mem hl
  have hb' := hblock b hb
  have hpay : payload b = b.1 + 16 := hb'.payload_eq
  rw [bytesAt_congr fun i hi => hkeep.byte hb hb'.aligned hb'.mod (by omega) (by omega)]

/-- A block that lies apart from the others is seen apart from them. -/
theorem Owns.apart {b : Nat × Nat} (h : Owns live U) (hblocks : Blocks m' (b :: U) [])
    (hroom : n + 8 ≤ b.2) {c : BlockStore.Block} (hc : c ∈ view m live) :
    BlockStore.Block.Apart ⟨payload b, bytesAt m' (payload b) n⟩ c := by
  obtain ⟨l, hl, rfl⟩ := List.mem_map.mp hc
  obtain ⟨d, hd, hld, hroom'⟩ := h.exists_mem hl
  have hapart := (List.pairwise_cons.mp hblocks.pairwise).1 d hd
  have hpb : payload b = b.1 + 16 :=
    (hblocks.isBlock (p := b.1) (s := b.2) List.mem_cons_self).payload_eq
  have hpd : payload d = d.1 + 16 :=
    (hblocks.isBlock (p := d.1) (s := d.2) (List.mem_cons_of_mem _ hd)).payload_eq
  simp only [BlockStore.Block.Apart, length_bytesAt]
  omega

/-! ## The program beside the heap -/

/-- A heap, and the blocks that the program has: their addresses and the bytes asked for. -/
structure Program where
  heap : Heap
  live : List (Nat × Nat)

namespace Event

/-- What a collection frees, if the call starts one. -/
def garbage : Event → List Nat
  | malloc w _ | calloc w _ _ | realloc w _ _ | memalign w _ _ | posixMemalign w _ _ => w.garbage
  | _ => []

/-- The call starts a collection. -/
def collects (h : Heap) : Event → Bool
  | malloc _ bytes => h.collectsFor bytes
  | calloc _ nElements elemSize => h.collectsFor (Heap.callocRequest nElements elemSize)
  | realloc w oldmem bytes =>
    if oldmem = 0 then h.collectsFor bytes else h.reallocCollects w oldmem bytes
  | memalign _ alignment bytes => h.alignedCollects alignment bytes
  | posixMemalign _ alignment bytes => h.posixCollects alignment bytes
  | _ => false

/-- What the operation is to a store of blocks. -/
def op : Event → BlockStore.Op
  | malloc _ bytes | memalign _ _ bytes | posixMemalign _ _ bytes => .alloc bytes
  | calloc _ nElements elemSize => .clear (nElements * elemSize)
  | realloc _ oldmem bytes => if oldmem = 0 then .alloc bytes else .resize oldmem bytes
  | reallocInPlace _ oldmem bytes => .resize oldmem bytes
  | free _ mem => .free [mem]
  | bulkFree _ array => .free array
  | trim .. | setFootprintLimit _ => .free []
  | write a v => .set a (v % 256)

def abstract (e : Event) : BlockStore.Event := ⟨e.garbage, e.op⟩

/-- The blocks that the program has when the call has returned `r`. -/
def after (r : Nat) (live : List (Nat × Nat)) : Event → List (Nat × Nat)
  | malloc _ bytes | memalign _ _ bytes | posixMemalign _ _ bytes =>
    if r = 0 then live else (r, bytes) :: live
  | calloc _ nElements elemSize => if r = 0 then live else (r, nElements * elemSize) :: live
  | realloc _ oldmem bytes | reallocInPlace _ oldmem bytes =>
    if r = 0 then live else (r, bytes) :: without [oldmem] live
  | free _ mem => without [mem] live
  | bulkFree _ array => without array live
  | trim .. | setFootprintLimit _ | write .. => live

end Event

namespace Program

def step (p : Program) (e : Event) : Except Fault Program := do
  let (r, heap) ← p.heap.call e
  let live := if e.collects p.heap then without e.garbage p.live else p.live
  return ⟨heap, e.after r live⟩

/-- The blocks in use are those that the program has. -/
def Intact (p : Program) : Prop := ∃ U, Held p.heap.gm U ∧ Owns p.live U

def view (p : Program) : BlockStore.Store := Dlmalloc.view p.heap.gm p.live

/-- A collection frees blocks that the program has, each once. -/
def Garbage (p : Program) (as : List Nat) : Prop := as.Nodup ∧ as ⊆ p.live.map Prod.fst

/-- What the program may do. -/
def Legal (p : Program) : Event → Prop
  | .malloc w bytes => p.Garbage w.garbage ∧ Admits w p.heap bytes
  | .calloc w nElements elemSize => p.Garbage w.garbage ∧ nElements < 2 ^ 64 ∧
    Admits w p.heap (Heap.callocRequest nElements elemSize)
  | .realloc w oldmem bytes => p.Garbage w.garbage ∧ Admits w p.heap bytes ∧
    (oldmem = 0 ∨ oldmem ∈ p.live.map Prod.fst ∧ oldmem ∉ w.garbage)
  | .reallocInPlace _ oldmem _ => oldmem = 0 ∨ oldmem ∈ p.live.map Prod.fst
  | .memalign w alignment bytes => p.Garbage w.garbage ∧ alignment ≤ 2 ^ 63 ∧
    Admits w p.heap (alignedRequest alignment bytes)
  | .posixMemalign w alignment bytes => p.Garbage w.garbage ∧ alignment < 2 ^ 64 ∧
    Admits w p.heap (posixRequest alignment bytes)
  | .free _ mem => mem = 0 ∨ mem ∈ p.live.map Prod.fst
  | .bulkFree _ array => (array.filter (· ≠ 0)).Nodup ∧ ∀ a ∈ array, a ≠ 0 → a ∈ p.live.map Prod.fst
  | .trim .. | .setFootprintLimit _ => True
  | .write a _ => ∃ l ∈ p.live, l.1 ≤ a ∧ a < l.1 + l.2

end Program

/-! ## One event -/

namespace Program

variable {P Q : Program}

/-- The program as it is behind a collection, if there is one. -/
def behind (P : Program) (collected : Bool) (as : List Nat) : List (Nat × Nat) :=
  if collected then without as P.live else P.live

theorem view_behind (c : Bool) (as : List Nat) : ∃ as', (as' = [] ∨ as' = as) ∧
    Dlmalloc.view P.heap.gm (P.behind c as) = BlockStore.drop as' P.view := by
  cases c
  · exact ⟨[], .inl rfl, BlockStore.drop_nil.symm⟩
  · exact ⟨as, .inr rfl, view_without⟩

/-- The garbage of a collection among the blocks in use. -/
theorem Intact.split (h : P.Intact) (has : P.Garbage as) : ∃ G V, as = G.map payload ∧
    Held P.heap.gm (G ++ V) ∧
      ∀ c, ∃ W, Owns (P.behind c as) W ∧ (remaining c G V).Perm W := by
  obtain ⟨U, hU, hlive⟩ := h
  obtain ⟨G, V, rfl, hperm, hV⟩ := hlive.takeAll hU.nodup_payload has.1 has.2
  refine ⟨G, V, rfl, hU.perm hperm, fun c => ?_⟩
  cases c
  · exact ⟨U, hlive, hperm.symm⟩
  · exact ⟨V, hV, .rfl⟩

/-- A block has been obtained. -/
theorem obtained {b : Nat × Nat} (hlive : Owns live V) (hroom : n + 8 ≤ b.2)
    (hblocks : Blocks g'.gm (b :: V) []) (hkeep : Keeps g.gm g'.gm V) :
    Intact ⟨g', (payload b, n) :: live⟩ ∧
      (⟨g', (payload b, n) :: live⟩ : Program).view =
        ⟨payload b, bytesAt g'.gm (payload b) n⟩ :: Dlmalloc.view g.gm live ∧
      ∀ c ∈ Dlmalloc.view g.gm live,
        BlockStore.Block.Apart ⟨payload b, bytesAt g'.gm (payload b) n⟩ c := by
  refine ⟨⟨b :: V, .inl hblocks, .cons ⟨rfl, hroom⟩ hlive⟩, ?_, fun c hc => ?_⟩
  · have heq := hlive.view_eq (fun b hb => hblocks.isBlock (List.mem_cons_of_mem _ hb)) hkeep
    simp only [view, Dlmalloc.view, List.map_cons] at heq ⊢
    rw [heq]
  · exact hlive.apart hblocks hroom hc

/-- Nothing has been obtained. -/
theorem kept (hlive : Owns live V) (hheld : Held g'.gm V) (hkeep : Keeps g.gm g'.gm V) :
    Intact ⟨g', live⟩ ∧ (⟨g', live⟩ : Program).view = Dlmalloc.view g.gm live :=
  ⟨⟨V, hheld, hlive⟩, hlive.view_eq (fun _ hb => hheld.isBlock hb) hkeep⟩

/-- The results of the requests for a block. -/
theorem memaligns_step {alignment : Nat} (h : Memaligns g.gm V alignment n r)
    (hlive : Owns live V) :
    Intact ⟨r.2, if r.1 = 0 then live else (r.1, n) :: live⟩ ∧
      BlockStore.Step (Dlmalloc.view g.gm live) (.alloc n)
        (⟨r.2, if r.1 = 0 then live else (r.1, n) :: live⟩ : Program).view := by
  rcases h with ⟨h0, hheld, hkeep⟩ | ⟨b, hr, -, hn, hle, -, hblocks, hkeep⟩
  · obtain ⟨hi, hview⟩ := kept hlive hheld hkeep
    rw [if_pos h0, hview]
    exact ⟨hi, .null⟩
  · have hne : r.1 ≠ 0 := by
      rw [hr]
      exact (hblocks.isBlock (p := b.1) (s := b.2) List.mem_cons_self).payload_ne_zero
    obtain ⟨-, hroom, -⟩ := request2size_spec hn
    obtain ⟨hi, hview, hapart⟩ := obtained hlive (hroom.trans hle) hblocks hkeep
    rw [if_neg hne, hr, hview]
    exact ⟨hi, .alloc length_bytesAt hapart⟩

theorem callocs_step {e : Nat} (h : Callocs g.gm V (Heap.callocRequest n e) r)
    (hlive : Owns live V) (hn : n < 2 ^ 64) :
    Intact ⟨r.2, if r.1 = 0 then live else (r.1, n * e) :: live⟩ ∧
      BlockStore.Step (Dlmalloc.view g.gm live) (.clear (n * e))
        (⟨r.2, if r.1 = 0 then live else (r.1, n * e) :: live⟩ : Program).view := by
  obtain ⟨h, hclear⟩ := h
  rw [Heap.callocRequest_eq hn] at h hclear
  by_cases h0 : r.1 = 0
  · rcases h with ⟨-, hheld, hkeep⟩ | ⟨b, hr, -, -, hblocks, -⟩
    · obtain ⟨hi, hview⟩ := kept hlive hheld hkeep
      rw [if_pos h0, hview]
      exact ⟨hi, .clearNull⟩
    · exact absurd (hr.symm.trans h0)
        (hblocks.isBlock (p := b.1) (s := b.2) List.mem_cons_self).payload_ne_zero
  have hlt : n * e < 2 ^ 64 := by
    by_contra hge
    rw [if_neg hge, requestSize_large (by decide)] at h
    exact h0 h.null_of_large
  rw [if_pos hlt] at h hclear
  have h := h.memaligns (show 16 ≤ 16 from le_rfl)
  rcases h with ⟨hnull, -⟩ | ⟨b, hr, -, hn, hle, -, hblocks, hkeep⟩
  · exact absurd hnull h0
  obtain ⟨-, hroom, -⟩ := request2size_spec hn
  obtain ⟨hi, hview, hapart⟩ := obtained hlive (hroom.trans hle) hblocks hkeep
  rw [if_neg h0, hr, hview]
  refine ⟨hi, .clear ?_ hapart⟩
  refine List.eq_replicate_iff.mpr ⟨length_bytesAt, fun v hv => ?_⟩
  obtain ⟨i, hi, rfl⟩ := List.mem_map.mp hv
  rw [← hr]
  exact hclear h0 i (List.mem_range.mp hi)

theorem room_of_requestSize (hb : IsBlock m p s) (hle : requestSize n ≤ s) : n + 8 ≤ s := by
  have hbound := hb.bound
  rcases Nat.lt_or_ge n maxRequest with hn | hn
  · rw [requestSize_eq hn] at hle
    exact (request2size_spec hn).2.1.trans hle
  · rw [requestSize_large hn, maxSizeT] at hle
    omega

theorem take_bytesAt {k : Nat} : (bytesAt m a n).take k = bytesAt m a (min k n) := by
  rw [bytesAt, ← List.map_take, List.take_range, bytesAt]

/-- The results of the requests for another size. -/
theorem reallocs_step (h : Reallocs g.gm p s n V r) (hlive : Owns live U)
    (hU : U.Perm ((p, s) :: V)) (hnodup : (U.map payload).Nodup) :
    Intact ⟨r.2, if r.1 = 0 then live else (r.1, n) :: without [payload (p, s)] live⟩ ∧
      BlockStore.Step (Dlmalloc.view g.gm live) (.resize (payload (p, s)) n) (⟨r.2,
        if r.1 = 0 then live else (r.1, n) :: without [payload (p, s)] live⟩ : Program).view := by
  rcases h with ⟨h0, hblocks, hkeep⟩ | ⟨b, hr, hle, -, hblocks, hkeep, hbytes⟩
  · obtain ⟨hi, hview⟩ := kept hlive (.inl (hblocks.perm hU.symm)) (hkeep.mono hU.subset)
    rw [if_pos h0, hview]
    exact ⟨hi, .resizeNull⟩
  have hb := hblocks.isBlock (p := b.1) (s := b.2) List.mem_cons_self
  have hne : r.1 ≠ 0 := hr ▸ hb.payload_ne_zero
  obtain ⟨V', hlive', hV⟩ := hlive.take_perm hnodup hU
  obtain ⟨hi, hview, hapart⟩ := obtained hlive' (room_of_requestSize hb hle)
    (hblocks.perm (hV.cons b)) (hkeep.mono hV.symm.subset)
  rw [if_neg hne, hr, hview]
  refine ⟨hi, ?_⟩
  obtain ⟨l, hl, hlb, hroom⟩ : ∃ l ∈ live, l.1 = payload (p, s) ∧ l.2 + 8 ≤ s := by
    have hmem : payload (p, s) ∈ live.map Prod.fst := by
      rw [hlive.map_eq]
      exact List.mem_map_of_mem (hU.mem_iff.mpr List.mem_cons_self)
    obtain ⟨l, hl, hlb⟩ := List.mem_map.mp hmem
    obtain ⟨c, hc, hlc, hroom⟩ := hlive.exists_mem hl
    obtain rfl : c = (p, s) := List.inj_on_of_nodup_map hnodup hc
      (hU.mem_iff.mpr List.mem_cons_self) (hlc.symm.trans hlb)
    exact ⟨l, hl, hlb, hroom⟩
  rw [view_without] at hapart ⊢
  have hold : (⟨l.1, bytesAt g.gm l.1 l.2⟩ : BlockStore.Block) ∈ Dlmalloc.view g.gm live :=
    List.mem_map_of_mem hl
  refine .resize hold hlb length_bytesAt ?_ hapart
  rw [length_bytesAt, take_bytesAt, take_bytesAt, hlb, Nat.min_comm]
  refine List.map_congr_left fun i hi => hbytes i ?_
  have := List.mem_range.mp hi
  omega

/-- The event returns, and it is a step of the store of blocks. -/
def Steps (P : Program) (e : Event) : Prop :=
  ∃ Q, P.step e = .ok Q ∧ Q.Intact ∧ e.abstract.Step P.view Q.view

/-- An event whose call returns. -/
theorem steps_of_call {e : Event} (hcall : P.heap.call e = .ok r)
    (hi : Intact ⟨r.2, e.after r.1 (P.behind (e.collects P.heap) e.garbage)⟩)
    (hstep : BlockStore.Step (Dlmalloc.view P.heap.gm (P.behind (e.collects P.heap) e.garbage)) e.op
      (⟨r.2, e.after r.1 (P.behind (e.collects P.heap) e.garbage)⟩ : Program).view) :
    P.Steps e := by
  refine ⟨⟨r.2, e.after r.1 (P.behind (e.collects P.heap) e.garbage)⟩, ?_, hi, ?_⟩
  · rw [step, hcall]
    rfl
  · obtain ⟨as', has', hview⟩ := P.view_behind (e.collects P.heap) e.garbage
    exact ⟨as', has', hview ▸ hstep⟩

theorem malloc_steps (h : P.Intact) (hl : P.Legal (.malloc w bytes)) :
    P.Steps (.malloc w bytes) := by
  obtain ⟨hgarbage, hadmits⟩ := hl
  obtain ⟨G, V, hG, hheld, hlive⟩ := h.split hgarbage
  obtain ⟨r, hr, hm⟩ := hheld.dlmalloc_spec 0 hG hadmits
  obtain ⟨W, hW, hperm⟩ := hlive (P.heap.collectsFor bytes)
  obtain ⟨hi, hstep⟩ := memaligns_step ((hm.perm hperm).memaligns (show 16 ≤ 16 from le_rfl)) hW
  exact steps_of_call hr hi hstep

theorem calloc_steps {e : Nat} (h : P.Intact) (hl : P.Legal (.calloc w n e)) :
    P.Steps (.calloc w n e) := by
  obtain ⟨hgarbage, hn, hadmits⟩ := hl
  obtain ⟨G, V, hG, hheld, hlive⟩ := h.split hgarbage
  obtain ⟨r, hr, hm, hclear⟩ := hheld.dlcalloc_spec 0 hG hadmits
  obtain ⟨W, hW, hperm⟩ := hlive (P.heap.collectsFor (Heap.callocRequest n e))
  obtain ⟨hi, hstep⟩ := callocs_step ⟨hm.perm hperm, hclear⟩ hW hn
  exact steps_of_call hr hi hstep

theorem memalign_steps {alignment : Nat} (h : P.Intact)
    (hl : P.Legal (.memalign w alignment bytes)) :
    P.Steps (.memalign w alignment bytes) := by
  obtain ⟨hgarbage, halign, hadmits⟩ := hl
  obtain ⟨G, V, hG, hheld, hlive⟩ := h.split hgarbage
  obtain ⟨r, hr, hm⟩ := hheld.dlmemalign_spec 0 hG halign hadmits
  obtain ⟨W, hW, hperm⟩ := hlive (P.heap.alignedCollects alignment bytes)
  obtain ⟨hi, hstep⟩ := memaligns_step (hm.perm hperm) hW
  exact steps_of_call hr hi hstep

theorem posixMemalign_steps {alignment : Nat} (h : P.Intact)
    (hl : P.Legal (.posixMemalign w alignment bytes)) :
    P.Steps (.posixMemalign w alignment bytes) := by
  obtain ⟨hgarbage, halign, hadmits⟩ := hl
  obtain ⟨G, V, hG, hheld, hlive⟩ := h.split hgarbage
  obtain ⟨⟨err, out, g⟩, hr, -, -, hm⟩ :=
    hheld.dlposixMemalign_spec 0 hG halign hadmits
  obtain ⟨W, hW, hperm⟩ := hlive (P.heap.posixCollects alignment bytes)
  obtain ⟨hi, hstep⟩ := memaligns_step (hm.perm hperm) hW
  refine steps_of_call (r := (out.getD 0, g)) ?_ hi hstep
  rw [Heap.call, hr]
  rfl

theorem realloc_steps {oldmem : Nat} (h : P.Intact) (hl : P.Legal (.realloc w oldmem bytes)) :
    P.Steps (.realloc w oldmem bytes) := by
  obtain ⟨hgarbage, hadmits, hold⟩ := hl
  obtain ⟨G, V, hG, hheld, hlive⟩ := h.split hgarbage
  have hpos : ∀ c, ∀ b ∈ remaining c G V, payload b ≠ 0 := fun c b hb => by
    refine (hheld.isBlock (b := b) ?_).payload_ne_zero
    cases c
    · exact hb
    · exact List.mem_append_right G hb
  have hdup : ∀ c, ((remaining c G V).map payload).Nodup := fun c => by
    refine List.Sublist.nodup ?_ hheld.nodup_payload
    cases c
    · exact .refl _
    · exact (List.sublist_append_right G V).map payload
  rcases Nat.eq_zero_or_pos oldmem with rfl | h0
  · obtain ⟨r, hr, hm⟩ := hheld.dlmalloc_spec 0 hG hadmits
    obtain ⟨W, hW, hperm⟩ := hlive (P.heap.collectsFor bytes)
    have hm := (hm.perm hperm).memaligns (show 16 ≤ 16 from le_rfl)
    obtain ⟨hi, hstep⟩ := memaligns_step hm hW
    have hzero := hW.without_zero fun b hb => hpos _ b (hperm.mem_iff.mpr hb)
    have hafter : Event.after r.1 (P.behind (P.heap.collectsFor bytes) w.garbage)
        (.realloc w 0 bytes) = if r.1 = 0 then P.behind (P.heap.collectsFor bytes) w.garbage
          else (r.1, bytes) :: P.behind (P.heap.collectsFor bytes) w.garbage := by
      rw [Event.after, hzero]
    rw [← hafter] at hi hstep
    have hcall : P.heap.call (.realloc w 0 bytes) = .ok r := by
      rw [Heap.call, Heap.dlrealloc, if_pos rfl]
      exact hr
    exact steps_of_call hcall hi hstep
  · obtain ⟨hmem, hnot⟩ := hold.resolve_left h0.ne'
    obtain ⟨W₁, hW₁, hperm₁⟩ := hlive true
    have hmem₁ : oldmem ∈ (P.behind true w.garbage).map Prod.fst := by
      obtain ⟨l, hl, rfl⟩ := List.mem_map.mp hmem
      exact List.mem_map_of_mem (List.mem_filter.mpr ⟨hl, by simpa using hnot⟩)
    rw [hW₁.map_eq] at hmem₁
    obtain ⟨⟨p, s⟩, hb, rfl⟩ := List.mem_map.mp hmem₁
    obtain ⟨V', hV'⟩ : ∃ V', V.Perm ((p, s) :: V') :=
      ⟨_, List.perm_cons_erase (hperm₁.mem_iff.mpr hb)⟩
    have hblocks : Blocks P.heap.gm (G ++ (p, s) :: V') [] :=
      ((hheld.perm (hV'.append_left G)).blocks List.perm_middle).perm List.perm_middle.symm
    obtain ⟨r, hr, hres⟩ := Heap.dlrealloc_spec 0 hblocks hG hadmits
    have hcollects : Event.collects P.heap (.realloc w (payload (p, s)) bytes) =
        P.heap.reallocCollects w (payload (p, s)) bytes := if_neg h0.ne'
    have hop : (Event.realloc w (payload (p, s)) bytes).op = .resize (payload (p, s)) bytes :=
      if_neg h0.ne'
    rw [← hcollects] at hres
    obtain ⟨W, hW, hperm⟩ := hlive (Event.collects P.heap (.realloc w (payload (p, s)) bytes))
    have hW' : W.Perm ((p, s) :: remaining
        (Event.collects P.heap (.realloc w (payload (p, s)) bytes)) G V') := by
      refine hperm.symm.trans ?_
      unfold remaining
      split
      · exact hV'
      · exact (hV'.append_left G).trans List.perm_middle
    obtain ⟨hi, hstep⟩ := reallocs_step hres hW hW' ((hperm.map payload).nodup_iff.mp (hdup _))
    rw [← hop] at hstep
    exact steps_of_call hr hi hstep

/-- Blocks have been freed. -/
theorem freed (as : List Nat) (hlive : Owns (without as P.live) V) (hheld : Held g'.gm V)
    (hkeep : Keeps P.heap.gm g'.gm V) :
    Intact ⟨g', without as P.live⟩ ∧
      BlockStore.Step P.view (.free as) (⟨g', without as P.live⟩ : Program).view := by
  obtain ⟨hi, hview⟩ := kept hlive hheld hkeep
  rw [hview, view_without]
  exact ⟨hi, .free⟩

theorem free_steps (h : P.Intact) (hl : P.Legal (.free w a)) : P.Steps (.free w a) := by
  obtain ⟨U, hU, hlive⟩ := h
  rcases hl with rfl | hmem
  · have hzero := hlive.without_zero fun b hb => (hU.isBlock hb).payload_ne_zero
    have hkeep : Keeps P.heap.gm P.heap.gm U := .of_mem rfl
    obtain ⟨hi, hstep⟩ := freed [0] (hzero.symm ▸ hlive) hU hkeep
    exact steps_of_call (r := (0, P.heap)) rfl hi hstep
  · obtain ⟨b, V, rfl, hperm, hV⟩ := hlive.take hU.nodup_payload hmem
    obtain ⟨g', hfree, hblocks, hkeep⟩ := Heap.dlfree_spec (hU.blocks hperm) w.munmap
    obtain ⟨hi, hstep⟩ := freed _ hV (.inl hblocks) hkeep
    refine steps_of_call (r := (0, g')) ?_ hi hstep
    rw [Heap.call, hfree]
    rfl

theorem bulkFree_steps (h : P.Intact) (hl : P.Legal (.bulkFree w array)) :
    P.Steps (.bulkFree w array) := by
  obtain ⟨U, hU, hlive⟩ := h
  obtain ⟨hdup, hsub⟩ := hl
  obtain ⟨G, V, hG, hperm, hV⟩ := hlive.takeAll hU.nodup_payload hdup fun a ha => by
    obtain ⟨ha, hne⟩ := List.mem_filter.mp ha
    exact hsub a ha (by simpa using hne)
  have hzero := hlive.zero_not_mem fun b hb => (hU.isBlock hb).payload_ne_zero
  have hsame : without (array.filter (· ≠ 0)) P.live = without array P.live := by
    refine List.filter_congr fun l hl => ?_
    have hne : l.1 ≠ 0 := fun h0 => hzero (h0 ▸ List.mem_map_of_mem hl)
    simp [hne]
  rw [hsame] at hV
  obtain ⟨g', hfree, hheld, hkeep⟩ := Heap.internalBulkFree_spec (hU.perm hperm)
    (.of_eq hG) w
  obtain ⟨hi, hstep⟩ := freed _ hV hheld hkeep
  refine steps_of_call (r := (0, g')) ?_ hi hstep
  rw [Heap.call, hfree]
  rfl

/-- The heap has changed, but for the blocks. -/
theorem tidied {e : Event} (h : P.Intact) (hcall : P.heap.call e = .ok (0, g'))
    (hg : ∀ U, Held P.heap.gm U → Held g'.gm U ∧ Keeps P.heap.gm g'.gm U)
    (hcollects : e.collects P.heap = false) (hafter : e.after 0 P.live = P.live)
    (hop : e.op = .free []) : P.Steps e := by
  obtain ⟨U, hU, hlive⟩ := h
  obtain ⟨hheld, hkeep⟩ := hg U hU
  obtain ⟨hi, hview⟩ := kept hlive hheld hkeep
  have hbehind : P.behind (e.collects P.heap) e.garbage = P.live := by
    rw [hcollects]
    rfl
  refine steps_of_call hcall ?_ ?_
  · rw [hbehind, hafter]
    exact hi
  · rw [hbehind, hafter, hop, hview]
    have hfree : BlockStore.Step (Dlmalloc.view P.heap.gm P.live) (.free [])
        (BlockStore.drop [] (Dlmalloc.view P.heap.gm P.live)) := .free
    rwa [BlockStore.drop_nil] at hfree

theorem reallocInPlace_steps {oldmem : Nat} (h : P.Intact)
    (hl : P.Legal (.reallocInPlace w oldmem bytes)) : P.Steps (.reallocInPlace w oldmem bytes) := by
  obtain ⟨U, hU, hlive⟩ := h
  have hnull : P.heap.call (.reallocInPlace w oldmem bytes) = .ok (0, P.heap) →
      P.Steps (.reallocInPlace w oldmem bytes) := fun hcall => by
    obtain ⟨hi, hview⟩ := kept (g := P.heap) hlive hU (.of_mem rfl)
    exact steps_of_call hcall hi (hview.symm ▸ .resizeNull)
  rcases hl with rfl | hmem
  · exact hnull rfl
  obtain ⟨⟨p, s⟩, V, rfl, hperm, -⟩ := hlive.take hU.nodup_payload hmem
  obtain ⟨r, hr, ⟨h0, hsame⟩ | ⟨-, hres⟩⟩ :=
    Heap.dlreallocInPlace_spec (hU.blocks hperm) w bytes
  · exact hnull (hr.trans (congrArg Except.ok (Prod.ext h0 hsame)))
  · obtain ⟨hi, hstep⟩ := reallocs_step hres hlive hperm hU.nodup_payload
    exact steps_of_call hr hi hstep

theorem trim_steps {shrink : Nat → Nat → Bool} {pad : Nat} (h : P.Intact) :
    P.Steps (.trim w shrink pad) := by
  have hcall : P.heap.call (.trim w shrink pad) =
    .ok (0, { P.heap with gm := (sysTrim shrink w.munmap P.heap.gm pad).1 }) := rfl
  refine tidied h hcall (fun U hU => ?_) rfl rfl rfl
  rcases hU with hblocks | ⟨hm, rfl⟩
  · obtain ⟨hblocks', hkeep⟩ := hblocks.sysTrim shrink w.munmap pad
    exact ⟨.inl hblocks', hkeep⟩
  · have hsame : (sysTrim shrink w.munmap P.heap.gm pad).1 = P.heap.gm := by
      simp [sysTrim, hm.isInitialized]
    rw [hsame]
    exact ⟨.inr ⟨hm, rfl⟩, .of_mem rfl⟩

theorem setFootprintLimit_steps (h : P.Intact) : P.Steps (.setFootprintLimit bytes) := by
  have hcall : P.heap.call (.setFootprintLimit bytes) =
    .ok (0, { P.heap with gm := Dlmalloc.setFootprintLimit P.heap.gm bytes }) := rfl
  refine tidied h hcall (fun U hU => ⟨?_, .of_mem rfl⟩) rfl rfl rfl
  rcases hU with ⟨S, hS, hU⟩ | ⟨hm, rfl⟩
  · exact .inl ⟨S, hS.retrim, hU⟩
  · exact .inr ⟨{ hm with }, rfl⟩

theorem write_steps (h : P.Intact) (hl : P.Legal (.write a v)) : P.Steps (.write a v) := by
  obtain ⟨U, hU, hlive⟩ := h
  obtain ⟨l, hl, hle, hlt⟩ := hl
  obtain ⟨⟨p, s⟩, hb, hlb, hroom⟩ := hlive.exists_mem hl
  have hperm := List.perm_cons_erase hb
  have hblocks := hU.blocks hperm
  have hp := hblocks.isBlock List.mem_cons_self
  have hpay := hp.payload_eq
  dsimp only at hroom
  obtain ⟨hblocks', -⟩ := hblocks.write
    (setByte_writesIn (a := a) (v := v) hp.aligned hp.mod (by omega) (by omega))
  have hi : Intact ⟨{ P.heap with gm := P.heap.gm.setByte a v }, P.live⟩ :=
    ⟨U, .inl (hblocks'.perm hperm.symm), hlive⟩
  have hstep := BlockStore.Step.set (σ := Dlmalloc.view P.heap.gm P.live) (x := a) (v := v % 256)
  rw [← view_setByte] at hstep
  exact steps_of_call (r := (0, { P.heap with gm := P.heap.gm.setByte a v })) rfl hi hstep

/-! ## Runs -/

theorem Intact.steps {e : Event} (h : P.Intact) (hl : P.Legal e) : P.Steps e := by
  cases e with
  | malloc => exact malloc_steps h hl
  | calloc => exact calloc_steps h hl
  | realloc => exact realloc_steps h hl
  | reallocInPlace => exact reallocInPlace_steps h hl
  | memalign => exact memalign_steps h hl
  | posixMemalign => exact posixMemalign_steps h hl
  | free => exact free_steps h hl
  | bulkFree => exact bulkFree_steps h hl
  | trim => exact trim_steps h
  | setFootprintLimit => exact setFootprintLimit_steps h
  | write => exact write_steps h hl

/-- A program that does what it may is served, and it sees a store of blocks. -/
theorem Intact.run {es : List Event} (h : P.Intact) (hrun : Runs.Along step Legal P es) :
    ∃ Q, es.foldlM step P = .ok Q ∧ Q.Intact ∧
      BlockStore.Run P.view (es.map Event.abstract) Q.view := by
  induction es generalizing P with
  | nil => exact ⟨P, rfl, h, .nil⟩
  | cons e es ih =>
    obtain ⟨R, hR, hi, hstep⟩ := h.steps hrun.1
    obtain ⟨Q, hQ, hi', hsteps⟩ := ih hi (hrun.2 R hR)
    exact ⟨Q, Runs.foldlM_cons_eq_ok.mpr ⟨R, hR, hQ⟩, hi', .cons hstep hsteps⟩

/-- Nothing has been allocated. -/
theorem intact_start (h : Pristine g.gm) : Intact ⟨g, []⟩ := ⟨[], .inr ⟨h, rfl⟩, .nil⟩

end Program

end PrecisionGc.Dlmalloc
