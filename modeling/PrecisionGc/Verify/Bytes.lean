import PrecisionGc.Verify.Accounting
import PrecisionGc.Verify.Resizing
import PrecisionGc.Library.WordStore

/-!
# What is in the blocks

The bytes of a block are its own: what is written into one is seen in no other, and it does not
concern the tags. `dlcalloc` clears what it hands out, and `dlrealloc` keeps what was in the block,
wherever that is put.
-/

namespace PrecisionGc.Dlmalloc
open Regions BoundaryTags

variable {m m' : MState} {U G : List (Nat × Nat)} {x : Hole} {p s a n v b nb bytes fuel : Nat}
  {mem : Nat → Nat} {munmap : Nat → Nat → Bool} {g g' : Heap} {w : World}

theorem byte_eq : m.byte a = WordStore.byte m.mem a := rfl

theorem setByte_eq : m.setByte a v = { m with mem := WordStore.setByte m.mem a v } := rfl

/-! ## Writing into a block -/

/-- Nothing is written but behind the tag of the chunk `p` of `s` bytes and in front of the next. -/
def WritesIn (m : MState) (p s : Nat) (mem : Nat → Nat) : Prop :=
  ∀ w, w ≤ p + 8 ∨ p + s < w → mem w = m.mem w

theorem Tiled.write (h : Tiled m (x.fill [⟨p, s, .inuse⟩]) []) (hw : WritesIn m p s mem) :
    Tiled { m with mem } (x.fill [⟨p, s, .inuse⟩]) [] ∧
      Keeps m { m with mem } (ofKind .inuse x.others) := by
  obtain ⟨hbit, -⟩ := h.next_bits
  obtain ⟨rfl, -, hmod, hfits, htag⟩ := h.hole_chunk
  simp only [Kind.fits, minChunkSize] at hfits
  refine h.splice [⟨x.start, s, .inuse⟩] (fun w hw' => hw w ?_) (by simp) ?_ rfl ?_ (.inl rfl)
  · simp only [stop_cons, stop_nil, Chunk.stop] at hw'
    omega
  · exact ⟨rfl, .inr rfl, ⟨hmod, hfits⟩, (hw _ (.inl le_rfl)).trans htag, by simp [tagging],
      trivial⟩
  · simp only [stop_cons, stop_nil, Chunk.stop, lastUsed_cons, lastUsed_nil, tagging_used,
      Kind.used, if_true] at hbit ⊢
    rw [hw _ (.inr (by omega))]
    omega

theorem Blocks.write (h : Blocks m ((p, s) :: U) []) (hw : WritesIn m p s mem) :
    Blocks { m with mem } ((p, s) :: U) [] ∧ Keeps m { m with mem } U := by
  obtain ⟨x, hx, hU⟩ := h.hole
  obtain ⟨hm, hkeep⟩ := hx.write hw
  exact ⟨hm.blocks.perm (hU.cons _), hkeep.mono hU.symm.subset⟩

/-- Words that are kept have their bytes kept. -/
theorem Keeps.byte (h : Keeps m m' U) (hb : (p, s) ∈ U) (hp : p % 16 = 0) (hs : s % 16 = 0)
    (hle : p + 16 ≤ a) (hlt : a < p + s + 8) : m'.byte a = m.byte a :=
  WordStore.byte_congr (h (p, s) hb _ (by dsimp only; omega) (by dsimp only; omega))

/-- `memset` and `memcpy` write words of their target only. -/
theorem setByte_writesIn (hp : p % 16 = 0) (hs : s % 16 = 0) (hle : p + 16 ≤ a)
    (hlt : a < p + s + 8) : WritesIn m p s (WordStore.setByte m.mem a v) :=
  fun _ hw => WordStore.setByte_of_ne (by omega)

theorem clear_spec (hp : p % 16 = 0) (hs : s % 16 = 0) (hle : p + 16 ≤ a)
    (hn : a + n ≤ p + s + 8) : ∃ mem, m.clear a n = { m with mem } ∧ WritesIn m p s mem ∧
      ∀ b, WordStore.byte mem b = if a ≤ b ∧ b < a + n then 0 else m.byte b := by
  induction n with
  | zero => exact ⟨m.mem, rfl, fun _ _ => rfl, fun b => (if_neg (by omega)).symm⟩
  | succ n ih =>
    obtain ⟨mem, heq, hw, hbyte⟩ := ih (by omega)
    refine ⟨WordStore.setByte mem (a + n) 0, by rw [MState.clear, heq, setByte_eq],
      fun w hw' => ?_, fun b => ?_⟩
    · exact (setByte_writesIn (m := { m with mem }) hp hs (by omega) (by omega) w hw').trans
        (hw w hw')
    · rcases eq_or_ne b (a + n) with rfl | hne
      · rw [WordStore.byte_setByte_self, if_pos (by omega)]
      · rw [WordStore.byte_setByte_of_ne hne, hbyte]
        exact if_congr (by omega) rfl rfl

theorem copy_spec (hp : p % 16 = 0) (hs : s % 16 = 0) (hle : p + 16 ≤ a)
    (hn : a + n ≤ p + s + 8) (hsrc : b + n ≤ a ∨ a + n ≤ b) :
    ∃ mem, m.copy a b n = { m with mem } ∧ WritesIn m p s mem ∧
      ∀ c, WordStore.byte mem c =
        if a ≤ c ∧ c < a + n then m.byte (b + (c - a)) else m.byte c := by
  induction n with
  | zero => exact ⟨m.mem, rfl, fun _ _ => rfl, fun c => (if_neg (by omega)).symm⟩
  | succ n ih =>
    obtain ⟨mem, heq, hw, hbyte⟩ := ih (by omega) (by omega)
    -- the byte that is read has not been written
    have hread : WordStore.byte mem (b + n) = m.byte (b + n) :=
      (hbyte _).trans (if_neg (by omega))
    refine ⟨WordStore.setByte mem (a + n) (m.byte (b + n)), ?_, fun w hw' => ?_, fun c => ?_⟩
    · rw [MState.copy, heq, setByte_eq, byte_eq, hread]
    · exact (setByte_writesIn (m := { m with mem }) hp hs (by omega) (by omega) w hw').trans
        (hw w hw')
    · rcases eq_or_ne c (a + n) with rfl | hne
      · rw [WordStore.byte_setByte_self, if_pos (by omega), Nat.add_sub_cancel_left]
        exact WordStore.byte_mod
      · rw [WordStore.byte_setByte_of_ne hne, hbyte]
        exact if_congr (by omega) rfl rfl

/-! ## `dlcalloc` -/

theorem Heap.callocRequest_eq {n e : Nat} (hn : n < 2 ^ 64) :
    Heap.callocRequest n e = if n * e < 2 ^ 64 then n * e else maxSizeT := by
  unfold Heap.callocRequest
  split
  case isTrue h0 => simp [h0]
  case isFalse h0 =>
  dsimp only
  rcases Nat.lt_or_ge (n * e) (2 ^ 64) with hlt | hge
  · rw [Nat.mod_eq_of_lt hlt, Nat.mul_div_cancel_left e (by omega), if_pos hlt]
    simp
  · have hdiv : n * e % 2 ^ 64 / n ≠ e := fun heq => by
      have := Nat.div_mul_le_self (n * e % 2 ^ 64) n
      rw [heq, Nat.mul_comm] at this
      have := Nat.mod_lt (n * e) (by decide : 0 < 2 ^ 64)
      omega
    have hor : (n ||| e) / 2 ^ 16 ≠ 0 := fun h => by
      have hlt : n ||| e < 2 ^ 16 := by omega
      have hn' : n < 2 ^ 16 := lt_of_le_of_lt Nat.left_le_or hlt
      have he' : e < 2 ^ 16 := lt_of_le_of_lt Nat.right_le_or hlt
      have := Nat.mul_lt_mul'' hn' he'
      omega
    have htest : ((n ||| e) / 2 ^ 16 != 0 && n * e % 2 ^ 64 / n != e) = true := by
      rw [Bool.and_eq_true, bne_iff_ne, bne_iff_ne]
      exact ⟨hor, hdiv⟩
    rw [if_pos htest, if_neg (by omega)]

theorem Mallocs.null_of_large {r : Nat × Heap} (h : Mallocs m U maxSizeT r) : r.1 = 0 := by
  rcases h with ⟨h0, -⟩ | ⟨b, -, hle, -, hblocks, -⟩
  · exact h0
  · have := (hblocks.isBlock (p := b.1) (s := b.2) List.mem_cons_self).bound
    simp only [maxSizeT] at hle
    omega

/-- The result of a request for cleared memory. -/
def Callocs (m : MState) (U : List (Nat × Nat)) (n : Nat) (r : Nat × Heap) : Prop :=
  Mallocs m U (requestSize n) r ∧ (r.1 ≠ 0 → ∀ i < n, r.2.gm.byte (r.1 + i) = 0)

/-- Clearing the block that was obtained. -/
theorem Mallocs.clear {r : Nat × Heap} (h : Mallocs m U (requestSize n) r) : ∃ r',
    (if r.1 != 0 && !r.2.gm.isMmapped (mem2chunk r.1) then
        return (r.1, { r.2 with gm := r.2.gm.clear r.1 n })
      else return (r.1, r.2) : Except Fault (Nat × Heap)) = .ok r' ∧ Callocs m U n r' := by
  obtain ⟨a, g⟩ := r
  have hnull : a = 0 → ∃ r', (if a != 0 && !g.gm.isMmapped (mem2chunk a) then
      return (a, { g with gm := g.gm.clear a n })
    else return (a, g) : Except Fault (Nat × Heap)) = .ok r' ∧ Callocs m U n r' := by
    rintro rfl
    exact ⟨(0, g), rfl, h, fun hne => absurd rfl hne⟩
  rcases Nat.lt_or_ge n maxRequest with hn | hn
  case inr =>
    rw [requestSize_large hn] at h
    exact hnull h.null_of_large
  rcases h with ⟨h0, -⟩ | ⟨⟨p, s⟩, hr, hle, hlt, hblocks, hkeep⟩
  · exact hnull h0
  have hb := hblocks.isBlock List.mem_cons_self
  have hsize := (request2size_spec hn).2.1
  rw [← requestSize_eq hn] at hsize
  dsimp only at hle
  obtain rfl : a = payload (p, s) := hr
  obtain ⟨mem, heq, hw, hbyte⟩ := clear_spec (m := g.gm) (a := p + 16) (n := n) hb.aligned
    hb.mod le_rfl (by omega)
  obtain ⟨hblocks', hkeep'⟩ := hblocks.write hw
  refine ⟨(payload (p, s), { g with gm := { g.gm with mem } }), ?_, .inr ⟨(p, s), rfl, hle, hlt,
    hblocks', hkeep.trans hkeep'⟩, fun _ i hi => ?_⟩
  · have htest : (payload (p, s) != 0 && !g.gm.isMmapped (mem2chunk (payload (p, s)))) = true := by
      rw [hb.mem2chunk, hb.not_isMmapped]
      simp [hb.payload_ne_zero]
    rw [if_pos htest, hb.payload_eq, heq]
    rfl
  · dsimp only
    rw [hb.payload_eq]
    exact (hbyte _).trans (if_pos (by omega))

/-- What `dlcalloc` hands out is clear. -/
theorem Held.dlcalloc_spec {n e : Nat} (fuel : Nat) (h : Held g.gm (G ++ U))
    (hgarbage : w.garbage = G.map payload) (hadmits : Admits w g (Heap.callocRequest n e)) :
    ∃ r, Heap.dlcalloc w (fuel + 2) n e g = .ok r ∧
      Callocs g.gm (remaining (g.collectsFor (Heap.callocRequest n e)) G U)
        (Heap.callocRequest n e) r := by
  obtain ⟨r, hr, hm⟩ := h.dlmalloc_spec fuel hgarbage hadmits
  obtain ⟨r', hr', hc⟩ := hm.clear
  exact ⟨r', by rw [Heap.dlcalloc, hr]; exact hr', hc⟩

/-! ## `dlrealloc` -/

/-- Blocks do not overlap. -/
theorem Blocks.pairwise {X : List (Nat × Nat)} (h : Blocks m U X) :
    U.Pairwise fun b c => b.1 + b.2 ≤ c.1 ∨ c.1 + c.2 ≤ b.1 := by
  obtain ⟨S, hS, hU⟩ := h
  refine (hU.pairwise_iff fun h => h.symm).mp ?_
  rw [ofKind, List.pairwise_map]
  exact (hS.apart.sublist List.filter_sublist).imp id

/-- The result of a request to resize the block of `s` bytes at `p`: NULL, and the block is still
there, or a block that is large enough, with the bytes of the old one. -/
def Reallocs (m : MState) (p s bytes : Nat) (U : List (Nat × Nat)) (r : Nat × Heap) : Prop :=
  r.1 = 0 ∧ Blocks r.2.gm ((p, s) :: U) [] ∧ Keeps m r.2.gm ((p, s) :: U) ∨
    ∃ b : Nat × Nat, r.1 = payload b ∧ requestSize bytes ≤ b.2 ∧
      b.2 < requestSize bytes + minChunkSize ∧ Blocks r.2.gm (b :: U) [] ∧ Keeps m r.2.gm U ∧
      ∀ i < min (s - 8) bytes, r.2.gm.byte (payload b + i) = m.byte (payload (p, s) + i)

/-- The block is moved into the one that was obtained. -/
theorem Heap.moveTo_spec {b : Nat × Nat} (bytes : Nat) (hblocks : Blocks g.gm (b :: (p, s) :: U) [])
    (hkeep : Keeps m g.gm ((p, s) :: U)) (hle : bytes + 8 ≤ b.2) (w : World) :
    ∃ g', g.moveTo w (payload (p, s)) bytes (payload b) = .ok g' ∧ Blocks g'.gm (b :: U) [] ∧
      Keeps m g'.gm U ∧
      ∀ i < min (s - 8) bytes, g'.gm.byte (payload b + i) = m.byte (payload (p, s) + i) := by
  have hb := hblocks.isBlock (p := b.1) (s := b.2) List.mem_cons_self
  have hp := hblocks.isBlock (p := p) (s := s) (by simp)
  have hapart := (List.pairwise_cons.mp hblocks.pairwise).1 (p, s) List.mem_cons_self
  have hmin := hp.min
  have hbound := hp.bound
  simp only [minChunkSize] at hmin hapart
  have hbp : payload b = b.1 + 16 := hb.payload_eq
  have hoc : subSize (g.gm.chunksize p) (overheadFor g.gm p) = s - 8 := by
    have hnot : ¬g.gm.head p &&& 3 = 0 := by
      simpa [MState.isMmapped] using hp.not_isMmapped
    rw [hp.chunksize, overheadFor, if_neg hnot, subSize_eq (by omega) (by omega)]
  obtain ⟨mem, heq, hw, hbyte⟩ := copy_spec (m := g.gm) (a := b.1 + 16) (b := p + 16)
    (n := min (s - 8) bytes) hb.aligned hb.mod le_rfl (by omega) (by omega)
  obtain ⟨hblocks', hkeep'⟩ := hblocks.write hw
  obtain ⟨g', hfree, hblocks'', hkeep''⟩ := Heap.dlfree_spec
    (g := { g with gm := { g.gm with mem } }) (hblocks'.perm (.swap ..)) w.munmap
  have hold : Keeps m g'.gm U := ((hkeep.trans hkeep').mono (List.subset_cons_self ..)).trans
    (hkeep''.mono (List.subset_cons_self ..))
  refine ⟨g', ?_, hblocks'', hold, fun i hi => ?_⟩
  · rw [Heap.moveTo, hp.mem2chunk, hoc]
    rw [hbp, hp.payload_eq, heq]
    exact hp.payload_eq ▸ hfree
  · have hmoved : g'.gm.byte (b.1 + 16 + i) = WordStore.byte mem (b.1 + 16 + i) :=
      hkeep''.byte List.mem_cons_self hb.aligned hb.mod (by omega) (by omega)
    rw [hbp, hp.payload_eq, hmoved, hbyte, if_pos (by omega), Nat.add_sub_cancel_left]
    exact hkeep.byte List.mem_cons_self hp.aligned hp.mod (by omega) (by omega)

/-- The end of `dlrealloc`, behind a request for another block. -/
theorem Mallocs.move {r : Nat × Heap} (h : Mallocs m ((p, s) :: U) (requestSize bytes) r)
    (hbytes : bytes < maxRequest) (w : World) (oldSize : Int) :
    ∃ r', (if r.1 = 0 then return (0, r.2)
      else do
        let g ← r.2.moveTo w (payload (p, s)) bytes r.1
        return (r.1, { g with toAllocator := g.toAllocator.resized oldSize r.1 }) :
          Except Fault (Nat × Heap)) = .ok r' ∧ Reallocs m p s bytes U r' := by
  rcases h with ⟨h0, hheld, hkeep⟩ | ⟨b, hr, hle, hlt, hblocks, hkeep⟩
  · rw [if_pos h0]
    refine ⟨(0, r.2), rfl, .inl ⟨rfl, ?_, hkeep⟩⟩
    rcases hheld with hblocks | ⟨-, hnil⟩
    · exact hblocks
    · cases hnil
  · have hne : r.1 ≠ 0 := by
      rw [hr]
      exact (hblocks.isBlock (p := b.1) (s := b.2) List.mem_cons_self).payload_ne_zero
    have hsize := (request2size_spec hbytes).2.1
    rw [← requestSize_eq hbytes] at hsize
    obtain ⟨g', hmove, hblocks', hkeep', hbytes'⟩ :=
      Heap.moveTo_spec bytes hblocks hkeep (by omega) w
    rw [if_neg hne, hr, hmove]
    refine ⟨_, rfl, .inr ⟨b, rfl, hle, hlt, ?_, ?_, ?_⟩⟩
    · simp only [resized_gm]
      exact hblocks'
    · simp only [resized_gm]
      exact hkeep'
    · simp only [resized_gm]
      exact hbytes'

/-- A block that was resized in its place. -/
theorem Resized.reallocs {q : Nat} (h : Resized m p s (request2size bytes) U (q, g.gm))
    (hbytes : bytes < maxRequest) (hp : IsBlock m p s) :
    q = p ∧ Reallocs m p s bytes U (payload (p, s), g) := by
  obtain ⟨s', hr, hle, hlt, hblocks, hkeep⟩ := h
  have hq := hblocks.isBlock List.mem_cons_self
  have hmod := hp.mod
  have hmod' := hq.mod
  have hmin := hp.min
  obtain ⟨-, hle', -⟩ := request2size_spec hbytes
  simp only [minChunkSize] at hmin
  rw [← requestSize_eq hbytes] at hle hlt hle'
  refine ⟨hr, .inr ⟨(p, s'), rfl, hle, hlt, hblocks, (keeps_cons.mp hkeep).2, fun i hi => ?_⟩⟩
  rw [hq.payload_eq, hp.payload_eq]
  exact hkeep.byte List.mem_cons_self hp.aligned (by omega) (by omega) (by omega)

/-- A call for another size collects first. -/
def Heap.reallocCollects (w : World) (g : Heap) (oldmem bytes : Nat) : Bool :=
  bytes < maxRequest &&
    match tryReallocChunk w.munmap g.gm (mem2chunk oldmem) (request2size bytes) with
    | .ok (0, _) => g.collectsFor bytes
    | _ => false

/-- A block is resized: it grows or shrinks in its place, or it is moved. -/
theorem Heap.dlrealloc_spec (fuel : Nat) (h : Blocks g.gm (G ++ (p, s) :: U) [])
    (hgarbage : w.garbage = G.map payload) (hadmits : Admits w g bytes) :
    ∃ r, Heap.dlrealloc w (fuel + 2) (payload (p, s)) bytes g = .ok r ∧
      Reallocs g.gm p s bytes (remaining (g.reallocCollects w (payload (p, s)) bytes) G U) r := by
  have hperm : (G ++ (p, s) :: U).Perm ((p, s) :: (G ++ U)) := List.perm_middle
  have hcons := h.perm hperm
  have hp := hcons.isBlock List.mem_cons_self
  have hmin := hp.min
  simp only [minChunkSize] at hmin
  rcases Nat.lt_or_ge bytes maxRequest with hb | hb
  case inr =>
    refine ⟨(0, g), ?_, .inl ⟨rfl, ?_, .of_mem rfl⟩⟩
    · rw [Heap.dlrealloc, if_neg hp.payload_ne_zero, if_pos hb]
      rfl
    · simpa [Heap.reallocCollects, Nat.not_lt.mpr hb, remaining] using hcons
  obtain ⟨hsize, hle, -⟩ := request2size_spec hb
  rw [Heap.dlrealloc, if_neg hp.payload_ne_zero, if_neg (by omega), Heap.reallocCollects,
    hp.mem2chunk, decide_eq_true hb, Bool.true_and]
  dsimp only
  obtain ⟨r, hr, hres⟩ := tryReallocChunk_spec hcons w.munmap hsize
  rw [hr]
  rcases hres with ⟨rfl, -⟩ | hres
  · -- there is no room here
    obtain ⟨r, hr, hm⟩ := Held.dlmalloc_spec fuel (.inl h) hgarbage hadmits
    simp only [Except.ok_bind, bne_self_eq_false, Bool.false_eq_true, if_false, hr]
    refine Mallocs.move (hm.perm ?_) hb w (toLong (usableSize g.gm (payload (p, s))))
    unfold remaining
    split
    · exact .rfl
    · exact hperm
  · obtain ⟨q, gm⟩ := r
    obtain ⟨rfl, hres⟩ := hres.reallocs (g := { g with gm }) hb hp
    obtain ⟨q, rfl⟩ : ∃ q', q = q' + 1 := ⟨q - 1, by have := hp.pos; omega⟩
    have hne : (q + 1 != 0) = true := by simp
    simp only [Except.ok_bind, if_pos hne]
    refine ⟨_, rfl, ?_⟩
    simp only [Reallocs, resized_gm] at hres ⊢
    exact hres

/-- A block is resized without being moved, or it stays as it is. -/
theorem Heap.dlreallocInPlace_spec (h : Blocks g.gm ((p, s) :: U) []) (w : World) (bytes : Nat) :
    ∃ r, Heap.dlreallocInPlace w (payload (p, s)) bytes g = .ok r ∧
      (r.1 = 0 ∧ r.2 = g ∨ r.1 = payload (p, s) ∧ Reallocs g.gm p s bytes U r) := by
  have hp := h.isBlock List.mem_cons_self
  have hmin := hp.min
  simp only [minChunkSize] at hmin
  rcases Nat.lt_or_ge bytes maxRequest with hb | hb
  case inr =>
    refine ⟨(0, g), ?_, .inl ⟨rfl, rfl⟩⟩
    rw [Heap.dlreallocInPlace, if_neg hp.payload_ne_zero, if_pos hb]
    rfl
  obtain ⟨hsize, hle, -⟩ := request2size_spec hb
  rw [Heap.dlreallocInPlace, if_neg hp.payload_ne_zero, if_neg (by omega), hp.mem2chunk]
  dsimp only
  obtain ⟨⟨q, gm⟩, hr, hres⟩ := tryReallocChunk_spec h w.munmap hsize
  rw [hr]
  rcases hres with ⟨heq, -⟩ | hres
  · obtain ⟨rfl, rfl⟩ := Prod.mk.inj heq
    refine ⟨_, rfl, .inl ⟨if_neg ?_, rfl⟩⟩
    have := hp.pos
    omega
  · obtain ⟨rfl, hres⟩ := hres.reallocs (g := { g with gm }) hb hp
    refine ⟨_, rfl, .inr ⟨if_pos rfl, ?_⟩⟩
    rwa [if_pos rfl]

end PrecisionGc.Dlmalloc
