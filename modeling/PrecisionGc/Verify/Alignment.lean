import Mathlib.Data.Nat.Log
import PrecisionGc.Verify.Bytes

/-!
# Aligned blocks, and many blocks at once

`internal_memalign` asks for more than it needs, gives back what lies in front of the first aligned
address in it, and what is left behind. `internal_bulk_free` joins neighbours before it gives them
back.
-/

namespace PrecisionGc.Dlmalloc
open Regions BoundaryTags

variable {m m' : MState} {U V G : List (Nat × Nat)} {X : List (Nat × Nat)} {x : Hole}
  {p s n t nb rs a k i bytes fuel alignment : Nat} {munmap : Nat → Nat → Bool} {g g' : Heap}
  {w : World}

/-! ## The alignment -/

/-- The alignment that a request gets. -/
def fullAlignment (alignment : Nat) : Nat := 2 ^ Nat.clog 2 (max alignment minChunkSize)

theorem Heap.roundUpAlignment_eq (h : alignment ≤ 2 ^ 63) (hi : i ≤ Nat.clog 2 alignment)
    (hfuel : Nat.clog 2 alignment < i + fuel) :
    roundUpAlignment alignment fuel (2 ^ i) = .ok (2 ^ Nat.clog 2 alignment) := by
  induction fuel generalizing i with
  | zero => omega
  | succ fuel ih =>
    rw [roundUpAlignment]
    split
    case isTrue hlt =>
      have hi' : i < Nat.clog 2 alignment := (Nat.lt_clog_iff_pow_lt (by decide)).mpr hlt
      have hle : Nat.clog 2 alignment ≤ 63 := Nat.clog_le_of_le_pow h
      have hpow : 2 ^ i * 2 % 2 ^ 64 = 2 ^ (i + 1) := by
        rw [← pow_succ]
        exact Nat.mod_eq_of_lt (Nat.pow_lt_pow_right (by decide) (by omega))
      rw [hpow]
      exact ih hi' (by omega)
    case isFalse hge =>
      have hle : Nat.clog 2 alignment ≤ i := Nat.clog_le_of_le_pow (by omega)
      rw [show i = Nat.clog 2 alignment by omega]
      rfl

/-- The loop that makes the alignment a power of 2 ends, if there is one that is large enough. -/
theorem Heap.memAlignment_eq (h : alignment ≤ 2 ^ 63) :
    memAlignment alignment = .ok (fullAlignment alignment) := by
  have hmax : max alignment minChunkSize ≤ 2 ^ 63 := max_le h (by decide)
  have hmin : minChunkSize ≤ max alignment minChunkSize := le_max_right ..
  rw [memAlignment, fullAlignment]
  generalize max alignment minChunkSize = a at hmax hmin
  simp only [minChunkSize] at hmin
  rw [subSize_eq (by omega) (by omega)]
  split
  case isTrue =>
    have hlog : 5 ≤ Nat.clog 2 a := by
      by_contra hlt
      have := Nat.le_pow_clog (by decide : 1 < 2) a
      have hle : 2 ^ Nat.clog 2 a ≤ 2 ^ 4 := Nat.pow_le_pow_right (by decide) (by omega)
      omega
    have hlog' : Nat.clog 2 a ≤ 63 := Nat.clog_le_of_le_pow hmax
    exact roundUpAlignment_eq (i := 5) hmax hlog (by omega)
  case isFalse hpow =>
    have hpow : a &&& (a - 1) = 0 := by simpa using hpow
    obtain ⟨k, rfl⟩ := (Nat.and_sub_one_eq_zero_iff_isPowerOfTwo (by omega)).mp hpow
    rw [Nat.clog_pow 2 k (by decide)]
    rfl

/-- The mask `-alignment` cuts a number to a multiple. -/
theorem and_neg_pow (h : n < 2 ^ 64) (hk : k ≤ 64) :
    n &&& (2 ^ 64 - 2 ^ k) = n / 2 ^ k * 2 ^ k := by
  have hmask : 2 ^ 64 - 2 ^ k = (2 ^ (64 - k) - 1) <<< k := by
    rw [Nat.shiftLeft_eq, Nat.sub_mul, Nat.one_mul, ← pow_add, Nat.sub_add_cancel hk]
  rw [hmask, ← Nat.shiftRight_eq_div_pow, ← Nat.shiftLeft_eq]
  apply Nat.eq_of_testBit_eq
  intro i
  simp only [Nat.testBit_and, Nat.testBit_shiftLeft, Nat.testBit_shiftRight,
    Nat.testBit_two_pow_sub_one]
  by_cases hi : k ≤ i
  · rw [show k + (i - k) = i by omega]
    by_cases hi' : i < 64
    · simp [hi, show i - k < 64 - k by omega]
    · have : n.testBit i = false :=
        Nat.testBit_lt_two_pow (h.trans_le (Nat.pow_le_pow_right (by decide) (by omega)))
      simp [this]
  · simp [hi]

/-! ## Giving back what is too much -/

/-- It does not matter which part of a chunk that is divided gets its tag first. -/
theorem setInuse_comm (hb : p + nb + rs + 8 < 2 ^ 64) (hnb : nb % 16 = 0) (hrs : rs % 16 = 0)
    (hpos : 0 < nb) (hpos' : 0 < rs) :
    (m.setInuse (p + nb) rs).setInuse p nb = (m.setInuse p nb).setInuse (p + nb) rs := by
  rw [setInuse_eq (s := rs) (by omega) hrs hpos', setInuse_eq (s := nb) (by omega) hnb hpos,
    setInuse_eq (s := nb) (by omega) hnb hpos, setInuse_eq (s := rs) (by omega) hrs hpos']
  congr 1
  funext w
  simp only [Function.update_apply]
  split_ifs <;> omega

/-- The hole in front of its last chunk. -/
def Hole.ahead (x : Hole) (c : HeapChunk) : Hole := { x with right := c :: x.right }

theorem Hole.fill_ahead (x : Hole) (c : HeapChunk) (mid : List HeapChunk) :
    x.fill (mid ++ [c]) = (x.ahead c).fill mid := by
  simp [Hole.fill, Hole.ahead]

theorem Hole.inuse_ahead (x : Hole) (p s : Nat) :
    (ofKind .inuse (x.ahead ⟨p, s, .inuse⟩).others).Perm ((p, s) :: ofKind .inuse x.others) := by
  simp only [Hole.ahead, Hole.others, ofKind_append, ofKind_cons, if_true, entry,
    List.cons_append]
  exact List.perm_middle

/-- The front of a block is cut off and given back. -/
theorem leader_spec (h : Blocks m ((p, nb + rs) :: U) []) (munmap : Nat → Nat → Bool)
    (hnb : nb % 16 = 0) (hnb' : minChunkSize ≤ nb) (hrs : minChunkSize ≤ rs) :
    ∃ m', disposeChunk munmap ((m.setInuse (p + nb) rs).setInuse p nb) p nb = .ok m' ∧
      Blocks m' ((p + nb, rs) :: U) [] ∧ Keeps m m' U := by
  obtain ⟨x, hx, hU⟩ := h.hole
  have hb := h.isBlock List.mem_cons_self
  have hmod := hb.mod
  have hbound := hb.bound
  simp only [minChunkSize] at hnb' hrs
  obtain ⟨hdiv, hkeep⟩ := hx.divide hnb hnb' hrs
  rw [← setInuse_comm (by omega) hnb (by omega) (by omega) (by omega)] at hdiv hkeep
  have hfill := x.fill_ahead ⟨p + nb, rs, .inuse⟩ [⟨p, nb, .inuse⟩]
  rw [List.cons_append, List.nil_append] at hfill
  rw [hfill] at hdiv
  obtain ⟨m', hm', hblocks, hkeep'⟩ := disposeChunk_spec munmap hdiv
  have hperm := (x.inuse_ahead (p + nb) rs).trans (hU.cons _)
  refine ⟨m', hm', hblocks.perm hperm, (hkeep.mono hU.symm.subset).trans
    (hkeep'.mono fun b hb => hperm.symm.subset (List.mem_cons_of_mem _ hb))⟩

theorem Heap.giveBackTrailer_spec (h : Blocks m ((p, s) :: U) []) (w : World)
    (hnb : ChunkSize nb) (hle : nb ≤ s) :
    ∃ m' s', Heap.giveBackTrailer w m p nb = .ok m' ∧ nb ≤ s' ∧ s' ≤ nb + minChunkSize ∧
      Blocks m' ((p, s') :: U) [] ∧ Keeps m m' U := by
  have hp := h.isBlock List.mem_cons_self
  have hbound := hp.bound
  have hmin := hnb.min
  simp only [minChunkSize] at hmin
  rw [Heap.giveBackTrailer, hp.not_isMmapped, hp.chunksize, minChunkSize,
    addSize_eq (by omega), subSize_eq (by omega) hle]
  rcases Nat.lt_or_ge (nb + 32) s with hlt | hge
  · obtain ⟨x, hx, hU⟩ := h.hole
    obtain ⟨rs, rfl⟩ : ∃ rs, s = nb + rs := ⟨s - nb, by omega⟩
    rw [Nat.add_sub_cancel_left]
    obtain ⟨m', hm', hblocks, hkeep⟩ := splitOff_spec hx w.munmap hnb
      (by simp only [minChunkSize]; omega)
    refine ⟨m', nb, ?_, le_rfl, by omega, hblocks.perm (hU.cons _),
      ((keeps_cons.mp hkeep).2).mono hU.symm.subset⟩
    have htest : (!false && decide (nb + 32 < nb + rs)) = true := by simpa using hlt
    exact (if_pos htest).trans hm'
  · refine ⟨m, s, ?_, hle, hge, h, .of_mem rfl⟩
    simp [Nat.not_lt.mpr hge]

/-- In a block with enough room the first aligned address, or the next one, leaves room for a chunk
in front. -/
theorem Heap.giveBackLeader_spec (h : Blocks m ((p, s) :: U) []) (w : World) (hk : 5 ≤ k)
    (hnb : minChunkSize ≤ nb) (hle : nb + 2 ^ k + minChunkSize ≤ s) :
    ∃ q t m', Heap.giveBackLeader w m p (payload (p, s)) (2 ^ k) = .ok (q, m') ∧ nb ≤ t ∧
      (q + 16) % 2 ^ k = 0 ∧ Blocks m' ((q, t) :: U) [] ∧ Keeps m m' U := by
  have hp := h.isBlock List.mem_cons_self
  have hbound := hp.bound
  have hpmod := hp.aligned
  have hsmod := hp.mod
  simp only [minChunkSize] at hnb hle
  have hdvd : 16 ∣ 2 ^ k := Nat.pow_dvd_pow 2 (by omega : 4 ≤ k)
  have hk64 : k ≤ 64 := by
    by_contra hgt
    have : 2 ^ 64 ≤ 2 ^ k := Nat.pow_le_pow_right (by decide) (by omega)
    omega
  have hand : payload (p, s) &&& subSize (2 ^ k) 1 = (p + 16) % 2 ^ k := by
    rw [hp.payload_eq, subSize_eq (by omega) (Nat.two_pow_pos k),
      Nat.and_two_pow_sub_one_eq_mod]
  rw [Heap.giveBackLeader, hand]
  split
  case isTrue h0 => exact ⟨p, s, m, rfl, by omega, h0, h, .of_mem rfl⟩
  case isFalse h0 =>
  have hpos : 0 < 2 ^ k := Nat.two_pow_pos k
  have hmask : subSize (addSize (payload (p, s)) (2 ^ k)) 1 &&& subSize 0 (2 ^ k) =
      (p + 15 + 2 ^ k) / 2 ^ k * 2 ^ k := by
    rw [hp.payload_eq, addSize_eq (by omega), subSize_eq (by omega) (by omega),
      ← and_neg_pow (by omega) hk64]
    congr 1
    · omega
    · simp only [subSize, Nat.zero_add]
      exact Nat.mod_eq_of_lt (by omega)
  have hrmod : (p + 15 + 2 ^ k) / 2 ^ k * 2 ^ k % 2 ^ k = 0 := Nat.mul_mod_left ..
  have hr16 : 16 ∣ (p + 15 + 2 ^ k) / 2 ^ k * 2 ^ k := Dvd.dvd.mul_left hdvd _
  have hrle := Nat.div_mul_le_self (p + 15 + 2 ^ k) (2 ^ k)
  have hrlt := Nat.lt_div_mul_add hpos (a := p + 15 + 2 ^ k)
  rw [hmask]
  generalize (p + 15 + 2 ^ k) / 2 ^ k * 2 ^ k = r at hrmod hr16 hrle hrlt
  have hrne : r ≠ p + 16 := fun heq => h0 (heq ▸ hrmod)
  generalize 2 ^ k = a at *
  have hbr : mem2chunk r = r - 16 := subSize_eq (by omega) (by omega)
  obtain ⟨lead, heq, hlmod, hlmin, hroom, halign⟩ : ∃ lead,
      (if minChunkSize ≤ subSize (mem2chunk r) p then mem2chunk r
        else addSize (mem2chunk r) a) = p + lead ∧ lead % 16 = 0 ∧ minChunkSize ≤ lead ∧
      lead + nb + 16 ≤ s ∧ (p + lead + 16) % a = 0 := by
    rw [hbr, subSize_eq (by omega) (by omega)]
    have h32 : minChunkSize = 32 := rfl
    rcases Nat.lt_or_ge (r - 16 - p) minChunkSize with hlt | hge
    · refine ⟨r + a - 16 - p, ?_, by omega, by omega, by omega, ?_⟩
      · rw [if_neg (by omega), addSize_eq (by omega)]
        omega
      · rw [show p + (r + a - 16 - p) + 16 = r + a by omega, Nat.add_mod_right, hrmod]
    · refine ⟨r - 16 - p, ?_, by omega, hge, by omega, ?_⟩
      · rw [if_pos hge]
        omega
      · rw [show p + (r - 16 - p) + 16 = r by omega, hrmod]
  simp only [minChunkSize] at hlmin
  dsimp only
  rw [heq, hp.chunksize, hp.not_isMmapped, subSize_eq (by omega) (by omega),
    Nat.add_sub_cancel_left, subSize_eq (by omega) (by omega)]
  obtain ⟨t, rfl⟩ : ∃ t, s = lead + t := ⟨s - lead, by omega⟩
  rw [Nat.add_sub_cancel_left]
  obtain ⟨m', hm', hblocks, hkeep⟩ := leader_spec h w.munmap hlmod
    (by simp only [minChunkSize]; omega) (by simp only [minChunkSize]; omega)
  exact ⟨p + lead, t, m', by simp [hm'], by omega, halign, hblocks, hkeep⟩

/-! ## `dlmemalign` -/

/-- An address is as aligned as a request asks. -/
def Aligned (alignment a : Nat) : Prop :=
  a % 16 = 0 ∧ (16 < alignment → a % fullAlignment alignment = 0)

/-- An alignment that is a power of 2 is met itself. -/
theorem Aligned.mod_eq_zero (h : Aligned (2 ^ k) a) : a % 2 ^ k = 0 := by
  obtain ⟨h16, hfull⟩ := h
  rcases Nat.lt_or_ge 16 (2 ^ k) with hlt | hge
  · have hdvd : 2 ^ k ∣ fullAlignment (2 ^ k) := by
      rw [fullAlignment]
      have hle := Nat.clog_mono_right 2 (le_max_left (2 ^ k) minChunkSize)
      rw [Nat.clog_pow 2 k (by decide)] at hle
      exact Nat.pow_dvd_pow 2 hle
    exact Nat.mod_eq_zero_of_dvd (hdvd.trans (Nat.dvd_of_mod_eq_zero (hfull hlt)))
  · have hk : k ≤ 4 := (Nat.pow_le_pow_iff_right (by decide : 1 < 2)).mp hge
    exact Nat.mod_eq_zero_of_dvd
      ((Nat.pow_dvd_pow 2 hk).trans (Nat.dvd_of_mod_eq_zero h16))

/-- The result of a request for an aligned block: NULL, or a block that is aligned and large
enough. -/
def Memaligns (m : MState) (U : List (Nat × Nat)) (alignment bytes : Nat) (r : Nat × Heap) : Prop :=
  r.1 = 0 ∧ Held r.2.gm U ∧ Keeps m r.2.gm U ∨
    ∃ b : Nat × Nat, r.1 = payload b ∧ Aligned alignment (payload b) ∧ bytes < maxRequest ∧
      request2size bytes ≤ b.2 ∧ b.2 ≤ request2size bytes + minChunkSize ∧
      Blocks r.2.gm (b :: U) [] ∧ Keeps m r.2.gm U

theorem Memaligns.perm {r : Nat × Heap} (h : Memaligns m U alignment bytes r) (hU : U.Perm V) :
    Memaligns m V alignment bytes r := by
  rcases h with ⟨h0, hheld, hkeep⟩ | ⟨b, hr, ha, hb, hle, hlt, hblocks, hkeep⟩
  · exact .inl ⟨h0, hheld.perm hU, hkeep.mono hU.symm.subset⟩
  · exact .inr ⟨b, hr, ha, hb, hle, hlt, hblocks.perm (hU.cons b), hkeep.mono hU.symm.subset⟩

theorem Mallocs.memaligns {r : Nat × Heap} (h : Mallocs m U (requestSize bytes) r)
    (halign : alignment ≤ 16) : Memaligns m U alignment bytes r := by
  rcases Nat.lt_or_ge bytes maxRequest with hb | hb
  · rcases h with h | ⟨b, hr, hle, hlt, hblocks, hkeep⟩
    · exact .inl h
    · have hb' := hblocks.isBlock (p := b.1) (s := b.2) List.mem_cons_self
      have hmod := hb'.aligned
      rw [requestSize_eq hb] at hle hlt
      refine .inr ⟨b, hr, ⟨?_, fun hlt => by omega⟩, hb, hle, hlt.le, hblocks, hkeep⟩
      rw [show payload b = b.1 + 16 from hb'.payload_eq]
      omega
  · rw [requestSize_large hb] at h
    have h0 := h.null_of_large
    rcases h with h | ⟨b, hr, -, -, hblocks, -⟩
    · exact .inl h
    · have hb' := hblocks.isBlock (p := b.1) (s := b.2) List.mem_cons_self
      exact absurd (hr.symm.trans h0) hb'.payload_ne_zero

theorem fullAlignment_spec (h : alignment ≤ 2 ^ 63) :
    minChunkSize ≤ fullAlignment alignment ∧ fullAlignment alignment ≤ 2 ^ 63 ∧
      ∃ k, 5 ≤ k ∧ fullAlignment alignment = 2 ^ k := by
  have hmax : max alignment minChunkSize ≤ 2 ^ 63 := max_le h (by decide)
  have hle : minChunkSize ≤ fullAlignment alignment :=
    (le_max_right ..).trans (Nat.le_pow_clog (by decide) _)
  refine ⟨hle, Nat.pow_le_pow_right (by decide) (Nat.clog_le_of_le_pow hmax), _, ?_, rfl⟩
  exact (Nat.pow_le_pow_iff_right (by decide : 1 < 2)).mp hle

/-- The end of `internal_memalign`, behind the request. -/
theorem Mallocs.align {r : Nat × Heap} (halign : alignment ≤ 2 ^ 63)
    (hbytes : bytes < maxRequest - fullAlignment alignment)
    (h : Mallocs m U (requestSize (Heap.memalignRequest (fullAlignment alignment) bytes)) r)
    (w : World) : ∃ r',
    (if r.1 = 0 then return (0, r.2)
      else do
        let (p, gm) ← Heap.giveBackLeader w r.2.gm (mem2chunk r.1) r.1 (fullAlignment alignment)
        let gm ← Heap.giveBackTrailer w gm p (request2size bytes)
        return (chunk2mem p, { r.2 with gm }) : Except Fault (Nat × Heap)) = .ok r' ∧
      Memaligns m U alignment bytes r' := by
  obtain ⟨hmin, hmax, k, hk, hpow⟩ := fullAlignment_spec halign
  have hbytes' : bytes < maxRequest := by omega
  obtain ⟨hsize, hle, hle'⟩ := request2size_spec hbytes'
  have hreq : Heap.memalignRequest (fullAlignment alignment) bytes =
      request2size bytes + fullAlignment alignment + 24 := by
    simp only [maxRequest, minChunkSize] at hbytes hle' ⊢
    rw [Heap.memalignRequest, addSize_eq (a := request2size bytes) (by omega), minChunkSize,
      addSize_eq (by omega), subSize_eq (by omega) (by omega)]
    omega
  rw [hreq] at h
  rcases h with ⟨h0, h⟩ | ⟨⟨p, s⟩, hr, hle₁, hlt₁, hblocks, hkeep⟩
  · exact ⟨(0, r.2), if_pos h0, .inl ⟨rfl, h⟩⟩
  have hb := hblocks.isBlock List.mem_cons_self
  have hreq' : request2size bytes + fullAlignment alignment + 24 < maxRequest := by
    by_contra hge
    rw [requestSize_large (by omega)] at hle₁
    have := hb.bound
    simp only [maxSizeT] at hle₁
    omega
  have hsize' := (request2size_spec hreq').2.1
  rw [requestSize_eq hreq'] at hle₁
  dsimp only at hle₁
  rw [if_neg (hr ▸ hb.payload_ne_zero), hr, hb.mem2chunk]
  have hroom : request2size bytes + 2 ^ k + minChunkSize ≤ s := by
    simp only [minChunkSize]
    omega
  obtain ⟨q, t, m₁, hleader, ht, hq, hblocks₁, hkeep₁⟩ :=
    Heap.giveBackLeader_spec hblocks w hk hsize.min hroom
  obtain ⟨m₂, t', htrailer, ht₁, ht₂, hblocks₂, hkeep₂⟩ :=
    Heap.giveBackTrailer_spec hblocks₁ w hsize ht
  have hb₂ := hblocks₂.isBlock List.mem_cons_self
  have hmod := hb₂.aligned
  refine ⟨(chunk2mem q, { r.2 with gm := m₂ }), ?_, .inr ⟨(q, t'), rfl, ?_, hbytes', ht₁, ht₂,
    hblocks₂, (hkeep.trans hkeep₁).trans hkeep₂⟩⟩
  · rw [hpow, hleader]
    simp only [Except.ok_bind, htrailer]
    rfl
  · rw [hb₂.payload_eq, Aligned, hpow]
    exact ⟨by omega, fun _ => hq⟩

/-- A call for an aligned block collects first. -/
def Heap.memalignCollects (g : Heap) (alignment bytes : Nat) : Bool :=
  bytes < maxRequest - fullAlignment alignment &&
    g.collectsFor (Heap.memalignRequest (fullAlignment alignment) bytes)

theorem Held.internalMemalign_spec (fuel : Nat) (h : Held g.gm (G ++ U))
    (hgarbage : w.garbage = G.map payload) (halign : alignment ≤ 2 ^ 63)
    (hadmits : Admits w g (Heap.memalignRequest (fullAlignment alignment) bytes)) :
    ∃ r, Heap.internalMemalign w (fuel + 2) alignment bytes g = .ok r ∧
      Memaligns g.gm (remaining (g.memalignCollects alignment bytes) G U) alignment bytes r := by
  obtain ⟨hmin, hmax, -⟩ := fullAlignment_spec halign
  simp only [minChunkSize] at hmin
  rw [Heap.internalMemalign, Heap.memAlignment_eq halign, Heap.memalignCollects]
  simp only [Except.ok_bind]
  rw [subSize_eq (by simp only [maxRequest]; omega) (by simp only [maxRequest]; omega)]
  split
  case isTrue hle =>
    refine ⟨_, rfl, .inl ⟨rfl, ?_, .of_mem rfl⟩⟩
    simpa [Nat.not_lt.mpr hle, remaining] using h
  case isFalse hlt =>
    obtain ⟨r, hr, hm⟩ := h.dlmalloc_spec fuel hgarbage hadmits
    rw [hr, decide_eq_true (by omega), Bool.true_and]
    exact hm.align halign (by omega) w

/-- The size that is asked of `dlmalloc`. -/
def alignedRequest (alignment bytes : Nat) : Nat :=
  if alignment ≤ 16 then bytes else Heap.memalignRequest (fullAlignment alignment) bytes

/-- A call for an aligned block collects first. -/
def Heap.alignedCollects (g : Heap) (alignment bytes : Nat) : Bool :=
  if alignment ≤ 16 then g.collectsFor bytes else g.memalignCollects alignment bytes

theorem Held.dlmemalign_spec (fuel : Nat) (h : Held g.gm (G ++ U))
    (hgarbage : w.garbage = G.map payload) (halign : alignment ≤ 2 ^ 63)
    (hadmits : Admits w g (alignedRequest alignment bytes)) :
    ∃ r, Heap.dlmemalign w (fuel + 2) alignment bytes g = .ok r ∧
      Memaligns g.gm (remaining (g.alignedCollects alignment bytes) G U) alignment bytes r := by
  unfold Heap.dlmemalign Heap.alignedCollects
  unfold alignedRequest at hadmits
  split
  case isTrue hle =>
    rw [if_pos hle] at hadmits
    obtain ⟨r, hr, hm⟩ := h.dlmalloc_spec fuel hgarbage hadmits
    exact ⟨r, hr, hm.memaligns hle⟩
  case isFalse hlt =>
    rw [if_neg hlt] at hadmits
    exact h.internalMemalign_spec fuel hgarbage halign hadmits

/-! ## `dlposix_memalign` -/

/-- The alignments that `dlposix_memalign` accepts. -/
def ValidAlignment (alignment : Nat) : Prop := ∃ k, 3 ≤ k ∧ alignment = 2 ^ k

theorem Heap.refusesAlignment_iff (h : alignment < 2 ^ 64) :
    Heap.refusesAlignment alignment = false ↔ ValidAlignment alignment := by
  unfold Heap.refusesAlignment
  dsimp only
  rcases Nat.eq_zero_or_pos (alignment / 8) with h0 | hpos
  · have hnot : ¬ValidAlignment alignment := by
      rintro ⟨k, hk, rfl⟩
      have : 2 ^ 3 ≤ 2 ^ k := Nat.pow_le_pow_right (by decide) hk
      omega
    simp [hnot, h0]
  rw [subSize_eq (by omega) hpos]
  simp only [Bool.or_eq_false_iff, bne_eq_false_iff_eq, beq_eq_false_iff_ne, ne_eq, hpos.ne',
    not_false_eq_true, and_true]
  rw [Nat.and_sub_one_eq_zero_iff_isPowerOfTwo hpos.ne']
  constructor
  · rintro ⟨hmod, j, hj⟩
    refine ⟨j + 3, by omega, ?_⟩
    rw [pow_add, ← hj]
    omega
  · rintro ⟨k, hk, rfl⟩
    obtain ⟨j, rfl⟩ : ∃ j, k = j + 3 := ⟨k - 3, by omega⟩
    rw [pow_add]
    exact ⟨Nat.mul_mod_left .., j, Nat.mul_div_cancel _ (by decide)⟩

theorem Memaligns.of_max {r : Nat × Heap}
    (h : Memaligns m U (max alignment minChunkSize) bytes r) : Memaligns m U alignment bytes r := by
  rcases h with h | ⟨b, hr, ⟨h16, hfull⟩, h⟩
  · exact .inl h
  · refine .inr ⟨b, hr, ⟨h16, fun hlt => ?_⟩, h⟩
    have := hfull (hlt.trans_le (le_max_left ..))
    rwa [fullAlignment, max_assoc, max_self] at this

/-- The size that is asked of `dlmalloc`. -/
def posixRequest (alignment bytes : Nat) : Nat :=
  if alignment = 16 then bytes else Heap.memalignRequest (fullAlignment alignment) bytes

/-- What `dlposix_memalign` relies on, or leaves behind, for a valid alignment. -/
def Posix (m : MState) (U : List (Nat × Nat)) (alignment bytes : Nat)
    (r : Nat × Option Nat × Heap) : Prop :=
  (r.2.1 = none ↔ r.1 ≠ 0) ∧ Memaligns m U alignment bytes (r.2.1.getD 0, r.2.2)

/-- The end of `dlposix_memalign`. -/
theorem Memaligns.posix {r : Nat × Heap} (h : Memaligns m U alignment bytes r) :
    ∃ r', (if r.1 = 0 then (Heap.enomem, none, r.2) else (0, some r.1, r.2)) = r' ∧
      r'.1 ≠ Heap.einval ∧ Posix m U alignment bytes r' := by
  refine ⟨_, rfl, ?_⟩
  split
  case isTrue h0 =>
    refine ⟨by simp [Heap.enomem, Heap.einval], by simp [Heap.enomem], ?_⟩
    change Memaligns m U alignment bytes (0, r.2)
    rw [← h0]
    exact h
  case isFalse h0 => exact ⟨by simp [Heap.einval], by simp, h⟩

/-- A call of `dlposix_memalign` collects first. -/
def Heap.posixCollects (g : Heap) (alignment bytes : Nat) : Bool :=
  if alignment = 16 then g.collectsFor bytes
  else
    !Heap.refusesAlignment alignment && bytes ≤ maxRequest - alignment &&
      g.memalignCollects alignment bytes

/-- `dlposix_memalign` refuses an alignment that is not valid, and serves the others. -/
theorem Held.dlposixMemalign_spec (fuel : Nat) (h : Held g.gm (G ++ U))
    (hgarbage : w.garbage = G.map payload) (halign : alignment < 2 ^ 64)
    (hadmits : Admits w g (posixRequest alignment bytes)) :
    ∃ r, Heap.dlposixMemalign w (fuel + 2) alignment bytes g = .ok r ∧
      (r.1 = Heap.einval ↔ ¬ValidAlignment alignment) ∧
      Posix g.gm (remaining (g.posixCollects alignment bytes) G U) alignment bytes r := by
  have hnull : Posix g.gm (remaining false G U) alignment bytes (Heap.einval, none, g) :=
    ⟨by simp [Heap.einval], .inl ⟨rfl, h, .of_mem rfl⟩⟩
  unfold Heap.dlposixMemalign Heap.posixCollects
  unfold posixRequest at hadmits
  dsimp only
  by_cases h16 : alignment = 16
  · rw [if_pos h16] at hadmits ⊢
    have hvalid : ValidAlignment alignment := ⟨4, by decide, h16⟩
    obtain ⟨r, hr, hm⟩ := h.dlmalloc_spec fuel hgarbage hadmits
    rw [hr, if_pos h16]
    obtain ⟨r', hr', herr, hres⟩ := (hm.memaligns h16.le).posix
    exact ⟨r', congrArg Except.ok hr', by simp [hvalid, herr], hres⟩
  rw [if_neg h16] at hadmits ⊢
  rw [if_neg h16]
  have hiff := Heap.refusesAlignment_iff halign
  by_cases hvalid : ValidAlignment alignment
  case neg =>
    have htest : Heap.refusesAlignment alignment = true := by
      simpa using mt hiff.mp hvalid
    rw [if_pos htest, htest, Bool.not_true, Bool.false_and, Bool.false_and]
    exact ⟨(Heap.einval, none, g), rfl, by simp [hvalid], hnull⟩
  have htest := hiff.mpr hvalid
  obtain ⟨k, -, rfl⟩ := id hvalid
  have hk : k < 64 := (Nat.pow_lt_pow_iff_right (by decide : 1 < 2)).mp halign
  have hle : 2 ^ k ≤ 2 ^ 63 := Nat.pow_le_pow_right (by decide) (by omega)
  rw [htest, if_neg Bool.false_ne_true, Bool.not_false, Bool.true_and,
    subSize_eq (by simp only [maxRequest]; omega) (by simp only [maxRequest]; omega)]
  split
  case isTrue hbytes =>
    have hmax : max (2 ^ k) minChunkSize ≤ 2 ^ 63 := max_le hle (by decide)
    have hfull : fullAlignment (max (2 ^ k) minChunkSize) = fullAlignment (2 ^ k) := by
      rw [fullAlignment, max_assoc, max_self, fullAlignment]
    rw [← hfull] at hadmits
    obtain ⟨r, hr, hm⟩ := h.internalMemalign_spec fuel hgarbage hmax hadmits
    rw [hr, decide_eq_true hbytes, Bool.true_and]
    rw [Heap.memalignCollects, hfull] at hm
    obtain ⟨r', hr', herr, hres⟩ := hm.of_max.posix
    exact ⟨r', congrArg Except.ok hr', by simp [hvalid, herr], hres⟩
  case isFalse hbytes =>
    refine ⟨_, rfl, by simp [hvalid, Heap.enomem, Heap.einval], by simp [Heap.enomem], ?_⟩
    refine .inl ⟨rfl, ?_, .of_mem rfl⟩
    simpa [hbytes, remaining] using h

end PrecisionGc.Dlmalloc
