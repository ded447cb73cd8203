import PrecisionGc.Verify.SysAlloc
import PrecisionGc.Library.BoundaryTags
import PrecisionGc.Model.Blocks

/-!
# The tiling of the heap

Each segment is tiled by chunks up to `top` or to the record of the segment, which stands at its
end. The free chunks are `dv` and those in the bins; in the middle of an operation some of them are
loose. A hole in such a heap may be filled with other chunks.
-/

namespace PrecisionGc.Dlmalloc
open Regions BoundaryTags

/-- What a chunk is used for. -/
inductive Kind
  | inuse
  | free
  /-- the record of a segment, at the end of it -/
  | record
  | top
  deriving DecidableEq

namespace Kind

def used : Kind → Bool
  | inuse | record => true
  | free | top => false

def fits : Kind → Nat → Prop
  | inuse, s | free, s => minChunkSize ≤ s
  | record, s => s = 48
  | top, s => 0 < s

end Kind

/-- The tags of `dlmalloc.c`: `CINUSE_BIT` and `PINUSE_BIT` beside the size. -/
def tagging : Tagging Kind where
  used := Kind.used
  footed k := k = .free
  valid k s := s % 16 = 0 ∧ k.fits s
  tag k s pin := s + (if k.used then 2 else 0) + if pin then 1 else 0
  lt_of_valid {k s} h := by
    obtain ⟨hmod, hfits⟩ := h
    cases k <;> simp only [Kind.fits, minChunkSize] at hfits <;> omega

abbrev HeapChunk := BoundaryTags.Chunk Kind

/-- A segment and the chunks in it, without the last. -/
structure Span where
  seg : Segment
  body : List HeapChunk

/-- The last chunk of a segment. -/
def MState.tail (m : MState) (sp : Segment) : HeapChunk :=
  match sp.record with
  | none => ⟨m.top, m.topsize, .top⟩
  | some ss => ⟨ss - 16, 48, .record⟩

/-- What stands behind the last chunk: the foot of `top`, or two fenceposts at least. -/
def Segment.footSize (sp : Segment) : Nat := if sp.record.isSome then 32 else topFootSize

def Segment.footWord (sp : Segment) : Nat := if sp.record.isSome then 11 else topFootSize

theorem Segment.le_footSize (sp : Segment) : 32 ≤ sp.footSize := by
  simp only [Segment.footSize, topFootSize]
  split <;> omega

structure Span.Tiled (m : MState) (s : Span) : Prop where
  body : ∀ c ∈ s.body, c.kind = .inuse ∨ c.kind = .free
  tiles : Tiles tagging m.mem true s.seg.base (s.body ++ [m.tail s.seg])
  room : (m.tail s.seg).stop + s.seg.footSize ≤ s.seg.base + s.seg.size
  foot : m.mem ((m.tail s.seg).stop + 8) = s.seg.footWord

/-- A chunk by its address and size. -/
def entry (c : HeapChunk) : Nat × Nat := (c.addr, c.size)

/-- The chunks of a kind. -/
def ofKind (k : Kind) (l : List HeapChunk) : List (Nat × Nat) :=
  (l.filter fun c => c.kind = k).map entry

def chunks (S : List Span) : List HeapChunk := S.flatMap Span.body

/-- `dv`, if there is one -/
def MState.dvChunk (m : MState) : List (Nat × Nat) :=
  if m.dvsize = 0 then [] else [(m.dv, m.dvsize)]

/-- An initialised heap whose segments are tiled as `S` says. The free chunks are those in `X`, `dv`
and the chunks in the bins. -/
structure Tiled (m : MState) (S : List Span) (X : List (Nat × Nat)) : Prop where
  ready : Ready m
  segs : S.map Span.seg = m.segs
  spans : ∀ s ∈ S, s.Tiled m
  first : ∀ s ∈ S.head?, s.seg.record = none
  others : ∀ s ∈ S.tail, s.seg.record ≠ none
  aligned : ∀ s ∈ S, s.seg.base % 16 = 0 ∧ s.seg.size % 16 = 0
  least : ∀ s ∈ S, m.leastAddr ≤ s.seg.base
  dv : m.dvsize = 0 → m.dv = 0
  bins : (ofKind .free (chunks S)).Perm (X ++ (m.dvChunk ++ m.bins))

@[simp] theorem ofKind_nil (k : Kind) : ofKind k [] = [] := rfl

@[simp] theorem ofKind_cons (k : Kind) (c : HeapChunk) (l : List HeapChunk) :
    ofKind k (c :: l) = if c.kind = k then entry c :: ofKind k l else ofKind k l := by
  simp only [ofKind, List.filter_cons, decide_eq_true_eq]
  split <;> rfl

@[simp] theorem ofKind_append (k : Kind) (l₁ l₂ : List HeapChunk) :
    ofKind k (l₁ ++ l₂) = ofKind k l₁ ++ ofKind k l₂ := by
  simp [ofKind]

@[simp] theorem chunks_append (S₁ S₂ : List Span) : chunks (S₁ ++ S₂) = chunks S₁ ++ chunks S₂ :=
  List.flatMap_append

@[simp] theorem chunks_cons (s : Span) (S : List Span) : chunks (s :: S) = s.body ++ chunks S :=
  List.flatMap_cons

theorem ofKind_perm {k : Kind} {l l' : List HeapChunk} (h : l.Perm l') :
    (ofKind k l).Perm (ofKind k l') := (h.filter _).map entry

theorem mem_ofKind {k : Kind} {l : List HeapChunk} {e : Nat × Nat} :
    e ∈ ofKind k l ↔ ⟨e.1, e.2, k⟩ ∈ l := by
  simp only [ofKind, List.mem_map, List.mem_filter, decide_eq_true_eq, entry]
  constructor
  · rintro ⟨c, ⟨hc, rfl⟩, rfl⟩
    exact hc
  · exact fun h => ⟨_, ⟨h, rfl⟩, rfl⟩

/-! ## Holes -/

/-- A place in the heap: what lies before it and behind it. -/
structure Hole where
  before : List Span
  seg : Segment
  left : List HeapChunk
  right : List HeapChunk
  after : List Span

namespace Hole

variable (x : Hole)

def fill (mid : List HeapChunk) : List Span :=
  x.before ++ ⟨x.seg, x.left ++ mid ++ x.right⟩ :: x.after

/-- Where the hole starts. -/
def start : Nat := stop x.seg.base x.left

/-- The chunk in front of the hole is used. -/
def pin : Bool := lastUsed tagging true x.left

/-- The chunks outside the hole. -/
def others : List HeapChunk := chunks x.before ++ x.left ++ (x.right ++ chunks x.after)

theorem perm (mid : List HeapChunk) : (chunks (x.fill mid)).Perm (mid ++ x.others) := by
  simpa [fill, others] using
    List.perm_append_comm_assoc (chunks x.before ++ x.left) mid (x.right ++ chunks x.after)

theorem mem_fill (mid : List HeapChunk) : ⟨x.seg, x.left ++ mid ++ x.right⟩ ∈ x.fill mid := by
  simp [fill]

theorem map_seg_fill (mid mid' : List HeapChunk) :
    (x.fill mid').map Span.seg = (x.fill mid).map Span.seg := by
  simp [fill]

theorem fill_cons_right (mid : List HeapChunk) (c : HeapChunk) (r : List HeapChunk)
    (h : x.right = c :: r) : x.fill mid = { x with right := r }.fill (mid ++ [c]) := by
  simp [fill, h]

theorem fill_concat_left (mid : List HeapChunk) (c : HeapChunk) (l : List HeapChunk)
    (h : x.left = l ++ [c]) : x.fill mid = { x with left := l }.fill (c :: mid) := by
  simp [fill, h]

end Hole

/-- Every chunk has a place. -/
theorem exists_hole {S : List Span} {c : HeapChunk} (hc : c ∈ chunks S) :
    ∃ x : Hole, S = x.fill [c] := by
  obtain ⟨⟨sp, body⟩, hs, hbody⟩ := List.mem_flatMap.mp hc
  obtain ⟨S₁, S₂, rfl⟩ := List.append_of_mem hs
  obtain ⟨l, r, rfl⟩ := List.append_of_mem hbody
  exact ⟨⟨S₁, sp, l, r, S₂⟩, by simp [Hole.fill]⟩

/-! ## Words -/

section Words

variable {m : MState} {p s n : Nat}

theorem or_of_aligned {b : Nat} (hs : s % 16 = 0) (hb : b < 16) : s ||| b = s + b := by
  obtain ⟨k, rfl⟩ : ∃ k, s = 2 ^ 4 * k := ⟨s / 16, by omega⟩
  exact (Nat.two_pow_add_eq_or_of_lt hb k).symm

theorem and_three (w : Nat) : w &&& 3 = w % 4 := Nat.and_two_pow_sub_one_eq_mod w 2

theorem and_one (w : Nat) : w &&& 1 = w % 2 := Nat.and_two_pow_sub_one_eq_mod w 1

theorem and_two (w : Nat) : w &&& 2 = w / 2 % 2 * 2 := by
  have h := Nat.and_two_pow w 1
  rw [Nat.testBit_eq_decide_div_mod_eq] at h
  rw [pow_one] at h
  rcases Nat.mod_two_eq_zero_or_one (w / 2) with h0 | h1 <;> simp_all

theorem head_eq (h : p + 8 < 2 ^ 64) : m.head p = m.mem (p + 8) := by
  rw [MState.head, addSize_eq h]

theorem setHead_eq (h : p + 8 < 2 ^ 64) (v : Nat) :
    m.setHead p v = { m with mem := Function.update m.mem (p + 8) v } := by
  rw [MState.setHead, addSize_eq h]

theorem setInuseChunk_eq (h : p + 8 < 2 ^ 64) (hs : s % 16 = 0) :
    m.setInuseChunk p s = { m with mem := Function.update m.mem (p + 8) (s + 3) } := by
  rw [MState.setInuseChunk, setHead_eq h, or_of_aligned hs (by decide)]

theorem setFreeChunk_eq (h : p + s + 8 < 2 ^ 64) (hs : s % 16 = 0) : m.setFreeChunk p s =
    { m with mem := Function.update (Function.update m.mem (p + 8) (s + 1)) (p + s) s } := by
  rw [MState.setFreeChunk, MState.setFoot, setHead_eq (by omega), or_of_aligned hs (by decide),
    addSize_eq (by omega)]

theorem setInuse_eq (h : p + s + 8 < 2 ^ 64) (hs : s % 16 = 0) (hpos : 0 < s) :
    m.setInuse p s =
      { m with
        mem := Function.update (Function.update m.mem (p + 8) (s + 2 + m.mem (p + 8) % 2))
          (p + s + 8) (m.mem (p + s + 8) - m.mem (p + s + 8) % 2 + 1) } := by
  have hor : m.mem (p + 8) &&& 1 ||| s ||| 2 = s + 2 + m.mem (p + 8) % 2 := by
    have hflags : m.mem (p + 8) % 2 ||| 2 = 2 + m.mem (p + 8) % 2 := by
      rcases Nat.mod_two_eq_zero_or_one (m.mem (p + 8)) with h0 | h1 <;> simp [*]
    rw [and_one, Nat.or_comm (_ % 2) s, Nat.or_assoc, hflags, or_of_aligned hs (by omega),
      Nat.add_assoc]
  have hne : p + s + 8 ≠ p + 8 := by omega
  have hp : p + 8 < 2 ^ 64 := by omega
  simp only [MState.setInuse, addSize_eq (a := p) (b := s) (by omega), head_eq hp, head_eq h,
    setHead_eq hp, setHead_eq h, hor, Function.update_of_ne hne, ByteStore.or_one]

theorem setInuseAndPinuse_eq (h : p + s + 8 < 2 ^ 64) (hs : s % 16 = 0) (hpos : 0 < s) :
    m.setInuseAndPinuse p s =
      { m with
        mem := Function.update (Function.update m.mem (p + 8) (s + 3)) (p + s + 8)
          (m.mem (p + s + 8) - m.mem (p + s + 8) % 2 + 1) } := by
  have hne : p + s + 8 ≠ p + 8 := by omega
  have hp : p + 8 < 2 ^ 64 := by omega
  simp only [MState.setInuseAndPinuse, addSize_eq (a := p) (b := s) (by omega), head_eq h,
    setHead_eq hp, setHead_eq h, or_of_aligned hs (by decide : 3 < 16),
    Function.update_of_ne hne, ByteStore.or_one]

theorem clearPinuse_eq (h : n + 8 < 2 ^ 64) : m.clearPinuse n =
    { m with mem := Function.update m.mem (n + 8) (m.mem (n + 8) - m.mem (n + 8) % 2) } := by
  rw [MState.clearPinuse, setHead_eq h, head_eq h]

theorem setFreeWithPinuse_eq (h : p + s + 8 < 2 ^ 64) (hs : s % 16 = 0) (hn : n + 8 < 2 ^ 64) :
    m.setFreeWithPinuse p s n =
      { m with
        mem := Function.update (Function.update
          (Function.update m.mem (n + 8) (m.mem (n + 8) - m.mem (n + 8) % 2)) (p + 8) (s + 1))
          (p + s) s } := by
  rw [MState.setFreeWithPinuse, setFreeChunk_eq h hs, setHead_eq hn, head_eq hn]

end Words

@[simp] theorem tagging_used (k : Kind) : tagging.used k = k.used := rfl

theorem tagging_tag (k : Kind) (s : Nat) (pin : Bool) :
    tagging.tag k s pin = s + (if k.used then 2 else 0) + if pin then 1 else 0 := rfl

theorem tagging_valid (k : Kind) (s : Nat) : tagging.valid k s ↔ s % 16 = 0 ∧ k.fits s := Iff.rfl

/-- The pin bit of a tag, exchanged. -/
theorem tag_repin {k : Kind} {s w : Nat} {pin pin' : Bool} (hs : s % 16 = 0)
    (hw : w = tagging.tag k s pin) :
    w - w % 2 + (if pin' then 1 else 0) = tagging.tag k s pin' := by
  rw [hw]
  simp only [tagging_tag]
  cases k <;> cases pin <;> cases pin' <;> simp [Kind.used] <;> omega

/-- The tag of the first chunk of a tiling, and what it says. -/
theorem tag_of_head {mem : Nat → Nat} {pin : Bool} {a : Nat} {cs : List HeapChunk} {n : HeapChunk}
    (h : Tiles tagging mem pin a cs) (hn : n ∈ cs.head?) : (pin ∨ n.kind.used) ∧ n.size % 16 = 0 ∧
      mem (a + 8) = tagging.tag n.kind n.size pin ∧ (n.kind.used ↔ mem (a + 8) / 2 % 2 = 1) := by
  cases cs with
  | nil => cases hn
  | cons c cs =>
    obtain rfl : c = n := by simpa using hn
    obtain ⟨rfl, hpin, ⟨hmod, -⟩, htag, -, -⟩ := h
    refine ⟨hpin, hmod, htag, ?_⟩
    rw [htag, tagging_tag]
    cases c.kind.used <;> cases pin <;> simp <;> omega

/-! ## Exchanging one segment, or what fills a hole -/

variable {m m' : MState} {S S₁ S₂ : List Span} {s s' : Span} {X X' : List (Nat × Nat)} {x : Hole}
  {mid mid' : List HeapChunk} {c : HeapChunk}

/-- A span looks at the words of its segment only. -/
theorem Span.Tiled.congr (h : s.Tiled m) (htail : m'.tail s.seg = m.tail s.seg)
    (heq : ∀ w, s.seg.base < w → w < s.seg.base + s.seg.size → m'.mem w = m.mem w) :
    s.Tiled m' := by
  have hroom := h.room
  have hbase := h.tiles.le_stop
  have hfoot := s.seg.le_footSize
  simp only [stop_append, stop_cons, stop_nil] at hbase
  constructor
  case body => exact h.body
  case tiles =>
    rw [htail]
    refine h.tiles.congr_of_between fun w hw hle => heq w hw ?_
    simp only [stop_append, stop_cons, stop_nil] at hle
    omega
  case room => rwa [htail]
  case foot =>
    rw [htail, heq _ (by omega) (by omega)]
    exact h.foot

/-- Which chunk is the last of a segment depends on `top` for the first segment alone. -/
theorem tail_eq_of_record {sp : Segment} (h : sp.record ≠ none) : m'.tail sp = m.tail sp := by
  unfold MState.tail
  split
  · exact absurd ‹_› h
  · rfl

namespace Tiled

/-- One segment is exchanged, and the words of the others are as they were. -/
theorem update (h : Tiled m (S₁ ++ s :: S₂) X) (hready : Ready m')
    (hsegs : m'.segs = (S₁ ++ s' :: S₂).map Span.seg) (hs' : s'.Tiled m')
    (hrecord : s'.seg.record = none ↔ s.seg.record = none)
    (haligned : s'.seg.base % 16 = 0 ∧ s'.seg.size % 16 = 0)
    (heq : ∀ t ∈ S₁ ++ S₂, ∀ w ∈ t.seg.region, m'.mem w = m.mem w)
    (htop : S₁ = [] ∨ m'.top = m.top ∧ m'.topsize = m.topsize)
    (hleast : m'.leastAddr ≤ m.leastAddr) (hleast' : m'.leastAddr ≤ s'.seg.base)
    (hdv : m'.dvsize = 0 → m'.dv = 0)
    (hbins : (ofKind .free (chunks (S₁ ++ s' :: S₂))).Perm (X' ++ (m'.dvChunk ++ m'.bins))) :
    Tiled m' (S₁ ++ s' :: S₂) X' := by
  have hall : ∀ {P : Span → Prop}, P s' → (∀ t ∈ S₁ ++ S₂, P t) → ∀ t ∈ S₁ ++ s' :: S₂, P t := by
    intro P hP hPs
    simp only [List.forall_mem_append, List.forall_mem_cons] at hPs ⊢
    exact ⟨hPs.1, hP, hPs.2⟩
  have hsub : ∀ t ∈ S₁ ++ S₂, t ∈ S₁ ++ s :: S₂ := fun t ht =>
    (List.sublist_cons_self s S₂).append_left S₁ |>.subset ht
  have htail : ∀ t ∈ S₁ ++ S₂, m'.tail t.seg = m.tail t.seg := by
    intro t ht
    rcases htop with rfl | ⟨htop, htopsize⟩
    · exact tail_eq_of_record (h.others t ht)
    · simp only [MState.tail, htop, htopsize]
  constructor
  case ready => exact hready
  case segs => exact hsegs.symm
  case spans =>
    refine hall hs' fun t ht => (h.spans t (hsub t ht)).congr (htail t ht) fun w hw hw' => ?_
    exact heq t ht w (by simp only [Segment.region, mem_region]; omega)
  case first =>
    have hfirst := h.first
    cases S₁ with
    | nil => simpa [hrecord] using hfirst
    | cons t S₁ => simpa using hfirst
  case others =>
    have hothers := h.others
    cases S₁ with
    | nil => exact hothers
    | cons t S₁ =>
      simp only [List.cons_append, List.tail_cons, List.forall_mem_append, List.forall_mem_cons,
        ne_eq] at hothers ⊢
      rwa [hrecord]
  case aligned => exact hall haligned fun t ht => h.aligned t (hsub t ht)
  case least => exact hall hleast' fun t ht => hleast.trans (h.least t (hsub t ht))
  case dv => exact hdv
  case bins => exact hbins

/-- The chunks around a hole tile their segment. -/
theorem hole (h : Tiled m (x.fill mid) X) :
    (⟨x.seg, x.left ++ mid ++ x.right⟩ : Span).Tiled m := h.spans _ (by simp [Hole.fill])

theorem hole_tiles (h : Tiled m (x.fill mid) X) : Tiles tagging m.mem true x.seg.base x.left ∧
    Tiles tagging m.mem x.pin x.start mid ∧
    Tiles tagging m.mem (lastUsed tagging x.pin mid) (stop x.start mid)
      (x.right ++ [m.tail x.seg]) := by
  have ht := h.hole.tiles
  rw [List.append_assoc, List.append_assoc, List.append_assoc, tiles_append, tiles_append] at ht
  exact ht

/-- Where a hole lies. -/
theorem hole_bounds (h : Tiled m (x.fill mid) X) : 0 < x.seg.base ∧ x.seg.base ≤ x.start ∧
    x.start ≤ stop x.start mid ∧ stop x.start mid + 8 < (m.tail x.seg).stop ∧
    (m.tail x.seg).stop + 32 ≤ x.seg.base + x.seg.size ∧ x.seg.base + x.seg.size ≤ userEnd := by
  obtain ⟨hl, hm, hr⟩ := h.hole_tiles
  have hmem : x.seg ∈ m.segs := by simp [← h.segs, Hole.fill]
  have hlast := hr.bounds (c := m.tail x.seg) (by simp)
  have hle := (tiles_append.mp hr).1.le_stop
  simp only [stop_append, stop_cons, stop_nil] at hlast
  refine ⟨h.ready.layout.pos _ hmem, hl.le_stop, hm.le_stop, by omega, ?_,
    h.ready.layout.bound _ hmem⟩
  exact (Nat.add_le_add_left x.seg.le_footSize _).trans h.hole.room

/-- The segments behind and in front of a hole do not see what is written in it. -/
theorem region_outside (h : Tiled m (x.fill mid) X) {t : Span} (ht : t ∈ x.before ++ x.after)
    {w : Nat} (hw : w ∈ t.seg.region) : w ∉ x.seg.region := by
  have hd := h.ready.layout.disjoint
  rw [← h.segs, Hole.fill, List.map_append, List.map_cons, disjointList_middle,
    disjointList_cons, ← List.map_append] at hd
  exact Finset.disjoint_right.mp (hd.1 t.seg (List.mem_map_of_mem ht)) hw

/-- The room of a chunk outside a hole is in front of it, or behind the tag that follows, or in
another segment. -/
theorem outside (h : Tiled m (x.fill mid) X) (hc : c ∈ x.others) {w : Nat}
    (hw : c.addr + 8 < w) (hw' : w ≤ c.stop) :
    w ≤ x.start ∨ (c ∈ x.right ∧ stop x.start mid + 8 < w) ∨ w ∉ x.seg.region := by
  obtain ⟨hl, hm, hr⟩ := h.hole_tiles
  have hother : ∀ s ∈ x.before ++ x.after, c ∈ s.body → w ∉ x.seg.region := by
    intro s hs hc
    have hmem : s ∈ x.fill mid := by
      simp only [Hole.fill, List.mem_append, List.mem_cons] at hs ⊢
      exact hs.imp_right .inr
    have hs' := h.spans s hmem
    obtain ⟨hle, hstop, -⟩ := hs'.tiles.bounds (List.mem_append_left _ hc)
    have hroom := hs'.room
    have hfoot := s.seg.le_footSize
    simp only [stop_append, stop_cons, stop_nil] at hstop
    refine h.region_outside hs ?_
    simp only [Segment.region, mem_region]
    omega
  simp only [Hole.others, List.mem_append, chunks, List.mem_flatMap] at hc
  rcases hc with (⟨s, hs, hc⟩ | hc) | hc | ⟨s, hs, hc⟩
  · exact .inr (.inr (hother s (List.mem_append_left _ hs) hc))
  · exact .inl (hw'.trans (hl.bounds hc).2.1)
  · have := (hr.bounds (List.mem_append_left _ hc)).1
    exact .inr (.inl ⟨hc, by omega⟩)
  · exact .inr (.inr (hother s (List.mem_append_right _ hs) hc))

end Tiled

/-- The words behind the tags of these blocks, the last one of them in front of the next tag, are
the same. -/
def Keeps (m m' : MState) (U : List (Nat × Nat)) : Prop :=
  ∀ b ∈ U, ∀ w, b.1 + 8 < w → w ≤ b.1 + b.2 → m'.mem w = m.mem w

namespace Keeps

variable {m₁ m₂ m₃ : MState} {U V : List (Nat × Nat)}

theorem trans (h : Keeps m₁ m₂ U) (h' : Keeps m₂ m₃ U) : Keeps m₁ m₃ U :=
  fun b hb w hw hw' => (h' b hb w hw hw').trans (h b hb w hw hw')

theorem mono (h : Keeps m₁ m₂ U) (hsub : V ⊆ U) : Keeps m₁ m₂ V := fun b hb => h b (hsub hb)

theorem of_mem (h : m₂.mem = m₁.mem) : Keeps m₁ m₂ U := fun _ _ _ _ _ => congrFun h _

end Keeps

namespace Tiled

/-- The free chunks outside a hole. -/
theorem free_others (h : Tiled m (x.fill mid) (ofKind .free mid ++ X)) :
    (ofKind .free x.others).Perm (X ++ (m.dvChunk ++ m.bins)) := by
  have hperm := (ofKind_perm (x.perm mid)).symm.trans h.bins
  rw [ofKind_append, List.append_assoc] at hperm
  exact (List.perm_append_left_iff _).mp hperm

theorem free_fill (h : Tiled m (x.fill mid) (ofKind .free mid ++ X)) (mid' : List HeapChunk) :
    (ofKind .free (chunks (x.fill mid'))).Perm
      (ofKind .free mid' ++ X ++ (m.dvChunk ++ m.bins)) := by
  have hperm := ofKind_perm (k := .free) (x.perm mid')
  rw [ofKind_append] at hperm
  rw [List.append_assoc]
  exact hperm.trans (h.free_others.append_left _)

/-- A hole is filled with other chunks. Of the words outside, only the pin bit behind it changes. -/
theorem splice {mem : Nat → Nat} (h : Tiled m (x.fill mid) (ofKind .free mid ++ X))
    (mid' : List HeapChunk)
    (heq : ∀ w, w ≤ x.start ∨ stop x.start mid + 8 < w → mem w = m.mem w)
    (hbody : ∀ c ∈ mid', c.kind = .inuse ∨ c.kind = .free)
    (hmid : Tiles tagging mem x.pin x.start mid') (hstop : stop x.start mid' = stop x.start mid)
    (hnext : mem (stop x.start mid + 8) = m.mem (stop x.start mid + 8) -
      m.mem (stop x.start mid + 8) % 2 + if lastUsed tagging x.pin mid' then 1 else 0)
    (hpin : lastUsed tagging x.pin mid' ∨ ¬lastUsed tagging x.pin mid ∨
      m.mem (stop x.start mid + 8) / 2 % 2 = 1) :
    Tiled { m with mem } (x.fill mid') (ofKind .free mid' ++ X) ∧
      Keeps m { m with mem } (ofKind .inuse x.others) := by
  have hb := h.hole_bounds
  have hs := h.hole
  have haligned := h.aligned _ (x.mem_fill mid)
  have hleast := h.least _ (x.mem_fill mid)
  obtain ⟨hl, hm, hr⟩ := h.hole_tiles
  have htiles : Tiles tagging mem true x.seg.base
      (x.left ++ (mid' ++ (x.right ++ [m.tail x.seg]))) := by
    refine tiles_append.mpr ⟨hl.congr_of_between fun w _ hw => heq w (.inl hw),
      tiles_append.mpr ⟨hmid, ?_⟩⟩
    change Tiles tagging mem (lastUsed tagging x.pin mid') (stop x.start mid') _
    rw [hstop]
    refine hr.repin (fun w hw => heq w (.inr hw)) fun n hn => ?_
    obtain ⟨hor, hmod, htag, hused⟩ := tag_of_head hr hn
    refine ⟨?_, hnext.trans (tag_repin hmod htag)⟩
    rcases hpin with hpin | hpin | hpin
    · exact .inl hpin
    · exact .inr (hor.resolve_left hpin)
    · exact .inr (hused.mpr hpin)
  have hspan : (⟨x.seg, x.left ++ mid' ++ x.right⟩ : Span).Tiled { m with mem } := by
    constructor
    case body =>
      have hbody' := hs.body
      simp only [List.forall_mem_append] at hbody' ⊢
      exact ⟨⟨hbody'.1.1, hbody⟩, hbody'.2⟩
    case tiles =>
      rw [List.append_assoc, List.append_assoc, List.append_assoc]
      exact htiles
    case room => exact hs.room
    case foot =>
      change mem ((m.tail x.seg).stop + 8) = _
      exact (heq _ (.inr (by omega))).trans hs.foot
  refine ⟨h.update (h.ready.of_same ⟨rfl, rfl, rfl, rfl⟩) (h.segs.symm.trans ?_) hspan Iff.rfl
    haligned (fun t ht w hw => ?_) (.inr ⟨rfl, rfl⟩) le_rfl hleast h.dv (h.free_fill mid'),
    fun b hb' w hw hw' => ?_⟩
  · exact x.map_seg_fill mid' mid
  · have hout := h.region_outside ht hw
    simp only [Segment.region, mem_region] at hout
    exact heq w (by omega)
  · have hout := h.outside (mem_ofKind.mp hb') hw hw'
    simp only [Segment.region, mem_region] at hout
    exact heq w (by omega)

/-- The first segment is the one with `top`. -/
theorem tail_of_first (h : Tiled m (x.fill mid) X) (hbefore : x.before = []) :
    m.tail x.seg = ⟨m.top, m.topsize, .top⟩ := by
  have hrecord := h.first ⟨x.seg, x.left ++ mid ++ x.right⟩ (by simp [Hole.fill, hbefore])
  simp only [MState.tail, show x.seg.record = none from hrecord]

/-- A hole in front of `top` is filled with other chunks, and `top` starts behind them. -/
theorem spliceTop {mem : Nat → Nat} {top topsize : Nat}
    (h : Tiled m (x.fill mid) (ofKind .free mid ++ X)) (mid' : List HeapChunk)
    (hbefore : x.before = []) (hright : x.right = [])
    (hend : top + topsize = m.top + m.topsize) (hpos : 0 < topsize)
    (hmod : topsize % 16 = 0)
    (heq : ∀ w, w ≤ x.start ∨ m.top + m.topsize < w → mem w = m.mem w)
    (hbody : ∀ c ∈ mid', c.kind = .inuse ∨ c.kind = .free)
    (hmid : Tiles tagging mem x.pin x.start mid') (hstop : stop x.start mid' = top)
    (hlast : lastUsed tagging x.pin mid') (htag : mem (top + 8) = topsize + 1) :
    Tiled { m with mem, top, topsize } (x.fill mid') (ofKind .free mid' ++ X) ∧
      Keeps m { m with mem, top, topsize } (ofKind .inuse x.others) := by
  have hb := h.hole_bounds
  have hs := h.hole
  have haligned := h.aligned _ (x.mem_fill mid)
  have hleast := h.least _ (x.mem_fill mid)
  have htail := h.tail_of_first hbefore
  have hrecord : x.seg.record = none :=
    h.first ⟨x.seg, x.left ++ mid ++ x.right⟩ (by simp [Hole.fill, hbefore])
  have htail' : ({ m with mem, top, topsize } : MState).tail x.seg = ⟨top, topsize, .top⟩ := by
    simp only [MState.tail, hrecord]
  have htopmod := h.ready.aligned
  obtain ⟨hl, hm, hr⟩ := h.hole_tiles
  rw [htail] at hb
  simp only [Chunk.stop] at hb
  have hle : x.start ≤ top := hstop ▸ hmid.le_stop
  have hready : Ready { m with mem, top, topsize } := by
    refine h.ready.moveTop rfl rfl ?_ hpos hend fun seg hseg => ?_
    · have htopsize := (hr.valid (c := m.tail x.seg) (by simp)).1
      rw [htail] at htopsize
      dsimp only at htopsize ⊢
      omega
    · rw [← h.segs, Hole.fill, hbefore] at hseg
      obtain rfl : x.seg = seg := by simpa using hseg
      exact hb.2.1.trans hle
  have hspan : (⟨x.seg, x.left ++ mid' ++ x.right⟩ : Span).Tiled { m with mem, top, topsize } := by
    constructor
    case body =>
      have hbody' := hs.body
      simp only [List.forall_mem_append] at hbody' ⊢
      exact ⟨⟨hbody'.1.1, hbody⟩, hbody'.2⟩
    case tiles =>
      rw [hright, List.append_nil, List.append_assoc, htail']
      refine tiles_append.mpr ⟨hl.congr_of_between fun w _ hw => heq w (.inl hw),
        tiles_append.mpr ⟨hmid, ?_⟩⟩
      change Tiles tagging mem (lastUsed tagging x.pin mid') (stop x.start mid') _
      rw [hstop, hlast]
      exact ⟨rfl, .inl rfl, ⟨hmod, hpos⟩, htag, by simp [tagging], trivial⟩
    case room =>
      have hroom := hs.room
      rw [htail'] 
      rw [htail] at hroom
      simp only [Chunk.stop] at hroom ⊢
      omega
    case foot =>
      have hfoot := hs.foot
      rw [htail']
      rw [htail] at hfoot
      simp only [Chunk.stop] at hfoot ⊢
      rw [hend]
      exact (heq _ (.inr (by omega))).trans hfoot
  refine ⟨h.update hready (h.segs.symm.trans ?_) hspan Iff.rfl haligned (fun t ht w hw => ?_)
    (.inl hbefore) le_rfl hleast h.dv (h.free_fill mid'), fun b hb' w hw hw' => ?_⟩
  · exact x.map_seg_fill mid' mid
  · have hout := h.region_outside ht hw
    simp only [Segment.region, mem_region] at hout
    exact heq w (by omega)
  · have hout := h.outside (mem_ofKind.mp hb') hw hw'
    simp only [Segment.region, mem_region, hright, List.not_mem_nil, false_and, false_or] at hout
    exact heq w (by omega)

end Tiled

end PrecisionGc.Dlmalloc
