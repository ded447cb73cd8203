import PrecisionGc.Model.Blocks

/-!
# The bins and their links

The small bins are rings and the tree bins are tries, linked by words in the free chunks. The link
fields are kept by field and chunk; sizes and `least_addr` are those of `malloc_state`, whose list
`bins` is not looked at here. A search takes one unit of fuel for each chunk that it passes. Where a
runtime check fails the process is aborted.
-/

namespace PrecisionGc.Dlmalloc

/-! ## Indices -/

/-- `NTREEBINS` -/
def ntreebins : Nat := 32

/-- `compute_tree_index`; `X` is an `unsigned int`. -/
def computeTreeIndex (s : Nat) : Nat :=
  let x := s / 2 ^ 8 % 2 ^ 32
  if x = 0 then 0
  else if 0xFFFF < x then ntreebins - 1
  else
    let k := Nat.log2 x
    2 * k + s / 2 ^ (k + 7) % 2

/-- `leftshift_for_tree_index` -/
def leftshiftForTreeIndex (i : Nat) : Nat := if i = ntreebins - 1 then 0 else 63 - (i / 2 + 6)

/-- `minsize_for_tree_index` -/
def minsizeForTreeIndex (i : Nat) : Nat := 1 <<< (i / 2 + 8) ||| (i % 2) <<< (i / 2 + 7)

/-- `idx2bit` -/
def idx2bit (i : Nat) : Nat := 1 <<< i % 2 ^ 32

/-- `least_bit` -/
def leastBit (x : Nat) : Nat := x &&& (2 ^ 32 - x) % 2 ^ 32

/-- `left_bits` -/
def leftBits (x : Nat) : Nat :=
  let y := x <<< 1 % 2 ^ 32
  y ||| (2 ^ 32 - y) % 2 ^ 32

/-- `compute_bit2idx`: the number of trailing zeros -/
def bit2idx (x : Nat) : Nat := (List.range 32).findIdx x.testBit

/-! ## The links -/

/-- The links of the free chunks, the tree bins and the bin maps. -/
structure Links where
  fd : Nat → Nat
  bk : Nat → Nat
  /-- `child[0]` and `child[1]` -/
  child : Nat → Bool → Nat
  parent : Nat → Nat
  index : Nat → Nat
  treebins : Nat → Nat
  smallmap : Nat
  treemap : Nat
  /-- `&_gm_` -/
  base : Nat

namespace Links

variable (L : Links)

/-- `smallbin_at` -/
def smallbinAt (i : Nat) : Nat := L.base + 80 + 16 * i

/-- `treebin_at` -/
def treebinAt (i : Nat) : Nat := L.base + 608 + 8 * i

def setFd (p v : Nat) : Links := { L with fd := Function.update L.fd p v }

def setBk (p v : Nat) : Links := { L with bk := Function.update L.bk p v }

def setChild (p : Nat) (c : Bool) (v : Nat) : Links :=
  { L with child := Function.update L.child p (Function.update (L.child p) c v) }

def setParent (p v : Nat) : Links := { L with parent := Function.update L.parent p v }

def setIndex (p v : Nat) : Links := { L with index := Function.update L.index p v }

/-- `*treebin_at(M, i) = v` -/
def setTreebin (i v : Nat) : Links := { L with treebins := Function.update L.treebins i v }

/-- `mark_smallmap` -/
def markSmallmap (i : Nat) : Links := { L with smallmap := L.smallmap ||| idx2bit i }

/-- `clear_smallmap` -/
def clearSmallmap (i : Nat) : Links :=
  { L with smallmap := L.smallmap &&& (2 ^ 32 - 1 - idx2bit i) }

/-- `smallmap_is_marked` -/
def smallmapIsMarked (i : Nat) : Bool := L.smallmap &&& idx2bit i != 0

/-- `mark_treemap` -/
def markTreemap (i : Nat) : Links := { L with treemap := L.treemap ||| idx2bit i }

/-- `clear_treemap` -/
def clearTreemap (i : Nat) : Links := { L with treemap := L.treemap &&& (2 ^ 32 - 1 - idx2bit i) }

/-- `treemap_is_marked` -/
def treemapIsMarked (i : Nat) : Bool := L.treemap &&& idx2bit i != 0

/-- `&t->child[c]` -/
def childField (t : Nat) (c : Bool) : Nat := addSize t (if c then 40 else 32)

/-- `leftmost_child` -/
def leftmostChild (t : Nat) : Nat :=
  if L.child t false != 0 then L.child t false else L.child t true

/-- `init_bins` of the zeroed `_gm_` at `base`. -/
def initBins (base : Nat) : Links where
  fd := fun p => if (List.range nsmallbins).any fun i => p == base + 80 + 16 * i then p else 0
  bk := fun p => if (List.range nsmallbins).any fun i => p == base + 80 + 16 * i then p else 0
  child := fun _ _ => 0
  parent := fun _ => 0
  index := fun _ => 0
  treebins := fun _ => 0
  smallmap := 0
  treemap := 0
  base := base

/-! ## Small bins -/

/-- `insert_small_chunk` -/
def insertSmallChunk (m : MState) (p s : Nat) : Except Fault Links :=
  let i := smallIndex s
  let b := L.smallbinAt i
  do
    let (L, f) ←
      if !L.smallmapIsMarked i then pure (L.markSmallmap i, b)
      else if m.okAddress (L.fd b) then pure (L, L.fd b)
      else abort
    return (((L.setFd b p).setBk f p).setFd p f).setBk p b

/-- `unlink_small_chunk` -/
def unlinkSmallChunk (m : MState) (p s : Nat) : Except Fault Links :=
  let f := L.fd p
  let b := L.bk p
  let i := smallIndex s
  if f = L.smallbinAt i || m.okAddress f && L.bk f == p then
    if b = f then return L.clearSmallmap i
    else if b = L.smallbinAt i || m.okAddress b && L.fd b == p then
      return (L.setBk f b).setFd b f
    else abort
  else abort

/-- `unlink_first_small_chunk` -/
def unlinkFirstSmallChunk (m : MState) (b p i : Nat) : Except Fault Links :=
  let f := L.fd p
  if b = f then return L.clearSmallmap i
  else if m.okAddress f && L.bk f == p then return (L.setBk f b).setFd b f
  else abort

/-! ## Tree bins -/

/-- The loop of `insert_large_chunk`, at the node `t`. -/
def linkLargeChunk (m : MState) (x s : Nat) : Nat → Nat → Nat → Links → Except Fault Links
  | 0, _, _, _ => throw .fuel
  | fuel + 1, t, k, L =>
    if m.chunksize t != s then
      let c := k / 2 ^ 63 % 2 == 1
      if L.child t c != 0 then linkLargeChunk m x s fuel (L.child t c) (k <<< 1 % 2 ^ 64) L
      else if m.okAddress (childField t c) then
        return (((L.setChild t c x).setParent x t).setBk x x).setFd x x
      else abort
    else
      let f := L.fd t
      if m.okAddress t && m.okAddress f then
        return ((((L.setBk f x).setFd t x).setFd x f).setBk x t).setParent x 0
      else abort

/-- `insert_large_chunk` -/
def insertLargeChunk (m : MState) (fuel x s : Nat) : Except Fault Links :=
  let i := computeTreeIndex s
  let L := ((L.setIndex x i).setChild x true 0).setChild x false 0
  if !L.treemapIsMarked i then
    return ((((L.markTreemap i).setTreebin i x).setParent x (L.treebinAt i)).setBk x x).setFd x x
  else linkLargeChunk m x s fuel (L.treebins i) (s <<< leftshiftForTreeIndex i % 2 ^ 64) L

/-- The rightmost descendant of `r`, and the field that leads to it. -/
def rightmost : Nat → Nat → Nat × Bool → Except Fault (Nat × Nat × Bool)
  | 0, _, _ => throw .fuel
  | fuel + 1, r, rp =>
    if L.child r true != 0 then rightmost fuel (L.child r true) (r, true)
    else if L.child r false != 0 then rightmost fuel (L.child r false) (r, false)
    else return (r, rp)

/-- The first steps of `unlink_large_chunk`: what takes the place of `x`, unlinked. -/
def replacement (m : MState) (fuel x : Nat) : Except Fault (Links × Nat) :=
  if L.bk x != x then
    let f := L.fd x
    let r := L.bk x
    if m.okAddress f && L.bk f == x && L.fd r == x then return ((L.setBk f r).setFd r f, r)
    else abort
  else
    let c := L.child x true != 0
    if L.child x c != 0 then do
      let (r, rp) ← L.rightmost fuel (L.child x c) (x, c)
      if m.okAddress (childField rp.1 rp.2) then return (L.setChild rp.1 rp.2 0, r)
      else abort
    else return (L, 0)

/-- `x->child[c]` becomes a child of `r`. -/
def adopt (m : MState) (x r : Nat) (c : Bool) : Except Fault Links :=
  let c0 := L.child x c
  if c0 != 0 then
    if m.okAddress c0 then return (L.setChild r c c0).setParent c0 r
    else abort
  else return L

/-- The pointer to `x`, in `treebins` or in its parent `xp`, becomes one to `r`. -/
def repoint (m : MState) (x xp r : Nat) : Except Fault Links :=
  if x = L.treebins (L.index x) then
    let L' := L.setTreebin (L.index x) r
    return if r = 0 then L'.clearTreemap (L.index x) else L'
  else if m.okAddress xp then return L.setChild xp (L.child xp false != x) r
  else abort

/-- `unlink_large_chunk` -/
def unlinkLargeChunk (m : MState) (fuel x : Nat) : Except Fault Links :=
  let xp := L.parent x
  do
    let (L, r) ← L.replacement m fuel x
    if xp = 0 then return L
    else
      let L ← L.repoint m x xp r
      if r = 0 then return L
      else if m.okAddress r then
        let L ← (L.setParent r xp).adopt m x r false
        L.adopt m x r true
      else abort

/-- `insert_chunk` -/
def insertChunk (m : MState) (fuel p s : Nat) : Except Fault Links :=
  if isSmall s then L.insertSmallChunk m p s else L.insertLargeChunk m fuel p s

/-- `unlink_chunk` -/
def unlinkChunk (m : MState) (fuel p s : Nat) : Except Fault Links :=
  if isSmall s then L.unlinkSmallChunk m p s else L.unlinkLargeChunk m fuel p

/-! ## Searches -/

/-- `while (t != 0)`: the chunk of the least remainder on the way to the leftmost leaf. -/
def smallestOnLeft (m : MState) (nb : Nat) :
    Nat → Nat → Nat → Nat → Except Fault (Nat × Nat)
  | 0, _, _, _ => throw .fuel
  | fuel + 1, t, v, rsize =>
    if t = 0 then return (v, rsize)
    else
      let trem := subSize (m.chunksize t) nb
      if trem < rsize then smallestOnLeft m nb fuel (L.leftmostChild t) t trem
      else smallestOnLeft m nb fuel (L.leftmostChild t) v rsize

/-- `for (;;)` of `tmalloc_large`: the way that the bits of `nb` lead. -/
def descendTree (m : MState) (nb : Nat) :
    Nat → Nat → Nat → Nat → Nat → Nat → Except Fault (Nat × Nat × Nat)
  | 0, _, _, _, _, _ => throw .fuel
  | fuel + 1, t, sizebits, v, rsize, rst =>
    let trem := subSize (m.chunksize t) nb
    if trem < rsize && trem = 0 then return (t, t, 0)
    else
      let (v, rsize) := if trem < rsize then (t, trem) else (v, rsize)
      let rt := L.child t true
      let t := L.child t (sizebits / 2 ^ 63 % 2 == 1)
      let rst := if rt != 0 && rt != t then rt else rst
      if t = 0 then return (rst, v, rsize)
      else descendTree m nb fuel t (sizebits <<< 1 % 2 ^ 64) v rsize rst

/-- The root of the first tree bin whose bit is in `bits`, or NULL. -/
def treebinOf (bits : Nat) : Nat := if bits != 0 then L.treebins (bit2idx (leastBit bits)) else 0

/-- The search of `tmalloc_large`: the chunk, and its remainder. -/
def bestFit (m : MState) (fuel nb : Nat) : Except Fault (Nat × Nat) :=
  let idx := computeTreeIndex nb
  let t := L.treebins idx
  do
    let (t, v, rsize) ←
      if t != 0 then
        L.descendTree m nb fuel t (nb <<< leftshiftForTreeIndex idx % 2 ^ 64) 0 (subSize 0 nb) 0
      else pure (0, 0, subSize 0 nb)
    let t := if t = 0 && v = 0 then L.treebinOf (leftBits (idx2bit idx) &&& L.treemap) else t
    L.smallestOnLeft m nb fuel t v rsize

/-- The search of `tmalloc_small`. -/
def leastChunk (m : MState) (fuel nb : Nat) : Except Fault (Nat × Nat) :=
  let t := L.treebins (bit2idx (leastBit L.treemap))
  L.smallestOnLeft m nb fuel (L.leftmostChild t) t (subSize (m.chunksize t) nb)

/-- `replace_dv` -/
def replaceDv (m : MState) (p s : Nat) : Except Fault (MState × Links) := do
  let L ← if m.dvsize != 0 then L.insertSmallChunk m m.dv m.dvsize else pure L
  return ({ m with dvsize := s, dv := p }, L)

/-- What a request is served with: the block, and the state behind it. -/
abbrev Serving := Nat × MState × Links

/-- `tmalloc_large` -/
def tmallocLarge (m : MState) (fuel nb : Nat) : Except Fault (Option Serving) := do
  let (v, rsize) ← L.bestFit m fuel nb
  if v != 0 && rsize < subSize m.dvsize nb then
    let r := addSize v nb
    if m.okAddress v && v < r then
      let L ← L.unlinkLargeChunk m fuel v
      if rsize < minChunkSize then
        return some (chunk2mem v, m.setInuseAndPinuse v (addSize rsize nb), L)
      else
        let m := (m.setInuseChunk v nb).setFreeChunk r rsize
        return some (chunk2mem v, m, ← L.insertChunk m fuel r rsize)
    else abort
  else return none

/-- `tmalloc_small` -/
def tmallocSmall (m : MState) (fuel nb : Nat) : Except Fault (Option Serving) := do
  let (v, rsize) ← L.leastChunk m fuel nb
  let r := addSize v nb
  if m.okAddress v && v < r then
    let L ← L.unlinkLargeChunk m fuel v
    if rsize < minChunkSize then
      return some (chunk2mem v, m.setInuseAndPinuse v (addSize rsize nb), L)
    else
      let (m, L) ← L.replaceDv ((m.setInuseChunk v nb).setFreeChunk r rsize) r rsize
      return some (chunk2mem v, m, L)
  else abort

/-- The first part of `dlmalloc`: what the bins serve. -/
def fromBins (m : MState) (fuel bytes nb : Nat) : Except Fault (Option Serving) :=
  if bytes ≤ maxSmallRequest then
    let idx := smallIndex nb
    let smallbits := L.smallmap / 2 ^ idx
    if smallbits &&& 3 != 0 then
      let idx := idx + (if smallbits % 2 = 0 then 1 else 0)
      let b := L.smallbinAt idx
      let p := L.fd b
      do
        let L ← L.unlinkFirstSmallChunk m b p idx
        return some (chunk2mem p, m.setInuseAndPinuse p (smallIndex2size idx), L)
    else if m.dvsize < nb then
      if smallbits != 0 then
        let i := bit2idx (leastBit (smallbits <<< idx % 2 ^ 32 &&& leftBits (idx2bit idx)))
        let b := L.smallbinAt i
        let p := L.fd b
        let rsize := subSize (smallIndex2size i) nb
        do
          let L ← L.unlinkFirstSmallChunk m b p i
          if rsize < minChunkSize then
            return some (chunk2mem p, m.setInuseAndPinuse p (smallIndex2size i), L)
          else
            let r := addSize p nb
            let (m, L) ← L.replaceDv ((m.setInuseChunk p nb).setFreeChunk r rsize) r rsize
            return some (chunk2mem p, m, L)
      else if L.treemap != 0 then L.tmallocSmall m fuel nb
      else return none
    else return none
  else if maxRequest ≤ bytes then return none
  else if L.treemap != 0 then L.tmallocLarge m fuel nb
  else return none

end Links

/-! ## Runs -/

/-- What happens to the bins, and to the tags of the chunks between two such steps. -/
inductive BinEvent
  | insert (p s : Nat)
  | unlink (p s : Nat)
  | tag (mem : Nat → Nat)

/-- The list of the binned chunks behind an event. -/
def MState.binStep (m : MState) : BinEvent → MState
  | .insert p s => m.insertChunk p s
  | .unlink p s => m.unlinkChunk p s
  | .tag mem => { m with mem }

/-- The links behind an event. -/
def Links.step (L : Links) (m : MState) (fuel : Nat) : BinEvent → Except Fault Links
  | .insert p s => L.insertChunk m fuel p s
  | .unlink p s => L.unlinkChunk m fuel p s
  | .tag _ => return L

/-- The events one after the other. -/
def Links.run (fuel : Nat) : List BinEvent → MState → Links → Except Fault (MState × Links)
  | [], m, L => return (m, L)
  | e :: events, m, L => do
    let L ← L.step m fuel e
    Links.run fuel events (m.binStep e) L

end PrecisionGc.Dlmalloc
