import PrecisionGc.Verify.Trigger

/-!
# What the trigger's counter counts

Beside a run of requests, the sum that the counter stands for: the usable size of every block that
is handed out, with 16 bytes for its header, and what a block in use gains or loses, since the last
collection. Both `dlmalloc`, which adds to the counter at a label that failing requests reach too,
and `dlrealloc`, which may call `dlmalloc`, count on their own; the counter is the sum exactly in
the runs in which neither detour is taken.
-/

namespace PrecisionGc.Dlmalloc
open Runs

variable {c : Callees} {a a' : Allocator} {calls : List Call} {fuel bytes mem oldmem : Nat}

/-! ## Arithmetic in `long` -/

theorem wrapLong_add (i n : Int) : wrapLong (wrapLong i + n) = wrapLong (i + n) :=
  Int.bmod_add_bmod

theorem wrapLong_eq_iff {i j : Int} : wrapLong i = wrapLong j ↔ (2 ^ 64 : Int) ∣ i - j := by
  simp only [wrapLong, Int.bmod]
  omega

/-- A difference of sizes is counted as if the sizes had not been cut. -/
theorem wrapLong_resized (i : Int) (m n : Nat) :
    wrapLong (i + (toLong m - toLong n)) = wrapLong (i + (m - n)) := by
  rw [wrapLong_eq_iff]
  unfold toLong
  split <;> split <;> omega

theorem usableSize_zero (m : MState) : usableSize m 0 = 0 := rfl

theorem usableSize_lt (m : MState) (mem : Nat) : usableSize m mem < 2 ^ 64 := by
  unfold usableSize
  dsimp only
  split
  · exact Nat.mod_lt _ (by decide)
  · decide

/-! ## What a call adds -/

/-- The counter, or zero after a collection. -/
def since (calls : List Call) (n : Int) : Int := if .gcCollect ∈ calls then 0 else n

theorem since_nil (n : Int) : since [] n = n := if_neg List.not_mem_nil

/-- A pass of `dlmalloc` ends the call, or starts over after a collection. -/
theorem dlmalloc_cases (h : dlmalloc c (fuel + 1) bytes a = .ok (mem, a', calls)) :
    (∃ gm heapSize, .gcCollect ∉ calls ∧ a' = { a with gm, heapSize }.postaction mem) ∨
      ∃ gm heapSize calls', calls = .gcCollect :: calls' ∧
        dlmalloc c fuel bytes { a with gm, heapSize, allocatedSinceLastGC := 0 } =
          .ok (mem, a', calls') := by
  rw [dlmalloc] at h
  dsimp only at h
  cases hheap : fromHeap a.gm bytes (requestSize bytes) with
  | some r =>
    rw [hheap] at h
    simp only [Except.pure_def, Except.ok.injEq, Prod.mk.injEq] at h
    obtain ⟨rfl, rfl, rfl⟩ := h
    exact .inl ⟨_, _, List.not_mem_nil, rfl⟩
  | none =>
    rw [hheap] at h
    dsimp only at h
    by_cases hc : a.collects
    · rw [if_pos hc] at h
      obtain ⟨⟨mem', a₁, calls'⟩, hrec, h⟩ := Except.bind_eq_ok.mp h
      simp only [Except.pure_def, Except.ok.injEq, Prod.mk.injEq] at h
      obtain ⟨rfl, rfl, rfl⟩ := h
      exact .inr ⟨_, _, calls', rfl, hrec⟩
    · rw [if_neg hc] at h
      obtain ⟨r, -, h⟩ := Except.bind_eq_ok.mp h
      simp only [Except.pure_def, Except.ok.injEq, Prod.mk.injEq] at h
      obtain ⟨rfl, rfl, rfl⟩ := h
      exact .inl ⟨_, _, by simp, rfl⟩

/-- `dlmalloc` adds the usable size of the block and 16, also where there is no block. -/
theorem dlmalloc_count (h : dlmalloc c fuel bytes a = .ok (mem, a', calls)) :
    a'.allocatedSinceLastGC =
      wrapLong (since calls a.allocatedSinceLastGC + (usableSize a'.gm mem + 16)) := by
  induction fuel generalizing a calls with
  | zero => cases h
  | succ fuel ih =>
    rcases dlmalloc_cases h with ⟨gm, heapSize, hnot, rfl⟩ | ⟨gm, heapSize, calls', rfl, hrec⟩
    · rw [since, if_neg hnot]
      rfl
    · rw [ih hrec, since, since, if_pos List.mem_cons_self, ite_self]

theorem resized_gm (a : Allocator) (oldSize : Int) (mem : Nat) :
    (a.resized oldSize mem).gm = a.gm := by
  unfold Allocator.resized
  dsimp only
  split <;> rfl

theorem resized_zero (a : Allocator) (oldSize : Int) : a.resized oldSize 0 = a := by
  unfold Allocator.resized
  rw [usableSize_zero]
  exact if_neg (by decide)

theorem resized_count {oldSize : Int} (h : 0 < toLong (usableSize a.gm mem)) :
    (a.resized oldSize mem).allocatedSinceLastGC =
      wrapLong (a.allocatedSinceLastGC + (toLong (usableSize a.gm mem) - oldSize)) := by
  rw [Allocator.resized, if_pos h]
  rfl

/-- `dlrealloc` refuses, resizes the block in place, or asks `dlmalloc` for another one. -/
theorem dlrealloc_cases (hold : oldmem ≠ 0)
    (h : dlrealloc c fuel oldmem bytes a = .ok (mem, a', calls)) :
    (maxRequest ≤ bytes ∧ mem = 0 ∧ a' = a ∧ calls = []) ∨
      ∃ newp gm,
        c.tryReallocChunk a.gm (subSize oldmem 16) (request2size bytes) = (newp, gm) ∧
        (newp ≠ 0 ∧ mem = chunk2mem newp ∧ calls = [] ∧
            a' = { a with gm }.resized (toLong (usableSize a.gm oldmem)) mem ∨
          newp = 0 ∧ ¬maxRequest ≤ bytes ∧
            ∃ a₁, dlmalloc c fuel bytes { a with gm } = .ok (mem, a₁, calls) ∧
              (mem = 0 ∧ a' = a₁ ∨ mem ≠ 0 ∧ a' = { a₁ with gm := c.dlfree a₁.gm oldmem }.resized
                (toLong (usableSize a.gm oldmem)) mem)) := by
  unfold dlrealloc at h
  rw [if_neg hold] at h
  split at h
  · simp only [Except.pure_def, Except.ok.injEq, Prod.mk.injEq] at h
    exact .inl ⟨‹_›, h.1.symm, h.2.1.symm, h.2.2.symm⟩
  rename_i hmax
  dsimp only at h
  split at h
  case h_1 gm htry =>
    obtain ⟨⟨mem', a₁, calls'⟩, hrec, h⟩ := Except.bind_eq_ok.mp h
    dsimp only at h
    split at h
    · simp only [Except.pure_def, Except.ok.injEq, Prod.mk.injEq] at h
      obtain ⟨rfl, rfl, rfl⟩ := h
      exact .inr ⟨0, gm, htry, .inr ⟨rfl, hmax, a₁, ‹mem' = 0› ▸ hrec, .inl ⟨rfl, rfl⟩⟩⟩
    · simp only [Except.pure_def, Except.ok.injEq, Prod.mk.injEq] at h
      obtain ⟨rfl, rfl, rfl⟩ := h
      exact .inr ⟨0, gm, htry, .inr ⟨rfl, hmax, a₁, hrec, .inr ⟨‹_›, rfl⟩⟩⟩
  case h_2 newp gm hne htry =>
    simp only [Except.pure_def, Except.ok.injEq, Prod.mk.injEq] at h
    obtain ⟨rfl, rfl, rfl⟩ := h
    exact .inr ⟨newp, gm, htry, .inl ⟨hne, rfl, rfl, rfl⟩⟩

/-! ## Runs -/

/-- What the program asks of the allocator, and the calls of `gc_collect` and `gc_init` that it
makes itself. -/
inductive Request
  | malloc (c : Callees) (bytes : Nat)
  | free (c : Callees) (mem : Nat)
  | realloc (c : Callees) (oldmem bytes : Nat)
  | gcCollect (c : Callees)
  | gcInit

/-- An allocator beside what its counter stands for. -/
structure Account where
  allocator : Allocator
  /-- what was handed out since the last collection -/
  sum : Int

/-- What a block that `dlmalloc` has handed out is worth. -/
def worth (m : MState) (mem : Nat) : Int := if mem = 0 then 0 else usableSize m mem + 16

/-- What a block in use has gained when it is handed out again at `mem`. -/
def gain (old new : MState) (oldmem mem : Nat) : Int :=
  if mem = 0 then 0 else usableSize new mem - usableSize old oldmem

/-- A request, with its worth. -/
def serve (fuel : Nat) (x : Account) : Request → Except Fault Account
  | .malloc c bytes => do
    let (mem, a, calls) ← dlmalloc c fuel bytes x.allocator
    return ⟨a, since calls x.sum + worth a.gm mem⟩
  | .free c mem =>
    return { x with allocator := { x.allocator with gm := c.dlfree x.allocator.gm mem } }
  | .realloc c oldmem bytes => do
    let (mem, a, calls) ← dlrealloc c fuel oldmem bytes x.allocator
    return ⟨a, since calls x.sum +
      if oldmem = 0 then worth a.gm mem else gain x.allocator.gm a.gm oldmem mem⟩
  | .gcCollect c =>
    return ⟨{ x.allocator with gm := c.gcCollect x.allocator.gm }, 0⟩
  | .gcInit => return { x with allocator := { x.allocator with gcInitialised := true } }

/-- The counter is the sum, as a `long`. -/
def Balanced (x : Account) : Prop := x.allocator.allocatedSinceLastGC = wrapLong x.sum

/-- `dlmalloc` does not return NULL. -/
def Answered (c : Callees) (fuel bytes : Nat) (a : Allocator) : Prop :=
  ∀ mem a' calls, dlmalloc c fuel bytes a = .ok (mem, a', calls) → mem ≠ 0

/-- The usable sizes of the blocks that a resizing request is handed are positive, as a `long`. -/
def Sized (fuel : Nat) (x : Account) : Request → Prop
  | .realloc c oldmem bytes =>
      (∀ mem a calls, dlrealloc c fuel oldmem bytes x.allocator = .ok (mem, a, calls) → mem ≠ 0 →
        0 < toLong (usableSize a.gm mem)) ∧
      ∀ newp gm mem a calls,
        c.tryReallocChunk x.allocator.gm (subSize oldmem 16) (request2size bytes) = (newp, gm) →
        dlmalloc c fuel bytes { x.allocator with gm } = .ok (mem, a, calls) → mem ≠ 0 →
        0 < toLong (usableSize a.gm mem)
  | _ => True

/-- The request is not refused by `dlmalloc`, a block is resized where it is, and the program
collects only when nothing is counted. -/
def Regular (fuel : Nat) (x : Account) : Request → Prop
  | .malloc c bytes => Answered c fuel bytes x.allocator
  | .realloc c oldmem bytes =>
      if oldmem = 0 then Answered c fuel bytes x.allocator
      else maxRequest ≤ bytes ∨
        (c.tryReallocChunk x.allocator.gm (subSize oldmem 16) (request2size bytes)).1 ≠ 0
  | .gcCollect _ => x.allocator.allocatedSinceLastGC = 0
  | _ => True

section

variable {x y : Account}

theorem Balanced.since (hx : Balanced x) (calls : List Call) :
    since calls x.allocator.allocatedSinceLastGC = wrapLong (since calls x.sum) := by
  unfold Dlmalloc.since
  split
  · rfl
  · exact hx

/-- The counter after `dlmalloc`. -/
theorem Balanced.dlmalloc_count (hx : Balanced x) {gm : MState}
    (h : dlmalloc c fuel bytes { x.allocator with gm } = .ok (mem, a', calls)) :
    a'.allocatedSinceLastGC =
      wrapLong (Dlmalloc.since calls x.sum + (usableSize a'.gm mem + 16)) := by
  rw [Dlmalloc.dlmalloc_count h, hx.since, wrapLong_add]

theorem balanced_mk {n : Int} : Balanced ⟨a, n⟩ ↔ a.allocatedSinceLastGC = wrapLong n := Iff.rfl

/-- The counter is off by 16 after a request that is refused. -/
theorem Balanced.malloc_iff (hx : Balanced x)
    (h : dlmalloc c fuel bytes x.allocator = .ok (mem, a', calls)) :
    Balanced ⟨a', Dlmalloc.since calls x.sum + worth a'.gm mem⟩ ↔
      Answered c fuel bytes x.allocator := by
  have hans : Answered c fuel bytes x.allocator ↔ mem ≠ 0 := by
    refine ⟨fun hans => hans _ _ _ h, fun hmem mem' a'' calls' h' => ?_⟩
    obtain ⟨rfl, -⟩ := Prod.mk.inj (Except.ok.inj (h.symm.trans h'))
    exact hmem
  have hcount : a'.allocatedSinceLastGC =
      wrapLong (Dlmalloc.since calls x.sum + (usableSize a'.gm mem + 16)) := hx.dlmalloc_count h
  rw [hans, balanced_mk, hcount, worth, wrapLong_eq_iff]
  split
  case isTrue hmem =>
    rw [hmem, usableSize_zero]
    refine iff_of_false ?_ (not_not.mpr rfl)
    omega
  case isFalse hmem => simp [hmem]

/-- A block that is resized in place is counted for what it gains. -/
theorem Balanced.resized (hx : Balanced x) {gm : MState}
    (hnew : mem ≠ 0 → 0 < toLong (usableSize gm mem)) :
    ({ x.allocator with gm }.resized (toLong (usableSize x.allocator.gm oldmem))
        mem).allocatedSinceLastGC = wrapLong (x.sum + gain x.allocator.gm gm oldmem mem) := by
  rw [gain]
  split
  case isTrue hmem =>
    rw [hmem, resized_zero, add_zero]
    exact hx
  case isFalse hmem =>
    rw [resized_count (a := { x.allocator with gm }) (hnew hmem)]
    change wrapLong (x.allocator.allocatedSinceLastGC + _) = _
    rw [show x.allocator.allocatedSinceLastGC = wrapLong x.sum from hx, wrapLong_add,
      wrapLong_resized]

/-- A block that moves is counted in full besides. -/
theorem Balanced.moved_ne (hx : Balanced x) {gm gm' : MState}
    (h : dlmalloc c fuel bytes { x.allocator with gm } = .ok (mem, a, calls)) (hmem : mem ≠ 0)
    (hsize : 0 < toLong (usableSize a.gm mem)) (hnew : 0 < toLong (usableSize gm' mem)) :
    ({ a with gm := gm' }.resized (toLong (usableSize x.allocator.gm oldmem))
        mem).allocatedSinceLastGC ≠
      wrapLong (Dlmalloc.since calls x.sum + gain x.allocator.gm gm' oldmem mem) := by
  have hlt := usableSize_lt a.gm mem
  rw [gain, resized_count (a := { a with gm := gm' }) hnew, if_neg hmem]
  change wrapLong (a.allocatedSinceLastGC + _) ≠ _
  rw [hx.dlmalloc_count h, wrapLong_add, wrapLong_resized, Ne, wrapLong_eq_iff]
  unfold toLong at hsize
  dsimp only
  split at hsize <;> omega

/-- `dlrealloc` keeps the balance if it does without `dlmalloc`. -/
theorem Balanced.realloc_iff (hx : Balanced x) (hold : oldmem ≠ 0)
    (hsized : Sized fuel x (.realloc c oldmem bytes))
    (h : dlrealloc c fuel oldmem bytes x.allocator = .ok (mem, a', calls)) :
    Balanced ⟨a', Dlmalloc.since calls x.sum + gain x.allocator.gm a'.gm oldmem mem⟩ ↔
      maxRequest ≤ bytes ∨
        (c.tryReallocChunk x.allocator.gm (subSize oldmem 16) (request2size bytes)).1 ≠ 0 := by
  obtain ⟨hnew, hmalloc⟩ := hsized
  have hnew := hnew _ _ _ h
  rw [balanced_mk]
  rcases dlrealloc_cases hold h with ⟨hmax, rfl, rfl, rfl⟩ | ⟨newp, gm, htry, hcase⟩
  · rw [gain, if_pos rfl, add_zero, since_nil]
    exact iff_of_true hx (.inl hmax)
  rw [htry]
  rcases hcase with ⟨hne, -, rfl, rfl⟩ | ⟨rfl, hmax, a₁, hrec, hcase⟩
  · rw [resized_gm] at hnew ⊢
    rw [since_nil]
    exact iff_of_true (hx.resized hnew) (.inr hne)
  refine iff_of_false ?_ fun hor => hor.elim hmax fun hne => hne rfl
  rcases hcase with ⟨rfl, rfl⟩ | ⟨hmem, rfl⟩
  · rw [gain, if_pos rfl, hx.dlmalloc_count hrec, usableSize_zero, wrapLong_eq_iff]
    omega
  · rw [resized_gm] at hnew ⊢
    exact hx.moved_ne hrec hmem (hmalloc _ _ _ _ _ htry hrec hmem) (hnew hmem)

/-- A request keeps the balance exactly if it is regular. -/
theorem serve_balanced_iff {req : Request} (hx : Balanced x) (hsized : Sized fuel x req)
    (h : serve fuel x req = .ok y) : Balanced y ↔ Regular fuel x req := by
  cases req with
  | malloc c bytes =>
    obtain ⟨⟨mem, a', calls⟩, hr, h⟩ := Except.bind_eq_ok.mp h
    exact Except.ok.inj h ▸ hx.malloc_iff hr
  | free c mem => exact Except.ok.inj h ▸ iff_of_true hx trivial
  | realloc c oldmem bytes =>
    obtain ⟨⟨mem, a', calls⟩, hr, h⟩ := Except.bind_eq_ok.mp h
    obtain rfl := Except.ok.inj h
    by_cases hold : oldmem = 0
    · rw [dlrealloc, if_pos hold] at hr
      simpa only [Regular, if_pos hold] using hx.malloc_iff hr
    · simpa only [Regular, if_neg hold] using hx.realloc_iff hold hsized hr
  | gcCollect c => exact Except.ok.inj h ▸ Iff.rfl
  | gcInit => exact Except.ok.inj h ▸ iff_of_true hx trivial

/-- Over a run, the counter is the sum after each request exactly if each request is regular. -/
theorem run_balanced_iff {reqs : List Request} (hx : Balanced x)
    (hrun : Along (serve fuel) (Sized fuel) x reqs) :
    Along (serve fuel) (fun x req => ∀ y, serve fuel x req = .ok y → Balanced y) x reqs ↔
      Along (serve fuel) (fun x req => ∀ y, serve fuel x req = .ok y → Regular fuel x req) x
        reqs := by
  refine hrun.iff (P := Balanced) (fun x req hx hsized => ?_) (fun x req y _ _ hy h => hy y h) hx
  exact forall₂_congr fun y h => serve_balanced_iff hx hsized h

end

/-- The program starts with nothing allocated. -/
def Account.start : Account := ⟨⟨.start, 0, 0, false⟩, 0⟩

/-- The first request is for more than there can be. -/
def refusedRun : List Request := [.malloc idle maxSizeT]

theorem run_balanced_iff_refusedRun :
    Along (serve 2) (fun x req => ∀ y, serve 2 x req = .ok y → Balanced y) .start refusedRun ↔
      Along (serve 2) (fun x req => ∀ y, serve 2 x req = .ok y → Regular 2 x req) .start
        refusedRun :=
  run_balanced_iff (show Balanced .start from rfl) ⟨trivial, fun _ _ => trivial⟩

/-- 16 bytes are counted for a request that is refused. -/
theorem not_balanced_refusedRun : ∃ y, refusedRun.foldlM (serve 2) .start = .ok y ∧
    y.sum = 0 ∧ y.allocator.allocatedSinceLastGC = 16 ∧ ¬Balanced y := by
  have hrun : (fun y => (y.sum, y.allocator.allocatedSinceLastGC)) <$>
      refusedRun.foldlM (serve 2) .start = .ok (0, 16) := by
    decide +kernel
  obtain ⟨y, hy, hrun⟩ := Except.map_eq_ok.mp hrun
  obtain ⟨hsum, hcount⟩ := Prod.mk.inj hrun
  refine ⟨y, hy, hsum, hcount, ?_⟩
  rw [Balanced, hsum, hcount]
  decide

end PrecisionGc.Dlmalloc
