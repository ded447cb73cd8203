import PrecisionGc.Verify.Progress

/-!
# Calls without a collection

`gc_realloc` while no collection runs: wherever its argument stands in the list, and whatever the
allocator answers, the list changes at that place alone. Nothing is asked of the roots or of the
queue, which such a call does not look at.
-/

namespace PrecisionGc
open ByteStore LinkedList AbstractHeap WhileLoop

variable {env : Env} {s s' : State} {A B L : List Nat} {p fuel size ret : Nat}

/-- No collection runs during `gc_realloc(p, size)`. -/
def ReallocAnswer.Quiet (answer : ReallocAnswer) (s : State) (p size : Nat) : Prop :=
  if p = 0 then answer.alloc.collects s = false else size ≠ 0 → answer.collects size s = false

theorem ReallocAnswer.Quiet.collects {answer : ReallocAnswer} (hp : p ≠ 0) (hsize : size ≠ 0)
    (h : answer.Quiet s p size) : answer.collects size s = false := by
  rw [ReallocAnswer.Quiet, if_neg hp] at h
  exact h hsize

/-- `gc_malloc` without a collection pushes the new block. -/
theorem gcMalloc_pushes {answer : AllocAnswer} (henv : env.Sound) (hL : HeapList env s.toMemory L)
    (hquiet : answer.collects s = false)
    (h : gcMalloc env fuel answer size s = .ok (ret, s')) :
    HeapList env s'.toMemory (if ret = 0 then L else ret :: L) := by
  obtain ⟨s₀, s₁, h₀, htrig, hcases⟩ := gcMalloc_cases h
  obtain ⟨-, rfl⟩ := semWait_ok h₀
  have htrig := (if_neg (Bool.eq_false_iff.mp hquiet)).symm.trans htrig
  obtain rfl := Except.ok.inj htrig
  cases hcases with
  | refused => exact hL
  | @served g m _ hlegal henlist =>
    have hL₀ : HeapList env s.toMemory L := hL
    obtain ⟨m', hm', hlist, -⟩ := enlist_ok henv hL₀ hlegal
    obtain rfl := Except.ok.inj (hm'.symm.trans henlist)
    rw [if_neg (Grant.addr_ne_zero hlegal)]
    exact hlist

/-- `gc_realloc` of a block to another size without a collection: the block that is returned takes
the place of the argument, or the argument keeps it. -/
theorem gcRealloc_replaces {answer : ReallocAnswer} (henv : env.Sound)
    (hL : HeapList env s.toMemory (A ++ p :: B)) (hsize : size ≠ 0)
    (hquiet : answer.collects size s = false)
    (h : gcRealloc env fuel answer p size s = .ok (ret, s')) :
    HeapList env s'.toMemory (A ++ (if ret = 0 then p else ret) :: B) := by
  have hblock := hL.block p (by simp)
  obtain ⟨c, hc, hu, -⟩ := hblock.chunk
  obtain ⟨-, c', s₁, s₂, m', hs, hprev, hnext, htrig, hcases, hrelink, rfl⟩ :=
    gcRealloc_cases henv hblock.ne_zero hsize hc hu h
  rw [hquiet] at htrig
  obtain rfl := Except.ok.inj htrig
  obtain ⟨hp, hn⟩ := hL.links_eq hc
  rw [hp, hn] at hrelink
  obtain ⟨m, hm, hlist, -⟩ := hcases.relinked henv hL.called hc
    (hL.called.detached henv hc hs hprev hnext) (fun _ _ => trivial) fun _ _ _ => id
  obtain rfl := Except.ok.inj (hm.symm.trans hrelink)
  rw [kept_eq_self fun _ _ => trivial] at hlist
  exact hlist

/-- `try_realloc_chunk` has grown the chunk where it is. -/
def widenInPlace : ReallocAnswer := ⟨some ⟨64, .void, fun _ => 0⟩, ⟨false, none⟩⟩

/-- The second of two blocks is resized where it is and keeps its place. -/
example : Prod.fst <$> gcRealloc Env.flat 0 widenInPlace 0x410000 64 twoBlockState = .ok 0x410000 :=
  by decide +kernel

end PrecisionGc
