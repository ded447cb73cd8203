import PrecisionGc.Verify.Realloc

/-!
# A gc_realloc that fails

When `myrealloc` returns NULL, `gc_realloc` writes the links of its argument back as they were
before the call. After a collection in between they can be wrong: the predecessor that is remembered
may have been freed, and the successors may be marked, since the sweep stopped at the argument.
-/

namespace PrecisionGc
open ByteStore LinkedList AbstractHeap

variable {env : Env} {s s' s₁ s₂ : State} {A B L : List Nat} {b n p : Nat} {c c' : Chunk}
  {fuel size ret : Nat} {answer : ReallocAnswer}

/-- What a call of `gc_realloc` for a block `p` of the list `L` leaves if it is to have no effect
but that of a collection: `p` is on a well-formed list, with its user data; of the others only
garbage is gone, and no link leads to it. -/
structure Atomic (env : Env) (s : State) (L : List Nat) (p : Nat) (s' : State) : Prop where
  list : ∃ L', HeapList env s'.toMemory L' ∧ p ∈ L' ∧ L'.Sublist L ∧
    ∀ b ∈ L, b ∉ L' → ¬Reachable env (s.called p).toMemory b ∧ s'.chunks b = none
  data : ∀ c, s.chunks p = some c → ∃ c', s'.chunks p = some c' ∧ c.SameData env p c'
  links : ∀ b ∈ L, ∀ c, s'.chunks b = some c → ∀ x ∈ L, s'.chunks x = none →
    c.previous env b ≠ x ∧ c.next env b ≠ x

/-- The links of a well-formed list lead to blocks that are there. -/
theorem HeapList.links_live {m : Memory} {x : Nat} (hL : HeapList env m L) (hb : b ∈ L)
    (hx : m.chunks x = none) (hx0 : x ≠ 0) (hxh : x ≠ env.heapListHead) :
    m.prevWord env b ≠ x ∧ m.nextWord env b ≠ x := by
  have hxL : x ∉ L := fun h => by
    obtain ⟨c, hc, -⟩ := (hL.block x h).chunk
    rw [hx] at hc
    cases hc
  constructor
  · rintro rfl
    exact hL.linked.backed.all (P := (· ≠ m.prevWord env b)) hxh.symm
      (fun y hy e => hxL (e ▸ hy)) b hb rfl
  · rintro rfl
    exact (hL.linked.seg.next_mem hb).elim hx0 hxL

theorem Reallocated.of_zero (hp : p ≠ 0) (h : Reallocated env answer p size s₁ n s₂)
    (hn : n = 0) :
    s₂ = s₁ ∧ (size < maxRequest → answer.resize = none → answer.alloc.grant = none) := by
  cases h with
  | failed hf => exact ⟨rfl, hf⟩
  | resized => exact absurd hn hp
  | moved hr hg hlegal => exact absurd hn (Grant.addr_ne_zero hlegal)

/-- The state after a failed call: the memory `s₁` of the allocation with the old links of `p`. -/
theorem gcRealloc_failed (henv : env.Sound) (R : Ready env s (A ++ p :: B)) (hsize : size ≠ 0)
    (h : gcRealloc env fuel answer p size s = .ok (0, s')) :
    ∃ c c' s₁ c₁ c₂, Opened env s A p B (answer.collects size s) c c' s₁ ∧
      s₁.chunks p = some c₁ ∧ c.SameData env p c₁ ∧ c₁.SameData env p c₂ ∧
      c₂.previous env p = A.getLastD env.heapListHead ∧ c₂.next env p = B.headD 0 ∧
      s' = semPost { s₁ with toMemory := s₁.setChunk p (some c₂) } := by
  obtain ⟨c, c', s₁, s₂, m', O, hcases, hrelink, rfl⟩ := gcRealloc_opened henv R hsize h
  obtain ⟨rfl, -⟩ := hcases.of_zero (R.list.block p (by simp)).ne_zero rfl
  obtain ⟨c₁, hc₁, hs₁⟩ := O.detached.data c O.chunk
  have hu : minUsable ≤ c₁.usable := hs₁.usable ▸ R.list.sized p c O.chunk
  obtain ⟨c₂, hok, hs₂, hprev, hnext⟩ :=
    relink_failed henv hc₁ hu R.list.prev_lt R.list.next_lt
  obtain rfl := Except.ok.inj (hok.symm.trans hrelink)
  exact ⟨c, c', s₂, c₁, c₂, O, hc₁, hs₁, hs₂, hprev, hnext, rfl⟩

/-- Without a collection, or if that has kept the predecessor and marked no successor, a failed call
has no effect. -/
theorem gcRealloc_atomic (henv : env.Sound) (R : Ready env s (A ++ p :: B)) (hsize : size ≠ 0)
    (h : gcRealloc env fuel answer p size s = .ok (0, s'))
    (hcond : answer.collects size s = true →
      (∀ a, A.getLast? = some a → Reachable env (s.called p).toMemory a) ∧
      ∀ b ∈ B, ¬Reachable env (s.called p).toMemory b) :
    Atomic env s (A ++ p :: B) p s' := by
  obtain ⟨c, c', s₁, c₁, c₂, O, hc₁, hs₁, hs₂, hprev, hnext, rfl⟩ := gcRealloc_failed henv R hsize h
  have H := O.detached
  generalize hkeep : Survives env (s.called p) (answer.collects size s) = keep at H
  have hlist : HeapList env (s₁.setChunk p (some c₂)) (kept keep A ++ p :: B) :=
    H.restore R.list.called (fun a ha => hkeep ▸ fun hcol => (hcond hcol).1 a ha)
      (fun b hb hst => (hcond hst.1).2 b hb hst.2) hc₁ hs₂ hprev hnext
  have hgone : ∀ b ∈ A ++ p :: B, b ∉ kept keep A ++ p :: B → b ∈ A ∧ ¬keep b := fun b hb hb' => by
    simp only [List.mem_append, mem_kept, not_or, not_and] at hb hb'
    exact ⟨hb.resolve_right hb'.2, fun hk => hb'.1 (hb.resolve_right hb'.2) hk⟩
  have hnone : ∀ b ∈ A ++ p :: B, b ∉ kept keep A ++ p :: B →
      (s₁.setChunk p (some c₂)).chunks b = none := fun b hb hb' => by
    have hbp : b ≠ p := fun e => hb' (by simp [e])
    rw [Memory.setChunk_of_ne hbp]
    exact H.gone b (hgone b hb hb').1 (hgone b hb hb').2
  refine ⟨⟨_, hlist, by simp, kept_sublist.append (List.Sublist.refl _), fun b hb hb' => ?_⟩,
    fun c₀ hc₀ => ?_, fun b hb cb hcb x hx hnx => ?_⟩
  · refine ⟨fun hr => (hgone b hb hb').2 ?_, hnone b hb hb'⟩
    rw [← hkeep]
    exact fun _ => hr
  · obtain rfl : c = c₀ := Option.some.inj (O.chunk.symm.trans hc₀)
    exact ⟨c₂, Memory.setChunk_self, hs₁.trans hs₂⟩
  · have hcb : (s₁.setChunk p (some c₂)).chunks b = some cb := hcb
    have hbL : b ∈ kept keep A ++ p :: B := by
      by_contra hb'
      rw [hnone b hb hb'] at hcb
      cases hcb
    have hxb := R.list.block x hx
    rw [← Memory.prevWord_eq hcb, ← Memory.nextWord_eq hcb]
    exact hlist.links_live hbL hnx hxb.ne_zero hxb.notHead

/-- A freed predecessor stays in the back link of the argument, and a marked successor has no back
link any more. -/
theorem Atomic.neighbours (henv : env.Sound) (R : Ready env s (A ++ p :: B)) (hsize : size ≠ 0)
    (h : gcRealloc env fuel answer p size s = .ok (0, s'))
    (hatomic : Atomic env s (A ++ p :: B) p s') (hcol : answer.collects size s = true) :
    (∀ a, A.getLast? = some a → Reachable env (s.called p).toMemory a) ∧
      ∀ b ∈ B, ¬Reachable env (s.called p).toMemory b := by
  obtain ⟨c, c', s₁, c₁, c₂, O, hc₁, hs₁, hs₂, hprev, hnext, rfl⟩ := gcRealloc_failed henv R hsize h
  have H := O.detached
  obtain ⟨hA, hB, -⟩ := R.list.ne_of_mem fun _ => True
  simp only [mem_kept, and_true] at hA
  constructor
  · intro a ha
    by_contra hr
    have haA : a ∈ A := List.mem_of_getLast? ha
    have hgone : (s₁.setChunk p (some c₂)).chunks a = none := by
      rw [Memory.setChunk_of_ne (hA a haA)]
      exact H.gone a haA fun hk => hr (hk hcol)
    refine (hatomic.links p (by simp) c₂ Memory.setChunk_self a (by simp [haA]) hgone).1 ?_
    rw [hprev, List.getLastD_eq_getLast?, ha]
    rfl
  · intro b hb hr
    have hbL : b ∈ A ++ p :: B := by simp [hb]
    have hsame : (s₁.setChunk p (some c₂)).chunks b = s₁.chunks b := Memory.setChunk_of_ne (hB b hb)
    have hodd : (s₁.setChunk p (some c₂)).prevWord env b % 2 = 1 := by
      rw [Memory.prevWord_congr hsame, H.marked b hb ⟨hcol, hr⟩]
      exact or_one_odd
    obtain ⟨L', hL', -, -, hdropped⟩ := hatomic.list
    by_cases hb' : b ∈ L'
    · have heven : (s₁.setChunk p (some c₂)).prevWord env b % 2 = 0 := (hL'.unmarked henv b hb').1
      omega
    · obtain ⟨cb, hcb, -⟩ := (H.block b (by simp [hb])).chunk
      have hnone : (s₁.setChunk p (some c₂)).chunks b = none := (hdropped b hbL hb').2
      rw [hsame, hcb] at hnone
      cases hnone

/-- `myrealloc` collects and then fails. -/
def collectAndFail : ReallocAnswer := ⟨none, ⟨true, none⟩⟩

theorem twoBlockState_ready : Ready Env.flat twoBlockState [0x400000, 0x410000] :=
  ⟨twoBlockState_heapList, Queue.empty_represents, by decide, by decide⟩

end PrecisionGc
