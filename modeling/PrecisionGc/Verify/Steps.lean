import PrecisionGc.Model.Collect

/-!
# The steps of a collection

What a round of either loop, and a collection as a whole, has done if it returns. Nothing is assumed
of the heap, so whatever holds of every collection can be read off here.
-/

namespace PrecisionGc
open WhileLoop

variable {env : Env} {m m' : Memory} {q : Queue} {r r' : Memory × Queue} {v v' : Sweep}
  {s s' : State} {fuel : Nat} {freed : List Nat}

/-! ## The mark phase -/

/-- A round takes the first node off the queue, and marks its object if the object is to be traced.
-/
inductive MarkStep (env : Env) (m : Memory) (q : Queue) : Memory × Queue → Prop
  | traced {b next w q₁ q'} {m' : Memory} (hfirst : q.node q.head = .ok ⟨b, next⟩)
      (hmarked : m.marked env b = .ok false)
      (hprevious : m.previousPointer env b = .ok w) (hw : w ≠ sentinel)
      (hprocess : processHeapObjectRecursive env m ⟨b, 0⟩ none q = .ok q₁)
      (hmark : m.markBlock env b = .ok m') (hdequeue : q₁.dequeueHeapQueueNode = .ok q') :
      MarkStep env m q (m', q')
  | passed {b next marked w q'} (hfirst : q.node q.head = .ok ⟨b, next⟩)
      (hmarked : m.marked env b = .ok marked) (hprevious : m.previousPointer env b = .ok w)
      (hpass : marked = true ∨ w = sentinel) (hdequeue : q.dequeueHeapQueueNode = .ok q') :
      MarkStep env m q (m, q')

theorem markRound_cases (h : markRound env r = .ok r') : MarkStep env r.1 r.2 r' := by
  obtain ⟨m, q⟩ := r
  simp only [markRound] at h
  obtain ⟨⟨b, next⟩, hfirst, h⟩ := Except.bind_eq_ok.mp h
  obtain ⟨marked, hmarked, h⟩ := Except.bind_eq_ok.mp h
  obtain ⟨w, hprevious, h⟩ := Except.bind_eq_ok.mp h
  split at h
  next hguard =>
    obtain ⟨hno, hw⟩ : marked = false ∧ w ≠ sentinel := by simpa using hguard
    obtain ⟨q₁, hprocess, h⟩ := Except.bind_eq_ok.mp h
    obtain ⟨m', hmark, h⟩ := Except.bind_eq_ok.mp h
    obtain ⟨q', hdequeue, h⟩ := Except.bind_eq_ok.mp h
    obtain rfl := Except.ok.inj h
    exact .traced hfirst (hno ▸ hmarked) hprevious hw hprocess hmark hdequeue
  next hguard =>
    have hpass : marked = true ∨ w = sentinel := by
      cases marked with
      | true => exact .inl rfl
      | false => exact .inr (by simpa using hguard)
    obtain ⟨q', hdequeue, h⟩ := Except.bind_eq_ok.mp h
    obtain rfl := Except.ok.inj h
    exact .passed hfirst hmarked hprevious hpass hdequeue

/-- What every round keeps, the mark phase keeps. It ends when `q_head` is NULL. -/
theorem mark_invariant {P : Memory × Queue → Prop}
    (hstep : ∀ r r', P r → MarkStep env r.1 r.2 r' → P r') (hstart : P (m, q))
    (h : markReachableHeapObjects env fuel m q = .ok r) : P r ∧ r.2.head = 0 := by
  obtain ⟨H, hhead⟩ := whileM_invariant P
    (fun r r' hr _ hround => hstep r r' hr (markRound_cases hround)) hstart h
  exact ⟨H, by simpa using hhead⟩

/-! ## The sweep -/

/-- The link that led to the freed block has been redirected: `heap_list_head`, or the forward link
of the predecessor. -/
inductive ForwardStep (env : Env) (v : Sweep) (next : Nat) : Memory → Prop
  | head (h : v.mem.head env = v.current) : ForwardStep env v next (v.mem.setHead env next)
  | block {m' : Memory} (h : v.mem.head env ≠ v.current)
      (hset : v.mem.setNextPointer env v.previous next = .ok m') : ForwardStep env v next m'

/-- The back link of the block behind the freed one has been written, with the mark that it had. -/
inductive BackStep (env : Env) (previous next : Nat) (m : Memory) : Memory → Prop
  | last (h : next = 0) : BackStep env previous next m m
  | unmarked {m' : Memory} (h : next ≠ 0) (hmarked : m.marked env next = .ok false)
      (hset : m.setPreviousPointer env next previous = .ok m') : BackStep env previous next m m'
  | marked {m₁ m' : Memory} (h : next ≠ 0) (hmarked : m.marked env next = .ok true)
      (hset : m.setPreviousPointer env next previous = .ok m₁)
      (hmark : m₁.markBlock env next = .ok m') : BackStep env previous next m m'

/-- A round takes the mark off the current block, or frees it. -/
inductive SweepStep (env : Env) (v : Sweep) : Sweep → Prop
  | kept {next} {m' : Memory} (hmarked : v.mem.marked env v.current = .ok true)
      (hunmark : v.mem.unmarkBlock env v.current = .ok m')
      (hnext : m'.nextPointer env v.current = .ok next) :
      SweepStep env v ⟨m', v.current, next, v.freed⟩
  | freed {next} {m₁ m₂ m' : Memory} (hmarked : v.mem.marked env v.current = .ok false)
      (hnext : v.mem.nextPointer env v.current = .ok next)
      (hforward : ForwardStep env v next m₁) (hback : BackStep env v.previous next m₁ m₂)
      (hfree : m₂.myfree v.current = .ok m') :
      SweepStep env v ⟨m', v.previous, next, v.freed ++ [v.current]⟩

theorem sweepRound_cases (h : sweepRound env v = .ok v') : SweepStep env v v' := by
  simp only [sweepRound] at h
  obtain ⟨marked, hmarked, h⟩ := Except.bind_eq_ok.mp h
  cases marked with
  | true =>
    obtain ⟨m', hunmark, h⟩ := Except.bind_eq_ok.mp h
    obtain ⟨next, hnext, h⟩ := Except.bind_eq_ok.mp h
    obtain rfl := Except.ok.inj h
    exact .kept hmarked hunmark hnext
  | false =>
    obtain ⟨next, hnext, h⟩ := Except.bind_eq_ok.mp h
    obtain ⟨m₁, h₁, h⟩ := Except.bind_eq_ok.mp h
    obtain ⟨m₂, h₂, h⟩ := Except.bind_eq_ok.mp h
    obtain ⟨m', hfree, h⟩ := Except.bind_eq_ok.mp h
    obtain rfl := Except.ok.inj h
    have hforward : ForwardStep env v next m₁ := by
      split at h₁
      next hhead => exact Except.ok.inj h₁ ▸ .head hhead
      next hhead => exact .block hhead h₁
    have hback : BackStep env v.previous next m₁ m₂ := by
      split at h₂
      next hne =>
        obtain ⟨markPresent, hpresent, h₂⟩ := Except.bind_eq_ok.mp h₂
        obtain ⟨m₃, hset, h₂⟩ := Except.bind_eq_ok.mp h₂
        cases markPresent with
        | true => exact .marked hne hpresent hset h₂
        | false => exact Except.ok.inj h₂ ▸ .unmarked hne hpresent hset
      next hne => exact Except.ok.inj h₂ ▸ .last (not_not.mp hne)
    exact .freed hmarked hnext hforward hback hfree

/-- What every round keeps, the sweep keeps. -/
theorem sweep_invariant {P : Sweep → Prop} (hstep : ∀ v v', P v → SweepStep env v v' → P v')
    (hstart : P ⟨m, env.heapListHead, m.head env, []⟩)
    (h : sweep env fuel m = .ok (m', freed)) : ∃ v, P v ∧ v.mem = m' ∧ v.freed = freed := by
  obtain ⟨v, hv, h⟩ := Except.bind_eq_ok.mp h
  obtain ⟨rfl, rfl⟩ := Prod.mk.inj (Except.ok.inj h)
  obtain ⟨H, -⟩ := whileM_invariant P
    (fun v v' hv _ hround => hstep v v' hv (sweepRound_cases hround)) hstart hv
  exact ⟨v, H, rfl, rfl⟩

/-! ## The collection -/

/-- The state after a collection that leaves the memory `m'` and the queue `q`. -/
def State.collected (s : State) (m' : Memory) (q : Queue) (freed : List Nat) : State :=
  { s with
    toMemory := m'
    queue := q
    gcRunning := false
    numCollections := s.numCollections + 1
    collections := s.collections ++ [⟨s.toMemory, freed⟩] }

/-- The phases of a collection that returns. Both assertions have held. -/
theorem gcCollect_steps (h : gcCollect env fuel s = .ok s') :
    s.queue.head = 0 ∧ s.queue.tail = 0 ∧ ∃ q m₁ q' m' freed,
      scanRoots env s.toMemory s.queue = .ok q ∧
      markReachableHeapObjects env fuel s.toMemory q = .ok (m₁, q') ∧
      sweep env fuel m₁ = .ok (m', freed) ∧ s' = s.collected m' q' freed := by
  simp only [gcCollect] at h
  split at h
  · cases h
  next hhead =>
  split at h
  · cases h
  next htail =>
  obtain ⟨q, hscan, h⟩ := Except.bind_eq_ok.mp h
  obtain ⟨⟨m₁, q'⟩, hmark, h⟩ := Except.bind_eq_ok.mp h
  obtain ⟨⟨m', freed⟩, hsweep, h⟩ := Except.bind_eq_ok.mp h
  obtain rfl := Except.ok.inj h
  exact ⟨not_not.mp hhead, not_not.mp htail, q, m₁, q', m', freed, hscan, hmark, hsweep, rfl⟩

end PrecisionGc
