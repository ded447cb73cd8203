import PrecisionGc.Verify.Recognised

/-!
# The published address range

`__mymalloc_lowest` and `__mymalloc_highest` tell code outside the collector where its blocks are.
`gc_malloc` widens the range to each block that it returns, and nothing else writes the two words: a
block that `gc_realloc` moves is in the range exactly if its new address happened to be there
before. The runs here need not be harmless.
-/

namespace PrecisionGc
open ByteStore WhileLoop Runs

variable {env : Env} {m m' m'' : Memory} {s s' s₁ : State} {a b n p w w' fuel size ret : Nat}
  {call : Call} {x x' : Session} {calls : List Call}

/-! ## What is written in the segments -/

/-- Of the scanned segments only the word `heap_list_head` may have changed. -/
structure HeadOnly (env : Env) (m m' : Memory) : Prop where
  seg : ∀ a, apart env.heapListHead a = true → m'.seg a = m.seg a

namespace HeadOnly

theorem refl (m : Memory) : HeadOnly env m m := ⟨fun _ _ => rfl⟩

theorem of_segs (h : m'.segs = m.segs) : HeadOnly env m m' := by
  refine ⟨fun a _ => ?_⟩
  simp only [Memory.seg, h]

theorem trans (h : HeadOnly env m m') (h' : HeadOnly env m' m'') : HeadOnly env m m'' :=
  ⟨fun a ha => (h'.seg a ha).trans (h.seg a ha)⟩

theorem setHead : HeadOnly env m (m.setHead env w) := by
  refine ⟨fun a ha => seg_setSeg_of_apart ?_⟩
  rwa [apart_comm]

end HeadOnly

namespace Memory

theorem setPreviousPointer_segs (h : m.setPreviousPointer env b w = .ok m') :
    m'.segs = m.segs := by
  obtain ⟨c, -, h⟩ := Except.bind_eq_ok.mp h
  exact Except.ok.inj h ▸ rfl

theorem setNextPointer_segs (h : m.setNextPointer env b w = .ok m') : m'.segs = m.segs := by
  obtain ⟨c, -, h⟩ := Except.bind_eq_ok.mp h
  exact Except.ok.inj h ▸ rfl

theorem markBlock_segs (h : m.markBlock env b = .ok m') : m'.segs = m.segs := by
  obtain ⟨w, -, h⟩ := Except.bind_eq_ok.mp h
  exact setPreviousPointer_segs h

theorem unmarkBlock_segs (h : m.unmarkBlock env b = .ok m') : m'.segs = m.segs := by
  obtain ⟨w, -, h⟩ := Except.bind_eq_ok.mp h
  exact setPreviousPointer_segs h

theorem myfree_segs (h : m.myfree b = .ok m') : m'.segs = m.segs := by
  obtain ⟨c, -, h⟩ := Except.bind_eq_ok.mp h
  exact Except.ok.inj h ▸ rfl

theorem linkBack_segs (h : m.linkBack env n b = .ok m') : m'.segs = m.segs := by
  unfold linkBack at h
  split at h
  · exact setPreviousPointer_segs h
  · exact Except.ok.inj h ▸ rfl

theorem linkForward_headOnly (h : m.linkForward env p b = .ok m') : HeadOnly env m m' := by
  unfold linkForward at h
  split at h
  · exact .of_segs (setNextPointer_segs h)
  · exact Except.ok.inj h ▸ .setHead

end Memory

theorem clearUserData_segs (h : clearUserData env m b = .ok m') : m'.segs = m.segs := by
  obtain ⟨c, -, h⟩ := Except.bind_eq_ok.mp h
  exact Except.ok.inj h ▸ rfl

theorem MarkStep.segs {q : Queue} {r : Memory × Queue} (h : MarkStep env m q r) :
    r.1.segs = m.segs := by
  cases h with
  | traced _ _ _ _ _ hmark _ => exact Memory.markBlock_segs hmark
  | passed => rfl

theorem mark_segs {q q' : Queue} (h : markReachableHeapObjects env fuel m q = .ok (m', q')) :
    m'.segs = m.segs :=
  (mark_invariant (P := fun r => r.1.segs = m.segs)
    (fun _ _ hr hstep => hstep.segs.trans hr) rfl h).1

theorem ForwardStep.headOnly {v : Sweep} (h : ForwardStep env v n m') : HeadOnly env v.mem m' := by
  cases h with
  | head => exact .setHead
  | block _ hset => exact .of_segs (Memory.setNextPointer_segs hset)

theorem BackStep.segs (h : BackStep env p n m m') : m'.segs = m.segs := by
  cases h with
  | last => rfl
  | unmarked _ _ hset => exact Memory.setPreviousPointer_segs hset
  | marked _ _ hset hmark =>
    exact (Memory.markBlock_segs hmark).trans (Memory.setPreviousPointer_segs hset)

theorem SweepStep.headOnly {v v' : Sweep} (h : SweepStep env v v') :
    HeadOnly env v.mem v'.mem := by
  cases h with
  | kept _ hunmark _ => exact .of_segs (Memory.unmarkBlock_segs hunmark)
  | freed _ _ hforward hback hfree =>
    exact hforward.headOnly.trans (.of_segs ((Memory.myfree_segs hfree).trans hback.segs))

theorem sweep_headOnly {freed : List Nat} (h : sweep env fuel m = .ok (m', freed)) :
    HeadOnly env m m' := by
  obtain ⟨v, H, rfl, -⟩ := sweep_invariant (P := fun v => HeadOnly env m v.mem)
    (fun _ _ hv hstep => hv.trans hstep.headOnly) (.refl m) h
  exact H

theorem gcCollect_headOnly (h : gcCollect env fuel s = .ok s') :
    HeadOnly env s.toMemory s'.toMemory := by
  obtain ⟨-, -, q, m₁, q', m', freed, -, hmark, hsweep, rfl⟩ := gcCollect_steps h
  have H : HeadOnly env s.toMemory m' :=
    (HeadOnly.of_segs (mark_segs hmark)).trans (sweep_headOnly hsweep)
  exact H

theorem trigger_headOnly {collects : Bool}
    (h : (if collects then gcCollect env fuel s else pure s) = .ok s₁) :
    HeadOnly env s.toMemory s₁.toMemory := by
  cases collects with
  | true => exact gcCollect_headOnly h
  | false => exact Except.ok.inj h ▸ .refl _

/-- Behind `mymalloc` the range is widened, and nothing else in the segments but the head of the
list is written. -/
theorem enlist_headOnly (h : enlist env n m = .ok m') :
    HeadOnly env (widenRange env n m) m' := by
  obtain ⟨m₁, h₁, h⟩ := Except.bind_eq_ok.mp h
  obtain ⟨m₂, h₂, h⟩ := Except.bind_eq_ok.mp h
  obtain ⟨m₃, h₃, h⟩ := Except.bind_eq_ok.mp h
  obtain ⟨m₄, h₄, h⟩ := Except.bind_eq_ok.mp h
  obtain rfl := Except.ok.inj h
  have hsegs : m₄.segs = (widenRange env n m).segs := by
    rw [Memory.linkBack_segs h₄, Memory.setNextPointer_segs h₃, Memory.setPreviousPointer_segs h₂,
      clearUserData_segs h₁]
  exact (HeadOnly.of_segs hsegs).trans (HeadOnly.setHead.trans (.of_segs newBigalloc_segs))

/-- Behind `myrealloc` the range is not widened. -/
theorem relink_headOnly (h : relink env p n w w' m = .ok m') : HeadOnly env m m' := by
  unfold relink at h
  split at h
  · obtain ⟨m₁, h₁, h⟩ := Except.bind_eq_ok.mp h
    exact .of_segs ((Memory.setNextPointer_segs h).trans (Memory.setPreviousPointer_segs h₁))
  · obtain ⟨m₁, h₁, h⟩ := Except.bind_eq_ok.mp h
    obtain ⟨m₂, h₂, h⟩ := Except.bind_eq_ok.mp h
    obtain ⟨m₃, h₃, h⟩ := Except.bind_eq_ok.mp h
    have hsegs : m₃.segs = m.segs := by
      rw [Memory.setNextPointer_segs h₃, Memory.setPreviousPointer_segs h₂, clearUserData_segs h₁]
    refine .trans (.of_segs hsegs) ?_
    split at h
    · exact Except.ok.inj h ▸ .refl _
    · obtain ⟨m₄, h₄, h⟩ := Except.bind_eq_ok.mp h
      obtain ⟨m₅, h₅, h⟩ := Except.bind_eq_ok.mp h
      obtain rfl := Except.ok.inj h
      exact (Memory.linkForward_headOnly h₄).trans
        (.of_segs (newBigalloc_segs.trans (Memory.linkBack_segs h₅)))

/-! ## The range -/

/-- The address lies in the range that is published. -/
def Memory.InRange (env : Env) (m : Memory) (b : Nat) : Prop :=
  m.seg env.mymallocLowest ≤ b ∧ b ≤ m.seg env.mymallocHighest

theorem Env.Sound.range_apart (henv : env.Sound) :
    apart env.heapListHead env.mymallocLowest = true ∧
      apart env.heapListHead env.mymallocHighest = true ∧
      apart env.mymallocLowest env.mymallocHighest = true := by
  have h := henv.staticsApart
  simp only [Env.statics, List.pairwise_cons, List.mem_cons, forall_eq_or_imp] at h
  exact ⟨h.1.1, h.1.2.1, h.2.1.1⟩

theorem HeadOnly.inRange_iff (henv : env.Sound) (h : HeadOnly env m m') :
    m'.InRange env b ↔ m.InRange env b := by
  obtain ⟨hlowest, hhighest, -⟩ := henv.range_apart
  simp only [Memory.InRange, h.seg _ hlowest, h.seg _ hhighest]

theorem Mutated.inRange_iff (h : Mutated env m m') : m'.InRange env b ↔ m.InRange env b := by
  have hlowest := h.statics env.mymallocLowest (by simp [Env.statics])
  have hhighest := h.statics env.mymallocHighest (by simp [Env.statics])
  simp only [Memory.InRange, hlowest, hhighest]

theorem seg_setSeg_self (hw : w < 2 ^ 64) : (m.setSeg a w).seg a = w := readLE_writeLE hw

theorem widenRange_lowest (henv : env.Sound) (hb : b < 2 ^ 64) :
    (widenRange env b m).seg env.mymallocLowest = min b (m.seg env.mymallocLowest) := by
  obtain ⟨-, -, hapart⟩ := henv.range_apart
  simp only [widenRange]
  split
  next h =>
    have hset : (m.setSeg env.mymallocLowest b).seg env.mymallocLowest = b := seg_setSeg_self hb
    split
    · rw [seg_setSeg_of_apart hapart, hset, Nat.min_eq_left h.le]
    · rw [hset, Nat.min_eq_left h.le]
  next h =>
    have h := not_lt.mp h
    split
    · rw [seg_setSeg_of_apart hapart, Nat.min_eq_right h]
    · rw [Nat.min_eq_right h]

theorem widenRange_highest (henv : env.Sound) (hb : b < 2 ^ 64) :
    (widenRange env b m).seg env.mymallocHighest = max b (m.seg env.mymallocHighest) := by
  obtain ⟨-, -, hapart⟩ := henv.range_apart
  rw [apart_comm] at hapart
  simp only [widenRange]
  have hsame : (if b < m.seg env.mymallocLowest then m.setSeg env.mymallocLowest b else m).seg
      env.mymallocHighest = m.seg env.mymallocHighest := by
    split
    · exact seg_setSeg_of_apart hapart
    · rfl
  generalize (if b < m.seg env.mymallocLowest then m.setSeg env.mymallocLowest b else m) = m₁
    at hsame ⊢
  rw [hsame]
  split
  next h => rw [seg_setSeg_self hb, Nat.max_eq_left h.le]
  next h => rw [hsame, Nat.max_eq_right (not_lt.mp h)]

/-- The new block is in the range, and so is what was there before. -/
theorem inRange_widenRange (henv : env.Sound) (hn : n < 2 ^ 64) (hb : b = n ∨ m.InRange env b) :
    (widenRange env n m).InRange env b := by
  rw [Memory.InRange, widenRange_lowest henv hn, widenRange_highest henv hn]
  rcases hb with rfl | ⟨hlowest, hhighest⟩
  · exact ⟨Nat.min_le_left _ _, Nat.le_max_left _ _⟩
  · exact ⟨(Nat.min_le_right _ _).trans hlowest, hhighest.trans (Nat.le_max_right _ _)⟩

/-! ## Calls -/

theorem gcMalloc_inRange {answer : AllocAnswer} (henv : env.Sound)
    (h : gcMalloc env fuel answer size s = .ok (ret, s'))
    (hb : ret ≠ 0 ∧ b = ret ∨ s.InRange env b) : s'.InRange env b := by
  obtain ⟨s₀, s₁, h₀, htrig, hcases⟩ := gcMalloc_cases h
  obtain ⟨-, rfl⟩ := semWait_ok h₀
  have H₁ : HeadOnly env s.toMemory s₁.toMemory :=
    trigger_headOnly (s := { s with allocatorMutex := s.allocatorMutex - 1 }) htrig
  cases hcases with
  | refused => exact (H₁.inRange_iff henv).mpr (hb.resolve_left fun hb => hb.1 rfl)
  | @served g m _ hlegal henlist =>
    have hlt : g.addr < 2 ^ 64 := by
      have := isPlausiblePointer_iff.mp (Grant.legal_iff.mp hlegal).1
      omega
    refine ((enlist_headOnly henlist).inRange_iff henv).mpr (inRange_widenRange henv hlt ?_)
    exact hb.imp And.right (H₁.inRange_iff henv).mpr

theorem dlrealloc_headOnly {answer : ReallocAnswer}
    (h : dlrealloc env fuel answer p size s = .ok (n, s')) :
    HeadOnly env s.toMemory s'.toMemory := by
  obtain ⟨s₁, htrig, hcases⟩ := dlrealloc_cases h
  have H₁ := trigger_headOnly htrig
  cases hcases with
  | failed => exact H₁
  | resized => exact H₁.trans (.of_segs rfl)
  | moved => exact H₁.trans (.of_segs rfl)

/-- `gc_realloc` of a block leaves the range as it is. -/
theorem gcRealloc_headOnly {answer : ReallocAnswer} (hp : p ≠ 0)
    (h : gcRealloc env fuel answer p size s = .ok (ret, s')) :
    HeadOnly env s.toMemory s'.toMemory := by
  by_cases hsize : size = 0
  · subst hsize
    obtain ⟨s₀, previous, next, m', h₀, -, -, hm, -, rfl⟩ := gcRealloc_zero_steps hp h
    obtain ⟨-, rfl⟩ := semWait_ok h₀
    obtain ⟨m₁, h₁, hm⟩ := Except.bind_eq_ok.mp hm
    obtain ⟨m₂, h₂, hm⟩ := Except.bind_eq_ok.mp hm
    have hsegs : m'.segs = m₁.segs := (Memory.myfree_segs hm).trans (Memory.linkBack_segs h₂)
    have H₁ : HeadOnly env s.toMemory m₁ := ⟨(Memory.linkForward_headOnly h₁).seg⟩
    exact H₁.trans (.of_segs hsegs)
  · obtain ⟨s₀, m₁, m₂, s₂, m', h₀, h₁, h₂, hrealloc, ⟨w, w', hrelink⟩, rfl⟩ :=
      gcRealloc_steps hp hsize h
    obtain ⟨-, rfl⟩ := semWait_ok h₀
    have hsegs := (Memory.setNextPointer_segs h₂).trans (Memory.setPreviousPointer_segs h₁)
    have hsegs : m₂.segs = s.segs := hsegs
    exact (HeadOnly.of_segs hsegs).trans
      ((dlrealloc_headOnly hrealloc).trans (relink_headOnly hrelink))

/-- The address to which the call moves a block, if it does. -/
def Call.movesTo : Call → Option Nat
  | .realloc p size answer =>
    if p ≠ 0 ∧ size ≠ 0 ∧ size < maxRequest ∧ answer.resize.isNone then
      answer.alloc.grant.map (·.addr)
    else none
  | _ => none

/-- `gc_realloc` of a block returns NULL, its argument, or the address to which it has moved it. -/
theorem gcRealloc_returns {answer : ReallocAnswer} (hp : p ≠ 0)
    (h : gcRealloc env fuel answer p size s = .ok (ret, s')) :
    (∀ a, (Call.realloc p size answer).movesTo = some a → ret = a ∧ ret ≠ 0) ∧
      ((Call.realloc p size answer).movesTo = none → ret = 0 ∨ ret = p) := by
  simp only [Call.movesTo]
  by_cases hsize : size = 0
  · subst hsize
    obtain ⟨s₀, previous, next, m', -, -, -, -, rfl, -⟩ := gcRealloc_zero_steps hp h
    simp
  obtain ⟨s₀, m₁, m₂, s₂, m', -, -, -, hrealloc, -, -⟩ := gcRealloc_steps hp hsize h
  by_cases hmax : size < maxRequest
  · obtain ⟨s₁, -, hcases⟩ := dlrealloc_cases hrealloc
    cases hcases with
    | failed hf => simp +contextual [hf hmax]
    | resized hr => simp [hr]
    | moved hr hg hlegal => simp [hp, hsize, hmax, hr, hg, Grant.addr_ne_zero hlegal]
  · rw [dlrealloc, if_pos (not_lt.mp hmax)] at hrealloc
    obtain ⟨rfl, -⟩ := Prod.mk.inj (Except.ok.inj hrealloc)
    simp [hmax]

/-! ## Runs -/

/-- Every block handed out is in the range. -/
def HandedInRange (env : Env) (x : Session) : Prop := ∀ b ∈ x.handed, x.state.InRange env b

/-- If the call moves a block, it moves it into the range. -/
def Call.StaysInRange (env : Env) (s : State) (call : Call) : Prop :=
  ∀ a, call.movesTo = some a → s.InRange env a

/-- What is handed out after a call is in the range if the result of the call is, and if what was in
the range still is. -/
theorem HandedInRange.after (hx : HandedInRange env x)
    (hret : call.mutates = false → ret ≠ 0 → s'.InRange env ret)
    (hkeep : ∀ b, x.state.InRange env b → s'.InRange env b) :
    HandedInRange env ⟨s', handedAfter call ret
      (x.handed.filter fun b => !(sweptBetween x.state s').contains b)⟩ := by
  intro b hb
  rcases mem_handedAfter hb with ⟨hcall, hne, rfl⟩ | hb
  · exact hret hcall hne
  · exact hkeep b (hx b (List.mem_filter.mp hb).1)

/-- A step keeps the blocks in the range exactly if it does not move one out of it. -/
theorem Session.step_inRange_iff (henv : env.Sound) (hx : HandedInRange env x)
    (h : x.step env fuel call = .ok x') :
    HandedInRange env x' ↔ call.StaysInRange env x.state := by
  obtain ⟨hallowed, ret, s', hexec, rfl⟩ := Session.step_cases h
  cases exec_cases hexec with
  | malloc h =>
    refine iff_of_true (hx.after (fun _ hne => ?_) fun b hb => ?_) fun a ha => by cases ha
    · exact gcMalloc_inRange henv h (.inl ⟨hne, rfl⟩)
    · exact gcMalloc_inRange henv h (.inr hb)
  | reallocNull h =>
    refine iff_of_true (hx.after (fun _ hne => ?_) fun b hb => ?_) fun a ha => ?_
    · exact gcMalloc_inRange henv h (.inl ⟨hne, rfl⟩)
    · exact gcMalloc_inRange henv h (.inr hb)
    · simp [Call.movesTo] at ha
  | @realloc p size answer _ _ hp h =>
    have H := gcRealloc_headOnly hp h
    obtain ⟨hmoved, hkept⟩ := gcRealloc_returns hp h
    have hlive : p ∈ x.handed := by simpa [Call.allowed, hp] using hallowed
    constructor
    · intro hall a ha
      obtain ⟨rfl, hne⟩ := hmoved a ha
      exact (H.inRange_iff henv).mp (hall ret (by simp [handedAfter, hne]))
    · intro hstays
      refine hx.after (fun _ hne => ?_) fun b hb => (H.inRange_iff henv).mpr hb
      refine (H.inRange_iff henv).mpr ?_
      cases hto : (Call.realloc p size answer).movesTo with
      | some a =>
        obtain ⟨rfl, -⟩ := hmoved a hto
        exact hstays ret hto
      | none =>
        obtain rfl := (hkept hto).resolve_left hne
        exact hx ret hlive
  | collect h =>
    have H := gcCollect_headOnly h
    exact iff_of_true (hx.after (fun _ hne => absurd rfl hne) fun b => (H.inRange_iff henv).mpr)
      fun a ha => by cases ha
  | mutate hcall hm =>
    refine iff_of_true (hx.after (fun hnot _ => ?_) fun b hb => hm.inRange_iff.mpr hb)
      fun a ha => ?_
    · rw [hcall] at hnot
      cases hnot
    · cases call with
      | malloc | realloc | collect => cases hcall
      | _ => cases ha

/-- In every state of a run the blocks handed out are in the range exactly if the run moves none out
of it. -/
theorem run_inRange_iff (henv : env.Sound) (hx : Started env x) :
    Along (Session.step env fuel)
        (fun y call => ∀ y', y.step env fuel call = .ok y' → HandedInRange env y') x calls ↔
      Along (Session.step env fuel)
        (fun y call => ∀ y', y.step env fuel call = .ok y' → call.StaysInRange env y.state) x
        calls := by
  have hstart : HandedInRange env x := fun b hb => by
    rw [hx.handed] at hb
    cases hb
  have hrun : Along (Session.step env fuel) (fun _ _ => True) x calls :=
    .of_forall fun _ _ => trivial
  refine hrun.iff (P := HandedInRange env) (fun y call hy _ => ?_)
    (fun y call y' _ _ hall h => hall y' h) hstart
  exact forall₂_congr fun y' h => Session.step_inRange_iff henv hy h

theorem run_inRange_iff_quietRun :
    Along (Session.step Env.flat 8)
        (fun y call => ∀ y', y.step Env.flat 8 call = .ok y' → HandedInRange Env.flat y')
        startSession quietRun ↔
      Along (Session.step Env.flat 8)
        (fun y call => ∀ y', y.step Env.flat 8 call = .ok y' → call.StaysInRange Env.flat y.state)
        startSession quietRun :=
  run_inRange_iff Env.flat_sound startSession_started

/-- The only block is moved to a higher address. -/
def movedRun : List Call :=
  [.malloc 16 (served 0x400000), .realloc 0x400000 16 ⟨none, served 0x800000⟩]

theorem not_inRange_movedRun : Started Env.flat startSession ∧
    ∃ x, startSession.run Env.flat 8 movedRun = .ok x ∧ ¬HandedInRange Env.flat x := by
  have hrun : ((fun x : Session => (x.handed, x.state.seg Env.flat.mymallocHighest)) <$>
      startSession.run Env.flat 8 movedRun) = .ok ([0x800000], 0x400000) := by
    decide +kernel
  obtain ⟨x, h, hx⟩ := Except.map_eq_ok.mp hrun
  obtain ⟨hhanded, hhighest⟩ := Prod.mk.inj hx
  refine ⟨startSession_started, x, h, fun hall => ?_⟩
  have hle := (hall 0x800000 (by simp [hhanded])).2
  rw [hhighest] at hle
  omega

end PrecisionGc
