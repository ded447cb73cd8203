import PrecisionGc.Verify.Calls

/-!
# Runs

A run is a sequence of calls and of writes of the mutator, with collections wherever the allocator
starts one. Each step that is harmless takes a state with the list `L` to one with the list
`(call.change ret).apply (kept keep L)`, where what is not kept has been freed as garbage
(`exec_stepped`). Over a run this gives the soundness of all its collections and the list invariant.
-/

namespace PrecisionGc
open ByteStore LinkedList AbstractHeap Runs

variable {env : Env} {m : Memory} {s s' t : State} {L : List Nat} {b p n off w fuel size ret : Nat}
  {c : Chunk} {call : Call}

/-! ## The mutator -/

/-- A write to the user data of a chunk does not touch the list. -/
theorem HeapList.store (henv : env.Sound) (hL : HeapList env m L) (hc : m.chunks b = some c)
    (hoff : off + pointerSize ≤ c.userLength env b) :
    HeapList env
      (m.setChunk b (some { c with bytes := writeLE c.bytes off pointerSize w })) L := by
  have hu := hL.sized b c hc
  have hoff' : off + pointerSize ≤ c.nextOffset env b := by
    rw [Chunk.nextOffset_eq henv b hu]; omega
  have hp : Chunk.previous env b { c with bytes := writeLE c.bytes off pointerSize w } =
      c.previous env b := readLE_writeLE_of_disjoint (.inr hoff)
  have hn : Chunk.next env b { c with bytes := writeLE c.bytes off pointerSize w } =
      c.next env b := readLE_writeLE_of_disjoint (.inr hoff')
  have hrec : Chunk.toChunkRecord { c with bytes := writeLE c.bytes off pointerSize w } =
      c.toChunkRecord := rfl
  generalize ({ c with bytes := writeLE c.bytes off pointerSize w } : Chunk) = c' at hp hn hrec ⊢
  have hprev : (m.setChunk b (some c')).prevWord env = m.prevWord env := by
    rw [Memory.prevWord_setChunk hp, ← Memory.prevWord_eq hc, Function.update_eq_self]
  have hnext : (m.setChunk b (some c')).nextWord env = m.nextWord env := by
    rw [Memory.nextWord_setChunk hn, ← Memory.nextWord_eq hc, Function.update_eq_self]
  have hchunk : ∀ x cx, (m.setChunk b (some c')).chunks x = some cx →
      ∃ cx', m.chunks x = some cx' ∧ cx.toChunkRecord = cx'.toChunkRecord := fun x cx hcx => by
    by_cases hx : x = b
    · subst hx
      exact ⟨c, hc, Option.some.inj (Memory.setChunk_self.symm.trans hcx) ▸ hrec⟩
    · exact ⟨cx, (Memory.setChunk_of_ne hx).symm.trans hcx, rfl⟩
  constructor
  · rw [hprev, hnext]
    exact hL.linked
  · intro x hx
    have hblock := hL.block x hx
    by_cases hxb : x = b
    · subst hxb
      obtain ⟨c₀, hc₀, -, hd⟩ := hblock.chunk
      obtain rfl : c = c₀ := Option.some.inj (hc.symm.trans hc₀)
      exact { hblock with
        chunk := ⟨c', Memory.setChunk_self, congrArg ChunkRecord.usable hrec ▸ hu,
          describes_congr hrec ▸ hd⟩ }
    · exact hblock.carry (Memory.setChunk_of_ne hxb) hblock.registered
  · intro x cx hcx hx
    obtain ⟨cx', hcx', -⟩ := hchunk x cx hcx
    rw [hprev]
    exact hL.foreign x cx' hcx' hx
  · intro x cx hcx
    obtain ⟨cx', hcx', hr⟩ := hchunk x cx hcx
    exact congrArg ChunkRecord.usable hr ▸ hL.sized x cx' hcx'

/-! ## What a call adds to the log -/

/-- The collections between `s` and `s'` have freed what they found unreachable: together the blocks
that `freed` names. -/
structure Logs (env : Env) (s s' : State) (freed : Nat → Prop) : Prop where
  grows : s'.collections = s.collections ++ s'.collections.drop s.collections.length
  sound : ∀ coll ∈ s'.collections.drop s.collections.length, ∀ b ∈ coll.freed,
    ¬Reachable env coll.start b
  swept : ∀ b, b ∈ sweptBetween s s' ↔ freed b

theorem logs_of_eq (h : s'.collections = s.collections) : Logs env s s' fun _ => False := by
  constructor <;> simp [sweptBetween, h]

theorem logs_of_logged {F : List Nat} {collects : Bool}
    (h : s'.collections = s.collections ++ logged env t F collects) :
    Logs env s s' fun b => b ∈ F ∧ ¬Survives env t collects b := by
  have hnew : s'.collections.drop s.collections.length = logged env t F collects := by simp [h]
  refine ⟨hnew ▸ h, ?_, ?_⟩
  · rw [hnew]
    intro coll hcoll b hb
    cases collects with
    | false => cases hcoll
    | true =>
      obtain rfl := List.mem_singleton.mp hcoll
      exact (mem_swept.mp hb).2
  · intro b
    rw [sweptBetween, hnew]
    cases collects <;> simp [logged, Survives]

theorem Logs.congr {freed freed' : Nat → Prop} (h : Logs env s s' freed)
    (hf : ∀ b, freed b ↔ freed' b) : Logs env s s' freed' :=
  { h with swept := fun b => (h.swept b).trans (hf b) }

/-! ## One step -/

/-- What a call that returned `ret` does to the list. -/
def Call.change (call : Call) (ret : Nat) : Change Nat :=
  match call with
  | .malloc .. => if ret = 0 then .none else .push ret
  | .realloc p size _ =>
    if p = 0 then if ret = 0 then .none else .push ret
    else if ret = 0 then if size = 0 then .remove p else .none
    else .replace p ret
  | _ => .none

/-- The call is not one of `gc_realloc` in which a collection does harm. -/
def Call.Harmless (env : Env) (s : State) : Call → Prop
  | .realloc p size answer => answer.Harmless env s p size
  | _ => True

/-- What a step of the program makes of the list `L`: `keep` says what collections have left. -/
structure Stepped (env : Env) (s : State) (call : Call) (ret : Nat) (s' : State) (L : List Nat)
    (keep : Nat → Prop) : Prop where
  ready : Ready env s' ((call.change ret).apply (kept keep L))
  logs : Logs env s s' fun b => b ∈ L ∧ ¬keep b
  handed : ∀ b, b ∈ handedAfter call ret (kept keep L) ↔ b ∈ (call.change ret).apply (kept keep L)

theorem gcMalloc_stepped {answer : AllocAnswer} (henv : env.Sound) (R : Ready env s L)
    (h : gcMalloc env fuel answer size s = .ok (ret, s')) :
    ∃ keep, Stepped env s (.malloc size answer) ret s' L keep := by
  obtain ⟨hready, hlog, -⟩ := gcMalloc_ready henv R h
  refine ⟨_, ?_, logs_of_logged hlog, fun b => ?_⟩
  · by_cases hret : ret = 0 <;> simpa [Call.change, hret, Change.apply] using hready
  · by_cases hret : ret = 0 <;> simp [Call.change, hret, Change.apply, handedAfter]

theorem gcRealloc_stepped {answer : ReallocAnswer} {A B : List Nat} (henv : env.Sound)
    (R : Ready env s (A ++ p :: B)) (hharm : answer.Harmless env s p size)
    (h : gcRealloc env fuel answer p size s = .ok (ret, s')) :
    ∃ keep, Stepped env s (.realloc p size answer) ret s' (A ++ p :: B) keep := by
  obtain ⟨hpA, hpB, hAB⟩ := R.list.ne_of_mem fun _ => True
  simp only [mem_kept, and_true] at hpA hAB
  have hA : p ∉ A := fun h => hpA p h rfl
  have hB : p ∉ B := fun h => hpB p h rfl
  have hp0 := (R.list.block p (by simp)).ne_zero
  by_cases hsize : size = 0
  · subst hsize
    obtain ⟨rfl, hlist, hbase, hsp, hqueue, hlog⟩ := gcRealloc_zero henv R.list h
    have hready : Ready env s' (A ++ B) :=
      ⟨hlist, hqueue ▸ R.queue, hbase ▸ R.stackBase, hsp ▸ R.stackPointer⟩
    have hall : kept (fun _ => True) (A ++ p :: B) = A ++ p :: B := kept_eq_self fun _ _ => trivial
    refine ⟨fun _ => True, ?_, (logs_of_eq hlog).congr fun b => by simp, fun b => ?_⟩
    · rw [hall]
      simpa only [Call.change, hp0, if_true, if_false, Change.remove_append hA hB] using hready
    · simp [Call.change, hp0, handedAfter, Change.apply]
  · obtain ⟨t, hready, hsurv, hlog, -⟩ := gcRealloc_ready henv R hsize hharm h
    generalize hS : Survives env t (answer.collects size s) = S at hready hsurv
    -- the blocks behind the argument are not swept
    have hkept : kept (fun b => b ∈ B ∨ S b) (A ++ p :: B) = kept S A ++ p :: B := by
      rw [kept_append, kept_eq_self (l := p :: B) fun b hb => ?_]
      · exact congrArg (· ++ _) (kept_congr fun b hb => or_iff_right (hAB b hb))
      · exact (List.mem_cons.mp hb).elim (fun e => .inr (e ▸ hsurv)) .inl
    have hpA' : p ∉ kept S A := fun h => hA (mem_kept.mp h).1
    refine ⟨fun b => b ∈ B ∨ S b, ?_, (logs_of_logged hlog).congr fun b => ?_, fun b => ?_⟩
    · rw [hkept]
      by_cases hret : ret = 0
      · simpa only [Call.change, hp0, hret, hsize, if_true, if_false, Change.apply] using hready
      · simpa only [Call.change, hp0, hret, if_false, Change.replace_append hpA' hB] using hready
    · rw [hS]
      simp only [List.mem_append, List.mem_cons, List.not_mem_nil, or_false, not_or]
      constructor
      · rintro ⟨hb | rfl, hnot⟩
        · exact ⟨.inl hb, hAB b hb, hnot⟩
        · exact absurd hsurv hnot
      · rintro ⟨hb | rfl | hb, hbB, hnot⟩
        · exact ⟨.inl hb, hnot⟩
        · exact absurd hsurv hnot
        · exact absurd hb hbB
    · rw [hkept]
      by_cases hret : ret = 0
      · simp [Call.change, hp0, hret, hsize, handedAfter, Change.apply]
      · simp only [Call.change, hp0, hret, if_false, handedAfter,
          Change.mem_replace (show p ∈ kept S A ++ p :: B by simp)]
        simp only [List.mem_cons, List.mem_filter, ne_eq, decide_not, Bool.not_eq_true',
          decide_eq_false_iff_not]

/-- A step that leaves the list and the log alone. -/
theorem Stepped.unchanged (R : Ready env s' L) (hlog : s'.collections = s.collections)
    (hchange : call.change 0 = .none) (hhanded : ∀ l, handedAfter call 0 l = l) :
    ∃ keep, Stepped env s call 0 s' L keep := by
  have hall : kept (fun _ => True) L = L := kept_eq_self fun _ _ => trivial
  refine ⟨fun _ => True, ?_, (logs_of_eq hlog).congr fun b => by simp, fun b => ?_⟩
  · rw [hchange, hall]
    exact R
  · rw [hchange, hhanded]
    rfl

/-- Every harmless step of a run changes the list as `Call.change` says. -/
theorem exec_stepped (henv : env.Sound) (R : Ready env s L) (hallowed : call.allowed L = true)
    (hharm : call.Harmless env s) (h : exec env fuel s call = .ok (ret, s')) :
    ∃ keep, Stepped env s call ret s' L keep := by
  cases call with
  | malloc size answer => exact gcMalloc_stepped henv R h
  | realloc p size answer =>
    by_cases hp : p = 0
    · subst hp
      have h : gcMalloc env fuel answer.alloc size s = .ok (ret, s') := by
        simpa only [exec, gcRealloc, if_true] using h
      obtain ⟨keep, H⟩ := gcMalloc_stepped henv R h
      have h0 : ∀ b ∈ kept keep L, b ≠ 0 := fun b hb =>
        (R.list.block b (mem_kept.mp hb).1).ne_zero
      refine ⟨keep, by simpa only [Call.change, if_true] using H.ready, H.logs, fun b => ?_⟩
      have hb0 : (b ∈ kept keep L ∧ b ≠ 0) ↔ b ∈ kept keep L :=
        and_iff_left_of_imp fun hb => h0 b hb
      by_cases hret : ret = 0 <;> by_cases hsize : size = 0 <;>
        simp only [Call.change, handedAfter, hret, hsize, if_true, if_false, Change.apply,
          List.mem_cons, List.mem_filter, decide_eq_true_eq, hb0]
    · have hpL : p ∈ L := by simpa [Call.allowed, hp] using hallowed
      obtain ⟨A, B, rfl⟩ := List.append_of_mem hpL
      exact gcRealloc_stepped henv R hharm h
  | collect =>
    obtain ⟨s₁, h₁, h⟩ := Except.bind_eq_ok.mp h
    obtain ⟨rfl, rfl⟩ := Prod.mk.inj (Except.ok.inj h)
    have T : Triggered env s L [] (fun _ => False) true s₁ :=
      trigger_ok henv (R.list.shape henv) R.queue R.stackBase R.stackPointer h₁
    exact ⟨_, ⟨T.heapList R.list, T.queue, T.frame.stackBase ▸ R.stackBase,
      T.frame.stackPointer ▸ R.stackPointer⟩, logs_of_logged T.log, fun b => Iff.rfl⟩
  | setRegister r w =>
    obtain ⟨rfl, rfl⟩ := Prod.mk.inj (Except.ok.inj h)
    exact Stepped.unchanged ⟨R.list.congr rfl rfl fun _ => rfl, R.queue, R.stackBase,
      R.stackPointer⟩ rfl rfl fun _ => rfl
  | moveStack sp =>
    simp only [exec] at h
    split at h
    next => cases h
    next hsp =>
      obtain ⟨rfl, rfl⟩ := Prod.mk.inj (Except.ok.inj h)
      exact Stepped.unchanged ⟨R.list.congr rfl rfl fun _ => rfl, R.queue, R.stackBase, hsp⟩ rfl rfl
        fun _ => rfl
  | storeSegment a w =>
    simp only [exec] at h
    split at h
    next ha =>
      obtain ⟨rfl, rfl⟩ := Prod.mk.inj (Except.ok.inj h)
      have hhead : apart env.heapListHead a = true := by
        rw [apart_comm]
        exact List.all_eq_true.mp ha _ List.mem_cons_self
      exact Stepped.unchanged ⟨R.list.congr rfl (head_setSeg hhead) fun _ => rfl, R.queue,
        R.stackBase, R.stackPointer⟩ rfl rfl fun _ => rfl
    next => cases h
  | storeField b off w =>
    simp only [exec] at h
    split at h
    next => cases h
    next c hc =>
    split at h
    next hoff =>
      obtain ⟨rfl, rfl⟩ := Prod.mk.inj (Except.ok.inj h)
      exact Stepped.unchanged ⟨R.list.store henv hc hoff, R.queue, R.stackBase, R.stackPointer⟩ rfl
        rfl fun _ => rfl
    next => cases h

/-! ## Whole runs -/

/-- The state after `gc_init`, before the first call. -/
structure Started (env : Env) (x : Session) : Prop where
  head : x.state.head env = 0
  foreign : ∀ b c, x.state.chunks b = some c → x.state.prevWord env b = sentinel
  sized : ∀ b c, x.state.chunks b = some c → minUsable ≤ c.usable
  queue : x.state.queue.Represents []
  stackBase : x.state.stackBase ≠ 0
  stackPointer : x.state.stackPointer ≠ 0
  allocatorMutex : x.state.allocatorMutex = 1
  gcInitialised : x.state.gcInitialised = true
  collections : x.state.collections = []
  handed : x.handed = []

/-- Nothing is allocated; of the statics only `__mymalloc_lowest` is not zero. -/
def startState : State where
  chunks _ := none
  segs := writeLE (fun _ => 0) Env.flat.mymallocLowest pointerSize (2 ^ 64 - 1)
  regs _ := 0
  stackPointer := 8
  stackBase := 16
  bigallocsList := [0]
  pageindex _ := 0
  queue := .empty
  allocatorMutex := 1
  gcInitialised := true
  gcRunning := false
  numCollections := 0
  collections := []

def startSession : Session := ⟨startState, []⟩

theorem startSession_started : Started Env.flat startSession where
  head := by decide +kernel
  foreign b c h := nomatch h
  sized b c h := nomatch h
  queue := Queue.empty_represents
  stackBase := by decide
  stackPointer := by decide
  allocatorMutex := rfl
  gcInitialised := rfl
  collections := rfl
  handed := rfl

/-- The blocks handed out are those of a well-formed list, and all collections so far were sound. -/
structure Tracked (env : Env) (x : Session) (L : List Nat) : Prop where
  ready : Ready env x.state L
  handed : ∀ b, b ∈ x.handed ↔ b ∈ L
  sound : ∀ coll ∈ x.state.collections, ∀ b ∈ coll.freed, ¬Reachable env coll.start b

theorem Started.tracked {x : Session} (h : Started env x) : Tracked env x [] where
  ready := {
    list := {
      linked := ⟨h.head, trivial, List.nodup_nil⟩
      block := fun _ hb => nomatch hb
      foreign := fun b c hc _ => h.foreign b c hc
      sized := h.sized }
    queue := h.queue
    stackBase := h.stackBase
    stackPointer := h.stackPointer }
  handed b := by rw [h.handed]
  sound coll hcoll := by rw [h.collections] at hcoll; cases hcoll

theorem mem_handedAfter_congr {l l' : List Nat} (h : ∀ b, b ∈ l ↔ b ∈ l') :
    b ∈ handedAfter call ret l ↔ b ∈ handedAfter call ret l' := by
  cases call with
  | realloc p size answer =>
    by_cases hret : ret = 0 <;> by_cases hsize : size = 0 <;> simp [handedAfter, hret, hsize, h]
  | malloc size answer => by_cases hret : ret = 0 <;> simp [handedAfter, hret, h]
  | _ => simpa only [handedAfter] using h b

theorem Call.allowed_congr {l l' : List Nat} (h : ∀ b, b ∈ l ↔ b ∈ l') :
    call.allowed l = call.allowed l' := by
  cases call <;> simp [Call.allowed, h]

/-- A harmless step keeps track. -/
theorem Tracked.step {x x' : Session} (henv : env.Sound) (T : Tracked env x L)
    (hharm : call.Harmless env x.state) (h : x.step env fuel call = .ok x') :
    ∃ ret keep, Stepped env x.state call ret x'.state L keep ∧
      Tracked env x' ((call.change ret).apply (kept keep L)) := by
  obtain ⟨hallowed, ret, s', hexec, rfl⟩ := Session.step_cases h
  rw [Call.allowed_congr T.handed] at hallowed
  obtain ⟨keep, H⟩ := exec_stepped henv T.ready hallowed hharm hexec
  refine ⟨ret, keep, H, H.ready, fun b => ?_, fun coll hcoll => ?_⟩
  · rw [← H.handed b]
    refine mem_handedAfter_congr fun b => ?_
    have hswept := H.logs.swept b
    simp only [List.mem_filter, Bool.not_eq_true', List.contains_eq_mem, decide_eq_false_iff_not,
      hswept, T.handed, mem_kept, not_and, not_not]
    exact ⟨fun hb => ⟨hb.1, hb.2 hb.1⟩, fun hb => ⟨hb.1, fun _ => hb.2⟩⟩
  · rw [H.logs.grows] at hcoll
    exact (List.mem_append.mp hcoll).elim (T.sound coll) (H.logs.sound coll)

/-- No call of the run is one in which a collection does harm. -/
def HarmlessRun (env : Env) (fuel : Nat) (x : Session) (calls : List Call) : Prop :=
  Along (Session.step env fuel) (fun x call => call.Harmless env x.state) x calls

theorem HarmlessRun.tracked {x x' : Session} {calls : List Call} (henv : env.Sound)
    (hx : Started env x) (hharm : HarmlessRun env fuel x calls)
    (h : x.run env fuel calls = .ok x') : ∃ L, Tracked env x' L :=
  hharm.invariant (P := fun x => ∃ L, Tracked env x L)
    (fun _ _ _ ⟨_, T⟩ hcall hstep =>
      let ⟨_, _, _, T'⟩ := T.step henv hcall hstep
      ⟨_, T'⟩)
    ⟨[], hx.tracked⟩ h

end PrecisionGc
