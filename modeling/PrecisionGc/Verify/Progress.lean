import PrecisionGc.Verify.Runs

/-!
# Progress

A harmless call does not loop, does not fail an `assert`, and reads and writes live chunks only:
with enough fuel it returns, unless it waits at the semaphore or is given what breaks a contract.
What it returns does not depend on the fuel.
-/

namespace PrecisionGc
open ByteStore LinkedList AbstractHeap WhileLoop Runs

variable {env : Env} {m : Memory} {s s₁ s₂ : State} {F D A B L : List Nat} {loose : Nat → Prop}
  {p n size : Nat} {c c' : Chunk} {call : Call}

/-- The faults that the collector does not answer for. -/
def Stopped (e : Fault) : Prop := e = .blocked ∨ e = .contract

theorem semWait_ends : Ends Stopped fun _ => semWait s := by
  unfold semWait
  split
  · exact .stopped (.inl rfl)
  · exact .ok _

theorem trigger_ends (henv : env.Sound) (S : HeapShape env s.toMemory F D loose) {collects : Bool}
    (hready : collects = true →
      s.queue.Represents [] ∧ s.stackBase ≠ 0 ∧ s.stackPointer ≠ 0) :
    Ends Stopped fun fuel => if collects then gcCollect env fuel s else pure s := by
  cases collects with
  | true =>
    obtain ⟨hq, hbase, hsp⟩ := hready rfl
    obtain ⟨m', q, hrun, -⟩ := collect_settles henv S hq hbase hsp
    exact hrun.ends
  | false => exact .ok s

theorem dlmalloc_ends {answer : AllocAnswer}
    (htrig : Ends Stopped fun fuel => if answer.collects s then gcCollect env fuel s else pure s) :
    Ends Stopped fun fuel => dlmalloc env fuel answer size s := by
  refine Ends.bind htrig fun _ s₁ _ => ?_
  cases answer.grant with
  | none => exact .ok _
  | some g =>
    dsimp only
    split
    · exact .ok _
    · exact .stopped (.inr rfl)

/-- `gc_malloc` returns or is stopped. What a collection needs has to hold only if there is one. -/
theorem gcMalloc_ends {answer : AllocAnswer} (henv : env.Sound) (hL : HeapList env s.toMemory L)
    (hready : answer.collects s = true → Ready env s L) :
    Ends Stopped fun fuel => gcMalloc env fuel answer size s := by
  refine Ends.congr (Ends.bind semWait_ends fun _ s₀ h₀ => ?_) fun _ => gcMalloc_eq
  obtain ⟨-, rfl⟩ := semWait_ok h₀
  generalize hs₀ : { s with allocatorMutex := s.allocatorMutex - 1 } = s₀
  have hready₀ : answer.collects s₀ = true → Ready env s₀ L := fun hcol => by
    subst hs₀
    exact { hready hcol with }
  have hL₀ : HeapList env s₀.toMemory L := by subst hs₀; exact hL
  refine Ends.bind (dlmalloc_ends (trigger_ends henv (hL₀.shape henv) fun hcol => ?_))
    fun _ r h => ?_
  · have R := hready₀ hcol
    exact ⟨R.queue, R.stackBase, R.stackPointer⟩
  obtain ⟨a, s₂⟩ := r
  obtain ⟨s₁, htrig, hcases⟩ := dlmalloc_cases h
  rcases hcases with ⟨-, rfl, rfl⟩ | ⟨g, -, hg, rfl, rfl⟩
  · exact (Ends.ok _).congr fun _ => if_pos rfl
  · obtain ⟨m', hm', -⟩ := enlist_ok henv (heapList_of_ready henv hL₀ hready₀ htrig) hg
    simp only [Grant.addr_ne_zero hg, if_false]
    exact Ends.step hm' (.ok _)

/-- `dlrealloc` of a block that a collection keeps returns or is stopped. -/
theorem dlrealloc_ends {answer : ReallocAnswer} (hc : s.chunks p = some c)
    (htrig : Ends Stopped fun fuel =>
      if answer.collects size s then gcCollect env fuel s else pure s)
    (hkeep : ∀ fuel s₁,
      (if answer.collects size s then gcCollect env fuel s else pure s) = .ok s₁ →
        ∃ c₁, s₁.chunks p = some c₁) :
    Ends Stopped fun fuel => dlrealloc env fuel answer p size s := by
  unfold dlrealloc
  split
  next => exact .ok _
  next hmax =>
  simp only [Memory.chunk_eq hc, Except.ok_bind]
  cases hr : answer.resize with
  | some r =>
    dsimp only
    split
    · exact .ok _
    · exact .stopped (.inr rfl)
  | none =>
    have hcol : answer.collects size s = answer.alloc.collects s := by
      simp [ReallocAnswer.collects, hr, not_le.mp hmax]
    rw [hcol] at htrig
    dsimp only
    refine Ends.bind (dlmalloc_ends htrig) fun fuel r h => ?_
    obtain ⟨a, s₂⟩ := r
    obtain ⟨s₁, htrig, hcases⟩ := dlmalloc_cases h
    rcases hcases with ⟨-, rfl, rfl⟩ | ⟨g, -, hg, rfl, rfl⟩
    · exact (Ends.ok _).congr fun _ => if_pos rfl
    · obtain ⟨c₁, hc₁⟩ := hkeep fuel s₁ (hcol ▸ htrig)
      obtain ⟨-, -, -, hfree, -⟩ := Grant.legal_iff.mp hg
      have hpg : p ≠ g.addr := fun e => by rw [← e, hc₁] at hfree; cases hfree
      have hold : (g.apply s₁.toMemory).chunks p = some c₁ :=
        (Grant.apply_chunks_of_ne hpg).trans hc₁
      have hnew : (g.apply s₁.toMemory).chunks g.addr = some g.chunk := Grant.apply_chunks_self
      simp only [Grant.addr_ne_zero hg, if_false, Memory.chunk_eq hold, Memory.chunk_eq hnew,
        Except.ok_bind, Memory.myfree, Memory.chunk_eq ((Memory.setChunk_of_ne hpg).trans hold),
        Except.pure_def]
      exact .ok _

/-- The size-0 call of `gc_realloc`. -/
theorem gcRealloc_zero_ends {answer : ReallocAnswer} (henv : env.Sound)
    (hL : HeapList env s.toMemory (A ++ p :: B)) :
    Ends Stopped fun fuel => gcRealloc env fuel answer p 0 s := by
  have hblock := hL.block p (by simp)
  obtain ⟨c, hc, -⟩ := hblock.chunk
  obtain ⟨hp, hn⟩ := hL.links_eq hc
  obtain ⟨m', hfree, -⟩ := (hL.called (p := p)).unlinkAndFree_ok henv
  have hc₀ : (s.called p).chunks p = some c := hc
  simp only [gcRealloc, hblock.ne_zero, if_false, if_true]
  refine Ends.bind semWait_ends fun _ s₀ h₀ => ?_
  obtain ⟨-, rfl⟩ := semWait_ok h₀
  refine Ends.step ((Memory.previousPointer_eq hc₀).trans (congrArg Except.ok hp)) ?_
  refine Ends.step ((Memory.nextPointer_eq hc₀).trans (congrArg Except.ok hn)) ?_
  exact Ends.step hfree (.ok _)

/-- A harmless call of `gc_realloc` returns or is stopped. -/
theorem gcRealloc_ends {answer : ReallocAnswer} (henv : env.Sound)
    (hL : HeapList env s.toMemory (A ++ p :: B))
    (hready : answer.collects size s = true → Ready env s (A ++ p :: B))
    (hharm : answer.Harmless env s p size) :
    Ends Stopped fun fuel => gcRealloc env fuel answer p size s := by
  by_cases hsize : size = 0
  · subst hsize
    exact gcRealloc_zero_ends henv hL
  have hblock := hL.block p (by simp)
  obtain ⟨c, hc, hu, -⟩ := hblock.chunk
  by_cases hmutex : s.allocatorMutex = 0
  · refine (Ends.stopped (.inl rfl)).congr fun fuel => ?_
    rw [gcRealloc, if_neg hblock.ne_zero, semWait, if_pos hmutex]
    rfl
  obtain ⟨c', hs, hprev, hnext, heq⟩ :=
    gcRealloc_detaches answer henv hblock.ne_zero hsize hmutex hc hu
  have S : HeapShape env (s.detached p c').toMemory (A ++ [p]) B (· = p) :=
    hL.called.detach henv hc hs hprev hnext
  have hdetached : ∀ fuel s₁, (if answer.collects size s then gcCollect env fuel (s.detached p c')
      else pure (s.detached p c')) = .ok s₁ → Detached env (s.called p).toMemory A p B
        (Survives env (s.called p) (answer.collects size s))
        (Stale env (s.called p) (answer.collects size s)) s₁.toMemory :=
    fun _ _ => detached_of_ready henv hL hready hc hs hprev hnext
  obtain ⟨hp, hn⟩ := hL.links_eq hc
  refine Ends.congr (Ends.bind (dlrealloc_ends Memory.setChunk_self
    (trigger_ends henv S fun hcol => ?_) fun fuel s₁ htrig => ?_) fun fuel r h => ?_) heq
  · have R := hready hcol
    exact ⟨R.queue, R.stackBase, R.stackPointer⟩
  · obtain ⟨c₁, hc₁, -⟩ := (hdetached fuel s₁ htrig).data c hc
    exact ⟨c₁, hc₁⟩
  · obtain ⟨n, s₂⟩ := r
    obtain ⟨s₁, htrig, hcases⟩ := dlrealloc_cases h
    have H := hdetached fuel s₁ htrig
    obtain ⟨c₁, hc₁, -⟩ := H.data c hc
    obtain ⟨m', hrelink, -⟩ := hcases.relinked henv hL.called hc H
      (fun a ha hcol => (hharm hsize hcol A B hL).1 a ha)
      fun b hb hfirst => hharm.not_stale hsize hL hc₁ hcases hb hfirst
    rw [← hp, ← hn] at hrelink
    exact Ends.step hrelink (.ok _)

/-! ## Whole runs -/

/-- A harmless call that its contract allows returns or is stopped. -/
theorem exec_ends (henv : env.Sound) (R : Ready env s L) (hallowed : call.allowed L = true)
    (hharm : call.Harmless env s) : Ends Stopped fun fuel => exec env fuel s call := by
  cases call with
  | malloc size answer => exact gcMalloc_ends henv R.list fun _ => R
  | realloc p size answer =>
    by_cases hp : p = 0
    · subst hp
      have H : Ends Stopped fun fuel => gcMalloc env fuel answer.alloc size s :=
        gcMalloc_ends henv R.list fun _ => R
      exact H.congr fun _ => by simp only [exec, gcRealloc, if_true]
    · have hpL : p ∈ L := by simpa [Call.allowed, hp] using hallowed
      obtain ⟨A, B, rfl⟩ := List.append_of_mem hpL
      exact gcRealloc_ends henv R.list (fun _ => R) hharm
  | collect =>
    obtain ⟨m', q, hrun, -⟩ :=
      collect_settles henv (R.list.shape henv) R.queue R.stackBase R.stackPointer
    exact Ends.bind hrun.ends fun _ _ _ => .ok _
  | setRegister r w => exact .ok _
  | moveStack sp =>
    simp only [exec]
    split
    · exact .stopped (.inr rfl)
    · exact .ok _
  | storeSegment a w =>
    simp only [exec]
    split
    · exact .ok _
    · exact .stopped (.inr rfl)
  | storeField b off w =>
    simp only [exec]
    split
    · exact .stopped (.inr rfl)
    · split
      · exact .ok _
      · exact .stopped (.inr rfl)

theorem Tracked.step_ends {x : Session} (henv : env.Sound) (T : Tracked env x L)
    (hharm : call.Harmless env x.state) : Ends Stopped fun fuel => x.step env fuel call := by
  unfold Session.step
  split
  next hallowed =>
    rw [Call.allowed_congr T.handed] at hallowed
    exact Ends.bind (exec_ends henv T.ready hallowed hharm) fun _ _ _ => .ok _
  next => exact .stopped (.inr rfl)

/-- No call of the run is one in which a collection does harm, whatever the fuel of the calls before
it. -/
def HarmlessCalls (env : Env) : Session → List Call → Prop
  | _, [] => True
  | x, call :: calls => call.Harmless env x.state ∧
      ∀ fuel x', x.step env fuel call = .ok x' → HarmlessCalls env x' calls

/-- A harmless run ends: each of its calls returns, or the run is stopped at one that waits or
breaks a contract. -/
theorem HarmlessCalls.run_ends {x : Session} {calls : List Call} (henv : env.Sound)
    (T : Tracked env x L) (hharm : HarmlessCalls env x calls) :
    Ends Stopped fun fuel => x.run env fuel calls := by
  induction calls generalizing x L with
  | nil => exact .ok x
  | cons call calls ih =>
    simp only [Session.run, List.foldlM_cons]
    refine Ends.bind (T.step_ends henv hharm.1) fun fuel x' hstep => ?_
    obtain ⟨ret, keep, -, T'⟩ := T.step henv hharm.1 hstep
    exact ih T' (hharm.2 fuel x' hstep)

theorem HarmlessCalls.along {x : Session} {calls : List Call} {fuel : Nat}
    (hharm : HarmlessCalls env x calls) : HarmlessRun env fuel x calls := by
  induction calls generalizing x with
  | nil => trivial
  | cons call calls ih => exact ⟨hharm.1, fun x' hstep => ih (hharm.2 fuel x' hstep)⟩

/-- A harmless run from the start needs no more than a certain fuel; with that it returns a state in
which the blocks handed out are those of a well-formed list, or it is stopped. -/
theorem HarmlessCalls.returns {x : Session} {calls : List Call} (henv : env.Sound)
    (hx : Started env x) (hharm : HarmlessCalls env x calls) :
    ∃ n, ∀ fuel, n ≤ fuel →
      (∃ x' L, x.run env fuel calls = .ok x' ∧ Tracked env x' L) ∨
        ∃ e, Stopped e ∧ x.run env fuel calls = .error e := by
  obtain ⟨n, hn⟩ := (hharm.run_ends henv hx.tracked).enough
  refine ⟨n, fun fuel hfuel => (hn fuel hfuel).imp_left ?_⟩
  rintro ⟨x', hrun⟩
  obtain ⟨L, T⟩ := hharm.along.tracked henv hx hrun
  exact ⟨x', L, hrun, T⟩

end PrecisionGc
