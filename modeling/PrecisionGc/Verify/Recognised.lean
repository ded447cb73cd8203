import PrecisionGc.Verify.RunResults
import PrecisionGc.Verify.Spares

/-!
# Blocks that the filter recognises

The root and slot filters drop a word whose region is not in `bigallocs_list`. Every block that is
handed out has its region there, and no region is there twice, in every run and at every point at
which a call enters `gc_collect`. The runs here need not be harmless: nothing is asked of the links.
-/

namespace PrecisionGc
open ByteStore Runs

variable {env : Env} {m m' : Memory} {s s' s₁ : State} {b n p w w' fuel size ret : Nat}
  {call : Call}

/-! ## What the filter looks at -/

theorem Spares.alike (h : Spares env [] m m') : Alike m m' :=
  ⟨h.records.trans (by simp), h.bigallocsList, h.pageindex⟩

theorem clearUserData_alike (h : clearUserData env m b = .ok m') : Alike m m' := by
  obtain ⟨c, hc, h⟩ := Except.bind_eq_ok.mp h
  obtain rfl := Except.ok.inj h
  exact alike_setChunk (Memory.chunks_of_chunk hc) rfl

theorem widenRange_alike : Alike m (widenRange env b m) := by
  simp only [widenRange]
  split <;> split <;> exact ⟨rfl, rfl, rfl⟩

/-- Behind `mymalloc` the region of the new block is registered; nothing else happens that the
filter looks at. -/
theorem enlist_alike (h : enlist env n m = .ok m') :
    ∃ m₁, Alike m m₁ ∧ m' = newBigalloc m₁ n := by
  obtain ⟨m₁, h₁, h⟩ := Except.bind_eq_ok.mp h
  obtain ⟨m₂, h₂, h⟩ := Except.bind_eq_ok.mp h
  obtain ⟨m₃, h₃, h⟩ := Except.bind_eq_ok.mp h
  obtain ⟨m₄, h₄, h⟩ := Except.bind_eq_ok.mp h
  refine ⟨m₄.setHead env n, ?_, (Except.ok.inj h).symm⟩
  have A₁ := widenRange_alike.trans (clearUserData_alike h₁)
  have A₃ := (Memory.spares_setPreviousPointer h₂).alike.trans
    (Memory.spares_setNextPointer h₃).alike
  exact A₁.trans (A₃.trans ((Memory.spares_linkBack h₄).alike.trans ⟨rfl, rfl, rfl⟩))

/-- Behind `myrealloc` the region of a block that has moved is registered. -/
theorem relink_alike (h : relink env p n w w' m = .ok m') :
    ∃ m₁, Alike m m₁ ∧ m' = if n = 0 ∨ p = n then m₁ else newBigalloc m₁ n := by
  unfold relink at h
  split at h
  next hn =>
    obtain ⟨m₁, h₁, h⟩ := Except.bind_eq_ok.mp h
    exact ⟨m', (Memory.spares_setPreviousPointer h₁).alike.trans
      (Memory.spares_setNextPointer h).alike, by rw [if_pos (.inl hn)]⟩
  next hn =>
    obtain ⟨m₁, h₁, h⟩ := Except.bind_eq_ok.mp h
    obtain ⟨m₂, h₂, h⟩ := Except.bind_eq_ok.mp h
    obtain ⟨m₃, h₃, h⟩ := Except.bind_eq_ok.mp h
    have A₃ := (clearUserData_alike h₁).trans ((Memory.spares_setPreviousPointer h₂).alike.trans
      (Memory.spares_setNextPointer h₃).alike)
    split at h
    next hp => exact ⟨m', Except.ok.inj h ▸ A₃, by rw [if_pos (.inr hp)]⟩
    next hp =>
      obtain ⟨m₄, h₄, h⟩ := Except.bind_eq_ok.mp h
      obtain ⟨m₅, h₅, h⟩ := Except.bind_eq_ok.mp h
      refine ⟨m₅, A₃.trans ((Memory.spares_linkForward h₄).alike.trans
        (Memory.spares_linkBack h₅).alike), ?_⟩
      rw [if_neg (not_or.mpr ⟨hn, hp⟩)]
      exact (Except.ok.inj h).symm

/-! ## Registered blocks -/

/-- A live block in a registered region. -/
structure Recognised (m : Memory) (b : Nat) : Prop where
  record : ∃ r, m.records b = some r ∧ minUsable ≤ r.usable
  inRange : isPlausiblePointer b = true
  registered : validBigalloc m b = true

namespace Recognised

/-- The filter takes it for a heap object. -/
theorem valid (henv : env.Sound) (h : Recognised m b) : validHeapObject env m b = true := by
  obtain ⟨r, hr, hu⟩ := h.record
  simp [validHeapObject, h.inRange, h.registered, henv.query _ _ _ hr, henv.querySize b r hu]

theorem chunk (h : Recognised m b) : ∃ c, m.chunks b = some c ∧ minUsable ≤ c.usable := by
  obtain ⟨r, hr, hu⟩ := h.record
  obtain ⟨c, hc, rfl⟩ := Option.map_eq_some_iff.mp hr
  exact ⟨c, hc, hu⟩

theorem congr (h : Recognised m b) (hr : m'.records b = m.records b)
    (hv : validBigalloc m' b = validBigalloc m b) : Recognised m' b :=
  ⟨hr ▸ h.record, h.inRange, hv ▸ h.registered⟩

theorem ne_grant {g : Grant} (h : Recognised m b) (hg : g.legal env m size = true) :
    b ≠ g.addr := by
  rintro rfl
  obtain ⟨c, hc, -⟩ := h.chunk
  rw [(Grant.legal_iff.mp hg).2.2.2.1] at hc
  cases hc

/-- A grant leaves the entry of its page alone. -/
theorem apply {g : Grant} (h : Recognised m b) (hg : g.legal env m size = true) :
    Recognised (g.apply m) b := by
  obtain ⟨c, hc, -⟩ := h.chunk
  obtain ⟨-, -, -, -, -, -, -, hremap⟩ := Grant.legal_iff.mp hg
  refine h.congr ?_ (validBigalloc_congr rfl (Grant.pageindex_apply hremap hc))
  exact congrArg (Option.map _) (Grant.apply_chunks_of_ne (h.ne_grant hg))

end Recognised

/-- `bigallocs_list` has no index twice, and the blocks of `live` are recognised. -/
structure Registry (m : Memory) (live : Nat → Prop) : Prop where
  nodup : m.bigallocsList.Nodup
  recognised : ∀ b, live b → Recognised m b

namespace Registry

variable {live live' : Nat → Prop}

theorem mono (R : Registry m live) (h : ∀ b, live' b → live b) : Registry m live' :=
  ⟨R.nodup, fun b hb => R.recognised b (h b hb)⟩

/-- What has changed is neither in the list nor in the records of the blocks. -/
theorem carry (R : Registry m live) (hr : ∀ b, live b → m'.records b = m.records b)
    (hbig : m'.bigallocsList = m.bigallocsList) (hpage : m'.pageindex = m.pageindex) :
    Registry m' live :=
  ⟨hbig ▸ R.nodup, fun b hb =>
    (R.recognised b hb).congr (hr b hb) (validBigalloc_congr hbig (congrFun hpage _))⟩

theorem alike (R : Registry m live) (h : Alike m m') : Registry m' live :=
  R.carry (fun b _ => congrFun h.records b) h.bigallocsList h.pageindex

theorem freed {freed : List Nat} (R : Registry m live) (h : Spares env freed m m') :
    Registry m' fun b => live b ∧ b ∉ freed := by
  refine (R.mono fun b hb => hb.1).carry (fun b hb => ?_) h.bigallocsList h.pageindex
  rw [h.records]
  exact if_neg hb.2

theorem apply {g : Grant} (R : Registry m live) (hg : g.legal env m size = true) :
    Registry (g.apply m) live :=
  ⟨R.nodup, fun b hb => (R.recognised b hb).apply hg⟩

/-- The chunk of a block is replaced, at its address. -/
theorem replaced {c : Chunk} (R : Registry m live) (hu : minUsable ≤ c.usable) :
    Registry (m.setChunk b (some c)) live := by
  refine ⟨R.nodup, fun x hx => ?_⟩
  have hx₀ := R.recognised x hx
  by_cases hxb : x = b
  · subst hxb
    refine ⟨⟨c.toChunkRecord, ?_, hu⟩, hx₀.inRange, hx₀.registered⟩
    rw [records_setChunk, Function.update_self]
    rfl
  · refine hx₀.congr ?_ rfl
    rw [records_setChunk, Function.update_of_ne hxb]

/-- The chunk of a block is moved to the grant, and the old one freed. -/
theorem moved {g : Grant} {c : Chunk} (R : Registry m live) (hg : g.legal env m size = true) :
    Registry (((g.apply m).setChunk g.addr (some c)).setChunk b none) fun x =>
      live x ∧ x ≠ b := by
  refine ((R.apply hg).mono fun x hx => hx.1).carry (fun x hx => ?_) rfl rfl
  rw [records_setChunk, Function.update_of_ne hx.2, records_setChunk,
    Function.update_of_ne ((R.recognised x hx.1).ne_grant hg)]

/-- `new_bigalloc` makes a live block a recognised one. -/
theorem register (R : Registry m live) (hn : ∃ r, m.records n = some r ∧ minUsable ≤ r.usable)
    (hrange : isPlausiblePointer n = true) :
    Registry (newBigalloc m n) fun b => b = n ∨ live b := by
  have hrec : (newBigalloc m n).records = m.records := by
    funext b
    simp only [Memory.records, newBigalloc_chunks]
  refine ⟨?_, fun b hb => ?_⟩
  · unfold newBigalloc
    split
    · exact R.nodup
    next hv =>
      refine List.nodup_cons.mpr ⟨fun hmem => hv ?_, R.nodup⟩
      simp only [validBigalloc, List.any_eq_true]
      exact ⟨_, hmem, beq_self_eq_true _⟩
  · rcases hb with rfl | hb
    · exact ⟨hrec ▸ hn, hrange, newBigalloc_self⟩
    · have hb := R.recognised b hb
      exact ⟨hrec ▸ hb.record, hb.inRange, newBigalloc_of_valid hb.registered⟩

end Registry

/-! ## Calls -/

/-- The collection in the middle of a call frees what its log says. -/
theorem Registry.trigger {live : Nat → Prop} {collects : Bool} (R : Registry s.toMemory live)
    (h : (if collects then gcCollect env fuel s else pure s) = .ok s₁) :
    Registry s₁.toMemory fun b => live b ∧ b ∉ sweptBetween s s₁ := by
  cases collects with
  | true =>
    obtain ⟨freed, hlog, S⟩ := gcCollect_spares h
    have hswept : sweptBetween s s₁ = freed := by simp [sweptBetween, hlog]
    rw [hswept]
    exact R.freed S
  | false =>
    obtain rfl := Except.ok.inj h
    exact R.mono fun b hb => hb.1

theorem gcMalloc_registry {answer : AllocAnswer} {live : Nat → Prop}
    (R : Registry s.toMemory live) (h : gcMalloc env fuel answer size s = .ok (ret, s')) :
    Registry s'.toMemory fun b =>
      (ret ≠ 0 ∧ b = ret) ∨ live b ∧ b ∉ sweptBetween s s' := by
  obtain ⟨s₀, s₁, h₀, htrig, hcases⟩ := gcMalloc_cases h
  obtain ⟨-, rfl⟩ := semWait_ok h₀
  have R₁ := R.trigger (s := { s with allocatorMutex := s.allocatorMutex - 1 }) htrig
  cases hcases with
  | refused => exact R₁.mono fun b hb => hb.resolve_left fun h => h.1 rfl
  | @served g m _ hlegal henlist =>
    obtain ⟨m₁, A, rfl⟩ := enlist_alike henlist
    obtain ⟨hrange, -, -, -, -, hu, -⟩ := Grant.legal_iff.mp hlegal
    have hnew : ∃ r, m₁.records g.addr = some r ∧ minUsable ≤ r.usable := by
      refine ⟨g.chunk.toChunkRecord, ?_, hu⟩
      rw [A.records, Memory.records, Grant.apply_chunks_self]
      rfl
    exact (((R₁.apply hlegal).alike A).register hnew hrange).mono fun b hb => hb.imp_left And.right

theorem gcRealloc_registry {answer : ReallocAnswer} {live : Nat → Prop} (henv : env.Sound)
    (R : Registry s.toMemory live) (hlive : live p) (hsize : size ≠ 0)
    (h : gcRealloc env fuel answer p size s = .ok (ret, s')) :
    Registry s'.toMemory fun b => if ret = 0 then live b ∧ b ∉ sweptBetween s s'
      else b = ret ∨ (live b ∧ b ∉ sweptBetween s s') ∧ b ≠ p := by
  have hp := R.recognised p hlive
  obtain ⟨c, hc, hu⟩ := hp.chunk
  have hp0 : p ≠ 0 := by
    have := isPlausiblePointer_iff.mp hp.inRange
    omega
  obtain ⟨-, c', s₁, s₂, m', hs, -, -, htrig, hcases, hrelink, rfl⟩ :=
    gcRealloc_cases henv hp0 hsize hc hu h
  have R₀ : Registry (s.detached p c').toMemory live := R.alike <| by
    have A : Alike (s.called p).toMemory ((s.called p).setChunk p (some c')) :=
      alike_setChunk hc hs.record
    exact ⟨A.records, A.bigallocsList, A.pageindex⟩
  have R₁ := R₀.trigger htrig
  obtain ⟨m₁, A, hm'⟩ := relink_alike hrelink
  cases hcases with
  | failed =>
    rw [if_pos (.inl rfl)] at hm'
    subst hm'
    exact (R₁.alike A).mono fun b hb => by rwa [if_pos rfl] at hb
  | @resized r old hr hold hu' hd =>
    rw [if_pos (.inr rfl)] at hm'
    subst hm'
    simp only [hp0, if_false]
    -- the address stays live, so its page keeps its entry
    have hcol : answer.collects size s = false := by simp [ReallocAnswer.collects, hr]
    rw [hcol] at htrig
    obtain rfl := Except.ok.inj htrig
    exact ((R₀.replaced hu').alike A).mono fun b hb => hb.elim (fun e => e ▸ hlive) fun hb => hb.1.1
  | @moved g old hr hg hlegal hold =>
    have hg0 := Grant.addr_ne_zero hlegal
    obtain ⟨hrange, -, -, -, -, hu', -⟩ := Grant.legal_iff.mp hlegal
    have hne : g.addr ≠ p := fun e => by
      obtain ⟨c₂, hc₂⟩ := relink_live hg0 hrelink
      rw [e, show (_ : Memory).chunks p = none from Memory.setChunk_self] at hc₂
      cases hc₂
    rw [if_neg (not_or.mpr ⟨hg0, hne.symm⟩)] at hm'
    subst hm'
    simp only [hg0, if_false]
    have hnew : ∃ r, m₁.records g.addr = some r ∧ minUsable ≤ r.usable := by
      refine ⟨g.chunk.toChunkRecord, ?_, hu'⟩
      rw [A.records, records_setChunk, Function.update_of_ne hne, records_setChunk,
        Function.update_self]
      rfl
    exact ((R₁.moved hlegal).alike A).register hnew hrange

theorem gcRealloc_zero_registry {answer : ReallocAnswer} {live : Nat → Prop} (hp : p ≠ 0)
    (R : Registry s.toMemory live) (h : gcRealloc env fuel answer p 0 s = .ok (ret, s')) :
    ret = 0 ∧ Registry s'.toMemory fun b => (live b ∧ b ∉ sweptBetween s s') ∧ b ≠ p := by
  obtain ⟨s₀, previous, next, m, h₀, -, -, hm, rfl, rfl⟩ := gcRealloc_zero_steps hp h
  obtain ⟨-, rfl⟩ := semWait_ok h₀
  obtain ⟨m₁, h₁, hm⟩ := Except.bind_eq_ok.mp hm
  obtain ⟨m₂, h₂, hm⟩ := Except.bind_eq_ok.mp hm
  have R₀ : Registry (s.called p).toMemory live := R.alike ⟨rfl, rfl, rfl⟩
  have S : Spares env [p] (s.called p).toMemory m := (Memory.spares_linkForward h₁).trans
    ((Memory.spares_linkBack h₂).trans (Memory.spares_myfree hm))
  refine ⟨rfl, (R₀.freed S).mono fun b hb => ⟨hb.1.1, ?_⟩⟩
  exact fun h => hb.2 (List.mem_singleton.mp h)

/-- What an allocation has handed out: its result, and blocks that were handed out before and have
not been swept. -/
theorem Registry.handedAfter_malloc {handed : List Nat} (hcall : ∀ l, ∀ b ∈ handedAfter call ret l,
      ret ≠ 0 ∧ b = ret ∨ b ∈ l)
    (R : Registry s'.toMemory fun b => (ret ≠ 0 ∧ b = ret) ∨ b ∈ handed ∧ b ∉ sweptBetween s s') :
    Registry s'.toMemory
      (· ∈ handedAfter call ret (handed.filter fun b => !(sweptBetween s s').contains b)) :=
  R.mono fun b hb => (hcall _ b hb).imp_right fun hb => by simpa using hb

/-- Every call keeps the blocks that are handed out recognised. -/
theorem exec_registry {handed : List Nat} (henv : env.Sound)
    (R : Registry s.toMemory (· ∈ handed)) (hallowed : call.allowed handed = true)
    (h : exec env fuel s call = .ok (ret, s')) :
    Registry s'.toMemory
      (· ∈ handedAfter call ret (handed.filter fun b => !(sweptBetween s s').contains b)) := by
  have hkept : ∀ b, b ∈ handed.filter (fun b => !(sweptBetween s s').contains b) ↔
      b ∈ handed ∧ b ∉ sweptBetween s s' := fun b => by simp
  have hafter : ∀ l, ∀ b ∈ handedAfter call ret l, ret ≠ 0 ∧ b = ret ∨ b ∈ l := fun l b hb =>
    (mem_handedAfter hb).imp_left And.right
  cases exec_cases h with
  | malloc h => exact (gcMalloc_registry R h).handedAfter_malloc hafter
  | reallocNull h => exact (gcMalloc_registry R h).handedAfter_malloc hafter
  | @realloc p size answer _ _ hp h =>
    have hlive : p ∈ handed := by simpa [Call.allowed, hp] using hallowed
    by_cases hsize : size = 0
    · subst hsize
      obtain ⟨rfl, R'⟩ := gcRealloc_zero_registry hp R h
      refine R'.mono fun b hb => ?_
      simp only [handedAfter, if_true, List.mem_filter (p := fun b => decide (b ≠ p)),
        decide_eq_true_eq] at hb
      exact ⟨(hkept b).mp hb.1, hb.2⟩
    · refine (gcRealloc_registry henv R hlive hsize h).mono fun b hb => ?_
      by_cases hret : ret = 0
      · simp only [handedAfter, hret, hsize, if_true, if_false, hkept] at hb ⊢
        exact hb
      · simp only [handedAfter, hret, if_false, List.mem_cons,
          List.mem_filter (p := fun b => decide (b ≠ p)), decide_eq_true_eq, hkept] at hb ⊢
        exact hb
  | collect h =>
    have h : (if true then gcCollect env fuel s else pure s) = .ok s' := h
    exact (R.trigger h).mono fun b hb => (hkept b).mp hb
  | mutate hcall hm =>
    rw [Call.mutates_handedAfter hcall]
    exact (R.alike hm.alike).mono fun b hb => (List.mem_filter.mp hb).1

/-! ## Where collections start -/

/-- The states in which a call enters `gc_collect`. -/
inductive Call.Enters (env : Env) (s : State) : Call → State → Prop
  | malloc {size answer s₀} (hcol : answer.collects s = true) (h : semWait s = .ok s₀) :
      Enters env s (.malloc size answer) s₀
  | reallocNull {size answer s₀} (hcol : answer.alloc.collects s = true) (h : semWait s = .ok s₀) :
      Enters env s (.realloc 0 size answer) s₀
  | realloc {p size answer s₀ m₁ m₂} (hp : p ≠ 0) (hsize : size ≠ 0)
      (hcol : answer.collects size s = true) (h : semWait (s.called p) = .ok s₀)
      (h₁ : s₀.setPreviousPointer env p 0 = .ok m₁) (h₂ : m₁.setNextPointer env p 0 = .ok m₂) :
      Enters env s (.realloc p size answer) { s₀ with toMemory := m₂ }
  | collect : Enters env s .collect s

/-- On its way into `gc_collect` a call changes nothing that the filter looks at. -/
theorem Call.Enters.alike {t : State} (h : call.Enters env s t) : Alike s.toMemory t.toMemory := by
  cases h with
  | malloc _ h => exact (semWait_ok h).2 ▸ ⟨rfl, rfl, rfl⟩
  | reallocNull _ h => exact (semWait_ok h).2 ▸ ⟨rfl, rfl, rfl⟩
  | @realloc p size answer s₀ m₁ m₂ _ _ _ h h₁ h₂ =>
    obtain ⟨-, rfl⟩ := semWait_ok h
    have A := (Memory.spares_setPreviousPointer h₁).alike.trans
      (Memory.spares_setNextPointer h₂).alike
    exact ⟨A.records, A.bigallocsList, A.pageindex⟩
  | collect => exact .refl _

/-- Between the two states at most one collection has run, and it has started from a state of
`enters`. -/
def LogsFrom (s s' : State) (enters : State → Prop) : Prop :=
  s'.collections = s.collections ∨ ∃ t freed, enters t ∧
    s'.collections = s.collections ++ [⟨t.toMemory, freed⟩]

theorem LogsFrom.mono {enters enters' : State → Prop} (h : LogsFrom s s' enters)
    (henters : ∀ t, enters t → enters' t) : LogsFrom s s' enters' :=
  h.imp_right fun ⟨t, freed, ht, hlog⟩ => ⟨t, freed, henters t ht, hlog⟩

theorem trigger_logsFrom {collects : Bool}
    (h : (if collects then gcCollect env fuel s else pure s) = .ok s₁) :
    LogsFrom s s₁ fun t => collects = true ∧ t = s := by
  cases collects with
  | true =>
    obtain ⟨freed, hlog, -⟩ := gcCollect_spares h
    exact .inr ⟨s, freed, ⟨rfl, rfl⟩, hlog⟩
  | false => exact .inl (Except.ok.inj h ▸ rfl)

theorem gcMalloc_logsFrom {answer : AllocAnswer}
    (h : gcMalloc env fuel answer size s = .ok (ret, s')) :
    LogsFrom s s' fun t => answer.collects s = true ∧ semWait s = .ok t := by
  obtain ⟨s₀, s₁, h₀, htrig, hcases⟩ := gcMalloc_cases h
  obtain ⟨-, rfl⟩ := semWait_ok h₀
  have hlog : LogsFrom _ s₁ fun t => answer.collects s = true ∧ semWait s = .ok t :=
    (trigger_logsFrom htrig).mono fun t ht => ⟨ht.1, ht.2 ▸ h₀⟩
  cases hcases <;> exact hlog

theorem gcRealloc_logsFrom {answer : ReallocAnswer} (hp : p ≠ 0)
    (h : gcRealloc env fuel answer p size s = .ok (ret, s')) :
    LogsFrom s s' (Call.Enters env s (.realloc p size answer)) := by
  by_cases hsize : size = 0
  · subst hsize
    obtain ⟨s₀, previous, next, m', h₀, -, -, -, -, rfl⟩ := gcRealloc_zero_steps hp h
    obtain ⟨-, rfl⟩ := semWait_ok h₀
    exact .inl rfl
  · obtain ⟨s₀, m₁, m₂, s₂, m', h₀, h₁, h₂, hrealloc, -, rfl⟩ := gcRealloc_steps hp hsize h
    obtain ⟨s₁, htrig, hcases⟩ := dlrealloc_cases hrealloc
    have hwait := (semWait_ok h₀).2
    have hlog : LogsFrom _ s₁ (Call.Enters env s (.realloc p size answer)) :=
      (trigger_logsFrom htrig).mono fun t ht => by
        obtain ⟨hcol, rfl⟩ := ht
        exact .realloc hp hsize (by rw [hwait] at hcol; exact hcol) h₀ h₁ h₂
    subst hwait
    cases hcases <;> exact hlog

/-- The collection that a call has run, if any, has started from a state in which the call enters
it. -/
theorem exec_logsFrom (h : exec env fuel s call = .ok (ret, s')) :
    LogsFrom s s' (call.Enters env s) := by
  cases exec_cases h with
  | malloc h => exact (gcMalloc_logsFrom h).mono fun t ht => .malloc ht.1 ht.2
  | reallocNull h => exact (gcMalloc_logsFrom h).mono fun t ht => .reallocNull ht.1 ht.2
  | realloc hp h => exact gcRealloc_logsFrom hp h
  | collect h =>
    have h : (if true then gcCollect env fuel s else pure s) = .ok s' := h
    exact (trigger_logsFrom h).mono fun t ht => ht.2 ▸ .collect
  | mutate => exact .inl rfl

/-! ## Whole runs -/

/-- In every run, harmless or not, the blocks handed out are recognised. -/
theorem Session.run_registry {x x' : Session} {calls : List Call} (henv : env.Sound)
    (R : Registry x.state.toMemory (· ∈ x.handed)) (h : x.run env fuel calls = .ok x') :
    Registry x'.state.toMemory (· ∈ x'.handed) := by
  induction calls generalizing x with
  | nil => exact Except.ok.inj h ▸ R
  | cons call calls ih =>
    obtain ⟨y, hstep, hrun⟩ := foldlM_cons_eq_ok.mp h
    refine ih ?_ hrun
    obtain ⟨hallowed, ret, s', hexec, rfl⟩ := Session.step_cases hstep
    exact exec_registry henv R hallowed hexec

/-- The blocks of `handed` are recognised in the memory that a collection starts from. -/
def AllRecognised (env : Env) (handed : List Nat) (m : Memory) : Prop :=
  ∀ b ∈ handed, m.pageindex (pagenum b) ∈ m.bigallocsList ∧ validHeapObject env m b = true

theorem Registry.all {handed : List Nat} (henv : env.Sound) (R : Registry m (· ∈ handed)) :
    AllRecognised env handed m := fun b hb => by
  have hreg := (R.recognised b hb).registered
  simp only [validBigalloc, List.any_eq_true, beq_iff_eq] at hreg
  obtain ⟨index, hmem, heq⟩ := hreg
  exact ⟨heq ▸ hmem, (R.recognised b hb).valid henv⟩

/-- In every state that a run reaches, `bigallocs_list` has no index twice and has that of the page
of every block handed out, and the filter recognises these blocks: there, in every state from which
the next call enters `gc_collect`, and where the collections that it has run have started. -/
theorem run_recognised {x x' : Session} {calls : List Call} (henv : env.Sound)
    (hx : Started env x) (hnodup : x.state.bigallocsList.Nodup)
    (h : x.run env fuel calls = .ok x') :
    x'.state.bigallocsList.Nodup ∧ AllRecognised env x'.handed x'.state.toMemory ∧
      (∀ (call : Call) (t : State), call.Enters env x'.state t →
        AllRecognised env x'.handed t.toMemory) ∧
      ∀ call y, x'.step env fuel call = .ok y →
        ∀ coll ∈ y.state.collections.drop x'.state.collections.length,
          AllRecognised env x'.handed coll.start := by
  have R₀ : Registry x.state.toMemory (· ∈ x.handed) :=
    ⟨hnodup, fun b hb => by rw [hx.handed] at hb; cases hb⟩
  have R := Session.run_registry henv R₀ h
  refine ⟨R.nodup, R.all henv, fun call t ht => (R.alike ht.alike).all henv,
    fun call y hstep coll hcoll => ?_⟩
  obtain ⟨-, ret, s', hexec, rfl⟩ := Session.step_cases hstep
  rcases exec_logsFrom hexec with hlog | ⟨t, freed, ht, hlog⟩
  · simp [hlog] at hcoll
  · obtain rfl : coll = ⟨t.toMemory, freed⟩ := by simpa [hlog] using hcoll
    exact (R.alike ht.alike).all henv

/-- `dlmalloc` serves the request at `a`, on a page that liballocs assigns to the region `index`. -/
def servedIn (index a : Nat) : AllocAnswer :=
  ⟨false, some { recordAt a with remap := [(pagenum a, index)] }⟩

/-- Of two blocks in one region the first moves to another region. -/
def regionsRun : List Call :=
  [.malloc 16 (served 0x400000), .malloc 16 (served 0x600000),
    .realloc 0x400000 16 ⟨none, servedIn 1 0x800000⟩]

theorem run_recognised_regionsRun : ∃ x', startSession.run Env.flat 8 regionsRun = .ok x' ∧
    (x'.state.bigallocsList.Nodup ∧ AllRecognised Env.flat x'.handed x'.state.toMemory ∧
      (∀ (call : Call) (t : State), call.Enters Env.flat x'.state t →
        AllRecognised Env.flat x'.handed t.toMemory) ∧
      ∀ call y, x'.step Env.flat 8 call = .ok y →
        ∀ coll ∈ y.state.collections.drop x'.state.collections.length,
          AllRecognised Env.flat x'.handed coll.start) := by
  have hrun : ((·.handed) <$> startSession.run Env.flat 8 regionsRun) =
      .ok [0x800000, 0x600000] := by
    decide +kernel
  obtain ⟨x', h, -⟩ := Except.map_eq_ok.mp hrun
  exact ⟨x', h, run_recognised Env.flat_sound startSession_started (List.nodup_singleton 0) h⟩

end PrecisionGc
