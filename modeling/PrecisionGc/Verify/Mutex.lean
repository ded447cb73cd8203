import PrecisionGc.Verify.RunResults

/-!
# The allocator mutex

Every way through `gc_realloc` posts the semaphore that it has waited for, and so does `gc_malloc`
when it is given a block. When `mymalloc` refuses, `gc_malloc` returns without the post
(`exec_mutex`), and the next call of either function waits for ever.
-/

namespace PrecisionGc
open Runs

variable {env : Env} {s s' : State} {fuel p size ret : Nat} {x x' : Session} {call : Call}
  {calls : List Call}

theorem gcCollect_mutex (h : gcCollect env fuel s = .ok s') :
    s'.allocatorMutex = s.allocatorMutex := by
  obtain ⟨-, -, q, m₁, q', m', freed, -, -, -, rfl⟩ := gcCollect_steps h
  rfl

theorem trigger_mutex {collects : Bool}
    (h : (if collects then gcCollect env fuel s else pure s) = .ok s') :
    s'.allocatorMutex = s.allocatorMutex := by
  cases collects with
  | true => exact gcCollect_mutex h
  | false => exact Except.ok.inj h ▸ rfl

theorem semWait_mutex (h : semWait s = .ok s') :
    s.allocatorMutex = s'.allocatorMutex + 1 := by
  obtain ⟨hne, rfl⟩ := semWait_ok h
  exact (Nat.succ_pred_eq_of_ne_zero hne).symm

/-- The early return of `gc_malloc` keeps what it has taken from the semaphore. -/
theorem gcMalloc_mutex {answer : AllocAnswer}
    (h : gcMalloc env fuel answer size s = .ok (ret, s')) :
    s.allocatorMutex = s'.allocatorMutex + if answer.grant.isNone then 1 else 0 := by
  obtain ⟨s₀, s₁, h₀, htrig, hcases⟩ := gcMalloc_cases h
  rw [semWait_mutex h₀, ← trigger_mutex htrig]
  cases hcases with
  | refused hg => simp [hg]
  | served hg => simp [hg, semPost]

theorem dlrealloc_mutex {answer : ReallocAnswer} {n : Nat}
    (h : dlrealloc env fuel answer p size s = .ok (n, s')) :
    s'.allocatorMutex = s.allocatorMutex := by
  obtain ⟨s₁, htrig, hcases⟩ := dlrealloc_cases h
  rw [← trigger_mutex htrig]
  cases hcases <;> rfl

/-- Each of the four ways through `gc_realloc` ends with a post. -/
theorem gcRealloc_mutex {answer : ReallocAnswer} (hp : p ≠ 0)
    (h : gcRealloc env fuel answer p size s = .ok (ret, s')) :
    s'.allocatorMutex = s.allocatorMutex := by
  by_cases hsize : size = 0
  · subst hsize
    obtain ⟨s₀, previous, next, m', h₀, -, -, -, -, rfl⟩ := gcRealloc_zero_steps hp h
    exact (semWait_mutex h₀).symm
  · obtain ⟨s₀, m₁, m₂, s₂, m', h₀, -, -, hrealloc, -, rfl⟩ := gcRealloc_steps hp hsize h
    have halloc := dlrealloc_mutex hrealloc
    change s₂.allocatorMutex = s₀.allocatorMutex at halloc
    have hwait := semWait_mutex h₀
    change s.allocatorMutex = s₀.allocatorMutex + 1 at hwait
    rw [hwait, ← halloc]
    rfl

/-- The call goes to `gc_malloc`, and `mymalloc` returns NULL. -/
def Call.refused : Call → Bool
  | .malloc _ answer => answer.grant.isNone
  | .realloc p _ answer => p = 0 && answer.alloc.grant.isNone
  | _ => false

theorem exec_mutex (h : exec env fuel s call = .ok (ret, s')) :
    s.allocatorMutex = s'.allocatorMutex + if call.refused then 1 else 0 := by
  cases exec_cases h with
  | malloc h => exact gcMalloc_mutex h
  | reallocNull h => simpa [Call.refused] using gcMalloc_mutex h
  | realloc hp h => simp [Call.refused, hp, gcRealloc_mutex hp h]
  | collect h => exact (gcCollect_mutex h).symm
  | mutate hcall _ =>
    cases call with
    | malloc | realloc | collect => cases hcall
    | _ => rfl

theorem Session.step_mutex (h : x.step env fuel call = .ok x') :
    x.state.allocatorMutex = x'.state.allocatorMutex + if call.refused then 1 else 0 := by
  obtain ⟨-, ret, s', hexec, rfl⟩ := Session.step_cases h
  exact exec_mutex hexec

theorem Session.run_mutex (hcalls : ∀ call ∈ calls, call.refused = false)
    (h : x.run env fuel calls = .ok x') :
    x'.state.allocatorMutex = x.state.allocatorMutex := by
  induction calls generalizing x with
  | nil => exact Except.ok.inj h ▸ rfl
  | cons call calls ih =>
    obtain ⟨z, hz, h⟩ := foldlM_cons_eq_ok.mp h
    have hstep := step_mutex hz
    rw [hcalls call List.mem_cons_self] at hstep
    exact (ih (fun c hc => hcalls c (.tail _ hc)) h).trans hstep.symm

/-- The mutex is free again after every part of a run that returns exactly if none of these parts
has a call of `gc_malloc` that is refused. -/
theorem run_mutex_balanced_iff (hx : x.state.allocatorMutex = 1) :
    (∀ l x', l <+: calls → x.run env fuel l = .ok x' → x'.state.allocatorMutex = 1) ↔
      ∀ l x', l <+: calls → x.run env fuel l = .ok x' → ∀ call ∈ l, call.refused = false := by
  constructor
  · intro h l x' hl hrun call hcall
    obtain ⟨l₁, l₂, z, z', rfl, hz, hstep, hz'⟩ := exists_step_of_mem hcall hrun
    have hpre : l₁ ++ [call] <+: calls := List.IsPrefix.trans ⟨l₂, by simp⟩ hl
    have hmutex := Session.step_mutex hstep
    rw [h l₁ z ((List.prefix_append l₁ [call]).trans hpre) hz, h _ z' hpre hz'] at hmutex
    by_contra hrefused
    simp [hrefused] at hmutex
  · intro h l x' hl hrun
    rw [Session.run_mutex (h l x' hl hrun) hrun, hx]

/-- The first request is refused, and the second call of `gc_malloc` blocks. -/
theorem not_mutex_balanced_refusal : Started Env.flat startSession ∧
    (∃ x, startSession.run Env.flat 8 [.malloc 16 ⟨false, none⟩] = .ok x ∧
      x.state.allocatorMutex ≠ 1) ∧
    startSession.run Env.flat 8 [.malloc 16 ⟨false, none⟩, .malloc 16 (served 0x400000)] =
      .error .blocked := by
  have hrun : ((·.state.allocatorMutex) <$>
      startSession.run Env.flat 8 [.malloc 16 ⟨false, none⟩]) = .ok 0 := by decide +kernel
  obtain ⟨x, h, hx⟩ := Except.map_eq_ok.mp hrun
  exact ⟨startSession_started, ⟨x, h, by rw [hx]; decide⟩, rfl⟩

theorem run_mutex_balanced_iff_quietRun :
    (∀ l x', l <+: quietRun → startSession.run Env.flat 8 l = .ok x' →
        x'.state.allocatorMutex = 1) ↔
      ∀ l x', l <+: quietRun → startSession.run Env.flat 8 l = .ok x' →
        ∀ call ∈ l, call.refused = false :=
  run_mutex_balanced_iff startSession_started.allocatorMutex

end PrecisionGc
