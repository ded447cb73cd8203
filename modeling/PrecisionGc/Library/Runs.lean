import PrecisionGc.Library.Except

/-!
# Runs of a step that may fail

A run is a fold of the step over a list of inputs. `Along` says that a condition on the state and
the next input holds at each step that the run takes; what the steps preserve under the condition,
the run preserves.
-/

namespace Runs

universe u v w

variable {σ : Type u} {ι : Type v} {ε : Type w} {step : σ → ι → Except ε σ} {ok : σ → ι → Prop}
  {P : σ → Prop} {x y : σ} {l : List ι}

/-- Each input of the run meets the condition in the state in which it is taken. -/
def Along (step : σ → ι → Except ε σ) (ok : σ → ι → Prop) : σ → List ι → Prop
  | _, [] => True
  | x, i :: l => ok x i ∧ ∀ y, step x i = .ok y → Along step ok y l

theorem Along.of_forall (h : ∀ x i, ok x i) : Along step ok x l := by
  induction l generalizing x with
  | nil => trivial
  | cons i l ih => exact ⟨h x i, fun _ _ => ih⟩

theorem foldlM_cons_eq_ok {i : ι} :
    (i :: l).foldlM step x = .ok y ↔ ∃ z, step x i = .ok z ∧ l.foldlM step z = .ok y := by
  rw [List.foldlM_cons]
  cases step x i <;> simp [bind, Except.bind]

/-- A step whose result is known. -/
theorem Along.cons {i : ι} (hi : ok x i) (hstep : step x i = .ok y) (h : Along step ok y l) :
    Along step ok x (i :: l) := by
  refine ⟨hi, fun z hz => ?_⟩
  obtain rfl := Except.ok.inj (hstep.symm.trans hz)
  exact h

/-- A run along the condition, and one from each state in which it returns. -/
theorem Along.append {l' : List ι} (h : Along step ok x l)
    (h' : ∀ y, l.foldlM step x = .ok y → Along step ok y l') : Along step ok x (l ++ l') := by
  induction l generalizing x with
  | nil => exact h' x rfl
  | cons i l ih =>
    exact ⟨h.1, fun z hz => ih (h.2 z hz) fun y hy => h' y (foldlM_cons_eq_ok.mpr ⟨z, hz, hy⟩)⟩

/-- What every step preserves under the condition, a run along the condition preserves. -/
theorem Along.invariant (hrun : Along step ok x l)
    (hstep : ∀ x i y, P x → ok x i → step x i = .ok y → P y) (hx : P x)
    (h : l.foldlM step x = .ok y) : P y := by
  induction l generalizing x with
  | nil => exact Except.ok.inj h ▸ hx
  | cons i l ih =>
    obtain ⟨z, hz, h⟩ := foldlM_cons_eq_ok.mp h
    exact ih (hrun.2 z hz) (hstep x i z hx hrun.1 hz) h

/-- What every step preserves, a run preserves. -/
theorem foldlM_invariant (hstep : ∀ x i y, P x → step x i = .ok y → P y) (hx : P x)
    (h : l.foldlM step x = .ok y) : P y := by
  have hrun : Along step (fun _ _ => True) x l := .of_forall fun _ _ => trivial
  exact hrun.invariant (fun x i y hx _ => hstep x i y hx) hx h

/-- Two conditions that agree wherever an invariant holds are met along the same runs, if the
invariant is kept by the steps that meet them. -/
theorem Along.iff {p q : σ → ι → Prop} (hrun : Along step ok x l)
    (hiff : ∀ x i, P x → ok x i → (p x i ↔ q x i))
    (hstep : ∀ x i y, P x → ok x i → p x i → step x i = .ok y → P y) (hx : P x) :
    Along step p x l ↔ Along step q x l := by
  induction l generalizing x with
  | nil => exact Iff.rfl
  | cons i l ih =>
    have hi := hiff x i hx hrun.1
    constructor
    · exact fun h => ⟨hi.mp h.1, fun y hy =>
        (ih (hrun.2 y hy) (hstep x i y hx hrun.1 h.1 hy)).mp (h.2 y hy)⟩
    · exact fun h => ⟨hi.mpr h.1, fun y hy =>
        (ih (hrun.2 y hy) (hstep x i y hx hrun.1 (hi.mpr h.1) hy)).mpr (h.2 y hy)⟩

/-- A run that returns has returned from each of its steps. -/
theorem exists_step_of_mem {i : ι} (hi : i ∈ l) (h : l.foldlM step x = .ok y) :
    ∃ l₁ l₂ z z', l = l₁ ++ i :: l₂ ∧ l₁.foldlM step x = .ok z ∧ step z i = .ok z' ∧
      (l₁ ++ [i]).foldlM step x = .ok z' := by
  induction l generalizing x with
  | nil => cases hi
  | cons j l ih =>
    obtain ⟨z, hz, h⟩ := foldlM_cons_eq_ok.mp h
    rcases List.mem_cons.mp hi with rfl | hi
    · exact ⟨[], l, x, z, rfl, rfl, hz, foldlM_cons_eq_ok.mpr ⟨z, hz, rfl⟩⟩
    · obtain ⟨l₁, l₂, u, u', rfl, h₁, hu, h₂⟩ := ih hi h
      exact ⟨j :: l₁, l₂, u, u', rfl, foldlM_cons_eq_ok.mpr ⟨z, hz, h₁⟩, hu,
        foldlM_cons_eq_ok.mpr ⟨z, hz, h₂⟩⟩

end Runs
