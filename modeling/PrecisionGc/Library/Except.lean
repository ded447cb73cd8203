import Mathlib.Tactic.Common

/-!
# Computations that may fail

How a successful step is peeled off a sequence of steps: `ok_bind` runs it forwards, `bind_eq_ok`
splits a run that succeeded. `Avoids` says that one certain failure does not occur, with a rule for
each way in which computations are put together.
-/

namespace Except

universe u v

variable {ε : Type u} {α β : Type v} {x : Except ε α} {f : α → Except ε β} {a : α} {b : β} {e : ε}

@[simp] theorem ok_bind : ((ok a : Except ε α) >>= f) = f a := rfl

@[simp] theorem error_bind : ((error e : Except ε α) >>= f) = error e := rfl

@[simp] theorem pure_def : (pure a : Except ε α) = ok a := rfl

@[simp] theorem throw_def : (throw e : Except ε α) = error e := rfl

theorem bind_eq_ok : x >>= f = ok b ↔ ∃ a, x = ok a ∧ f a = ok b := by
  cases x <;> simp

theorem map_eq_ok {g : α → β} : g <$> x = ok b ↔ ∃ a, x = ok a ∧ g a = b := by
  cases x <;> simp [Functor.map, Except.map]

/-- A loop that appends to a list. -/
theorem foldlM_append {ι γ : Type*} {g : List γ → ι → Except ε (List γ)} {f : ι → List γ}
    {is : List ι} (h : ∀ i ∈ is, ∀ l, g l i = ok (l ++ f i)) (l : List γ) :
    is.foldlM g l = ok (l ++ is.flatMap f) := by
  induction is generalizing l with
  | nil => simp
  | cons i is ih =>
    have htail : ∀ j ∈ is, ∀ l, g l j = ok (l ++ f j) := fun j hj => h j (List.mem_cons_of_mem _ hj)
    rw [List.foldlM_cons, h i List.mem_cons_self, ok_bind, ih htail, List.append_assoc,
      List.flatMap_cons]

/-! ## One failure -/

/-- The computation does not fail with `e`. -/
def Avoids (e : ε) (x : Except ε α) : Prop := x ≠ error e

namespace Avoids

theorem ok (a : α) : Avoids e (.ok a) := nofun

theorem error {e' : ε} (h : e' ≠ e) : Avoids e (.error e' : Except ε α) :=
  fun h' => h (Except.error.inj h')

theorem bind (hx : Avoids e x) (hf : ∀ a, Avoids e (f a)) : Avoids e (x >>= f) := by
  cases x with
  | error e' => exact error fun h => hx (congrArg Except.error h)
  | ok a => exact hf a

theorem foldlM {γ : Type*} {g : α → γ → Except ε α} (hg : ∀ a c, Avoids e (g a c))
    (l : List γ) (a : α) : Avoids e (l.foldlM g a) := by
  induction l generalizing a with
  | nil => exact ok a
  | cons c l ih =>
    rw [List.foldlM_cons]
    exact (hg a c).bind ih

end Avoids

end Except
