import PrecisionGc.Library.Except
import Mathlib.Order.WellFounded

/-!
# While loops with a fuel bound

`whileM timeout cond body` runs `body` as long as `cond` holds, at most as often as its fuel
allows, and answers `timeout` when the fuel is used up. A computation with fuel `Settles` on a
result when enough fuel gives it and no fuel gives another one. The invariant of a loop is indexed
by ghost data `γ` that a well-founded relation orders, and `whileM_settles` gives total correctness.
-/

namespace WhileLoop

universe u v

variable {ε : Type u} {σ : Type v} {γ : Type*} {timeout : ε} {cond : σ → Bool}
  {body : σ → Except ε σ} {n m : Nat} {s s' : σ}

/-- `while (cond) body`, with at most `n` rounds. -/
def whileM (timeout : ε) (cond : σ → Bool) (body : σ → Except ε σ) : Nat → σ → Except ε σ
  | 0, s => if cond s then .error timeout else .ok s
  | n + 1, s => if cond s then body s >>= whileM timeout cond body n else .ok s

theorem whileM_exit (h : cond s = false) : whileM timeout cond body n s = .ok s := by
  cases n <;> simp [whileM, h]

theorem whileM_step (h : cond s = true) (hb : body s = .ok s') :
    whileM timeout cond body (n + 1) s = whileM timeout cond body n s' := by
  simp only [whileM, h, hb]; rfl

/-- A loop that has finished finishes in the same way with more fuel. -/
theorem whileM_mono (h : whileM timeout cond body n s = .ok s') (hn : n ≤ m) :
    whileM timeout cond body m s = .ok s' := by
  induction n generalizing s m with
  | zero =>
    cases hc : cond s with
    | true => simp [whileM, hc] at h
    | false =>
      simp only [whileM, hc, Bool.false_eq_true, if_false] at h
      rw [whileM_exit hc, h]
  | succ n ih =>
    cases hc : cond s with
    | false =>
      rw [whileM_exit hc] at h
      rw [whileM_exit hc, h]
    | true =>
      obtain ⟨m, rfl⟩ : ∃ k, m = k + 1 := ⟨m - 1, by omega⟩
      cases hb : body s with
      | error e => simp [whileM, hc, hb, bind, Except.bind] at h
      | ok t =>
        rw [whileM_step hc hb] at h ⊢
        exact ih h (by omega)

/-- What every round keeps holds when the loop has returned. -/
theorem whileM_invariant (Inv : σ → Prop)
    (hstep : ∀ s s', Inv s → cond s = true → body s = .ok s' → Inv s') (hs : Inv s)
    (h : whileM timeout cond body n s = .ok s') : Inv s' ∧ cond s' = false := by
  induction n generalizing s with
  | zero =>
    cases hc : cond s with
    | true => simp [whileM, hc] at h
    | false =>
      rw [whileM_exit hc] at h
      exact Except.ok.inj h ▸ ⟨hs, hc⟩
  | succ n ih =>
    cases hc : cond s with
    | true =>
      simp only [whileM, hc, if_true] at h
      obtain ⟨t, hb, h⟩ := Except.bind_eq_ok.mp h
      exact ih (hstep s t hs hc hb) h
    | false =>
      rw [whileM_exit hc] at h
      exact Except.ok.inj h ▸ ⟨hs, hc⟩

/-- A loop that keeps a record beside its state runs as the loop without the record. -/
theorem whileM_map {τ : Type v} (f : τ → σ) {cond' : τ → Bool} {body' : τ → Except ε τ} {t : τ}
    (hcond : ∀ t, cond' t = cond (f t)) (hbody : ∀ t, f <$> body' t = body (f t)) :
    f <$> whileM timeout cond' body' n t = whileM timeout cond body n (f t) := by
  induction n generalizing t with
  | zero =>
    simp only [whileM, hcond]
    split <;> rfl
  | succ n ih =>
    simp only [whileM, hcond, ← hbody]
    split
    · cases body' t with
      | error e => rfl
      | ok t' => exact ih
    · rfl

/-! ## Results that do not depend on the fuel -/

/-- With enough fuel the answer is `a`, and no amount of fuel gives another result. -/
structure Settles (f : Nat → Except ε σ) (a : σ) : Prop where
  enough : ∃ n, ∀ k, n ≤ k → f k = .ok a
  only : ∀ k b, f k = .ok b → b = a

namespace Settles

variable {f : Nat → Except ε σ} {a : σ}

theorem const {x : Except ε σ} (h : x = .ok a) : Settles (fun _ => x) a :=
  ⟨⟨0, fun _ _ => h⟩, fun _ _ hb => Except.ok.inj (hb.symm.trans h)⟩

theorem bind {τ : Type v} {g : Nat → σ → Except ε τ} {b : τ} (hf : Settles f a)
    (hg : Settles (fun k => g k a) b) : Settles (fun k => f k >>= g k) b where
  enough := by
    obtain ⟨n, hn⟩ := hf.enough
    obtain ⟨m, hm⟩ := hg.enough
    refine ⟨max n m, fun k hk => ?_⟩
    rw [hn k (le_trans (Nat.le_max_left n m) hk), Except.ok_bind]
    exact hm k (le_trans (Nat.le_max_right n m) hk)
  only k c hc := by
    obtain ⟨a', ha', hc⟩ := Except.bind_eq_ok.mp hc
    rw [hf.only k a' ha'] at hc
    exact hg.only k c hc

theorem congr {g : Nat → Except ε σ} (hf : Settles f a) (h : ∀ k, g k = f k) : Settles g a := by
  obtain rfl : g = f := funext h
  exact hf

end Settles

/-! ## Computations that may be stopped -/

/-- With enough fuel the computation returns, or ends in a failure that `stops` allows; what it
returns does not depend on the fuel. -/
structure Ends (stops : ε → Prop) (f : Nat → Except ε σ) : Prop where
  enough : ∃ n, ∀ k, n ≤ k → (∃ a, f k = .ok a) ∨ ∃ e, stops e ∧ f k = .error e
  unique : ∀ k k' a a', f k = .ok a → f k' = .ok a' → a = a'

variable {stops : ε → Prop} {f : Nat → Except ε σ}

theorem Settles.ends {a : σ} (h : Settles f a) : Ends stops f where
  enough := by
    obtain ⟨n, hn⟩ := h.enough
    exact ⟨n, fun k hk => .inl ⟨a, hn k hk⟩⟩
  unique k k' b b' hb hb' := (h.only k b hb).trans (h.only k' b' hb').symm

namespace Ends

theorem ok (a : σ) : Ends stops fun _ => (.ok a : Except ε σ) := (Settles.const rfl).ends

theorem stopped {e : ε} (he : stops e) : Ends stops fun _ => (.error e : Except ε σ) where
  enough := ⟨0, fun _ _ => .inr ⟨e, he, rfl⟩⟩
  unique := nofun

theorem congr {g : Nat → Except ε σ} (hf : Ends stops f) (h : ∀ k, g k = f k) : Ends stops g := by
  obtain rfl : g = f := funext h
  exact hf

/-- The first part of a sequence does not depend on the fuel. -/
theorem step {τ : Type v} {g : Nat → σ → Except ε τ} {x : Except ε σ} {a : σ} (hx : x = .ok a)
    (hg : Ends stops fun k => g k a) : Ends stops fun k => x >>= g k :=
  hg.congr fun k => by rw [hx, Except.ok_bind]

/-- The rule for a sequence: the second part starts from what the first returns. -/
theorem bind {τ : Type v} {g : Nat → σ → Except ε τ} (hf : Ends stops f)
    (hg : ∀ k a, f k = .ok a → Ends stops fun k => g k a) : Ends stops fun k => f k >>= g k where
  enough := by
    obtain ⟨n, hn⟩ := hf.enough
    by_cases hret : ∃ k a, f k = .ok a
    · obtain ⟨k₀, a, ha⟩ := hret
      obtain ⟨m, hm⟩ := (hg k₀ a ha).enough
      refine ⟨max n m, fun k hk => ?_⟩
      rcases hn k (le_trans (Nat.le_max_left n m) hk) with ⟨a', ha'⟩ | ⟨e, he, hk'⟩
      · rw [ha', ← hf.unique k₀ k a a' ha ha', Except.ok_bind]
        exact hm k (le_trans (Nat.le_max_right n m) hk)
      · exact .inr ⟨e, he, by rw [hk', Except.error_bind]⟩
    · refine ⟨n, fun k hk => ?_⟩
      rcases hn k hk with ⟨a, ha⟩ | ⟨e, he, hk'⟩
      · exact absurd ⟨k, a, ha⟩ hret
      · exact .inr ⟨e, he, by rw [hk', Except.error_bind]⟩
  unique k k' b b' hb hb' := by
    obtain ⟨a, ha, hb⟩ := Except.bind_eq_ok.mp hb
    obtain ⟨a', ha', hb'⟩ := Except.bind_eq_ok.mp hb'
    obtain rfl := hf.unique k k' a a' ha ha'
    exact (hg k a ha).unique k k' b b' hb hb'

end Ends

/-! ## Loops -/

/-- The rule for loops: if every round from the invariant succeeds, keeps the invariant and
decreases the ghost data, the loop settles on a state that satisfies the invariant. -/
theorem whileM_settles (timeout : ε) (cond : σ → Bool) (body : σ → Except ε σ) (r : γ → γ → Prop)
    (wf : WellFounded r) (Inv : γ → σ → Prop)
    (hstep : ∀ g s, Inv g s → cond s = true → ∃ t g', body s = .ok t ∧ Inv g' t ∧ r g' g)
    {g : γ} (hs : Inv g s) :
    ∃ t g', Settles (fun k => whileM timeout cond body k s) t ∧ Inv g' t ∧ cond t = false := by
  induction g using wf.induction generalizing s with
  | _ g ih =>
    cases hc : cond s with
    | false => exact ⟨s, g, (Settles.const rfl).congr fun _ => whileM_exit hc, hs, hc⟩
    | true =>
      obtain ⟨t, g', hb, hg', hr⟩ := hstep g s hs hc
      obtain ⟨u, g'', ⟨⟨n, hn⟩, honly⟩, hu, hcu⟩ := ih g' hr hg'
      refine ⟨u, g'', ⟨⟨n + 1, fun k hk => ?_⟩, fun k v hv => ?_⟩, hu, hcu⟩
      · obtain ⟨k, rfl⟩ : ∃ j, k = j + 1 := ⟨k - 1, by omega⟩
        rw [whileM_step hc hb]
        exact hn k (by omega)
      · have := whileM_mono hv (Nat.le_succ k)
        rw [whileM_step hc hb] at this
        exact honly k v this

end WhileLoop
