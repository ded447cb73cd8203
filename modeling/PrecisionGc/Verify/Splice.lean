import PrecisionGc.Verify.Heap

/-!
# Redirecting a list

The collector changes its list in two ways only: the link to whatever follows the part `K` of the
list is redirected (`redirect_next`, `redirect_head`), and the back link of one node is rewritten.
-/

namespace PrecisionGc
open ByteStore LinkedList

variable {env : Env} {m m' : Memory} {K : List Nat} {b c w : Nat}

/-- The link to what comes after `K`, which starts at `heap_list_head`, now leads to `c`. -/
structure Redirected (env : Env) (m m' : Memory) (K : List Nat) (c : Nat) : Prop where
  prev : m'.prevWord env = m.prevWord env
  last : ∀ b, K.getLast? = some b → m'.nextWord env b = c
  next : ∀ b, K.getLast? ≠ some b → m'.nextWord env b = m.nextWord env b
  head : m'.head env = if K = [] then c else m.head env
  frame : Frame env (· ∈ K) (fun _ => False) m m'

theorem redirect_head (hc : c < 2 ^ 64) : Redirected env m (m.setHead env c) [] c :=
  have h := Memory.setHead_ok env m hc
  { prev := h.prev
    last := fun b hb => by simp at hb
    next := fun _ _ => congrFun h.next _
    head := h.head
    frame := h.frame.mono fun _ h => h.elim }

theorem redirect_next (henv : env.Sound) (hK : K.getLast? = some b) (hb : m.Live b)
    (hc : c < 2 ^ 64) :
    ∃ m', m.setNextPointer env b c = .ok m' ∧ Redirected env m m' K c := by
  obtain ⟨m', h', hr⟩ := Memory.setNextPointer_ok henv hb hc
  refine ⟨m', h', hr.prev, fun x hx => ?_, fun x hx => ?_, ?_, ?_⟩
  · obtain rfl : b = x := Option.some.inj (hK.symm.trans hx)
    rw [hr.next, Function.update_self]
  · have hxb : x ≠ b := fun e => hx (e ▸ hK)
    rw [hr.next, Function.update_of_ne hxb]
  · have hne : K ≠ [] := fun e => by simp [e] at hK
    rw [if_neg hne, hr.head]
  · exact hr.frame.mono fun x hx => hx ▸ List.mem_of_getLast? hK

/-- The back link of the first block of `R`, if there is one, is rewritten by `g`. -/
structure Rebased (env : Env) (m m' : Memory) (R : List Nat) (g : Nat → Nat) : Prop where
  first : ∀ b, R.head? = some b → m'.prevWord env b = g (m.prevWord env b)
  prev : ∀ b, R.head? ≠ some b → m'.prevWord env b = m.prevWord env b
  next : m'.nextWord env = m.nextWord env
  head : m'.head env = m.head env
  frame : Frame env (· ∈ R) (fun _ => False) m m'

theorem rebased_nil {g : Nat → Nat} : Rebased env m m [] g where
  first b hb := by simp at hb
  prev _ _ := rfl
  next := rfl
  head := rfl
  frame := .refl m

theorem rebased_cons {R : List Nat} {g : Nat → Nat}
    (hr : Memory.Relinked env m m' (Function.update (m.prevWord env) b (g (m.prevWord env b)))
      (m.nextWord env) (m.head env) (· = b) fun _ => False) :
    Rebased env m m' (b :: R) g where
  first x hx := by
    obtain rfl : b = x := Option.some.inj hx
    rw [hr.prev, Function.update_self]
  prev x hx := by
    have hxb : x ≠ b := fun e => hx (e ▸ rfl)
    rw [hr.prev, Function.update_of_ne hxb]
  next := hr.next
  head := hr.head
  frame := hr.frame.mono fun x hx => hx ▸ List.mem_cons_self

/-- The statement of `sweep` that rewrites a back link keeps the mark bit. -/
theorem rebase_keepingMark {R : List Nat} (henv : env.Sound) (hR : ∀ b ∈ R, m.Live b ∧ b ≠ 0)
    (hw : w < 2 ^ 64) (heven : w % 2 = 0) :
    ∃ m', (if R.headD 0 ≠ 0 then do
          let markPresent ← m.marked env (R.headD 0)
          let m ← m.setPreviousPointer env (R.headD 0) w
          if markPresent then m.markBlock env (R.headD 0) else pure m
        else pure m) = .ok m' ∧ Rebased env m m' R fun p => w + p % 2 := by
  cases R with
  | nil => exact ⟨m, rfl, rebased_nil⟩
  | cons b R =>
    obtain ⟨hb, hb0⟩ := hR b List.mem_cons_self
    obtain ⟨m₁, h₁, hr₁⟩ := Memory.setPreviousPointer_ok henv hb hw
    simp only [List.headD_cons, ne_eq, hb0, not_false_eq_true, if_true, Memory.marked_ok hb,
      Except.ok_bind, h₁]
    rcases Nat.mod_two_eq_zero_or_one (m.prevWord env b) with h0 | h1
    · refine ⟨m₁, by simp [h0], rebased_cons ?_⟩
      rwa [h0, Nat.add_zero]
    · obtain ⟨m₂, h₂, hr₂⟩ := Memory.markBlock_ok henv (hb.frame hr₁.frame id)
      refine ⟨m₂, by simp [h1, h₂], rebased_cons ⟨?_, ?_, ?_, ?_⟩⟩
      · have hor : w ||| 1 = w + 1 := by rw [or_one]; omega
        rw [hr₂.prev, hr₁.prev, Function.update_self, Function.update_idem, hor, h1]
      · rw [hr₂.next, hr₁.next]
      · rw [hr₂.head, hr₁.head]
      · exact hr₁.frame.trans_none hr₂.frame

/-! ## The statements of `gc_malloc` and `gc_realloc` -/

theorem linkForward_ok (henv : env.Sound) (hK : ∀ b ∈ K, m.Live b ∧ b ≠ env.heapListHead)
    (hw : w < 2 ^ 64) :
    ∃ m', m.linkForward env (K.getLastD env.heapListHead) w = .ok m' ∧
      Redirected env m m' K w := by
  rcases List.eq_nil_or_concat K with rfl | ⟨K, p, rfl⟩
  · exact ⟨_, by simp [Memory.linkForward], redirect_head hw⟩
  · rw [List.concat_eq_append] at hK ⊢
    obtain ⟨hp, hph⟩ := hK p (by simp)
    obtain ⟨m', h', hr⟩ := redirect_next (K := K ++ [p]) henv (by simp) hp hw
    exact ⟨m', by simpa [Memory.linkForward, hph] using h', hr⟩

theorem linkBack_ok {R : List Nat} (henv : env.Sound) (hR : ∀ b ∈ R, m.Live b ∧ b ≠ 0)
    (hw : w < 2 ^ 64) :
    ∃ m', m.linkBack env (R.headD 0) w = .ok m' ∧ Rebased env m m' R fun _ => w := by
  cases R with
  | nil => exact ⟨m, rfl, rebased_nil⟩
  | cons b R =>
    obtain ⟨hb, hb0⟩ := hR b List.mem_cons_self
    obtain ⟨m', h', hr⟩ := Memory.setPreviousPointer_ok henv hb hw
    exact ⟨m', by simpa [Memory.linkBack, hb0] using h', rebased_cons hr⟩

/-! ## Taking a block out -/

/-- The list goes from `K` past `x` to `R`, and `x` is freed. The last of `K` leads to `c`, and the
first of `R` back to what `g` makes of its previous pointer. -/
structure Removed (env : Env) (m m' : Memory) (K R : List Nat) (x c : Nat) (g : Nat → Nat) :
    Prop where
  last : ∀ b, b ≠ x → K.getLast? = some b → m'.nextWord env b = c
  next : ∀ b, b ≠ x → K.getLast? ≠ some b → m'.nextWord env b = m.nextWord env b
  first : ∀ b, b ≠ x → R.head? = some b → m'.prevWord env b = g (m.prevWord env b)
  prev : ∀ b, b ≠ x → R.head? ≠ some b → m'.prevWord env b = m.prevWord env b
  head : m'.head env = if K = [] then c else m.head env
  frame : Frame env (fun b => b ∈ K ∨ b ∈ R) (· = x) m m'

theorem remove_ok {m₁ m₂ : Memory} {R : List Nat} {x : Nat} {g : Nat → Nat} (hx : m.Live x)
    (hD : Redirected env m m₁ K c) (hR : Rebased env m₁ m₂ R g) :
    ∃ m₃, m₂.myfree x = .ok m₃ ∧ Removed env m m₃ K R x c g := by
  obtain ⟨m₃, h₃, hF⟩ := Memory.myfree_ok env ((hx.frame hD.frame id).frame hR.frame id)
  have hnext : ∀ b, b ≠ x → m₃.nextWord env b = m₁.nextWord env b := fun b hb => by
    rw [hF.next, Function.update_of_ne hb, hR.next]
  have hprev : ∀ b, b ≠ x → m₃.prevWord env b = m₂.prevWord env b := fun b hb => by
    rw [hF.prev, Function.update_of_ne hb]
  refine ⟨m₃, h₃, ?_⟩
  constructor
  case last => exact fun b hb hl => by rw [hnext b hb, hD.last b hl]
  case next => exact fun b hb hl => by rw [hnext b hb, hD.next b hl]
  case first => exact fun b hb hh => by rw [hprev b hb, hR.first b hh, hD.prev]
  case prev => exact fun b hb hh => by rw [hprev b hb, hR.prev b hh, hD.prev]
  case head => rw [hF.head, hR.head, hD.head]
  case frame =>
    exact (((hD.frame.mono fun _ => .inl).trans (hR.frame.mono fun _ => .inr)).trans
      (hF.frame.mono fun _ h => h.elim)).congr fun b => by simp

end PrecisionGc
