import Mathlib.Data.List.Basic
import Mathlib.Data.List.Infix
import Mathlib.Data.List.Pairwise

/-!
# A store of blocks

What a heap is to the program that uses it: blocks at addresses, and the bytes in each. A request
may drop some blocks first; it gives no block, or one that lies apart from the others. What no
event concerns stays as it is.
-/

namespace BlockStore

structure Block where
  addr : Nat
  data : List Nat
  deriving DecidableEq

abbrev Store := List Block

namespace Block

variable {b : Block} {x v : Nat}

/-- The address lies in the block. -/
def Has (b : Block) (x : Nat) : Prop := b.addr ≤ x ∧ x < b.addr + b.data.length

instance : Decidable (b.Has x) := inferInstanceAs (Decidable (_ ∧ _))

/-- One of the blocks ends before the other starts. -/
def Apart (b c : Block) : Prop :=
  b.addr + b.data.length ≤ c.addr ∨ c.addr + c.data.length ≤ b.addr

def set (x v : Nat) (b : Block) : Block :=
  if b.Has x then { b with data := b.data.set (x - b.addr) v } else b

@[simp] theorem set_addr : (b.set x v).addr = b.addr := by
  unfold set
  split <;> rfl

@[simp] theorem set_length : (b.set x v).data.length = b.data.length := by
  unfold set
  split <;> simp

end Block

/-- The blocks without those at the addresses `as`. -/
def drop (as : List Nat) (σ : Store) : Store := σ.filter fun b => b.addr ∉ as

/-- What is done to the store. -/
inductive Op
  | alloc (n : Nat)
  /-- a block of zeros -/
  | clear (n : Nat)
  | resize (addr n : Nat)
  | free (as : List Nat)
  | set (x v : Nat)

/-- What an operation makes of the store. -/
inductive Step : Store → Op → Store → Prop
  | null {σ : Store} {n : Nat} : Step σ (.alloc n) σ
  | alloc {σ : Store} {n : Nat} {b : Block} (hlen : b.data.length = n)
    (hfresh : ∀ c ∈ σ, b.Apart c) : Step σ (.alloc n) (b :: σ)
  | clearNull {σ : Store} {n : Nat} : Step σ (.clear n) σ
  | clear {σ : Store} {n : Nat} {b : Block} (hdata : b.data = List.replicate n 0)
    (hfresh : ∀ c ∈ σ, b.Apart c) : Step σ (.clear n) (b :: σ)
  | resizeNull {σ : Store} {addr n : Nat} : Step σ (.resize addr n) σ
  | resize {σ : Store} {addr n : Nat} {b old : Block} (hold : old ∈ σ) (haddr : old.addr = addr)
    (hlen : b.data.length = n) (hdata : b.data.take old.data.length = old.data.take n)
    (hfresh : ∀ c ∈ drop [addr] σ, b.Apart c) :
    Step σ (.resize addr n) (b :: drop [addr] σ)
  | free {σ : Store} {as : List Nat} : Step σ (.free as) (drop as σ)
  | set {σ : Store} {x v : Nat} : Step σ (.set x v) (σ.map (Block.set x v))

/-- An event: blocks that are given up may be dropped before the operation. -/
structure Event where
  garbage : List Nat
  op : Op

def Event.Step (e : Event) (σ τ : Store) : Prop :=
  ∃ as, (as = [] ∨ as = e.garbage) ∧ BlockStore.Step (drop as σ) e.op τ

/-- The events of a run, one after the other. -/
inductive Run : Store → List Event → Store → Prop
  | nil {σ : Store} : Run σ [] σ
  | cons {σ τ υ : Store} {e : Event} {es : List Event} (hstep : e.Step σ τ)
    (hrun : Run τ es υ) : Run σ (e :: es) υ

/-- Blocks do not overlap. -/
def WellFormed (σ : Store) : Prop := σ.Pairwise Block.Apart

variable {σ τ : Store} {b : Block} {as : List Nat} {n x v : Nat}

@[simp] theorem mem_drop : b ∈ drop as σ ↔ b ∈ σ ∧ b.addr ∉ as := by simp [drop]

@[simp] theorem drop_nil : drop [] σ = σ := by simp [drop]

theorem WellFormed.drop (h : WellFormed σ) : WellFormed (drop as σ) :=
  List.Pairwise.sublist List.filter_sublist h

theorem WellFormed.step {op : Op} (h : WellFormed σ) (hstep : Step σ op τ) : WellFormed τ := by
  cases hstep with
  | null | clearNull | resizeNull => exact h
  | alloc hlen hfresh => exact List.pairwise_cons.mpr ⟨hfresh, h⟩
  | clear hdata hfresh => exact List.pairwise_cons.mpr ⟨hfresh, h⟩
  | resize hold haddr hlen hdata hfresh => exact List.pairwise_cons.mpr ⟨hfresh, h.drop⟩
  | free => exact h.drop
  | set =>
    refine List.pairwise_map.mpr (List.Pairwise.imp (fun {a b} hab => ?_) h)
    simpa only [Block.Apart, Block.set_addr, Block.set_length] using hab

theorem WellFormed.run {es : List Event} (h : WellFormed σ) (hrun : Run σ es τ) :
    WellFormed τ := by
  induction hrun with
  | nil => exact h
  | cons hstep _ ih =>
    obtain ⟨as, -, hstep⟩ := hstep
    exact ih (h.drop.step hstep)

theorem Run.append {υ : Store} {es es' : List Event} (h : Run σ es τ) (h' : Run τ es' υ) :
    Run σ (es ++ es') υ := by
  induction h with
  | nil => exact h'
  | cons hstep _ ih => exact .cons hstep (ih h')

/-! ## What stays -/

/-- The event does not take away the block at `addr`. -/
def Event.Spares (e : Event) (addr : Nat) : Prop :=
  addr ∉ e.garbage ∧ match e.op with
    | .resize a _ => addr ≠ a
    | .free as => addr ∉ as
    | _ => True

/-- Nor does it write at `x`. -/
def Event.Leaves (e : Event) (x : Nat) : Prop :=
  match e.op with
  | .set y _ => y ≠ x
  | _ => True

/-- The block at the address `addr` has `v` at `x`. -/
def Holds (σ : Store) (addr n x v : Nat) : Prop :=
  ∃ b ∈ σ, b.addr = addr ∧ b.data.length = n ∧ b.Has x ∧ b.data.getD (x - addr) 0 = v

/-- A byte of a block stays, as long as the block is spared and the byte is not written. -/
theorem Event.Step.holds {e : Event} {addr : Nat} (hstep : e.Step σ τ)
    (h : Holds σ addr n x v) (hspares : e.Spares addr) (hleaves : e.Leaves x) :
    Holds τ addr n x v := by
  obtain ⟨b, hb, rfl, hlen, hhas, hv⟩ := h
  obtain ⟨as, has, hstep⟩ := hstep
  obtain ⟨hgarbage, hop⟩ := hspares
  have hdrop : b ∈ drop as σ := mem_drop.mpr ⟨hb, by
    rcases has with rfl | rfl
    · exact List.not_mem_nil
    · exact hgarbage⟩
  have hstays : ∀ {τ}, b ∈ τ → Holds τ b.addr n x v := fun hb => ⟨b, hb, rfl, hlen, hhas, hv⟩
  obtain ⟨garbage, op⟩ := e
  cases hstep with
  | null | clearNull | resizeNull => exact hstays hdrop
  | alloc | clear => exact hstays (List.mem_cons_of_mem _ hdrop)
  | resize => exact hstays (List.mem_cons_of_mem _ (mem_drop.mpr ⟨hdrop, by simpa using hop⟩))
  | free => exact hstays (mem_drop.mpr ⟨hdrop, hop⟩)
  | @set y w =>
    refine ⟨b.set y w, List.mem_map_of_mem hdrop, Block.set_addr, by simpa using hlen, ?_, ?_⟩
    · simpa only [Block.Has, Block.set_addr, Block.set_length] using hhas
    · have hne : y ≠ x := hleaves
      rw [← hv]
      unfold Block.set
      split
      case isFalse => rfl
      case isTrue hy =>
        obtain ⟨hle, -⟩ := hy
        obtain ⟨hle', -⟩ := hhas
        rw [List.getD_eq_getElem?_getD, List.getD_eq_getElem?_getD,
          List.getElem?_set_ne (by omega)]

theorem Run.holds {es : List Event} {addr : Nat} (hrun : Run σ es τ) (h : Holds σ addr n x v)
    (hes : ∀ e ∈ es, e.Spares addr ∧ e.Leaves x) : Holds τ addr n x v := by
  induction hrun with
  | nil => exact h
  | cons hstep _ ih =>
    obtain ⟨⟨hspares, hleaves⟩, hes⟩ := List.forall_mem_cons.mp hes
    exact ih (hstep.holds h hspares hleaves) hes

end BlockStore
