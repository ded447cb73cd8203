import Mathlib.Data.List.Pairwise
import Mathlib.Data.Nat.Basic

/-!
# Boundary tags

A stretch of memory is tiled by chunks. The second word of a chunk is its tag: the size, what the
chunk is used for, and whether the chunk in front of it is used. Some of the unused chunks have
their size once more in the word behind them, and no two unused chunks are neighbours. Which words a
tiling looks at, how tilings are put together, and how a part of one is exchanged for another.
-/

namespace BoundaryTags

universe u

structure Chunk (K : Type u) where
  addr : Nat
  size : Nat
  kind : K
  deriving DecidableEq

/-- Where the next chunk starts. -/
def Chunk.stop {K : Type u} (c : Chunk K) : Nat := c.addr + c.size

/-- How the chunks of each kind are tagged. -/
structure Tagging (K : Type u) where
  used : K → Bool
  /-- the size stands behind the chunk too -/
  footed : K → Bool
  valid : K → Nat → Prop
  tag : K → Nat → Bool → Nat
  lt_of_valid : ∀ {k s}, valid k s → 8 < s

variable {K : Type u} {T : Tagging K} {mem mem' : Nat → Nat} {pin : Bool} {a e : Nat}
  {c d : Chunk K} {cs l₁ l₂ mid mid' : List (Chunk K)}

/-- The end of the chunks that lie one behind the other from `a` on. -/
def stop (a : Nat) : List (Chunk K) → Nat
  | [] => a
  | c :: cs => stop c.stop cs

/-- The last chunk is used; `pin` says so of the chunk in front. -/
def lastUsed (T : Tagging K) (pin : Bool) : List (Chunk K) → Bool
  | [] => pin
  | c :: cs => lastUsed T (T.used c.kind) cs

/-- The chunks lie one behind the other from `a` on, and the words of the memory say so. -/
def Tiles (T : Tagging K) (mem : Nat → Nat) : Bool → Nat → List (Chunk K) → Prop
  | _, _, [] => True
  | pin, a, c :: cs =>
    c.addr = a ∧ (pin ∨ T.used c.kind) ∧ T.valid c.kind c.size ∧
      mem (a + 8) = T.tag c.kind c.size pin ∧ (T.footed c.kind → mem c.stop = c.size) ∧
      Tiles T mem (T.used c.kind) c.stop cs

@[simp] theorem stop_nil : stop a ([] : List (Chunk K)) = a := rfl

@[simp] theorem stop_cons : stop a (c :: cs) = stop c.stop cs := rfl

@[simp] theorem lastUsed_nil : lastUsed T pin [] = pin := rfl

@[simp] theorem lastUsed_cons : lastUsed T pin (c :: cs) = lastUsed T (T.used c.kind) cs := rfl

@[simp] theorem tiles_nil : Tiles T mem pin a [] := trivial

theorem tiles_cons : Tiles T mem pin a (c :: cs) ↔
    c.addr = a ∧ (pin ∨ T.used c.kind) ∧ T.valid c.kind c.size ∧
      mem (a + 8) = T.tag c.kind c.size pin ∧ (T.footed c.kind → mem c.stop = c.size) ∧
      Tiles T mem (T.used c.kind) c.stop cs := Iff.rfl

@[simp] theorem stop_append : stop a (l₁ ++ l₂) = stop (stop a l₁) l₂ := by
  induction l₁ generalizing a with
  | nil => rfl
  | cons c l₁ ih => exact ih

@[simp] theorem lastUsed_append :
    lastUsed T pin (l₁ ++ l₂) = lastUsed T (lastUsed T pin l₁) l₂ := by
  induction l₁ generalizing pin with
  | nil => rfl
  | cons c l₁ ih => exact ih

/-- A tiling splits at any chunk. -/
theorem tiles_append : Tiles T mem pin a (l₁ ++ l₂) ↔
    Tiles T mem pin a l₁ ∧ Tiles T mem (lastUsed T pin l₁) (stop a l₁) l₂ := by
  induction l₁ generalizing pin a with
  | nil => simp
  | cons c l₁ ih =>
    simp only [List.cons_append, tiles_cons, ih, lastUsed_cons, stop_cons, and_assoc]

namespace Tiles

theorem le_stop (h : Tiles T mem pin a cs) : a ≤ stop a cs := by
  induction cs generalizing pin a with
  | nil => exact le_rfl
  | cons c cs ih =>
    obtain ⟨rfl, -, -, -, -, hcs⟩ := h
    exact Nat.le_trans (Nat.le_add_right _ _) (ih hcs)

/-- Every chunk lies between the ends. -/
theorem bounds (h : Tiles T mem pin a cs) (hc : c ∈ cs) :
    a ≤ c.addr ∧ c.stop ≤ stop a cs ∧ c.addr + 8 < c.stop := by
  induction cs generalizing pin a with
  | nil => cases hc
  | cons d cs ih =>
    obtain ⟨rfl, -, hvalid, -, -, hcs⟩ := h
    rcases List.mem_cons.mp hc with rfl | hc
    · have := T.lt_of_valid hvalid
      exact ⟨le_rfl, hcs.le_stop, by simp only [Chunk.stop]; omega⟩
    · obtain ⟨hle, hstop⟩ := ih hcs hc
      exact ⟨Nat.le_trans (Nat.le_add_right _ _) hle, hstop⟩

/-- Each chunk ends where a later one starts, or before. -/
theorem pairwise (h : Tiles T mem pin a cs) : cs.Pairwise fun c d => c.stop ≤ d.addr := by
  induction cs generalizing pin a with
  | nil => exact .nil
  | cons c cs ih =>
    obtain ⟨-, -, -, -, -, hcs⟩ := h
    exact List.pairwise_cons.mpr ⟨fun d hd => (hcs.bounds hd).1, ih hcs⟩

theorem valid (h : Tiles T mem pin a cs) (hc : c ∈ cs) : T.valid c.kind c.size := by
  induction cs generalizing pin a with
  | nil => cases hc
  | cons d cs ih =>
    obtain ⟨-, -, hvalid, -, -, hcs⟩ := h
    rcases List.mem_cons.mp hc with rfl | hc
    · exact hvalid
    · exact ih hcs hc

/-- Chunks of aligned sizes are aligned. -/
theorem addr_mod {n : Nat} (h : Tiles T mem pin a cs) (ha : a % n = 0)
    (hsize : ∀ {k s}, T.valid k s → s % n = 0) (hc : c ∈ cs) : c.addr % n = 0 := by
  induction cs generalizing pin a with
  | nil => cases hc
  | cons d cs ih =>
    obtain ⟨rfl, -, hvalid, -, -, hcs⟩ := h
    rcases List.mem_cons.mp hc with rfl | hc
    · exact ha
    · refine ih hcs ?_ hc
      rw [Chunk.stop, Nat.add_mod, ha, hsize hvalid, Nat.zero_add, Nat.zero_mod]

/-- A tiling looks at the tags of its chunks and at the sizes behind them. -/
theorem congr (h : Tiles T mem pin a cs)
    (heq : ∀ c ∈ cs, mem' (c.addr + 8) = mem (c.addr + 8) ∧
      (T.footed c.kind → mem' c.stop = mem c.stop)) : Tiles T mem' pin a cs := by
  induction cs generalizing pin a with
  | nil => exact h
  | cons c cs ih =>
    obtain ⟨rfl, hpin, hvalid, htag, hfoot, hcs⟩ := h
    obtain ⟨htag', hfoot'⟩ := heq c List.mem_cons_self
    exact ⟨rfl, hpin, hvalid, htag'.trans htag, fun hf => (hfoot' hf).trans (hfoot hf),
      ih hcs fun d hd => heq d (List.mem_cons_of_mem c hd)⟩

/-- All these words lie behind the first word of the first chunk. -/
theorem congr_of_between (h : Tiles T mem pin a cs)
    (heq : ∀ w, a < w → w ≤ stop a cs → mem' w = mem w) : Tiles T mem' pin a cs := by
  refine h.congr fun c hc => ?_
  obtain ⟨hle, hstop, hlt⟩ := h.bounds hc
  exact ⟨heq _ (by omega) (by omega), fun _ => heq _ (by omega) hstop⟩

/-- The chunk in front of a tiling becomes used or unused. -/
theorem repin {pin' : Bool} (h : Tiles T mem pin a cs)
    (heq : ∀ w, a + 8 < w → mem' w = mem w)
    (hnext : ∀ n ∈ cs.head?, (pin' ∨ T.used n.kind) ∧ mem' (a + 8) = T.tag n.kind n.size pin') :
    Tiles T mem' pin' a cs := by
  cases cs with
  | nil => trivial
  | cons n cs =>
    obtain ⟨rfl, hpin, hvalid, htag, hfoot, hcs⟩ := h
    obtain ⟨hpin', htag'⟩ := hnext n rfl
    have hlt := T.lt_of_valid hvalid
    have hstop : n.addr + 8 < n.stop := by
      simp only [Chunk.stop]
      omega
    exact ⟨rfl, hpin', hvalid, htag', fun hf => (heq _ hstop).trans (hfoot hf),
      hcs.congr_of_between fun w hw _ => heq w (by omega)⟩

/-- A part of a tiling is exchanged for another of the same extent. Of the words outside, only the
tag of the chunk behind it may change. -/
theorem splice (h : Tiles T mem pin a (l₁ ++ mid ++ l₂))
    (heq : ∀ w, w ≤ stop a l₁ ∨ stop a (l₁ ++ mid) + 8 < w → mem' w = mem w)
    (hmid : Tiles T mem' (lastUsed T pin l₁) (stop a l₁) mid')
    (hstop : stop (stop a l₁) mid' = stop (stop a l₁) mid)
    (hnext : ∀ n ∈ l₂.head?, (lastUsed T pin (l₁ ++ mid') ∨ T.used n.kind) ∧
      mem' (stop a (l₁ ++ mid) + 8) = T.tag n.kind n.size (lastUsed T pin (l₁ ++ mid'))) :
    Tiles T mem' pin a (l₁ ++ mid' ++ l₂) := by
  obtain ⟨hleft, hright⟩ := tiles_append.mp h
  obtain ⟨hl₁, -⟩ := tiles_append.mp hleft
  have hl₁' : Tiles T mem' pin a l₁ := hl₁.congr_of_between fun w _ hw => heq w (.inl hw)
  refine tiles_append.mpr ⟨tiles_append.mpr ⟨hl₁', hmid⟩, ?_⟩
  rw [stop_append, hstop, ← stop_append]
  exact hright.repin (fun w hw => heq w (.inr hw)) hnext

/-- What is written into the room of a used chunk does not concern the tiling: it is not the tag of
a chunk, and not the size behind an unused one. -/
theorem write (h : Tiles T mem pin a cs) (hfoot : ∀ k, T.footed k → ¬T.used k)
    (hd : d ∈ cs) (hused : T.used d.kind)
    (heq : ∀ w, w ≤ d.addr + 8 ∨ d.stop < w → mem' w = mem w) : Tiles T mem' pin a cs := by
  have : Std.Symm fun c d : Chunk K => c.stop ≤ d.addr ∨ d.stop ≤ c.addr := ⟨fun _ _ => Or.symm⟩
  have htotal : cs.Pairwise fun c d => c.stop ≤ d.addr ∨ d.stop ≤ c.addr :=
    h.pairwise.imp .inl
  refine h.congr fun c hc => ?_
  obtain ⟨-, -, hlt⟩ := h.bounds hc
  obtain ⟨-, -, hlt'⟩ := h.bounds hd
  by_cases heq' : c = d
  · subst heq'
    exact ⟨heq _ (.inl le_rfl), fun hf => absurd hused (hfoot _ hf)⟩
  · have hapart : c.stop ≤ d.addr ∨ d.stop ≤ c.addr :=
      htotal.forall hc hd heq'
    exact ⟨heq _ (by omega), fun _ => heq _ (by omega)⟩

end Tiles

end BoundaryTags
