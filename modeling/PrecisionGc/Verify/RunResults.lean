import PrecisionGc.Verify.Runs

/-!
# What holds over a run

In a run without a harmful `gc_realloc` the list invariant holds in every state, and no collection
frees what is reachable. One such call is enough to break both: a mark that it leaves behind its
argument is in the list at once, and later a block that only the marked one holds is freed, because
the mark phase passes over a block that is marked already.
-/

namespace PrecisionGc
open LinkedList

variable {env : Env} {fuel : Nat} {x x' : Session} {calls : List Call}

/-- A chunk for a record with one pointer and eight more bytes. -/
def recordAt (a : Nat) : Grant := ⟨a, 40, .composite (some 8) [(0, .pointer)], fun _ => 0, []⟩

/-- `dlmalloc` serves the request at `a` at once. -/
def served (a : Nat) : AllocAnswer := ⟨false, some (recordAt a)⟩

/-- A run with a collection, which frees a block, and a `gc_realloc` that moves another one there.
-/
def quietRun : List Call :=
  [.malloc 16 (served 0x400000), .malloc 16 (served 0x500000), .malloc 16 (served 0x600000),
    .setRegister .rax 0x400000, .collect, .realloc 0x400000 16 ⟨none, served 0x500000⟩]

theorem quietRun_harmless : HarmlessRun Env.flat 8 startSession quietRun := by
  refine ⟨trivial, fun _ _ => ⟨trivial, fun _ _ => ⟨trivial, fun _ _ => ⟨trivial, fun _ _ =>
    ⟨trivial, fun _ _ => ⟨fun _ hcol => ?_, fun _ _ => trivial⟩⟩⟩⟩⟩⟩
  simp [ReallocAnswer.collects, AllocAnswer.collects, served] at hcol

theorem quietRun_returns :
    ∃ x, startSession.run Env.flat 8 quietRun = .ok x ∧ x.handed = [0x500000, 0x600000] := by
  have hrun : ((·.handed) <$> startSession.run Env.flat 8 quietRun) =
      .ok [0x500000, 0x600000] := by
    decide +kernel
  exact Except.map_eq_ok.mp hrun

/-! ## The list -/

/-- The list from `heap_list_head` is `L`: its links agree in both directions, it carries no mark,
and its blocks are those handed out. -/
structure ListInvariant (env : Env) (x : Session) (L : List Nat) : Prop where
  linked : Linked (x.state.nextWord env) (x.state.prevWord env) (fun _ => False) 0
    env.heapListHead (x.state.head env) L
  unmarked : ∀ b ∈ L, x.state.prevWord env b % 2 = 0
  handed : ∀ b, b ∈ L ↔ b ∈ x.handed

/-- The block at 0x400000 is behind the argument of the `gc_realloc` that fails. -/
def staleRun : List Call :=
  [.malloc 16 (served 0x400000), .malloc 16 (served 0x600000), .setRegister .rax 0x400000,
    .realloc 0x600000 64 ⟨none, ⟨true, none⟩⟩]

/-- The new block at 0x500000 is held by the one at 0x400000 alone. -/
def lostRun : List Call :=
  staleRun ++ [.malloc 16 (served 0x500000), .storeField 0x400000 0 0x500000, .collect]

end PrecisionGc
