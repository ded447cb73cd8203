import PrecisionGc.Verify.RunResults

/-!
# What the collector holds itself

The scans of `.data` and `.bss` go over the collector's own statics too and exempt only the slot of
`heap_list_head`. A block whose address one of the others holds survives every collection: that is
the one way in which a block that the mutator cannot reach is kept.
-/

namespace PrecisionGc
open ByteStore AbstractHeap Worklist

variable {env : Env} {m : Memory} {s s' : State} {L : List Nat} {b w fuel : Nat} {x x' : Session}
  {calls : List Call}

/-- The slots of the two segments that the walkers read. -/
def staticSlots (env : Env) : List Nat := walkerSlots env.dataStart env.edata ++ bssSlots env

/-- The slots that overlap none of the collector's statics. -/
def programSlots (env : Env) : List Nat :=
  (staticSlots env).filter fun a => env.statics.all (apart a)

/-- The slots that overlap one. -/
def collectorSlots (env : Env) : List Nat :=
  (staticSlots env).filter fun a => !env.statics.all (apart a)

/-- The words that the mutator owns. -/
def mutatorWords (env : Env) (m : Memory) : List Nat :=
  Register.all.map m.regs ++ stackWords m ++ (programSlots env).map m.seg

def MutatorReachable (env : Env) (m : Memory) : Nat → Prop :=
  Reach (children env m) (GcChunk env m) (mutatorWords env m)

theorem mem_rootWords :
    w ∈ rootWords env m ↔ w ∈ mutatorWords env m ∨ ∃ a ∈ collectorSlots env, m.seg a = w := by
  have hsplit : (∃ a ∈ staticSlots env, m.seg a = w) ↔
      (∃ a ∈ programSlots env, m.seg a = w) ∨ ∃ a ∈ collectorSlots env, m.seg a = w := by
    simp only [programSlots, collectorSlots, List.mem_filter, Bool.not_eq_true']
    constructor
    · rintro ⟨a, ha, rfl⟩
      cases h : env.statics.all (apart a)
      · exact .inr ⟨a, ⟨ha, h⟩, rfl⟩
      · exact .inl ⟨a, ⟨ha, h⟩, rfl⟩
    · rintro (⟨a, ⟨ha, -⟩, rfl⟩ | ⟨a, ⟨ha, -⟩, rfl⟩) <;> exact ⟨a, ha, rfl⟩
  have hstatic : w ∈ dataWords env m ∨ w ∈ bssWords env m ↔ ∃ a ∈ staticSlots env, m.seg a = w := by
    simp only [dataWords, bssWords, staticSlots, List.mem_map, List.mem_append, or_and_right,
      exists_or]
  have hprogram : w ∈ (programSlots env).map m.seg ↔ ∃ a ∈ programSlots env, m.seg a = w :=
    List.mem_map
  rw [rootWords, mutatorWords, List.mem_append, List.mem_append, or_assoc, hstatic, hsplit,
    List.mem_append (s := _ ++ _), hprogram, or_assoc]

/-- No static that a scan reads holds the address of a block that the mutator cannot reach. -/
def Unpinned (env : Env) (m : Memory) : Prop :=
  ∀ a ∈ collectorSlots env, GcChunk env m (m.seg a) → MutatorReachable env m (m.seg a)

/-- What the statics lead to does not matter if the mutator reaches it as well. -/
theorem Unpinned.mutatorReachable (h : Unpinned env m) (hb : GcChunk env m b)
    (hr : Reachable env m b) : MutatorReachable env m b := by
  refine hr.reseed (fun w hw hgc => ?_) hb
  rcases mem_rootWords.mp hw with hw | ⟨a, ha, rfl⟩
  · exact .seed hw
  · exact h a ha hgc

/-- `gc_collect` returns, and frees the blocks that the mutator cannot reach. -/
def FreesUnreachable (env : Env) (s : State) : Prop :=
  ∃ n s', (∀ fuel, n ≤ fuel → gcCollect env fuel s = .ok s') ∧
    ∀ b, GcChunk env s.toMemory b → ¬MutatorReachable env s.toMemory b → s'.chunks b = none

/-- A collection frees a block exactly if it is not reachable from the roots. -/
theorem gcCollect_frees_iff (henv : env.Sound) (R : Ready env s L) :
    ∃ n s', (∀ fuel, n ≤ fuel → gcCollect env fuel s = .ok s') ∧
      ∀ b, GcChunk env s.toMemory b → (s'.chunks b = none ↔ ¬Reachable env s.toMemory b) := by
  have S := R.list.shape henv
  obtain ⟨m', q, hrun, hC, -⟩ := collect_settles henv S R.queue R.stackBase R.stackPointer
  obtain ⟨n, hn⟩ := hrun.enough
  refine ⟨n, _, hn, fun b hb => ⟨fun hgone hr => ?_, fun hr => ?_⟩⟩
  · obtain ⟨c, hc⟩ := hb.1
    obtain ⟨c', hc', -⟩ := hC.frame.kept b c (fun h => (mem_swept.mp h).2 hr) hc
    rw [show m'.chunks b = none from hgone] at hc'
    cases hc'
  · have hbL : b ∈ L := by simpa using S.gcChunk_iff.mp hb
    exact hC.frame.gone b (mem_swept.mpr ⟨hbL, hr⟩)

theorem Ready.freesUnreachable_iff (henv : env.Sound) (R : Ready env s L) :
    FreesUnreachable env s ↔ Unpinned env s.toMemory := by
  obtain ⟨n, s', hn, hiff⟩ := gcCollect_frees_iff henv R
  constructor
  · rintro ⟨n', s'', hn', hfreed⟩ a ha hgc
    obtain rfl : s' = s'' :=
      Except.ok.inj ((hn _ (Nat.le_max_left n n')).symm.trans (hn' _ (Nat.le_max_right n n')))
    by_contra hnot
    exact (hiff _ hgc).mp (hfreed _ hgc hnot) (.seed (mem_rootWords.mpr (.inr ⟨a, ha, rfl⟩)))
  · intro hpins
    exact ⟨n, s', hn, fun b hb hnot =>
      (hiff b hb).mpr fun hr => hnot (hpins.mutatorReachable hb hr)⟩

/-- One block is allocated, and its address is not kept. -/
def droppedRun : List Call := [.malloc 16 (served 0x400000)]

theorem droppedRun_harmless : HarmlessRun Env.flat 8 startSession droppedRun :=
  ⟨trivial, fun _ _ => trivial⟩

end PrecisionGc
