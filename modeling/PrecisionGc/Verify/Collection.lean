import PrecisionGc.Verify.Mark
import PrecisionGc.Verify.Steps
import PrecisionGc.Verify.Sweep

/-!
# One collection

The two phases together, for the heap in any shape in which a collection can start
(`collect_settles`): on the list exactly the reachable blocks remain, while the blocks off the list
are left where they are, the reachable ones with the mark bit set. For a well-formed list this is
the exactness of a collection (`gcCollect_exact`).
-/

namespace PrecisionGc
open ByteStore LinkedList WhileLoop AbstractHeap

variable {env : Env} {m m' : Memory} {s : State} {F D L : List Nat} {loose : Nat → Prop} {b : Nat}

/-- The memory after a collection that started from `m`. -/
structure Collected (env : Env) (m : Memory) (F D : List Nat) (loose : Nat → Prop) (m' : Memory) :
    Prop where
  frame : Frame env (· ∈ F ++ D) (· ∈ swept (Reachable env m) F) m m'
  linked : Linked (m'.nextWord env) (m'.prevWord env) loose 0 env.heapListHead (m'.head env)
    (kept (Reachable env m) F)
  unmarked : ∀ b ∈ kept (Reachable env m) F, m'.prevWord env b % 2 = 0
  offNext : ∀ b ∈ D, m'.nextWord env b = m.nextWord env b
  offMarked : ∀ b ∈ D, Reachable env m b → m'.prevWord env b = m.prevWord env b ||| 1
  offUnmarked : ∀ b ∈ D, ¬Reachable env m b → m'.prevWord env b = m.prevWord env b

/-- The mark phase prepares the list for the sweep. -/
theorem Marked.sweepable (S : HeapShape env m F D loose) (H : Marked env m F D m') :
    (∀ b ∈ F, GcBlock env m' b) ∧
      Linked (m'.nextWord env) (m'.backWord env) loose 0 env.heapListHead (m'.head env) F ∧
      ∀ b ∈ F, m'.prevWord env b % 2 = 1 ↔ Reachable env m b := by
  have hF : ∀ b ∈ F, b ∈ F ++ D := fun b hb => List.mem_append_left _ hb
  refine ⟨fun b hb => (S.block b (hF b hb)).frame H.frame id, ?_, fun b hb => ?_⟩
  · rw [H.next, H.head]
    refine S.linked.congr (fun _ _ => rfl) (fun b hb => ?_) fun _ _ h => h
    have heven := (S.unmarked b (hF b hb)).1
    by_cases hr : Reachable env m b
    · rw [Memory.backWord, H.prevMarked b (hF b hb) hr, clearLow_or_one Memory.prevWord_lt,
        clearLow_even Memory.prevWord_lt heven]
    · rw [Memory.backWord, H.prevUnmarked b fun h => hr h.2,
        clearLow_even Memory.prevWord_lt heven]
  · have heven := (S.unmarked b (hF b hb)).1
    by_cases hr : Reachable env m b
    · simp [H.prevMarked b (hF b hb) hr, or_one_odd, hr]
    · rw [H.prevUnmarked b fun h => hr h.2]
      simp [heven, hr]

theorem Swept.collected {m₁ : Memory} (S : HeapShape env m F D loose) (H : Marked env m F D m₁)
    (W : Swept env m₁ loose (Reachable env m) F m') : Collected env m F D loose m' := by
  have hsame : ∀ b ∈ D, m'.chunks b = m₁.chunks b := fun b hb => by
    have hbF : b ∉ F := fun h => S.disjoint b h hb
    exact W.frame.others b hbF fun h => hbF (mem_swept.mp h).1
  have hD : ∀ b ∈ D, b ∈ F ++ D := fun b hb => List.mem_append_right _ hb
  refine ⟨H.frame.trans_none (W.frame.mono fun b hb => List.mem_append_left _ hb), W.linked,
    W.unmarked, fun b hb => ?_, fun b hb hr => ?_, fun b hb hr => ?_⟩
  · rw [Memory.nextWord, hsame b hb, ← H.next]; rfl
  · rw [Memory.prevWord, hsame b hb, ← H.prevMarked b (hD b hb) hr]; rfl
  · rw [Memory.prevWord, hsame b hb, ← H.prevUnmarked b fun h => hr h.2]; rfl

/-- A collection terminates, whatever the shape of the heap. -/
theorem collect_settles (henv : env.Sound) (S : HeapShape env s.toMemory F D loose)
    (hq : s.queue.Represents []) (hbase : s.stackBase ≠ 0) (hsp : s.stackPointer ≠ 0) :
    ∃ m' q, Settles (fun fuel => gcCollect env fuel s)
        (s.collected m' q (swept (Reachable env s.toMemory) F)) ∧
      Collected env s.toMemory F D loose m' ∧ q.Represents [] := by
  have hhead : s.queue.head = 0 := hq.head_eq_zero.mpr rfl
  have htail : s.queue.tail = 0 := hq.tail_eq_zero.mpr rfl
  obtain ⟨q₁, h₁, hq₁⟩ := scanRoots_appends henv hbase hsp _ _ hq
  rw [List.nil_append] at hq₁
  obtain ⟨⟨m₂, q₂⟩, h₂, H, hq₂⟩ := mark_settles henv S hq₁
  obtain ⟨hB, hlinked, hmarks⟩ := H.sweepable S
  obtain ⟨m₃, h₃, W⟩ := sweep_settles henv hB hlinked hmarks
  refine ⟨m₃, q₂, ?_, W.collected S H, hq₂⟩
  have hsweep := h₃.bind (g := fun _ r => .ok (s.collected r.1 q₂ r.2)) (.const rfl)
  refine (h₂.bind (g := fun fuel p => sweep env fuel p.1 >>= fun r =>
    .ok (s.collected r.1 p.2 r.2)) hsweep).congr fun fuel => ?_
  simp only [gcCollect, hhead, htail, ne_eq, not_true_eq_false, if_false, h₁, Except.ok_bind,
    Except.pure_def]
  rfl

namespace HeapList

/-- What a collection leaves of a well-formed list is a well-formed list. -/
theorem collected (hL : HeapList env m L) (hC : Collected env m L [] (fun _ => False) m') :
    HeapList env m' (kept (Reachable env m) L) where
  linked := hC.linked
  block b hb := by
    obtain ⟨hbL, hr⟩ := mem_kept.mp hb
    exact (hL.block b hbL).frame hC.frame fun h => (mem_swept.mp h).2 hr
  foreign b c hc hb := by
    obtain ⟨c₀, hc₀, hnot, -⟩ := hC.frame.of_some hc
    have hbL : b ∉ L := fun h => by
      by_cases hr : Reachable env m b
      · exact hb (mem_kept.mpr ⟨h, hr⟩)
      · exact hnot (mem_swept.mpr ⟨h, hr⟩)
    rw [Memory.prevWord, hC.frame.others b (by simpa using hbL) hnot]
    exact hL.foreign b c₀ hc₀ hbL
  sized b c hc := by
    obtain ⟨c₀, hc₀, -, hs⟩ := hC.frame.of_some hc
    exact hs.usable ▸ hL.sized b c₀ hc₀

end HeapList

/-- Exactly the reachable blocks of `L` have survived the collection, in their order; the others,
and nothing else, have been freed, each once; and nothing of the collection is left over. -/
structure ExactCollection (env : Env) (s : State) (L : List Nat) (s' : State) : Prop where
  list : HeapList env s'.toMemory (kept (Reachable env s.toMemory) L)
  log : s'.collections =
    s.collections ++ [⟨s.toMemory, swept (Reachable env s.toMemory) L⟩]
  once : (swept (Reachable env s.toMemory) L).Nodup
  frame : Frame env (· ∈ L) (· ∈ swept (Reachable env s.toMemory) L) s.toMemory s'.toMemory
  unmarked : ∀ b ∈ kept (Reachable env s.toMemory) L, s'.prevWord env b % 2 = 0
  queueHead : s'.queue.head = 0
  queueTail : s'.queue.tail = 0
  gcRunning : s'.gcRunning = false

/-- A collection of a well-formed heap terminates and is exact. -/
theorem gcCollect_exact (henv : env.Sound) (hL : HeapList env s.toMemory L)
    (hq : s.queue.Represents []) (hbase : s.stackBase ≠ 0) (hsp : s.stackPointer ≠ 0) :
    ∃ n s', (∀ fuel, n ≤ fuel → gcCollect env fuel s = .ok s') ∧ ExactCollection env s L s' := by
  obtain ⟨m', q, hrun, hC, hq'⟩ := collect_settles henv (hL.shape henv) hq hbase hsp
  obtain ⟨n, hn⟩ := hrun.enough
  have hframe := hC.frame
  simp only [List.append_nil] at hframe
  exact ⟨n, _, hn, hL.collected hC, rfl, hL.linked.nodup.sublist swept_sublist, hframe, hC.unmarked,
    hq'.head_eq_zero.mpr rfl, hq'.tail_eq_zero.mpr rfl, rfl⟩

/-- A state with two blocks, the second of which is held by a word of the program. -/
def twoBlockState : State where
  toMemory := twoBlocks Env.flat 8 16 0x6040 0x400000 0x410000
  queue := .empty
  allocatorMutex := 1
  gcInitialised := true
  gcRunning := false
  numCollections := 0
  collections := []

theorem twoBlockState_heapList :
    HeapList Env.flat twoBlockState.toMemory [0x400000, 0x410000] :=
  twoBlocks_heapList 8 16 Env.flat_sound rfl (by decide) (by decide) (by decide) (by decide)
    (by decide) (by decide) (by decide) (by decide) (by decide)

theorem gcCollect_exact_twoBlocks :
    ∃ n s', (∀ fuel, n ≤ fuel → gcCollect Env.flat fuel twoBlockState = .ok s') ∧
      ExactCollection Env.flat twoBlockState [0x400000, 0x410000] s' :=
  gcCollect_exact Env.flat_sound twoBlockState_heapList Queue.empty_represents (by decide)
    (by decide)

end PrecisionGc
