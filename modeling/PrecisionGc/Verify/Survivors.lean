import PrecisionGc.Verify.Collection
import PrecisionGc.Verify.Spares

/-!
# What a collection leaves as it was

The mark bits that a collection sets in the blocks it keeps are gone when it returns, and a link of
such a block has changed only if it led to a block that was freed. A chunk that is not on the list
holds the sentinel, so nothing is written to it and it is not freed, wherever it is found from.
-/

namespace PrecisionGc
open ByteStore LinkedList AbstractHeap

variable {env : Env} {m : Memory} {s s' : State} {L : List Nat} {b n : Nat} {c : Chunk}

/-! ## The links of a part of a list -/

section
variable {next prev next' prev' : Nat → Nat} {keep : Nat → Prop} {d a a' : Nat}

/-- If a part of a list is linked in its turn, a link of a block that is kept has changed only if it
led to a block that is not. -/
theorem kept_links (h : Linked next prev (fun _ => False) 0 d a L)
    (h' : Linked next' prev' (fun _ => False) 0 d a' (kept keep L)) (hb : b ∈ kept keep L) :
    (next' b ≠ next b → next b ∈ swept keep L) ∧ (prev' b ≠ prev b → prev b ∈ swept keep L) := by
  obtain ⟨hbL, hk⟩ := mem_kept.mp hb
  obtain ⟨A, B, rfl⟩ := List.append_of_mem hbL
  have hsplit : kept keep (A ++ b :: B) = kept keep A ++ b :: kept keep B := by
    rw [kept_append, ← List.singleton_append, kept_append, kept_singleton hk]
    rfl
  rw [hsplit] at h'
  obtain ⟨hn, hp⟩ := h.links_of_append id
  obtain ⟨hn', hp'⟩ := h'.links_of_append id
  constructor
  · intro hne
    cases B with
    | nil => exact absurd (hn'.trans hn.symm) hne
    | cons y B =>
      rw [hn, List.headD_cons]
      refine mem_swept.mpr ⟨by simp, fun hy => hne ?_⟩
      rw [hn', hn, ← List.singleton_append, kept_append, kept_singleton hy]
      rfl
  · intro hne
    rcases List.eq_nil_or_concat A with rfl | ⟨A, y, rfl⟩
    · exact absurd (hp'.trans hp.symm) hne
    · have hlast : (A.concat y).getLast? = some y := by simp
      rw [hp, List.getLastD_eq_getLast?, hlast]
      refine mem_swept.mpr ⟨by simp, fun hy => hne ?_⟩
      rw [hp', hp]
      exact getLastD_kept fun x hx => Option.some.inj (hlast.symm.trans hx) ▸ hy

end

/-! ## The frame of a collection -/

/-- What the collection from `s` to `s'`, which has freed `freed`, leaves of the heap with the list
`L`: of a block that is not freed all bytes outside the links, and each link that did not lead to a
freed block; of a chunk that is not on the list every byte. -/
structure CollectionFrame (env : Env) (s : State) (L freed : List Nat) (s' : State) : Prop where
  survivors : ∀ b ∈ L, b ∉ freed → ∀ c, s.chunks b = some c →
    ∃ c', s'.chunks b = some c' ∧ c.SameButLinks env b c'
  next : ∀ b ∈ L, b ∉ freed → s'.nextWord env b ≠ s.nextWord env b → s.nextWord env b ∈ freed
  previous : ∀ b ∈ L, b ∉ freed → s'.prevWord env b ≠ s.prevWord env b → s.prevWord env b ∈ freed
  listed : ∀ b ∈ freed, b ∈ L
  others : ∀ b c, s.chunks b = some c → b ∉ L → s'.chunks b = some c

/-- A collection of a well-formed heap terminates and keeps the frame, with the freed blocks that it
has logged. -/
theorem gcCollect_frame (henv : env.Sound) (hL : HeapList env s.toMemory L)
    (hq : s.queue.Represents []) (hbase : s.stackBase ≠ 0) (hsp : s.stackPointer ≠ 0) :
    ∃ n s' freed, (∀ fuel, n ≤ fuel → gcCollect env fuel s = .ok s') ∧
      s'.collections = s.collections ++ [⟨s.toMemory, freed⟩] ∧
      CollectionFrame env s L freed s' := by
  obtain ⟨n, s', hrun, H⟩ := gcCollect_exact henv hL hq hbase hsp
  obtain ⟨freed, hlog, S⟩ := gcCollect_spares (hrun n le_rfl)
  obtain rfl : freed = swept (Reachable env s.toMemory) L := by
    have := hlog.symm.trans H.log
    simpa using this
  have hkept : ∀ b ∈ L, b ∉ swept (Reachable env s.toMemory) L →
      b ∈ kept (Reachable env s.toMemory) L := fun b hb hnot => by
    refine mem_kept.mpr ⟨hb, ?_⟩
    by_contra hr
    exact hnot (mem_swept.mpr ⟨hb, hr⟩)
  refine ⟨n, s', _, hrun, hlog, fun b _ hnot c hc => S.kept b c hnot hc, fun b hb hnot => ?_,
    fun b hb hnot => ?_, fun b hb => (mem_swept.mp hb).1, fun b c hc hb => ?_⟩
  · exact (kept_links hL.linked H.list.linked (hkept b hb hnot)).1
  · exact (kept_links hL.linked H.list.linked (hkept b hb hnot)).2
  · rw [H.frame.others b hb fun h => hb (mem_swept.mp h).1]
    exact hc

/-! ## A heap with a chunk of another allocation -/

/-- A chunk with the sentinel can stand beside any list. -/
theorem HeapList.addForeign (hL : HeapList env m L) (hn : m.chunks n = none)
    (hc : c.previous env n = sentinel) (hu : minUsable ≤ c.usable) :
    HeapList env (m.setChunk n (some c)) L := by
  have hne : ∀ b ∈ L, b ≠ n := fun b hb e => by
    obtain ⟨cb, hcb, -⟩ := (hL.block b hb).chunk
    rw [e, hn] at hcb
    cases hcb
  have hself : (m.setChunk n (some c)).chunks n = some c := Function.update_self _ _ _
  have hsame : ∀ b, b ≠ n → (m.setChunk n (some c)).chunks b = m.chunks b :=
    fun b hb => Function.update_of_ne hb _ _
  have hcases : ∀ b cb, (m.setChunk n (some c)).chunks b = some cb →
      b = n ∧ cb = c ∨ b ≠ n ∧ m.chunks b = some cb := fun b cb hcb => by
    by_cases hb : b = n
    · subst hb
      exact .inl ⟨rfl, Option.some.inj (hcb.symm.trans hself)⟩
    · exact .inr ⟨hb, (hsame b hb).symm.trans hcb⟩
  constructor
  · refine hL.linked.congr (fun b hb => ?_) (fun b hb => ?_) fun _ _ h => h
    · rw [Memory.nextWord, hsame b (hne b hb)]; rfl
    · rw [Memory.prevWord, hsame b (hne b hb)]; rfl
  · intro b hb
    obtain ⟨cb, hcb, hucb, hd⟩ := (hL.block b hb).chunk
    exact { hL.block b hb with chunk := ⟨cb, (hsame b (hne b hb)).trans hcb, hucb, hd⟩ }
  · intro b cb hcb hb
    rw [Memory.prevWord_eq hcb]
    rcases hcases b cb hcb with ⟨rfl, rfl⟩ | ⟨hbn, hcb⟩
    · exact hc
    · exact Memory.prevWord_eq hcb ▸ hL.foreign b cb hcb hb
  · intro b cb hcb
    rcases hcases b cb hcb with ⟨rfl, rfl⟩ | ⟨hbn, hcb⟩
    · exact hu
    · exact hL.sized b cb hcb

/-- Beside the two blocks there is a chunk of the program, whose address is in a register. -/
def mixedState : State :=
  { twoBlockState with
    toMemory := { twoBlockState.setChunk 0x420000
        (some (linkedChunk Env.flat 0x420000 sentinel 0)) with
      regs := fun _ => 0x420000 } }

theorem mixedState_heapList : HeapList Env.flat mixedState.toMemory [0x400000, 0x410000] := by
  have hc : (linkedChunk Env.flat 0x420000 sentinel 0).previous Env.flat 0x420000 = sentinel :=
    linkedChunk_previous Env.flat_sound (by decide)
  have h := twoBlockState_heapList.addForeign (n := 0x420000) (by decide +kernel) hc le_rfl
  exact ⟨h.linked, fun b hb => { h.block b hb with }, h.foreign, h.sized⟩

theorem gcCollect_frame_mixedState : ∃ n s' freed,
    (∀ fuel, n ≤ fuel → gcCollect Env.flat fuel mixedState = .ok s') ∧
    s'.collections = mixedState.collections ++ [⟨mixedState.toMemory, freed⟩] ∧
    CollectionFrame Env.flat mixedState [0x400000, 0x410000] freed s' :=
  gcCollect_frame Env.flat_sound mixedState_heapList Queue.empty_represents (by decide) (by decide)

end PrecisionGc
