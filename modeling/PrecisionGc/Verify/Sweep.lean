import PrecisionGc.Library.While
import PrecisionGc.Theory.AbstractHeap
import PrecisionGc.Verify.Splice

/-!
# The sweep

`sweep` walks the list once. In its middle the list consists of the kept part of what has been
passed and of all that remains (`Sweeping`); a round moves one block over, unlinking and freeing it
when it does not carry the mark bit. The marks are those of any predicate `keep`.
-/

namespace PrecisionGc
open ByteStore LinkedList WhileLoop AbstractHeap

variable {env : Env} {m m' : Memory} {P R F : List Nat} {loose keep : Nat → Prop} {b x : Nat}
  {v : Sweep}

/-- The back link of a block, without the mark bit. -/
def Memory.backWord (env : Env) (m : Memory) (b : Nat) : Nat := clearLow (m.prevWord env b)

/-- The state of the sweep of the list `P ++ R` in `m`, with `P` behind it. -/
structure Sweeping (env : Env) (m : Memory) (loose keep : Nat → Prop) (P R : List Nat)
    (v : Sweep) : Prop where
  frame : Frame env (· ∈ P ++ R) (· ∈ swept keep P) m v.mem
  current : v.current = R.headD 0
  previous : v.previous = (kept keep P).getLastD env.heapListHead
  freed : v.freed = swept keep P
  linked : Linked (v.mem.nextWord env) (v.mem.backWord env) loose 0 env.heapListHead
    (v.mem.head env) (kept keep P ++ R)
  unmarked : ∀ b ∈ kept keep P, v.mem.prevWord env b % 2 = 0
  marks : ∀ b ∈ R, v.mem.prevWord env b % 2 = 1 ↔ keep b

namespace Sweeping

theorem not_swept (hnd : (P ++ R).Nodup) (hb : b ∈ kept keep P ++ R) : b ∉ swept keep P := by
  intro hs
  obtain ⟨hP, hk⟩ := mem_swept.mp hs
  rcases List.mem_append.mp hb with h | h
  · exact hk (mem_kept.mp h).2
  · exact (List.nodup_append.mp hnd).2.2 b hP b h rfl

theorem block (hB : ∀ b ∈ P ++ R, GcBlock env m b) (hnd : (P ++ R).Nodup)
    (H : Sweeping env m loose keep P R v) (hb : b ∈ kept keep P ++ R) : GcBlock env v.mem b := by
  refine (hB b ?_).frame H.frame (not_swept hnd hb)
  exact List.mem_append.mpr ((List.mem_append.mp hb).imp_left fun h => (mem_kept.mp h).1)

/-- The next block of the list. -/
theorem nextWord_eq (H : Sweeping env m loose keep P (x :: R) v) :
    v.mem.nextWord env x = R.headD 0 := by
  obtain ⟨d, -, rfl, -, h⟩ := seg_append.mp H.linked.seg
  rw [h.head_eq]
  cases R <;> rfl

/-- A marked block is unmarked and kept. -/
theorem round_marked (henv : env.Sound) (hB : ∀ b ∈ P ++ x :: R, GcBlock env m b)
    (hnd : (P ++ x :: R).Nodup) (H : Sweeping env m loose keep P (x :: R) v) (hx : keep x) :
    ∃ v', sweepRound env v = .ok v' ∧ Sweeping env m loose keep (P ++ [x]) R v' := by
  have hlive : v.mem.Live x := (H.block hB hnd (by simp)).live
  have hmark : v.mem.prevWord env x % 2 = 1 := (H.marks x List.mem_cons_self).mpr hx
  have hcur : v.current = x := H.current
  obtain ⟨m₁, h₁, hr⟩ := Memory.unmarkBlock_ok henv hlive
  have hnext : m₁.nextPointer env x = .ok (R.headD 0) := by
    rw [Memory.nextPointer_ok (hlive.frame hr.frame id), hr.next, H.nextWord_eq]
  have hkept : kept keep (P ++ [x]) = kept keep P ++ [x] := by
    rw [kept_append, kept_singleton hx]
  have hswept : swept keep (P ++ [x]) = swept keep P := by
    rw [swept_append, swept_singleton_of_not hx, List.append_nil]
  have hprev : ∀ b, b ≠ x → m₁.prevWord env b = v.mem.prevWord env b := fun b hb => by
    rw [hr.prev, Function.update_of_ne hb]
  have hback : m₁.backWord env = v.mem.backWord env := by
    funext b
    by_cases hb : b = x
    · rw [hb, Memory.backWord, hr.prev, Function.update_self, clearLow_clearLow Memory.prevWord_lt]
      rfl
    · rw [Memory.backWord, hprev b hb]; rfl
  refine ⟨⟨m₁, x, R.headD 0, v.freed⟩, ?_, ?_, rfl, ?_, ?_, ?_, ?_, ?_⟩
  · simp [sweepRound, hcur, Memory.marked_ok hlive, hmark, h₁, hnext]
  · rw [hswept, List.append_assoc]
    refine (H.frame.trans (hr.frame.mono fun b hb => ?_)).congr fun b => by simp
    simp [hb]
  · simp [hkept]
  · rw [hswept]; exact H.freed
  · rw [hkept, List.append_assoc]
    show Linked (m₁.nextWord env) (m₁.backWord env) loose 0 env.heapListHead (m₁.head env) _
    rw [hr.next, hback, hr.head]
    exact H.linked
  · intro b hb
    show m₁.prevWord env b % 2 = 0
    by_cases hbx : b = x
    · rw [hbx, hr.prev, Function.update_self]
      exact clearLow_mod_two Memory.prevWord_lt
    · rw [hprev b hbx]
      rw [hkept, List.mem_append, List.mem_singleton] at hb
      exact H.unmarked b (hb.resolve_right hbx)
  · intro b hb
    have hbx : b ≠ x := fun e => by
      have := (List.nodup_append.mp hnd).2.1
      exact (List.nodup_cons.mp this).1 (e ▸ hb)
    show m₁.prevWord env b % 2 = 1 ↔ keep b
    rw [hprev b hbx]
    exact H.marks b (.tail _ hb)

/-- The list is redirected around a block: in `heap_list_head` if nothing before it is kept. -/
theorem redirect_ok (henv : env.Sound) (hB : ∀ b ∈ P ++ x :: R, GcBlock env m b)
    (hnd : (P ++ x :: R).Nodup) (H : Sweeping env m loose keep P (x :: R) v) :
    ∃ m₁, (if v.mem.head env = x then pure (v.mem.setHead env (R.headD 0))
        else v.mem.setNextPointer env v.previous (R.headD 0)) = .ok m₁ ∧
      Redirected env v.mem m₁ (kept keep P) (R.headD 0) := by
  have hlt : R.headD 0 < 2 ^ 64 := H.nextWord_eq ▸ Memory.nextWord_lt
  have hhead := H.linked.seg.head_eq
  rcases List.eq_nil_or_concat (kept keep P) with hK | ⟨K, p, hK⟩
  · rw [hK] at hhead ⊢
    exact ⟨_, by rw [if_pos (by simpa using hhead)]; rfl, redirect_head hlt⟩
  · have hp : (kept keep P).getLast? = some p := by simp [hK]
    have hmem : p ∈ kept keep P ++ x :: R := List.mem_append_left _ (List.mem_of_getLast? hp)
    have hne : v.mem.head env ≠ x := by
      have hfirst : v.mem.head env ∈ kept keep P := by
        rw [hhead, hK]
        cases K <;> simp
      exact fun e => (List.nodup_append.mp H.linked.nodup).2.2 _ hfirst x (by simp) e
    have hprev : v.previous = p := by rw [H.previous, hK]; simp
    obtain ⟨m₁, h₁, D⟩ := redirect_next henv hp (H.block hB hnd hmem).live hlt
    exact ⟨m₁, by rw [if_neg hne, hprev]; exact h₁, D⟩

/-- What has been kept ends in an address with room for the mark bit. -/
theorem previous_even (henv : env.Sound) (hB : ∀ b ∈ P ++ R, GcBlock env m b)
    (H : Sweeping env m loose keep P R v) : v.previous < 2 ^ 64 ∧ v.previous % 2 = 0 := by
  rw [H.previous]
  rcases List.eq_nil_or_concat (kept keep P) with hK | ⟨K, p, hK⟩
  · rw [hK]; exact ⟨henv.headLt, henv.head_even⟩
  · have hp : p ∈ P := (mem_kept.mp (hK ▸ by simp : p ∈ kept keep P)).1
    have hb := hB p (List.mem_append_left _ hp)
    rw [hK]
    simpa using And.intro hb.lt hb.even

/-- The list without a block that is not kept. -/
theorem removed {m₃ : Memory} (hnd : (P ++ x :: R).Nodup)
    (H : Sweeping env m loose keep P (x :: R) v) (hx : ¬keep x)
    (hlt : v.previous < 2 ^ 64) (heven : v.previous % 2 = 0)
    (hrem : Removed env v.mem m₃ (kept keep P) R x (R.headD 0) fun p => v.previous + p % 2) :
    Sweeping env m loose keep (P ++ [x]) R ⟨m₃, v.previous, R.headD 0, v.freed ++ [x]⟩ := by
  have hndR := (List.nodup_append.mp hnd).2.1
  have hxR : x ∉ R := (List.nodup_cons.mp hndR).1
  have hneR : ∀ b ∈ R, b ≠ x := fun b hb e => hxR (e ▸ hb)
  have hneK : ∀ b ∈ kept keep P, b ≠ x := fun b hb e => hx (e ▸ (mem_kept.mp hb).2)
  have hkept : kept keep (P ++ [x]) = kept keep P := by
    rw [kept_append, kept_singleton_of_not hx, List.append_nil]
  have hswept : swept keep (P ++ [x]) = swept keep P ++ [x] := by
    rw [swept_append, swept_singleton hx]
  have hne : ∀ b ∈ kept keep P ++ R, b ≠ x := fun b hb =>
    (List.mem_append.mp hb).elim (hneK b) (hneR b)
  have hsame : ∀ b ∈ kept keep P ++ R, R.head? ≠ some b →
      m₃.prevWord env b = v.mem.prevWord env b := fun b hb => hrem.prev b (hne b hb)
  have hfirst : ∀ b, R.head? = some b →
      m₃.prevWord env b = v.previous + v.mem.prevWord env b % 2 := fun b hb =>
    hrem.first b (hneR b (List.mem_of_head? hb)) hb
  refine ⟨?_, rfl, ?_, ?_, ?_, ?_, ?_⟩
  · rw [hswept, List.append_assoc]
    refine (H.frame.trans (hrem.frame.mono fun b hb => ?_)).congr fun b => by simp
    rcases hb with hb | hb
    · simp [(mem_kept.mp hb).1]
    · simp [hb]
  · rw [hkept]; exact H.previous
  · rw [hswept, ← H.freed]
  · rw [hkept]
    show Linked (m₃.nextWord env) (m₃.backWord env) loose 0 env.heapListHead (m₃.head env) _
    rw [hrem.head, ← H.nextWord_eq]
    refine H.linked.remove (fun b hb => ?_) (fun b hb hl => ?_) (fun b hb => ?_) fun b hb hh => ?_
    · rw [hrem.last b (hneK b (List.mem_of_getLast? hb)) hb, H.nextWord_eq]
    · exact hrem.next b (hne b hb) hl
    · have : v.mem.prevWord env b % 2 < 2 := Nat.mod_lt _ (by decide)
      rw [Memory.backWord, hfirst b hb, ← H.previous, clearLow_eq (by omega)]
      omega
    · rw [Memory.backWord, hsame b hb hh]; rfl
  · intro b hb
    rw [hkept] at hb
    have hh : R.head? ≠ some b := fun h => by
      have hbR := List.mem_of_head? h
      exact (List.nodup_append.mp hnd).2.2 b (mem_kept.mp hb).1 b (.tail _ hbR) rfl
    show m₃.prevWord env b % 2 = 0
    rw [hsame b (List.mem_append_left _ hb) hh]
    exact H.unmarked b hb
  · intro b hb
    show m₃.prevWord env b % 2 = 1 ↔ keep b
    rw [← H.marks b (.tail _ hb)]
    by_cases hh : R.head? = some b
    · rw [hfirst b hh]
      omega
    · rw [hsame b (List.mem_append_right _ hb) hh]

/-- A block without the bit is unlinked and freed. -/
theorem round_unmarked (henv : env.Sound) (hB : ∀ b ∈ P ++ x :: R, GcBlock env m b)
    (hnd : (P ++ x :: R).Nodup) (H : Sweeping env m loose keep P (x :: R) v) (hx : ¬keep x) :
    ∃ v', sweepRound env v = .ok v' ∧ Sweeping env m loose keep (P ++ [x]) R v' := by
  have hlive : ∀ b ∈ kept keep P ++ x :: R, v.mem.Live b := fun b hb => (H.block hB hnd hb).live
  have hxl : v.mem.Live x := hlive x (by simp)
  have hmark : v.mem.prevWord env x % 2 ≠ 1 := fun h => hx ((H.marks x List.mem_cons_self).mp h)
  have hcur : v.current = x := H.current
  have hnext : v.mem.nextPointer env x = .ok (R.headD 0) := by
    rw [Memory.nextPointer_ok hxl, H.nextWord_eq]
  obtain ⟨hlt, heven⟩ := H.previous_even henv hB
  -- the three writes of the round
  obtain ⟨m₁, h₁, hD⟩ := H.redirect_ok henv hB hnd
  obtain ⟨m₂, h₂, hR⟩ := rebase_keepingMark (m := m₁) (R := R) henv (fun b hb =>
    ⟨(hlive b (by simp [hb])).frame hD.frame id, (hB b (by simp [hb])).ne_zero⟩) hlt heven
  obtain ⟨m₃, h₃, hrem⟩ := remove_ok hxl hD hR
  refine ⟨_, ?_, H.removed hnd hx hlt heven hrem⟩
  simp only [sweepRound, hcur, Memory.marked_ok hxl, hmark, decide_false, Except.ok_bind, hnext,
    Bool.false_eq_true, if_false]
  rw [h₁, Except.ok_bind, h₂, Except.ok_bind, h₃]
  rfl

/-- A round of the loop moves one block over. -/
theorem round_ok (henv : env.Sound) (hB : ∀ b ∈ P ++ x :: R, GcBlock env m b)
    (hnd : (P ++ x :: R).Nodup) (H : Sweeping env m loose keep P (x :: R) v) :
    ∃ v', sweepRound env v = .ok v' ∧ Sweeping env m loose keep (P ++ [x]) R v' := by
  by_cases hx : keep x
  · exact H.round_marked henv hB hnd hx
  · exact H.round_unmarked henv hB hnd hx

end Sweeping

/-- The memory after a sweep of `F` that keeps the blocks of `keep`. -/
structure Swept (env : Env) (m : Memory) (loose keep : Nat → Prop) (F : List Nat) (m' : Memory) :
    Prop where
  frame : Frame env (· ∈ F) (· ∈ swept keep F) m m'
  linked : Linked (m'.nextWord env) (m'.prevWord env) loose 0 env.heapListHead (m'.head env)
    (kept keep F)
  unmarked : ∀ b ∈ kept keep F, m'.prevWord env b % 2 = 0

/-- The sweep terminates, keeps the marked blocks of the list and frees the others in order. -/
theorem sweep_settles (henv : env.Sound) (hB : ∀ b ∈ F, GcBlock env m b)
    (hL : Linked (m.nextWord env) (m.backWord env) loose 0 env.heapListHead (m.head env) F)
    (hmarks : ∀ b ∈ F, m.prevWord env b % 2 = 1 ↔ keep b) :
    ∃ m', Settles (fun fuel => sweep env fuel m) (m', swept keep F) ∧
      Swept env m loose keep F m' := by
  have hstart : Sweeping env m loose keep [] F ⟨m, env.heapListHead, m.head env, []⟩ :=
    { frame := (Frame.refl m).congr fun b => by simp
      current := by rw [hL.seg.head_eq]; cases F <;> rfl
      previous := rfl
      freed := rfl
      linked := hL
      unmarked := by simp
      marks := hmarks }
  obtain ⟨v, ⟨P, R⟩, hv, ⟨rfl, H⟩, hdone⟩ := whileM_settles Fault.fuel
    (fun v : Sweep => v.current != 0) (sweepRound env)
    (InvImage (· < ·) fun g : List Nat × List Nat => g.2.length) (InvImage.wf _ Nat.lt_wfRel.wf)
    (fun g v => g.1 ++ g.2 = F ∧ Sweeping env m loose keep g.1 g.2 v)
    (fun g v H hc => by
      obtain ⟨P, R⟩ := g
      obtain ⟨rfl, H⟩ := H
      cases R with
      | nil => simp [H.current] at hc
      | cons x R =>
        obtain ⟨v', hv', H'⟩ := H.round_ok henv hB hL.nodup
        exact ⟨v', (P ++ [x], R), hv', ⟨by simp, H'⟩, Nat.lt_succ_self _⟩)
    (g := ([], F)) ⟨rfl, hstart⟩
  simp only at H
  obtain rfl : R = [] := by
    cases R with
    | nil => rfl
    | cons x R =>
      have hx : x ≠ 0 := (hB x (by simp)).ne_zero
      simp [H.current, hx] at hdone
  rw [List.append_nil] at hB hL hmarks ⊢
  have hlinked := H.linked
  rw [List.append_nil] at hlinked
  refine ⟨v.mem, ?_, ?_, ?_, H.unmarked⟩
  · have := hv.bind (g := fun _ v => (.ok (v.mem, v.freed) : Except Fault _)) (.const rfl)
    rw [H.freed] at this
    exact this
  · simpa using H.frame
  · exact hlinked.congr (fun _ _ => rfl)
      (fun b hb => (clearLow_even Memory.prevWord_lt (H.unmarked b hb)).symm) fun _ _ h => h

/-! ## Any marks -/

/-- The block carries the mark bit. -/
def HasMark (env : Env) (m : Memory) (b : Nat) : Prop := m.prevWord env b % 2 = 1

/-- A list of blocks whose links agree in both directions, up to the mark bit that each of them may
carry. -/
structure MarkedList (env : Env) (m : Memory) (L : List Nat) : Prop where
  linked : Linked (m.nextWord env) (m.backWord env) (fun _ => False) 0 env.heapListHead
    (m.head env) L
  block : ∀ b ∈ L, GcBlock env m b

/-- What a sweep of `L` that has freed `freed` leaves: the marked blocks in their order, on a list
whose links agree, and none of them marked any more. -/
structure ExactSweep (env : Env) (m : Memory) (L : List Nat) (m' : Memory) (freed : List Nat) :
    Prop where
  linked : Linked (m'.nextWord env) (m'.prevWord env) (fun _ => False) 0 env.heapListHead
    (m'.head env) (kept (HasMark env m) L)
  block : ∀ b ∈ kept (HasMark env m) L, GcBlock env m' b
  unmarked : ∀ b ∈ kept (HasMark env m) L, ¬HasMark env m' b
  order : freed = swept (HasMark env m) L
  once : freed.Nodup
  frame : Frame env (· ∈ L) (· ∈ freed) m m'

/-- The sweep of a list with any marks terminates. It does not fail, so it reads no block that it
has freed and frees none twice. -/
theorem sweep_exact {L : List Nat} (henv : env.Sound) (h : MarkedList env m L) :
    ∃ n m' freed, (∀ fuel, n ≤ fuel → sweep env fuel m = .ok (m', freed)) ∧
      ExactSweep env m L m' freed := by
  obtain ⟨m', hrun, H⟩ := sweep_settles henv h.block h.linked fun _ _ => Iff.rfl
  obtain ⟨n, hn⟩ := hrun.enough
  refine ⟨n, m', _, hn, H.linked, fun b hb => ?_, fun b hb => ?_, rfl,
    h.linked.nodup.sublist swept_sublist, H.frame⟩
  · obtain ⟨hbL, hmark⟩ := mem_kept.mp hb
    exact (h.block b hbL).frame H.frame fun hs => (mem_swept.mp hs).2 hmark
  · rw [HasMark, H.unmarked b hb]
    decide

namespace MarkedList

variable {L : List Nat}

/-- A well-formed list without marks. -/
theorem of_heapList (henv : env.Sound) (hL : HeapList env m L) : MarkedList env m L where
  linked := hL.linked.congr (fun _ _ => rfl)
    (fun b hb => clearLow_even Memory.prevWord_lt (hL.unmarked henv b hb).1) fun _ _ h => h
  block := hL.block

/-- Each block of the list can be marked by itself. -/
theorem markBlock (henv : env.Sound) (h : MarkedList env m L) (hb : b ∈ L) :
    ∃ m', m.markBlock env b = .ok m' ∧ MarkedList env m' L ∧
      ∀ x, HasMark env m' x ↔ x = b ∨ HasMark env m x := by
  obtain ⟨m', h', hr⟩ := Memory.markBlock_ok henv (h.block b hb).live
  refine ⟨m', h', ⟨?_, fun x hx => (h.block x hx).frame hr.frame id⟩, fun x => ?_⟩
  · rw [hr.next, hr.head]
    refine h.linked.congr (fun _ _ => rfl) (fun x _ => ?_) fun _ _ h => h
    rw [Memory.backWord, Memory.backWord, hr.prev]
    by_cases hx : x = b
    · rw [hx, Function.update_self, clearLow_or_one Memory.prevWord_lt]
    · rw [Function.update_of_ne hx]
  · rw [HasMark, hr.prev]
    by_cases hx : x = b
    · simp [hx, or_one_odd]
    · rw [Function.update_of_ne hx]
      exact (or_iff_right hx).symm

end MarkedList

/-- Of two blocks the second one is marked. -/
theorem sweep_exact_twoBlocks : ∃ m n m' freed,
    (∀ fuel, n ≤ fuel → sweep Env.flat fuel m = .ok (m', freed)) ∧
    ExactSweep Env.flat m [0x400000, 0x410000] m' freed ∧ HasMark Env.flat m 0x410000 := by
  have hL : HeapList Env.flat (twoBlocks Env.flat 8 16 0x6040 0x400000 0x410000)
      [0x400000, 0x410000] :=
    twoBlocks_heapList 8 16 Env.flat_sound rfl (by decide) (by decide) (by decide) (by decide)
      (by decide) (by decide) (by decide) (by decide) (by decide)
  obtain ⟨m, -, hM, hmark⟩ := (MarkedList.of_heapList Env.flat_sound hL).markBlock Env.flat_sound
    (b := 0x410000) (by simp)
  obtain ⟨n, m', freed, hrun, H⟩ := sweep_exact Env.flat_sound hM
  exact ⟨m, n, m', freed, hrun, H, (hmark _).mpr (.inl rfl)⟩

end PrecisionGc
