import PrecisionGc.Verify.Heap
import Mathlib.Tactic.IntervalCases

/-!
# Which roots the walkers see

A walker that starts at an address that is no multiple of 8 never looks at an aligned word.
`roots_covered_iff` says for which placements of the segments every aligned root is found.
-/

namespace PrecisionGc
open ByteStore LinkedList

variable {env : Env} {m : Memory} {sp base a b : Nat}

/-- The intervals that the stack, `.data` and `.bss` walkers scan. -/
def scanned (env : Env) (stackPointer stackBase : Nat) : List (Nat × Nat) :=
  [(stackPointer, stackBase), (env.dataStart, env.edata), (env.bssStart, env.bssEnd)]

/-- `f` puts `b` into the queue. -/
def Enqueues (f : Queue → Except Fault Queue) (b : Nat) : Prop := ∃ ws, Appends f ws ∧ b ∈ ws

/-- An aligned word that lies wholly inside a scanned interval, other than `heap_list_head`. -/
def RootSlot (env : Env) (stackPointer stackBase a : Nat) : Prop :=
  a % 8 = 0 ∧ a ≠ env.heapListHead ∧
    ∃ i ∈ scanned env stackPointer stackBase, i.1 ≤ a ∧ a + pointerSize ≤ i.2

/-- With this placement, and whatever the memory holds, the block at an aligned root is enqueued by
one of the three walkers. -/
def RootsCovered (env : Env) (stackPointer stackBase : Nat) : Prop :=
  ∀ m L a, m.stackPointer = stackPointer → m.stackBase = stackBase → HeapList env m L →
    RootSlot env stackPointer stackBase a → m.seg a ∈ L →
    Enqueues (scanStack env m) (m.seg a) ∨ Enqueues (scanDataSegment env m) (m.seg a) ∨
      Enqueues (scanBssSegment env m) (m.seg a)

theorem enqueues_iff {f : Queue → Except Fault Queue} {ws : List Nat} (h : Appends f ws) :
    Enqueues f b ↔ b ∈ ws :=
  ⟨fun ⟨_, h', hb⟩ => h.unique h' ▸ hb, fun hb => ⟨ws, h, hb⟩⟩

theorem enqueues_slot {f : Queue → Except Fault Queue} {slots : List Nat}
    (h : Appends f (validWords env m (slots.map m.seg))) :
    Enqueues f b ↔ (∃ x ∈ slots, m.seg x = b) ∧ validHeapObject env m b = true := by
  rw [enqueues_iff h, validWords, List.mem_filter, List.mem_map]

/-! ## A root that is missed -/

variable {v v₀ : Nat}

theorem digit_of_third {i : Nat} (hi : i < 8) (hv : v < 256) :
    (UInt8.ofNat (v * 65536 / 256 ^ i)).toNat = if i = 2 then v else 0 := by
  rw [UInt8.toNat_ofNat']
  interval_cases i <;> norm_num <;> omega

/-- With the third byte as its only one, the address of `b` stands in no other word. -/
theorem twoBlocks_seg_eq (env : Env) (sp base : Nat) {x : Nat} (hv : v < 256) (hv₀ : v₀ < 256)
    (hpos : 0 < v) (hne : v₀ ≠ v)
    (hx : (twoBlocks env sp base a (v₀ * 65536) (v * 65536)).seg x = v * 65536) :
    x = a := by
  have hbyte := readLE_digit (m := (twoBlocks env sp base a (v₀ * 65536) (v * 65536)).segs)
    (a := x) (n := pointerSize) (i := 2) (by simp [pointerSize])
  rw [show readLE _ x pointerSize = v * 65536 from hx] at hbyte
  have hthird : v * 65536 / 256 ^ 2 % 256 = v := by omega
  rw [hthird] at hbyte
  simp only [twoBlocks, writeLE, pointerSize] at hbyte
  split at hbyte
  · rw [digit_of_third (by omega) hv] at hbyte
    split at hbyte <;> omega
  split at hbyte
  · rw [digit_of_third (by omega) hv₀] at hbyte
    split at hbyte <;> omega
  · exact absurd hbyte (by simpa using hpos.ne')

/-- Two addresses in range with only their third byte set, other than a given one. -/
theorem exists_addresses (h : Nat) : ∃ v₀ v, 64 ≤ v₀ ∧ v₀ < 256 ∧ 64 ≤ v ∧ v < 256 ∧ v₀ ≠ v ∧
    v₀ * 65536 ≠ h ∧ v * 65536 ≠ h := by
  by_cases h0 : h = 64 * 65536
  · exact ⟨65, 66, by omega⟩
  by_cases h1 : h = 65 * 65536
  · exact ⟨64, 66, by omega⟩
  · exact ⟨64, 65, by omega⟩

/-- A root that no aligned walker passes is missed in some memory. -/
theorem aligned_of_rootsCovered (henv : env.Sound) (hvoid : env.makePrecise .void = none)
    (hsp : sp ≠ 0) (hcov : RootsCovered env sp base) (ha : RootSlot env sp base a) :
    ∃ i ∈ scanned env sp base, i.1 % 8 = 0 ∧ i.1 ≤ a ∧ a < i.2 := by
  obtain ⟨v₀, v, hv₀, hv₀', hv, hv', hne, hh₀, hh⟩ := exists_addresses env.heapListHead
  have hp₀ := isPlausiblePointer_iff (p := v₀ * 65536).mpr (by omega)
  have hp := isPlausiblePointer_iff (p := v * 65536).mpr (by omega)
  have hne' : v₀ * 65536 ≠ v * 65536 := fun h => hne (Nat.eq_of_mul_eq_mul_right (by decide) h)
  have hL := twoBlocks_heapList sp base henv hvoid ha.1 ha.2.1 hp₀ hp
    (Nat.mod_eq_zero_of_dvd (Dvd.dvd.mul_left (by decide) _))
    (Nat.mod_eq_zero_of_dvd (Dvd.dvd.mul_left (by decide) _)) hne' hh₀ hh
  have hlt : v * 65536 < 256 ^ pointerSize := by simp only [pointerSize]; omega
  have hseg : (twoBlocks env sp base a (v₀ * 65536) (v * 65536)).seg a = v * 65536 :=
    readLE_writeLE hlt
  generalize hm : twoBlocks env sp base a (v₀ * 65536) (v * 65536) = m at hL hseg
  have hseg_eq : ∀ x, m.seg x = m.seg a → x = a := fun x hx =>
    twoBlocks_seg_eq env sp base hv' hv₀' (by omega) hne
      (hm ▸ hx.trans hseg)
  have hfound : ∀ {i : Nat × Nat}, i ∈ scanned env sp base →
      (∃ x ∈ walkerSlots i.1 i.2, m.seg x = m.seg a) →
      ∃ i ∈ scanned env sp base, i.1 % 8 = 0 ∧ i.1 ≤ a ∧ a < i.2 := by
    rintro i hi ⟨x, hx, hxa⟩
    rw [hseg_eq x hxa, mem_walkerSlots] at hx
    exact ⟨i, hi, hx.2.2 ▸ ha.1, hx.1, hx.2.1⟩
  have hmsp : m.stackPointer = sp := by rw [← hm]; rfl
  have hmbase : m.stackBase = base := by rw [← hm]; rfl
  rcases hcov m _ a hmsp hmbase hL ha (by simp [hseg]) with h | h | h
  · by_cases hbase : m.stackBase = 0
    · obtain ⟨ws, happ, -⟩ := h
      obtain ⟨q, hq, -⟩ := happ _ _ Queue.empty_represents
      simp [scanStack, hbase] at hq
    · exact hfound (i := (sp, base)) (by simp [scanned])
        (hmsp ▸ hmbase ▸ ((enqueues_slot (scanStack_appends henv hbase (hmsp ▸ hsp))).mp h).1)
  · exact hfound (i := (env.dataStart, env.edata)) (by simp [scanned])
      ((enqueues_slot (scanDataSegment_appends henv)).mp h).1
  · obtain ⟨x, hx, hxa⟩ := ((enqueues_slot (scanBssSegment_appends henv)).mp h).1
    exact hfound (i := (env.bssStart, env.bssEnd)) (by simp [scanned])
      ⟨x, (List.mem_filter.mp hx).1, hxa⟩

/-- Every aligned root is found, whatever the memory holds, exactly when each of them lies in a
scanned interval that starts at a multiple of 8. -/
theorem rootsCovered_iff (henv : env.Sound) (hvoid : env.makePrecise .void = none)
    (hsp : sp ≠ 0) :
    RootsCovered env sp base ↔ ∀ a, RootSlot env sp base a →
      ∃ i ∈ scanned env sp base, i.1 % 8 = 0 ∧ i.1 ≤ a ∧ a < i.2 := by
  constructor
  · exact fun hcov a => aligned_of_rootsCovered henv hvoid hsp hcov
  · rintro hcov m L a rfl rfl hL ha hb
    have hvalid := (hL.block _ hb).valid henv
    obtain ⟨i, hi, h8, hle, hlt⟩ := hcov a ha
    have hmem : a ∈ walkerSlots i.1 i.2 := mem_walkerSlots.mpr ⟨hle, hlt, by rw [ha.1, h8]⟩
    simp only [scanned, List.mem_cons, List.not_mem_nil, or_false] at hi
    rcases hi with rfl | rfl | rfl
    · have hbase : m.stackBase ≠ 0 := by simp only at hlt; omega
      exact .inl ((enqueues_slot (scanStack_appends henv hbase hsp)).mpr ⟨⟨a, hmem, rfl⟩, hvalid⟩)
    · exact .inr (.inl ((enqueues_slot (scanDataSegment_appends henv)).mpr
        ⟨⟨a, hmem, rfl⟩, hvalid⟩))
    · refine .inr (.inr ((enqueues_slot (scanBssSegment_appends henv)).mpr ⟨⟨a, ?_, rfl⟩, hvalid⟩))
      exact List.mem_filter.mpr ⟨hmem, by simpa using ha.2.1⟩

theorem rootsCovered_iff_flat :
    RootsCovered Env.flat 8 16 ↔ ∀ a, RootSlot Env.flat 8 16 a →
      ∃ i ∈ scanned Env.flat 8 16, i.1 % 8 = 0 ∧ i.1 ≤ a ∧ a < i.2 :=
  rootsCovered_iff Env.flat_sound rfl (by decide)

/-- `.bss` starts one byte after the last byte of `.data`, at an odd address. -/
def Env.oddBss : Env := { Env.flat with edata := 0x6001, bssStart := 0x6001 }

theorem Env.oddBss_sound : Env.oddBss.Sound := { Env.flat_sound with }

/-- With an odd `__bss_start` the program's global at the end of `.bss` is no root. -/
theorem not_rootsCovered_oddBss : ¬RootsCovered Env.oddBss 8 16 := by
  intro hcov
  have hslot : RootSlot Env.oddBss 8 16 0x6040 :=
    ⟨by decide, by decide, (0x6001, 0x6048), by decide, by decide, by decide⟩
  have := aligned_of_rootsCovered Env.oddBss_sound rfl (by decide) hcov hslot
  exact absurd this (by decide)

end PrecisionGc
