import PrecisionGc.Verify.Bins

/-!
# Runs of the bins

From `init_bins` on, whatever chunks are linked into the bins and unlinked again, in any order, no
check of their links fails, and the rings and tries stand for the list of the chunks in them.
-/

namespace PrecisionGc.Dlmalloc

variable {L : Links} {m : MState} {base fuel : Nat} {e : BinEvent} {events : List BinEvent}

/-- What the allocator does with its bins: a chunk that it links is tagged with its size and is
none of the bins, one that it unlinks is in them, and the sizes of binned chunks stay. -/
def BinEvent.Legal (base : Nat) (m : MState) : BinEvent → Prop
  | .insert p s => p ∉ m.bins.map Prod.fst ∧ m.chunksize p = s ∧ m.leastAddr ≤ p ∧
      p + 64 ≤ 2 ^ 64 ∧ p ≠ 0 ∧ ∀ i < 32, p ≠ base + 80 + 16 * i
  | .unlink p s => (p, s) ∈ m.bins
  | .tag mem => ∀ c ∈ m.bins, { m with mem }.chunksize c.1 = m.chunksize c.1

/-- Every event of the run is legal when it happens. -/
def LegalEvents (base : Nat) (m : MState) : List BinEvent → Prop
  | [] => True
  | e :: events => e.Legal base m ∧ LegalEvents base (m.binStep e) events

theorem initBins_represents (hbins : m.bins = []) : Represents m (Links.initBins base) where
  nodup := by simp [hbins]
  size := by simp [hbins]
  addr := by simp [hbins]
  head := by simp [hbins]
  small i hi := by
    rw [hbins]
    exact ⟨by simp [Links.initBins, binOf, sizedBy], fun hne => absurd rfl hne,
      by simp [binOf, sizedBy], by simp [Links.initBins]⟩
  tree i hi := by
    rw [hbins]
    refine ⟨.nil, ⟨rfl, by simp [Links.initBins], by simp [Links.initBins]⟩, trivial, by simp,
      fun s c => ?_⟩
    refine iff_of_false (by simp) ?_
    rintro ⟨hne, rfl, -⟩
    exact hne rfl

theorem Represents.step (h : Represents m L) (he : e.Legal L.base m)
    (hfuel : m.bins.length ≤ fuel) :
    ∃ L', L.step m fuel e = .ok L' ∧ Represents (m.binStep e) L' ∧ L'.base = L.base := by
  cases e with
  | insert p s =>
    obtain ⟨hp, hsize, hle, hlt, hne, hhead⟩ := he
    exact h.insertChunk ⟨hp, hhead⟩ hsize ⟨hle, hlt, hne⟩ hfuel
  | unlink p s => exact h.unlinkChunk he hfuel
  | tag mem => exact ⟨L, rfl, h.congr rfl rfl he, rfl⟩

theorem binStep_length : (m.binStep e).bins.length ≤ m.bins.length + 1 := by
  cases e with
  | insert p s => exact le_rfl
  | unlink p s => exact (List.length_erase_le).trans (Nat.le_succ _)
  | tag mem => exact Nat.le_succ _

/-- One step keeps what the links stand for, so every run does. -/
theorem Represents.run (h : Represents m L) (hlegal : LegalEvents L.base m events)
    (hfuel : m.bins.length + events.length ≤ fuel) :
    ∃ m' L', Links.run fuel events m L = .ok (m', L') ∧
      m' = events.foldl MState.binStep m ∧ Represents m' L' := by
  induction events generalizing m L with
  | nil => exact ⟨m, L, rfl, rfl, h⟩
  | cons e events ih =>
    obtain ⟨he, hevents⟩ := hlegal
    rw [List.length_cons] at hfuel
    obtain ⟨L₁, hstep, h₁, hbase⟩ := h.step he (show _ ≤ fuel by omega)
    have hlen := binStep_length (m := m) (e := e)
    obtain ⟨m', L', hrun, hm', h'⟩ := ih h₁ (by rw [hbase]; exact hevents)
      (show _ ≤ fuel by omega)
    refine ⟨m', L', ?_, hm', h'⟩
    unfold Links.run
    rw [hstep]
    exact hrun

theorem bins_run_represents (hbins : m.bins = []) (hlegal : LegalEvents base m events)
    (hfuel : events.length ≤ fuel) :
    ∃ L, Links.run fuel events m (Links.initBins base) =
        .ok (events.foldl MState.binStep m, L) ∧
      Represents (events.foldl MState.binStep m) L := by
  obtain ⟨m', L', hrun, rfl, h⟩ := (initBins_represents (m := m) hbins).run hlegal
    (show m.bins.length + _ ≤ fuel by rw [hbins]; simpa using hfuel)
  exact ⟨L', hrun, h⟩

/-- Chunks of 48, 512 and 768 bytes. -/
def threeSizes : MState :=
  { MState.start with mem := fun a => if a < 0x20000 then 51 else if a < 0x30000 then 515 else 771 }

/-- Two chunks of one size are linked twice; of the large ones the node of the tree is unlinked. -/
def threeSizesEvents : List BinEvent :=
  [.insert 0x10000 48, .insert 0x20000 512, .insert 0x30000 768, .insert 0x11000 48,
    .insert 0x21000 512, .unlink 0x20000 512, .tag threeSizes.mem, .unlink 0x10000 48]

theorem threeSizesEvents_legal : LegalEvents 0x1000 threeSizes threeSizesEvents := by
  refine ⟨?_, ?_, ?_, ?_, ?_, ?_, fun _ _ => rfl, ?_, trivial⟩
  case refine_6 => exact List.mem_of_elem_eq_true rfl
  case refine_7 => exact List.mem_of_elem_eq_true rfl
  all_goals exact ⟨by decide, rfl, by decide, by decide, by decide, by decide⟩

theorem bins_run_represents_threeSizes :
    ∃ L, Links.run 8 threeSizesEvents threeSizes (Links.initBins 0x1000) =
        .ok (threeSizesEvents.foldl MState.binStep threeSizes, L) ∧
      Represents (threeSizesEvents.foldl MState.binStep threeSizes) L :=
  bins_run_represents rfl threeSizesEvents_legal le_rfl

end PrecisionGc.Dlmalloc
