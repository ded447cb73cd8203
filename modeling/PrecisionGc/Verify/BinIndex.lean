import PrecisionGc.Library.DigitalTree
import PrecisionGc.Model.Bins
import Mathlib.Data.Nat.Bitwise
import Mathlib.Tactic.Ring

/-!
# The indices of the bins

A tree bin holds the sizes of one range, and the bits of a size below the bits that all sizes of
the range share lead to its place in the trie. The index is computed from 32 bits of the size: a
size of 2^40 or more whose bits 24 to 39 are zero gets the index of a smaller size.
-/

namespace PrecisionGc.Dlmalloc
open DigitalTree

variable {s t i j n d x y : Nat}

/-! ## Sizes -/

/-- The bits that `compute_tree_index` drops do not change the index of the size. -/
def WellIndexed (s : Nat) : Prop := s < 2 ^ 40 ∨ 3 * 2 ^ 22 ≤ s % 2 ^ 40

instance : Decidable (WellIndexed s) := inferInstanceAs (Decidable (_ ∨ _))

theorem computeTreeIndex_lt : computeTreeIndex s < 32 := by
  unfold computeTreeIndex
  dsimp only
  split
  · decide
  · split
    · decide
    · rename_i h0 h
      have := (Nat.log2_lt h0 (k := 16)).mpr (by omega)
      omega

/-- The sizes below 2^24 by their two leading bits. -/
theorem computeTreeIndex_eq (h : 2 ^ 8 ≤ s) (h' : s < 2 ^ 24) : ∃ k < 16,
    computeTreeIndex s = 2 * k + s / 2 ^ (k + 7) % 2 ∧ 2 ^ (k + 8) ≤ s ∧ s < 2 ^ (k + 9) := by
  have hx : s / 2 ^ 8 % 2 ^ 32 = s / 2 ^ 8 := Nat.mod_eq_of_lt (by omega)
  have h0 : s / 2 ^ 8 ≠ 0 := by omega
  refine ⟨Nat.log2 (s / 2 ^ 8), (Nat.log2_lt h0).mpr (by omega), ?_, ?_, ?_⟩
  · unfold computeTreeIndex
    simp only [hx, if_neg h0]
    rw [if_neg (by omega)]
  · have hle := Nat.log2_self_le h0
    rw [pow_add]
    exact (Nat.mul_le_mul_right _ hle).trans (Nat.div_mul_le_self s _)
  · have hlt := Nat.lt_log2_self (n := s / 2 ^ 8)
    rw [Nat.div_lt_iff_lt_mul (by decide), ← pow_add] at hlt
    exact hlt

theorem computeTreeIndex_eq_31 : computeTreeIndex s = 31 ↔ 3 * 2 ^ 22 ≤ s % 2 ^ 40 := by
  have hx : s / 2 ^ 8 % 2 ^ 32 = s % 2 ^ 40 / 2 ^ 8 := by omega
  unfold computeTreeIndex
  simp only [hx, ntreebins]
  split
  case isTrue h => omega
  case isFalse h =>
    split
    case isTrue h' => omega
    case isFalse h' =>
      have hk := (Nat.log2_lt h (k := 16)).mpr (by omega)
      rcases Nat.lt_or_ge (Nat.log2 (s % 2 ^ 40 / 2 ^ 8)) 15 with hlt | hge
      · have := (Nat.log2_lt h).mp hlt
        omega
      · have := (Nat.le_log2 h).mp hge
        rw [show Nat.log2 (s % 2 ^ 40 / 2 ^ 8) = 15 by omega]
        omega

theorem minsizeForTreeIndex_eq (hi : i < 32) :
    minsizeForTreeIndex i = (2 + i % 2) * 2 ^ (i / 2 + 7) := by
  revert i
  decide

/-- The range of a tree bin: all of it in front of the bits that the trie looks at. -/
theorem div_of_wellIndexed (h : 2 ^ 8 ≤ s) (hlt : s < 2 ^ 64) (hs : WellIndexed s) :
    computeTreeIndex s < 31 ∧
        s / 2 ^ (computeTreeIndex s / 2 + 7) = 2 + computeTreeIndex s % 2 ∨
      computeTreeIndex s = 31 ∧ 3 * 2 ^ 22 ≤ s := by
  rcases Nat.lt_or_ge s (2 ^ 24) with hsmall | hlarge
  · obtain ⟨k, hk, hidx, hle, hlt'⟩ := computeTreeIndex_eq h hsmall
    have hdiv : 2 ≤ s / 2 ^ (k + 7) ∧ s / 2 ^ (k + 7) < 4 := by
      refine ⟨(Nat.le_div_iff_mul_le (Nat.two_pow_pos _)).mpr ?_,
        (Nat.div_lt_iff_lt_mul (Nat.two_pow_pos _)).mpr ?_⟩
      · rw [Nat.mul_comm, ← pow_succ]
        exact hle
      · rw [show 4 * 2 ^ (k + 7) = 2 ^ (k + 9) by ring]
        exact hlt'
    have hhalf : computeTreeIndex s / 2 = k := by omega
    rw [hhalf]
    rcases Nat.lt_or_ge (computeTreeIndex s) 31 with h31 | h31
    · exact .inl ⟨h31, by omega⟩
    · obtain rfl : k = 15 := by omega
      refine .inr ⟨by omega, ?_⟩
      have : s / 2 ^ 22 = 3 := by omega
      omega
  · refine .inr ⟨computeTreeIndex_eq_31.mpr ?_, by omega⟩
    rcases hs with hs | hs <;> omega

/-- The test of an index in `do_check_tree`. -/
def InRange (s i : Nat) : Prop :=
  minsizeForTreeIndex i ≤ s ∧ (i = ntreebins - 1 ∨ s < minsizeForTreeIndex (i + 1))

instance : Decidable (InRange s i) := inferInstanceAs (Decidable (_ ∧ _))

theorem inRange_iff_div (hi : i < 31) : InRange s i ↔ s / 2 ^ (i / 2 + 7) = 2 + i % 2 := by
  have hpos := Nat.two_pow_pos (i / 2 + 7)
  have hnext : minsizeForTreeIndex (i + 1) = (3 + i % 2) * 2 ^ (i / 2 + 7) := by
    rw [minsizeForTreeIndex_eq (by omega)]
    rcases Nat.mod_two_eq_zero_or_one i with h | h
    · rw [show (i + 1) / 2 = i / 2 by omega, show (i + 1) % 2 = 1 by omega, h]
    · rw [show (i + 1) / 2 = i / 2 + 1 by omega, show (i + 1) % 2 = 0 by omega, h,
        show i / 2 + 1 + 7 = i / 2 + 7 + 1 by omega, pow_succ]
      ring
  unfold InRange
  rw [hnext, minsizeForTreeIndex_eq (by omega), ntreebins, ← Nat.le_div_iff_mul_le hpos,
    ← Nat.div_lt_iff_lt_mul hpos]
  omega

/-- The test succeeds exactly for the sizes whose index does not come from dropped bits. -/
theorem inRange_iff_wellIndexed (h : 2 ^ 8 ≤ s) (hlt : s < 2 ^ 64) :
    InRange s (computeTreeIndex s) ↔ WellIndexed s := by
  constructor
  · intro hrange
    by_contra hnot
    simp only [WellIndexed, not_or, not_lt, not_le] at hnot
    have h31 : computeTreeIndex s < 31 := by
      have := computeTreeIndex_lt (s := s)
      have := computeTreeIndex_eq_31 (s := s)
      omega
    rw [inRange_iff_div h31] at hrange
    have hpow : 2 ^ (computeTreeIndex s / 2 + 7) ≤ 2 ^ 22 :=
      Nat.pow_le_pow_right (by decide) (by omega)
    have hlt := (Nat.div_lt_iff_lt_mul (Nat.two_pow_pos _)).mp
      (show s / 2 ^ (computeTreeIndex s / 2 + 7) < 4 by omega)
    omega
  · intro hs
    rcases div_of_wellIndexed h hlt hs with ⟨h31, hdiv⟩ | ⟨h31, hle⟩
    · exact (inRange_iff_div h31).mpr hdiv
    · rw [h31]
      exact ⟨hle, .inl rfl⟩

/-- A larger index is that of a larger size. -/
theorem lt_of_computeTreeIndex_lt (hs : InRange s (computeTreeIndex s))
    (ht : InRange t (computeTreeIndex t)) (h : computeTreeIndex s < computeTreeIndex t) :
    s < t := by
  have hmono : ∀ i < 32, ∀ j < i, minsizeForTreeIndex (j + 1) ≤ minsizeForTreeIndex i := by decide
  have hlt := computeTreeIndex_lt (s := t)
  have hs' := hs.2.resolve_left (by simp only [ntreebins]; omega)
  exact (hs'.trans_le (hmono _ hlt _ h)).trans_le ht.1

/-! ## The bits of a size -/

/-- `K` of `insert_large_chunk` at depth `d`, and `sizebits` of the searches. -/
def sizeBits (i s d : Nat) : Nat := s * 2 ^ (leftshiftForTreeIndex i + d) % 2 ^ 64

/-- The bit that decides which child the size is under. -/
def digit (i s d : Nat) : Bool := sizeBits i s d / 2 ^ 63 % 2 == 1

theorem sizeBits_zero : sizeBits i s 0 = s <<< leftshiftForTreeIndex i % 2 ^ 64 := by
  rw [sizeBits, Nat.add_zero, Nat.shiftLeft_eq]

theorem sizeBits_succ : sizeBits i s (d + 1) = sizeBits i s d <<< 1 % 2 ^ 64 := by
  rw [sizeBits, sizeBits, Nat.shiftLeft_eq, pow_one, Nat.mod_mul_mod, ← Nat.add_assoc, pow_succ,
    Nat.mul_assoc]

/-- Number of bits below the leading one that the trie of a bin looks at. -/
theorem digit_eq {b : Nat} (hb : leftshiftForTreeIndex i + b = 63) :
    digit i s d = (decide (d ≤ b) && s.testBit (b - d)) := by
  unfold digit sizeBits
  rw [← Nat.shiftLeft_eq]
  have hbit : ∀ y : Nat, (y % 2 ^ 64 / 2 ^ 63 % 2 == 1) = y.testBit 63 := fun y => by
    have : y % 2 ^ 64 / 2 ^ 63 % 2 = y / 2 ^ 63 % 2 := by omega
    rw [this, Nat.testBit_eq_decide_div_mod_eq]
    rfl
  rw [hbit, Nat.testBit_shiftLeft]
  rcases Nat.lt_or_ge b d with hd | hd
  · have h1 : ¬(63 ≥ leftshiftForTreeIndex i + d) := by omega
    have h2 : ¬d ≤ b := by omega
    simp [h1, h2]
  · have h1 : 63 ≥ leftshiftForTreeIndex i + d := by omega
    have h2 : 63 - (leftshiftForTreeIndex i + d) = b - d := by omega
    simp [h1, h2, hd]

theorem leftshift_bits (hi : i < 32) :
    leftshiftForTreeIndex i + (if i = 31 then 63 else i / 2 + 6) = 63 := by
  unfold leftshiftForTreeIndex ntreebins
  rcases eq_or_ne i 31 with rfl | h31
  · rfl
  · rw [if_neg h31, if_neg h31]
    omega

/-- The sizes that belong into a tree bin. -/
def Belongs (i s : Nat) : Prop :=
  computeTreeIndex s = i ∧ 2 ^ 8 ≤ s ∧ s < 2 ^ 64 ∧ WellIndexed s

/-- The bits of the sizes of a bin spell their order. -/
theorem ordered_digit (hi : i < 32) : Tree.Ordered (digit i) (Belongs i) := by
  intro s t d ⟨hs, hs8, hs64, hsw⟩ ⟨ht, ht8, ht64, htw⟩ hagree hfalse htrue
  generalize hb : (if i = 31 then 63 else i / 2 + 6) = b at *
  have hshift := leftshift_bits hi
  rw [hb] at hshift
  simp only [digit_eq hshift] at hagree hfalse htrue
  rw [Bool.and_eq_true, decide_eq_true_eq] at htrue
  obtain ⟨hd, htrue⟩ := htrue
  rw [decide_eq_true hd, Bool.true_and] at hfalse
  have htop : s / 2 ^ (b + 1) = t / 2 ^ (b + 1) := by
    rcases div_of_wellIndexed hs8 hs64 hsw with ⟨h31, hsdiv⟩ | ⟨h31, -⟩ <;>
      rcases div_of_wellIndexed ht8 ht64 htw with ⟨h31', htdiv⟩ | ⟨h31', -⟩
    · rw [hs] at hsdiv h31
      rw [ht] at htdiv
      rw [if_neg (by omega)] at hb
      subst hb
      rw [hsdiv, htdiv]
    · omega
    · omega
    · rw [hs] at h31
      rw [if_pos h31] at hb
      subst hb
      rw [Nat.div_eq_of_lt hs64, Nat.div_eq_of_lt ht64]
  -- the leading bits agree down to the digit that tells the sizes apart
  have hlead : ∀ j ≤ d, s / 2 ^ (b + 1 - j) = t / 2 ^ (b + 1 - j) := by
    intro j
    induction j with
    | zero => exact fun _ => htop
    | succ j ih =>
      intro hj
      have hbit := hagree j (by omega)
      rw [decide_eq_true (by omega), Bool.true_and, Bool.true_and, Nat.testBit_eq_decide_div_mod_eq,
        Nat.testBit_eq_decide_div_mod_eq, decide_eq_decide] at hbit
      have hstep : ∀ y : Nat, y / 2 ^ (b + 1 - j) = y / 2 ^ (b - j) / 2 := fun y => by
        rw [show b + 1 - j = b - j + 1 by omega, pow_succ, Nat.div_div_eq_div_mul]
      have hih := ih (by omega)
      rw [hstep, hstep] at hih
      rw [show b + 1 - (j + 1) = b - j by omega]
      omega
  have hlead' := hlead d le_rfl
  rw [Nat.testBit_eq_decide_div_mod_eq, decide_eq_false_iff_not] at hfalse
  rw [Nat.testBit_eq_decide_div_mod_eq, decide_eq_true_eq] at htrue
  have hstep : ∀ y : Nat, y / 2 ^ (b + 1 - d) = y / 2 ^ (b - d) / 2 := fun y => by
    rw [show b + 1 - d = b - d + 1 by omega, pow_succ, Nat.div_div_eq_div_mul]
  rw [hstep, hstep] at hlead'
  by_contra hge
  have hle := Nat.div_le_div_right (c := 2 ^ (b - d)) (not_lt.mp hge)
  omega

/-! ## Bin maps -/

theorem idx2bit_eq (hi : i < 32) : idx2bit i = 2 ^ i := by
  rw [idx2bit, Nat.shiftLeft_eq, Nat.one_mul,
    Nat.mod_eq_of_lt (Nat.pow_lt_pow_right (by decide) hi)]

theorem marked_eq (hi : i < 32) : (x &&& idx2bit i != 0) = x.testBit i := by
  rw [idx2bit_eq hi, Nat.and_two_pow]
  cases x.testBit i <;> simp

theorem testBit_mark (hi : i < 32) :
    (x ||| idx2bit i).testBit j = (x.testBit j || decide (i = j)) := by
  rw [idx2bit_eq hi, Nat.testBit_or, Nat.testBit_two_pow]

theorem mark_lt (hx : x < 2 ^ 32) (hi : i < 32) : x ||| idx2bit i < 2 ^ 32 := by
  rw [idx2bit_eq hi]
  exact Nat.or_lt_two_pow hx (Nat.pow_lt_pow_right (by decide) hi)

theorem testBit_clear (hx : x < 2 ^ 32) (hi : i < 32) :
    (x &&& (2 ^ 32 - 1 - idx2bit i)).testBit j = (x.testBit j && decide (i ≠ j)) := by
  have hlt : 2 ^ i < 2 ^ 32 := Nat.pow_lt_pow_right (by decide) hi
  rw [idx2bit_eq hi, Nat.sub_sub, Nat.add_comm 1, Nat.testBit_and,
    Nat.testBit_two_pow_sub_succ hlt, Nat.testBit_two_pow]
  rcases Nat.lt_or_ge j 32 with hj | hj
  · simp [hj]
  · rw [Nat.testBit_lt_two_pow (hx.trans_le (Nat.pow_le_pow_right (by decide) hj))]
    simp

theorem clear_lt (hx : x < 2 ^ 32) : x &&& y < 2 ^ 32 := lt_of_le_of_lt Nat.and_le_left hx

/-- The least set bit, alone. -/
theorem testBit_leastBit (hx : x < 2 ^ 32) (hbit : x.testBit i) (hleast : ∀ j < i, ¬x.testBit j)
    (hj : j < 32) : (leastBit x).testBit j = decide (j = i) := by
  have hmod : x % 2 ^ i = 0 := Nat.eq_of_testBit_eq fun j => by
    rw [Nat.testBit_mod_two_pow, Nat.zero_testBit, Bool.and_eq_false_iff]
    rcases Nat.lt_or_ge j i with hlt | hge
    · exact .inr (by simpa using hleast j hlt)
    · exact .inl (by simpa using hge)
  obtain ⟨q, hq⟩ : ∃ q, x / 2 ^ i = 2 * q + 1 := by
    rw [Nat.testBit_eq_decide_div_mod_eq, decide_eq_true_eq] at hbit
    exact ⟨x / 2 ^ i / 2, by omega⟩
  have hpos := Nat.two_pow_pos i
  have hxq : x = 2 ^ i * (2 * q + 1) := by
    have := Nat.div_add_mod x (2 ^ i)
    rw [hq, hmod] at this
    exact this.symm
  have hpred : x - 1 = 2 ^ i * (2 * q) + (2 ^ i - 1) := by
    rw [hxq, Nat.mul_add, Nat.mul_one]
    omega
  have hneg : (2 ^ 32 - x) % 2 ^ 32 = 2 ^ 32 - (x - 1 + 1) := by
    have hxpos : 0 < x := hxq ▸ Nat.mul_pos hpos (Nat.succ_pos _)
    rw [Nat.sub_add_cancel hxpos, Nat.mod_eq_of_lt (by omega)]
  rw [leastBit, Nat.testBit_and, hneg, Nat.testBit_two_pow_sub_succ (by omega), decide_eq_true hj,
    Bool.true_and, hpred, Nat.testBit_two_pow_mul_add _ (by omega)]
  rcases Nat.lt_trichotomy j i with hlt | rfl | hgt
  · rw [if_pos hlt, Nat.testBit_two_pow_sub_one, decide_eq_true hlt, decide_eq_false hlt.ne]
    simp
  · rw [if_neg (lt_irrefl _), hbit, Nat.sub_self]
    simp
  · obtain ⟨n, rfl⟩ : ∃ n, j = i + (n + 1) := ⟨j - i - 1, by omega⟩
    rw [if_neg (by omega), decide_eq_false (by omega), hxq, Nat.testBit_two_pow_mul,
      Nat.add_sub_cancel_left, Nat.testBit_succ, Nat.testBit_succ,
      show (2 * q + 1) / 2 = q by omega, show 2 * q / 2 = q by omega]
    cases q.testBit n <;> simp

theorem bit2idx_leastBit (h0 : x ≠ 0) (hx : x < 2 ^ 32) : bit2idx (leastBit x) < 32 ∧
    x.testBit (bit2idx (leastBit x)) ∧ ∀ j < bit2idx (leastBit x), ¬x.testBit j := by
  have hex := Nat.exists_testBit_of_ne_zero h0
  have hbit := Nat.find_spec hex
  have hleast : ∀ j < Nat.find hex, ¬x.testBit j := fun j hj => Nat.find_min hex hj
  generalize Nat.find hex = i at hbit hleast
  have hi : i < 32 := by
    by_contra hge
    rw [Nat.testBit_lt_two_pow (hx.trans_le (Nat.pow_le_pow_right (by decide) (not_lt.mp hge)))]
      at hbit
    cases hbit
  have hidx : bit2idx (leastBit x) = i := by
    rw [bit2idx, List.findIdx_eq (by simpa using hi)]
    simp only [List.getElem_range]
    refine ⟨by rw [testBit_leastBit hx hbit hleast hi, decide_eq_true rfl], fun j hj => ?_⟩
    rw [testBit_leastBit hx hbit hleast (hj.trans hi), decide_eq_false hj.ne]
  rw [hidx]
  exact ⟨hi, hbit, hleast⟩

theorem testBit_leftBits (hi : i < 32) (hj : j < 32) :
    (leftBits (idx2bit i)).testBit j = decide (i < j) := by
  have hbits : ∀ i < 32, leftBits (idx2bit i) = 2 ^ 32 - (2 ^ (i + 1) - 1 + 1) := by decide
  have hle : 2 ^ (i + 1) ≤ 2 ^ 32 := Nat.pow_le_pow_right (by decide) hi
  have hpos := Nat.two_pow_pos (i + 1)
  rw [hbits i hi, Nat.testBit_two_pow_sub_succ (by omega), Nat.testBit_two_pow_sub_one,
    decide_eq_true hj, Bool.true_and, ← decide_not, decide_eq_decide]
  omega

end PrecisionGc.Dlmalloc
