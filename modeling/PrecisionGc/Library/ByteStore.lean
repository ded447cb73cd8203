import Mathlib.Data.Nat.Bitwise
import Mathlib.Tactic.Ring

/-!
# Byte-addressed stores with little-endian words

A store maps addresses to bytes. `readLE` assembles the little-endian value of `n` bytes, `writeLE`
lays a value out over `n` bytes and `fill` sets a range to one byte. The rules are the usual three:
a read sees what was written at its own place, it does not see a write elsewhere, and it depends on
nothing but its own bytes.
-/

namespace ByteStore

/-- A store maps every address to a byte. -/
abbrev Store := Nat → UInt8

variable {m m' : Store} {a b n k w : Nat} {v : UInt8}

/-- The little-endian value of the `n` bytes from `a` on. -/
def readLE (m : Store) (a : Nat) : Nat → Nat
  | 0 => 0
  | n + 1 => (m a).toNat + 256 * readLE m (a + 1) n

/-- The store with the `n` low-order bytes of `w` laid out from `a` on. -/
def writeLE (m : Store) (a n w : Nat) : Store := fun x =>
  if a ≤ x ∧ x < a + n then UInt8.ofNat (w / 256 ^ (x - a)) else m x

/-- The store with the `n` bytes from `a` on set to `v`. -/
def fill (m : Store) (a n : Nat) (v : UInt8) : Store := fun x =>
  if a ≤ x ∧ x < a + n then v else m x

theorem readLE_congr {a a' : Nat} (h : ∀ i < n, m (a + i) = m' (a' + i)) :
    readLE m a n = readLE m' a' n := by
  induction n generalizing a a' with
  | zero => rfl
  | succ n ih =>
    have h0 : m a = m' a' := h 0 (Nat.succ_pos n)
    have hs : readLE m (a + 1) n = readLE m' (a' + 1) n := ih fun i hi => by
      have := h (i + 1) (Nat.succ_lt_succ hi)
      rwa [show a + (i + 1) = a + 1 + i by omega, show a' + (i + 1) = a' + 1 + i by omega] at this
    simp only [readLE, h0, hs]

theorem readLE_lt : readLE m a n < 256 ^ n := by
  induction n generalizing a with
  | zero => simp [readLE]
  | succ n ih =>
    have hb : (m a).toNat < 256 := (m a).toNat_lt
    have hr := ih (a := a + 1)
    simp only [readLE, Nat.pow_succ]
    omega

/-- A store whose bytes are the digits of `w` reads back `w`, cut to the width. -/
theorem readLE_of_digits (h : ∀ i < n, m (a + i) = UInt8.ofNat (w / 256 ^ i)) :
    readLE m a n = w % 256 ^ n := by
  induction n generalizing a w with
  | zero => simp [readLE, Nat.mod_one]
  | succ n ih =>
    have h0 : m a = UInt8.ofNat w := by simpa using h 0 (Nat.succ_pos n)
    have hs : readLE m (a + 1) n = w / 256 % 256 ^ n := ih fun i hi => by
      have := h (i + 1) (Nat.succ_lt_succ hi)
      rwa [show a + (i + 1) = a + 1 + i by omega, Nat.pow_succ', ← Nat.div_div_eq_div_mul] at this
    have hb : (UInt8.ofNat w).toNat = w % 256 := by simp [UInt8.toNat_ofNat']
    rw [readLE, h0, hs, hb, Nat.pow_succ', Nat.mod_mul]

/-- The bytes of a word are its digits. -/
theorem readLE_digit {i : Nat} (hi : i < n) : readLE m a n / 256 ^ i % 256 = (m (a + i)).toNat := by
  induction n generalizing a i with
  | zero => omega
  | succ n ih =>
    have hb : (m a).toNat < 256 := (m a).toNat_lt
    cases i with
    | zero =>
      simp only [readLE, Nat.pow_zero, Nat.div_one, Nat.add_zero]
      omega
    | succ i =>
      have := ih (a := a + 1) (i := i) (by omega)
      rw [show a + (i + 1) = a + 1 + i by omega, ← this, readLE, Nat.pow_succ',
        ← Nat.div_div_eq_div_mul]
      congr 2
      omega

theorem readLE_writeLE_mod : readLE (writeLE m a n w) a n = w % 256 ^ n :=
  readLE_of_digits fun i hi => by
    have : a ≤ a + i ∧ a + i < a + n := by omega
    simp [writeLE, hi]

theorem readLE_writeLE (h : w < 256 ^ n) : readLE (writeLE m a n w) a n = w := by
  rw [readLE_writeLE_mod, Nat.mod_eq_of_lt h]

theorem writeLE_of_outside {x : Nat} (h : x < a ∨ a + n ≤ x) : writeLE m a n w x = m x :=
  if_neg (by omega)

theorem readLE_writeLE_of_disjoint (h : b + k ≤ a ∨ a + n ≤ b) :
    readLE (writeLE m a n w) b k = readLE m b k :=
  readLE_congr fun _ hi => writeLE_of_outside (by omega)

theorem fill_of_inside {x : Nat} (h : a ≤ x ∧ x < a + n) : fill m a n v x = v := if_pos h

/-! ## The lowest bit of a word as a flag -/

/-- `w` with its lowest bit cleared, for a word of `64` bits. -/
def clearLow (w : Nat) : Nat := w &&& (2 ^ 64 - 2)

theorem or_one (w : Nat) : w ||| 1 = w - w % 2 + 1 := by
  apply Nat.eq_of_testBit_eq
  intro i
  cases i with
  | zero => simp [Nat.testBit_zero]; omega
  | succ i =>
    rw [Nat.testBit_or, Nat.testBit_succ, Nat.testBit_succ, Nat.testBit_succ]
    rw [show (w - w % 2 + 1) / 2 = w / 2 by omega]
    simp

theorem clearLow_eq (h : w < 2 ^ 64) : clearLow w = w - w % 2 := by
  have hmask : (2 ^ 64 - 2 : Nat) = 2 * (2 ^ 63 - 1) := by norm_num
  apply Nat.eq_of_testBit_eq
  intro i
  rw [clearLow, Nat.testBit_and, hmask]
  cases i with
  | zero => simp [Nat.testBit_zero]; omega
  | succ i =>
    rw [Nat.testBit_succ, Nat.testBit_succ, Nat.testBit_succ,
      Nat.mul_div_cancel_left _ (by norm_num),
      Nat.testBit_two_pow_sub_one, show (w - w % 2) / 2 = w / 2 by omega]
    by_cases hi : i < 63
    · simp [hi]
    · have : (w / 2).testBit i = false :=
        Nat.testBit_lt_two_pow (lt_of_lt_of_le (by omega : w / 2 < 2 ^ 63)
          (Nat.pow_le_pow_right (by norm_num) (by omega)))
      simp [hi, this]

theorem clearLow_even (h : w < 2 ^ 64) (he : w % 2 = 0) : clearLow w = w := by
  rw [clearLow_eq h]; omega

theorem or_one_odd : (w ||| 1) % 2 = 1 := by rw [or_one]; omega

theorem clearLow_or_one (h : w < 2 ^ 64) : clearLow (w ||| 1) = clearLow w := by
  rw [clearLow_eq (by rw [or_one]; omega), clearLow_eq h, or_one]; omega

theorem clearLow_mod_two (h : w < 2 ^ 64) : clearLow w % 2 = 0 := by rw [clearLow_eq h]; omega

theorem clearLow_lt (h : w < 2 ^ 64) : clearLow w < 2 ^ 64 := by rw [clearLow_eq h]; omega

theorem or_one_lt (h : w < 2 ^ 64) : (w ||| 1) < 2 ^ 64 := by rw [or_one]; omega

theorem clearLow_clearLow (h : w < 2 ^ 64) : clearLow (clearLow w) = clearLow w :=
  clearLow_even (clearLow_lt h) (clearLow_mod_two h)

end ByteStore
