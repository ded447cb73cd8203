import Mathlib.Algebra.Order.Ring.Nat
import Mathlib.Logic.Function.Basic
import Mathlib.Tactic.Ring

/-!
# Bytes of word-addressed stores

A store maps the address of a word to the word. The bytes of a word are its digits at base 256, so
that a byte can be read and written by its own address, and a byte that is written changes no other.
-/

namespace WordStore

/-- The byte `i` of a word. -/
def digit (w i : Nat) : Nat := w / 256 ^ i % 256

/-- The word with `v` as its byte `i`. -/
def setDigit (w i v : Nat) : Nat :=
  w / 256 ^ (i + 1) * 256 ^ (i + 1) + v % 256 * 256 ^ i + w % 256 ^ i

def byte (mem : Nat → Nat) (a : Nat) : Nat := digit (mem (a / 8 * 8)) (a % 8)

def setByte (mem : Nat → Nat) (a v : Nat) : Nat → Nat :=
  Function.update mem (a / 8 * 8) (setDigit (mem (a / 8 * 8)) (a % 8) v)

variable {mem mem' : Nat → Nat} {w i j v a b : Nat}

theorem setDigit_eq : setDigit w i v =
    w % 256 ^ i + 256 ^ i * (v % 256 + 256 * (w / 256 ^ (i + 1))) := by
  rw [setDigit, pow_succ]
  ring

theorem digit_setDigit_self : digit (setDigit w i v) i = v % 256 := by
  have hpos : 0 < 256 ^ i := Nat.pow_pos (by decide)
  rw [digit, setDigit_eq, Nat.add_mul_div_left _ _ hpos, Nat.div_eq_of_lt (Nat.mod_lt _ hpos),
    Nat.zero_add, Nat.add_mul_mod_self_left, Nat.mod_mod]

theorem digit_setDigit_of_ne (h : j ≠ i) : digit (setDigit w i v) j = digit w j := by
  rcases Nat.lt_or_gt_of_ne h with h | h
  · -- the digits below come from the remainder
    have hdvd : 256 ^ j * 256 ∣ 256 ^ i := pow_succ 256 j ▸ Nat.pow_dvd_pow 256 h
    obtain ⟨k, hk⟩ := hdvd
    have hmod : setDigit w i v % (256 ^ j * 256) = w % (256 ^ j * 256) := by
      rw [setDigit_eq]
      nth_rewrite 2 [hk]
      rw [Nat.mul_assoc, Nat.add_mul_mod_self_left, Nat.mod_mod_of_dvd _ ⟨k, hk⟩]
    rw [digit, digit, ← Nat.mod_mul_right_div_self, ← Nat.mod_mul_right_div_self, hmod]
  · -- and those above from the quotient
    obtain ⟨k, rfl⟩ : ∃ k, j = i + 1 + k := ⟨j - (i + 1), by omega⟩
    have hpos : 0 < 256 ^ i := Nat.pow_pos (by decide)
    have hdiv : setDigit w i v / 256 ^ (i + 1) = w / 256 ^ (i + 1) := by
      rw [setDigit_eq, pow_succ, ← Nat.div_div_eq_div_mul, Nat.add_mul_div_left _ _ hpos,
        Nat.div_eq_of_lt (Nat.mod_lt _ hpos), Nat.zero_add,
        Nat.add_mul_div_left _ _ (by decide : 0 < 256),
        Nat.div_eq_of_lt (Nat.mod_lt v (by decide)), Nat.zero_add]
    rw [digit, digit, pow_add, ← Nat.div_div_eq_div_mul, ← Nat.div_div_eq_div_mul, hdiv]

theorem byte_mod : byte mem a % 256 = byte mem a := Nat.mod_mod ..

theorem byte_setByte_self : byte (setByte mem a v) a = v % 256 := by
  rw [byte, setByte, Function.update_self, digit_setDigit_self]

theorem byte_setByte_of_ne (h : b ≠ a) : byte (setByte mem a v) b = byte mem b := by
  rw [byte, byte, setByte]
  by_cases hw : b / 8 * 8 = a / 8 * 8
  · rw [hw, Function.update_self, digit_setDigit_of_ne (by omega)]
  · rw [Function.update_of_ne hw]

theorem setByte_of_ne (h : w ≠ a / 8 * 8) : setByte mem a v w = mem w :=
  Function.update_of_ne h ..

theorem byte_congr (h : mem' (a / 8 * 8) = mem (a / 8 * 8)) : byte mem' a = byte mem a := by
  rw [byte, byte, h]

end WordStore
