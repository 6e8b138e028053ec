import Mathlib.Data.Nat.Bitwise
import Mathlib.Tactic.Common
import Mathlib.Tactic.Ring

/-!
Unsigned machine words as naturals below a power of two, and the few bit facts
that the models use: flipping one bit adds or takes its value.
-/
namespace Kenux.Words

def add64 (a b : Nat) : Nat := (a + b) % 2^64
def sub64 (a b : Nat) : Nat := (a + (2^64 - b % 2^64)) % 2^64
def sub32 (a b : Nat) : Nat := (a + 2 ^ 32 - b) % 2 ^ 32

variable {a b x k : Nat}

theorem add64_of_lt (fits : a + b < 2^64) : add64 a b = a + b := Nat.mod_eq_of_lt fits

theorem sub64_of_le (le : b ≤ a) (fits : a < 2^64) : sub64 a b = a - b := by
  unfold sub64
  omega

/-- A mask of `width` bits from bit `low` on keeps those bits and no others. -/
theorem testBit_field (x low width i : Nat) :
    (x &&& (2^width - 1) * 2^low).testBit i = (x.testBit i && decide (low ≤ i ∧ i < low + width)) := by
  rw [Nat.testBit_and,Nat.testBit_mul_two_pow,Nat.testBit_two_pow_sub_one]
  by_cases inside : low ≤ i
  · simp only [inside,decide_true,Bool.true_and,true_and]
    congr 2
    exact propext ⟨by omega,by omega⟩
  · simp [inside]

theorem and_field (x low width : Nat) : x &&& (2^width - 1) * 2^low = x / 2^low % 2^width * 2^low := by
  apply Nat.eq_of_testBit_eq
  intro i
  rw [testBit_field,Nat.testBit_mul_two_pow,Nat.testBit_mod_two_pow,Nat.testBit_div_two_pow]
  by_cases inside : low ≤ i
  · rw [show i - low + low = i by omega]
    simp only [inside,decide_true,Bool.true_and,true_and]
    rw [Bool.and_comm]
    congr 2
    exact propext ⟨by omega,by omega⟩
  · simp [inside]

theorem xor_of_clear (clear : x.testBit k = false) : x ^^^ 2^k = x + 2^k := by
  induction k generalizing x with
  | zero =>
    have even : x % 2 = 0 := by simpa using clear
    have half : (x ^^^ 1) / 2 = x / 2 := by simp [Nat.xor_div_two]
    have last : (x ^^^ 1) % 2 = (x + 1) % 2 := Nat.xor_mod_two_eq ..
    rw [Nat.pow_zero]
    omega
  | succ k ih =>
    rw [Nat.testBit_succ] at clear
    have half : (x ^^^ 2^(k+1)) / 2 = x / 2 + 2^k := by
      rw [Nat.xor_div_two,Nat.pow_succ,Nat.mul_div_cancel _ Nat.two_pos]
      exact ih clear
    have last : (x ^^^ 2^(k+1)) % 2 = (x + 2^(k+1)) % 2 := Nat.xor_mod_two_eq ..
    omega

theorem xor_of_set (set : x.testBit k = true) : (x ^^^ 2^k) + 2^k = x := by
  have clear : (x ^^^ 2^k).testBit k = false := by
    simp [set]
  rw [← xor_of_clear clear,Nat.xor_assoc,Nat.xor_self,Nat.xor_zero]

end Kenux.Words
