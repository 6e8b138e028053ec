import Mathlib.Algebra.Group.Nat.Defs
import Mathlib.Logic.Function.Basic
import Mathlib.Tactic.Common

/-!
Numbers in a memory of bytes, the lowest byte first. `load` reads a number of so
many bytes and `store` writes one; what was stored is loaded again
(`load_store`), and a number that does not overlap it is not changed
(`load_store_of_apart`). A `Field` is such a number in a record.
-/
namespace Kenux.Bytes

/-- The number in the `n` bytes from `a` on. -/
def load (m : Nat → UInt8) (a : Nat) : Nat → Nat
  | 0 => 0
  | n+1 => (m a).toNat + 256 * load m (a+1) n

/-- The memory with the low `n` bytes of `v` written from `a` on. -/
def store (m : Nat → UInt8) (a v : Nat) : Nat → Nat → UInt8
  | 0 => m
  | n+1 => store (Function.update m a (UInt8.ofNat v)) (a+1) (v / 256) n

section
variable {m m' : Nat → UInt8} {a b v n k i : Nat}

theorem load_congr (same : ∀ i, a ≤ i → i < a + n → m' i = m i) : load m' a n = load m a n := by
  induction n generalizing a with
  | zero => rfl
  | succ n ih =>
    rw [load,load,same a (Nat.le_refl a) (by omega),ih (fun i low high => same i (by omega) (by omega))]

theorem load_lt : load m a n < 256 ^ n := by
  induction n generalizing a with
  | zero => simp [load]
  | succ n ih =>
    have rest : load m (a+1) n < 256 ^ n := ih
    have byte := (m a).toNat_lt
    rw [load]
    omega

theorem store_of_apart (apart : i < a ∨ a + n ≤ i) : store m a v n i = m i := by
  induction n generalizing m a v with
  | zero => rfl
  | succ n ih =>
    rw [store,ih (by omega),Function.update_of_ne (by omega)]

theorem load_store_of_apart (apart : b + k ≤ a ∨ a + n ≤ b) : load (store m a v n) b k = load m b k := by
  apply load_congr
  intro i low high
  exact store_of_apart (by omega)

theorem load_store : load (store m a v n) a n = v % 256 ^ n := by
  induction n generalizing m a v with
  | zero => simp [load,Nat.mod_one]
  | succ n ih =>
    have byte : store (Function.update m a (UInt8.ofNat v)) (a+1) (v / 256) n a = UInt8.ofNat v := by
      rw [store_of_apart (.inl (Nat.lt_succ_self a)),Function.update_self]
    have split : v % 256 ^ (n+1) = v % 256 + 256 * (v / 256 % 256 ^ n) := by
      rw [Nat.pow_succ,Nat.mul_comm (256 ^ n) 256,Nat.mod_mul]
    rw [load,store,byte,ih,UInt8.toNat_ofNat',split]

end

/-- A field of a record: where it starts, and its number of bytes. -/
structure Field where
  offset : Nat
  size : Nat

namespace Field

def get (f : Field) (m : Nat → UInt8) (a : Nat) : Nat := load m (a + f.offset) f.size

def set (f : Field) (m : Nat → UInt8) (a v : Nat) : Nat → UInt8 := store m (a + f.offset) v f.size

variable {f g : Field} {m : Nat → UInt8} {a b v n : Nat}

theorem get_set_self : f.get (f.set m a v) a = v % 256 ^ f.size := load_store

theorem get_set_of_apart (apart : b + (g.offset + g.size) ≤ a + f.offset ∨ a + (f.offset + f.size) ≤ b + g.offset) :
    g.get (f.set m a v) b = g.get m b :=
  load_store_of_apart (by omega)

theorem load_set_of_apart (apart : b + n ≤ a + f.offset ∨ a + (f.offset + f.size) ≤ b) :
    load (f.set m a v) b n = load m b n :=
  load_store_of_apart (by omega)

theorem get_store_of_apart (apart : b + (g.offset + g.size) ≤ a ∨ a + n ≤ b + g.offset) :
    g.get (store m a v n) b = g.get m b :=
  load_store_of_apart (by omega)

end Field
end Kenux.Bytes
