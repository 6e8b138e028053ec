import Mathlib.Data.Finset.Card
import Mathlib.Data.Finset.Range
import Mathlib.Logic.Function.Basic

/-!
Bitmaps: bits packed into bytes, bit `i` in byte `i / 8`, from the low bit of the byte up.
`test_set` and `test_clear` say what setting and clearing a bit do to every bit, and
`members` is the set of the bits that are set below a limit, which the two change by one.
-/
namespace Kenux.Bitmaps

def test (b : Nat → BitVec 8) (i : Nat) : Bool := (b (i >>> 3) >>> (i &&& 7)) &&& 1#8 = 1#8

def set (b : Nat → BitVec 8) (i : Nat) : Nat → BitVec 8 :=
  Function.update b (i >>> 3) (b (i >>> 3) ||| 1#8 <<< (i &&& 7))

def clear (b : Nat → BitVec 8) (i : Nat) : Nat → BitVec 8 :=
  Function.update b (i >>> 3) (b (i >>> 3) &&& ~~~(1#8 <<< (i &&& 7)))

section
variable {b : Nat → BitVec 8} {i j limit : Nat}

theorem byte_eq (i : Nat) : i >>> 3 = i / 8 := Nat.shiftRight_eq_div_pow i 3

theorem bit_eq (i : Nat) : i &&& 7 = i % 8 := Nat.and_two_pow_sub_one_eq_mod i 3

theorem test_eq (b : Nat → BitVec 8) (i : Nat) : test b i = (b (i / 8)).getLsbD (i % 8) := by
  rw [test,byte_eq,bit_eq,BitVec.and_one_eq_setWidth_ofBool_getLsbD,BitVec.getLsbD_ushiftRight]
  cases (b (i / 8)).getLsbD (i % 8) <;> rfl

theorem getLsbD_mask (k : Nat) (m : Nat) (low : m < 8) : (1#8 <<< k).getLsbD m = decide (m = k) := by
  by_cases same : m = k
  · simp [same,show k < 8 by omega]
  · by_cases less : m < k
    · simp [same,less]
    · simp [same,show m - k ≠ 0 by omega]

theorem same_bit (byte : j / 8 = i / 8) : decide (j % 8 = i % 8) = decide (j = i) :=
  decide_eq_decide.mpr ⟨fun bit => by omega,fun same => by rw [same]⟩

theorem test_set : test (set b i) j = (decide (j = i) || test b j) := by
  rw [test_eq,test_eq,set,byte_eq,bit_eq]
  by_cases byte : j / 8 = i / 8
  · rw [byte,Function.update_self,BitVec.getLsbD_or,getLsbD_mask _ _ (Nat.mod_lt _ (by decide)),Bool.or_comm]
    rw [same_bit byte]
  · rw [Function.update_of_ne byte,decide_eq_false (fun same => byte (by rw [same])),Bool.false_or]

theorem test_clear : test (clear b i) j = (!decide (j = i) && test b j) := by
  rw [test_eq,test_eq,clear,byte_eq,bit_eq]
  by_cases byte : j / 8 = i / 8
  · have low : j % 8 < 8 := Nat.mod_lt _ (by decide)
    rw [byte,Function.update_self,BitVec.getLsbD_and,BitVec.getLsbD_not,getLsbD_mask _ _ low,decide_eq_true low,
      Bool.true_and,Bool.and_comm]
    rw [same_bit byte]
  · rw [Function.update_of_ne byte,decide_eq_false (fun same => byte (by rw [same])),Bool.not_false,Bool.true_and]

/-- The bits below the limit that are set. -/
def members (b : Nat → BitVec 8) (limit : Nat) : Finset Nat := (Finset.range limit).filter (fun i => test b i)

theorem mem_members : i ∈ members b limit ↔ i < limit ∧ test b i = true := by
  rw [members,Finset.mem_filter,Finset.mem_range]

theorem card_members_set (low : i < limit) (free : test b i = false) :
    (members (set b i) limit).card = (members b limit).card + 1 := by
  have more : members (set b i) limit = insert i (members b limit) := by
    ext j
    rw [Finset.mem_insert,mem_members,mem_members,test_set]
    by_cases same : j = i <;> simp [same,low]
  rw [more]
  simp [mem_members,free]

theorem card_members_clear (low : i < limit) (there : test b i = true) :
    (members (clear b i) limit).card + 1 = (members b limit).card := by
  have less : members (clear b i) limit = (members b limit).erase i := by
    ext j
    rw [Finset.mem_erase,mem_members,mem_members,test_clear]
    by_cases same : j = i <;> simp [same]
  rw [less]
  exact Finset.card_erase_add_one (mem_members.mpr ⟨low,there⟩)

end
end Kenux.Bitmaps
