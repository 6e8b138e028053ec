import Mathlib.Algebra.Group.Nat.Defs
import Mathlib.Data.List.Basic
import Mathlib.Tactic.Common

/-!
The Internet checksum of `net.c`: the words of a message are added up in 32 bits, the
carries are added to the lower half, and the complement is returned. Both 0 and 0xffff stand
for zero; a message with its checksum in the field always adds up to the second one, since
the sum of a message and its checksum is never 0 (`ip_checksum_verifies`).
-/
namespace Kenux.Checksum

/-- The loop over the words, and the last byte of an odd length; `none` when `sum` wraps. -/
def sumWords : List UInt8 → Nat → Option Nat
  | low :: high :: rest, sum =>
    let sum := sum + (low.toNat + 256 * high.toNat)
    if sum < 2^32 then sumWords rest sum else none
  | [last], sum => if sum + last.toNat < 2^32 then some (sum + last.toNat) else none
  | [], sum => some sum

/-- `while (sum >> 16) sum = (sum & 0xFFFF) + (sum >> 16)`. -/
def foldCarries (sum : Nat) : Nat :=
  if sum / 2^16 = 0 then sum else foldCarries (sum % 2^16 + sum / 2^16)
  termination_by sum
  decreasing_by omega

def ipChecksum (data : List UInt8) : Option Nat :=
  (sumWords data 0).map (fun sum => (2^32 - 1 - foldCarries sum) % 2^16)

/-- A message with the number `c` in the checksum field behind `left`. -/
def message (left : List UInt8) (c : Nat) (right : List UInt8) : List UInt8 :=
  left ++ UInt8.ofNat c :: UInt8.ofNat (c / 256) :: right

def total : List UInt8 → Nat
  | low :: high :: rest => low.toNat + 256 * high.toNat + total rest
  | [last] => last.toNat
  | [] => 0

theorem sumWords_eq (data : List UInt8) (sum : Nat) (fits : sum + total data < 2^32) :
    sumWords data sum = some (sum + total data) := by
  fun_induction sumWords data sum with
  | case1 low high rest sum next small ih =>
    rw [total] at fits
    rw [ih (by omega),total,← Nat.add_assoc]
  | case2 low high rest sum next large =>
    rw [total] at fits
    omega
  | case3 last sum small => rw [total]
  | case4 last sum large => exact absurd fits large
  | case5 sum => rfl

private theorem total_le (data : List UInt8) : total data ≤ 2^15 * (data.length + 1) := by
  fun_induction total data with
  | case1 low high rest ih =>
    have := low.toNat_lt
    have := high.toNat_lt
    simp only [List.length_cons]
    omega
  | case2 last =>
    have := last.toNat_lt
    omega
  | case3 => exact Nat.zero_le _

theorem total_message {left : List UInt8} (even : left.length % 2 = 0) {c : Nat} (small : c < 2^16) (right : List UInt8) :
    total (message left c right) = total left + c + total right := by
  rw [message]
  fun_induction total left with
  | case1 low high rest ih =>
    rw [List.cons_append,List.cons_append,total,ih (by simp only [List.length_cons] at even; omega)]
    omega
  | case2 last => simp at even
  | case3 =>
    rw [List.nil_append,total,UInt8.toNat_ofNat',UInt8.toNat_ofNat']
    omega

theorem foldCarries_spec (sum : Nat) :
    foldCarries sum < 2^16 ∧ foldCarries sum % 65535 = sum % 65535 ∧ (0 < foldCarries sum ↔ 0 < sum) := by
  fun_induction foldCarries sum with
  | case1 sum small => exact ⟨by omega,rfl,Iff.rfl⟩
  | case2 sum large ih =>
    obtain ⟨low,same,positive⟩ := ih
    exact ⟨low,by omega,by omega⟩

/-- A message of at most 65535 bytes whose checksum field, at an even offset, is zero: no
    addition wraps, and with the checksum stored in the field the checksum is 0. -/
theorem ip_checksum_verifies (left right : List UInt8) (even : left.length % 2 = 0)
    (short : (message left 0 right).length ≤ 65535) :
    ∃ c < 2^16, ipChecksum (message left 0 right) = some c ∧ ipChecksum (message left c right) = some 0 := by
  have sums : ∀ c < 2^16, ipChecksum (message left c right) =
      some ((2^32 - 1 - foldCarries (total left + c + total right)) % 2^16) := by
    intro c small
    have bound := total_le (message left c right)
    have length : (message left c right).length = (message left 0 right).length := by simp [message]
    rw [total_message even small,length] at bound
    rw [ipChecksum,sumWords_eq _ 0 (by rw [total_message even small]; omega),total_message even small]
    simp
  obtain ⟨low,same,positive⟩ := foldCarries_spec (total left + 0 + total right)
  refine ⟨_,Nat.mod_lt _ (by decide),sums 0 (by decide),?_⟩
  rw [sums _ (Nat.mod_lt _ (by decide))]
  generalize foldCarries (total left + 0 + total right) = folded at low same positive ⊢
  -- the new sum is a multiple of 0xffff and not 0, so it folds to 0xffff
  obtain ⟨low',same',positive'⟩ := foldCarries_spec (total left + (2^32 - 1 - folded) % 2^16 + total right)
  congr 1
  omega

theorem ip_checksum_verifies_odd :
    ∃ c < 2^16, ipChecksum (message [0,0] 0 [0x12,0x34,0,1,7]) = some c ∧
      ipChecksum (message [0,0] c [0x12,0x34,0,1,7]) = some 0 :=
  ip_checksum_verifies [0,0] [0x12,0x34,0,1,7] rfl (by decide)

theorem ipChecksum_eq_iff {data data' : List UInt8} (short : data.length ≤ 65535) (short' : data'.length ≤ 65535) :
    ipChecksum data = ipChecksum data' ↔ total data % 65535 = total data' % 65535 ∧ (0 < total data ↔ 0 < total data') := by
  have bound := total_le data
  have bound' := total_le data'
  obtain ⟨low,same,positive⟩ := foldCarries_spec (total data)
  obtain ⟨low',same',positive'⟩ := foldCarries_spec (total data')
  simp only [ipChecksum,sumWords_eq data 0 (by omega),sumWords_eq data' 0 (by omega),Nat.zero_add,Option.map_some,
    Option.some.injEq]
  omega

/-- Another word in the place of one changes the checksum of a message, unless 0 and 0xffff stand for each other in a
    message that has other words than 0. -/
theorem ip_checksum_detects (left right : List UInt8) (even : left.length % 2 = 0)
    (short : (message left 0 right).length ≤ 65535) (a b : Nat) (small : a < 2^16) (small' : b < 2^16) :
    ipChecksum (message left a right) = ipChecksum (message left b right) ↔
      a = b ∨ a % 65535 = b % 65535 ∧ 0 < total left + total right := by
  have lengths : ∀ c, (message left c right).length ≤ 65535 := fun c => by simpa [message] using short
  rw [ipChecksum_eq_iff (lengths a) (lengths b),total_message even small,total_message even small']
  omega

theorem ip_checksum_detects_swap : ipChecksum (message [8,0] 0x1234 [0,1]) ≠ ipChecksum (message [8,0] 0x3412 [0,1]) := by
  rw [Ne,ip_checksum_detects [8,0] [0,1] rfl (by decide) 0x1234 0x3412 (by decide) (by decide)]
  decide

end Kenux.Checksum
