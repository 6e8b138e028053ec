import Mathlib.Data.Nat.ModEq
import Mathlib.Logic.Function.Basic

/-!
Ring buffers with running indices: item number `i` lies at index `i % size`, and
the indices of head and tail only grow. `fill` writes items after the tail one by
one; a ring that holds a list from its head holds the longer list afterwards
(`Holds.fill`) as long as the list is not longer than the ring. Copies that are made in
two parts, up to the end of the ring and from its beginning, are such writes and reads.
-/
namespace Kenux.Rings

section
variable {α : Type*} {size head tail m n : Nat} {ring : Nat → α} {xs : List α}

/-- The ring after `n` items were written at the tail, in order. -/
def fill (size tail : Nat) (item : Nat → α) : Nat → (Nat → α) → Nat → α
  | 0, ring => ring
  | n+1, ring => Function.update (fill size tail item n ring) ((tail + n) % size) (item n)

/-- The items from the head on are those of the list. -/
def Holds (size : Nat) (ring : Nat → α) (head : Nat) (xs : List α) : Prop :=
  ∀ i x, xs[i]? = some x → ring ((head + i) % size) = x

/-- Different numbers within one round have different places. -/
theorem place_ne {i j : Nat} (first : i < size) (second : j < size) (different : i ≠ j) :
    (head + i) % size ≠ (head + j) % size := by
  intro same
  have equal : i ≡ j [MOD size] := Nat.ModEq.add_left_cancel' head same
  exact different (equal.eq_of_lt_of_lt first second)

section
variable (holds : Holds size ring head xs)
include holds

theorem Holds.fill (item : Nat → α) (n : Nat) (fits : xs.length + n ≤ size) :
    Holds size (fill size (head + xs.length) item n ring) head (xs ++ (List.range n).map item) := by
  induction n with
  | zero => simpa [Rings.fill] using holds
  | succ n ih =>
    intro i x found
    rw [List.range_succ,List.map_append,← List.append_assoc] at found
    rw [Rings.fill,Nat.add_assoc]
    -- the item written last has the last place of the list
    by_cases last : i = xs.length + n
    · subst last
      simp at found
      rw [Function.update_self,found]
    · have short : i < (xs ++ (List.range n).map item).length := by
        have inside := (List.getElem?_eq_some_iff.mp found).1
        simp only [List.length_append,List.length_map,List.length_range,List.length_cons,List.length_nil] at inside ⊢
        omega
      rw [List.getElem?_append_left short] at found
      rw [List.length_append,List.length_map,List.length_range] at short
      rw [Function.update_of_ne (place_ne (by omega) (by omega) last)]
      exact ih (by omega) i x found

theorem Holds.read (fits : n ≤ xs.length) :
    (List.range n).map (fun i => ring ((head + i) % size)) = xs.take n := by
  apply List.ext_getElem?
  intro i
  by_cases less : i < n
  · rw [List.getElem?_take_of_lt less,List.getElem?_map,List.getElem?_range less]
    have found : xs[i]? = some (xs[i]) := List.getElem?_eq_getElem (by omega)
    rw [found,Option.map_some,holds i _ found]
  · rw [List.getElem?_eq_none (by simpa using less),List.getElem?_eq_none]
    rw [List.length_take]
    omega

theorem Holds.drop (n : Nat) : Holds size ring (head + n) (xs.drop n) := by
  intro i x found
  rw [List.getElem?_drop] at found
  rw [Nat.add_assoc]
  exact holds _ x found

theorem Holds.outside {j : Nat} (behind : xs.length ≤ j) (inside : j < size) (y : α) :
    Holds size (Function.update ring ((head + j) % size) y) head xs := by
  intro i x found
  have short := (List.getElem?_eq_some_iff.mp found).1
  rw [Function.update_of_ne (place_ne (by omega) inside (by omega))]
  exact holds i x found

/-- The head counts only modulo the size. -/
theorem Holds.shift {head' : Nat} (same : head' % size = head % size) : Holds size ring head' xs := by
  intro i x found
  rw [Nat.add_mod,same,← Nat.add_mod]
  exact holds i x found

end

/-- So does the tail. -/
theorem fill_shift {tail' : Nat} (same : tail' % size = tail % size) (item : Nat → α) : ∀ n, fill size tail' item n ring = fill size tail item n ring
  | 0 => rfl
  | n+1 => by rw [fill,fill,fill_shift same item n,Nat.add_mod,same,← Nat.add_mod]

theorem fill_add (item : Nat → α) (m : Nat) : ∀ n,
    fill size tail item (m + n) ring = fill size (tail + m) (fun i => item (m + i)) n (fill size tail item m ring)
  | 0 => rfl
  | n+1 => by rw [← Nat.add_assoc,fill,fill,fill_add item m n,Nat.add_assoc]

theorem fill_flat (item : Nat → α) : ∀ n, tail + n ≤ size →
    fill size tail item n ring = fun i => if tail ≤ i ∧ i < tail + n then item (i - tail) else ring i
  | 0, _ => by
    funext i
    rw [fill,if_neg (by omega)]
  | n+1, inside => by
    funext i
    rw [fill,fill_flat item n (by omega),Nat.mod_eq_of_lt (by omega)]
    by_cases last : i = tail + n
    · subst last
      rw [Function.update_self,if_pos (by omega),Nat.add_sub_cancel_left]
    · rw [Function.update_of_ne last]
      exact if_congr (by omega) rfl rfl

theorem read_flat (first : head + n ≤ size) :
    (List.range n).map (fun i => ring (head + i)) = (List.range n).map (fun i => ring ((head + i) % size)) := by
  refine List.map_congr_left (fun i there => ?_)
  rw [Nat.mod_eq_of_lt (by have := List.mem_range.mp there; omega)]

/-! ### Copies in two parts -/

def copyOut (data : Nat → α) (pos n : Nat) : List α := (List.range n).map (fun i => data (pos + i))

def copyIn (data : Nat → α) (pos : Nat) (src : Nat → α) (n : Nat) : Nat → α :=
  fun i => if pos ≤ i ∧ i < pos + n then src (i - pos) else data i

section
variable {pos : Nat} (data : Nat → α) (inside : pos ≤ size) (fits : n ≤ size) (far : size - pos ≤ n)
include inside fits far

/-- A copy up to the end of the ring and one from its beginning take the items from the position on. -/
theorem copyOut_wrap : copyOut data pos (size - pos) ++ copyOut data 0 (n - (size - pos)) =
    (List.range n).map (fun i => data ((pos + i) % size)) := by
  obtain ⟨m,rfl⟩ : ∃ m, n = (size - pos) + m := ⟨n - (size - pos),by omega⟩
  rw [Nat.add_sub_cancel_left,List.range_add,List.map_append,List.map_map]
  refine congrArg₂ _ (read_flat (by omega)) ?_
  rw [copyOut,read_flat (show 0 + m ≤ size by omega)]
  refine List.map_congr_left (fun i _ => ?_)
  rw [Function.comp_apply,← Nat.add_assoc,Nat.add_sub_of_le inside,Nat.add_mod_left,Nat.zero_add]

theorem copyIn_wrap (src : Nat → α) :
    copyIn (copyIn data pos src (size - pos)) 0 (fun i => src (size - pos + i)) (n - (size - pos)) = fill size pos src n data := by
  obtain ⟨m,rfl⟩ : ∃ m, n = (size - pos) + m := ⟨n - (size - pos),by omega⟩
  rw [Nat.add_sub_cancel_left,fill_add,Nat.add_sub_of_le inside,fill_shift (show size % size = 0 % size by simp),
    fill_flat _ m (by omega),fill_flat _ (size - pos) (by omega)]
  rfl

end
end
end Kenux.Rings
