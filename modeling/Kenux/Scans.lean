import Mathlib.Data.List.Basic
import Mathlib.Data.List.Induction
import Mathlib.Data.List.Nodup

/-!
Scans of a list. `heavier` is one round of a loop that keeps the best
item so far and its weight, and replaces it by an accepted item of larger weight;
the loop begins with no item and weight zero. `scan_spec` says what it ends with:
the first of the heaviest accepted items, or no item if none has a weight.
`countP_change` says how a count changes with the test of one item.
-/
namespace Kenux.Scans

section
variable {α : Type*} {accepts : α → Prop} {weight : α → Nat} {xs : List α} {best : Option α × Nat}

def heavier (accepts : α → Prop) [DecidablePred accepts] (weight : α → Nat) (best : Option α × Nat) (a : α) : Option α × Nat :=
  if accepts a ∧ weight a > best.2 then (some a,weight a) else best

/-- The first of the heaviest accepted items; none if no accepted item has a weight. -/
def IsFirstHeaviest (accepts : α → Prop) (weight : α → Nat) (xs : List α) : Option α × Nat → Prop
  | (none,w) => w = 0 ∧ ∀ a ∈ xs, accepts a → weight a = 0
  | (some b,w) => w = weight b ∧ accepts b ∧ 0 < weight b ∧ ∃ before after, xs = before ++ b :: after ∧
      (∀ a ∈ before, accepts a → weight a < weight b) ∧ ∀ a ∈ after, accepts a → weight a ≤ weight b

theorem IsFirstHeaviest.le (first : IsFirstHeaviest accepts weight xs best) :
    ∀ a ∈ xs, accepts a → weight a ≤ best.2 := by
  intro a member accepted
  obtain ⟨item,w⟩ := best
  cases item with
  | none => exact Nat.le_of_eq ((first.2 a member accepted).trans first.1.symm)
  | some b =>
    obtain ⟨same,_,_,before,after,rfl,less,most⟩ := first
    rw [same]
    rcases List.mem_append.mp member with early | late
    · exact Nat.le_of_lt (less a early accepted)
    · rcases List.mem_cons.mp late with here | later
      · exact Nat.le_of_eq (congrArg weight here)
      · exact most a later accepted

theorem IsFirstHeaviest.heavier [DecidablePred accepts] (first : IsFirstHeaviest accepts weight xs best) (a : α) :
    IsFirstHeaviest accepts weight (xs ++ [a]) (heavier accepts weight best a) := by
  rw [Scans.heavier]
  split
  case isTrue better =>
    refine ⟨rfl,better.1,by omega,xs,[],rfl,?_,nofun⟩
    intro other member accepted
    exact Nat.lt_of_le_of_lt (first.le other member accepted) better.2
  case isFalse worse =>
    obtain ⟨item,w⟩ := best
    cases item with
    | none =>
      refine ⟨first.1,fun other member accepted => ?_⟩
      rcases List.mem_append.mp member with old | new
      · exact first.2 other old accepted
      · rw [List.mem_singleton.mp new] at accepted ⊢
        have bound : ¬ weight a > w := fun more => worse ⟨accepted,more⟩
        have zero := first.1
        omega
    | some b =>
      obtain ⟨same,accepted,positive,before,after,rfl,less,most⟩ := first
      refine ⟨same,accepted,positive,before,after ++ [a],by simp,less,fun other member taken => ?_⟩
      rcases List.mem_append.mp member with old | new
      · exact most other old taken
      · rw [List.mem_singleton.mp new] at taken ⊢
        have bound : ¬ weight a > w := fun more => worse ⟨taken,more⟩
        omega

theorem scan_spec (accepts : α → Prop) [DecidablePred accepts] (weight : α → Nat) (xs : List α) : IsFirstHeaviest accepts weight xs (xs.foldl (heavier accepts weight) (none,0)) := by
  induction xs using List.reverseRecOn with
  | nil => exact ⟨rfl,nofun⟩
  | append_singleton xs a ih =>
    rw [List.foldl_append]
    exact ih.heavier a

/-- The members that satisfy a test after the test changes for one of them. -/
theorem countP_change {a : α} {p q : α → Bool} (distinct : xs.Nodup) (member : a ∈ xs)
    (others : ∀ b, b ≠ a → q b = p b) :
    xs.countP q + (if p a then 1 else 0) = xs.countP p + (if q a then 1 else 0) := by
  obtain ⟨left,right,rfl⟩ := List.append_of_mem member
  have absent := (List.nodup_cons.mp (List.nodup_middle.mp distinct)).1
  have same : ∀ part : List α, a ∉ part → part.countP q = part.countP p := by
    intro part away
    refine List.countP_congr (fun b here => ?_)
    rw [others b (by rintro rfl; exact away here)]
  rw [List.countP_append,List.countP_append,List.countP_cons,List.countP_cons,
    same left (fun here => absent (List.mem_append_left _ here)),
    same right (fun here => absent (List.mem_append_right _ here))]
  omega

end
end Kenux.Scans
