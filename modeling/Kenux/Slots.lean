import Mathlib.Algebra.BigOperators.Group.Finset.Basic
import Mathlib.Data.Fintype.Card
import Kenux.Blocks

/-!
Tables with a fixed number of slots, each of which may hold a span of addresses.
The spans of a table are pairwise apart (`Separate`), and `used` counts the slots
that hold one. Emptying a slot, shrinking its span and putting a new span into a
slot keep the spans apart, and change the count by one or not at all. `Cut` is
what taking a range of addresses out of one span can do to the table; each cut
leaves fewer slots that meet the range (`Cut.card_hits_lt`).
-/
namespace Kenux.Slots
open Kenux.Blocks Kenux.Runs
open Function (update update_self update_of_ne update_idem)

/-- The `size` addresses from `first` on. -/
structure Span where
  first : Nat
  size : Nat
  deriving DecidableEq, Repr

def Span.Apart (s t : Span) : Prop := Blocks.Apart s.first s.size t.first t.size

instance (s t : Span) : Decidable (s.Apart t) := inferInstanceAs (Decidable (Blocks.Apart ..))

variable {s t u : Span}

theorem Span.Apart.symm (apart : s.Apart t) : t.Apart s := Or.symm apart

theorem Span.Apart.mono (apart : s.Apart u) (low : s.first ≤ t.first)
    (high : t.first + t.size ≤ s.first + s.size) : t.Apart u := by
  unfold Span.Apart Blocks.Apart at *
  omega

section
variable {ι : Type*} {table : ι → Option Span} {i : ι} {s t : Span}

/-- The spans of different slots do not meet. -/
def Separate (table : ι → Option Span) : Prop :=
  ∀ i j s t, i ≠ j → table i = some s → table j = some t → s.Apart t

variable [DecidableEq ι] {α : Type*} {j : ι}

theorem of_put {table : ι → Option α} {a b : α} (there : update table i (some a) j = some b) :
    (j = i ∧ b = a) ∨ (j ≠ i ∧ table j = some b) := by
  revert there
  exact update_cases (fun there => .inl ⟨rfl,(Option.some.inj there).symm⟩) (fun _ other there => .inr ⟨other,there⟩) j

theorem of_clear {table : ι → Option α} {b : α} (there : update table i none j = some b) :
    j ≠ i ∧ table j = some b := by
  revert there
  exact update_cases nofun (fun _ other there => ⟨other,there⟩) j

section
variable (separate : Separate table)
include separate

theorem Separate.put (apart : ∀ j s, j ≠ i → table j = some s → s.Apart t) :
    Separate (update table i (some t)) := by
  intro j k u v different atJ atK
  rcases of_put atJ with ⟨rfl,rfl⟩ | ⟨first,oldJ⟩
  · rw [update_of_ne (Ne.symm different)] at atK
    exact (apart k v (Ne.symm different) atK).symm
  · rcases of_put atK with ⟨rfl,rfl⟩ | ⟨_,oldK⟩
    · exact apart j u first oldJ
    · exact separate j k u v different oldJ oldK

theorem Separate.clear : Separate (update table i none) := by
  intro j k u v different atJ atK
  exact separate j k u v different (of_clear atJ).2 (of_clear atK).2

theorem Separate.shrink (here : table i = some s) (low : s.first ≤ t.first)
    (high : t.first + t.size ≤ s.first + s.size) : Separate (update table i (some t)) := by
  apply separate.put
  intro j u other there
  exact ((separate i j s u (Ne.symm other) here there).mono low high).symm

/-- A span gives way to two that lie inside it, one of them in a free slot. -/
theorem Separate.split (here : table i = some s)
    (free : table j = none) (low : s.first ≤ t.first) (between : t.first + t.size ≤ u.first)
    (high : u.first + u.size ≤ s.first + s.size) :
    Separate (update (update table j (some u)) i (some t)) := by
  have different : j ≠ i := ne_of_apply_ne table (by simp [here,free])
  rw [Function.update_comm different]
  apply (separate.shrink here low (by omega)).put
  intro k v other there
  rcases of_put there with ⟨rfl,rfl⟩ | ⟨same,old⟩
  · exact .inl between
  · exact ((separate i k s v (Ne.symm same) here old).mono (by omega) high).symm

end

/-- The table after the addresses from `low` up to `high` are taken out of the span in
    slot `i`, and the change in the number of spans. Nothing is left of the span, or a
    part of it, or two parts, the upper one in a slot that was free. -/
inductive Cut (low high : Nat) (table : ι → Option Span) (i : ι) : (ι → Option Span) → Int → Prop
  | drop {s : Span} (here : table i = some s) : Cut low high table i (update table i none) (-1)
  | trim {s t : Span} (here : table i = some s) (positive : 0 < t.size) (lower : s.first ≤ t.first)
      (upper : t.first + t.size ≤ s.first + s.size) (outside : t.first + t.size ≤ low ∨ high ≤ t.first) :
      Cut low high table i (update table i (some t)) 0
  | split {s t u : Span} {j : ι} (here : table i = some s) (free : table j = none) (positive : 0 < t.size)
      (positive' : 0 < u.size) (lower : s.first ≤ t.first) (below : t.first + t.size ≤ low) (ordered : low ≤ high)
      (above : high ≤ u.first) (upper : u.first + u.size ≤ s.first + s.size) :
      Cut low high table i (update (update table j (some u)) i (some t)) 1

variable {low high : Nat} {table' : ι → Option Span} {change : Int}

theorem Cut.separate (cut : Cut low high table i table' change) (separate : Separate table) : Separate table' := by
  cases cut with
  | drop here => exact separate.clear
  | trim here positive lower upper outside => exact separate.shrink here lower upper
  | split here free positive positive' lower below ordered above upper =>
    exact separate.split here free lower (by omega) upper

/-- A span of the table after a cut was there before, or is a part of the span that was cut. -/
theorem Cut.origin (cut : Cut low high table i table' change) {k : ι} {v : Span} (there : table' k = some v) :
    (k ≠ i ∧ table k = some v) ∨ (0 < v.size ∧ (v.first + v.size ≤ low ∨ high ≤ v.first) ∧
      ∃ s, table i = some s ∧ s.first ≤ v.first ∧ v.first + v.size ≤ s.first + s.size) := by
  cases cut with
  | drop here => exact .inl (of_clear there)
  | trim here positive lower upper outside =>
    rcases of_put there with ⟨rfl,rfl⟩ | old
    · exact .inr ⟨positive,outside,_,here,lower,upper⟩
    · exact .inl old
  | @split s t u j here free positive positive' lower below ordered above upper =>
    rcases of_put there with ⟨rfl,rfl⟩ | ⟨same,left⟩
    · exact .inr ⟨positive,.inl below,s,here,lower,by omega⟩
    · rcases of_put left with ⟨rfl,rfl⟩ | ⟨_,old⟩
      · exact .inr ⟨positive',.inr above,s,here,by omega,upper⟩
      · exact .inl ⟨same,old⟩

variable [Fintype ι]

/-- The number of slots that hold a span. -/
def used (table : ι → Option Span) : Nat := (Finset.univ.filter (fun i => (table i).isSome)).card

/-- The sum over a table after one place of it changes. -/
theorem sum_change {before after : ι → Nat} (i : ι) (same : ∀ j, j ≠ i → after j = before j) :
    ∑ j, after j + before i = ∑ j, before j + after i := by
  have old := Finset.add_sum_erase Finset.univ before (Finset.mem_univ i)
  have new := Finset.add_sum_erase Finset.univ after (Finset.mem_univ i)
  have others : ∑ j ∈ Finset.univ.erase i, after j = ∑ j ∈ Finset.univ.erase i, before j :=
    Finset.sum_congr rfl (fun j member => same j (Finset.ne_of_mem_erase member))
  omega

/-- The sum of the weights of a table's entries after one of them is replaced. -/
theorem sum_update (entries : ι → α) (weight : α → Nat) (i : ι) (entry : α) :
    ∑ j, weight (update entries i entry j) + weight (entries i) = ∑ j, weight (entries j) + weight entry := by
  have others : ∀ j, j ≠ i → weight (update entries i entry j) = weight (entries j) := by
    intro j other
    rw [update_of_ne other]
  have changed := sum_change i others
  rw [update_self] at changed
  exact changed

theorem used_put (free : table i = none) : used (update table i (some t)) = used table + 1 := by
  have grown : Finset.univ.filter (fun j => (update table i (some t) j).isSome) =
      insert i (Finset.univ.filter (fun j => (table j).isSome)) := by
    ext j
    by_cases here : j = i
    · subst here
      simp
    · simp [here]
  rw [used,grown,Finset.card_insert_of_notMem (by simp [free]),used]

theorem used_clear (here : table i = some s) : used (update table i none) + 1 = used table := by
  have put : used (update (update table i none) i (some s)) = _ :=
    used_put (update_self i none table)
  rw [← put,update_idem,← here,Function.update_eq_self]

theorem used_replace (here : table i = some s) : used (update table i (some t)) = used table := by
  have put : used (update (update table i none) i (some t)) = _ :=
    used_put (update_self i none table)
  rw [update_idem] at put
  have clear := used_clear here
  omega

theorem Cut.used (cut : Cut low high table i table' change) : (used table' : Int) = used table + change := by
  cases cut with
  | drop here =>
    have cleared := used_clear here
    omega
  | trim here positive lower upper outside => rw [used_replace here,Int.add_zero]
  | @split s t u j here free =>
    have different : i ≠ j := ne_of_apply_ne table (by simp [here,free])
    have still : update table j (some u) i = some s := by rw [update_of_ne different,here]
    rw [used_replace still,used_put free]
    rfl

/-- The slots whose spans meet the addresses from `low` up to `high`. -/
def hits (low high : Nat) (table : ι → Option Span) : Finset ι :=
  Finset.univ.filter (fun i => ∃ s, table i = some s ∧ low < s.first + s.size ∧ s.first < high)

theorem Cut.card_hits_lt (cut : Cut low high table i table' change) (hit : i ∈ hits low high table) :
    (hits low high table').card < (hits low high table).card := by
  apply Finset.card_lt_card
  have stays : ∀ k ∈ hits low high table', k ≠ i ∧ k ∈ hits low high table := by
    intro k member
    obtain ⟨v,there,above,below⟩ := (Finset.mem_filter.mp member).2
    rcases cut.origin there with ⟨other,before⟩ | ⟨_,outside,_⟩
    · exact ⟨other,Finset.mem_filter.mpr ⟨Finset.mem_univ k,v,before,above,below⟩⟩
    · omega
  rw [Finset.ssubset_iff_of_subset (fun k member => (stays k member).2)]
  exact ⟨i,hit,fun member => (stays i member).1 rfl⟩

end
end Kenux.Slots
