import Kenux.Links
import Kenux.Runs
import Mathlib.Data.List.Pairwise
import Mathlib.Tactic.Ring

/-!
Ranges of naturals that have no element in common, and blocks whose sizes are
powers of two. A layout keeps a table of free blocks by order and a list of held
blocks inside a region (`Layout`): all of them lie in the region and are apart
from each other. A block that is clear of a layout (`Clear`) can be put in the
free table, be handed out, be split into its halves, and be joined with the free
block beside it.
-/
namespace Kenux.Blocks
open Kenux.Runs
open Kenux.Links (mem_added)
open Function (update)

/-- The ranges of `m` elements from `a` and of `n` elements from `b` do not meet. -/
def Apart (a m b n : Nat) : Prop := a + m ≤ b ∨ b + n ≤ a

instance (a m b n : Nat) : Decidable (Apart a m b n) := inferInstanceAs (Decidable (_ ∨ _))

theorem Apart.symm {a m b n : Nat} (apart : Apart a m b n) : Apart b n a m := Or.symm apart

/-- A block of `2 ^ order` elements. -/
structure Block where
  first : Nat
  order : Nat
  deriving DecidableEq, Repr

variable {c : Block}

namespace Block
variable {b : Block}

def size (b : Block) : Nat := 2^b.order

def Apart (b c : Block) : Prop := Blocks.Apart b.first b.size c.first c.size

instance (b c : Block) : Decidable (Apart b c) := inferInstanceAs (Decidable (Blocks.Apart ..))

theorem size_pos (b : Block) : 0 < b.size := Nat.two_pow_pos _

theorem Apart.symm (apart : Apart b c) : Apart c b := Or.symm apart

theorem Apart.ne (apart : Apart b c) : b.first ≠ c.first := by
  have positive := b.size_pos
  have positive' := c.size_pos
  unfold Apart Blocks.Apart at apart
  omega

theorem Apart.mono {d : Block} (apart : Apart b d) (low : b.first ≤ c.first)
    (high : c.first + c.size ≤ b.first + b.size) : Apart c d := by
  unfold Apart Blocks.Apart at *
  omega

end Block

/-- All blocks lie in the region from `low` to `high`; no two of them meet. -/
structure Layout (low high : Nat) (free : Nat → List Nat) (held : List Block) : Prop where
  freeIn : ∀ k, ∀ p ∈ free k, low ≤ p ∧ p + 2^k ≤ high
  heldIn : ∀ b ∈ held, low ≤ b.first ∧ b.first + b.size ≤ high
  freeDistinct : ∀ k, (free k).Nodup
  freeApart : ∀ j k p q, p ∈ free j → q ∈ free k → (⟨p,j⟩ : Block) ≠ ⟨q,k⟩ → Block.Apart ⟨p,j⟩ ⟨q,k⟩
  heldApart : held.Pairwise Block.Apart
  mixedApart : ∀ b ∈ held, ∀ k, ∀ p ∈ free k, Block.Apart b ⟨p,k⟩

/-- A block of the region that meets no block of the layout. -/
structure Clear (low high : Nat) (free : Nat → List Nat) (held : List Block) (b : Block) : Prop where
  inside : low ≤ b.first ∧ b.first + b.size ≤ high
  free : ∀ k, ∀ p ∈ free k, Block.Apart b ⟨p,k⟩
  held : ∀ c ∈ held, Block.Apart b c

section
variable {low high k p : Nat} {free fewer : Nat → List Nat} {held : List Block} {b : Block}

theorem Layout.ne_of_order (layout : Layout low high free held) {j : Nat} (first : p ∈ free j)
    (second : p ∈ free k) : j = k := by
  by_contra different
  exact (layout.freeApart j k p p first second (by simp [different])).ne rfl

theorem Layout.shrink (layout : Layout low high free held)
    (sub : ∀ k, (fewer k).Sublist (free k)) : Layout low high fewer held where
  freeIn k p member := layout.freeIn k p ((sub k).subset member)
  heldIn := layout.heldIn
  freeDistinct k := (layout.freeDistinct k).sublist (sub k)
  freeApart j k p q first second := layout.freeApart j k p q ((sub j).subset first) ((sub k).subset second)
  heldApart := layout.heldApart
  mixedApart b member k p free := layout.mixedApart b member k p ((sub k).subset free)

theorem Clear.shrink (clear : Clear low high free held b)
    (sub : ∀ k, (fewer k).Sublist (free k)) : Clear low high fewer held b :=
  { clear with free := fun k p member => clear.free k p ((sub k).subset member) }

theorem Clear.part (clear : Clear low high free held b) (above : b.first ≤ c.first)
    (below : c.first + c.size ≤ b.first + b.size) : Clear low high free held c where
  inside := ⟨clear.inside.1.trans above,below.trans clear.inside.2⟩
  free k p member := (clear.free k p member).mono above below
  held d member := (clear.held d member).mono above below

theorem Clear.lower (clear : Clear low high free held ⟨p,k+1⟩) :
    Clear low high (update free k ((p+2^k) :: free k)) held ⟨p,k⟩ := by
  have whole : (⟨p,k+1⟩ : Block).size = 2^k + 2^k := by simp [Block.size]; ring
  have lower : Clear low high free held ⟨p,k⟩ :=
    clear.part (Nat.le_refl _) (by rw [whole]; simp only [Block.size]; omega)
  refine ⟨lower.inside,?_,lower.held⟩
  refine update_cases (List.forall_mem_cons.mpr ⟨?_,lower.free k⟩) (fun j _ => lower.free j)
  exact .inl (by simp [Block.size])

section
variable (layout : Layout low high free held)
include layout

theorem Layout.take (member : p ∈ free k)
    (sub : ∀ j, (fewer j).Sublist (free j)) (gone : p ∉ fewer k) :
    Clear low high fewer held ⟨p,k⟩ where
  inside := layout.freeIn k p member
  free j q other := by
    refine layout.freeApart k j p q member ((sub j).subset other) ?_
    rintro same
    cases same
    exact gone other
  held c heldMember := (layout.mixedApart c heldMember k p member).symm

theorem Layout.put (clear : Clear low high free held b) :
    Layout low high (update free b.order (b.first :: free b.order)) held := by
  have cases := fun k p => (@mem_added _ _ _ free _ _ _ (.refl (b.first :: free b.order)) k p).mp
  refine ⟨?_,layout.heldIn,?_,?_,layout.heldApart,?_⟩
  · intro k p member
    rcases cases k p member with old | ⟨rfl,rfl⟩
    · exact layout.freeIn k p old
    · exact clear.inside
  · refine update_cases (List.nodup_cons.mpr ⟨fun member => ?_,layout.freeDistinct _⟩) (fun k _ => layout.freeDistinct k)
    exact (clear.free _ _ member).ne rfl
  · intro j k p q first second different
    rcases cases j p first with old | ⟨rfl,rfl⟩ <;> rcases cases k q second with old' | ⟨rfl,rfl⟩
    · exact layout.freeApart j k p q old old' different
    · exact (clear.free j p old).symm
    · exact clear.free k q old'
    · exact absurd rfl different
  · intro c member k p inTable
    rcases cases k p inTable with old | ⟨rfl,rfl⟩
    · exact layout.mixedApart c member k p old
    · exact (clear.held c member).symm

theorem Layout.hold (clear : Clear low high free held b) :
    Layout low high free (b :: held) :=
  { layout with
    heldIn := List.forall_mem_cons.mpr ⟨clear.inside,layout.heldIn⟩
    heldApart := List.pairwise_cons.mpr ⟨clear.held,layout.heldApart⟩
    mixedApart := List.forall_mem_cons.mpr ⟨clear.free,layout.mixedApart⟩ }

theorem Layout.release (member : b ∈ held) (rest : List Block)
    (sub : rest.Sublist held) (gone : b ∉ rest) :
    Layout low high free rest ∧ Clear low high free rest b := by
  refine ⟨⟨layout.freeIn,fun c other => layout.heldIn c (sub.subset other),layout.freeDistinct,layout.freeApart,
    layout.heldApart.sublist sub,fun c other => layout.mixedApart c (sub.subset other)⟩,
    layout.heldIn b member,layout.mixedApart b member,?_⟩
  intro c other
  have different : b ≠ c := by rintro rfl; exact gone other
  have : Std.Symm Block.Apart := ⟨fun _ _ apart => apart.symm⟩
  exact layout.heldApart.forall member (sub.subset other) different

end

theorem Clear.join (lower : Clear low high free held ⟨p,k⟩)
    (upper : Clear low high free held ⟨p+2^k,k⟩) : Clear low high free held ⟨p,k+1⟩ := by
  have apart : ∀ d : Block, Block.Apart ⟨p,k⟩ d → Block.Apart ⟨p+2^k,k⟩ d → Block.Apart ⟨p,k+1⟩ d := by
    intro d first second
    have positive := d.size_pos
    unfold Block.Apart Apart at *
    simp only [Block.size] at *
    omega
  refine ⟨⟨lower.inside.1,?_⟩,?_,?_⟩
  · have bound := upper.inside.2
    simp only [Block.size] at bound ⊢
    omega
  · intro j q member
    exact apart _ (lower.free j q member) (upper.free j q member)
  · intro c member
    exact apart _ (lower.held c member) (upper.held c member)

end
end Kenux.Blocks
