import Mathlib.Algebra.Order.BigOperators.Group.Finset
import Kenux.Slots
import Kenux.Words

/-!
The block pool of `memory.c`. `memory_alloc` takes the first unused block that is large
enough, or else advances `memory_start` and records the new block in the first unused slot.
That slot may already record a freed block, whose addresses are then lost
(`memory_alloc_loses_block`), and the sums that round a size up and advance `memory_start`
may wrap. When neither happens, live blocks are disjoint and large enough, `used_size` is
the size of the used blocks and the blocks tile what was handed out (`memory_run_sound`).
-/
namespace Kenux.MemoryPool
open Kenux.Slots Kenux.Words Kenux.Runs
open Function (update update_self update_of_ne)

structure MemoryBlock where
  address : Nat
  size : Nat
  used : Bool
  order : Nat
  deriving DecidableEq, Repr

abbrev Slot : Type := Fin 2048

/-- The statics `memory_pool` and `memory_start`. -/
structure Memory where
  blocks : Slot → MemoryBlock
  totalSize : Nat
  usedSize : Nat
  allocCount : Nat
  freeCount : Nat
  memoryStart : Nat

def memoryBlockSize : Nat := 4096

def memoryBase : Nat := 0x100000

variable (m : Memory)

/-- `memory_init` clears the pool and leaves `memory_start` alone. -/
def memoryInit : Memory :=
  { m with blocks := fun _ => ⟨0,0,false,0⟩, totalSize := 0, usedSize := 0, allocCount := 0, freeCount := 0 }

def boot : Memory := ⟨fun _ => ⟨0,0,false,0⟩,0,0,0,0,memoryBase⟩

def alignedSize (size : Nat) : Nat := add64 size (memoryBlockSize - 1) / memoryBlockSize * memoryBlockSize

/-- The first unused block of at least the given size. -/
def firstFit (size : Nat) : Option Slot :=
  (List.finRange 2048).find? (fun i => !(m.blocks i).used && size ≤ (m.blocks i).size)

def firstUnused : Option Slot := (List.finRange 2048).find? (fun i => !(m.blocks i).used)

/-- The loop that computes the order of a block; `none` when it has not ended. -/
def blockOrder : Nat → Nat → Nat → Option Nat
  | 0, _, _ => none
  | fuel+1, s, order => if memoryBlockSize < s then blockOrder fuel (s / 2) (order + 1) else some order

def reuse (i : Slot) : Memory × Nat :=
  ({ m with
      blocks := update m.blocks i { m.blocks i with used := true }
      usedSize := add64 m.usedSize (m.blocks i).size
      allocCount := add64 m.allocCount 1 },(m.blocks i).address)

/-- Records a new block of the given size at `memory_start` in a slot. -/
def advance (i : Slot) (size order : Nat) : Memory × Nat :=
  ({ m with
      blocks := update m.blocks i ⟨m.memoryStart,size,true,order % 2^8⟩
      memoryStart := add64 m.memoryStart size
      totalSize := add64 m.totalSize size
      usedSize := add64 m.usedSize size
      allocCount := add64 m.allocCount 1 },m.memoryStart)

def memoryAlloc (size : Nat) : Option (Memory × Nat) :=
  if size = 0 then some (m,0)
  else
    match firstFit m (alignedSize size) with
    | some i => some (reuse m i)
    | none =>
      if 0x100000000 < add64 m.memoryStart (alignedSize size) then some (m,0)
      else
        match firstUnused m with
        | none => some (m,0)
        | some i => (blockOrder 64 (alignedSize size) 0).map (advance m i (alignedSize size))

def blockAt (ptr : Nat) : Option Slot := (List.finRange 2048).find? (fun i => (m.blocks i).address = ptr)

def release (i : Slot) : Memory :=
  { m with
    blocks := update m.blocks i { m.blocks i with used := false }
    usedSize := sub64 m.usedSize (m.blocks i).size
    freeCount := add64 m.freeCount 1 }

def memoryFree (ptr : Nat) : Memory :=
  if ptr = 0 then m
  else
    match blockAt m ptr with
    | none => m
    | some i => release m i

/-- A pointer that was handed out and not freed, and the size that was asked for. -/
structure Live where
  ptr : Nat
  size : Nat
  deriving DecidableEq, Repr

structure State where
  memory : Memory
  live : List Live

def start : State := ⟨memoryInit boot,[]⟩

inductive Request where
  | alloc (size : Nat)
  | free (ptr : Nat)
  deriving DecidableEq, Repr

def step (s : State) : Request → Option State
  | .alloc size => (memoryAlloc s.memory size).map
      (fun r => ⟨r.1,if r.2 = 0 then s.live else ⟨r.2,size⟩ :: s.live⟩)
  | .free ptr => some ⟨memoryFree s.memory ptr,s.live.filter (fun l => l.ptr ≠ ptr)⟩

/-- Only live pointers are freed, and sizes are 64-bit words. -/
def Legal (s : State) : Request → Prop
  | .alloc size => size < 2^64
  | .free ptr => ∃ l ∈ s.live, l.ptr = ptr

instance (s : State) : (a : Request) → Decidable (Legal s a)
  | .alloc size => inferInstanceAs (Decidable (size < 2^64))
  | .free ptr => inferInstanceAs (Decidable (∃ l ∈ s.live, l.ptr = ptr))

/-- The sums of an allocation do not wrap, and a new block goes to a slot that records no block. -/
def Meets (s : State) : Request → Prop
  | .alloc size => size = 0 ∨ (size + 4095 < 2^64 ∧
      ((firstFit s.memory (alignedSize size)).isSome ∨ s.memory.memoryStart + alignedSize size < 2^64 ∧
        (0x100000000 < s.memory.memoryStart + alignedSize size ∨
          (firstUnused s.memory).all (fun i => (s.memory.blocks i).size = 0))))
  | .free _ => True

instance (s : State) : (a : Request) → Decidable (Meets s a)
  | .alloc _ => inferInstanceAs (Decidable (_ ∨ (_ ∧ (_ ∨ _ ∧ (_ ∨ _)))))
  | .free _ => inferInstanceAs (Decidable True)

/-- The size of a block that counts for `used_size`. -/
def MemoryBlock.usedSize (b : MemoryBlock) : Nat := if b.used then b.size else 0

def Memory.usedTotal : Nat := ∑ i, (m.blocks i).usedSize

/-- The block in a slot is the one that a live pointer was given, and is large enough. -/
def Holds (i : Slot) (l : Live) : Prop :=
  (m.blocks i).used = true ∧ (m.blocks i).address = l.ptr ∧ l.size ≤ (m.blocks i).size

def Covers (i : Slot) (a : Nat) : Prop :=
  (m.blocks i).address ≤ a ∧ a < (m.blocks i).address + (m.blocks i).size

instance (m : Memory) (i : Slot) (a : Nat) : Decidable (Covers m i a) := inferInstanceAs (Decidable (_ ∧ _))

/-- Each live pointer has a block of its own, the sizes are counted, and the blocks tile what was handed out. -/
structure Sound (s : State) : Prop where
  held : ∀ l ∈ s.live, ∃ i, Holds s.memory i l
  disjoint : s.live.Pairwise (fun k l => ∀ i j, Holds s.memory i k → Holds s.memory j l →
    Blocks.Apart (s.memory.blocks i).address (s.memory.blocks i).size
      (s.memory.blocks j).address (s.memory.blocks j).size)
  counted : s.memory.usedSize = s.memory.usedTotal
  covered : ∀ a, memoryBase ≤ a → a < s.memory.memoryStart → ∃! i, Covers s.memory i a

/-! ### The blocks tile what was handed out -/

def MemoryBlock.span (b : MemoryBlock) : Option Span := if b.size = 0 then none else some ⟨b.address,b.size⟩

def Memory.spans (i : Slot) : Option Span := (m.blocks i).span

def Memory.sizeTotal : Nat := ∑ i, (m.blocks i).size

structure Tiled (m : Memory) : Prop where
  blank : ∀ i, (m.blocks i).size = 0 → (m.blocks i).address = 0
  inside : ∀ i s, m.spans i = some s → memoryBase ≤ s.first ∧ s.first + s.size ≤ m.memoryStart
  separate : Separate m.spans
  covered : ∀ a, memoryBase ≤ a → a < m.memoryStart → ∃ i, Covers m i a
  total : memoryBase + m.sizeTotal = m.memoryStart
  limit : m.memoryStart ≤ 0x100000000
  counted : m.usedSize = m.usedTotal

variable {b : MemoryBlock} {m n : Memory} {i j : Slot} {l : Live} {s : State} {size : Nat} {used : Bool}

private theorem span_of_pos (positive : 0 < b.size) : b.span = some ⟨b.address,b.size⟩ :=
  if_neg (Nat.ne_of_gt positive)

theorem Tiled.unique {a : Nat} (tiled : Tiled m) (first : Covers m i a) (second : Covers m j a) : i = j := by
  unfold Covers at first second
  by_contra different
  have apart := tiled.separate i j _ _ different (span_of_pos (by omega)) (span_of_pos (by omega))
  unfold Span.Apart Blocks.Apart at apart
  simp only at apart
  omega

private theorem usedTotal_le (m : Memory) : m.usedTotal ≤ m.sizeTotal := by
  apply Finset.sum_le_sum
  intro i _
  unfold MemoryBlock.usedSize
  split
  · rfl
  · exact Nat.zero_le _

theorem Tiled.usedTotal_lt (tiled : Tiled m) : m.usedTotal < 2^64 := by
  have le := usedTotal_le m
  have total := tiled.total
  have limit := tiled.limit
  omega

/-- A pool in which only the mark of one block differs. -/
structure Marked (m n : Memory) (i : Slot) (used : Bool) : Prop where
  blocks : n.blocks = update m.blocks i { m.blocks i with used := used }
  memoryStart : n.memoryStart = m.memoryStart

section
variable (marked : Marked m n i used)
include marked

theorem Marked.block (j : Slot) :
    (n.blocks j).address = (m.blocks j).address ∧ (n.blocks j).size = (m.blocks j).size := by
  rw [marked.blocks]
  exact update_cases ⟨rfl,rfl⟩ (fun _ _ => ⟨rfl,rfl⟩) j

theorem Marked.sizeTotal :
    n.sizeTotal = m.sizeTotal := Finset.sum_congr rfl (fun j _ => (marked.block j).2)

theorem Marked.usedTotal :
    n.usedTotal + (m.blocks i).usedSize = m.usedTotal + if used then (m.blocks i).size else 0 := by
  have sum := sum_update m.blocks MemoryBlock.usedSize i { m.blocks i with used := used }
  rw [← marked.blocks] at sum
  exact sum

theorem Marked.tiled (tiled : Tiled m)
    (counted : n.usedSize = n.usedTotal) : Tiled n := by
  have spans : n.spans = m.spans := by
    funext j
    obtain ⟨address,size⟩ := marked.block j
    simp only [Memory.spans,MemoryBlock.span,address,size]
  constructor
  · intro j empty
    rw [(marked.block j).2] at empty
    rw [(marked.block j).1]
    exact tiled.blank j empty
  · rw [spans,marked.memoryStart]
    exact tiled.inside
  · rw [spans]
    exact tiled.separate
  · rw [marked.memoryStart]
    intro a low high
    obtain ⟨j,covers⟩ := tiled.covered a low high
    refine ⟨j,?_⟩
    unfold Covers
    rw [(marked.block j).1,(marked.block j).2]
    exact covers
  · rw [marked.memoryStart,marked.sizeTotal]
    exact tiled.total
  · rw [marked.memoryStart]
    exact tiled.limit
  · exact counted

end

private theorem reuse_marked (m : Memory) (i : Slot) : Marked m (reuse m i).1 i true := ⟨rfl,rfl⟩

private theorem release_marked (m : Memory) (i : Slot) : Marked m (release m i) i false := ⟨rfl,rfl⟩

theorem reuse_tiled (tiled : Tiled m) (unused : (m.blocks i).used = false) : Tiled (reuse m i).1 := by
  have marked := reuse_marked m i
  have sum := marked.usedTotal
  have le := usedTotal_le (reuse m i).1
  have total := tiled.total
  have limit := tiled.limit
  rw [MemoryBlock.usedSize,unused,if_neg Bool.false_ne_true,if_pos rfl,Nat.add_zero] at sum
  rw [marked.sizeTotal] at le
  apply marked.tiled tiled
  have used : (reuse m i).1.usedSize = add64 m.usedSize (m.blocks i).size := rfl
  rw [used,tiled.counted,sum]
  exact add64_of_lt (by omega)

theorem release_tiled (tiled : Tiled m) (used : (m.blocks i).used = true) : Tiled (release m i) := by
  have marked := release_marked m i
  have sum := marked.usedTotal
  rw [MemoryBlock.usedSize,if_pos used,if_neg Bool.false_ne_true] at sum
  apply marked.tiled tiled
  have left : (release m i).usedSize = sub64 m.usedSize (m.blocks i).size := rfl
  rw [left,tiled.counted,sub64_of_le (by omega) tiled.usedTotal_lt]
  omega

theorem advance_tiled {order : Nat} (tiled : Tiled m) (positive : 0 < size)
    (unused : (m.blocks i).used = false) (empty : (m.blocks i).size = 0)
    (fits : m.memoryStart + size ≤ 0x100000000) : Tiled (advance m i size order).1 := by
  have here : (advance m i size order).1.blocks i = ⟨m.memoryStart,size,true,order % 2^8⟩ :=
    update_self i _ m.blocks
  have other : ∀ j, j ≠ i → (advance m i size order).1.blocks j = m.blocks j :=
    fun j different => update_of_ne different _ m.blocks
  have spans : (advance m i size order).1.spans = update m.spans i (some ⟨m.memoryStart,size⟩) :=
    (Function.comp_update MemoryBlock.span m.blocks i _).trans (congrArg _ (span_of_pos positive))
  have memoryStart : (advance m i size order).1.memoryStart = m.memoryStart + size := add64_of_lt (by omega)
  constructor
  · dsimp only [advance]
    exact update_cases (fun none => absurd none (Nat.ne_of_gt positive)) (fun j _ => tiled.blank j)
  · rw [spans,memoryStart]
    intro j s there
    rcases of_put there with ⟨rfl,rfl⟩ | ⟨_,before⟩
    · exact ⟨by have total := tiled.total; simp only; omega,le_refl _⟩
    · have old := tiled.inside j s before
      omega
  · rw [spans]
    apply tiled.separate.put
    intro j s _ there
    exact .inl (tiled.inside j s there).2
  · rw [memoryStart]
    intro a low high
    by_cases old : a < m.memoryStart
    · obtain ⟨j,covers⟩ := tiled.covered a low old
      refine ⟨j,?_⟩
      unfold Covers at covers ⊢
      rw [other j (by rintro rfl; omega)]
      exact covers
    · refine ⟨i,?_⟩
      unfold Covers
      rw [here]
      exact ⟨by simp only; omega,high⟩
  · have sum : (advance m i size order).1.sizeTotal + (m.blocks i).size = m.sizeTotal + size :=
      sum_update m.blocks MemoryBlock.size i _
    have total := tiled.total
    omega
  · rw [memoryStart]
    exact fits
  · have sum : (advance m i size order).1.usedTotal + (m.blocks i).usedSize = m.usedTotal + size :=
      sum_update m.blocks MemoryBlock.usedSize i _
    have le := usedTotal_le m
    have total := tiled.total
    rw [MemoryBlock.usedSize,unused,if_neg Bool.false_ne_true,Nat.add_zero] at sum
    have used : (advance m i size order).1.usedSize = add64 m.usedSize size := rfl
    rw [used,tiled.counted,sum]
    exact add64_of_lt (by omega)

/-! ### Live pointers -/

structure Kept (s : State) : Prop where
  tiled : Tiled s.memory
  held : ∀ l ∈ s.live, 0 < l.size ∧ ∃ i, Holds s.memory i l
  distinct : s.live.Pairwise (fun k l => k.ptr ≠ l.ptr)

theorem Holds.slot (holds : Holds m i l) (tiled : Tiled m) (positive : 0 < l.size)
    (size : 0 < (m.blocks j).size) (address : (m.blocks j).address = l.ptr) : j = i := by
  obtain ⟨_,at_ptr,large⟩ := holds
  have first : Covers m i l.ptr := ⟨by omega,by omega⟩
  have second : Covers m j l.ptr := ⟨by omega,by omega⟩
  exact tiled.unique second first

theorem Holds.of_ne (holds : Holds m j l) (different : j ≠ i)
    (blocks : n.blocks = update m.blocks i b) : Holds n j l := by
  unfold Holds at holds ⊢
  rw [blocks,update_of_ne different]
  exact holds

theorem Kept.sound (kept : Kept s) : Sound s := by
  constructor
  · exact fun l member => (kept.held l member).2
  · refine kept.distinct.imp_of_mem (fun {k l} memberK memberL different i j holdsK holdsL => ?_)
    have positiveK := (kept.held k memberK).1
    have positiveL := (kept.held l memberL).1
    have slots : i ≠ j := by
      rintro rfl
      exact different (holdsK.2.1.symm.trans holdsL.2.1)
    have sizeK := holdsK.2.2
    have sizeL := holdsL.2.2
    exact kept.tiled.separate i j _ _ slots (span_of_pos (by omega)) (span_of_pos (by omega))
  · exact kept.tiled.counted
  · intro a low high
    obtain ⟨i,covers⟩ := kept.tiled.covered a low high
    exact ⟨i,covers,fun j other => kept.tiled.unique other covers⟩

theorem Kept.hand (kept : Kept s) (tiled : Tiled m)
    (unused : (s.memory.blocks i).used = false) (blocks : m.blocks = update s.memory.blocks i b)
    (used : b.used = true) (positive : 0 < size) (large : size ≤ b.size) :
    Kept ⟨m,⟨b.address,size⟩ :: s.live⟩ := by
  have here : m.blocks i = b := by rw [blocks,update_self]
  have new : Holds m i ⟨b.address,size⟩ := by
    unfold Holds
    rw [here]
    exact ⟨used,rfl,large⟩
  have old : ∀ l ∈ s.live, ∃ j, j ≠ i ∧ Holds m j l := by
    intro l member
    obtain ⟨_,j,holds⟩ := kept.held l member
    have different : j ≠ i := by
      rintro rfl
      have used := holds.1
      rw [unused] at used
      cases used
    exact ⟨j,different,holds.of_ne different blocks⟩
  constructor
  · exact tiled
  · refine List.forall_mem_cons.mpr ⟨⟨positive,i,new⟩,fun l member => ?_⟩
    obtain ⟨j,_,holds⟩ := old l member
    exact ⟨(kept.held l member).1,j,holds⟩
  · refine List.pairwise_cons.mpr ⟨fun l member same => ?_,kept.distinct⟩
    obtain ⟨j,different,holds⟩ := old l member
    exact different (holds.slot tiled (kept.held l member).1 (by rw [here]; omega) (by rw [here]; exact same)).symm

private theorem firstFit_eq_some (found : firstFit m size = some i) :
    (m.blocks i).used = false ∧ size ≤ (m.blocks i).size := by
  have fits := List.find?_some (p := fun i => !(m.blocks i).used && decide (size ≤ (m.blocks i).size)) found
  simpa using fits

private theorem firstUnused_eq_some (found : firstUnused m = some i) : (m.blocks i).used = false := by
  have idle := List.find?_some (p := fun i => !(m.blocks i).used) found
  simpa using idle

theorem blockOrder_ends (fuel s order : Nat) (small : s < 2^(fuel + 12)) : ∃ result, blockOrder (fuel + 1) s order = some result := by
  induction fuel generalizing s order with
  | zero =>
    have stops : ¬ memoryBlockSize < s := by unfold memoryBlockSize; omega
    exact ⟨order,by rw [blockOrder,if_neg stops]⟩
  | succ fuel ih =>
    rw [blockOrder]
    split
    · exact ih (s / 2) (order + 1) (by rw [Nat.pow_succ] at small; omega)
    · exact ⟨order,rfl⟩

private theorem alignedSize_bounds (fits : size + 4095 < 2^64) : size ≤ alignedSize size ∧ alignedSize size < 2^64 := by
  unfold alignedSize add64 memoryBlockSize
  omega

/-- What an allocation that meets the condition does: nothing, or it reuses a block that is
    large enough, or it records a new block in a slot that records none. -/
theorem memoryAlloc_cases (meets : Meets s (.alloc size)) :
    memoryAlloc s.memory size = some (s.memory,0) ∨ 0 < size ∧ ((∃ i, (s.memory.blocks i).used = false ∧
        size ≤ (s.memory.blocks i).size ∧ memoryAlloc s.memory size = some (reuse s.memory i)) ∨
      ∃ i n order, (s.memory.blocks i).used = false ∧ (s.memory.blocks i).size = 0 ∧ size ≤ n ∧
        s.memory.memoryStart + n ≤ 0x100000000 ∧ memoryAlloc s.memory size = some (advance s.memory i n order)) := by
  unfold memoryAlloc
  by_cases zero : size = 0
  · rw [if_pos zero]
    exact .inl rfl
  · obtain ⟨wraps,room⟩ := meets.resolve_left zero
    have bounds := alignedSize_bounds wraps
    rw [if_neg zero]
    cases fit : firstFit s.memory (alignedSize size) with
    | some i =>
      obtain ⟨unused,large⟩ := firstFit_eq_some fit
      exact .inr ⟨Nat.pos_of_ne_zero zero,.inl ⟨i,unused,by omega,rfl⟩⟩
    | none =>
      rw [fit] at room
      obtain ⟨start,rest⟩ := room.resolve_left nofun
      simp only [add64_of_lt start]
      split
      · exact .inl rfl
      case isFalse full =>
        cases slot : firstUnused s.memory with
        | none => exact .inl rfl
        | some i =>
          have empty : (s.memory.blocks i).size = 0 := by simpa [slot] using rest.resolve_left full
          obtain ⟨order,ran⟩ := blockOrder_ends 63 (alignedSize size) 0 (by omega)
          rw [ran]
          exact .inr ⟨Nat.pos_of_ne_zero zero,
            .inr ⟨i,alignedSize size,order,firstUnused_eq_some slot,empty,bounds.1,by omega,rfl⟩⟩

theorem alloc_kept (kept : Kept s) (meets : Meets s (.alloc size)) :
    ∃ t, step s (.alloc size) = some t ∧ Kept t := by
  simp only [step]
  rcases memoryAlloc_cases meets with ran | ⟨positive,⟨i,unused,large,ran⟩ | ⟨i,n,order,unused,empty,large,fits,ran⟩⟩
  · rw [ran]
    exact ⟨_,rfl,kept⟩
  · have inside := kept.tiled.inside i _ (span_of_pos (by omega))
    have nonzero : (reuse s.memory i).2 ≠ 0 := by
      exact Nat.ne_of_gt (Nat.lt_of_lt_of_le (by decide) inside.1)
    have handed := kept.hand (reuse_tiled kept.tiled unused) unused (reuse_marked s.memory i).blocks rfl positive large
    rw [ran,Option.map_some,if_neg nonzero]
    exact ⟨_,rfl,handed⟩
  · have total := kept.tiled.total
    have nonzero : (advance s.memory i n order).2 ≠ 0 := by
      unfold memoryBase at total
      simp only [advance]
      omega
    rw [ran,Option.map_some,if_neg nonzero]
    exact ⟨_,rfl,kept.hand (advance_tiled kept.tiled (by omega) unused empty fits) unused rfl rfl positive large⟩

theorem blockAt_of_holds (tiled : Tiled m) (holds : Holds m i l)
    (positive : 0 < l.size) (nonzero : l.ptr ≠ 0) : blockAt m l.ptr = some i := by
  cases found : blockAt m l.ptr with
  | none =>
    have missed := List.find?_eq_none.mp found i (List.mem_finRange i)
    exact absurd (decide_eq_true holds.2.1) missed
  | some j =>
    have address : (m.blocks j).address = l.ptr := by
      simpa using List.find?_some (p := fun i => decide ((m.blocks i).address = l.ptr)) found
    have size : 0 < (m.blocks j).size := by
      apply Nat.pos_of_ne_zero
      intro empty
      exact nonzero (address.symm.trans (tiled.blank j empty))
    rw [holds.slot tiled positive size address]

theorem free_kept {ptr : Nat} (kept : Kept s) (legal : Legal s (.free ptr)) :
    ∃ t, step s (.free ptr) = some t ∧ Kept t := by
  obtain ⟨l,member,rfl⟩ := legal
  obtain ⟨positive,i,holds⟩ := kept.held l member
  have inside := kept.tiled.inside i _ (span_of_pos (by have large := holds.2.2; omega))
  have nonzero : l.ptr ≠ 0 := by
    rw [holds.2.1] at inside
    unfold memoryBase at inside
    simp only at inside
    omega
  refine ⟨_,rfl,?_⟩
  rw [memoryFree,if_neg nonzero,blockAt_of_holds kept.tiled holds positive nonzero]
  constructor
  · exact release_tiled kept.tiled holds.1
  · intro k memberK
    obtain ⟨memberK,different⟩ := List.mem_filter.mp memberK
    obtain ⟨positiveK,j,holdsK⟩ := kept.held k memberK
    have slots : j ≠ i := by
      rintro rfl
      simp only [decide_not,Bool.not_eq_true',decide_eq_false_iff_not] at different
      exact different (holdsK.2.1.symm.trans holds.2.1)
    exact ⟨positiveK,j,holdsK.of_ne slots (release_marked s.memory i).blocks⟩
  · exact kept.distinct.filter _

theorem start_kept : Kept start := by
  have blocks : ∀ i, start.memory.blocks i = ⟨0,0,false,0⟩ := fun _ => rfl
  constructor
  · constructor
    · exact fun i _ => rfl
    · exact nofun
    · exact nofun
    · exact fun a low high => absurd low (Nat.not_le_of_lt high)
    · have zero : start.memory.sizeTotal = 0 := Finset.sum_eq_zero (fun i _ => by rw [blocks])
      rw [zero]
      rfl
    · decide
    · exact (Finset.sum_eq_zero (fun i _ => by rw [blocks]; rfl)).symm
  · exact nofun
  · exact .nil

private theorem step_kept (s : State) (a : Request) (kept : Kept s) (ok : Legal s a ∧ Meets s a) :
    ∃ t, step s a = some t ∧ Kept t := by
  cases a with
  | alloc size => exact alloc_kept kept ok.2
  | free ptr => exact free_kept kept ok.1

/-- In every run that meets the condition live pointers have blocks of their own, and the blocks tile what was handed out. -/
theorem memory_run_sound (requests : List Request)
    (meets : Guarded step (fun s a => Legal s a ∧ Meets s a) start requests) :
    ∃ s, run step start requests = some s ∧ Sound s := by
  obtain ⟨s,ran,kept⟩ := run_invariant step_kept requests start start_kept meets
  exact ⟨s,ran,kept.sound⟩

theorem memory_run_sound_of_reuse : ∃ s,
    run step start [.alloc 5000,.alloc 1,.free 0x100000,.alloc 4097,.alloc 0,.free 0x102000] = some s ∧ Sound s :=
  memory_run_sound _ (by decide +kernel)

/-- A new block that is recorded over a freed one: the freed page is in no block any more. -/
theorem memory_alloc_loses_block : Guarded step Legal start [.alloc 4096,.free 0x100000,.alloc 8192] ∧
    ∃ s, run step start [.alloc 4096,.free 0x100000,.alloc 8192] = some s ∧ memoryBase ≤ 0x100000 ∧
      0x100000 < s.memory.memoryStart ∧ ∀ i, ¬ Covers s.memory i 0x100000 := by
  refine ⟨by decide +kernel,run_shows (fun s => decide (0x100000 < s.memory.memoryStart ∧ ∀ i, ¬ Covers s.memory i 0x100000))
    true (by decide +kernel) (fun s lost => ⟨le_refl _,of_decide_eq_true lost⟩)⟩

end Kenux.MemoryPool
