import Kenux.KmallocCache
import Kenux.Slots
import Mathlib.Tactic.IntervalCases

/-!
The kernel heap (`kmalloc` and `kfree` of `slab.c`) over a page allocator that hands out
blocks apart from each other. The last object of a slab shares its bytes with the header,
requests above eight megabytes get a block of eight megabytes (`kmalloc_overlaps`), and `kfree`
gives the pages of a slab back with the object (`kmalloc_run_gives_back`). Live ranges stay inside
their blocks, apart from each other and from the headers in every run (`kmalloc_run_apart`) whose
first request of a size class leaves room for the header, whose large requests fit a block, and
that frees no object in the first page of a slab.
-/
namespace Kenux.Kmalloc
open Kenux.Slab Kenux.KmallocCache Kenux.Runs
open Kenux.Blocks (Apart)
open Kenux.Buddy (pageSize maxOrder flagUsed)
open Function (update update_self update_of_ne update_eq_self)

/-- `PAGE_FLAG_SLAB`, which no function sets. -/
def flagSlab : BitVec 32 := 4

/-- The memory, the caches of `kmalloc`, and the page allocator: the flags of the pages
    and the blocks that are handed out, each with its order. -/
structure Heap where
  mem : Nat → UInt8
  caches : Nat → Option Cache
  flags : Nat → BitVec 32
  blocks : List (Nat × Nat)
  basePfn : Nat
  endPfn : Nat

/-- `alloc_pages_virt`, which hands out the block at `pages`, or nothing if that is 0. -/
def allocPages (order pages : Nat) (h : Heap) : Nat × Heap :=
  if pages = 0 then (0,h)
  else (pages,{ h with
    flags := update h.flags (pages / pageSize) (h.flags (pages / pageSize) ||| flagUsed)
    blocks := (pages,order) :: h.blocks })

/-- `free_pages` of a page: only a page marked as used begins a block. -/
def freePages (pfn : Nat) (h : Heap) : Heap :=
  if h.flags pfn &&& flagUsed = 0 then h
  else { h with
    flags := update h.flags pfn (h.flags pfn &&& ~~~flagUsed)
    blocks := h.blocks.filter (fun b => b.1 ≠ pfn * pageSize) }

def kmallocShiftHigh : Nat := 11

/-- The loop of `kmalloc` that looks for the size class. -/
def classFor (size : Nat) : Nat → Nat → Nat
  | 0, i => i
  | rounds+1, i => if 2^i < size then classFor size rounds (i+1) else i

def classOf (size : Nat) : Nat := classFor size (kmallocShiftHigh - 3) 3

/-- The order of the pages that a request asks the page allocator for, if it does. -/
def asked (size : Nat) (h : Heap) : Option Nat :=
  if size = 0 then none
  else if size > 2^kmallocShiftHigh then some (orderFor size maxOrder 0)
  else do
    let cache ← h.caches (classOf size)
    if cache.heads .part = 0 ∧ cache.heads .empty = 0 then some cache.slabOrder else none

/-- `kmalloc`, with the address that the page allocator answers if it is asked. -/
def kmalloc (size pages : Nat) (h : Heap) : Nat × Heap :=
  let (pages,h) := match asked size h with
    | some order => allocPages order pages h
    | none => (0,h)
  if size = 0 then (0,h)
  else if size > 2^kmallocShiftHigh then (pages,h)
  else
    match h.caches (classOf size) with
    | none => (0,h)
    | some cache =>
      let (obj,w) := kmemCacheAlloc pages ⟨h.mem,cache⟩
      (obj,{ h with mem := w.mem, caches := update h.caches (classOf size) (some w.cache) })

/-- The search of `kfree` through the caches for the slab of an object. -/
def freeObject (fuel ptr : Nat) : List Nat → Heap → Option Heap
  | [], h => some h
  | i :: rest, h =>
    match h.caches i with
    | none => freeObject fuel ptr rest h
    | some cache => do
      let slab ← findSlab fuel ptr ⟨h.mem,cache⟩
      if slab ≠ 0 then do
        let w ← kmemCacheFree fuel ptr ⟨h.mem,cache⟩
        some { h with mem := w.mem, caches := update h.caches i (some w.cache) }
      else freeObject fuel ptr rest h

def kfree (fuel ptr : Nat) (h : Heap) : Option Heap :=
  let pfn := ptr / pageSize
  if ptr = 0 ∨ pfn < h.basePfn ∨ h.endPfn ≤ pfn then some h
  else if h.flags pfn &&& flagSlab ≠ 0 then freeObject fuel ptr [3,4,5,6,7,8,9,10,11] h
  else some (freePages pfn h)

/-- `slab_init`, over a page allocator that has handed out nothing. -/
def slabInit (memory : Nat → UInt8) (basePfn endPfn : Nat) : Heap :=
  { mem := memory
    caches := fun i => if 3 ≤ i ∧ i ≤ kmallocShiftHigh then kmemCacheCreate (i - 3) (BitVec.ofNat 32 (2^i)) (BitVec.ofNat 32 (2^i))
      else none
    flags := fun _ => 0
    blocks := []
    basePfn := basePfn
    endPfn := endPfn }

inductive Request where
  | kmalloc (size pages : Nat)
  | kfree (ptr : Nat)
  deriving DecidableEq, Repr

/-- The heap, the headers of the slabs, and the live results with the sizes asked for. -/
structure State where
  heap : Heap
  slabs : List Nat
  live : List (Nat × Nat)

def newSlab (size pages : Nat) (h : Heap) : List Nat :=
  if size ≤ 2^kmallocShiftHigh ∧ asked size h ≠ none ∧ pages ≠ 0 then [header pages] else []

def step (fuel : Nat) (s : State) : Request → Option State
  | .kmalloc size pages =>
    let (ptr,heap) := kmalloc size pages s.heap
    some ⟨heap,newSlab size pages s.heap ++ s.slabs,if ptr = 0 then s.live else (ptr,size) :: s.live⟩
  | .kfree ptr => do some ⟨← kfree fuel ptr s.heap,s.slabs,s.live.filter (fun a => a.1 ≠ ptr)⟩

def start (memory : Nat → UInt8) (basePfn endPfn : Nat) : State := ⟨slabInit memory basePfn endPfn,[],[]⟩

/-- A block of the zone, apart from those that are handed out. -/
def Fits (order pages : Nat) (h : Heap) : Prop :=
  pages % pageSize = 0 ∧ h.basePfn ≤ pages / pageSize ∧ pages + pageSize <<< order ≤ h.endPfn * pageSize ∧
    pages + pageSize <<< order < 2^64 ∧ ∀ b ∈ h.blocks, Apart pages (pageSize <<< order) b.1 (pageSize <<< b.2)

instance (order pages : Nat) (h : Heap) : Decidable (Fits order pages h) := inferInstanceAs (Decidable (_ ∧ _ ∧ _ ∧ _ ∧ _))

/-- The page allocator hands out blocks apart; what is freed is live. -/
def Legal (s : State) : Request → Prop
  | .kmalloc size pages => size < 2^64 ∧ ∀ order ∈ asked size s.heap, pages = 0 ∨ Fits order pages s.heap
  | .kfree ptr => ptr ∈ s.live.map Prod.fst

instance (s : State) (a : Request) : Decidable (Legal s a) :=
  match a with
  | .kmalloc size pages => inferInstanceAs (Decidable (_ ∧ ∀ order ∈ asked size s.heap, pages = 0 ∨ Fits order pages s.heap))
  | .kfree ptr => inferInstanceAs (Decidable (ptr ∈ s.live.map Prod.fst))

/-- A request gets no pages, or it fits a block, or it is served by a slab that exists or
    leaves room for the header; what is freed is not in the first page of a slab. -/
def Meets (s : State) : Request → Prop
  | .kmalloc size pages => pages = 0 ∨
      if size ≤ 2^kmallocShiftHigh then asked size s.heap = none ∨ size + sizeofSlab ≤ 2^classOf size else size ≤ 2^23
  | .kfree ptr => ∀ slab ∈ s.slabs, ¬ (header ptr < slab + pageSize ∧ slab ≤ header ptr)

instance (s : State) (a : Request) : Decidable (Meets s a) :=
  match a with
  | .kmalloc size _ => inferInstanceAs (Decidable (_ ∨ if size ≤ 2^kmallocShiftHigh then _ ∨ _ else _ ≤ _))
  | .kfree _ => inferInstanceAs (Decidable (∀ slab ∈ s.slabs, _))

/-- Every live range lies in a block that is handed out, and is apart from the other
    live ranges and from the headers of the slabs. -/
@[mk_iff] structure Sound (s : State) : Prop where
  room : ∀ a ∈ s.live, ∃ b ∈ s.heap.blocks, b.1 ≤ a.1 ∧ a.1 + a.2 ≤ b.1 + pageSize <<< b.2
  apart : s.live.Pairwise (fun a b => Apart a.1 a.2 b.1 b.2)
  headers : ∀ a ∈ s.live, ∀ slab ∈ s.slabs, Apart a.1 a.2 slab sizeofSlab

instance (s : State) : Decidable (Sound s) := decidable_of_iff _ (sound_iff ..).symm

/-! ### The page allocator -/

section
variable {blocks : List (Nat × Nat)} {flags : Nat → BitVec 32} {order pages pfn size : Nat} {h : Heap} {b c : Nat × Nat}

/-- The blocks that are handed out, and their flags: the first page of a block is marked. -/
structure Pages (blocks : List (Nat × Nat)) (flags : Nat → BitVec 32) : Prop where
  apart : blocks.Pairwise (fun b c => Apart b.1 (pageSize <<< b.2) c.1 (pageSize <<< c.2))
  whole : ∀ b ∈ blocks, 0 < b.1 ∧ b.1 % pageSize = 0 ∧ b.1 + pageSize <<< b.2 < 2^64
  flags : ∀ pfn, flags pfn = if ∃ b ∈ blocks, b.1 = pfn * pageSize then flagUsed else 0

private theorem extent_pos (order : Nat) : 0 < pageSize <<< order := by
  rw [Nat.shiftLeft_eq]
  exact Nat.mul_pos (by decide) (Nat.two_pow_pos order)

theorem Pages.disjoint (ok : Pages blocks flags) (first : b ∈ blocks) (second : c ∈ blocks) (other : b.1 ≠ c.1) :
    Apart b.1 (pageSize <<< b.2) c.1 (pageSize <<< c.2) := by
  have : Std.Symm (fun b c : Nat × Nat => Apart b.1 (pageSize <<< b.2) c.1 (pageSize <<< c.2)) := ⟨fun _ _ apart => apart.symm⟩
  exact ok.apart.forall first second (ne_of_apply_ne Prod.fst other)

theorem Pages.not_slab (ok : Pages blocks flags) : flags pfn &&& flagSlab = 0 := by
  rw [ok.flags]
  split <;> decide

theorem Fits.ne (fits : Fits order pages h) (used : b ∈ h.blocks) : b.1 ≠ pages := by
  have apart := fits.2.2.2.2 b used
  have first := extent_pos order
  have second := extent_pos b.2
  unfold Apart at apart
  omega

section
variable (ok : Pages h.blocks h.flags)
include ok

theorem Pages.alloc (fits : Fits order pages h) (some : pages ≠ 0) :
    Pages ((pages,order) :: h.blocks)
      (update h.flags (pages / pageSize) (h.flags (pages / pageSize) ||| flagUsed)) := by
  have starts : pages / pageSize * pageSize = pages := Nat.div_mul_cancel (Nat.dvd_of_mod_eq_zero fits.1)
  refine ⟨List.pairwise_cons.mpr ⟨fits.2.2.2.2,ok.apart⟩,?_,?_⟩
  · exact List.forall_mem_cons.mpr ⟨⟨Nat.pos_of_ne_zero some,fits.1,fits.2.2.2.1⟩,ok.whole⟩
  · intro pfn
    by_cases here : pfn = pages / pageSize
    · subst here
      rw [update_self,if_pos ⟨_,List.mem_cons_self,starts.symm⟩,ok.flags]
      split <;> decide
    · have other : pages ≠ pfn * pageSize := by
        intro same
        rw [same] at here
        exact here (Nat.mul_div_cancel pfn (by decide)).symm
      rw [update_of_ne here,ok.flags]
      simp only [List.mem_cons,exists_eq_or_imp,other,false_or]

theorem Pages.free (pfn : Nat) : Pages (freePages pfn h).blocks (freePages pfn h).flags := by
  unfold freePages
  split
  · exact ok
  · refine ⟨ok.apart.filter _,fun b member => ok.whole b (List.mem_of_mem_filter member),fun p => ?_⟩
    dsimp only
    induction p using update_cases with
    | here =>
      rw [if_neg (by simp),ok.flags]
      split <;> decide
    | others p here =>
      rw [ok.flags]
      have other : ∀ b : Nat × Nat, b.1 = p * pageSize → b.1 ≠ pfn * pageSize := by
        intro b same
        rw [same]
        exact fun equal => here (Nat.eq_of_mul_eq_mul_right (by decide) equal)
      refine if_congr ⟨?_,?_⟩ rfl rfl
      · rintro ⟨b,member,same⟩
        exact ⟨b,List.mem_filter.mpr ⟨member,by simpa using other b same⟩,same⟩
      · rintro ⟨b,member,same⟩
        exact ⟨b,List.mem_of_mem_filter member,same⟩

private theorem freePages_of_none (none : ∀ b ∈ h.blocks, b.1 ≠ pfn * pageSize) :
    freePages pfn h = h := by
  have clear : h.flags pfn = 0 := by
    rw [ok.flags,if_neg]
    rintro ⟨b,member,same⟩
    exact none b member same
  rw [freePages,if_pos (by rw [clear]; rfl)]

end

private theorem freePages_keeps (other : b.1 ≠ pfn * pageSize) (member : b ∈ h.blocks) : b ∈ (freePages pfn h).blocks := by
  unfold freePages
  split
  · exact member
  · exact List.mem_filter.mpr ⟨member,by simpa using other⟩

private theorem freePages_mem : (freePages pfn h).mem = h.mem := by
  unfold freePages
  split <;> rfl

private theorem freePages_caches : (freePages pfn h).caches = h.caches := by
  unfold freePages
  split <;> rfl

theorem classFor_spec : ∀ rounds i : Nat, size ≤ 2^(i+rounds) → i = 3 ∨ 2^(i-1) < size →
    i ≤ classFor size rounds i ∧ classFor size rounds i ≤ i + rounds ∧ size ≤ 2^classFor size rounds i ∧
      (classFor size rounds i = 3 ∨ 2^(classFor size rounds i - 1) < size)
  | 0, i, fits, least => ⟨Nat.le_refl i,Nat.le_refl i,fits,least⟩
  | rounds+1, i, fits, least => by
    rw [classFor]
    split
    case isTrue above =>
      obtain ⟨low,high,rest⟩ := classFor_spec rounds (i+1) (by rwa [Nat.add_right_comm]) (Or.inr above)
      exact ⟨by omega,by omega,rest⟩
    case isFalse below => exact ⟨Nat.le_refl i,by omega,Nat.le_of_not_lt below,least⟩

private theorem classOf_spec (small : size ≤ 2^kmallocShiftHigh) :
    3 ≤ classOf size ∧ classOf size ≤ 11 ∧ size ≤ 2^classOf size ∧ (classOf size = 3 ∨ 2^(classOf size - 1) < size) :=
  classFor_spec 8 3 small (Or.inl rfl)

theorem classOf_low (small : size ≤ 2^kmallocShiftHigh) (leaves : size + sizeofSlab ≤ 2^classOf size) : 7 ≤ classOf size := by
  obtain ⟨low,high,fits,least⟩ := classOf_spec small
  by_contra less
  have above : 2^classOf size ≤ 2^6 := Nat.pow_le_pow_right (by decide) (by omega)
  simp only [sizeofSlab] at leaves
  rcases least with three | more
  · rw [three] at leaves
    omega
  · have half : 2^classOf size = 2 * 2^(classOf size - 1) := by
      rw [← Nat.pow_succ',Nat.succ_eq_add_one,show classOf size - 1 + 1 = classOf size by omega]
    omega

theorem orderFor_fits : ∀ rounds order : Nat, size ≤ pageSize <<< (order+rounds) → size ≤ pageSize <<< orderFor size rounds order
  | 0, _, fits => fits
  | rounds+1, order, fits => by
    rw [orderFor]
    split
    · exact orderFor_fits rounds (order+1) (by rwa [Nat.add_right_comm])
    case isFalse below => exact Nat.le_of_not_lt below

end

/-- A cache with no slab, or with the slab at `base`. -/
def CacheOk (memory : Nat → UInt8) (cache : Cache) (i : Nat) (popped : Nat) : Option Nat → Prop
  | none => cache.slabOrder = 1 ∧ (7 ≤ i → Shape cache i) ∧ ∀ k, cache.heads k = 0
  | some base => Opened ⟨memory,cache⟩ i base popped

/-- A live result is a block of its own, or an object that a slab has handed out. -/
inductive Placed (opened : Nat → Option Nat) (popped : Nat → Nat) (blocks : List (Nat × Nat)) : Nat × Nat → Prop
  | pages (p size order : Nat) : (p,order) ∈ blocks → (∀ i, opened i ≠ some p) → size ≤ pageSize <<< order →
      Placed opened popped blocks (p,size)
  | object (i base m size : Nat) : opened i = some base → m < room i → room i - popped i ≤ m → size ≤ 2^i →
      (m = room i - 1 → size + sizeofSlab ≤ 2^i) → Placed opened popped blocks (base + m * 2^i,size)

/-- The slab of each class, and how many objects it has handed out. -/
structure Inv (s : State) (opened : Nat → Option Nat) (popped : Nat → Nat) : Prop where
  pages : Pages s.heap.blocks s.heap.flags
  caches : ∀ i, 3 ≤ i → i ≤ 11 → ∃ cache, s.heap.caches i = some cache ∧ CacheOk s.heap.mem cache i (popped i) (opened i)
  classes : ∀ i base, opened i = some base → 7 ≤ i ∧ i ≤ 11
  slabBlocks : ∀ i base, opened i = some base → (base,1) ∈ s.heap.blocks
  distinct : ∀ i j base, opened i = some base → opened j = some base → i = j
  slabs : ∀ slab ∈ s.slabs, ∃ i base, opened i = some base ∧ slab = header base
  known : ∀ i base, opened i = some base → header base ∈ s.slabs
  live : ∀ a ∈ s.live, Placed opened popped s.heap.blocks a
  fresh : (s.live.map Prod.fst).Nodup

section
variable {s : State} {opened opened' : Nat → Option Nat} {popped popped' : Nat → Nat}
  {blocks : List (Nat × Nat)} {a b : Nat × Nat} {w : World} {h heap : Heap}
variable {i j m base size pages order fuel : Nat} {memory : Nat → UInt8} {cache : Cache}

private theorem slab_extent : pageSize <<< 1 = 8192 := by decide

theorem Placed.block (placed : Placed opened popped s.heap.blocks a) (inv : Inv s opened popped) :
    ∃ b ∈ s.heap.blocks, b.1 ≤ a.1 ∧ a.1 < b.1 + pageSize <<< b.2 ∧ a.1 + a.2 ≤ b.1 + pageSize <<< b.2 := by
  cases placed with
  | pages p size order held other fits =>
    have large := extent_pos order
    exact ⟨_,held,Nat.le_refl p,by dsimp only; omega,by dsimp only; omega⟩
  | object i base m size open_ less out fits last =>
    have ends := object_end (inv.classes i base open_).2 less
    have large := Nat.two_pow_pos i
    refine ⟨_,inv.slabBlocks i base open_,?_⟩
    rw [slab_extent]
    omega

private theorem objects_apart {n : Nat} (less : m < n) (fits : size ≤ 2^i) : base + m * 2^i + size ≤ base + n * 2^i := by
  have next : (m+1) * 2^i ≤ n * 2^i := Nat.mul_le_mul_right _ less
  rw [Nat.succ_mul] at next
  omega

section
variable (inv : Inv s opened popped)
include inv

theorem Inv.pages_apart {p : Nat} (held : (p,order) ∈ s.heap.blocks) (other : ∀ i, opened i ≠ some p)
    (open_ : opened i = some base) : Apart p (pageSize <<< order) base 8192 := by
  exact inv.pages.disjoint held (inv.slabBlocks i base open_) (fun same => other i (open_.trans (congrArg some same.symm)))

theorem Inv.slabs_apart {base' : Nat} (open_ : opened i = some base) (other : opened j = some base')
    (different : i ≠ j) : Apart base 8192 base' 8192 := by
  refine inv.pages.disjoint (inv.slabBlocks i base open_) (inv.slabBlocks j base' other) ?_
  rintro rfl
  exact different (inv.distinct i j _ open_ other)

theorem Inv.placed_apart (first : Placed opened popped s.heap.blocks a)
    (second : Placed opened popped s.heap.blocks b) (different : a.1 ≠ b.1) : Apart a.1 a.2 b.1 b.2 := by
  cases first with
  | pages p size order held other fits =>
    cases second with
    | pages p' size' order' held' other' fits' =>
      have apart : Apart p _ p' _ := inv.pages.disjoint held held' different
      unfold Apart at apart ⊢
      dsimp only at apart
      omega
    | object i base m size' open_ less out fits' last =>
      have ends := object_end (inv.classes i base open_).2 less
      have apart := inv.pages_apart held other open_
      unfold Apart at apart ⊢
      omega
  | object i base m size open_ less out fits last =>
    have ends := object_end (inv.classes i base open_).2 less
    cases second with
    | pages p' size' order' held' other' fits' =>
      have apart := inv.pages_apart held' other' open_
      unfold Apart at apart ⊢
      omega
    | object j base' n size' open_' less' out' fits' last' =>
      by_cases same : i = j
      · subst same
        obtain rfl : base = base' := Option.some.inj (open_.symm.trans open_')
        rcases Nat.lt_trichotomy m n with before | equal | after
        · exact Or.inl (objects_apart before fits)
        · exact absurd (by rw [equal]) different
        · exact Or.inr (objects_apart after fits')
      · have ends' := object_end (inv.classes j base' open_').2 less'
        have apart := inv.slabs_apart open_ open_' same
        unfold Apart at apart ⊢
        omega

theorem Inv.placed_header (placed : Placed opened popped s.heap.blocks a) (open_ : opened i = some base) :
    Apart a.1 a.2 (header base) sizeofSlab := by
  cases placed with
  | pages p size order held other fits =>
    have apart := inv.pages_apart held other open_
    unfold Apart at apart ⊢
    simp only [header,sizeofSlab]
    omega
  | object j base' m size open_' less out fits last =>
    have ends := object_end (inv.classes j base' open_').2 less
    by_cases same : i = j
    · subst same
      obtain rfl : base = base' := Option.some.inj (open_.symm.trans open_')
      obtain ⟨low,high⟩ := inv.classes i base open_
      have large := room_bounds low high
      left
      simp only [header,sizeofSlab] at last ⊢
      by_cases final : m = room i - 1
      · omega
      · have ends' := object_end (i := i) (j := m+1) high (by omega)
        rw [Nat.succ_mul] at ends'
        omega
    · have apart := inv.slabs_apart open_ open_' same
      unfold Apart at apart ⊢
      simp only [header,sizeofSlab]
      omega

theorem Inv.sound : Sound s where
  room := by
    intro a member
    obtain ⟨b,held,low,_,high⟩ := (inv.live a member).block inv
    exact ⟨b,held,low,high⟩
  apart := by
    have distinct : s.live.Pairwise (fun a b => a.1 ≠ b.1) := List.pairwise_map.mp inv.fresh
    exact distinct.imp_of_mem (fun first second different => inv.placed_apart (inv.live _ first) (inv.live _ second) different)
  headers := by
    intro a member slab known
    obtain ⟨i,base,open_,same⟩ := inv.slabs slab known
    rw [same]
    exact inv.placed_header (inv.live a member) open_

end

theorem Placed.grow {blocks' : List (Nat × Nat)}
    (placed : Placed opened popped blocks a) (more : ∀ b ∈ blocks, b ∈ blocks')
    (keeps : ∀ i base, opened i = some base → opened' i = some base ∧ popped i ≤ popped' i)
    (new : ∀ i base, opened' i = some base → opened i = some base ∨ ∀ order, (base,order) ∉ blocks) :
    Placed opened' popped' blocks' a := by
  cases placed with
  | pages p size order held other fits =>
    refine .pages p size order (more _ held) (fun i same => ?_) fits
    rcases new i p same with old | none
    · exact other i old
    · exact none order held
  | object i base m size open_ less out fits last =>
    obtain ⟨kept,least⟩ := keeps i base open_
    exact .object i base m size kept less (by omega) fits last

section
variable (inv : Inv s opened popped)
include inv

theorem Inv.not_live (fits : Fits order pages s.heap) : pages ∉ s.live.map Prod.fst := by
  intro member
  obtain ⟨a,live,same⟩ := List.mem_map.mp member
  obtain ⟨b,held,low,high,_⟩ := (inv.live a live).block inv
  have apart := fits.2.2.2.2 b held
  have large := extent_pos order
  unfold Apart at apart
  omega

theorem Inv.grant (fits : Fits order pages s.heap) (some : pages ≠ 0) (room : size ≤ pageSize <<< order) :
    Inv ⟨(allocPages order pages s.heap).2,s.slabs,(pages,size) :: s.live⟩ opened popped := by
  rw [allocPages,if_neg some]
  have apart : ∀ i, opened i ≠ .some pages := fun i same => fits.ne (inv.slabBlocks i pages same) rfl
  refine ⟨inv.pages.alloc fits some,inv.caches,inv.classes,?_,inv.distinct,inv.slabs,inv.known,?_,?_⟩
  · exact fun i base open_ => List.mem_cons_of_mem _ (inv.slabBlocks i base open_)
  · refine List.forall_mem_cons.mpr ⟨.pages pages size order List.mem_cons_self apart room,fun a old => ?_⟩
    exact (inv.live a old).grow (fun _ held => List.mem_cons_of_mem _ held) (fun _ _ open_ => ⟨open_,Nat.le_refl _⟩)
      (fun _ _ open_ => Or.inl open_)
  · exact List.nodup_cons.mpr ⟨inv.not_live fits,inv.fresh⟩

theorem Inv.caches_within (served : Opened w i base (popped' i)) (at_ : opened' i = some base)
    (same : ∀ j, j ≠ i → opened' j = opened j ∧ popped' j = popped j) (wrote : Within base ⟨s.heap.mem,cache⟩ w)
    (apart : ∀ j base', j ≠ i → opened j = some base' → Apart base 8192 base' 8192) :
    ∀ j, 3 ≤ j → j ≤ 11 → ∃ cache, update s.heap.caches i (some w.cache) j = some cache ∧
      CacheOk w.mem cache j (popped' j) (opened' j) := by
  refine update_cases (fun _ _ => ?_) (fun j here low high => ?_)
  · rw [at_]
    exact ⟨w.cache,rfl,served⟩
  · obtain ⟨other,held,ok⟩ := inv.caches j low high
    rw [(same j here).1,(same j here).2]
    refine ⟨other,held,?_⟩
    cases found : opened j with
    | none =>
      rw [found] at ok
      exact ok
    | some base' =>
      rw [found] at ok
      refine Opened.frame ok rfl (fun a inside below => wrote a ?_)
      have away := apart j base' here found
      unfold Apart at away
      omega

theorem Inv.serve (open_ : opened i = some base) (less : popped i < room i)
    (started : 0 < popped i) (fits : size ≤ 2^i) (served : Opened w i base (popped i + 1)) (wrote : Within base ⟨s.heap.mem,cache⟩ w) :
    Inv ⟨{ s.heap with mem := w.mem, caches := update s.heap.caches i (some w.cache) },s.slabs,
      (base + (room i - popped i - 1) * 2^i,size) :: s.live⟩ opened (update popped i (popped i + 1)) := by
  have more : ∀ j, popped j ≤ update popped i (popped i + 1) j := update_cases (Nat.le_succ _) (fun _ _ => Nat.le_refl _)
  refine ⟨inv.pages,?_,inv.classes,inv.slabBlocks,inv.distinct,inv.slabs,inv.known,?_,?_⟩
  · refine inv.caches_within (by rwa [update_self]) open_ (fun j other => ⟨rfl,update_of_ne other _ _⟩) wrote ?_
    exact fun j base' other found => inv.slabs_apart open_ found (Ne.symm other)
  · refine List.forall_mem_cons.mpr ⟨?_,fun a old => ?_⟩
    · refine .object i base (room i - popped i - 1) size open_ (by omega) ?_ fits (fun last => by omega)
      rw [update_self]
      omega
    · exact (inv.live a old).grow (fun _ held => held) (fun j _ found => ⟨found,more j⟩) (fun _ _ found => Or.inl found)
  · refine List.nodup_cons.mpr ⟨?_,inv.fresh⟩
    intro member
    obtain ⟨a,live,same⟩ := List.mem_map.mp member
    have ends := object_end (i := i) (j := room i - popped i - 1) (inv.classes i base open_).2 (by omega)
    have positive := Nat.two_pow_pos i
    -- the object was free, so what is live there would be in another block
    cases inv.live a live with
    | pages p size' order held other fits' =>
      have apart := inv.pages_apart held other open_
      have large := extent_pos order
      unfold Apart at apart
      omega
    | object j base' n size' open_' less' out' fits' last' =>
      have ends' := object_end (inv.classes j base' open_').2 less'
      have positive' := Nat.two_pow_pos j
      by_cases class_ : j = i
      · subst class_
        obtain rfl : base = base' := Option.some.inj (open_.symm.trans open_')
        have equal : n = room j - popped j - 1 := Nat.eq_of_mul_eq_mul_right positive (by omega)
        omega
      · have apart := inv.slabs_apart open_' open_ class_
        unfold Apart at apart
        omega

theorem Inv.create (closed : opened i = none) (low : 7 ≤ i) (high : i ≤ 11)
    (fits : Fits 1 pages s.heap) (some : pages ≠ 0) (leaves : size + sizeofSlab ≤ 2^i) (served : Opened w i pages 1)
    (wrote : Within pages ⟨s.heap.mem,cache⟩ w) :
    Inv ⟨{ (allocPages 1 pages s.heap).2 with mem := w.mem, caches := update s.heap.caches i (.some w.cache) },
      header pages :: s.slabs,(pages + (room i - 1) * 2^i,size) :: s.live⟩
      (update opened i (.some pages)) (update popped i 1) := by
  rw [allocPages,if_neg some]
  have many := room_bounds low high
  have ne : ∀ j base, opened j = .some base → j ≠ i := by
    rintro j base found rfl
    rw [closed] at found
    cases found
  have away : ∀ j base, opened j = .some base → base ≠ pages := fun j base found => fits.ne (inv.slabBlocks j base found)
  refine ⟨inv.pages.alloc fits some,?_,?_,?_,?_,?_,?_,?_,?_⟩
  · refine inv.caches_within (by rwa [update_self]) (update_self ..)
      (fun j other => ⟨update_of_ne other _ _,update_of_ne other _ _⟩) wrote ?_
    intro j base' other found
    have apart := fits.2.2.2.2 _ (inv.slabBlocks j base' found)
    rwa [slab_extent] at apart
  · intro j base found
    rcases Slots.of_put found with ⟨here,_⟩ | ⟨_,old⟩
    · exact ⟨by omega,by omega⟩
    · exact inv.classes j base old
  · intro j base found
    rcases Slots.of_put found with ⟨_,rfl⟩ | ⟨_,old⟩
    · exact List.mem_cons_self
    · exact List.mem_cons_of_mem _ (inv.slabBlocks j base old)
  · intro j k base first second
    rcases Slots.of_put first with ⟨hereJ,newJ⟩ | ⟨_,oldJ⟩ <;> rcases Slots.of_put second with ⟨hereK,newK⟩ | ⟨_,oldK⟩
    · rw [hereJ,hereK]
    · exact absurd newJ (away k base oldK)
    · exact absurd newK (away j base oldJ)
    · exact inv.distinct j k base oldJ oldK
  · refine List.forall_mem_cons.mpr ⟨⟨i,pages,update_self ..,rfl⟩,fun slab old => ?_⟩
    obtain ⟨j,base,found,same⟩ := inv.slabs slab old
    exact ⟨j,base,by rwa [update_of_ne (ne j base found)],same⟩
  · intro j base found
    rcases Slots.of_put found with ⟨_,rfl⟩ | ⟨_,old⟩
    · exact List.mem_cons_self
    · exact List.mem_cons_of_mem _ (inv.known j base old)
  · refine List.forall_mem_cons.mpr ⟨?_,fun a old => ?_⟩
    · refine .object i pages (room i - 1) size (update_self ..) (by omega) ?_ (by omega) (fun _ => leaves)
      rw [update_self]
    · refine (inv.live a old).grow (fun _ held => List.mem_cons_of_mem _ held) ?_ ?_
      · intro j base found
        rw [update_of_ne (ne j base found),update_of_ne (ne j base found)]
        exact ⟨found,Nat.le_refl _⟩
      · intro j base found
        rcases Slots.of_put found with ⟨_,rfl⟩ | ⟨_,old⟩
        · exact Or.inr (fun order held => fits.ne held rfl)
        · exact Or.inl old
  · refine List.nodup_cons.mpr ⟨?_,inv.fresh⟩
    intro member
    obtain ⟨a,live,same⟩ := List.mem_map.mp member
    obtain ⟨b,held,below,above,_⟩ := (inv.live a live).block inv
    have apart := fits.2.2.2.2 b held
    have ends := object_end (i := i) (j := room i - 1) high (by omega)
    rw [slab_extent] at apart
    unfold Apart at apart
    omega

end

private theorem kmemCacheAlloc_closed (heads : ∀ k, cache.heads k = 0) : kmemCacheAlloc 0 ⟨memory,cache⟩ = (0,⟨memory,cache⟩) := by
  simp [kmemCacheAlloc,slabForAlloc,slabCreate,heads]

private theorem asked_large (large : 2^kmallocShiftHigh < size) (h : Heap) : asked size h = some (orderFor size maxOrder 0) := by
  rw [asked,if_neg (Nat.ne_of_gt (Nat.zero_lt_of_lt large)),if_pos large]

private theorem asked_small (positive : size ≠ 0) (small : size ≤ 2^kmallocShiftHigh) (held : h.caches (classOf size) = some cache) :
    asked size h = if cache.heads .part = 0 ∧ cache.heads .empty = 0 then some cache.slabOrder else none := by
  rw [asked,if_neg positive,if_neg (by omega),held]
  rfl

theorem kmalloc_large (large : 2^kmallocShiftHigh < size) (pages : Nat) :
    kmalloc size pages h = allocPages (orderFor size maxOrder 0) pages h := by
  rw [kmalloc,asked_large large]
  dsimp only
  rw [if_neg (Nat.ne_of_gt (Nat.zero_lt_of_lt large)),if_pos large]

theorem kmalloc_small (pages : Nat) (positive : size ≠ 0) (small : size ≤ 2^kmallocShiftHigh) (granted : Nat × Heap)
    (answer : (match asked size h with | some order => allocPages order pages h | none => (0,h)) = granted)
    (held : granted.2.caches (classOf size) = some cache) :
    kmalloc size pages h = ((kmemCacheAlloc granted.1 ⟨granted.2.mem,cache⟩).1,
      { granted.2 with
        mem := (kmemCacheAlloc granted.1 ⟨granted.2.mem,cache⟩).2.mem
        caches := update granted.2.caches (classOf size) (some (kmemCacheAlloc granted.1 ⟨granted.2.mem,cache⟩).2.cache) }) := by
  rw [kmalloc,answer]
  dsimp only
  rw [if_neg positive,if_neg (by omega),held]

private theorem newSlab_of_none (none : asked size h = none) : newSlab size pages h = [] := by simp [newSlab,none]

private theorem newSlab_zero : newSlab size 0 h = [] := by simp [newSlab]

/-- The invariant goes through a call. -/
abbrev Kept (fuel : Nat) (s : State) (a : Request) : Prop := ∃ t, step fuel s a = some t ∧ ∃ opened popped, Inv t opened popped

private theorem step_kmalloc : step fuel s (.kmalloc size pages) = some ⟨(kmalloc size pages s.heap).2,newSlab size pages s.heap ++ s.slabs,
    if (kmalloc size pages s.heap).1 = 0 then s.live else ((kmalloc size pages s.heap).1,size) :: s.live⟩ := rfl

section
variable (inv : Inv s opened popped)
include inv

theorem Inv.refused (same : heap = s.heap) : Inv ⟨heap,s.slabs,s.live⟩ opened popped := by
  rw [same]
  exact inv

theorem Inv.kmalloc_open (positive : size ≠ 0) (small : size ≤ 2^kmallocShiftHigh)
    (open_ : opened (classOf size) = some base) :
    Kept fuel s (.kmalloc size pages) := by
  obtain ⟨low,high,fits,_⟩ := classOf_spec small
  obtain ⟨cache,held,ok⟩ := inv.caches _ low high
  rw [open_] at ok
  have none : asked size s.heap = none := by
    have head : cache.heads .part = header base := ok.chained.part
    rw [asked_small positive small held,if_neg]
    rw [head,header]
    omega
  have ran := kmalloc_small pages positive small (0,s.heap) (by rw [none]) held
  refine ⟨_,step_kmalloc,?_⟩
  rw [ran,newSlab_of_none none]
  by_cases less : popped (classOf size) < room (classOf size)
  · obtain ⟨w,served,opened',wrote⟩ := opened_alloc ok less 0
    rw [served]
    refine ⟨opened,update popped (classOf size) (popped (classOf size) + 1),?_⟩
    have large := ok.chained.inside
    rw [if_neg (by dsimp only; omega)]
    exact inv.serve open_ less ok.started fits opened' wrote
  · have all : popped (classOf size) = room (classOf size) := Nat.le_antisymm ok.few (Nat.le_of_not_lt less)
    rw [all] at ok
    rw [opened_spent ok]
    refine ⟨opened,popped,inv.refused ?_⟩
    rw [← held,update_eq_self]

section
variable (legal : Legal s (.kmalloc size pages)) (meets : Meets s (.kmalloc size pages))
include legal meets

theorem Inv.kmalloc_large (large : 2^kmallocShiftHigh < size) : Kept fuel s (.kmalloc size pages) := by
  have none : newSlab size pages s.heap = [] := by
    rw [newSlab,if_neg]
    omega
  refine ⟨_,step_kmalloc,opened,popped,?_⟩
  rw [Kmalloc.kmalloc_large large,none]
  by_cases zero : pages = 0
  · rw [zero,allocPages]
    exact inv
  · have fits := (legal.2 _ (asked_large large s.heap)).resolve_left zero
    have bounded : size ≤ 2^23 := by
      have condition := meets.resolve_left zero
      rwa [if_neg (by omega)] at condition
    have granted := inv.grant fits zero (orderFor_fits maxOrder 0 bounded)
    rw [show (allocPages (orderFor size maxOrder 0) pages s.heap).1 = pages by rw [allocPages,if_neg zero]]
    simpa [zero] using granted

theorem Inv.kmalloc_closed (positive : size ≠ 0) (small : size ≤ 2^kmallocShiftHigh)
    (closed : opened (classOf size) = none) : Kept fuel s (.kmalloc size pages) := by
  obtain ⟨low,high,fits,_⟩ := classOf_spec small
  obtain ⟨cache,held,ok⟩ := inv.caches _ low high
  rw [closed] at ok
  obtain ⟨order,shape,heads⟩ := ok
  have asks : asked size s.heap = some 1 := by
    rw [asked_small positive small held,if_pos ⟨heads _,heads _⟩,order]
  refine ⟨_,step_kmalloc,?_⟩
  by_cases zero : pages = 0
  · have ran := kmalloc_small 0 positive small (0,s.heap) (by rw [asks]; rfl) held
    rw [zero,ran,newSlab_zero]
    rw [kmemCacheAlloc_closed heads]
    refine ⟨opened,popped,inv.refused ?_⟩
    rw [← held,update_eq_self]
  · have fitsPages := (legal.2 _ asks).resolve_left zero
    have leaves : size + sizeofSlab ≤ 2^classOf size := by
      have condition := meets.resolve_left zero
      rw [if_pos small,asks] at condition
      exact condition.resolve_left nofun
    have class_ := classOf_low small leaves
    have inside : 0 < pages ∧ pages + 8192 < 2^64 := by
      have bounded := fitsPages.2.2.2.1
      rw [slab_extent] at bounded
      omega
    obtain ⟨w,served,opened',wrote⟩ := opened_create (w := ⟨s.heap.mem,cache⟩) (shape class_) heads inside
    have granted : allocPages 1 pages s.heap = (pages,(allocPages 1 pages s.heap).2) := by rw [allocPages,if_neg zero]
    have caches : (allocPages 1 pages s.heap).2.caches = s.heap.caches := by rw [allocPages,if_neg zero]
    have memory : (allocPages 1 pages s.heap).2.mem = s.heap.mem := by rw [allocPages,if_neg zero]
    have ran := kmalloc_small pages positive small (pages,(allocPages 1 pages s.heap).2)
      (by rw [asks]; exact granted) (by rw [caches]; exact held)
    have made : newSlab size pages s.heap = [header pages] := by
      rw [newSlab,if_pos ⟨small,by rw [asks]; simp,zero⟩]
    rw [memory,caches,served] at ran
    rw [ran,made]
    rw [if_neg (by omega)]
    exact ⟨_,_,inv.create closed class_ high fitsPages zero leaves opened' wrote⟩

theorem Inv.kmalloc : Kept fuel s (.kmalloc size pages) := by
  by_cases zero : size = 0
  · subst zero
    exact ⟨s,rfl,opened,popped,inv⟩
  · by_cases small : size ≤ 2^kmallocShiftHigh
    · cases found : opened (classOf size) with
      | none => exact inv.kmalloc_closed legal meets zero small found
      | some base => exact inv.kmalloc_open zero small found
    · exact inv.kmalloc_large legal meets (Nat.lt_of_not_le small)

end

end

theorem Inv.forget (ptr : Nat) (inv : Inv s opened popped) (pages : Pages heap.blocks heap.flags)
    (memory : heap.mem = s.heap.mem) (caches : heap.caches = s.heap.caches)
    (slabs : ∀ i base, opened i = some base → (base,1) ∈ heap.blocks)
    (others : ∀ p order, p ≠ ptr → (p,order) ∈ s.heap.blocks → (p,order) ∈ heap.blocks) :
    Inv ⟨heap,s.slabs,s.live.filter (fun a => a.1 ≠ ptr)⟩ opened popped := by
  refine ⟨pages,?_,inv.classes,slabs,inv.distinct,inv.slabs,inv.known,?_,?_⟩
  · rw [memory,caches]
    exact inv.caches
  · intro a member
    obtain ⟨live,other⟩ := List.mem_filter.mp member
    cases inv.live a live with
    | pages p size order held alone fits => exact .pages p size order (others p order (by simpa using other) held) alone fits
    | object i base m size open_ less out fits last => exact .object i base m size open_ less out fits last
  · exact inv.fresh.sublist (List.filter_sublist.map _)

theorem Inv.kfree {ptr : Nat} (inv : Inv s opened popped) (legal : Legal s (.kfree ptr)) (meets : Meets s (.kfree ptr)) :
    Kept fuel s (.kfree ptr) := by
  have same := inv.forget ptr inv.pages rfl rfl inv.slabBlocks (fun _ _ _ held => held)
  rw [Kept,step,Kmalloc.kfree]
  split
  · exact ⟨_,rfl,opened,popped,same⟩
  · rw [if_neg (by rw [inv.pages.not_slab]; simp)]
    refine ⟨_,rfl,opened,popped,?_⟩
    obtain ⟨a,live,rfl⟩ := List.mem_map.mp legal
    cases inv.live a live with
    | pages p size order held alone fits =>
      have starts : p / pageSize * pageSize = p :=
        Nat.div_mul_cancel (Nat.dvd_of_mod_eq_zero (inv.pages.whole _ held).2.1)
      refine inv.forget _ (inv.pages.free _) freePages_mem freePages_caches ?_ ?_
      · intro i base found
        refine freePages_keeps ?_ (inv.slabBlocks i base found)
        rw [starts]
        exact fun equal => alone i (found.trans (congrArg some equal))
      · intro p' order' other held'
        refine freePages_keeps ?_ held'
        rw [starts]
        exact other
    | object i base m size open_ less out fits last =>
      -- the page of the object is the second one of its slab, which begins no block
      have ends := object_end (inv.classes i base open_).2 less
      have large := Nat.two_pow_pos i
      have second := meets (header base) (inv.known i base open_)
      have aligned := (inv.pages.whole _ (inv.slabBlocks i base open_)).2.1
      have page : (base + m * 2^i) / pageSize * pageSize = base + 4096 := by
        simp only [header,pageSize] at second aligned ⊢
        omega
      have none : ∀ b ∈ s.heap.blocks, b.1 ≠ (base + m * 2^i) / pageSize * pageSize := by
        intro b held equal
        have positive := extent_pos b.2
        have apart := inv.pages.disjoint held (inv.slabBlocks i base open_) (by omega)
        rw [slab_extent] at apart
        unfold Apart at apart
        omega
      rw [freePages_of_none inv.pages none]
      exact same

theorem inv_step (s : State) (a : Request) (inv : ∃ opened popped, Inv s opened popped) (ok : Legal s a ∧ Meets s a) :
    Kept fuel s a := by
  obtain ⟨opened,popped,inv⟩ := inv
  cases a with
  | kmalloc size pages => exact inv.kmalloc ok.1 ok.2
  | kfree ptr => exact inv.kfree ok.1 ok.2

theorem slabInit_cache (low : 3 ≤ i) (high : i ≤ 11) :
    ∃ cache, kmemCacheCreate (i - 3) (BitVec.ofNat 32 (2^i)) (BitVec.ofNat 32 (2^i)) = some cache ∧ cache.slabOrder = 1 ∧
      cache.objSize = 2^i ∧ cache.objsPerSlab = room i ∧ ∀ k, cache.heads k = 0 := by
  interval_cases i <;> exact ⟨_,rfl,by decide,by decide,by decide,fun _ => rfl⟩

theorem start_inv (memory : Nat → UInt8) (basePfn endPfn : Nat) : Inv (start memory basePfn endPfn) (fun _ => none) (fun _ => 0) where
  pages := ⟨.nil,nofun,fun pfn => by simp [start,slabInit]⟩
  caches := by
    intro i low high
    obtain ⟨cache,made,order,size,count,heads⟩ := slabInit_cache low high
    refine ⟨cache,?_,order,fun least => ⟨least,high,size,count,order⟩,heads⟩
    exact (if_pos ⟨low,high⟩).trans made
  classes := nofun
  slabBlocks := nofun
  distinct := nofun
  slabs := nofun
  known := nofun
  live := nofun
  fresh := List.nodup_nil

end

/-- While no request reaches into the header of its slab, what is handed out is apart from everything in use. -/
theorem kmalloc_run_apart (memory : Nat → UInt8) (basePfn endPfn fuel : Nat) (requests : List Request)
    (guarded : Guarded (step fuel) (fun s a => Legal s a ∧ Meets s a) (start memory basePfn endPfn) requests) :
    ∃ s, run (step fuel) (start memory basePfn endPfn) requests = some s ∧ Sound s := by
  obtain ⟨s,ran,opened,popped,inv⟩ :=
    run_invariant inv_step requests _ ⟨_,_,start_inv memory basePfn endPfn⟩ guarded
  exact ⟨s,ran,inv.sound⟩

def served : List Request :=
  [.kmalloc 1500 65536, .kmalloc 2048 0, .kmalloc 100 0, .kmalloc 5000 131072, .kfree 131072, .kfree 69632, .kmalloc 8388608 8388608]

theorem kmalloc_run_apart_of_served :
    Guarded (step 4) (fun s a => Legal s a ∧ Meets s a) (start (fun _ => 0) 1 65536) served ∧
      ∃ s, run (step 4) (start (fun _ => 0) 1 65536) served = some s ∧ Sound s :=
  have guarded : Guarded (step 4) (fun s a => Legal s a ∧ Meets s a) (start (fun _ => 0) 1 65536) served := by decide +kernel
  ⟨guarded,kmalloc_run_apart (fun _ => 0) 1 65536 4 served guarded⟩

/-- After every such run `kfree` of any pointer into the first page of a block gives the pages of the whole block
    back and changes no cache: no object goes back to its slab, whatever else is live in it. -/
theorem kmalloc_run_gives_back (memory : Nat → UInt8) (basePfn endPfn fuel : Nat) (requests : List Request)
    (guarded : Guarded (step fuel) (fun s a => Legal s a ∧ Meets s a) (start memory basePfn endPfn) requests) :
    ∃ s, run (step fuel) (start memory basePfn endPfn) requests = some s ∧
      ∀ base order ptr, (base,order) ∈ s.heap.blocks → ptr / pageSize = base / pageSize →
        s.heap.basePfn ≤ base / pageSize → base / pageSize < s.heap.endPfn →
        ∃ h, kfree fuel ptr s.heap = some h ∧ h.caches = s.heap.caches ∧ ∀ order, (base,order) ∉ h.blocks := by
  obtain ⟨s,ran,opened,popped,inv⟩ :=
    run_invariant inv_step requests _ ⟨_,_,start_inv memory basePfn endPfn⟩ guarded
  refine ⟨s,ran,fun base order ptr held page low high => ?_⟩
  obtain ⟨positive,aligned,_⟩ := inv.pages.whole _ held
  have starts : base / pageSize * pageSize = base := Nat.div_mul_cancel (Nat.dvd_of_mod_eq_zero aligned)
  have marked : s.heap.flags (base / pageSize) = flagUsed := by rw [inv.pages.flags,if_pos ⟨_,held,starts.symm⟩]
  refine ⟨freePages (base / pageSize) s.heap,?_,freePages_caches,?_⟩
  · have some : ptr ≠ 0 := by
      rintro rfl
      rw [Nat.zero_div] at page
      rw [← page] at starts
      omega
    rw [kfree,page,if_neg (by omega),if_neg (by rw [inv.pages.not_slab]; simp)]
  · intro order
    rw [freePages,if_neg (by rw [marked]; decide)]
    simp [starts]

theorem kmalloc_run_gives_back_three : ∃ s h, run (step 4) (start (fun _ => 0) 1 65536)
    [.kmalloc 1500 65536,.kmalloc 1500 0,.kmalloc 1500 0] = some s ∧ s.live.map Prod.fst = [67584,69632,71680] ∧
      kfree 4 67584 s.heap = some h ∧ (65536,1) ∉ h.blocks := by
  obtain ⟨s,ran,back⟩ := kmalloc_run_gives_back (fun _ => 0) 1 65536 4
    [.kmalloc 1500 65536,.kmalloc 1500 0,.kmalloc 1500 0] (by decide +kernel)
  have seen : (run (step 4) (start (fun _ => 0) 1 65536) [.kmalloc 1500 65536,.kmalloc 1500 0,.kmalloc 1500 0]).map
      (fun s => (s.live.map Prod.fst,s.heap.blocks,s.heap.basePfn,s.heap.endPfn)) =
        some ([67584,69632,71680],[(65536,1)],1,65536) := by
    decide +kernel
  rw [ran] at seen
  simp only [Option.map_some,Option.some.injEq,Prod.mk.injEq] at seen
  obtain ⟨live,held,low,high⟩ := seen
  obtain ⟨h,freed,-,gone⟩ := back 65536 1 67584 (by simp [held]) rfl (by rw [low]; decide) (by rw [high]; decide)
  exact ⟨s,h,ran,live,freed,gone 1⟩

/-- The first object of a class overlaps the header of its slab, and a request above eight
    megabytes gets too few bytes. -/
theorem kmalloc_overlaps :
    (Guarded (step 4) Legal (start (fun _ => 0) 1 65536) [.kmalloc 2048 65536] ∧
      ∃ s, run (step 4) (start (fun _ => 0) 1 65536) [.kmalloc 2048 65536] = some s ∧ ¬ Sound s) ∧
    (Guarded (step 4) Legal (start (fun _ => 0) 1 65536) [.kmalloc 8388609 8388608] ∧
      ∃ s, run (step 4) (start (fun _ => 0) 1 65536) [.kmalloc 8388609 8388608] = some s ∧ ¬ Sound s) := by
  have unsound : ∀ s, decide (Sound s) = false → ¬ Sound s := fun _ => of_decide_eq_false
  constructor
  · exact ⟨by decide +kernel,run_shows (fun s => decide (Sound s)) false (by decide +kernel) unsound⟩
  · exact ⟨by decide +kernel,run_shows (fun s => decide (Sound s)) false (by decide +kernel) unsound⟩

end Kenux.Kmalloc
