import Mathlib.Data.List.Perm.Subperm
import Kenux.Blocks
import Kenux.Words

/-!
The buddy allocator of page frames (`buddy.c`). A pointer to a page record is the
record's index in the page array, or nothing for `NULL`. A function returns
`none` where the code reads or writes through `NULL` or walks a list for ever.
A run starts at `buddyInit` and takes allocations and frees of live blocks. In a
run in which no block is split across its alignment and no free list loses its
first page to a merge (`Meets`), the blocks stay apart (`buddy_run_safe`).
-/
namespace Kenux.Buddy
open Kenux.Blocks Kenux.Links Kenux.Runs Kenux.Words
open Function (update update_self update_of_ne update_apply)

def pageSize : Nat := 4096
def maxOrder : Nat := 11
def sizeofPage : Nat := 32
def flagUsed : BitVec 32 := 1

structure Page where
  next : Option Nat
  prev : Option Nat
  order : Nat
  flags : BitVec 32
  pfn : Nat
  deriving DecidableEq, Repr

structure Zone where
  freeList : Nat → Option Nat
  freeCount : Nat → Nat
  pages : Nat → Page
  pageArray : Nat
  totalPages : Nat
  usedPages : Nat
  reservedPages : Nat
  basePfn : Nat
  endPfn : Nat

variable (z : Zone)

def Zone.setPage (i : Nat) (f : Page → Page) : Zone :=
  { z with pages := update z.pages i (f (z.pages i)) }

def listDel (page : Nat) : Zone :=
  let z := match (z.pages page).prev with
    | some q => z.setPage q (fun r => { r with next := (z.pages page).next })
    | none => z
  let z := match (z.pages page).next with
    | some q => z.setPage q (fun r => { r with prev := (z.pages page).prev })
    | none => z
  z.setPage page (fun r => { r with next := none, prev := none })

def listAdd (order page : Nat) : Zone :=
  let z := z.setPage page (fun r => { r with next := z.freeList order, prev := none })
  let z := match z.freeList order with
    | some q => z.setPage q (fun r => { r with prev := some page })
    | none => z
  { z with
    freeList := update z.freeList order (some page)
    freeCount := update z.freeCount order (add64 (z.freeCount order) 1) }

def listPop (order : Nat) : Option Nat × Zone :=
  match z.freeList order with
  | none => (none,z)
  | some page =>
    let z := { z with freeList := update z.freeList order (z.pages page).next }
    let z := match (z.pages page).next with
      | some q => z.setPage q (fun r => { r with prev := none })
      | none => z
    let z := z.setPage page (fun r => { r with next := none, prev := none })
    (some page,{ z with freeCount := update z.freeCount order (sub64 (z.freeCount order) 1) })

def buddyPfn (pfn order : Nat) : Nat := pfn ^^^ 2^order

def pfnToPage (pfn : Nat) : Option Nat :=
  if pfn < z.basePfn ∨ z.endPfn ≤ pfn then none else some (pfn - z.basePfn)

/-- The walk of `__in_freelist`; more steps than there are page records mean
    that the walk goes round for ever. -/
def walkFreelist (z : Zone) (page : Nat) : Nat → Option Nat → Option Bool
  | _, none => some false
  | 0, some _ => none
  | n+1, some p => if p = page then some true else walkFreelist z page n (z.pages p).next

def inFreelist (order page : Nat) : Option Bool :=
  walkFreelist z page z.totalPages (z.freeList order)

/-- The largest order that fits the pages left, from `order` down. -/
def fitOrder (freePages : Nat) : Nat → Nat
  | 0 => 0
  | order+1 => if 2^(order+1) > freePages then fitOrder freePages order else order+1

/-- The loop of `buddy_init` over the free pages; every round takes one at least. -/
def carve : Nat → Nat → Nat → Zone → Zone
  | 0, _, _, z => z
  | rounds+1, freeStart, freePages, z =>
    if 0 < freePages then
      let order := fitOrder freePages maxOrder
      let z := z.setPage freeStart (fun r => { r with order := order })
      carve rounds (freeStart + 2^order) (freePages - 2^order) (listAdd z order freeStart)
    else z

def bareZone (baseAddr sizeBytes : Nat) : Zone :=
  let basePfn := baseAddr / pageSize
  let endPfn := basePfn + sizeBytes / pageSize
  let totalPages := endPfn - basePfn
  let arrayPages := (totalPages * sizeofPage + pageSize - 1) / pageSize
  { freeList := fun _ => none
    freeCount := fun _ => 0
    pages := fun i => { next := none, prev := none, order := 0, flags := 0, pfn := if i < totalPages then basePfn + i else 0 }
    pageArray := baseAddr
    totalPages := totalPages
    usedPages := arrayPages
    reservedPages := arrayPages
    basePfn := basePfn
    endPfn := endPfn }

def buddyInit (baseAddr sizeBytes : Nat) : Zone :=
  let z := bareZone baseAddr sizeBytes
  let freePages := z.totalPages - z.reservedPages
  carve freePages z.reservedPages freePages z

/-- The first order from `current` on with a free block, in so many rounds. -/
def scanOrder (z : Zone) : Nat → Nat → Nat
  | 0, current => current
  | rounds+1, current =>
    if current ≤ maxOrder then
      if (z.freeList current).isSome then current else scanOrder z rounds (current+1)
    else current

def foundOrder (order : Nat) : Nat := scanOrder z (maxOrder + 1 - order) order

/-- The splitting loop: from the order of the block taken down to the order asked for. -/
def splitDown (order page : Nat) : Nat → Zone → Option Zone
  | 0, z => some z
  | current+1, z =>
    if order < current+1 then do
      let buddy ← pfnToPage z (buddyPfn (z.pages page).pfn current)
      let z := z.setPage buddy (fun r => { r with order := current, flags := 0 })
      splitDown order page current (listAdd z current buddy)
    else some z

def buddyAllocPages (order : Nat) : Option (Option Nat × Zone) :=
  if order > maxOrder then some (none,z)
  else
    let current := foundOrder z order
    if current > maxOrder then some (none,z)
    else match listPop z current with
      | (none,_) => none
      | (some page,z) => do
        let z := z.setPage page (fun r => { r with flags := r.flags ||| flagUsed })
        let z ← splitDown order page current z
        let z := z.setPage page (fun r => { r with order := order })
        some (some page,{ z with usedPages := add64 z.usedPages (2^order) })

/-- The merging loop: the zone, the page and the order it stops with. -/
def coalesce : Nat → Zone → Nat → Nat → Option (Zone × Nat × Nat)
  | 0, z, page, order => some (z,page,order)
  | rounds+1, z, page, order =>
    if maxOrder ≤ order then some (z,page,order)
    else do
      let buddy ← pfnToPage z (buddyPfn (z.pages page).pfn order)
      if (z.pages buddy).pfn < z.basePfn ∨ z.endPfn ≤ (z.pages buddy).pfn then some (z,page,order)
      else if (z.pages buddy).flags &&& flagUsed ≠ 0 then some (z,page,order)
      else if (z.pages buddy).order ≠ order then some (z,page,order)
      else do
        let found ← inFreelist z order buddy
        if found then
          let z := listDel z buddy
          let z := { z with freeCount := update z.freeCount order (sub64 (z.freeCount order) 1) }
          let page := if (z.pages buddy).pfn < (z.pages page).pfn then buddy else page
          coalesce rounds z page (order+1)
        else some (z,page,order)

def buddyFreePages (page : Option Nat) : Option Zone :=
  match page with
  | none => some z
  | some page =>
    if (z.pages page).flags &&& flagUsed = 0 then some z
    else do
      let order := (z.pages page).order
      let z := z.setPage page (fun r => { r with flags := r.flags &&& ~~~flagUsed })
      let z := { z with usedPages := sub64 z.usedPages (2^order) }
      let (z,page,order) ← coalesce (maxOrder+1) z page order
      let z := z.setPage page (fun r => { r with order := order })
      some (listAdd z order page)

inductive Request where
  | alloc (order : Nat)
  | free (page : Nat)
  deriving DecidableEq, Repr

/-- A zone with the blocks handed out and not yet given back: the page and the
    order asked for. -/
structure State where
  zone : Zone
  live : List Block

def start (baseAddr sizeBytes : Nat) : State := ⟨buddyInit baseAddr sizeBytes,[]⟩

def step (s : State) : Request → Option State
  | .alloc order => (buddyAllocPages s.zone order).map (fun r => match r.1 with
    | none => ⟨r.2,s.live⟩
    | some page => ⟨r.2,⟨page,order⟩ :: s.live⟩)
  | .free page => (buddyFreePages s.zone (some page)).map (fun z => ⟨z,s.live.filter (fun b => b.first ≠ page)⟩)

/-- The page frames from the first frame of a block on do not meet those of another. -/
def FramesApart (b c : Block) : Prop :=
  Apart (z.pages b.first).pfn b.size (z.pages c.first).pfn c.size

instance (z : Zone) (b c : Block) : Decidable (FramesApart z b c) := inferInstanceAs (Decidable (Apart ..))

/-- A block that is reached from the free list of its order. -/
def Free (b : Block) : Prop :=
  b.order ≤ maxOrder ∧ Reachable (fun i => (z.pages i).next) (z.freeList b.order) b.first

def arrayEnd : Nat := (z.pageArray + z.totalPages * sizeofPage + pageSize - 1) / pageSize

/-- Live blocks lie in the zone behind the page array, apart from each other and from the free blocks, which are apart too. -/
structure Safe (s : State) : Prop where
  liveApart : s.live.Pairwise (FramesApart s.zone)
  liveInside : ∀ b ∈ s.live, s.zone.basePfn ≤ (s.zone.pages b.first).pfn ∧
    (s.zone.pages b.first).pfn + b.size ≤ s.zone.endPfn
  liveOutsideArray : ∀ b ∈ s.live, arrayEnd s.zone ≤ (s.zone.pages b.first).pfn
  liveFree : ∀ b ∈ s.live, ∀ c, Free s.zone c → FramesApart s.zone b c
  freeApart : ∀ b c, Free s.zone b → Free s.zone c → b ≠ c → FramesApart s.zone b c

/-- The free blocks that `buddy_alloc_pages` would split have the split bits of
    their frame number clear, so that every upper half lies in the block. -/
def SplitsAligned (order : Nat) : Prop :=
  order ≤ maxOrder → ∀ page ∈ z.freeList (foundOrder z order),
    ∀ k < foundOrder z order, order ≤ k → (z.pages page).pfn.testBit k = false

/-- The tests of the merging loop before it unlinks a buddy. -/
def Mergeable (order buddy : Nat) : Prop :=
  (z.pages buddy).flags &&& flagUsed = 0 ∧ (z.pages buddy).order = order ∧ inFreelist z order buddy = some true

/-- From a frame and an order on, every buddy that is looked at has a page
    record, and none that is merged is the first of its free list. -/
def MergesBehindHead (z : Zone) : Nat → Nat → Nat → Prop
  | 0, _, _ => True
  | rounds+1, pfn, order => maxOrder ≤ order ∨ ∃ buddy ∈ pfnToPage z (buddyPfn pfn order),
      Mergeable z order buddy → z.freeList order ≠ some buddy ∧
        MergesBehindHead z rounds (min pfn (buddyPfn pfn order)) (order+1)

instance (z : Zone) (order buddy : Nat) : Decidable (Mergeable z order buddy) :=
  inferInstanceAs (Decidable (_ ∧ _ ∧ _))

instance MergesBehindHead.decidable (z : Zone) : ∀ rounds pfn order, Decidable (MergesBehindHead z rounds pfn order)
  | 0, _, _ => .isTrue trivial
  | rounds+1, pfn, order =>
    have := MergesBehindHead.decidable z rounds (min pfn (buddyPfn pfn order)) (order+1)
    inferInstanceAs (Decidable (_ ∨ _))

/-- Only live blocks are freed. -/
def Legal (s : State) : Request → Prop
  | .alloc _ => True
  | .free page => ∃ b ∈ s.live, b.first = page

/-- The state before the request keeps clear of the two slips: a split across
    the alignment, and `__list_del` of the first page of a free list. -/
def Meets (s : State) : Request → Prop
  | .alloc order => SplitsAligned s.zone order
  | .free page => MergesBehindHead s.zone (maxOrder+1) (s.zone.pages page).pfn (s.zone.pages page).order

instance (s : State) : (r : Request) → Decidable (Legal s r)
  | .alloc _ => .isTrue trivial
  | .free page => inferInstanceAs (Decidable (∃ b ∈ s.live, b.first = page))

instance (z : Zone) (order : Nat) : Decidable (SplitsAligned z order) :=
  inferInstanceAs (Decidable (_ → ∀ page ∈ z.freeList (foundOrder z order), ∀ k < foundOrder z order, _ → _))

instance (s : State) : (r : Request) → Decidable (Meets s r)
  | .alloc order => inferInstanceAs (Decidable (SplitsAligned s.zone order))
  | .free page => inferInstanceAs (Decidable (MergesBehindHead s.zone _ (s.zone.pages page).pfn _))

/-- The page array ends inside the pages that `buddy_init` sets aside for it. -/
def ArrayFits (baseAddr sizeBytes : Nat) : Prop :=
  baseAddr % pageSize + sizeBytes / pageSize * sizeofPage ≤
    (sizeBytes / pageSize * sizeofPage + pageSize - 1) / pageSize * pageSize

instance (baseAddr sizeBytes : Nat) : Decidable (ArrayFits baseAddr sizeBytes) := inferInstanceAs (Decidable (_ ≤ _))

/-! ### The list operations -/

/-- For every order the free list links exactly the pages of the table. -/
def Lists (F : Nat → List Nat) : Prop :=
  ∀ k, Linked (fun i => (z.pages i).next) (fun i => (z.pages i).prev) none (z.freeList k) (F k)

/-- The fields of a page record that the list operations leave alone. -/
def SameMarks (p q : Page) : Prop := p.order = q.order ∧ p.flags = q.flags ∧ p.pfn = q.pfn

/-- The fields of a zone that no operation changes after `buddy_init`. -/
def SameFrame (y z : Zone) : Prop :=
  y.pageArray = z.pageArray ∧ y.totalPages = z.totalPages ∧ y.reservedPages = z.reservedPages ∧
    y.basePfn = z.basePfn ∧ y.endPfn = z.endPfn

private theorem setPage_pages (i j : Nat) (f : Page → Page) :
    (z.setPage i f).pages j = if j = i then f (z.pages i) else z.pages j := by
  simp [Zone.setPage,update_apply]

theorem listAdd_pages (order page i : Nat) :
    (listAdd z order page).pages i =
      { z.pages i with
        next := if i = page then z.freeList order else (z.pages i).next
        prev := if z.freeList order = some i then some page else if i = page then none else (z.pages i).prev } := by
  unfold listAdd
  cases head : z.freeList order with
  | none | some q => simp only [Zone.setPage,head,update_apply]; split_ifs <;> simp_all

private theorem listAdd_freeList (order page : Nat) :
    (listAdd z order page).freeList = update z.freeList order (some page) := by
  unfold listAdd
  cases head : z.freeList order <;> simp only [Zone.setPage,head]

private theorem listAdd_frame (order page : Nat) : SameFrame (listAdd z order page) z := by
  unfold listAdd SameFrame
  cases head : z.freeList order <;> simp [Zone.setPage,head]

variable {z y : Zone} {order page : Nat} {left right : List Nat}

theorem listPop_pages (head : z.freeList order = some page) (i : Nat) : (listPop z order).2.pages i =
      { z.pages i with
        next := if i = page then none else (z.pages i).next
        prev := if i = page ∨ (z.pages page).next = some i then none else (z.pages i).prev } := by
  unfold listPop
  rw [head]
  cases after : (z.pages page).next with
  | none | some q => simp only [Zone.setPage,after,update_apply]; split_ifs <;> simp_all

private theorem listPop_freeList (head : z.freeList order = some page) : (listPop z order).1 = some page ∧
      (listPop z order).2.freeList = update z.freeList order (z.pages page).next := by
  unfold listPop
  rw [head]
  cases after : (z.pages page).next <;> simp [Zone.setPage,after]

private theorem listPop_frame (z : Zone) (order : Nat) : SameFrame (listPop z order).2 z := by
  unfold listPop SameFrame
  cases head : z.freeList order with
  | none => simp
  | some page => cases after : (z.pages page).next <;> simp [Zone.setPage,after]

theorem listDel_pages (z : Zone) (page i : Nat) : (listDel z page).pages i =
      { z.pages i with
        next := if i = page then none else if (z.pages page).prev = some i then (z.pages page).next else (z.pages i).next
        prev := if i = page then none else if (z.pages page).next = some i then (z.pages page).prev else (z.pages i).prev } := by
  unfold listDel
  cases before : (z.pages page).prev with
  | none =>
    cases after : (z.pages page).next with
    | none | some n => simp only [after,setPage_pages]; split_ifs <;> simp_all
  | some q =>
    by_cases self : page = q
    · subst self
      have same : z.setPage page (fun r => { r with next := (z.pages page).next }) = z := by simp [Zone.setPage]
      simp only [same]
      cases after : (z.pages page).next with
      | none | some n => simp only [setPage_pages]; split_ifs <;> simp_all
    · cases after : (z.pages page).next with
      | none | some n => simp only [setPage_pages,self,after,↓reduceIte]; split_ifs <;> simp_all

private theorem listDel_freeList (z : Zone) (page : Nat) : (listDel z page).freeList = z.freeList := by
  unfold listDel
  cases (z.pages page).prev with
  | none => cases after : (z.pages page).next <;> simp only [Zone.setPage,after]
  | some q => simp only; split <;> rfl

private theorem listDel_frame (z : Zone) (page : Nat) : SameFrame (listDel z page) z := by
  unfold listDel SameFrame
  cases (z.pages page).prev with
  | none => cases after : (z.pages page).next <;> simp [Zone.setPage,after]
  | some q => simp only [Zone.setPage]; split <;> simp

section
variable {z : Zone} {F : Nat → List Nat}

private theorem sameFrame_trans {x : Zone} (first : SameFrame x y) (second : SameFrame y z) : SameFrame x z := by
  obtain ⟨a,b,c,d,e⟩ := first
  obtain ⟨a',b',c',d',e'⟩ := second
  exact ⟨a.trans a',b.trans b',c.trans c',d.trans d',e.trans e'⟩

private theorem sameMarks_trans {x y z : Page} (first : SameMarks x y) (second : SameMarks y z) : SameMarks x z :=
  ⟨first.1.trans second.1,first.2.1.trans second.2.1,first.2.2.trans second.2.2⟩

theorem lists_congr (lists : Lists z F) (heads : y.freeList = z.freeList)
    (links : ∀ k, ∀ p ∈ F k, (y.pages p).next = (z.pages p).next ∧ (y.pages p).prev = (z.pages p).prev) :
    Lists y F := by
  intro k
  rw [heads]
  exact linked_congr (lists k) (fun p member => (links k p member).1) (fun p member => (links k p member).2)

section
variable (family : Family (fun i => (z.pages i).next) (fun i => (z.pages i).prev) z.freeList F)
include family

theorem listAdd_lists (fresh : ∀ k, page ∉ F k) :
    Lists (listAdd z order page) (update F order (page :: F order)) := by
  have other : ∀ k, ∀ b ∈ F k, b ≠ page := fun k b member => ne_of_mem_of_not_mem member (fresh k)
  have notHead : z.freeList order ≠ some page := fun head => fresh order (family.head_mem head)
  refine (family.push fresh ?_ ?_ ?_ ?_ ?_ (listAdd_freeList z order page)).linked
  · simp [listAdd_pages]
  · simp [listAdd_pages,notHead]
  · intro k b member
    simp [listAdd_pages,other k b member]
  · intro b head
    simp [listAdd_pages,head]
  · intro k b member notFirst
    simp [listAdd_pages,notFirst,other k b member]

theorem listPop_lists {rest : List Nat} (cells : F order = page :: rest) :
    Lists (listPop z order).2 (update F order rest) := by
  have linked := family.linked order
  rw [cells] at linked
  have head : z.freeList order = some page := linked.1
  have first : (z.pages page).prev = none := linked.2.1
  have split : F order = [] ++ page :: rest := cells
  refine (family.remove split ?_ ?_ ?_ ?_ ?_).linked
  · intro k b _ other _
    simp [listPop_pages head,other]
  · intro k b _ other notNext
    simp [listPop_pages head,other,notNext]
  · intro b _ _ named
    rw [first] at named
    cases named
  · intro b _ _ after
    simp [listPop_pages head,after,first]
  · exact (listPop_freeList head).2

theorem listDel_lists (cells : F order = left ++ page :: right) (notFirst : left ≠ []) :
    Lists (listDel z page) (update F order (left ++ right)) := by
  refine (family.remove cells ?_ ?_ ?_ ?_ ?_).linked
  · intro k b _ other notPrev
    simp [listDel_pages,other,notPrev]
  · intro k b _ other notNext
    simp [listDel_pages,other,notNext]
  · intro b _ other named
    simp [listDel_pages,other,named]
  · intro b _ other named
    simp [listDel_pages,other,named]
  · rw [if_neg notFirst,Function.update_eq_self,listDel_freeList]

end

theorem walkFreelist_correct {cells : List Nat} {before head : Option Nat} {n : Nat}
    (linked : Linked (fun i => (z.pages i).next) (fun i => (z.pages i).prev) before head cells) (bound : cells.length ≤ n) :
    walkFreelist z page n head = some (decide (page ∈ cells)) := by
  induction cells generalizing before head n with
  | nil =>
    have empty : head = none := linked
    subst empty
    cases n <;> rfl
  | cons a rest ih =>
    obtain ⟨headIs,-,tail⟩ := linked
    subst headIs
    cases n with
    | zero => simp at bound
    | succ n =>
      rw [walkFreelist,ih tail (by simpa using bound)]
      by_cases same : a = page
      · simp [same]
      · simp [same,Ne.symm same]

end

/-- The zone with the table of its free blocks and the live blocks. -/
structure Sound (z : Zone) (F : Nat → List Nat) (live : List Block) : Prop where
  frames : ∀ i < z.totalPages, (z.pages i).pfn = z.basePfn + i
  ends : z.basePfn + z.totalPages = z.endPfn
  lists : Lists z F
  layout : Layout z.reservedPages z.totalPages F live
  orders : ∀ k, ∀ p ∈ F k, k ≤ maxOrder

/-- Every live block is marked used, with its order. -/
def Marked (z : Zone) (live : List Block) : Prop :=
  ∀ b ∈ live, (z.pages b.first).flags &&& flagUsed ≠ 0 ∧ (z.pages b.first).order = b.order ∧ b.order ≤ maxOrder

/-- The pages of a block are not reserved, and in no other block. -/
abbrev Vacant (z : Zone) (F : Nat → List Nat) (live : List Block) (b : Block) : Prop :=
  Clear z.reservedPages z.totalPages F live b

structure Inv (s : State) : Prop where
  sound : ∃ F, Sound s.zone F s.live
  marked : Marked s.zone s.live
  arrayFits : arrayEnd s.zone ≤ s.zone.basePfn + s.zone.reservedPages

section
variable {z first : Zone} {F F₀ : Nat → List Nat} {live : List Block} {b : Block} {k buddy : Nat}

theorem SameFrame.vacant (frame : SameFrame y z) : Vacant y F live b ↔ Vacant z F live b := by
  rw [Vacant,frame.2.1,frame.2.2.1]

section
variable (sound : Sound z F live)
include sound

theorem Sound.family :
    Family (fun i => (z.pages i).next) (fun i => (z.pages i).prev) z.freeList F where
  linked := sound.lists
  distinct := sound.layout.freeDistinct
  separate _ _ _ first second := sound.layout.ne_of_order first second

theorem Sound.below {p : Nat} (member : p ∈ F k) : p < z.totalPages := by
  have bound := (sound.layout.freeIn k p member).2
  have positive := Nat.two_pow_pos k
  omega

theorem Sound.inFreelist (order page : Nat) :
    inFreelist z order page = some (decide (page ∈ F order)) := by
  refine walkFreelist_correct (sound.lists order) ?_
  have sub : F order ⊆ List.range z.totalPages := fun p member => List.mem_range.mpr (sound.below member)
  simpa using (List.subperm_of_subset (sound.layout.freeDistinct order) sub).length_le

theorem Sound.relist {G : Nat → List Nat} (frame : SameFrame y z)
    (pfn : ∀ i, (y.pages i).pfn = (z.pages i).pfn) (lists : Lists y G)
    (layout : Layout z.reservedPages z.totalPages G live) (orders : ∀ k, ∀ p ∈ G k, k ≤ maxOrder) : Sound y G live := by
  obtain ⟨-,total,reserved,base,top⟩ := frame
  refine ⟨fun i bound => ?_,?_,lists,?_,orders⟩
  · rw [pfn,base]
    exact sound.frames i (total ▸ bound)
  · rw [base,total,top]
    exact sound.ends
  · rw [reserved,total]
    exact layout

theorem Sound.congr (heads : y.freeList = z.freeList) (frame : SameFrame y z)
    (records : ∀ i, (y.pages i).next = (z.pages i).next ∧ (y.pages i).prev = (z.pages i).prev ∧
      (y.pages i).pfn = (z.pages i).pfn) : Sound y F live := by
  have lists := lists_congr sound.lists heads (fun k p _ => ⟨(records p).1,(records p).2.1⟩)
  exact sound.relist frame (fun i => (records i).2.2) lists sound.layout sound.orders

theorem Sound.setPage (i : Nat) (f : Page → Page)
    (keeps : ∀ r, (f r).next = r.next ∧ (f r).prev = r.prev ∧ (f r).pfn = r.pfn) : Sound (z.setPage i f) F live := by
  refine sound.congr rfl ⟨rfl,rfl,rfl,rfl,rfl⟩ (fun j => ?_)
  rw [setPage_pages]
  split_ifs with here
  · subst here
    exact keeps (z.pages j)
  · exact ⟨rfl,rfl,rfl⟩

theorem Sound.listAdd (low : order ≤ maxOrder) (clear : Vacant z F live ⟨page,order⟩) :
    Sound (listAdd z order page) (update F order (page :: F order)) live := by
  have fresh : ∀ k, page ∉ F k := fun k member => (clear.free k page member).ne rfl
  refine sound.relist (listAdd_frame z order page) (fun i => by rw [listAdd_pages]) (listAdd_lists sound.family fresh)
    (sound.layout.put clear) ?_
  exact update_cases (fun _ _ => low) (fun k _ => sound.orders k)

theorem Sound.without
    (cells : F order = left ++ page :: right) (frame : SameFrame y z) (pfn : ∀ i, (y.pages i).pfn = (z.pages i).pfn)
    (lists : Lists y (update F order (left ++ right))) :
    ∃ G, Sound y G live ∧ Vacant z G live ⟨page,order⟩ ∧ ∀ k, (G k).Sublist (F k) := by
  have member : page ∈ F order := by simp [cells]
  have sub : ∀ k, (update F order (left ++ right) k).Sublist (F k) := by
    refine update_cases ?_ (fun k _ => .refl _)
    rw [cells]
    exact (List.sublist_cons_self page right).append_left left
  have gone : page ∉ update F order (left ++ right) order := by
    have apart := sound.layout.freeDistinct order
    rw [cells] at apart
    rw [update_self]
    exact (List.nodup_middle.mp apart).notMem
  refine ⟨_,sound.relist frame pfn lists (sound.layout.shrink sub) ?_,sound.layout.take member sub gone,sub⟩
  exact fun k p inRest => sound.orders k p ((sub k).subset inRest)

theorem Sound.listPop (head : z.freeList order = some page) :
    ∃ G, Sound (listPop z order).2 G live ∧ Vacant z G live ⟨page,order⟩ := by
  have first := linked_head (sound.lists order)
  rw [head] at first
  obtain ⟨rest,cells⟩ : ∃ rest, F order = page :: rest := by
    cases here : F order with
    | nil => rw [here] at first; cases first
    | cons a rest => rw [here] at first; cases first; exact ⟨rest,rfl⟩
  have split : F order = [] ++ page :: rest := cells
  obtain ⟨G,popped,clear,-⟩ := sound.without split (listPop_frame z order) (fun i => by rw [listPop_pages head])
    (listPop_lists sound.family cells)
  exact ⟨G,popped,clear⟩

theorem Sound.listDel (member : page ∈ F order) (notFirst : z.freeList order ≠ some page) :
    ∃ G, Sound (listDel z page) G live ∧ Vacant z G live ⟨page,order⟩ ∧
      (∀ k, (G k).Sublist (F k)) ∧ ∀ i, SameMarks ((listDel z page).pages i) (z.pages i) := by
  obtain ⟨left,right,cells⟩ := List.append_of_mem member
  have someLeft : left ≠ [] := by
    rintro rfl
    apply notFirst
    rw [linked_head (sound.lists order),cells]
    rfl
  have lists := listDel_lists sound.family cells someLeft
  have marks : ∀ i, SameMarks ((Buddy.listDel z page).pages i) (z.pages i) := by
    intro i
    rw [listDel_pages]
    exact ⟨rfl,rfl,rfl⟩
  obtain ⟨G,rest,clear,sub⟩ := sound.without cells (listDel_frame z page) (fun i => (marks i).2.2) lists
  exact ⟨G,rest,clear,sub,marks⟩

end

/-! ### Allocation -/

theorem scanOrder_spec (z : Zone) (rounds current : Nat) (far : maxOrder < current + rounds) :
    current ≤ scanOrder z rounds current ∧
      (scanOrder z rounds current ≤ maxOrder → (z.freeList (scanOrder z rounds current)).isSome) := by
  induction rounds generalizing current with
  | zero =>
    refine ⟨Nat.le_refl _,fun low => ?_⟩
    simp only [scanOrder] at low
    omega
  | succ rounds ih =>
    rw [scanOrder]
    split_ifs with low here
    · exact ⟨Nat.le_refl _,fun _ => here⟩
    · obtain ⟨above,found⟩ := ih (current+1) (by omega)
      exact ⟨by omega,found⟩
    · exact ⟨Nat.le_refl _,fun impossible => absurd impossible low⟩

private theorem foundOrder_spec (low : order ≤ maxOrder) :
    order ≤ foundOrder z order ∧ (foundOrder z order ≤ maxOrder → (z.freeList (foundOrder z order)).isSome) :=
  scanOrder_spec z _ order (by omega)

theorem Sound.upperHalf (sound : Sound z F live)
    (clear : Vacant z F live ⟨page,k+1⟩) (aligned : (z.pages page).pfn.testBit k = false) :
    pfnToPage z (buddyPfn (z.pages page).pfn k) = some (page + 2^k) := by
  have bound := clear.inside.2
  simp only [Block.size] at bound
  have positive := Nat.two_pow_pos k
  have inside : page < z.totalPages := by omega
  rw [buddyPfn,xor_of_clear aligned,sound.frames page inside,pfnToPage]
  have ends := sound.ends
  rw [if_neg (by omega)]
  congr 1
  omega

theorem splitDown_sound (order page current : Nat) (sound : Sound z F live) (clear : Vacant z F live ⟨page,current⟩)
    (le : order ≤ current) (small : current ≤ maxOrder + 1)
    (aligned : ∀ k, order ≤ k → k < current → (z.pages page).pfn.testBit k = false) :
    ∃ y G, splitDown order page current z = some y ∧ Sound y G live ∧
      Vacant z G live ⟨page,order⟩ ∧ SameFrame y z ∧
      ∀ i, (i = page ∨ ∃ b ∈ live, b.first = i) → SameMarks (y.pages i) (z.pages i) := by
  induction current generalizing z F with
  | zero =>
    have same : order = 0 := Nat.le_zero.mp le
    subst same
    exact ⟨z,F,rfl,sound,clear,⟨rfl,rfl,rfl,rfl,rfl⟩,fun _ _ => ⟨rfl,rfl,rfl⟩⟩
  | succ current ih =>
    rw [splitDown]
    split_ifs with more
    · have buddyIs := sound.upperHalf clear (aligned current (by omega) (by omega))
      let marked := z.setPage (page + 2^current) (fun r => { r with order := current, flags := 0 })
      have markedSound : Sound marked F live := sound.setPage _ _ (fun _ => ⟨rfl,rfl,rfl⟩)
      have lower := clear.lower
      have positive := Nat.two_pow_pos current
      have upper : Vacant z F live ⟨page + 2^current,current⟩ :=
        clear.part (Nat.le_add_right _ _) (by simp only [Block.size]; omega)
      have added := markedSound.listAdd (by omega) upper
      have frame : SameFrame (listAdd marked current (page + 2^current)) z := listAdd_frame _ _ _
      have keeps : ∀ i, i ≠ page + 2^current →
          SameMarks ((listAdd marked current (page + 2^current)).pages i) (z.pages i) := by
        intro i other
        rw [listAdd_pages]
        simp [SameMarks,marked,setPage_pages,other]
      have pageMarks := keeps page (by omega)
      obtain ⟨y,G,done,ySound,yClear,yFrame,yMarks⟩ := ih added
        (frame.vacant.mpr lower) (by omega) (by omega)
        (by intro k low high; rw [pageMarks.2.2]; exact aligned k low (by omega))
      refine ⟨y,G,?_,ySound,frame.vacant.mp yClear,sameFrame_trans yFrame frame,?_⟩
      · rw [buddyIs]
        exact done
      · intro i which
        refine sameMarks_trans (yMarks i which) (keeps i ?_)
        rcases which with rfl | ⟨b,member,rfl⟩
        · omega
        · exact (upper.held b member).ne.symm
    · have same : order = current+1 := by omega
      subst same
      exact ⟨z,F,rfl,sound,clear,⟨rfl,rfl,rfl,rfl,rfl⟩,fun _ _ => ⟨rfl,rfl,rfl⟩⟩

private theorem or_used (flags : BitVec 32) : (flags ||| flagUsed) &&& flagUsed ≠ 0 := by
  intro zero
  have bit := congrArg (fun v => v.getLsbD 0) zero
  simp [flagUsed] at bit

/-- What an allocation leaves, and the block it hands out, if any. -/
structure Allocated (z : Zone) (live : List Block) (order : Nat) (page : Option Nat) (y : Zone) (G : Nat → List Nat) : Prop where
  sound : Sound y G live
  frame : SameFrame y z
  marks : ∀ b ∈ live, SameMarks (y.pages b.first) (z.pages b.first)
  handed : ∀ p, page = some p → order ≤ maxOrder ∧ Vacant z G live ⟨p,order⟩ ∧
    (y.pages p).flags &&& flagUsed ≠ 0 ∧ (y.pages p).order = order

theorem buddyAllocPages_sound (sound : Sound z F live) (aligned : SplitsAligned z order) :
    ∃ page y G, buddyAllocPages z order = some (page,y) ∧ Allocated z live order page y G := by
  have unchanged : Allocated z live order none z F :=
    ⟨sound,⟨rfl,rfl,rfl,rfl,rfl⟩,fun _ _ => ⟨rfl,rfl,rfl⟩,by simp⟩
  unfold buddyAllocPages
  split_ifs with large
  · exact ⟨none,z,F,rfl,unchanged⟩
  have small : order ≤ maxOrder := by omega
  obtain ⟨above,found⟩ := foundOrder_spec (z := z) small
  by_cases empty : foundOrder z order > maxOrder
  · simp only [empty]
    exact ⟨none,z,F,rfl,unchanged⟩
  simp only [empty]
  obtain ⟨p,head⟩ := Option.isSome_iff_exists.mp (found (by omega))
  obtain ⟨popped,-⟩ := listPop_freeList head
  obtain ⟨G,poppedSound,clear⟩ := sound.listPop head
  have poppedFrame := listPop_frame z (foundOrder z order)
  have poppedMarks : ∀ i, SameMarks ((listPop z (foundOrder z order)).2.pages i) (z.pages i) := by
    intro i
    rw [listPop_pages head]
    exact ⟨rfl,rfl,rfl⟩
  obtain ⟨y,pair⟩ : ∃ y, listPop z (foundOrder z order) = (some p,y) := ⟨_,Prod.ext popped rfl⟩
  rw [pair] at poppedSound poppedFrame poppedMarks ⊢
  let used := y.setPage p (fun r => { r with flags := r.flags ||| flagUsed })
  have usedSound : Sound used G live := poppedSound.setPage _ _ (fun _ => ⟨rfl,rfl,rfl⟩)
  have pfnIs : (used.pages p).pfn = (z.pages p).pfn := by
    simp only [used,setPage_pages]
    exact (poppedMarks p).2.2
  obtain ⟨x,H,done,xSound,xClear,xFrame,xMarks⟩ := splitDown_sound order p
    (foundOrder z order) usedSound
    (poppedFrame.vacant.mpr clear : Vacant y G live _)
    above (by omega) (by intro k low high; rw [pfnIs]; exact aligned small p head k high low)
  have apart : ∀ b ∈ live, b.first ≠ p := fun b member => (clear.held b member).ne.symm
  refine ⟨some p,{ x.setPage p (fun r => { r with order := order }) with
    usedPages := add64 (x.setPage p (fun r => { r with order := order })).usedPages (2^order) },H,?_,?_,?_,?_,?_⟩
  · show (splitDown order p (foundOrder z order) used).bind _ = _
    rw [done]
    rfl
  · have ordered := xSound.setPage p (fun r => { r with order := order }) (fun _ => ⟨rfl,rfl,rfl⟩)
    exact ordered.congr rfl ⟨rfl,rfl,rfl,rfl,rfl⟩ (fun _ => ⟨rfl,rfl,rfl⟩)
  · exact sameFrame_trans (sameFrame_trans ⟨rfl,rfl,rfl,rfl,rfl⟩ xFrame) poppedFrame
  · intro b member
    have marks := xMarks b.first (.inr ⟨b,member,rfl⟩)
    simp only [setPage_pages,used,apart b member] at marks ⊢
    exact sameMarks_trans marks (poppedMarks b.first)
  · intro q same
    cases same
    have marks := xMarks p (.inl rfl)
    refine ⟨small,poppedFrame.vacant.mp (xClear : Vacant y H live _),?_,?_⟩
    · simp only [setPage_pages]
      rw [marks.2.1]
      simp only [used,setPage_pages]
      exact or_used _
    · simp [setPage_pages]

/-! ### Freeing -/

/-- What the merging loop keeps: the first zone knows every block that is still
    free, with its marks and the heads of the lists. -/
structure Merging (first z : Zone) (F₀ F : Nat → List Nat) : Prop where
  heads : z.freeList = first.freeList
  fewer : ∀ k, ∀ p ∈ F k, p ∈ F₀ k
  marks : ∀ k, ∀ p ∈ F k, SameMarks (z.pages p) (first.pages p)
  frame : SameFrame z first

theorem join_buddy {low high base : Nat} (pageClear : Clear low high F live ⟨page,order⟩)
    (buddyClear : Clear low high F live ⟨buddy,order⟩) (located : buddyPfn (base + page) order = base + buddy) :
    Clear low high F live ⟨if buddy < page then buddy else page,order+1⟩ ∧
      min (base + page) (buddyPfn (base + page) order) = base + (if buddy < page then buddy else page) := by
  have positive := Nat.two_pow_pos order
  -- the buddy lies just below or just above the page, as the bit of the order says
  cases bit : (base + page).testBit order with
  | false =>
    have upper := xor_of_clear bit
    have place : buddy = page + 2^order := by
      rw [buddyPfn] at located
      omega
    subst place
    rw [if_neg (by omega),buddyPfn]
    exact ⟨pageClear.join buddyClear,by omega⟩
  | true =>
    have lower := xor_of_set bit
    have place : buddy + 2^order = page := by
      rw [buddyPfn] at located
      omega
    subst place
    rw [if_pos (by omega)]
    exact ⟨buddyClear.join pageClear,by rw [located]; omega⟩

def unlisted (z : Zone) (order buddy : Nat) : Zone :=
  { listDel z buddy with
    freeCount := update (listDel z buddy).freeCount order (sub64 ((listDel z buddy).freeCount order) 1) }

private theorem unlisted_frame (z : Zone) (order buddy : Nat) : SameFrame (unlisted z order buddy) z := listDel_frame z buddy

theorem Merging.unlisted (merging : Merging first z F₀ F)
    (sound : Sound z F live) (clear : Vacant z F live ⟨page,order⟩) (member : buddy ∈ F order)
    (notHead : first.freeList order ≠ some buddy) (located : buddyPfn (z.basePfn + page) order = z.basePfn + buddy) :
    ∃ G, Sound (unlisted z order buddy) G live ∧ Merging first (unlisted z order buddy) F₀ G ∧
      (Vacant z G live ⟨if buddy < page then buddy else page,order+1⟩ ∧
        min (z.basePfn + page) (buddyPfn (z.basePfn + page) order) = z.basePfn + (if buddy < page then buddy else page)) ∧
      ∀ i, SameMarks ((unlisted z order buddy).pages i) (z.pages i) := by
  obtain ⟨G,delSound,buddyClear,sub,delMarks⟩ := sound.listDel member (by rw [merging.heads]; exact notHead)
  refine ⟨G,delSound.congr rfl ⟨rfl,rfl,rfl,rfl,rfl⟩ (fun i => ⟨rfl,rfl,rfl⟩),?_,
    join_buddy (clear.shrink sub) buddyClear located,delMarks⟩
  exact
    { heads := (listDel_freeList z buddy).trans merging.heads
      fewer := fun k p inG => merging.fewer k p ((sub k).subset inG)
      marks := fun k p inG => sameMarks_trans (delMarks p) (merging.marks k p ((sub k).subset inG))
      frame := sameFrame_trans (listDel_frame z buddy) merging.frame }

/-- What the merging loop leaves: the block that it made is off the lists. -/
structure Merged (z : Zone) (live : List Block) (y : Zone) (G : Nat → List Nat) (p k : Nat) : Prop where
  sound : Sound y G live
  clear : Vacant z G live ⟨p,k⟩
  low : k ≤ maxOrder
  frame : SameFrame y z
  marks : ∀ i, SameMarks (y.pages i) (z.pages i)

theorem coalesce_sound {live₀ : List Block} (firstSound : Sound first F₀ live₀) (rounds page order : Nat)
    (sound : Sound z F live) (merging : Merging first z F₀ F) (clear : Vacant z F live ⟨page,order⟩)
    (low : order ≤ maxOrder) (behind : MergesBehindHead first rounds (z.basePfn + page) order) :
    ∃ y G p k, coalesce rounds z page order = some (y,p,k) ∧ Merged z live y G p k := by
  induction rounds generalizing z F page order with
  | zero => exact ⟨_,_,_,_,rfl,sound,clear,low,⟨rfl,rfl,rfl,rfl,rfl⟩,fun _ => ⟨rfl,rfl,rfl⟩⟩
  | succ rounds ih =>
    have stays : Merged z live z F page order := ⟨sound,clear,low,⟨rfl,rfl,rfl,rfl,rfl⟩,fun _ => ⟨rfl,rfl,rfl⟩⟩
    rw [coalesce]
    split_ifs with top
    · exact ⟨_,_,_,_,rfl,stays⟩
    rcases behind with reached | ⟨buddy,buddyIs,merges⟩
    · exact absurd reached top
    have positive := Nat.two_pow_pos order
    have bound := clear.inside.2
    simp only [Block.size] at bound
    have inside : page < z.totalPages := by omega
    have pageFrame := sound.frames page inside
    have ends := sound.ends
    obtain ⟨-,total,reserved,base,zoneEnd⟩ := merging.frame
    have buddyHere : pfnToPage z (buddyPfn (z.pages page).pfn order) = some buddy := by
      rw [pageFrame]
      simpa only [pfnToPage,base,zoneEnd,Option.mem_def] using buddyIs
    have located : buddyPfn (z.basePfn + page) order = z.basePfn + buddy ∧ buddy < z.totalPages := by
      rw [pageFrame,pfnToPage] at buddyHere
      split_ifs at buddyHere with outside
      cases buddyHere
      omega
    have buddyFrame := sound.frames buddy located.2
    rw [buddyHere]
    simp only [Option.bind_eq_bind,Option.bind_some]
    rw [if_neg (by omega)]
    split
    · exact ⟨_,_,_,_,rfl,stays⟩
    rename_i isUsed
    split
    · exact ⟨_,_,_,_,rfl,stays⟩
    rename_i otherOrder
    rw [sound.inFreelist]
    by_cases member : buddy ∈ F order
    · have same := merging.marks order buddy member
      obtain ⟨notHead,later⟩ := merges ⟨by rw [← same.2.1]; simpa using isUsed,by rw [← same.1]; simpa using otherOrder,
        by rw [firstSound.inFreelist]; simpa using merging.fewer order buddy member⟩
      obtain ⟨G,nextSound,nextMerging,joined,marks⟩ := merging.unlisted sound clear member notHead located.1
      have frame := unlisted_frame z order buddy
      have chosen : (if ((unlisted z order buddy).pages buddy).pfn < ((unlisted z order buddy).pages page).pfn then buddy else page) =
          if buddy < page then buddy else page := by
        rw [(marks buddy).2.2,(marks page).2.2,buddyFrame,pageFrame]
        simp
      obtain ⟨y,H,p,k,done,ySound,yClear,yLow,yFrame,yMarks⟩ := ih (if buddy < page then buddy else page) (order+1)
        nextSound nextMerging (frame.vacant.mpr joined.1) (by omega)
        (by rw [frame.2.2.2.1,← joined.2]; exact later)
      refine ⟨y,H,p,k,?_,ySound,frame.vacant.mp yClear,yLow,sameFrame_trans yFrame frame,fun i => sameMarks_trans (yMarks i) (marks i)⟩
      rw [← done,← chosen]
      simp only [member]
      rfl
    · simp only [member]
      exact ⟨_,_,_,_,rfl,stays⟩

theorem buddyFreePages_sound (sound : Sound z F live) (marked : Marked z live) (member : b ∈ live)
    (behind : MergesBehindHead z (maxOrder+1) (z.pages b.first).pfn (z.pages b.first).order) :
    ∃ y G, buddyFreePages z (some b.first) = some y ∧ Sound y G (live.filter (fun c => c.first ≠ b.first)) ∧
      SameFrame y z ∧ Marked y (live.filter (fun c => c.first ≠ b.first)) := by
  obtain ⟨isUsed,orderIs,low⟩ := marked b member
  set rest := live.filter (fun c => c.first ≠ b.first)
  have others : ∀ c ∈ rest, c ∈ live ∧ c.first ≠ b.first := fun c inRest => by simpa [rest] using inRest
  obtain ⟨restLayout,clear⟩ := sound.layout.release member rest List.filter_sublist (fun inRest => (others b inRest).2 rfl)
  let cleared : Zone := { z.setPage b.first (fun r => { r with flags := r.flags &&& ~~~flagUsed }) with
    usedPages := sub64 (z.setPage b.first (fun r => { r with flags := r.flags &&& ~~~flagUsed })).usedPages
      (2^(z.pages b.first).order) }
  have elsewhere : ∀ i, i ≠ b.first → SameMarks (cleared.pages i) (z.pages i) := by
    intro i other
    simp only [cleared,setPage_pages,other]
    exact ⟨rfl,rfl,rfl⟩
  have released : Sound z F rest := { sound with layout := restLayout }
  have unmarked := released.setPage b.first (fun r => { r with flags := r.flags &&& ~~~flagUsed }) (fun _ => ⟨rfl,rfl,rfl⟩)
  have clearedSound : Sound cleared F rest := unmarked.congr rfl ⟨rfl,rfl,rfl,rfl,rfl⟩ (fun _ => ⟨rfl,rfl,rfl⟩)
  have merging : Merging z cleared F F :=
    ⟨rfl,fun _ _ inF => inF,fun k p inF => elsewhere p (clear.free k p inF).ne.symm,⟨rfl,rfl,rfl,rfl,rfl⟩⟩
  have inside : b.first < z.totalPages := by
    have bound := clear.inside.2
    have positive := b.size_pos
    omega
  have pfnIs := sound.frames b.first inside
  obtain ⟨y,G,p,k,done,ySound,yClear,yLow,yFrame,yMarks⟩ := coalesce_sound sound (maxOrder+1) b.first b.order
    clearedSound merging clear low (by rw [← orderIs]; rw [pfnIs] at behind; exact behind)
  let ordered := y.setPage p (fun r => { r with order := k })
  have orderedSound : Sound ordered G rest := ySound.setPage _ _ (fun _ => ⟨rfl,rfl,rfl⟩)
  refine ⟨listAdd ordered k p,_,?_,orderedSound.listAdd yLow (yFrame.vacant.mpr yClear : Vacant y G _ _),?_,?_⟩
  · simp only [buddyFreePages,isUsed]
    rw [← orderIs] at done
    rw [done]
    rfl
  · exact sameFrame_trans (listAdd_frame ordered k p) yFrame
  · intro c inRest
    have notHere : c.first ≠ p := (yClear.held c inRest).ne.symm
    have same := sameMarks_trans (yMarks c.first) (elsewhere c.first (others c inRest).2)
    simp only [listAdd_pages,ordered,setPage_pages,notHere,↓reduceIte]
    rw [same.1,same.2.1]
    exact marked c (others c inRest).1

/-! ### Initialisation -/

theorem fitOrder_fits {freePages : Nat} (some : 0 < freePages) : ∀ order, 2^(fitOrder freePages order) ≤ freePages := by
  intro order
  induction order with
  | zero => simp [fitOrder]; omega
  | succ order ih =>
    rw [fitOrder]
    split_ifs with large
    · exact ih
    · omega

private theorem fitOrder_le (freePages : Nat) : ∀ order, fitOrder freePages order ≤ order := by
  intro order
  induction order with
  | zero => exact Nat.le_refl 0
  | succ order ih =>
    rw [fitOrder]
    split_ifs with large
    · omega
    · exact Nat.le_refl _

theorem carve_sound (rounds freeStart freePages : Nat) (sound : Sound z F []) (total : freeStart + freePages = z.totalPages)
    (reserved : z.reservedPages ≤ freeStart) (below : ∀ k, ∀ p ∈ F k, p + 2^k ≤ freeStart) :
    ∃ G, Sound (carve rounds freeStart freePages z) G [] ∧ SameFrame (carve rounds freeStart freePages z) z := by
  induction rounds generalizing freeStart freePages z F with
  | zero => exact ⟨F,sound,rfl,rfl,rfl,rfl,rfl⟩
  | succ rounds ih =>
    rw [carve]
    split_ifs with more
    · have fits := fitOrder_fits more maxOrder
      have low := fitOrder_le freePages maxOrder
      generalize fitOrder freePages maxOrder = order at fits low
      have positive := Nat.two_pow_pos order
      let ordered := z.setPage freeStart (fun r => { r with order := order })
      have orderedSound : Sound ordered F [] := sound.setPage _ _ (fun _ => ⟨rfl,rfl,rfl⟩)
      have clear : Vacant ordered F [] ⟨freeStart,order⟩ := by
        refine ⟨⟨reserved,?_⟩,fun k p member => .inr (below k p member),by simp⟩
        show freeStart + 2^order ≤ z.totalPages
        omega
      have added := orderedSound.listAdd low clear
      have frame : SameFrame (listAdd ordered order freeStart) z := listAdd_frame ordered order freeStart
      obtain ⟨G,carved,carvedFrame⟩ := ih (freeStart + 2^order) (freePages - 2^order) added
        (by rw [frame.2.1]; omega) (by rw [frame.2.2.1]; omega) (by
          have still := fun k p member => (below k p member).trans (Nat.le_add_right freeStart (2^order))
          exact update_cases (List.forall_mem_cons.mpr ⟨Nat.le_refl _,still order⟩) (fun k _ => still k))
      exact ⟨G,carved,sameFrame_trans carvedFrame frame⟩
    · exact ⟨F,sound,rfl,rfl,rfl,rfl,rfl⟩

/-- Carving takes every free page: when it stops, none is left. -/
theorem carve_complete (rounds freeStart freePages : Nat) (z : Zone) (le : freePages ≤ rounds) :
    carve rounds freeStart freePages z = carve (rounds+1) freeStart freePages z := by
  induction rounds generalizing freeStart freePages z with
  | zero => simp [carve,Nat.le_zero.mp le]
  | succ rounds ih =>
    rw [carve,carve]
    split_ifs with more
    · have positive := Nat.two_pow_pos (fitOrder freePages maxOrder)
      exact ih _ _ _ (by omega)
    · rfl

theorem buddyInit_inv {baseAddr sizeBytes : Nat} (fits : ArrayFits baseAddr sizeBytes) :
    Inv (start baseAddr sizeBytes) := by
  have bare : Sound (bareZone baseAddr sizeBytes) (fun _ => []) [] := by
    refine ⟨?_,?_,fun k => rfl,⟨by simp,by simp,by simp,by simp,by simp,by simp⟩,by simp⟩
    · intro i bound
      have inside : i < baseAddr / pageSize + sizeBytes / pageSize - baseAddr / pageSize := bound
      simp only [bareZone,inside,↓reduceIte]
    · simp only [bareZone,pageSize]
      omega
  have reserved : (bareZone baseAddr sizeBytes).reservedPages ≤ (bareZone baseAddr sizeBytes).totalPages := by
    simp only [bareZone,pageSize,sizeofPage]
    omega
  obtain ⟨G,sound,frame⟩ := carve_sound
    ((bareZone baseAddr sizeBytes).totalPages - (bareZone baseAddr sizeBytes).reservedPages)
    (bareZone baseAddr sizeBytes).reservedPages
    ((bareZone baseAddr sizeBytes).totalPages - (bareZone baseAddr sizeBytes).reservedPages) bare
    (by omega) (Nat.le_refl _) nofun
  refine ⟨⟨G,sound⟩,by simp [start,Marked],?_⟩
  obtain ⟨array,total,reservedIs,base,-⟩ := frame
  show (Zone.pageArray _ + Zone.totalPages _ * sizeofPage + pageSize - 1) / pageSize ≤ Zone.basePfn _ + Zone.reservedPages _
  simp only [start,buddyInit]
  rw [array,total,reservedIs,base]
  simp only [ArrayFits,bareZone,pageSize,sizeofPage] at fits ⊢
  omega

theorem Inv.safe {s : State} (inv : Inv s) : Safe s := by
  obtain ⟨F,sound⟩ := inv.sound
  have freeIs : ∀ b, Free s.zone b → b.first ∈ F b.order := fun b free =>
    (linked_reachable (sound.lists b.order) b.first).mp free.2
  have liveFrame : ∀ b ∈ s.live, (s.zone.pages b.first).pfn = s.zone.basePfn + b.first := by
    intro b member
    have bound := (sound.layout.heldIn b member).2
    have positive := b.size_pos
    exact sound.frames b.first (by omega)
  have freeFrame : ∀ b : Block, b.first ∈ F b.order → (s.zone.pages b.first).pfn = s.zone.basePfn + b.first :=
    fun b member => sound.frames b.first (sound.below member)
  have shift : ∀ b c : Block, (s.zone.pages b.first).pfn = s.zone.basePfn + b.first →
      (s.zone.pages c.first).pfn = s.zone.basePfn + c.first → Block.Apart b c → FramesApart s.zone b c := by
    intro b c first second apart
    unfold FramesApart Apart
    unfold Block.Apart Apart at apart
    omega
  refine ⟨?_,?_,?_,?_,?_⟩
  · exact sound.layout.heldApart.imp_of_mem
      (fun first second apart => shift _ _ (liveFrame _ first) (liveFrame _ second) apart)
  · intro b member
    have bound := (sound.layout.heldIn b member).2
    have ends := sound.ends
    rw [liveFrame b member]
    omega
  · intro b member
    have bound := (sound.layout.heldIn b member).1
    have fits := inv.arrayFits
    rw [liveFrame b member]
    omega
  · intro b member c free
    exact shift b c (liveFrame b member) (freeFrame c (freeIs c free))
      (sound.layout.mixedApart b member c.order c.first (freeIs c free))
  · intro b c first second different
    exact shift b c (freeFrame b (freeIs b first)) (freeFrame c (freeIs c second))
      (sound.layout.freeApart b.order c.order b.first c.first (freeIs b first) (freeIs c second) different)

theorem step_inv (s : State) (r : Request) (inv : Inv s) (ok : Legal s r ∧ Meets s r) :
    ∃ t, step s r = some t ∧ Inv t := by
  obtain ⟨F,sound⟩ := inv.sound
  have arrayKept : ∀ {y : Zone}, SameFrame y s.zone → arrayEnd y ≤ y.basePfn + y.reservedPages := by
    intro y frame
    obtain ⟨array,total,reserved,base,-⟩ := frame
    unfold arrayEnd
    rw [array,total,reserved,base]
    exact inv.arrayFits
  cases r with
  | alloc order =>
    obtain ⟨page,y,G,done,ySound,frame,marks,handed⟩ := buddyAllocPages_sound sound ok.2
    have kept : Marked y s.live := by
      intro b member
      rw [(marks b member).1,(marks b member).2.1]
      exact inv.marked b member
    cases page with
    | none => exact ⟨⟨y,s.live⟩,by simp [step,done],⟨⟨G,ySound⟩,kept,arrayKept frame⟩⟩
    | some p =>
      obtain ⟨low,clear,isUsed,orderIs⟩ := handed p rfl
      refine ⟨⟨y,⟨p,order⟩ :: s.live⟩,by simp [step,done],⟨⟨G,?_⟩,?_,arrayKept frame⟩⟩
      · exact { ySound with layout := ySound.layout.hold (frame.vacant.mpr clear) }
      · exact List.forall_mem_cons.mpr ⟨⟨isUsed,orderIs,low⟩,kept⟩
  | free page =>
    obtain ⟨⟨b,member,rfl⟩,behind⟩ := ok
    obtain ⟨y,G,done,ySound,frame,kept⟩ := buddyFreePages_sound sound inv.marked member behind
    exact ⟨⟨y,s.live.filter (fun c => c.first ≠ b.first)⟩,by simp [step,done],⟨⟨G,ySound⟩,kept,arrayKept frame⟩⟩

/-- While every split and every merge is aligned, live blocks lie in the zone behind the page array, apart from each
    other and from the free ones. -/
theorem buddy_run_safe (baseAddr sizeBytes : Nat) (fits : ArrayFits baseAddr sizeBytes) (requests : List Request)
    (guarded : Guarded step (fun s r => Legal s r ∧ Meets s r) (start baseAddr sizeBytes) requests) :
    ∃ s, run step (start baseAddr sizeBytes) requests = some s ∧ Safe s := by
  obtain ⟨s,ran,inv⟩ := run_invariant step_inv requests _ (buddyInit_inv fits) guarded
  exact ⟨s,ran,inv.safe⟩

theorem buddy_run_safe_split_and_merge :
    ∃ s, run step (start 0x1000000 65536) [.alloc 1,.alloc 1,.free 13,.free 9] = some s ∧ Safe s :=
  buddy_run_safe 0x1000000 65536 (by decide) [.alloc 1,.alloc 1,.free 13,.free 9] (by decide)

/-- In a zone of 16 pages, of which the page array takes the first, a second
    single page is split off below the block it is taken from, into another free
    block; and a merge with the first page of a free list leaves it there. -/
theorem buddy_run_overlaps :
    (Guarded step Legal (start 0x1000000 65536) [.alloc 0,.alloc 0] ∧
      ∀ s, run step (start 0x1000000 65536) [.alloc 0,.alloc 0] = some s → ¬ Safe s) ∧
    (Guarded step Legal (start 0x1000000 65536) [.alloc 1,.alloc 1,.free 9] ∧
      ∀ s, run step (start 0x1000000 65536) [.alloc 1,.alloc 1,.free 9] = some s → ¬ Safe s) := by
  have overlap : ∀ (requests : List Request) (b c : Block), b ≠ c → b.order ≤ maxOrder → c.order ≤ maxOrder →
      (run step (start 0x1000000 65536) requests).map (fun s => (s.zone.freeList b.order,s.zone.freeList c.order)) =
        some (some b.first,some c.first) →
      (run step (start 0x1000000 65536) requests).map (fun s => decide (FramesApart s.zone b c)) = some false →
      ∀ s, run step (start 0x1000000 65536) requests = some s → ¬ Safe s := by
    intro requests b c different bLow cLow heads meet s ran safe
    rw [ran] at heads meet
    simp only [Option.map_some,Option.some.injEq,Prod.mk.injEq,decide_eq_false_iff_not] at heads meet
    exact meet (safe.freeApart b c ⟨bLow,0,heads.1⟩ ⟨cLow,0,heads.2⟩ different)
  exact ⟨⟨by decide,overlap _ ⟨12,0⟩ ⟨9,2⟩ nofun (by decide) (by decide) (by decide) (by decide)⟩,
    ⟨by decide,overlap _ ⟨11,1⟩ ⟨9,2⟩ nofun (by decide) (by decide) (by decide) (by decide)⟩⟩

end
end Kenux.Buddy
