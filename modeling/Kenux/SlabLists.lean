import Kenux.Slab

/-!
The lists of a slab cache over runs of `kmem_cache_alloc` and `kmem_cache_free`.
While every allocation finds a slab in the partial list, or finds no slab and gets
no pages, each slab is in the list that its state names and its number of free
objects asks for (`slab_run_sorted`). A slab that is new, or that comes from the
empty list, is put in the partial list while its state still says empty, so it is
taken out of the wrong list and put in front of itself (`slab_first_alloc_cycles`).
-/
namespace Kenux.SlabLists
open Kenux.Bytes Kenux.Links Kenux.Words Kenux.Slab Kenux.Runs
open Kenux.Blocks (Apart)
open Function (update update_self update_of_ne)

inductive Request where
  | alloc (pages : Nat)
  | free (obj : Nat)
  deriving DecidableEq, Repr

/-- The memory and the cache, the slabs that were created, and the objects that were
    allocated and not freed. -/
structure State where
  world : World
  slabs : List Nat
  live : List Nat

def created (pages : Nat) (w : World) : List Nat :=
  if w.cache.heads .part = 0 ∧ w.cache.heads .empty = 0 ∧ pages ≠ 0 then [add64 pages (w.cache.slabSize - sizeofSlab)] else []

def step (fuel : Nat) (s : State) : Request → Option State
  | .alloc pages =>
    let (obj,w) := kmemCacheAlloc pages s.world
    some ⟨w,created pages s.world ++ s.slabs,if obj = 0 then s.live else obj :: s.live⟩
  | .free obj => do some ⟨← kmemCacheFree fuel obj s.world,s.slabs,s.live.erase obj⟩

def start (memory : Nat → UInt8) (cache : Cache) : State := ⟨⟨memory,cache⟩,[],[]⟩

def base (c : Cache) (slab : Nat) : Nat := slab + sizeofSlab - c.slabSize

/-- New pages are apart from those of the slabs; what is freed is live. -/
def Legal (s : State) : Request → Prop
  | .alloc pages => pages = 0 ∨ (pages + s.world.cache.slabSize < 2^64 ∧
      ∀ slab ∈ s.slabs, Apart pages s.world.cache.slabSize (base s.world.cache slab) s.world.cache.slabSize)
  | .free obj => obj ∈ s.live

instance (s : State) (a : Request) : Decidable (Legal s a) :=
  match a with
  | .alloc _ => inferInstanceAs (Decidable (_ ∨ (_ ∧ ∀ slab ∈ s.slabs, _)))
  | .free obj => inferInstanceAs (Decidable (obj ∈ s.live))

/-- An allocation finds a partial slab, or no slab and no pages. -/
def Meets (s : State) : Request → Prop
  | .alloc pages => s.world.cache.heads .part ≠ 0 ∨ (s.world.cache.heads .empty = 0 ∧ pages = 0)
  | .free _ => True

instance (s : State) (a : Request) : Decidable (Meets s a) :=
  match a with
  | .alloc _ => inferInstanceAs (Decidable (_ ∨ (_ ∧ _)))
  | .free _ => inferInstanceAs (Decidable True)

def pointer (p : Nat) : Option Nat := if p = 0 then none else some p

/-- Each slab is in exactly one list, the one named by its state and implied by its
    number of free objects, which is the length of its free list; the lists end. -/
def Sorted (s : State) : Prop :=
  ∃ lists : Kind → List Nat,
    (∀ k, Chain (fun slab => pointer (s.world.get .next slab)) (pointer (s.world.cache.heads k)) (lists k) ∧ (lists k).Nodup) ∧
    (∀ slab, slab ∈ s.slabs ↔ ∃ k, slab ∈ lists k) ∧ (∀ j k slab, slab ∈ lists j → slab ∈ lists k → j = k) ∧
    (∀ k, ∀ slab ∈ lists k, s.world.get .state slab = k.code ∧
      Kind.ofCount (s.world.get .freeCount slab) (s.world.get .objCount slab) = k) ∧
    ∀ slab ∈ s.slabs, ∃ free, Chain (fun obj => pointer (s.world.link obj)) (pointer (s.world.get .freeList slab)) free ∧
      s.world.get .freeCount slab = free.length

/-! ### Where slabs and objects are -/

def IsObject (c : Cache) (slab obj : Nat) : Prop := ∃ i < c.objsPerSlab, obj = base c slab + i * c.objSize

/-- The pages of the slabs are apart, and the links of the objects end before the header. -/
structure Layout (c : Cache) (slabs : List Nat) : Prop where
  apart : ∀ s ∈ slabs, ∀ t ∈ slabs, s ≠ t → Apart (base c s) c.slabSize (base c t) c.slabSize
  inside : ∀ s ∈ slabs, c.slabSize < s + sizeofSlab ∧ s + sizeofSlab < 2^64
  objects : slabs ≠ [] → 8 ≤ c.objSize ∧ 0 < c.objsPerSlab ∧ c.objsPerSlab < 2^32 ∧
    (c.objsPerSlab - 1) * c.objSize + 8 + sizeofSlab ≤ c.slabSize

section
variable {c : Cache} {w x : World} {slabs objs : List Nat} {s t o o' v p n obj : Nat} {f g : Slot} {k : Kind}

private theorem slot_apart (other : f ≠ g) :
    f.field.offset + f.field.size ≤ g.field.offset ∨ g.field.offset + g.field.size ≤ f.field.offset := by
  revert other
  cases f <;> cases g <;> decide

theorem slot_inside (f : Slot) : f.field.offset + f.field.size ≤ 56 := by
  cases f <;> decide

@[simp] theorem set_cache : (w.set f s v).cache = w.cache := rfl
@[simp] theorem setLink_cache : (w.setLink o v).cache = w.cache := rfl
@[simp] theorem counts_heads (total unused : Nat) : (c.counts total unused).heads = c.heads := rfl
theorem counts_shape (total unused : Nat) : (c.counts total unused).objsPerSlab = c.objsPerSlab ∧
    (c.counts total unused).objSize = c.objSize ∧ (c.counts total unused).slabOrder = c.slabOrder := ⟨rfl,rfl,rfl⟩
theorem withCache_get (cache : Cache) : ({ w with cache := cache } : World).get g s = w.get g s := rfl
private theorem withCache_link (cache : Cache) : ({ w with cache := cache } : World).link o = w.link o := rfl
@[simp] theorem setHead_get : (w.setHead k v).get g s = w.get g s := rfl
@[simp] theorem setHead_link : (w.setHead k v).link o = w.link o := rfl

private theorem get_set_here : (w.set f s v).get g s = if g = f then v % 256 ^ f.field.size else w.get g s := by
  split
  case isTrue same =>
    subst same
    exact Field.get_set_self
  case isFalse other =>
    have apart := slot_apart other
    exact Field.get_set_of_apart (by omega)

private theorem get_lt : w.get f s < 256 ^ f.field.size := load_lt

private theorem link_lt : w.link o < 256^8 := load_lt

private theorem count_fits (few : v < 2^32) : v < 256 ^ Slot.freeCount.field.size := Nat.lt_of_lt_of_le few (by decide)

section
variable (layout : Layout c slabs) (inS : s ∈ slabs)
include layout inS

theorem Layout.object_below (object : IsObject c s o) :
    base c s ≤ o ∧ o + 8 ≤ s ∧ base c s + c.slabSize = s + 56 ∧ 0 < base c s := by
  obtain ⟨i,low,rfl⟩ := object
  have insideS := layout.inside s inS
  obtain ⟨-,-,-,fits⟩ := layout.objects (List.ne_nil_of_mem inS)
  have before : i * c.objSize ≤ (c.objsPerSlab - 1) * c.objSize := Nat.mul_le_mul_right _ (by omega)
  simp only [base,sizeofSlab] at *
  omega

theorem Layout.slab_lt : s < 256^8 := by
  have inside := layout.inside s inS
  omega

theorem Layout.slab_ne_zero : s ≠ 0 := by
  have inside := layout.inside s inS
  have fits := (layout.objects (List.ne_nil_of_mem inS)).2.2.2
  omega

variable (inT : t ∈ slabs)
include inT

theorem Layout.header_apart (other : s ≠ t) :
    s + 56 ≤ t ∨ t + 56 ≤ s := by
  have apart := layout.apart s inS t inT other
  have fits := (layout.objects (List.ne_nil_of_mem inS)).2.2.2
  simp only [Apart,base,sizeofSlab] at *
  omega

theorem get_set :
    (w.set f s v).get g t = if g = f ∧ t = s then v % 256 ^ f.field.size else w.get g t := by
  have insideF := slot_inside f
  have insideG := slot_inside g
  by_cases sameSlab : t = s
  · subst sameSlab
    rw [get_set_here]
    simp only [and_true]
  · simp only [sameSlab,and_false]
    have apart := layout.header_apart inT inS sameSlab
    exact Field.get_set_of_apart (by omega)

section
variable (object : IsObject c t o)
include object

theorem Layout.object_header :
    o + 8 ≤ s ∨ s + 56 ≤ o := by
  obtain ⟨above,below,whole,-⟩ := layout.object_below inT object
  by_cases same : s = t
  · subst same
    exact .inl below
  · have apart := layout.apart s inS t inT same
    simp only [Apart,base] at *
    omega

theorem link_set :
    (w.set f s v).link o = w.link o := by
  have insideF := slot_inside f
  have apart := layout.object_header inS inT object
  exact Field.load_set_of_apart (by omega)

theorem get_setLink :
    (w.setLink o v).get g s = w.get g s := by
  have insideG := slot_inside g
  have apart := layout.object_header inS inT object
  exact Field.get_store_of_apart (by omega)

end

section
variable (objectS : IsObject c s o)
include objectS

theorem Layout.object_apart
    (objectT : IsObject c t o') (other : o ≠ o') : o + 8 ≤ o' ∨ o' + 8 ≤ o := by
  by_cases same : s = t
  · subst same
    obtain ⟨i,-,rfl⟩ := objectS
    obtain ⟨j,-,rfl⟩ := objectT
    have size := (layout.objects (List.ne_nil_of_mem inS)).1
    have after : ∀ {i j}, i < j → i * c.objSize + c.objSize ≤ j * c.objSize :=
      fun less => Nat.succ_mul .. ▸ Nat.mul_le_mul_right _ less
    rcases Nat.lt_trichotomy i j with less | rfl | more
    · have step := after less
      omega
    · exact absurd rfl other
    · have step := after more
      omega
  · obtain ⟨aboveS,belowS,wholeS,-⟩ := layout.object_below inS objectS
    obtain ⟨aboveT,belowT,wholeT,-⟩ := layout.object_below inT objectT
    have apart := layout.apart s inS t inT same
    simp only [Apart] at apart
    omega

theorem Layout.object_unique
    (objectT : IsObject c t o) : s = t := by
  by_contra other
  obtain ⟨aboveS,belowS,wholeS,-⟩ := layout.object_below inS objectS
  obtain ⟨aboveT,belowT,wholeT,-⟩ := layout.object_below inT objectT
  have apart := layout.apart s inS t inT other
  simp only [Apart] at apart
  omega

theorem link_setLink
    (objectT : IsObject c t o') : (w.setLink o v).link o' = if o' = o then v % 256^8 else w.link o' := by
  by_cases same : o' = o
  · subst same
    rw [if_pos rfl]
    exact load_store
  · rw [if_neg same]
    have apart := layout.object_apart inT inS objectT objectS same
    exact load_store_of_apart apart

end

theorem get_set_of_lt (fits : v < 256 ^ f.field.size) :
    (w.set f s v).get g t = if g = f ∧ t = s then v else w.get g t := by
  rw [get_set layout inS inT,Nat.mod_eq_of_lt fits]

end

/-! ### The list operations -/

section
variable (layout : Layout c slabs) (inT : t ∈ slabs) (pIn : p ≠ 0 → p ∈ slabs)
include layout inT pIn

theorem get_setIf (fits : v < 256 ^ f.field.size) (same : x.get g t = w.get g t) :
    (if p ≠ 0 then w.set f p v else x).get g t = if g = f ∧ p ≠ 0 ∧ t = p then v else w.get g t := by
  split
  case isTrue present =>
    rw [get_set_of_lt layout (pIn present) inT fits]
    simp [present]
  case isFalse none => simp [none,same]

private theorem link_setIf (object : IsObject c t o) (same : x.link o = w.link o) : (if p ≠ 0 then w.set f p v else x).link o = w.link o := by
  split
  case isTrue present => exact link_set layout (pIn present) inT object
  · exact same

end

section
variable (layout : Layout c slabs) (inS : s ∈ slabs) (inT : t ∈ slabs)
  (headIn : w.cache.heads k ≠ 0 → w.cache.heads k ∈ slabs)
include layout inS inT headIn

theorem slabAdd_get : (slabAdd k s w).get g t =
      if g = .prev ∧ w.cache.heads k ≠ 0 ∧ t = w.cache.heads k then s
      else if g = .prev ∧ t = s then 0
      else if g = .next ∧ t = s then w.cache.heads k
      else w.get g t := by
  have headFits : w.cache.heads k < 256^8 := by
    by_cases none : w.cache.heads k = 0
    · omega
    · exact layout.slab_lt (headIn none)
  dsimp only [slabAdd]
  rw [setHead_get,get_setIf layout inT headIn (layout.slab_lt inS) rfl,get_set_of_lt layout inS inT (by decide),
    get_set_of_lt layout inS inT headFits]

theorem slabAdd_link (object : IsObject c t o) : (slabAdd k s w).link o = w.link o := by
  dsimp only [slabAdd]
  rw [setHead_link,link_setIf layout inT headIn object rfl,link_set layout inS inT object,link_set layout inS inT object]

end

theorem slabAdd_cache : (slabAdd k s w).cache = { w.cache with heads := update w.cache.heads k s } := by
  simp only [slabAdd]
  split <;> rfl

section
variable (layout : Layout c slabs) (inS : s ∈ slabs) (inT : t ∈ slabs)
  (prevIn : w.get .prev s ≠ 0 → w.get .prev s ∈ slabs) (nextIn : w.get .next s ≠ 0 → w.get .next s ∈ slabs)
include layout inT

include prevIn in
theorem slabSkip_get : (slabSkip k s w).get g t =
    if g = .next ∧ w.get .prev s ≠ 0 ∧ t = w.get .prev s then w.get .next s else w.get g t :=
  get_setIf layout inT prevIn get_lt rfl

include prevIn in
private theorem slabSkip_link (object : IsObject c t o) : (slabSkip k s w).link o = w.link o :=
  link_setIf layout inT prevIn object rfl

include prevIn in
omit inT in
private theorem slabSkip_next (inS : s ∈ slabs) : (slabSkip k s w).get .next s = w.get .next s := by
  rw [slabSkip_get layout inS prevIn]
  split <;> rfl

include nextIn in
private theorem slabBack_get : (slabBack s w).get g t =
    if g = .prev ∧ w.get .next s ≠ 0 ∧ t = w.get .next s then w.get .prev s else w.get g t :=
  get_setIf layout inT nextIn get_lt rfl

include nextIn in
private theorem slabBack_link (object : IsObject c t o) : (slabBack s w).link o = w.link o :=
  link_setIf layout inT nextIn object rfl

include inS prevIn nextIn in
theorem slabRemove_get : (slabRemove k s w).get g t =
    if g = .next ∧ t = s then 0
    else if g = .prev ∧ t = s then 0
    else if g = .prev ∧ w.get .next s ≠ 0 ∧ t = w.get .next s then w.get .prev s
    else if g = .next ∧ w.get .prev s ≠ 0 ∧ t = w.get .prev s then w.get .next s
    else w.get g t := by
  have nextKept := slabSkip_next (k := k) layout prevIn inS
  have prevKept : (slabSkip k s w).get .prev s = w.get .prev s := by simp [slabSkip_get layout inS prevIn]
  rw [slabRemove,get_set_of_lt layout inS inT (by decide),get_set_of_lt layout inS inT (by decide),
    slabBack_get layout inT (by rw [nextKept]; exact nextIn),nextKept,prevKept,slabSkip_get layout inT prevIn]

include inS prevIn nextIn in
theorem slabRemove_link (object : IsObject c t o) : (slabRemove k s w).link o = w.link o := by
  have nextKept := slabSkip_next (k := k) layout prevIn inS
  rw [slabRemove,link_set layout inS inT object,link_set layout inS inT object,
    slabBack_link layout inT (by rw [nextKept]; exact nextIn) object,slabSkip_link layout inT prevIn object]

end

theorem slabRemove_cache : (slabRemove k s w).cache =
    { w.cache with heads := if w.get .prev s = 0 then update w.cache.heads k (w.get .next s) else w.cache.heads } := by
  simp only [slabRemove,slabBack]
  split <;> simp only [slabSkip] <;> split <;> simp_all [World.setHead]

/-- The links of the slabs as pointers. -/
def nexts (w : World) (slab : Nat) : Option Nat := pointer (w.get .next slab)

def prevs (w : World) (slab : Nat) : Option Nat := pointer (w.get .prev slab)

def heads (w : World) (k : Kind) : Option Nat := pointer (w.cache.heads k)

private theorem pointer_eq_some {a : Nat} : pointer p = some a ↔ p ≠ 0 ∧ p = a := by
  unfold pointer
  split <;> simp_all

private theorem pointer_eq_none : pointer p = none ↔ p = 0 := by
  unfold pointer
  split <;> simp_all

private theorem pointer_ne_some {a : Nat} (other : pointer p ≠ some a) : ¬(p ≠ 0 ∧ a = p) :=
  fun both => other (pointer_eq_some.mpr ⟨both.1,both.2.symm⟩)

variable {lists : Kind → List Nat}

theorem code_lt (k : Kind) : k.code < 256 ^ Slot.state.field.size := by
  cases k <;> decide

theorem ofState_code (k : Kind) : Kind.ofState k.code = k := by
  cases k <;> rfl

section
variable (layout : Layout c slabs) (family : Family (nexts w) (prevs w) (heads w) lists)
  (members : ∀ k, ∀ t ∈ lists k, t ∈ slabs)
include layout family members

omit layout in
theorem head_mem (present : w.cache.heads k ≠ 0) : w.cache.heads k ∈ lists k ∧ w.cache.heads k ∈ slabs := by
  have member := family.head_mem (pointer_eq_some.mpr ⟨present,rfl⟩ : heads w k = _)
  exact ⟨member,members k _ member⟩

omit layout in
theorem prev_mem (member : s ∈ lists k) (present : w.get .prev s ≠ 0) : w.get .prev s ∈ slabs :=
  members k _ (family.prev_mem member (pointer_eq_some.mpr ⟨present,rfl⟩ : prevs w s = _))

omit layout in
theorem next_mem (member : s ∈ lists k) (present : w.get .next s ≠ 0) : w.get .next s ∈ slabs :=
  members k _ (family.next_mem member (pointer_eq_some.mpr ⟨present,rfl⟩ : nexts w s = _))

private theorem slabRemove_kept (member : s ∈ lists k) (inT : t ∈ slabs) (notNext : g ≠ .next) (notPrev : g ≠ .prev) :
    (slabRemove k s w).get g t = w.get g t := by
  rw [slabRemove_get layout (members k s member) inT (prev_mem family members member) (next_mem family members member)]
  simp [notNext,notPrev]

private theorem slabAdd_kept (inS : s ∈ slabs) (inT : t ∈ slabs) (notNext : g ≠ .next) (notPrev : g ≠ .prev) :
    (slabAdd k s w).get g t = w.get g t := by
  rw [slabAdd_get layout inS inT (fun present => (head_mem family members present).2)]
  simp [notNext,notPrev]

theorem slabAdd_family (inS : s ∈ slabs) (fresh : ∀ j, s ∉ lists j) :
    Family (nexts (slabAdd k s w)) (prevs (slabAdd k s w)) (heads (slabAdd k s w))
      (update lists k (s :: lists k)) := by
  have headIn : w.cache.heads k ≠ 0 → w.cache.heads k ∈ slabs := fun present => (head_mem family members present).2
  have notHead : heads w k ≠ some s := fun first => fresh k (family.head_mem first)
  have others : ∀ j, ∀ b ∈ lists j, b ≠ s := fun j b member => ne_of_mem_of_not_mem member (fresh j)
  refine family.push fresh ?_ ?_ ?_ ?_ ?_ ?_
  · simp [nexts,heads,slabAdd_get layout inS inS headIn]
  · simp [prevs,slabAdd_get layout inS inS headIn,pointer_ne_some notHead,pointer]
  · intro j b member
    simp [nexts,slabAdd_get layout inS (members j b member) headIn,others j b member]
  · intro b first
    obtain ⟨present,rfl⟩ := pointer_eq_some.mp first
    simp [prevs,slabAdd_get layout inS (headIn present) headIn,present,pointer,layout.slab_ne_zero inS]
  · intro j b member notFirst
    simp [prevs,slabAdd_get layout inS (members j b member) headIn,pointer_ne_some notFirst,others j b member]
  · funext j
    by_cases same : j = k
    · subst same
      simp [heads,slabAdd_cache,pointer,layout.slab_ne_zero inS]
    · simp [heads,slabAdd_cache,same]

theorem slabRemove_family {left right : List Nat} (cells : lists k = left ++ s :: right) :
    Family (nexts (slabRemove k s w)) (prevs (slabRemove k s w)) (heads (slabRemove k s w))
      (update lists k (left ++ right)) := by
  have member : s ∈ lists k := by simp [cells]
  have inS := members k s member
  have prevIn : w.get .prev s ≠ 0 → w.get .prev s ∈ slabs := prev_mem family members member
  have nextIn : w.get .next s ≠ 0 → w.get .next s ∈ slabs := next_mem family members member
  have linked := family.linked k
  rw [cells] at linked
  have first : left = [] ↔ w.get .prev s = 0 := by
    have named := linked_prev_at linked
    rw [Option.or_none,prevs] at named
    rw [← List.getLast?_eq_none_iff,← named,pointer_eq_none]
  refine family.remove cells ?_ ?_ ?_ ?_ ?_
  · intro j b here other notPrev
    simp [nexts,slabRemove_get layout inS (members j b here) prevIn nextIn,other,pointer_ne_some notPrev]
  · intro j b here other notNext
    simp [prevs,slabRemove_get layout inS (members j b here) prevIn nextIn,other,pointer_ne_some notNext]
  · intro b here other named
    obtain ⟨present,rfl⟩ := pointer_eq_some.mp named
    simp [nexts,slabRemove_get layout inS (members k _ here) prevIn nextIn,other,present]
  · intro b here other named
    obtain ⟨present,rfl⟩ := pointer_eq_some.mp named
    simp [prevs,slabRemove_get layout inS (members k _ here) prevIn nextIn,other,present]
  · funext j
    by_cases none : w.get .prev s = 0
    · by_cases same : j = k
      · subst same
        simp [heads,slabRemove_cache,none,first.mpr none,nexts]
      · simp [heads,slabRemove_cache,none,first.mpr none,same]
    · rw [if_neg (first.not.mpr none),Function.update_eq_self]
      simp [heads,slabRemove_cache,none]

/-- What `__slab_rehome` leaves: the slab is in the list of its count, and nothing
    else changes but the links. -/
structure Rehomed (c : Cache) (slabs : List Nat) (s : Nat) (target : Kind) (w w' : World) (lists lists' : Kind → List Nat) :
    Prop where
  family : Family (nexts w') (prevs w') (heads w') lists'
  here : s ∈ lists' target
  others : ∀ j t, t ≠ s → (t ∈ lists' j ↔ t ∈ lists j)
  state : w'.get .state s = target.code
  kept : ∀ t ∈ slabs, ∀ g, g ≠ .next → g ≠ .prev → (g ≠ .state ∨ t ≠ s) → w'.get g t = w.get g t
  links : ∀ t ∈ slabs, ∀ o, IsObject c t o → w'.link o = w.link o
  cache : w'.cache = { w.cache with heads := w'.cache.heads }

theorem slabRehome_spec (member : s ∈ lists k) (state : w.get .state s = k.code) :
    ∃ lists', Rehomed c slabs s (Kind.ofCount (w.get .freeCount s) (w.get .objCount s)) w (slabRehome s w) lists lists' := by
  obtain ⟨target,isTarget⟩ : ∃ target, target = Kind.ofCount (w.get .freeCount s) (w.get .objCount s) := ⟨_,rfl⟩
  rw [← isTarget]
  have inS := members k s member
  obtain ⟨x,marked⟩ : ∃ x, x = w.set .state s target.code := ⟨_,rfl⟩
  have written : ∀ t ∈ slabs, ∀ g, x.get g t = if g = .state ∧ t = s then target.code else w.get g t := by
    intro t inT g
    rw [marked]
    exact get_set_of_lt layout inS inT (code_lt target)
  have familyX : Family (nexts x) (prevs x) (heads x) lists := by
    refine family.congr (by rw [marked]; rfl) (fun j t here => ?_) (fun j t here => ?_)
    · simp [nexts,written t (members j t here)]
    · simp [prevs,written t (members j t here)]
  have linksX : ∀ t ∈ slabs, ∀ o, IsObject c t o → x.link o = w.link o := by
    intro t inT o object
    rw [marked]
    exact link_set layout inS inT object
  have cacheX : x.cache = w.cache := by rw [marked]; rfl
  by_cases stays : k = target
  · have run : slabRehome s w = x := by simp [slabRehome,state,ofState_code,← isTarget,stays,marked]
    rw [run]
    refine ⟨lists,familyX,stays ▸ member,fun _ _ _ => Iff.rfl,by simp [written s inS],?_,linksX,by rw [cacheX]⟩
    intro t inT g _ _ other
    rw [written t inT,if_neg (fun both => other.elim (fun no => no both.1) (fun no => no both.2))]
  · have run : slabRehome s w = slabAdd target s (slabRemove k s x) := by
      simp [slabRehome,state,ofState_code,← isTarget,stays,marked]
    rw [run]
    obtain ⟨left,right,cells⟩ := List.append_of_mem member
    have removed := slabRemove_family layout familyX members cells
    have sub := family.parted.mem_without cells
    have members' : ∀ j, ∀ t ∈ update lists k (left ++ right) j, t ∈ slabs :=
      fun j t here => members j t ((sub j t).mp here).2
    have fresh : ∀ j, s ∉ update lists k (left ++ right) j := fun j here => ((sub j s).mp here).1 rfl
    refine ⟨_,slabAdd_family layout removed members' inS fresh,by simp,?_,?_,?_,?_,?_⟩
    · intro j t other
      by_cases same : j = target
      · subst same
        simp [sub,other]
      · simp [sub,other,same]
    · rw [slabAdd_kept layout removed members' inS inS (by simp) (by simp),
        slabRemove_kept layout familyX members member inS (by simp) (by simp)]
      simp [written s inS]
    · intro t inT g notNext notPrev other
      rw [slabAdd_kept layout removed members' inS inT notNext notPrev,
        slabRemove_kept layout familyX members member inT notNext notPrev,written t inT,
        if_neg (fun both => other.elim (fun no => no both.1) (fun no => no both.2))]
    · intro t inT o object
      rw [slabAdd_link layout inS inT (fun present => (head_mem removed members' present).2) object,
        slabRemove_link layout inS inT (prev_mem familyX members member) (next_mem familyX members member) object,
        linksX t inT o object]
    · rw [slabAdd_cache,slabRemove_cache,cacheX]

end

/-- The lists hold the slabs by their counts, the free lists hold free objects, and the
    live objects are not among them. -/
structure Inv (c : Cache) (w : World) (slabs live : List Nat) (lists : Kind → List Nat) (free : Nat → List Nat) : Prop where
  layout : Layout c slabs
  shape : w.cache.objsPerSlab = c.objsPerSlab ∧ w.cache.objSize = c.objSize ∧ w.cache.slabOrder = c.slabOrder
  family : Family (nexts w) (prevs w) (heads w) lists
  homes : ∀ s, s ∈ slabs ↔ ∃ k, s ∈ lists k
  kinds : ∀ k, ∀ s ∈ lists k, w.get .state s = k.code ∧ Kind.ofCount (free s).length c.objsPerSlab = k
  fields : ∀ s ∈ slabs, w.get .mem s = base c s ∧ w.get .objCount s = c.objsPerSlab ∧ w.get .freeCount s = (free s).length
  chains : ∀ s ∈ slabs, Chain (fun o => pointer (w.link o)) (pointer (w.get .freeList s)) (free s)
  objects : ∀ s ∈ slabs, (free s).Nodup ∧ ∀ o ∈ free s, IsObject c s o
  liveDistinct : live.Nodup
  liveObjects : ∀ o ∈ live, ∃ s ∈ slabs, IsObject c s o ∧ o ∉ free s

section
variable {c : Cache} {w : World} {slabs live : List Nat} {lists : Kind → List Nat} {free : Nat → List Nat} {s o fuel : Nat}

theorem Inv.members (inv : Inv c w slabs live lists free) : ∀ k, ∀ s ∈ lists k, s ∈ slabs :=
  fun k s here => (inv.homes s).mpr ⟨k,here⟩

theorem free_length (distinct : objs.Nodup) (objects : ∀ o ∈ objs, IsObject c s o) : objs.length ≤ c.objsPerSlab := by
  have sub : objs ⊆ (List.range c.objsPerSlab).map (fun i => base c s + i * c.objSize) := by
    intro o member
    obtain ⟨i,low,rfl⟩ := objects o member
    exact List.mem_map.mpr ⟨i,List.mem_range.mpr low,rfl⟩
  have short := (distinct.subperm sub).length_le
  rwa [List.length_map,List.length_range] at short

theorem recount_inv {live' : List Nat} {first : Nat} (inv : Inv c w slabs live lists free) (inS : s ∈ slabs)
    {total unused : Nat} (counted : x.cache = w.cache.counts total unused)
    (written : ∀ t ∈ slabs, ∀ g, x.get g t = if g = .freeCount ∧ t = s then objs.length
      else if g = .freeList ∧ t = s then first else w.get g t)
    (chain : Chain (fun o => pointer (x.link o)) (pointer first) objs)
    (links : ∀ t ∈ slabs, t ≠ s → ∀ o ∈ free t, x.link o = w.link o)
    (distinct : objs.Nodup) (objects' : ∀ o ∈ objs, IsObject c s o) (liveDistinct' : live'.Nodup)
    (alive : ∀ o ∈ live', IsObject c s o ∧ o ∉ objs ∨ o ∈ live ∧ (o ∈ objs → o ∈ free s)) :
    ∃ lists', Inv c (slabRehome s x) slabs live' lists' (update free s objs) := by
  have kept : ∀ t ∈ slabs, ∀ g, ¬ (t = s ∧ (g = .freeList ∨ g = .freeCount)) → x.get g t = w.get g t := by
    intro t inT g other
    rw [written t inT,if_neg (fun both => other ⟨both.2,.inr both.1⟩),if_neg (fun both => other ⟨both.2,.inl both.1⟩)]
  have count : x.get .freeCount s = objs.length := by rw [written s inS,if_pos ⟨rfl,rfl⟩]
  obtain ⟨k,member⟩ := (inv.homes s).mp inS
  have familyX : Family (nexts x) (prevs x) (heads x) lists := by
    refine inv.family.congr (by unfold heads; rw [counted,counts_heads]) (fun j t here => ?_) (fun j t here => ?_)
    · rw [nexts,nexts,kept t (inv.members j t here) .next nofun]
    · rw [prevs,prevs,kept t (inv.members j t here) .prev nofun]
  have state : x.get .state s = k.code := by
    rw [kept s inS .state nofun]
    exact (inv.kinds k s member).1
  have objCount : x.get .objCount s = c.objsPerSlab := by
    rw [kept s inS .objCount nofun]
    exact (inv.fields s inS).2.1
  obtain ⟨lists',rehomed⟩ := slabRehome_spec inv.layout familyX inv.members member state
  rw [count,objCount] at rehomed
  have objectsAll : ∀ t ∈ slabs, (update free s objs t).Nodup ∧ ∀ o ∈ update free s objs t, IsObject c t o := by
    exact update_cases (fun _ => ⟨distinct,objects'⟩) (fun t _ => inv.objects t)
  refine ⟨lists',inv.layout,?_,rehomed.family,?_,?_,?_,?_,objectsAll,liveDistinct',?_⟩
  · have same := counts_shape (c := w.cache) total unused
    rw [← counted] at same
    rw [rehomed.cache]
    exact ⟨same.1.trans inv.shape.1,same.2.1.trans inv.shape.2.1,same.2.2.trans inv.shape.2.2⟩
  · intro t
    by_cases same : t = s
    · subst same
      exact ⟨fun _ => ⟨_,rehomed.here⟩,fun _ => inS⟩
    · rw [inv.homes t]
      exact exists_congr (fun j => (rehomed.others j t same).symm)
  · intro j t here
    by_cases same : t = s
    · subst same
      rw [rehomed.family.separate j _ t here rehomed.here,update_self]
      exact ⟨rehomed.state,rfl⟩
    · have old := (rehomed.others j t same).mp here
      have inT := inv.members j t old
      rw [rehomed.kept t inT .state nofun nofun (.inr same),kept t inT .state nofun,update_of_ne same]
      exact inv.kinds j t old
  · intro t inT
    obtain ⟨mem,objs',count'⟩ := inv.fields t inT
    rw [rehomed.kept t inT .mem nofun nofun (by simp),rehomed.kept t inT .objCount nofun nofun (by simp),
      rehomed.kept t inT .freeCount nofun nofun (by simp),kept t inT .mem nofun,kept t inT .objCount nofun]
    refine ⟨mem,objs',?_⟩
    by_cases same : t = s
    · subst same
      rw [update_self]
      exact count
    · rw [update_of_ne same,kept t inT .freeCount (by simp [same])]
      exact count'
  · intro t inT
    rw [rehomed.kept t inT .freeList nofun nofun (by simp)]
    have chainX : Chain (fun o => pointer (x.link o)) (pointer (x.get .freeList t)) (update free s objs t) := by
      by_cases same : t = s
      · subst same
        simpa [written t inT] using chain
      · rw [update_of_ne same,kept t inT .freeList (by simp [same])]
        exact chain_congr (inv.chains t inT) (fun o here => by rw [links t inT same o here])
    refine chain_congr chainX (fun o here => ?_)
    rw [rehomed.links t inT o ((objectsAll t inT).2 o here)]
  · intro o here
    rcases alive o here with ⟨object,outside⟩ | ⟨old,known⟩
    · exact ⟨s,inS,object,by rwa [update_self]⟩
    · obtain ⟨t,inT,object,outside⟩ := inv.liveObjects o old
      refine ⟨t,inT,object,?_⟩
      exact update_cases (mt known) (fun _ _ => id) t outside

/-- The memory after the first object is taken off a free list of `n+1` objects. -/
def popObject (s obj n : Nat) (w : World) : World :=
  { (w.set .freeList s (w.link obj)).set .freeCount s n with
    cache := w.cache.counts (add64 w.cache.totalObjs 1) (sub64 w.cache.freeObjs 1) }

theorem popObject_get (obj : Nat) (layout : Layout c slabs) (inS : s ∈ slabs) (inT : t ∈ slabs) (few : n < 2^32) :
    (popObject s obj n w).get g t = if g = .freeCount ∧ t = s then n
      else if g = .freeList ∧ t = s then w.link obj else w.get g t := by
  rw [popObject,withCache_get,get_set_of_lt layout inS inT (count_fits few),get_set_of_lt layout inS inT link_lt]

theorem popObject_link (obj : Nat) (layout : Layout c slabs) (inS : s ∈ slabs) (inT : t ∈ slabs) (object : IsObject c t o) :
    (popObject s obj n w).link o = w.link o := by
  rw [popObject,withCache_link,link_set layout inS inT object,link_set layout inS inT object]

theorem slabForAlloc_part (pages : Nat) (isHead : w.cache.heads .part = s) (someS : s ≠ 0) :
    slabForAlloc pages w = (s,w) := by
  simp [slabForAlloc,isHead,someS]

theorem walk_spec : ∀ (cells : List Nat) (fuel p : Nat), Chain (nexts w) (pointer p) cells → cells.length ≤ fuel →
    (∀ t ∈ cells, (w.get .mem t ≤ obj ∧ obj < add64 (w.get .mem t) w.cache.slabSize ↔ t = s)) →
    walk w obj fuel p = some (if s ∈ cells then s else 0)
  | [], fuel, p, chain, _, _ => by
    have none : p = 0 := pointer_eq_none.mp chain
    cases fuel <;> simp [walk,none]
  | t :: rest, 0, _, _, enough, _ => by simp at enough
  | t :: rest, fuel+1, p, chain, enough, finds => by
    obtain ⟨first,tail⟩ := chain
    obtain ⟨present,rfl⟩ := pointer_eq_some.mp first
    have here := finds p List.mem_cons_self
    rw [walk,if_neg present]
    by_cases same : p = s
    · rw [if_pos (here.mpr same),same]
      simp
    · have below := walk_spec rest fuel (w.get .next p) tail (by simpa using enough)
        (fun t inRest => finds t (List.mem_cons_of_mem _ inRest))
      simp only [here.not.mpr same,if_false,below,List.mem_cons,Ne.symm same,false_or]

/-- The memory after an object is put on a free list of `n` objects. -/
def pushObject (s obj n : Nat) (w : World) : World :=
  { ((w.setLink obj (w.get .freeList s)).set .freeList s obj).set .freeCount s (n+1) with
    cache := w.cache.counts (sub64 w.cache.totalObjs 1) (add64 w.cache.freeObjs 1) }

section
variable (layout : Layout c slabs) (inS : s ∈ slabs)
include layout inS

theorem kmemCacheAlloc_found {pages : Nat} (found : slabForAlloc pages w = (s,x)) (first : x.get .freeList s = obj) (someObj : obj ≠ 0)
    (count : x.get .freeCount s = n+1) (few : n + 1 < 2^32) :
    kmemCacheAlloc pages w = (obj,slabRehome s (popObject s obj n x)) := by
  have someS := layout.slab_ne_zero inS
  have same : (x.set .freeList s (x.link obj)).get .freeCount s = n + 1 := by
    rw [get_set layout inS inS]
    simpa using count
  have lower : (n + 1 + (2^32 - 1)) % 2^32 = n := by omega
  rw [kmemCacheAlloc,found]
  simp only [someS,if_false,first,someObj,ne_eq,not_false_eq_true,if_true,same,set_cache,popObject]
  rw [lower]

theorem holds_iff (inT : t ∈ slabs) (object : IsObject c s obj) :
    base c t ≤ obj ∧ obj < add64 (base c t) c.slabSize ↔ t = s := by
  have insideT := layout.inside t inT
  have whole : base c t + c.slabSize = t + 56 := by
    simp only [base,sizeofSlab] at *
    omega
  rw [add64_of_lt (by simp only [sizeofSlab] at insideT; omega)]
  obtain ⟨above,below,wholeS,-⟩ := layout.object_below inS object
  constructor
  · intro inside
    by_contra other
    have apart := layout.apart t inT s inS other
    simp only [Apart] at apart
    omega
  · rintro rfl
    omega

theorem pushObject_get (inT : t ∈ slabs)
    (object : IsObject c s obj) (few : n + 1 < 2^32) :
    (pushObject s obj n w).get g t = if g = .freeCount ∧ t = s then n + 1
      else if g = .freeList ∧ t = s then obj else w.get g t := by
  have small : obj < 256^8 := by
    have slabFits := layout.slab_lt inS
    have below := (layout.object_below inS object).2.1
    omega
  rw [pushObject,withCache_get,get_set_of_lt layout inS inT (count_fits few),get_set_of_lt layout inS inT small,
    get_setLink layout inT inS object]

theorem pushObject_link (inT : t ∈ slabs)
    (object : IsObject c s obj) (object' : IsObject c t o) :
    (pushObject s obj n w).link o = if o = obj then w.get .freeList s else w.link o := by
  have small : w.get .freeList s < 256^8 := get_lt
  rw [pushObject,withCache_link,link_set layout inS inT object',link_set layout inS inT object',link_setLink layout inS inT object object',
    Nat.mod_eq_of_lt small]

theorem kmemCacheFree_eq (object : IsObject c s obj)
    (found : findSlab fuel obj w = some s) (count : w.get .freeCount s = n) (few : n + 1 < 2^32) :
    kmemCacheFree fuel obj w = some (slabRehome s (pushObject s obj n w)) := by
  have someS := layout.slab_ne_zero inS
  have someObj : obj ≠ 0 := by
    have below := layout.object_below inS object
    omega
  have same : ((w.setLink obj (w.get .freeList s)).set .freeList s obj).get .freeCount s = n := by
    rw [get_set layout inS inS,get_setLink layout inS inS object]
    simpa using count
  have higher : (n + 1) % 2^32 = n + 1 := Nat.mod_eq_of_lt few
  rw [kmemCacheFree,if_neg someObj,found,Option.bind_eq_bind,Option.bind_some,if_neg someS]
  dsimp only [pushObject]
  rw [same,higher,set_cache,set_cache,setLink_cache]

end

section
variable (inv : Inv c w slabs live lists free)
include inv

theorem alloc_inv (present : w.cache.heads .part ≠ 0) (pages : Nat) :
    ∃ obj x lists' free', kmemCacheAlloc pages w = (obj,x) ∧ obj ≠ 0 ∧ Inv c x slabs (obj :: live) lists' free' := by
  obtain ⟨s,isHead⟩ : ∃ s, w.cache.heads .part = s := ⟨_,rfl⟩
  have member : s ∈ lists .part := by
    rw [← isHead]
    exact (head_mem inv.family inv.members present).1
  have inS := inv.members .part s member
  have layout := inv.layout
  obtain ⟨-,kind⟩ := inv.kinds .part s member
  obtain ⟨-,-,count⟩ := inv.fields s inS
  have chain := inv.chains s inS
  obtain ⟨distinct,objects⟩ := inv.objects s inS
  have size := free_length distinct objects
  have few := (layout.objects (List.ne_nil_of_mem inS)).2.2.1
  cases objs : free s with
  | nil => simp [objs,Kind.ofCount] at kind
  | cons obj rest =>
    rw [objs] at chain count size distinct objects
    rw [List.length_cons] at count size
    obtain ⟨first,tail⟩ := chain
    obtain ⟨some,headIs⟩ := pointer_eq_some.mp first
    rw [headIs] at some
    obtain ⟨absent,distinctRest⟩ := List.nodup_cons.mp distinct
    have objectsRest : ∀ o ∈ rest, IsObject c s o := fun o here => objects o (List.mem_cons_of_mem _ here)
    have run := kmemCacheAlloc_found layout inS (slabForAlloc_part pages isHead (layout.slab_ne_zero inS)) headIs some count
      (by omega)
    have links : ∀ t ∈ slabs, ∀ o, IsObject c t o → _ := fun t inT o object =>
      popObject_link obj (w := w) (n := rest.length) layout inS inT object
    have liveDistinct' : (obj :: live).Nodup := by
      refine List.nodup_cons.mpr ⟨fun here => ?_,inv.liveDistinct⟩
      obtain ⟨t,inT,object,outside⟩ := inv.liveObjects obj here
      have isS := layout.object_unique inT inS object (objects obj List.mem_cons_self)
      subst isS
      exact outside (by simp [objs])
    have alive : ∀ o ∈ obj :: live, IsObject c s o ∧ o ∉ rest ∨ o ∈ live ∧ (o ∈ rest → o ∈ free s) := by
      refine List.forall_mem_cons.mpr ⟨.inl ⟨objects obj List.mem_cons_self,absent⟩,fun o old => ?_⟩
      exact .inr ⟨old,fun inRest => by simp [objs,inRest]⟩
    obtain ⟨lists',inv'⟩ := recount_inv (x := popObject s obj rest.length w) inv inS rfl
      (fun t inT g => popObject_get obj (n := rest.length) layout inS inT (by omega))
      (chain_congr tail (fun o here => by rw [links s inS o (objectsRest o here)]))
      (fun t inT _ o here => links t inT o ((inv.objects t inT).2 o here)) distinctRest objectsRest liveDistinct' alive
    exact ⟨obj,_,lists',_,run,some,inv'⟩

theorem findSlab_spec (inS : s ∈ slabs) (object : IsObject c s obj)
    (enough : slabs.length ≤ fuel) : findSlab fuel obj w = some s := by
  obtain ⟨k,member⟩ := (inv.homes s).mp inS
  have size : w.cache.slabSize = c.slabSize := by rw [Cache.slabSize,Cache.slabSize,inv.shape.2.2]
  have found : ∀ j, walk w obj fuel (w.cache.heads j) = some (if j = k then s else 0) := by
    intro j
    have short : (lists j).length ≤ fuel :=
      Nat.le_trans ((inv.family.distinct j).subperm (inv.members j)).length_le enough
    rw [walk_spec (s := s) (lists j) fuel _ (linked_chain (inv.family.linked j)) short]
    · by_cases same : j = k
      · subst same
        rw [if_pos member,if_pos rfl]
      · rw [if_neg same,if_neg (fun here => same (inv.family.separate j k s here member))]
    · intro t here
      have inT := inv.members j t here
      rw [(inv.fields t inT).1,size]
      exact holds_iff inv.layout inS inT object
  have someS := inv.layout.slab_ne_zero inS
  cases k <;> simp [findSlab,found,someS]

theorem free_inv (member : obj ∈ live) (enough : slabs.length ≤ fuel) :
    ∃ x lists' free', kmemCacheFree fuel obj w = some x ∧ Inv c x slabs (live.erase obj) lists' free' := by
  obtain ⟨s,inS,object,outside⟩ := inv.liveObjects obj member
  have layout := inv.layout
  obtain ⟨-,-,count⟩ := inv.fields s inS
  obtain ⟨distinct,objects⟩ := inv.objects s inS
  have distinct' : (obj :: free s).Nodup := List.nodup_cons.mpr ⟨outside,distinct⟩
  have objects' : ∀ o ∈ obj :: free s, IsObject c s o := List.forall_mem_cons.mpr ⟨object,objects⟩
  have few : (free s).length + 1 < 2^32 :=
    Nat.lt_of_le_of_lt (free_length distinct' objects') (layout.objects (List.ne_nil_of_mem inS)).2.2.1
  have run := kmemCacheFree_eq layout inS object (findSlab_spec inv inS object enough) count few
  have links : ∀ t ∈ slabs, ∀ o, IsObject c t o → _ := fun t inT o here =>
    pushObject_link (w := w) (n := (free s).length) layout inS inT object here
  -- the object is in no free list, so only its own link changes
  have same : ∀ t ∈ slabs, ∀ o ∈ free t, (pushObject s obj (free s).length w).link o = w.link o := by
    intro t inT o here
    have objectO := (inv.objects t inT).2 o here
    have other : o ≠ obj := by
      rintro rfl
      rw [layout.object_unique inT inS objectO object] at here
      exact outside here
    rw [links t inT o objectO,if_neg other]
  have chain : Chain (fun o => pointer ((pushObject s obj (free s).length w).link o)) (pointer obj) (obj :: free s) := by
    have below := layout.object_below inS object
    refine ⟨by simp only [pointer]; rw [if_neg (by omega)],?_⟩
    dsimp only
    rw [links s inS obj object,if_pos rfl]
    exact chain_congr (inv.chains s inS) (fun o here => by rw [same s inS o here])
  have alive : ∀ o ∈ live.erase obj, IsObject c s o ∧ o ∉ obj :: free s ∨ o ∈ live ∧ (o ∈ obj :: free s → o ∈ free s) := by
    intro o here
    obtain ⟨other,inLive⟩ := inv.liveDistinct.mem_erase_iff.mp here
    exact .inr ⟨inLive,fun inside => (List.mem_cons.mp inside).resolve_left other⟩
  obtain ⟨lists',inv'⟩ := recount_inv (x := pushObject s obj (free s).length w) inv inS rfl
    (fun t inT g => pushObject_get layout inS inT object few) chain (fun t inT _ => same t inT) distinct' objects'
    (inv.liveDistinct.erase obj) alive
  exact ⟨_,lists',_,run,inv'⟩

end

end
end

/-- The lists are those of some slabs whose objects are free or live. -/
def WellFormed (s : State) : Prop := ∃ c lists free, Inv c s.world s.slabs s.live lists free

variable {s : State}

theorem WellFormed.sorted (formed : WellFormed s) : Sorted s := by
  obtain ⟨c,lists,free,inv⟩ := formed
  refine ⟨lists,fun k => ⟨linked_chain (inv.family.linked k),inv.family.distinct k⟩,inv.homes,inv.family.separate,?_,?_⟩
  · intro k slab member
    obtain ⟨-,objCount,freeCount⟩ := inv.fields slab (inv.members k slab member)
    rw [objCount,freeCount]
    exact inv.kinds k slab member
  · intro slab inside
    exact ⟨free slab,inv.chains slab inside,(inv.fields slab inside).2.2⟩

theorem step_wellFormed {fuel : Nat} (s : State) (a : Request) (formed : WellFormed s ∧ s.slabs.length ≤ fuel)
    (ok : Legal s a ∧ Meets s a) : ∃ s', step fuel s a = some s' ∧ WellFormed s' ∧ s'.slabs.length ≤ fuel := by
  obtain ⟨⟨c,lists,free,inv⟩,enough⟩ := formed
  obtain ⟨legal,meets⟩ := ok
  cases a with
  | alloc pages =>
    by_cases present : s.world.cache.heads .part = 0
    · obtain ⟨noEmpty,rfl⟩ := meets.resolve_left (fun some => some present)
      have none : slabForAlloc 0 s.world = (0,s.world) := by simp [slabForAlloc,present,noEmpty,slabCreate]
      exact ⟨s,by simp [step,kmemCacheAlloc,none,created],⟨c,lists,free,inv⟩,enough⟩
    · obtain ⟨obj,x,lists',free',run,some,inv'⟩ := alloc_inv inv present pages
      exact ⟨⟨x,s.slabs,obj :: s.live⟩,by simp [step,run,some,created,present],⟨c,lists',free',inv'⟩,enough⟩
  | free obj =>
    obtain ⟨x,lists',free',run,inv'⟩ := free_inv inv legal enough
    exact ⟨⟨x,s.slabs,s.live.erase obj⟩,by simp [step,run],⟨c,lists',free',inv'⟩,enough⟩

private theorem made_heads {count : Nat} {size align : BitVec 32} {cache : Cache} (made : kmemCacheCreate count size align = some cache)
    (k : Kind) : cache.heads k = 0 := by
  unfold kmemCacheCreate at made
  split at made
  · cases made
  · split at made
    · cases made
    · cases made
      rfl

theorem start_wellFormed {count : Nat} {size align : BitVec 32} {cache : Cache} (made : kmemCacheCreate count size align = some cache)
    (memory : Nat → UInt8) : WellFormed (start memory cache) := by
  refine ⟨cache,fun _ => [],fun _ => [],⟨by simp [start],by simp [start],by simp [start]⟩,⟨rfl,rfl,rfl⟩,⟨?_,by simp,by simp⟩,?_,?_,?_,?_,
    ?_,?_,?_⟩
  · intro k
    simp [Linked,heads,start,made_heads made k,pointer]
  all_goals simp [start]

/-- While allocations find a partial slab, or nothing at all, each slab stays in the list that it belongs to. -/
theorem slab_run_sorted (s : State) (requests : List Request) (fuel : Nat)
    (first : (∃ count size align memory cache, kmemCacheCreate count size align = some cache ∧ s = start memory cache) ∨ WellFormed s)
    (enough : s.slabs.length ≤ fuel) (guarded : Guarded (step fuel) (fun s a => Legal s a ∧ Meets s a) s requests) :
    ∃ s', run (step fuel) s requests = some s' ∧ Sorted s' := by
  have formed : WellFormed s := by
    rcases first with ⟨count,size,align,memory,cache,made,rfl⟩ | formed
    · exact start_wellFormed made memory
    · exact formed
  obtain ⟨s',run,kept,-⟩ := run_invariant step_wellFormed requests s ⟨formed,enough⟩ guarded
  exact ⟨s',run,kept.sorted⟩

def pageCache : Cache := ⟨4096,8,2,1,fun _ => 0,0,0⟩

private theorem pageCache_made : kmemCacheCreate 9 4096 8 = some pageCache := rfl

def oneSlab : State :=
  let w : World := ⟨fun _ => 0,{ pageCache with heads := update (fun _ => 0) .part 73672 }⟩
  let w := (((w.set .mem 73672 65536).set .objCount 73672 2).set .freeCount 73672 1).set .freeList 73672 65536
  ⟨w.set .state 73672 1,[73672],[69632]⟩

theorem oneSlab_fields : (oneSlab.world.get .next 73672 = 0 ∧ oneSlab.world.get .prev 73672 = 0) ∧
    (oneSlab.world.get .state 73672 = Kind.part.code ∧ oneSlab.world.get .freeList 73672 = 65536) ∧
    (oneSlab.world.get .mem 73672 = base pageCache 73672 ∧ oneSlab.world.get .objCount 73672 = pageCache.objsPerSlab ∧
      oneSlab.world.get .freeCount 73672 = 1) ∧ oneSlab.world.link 65536 = 0 := by
  decide +kernel

theorem oneSlab_wellFormed : WellFormed oneSlab := by
  obtain ⟨⟨next,prev⟩,⟨state,first⟩,fields,last⟩ := oneSlab_fields
  have inPart : ∀ k s, s ∈ (if k = Kind.part then [73672] else []) ↔ k = .part ∧ s = 73672 := by
    intro k s
    cases k <;> simp
  refine ⟨pageCache,fun k => if k = .part then [73672] else [],fun _ => [65536],⟨?_,?_,by decide⟩,⟨rfl,rfl,rfl⟩,⟨?_,?_,?_⟩,?_,?_,
    ?_,?_,?_,by decide,?_⟩
  · exact List.forall_mem_singleton.mpr (List.forall_mem_singleton.mpr (absurd rfl))
  · exact List.forall_mem_singleton.mpr (by decide)
  · intro k
    cases k with
    | full => rfl
    | part => exact ⟨rfl,by rw [prevs]; rfl,by rw [nexts]; rfl⟩
    | empty => rfl
  · intro k
    cases k <;> decide
  · intro j k s inJ inK
    rw [((inPart j s).mp inJ).1,((inPart k s).mp inK).1]
  · intro s
    simp only [inPart,oneSlab,List.mem_singleton]
    exact ⟨fun same => ⟨.part,rfl,same⟩,fun ⟨_,_,same⟩ => same⟩
  · intro k s member
    obtain ⟨rfl,rfl⟩ := (inPart k s).mp member
    exact ⟨state,by decide⟩
  · exact List.forall_mem_singleton.mpr fields
  · exact List.forall_mem_singleton.mpr ⟨rfl,by dsimp only; rw [last]; rfl⟩
  · exact List.forall_mem_singleton.mpr ⟨by decide,List.forall_mem_singleton.mpr ⟨0,by decide,rfl⟩⟩
  · exact List.forall_mem_singleton.mpr ⟨73672,List.mem_singleton.mpr rfl,⟨1,by decide,rfl⟩,by decide⟩

theorem slab_run_sorted_of_page : ∃ s', run (step 1) oneSlab [.alloc 0, .free 69632, .free 65536] = some s' ∧ Sorted s' :=
  slab_run_sorted oneSlab _ 1 (.inr oneSlab_wellFormed) (by decide) (by decide +kernel)

/-! ### The first slab -/

section
variable {w : World} {k : Kind} {st : State} {slab v : Nat}

private theorem linkObjects_cache (base size : Nat) : ∀ rounds i current w, (linkObjects base size rounds i current w).2.cache = w.cache
  | 0, _, _, _ => rfl
  | rounds+1, i, _, _ => linkObjects_cache base size rounds (i+1) _ _

/-- Objects of whole words in whole words: where a link is stored over the state of the slab, it is even there too. -/
theorem linkObjects_even {base size : Nat} (whole : base % 8 = 0) (words : size % 8 = 0) (header : slab % 8 = 0) :
    ∀ rounds i current w, current % 8 = 0 → (w.mem (slab + 48)).toNat % 2 = 0 →
      ((linkObjects base size rounds i current w).2.mem (slab + 48)).toNat % 2 = 0
  | 0, _, _, _, _, even => even
  | rounds+1, i, current, w, aligned, even => by
    have multiple : i * size % 8 = 0 := by rw [Nat.mul_mod,words,Nat.mul_zero,Nat.zero_mod]
    have place : add64 base (i * size % 2^32) % 8 = 0 := by
      unfold add64
      omega
    refine linkObjects_even whole words header rounds (i+1) _ _ place ?_
    show (store w.mem (add64 base (i * size % 2^32)) current 8 (slab + 48)).toNat % 2 = 0
    by_cases here : add64 base (i * size % 2^32) = slab + 48
    · rw [here,store,store_of_apart (by omega),update_self,UInt8.toNat_ofNat']
      omega
    · rw [store_of_apart (by omega)]
      exact even

theorem ofState_of_even (even : (w.mem (slab + 48)).toNat % 2 = 0) : Kind.ofState (w.get .state slab) ≠ .part := by
  have odd : w.get .state slab ≠ Kind.part.code := by
    intro one
    have value : (w.mem (slab + 48)).toNat + 256 * load w.mem (slab + 48 + 1) 3 = 1 := one
    omega
  unfold Kind.ofState
  split_ifs
  · nofun
  · nofun

theorem first_mem {cells : List Nat} (some : slab ≠ 0) (head : w.cache.heads k = slab)
    (chain : Chain (fun slab => pointer (w.get .next slab)) (pointer (w.cache.heads k)) cells) : slab ∈ cells := by
  have first := chain_follow chain 0
  rw [head,pointer_eq_some.mpr ⟨some,rfl⟩] at first
  exact List.mem_of_getElem? first.symm

private theorem not_sorted_of_state (some : slab ≠ 0) (head : st.world.cache.heads .part = slab)
    (state : st.world.get .state slab ≠ Kind.part.code) : ¬ Sorted st := by
  rintro ⟨lists,chains,-,-,sorted,-⟩
  exact state (sorted .part slab (first_mem some head (chains .part).1)).1

private theorem not_sorted_of_both (some : slab ≠ 0) (head : st.world.cache.heads .part = slab)
    (other : st.world.cache.heads k = slab) (different : k ≠ .part) : ¬ Sorted st := by
  rintro ⟨lists,chains,-,apart,-⟩
  exact different (apart _ _ slab (first_mem some other (chains k).1) (first_mem some head (chains .part).1))

theorem not_sorted_of_cycle (some : slab ≠ 0) (head : st.world.cache.heads .part = slab)
    (cycle : st.world.get .next slab = slab) : ¬ Sorted st := by
  rintro ⟨lists,chains,-⟩
  obtain ⟨chain,distinct⟩ := chains .part
  have pointing : pointer slab = Option.some slab := pointer_eq_some.mpr ⟨some,rfl⟩
  rw [head,pointing] at chain
  have first : (lists .part)[0]? = Option.some slab := (chain_follow chain 0).symm
  have second : (lists .part)[1]? = Option.some slab := by
    rw [← chain_follow chain 1]
    simp [follow,cycle,pointing]
  have inside := (List.getElem?_eq_some_iff.mp first).1
  exact absurd ((List.getElem?_inj inside distinct).mp (first.trans second.symm)) (by decide)

private theorem slabAdd_next_self (some : slab ≠ 0) (fits : slab < 2^64) (head : w.cache.heads k = slab) :
    (slabAdd k slab w).get .next slab = slab := by
  simp only [slabAdd,head,if_pos some,setHead_get,get_set_here,reduceCtorEq,if_false]
  exact Nat.mod_eq_of_lt fits

/-- A slab that is alone in the partial list, while its state names another one, is never moved to where it belongs. -/
theorem rehome_unsorted {slabs live : List Nat} (some : slab ≠ 0) (fits : slab < 2^64) (head : w.cache.heads .part = slab)
    (next : w.get .next slab = 0) (prev : w.get .prev slab = 0) (source : Kind.ofState (w.get .state slab) ≠ .part) :
    ¬ Sorted ⟨slabRehome slab w,slabs,live⟩ := by
  unfold slabRehome
  dsimp only
  generalize Kind.ofCount (w.get .freeCount slab) (w.get .objCount slab) = target
  generalize Kind.ofState (w.get .state slab) = origin at source
  split_ifs with moves
  · have removed : slabRemove origin slab (w.set .state slab target.code) =
        (((w.set .state slab target.code).setHead origin 0).set .prev slab 0).set .next slab 0 := by
      simp [slabRemove,slabSkip,slabBack,get_set_here,next,prev]
    rw [removed]
    generalize emptied : (((w.set .state slab target.code).setHead origin 0).set .prev slab 0).set .next slab 0 = x
    have still : x.cache.heads .part = slab := by
      rw [← emptied]
      exact (update_of_ne source.symm _ _).trans head
    have added : (slabAdd target slab x).cache.heads = update x.cache.heads target slab := by rw [slabAdd_cache]
    by_cases back : target = .part
    · subst back
      exact not_sorted_of_cycle some (by rw [added,update_self]) (slabAdd_next_self some fits still)
    · refine not_sorted_of_both some ?_ (by rw [added,update_self]) back
      rw [added,update_of_ne (Ne.symm back),still]
  · refine not_sorted_of_state some head ?_
    rw [get_set_here,if_pos rfl]
    cases target <;> revert source moves <;> cases origin <;> decide

private theorem set_freeList_mem : (w.set .freeList slab v).mem (slab + 48) = w.mem (slab + 48) :=
  store_of_apart (.inr (Nat.le_refl _))

private theorem set_empty_mem : (w.set .state slab Kind.empty.code).mem (slab + 48) = 2 :=
  (store_of_apart (.inl (Nat.lt_succ_self _))).trans (update_self ..)

section
variable {pages : Nat} (words : w.cache.objSize % 8 = 0) (some : pages ≠ 0) (whole : pages % 8 = 0)
  (fits : pages + w.cache.slabSize < 2^64)
include words some whole fits

theorem slabCreate_first : ∃ slab v, slabCreate pages w = (slab,v) ∧ slab ≠ 0 ∧ slab < 2^64 ∧ v.cache = w.cache ∧
    Kind.ofState (v.get .state slab) ≠ .part := by
  have size : w.cache.slabSize % 8 = 0 ∧ 4096 ≤ w.cache.slabSize := by
    have positive := Nat.two_pow_pos w.cache.slabOrder
    rw [Cache.slabSize,Nat.shiftLeft_eq,Buddy.pageSize]
    omega
  have header : add64 pages (w.cache.slabSize - sizeofSlab) = pages + (w.cache.slabSize - 56) := by
    rw [add64,sizeofSlab]
    omega
  refine ⟨_,_,if_neg some,by omega,by omega,linkObjects_cache _ _ _ _ _ _,?_⟩
  refine ofState_of_even ?_
  rw [set_freeList_mem]
  exact linkObjects_even whole words (by omega) _ _ _ _ rfl (by rw [set_empty_mem]; rfl)

theorem slabForAlloc_first (none : ∀ k, w.cache.heads k = 0) :
    ∃ slab u, slabForAlloc pages w = (slab,u) ∧ slab ≠ 0 ∧ slab < 2^64 ∧ u.cache.heads .part = slab ∧
      u.get .next slab = 0 ∧ u.get .prev slab = 0 ∧ Kind.ofState (u.get .state slab) ≠ .part := by
  obtain ⟨slab,v,made,real,below,kept,state⟩ := slabCreate_first words some whole fits
  have head : v.cache.heads .part = 0 := by rw [kept,none]
  have added : slabAdd .part slab v = ((v.set .next slab 0).set .prev slab 0).setHead .part slab := by
    simp [slabAdd,head]
  refine ⟨slab,slabAdd .part slab v,by simp [slabForAlloc,none,made,real],real,below,?_⟩
  rw [added]
  refine ⟨by simp [World.setHead],?_,?_,?_⟩
  · simp [get_set_here]
  · simp [get_set_here]
  · simpa [get_set_here] using state

theorem alloc_unsorted (none : ∀ k, w.cache.heads k = 0) (slabs live : List Nat) :
    ¬ Sorted ⟨(kmemCacheAlloc pages w).2,slabs,live⟩ := by
  obtain ⟨slab,u,first,real,below,head,next,prev,state⟩ := slabForAlloc_first words some whole fits none
  rw [kmemCacheAlloc,first]
  dsimp only
  rw [if_neg real]
  split
  · dsimp only
    refine rehome_unsorted real below ?_ ?_ ?_ ?_
    · rw [counts_heads]
      exact head
    · rw [withCache_get,get_set_here,if_neg nofun,get_set_here,if_neg nofun,next]
    · rw [withCache_get,get_set_here,if_neg nofun,get_set_here,if_neg nofun,prev]
    · rw [withCache_get,get_set_here,if_neg nofun,get_set_here,if_neg nofun]
      exact state
  · refine not_sorted_of_state real head (fun part => state ?_)
    rw [part]
    rfl

end

/-- The first slab of a cache whose objects are whole words breaks the lists, whatever else its size is. -/
theorem first_slab_unsorted {count : Nat} {size align : BitVec 32} {cache : Cache} (made : kmemCacheCreate count size align = some cache)
    (words : cache.objSize % 8 = 0) (memory : Nat → UInt8) {pages : Nat} (some : pages ≠ 0) (whole : pages % 8 = 0)
    (fits : pages + cache.slabSize < 2^64) (fuel : Nat) :
    ∃ s, step fuel (start memory cache) (.alloc pages) = .some s ∧ ¬ Sorted s :=
  ⟨_,rfl,@alloc_unsorted ⟨memory,cache⟩ pages words some whole fits (made_heads made) _ _⟩

end

theorem slab_first_alloc_cycles : kmemCacheCreate 9 4096 8 = some pageCache ∧
    (Guarded (step 2) Legal (start (fun _ => 0) pageCache) [.alloc 65536] ∧
      ∃ s, run (step 2) (start (fun _ => 0) pageCache) [.alloc 65536] = some s ∧ ¬ Sorted s) ∧
    (Guarded (step 2) Legal oneSlab [.free 69632, .alloc 0] ∧
      ∃ s, run (step 2) oneSlab [.free 69632, .alloc 0] = some s ∧ ¬ Sorted s) := by
  have cycles : ∀ s requests, (run (step 2) s requests).map
      (fun s => (s.world.cache.heads .part,s.world.get .next 73672)) = some (73672,73672) →
      ∃ s', run (step 2) s requests = some s' ∧ ¬ Sorted s' := by
    intro s requests observed
    refine run_shows _ _ observed (fun s' links => ?_)
    obtain ⟨head,cycle⟩ := Prod.mk.inj links
    exact not_sorted_of_cycle (by decide) head cycle
  exact ⟨pageCache_made,⟨by decide +kernel,cycles _ _ (by decide +kernel)⟩,⟨by decide +kernel,cycles _ _ (by decide +kernel)⟩⟩

end Kenux.SlabLists
