import Kenux.Runs
import Kenux.Bitmaps
import Mathlib.Order.Bounds.Defs

/-!
The swap store of `swap.c`. An entry is an area's index and a slot of it in one word, and
`swap_remove_area` moves the last area into the place of the removed one. An area on a
partition stores nothing, and two areas on one file share its slots (`swap_in_loses`).
`swap_run_restores`: in every run without these three, each entry that is out brings its page
back, and no two of them denote one slot. `bitmap_find_free_range` finds the first clear range
there is (`bitmap_find_free_range_least`).
-/
namespace Kenux.Swap
open Kenux.Runs

def swapSlotSize : Nat := 4096
def swapMapMaxSlots : Nat := 262144
def swapMaxAreas : Nat := 16
def swapTypePartition : Nat := 1
def swapTypeFile : Nat := 2
def swapEntryAreaShift : Nat := 56
def swapEntrySlotMask : BitVec 64 := 0x00FFFFFFFFFFFFFF#64

abbrev Entry := BitVec 64

def swapEntryGetArea (entry : Entry) : Nat := (entry >>> swapEntryAreaShift).toNat % 2^32
def swapEntryGetSlot (entry : Entry) : Nat := (entry &&& swapEntrySlotMask).toNat
def swapEntryEncode (area slot : Nat) : Entry :=
  (BitVec.ofNat 64 area <<< swapEntryAreaShift) ||| (BitVec.ofNat 64 slot &&& swapEntrySlotMask)

abbrev Page := Fin swapSlotSize → UInt8

abbrev File := Nat → UInt8

/-- `fd` is the file that the descriptor is open on; `none` is a negative descriptor. -/
structure SwapArea where
  type : Nat
  active : Bool
  fd : Option Nat
  totalSlots : Nat
  usedSlots : Nat
  freeSlots : Nat
  bitmap : Nat → BitVec 8

/-- The table of areas, and the files of the machine. -/
structure Store where
  areas : Nat → SwapArea
  areaCount : Nat
  files : Nat → File

def Store.setArea (s : Store) (i : Nat) (area : SwapArea) : Store := { s with areas := Function.update s.areas i area }

def bitmapTest : (Nat → BitVec 8) → Nat → Bool := Bitmaps.test
def bitmapSet : (Nat → BitVec 8) → Nat → Nat → BitVec 8 := Bitmaps.set
def bitmapClear : (Nat → BitVec 8) → Nat → Nat → BitVec 8 := Bitmaps.clear

/-- The first clear bit; `none` is UINT64_MAX. -/
def bitmapFindFree (bitmap : Nat → BitVec 8) (totalBits : Nat) : Option Nat :=
  (List.range totalBits).find? (fun i => ¬ bitmapTest bitmap i)

/-! ### Slots of a file -/

def readPage (file : File) (offset : Nat) : Page := fun k => file (offset + k)

def writePage (file : File) (offset : Nat) (page : Page) : File :=
  fun i => if inside : offset ≤ i ∧ i - offset < swapSlotSize then page ⟨i - offset,inside.2⟩ else file i

/-- The page that is read; `none` is the error -1. -/
def swapReadSlot (area : SwapArea) (slotIndex : Nat) (files : Nat → File) : Option Page :=
  if area.active = false ∨ slotIndex ≥ area.totalSlots then none
  else
    let offset := slotIndex * swapSlotSize
    if area.type = swapTypePartition then some (fun _ => 0)
    else if area.type = swapTypeFile then area.fd.map (fun f => readPage (files f) offset)
    else none

/-- The files after the page is written; `none` is the error -1. -/
def swapWriteSlot (area : SwapArea) (slotIndex : Nat) (page : Page) (files : Nat → File) : Option (Nat → File) :=
  if area.active = false ∨ slotIndex ≥ area.totalSlots then none
  else
    let offset := slotIndex * swapSlotSize
    if area.type = swapTypePartition then some files
    else if area.type = swapTypeFile then
      area.fd.map (fun f => Function.update files f (writePage (files f) offset page))
    else none

def swapInit (files : Nat → File) : Store := ⟨fun _ => ⟨0,false,some 0,0,0,0,fun _ => 0⟩,0,files⟩

/-- The loop of `swap_add_area` that fills the file with zero pages. -/
def zeroFill (sizePages : Nat) (file : File) : File := fun i => if i < sizePages * swapSlotSize then 0 else file i

/-- `memory` says if there is memory for the bitmap, `opened` if the file can be opened; the
    file is the one that the path names. -/
def swapAddArea (type : Nat) (filePath : Option Nat) (sizePages : Nat) (memory opened : Bool) (s : Store) : Int × Store :=
  if type ≠ swapTypePartition ∧ type ≠ swapTypeFile then (-1,s)
  else if sizePages = 0 ∨ sizePages > swapMapMaxSlots then (-1,s)
  else if s.areaCount ≥ swapMaxAreas then (-1,s)
  else
    let area : SwapArea := ⟨type,true,none,sizePages,0,sizePages,fun _ => 0⟩
    let s := s.setArea s.areaCount area
    if memory = false then (-1,s)
    else
      match (if type = swapTypeFile then filePath else none) with
      | none => (0,{ s with areaCount := s.areaCount + 1 })
      | some f =>
        if opened = false then (-1,s)
        else
          let s := s.setArea s.areaCount { area with fd := some f }
          (0,{ s with
            files := Function.update s.files f (zeroFill sizePages (s.files f))
            areaCount := s.areaCount + 1 })

def swapRemoveArea (areaIndex : Nat) (s : Store) : Int × Store :=
  if areaIndex ≥ s.areaCount then (-1,s)
  else
    let area := s.areas areaIndex
    if area.usedSlots ≠ 0 then (-1,s)
    else
      let s := s.setArea areaIndex { area with
        active := false
        fd := none
        bitmap := fun _ => 0 }
      let s := if areaIndex < s.areaCount - 1 then s.setArea areaIndex (s.areas (s.areaCount - 1)) else s
      (0,{ s with areaCount := s.areaCount - 1 })

def SwapArea.take (area : SwapArea) (slot : Nat) : SwapArea :=
  { area with
    bitmap := bitmapSet area.bitmap slot
    usedSlots := area.usedSlots + 1
    freeSlots := area.freeSlots - 1 }

def SwapArea.release (area : SwapArea) (slot : Nat) : SwapArea :=
  { area with
    bitmap := bitmapClear area.bitmap slot
    usedSlots := area.usedSlots - 1
    freeSlots := area.freeSlots + 1 }

/-- The slot that the body of the loop in `swap_alloc_entry` finds in an area. -/
def freeSlot (s : Store) (i : Nat) : Option (Nat × Nat) :=
  let area := s.areas i
  if area.active = false ∨ area.freeSlots = 0 then none
  else (bitmapFindFree area.bitmap area.totalSlots).map (fun slot => (i,slot))

def swapAllocEntry (s : Store) : Entry × Store :=
  match (List.range s.areaCount).findSome? (freeSlot s) with
  | none => (0,s)
  | some (i,slot) => (swapEntryEncode i slot,s.setArea i ((s.areas i).take slot))

def swapFreeEntry (entry : Entry) (s : Store) : Int × Store :=
  if entry = 0 then (-1,s)
  else
    let areaIdx := swapEntryGetArea entry
    let slotIdx := swapEntryGetSlot entry
    if areaIdx ≥ s.areaCount then (-1,s)
    else
      let area := s.areas areaIdx
      if area.active = false ∨ slotIdx ≥ area.totalSlots then (-1,s)
      else if bitmapTest area.bitmap slotIdx = false then (-1,s)
      else (0,s.setArea areaIdx (area.release slotIdx))

/-- `page` is what stands in the page at `page_phys`. -/
def swapOut (pagePhys : Nat) (page : Page) (s : Store) : Entry × Store :=
  if pagePhys = 0 then (0,s)
  else
    let (entry,s) := swapAllocEntry s
    if entry = 0 then (0,s)
    else
      let areaIdx := swapEntryGetArea entry
      let slotIdx := swapEntryGetSlot entry
      let area := s.areas areaIdx
      match swapWriteSlot area slotIdx page s.files with
      | none => (0,s.setArea areaIdx (area.release slotIdx))
      | some files => (entry,{ s with files := files })

/-- What `swap_in` leaves in the new page; `none` is the error -1, which changes nothing. -/
def swapIn (entry : Entry) (newPagePhys : Nat) (s : Store) : Option (Page × Store) :=
  if entry = 0 ∨ newPagePhys = 0 then none
  else
    let areaIdx := swapEntryGetArea entry
    let slotIdx := swapEntryGetSlot entry
    if areaIdx ≥ s.areaCount then none
    else
      let area := s.areas areaIdx
      if area.active = false ∨ slotIdx ≥ area.totalSlots then none
      else if bitmapTest area.bitmap slotIdx = false then none
      else (swapReadSlot area slotIdx s.files).map (fun page => (page,s.setArea areaIdx (area.release slotIdx)))

inductive Request where
  | addArea (type : Nat) (filePath : Option Nat) (sizePages : Nat) (memory opened : Bool)
  | removeArea (areaIndex : Nat)
  | swapOut (pagePhys : Nat) (page : Page)
  | swapIn (entry : Entry) (newPagePhys : Nat)

/-- The store, and the entries that are out: returned by `swap_out` and not yet swapped in,
    each with the page that was passed to `swap_out`. -/
structure State where
  store : Store
  out : List (Entry × Page)

def step (s : State) : Request → Option State
  | .addArea type filePath sizePages memory opened =>
    some { s with store := (swapAddArea type filePath sizePages memory opened s.store).2 }
  | .removeArea areaIndex => some { s with store := (swapRemoveArea areaIndex s.store).2 }
  | .swapOut pagePhys page =>
    let (entry,store) := swapOut pagePhys page s.store
    some ⟨store,if entry = 0 then s.out else (entry,page) :: s.out⟩
  | .swapIn entry newPagePhys =>
    match swapIn entry newPagePhys s.store with
    | none => some s
    | some (_,store) => some ⟨store,s.out.filter (fun o => o.1 ≠ entry)⟩

def start (files : Nat → File) : State := ⟨swapInit files,[]⟩

/-- A new area is not on a file of another one, an area is removed only if no other one
    with used slots moves into its place, and a page is swapped out only while no area on
    a partition has free slots. -/
def Meets (s : State) : Request → Prop
  | .addArea type filePath _ _ _ =>
    type ≠ swapTypeFile ∨ filePath = none ∨ ∀ j < s.store.areaCount, (s.store.areas j).fd ≠ filePath
  | .removeArea areaIndex =>
    areaIndex ≥ s.store.areaCount ∨ (s.store.areas areaIndex).usedSlots ≠ 0 ∨ areaIndex + 1 = s.store.areaCount ∨
      (s.store.areas (s.store.areaCount - 1)).usedSlots = 0
  | .swapOut _ _ =>
    ∀ j < s.store.areaCount, (s.store.areas j).type ≠ swapTypePartition ∨ (s.store.areas j).freeSlots = 0
  | .swapIn _ _ => True

instance (s : State) (a : Request) : Decidable (Meets s a) :=
  match a with
  | .addArea _ _ _ _ _ => inferInstanceAs (Decidable (_ ∨ _ ∨ ∀ j < _, _))
  | .removeArea _ => inferInstanceAs (Decidable (_ ∨ _ ∨ _ ∨ _))
  | .swapOut _ _ => inferInstanceAs (Decidable (∀ j < _, _))
  | .swapIn _ _ => inferInstanceAs (Decidable True)

/-- The slot that an entry denotes: a file, and the number of the slot in it. -/
def denotes (s : Store) (entry : Entry) : Option Nat × Nat :=
  ((s.areas (swapEntryGetArea entry)).fd,swapEntryGetSlot entry)

/-- Each page that is out can be read back as it was, and no two of them have the same slot. -/
structure Sound (s : State) : Prop where
  restores : ∀ o ∈ s.out, ∀ newPagePhys ≠ 0, ∃ t, swapIn o.1 newPagePhys s.store = some (o.2,t)
  apart : (s.out.map (fun o => denotes s.store o.1)).Nodup

section
variable {s : State} {i slot : Nat}

private theorem swapEntryGetArea_eq (entry : Entry) : swapEntryGetArea entry = entry.toNat / 2^56 := by
  rw [swapEntryGetArea,swapEntryAreaShift,BitVec.toNat_ushiftRight]
  omega

private theorem swapEntryGetSlot_eq (entry : Entry) : swapEntryGetSlot entry = entry.toNat % 2^56 := by
  exact Nat.and_two_pow_sub_one_eq_mod entry.toNat 56

private theorem entry_ext {a b : Entry} (area : swapEntryGetArea a = swapEntryGetArea b)
    (slot : swapEntryGetSlot a = swapEntryGetSlot b) : a = b := by
  rw [swapEntryGetArea_eq,swapEntryGetArea_eq] at area
  rw [swapEntryGetSlot_eq,swapEntryGetSlot_eq] at slot
  exact BitVec.eq_of_toNat_eq (by omega)

private theorem toNat_encode (small : i < 2^8) (low : slot < 2^56) : (swapEntryEncode i slot).toNat = 2^56 * i + slot := by
  have mask : swapEntrySlotMask.toNat = 2^56 - 1 := rfl
  rw [swapEntryEncode,BitVec.toNat_or,BitVec.toNat_and,BitVec.toNat_shiftLeft,BitVec.toNat_ofNat,BitVec.toNat_ofNat,mask,
    Nat.and_two_pow_sub_one_eq_mod,Nat.mod_mod_of_dvd slot (by decide : 2^56 ∣ 2^64),Nat.mod_eq_of_lt low,
    Nat.mod_eq_of_lt (show i < 2^64 by omega),Nat.shiftLeft_eq,swapEntryAreaShift,Nat.mul_comm,
    Nat.mod_eq_of_lt (by omega),Nat.two_pow_add_eq_or_of_lt low]

private theorem getArea_encode (small : i < 2^8) (low : slot < 2^56) : swapEntryGetArea (swapEntryEncode i slot) = i := by
  rw [swapEntryGetArea_eq,toNat_encode small low]
  omega

private theorem getSlot_encode (small : i < 2^8) (low : slot < 2^56) : swapEntryGetSlot (swapEntryEncode i slot) = slot := by
  rw [swapEntryGetSlot_eq,toNat_encode small low]
  omega

/-! ### Pages in a file -/

theorem readPage_writePage (file : File) (offset : Nat) (page : Page) :
    readPage (writePage file offset page) offset = page := by
  funext k
  have inside : offset ≤ offset + k ∧ offset + k - offset < swapSlotSize := by
    omega
  rw [readPage,writePage,dif_pos inside]
  congr 1
  exact Fin.ext (Nat.add_sub_cancel_left ..)

private theorem readPage_writePage_of_ne {a b : Nat} (file : File) (page : Page) (other : a ≠ b) :
    readPage (writePage file (b * swapSlotSize) page) (a * swapSlotSize) = readPage file (a * swapSlotSize) := by
  funext k
  have bound := k.isLt
  rw [readPage,writePage,dif_neg]
  · rfl
  · unfold swapSlotSize at bound ⊢
    omega

structure AreaOk (area : SwapArea) : Prop where
  active : area.active = true
  limit : area.totalSlots ≤ swapMapMaxSlots
  used : area.usedSlots = (Bitmaps.members area.bitmap area.totalSlots).card
  sum : area.usedSlots + area.freeSlots = area.totalSlots

structure Table (s : Store) : Prop where
  count : s.areaCount ≤ swapMaxAreas
  areas : ∀ i < s.areaCount, AreaOk (s.areas i)

/-- The entry denotes a used slot of a file, and the page stands there. -/
structure Holds (s : Store) (o : Entry × Page) : Prop where
  entry : o.1 ≠ 0
  area : swapEntryGetArea o.1 < s.areaCount
  slot : swapEntryGetSlot o.1 < (s.areas (swapEntryGetArea o.1)).totalSlots
  taken : bitmapTest (s.areas (swapEntryGetArea o.1)).bitmap (swapEntryGetSlot o.1) = true
  file : (s.areas (swapEntryGetArea o.1)).type = swapTypeFile
  page : ∃ f, (s.areas (swapEntryGetArea o.1)).fd = some f ∧
    readPage (s.files f) (swapEntryGetSlot o.1 * swapSlotSize) = o.2

structure Inv (s : State) : Prop extends Table s.store where
  files : ∀ i < s.store.areaCount, ∀ j < s.store.areaCount, ∀ f,
    (s.store.areas i).fd = some f → (s.store.areas j).fd = some f → i = j
  held : ∀ o ∈ s.out, Holds s.store o
  keys : (s.out.map Prod.fst).Nodup

theorem Inv.restores (inv : Inv s) (o : Entry × Page) (member : o ∈ s.out) (newPagePhys : Nat) (real : newPagePhys ≠ 0) :
    ∃ t, swapIn o.1 newPagePhys s.store = some (o.2,t) := by
  obtain ⟨entry,area,slot,taken,file,f,fd,page⟩ := inv.held o member
  have active : ¬ ((s.store.areas (swapEntryGetArea o.1)).active = false ∨
      swapEntryGetSlot o.1 ≥ (s.store.areas (swapEntryGetArea o.1)).totalSlots) := by
    rw [(inv.areas _ area).active]
    simpa using slot
  have partition : (s.store.areas (swapEntryGetArea o.1)).type ≠ swapTypePartition := by
    rw [file]
    decide
  have read : swapReadSlot (s.store.areas (swapEntryGetArea o.1)) (swapEntryGetSlot o.1) s.store.files = some o.2 := by
    rw [swapReadSlot,if_neg active]
    simp [if_neg partition,if_pos file,fd,page]
  have untaken : ¬ bitmapTest (s.store.areas (swapEntryGetArea o.1)).bitmap (swapEntryGetSlot o.1) = false := by
    rw [taken]
    decide
  rw [swapIn,if_neg (not_or.mpr ⟨entry,real⟩)]
  simp only [if_neg (not_le.mpr area),if_neg active,if_neg untaken,read]
  exact ⟨_,rfl⟩

theorem Inv.sound (inv : Inv s) : Sound s where
  restores := inv.restores
  apart := by
    have same : s.out.map (fun o => denotes s.store o.1) = (s.out.map Prod.fst).map (denotes s.store) := by
      rw [List.map_map]
      rfl
    rw [same]
    refine inv.keys.map_on (fun a here b there equal => ?_)
    obtain ⟨o,held,rfl⟩ := List.mem_map.mp here
    obtain ⟨p,kept,rfl⟩ := List.mem_map.mp there
    obtain ⟨files,slots⟩ := Prod.mk.inj equal
    obtain ⟨f,fd,_⟩ := (inv.held o held).page
    refine entry_ext ?_ slots
    exact inv.files _ (inv.held o held).area _ (inv.held p kept).area f fd (files ▸ fd)

/-! ### Accounts of the areas -/

theorem setArea_areas (s : Store) (i j : Nat) (area : SwapArea) :
    (s.setArea i area).areas j = if j = i then area else s.areas j :=
  Function.update_apply ..

theorem AreaOk.fresh {sizePages : Nat} (type : Nat) (fd : Option Nat) (fits : sizePages ≤ swapMapMaxSlots) :
    AreaOk ⟨type,true,fd,sizePages,0,sizePages,fun _ => 0⟩ := by
  refine ⟨rfl,fits,?_,Nat.zero_add _⟩
  have empty : Bitmaps.members (fun _ => 0) sizePages = ∅ := by
    refine Finset.filter_false_of_mem (fun j _ => ?_)
    rw [Bitmaps.test_eq]
    simp
  exact (Finset.card_eq_zero.mpr empty).symm

/-- The area has this free slot, and the two can be read off the entry. -/
structure Offers (t : Store) (i slot : Nat) : Prop where
  low : i < t.areaCount
  some : (t.areas i).freeSlots ≠ 0
  inside : slot < (t.areas i).totalSlots
  free : bitmapTest (t.areas i).bitmap slot = false
  entry : (swapEntryEncode i slot).toNat < 2^60
  area : swapEntryGetArea (swapEntryEncode i slot) = i
  slot : swapEntryGetSlot (swapEntryEncode i slot) = slot

/-- The area has this used slot. -/
structure Taken (t : Store) (i slot : Nat) : Prop where
  low : i < t.areaCount
  inside : slot < (t.areas i).totalSlots
  there : bitmapTest (t.areas i).bitmap slot = true

section
variable {t : Store} (table : Table t) {area : SwapArea}
include table

theorem Table.set (ok : AreaOk area) : Table (t.setArea i area) := by
  refine ⟨table.count,fun j low => ?_⟩
  rw [setArea_areas]
  split
  · exact ok
  · exact table.areas j low

theorem Table.take (offers : Offers t i slot) : Table (t.setArea i ((t.areas i).take slot)) := by
  obtain ⟨active,limit,used,sum⟩ := table.areas i offers.low
  have some := offers.some
  refine table.set ⟨active,limit,?_,?_⟩
  · exact (congrArg (· + 1) used).trans (Bitmaps.card_members_set offers.inside offers.free).symm
  · simp only [SwapArea.take]
    omega

theorem Table.release (taken : Taken t i slot) : Table (t.setArea i ((t.areas i).release slot)) := by
  obtain ⟨active,limit,used,sum⟩ := table.areas i taken.low
  have less := Bitmaps.card_members_clear taken.inside taken.there
  have same := used.trans less.symm
  refine table.set ⟨active,limit,Nat.sub_eq_of_eq_add same,?_⟩
  simp only [SwapArea.release]
  omega

theorem Table.add (room : t.areaCount < swapMaxAreas) (ok : AreaOk area) (files : Nat → File) :
    Table { t.setArea t.areaCount area with areaCount := t.areaCount + 1, files := files } := by
  refine ⟨room,fun j low => ?_⟩
  rw [setArea_areas]
  split
  · exact ok
  · rename_i other
    exact table.areas j (Nat.lt_of_le_of_ne (Nat.le_of_lt_succ low) other)

end

/-! ### One slot taken or released -/

variable {t u : Store}

theorem Holds.frame {s : Store} {o : Entry × Page} (held : Holds s o) (low : swapEntryGetArea o.1 < t.areaCount)
    (area : t.areas (swapEntryGetArea o.1) = s.areas (swapEntryGetArea o.1))
    (files : ∀ f, (s.areas (swapEntryGetArea o.1)).fd = some f → t.files f = s.files f) : Holds t o := by
  obtain ⟨f,fd,page⟩ := held.page
  constructor
  · exact held.entry
  · exact low
  · rw [area]
    exact held.slot
  · rw [area]
    exact held.taken
  · rw [area]
    exact held.file
  · rw [area]
    exact ⟨f,fd,by rw [files f fd]; exact page⟩

section
variable (inv : Inv s)
include inv

theorem Inv.change {area : SwapArea} (table : Table (s.store.setArea i area))
    (type : area.type = (s.store.areas i).type) (fd : area.fd = (s.store.areas i).fd)
    (total : area.totalSlots = (s.store.areas i).totalSlots)
    (kept : ∀ o ∈ s.out, swapEntryGetArea o.1 = i → bitmapTest area.bitmap (swapEntryGetSlot o.1) = true) :
    Inv ⟨s.store.setArea i area,s.out⟩ where
  toTable := table
  files j low k below f here there := by
    have same : ∀ j, ((s.store.setArea i area).areas j).fd = (s.store.areas j).fd := by
      intro j
      rw [setArea_areas]
      split
      · rename_i this
        rw [this,fd]
      · rfl
    rw [same] at here there
    exact inv.files j low k below f here there
  held o member := by
    have held := inv.held o member
    by_cases here : swapEntryGetArea o.1 = i
    · have now : (s.store.setArea i area).areas (swapEntryGetArea o.1) = area := by
        rw [setArea_areas,if_pos here]
      subst here
      constructor
      · exact held.entry
      · exact held.area
      · rw [now,total]
        exact held.slot
      · rw [now]
        exact kept o member rfl
      · rw [now,type]
        exact held.file
      · rw [now,fd]
        exact held.page
    · refine held.frame held.area ?_ (fun _ _ => rfl)
      rw [setArea_areas,if_neg here]
  keys := inv.keys

theorem Inv.take (offers : Offers s.store i slot) :
    Inv ⟨s.store.setArea i ((s.store.areas i).take slot),s.out⟩ := by
  refine inv.change (inv.toTable.take offers) rfl rfl rfl (fun o member here => ?_)
  have taken := (inv.held o member).taken
  rw [here] at taken
  exact Bitmaps.test_set.trans (by rw [show Bitmaps.test _ _ = true from taken,Bool.or_true])

theorem Inv.release (taken : Taken s.store i slot)
    (unheld : ∀ o ∈ s.out, swapEntryGetArea o.1 = i → swapEntryGetSlot o.1 ≠ slot) :
    Inv ⟨s.store.setArea i ((s.store.areas i).release slot),s.out⟩ := by
  refine inv.change (inv.toTable.release taken) rfl rfl rfl (fun o member here => ?_)
  have taken := (inv.held o member).taken
  rw [here] at taken
  refine Bitmaps.test_clear.trans ?_
  rw [show Bitmaps.test _ _ = true from taken,decide_eq_false (unheld o member here)]
  rfl

theorem Inv.fresh (free : bitmapTest (s.store.areas i).bitmap slot = false) :
    ∀ o ∈ s.out, swapEntryGetArea o.1 = i → swapEntryGetSlot o.1 ≠ slot := by
  rintro o member rfl rfl
  have taken := (inv.held o member).taken
  rw [free] at taken
  cases taken

theorem Inv.forget (p : Entry × Page → Bool) : Inv { s with out := s.out.filter p } where
  toTable := inv.toTable
  files := inv.files
  held o member := inv.held o (List.mem_filter.mp member).1
  keys := inv.keys.sublist (List.filter_sublist.map _)

end

variable {page : Page} {entry : Entry}

private theorem swapIn_spec {newPagePhys : Nat}
    (returned : swapIn entry newPagePhys t = some (page,u)) :
    Taken t (swapEntryGetArea entry) (swapEntryGetSlot entry) ∧
      t.setArea (swapEntryGetArea entry) ((t.areas (swapEntryGetArea entry)).release (swapEntryGetSlot entry)) = u := by
  rw [swapIn] at returned
  dsimp only at returned
  split_ifs at returned with null low idle free
  obtain ⟨_,_,same⟩ := Option.map_eq_some_iff.mp returned
  exact ⟨⟨not_le.mp low,not_le.mp (not_or.mp idle).2,Bool.eq_true_of_not_eq_false free⟩,(Prod.mk.inj same).2⟩

theorem Inv.swapIn (inv : Inv s) (entry : Entry) (newPagePhys : Nat) :
    ∃ t, step s (.swapIn entry newPagePhys) = some t ∧ Inv t := by
  rw [step]
  split
  · exact ⟨s,rfl,inv⟩
  · rename_i page store returned
    refine ⟨_,rfl,?_⟩
    obtain ⟨taken,rfl⟩ := swapIn_spec returned
    refine (inv.forget (fun o => o.1 ≠ entry)).release taken ?_
    intro o member area slot
    have other := (List.mem_filter.mp member).2
    exact of_decide_eq_true other (entry_ext area slot)

/-! ### `swap_out` -/

theorem freeSlot_spec {found : Nat × Nat} (here : freeSlot t i = some found) :
    found.1 = i ∧ (t.areas i).freeSlots ≠ 0 ∧ found.2 < (t.areas i).totalSlots ∧
      bitmapTest (t.areas i).bitmap found.2 = false := by
  rw [freeSlot] at here
  split at here
  · cases here
  · rename_i usable
    obtain ⟨idle,full⟩ := not_or.mp usable
    obtain ⟨slot,free,rfl⟩ := Option.map_eq_some_iff.mp here
    have clear := List.find?_some free
    have inside := List.mem_range.mp (List.mem_of_find?_eq_some free)
    exact ⟨rfl,full,inside,by simpa using clear⟩

theorem Table.alloc (table : Table t) : swapAllocEntry t = (0,t) ∧ (∀ i < t.areaCount, freeSlot t i = none) ∨
    ∃ i slot, Offers t i slot ∧ swapAllocEntry t = (swapEntryEncode i slot,t.setArea i ((t.areas i).take slot)) := by
  unfold swapAllocEntry
  cases found : (List.range t.areaCount).findSome? (freeSlot t) with
  | none => exact .inl ⟨rfl,fun i low => List.findSome?_eq_none_iff.mp found i (List.mem_range.mpr low)⟩
  | some place =>
    obtain ⟨i,slot⟩ := place
    obtain ⟨j,member,chosen⟩ := List.exists_of_findSome?_eq_some found
    obtain ⟨rfl,some,inside,free⟩ := freeSlot_spec chosen
    have low := List.mem_range.mp member
    have count := table.count
    have limit := (table.areas _ low).limit
    unfold swapMaxAreas at count
    unfold swapMapMaxSlots at limit
    have small : i < 2^8 := by
      omega
    have short : slot < 2^56 := Nat.lt_of_lt_of_le inside (by omega)
    have value := toNat_encode small short
    exact .inr ⟨i,slot,⟨low,some,inside,free,by omega,getArea_encode small short,getSlot_encode small short⟩,rfl⟩

private theorem writeSlot_spec {area : SwapArea} {files files' : Nat → File} (type : area.type ≠ swapTypePartition)
    (written : swapWriteSlot area slot page files = some files') :
    area.type = swapTypeFile ∧ ∃ f, area.fd = some f ∧
      Function.update files f (writePage (files f) (slot * swapSlotSize) page) = files' := by
  rw [swapWriteSlot] at written
  split at written
  · cases written
  · split at written
    · rename_i file
      exact ⟨file,Option.map_eq_some_iff.mp written⟩
    · cases written

theorem Inv.write (inv : Inv s) {f : Nat} (real : entry ≠ 0)
    (area : swapEntryGetArea entry = i) (place : swapEntryGetSlot entry = slot) (taken : Taken s.store i slot)
    (file : (s.store.areas i).type = swapTypeFile) (fd : (s.store.areas i).fd = some f)
    (unheld : ∀ o ∈ s.out, swapEntryGetArea o.1 = i → swapEntryGetSlot o.1 ≠ slot) :
    Inv
      { store := { s.store with
          files := Function.update s.store.files f (writePage (s.store.files f) (slot * swapSlotSize) page) }
        out := (entry,page) :: s.out } where
  toTable := ⟨inv.count,inv.areas⟩
  files := inv.files
  held o member := by
    rcases List.mem_cons.mp member with rfl | old
    · subst area place
      refine ⟨real,taken.low,taken.inside,taken.there,file,f,fd,?_⟩
      dsimp only
      rw [Function.update_self]
      exact readPage_writePage ..
    · obtain ⟨entry',area',slot',taken',file',g,fd',page'⟩ := inv.held o old
      refine ⟨entry',area',slot',taken',file',g,fd',?_⟩
      dsimp only
      by_cases same : g = f
      · -- On one file there is one area, so the slots differ.
        subst same
        have one : swapEntryGetArea o.1 = i := inv.files _ area' _ taken.low g fd' fd
        rw [Function.update_self,readPage_writePage_of_ne _ _ (unheld o old one)]
        exact page'
      · rw [Function.update_of_ne same]
        exact page'
  keys := by
    rw [List.map_cons,List.nodup_cons]
    refine ⟨fun member => ?_,inv.keys⟩
    obtain ⟨o,old,same⟩ := List.mem_map.mp member
    exact unheld o old (by rw [same,area]) (by rw [same,place])

/-- What `swap_out` does: nothing, or it takes a slot, and writes the page there, gives it
    back, or returns the entry that means none. -/
theorem Table.out (table : Table t) (pagePhys : Nat) (page : Page) : swapOut pagePhys page t = (0,t) ∨
    ∃ i slot u, Offers t i slot ∧ u = t.setArea i ((t.areas i).take slot) ∧
      (swapOut pagePhys page t = (0,u) ∨ swapEntryEncode i slot ≠ 0 ∧
        (swapOut pagePhys page t = (0,u.setArea i ((u.areas i).release slot)) ∨
          ∃ files, swapWriteSlot (u.areas i) slot page u.files = some files ∧
            swapOut pagePhys page t = (swapEntryEncode i slot,{ u with files := files }))) := by
  rw [swapOut]
  split
  · exact .inl rfl
  rcases table.alloc with ⟨none,-⟩ | ⟨i,slot,offers,took⟩
  · simp [none]
  refine .inr ⟨i,slot,_,offers,rfl,?_⟩
  simp only [took,offers.area,offers.slot]
  by_cases null : swapEntryEncode i slot = 0
  · exact .inl (if_pos null)
  rw [if_neg null]
  refine .inr ⟨null,?_⟩
  split
  · exact .inl rfl
  · exact .inr ⟨_,by assumption,rfl⟩

theorem Offers.taken (offers : Offers t i slot) (took : u = t.setArea i ((t.areas i).take slot)) :
    u.areas i = (t.areas i).take slot ∧ Taken u i slot := by
  have now : u.areas i = (t.areas i).take slot := by rw [took,setArea_areas,if_pos rfl]
  refine ⟨now,took ▸ offers.low,now ▸ offers.inside,?_⟩
  rw [now]
  exact Bitmaps.test_set.trans (by rw [decide_eq_true rfl,Bool.true_or])

theorem Table.back (table : Table t) (offers : Offers t i slot)
    (took : u = t.setArea i ((t.areas i).take slot)) : Table (u.setArea i ((u.areas i).release slot)) :=
  Table.release (took ▸ table.take offers) (offers.taken took).2

theorem Inv.swapOut (inv : Inv s) (pagePhys : Nat) (page : Page) (meets : Meets s (.swapOut pagePhys page)) :
    ∃ t, step s (.swapOut pagePhys page) = some t ∧ Inv t := by
  simp only [step,Option.some.injEq,exists_eq_left']
  rcases inv.toTable.out pagePhys page with none | ⟨i,slot,u,offers,took,rest⟩
  · rw [none]
    exact inv
  have next : Inv ⟨u,s.out⟩ := took ▸ inv.take offers
  obtain ⟨now,taken⟩ := offers.taken took
  have unheld := inv.fresh offers.free
  rcases rest with lost | ⟨null,back | ⟨files,written,out⟩⟩
  · rw [lost]
    exact next
  · rw [back]
    exact next.release taken unheld
  · rw [out]
    have type : (u.areas i).type ≠ swapTypePartition := now ▸ (meets i offers.low).resolve_right offers.some
    obtain ⟨file,f,fd,rfl⟩ := writeSlot_spec type written
    simp only [null,if_false]
    exact next.write null offers.area offers.slot taken file fd unheld

/-! ### `swap_add_area` -/

/-- There may be one area more, on the file that the path names, and only that file changes. -/
structure Grows (path : Option Nat) (t u : Store) : Prop where
  least : t.areaCount ≤ u.areaCount
  most : u.areaCount ≤ t.areaCount + 1
  areas : ∀ j < t.areaCount, u.areas j = t.areas j
  last : t.areaCount < u.areaCount → ∀ f, (u.areas t.areaCount).fd = some f → path = some f
  files : ∀ f, path ≠ some f → u.files f = t.files f

variable {path : Option Nat}

theorem Grows.same (count : u.areaCount = t.areaCount)
    (areas : ∀ j < t.areaCount, u.areas j = t.areas j) (files : u.files = t.files) : Grows path t u :=
  ⟨by omega,by omega,areas,by omega,fun _ _ => by rw [files]⟩

theorem Table.addArea (table : Table t) (type : Nat) (filePath : Option Nat) (sizePages : Nat)
    (memory opened : Bool) : ∃ u, (swapAddArea type filePath sizePages memory opened t).2 = u ∧ Table u ∧
      Grows (if type = swapTypeFile then filePath else none) t u := by
  refine ⟨_,rfl,?_⟩
  have unchanged : ∀ path, Grows path t t := fun path => .same rfl (fun _ _ => rfl) rfl
  rw [swapAddArea]
  split
  · exact ⟨table,unchanged _⟩
  split
  · exact ⟨table,unchanged _⟩
  rename_i fits
  split
  · exact ⟨table,unchanged _⟩
  rename_i room
  have fresh := fun fd => AreaOk.fresh type fd (not_lt.mp (not_or.mp fits).2)
  have before : ∀ area, ∀ j < t.areaCount, (t.setArea t.areaCount area).areas j = t.areas j := by
    intro area j low
    rw [setArea_areas,if_neg (Nat.ne_of_lt low)]
  split
  · exact ⟨table.set (fresh none),.same rfl (before _) rfl⟩
  cases (if type = swapTypeFile then filePath else none) with
  | none =>
    refine ⟨table.add (not_le.mp room) (fresh none) _,Nat.le_succ _,Nat.le_refl _,before _,fun _ f here => ?_,fun _ _ => rfl⟩
    simp [Store.setArea] at here
  | some f =>
    dsimp only
    split
    · exact ⟨table.set (fresh none),.same rfl (before _) rfl⟩
    refine ⟨(table.set (fresh none)).add (not_le.mp room) (fresh (some f)) _,Nat.le_succ _,Nat.le_refl _,?_,fun _ g here => ?_,?_⟩
    · intro j low
      exact (congrFun (Function.update_idem ..) j).trans (before _ j low)
    · simpa [Store.setArea] using here
    · exact fun g other => Function.update_of_ne (fun same => other (by rw [same])) ..

theorem Inv.grow (inv : Inv s) (table : Table u) (grows : Grows path s.store u)
    (own : ∀ f, path = some f → ∀ j < s.store.areaCount, (s.store.areas j).fd ≠ some f) : Inv ⟨u,s.out⟩ := by
  have most := grows.most
  have split : ∀ j < u.areaCount, j < s.store.areaCount ∨ j = s.store.areaCount := by
    omega
  refine ⟨table,?_,fun o member => ?_,inv.keys⟩
  · intro j low k below f here there
    rcases split j low with old | rfl
    · rw [grows.areas j old] at here
      rcases split k below with older | rfl
      · rw [grows.areas k older] at there
        exact inv.files j old k older f here there
      · exact absurd here (own f (grows.last below f there) j old)
    · rcases split k below with older | rfl
      · rw [grows.areas k older] at there
        exact absurd there (own f (grows.last low f here) k older)
      · rfl
  · have held := inv.held o member
    refine held.frame (Nat.lt_of_lt_of_le held.area grows.least) (grows.areas _ held.area) (fun f fd => grows.files f ?_)
    exact fun new => own f new _ held.area fd

theorem Inv.addArea (inv : Inv s) (type : Nat) (filePath : Option Nat) (sizePages : Nat) (memory opened : Bool)
    (meets : Meets s (.addArea type filePath sizePages memory opened)) :
    ∃ t, step s (.addArea type filePath sizePages memory opened) = some t ∧ Inv t := by
  refine ⟨_,rfl,?_⟩
  obtain ⟨u,added,table,grows⟩ := inv.toTable.addArea type filePath sizePages memory opened
  rw [added]
  refine inv.grow table grows (fun f path => ?_)
  split at path
  · rename_i file
    subst path
    exact (meets.resolve_left (not_not.mpr file)).resolve_left nofun
  · cases path

/-! ### `swap_remove_area` -/

theorem Inv.unused (inv : Inv s) (idle : (s.store.areas i).usedSlots = 0) :
    ∀ o ∈ s.out, swapEntryGetArea o.1 ≠ i := by
  rintro o member rfl
  have held := inv.held o member
  have empty := (inv.areas _ held.area).used.symm.trans idle
  have inside : swapEntryGetSlot o.1 ∈ Bitmaps.members (s.store.areas (swapEntryGetArea o.1)).bitmap _ :=
    Bitmaps.mem_members.mpr ⟨held.slot,held.taken⟩
  rw [Finset.card_eq_zero.mp empty] at inside
  exact absurd inside (Finset.notMem_empty _)

theorem remove_areas : ∃ u, (swapRemoveArea i t).2 = u ∧ (u = t ∨
    i < t.areaCount ∧ (t.areas i).usedSlots = 0 ∧ u.areaCount = t.areaCount - 1 ∧ u.files = t.files ∧
      ∀ j < t.areaCount - 1, u.areas j = t.areas (if j = i then t.areaCount - 1 else j)) := by
  refine ⟨_,rfl,?_⟩
  rw [swapRemoveArea]
  split
  · exact .inl rfl
  rename_i low
  dsimp only
  split
  · exact .inl rfl
  rename_i idle
  refine .inr ⟨not_le.mp low,not_not.mp idle,?_,?_,?_⟩
  · split <;> rfl
  · split <;> rfl
  · intro j below
    split
    · rename_i early
      rw [setArea_areas,setArea_areas,setArea_areas]
      split
      · rw [if_neg (Nat.ne_of_gt early)]
        rfl
      · rfl
    · rename_i late
      have other : j ≠ i := fun same => late (same ▸ below)
      rw [setArea_areas,if_neg other,if_neg other]

theorem Table.removeArea (table : Table t) : Table (swapRemoveArea i t).2 := by
  obtain ⟨u,removed,rfl | ⟨low,-,count,-,areas⟩⟩ := @remove_areas i t
  · rw [removed]
    exact table
  rw [removed]
  refine ⟨count.le.trans ((Nat.sub_le ..).trans table.count),fun j below => ?_⟩
  rw [areas j (count ▸ below)]
  exact table.areas _ (by split <;> omega)

theorem Inv.removeArea (inv : Inv s) (meets : Meets s (.removeArea i)) :
    ∃ t, step s (.removeArea i) = some t ∧ Inv t := by
  refine ⟨_,rfl,?_⟩
  have table : Table (swapRemoveArea i s.store).2 := inv.toTable.removeArea
  obtain ⟨u,removed,rfl | ⟨low,idle,count,files,areas⟩⟩ := @remove_areas i s.store
  · rw [removed]
    exact inv
  rw [removed] at table ⊢
  have gone := inv.unused idle
  have last : ∀ o ∈ s.out, swapEntryGetArea o.1 ≠ s.store.areaCount - 1 := by
    rcases meets with high | busy | same | free
    · exact absurd low (not_lt.mpr high)
    · exact absurd idle busy
    · rw [← same]
      exact gone
    · exact inv.unused free
  have place : ∀ j < u.areaCount, (if j = i then s.store.areaCount - 1 else j) < s.store.areaCount := by
    intro j below
    split <;> omega
  refine ⟨table,?_,?_,inv.keys⟩
  · intro j below k under f here there
    dsimp only at below under here there
    rw [areas j (count ▸ below)] at here
    rw [areas k (count ▸ under)] at there
    have same := inv.files _ (place j below) _ (place k under) f here there
    split at same <;> split at same <;> omega
  · intro o member
    have held := inv.held o member
    have apart := last o member
    have below : swapEntryGetArea o.1 < s.store.areaCount - 1 := by
      have area := held.area
      omega
    refine held.frame (count ▸ below) ?_ (fun f _ => by rw [files])
    rw [areas _ below,if_neg (gone o member)]

theorem inv_step (s : State) (a : Request) (inv : Inv s) (meets : Meets s a) : ∃ t, step s a = some t ∧ Inv t := by
  cases a with
  | addArea type filePath sizePages memory opened => exact inv.addArea type filePath sizePages memory opened meets
  | removeArea areaIndex => exact inv.removeArea meets
  | swapOut pagePhys page => exact inv.swapOut pagePhys page meets
  | swapIn entry newPagePhys => exact inv.swapIn entry newPagePhys

private theorem init_table (files : Nat → File) : Table (swapInit files) :=
  ⟨Nat.zero_le _,fun _ low => absurd low (Nat.not_lt_zero _)⟩

theorem start_inv (files : Nat → File) : Inv (start files) where
  toTable := init_table files
  files _ low := absurd low (Nat.not_lt_zero _)
  held _ member := nomatch member
  keys := .nil

end

/-- In every run that meets the condition each page that is out can be read back as it was, and no two have one slot. -/
theorem swap_run_restores (files : Nat → File) (requests : List Request)
    (guarded : Guarded step Meets (start files) requests) :
    ∃ s, run step (start files) requests = some s ∧ Sound s := by
  obtain ⟨s,ran,inv⟩ := run_invariant inv_step requests (start files) (start_inv files) guarded
  exact ⟨s,ran,inv.sound⟩

def pageOf (b : UInt8) : Page := fun _ => b

def twoFiles : List Request :=
  [.addArea 2 (some 1) 2 true true,.addArea 2 (some 2) 1 true true,.swapOut 4096 (pageOf 5),.swapOut 8192 (pageOf 6),
    .swapOut 12288 (pageOf 7),.swapIn (swapEntryEncode 1 0) 4096,.removeArea 1]

theorem swap_run_restores_of_twoFiles :
    Guarded step Meets (start (fun _ _ => 0)) twoFiles ∧
      ∃ s, run step (start (fun _ _ => 0)) twoFiles = some s ∧ Sound s := by
  have guarded : Guarded step Meets (start (fun _ _ => 0)) twoFiles := by decide +kernel
  exact ⟨guarded,swap_run_restores (fun _ _ => 0) twoFiles guarded⟩

def firstBack (s : State) : Option (Option UInt8 × UInt8) :=
  s.out.head?.map (fun o => ((swapIn o.1 4096 s.store).map (fun r => r.1 ⟨0,by decide⟩),o.2 ⟨0,by decide⟩))

/-- Three ways to lose a page: the area of its slot is moved by the removal of another one,
    its slot is on a partition, or a second area is made on its file. -/
theorem swap_in_loses :
    (run step (start (fun _ _ => 0))
      [.addArea 2 (some 1) 1 true true,.addArea 2 (some 2) 1 true true,.addArea 2 (some 3) 1 true true,
        .swapOut 4096 (pageOf 5),.swapOut 4096 (pageOf 6),.swapOut 4096 (pageOf 7),
        .swapIn (swapEntryEncode 1 0) 4096,.removeArea 1]).map firstBack = some (some (none,7)) ∧
    (run step (start (fun _ _ => 0))
      [.addArea 1 none 2 true true,.swapOut 4096 (pageOf 5),.swapOut 4096 (pageOf 6)]).map firstBack =
        some (some (some 0,6)) ∧
    (run step (start (fun _ _ => 0))
      [.addArea 2 (some 1) 2 true true,.swapOut 4096 (pageOf 5),.swapOut 4096 (pageOf 6),
        .addArea 2 (some 1) 2 true true]).map firstBack = some (some (some 0,6)) := by
  decide +kernel

/-- `swap_out` where the file cannot be written. -/
def swapOutFails (pagePhys : Nat) (s : Store) : Store :=
  if pagePhys = 0 then s
  else
    let (entry,s) := swapAllocEntry s
    if entry = 0 then s
    else s.setArea (swapEntryGetArea entry) ((s.areas (swapEntryGetArea entry)).release (swapEntryGetSlot entry))

inductive Call where
  | request (r : Request)
  | allocEntry
  | freeEntry (entry : Entry)
  | swapOutFails (pagePhys : Nat)

def call (s : Store) : Call → Option Store
  | .request r => (step ⟨s,[]⟩ r).map State.store
  | .allocEntry => some (swapAllocEntry s).2
  | .freeEntry entry => some (swapFreeEntry entry s).2
  | .swapOutFails pagePhys => some (swapOutFails pagePhys s)

variable {t : Store}

theorem Table.call (table : Table t) (c : Call) : ∃ u, call t c = some u ∧ Table u := by
  cases c with
  | request r =>
    cases r with
    | addArea type filePath sizePages memory opened =>
      obtain ⟨u,rfl,kept,-⟩ := table.addArea type filePath sizePages memory opened
      exact ⟨_,rfl,kept⟩
    | removeArea areaIndex => exact ⟨_,rfl,table.removeArea⟩
    | swapOut pagePhys page =>
      simp only [Swap.call,step,Option.map_some,Option.some.injEq,exists_eq_left']
      rcases table.out pagePhys page with none | ⟨i,slot,u,offers,took,rest⟩
      · rwa [none]
      have taken := took ▸ table.take offers
      rcases rest with lost | ⟨-,back | ⟨files,-,out⟩⟩
      · rwa [lost]
      · rw [back]
        exact table.back offers took
      · rw [out]
        exact ⟨taken.count,taken.areas⟩
    | swapIn entry newPagePhys =>
      simp only [Swap.call,step]
      split
      · exact ⟨_,rfl,table⟩
      · rename_i returned
        obtain ⟨taken,rfl⟩ := swapIn_spec returned
        exact ⟨_,rfl,table.release taken⟩
  | allocEntry =>
    refine ⟨_,rfl,?_⟩
    rcases table.alloc with ⟨none,-⟩ | ⟨i,slot,offers,took⟩
    · rwa [none]
    · rw [took]
      exact table.take offers
  | freeEntry entry =>
    refine ⟨_,rfl,?_⟩
    dsimp only [swapFreeEntry]
    split_ifs with null high idle free
    · exact table
    · exact table
    · exact table
    · exact table
    · exact table.release ⟨not_le.mp high,not_le.mp (not_or.mp idle).2,Bool.eq_true_of_not_eq_false free⟩
  | swapOutFails pagePhys =>
    refine ⟨_,rfl,?_⟩
    rw [Swap.swapOutFails]
    split
    · exact table
    rcases table.alloc with ⟨none,-⟩ | ⟨i,slot,offers,took⟩
    · simpa [none] using table
    simp only [took,offers.area,offers.slot]
    split
    · exact table.take offers
    · exact table.back offers rfl

/-- After any calls, failing ones among them, the counters of each area are those of its
    bitmap. -/
theorem swap_run_counted (files : Nat → File) (calls : List Call) :
    ∃ s, run call (swapInit files) calls = some s ∧ ∀ i < s.areaCount,
      (s.areas i).usedSlots + (s.areas i).freeSlots = (s.areas i).totalSlots ∧
        (s.areas i).usedSlots = (Bitmaps.members (s.areas i).bitmap (s.areas i).totalSlots).card := by
  obtain ⟨s,ran,table⟩ := run_always (fun _ c table => Table.call table c) calls (swapInit files) (init_table files)
  exact ⟨s,ran,fun i low => ⟨(table.areas i low).sum,(table.areas i low).used⟩⟩

/-! ### Entries in page tables -/

def pagePresent : BitVec 64 := 1#64
def swapPteIsSwap (pte : BitVec 64) : Bool := pte &&& pagePresent = 0 && pte &&& 1#64 ≠ 0
def swapPteToEntry (pte : BitVec 64) : Entry := pte >>> 1
def swapEntryToPte (entry : Entry) : BitVec 64 := entry <<< 1 ||| 1#64

def HasFree (s : Store) : Prop :=
  ∃ i < s.areaCount, (s.areas i).active ∧ ∃ slot < (s.areas i).totalSlots, bitmapTest (s.areas i).bitmap slot = false

/-- What is asked of `swap_alloc_entry`. -/
structure Right (s : Store) : Prop where
  none : (swapAllocEntry s).1 = 0 ↔ ¬ HasFree s
  back : (swapAllocEntry s).1 ≠ 0 → swapPteToEntry (swapEntryToPte (swapAllocEntry s).1) = (swapAllocEntry s).1
  told : (swapAllocEntry s).1 ≠ 0 → swapPteIsSwap (swapEntryToPte (swapAllocEntry s).1) ∧
    swapEntryToPte (swapAllocEntry s).1 &&& pagePresent = 0

private theorem toPte_present (entry : Entry) : swapEntryToPte entry &&& pagePresent = 1#64 := by
  unfold swapEntryToPte pagePresent
  grind

private theorem toEntry_toPte {entry : Entry} (small : entry.toNat < 2^60) : swapPteToEntry (swapEntryToPte entry) = entry := by
  refine BitVec.eq_of_toNat_eq ?_
  have odd := Nat.two_pow_add_eq_or_of_lt (i := 1) (b := 1) (by decide) entry.toNat
  rw [swapPteToEntry,swapEntryToPte,BitVec.toNat_ushiftRight,BitVec.toNat_or,BitVec.toNat_shiftLeft,Nat.shiftLeft_eq,
    Nat.shiftRight_eq_div_pow,Nat.mod_eq_of_lt (by omega),Nat.mul_comm,show (1#64).toNat = 1 from rfl,← odd]
  omega

theorem Table.full {i slot : Nat} (table : Table t) (low : i < t.areaCount) (none : freeSlot t i = none)
    (inside : slot < (t.areas i).totalSlots) : bitmapTest (t.areas i).bitmap slot = true := by
  obtain ⟨active,-,used,sum⟩ := table.areas i low
  rw [freeSlot] at none
  split at none
  · rename_i passed
    have full : (Bitmaps.members (t.areas i).bitmap (t.areas i).totalSlots).card = (Finset.range (t.areas i).totalSlots).card := by
      simp [active] at passed
      rw [Finset.card_range]
      omega
    exact Finset.filter_card_eq full slot (Finset.mem_range.mpr inside)
  · have search := List.find?_eq_none.mp (Option.map_eq_none_iff.mp none) slot (List.mem_range.mpr inside)
    simpa using search

/-- In every state that is reached, what is asked holds just if there is no free slot. An
    entry comes back from its page-table entry, and none is returned only if no slot is free
    or the first one of the first area is. -/
theorem swap_alloc_right_iff (files : Nat → File) (calls : List Call) :
    ∃ s, run call (swapInit files) calls = some s ∧ (Right s ↔ ¬ HasFree s) ∧
      swapPteToEntry (swapEntryToPte (swapAllocEntry s).1) = (swapAllocEntry s).1 ∧
        ((swapAllocEntry s).1 = 0 → ¬ HasFree s ∨ bitmapTest (s.areas 0).bitmap 0 = false) := by
  obtain ⟨s,ran,table⟩ := run_always (fun _ c table => Table.call table c) calls (swapInit files) (init_table files)
  rcases table.alloc with ⟨none,passed⟩ | ⟨i,slot,offers,took⟩
  · have full : ¬ HasFree s := by
      rintro ⟨i,low,-,slot,inside,clear⟩
      rw [table.full low (passed i low) inside] at clear
      cases clear
    refine ⟨s,ran,⟨fun _ => full,fun _ => ⟨?_,?_,?_⟩⟩,?_,fun _ => .inl full⟩
    · simp [none,full]
    · simp [none]
    · simp [none]
    · simp only [none]
      decide
  · have free : HasFree s := ⟨i,offers.low,(table.areas i offers.low).active,slot,offers.inside,offers.free⟩
    refine ⟨s,ran,⟨fun right => ?_,fun full => absurd free full⟩,?_,fun zero => .inr ?_⟩
    · have told := (right.told (fun zero => right.none.mp zero free)).2
      rw [toPte_present] at told
      cases told
    · rw [took]
      exact toEntry_toPte offers.entry
    · have none : swapEntryEncode i slot = 0 := by rwa [took] at zero
      obtain ⟨-,-,-,clear,-,area,place⟩ := offers
      rw [none] at area place
      rwa [← area,← place] at clear

/-- The first slot is taken and nothing returned; the next entry reads as a present page. -/
theorem swap_alloc_wrong : (run call (swapInit fun _ _ => 0) [.request (.addArea 1 none 2 true true)]).map
      (fun s => (swapAllocEntry s).1) = some 0 ∧
    (run call (swapInit fun _ _ => 0) [.request (.addArea 1 none 2 true true),.allocEntry]).map
      (fun s => ((swapAllocEntry s).1,swapPteIsSwap (swapEntryToPte (swapAllocEntry s).1))) = some (1,false) := by
  decide +kernel

/-! ### Ranges of clear bits -/

section
variable (bitmap : Nat → BitVec 8) (totalBits count : Nat)

/-- The loop of `bitmap_find_free_range` over the `n` bits from `i` on. -/
def freeRangeLoop : Nat → Nat → Nat → Nat → Nat
  | 0, _, _, _ => 2^64 - 1
  | n+1, i, consecutive, start =>
    if ¬ bitmapTest bitmap i then
      let start := if consecutive = 0 then i else start
      if consecutive + 1 ≥ count then start else freeRangeLoop n (i + 1) (consecutive + 1) start
    else freeRangeLoop n (i + 1) 0 start

def bitmapFindFreeRange : Nat :=
  if count = 0 then 2^64 - 1 else freeRangeLoop bitmap count totalBits 0 0 0

def ranges : Set Nat := {x | x + count ≤ totalBits ∧ ∀ k < count, bitmapTest bitmap (x + k) = false}

variable {bitmap totalBits count}

theorem freeRangeLoop_spec {n i base consecutive start : Nat} (here : i = base + consecutive) (all : i + n = totalBits)
    (short : consecutive < count) (clear : ∀ k < consecutive, bitmapTest bitmap (base + k) = false)
    (starts : consecutive ≠ 0 → start = base) (early : base ∈ lowerBounds (ranges bitmap totalBits count)) :
    let r := freeRangeLoop bitmap count n i consecutive start
    ranges bitmap totalBits count = ∅ ∧ r = 2^64 - 1 ∨ IsLeast (ranges bitmap totalBits count) r := by
  induction n generalizing i base consecutive start with
  | zero =>
    refine .inl ⟨Set.eq_empty_of_forall_notMem (fun x range => ?_),rfl⟩
    have above := early range
    have inside := range.1
    omega
  | succ n ih =>
    rw [freeRangeLoop]
    split
    next free =>
      have same : (if consecutive = 0 then i else start) = base := by
        split
        · omega
        · exact starts (by assumption)
      have longer : ∀ k < consecutive + 1, bitmapTest bitmap (base + k) = false :=
        Nat.forall_lt_succ_right.mpr ⟨clear,by simpa [here] using free⟩
      simp only [same]
      split
      · exact .inr ⟨⟨by omega,fun k below => longer k (by omega)⟩,early⟩
      · exact ih (by omega) (by omega) (by omega) longer (fun _ => rfl) early
    next taken =>
      refine ih (Nat.add_zero (i + 1)).symm (by omega) (by omega) nofun (absurd rfl) (fun x range => ?_)
      by_contra before
      have above := early range
      have inRange := range.2 (i - x) (by omega)
      rw [Nat.add_sub_cancel' (by omega)] at inRange
      exact taken (by simp [inRange])

/-- The result is the first clear range, and UINT64_MAX exactly if there is none. -/
theorem bitmap_find_free_range_least (bitmap : Nat → BitVec 8) (totalBits count : Nat) (bits : totalBits < 2^64) (positive : 0 < count) :
    (bitmapFindFreeRange bitmap totalBits count = 2^64 - 1 ↔ ranges bitmap totalBits count = ∅) ∧
      ((ranges bitmap totalBits count).Nonempty → IsLeast (ranges bitmap totalBits count) (bitmapFindFreeRange bitmap totalBits count)) := by
  rw [bitmapFindFreeRange,if_neg (by omega)]
  rcases @freeRangeLoop_spec bitmap totalBits count totalBits 0 0 0 0 rfl (Nat.zero_add _) positive nofun
    (absurd rfl) (fun x _ => Nat.zero_le x) with ⟨none,last⟩ | least
  · exact ⟨iff_of_true last none,fun some => absurd none some.ne_empty⟩
  · have inside := least.1.1
    exact ⟨iff_of_false (by omega) (Set.nonempty_of_mem least.1).ne_empty,fun _ => least⟩

theorem bitmap_find_free_range_least_two : IsLeast (ranges (fun _ => 0x05) 8 2) 3 :=
  (bitmap_find_free_range_least (fun _ => 0x05) 8 2 (by decide) (by decide)).2 ⟨3,by decide,by decide⟩

end
end Kenux.Swap
