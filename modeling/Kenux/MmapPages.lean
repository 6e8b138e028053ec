import Kenux.Mmap
import Kenux.PmapPages

/-!
The functions of `mmap.c` on the table of areas together with the page map and the
page allocator. What they do to the table is what `Kenux.Mmap` says; here they also
map, unmap and translate the pages, take pages from `alloc_pages_virt` and give them
back to `free_pages_virt`. The contents of the pages are left out.
-/
namespace Kenux.MmapPages
open Kenux.Mmap Kenux.Words
open Kenux.Pmap hiding pageSize

def pageCowFlag : Nat := 2^9
def pfWrite : Nat := 2^1
def mmapFlagDirty : Nat := 0x1000

def protToPteFlags (prot : Nat) : Nat :=
  let flags := pagePresent ||| pageUser
  let flags := if prot &&& protWrite ≠ 0 then flags ||| pageWritable else flags
  if prot &&& protExec = 0 then flags ||| pageNoExec else flags

def pageAlignDown (addr : Nat) : Nat := addr / pageSize * pageSize

/-- A context and the memory of its page map; the pages that `alloc_pages_virt` has given, and those that went to
    `free_pages_virt`, each with the table and the memory of that moment. -/
structure Space where
  context : Context
  words : Nat → Nat
  taken : List Nat
  freed : List (Nat × Context × (Nat → Nat))

/-- What the allocators say to the pages of a new mapping, in their order: the page from `alloc_pages_virt`, and the
    pages that `memory_alloc_aligned` returns for tables, before it returns `NULL`. -/
structure Supply where
  frames : Nat → Option Nat
  tables : Nat → List Nat

def Supply.frame (supply : Supply) (k : Nat) : Nat := (supply.frames k).getD 0

def Space.take (s : Space) (page : Nat) : Space := { s with taken := page :: s.taken }

def Space.free (s : Space) (page : Nat) : Space := { s with freed := (page,s.context,s.words) :: s.freed }

section
variable (pml4 : Nat)

def Space.unmap (s : Space) (vaddr : Nat) : Space := { s with words := pmapUnmapPage s.words pml4 vaddr }

def Space.map (s : Space) (tables : List Nat) (vaddr paddr flags : Nat) : Space × Int :=
  let out := pmapMapPage ⟨s.words,tables⟩ pml4 vaddr paddr flags
  ({ s with words := out.1.words },out.2)

/-- The addresses of `for (v = low; v < high; v += PAGE_SIZE)`. -/
def pagesBetween (low high : Nat) : List Nat :=
  (List.range ((high - low + (pageSize - 1)) / pageSize)).map (fun k => low + pageSize * k)

def pageAddr (start k : Nat) : Nat := add64 start (k * pageSize)

/-- The pages over which `mmap_do_munmap` and `mmap_do_mprotect` go: those of an area that a range meets. -/
def pagesIn (area : Area) (addr alignedLen : Nat) : List Nat :=
  let low := if area.start < addr then addr else area.start
  let high := if add64 addr alignedLen < area.areaEnd then add64 addr alignedLen else area.areaEnd
  pagesBetween (pageAlignDown low) (pageAlignUp high)

def unmapRound (s : Space) (addr alignedLen : Nat) (i : Slot) : Space :=
  let s := (pagesIn (s.context.areas i) addr alignedLen).foldl (Space.unmap pml4) s
  { s with context := Mmap.unmapRound s.context addr alignedLen i }

def unmapLoop (addr alignedLen : Nat) : Nat → Space → Bool → Option (Space × Bool)
  | 0, _, _ => none
  | fuel+1, s, foundAny =>
    match mmapFindCoveringArea s.context addr alignedLen with
    | none => some (s,foundAny)
    | some i => unmapLoop addr alignedLen fuel (unmapRound pml4 s addr alignedLen i) true

def mmapDoMunmap (s : Space) (addr length : Nat) : Option (Space × Int) :=
  if length = 0 then some (s,-1)
  else (unmapLoop pml4 addr (pageAlignUp length) 257 s false).map (fun r => (r.1,if r.2 then 0 else -1))

/-- A page of the loops that undo a mapping. -/
def undoPage (mapAddr : Nat) (s : Space) (j : Nat) : Space :=
  let pa := pmapGetPhysical s.words pml4 (pageAddr mapAddr j)
  let s := s.unmap pml4 (pageAddr mapAddr j)
  if pa ≠ 0 then s.free pa else s

/-- The loops that undo the first `i` pages of a mapping. -/
def rollback (mapAddr i : Nat) (s : Space) : Space := (List.range i).foldl (undoPage pml4 mapAddr) s

/-- The loop over the pages of an anonymous mapping, from page `i` on; `false` when it has been undone. -/
def populateAnonymous (supply : Supply) (mapAddr flags : Nat) : Nat → Nat → Space → Space × Bool
  | _, 0, s => (s,true)
  | i, n+1, s =>
    match supply.frames i with
    | none => (rollback pml4 mapAddr i s,false)
    | some page =>
      let (s,status) := (s.take page).map pml4 (supply.tables i) (pageAddr mapAddr i) page flags
      if status ≠ 0 then (rollback pml4 mapAddr i (s.free page),false)
      else populateAnonymous supply mapAddr flags (i+1) n s

/-- The loop over the pages of a shared mapping, which does not look at what `pmap_map_page` returns. -/
def populateShared (supply : Supply) (mapAddr flags : Nat) : Nat → Nat → Space → Space × Bool
  | _, 0, s => (s,true)
  | i, n+1, s =>
    match supply.frames i with
    | none => (rollback pml4 mapAddr i s,false)
    | some page =>
      populateShared supply mapAddr flags (i+1) n
        ((s.take page).map pml4 (supply.tables i) (pageAddr mapAddr i) page flags).1

/-- The first page of a mapping, from page `k` on, that gets no frame or cannot be mapped. -/
def firstFailure (supply : Supply) (mapAddr flags : Nat) : Nat → Nat → (Nat → Nat) → Option Nat
  | 0, _, _ => none
  | n+1, k, words =>
    match supply.frames k with
    | none => some k
    | some page =>
      let out := pmapMapPage ⟨words,supply.tables k⟩ pml4 (pageAddr mapAddr k) page flags
      if out.2 ≠ 0 then some k else firstFailure supply mapAddr flags n (k+1) out.1.words

/-- What `mmap_do_mmap` does with the area in the slot after the loop over its pages. -/
def finishArea (slot : Slot) (out : Space × Bool) : Space × Nat :=
  let area := out.1.context.areas slot
  if out.2 then
    ({ out.1 with context := out.1.context.put slot { area with flags := area.flags ||| mmapFlagPopulated } },area.start)
  else
    ({ out.1 with context :=
      { out.1.context.put slot { area with active := false } with areaCount := out.1.context.areaCount - 1 } },mapFailed)

/-- The end of `mmap_do_mmap`: the pages of the area that was put in the slot, which has no file. -/
def populate (supply : Supply) (slot : Slot) (s : Space) : Space × Nat :=
  let area := s.context.areas slot
  let npages := area.length / pageSize
  let flags := protToPteFlags area.prot
  if area.flags &&& mapAnonymous ≠ 0 then finishArea slot (populateAnonymous pml4 supply area.start flags 0 npages s)
  else if area.flags &&& mapPrivate ≠ 0 then
    ({ s with context := s.context.put slot { area with flags := area.flags ||| mmapFlagCow } },area.start)
  else if area.flags &&& mapShared ≠ 0 then finishArea slot (populateShared pml4 supply area.start flags 0 npages s)
  else (s,area.start)

def chooseAddr (s : Space) (addr alignedLen flags : Nat) : Option (Space × Nat) :=
  if addr ≠ 0 then
    if flags &&& mapFixed ≠ 0 then (mmapDoMunmap pml4 s addr alignedLen).map (fun r => (r.1,addr))
    else if mmapCheckOverlap s.context addr alignedLen then (mmapFindFreeArea s.context alignedLen).map (fun found => (s,found))
    else some (s,addr)
  else (mmapFindFreeArea s.context alignedLen).map (fun found => (s,found))

/-- The table with a new area in a slot. -/
def Space.enter (s : Space) (slot : Slot) (area : Area) : Space :=
  { s with context := { s.context.put slot area with areaCount := s.context.areaCount + 1 } }

def enterArea (supply : Supply) (s : Space) (area : Area) : Space × Nat :=
  if area.start = 0 then (s,mapFailed)
  else
    match mmapAllocSlot s.context with
    | none => (s,mapFailed)
    | some slot => populate pml4 supply slot (s.enter slot area)

def mmapDoMmap (supply : Supply) (s : Space) (addr length prot flags offset : Nat) : Option (Space × Nat) :=
  if mmapRefuses addr length prot flags offset then some (s,mapFailed)
  else
    (chooseAddr pml4 s addr (pageAlignUp length) flags).map
      (fun r => enterArea pml4 supply r.1 (newArea r.2 (pageAlignUp length) prot flags offset))

def protectPage (tables : Nat → List Nat) (prot : Nat) (s : Space) (vaddr : Nat) : Space :=
  let paddr := pmapGetPhysical s.words pml4 vaddr
  if paddr ≠ 0 then ((s.unmap pml4 vaddr).map pml4 (tables vaddr) vaddr paddr (protToPteFlags prot)).1 else s

def protectArea (tables : Slot → Nat → List Nat) (addr alignedLen prot : Nat) (s : Space) (i : Slot) : Space :=
  let area := s.context.areas i
  if area.meets addr alignedLen then
    let s := { s with context := s.context.put i { area with prot := prot } }
    (pagesIn area addr alignedLen).foldl (protectPage pml4 (tables i) prot) s
  else s

def mmapDoMprotect (tables : Slot → Nat → List Nat) (s : Space) (addr length prot : Nat) : Space × Int :=
  if length = 0 then (s,-1)
  else
    let alignedLen := pageAlignUp length
    ((List.finRange 256).foldl (protectArea pml4 tables addr alignedLen prot) s,
      if (List.finRange 256).any (fun i => (s.context.areas i).meets addr alignedLen) then 0 else -1)

def mmapFindAreaAt (c : Context) (vaddr : Nat) : Option Slot :=
  (List.finRange 256).find? (fun i =>
    (c.areas i).active && (c.areas i).start ≤ vaddr && vaddr < (c.areas i).areaEnd)

def faultIn (s : Space) (i : Slot) (vaddr : Nat) (frame : Option Nat) (tables : List Nat) (flags mark : Nat) : Space × Int :=
  match frame with
  | none => (s,-1)
  | some page =>
    let (s,status) := (s.take page).map pml4 tables vaddr page flags
    if status ≠ 0 then (s.free page,-1)
    else
      let area := s.context.areas i
      ({ s with context := s.context.put i { area with flags := area.flags ||| mark } },0)

/-- `mmap_page_fault_handler`, with what `alloc_pages_virt` and `pagecache_get_page` return, and the pages for tables. -/
def mmapPageFaultHandler (s : Space) (vaddr errorCode : Nat) (frame cached : Option Nat) (tables : List Nat) : Space × Int :=
  match mmapFindAreaAt s.context vaddr with
  | none => (s,-1)
  | some i =>
    let area := s.context.areas i
    let pageVaddr := pageAlignDown vaddr
    let flags := protToPteFlags area.prot
    if area.flags &&& mapPrivate ≠ 0 then
      if errorCode &&& pfWrite ≠ 0 then
        faultIn pml4 s i pageVaddr frame tables (flags ||| pageWritable) (mmapFlagDirty ||| mmapFlagPopulated)
      else
        faultIn pml4 s i pageVaddr frame tables ((flags &&& (2^64 - 1 - pageWritable)) ||| pageCowFlag) mmapFlagPopulated
    else if area.flags &&& mapShared ≠ 0 ∧ area.file.isSome then
      match cached with
      | none => (s,-1)
      | some paddr =>
        let (s,status) := s.map pml4 tables pageVaddr paddr flags
        if status ≠ 0 then (s,-1)
        else ({ s with context := s.context.put i { area with flags := area.flags ||| mmapFlagPopulated } },0)
    else if area.flags &&& mapAnonymous ≠ 0 then faultIn pml4 s i pageVaddr frame tables flags mmapFlagPopulated
    else (s,-1)

end

def Covered (c : Context) (x : Nat) : Prop :=
  ∃ i, (c.areas i).active = true ∧ (c.areas i).start ≤ x ∧ x < (c.areas i).start + (c.areas i).length

def pageAt (start k : Nat) : Page := pageOf (pageAddr start k)

variable {j k addr length flags found x pml4 start : Nat} {c : Context} {s : Space}

theorem pageAt_inj (small : j < 2^36) (small' : k < 2^36) (same : pageAt start j = pageAt start k) : j = k := by
  have numbers := congrArg Fin.val same
  unfold pageAt pageOf pageAddr add64 Pmap.pageSize pageSize at numbers
  dsimp only at numbers
  omega

private theorem pageAddr_mod (start k : Nat) : pageAddr start k % pageSize = start % pageSize := by
  unfold pageAddr add64 pageSize
  omega

theorem of_not_refused {prot offset : Nat} (passed : ¬ mmapRefuses addr length prot flags offset = true) :
    0 < length ∧ length ≤ 0x10000000000 ∧ (addr = 0 ∨ addr % pageSize = 0) := by
  have low : addr &&& (pageSize - 1) = addr % pageSize := Nat.and_two_pow_sub_one_eq_mod addr 12
  simp only [mmapRefuses,Bool.or_eq_true,Bool.and_eq_true,decide_eq_true_eq] at passed
  omega

/-- A page that the allocator may give. -/
def IsFrame (frame : Nat) : Prop := frame % pageSize = 0 ∧ frame ≠ 0 ∧ frame < 2^52

instance (frame : Nat) : Decidable (IsFrame frame) := inferInstanceAs (Decidable (_ ∧ _ ∧ _))

private theorem pteAddr_frame {frame : Nat} (isFrame : IsFrame frame) (isFlags : IsFlags flags) :
    pteAddr (pteFlags frame (flags ||| pagePresent)) = frame :=
  pteAddr_pteFlags isFrame.1 isFrame.2.2 (isFlags.or (by decide))

theorem protToPteFlags_isFlags (prot : Nat) : IsFlags (protToPteFlags prot) := by
  unfold protToPteFlags
  split <;> split <;> decide

/-! ### The place of a mapping -/

theorem not_covered_of_apart (free : ∀ j span, c.spans j = some span → span.Apart ⟨found,length⟩)
    (low : found ≤ x) (high : x < found + length) : ¬ Covered c x := by
  rintro ⟨i,active,first,last⟩
  have apart := free i _ (span_eq_some.mpr ⟨active,rfl⟩)
  dsimp only [Slots.Span.Apart,Blocks.Apart] at apart
  omega

theorem apart_of_missed (bounded : Bounded c) (fits : found + length < 2^64)
    (missed : mmapFindCoveringArea c found length = none) (j : Slot) (span : Slots.Span) (there : c.spans j = some span) :
    span.Apart ⟨found,length⟩ := by
  have outside := mmapFindCoveringArea_eq_none bounded missed there
  rw [add64_of_lt fits] at outside
  exact outside

theorem searchFree_aligned (starts : ∀ i, (c.areas i).active = true → (c.areas i).start % pageSize = 0)
    (small : length ≤ 0x10000000000) (whole : length % pageSize = 0) (fuel : Nat) {candidate found : Nat}
    (aligned : candidate % pageSize = 0) (low : candidate < 2^64) (searched : searchFree c length fuel candidate = some found) :
    found % pageSize = 0 := by
  induction fuel generalizing candidate with
  | zero => cases searched
  | succ fuel ih =>
    rw [searchFree,add64_of_lt (by unfold mmapMinAddr; omega)] at searched
    split at searched
    · cases searched
      rfl
    · rw [sub64_of_le (by omega) low] at searched
      have place : (candidate - length) % pageSize = 0 := by
        unfold pageSize at *
        omega
      split at searched
      · cases searched
        exact place
      next i met =>
        have meets : (c.areas i).meets (candidate - length) length = true :=
          List.find?_some (p := fun i => (c.areas i).meets (candidate - length) length) met
        simp only [Area.meets,Bool.and_eq_true,decide_eq_true_eq] at meets
        obtain ⟨active,_,below⟩ := meets
        refine ih (starts i active) ?_ searched
        unfold add64 at below
        omega

/-- A place that a mapping gets without an unmapping: the one that was asked for, or one in the range of the search. -/
structure Found (c : Context) (addr length found : Nat) : Prop where
  fits : found + length < 2^64
  free : ∀ j span, c.spans j = some span → span.Apart ⟨found,length⟩
  place : (addr ≠ 0 ∧ found = addr) ∨ (mmapMinAddr ≤ found ∧ found + length ≤ mmapSearchStart)
  aligned : (∀ i, (c.areas i).active = true → (c.areas i).start % pageSize = 0) → (addr = 0 ∨ addr % pageSize = 0) →
    found % pageSize = 0

theorem chooseAddr_found (bounded : Bounded s.context) (positive : 0 < length)
    (small : length ≤ 0x10000000000) (fits : addr ≠ 0 → addr + pageAlignUp length < 2^64)
    (apart : addr ≠ 0 → flags &&& mapFixed ≠ 0 → mmapFindCoveringArea s.context addr (pageAlignUp length) = none) :
    ∃ found, chooseAddr pml4 s addr (pageAlignUp length) flags = some (s,found) ∧
      (found ≠ 0 → Found s.context addr (pageAlignUp length) found) := by
  obtain ⟨nonempty,short,rounded⟩ := pageAlignUp_bounds positive small
  have whole : pageAlignUp length % pageSize = 0 := Nat.mul_mod_left _ _
  obtain ⟨place,searched,free⟩ := mmapFindFreeArea_spec bounded short rounded
  have window : place ≠ 0 → Found s.context addr (pageAlignUp length) place := by
    intro nonzero
    refine ⟨((free nonzero).covering bounded).1,(free nonzero).free,.inr ⟨(free nonzero).low,(free nonzero).high⟩,fun starts _ => ?_⟩
    rw [mmapFindFreeArea,if_neg (Nat.ne_of_gt nonempty),rounded] at searched
    exact searchFree_aligned starts short whole _ (by decide) (by decide) searched
  have asked : addr ≠ 0 → mmapFindCoveringArea s.context addr (pageAlignUp length) = none →
      Found s.context addr (pageAlignUp length) addr := fun nonzero missed =>
    ⟨fits nonzero,apart_of_missed bounded (fits nonzero) missed,.inl ⟨nonzero,rfl⟩,fun _ start => start.resolve_left nonzero⟩
  unfold chooseAddr
  rw [searched]
  split
  case isTrue somewhere =>
    split
    case isTrue fixed =>
      have missed := apart somewhere fixed
      rw [mmapDoMunmap,if_neg (Nat.ne_of_gt nonempty),rounded,unmapLoop,missed]
      exact ⟨addr,rfl,fun _ => asked somewhere missed⟩
    · split
      · exact ⟨place,rfl,window⟩
      case isFalse overlap => exact ⟨addr,rfl,fun _ => asked somewhere (Option.not_isSome_iff_eq_none.mp overlap)⟩
  · exact ⟨place,rfl,window⟩

theorem Found.half (place : Found c addr length found)
    (half : addr ≠ 0 → addr + length ≤ 2^47 ∨ 2^64 - 2^47 ≤ addr) : found + length ≤ 2^47 ∨ 2^64 - 2^47 ≤ found := by
  rcases place.place with ⟨nonzero,rfl⟩ | ⟨_,below⟩
  · exact half nonzero
  · unfold mmapSearchStart at below
    omega

theorem Found.vacant (place : Found s.context addr length found)
    (vacant : ∀ x, (addr ≠ 0 ∧ addr ≤ x ∧ x < addr + length) ∨ (mmapMinAddr ≤ x ∧ x < mmapSearchStart) →
      ¬ Covered s.context x → pmapTranslate s.words pml4 x = none) (low : found ≤ x) (high : x < found + length) :
    pmapTranslate s.words pml4 x = none := by
  refine vacant x ?_ (not_covered_of_apart place.free low high)
  rcases place.place with ⟨nonzero,rfl⟩ | ⟨above,below⟩
  · exact .inl ⟨nonzero,low,high⟩
  · exact .inr ⟨by omega,by omega⟩

theorem pageAddr_eq (fits : start + length < 2^64) (inside : k < length / pageSize) :
    pageAddr start k = start + k * pageSize ∧ pageAddr start k < start + length := by
  unfold pageAddr add64 pageSize at *
  omega

section
variable {pml4 page : Nat} {u : Space} {words : Nat → Nat}

/-- The entries of some pages are cleared, and nothing is mapped or taken. -/
structure Clears (pml4 : Nat) (s t : Space) (pages : List Page) : Prop where
  map : PageMap t.words pml4
  tables : SameTables s.words t.words pml4
  entries : ∀ p, entryOf t.words pml4 p = if p ∈ pages then 0 else entryOf s.words pml4 p
  context : t.context = s.context
  taken : t.taken = s.taken

theorem Clears.trans {t : Space} {ps qs : List Page} (first : Clears pml4 s t ps) (second : Clears pml4 t u qs) :
    Clears pml4 s u (ps ++ qs) := by
  refine ⟨second.map,fun q low => (second.tables q low).trans (first.tables q low),fun p => ?_,
    second.context.trans first.context,second.taken.trans first.taken⟩
  rw [second.entries,first.entries]
  by_cases later : p ∈ qs
  · simp [later]
  · simp [later]

section
variable (map : PageMap s.words pml4)
include map

theorem Clears.refl : Clears pml4 s s [] :=
  ⟨map,fun _ _ => rfl,fun p => by rw [if_neg List.not_mem_nil],rfl,rfl⟩

theorem Space.unmap_clears (vaddr : Nat) :
    Clears pml4 s (s.unmap pml4 vaddr) [pageOf vaddr] := by
  obtain ⟨unmapped,same,entries⟩ := map.unmap vaddr
  refine ⟨unmapped,same,fun p => ?_,rfl,rfl⟩
  rw [show (s.unmap pml4 vaddr).words = pmapUnmapPage s.words pml4 vaddr from rfl,entries,Function.update_apply]
  simp only [List.mem_singleton]

theorem Space.map_spec {tables later : List Nat}
    (fresh : Fresh ⟨s.words,tables ++ later⟩ pml4) (vaddr paddr flags : Nat) :
    ∃ words status, s.map pml4 tables vaddr paddr flags = ({ s with words := words },status) ∧ PageMap words pml4 ∧
      Fresh ⟨words,later⟩ pml4 ∧ (status = -1 ∧ entryOf words pml4 = entryOf s.words pml4 ∨
        status = 0 ∧ entryOf words pml4 =
          Function.update (entryOf s.words pml4) (pageOf vaddr) (pteFlags paddr (flags ||| pagePresent))) := by
  obtain ⟨n,status,mapped,kept,left,outcome⟩ := map.map fresh vaddr paddr flags
  refine ⟨n.words,status,?_,kept,left,outcome⟩
  rw [Space.map,mapped]

omit map in
theorem Space.map_page {tables : List Nat} {vaddr paddr flags : Nat} {status : Int}
    (mapped : (s.take page).map pml4 tables vaddr paddr flags = ({ s.take page with words := words },status)) :
    (pmapMapPage ⟨s.words,tables⟩ pml4 vaddr paddr flags).1.words = words ∧
      (pmapMapPage ⟨s.words,tables⟩ pml4 vaddr paddr flags).2 = status :=
  ⟨congrArg (fun r => r.1.words) mapped,congrArg Prod.snd mapped⟩

theorem absent_of_translate (none : pmapTranslate s.words pml4 x = none) :
    entryOf s.words pml4 (pageOf x) &&& pagePresent = 0 := by
  rw [map.translate] at none
  by_contra present
  rw [if_neg present] at none
  cases none

end

theorem unmapAll_clears (addrs : List Nat) (map : PageMap s.words pml4) :
    Clears pml4 s (addrs.foldl (Space.unmap pml4) s) (addrs.map pageOf) ∧ (addrs.foldl (Space.unmap pml4) s).freed = s.freed := by
  induction addrs generalizing s with
  | nil => exact ⟨.refl map,rfl⟩
  | cons v rest ih =>
    have first := Space.unmap_clears map v
    obtain ⟨others,freed⟩ := ih first.map
    exact ⟨first.trans others,freed⟩

/-! ### Undoing a mapping -/

theorem undoPage_context (start : Nat) (s : Space) (j : Nat) : (undoPage pml4 start s j).context = s.context := by
  unfold undoPage
  dsimp only
  split <;> rfl

private theorem rollback_context (start i : Nat) (s : Space) : (rollback pml4 start i s).context = s.context := by
  unfold rollback
  induction List.range i generalizing s with
  | nil => rfl
  | cons j rest ih => exact (ih _).trans (undoPage_context start s j)

theorem populateAnonymous_context (supply : Supply) (start flags n k : Nat) (s : Space) :
    (populateAnonymous pml4 supply start flags k n s).1.context = s.context := by
  induction n generalizing k s with
  | zero => rfl
  | succ n ih =>
    rw [populateAnonymous]
    split
    · exact rollback_context start k s
    · dsimp only
      split
      · exact rollback_context start k _
      · exact ih _ _

theorem populateShared_context (supply : Supply) (start flags n k : Nat) (s : Space) :
    (populateShared pml4 supply start flags k n s).1.context = s.context := by
  induction n generalizing k s with
  | zero => rfl
  | succ n ih =>
    rw [populateShared]
    split
    · exact rollback_context start k s
    · exact ih _ _

theorem populateAnonymous_done (n : Nat) (k : Nat) (u : Space) :
    (populateAnonymous pml4 supply start flags k n u).2 = true ↔ firstFailure pml4 supply start flags n k u.words = none := by
  induction n generalizing k u with
  | zero => exact iff_of_true rfl rfl
  | succ n ih =>
    rw [populateAnonymous,firstFailure]
    cases supply.frames k with
    | none => exact iff_of_false nofun nofun
    | some page =>
      rcases mapped : (u.take page).map pml4 (supply.tables k) (pageAddr start k) page flags with ⟨v,status⟩
      have stored : (pmapMapPage ⟨u.words,supply.tables k⟩ pml4 (pageAddr start k) page flags).1.words = v.words :=
        congrArg (fun r => r.1.words) mapped
      have answer : (pmapMapPage ⟨u.words,supply.tables k⟩ pml4 (pageAddr start k) page flags).2 = status := congrArg Prod.snd mapped
      simp only [mapped,stored,answer]
      by_cases failed : status ≠ 0
      · rw [if_pos failed,if_pos failed]
        exact iff_of_false nofun nofun
      · rw [if_neg failed,if_neg failed]
        exact ih (k+1) v

theorem populateShared_done (n : Nat) (k : Nat) (u : Space) :
    (populateShared pml4 supply start flags k n u).2 = true ↔ ∀ j < n, supply.frames (k + j) ≠ none := by
  induction n generalizing k u with
  | zero => exact iff_of_true rfl nofun
  | succ n ih =>
    rw [populateShared]
    cases given : supply.frames k with
    | none => exact iff_of_false nofun (fun all => all 0 (Nat.succ_pos n) given)
    | some page =>
      refine (ih (k+1) _).trans ⟨fun all j low => ?_,fun all j low => ?_⟩
      · cases j with
        | zero => exact given ▸ nofun
        | succ j => exact Nat.add_right_comm k 1 j ▸ all j (by omega)
      · exact Nat.add_right_comm k 1 j ▸ all (j+1) (by omega)

private theorem undoPage_clears (map : PageMap s.words pml4) (start j : Nat) :
    Clears pml4 s (undoPage pml4 start s j) [pageAt start j] := by
  have cleared := Space.unmap_clears map (pageAddr start j)
  dsimp only [undoPage]
  split
  · exact { cleared with }
  · exact cleared

theorem rollback_succ (start i : Nat) (s : Space) :
    rollback pml4 start (i+1) s = undoPage pml4 start (rollback pml4 start i s) i := by
  rw [rollback,List.range_succ,List.foldl_append]
  rfl

theorem rollback_clears (map : PageMap s.words pml4) (start i : Nat) :
    Clears pml4 s (rollback pml4 start i s) ((List.range i).map (pageAt start)) := by
  induction i with
  | zero => exact .refl map
  | succ i ih =>
    rw [rollback_succ,List.range_succ,List.map_append]
    exact ih.trans (undoPage_clears ih.map start i)

/-- The first `k` pages of an area are mapped to these frames. -/
def Lies (pml4 start flags : Nat) (frame : Nat → Nat) (words : Nat → Nat) (k : Nat) : Prop :=
  ∀ j < k, IsFrame (frame j) ∧ entryOf words pml4 (pageAt start j) = pteFlags (frame j) (flags ||| pagePresent)

theorem not_mem_pages (small : j < 2^36) (above : k ≤ j) : pageAt start j ∉ (List.range k).map (pageAt start) := by
  intro member
  obtain ⟨i,low,same⟩ := List.mem_map.mp member
  rw [List.mem_range] at low
  have equal := pageAt_inj (by omega) small same
  omega

section
variable {start flags : Nat} {frame : Nat → Nat}

/-- Undoing the first pages of a mapping gives their frames back, one after the other. The address that is freed is that
    of the area's offset in the frame. -/
theorem rollback_freed (map : PageMap s.words pml4) (isFlags : IsFlags flags)
    (i : Nat) (small : i ≤ 2^36) (lies : Lies pml4 start flags frame s.words i) :
    (rollback pml4 start i s).freed.map Prod.fst =
      ((List.range i).map (fun j => frame j + start % pageSize)).reverse ++ s.freed.map Prod.fst := by
  induction i with
  | zero => rfl
  | succ i ih =>
    have freed := ih (by omega) (fun j low => lies j (by omega))
    have cleared := rollback_clears map start i
    obtain ⟨isFrame,entry⟩ := lies i (Nat.lt_succ_self i)
    have there : entryOf (rollback pml4 start i s).words pml4 (pageAt start i) = pteFlags (frame i) (flags ||| pagePresent) := by
      rw [cleared.entries,if_neg (not_mem_pages (by omega) (Nat.le_refl i)),entry]
    have physical : pmapGetPhysical (rollback pml4 start i s).words pml4 (pageAddr start i) = frame i + start % pageSize := by
      unfold pageAt at there
      rw [cleared.map.getPhysical,there,if_neg (present_pteFlags _ _),pteAddr_frame isFrame isFlags,← pageAddr_mod start i]
      rfl
    have undone : undoPage pml4 start (rollback pml4 start i s) i =
        ((rollback pml4 start i s).unmap pml4 (pageAddr start i)).free (frame i + start % pageSize) := by
      have nonzero := isFrame.2.1
      rw [undoPage,physical]
      exact if_pos (by omega)
    rw [rollback_succ,undone,List.range_succ,List.map_append,List.reverse_append]
    exact congrArg (_ :: ·) freed

end

/-- The first `k` pages of a mapping have been taken and mapped. `extra` has the page that was taken and given back
    when it could not be mapped. -/
structure Laid (pml4 : Nat) (supply : Supply) (start flags k : Nat) (extra : List Nat) (s u : Space) : Prop where
  map : PageMap u.words pml4
  lies : Lies pml4 start flags supply.frame u.words k
  others : ∀ p, p ∉ (List.range k).map (pageAt start) → entryOf u.words pml4 p = entryOf s.words pml4 p
  context : u.context = s.context
  taken : u.taken = extra ++ (((List.range k).map supply.frame).reverse ++ s.taken)
  freed : u.freed = extra.map (fun f => (f,u.context,u.words)) ++ s.freed

/-- What the allocators may give to a mapping of `n` pages. -/
structure Supplies (pml4 : Nat) (supply : Supply) (words : Nat → Nat) (n : Nat) : Prop where
  frames : ∀ k < n, ∀ frame, supply.frames k = some frame → IsFrame frame
  tables : Fresh ⟨words,(List.range' 0 n).flatMap supply.tables⟩ pml4

section
variable {supply : Supply} {start flags : Nat} {s : Space}

theorem Laid.nothing (map : PageMap s.words pml4) : Laid pml4 supply start flags 0 [] s s :=
  ⟨map,fun _ low => absurd low (Nat.not_lt_zero _),fun _ _ => rfl,rfl,rfl,rfl⟩

theorem Laid.next (laid : Laid pml4 supply start flags k [] s u)
    (small : k < 2^36) (given : supply.frames k = some page) (isFrame : IsFrame page) (map : PageMap words pml4)
    (entries : entryOf words pml4 =
      Function.update (entryOf u.words pml4) (pageAt start k) (pteFlags page (flags ||| pagePresent))) :
    Laid pml4 supply start flags (k+1) [] s { u.take page with words := words } := by
  have frame : supply.frame k = page := by rw [Supply.frame,given]; rfl
  constructor
  · exact map
  · intro j low
    rw [entries]
    by_cases last : j = k
    · rw [last,frame,Function.update_self]
      exact ⟨isFrame,rfl⟩
    · rw [Function.update_of_ne (fun same => last (pageAt_inj (by omega) small same))]
      exact laid.lies j (by omega)
  · intro p outside
    rw [List.range_succ,List.map_append,List.mem_append,not_or,List.map_singleton,List.mem_singleton] at outside
    rw [entries,Function.update_of_ne outside.2]
    exact laid.others p outside.1
  · exact laid.context
  · rw [List.range_succ,List.map_append,List.reverse_append,List.map_singleton,frame]
    exact congrArg (page :: ·) laid.taken
  · exact laid.freed

theorem Laid.stop (laid : Laid pml4 supply start flags k [] s u)
    (map : PageMap words pml4) (entries : entryOf words pml4 = entryOf u.words pml4) :
    Laid pml4 supply start flags k [page] s ({ u.take page with words := words }.free page) := by
  have same : entryOf (Space.free { u.take page with words := words } page).words pml4 = entryOf u.words pml4 := entries
  constructor
  · exact map
  · intro j low
    rw [same]
    exact laid.lies j low
  · intro p outside
    rw [same]
    exact laid.others p outside
  · exact laid.context
  · exact congrArg (page :: ·) laid.taken
  · exact congrArg (_ :: ·) laid.freed

theorem populateAnonymous_cases (n : Nat) {k : Nat} {u : Space} (laid : Laid pml4 supply start flags k [] s u)
    (fresh : Fresh ⟨u.words,(List.range' k n).flatMap supply.tables⟩ pml4)
    (frames : ∀ j < k + n, ∀ frame, supply.frames j = some frame → IsFrame frame) (small : k + n ≤ 2^36) :
    (∃ v, populateAnonymous pml4 supply start flags k n u = (v,true) ∧ Laid pml4 supply start flags (k+n) [] s v ∧
      firstFailure pml4 supply start flags n k u.words = none) ∨
    ∃ j extra v, j < k + n ∧ (∀ f ∈ extra, supply.frames j = some f) ∧ Laid pml4 supply start flags j extra s v ∧
      populateAnonymous pml4 supply start flags k n u = (rollback pml4 start j v,false) ∧
      firstFailure pml4 supply start flags n k u.words = some j := by
  induction n generalizing k u with
  | zero => exact .inl ⟨_,rfl,laid,rfl⟩
  | succ n ih =>
    rw [populateAnonymous,firstFailure]
    cases given : supply.frames k with
    | none => exact .inr ⟨k,[],u,by omega,by simp,laid,rfl,rfl⟩
    | some page =>
      obtain ⟨words,status,mapped,map,left,⟨rfl,entries⟩ | ⟨rfl,entries⟩⟩ :=
        Space.map_spec (s := u.take page) laid.map fresh (pageAddr start k) page flags
      · obtain ⟨_,failed⟩ := Space.map_page mapped
        simp only [mapped]
        exact .inr ⟨k,[page],_,by omega,by simp [given],laid.stop map entries,if_pos nofun,if_pos (by rw [failed]; nofun)⟩
      · obtain ⟨stored,done⟩ := Space.map_page mapped
        simp only [mapped,stored,done]
        have more := laid.next (by omega) given (frames k (by omega) page given) map entries
        have steps := ih more left (fun j low => frames j (by omega)) (by omega)
        rw [show k + 1 + n = k + (n + 1) by omega] at steps
        exact steps

end
end
/-! ### What the table sees -/

section
variable {pml4 : Nat} {supply : Supply}

private theorem unmapAll_context (addrs : List Nat) (s : Space) : (addrs.foldl (Space.unmap pml4) s).context = s.context := by
  induction addrs generalizing s with
  | nil => rfl
  | cons v rest ih => exact ih _

theorem unmapRound_context (s : Space) (addr length : Nat) (i : Slot) :
    (unmapRound pml4 s addr length i).context = Mmap.unmapRound s.context addr length i := by
  rw [unmapRound,unmapAll_context]

theorem unmapLoop_context (addr length fuel : Nat) (s : Space) (foundAny : Bool) :
    (unmapLoop pml4 addr length fuel s foundAny).map (fun r => (r.1.context,r.2)) =
      Mmap.unmapLoop addr length fuel s.context foundAny := by
  induction fuel generalizing s foundAny with
  | zero => rfl
  | succ fuel ih =>
    rw [unmapLoop,Mmap.unmapLoop]
    cases mmapFindCoveringArea s.context addr length with
    | none => rfl
    | some i => exact (ih _ true).trans (by rw [unmapRound_context])

/-- On the table, an unmapping is the one of `Kenux.Mmap`. -/
theorem mmapDoMunmap_context (s : Space) (addr length : Nat) :
    (mmapDoMunmap pml4 s addr length).map (fun r => (r.1.context,r.2)) = Mmap.mmapDoMunmap s.context addr length := by
  unfold mmapDoMunmap Mmap.mmapDoMunmap
  split
  · rfl
  · rw [← @unmapLoop_context pml4,Option.map_map,Option.map_map]
    rfl

theorem chooseAddr_context (s : Space) (addr alignedLen flags : Nat) :
    (chooseAddr pml4 s addr alignedLen flags).map (fun r => (r.1.context,r.2)) = Mmap.chooseAddr s.context addr alignedLen flags := by
  unfold chooseAddr Mmap.chooseAddr
  split_ifs
  · rw [← @mmapDoMunmap_context pml4,Option.map_map,Option.map_map]
    rfl
  · rw [Option.map_map]
    rfl
  · rfl
  · rw [Option.map_map]
    rfl

theorem firstFailure_lt {mapAddr flags n k j : Nat} {words : Nat → Nat}
    (stops : firstFailure pml4 supply mapAddr flags n k words = some j) : k ≤ j ∧ j < k + n := by
  induction n generalizing k words with
  | zero => cases stops
  | succ n ih =>
    rw [firstFailure] at stops
    split at stops
    · cases stops
      omega
    · dsimp only at stops
      split at stops
      · cases stops
        omega
      · have := ih stops
        omega

theorem frames_of_done {mapAddr flags n k : Nat} {words : Nat → Nat}
    (done : firstFailure pml4 supply mapAddr flags n k words = none) (i : Nat) (low : i < n) : (supply.frames (k + i)).isSome := by
  induction n generalizing k words i with
  | zero => cases low
  | succ n ih =>
    rw [firstFailure] at done
    split at done
    · cases done
    case h_2 page given =>
      dsimp only at done
      split at done
      · cases done
      · cases i with
        | zero => exact Option.isSome_of_eq_some given
        | succ i =>
          have later := ih done i (by omega)
          rwa [Nat.add_right_comm] at later

/-- What the allocators say to the pages of an area, as the table sees it. -/
def Supply.pager (pml4 : Nat) (supply : Supply) (mapAddr flags n : Nat) (words : Nat → Nat) : Pager where
  allocates k := (supply.frames k).isSome
  maps k := firstFailure pml4 supply mapAddr flags n 0 words ≠ some k

theorem pager_all (mapAddr flags n : Nat) (words : Nat → Nat) :
    (List.range n).all (fun k => (supply.pager pml4 mapAddr flags n words).allocates k &&
      (supply.pager pml4 mapAddr flags n words).maps k) = true ↔ firstFailure pml4 supply mapAddr flags n 0 words = none := by
  simp only [List.all_eq_true,List.mem_range,Bool.and_eq_true,Supply.pager,decide_eq_true_eq]
  constructor
  · intro all
    by_contra fails
    obtain ⟨j,stops⟩ := Option.ne_none_iff_exists'.mp fails
    exact (all j (by have := firstFailure_lt stops; omega)).2 stops
  · intro done k low
    refine ⟨by simpa using frames_of_done done k low,?_⟩
    rw [done]
    nofun

theorem populate_context (slot : Slot) (s : Space) :
    (fun r => (r.1.context,r.2)) (populate pml4 supply slot s) = Mmap.populate s.context
      (supply.pager pml4 (s.context.areas slot).start (protToPteFlags (s.context.areas slot).prot)
        ((s.context.areas slot).length / pageSize) s.words) slot := by
  have finish : ∀ out : Space × Bool, ∀ done : Bool, out.1.context = s.context → out.2 = done →
      (fun r => (r.1.context,r.2)) (finishArea slot out) =
      if done = true then (s.context.put slot { s.context.areas slot with flags := (s.context.areas slot).flags ||| mmapFlagPopulated },
        (s.context.areas slot).start)
      else ({ s.context.put slot { s.context.areas slot with active := false } with areaCount := s.context.areaCount - 1 },mapFailed) := by
    rintro out done context rfl
    unfold finishArea
    rw [context]
    split <;> rfl
  unfold populate Mmap.populate
  dsimp only
  by_cases anonymous : (s.context.areas slot).flags &&& mapAnonymous ≠ 0
  · rw [if_pos anonymous,if_pos anonymous]
    refine (finish _ _ (populateAnonymous_context ..) rfl).trans (if_congr ?_ rfl rfl)
    exact (populateAnonymous_done _ _ _).trans (pager_all _ _ _ _).symm
  rw [if_neg anonymous,if_neg anonymous]
  by_cases isPrivate : (s.context.areas slot).flags &&& mapPrivate ≠ 0
  · rw [if_pos isPrivate,if_pos isPrivate]
  rw [if_neg isPrivate,if_neg isPrivate]
  by_cases shared : (s.context.areas slot).flags &&& mapShared ≠ 0
  · rw [if_pos shared,if_pos shared]
    refine (finish _ _ (populateShared_context ..) rfl).trans (if_congr ?_ rfl rfl)
    rw [populateShared_done]
    simp [Supply.pager,Option.isSome_iff_ne_none]
  · rw [if_neg shared,if_neg shared]

/-- On the table, a mapping is the one of `Kenux.Mmap`, for what the allocators said to its pages. -/
theorem mmapDoMmap_context (s : Space) (addr length prot flags offset : Nat) : ∃ pager,
    (mmapDoMmap pml4 supply s addr length prot flags offset).map (fun r => (r.1.context,r.2)) =
      Mmap.mmapDoMmap s.context pager addr length prot flags offset := by
  unfold mmapDoMmap Mmap.mmapDoMmap
  by_cases refused : mmapRefuses addr length prot flags offset = true
  · rw [if_pos refused]
    exact ⟨⟨fun _ => true,fun _ => true⟩,by rw [if_pos refused]; rfl⟩
  simp only [if_neg refused,← @chooseAddr_context pml4]
  cases chooseAddr pml4 s addr (pageAlignUp length) flags with
  | none => exact ⟨⟨fun _ => true,fun _ => true⟩,rfl⟩
  | some choice =>
    obtain ⟨u,found⟩ := choice
    simp only [Option.map_some,Option.some.injEq]
    unfold enterArea Mmap.enterArea
    split
    · exact ⟨⟨fun _ => true,fun _ => true⟩,rfl⟩
    · cases mmapAllocSlot u.context with
      | none => exact ⟨⟨fun _ => true,fun _ => true⟩,rfl⟩
      | some slot => exact ⟨_,populate_context slot _⟩

end

def nothing : Space := ⟨mmapContextInit,fun _ => 0,[],[]⟩

theorem nothing_map : PageMap nothing.words 0x1000 := .empty (by decide) nofun (fun _ => rfl)

end Kenux.MmapPages
