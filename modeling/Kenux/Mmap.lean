import Kenux.Slots
import Kenux.Words

/-!
The address-space table of `mmap.c`: 256 areas and a count. The ends of areas and ranges
are 64-bit sums. As long as no mapping and no unmapping that meets an area reaches 2^64
(`Fits`), the active areas are not empty, do not wrap and are pairwise disjoint, and the
count is their number, in every state of every run (`mmap_run_sound`). A fixed mapping
that ends at 2^64 is met by no range (`mmap_fixed_twice_overlaps`).

The free place a search returns is the highest one (`mmap_find_free_area_highest`).
An unmapping takes exactly its range away if and only if the table has a slot for the
tail of a split and no area with offset 0 loses its head (`mmap_do_munmap_covers`,
`mmap_do_munmap_loses`).
-/
namespace Kenux.Mmap
open Kenux.Slots Kenux.Words Kenux.Runs
open Function (update update_self update_of_ne update_eq_self)

def mapShared : Nat := 0x01
def mapPrivate : Nat := 0x02
def mapFixed : Nat := 0x10
def mapAnonymous : Nat := 0x20
def protNone : Nat := 0x0
def protRead : Nat := 0x1
def protWrite : Nat := 0x2
def protExec : Nat := 0x4
def mmapFlagCow : Nat := 0x2000
def mmapFlagPopulated : Nat := 0x4000
def mmapSearchStart : Nat := 0x7F0000000000
def mmapMinAddr : Nat := 0x10000000
def pageSize : Nat := 4096

abbrev Slot : Type := Fin 256

structure Area where
  start : Nat
  length : Nat
  prot : Nat
  flags : Nat
  offset : Nat
  refCount : Nat
  file : Option Nat
  active : Bool
  deriving DecidableEq, Repr

def Area.zero : Area := ⟨0,0,0,0,0,0,none,false⟩

structure Context where
  areas : Slot → Area
  areaCount : Int

def mmapContextInit : Context := ⟨fun _ => .zero,0⟩

def pageAlignUp (addr : Nat) : Nat := add64 addr (pageSize - 1) / pageSize * pageSize

def Area.areaEnd (a : Area) : Nat := add64 a.start a.length

/-- The test by which every scan of the table finds an active area that a range meets. -/
def Area.meets (a : Area) (addr length : Nat) : Bool :=
  a.active && (addr < a.areaEnd && a.start < add64 addr length)

variable (c : Context)

def mmapFindCoveringArea (addr length : Nat) : Option Slot :=
  (List.finRange 256).find? (fun i => (c.areas i).meets addr length)

def mmapCheckOverlap (addr length : Nat) : Bool := (mmapFindCoveringArea c addr length).isSome

def mmapAllocSlot : Option Slot := (List.finRange 256).find? (fun i => !(c.areas i).active)

/-- The loop of `mmap_find_free_area`, from the top down; 0 when there is no room. -/
def searchFree (c : Context) (alignedLen : Nat) : Nat → Nat → Option Nat
  | 0, _ => none
  | fuel+1, candidate =>
    if candidate < add64 mmapMinAddr alignedLen then some 0
    else
      match mmapFindCoveringArea c (sub64 candidate alignedLen) alignedLen with
      | none => some (sub64 candidate alignedLen)
      | some i => searchFree c alignedLen fuel (c.areas i).start

def mmapFindFreeArea (length : Nat) : Option Nat :=
  if length = 0 then some 0
  else searchFree c (pageAlignUp length) (mmapSearchStart + 1) mmapSearchStart

def Context.put (i : Slot) (a : Area) : Context := { c with areas := update c.areas i a }

/-- The part of an area from `unmapEnd` on. -/
def Area.tail (area : Area) (unmapEnd : Nat) : Area :=
  { start := unmapEnd, length := sub64 area.areaEnd unmapEnd, prot := area.prot, flags := area.flags,
    offset := add64 area.offset (sub64 unmapEnd area.start), refCount := 1, file := area.file, active := true }

/-- The split of an area by `mmap_do_munmap`: its tail goes to a free slot, if there is one. -/
def putTail (tail : Area) : Context :=
  match mmapAllocSlot c with
  | none => c
  | some j => { c.put j tail with areaCount := c.areaCount + 1 }

/-- One round of the loop of `mmap_do_munmap`, on the area in slot `i`. -/
def unmapRound (addr alignedLen : Nat) (i : Slot) : Context :=
  let area := c.areas i
  let unmapStart := if area.start < addr then addr else area.start
  let unmapEnd := if add64 addr alignedLen < area.areaEnd then add64 addr alignedLen else area.areaEnd
  if unmapStart = area.start ∧ unmapEnd = area.areaEnd then
    { c.put i .zero with areaCount := c.areaCount - 1 }
  else if unmapStart = area.start then
    let removed := sub64 unmapEnd area.start
    let offset := if area.offset ≠ 0 then add64 area.offset removed else area.offset
    c.put i { area with start := add64 area.start removed, length := sub64 area.length removed, offset := offset }
  else if unmapEnd = area.areaEnd then
    c.put i { area with length := sub64 area.length (sub64 unmapEnd unmapStart) }
  else
    (putTail c (area.tail unmapEnd)).put i { area with length := sub64 unmapStart area.start }

/-- The loop of `mmap_do_munmap`, with the flag `found_any`. -/
def unmapLoop (addr alignedLen : Nat) : Nat → Context → Bool → Option (Context × Bool)
  | 0, _, _ => none
  | fuel+1, c, foundAny =>
    match mmapFindCoveringArea c addr alignedLen with
    | none => some (c,foundAny)
    | some i => unmapLoop addr alignedLen fuel (unmapRound c addr alignedLen i) true

def mmapDoMunmap (addr length : Nat) : Option (Context × Int) :=
  if length = 0 then some (c,-1)
  else (unmapLoop addr (pageAlignUp length) 257 c false).map (fun r => (r.1,if r.2 then 0 else -1))

def mmapDoMprotect (addr length prot : Nat) : Context × Int :=
  if length = 0 then (c,-1)
  else
    let alignedLen := pageAlignUp length
    ({ c with areas := fun i =>
        if (c.areas i).meets addr alignedLen then { c.areas i with prot := prot } else c.areas i },
      if (List.finRange 256).any (fun i => (c.areas i).meets addr alignedLen) then 0 else -1)

/-- What the page allocator and the page table say for the pages of a new
    mapping, in their order. -/
structure Pager where
  allocates : Nat → Bool
  maps : Nat → Bool

def mapFailed : Nat := 2^64 - 1

/-- The checks of the arguments of `mmap_do_mmap`. -/
def mmapRefuses (addr length prot flags offset : Nat) : Bool :=
  length = 0 || 0x10000000000 < length ||
  (prot &&& protRead = 0 && prot &&& protWrite = 0 && prot &&& protExec = 0 && prot ≠ protNone) ||
  (flags &&& mapShared ≠ 0 && flags &&& mapPrivate ≠ 0) ||
  (flags &&& mapAnonymous = 0 && offset &&& (pageSize - 1) ≠ 0) ||
  (addr ≠ 0 && addr &&& (pageSize - 1) ≠ 0)

/-- The address of a new mapping, 0 for none. A fixed mapping first unmaps what is there. -/
def chooseAddr (addr alignedLen flags : Nat) : Option (Context × Nat) :=
  if addr ≠ 0 then
    if flags &&& mapFixed ≠ 0 then (mmapDoMunmap c addr alignedLen).map (fun r => (r.1,addr))
    else if mmapCheckOverlap c addr alignedLen then (mmapFindFreeArea c alignedLen).map (fun found => (c,found))
    else some (c,addr)
  else (mmapFindFreeArea c alignedLen).map (fun found => (c,found))

/-- The end of `mmap_do_mmap`: the pages of the area that was put in the slot. -/
def populate (pager : Pager) (slot : Slot) : Context × Nat :=
  let area := c.areas slot
  let npages := area.length / pageSize
  let failed := ({ c.put slot { area with active := false } with areaCount := c.areaCount - 1 },mapFailed)
  let populated := (c.put slot { area with flags := area.flags ||| mmapFlagPopulated },area.start)
  if area.flags &&& mapAnonymous ≠ 0 then
    if (List.range npages).all (fun k => pager.allocates k && pager.maps k) then populated else failed
  else if area.flags &&& mapPrivate ≠ 0 then
    (c.put slot { area with flags := area.flags ||| mmapFlagCow },area.start)
  else if area.flags &&& mapShared ≠ 0 then
    if (List.range npages).all pager.allocates then populated else failed
  else (c,area.start)

/-- The area that `mmap_do_mmap` puts in its slot. No file is ever attached. -/
def newArea (mapAddr alignedLen prot flags offset : Nat) : Area :=
  { start := mapAddr, length := alignedLen, prot := prot, flags := flags, offset := offset, refCount := 1,
    file := none, active := true }

def enterArea (pager : Pager) (area : Area) : Context × Nat :=
  if area.start = 0 then (c,mapFailed)
  else
    match mmapAllocSlot c with
    | none => (c,mapFailed)
    | some slot => populate { c.put slot area with areaCount := c.areaCount + 1 } pager slot

def mmapDoMmap (pager : Pager) (addr length prot flags offset : Nat) : Option (Context × Nat) :=
  if mmapRefuses addr length prot flags offset then some (c,mapFailed)
  else
    (chooseAddr c addr (pageAlignUp length) flags).map
      (fun r => enterArea r.1 pager (newArea r.2 (pageAlignUp length) prot flags offset))

/-! ### The spans of the areas -/

/-- The addresses of an active area. -/
def Area.span (a : Area) : Option Span := if a.active then some ⟨a.start,a.length⟩ else none

def Context.spans (i : Slot) : Option Span := (c.areas i).span

/-- The active areas are not empty, do not wrap and are pairwise disjoint, and the
    count is their number. -/
structure Sound (c : Context) : Prop where
  whole : ∀ i s, c.spans i = some s → 0 < s.size ∧ s.first + s.size < 2^64
  separate : Separate c.spans
  counted : c.areaCount = used c.spans

/-- The ends of the active areas are below 2^64. -/
def Bounded : Prop := ∀ i s, c.spans i = some s → s.first + s.size < 2^64

variable {c d : Context} {low high addr length x flags : Nat} {i : Slot} {a : Area} {s : Span} {v : View}
  {change : Int}

private theorem spans_put (c : Context) (i : Slot) (a : Area) : (c.put i a).spans = update c.spans i a.span := by
  funext j
  by_cases here : j = i
  · subst here
    simp [Context.spans,Context.put]
  · simp [Context.spans,Context.put,here]

section
variable (sound : Sound c)
include sound

theorem Sound.bounded : Bounded c := fun i s here => (sound.whole i s here).2

theorem Sound.congr (spans : d.spans = c.spans) (count : d.areaCount = c.areaCount) : Sound d := by
  constructor
  · rw [spans]
    exact sound.whole
  · rw [spans]
    exact sound.separate
  · rw [spans,count]
    exact sound.counted

theorem Sound.cut
    (cut : Cut low high c.spans i d.spans change) (count : d.areaCount = c.areaCount + change) : Sound d := by
  constructor
  · intro k v there
    rcases cut.origin there with ⟨_,before⟩ | ⟨positive,_,s,before,_,upper⟩
    · exact sound.whole k v before
    · have old := sound.whole i s before
      exact ⟨positive,by omega⟩
  · exact cut.separate sound.separate
  · rw [cut.used,count,sound.counted]

theorem Sound.enter (free : c.spans i = none)
    (active : a.active = true) (positive : 0 < a.length) (fits : a.start + a.length < 2^64)
    (apart : ∀ j s, c.spans j = some s → s.Apart ⟨a.start,a.length⟩) :
    Sound { c.put i a with areaCount := c.areaCount + 1 } := by
  have spans : ({ c.put i a with areaCount := c.areaCount + 1 } : Context).spans =
      update c.spans i (some ⟨a.start,a.length⟩) := by
    have same : ({ c.put i a with areaCount := c.areaCount + 1 } : Context).spans = (c.put i a).spans := rfl
    rw [same,spans_put,Area.span,if_pos active]
  constructor
  · rw [spans]
    intro j s there
    rcases of_put there with ⟨rfl,rfl⟩ | ⟨_,old⟩
    · exact ⟨positive,fits⟩
    · exact sound.whole j s old
  · rw [spans]
    exact sound.separate.put (fun j s _ there => apart j s there)
  · rw [spans,used_put free,sound.counted]
    rfl

end

theorem span_eq_some : a.span = some s ↔ a.active = true ∧ s = ⟨a.start,a.length⟩ := by
  unfold Area.span
  by_cases active : a.active = true
  · simp [active,eq_comm]
  · simp [active]

theorem meets_iff (bounded : Bounded c) : (c.areas i).meets addr length = true ↔
      ∃ s, c.spans i = some s ∧ addr < s.first + s.size ∧ s.first < add64 addr length := by
  constructor
  · intro meets
    simp only [Area.meets,Bool.and_eq_true,decide_eq_true_eq] at meets
    obtain ⟨active,above,below⟩ := meets
    have here : c.spans i = some ⟨(c.areas i).start,(c.areas i).length⟩ := span_eq_some.mpr ⟨active,rfl⟩
    rw [Area.areaEnd,add64_of_lt (bounded i _ here)] at above
    exact ⟨_,here,above,below⟩
  · rintro ⟨s,here,above,below⟩
    have below64 := bounded i s here
    obtain ⟨active,rfl⟩ := span_eq_some.mp here
    simp only [Area.meets,Bool.and_eq_true,decide_eq_true_eq]
    rw [Area.areaEnd,add64_of_lt below64]
    exact ⟨active,above,below⟩

theorem mmapFindCoveringArea_eq_none (bounded : Bounded c)
    (missed : mmapFindCoveringArea c addr length = none) (here : c.spans i = some s) :
    s.first + s.size ≤ addr ∨ add64 addr length ≤ s.first := by
  have scanned := List.find?_eq_none.mp missed i (List.mem_finRange i)
  rw [meets_iff bounded] at scanned
  by_contra hit
  exact scanned ⟨s,here,by omega,by omega⟩

theorem mmapFindCoveringArea_eq_some (bounded : Bounded c) (found : mmapFindCoveringArea c addr length = some i) :
    ∃ s, c.spans i = some s ∧ addr < s.first + s.size ∧ s.first < add64 addr length := by
  have meets : (c.areas i).meets addr length = true := List.find?_some (p := fun i => (c.areas i).meets addr length) found
  exact (meets_iff bounded).mp meets

private theorem mmapAllocSlot_eq_some (found : mmapAllocSlot c = some i) : c.spans i = none := by
  have idle := List.find?_some found
  simp only [Bool.not_eq_true'] at idle
  simp [Context.spans,Area.span,idle]

/-! ### Unmapping -/

theorem putTail_cases (c : Context) (tail : Area) (active : tail.active = true) :
    putTail c tail = c ∨ ∃ j, c.spans j = none ∧
      (putTail c tail).spans = update c.spans j (some ⟨tail.start,tail.length⟩) ∧
      (putTail c tail).areaCount = c.areaCount + 1 := by
  unfold putTail
  cases slot : mmapAllocSlot c with
  | none => exact .inl rfl
  | some j =>
    refine .inr ⟨j,mmapAllocSlot_eq_some slot,?_,rfl⟩
    have put := spans_put c j tail
    rw [Area.span,if_pos active] at put
    exact put

/-- An area that reaches beyond the range on both sides: its tail needs a slot. -/
def Area.straddles (a : Area) (addr length : Nat) : Prop :=
  a.active = true ∧ a.start < addr ∧ addr + length < a.start + a.length

def Area.beheaded (a : Area) (addr length : Nat) : Prop :=
  a.active = true ∧ addr ≤ a.start ∧ a.start < addr + length ∧ addr + length < a.start + a.length

/-- What one round of an unmapping does to the area it found. -/
inductive Round (c : Context) (addr length : Nat) (i : Slot) : Context → Prop
  | whole (low : addr ≤ (c.areas i).start) (high : (c.areas i).start + (c.areas i).length ≤ addr + length) :
    Round c addr length i { c.put i .zero with areaCount := c.areaCount - 1 }
  | head (beheaded : (c.areas i).beheaded addr length) :
    Round c addr length i (c.put i { c.areas i with
      start := addr + length
      length := (c.areas i).start + (c.areas i).length - (addr + length)
      offset := if (c.areas i).offset ≠ 0 then add64 (c.areas i).offset (addr + length - (c.areas i).start) else (c.areas i).offset })
  | rest (low : (c.areas i).start < addr) (high : (c.areas i).start + (c.areas i).length ≤ addr + length) :
    Round c addr length i (c.put i { c.areas i with length := addr - (c.areas i).start })
  | middle (straddles : (c.areas i).straddles addr length) :
    Round c addr length i
      ((putTail c ((c.areas i).tail (addr + length))).put i { c.areas i with length := addr - (c.areas i).start })

theorem unmapRound_round (bounded : Bounded c) (fits : addr + length < 2^64)
    (found : mmapFindCoveringArea c addr length = some i) : Round c addr length i (unmapRound c addr length i) := by
  obtain ⟨s,here,above,below⟩ := mmapFindCoveringArea_eq_some bounded found
  have stops := bounded i s here
  obtain ⟨active,rfl⟩ := span_eq_some.mp here
  rw [add64_of_lt fits] at below
  simp only at above below stops
  have stop : (c.areas i).areaEnd = (c.areas i).start + (c.areas i).length := add64_of_lt stops
  unfold unmapRound
  simp only [stop,add64_of_lt fits]
  split
  case isTrue starts =>
    rw [if_neg (fun whole => by omega),if_neg (by omega)]
    by_cases ends : addr + length < (c.areas i).start + (c.areas i).length
    · rw [if_pos ends,if_neg (by omega),sub64_of_le (Nat.le_of_lt starts) (by omega)]
      exact .middle ⟨active,starts,ends⟩
    · have front : (c.areas i).length - ((c.areas i).start + (c.areas i).length - addr) = addr - (c.areas i).start := by omega
      rw [if_neg ends,if_pos rfl,sub64_of_le (Nat.le_of_lt above) stops,sub64_of_le (by omega) (by omega),front]
      exact .rest starts (Nat.le_of_not_lt ends)
  case isFalse starts =>
    by_cases ends : addr + length < (c.areas i).start + (c.areas i).length
    · have start : (c.areas i).start + (addr + length - (c.areas i).start) = addr + length := by omega
      have left : (c.areas i).length - (addr + length - (c.areas i).start) =
          (c.areas i).start + (c.areas i).length - (addr + length) := by omega
      rw [if_pos ends,if_neg (fun whole => by omega),if_pos rfl,sub64_of_le (Nat.le_of_lt below) fits,
        add64_of_lt (by omega),sub64_of_le (by omega) (by omega),start,left]
      exact .head ⟨active,Nat.le_of_not_lt starts,below,ends⟩
    · rw [if_neg ends,if_pos ⟨rfl,rfl⟩]
      exact .whole (Nat.le_of_not_lt starts) (Nat.le_of_not_lt ends)

theorem tail_length {stop : Nat} (stops : a.start + a.length < 2^64) (inside : stop ≤ a.start + a.length) :
    (a.tail stop).length = a.start + a.length - stop := by
  rw [Area.tail,Area.areaEnd,add64_of_lt stops,sub64_of_le inside stops]

theorem unmapRound_cut (bounded : Bounded c) (fits : addr + length < 2^64)
    (found : mmapFindCoveringArea c addr length = some i) :
    ∃ change, Cut addr (addr + length) c.spans i (unmapRound c addr length i).spans change ∧
      (unmapRound c addr length i).areaCount = c.areaCount + change := by
  obtain ⟨s,here,above,below⟩ := mmapFindCoveringArea_eq_some bounded found
  have stops := bounded i s here
  obtain ⟨active,rfl⟩ := span_eq_some.mp here
  simp only at above below stops
  have round := unmapRound_round bounded fits found
  generalize unmapRound c addr length i = d at round ⊢
  cases round with
  | whole low high =>
    have cleared : (c.put i .zero).spans = update c.spans i none := spans_put c i .zero
    exact ⟨-1,cleared ▸ .drop here,rfl⟩
  | head beheaded =>
    rw [spans_put,Area.span,if_pos active]
    obtain ⟨_,low,_,high⟩ := beheaded
    exact ⟨0,.trim here (by simp only; omega) (by simp only; omega) (by simp only; omega) (.inr (by simp only; omega)),
      (Int.add_zero _).symm⟩
  | rest low high =>
    rw [spans_put,Area.span,if_pos active]
    exact ⟨0,.trim here (by simp only; omega) (Nat.le_refl _) (by simp only; omega) (.inl (by simp only; omega)),
      (Int.add_zero _).symm⟩
  | middle straddles =>
    obtain ⟨_,low,high⟩ := straddles
    rcases putTail_cases c ((c.areas i).tail (addr + length)) rfl with lost | ⟨j,free,spans,count⟩
    · rw [lost,spans_put,Area.span,if_pos active]
      exact ⟨0,.trim here (by simp only; omega) (Nat.le_refl _) (by simp only; omega) (.inl (by simp only; omega)),
        (Int.add_zero _).symm⟩
    · have first : ((c.areas i).tail (addr + length)).start = addr + length := rfl
      rw [spans_put,Area.span,if_pos active,spans,tail_length stops (Nat.le_of_lt high)]
      exact ⟨1,.split here free (by simp only; omega) (by simp only; omega) (Nat.le_refl _)
        (by simp only; omega) (by omega) (Nat.le_refl _) (by simp only; omega),count⟩

/-- An unmapping ends, keeps the table sound and leaves no area that meets its range. -/
theorem unmapLoop_spec (fits : addr + length < 2^64) (fuel : Nat) (c : Context) (foundAny : Bool)
    (sound : Sound c) (enough : (hits addr (addr + length) c.spans).card < fuel) :
    ∃ d found, unmapLoop addr length fuel c foundAny = some (d,found) ∧ Sound d ∧
      mmapFindCoveringArea d addr length = none := by
  induction fuel generalizing c foundAny with
  | zero => omega
  | succ fuel ih =>
    rw [unmapLoop]
    cases found : mmapFindCoveringArea c addr length with
    | none => exact ⟨c,foundAny,rfl,sound,found⟩
    | some i =>
      obtain ⟨s,here,above,below⟩ := mmapFindCoveringArea_eq_some sound.bounded found
      rw [add64_of_lt fits] at below
      obtain ⟨change,cut,count⟩ := unmapRound_cut sound.bounded fits found
      have fewer := cut.card_hits_lt (Finset.mem_filter.mpr ⟨Finset.mem_univ i,s,here,above,below⟩)
      exact ih _ true (sound.cut cut count) (by omega)

theorem hits_lt (low high : Nat) : (hits low high c.spans).card < 257 := by
  have all := Finset.card_le_univ (hits low high c.spans)
  rw [Fintype.card_fin] at all
  omega

private theorem unmapLoop_of_fits (fits : addr + length < 2^64) (sound : Sound c) :
    ∃ d found, unmapLoop addr length 257 c false = some (d,found) ∧ Sound d ∧
      mmapFindCoveringArea d addr length = none := by
  exact unmapLoop_spec fits 257 c false sound (hits_lt addr (addr + length))

theorem mmapDoMunmap_sound (sound : Sound c)
    (fits : mmapFindCoveringArea c addr (pageAlignUp length) = none ∨ addr + pageAlignUp length < 2^64) :
    ∃ r, mmapDoMunmap c addr length = some r ∧ Sound r.1 := by
  unfold mmapDoMunmap
  split
  · exact ⟨_,rfl,sound⟩
  · rcases fits with missed | fits
    · rw [unmapLoop,missed]
      exact ⟨_,rfl,sound⟩
    · obtain ⟨d,found,ran,kept,_⟩ := unmapLoop_of_fits fits sound
      rw [ran]
      exact ⟨_,rfl,kept⟩

private theorem mmapDoMprotect_sound (sound : Sound c) (addr length prot : Nat) :
    Sound (mmapDoMprotect c addr length prot).1 := by
  unfold mmapDoMprotect
  split
  · exact sound
  · refine sound.congr ?_ rfl
    funext i
    simp only [Context.spans,Area.span]
    split
    · rfl
    · rfl

/-! ### What an unmapping leaves -/

/-- What an area says about one of its addresses. -/
structure View where
  prot : Nat
  flags : Nat
  file : Option Nat
  offset : Nat
  deriving DecidableEq, Repr

/-- What an area says about an address; the offset counts from the start of the area. -/
def Area.view (a : Area) (x : Nat) : Option View :=
  if a.active = true ∧ a.start ≤ x ∧ x < a.start + a.length then some ⟨a.prot,a.flags,a.file,add64 a.offset (x - a.start)⟩ else none

/-- An active area covers the address and says this about it. -/
def Covers (c : Context) (x : Nat) (v : View) : Prop := ∃ i, (c.areas i).view x = some v

def roundUp (length : Nat) : Nat := (length + 4095) / 4096 * 4096

/-- A split finds a slot for the tail, and an area that loses its head has an offset that is moved along. -/
structure Spare (c : Context) (addr length : Nat) : Prop where
  slot : ∀ i, (c.areas i).straddles addr length → ∃ j, (c.areas j).active = false
  offset : ∀ i, (c.areas i).beheaded addr length → (c.areas i).offset ≠ 0

theorem view_eq_some : a.view x = some v ↔
    (a.active = true ∧ a.start ≤ x ∧ x < a.start + a.length) ∧ v = ⟨a.prot,a.flags,a.file,add64 a.offset (x - a.start)⟩ := by
  unfold Area.view
  split
  case isTrue inside => simp [inside,eq_comm]
  case isFalse inside => simp [inside]

private theorem covers_put : Covers (c.put i a) x v ↔ a.view x = some v ∨ ∃ k, k ≠ i ∧ (c.areas k).view x = some v :=
  Function.exists_update_iff c.areas (fun _ area => area.view x = some v)

theorem covers_trim (trimmed : a.view x = if low ≤ x ∧ x < high then none else (c.areas i).view x) :
    Covers (c.put i a) x v ↔ ∃ k, (c.areas k).view x = some v ∧ ¬ (k = i ∧ low ≤ x ∧ x < high) := by
  rw [covers_put,trimmed,Option.ite_none_left_eq_some]
  constructor
  · rintro (⟨outside,old⟩ | ⟨k,other,old⟩)
    · exact ⟨i,old,fun both => outside both.2⟩
    · exact ⟨k,old,fun both => other both.1⟩
  · rintro ⟨k,old,kept⟩
    by_cases same : k = i
    · subst same
      exact .inl ⟨fun inside => kept ⟨rfl,inside⟩,old⟩
    · exact .inr ⟨k,same,old⟩

private theorem add64_assoc (a b c : Nat) : add64 (add64 a b) c = add64 a (b + c) := by
  unfold add64
  omega

private theorem view_zero (x : Nat) : Area.zero.view x = none := if_neg (by simp [Area.zero])

theorem view_part {b : Area} {gone : Prop} [Decidable gone] (active : b.active = a.active)
    (inside : b.start ≤ x ∧ x < b.start + b.length ↔ (a.start ≤ x ∧ x < a.start + a.length) ∧ ¬ gone)
    (same : b.start ≤ x → (⟨b.prot,b.flags,b.file,add64 b.offset (x - b.start)⟩ : View) =
      ⟨a.prot,a.flags,a.file,add64 a.offset (x - a.start)⟩) : b.view x = if gone then none else a.view x := by
  simp only [Area.view,active,inside]
  by_cases cut : gone
  · simp [cut]
  · simp only [cut,not_false_eq_true,and_true,if_false]
    split
    case isTrue covered => rw [same (inside.mpr ⟨covered.2,cut⟩).1]
    · rfl

theorem view_head (lower : low ≤ a.start) (inside : a.start ≤ high) (nonzero : a.offset ≠ 0) : Area.view { a with
      start := high
      length := a.start + a.length - high
      offset := if a.offset ≠ 0 then add64 a.offset (high - a.start) else a.offset } x =
      if low ≤ x ∧ x < high then none else a.view x := by
  rw [if_pos nonzero]
  refine view_part rfl (by dsimp only; omega) (fun above => ?_)
  rw [add64_assoc,show high - a.start + (x - high) = x - a.start by dsimp only at above; omega]

private theorem view_front (inside : a.start ≤ low) (short : low ≤ a.start + a.length) :
    Area.view { a with length := low - a.start } x = if low ≤ x then none else a.view x :=
  view_part rfl (by dsimp only; omega) (fun _ => rfl)

theorem view_tail (active : a.active = true) (bounded : a.start + a.length < 2^64) (inside : a.start ≤ high)
    (short : high ≤ a.start + a.length) : (a.tail high).view x = if x < high then none else a.view x := by
  have is : a.tail high =
      ⟨high,a.start + a.length - high,a.prot,a.flags,add64 a.offset (high - a.start),1,a.file,true⟩ := by
    rw [Area.tail,Area.areaEnd,add64_of_lt bounded,sub64_of_le short bounded,sub64_of_le inside (by omega)]
  rw [is]
  refine view_part active.symm (by dsimp only; omega) (fun above => ?_)
  rw [add64_assoc,show high - a.start + (x - high) = x - a.start by dsimp only at above; omega]

theorem Round.others (round : Round c addr length i d) {k : Slot} (other : k ≠ i)
    (active : (c.areas k).active = true) : d.areas k = c.areas k := by
  cases round with
  | whole low high | head beheaded | rest low high => exact update_of_ne other ..
  | middle straddles =>
    refine (update_of_ne other ..).trans ?_
    unfold putTail
    cases slot : mmapAllocSlot c with
    | none => rfl
    | some j =>
      refine update_of_ne ?_ ..
      rintro rfl
      have idle := List.find?_some slot
      rw [active] at idle
      cases idle

theorem covers_split {j : Slot} (stops : (c.areas i).start + (c.areas i).length < 2^64)
    (straddles : (c.areas i).straddles addr length) (idle : (c.areas j).active = false) (x : Nat) (v : View) :
    Covers ((c.put j ((c.areas i).tail (addr + length))).put i { c.areas i with length := addr - (c.areas i).start }) x v ↔
      ∃ k, (c.areas k).view x = some v ∧ ¬ (k = i ∧ addr ≤ x ∧ x < addr + length) := by
  obtain ⟨active,low,high⟩ := straddles
  have different : j ≠ i := by
    rintro rfl
    rw [active] at idle
    cases idle
  have front := view_front (x := x) (Nat.le_of_lt low) (by omega : addr ≤ (c.areas i).start + (c.areas i).length)
  have tail := view_tail (x := x) active stops (by omega : (c.areas i).start ≤ addr + length) (Nat.le_of_lt high)
  have placed : (c.put j ((c.areas i).tail (addr + length))).areas j = (c.areas i).tail (addr + length) := update_self ..
  rw [covers_put,front,Option.ite_none_left_eq_some]
  constructor
  · rintro (⟨below,old⟩ | ⟨k,other,there⟩)
    · exact ⟨i,old,fun both => below both.2.1⟩
    · by_cases same : k = j
      · subst same
        rw [placed,tail,Option.ite_none_left_eq_some] at there
        exact ⟨i,there.2,fun both => there.1 both.2.2⟩
      · rw [show (c.put j ((c.areas i).tail (addr + length))).areas k = c.areas k from update_of_ne same ..] at there
        exact ⟨k,there,fun both => other both.1⟩
  · rintro ⟨k,old,kept⟩
    by_cases same : k = i
    · subst same
      by_cases above : addr ≤ x
      · refine .inr ⟨j,different,?_⟩
        rw [placed,tail,if_neg (fun below => kept ⟨rfl,above,below⟩)]
        exact old
      · exact .inl ⟨above,old⟩
    · refine .inr ⟨k,same,?_⟩
      have busy := (view_eq_some.mp old).1.1
      rw [show (c.put j ((c.areas i).tail (addr + length))).areas k = c.areas k from
        update_of_ne (by rintro rfl; rw [busy] at idle; cases idle) ..]
      exact old

theorem Round.covers (round : Round c addr length i d)
    (stops : (c.areas i).start + (c.areas i).length < 2^64) (above : addr < (c.areas i).start + (c.areas i).length)
    (slot : (c.areas i).straddles addr length → ∃ j, (c.areas j).active = false)
    (offset : (c.areas i).beheaded addr length → (c.areas i).offset ≠ 0) (x : Nat) (v : View) :
    Covers d x v ↔ ∃ k, (c.areas k).view x = some v ∧ ¬ (k = i ∧ addr ≤ x ∧ x < addr + length) := by
  cases round with
  | whole low high =>
    refine covers_trim ?_
    rw [view_zero]
    split
    · rfl
    · rw [Area.view,if_neg (by omega)]
  | head beheaded =>
    obtain ⟨_,low,inside,_⟩ := id beheaded
    exact covers_trim (view_head low (Nat.le_of_lt inside) (offset beheaded))
  | rest low high =>
    refine covers_trim ?_
    rw [view_front (Nat.le_of_lt low) (Nat.le_of_lt above)]
    split
    · split
      · rfl
      · rw [Area.view,if_neg (by omega)]
    case isFalse behind => rw [if_neg (fun both => behind both.1)]
  | middle straddles =>
    unfold putTail
    cases found : mmapAllocSlot c with
    | none =>
      obtain ⟨j,idle⟩ := slot straddles
      have scanned := List.find?_eq_none.mp found j (List.mem_finRange j)
      simp [idle] at scanned
    | some j =>
      have idle := List.find?_some found
      exact covers_split stops straddles (by simpa using idle) x v

theorem Bounded.cut (bounded : Bounded c)
    (cut : Cut low high c.spans i d.spans change) : Bounded d := by
  intro k v there
  rcases cut.origin there with ⟨_,before⟩ | ⟨_,_,s,before,_,upper⟩
  · exact bounded k v before
  · have old := bounded i s before
    omega

theorem Spare.round (spare : Spare c addr length)
    (round : Round c addr length i d) (cut : Cut addr (addr + length) c.spans i d.spans change) (separate : Separate c.spans)
    (here : c.spans i = some s) (above : addr < s.first + s.size) (below : s.first < addr + length) :
    Spare d addr length := by
  have kept : ∀ k v, d.spans k = some v → v.first < addr + length → addr + length < v.first + v.size → k ≠ i ∧ c.spans k = some v := by
    intro k v there inside high
    rcases cut.origin there with before | ⟨_,outside,_⟩
    · exact before
    · omega
  constructor
  · rintro k ⟨active,low,high⟩
    have there : d.spans k = some ⟨(d.areas k).start,(d.areas k).length⟩ := span_eq_some.mpr ⟨active,rfl⟩
    obtain ⟨other,before⟩ := kept k _ there (by dsimp only; omega) high
    have apart := separate i k s _ other.symm here before
    dsimp only [Span.Apart,Blocks.Apart] at apart
    omega
  · rintro k ⟨active,low,inside,high⟩
    have there : d.spans k = some ⟨(d.areas k).start,(d.areas k).length⟩ := span_eq_some.mpr ⟨active,rfl⟩
    obtain ⟨other,before⟩ := kept k _ there inside high
    have busy := (span_eq_some.mp before).1
    have same := round.others other busy
    rw [same]
    rw [same] at low inside high
    exact spare.offset k ⟨busy,low,inside,high⟩

theorem unmapLoop_covers (fits : addr + length < 2^64) (fuel : Nat) (c : Context) (foundAny : Bool)
    (bounded : Bounded c) (separate : Separate c.spans) (spare : Spare c addr length)
    (enough : (hits addr (addr + length) c.spans).card < fuel) :
    ∃ d found, unmapLoop addr length fuel c foundAny = some (d,found) ∧
      ∀ x v, Covers d x v ↔ Covers c x v ∧ ¬ (addr ≤ x ∧ x < addr + length) := by
  induction fuel generalizing c foundAny with
  | zero => omega
  | succ fuel ih =>
    rw [unmapLoop]
    cases found : mmapFindCoveringArea c addr length with
    | none =>
      refine ⟨c,foundAny,rfl,fun x v => ⟨fun covers => ⟨covers,?_⟩,And.left⟩⟩
      obtain ⟨i,there⟩ := covers
      obtain ⟨⟨active,first,last⟩,_⟩ := view_eq_some.mp there
      have missed := mmapFindCoveringArea_eq_none bounded found (span_eq_some.mpr ⟨active,rfl⟩)
      rw [add64_of_lt fits] at missed
      dsimp only at missed
      omega
    | some i =>
      obtain ⟨s,here,above,below⟩ := mmapFindCoveringArea_eq_some bounded found
      rw [add64_of_lt fits] at below
      have round := unmapRound_round bounded fits found
      obtain ⟨change,cut,_⟩ := unmapRound_cut bounded fits found
      have fewer := cut.card_hits_lt (Finset.mem_filter.mpr ⟨Finset.mem_univ i,s,here,above,below⟩)
      obtain ⟨d,any,ran,covers⟩ := ih _ true (bounded.cut cut) (cut.separate separate)
        (spare.round round cut separate here above below) (by omega)
      refine ⟨d,any,ran,fun x v => ?_⟩
      have stops := bounded i s here
      obtain ⟨_,rfl⟩ := span_eq_some.mp here
      rw [covers,round.covers stops above (spare.slot i) (spare.offset i)]
      constructor
      · rintro ⟨⟨k,there,_⟩,outside⟩
        exact ⟨⟨k,there⟩,outside⟩
      · rintro ⟨⟨k,there⟩,outside⟩
        exact ⟨⟨k,there,fun both => outside both.2⟩,outside⟩

/-! ### What a split or a moved area loses -/

/-- The area reaches beyond the range, and what it says there does not outlast the unmapping. -/
def Context.Loses (c : Context) (addr length : Nat) (i : Slot) : Prop :=
  (c.areas i).straddles addr length ∧ (∀ j, (c.areas j).active = true) ∨
    (c.areas i).beheaded addr length ∧ (c.areas i).offset = 0

/-- No area reaches over the end of the range. -/
def Ends (c : Context) (stop : Nat) : Prop := ∀ k s, c.spans k = some s → s.first < stop → s.first + s.size ≤ stop

theorem Context.Loses.reaches (loses : c.Loses addr length i) :
    (c.areas i).active = true ∧ (c.areas i).start < addr + length ∧ addr + length < (c.areas i).start + (c.areas i).length := by
  rcases loses with ⟨⟨active,low,high⟩,_⟩ | ⟨⟨active,_,inside,high⟩,_⟩
  · exact ⟨active,by omega,high⟩
  · exact ⟨active,inside,high⟩

/-- Only the area itself reaches over the end of the range. -/
theorem Context.Loses.only (loses : c.Loses addr length i) (separate : Separate c.spans) {k : Slot} (other : k ≠ i)
    (here : c.spans k = some s) (low : s.first ≤ addr + length) : s.first + s.size ≤ addr + length := by
  obtain ⟨active,inside,high⟩ := loses.reaches
  have apart := separate k i s _ other here (span_eq_some.mpr ⟨active,rfl⟩)
  dsimp only [Span.Apart,Blocks.Apart] at apart
  omega

theorem Context.Loses.put (loses : c.Loses addr length i) (separate : Separate c.spans) {b : Area}
    (lost : b.view (addr + length) ≠ some v) (beside : addr + length ≤ b.start ∨ b.start + b.length ≤ addr + length) :
    ¬ Covers (c.put i b) (addr + length) v ∧ Ends (c.put i b) (addr + length) := by
  refine ⟨fun covers => ?_,fun k s there low => ?_⟩
  · rcases covers_put.mp covers with here | ⟨k,other,there⟩
    · exact lost here
    · obtain ⟨⟨busy,first,last⟩,-⟩ := view_eq_some.mp there
      have ends := loses.only separate other (span_eq_some.mpr ⟨busy,rfl⟩) first
      dsimp only at ends
      omega
  · rw [spans_put] at there
    by_cases same : k = i
    · rw [same,update_self] at there
      obtain ⟨_,rfl⟩ := span_eq_some.mp there
      dsimp only at low ⊢
      omega
    · rw [update_of_ne same] at there
      exact loses.only separate same there (Nat.le_of_lt low)

theorem Round.loses (round : Round c addr length i d) (loses : c.Loses addr length i) (separate : Separate c.spans)
    (bounded : Bounded c) (seen : (c.areas i).view (addr + length) = some v) : ¬ Covers d (addr + length) v ∧ Ends d (addr + length) := by
  obtain ⟨active,inside,high⟩ := loses.reaches
  have stops : (c.areas i).start + (c.areas i).length < 2^64 := bounded i _ (span_eq_some.mpr ⟨active,rfl⟩)
  cases round with
  | whole _ above | rest _ above => omega
  | head beheaded =>
    have nowhere : (c.areas i).offset = 0 := by
      rcases loses with ⟨⟨_,low,_⟩,_⟩ | ⟨_,nowhere⟩
      · exact absurd low (Nat.not_lt.mpr beheaded.2.1)
      · exact nowhere
    refine loses.put separate (fun there => ?_) (.inl (Nat.le_refl _))
    have moved := (view_eq_some.mp seen).2.symm.trans (view_eq_some.mp there).2
    have offsets := congrArg View.offset moved
    simp only [nowhere,ne_eq,not_true_eq_false,if_false,add64] at offsets
    omega
  | middle straddles =>
    have full : ∀ j, (c.areas j).active = true := by
      rcases loses with ⟨_,full⟩ | ⟨⟨_,low,_⟩,_⟩
      · exact full
      · exact absurd straddles.2.1 (Nat.not_lt.mpr low)
    have none : mmapAllocSlot c = none := List.find?_eq_none.mpr (fun j _ => by simp [full j])
    have kept : putTail c ((c.areas i).tail (addr + length)) = c := by rw [putTail,none]
    rw [kept]
    have before := straddles.2.1
    refine loses.put separate (fun there => ?_) (.inr (by dsimp only; omega))
    have inside := (view_eq_some.mp there).1.2.2
    dsimp only at inside
    omega

section
variable (fits : addr + length < 2^64)
include fits

/-- What is lost at the end of the range does not come back. -/
theorem unmapLoop_lost (fuel : Nat) (c : Context) (foundAny : Bool) (bounded : Bounded c)
    (lost : ¬ Covers c (addr + length) v ∧ Ends c (addr + length)) {found : Bool}
    (ran : unmapLoop addr length fuel c foundAny = some (d,found)) : ¬ Covers d (addr + length) v := by
  induction fuel generalizing c foundAny with
  | zero => cases ran
  | succ fuel ih =>
    rw [unmapLoop] at ran
    cases met : mmapFindCoveringArea c addr length with
    | none =>
      rw [met] at ran
      cases ran
      exact lost.1
    | some i =>
      rw [met] at ran
      obtain ⟨s,here,above,below⟩ := mmapFindCoveringArea_eq_some bounded met
      rw [add64_of_lt fits] at below
      have round := unmapRound_round bounded fits met
      obtain ⟨change,cut,_⟩ := unmapRound_cut bounded fits met
      have stops := bounded i s here
      have ends := lost.2 i s here below
      obtain ⟨_,rfl⟩ := span_eq_some.mp here
      dsimp only at ends
      refine ih _ true (bounded.cut cut) ⟨?_,fun k v there low => ?_⟩ ran
      · rw [round.covers stops above (fun ⟨_,_,beyond⟩ => by omega) (fun ⟨_,_,_,beyond⟩ => by omega)]
        rintro ⟨k,there,_⟩
        exact lost.1 ⟨k,there⟩
      · rcases cut.origin there with ⟨_,before⟩ | ⟨_,_,s,before,lower,upper⟩
        · exact lost.2 k v before low
        · cases before.symm.trans here
          dsimp only at upper
          omega

theorem unmapLoop_loses (fuel : Nat) (c : Context) (foundAny : Bool) (bounded : Bounded c) (separate : Separate c.spans)
    (loses : c.Loses addr length i) (seen : (c.areas i).view (addr + length) = some v) (positive : 0 < length) {found : Bool}
    (ran : unmapLoop addr length fuel c foundAny = some (d,found)) : ¬ Covers d (addr + length) v := by
  induction fuel generalizing c foundAny with
  | zero => cases ran
  | succ fuel ih =>
    obtain ⟨active,inside,high⟩ := loses.reaches
    rw [unmapLoop] at ran
    cases met : mmapFindCoveringArea c addr length with
    | none =>
      have missed := mmapFindCoveringArea_eq_none bounded met (span_eq_some.mpr ⟨active,rfl⟩)
      rw [add64_of_lt fits] at missed
      dsimp only at missed
      omega
    | some k =>
      rw [met] at ran
      have round := unmapRound_round bounded fits met
      obtain ⟨change,cut,_⟩ := unmapRound_cut bounded fits met
      by_cases same : k = i
      · subst same
        exact unmapLoop_lost fits fuel _ true (bounded.cut cut) (round.loses loses separate bounded seen) ran
      · have others := round.others (Ne.symm same) active
        obtain ⟨s,here,above,below⟩ := mmapFindCoveringArea_eq_some bounded met
        rw [add64_of_lt fits] at below
        have apart := separate k i s _ same here (span_eq_some.mpr ⟨active,rfl⟩)
        dsimp only [Span.Apart,Blocks.Apart] at apart
        refine ih _ true (bounded.cut cut) (cut.separate separate) ?_ (others ▸ seen) ran
        -- an area that reaches beyond the range on both sides is the only one that is met
        rcases loses with ⟨⟨_,low,_⟩,_⟩ | ⟨beheaded,nowhere⟩
        · omega
        · exact .inr (by rw [others]; exact ⟨beheaded,nowhere⟩)

end

theorem Spare.of_not_loses (kept : ∀ i, ¬ c.Loses addr length i) : Spare c addr length := by
  refine ⟨fun i straddles => ?_,fun i beheaded nowhere => kept i (.inr ⟨beheaded,nowhere⟩)⟩
  by_contra full
  refine kept i (.inl ⟨straddles,fun j => ?_⟩)
  by_contra idle
  exact full ⟨j,Bool.not_eq_true _ ▸ idle⟩

theorem pageAlignUp_eq (fits : roundUp length < 2^64) : pageAlignUp length = roundUp length := by
  unfold pageAlignUp add64 pageSize roundUp at *
  omega

/-- An unmapping takes out its range and nothing else exactly if it is empty, or a slot is spare where an area is split
    and no area that loses its head is at offset 0. -/
theorem mmap_do_munmap_covers (c : Context) (addr length : Nat) (bounded : Bounded c) (separate : Separate c.spans)
    (fits : addr + roundUp length < 2^64) :
    (∃ d value, mmapDoMunmap c addr length = some (d,value) ∧
      ∀ x v, Covers d x v ↔ Covers c x v ∧ ¬ (addr ≤ x ∧ x < addr + roundUp length)) ↔
      length = 0 ∨ Spare c addr (roundUp length) := by
  unfold mmapDoMunmap
  by_cases empty : length = 0
  · subst empty
    refine iff_of_true ⟨c,-1,rfl,fun x v => ⟨fun covers => ⟨covers,?_⟩,And.left⟩⟩ (.inl rfl)
    unfold roundUp
    omega
  · rw [if_neg empty,pageAlignUp_eq (by omega)]
    constructor
    · rintro ⟨d,value,ran,covers⟩
      obtain ⟨⟨e,found⟩,ended,is⟩ := Option.map_eq_some_iff.mp ran
      cases is
      refine .inr (.of_not_loses fun i loses => ?_)
      obtain ⟨active,inside,high⟩ := loses.reaches
      have seen := view_eq_some.mpr ⟨⟨active,Nat.le_of_lt inside,high⟩,rfl⟩
      refine unmapLoop_loses fits 257 c false bounded separate loses seen ?_ ended ((covers _ _).mpr ⟨⟨i,seen⟩,by omega⟩)
      unfold roundUp
      omega
    · intro spare
      obtain ⟨d,found,ran,covers⟩ := unmapLoop_covers fits 257 c false bounded separate (spare.resolve_left empty) (hits_lt _ _)
      rw [ran]
      exact ⟨d,_,rfl,covers⟩

def oneFile (offset : Nat) : Context := mmapContextInit.put 0 ⟨0x10000,0x4000,protRead,mapPrivate,offset,1,some 7,true⟩

private theorem oneFile_spans {offset : Nat} (here : (oneFile offset).spans i = some s) : i = 0 ∧ s = ⟨0x10000,0x4000⟩ := by
  rw [oneFile,spans_put] at here
  rcases of_put here with ⟨same,is⟩ | ⟨_,old⟩
  · exact ⟨same,is⟩
  · cases old

private theorem oneFile_separate (offset : Nat) : Separate (oneFile offset).spans := by
  intro i k s t different here there
  exact absurd ((oneFile_spans here).1.trans (oneFile_spans there).1.symm) different

theorem mmap_do_munmap_covers_of_split : Separate (oneFile 4096).spans ∧ Spare (oneFile 4096) 0x11000 (roundUp 4000) ∧
    ∃ d value, mmapDoMunmap (oneFile 4096) 0x11000 4000 = some (d,value) ∧
      ∀ x v, Covers d x v ↔ Covers (oneFile 4096) x v ∧ ¬ (0x11000 ≤ x ∧ x < 0x11000 + roundUp 4000) := by
  have spare : Spare (oneFile 4096) 0x11000 (roundUp 4000) :=
    ⟨fun _ _ => ⟨1,rfl⟩,fun i beheaded => by
      obtain ⟨active,low,_⟩ := beheaded
      obtain ⟨rfl,_⟩ := oneFile_spans (span_eq_some.mpr ⟨active,rfl⟩)
      decide⟩
  refine ⟨oneFile_separate _,spare,(mmap_do_munmap_covers _ _ _ (fun i s here => ?_) (oneFile_separate _) (by decide)).mpr (.inr spare)⟩
  rw [(oneFile_spans here).2]
  decide

def fullTable : Context := ⟨fun i => ⟨0x10000 * i,0x4000,protRead,mapPrivate,0,1,none,true⟩,256⟩

theorem fullTable_separate : Separate fullTable.spans := by
  intro i k s t different here there
  obtain ⟨_,rfl⟩ := span_eq_some.mp here
  obtain ⟨_,rfl⟩ := span_eq_some.mp there
  have apart : (i : Nat) ≠ k := fun same => different (Fin.ext same)
  show 0x10000 * (i : Nat) + 0x4000 ≤ 0x10000 * (k : Nat) ∨ 0x10000 * (k : Nat) + 0x4000 ≤ 0x10000 * (i : Nat)
  omega

/-- What the table says about an address. -/
def Context.viewAt (c : Context) (x : Nat) : Option View := (List.finRange 256).findSome? (fun i => (c.areas i).view x)

/-- In a full table the tail of a split is lost; a file mapped from its beginning and unmapped there begins anew at the rest. -/
theorem mmap_do_munmap_loses : Separate fullTable.spans ∧ Separate (oneFile 0).spans ∧
    fullTable.viewAt 0x2000 = some ⟨protRead,mapPrivate,none,0x2000⟩ ∧
    (mmapDoMunmap fullTable 0x1000 4096).map (fun p => (p.1.viewAt 0x2000,p.2)) = some (none,0) ∧
    (oneFile 0).viewAt 0x12000 = some ⟨protRead,mapPrivate,some 7,0x2000⟩ ∧
    (mmapDoMunmap (oneFile 0) 0x10000 4096).map (fun p => (p.1.viewAt 0x12000,p.2)) =
      some (some ⟨protRead,mapPrivate,some 7,0x1000⟩,0) :=
  ⟨fullTable_separate,oneFile_separate 0,by decide +kernel,by decide +kernel,by decide +kernel,by decide +kernel⟩

/-! ### Mapping -/

theorem pageAlignUp_bounds (some : 0 < length) (small : length ≤ 0x10000000000) :
    0 < pageAlignUp length ∧ pageAlignUp length ≤ 0x10000000000 ∧ pageAlignUp (pageAlignUp length) = pageAlignUp length := by
  unfold pageAlignUp add64 pageSize
  omega

/-- A place for a mapping: it lies in the range of the search and meets no active area. -/
structure Place (c : Context) (length x : Nat) : Prop where
  low : mmapMinAddr ≤ x
  high : x + length ≤ mmapSearchStart
  free : ∀ i s, c.spans i = some s → s.Apart ⟨x,length⟩

/-- The search ends. It goes down from one candidate to the next, and every place there is ends at or below the
    candidate: those above it meet the area that the last round met. -/
theorem searchFree_highest (bounded : Bounded c) (small : length ≤ 0x10000000000) (fuel : Nat)
    (candidate : Nat) (top : candidate ≤ mmapSearchStart) (enough : candidate < fuel)
    (below : ∀ x, Place c length x → x + length ≤ candidate) :
    ∃ found, searchFree c length fuel candidate = some found ∧ (∀ x, Place c length x → x ≤ found) ∧
      (found ≠ 0 → Place c length found) := by
  induction fuel generalizing candidate with
  | zero => omega
  | succ fuel ih =>
    rw [searchFree,add64_of_lt (by unfold mmapMinAddr; omega)]
    by_cases room : candidate < mmapMinAddr + length
    · rw [if_pos room]
      refine ⟨0,rfl,fun x place => ?_,fun nonzero => absurd rfl nonzero⟩
      have low := place.low
      have high := below x place
      omega
    · have limit := top
      unfold mmapSearchStart at limit
      rw [if_neg room,sub64_of_le (by omega) (by omega)]
      have sum : add64 (candidate - length) length = candidate := by rw [add64_of_lt (by omega)]; omega
      cases found : mmapFindCoveringArea c (candidate - length) length with
      | none =>
        refine ⟨_,rfl,fun x place => ?_,fun _ => ⟨by omega,by omega,fun i s here => ?_⟩⟩
        · have high := below x place
          omega
        · exact (mmapFindCoveringArea_eq_none bounded found here).imp id (fun behind => by dsimp only; omega)
      | some i =>
        obtain ⟨s,here,above,under⟩ := mmapFindCoveringArea_eq_some bounded found
        have start : (c.areas i).start = s.first := by rw [(span_eq_some.mp here).2]
        dsimp only
        refine ih _ (by omega) (by omega) (fun x place => ?_)
        have high := below x place
        have apart := place.free i s here
        dsimp only [Span.Apart,Blocks.Apart] at apart
        omega

theorem Place.covering (bounded : Bounded c) (place : Place c length x) :
    x + length < 2^64 ∧ mmapFindCoveringArea c x length = none := by
  have high := place.high
  unfold mmapSearchStart at high
  refine ⟨by omega,Option.eq_none_iff_forall_ne_some.mpr (fun i found => ?_)⟩
  obtain ⟨s,here,above,below⟩ := mmapFindCoveringArea_eq_some bounded found
  rw [add64_of_lt (by omega)] at below
  have apart := place.free i s here
  dsimp only [Span.Apart,Blocks.Apart] at apart
  omega

/-- The search ends, and gives the highest free place of the window, or 0 if there is none. -/
theorem mmap_find_free_area_highest (c : Context) (length : Nat) (bounded : Bounded c) (positive : 1 ≤ length) (small : length ≤ 2^40) :
    ∃ found, mmapFindFreeArea c length = some found ∧ (∀ x, Place c (pageAlignUp length) x → x ≤ found) ∧
      (found ≠ 0 → Place c (pageAlignUp length) found) ∧ (found = 0 ↔ ¬ ∃ x, Place c (pageAlignUp length) x) := by
  have rounded := pageAlignUp_bounds positive small
  obtain ⟨found,searched,highest,place⟩ := searchFree_highest bounded rounded.2.1 (mmapSearchStart + 1) mmapSearchStart
    (Nat.le_refl _) (Nat.lt_succ_self _) (fun x place => place.high)
  rw [mmapFindFreeArea,if_neg (Nat.ne_of_gt positive)]
  refine ⟨found,searched,highest,place,?_,?_⟩
  · rintro rfl ⟨x,other⟩
    have low := other.low
    have high := highest x other
    unfold mmapMinAddr at low
    omega
  · intro none
    by_contra nonzero
    exact none ⟨found,place nonzero⟩

def topArea : Context := mmapContextInit.put 3 (newArea 0x7EFFFFFFE000 8192 protRead mapPrivate 0)

theorem mmap_find_free_area_highest_below : Bounded topArea ∧ ∃ found, mmapFindFreeArea topArea 5000 = some found ∧
    (∀ x, Place topArea (pageAlignUp 5000) x → x ≤ found) ∧ (found ≠ 0 → Place topArea (pageAlignUp 5000) found) ∧
      (found = 0 ↔ ¬ ∃ x, Place topArea (pageAlignUp 5000) x) := by
  have bounded : Bounded topArea := by
    intro i s here
    rw [topArea,spans_put] at here
    rcases of_put here with ⟨_,rfl⟩ | ⟨_,old⟩
    · decide
    · cases old
  exact ⟨bounded,mmap_find_free_area_highest topArea 5000 bounded (by decide) (by decide)⟩

example : mmapFindFreeArea topArea 5000 = some 0x7EFFFFFFC000 := by decide +kernel

theorem mmapFindFreeArea_spec (bounded : Bounded c) (small : length ≤ 0x10000000000)
    (aligned : pageAlignUp length = length) :
    ∃ found, mmapFindFreeArea c length = some found ∧ (found ≠ 0 → Place c length found) := by
  unfold mmapFindFreeArea
  split
  · exact ⟨0,rfl,fun nonzero => absurd rfl nonzero⟩
  · rw [aligned]
    obtain ⟨found,searched,_,place⟩ := searchFree_highest bounded small (mmapSearchStart + 1) mmapSearchStart
      (Nat.le_refl _) (Nat.lt_succ_self _) (fun x place => place.high)
    exact ⟨found,searched,place⟩

theorem chooseAddr_spec (sound : Sound c) (positive : 0 < length) (small : length ≤ 0x10000000000)
    (aligned : pageAlignUp length = length)
    (fits : addr = 0 ∨ (flags &&& mapFixed = 0 ∧ mmapCheckOverlap c addr length = true) ∨ addr + length < 2^64) :
    ∃ d found, chooseAddr c addr length flags = some (d,found) ∧ Sound d ∧ (found ≠ 0 → found + length < 2^64 ∧
      mmapFindCoveringArea d found length = none) := by
  obtain ⟨place,searched,free⟩ := mmapFindFreeArea_spec sound.bounded small aligned
  have free : place ≠ 0 → _ := fun nonzero => (free nonzero).covering sound.bounded
  unfold chooseAddr
  rw [searched]
  split
  case isTrue somewhere =>
    have fits := fits.resolve_left somewhere
    split
    case isTrue fixed =>
      simp only [fixed,false_or,false_and] at fits
      unfold mmapDoMunmap
      obtain ⟨d,found,ran,kept,clear⟩ := unmapLoop_of_fits fits sound
      rw [if_neg (Nat.ne_of_gt positive),aligned,ran]
      exact ⟨d,addr,rfl,kept,fun _ => ⟨fits,clear⟩⟩
    · split
      · exact ⟨c,place,rfl,sound,free⟩
      case isFalse overlap =>
        simp only [overlap,false_or,and_false,Bool.false_eq_true] at fits
        exact ⟨c,addr,rfl,sound,fun _ => ⟨fits,Option.not_isSome_iff_eq_none.mp overlap⟩⟩
  · exact ⟨c,place,rfl,sound,free⟩

theorem populate_cases (c : Context) (pager : Pager) (slot : Slot) :
    ((populate c pager slot).1.spans = c.spans ∧ (populate c pager slot).1.areaCount = c.areaCount) ∨
    ((populate c pager slot).1.spans = update c.spans slot none ∧
      (populate c pager slot).1.areaCount = c.areaCount - 1) := by
  have marked : ∀ flags, (c.put slot { c.areas slot with flags := flags }).spans = c.spans := by
    intro flags
    rw [spans_put]
    exact update_eq_self slot c.spans
  have undone : (c.put slot { c.areas slot with active := false }).spans = update c.spans slot none :=
    spans_put c slot _
  dsimp only [populate]
  split
  · split
    · exact .inl ⟨marked _,rfl⟩
    · exact .inr ⟨undone,rfl⟩
  · split
    · exact .inl ⟨marked _,rfl⟩
    · split
      · split
        · exact .inl ⟨marked _,rfl⟩
        · exact .inr ⟨undone,rfl⟩
      · exact .inl ⟨rfl,rfl⟩

theorem enterArea_sound (pager : Pager) (sound : Sound c) (active : a.active = true)
    (positive : 0 < a.length) (fits : a.start ≠ 0 → a.start + a.length < 2^64 ∧
      mmapFindCoveringArea c a.start a.length = none) : Sound (enterArea c pager a).1 := by
  unfold enterArea
  split
  · exact sound
  case isFalse nowhere =>
    cases slot : mmapAllocSlot c with
    | none => exact sound
    | some i =>
      obtain ⟨below,clear⟩ := fits nowhere
      have free := mmapAllocSlot_eq_some slot
      have entered := sound.enter free active positive below (fun j s there => by
        have missed := mmapFindCoveringArea_eq_none sound.bounded clear there
        rw [add64_of_lt below] at missed
        exact missed)
      have spans : ({ c.put i a with areaCount := c.areaCount + 1 } : Context).spans =
          update c.spans i a.span := spans_put c i a
      rcases populate_cases { c.put i a with areaCount := c.areaCount + 1 } pager i with ⟨same,count⟩ | ⟨back,count⟩
      · exact entered.congr same count
      · rw [spans,Function.update_idem,← free,update_eq_self] at back
        exact sound.congr back (count.trans (Int.add_sub_cancel c.areaCount 1))

theorem mmapDoMmap_sound {prot offset : Nat} (pager : Pager) (sound : Sound c)
    (fits : mmapRefuses addr length prot flags offset = true ∨ addr = 0 ∨
      (flags &&& mapFixed = 0 ∧ mmapCheckOverlap c addr (pageAlignUp length) = true) ∨
      addr + pageAlignUp length < 2^64) :
    ∃ r, mmapDoMmap c pager addr length prot flags offset = some r ∧ Sound r.1 := by
  unfold mmapDoMmap
  split
  · exact ⟨_,rfl,sound⟩
  case isFalse refused =>
    have bounds : 0 < length ∧ length ≤ 0x10000000000 := by
      simp only [mmapRefuses,Bool.or_eq_true,decide_eq_true_eq] at refused
      omega
    obtain ⟨positive,small,aligned⟩ := pageAlignUp_bounds bounds.1 bounds.2
    obtain ⟨d,found,ran,kept,free⟩ := chooseAddr_spec sound positive small aligned (fits.resolve_left refused)
    rw [ran]
    exact ⟨_,rfl,enterArea_sound pager kept rfl positive free⟩

inductive Request where
  | mmap (addr length prot flags offset : Nat) (pager : Pager)
  | munmap (addr length : Nat)
  | mprotect (addr length prot : Nat)

def step (c : Context) : Request → Option Context
  | .mmap addr length prot flags offset pager =>
    (mmapDoMmap c pager addr length prot flags offset).map Prod.fst
  | .munmap addr length => (mmapDoMunmap c addr length).map Prod.fst
  | .mprotect addr length prot => some (mmapDoMprotect c addr length prot).1

/-- The range of a mapping that is laid where the caller says, and of an unmapping
    that meets an area, ends below 2^64. -/
def Fits (c : Context) : Request → Prop
  | .mmap addr length prot flags offset _ => mmapRefuses addr length prot flags offset = true ∨ addr = 0 ∨
      (flags &&& mapFixed = 0 ∧ mmapCheckOverlap c addr (pageAlignUp length) = true) ∨
      addr + pageAlignUp length < 2^64
  | .munmap addr length => mmapFindCoveringArea c addr (pageAlignUp length) = none ∨ addr + pageAlignUp length < 2^64
  | .mprotect _ _ _ => True

instance (c : Context) : (a : Request) → Decidable (Fits c a)
  | .mmap .. => inferInstanceAs (Decidable (_ ∨ _ ∨ (_ ∧ _) ∨ _))
  | .munmap .. => inferInstanceAs (Decidable (_ ∨ _))
  | .mprotect .. => inferInstanceAs (Decidable True)

private theorem mmapContextInit_sound : Sound mmapContextInit := by
  have empty : mmapContextInit.spans = fun _ => none := rfl
  refine ⟨nofun,nofun,?_⟩
  rw [empty]
  simp [used,mmapContextInit]

theorem step_sound (c : Context) (a : Request) (sound : Sound c) (fits : Fits c a) :
    ∃ d, step c a = some d ∧ Sound d := by
  cases a with
  | mmap addr length prot flags offset pager =>
    obtain ⟨r,ran,kept⟩ := mmapDoMmap_sound pager sound fits
    exact ⟨r.1,by rw [step,ran]; rfl,kept⟩
  | munmap addr length =>
    obtain ⟨r,ran,kept⟩ := mmapDoMunmap_sound sound fits
    exact ⟨r.1,by rw [step,ran]; rfl,kept⟩
  | mprotect addr length prot => exact ⟨_,rfl,mmapDoMprotect_sound sound addr length prot⟩

/-- While the ends of the ranges fit, the areas stay apart and are counted, in every run. -/
theorem mmap_run_sound (requests : List Request) (fits : Guarded step Fits mmapContextInit requests) :
    ∃ c, run step mmapContextInit requests = some c ∧ Sound c :=
  run_invariant step_sound requests mmapContextInit mmapContextInit_sound fits

theorem mmap_run_sound_of_split : ∃ c, run step mmapContextInit
    [.mmap 0x20000000 16384 protRead (mapPrivate ||| mapFixed) 0 ⟨fun _ => true,fun _ => true⟩,
      .munmap 0x20001000 4096, .mprotect 0x20000000 8192 protNone,
      .mmap 0x20002000 4096 protRead (mapAnonymous ||| mapFixed) 0 ⟨fun _ => true,fun _ => true⟩,
      .mmap 0x20003000 4096 protRead mapPrivate 0 ⟨fun _ => true,fun _ => true⟩] = some c ∧ Sound c :=
  mmap_run_sound _ (by decide +kernel)

/-- Two fixed mappings of the last page are both active: the end of the first is 0. -/
theorem mmap_fixed_twice_overlaps : ∃ c, run step mmapContextInit
    [.mmap (2^64 - 4096) 4096 protRead (mapPrivate ||| mapFixed) 0 ⟨fun _ => true,fun _ => true⟩,
      .mmap (2^64 - 4096) 4096 protRead (mapPrivate ||| mapFixed) 0 ⟨fun _ => true,fun _ => true⟩] = some c ∧
    c.spans 0 = some ⟨2^64 - 4096,4096⟩ ∧ c.spans 1 = some ⟨2^64 - 4096,4096⟩ ∧ ¬ Separate c.spans := by
  refine run_shows (fun c => (c.spans 0,c.spans 1)) (some ⟨2^64 - 4096,4096⟩,some ⟨2^64 - 4096,4096⟩) (by decide +kernel)
    (fun c seen => ?_)
  obtain ⟨first,second⟩ := Prod.mk.inj seen
  refine ⟨first,second,fun separate => ?_⟩
  have apart := separate 0 1 _ _ nofun first second
  revert apart
  decide

end Kenux.Mmap
