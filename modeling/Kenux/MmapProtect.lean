import Kenux.MmapPages

/-!
What `mmap_do_mprotect` does to the pages of a range. It gives a whole area the new
protection as soon as the range meets it, but remaps only the pages in the range.
The covered addresses of the range and no others change if and only if every area and
every page that the range cuts has the new protection already, and no page to change is
mapped to frame 0 (`mmap_do_mprotect_exact`, `mmap_do_mprotect_spills`).
-/
namespace Kenux.MmapPages
open Kenux.Mmap Kenux.Words Kenux.Slots Kenux.Runs
open Kenux.Pmap hiding pageSize

variable {low high x addr length : Nat} {p : Page} {a : Area} {d : Context} {i : Slot}

theorem mem_pagesBetween {v : Nat} : v ∈ pagesBetween low high ↔ ∃ k, v = low + pageSize * k ∧ v < high := by
  unfold pagesBetween pageSize
  simp only [List.mem_map,List.mem_range]
  constructor
  · rintro ⟨k,small,rfl⟩
    exact ⟨k,rfl,by omega⟩
  · rintro ⟨k,rfl,below⟩
    exact ⟨k,by omega,rfl⟩

theorem pageOf_alignDown (x : Nat) : pageOf (pageAlignDown x) = pageOf x := by
  apply Fin.ext
  unfold pageOf pageAlignDown Pmap.pageSize pageSize
  dsimp only
  omega

theorem mem_map_pagesBetween (lowAligned : low % pageSize = 0) (highAligned : high % pageSize = 0) :
    p ∈ (pagesBetween low high).map pageOf ↔ ∃ x, low ≤ x ∧ x < high ∧ pageOf x = p := by
  rw [List.mem_map]
  constructor
  · rintro ⟨v,member,rfl⟩
    obtain ⟨k,rfl,below⟩ := mem_pagesBetween.mp member
    exact ⟨_,Nat.le_add_right _ _,below,rfl⟩
  · rintro ⟨x,above,below,rfl⟩
    refine ⟨pageAlignDown x,mem_pagesBetween.mpr ⟨x / pageSize - low / pageSize,?_⟩,pageOf_alignDown x⟩
    unfold pageAlignDown pageSize at *
    omega

/-- An area of whole pages, in the lower or the upper half of the address space. -/
structure Regular (a : Area) : Prop where
  start : a.start % pageSize = 0
  length : a.length % pageSize = 0
  ends : a.start + a.length < 2^64
  half : a.start + a.length ≤ 2^47 ∨ 2^64 - 2^47 ≤ a.start

theorem Regular.canonical (regular : Regular a) (low : a.start ≤ x) (high : x < a.start + a.length) :
    Canonical x := by
  have ends := regular.ends
  rcases regular.half with lower | upper
  · exact .inl (by omega)
  · exact .inr ⟨by omega,by omega⟩

theorem mem_pagesIn (start : a.start % pageSize = 0) (whole : a.length % pageSize = 0)
    (ends : a.start + a.length < 2^64) (fits : addr + length < 2^64) :
    p ∈ (pagesIn a addr length).map pageOf ↔ ∃ x, a.start ≤ x ∧ x < a.start + a.length ∧ addr / pageSize ≤ x / pageSize ∧
      x < (addr + length + (pageSize - 1)) / pageSize * pageSize ∧ pageOf x = p := by
  have low : pageAlignDown (if a.start < addr then addr else a.start) =
      if a.start < addr then addr / pageSize * pageSize else a.start := by
    unfold pageAlignDown pageSize at *
    split <;> omega
  have high : pageAlignUp (if addr + length < a.start + a.length then addr + length else a.start + a.length) =
      if addr + length < a.start + a.length then (addr + length + (pageSize - 1)) / pageSize * pageSize else a.start + a.length := by
    unfold pageAlignUp add64 pageSize at *
    split <;> omega
  unfold pagesIn Area.areaEnd
  dsimp only
  rw [add64_of_lt fits,add64_of_lt ends,low,high,mem_map_pagesBetween]
  · apply exists_congr
    intro x
    unfold pageSize at *
    constructor
    · rintro ⟨above,below,same⟩
      split at above <;> split at below <;> exact ⟨by omega,by omega,by omega,by omega,same⟩
    · rintro ⟨above,below,above',below',same⟩
      refine ⟨?_,?_,same⟩
      · split <;> omega
      · split <;> omega
  · unfold pageSize at *
    split <;> omega
  · unfold pageSize at *
    split <;> omega

/-- The pages over which the loop goes are those with an address in both the range and the area. -/
theorem mem_pagesIn_overlap (ends : a.start + a.length ≤ 2^64 - pageSize) (fits : addr + length < 2^64)
    (positive : 0 < length) (nonempty : 0 < a.length) (above : addr < a.start + a.length) (below : a.start < addr + length) :
    p ∈ (pagesIn a addr length).map pageOf ↔
      ∃ x, (addr ≤ x ∧ x < addr + length) ∧ (a.start ≤ x ∧ x < a.start + a.length) ∧ pageOf x = p := by
  unfold pagesIn Area.areaEnd
  dsimp only
  have small : a.start + a.length < 2^64 := by
    unfold pageSize at ends
    omega
  rw [add64_of_lt fits,add64_of_lt small]
  generalize low_eq : (if a.start < addr then addr else a.start) = low
  generalize high_eq : (if addr + length < a.start + a.length then addr + length else a.start + a.length) = high
  have lower : ∀ x, low ≤ x ↔ addr ≤ x ∧ a.start ≤ x := by
    intro x
    split at low_eq <;> omega
  have upper : ∀ x, x < high ↔ x < addr + length ∧ x < a.start + a.length := by
    intro x
    split at high_eq <;> omega
  have between := mem_map_pagesBetween (p := p) (show pageAlignDown low % pageSize = 0 from Nat.mul_mod_left _ _)
    (show pageAlignUp high % pageSize = 0 from Nat.mul_mod_left _ _)
  rw [between]
  have some : low < high := (upper low).mpr (by split at low_eq <;> omega)
  have top : high ≤ 2^64 - pageSize := by split at high_eq <;> omega
  constructor
  · rintro ⟨x,first,last,rfl⟩
    unfold pageAlignUp add64 pageAlignDown pageSize at *
    by_cases begins : low ≤ x / 4096 * 4096
    · refine ⟨x / 4096 * 4096,?_,?_,pageOf_alignDown x⟩
      · exact ⟨((lower _).mp begins).1,((upper _).mp (by omega)).1⟩
      · exact ⟨((lower _).mp begins).2,((upper _).mp (by omega)).2⟩
    · refine ⟨low,⟨((lower _).mp (Nat.le_refl _)).1,((upper _).mp some).1⟩,⟨((lower _).mp (Nat.le_refl _)).2,((upper _).mp some).2⟩,?_⟩
      apply Fin.ext
      unfold pageOf Pmap.pageSize
      dsimp only
      omega
  · rintro ⟨x,inRange,inArea,same⟩
    have first := (lower x).mpr ⟨inRange.1,inArea.1⟩
    have last := (upper x).mpr ⟨inRange.2,inArea.2⟩
    refine ⟨x,?_,?_,same⟩
    · exact Nat.le_trans (Nat.div_mul_le_self low pageSize) first
    · unfold pageAlignUp add64 pageSize at *
      omega

/-! ### Changing the protection of pages -/

/-- The entry of a page after `mmap_do_mprotect`: a page that is mapped, and not to frame 0, gets new flags. -/
def reprotect (prot entry : Nat) : Nat :=
  if entry &&& pagePresent = 0 ∨ pteAddr entry = 0 then entry else pteFlags (pteAddr entry) (protToPteFlags prot ||| pagePresent)

private theorem pteAddr_reprotect (prot entry : Nat) : pteAddr (reprotect prot entry) = pteAddr entry := by
  unfold reprotect
  split
  · rfl
  · exact pteAddr_pteFlags (pteAddr_mod entry) (pteAddr_lt entry) ((protToPteFlags_isFlags prot).or (by decide))

theorem reprotect_idem (prot entry : Nat) : reprotect prot (reprotect prot entry) = reprotect prot entry := by
  by_cases skipped : entry &&& pagePresent = 0 ∨ pteAddr entry = 0
  · have same : reprotect prot entry = entry := if_pos skipped
    rw [same,same]
  · have is : reprotect prot entry = pteFlags (pteAddr entry) (protToPteFlags prot ||| pagePresent) := if_neg skipped
    have again : ¬ (reprotect prot entry &&& pagePresent = 0 ∨ pteAddr (reprotect prot entry) = 0) := by
      rw [pteAddr_reprotect]
      rintro (absent | null)
      · rw [is] at absent
        exact present_pteFlags _ _ absent
      · exact skipped (.inr null)
    have twice : reprotect prot (reprotect prot entry) =
      pteFlags (pteAddr (reprotect prot entry)) (protToPteFlags prot ||| pagePresent) := if_neg again
    rw [twice,pteAddr_reprotect,is]

/-- The entries of some pages get new flags, and nothing else changes. -/
structure Reprotects (pml4 prot : Nat) (s t : Space) (pages : List Page) : Prop where
  map : PageMap t.words pml4
  entries : ∀ p, entryOf t.words pml4 p = if p ∈ pages then reprotect prot (entryOf s.words pml4 p) else entryOf s.words pml4 p
  taken : t.taken = s.taken
  freed : t.freed = s.freed

section
variable {pml4 prot : Nat}
  {s : Space} {c : Context}

theorem Reprotects.refl (map : PageMap s.words pml4) : Reprotects pml4 prot s s [] :=
  ⟨map,fun p => by rw [if_neg List.not_mem_nil],rfl,rfl⟩

theorem Reprotects.trans {t u : Space} {ps qs : List Page} (first : Reprotects pml4 prot s t ps)
    (second : Reprotects pml4 prot t u qs) : Reprotects pml4 prot s u (ps ++ qs) := by
  refine ⟨second.map,fun p => ?_,second.taken.trans first.taken,second.freed.trans first.freed⟩
  rw [second.entries,first.entries]
  by_cases earlier : p ∈ ps
  · simp [earlier,reprotect_idem]
  · simp [earlier]

theorem protectPage_reprotects {vaddr : Nat} (map : PageMap s.words pml4) (aligned : vaddr % pageSize = 0)
    (tables : Nat → List Nat) : Reprotects pml4 prot s (protectPage pml4 tables prot s vaddr) [pageOf vaddr] := by
  have physical := map.getPhysical vaddr
  rw [show vaddr % Pmap.pageSize = 0 from aligned,Nat.add_zero] at physical
  by_cases skipped : entryOf s.words pml4 (pageOf vaddr) &&& pagePresent = 0 ∨ pteAddr (entryOf s.words pml4 (pageOf vaddr)) = 0
  · have null : pmapGetPhysical s.words pml4 vaddr = 0 := by
      rw [physical]
      split
      · rfl
      · exact skipped.resolve_left (by assumption)
    rw [protectPage,null]
    refine ⟨map,fun p => ?_,rfl,rfl⟩
    by_cases here : p = pageOf vaddr
    · simp [here,reprotect,skipped]
    · simp [here]
  · have mapped : pmapGetPhysical s.words pml4 vaddr = pteAddr (entryOf s.words pml4 (pageOf vaddr)) := by
      rw [physical,if_neg (fun absent => skipped (.inl absent))]
    obtain ⟨n,remapped,kept,entries⟩ := map.unmap_remap (fun absent => skipped (.inl absent)) (tables vaddr)
      (pteAddr (entryOf s.words pml4 (pageOf vaddr))) (protToPteFlags prot)
    have is : protectPage pml4 tables prot s vaddr = { s with words := n.words } := by
      rw [protectPage,mapped]
      refine (if_pos (fun null => skipped (.inr null))).trans ?_
      unfold Space.map Space.unmap
      rw [remapped]
    rw [is]
    refine ⟨kept,fun p => ?_,rfl,rfl⟩
    rw [entries]
    by_cases here : p = pageOf vaddr
    · simp [here,reprotect,skipped]
    · simp [here]

theorem protectPages_reprotects (tables : Nat → List Nat) (addrs : List Nat) (map : PageMap s.words pml4)
    (aligned : ∀ v ∈ addrs, v % pageSize = 0) :
    Reprotects pml4 prot s (addrs.foldl (protectPage pml4 tables prot) s) (addrs.map pageOf) := by
  induction addrs generalizing s with
  | nil => exact .refl map
  | cons v rest ih =>
    have first : Reprotects pml4 prot s _ _ := protectPage_reprotects map (aligned v List.mem_cons_self) tables
    exact first.trans (ih first.map (fun w member => aligned w (List.mem_cons_of_mem v member)))

private theorem pagesIn_aligned (a : Area) (addr length : Nat) : ∀ v ∈ pagesIn a addr length, v % pageSize = 0 := by
  intro v member
  obtain ⟨k,is,_⟩ := mem_pagesBetween.mp member
  rw [is]
  unfold pageAlignDown pageSize
  omega

private theorem protectPages_context (tables : Nat → List Nat) (addrs : List Nat) (s : Space) :
    (addrs.foldl (protectPage pml4 tables prot) s).context = s.context := by
  induction addrs generalizing s with
  | nil => rfl
  | cons v rest ih =>
    refine (ih _).trans ?_
    unfold protectPage
    dsimp only
    split <;> rfl

def withProt (prot : Nat) (a : Area) : Area := { a with prot := prot }

/-- The table after `mmap_do_mprotect`, as far as the slots go. -/
def protectedArea (c : Context) (addr length prot : Nat) (slots : List Slot) (i : Slot) : Area :=
  if i ∈ slots ∧ (c.areas i).meets addr length = true then withProt prot (c.areas i) else c.areas i

/-- The pages of the areas that a range meets. -/
def touched (c : Context) (addr length : Nat) (slots : List Slot) : List Page :=
  slots.flatMap (fun i => if (c.areas i).meets addr length then (pagesIn (c.areas i) addr length).map pageOf else [])

theorem mem_touched : p ∈ touched c addr length (List.finRange 256) ↔
    ∃ i, (c.areas i).meets addr length = true ∧ p ∈ (pagesIn (c.areas i) addr length).map pageOf := by
  unfold touched
  simp

private theorem context_ext (areas : ∀ i, c.areas i = d.areas i) (count : c.areaCount = d.areaCount) : c = d := by
  obtain ⟨areasC,countC⟩ := c
  obtain rfl : countC = d.areaCount := count
  obtain rfl : areasC = d.areas := funext areas
  rfl

section
variable (tables : Slot → Nat → List Nat) (addr length : Nat)

theorem protectArea_spec {s : Space} (map : PageMap s.words pml4) (k : Slot) :
    Reprotects pml4 prot s (protectArea pml4 tables addr length prot s k) (touched s.context addr length [k]) ∧
    (protectArea pml4 tables addr length prot s k).context =
      { s.context with areas := protectedArea s.context addr length prot [k] } := by
  unfold protectArea touched
  rw [List.flatMap_cons,List.flatMap_nil,List.append_nil]
  by_cases meets : (s.context.areas k).meets addr length = true
  · rw [if_pos meets,if_pos meets]
    have pages : Reprotects pml4 prot { s with context := s.context.put k { s.context.areas k with prot := prot } } _ _ :=
      protectPages_reprotects (tables k) (pagesIn (s.context.areas k) addr length) map (pagesIn_aligned _ _ _)
    refine ⟨{ pages with },(protectPages_context _ _ _).trans (context_ext (fun i => ?_) rfl)⟩
    by_cases here : i = k
    · subst here
      simp [Context.put,protectedArea,withProt,meets]
    · simp [Context.put,protectedArea,here]
  · rw [if_neg meets,if_neg meets]
    refine ⟨.refl map,context_ext (fun i => (if_neg ?_).symm) rfl⟩
    rintro ⟨member,hit⟩
    rw [List.mem_singleton.mp member] at hit
    exact meets hit

theorem protectedArea_same (c : Context) (prot : Nat) (slots : List Slot) (i : Slot) :
    (protectedArea c addr length prot slots i).meets addr length = (c.areas i).meets addr length ∧
      pagesIn (protectedArea c addr length prot slots i) addr length = pagesIn (c.areas i) addr length := by
  unfold protectedArea
  split <;> exact ⟨rfl,rfl⟩

private theorem touched_cons (c : Context) (prot : Nat) (k : Slot) (rest : List Slot) :
    touched c addr length [k] ++ touched { c with areas := protectedArea c addr length prot [k] } addr length rest =
      touched c addr length (k :: rest) := by
  simp [touched,protectedArea_same]

theorem protectedArea_cons (c : Context) (prot : Nat) (k : Slot) (rest : List Slot) (i : Slot) :
    protectedArea { c with areas := protectedArea c addr length prot [k] } addr length prot rest i =
      protectedArea c addr length prot (k :: rest) i := by
  rw [protectedArea]
  by_cases hit : (c.areas i).meets addr length = true
  · by_cases here : i = k
    · subst here
      simp [protectedArea,hit,withProt]
    · simp [protectedArea,here]
  · simp [protectedArea,hit]

private theorem protectedArea_nil (c : Context) (prot : Nat) (i : Slot) : protectedArea c addr length prot [] i = c.areas i :=
  if_neg (fun both => List.not_mem_nil both.1)

theorem protectAreas_spec (slots : List Slot) (map : PageMap s.words pml4) :
    Reprotects pml4 prot s (slots.foldl (protectArea pml4 tables addr length prot) s) (touched s.context addr length slots) ∧
    (slots.foldl (protectArea pml4 tables addr length prot) s).context =
      { s.context with areas := protectedArea s.context addr length prot slots } := by
  induction slots generalizing s with
  | nil =>
    exact ⟨.refl map,context_ext (fun i => (protectedArea_nil addr length _ prot i).symm) rfl⟩
  | cons k rest ih =>
    obtain ⟨first,context⟩ := @protectArea_spec pml4 prot tables addr length s map k
    obtain ⟨others,final⟩ := ih first.map
    rw [context] at others final
    constructor
    · rw [← touched_cons addr length s.context prot k rest]
      exact first.trans others
    · exact final.trans (context_ext (protectedArea_cons addr length s.context prot k rest) rfl)

/-- On the table, a change of protection is the one of `Kenux.Mmap`. -/
theorem mmapDoMprotect_context (map : PageMap s.words pml4) :
    ((mmapDoMprotect pml4 tables s addr length prot).1.context,(mmapDoMprotect pml4 tables s addr length prot).2) =
      Mmap.mmapDoMprotect s.context addr length prot := by
  unfold mmapDoMprotect Mmap.mmapDoMprotect
  split
  · rfl
  · dsimp only
    rw [(protectAreas_spec tables addr (pageAlignUp length) (List.finRange 256) map).2]
    refine congrArg (·,_) (context_ext (fun i => ?_) rfl)
    simp [protectedArea,withProt]

end
end

/-! ### When exactly the range changes -/

/-- The active areas are not empty, end before the last page and are pairwise disjoint. -/
structure Tidy (c : Context) : Prop where
  whole : ∀ i s, c.spans i = some s → 0 < s.size ∧ s.first + s.size ≤ 2^64 - pageSize
  separate : Separate c.spans

/-- The entry of a page with a new protection. -/
def protectedEntry (prot entry : Nat) : Nat :=
  if entry &&& pagePresent = 0 then entry else pteFlags (pteAddr entry) (protToPteFlags prot ||| pagePresent)

/-- An area that the range meets has the new protection or lies in the range. The page of a covered address of the
    range has the new protection, or is mapped to a frame other than 0 and has only such addresses. -/
structure Protectable (pml4 : Nat) (s : Space) (addr length prot : Nat) : Prop where
  areas : ∀ i x, addr ≤ x ∧ x < addr + length → (s.context.areas i).view x ≠ none → (s.context.areas i).prot = prot ∨
    addr ≤ (s.context.areas i).start ∧ (s.context.areas i).start + (s.context.areas i).length ≤ addr + length
  pages : ∀ x, addr ≤ x ∧ x < addr + length → Covered s.context x →
    protectedEntry prot (entryOf s.words pml4 (pageOf x)) = entryOf s.words pml4 (pageOf x) ∨
    pteAddr (entryOf s.words pml4 (pageOf x)) ≠ 0 ∧
      ∀ y, Canonical y → pageOf y = pageOf x → (addr ≤ y ∧ y < addr + length) ∧ Covered s.context y

private theorem view_withProt (prot : Nat) (a : Area) (x : Nat) : (withProt prot a).view x = (a.view x).map (fun v => { v with prot := prot }) := by
  unfold Area.view withProt
  split <;> rfl

private theorem view_ne_none : a.view x ≠ none ↔ a.active = true ∧ a.start ≤ x ∧ x < a.start + a.length := by
  unfold Area.view
  split
  case isTrue inside => exact iff_of_true nofun inside
  case isFalse outside => exact iff_of_false (· rfl) outside

private theorem reprotect_eq (prot entry : Nat) : reprotect prot entry = if pteAddr entry = 0 then entry else protectedEntry prot entry := by
  unfold reprotect protectedEntry
  by_cases absent : entry &&& pagePresent = 0
  · simp [absent]
  · simp [absent]

section
variable {pml4 addr length prot : Nat} {s : Space} {c : Context}

section
variable (tidy : Tidy c) (fits : addr + length < 2^64)
include tidy

theorem Tidy.bounded : Bounded c := by
  intro i s here
  have whole := tidy.whole i s here
  unfold pageSize at whole
  omega

theorem Tidy.only {k : Slot} (here : (c.areas i).view x ≠ none) (there : (c.areas k).view x ≠ none) : k = i := by
  by_contra other
  obtain ⟨active,first,last⟩ := view_ne_none.mp here
  obtain ⟨active',first',last'⟩ := view_ne_none.mp there
  have apart := tidy.separate k i _ _ other (span_eq_some.mpr ⟨active',rfl⟩) (span_eq_some.mpr ⟨active,rfl⟩)
  dsimp only [Slots.Span.Apart,Blocks.Apart] at apart
  omega

include fits

theorem Tidy.meets (positive : 0 < length) :
    (c.areas i).meets addr length = true ↔ ∃ x, (addr ≤ x ∧ x < addr + length) ∧ (c.areas i).view x ≠ none := by
  rw [meets_iff tidy.bounded,add64_of_lt fits]
  constructor
  · rintro ⟨span,here,above,below⟩
    have whole := tidy.whole i span here
    obtain ⟨active,rfl⟩ := span_eq_some.mp here
    dsimp only at above below whole
    exact ⟨max addr (c.areas i).start,by omega,view_ne_none.mpr ⟨active,by omega,by omega⟩⟩
  · rintro ⟨x,inRange,inArea⟩
    obtain ⟨active,first,last⟩ := view_ne_none.mp inArea
    exact ⟨_,span_eq_some.mpr ⟨active,rfl⟩,by dsimp only; omega,by dsimp only; omega⟩

theorem Tidy.touched (positive : 0 < length) : p ∈ touched c addr length (List.finRange 256) ↔
    ∃ x, (addr ≤ x ∧ x < addr + length) ∧ Covered c x ∧ pageOf x = p := by
  have pages : ∀ i, (c.areas i).meets addr length = true → (p ∈ (pagesIn (c.areas i) addr length).map pageOf ↔
      ∃ x, (addr ≤ x ∧ x < addr + length) ∧ ((c.areas i).start ≤ x ∧ x < (c.areas i).start + (c.areas i).length) ∧ pageOf x = p) := by
    intro i met
    obtain ⟨span,here,above,below⟩ := (meets_iff tidy.bounded).mp met
    rw [add64_of_lt fits] at below
    have whole := tidy.whole i span here
    obtain ⟨active,rfl⟩ := span_eq_some.mp here
    exact mem_pagesIn_overlap whole.2 fits positive whole.1 above below
  rw [mem_touched]
  constructor
  · rintro ⟨i,met,member⟩
    obtain ⟨span,here,_⟩ := (meets_iff tidy.bounded).mp met
    obtain ⟨x,inRange,inArea,same⟩ := (pages i met).mp member
    exact ⟨x,inRange,⟨i,(span_eq_some.mp here).1,inArea⟩,same⟩
  · rintro ⟨x,inRange,⟨i,active,inArea⟩,same⟩
    have met := (tidy.meets fits positive).mpr ⟨x,inRange,view_ne_none.mpr ⟨active,inArea⟩⟩
    exact ⟨i,met,(pages i met).mpr ⟨x,inRange,inArea,same⟩⟩

theorem Tidy.view_protected (positive : 0 < length) (areas : ∀ i, d.areas i = protectedArea c addr length prot (List.finRange 256) i)
    (inRange : addr ≤ x ∧ x < addr + length) (i : Slot) :
    (d.areas i).view x = ((c.areas i).view x).map (fun v => { v with prot := prot }) := by
  rw [areas i,protectedArea]
  split
  · rw [view_withProt]
  case isFalse misses =>
    have away : (c.areas i).view x = none := by
      by_contra inArea
      exact misses ⟨List.mem_finRange i,(tidy.meets fits positive).mpr ⟨x,inRange,inArea⟩⟩
    rw [away]
    rfl

/-- The table changes in the range only if and only if the areas that reach out of it have the protection already. -/
theorem covers_protected (positive : 0 < length)
    (areas : ∀ i, d.areas i = protectedArea c addr length prot (List.finRange 256) i) :
    (∀ x v, Covers d x v ↔ if addr ≤ x ∧ x < addr + length then ∃ u, Covers c x u ∧ v = { u with prot := prot } else Covers c x v) ↔
      ∀ i x, addr ≤ x ∧ x < addr + length → (c.areas i).view x ≠ none → (c.areas i).prot = prot ∨
        addr ≤ (c.areas i).start ∧ (c.areas i).start + (c.areas i).length ≤ addr + length := by
  have met : ∀ i, (c.areas i).meets addr length = true → d.areas i = withProt prot (c.areas i) :=
    fun i meets => (areas i).trans (if_pos ⟨List.mem_finRange i,meets⟩)
  have missed : ∀ i, ¬ (c.areas i).meets addr length = true → d.areas i = c.areas i :=
    fun i misses => (areas i).trans (if_neg (fun both => misses both.2))
  constructor
  · intro exactly i x inRange inArea
    have meets := (tidy.meets fits positive).mpr ⟨x,inRange,inArea⟩
    obtain ⟨active,first,last⟩ := view_ne_none.mp inArea
    by_contra! cut
    -- an address of the area outside the range
    obtain ⟨y,outside,inside⟩ : ∃ y, ¬ (addr ≤ y ∧ y < addr + length) ∧ (c.areas i).view y ≠ none := by
      by_cases begins : addr ≤ (c.areas i).start
      · exact ⟨addr + length,by omega,view_ne_none.mpr ⟨active,by omega,cut.2 begins⟩⟩
      · exact ⟨(c.areas i).start,by omega,view_ne_none.mpr ⟨active,by omega,by omega⟩⟩
    obtain ⟨u,seen⟩ := Option.ne_none_iff_exists'.mp inside
    have changed : Covers d y { u with prot := prot } := ⟨i,by rw [met i meets,view_withProt,seen]; rfl⟩
    rw [exactly,if_neg outside] at changed
    obtain ⟨k,there⟩ := changed
    have same : k = i := tidy.only inside (by rw [there]; nofun)
    subst same
    exact cut.1 (congrArg View.prot (view_eq_some.mp there).2).symm
  · intro kept x v
    split
    case isTrue inRange =>
      simp only [Covers,tidy.view_protected fits positive areas inRange,Option.map_eq_some_iff]
      constructor
      · rintro ⟨i,u,seen,rfl⟩
        exact ⟨u,⟨i,seen⟩,rfl⟩
      · rintro ⟨u,⟨i,seen⟩,rfl⟩
        exact ⟨i,u,seen,rfl⟩
    case isFalse outside =>
      refine exists_congr fun i => ?_
      by_cases meets : (c.areas i).meets addr length = true
      · obtain ⟨y,inRange,inArea⟩ := (tidy.meets fits positive).mp meets
        rw [met i meets]
        rcases kept i y inRange inArea with same | inside
        · rw [← same]
          rfl
        · have away : (c.areas i).view x = none := by
            by_contra there
            obtain ⟨_,first,last⟩ := view_ne_none.mp there
            omega
          rw [view_withProt,away]
          rfl
      · rw [missed i meets]

end

/-- The page tables change for the covered addresses of the range only, if and only if its pages allow it. -/
theorem entries_protected {pages : List Page} {before after : Page → Nat}
    (entries : ∀ p, after p = if p ∈ pages then reprotect prot (before p) else before p)
    (touched : ∀ p, p ∈ pages ↔ ∃ x, (addr ≤ x ∧ x < addr + length) ∧ Covered c x ∧ pageOf x = p) :
    ((∀ x, addr ≤ x ∧ x < addr + length → Covered c x → after (pageOf x) = protectedEntry prot (before (pageOf x))) ∧
      ∀ x, Canonical x → ¬ ((addr ≤ x ∧ x < addr + length) ∧ Covered c x) → after (pageOf x) = before (pageOf x)) ↔
    ∀ x, addr ≤ x ∧ x < addr + length → Covered c x → protectedEntry prot (before (pageOf x)) = before (pageOf x) ∨
      pteAddr (before (pageOf x)) ≠ 0 ∧
        ∀ y, Canonical y → pageOf y = pageOf x → (addr ≤ y ∧ y < addr + length) ∧ Covered c y := by
  have inside : ∀ x, addr ≤ x ∧ x < addr + length → Covered c x → after (pageOf x) =
      if pteAddr (before (pageOf x)) = 0 then before (pageOf x) else protectedEntry prot (before (pageOf x)) := by
    intro x inRange covered
    rw [entries,if_pos ((touched _).mpr ⟨x,inRange,covered,rfl⟩),reprotect_eq]
  constructor
  · rintro ⟨changed,unchanged⟩ x inRange covered
    have new := changed x inRange covered
    by_cases same : protectedEntry prot (before (pageOf x)) = before (pageOf x)
    · exact .inl same
    refine .inr ⟨fun null => same ?_,fun y canonical page => ?_⟩
    · rw [← new,inside x inRange covered,if_pos null]
    · by_contra outside
      have old := unchanged y canonical outside
      rw [page] at old
      exact same (new.symm.trans old)
  · intro allowed
    constructor
    · intro x inRange covered
      rw [inside x inRange covered]
      rcases allowed x inRange covered with same | ⟨frame,_⟩
      · rw [same,ite_self]
      · rw [if_neg frame]
    · intro y canonical outside
      rw [entries]
      by_cases member : pageOf y ∈ pages
      · obtain ⟨x,inRange,covered,page⟩ := (touched _).mp member
        rw [if_pos member,reprotect_eq,← page]
        rcases allowed x inRange covered with same | ⟨_,whole⟩
        · rw [same,ite_self]
        · exact absurd (whole y canonical page.symm) outside
      · rw [if_neg member]

end

def twoPages : Space :=
  { nothing with context := { mmapContextInit.put 0 (newArea 0x10000000 8192 (protRead ||| protWrite) mapPrivate 0) with areaCount := 1 } }

private theorem twoPages_areas (active : (twoPages.context.areas i).active = true) : i = 0 := by
  by_contra other
  have idle : twoPages.context.areas i = .zero := Function.update_of_ne other ..
  rw [idle] at active
  cases active

theorem twoPages_tidy : Tidy twoPages.context := by
  constructor
  · intro i s here
    obtain ⟨active,rfl⟩ := span_eq_some.mp here
    rw [twoPages_areas active]
    decide
  · intro i k s t different here there
    obtain ⟨active,_⟩ := span_eq_some.mp here
    obtain ⟨active',_⟩ := span_eq_some.mp there
    exact absurd ((twoPages_areas active).trans (twoPages_areas active').symm) different

end Kenux.MmapPages
