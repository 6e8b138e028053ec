import Kenux.MmapProtect

/-!
The shape that the calls of `mmap.c` keep: disjoint areas of whole pages over a page
map (`Shaped`). An unmapping leaves pieces of the areas and clears entries
(`Shrinks`, `Shaped.munmap`); a mapping finds a free place (`Room`, `Shaped.chooses`)
and puts an area there, or takes it away again (`Joins`, `Leaves`).
-/
namespace Kenux.MmapPages
open Kenux.Mmap Kenux.Words Kenux.Slots
open Kenux.Pmap hiding pageSize
open Function (update_self update_of_ne)

/-- The areas are disjoint and of whole pages, each in one half of the address space. -/
structure Shaped (pml4 : Nat) (s : Space) : Prop where
  map : PageMap s.words pml4
  regular : ∀ i, (s.context.areas i).active = true → Regular (s.context.areas i)
  separate : Separate s.context.spans

section
variable {pml4 x addr length : Nat} {s t v : Space} {c d : Context} {i k slot : Slot} {a b : Area} {p : Page}

theorem Shaped.bounded (shaped : Shaped pml4 s) : Bounded s.context := by
  intro i span here
  obtain ⟨active,rfl⟩ := span_eq_some.mp here
  exact (shaped.regular i active).ends

theorem same_area (regular : ∀ i, (c.areas i).active = true → Regular (c.areas i)) (separate : Separate c.spans)
    {y : Nat} (active : (c.areas i).active = true) (low : (c.areas i).start ≤ x)
    (high : x < (c.areas i).start + (c.areas i).length) (active' : (c.areas k).active = true) (low' : (c.areas k).start ≤ y)
    (high' : y < (c.areas k).start + (c.areas k).length) (same : pageOf y = pageOf x) : k = i := by
  by_contra different
  have page := (pageOf_canonical ((regular i active).canonical low high) ((regular k active').canonical low' high')).mp same
  have apart := separate k i _ _ different (span_eq_some.mpr ⟨active',rfl⟩) (span_eq_some.mpr ⟨active,rfl⟩)
  have startI := (regular i active).start
  have lengthI := (regular i active).length
  unfold pageSize Pmap.pageSize at *
  dsimp only [Span.Apart,Blocks.Apart] at apart
  omega

theorem mem_pagesIn_area (regular : Regular a)
    (member : p ∈ (pagesIn a addr length).map pageOf) : ∃ y, a.start ≤ y ∧ y < a.start + a.length ∧ pageOf y = p := by
  obtain ⟨v,inside,rfl⟩ := List.mem_map.mp member
  obtain ⟨k,is,below⟩ := mem_pagesBetween.mp inside
  have start := regular.start
  have size := regular.length
  refine ⟨v,?_,?_,rfl⟩
  · unfold pageAlignDown pageSize at *
    split at is <;> omega
  · unfold Area.areaEnd at below
    unfold pageAlignUp add64 pageSize at *
    split at below <;> omega

theorem mmapFindAreaAt_eq_some (shaped : Shaped pml4 s) {vaddr : Nat}
    (found : mmapFindAreaAt s.context vaddr = some i) : (s.context.areas i).active = true ∧
      (s.context.areas i).start ≤ vaddr ∧ vaddr < (s.context.areas i).start + (s.context.areas i).length := by
  have holds := List.find?_some (p := fun i => (s.context.areas i).active && (s.context.areas i).start ≤ vaddr &&
    vaddr < (s.context.areas i).areaEnd) found
  simp only [Bool.and_eq_true,decide_eq_true_eq] at holds
  obtain ⟨⟨active,low⟩,high⟩ := holds
  rw [Area.areaEnd,add64_of_lt (shaped.regular i active).ends] at high
  exact ⟨active,low,high⟩

/-- The areas are the same up to marks in their flags. -/
def Alike (c d : Context) : Prop := ∀ k, ∃ flags, d.areas k = { c.areas k with flags := flags }

theorem alike_refl (c : Context) : Alike c c := fun k => ⟨(c.areas k).flags,rfl⟩

theorem alike_put (c : Context) (i : Slot) (flags : Nat) : Alike c (c.put i { c.areas i with flags := flags }) := by
  intro k
  by_cases here : k = i
  · subst here
    exact ⟨flags,update_self ..⟩
  · exact ⟨(c.areas k).flags,update_of_ne here ..⟩

theorem Alike.spans (alike : Alike c d) : d.spans = c.spans := by
  funext k
  obtain ⟨flags,is⟩ := alike k
  rw [Context.spans,is]
  rfl

theorem Shaped.alike (shaped : Shaped pml4 s) (alike : Alike s.context t.context) (map : PageMap t.words pml4) :
    Shaped pml4 t := by
  refine ⟨map,fun i active => ?_,?_⟩
  · obtain ⟨flags,is⟩ := alike i
    rw [is] at active ⊢
    exact { shaped.regular i active with }
  · rw [alike.spans]
    exact shaped.separate

/-! ### Unmapping -/

structure Within (a b : Area) : Prop where
  prot : b.prot = a.prot
  file : b.file = a.file
  first : a.start ≤ b.start
  last : b.start + b.length ≤ a.start + a.length

theorem Within.refl (a : Area) : Within a a := ⟨rfl,rfl,Nat.le_refl _,Nat.le_refl _⟩

theorem Within.trans {c : Area} (first : Within a b) (second : Within b c) : Within a c :=
  ⟨second.prot.trans first.prot,second.file.trans first.file,Nat.le_trans first.first second.first,Nat.le_trans second.last first.last⟩

/-- A piece that an unmapping leaves of an area. -/
structure Piece (a b : Area) (low high : Nat) : Prop extends Within a b where
  start : b.start = a.start ∨ b.start = high
  ends : b.start + b.length = a.start + a.length ∨ b.start + b.length = low

theorem Piece.regular {low high : Nat} (piece : Piece a b low high) (regular : Regular a)
    (lowAligned : low % pageSize = 0) (highAligned : high % pageSize = 0) : Regular b := by
  obtain ⟨⟨_,_,first,last⟩,start,ends⟩ := piece
  obtain ⟨aligned,size,bound,half⟩ := regular
  unfold pageSize at *
  refine ⟨?_,?_,by omega,by omega⟩
  · unfold pageSize
    omega
  · unfold pageSize
    omega

theorem round_areas (round : Round c addr length i d)
    (stops : (c.areas i).start + (c.areas i).length < 2^64) (above : addr < (c.areas i).start + (c.areas i).length)
    (active : (d.areas k).active = true) :
    (k ≠ i ∧ (c.areas k).active = true ∧ d.areas k = c.areas k) ∨ Piece (c.areas i) (d.areas k) addr (addr + length) := by
  have put : ∀ {e : Context} {b : Area} {k : Slot}, ((e.put i b).areas k).active = true →
      (k = i ∧ (e.put i b).areas k = b) ∨ (k ≠ i ∧ (e.areas k).active = true ∧ (e.put i b).areas k = e.areas k) := by
    intro e b k active
    by_cases here : k = i
    · subst here
      exact .inl ⟨rfl,update_self ..⟩
    · have same : (e.put i b).areas k = e.areas k := update_of_ne here ..
      rw [same] at active
      exact .inr ⟨here,active,same⟩
  cases round with
  | whole low high =>
    rcases put (e := c) active with ⟨_,is⟩ | other
    · rw [show (c.put i .zero).areas k = .zero from is] at active
      cases active
    · exact .inl other
  | head beheaded =>
    obtain ⟨_,low,inside,high⟩ := beheaded
    rcases put active with ⟨_,is⟩ | other
    · rw [is]
      exact .inr ⟨⟨rfl,rfl,by dsimp only; omega,by dsimp only; omega⟩,.inr rfl,.inl (by dsimp only; omega)⟩
    · exact .inl other
  | rest low high =>
    rcases put active with ⟨_,is⟩ | other
    · rw [is]
      exact .inr ⟨⟨rfl,rfl,Nat.le_refl _,by dsimp only; omega⟩,.inl rfl,.inr (by dsimp only; omega)⟩
    · exact .inl other
  | middle straddles =>
    obtain ⟨_,low,high⟩ := straddles
    rcases put active with ⟨_,is⟩ | ⟨other,busy,same⟩
    · rw [is]
      exact .inr ⟨⟨rfl,rfl,Nat.le_refl _,by dsimp only; omega⟩,.inl rfl,.inr (by dsimp only; omega)⟩
    · rw [same]
      unfold putTail at busy ⊢
      cases slot : mmapAllocSlot c with
      | none =>
        rw [slot] at busy
        exact .inl ⟨other,busy,rfl⟩
      | some j =>
        rw [slot] at busy
        by_cases tail : k = j
        · subst tail
          have is : (c.put k ((c.areas i).tail (addr + length))).areas k = (c.areas i).tail (addr + length) := update_self ..
          have size := tail_length stops (Nat.le_of_lt high)
          rw [is]
          refine .inr ⟨⟨rfl,rfl,?_,?_⟩,.inr rfl,.inl ?_⟩
          · show (c.areas i).start ≤ addr + length
            omega
          · show addr + length + _ ≤ _
            omega
          · show addr + length + _ = _
            omega
        · have is : (c.put j ((c.areas i).tail (addr + length))).areas k = c.areas k := update_of_ne tail ..
          rw [is] at busy ⊢
          exact .inl ⟨other,busy,rfl⟩

/-- Entries are cleared, areas get smaller, and no page is taken or given back. -/
structure Shrinks (pml4 : Nat) (s t : Space) : Prop where
  tables : SameTables s.words t.words pml4
  entries : ∀ p, entryOf t.words pml4 p = entryOf s.words pml4 p ∨ entryOf t.words pml4 p = 0
  areas : ∀ k, (t.context.areas k).active = true →
    ∃ i, (s.context.areas i).active = true ∧ Within (s.context.areas i) (t.context.areas k)
  taken : t.taken = s.taken
  freed : t.freed = s.freed

theorem Shrinks.refl (s : Space) : Shrinks pml4 s s :=
  ⟨fun _ _ => rfl,fun _ => .inl rfl,fun k active => ⟨k,active,.refl _⟩,rfl,rfl⟩

theorem Shrinks.trans {u : Space} (first : Shrinks pml4 s t) (second : Shrinks pml4 t u) : Shrinks pml4 s u := by
  refine ⟨fun q low => (second.tables q low).trans (first.tables q low),fun p => ?_,fun k active => ?_,
    second.taken.trans first.taken,second.freed.trans first.freed⟩
  · rcases second.entries p with same | zero
    · rw [same]
      exact first.entries p
    · exact .inr zero
  · obtain ⟨j,activeJ,part⟩ := second.areas k active
    obtain ⟨i,activeI,whole⟩ := first.areas j activeJ
    exact ⟨i,activeI,whole.trans part⟩

theorem Shrinks.zero (shrinks : Shrinks pml4 s t) (zero : entryOf s.words pml4 p = 0) :
    entryOf t.words pml4 p = 0 := by
  rcases shrinks.entries p with same | cleared
  · rw [same,zero]
  · exact cleared

/-- An unmapping clears the entries of the covered pages of its range. -/
structure Emptied (pml4 : Nat) (s t : Space) (addr length : Nat) : Prop extends Shrinks pml4 s t where
  empty : ∀ x, addr ≤ x → x < addr + length → Covered s.context x → entryOf t.words pml4 (pageOf x) = 0

section
variable {addr length : Nat}

section
variable (startAligned : addr % pageSize = 0) (sizeAligned : length % pageSize = 0) (fits : addr + length < 2^64)
include startAligned sizeAligned fits

theorem Shaped.round (shaped : Shaped pml4 s) (found : mmapFindCoveringArea s.context addr length = some i) :
    Shaped pml4 (unmapRound pml4 s addr length i) ∧ Shrinks pml4 s (unmapRound pml4 s addr length i) ∧
    ∀ x, addr ≤ x → x < addr + length → (s.context.areas i).start ≤ x → x < (s.context.areas i).start + (s.context.areas i).length →
      entryOf (unmapRound pml4 s addr length i).words pml4 (pageOf x) = 0 := by
  obtain ⟨span,here,above,below⟩ := mmapFindCoveringArea_eq_some shaped.bounded found
  obtain ⟨active,rfl⟩ := span_eq_some.mp here
  have regular := shaped.regular i active
  have round := unmapRound_round shaped.bounded fits found
  obtain ⟨change,cut,_⟩ := unmapRound_cut shaped.bounded fits found
  obtain ⟨clears,freed⟩ := unmapAll_clears (pagesIn (s.context.areas i) addr length) shaped.map
  have context := @unmapRound_context pml4 s addr length i
  have words : (unmapRound pml4 s addr length i).words =
      ((pagesIn (s.context.areas i) addr length).foldl (Space.unmap pml4) s).words := rfl
  refine ⟨⟨?_,?_,?_⟩,⟨?_,?_,?_,clears.taken,freed⟩,?_⟩
  · exact clears.map
  · intro k busy
    rw [context] at busy ⊢
    rcases round_areas round regular.ends above busy with ⟨_,old,same⟩ | piece
    · rw [same]
      exact shaped.regular k old
    · refine piece.regular regular startAligned ?_
      unfold pageSize at *
      omega
  · rw [context]
    exact cut.separate shaped.separate
  · exact clears.tables
  · intro p
    rw [words,clears.entries]
    split
    · exact .inr rfl
    · exact .inl rfl
  · intro k busy
    rw [context] at busy ⊢
    rcases round_areas round regular.ends above busy with ⟨_,old,same⟩ | piece
    · rw [same]
      exact ⟨k,old,.refl _⟩
    · exact ⟨i,active,piece.toWithin⟩
  · intro x low high first last
    rw [words,clears.entries,if_pos]
    refine (mem_pagesIn regular.start regular.length regular.ends fits).mpr ⟨x,first,last,Nat.div_le_div_right low,?_,rfl⟩
    unfold pageSize
    omega

theorem Shaped.unmapLoop (fuel : Nat) (foundAny : Bool) (shaped : Shaped pml4 s) (enough : (hits addr (addr + length) s.context.spans).card < fuel) :
    ∃ t found, unmapLoop pml4 addr length fuel s foundAny = some (t,found) ∧ Shaped pml4 t ∧ Emptied pml4 s t addr length ∧
      mmapFindCoveringArea t.context addr length = none := by
  induction fuel generalizing s foundAny with
  | zero => omega
  | succ fuel ih =>
    have bounded := shaped.bounded
    rw [MmapPages.unmapLoop]
    cases found : mmapFindCoveringArea s.context addr length with
    | none =>
      refine ⟨s,foundAny,rfl,shaped,⟨.refl s,?_⟩,found⟩
      intro x low high covered
      exact absurd covered (not_covered_of_apart (apart_of_missed bounded fits found) low high)
    | some i =>
      obtain ⟨span,here,above,below⟩ := mmapFindCoveringArea_eq_some bounded found
      rw [add64_of_lt fits] at below
      obtain ⟨change,cut,_⟩ := unmapRound_cut bounded fits found
      have round := unmapRound_round bounded fits found
      have fewer := cut.card_hits_lt (Finset.mem_filter.mpr ⟨Finset.mem_univ i,span,here,above,below⟩)
      obtain ⟨once,shrinks,cleared⟩ := shaped.round startAligned sizeAligned fits found
      have context := @unmapRound_context pml4 s addr length i
      obtain ⟨t,any,ran,final,emptied,clear⟩ := ih true once (by rw [context]; omega)
      refine ⟨t,any,ran,final,⟨shrinks.trans emptied.toShrinks,?_⟩,clear⟩
      rintro x low high ⟨k,active,first,last⟩
      by_cases this : k = i
      · subst this
        exact emptied.zero (cleared x low high first last)
      · refine emptied.empty x low high ⟨k,?_⟩
        rw [context,round.others this active]
        exact ⟨active,first,last⟩

theorem Shaped.munmap (shaped : Shaped pml4 s) : ∃ t found, MmapPages.unmapLoop pml4 addr length 257 s false = some (t,found) ∧ Shaped pml4 t ∧
      Emptied pml4 s t addr length ∧ mmapFindCoveringArea t.context addr length = none := by
  exact Shaped.unmapLoop startAligned sizeAligned fits 257 false shaped (hits_lt _ _)

end
end

/-! ### The place of a mapping -/

/-- Only covered addresses are mapped where a mapping may go. -/
def Vacant (pml4 : Nat) (s : Space) (addr length : Nat) : Prop :=
  ∀ x, (addr ≠ 0 ∧ addr ≤ x ∧ x < addr + length) ∨ (mmapMinAddr ≤ x ∧ x < mmapSearchStart) →
    ¬ Covered s.context x → pmapTranslate s.words pml4 x = none

/-- There is room for the area: whole pages in one half of the address space, apart from the areas of the table. -/
structure Room (c : Context) (a : Area) : Prop where
  regular : Regular a
  free : ∀ j span, c.spans j = some span → span.Apart ⟨a.start,a.length⟩

/-- The range that is asked for lies in one half of the address space. -/
def InHalf (addr length : Nat) : Prop := addr ≠ 0 → addr + length < 2^64 ∧ (addr + length ≤ 2^47 ∨ 2^64 - 2^47 ≤ addr)

/-- An area comes into a slot. -/
structure Joins (slot : Slot) (a : Area) (c d : Context) : Prop where
  here : d.areas slot = a
  others : ∀ k, k ≠ slot → d.areas k = c.areas k

/-- A slot is given up. -/
structure Leaves (slot : Slot) (c d : Context) : Prop where
  left : (d.areas slot).active = false
  others : ∀ k, k ≠ slot → d.areas k = c.areas k

section
variable (s : Space)

theorem enter_here (slot : Slot) (a : Area) : (s.enter slot a).context.areas slot = a := update_self ..

private theorem enter_other (a : Area) (other : k ≠ slot) :
    (s.enter slot a).context.areas k = s.context.areas k := update_of_ne other ..

theorem joins_enter (slot : Slot) (a : Area) : Joins slot a s.context (s.enter slot a).context :=
  ⟨enter_here s slot a,fun _ other => enter_other s a other⟩

theorem joins_mark (slot : Slot) (a b : Area) : Joins slot b s.context ((s.enter slot a).context.put slot b) :=
  ⟨update_self ..,fun _ other => (update_of_ne other ..).trans (enter_other s a other)⟩

theorem leaves_enter (slot : Slot) (a : Area) (count : Int) :
    Leaves slot s.context { (s.enter slot a).context.put slot { a with active := false } with areaCount := count } :=
  ⟨by simp [Context.put],(joins_mark s slot a _).others⟩

end

theorem Leaves.same (leaves : Leaves slot c d) (k : Slot) (busy : (d.areas k).active = true) :
    d.areas k = c.areas k := by
  refine leaves.others k ?_
  rintro rfl
  rw [leaves.left] at busy
  cases busy

theorem pageOf_eq_pageAt (regular : Regular a) (low : a.start ≤ x) (high : x < a.start + a.length) :
    ∃ j < a.length / pageSize, pageOf x = pageAt a.start j := by
  have aligned := regular.start
  have size := regular.length
  refine ⟨(x - a.start) / pageSize,?_,Fin.ext ?_⟩
  · unfold pageSize at *
    omega
  · unfold pageAt pageOf pageAddr add64 Pmap.pageSize pageSize at *
    dsimp only
    omega

section
variable (shaped : Shaped pml4 s)
include shaped

theorem Shaped.chooses {flags : Nat} (range : InHalf addr (pageAlignUp length))
    (positive : 0 < length) (small : length ≤ 0x10000000000) (aligned : addr = 0 ∨ addr % pageSize = 0) :
    ∃ t found, chooseAddr pml4 s addr (pageAlignUp length) flags = some (t,found) ∧ Shaped pml4 t ∧ Shrinks pml4 s t ∧
      (found ≠ 0 → (∀ prot flags offset, Room t.context (newArea found (pageAlignUp length) prot flags offset)) ∧ (Vacant pml4 s addr (pageAlignUp length) →
        ∀ x, found ≤ x → x < found + pageAlignUp length → entryOf t.words pml4 (pageOf x) &&& pagePresent = 0)) := by
  have whole : pageAlignUp length % pageSize = 0 := Nat.mul_mod_left _ _
  by_cases fixed : addr ≠ 0 ∧ flags &&& mapFixed ≠ 0
  · obtain ⟨nonempty,_,rounded⟩ := pageAlignUp_bounds positive small
    obtain ⟨fits,half⟩ := range fixed.1
    have start := aligned.resolve_left fixed.1
    obtain ⟨t,any,ran,kept,emptied,clear⟩ := shaped.munmap start whole fits
    rw [chooseAddr,if_pos fixed.1,if_pos fixed.2,mmapDoMunmap,if_neg (Nat.ne_of_gt nonempty),rounded,ran]
    refine ⟨t,addr,rfl,kept,emptied.toShrinks,fun _ => ⟨fun _ _ _ => ⟨⟨start,whole,fits,half⟩,?_⟩,?_⟩⟩
    · exact apart_of_missed kept.bounded fits clear
    intro vacant x above below
    by_cases covered : Covered s.context x
    · rw [emptied.empty x above below covered]
      rfl
    · have absent := absent_of_translate shaped.map (vacant x (.inl ⟨fixed.1,above,below⟩) covered)
      rcases emptied.entries (pageOf x) with same | zero
      · rw [same]
        exact absent
      · rw [zero]
        rfl
  · obtain ⟨found,chosen,place⟩ := chooseAddr_found shaped.bounded positive small
      (fun somewhere => (range somewhere).1) (fun somewhere isFixed => absurd ⟨somewhere,isFixed⟩ fixed)
    refine ⟨s,found,chosen,shaped,.refl s,fun nonzero => ?_⟩
    have place := place nonzero
    have start := place.aligned (fun i active => (shaped.regular i active).start) aligned
    have half := place.half (fun somewhere => (range somewhere).2)
    refine ⟨fun _ _ _ => ⟨⟨start,whole,place.fits,half⟩,place.free⟩,fun vacant x above below => ?_⟩
    exact absent_of_translate shaped.map (place.vacant vacant above below)

theorem Shaped.enter (room : Room s.context a)
    (joins : Joins slot a s.context v.context) (map : PageMap v.words pml4) : Shaped pml4 v := by
  refine ⟨map,fun k busy => ?_,fun j k spanJ spanK different atJ atK => ?_⟩
  · by_cases same : k = slot
    · rw [same,joins.here]
      exact room.regular
    · rw [joins.others k same] at busy ⊢
      exact shaped.regular k busy
  · unfold Context.spans at atJ atK
    by_cases first : j = slot
    · rw [first,joins.here] at atJ
      rw [joins.others k (fun same => different (first.trans same.symm))] at atK
      obtain ⟨_,rfl⟩ := span_eq_some.mp atJ
      exact (room.free k spanK atK).symm
    · rw [joins.others j first] at atJ
      by_cases second : k = slot
      · rw [second,joins.here] at atK
        obtain ⟨_,rfl⟩ := span_eq_some.mp atK
        exact room.free j spanJ atJ
      · rw [joins.others k second] at atK
        exact shaped.separate j k spanJ spanK different atJ atK

theorem Shaped.pageOf_ne (room : Room s.context a) {j : Nat}
    (active : (s.context.areas k).active = true) (low : (s.context.areas k).start ≤ x)
    (high : x < (s.context.areas k).start + (s.context.areas k).length) (inside : j < a.length / pageSize) :
    pageOf x ≠ pageAt a.start j := by
  intro same
  have regular := room.regular
  obtain ⟨is,below⟩ := pageAddr_eq regular.ends inside
  have page := (pageOf_canonical (regular.canonical (by omega) below) ((shaped.regular k active).canonical low high)).mp same
  have apart := room.free k _ (span_eq_some.mpr ⟨active,rfl⟩)
  have startK := (shaped.regular k active).start
  have lengthK := (shaped.regular k active).length
  unfold pageSize Pmap.pageSize at *
  dsimp only [Span.Apart,Blocks.Apart] at apart
  omega

theorem Shaped.leave (leaves : Leaves slot s.context v.context)
    (map : PageMap v.words pml4) : Shaped pml4 v := by
  refine ⟨map,fun k busy => ?_,fun j k spanJ spanK different atJ atK => ?_⟩
  · rw [leaves.same k busy]
    exact shaped.regular k (leaves.same k busy ▸ busy)
  · unfold Context.spans at atJ atK
    rw [leaves.same j (span_eq_some.mp atJ).1] at atJ
    rw [leaves.same k (span_eq_some.mp atK).1] at atK
    exact shaped.separate j k spanJ spanK different atJ atK

end

end
end Kenux.MmapPages
