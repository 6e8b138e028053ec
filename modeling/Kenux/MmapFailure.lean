import Kenux.MmapPages

/-!
What a failed `mmap_do_mmap` leaves behind. The loops that undo a mapping clear the
pages before the one that failed and give back what they find there. So areas,
translations and the number of pages are as before if and only if none of these pages was
translated and each was mapped, and no fixed mapping has unmapped something first
(`mmap_do_mmap_atomic`, `mmap_do_mmap_leaves`).
-/
namespace Kenux.MmapPages
open Kenux.Mmap Kenux.Words Kenux.Slots
open Kenux.Pmap hiding pageSize

/-- The table has the same active areas; inactive slots keep what was written to them. -/
structure SameTable (c d : Context) : Prop where
  count : d.areaCount = c.areaCount
  areas : ∀ i, (c.areas i).active = true ∨ (d.areas i).active = true → d.areas i = c.areas i

/-- The number of pages that were taken and not given back. -/
def Space.held (s : Space) : Int := s.taken.length - s.freed.length

structure Unchanged (pml4 : Nat) (s t : Space) : Prop where
  table : SameTable s.context t.context
  translations : ∀ x, pmapTranslate t.words pml4 x = pmapTranslate s.words pml4 x
  held : t.held = s.held

/-- The loop over the pages of an area goes to its end. -/
def Populates (pml4 : Nat) (supply : Supply) (a : Area) (words : Nat → Nat) : Prop :=
  (a.flags &&& mapAnonymous ≠ 0 → firstFailure pml4 supply a.start (protToPteFlags a.prot) (a.length / pageSize) 0 words = none) ∧
  (a.flags &&& mapAnonymous = 0 → a.flags &&& mapPrivate = 0 → a.flags &&& mapShared ≠ 0 →
    ∀ k < a.length / pageSize, supply.frames k ≠ none)

/-- No page before the first that fails was translated; in a mapping that is not anonymous, that one got no frame. -/
def Reverts (pml4 : Nat) (supply : Supply) (a : Area) (words : Nat → Nat) : Prop :=
  ∃ k, firstFailure pml4 supply a.start (protToPteFlags a.prot) (a.length / pageSize) 0 words = some k ∧
    (a.flags &&& mapAnonymous = 0 → supply.frames k = none) ∧ ∀ j < k, entryOf words pml4 (pageAt a.start j) &&& pagePresent = 0

/-- The mapping succeeds; or nothing has been unmapped for it, and it finds no place or no slot or can be undone. -/
def Undoable (pml4 : Nat) (supply : Supply) (s : Space) (addr length prot flags offset : Nat) : Prop :=
  ∃ u found, chooseAddr pml4 s addr (pageAlignUp length) flags = some (u,found) ∧
    (found ≠ 0 ∧ (∃ i, (u.context.areas i).active = false) ∧
      Populates pml4 supply (newArea found (pageAlignUp length) prot flags offset) u.words ∨
    (addr ≠ 0 → flags &&& mapFixed ≠ 0 → ∀ i, ¬ (s.context.areas i).meets addr (pageAlignUp length) = true) ∧
      (found = 0 ∨ (∀ i, (s.context.areas i).active = true) ∨
        Reverts pml4 supply (newArea found (pageAlignUp length) prot flags offset) s.words))

section
variable {pml4 flags n k start value : Nat} {supply : Supply} {s t u : Space} {slot : Slot} {a : Area} {out : Space × Bool}

theorem Unchanged.refl : Unchanged pml4 s s := ⟨⟨rfl,fun _ _ => rfl⟩,fun _ => rfl,rfl⟩

/-! ### How the loops over the pages end -/

/-- A shared mapping whose pages could all be mapped up to the one that got no frame. -/
theorem populateShared_eq (n : Nat) (k : Nat) (u : Space)
    (mapped : ∀ j, firstFailure pml4 supply start flags n k u.words = some j → supply.frames j = none) :
    populateShared pml4 supply start flags k n u = populateAnonymous pml4 supply start flags k n u := by
  induction n generalizing k u with
  | zero => rfl
  | succ n ih =>
    rw [firstFailure] at mapped
    rw [populateShared,populateAnonymous]
    cases given : supply.frames k with
    | none => rfl
    | some page =>
      simp only [given] at mapped
      have done : ((u.take page).map pml4 (supply.tables k) (pageAddr start k) page flags).2 = 0 := by
        by_contra failed
        have none := mapped k (if_pos failed)
        rw [given] at none
        cases none
      dsimp only
      rw [if_neg (not_not.mpr done)]
      exact ih _ _ fun j stops => mapped j ((if_neg (not_not.mpr done)).trans stops)

/-- The loop over the pages of a shared mapping up to the page that gets no frame. -/
structure Stopped (pml4 : Nat) (supply : Supply) (start flags n k : Nat) (u w : Space) (stop : Nat) : Prop where
  first : k ≤ stop
  last : stop < k + n
  map : PageMap w.words pml4
  taken : w.taken.length = u.taken.length + (stop - k)
  freed : w.freed = u.freed
  others : ∀ p, (∀ j, k ≤ j → j < stop → p ≠ pageAt start j) → entryOf w.words pml4 p = entryOf u.words pml4 p
  unmapped : ∀ j, firstFailure pml4 supply start flags n k u.words = some j → supply.frames j ≠ none →
    k ≤ j ∧ j < stop ∧ entryOf w.words pml4 (pageAt start j) = entryOf u.words pml4 (pageAt start j)

theorem populateShared_stopped (n : Nat) {k : Nat} {u : Space} (map : PageMap u.words pml4)
    (fresh : Fresh ⟨u.words,(List.range' k n).flatMap supply.tables⟩ pml4) (small : k + n ≤ 2^36)
    (failed : populateShared pml4 supply start flags k n u = (t,false)) :
    ∃ stop w, t = rollback pml4 start stop w ∧ Stopped pml4 supply start flags n k u w stop := by
  induction n generalizing k u with
  | zero => cases failed
  | succ n ih =>
    rw [populateShared] at failed
    cases given : supply.frames k with
    | none =>
      rw [given] at failed
      cases failed
      refine ⟨k,u,rfl,Nat.le_refl k,by omega,map,by omega,rfl,fun _ _ => rfl,fun j stops framed => ?_⟩
      rw [firstFailure,given] at stops
      cases stops
      exact absurd given framed
    | some page =>
      obtain ⟨words,status,mapped,kept,left,outcome⟩ :=
        Space.map_spec (s := u.take page) map fresh (pageAddr start k) page flags
      obtain ⟨stored,answer⟩ := Space.map_page mapped
      rw [given] at failed
      simp only [mapped] at failed
      obtain ⟨stop,w,undone,stopped⟩ := ih kept left (by omega) failed
      have first := stopped.first
      have last := stopped.last
      -- only the entry of page `k` can change in this round
      have same : ∀ p, p ≠ pageAt start k → entryOf words pml4 p = entryOf u.words pml4 p := by
        intro p other
        rcases outcome with ⟨_,entries⟩ | ⟨_,entries⟩
        · exact congrFun entries p
        · exact (congrFun entries p).trans (Function.update_of_ne other ..)
      refine ⟨stop,w,undone,by omega,by omega,stopped.map,?_,stopped.freed,fun p outside => ?_,fun j stops framed => ?_⟩
      · have taken : w.taken.length = u.taken.length + 1 + (stop - (k+1)) := stopped.taken
        omega
      · refine (stopped.others p (fun j low high => outside j (by omega) high)).trans (same p ?_)
        exact outside k (Nat.le_refl k) first
      · rw [firstFailure,given] at stops
        simp only [stored,answer] at stops
        rcases outcome with ⟨rfl,entries⟩ | ⟨rfl,_⟩
        · cases stops
          refine ⟨Nat.le_refl k,first,(stopped.others _ (fun i low high apart => ?_)).trans (congrFun entries _)⟩
          have equal := pageAt_inj (by omega) (by omega) apart
          omega
        · obtain ⟨later,below,entry⟩ := stopped.unmapped j stops framed
          refine ⟨by omega,below,entry.trans (same _ fun equal => ?_)⟩
          have := pageAt_inj (by omega) (by omega) equal
          omega

/-! ### What the loops leave when they fail -/

/-- The translations and the number of pages are the same. -/
def Restored (pml4 : Nat) (s t : Space) : Prop :=
  (∀ x, pmapTranslate t.words pml4 x = pmapTranslate s.words pml4 x) ∧ t.held = s.held

section
variable (map : PageMap s.words pml4)
include map

theorem translate_of_cleared {pages : List Page} (map' : PageMap t.words pml4)
    (entries : ∀ p, entryOf t.words pml4 p = if p ∈ pages then 0 else entryOf s.words pml4 p)
    (absent : ∀ p ∈ pages, entryOf s.words pml4 p &&& pagePresent = 0) (x : Nat) :
    pmapTranslate t.words pml4 x = pmapTranslate s.words pml4 x := by
  rw [map.translate,map'.translate,entries]
  split
  case isTrue cleared => rw [if_pos (absent _ cleared),if_pos (show (0 : Nat) &&& pagePresent = 0 from rfl)]
  · rfl

/-- A page that is cleared was not translated, if the translations are the same. -/
theorem absent_of_restored (map' : PageMap t.words pml4) (restored : Restored pml4 s t) {j : Nat}
    (cleared : entryOf t.words pml4 (pageAt start j) = 0) : entryOf s.words pml4 (pageAt start j) &&& pagePresent = 0 := by
  refine absent_of_translate map ?_
  rw [← restored.1,map'.translate]
  exact if_pos (by rw [show pageOf (pageAddr start j) = pageAt start j from rfl,cleared]; rfl)

theorem populateAnonymous_undone (isFlags : IsFlags flags) (supplies : Supplies pml4 supply s.words n) (small : n ≤ 2^36)
    (failed : populateAnonymous pml4 supply start flags 0 n s = (t,false)) :
    ∃ k, firstFailure pml4 supply start flags n 0 s.words = some k ∧
      (Restored pml4 s t ↔ ∀ j < k, entryOf s.words pml4 (pageAt start j) &&& pagePresent = 0) := by
  rcases populateAnonymous_cases n (Laid.nothing map) supplies.tables (fun j low => supplies.frames j (by omega)) (by omega) with
    ⟨v,done,_⟩ | ⟨k,extra,v,low,_,laid,undone,stops⟩
  · rw [failed] at done
    cases done
  · cases failed.symm.trans undone
    have cleared := rollback_clears laid.map start k
    have freed := rollback_freed laid.map isFlags k (by omega) laid.lies
    refine ⟨k,stops,fun restored j low => ?_,fun absent => ⟨?_,?_⟩⟩
    · refine absent_of_restored map cleared.map restored ?_
      rw [cleared.entries,if_pos (List.mem_map_of_mem (List.mem_range.mpr low))]
    · have entries : ∀ p, entryOf (rollback pml4 start k v).words pml4 p =
          if p ∈ (List.range k).map (pageAt start) then 0 else entryOf s.words pml4 p := by
        intro p
        rw [cleared.entries]
        split
        · rfl
        case isFalse member => rw [laid.others p member]
      refine translate_of_cleared map cleared.map entries (fun p member => ?_)
      obtain ⟨j,first,rfl⟩ := List.mem_map.mp member
      exact absent j (List.mem_range.mp first)
    · have frees := congrArg List.length freed
      have takes := congrArg List.length (cleared.taken.trans laid.taken)
      have extras := congrArg List.length laid.freed
      simp only [List.length_map,List.length_append,List.length_reverse] at frees takes extras
      unfold Space.held
      omega

/-- Undoing gives back at most one page for each, and none for a page that is not mapped. -/
theorem rollback_freed_le (i : Nat) (small : i ≤ 2^36) : (rollback pml4 start i s).freed.length ≤ s.freed.length + i ∧
    ∀ j < i, entryOf s.words pml4 (pageAt start j) &&& pagePresent = 0 →
      (rollback pml4 start i s).freed.length < s.freed.length + i := by
  induction i with
  | zero => exact ⟨Nat.le_refl _,nofun⟩
  | succ i ih =>
    obtain ⟨most,fewer⟩ := ih (by omega)
    have cleared := rollback_clears map start i
    rw [rollback_succ]
    have one : (undoPage pml4 start (rollback pml4 start i s) i).freed.length ≤ (rollback pml4 start i s).freed.length + 1 := by
      unfold undoPage
      dsimp only
      split
      · exact Nat.le_refl _
      · exact Nat.le_succ _
    refine ⟨by omega,fun j low absent => ?_⟩
    by_cases last : j < i
    · have := fewer j last absent
      omega
    · obtain rfl : j = i := by omega
      have gone : pmapGetPhysical (rollback pml4 start j s).words pml4 (pageAddr start j) = 0 := by
        rw [cleared.map.getPhysical,if_pos]
        rw [show pageOf (pageAddr start j) = pageAt start j from rfl,cleared.entries,
          if_neg (not_mem_pages (by omega) (Nat.le_refl j))]
        exact absent
      have kept : (undoPage pml4 start (rollback pml4 start j s) j).freed = (rollback pml4 start j s).freed := by
        rw [undoPage,gone]
        rfl
      rw [kept]
      omega

/-- A shared mapping with a page that could not be mapped is not undone. -/
theorem populateShared_leaves (fresh : Fresh ⟨s.words,(List.range' 0 n).flatMap supply.tables⟩ pml4) (small : n ≤ 2^36)
    (failed : populateShared pml4 supply start flags 0 n s = (t,false))
    (stops : firstFailure pml4 supply start flags n 0 s.words = some k) (framed : supply.frames k ≠ none) : ¬ Restored pml4 s t := by
  intro restored
  obtain ⟨stop,w,rfl,stopped⟩ := populateShared_stopped n map fresh (by omega) failed
  obtain ⟨-,below,entry⟩ := stopped.unmapped k stops framed
  have last := stopped.last
  have cleared := rollback_clears stopped.map start stop
  have absent := absent_of_restored map cleared.map restored
    (by rw [cleared.entries,if_pos (List.mem_map_of_mem (List.mem_range.mpr below))])
  rw [← entry] at absent
  have fewer := (rollback_freed_le stopped.map stop (by omega)).2 k below absent
  have held := restored.2
  unfold Space.held at held
  rw [cleared.taken,stopped.taken] at held
  rw [stopped.freed] at fewer
  omega

end

/-! ### A mapping as a whole -/

theorem sameTable_undone {c : Context} (idle : (c.areas slot).active = false) (a : Area) :
    SameTable c { ({ c.put slot a with areaCount := c.areaCount + 1 } : Context).put slot { a with active := false } with
      areaCount := c.areaCount + 1 - 1 } := by
  constructor
  · exact Int.add_sub_cancel c.areaCount 1
  · intro i active
    by_cases here : i = slot
    · subst here
      simp [Context.put,idle] at active
    · simp [Context.put,here]

/-- A loop that has been undone is undone in the table as well. -/
theorem finishArea_cases (valid : a.start ≠ mapFailed) (context : out.1.context = (s.enter slot a).context)
    (finished : finishArea slot out = (t,value)) :
    (value = mapFailed ↔ ¬ out.2 = true) ∧ (value = mapFailed → t = { out.1 with context :=
      { (s.enter slot a).context.put slot { a with active := false } with areaCount := s.context.areaCount + 1 - 1 } }) := by
  have here : (s.enter slot a).context.areas slot = a := Function.update_self ..
  unfold finishArea at finished
  rw [context,here] at finished
  split at finished
  case isTrue done =>
    cases finished
    exact ⟨iff_of_false valid (not_not.mpr done),fun failed => absurd failed valid⟩
  case isFalse done =>
    cases finished
    exact ⟨iff_of_true rfl done,fun _ => rfl⟩

/-- The table after a failure: the slot is free again. -/
def undone (s : Space) (slot : Slot) (a : Area) : Context :=
  { (s.enter slot a).context.put slot { a with active := false } with areaCount := s.context.areaCount + 1 - 1 }

theorem populate_cases (valid : a.start ≠ mapFailed) (ran : populate pml4 supply slot (s.enter slot a) = (t,value)) :
    (value = mapFailed ↔ ¬ Populates pml4 supply a s.words) ∧ (value = mapFailed → ∃ u, t = { u with context := undone s slot a } ∧
      (a.flags &&& mapAnonymous ≠ 0 ∧
        populateAnonymous pml4 supply a.start (protToPteFlags a.prot) 0 (a.length / pageSize) (s.enter slot a) = (u,false) ∨
      a.flags &&& mapAnonymous = 0 ∧
        populateShared pml4 supply a.start (protToPteFlags a.prot) 0 (a.length / pageSize) (s.enter slot a) = (u,false))) := by
  have here : (s.enter slot a).context.areas slot = a := Function.update_self ..
  have succeeds : a.start = value → Populates pml4 supply a s.words →
      (value = mapFailed ↔ ¬ Populates pml4 supply a s.words) ∧ ∀ {P : Prop}, value = mapFailed → P := by
    rintro rfl populates
    exact ⟨iff_of_false valid (not_not.mpr populates),fun failed => absurd failed valid⟩
  unfold populate at ran
  rw [here] at ran
  dsimp only at ran
  split at ran
  case isTrue anonymous =>
    have context := @populateAnonymous_context pml4 supply a.start (protToPteFlags a.prot) (a.length / pageSize) 0 (s.enter slot a)
    have done := @populateAnonymous_done (protToPteFlags a.prot) a.start pml4 supply (a.length / pageSize) 0 (s.enter slot a)
    obtain ⟨status,undo⟩ := finishArea_cases valid context ran
    refine ⟨?_,fun failed => ⟨_,undo failed,.inl ⟨anonymous,Prod.ext rfl (Bool.not_eq_true _ ▸ status.mp failed)⟩⟩⟩
    rw [status,done]
    exact not_congr ⟨fun none => ⟨fun _ => none,fun isFile => absurd isFile anonymous⟩,fun populates => populates.1 anonymous⟩
  case isFalse isFile =>
    split at ran
    case isTrue isPrivate =>
      obtain ⟨status,undo⟩ := succeeds (congrArg Prod.snd ran)
        ⟨fun anonymous => absurd anonymous isFile,fun _ notPrivate => absurd notPrivate isPrivate⟩
      exact ⟨status,undo⟩
    case isFalse notPrivate =>
      split at ran
      case isTrue shared =>
        have context := @populateShared_context pml4 supply a.start (protToPteFlags a.prot) (a.length / pageSize) 0 (s.enter slot a)
        have done := @populateShared_done (protToPteFlags a.prot) a.start pml4 supply (a.length / pageSize) 0 (s.enter slot a)
        obtain ⟨status,undo⟩ := finishArea_cases valid context ran
        refine ⟨?_,fun failed => ⟨_,undo failed,.inr ⟨not_not.mp isFile,Prod.ext rfl (Bool.not_eq_true _ ▸ status.mp failed)⟩⟩⟩
        rw [status,done]
        simp only [Nat.zero_add]
        exact not_congr ⟨fun all => ⟨fun anonymous => absurd anonymous isFile,fun _ _ _ => all⟩,
          fun populates => populates.2 (not_not.mp isFile) (not_not.mp notPrivate) shared⟩
      case isFalse unshared =>
        obtain ⟨status,undo⟩ := succeeds (congrArg Prod.snd ran)
          ⟨fun anonymous => absurd anonymous isFile,fun _ _ shared => absurd shared unshared⟩
        exact ⟨status,undo⟩

theorem populate_unchanged (map : PageMap s.words pml4) (idle : (s.context.areas slot).active = false)
    (valid : a.start ≠ mapFailed) (supplies : Supplies pml4 supply s.words (a.length / pageSize)) (small : a.length / pageSize ≤ 2^36)
    (ran : populate pml4 supply slot (s.enter slot a) = (t,value)) :
    (value = mapFailed → Unchanged pml4 s t) ↔ Populates pml4 supply a s.words ∨ Reverts pml4 supply a s.words := by
  obtain ⟨status,fails⟩ := populate_cases valid ran
  by_cases failed : value = mapFailed
  · obtain ⟨u,rfl,loop⟩ := fails failed
    rw [or_iff_right (status.mp failed)]
    have unchanged : (value = mapFailed → Unchanged pml4 s { u with context := undone s slot a }) ↔ Restored pml4 s u :=
      ⟨fun all => ⟨(all failed).translations,(all failed).held⟩,fun restored _ => ⟨sameTable_undone idle a,restored.1,restored.2⟩⟩
    rw [unchanged]
    have anonymously : populateAnonymous pml4 supply a.start (protToPteFlags a.prot) 0 (a.length / pageSize) (s.enter slot a) = (u,false) →
        (∀ j, firstFailure pml4 supply a.start (protToPteFlags a.prot) (a.length / pageSize) 0 s.words = some j →
          a.flags &&& mapAnonymous = 0 → supply.frames j = none) → (Restored pml4 s u ↔ Reverts pml4 supply a s.words) := by
      intro loop mapped
      obtain ⟨k,stops,restored⟩ := populateAnonymous_undone (s := s.enter slot a) map (protToPteFlags_isFlags a.prot) supplies small loop
      refine restored.trans ⟨fun absent => ⟨k,stops,mapped k stops,absent⟩,fun ⟨j,stops',_,absent⟩ => ?_⟩
      cases stops.symm.trans stops'
      exact absent
    rcases loop with ⟨anonymous,loop⟩ | ⟨isFile,loop⟩
    · exact anonymously loop (fun _ _ isFile => absurd isFile anonymous)
    · by_cases mapped : ∀ j, firstFailure pml4 supply a.start (protToPteFlags a.prot) (a.length / pageSize) 0 s.words = some j →
          supply.frames j = none
      · rw [populateShared_eq _ _ (s.enter slot a) mapped] at loop
        exact anonymously loop (fun j stops _ => mapped j stops)
      · push Not at mapped
        obtain ⟨j,stops,framed⟩ := mapped
        refine iff_of_false (populateShared_leaves (s := s.enter slot a) map supplies.tables small loop stops framed) ?_
        rintro ⟨k,stops',none,_⟩
        cases stops.symm.trans stops'
        exact framed (none isFile)
  · exact iff_of_true (fun is => absurd is failed) (.inl (not_not.mp (mt status.mpr failed)))

theorem enterArea_cases (entered : enterArea pml4 supply u a = (t,value)) :
    ((a.start = 0 ∨ ∀ i, (u.context.areas i).active = true) ∧ t = u ∧ value = mapFailed) ∨
    (a.start ≠ 0 ∧ ∃ slot, (u.context.areas slot).active = false ∧ populate pml4 supply slot (u.enter slot a) = (t,value)) := by
  unfold enterArea at entered
  split at entered
  case isTrue nowhere =>
    cases entered
    exact .inl ⟨.inl nowhere,rfl,rfl⟩
  case isFalse somewhere =>
    split at entered
    case h_1 full =>
      cases entered
      refine .inl ⟨.inr fun i => ?_,rfl,rfl⟩
      simpa using List.find?_eq_none.mp full i (List.mem_finRange i)
    case h_2 slot free =>
      have idle := List.find?_some free
      exact .inr ⟨somewhere,slot,by simpa using idle,entered⟩

/-! ### The place of a mapping, and what was there -/

theorem unmapLoop_missed {addr length fuel : Nat} {foundAny any : Bool}
    (ran : unmapLoop pml4 addr length fuel s foundAny = some (t,any)) (i : Slot) : ¬ (t.context.areas i).meets addr length = true := by
  induction fuel generalizing s foundAny with
  | zero => cases ran
  | succ fuel ih =>
    rw [unmapLoop] at ran
    split at ran
    case h_1 missed =>
      cases ran
      exact List.find?_eq_none.mp missed i (List.mem_finRange i)
    · exact ih ran

section
variable {addr length found : Nat} (positive : 0 < length) (small : length ≤ 0x10000000000)
  (chosen : chooseAddr pml4 s addr (pageAlignUp length) flags = some (u,found))
include positive small chosen

/-- A fixed mapping goes to its address, where no area is left. -/
theorem chooseAddr_fixed (somewhere : addr ≠ 0) (fixed : flags &&& mapFixed ≠ 0) :
    found = addr ∧ (∀ i, ¬ (u.context.areas i).meets addr (pageAlignUp length) = true) ∧
      ((∀ i, ¬ (s.context.areas i).meets addr (pageAlignUp length) = true) → u = s) := by
  obtain ⟨nonempty,-,rounded⟩ := pageAlignUp_bounds positive small
  rw [chooseAddr,if_pos somewhere,if_pos fixed,mmapDoMunmap,if_neg (Nat.ne_of_gt nonempty),rounded,Option.map_map] at chosen
  obtain ⟨⟨v,any⟩,ran,is⟩ := Option.map_eq_some_iff.mp chosen
  cases is
  refine ⟨rfl,unmapLoop_missed ran,fun missed => ?_⟩
  rw [unmapLoop,show mmapFindCoveringArea s.context addr (pageAlignUp length) = none from
    List.find?_eq_none.mpr fun i _ => missed i] at ran
  cases ran
  rfl

theorem chooseAddr_kept
    (apart : addr ≠ 0 → flags &&& mapFixed ≠ 0 → ∀ i, ¬ (s.context.areas i).meets addr (pageAlignUp length) = true) : u = s := by
  by_cases fixed : addr ≠ 0 ∧ flags &&& mapFixed ≠ 0
  · exact (chooseAddr_fixed positive small chosen fixed.1 fixed.2).2.2 (apart fixed.1 fixed.2)
  · unfold chooseAddr at chosen
    split at chosen
    case isTrue somewhere =>
      rw [if_neg (fun isFixed => fixed ⟨somewhere,isFixed⟩)] at chosen
      split at chosen
      · obtain ⟨_,_,is⟩ := Option.map_eq_some_iff.mp chosen
        cases is
        rfl
      · cases chosen
        rfl
    · obtain ⟨_,_,is⟩ := Option.map_eq_some_iff.mp chosen
      cases is
      rfl

theorem chooseAddr_valid (bounded : Bounded s.context) (aligned : addr = 0 ∨ addr % pageSize = 0) : found ≠ mapFailed := by
  obtain ⟨nonempty,short,rounded⟩ := pageAlignUp_bounds positive small
  obtain ⟨place,searched,free⟩ := mmapFindFreeArea_spec bounded short rounded
  have asked : addr ≠ mapFailed := by
    unfold mapFailed pageSize at *
    omega
  have window : place ≠ mapFailed := by
    rintro rfl
    have high := (free (by decide)).high
    unfold mapFailed mmapSearchStart at high
    omega
  unfold chooseAddr at chosen
  rw [searched] at chosen
  split at chosen
  · split at chosen
    · obtain ⟨_,_,is⟩ := Option.map_eq_some_iff.mp chosen
      cases is
      exact asked
    · split at chosen <;> cases chosen
      · exact window
      · exact asked
  · cases chosen
    exact window

end

/-- What was unmapped for a mapping that failed is missing. -/
theorem not_sameTable {addr length : Nat} {i : Slot} (met : (s.context.areas i).meets addr length = true)
    (missed : ¬ (t.context.areas i).meets addr length = true) : ¬ Unchanged pml4 s t := by
  intro unchanged
  have active : (s.context.areas i).active = true := by
    simp only [Area.meets,Bool.and_eq_true] at met
    exact met.1
  rw [unchanged.table.areas i (.inl active)] at missed
  exact missed met

theorem undone_missed {addr length : Nat} (missed : ∀ i, ¬ (u.context.areas i).meets addr length = true) (i : Slot) :
    ¬ ((undone u slot a).areas i).meets addr length = true := by
  by_cases here : i = slot
  · subst here
    simp [undone,Context.put,Area.meets]
  · simpa [undone,Space.enter,Context.put,here] using missed i

theorem enterArea_unchanged {addr length found prot offset : Nat} (map : PageMap s.words pml4) (bounded : Bounded s.context)
    (supplies : Supplies pml4 supply s.words (pageAlignUp length / pageSize)) (positive : 0 < length)
    (small : length ≤ 0x10000000000) (aligned : addr = 0 ∨ addr % pageSize = 0)
    (chosen : chooseAddr pml4 s addr (pageAlignUp length) flags = some (u,found))
    (entered : enterArea pml4 supply u (newArea found (pageAlignUp length) prot flags offset) = (t,value)) :
    (value = mapFailed → Unchanged pml4 s t) ↔
      (found ≠ 0 ∧ (∃ i, (u.context.areas i).active = false) ∧
        Populates pml4 supply (newArea found (pageAlignUp length) prot flags offset) u.words ∨
      (addr ≠ 0 → flags &&& mapFixed ≠ 0 → ∀ i, ¬ (s.context.areas i).meets addr (pageAlignUp length) = true) ∧
        (found = 0 ∨ (∀ i, (s.context.areas i).active = true) ∨
          Reverts pml4 supply (newArea found (pageAlignUp length) prot flags offset) s.words)) := by
  have valid := chooseAddr_valid positive small chosen bounded aligned
  by_cases apart : addr ≠ 0 → flags &&& mapFixed ≠ 0 → ∀ i, ¬ (s.context.areas i).meets addr (pageAlignUp length) = true
  · obtain rfl := chooseAddr_kept positive small chosen apart
    rcases enterArea_cases entered with ⟨nowhere,rfl,rfl⟩ | ⟨somewhere,slot,idle,ran⟩
    · refine iff_of_true (fun _ => .refl) (.inr ⟨apart,?_⟩)
      rcases nowhere with zero | full
      · exact .inl zero
      · exact .inr (.inl full)
    · have pages : pageAlignUp length / pageSize ≤ 2^36 := by
        obtain ⟨-,short,-⟩ := pageAlignUp_bounds positive small
        unfold pageSize
        omega
      rw [populate_unchanged map idle valid supplies pages ran]
      constructor
      · rintro (populates | reverts)
        · exact .inl ⟨somewhere,⟨slot,idle⟩,populates⟩
        · exact .inr ⟨apart,.inr (.inr reverts)⟩
      · rintro (⟨_,_,populates⟩ | ⟨_,zero | full | reverts⟩)
        · exact .inl populates
        · exact absurd zero somewhere
        · rw [full slot] at idle
          cases idle
        · exact .inr reverts
  · -- something was unmapped for the mapping, so that it has to succeed
    rw [or_iff_left (fun both => apart both.1)]
    push Not at apart
    obtain ⟨somewhere,fixed,i,met⟩ := apart
    obtain ⟨rfl,missed,-⟩ := chooseAddr_fixed positive small chosen somewhere fixed
    rcases enterArea_cases entered with ⟨nowhere,rfl,rfl⟩ | ⟨_,slot,idle,ran⟩
    · refine iff_of_false (fun kept => not_sameTable met (missed i) (kept rfl)) ?_
      rintro ⟨_,⟨j,idle⟩,_⟩
      rcases nowhere with zero | full
      · exact somewhere zero
      · rw [full j] at idle
        cases idle
    · obtain ⟨status,fails⟩ := populate_cases valid ran
      constructor
      · intro kept
        refine ⟨somewhere,⟨slot,idle⟩,?_⟩
        by_contra stopped
        obtain ⟨w,rfl,_⟩ := fails (status.mpr stopped)
        exact not_sameTable met (undone_missed missed i) (kept (status.mpr stopped))
      · rintro ⟨_,_,populates⟩ failed
        exact absurd populates (status.mp failed)

/-- A mapping that fails leaves everything as it was exactly if it is refused at once, or what it has done can be undone. -/
theorem mmap_do_mmap_atomic (pml4 : Nat) (supply : Supply) (s : Space) (addr length prot flags offset : Nat)
    (map : PageMap s.words pml4) (bounded : Bounded s.context)
    (supplies : Supplies pml4 supply s.words (pageAlignUp length / pageSize)) :
    (∃ t value, mmapDoMmap pml4 supply s addr length prot flags offset = some (t,value) ∧
      (value = mapFailed → Unchanged pml4 s t)) ↔
      mmapRefuses addr length prot flags offset = true ∨ Undoable pml4 supply s addr length prot flags offset := by
  unfold mmapDoMmap Undoable
  by_cases refused : mmapRefuses addr length prot flags offset = true
  · rw [if_pos refused]
    exact iff_of_true ⟨s,mapFailed,rfl,fun _ => .refl⟩ (.inl refused)
  rw [if_neg refused,or_iff_right refused]
  obtain ⟨positive,small,aligned⟩ := of_not_refused refused
  cases chosen : chooseAddr pml4 s addr (pageAlignUp length) flags with
  | none => exact iff_of_false nofun nofun
  | some choice =>
    obtain ⟨u,found⟩ := choice
    rcases entered : enterArea pml4 supply u (newArea found (pageAlignUp length) prot flags offset) with ⟨t,value⟩
    have exactly := enterArea_unchanged map bounded supplies positive small aligned chosen entered
    constructor
    · rintro ⟨_,_,ran,kept⟩
      cases (Option.some.inj ran).symm.trans entered
      exact ⟨u,found,rfl,exactly.mp kept⟩
    · rintro ⟨_,_,⟨⟩,undoable⟩
      exact ⟨t,value,congrArg some entered,exactly.mpr undoable⟩

end

def half : Supply := ⟨fun k => if k = 0 then some 0x5000 else none,fun k => if k = 0 then [0x2000,0x3000,0x4000] else []⟩

theorem mmap_do_mmap_atomic_of_half : ∃ t,
    mmapDoMmap 0x1000 half nothing 0 8192 protRead mapAnonymous 0 = some (t,mapFailed) ∧ t.taken = [0x5000] ∧ Unchanged 0x1000 nothing t := by
  have undoable : Undoable 0x1000 half nothing 0 8192 protRead mapAnonymous 0 := by
    have place : mmapFindFreeArea nothing.context (pageAlignUp 8192) = some 0x7EFFFFFFE000 := by decide +kernel
    have chosen : chooseAddr 0x1000 nothing 0 (pageAlignUp 8192) mapAnonymous = some (nothing,0x7EFFFFFFE000) :=
      (if_neg (not_not.mpr rfl)).trans (congrArg (Option.map fun found => (nothing,found)) place)
    refine ⟨nothing,0x7EFFFFFFE000,chosen,.inr ⟨fun somewhere => absurd rfl somewhere,.inr (.inr ⟨1,by decide +kernel,?_,?_⟩)⟩⟩
    · exact fun _ => rfl
    · intro j _
      rw [entryOf_empty (fun _ => rfl)]
      rfl
  obtain ⟨t,value,ran,unchanged⟩ := (mmap_do_mmap_atomic 0x1000 half nothing 0 8192 protRead mapAnonymous 0 nothing_map
    (fun i s here => (by cases here)) ⟨by decide,fresh_zero (by decide) (by decide) nofun⟩).mpr (.inr undoable)
  have observed : (mmapDoMmap 0x1000 half nothing 0 8192 protRead mapAnonymous 0).map (fun r => (r.1.taken,r.2)) =
      some ([0x5000],mapFailed) := by decide +kernel
  rw [ran] at observed
  obtain ⟨taken,rfl⟩ := Prod.mk.inj (Option.some.inj observed)
  exact ⟨t,ran,taken,unchanged rfl⟩

def oneArea : Space := { nothing with context := { mmapContextInit.put 0 (newArea 0x10000000 4096 protRead mapPrivate 0) with areaCount := 1 } }

/-- A fixed mapping that finds no page has unmapped what was there. A shared mapping whose first page could not be
    mapped and whose second was not to be had keeps the first. -/
theorem mmap_do_mmap_leaves : (oneArea.context.areas 0).active = true ∧
    (mmapDoMmap 0x1000 ⟨fun _ => none,fun _ => []⟩ oneArea 0x10000000 4096 protRead (mapPrivate ||| mapFixed ||| mapAnonymous) 0).map
      (fun r => ((r.1.context.areas 0).active,r.1.context.areaCount,r.2)) = some (false,0,mapFailed) ∧
    nothing.held = 0 ∧
    (mmapDoMmap 0x1000 ⟨fun k => if k = 0 then some 0x5000 else none,fun _ => []⟩ nothing 0 8192 protRead mapShared 0).map
      (fun r => (r.1.held,r.2)) = some (1,mapFailed) :=
  ⟨by decide,by decide +kernel,by decide,by decide +kernel⟩

end Kenux.MmapPages
