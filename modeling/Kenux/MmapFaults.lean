import Kenux.MmapEnforce

/-!
The protection of the pages of areas, from call to call. A mapping, too, keeps its
pages within what the area allows, so they are so after every run of mappings,
changes of protection and faults that meets the condition (`mmap_run_enforced`).
Without it a write fault maps a page of a private area writable that may only be
read (`mmap_fault_writable`).
-/
namespace Kenux.MmapPages
open Kenux.Mmap Kenux.Words Kenux.Slots Kenux.Runs
open Kenux.Pmap hiding pageSize

variable {prot : Nat}

section
variable {pml4 k : Nat} {s u v : Space} {slot : Slot}

/-- The first `k` pages of a shared mapping are mapped to pages that were given for them, or are as they were. -/
structure Spread (pml4 : Nat) (supply : Supply) (start flags k : Nat) (s u : Space) : Prop where
  map : PageMap u.words pml4
  entries : ∀ p, entryOf u.words pml4 p = entryOf s.words pml4 p ∨ ∃ j < k, p = pageAt start j ∧
    ∃ frame, IsFrame frame ∧ entryOf u.words pml4 p = pteFlags frame (flags ||| pagePresent)

section
variable {supply : Supply} {start flags : Nat}

theorem Spread.next {page : Nat} {words : Nat → Nat} (spread : Spread pml4 supply start flags k s u)
    (isFrame : IsFrame page) (map : PageMap words pml4) (entries : entryOf words pml4 = entryOf u.words pml4 ∨
      entryOf words pml4 = Function.update (entryOf u.words pml4) (pageAt start k) (pteFlags page (flags ||| pagePresent))) :
    Spread pml4 supply start flags (k+1) s { u.take page with words := words } := by
  have before : ∀ p, entryOf words pml4 p = entryOf u.words pml4 p → entryOf words pml4 p = entryOf s.words pml4 p ∨
      ∃ j < k + 1, p = pageAt start j ∧ ∃ frame, IsFrame frame ∧ entryOf words pml4 p = pteFlags frame (flags ||| pagePresent) := by
    intro p same
    rw [same]
    exact (spread.entries p).imp id (fun ⟨j,low,laid⟩ => ⟨j,by omega,laid⟩)
  refine ⟨map,fun p => ?_⟩
  rcases entries with same | updated
  · exact before p (congrFun same p)
  · by_cases here : p = pageAt start k
    · exact .inr ⟨k,Nat.lt_succ_self k,here,page,isFrame,by rw [updated,here,Function.update_self]⟩
    · refine before p ?_
      rw [updated,Function.update_of_ne here]

theorem populateShared_cases (n : Nat) {k : Nat} {u : Space} (spread : Spread pml4 supply start flags k s u)
    (fresh : Fresh ⟨u.words,(List.range' k n).flatMap supply.tables⟩ pml4)
    (frames : ∀ j < k + n, ∀ frame, supply.frames j = some frame → IsFrame frame) :
    (∃ v, populateShared pml4 supply start flags k n u = (v,true) ∧ Spread pml4 supply start flags (k+n) s v) ∨
    ∃ j v, Spread pml4 supply start flags j s v ∧ populateShared pml4 supply start flags k n u = (rollback pml4 start j v,false) := by
  induction n generalizing k u with
  | zero => exact .inl ⟨_,rfl,spread⟩
  | succ n ih =>
    rw [populateShared]
    cases given : supply.frames k with
    | none => exact .inr ⟨k,u,spread,rfl⟩
    | some page =>
      obtain ⟨words,status,mapped,map,left,outcome⟩ := Space.map_spec (s := u.take page) spread.map fresh (pageAddr start k) page flags
      have more := spread.next (frames k (by omega) page given) map (outcome.imp And.right And.right)
      simp only [mapped]
      have steps := ih more left (fun j low => frames j (by omega))
      rw [show k + 1 + n = k + (n + 1) by omega] at steps
      exact steps

theorem Spread.undo (spread : Spread pml4 supply start flags k s u) :
    PageMap (rollback pml4 start k u).words pml4 ∧ ∀ p, entryOf (rollback pml4 start k u).words pml4 p = entryOf s.words pml4 p ∨
      entryOf (rollback pml4 start k u).words pml4 p = 0 := by
  have cleared := rollback_clears spread.map start k
  refine ⟨cleared.map,fun p => ?_⟩
  rw [cleared.entries]
  split
  · exact .inr rfl
  case isFalse member =>
    rcases spread.entries p with same | ⟨j,low,is,_⟩
    · exact .inl same
    · exact absurd (List.mem_map.mpr ⟨j,List.mem_range.mpr low,is.symm⟩) member

theorem Laid.spread {extra : List Nat} (laid : Laid pml4 supply start flags k extra s u) :
    Spread pml4 supply start flags k s u := by
  refine ⟨laid.map,fun p => ?_⟩
  by_cases member : p ∈ (List.range k).map (pageAt start)
  · obtain ⟨j,low,rfl⟩ := List.mem_map.mp member
    obtain ⟨isFrame,is⟩ := laid.lies j (List.mem_range.mp low)
    exact .inr ⟨j,List.mem_range.mp low,rfl,_,isFrame,is⟩
  · exact .inl (laid.others p member)

end

theorem Enforced.enter {a : Area} (enforced : Enforced pml4 s) (room : Room s.context a)
    (joins : Joins slot a s.context v.context) (map : PageMap v.words pml4)
    (entries : ∀ p, entryOf v.words pml4 p = entryOf s.words pml4 p ∨ ∃ j < a.length / pageSize, p = pageAt a.start j)
    (allowed : ∀ j < a.length / pageSize, Allowed a.prot (entryOf v.words pml4 (pageAt a.start j))) : Enforced pml4 v := by
  refine ⟨enforced.toShaped.enter room joins map,fun k x busy low high => ?_⟩
  by_cases same : k = slot
  · subst same
    rw [joins.here] at low high ⊢
    obtain ⟨j,inside,page⟩ := pageOf_eq_pageAt room.regular low high
    rw [page]
    exact allowed j inside
  · rw [joins.others k same] at busy low high ⊢
    rcases entries (pageOf x) with old | ⟨j,inside,is⟩
    · rw [old]
      exact enforced.allowed k x busy low high
    · exact absurd is (enforced.toShaped.pageOf_ne room busy low high inside)

theorem Enforced.leave (enforced : Enforced pml4 s) (leaves : Leaves slot s.context v.context)
    (map : PageMap v.words pml4)
    (entries : ∀ p, entryOf v.words pml4 p = entryOf s.words pml4 p ∨ entryOf v.words pml4 p = 0) : Enforced pml4 v := by
  refine ⟨enforced.toShaped.leave leaves map,fun k x busy low high => ?_⟩
  have kept := leaves.same k busy
  rw [kept] at busy low high ⊢
  rcases entries (pageOf x) with old | zero
  · rw [old]
    exact enforced.allowed k x busy low high
  · rw [zero]
    exact allowed_zero _

/-- What a mapping is given, and where it may go: not across the halves of the address space; and a mapping that is not
    anonymous not over pages that are mapped and not covered. -/
structure MapOk (pml4 : Nat) (supply : Supply) (s : Space) (addr length flags : Nat) : Prop where
  supplies : Supplies pml4 supply s.words (pageAlignUp length / pageSize)
  range : InHalf addr (pageAlignUp length)
  vacant : flags &&& mapAnonymous = 0 → Vacant pml4 s addr (pageAlignUp length)

section
variable {slot : Slot} {a : Area} {supply : Supply}

theorem Room.marked {c : Context} (room : Room c a) (flags : Nat) : Room c { a with flags := flags } := by
  exact { room with regular := { room.regular with } }

theorem Enforced.finish {flags : Nat} (enforced : Enforced pml4 s) (room : Room s.context a)
    (spread : Spread pml4 supply a.start flags (a.length / pageSize) (s.enter slot a) u) (context : u.context = (s.enter slot a).context)
    (allowed : ∀ j < a.length / pageSize, Allowed a.prot (entryOf u.words pml4 (pageAt a.start j))) :
    Enforced pml4 (finishArea slot (u,true)).1 := by
  unfold finishArea
  rw [context,enter_here]
  refine enforced.enter (room.marked _) (joins_mark s slot a _) spread.map (fun p => ?_) allowed
  exact (spread.entries p).imp id (fun ⟨j,low,is,_⟩ => ⟨j,low,is⟩)

theorem Enforced.undo {flags : Nat} (enforced : Enforced pml4 s) (spread : Spread pml4 supply a.start flags k (s.enter slot a) u)
    (context : (rollback pml4 a.start k u).context = (s.enter slot a).context) :
    Enforced pml4 (finishArea slot (rollback pml4 a.start k u,false)).1 := by
  obtain ⟨map,entries⟩ := spread.undo
  unfold finishArea
  rw [context,enter_here]
  exact enforced.leave (leaves_enter s slot a _) map entries

theorem Enforced.populate (enforced : Enforced pml4 s) (room : Room s.context a)
    (supplies : Supplies pml4 supply s.words (a.length / pageSize))
    (vacant : a.flags &&& mapAnonymous = 0 → ∀ x, a.start ≤ x → x < a.start + a.length →
      entryOf s.words pml4 (pageOf x) &&& pagePresent = 0) : Enforced pml4 (populate pml4 supply slot (s.enter slot a)).1 := by
  have flagged := protToPteFlags_allowed a.prot
  have laid : ∀ {frame : Nat}, IsFrame frame → Allowed a.prot (pteFlags frame (protToPteFlags a.prot ||| pagePresent)) :=
    fun isFrame => flagged.entry (frame_not_writable isFrame.mod_four)
  have absent : a.flags &&& mapAnonymous = 0 → ∀ j < a.length / pageSize, Allowed a.prot (entryOf s.words pml4 (pageAt a.start j)) := by
    intro file j low present
    have ends := room.regular.ends
    refine absurd (vacant file (pageAddr a.start j) ?_ ?_) present
    all_goals
      unfold pageAddr add64 pageSize at *
      omega
  have small : 0 + a.length / pageSize ≤ 2^36 := by
    have ends := room.regular.ends
    have half := room.regular.half
    unfold pageSize
    omega
  have frames : ∀ j < 0 + a.length / pageSize, ∀ frame, supply.frames j = some frame → IsFrame frame :=
    fun j low => supplies.frames j (by omega)
  unfold MmapPages.populate
  rw [enter_here]
  dsimp only
  split
  · have context := @populateAnonymous_context pml4 supply a.start (protToPteFlags a.prot) (a.length / pageSize) 0 (s.enter slot a)
    rcases populateAnonymous_cases (s := s.enter slot a) (a.length / pageSize) (Laid.nothing enforced.map) supplies.tables frames small with
      ⟨v,ran,done,-⟩ | ⟨j,extra,v,_,_,part,ran,-⟩
    · rw [ran] at context ⊢
      rw [Nat.zero_add] at done
      refine enforced.finish room done.spread context (fun j low => ?_)
      obtain ⟨isFrame,is⟩ := done.lies j low
      rw [is]
      exact laid isFrame
    · rw [ran] at context ⊢
      exact enforced.undo part.spread context
  case isFalse file =>
    have absent := absent (not_not.mp file)
    split
    · exact enforced.enter (room.marked _) (joins_mark s slot a _) enforced.map (fun _ => .inl rfl) absent
    · split
      · have context := @populateShared_context pml4 supply a.start (protToPteFlags a.prot) (a.length / pageSize) 0 (s.enter slot a)
        have nothing : Spread pml4 supply a.start (protToPteFlags a.prot) 0 (s.enter slot a) (s.enter slot a) := ⟨enforced.map,fun _ => .inl rfl⟩
        rcases populateShared_cases (a.length / pageSize) nothing supplies.tables frames with ⟨v,ran,spread⟩ | ⟨j,v,spread,ran⟩
        · rw [ran] at context ⊢
          rw [Nat.zero_add] at spread
          refine enforced.finish room spread context (fun j low => ?_)
          rcases spread.entries (pageAt a.start j) with same | ⟨_,_,_,frame,isFrame,is⟩
          · rw [same]
            exact absent j low
          · rw [is]
            exact laid isFrame
        · rw [ran] at context ⊢
          exact enforced.undo spread context
      · exact enforced.enter room (joins_enter s slot a) enforced.map (fun _ => .inl rfl) absent

end
theorem Enforced.mmap {supply : Supply} {addr length flags offset : Nat} (enforced : Enforced pml4 s)
    (ok : mmapRefuses addr length prot flags offset = true ∨ MapOk pml4 supply s addr length flags) :
    ∃ t value, mmapDoMmap pml4 supply s addr length prot flags offset = some (t,value) ∧ Enforced pml4 t := by
  unfold mmapDoMmap
  by_cases refused : mmapRefuses addr length prot flags offset = true
  · rw [if_pos refused]
    exact ⟨s,mapFailed,rfl,enforced⟩
  · have ok := ok.resolve_left refused
    rw [if_neg refused]
    obtain ⟨positive,small,aligned⟩ := of_not_refused refused
    obtain ⟨t,found,chosen,shaped,shrinks,placed⟩ := enforced.toShaped.chooses ok.range positive small aligned
    have kept := enforced.shrink shaped shrinks
    rw [chosen]
    refine ⟨_,_,rfl,?_⟩
    show Enforced pml4 (enterArea pml4 supply t (newArea found (pageAlignUp length) prot flags offset)).1
    unfold enterArea
    split
    · exact kept
    case isFalse nonzero =>
      obtain ⟨room,vacant⟩ := placed nonzero
      split
      · exact kept
      · exact kept.populate (room _ _ _)
          ⟨ok.supplies.frames,shrinks.tables.fresh ok.supplies.tables⟩ (fun file => vacant (ok.vacant file))

end

namespace Protection

/-- A call, with what the allocators and the page cache return during it. -/
inductive Request where
  | mmap (supply : Supply) (addr length prot flags offset : Nat)
  | mprotect (tables : Slot → Nat → List Nat) (addr length prot : Nat)
  | fault (vaddr errorCode : Nat) (frame cached : Option Nat) (tables : List Nat)

def step (pml4 : Nat) (s : Space) : Request → Option Space
  | .mmap supply addr length prot flags offset => (mmapDoMmap pml4 supply s addr length prot flags offset).map Prod.fst
  | .mprotect tables addr length prot => some (mmapDoMprotect pml4 tables s addr length prot).1
  | .fault vaddr errorCode frame cached tables => some (mmapPageFaultHandler pml4 s vaddr errorCode frame cached tables).1

/-- What each call needs for the page map to go on as the areas allow. -/
def Meets (pml4 : Nat) (s : Space) : Request → Prop
  | .mmap supply addr length prot flags offset =>
    mmapRefuses addr length prot flags offset = true ∨ MapOk pml4 supply s addr length flags
  | .mprotect _ addr length prot => length = 0 ∨ Suits pml4 s addr (pageAlignUp length) prot
  | .fault vaddr errorCode frame cached tables => FaultOk pml4 s vaddr errorCode frame cached tables

theorem step_enforced {pml4 : Nat} (s : Space) (r : Request) (enforced : Enforced pml4 s) (meets : Meets pml4 s r) :
    ∃ t, step pml4 s r = some t ∧ Enforced pml4 t := by
  cases r with
  | mmap supply addr length prot flags offset =>
    obtain ⟨t,value,ran,kept⟩ := enforced.mmap meets
    exact ⟨t,by rw [step,ran]; rfl,kept⟩
  | mprotect tables addr length prot =>
    refine ⟨_,rfl,?_⟩
    unfold mmapDoMprotect
    split
    · exact enforced
    case isFalse empty =>
      dsimp only
      exact enforced.protect (meets.resolve_left empty)
  | fault vaddr errorCode frame cached tables => exact ⟨_,rfl,enforced.fault meets⟩

/-- In every run that meets the condition no page of an area allows more than the protection of the area. -/
theorem mmap_run_enforced (pml4 : Nat) (s : Space) (requests : List Request) (enforced : Enforced pml4 s)
    (meets : Guarded (step pml4) (Meets pml4) s requests) :
    ∃ t, run (step pml4) s requests = some t ∧ ∀ i x, (t.context.areas i).active = true → (t.context.areas i).start ≤ x →
      x < (t.context.areas i).start + (t.context.areas i).length →
      Allowed (t.context.areas i).prot (entryOf t.words pml4 (pageOf x)) := by
  obtain ⟨t,ran,final⟩ := run_invariant step_enforced requests s enforced meets
  exact ⟨t,ran,final.allowed⟩

def onePage (prot : Nat) : Space :=
  { nothing with context := { mmapContextInit.put 0 (newArea 0x10000000 4096 prot mapPrivate 0) with areaCount := 1 } }

private theorem onePage_areas {i : Slot} (active : ((onePage prot).context.areas i).active = true) : i = 0 := by
  by_contra other
  have idle : (onePage prot).context.areas i = .zero := Function.update_of_ne other ..
  rw [idle] at active
  cases active

theorem onePage_enforced (prot : Nat) : Enforced 0x1000 (onePage prot) := by
  refine ⟨⟨nothing_map,fun i active => ?_,fun i k spanI spanK different atI atK => ?_⟩,fun i x _ _ _ => ?_⟩
  · rw [onePage_areas active]
    exact ⟨show 0x10000000 % pageSize = 0 by decide,show 4096 % pageSize = 0 by decide,show 0x10000000 + 4096 < 2^64 by decide,
      .inl (show 0x10000000 + 4096 ≤ 2^47 by decide)⟩
  · have first := onePage_areas (span_eq_some.mp atI).1
    have second := onePage_areas (span_eq_some.mp atK).1
    exact absurd (first.trans second.symm) different
  · rw [entryOf_empty (fun _ => rfl)]
    exact allowed_zero _

theorem mmap_run_enforced_of_write : Enforced 0x1000 (onePage (protRead ||| protWrite)) ∧
    ∃ t, run (step 0x1000) (onePage (protRead ||| protWrite))
      [.fault 0x10000000 pfWrite (some 0x5000) none [0x2000,0x3000,0x4000],
        .mprotect (fun _ _ => []) 0x10000000 4096 (protRead ||| protWrite ||| protExec)] = some t ∧
      ∀ i x, (t.context.areas i).active = true → (t.context.areas i).start ≤ x →
        x < (t.context.areas i).start + (t.context.areas i).length →
        Allowed (t.context.areas i).prot (entryOf t.words 0x1000 (pageOf x)) := by
  refine ⟨onePage_enforced _,mmap_run_enforced 0x1000 _ _ (onePage_enforced _) ⟨⟨?_,?_,?_,?_⟩,fun t _ => ⟨.inr ?_,fun _ _ => trivial⟩⟩⟩
  · rintro f ⟨⟩
    decide
  · rintro f ⟨⟩
  · exact fresh_zero (by decide) (by decide) nofun
  · intro i active _ _ _ _
    rw [onePage_areas active]
    decide
  · exact fun i _ => .inr ⟨fun _ => by decide,fun _ => by decide⟩

/-- A write to a private area that may only be read maps its page writable. -/
theorem mmap_fault_writable : Enforced 0x1000 (onePage protRead) ∧
    ((mmapPageFaultHandler 0x1000 (onePage protRead) 0x10000000 pfWrite (some 0x5000) none [0x2000,0x3000,0x4000]).1.context.areas 0).prot =
      protRead ∧
    (mmapPageFaultHandler 0x1000 (onePage protRead) 0x10000000 pfWrite (some 0x5000) none [0x2000,0x3000,0x4000]).2 = 0 ∧
    entryOf (mmapPageFaultHandler 0x1000 (onePage protRead) 0x10000000 pfWrite (some 0x5000) none [0x2000,0x3000,0x4000]).1.words
      0x1000 (pageOf 0x10000000) = 0x8000000000005007 ∧ ¬ Allowed protRead 0x8000000000005007 := by
  refine ⟨onePage_enforced _,by decide +kernel,by decide +kernel,by decide +kernel,fun allowed => ?_⟩
  exact absurd ((allowed nofun).1 nofun) nofun

end Protection
end Kenux.MmapPages
