import Kenux.PmapPages
import Kenux.Runs

/-!
Runs of `pmap_map_page` and `pmap_unmap_page` on one map, against a function from pages to frames
that each call updates at one page (`pmap_run_refines`): no call shows at another page, whatever
tables the two share, and a call that fails does not show at all.
-/
namespace Kenux.PmapRuns
open Kenux.Pmap Kenux.Runs
open Function (update)

/-- The memory, and the frame of each page as the calls have asked. -/
structure State where
  words : Nat → Nat
  frames : Page → Option Nat

/-- A call; a mapping with the pages that `memory_alloc_aligned` returns during it, and `NULL` after them. -/
inductive Request
  | map (vaddr paddr flags : Nat) (pages : List Nat)
  | unmap (vaddr : Nat)

def step (pml4 : Nat) (s : State) : Request → Option State
  | .map vaddr paddr flags pages =>
    let out := pmapMapPage ⟨s.words,pages⟩ pml4 vaddr paddr flags
    some ⟨out.1.words,if out.2 = 0 then update s.frames (pageOf vaddr) (some paddr) else s.frames⟩
  | .unmap vaddr => some ⟨pmapUnmapPage s.words pml4 vaddr,update s.frames (pageOf vaddr) none⟩

/-- The pages for tables are not tables yet, the frame is one that an entry can hold. -/
def Meets (pml4 : Nat) (s : State) : Request → Prop
  | .map _ paddr flags pages =>
    Fresh ⟨s.words,pages⟩ pml4 ∧ paddr % pageSize = 0 ∧ paddr < 2^52 ∧ IsFlags flags
  | .unmap _ => True

def frameOf (pte : Nat) : Option Nat := if pte &&& pagePresent = 0 then none else some (pteAddr pte)

structure Inv (pml4 : Nat) (s : State) : Prop where
  paged : PageMap s.words pml4
  frames : s.frames = frameOf ∘ entryOf s.words pml4

variable {pml4 : Nat} {s : State}

private theorem frameOf_pteFlags {paddr flags : Nat} (aligned : paddr % pageSize = 0) (bound : paddr < 2^52)
    (isFlags : IsFlags flags) : frameOf (pteFlags paddr (flags ||| pagePresent)) = some paddr := by
  rw [frameOf,if_neg (present_pteFlags paddr flags),pteAddr_pteFlags aligned bound (isFlags.or (by decide))]

theorem Inv.step (inv : Inv pml4 s) (r : Request) (meets : Meets pml4 s r) :
    ∃ t, step pml4 s r = some t ∧ Inv pml4 t := by
  cases r with
  | map vaddr paddr flags pages =>
    obtain ⟨fresh,aligned,bound,isFlags⟩ := meets
    rw [← List.append_nil pages] at fresh
    obtain ⟨n,status,called,paged,_,outcome⟩ := inv.paged.map fresh vaddr paddr flags
    refine ⟨_,rfl,?_⟩
    simp only [called]
    apply Inv.mk paged
    rcases outcome with ⟨rfl,same⟩ | ⟨rfl,written⟩
    · simp [same,inv.frames]
    · simp [written,inv.frames,Function.comp_update,frameOf_pteFlags aligned bound isFlags]
  | unmap vaddr =>
    obtain ⟨paged,_,cleared⟩ := inv.paged.unmap vaddr
    refine ⟨_,rfl,paged,?_⟩
    simp [cleared,inv.frames,Function.comp_update,frameOf]

theorem Inv.translate (inv : Inv pml4 s) (v : Nat) :
    pmapTranslate s.words pml4 v = (s.frames (pageOf v)).map (· + v % pageSize) := by
  have short := pteAddr_lt (entryOf s.words pml4 (pageOf v))
  rw [inv.paged.translate,inv.frames,Function.comp_apply,frameOf]
  split
  · rfl
  · rw [Words.add64_of_lt (by omega)]
    rfl

/-- From an empty table, after every run of calls an address translates to its offset in the frame that its
    page was last mapped to, and to nothing if the page was never mapped or unmapped since; and a mapping for which
    three pages are left succeeds. -/
theorem pmap_run_refines (words : Nat → Nat) (requests : List Request) (aligned : pml4 % pageSize = 0)
    (nonzero : pml4 ≠ 0) (empty : ∀ i, words (entryAddr pml4 i) = 0)
    (meets : Guarded (step pml4) (Meets pml4) ⟨words,fun _ => none⟩ requests) :
    ∃ s, run (step pml4) ⟨words,fun _ => none⟩ requests = some s ∧
      (∀ v, pmapTranslate s.words pml4 v = (s.frames (pageOf v)).map (· + v % pageSize)) ∧
      ∀ v paddr flags pages, Fresh ⟨s.words,pages⟩ pml4 → 3 ≤ pages.length →
        (pmapMapPage ⟨s.words,pages⟩ pml4 v paddr flags).2 = 0 := by
  have start : Inv pml4 ⟨words,fun _ => none⟩ := by
    refine ⟨.empty aligned nonzero empty,funext fun p => ?_⟩
    simp [entryOf_empty empty,frameOf]
  obtain ⟨s,ran,inv⟩ := run_invariant (fun _ r inv => Inv.step inv r) requests _ start meets
  refine ⟨s,ran,inv.translate,?_⟩
  intro v paddr flags pages fresh enough
  exact inv.paged.map_of_three fresh enough v paddr flags

theorem pmap_run_refines_of_one : ∃ s, run (step 0x1000) ⟨fun _ => 0,fun _ => none⟩
    [.map 0x400000 0x7000 pageWritable [0x2000,0x3000,0x4000]] = some s ∧
    pmapTranslate s.words 0x1000 0x400008 = some 0x7008 ∧ pmapTranslate s.words 0x1000 0x401008 = none := by
  have fresh : Fresh ⟨fun _ => 0,[0x2000,0x3000,0x4000]⟩ 0x1000 := fresh_zero (by decide) (by decide) nofun
  obtain ⟨s,ran,reads,_⟩ := pmap_run_refines (fun _ => 0) [.map 0x400000 0x7000 pageWritable [0x2000,0x3000,0x4000]]
    (by decide) (by decide) (fun _ => rfl) ⟨⟨fresh,by decide,by decide,by decide⟩,fun _ _ => trivial⟩
  refine ⟨s,ran,?_,?_⟩
  · rw [reads]
    cases ran
    decide
  · rw [reads]
    cases ran
    decide

end Kenux.PmapRuns
