import Kenux.PmapPages
import Kenux.Runs

/-!
Who can reach the pages of a map of `memory.c`. The processor lets user mode use a page when
the user bit is set in all four entries of its walk, but `__pmap_get_or_alloc_table` makes
the three upper ones without it. In every map that calls of `pmap_map_page` build from an
empty table the upper entries therefore have no user bit (`Kernel`). A page mapped
without the user flag cannot be reached from user mode; neither can a page mapped with
it (`pmap_run_user`, `pmap_user_page_unreachable`).
-/
namespace Kenux.PmapUser
open Kenux.Pmap Kenux.Radix Kenux.Runs Kenux.Words

def pte (words : Nat → Nat) (pml4 vaddr : Nat) : Nat := words (entryAddr (pteAddr (pde words pml4 vaddr)) (index vaddr 12))

/-- A bit is set in all four entries of the walk. -/
def Walk (bit : Nat) (words : Nat → Nat) (pml4 vaddr : Nat) : Prop :=
  pml4e words pml4 vaddr &&& bit ≠ 0 ∧ pdpte words pml4 vaddr &&& bit ≠ 0 ∧ pde words pml4 vaddr &&& bit ≠ 0 ∧
    pte words pml4 vaddr &&& bit ≠ 0

/-- What the processor asks of an access from user mode. -/
def UserAccessible (words : Nat → Nat) (pml4 vaddr : Nat) : Prop :=
  Walk pagePresent words pml4 vaddr ∧ Walk pageUser words pml4 vaddr

/-- The memory, and the frame and flags that each page was last mapped with. -/
structure State where
  words : Nat → Nat
  mapped : Page → Option (Nat × Nat)

/-- A call of `pmap_map_page`, with the pages that `memory_alloc_aligned` returns during it; after them it
    returns `NULL`. -/
structure Request where
  vaddr : Nat
  paddr : Nat
  flags : Nat
  pages : List Nat

def next (pml4 : Nat) (s : State) (r : Request) : State :=
  let out := pmapMapPage ⟨s.words,r.pages⟩ pml4 r.vaddr r.paddr r.flags
  ⟨out.1.words,if out.2 = 0 then Function.update s.mapped (pageOf r.vaddr) (some (r.paddr,r.flags)) else s.mapped⟩

def step (pml4 : Nat) (s : State) (r : Request) : Option State := some (next pml4 s r)

def Allocates (pml4 : Nat) (s : State) (r : Request) : Prop := Fresh ⟨s.words,r.pages⟩ pml4

/-- The page can be reached from user mode if it was mapped with the user flag, and only then. -/
def AsAsked (pml4 : Nat) (s : State) (vaddr : Nat) : Prop :=
  ∀ paddr flags, s.mapped (pageOf vaddr) = some (paddr,flags) →
    (flags &&& pageUser ≠ 0 → Walk pageUser s.words pml4 vaddr) ∧
    (flags &&& pageUser = 0 → ¬ UserAccessible s.words pml4 vaddr)

/-- The tables above the lowest hold no entry with the user bit. -/
def Kernel (words : Nat → Nat) (pml4 : Nat) : Prop :=
  ∀ p t i, p.length < 3 → descend format words pml4 p = some t → words (entryAddr t i) &&& pageUser = 0

theorem not_user_pteFlags {table : Nat} (aligned : table % pageSize = 0) :
    pteFlags table (pagePresent ||| pageWritable) &&& pageUser = 0 := by
  have field : table &&& pageUser = table / 2^2 % 2^1 * 2^2 := and_field table 2 1
  have flags : (pagePresent ||| pageWritable) &&& pageUser = 0 := by decide
  unfold pageSize at aligned
  rw [pteFlags,Nat.and_or_distrib_right,flags,Nat.or_zero]
  omega

variable {pml4 : Nat} {p : List Index} {i : Index} {words : Nat → Nat}

theorem Kernel.got {m n : Machine} {t u : Nat} (tree : PageTree m.words pml4)
    (fresh : Fresh m pml4) (short : p.length < 3) (reached : descend format m.words pml4 p = some t) (got : Got m t i n u)
    (kernel : Kernel m.words pml4) : Kernel n.words pml4 := by
  cases got with
  | linked next | failed => exact kernel
  | @new _ rest absent pages =>
    have member : u ∈ m.pages := by simp [pages]
    have grown := grown_of_alloc tree fresh pages short reached absent
    have paths := grown.descend tree short reached (fresh.unused u member)
    intro q v j low there
    dsimp only at there ⊢
    rw [paths q (Nat.le_of_lt low)] at there
    split at there
    · cases there
      rw [← slot_eq u,grown.blank j]
      rfl
    · by_cases linked : v = t ∧ j = i
      · obtain ⟨rfl,rfl⟩ := linked
        rw [Function.update_self]
        exact not_user_pteFlags (fresh.page u member).1
      · have other : v ≠ u := fun same => fresh.unused u member q (Nat.le_of_lt low) (same ▸ there)
        rw [← slot_eq v,grown.same (tree.isTable_of_descend there) other linked]
        exact kernel q v j low there

section
variable (kernel : Kernel words pml4)
include kernel

theorem Kernel.write {pt w : Nat}
    (tree : PageTree words pml4) (lowest : p.length = 3) (reached : descend format words pml4 p = some pt) :
    Kernel (Function.update words (entryAddr pt i) w) pml4 := by
  intro q t j low there
  rw [← slot_eq pt,tree.write_descend lowest reached q (Nat.le_of_lt low)] at there
  rw [← slot_eq pt,← slot_eq t,
    tree.write_above lowest reached j low there]
  exact kernel q t j low there

theorem Kernel.walk {vaddr : Nat}
    (present : entry format words pml4 (path vaddr) (index vaddr 12) &&& pagePresent ≠ 0) :
    Walk pagePresent words pml4 vaddr ∧ pte words pml4 vaddr = entry format words pml4 (path vaddr) (index vaddr 12) ∧
      pml4e words pml4 vaddr &&& pageUser = 0 ∧ pdpte words pml4 vaddr &&& pageUser = 0 ∧
      pde words pml4 vaddr &&& pageUser = 0 := by
  rcases walk_cases words pml4 vaddr with ⟨missing,_⟩ | ⟨first,second,third,above,reached⟩
  · rw [entry_of_none format missing] at present
    exact absurd rfl present
  · have leaf : pte words pml4 vaddr = entry format words pml4 (path vaddr) (index vaddr 12) :=
      (entry_of_descend format reached _).symm
    have root := kernel [] pml4 (index vaddr 39) (by decide) rfl
    have middle := kernel [index vaddr 39] (pteAddr (pml4e words pml4 vaddr)) (index vaddr 30) (by simp)
      (descend_cons_of_present [] first)
    have lower := kernel _ _ (index vaddr 21) (by simp) above
    rw [← leaf] at present
    exact ⟨⟨first,second,third,present⟩,leaf,root,middle,lower⟩

theorem Kernel.unreachable (vaddr : Nat) :
    ¬ Walk pageUser words pml4 vaddr := fun walk => walk.1 (kernel [] pml4 _ (by decide) rfl)

end

structure Inv (pml4 : Nat) (s : State) : Prop where
  tree : PageTree s.words pml4
  kernel : Kernel s.words pml4
  entries : ∀ v paddr flags, s.mapped (pageOf v) = some (paddr,flags) →
    entry format s.words pml4 (path v) (index v 12) = pteFlags paddr (flags ||| pagePresent)

theorem Inv.next {s : State} {r : Request} (inv : Inv pml4 s) (fresh : Allocates pml4 s r) :
    Inv pml4 (next pml4 s r) := by
  obtain ⟨n,extended,kernel,failed | ⟨_,pt,reached,wrote⟩⟩ :=
    pmapMapPage_keeps (K := fun m => Kernel m.words pml4) Kernel.got r.vaddr r.paddr r.flags inv.tree fresh inv.kernel
  · rw [PmapUser.next,failed]
    refine ⟨extended.tree,kernel,fun v paddr flags there => ?_⟩
    rw [extended.entries _ _ rfl]
    exact inv.entries v paddr flags there
  · obtain ⟨tree,entries⟩ : PageTree _ pml4 ∧ _ := extended.tree.write rfl reached
    rw [PmapUser.next,wrote]
    refine ⟨tree,kernel.write extended.tree rfl reached,fun v paddr flags there => (entries _ _ rfl).trans ?_⟩
    dsimp only at there
    rw [if_pos rfl] at there
    by_cases same : pageOf v = pageOf r.vaddr
    · rw [same,Function.update_self] at there
      cases there
      rw [if_pos (pageOf_eq_iff.mp same)]
    · rw [Function.update_of_ne same] at there
      rw [if_neg (fun both => same (pageOf_eq_iff.mpr both)),extended.entries _ _ rfl]
      exact inv.entries v paddr flags there

theorem mapped_of_request {paddr flags : Nat} {page : Page} (requests : List Request) {s t : State}
    (ran : run (step pml4) s requests = some t) (there : t.mapped page = some (paddr,flags)) :
    s.mapped page = some (paddr,flags) ∨ ∃ r ∈ requests, r.flags = flags := by
  induction requests generalizing s with
  | nil =>
    cases ran
    exact .inl there
  | cons r rest ih =>
    rcases ih ran with before | ⟨a,member,asked⟩
    · dsimp only [next] at before
      split at before
      · by_cases here : page = pageOf r.vaddr
        · rw [here,Function.update_self] at before
          cases before
          exact .inr ⟨r,List.mem_cons_self,rfl⟩
        · rw [Function.update_of_ne here] at before
          exact .inl before
      · exact .inl before
    · exact .inr ⟨a,List.mem_cons_of_mem r member,asked⟩

theorem inv_empty (aligned : pml4 % pageSize = 0) (empty : ∀ i, words (entryAddr pml4 i) = 0) :
    Inv pml4 ⟨words,fun _ => none⟩ := by
  refine ⟨pageTree_empty aligned empty,?_,?_⟩
  · intro p t i _ reached
    obtain ⟨rfl,rfl⟩ := descend_empty empty reached
    show words (entryAddr t i) &&& pageUser = 0
    rw [empty i]
    rfl
  · nofun

/-- In every map built from an empty table, a page mapped without the user flag cannot be reached from user mode. All
    pages are as asked if no call asks for the user flag; a page mapped with it has the bit in its own entry, and
    lacks it in the three above. -/
theorem pmap_run_user (words : Nat → Nat) (pml4 : Nat) (requests : List Request) (aligned : pml4 % pageSize = 0)
    (empty : ∀ i, words (entryAddr pml4 i) = 0)
    (allocates : Guarded (step pml4) (Allocates pml4) ⟨words,fun _ => none⟩ requests) :
    ∃ s, run (step pml4) ⟨words,fun _ => none⟩ requests = some s ∧
      (∀ v paddr flags, s.mapped (pageOf v) = some (paddr,flags) → flags &&& pageUser = 0 →
        ¬ UserAccessible s.words pml4 v) ∧
      ((∀ r ∈ requests, r.flags &&& pageUser = 0) → ∀ v, AsAsked pml4 s v) ∧
      ∀ v paddr flags, s.mapped (pageOf v) = some (paddr,flags) → flags &&& pageUser ≠ 0 →
        Walk pagePresent s.words pml4 v ∧ pte s.words pml4 v &&& pageUser ≠ 0 ∧ pml4e s.words pml4 v &&& pageUser = 0 ∧
          pdpte s.words pml4 v &&& pageUser = 0 ∧ pde s.words pml4 v &&& pageUser = 0 := by
  obtain ⟨s,ran,inv⟩ := run_invariant (fun s r inv fresh => ⟨_,rfl,Inv.next inv fresh⟩) requests _
    (inv_empty aligned empty) allocates
  have hidden : ∀ v, ¬ UserAccessible s.words pml4 v := fun v accessible => inv.kernel.unreachable v accessible.2
  refine ⟨s,ran,fun v _ _ _ _ => hidden v,fun none v paddr flags there => ⟨fun user => ?_,fun _ => hidden v⟩,?_⟩
  · rcases mapped_of_request requests ran there with before | ⟨r,member,rfl⟩
    · cases before
    · exact absurd (none r member) user
  · intro v paddr flags there user
    have is := inv.entries v paddr flags there
    obtain ⟨present,leaf,upper⟩ := inv.kernel.walk (by rw [is]; exact present_pteFlags paddr flags)
    refine ⟨present,?_,upper⟩
    rw [leaf,is,pteFlags,Nat.and_or_distrib_right,Nat.and_or_distrib_right]
    intro zero
    exact user (Nat.or_eq_zero_iff.mp (Nat.or_eq_zero_iff.mp zero).2).1

theorem pmap_run_user_of_two : ∃ s, run (step 0x1000) ⟨fun _ => 0,fun _ => none⟩
    [⟨0x400000,0x7000,pageWritable,[0x2000,0x3000,0x4000]⟩,⟨0x401000,0x8000,pageUser,[]⟩] = some s ∧
    s.mapped (pageOf 0x400000) = some (0x7000,pageWritable) ∧ s.mapped (pageOf 0x401000) = some (0x8000,pageUser) ∧
    ¬ UserAccessible s.words 0x1000 0x400000 ∧ Walk pagePresent s.words 0x1000 0x401000 := by
  have first : Fresh ⟨fun _ => 0,[0x2000,0x3000,0x4000]⟩ 0x1000 := fresh_zero (by decide) (by decide) nofun
  have second : ∀ words, Fresh ⟨words,[]⟩ 0x1000 := fun words => ⟨by simp,List.nodup_nil,by simp⟩
  obtain ⟨s,ran,kernel,_,user⟩ := pmap_run_user (fun _ => 0) 0x1000
    [⟨0x400000,0x7000,pageWritable,[0x2000,0x3000,0x4000]⟩,⟨0x401000,0x8000,pageUser,[]⟩] (by decide) (fun _ => rfl)
    ⟨first,fun t _ => ⟨second t.words,fun _ _ => trivial⟩⟩
  cases ran
  exact ⟨_,rfl,by decide,by decide,kernel 0x400000 0x7000 pageWritable (by decide) (by decide),
    (user 0x401000 0x8000 pageUser (by decide) nofun).1⟩

theorem pmap_user_page_unreachable : Fresh ⟨fun _ => 0,[0x2000,0x3000,0x4000]⟩ 0x1000 ∧
    ∃ s, run (step 0x1000) ⟨fun _ => 0,fun _ => none⟩ [⟨0x400000,0x7000,pageUser,[0x2000,0x3000,0x4000]⟩] = some s ∧
      s.mapped (pageOf 0x400000) = some (0x7000,pageUser) ∧ pml4e s.words 0x1000 0x400000 = 0x2003 ∧
      pdpte s.words 0x1000 0x400000 = 0x3003 ∧ pde s.words 0x1000 0x400000 = 0x4003 ∧ pte s.words 0x1000 0x400000 = 0x7005 ∧
      ¬ Walk pageUser s.words 0x1000 0x400000 := by
  refine ⟨fresh_zero (by decide) (by decide) nofun,_,rfl,by decide,by decide,by decide,by decide,by decide,?_⟩
  rintro ⟨root,_⟩
  exact absurd root nofun

end Kenux.PmapUser
