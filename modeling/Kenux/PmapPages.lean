import Kenux.Pmap

/-!
A page map of `memory.c` as a function from pages to entries. A walk uses bits 12 to
47 of an address, so there are 2^36 pages. In a map whose tables are distinct, not at
address 0 and without large pages (`PageMap`), unmapping and mapping are updates of
that function at one page (`PageMap.unmap`, `PageMap.map`), and a translation reads it
(`PageMap.translate`). The tables that a mapping makes do not show.
-/
namespace Kenux.Pmap
open Kenux.Radix Kenux.Words
open Function (update)

abbrev Page : Type := Fin (2^36)

def pageOf (vaddr : Nat) : Page := ⟨vaddr / pageSize % 2^36,Nat.mod_lt _ (by decide)⟩

variable {v w : Nat}

theorem pageOf_eq_iff : pageOf w = pageOf v ↔ path w = path v ∧ index w 12 = index v 12 := by
  unfold pageOf path pageSize
  simp only [List.cons.injEq,and_true,Fin.ext_iff,index_val]
  omega

private theorem pageOf_mul (p : Page) : pageOf (p * pageSize) = p := by
  apply Fin.ext
  unfold pageOf pageSize
  dsimp only
  omega

theorem pageOf_canonical (canonical : Canonical v) (canonical' : Canonical w) :
    pageOf w = pageOf v ↔ w / pageSize = v / pageSize := by
  constructor
  · intro same
    obtain ⟨first,last⟩ := pageOf_eq_iff.mp same
    exact page_of_path canonical canonical' first last
  · intro same
    exact pageOf_eq_iff.mpr (path_of_page same)

/-- The word that the lowest table has for a page, 0 without a table. -/
def entryOf (words : Nat → Nat) (pml4 : Nat) (p : Page) : Nat :=
  entry format words pml4 (path (p * pageSize)) (index (p * pageSize) 12)

private theorem entryOf_pageOf (words : Nat → Nat) (pml4 vaddr : Nat) :
    entryOf words pml4 (pageOf vaddr) = entry format words pml4 (path vaddr) (index vaddr 12) := by
  obtain ⟨first,last⟩ := pageOf_eq_iff.mp (pageOf_mul (pageOf vaddr))
  rw [entryOf,first,last]

/-- A page map as `pmap_map_page` builds it. -/
structure PageMap (words : Nat → Nat) (pml4 : Nat) : Prop where
  tree : PageTree words pml4
  nonzero : ∀ q : List Index, q.length ≤ 3 → descend format words pml4 q ≠ some 0

/-- The tables are the same; the entries of the lowest may differ. -/
def SameTables (words words' : Nat → Nat) (pml4 : Nat) : Prop :=
  ∀ q : List Index, q.length ≤ 3 → descend format words' pml4 q = descend format words pml4 q

section
variable {words words' : Nat → Nat} {pml4 vaddr pt t u : Nat} {pages later : List Nat} {m n : Machine}
  {i : Index} {p : List Index}

theorem SameTables.fresh (same : SameTables words words' pml4) (fresh : Fresh ⟨words,pages⟩ pml4) :
    Fresh ⟨words',pages⟩ pml4 := by
  refine ⟨fresh.page,fresh.distinct,fun t member q low => ?_⟩
  rw [same q low]
  exact fresh.unused t member q low

theorem SameTables.nonzero (same : SameTables words words' pml4) (map : PageMap words pml4) (q : List Index)
    (low : q.length ≤ 3) : descend format words' pml4 q ≠ some 0 := by
  rw [same q low]
  exact map.nonzero q low

theorem pteAddr_lt (pte : Nat) : pteAddr pte < 2^52 := by
  rw [pteAddr_eq]
  omega

theorem pteAddr_mod (pte : Nat) : pteAddr pte % pageSize = 0 := by
  rw [pteAddr_eq]
  unfold pageSize
  omega

theorem Fresh.left (fresh : Fresh ⟨words,pages ++ later⟩ pml4) : Fresh ⟨words,pages⟩ pml4 :=
  ⟨fun t member => fresh.page t (List.mem_append_left later member),(List.nodup_append.mp fresh.distinct).1,
    fun t member => fresh.unused t (List.mem_append_left later member)⟩

theorem Fresh.right (fresh : Fresh ⟨words,pages ++ later⟩ pml4) : Fresh ⟨words,later⟩ pml4 :=
  ⟨fun t member => fresh.page t (List.mem_append_right pages member),(List.nodup_append.mp fresh.distinct).2.1,
    fun t member => fresh.unused t (List.mem_append_right pages member)⟩

theorem Got.append (got : Got m t i n u) (later : List Nat) :
    Got ⟨m.words,m.pages ++ later⟩ t i ⟨n.words,n.pages ++ later⟩ u := by
  cases got with
  | linked next => exact .linked next
  | failed => exact .failed
  | new absent pages => exact .new absent (by rw [pages]; rfl)

theorem Got.nonzero (tree : PageTree m.words pml4)
    (fresh : Fresh m pml4) (short : p.length < 3) (reached : descend format m.words pml4 p = some t) (got : Got m t i n u)
    (nonzero : ∀ q : List Index, q.length ≤ 3 → descend format m.words pml4 q ≠ some 0) (q : List Index) (low : q.length ≤ 3) :
    descend format n.words pml4 q ≠ some 0 := by
  cases got with
  | linked next | failed => exact nonzero q low
  | @new _ rest absent pages =>
    have member : u ∈ m.pages := by simp [pages]
    have grown := grown_of_alloc tree fresh pages short reached absent
    rw [grown.descend tree short reached (fresh.unused u member) q low]
    split
    · intro null
      exact (fresh.page u member).2.1 (Option.some.inj null)
    · exact nonzero q low

section
variable (paged : PageMap words pml4)
include paged

theorem PageMap.root_ne : pml4 ≠ 0 := fun null => paged.nonzero [] (by decide) (congrArg some null)

theorem PageMap.translate (vaddr : Nat) : pmapTranslate words pml4 vaddr =
    if entryOf words pml4 (pageOf vaddr) &&& pagePresent = 0 then none
    else some (add64 (pteAddr (entryOf words pml4 (pageOf vaddr))) (vaddr % 4096)) := by
  rw [entryOf_pageOf,pmapTranslate_eq vaddr paged.root_ne paged.tree,offset_eq]

theorem PageMap.getPhysical (vaddr : Nat) : pmapGetPhysical words pml4 vaddr =
    if entryOf words pml4 (pageOf vaddr) &&& pagePresent = 0 then 0
    else pteAddr (entryOf words pml4 (pageOf vaddr)) + vaddr % pageSize := by
  have short := pteAddr_lt (entryOf words pml4 (pageOf vaddr))
  rw [pmapGetPhysical,paged.translate]
  split
  · rfl
  · rw [add64_of_lt (by omega)]
    rfl

theorem PageMap.write (reached : descend format words pml4 (path vaddr) = some pt)
    (w : Nat) : PageMap (update words (entryAddr pt (index vaddr 12)) w) pml4 ∧
      SameTables words (update words (entryAddr pt (index vaddr 12)) w) pml4 ∧
      entryOf (update words (entryAddr pt (index vaddr 12)) w) pml4 =
        update (entryOf words pml4) (pageOf vaddr) w := by
  obtain ⟨tree,entries⟩ : PageTree (update words (entryAddr pt (index vaddr 12)) w) pml4 ∧ _ :=
    paged.tree.write rfl reached
  have same : SameTables words (update words (entryAddr pt (index vaddr 12)) w) pml4 :=
    paged.tree.write_descend rfl reached
  refine ⟨⟨tree,same.nonzero paged⟩,same,?_⟩
  funext p
  refine (entries _ _ rfl).trans ?_
  by_cases here : p = pageOf vaddr
  · rw [here,Function.update_self,if_pos (pageOf_eq_iff.mp (pageOf_mul (pageOf vaddr)))]
  · rw [Function.update_of_ne here,if_neg]
    · rfl
    · intro both
      exact here ((pageOf_mul p).symm.trans (pageOf_eq_iff.mpr both))

theorem PageMap.unmap (vaddr : Nat) : PageMap (pmapUnmapPage words pml4 vaddr) pml4 ∧
    SameTables words (pmapUnmapPage words pml4 vaddr) pml4 ∧
    entryOf (pmapUnmapPage words pml4 vaddr) pml4 = update (entryOf words pml4) (pageOf vaddr) 0 := by
  rcases pmapUnmapPage_cases vaddr words paged.root_ne with ⟨missing,same⟩ | ⟨pt,reached,cleared⟩
  · rw [same]
    refine ⟨paged,fun _ _ => rfl,?_⟩
    have empty : entryOf words pml4 (pageOf vaddr) = 0 := by
      rw [entryOf_pageOf,entry_of_none format missing]
      rfl
    rw [← empty,Function.update_eq_self]
  · rw [cleared]
    exact paged.write reached 0

/-- Mapping a page fails and changes no entry, or writes the entry of the page. The pages that were not for this call
    are still to be had. -/
theorem PageMap.map (fresh : Fresh ⟨words,pages ++ later⟩ pml4)
    (vaddr paddr flags : Nat) : ∃ n status, pmapMapPage ⟨words,pages⟩ pml4 vaddr paddr flags = (n,status) ∧
      PageMap n.words pml4 ∧ Fresh ⟨n.words,later⟩ pml4 ∧
      (status = -1 ∧ entryOf n.words pml4 = entryOf words pml4 ∨
        status = 0 ∧ entryOf n.words pml4 =
          update (entryOf words pml4) (pageOf vaddr) (pteFlags paddr (flags ||| pagePresent))) := by
  have made := pmapMapPage_keeps (K := fun m => Fresh ⟨m.words,m.pages ++ later⟩ pml4 ∧
      ∀ q : List Index, q.length ≤ 3 → descend format m.words pml4 q ≠ some 0)
    (fun tree fresh short reached got kept => ⟨((got.append later).extends tree kept.1 short reached).1.fresh,
      got.nonzero tree fresh short reached kept.2⟩) vaddr paddr flags paged.tree fresh.left ⟨fresh,paged.nonzero⟩
  obtain ⟨n,extended,⟨kept,nonzero⟩,outcome⟩ := made
  have entries : entryOf n.words pml4 = entryOf words pml4 := funext fun p => extended.entries _ _ rfl
  rcases outcome with failed | ⟨_,pt,reached,wrote⟩
  · exact ⟨n,-1,failed,⟨extended.tree,nonzero⟩,kept.right,.inl ⟨rfl,entries⟩⟩
  · obtain ⟨mapped,same,written⟩ := PageMap.write ⟨extended.tree,nonzero⟩ reached (pteFlags paddr (flags ||| pagePresent))
    exact ⟨_,0,wrote,mapped,same.fresh kept.right,.inr ⟨rfl,by rw [written,entries]⟩⟩

theorem PageMap.remap (reached : descend format words pml4 (path vaddr) = some pt)
    (pages : List Nat) (paddr flags : Nat) : pmapMapPage ⟨words,pages⟩ pml4 vaddr paddr flags =
      (⟨update words (entryAddr pt (index vaddr 12)) (pteFlags paddr (flags ||| pagePresent)),pages⟩,0) := by
  rcases walk_cases words pml4 vaddr with ⟨missing,_⟩ | ⟨first,second,third,above,bottom⟩
  · cases reached.symm.trans missing
  · cases reached.symm.trans bottom
    have pdpt : pteAddr (pml4e words pml4 vaddr) ≠ 0 := fun null =>
      paged.nonzero [index vaddr 39] (by simp) ((descend_cons_of_present [] first).trans (congrArg some null))
    have pd : pteAddr (pdpte words pml4 vaddr) ≠ 0 := fun null =>
      paged.nonzero [index vaddr 39,index vaddr 30] (by simp) (above.trans (congrArg some null))
    have pt : pteAddr (pde words pml4 vaddr) ≠ 0 := fun null =>
      paged.nonzero (path vaddr) (by simp [path]) (bottom.trans (congrArg some null))
    have linked₁ : pmapGetOrAllocTable ⟨words,pages⟩ (entryAddr pml4 (index vaddr 39)) =
      (⟨words,pages⟩,pteAddr (pml4e words pml4 vaddr)) := if_pos first
    have linked₂ : pmapGetOrAllocTable ⟨words,pages⟩ (entryAddr (pteAddr (pml4e words pml4 vaddr)) (index vaddr 30)) =
      (⟨words,pages⟩,pteAddr (pdpte words pml4 vaddr)) := if_pos second
    have linked₃ : pmapGetOrAllocTable ⟨words,pages⟩ (entryAddr (pteAddr (pdpte words pml4 vaddr)) (index vaddr 21)) =
      (⟨words,pages⟩,pteAddr (pde words pml4 vaddr)) := if_pos third
    simp only [pmapMapPage,if_neg paged.root_ne,linked₁,if_neg pdpt,linked₂,if_neg pd,linked₃,if_neg pt]

theorem PageMap.unmap_remap (present : entryOf words pml4 (pageOf vaddr) &&& pagePresent ≠ 0) (pages : List Nat) (paddr flags : Nat) :
    ∃ n, pmapMapPage ⟨pmapUnmapPage words pml4 vaddr,pages⟩ pml4 vaddr paddr flags = (n,0) ∧ PageMap n.words pml4 ∧
      entryOf n.words pml4 = update (entryOf words pml4) (pageOf vaddr) (pteFlags paddr (flags ||| pagePresent)) := by
  obtain ⟨unmapped,same,cleared⟩ := paged.unmap vaddr
  rw [entryOf_pageOf] at present
  cases reached : descend format words pml4 (path vaddr) with
  | none =>
    rw [entry_of_none format reached] at present
    exact absurd rfl present
  | some pt =>
    have there := (same (path vaddr) (by simp [path])).trans reached
    obtain ⟨mapped,_,written⟩ := unmapped.write there (pteFlags paddr (flags ||| pagePresent))
    refine ⟨_,unmapped.remap there pages paddr flags,mapped,?_⟩
    rw [written,cleared,Function.update_idem]

end

theorem PageMap.table (map : PageMap m.words pml4) (fresh : Fresh m pml4)
    (short : p.length < 3) (reached : descend format m.words pml4 p = some t) (i : Index) (stocked : m.pages ≠ []) :
    ∃ n u, pmapGetOrAllocTable m (entryAddr t i) = (n,u) ∧ u ≠ 0 ∧ PageMap n.words pml4 ∧ Fresh n pml4 ∧
      descend format n.words pml4 (p ++ [i]) = some u ∧ m.pages.length ≤ n.pages.length + 1 := by
  rcases outcome : pmapGetOrAllocTable m (entryAddr t i) with ⟨n,u⟩
  have got := pmapGetOrAllocTable_got outcome
  have kept := got.nonzero map.tree fresh short reached map.nonzero
  obtain ⟨extended,linked⟩ := got.extends map.tree fresh short reached
  have table : u ≠ 0 ∧ m.pages.length ≤ n.pages.length + 1 := by
    unfold pmapGetOrAllocTable at outcome
    split at outcome
    case isTrue present =>
      cases outcome
      refine ⟨fun null => map.nonzero (p ++ [i]) (by simp; omega) ?_,Nat.le_succ _⟩
      rw [descend_snoc format reached]
      exact (next_of_present present).trans (congrArg some null)
    · split at outcome
      next pages => exact absurd pages stocked
      next page rest pages =>
        cases outcome
        exact ⟨(fresh.page u (by simp [pages])).2.1,by simp [pages]⟩
  exact ⟨n,u,rfl,table.1,⟨extended.tree,kept⟩,extended.fresh,linked table.1,table.2⟩

theorem PageMap.map_of_three (map : PageMap words pml4) (fresh : Fresh ⟨words,pages⟩ pml4)
    (enough : 3 ≤ pages.length) (vaddr paddr flags : Nat) : (pmapMapPage ⟨words,pages⟩ pml4 vaddr paddr flags).2 = 0 := by
  have stocked : ∀ {m : Machine} {k : Nat}, k < m.pages.length → m.pages ≠ [] := by
    intro m k more none
    rw [none] at more
    exact absurd more (Nat.not_lt_zero k)
  obtain ⟨m₁,pdpt,got₁,table₁,map₁,fresh₁,reached₁,used₁⟩ :=
    PageMap.table (m := ⟨words,pages⟩) (p := []) map fresh (by simp) rfl (index vaddr 39) (stocked (show 2 < pages.length from enough))
  have enough₁ : 1 < m₁.pages.length := by
    dsimp only at used₁
    omega
  obtain ⟨m₂,pd,got₂,table₂,map₂,fresh₂,reached₂,used₂⟩ :=
    map₁.table fresh₁ (by simp) reached₁ (index vaddr 30) (stocked enough₁)
  have enough₂ : 0 < m₂.pages.length := by omega
  obtain ⟨m₃,pt,got₃,table₃,_⟩ := map₂.table fresh₂ (by simp) reached₂ (index vaddr 21) (stocked enough₂)
  simp only [pmapMapPage,if_neg map.root_ne,got₁,if_neg table₁,got₂,if_neg table₂,got₃,if_neg table₃]

theorem PageMap.empty (aligned : pml4 % pageSize = 0) (nonzero : pml4 ≠ 0) (empty : ∀ i, words (entryAddr pml4 i) = 0) :
    PageMap words pml4 := by
  refine ⟨pageTree_empty aligned empty,fun q _ null => nonzero ?_⟩
  exact (descend_empty empty null).2.symm

theorem entryOf_empty (empty : ∀ i, words (entryAddr pml4 i) = 0) (p : Page) : entryOf words pml4 p = 0 := by
  rw [entryOf,entry_of_none]
  · rfl
  · exact descend_cons_of_absent _ (by rw [empty]; rfl)

end
end Kenux.Pmap
