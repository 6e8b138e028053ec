import Mathlib.Logic.Function.Basic
import Kenux.Radix
import Kenux.Words

/-!
The page maps of `memory.c`: four levels of tables of 512 entries, walked by nine
bits of the address at each level. In a map whose tables are distinct and hold no large
pages, and with an allocator that gives pages that are not tables yet, mapping a page
makes the addresses of that page translate as asked and unmapping makes them translate to
nothing; no other page is touched, and a mapping that fails touches none
(`pmap_map_then_unmap`). The address given need not be the start of its page
(`pmap_map_page_unaligned`).
-/
namespace Kenux.Pmap
open Kenux.Radix Kenux.Words
open Function (update update_self update_of_ne)

def pagePresent : Nat := 2^0
def pageWritable : Nat := 2^1
def pageUser : Nat := 2^2
def pageSize2M : Nat := 2^7
def pageNoExec : Nat := 2^63
def pageSize : Nat := 4096

def pteAddr (pte : Nat) : Nat := pte &&& 0x000FFFFFFFFFF000
def pteFlags (addr flags : Nat) : Nat := addr ||| flags

abbrev Index : Type := Fin 512

private theorem index_lt (n : Nat) : n &&& 0x1FF < 512 := Nat.lt_of_le_of_lt Nat.and_le_right (by decide)

def index (vaddr shift : Nat) : Index := ⟨(vaddr >>> shift) &&& 0x1FF,index_lt _⟩

def entryAddr (table : Nat) (i : Index) : Nat := table + 8 * i

/-- The words of physical memory, and the pages that the allocator has to give. -/
structure Machine where
  words : Nat → Nat
  pages : List Nat

def clearPage (words : Nat → Nat) (table : Nat) : Nat → Nat :=
  fun a => if table ≤ a ∧ a < table + pageSize then 0 else words a

/-- `__pmap_get_or_alloc_table`, 0 for `NULL`. -/
def pmapGetOrAllocTable (m : Machine) (entry : Nat) : Machine × Nat :=
  if m.words entry &&& pagePresent ≠ 0 then (m,pteAddr (m.words entry))
  else
    match m.pages with
    | [] => (m,0)
    | table :: rest => (⟨update (clearPage m.words table) entry (pteFlags table (pagePresent ||| pageWritable)),
        rest⟩,table)

def pmapMapPage (m : Machine) (pml4 vaddr paddr flags : Nat) : Machine × Int :=
  if pml4 = 0 then (m,-1)
  else
    let (m,pdpt) := pmapGetOrAllocTable m (entryAddr pml4 (index vaddr 39))
    if pdpt = 0 then (m,-1)
    else
      let (m,pd) := pmapGetOrAllocTable m (entryAddr pdpt (index vaddr 30))
      if pd = 0 then (m,-1)
      else
        let (m,pt) := pmapGetOrAllocTable m (entryAddr pd (index vaddr 21))
        if pt = 0 then (m,-1)
        else
          let pte := pteFlags paddr (flags ||| pagePresent)
          (⟨update m.words (entryAddr pt (index vaddr 12)) pte,m.pages⟩,0)

def pmapUnmapPage (words : Nat → Nat) (pml4 vaddr : Nat) : Nat → Nat :=
  if pml4 = 0 then words
  else
    let pml4e := words (entryAddr pml4 (index vaddr 39))
    if pml4e &&& pagePresent = 0 then words
    else
      let pdpte := words (entryAddr (pteAddr pml4e) (index vaddr 30))
      if pdpte &&& pagePresent = 0 then words
      else
        let pde := words (entryAddr (pteAddr pdpte) (index vaddr 21))
        if pde &&& pagePresent = 0 then words
        else update words (entryAddr (pteAddr pde) (index vaddr 12)) 0

/-- The walk of `pmap_get_physical`; `none` where an entry is not present. -/
def pmapTranslate (words : Nat → Nat) (pml4 vaddr : Nat) : Option Nat :=
  if pml4 = 0 then none
  else
    let pml4e := words (entryAddr pml4 (index vaddr 39))
    if pml4e &&& pagePresent = 0 then none
    else
      let pdpte := words (entryAddr (pteAddr pml4e) (index vaddr 30))
      if pdpte &&& pagePresent = 0 then none
      else
        let pde := words (entryAddr (pteAddr pdpte) (index vaddr 21))
        if pde &&& pagePresent = 0 then none
        else if pde &&& pageSize2M ≠ 0 then some (add64 (pteAddr pde) (vaddr &&& 0x1FFFFF))
        else
          let pte := words (entryAddr (pteAddr pde) (index vaddr 12))
          if pte &&& pagePresent = 0 then none
          else some (add64 (pteAddr pte) (vaddr &&& 0xFFF))

def pmapGetPhysical (words : Nat → Nat) (pml4 vaddr : Nat) : Nat := (pmapTranslate words pml4 vaddr).getD 0

theorem pteAddr_eq (pte : Nat) : pteAddr pte = pte / 2^12 % 2^40 * 2^12 := and_field pte 12 40

/-- The flags of a page: the low twelve bits and bit 63. -/
def IsFlags (flags : Nat) : Prop := flags &&& 0x8000000000000FFF = flags

instance (flags : Nat) : Decidable (IsFlags flags) := inferInstanceAs (Decidable (_ = _))

theorem IsFlags.or {a b : Nat} (left : IsFlags a) (right : IsFlags b) : IsFlags (a ||| b) := by
  unfold IsFlags at *
  rw [Nat.and_or_distrib_right,left,right]

variable {addr w t pml4 table u v : Nat} {words : Nat → Nat} {i : Index} {m n : Machine} {p : List Index}

theorem pteAddr_pteFlags {flags : Nat} (aligned : addr % pageSize = 0) (bound : addr < 2^52)
    (isFlags : IsFlags flags) : pteAddr (pteFlags addr flags) = addr := by
  have clear : pteAddr flags = 0 := by
    have mask : (0x8000000000000FFF : Nat) &&& 0x000FFFFFFFFFF000 = 0 := by decide
    rw [pteAddr,← isFlags,Nat.and_assoc,mask,Nat.and_zero]
  have whole : pteAddr addr = addr := by
    rw [pteAddr_eq]
    unfold pageSize at aligned
    omega
  rw [pteFlags,pteAddr,Nat.and_or_distrib_right]
  unfold pteAddr at clear whole
  rw [clear,whole,Nat.or_zero]

theorem present_pteFlags (addr flags : Nat) : pteFlags addr (flags ||| pagePresent) &&& pagePresent ≠ 0 := by
  rw [pteFlags,Nat.and_or_distrib_right,Nat.and_or_distrib_right]
  intro zero
  have parts := Nat.or_eq_zero_iff.mp zero
  exact absurd (Nat.or_eq_zero_iff.mp parts.2).2 nofun

theorem not_large_pteFlags (aligned : addr % pageSize = 0) :
    pteFlags addr (pagePresent ||| pageWritable) &&& pageSize2M = 0 := by
  have field : addr &&& pageSize2M = addr / 2^7 % 2^1 * 2^7 := and_field addr 7 1
  have flags : (pagePresent ||| pageWritable) &&& pageSize2M = 0 := by decide
  unfold pageSize at aligned
  rw [pteFlags,Nat.and_or_distrib_right,flags,Nat.or_zero]
  omega

theorem clearPage_entryAddr (words : Nat → Nat) {table t : Nat} (i : Index) (aligned : table % pageSize = 0)
    (isTable : t % pageSize = 0) :
    clearPage words table (entryAddr t i) = if t = table then 0 else words (entryAddr t i) := by
  unfold clearPage
  by_cases same : t = table
  · rw [if_pos same,if_pos]
    unfold pageSize entryAddr
    omega
  · rw [if_neg same,if_neg]
    unfold pageSize entryAddr at *
    omega

def format : Format Nat Nat Index where
  zero := 0
  next w := if w &&& pagePresent = 0 then none else some (pteAddr w)
  proper w := w &&& pageSize2M = 0
  slot := entryAddr
  IsTable t := t % pageSize = 0
  next_zero := rfl
  isTable_of_next := by
    intro w t link
    split at link
    · cases link
    · cases link
      rw [pteAddr_eq]
      unfold pageSize
      omega
  slot_inj := by
    intro t u i j isTable isTable' same
    unfold pageSize entryAddr at *
    have low := i.isLt
    have low' := j.isLt
    exact ⟨by omega,Fin.ext (by omega)⟩

/-- A page map whose tables are distinct and hold no large pages. -/
abbrev PageTree (words : Nat → Nat) (pml4 : Nat) : Prop := Tree format words pml4 3

/-- The allocator gives pages that are not tables of the map. -/
structure Fresh (m : Machine) (pml4 : Nat) : Prop where
  page : ∀ t ∈ m.pages, t % pageSize = 0 ∧ t ≠ 0 ∧ t < 2^52
  distinct : m.pages.Nodup
  unused : ∀ t ∈ m.pages, ∀ q : List Index, q.length ≤ 3 → descend format m.words pml4 q ≠ some t

/-- The tables on the way to the entry of a page. -/
def path (vaddr : Nat) : List Index := [index vaddr 39,index vaddr 30,index vaddr 21]

theorem next_of_present (present : w &&& pagePresent ≠ 0) : format.next w = some (pteAddr w) := if_neg present

private theorem next_of_absent (absent : w &&& pagePresent = 0) : format.next w = none := if_pos absent

theorem slot_eq (t : Nat) (i : Index) : format.slot t i = entryAddr t i := rfl

theorem descend_cons_of_present (rest : List Index) (present : ¬ words (entryAddr t i) &&& pagePresent = 0) :
    descend format words t (i :: rest) = descend format words (pteAddr (words (entryAddr t i))) rest := by
  rw [descend,slot_eq,next_of_present present]
  rfl

theorem descend_cons_of_absent (rest : List Index)
    (absent : words (entryAddr t i) &&& pagePresent = 0) : descend format words t (i :: rest) = none := by
  rw [descend,slot_eq,next_of_absent absent]
  rfl

section
variable (words : Nat → Nat) (pml4 vaddr : Nat)

/-- The entries that a walk meets in the three upper tables. -/
def pml4e : Nat := words (entryAddr pml4 (index vaddr 39))
def pdpte : Nat := words (entryAddr (pteAddr (pml4e words pml4 vaddr)) (index vaddr 30))
def pde : Nat := words (entryAddr (pteAddr (pdpte words pml4 vaddr)) (index vaddr 21))

theorem walk_cases :
    (descend format words pml4 (path vaddr) = none ∧ (pml4e words pml4 vaddr &&& pagePresent = 0 ∨
      pdpte words pml4 vaddr &&& pagePresent = 0 ∨ pde words pml4 vaddr &&& pagePresent = 0)) ∨
    (¬ pml4e words pml4 vaddr &&& pagePresent = 0 ∧ ¬ pdpte words pml4 vaddr &&& pagePresent = 0 ∧
      ¬ pde words pml4 vaddr &&& pagePresent = 0 ∧
      descend format words pml4 [index vaddr 39,index vaddr 30] = some (pteAddr (pdpte words pml4 vaddr)) ∧
      descend format words pml4 (path vaddr) = some (pteAddr (pde words pml4 vaddr))) := by
  unfold path
  by_cases first : pml4e words pml4 vaddr &&& pagePresent = 0
  · exact .inl ⟨descend_cons_of_absent _ first,.inl first⟩
  · rw [descend_cons_of_present _ first,descend_cons_of_present _ first]
    by_cases second : pdpte words pml4 vaddr &&& pagePresent = 0
    · exact .inl ⟨descend_cons_of_absent _ second,.inr (.inl second)⟩
    · rw [show words (entryAddr pml4 (index vaddr 39)) = pml4e words pml4 vaddr from rfl,
        descend_cons_of_present _ second,descend_cons_of_present _ second]
      by_cases third : pde words pml4 vaddr &&& pagePresent = 0
      · exact .inl ⟨descend_cons_of_absent _ third,.inr (.inr third)⟩
      · exact .inr ⟨first,second,third,rfl,descend_cons_of_present _ third⟩

variable {words pml4}

theorem pmapTranslate_eq (nonzero : pml4 ≠ 0) (tree : PageTree words pml4) :
    pmapTranslate words pml4 vaddr =
      if entry format words pml4 (path vaddr) (index vaddr 12) &&& pagePresent = 0 then none
      else some (add64 (pteAddr (entry format words pml4 (path vaddr) (index vaddr 12))) (vaddr &&& 0xFFF)) := by
  refine (if_neg nonzero).trans ?_
  rcases walk_cases words pml4 vaddr with ⟨missing,absent⟩ | ⟨first,second,third,above,reached⟩
  · rw [entry_of_none format missing,if_pos (show format.zero &&& pagePresent = 0 from rfl)]
    dsimp only
    split
    · rfl
    case isFalse first =>
      split
      · rfl
      case isFalse second => exact if_pos ((absent.resolve_left first).resolve_left second)
  · have small : pde words pml4 vaddr &&& pageSize2M = 0 :=
      tree.proper (by simp) above (next_of_present third)
    rw [entry_of_descend format reached]
    exact (if_neg first).trans ((if_neg second).trans ((if_neg third).trans (if_neg (not_not.mpr small))))

theorem pmapUnmapPage_cases (words : Nat → Nat) (nonzero : pml4 ≠ 0) :
    (descend format words pml4 (path vaddr) = none ∧ pmapUnmapPage words pml4 vaddr = words) ∨
    ∃ pt, descend format words pml4 (path vaddr) = some pt ∧
      pmapUnmapPage words pml4 vaddr = update words (entryAddr pt (index vaddr 12)) 0 := by
  rcases walk_cases words pml4 vaddr with ⟨missing,absent⟩ | ⟨first,second,third,_,reached⟩
  · refine .inl ⟨missing,(if_neg nonzero).trans ?_⟩
    dsimp only
    split
    · rfl
    case isFalse first =>
      split
      · rfl
      case isFalse second => exact if_pos ((absent.resolve_left first).resolve_left second)
  · exact .inr ⟨_,reached,(if_neg nonzero).trans ((if_neg first).trans ((if_neg second).trans (if_neg third)))⟩

theorem pmapUnmapPage_spec (nonzero : pml4 ≠ 0) (tree : PageTree words pml4) :
    PageTree (pmapUnmapPage words pml4 vaddr) pml4 ∧ ∀ q j, q.length = 3 →
      entry format (pmapUnmapPage words pml4 vaddr) pml4 q j =
        if q = path vaddr ∧ j = index vaddr 12 then 0 else entry format words pml4 q j := by
  rcases pmapUnmapPage_cases vaddr words nonzero with ⟨missing,same⟩ | ⟨pt,reached,cleared⟩
  · rw [same]
    refine ⟨tree,fun q j _ => ?_⟩
    split
    case isTrue here =>
      rw [here.1]
      exact entry_of_none format missing j
    · rfl
  · rw [cleared]
    exact tree.write rfl reached

end

/-! ### Mapping -/

/-- The map is the same up to tables that hold nothing. -/
structure Extends (m n : Machine) (pml4 : Nat) : Prop where
  tree : PageTree n.words pml4
  fresh : Fresh n pml4
  entries : ∀ q j, q.length = 3 → entry format n.words pml4 q j = entry format m.words pml4 q j

theorem Extends.trans {o : Machine} (first : Extends m n pml4) (second : Extends n o pml4) : Extends m o pml4 :=
  ⟨second.tree,second.fresh,fun q j full => (second.entries q j full).trans (first.entries q j full)⟩

theorem grown_of_page (aligned : table % pageSize = 0) (bound : table < 2^52)
    (isTable : t % pageSize = 0) (other : t ≠ table) (absent : words (entryAddr t i) &&& pagePresent = 0) :
    Grown format words (update (clearPage words table) (entryAddr t i)
      (pteFlags table (pagePresent ||| pageWritable))) t i table := by
  have link : pteFlags table (pagePresent ||| pageWritable) &&& pagePresent ≠ 0 := by
    exact present_pteFlags table pageWritable
  constructor
  · exact next_of_absent absent
  · exact aligned
  · rw [slot_eq,update_self,next_of_present link,
      pteAddr_pteFlags aligned bound (by decide)]
  · rw [slot_eq,update_self]
    exact not_large_pteFlags aligned
  · intro j
    have away : entryAddr table j ≠ entryAddr t i :=
      fun same => other (format.slot_inj aligned isTable same).1.symm
    rw [slot_eq,update_of_ne away,
      clearPage_entryAddr words j aligned aligned,if_pos rfl]
    rfl
  · intro u j isTableU different away
    have apart : entryAddr u j ≠ entryAddr t i := fun same => away (format.slot_inj isTableU isTable same)
    rw [slot_eq,update_of_ne apart,
      clearPage_entryAddr words j aligned isTableU,if_neg different]

theorem grown_of_alloc {rest : List Nat}
    (tree : PageTree m.words pml4) (fresh : Fresh m pml4) (pages : m.pages = table :: rest) (short : p.length < 3)
    (reached : descend format m.words pml4 p = some t) (absent : m.words (entryAddr t i) &&& pagePresent = 0) :
    Grown format m.words (update (clearPage m.words table) (entryAddr t i)
      (pteFlags table (pagePresent ||| pageWritable))) t i table := by
  have member : table ∈ m.pages := by simp [pages]
  obtain ⟨aligned,_,bound⟩ := fresh.page table member
  exact grown_of_page aligned bound (tree.isTable_of_descend reached)
    (fun same => fresh.unused table member p (Nat.le_of_lt short) (same ▸ reached)) absent

inductive Got (m : Machine) (t : Nat) (i : Index) : Machine → Nat → Prop
  | linked {u : Nat} (next : format.next (m.words (entryAddr t i)) = some u) : Got m t i m u
  | failed : Got m t i m 0
  | new {u : Nat} {rest : List Nat} (absent : m.words (entryAddr t i) &&& pagePresent = 0) (pages : m.pages = u :: rest) :
    Got m t i ⟨update (clearPage m.words u) (entryAddr t i) (pteFlags u (pagePresent ||| pageWritable)),rest⟩ u

theorem pmapGetOrAllocTable_got (got : pmapGetOrAllocTable m (entryAddr t i) = (n,u)) : Got m t i n u := by
  unfold pmapGetOrAllocTable at got
  split at got
  case isTrue present =>
    cases got
    exact .linked (next_of_present present)
  case isFalse absent =>
    split at got
    next =>
      cases got
      exact .failed
    next pages =>
      cases got
      exact .new (not_not.mp absent) pages

theorem Got.extends (got : Got m t i n u)
    (tree : PageTree m.words pml4) (fresh : Fresh m pml4) (short : p.length < 3) (reached : descend format m.words pml4 p = some t) :
    Extends m n pml4 ∧ (u ≠ 0 → descend format n.words pml4 (p ++ [i]) = some u) := by
  have self : Extends m m pml4 := ⟨tree,fresh,fun _ _ _ => rfl⟩
  cases got with
  | linked next =>
    refine ⟨self,fun _ => ?_⟩
    rw [descend_snoc format reached]
    exact next
  | failed => exact ⟨self,fun nonzero => absurd rfl nonzero⟩
  | @new _ rest absent pages =>
    have member : u ∈ m.pages := by simp [pages]
    have grown := grown_of_alloc tree fresh pages short reached absent
    have unused := fresh.unused u member
    obtain ⟨kept,entries⟩ := tree.grow grown short reached unused
    have paths := grown.descend tree short reached unused
    refine ⟨⟨kept,?_,entries⟩,fun _ => ?_⟩
    · have distinct := fresh.distinct
      rw [pages] at distinct
      have later : ∀ v ∈ rest, v ∈ m.pages := fun v memberV => by simp [pages,memberV]
      constructor
      · exact fun v memberV => fresh.page v (later v memberV)
      · exact distinct.of_cons
      · intro v memberV q low
        rw [paths q low]
        split
        · intro same
          cases same
          exact (List.nodup_cons.mp distinct).1 memberV
        · exact fresh.unused v (later v memberV) q low
    · rw [paths _ (by rw [List.length_append,List.length_singleton]; omega),if_pos rfl]

/-- A mapping fails after making tables that hold nothing, or writes the entry of the page. What the making of a
    table keeps holds in between. -/
theorem pmapMapPage_keeps {K : Machine → Prop} (keeps : ∀ {m n p t i u}, PageTree m.words pml4 → Fresh m pml4 →
      p.length < 3 → descend format m.words pml4 p = some t → Got m t i n u → K m → K n)
    (vaddr paddr flags : Nat) (tree : PageTree m.words pml4) (fresh : Fresh m pml4) (kept : K m) :
    ∃ n, Extends m n pml4 ∧ K n ∧ (pmapMapPage m pml4 vaddr paddr flags = (n,-1) ∨
      pml4 ≠ 0 ∧ ∃ pt, descend format n.words pml4 (path vaddr) = some pt ∧
        pmapMapPage m pml4 vaddr paddr flags = (⟨update n.words (entryAddr pt (index vaddr 12))
          (pteFlags paddr (flags ||| pagePresent)),n.pages⟩,0)) := by
  unfold pmapMapPage
  split
  · exact ⟨m,⟨tree,fresh,fun _ _ _ => rfl⟩,kept,.inl rfl⟩
  case isFalse null =>
    rcases got₁ : pmapGetOrAllocTable m (entryAddr pml4 (index vaddr 39)) with ⟨m₁,pdpt⟩
    have table₁ := pmapGetOrAllocTable_got got₁
    obtain ⟨extends₁,reached₁⟩ := table₁.extends (p := []) tree fresh (by simp) rfl
    have kept₁ := keeps (p := []) tree fresh (by simp) rfl table₁ kept
    by_cases null₁ : pdpt = 0
    · exact ⟨m₁,extends₁,kept₁,.inl (if_pos null₁)⟩
    · simp only [if_neg null₁]
      rcases got₂ : pmapGetOrAllocTable m₁ (entryAddr pdpt (index vaddr 30)) with ⟨m₂,pd⟩
      have table₂ := pmapGetOrAllocTable_got got₂
      obtain ⟨extends₂,reached₂⟩ := table₂.extends extends₁.tree extends₁.fresh (by simp) (reached₁ null₁)
      have kept₂ := keeps extends₁.tree extends₁.fresh (by simp) (reached₁ null₁) table₂ kept₁
      by_cases null₂ : pd = 0
      · exact ⟨m₂,extends₁.trans extends₂,kept₂,.inl (if_pos null₂)⟩
      · simp only [if_neg null₂]
        rcases got₃ : pmapGetOrAllocTable m₂ (entryAddr pd (index vaddr 21)) with ⟨m₃,pt⟩
        have table₃ := pmapGetOrAllocTable_got got₃
        obtain ⟨extends₃,reached₃⟩ := table₃.extends extends₂.tree extends₂.fresh (by simp) (reached₂ null₂)
        have kept₃ := keeps extends₂.tree extends₂.fresh (by simp) (reached₂ null₂) table₃ kept₂
        have all := (extends₁.trans extends₂).trans extends₃
        by_cases null₃ : pt = 0
        · exact ⟨m₃,all,kept₃,.inl (if_pos null₃)⟩
        · exact ⟨m₃,all,kept₃,.inr ⟨null,pt,reached₃ null₃,if_neg null₃⟩⟩

/-! ### Pages -/

/-- The upper bits of a canonical address are copies of bit 47. -/
def Canonical (vaddr : Nat) : Prop := vaddr < 2^47 ∨ 2^64 - 2^47 ≤ vaddr ∧ vaddr < 2^64

instance (vaddr : Nat) : Decidable (Canonical vaddr) := inferInstanceAs (Decidable (_ ∨ _))

theorem index_val (vaddr shift : Nat) : (index vaddr shift : Nat) = vaddr / 2^shift % 512 := by
  rw [← Nat.shiftRight_eq_div_pow]
  exact Nat.and_two_pow_sub_one_eq_mod _ 9

theorem offset_eq (vaddr : Nat) : vaddr &&& 0xFFF = vaddr % 4096 := Nat.and_two_pow_sub_one_eq_mod vaddr 12

theorem path_of_page (same : w / pageSize = v / pageSize) : path w = path v ∧ index w 12 = index v 12 := by
  have indices : ∀ shift, index w (12 + shift) = index v (12 + shift) := by
    intro shift
    apply Fin.ext
    rw [index_val,index_val,Nat.pow_add,← Nat.div_div_eq_div_mul,← Nat.div_div_eq_div_mul]
    exact congrArg (fun page => page / 2^shift % 512) same
  unfold path
  rw [indices 27,indices 18,indices 9]
  exact ⟨rfl,indices 0⟩

theorem page_of_path (canonical : Canonical v) (canonical' : Canonical w) (same : path w = path v)
    (last : index w 12 = index v 12) : w / pageSize = v / pageSize := by
  unfold path at same
  simp only [List.cons.injEq,and_true] at same
  obtain ⟨first,second,third⟩ := same
  have indices : ∀ shift, index w shift = index v shift → w / 2^shift % 512 = v / 2^shift % 512 := by
    intro shift equal
    rw [← index_val,← index_val,equal]
  have a := indices 39 first
  have b := indices 30 second
  have c := indices 21 third
  have d := indices 12 last
  unfold Canonical at *
  unfold pageSize
  omega

/-- The addresses of other pages translate as before. -/
def SameElsewhere (before after : Nat → Nat) (pml4 vaddr : Nat) : Prop :=
  ∀ w, Canonical w → w / pageSize ≠ vaddr / pageSize → pmapTranslate after pml4 w = pmapTranslate before pml4 w

theorem translate_of_write {words' : Nat → Nat} {vaddr pte : Nat} (nonzero : pml4 ≠ 0)
    (canonical : Canonical vaddr) (tree : PageTree words pml4) (tree' : PageTree words' pml4)
    (entries : ∀ q j, q.length = 3 → entry format words' pml4 q j =
      if q = path vaddr ∧ j = index vaddr 12 then pte else entry format words pml4 q j) :
    (∀ w, w / pageSize = vaddr / pageSize → pmapTranslate words' pml4 w =
      if pte &&& pagePresent = 0 then none else some (add64 (pteAddr pte) (w % 4096))) ∧
    SameElsewhere words words' pml4 vaddr := by
  constructor
  · intro w same
    obtain ⟨pathSame,lastSame⟩ := path_of_page same
    have written : entry format words' pml4 (path w) (index w 12) = pte := by
      rw [entries _ _ rfl,if_pos ⟨pathSame,lastSame⟩]
    rw [pmapTranslate_eq w nonzero tree',written,offset_eq]
  · intro w canonicalW different
    have away : ¬ (path w = path vaddr ∧ index w 12 = index vaddr 12) :=
      fun both => different (page_of_path canonical canonicalW both.1 both.2)
    rw [pmapTranslate_eq w nonzero tree',pmapTranslate_eq w nonzero tree,entries _ _ rfl,if_neg away]

/-- A mapping that succeeds changes the translation of its page only, and unmapping takes it back; one that fails changes none. -/
theorem pmap_map_then_unmap {m n : Machine} {pml4 vaddr paddr flags : Nat} {status : Int}
    (tree : PageTree m.words pml4) (fresh : Fresh m pml4) (canonical : Canonical vaddr)
    (aligned : paddr % pageSize = 0) (bound : paddr < 2^52) (isFlags : IsFlags flags)
    (mapped : pmapMapPage m pml4 vaddr paddr flags = (n,status)) :
    (status = 0 →
      (∀ k < pageSize, pmapGetPhysical n.words pml4 (vaddr / pageSize * pageSize + k) = paddr + k) ∧
      SameElsewhere m.words n.words pml4 vaddr ∧
      (∀ w, w / pageSize = vaddr / pageSize →
        pmapTranslate (pmapUnmapPage n.words pml4 vaddr) pml4 w = none) ∧
      SameElsewhere n.words (pmapUnmapPage n.words pml4 vaddr) pml4 vaddr) ∧
    (status ≠ 0 → ∀ w, pmapTranslate n.words pml4 w = pmapTranslate m.words pml4 w) := by
  obtain ⟨o,extended,-,failed | ⟨nonzero,pt,reached,wrote⟩⟩ :=
    pmapMapPage_keeps (K := fun _ => True) (fun _ _ _ _ _ _ => trivial) vaddr paddr flags tree fresh trivial
  · cases mapped.symm.trans failed
    refine ⟨fun success => absurd success nofun,fun _ w => ?_⟩
    by_cases null : pml4 = 0
    · rw [pmapTranslate,pmapTranslate,if_pos null,if_pos null]
    · rw [pmapTranslate_eq w null extended.tree,pmapTranslate_eq w null tree,extended.entries _ _ rfl]
  · cases mapped.symm.trans wrote
    refine ⟨fun _ => ?_,fun failure => absurd rfl failure⟩
    obtain ⟨treeMapped,entriesMapped⟩ : PageTree _ pml4 ∧ _ := extended.tree.write rfl reached
    obtain ⟨treeUnmapped,entriesUnmapped⟩ := pmapUnmapPage_spec vaddr nonzero treeMapped
    obtain ⟨here,elsewhere⟩ := translate_of_write nonzero canonical tree treeMapped (fun q j full => by
      rw [entriesMapped q j full,extended.entries q j full])
    obtain ⟨gone,elsewhere'⟩ := translate_of_write nonzero canonical treeMapped treeUnmapped entriesUnmapped
    refine ⟨fun k small => ?_,elsewhere,fun w same => gone w same,elsewhere'⟩
    unfold pageSize at small
    have page : (vaddr / pageSize * pageSize + k) / pageSize = vaddr / pageSize := by
      unfold pageSize
      omega
    have offset : (vaddr / pageSize * pageSize + k) % 4096 = k := by
      unfold pageSize
      omega
    have translated := here _ page
    rw [if_neg (present_pteFlags paddr flags),offset,pteAddr_pteFlags aligned bound (isFlags.or (by decide)),
      add64_of_lt (by omega)] at translated
    exact congrArg (fun t => Option.getD t 0) translated

theorem descend_empty {q : List Index} (empty : ∀ i, words (entryAddr pml4 i) = 0)
    (reached : descend format words pml4 q = some t) : q = [] ∧ t = pml4 := by
  cases q with
  | nil =>
    cases reached
    exact ⟨rfl,rfl⟩
  | cons i rest =>
    rw [descend_cons_of_absent rest (by rw [empty i]; rfl)] at reached
    cases reached

theorem pageTree_empty (aligned : pml4 % pageSize = 0)
    (empty : ∀ i, words (entryAddr pml4 i) = 0) : PageTree words pml4 := by
  constructor
  · exact aligned
  · intro p q t _ _ first second
    rw [(descend_empty empty first).1,(descend_empty empty second).1]
  · intro p t i u _ reached link
    obtain ⟨rfl,rfl⟩ := descend_empty empty reached
    rw [slot_eq,empty i] at link
    cases link

private theorem pageTree_zero (aligned : pml4 % pageSize = 0) : PageTree (fun _ => 0) pml4 :=
  pageTree_empty aligned (fun _ => rfl)

theorem fresh_zero {pages : List Nat} (page : ∀ t ∈ pages, t % pageSize = 0 ∧ t ≠ 0 ∧ t < 2^52)
    (distinct : pages.Nodup) (other : pml4 ∉ pages) : Fresh ⟨fun _ => 0,pages⟩ pml4 := by
  constructor
  · exact page
  · exact distinct
  · intro t member q _ reached
    exact other ((descend_empty (fun _ => rfl) reached).2 ▸ member)

theorem pmap_map_then_unmap_of_zero : ∃ n,
    pmapMapPage ⟨fun _ => 0,[0x2000,0x3000,0x4000]⟩ 0x1000 0x400000 0x7000 0x8000000000000006 = (n,0) ∧
    (∀ k < pageSize, pmapGetPhysical n.words 0x1000 (0x400000 / pageSize * pageSize + k) = 0x7000 + k) ∧
    SameElsewhere (fun _ => 0) n.words 0x1000 0x400000 ∧
    (∀ w, w / pageSize = 0x400000 / pageSize →
      pmapTranslate (pmapUnmapPage n.words 0x1000 0x400000) 0x1000 w = none) ∧
    SameElsewhere n.words (pmapUnmapPage n.words 0x1000 0x400000) 0x1000 0x400000 := by
  have mapped : pmapMapPage ⟨fun _ => 0,[0x2000,0x3000,0x4000]⟩ 0x1000 0x400000 0x7000 0x8000000000000006 = (_,0) :=
    Prod.ext rfl (by decide)
  exact ⟨_,mapped,(pmap_map_then_unmap (pageTree_zero (by decide)) (fresh_zero (by decide) (by decide) (by decide))
    (by decide) (by decide) (by decide) (by decide) mapped).1 rfl⟩

theorem pmap_map_page_unaligned : PageTree (fun _ => 0) 0x1000 ∧
    Fresh ⟨fun _ => 0,[0x2000,0x3000,0x4000]⟩ 0x1000 ∧ Canonical 0x400001 ∧ 0x7000 % pageSize = 0 ∧ IsFlags 6 ∧
    ∃ n, pmapMapPage ⟨fun _ => 0,[0x2000,0x3000,0x4000]⟩ 0x1000 0x400001 0x7000 6 = (n,0) ∧
      pmapGetPhysical n.words 0x1000 (0x400001 + 0) ≠ 0x7000 + 0 := by
  refine ⟨pageTree_zero (by decide),fresh_zero (by decide) (by decide) nofun,by decide,by decide,by decide,
    (pmapMapPage ⟨fun _ => 0,[0x2000,0x3000,0x4000]⟩ 0x1000 0x400001 0x7000 6).1,?_,?_⟩
  · exact Prod.ext rfl (by decide)
  · decide

end Kenux.Pmap
